import Frink.Expert.Prefill

/-! # The slot pool

The executor of the planner's copies. The bytes are the device's; the pool keeps a record of its
own of the expert each slot holds. Every check on a plan is made before the first device call, so
only a device fault can land in the middle of one.
-/

namespace Frink.Expert

inductive CopyRoute | deviceIndexed | wholeLayerPageable
  deriving DecidableEq

inductive ResidencyError
  | slotRemapOnUnpinnedLayer (layer : ℕ)
  deriving DecidableEq

/-- The layers whose host rows the device cannot address. -/
structure BankResidency where

  unpinned : List ℕ
  deriving DecidableEq

namespace BankResidency

def allPinned : BankResidency := ⟨[]⟩

def copyRoute (r : BankResidency) (layer : ℕ) (wholeLayer : Bool) :
    Except ResidencyError CopyRoute :=
  if layer ∉ r.unpinned then .ok .deviceIndexed
  else if wholeLayer then .ok .wholeLayerPageable
  else .error (.slotRemapOnUnpinnedLayer layer)

end BankResidency

/-- One width per bank; a row fills its slot exactly. -/
structure SlotGeometry where

  numLayers : ℕ
  slots : ℕ
  rowBytes : List ℕ
  deriving DecidableEq

def SlotGeometry.banks (g : SlotGeometry) : ℕ := g.rowBytes.length

abbrev Bytes := List UInt8

/-- The calls a backend answers; `σ` is everything it keeps, deferred copies and faults to come
included. -/
structure SlotDevice (σ : Type) where

  beginPlan : CopyRoute → σ → Except String Unit × σ
  writeSlot (bank dstSlot : ℕ) (src : Bytes) : σ → Except String Unit × σ
  copySlot (bank dstSlot srcSlot : ℕ) : σ → Except String Unit × σ
  flush : σ → Except String Unit × σ

/-- The host's bytes of an expert, by bank, layer and row. -/
abbrev ExpertRows := ℕ → ℕ → ℕ → Option Bytes

structure Applied where

  rows : ℕ
  bytes : ℕ
  warm : Bool
  deriving DecidableEq

structure SlotStats where

  plans : ℕ
  warmPlans : ℕ
  hostRows : ℕ
  hostBytes : ℕ
  deviceRows : ℕ
  deviceBytes : ℕ
  deriving DecidableEq

inductive SlotFault
  | planHalvesDisagree (dstSlots srcRows : ℕ)
  | slotOutOfRange (slot slots : ℕ)
  | slotWrittenTwice (slot : ℕ)
  | layerOutOfRange (layer numLayers : ℕ)
  | rowMissing (bank layer row : ℕ)
  | rowSizeMismatch (bank layer row expected got : ℕ)
  | residency (e : ResidencyError)
  | device (bank slot : ℕ) (detail : String)
  | deviceFlush (slots : List ℕ) (detail : String)
  deriving DecidableEq

/-- What the pool believes each slot of the device holds. -/
abbrev Occupants := List (Option ExpertId)

def Occupants.label (o : Occupants) (slot : ℕ) : Option ExpertId := o[slot]?.join

structure ExpertSlots where

  geometry : SlotGeometry
  residency : BankResidency
  occupant : Occupants
  stats : SlotStats
  deriving DecidableEq

/-- A refused row width, by its bank. -/
def checkWidths : List (ℕ × ℕ) → Except SlotFault Unit
  | [] => .ok ()
  | (bytes, bank) :: rest =>
      if bytes = 0 then .error (.rowSizeMismatch bank 0 0 0 0) else checkWidths rest

namespace ExpertSlots

def new (g : SlotGeometry) : Except SlotFault ExpertSlots :=
  if g.slots = 0 then .error (.slotOutOfRange 0 0)
  else if g.numLayers = 0 then .error (.layerOutOfRange 0 0)
  else match checkWidths g.rowBytes.zipIdx with
    | .error e => .error e
    | .ok () => .ok ⟨g, .allPinned, List.replicate g.slots none, ⟨0, 0, 0, 0, 0, 0⟩⟩

variable (p : ExpertSlots)

def withResidency (residency : BankResidency) : ExpertSlots := { p with residency }

/-- The expert the device holds in a slot, as far as the pool knows. -/
def occupantOf (slot : ℕ) : Option ExpertId := p.occupant.label slot

def invalidateSlot (slot : ℕ) : ExpertSlots := { p with occupant := p.occupant.set slot none }

/-- Each slot is the pool's and written once; `seen` are the slots before it. -/
def validateSlots (seen : List ℕ) : List ℕ → Except SlotFault Unit
  | [] => .ok ()
  | slot :: rest =>
      if p.geometry.slots ≤ slot then .error (.slotOutOfRange slot p.geometry.slots)
      else if slot ∈ seen then .error (.slotWrittenTwice slot)
      else validateSlots (seen ++ [slot]) rest

end ExpertSlots

section Rows

variable (rows : ExpertRows) (layer : ℕ)

def validateRow (row : ℕ) : List (ℕ × ℕ) → Except SlotFault Unit
  | [] => .ok ()
  | (expected, bank) :: rest =>
      match rows bank layer row with
      | none => .error (.rowMissing bank layer row)
      | some bytes =>
          if bytes.length = expected then validateRow row rest
          else .error (.rowSizeMismatch bank layer row expected bytes.length)

def validateRows (widths : List ℕ) : List ℕ → Except SlotFault Unit
  | [] => .ok ()
  | row :: rest =>
      match validateRow rows layer row widths.zipIdx with
      | .error e => .error e
      | .ok () => validateRows widths rest

end Rows

variable {σ : Type}

/-- One row into every bank of a slot, bank by bank; `width` counts the bytes. -/
def issueBanks (call : ℕ → σ → Except String Unit × σ) (width : ℕ → ℕ) (slot : ℕ) :
    List ℕ → Applied → σ → Except SlotFault Applied × σ
  | [], applied, s => (.ok applied, s)
  | bank :: banks, applied, s =>
      match call bank s with
      | (.error detail, s) => (.error (.device bank slot detail), s)
      | (.ok (), s) =>
          issueBanks call width slot banks
            { applied with rows := applied.rows + 1, bytes := applied.bytes + width bank } s

/-- The copies of a plan, pair by pair: a slot loses its label before it is written and gets the
new one when all its banks are. `call` takes the bank, the slot and the source; `carried` is the
expert a source holds. -/
def issuePairs (call : ℕ → ℕ → ℕ → σ → Except String Unit × σ) (width : ℕ → ℕ → ℕ)
    (carried : Occupants → ℕ → Option ExpertId) (banks : ℕ) :
    List (ℕ × ℕ) → Applied → Occupants → σ → Except SlotFault Applied × Occupants × σ
  | [], applied, occupant, s => (.ok applied, occupant, s)
  | (dst, src) :: pairs, applied, occupant, s =>
      let label := carried occupant src
      let occupant := occupant.set dst none
      match issueBanks (call · dst src) (width · src) dst (List.range banks) applied s with
      | (.error e, s) => (.error e, occupant, s)
      | (.ok applied, s) =>
          issuePairs call width carried banks pairs applied (occupant.set dst label) s

namespace ExpertSlots

variable (d : SlotDevice σ) (rows : ExpertRows) (p : ExpertSlots)

/-- The plan's copies completed; a flush that fails costs every slot the plan wrote. -/
def flush (written : List ℕ) (s : σ) : Except SlotFault Unit × ExpertSlots × σ :=
  match d.flush s with
  | (.ok (), s) => (.ok (), p, s)
  | (.error detail, s) =>
      (.error (.deviceFlush written detail), written.foldl invalidateSlot p, s)

/-- A plan is counted, and one that asks for nothing ends there. -/
def planned : ExpertSlots := { p with stats := { p.stats with plans := p.stats.plans + 1 } }

def warmed : ExpertSlots := { p with stats := { p.stats with warmPlans := p.stats.warmPlans + 1 } }

/-- The checks before the first device call. -/
def checkCopyPlan (layer : ℕ) (plan : CopyPlan) (wholeLayer : Bool) : Except SlotFault CopyRoute :=
  if plan.dstSlots.length ≠ plan.srcRows.length then
    .error (.planHalvesDisagree plan.dstSlots.length plan.srcRows.length)
  else if p.geometry.numLayers ≤ layer then .error (.layerOutOfRange layer p.geometry.numLayers)
  else match p.residency.copyRoute layer wholeLayer with
    | .error e => .error (.residency e)
    | .ok route => match p.validateSlots [] plan.dstSlots with
      | .error e => .error e
      | .ok () => match validateRows rows layer p.geometry.rowBytes plan.srcRows with
        | .error e => .error e
        | .ok () => .ok route

/-- The call that writes a host row; the checks have found the row. -/
def writeRow (layer bank dst src : ℕ) : σ → Except String Unit × σ :=
  d.writeSlot bank dst ((rows bank layer src).getD [])

def applyPlan (layer : ℕ) (plan : CopyPlan) (wholeLayer : Bool) (s : σ) :
    Except SlotFault Applied × ExpertSlots × σ :=
  match p.checkCopyPlan rows layer plan wholeLayer with
  | .error e => (.error e, p, s)
  | .ok route =>
      let p := p.planned
      if plan.dstSlots.isEmpty then (.ok ⟨0, 0, true⟩, p.warmed, s)
      else match d.beginPlan route s with
        | (.error detail, s) => (.error (.deviceFlush plan.dstSlots detail), p, s)
        | (.ok (), s) =>
          match issuePairs (writeRow d rows layer)
              (fun bank src => ((rows bank layer src).getD []).length)
              (fun _ src => some ⟨layer, src⟩) p.geometry.banks
              (plan.dstSlots.zip plan.srcRows) ⟨0, 0, false⟩ p.occupant s with
          | (.error e, occupant, s) => (.error e, { p with occupant }, s)
          | (.ok applied, occupant, s) =>
            match flush d { p with occupant } plan.dstSlots s with
            | (.error e, p, s) => (.error e, p, s)
            | (.ok (), p, s) =>
              (.ok applied, { p with
                stats := { p.stats with
                  hostRows := p.stats.hostRows + applied.rows
                  hostBytes := p.stats.hostBytes + applied.bytes } }, s)

def applyCopyPlan (layer : ℕ) (plan : CopyPlan) (s : σ) :
    Except SlotFault Applied × ExpertSlots × σ := p.applyPlan d rows layer plan false s

def applyMaterialize (layer : ℕ) (plan : CopyPlan) (s : σ) :
    Except SlotFault Applied × ExpertSlots × σ := p.applyPlan d rows layer plan true s

/-- Every source slot is the pool's and holds a known expert. -/
def checkSources : List ℕ → Except SlotFault Unit
  | [] => .ok ()
  | src :: rest =>
      if p.geometry.slots ≤ src then .error (.slotOutOfRange src p.geometry.slots)
      else if (p.occupantOf src).isNone then
        .error (.device 0 src ("gather source holds no known expert; a failed copy would be " ++
          "propagated into a second slot"))
      else checkSources rest

def checkGatherPlan (plan : GatherPlan) : Except SlotFault Unit :=
  if plan.dstSlots.length ≠ plan.srcSlots.length then
    .error (.planHalvesDisagree plan.dstSlots.length plan.srcSlots.length)
  else match p.validateSlots [] plan.dstSlots with
    | .error e => .error e
    | .ok () => p.checkSources plan.srcSlots

def applyGatherPlan (plan : GatherPlan) (s : σ) : Except SlotFault Applied × ExpertSlots × σ :=
  match p.checkGatherPlan plan with
  | .error e => (.error e, p, s)
  | .ok () =>
      let p := p.planned
      if plan.dstSlots.isEmpty then (.ok ⟨0, 0, true⟩, p.warmed, s)
      else
        match issuePairs d.copySlot (fun bank _ => p.geometry.rowBytes[bank]?.getD 0)
            Occupants.label p.geometry.banks
            (plan.dstSlots.zip plan.srcSlots) ⟨0, 0, false⟩ p.occupant s with
        | (.error e, occupant, s) => (.error e, { p with occupant }, s)
        | (.ok applied, occupant, s) =>
          match flush d { p with occupant } plan.dstSlots s with
          | (.error e, p, s) => (.error e, p, s)
          | (.ok (), p, s) =>
            (.ok applied, { p with
              stats := { p.stats with
                deviceRows := p.stats.deviceRows + applied.rows
                deviceBytes := p.stats.deviceBytes + applied.bytes } }, s)

end ExpertSlots

end Frink.Expert
