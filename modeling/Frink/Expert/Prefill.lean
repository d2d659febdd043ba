import Frink.Expert.Cache

/-! # The prefill double buffers

Two staging buffers borrow the slots below `2 * num_experts`, by layer parity.
A chunk classifies its rows against the residency it opened with; staging a
layer clears the borrowed slots and registers nothing.
-/

namespace Frink.Expert

open Checked (write)

/-- Banks with smaller rows ship their whole layer as one entry. -/
def smallBankFeatBytes : ℕ := 256 * 1024

structure MissRun where

  start : ℕ
  len : ℕ
  deriving DecidableEq

structure GatherPlan where

  dstSlots : List ℕ
  srcSlots : List ℕ
  deriving DecidableEq

structure BankEntry where

  bank : ℕ
  dstSlot : ℕ
  srcRow : ℕ
  rows : ℕ
  bytes : ℕ
  wholeLayer : Bool
  deriving DecidableEq

structure PrefillPlan where

  layer : ℕ
  bufferId : ℕ
  alreadyLoaded : Bool
  gather : GatherPlan
  missRuns : List MissRun
  entries : List BankEntry
  gatherBanks : List ℕ
  deriving DecidableEq

/-- An expert joins the run it continues or opens one. -/
def pushRun (runs : List MissRun) (expert : ℕ) : List MissRun :=
  match runs.getLast? with
  | some run =>
    if run.start + run.len = expert then runs.dropLast ++ [{ run with len := run.len + 1 }]
    else runs ++ [⟨expert, 1⟩]
  | none => [⟨expert, 1⟩]

def coalesceRuns (experts : List ℕ) : List MissRun := experts.foldl pushRun []

/-- What a layer's rows are, by the chunk's snapshot: in the cache above the buffers, or missing. -/
def classify (snapshot : Table) (base threshold bufferBase : ℕ) :
    List ℕ → GatherPlan → List ℕ → Option (GatherPlan × List ℕ)
  | [], gather, missing => some (gather, missing)
  | expert :: rest, gather, missing => do
    let slot ← snapshot[base + expert]?
    match slot with
    | some slot =>
      if threshold ≤ slot then
        classify snapshot base threshold bufferBase rest
          ⟨gather.dstSlots ++ [asU32 (bufferBase + expert)], gather.srcSlots ++ [asU32 slot]⟩ missing
      else classify snapshot base threshold bufferBase rest gather (missing ++ [asU32 expert])
    | none => classify snapshot base threshold bufferBase rest gather (missing ++ [asU32 expert])

/-- One bank's share of the host transfer. -/
def bankEntries (bufferBase experts : ℕ) (missRuns : List MissRun) (bank feat : ℕ) :
    List BankEntry :=
  if feat < smallBankFeatBytes then
    [⟨bank, asU32 bufferBase, 0, asU32 experts, experts * feat, true⟩]
  else missRuns.map fun run =>
    ⟨bank, asU32 bufferBase + run.start, run.start, run.len, run.len * feat, false⟩

namespace ExpertCache

variable (c : ExpertCache)

def prefillBufferSlots : ℕ := 2 * c.numExperts

def prefillOverlapFits : Prop := c.prefillBufferSlots ≤ c.cacheSize

instance : Decidable c.prefillOverlapFits := inferInstanceAs (Decidable (_ ≤ _))

def beginPrefill : Option ExpertCache :=
  if c.prefillOverlapFits then
    some { c with
      prefillLayer := fun _ => none
      prefillReleased := fun _ => true
      prefillSnapshot := some c.slotForId }
  else none

/-- One borrowed slot cleared in both tables, and made the oldest. -/
def invalidateOne (c : ExpertCache) (slot : ℕ) : Option ExpertCache := do
  let old ← c.idOfSlot[slot]?
  let slotForId ← clearOwner c.slotForId old
  let idOfSlot ← write c.idOfSlot slot none
  let usage ← write c.usage slot 0
  some { c with slotForId, idOfSlot, usage }

def invalidatePrefillBuffer (bufferId : Fin 2) : Option ExpertCache :=
  (List.range' (bufferId * c.numExperts) c.numExperts).foldlM invalidateOne c

/-- The buffer a layer stages into. -/
def bufferOf (layer : ℕ) : Fin 2 := ⟨layer % 2, Nat.mod_lt _ (by decide)⟩

def prefetchPrefillLayer (layer : ℕ) (bankFeatBytes : List ℕ) :
    Option (ExpertCache × PrefillPlan) :=
  if c.numLayers ≤ layer then none
  else
    let bufferId := bufferOf layer
    let bufferBase := bufferId * c.numExperts
    let gatherBanks := (bankFeatBytes.zipIdx.filter fun x => smallBankFeatBytes ≤ x.1).map (·.2)
    if c.prefillLayer bufferId = some layer then
      some (c, ⟨layer, bufferId, true, ⟨[], []⟩, [], [], gatherBanks⟩)
    else if (c.prefillLayer bufferId).isSome ∧ ¬ c.prefillReleased bufferId then none
    else do
      let snapshot ← c.prefillSnapshot
      let (gather, missing) ← classify snapshot (layer * c.numExperts) c.prefillBufferSlots
        bufferBase (List.range c.numExperts) ⟨[], []⟩ []
      let c' ← { c with
        prefillHitRows := c.prefillHitRows + gather.dstSlots.length
        prefillTotalRows := c.prefillTotalRows + c.numExperts }.invalidatePrefillBuffer bufferId
      let missRuns := coalesceRuns missing
      let entries := bankFeatBytes.zipIdx.flatMap fun x =>
        bankEntries bufferBase c.numExperts missRuns x.2 x.1
      some ({ c' with
          prefillLayer := Function.update c'.prefillLayer bufferId (some layer)
          prefillReleased := Function.update c'.prefillReleased bufferId false },
        ⟨layer, bufferId, false, gather, missRuns, entries, gatherBanks⟩)

def releasePrefillLayer (layer : ℕ) : ExpertCache :=
  if c.prefillLayer (bufferOf layer) = some layer then
    { c with prefillReleased := Function.update c.prefillReleased (bufferOf layer) true }
  else c

end ExpertCache

end Frink.Expert
