import Frink.Library.Machine

/-! # Splitting a budget between two pools

The expert cache is filled first, down to a floor of KV pages, and the KV pool gets the rest; a
split of a running server is checked before anything is freed. Prices, counts and the budget are
machine integers, and the arithmetic on them wraps around.
-/

namespace Frink.Budget

open Machine

structure PoolSizes where

  moeCacheSlots : UInt64
  kvPages : UInt64
  prefillOverlap : Bool
  deriving DecidableEq

structure BudgetTooSmall where

  neededBytes : Int64
  budgetBytes : Int64
  sizes : PoolSizes
  deriving DecidableEq

/-- What a split costs, as the machine computes it. -/
def requiredBytes (moeCacheSlots kvPages bytesPerExpert bytesPerPage : UInt64) : Tracked Int64 := do
  let experts ← mulU64 moeCacheSlots bytesPerExpert
  let pages ← mulU64 kvPages bytesPerPage
  let sum ← addU64 experts pages
  asI64 sum

/-- What is left of the budget beside `n` of `price` bytes. -/
def less (budgetBytes : Int64) (n price : UInt64) : Tracked Int64 := do
  let taken ← mulU64 n price
  let taken ← asI64 taken
  subI64 budgetBytes taken

/-- How many of `price` bytes fit into what is left. -/
def affordable (left : Int64) (price : UInt64) : UInt64 := left.toUInt64 / price

/-- The slots that what is spare pays for, between `lo` and `hi`. -/
def fillSlots (spare : Int64) (bytesPerExpert hi lo : UInt64) : UInt64 :=
  let raw := if spare.toInt ≤ 0 then 0 else affordable spare bytesPerExpert
  maxU64 (minU64 raw hi) lo

/-- The pages that what remains pays for, and the reserve at least. -/
def fillPages (remaining : Int64) (bytesPerPage kvReservePages : UInt64) : UInt64 :=
  if remaining.toInt ≤ 0 then kvReservePages
  else maxU64 (affordable remaining bytesPerPage) kvReservePages

/-- Whether an overlap is wanted and two layers go into `limit`. -/
def overlaps (overlap : Bool) (numExperts limit : UInt64) : Tracked Bool :=
  if overlap then do
    let both ← mulU64 2 numExperts
    pure (decide (both.toNat ≤ limit.toNat))
  else pure false

/-- The slots of two layers, or of one. -/
def layers (overlap : Bool) (numExperts : UInt64) : Tracked UInt64 :=
  if overlap then mulU64 2 numExperts else pure numExperts

/-- The split between `lo` and `hi` expert slots. -/
def planWithin (budgetBytes : Int64) (bytesPerExpert bytesPerPage numExperts kvReservePages : UInt64)
    (hi lo : UInt64) (overlap : Bool) : Tracked (Except BudgetTooSmall PoolSizes) := do
  let spare ← less budgetBytes kvReservePages bytesPerPage
  let moeCacheSlots := fillSlots spare bytesPerExpert hi lo
  let overlap ← overlaps overlap numExperts moeCacheSlots
  let remaining ← less budgetBytes moeCacheSlots bytesPerExpert
  let kvPages := fillPages remaining bytesPerPage kvReservePages
  let needed ← requiredBytes moeCacheSlots kvPages bytesPerExpert bytesPerPage
  if budgetBytes.toInt < needed.toInt ∨ kvPages.toNat ≤ 1 then
    pure (.error ⟨needed, budgetBytes, ⟨moeCacheSlots, kvPages, overlap⟩⟩)
  else pure (.ok ⟨moeCacheSlots, kvPages, overlap⟩)

/-- The split of `budgetBytes`; none when an assertion fails. -/
def planCacheBudget (budgetBytes : Int64) (bytesPerExpert bytesPerPage numExperts totalExperts : UInt64)
    (prefillOverlap : Bool) (kvReservePages maxSlots : UInt64) :
    Tracked (Option (Except BudgetTooSmall PoolSizes)) :=
  if bytesPerExpert = 0 ∨ bytesPerPage = 0 then pure none
  else do
    let hi := minU64 totalExperts maxSlots
    let overlap ← overlaps prefillOverlap numExperts hi
    let lo ← layers overlap numExperts
    if hi.toNat < lo.toNat then pure none
    else do
      let split ← planWithin budgetBytes bytesPerExpert bytesPerPage numExperts kvReservePages hi lo
        overlap
      pure (some split)

/-- A pool that is not named is left alone. -/
structure RebuildRequest where

  moeCacheSlots : Option UInt64
  kvPages : Option UInt64
  mambaSlots : Option UInt64
  swaPages : Option UInt64

inductive RebuildRejected where
  | busy
  | noSuchPool (pool : String)
  | belowFloor (pool : String) (requested floor : UInt64)
  | tooLarge (inner : BudgetTooSmall)
  deriving DecidableEq

/-- What each pool must hold; none for a pool the model does not have. -/
structure PoolFloors where

  moeSlots : UInt64
  kvPages : UInt64
  mambaSlots : Option UInt64
  swaPages : Option UInt64

/-- A requested size below its floor. -/
def below (pool : String) (requested : Option UInt64) (floor : UInt64) : Except RebuildRejected Unit :=
  match requested with
  | none => .ok ()
  | some n => if n.toNat < floor.toNat then .error (.belowFloor pool n floor) else .ok ()

/-- The same for a pool the model may not have. -/
def belowOwn (pool missing : String) (requested floor : Option UInt64) :
    Except RebuildRejected Unit :=
  match requested, floor with
  | none, _ => .ok ()
  | some _, none => .error (.noSuchPool missing)
  | some n, some floor => below pool (some n) floor

/-- The checks in front of the arithmetic. -/
def checkFloors (request : RebuildRequest) (floors : PoolFloors) (idle : Bool) :
    Except RebuildRejected Unit := do
  if idle then pure () else .error .busy
  below "moe" request.moeCacheSlots floors.moeSlots
  below "kv" request.kvPages (maxU64 floors.kvPages 2)
  belowOwn "mamba" "recurrent-state" request.mambaSlots floors.mambaSlots
  belowOwn "swa" "window" request.swaPages floors.swaPages

/-- The sizes asked for. -/
def rebuildTarget (request : RebuildRequest) (current : PoolSizes) : PoolSizes :=
  ⟨request.moeCacheSlots.getD current.moeCacheSlots, request.kvPages.getD current.kvPages,
    current.prefillOverlap⟩

def validateRebuild (request : RebuildRequest) (current : PoolSizes) (floors : PoolFloors)
    (idle : Bool) (budgetBytes : Int64) (bytesPerExpert bytesPerPage fixedBytes : UInt64) :
    Tracked (Except RebuildRejected PoolSizes) :=
  match checkFloors request floors idle with
  | .error e => pure (.error e)
  | .ok () => do
      let target := rebuildTarget request current
      let needed ← requiredBytes target.moeCacheSlots target.kvPages bytesPerExpert bytesPerPage
      let fixed ← asI64 fixedBytes
      let budgetBytes := saturatingSub budgetBytes fixed
      if budgetBytes.toInt < needed.toInt then
        pure (.error (.tooLarge ⟨needed, budgetBytes, target⟩))
      else pure (.ok target)

end Frink.Budget
