import Mathlib
import Frink.Library.Fuel
import Frink.Library.Pairing

/-! # The expert slot cache

Which experts sit in which slots of the pool all layers share, and what a step
has to copy. A flat id is `layer * num_experts + expert`; the source's `-1` is
`none`. An assertion that fails and an index out of range end the run.
-/

/-! ## The split of a step's misses

A Q16 fraction, or a fixed cap, says how many missing experts cross the link;
the rest are computed by the host.
-/

namespace Frink.Expert

/-- Q16: the whole. -/
def fractionOne : ℕ := 2 ^ 16

structure QStarSplit where

  fetch : ℕ
  cpu : ℕ
  deriving DecidableEq

/-- A zero fraction leaves the decision to the cap. -/
structure QStarPolicy where

  fractionQ16 : ℕ
  maxFetch : ℕ
  deriving DecidableEq

/-- The step's cost when `fetched` of `m` misses cross the link. -/
def fetchCost (m f fetched : ℤ) : ℤ :=
  max (fetched * (fractionOne - f)) ((m - fetched) * f)

def balancedFetch (missing fractionQ16 : ℕ) : ℕ :=
  if fractionQ16 = 0 ∨ missing = 0 then 0
  else
    let lo : ℕ := missing * fractionQ16 / 2 ^ 16
    let best : ℕ := if fetchCost missing fractionQ16 lo ≤ fetchCost missing fractionQ16 (lo + 1)
      then lo else lo + 1
    min best missing

namespace QStarPolicy

def fixedCap (maxFetch : ℕ) : QStarPolicy := ⟨0, maxFetch⟩

def split (p : QStarPolicy) (missing : ℕ) : QStarSplit :=
  let fetch := if 0 < p.fractionQ16 then min (balancedFetch missing p.fractionQ16) missing
    else min p.maxFetch missing
  ⟨fetch, missing - fetch⟩

theorem split_fetch_le (p : QStarPolicy) (missing : ℕ) : (p.split missing).fetch ≤ missing := by
  unfold split
  dsimp only
  split <;> apply min_le_right

end QStarPolicy

end Frink.Expert

namespace Frink.Expert

open Checked (write)

def i64Min : ℤ := -2 ^ 63
def i64Max : ℤ := 2 ^ 63 - 1

/-- The source's `as u32`. -/
def asU32 (n : ℕ) : ℕ := n % 2 ^ 32

/-- Marks a slot as off the table for this step. -/
def unevictable : ℤ := i64Max

structure CopyPlan where

  dstSlots : List ℕ
  srcRows : List ℕ
  deriving DecidableEq

structure EnsurePlan where

  slots : List (Option ℕ)
  copy : CopyPlan
  active : ℕ
  missing : ℕ
  fetched : ℕ
  deriving DecidableEq

inductive FetchOrder | byRecency | lowestId
  deriving DecidableEq

structure ExpertCacheStats where

  calls : ℕ
  active : ℕ
  missing : ℕ
  fetched : ℕ
  deriving DecidableEq

def ExpertCacheStats.zero : ExpertCacheStats := ⟨0, 0, 0, 0⟩

def ExpertCacheStats.count (s : ExpertCacheStats) (active missing fetched : ℕ) :
    ExpertCacheStats :=
  ⟨s.calls + 1, s.active + active, s.missing + missing, s.fetched + fetched⟩

structure ExpertId where

  layer : ℕ
  expert : ℕ
  deriving DecidableEq

/-- The residency map, its LRU clock, the counters and the prefill buffers. -/
structure ExpertCache where

  numLayers : ℕ
  numExperts : ℕ
  cacheSize : ℕ
  slotForId : Table
  idOfSlot : Table
  usage : List ℤ
  step : ℤ
  recency : List ℤ
  fetchOrder : FetchOrder
  stats : ExpertCacheStats
  layerStats : List ExpertCacheStats
  collectRouting : Bool
  routingFreq : List ℕ
  prefillLayer : Fin 2 → Option ℕ
  prefillReleased : Fin 2 → Bool
  prefillSnapshot : Option Table
  prefillHitRows : ℕ
  prefillTotalRows : ℕ

namespace ExpertCache

def new (numLayers numExperts cacheSize : ℕ) : Option ExpertCache :=
  if 0 < numLayers ∧ 0 < numExperts ∧ numExperts ≤ cacheSize then
    let totalIds := numLayers * numExperts
    some {
      numLayers, numExperts, cacheSize
      slotForId := List.replicate totalIds none
      idOfSlot := List.replicate cacheSize none
      usage := List.replicate cacheSize 0
      step := 0
      recency := List.replicate totalIds (-1)
      fetchOrder := .byRecency
      stats := .zero
      layerStats := List.replicate numLayers .zero
      collectRouting := false
      routingFreq := List.replicate totalIds 0
      prefillLayer := fun _ => none
      prefillReleased := fun _ => true
      prefillSnapshot := none
      prefillHitRows := 0
      prefillTotalRows := 0 }
  else none

variable (c : ExpertCache)

def withFetchOrder (order : FetchOrder) : ExpertCache := { c with fetchOrder := order }

def setCollectRouting (on : Bool) : ExpertCache := { c with collectRouting := on }

def resetStats : ExpertCache :=
  { c with
    stats := .zero
    layerStats := c.layerStats.map fun _ => .zero
    prefillHitRows := 0
    prefillTotalRows := 0 }

def resetRouting : ExpertCache := { c with routingFreq := c.routingFreq.map fun _ => 0 }

def flat (layer expert : ℕ) : Option ℕ :=
  if layer < c.numLayers ∧ expert < c.numExperts then some (layer * c.numExperts + expert)
  else none

/-- The slot a flat id is in. -/
def slotAt (id : ℕ) : Option ℕ := Table.look c.slotForId id

/-- The flat id a slot holds. -/
def idAt (slot : ℕ) : Option ℕ := Table.look c.idOfSlot slot

def expertOf (id : ℕ) : ExpertId := ⟨asU32 (id / c.numExperts), asU32 (id % c.numExperts)⟩

/-- Drops one slot's residency; the slot becomes the first victim. -/
def forgetSlot (slot : ℕ) : Option (ExpertCache × Option ExpertId) :=
  match c.idAt slot with
  | none => some (c, none)
  | some id => do
    let idOfSlot ← write c.idOfSlot slot none
    let slotForId ← write c.slotForId id none
    let usage ← write c.usage slot i64Min
    some ({ c with idOfSlot, slotForId, usage }, some (c.expertOf id))

def forgetPrefillBuffers : ExpertCache :=
  { c with
    prefillLayer := fun _ => none
    prefillReleased := fun _ => true
    prefillSnapshot := none }

def reset : ExpertCache :=
  let c := { c with
    slotForId := c.slotForId.map fun _ => none
    idOfSlot := c.idOfSlot.map fun _ => none
    usage := c.usage.map fun _ => 0
    recency := c.recency.map fun _ => -1
    step := 0 }
  c.resetStats.resetRouting.forgetPrefillBuffers

/-- A resize; one that cannot hold a layer is refused and changes nothing. -/
def rebuild (cacheSize : ℕ) : Except (ℕ × ℕ) ExpertCache :=
  if cacheSize < c.numExperts then .error (cacheSize, c.numExperts)
  else
    let c := { c with
      cacheSize
      idOfSlot := List.replicate cacheSize none
      usage := List.replicate cacheSize 0
      slotForId := c.slotForId.map fun _ => none
      recency := c.recency.map fun _ => -1
      step := 0 }
    .ok c.resetStats.resetRouting.forgetPrefillBuffers

/-- The LRU clock's next value; its overflow is an assertion. -/
def tick : Option ℤ := if c.step < i64Max then some (c.step + 1) else none

end ExpertCache

/-- Distinct routes, first occurrence wins. -/
def distinctRoutes (expertIds : List ℕ) : List ℕ :=
  expertIds.foldl (fun distinct id => if id ∈ distinct then distinct else distinct ++ [id]) []

/-- The scan behind `argmin_slot`: the best slot so far and its usage. -/
def argminFrom (slot best : ℕ) (bestUsage : ℤ) : List ℤ → ℕ
  | [] => best
  | value :: rest =>
    if value < bestUsage then argminFrom (slot + 1) slot value rest
    else argminFrom (slot + 1) best bestUsage rest

/-- The lowest-usage slot, ties to the lowest index. -/
def argminSlot : List ℤ → Option ℕ
  | [] => none
  | first :: rest => some (argminFrom 1 0 first rest)

namespace ExpertCache

variable (c : ExpertCache)

def observeRoutes (base : ℕ) (expertIds : List ℕ) : Option (List ℕ) :=
  if c.collectRouting then
    expertIds.foldlM (fun freq expert => do
      let n ← freq[base + expert]?
      write freq (base + expert) (n + 1)) c.routingFreq
  else some c.routingFreq

/-- Refreshes the slots of the resident experts and lists the missing ones. -/
def touchHits (base : ℕ) (step : ℤ) : List ℕ → List ℤ → List ℕ → Option (List ℤ × List ℕ)
  | [], usage, missing => some (usage, missing)
  | expert :: rest, usage, missing => do
    let slot ← c.slotForId[base + expert]?
    match slot with
    | some slot => do
      let usage ← write usage slot step
      touchHits base step rest usage missing
    | none => touchHits base step rest usage (missing ++ [expert])

/-- An expert's rank under `ByRecency`: the last routed has the lowest. -/
def fetchRank (base expert : ℕ) : ℤ := -(c.recency[base + expert]?.getD (-1))

/-- The misses in the order the scarce fetch slots go to them; a tie goes to the lowest id. -/
def orderMissing (base : ℕ) (policy : Option QStarPolicy) (missing : List ℕ) : List ℕ :=
  match policy, c.fetchOrder with
  | some _, .byRecency => missing.insertionSort fun a b =>
      c.fetchRank base a < c.fetchRank base b ∨ c.fetchRank base a = c.fetchRank base b ∧ a ≤ b
  | _, _ => missing.insertionSort (· ≤ ·)

end ExpertCache

def numFetch (policy : Option QStarPolicy) (numMissing : ℕ) : ℕ :=
  match policy with
  | some policy => (policy.split numMissing).fetch
  | none => numMissing

namespace ExpertCache

variable (c : ExpertCache)

/-- Whether a slot holds an expert the step routes to. -/
def routedHere (base : ℕ) (distinct : List ℕ) (slot : ℕ) : Bool :=
  match c.idAt slot with
  | some id => base ≤ id ∧ id - base < c.numExperts ∧ asU32 (id - base) ∈ distinct
  | none => false

/-- Usage with the slots this step is committed to taken off the table. -/
def evictable (base : ℕ) (distinct : List ℕ) (policy : Option QStarPolicy) (step : ℤ)
    (usage : List ℤ) : List ℤ :=
  let committed := usage.map fun u => if u = step then unevictable else u
  if policy.isSome then
    committed.mapIdx fun slot evict => if c.routedHere base distinct slot then unevictable else evict
  else committed

end ExpertCache

/-- A slot's old occupant, if any, loses its residency. -/
def clearOwner (slotForId : Table) : Option ℕ → Option Table
  | some old => write slotForId old none
  | none => some slotForId

/-- What the fetch loop works on. -/
structure Placing where

  slotForId : Table
  idOfSlot : Table
  usage : List ℤ
  evictable : List ℤ
  copy : CopyPlan

/-- One miss given the slot of the current victim. -/
def Placing.place (base : ℕ) (step : ℤ) (p : Placing) (expert : ℕ) : Option Placing := do
  let victim ← argminSlot p.evictable
  let old ← p.idOfSlot[victim]?
  let slotForId ← clearOwner p.slotForId old
  let idOfSlot ← write p.idOfSlot victim (some (base + expert))
  let slotForId ← write slotForId (base + expert) (some victim)
  let usage ← write p.usage victim step
  let evictable ← write p.evictable victim unevictable
  some {
    slotForId, idOfSlot, usage, evictable
    copy := ⟨p.copy.dstSlots ++ [asU32 victim], p.copy.srcRows ++ [expert]⟩ }

/-- The slot of each route, in the caller's order. -/
def routeSlots (slotForId : Table) (base : ℕ) (expertIds : List ℕ) : Option (List (Option ℕ)) :=
  expertIds.mapM fun expert => do
    let slot ← slotForId[base + expert]?
    some (slot.map asU32)

/-- When each routed expert was last asked for; kept by the capped path only. -/
def stampRecency (base : ℕ) (step : ℤ) (policy : Option QStarPolicy) (distinct : List ℕ)
    (recency : List ℤ) : Option (List ℤ) :=
  if policy.isSome then
    distinct.foldlM (fun recency expert => write recency (base + expert) step) recency
  else some recency

namespace ExpertCache

variable (c : ExpertCache)

def ensureSplit (layer : ℕ) (expertIds : List ℕ) (policy : Option QStarPolicy) :
    Option (ExpertCache × EnsurePlan) := do
  let step ← c.tick
  let base ← c.flat layer 0
  let routingFreq ← c.observeRoutes base expertIds
  let distinct := distinctRoutes expertIds
  let (usage, missing) ← c.touchHits base step distinct c.usage []
  let missing := c.orderMissing base policy missing
  let fetch := numFetch policy missing.length
  let evictable := c.evictable base distinct policy step usage
  let p ← (missing.take fetch).foldlM (Placing.place base step)
    ⟨c.slotForId, c.idOfSlot, usage, evictable, ⟨[], []⟩⟩
  let slots ← routeSlots p.slotForId base expertIds
  let recency ← stampRecency base step policy distinct c.recency
  let perLayer ← c.layerStats[layer]?
  some ({ c with
      step, routingFreq, recency
      slotForId := p.slotForId
      idOfSlot := p.idOfSlot
      usage := p.usage
      stats := c.stats.count distinct.length missing.length fetch
      layerStats := c.layerStats.set layer (perLayer.count distinct.length missing.length fetch) },
    ⟨slots, p.copy, distinct.length, missing.length, fetch⟩)

def ensure (layer : ℕ) (expertIds : List ℕ) : Option (ExpertCache × EnsurePlan) :=
  c.ensureSplit layer expertIds none

def ensureHybrid (layer : ℕ) (expertIds : List ℕ) (policy : QStarPolicy) :
    Option (ExpertCache × EnsurePlan) :=
  c.ensureSplit layer expertIds (some policy)

/-- Whether a table's entry is one of the layer's ids. -/
def owns (base : ℕ) (id : ℕ) : Bool := base ≤ id ∧ id < base + c.numExperts

/-- The layer's stale placements cleared. -/
def dropOwn (base : ℕ) : ExpertCache :=
  { c with
    idOfSlot := c.idOfSlot.map fun old => if old.any (c.owns base) then none else old
    usage := c.usage.mapIdx fun slot u => if (c.idAt slot).any (c.owns base) then 0 else u }

/-- The slots that lose other layers' experts, in order. -/
def clearOthers (base : ℕ) (previous : Table) (slotForId : Table) : Option Table :=
  previous.foldlM (fun slotForId old => clearOwner slotForId (old.filter fun id => !c.owns base id))
    slotForId

/-- One expert put at the slot of its own number. -/
def materializeOne (base : ℕ) (c : ExpertCache) (expert : ℕ) : Option ExpertCache := do
  let idOfSlot ← write c.idOfSlot expert (some (base + expert))
  let slotForId ← write c.slotForId (base + expert) (some expert)
  let usage ← write c.usage expert c.step
  some { c with idOfSlot, slotForId, usage }

/-- A whole layer in slots `0..num_experts`, in expert order. -/
def materializeLayer (layer : ℕ) : Option (ExpertCache × CopyPlan) := do
  let base ← c.flat layer 0
  let slotForId ← c.clearOthers base (c.idOfSlot.take c.numExperts) c.slotForId
  let step ← c.tick
  let c' ← (List.range c.numExperts).foldlM (materializeOne base)
    { c.dropOwn base with slotForId, step }
  let rows := (List.range c.numExperts).map asU32
  some (c', ⟨rows, rows⟩)

end ExpertCache

end Frink.Expert
