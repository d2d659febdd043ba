import Mathlib
import Frink.Library.Keyed
import Frink.Library.Shedding

/-! # The expert store

Expert weights under one byte budget: entries on the heap, or in the slots of a pool. A miss is
admitted by evicting entries nobody leases, the coldest first and of equally cold ones the least
recently used, as long as they are no hotter than the candidate. The free slots are a stack.
-/

namespace Frink.Weights

open Keyed

structure ExpertKey where

  layer : ℕ
  expert : ℕ
  deriving DecidableEq

abbrev Bytes := List UInt8

/-- A cached expert; the leases are the handles there are beside the map's own. -/
structure Entry where

  data : Bytes
  slot : Option ℕ
  charge : ℕ
  lastUsed : ℕ
  leases : ℕ

/-- The part of the store behind the lock, and the counters that `place` moves. -/
structure Inner where

  entries : List (ExpertKey × Entry)
  residentBytes : ℕ
  peakResidentBytes : ℕ
  clock : ℕ
  freeSlots : List ℕ
  evictions : ℕ
  refusedAdmissions : ℕ

inductive Storage
  | heap
  | slots (count slotBytes : ℕ)
  deriving DecidableEq

structure ExpertStore where

  budgetBytes : ℕ
  storage : Storage
  hotness : Option (ExpertKey → ℕ)

/-- What one miss turns into. -/
inductive Placement
  | cached (data : Bytes) (slot : Option ℕ)
  | passThrough (data : Bytes)
  deriving DecidableEq

def Inner.empty (freeSlots : List ℕ) : Inner := ⟨[], 0, 0, 0, freeSlots, 0, 0⟩

namespace ExpertStore

def new (budgetBytes : ℕ) : ExpertStore × Inner := (⟨budgetBytes, .heap, none⟩, .empty [])

def withSlots (count slotBytes : ℕ) : ExpertStore × Inner :=
  (⟨count * slotBytes, .slots count slotBytes, none⟩, .empty (List.range count))

variable (s : ExpertStore)

def withHotness (hotness : ExpertKey → ℕ) : ExpertStore := { s with hotness := some hotness }

def selections (key : ExpertKey) : ℕ := s.hotness.elim 0 fun hotness => hotness key

/-- Hotness first, recency second. -/
def rank (x : ExpertKey × Entry) : ℕ ×ₗ ℕ := toLex (s.selections x.1, x.2.lastUsed)

/-- The entry that would go for `candidate`; a refusal is counted. -/
def victim (inner : Inner) (candidate : ExpertKey) : Option ExpertKey × Inner :=
  match (inner.entries.filter fun x => x.2.leases = 0).argmin s.rank with
  | none => (none, inner)
  | some x =>
      if s.selections candidate < s.selections x.1 then
        (none, { inner with refusedAdmissions := inner.refusedAdmissions + 1 })
      else (some x.1, inner)

/-- Takes the entry of a victim out; there has to be one. -/
def evict (inner : Inner) (key : ExpertKey) : Option Inner :=
  (inner.entries.lookup key).map fun e =>
    { inner with
      entries := erase key inner.entries
      residentBytes := inner.residentBytes - e.charge
      freeSlots := e.slot.toList ++ inner.freeSlots
      evictions := inner.evictions + 1 }

/-- Evicts until `size` bytes fit, or nothing may go any more. -/
def makeRoom (size : ℕ) (key : ExpertKey) : ℕ → Inner → Option (Bool × Inner)
  | 0, _ => none
  | fuel + 1, inner =>
      if inner.residentBytes + size ≤ s.budgetBytes then some (true, inner)
      else
        match s.victim inner key with
        | (none, inner) => some (false, inner)
        | (some v, inner) => (evict inner v).bind (makeRoom size key fuel)

/-- A free slot, for which one entry may go. -/
def makeFree (key : ExpertKey) (inner : Inner) : Option (Bool × Inner) :=
  if inner.freeSlots = [] then
    match s.victim inner key with
    | (none, inner) => some (false, inner)
    | (some v, inner) => (evict inner v).map fun inner => (true, inner)
  else some (true, inner)

/-- The new entry, leased to who asked for it. -/
def admitEntry (inner : Inner) (key : ExpertKey) (data : Bytes) (slot : Option ℕ) (charge : ℕ) :
    Placement × Inner :=
  (.cached data slot,
    { inner with
      clock := inner.clock + 1
      residentBytes := inner.residentBytes + charge
      peakResidentBytes := max inner.peakResidentBytes (inner.residentBytes + charge)
      entries := insert key ⟨data, slot, charge, inner.clock + 1, 1⟩ inner.entries })

def lease (e : Entry) : Entry := { e with leases := e.leases + 1 }

/-- `data` in the width of a slot. -/
def padded (slotBytes : ℕ) (data : Bytes) : Bytes :=
  data ++ List.replicate (slotBytes - data.length) 0

/-- Admits `key`, or serves it uncached. `device` answers the write of a slot. -/
def place (device : ℕ → Bytes → Except String Unit) (inner : Inner) (key : ExpertKey)
    (data : Bytes) : Option (Placement × Inner) :=
  match inner.entries.lookup key with
  | some e => some (.cached e.data e.slot, { inner with entries := modify key lease inner.entries })
  | none =>
    match s.storage with
    | .heap =>
        if s.budgetBytes < data.length then some (.passThrough data, inner)
        else
          (s.makeRoom data.length key (inner.entries.length + 1) inner).map fun
            | (false, inner) => (.passThrough data, inner)
            | (true, inner) => admitEntry inner key data none data.length
    | .slots _ slotBytes =>
        if slotBytes < data.length then some (.passThrough data, inner)
        else
          (s.makeFree key inner).bind fun
            | (false, inner) => some (.passThrough data, inner)
            | (true, inner) =>
                match inner.freeSlots with
                | [] => none
                | slot :: free =>
                    match device slot (padded slotBytes data) with
                    | .error _ => some (.passThrough data, inner)
                    | .ok () => some (admitEntry { inner with freeSlots := free } key data (some slot)
                        slotBytes)

end ExpertStore

/-- A hit: stamped and leased. The clock ticks for a miss too. -/
def Inner.touch (inner : Inner) (key : ExpertKey) : Inner :=
  { inner with
    clock := inner.clock + 1
    entries := modify key (fun e => { e with lastUsed := inner.clock + 1, leases := e.leases + 1 })
      inner.entries }

/-- A lease is cloned. -/
def Inner.share (inner : Inner) (key : ExpertKey) : Inner :=
  { inner with entries := modify key ExpertStore.lease inner.entries }

/-- A lease is dropped. -/
def Inner.release (inner : Inner) (key : ExpertKey) : Inner :=
  { inner with entries := modify key (fun e => { e with leases := e.leases - 1 }) inner.entries }

/-- The states a store gets into. Lock-held sections come in any order, with any hotness and any
answers of the device at each of them. -/
inductive Reachable : ℕ → Storage → Inner → Prop

  | new (budgetBytes : ℕ) : Reachable budgetBytes .heap (ExpertStore.new budgetBytes).2

  | withSlots (count slotBytes : ℕ) :
      Reachable (count * slotBytes) (.slots count slotBytes) (ExpertStore.withSlots count slotBytes).2

  | touch {budgetBytes : ℕ} {storage : Storage} {inner : Inner} (key : ExpertKey) :
      Reachable budgetBytes storage inner → Reachable budgetBytes storage (inner.touch key)

  | share {budgetBytes : ℕ} {storage : Storage} {inner : Inner} (key : ExpertKey) :
      Reachable budgetBytes storage inner → Reachable budgetBytes storage (inner.share key)

  | release {budgetBytes : ℕ} {storage : Storage} {inner : Inner} (key : ExpertKey) :
      Reachable budgetBytes storage inner → Reachable budgetBytes storage (inner.release key)

  | place {s : ExpertStore} {inner : Inner} {r : Placement × Inner}
      (device : ℕ → Bytes → Except String Unit) (key : ExpertKey) (data : Bytes) :
      Reachable s.budgetBytes s.storage inner → s.place device inner key data = some r →
      Reachable s.budgetBytes s.storage r.2

end Frink.Weights
