import Mathlib
import Frink.Library.Keyed

/-! # The disk index

Which blocks the store holds, published or still buffered, under two totals: of everything it has
accepted, and of what occupies the disk. A pass evicts the least recently used entries until the
first total is within a ceiling that depends on the second. Every operation runs under one lock;
where it takes more from a total than there is, it has no result.
-/

namespace Frink.KvDisk

open Keyed

structure Entry where

  bytes : ℕ
  lastUsed : ℕ
  published : Bool
  generation : ℕ
  deriving DecidableEq

def Entry.publish (entry : Entry) : Entry := { entry with published := true }

def Entry.use (clock : ℕ) (entry : Entry) : Entry := { entry with lastUsed := clock }

structure Index (H : Type*) where

  entries : List (H × Entry)
  bytes : ℕ
  diskBytes : ℕ
  clock : ℕ
  deriving DecidableEq

/-- What eviction removed from the index. -/
structure Victim (H : Type*) where

  hash : H
  published : Bool
  deriving DecidableEq

variable {H : Type*} [LinearOrder H]

namespace Index

variable (index : Index H)

def empty : Index H := ⟨[], 0, 0, 0⟩

def touch : Index H := { index with clock := index.clock + 1 }

def uncharge (entry : Entry) : Option (Index H) :=
  if index.bytes < entry.bytes ∨ (entry.published = true ∧ index.diskBytes < entry.bytes) then none
  else
    some { index with
      bytes := index.bytes - entry.bytes
      diskBytes := if entry.published then index.diskBytes - entry.bytes else index.diskBytes }

/-- The old entry of the hash is uncharged, the new one is charged. -/
def insertEntry (hash : H) (entry : Entry) : Option (Index H) :=
  let inserted := { index with entries := insert hash entry index.entries }
  let uncharged := match index.entries.lookup hash with
    | none => some inserted
    | some previous => inserted.uncharge previous
  uncharged.map fun index => { index with bytes := index.bytes + entry.bytes }

def removeEntry (hash : H) : Option (Option Entry × Index H) :=
  match index.entries.lookup hash with
  | none => some (none, index)
  | some entry =>
      ({ index with entries := erase hash index.entries }.uncharge entry).map fun index =>
        (some entry, index)

/-- A write has landed; it counts for the entry it was made for. -/
def markPublished (hash : H) (generation : ℕ) : Bool × Index H :=
  match index.entries.lookup hash with
  | none => (false, index)
  | some entry =>
      if entry.generation = generation then
        if entry.published then (true, index)
        else
          (true, { index with
            entries := modify hash Entry.publish index.entries
            diskBytes := index.diskBytes + entry.bytes })
      else (false, index)

/-- A write has failed. -/
def abandon (hash : H) (generation : ℕ) : Option (Index H) :=
  if (index.entries.lookup hash).any fun entry => entry.generation = generation then
    (index.removeEntry hash).map Prod.snd
  else some index

def dropEntry (hash : H) : Option (Index H) := (index.removeEntry hash).map Prod.snd

/-- Where a read finds the payload: on the disk if the entry is published. -/
def source (hash : H) : Option Bool × Index H :=
  match index.entries.lookup hash with
  | none => (none, index)
  | some entry =>
      (some entry.published,
        { index with
          clock := index.clock + 1
          entries := modify hash (Entry.use (index.clock + 1)) index.entries })

/-- What may be evicted, the least recently used first. -/
def candidates (protect : Option H) : List (ℕ ×ₗ H) :=
  ((index.entries.filter fun x => some x.1 ≠ protect).map fun x => toLex (x.2.lastUsed, x.1))
    |>.insertionSort (· ≤ ·)

/-- Removes candidates until what is left fits the budget. -/
def evict (budget : ℕ) : List (ℕ ×ₗ H) → Index H → Option (List (Victim H) × Index H)
  | [], index => some ([], index)
  | candidate :: candidates, index =>
      if index.bytes ≤ budget then some ([], index)
      else
        match index.removeEntry (ofLex candidate).2 with
        | none => none
        | some (none, index) => evict budget candidates index
        | some (some entry, index) =>
            (evict budget candidates index).map fun (victims, index) =>
              (⟨(ofLex candidate).2, entry.published⟩ :: victims, index)

/-- Files found on the disk, each with a generation, become entries unless they are some. -/
def adopt : List (H × ℕ × ℕ) → ℕ → Index H → Option (ℕ × Index H)
  | [], adopted, index => some (adopted, index)
  | (hash, bytes, generation) :: found, adopted, index =>
      if (index.entries.lookup hash).isSome then adopt found adopted index
      else
        let index := index.touch
        (index.insertEntry hash ⟨bytes, index.clock, true, generation⟩).bind fun index =>
          adopt found (adopted + 1) { index with diskBytes := index.diskBytes + bytes }

end Index

structure DiskStore where

  maxBytes : ℕ
  reserveBytes : ℕ

namespace DiskStore

variable (store : DiskStore)

/-- The ceiling, by what the disk has free; a sum outside the machine word wraps. -/
def effectiveCapacity (free : Option ℕ) (used : ℕ) : ℕ :=
  match free with
  | none => store.maxBytes
  | some free =>
      let headroom : ℤ := free - store.reserveBytes
      min store.maxBytes ((max (used + headroom) 0).toNat % 2 ^ 64)

/-- One eviction pass; its ceiling is computed once. -/
def collectVictims (free : Option ℕ) (index : Index H) (protect : Option H) :
    Option (List (Victim H) × Index H) :=
  let budget := store.effectiveCapacity free index.diskBytes
  if index.bytes ≤ budget then some ([], index)
  else Index.evict budget (index.candidates protect) index

def reserve (free : Option ℕ) (index : Index H) (hash : H) (bytes generation : ℕ) :
    Option (List (Victim H) × Index H) :=
  let index := index.touch
  (index.insertEntry hash ⟨bytes, index.clock, false, generation⟩).bind fun index =>
    store.collectVictims free index (some hash)

def reindex (free : Option ℕ) (index : Index H) (found : List (H × ℕ × ℕ)) :
    Option (ℕ × List (Victim H) × Index H) :=
  (index.adopt found 0).bind fun (adopted, index) =>
    (store.collectVictims free index none).map fun r => (adopted, r)

/-- The file system said it is full. -/
def noteEnospc (free : Option ℕ) (index : Index H) : Option (List (Victim H) × Index H) :=
  store.collectVictims free index none

end DiskStore

/-- The operations on the index, with what the disk reports as free. -/
inductive Op (H : Type*)
  | reserve (free : Option ℕ) (hash : H) (bytes generation : ℕ)
  | markPublished (hash : H) (generation : ℕ)
  | abandon (hash : H) (generation : ℕ)
  | dropEntry (hash : H)
  | reindex (free : Option ℕ) (found : List (H × ℕ × ℕ))
  | noteEnospc (free : Option ℕ)
  | read (hash : H)

/-- The index behind an operation. -/
def DiskStore.step (store : DiskStore) (index : Index H) : Op H → Option (Index H)
  | .reserve free hash bytes generation =>
      (store.reserve free index hash bytes generation).map Prod.snd
  | .markPublished hash generation => some (index.markPublished hash generation).2
  | .abandon hash generation => index.abandon hash generation
  | .dropEntry hash => index.dropEntry hash
  | .reindex free found => (store.reindex free index found).map fun r => r.2.2
  | .noteEnospc free => (store.noteEnospc free index).map Prod.snd
  | .read hash => some (index.source hash).2

/-- The indexes some operations get to. -/
inductive Reached (store : DiskStore) : Index H → Prop

  | empty : Reached store .empty

  | step {index after : Index H} (op : Op H) :
      Reached store index → store.step index op = some after → Reached store after

end Frink.KvDisk
