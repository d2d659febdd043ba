import Mathlib
import Frink.Library.Keyed

/-! # The repack cache

Interleaved copies of weight matrices under one byte budget, keyed by the address of the mapping
the matrix is in. An address names a mapping as long as the mapping lives; an entry keeps a weak
reference beside it, which keeps the control block of its mapping from being used again. Sections
that hold the lock are atomic, and packing is done outside of it.
-/

namespace Frink.Weights.Repack

open Keyed

abbrev Bytes := List UInt8

/-- A mapping that was made: where its control block is, and whether something owns it. -/
structure Mapping where

  address : ℕ
  bytes : Bytes
  live : Bool

/-- A pointer to the control block of `mapping`; the code sees the pointer. -/
structure Weak where

  mapping : ℕ
  pointer : ℕ
  deriving DecidableEq

/-- The mapping made last at an address. -/
def blockAt (address : ℕ) : List Mapping → Option Mapping
  | [] => none
  | m :: mappings => (blockAt address mappings).or (if m.address = address then some m else none)

/-- The address of the mapping, as long as the block the pointer leads to is owned. -/
def Weak.upgrade (weak : Weak) (mappings : List Mapping) : Option ℕ :=
  ((blockAt weak.pointer mappings).filter Mapping.live).map fun _ => weak.pointer

structure MapId where

  map : Weak
  id : ℕ
  offset : ℕ
  deriving DecidableEq

inductive Format
  | q4Kx8
  | q5Kx8
  | q6Kx8
  | q8_0x4
  | q4_0x4
  deriving DecidableEq

structure RepackKey where

  format : Format
  id : ℕ
  offset : ℕ
  rows : ℕ
  cols : ℕ
  deriving DecidableEq

namespace MapId

def of (mapping : ℕ) (m : Mapping) (offset : ℕ) : MapId := ⟨⟨mapping, m.address⟩, m.address, offset⟩

/-- Whether both name the same mapping, and it lives. -/
def sameMap (mappings : List Mapping) (self other : MapId) : Bool :=
  self.id = other.id ∧ self.offset = other.offset ∧ self.map.upgrade mappings = some other.id

def key (id : MapId) (format : Format) (rows cols : ℕ) : RepackKey :=
  ⟨format, id.id, id.offset, rows, cols⟩

end MapId

structure Entry where

  id : MapId
  packed : Bytes
  lastUsed : ℕ

def Entry.use (clock : ℕ) (entry : Entry) : Entry := { entry with lastUsed := clock }

structure Cache where

  entries : List (RepackKey × Entry)
  residentBytes : ℕ
  clock : ℕ

namespace Cache

variable (mappings : List Mapping) (cache : Cache)

def empty : Cache := ⟨[], 0, 0⟩

/-- The only way an entry leaves the map. -/
def evict (key : RepackKey) : Cache :=
  match cache.entries.lookup key with
  | none => cache
  | some entry =>
      { cache with
        entries := erase key cache.entries
        residentBytes := cache.residentBytes - entry.packed.length }

def lru : Option RepackKey := (cache.entries.argmin fun x => x.2.lastUsed).map Prod.fst

/-- A live packing; a stale entry is dropped. -/
def takeHit (key : RepackKey) (id : MapId) : Option Bytes × Cache :=
  match cache.entries.lookup key with
  | none => (none, cache)
  | some entry =>
      if entry.id.sameMap mappings id then
        (some entry.packed,
          { cache with
            clock := cache.clock + 1
            entries := modify key (Entry.use (cache.clock + 1)) cache.entries })
      else (none, cache.evict key)

/-- Evicts until `size` bytes fit, or nothing is left to evict. -/
def makeRoom (budget size : ℕ) : ℕ → Cache → Cache
  | 0, cache => cache
  | fuel + 1, cache =>
      if cache.residentBytes + size ≤ budget then cache
      else
        match cache.lru with
        | none => cache
        | some victim => makeRoom budget size fuel (cache.evict victim)

def insertWithinBudget (budget : ℕ) (key : RepackKey) (id : MapId) (packed : Bytes) : Cache :=
  let size := packed.length
  if budget < size then cache
  else
    let cache := makeRoom budget size (cache.entries.length + 1) cache
    if budget < cache.residentBytes + size then cache
    else
      { cache with
        clock := cache.clock + 1
        residentBytes := cache.residentBytes + size
        entries := insert key ⟨id, packed, cache.clock + 1⟩ cache.entries }

end Cache

/-- The bytes of a matrix: a buffer, which has no identity, or a place in a mapping. -/
inductive WeightBytes
  | owned (bytes : Bytes)
  | shared (bytes : Bytes)
  | mapped (mapping offset : ℕ)

structure Request where

  format : Format
  data : WeightBytes
  rows : ℕ
  cols : ℕ

/-- Where a call is: before its first look-up, packing, with its packing at hand, or over. -/
inductive Phase
  | lookup
  | packing
  | packed (bytes : Bytes)
  | done (bytes : Bytes)

structure Call where

  request : Request
  id : Option MapId
  phase : Phase

structure System where

  mappings : List Mapping
  cache : Cache
  calls : List Call

section Sections

variable (pack : Format → Bytes → ℕ → ℕ → Bytes) (budget : ℕ) (mappings : List Mapping)

/-- The bytes from the start of the matrix on; a mapping has more behind it. -/
def WeightBytes.bytes : WeightBytes → Bytes
  | .owned bytes => bytes
  | .shared bytes => bytes
  | .mapped mapping offset => (mappings[mapping]?.elim [] Mapping.bytes).drop offset

def WeightBytes.mapId : WeightBytes → Option MapId
  | .owned _ => none
  | .shared _ => none
  | .mapped mapping offset => mappings[mapping]?.map fun m => .of mapping m offset

/-- The packing of the call's own bytes. -/
def Request.repack (request : Request) : Bytes :=
  pack request.format (request.data.bytes mappings) request.rows request.cols

/-- `getOrRepack` from one point where the lock is free to the next. -/
def Call.getOrRepack (cache : Cache) (call : Call) : Call × Cache :=
  match call.phase, call.id with
  | .lookup, none => ({ call with phase := .done (call.request.repack pack mappings) }, cache)
  | .lookup, some id =>
      match cache.takeHit mappings (id.key call.request.format call.request.rows call.request.cols)
        id with
      | (some hit, cache) => ({ call with phase := .done hit }, cache)
      | (none, cache) => ({ call with phase := .packing }, cache)
  | .packing, _ => ({ call with phase := .packed (call.request.repack pack mappings) }, cache)
  | .packed bytes, some id =>
      let key := id.key call.request.format call.request.rows call.request.cols
      match cache.takeHit mappings key id with
      | (some hit, cache) => ({ call with phase := .done hit }, cache)
      | (none, cache) =>
          ({ call with phase := .done bytes }, cache.insertWithinBudget budget key id bytes)
  | .packed bytes, none => ({ call with phase := .done bytes }, cache)
  | .done _, _ => (call, cache)

end Sections

/-- A call borrows its bytes, and holds its identity, until it is over. -/
def Call.borrows (call : Call) (mapping : ℕ) : Prop :=
  (∀ bytes, call.phase ≠ .done bytes) ∧ ∃ offset, call.request.data = .mapped mapping offset

/-- The control block of a mapping is in use: something owns the mapping, or holds a weak reference
to it. -/
def System.Kept (s : System) (mapping : ℕ) : Prop :=
  (∃ m, s.mappings[mapping]? = some m ∧ m.live = true) ∨
    (∃ x ∈ s.cache.entries, x.2.id.map.mapping = mapping) ∨ ∃ c ∈ s.calls, c.borrows mapping

/-- What can happen next. -/
inductive Step (pack : Format → Bytes → ℕ → ℕ → Bytes) (budget : ℕ) : System → System → Prop

  | map {s : System} (address : ℕ) (bytes : Bytes) :
      (∀ i m, s.mappings[i]? = some m → m.address = address → ¬ s.Kept i) →
      Step pack budget s { s with mappings := s.mappings ++ [⟨address, bytes, true⟩] }

  | unmap {s : System} (i : ℕ) (m : Mapping) :
      s.mappings[i]? = some m → (∀ c ∈ s.calls, ¬ c.borrows i) →
      Step pack budget s { s with mappings := s.mappings.set i { m with live := false } }

  | call {s : System} (request : Request) :
      (∀ i offset, request.data = .mapped i offset →
        ∃ m, s.mappings[i]? = some m ∧ m.live = true) →
      Step pack budget s
        { s with calls := s.calls ++ [⟨request, request.data.mapId s.mappings, .lookup⟩] }

  | run {s : System} (i : ℕ) (call : Call) :
      s.calls[i]? = some call →
      Step pack budget s
        { s with
          cache := (call.getOrRepack pack budget s.mappings s.cache).2
          calls := s.calls.set i (call.getOrRepack pack budget s.mappings s.cache).1 }

/-- The states a process gets to. -/
inductive Reachable (pack : Format → Bytes → ℕ → ℕ → Bytes) (budget : ℕ) : System → Prop

  | start : Reachable pack budget ⟨[], .empty, []⟩

  | step {s s' : System} :
      Reachable pack budget s → Step pack budget s s' → Reachable pack budget s'

end Frink.Weights.Repack
