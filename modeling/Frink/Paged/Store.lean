import Mathlib

/-! # The shared page store

One store of physical blocks per layer, and page groups that lease a block in every layer
at once and count their holders. The rows a block stores are left out: which positions a
block answers for is decided by the tables alone.
-/

namespace Frink.Paged

/-- A handle to one block in every layer. -/
abbrev PageGroup := ℕ

/-- One layer's blocks, the free one handed out next first. -/
structure PagedKvStore where
  blockSize : ℕ
  freeBlockIds : List ℕ

/-- Group ids, their per-layer blocks, and how many holders each has. -/
structure GroupTable where
  blocks : List (Option (List ℕ))
  refs : List ℕ
  freeIds : List ℕ

structure SharedPagedKv where
  layers : List PagedKvStore
  groups : GroupTable

/-- One sequence's view into one layer's store. -/
structure PagedKvCache where
  blockTable : List ℕ
  seqLen : ℕ

namespace PagedKvStore

def new (blockSize totalBlocks : ℕ) : Option PagedKvStore :=
  if 0 < blockSize then some ⟨blockSize, List.range totalBlocks⟩ else none

variable (s : PagedKvStore)

def freeBlockCount : ℕ := s.freeBlockIds.length

def acquireBlock : Option (ℕ × PagedKvStore) :=
  match s.freeBlockIds with
  | [] => none
  | id :: rest => some (id, { s with freeBlockIds := rest })

def releaseBlock (id : ℕ) : PagedKvStore := { s with freeBlockIds := id :: s.freeBlockIds }

end PagedKvStore

namespace GroupTable

variable (t : GroupTable)

def new : GroupTable := ⟨[], [], []⟩

def refsOf (id : ℕ) : ℕ := t.refs.getD id 0

/-- The blocks of a group; `none` for an id on the free list. -/
def blocksOf (id : ℕ) : Option (List ℕ) := t.blocks.getD id none

def insert (blocks : List ℕ) : ℕ × GroupTable :=
  match t.freeIds with
  | id :: rest => (id, ⟨t.blocks.set id (some blocks), t.refs.set id 1, rest⟩)
  | [] => (t.blocks.length, ⟨t.blocks ++ [some blocks], t.refs ++ [1], []⟩)

/-- One more holder; `none` where the code asserts that there is one already. -/
def retain (id : ℕ) : Option GroupTable :=
  if 0 < t.refsOf id then some { t with refs := t.refs.set id (t.refsOf id + 1) } else none

/-- One fewer holder, with the blocks to free when it was the last; `none` where the code
asserts that the group has a holder. -/
def release (id : ℕ) : Option (Option (List ℕ) × GroupTable) :=
  if 0 < t.refsOf id then
    let refs := t.refs.set id (t.refsOf id - 1)
    if 0 < t.refsOf id - 1 then some (none, { t with refs := refs })
    else do
      let blocks ← t.blocksOf id
      some (some blocks, ⟨t.blocks.set id none, refs, id :: t.freeIds⟩)
  else none

end GroupTable

/-- Give one block back to each layer, as far as there are blocks. -/
def releaseBlocks : List PagedKvStore → List ℕ → List PagedKvStore
  | s :: layers, b :: blocks => s.releaseBlock b :: releaseBlocks layers blocks
  | layers, _ => layers

namespace SharedPagedKv

def new (nLayers blockSize blocksPerLayer : ℕ) : Option SharedPagedKv := do
  let store ← PagedKvStore.new blockSize blocksPerLayer
  some ⟨List.replicate nLayers store, .new⟩

variable (s : SharedPagedKv)

def layerCount : ℕ := s.layers.length

/-- The page size, which is read from the first layer. -/
def blockSize : Option ℕ := s.layers.head?.map PagedKvStore.blockSize

/-- One block from every layer as a single group, with one holder. -/
def acquireGroup : Option (PageGroup × SharedPagedKv) :=
  if s.layers.any fun l => l.freeBlockCount == 0 then none
  else do
    let taken ← s.layers.mapM PagedKvStore.acquireBlock
    let (id, groups) := s.groups.insert (taken.map Prod.fst)
    some (id, ⟨taken.map Prod.snd, groups⟩)

def retainGroup (group : PageGroup) : Option SharedPagedKv := do
  let groups ← s.groups.retain group
  some { s with groups := groups }

/-- One fewer holder; at zero the blocks go back to their layers. -/
def releaseGroup (group : PageGroup) : Option (Bool × SharedPagedKv) := do
  let (freed, groups) ← s.groups.release group
  match freed with
  | some blocks => some (true, ⟨releaseBlocks s.layers blocks, groups⟩)
  | none => some (false, { s with groups := groups })

def groupBlocks (group : PageGroup) : Option (List ℕ) := s.groups.blocksOf group

def groupRefs (group : PageGroup) : ℕ := s.groups.refsOf group

end SharedPagedKv

namespace PagedKvCache

variable (c : PagedKvCache)

def new : PagedKvCache := ⟨[], 0⟩

/-- Write one position, taking a block from the store when the table does not reach it;
`none` when the store has none. -/
def push (store : PagedKvStore) : Option (PagedKvCache × PagedKvStore) := do
  let blockIndex := c.seqLen / store.blockSize
  let (table, store) ←
    if c.blockTable.length ≤ blockIndex then do
      let (id, store) ← store.acquireBlock
      some (c.blockTable ++ [id], store)
    else some (c.blockTable, store)
  if blockIndex < table.length then some (⟨table, c.seqLen + 1⟩, store) else none

/-- Append a block the caller already owns. -/
def appendBlock (id : ℕ) : PagedKvCache := { c with blockTable := c.blockTable ++ [id] }

/-- The blocks that `n` more positions need beyond the table's capacity. -/
def blocksNeededFor (store : PagedKvStore) (n : ℕ) : ℕ :=
  let unused := c.blockTable.length * store.blockSize - c.seqLen
  (n - unused + store.blockSize - 1) / store.blockSize

/-- Take the blocks `n` more positions will need, leaving the length as it is. -/
def reserve (store : PagedKvStore) (n : ℕ) : Option (PagedKvCache × PagedKvStore) :=
  let need := c.blocksNeededFor store n
  if store.freeBlockCount < need then none
  else some ({ c with blockTable := c.blockTable ++ store.freeBlockIds.take need },
    { store with freeBlockIds := store.freeBlockIds.drop need })

/-- Start from blocks that already hold `cachedLen` positions, which end on a block. -/
def adoptBlocks (table : List ℕ) (cachedLen blockSize : ℕ) : Option PagedKvCache :=
  if cachedLen % blockSize = 0 ∧ cachedLen / blockSize ≤ table.length then
    some ⟨table, cachedLen⟩
  else none

/-- Point at other blocks, no fewer of them. -/
def retable (table : List ℕ) : Option PagedKvCache :=
  if c.blockTable.length ≤ table.length then some { c with blockTable := table } else none

end PagedKvCache

end Frink.Paged
