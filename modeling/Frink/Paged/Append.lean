import Mathlib
import Frink.Paged.Rows

/-! # Appending to a sequence

Rows go to one sequence a position at a time, into blocks that it holds or takes from the store.
Sequences share a layer's store; what two of them name in common lies behind both of them.
-/

namespace Frink.Paged

variable {α β ι : Type}

/-- A run of elements of the store's type, or of the other one, which is converted when it is
written. -/
inductive KvRows (α β : Type) where
  | same (run : List α)
  | other (run : List β)

namespace KvRows

def len : KvRows α β → ℕ
  | same run => run.length
  | other run => run.length

def slice (start stop : ℕ) : KvRows α β → KvRows α β
  | same run => same ((run.take stop).drop start)
  | other run => other ((run.take stop).drop start)

/-- What a store holds of the run. -/
def stored (convert : β → α) : KvRows α β → List α
  | same run => run
  | other run => run.map convert

end KvRows

structure PagedStoreExhausted where
  deriving DecidableEq

/-- One layer's store with its buffers. -/
structure PagedLayer (α : Type) where
  kv : PagedKvStore
  rows : LayerRows α

namespace PagedLayer

variable (m : PagedLayer α) (convert : β → α) (c : PagedKvCache)

/-- Append one position; `none` where the code panics. -/
def pushRows (kStep vStep : KvRows α β) :
    Option (Except PagedStoreExhausted Unit × PagedKvCache × PagedLayer α) :=
  let blockIndex := c.seqLen / m.kv.blockSize
  let held :=
    if c.blockTable.length ≤ blockIndex then
      m.kv.acquireBlock.map fun taken => (c.blockTable ++ [taken.1], taken.2)
    else some (c.blockTable, m.kv)
  match held with
  | none => some (.error {}, c, m)
  | some (table, kv) => do
      let id ← table[blockIndex]?
      let r ← m.rows.writeKRow m.kv.blockSize id (c.seqLen % m.kv.blockSize) (kStep.stored convert)
      let r ← r.writeVRow m.kv.blockSize id (c.seqLen % m.kv.blockSize) (vStep.stored convert)
      some (.ok (), ⟨table, c.seqLen + 1⟩, ⟨kv, r⟩)

/-- Take the blocks of `n` more positions. -/
def reserve (n : ℕ) : Except PagedStoreExhausted Unit × PagedKvCache × PagedLayer α :=
  match c.reserve m.kv n with
  | none => (.error {}, c, m)
  | some (c, kv) => (.ok (), c, ⟨kv, m.rows⟩)

/-- The positions from the `i`-th on, `n` of them; a store that runs dry is a panic here. -/
def appendFrom (k v : KvRows α β) : ℕ → ℕ → PagedKvCache → PagedLayer α →
    Option (PagedKvCache × PagedLayer α)
  | _, 0, c, m => some (c, m)
  | i, n + 1, c, m =>
      let kWidth := m.rows.kWidth
      let vWidth := m.rows.vWidth
      match m.pushRows convert c (k.slice (i * kWidth) ((i + 1) * kWidth))
          (v.slice (i * vWidth) ((i + 1) * vWidth)) with
      | some (.ok _, c, m) => appendFrom k v (i + 1) n c m
      | _ => none

def appendContiguous (k v : KvRows α β) (count : ℕ) :
    Option (Except PagedStoreExhausted Unit × PagedKvCache × PagedLayer α) :=
  if k.len = count * m.rows.kWidth ∧ v.len = count * m.rows.vWidth then
    if m.kv.freeBlockCount < c.blocksNeededFor m.kv count then some (.error {}, c, m)
    else (appendFrom convert k v 0 count c m).map fun done => (.ok (), done)
  else none

/-- Both rows of one position. -/
def read (pos : ℕ) : Option (List α × List α) := do
  let id ← c.blockTable[pos / m.kv.blockSize]?
  m.rows.rowAt m.kv.blockSize id (pos % m.kv.blockSize)

/-- Both buffers of the sequence's own. -/
def toContiguous : Option (List α × List α) :=
  ((List.range c.seqLen).mapM fun pos => m.read c pos).map fun rows =>
    (rows.flatMap Prod.fst, rows.flatMap Prod.snd)

end PagedLayer

/-- One layer and the sequences that share it. -/
structure Sequences (ι α : Type) where
  layer : PagedLayer α
  seq : ι → PagedKvCache

/-- What a request asks of its sequence. -/
inductive Op (ι α β : Type) where
  | push (i : ι) (k v : KvRows α β)
  | reserve (i : ι) (n : ℕ)
  | append (i : ι) (k v : KvRows α β) (count : ℕ)

namespace Op

def target : Op ι α β → ι
  | push i _ _ => i
  | reserve i _ => i
  | append i _ _ _ => i

/-- The positions that blocks are needed for. -/
def positions : Op ι α β → ℕ
  | push _ _ _ => 1
  | reserve _ n => n
  | append _ _ _ count => count

/-- The positions by which the sequence becomes longer. -/
def advance : Op ι α β → ℕ
  | push _ _ _ => 1
  | reserve _ _ => 0
  | append _ _ _ count => count

/-- What the sequence gets at its end. -/
def written (convert : β → α) : Op ι α β → List α × List α
  | push _ k v => (k.stored convert, v.stored convert)
  | reserve _ _ => ([], [])
  | append _ k v _ => (k.stored convert, v.stored convert)

/-- The runs are of the length that the code asserts. -/
def Fits (kWidth vWidth : ℕ) : Op ι α β → Prop
  | push _ k v => k.len = kWidth ∧ v.len = vWidth
  | reserve _ _ => True
  | append _ k v count => k.len = count * kWidth ∧ v.len = count * vWidth

end Op

namespace Sequences

variable [DecidableEq ι] (σ : Sequences ι α) (convert : β → α)

/-- The sequence and the layer after an operation. -/
def after (i : ι) : Except PagedStoreExhausted Unit × PagedKvCache × PagedLayer α →
    Except PagedStoreExhausted Unit × Sequences ι α
  | (result, c, m) => (result, ⟨m, Function.update σ.seq i c⟩)

def step : Op ι α β → Option (Except PagedStoreExhausted Unit × Sequences ι α)
  | .push i k v => (σ.layer.pushRows convert (σ.seq i) k v).map (σ.after i)
  | .reserve i n => some (σ.after i (σ.layer.reserve (σ.seq i) n))
  | .append i k v count => (σ.layer.appendContiguous convert (σ.seq i) k v count).map (σ.after i)

def run : List (Op ι α β) → Sequences ι α →
    Option (List (Except PagedStoreExhausted Unit) × Sequences ι α)
  | [], σ => some ([], σ)
  | op :: ops, σ => do
      let (result, σ) ← σ.step convert op
      let (results, σ) ← run ops σ
      some (result :: results, σ)

omit [DecidableEq ι] in
def contiguous (i : ι) : Option (List α × List α) := σ.layer.toContiguous (σ.seq i)

end Sequences

end Frink.Paged
