import Mathlib
import Frink.Paged.Window

/-! # Writing rows

What a forward pass does to one request's tables and to the layers' free lists. The prompt's
chunks and the private step reserve in every layer before they write; the shared decode step
writes without asking.
-/

namespace Frink.Paged

/-- Each table against its own layer's store, as far as there are both. -/
def overLayers (f : PagedKvCache → PagedKvStore → Option (PagedKvCache × PagedKvStore)) :
    List PagedKvCache → List PagedKvStore → Option (List PagedKvCache × List PagedKvStore)
  | c :: caches, s :: layers => do
      let (c, s) ← f c s
      let (caches, layers) ← overLayers f caches layers
      some (c :: caches, s :: layers)
  | caches, layers => some (caches, layers)

namespace PagedKvCache

/-- Write `n` positions one after the other. -/
def appendContiguous : ℕ → PagedKvCache → PagedKvStore → Option (PagedKvCache × PagedKvStore)
  | 0, c, s => some (c, s)
  | n + 1, c, s => do
      let (c, s) ← c.push s
      appendContiguous n c s

end PagedKvCache

namespace PagedLease

variable (l : PagedLease)

/-- Write `n` positions in every layer, having reserved them in every layer. -/
def forwardBatchPaged (n : ℕ) (store : SharedPagedKv) : Option (PagedLease × SharedPagedKv) :=
  if n = 0 then some (l, store)
  else if (l.caches.zip store.layers).any fun (c, s) =>
      s.freeBlockCount < c.blocksNeededFor s n then none
  else do
    let (caches, layers) ← overLayers (fun c s => c.reserve s n) l.caches store.layers
    let (caches, layers) ← overLayers (PagedKvCache.appendContiguous n) caches layers
    some ({ l with caches := caches }, { store with layers := layers })

def forwardTokenPaged (store : SharedPagedKv) : Option (PagedLease × SharedPagedKv) :=
  l.forwardBatchPaged 1 store

/-- This row's part of a decode step the batch shares. -/
def forwardMultiSeqKv (store : SharedPagedKv) : Option (PagedLease × SharedPagedKv) := do
  let (caches, layers) ← overLayers PagedKvCache.push l.caches store.layers
  some ({ l with caches := caches }, { store with layers := layers })

/-- The lease once `n` more positions are written in blocks it has. -/
def advance (n : ℕ) : PagedLease :=
  { l with caches := l.caches.map fun c => { c with seqLen := c.seqLen + n } }

/-- Every table is `pos` positions in and has one entry per group. -/
structure WrittenTo (pos : ℕ) : Prop where
  seq_len : ∀ c ∈ l.caches, c.seqLen = pos
  tables : l.TablesMatchGroups

end PagedLease

/-- One store for each of the lease's tables, all of one page size. -/
structure Fits (l : PagedLease) (st : SharedPagedKv) (blockSize : ℕ) : Prop where
  layers : l.caches.length = st.layers.length
  nonempty : st.layers ≠ []
  block_size : ∀ s ∈ st.layers, s.blockSize = blockSize

section Layers

variable {f : PagedKvCache → PagedKvStore → Option (PagedKvCache × PagedKvStore)}
  {g : PagedKvCache → PagedKvCache} {caches : List PagedKvCache} {layers : List PagedKvStore}

theorem overLayers_eq (hlen : caches.length = layers.length)
    (h : ∀ c ∈ caches, ∀ s ∈ layers, f c s = some (g c, s)) :
    overLayers f caches layers = some (caches.map g, layers) := by
  induction caches generalizing layers with
  | nil => rfl
  | cons c caches ih =>
    cases layers with
    | nil => cases hlen
    | cons s layers =>
      have htail : overLayers f caches layers = some (caches.map g, layers) := by
        apply ih (Nat.succ.inj hlen)
        intro c' hc' s' hs'
        exact h c' (List.mem_cons_of_mem c hc') s' (List.mem_cons_of_mem s hs')
      simp [overLayers, h c List.mem_cons_self s List.mem_cons_self, htail]

theorem overLayers_none (hlen : caches.length = layers.length) (hne : layers ≠ [])
    (h : ∀ c ∈ caches, ∀ s ∈ layers, f c s = none) : overLayers f caches layers = none := by
  cases layers with
  | nil => exact absurd rfl hne
  | cons s layers =>
    cases caches with
    | nil => cases hlen
    | cons c caches =>
      simp [overLayers, h c List.mem_cons_self s List.mem_cons_self]

end Layers

section Rows

variable {c : PagedKvCache} {s : PagedKvStore} {n : ℕ}

theorem push_within (hP : 0 < s.blockSize) (h : c.seqLen < c.blockTable.length * s.blockSize) :
    c.push s = some ({ c with seqLen := c.seqLen + 1 }, s) := by
  have hlt := (Nat.div_lt_iff_lt_mul hP).mpr h
  simp [PagedKvCache.push, Nat.not_le.mpr hlt, hlt]

theorem appendContiguous_within (hP : 0 < s.blockSize)
    (h : c.seqLen + n ≤ c.blockTable.length * s.blockSize) :
    c.appendContiguous n s = some ({ c with seqLen := c.seqLen + n }, s) := by
  induction n generalizing c with
  | zero => rfl
  | succ n ih =>
    unfold PagedKvCache.appendContiguous
    rw [push_within hP (by omega)]
    simp only [Option.bind_eq_bind, Option.bind_some]
    rw [ih (by dsimp only; omega), Nat.add_right_comm, Nat.add_assoc]

theorem blocksNeededFor_within (hP : 0 < s.blockSize)
    (h : c.seqLen + n ≤ c.blockTable.length * s.blockSize) : c.blocksNeededFor s n = 0 := by
  unfold PagedKvCache.blocksNeededFor
  apply Nat.div_eq_of_lt
  omega

theorem reserve_within (hP : 0 < s.blockSize)
    (h : c.seqLen + n ≤ c.blockTable.length * s.blockSize) : c.reserve s n = some (c, s) := by
  simp [PagedKvCache.reserve, blocksNeededFor_within hP h]

theorem push_beyond (hP : 0 < s.blockSize) (hfree : s.freeBlockIds = [])
    (h : c.blockTable.length * s.blockSize ≤ c.seqLen) : c.push s = none := by
  have hle := (Nat.le_div_iff_mul_le hP).mpr h
  simp [PagedKvCache.push, PagedKvStore.acquireBlock, hfree, hle]

theorem blocksNeededFor_beyond (hP : 0 < s.blockSize)
    (h : c.blockTable.length * s.blockSize ≤ c.seqLen) : 0 < c.blocksNeededFor s 1 := by
  unfold PagedKvCache.blocksNeededFor
  apply Nat.div_pos _ hP
  omega

end Rows

namespace PagedLease

variable {l : PagedLease} {st : SharedPagedKv} {P pos n : ℕ}

theorem WrittenTo.advance (h : l.WrittenTo pos) (n : ℕ) : (l.advance n).WrittenTo (pos + n) := by
  constructor
  · intro c hc
    obtain ⟨c', hc', rfl⟩ := List.mem_map.mp hc
    exact congrArg (· + n) (h.seq_len c' hc')
  · intro c hc
    obtain ⟨c', hc', rfl⟩ := List.mem_map.mp hc
    exact h.tables c' hc'

theorem WrittenTo.within (h : l.WrittenTo pos) (hf : Fits l st P)
    (hreach : pos + n ≤ l.groups.length * P) {c : PagedKvCache} (hc : c ∈ l.caches)
    {s : PagedKvStore} (hs : s ∈ st.layers) :
    c.seqLen + n ≤ c.blockTable.length * s.blockSize := by
  rw [h.seq_len c hc, h.tables c hc, hf.block_size s hs]
  exact hreach

/-- Positions within the tables are written without touching a free list. -/
theorem forwardBatchPaged_within (hP : 0 < P) (h : l.WrittenTo pos) (hf : Fits l st P)
    (hreach : pos + n ≤ l.groups.length * P) :
    l.forwardBatchPaged n st = some (l.advance n, st) := by
  have hpos : ∀ s ∈ st.layers, 0 < s.blockSize := fun s hs => hf.block_size s hs ▸ hP
  unfold forwardBatchPaged
  split
  · rename_i hn
    simp [hn, PagedLease.advance]
  rw [if_neg]
  · have hreserve := overLayers_eq (g := id) (f := fun c s => c.reserve s n) hf.layers
      fun c hc s hs => reserve_within (hpos s hs) (h.within hf hreach hc hs)
    have hwrite := overLayers_eq (f := PagedKvCache.appendContiguous n) hf.layers
      fun c hc s hs => appendContiguous_within (hpos s hs) (h.within hf hreach hc hs)
    simp [hreserve, hwrite, PagedLease.advance]
  · intro hany
    obtain ⟨⟨c, s⟩, hmem, hlt⟩ := List.any_eq_true.mp hany
    obtain ⟨hc, hs⟩ := List.of_mem_zip hmem
    simp [blocksNeededFor_within (hpos s hs) (h.within hf hreach hc hs)] at hlt

theorem forwardMultiSeqKv_within (hP : 0 < P) (h : l.WrittenTo pos) (hf : Fits l st P)
    (hreach : pos + 1 ≤ l.groups.length * P) :
    l.forwardMultiSeqKv st = some (l.advance 1, st) := by
  have hwrite := overLayers_eq (f := PagedKvCache.push) hf.layers fun c hc s hs =>
    push_within (hf.block_size s hs ▸ hP) (h.within hf hreach hc hs)
  simp [forwardMultiSeqKv, hwrite, PagedLease.advance]

/-- Past the tables nothing is written when no layer has a free block. -/
theorem forwardTokenPaged_beyond (hP : 0 < P) (h : l.WrittenTo pos) (hf : Fits l st P)
    (hend : l.groups.length * P ≤ pos) (hfree : ∀ s ∈ st.layers, s.freeBlockIds = []) :
    l.forwardTokenPaged st = none := by
  unfold forwardTokenPaged forwardBatchPaged
  rw [if_neg Nat.one_ne_zero, if_pos]
  obtain ⟨s, layers, hst⟩ := List.exists_cons_of_ne_nil hf.nonempty
  obtain ⟨c, caches, hl⟩ := List.exists_cons_of_ne_nil
    (List.ne_nil_of_length_pos (hf.layers ▸ List.length_pos_of_ne_nil hf.nonempty))
  have hs : s ∈ st.layers := hst ▸ List.mem_cons_self
  have hc : c ∈ l.caches := hl ▸ List.mem_cons_self
  have hneed : 0 < c.blocksNeededFor s 1 := by
    apply blocksNeededFor_beyond (hf.block_size s hs ▸ hP)
    rw [h.seq_len c hc, h.tables c hc, hf.block_size s hs]
    exact hend
  simp [hst, hl, PagedKvStore.freeBlockCount, hfree s hs, hneed]

theorem forwardMultiSeqKv_beyond (hP : 0 < P) (h : l.WrittenTo pos) (hf : Fits l st P)
    (hend : l.groups.length * P ≤ pos) (hfree : ∀ s ∈ st.layers, s.freeBlockIds = []) :
    l.forwardMultiSeqKv st = none := by
  have hnone : overLayers PagedKvCache.push l.caches st.layers = none := by
    apply overLayers_none hf.layers hf.nonempty
    intro c hc s hs
    apply push_beyond (hf.block_size s hs ▸ hP) (hfree s hs)
    rw [h.seq_len c hc, h.tables c hc, hf.block_size s hs]
    exact hend
  simp [forwardMultiSeqKv, hnone]

end PagedLease

end Frink.Paged
