import Mathlib
import Frink.Library.Slab
import Frink.Paged.Window

/-! # What the blocks hold

The K and V rows of every block, a layer's blocks one after the other in two flat buffers, and
the operations that write them: one position of one sequence, and the copy of one block over
another. A layer of a model without history has rows of width zero.
-/

namespace Frink.Paged

variable {α : Type}

/-- One layer's two buffers, `kWidth` and `vWidth` elements a position. -/
structure LayerRows (α : Type) where
  kWidth : ℕ
  vWidth : ℕ
  k : List α
  v : List α

/-- The shared store and what its blocks hold. -/
structure PagedMemory (α : Type) where
  kv : SharedPagedKv
  rows : List (LayerRows α)

namespace LayerRows

variable (r : LayerRows α)

/-- Both buffers of a fresh store, zero throughout. -/
def zeroed (zero : α) (blockSize totalBlocks kWidth vWidth : ℕ) : LayerRows α :=
  ⟨kWidth, vWidth, List.replicate (totalBlocks * blockSize * kWidth) zero,
    List.replicate (totalBlocks * blockSize * vWidth) zero⟩

def kElemsPerBlock (blockSize : ℕ) : ℕ := blockSize * r.kWidth

def vElemsPerBlock (blockSize : ℕ) : ℕ := blockSize * r.vWidth

def kRow (blockSize id offset : ℕ) : Option (List α) :=
  Slab.slice r.k (id * r.kElemsPerBlock blockSize + offset * r.kWidth) r.kWidth

def vRow (blockSize id offset : ℕ) : Option (List α) :=
  Slab.slice r.v (id * r.vElemsPerBlock blockSize + offset * r.vWidth) r.vWidth

/-- Every position of block `src` over block `dst`; the code asserts that they differ. -/
def copyBlock (blockSize src dst : ℕ) : Option (LayerRows α) :=
  if src = dst then none
  else do
    let kSpan := r.kElemsPerBlock blockSize
    let k ← Slab.copyWithin r.k (src * kSpan) (dst * kSpan) kSpan
    let vSpan := r.vElemsPerBlock blockSize
    let v ← Slab.copyWithin r.v (src * vSpan) (dst * vSpan) vSpan
    some { r with k := k, v := v }

def writeKRow (blockSize id offset : ℕ) (row : List α) : Option (LayerRows α) :=
  if row.length = r.kWidth then do
    let k ← Slab.write r.k (id * r.kElemsPerBlock blockSize + offset * r.kWidth) row
    some { r with k := k }
  else none

def writeVRow (blockSize id offset : ℕ) (row : List α) : Option (LayerRows α) :=
  if row.length = r.vWidth then do
    let v ← Slab.write r.v (id * r.vElemsPerBlock blockSize + offset * r.vWidth) row
    some { r with v := v }
  else none

/-- Both rows of one position of one block. -/
def rowAt (blockSize id offset : ℕ) : Option (List α × List α) := do
  let k ← r.kRow blockSize id offset
  let v ← r.vRow blockSize id offset
  some (k, v)

/-- Whether a position has anything to hold. -/
def Keeps : Prop := 0 < r.kWidth ∨ 0 < r.vWidth

instance : Decidable r.Keeps := inferInstanceAs (Decidable (_ ∨ _))

/-- Room for `totalBlocks` blocks in both buffers. -/
structure Fits (blockSize totalBlocks : ℕ) : Prop where
  k_length : r.k.length = totalBlocks * blockSize * r.kWidth
  v_length : r.v.length = totalBlocks * blockSize * r.vWidth

end LayerRows

/-- Append one position's rows, as [`PagedKvCache.push`] does to the table. -/
def PagedKvCache.pushRows (c : PagedKvCache) (s : PagedKvStore) (r : LayerRows α)
    (kStep vStep : List α) : Option (PagedKvCache × PagedKvStore × LayerRows α) := do
  let (c', s') ← c.push s
  let id ← c'.blockTable[c.seqLen / s.blockSize]?
  let r ← r.writeKRow s.blockSize id (c.seqLen % s.blockSize) kStep
  let r ← r.writeVRow s.blockSize id (c.seqLen % s.blockSize) vStep
  some (c', s', r)

/-- One layer's block after the other, as far as there are blocks on both sides. -/
def copyBlocks (blockSize : ℕ) :
    List (LayerRows α) → List ℕ → List ℕ → Option (List (LayerRows α))
  | r :: rows, s :: src, d :: dst => do
      let r ← r.copyBlock blockSize s d
      let rows ← copyBlocks blockSize rows src dst
      some (r :: rows)
  | rows, _, _ => some rows

namespace PagedMemory

variable (m : PagedMemory α)

/-- Every layer's block of `src` into the one of `dst`. -/
def copyGroup (src dst : PageGroup) : Option (PagedMemory α) := do
  let blockSize ← m.kv.blockSize
  let source ← m.kv.groupBlocks src
  let target ← m.kv.groupBlocks dst
  let rows ← copyBlocks blockSize m.rows source target
  some { m with rows := rows }

/-- What `l` reads at a position of one layer. -/
def rowAt (l : PagedLease) (layer pos : ℕ) : Option (List α × List α) := do
  let c ← l.caches[layer]?
  let s ← m.kv.layers[layer]?
  let r ← m.rows[layer]?
  let id ← c.blockTable[pos / s.blockSize]?
  r.rowAt s.blockSize id (pos % s.blockSize)

end PagedMemory

namespace LayerRows

variable {r r' : LayerRows α} {P total id offset src dst b o : ℕ} {k v row : List α}

theorem kRow_eq : r.kRow P id offset = Slab.row r.kWidth r.k (id * P + offset) := by
  rw [kRow, kElemsPerBlock, Slab.row]
  congr 1
  ring

theorem vRow_eq : r.vRow P id offset = Slab.row r.vWidth r.v (id * P + offset) := by
  rw [vRow, vElemsPerBlock, Slab.row]
  congr 1
  ring

theorem cell_lt (hid : id < total) (ho : offset < P) : id * P + offset < total * P := by
  calc id * P + offset < id * P + P := Nat.add_lt_add_left ho _
    _ = (id + 1) * P := by ring
    _ ≤ total * P := Nat.mul_le_mul_right P hid

/-- Two cells of one index are one cell. -/
theorem cell_inj (ho : offset < P) (ho' : o < P) (h : id * P + offset = b * P + o) :
    id = b ∧ offset = o := by
  have hP : 0 < P := by omega
  constructor
  · have := congrArg (· / P) h
    simpa [Nat.mul_add_div hP, Nat.mul_comm _ P, Nat.div_eq_of_lt ho, Nat.div_eq_of_lt ho']
      using this
  · have := congrArg (· % P) h
    simpa [Nat.mul_add_mod, Nat.mul_comm _ P, Nat.mod_eq_of_lt ho, Nat.mod_eq_of_lt ho'] using this

theorem rowAt_isSome (h : r.Fits P total) (hid : id < total) (ho : offset < P) :
    ∃ x, r.rowAt P id offset = some x := by
  have hlt := cell_lt hid ho
  obtain ⟨k, hk⟩ : ∃ k, r.kRow P id offset = some k := by
    rw [kRow_eq]
    exact Slab.row_isSome (h.k_length ▸ Nat.mul_le_mul_right _ hlt)
  obtain ⟨v, hv⟩ : ∃ v, r.vRow P id offset = some v := by
    rw [vRow_eq]
    exact Slab.row_isSome (h.v_length ▸ Nat.mul_le_mul_right _ hlt)
  exact ⟨(k, v), by rw [rowAt, hk, hv]; rfl⟩

theorem writeKRow_eq (hrow : row.length = r.kWidth) :
    r.writeKRow P id offset row =
      (Slab.write r.k ((id * P + offset) * r.kWidth) row).map fun k => { r with k := k } := by
  rw [writeKRow, if_pos hrow, kElemsPerBlock]
  rw [show id * (P * r.kWidth) + offset * r.kWidth = (id * P + offset) * r.kWidth by ring]
  cases Slab.write r.k ((id * P + offset) * r.kWidth) row <;> rfl

theorem writeVRow_eq (hrow : row.length = r.vWidth) :
    r.writeVRow P id offset row =
      (Slab.write r.v ((id * P + offset) * r.vWidth) row).map fun v => { r with v := v } := by
  rw [writeVRow, if_pos hrow, vElemsPerBlock]
  rw [show id * (P * r.vWidth) + offset * r.vWidth = (id * P + offset) * r.vWidth by ring]
  cases Slab.write r.v ((id * P + offset) * r.vWidth) row <;> rfl

/-- Write both rows of one position. -/
def put (r : LayerRows α) (P id offset : ℕ) (k v : List α) : Option (LayerRows α) := do
  let r ← r.writeKRow P id offset k
  r.writeVRow P id offset v

structure SameShape (r r' : LayerRows α) : Prop where
  k_width : r'.kWidth = r.kWidth
  v_width : r'.vWidth = r.vWidth
  k_length : r'.k.length = r.k.length
  v_length : r'.v.length = r.v.length

theorem SameShape.fits (h : SameShape r r') (hf : r.Fits P total) : r'.Fits P total where
  k_length := by rw [h.k_length, h.k_width, hf.k_length]
  v_length := by rw [h.v_length, h.v_width, hf.v_length]

theorem SameShape.keeps_iff (h : SameShape r r') : r'.Keeps ↔ r.Keeps := by
  rw [Keeps, Keeps, h.k_width, h.v_width]

theorem put_spec (h : r.put P id offset k v = some r') :
    k.length = r.kWidth ∧ v.length = r.vWidth ∧ SameShape r r' ∧
      Slab.write r.k ((id * P + offset) * r.kWidth) k = some r'.k ∧
      Slab.write r.v ((id * P + offset) * r.vWidth) v = some r'.v := by
  obtain ⟨r₁, hk, hv⟩ := Option.bind_eq_some_iff.mp h
  have hklen : k.length = r.kWidth := by
    by_contra hne
    rw [writeKRow, if_neg hne] at hk
    cases hk
  rw [writeKRow_eq hklen] at hk
  obtain ⟨k', hk', rfl⟩ := Option.map_eq_some_iff.mp hk
  have hvlen : v.length = r.vWidth := by
    by_contra hne
    rw [writeVRow, if_neg hne] at hv
    cases hv
  rw [writeVRow_eq (by exact hvlen)] at hv
  obtain ⟨v', hv', rfl⟩ := Option.map_eq_some_iff.mp hv
  exact ⟨hklen, hvlen, ⟨rfl, rfl, (Slab.write_spec hk').1, (Slab.write_spec hv').1⟩, hk', hv'⟩

theorem put_isSome (hf : r.Fits P total) (hid : id < total) (ho : offset < P)
    (hk : k.length = r.kWidth) (hv : v.length = r.vWidth) :
    ∃ r', r.put P id offset k v = some r' := by
  have hfit : ∀ w, (id * P + offset) * w + w ≤ total * P * w := by
    intro w
    rw [← Nat.succ_mul]
    exact Nat.mul_le_mul_right w (cell_lt hid ho)
  obtain ⟨k', hk'⟩ : ∃ k', Slab.write r.k ((id * P + offset) * r.kWidth) k = some k' :=
    Slab.write_isSome (by rw [hk, hf.k_length]; exact hfit r.kWidth)
  obtain ⟨v', hv'⟩ : ∃ v', Slab.write r.v ((id * P + offset) * r.vWidth) v = some v' :=
    Slab.write_isSome (by rw [hv, hf.v_length]; exact hfit r.vWidth)
  refine ⟨{ r with k := k', v := v' }, ?_⟩
  rw [put, writeKRow_eq hk, hk']
  simp only [Option.map_some, Option.bind_eq_bind, Option.bind_some]
  have hwrite : ({ r with k := k' } : LayerRows α).writeVRow P id offset v =
      (Slab.write r.v ((id * P + offset) * r.vWidth) v).map fun v => { r with k := k', v := v } :=
    writeVRow_eq hv
  rw [hwrite, hv']
  rfl

/-- The written position reads as written. -/
theorem put_rowAt_self (h : r.put P id offset k v = some r') :
    r'.rowAt P id offset = some (k, v) := by
  obtain ⟨hk, hv, hs, hwk, hwv⟩ := put_spec h
  rw [rowAt, kRow_eq, vRow_eq, hs.k_width, hs.v_width, Slab.row_write_self hk hwk,
    Slab.row_write_self hv hwv]
  rfl

/-- Every other position reads as before. -/
theorem put_rowAt_ne (h : r.put P id offset k v = some r') (ho : offset < P) (ho' : o < P)
    (hne : b = id → o ≠ offset) : r'.rowAt P b o = r.rowAt P b o := by
  obtain ⟨hk, hv, hs, hwk, hwv⟩ := put_spec h
  have hcell : b * P + o ≠ id * P + offset := by
    intro heq
    obtain ⟨hb, hoff⟩ := cell_inj ho' ho heq
    exact hne hb hoff
  simp only [rowAt, kRow_eq, vRow_eq, hs.k_width, hs.v_width, Slab.row_write_ne hk hwk hcell,
    Slab.row_write_ne hv hwv hcell]

/-- A layer without width reads the same everywhere and always. -/
theorem put_rowAt_of_not_keeps (h : r.put P id offset k v = some r') (hn : ¬ r.Keeps)
    (hf : r.Fits P total) (hb : b < total) (ho : o < P) : r'.rowAt P b o = r.rowAt P b o := by
  obtain ⟨-, -, hs, -, -⟩ := put_spec h
  obtain ⟨hk, hv⟩ : r.kWidth = 0 ∧ r.vWidth = 0 := by
    unfold Keeps at hn
    omega
  obtain ⟨x, hx⟩ := rowAt_isSome hf hb ho
  obtain ⟨y, hy⟩ := rowAt_isSome (hs.fits hf) hb ho
  have hnil : ∀ (r₁ : LayerRows α) (z : List α × List α), r₁.kWidth = 0 → r₁.vWidth = 0 →
      r₁.rowAt P b o = some z → z = ([], []) := by
    intro r₁ z hk₁ hv₁ hz
    obtain ⟨k₁, hk₂, hz⟩ := Option.bind_eq_some_iff.mp hz
    obtain ⟨v₁, hv₂, hz⟩ := Option.bind_eq_some_iff.mp hz
    rw [kRow_eq] at hk₂
    rw [vRow_eq] at hv₂
    have hk₃ := List.eq_nil_of_length_eq_zero ((Slab.row_length hk₂).trans hk₁)
    have hv₃ := List.eq_nil_of_length_eq_zero ((Slab.row_length hv₂).trans hv₁)
    rw [← Option.some.inj hz, hk₃, hv₃]
  rw [hx, hy, hnil r x hk hv hx, hnil r' y (hs.k_width.trans hk) (hs.v_width.trans hv) hy]

theorem copyBlock_spec (h : r.copyBlock P src dst = some r') :
    SameShape r r' ∧ (∀ o < P, r'.rowAt P dst o = r.rowAt P src o) ∧
      ∀ b o, b ≠ dst → o < P → r'.rowAt P b o = r.rowAt P b o := by
  unfold copyBlock at h
  split at h
  · cases h
  obtain ⟨k, hk, h⟩ := Option.bind_eq_some_iff.mp h
  obtain ⟨v, hv, h⟩ := Option.bind_eq_some_iff.mp h
  obtain rfl := Option.some.inj h
  have hassoc : ∀ x w, x * (P * w) = x * P * w := fun x w => by ring
  rw [kElemsPerBlock, hassoc, hassoc] at hk
  rw [vElemsPerBlock, hassoc, hassoc] at hv
  refine ⟨⟨rfl, rfl, Slab.copyWithin_length hk, Slab.copyWithin_length hv⟩, fun o ho => ?_,
    fun b o hb ho => ?_⟩
  · simp only [rowAt, kRow_eq, vRow_eq, Slab.row_copy hk ho, Slab.row_copy hv ho]
  · have hout : b * P + o < dst * P ∨ dst * P + P ≤ b * P + o := by
      rcases Nat.lt_or_gt_of_ne hb with hlt | hgt
      · exact Or.inl (cell_lt hlt ho)
      · have hle := Nat.mul_le_mul_right P hgt
        rw [Nat.succ_mul] at hle
        exact Or.inr (by omega)
    simp only [rowAt, kRow_eq, vRow_eq, Slab.row_copy_ne hk hout, Slab.row_copy_ne hv hout]

end LayerRows

/-- Each layer's block is copied by itself. -/
theorem copyBlocks_spec {P : ℕ} {rows rows' : List (LayerRows α)} {src dst : List ℕ}
    (h : copyBlocks P rows src dst = some rows') :
    rows'.length = rows.length ∧ ∀ (layer : ℕ) (r : LayerRows α) (s d : ℕ), rows[layer]? = some r →
      src[layer]? = some s → dst[layer]? = some d →
      ∃ r', rows'[layer]? = some r' ∧ r.copyBlock P s d = some r' := by
  induction rows generalizing src dst rows' with
  | nil =>
    obtain rfl : [] = rows' := by
      cases src <;> cases dst <;> exact Option.some.inj h
    exact ⟨rfl, fun layer r s d hr => by cases hr⟩
  | cons r rows ih =>
    match src, dst with
    | [], _ =>
      obtain rfl : r :: rows = rows' := Option.some.inj h
      exact ⟨rfl, fun layer r s d _ hs => by cases hs⟩
    | _ :: _, [] =>
      obtain rfl : r :: rows = rows' := Option.some.inj h
      exact ⟨rfl, fun layer r s d _ _ hd => by cases hd⟩
    | s :: src, d :: dst =>
      obtain ⟨r₁, hr₁, h⟩ := Option.bind_eq_some_iff.mp h
      obtain ⟨rows₁, hrows, h⟩ := Option.bind_eq_some_iff.mp h
      obtain rfl := Option.some.inj h
      obtain ⟨hlen, hget⟩ := ih hrows
      refine ⟨congrArg (· + 1) hlen, fun layer r₂ s₂ d₂ hr hs hd => ?_⟩
      cases layer with
      | zero =>
        obtain rfl := Option.some.inj hr
        obtain rfl := Option.some.inj hs
        obtain rfl := Option.some.inj hd
        exact ⟨r₁, rfl, hr₁⟩
      | succ layer => exact hget layer r₂ s₂ d₂ hr hs hd

end Frink.Paged
