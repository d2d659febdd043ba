import Mathlib

/-! # Rows in a flat buffer

A flat list read and written in slices, and the same list seen as rows of one width: a write
changes the row it addresses and a copy the rows it covers. An index out of range is `none`.
-/

namespace Frink.Slab

variable {α : Type*}

def slice (xs : List α) (start n : ℕ) : Option (List α) :=
  if start + n ≤ xs.length then some ((xs.drop start).take n) else none

def write (xs : List α) (start : ℕ) (row : List α) : Option (List α) :=
  if start + row.length ≤ xs.length then
    some (xs.take start ++ row ++ xs.drop (start + row.length))
  else none

def copyWithin (xs : List α) (src dst n : ℕ) : Option (List α) := do
  let row ← slice xs src n
  write xs dst row

/-- The `n`th row of width `w`. -/
def row (w : ℕ) (xs : List α) (n : ℕ) : Option (List α) := slice xs (n * w) w

variable {xs ys r : List α} {start w n m a b c i : ℕ}

theorem slice_eq_some_iff :
    slice xs start n = some r ↔
      start + n ≤ xs.length ∧ r.length = n ∧ ∀ i < n, r[i]? = xs[start + i]? := by
  unfold slice
  constructor
  · intro h
    split at h
    · rename_i hle
      obtain rfl := Option.some.inj h
      refine ⟨hle, ?_, fun i hi => ?_⟩
      · rw [List.length_take, List.length_drop]
        omega
      · rw [List.getElem?_take_of_lt hi, List.getElem?_drop]
    · cases h
  · rintro ⟨hle, hlen, hget⟩
    rw [if_pos hle]
    apply congrArg some
    ext1 i
    rcases Nat.lt_or_ge i n with hi | hi
    · rw [List.getElem?_take_of_lt hi, List.getElem?_drop, hget i hi]
    · rw [List.getElem?_take_eq_none hi, List.getElem?_eq_none (hlen.trans_le hi)]

theorem slice_isSome (h : start + n ≤ xs.length) : ∃ r, slice xs start n = some r :=
  ⟨_, if_pos h⟩

theorem write_isSome (h : start + r.length ≤ xs.length) : ∃ ys, write xs start r = some ys :=
  ⟨_, if_pos h⟩

theorem write_spec (h : write xs start r = some ys) :
    ys.length = xs.length ∧ start + r.length ≤ xs.length ∧
      (∀ i < r.length, ys[start + i]? = r[i]?) ∧
      ∀ i, i < start ∨ start + r.length ≤ i → ys[i]? = xs[i]? := by
  unfold write at h
  split at h
  swap
  · cases h
  rename_i hle
  obtain rfl := Option.some.inj h
  have htake : (xs.take start).length = start := List.length_take_of_le (by omega)
  refine ⟨?_, hle, fun i hi => ?_, ?_⟩
  · simp only [List.length_append, List.length_drop, htake]
    omega
  · rw [List.append_assoc, List.getElem?_append_right (by omega), htake, Nat.add_sub_cancel_left,
      List.getElem?_append_left hi]
  · rintro i (hi | hi)
    · rw [List.append_assoc, List.getElem?_append_left (by omega), List.getElem?_take_of_lt hi]
    · have hlen : (xs.take start ++ r).length = start + r.length := by
        rw [List.length_append, htake]
      rw [List.getElem?_append_right (by omega), hlen, List.getElem?_drop]
      congr 1
      omega

theorem slice_write_self (h : write xs start r = some ys) : slice ys start r.length = some r := by
  obtain ⟨hlen, hle, hin, -⟩ := write_spec h
  exact slice_eq_some_iff.mpr ⟨hlen ▸ hle, rfl, fun i hi => (hin i hi).symm⟩

theorem slice_write_disjoint (h : write xs start r = some ys)
    (hd : m + n ≤ start ∨ start + r.length ≤ m) : slice ys m n = slice xs m n := by
  obtain ⟨hlen, -, -, hout⟩ := write_spec h
  ext1 s
  rw [slice_eq_some_iff, slice_eq_some_iff, hlen]
  apply and_congr_right'
  apply and_congr_right'
  apply forall₂_congr
  intro i hi
  rw [hout (m + i) (by omega)]

theorem row_isSome (h : (n + 1) * w ≤ xs.length) : ∃ r, row w xs n = some r := by
  apply slice_isSome
  rwa [← Nat.succ_mul]

theorem row_length (h : row w xs n = some r) : r.length = w := (slice_eq_some_iff.mp h).2.1

theorem row_write_self (hr : r.length = w) (h : write xs (n * w) r = some ys) :
    row w ys n = some r := by
  subst hr
  exact slice_write_self h

/-- A row of another index keeps its place on one side of what was written. -/
theorem row_write_ne (hr : r.length = w) (h : write xs (n * w) r = some ys) (hne : m ≠ n) :
    row w ys m = row w xs m := by
  apply slice_write_disjoint h
  rw [hr, ← Nat.succ_mul, ← Nat.succ_mul]
  rcases Nat.lt_or_gt_of_ne hne with hlt | hgt
  · exact Or.inl (Nat.mul_le_mul_right w hlt)
  · exact Or.inr (Nat.mul_le_mul_right w hgt)

theorem copyWithin_length (h : copyWithin xs a b n = some ys) : ys.length = xs.length := by
  obtain ⟨r, -, hw⟩ := Option.bind_eq_some_iff.mp h
  exact (write_spec hw).1

/-- The copied rows read as their sources did. -/
theorem row_copy (h : copyWithin xs (a * w) (b * w) (c * w) = some ys) (hi : i < c) :
    row w ys (b + i) = row w xs (a + i) := by
  obtain ⟨r, hs, hw⟩ := Option.bind_eq_some_iff.mp h
  obtain ⟨hle, hlen, hget⟩ := slice_eq_some_iff.mp hs
  obtain ⟨hys, hfit, hin, -⟩ := write_spec hw
  have hreach : (i + 1) * w ≤ c * w := Nat.mul_le_mul_right w hi
  rw [Nat.add_mul, Nat.one_mul] at hreach
  ext1 s
  rw [row, row, slice_eq_some_iff, slice_eq_some_iff, hys, Nat.add_mul, Nat.add_mul]
  have hread : ∀ j < w, ys[b * w + i * w + j]? = xs[a * w + i * w + j]? := by
    intro j hj
    rw [Nat.add_assoc, Nat.add_assoc, hin _ (by omega), hget _ (by omega)]
  constructor
  · rintro ⟨_, hs, hg⟩
    exact ⟨by omega, hs, fun j hj => (hg j hj).trans (hread j hj)⟩
  · rintro ⟨_, hs, hg⟩
    exact ⟨by omega, hs, fun j hj => (hg j hj).trans (hread j hj).symm⟩

theorem row_copy_ne (h : copyWithin xs (a * w) (b * w) (c * w) = some ys)
    (hd : m < b ∨ b + c ≤ m) : row w ys m = row w xs m := by
  obtain ⟨r, hs, hw⟩ := Option.bind_eq_some_iff.mp h
  have hlen : r.length = c * w := (slice_eq_some_iff.mp hs).2.1
  apply slice_write_disjoint hw
  rw [hlen, ← Nat.succ_mul, ← Nat.add_mul]
  rcases hd with hlt | hge
  · exact Or.inl (Nat.mul_le_mul_right w hlt)
  · exact Or.inr (Nat.mul_le_mul_right w hge)

end Frink.Slab

/-! ## Blocks laid end to end

Every key has a block of rows, and the blocks are laid out in the order of the keys. Where a block
starts follows from the sizes of those before it.
-/

namespace Frink.Blocks

variable {κ ρ : Type*} [DecidableEq κ] {size : κ → ℕ} {l l' : List κ} {k k' : κ}

/-- Where the block of a key starts. -/
def start (size : κ → ℕ) : List κ → κ → ℕ
  | [], _ => 0
  | x :: l, k => if x = k then 0 else size x + start size l k

theorem start_cons_of_ne {x : κ} (h : x ≠ k) :
    start size (x :: l) k = size x + start size l k := if_neg h

theorem start_append_of_mem (h : k ∈ l) : start size (l ++ l') k = start size l k := by
  induction l with
  | nil => cases h
  | cons x l ih =>
    by_cases hx : x = k
    · simp [start, hx]
    · rw [List.cons_append, start_cons_of_ne hx, start_cons_of_ne hx,
        ih (List.mem_of_ne_of_mem (Ne.symm hx) h)]

/-- A new key starts where the blocks so far end. -/
theorem start_snoc (h : k ∉ l) : start size (l ++ [k]) k = (l.map size).sum := by
  induction l with
  | nil => simp [start]
  | cons x l ih =>
    rw [List.mem_cons, not_or] at h
    rw [List.cons_append, start_cons_of_ne (Ne.symm h.1), ih h.2]
    simp

theorem start_add_size_le (h : k ∈ l) : start size l k + size k ≤ (l.map size).sum := by
  induction l with
  | nil => cases h
  | cons x l ih =>
    rw [List.map_cons, List.sum_cons]
    by_cases hx : x = k
    · simp [start, hx]
    · rw [start_cons_of_ne hx]
      have := ih (List.mem_of_ne_of_mem (Ne.symm hx) h)
      omega

/-- No two blocks start in one place. -/
theorem start_inj (hpos : ∀ x, 0 < size x) (hk : k ∈ l) (hk' : k' ∈ l)
    (h : start size l k = start size l k') : k = k' := by
  induction l with
  | nil => cases hk
  | cons x l ih =>
    have hx := hpos x
    by_cases hxk : x = k <;> by_cases hxk' : x = k'
    · exact hxk.symm.trans hxk'
    · rw [start_cons_of_ne hxk', start, if_pos hxk] at h
      omega
    · rw [start_cons_of_ne hxk, @start, if_pos hxk'] at h
      omega
    · rw [start_cons_of_ne hxk, start_cons_of_ne hxk'] at h
      exact ih (List.mem_of_ne_of_mem (Ne.symm hxk) hk) (List.mem_of_ne_of_mem (Ne.symm hxk') hk')
        (Nat.add_left_cancel h)

/-- What is found from the start of a block on. -/
theorem drop_start {block : κ → List ρ} (hsize : ∀ x ∈ l, (block x).length = size x) (h : k ∈ l) :
    block k <+: (l.flatMap block).drop (start size l k) := by
  induction l with
  | nil => cases h
  | cons x l ih =>
    obtain ⟨hx, hl⟩ := List.forall_mem_cons.mp hsize
    rw [List.flatMap_cons]
    by_cases hxk : x = k
    · subst hxk
      rw [start, if_pos rfl]
      exact List.prefix_append _ _
    · rw [start_cons_of_ne hxk, ← hx, List.drop_length_add_append]
      exact ih hl (List.mem_of_ne_of_mem (Ne.symm hxk) h)

omit [DecidableEq κ] in
theorem length_flatMap {block : κ → List ρ} (hsize : ∀ x ∈ l, (block x).length = size x) :
    (l.flatMap block).length = (l.map size).sum := by
  rw [List.length_flatMap, List.map_congr_left hsize]

end Frink.Blocks
