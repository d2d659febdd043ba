import Mathlib

/-! # Tables written by nested loops

A list that is written row by row is the list of a function of the index, and is read back by
the index.
-/

namespace Frink.Table

variable {α β : Type*}

/-- The first `n` values of a function. -/
def table (n : ℕ) (f : ℕ → α) : List α := (List.range n).map f

@[simp] theorem length_table (n : ℕ) (f : ℕ → α) : (table n f).length = n := by
  simp [table]

theorem table_congr {n : ℕ} {f g : ℕ → α} (h : ∀ i < n, f i = g i) : table n f = table n g := by
  apply List.map_congr_left
  intro i hi
  exact h i (List.mem_range.mp hi)

theorem getD_table {n i : ℕ} (h : i < n) (f : ℕ → α) (d : α) : (table n f).getD i d = f i := by
  simp [table, List.getD, h]

theorem table_append (m n : ℕ) (f : ℕ → α) :
    table m f ++ table n (fun i => f (m + i)) = table (m + n) f := by
  simp [table, List.range_add]

theorem table_append_ite (m n : ℕ) (f g : ℕ → α) :
    table m f ++ table n g = table (m + n) fun i => if i < m then f i else g (i - m) := by
  rw [← table_append]
  congr 1
  · apply table_congr
    intro i hi
    rw [if_pos hi]
  · apply table_congr
    intro i _
    rw [if_neg (by omega), Nat.add_sub_cancel_left]

theorem rows_congr {m : ℕ} {r s : ℕ → List α} (h : ∀ g < m, r g = s g) :
    (List.range m).flatMap r = (List.range m).flatMap s := by
  induction m with
  | zero => rfl
  | succ m ih =>
    rw [List.range_succ, List.flatMap_append, List.flatMap_append, List.flatMap_singleton,
      List.flatMap_singleton, ih fun g hg => h g (Nat.lt_succ_of_lt hg), h m (Nat.lt_succ_self m)]

/-- `m` rows of `n`. -/
theorem flatMap_table (m n : ℕ) (f : ℕ → α) :
    (List.range m).flatMap (fun g => table n fun i => f (n * g + i)) = table (n * m) f := by
  induction m with
  | zero => rfl
  | succ m ih =>
    rw [List.range_succ, List.flatMap_append, ih, List.flatMap_singleton, table_append,
      Nat.mul_succ]

/-- What `m` rows of `n` hold at an index. -/
theorem getD_rows {m n g i : ℕ} (hg : g < m) (hi : i < n) (f : ℕ → ℕ → α) (d : α) :
    ((List.range m).flatMap fun g => table n (f g)).getD (n * g + i) d = f g i := by
  have hrow : ∀ g, table n (f g) = table n fun i => f ((n * g + i) / n) ((n * g + i) % n) := by
    intro g
    apply table_congr
    intro i hi
    rw [Nat.mul_add_div (by omega), Nat.div_eq_of_lt hi, Nat.add_zero, Nat.mul_add_mod,
      Nat.mod_eq_of_lt hi]
  have hlt : n * g + i < n * m := by
    have hle : n * (g + 1) ≤ n * m := Nat.mul_le_mul_left n hg
    rw [Nat.mul_succ] at hle
    omega
  simp only [hrow]
  rw [flatMap_table m n fun k => f (k / n) (k % n), getD_table hlt, Nat.mul_add_div (by omega),
    Nat.div_eq_of_lt hi, Nat.add_zero, Nat.mul_add_mod, Nat.mod_eq_of_lt hi]

theorem length_rows (m n : ℕ) (f : ℕ → ℕ → α) :
    ((List.range m).flatMap fun g => table n (f g)).length = n * m := by
  induction m with
  | zero => rfl
  | succ m ih =>
    rw [List.range_succ, List.flatMap_append, List.length_append, ih, List.flatMap_singleton,
      length_table, Nat.mul_succ]

end Frink.Table
