import Mathlib

/-! # Overlaps of a list with its own suffixes

How far a list agrees with what a cut leaves of it. An agreement that is already known is a
box, and inside of a box the overlaps repeat those at the list's start.
-/

namespace Frink.Overlap

variable {α : Type} [DecidableEq α] {xs ys : List α} {m k lt rt : ℕ}

/-- The length of the longest common prefix. -/
def common : List α → List α → ℕ
  | a :: as, b :: bs => if a = b then common as bs + 1 else 0
  | _, _ => 0

theorem le_common_iff :
    m ≤ common xs ys ↔ m ≤ xs.length ∧ m ≤ ys.length ∧ ∀ j < m, xs[j]? = ys[j]? := by
  induction xs generalizing ys m with
  | nil =>
    simp only [common, Nat.le_zero, List.length_nil]
    constructor
    · rintro rfl
      simp
    · exact fun h => h.1
  | cons a as ih =>
    cases ys with
    | nil =>
      simp only [common, Nat.le_zero, List.length_nil]
      constructor
      · rintro rfl
        simp
      · exact fun h => h.2.1
    | cons b bs =>
      rw [common]
      cases m with
      | zero => simp
      | succ m =>
        split
        · rename_i hab
          subst hab
          rw [Nat.add_le_add_iff_right, ih]
          simp only [List.length_cons, Nat.add_le_add_iff_right]
          constructor
          · rintro ⟨hx, hy, h⟩
            refine ⟨hx, hy, fun j hj => ?_⟩
            cases j with
            | zero => simp
            | succ j => simpa using h j (by omega)
          · rintro ⟨hx, hy, h⟩
            refine ⟨hx, hy, fun j hj => ?_⟩
            simpa using h (j + 1) (by omega)
        · rename_i hab
          constructor
          · intro h
            omega
          · rintro ⟨_, _, h⟩
            have hhead := h 0 (by omega)
            simp only [List.getElem?_cons_zero, Option.some.injEq] at hhead
            exact absurd hhead hab

theorem take_common : xs.take (common xs ys) = ys.take (common xs ys) := by
  obtain ⟨_, _, hall⟩ := le_common_iff.mp (Nat.le_refl (common xs ys))
  ext j x
  rw [List.getElem?_take, List.getElem?_take]
  split
  · rename_i hj
    rw [hall j hj]
  · rfl

theorem length_takeWhile_zip :
    ((xs.zip ys).takeWhile fun p => p.1 == p.2).length = common xs ys := by
  induction xs generalizing ys with
  | nil => rfl
  | cons a as ih =>
    cases ys with
    | nil => rfl
    | cons b bs =>
      rw [List.zip_cons_cons, common]
      by_cases h : a = b
      · simp [h, ih]
      · simp [h]

/-- How far a list agrees with what is left of it after a cut. -/
def overlap (xs : List α) (k : ℕ) : ℕ := common xs (xs.drop k)

theorem le_overlap_iff (hk : k ≤ xs.length) :
    m ≤ overlap xs k ↔ m + k ≤ xs.length ∧ ∀ j < m, xs[j]? = xs[j + k]? := by
  unfold overlap
  rw [le_common_iff, List.length_drop]
  constructor
  · rintro ⟨_, hm, h⟩
    refine ⟨by omega, fun j hj => ?_⟩
    rw [h j hj, List.getElem?_drop, Nat.add_comm]
  · rintro ⟨hm, h⟩
    refine ⟨by omega, by omega, fun j hj => ?_⟩
    rw [h j hj, List.getElem?_drop, Nat.add_comm]

theorem overlap_eq (hk : k ≤ xs.length) (hm : m + k ≤ xs.length)
    (h : ∀ j < m, xs[j]? = xs[j + k]?) (hstop : m + k = xs.length ∨ xs[m]? ≠ xs[m + k]?) :
    overlap xs k = m := by
  have hle : m ≤ overlap xs k := (le_overlap_iff hk).mpr ⟨hm, h⟩
  have hnot : ¬m + 1 ≤ overlap xs k := by
    intro hlong
    obtain ⟨hlen, hall⟩ := (le_overlap_iff hk).mp hlong
    rcases hstop with hend | hne
    · omega
    · exact hne (hall m (by omega))
  omega

/-- What is between two positions repeats the list's start. -/
def Box (xs : List α) (lt rt : ℕ) : Prop :=
  rt < xs.length ∧ ∀ x, lt ≤ x → x ≤ rt → xs[x]? = xs[x - lt]?

omit [DecidableEq α] in
theorem Box.shift (h : Box xs lt rt) (hlt : lt ≤ k) {j : ℕ} (hj : j + k ≤ rt) :
    xs[j + k]? = xs[j + (k - lt)]? := by
  have hbox := h.2 (j + k) (by omega) hj
  rwa [show j + k - lt = j + (k - lt) by omega] at hbox

/-- An overlap that ends inside of the box is the one at the list's start. -/
theorem Box.copy (h : Box xs lt rt) (hlt : lt ≤ k) (hin : overlap xs (k - lt) + k ≤ rt) :
    overlap xs k = overlap xs (k - lt) := by
  have hrt := h.1
  have hstart : k - lt ≤ xs.length := by omega
  obtain ⟨_, hall⟩ := (le_overlap_iff hstart).mp (Nat.le_refl _)
  refine overlap_eq (by omega) (by omega) ?_ (.inr ?_)
  · intro j hj
    rw [h.shift hlt (by omega)]
    exact hall j hj
  · intro heq
    rw [h.shift hlt hin] at heq
    have hlong : overlap xs (k - lt) + 1 ≤ overlap xs (k - lt) := by
      refine (le_overlap_iff (by omega)).mpr ⟨by omega, fun j hj => ?_⟩
      rcases Nat.lt_succ_iff_lt_or_eq.mp hj with hj | rfl
      · exact hall j hj
      · exact heq
    omega

/-- An overlap that leaves the box covers what is left of it. -/
theorem Box.seed (h : Box xs lt rt) (hlt : lt ≤ k) (hk : k ≤ rt)
    (hout : rt < overlap xs (k - lt) + k) {j : ℕ} (hj : j + k ≤ rt) : xs[j]? = xs[j + k]? := by
  have hrt := h.1
  have hstart : k - lt ≤ xs.length := by omega
  obtain ⟨_, hall⟩ := (le_overlap_iff hstart).mp (Nat.le_refl _)
  rw [h.shift hlt hj]
  exact hall j (by omega)

end Frink.Overlap

/-! ## The longest stored prefix

Words are stored together with all their tails. The longest stored prefix of a text is then found
from that of its tail: it is the head before one of the stored prefixes of the latter.
-/

namespace Frink.LongestPrefix

variable {α : Type*} {S : List α → Prop} {text p q r : List α} {c : α}

/-- The longest stored word the text starts with: every other one is a prefix of it. -/
structure Longest (S : List α → Prop) (text p : List α) : Prop where

  stored : S p

  isPrefix : p <+: text

  longest : ∀ q, S q → q <+: text → q <+: p

theorem Longest.nil (h : S []) : Longest S [] [] :=
  ⟨h, List.prefix_refl _, fun _ _ hq => hq⟩

/-- A stored prefix of the longer text continues a stored prefix of the longest one. -/
theorem Longest.tail (hclosed : ∀ c r, S (c :: r) → S r) (h : Longest S text p) {d : α}
    (hq : S (d :: r)) (hstart : d :: r <+: c :: text) : d = c ∧ S r ∧ r <+: p := by
  obtain ⟨rfl, hr⟩ := List.cons_prefix_cons.mp hstart
  exact ⟨rfl, hclosed d r hq, h.longest r (hclosed d r hq) hr⟩

/-- The longest continuation is the longest stored prefix of the longer text. -/
theorem Longest.extend (hclosed : ∀ c r, S (c :: r) → S r) (h : Longest S text p)
    (hr : r <+: p) (hstored : S (c :: r))
    (hlongest : ∀ q, S q → q <+: p → S (c :: q) → q <+: r) : Longest S (c :: text) (c :: r) := by
  refine ⟨hstored, List.cons_prefix_cons.mpr ⟨rfl, hr.trans h.isPrefix⟩, ?_⟩
  rintro (_ | ⟨d, q⟩) hq hstart
  · exact List.nil_prefix
  · obtain ⟨rfl, hqS, hqp⟩ := h.tail hclosed hq hstart
    exact List.cons_prefix_cons.mpr ⟨rfl, hlongest q hqS hqp hq⟩

/-- Without a continuation no stored word but the empty one is a prefix of the longer text. -/
theorem Longest.restart (hclosed : ∀ c r, S (c :: r) → S r) (hnil : S []) (h : Longest S text p)
    (hnone : ∀ q, S q → q <+: p → ¬ S (c :: q)) : Longest S (c :: text) [] := by
  refine ⟨hnil, List.nil_prefix, ?_⟩
  rintro (_ | ⟨d, q⟩) hq hstart
  · exact List.nil_prefix
  · obtain ⟨rfl, hqS, hqp⟩ := h.tail hclosed hq hstart
    exact absurd hq (hnone q hqS hqp)

end Frink.LongestPrefix
