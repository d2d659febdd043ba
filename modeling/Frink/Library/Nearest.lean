import Mathlib

/-! # Nearest codes

Rounding to the nearest integer, ties to even, and clamping to a range gives the code of the
range that is nearest. The same code is the best one for any affine decoding.
-/

namespace Frink.Nearest

variable {K : Type*} [Field K] [LinearOrder K] [FloorRing K]

def roundHalfEven (x : K) : ℤ :=
  if Int.fract x < 1 / 2 then ⌊x⌋
  else if 1 / 2 < Int.fract x then ⌊x⌋ + 1
  else if ⌊x⌋ % 2 = 0 then ⌊x⌋ else ⌊x⌋ + 1

def clamp (lo hi n : ℤ) : ℤ := max lo (min n hi)

theorem clamp_mem {lo hi : ℤ} (h : lo ≤ hi) (n : ℤ) : lo ≤ clamp lo hi n ∧ clamp lo hi n ≤ hi := by
  unfold clamp
  omega

variable [IsStrictOrderedRing K] {x a b : K} {lo hi k : ℤ}

theorem abs_sub_roundHalfEven (x : K) : |x - roundHalfEven x| ≤ 1 / 2 := by
  have hsplit : x = ⌊x⌋ + Int.fract x := (Int.floor_add_fract x).symm
  have hnonneg := Int.fract_nonneg x
  have hlt := Int.fract_lt_one x
  have hdown : x - ⌊x⌋ = Int.fract x := rfl
  have hup : x - ((⌊x⌋ + 1 : ℤ) : K) = Int.fract x - 1 := by
    push_cast
    linarith
  unfold roundHalfEven
  rw [abs_le]
  split
  · rw [hdown]
    constructor <;> linarith
  · split
    · rw [hup]
      constructor <;> linarith
    · split
      · rw [hdown]
        constructor <;> linarith
      · rw [hup]
        constructor <;> linarith

/-- No integer is nearer than one within half a unit. -/
theorem abs_sub_le_of_half {n : ℤ} (h : |x - n| ≤ 1 / 2) (k : ℤ) : |x - n| ≤ |x - k| := by
  rcases eq_or_ne k n with rfl | hne
  · exact le_rfl
  · have hone : (1 : K) ≤ |(n : K) - k| := by
      rw [← Int.cast_sub, ← Int.cast_abs]
      exact_mod_cast Int.one_le_abs (sub_ne_zero.mpr hne.symm)
    have htri : |(n : K) - k| ≤ |x - n| + |x - k| := by
      have := abs_sub_le (n : K) x k
      rwa [abs_sub_comm (n : K) x] at this
    linarith

theorem clamp_nearest (hlo : lo ≤ k) (hhi : k ≤ hi) :
    |x - clamp lo hi (roundHalfEven x)| ≤ |x - k| := by
  have hhalf := abs_sub_roundHalfEven x
  obtain ⟨hbelow, habove⟩ := abs_le.mp hhalf
  have hlo' : (lo : K) ≤ k := Int.cast_le.mpr hlo
  have hhi' : (k : K) ≤ hi := Int.cast_le.mpr hhi
  rcases lt_or_ge (roundHalfEven x) lo with hlt | hge
  · have hclamp : clamp lo hi (roundHalfEven x) = lo := by
      unfold clamp
      omega
    have hstep : ((roundHalfEven x : ℤ) : K) + 1 ≤ lo := by exact_mod_cast hlt
    rw [hclamp, abs_of_nonpos (by linarith), abs_of_nonpos (by linarith)]
    linarith
  · rcases lt_or_ge hi (roundHalfEven x) with hgt | hle
    · have hclamp : clamp lo hi (roundHalfEven x) = hi := by
        unfold clamp
        omega
      have hstep : (hi : K) + 1 ≤ ((roundHalfEven x : ℤ) : K) := by exact_mod_cast hgt
      rw [hclamp, abs_of_nonneg (by linarith), abs_of_nonneg (by linarith)]
      linarith
    · have hclamp : clamp lo hi (roundHalfEven x) = roundHalfEven x := by
        unfold clamp
        omega
      rw [hclamp]
      exact abs_sub_le_of_half hhalf k

/-- The code that rounding finds decodes at least as near as any other of the range. -/
theorem affine_nearest (ha : a ≠ 0) (hlo : lo ≤ k) (hhi : k ≤ hi) :
    |x - (a * clamp lo hi (roundHalfEven ((x + b) / a)) - b)| ≤ |x - (a * k - b)| := by
  have hscale : ∀ c : K, |x - (a * c - b)| = |a| * |(x + b) / a - c| := by
    intro c
    rw [← abs_mul]
    congr 1
    field_simp
    ring
  rw [hscale, hscale]
  exact mul_le_mul_of_nonneg_left (clamp_nearest hlo hhi) (abs_nonneg a)

end Frink.Nearest
