import Mathlib

/-! # Least solutions of systems of equations

A monotone system over a complete lattice has a least solution. Some of its unknowns may be given
instead of solved for, and a value an unknown cannot be below is its value once the equation of
that unknown alone allows it.
-/

namespace Frink.Equations

open OrderHom

variable {ι L : Type} [CompleteLattice L] {F : (ι → L) →o (ι → L)} {i : ι} {l : L}

/-- The system with the unknowns of `given` replaced by what is given for them. -/
def fix (F : (ι → L) →o (ι → L)) (given : ι → Option L) : (ι → L) →o (ι → L) where
  toFun x i := (given i).getD (F x i)
  monotone' := by
    intro x y hxy i
    cases hi : given i with
    | none => simpa [hi] using F.monotone hxy i
    | some l => simp [hi]

theorem lfp_eq (F : (ι → L) →o (ι → L)) (i : ι) : lfp F i = F (lfp F) i :=
  congrFun (map_lfp F).symm i

theorem lfp_given {given : ι → Option L} (h : given i = some l) : lfp (fix F given) i = l := by
  rw [lfp_eq]
  change (given i).getD _ = l
  rw [h, Option.getD_some]

theorem lfp_free {given : ι → Option L} (h : given i = none) :
    lfp (fix F given) i = F (lfp (fix F given)) i := by
  rw [lfp_eq]
  change (given i).getD _ = _
  rw [h, Option.getD_none]

/-- Unknowns that are given something large enough stay above the least solution. -/
theorem lfp_le_fix {given : ι → Option L}
    (h : ∀ i l, given i = some l → F (lfp (fix F given)) i ≤ l) : lfp F ≤ lfp (fix F given) := by
  apply lfp_le
  intro i
  cases hi : given i with
  | none => exact (lfp_free hi).ge
  | some l => exact (h i l hi).trans_eq (lfp_given hi).symm

/-- What holds of one unknown by its own equation, the others as they are. -/
theorem lfp_unique [DecidableEq ι] (hle : l ≤ lfp F i)
    (h : F (Function.update (lfp F) i l) i ≤ l) : lfp F i = l := by
  have hupdate : Function.update (lfp F) i l ≤ lfp F := by
    intro j
    by_cases hj : j = i
    · subst hj
      simpa using hle
    · simp [hj]
  have hpre : lfp F ≤ Function.update (lfp F) i l := by
    apply lfp_le
    intro j
    by_cases hj : j = i
    · subst hj
      simpa using h
    · calc F (Function.update (lfp F) i l) j ≤ F (lfp F) j := F.monotone hupdate j
        _ = lfp F j := (lfp_eq F j).symm
        _ = Function.update (lfp F) i l j := by simp [hj]
  apply le_antisymm _ hle
  simpa using hpre i

end Frink.Equations
