import Mathlib

/-! # Recency stamps

A clock that ticks on every use stamps what was used. However the uses lie in time, the stamps
order the marks as the times of their last uses do, so that the least stamp is on what was used
the longest ago.
-/

namespace Frink.Recency

/-- The stamps, given out up to `clock`, and the times of the uses they stand for. -/
structure Marked (clock now : ℕ) (stamps times : List ℕ) : Prop where

  nodup : stamps.Nodup

  le_clock : ∀ s ∈ stamps, s ≤ clock

  timed : ∃ timeOf : ℕ → ℕ, times = stamps.map timeOf ∧
    (∀ s t, s < t → t ≤ clock → timeOf s < timeOf t) ∧ ∀ s ≤ clock, timeOf s ≤ now

namespace Marked

variable {clock now : ℕ} {stamps times : List ℕ}

theorem nil : Marked 0 0 [] [] :=
  ⟨List.nodup_nil, nofun, fun _ => 0, rfl, by omega, fun _ _ => Nat.le_refl _⟩

/-- Time passes without a use. -/
theorem tick (h : Marked clock now stamps times) : Marked clock (now + 1) stamps times := by
  obtain ⟨timeOf, ht, hmono, hle⟩ := h.timed
  exact ⟨h.nodup, h.le_clock, timeOf, ht, hmono, fun s hs => Nat.le_succ_of_le (hle s hs)⟩

theorem clear (h : Marked clock now stamps times) : Marked clock now [] [] := by
  obtain ⟨timeOf, _, hmono, hle⟩ := h.timed
  exact ⟨List.nodup_nil, nofun, timeOf, rfl, hmono, hle⟩

theorem eraseIdx (h : Marked clock now stamps times) (j : ℕ) :
    Marked clock now (stamps.eraseIdx j) (times.eraseIdx j) := by
  obtain ⟨timeOf, rfl, hmono, hle⟩ := h.timed
  refine ⟨h.nodup.eraseIdx j, ?_, timeOf, (List.eraseIdx_map ..), hmono, hle⟩
  intro s hs
  exact h.le_clock s (List.mem_of_mem_eraseIdx hs)

/-- The clock's next tick stands for the next moment. -/
theorem next (h : Marked clock now stamps times) :
    ∃ timeOf : ℕ → ℕ, times = stamps.map timeOf ∧ timeOf (clock + 1) = now + 1 ∧
      (∀ s t, s < t → t ≤ clock + 1 → timeOf s < timeOf t) ∧
        ∀ s ≤ clock + 1, timeOf s ≤ now + 1 := by
  obtain ⟨timeOf, rfl, hmono, hle⟩ := h.timed
  have hold : ∀ s ≤ clock, Function.update timeOf (clock + 1) (now + 1) s = timeOf s := by
    intro s hs
    exact Function.update_of_ne (by omega) _ _
  have hnew : Function.update timeOf (clock + 1) (now + 1) (clock + 1) = now + 1 :=
    Function.update_self ..
  refine ⟨Function.update timeOf (clock + 1) (now + 1), ?_, hnew, ?_, ?_⟩
  · apply List.map_congr_left
    intro s hs
    exact (hold s (h.le_clock s hs)).symm
  · intro s t hst ht
    rcases Nat.le_succ_iff.mp ht with ht | rfl
    · rw [hold s (by omega), hold t ht]
      exact hmono s t hst ht
    · rw [hold s (by omega), hnew]
      exact Nat.lt_succ_of_le (hle s (by omega))
  · intro s hs
    rcases Nat.le_succ_iff.mp hs with hs | rfl
    · rw [hold s hs]
      exact Nat.le_succ_of_le (hle s hs)
    · exact hnew.le

theorem next_not_mem (h : Marked clock now stamps times) : clock + 1 ∉ stamps := by
  intro hmem
  have := h.le_clock _ hmem
  omega

/-- A new mark is used as it comes. -/
theorem push (h : Marked clock now stamps times) :
    Marked (clock + 1) (now + 1) (stamps ++ [clock + 1]) (times ++ [now + 1]) := by
  obtain ⟨timeOf, rfl, hnew, hmono, hle⟩ := h.next
  refine ⟨?_, ?_, timeOf, ?_, hmono, hle⟩
  · rw [List.nodup_append]
    refine ⟨h.nodup, List.nodup_singleton _, ?_⟩
    rintro s hs t ht rfl
    rw [List.mem_singleton] at ht
    exact h.next_not_mem (ht ▸ hs)
  · intro s hs
    rcases List.mem_append.mp hs with hs | hs
    · exact Nat.le_succ_of_le (h.le_clock s hs)
    · exact (List.mem_singleton.mp hs).le
  · rw [List.map_append, List.map_singleton, hnew]

theorem touch (h : Marked clock now stamps times) (i : ℕ) :
    Marked (clock + 1) (now + 1) (stamps.set i (clock + 1)) (times.set i (now + 1)) := by
  obtain ⟨timeOf, rfl, hnew, hmono, hle⟩ := h.next
  refine ⟨h.nodup.set h.next_not_mem, ?_, timeOf, ?_, hmono, hle⟩
  · intro s hs
    rcases List.mem_or_eq_of_mem_set hs with hs | rfl
    · exact Nat.le_succ_of_le (h.le_clock s hs)
    · exact Nat.le_refl _
  · rw [List.map_set, hnew]

/-- The mark of the least stamp was used before every other one. -/
theorem oldest (h : Marked clock now stamps times) {j s : ℕ} (hj : stamps[j]? = some s)
    (hleast : ∀ t ∈ stamps, s ≤ t) {i a b : ℕ} (hij : i ≠ j) (ha : times[j]? = some a)
    (hb : times[i]? = some b) : a < b := by
  obtain ⟨timeOf, rfl, hmono, _⟩ := h.timed
  rw [List.getElem?_map, hj] at ha
  rw [List.getElem?_map] at hb
  obtain ⟨t, ht, rfl⟩ := Option.map_eq_some_iff.mp hb
  obtain rfl := Option.some.inj ha
  have hmem : t ∈ stamps := List.mem_of_getElem? ht
  have hne : s ≠ t := by
    rintro rfl
    obtain ⟨hi, _⟩ := List.getElem?_eq_some_iff.mp ht
    exact hij ((List.getElem?_inj hi h.nodup).mp (ht.trans hj.symm))
  exact hmono s t (lt_of_le_of_ne (hleast t hmem) hne) (h.le_clock t hmem)

end Marked

end Frink.Recency
