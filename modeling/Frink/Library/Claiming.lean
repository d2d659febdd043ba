import Mathlib

/-! # Claiming work off a shared cursor

Participants take indices off one cursor until it has passed a bound, and call each. A call that
fails makes everybody stop, and the first failure recorded is kept. Each index below the bound is
called at most once, and exactly once when nothing failed.
-/

namespace Frink.Claiming

/-- One value of a sum is replaced. -/
theorem sum_update {ι α : Type} [Fintype ι] [DecidableEq ι] (f : α → ℕ) (g : ι → α) (x : ι)
    (v : α) : (∑ y, f (Function.update g x v y)) + f (g x) = (∑ y, f (g y)) + f v := by
  have hupdate : (fun y => f (Function.update g x v y)) = Function.update (f ∘ g) x (f v) :=
    Function.comp_update f g x v
  have hold : ∑ y, f (g y) = f (g x) + ∑ y ∈ Finset.univ \ {x}, f (g y) :=
    Finset.sum_eq_add_sum_sdiff_singleton_of_mem (Finset.mem_univ x) _
  rw [hupdate, Finset.sum_update_of_mem (Finset.mem_univ x), hold]
  simp only [Function.comp_apply]
  omega

/-- Where a participant stands in its loop. -/
inductive Place (ε : Type) where
  | absent
  | check
  | claim
  | running (task : ℕ)
  | failed (e : ε)
  | recording (e : ε)
  | out

structure Region (ι ε : Type) where

  next : ℕ

  aborted : Bool

  panic : Option ε

  /-- The calls begun so far. -/
  calls : List ℕ

  /-- What calls have failed with. -/
  raised : List ε

  place : ι → Place ε

namespace Region

variable {ι ε : Type} [DecidableEq ι] {r : Region ι ε} {n : ℕ} {x y : ι} {outcome : Option ε}
  {p : Place ε} {e : ε}

section Steps

variable (r : Region ι ε) (x : ι)

def move (p : Place ε) : Region ι ε := { r with place := Function.update r.place x p }

/-- One step of the loop of `x`; `outcome` is how the call it is in ends. -/
def drain (n : ℕ) (outcome : Option ε) : Region ι ε :=
  match r.place x with
  | .check => r.move x (if r.aborted then .out else .claim)
  | .claim =>
      if r.next < n then
        { r with next := r.next + 1, calls := r.calls ++ [r.next] }.move x (.running r.next)
      else { r with next := r.next + 1 }.move x .out
  | .running _ =>
      match outcome with
      | none => r.move x .check
      | some e => { r with raised := e :: r.raised }.move x (.failed e)
  | .failed e => { r with aborted := true }.move x (.recording e)
  | .recording e => { r with panic := r.panic.or (some e) }.move x .out
  | .absent | .out => r

end Steps

/-- What holds of a region at every moment, for the bound `n`. -/
structure Sound (n : ℕ) (r : Region ι ε) : Prop where

  calls : r.calls = List.range (min r.next n)

  /-- Whoever has left, left for a reason. -/
  left : ∀ x, r.place x = .out → r.aborted = true ∨ n ≤ r.next

  panic : ∀ e ∈ r.panic, e ∈ r.raised

  pending : ∀ x e, r.place x = .failed e ∨ r.place x = .recording e → e ∈ r.raised

  stopped : ∀ x e, r.place x = .recording e → r.aborted = true

  /-- A failure is recorded, or is about to be. -/
  raised : r.raised ≠ [] → r.panic.isSome = true ∨
    ∃ x e, r.place x = .failed e ∨ r.place x = .recording e

  aborted : r.aborted = true → r.raised ≠ []

@[simp] theorem move_place_self (p : Place ε) : (r.move x p).place x = p := Function.update_self ..

theorem move_place_ne (h : y ≠ x) (p : Place ε) : (r.move x p).place y = r.place y :=
  Function.update_of_ne h ..

/-- A step of one participant moves no other. -/
theorem drain_place_ne (h : y ≠ x) : (r.drain x n outcome).place y = r.place y := by
  unfold drain
  split
  case h_2 => split <;> exact move_place_ne h _
  case h_3 => split <;> exact move_place_ne h _
  all_goals first | rfl | exact move_place_ne h _

/-- Whoever takes part stays in the region. -/
theorem drain_place_ne_absent (h : r.place x ≠ .absent) :
    (r.drain x n outcome).place x ≠ .absent := by
  unfold drain
  split
  case h_6 => exact h
  case h_7 => exact h
  case h_1 => split <;> simp
  case h_2 => split <;> simp
  case h_3 => split <;> simp
  all_goals simp

namespace Sound

/-- The participant `x` goes on, and has no failure to account for. -/
theorem move (h : Sound n r) (hx : ∀ e, r.place x ≠ .failed e ∧ r.place x ≠ .recording e)
    (hout : p = .out → r.aborted = true ∨ n ≤ r.next)
    (hp : ∀ e, p ≠ .failed e ∧ p ≠ .recording e) : Sound n (r.move x p) where
  calls := h.calls
  left := by
    intro y hy
    by_cases hyx : y = x
    · subst hyx
      exact hout ((move_place_self p).symm.trans hy)
    · exact h.left y ((move_place_ne hyx p).symm.trans hy)
  panic := h.panic
  pending := by
    intro y e hy
    by_cases hyx : y = x
    · subst hyx
      rw [move_place_self] at hy
      exact (hy.elim (hp e).1 (hp e).2).elim
    · rw [move_place_ne hyx] at hy
      exact h.pending y e hy
  stopped := by
    intro y e hy
    by_cases hyx : y = x
    · subst hyx
      exact ((hp e).2 ((move_place_self p).symm.trans hy)).elim
    · exact h.stopped y e ((move_place_ne hyx p).symm.trans hy)
  raised := by
    intro hne
    refine (h.raised hne).imp_right ?_
    rintro ⟨y, e, hy⟩
    have hyx : y ≠ x := by
      rintro rfl
      exact hy.elim (hx e).1 (hx e).2
    exact ⟨y, e, by rwa [move_place_ne hyx]⟩
  aborted := h.aborted

omit [DecidableEq ι] in
theorem advance (h : Sound n r) :
    Sound n (if r.next < n then { r with next := r.next + 1, calls := r.calls ++ [r.next] }
      else { r with next := r.next + 1 }) := by
  have hleft : ∀ x, r.place x = .out → r.aborted = true ∨ n ≤ r.next + 1 :=
    fun x hx => (h.left x hx).imp_right fun hle => hle.trans (Nat.le_succ _)
  split
  · rename_i hlt
    refine ⟨?_, hleft, h.panic, h.pending, h.stopped, h.raised, h.aborted⟩
    have hmin : min (r.next + 1) n = min r.next n + 1 := by omega
    have hnext : min r.next n = r.next := by omega
    rw [hmin, List.range_succ, ← h.calls, hnext]
  · refine ⟨?_, hleft, h.panic, h.pending, h.stopped, h.raised, h.aborted⟩
    have hmin : min (r.next + 1) n = min r.next n := by omega
    rw [hmin]
    exact h.calls

/-- The call `x` is in fails. -/
theorem raise (h : Sound n r) :
    Sound n ({ r with raised := e :: r.raised }.move x (.failed e)) where
  calls := h.calls
  left := by
    intro y hy
    by_cases hyx : y = x
    · subst hyx
      simp at hy
    · exact h.left y ((move_place_ne hyx _).symm.trans hy)
  panic := fun e' he => List.mem_cons_of_mem _ (h.panic e' he)
  pending := by
    intro y e' hy
    by_cases hyx : y = x
    · subst hyx
      obtain rfl : e = e' := by simpa using hy
      exact List.mem_cons_self
    · rw [move_place_ne hyx] at hy
      exact List.mem_cons_of_mem _ (h.pending y e' hy)
  stopped := by
    intro y e' hy
    by_cases hyx : y = x
    · subst hyx
      simp at hy
    · exact h.stopped y e' ((move_place_ne hyx _).symm.trans hy)
  raised := fun _ => .inr ⟨x, e, .inl (move_place_self _)⟩
  aborted := fun _ => List.cons_ne_nil _ _

theorem abort (h : Sound n r) (hx : r.place x = .failed e) :
    Sound n ({ r with aborted := true }.move x (.recording e)) where
  calls := h.calls
  left := fun _ _ => .inl rfl
  panic := h.panic
  pending := by
    intro y e' hy
    by_cases hyx : y = x
    · subst hyx
      obtain rfl : e = e' := by simpa using hy
      exact h.pending y e (.inl hx)
    · rw [move_place_ne hyx] at hy
      exact h.pending y e' hy
  stopped := fun _ _ _ => rfl
  raised := fun _ => .inr ⟨x, e, .inr (move_place_self _)⟩
  aborted := fun _ => List.ne_nil_of_mem (h.pending x e (.inl hx))

theorem record (h : Sound n r) (hx : r.place x = .recording e) :
    Sound n ({ r with panic := r.panic.or (some e) }.move x .out) where
  calls := h.calls
  left := fun _ _ => .inl (h.stopped x e hx)
  panic := by
    intro e' he
    change e' ∈ r.panic.or (some e) at he
    cases hp : r.panic with
    | none =>
      rw [hp, Option.none_or] at he
      obtain rfl := Option.mem_some.mp he
      exact h.pending x e (.inr hx)
    | some e'' =>
      rw [hp, Option.some_or] at he
      exact h.panic e' (hp ▸ he)
  pending := by
    intro y e' hy
    by_cases hyx : y = x
    · subst hyx
      simp at hy
    · rw [move_place_ne hyx] at hy
      exact h.pending y e' hy
  stopped := fun _ _ _ => h.stopped x e hx
  raised := by
    intro _
    left
    change (r.panic.or (some e)).isSome = true
    cases r.panic <;> rfl
  aborted := h.aborted

theorem drain (h : Sound n r) : Sound n (r.drain x n outcome) := by
  have hadvance := h.advance
  unfold Region.drain
  split
  case h_1 hx =>
    apply h.move
    · simp [hx]
    · intro hp
      split at hp
      · rename_i ha
        exact .inl ha
      · cases hp
    · intro e
      split <;> simp
  case h_2 hx =>
    split
    · rename_i hlt
      rw [if_pos hlt] at hadvance
      apply hadvance.move <;> simp [hx]
    · rename_i hlt
      rw [if_neg hlt] at hadvance
      apply hadvance.move
      · simp [hx]
      · intro _
        right
        change n ≤ r.next + 1
        omega
      · simp
  case h_3 hx =>
    split
    · apply h.move <;> simp [hx]
    · exact h.raise
  case h_4 hx => exact h.abort hx
  case h_5 hx => exact h.record hx
  all_goals exact h

theorem enter (h : Sound n r) (hx : r.place x = .absent) : Sound n (r.move x .check) := by
  apply h.move <;> simp [hx]

omit [DecidableEq ι] in
/-- Before anybody takes part. -/
theorem fresh (hnext : r.next = 0) (haborted : r.aborted = false) (hpanic : r.panic = none)
    (hcalls : r.calls = []) (hraised : r.raised = []) (hplace : ∀ x, r.place x = .absent) :
    Sound n r := by
  constructor <;> simp [hnext, haborted, hpanic, hcalls, hraised, hplace]

omit [DecidableEq ι] in
theorem calls_prefix (h : Sound n r) : r.calls <+: List.range n := by
  rw [h.calls, ← List.take_range]
  exact List.take_prefix _ _

omit [DecidableEq ι] in
/-- Once everybody has left, a failure is recorded if and only if there was one. -/
theorem panic_iff (h : Sound n r) (hout : ∀ x, r.place x = .out) :
    r.panic = none ↔ r.raised = [] := by
  constructor
  · intro hpanic
    by_contra hne
    rcases h.raised hne with hp | ⟨x, e, hx⟩
    · simp [hpanic] at hp
    · simp [hout x] at hx
  · intro hraised
    cases hp : r.panic with
    | none => rfl
    | some e =>
      have hmem := h.panic e hp
      simp [hraised] at hmem

omit [DecidableEq ι] in
/-- Everybody has left, and no call failed: every index was called once. -/
theorem complete [Nonempty ι] (h : Sound n r) (hout : ∀ x, r.place x = .out)
    (hraised : r.raised = []) : r.calls = List.range n := by
  obtain ⟨x⟩ := ‹Nonempty ι›
  have hle : n ≤ r.next := (h.left x (hout x)).resolve_left fun ha => h.aborted ha hraised
  rw [h.calls, Nat.min_eq_right hle]

end Sound

end Region

end Frink.Claiming
