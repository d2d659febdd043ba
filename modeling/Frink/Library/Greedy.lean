import Mathlib

/-! # Greedy merging

Neighbours of a list that have a priority can be joined. The greedy procedure joins the pair of
the highest priority, the leftmost of several, until no pair is left that has one.
-/

namespace Frink.Greedy

variable {α K : Type} [LinearOrder K] (priority : α → α → Option K) (join : α → α → α)

/-- Neighbours that cannot be joined at `k` or above. -/
def Below (k : K) (x y : α) : Prop := ∀ k', priority x y = some k' → k' < k

/-- Neighbours that cannot be joined above `k`. -/
def AtMost (k : K) (x y : α) : Prop := ∀ k', priority x y = some k' → k' ≤ k

omit [LinearOrder K] in
/-- No two neighbours can be joined. -/
def Stuck (l : List α) : Prop := l.IsChain fun x y => priority x y = none

/-- The best neighbours are joined: to their left are worse ones, to their right no better ones. -/
inductive Step : List α → List α → Prop

  | join {front back : List α} {x y : α} {k : K} (h : priority x y = some k)
      (hleft : (front ++ [x]).IsChain (Below priority k))
      (hright : (y :: back).IsChain (AtMost priority k)) :
      Step (front ++ x :: y :: back) (front ++ join x y :: back)

/-- The highest priority of two neighbours, and where they are. -/
def best : List α → Option (K × ℕ)
  | x :: y :: l =>
      let later := (best (y :: l)).map fun b => (b.1, b.2 + 1)
      match priority x y, later with
      | none, later => later
      | some k, none => some (k, 0)
      | some k, some (k', i) => if k < k' then some (k', i) else some (k, 0)
  | _ => none

omit [LinearOrder K] in
/-- Joins the neighbours at `i`. -/
def joinAt : ℕ → List α → List α
  | 0, x :: y :: l => join x y :: l
  | i + 1, x :: l => x :: joinAt i l
  | _, l => l

/-- The procedure, `fuel` bounding the steps. -/
def mergeFor : ℕ → List α → List α
  | 0, l => l
  | fuel + 1, l =>
      match best priority l with
      | none => l
      | some b => mergeFor fuel (joinAt join b.2 l)

/-- A step makes the list shorter, so its length is enough. -/
def merge (l : List α) : List α := mergeFor priority join l.length l

variable {priority join} {l l' l'' : List α} {k : K} {i : ℕ}

theorem best_eq_none_iff : best priority l = none ↔ Stuck priority l := by
  induction l with
  | nil => simp [best, Stuck]
  | cons x l ih =>
    cases l with
    | nil => simp [best, Stuck]
    | cons y l =>
      rw [Stuck, List.isChain_cons_cons, best, ← Stuck, ← ih]
      cases hp : priority x y with
      | none => simp
      | some k =>
        cases hb : best priority (y :: l) with
        | none => simp
        | some b =>
          dsimp only [Option.map_some]
          split <;> simp

theorem Below.atMost {x y : α} (h : Below priority k x y) : AtMost priority k x y :=
  fun k' hk' => (h k' hk').le

/-- The best neighbours of a list bound all the others. -/
theorem atMost_of_best {front back : List α} {x y : α} (h : priority x y = some k)
    (hleft : (front ++ [x]).IsChain (Below priority k))
    (hright : (y :: back).IsChain (AtMost priority k)) :
    (front ++ x :: y :: back).IsChain (AtMost priority k) := by
  rw [List.isChain_split]
  refine ⟨hleft.imp fun _ _ hb => hb.atMost, List.isChain_cons_cons.mpr ⟨?_, hright⟩⟩
  intro k' hk'
  rw [h] at hk'
  cases hk'
  exact le_rfl

/-- The scan finds the best neighbours. -/
theorem best_spec (h : best priority l = some (k, i)) : ∃ front x y back,
    l = front ++ x :: y :: back ∧ front.length = i ∧ priority x y = some k ∧
      (front ++ [x]).IsChain (Below priority k) ∧ (y :: back).IsChain (AtMost priority k) := by
  induction l generalizing k i with
  | nil => cases h
  | cons x l ih =>
    cases l with
    | nil => cases h
    | cons y l =>
      rw [best] at h
      have hlater : ∀ k' i', best priority (y :: l) = some (k', i') →
          Below priority k' x y → ∃ front x' y' back, x :: y :: l = front ++ x' :: y' :: back ∧
            front.length = i' + 1 ∧ priority x' y' = some k' ∧
              (front ++ [x']).IsChain (Below priority k') ∧
                (y' :: back).IsChain (AtMost priority k') := by
        intro k' i' hb hx
        obtain ⟨front, x', y', back, hl, hlen, hp, hleft, hright⟩ := ih hb
        refine ⟨x :: front, x', y', back, by rw [hl]; rfl, by rw [List.length_cons, hlen], hp, ?_,
          hright⟩
        cases front with
        | nil =>
          cases hl
          simpa using hx
        | cons z front =>
          cases hl
          exact List.isChain_cons_cons.mpr ⟨hx, hleft⟩
      cases hp : priority x y with
      | none =>
        rw [hp] at h
        obtain ⟨⟨k', i'⟩, hb, heq⟩ := Option.map_eq_some_iff.mp h
        cases heq
        apply hlater _ i' hb
        intro k' hk'
        rw [hp] at hk'
        cases hk'
      | some k₀ =>
        rw [hp] at h
        cases hb : best priority (y :: l) with
        | none =>
          rw [hb] at h
          cases h
          have hstuck : Stuck priority (y :: l) := best_eq_none_iff.mp hb
          refine ⟨[], x, y, l, rfl, rfl, hp, List.isChain_singleton _, ?_⟩
          apply hstuck.imp
          intro a b hab k' hk'
          rw [hab] at hk'
          cases hk'
        | some b =>
          obtain ⟨k', i'⟩ := b
          rw [hb] at h
          dsimp only [Option.map_some] at h
          split at h
          · rename_i hlt
            cases h
            apply hlater _ i' hb
            intro k'' hk''
            rw [hp] at hk''
            cases hk''
            exact hlt
          · rename_i hge
            cases h
            obtain ⟨front, x', y', back, hl, -, hp', hleft, hright⟩ := ih hb
            have hle : k' ≤ k := not_lt.mp hge
            refine ⟨[], x, y, l, rfl, rfl, hp, List.isChain_singleton _, ?_⟩
            rw [hl]
            apply (atMost_of_best hp' hleft hright).imp
            intro a b hab k'' hk''
            exact (hab k'' hk'').trans hle

/-- There is one pair of best neighbours. -/
theorem best_eq {front back : List α} {x y : α} (h : priority x y = some k)
    (hleft : (front ++ [x]).IsChain (Below priority k))
    (hright : (y :: back).IsChain (AtMost priority k)) :
    best priority (front ++ x :: y :: back) = some (k, front.length) := by
  induction front with
  | nil =>
    rw [List.nil_append, best, h]
    cases hb : best priority (y :: back) with
    | none => rfl
    | some b =>
      obtain ⟨front', x', y', back', hl, -, hp, -, -⟩ := best_spec hb
      have hle : b.1 ≤ k := by
        rw [hl, List.isChain_append_cons_cons] at hright
        exact hright.2.1 b.1 hp
      exact if_neg (not_lt.mpr hle)
  | cons z front ih =>
    have hrest : (front ++ [x]).IsChain (Below priority k) := hleft.tail
    have hbest := ih hrest
    obtain ⟨w, l, hw⟩ : ∃ w l, front ++ x :: y :: back = w :: l := by
      cases front with
      | nil => exact ⟨x, y :: back, rfl⟩
      | cons w front => exact ⟨w, front ++ x :: y :: back, rfl⟩
    have hzw : Below priority k z w := by
      cases front with
      | nil =>
        cases hw
        exact (List.isChain_cons_cons.mp hleft).1
      | cons v front =>
        cases hw
        exact (List.isChain_cons_cons.mp hleft).1
    rw [List.cons_append, hw, best, ← hw, hbest]
    cases hp : priority z w with
    | none => rfl
    | some k' => exact if_pos (hzw k' hp)

theorem joinAt_append {front back : List α} {x y : α} :
    joinAt join front.length (front ++ x :: y :: back) = front ++ join x y :: back := by
  induction front with
  | nil => rfl
  | cons z front ih => exact congrArg (z :: ·) ih

theorem mergeFor_of_step {fuel : ℕ} (h : Step priority join l l') :
    mergeFor priority join (fuel + 1) l = mergeFor priority join fuel l' := by
  cases h with
  | join h hleft hright =>
    rw [mergeFor, best_eq h hleft hright]
    dsimp only
    rw [joinAt_append]

theorem Step.length (h : Step priority join l l') : l'.length + 1 = l.length := by
  cases h
  simp only [List.length_append, List.length_cons]
  omega

/-- A step is one of the procedure's. -/
theorem merge_of_step (h : Step priority join l l') :
    merge priority join l = merge priority join l' := by
  rw [merge, ← h.length, mergeFor_of_step h, merge]

theorem merge_of_stuck (h : Stuck priority l) : merge priority join l = l := by
  rw [merge]
  cases l.length with
  | zero => rfl
  | succ fuel => rw [mergeFor, best_eq_none_iff.mpr h]

theorem step_of_best (h : best priority l = some (k, i)) :
    Step priority join l (joinAt join i l) := by
  obtain ⟨front, x, y, back, rfl, rfl, hp, hleft, hright⟩ := best_spec h
  rw [joinAt_append]
  exact .join hp hleft hright

/-- What every step preserves holds of the result. -/
theorem merge_induction {P : List α → Prop} (h : ∀ l l', Step priority join l l' → P l → P l')
    (hl : P l) : P (merge priority join l) := by
  rw [merge]
  generalize l.length = fuel
  induction fuel generalizing l with
  | zero => exact hl
  | succ fuel ih =>
    rw [mergeFor]
    cases hb : best priority l with
    | none => exact hl
    | some b => exact ih (h _ _ (step_of_best hb) hl)

/-- What joining keeps, every element of the result has. -/
theorem merge_forall {P : α → Prop} (hjoin : ∀ x y k, priority x y = some k → P x → P y →
    P (join x y)) (h : ∀ x ∈ l, P x) : ∀ x ∈ merge priority join l, P x := by
  refine merge_induction (P := fun l => ∀ x ∈ l, P x) ?_ h
  rintro l l' hstep hl z hz
  cases hstep with
  | @join front back x y k hp _ _ =>
    rcases List.mem_append.mp hz with hz | hz
    · exact hl z (List.mem_append_left _ hz)
    · rcases List.mem_cons.mp hz with rfl | hz
      · exact hjoin x y k hp (hl x (by simp)) (hl y (by simp))
      · exact hl z (by simp [hz])

/-- Whoever takes the procedure's steps until nothing can be joined has its result. -/
theorem merge_eq (h : Relation.ReflTransGen (Step priority join) l l')
    (hstuck : Stuck priority l') : merge priority join l = l' := by
  induction h using Relation.ReflTransGen.head_induction_on with
  | refl => exact merge_of_stuck hstuck
  | head h _ ih => rw [merge_of_step h, ih]

section Append

variable {β : Type} {priority : List β → List β → Option K} {l : List (List β)}

/-- Where joining is appending, the whole stays the same. -/
theorem flatten_merge : (merge priority (· ++ ·) l).flatten = l.flatten := by
  refine merge_induction (P := fun l' => l'.flatten = l.flatten) ?_ rfl
  rintro l₁ l₂ hstep hl
  cases hstep with
  | join => simpa using hl

end Append

end Frink.Greedy
