import Mathlib
import Frink.Sampling.Ranked

/-! # What the filters leave of a ranking

A filter that keeps the maximum keeps a prefix of the ranking, so it narrows the sorted scores.
The ties survive exactly where no filter cuts between them.
-/

namespace Frink.Sampling

variable {K : Type} [Field K] [LinearOrder K] (fl : Elementary K)

/-- The mass of sorted scores in units of the first. -/
def mass (xs : List K) : K := (xs.map fun x => fl.exp (x - xs.headD 0)).sum

/-- The part of it that one score has. -/
def share (xs : List K) (x : K) : K := fl.exp (x - xs.headD 0) / mass fl xs

def sorted (scores : List K) : List K := (ranked scores).map Prod.snd

namespace SamplingParams

variable (params : SamplingParams K)

/-- What a step that does not move the argmax leaves of sorted scores. -/
def narrow (xs : List K) (step : ChainStep) : List K :=
  match step with
  | .topNSigma =>
      if params.topNSigma ≤ 0 then xs
      else
        xs.takeWhile fun x =>
          decide (xs.headD 0 - params.topNSigma * Candidates.deviation fl xs ≤ x)
  | .topK => if params.topK = 0 then xs else xs.take params.topK
  | .topP =>
      if 1 ≤ params.topP then xs
      else xs.take (keptUntil (fun cumSum => decide (params.topP ≤ cumSum)) 0 (xs.map (share fl xs)))
  | .minP =>
      if params.minP ≤ 0 then xs
      else
        xs.take (1 + (xs.tail.takeWhile fun x =>
          decide (xs.headD 0 + fl.ln params.minP ≤ x)).length)
  | _ => xs

/-- The scores that the steps before top-p leave. -/
def beforeTopP (scores : List K) : List K :=
  (params.samplerOrder.steps.takeWhile fun step => decide (step ≠ .topP)).foldl (params.narrow fl)
    (sorted scores)

/-- No filter of the chain cuts between scores that are tied for the largest. -/
structure TiesKept (scores : List K) : Prop where

  topK : .topK ∈ params.samplerOrder.steps → params.topK = 0 ∨ tied scores ≤ params.topK

  minP : .minP ∈ params.samplerOrder.steps → params.minP ≤ 1 ∨ tied scores ≤ 1

  topP : .topP ∈ params.samplerOrder.steps → 1 ≤ params.topP ∨ tied scores ≤ 1 ∨
    (tied scores - 1 : K) < params.topP * mass fl (params.beforeTopP fl scores)

end SamplingParams

section Until

variable {p cum q : K} {A B : List K} {m : ℕ} {passes : K → Bool}

omit [LinearOrder K] in
theorem keptUntil_pos (h : A ≠ []) : 1 ≤ keptUntil passes cum A := by
  cases A with
  | nil => exact absurd rfl h
  | cons a A =>
    rw [keptUntil]
    split <;> omega

omit [LinearOrder K] in
theorem min_keptUntil_append (passes : K → Bool) (cum : K) (A B : List K) :
    min (keptUntil passes cum (A ++ B)) A.length = keptUntil passes cum A := by
  induction A generalizing cum with
  | nil => simp [keptUntil]
  | cons a A ih =>
    rw [List.cons_append, keptUntil, keptUntil, List.length_cons]
    split
    · omega
    · rw [← ih]
      omega

/-- Equal leading summands are all kept where all but the last of them stay below the cutoff. -/
theorem le_keptUntil_replicate [IsStrictOrderedRing K] (hq : 0 ≤ q) :
    m + 1 ≤ keptUntil (fun c => decide (p ≤ c)) cum (List.replicate (m + 1) q ++ B) ↔
      m = 0 ∨ cum + m * q < p := by
  induction m generalizing cum with
  | zero => simp [keptUntil_pos]
  | succ m ih =>
    rw [List.replicate_succ, List.cons_append, keptUntil]
    have hsum : cum + q + m * q = cum + (m + 1 : ℕ) * q := by
      push_cast
      ring
    by_cases hpass : p ≤ cum + q
    · have hle : cum + q ≤ cum + (m + 1 : ℕ) * q := by
        rw [← hsum]
        exact le_add_of_nonneg_right (mul_nonneg m.cast_nonneg hq)
      simp only [hpass, decide_true, if_true]
      constructor
      · intro h
        omega
      · rintro (h | h)
        · omega
        · exact absurd (hpass.trans hle) (not_le.mpr h)
    · simp only [hpass, decide_false, Bool.false_eq_true, if_false, Nat.add_le_add_iff_right]
      rw [ih, hsum]
      constructor
      · rintro (rfl | h)
        · right
          simpa using not_le.mp hpass
        · exact .inr h
      · rintro (h | h)
        · omega
        · exact .inr h

end Until

section Leading

variable {fl} {scores xs : List K} {x : K}

theorem mass_pos [IsStrictOrderedRing K] (fl : Elementary K) (h : xs ≠ []) : 0 < mass fl xs := by
  apply List.sum_pos
  · simp only [List.mem_map]
    rintro _ ⟨x, _, rfl⟩
    exact fl.exp_pos _
  · simpa using h

omit [Field K] in
/-- A prefix of the sorted scores that holds all of the ties starts with them. -/
theorem exists_replicate (hx : Ranks scores x (ranked scores)) (h : xs <+: sorted scores)
    (hlen : tied scores ≤ xs.length) :
    1 ≤ tied scores ∧ ∃ rest, xs = List.replicate (tied scores) x ++ rest := by
  have hcount := length_leaders hx
  have hleaders : (leaders x (ranked scores)).map Prod.snd = List.replicate (tied scores) x := by
    rw [List.eq_replicate_iff, List.length_map, hcount]
    refine ⟨rfl, fun y hy => ?_⟩
    obtain ⟨e, he, rfl⟩ := List.mem_map.mp hy
    exact snd_of_mem_leaders he
  have hsorted : List.replicate (tied scores) x <+: sorted scores := by
    rw [← hleaders]
    exact (List.takeWhile_prefix _).map Prod.snd
  constructor
  · rw [← hcount]
    exact List.length_pos_iff.mpr (leaders_ne_nil hx.head)
  · have hle : (List.replicate (tied scores) x).length ≤ xs.length := by simpa using hlen
    obtain ⟨rest, hrest⟩ := List.prefix_of_prefix_length_le hsorted h hle
    exact ⟨rest, hrest.symm⟩

end Leading

namespace SamplingParams

variable {fl} {params : SamplingParams K} {scores xs : List K} {step : ChainStep}

/-- A step that leaves all of the ties of sorted scores. -/
def Spares (fl : Elementary K) (params : SamplingParams K) (scores xs : List K) :
    ChainStep → Prop
  | .topK => params.topK = 0 ∨ tied scores ≤ params.topK
  | .minP => params.minP ≤ 1 ∨ tied scores ≤ 1
  | .topP => 1 ≤ params.topP ∨ tied scores ≤ 1 ∨
      (tied scores - 1 : K) < params.topP * mass fl xs
  | _ => True

theorem narrow_isPrefix : params.narrow fl xs step <+: xs := by
  unfold narrow
  cases step <;> dsimp only
  case topNSigma => split; exacts [List.prefix_refl _, List.takeWhile_prefix _]
  case topK => split; exacts [List.prefix_refl _, List.take_prefix _ _]
  case topP => split; exacts [List.prefix_refl _, List.take_prefix _ _]
  case minP => split; exacts [List.prefix_refl _, List.take_prefix _ _]
  all_goals exact List.prefix_refl _

variable [IsStrictOrderedRing K]

theorem le_topP_iff {rest : List K} {x : K} {k : ℕ} (hon : ¬1 ≤ params.topP)
    (hmass : 0 < mass fl xs) (hxs : xs = List.replicate (k + 1) x ++ rest) :
    k + 1 ≤ (params.narrow fl xs .topP).length ↔ k = 0 ∨ k < params.topP * mass fl xs := by
  have hshare : share fl xs x = 1 / mass fl xs := by
    rw [share, hxs]
    simp [List.replicate_succ, fl.exp_zero]
  have hpos : 0 ≤ 1 / mass fl xs := (one_div_pos.mpr hmass).le
  have hlen : k + 1 ≤ xs.length := by
    rw [hxs]
    simp
  have hkept : k + 1 ≤ keptUntil (fun cumSum => decide (params.topP ≤ cumSum)) 0
      (List.replicate (k + 1) (1 / mass fl xs) ++ rest.map (share fl xs)) ↔
        k = 0 ∨ 0 + k * (1 / mass fl xs) < params.topP := le_keptUntil_replicate hpos
  have hmap : xs.map (share fl xs) =
      List.replicate (k + 1) (1 / mass fl xs) ++ rest.map (share fl xs) := by
    have hparts := congrArg (List.map (share fl xs)) hxs
    rwa [List.map_append, List.map_replicate, hshare] at hparts
  unfold narrow
  dsimp only
  rw [if_neg hon, List.length_take, hmap, le_min_iff, hkept, zero_add, mul_one_div,
    div_lt_iff₀ hmass]
  exact and_iff_left hlen

omit [IsStrictOrderedRing K] in
theorem le_minP_iff {rest : List K} {x : K} {k : ℕ} (hon : ¬params.minP ≤ 0)
    (hxs : xs = List.replicate (k + 1) x ++ rest) :
    k + 1 ≤ (params.narrow fl xs .minP).length ↔ k = 0 ∨ x + fl.ln params.minP ≤ x := by
  unfold narrow
  dsimp only
  rw [if_neg hon, hxs, List.replicate_succ, List.cons_append, List.tail_cons, List.headD_cons,
    List.length_take, List.length_cons, List.length_append, List.length_replicate]
  by_cases hle : x + fl.ln params.minP ≤ x
  · have hall : k ≤ ((List.replicate k x ++ rest).takeWhile
        fun y => decide (x + fl.ln params.minP ≤ y)).length := by
      rw [List.takeWhile_append_of_pos]
      · simp
      · intro y hy
        rw [List.eq_of_mem_replicate hy]
        simpa using hle
    simp only [hle, or_true, iff_true]
    omega
  · simp only [hle, or_false]
    cases k with
    | zero => simp
    | succ k =>
      rw [List.replicate_succ, List.cons_append, List.takeWhile_cons, if_neg (by simpa using hle)]
      simp

/-- A step leaves all of the ties exactly where it spares them. -/
theorem tied_le_narrow_iff {x : K} (hx : Ranks scores x (ranked scores))
    (h : xs <+: sorted scores) (hlen : tied scores ≤ xs.length) (hmass : 0 < mass fl xs) :
    tied scores ≤ (params.narrow fl xs step).length ↔ Spares fl params scores xs step := by
  obtain ⟨hpos, rest, hxs⟩ := exists_replicate hx h hlen
  obtain ⟨k, hk⟩ := Nat.exists_eq_add_of_le' hpos
  rw [hk] at hxs hlen
  unfold Spares
  cases step with
  | topNSigma =>
    rw [narrow]
    split
    · simp [hk, hlen]
    · rename_i hon
      have hreach : x - params.topNSigma * Candidates.deviation fl xs ≤ x :=
        sub_le_self _ (mul_nonneg (not_le.mp hon).le (Candidates.deviation_nonneg fl xs))
      have hhead : xs.headD 0 = x := by simp [hxs, List.replicate_succ]
      rw [hhead, iff_true, hk]
      generalize x - params.topNSigma * Candidates.deviation fl xs = threshold at hreach ⊢
      rw [hxs, List.takeWhile_append_of_pos]
      · simp
      · intro y hy
        rw [List.eq_of_mem_replicate hy]
        simpa using hreach
  | topK =>
    rw [narrow]
    split
    · rename_i hoff
      simp [hoff, hk, hlen]
    · rename_i hon
      simp only [hon, false_or, List.length_take, hk, le_min_iff, hlen, and_true]
  | topP =>
    by_cases hon : 1 ≤ params.topP
    · simp [narrow, hon, hk, hlen]
    · rw [hk, le_topP_iff hon hmass hxs]
      simp [hon]
  | minP =>
    by_cases hon : params.minP ≤ 0
    · have hle : params.minP ≤ 1 := hon.trans zero_le_one
      simp [narrow, hon, hk, hlen, hle]
    · rw [hk, le_minP_iff hon hxs, add_le_iff_nonpos_right, fl.ln_nonpos_iff _ (not_le.mp hon),
        or_comm]
      simp
  | penalties => simpa [narrow, hk] using hlen
  | dry => simpa [narrow, hk] using hlen
  | typP => simpa [narrow, hk] using hlen
  | xtc => simpa [narrow, hk] using hlen
  | temperature => simpa [narrow, hk] using hlen

omit [IsStrictOrderedRing K] in
theorem foldl_narrow_isPrefix (steps : List ChainStep) :
    steps.foldl (params.narrow fl) xs <+: xs := by
  induction steps generalizing xs with
  | nil => exact List.prefix_refl _
  | cons step steps ih => exact ih.trans narrow_isPrefix

/-- A chain leaves all of the ties exactly where every step spares them. -/
theorem tied_le_foldl_iff {x : K} (hx : Ranks scores x (ranked scores)) {steps : List ChainStep}
    (h : xs <+: sorted scores) (hlen : tied scores ≤ xs.length) :
    tied scores ≤ (steps.foldl (params.narrow fl) xs).length ↔
      ∀ before step after, steps = before ++ step :: after →
        Spares fl params scores (before.foldl (params.narrow fl) xs) step := by
  induction steps generalizing xs with
  | nil => simp [hlen]
  | cons step steps ih =>
    have hpos := (exists_replicate hx h hlen).1
    have hne : xs ≠ [] := List.length_pos_iff.mp (hpos.trans hlen)
    have hstep : tied scores ≤ (params.narrow fl xs step).length ↔
        Spares fl params scores xs step := tied_le_narrow_iff hx h hlen (mass_pos fl hne)
    rw [List.foldl_cons]
    constructor
    · intro hkept before step' after hsplit
      have hleft := hkept.trans (foldl_narrow_isPrefix steps).length_le
      cases before with
      | nil =>
        cases hsplit
        exact hstep.mp hleft
      | cons first before =>
        cases hsplit
        exact (ih (narrow_isPrefix.trans h) hleft).mp hkept before step' after rfl
    · intro hspares
      have hleft := hstep.mpr (hspares [] step steps rfl)
      apply (ih (narrow_isPrefix.trans h) hleft).mpr
      rintro before step' after rfl
      exact hspares (step :: before) step' after rfl

omit [IsStrictOrderedRing K] in
theorem beforeTopP_eq {before after : List ChainStep}
    (h : params.samplerOrder.steps = before ++ .topP :: after) :
    params.beforeTopP fl scores = before.foldl (params.narrow fl) (sorted scores) := by
  have hnodup := h ▸ params.samplerOrder.nodup
  unfold beforeTopP
  rw [h, List.takeWhile_append_of_pos]
  · simp
  · intro s hs
    rw [decide_eq_true_eq]
    rintro rfl
    exact (List.nodup_append.mp hnodup).2.2 _ hs _ List.mem_cons_self rfl

omit [IsStrictOrderedRing K] in
theorem tiesKept_iff :
    params.TiesKept fl scores ↔
      ∀ before step after, params.samplerOrder.steps = before ++ step :: after →
        Spares fl params scores (before.foldl (params.narrow fl) (sorted scores)) step := by
  constructor
  · intro h before step after hsplit
    have hmem : step ∈ params.samplerOrder.steps := by
      rw [hsplit]
      exact List.mem_append_right _ List.mem_cons_self
    cases step with
    | topK => exact h.topK hmem
    | minP => exact h.minP hmem
    | topP =>
      rw [← beforeTopP_eq hsplit]
      exact h.topP hmem
    | _ => trivial
  · intro h
    refine ⟨fun hmem => ?_, fun hmem => ?_, fun hmem => ?_⟩
    · obtain ⟨before, after, hsplit⟩ := List.append_of_mem hmem
      exact h before _ after hsplit
    · obtain ⟨before, after, hsplit⟩ := List.append_of_mem hmem
      exact h before _ after hsplit
    · obtain ⟨before, after, hsplit⟩ := List.append_of_mem hmem
      rw [beforeTopP_eq hsplit]
      exact h before _ after hsplit

end SamplingParams

end Frink.Sampling
