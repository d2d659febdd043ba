import Mathlib
import Frink.Speculative.Accept

/-! # The law of the returned token

Over a uniform random source the drafted token that is kept, or what replaces it, has the
law of the target: a token is kept with the smaller of its two masses, and what the draft
lacks of the target is what the residual makes up for.
-/

namespace Frink.Speculative

open MeasureTheory Set

section Draws

variable {K : Type} [Field K] [LinearOrder K]

/-- The index a draw falls on. -/
def pick (probs : List K) (draw : K) : ℕ :=
  (Sampler.drawIndex draw 0 0 probs).getD (Sampler.lastPositive probs)

/-- The decision as a function of the two numbers the random source gives, the second of them
asked for on a rejection only. -/
def acceptOrResampleFrom (target : List K) (draft : DraftDist K) (token : ℕ) (coin draw : K) :
    Option ℕ :=
  let p := target[token]?.getD 0
  let q := draft.prob token
  if q ≤ 0 ∨ q ≤ p then none
  else if coin < p / q then none
  else
    let rest := residual target draft.support
    let total := rest.sum
    some (if total ≤ 0 then pick target draw else pick (rest.map (· / total)) draw)

/-- The token the caller goes on with. -/
def returned (target : List K) (draft : DraftDist K) (token : ℕ) (coin draw : K) : ℕ :=
  (acceptOrResampleFrom target draft token coin draw).getD token

end Draws

/-- A distribution over the ids of a vocabulary. -/
structure IsDistribution (probs : List ℝ) : Prop where
  nonneg : ∀ p ∈ probs, 0 ≤ p
  sum_eq_one : probs.sum = 1

/-- A draft names distinct ids of the vocabulary, with weights that sum to one. -/
structure DraftDist.IsDistribution (draft : DraftDist ℝ) (vocab : ℕ) : Prop where
  distinct : (draft.support.map Prod.fst).Nodup
  lt_vocab : ∀ e ∈ draft.support, e.1 < vocab
  nonneg : ∀ e ∈ draft.support, 0 ≤ e.2
  sum_eq_one : (draft.support.map Prod.snd).sum = 1

/-- A number drawn uniformly from the unit interval. -/
noncomputable def unitDraw : Measure ℝ := volume.restrict (Ico 0 1)

noncomputable def unitDraws : Measure (ℝ × ℝ) := unitDraw.prod unitDraw

/-- The probability that a token drawn from the draft ends as `t`. -/
noncomputable def law (target : List ℝ) (draft : DraftDist ℝ) (t : ℕ) : ℝ :=
  (draft.support.map fun e =>
    e.2 * unitDraws.real {draws | returned target draft e.1 draws.1 draws.2 = t}).sum

section Uniform

instance : IsProbabilityMeasure unitDraw := by
  constructor
  simp [unitDraw]

instance : IsProbabilityMeasure unitDraws := by
  unfold unitDraws
  infer_instance

variable {a b : ℝ}

theorem unitDraw_real (A : Set ℝ) : unitDraw.real A = volume.real (A ∩ Ico 0 1) := by
  unfold unitDraw
  rw [measureReal_restrict_apply' measurableSet_Ico]

theorem unitDraw_Iio (h0 : 0 ≤ a) (h1 : a ≤ 1) : unitDraw.real (Iio a) = a := by
  have hcut : Iio a ∩ Ico 0 1 = Ico 0 a := by
    ext x
    simp only [mem_inter_iff, mem_Iio, mem_Ico]
    constructor
    · rintro ⟨hx, h, _⟩
      exact ⟨h, hx⟩
    · rintro ⟨h, hx⟩
      exact ⟨hx, h, hx.trans_le h1⟩
  rw [unitDraw_real, hcut, Real.volume_real_Ico_of_le h0, sub_zero]

theorem unitDraw_Ici (h0 : 0 ≤ a) (h1 : a ≤ 1) : unitDraw.real (Ici a) = 1 - a := by
  rw [← compl_Iio, probReal_compl_eq_one_sub measurableSet_Iio, unitDraw_Iio h0 h1]

/-- The draws that fall on an interval. -/
theorem unitDraw_interval {A : Set ℝ} (hab : a ≤ b) (h : A ∩ Ico 0 1 = Ico a b) :
    unitDraw.real A = b - a := by
  rw [unitDraw_real, h, Real.volume_real_Ico_of_le hab]

end Uniform

section Pick

variable {probs : List ℝ} {draw acc : ℝ} {i j : ℕ}

/-- The mass before an index. -/
def massBefore (probs : List ℝ) (j : ℕ) : ℝ := (probs.take j).sum

theorem massBefore_succ (h : j < probs.length) :
    massBefore probs (j + 1) = massBefore probs j + probs[j] := by
  unfold massBefore
  rw [List.take_succ_eq_append_getElem h, List.sum_append, List.sum_singleton]

theorem massBefore_nonneg (hp : ∀ p ∈ probs, 0 ≤ p) (j : ℕ) : 0 ≤ massBefore probs j :=
  List.sum_nonneg fun p h => hp p (List.mem_of_mem_take h)

theorem massBefore_le_sum (hp : ∀ p ∈ probs, 0 ≤ p) (j : ℕ) : massBefore probs j ≤ probs.sum := by
  have hrest : 0 ≤ (probs.drop j).sum := List.sum_nonneg fun p h => hp p (List.mem_of_mem_drop h)
  have hsplit : (probs.take j).sum + (probs.drop j).sum = probs.sum := by
    rw [← List.sum_append, List.take_append_drop]
  unfold massBefore
  linarith

theorem le_of_drawIndex (h : Sampler.drawIndex draw i acc probs = some j) : i ≤ j := by
  induction probs generalizing i acc with
  | nil => simp [Sampler.drawIndex] at h
  | cons p probs ih =>
    rw [Sampler.drawIndex] at h
    split at h
    · simp only [Option.some.injEq] at h
      exact h.le
    · have := ih h
      omega

/-- A draw falls on the index whose interval of the cumulated mass holds it. -/
theorem drawIndex_eq_some_iff (hp : ∀ p ∈ probs, 0 ≤ p) (hacc : acc ≤ draw) :
    Sampler.drawIndex draw i acc probs = some (i + j) ↔
      j < probs.length ∧ acc + massBefore probs j ≤ draw ∧
        draw < acc + massBefore probs (j + 1) := by
  induction probs generalizing i j acc with
  | nil => simp [Sampler.drawIndex]
  | cons p probs ih =>
    have hrest : ∀ q ∈ probs, 0 ≤ q := fun q hq => hp q (by simp [hq])
    rw [Sampler.drawIndex]
    split
    · rename_i hlt
      cases j with
      | zero => simp [massBefore, hacc, hlt]
      | succ j =>
        have hnonneg := massBefore_nonneg hrest j
        simp only [massBefore, List.take_succ_cons, List.sum_cons] at hnonneg ⊢
        constructor
        · intro h
          simp at h
        · rintro ⟨_, h, _⟩
          linarith
    · rename_i hge
      cases j with
      | zero =>
        constructor
        · intro h
          have := le_of_drawIndex h
          omega
        · rintro ⟨_, _, h⟩
          simp only [massBefore, List.take_succ_cons, List.sum_cons, List.take_zero,
            List.sum_nil, add_zero] at h
          exact absurd h hge
      | succ j =>
        have hshift : i + (j + 1) = i + 1 + j := by omega
        rw [hshift, ih hrest (not_lt.mp hge)]
        simp [massBefore, add_assoc]

theorem drawIndex_eq_none (h : Sampler.drawIndex draw i acc probs = none) :
    probs = [] ∨ acc + probs.sum ≤ draw := by
  induction probs generalizing i acc with
  | nil => exact .inl rfl
  | cons p probs ih =>
    right
    rw [Sampler.drawIndex] at h
    split at h
    · cases h
    · rename_i hge
      rw [List.sum_cons, ← add_assoc]
      rcases ih h with rfl | hsum
      · simpa using hge
      · exact hsum

/-- The weight of an id; one outside of the vocabulary has none. -/
def mass (probs : List ℝ) (t : ℕ) : ℝ := probs[t]?.getD 0

theorem IsDistribution.pick_iff (h : IsDistribution probs) (h0 : 0 ≤ draw) (h1 : draw < 1) :
    pick probs draw = j ↔
      j < probs.length ∧ massBefore probs j ≤ draw ∧ draw < massBefore probs (j + 1) := by
  have hiff := drawIndex_eq_some_iff (i := 0) (j := j) h.nonneg h0
  simp only [zero_add] at hiff
  rw [← hiff]
  unfold pick
  cases hdraw : Sampler.drawIndex draw 0 0 probs with
  | some k => simp
  | none =>
    exfalso
    have hsum := h.sum_eq_one
    rcases drawIndex_eq_none hdraw with rfl | hle
    · simp at hsum
    · linarith

/-- A uniform draw picks an id with the id's weight. -/
theorem IsDistribution.pick_law (h : IsDistribution probs) (t : ℕ) :
    unitDraw.real {v | pick probs v = t} = mass probs t := by
  by_cases ht : t < probs.length
  · have hmass : mass probs t = massBefore probs (t + 1) - massBefore probs t := by
      rw [massBefore_succ ht]
      simp [mass, ht]
    have hpos : 0 ≤ probs[t] := h.nonneg _ (List.getElem_mem ht)
    have hle := massBefore_le_sum h.nonneg (t + 1)
    rw [h.sum_eq_one] at hle
    rw [hmass]
    apply unitDraw_interval
    · rw [massBefore_succ ht]
      linarith
    · ext v
      have hfrom := massBefore_nonneg h.nonneg t
      simp only [mem_inter_iff, mem_ofPred_eq, mem_Ico]
      constructor
      · rintro ⟨hv, h0, h1⟩
        exact ((h.pick_iff h0 h1).mp hv).2
      · rintro ⟨hl, hr⟩
        have h0 : 0 ≤ v := hfrom.trans hl
        have h1 : v < 1 := hr.trans_le hle
        exact ⟨(h.pick_iff h0 h1).mpr ⟨ht, hl, hr⟩, h0, h1⟩
  · have hnone : {v | pick probs v = t} ∩ Ico 0 1 = Ico 0 0 := by
      ext v
      simp only [mem_inter_iff, mem_ofPred_eq, mem_Ico, Ico_self, mem_empty_iff_false, iff_false]
      rintro ⟨hv, h0, h1⟩
      exact ht ((h.pick_iff h0 h1).mp hv).1
    rw [unitDraw_interval le_rfl hnone]
    simp [mass, ht]

end Pick

section Residual

variable {target probs : List ℝ} {support : List (ℕ × ℝ)} {draft : DraftDist ℝ} {g : ℕ → ℝ} {t : ℕ}

theorem sum_eq_mass : probs.sum = ∑ t ∈ Finset.range probs.length, mass probs t := by
  rw [Finset.sum_range, ← Fin.sum_univ_getElem]
  simp [mass]

@[simp] theorem mass_map_div (c : ℝ) : mass (probs.map (· / c)) t = mass probs t / c := by
  unfold mass
  rw [List.getElem?_map]
  cases probs[t]? <;> simp

theorem mass_nonneg (hp : ∀ p ∈ probs, 0 ≤ p) (t : ℕ) : 0 ≤ mass probs t := by
  unfold mass
  by_cases ht : t < probs.length
  · simpa [ht] using hp _ (List.getElem_mem ht)
  · simp [ht]

theorem mass_le_sum (hp : ∀ p ∈ probs, 0 ≤ p) (t : ℕ) : mass probs t ≤ probs.sum := by
  by_cases ht : t < probs.length
  · simpa [mass, ht] using List.single_le_sum hp _ (List.getElem_mem ht)
  · simpa [mass, ht] using List.sum_nonneg hp

theorem nonneg_of_mass (h : ∀ t, 0 ≤ mass probs t) : ∀ p ∈ probs, 0 ≤ p := by
  intro p hp
  obtain ⟨t, ht, rfl⟩ := List.getElem_of_mem hp
  simpa [mass, ht] using h t

@[simp] theorem length_residual : (residual target support).length = target.length := by
  unfold residual
  induction support generalizing target with
  | nil => rfl
  | cons p support ih => rw [List.foldl_cons, ih, List.length_modify]

theorem prob_cons (p : ℕ × ℝ) (t : ℕ) :
    DraftDist.prob ⟨p :: support⟩ t = if p.1 = t then p.2 else DraftDist.prob ⟨support⟩ t := by
  unfold DraftDist.prob
  rw [List.find?_cons]
  by_cases h : p.1 = t
  · simp [h]
  · have hne : (p.1 == t) = false := by simpa using h
    simp [h, hne]

theorem prob_eq_zero (h : t ∉ support.map Prod.fst) : DraftDist.prob ⟨support⟩ t = 0 := by
  induction support with
  | nil => rfl
  | cons p support ih =>
    simp only [List.map_cons, List.mem_cons, not_or] at h
    rw [prob_cons, if_neg (Ne.symm h.1), ih h.2]

theorem mass_modify (f : ℝ → ℝ) (i : ℕ) (hf : f 0 = 0) :
    mass (probs.modify i f) t = if i = t then f (mass probs t) else mass probs t := by
  unfold mass
  rw [List.getElem?_modify]
  by_cases h : i = t
  · subst h
    cases probs[i]? <;> simp [hf]
  · simp [h]

/-- What is left of an id's weight. -/
theorem mass_residual (hids : (support.map Prod.fst).Nodup) (hq : ∀ e ∈ support, 0 ≤ e.2)
    (hp : ∀ t, 0 ≤ mass target t) :
    mass (residual target support) t = max (mass target t - DraftDist.prob ⟨support⟩ t) 0 := by
  induction support generalizing target with
  | nil => simpa [residual, DraftDist.prob] using hp t
  | cons e support ih =>
    have he : 0 ≤ e.2 := hq e (by simp)
    have hcut : max (0 - e.2) 0 = 0 := by simpa using he
    have hmodify : ∀ t, mass (target.modify e.1 fun x => max (x - e.2) 0) t =
        if e.1 = t then max (mass target t - e.2) 0 else mass target t :=
      fun t => mass_modify _ _ hcut
    rw [List.map_cons, List.nodup_cons] at hids
    have hnext : ∀ t, 0 ≤ mass (target.modify e.1 fun x => max (x - e.2) 0) t := by
      intro t
      rw [hmodify]
      split
      · exact le_max_right _ _
      · exact hp t
    have hrest := ih hids.2 (fun e he => hq e (by simp [he])) hnext
    have hfold : residual target (e :: support) =
        residual (target.modify e.1 fun x => max (x - e.2) 0) support := rfl
    rw [hfold, hrest, hmodify, prob_cons]
    by_cases h : e.1 = t
    · subst h
      simp [prob_eq_zero hids.1]
    · simp [h]

/-- A sum over a draft's candidates is a sum over the vocabulary. -/
theorem sum_support {n : ℕ} (hids : (support.map Prod.fst).Nodup) (hlt : ∀ e ∈ support, e.1 < n) :
    (support.map fun e => e.2 * g e.1).sum =
      ∑ t ∈ Finset.range n, DraftDist.prob ⟨support⟩ t * g t := by
  induction support with
  | nil => simp [DraftDist.prob]
  | cons e support ih =>
    rw [List.map_cons, List.nodup_cons] at hids
    have he : e.1 ∈ Finset.range n := by
      simpa using hlt e (by simp)
    have hsplit : ∀ t, DraftDist.prob ⟨e :: support⟩ t * g t =
        (if e.1 = t then e.2 * g t else 0) + DraftDist.prob ⟨support⟩ t * g t := by
      intro t
      rw [prob_cons]
      by_cases h : e.1 = t
      · subst h
        simp [prob_eq_zero hids.1]
      · simp [h]
    rw [List.map_cons, List.sum_cons, ih hids.2 fun e he => hlt e (by simp [he])]
    simp only [hsplit, Finset.sum_add_distrib, Finset.sum_ite_eq, if_pos he]

end Residual

section Law

variable {target : List ℝ} {draft : DraftDist ℝ} {x t : ℕ}

/-- What an id's two weights have in common. -/
noncomputable def common (target : List ℝ) (draft : DraftDist ℝ) (t : ℕ) : ℝ :=
  min (mass target t) (draft.prob t)

theorem mass_residual_eq (hd : draft.IsDistribution target.length)
    (hp : ∀ p ∈ target, 0 ≤ p) (t : ℕ) :
    mass (residual target draft.support) t = mass target t - common target draft t := by
  rw [mass_residual hd.distinct hd.nonneg (mass_nonneg hp)]
  unfold common
  rcases le_total (mass target t) (draft.prob t) with h | h
  · rw [min_eq_left h, max_eq_right (by linarith), sub_self]
  · rw [min_eq_right h, max_eq_left (by linarith)]

theorem DraftDist.IsDistribution.sum_prob {n : ℕ} (hd : draft.IsDistribution n) :
    ∑ t ∈ Finset.range n, draft.prob t = 1 := by
  have hsum := sum_support (g := fun _ => 1) hd.distinct hd.lt_vocab
  simp only [mul_one] at hsum
  rw [← hsum]
  exact hd.sum_eq_one

/-- The residual's mass is what the two distributions do not have in common. -/
theorem sum_residual (ht : IsDistribution target) (hd : draft.IsDistribution target.length) :
    (residual target draft.support).sum =
      1 - ∑ t ∈ Finset.range target.length, common target draft t := by
  rw [sum_eq_mass, length_residual, ← ht.sum_eq_one, sum_eq_mass, ← Finset.sum_sub_distrib]
  apply Finset.sum_congr rfl
  intro t _
  exact mass_residual_eq hd ht.nonneg t

theorem residual_nonneg (ht : IsDistribution target) (hd : draft.IsDistribution target.length) :
    ∀ p ∈ residual target draft.support, 0 ≤ p := by
  apply nonneg_of_mass
  intro t
  rw [mass_residual_eq hd ht.nonneg]
  exact sub_nonneg.mpr (min_le_left _ _)

/-- A token the target has less of leaves something to make up for. -/
theorem sum_residual_pos (ht : IsDistribution target) (hd : draft.IsDistribution target.length)
    (hx : mass target x < draft.prob x) : 0 < (residual target draft.support).sum := by
  have hmem : x ∈ Finset.range target.length := by
    by_contra hout
    have hnone : draft.prob x = 0 := by
      apply prob_eq_zero
      intro hid
      obtain ⟨e, he, rfl⟩ := List.mem_map.mp hid
      exact hout (Finset.mem_range.mpr (hd.lt_vocab e he))
    have := mass_nonneg ht.nonneg x
    linarith
  have hlt : ∑ t ∈ Finset.range target.length, common target draft t <
      ∑ t ∈ Finset.range target.length, draft.prob t := by
    apply Finset.sum_lt_sum
    · intro t _
      exact min_le_right _ _
    · exact ⟨x, hmem, (min_le_left _ _).trans_lt hx⟩
  rw [hd.sum_prob] at hlt
  rw [sum_residual ht hd]
  linarith

theorem residual_isDistribution (ht : IsDistribution target)
    (hd : draft.IsDistribution target.length)
    (hpos : 0 < (residual target draft.support).sum) :
    IsDistribution
      ((residual target draft.support).map (· / (residual target draft.support).sum)) where
  nonneg := by
    intro p hp
    obtain ⟨r, hr, rfl⟩ := List.mem_map.mp hp
    exact div_nonneg (residual_nonneg ht hd r hr) hpos.le
  sum_eq_one := by
    have hdiv : ∀ (l : List ℝ) (c : ℝ), (l.map (· / c)).sum = l.sum / c := by
      intro l c
      simp only [div_eq_mul_inv, List.sum_map_mul_right, List.map_id']
    rw [hdiv, div_self hpos.ne']

theorem returned_of_le (h : draft.prob x ≤ mass target x) (coin draw : ℝ) : returned target draft x coin draw = x := by
  unfold returned acceptOrResampleFrom
  dsimp only
  rw [if_pos (.inr h)]
  rfl

theorem returned_of_lt (hp : ∀ p ∈ target, 0 ≤ p) (h : mass target x < draft.prob x)
    (hpos : 0 < (residual target draft.support).sum) (coin draw : ℝ) :
    returned target draft x coin draw =
      if coin < mass target x / draft.prob x then x
      else pick ((residual target draft.support).map (· / (residual target draft.support).sum))
        draw := by
  have hq : 0 < draft.prob x := (mass_nonneg hp x).trans_lt h
  unfold mass at h ⊢
  have hrejects : ¬(draft.prob x ≤ 0 ∨ draft.prob x ≤ target[x]?.getD 0) := by
    simp only [not_or, not_le]
    exact ⟨hq, h⟩
  unfold returned acceptOrResampleFrom
  dsimp only
  rw [if_neg hrejects, if_neg (not_le.mpr hpos)]
  split <;> rfl

/-- What becomes of one drafted token: it is kept for the mass it has in common, and the rest of
its weight goes where the residual does. -/
theorem returned_law (ht : IsDistribution target) (hd : draft.IsDistribution target.length)
    (x t : ℕ) :
    draft.prob x * unitDraws.real {draws | returned target draft x draws.1 draws.2 = t} =
      (if x = t then common target draft x else 0) +
        (draft.prob x - common target draft x) *
          (mass (residual target draft.support) t / (residual target draft.support).sum) := by
  rcases le_or_gt (draft.prob x) (mass target x) with hle | hlt
  · have hcommon : common target draft x = draft.prob x := min_eq_right hle
    simp only [returned_of_le hle, hcommon, sub_self, zero_mul, add_zero]
    by_cases h : x = t
    · have huniv : unitDraws.real {_draws : ℝ × ℝ | x = t} = 1 := by
        simp [h]
      rw [huniv, if_pos h, mul_one]
    · simp [h]
  · have hp := mass_nonneg ht.nonneg x
    have hq : 0 < draft.prob x := hp.trans_lt hlt
    have hcommon : common target draft x = mass target x := min_eq_left hlt.le
    have hpos := sum_residual_pos ht hd hlt
    let a := mass target x / draft.prob x
    let rest := (residual target draft.support).map (· / (residual target draft.support).sum)
    have ha0 : 0 ≤ a := div_nonneg hp hq.le
    have ha1 : a ≤ 1 := (div_le_one hq).mpr hlt.le
    have hcut : {draws : ℝ × ℝ | returned target draft x draws.1 draws.2 = t} =
        Iio a ×ˢ {_v : ℝ | x = t} ∪ Ici a ×ˢ {v | pick rest v = t} := by
      ext draws
      simp only [returned_of_lt ht.nonneg hlt hpos, mem_union, mem_prod, mem_ofPred_eq, mem_Iio,
        mem_Ici]
      by_cases hcoin : draws.1 < a
      · rw [if_pos hcoin]
        simp [hcoin, not_le.mpr hcoin]
      · rw [if_neg hcoin]
        simp [hcoin, not_lt.mp hcoin, rest]
    have hdisjoint : Disjoint (Iio a ×ˢ {_v : ℝ | x = t}) (Ici a ×ˢ {v | pick rest v = t}) := by
      apply Disjoint.set_prod_left
      exact Iio_disjoint_Ici le_rfl
    have hkept : unitDraw.real {_v : ℝ | x = t} = if x = t then 1 else 0 := by
      by_cases h : x = t <;> simp [h]
    rw [hcut, measureReal_union' hdisjoint (measurableSet_Iio.prod (MeasurableSet.const _))]
    unfold unitDraws
    rw [measureReal_prod_prod, measureReal_prod_prod, unitDraw_Iio ha0 ha1, unitDraw_Ici ha0 ha1,
      (residual_isDistribution ht hd hpos).pick_law, mass_map_div, hkept, hcommon]
    have hback : draft.prob x * a = mass target x := mul_div_cancel₀ _ hq.ne'
    split
    · linear_combination (1 - mass (residual target draft.support) t /
        (residual target draft.support).sum) * hback
    · linear_combination (-mass (residual target draft.support) t /
        (residual target draft.support).sum) * hback

/-- A drafted token, kept or replaced, has the law of the target. -/
theorem law_eq (ht : IsDistribution target) (hd : draft.IsDistribution target.length) (t : ℕ) :
    law target draft t = mass target t := by
  have hgather : law target draft t = ∑ x ∈ Finset.range target.length, draft.prob x *
      unitDraws.real {draws | returned target draft x draws.1 draws.2 = t} :=
    sum_support (g := fun x => unitDraws.real {draws | returned target draft x draws.1 draws.2 = t})
      hd.distinct hd.lt_vocab
  have hout : t ∉ Finset.range target.length → common target draft t = 0 := by
    intro h
    have hmass : mass target t = 0 := by
      simp only [Finset.mem_range, not_lt] at h
      simp [mass, h]
    have hprob : draft.prob t = 0 := by
      apply prob_eq_zero
      intro hid
      obtain ⟨e, he, rfl⟩ := List.mem_map.mp hid
      exact h (Finset.mem_range.mpr (hd.lt_vocab e he))
    rw [common, hmass, hprob, min_self]
  have hrest : (1 - ∑ x ∈ Finset.range target.length, common target draft x) *
      (mass (residual target draft.support) t / (residual target draft.support).sum) =
        mass (residual target draft.support) t := by
    rw [← sum_residual ht hd]
    by_cases hzero : (residual target draft.support).sum = 0
    · have hle := mass_le_sum (residual_nonneg ht hd) t
      have hge := mass_nonneg (residual_nonneg ht hd) t
      rw [hzero] at hle
      rw [hzero, zero_mul]
      linarith
    · exact mul_div_cancel₀ _ hzero
  have hkept : (∑ x ∈ Finset.range target.length, if x = t then common target draft x else 0) =
      common target draft t := by
    rw [Finset.sum_ite_eq']
    split
    · rfl
    · rename_i h
      exact (hout h).symm
  rw [hgather]
  simp only [returned_law ht hd]
  rw [Finset.sum_add_distrib, hkept, ← Finset.sum_mul, Finset.sum_sub_distrib, hd.sum_prob, hrest,
    mass_residual_eq hd ht.nonneg, add_sub_cancel]

/-- A draft that only ever proposes the rarer of two tokens. -/
theorem law_eq_pair : law [1 / 4, 3 / 4] ⟨[(0, 1)]⟩ 1 = 3 / 4 := by
  have htarget : IsDistribution [1 / 4, 3 / 4] := by
    constructor
    · intro p hp
      simp only [List.mem_cons, List.not_mem_nil, or_false] at hp
      rcases hp with rfl | rfl <;> norm_num
    · norm_num
  have hdraft : DraftDist.IsDistribution ⟨[(0, 1)]⟩ ([1 / 4, 3 / 4] : List ℝ).length := by
    constructor <;> simp
  have h := law_eq htarget hdraft 1
  simpa [mass] using h

end Law

end Frink.Speculative
