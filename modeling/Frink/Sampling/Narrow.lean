import Frink.Sampling.Ties

/-! # The candidate list follows the narrowed scores

Under a chain that keeps the argmax the live candidates are the head of the ranking, and masked
ones lie behind them. The distribution at the end has its largest mass on the last tie that is
still live.
-/

namespace Frink.Sampling

open Speculative.SamplingParams (argmax)

variable {K : Type} [Field K] [LinearOrder K] {fl : Elementary K} {scores xs : List K}
  {c : Candidates K}

/-- An entry with its score as a logit. -/
def lift (e : ℕ × K) : ℕ × WithBot K := (e.1, e.2)

/-- The scores `xs` are live, the candidates behind them are masked. -/
structure Stands (scores xs : List K) (c : Candidates K) : Prop where

  isPrefix : xs <+: sorted scores

  ne_nil : xs ≠ []

  entries : ∃ masked : List ℕ,
    c.entries = ((ranked scores).take xs.length).map lift ++ masked.map (·, ⊥)

  nodup : (c.entries.map Prod.fst).Nodup

namespace Stands

omit [Field K] in
theorem map_live (h : xs <+: sorted scores) :
    ((ranked scores).take xs.length).map Prod.snd = xs := by
  rw [List.map_take]
  exact (List.prefix_iff_eq_take.mp h).symm

omit [Field K] in
theorem logits_eq (h : Stands scores xs c) : ∃ masked : List ℕ,
    c.entries = ((ranked scores).take xs.length).map lift ++ masked.map (·, ⊥) ∧
      c.logits = xs.map (↑) ++ List.replicate masked.length ⊥ := by
  obtain ⟨masked, hentries⟩ := h.entries
  refine ⟨masked, hentries, ?_⟩
  rw [Candidates.logits, hentries, List.map_append, List.map_map, List.map_map]
  congr 1
  · conv_rhs => rw [← map_live h.isPrefix, List.map_map]
    rfl
  · simp [Function.comp_def]

omit [Field K] in
theorem head_eq (h : Stands scores xs c) : ∃ x rest, xs = x :: rest ∧
    xs.headD x = x := by
  cases xs with
  | nil => exact absurd rfl h.ne_nil
  | cons x rest => exact ⟨x, rest, rfl, rfl⟩

omit [Field K] in
theorem sorted_ge (h : xs <+: sorted scores) : xs.Pairwise (· ≥ ·) := by
  have hsorted : (sorted scores).Pairwise (· ≥ ·) :=
    List.pairwise_map.mpr ((ranked_sorted scores).imp Ahead.le)
  exact hsorted.sublist h.sublist

omit [Field K] in
/-- The first candidates stand for the first scores. -/
theorem truncate (h : Stands scores xs c) {k : ℕ} (hk : 1 ≤ k) :
    Stands scores (xs.take k) (c.truncate k) := by
  obtain ⟨masked, hentries⟩ := h.entries
  refine ⟨(List.take_prefix k xs).trans h.isPrefix, ?_, ⟨masked.take (k - xs.length), ?_⟩, ?_⟩
  · obtain ⟨x, rest, rfl, _⟩ := h.head_eq
    obtain ⟨k, rfl⟩ := Nat.exists_eq_add_of_le' hk
    simp
  · have hlen : ((ranked scores).take xs.length).length = xs.length := by
      conv_rhs => rw [← map_live h.isPrefix, List.length_map]
    rw [Candidates.truncate_entries, hentries, List.take_append, List.length_map, hlen, List.map_take,
      List.map_take, List.take_take, List.length_take]
    simp [List.map_take]
  · exact h.nodup.sublist ((List.take_sublist k _).map _)

variable [IsStrictOrderedRing K]

theorem share_strictMono (fl : Elementary K) (h : xs ≠ []) : StrictMono (share fl xs) := by
  intro a b hab
  exact div_lt_div_of_pos_right (fl.exp_strictMono (sub_lt_sub_right hab _)) (mass_pos fl h)

theorem share_pos (fl : Elementary K) (h : xs ≠ []) (x : K) : 0 < share fl xs x := div_pos (fl.exp_pos _) (mass_pos fl h)

/-- The softmax gives each live score its share and the masked candidates nothing. -/
theorem softmax_eq (fl : Elementary K) (h : Stands scores xs c) : ∃ masked : List ℕ,
    c.entries = ((ranked scores).take xs.length).map lift ++ masked.map (·, ⊥) ∧
      c.softmax fl = xs.map (share fl xs) ++ List.replicate masked.length 0 := by
  obtain ⟨masked, hentries, hlogits⟩ := h.logits_eq
  refine ⟨masked, hentries, ?_⟩
  generalize masked.length = r at hlogits ⊢
  have hmass := mass_pos fl h.ne_nil
  obtain ⟨x, rest, rfl, _⟩ := h.head_eq
  have hweights : ((x : WithBot K) :: (rest.map (↑) ++ List.replicate r ⊥)).map
      (Candidates.weight fl x) =
      (x :: rest).map (fun y => fl.exp (y - x)) ++ List.replicate r 0 := by
    simp [Candidates.weight, Function.comp_def]
  have hsum : ((x :: rest).map (fun y => fl.exp (y - x)) ++ List.replicate r 0).sum =
      mass fl (x :: rest) := by
    simp [mass]
  rw [List.map_cons, List.cons_append] at hlogits
  unfold Candidates.softmax
  rw [hlogits]
  change (if _ ≤ 0 then _ else _) = _
  rw [hweights, hsum, if_neg (not_le.mpr hmass)]
  simp [share, Function.comp_def]

omit [Field K] [IsStrictOrderedRing K] in
/-- In a sorted ranking a threshold masks what is behind the scores that reach it. -/
theorem map_maskBelow {ranking : List (ℕ × K)} (threshold : K) (hsorted : ranking.Pairwise Ahead) :
    ∃ masked : List ℕ,
      (ranking.map lift).map (fun e => (e.1, Candidates.maskBelow (threshold : WithBot K) e.2)) =
        (ranking.take ((ranking.map Prod.snd).takeWhile
          fun x => decide (threshold ≤ x)).length).map lift ++ masked.map (·, ⊥) := by
  induction ranking with
  | nil => exact ⟨[], rfl⟩
  | cons a ranking ih =>
    obtain ⟨ha, hrest⟩ := List.pairwise_cons.mp hsorted
    by_cases hle : threshold ≤ a.2
    · obtain ⟨masked, hmasked⟩ := ih hrest
      refine ⟨masked, ?_⟩
      simp only [List.map_cons, List.takeWhile_cons, hle, decide_true, if_true, List.length_cons,
        List.take_succ_cons, List.cons_append, hmasked]
      congr 1
      simp [lift, Candidates.maskBelow, hle]
    · have hlt : a.2 < threshold := not_le.mp hle
      refine ⟨(a :: ranking).map Prod.fst, ?_⟩
      rw [List.map_cons (f := Prod.snd), List.takeWhile_cons, if_neg (by simpa using hlt)]
      simp only [List.length_nil, List.take_zero, List.map_nil, List.nil_append, List.map_map]
      apply List.map_congr_left
      intro e he
      have hbelow : e.2 < threshold := by
        rcases List.mem_cons.mp he with rfl | he
        · exact hlt
        · exact (ha e he).le.trans_lt hlt
      simp [lift, Candidates.maskBelow, hbelow]

omit [Field K] [IsStrictOrderedRing K] in
theorem mask (h : Stands scores xs c) {threshold : K} (hhead : ∀ x rest, xs = x :: rest →
    threshold ≤ x) :
    Stands scores (xs.takeWhile fun x => decide (threshold ≤ x))
      (c.mapLogits (Candidates.maskBelow threshold) (Candidates.maskBelow_mono _)) := by
  obtain ⟨masked, hentries⟩ := h.entries
  have hlive := map_live h.isPrefix
  have hsorted : ((ranked scores).take xs.length).Pairwise Ahead :=
    (ranked_sorted scores).sublist (List.take_sublist _ _)
  obtain ⟨dead, hdead⟩ := map_maskBelow threshold hsorted
  have hlead := List.takeWhile_prefix (l := xs) fun x => decide (threshold ≤ x)
  refine ⟨hlead.trans h.isPrefix, ?_, ⟨dead ++ masked, ?_⟩, ?_⟩
  · obtain ⟨x, rest, rfl, _⟩ := h.head_eq
    simp [hhead x rest rfl]
  · rw [Candidates.mapLogits_entries, hentries, List.map_append, hdead, hlive, List.take_take,
      Nat.min_eq_left hlead.length_le, List.map_append, List.append_assoc]
    simp [Candidates.maskBelow]
  · rw [Candidates.mapLogits_entries, List.map_map]
    exact h.nodup

variable {params : SamplingParams K}

omit [Field K] [IsStrictOrderedRing K] in
theorem length_takeWhile_masked {threshold : K} {r : ℕ} (rest : List K) :
    ((rest.map WithBot.some ++ List.replicate r ⊥).takeWhile
      fun l => decide ((threshold : WithBot K) ≤ l)).length =
        (rest.takeWhile fun x => decide (threshold ≤ x)).length := by
  induction rest with
  | nil => cases r <;> simp [List.replicate_succ]
  | cons y rest ih =>
    rw [List.map_cons, List.cons_append, List.takeWhile_cons, List.takeWhile_cons]
    simp only [WithBot.coe_le_coe]
    split
    · rw [List.length_cons, List.length_cons, ih]
    · rfl

omit [Field K] [IsStrictOrderedRing K] in
theorem foldl_max {x : K} {ys : List K} (h : ∀ y ∈ ys, y ≤ x) :
    ys.foldl (fun (max : WithBot K) (y : K) => max ⊔ y) x = x := by
  induction ys with
  | nil => rfl
  | cons y ys ih =>
    have hy : (y : WithBot K) ≤ x := WithBot.coe_le_coe.mpr (h y (by simp))
    rw [List.foldl_cons, sup_eq_left.mpr hy]
    exact ih fun z hz => h z (by simp [hz])

theorem topNSigma (h : Stands scores xs c) :
    Stands scores (params.narrow fl xs .topNSigma) (c.topNSigma fl params.topNSigma) := by
  unfold SamplingParams.narrow Candidates.topNSigma
  by_cases hoff : params.topNSigma ≤ 0
  · simpa [hoff] using h
  have hreach : ∀ x rest, xs = x :: rest →
      xs.headD 0 - params.topNSigma * Candidates.deviation fl xs ≤ x := by
    rintro x rest rfl
    exact sub_le_self _ (mul_nonneg (not_le.mp hoff).le (Candidates.deviation_nonneg fl _))
  dsimp only
  rw [if_neg hoff]
  split
  · rename_i hshort
    have hlen : xs.length ≤ 1 := by
      obtain ⟨masked, _, hlogits⟩ := h.logits_eq
      have hcount := congrArg List.length hlogits
      simp only [Candidates.logits, List.length_map, List.length_append,
        List.length_replicate] at hcount
      have hle := hshort.resolve_left hoff
      unfold Candidates.len at hle
      omega
    obtain ⟨x, rest, rfl, _⟩ := h.head_eq
    obtain rfl : rest = [] := List.length_eq_zero_iff.mp (by simpa using hlen)
    rw [List.takeWhile_cons, if_pos (by simpa using hreach x [] rfl)]
    exact h
  · obtain ⟨masked, _, hlogits⟩ := h.logits_eq
    have hvalid : c.logits.filterMap Candidates.number = xs := by
      rw [hlogits, List.filterMap_append, List.filterMap_map]
      simp [Function.comp_def]
    have hmax : xs.foldl (fun (max : WithBot K) (l : K) => max ⊔ l) (c.logits.headD ⊥) =
        (xs.headD 0 : K) := by
      obtain ⟨x, rest, rfl, _⟩ := h.head_eq
      have hhead : c.logits.headD ⊥ = x := by simp [hlogits]
      rw [hhead]
      apply foldl_max
      intro y hy
      rcases List.mem_cons.mp hy with rfl | hy
      · exact le_rfl
      · exact (List.pairwise_cons.mp (sorted_ge h.isPrefix)).1 y hy
    have hmask := h.mask hreach
    rw [hvalid, hmax]
    exact hmask

omit [IsStrictOrderedRing K] in
theorem topK (h : Stands scores xs c) :
    Stands scores (params.narrow fl xs .topK) (c.topK params.topK) := by
  unfold SamplingParams.narrow Candidates.topK
  dsimp only
  by_cases hoff : params.topK = 0
  · simpa [hoff] using h
  · have htake : c.truncate (min params.topK c.len) = c.truncate params.topK := by
      ext1
      simp [Candidates.len, List.take_eq_take_iff]
    rw [if_neg hoff, if_neg hoff, htake]
    exact h.truncate (Nat.one_le_iff_ne_zero.mpr hoff)

theorem topP (h : Stands scores xs c) :
    Stands scores (params.narrow fl xs .topP) (c.topP fl params.topP) := by
  unfold SamplingParams.narrow Candidates.topP
  dsimp only
  split
  · exact h
  · obtain ⟨masked, _, hsoftmax⟩ := h.softmax_eq fl
    have hmin := min_keptUntil_append (fun cumSum => decide (params.topP ≤ cumSum)) 0
      (xs.map (share fl xs)) (List.replicate masked.length 0)
    rw [List.length_map] at hmin
    rw [hsoftmax, ← hmin, ← List.take_take, List.take_length]
    apply h.truncate
    apply keptUntil_pos
    simp [h.ne_nil]

omit [IsStrictOrderedRing K] in
theorem minP (h : Stands scores xs c) :
    Stands scores (params.narrow fl xs .minP) (c.minP fl params.minP) := by
  unfold SamplingParams.narrow Candidates.minP
  dsimp only
  split
  · exact h
  · obtain ⟨masked, _, hlogits⟩ := h.logits_eq
    have htruncate := fun k => h.truncate (k := 1 + k) (Nat.le_add_right 1 k)
    obtain ⟨x, rest, rfl, _⟩ := h.head_eq
    rw [List.map_cons, List.cons_append] at hlogits
    rw [hlogits]
    change Stands scores _ (c.truncate (1 + (List.takeWhile _ _).length))
    rw [WithBot.map_coe, length_takeWhile_masked]
    exact htruncate _

variable (checks : Bool) (history : PenaltyWindow) (roll : Option K) {step : ChainStep}

/-- A step that does not move the argmax narrows the scores, and never fails. -/
theorem runStep (h : Stands scores xs c) (htemp : params.temperature ≤ 0)
    (hstep : step = .penalties ∨ params.stepEffect step ≠ .movesTheArgmax) :
    ∃ c', params.runStep fl checks history roll c step = .ok c' ∧
      Stands scores (params.narrow fl xs step) c' := by
  unfold SamplingParams.stepEffect at hstep
  unfold SamplingParams.runStep
  cases step with
  | penalties => exact ⟨c, rfl, h⟩
  | dry =>
    have hoff : params.dry.isEnabled = false := by simpa using hstep
    refine ⟨c.dry [], ?_, ?_⟩
    · dsimp only
      rw [DryParams.penalties, hoff]
      rfl
    · simpa [Candidates.dry, SamplingParams.narrow] using h
  | topNSigma => exact ⟨_, rfl, h.topNSigma⟩
  | topK => exact ⟨_, rfl, h.topK⟩
  | typP =>
    have hoff : 1 ≤ params.typicalP := by simpa using hstep
    refine ⟨_, rfl, ?_⟩
    simpa [Candidates.typicalP, hoff, SamplingParams.narrow] using h
  | topP => exact ⟨_, rfl, h.topP⟩
  | minP => exact ⟨_, rfl, h.minP⟩
  | xtc =>
    have hoff : params.xtcCanFire = false := by simpa using hstep
    cases roll with
    | none => exact ⟨c, rfl, h⟩
    | some chance =>
      have hskip : params.xtcProbability ≤ 0 ∨ 1 / 2 < params.xtcThreshold ∨ c.len < 2 := by
        by_contra hlive
        simp only [not_or, not_le, not_lt] at hlive
        have hfires : params.xtcCanFire = true := decide_eq_true ⟨hlive.1, hlive.2.1⟩
        rw [hoff] at hfires
        cases hfires
      refine ⟨_, rfl, ?_⟩
      rw [Candidates.xtc, if_pos hskip]
      exact h
  | temperature =>
    refine ⟨_, rfl, ?_⟩
    rw [Candidates.temperature, dif_pos htemp]
    exact h

theorem foldlM (htemp : params.temperature ≤ 0) {steps : List ChainStep}
    (hsteps : ∀ step ∈ steps, step = .penalties ∨ params.stepEffect step ≠ .movesTheArgmax)
    (h : Stands scores xs c) :
    ∃ c', steps.foldlM (params.runStep fl checks history roll) c = .ok c' ∧
      Stands scores (steps.foldl (params.narrow fl) xs) c' := by
  induction steps generalizing xs c with
  | nil => exact ⟨c, rfl, h⟩
  | cons step steps ih =>
    obtain ⟨c₁, hc₁, h₁⟩ := h.runStep checks history roll htemp (hsteps step List.mem_cons_self)
    obtain ⟨c₂, hc₂, h₂⟩ := ih (fun s hs => hsteps s (List.mem_cons_of_mem _ hs)) h₁
    refine ⟨c₂, ?_, h₂⟩
    rw [List.foldlM_cons, hc₁]
    exact hc₂

omit [Field K] [IsStrictOrderedRing K] in
theorem new (hne : scores ≠ []) : Stands scores (sorted scores) (.new (scores.map (↑))) := by
  have hentries : (Candidates.new (scores.map WithBot.some)).entries =
      (ranked scores).map lift := by
    have hmap := List.map_insertionSort Ahead Ahead lift (scores.zipIdx.map Prod.swap)
      fun a _ b _ => by simp [Ahead, lift]
    rw [ranked, hmap, Candidates.new, Candidates.resort]
    dsimp only
    rw [List.zipIdx_map, List.map_map, List.map_map]
    rfl
  have hlen : (sorted scores).length = (ranked scores).length := List.length_map _
  refine ⟨List.prefix_refl _, ?_, ⟨[], ?_⟩, ?_⟩
  · intro hnil
    rw [hnil, length_ranked] at hlen
    exact hne (List.length_eq_zero_iff.mp hlen.symm)
  · rw [hentries, hlen, List.take_length]
    simp
  · rw [hentries, List.map_map]
    exact ranked_nodup scores

end Stands

section Scatter

variable {out : List K} {es : List (ℕ × K)} {i : ℕ}

omit [Field K] [LinearOrder K] in
theorem length_scatter :
    (es.foldl (fun out e => out.set e.1 e.2) out).length = out.length := by
  induction es generalizing out with
  | nil => rfl
  | cons e es ih => rw [List.foldl_cons, ih, List.length_set]

omit [Field K] [LinearOrder K] in
theorem getElem?_scatter_of_not_mem (h : ∀ e ∈ es, e.1 ≠ i) :
    (es.foldl (fun out e => out.set e.1 e.2) out)[i]? = out[i]? := by
  induction es generalizing out with
  | nil => rfl
  | cons e es ih =>
    rw [List.foldl_cons, ih fun e he => h e (List.mem_cons_of_mem _ he),
      List.getElem?_set_ne (h e List.mem_cons_self)]

omit [Field K] [LinearOrder K] in
theorem getElem?_scatter_of_mem {e : ℕ × K} (hnodup : (es.map Prod.fst).Nodup) (h : e ∈ es)
    (hlt : e.1 < out.length) :
    (es.foldl (fun out e => out.set e.1 e.2) out)[e.1]? = some e.2 := by
  induction es generalizing out with
  | nil => cases h
  | cons a es ih =>
    rw [List.map_cons, List.nodup_cons] at hnodup
    rw [List.foldl_cons]
    rcases List.mem_cons.mp h with rfl | h
    · rw [getElem?_scatter_of_not_mem, List.getElem?_set_self hlt]
      rintro b hb heq
      exact hnodup.1 (heq ▸ List.mem_map_of_mem hb)
    · exact ih hnodup.2 h (by simpa using hlt)

end Scatter

namespace Stands

variable [IsStrictOrderedRing K] {x : K}

/-- The distribution ranks the live candidates by their shares. -/
theorem ranks (fl : Elementary K) (h : Stands scores xs c) (hx : Ranks scores x (ranked scores)) :
    Ranks (c.intoDistribution fl scores.length) (share fl xs x)
      (((ranked scores).take xs.length).map fun e => (e.1, share fl xs e.2)) := by
  obtain ⟨masked, hentries, hsoftmax⟩ := h.softmax_eq fl
  have hmono := share_strictMono fl h.ne_nil
  have hlive := map_live h.isPrefix
  have hpairs : (c.entries.map Prod.fst).zip (c.softmax fl) =
      (((ranked scores).take xs.length).map fun e => (e.1, share fl xs e.2)) ++
        masked.map (·, 0) := by
    rw [hentries, hsoftmax, List.map_append, List.zip_append]
    · congr 1
      · have hshares : xs.map (share fl xs) = ((ranked scores).take xs.length).map
            fun e => share fl xs e.2 := by
          have hmap := congrArg (List.map (share fl xs)) hlive
          rw [List.map_map] at hmap
          exact hmap.symm
        rw [hshares, List.map_map, List.zip_map']
        rfl
      · rw [List.map_map, ← List.map_const', List.zip_map']
        rfl
    · rw [List.length_map, List.length_map, List.length_map]
      conv_rhs => rw [← hlive, List.length_map]
  have hnodup : (((c.entries.map Prod.fst).zip (c.softmax fl)).map Prod.fst).Nodup := by
    convert h.nodup using 1
    rw [hpairs, hentries]
    simp [lift, Function.comp_def]
  refine ⟨?_, ?_, ?_, ?_⟩
  · rw [List.pairwise_map]
    apply ((ranked_sorted scores).sublist (List.take_sublist _ _)).imp
    rintro a b (hab | ⟨hab, hi⟩)
    · exact .inl (hmono hab)
    · exact .inr ⟨congrArg (share fl xs) hab, hi⟩
  · intro e he
    unfold Candidates.intoDistribution
    obtain ⟨a, ha, rfl⟩ := List.mem_map.mp he
    have hget := mem_ranked.mp (List.mem_of_mem_take ha)
    apply getElem?_scatter_of_mem hnodup
    · rw [hpairs]
      exact List.mem_append_left _ he
    · rw [List.length_replicate]
      exact (List.getElem?_eq_some_iff.mp hget).1
  · obtain ⟨i, rest, hhead⟩ := hx.head
    obtain ⟨y, ys, rfl, _⟩ := h.head_eq
    exact ⟨i, (rest.take ys.length).map fun e => (e.1, share fl (y :: ys) e.2), by
      rw [hhead, List.length_cons, List.take_succ_cons, List.map_cons]⟩
  · intro j y hj hne
    have hpos := share_pos fl h.ne_nil x
    suffices hzero : y = 0 by rwa [hzero]
    unfold Candidates.intoDistribution at hj
    have hlt := (List.getElem?_eq_some_iff.mp hj).1
    rw [length_scatter] at hlt
    by_cases hin : ∃ e ∈ (c.entries.map Prod.fst).zip (c.softmax fl), e.1 = j
    · obtain ⟨e, he, rfl⟩ := hin
      rw [getElem?_scatter_of_mem hnodup he hlt, Option.some.injEq] at hj
      rw [hpairs] at he
      rcases List.mem_append.mp he with he | he
      · exact absurd rfl (hne e he)
      · obtain ⟨i, _, rfl⟩ := List.mem_map.mp he
        exact hj.symm
    · rw [getElem?_scatter_of_not_mem fun e he hej => hin ⟨e, he, hej⟩] at hj
      exact List.eq_of_mem_replicate (List.mem_of_getElem? hj)

omit [Field K] [LinearOrder K] [IsStrictOrderedRing K] in
theorem getLast?_take_iff {ids : List ℕ} {n : ℕ} (hnodup : ids.Nodup) (hn : 1 ≤ n) :
    (ids.take n).getLast? = ids.getLast? ↔ ids.length ≤ n := by
  constructor
  · intro h
    by_contra hlt
    have hn' : n - 1 < ids.length := by omega
    have hlast : ids.length - 1 < ids.length := by omega
    rw [List.getLast?_eq_getElem?, List.getLast?_eq_getElem?, List.length_take,
      Nat.min_eq_left (by omega), List.getElem?_take_of_lt (by omega),
      List.getElem?_eq_getElem hn', List.getElem?_eq_getElem hlast, Option.some.injEq] at h
    have := (hnodup.getElem_inj_iff).mp h
    omega
  · intro h
    rw [List.take_of_length_le h]

/-- The chain's choice is the argmax of the scores exactly where all of the ties are live. -/
theorem argmax_iff (h : Stands scores xs c) :
    argmax (c.intoDistribution fl scores.length) = argmax scores ↔ tied scores ≤ xs.length := by
  have hne : scores ≠ [] := by
    rintro rfl
    exact h.ne_nil (List.prefix_nil.mp h.isPrefix)
  obtain ⟨x, hx⟩ := ranks_ranked hne
  have hinj := (share_strictMono fl h.ne_nil).injective
  have hleaders : leaders (share fl xs x)
      (((ranked scores).take xs.length).map fun e => (e.1, share fl xs e.2)) =
        ((leaders x (ranked scores)).take xs.length).map fun e => (e.1, share fl xs e.2) := by
    rw [leaders, List.takeWhile_map, leaders, List.take_takeWhile]
    simp [Function.comp_def, hinj.eq_iff]
  have hchain := (h.ranks fl hx).getLast?_leaders
  rw [hleaders, List.map_map, show Prod.fst ∘ (fun e : ℕ × K => (e.1, share fl xs e.2)) =
    Prod.fst from rfl, List.map_take] at hchain
  have hnodup : ((leaders x (ranked scores)).map Prod.fst).Nodup :=
    (ranked_nodup scores).sublist ((List.takeWhile_prefix _).sublist.map _)
  have hpos : 1 ≤ xs.length := List.length_pos_iff.mpr h.ne_nil
  rw [← length_leaders hx, ← List.length_map Prod.fst, ← getLast?_take_iff hnodup hpos, hchain,
    hx.getLast?_leaders, Option.some.injEq]

end Stands

end Frink.Sampling
