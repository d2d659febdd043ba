import Mathlib
import Frink.Sampling.Narrow

/-! # Greedy shortcuts agree with the chain

Greedy decoding reads its token off the scores, a sampler that reports its distribution off the
end of the chain. They name one token where no filter cuts between scores tied for the largest.
-/

namespace Frink.Sampling

open Speculative (Sampler)
open Speculative.SamplingParams (argmax pointMass)

/-- The elementary functions of the real numbers. -/
noncomputable def Elementary.real : Elementary ℝ where
  exp := Real.exp
  ln := Real.log
  sqrt := Real.sqrt
  asUsize := fun x => min ⌊x⌋₊ (2 ^ 64 - 1)
  logLimit := fun base => min ⌊88.72284 / Real.log base⌋ (2 ^ 31 - 1)
  exp_strictMono := Real.exp_strictMono
  exp_pos := Real.exp_pos
  exp_zero := Real.exp_zero
  ln_nonpos_iff := fun _ hx => Real.log_nonpos_iff hx.le
  sqrt_nonneg := Real.sqrt_nonneg

namespace SamplingParams

variable {K : Type} [Field K] [LinearOrder K] [IsStrictOrderedRing K] {fl : Elementary K}
  {checks : Bool} {params : SamplingParams K} {logits : List K} {history : PenaltyWindow}
  {roll : Option K}

omit [IsStrictOrderedRing K] in
theorem length_applyHistoryPenalties :
    (params.applyHistoryPenalties logits history).length = logits.length := by
  unfold applyHistoryPenalties
  split
  · rfl
  split
  · rfl
  split
  · rfl
  dsimp only
  generalize (history.recent params.penaltyLastN).dedup = toks
  induction toks generalizing logits with
  | nil => rfl
  | cons tok toks ih => rw [List.foldl_cons, ih, List.length_modify]

omit [IsStrictOrderedRing K] in
theorem length_scores : (params.scores logits history).length = logits.length := by
  rw [scores, List.length_map, length_applyHistoryPenalties]

omit [IsStrictOrderedRing K] in
theorem argmax_scores :
    argmax (params.scores logits history) = argmax (params.applyHistoryPenalties logits history) :=
  argmax_map WithBot.coe_strictMono

omit [IsStrictOrderedRing K] in
/-- Penalties that do not move the argmax change no score. -/
theorem applyHistoryPenalties_inert (h : params.greedyEqualsRawArgmax) :
    params.applyHistoryPenalties logits history = logits := by
  unfold applyHistoryPenalties
  by_cases hhas : params.samplerOrder.hasPenalties
  · have hmem : ChainStep.penalties ∈ params.samplerOrder.steps := by
      simpa [SamplerOrder.hasPenalties] using hhas
    have hinert := of_decide_eq_true (List.all_eq_true.mp h _ hmem)
    unfold stepEffect at hinert
    have hoff : params.penaltyLastN = 0 ∨ params.repetitionPenalty = 1 ∧
        params.presencePenalty = 0 ∧ params.frequencyPenalty = 0 := by
      by_contra hon
      rw [if_neg hon] at hinert
      exact hinert rfl
    rcases hoff with hoff | hoff
    · simp [hoff]
    · simp [hoff]
  · simp [hhas]

omit [IsStrictOrderedRing K] in
theorem steps_of_keeps (h : params.chainKeepsTheArgmax) : ∀ step ∈ params.samplerOrder.steps,
    step = .penalties ∨ params.stepEffect step ≠ .movesTheArgmax :=
  fun step hstep => of_decide_eq_true (List.all_eq_true.mp h step hstep)

section Keeps

variable (fl) (checks) (history) (roll)

theorem runStep_ok {c : Candidates K} {step : ChainStep}
    (h : step = .penalties ∨ params.stepEffect step ≠ .movesTheArgmax) :
    ∃ c', params.runStep fl checks history roll c step = .ok c' := by
  cases step with
  | dry =>
    have hoff : params.dry.isEnabled = false := by simpa [stepEffect] using h
    refine ⟨c.dry [], ?_⟩
    rw [runStep, DryParams.penalties, hoff]
    rfl
  | xtc => cases roll <;> exact ⟨_, rfl⟩
  | _ => exact ⟨_, rfl⟩

theorem foldlM_ok {steps : List ChainStep} {c : Candidates K}
    (h : ∀ step ∈ steps, step = .penalties ∨ params.stepEffect step ≠ .movesTheArgmax) :
    ∃ c', steps.foldlM (params.runStep fl checks history roll) c = .ok c' := by
  induction steps generalizing c with
  | nil => exact ⟨c, rfl⟩
  | cons step steps ih =>
    obtain ⟨c₁, hc₁⟩ : ∃ c₁, params.runStep fl checks history roll c step = .ok c₁ :=
      runStep_ok fl checks history roll (h step List.mem_cons_self)
    obtain ⟨c₂, hc₂⟩ := ih (c := c₁) fun s hs => h s (List.mem_cons_of_mem _ hs)
    refine ⟨c₂, ?_⟩
    rw [List.foldlM_cons, hc₁]
    exact hc₂

/-- A chain that keeps the argmax never fails, and reads the token off what its filters leave. -/
theorem filtered_of_keeps (logits : List K) (htemp : params.temperature ≤ 0) (h : params.chainKeepsTheArgmax) :
    ∃ probs, params.filteredDistribution fl checks (params.scores logits history) history roll =
      .ok probs ∧ (argmax probs = argmax (params.scores logits history) ↔
        params.TiesKept fl (params.applyHistoryPenalties logits history)) := by
  have hlen : (params.applyHistoryPenalties logits history).length = logits.length :=
    length_applyHistoryPenalties
  rw [argmax_scores, filteredDistribution, length_scores, ← hlen]
  unfold scores
  generalize params.applyHistoryPenalties logits history = penalised
  have hsteps := steps_of_keeps h
  rcases eq_or_ne penalised [] with rfl | hne
  · obtain ⟨c, hc⟩ := foldlM_ok fl checks history roll (c := .new (([] : List K).map (↑))) hsteps
    refine ⟨_, by rw [hc]; rfl, ?_⟩
    have hnil : c.intoDistribution fl 0 = [] := by
      apply List.length_eq_zero_iff.mp
      rw [Candidates.intoDistribution, length_scatter]
      rfl
    have hkept : params.TiesKept fl [] :=
      ⟨fun _ => .inr (Nat.zero_le _), fun _ => .inr (Nat.zero_le _),
        fun _ => .inr (.inl (Nat.zero_le _))⟩
    simp [hnil, hkept]
  · obtain ⟨c, hc, hstands⟩ : ∃ c, params.samplerOrder.steps.foldlM
        (params.runStep fl checks history roll) (.new (penalised.map (↑))) = .ok c ∧
          Stands penalised (params.samplerOrder.steps.foldl (params.narrow fl) (sorted penalised))
            c := (Stands.new hne).foldlM checks history roll htemp hsteps
    obtain ⟨x, hx⟩ := ranks_ranked hne
    refine ⟨_, by rw [hc]; rfl, ?_⟩
    have hall : tied penalised ≤ (sorted penalised).length := by
      rw [← length_leaders hx, sorted, List.length_map]
      exact (List.takeWhile_prefix _).length_le
    rw [hstands.argmax_iff, tied_le_foldl_iff hx (List.prefix_refl _) hall, tiesKept_iff]

end Keeps

/-- What the shortcuts promise for one vector of logits. -/
structure ShortcutsAgree (fl : Elementary K) (checks : Bool) (params : SamplingParams K)
    (logits : List K) (history : PenaltyWindow) : Prop where

  chain : params.chainKeepsTheArgmax → ∀ roll, ∃ probs,
    params.filteredDistribution fl checks (params.scores logits history) history roll = .ok probs ∧
      argmax probs = argmax (params.scores logits history)

  token : params.chainKeepsTheArgmax → 2 ≤ logits.length → ∀ rng roll, ∃ probs rng',
    params.sample fl checks rng logits history =
      .ok (argmax (params.scores logits history), rng') ∧
    params.sampleReporting fl checks rng logits history none =
      .ok ((argmax (params.scores logits history), some probs), rng') ∧
    params.samplingDistribution fl checks logits history roll =
      .ok (pointMass logits.length (argmax (params.scores logits history)))

  raw : params.greedyEqualsRawArgmax → argmax (params.scores logits history) = argmax logits

theorem sample_of_keeps (htemp : params.temperature ≤ 0) (h : params.chainKeepsTheArgmax)
    (hlen : 2 ≤ logits.length) (rng : Sampler) :
    params.sample fl checks rng logits history =
      .ok (argmax (params.scores logits history), (params.xtcRoll rng).2) := by
  have hone : logits.length ≠ 1 := by omega
  have hscores : (params.scores logits history).length ≠ 1 := by rwa [length_scores]
  unfold sample sampleWithMask sampleInner
  simp only [htemp, hone, and_false, if_false, if_true, Option.elim_none, hscores, Bool.not_false,
    greedyChoice, h]
  rfl

theorem sampleReporting_of_filtered (htemp : params.temperature ≤ 0) (hlen : 2 ≤ logits.length)
    {rng : Sampler} {probs : List K}
    (h : params.filteredDistribution fl checks (params.scores logits history) history
      (params.xtcRoll rng).1 = .ok probs) :
    params.sampleReporting fl checks rng logits history none =
      .ok ((argmax probs, some probs), (params.xtcRoll rng).2) := by
  have hone : logits.length ≠ 1 := by omega
  have hscores : (params.scores logits history).length ≠ 1 := by rwa [length_scores]
  unfold sampleReporting sampleInner
  simp only [htemp, hone, and_false, if_false, if_true, Option.elim_none, hscores, Bool.not_true,
    Bool.false_eq_true, h]
  rfl

theorem samplingDistribution_of_keeps (htemp : params.temperature ≤ 0)
    (h : params.chainKeepsTheArgmax) :
    params.samplingDistribution fl checks logits history roll =
      .ok (pointMass logits.length (argmax (params.scores logits history))) := by
  unfold samplingDistribution
  simp only [htemp, if_true, greedyChoice, h, length_scores]
  rfl

/-- The greedy shortcuts name the chain's token exactly where the chain keeps every tie. -/
theorem shortcuts_agree_iff (htemp : params.temperature ≤ 0) :
    ShortcutsAgree fl checks params logits history ↔
      (params.chainKeepsTheArgmax →
        params.TiesKept fl (params.applyHistoryPenalties logits history)) := by
  constructor
  · intro h hkeeps
    obtain ⟨probs, hprobs, hargmax⟩ := h.chain hkeeps none
    obtain ⟨probs', hprobs', hiff⟩ :=
      filtered_of_keeps fl checks history none logits htemp hkeeps
    obtain rfl : probs = probs' := Except.ok.inj (hprobs.symm.trans hprobs')
    exact hiff.mp hargmax
  · intro hkept
    refine ⟨fun hkeeps roll => ?_, fun hkeeps hlen rng roll => ?_, fun hraw => ?_⟩
    · obtain ⟨probs, hprobs, hiff⟩ :=
        filtered_of_keeps fl checks history roll logits htemp hkeeps
      exact ⟨probs, hprobs, hiff.mpr (hkept hkeeps)⟩
    · obtain ⟨probs, hprobs, hiff⟩ :=
        filtered_of_keeps fl checks history (params.xtcRoll rng).1 logits htemp hkeeps
      refine ⟨probs, _, sample_of_keeps htemp hkeeps hlen rng, ?_,
        samplingDistribution_of_keeps htemp hkeeps⟩
      rw [sampleReporting_of_filtered htemp hlen hprobs, hiff.mpr (hkept hkeeps)]
    · rw [argmax_scores, applyHistoryPenalties_inert hraw]

/-- The baseline with top-k at one. -/
def topOne : SamplingParams K := { SamplingParams.default with topK := 1 }

omit [IsStrictOrderedRing K] in
theorem topOne_scores :
    (topOne : SamplingParams K).applyHistoryPenalties logits history = logits := by
  simp [applyHistoryPenalties, topOne, default]

theorem shortcuts_agree_iff_untied :
    ShortcutsAgree Elementary.real false topOne [0, 1] ⟨[], []⟩ := by
  refine (shortcuts_agree_iff le_rfl).mpr fun _ => ?_
  rw [topOne_scores]
  have htied : tied [(0 : ℝ), 1] = 1 := by simp [tied]
  refine ⟨fun _ => .inr htied.le, fun _ => .inr htied.le, fun _ => .inr (.inl htied.le)⟩

/-- Two tokens are tied and one is left: the scores name the second and the chain the first. -/
theorem shortcuts_disagree_tied :
    ¬ShortcutsAgree Elementary.real false topOne [0, 0] ⟨[], []⟩ := by
  intro h
  have hkeeps : (topOne : SamplingParams ℝ).chainKeepsTheArgmax := by
    simp [chainKeepsTheArgmax, stepEffect, xtcCanFire, topOne, default, SamplerOrder.default,
      DryParams.isEnabled, DryParams.off]
  obtain ⟨probs, hprobs, hargmax⟩ := h.chain hkeeps none
  obtain ⟨probs', hprobs', hiff⟩ :=
    filtered_of_keeps Elementary.real false ⟨[], []⟩ none [0, 0] le_rfl hkeeps
  obtain rfl : probs = probs' := Except.ok.inj (hprobs.symm.trans hprobs')
  have hkept := hiff.mp hargmax
  rw [topOne_scores] at hkept
  have htied : tied [(0 : ℝ), 0] = 2 := by simp [tied]
  rcases hkept.topK (by decide) with hoff | hle
  · cases hoff
  · rw [htied] at hle
    exact absurd hle (by decide)

end SamplingParams

end Frink.Sampling
