import Frink.Decode.Rounds

/-! # Speculation and the answer

The two loops give the same answer over the same store unless a round draws past a stop and is
refused. A request without a grammar is never refused there.
-/

namespace Frink.Decode
open Codec ChoiceStream

variable {S L P E D : Type} {ctx : StepContext S L P E} {ops : EngineOps L D} {draftMax : ℕ}

namespace Decoding

variable {d d' p p' : Decoding S L P D}

/-- The block of this round is refused past a stop. -/
def RoundRefused (ctx : StepContext S L P E) (ops : EngineOps L D) (draftMax : ℕ)
    (d : Decoding S L P D) : Prop :=
  0 < draftMax ∧ ∃ pairs, d.draftedBlock ctx ops draftMax = some pairs ∧
    RefusedPastStop ctx d.choice pairs

theorem InStep.same_engine {engine : Engine L D} (h : d.InStep ops)
    (he : engine.store = d.engine.store) : Same ops { d with engine } d :=
  ⟨Twin.refl _, rfl, he, fun _ => ⟨h, rfl, rfl⟩⟩

/-- A round is ordinary steps, or it is refused. -/
theorem round_same (draftMax : ℕ) (hin : d.InStep ops) (hcan : ctx.params.isCancelled = false)
    (hb : d.choice.generatedIds.length < ctx.params.maxTokens) :
    (∀ d', d.round ctx ops draftMax = .ok d' →
        ∃ n p', d.rounds ctx ops 0 (n + 1) = .ok p' ∧ Same ops d' p') ∧
      (∀ e, d.round ctx ops draftMax = .error e →
        (∃ n, d.rounds ctx ops 0 (n + 1) = .error e) ∨ RoundRefused ctx ops draftMax d) ∧
      (RoundRefused ctx ops draftMax d → (∃ e, d.round ctx ops draftMax = .error e) ∧
        ∃ n p', d.rounds ctx ops 0 (n + 1) = .ok p' ∧ p'.choice.done = true) := by
  have hplain : ∀ q : Decoding S L P D, Same ops q d →
      (∀ d', q.step ctx ops = .ok d' →
        ∃ n p', d.rounds ctx ops 0 (n + 1) = .ok p' ∧ Same ops d' p') ∧
      ∀ e, q.step ctx ops = .error e → ∃ n, d.rounds ctx ops 0 (n + 1) = .error e := by
    intro q hq
    obtain ⟨hok, herr⟩ := step_same ctx hq (hq.done.trans hin.live)
    constructor
    · intro d' hd'
      obtain ⟨p', hp', hs⟩ := hok d' hd'
      exact ⟨0, p', rounds_step hin hcan hb hp' 0, hs⟩
    · intro e he
      have hc := congrArg Prod.fst (checkBudget_of_lt hin.live hcan hb)
      refine ⟨0, ?_⟩
      rw [rounds_succ hc]
      exact bind_eq_error.mpr (Or.inl (herr e he))
  rw [round]
  by_cases hmax : 0 < draftMax
  swap
  · rw [if_neg hmax]
    obtain ⟨hok, herr⟩ := hplain d hin.same
    exact ⟨hok, fun e he => Or.inl (herr e he), fun hr => absurd hr.1 hmax⟩
  rw [if_pos hmax]
  rcases speculate_cases hin with ⟨hnone, engine, he, hspec⟩ |
    ⟨draft, engine, hroom, hstore, hblock, hspec⟩
  · rw [hspec]
    obtain ⟨hok, herr⟩ := hplain _ (hin.same_engine he)
    refine ⟨hok, fun e he => Or.inl (herr e he), ?_⟩
    rintro ⟨-, pairs, hpairs, -⟩
    rw [hnone] at hpairs
    cases hpairs
  · rw [hspec]
    have hrefused : RoundRefused ctx ops draftMax d ↔
        RefusedPastStop ctx d.choice (draftPairs ops d.engine.store draft) := by
      constructor
      · rintro ⟨-, pairs, hpairs, hr⟩
        rw [hblock] at hpairs
        cases hpairs
        exact hr
      · intro hr
        exact ⟨hmax, _, hblock, hr⟩
    cases hv : verifyBlock ctx d.choice.state d.choice.logits d.choice.generatedIds
      (draftPairs ops d.engine.store draft) with
    | error e =>
      refine ⟨fun d' hd' => (nomatch hd'), ?_, ?_⟩
      · rintro e' ⟨⟩
        rw [hrefused]
        exact walk_error hin hcan hroom hv
      · intro hr
        exact ⟨⟨e, rfl⟩, (walk_refused hin hcan hroom (hrefused.mp hr)).2⟩
    | ok verified =>
      refine ⟨?_, fun e he => (nomatch he), ?_⟩
      · rintro d' ⟨⟩
        exact settle_same hin hcan hroom hstore hv
      · intro hr
        obtain ⟨⟨e, he⟩, -⟩ := walk_refused hin hcan hroom (hrefused.mp hr)
        rw [hv] at he
        cases he

/-- Whole runs: a boundary of the speculating loop is a boundary of the ordinary one, no earlier
in it. -/
theorem run_same {k : ℕ} (h : Same ops d p) (hcan : ctx.params.isCancelled = false)
    (hrun : d.rounds ctx ops draftMax k = .ok d') :
    ∃ n p', p.rounds ctx ops 0 n = .ok p' ∧ Same ops d' p' ∧
      (d'.choice.done = false → k ≤ n) := by
  induction k generalizing d p with
  | zero =>
    cases hrun
    exact ⟨0, p, rfl, h, fun _ => le_rfl⟩
  | succ k ih =>
    obtain ⟨hflag, hsame⟩ := checkBudget_same ctx h
    cases hc : (d.choice.checkBudget ctx.params).1 with
    | false =>
      rw [rounds_of_ended hc] at hrun
      cases hrun
      refine ⟨1, _, rounds_of_ended (hflag.symm.trans hc) 0, hsame, fun hl => ?_⟩
      have hdone := done_of_ended hc
      rw [hl] at hdone
      cases hdone
    | true =>
      obtain ⟨-, hd, hb⟩ := checkBudget_eq_true hc
      rw [rounds_succ hc] at hrun
      obtain ⟨d1, hd1, hrest⟩ := bind_eq_ok.mp hrun
      obtain ⟨n, p1, hp1, hs1⟩ := (round_same draftMax (h.inStep hd) hcan hb).1 d1 hd1
      obtain ⟨p2, hp2, hs2⟩ := (rounds_same ctx h (n + 1)).1 p1 hp1
      obtain ⟨m, p', hp', hs', hle⟩ := ih (hs1.trans hs2) hrest
      refine ⟨n + 1 + m, p', ?_, hs', fun hl => ?_⟩
      · rw [rounds_add]
        exact bind_eq_ok.mpr ⟨p2, hp2, hp'⟩
      · have := hle hl
        omega

/-- A boundary where the loop goes on and whose block is refused. -/
def ReachesRefusal (ctx : StepContext S L P E) (ops : EngineOps L D) (draftMax : ℕ)
    (d : Decoding S L P D) : Prop :=
  ∃ k d', d.rounds ctx ops draftMax k = .ok d' ∧
    (d'.choice.checkBudget ctx.params).1 = true ∧ RoundRefused ctx ops draftMax d'

theorem run_error {k : ℕ} {e : E} (h : Same ops d p) (hcan : ctx.params.isCancelled = false)
    (hrun : d.rounds ctx ops draftMax k = .error e) :
    (∃ n, p.rounds ctx ops 0 n = .error e) ∨ ReachesRefusal ctx ops draftMax d := by
  induction k generalizing d p with
  | zero => cases hrun
  | succ k ih =>
    cases hc : (d.choice.checkBudget ctx.params).1 with
    | false =>
      rw [rounds_of_ended hc] at hrun
      cases hrun
    | true =>
      obtain ⟨-, hd, hb⟩ := checkBudget_eq_true hc
      obtain ⟨hok, herr, -⟩ := round_same draftMax (h.inStep hd) hcan hb
      rw [rounds_succ hc] at hrun
      rcases bind_eq_error.mp hrun with he | ⟨d1, hd1, hrest⟩
      · rcases herr e he with ⟨n, hn⟩ | hr
        · exact Or.inl ⟨n + 1, (rounds_same ctx h (n + 1)).2 e hn⟩
        · exact Or.inr ⟨0, d, rfl, hc, hr⟩
      · obtain ⟨n, p1, hp1, hs1⟩ := hok d1 hd1
        obtain ⟨p2, hp2, hs2⟩ := (rounds_same ctx h (n + 1)).1 p1 hp1
        rcases ih (hs1.trans hs2) hrest with ⟨m, hm⟩ | ⟨m, d', hm, hlive, hr⟩
        · left
          refine ⟨n + 1 + m, ?_⟩
          rw [rounds_add]
          exact bind_eq_error.mpr (Or.inr ⟨p2, hp2, hm⟩)
        · right
          refine ⟨m + 1, d', ?_, hlive, hr⟩
          rw [rounds_succ hc]
          exact bind_eq_ok.mpr ⟨d1, hd1, hm⟩

/-- An ordinary step ends the completion or adds one token to the answer and to the store. -/
theorem step_cases (hin : p.InStep ops) (h : p.step ctx ops = .ok p') :
    ∃ next s, ctx.sampleNext p.choice.state p.choice.logits ctx.promptIds p.choice.generatedIds =
        .ok (next, s) ∧ (p'.choice.done = true ∨
      ∃ t, p'.InStep ops ∧ p'.choice.state = s ∧
        p'.choice.generatedIds = p.choice.generatedIds ++ [t] ∧
        p'.engine.store = p.engine.store ++ [t]) := by
  cases hs : ctx.sampleNext p.choice.state p.choice.logits ctx.promptIds p.choice.generatedIds with
  | error e =>
    rw [step, hs] at h
    cases h
  | ok drawn =>
    obtain ⟨next, s⟩ := drawn
    refine ⟨next, s, rfl, ?_⟩
    cases next with
    | grammarComplete =>
      rw [step, hs] at h
      cases h
      exact Or.inl rfl
    | token t probs =>
      obtain ⟨hdone, -, hgen⟩ := commit_fields ctx p.choice t
      rcases hq : p.choice.commit ctx t with ⟨flag, q⟩
      rw [hq] at hdone hgen
      cases flag with
      | stopped reason =>
        rw [step_of_stopped hs hq] at h
        cases h
        exact Or.inl rfl
      | «continue» =>
        obtain ⟨probs', hstep⟩ := step_of_continue hin hs hq
        rw [hstep] at h
        cases h
        refine Or.inr ⟨t, ⟨hdone.trans hin.live, ?_, rfl⟩, rfl, hgen rfl, rfl⟩
        show p.choice.pos + 1 = (p.engine.store ++ [t]).length
        rw [List.length_append, hin.pos, List.length_singleton]

/-- A live boundary of the ordinary loop: `n` tokens more, all of them in the store. -/
theorem rounds_live {n : ℕ} {front : List ℕ} (hin : p.InStep ops)
    (hstore : p.engine.store = front ++ p.choice.generatedIds)
    (hle : p.choice.generatedIds.length ≤ ctx.params.maxTokens)
    (h : p.rounds ctx ops 0 n = .ok p') (hl : p'.choice.done = false) :
    p'.choice.generatedIds.length = p.choice.generatedIds.length + n ∧
      p'.choice.generatedIds.length ≤ ctx.params.maxTokens ∧
      p'.engine.store = front ++ p'.choice.generatedIds := by
  induction n generalizing p with
  | zero =>
    cases h
    exact ⟨rfl, hle, hstore⟩
  | succ n ih =>
    cases hc : (p.choice.checkBudget ctx.params).1 with
    | false =>
      have hdone := done_of_ended hc
      rw [rounds_of_ended hc] at h
      cases h
      rw [hl] at hdone
      cases hdone
    | true =>
      obtain ⟨-, -, hb⟩ := checkBudget_eq_true hc
      rw [rounds_succ hc] at h
      obtain ⟨p1, hp1, hrest⟩ := bind_eq_ok.mp h
      obtain ⟨-, -, -, hdone | ⟨t, hin1, -, hgen, hst⟩⟩ := step_cases hin hp1
      · rw [rounds_of_done hdone] at hrest
        cases hrest
        rw [hl] at hdone
        cases hdone
      · have hlen := congrArg List.length hgen
        rw [List.length_append, List.length_singleton] at hlen
        obtain ⟨hn, hmax, hs⟩ := ih hin1 (by rw [hst, hgen, hstore, List.append_assoc])
          (by omega) hrest
        exact ⟨by omega, hmax, hs⟩

/-- Rounds enough that the loop cannot go on decide every longer and shorter run. -/
theorem rounds_decided {n m : ℕ} (hm : ∀ q, d.rounds ctx ops draftMax m = .ok q →
    q.choice.done = true) :
    (∀ q, d.rounds ctx ops draftMax n = .ok q → q.choice.done = true →
        d.rounds ctx ops draftMax m = .ok q) ∧
      ∀ e, d.rounds ctx ops draftMax n = .error e → d.rounds ctx ops draftMax m = .error e := by
  rcases Nat.le_total n m with hle | hle
  · obtain ⟨k, rfl⟩ := Nat.exists_eq_add_of_le hle
    constructor
    · intro q hq hdone
      rw [rounds_add, hq]
      exact rounds_of_done hdone k
    · intro e he
      rw [rounds_add, he]
      rfl
  · obtain ⟨k, rfl⟩ := Nat.exists_eq_add_of_le hle
    cases hd : d.rounds ctx ops draftMax m with
    | error e =>
      rw [rounds_add, hd]
      exact ⟨fun q hq => (nomatch hq), fun e he => he⟩
    | ok q =>
      rw [rounds_add, hd]
      show (∀ q', q.rounds ctx ops draftMax k = _ → _) ∧ ∀ e, q.rounds ctx ops draftMax k = _ → _
      rw [rounds_of_done (hm q hd)]
      exact ⟨fun q' hq _ => hq, fun e he => he⟩

/-- `max_tokens` rounds and one more end the completion. -/
theorem rounds_end {front : List ℕ} (hin : d.InStep ops) (hcan : ctx.params.isCancelled = false)
    (hstore : d.engine.store = front ++ d.choice.generatedIds)
    (hle : d.choice.generatedIds.length ≤ ctx.params.maxTokens)
    (h : d.rounds ctx ops draftMax (ctx.params.maxTokens + 1) = .ok d') :
    d'.choice.done = true := by
  obtain ⟨n, p', hp', hs, hn⟩ := run_same hin.same hcan h
  cases hl : d'.choice.done with
  | true => rfl
  | false =>
    obtain ⟨hlen, hmax, -⟩ := rounds_live hin hstore hle hp' (hs.done.symm.trans hl)
    have := hn hl
    omega

/-- The same answer or the same error, and the same store at every boundary. -/
def Agrees (ctx : StepContext S L P E) (ops : EngineOps L D) (draftMax : ℕ)
    (d : Decoding S L P D) : Prop :=
  (d.sampleUntilStop ctx ops draftMax).map answer = (d.sampleUntilStop ctx ops 0).map answer ∧
    ∀ k d', d.rounds ctx ops draftMax k = .ok d' →
      ∃ n p', d.rounds ctx ops 0 n = .ok p' ∧
        d'.choice.generatedIds = p'.choice.generatedIds ∧ d'.engine.store = p'.engine.store ∧
        (d'.choice.done = false → d'.engine.store = d.engine.store ++ d'.choice.generatedIds)

theorem answer_flush (h : Same ops d p) :
    answer { d with choice := d.choice.flush } = answer { p with choice := p.choice.flush } := by
  obtain ⟨_, _, _, _, he⟩ := h.twin.flush
  rw [answer, answer, he]
  rfl

/-- What speculation changes is a refusal past a stop, and nothing else. -/
theorem agrees_iff (draftMax : ℕ) (hin : d.InStep ops) (hcan : ctx.params.isCancelled = false)
    (hgen : d.choice.generatedIds = []) :
    Agrees ctx ops draftMax d ↔ ¬ReachesRefusal ctx ops draftMax d := by
  have hstore : d.engine.store = d.engine.store ++ d.choice.generatedIds := by
    rw [hgen, List.append_nil]
  have hle : d.choice.generatedIds.length ≤ ctx.params.maxTokens := by
    rw [hgen]
    exact Nat.zero_le _
  have hend : ∀ m q, d.rounds ctx ops m (ctx.params.maxTokens + 1) = .ok q →
      q.choice.done = true := fun m q hq => rounds_end hin hcan hstore hle hq
  constructor
  · rintro ⟨hanswer, -⟩ ⟨k, d', hk, hlive, hr⟩
    obtain ⟨-, hd, hb⟩ := checkBudget_eq_true hlive
    obtain ⟨n, p', hn, hs, -⟩ := run_same hin.same hcan hk
    obtain ⟨⟨e, he⟩, m, p1, hm, hdone⟩ := (round_same draftMax (hs.inStep hd) hcan hb).2.2 hr
    obtain ⟨p2, hp2, hs2⟩ := (rounds_same ctx hs (m + 1)).1 p1 hm
    have herr : d.rounds ctx ops draftMax (k + 1) = .error e := by
      rw [rounds_add, hk]
      exact (rounds_succ hlive).trans (bind_eq_error.mpr (Or.inl he))
    have hok : d.rounds ctx ops 0 (n + (m + 1)) = .ok p2 := by
      rw [rounds_add]
      exact bind_eq_ok.mpr ⟨p', hn, hp2⟩
    rw [sampleUntilStop, sampleUntilStop, (rounds_decided (hend draftMax)).2 e herr,
      (rounds_decided (hend 0)).1 p2 hok (hs2.done.symm.trans hdone)] at hanswer
    cases hanswer
  · intro hno
    constructor
    · rw [sampleUntilStop, sampleUntilStop]
      cases hd : d.rounds ctx ops draftMax (ctx.params.maxTokens + 1) with
      | error e =>
        rcases run_error hin.same hcan hd with ⟨n, hn⟩ | hr
        · rw [(rounds_decided (hend 0)).2 e hn]
        · exact absurd hr hno
      | ok d' =>
        obtain ⟨n, p', hn, hs, -⟩ := run_same hin.same hcan hd
        rw [(rounds_decided (hend 0)).1 p' hn (hs.done.symm.trans (hend draftMax d' hd))]
        exact congrArg Except.ok (answer_flush hs)
    · intro k d' hk
      obtain ⟨n, p', hn, hs, -⟩ := run_same hin.same hcan hk
      refine ⟨n, p', hn, hs.generatedIds, hs.store, fun hl => ?_⟩
      obtain ⟨-, -, hst⟩ := rounds_live hin hstore hle hn (hs.done.symm.trans hl)
      rw [hs.store, hst, hs.generatedIds]

end Decoding

end Frink.Decode
