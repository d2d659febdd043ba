import Frink.Batch.Idle
import Frink.Decode.Refusal

/-! # The batched answer and the private one

The row of an uninterrupted request beside the private decode loop without drafts, step by step.
They part at a kept end marker, which the row does not know, and at the text that the last push
releases, which the reply does not send.
-/

namespace Frink.Batch
open Decode Decoding ChoiceStream Codec

variable {S L P E : Type} {decoder : Decoder L} {request : StepContext S L P E}

/-- The private store under the same decoder. It drafts nothing. -/
def Decoder.ops (decoder : Decoder L) : EngineOps L Unit where
  logits := decoder.logits
  propose _ _ := ([], ())
  rollsBack _ _ := false
  observe _ _ _ := ()

/-- The private loop where its prompt has run; an empty prompt ran token 0. -/
def privately (decoder : Decoder L) (request : StepContext S L P E) : Decoding S L P Unit :=
  start request decoder.ops (asRun request.promptIds) ()

/-- What a caller that concatenates the chunks has. -/
def chunkText : List (BatcherEvent E) → Text
  | [] => []
  | .chunk text :: events => text ++ chunkText events
  | .finished _ :: events => chunkText events

theorem chunkText_append (events events' : List (BatcherEvent E)) :
    chunkText (events ++ events') = chunkText events ++ chunkText events' := by
  induction events with
  | nil => rfl
  | cons e events ih =>
    cases e with
    | chunk text => exact (congrArg (text ++ ·) ih).trans (List.append_assoc ..).symm
    | finished _ => exact ih

@[simp] theorem chunkText_sendChunk (text : Text) :
    chunkText (sendChunk text : List (BatcherEvent E)) = text := by
  cases text with
  | nil => rfl
  | cons c text => exact List.append_nil _

/-- The same output so far. -/
structure Alike (s : Slot S L P E) (events : List (BatcherEvent E)) (c : ChoiceStream S L P) :
    Prop where
  ids : s.answer.generatedIds = c.generatedIds
  matcher : s.answer.stops = c.matcher
  utf8 : s.answer.utf8 = c.utf8
  visible : s.answer.visible = c.emitted.flatten
  streamed : chunkText events = c.emitted.flatten

/-- The end marker is recorded when it is drawn. -/
def Keeps (request : StepContext S L P E) (d : Decoding S L P Unit) : Prop :=
  request.params.keepSpecialTokens = true ∧ request.params.ignoreEos = false ∧
    ∃ t probs state, request.sampleNext d.choice.state d.choice.logits request.promptIds
      d.choice.generatedIds = .ok (.token t probs, state) ∧ request.stopTokens.contains t = true

section Commit

variable {s : Slot S L P E} {events : List (BatcherEvent E)} {c : ChoiceStream S L P}

theorem emit_flatten (c : ChoiceStream S L P) (text : Text) :
    (c.emit text).emitted.flatten = c.emitted.flatten ++ text := by
  rw [emit]
  cases text with
  | nil => exact (List.append_nil _).symm
  | cons _ _ => simp

theorem commit_state_error (s : Slot S L P E) (t : ℕ) :
    (s.commit t).1.answer.sample = s.answer.sample ∧ (s.commit t).1.error = s.error := by
  rw [Slot.commit]
  split
  · exact ⟨rfl, rfl⟩
  dsimp only
  split
  · exact ⟨rfl, rfl⟩
  · rw [Answer.applyStopBuffer]
    dsimp only
    split <;> exact ⟨rfl, rfl⟩

/-- The two commits do the same to a token that is no kept end marker. -/
theorem commit_alike (h : Alike s events c) (hr : s.request = request) (hset : c.matcher.Settled)
    (hf : s.finish = none) {t : ℕ} (hkeep : ¬(request.params.keepSpecialTokens = true ∧
      request.params.ignoreEos = false ∧ request.stopTokens.contains t = true)) :
    Alike (s.commit t).1 (events ++ (s.commit t).2) (c.commit request t).2 ∧
      match (c.commit request t).1 with
      | .continue => (s.commit t).1.finish = none ∧ (c.commit request t).2.matcher.Settled
      | .stopped reason => (s.commit t).1.finish = some reason := by
  subst hr
  obtain ⟨hids, hmatcher, hutf8, hvisible, hstreamed⟩ := h
  rw [Slot.commit, commit, hmatcher, hutf8]
  by_cases hend : (!s.request.params.ignoreEos && s.request.stopTokens.contains t) = true
  · have hor : (!s.request.params.ignoreEos && s.request.stopTokens.contains t ||
        c.matcher.isStopToken t) = true := by
      rw [hend, Bool.true_or]
    have hdrop : ¬s.request.params.keepSpecialTokens = true := by
      intro hk
      rw [Bool.and_eq_true, Bool.not_eq_true'] at hend
      exact hkeep ⟨hk, hend⟩
    rw [if_pos hor, if_pos hend, if_neg hdrop, List.append_nil]
    exact ⟨⟨hids, hmatcher, hutf8, hvisible, hstreamed⟩, rfl⟩
  · rw [Bool.not_eq_true] at hend
    by_cases hstop : c.matcher.isStopToken t = true
    · rw [hend, Bool.false_or, if_pos hstop, if_neg Bool.false_ne_true, if_pos hstop,
        List.append_nil]
      exact ⟨⟨hids, hmatcher, hutf8, hvisible, hstreamed⟩, rfl⟩
    · rw [hend, Bool.false_or, if_neg hstop, if_neg Bool.false_ne_true, if_neg hstop]
      dsimp only
      rw [pushText]
      dsimp only [record]
      rw [hids]
      by_cases hpiece : (c.utf8.push (s.request.decodeOne [t])).1 = []
      · have hempty : (c.utf8.push (s.request.decodeOne [t])).1.isEmpty = true := by
          rw [hpiece]
          rfl
        rw [if_pos hempty, hpiece, StopMatcher.push_nil hset, List.append_nil]
        exact ⟨⟨rfl, hmatcher, rfl, hvisible, hstreamed⟩, hf, hset⟩
      · have hempty : ¬(c.utf8.push (s.request.decodeOne [t])).1.isEmpty = true :=
          fun he => hpiece (List.isEmpty_iff.mp he)
        rw [if_neg hempty, Answer.applyStopBuffer]
        dsimp only
        rw [hmatcher]
        rcases hpush : c.matcher.push (c.utf8.push (s.request.decodeOne [t])).1 with ⟨step, m⟩
        cases step with
        | emit text =>
          refine ⟨⟨rfl, rfl, rfl, ?_, ?_⟩, rfl, ?_⟩
          · show s.answer.visible ++ text = _
            rw [hvisible, show_]
            exact (emit_flatten _ text).symm
          · rw [chunkText_append, chunkText_sendChunk, hstreamed, show_]
            exact (emit_flatten _ text).symm
          · exact StopMatcher.settled_of_push hpush
        | matched text stop =>
          refine ⟨⟨rfl, rfl, rfl, ?_, ?_⟩, rfl⟩
          · show s.answer.visible ++ text = _
            rw [hvisible, show_]
            exact (emit_flatten _ text).symm
          · rw [chunkText_append, chunkText_sendChunk, hstreamed, show_]
            exact (emit_flatten _ text).symm

/-- A kept end marker is recorded by one of them. -/
theorem commit_kept (s : Slot S L P E) (c : ChoiceStream S L P) {t : ℕ}
    (hk : s.request.params.keepSpecialTokens = true)
    (he : s.request.params.ignoreEos = false) (ht : s.request.stopTokens.contains t = true) :
    s.commit t = ({ s with finish := some .stop }, []) ∧
      ∃ c', c.commit s.request t = (.stopped .stop, c') ∧
        c'.generatedIds = c.generatedIds ++ [t] := by
  have hend : (!s.request.params.ignoreEos && s.request.stopTokens.contains t) = true := by
    rw [he, ht]
    rfl
  have hor : (!s.request.params.ignoreEos && s.request.stopTokens.contains t ||
      s.answer.stops.isStopToken t) = true := by
    rw [hend, Bool.true_or]
  rw [Slot.commit, if_pos hor, commit, if_pos hend, if_pos hk]
  exact ⟨rfl, _, rfl, rfl⟩

end Commit

/-- A row and the private loop that go on alike. -/
structure Mirrors (decoder : Decoder L) (request : StepContext S L P E) (s : Slot S L P E)
    (events : List (BatcherEvent E)) (d : Decoding S L P Unit) : Prop where
  alike : Alike s events d.choice
  settled : d.choice.matcher.Settled
  request_eq : s.request = request
  prompt : s.promptIds = asRun request.promptIds
  budget : s.maxTokens = request.params.maxTokens
  error : s.error = none
  state : s.answer.sample = d.choice.state
  logits : s.logits = d.choice.logits
  store : s.kv.tokens = d.engine.store
  inStep : d.InStep decoder.ops

/-- A row and the private loop that ended alike. -/
structure EndedAlike (s : Slot S L P E) (events : List (BatcherEvent E))
    (c : ChoiceStream S L P) : Prop where
  alike : Alike s events c
  finish : s.finish = some c.finish
  error : s.error = none
  done : c.done = true

/-- A row and the private loop after a kept end marker. -/
structure EndedKept (s : Slot S L P E) (c : ChoiceStream S L P) : Prop where
  ids : ∃ t, c.generatedIds = s.answer.generatedIds ++ [t]
  finish : s.finish = some .stop
  reason : c.finish = .stop
  error : s.error = none
  done : c.done = true

/-- The row failed with the sampler's error. -/
def FailedWith (s : Slot S L P E) (e : E) : Prop :=
  s.finish = some .stop ∧ s.error = some (.constraint e)

/-- The sampler sees the prompt as it was run and as it was given alike. -/
def SamePrompt (request : StepContext S L P E) : Prop :=
  request.promptIds ≠ [] ∨ ∀ state logits history,
    request.sampleNext state logits [] history = request.sampleNext state logits [0] history

theorem SamePrompt.sampleNext (h : SamePrompt request) (state : S) (logits : L)
    (history : List ℕ) : request.sampleNext state logits (asRun request.promptIds) history =
      request.sampleNext state logits request.promptIds history := by
  by_cases hnil : request.promptIds = []
  · rcases h with h | h
    · exact absurd hnil h
    · rw [hnil]
      exact (h state logits history).symm
  · rw [asRun_of_ne_nil hnil]

section Step

variable {s : Slot S L P E} {events : List (BatcherEvent E)} {d : Decoding S L P Unit}

theorem mirrors_first (decoder : Decoder L) (request : StepContext S L P E) :
    Mirrors decoder request (.first decoder request) [] (privately decoder request) :=
  ⟨⟨rfl, rfl, rfl, rfl, rfl⟩, StopMatcher.settled_new _ _, rfl, rfl, rfl, rfl, rfl, rfl, rfl,
    ⟨rfl, rfl, rfl⟩⟩

/-- One decode step of the row beside one of the private loop. -/
inductive StepsTo (decoder : Decoder L) (request : StepContext S L P E) (s : Slot S L P E)
    (events : List (BatcherEvent E)) (d : Decoding S L P Unit) : Prop where
  | failed (e : E) (step : d.step request decoder.ops = .error e) (keeps : ¬Keeps request d)
      (row : FailedWith (s.decodeStep decoder).1 e)
  | ended (d' : Decoding S L P Unit) (step : d.step request decoder.ops = .ok d')
      (keeps : ¬Keeps request d) (alike : EndedAlike (s.decodeStep decoder).1
        (events ++ (s.decodeStep decoder).2) d'.choice)
  | kept (d' : Decoding S L P Unit) (step : d.step request decoder.ops = .ok d')
      (keeps : Keeps request d) (row : EndedKept (s.decodeStep decoder).1 d'.choice)
  | live (d' : Decoding S L P Unit) (step : d.step request decoder.ops = .ok d')
      (keeps : ¬Keeps request d) (mirrors : Mirrors decoder request (s.decodeStep decoder).1
        (events ++ (s.decodeStep decoder).2) d')
      (more : d'.choice.generatedIds.length = d.choice.generatedIds.length + 1)
      (finish : (s.decodeStep decoder).1.finish =
        if request.params.maxTokens ≤ d'.choice.generatedIds.length then some .length else none)

theorem Mirrors.sample (h : Mirrors decoder request s events d) (hp : SamePrompt request) :
    s.request.sampleNext s.answer.sample s.logits s.promptIds s.answer.generatedIds =
      request.sampleNext d.choice.state d.choice.logits request.promptIds
        d.choice.generatedIds := by
  rw [h.request_eq, h.state, h.logits, h.prompt, h.alike.ids]
  exact hp.sampleNext _ _ _

/-- A token that was drawn, in the row and in the private loop. -/
theorem Mirrors.take (h : Mirrors decoder request s events d) (hf : s.finish = none)
    (hready : s.isReady = true) {t : ℕ} {probs : Option P} {state : S}
    (hd : request.sampleNext d.choice.state d.choice.logits request.promptIds
      d.choice.generatedIds = .ok (.token t probs, state))
    (hrow : s.sample =
      ({ s with answer := { s.answer with sample := state } } : Slot S L P E).commit t) :
    StepsTo decoder request s events d := by
  obtain ⟨s1, hs1⟩ : ∃ s1 : Slot S L P E,
    s1 = { s with answer := { s.answer with sample := state } } := ⟨_, rfl⟩
  rw [← hs1] at hrow
  have halike : Alike s1 events d.choice := by
    obtain ⟨h1, h2, h3, h4, h5⟩ := h.alike
    rw [hs1]
    exact ⟨h1, h2, h3, h4, h5⟩
  have hreq : s1.request = request := by
    rw [hs1]
    exact h.request_eq
  have hf1 : s1.finish = none := by
    rw [hs1]
    exact hf
  have hdecode : s.decodeStep decoder = if (s1.commit t).1.finish.isNone then
      ((s1.commit t).1.forward decoder, (s1.commit t).2) else s1.commit t := by
    rw [Slot.decodeStep, if_pos hready, hrow]
  have hkeeps : Keeps request d ↔ request.params.keepSpecialTokens = true ∧
      request.params.ignoreEos = false ∧ request.stopTokens.contains t = true := by
    rw [Keeps, hd]
    constructor
    · rintro ⟨hk, he, _, _, _, heq, ht⟩
      cases heq
      exact ⟨hk, he, ht⟩
    · rintro ⟨hk, he, ht⟩
      exact ⟨hk, he, t, probs, state, rfl, ht⟩
  by_cases hkeep : Keeps request d
  · obtain ⟨hk, he, ht⟩ := hkeeps.mp hkeep
    rw [← hreq] at hk he ht
    obtain ⟨hcommit, c', hc', hids⟩ := commit_kept s1 d.choice hk he ht
    rw [hreq] at hc'
    refine .kept _ (step_of_stopped hd hc') hkeep ?_
    rw [hdecode, hcommit, if_neg (by exact Bool.false_ne_true)]
    refine ⟨⟨t, ?_⟩, rfl, rfl, ?_, rfl⟩
    · rw [← halike.ids] at hids
      exact hids
    · rw [← h.error, hs1]
  · obtain ⟨hnext, hflag⟩ := commit_alike halike hreq h.settled hf1 (mt hkeeps.mpr hkeep)
    rcases hc : d.choice.commit request t with ⟨flag, c⟩
    rw [hc] at hnext hflag
    obtain ⟨h1, h2, h3, h4, h5⟩ := hnext
    obtain ⟨⟨hprompt, hmax, hrequest, -⟩, hkv, -, hgo⟩ := s1.commit_spec t
    obtain ⟨hsample, herror⟩ := commit_state_error s1 t
    have herr : (s1.commit t).1.error = none := by
      rw [herror, ← h.error, hs1]
    cases flag with
    | stopped reason =>
      refine .ended _ (step_of_stopped hd hc) hkeep ?_
      rw [hdecode, hflag, if_neg (by exact Bool.false_ne_true)]
      exact ⟨⟨h1, h2, h3, h4, h5⟩, hflag, herr, rfl⟩
    | «continue» =>
      obtain ⟨hnone, hset⟩ := hflag
      obtain ⟨q, hstep⟩ := step_of_continue h.inStep hd hc
      have hids : (s1.commit t).1.answer.generatedIds = d.choice.generatedIds ++ [t] := by
        rw [(hgo hnone).2, halike.ids]
      have hkv1 : s1.kv.tokens = d.engine.store := by
        rw [hs1]
        exact h.store
      have hpushed : ((s1.commit t).1.kv.push
          (s1.commit t).1.answer.generatedIds.getLast?.toList).tokens =
            d.engine.store ++ [t] := by
        rw [hids, List.getLast?_concat, hkv]
        show s1.kv.tokens ++ [t] = _
        rw [hkv1]
      rw [hnone, if_pos (by exact rfl)] at hdecode
      refine .live _ hstep hkeep ?_ ?_ ?_
      · rw [hdecode]
        refine ⟨⟨h1, h2, h3, h4, h5⟩, hset, hrequest.trans hreq, ?_, ?_, herr, ?_, ?_, hpushed, ?_⟩
        · rw [← h.prompt]
          refine hprompt.trans ?_
          rw [hs1]
        · rw [← h.budget]
          refine hmax.trans ?_
          rw [hs1]
        · refine hsample.trans ?_
          rw [hs1]
          rfl
        · exact congrArg decoder.logits hpushed
        · have hlive := (commit_fields request d.choice t).1
          rw [hc] at hlive
          refine ⟨hlive.trans h.inStep.live, ?_, rfl⟩
          show d.choice.pos + 1 = (d.engine.store ++ [t]).length
          rw [List.length_append, h.inStep.pos]
          rfl
      · show c.generatedIds.length = _
        rw [← h1, hids, List.length_append]
        rfl
      · rw [hdecode]
        have hbudget : (s1.commit t).1.maxTokens = request.params.maxTokens := by
          rw [← h.budget]
          refine hmax.trans ?_
          rw [hs1]
        show (if (s1.commit t).1.maxTokens ≤ (s1.commit t).1.answer.generatedIds.length then
          some .length else (s1.commit t).1.finish) =
            if request.params.maxTokens ≤ c.generatedIds.length then some .length else none
        rw [hbudget, h1, hnone]

theorem Mirrors.step (h : Mirrors decoder request s events d) (hp : SamePrompt request)
    (hf : s.finish = none) (hlt : d.choice.generatedIds.length < request.params.maxTokens) :
    StepsTo decoder request s events d := by
  have hready : s.isReady = true := by
    rw [Slot.isReady, hf, h.alike.ids, h.budget, decide_eq_true hlt]
    rfl
  have hsample := h.sample hp
  cases hd : request.sampleNext d.choice.state d.choice.logits request.promptIds
      d.choice.generatedIds with
  | error e =>
    have hrow : s.sample = (s.fail (.constraint e), []) := by
      rw [Slot.sample, hsample, hd]
    have hdecode : s.decodeStep decoder = (s.fail (.constraint e), []) := by
      rw [Slot.decodeStep, if_pos hready, hrow]
      rfl
    refine .failed e ?_ ?_ ?_
    · rw [Decoding.step, hd]
      rfl
    · rintro ⟨-, -, t, probs, state, ht, -⟩
      rw [hd] at ht
      cases ht
    · rw [hdecode]
      exact ⟨rfl, rfl⟩
  | ok drawn =>
    obtain ⟨next, state⟩ := drawn
    cases next with
    | grammarComplete =>
      have hrow : s.sample = ({ s with
          answer := { s.answer with sample := state }, finish := some .stop }, []) := by
        rw [Slot.sample, hsample, hd]
      have hdecode : s.decodeStep decoder = ({ s with
          answer := { s.answer with sample := state }, finish := some .stop }, []) := by
        rw [Slot.decodeStep, if_pos hready, hrow]
        rfl
      refine .ended
        { d with choice := ({ d.choice with state } : ChoiceStream S L P).stop .stop } ?_ ?_ ?_
      · rw [Decoding.step, hd]
        rfl
      · rintro ⟨-, -, t, probs, state, ht, -⟩
        rw [hd] at ht
        cases ht
      · rw [hdecode, List.append_nil]
        obtain ⟨h1, h2, h3, h4, h5⟩ := h.alike
        exact ⟨⟨h1, h2, h3, h4, h5⟩, rfl, h.error, rfl⟩
    | token t probs =>
      apply h.take hf hready hd
      rw [Slot.sample, hsample, hd]

end Step

section Loop

variable {d d' : Decoding S L P Unit} {n m : ℕ}

/-- The private loop comes to draw an end marker that it keeps. -/
def Reaches (decoder : Decoder L) (request : StepContext S L P E) (d : Decoding S L P Unit) :
    Prop :=
  ∃ n d', d.rounds request decoder.ops 0 n = .ok d' ∧
    (d'.choice.checkBudget request.params).1 = true ∧ Keeps request d'

theorem not_reaches_of_ended (h : (d.choice.checkBudget request.params).1 = false) :
    ¬Reaches decoder request d := by
  rintro ⟨n, d', hd', hlive, -⟩
  cases n with
  | zero =>
    cases hd'
    rw [h] at hlive
    cases hlive
  | succ n =>
    rw [rounds_of_ended h] at hd'
    cases hd'
    have hdone := done_of_ended h
    rw [(checkBudget_eq_true hlive).2.1] at hdone
    cases hdone

theorem not_reaches_of_done (h : d.choice.done = true) : ¬Reaches decoder request d := by
  apply not_reaches_of_ended
  rw [checkBudget, h, if_pos rfl]

theorem rounds_of_ok (hlive : (d.choice.checkBudget request.params).1 = true)
    (hstep : d.step request decoder.ops = .ok d') (n : ℕ) :
    d.rounds request decoder.ops 0 (n + 1) = d'.rounds request decoder.ops 0 n := by
  rw [rounds_succ hlive]
  show d.step request decoder.ops >>= _ = _
  rw [hstep]
  rfl

theorem reaches_of_step (hlive : (d.choice.checkBudget request.params).1 = true)
    (hstep : d.step request decoder.ops = .ok d') :
    Reaches decoder request d ↔ Keeps request d ∨ Reaches decoder request d' := by
  have hsucc := rounds_of_ok hlive hstep
  constructor
  · rintro ⟨n, q, hq, hqlive, hk⟩
    cases n with
    | zero =>
      cases hq
      exact Or.inl hk
    | succ n => exact Or.inr ⟨n, q, (hsucc n).symm.trans hq, hqlive, hk⟩
  · rintro (hk | ⟨n, q, hq, hqlive, hk⟩)
    · exact ⟨0, d, rfl, hlive, hk⟩
    · exact ⟨n + 1, q, (hsucc n).trans hq, hqlive, hk⟩

theorem rounds_of_error {e : E} (hlive : (d.choice.checkBudget request.params).1 = true)
    (hstep : d.step request decoder.ops = .error e) (n : ℕ) :
    d.rounds request decoder.ops 0 (n + 1) = .error e := by
  rw [rounds_succ hlive]
  show d.step request decoder.ops >>= _ = _
  rw [hstep]
  rfl

theorem not_reaches_of_error {e : E} (hlive : (d.choice.checkBudget request.params).1 = true)
    (hstep : d.step request decoder.ops = .error e) (hk : ¬Keeps request d) :
    ¬Reaches decoder request d := by
  rintro ⟨n, q, hq, -, hkq⟩
  cases n with
  | zero =>
    cases hq
    exact hk hkq
  | succ n =>
    rw [rounds_of_error hlive hstep] at hq
    cases hq

/-- The end of the private loop beside a row that has finished. -/
inductive Outcome (decoder : Decoder L) (request : StepContext S L P E)
    (row : Slot S L P E × List (BatcherEvent E)) (d : Decoding S L P Unit) (n : ℕ) : Prop where
  | failed (e : E) (loop : d.rounds request decoder.ops 0 n = .error e)
      (keeps : ¬Reaches decoder request d) (failed : FailedWith row.1 e)
  | ended (d' : Decoding S L P Unit) (loop : d.rounds request decoder.ops 0 n = .ok d')
      (keeps : ¬Reaches decoder request d) (alike : EndedAlike row.1 row.2 d'.choice)
  | kept (d' : Decoding S L P Unit) (loop : d.rounds request decoder.ops 0 n = .ok d')
      (keeps : Reaches decoder request d) (kept : EndedKept row.1 d'.choice)

theorem Outcome.of_step {row : Slot S L P E × List (BatcherEvent E)}
    (hlive : (d.choice.checkBudget request.params).1 = true)
    (hstep : d.step request decoder.ops = .ok d') (hk : ¬Keeps request d)
    (h : Outcome decoder request row d' n) : Outcome decoder request row d (n + 1) := by
  have hreach := reaches_of_step hlive hstep
  have hloop := rounds_of_ok hlive hstep n
  cases h with
  | failed e loop keeps row =>
    exact .failed e (hloop.trans loop) (fun hr => (hreach.mp hr).elim hk keeps) row
  | ended q loop keeps alike =>
    exact .ended q (hloop.trans loop) (fun hr => (hreach.mp hr).elim hk keeps) alike
  | kept q loop keeps row => exact .kept q (hloop.trans loop) (hreach.mpr (Or.inr keeps)) row

/-- A row that spent its budget, and the private check that finds it spent. -/
theorem outcome_spent {s : Slot S L P E} {events : List (BatcherEvent E)}
    (h : Mirrors decoder request s events d) (hf : s.finish = some .length)
    (hspent : request.params.maxTokens ≤ d.choice.generatedIds.length) :
    Outcome decoder request (s, events) d (n + 1) := by
  have hcheck : d.choice.checkBudget request.params = (false, d.choice.stop .length) := by
    rw [checkBudget, h.inStep.live, if_neg Bool.false_ne_true, if_pos hspent]
  have hended := congrArg Prod.fst hcheck
  refine .ended _ (rounds_of_ended hended n) (not_reaches_of_ended hended) ?_
  rw [hcheck]
  obtain ⟨h1, h2, h3, h4, h5⟩ := h.alike
  exact ⟨⟨h1, h2, h3, h4, h5⟩, hf, h.error, rfl⟩

/-- The row and the loop run to the same end. -/
theorem Mirrors.run (hp : SamePrompt request) (hcan : request.params.isCancelled = false)
    (h : Mirrors decoder request (solo decoder request n).1 (solo decoder request n).2 d)
    (hf : (solo decoder request n).1.finish = none)
    (hlt : d.choice.generatedIds.length < request.params.maxTokens)
    (hm : request.params.maxTokens < d.choice.generatedIds.length + m) :
    ∃ k, Outcome decoder request (solo decoder request k) d m := by
  induction m generalizing n d with
  | zero => omega
  | succ m ih =>
    have hlive := congrArg Prod.fst (checkBudget_of_lt h.inStep.live hcan hlt)
    cases h.step hp hf hlt with
    | failed e step keeps row =>
      exact ⟨n + 1, .failed e (rounds_of_error hlive step m)
        (not_reaches_of_error hlive step keeps) row⟩
    | ended d' step keeps alike =>
      exact ⟨n + 1, .of_step hlive step keeps (.ended d' (rounds_of_done alike.done m)
        (not_reaches_of_done alike.done) alike)⟩
    | kept d' step keeps row =>
      have hloop : d.rounds request decoder.ops 0 (m + 1) = .ok d' := by
        rw [rounds_step h.inStep hcan hlt step, rounds_of_done row.done]
      exact ⟨n + 1, .kept d' hloop ((reaches_of_step hlive step).mpr (Or.inl keeps)) row⟩
    | live d' step keeps mirrors more finish =>
      by_cases hspent : request.params.maxTokens ≤ d'.choice.generatedIds.length
      · rw [if_pos hspent] at finish
        obtain ⟨k, rfl⟩ : ∃ k, m = k + 1 := ⟨m - 1, by omega⟩
        exact ⟨n + 1, .of_step hlive step keeps (outcome_spent mirrors finish hspent)⟩
      · rw [if_neg hspent] at finish
        obtain ⟨k, hk⟩ := ih (n := n + 1) mirrors finish (Nat.not_le.mp hspent) (by omega)
        exact ⟨k, .of_step hlive step keeps hk⟩

end Loop

/-- The text that the last push lets go. -/
def released (c : ChoiceStream S L P) : Text :=
  if c.utf8.flush.1.isEmpty then [] else (c.matcher.push c.utf8.flush.1).1.text

/-- The private flush releases text when its loop has ended. -/
def Drops (decoder : Decoder L) (request : StepContext S L P E) : Prop :=
  ∃ d, (privately decoder request).rounds request decoder.ops 0
      (request.params.maxTokens + 1) = .ok d ∧ released d.choice ≠ []

def privateAnswer (decoder : Decoder L) (request : StepContext S L P E) :
    Except E (FinishReason × List ℕ × Text) :=
  ((privately decoder request).sampleUntilStop request decoder.ops 0).map answer

/-- The caller is told once that it ended, with this answer, and the chunks are its text. -/
def Agrees (private_ : Except E (FinishReason × List ℕ × Text))
    (events : List (BatcherEvent E)) : Prop :=
  match private_ with
  | .error e => events.filter BatcherEvent.isFinished = [.finished (.error (.constraint e))]
  | .ok (finish, ids, text) =>
      (∃ usage, events.filter BatcherEvent.isFinished =
        [.finished (.ok (finish, ids, text, usage))]) ∧ chunkText events = text

section Ends

variable {s : Slot S L P E} {events : List (BatcherEvent E)} {c : ChoiceStream S L P} {n : ℕ}

theorem flush_fields (c : ChoiceStream S L P) :
    c.flush.generatedIds = c.generatedIds ∧ c.flush.finish = c.finish := by
  rw [flush, flushUtf8]
  dsimp only
  split <;> exact ⟨rfl, rfl⟩

/-- The two flushes differ by what the last push releases. -/
theorem flush_alike (h : Alike s events c) :
    c.flush.emitted.flatten = c.emitted.flatten ++ (released c ++ s.answer.tail) := by
  rw [flush, flushUtf8, released, Answer.tail, h.utf8, h.matcher]
  dsimp only
  split
  · rw [emit_flatten, List.nil_append]
  · rw [emit_flatten, ← List.append_assoc]
    exact congrArg (· ++ _) (emit_flatten _ _)

theorem reply_ok (a : Answer S) (finish : FinishReason) :
    (a.reply finish none : List (BatcherEvent E)).filter BatcherEvent.isFinished =
        [.finished (.ok (finish, a.generatedIds, a.visible ++ a.tail,
          ⟨a.promptTokens, a.generatedIds.length⟩))] ∧
      chunkText (a.reply finish none : List (BatcherEvent E)) = a.tail := by
  constructor
  · rw [Answer.reply, List.filter_append, sendChunk_finished]
    rfl
  · rw [Answer.reply, chunkText_append, chunkText_sendChunk]
    exact List.append_nil _

theorem privateAnswer_ok {d : Decoding S L P Unit}
    (h : (privately decoder request).rounds request decoder.ops 0
      (request.params.maxTokens + 1) = .ok d) :
    privateAnswer decoder request =
      .ok (d.choice.finish, d.choice.generatedIds, d.choice.flush.emitted.flatten) := by
  obtain ⟨hids, hreason⟩ := flush_fields d.choice
  rw [privateAnswer, sampleUntilStop, h]
  show Except.ok _ = _
  rw [answer, hids, hreason]

theorem solo_finished (decoder : Decoder L) (request : StepContext S L P E) (n : ℕ) :
    (solo decoder request n).2.filter BatcherEvent.isFinished = [] := by
  induction n with
  | zero => rfl
  | succ n ih =>
    rw [solo]
    dsimp only
    rw [List.filter_append, ih, Slot.decodeStep_finished]
    rfl

theorem solo_drawn {finish : FinishReason} (h : (solo decoder request n).1.finish = some finish) :
    (solo decoder request n).1.Drawn finish := by
  induction n with
  | zero => cases h
  | succ n ih =>
    cases hf : (solo decoder request n).1.finish with
    | none => exact Slot.decodeStep_drawn (solo_coherent hf).error hf h
    | some _ =>
      have hsame : solo decoder request (n + 1) = solo decoder request n :=
        solo_add (by rw [hf]; exact Option.some_ne_none _) 1
      rw [hsame] at h ⊢
      exact ih h

/-- The row of an uninterrupted request agrees with the private loop unless that keeps an end
marker or has text to release. -/
theorem Outcome.agrees {k : ℕ} (h : Outcome decoder request (solo decoder request k)
      (privately decoder request) (request.params.maxTokens + 1)) :
    ∃ finish, (solo decoder request k).1.finish = some finish ∧
      (Agrees (privateAnswer decoder request)
          ((solo decoder request k).2 ++ (solo decoder request k).1.replyFinished finish) ↔
        ¬Reaches decoder request (privately decoder request) ∧ ¬Drops decoder request) := by
  have hquiet := solo_finished decoder request k
  cases h with
  | failed e loop keeps failed =>
    refine ⟨.stop, failed.1, ?_⟩
    have hno : ¬Drops decoder request := by
      rintro ⟨d, hd, -⟩
      rw [loop] at hd
      cases hd
    have hprivate : privateAnswer decoder request = .error e := by
      rw [privateAnswer, sampleUntilStop, loop]
      rfl
    rw [hprivate, Agrees, List.filter_append, hquiet, Slot.replyFinished, failed.2]
    exact ⟨fun _ => ⟨keeps, hno⟩, fun _ => rfl⟩
  | ended d loop keeps alike =>
    refine ⟨d.choice.finish, alike.finish, ?_⟩
    have hdrops : Drops decoder request ↔ released d.choice ≠ [] := by
      constructor
      · rintro ⟨d', hd', hr⟩
        rw [loop] at hd'
        cases hd'
        exact hr
      · exact fun hr => ⟨d, loop, hr⟩
    obtain ⟨hreply, hchunks⟩ := reply_ok (E := E) (solo decoder request k).1.answer d.choice.finish
    rw [privateAnswer_ok loop, Agrees, List.filter_append, hquiet, Slot.replyFinished, alike.error,
      hdrops, not_not, hreply, List.nil_append, chunkText_append, hchunks, alike.alike.ids,
      alike.alike.visible, alike.alike.streamed, flush_alike alike.alike]
    constructor
    · rintro ⟨-, htext⟩
      have hlen := congrArg List.length htext
      simp only [List.length_append] at hlen
      exact ⟨keeps, List.length_eq_zero_iff.mp (by omega)⟩
    · rintro ⟨-, hr⟩
      rw [hr, List.nil_append]
      exact ⟨⟨_, rfl⟩, rfl⟩
  | kept d loop keeps kept =>
    refine ⟨.stop, kept.finish, ?_⟩
    obtain ⟨hreply, -⟩ := reply_ok (E := E) (solo decoder request k).1.answer .stop
    rw [privateAnswer_ok loop, Agrees, List.filter_append, hquiet, Slot.replyFinished, kept.error,
      hreply, List.nil_append]
    constructor
    · rintro ⟨⟨usage, he⟩, -⟩
      obtain ⟨t, ht⟩ := kept.ids
      simp only [List.cons.injEq, BatcherEvent.finished.injEq, Except.ok.injEq, Prod.mk.injEq] at he
      have hlen := congrArg List.length (he.1.2.1.trans ht)
      rw [List.length_append, List.length_singleton] at hlen
      omega
    · rintro ⟨hno, -⟩
      exact absurd keeps hno

end Ends

open World

/-- The worker's next statements. -/
def works (os : ℕ → Oracle S L P E) (n : ℕ) : List (Action S L P E) :=
  (List.range n).map fun i => .work (os i)

theorem run_append (w : World S L P E) (config : BatcherConfig)
    (actions actions' : List (Action S L P E)) :
    w.run decoder config (actions ++ actions') =
      (w.run decoder config actions).run decoder config actions' := List.foldl_append

theorem works_works (w : World S L P E) (config : BatcherConfig) (os : ℕ → Oracle S L P E) :
    Works decoder config os fun n => w.run decoder config (works os n) := by
  intro n
  show w.run decoder config (works os (n + 1)) = _
  rw [works, List.range_succ, List.map_append, run_append]
  rfl

theorem solo_of_no_budget (hmax : request.params.maxTokens = 0) (n : ℕ) :
    (solo decoder request n).1.finish = none := by
  induction n with
  | zero => rfl
  | succ n ih =>
    have hready : ¬(solo decoder request n).1.isReady = true := by
      rw [Slot.isReady, (solo_frame decoder request n).maxTokens]
      show ¬(_ && decide (_ < request.params.maxTokens)) = true
      rw [hmax]
      simp
    show ((solo decoder request n).1.decodeStep decoder).1.finish = none
    rw [Slot.decodeStep, if_neg hready]
    exact ih

theorem outcome_of_budget (hp : SamePrompt request) (hcan : request.params.isCancelled = false)
    (hmax : 0 < request.params.maxTokens) :
    ∃ k, Outcome decoder request (solo decoder request k) (privately decoder request)
      (request.params.maxTokens + 1) := by
  apply Mirrors.run hp hcan (n := 0) (mirrors_first decoder request) rfl hmax
  show request.params.maxTokens < 0 + _
  omega

theorem privateAnswer_of_no_budget (hmax : request.params.maxTokens = 0) :
    privateAnswer decoder request = .ok (.length, [], []) := by
  have hcheck : ((privately decoder request).choice.checkBudget request.params) =
      (false, (privately decoder request).choice.stop .length) := by
    rw [checkBudget]
    show (if false = true then _ else if request.params.maxTokens ≤ 0 then _ else _) = _
    rw [if_neg Bool.false_ne_true, hmax, if_pos (Nat.le_refl 0)]
  have hloop : (privately decoder request).rounds request decoder.ops 0
      (request.params.maxTokens + 1) = _ := rounds_of_ended (congrArg Prod.fst hcheck) _
  rw [hcheck] at hloop
  rw [privateAnswer_ok hloop]
  rfl

/-- Nobody cancels, so the private loop does not end cancelled. -/
theorem privateAnswer_finish (hp : SamePrompt request) (hcan : request.params.isCancelled = false)
    {finish : FinishReason} {ids : List ℕ} {text : Text}
    (h : privateAnswer decoder request = .ok (finish, ids, text)) : finish ≠ .cancelled := by
  rcases Nat.eq_zero_or_pos request.params.maxTokens with hmax | hmax
  · rw [privateAnswer_of_no_budget hmax] at h
    cases h
    rintro ⟨⟩
  · obtain ⟨k, hk⟩ : ∃ k, Outcome decoder request (solo decoder request k)
        (privately decoder request) (request.params.maxTokens + 1) :=
      outcome_of_budget hp hcan hmax
    cases hk with
    | failed e loop keeps failed =>
      rw [privateAnswer, sampleUntilStop, loop] at h
      cases h
    | ended d loop keeps alike =>
      rw [privateAnswer_ok loop] at h
      simp only [Except.ok.injEq, Prod.mk.injEq] at h
      rw [← h.1]
      exact (solo_drawn alike.finish).1
    | kept d loop keeps kept =>
      rw [privateAnswer_ok loop, kept.reason] at h
      simp only [Except.ok.injEq, Prod.mk.injEq] at h
      rw [← h.1]
      rintro ⟨⟩

theorem Agrees.decoded {events : List (BatcherEvent E)} (hp : SamePrompt request)
    (hcan : request.params.isCancelled = false)
    (h : Agrees (privateAnswer decoder request) events) :
    ∃ result, .finished result ∈ events ∧ Decoded result := by
  cases hans : privateAnswer decoder request with
  | error e =>
    rw [hans, Agrees] at h
    refine ⟨.error (.constraint e), ?_, trivial⟩
    exact List.mem_of_mem_filter (h ▸ List.mem_singleton.mpr rfl)
  | ok private_ =>
    obtain ⟨finish, ids, text⟩ := private_
    rw [hans, Agrees] at h
    obtain ⟨⟨usage, he⟩, -⟩ := h
    refine ⟨.ok (finish, ids, text, usage), ?_, privateAnswer_finish hp hcan hans⟩
    exact List.mem_of_mem_filter (he ▸ List.mem_singleton.mpr rfl)

theorem reserve_requests {w : World S L P E} {config : BatcherConfig} {blocks : ℕ}
    (hq : w.depth < config.maxQueue) (hn : w.requests.length = w.nextId) (os : ℕ → Oracle S L P E)
    (n : ℕ) : (((w.reserve config request blocks).send 0).run decoder config
      (works os n)).requests[w.nextId]? = some request := by
  have hsend : ((w.reserve config request blocks).send 0).requests = w.requests ++ [request] := by
    rw [reserve, if_neg (Nat.not_le.mpr hq), send]
    split <;> rfl
  have hrun : (((w.reserve config request blocks).send 0).run decoder config
      (works os n)).requests = w.requests ++ [request] := by
    induction n with
    | zero => exact hsend
    | succ n ih =>
      rw [← ih]
      exact (congrArg World.requests (works_works _ config os n)).trans (work_requests _ _)
  rw [hrun, ← hn]
  exact List.getElem?_concat_length

/-- An idle worker's answer, whatever went before. -/
theorem agrees_iff_of_idle {w : World S L P E} {config : BatcherConfig}
    {os : ℕ → Oracle S L P E} {blocks : ℕ} (hb : w.Books config) (hseat : w.Seated config)
    (ht : w.Tracked decoder) (hidle : w.Idle) (hadmits : Admits decoder config os w request blocks)
    (hcar : w.nextId ∉ w.carried) (hin : w.nextId ∉ w.inbox)
    (hcan : request.params.isCancelled = false) (hp : SamePrompt request) :
    (∃ n, Agrees (privateAnswer decoder request)
        ((((w.reserve config request blocks).send 0).run decoder config (works os n)).sentTo
          w.nextId)) ↔
      0 < request.params.maxTokens ∧
        ¬Reaches decoder request (privately decoder request) ∧ ¬Drops decoder request := by
  have hends : ∀ n, (((w.reserve config request blocks).send 0).run decoder config
      (works os n)).Served w.nextId → SoloEnds decoder request
        ((((w.reserve config request blocks).send 0).run decoder config (works os n)).sentTo
          w.nextId) := by
    intro n hserved
    have htracked := run_tracked ([.reserve request blocks, .send 0] ++ works os n) hb hseat ht
    have hbooks : (w.run decoder config
        ([.reserve request blocks, .send 0] ++ works os n)).Books config :=
      (run_keeps _ ⟨hb, hseat⟩).1
    rw [run_append] at hbooks htracked
    exact hserved.ends hbooks htracked (reserve_requests hadmits.queue ht.submitted os n)
  have hagrees : ∀ k events, SoloEnds decoder request events →
      Outcome decoder request (solo decoder request k) (privately decoder request)
        (request.params.maxTokens + 1) →
      (Agrees (privateAnswer decoder request) events ↔
        ¬Reaches decoder request (privately decoder request) ∧ ¬Drops decoder request) := by
    intro k events hevents hk
    obtain ⟨finish, hf, hiff⟩ := hk.agrees
    rwa [hevents.unique ⟨k, finish, hf, rfl⟩]
  constructor
  · rintro ⟨n, h⟩
    have hsolo := hends n (h.decoded hp hcan)
    rcases Nat.eq_zero_or_pos request.params.maxTokens with hmax | hmax
    · obtain ⟨k, finish, hf, -⟩ := hsolo
      rw [solo_of_no_budget hmax] at hf
      cases hf
    · obtain ⟨k, hk⟩ := outcome_of_budget hp hcan hmax
      exact ⟨hmax, (hagrees k _ hsolo hk).mp h⟩
  · rintro ⟨hmax, hcond⟩
    obtain ⟨k, hk⟩ := outcome_of_budget hp hcan hmax
    obtain ⟨n, hserved⟩ := replied (works_works _ config os) rfl hidle hadmits hcar hin hmax
    exact ⟨n, (hagrees k _ (hends n hserved) hk).mpr hcond⟩

/-- The batcher's answer to a request that an idle worker takes, against the private one: the same
exactly when the request has a budget, no end marker is kept, and no text is released last. -/
theorem batched_agrees_iff (decoder : Decoder L) (config : BatcherConfig)
    (actions : List (Action S L P E)) (os : ℕ → Oracle S L P E) (request : StepContext S L P E)
    (blocks : ℕ) (hidle : ((World.init config).run decoder config actions).Idle)
    (hadmits : Admits decoder config os ((World.init config).run decoder config actions) request
      blocks)
    (hcar : ((World.init config).run decoder config actions).nextId ∉
      ((World.init config).run decoder config actions).carried)
    (hin : ((World.init config).run decoder config actions).nextId ∉
      ((World.init config).run decoder config actions).inbox)
    (hcan : request.params.isCancelled = false) (hp : SamePrompt request) :
    (∃ n, Agrees (privateAnswer decoder request)
        (((World.init config).run decoder config
          (actions ++ [.reserve request blocks, .send 0] ++ works os n)).sentTo
            ((World.init config).run decoder config actions).nextId)) ↔
      0 < request.params.maxTokens ∧
        ¬Reaches decoder request (privately decoder request) ∧ ¬Drops decoder request := by
  simp only [List.append_assoc, run_append]
  obtain ⟨hb, hseat⟩ : ((World.init config).run decoder config actions).Books config ∧
      ((World.init config).run decoder config actions).Seated config :=
    run_keeps actions ⟨init_books, init_seated⟩
  exact agrees_iff_of_idle hb hseat (run_tracked actions init_books init_seated init_tracked)
    hidle hadmits hcar hin hcan hp

section Witness

def idleOracles : ℕ → Oracle Unit Unit Unit Unit := fun _ => ⟨none, none⟩

theorem batched_agrees_iff_two :
    ∃ n, Agrees (privateAnswer unitDecoder twoZeros)
      (((World.init fourBlocks).run unitDecoder fourBlocks
        ([] ++ [.reserve twoZeros 3, .send 0] ++ works idleOracles n)).sentTo 0) := by
  apply (batched_agrees_iff unitDecoder fourBlocks [] idleOracles twoZeros 3
    ⟨rfl, rfl, rfl, rfl, rfl, rfl⟩ ⟨by decide, by decide, by decide, fun _ => ⟨_, rfl⟩⟩
    (by decide) (by decide) rfl (Or.inl (by decide))).mpr
  refine ⟨by decide, ?_, ?_⟩
  · rintro ⟨n, d, -, -, hk, -⟩
    cases hk
  · rintro ⟨d, hd, hr⟩
    cases hd
    exact hr rfl

/-- One token, whose byte opens a character that stays open. -/
def openCharacter : StepContext Unit Unit Unit Unit :=
  { twoZeros with
    params := ⟨0, 1, [], [], false, false, false⟩
    decodeOne := fun ids => ids.map fun _ => 0xE2 }

/-- The private path shows the replacement character, the batcher nothing. -/
theorem batched_drops_open_character :
    privateAnswer unitDecoder openCharacter = .ok (.length, [0], [REPLACEMENT]) ∧
      ¬∃ n, Agrees (privateAnswer unitDecoder openCharacter)
        (((World.init fourBlocks).run unitDecoder fourBlocks
          ([.reserve openCharacter 3, .send 0] ++ works idleOracles n)).sentTo 0) := by
  have hadmits : Admits unitDecoder fourBlocks idleOracles (World.init fourBlocks) openCharacter 3 :=
    ⟨by decide, by decide, by decide, fun _ => ⟨_, rfl⟩⟩
  refine ⟨rfl, ?_⟩
  rintro ⟨n, h⟩
  rw [run_append] at h
  obtain ⟨-, -, hdrops⟩ := (agrees_iff_of_idle init_books init_seated init_tracked
    ⟨rfl, rfl, rfl, rfl, rfl, rfl⟩ hadmits (by decide) (by decide) rfl
    (Or.inl (by decide))).mp ⟨n, h⟩
  exact hdrops ⟨_, rfl, by decide⟩

end Witness

end Frink.Batch
