import Frink.Decode.Speculation

/-! # Where a draw is refused

Only a grammar refuses a token that was drawn; every other refusal comes with the first draw.
-/

namespace Frink.Decode
open Codec Gbnf ChoiceStream

variable {A Q K P D : Type} [DecidableEq K] [Add K]

namespace SampleContext

variable (C : SampleContext A Q K P)

/-- The loop's context with `sample_next` as the sampler. -/
def stepContext (params : GenerationParams) (promptIds : List ℕ) (decodeOne : List ℕ → List UInt8) :
    StepContext (SampleState A) (List (WithBot K)) P DecodeError where
  params := params
  promptIds := promptIds
  stopTokens := C.stopTokens
  decodeOne := decodeOne
  newState := C.newState
  sampleNext := C.sampleNext

/-- No parse, and nothing left to refuse. -/
structure Clear (st : SampleState A) : Prop where
  grammar : st.grammar = none
  started : C.req.needsVocabLogits C.chain = true →
    C.req.tokenMask.pending = [] ∧ ∀ n, C.req.reasoningBudget = .requested n → st.budget ≠ none

variable {C} {st st' : SampleState A} {logits : List (WithBot K)} {prompt history : List ℕ}
  {next : Step P}

omit [DecidableEq K] [Add K] in
theorem start_spec (hg : C.req.grammar = none) (hs : st.grammar = none) {n : ℕ}
    (h : C.start st n = .ok st') : st'.grammar = none ∧ C.req.tokenMask.pending = [] ∧
      ∀ n, C.req.reasoningBudget = .requested n → st'.budget ≠ none := by
  rw [start, hg, hs] at h
  dsimp only at h
  split at h
  · cases h
  rename_i hp
  split at h
  · cases h
  · cases h
    exact ⟨rfl, hp, fun _ _ hb => (nomatch hb)⟩
  · rename_i hreq _
    cases h
    exact ⟨rfl, hp, fun n hn hb => hreq n hb hn⟩

omit [DecidableEq K] [Add K] in
theorem start_of_clear (hc : C.Clear st)
    (hv : C.req.needsVocabLogits C.chain = true) (n : ℕ) :
    ∃ st', C.start st n = .ok st' := by
  obtain ⟨hp, hb⟩ := hc.started hv
  rw [start, hp]
  dsimp only
  split
  · rename_i m hnone hreq
    exact absurd hnone (hb m hreq)
  · exact ⟨_, rfl⟩
  · exact ⟨_, rfl⟩

/-- The draw itself, once the request has started. -/
theorem sampleNext_of_start (hv : C.req.needsVocabLogits C.chain = true)
    {st1 : SampleState A} (h1 : C.start st logits.length = .ok st1) (hn : st1.grammar = none) :
    ∃ id probs sampler, C.sampleNext st logits prompt history =
      .ok (.token id probs, ⟨sampler, none, st1.budget.map fun b =>
        b.accept id (lossyPieceIsComplete (C.decodeToken id))⟩) := by
  rw [sampleNext, hv, Bool.not_true, if_neg Bool.false_ne_true, h1]
  obtain ⟨sampler, grammar, budget⟩ := st1
  subst hn
  exact ⟨_, _, _, rfl⟩

/-- A first draw that succeeds leaves nothing that could refuse the next. -/
theorem clear_of_sampleNext (hg : C.req.grammar = none) (hs : st.grammar = none)
    (h : C.sampleNext st logits prompt history = .ok (next, st')) : C.Clear st' := by
  cases hv : C.req.needsVocabLogits C.chain with
  | false =>
    rw [sampleNext, hv, Bool.not_false, if_pos rfl] at h
    cases h
    refine ⟨hs, fun hv' => ?_⟩
    rw [hv] at hv'
    cases hv'
  | true =>
    cases h1 : C.start st logits.length with
    | error e =>
      rw [sampleNext, hv, Bool.not_true, if_neg Bool.false_ne_true, h1] at h
      cases h
    | ok st1 =>
      obtain ⟨hn, hp, hb⟩ := start_spec hg hs h1
      obtain ⟨id, probs, sampler, hdraw⟩ := sampleNext_of_start hv h1 hn
      rw [hdraw] at h
      cases h
      refine ⟨rfl, fun _ => ⟨hp, fun n hn hnone => hb n hn ?_⟩⟩
      exact Option.map_eq_none_iff.mp hnone

theorem sampleNext_of_clear (prompt : List ℕ) (hg : C.req.grammar = none) (hc : C.Clear st) :
    ∃ next st', C.sampleNext st logits prompt history = .ok (next, st') := by
  cases hv : C.req.needsVocabLogits C.chain with
  | false =>
    rw [sampleNext, hv, Bool.not_false, if_pos rfl]
    exact ⟨_, _, rfl⟩
  | true =>
    obtain ⟨st1, h1⟩ := start_of_clear hc hv logits.length
    obtain ⟨id, probs, sampler, hdraw⟩ := sampleNext_of_start hv h1 (start_spec hg hc.grammar h1).1
    exact ⟨_, _, hdraw⟩

end SampleContext

section Settled

variable {S L E : Type} {ctx : StepContext S L P E} {ops : EngineOps L D} {draftMax : ℕ}
  {Q R : S → Prop}

/-- From a state that refuses nothing the verifier is not refused. -/
theorem verifyBlock_total (hq : ∀ s l h, Q s →
    ∃ next s', ctx.sampleNext s l ctx.promptIds h = .ok (next, s') ∧ Q s')
    (pairs : List (ℕ × L)) {s : S} (hs : Q s) (l : L) (history : List ℕ) :
    ∃ block s', verifyBlock ctx s l history pairs = .ok (block, s') := by
  induction pairs generalizing s l history with
  | nil =>
    obtain ⟨next, s1, h, -⟩ := hq s l history hs
    rw [verifyBlock, h]
    cases next <;> exact ⟨_, _, rfl⟩
  | cons pair pairs ih =>
    obtain ⟨draft, row⟩ := pair
    obtain ⟨next, s1, h, hs1⟩ := hq s l history hs
    rw [verifyBlock, h]
    cases next with
    | grammarComplete => exact ⟨_, _, rfl⟩
    | token t probs =>
      by_cases ht : t = draft
      · obtain ⟨block, s2, h2⟩ := ih hs1 row (history ++ [t])
        refine ⟨⟨t :: block.tokens, block.accepted + 1, block.drafted + 1,
          block.grammarComplete⟩, s2, ?_⟩
        show (if t = draft then _ else _) = _
        rw [if_pos ht, h2]
        rfl
      · exact ⟨_, _, if_neg ht⟩

theorem not_refusedPastStop (hq : ∀ s l h, Q s →
    ∃ next s', ctx.sampleNext s l ctx.promptIds h = .ok (next, s') ∧ Q s')
    (hr : ∀ s l h next s', R s → ctx.sampleNext s l ctx.promptIds h = .ok (next, s') →
      R s' ∧ Q s') {c : ChoiceStream S L P} {pairs : List (ℕ × L)} (hc : R c.state) :
    ¬RefusedPastStop ctx c pairs := by
  induction pairs generalizing c with
  | nil => exact id
  | cons pair pairs ih =>
    obtain ⟨draft, row⟩ := pair
    rintro ⟨probs, s, hs, hrest⟩
    obtain ⟨hrs, hqs⟩ := hr _ _ _ _ _ hc hs
    split at hrest
    · obtain ⟨e, he⟩ := hrest
      obtain ⟨block, s', hok⟩ := verifyBlock_total hq pairs hqs row (c.generatedIds ++ [draft])
      rw [hok] at he
      cases he
    · rename_i c1 _
      exact ih (c := c1.rebase s row c1.pos c1.perTokenProbs) hrs hrest

namespace Decoding

variable {p p' d : Decoding S L P D}

/-- What every draw keeps of the sampler state holds at every live boundary. -/
theorem rounds_state {n : ℕ} (hr : ∀ s l h next s', R s →
    ctx.sampleNext s l ctx.promptIds h = .ok (next, s') → R s') (hin : p.InStep ops)
    (hs : R p.choice.state) (h : p.rounds ctx ops 0 n = .ok p') (hl : p'.choice.done = false) :
    R p'.choice.state := by
  induction n generalizing p with
  | zero =>
    cases h
    exact hs
  | succ n ih =>
    cases hc : (p.choice.checkBudget ctx.params).1 with
    | false =>
      have hdone := done_of_ended hc
      rw [rounds_of_ended hc] at h
      cases h
      rw [hl] at hdone
      cases hdone
    | true =>
      rw [rounds_succ hc] at h
      obtain ⟨p1, hp1, hrest⟩ := bind_eq_ok.mp h
      obtain ⟨next, s, hdraw, hdone | ⟨t, hin1, hst, -, -⟩⟩ := step_cases hin hp1
      · rw [rounds_of_done hdone] at hrest
        cases hrest
        rw [hl] at hdone
        cases hdone
      · exact ih hin1 (hst ▸ hr _ _ _ _ _ hs hdraw) hrest

theorem not_reachesRefusal (hq : ∀ s l h, Q s →
    ∃ next s', ctx.sampleNext s l ctx.promptIds h = .ok (next, s') ∧ Q s')
    (hr : ∀ s l h next s', R s → ctx.sampleNext s l ctx.promptIds h = .ok (next, s') →
      R s' ∧ Q s') (hin : d.InStep ops) (hcan : ctx.params.isCancelled = false)
    (hs : R d.choice.state) : ¬ReachesRefusal ctx ops draftMax d := by
  rintro ⟨k, d', hk, hlive, -, pairs, -, hrefused⟩
  obtain ⟨-, hd, -⟩ := checkBudget_eq_true hlive
  obtain ⟨n, p', hn, hsame, -⟩ := run_same hin.same hcan hk
  obtain ⟨-, hstate, -⟩ := hsame.live (hsame.done.symm.trans hd)
  have hkept : R p'.choice.state := rounds_state (fun s l h next s' h1 h2 =>
    (hr s l h next s' h1 h2).1) hin hs hn (hsame.done.symm.trans hd)
  exact not_refusedPastStop hq hr (hstate ▸ hkept) hrefused

/-- A completion at its start: the store holds the prompt. -/
def start (ctx : StepContext S L P E) (ops : EngineOps L D) (store : List ℕ) (drafter : D) :
    Decoding S L P D :=
  ⟨ChoiceStream.new ctx (ops.logits store) store.length, ⟨store, drafter⟩⟩

end Decoding

end Settled

open Decoding

/-- The speculating loop and the ordinary one agree exactly when no block is refused past a stop,
so always when no grammar constrains the request. -/
theorem speculation_agrees (C : SampleContext A Q K P) (params : GenerationParams)
    (promptIds : List ℕ) (decodeOne : List ℕ → List UInt8)
    (ops : EngineOps (List (WithBot K)) D) (store : List ℕ) (drafter : D) (draftMax : ℕ)
    (hcan : params.isCancelled = false) :
    (Agrees (C.stepContext params promptIds decodeOne) ops draftMax
        (start (C.stepContext params promptIds decodeOne) ops store drafter) ↔
      ¬ReachesRefusal (C.stepContext params promptIds decodeOne) ops draftMax
        (start (C.stepContext params promptIds decodeOne) ops store drafter)) ∧
    (C.req.grammar = none → Agrees (C.stepContext params promptIds decodeOne) ops draftMax
      (start (C.stepContext params promptIds decodeOne) ops store drafter)) := by
  have hin : (start (C.stepContext params promptIds decodeOne) ops store drafter).InStep ops :=
    ⟨rfl, rfl, rfl⟩
  have hlive : (C.stepContext params promptIds decodeOne).params.isCancelled = false := hcan
  have hiff := agrees_iff draftMax hin hlive rfl
  refine ⟨hiff, fun hg => hiff.mpr ?_⟩
  apply not_reachesRefusal (Q := C.Clear) (R := fun st => st.grammar = none) _ _ hin hlive rfl
  · intro st logits history hc
    obtain ⟨next, st', h⟩ := SampleContext.sampleNext_of_clear promptIds hg hc
    exact ⟨next, st', h, SampleContext.clear_of_sampleNext hg hc.grammar h⟩
  · intro st logits history next st' hs h
    have hc := SampleContext.clear_of_sampleNext hg hs h
    exact ⟨hc.grammar, hc⟩

section Witness

/-- A greedy chain: the first of the largest scores. -/
def greedyChain : SamplerChain Unit Unit ℕ Unit where
  new _ := ()
  greedyEqualsRawArgmax _ := true
  penalize _ scores _ _ := scores
  draw _ _ scores _ _ _ := ((scores.findIdx fun s => scores.all (· ≤ s), none), ())

/-- A model that always prefers token 0, and a drafter that always proposes it. -/
def steadyOps : EngineOps (List (WithBot ℕ)) Unit where
  logits _ := [WithBot.some 1, WithBot.some 0]
  propose _ _ := ([0], ())
  rollsBack _ _ := true
  observe _ _ _ := ()

/-- Two tokens, `"a"` and `"c"`. -/
def twoTokens : ℕ → Text
  | 0 => ['a']
  | _ => ['c']

def stopAtA : GenerationParams where
  seed := 0
  maxTokens := 2
  stop := [['a']]
  stopTokenIds := []
  ignoreEos := false
  keepSpecialTokens := false
  isCancelled := false

def greedyContext (grammar : Option Grammar) : SampleContext Unit Unit ℕ Unit where
  chain := greedyChain
  req := ⟨(), false, false, [], ⟨none, [], []⟩, grammar, .unrestricted⟩
  stopTokens := []
  decodeToken := twoTokens
  fuel := 9

/-- `root ::= "a" "b"`. -/
def abGrammar : Grammar :=
  ⟨[[⟨.char, 97⟩, ⟨.char, 98⟩, ⟨.ruleEnd, 0⟩]], [[⟨0, 0⟩]], .empty, none⟩

def stopContext (grammar : Option Grammar) :
    StepContext (SampleState Unit) (List (WithBot ℕ)) Unit DecodeError :=
  (greedyContext grammar).stepContext stopAtA [] fun ids =>
    ids.flatMap fun id => utf8 (String.ofList (twoTokens id))

theorem speculation_agrees_unconstrained :
    Agrees (stopContext none) steadyOps 1 (start (stopContext none) steadyOps [] ()) :=
  (speculation_agrees (greedyContext none) stopAtA [] _ steadyOps [] () 1 rfl).2 rfl

/-- The stop string is complete after one token; the block has the grammar refuse a second. -/
theorem speculation_refused_past_stop :
    ((start (stopContext (some abGrammar)) steadyOps [] ()).sampleUntilStop
        (stopContext (some abGrammar)) steadyOps 0).map answer =
      .ok (.stopSequence ['a'], [0], []) ∧
    ((start (stopContext (some abGrammar)) steadyOps [] ()).sampleUntilStop
        (stopContext (some abGrammar)) steadyOps 1).map answer =
      .error (.grammarConstraint (.noAllowedToken 1)) := by
  constructor
  · rfl
  · rfl

end Witness

end Frink.Decode
