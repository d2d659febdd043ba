import Frink.Decode.Speculate
import Frink.Library.Codec

/-! # A block against the steps it stands for

Drawing is the same on both paths, so a verified block is a run of ordinary steps up to the first
stop. What differs is what the verifier has drawn past a stop.
-/

namespace Frink.Decode
open Codec

variable {S L P E D : Type} {ctx : StepContext S L P E} {ops : EngineOps L D}

namespace ChoiceStream

/-- The same output with another sampler state, logits, position and record of probabilities. -/
def rebase (c : ChoiceStream S L P) (state : S) (logits : L) (pos : ℕ) (probs : List (ℕ × P)) :
    ChoiceStream S L P :=
  { c with state, logits, pos, perTokenProbs := probs }

variable {c c' : ChoiceStream S L P} {t : ℕ}

/-- Committing reads and writes the output only. -/
theorem commit_rebase (s : S) (l : L) (n : ℕ) (q : List (ℕ × P)) :
    (c.rebase s l n q).commit ctx t = ((c.commit ctx t).1, (c.commit ctx t).2.rebase s l n q) := by
  rw [commit, commit]
  split
  · split <;> rfl
  · by_cases ht : c.matcher.isStopToken t = true
    · rw [if_pos ht]
      exact if_pos ht
    · rw [if_neg ht]
      exact if_neg ht

theorem commit_fields (ctx : StepContext S L P E) (c : ChoiceStream S L P) (t : ℕ) :
    (c.commit ctx t).2.done = c.done ∧ (c.commit ctx t).2.finish = c.finish ∧
    ((c.commit ctx t).1 = .continue → (c.commit ctx t).2.generatedIds = c.generatedIds ++ [t]) := by
  rw [commit]
  split
  · split <;> exact ⟨rfl, rfl, (nomatch ·)⟩
  · split
    · exact ⟨rfl, rfl, (nomatch ·)⟩
    · exact ⟨rfl, rfl, fun _ => rfl⟩

/-- Equal up to what the sampler and the engine own. -/
def Twin (c c' : ChoiceStream S L P) : Prop := ∃ s l n q, c = c'.rebase s l n q

theorem Twin.refl (c : ChoiceStream S L P) : Twin c c := ⟨c.state, c.logits, c.pos, _, rfl⟩

theorem Twin.symm (h : Twin c c') : Twin c' c := by
  obtain ⟨s, l, n, q, rfl⟩ := h
  exact ⟨c'.state, c'.logits, c'.pos, c'.perTokenProbs, rfl⟩

theorem Twin.trans {c'' : ChoiceStream S L P} (h : Twin c c') (h' : Twin c' c'') : Twin c c'' := by
  obtain ⟨s, l, n, q, rfl⟩ := h
  obtain ⟨_, _, _, _, rfl⟩ := h'
  exact ⟨s, l, n, q, rfl⟩

theorem twin_rebase (s : S) (l : L) (n : ℕ) (q : List (ℕ × P)) : Twin (c.rebase s l n q) c :=
  ⟨s, l, n, q, rfl⟩

theorem Twin.commit (h : Twin c c') (ctx : StepContext S L P E) (t : ℕ) :
    (c.commit ctx t).1 = (c'.commit ctx t).1 ∧
    Twin (c.commit ctx t).2 (c'.commit ctx t).2 := by
  obtain ⟨s, l, n, q, rfl⟩ := h
  rw [commit_rebase]
  exact ⟨rfl, s, l, n, q, rfl⟩

theorem Twin.stop (h : Twin c c') (reason : FinishReason) :
    Twin (c.stop reason) (c'.stop reason) := by
  obtain ⟨s, l, n, q, rfl⟩ := h
  exact ⟨s, l, n, q, rfl⟩

theorem flushUtf8_rebase (s : S) (l : L) (n : ℕ) (q : List (ℕ × P)) :
    (c.rebase s l n q).flushUtf8 = c.flushUtf8.rebase s l n q := by
  rw [flushUtf8, flushUtf8]
  by_cases hp : (c.utf8.flush).1.isEmpty = true
  · rw [if_pos hp]
    exact if_pos hp
  · rw [if_neg hp]
    exact if_neg hp

theorem flush_rebase (s : S) (l : L) (n : ℕ) (q : List (ℕ × P)) :
    (c.rebase s l n q).flush = c.flush.rebase s l n q := by
  rw [flush, flushUtf8_rebase]
  rfl

theorem Twin.flush (h : Twin c c') : Twin c.flush c'.flush := by
  obtain ⟨s, l, n, q, rfl⟩ := h
  rw [flush_rebase]
  exact twin_rebase s l n q

theorem commit_state (ctx : StepContext S L P E) (c : ChoiceStream S L P) (t : ℕ) :
    (c.commit ctx t).2.state = c.state ∧ (c.commit ctx t).2.pos = c.pos := by
  have h : (c.rebase c.state c.logits c.pos c.perTokenProbs).commit ctx t = _ :=
    commit_rebase c.state c.logits c.pos c.perTokenProbs
  have hc : c.rebase c.state c.logits c.pos c.perTokenProbs = c := rfl
  rw [hc] at h
  rw [h]
  exact ⟨rfl, rfl⟩

theorem checkBudget_eq_true (h : (c.checkBudget ctx.params).1 = true) :
    c.checkBudget ctx.params = (true, c) ∧ c.done = false ∧
      c.generatedIds.length < ctx.params.maxTokens := by
  rw [checkBudget] at h ⊢
  split at h
  · cases h
  split at h
  · cases h
  split at h
  · cases h
  rename_i hd hb hc
  rw [if_neg hd, if_neg hb, if_neg hc]
  exact ⟨rfl, Bool.eq_false_iff.mpr hd, Nat.lt_of_not_le hb⟩

theorem checkBudget_of_lt (hd : c.done = false) (hc : ctx.params.isCancelled = false)
    (hb : c.generatedIds.length < ctx.params.maxTokens) :
    c.checkBudget ctx.params = (true, c) := by
  rw [checkBudget, hd, if_neg Bool.false_ne_true, if_neg (Nat.not_le.mpr hb), hc,
    if_neg Bool.false_ne_true]

end ChoiceStream

open ChoiceStream

/-- The drafts with the rows that a deterministic model gives after them. -/
def draftPairs (ops : EngineOps L D) : List ℕ → List ℕ → List (ℕ × L)
  | _, [] => []
  | store, t :: draft => (t, ops.logits (store ++ [t])) :: draftPairs ops (store ++ [t]) draft

theorem zip_rows (store draft : List ℕ) :
    draft.zip ((List.range draft.length).map fun i => ops.logits (store ++ draft.take (i + 1))) =
      draftPairs ops store draft := by
  induction draft generalizing store with
  | nil => rfl
  | cons t draft ih =>
    rw [List.length_cons, List.range_succ_eq_map, List.map_cons, List.map_map, List.zip_cons_cons,
      draftPairs, ← ih]
    congr 3
    ext i
    simp

/-- The verifier draws past a stop and is refused. -/
def RefusedPastStop (ctx : StepContext S L P E) : ChoiceStream S L P → List (ℕ × L) → Prop
  | _, [] => False
  | c, (draft, row) :: drafts =>
      ∃ probs state, ctx.sampleNext c.state c.logits ctx.promptIds c.generatedIds =
          .ok (.token draft probs, state) ∧
        match c.commit ctx draft with
        | (.stopped _, _) =>
            ∃ e, verifyBlock ctx state row (c.generatedIds ++ [draft]) drafts = .error e
        | (.continue, c) => RefusedPastStop ctx (c.rebase state row c.pos c.perTokenProbs) drafts

theorem refused_rebase {c : ChoiceStream S L P} {pairs : List (ℕ × L)} (n : ℕ)
    (q : List (ℕ × P)) :
    RefusedPastStop ctx (c.rebase c.state c.logits n q) pairs ↔ RefusedPastStop ctx c pairs := by
  induction pairs generalizing c n q with
  | nil => rfl
  | cons pair pairs ih =>
    obtain ⟨draft, row⟩ := pair
    rw [RefusedPastStop, RefusedPastStop]
    apply exists_congr
    intro probs
    apply exists_congr
    intro state
    apply and_congr_right
    intro _
    rw [commit_rebase]
    rcases c.commit ctx draft with ⟨flag, c1⟩
    cases flag with
    | stopped reason => rfl
    | «continue» => exact ih (c := c1.rebase state row c1.pos c1.perTokenProbs) n q

/-- What the output and the sampler decide, the position does not. -/
theorem refused_of_twin {c c' : ChoiceStream S L P} {pairs : List (ℕ × L)} (h : Twin c c') :
    RefusedPastStop ctx c pairs ↔
      RefusedPastStop ctx (c'.rebase c.state c.logits c'.pos c'.perTokenProbs) pairs := by
  obtain ⟨s, l, n, q, rfl⟩ := h
  exact refused_rebase (c := c'.rebase s l c'.pos c'.perTokenProbs) n q

namespace Decoding

/-- The loop goes on, and the logits are the store's. -/
structure InStep (ops : EngineOps L D) (p : Decoding S L P D) : Prop where
  live : p.choice.done = false
  pos : p.choice.pos = p.engine.store.length
  logits : p.choice.logits = ops.logits p.engine.store

variable {p d : Decoding S L P D}

theorem rounds_succ {draftMax n : ℕ} (h : (d.choice.checkBudget ctx.params).1 = true) :
    d.rounds ctx ops draftMax (n + 1) =
      d.round ctx ops draftMax >>= fun d => d.rounds ctx ops draftMax n := by
  rw [rounds, (checkBudget_eq_true h).1]

/-- A completion that is over stays as it is. -/
theorem rounds_of_done {draftMax : ℕ} (h : d.choice.done = true) (n : ℕ) :
    d.rounds ctx ops draftMax n = .ok d := by
  cases n with
  | zero => rfl
  | succ n =>
    have hc : d.choice.checkBudget ctx.params = (false, d.choice) := by
      rw [checkBudget, h, if_pos rfl]
    rw [rounds, hc]

theorem rounds_of_ended {draftMax : ℕ} (h : (d.choice.checkBudget ctx.params).1 = false) (n : ℕ) :
    d.rounds ctx ops draftMax (n + 1) =
      .ok { d with choice := (d.choice.checkBudget ctx.params).2 } := by
  rw [rounds]
  split
  · rename_i hc
    rw [hc] at h
    cases h
  · rename_i hc
    rw [hc]

theorem done_of_ended (h : (d.choice.checkBudget ctx.params).1 = false) :
    (d.choice.checkBudget ctx.params).2.done = true := by
  rw [checkBudget] at h ⊢
  split
  · assumption
  split
  · rfl
  split
  · rfl
  rename_i hd hb hc
  rw [if_neg hd, if_neg hb, if_neg hc] at h
  cases h

theorem rounds_add {draftMax : ℕ} (n m : ℕ) :
    d.rounds ctx ops draftMax (n + m) =
      d.rounds ctx ops draftMax n >>= fun d => d.rounds ctx ops draftMax m := by
  induction n generalizing d with
  | zero =>
    rw [Nat.zero_add]
    rfl
  | succ n ih =>
    rw [Nat.succ_add]
    cases hc : (d.choice.checkBudget ctx.params).1 with
    | true =>
      rw [rounds_succ hc, rounds_succ hc, bind_assoc]
      congr 1
      funext d
      exact ih
    | false =>
      rw [rounds_of_ended hc, rounds_of_ended hc]
      exact (rounds_of_done (done_of_ended hc) m).symm

/-- An ordinary step on a token that ends the completion. -/
theorem step_of_stopped {t : ℕ} {probs : Option P} {s : S} {reason : FinishReason}
    {c : ChoiceStream S L P}
    (hs : ctx.sampleNext p.choice.state p.choice.logits ctx.promptIds p.choice.generatedIds =
      .ok (.token t probs, s)) (hc : p.choice.commit ctx t = (.stopped reason, c)) :
    p.step ctx ops = .ok { p with
      choice := (c.rebase s p.choice.logits p.choice.pos p.choice.perTokenProbs).stop reason } := by
  have hr : (p.choice.rebase s p.choice.logits p.choice.pos p.choice.perTokenProbs).commit ctx t =
      _ := commit_rebase s p.choice.logits p.choice.pos p.choice.perTokenProbs
  rw [hc] at hr
  rw [step, hs]
  show Except.ok (take ctx ops _ (.token t probs)) = _
  rw [take]
  show Except.ok (match (p.choice.rebase s p.choice.logits p.choice.pos
    p.choice.perTokenProbs).commit ctx t with
    | (.stopped reason, c) => _ | (.continue, c) => _) = _
  rw [hr]

/-- An ordinary step on a token that goes into the answer. -/
theorem step_of_continue {t : ℕ} {probs : Option P} {s : S} {c : ChoiceStream S L P}
    (hp : p.InStep ops)
    (hs : ctx.sampleNext p.choice.state p.choice.logits ctx.promptIds p.choice.generatedIds =
      .ok (.token t probs, s)) (hc : p.choice.commit ctx t = (.continue, c)) :
    ∃ q, p.step ctx ops =
        .ok ⟨c.rebase s (ops.logits (p.engine.store ++ [t])) (p.choice.pos + 1) q,
          { p.engine with store := p.engine.store ++ [t] }⟩ := by
  have hr : (p.choice.rebase s p.choice.logits p.choice.pos p.choice.perTokenProbs).commit ctx t =
      _ := commit_rebase s p.choice.logits p.choice.pos p.choice.perTokenProbs
  rw [hc] at hr
  refine ⟨p.choice.perTokenProbs ++ (probs.map (t, ·)).toList, ?_⟩
  rw [step, hs]
  show Except.ok (take ctx ops _ (.token t probs)) = _
  rw [take]
  show Except.ok (match (p.choice.rebase s p.choice.logits p.choice.pos
    p.choice.perTokenProbs).commit ctx t with
    | (.stopped reason, c) => _ | (.continue, c) => _) = _
  rw [hr]
  have htake : p.engine.store.take p.choice.pos = p.engine.store := by
    rw [hp.pos, List.take_length]
  show Except.ok (feed ops _ t probs) = _
  simp only [feed, Engine.step, rebase, htake]

theorem rounds_step {p' : Decoding S L P D} (hp : p.InStep ops)
    (hcan : ctx.params.isCancelled = false)
    (hb : p.choice.generatedIds.length < ctx.params.maxTokens) (hs : p.step ctx ops = .ok p')
    (n : ℕ) : p.rounds ctx ops 0 (n + 1) = p'.rounds ctx ops 0 n := by
  have hc := congrArg Prod.fst (checkBudget_of_lt hp.live hcan hb)
  rw [rounds_succ hc]
  show p.step ctx ops >>= _ = _
  rw [hs]
  rfl

/-- Where a committed block leaves the round, against ordinary steps from `p` to `p'`. -/
def WalkEnd (ops : EngineOps L D) (p p' : Decoding S L P D) (block : VerifiedBlock) (s : S)
    (accepted i : ℕ) (c : ChoiceStream S L P) :
    Option (FinishReason × ℕ) × Option ℕ × ChoiceStream S L P → Prop
  | (some (reason, kept), _, c') =>
      ∃ j q, j ≤ block.accepted ∧ kept = c.pos - accepted + min (i + j) accepted ∧
        p'.choice = q.stop reason ∧ Twin c' q ∧ q.pos = p'.engine.store.length ∧
        p'.engine.store = p.engine.store ++ block.tokens.take j
  | (none, last, c') =>
      p'.engine.store = p.engine.store ++ block.tokens ∧
        if block.grammarComplete then
          ∃ q, p'.choice = q.stop .stop ∧ Twin c' q ∧ q.pos = p'.engine.store.length
        else p'.InStep ops ∧ Twin c' p'.choice ∧ p'.choice.state = s ∧
          ∃ t, last = some t ∧ block.tokens.getLast? = some t

variable {s : S} {block : VerifiedBlock} {accepted i : ℕ} {last : Option ℕ}
  {c : ChoiceStream S L P}

theorem WalkEnd.cons {t : ℕ} {p1 p' : Decoding S L P D} {q : ChoiceStream S L P}
    {r : Option (FinishReason × ℕ) × Option ℕ × ChoiceStream S L P}
    (h : WalkEnd ops p1 p' block s accepted (i + 1) q r)
    (hstore : p1.engine.store = p.engine.store ++ [t]) (hpos : q.pos = c.pos) :
    WalkEnd ops p p' ⟨t :: block.tokens, block.accepted + 1, block.drafted + 1,
      block.grammarComplete⟩ s accepted i c r := by
  rcases r with ⟨_ | ⟨reason, kept⟩, last, c'⟩
  · obtain ⟨htokens, hrest⟩ := h
    refine ⟨by rw [htokens, hstore, List.append_assoc]; rfl, ?_⟩
    split at hrest
    · rename_i hcomplete
      rw [if_pos hcomplete]
      exact hrest
    · rename_i hcomplete
      rw [if_neg hcomplete]
      obtain ⟨hin, htwin, hstate, u, hlast, hget⟩ := hrest
      refine ⟨hin, htwin, hstate, u, hlast, ?_⟩
      rw [List.getLast?_cons, hget]
      rfl
  · obtain ⟨j, q', hj, hkept, hp', htwin, hq', hp1⟩ := h
    refine ⟨j + 1, q', Nat.succ_le_succ hj, ?_, hp', htwin, hq', ?_⟩
    · rw [hkept, hpos, Nat.add_right_comm, Nat.add_assoc]
    · rw [hp1, hstore, List.append_assoc, List.take_succ_cons]
      rfl

/-- A token that ends the completion ends the block. -/
theorem walk_stopped {t : ℕ} {tokens : List ℕ} {probs : Option P} {s1 : S} {reason : FinishReason}
    {q : ChoiceStream S L P} (hp : p.InStep ops) (hcan : ctx.params.isCancelled = false)
    (hb : p.choice.generatedIds.length < ctx.params.maxTokens)
    (hs : ctx.sampleNext p.choice.state p.choice.logits ctx.promptIds p.choice.generatedIds =
      .ok (.token t probs, s1)) (hc : Twin c p.choice)
    (hq : p.choice.commit ctx t = (.stopped reason, q)) :
    ∃ n p', p.rounds ctx ops 0 (n + 1) = .ok p' ∧
      WalkEnd ops p p' block s accepted i c
        (commitBlock ctx accepted i (t :: tokens) last c) := by
  obtain ⟨hflag, htwin⟩ := hc.commit ctx t
  have hpos := (commit_state ctx c t).2
  rcases hq' : c.commit ctx t with ⟨flag, q'⟩
  rw [hq, hq'] at hflag htwin
  rw [hq'] at hpos
  dsimp only at hflag htwin hpos
  subst hflag
  refine ⟨0, _, rounds_step hp hcan hb (step_of_stopped hs hq) 0, ?_⟩
  rw [commitBlock, hq']
  refine ⟨0, _, Nat.zero_le _, ?_, rfl, htwin.trans (twin_rebase _ _ _ _).symm, hp.pos, ?_⟩
  · rw [hpos, Nat.add_zero]
  · rw [List.take_zero, List.append_nil]

/-- A token that goes into the answer is one ordinary step, and the block goes on. -/
theorem walk_continue {t : ℕ} {probs : Option P} {s1 : S} {q : ChoiceStream S L P}
    (hp : p.InStep ops) (hcan : ctx.params.isCancelled = false)
    (hb : p.choice.generatedIds.length < ctx.params.maxTokens)
    (hs : ctx.sampleNext p.choice.state p.choice.logits ctx.promptIds p.choice.generatedIds =
      .ok (.token t probs, s1)) (hc : Twin c p.choice)
    (hq : p.choice.commit ctx t = (.continue, q)) :
    ∃ (p' : Decoding S L P D) (q' : ChoiceStream S L P),
      c.commit ctx t = (.continue, q') ∧ q'.pos = c.pos ∧ Twin q' p'.choice ∧
      p'.InStep ops ∧ p'.choice.state = s1 ∧
      p'.choice.generatedIds = p.choice.generatedIds ++ [t] ∧
      p'.engine.store = p.engine.store ++ [t] ∧
      ∀ n, p.rounds ctx ops 0 (n + 1) = p'.rounds ctx ops 0 n := by
  obtain ⟨hflag, htwin⟩ := hc.commit ctx t
  have hpos := (commit_state ctx c t).2
  obtain ⟨hdone, -, hgen⟩ := commit_fields ctx p.choice t
  rcases hq' : c.commit ctx t with ⟨flag, q'⟩
  rw [hq, hq'] at hflag htwin
  rw [hq'] at hpos
  rw [hq] at hdone hgen
  dsimp only at hflag htwin hpos hdone hgen
  subst hflag
  obtain ⟨probs', hstep⟩ := step_of_continue hp hs hq
  refine ⟨_, q', rfl, hpos, htwin.trans (twin_rebase _ _ _ _).symm, ⟨?_, ?_, rfl⟩, rfl, hgen rfl,
    rfl, rounds_step hp hcan hb hstep⟩
  · exact hdone.trans hp.live
  · show p.choice.pos + 1 = (p.engine.store ++ [t]).length
    rw [List.length_append, hp.pos, List.length_singleton]

/-- A block of one token that is no accepted draft. -/
theorem walk_one {t k : ℕ} {probs : Option P} (hp : p.InStep ops)
    (hcan : ctx.params.isCancelled = false)
    (hb : p.choice.generatedIds.length < ctx.params.maxTokens)
    (hs : ctx.sampleNext p.choice.state p.choice.logits ctx.promptIds p.choice.generatedIds =
      .ok (.token t probs, s)) (hc : Twin c p.choice) :
    ∃ n p', p.rounds ctx ops 0 (n + 1) = .ok p' ∧
      WalkEnd ops p p' ⟨[t], 0, k, false⟩ s accepted i c
        (commitBlock ctx accepted i [t] last c) := by
  rcases hq : p.choice.commit ctx t with ⟨flag, q⟩
  cases flag with
  | stopped reason => exact walk_stopped hp hcan hb hs hc hq
  | «continue» =>
    obtain ⟨p', q', hq', -, htwin, hin, hstate, -, hstore, hrun⟩ :=
      walk_continue hp hcan hb hs hc hq
    refine ⟨0, p', hrun 0, ?_⟩
    rw [commitBlock, hq']
    refine ⟨hstore, ?_⟩
    rw [if_neg Bool.false_ne_true]
    exact ⟨hin, htwin, hstate, t, rfl, rfl⟩

/-- The grammar's end, drawn by an ordinary step. -/
theorem walk_complete {k : ℕ} (hp : p.InStep ops) (hcan : ctx.params.isCancelled = false)
    (hb : p.choice.generatedIds.length < ctx.params.maxTokens)
    (hs : ctx.sampleNext p.choice.state p.choice.logits ctx.promptIds p.choice.generatedIds =
      .ok (.grammarComplete, s)) (hc : Twin c p.choice) :
    ∃ n p', p.rounds ctx ops 0 (n + 1) = .ok p' ∧
      WalkEnd ops p p' ⟨[], 0, k, true⟩ s accepted i c (commitBlock ctx accepted i [] last c) := by
  have hstep : p.step ctx ops = .ok { p with
      choice := ({ p.choice with state := s } : ChoiceStream S L P).stop .stop } := by
    rw [step, hs]
    rfl
  refine ⟨0, _, rounds_step hp hcan hb hstep 0, ?_⟩
  refine ⟨(List.append_nil _).symm, ?_⟩
  rw [if_pos rfl]
  exact ⟨_, rfl, hc, hp.pos⟩

/-- The committed block is a run of ordinary steps. -/
theorem walk {draft : List ℕ} (hp : p.InStep ops) (hcan : ctx.params.isCancelled = false)
    (hb : p.choice.generatedIds.length + draft.length < ctx.params.maxTokens)
    (hv : verifyBlock ctx p.choice.state p.choice.logits p.choice.generatedIds
      (draftPairs ops p.engine.store draft) = .ok (block, s)) (hc : Twin c p.choice) :
    ∃ n p', p.rounds ctx ops 0 (n + 1) = .ok p' ∧
      WalkEnd ops p p' block s accepted i c (commitBlock ctx accepted i block.tokens last c) := by
  induction draft generalizing p c i last block with
  | nil =>
    rw [draftPairs, verifyBlock] at hv
    obtain ⟨⟨next, s1⟩, hs, hv⟩ := bind_eq_ok.mp hv
    cases next with
    | grammarComplete =>
      cases hv
      exact walk_complete hp hcan hb hs hc
    | token t probs =>
      cases hv
      exact walk_one hp hcan hb hs hc
  | cons d draft ih =>
    rw [List.length_cons] at hb
    rw [draftPairs, verifyBlock] at hv
    obtain ⟨⟨next, s1⟩, hs, hv⟩ := bind_eq_ok.mp hv
    cases next with
    | grammarComplete =>
      cases hv
      exact walk_complete hp hcan (by omega) hs hc
    | token t probs =>
      dsimp only at hv
      split at hv
      swap
      · cases hv
        exact walk_one hp hcan (by omega) hs hc
      rename_i htd
      subst htd
      obtain ⟨⟨rest, s2⟩, hrest, hv⟩ := bind_eq_ok.mp hv
      cases hv
      rcases hq : p.choice.commit ctx t with ⟨flag, q⟩
      cases flag with
      | stopped reason => exact walk_stopped hp hcan (by omega) hs hc hq
      | «continue» =>
        obtain ⟨p1, q', hq', hpos, htwin, hin, hstate, hgen, hstore, hrun⟩ :=
          walk_continue hp hcan (by omega) hs hc hq
        rw [← hstate, ← hgen, ← hstore, ← hin.logits] at hrest
        have hb1 : p1.choice.generatedIds.length + draft.length < ctx.params.maxTokens := by
          rw [hgen, List.length_append, List.length_singleton]
          omega
        obtain ⟨n, p', hn, hend⟩ : ∃ n p', p1.rounds ctx ops 0 (n + 1) = .ok p' ∧
            WalkEnd ops p1 p' rest s2 accepted (i + 1) q'
              (commitBlock ctx accepted (i + 1) rest.tokens (some t) q') :=
          ih hin hb1 hrest htwin
        refine ⟨n + 1, p', (hrun (n + 1)).trans hn, ?_⟩
        rw [commitBlock, hq']
        exact hend.cons hstore hpos

theorem rounds_error {e : E} (hp : p.InStep ops) (hcan : ctx.params.isCancelled = false)
    (hb : p.choice.generatedIds.length < ctx.params.maxTokens)
    (hs : ctx.sampleNext p.choice.state p.choice.logits ctx.promptIds p.choice.generatedIds =
      .error e) : p.rounds ctx ops 0 1 = .error e := by
  have hc := congrArg Prod.fst (checkBudget_of_lt hp.live hcan hb)
  rw [rounds_succ hc]
  show p.step ctx ops >>= _ = _
  rw [step, hs]
  rfl

/-- The verifier is refused where an ordinary step is, or past a stop. -/
theorem walk_error {draft : List ℕ} {e : E} (hp : p.InStep ops)
    (hcan : ctx.params.isCancelled = false)
    (hb : p.choice.generatedIds.length + draft.length < ctx.params.maxTokens)
    (hv : verifyBlock ctx p.choice.state p.choice.logits p.choice.generatedIds
      (draftPairs ops p.engine.store draft) = .error e) :
    (∃ n, p.rounds ctx ops 0 (n + 1) = .error e) ∨
      RefusedPastStop ctx p.choice (draftPairs ops p.engine.store draft) := by
  induction draft generalizing p with
  | nil =>
    rw [draftPairs, verifyBlock] at hv
    rcases bind_eq_error.mp hv with hs | ⟨⟨next, s1⟩, hs, hv⟩
    · exact Or.inl ⟨0, rounds_error hp hcan (by omega) hs⟩
    · cases next <;> cases hv
  | cons d draft ih =>
    rw [List.length_cons] at hb
    rw [draftPairs, verifyBlock] at hv
    rcases bind_eq_error.mp hv with hs | ⟨⟨next, s1⟩, hs, hv⟩
    · exact Or.inl ⟨0, rounds_error hp hcan (by omega) hs⟩
    cases next with
    | grammarComplete => cases hv
    | token t probs =>
      dsimp only at hv
      split at hv
      swap
      · cases hv
      rename_i htd
      subst htd
      rcases bind_eq_error.mp hv with hrest | ⟨_, -, hv⟩
      swap
      · cases hv
      rcases hq : p.choice.commit ctx t with ⟨flag, q⟩
      cases flag with
      | stopped reason =>
        right
        refine ⟨probs, s1, hs, ?_⟩
        rw [hq]
        exact ⟨e, hrest⟩
      | «continue» =>
        obtain ⟨p1, q', hq', -, htwin, hin, hstate, hgen, hstore, hrun⟩ :=
          walk_continue hp hcan (by omega) hs (Twin.refl p.choice) hq
        rw [hq, Prod.mk.injEq] at hq'
        rw [← hq'.2] at htwin
        rw [← hstate, ← hgen, ← hstore, ← hin.logits] at hrest
        have hb1 : p1.choice.generatedIds.length + draft.length < ctx.params.maxTokens := by
          rw [hgen, List.length_append, List.length_singleton]
          omega
        rcases ih hin hb1 hrest with ⟨n, hn⟩ | hr
        · exact Or.inl ⟨n + 1, (hrun (n + 1)).trans hn⟩
        · right
          refine ⟨probs, s1, hs, ?_⟩
          rw [refused_of_twin htwin.symm, hstate, hin.logits, hstore] at hr
          rw [hq]
          exact hr

/-- An ordinary run has stopped before the draw that is refused. -/
theorem walk_refused {draft : List ℕ} (hp : p.InStep ops) (hcan : ctx.params.isCancelled = false)
    (hb : p.choice.generatedIds.length + draft.length < ctx.params.maxTokens)
    (hr : RefusedPastStop ctx p.choice (draftPairs ops p.engine.store draft)) :
    (∃ e, verifyBlock ctx p.choice.state p.choice.logits p.choice.generatedIds
      (draftPairs ops p.engine.store draft) = .error e) ∧
      ∃ n p', p.rounds ctx ops 0 (n + 1) = .ok p' ∧ p'.choice.done = true := by
  induction draft generalizing p with
  | nil => exact hr.elim
  | cons d draft ih =>
    rw [List.length_cons] at hb
    obtain ⟨probs, s1, hs, hr⟩ := hr
    rw [draftPairs, verifyBlock, hs]
    show (∃ e, (if d = d then _ else _) = Except.error e) ∧ _
    rw [if_pos rfl]
    rcases hq : p.choice.commit ctx d with ⟨flag, q⟩
    rw [hq] at hr
    cases flag with
    | stopped reason =>
      obtain ⟨e, he⟩ := hr
      refine ⟨⟨e, bind_eq_error.mpr (Or.inl he)⟩, 0, _,
        rounds_step hp hcan (by omega) (step_of_stopped hs hq) 0, rfl⟩
    | «continue» =>
      obtain ⟨p1, q', hq', -, htwin, hin, hstate, hgen, hstore, hrun⟩ :=
        walk_continue hp hcan (by omega) hs (Twin.refl p.choice) hq
      rw [hq, Prod.mk.injEq] at hq'
      rw [← hq'.2] at htwin
      have hb1 : p1.choice.generatedIds.length + draft.length < ctx.params.maxTokens := by
        rw [hgen, List.length_append, List.length_singleton]
        omega
      have hr1 : RefusedPastStop ctx p1.choice (draftPairs ops p1.engine.store draft) := by
        rw [refused_of_twin htwin.symm, hstate, hin.logits, hstore]
        exact hr
      obtain ⟨⟨e, he⟩, n, p', hn, hdone⟩ := ih hin hb1 hr1
      rw [hstate, hgen, hin.logits, hstore] at he
      exact ⟨⟨e, bind_eq_error.mpr (Or.inl he)⟩, n + 1, p', (hrun (n + 1)).trans hn, hdone⟩

end Decoding

end Frink.Decode
