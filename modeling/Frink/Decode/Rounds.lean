import Frink.Decode.Lossless

/-! # Rounds against ordinary steps

A speculative round from a boundary of the loop leads to a boundary of the ordinary loop, with the
same store. Whole runs follow by induction on the rounds.
-/

namespace Frink.Decode
open Codec ChoiceStream

variable {S L P E D : Type} {ctx : StepContext S L P E} {ops : EngineOps L D} {draftMax : ℕ}

/-- What a block says about the drafts it verified. -/
theorem verifyBlock_spec {s s' : S} {l : L} {history : List ℕ} {pairs : List (ℕ × L)}
    {block : VerifiedBlock} (h : verifyBlock ctx s l history pairs = .ok (block, s')) :
    block.accepted ≤ pairs.length ∧
      block.tokens.take block.accepted = (pairs.map Prod.fst).take block.accepted ∧
      block.tokens.length = block.accepted + (if block.grammarComplete then 0 else 1) := by
  induction pairs generalizing s l history block with
  | nil =>
    rw [verifyBlock] at h
    obtain ⟨⟨next, s1⟩, -, h⟩ := bind_eq_ok.mp h
    cases next <;> cases h <;> exact ⟨le_rfl, rfl, rfl⟩
  | cons pair pairs ih =>
    obtain ⟨draft, row⟩ := pair
    rw [verifyBlock] at h
    obtain ⟨⟨next, s1⟩, -, hd⟩ := bind_eq_ok.mp h
    cases next with
    | grammarComplete =>
      cases hd
      exact ⟨Nat.zero_le _, rfl, rfl⟩
    | token t probs =>
      dsimp only at hd
      split at hd
      swap
      · cases hd
        exact ⟨Nat.zero_le _, rfl, rfl⟩
      rename_i htd
      subst htd
      obtain ⟨⟨rest, s2⟩, hrest, hr⟩ := bind_eq_ok.mp hd
      cases hr
      obtain ⟨hle, htake, hlen⟩ := ih hrest
      refine ⟨Nat.succ_le_succ hle, ?_, ?_⟩
      · rw [List.map_cons, List.take_succ_cons, List.take_succ_cons, htake]
      · rw [List.length_cons, hlen]
        exact Nat.add_right_comm ..

theorem commitBlock_fields (ctx : StepContext S L P E) (accepted i : ℕ) (tokens : List ℕ) (last : Option ℕ)
    (c : ChoiceStream S L P) :
    (commitBlock ctx accepted i tokens last c).2.2.state = c.state ∧
      (commitBlock ctx accepted i tokens last c).2.2.pos = c.pos := by
  induction tokens generalizing i last c with
  | nil => exact ⟨rfl, rfl⟩
  | cons t tokens ih =>
    have hc := commit_state ctx c t
    rw [commitBlock]
    generalize c.commit ctx t = r at hc
    obtain ⟨flag, c1⟩ := r
    cases flag with
    | stopped reason => exact hc
    | «continue» =>
      obtain ⟨hs, hp⟩ := ih (i + 1) (some t) c1
      exact ⟨hs.trans hc.1, hp.trans hc.2⟩

theorem map_fst_draftPairs (store draft : List ℕ) :
    (draftPairs ops store draft).map Prod.fst = draft := by
  induction draft generalizing store with
  | nil => rfl
  | cons t draft ih => rw [draftPairs, List.map_cons, ih]

namespace Decoding

/-- Two boundaries with the same output and store; while the loop goes on the sampler state and
the logits are the same too. -/
structure Same (ops : EngineOps L D) (d p : Decoding S L P D) : Prop where
  twin : Twin d.choice p.choice
  pos : d.choice.pos = p.choice.pos
  store : d.engine.store = p.engine.store
  live : p.choice.done = false → p.InStep ops ∧ d.choice.state = p.choice.state ∧
    d.choice.logits = p.choice.logits

variable {d d' p p' : Decoding S L P D}

theorem InStep.same (h : p.InStep ops) : Same ops p p :=
  ⟨Twin.refl _, rfl, rfl, fun _ => ⟨h, rfl, rfl⟩⟩

theorem Same.done (h : Same ops d p) : d.choice.done = p.choice.done := by
  obtain ⟨_, _, _, _, he⟩ := h.twin
  rw [he]
  rfl

theorem Same.generatedIds (h : Same ops d p) :
    d.choice.generatedIds = p.choice.generatedIds := by
  obtain ⟨_, _, _, _, he⟩ := h.twin
  rw [he]
  rfl

theorem Same.inStep (h : Same ops d p) (hd : d.choice.done = false) : d.InStep ops := by
  obtain ⟨hp, -, hl⟩ := h.live (h.done ▸ hd)
  exact ⟨hd, by rw [h.pos, h.store, hp.pos], by rw [hl, h.store, hp.logits]⟩

theorem Same.trans {q : Decoding S L P D} (h : Same ops d p) (h' : Same ops p q) :
    Same ops d q := by
  refine ⟨h.twin.trans h'.twin, h.pos.trans h'.pos, h.store.trans h'.store, fun hq => ?_⟩
  obtain ⟨hin, hs, hl⟩ := h'.live hq
  obtain ⟨-, hs', hl'⟩ := h.live (h'.done.trans hq)
  exact ⟨hin, hs'.trans hs, hl'.trans hl⟩

/-- Ordinary steps from the same boundary stay the same. -/
theorem step_same (ctx : StepContext S L P E) (h : Same ops d p) (hd : d.choice.done = false) :
    (∀ d', d.step ctx ops = .ok d' → ∃ p', p.step ctx ops = .ok p' ∧ Same ops d' p') ∧
      ∀ e, d.step ctx ops = .error e → p.step ctx ops = .error e := by
  have hin := h.inStep hd
  obtain ⟨hp, hstate, hlogits⟩ := h.live (h.done ▸ hd)
  have hdraw : ctx.sampleNext d.choice.state d.choice.logits ctx.promptIds d.choice.generatedIds =
      ctx.sampleNext p.choice.state p.choice.logits ctx.promptIds p.choice.generatedIds := by
    rw [hstate, hlogits, h.generatedIds]
  cases hs : ctx.sampleNext p.choice.state p.choice.logits ctx.promptIds
    p.choice.generatedIds with
  | error e =>
    have he : d.step ctx ops = .error e ∧ p.step ctx ops = .error e := by
      rw [step, step, hdraw, hs]
      exact ⟨rfl, rfl⟩
    rw [he.1, he.2]
    exact ⟨fun _ he => (by cases he), fun _ he => he⟩
  | ok drawn =>
    obtain ⟨next, s⟩ := drawn
    have hs' := hdraw.trans hs
    cases next with
    | grammarComplete =>
      have hd' : ∀ q : Decoding S L P D, ctx.sampleNext q.choice.state q.choice.logits
          ctx.promptIds q.choice.generatedIds = .ok (.grammarComplete, s) →
          q.step ctx ops = .ok { q with
            choice := (q.choice.rebase s q.choice.logits q.choice.pos
              q.choice.perTokenProbs).stop .stop } := by
        intro q hq
        rw [step, hq]
        rfl
      rw [hd' d hs', hd' p hs]
      refine ⟨fun d' he => ⟨_, rfl, ?_⟩, fun _ he => (by cases he)⟩
      cases he
      refine ⟨Twin.stop ?_ _, h.pos, h.store, fun hl => Bool.noConfusion hl⟩
      exact (twin_rebase ..).trans (h.twin.trans (twin_rebase ..).symm)
    | token t probs =>
      obtain ⟨hflag, htwin⟩ := h.twin.commit ctx t
      rcases hq : p.choice.commit ctx t with ⟨flag, q⟩
      rcases hq' : d.choice.commit ctx t with ⟨flag', q'⟩
      rw [hq, hq'] at hflag htwin
      dsimp only at hflag htwin
      subst hflag
      have hnew : ∀ s l n r n' r', Twin (q'.rebase s l n r) (q.rebase s l n' r') := fun _ _ _ _ _ _ =>
        (twin_rebase ..).trans (htwin.trans (twin_rebase ..).symm)
      cases flag' with
      | stopped reason =>
        rw [step_of_stopped hs' hq', step_of_stopped hs hq]
        refine ⟨fun d' he => ⟨_, rfl, ?_⟩, fun _ he => (by cases he)⟩
        cases he
        exact ⟨(twin_rebase ..).trans (htwin.trans (twin_rebase ..).symm) |>.stop reason, h.pos,
          h.store, fun hl => Bool.noConfusion hl⟩
      | «continue» =>
        obtain ⟨r', hd1⟩ := step_of_continue hin hs' hq'
        obtain ⟨r, hp1⟩ := step_of_continue hp hs hq
        rw [hd1, hp1]
        refine ⟨fun d' he => ⟨_, rfl, ?_⟩, fun _ he => (by cases he)⟩
        cases he
        rw [h.pos, h.store]
        refine ⟨hnew .., rfl, rfl, fun hl => ⟨⟨hl, ?_, rfl⟩, rfl, rfl⟩⟩
        show p.choice.pos + 1 = (p.engine.store ++ [t]).length
        rw [List.length_append, hp.pos, List.length_singleton]

theorem checkBudget_same (ctx : StepContext S L P E) (h : Same ops d p) :
    (d.choice.checkBudget ctx.params).1 = (p.choice.checkBudget ctx.params).1 ∧
      Same ops { d with choice := (d.choice.checkBudget ctx.params).2 }
        { p with choice := (p.choice.checkBudget ctx.params).2 } := by
  rw [checkBudget, checkBudget, h.done, h.generatedIds]
  split
  · exact ⟨rfl, h⟩
  split
  · exact ⟨rfl, h.twin.stop _, h.pos, h.store, fun hl => Bool.noConfusion hl⟩
  split
  · exact ⟨rfl, h.twin.stop _, h.pos, h.store, fun hl => Bool.noConfusion hl⟩
  · exact ⟨rfl, h⟩

/-- Ordinary runs from the same boundary stay the same. -/
theorem rounds_same (ctx : StepContext S L P E) (h : Same ops d p) (n : ℕ) :
    (∀ d', d.rounds ctx ops 0 n = .ok d' →
        ∃ p', p.rounds ctx ops 0 n = .ok p' ∧ Same ops d' p') ∧
      ∀ e, d.rounds ctx ops 0 n = .error e → p.rounds ctx ops 0 n = .error e := by
  induction n generalizing d p with
  | zero =>
    refine ⟨fun d' he => ⟨p, rfl, ?_⟩, fun _ he => (nomatch he)⟩
    cases he
    exact h
  | succ n ih =>
    obtain ⟨hflag, hsame⟩ := checkBudget_same ctx h
    cases hc : (p.choice.checkBudget ctx.params).1 with
    | false =>
      rw [rounds_of_ended hc, rounds_of_ended (hflag.trans hc)]
      refine ⟨fun d' he => ⟨_, rfl, ?_⟩, fun _ he => (nomatch he)⟩
      cases he
      exact hsame
    | true =>
      have hd := (checkBudget_eq_true (hflag.trans hc)).2.1
      rw [rounds_succ hc, rounds_succ (hflag.trans hc)]
      obtain ⟨hok, herr⟩ := step_same ctx h hd
      constructor
      · intro d' he
        obtain ⟨d1, hd1, hrest⟩ := bind_eq_ok.mp he
        obtain ⟨p1, hp1, hs1⟩ := hok d1 hd1
        obtain ⟨p', hp', hs'⟩ := (ih hs1).1 d' hrest
        exact ⟨p', bind_eq_ok.mpr ⟨p1, hp1, hp'⟩, hs'⟩
      · intro e he
        rcases bind_eq_error.mp he with he | ⟨d1, hd1, hrest⟩
        · exact bind_eq_error.mpr (Or.inl (herr e he))
        · obtain ⟨p1, hp1, hs1⟩ := hok d1 hd1
          exact bind_eq_error.mpr (Or.inr ⟨p1, hp1, (ih hs1).2 e hrest⟩)

/-- The block a round feeds, when there is one. -/
def draftedBlock (ctx : StepContext S L P E) (ops : EngineOps L D) (draftMax : ℕ)
    (d : Decoding S L P D) : Option (List (ℕ × L)) :=
  let room := ctx.params.maxTokens - d.choice.generatedIds.length - 1
  let drafted := d.engine.draft ops d.choice.generatedIds (min draftMax room)
  if room = 0 ∨ drafted.1.isEmpty then none
  else (drafted.2.batch ops drafted.1 d.choice.pos).map fun fed => drafted.1.zip fed.1

/-- A round drafts nothing, or a block that the budget has room for. -/
theorem speculate_cases (hin : d.InStep ops) :
    (d.draftedBlock ctx ops draftMax = none ∧ ∃ engine : Engine L D,
      engine.store = d.engine.store ∧
        d.speculate ctx ops draftMax = .ok (false, { d with engine })) ∨
      ∃ (draft : List ℕ) (engine : Engine L D),
        d.choice.generatedIds.length + draft.length < ctx.params.maxTokens ∧
        engine.store = d.engine.store ++ draft ∧
        d.draftedBlock ctx ops draftMax = some (draftPairs ops d.engine.store draft) ∧
        d.speculate ctx ops draftMax =
          verifyBlock ctx d.choice.state d.choice.logits d.choice.generatedIds
            (draftPairs ops d.engine.store draft) >>= fun verified =>
            .ok (true, d.settle ctx ops draft engine verified.1 verified.2) := by
  rw [draftedBlock, speculate]
  by_cases hroom : ctx.params.maxTokens - d.choice.generatedIds.length - 1 = 0
  · left
    rw [if_pos (Or.inl hroom)]
    exact ⟨rfl, d.engine, rfl, if_pos hroom⟩
  have hdraft : ∀ n, (d.engine.draft ops d.choice.generatedIds n).1.length ≤ n := by
    intro n
    rw [Engine.draft, List.length_take]
    exact Nat.min_le_left _ _
  have hstore : ∀ n, (d.engine.draft ops d.choice.generatedIds n).2.store = d.engine.store :=
    fun _ => rfl
  dsimp only
  rw [if_neg hroom]
  generalize hn : min draftMax (ctx.params.maxTokens - d.choice.generatedIds.length - 1) = n
  have hle := hdraft n
  have hs := hstore n
  generalize d.engine.draft ops d.choice.generatedIds n = drafted at hle hs
  obtain ⟨draft, engine⟩ := drafted
  dsimp only at hle hs ⊢
  by_cases hempty : draft.isEmpty = true
  · left
    rw [if_pos (Or.inr hempty), if_pos hempty]
    exact ⟨rfl, engine, hs, rfl⟩
  rw [if_neg (by simp [hroom, hempty]), if_neg hempty, Engine.batch]
  split
  swap
  · exact Or.inl ⟨rfl, engine, hs, rfl⟩
  right
  have hfront : engine.store.take d.choice.pos = d.engine.store := by
    rw [hs, hin.pos, List.take_length]
  refine ⟨draft, { engine with store := d.engine.store ++ draft }, by omega, rfl, ?_, ?_⟩
  · rw [hfront]
    exact congrArg some (zip_rows d.engine.store draft)
  · rw [hfront]
    dsimp only
    rw [zip_rows]

/-- The store once the rejected drafts are dropped. -/
theorem kept_rows {store draft tokens : List ℕ} {accepted j : ℕ}
    (htake : tokens.take accepted = draft.take accepted) (hj : j ≤ accepted) :
    (store ++ draft).take (store.length + j) = store ++ tokens.take j := by
  have h := congrArg (List.take j) htake
  rw [List.take_take, List.take_take, Nat.min_eq_left hj] at h
  rw [List.take_length_add_append, h]

/-- A round that commits a block is at least one ordinary step. -/
theorem settle_same {draft : List ℕ} {engine : Engine L D} {block : VerifiedBlock} {s : S}
    (hin : d.InStep ops) (hcan : ctx.params.isCancelled = false)
    (hb : d.choice.generatedIds.length + draft.length < ctx.params.maxTokens)
    (hstore : engine.store = d.engine.store ++ draft)
    (hv : verifyBlock ctx d.choice.state d.choice.logits d.choice.generatedIds
      (draftPairs ops d.engine.store draft) = .ok (block, s)) :
    ∃ n p', d.rounds ctx ops 0 (n + 1) = .ok p' ∧
      Same ops (d.settle ctx ops draft engine block s) p' := by
  obtain ⟨hacc, htake, hlen⟩ := verifyBlock_spec hv
  rw [map_fst_draftPairs] at htake
  have hdraft : (draftPairs ops d.engine.store draft).length = draft.length := by
    rw [← List.length_map (f := Prod.fst), map_fst_draftPairs]
  rw [hdraft] at hacc
  have hwalk : ∃ n p', d.rounds ctx ops 0 (n + 1) = .ok p' ∧
      WalkEnd ops d p' block s block.accepted 0
        { d.choice with state := s, pos := d.choice.pos + block.accepted }
        (commitBlock ctx block.accepted 0 block.tokens none
          { d.choice with state := s, pos := d.choice.pos + block.accepted }) :=
    walk hin hcan hb hv (twin_rebase ..)
  obtain ⟨n, p', hrun, hend⟩ := hwalk
  refine ⟨n, p', hrun, ?_⟩
  obtain ⟨hstate, hpos⟩ := commitBlock_fields ctx block.accepted 0 block.tokens none
    { d.choice with state := s, pos := d.choice.pos + block.accepted }
  rw [settle]
  have hobs : (engine.observe ops block.accepted block.drafted).store = d.engine.store ++ draft :=
    hstore
  generalize engine.observe ops block.accepted block.drafted = observed at hobs
  have hcut : (if block.accepted < draft.length then
      observed.truncate (d.choice.pos + block.accepted) else observed).store =
      d.engine.store ++ block.tokens.take block.accepted := by
    split
    · rw [Engine.truncate, hobs, hin.pos]
      exact kept_rows htake le_rfl
    · rename_i hle
      rw [hobs, htake, List.take_of_length_le (Nat.le_of_not_lt hle)]
  dsimp only
  generalize (if block.accepted < draft.length then
    observed.truncate (d.choice.pos + block.accepted) else observed) = cut at hcut
  generalize commitBlock ctx block.accepted 0 block.tokens none
    { d.choice with state := s, pos := d.choice.pos + block.accepted } = r at hend hstate hpos
  obtain ⟨_ | ⟨reason, kept⟩, last, c'⟩ := r
  · obtain ⟨htokens, hrest⟩ := hend
    dsimp only at hstate hpos ⊢
    by_cases hcomplete : block.grammarComplete = true
    · rw [if_pos hcomplete] at hrest ⊢
      rw [if_pos hcomplete, Nat.add_zero] at hlen
      obtain ⟨q, hp', htwin, hq⟩ := hrest
      rw [List.take_of_length_le hlen.le] at hcut
      have hdone : p'.choice.done = true := by
        rw [hp']
        rfl
      refine ⟨hp' ▸ htwin.stop .stop, ?_, hcut.trans htokens.symm, fun hl => ?_⟩
      · rw [hp']
        show c'.pos = q.pos
        rw [hpos, hq, htokens, List.length_append, hin.pos, hlen]
      · rw [hdone] at hl
        cases hl
    · rw [if_neg hcomplete] at hrest hlen ⊢
      obtain ⟨hin', htwin, hs, t, rfl, hlast⟩ := hrest
      have hsplit : block.tokens.take block.accepted ++ [t] = block.tokens := by
        have hd := List.dropLast_append_getLast? t hlast
        rwa [List.dropLast_eq_take, hlen, Nat.add_sub_cancel] at hd
      have hfed : cut.store.take c'.pos ++ [t] = p'.engine.store := by
        rw [htokens, ← hsplit, ← List.append_assoc, hcut, hpos, hin.pos]
        congr 1
        apply List.take_of_length_le
        rw [List.length_append, List.length_take]
        omega
      dsimp only [Engine.step]
      rw [hfed]
      refine ⟨(twin_rebase ..).trans htwin, ?_, rfl, fun _ => ⟨hin', hstate.trans hs.symm,
        hin'.logits.symm⟩⟩
      show c'.pos + 1 = p'.choice.pos
      rw [hin'.pos, htokens, hpos, List.length_append, hin.pos, hlen, Nat.add_assoc]
  · obtain ⟨j, q, hj, hkept, hp', htwin, hq, htokens⟩ := hend
    have hk : kept = d.engine.store.length + j := by
      rw [hkept, Nat.zero_add, Nat.min_eq_left hj]
      show d.choice.pos + block.accepted - block.accepted + j = _
      rw [Nat.add_sub_cancel, hin.pos]
    have hdone : p'.choice.done = true := by
      rw [hp']
      rfl
    have hrows : cut.store.take kept = p'.engine.store := by
      rw [hcut, htokens, hk]
      have hself : block.tokens.take block.accepted =
          (block.tokens.take block.accepted).take block.accepted := by
        rw [List.take_take, Nat.min_self]
      exact kept_rows hself hj
    refine ⟨?_, ?_, hrows, fun hl => ?_⟩
    · rw [hp']
      exact ((twin_rebase ..).trans htwin).stop reason
    · rw [hp']
      show kept = q.pos
      rw [hq, hk, htokens, List.length_append, List.length_take]
      omega
    · rw [hdone] at hl
      cases hl

end Decoding

end Frink.Decode
