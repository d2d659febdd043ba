import Frink.Speculative.Decode

/-! # What a speculative run leaves

The caches of a run hold its context, its prompt and every generated token except the
last, as long as the observer says stop at an anchor. A stop inside a block leaves
the rest of the block behind in them.
-/

namespace Frink.Speculative

open Kv

variable {σ K α β : Type} [Field K] [LinearOrder K]

/-- On caches that hold a context the batch answers for each of its tokens, and every cache is
fed and evicted. -/
def Computes (t : Target K α β) (decoder : Decoder K α β) : Prop :=
  ∀ ctx tokens (kvCaches : List (KvCache α β)), tokens ≠ [] →
    (∀ l c, kvCaches[l]? = some c → t.Holds l ctx c) →
    decoder.forwardBatchWithHidden tokens ctx.length kvCaches =
      (((grown ctx tokens).map t.logits, (grown ctx tokens).map t.hidden),
        kvCaches.mapIdx fun l c => evictLayerKv (t.window l) (t.feed l c (grown ctx tokens)))

def Drafter.Honest (drafter : Drafter σ K) : Prop :=
  ∀ drafting history hidden maxLen, (drafter.propose drafting history hidden maxLen).1.Honest

variable (t : Target K α β) (options : SpeculativeOptions K) (onToken : OnToken)
  (ctx prompt : List ℕ)

/-- Plain greedy decoding, one token at a time, until the observer says stop. -/
def plainGreedy : ℕ → List ℕ → List ℕ
  | 0, generated => generated
  | fuel + 1, generated =>
      let token :=
        options.sampling.greedyToken (t.logits (ctx ++ prompt ++ generated)) prompt generated
      if onToken generated token then plainGreedy fuel (generated ++ [token])
      else generated ++ [token]

/-- Every cache holds the context, the prompt and all generated tokens but the last; the observer
saw what is returned; greedy options give the plain greedy tokens. -/
structure Contract (drafter : Drafter σ K) (o : Outcome σ α β) : Prop where
  positions : ∀ c ∈ o.kvCaches,
    c.positions = options.startPos + prompt.length + o.result.generatedTokens.length - 1
  rows : ∀ l c, o.kvCaches[l]? = some c →
    t.Holds l (ctx ++ prompt ++ o.result.generatedTokens.dropLast) c
  bounded : o.result.generatedTokens.length ≤ options.maxNewTokens
  observed : o.observed = o.result.generatedTokens
  greedy : options.sampling.Greedy → drafter.Honest →
    o.result.generatedTokens = plainGreedy t options onToken ctx prompt options.maxNewTokens []

/-- The tokens of a run under `greedy` follow the plain greedy ones, to the stop if there is
one. -/
structure Kept (greedy : Prop) (s : Run σ K α β) : Prop where
  history : s.history = prompt ++ s.generated
  length_le : s.generated.length ≤ options.maxNewTokens
  going : s.stopAt = none → s.observed = s.generated ∧ (greedy →
    plainGreedy t options onToken ctx prompt options.maxNewTokens [] =
      plainGreedy t options onToken ctx prompt (options.maxNewTokens - s.generated.length)
        s.generated)
  stopped : ∀ n, s.stopAt = some n → 0 < n ∧ n ≤ s.generated.length ∧
    s.observed = s.generated.take n ∧ (greedy →
      plainGreedy t options onToken ctx prompt options.maxNewTokens [] = s.generated.take n)

variable {t options onToken ctx prompt} {greedy : Prop} {s s' : Run σ K α β} {token : ℕ}

section Commit

omit [Field K] [LinearOrder K]

@[simp] theorem commit_history : (s.commit onToken token).history = s.history ++ [token] := by
  cases h : s.stopAt <;> simp [Run.commit, h]

@[simp] theorem commit_generated :
    (s.commit onToken token).generated = s.generated ++ [token] := by
  cases h : s.stopAt <;> simp [Run.commit, h]

@[simp] theorem commit_kvCaches : (s.commit onToken token).kvCaches = s.kvCaches := by
  cases h : s.stopAt <;> simp [Run.commit, h]

@[simp] theorem commit_drafter : (s.commit onToken token).drafter = s.drafter := by
  cases h : s.stopAt <;> simp [Run.commit, h]

@[simp] theorem commit_pending : (s.commit onToken token).pending = s.pending := by
  cases h : s.stopAt <;> simp [Run.commit, h]

@[simp] theorem commit_pos : (s.commit onToken token).pos = s.pos := by
  cases h : s.stopAt <;> simp [Run.commit, h]

variable (onToken token) in
theorem commit_stopAt_some {n : ℕ} (h : s.stopAt = some n) :
    (s.commit onToken token).stopAt = some n ∧
      (s.commit onToken token).observed = s.observed := by
  simp [Run.commit, h]

variable (onToken token) in
theorem commit_stopAt_none (h : s.stopAt = none) :
    (s.commit onToken token).observed = s.observed ++ [token] ∧
      (s.commit onToken token).stopAt =
        if onToken s.observed token then none else some (s.generated.length + 1) := by
  simp [Run.commit, h]

end Commit

theorem plainGreedy_step {n : ℕ} {generated : List ℕ}
    (h : token =
      options.sampling.greedyToken (t.logits (ctx ++ prompt ++ generated)) prompt generated) :
    plainGreedy t options onToken ctx prompt (n + 1) generated =
      if onToken generated token then
        plainGreedy t options onToken ctx prompt n (generated ++ [token])
      else generated ++ [token] := by
  rw [plainGreedy, ← h]

/-- Committing the greedy token keeps pace with plain decoding. -/
theorem Kept.commit (h : Kept t options onToken ctx prompt greedy s) (token : ℕ)
    (hroom : s.generated.length < options.maxNewTokens)
    (htoken : greedy → token = options.sampling.greedyToken
      (t.logits (ctx ++ prompt ++ s.generated)) prompt s.generated) :
    Kept t options onToken ctx prompt greedy (s.commit onToken token) := by
  have hlen : (s.commit onToken token).generated.length = s.generated.length + 1 := by simp
  cases hstop : s.stopAt with
  | some n =>
    obtain ⟨hpos, hle, hseen, hplain⟩ := h.stopped n hstop
    obtain ⟨hstop', hseen'⟩ := commit_stopAt_some onToken token hstop
    have htake : (s.generated ++ [token]).take n = s.generated.take n :=
      List.take_append_of_le_length hle
    refine ⟨by simp [h.history], by omega, fun hnone => ?_, fun m hm => ?_⟩
    · cases hstop'.symm.trans hnone
    · obtain rfl : n = m := Option.some.inj (hstop'.symm.trans hm)
      rw [hseen', commit_generated, htake]
      exact ⟨hpos, by simp; omega, hseen, hplain⟩
  | none =>
    obtain ⟨hseen, hplain⟩ := h.going hstop
    obtain ⟨hseen', hstop'⟩ := commit_stopAt_none onToken token hstop
    have hstep : greedy → plainGreedy t options onToken ctx prompt options.maxNewTokens [] =
        if onToken s.generated token then
          plainGreedy t options onToken ctx prompt
            (options.maxNewTokens - (s.generated.length + 1)) (s.generated ++ [token])
        else s.generated ++ [token] := by
      intro hg
      have hfuel : options.maxNewTokens - s.generated.length =
          options.maxNewTokens - (s.generated.length + 1) + 1 := by omega
      rw [hplain hg, hfuel, plainGreedy_step (htoken hg)]
    refine ⟨by simp [h.history], by omega, fun hnone => ?_, fun m hm => ?_⟩
    · have hyes : onToken s.generated token = true := by
        by_contra hno
        rw [hstop', hseen, if_neg hno] at hnone
        cases hnone
      refine ⟨by rw [hseen', hseen, commit_generated], fun hg => ?_⟩
      rw [hstep hg, if_pos hyes, hlen, commit_generated]
    · have hno : onToken s.generated token = false := by
        by_contra hyes
        rw [hstop', hseen, if_pos (by simpa using hyes)] at hm
        cases hm
      rw [hstop', hseen, hno] at hm
      obtain rfl : s.generated.length + 1 = m := by simpa using hm
      have htake : (s.generated ++ [token]).take (s.generated.length + 1) =
          s.generated ++ [token] := List.take_of_length_le (by simp)
      rw [hseen', hseen, commit_generated, htake]
      refine ⟨Nat.succ_pos _, by simp, rfl, fun hg => ?_⟩
      rw [hstep hg, hno]
      rfl

theorem Kept.take_history (h : Kept t options onToken ctx prompt greedy s) :
    s.history.take prompt.length = prompt := by
  rw [h.history, List.take_left]

theorem Kept.drop_history (h : Kept t options onToken ctx prompt greedy s) :
    s.history.drop prompt.length = s.generated := by
  rw [h.history, List.drop_left]

/-- What verifying a block behind `anchored` leaves: the first `accepted` of its tokens joined, and
the replacement is the greedy one. -/
structure Verified (t : Target K α β) (options : SpeculativeOptions K) (onToken : OnToken)
    (ctx prompt : List ℕ) (greedy : Prop) (anchored tokens : List ℕ) (s s' : Run σ K α β)
    (accepted : ℕ) (replacement : Option ℕ) : Prop where
  kept : Kept t options onToken ctx prompt greedy s'
  accepted_le : accepted ≤ tokens.length
  generated : s'.generated = anchored ++ tokens.take accepted
  kvCaches : s'.kvCaches = s.kvCaches
  pos : s'.pos = s.pos
  full : replacement = none → accepted = tokens.length
  replaced : greedy → ∀ x, replacement = some x → x = options.sampling.greedyToken
    (t.logits (ctx ++ prompt ++ s'.generated)) prompt s'.generated

section Verify

variable [IsStrictOrderedRing K] {anchored tokens : List ℕ} {dists : List (DraftDist K)}
  {batchLogits : List (List K)}

/-- One judged token, kept or replaced, is the greedy one under greedy options. -/
theorem judged {dist : DraftDist K} {rng rng' : Sampler} {verdict : Option ℕ} {logits : List K}
    (h : Kept t options onToken ctx prompt greedy s) (hg : options.sampling.Greedy)
    (hq : dist.Honest token)
    (hacc : acceptOrResample (options.sampling.samplingDistribution logits
      (s.history.take prompt.length) (s.history.drop prompt.length)
      (options.sampling.xtcRoll rng).1) dist token (options.sampling.xtcRoll rng).2 =
        (verdict, rng')) :
    verdict.getD token = options.sampling.greedyToken logits prompt s.generated := by
  rw [h.take_history, h.drop_history, hg.xtcRoll] at hacc
  obtain ⟨hkeep, hreplace⟩ :=
    hg.accept logits prompt s.generated rng hq
  dsimp only at hacc
  rw [hacc] at hkeep hreplace
  cases verdict with
  | none => exact hkeep rfl
  | some x => exact hreplace x rfl

theorem verifyDrafts_spec (hdists : tokens.length = dists.length)
    (hroom : anchored.length + tokens.length < options.maxNewTokens)
    (hlogits : ∀ i ≤ tokens.length, batchLogits[i]? =
      some (t.logits (ctx ++ prompt ++ (anchored ++ tokens.take i))))
    (hgreedy : greedy → options.sampling.Greedy ∧ ∀ p ∈ tokens.zip dists, p.2.Honest p.1)
    {drafts : List (ℕ × DraftDist K)} {i : ℕ} (hi : i ≤ tokens.length)
    (hdrafts : drafts = (tokens.zip dists).drop i)
    (h : Kept t options onToken ctx prompt greedy s)
    (hgen : s.generated = anchored ++ tokens.take i) :
    ∃ s' accepted replacement,
      verifyDrafts options prompt.length onToken batchLogits i drafts s =
        .ok (s', accepted, replacement) ∧
      Verified t options onToken ctx prompt greedy anchored tokens s s' accepted replacement := by
  induction drafts generalizing i s with
  | nil =>
    have hend : i = tokens.length := by
      have hlen := congrArg List.length hdrafts
      simp at hlen
      omega
    exact ⟨s, i, none, rfl, h, hi, hgen, rfl, rfl, fun _ => hend, fun _ _ h => by cases h⟩
  | cons draft drafts ih =>
    obtain ⟨token, dist⟩ := draft
    have hlt : i < tokens.length := by
      by_contra hge
      rw [List.drop_of_length_le (by simp; omega)] at hdrafts
      cases hdrafts
    have hmem : (token, dist) ∈ tokens.zip dists :=
      List.mem_of_mem_drop (hdrafts ▸ List.mem_cons_self)
    have hcell : (tokens.zip dists)[i]? = some (token, dist) := by
      rw [← List.head?_drop, ← hdrafts]
      rfl
    have htoken : tokens[i]? = some token := (List.getElem?_zip_eq_some.mp hcell).1
    have hrest : drafts = (tokens.zip dists).drop (i + 1) := by
      rw [← List.tail_drop, ← hdrafts]
      rfl
    have hsnoc : tokens.take (i + 1) = tokens.take i ++ [token] := by
      rw [List.take_add_one, htoken]
      rfl
    unfold verifyDrafts
    rw [tryGet, hlogits i hi]
    dsimp only [Except.bind, bind]
    rcases hacc : acceptOrResample _ dist token _ with ⟨_ | resampled, rng⟩
    · dsimp only
      have hkept : Kept t options onToken ctx prompt greedy
          { s with rng := rng, result := s.result.recordPosition i true } :=
        ⟨h.history, h.length_le, h.going, h.stopped⟩
      obtain ⟨s', accepted, replacement, hrun, hv⟩ := ih (i := i + 1) hlt hrest
        (hkept.commit token (by simp [hgen]; omega) fun hg => by
          have hj := judged h (hgreedy hg).1 ((hgreedy hg).2 _ hmem) hacc
          rw [← hgen] at hj
          exact hj)
        (by simp [hgen, hsnoc])
      exact ⟨s', accepted, replacement, hrun, hv.kept, hv.accepted_le, hv.generated,
        hv.kvCaches.trans (by simp), hv.pos.trans (by simp), hv.full, hv.replaced⟩
    · refine ⟨_, i, some resampled, rfl, ⟨h.history, h.length_le, h.going, h.stopped⟩, hi, hgen,
        rfl, rfl, by rintro ⟨⟩, fun hg x hx => ?_⟩
      obtain rfl := Option.some.inj hx
      have hj := judged h (hgreedy hg).1 ((hgreedy hg).2 _ hmem) hacc
      rw [← hgen] at hj
      exact hj

end Verify

section Caches

omit [Field K] [LinearOrder K]

theorem truncateAll_ok {kvCaches : List (KvCache α β)} {n : ℕ} {P : ℕ → KvCache α β → Prop}
    (h : ∀ l c, kvCaches[l]? = some c → ∃ d, c.truncate n = some d ∧ P l d) :
    ∃ ds, truncateAll n kvCaches = .ok ds ∧ ds.length = kvCaches.length ∧
      ∀ l d, ds[l]? = some d → P l d := by
  induction kvCaches generalizing P with
  | nil => exact ⟨[], rfl, rfl, nofun⟩
  | cons c kvCaches ih =>
    obtain ⟨d, hd, hP⟩ := h 0 c rfl
    obtain ⟨ds, hds, hlen, hall⟩ := ih (P := fun l => P (l + 1)) fun l c hc => h (l + 1) c hc
    refine ⟨d :: ds, ?_, by simp [hlen], ?_⟩
    · rw [truncateAll, hd, hds]
      rfl
    · rintro (_ | l) x hx
      · obtain rfl := Option.some.inj hx
        exact hP
      · exact hall l x hx

theorem draftBudget_le {c : KvCache α β} {maxNewTokens : ℕ} (hc : c ∈ s.kvCaches) :
    draftBudget maxNewTokens s ≤ c.rollbackLimit := by
  have hmem : c.rollbackLimit ∈ s.kvCaches.map (·.rollbackLimit) := List.mem_map_of_mem hc
  obtain ⟨least, hleast⟩ := Option.isSome_iff_exists.mp (List.isSome_min?_of_mem hmem)
  unfold draftBudget
  rw [hleast]
  exact (min_le_right _ _).trans ((List.min?_eq_some_iff.mp hleast).2 _ hmem)

end Caches

/-- Between two rounds. -/
structure Live (t : Target K α β) (options : SpeculativeOptions K) (onToken : OnToken)
    (ctx prompt : List ℕ) (greedy : Prop) (count : ℕ) (s : Run σ K α β) : Prop where
  kept : Kept t options onToken ctx prompt greedy s
  going : s.stopAt = none
  room : s.generated.length < options.maxNewTokens
  pos : s.pos = (ctx ++ prompt ++ s.generated).length
  caches : ∀ l c, s.kvCaches[l]? = some c →
    t.Holds l (ctx ++ prompt ++ s.generated) c ∧ t.Armed l c
  count : s.kvCaches.length = count
  pending : greedy → s.pending =
    options.sampling.greedyToken (t.logits (ctx ++ prompt ++ s.generated)) prompt s.generated

/-- The observer says stop at a token accepted from the draft of this round. -/
def StopsInBlock (options : SpeculativeOptions K) (promptLen : ℕ) (decoder : Decoder K α β)
    (drafter : Drafter σ K) (onToken : OnToken) (s : Run σ K α β) : Prop :=
  let s := s.commit onToken s.pending
  s.stopAt = none ∧ s.generated.length ≠ options.maxNewTokens ∧
    let (draft, batchLogits, _, s) := dispatch options decoder drafter s
    ∃ s' accepted replacement,
      verifyDrafts options promptLen onToken batchLogits 0 (draft.tokens.zip draft.dists) s =
        .ok (s', accepted, replacement) ∧ s'.stopAt ≠ none

section Round

variable [IsStrictOrderedRing K] {decoder : Decoder K α β} {drafter : Drafter σ K} {count : ℕ}

omit [IsStrictOrderedRing K] in
theorem Live.next (h : Live t options onToken ctx prompt greedy count s) :
    Kept t options onToken ctx prompt greedy (s.commit onToken s.pending) :=
  h.kept.commit s.pending h.room h.pending

/-- The batched call of a round. -/
structure Dispatched (t : Target K α β) (options : SpeculativeOptions K) (ctx prompt : List ℕ)
    (s₁ : Run σ K α β) (draft : DraftBlock K) (batchLogits batchHidden : List (List K))
    (s₂ : Run σ K α β) : Prop where
  room : s₁.generated.length + draft.tokens.length < options.maxNewTokens
  logits : ∀ i ≤ draft.tokens.length, batchLogits[i]? =
    some (t.logits (ctx ++ prompt ++ (s₁.generated ++ draft.tokens.take i)))
  hidden : ∀ i ≤ draft.tokens.length, (batchHidden[i]?).isSome
  kvCaches : ∀ l c, s₂.kvCaches[l]? = some c →
    (t.Holds l (ctx ++ prompt ++ (s₁.generated ++ draft.tokens)) c ∧ t.Armed l c) ∧
    ∀ n ≤ draft.tokens.length, ∃ d, c.truncate (s₁.pos + 1 + n) = some d ∧
      t.Holds l (ctx ++ prompt ++ (s₁.generated ++ draft.tokens.take n)) d ∧ t.Armed l d
  count : s₂.kvCaches.length = s₁.kvCaches.length
  generated : s₂.generated = s₁.generated
  history : s₂.history = s₁.history
  observed : s₂.observed = s₁.observed
  stopAt : s₂.stopAt = s₁.stopAt
  pos : s₂.pos = s₁.pos

omit [IsStrictOrderedRing K] [Field K] [LinearOrder K] in
theorem DraftBlock.Honest.truncate [Field K] [LinearOrder K] {block : DraftBlock K}
    (h : block.Honest) (n : ℕ) : (block.truncate n).Honest := by
  intro p hp
  have hzip : (block.truncate n).tokens.zip (block.truncate n).dists =
      (block.tokens.zip block.dists).take n := (List.take_zipWith ..).symm
  rw [hzip] at hp
  exact h p (List.mem_of_mem_take hp)

variable (drafter) in
omit [IsStrictOrderedRing K] in
theorem Live.dispatch (hcomp : Computes t decoder)
    (h : Live t options onToken ctx prompt greedy count s)
    (hmore : (s.commit onToken s.pending).generated.length ≠ options.maxNewTokens) :
    ∃ draft batchLogits batchHidden s₂,
      Speculative.dispatch options decoder drafter (s.commit onToken s.pending) =
        (draft, batchLogits, batchHidden, s₂) ∧
      Dispatched t options ctx prompt (s.commit onToken s.pending) draft batchLogits batchHidden
        s₂ ∧
      (drafter.Honest → draft.Honest) := by
  set s₁ := s.commit onToken s.pending with hs₁
  have hgen : s₁.generated = s.generated ++ [s.pending] := commit_generated
  have hcaches : s₁.kvCaches = s.kvCaches := commit_kvCaches
  have hpend : s₁.pending = s.pending := commit_pending
  have hpos : s₁.pos = (ctx ++ prompt ++ s.generated).length := commit_pos.trans h.pos
  have hlen : s₁.generated.length = s.generated.length + 1 := by rw [hgen]; simp
  have hroom := h.room
  generalize hbudget : draftBudget options.maxNewTokens s₁ = budget
  have hfits : budget ≤ options.maxNewTokens - s₁.generated.length - 1 :=
    hbudget ▸ min_le_left _ _
  rcases hprop : drafter.propose s₁.drafter s₁.history s₁.targetHidden budget with
    ⟨proposed, drafting⟩
  set tokens := (proposed.truncate budget).tokens with htokens
  have hshort : tokens.length ≤ budget := List.length_take_le _ _
  have hcat : ∀ n, ctx ++ prompt ++ s.generated ++ (s.pending :: tokens).take (n + 1) =
      ctx ++ prompt ++ (s₁.generated ++ tokens.take n) := by simp [hgen]
  have hcall := hcomp (ctx ++ prompt ++ s.generated) (s.pending :: tokens) s.kvCaches
    (List.cons_ne_nil _ _) fun l c hc => (h.caches l c hc).1
  have hdispatch : Speculative.dispatch options decoder drafter s₁ =
      (proposed.truncate budget,
        (grown (ctx ++ prompt ++ s.generated) (s.pending :: tokens)).map t.logits,
        (grown (ctx ++ prompt ++ s.generated) (s.pending :: tokens)).map t.hidden,
        { s₁ with
          drafter := drafting
          kvCaches := s.kvCaches.mapIdx fun l c => evictLayerKv (t.window l)
            (t.feed l c (grown (ctx ++ prompt ++ s.generated) (s.pending :: tokens)))
          result := { s₁.result with
            forwardCalls := s₁.result.forwardCalls + 1
            verificationSteps := s₁.result.verificationSteps + 1 } }) := by
    simp only [Speculative.dispatch, hbudget, hprop, hpend, hpos, hcaches, ← htokens, hcall]
  have hfull : s₁.generated.length + tokens.length < options.maxNewTokens := by omega
  refine ⟨_, _, _, _, hdispatch, ⟨hfull, fun i hi => ?_, fun i hi => ?_, fun l c hc => ?_, ?_,
    rfl, rfl, rfl, rfl, rfl⟩, fun hd => ?_⟩
  · rw [List.getElem?_map, getElem?_grown (Nat.lt_succ_of_le hi), hcat]
    rfl
  · rw [List.getElem?_map, getElem?_grown (Nat.lt_succ_of_le hi)]
    rfl
  · rw [List.getElem?_mapIdx] at hc
    obtain ⟨c₀, hc₀, rfl⟩ := Option.map_eq_some_iff.mp hc
    obtain ⟨hheld, harmed⟩ := h.caches l c₀ hc₀
    have hlimit : draftBudget options.maxNewTokens s₁ ≤ c₀.rollbackLimit :=
      draftBudget_le (hcaches ▸ List.mem_of_getElem? hc₀)
    have hall : ctx ++ prompt ++ s.generated ++ s.pending :: tokens =
        ctx ++ prompt ++ (s₁.generated ++ tokens) := by simp [hgen]
    refine ⟨hall ▸ (hheld.feed (s.pending :: tokens)).evict, fun n hn => ?_⟩
    have hback := hheld.rollback harmed (s.pending :: tokens) (n := n + 1)
      (Nat.succ_le_succ hn) (by rw [List.length_cons]; omega)
    rw [hcat, ← hpos, Nat.add_comm n 1, ← Nat.add_assoc] at hback
    exact hback
  · simp [hcaches]
  · have hhonest := hd s₁.drafter s₁.history s₁.targetHidden budget
    rw [hprop] at hhonest
    exact hhonest.truncate budget

/-- What is left of a round once its block is settled. -/
structure Settled (t : Target K α β) (options : SpeculativeOptions K) (onToken : OnToken)
    (ctx prompt : List ℕ) (greedy : Prop) (count : ℕ) (s₃ s₄ : Run σ K α β) : Prop where
  kept : Kept t options onToken ctx prompt greedy s₄
  stopAt : s₄.stopAt = s₃.stopAt
  generated : s₄.generated = s₃.generated
  room : s₄.generated.length < options.maxNewTokens
  pos : s₄.pos = (ctx ++ prompt ++ s₄.generated).length
  caches : ∀ l c, s₄.kvCaches[l]? = some c →
    t.Holds l (ctx ++ prompt ++ s₄.generated) c ∧ t.Armed l c
  count : s₄.kvCaches.length = count
  pending : greedy → s₄.pending =
    options.sampling.greedyToken (t.logits (ctx ++ prompt ++ s₄.generated)) prompt s₄.generated

theorem sampleNext_greedy (hg : options.sampling.Greedy)
    (h : Kept t options onToken ctx prompt greedy s) (logits : List K) :
    (sampleNext options prompt.length logits s.history s.rng).1 =
      options.sampling.greedyToken logits prompt s.generated := by
  unfold sampleNext
  rw [hg.xtcRoll, h.take_history, h.drop_history]
  exact hg.sampleFrom s.rng

theorem Verified.settle {s₁ s₂ s₃ : Run σ K α β} {draft : DraftBlock K}
    {batchLogits batchHidden : List (List K)} {accepted : ℕ} {replacement : Option ℕ}
    (hv : Verified t options onToken ctx prompt greedy s₁.generated draft.tokens s₂ s₃ accepted
      replacement)
    (hd : Dispatched t options ctx prompt s₁ draft batchLogits batchHidden s₂)
    (hpos : s₁.pos + 1 = (ctx ++ prompt ++ s₁.generated).length)
    (hg : greedy → options.sampling.Greedy) :
    ∃ s₄, Speculative.settle options prompt.length batchLogits batchHidden draft.tokens.length
        accepted replacement s₃ = .ok s₄ ∧
      Settled t options onToken ctx prompt greedy s₁.kvCaches.length s₃ s₄ := by
  have hle := hv.accepted_le
  have hlen : s₃.generated.length = s₁.generated.length + accepted := by
    rw [hv.generated, List.length_append, List.length_take, min_eq_left hle]
  have hcommitted : s₃.pos + 1 + accepted = (ctx ++ prompt ++ s₃.generated).length := by
    rw [List.length_append, hlen, hv.pos, hd.pos, hpos, List.length_append]
    omega
  obtain ⟨kvCaches, hcaches, hcount, hheld⟩ : ∃ kvCaches,
      rollBack draft.tokens.length accepted (s₃.pos + 1 + accepted) s₃.kvCaches =
        .ok kvCaches ∧
      kvCaches.length = s₃.kvCaches.length ∧ ∀ l c, kvCaches[l]? = some c →
        t.Holds l (ctx ++ prompt ++ s₃.generated) c ∧ t.Armed l c := by
    rw [hv.kvCaches, hv.pos, hd.pos, hv.generated]
    unfold rollBack
    split
    · exact truncateAll_ok fun l c hc => (hd.kvCaches l c hc).2 accepted hle
    · have hall : draft.tokens.take accepted = draft.tokens :=
        List.take_of_length_le (by omega)
      rw [hall]
      exact ⟨_, rfl, rfl, fun l c hc => (hd.kvCaches l c hc).1⟩
  obtain ⟨hidden, hhidden⟩ := Option.isSome_iff_exists.mp (hd.hidden accepted hle)
  have hlogits := hd.logits accepted hle
  rw [← hv.generated] at hlogits
  obtain ⟨next, hnext, hgreedy⟩ : ∃ next,
      nextAnchor options prompt.length batchLogits accepted replacement s₃ = .ok next ∧
      (greedy → next.1 = options.sampling.greedyToken
        (t.logits (ctx ++ prompt ++ s₃.generated)) prompt s₃.generated) := by
    unfold nextAnchor
    cases hr : replacement with
    | some x => exact ⟨_, rfl, fun h => hv.replaced h x hr⟩
    | none =>
      dsimp only
      rw [tryGet, hlogits]
      exact ⟨_, rfl, fun h => sampleNext_greedy (hg h) hv.kept _⟩
  refine ⟨{ s₃ with
      kvCaches := kvCaches
      targetHidden := hidden
      pending := next.1
      rng := next.2
      pos := s₃.pos + 1 + accepted }, ?_,
    ⟨⟨hv.kept.history, hv.kept.length_le, hv.kept.going, hv.kept.stopped⟩, rfl, rfl, ?_, hcommitted,
      hheld, ?_, hgreedy⟩⟩
  · unfold Speculative.settle
    dsimp only
    rw [hcaches]
    dsimp only [bind, Except.bind]
    rw [tryGet, hhidden]
    dsimp only
    rw [hnext]
  · have hroom := hd.room
    dsimp only
    omega
  · exact hcount.trans ((congrArg List.length hv.kvCaches).trans hd.count)

variable (drafter) in
theorem Live.round (hcomp : Computes t decoder)
    (hgreedy : greedy → options.sampling.Greedy ∧ drafter.Honest)
    (h : Live t options onToken ctx prompt greedy count s) :
    (Speculative.round options prompt.length decoder drafter onToken s =
          .ok (true, s.commit onToken s.pending) ∧
        ((s.commit onToken s.pending).stopAt = none →
          (s.commit onToken s.pending).generated.length = options.maxNewTokens) ∧
        ¬ StopsInBlock options prompt.length decoder drafter onToken s) ∨
      ∃ s₃ s₄, Speculative.round options prompt.length decoder drafter onToken s =
          .ok (s₄.stopAt.isSome, s₄) ∧
        Settled t options onToken ctx prompt greedy count s₃ s₄ ∧
        s.generated.length < s₄.generated.length ∧
        (StopsInBlock options prompt.length decoder drafter onToken s ↔ s₄.stopAt ≠ none) := by
  unfold Speculative.round StopsInBlock
  dsimp only
  cases hstop : (s.commit onToken s.pending).stopAt with
  | some n => exact .inl ⟨rfl, nofun, fun hb => nomatch hb.1⟩
  | none =>
    by_cases hmax : (s.commit onToken s.pending).generated.length = options.maxNewTokens
    · left
      refine ⟨?_, fun _ => hmax, fun hb => hb.2.1 hmax⟩
      rw [if_neg (by simp), if_pos hmax]
    · right
      obtain ⟨draft, batchLogits, batchHidden, s₂, hcall, hd, hhonest⟩ :=
        h.dispatch drafter hcomp hmax
      have hkept := h.next
      have hkept₂ : Kept t options onToken ctx prompt greedy s₂ := by
        refine ⟨?_, ?_, ?_, ?_⟩
        · rw [hd.history, hd.generated]
          exact hkept.history
        · rw [hd.generated]
          exact hkept.length_le
        · rw [hd.stopAt, hd.observed, hd.generated]
          exact hkept.going
        · rw [hd.stopAt, hd.observed, hd.generated]
          exact hkept.stopped
      obtain ⟨s₃, accepted, replacement, hverify, hv⟩ := verifyDrafts_spec
        (s := s₂) (i := 0) draft.length_eq hd.room hd.logits
        (fun hg => ⟨(hgreedy hg).1, hhonest (hgreedy hg).2⟩) (Nat.zero_le _) rfl hkept₂
        (by simp [hd.generated])
      rw [List.drop_zero] at hverify
      have hpos : (s.commit onToken s.pending).pos + 1 =
          (ctx ++ prompt ++ (s.commit onToken s.pending).generated).length := by
        rw [commit_pos, h.pos, commit_generated]
        simp [Nat.add_assoc]
      obtain ⟨s₄, hsettle, hs₄⟩ := hv.settle hd hpos fun hg => (hgreedy hg).1
      rw [commit_kvCaches, h.count] at hs₄
      refine ⟨s₃, s₄, ?_, hs₄, ?_, ?_⟩
      · rw [if_neg (by simp), if_neg hmax, hcall]
        dsimp only
        rw [hverify]
        dsimp only [bind, Except.bind]
        rw [hsettle]
      · rw [hs₄.generated, hv.generated, commit_generated]
        simp
      · rw [hcall]
        dsimp only
        rw [hverify, hs₄.stopAt]
        constructor
        · rintro ⟨_, _, _, _, _, hrun, hne⟩
          cases hrun
          exact hne
        · exact fun hne => ⟨rfl, hmax, s₃, accepted, replacement, rfl, hne⟩

/-- The rounds of a run, from the one after its prefill. -/
inductive Reaches (options : SpeculativeOptions K) (promptLen : ℕ) (decoder : Decoder K α β)
    (drafter : Drafter σ K) (onToken : OnToken) : Run σ K α β → Run σ K α β → Prop

  | refl {s : Run σ K α β} : Reaches options promptLen decoder drafter onToken s s

  | round {s s' s'' : Run σ K α β} :
      Speculative.round options promptLen decoder drafter onToken s = .ok (false, s') →
      Reaches options promptLen decoder drafter onToken s' s'' →
      Reaches options promptLen decoder drafter onToken s s''

/-- No round is stopped in its block. -/
def StopsAtAnchors (options : SpeculativeOptions K) (promptLen : ℕ) (decoder : Decoder K α β)
    (drafter : Drafter σ K) (onToken : OnToken) (s : Run σ K α β) : Prop :=
  ∀ s', Reaches options promptLen decoder drafter onToken s s' →
    ¬ StopsInBlock options promptLen decoder drafter onToken s'

omit [IsStrictOrderedRing K] in
/-- A run that ends at an anchor has its contract. -/
theorem Live.contract (h : Live t options onToken ctx prompt greedy count s)
    (hstart : options.startPos = ctx.length)
    (hgreedy : options.sampling.Greedy → drafter.Honest → greedy)
    (hend : (s.commit onToken s.pending).stopAt = none →
      (s.commit onToken s.pending).generated.length = options.maxNewTokens) :
    Contract t options onToken ctx prompt drafter (s.commit onToken s.pending).finish := by
  have hkept := h.next
  have htokens : (s.commit onToken s.pending).finish.result.generatedTokens =
      s.generated ++ [s.pending] := by
    unfold Run.finish
    obtain ⟨_, hstop⟩ := commit_stopAt_none onToken s.pending h.going
    rw [hstop]
    split <;> simp_all
  have hseen : (s.commit onToken s.pending).observed = s.generated ++ [s.pending] ∧
      (greedy → plainGreedy t options onToken ctx prompt options.maxNewTokens [] =
        s.generated ++ [s.pending]) := by
    refine ⟨?_, fun hg => ?_⟩
    · rw [(commit_stopAt_none onToken s.pending h.going).1, (h.kept.going h.going).1]
    · obtain ⟨_, hstop⟩ := commit_stopAt_none onToken s.pending h.going
      split at hstop
      · have hplain := (hkept.going hstop).2 hg
        rw [hend hstop, Nat.sub_self, commit_generated] at hplain
        exact hplain
      · obtain ⟨_, _, _, hplain⟩ := hkept.stopped _ hstop
        rw [hplain hg, commit_generated, List.take_of_length_le (by simp)]
  refine ⟨fun c hc => ?_, fun l c hc => ?_, ?_, ?_, fun hg hd => ?_⟩
  · obtain ⟨l, hl⟩ := List.getElem?_of_mem hc
    rw [htokens, hstart]
    have hpos := (h.caches l c (by simpa [Run.finish] using hl)).1.positions
    simp at hpos ⊢
    omega
  · rw [htokens, List.dropLast_concat]
    exact (h.caches l c (by simpa [Run.finish] using hc)).1
  · have hle := hkept.length_le
    rwa [commit_generated, ← htokens] at hle
  · rw [htokens]
    exact hseen.1
  · rw [htokens]
    exact (hseen.2 (hgreedy hg hd)).symm

omit [IsStrictOrderedRing K] in
/-- A stop inside a block leaves more in the caches than the contract allows. -/
theorem Settled.not_contract {s₃ s₄ : Run σ K α β}
    (h : Settled t options onToken ctx prompt greedy count s₃ s₄) (hcount : count ≠ 0)
    (hstop : s₄.stopAt ≠ none) (hstart : options.startPos = ctx.length) :
    ¬ Contract t options onToken ctx prompt drafter s₄.finish := by
  intro hc
  obtain ⟨n, hn⟩ := Option.ne_none_iff_exists'.mp hstop
  obtain ⟨hpos, hle, _⟩ := h.kept.stopped n hn
  obtain ⟨c, hmem⟩ := List.exists_mem_of_length_pos (l := s₄.kvCaches)
    (by rw [h.count]; exact Nat.pos_of_ne_zero hcount)
  obtain ⟨l, hl⟩ := List.getElem?_of_mem hmem
  have hheld := (h.caches l c hl).1.positions
  have hdoc := hc.positions c hmem
  have htokens : s₄.finish.result.generatedTokens = s₄.generated.take n := by
    unfold Run.finish
    rw [hn]
  rw [hheld, htokens, hstart, List.length_take, min_eq_left hle] at hdoc
  simp at hdoc
  omega

omit [IsStrictOrderedRing K] in
/-- A run without caches has nothing to hold, so a stop anywhere keeps its contract. -/
theorem Settled.contract {s₃ s₄ : Run σ K α β}
    (h : Settled t options onToken ctx prompt greedy 0 s₃ s₄) (hstop : s₄.stopAt ≠ none)
    (hgreedy : options.sampling.Greedy → drafter.Honest → greedy) :
    Contract t options onToken ctx prompt drafter s₄.finish := by
  obtain ⟨n, hn⟩ := Option.ne_none_iff_exists'.mp hstop
  obtain ⟨_, hle, hseen, hplain⟩ := h.kept.stopped n hn
  have hnil : s₄.kvCaches = [] := List.length_eq_zero_iff.mp h.count
  have htokens : s₄.finish.result.generatedTokens = s₄.generated.take n := by
    unfold Run.finish
    rw [hn]
  refine ⟨fun c hc => ?_, fun l c hc => ?_, ?_, ?_, fun hg hd => ?_⟩
  · simp [Run.finish, hnil] at hc
  · simp [Run.finish, hnil] at hc
  · rw [htokens, List.length_take]
    exact (min_le_right _ _).trans h.kept.length_le
  · rw [htokens]
    exact hseen
  · rw [htokens]
    exact (hplain (hgreedy hg hd)).symm

variable (drafter) in
/-- From a state between two rounds the loop ends, and its contract holds exactly when no round is
stopped in its block. -/
theorem Live.loop (hcomp : Computes t decoder) (hstart : options.startPos = ctx.length)
    (hgreedy : greedy ↔ options.sampling.Greedy ∧ drafter.Honest) {fuel : ℕ}
    (hfuel : options.maxNewTokens ≤ s.generated.length + fuel)
    (h : Live t options onToken ctx prompt greedy count s) :
    ∃ s', decodeLoop options prompt.length decoder drafter onToken fuel s = some (.ok s') ∧
      (Contract t options onToken ctx prompt drafter s'.finish ↔
        count = 0 ∨ StopsAtAnchors options prompt.length decoder drafter onToken s) := by
  induction fuel generalizing s with
  | zero =>
    have hroom := h.room
    omega
  | succ fuel ih =>
    have hreach : ∀ {stopped : Bool} {s₁ : Run σ K α β},
        Speculative.round options prompt.length decoder drafter onToken s = .ok (stopped, s₁) →
        (StopsAtAnchors options prompt.length decoder drafter onToken s ↔
          ¬ StopsInBlock options prompt.length decoder drafter onToken s ∧
          (stopped = false → StopsAtAnchors options prompt.length decoder drafter onToken s₁)) := by
      intro stopped s₁ hround
      refine ⟨fun hall => ⟨hall s .refl, ?_⟩, fun hall s' hs' => ?_⟩
      · rintro rfl s' hs'
        exact hall s' (.round hround hs')
      · cases hs' with
        | refl => exact hall.1
        | round hround' hs' =>
          cases hround.symm.trans hround'
          exact hall.2 rfl _ hs'
    rcases h.round drafter hcomp hgreedy.mp with
      ⟨hround, hend, hnot⟩ | ⟨s₃, s₄, hround, hs₄, hmore, hiff⟩
    · refine ⟨_, ?_, iff_of_true (h.contract hstart (fun hg hd => hgreedy.mpr ⟨hg, hd⟩) hend)
        (.inr ((hreach hround).mpr ⟨hnot, nofun⟩))⟩
      rw [decodeLoop, hround]
      rfl
    · cases hstop : s₄.stopAt with
      | some n =>
        have hne : s₄.stopAt ≠ none := by simp [hstop]
        refine ⟨s₄, ?_, ?_⟩
        · rw [decodeLoop, hround, hstop]
          rfl
        · rw [hreach hround]
          constructor
          · intro hc
            by_contra hno
            rw [not_or] at hno
            exact hs₄.not_contract hno.1 hne hstart hc
          · rintro (rfl | ⟨hnot, _⟩)
            · exact hs₄.contract hne fun hg hd => hgreedy.mpr ⟨hg, hd⟩
            · exact absurd (hiff.mpr hne) hnot
      | none =>
        have hlive : Live t options onToken ctx prompt greedy count s₄ :=
          ⟨hs₄.kept, hstop, hs₄.room, hs₄.pos, hs₄.caches, hs₄.count, hs₄.pending⟩
        obtain ⟨s', hloop, hc⟩ := ih (by omega) hlive
        refine ⟨s', ?_, ?_⟩
        · rw [decodeLoop, hround, hstop]
          exact hloop
        · rw [hc, hreach hround, hiff]
          simp [hstop]

variable (onToken greedy) in
theorem prefill_live (hcomp : Computes t decoder) (hstart : options.startPos = ctx.length)
    (hgreedy : greedy → options.sampling.Greedy) (hprompt : prompt ≠ [])
    (hmax : 0 < options.maxNewTokens) {kvCaches : List (KvCache α β)}
    (hheld : ∀ l c, kvCaches[l]? = some c → t.Holds l ctx c) (drafting : σ) :
    ∃ s, prefill decoder options prompt kvCaches drafting = .ok s ∧
      Live t options onToken ctx prompt greedy kvCaches.length s := by
  have hkept : ∀ {s : Run σ K α β}, s.history = prompt → s.generated = [] → s.observed = [] →
      s.stopAt = none → Kept t options onToken ctx prompt greedy s := by
    intro s hh hg ho hs
    refine ⟨by simp [hh, hg], by simp [hg], fun _ => ⟨ho.trans hg.symm, fun _ => ?_⟩, ?_⟩
    · simp [hg]
    · simp [hs]
  unfold prefill
  rw [hstart, hcomp ctx prompt kvCaches hprompt hheld]
  dsimp only
  rw [List.getLast?_map, getLast?_grown hprompt]
  refine ⟨_, rfl, hkept rfl rfl rfl rfl, rfl, hmax, by simp, fun l c hc => ?_, by simp, ?_⟩
  · dsimp only at hc
    rw [List.getElem?_mapIdx] at hc
    obtain ⟨c₀, hc₀, rfl⟩ := Option.map_eq_some_iff.mp hc
    simpa using ((hheld l c₀ hc₀).feed prompt).evict
  · intro hg
    have hfirst : Kept t options onToken ctx prompt greedy
        (⟨Sampler.new options.seed, drafting, [], prompt, [], [], none, [], 0, 0,
          SpeculativeDecodeResult.default⟩ : Run σ K α β) := hkept rfl rfl rfl rfl
    simpa using sampleNext_greedy (hgreedy hg) hfirst (t.logits (ctx ++ prompt))

omit [IsStrictOrderedRing K] in
theorem prefill_going {kvCaches : List (KvCache α β)} {drafting : σ}
    (h : prefill decoder options prompt kvCaches drafting = .ok s) : s.stopAt = none := by
  unfold prefill at h
  dsimp only at h
  split at h
  · cases h
  · cases h
    rfl

variable (options decoder drafter onToken) in
omit [IsStrictOrderedRing K] in
theorem decodeLoop_stable (promptLen : ℕ) (s : Run σ K α β) :
    Exec.Stable fun fuel => decodeLoop options promptLen decoder drafter onToken fuel s := by
  refine Exec.Stable.of_succ fun fuel => ?_
  induction fuel generalizing s with
  | zero => exact fun a ha => nomatch ha
  | succ fuel ih =>
    intro a ha
    rw [decodeLoop] at ha ⊢
    cases hround : Speculative.round options promptLen decoder drafter onToken s with
    | error e =>
      rw [hround] at ha
      exact ha
    | ok r =>
      obtain ⟨_ | _, s'⟩ := r
      · rw [hround] at ha
        exact ih s' a ha
      · rw [hround] at ha
        exact ha

variable (options onToken drafter) in
/-- A speculative run ends, and leaves what it documents exactly when no round is stopped in its
block: a stop there keeps the rest of the accepted block in the caches. -/
theorem speculative_contract_iff (hcomp : Computes t decoder)
    (hattention : decoder.hasRecurrentLayers = false) (hprompt : prompt ≠ [])
    (hstart : options.startPos = ctx.length) (hmax : 0 < options.maxNewTokens)
    {kvCaches : List (KvCache α β)} (hheld : ∀ l c, kvCaches[l]? = some c → t.Holds l ctx c)
    (drafting : σ) :
    (∃ o, Exec.Returns
      (speculativeDecodeObserved decoder drafter onToken options prompt kvCaches drafting)
      (.ok o)) ∧
    ((∀ o, Exec.Returns
        (speculativeDecodeObserved decoder drafter onToken options prompt kvCaches drafting)
        (.ok o) → Contract t options onToken ctx prompt drafter o) ↔
      kvCaches = [] ∨ ∀ s, prefill decoder options prompt kvCaches drafting = .ok s →
        StopsAtAnchors options prompt.length decoder drafter onToken s) := by
  obtain ⟨s, hprefill, hlive⟩ := prefill_live onToken
    (options.sampling.Greedy ∧ drafter.Honest) hcomp hstart And.left hprompt hmax hheld
    drafting
  obtain ⟨s', hloop, hiff⟩ := hlive.loop drafter hcomp hstart Iff.rfl
    (Nat.le_add_left options.maxNewTokens s.generated.length)
  have hpos : ∀ c ∈ kvCaches, c.positions = options.startPos := by
    intro c hc
    obtain ⟨l, hl⟩ := List.getElem?_of_mem hc
    exact (hheld l c hl).positions.trans hstart.symm
  have hrun : ∀ o, Exec.Returns
      (speculativeDecodeObserved decoder drafter onToken options prompt kvCaches drafting)
      (.ok o) ↔ o = s'.finish := by
    intro o
    have hunfold :
        speculativeDecodeObserved decoder drafter onToken options prompt kvCaches drafting =
          fun fuel => decodeLoop options prompt.length decoder drafter onToken fuel s >>=
            fun s => (pure s.finish : Exec Panic _) := by
      funext fuel
      unfold speculativeDecodeObserved
      rw [if_neg hprompt, if_neg (by simp [hattention]), if_neg (by simpa using hpos),
        if_neg hmax.ne', hprefill]
      rfl
    have hstable := decodeLoop_stable options onToken decoder drafter prompt.length s
    rw [hunfold, Exec.returns_bind_ok_iff hstable fun _ => Exec.stable_pure _]
    constructor
    · rintro ⟨a, ha, ho⟩
      have hsame := Exec.Returns.unique hstable ha ⟨_, hloop⟩
      rw [Except.ok.injEq] at hsame
      rw [Exec.returns_pure_iff, Except.ok.injEq] at ho
      rw [ho, hsame]
    · rintro rfl
      exact ⟨s', ⟨_, hloop⟩, Exec.returns_pure_iff.mpr rfl⟩
  refine ⟨⟨_, (hrun _).mpr rfl⟩, ?_⟩
  simp only [hrun, forall_eq, hiff, hprefill, Except.ok.injEq, forall_eq', List.length_eq_zero_iff]

omit [IsStrictOrderedRing K] in
/-- The loop goes on only while the observer has not said stop. -/
theorem round_going {promptLen : ℕ}
    (hround : Speculative.round options promptLen decoder drafter onToken s = .ok (false, s')) :
    s'.stopAt = none := by
  unfold Speculative.round at hround
  dsimp only at hround
  split at hround
  · cases hround
  · split at hround
    · cases hround
    · dsimp only [bind, Except.bind] at hround
      split at hround
      · cases hround
      · split at hround
        · cases hround
        · rename_i s₄ _
          have hsome : s₄.stopAt.isSome = false ∧ s₄ = s' := by simpa using hround
          rw [← hsome.2]
          simpa using hsome.1

section Silent

variable (hyes : ∀ seen token, onToken seen token = true)

include hyes

omit [Field K] [LinearOrder K] [IsStrictOrderedRing K] in
theorem commit_silent (h : s.stopAt = none) : (s.commit onToken token).stopAt = none := by
  rw [(commit_stopAt_none onToken token h).2, hyes, if_pos rfl]

omit [IsStrictOrderedRing K] in
theorem verifyDrafts_silent {promptLen i : ℕ} {batchLogits : List (List K)}
    {drafts : List (ℕ × DraftDist K)} {accepted : ℕ} {replacement : Option ℕ}
    (h : s.stopAt = none)
    (hrun : verifyDrafts options promptLen onToken batchLogits i drafts s =
      .ok (s', accepted, replacement)) : s'.stopAt = none := by
  induction drafts generalizing i s with
  | nil =>
    cases hrun
    exact h
  | cons draft drafts ih =>
    unfold verifyDrafts at hrun
    cases hlogits : tryGet batchLogits i with
    | error e =>
      rw [hlogits] at hrun
      cases hrun
    | ok logits =>
      rw [hlogits] at hrun
      dsimp only [bind, Except.bind] at hrun
      split at hrun
      · refine ih ?_ hrun
        exact commit_silent hyes h
      · cases hrun
        exact h

omit [IsStrictOrderedRing K] in
theorem not_stopsInBlock {promptLen : ℕ} (h : s.stopAt = none) :
    ¬ StopsInBlock options promptLen decoder drafter onToken s := by
  rintro ⟨_, _, s', accepted, replacement, hrun, hstop⟩
  refine hstop (verifyDrafts_silent hyes ?_ hrun)
  exact commit_silent hyes h

omit [IsStrictOrderedRing K] in
/-- Without an observer no run is stopped in a block. -/
theorem stopsAtAnchors_silent {promptLen : ℕ} (h : s.stopAt = none) :
    StopsAtAnchors options promptLen decoder drafter onToken s := by
  intro s' hs'
  induction hs' with
  | refl => exact not_stopsInBlock hyes h
  | round hround _ ih => exact ih (round_going hround)

end Silent

end Round

/-- A target over one token, whose rows are the tokens. -/
def unary : Target ℚ ℕ ℕ where
  logits := fun _ => [1]
  hidden := fun _ => []
  kRow := fun _ ctx => ctx.getLastD 0
  vRow := fun _ ctx => ctx.getLastD 0
  window := fun _ => none

def unaryDecoder : Decoder ℚ ℕ ℕ where
  hasRecurrentLayers := false
  forwardBatchWithHidden := fun tokens _ kvCaches =>
    ((tokens.map fun _ => [1], tokens.map fun _ => []),
      kvCaches.map fun c => tokens.foldl (fun c token => c.push token token) c)

/-- Drafts the token as often as it may. -/
def unaryDrafter : Drafter Unit ℚ where
  propose := fun _ _ _ maxLen => (.deterministic (List.replicate maxLen 0), ())

def unaryOptions : SpeculativeOptions ℚ where
  maxNewTokens := 4
  startPos := 0
  sampling := {
    temperature := 0
    xtcProbability := 0
    xtcThreshold := 0
    chainKeepsTheArgmax := true
    applyHistoryPenalties := fun logits _ _ => logits
    filteredDistribution := fun scores _ _ _ => scores
    filtered_length := fun _ _ _ _ => rfl }
  seed := 1

theorem unary_feed (ctx tokens : List ℕ) (c : KvCache ℕ ℕ) (l : ℕ) :
    unary.feed l c (grown ctx tokens) = tokens.foldl (fun c token => c.push token token) c := by
  induction tokens generalizing ctx c with
  | nil => rfl
  | cons token tokens ih => simpa [grown, Target.feed, unary] using ih (ctx ++ [token]) _

theorem unaryDecoder_computes : Computes unary unaryDecoder := by
  intro ctx tokens kvCaches _ _
  have hconst : ∀ {γ : Type} (x : γ), (grown ctx tokens).map (fun _ => x) =
      tokens.map fun _ => x := by
    intro γ x
    rw [List.map_const', List.map_const', length_grown]
  unfold unaryDecoder
  dsimp only
  refine congrArg₂ Prod.mk (congrArg₂ Prod.mk (hconst _).symm (hconst _).symm) ?_
  ext l : 1
  rw [List.getElem?_map, List.getElem?_mapIdx]
  exact congrArg (Option.map · _) (funext fun c => (unary_feed ctx tokens c l).symm)

/-- Without an observer the whole budget comes back, and the cache holds all of it but the last. -/
theorem speculative_contract_iff_silent :
    ∃ o, Exec.Returns (speculativeDecodeObserved unaryDecoder unaryDrafter (fun _ _ => true)
      unaryOptions [0] [KvCache.new] ()) (.ok o) ∧
      Contract unary unaryOptions (fun _ _ => true) [] [0] unaryDrafter o := by
  have hheld : ∀ l c, [KvCache.new][l]? = some c → unary.Holds l [] c := by
    intro l c hc
    obtain rfl : c = KvCache.new := List.mem_singleton.mp (List.mem_of_getElem? hc)
    exact .whole ⟨rfl, rfl, rfl, rfl, rfl⟩
  obtain ⟨⟨o, ho⟩, hiff⟩ := speculative_contract_iff unaryOptions (fun _ _ => true) unaryDrafter
    unaryDecoder_computes rfl (List.cons_ne_nil 0 []) rfl (by decide) hheld ()
  refine ⟨o, ho, hiff.mpr (.inr fun s hs => ?_) o ho⟩
  exact stopsAtAnchors_silent (fun _ _ => rfl) (prefill_going hs)

/-- The observer says stop at the second token, which was accepted from the draft: two tokens come
back and four positions stay in the cache. -/
theorem speculative_contract_broken :
    ∃ o, Exec.Returns (speculativeDecodeObserved unaryDecoder unaryDrafter
        (fun seen _ => decide (seen.length < 1)) unaryOptions [0] [KvCache.new] ()) (.ok o) ∧
      o.result.generatedTokens = [0, 0] ∧ o.kvCaches.map (·.positions) = [4] ∧
      ¬ Contract unary unaryOptions (fun seen _ => decide (seen.length < 1)) [] [0]
        unaryDrafter o := by
  have hrun : (Option.bind (speculativeDecodeObserved unaryDecoder unaryDrafter
      (fun seen _ => decide (seen.length < 1)) unaryOptions [0] [KvCache.new] () 4).run
        Except.toOption).map (fun o =>
      (o.result.generatedTokens, o.kvCaches.map (·.positions))) = some ([0, 0], [4]) := by
    decide +kernel
  obtain ⟨o, ho, hfields⟩ := Option.map_eq_some_iff.mp hrun
  obtain ⟨r, hr, hok⟩ := Option.bind_eq_some_iff.mp ho
  rw [Prod.mk.injEq] at hfields
  refine ⟨o, ⟨4, ?_⟩, hfields.1, hfields.2, fun hc => ?_⟩
  · cases r with
    | error e => cases hok
    | ok o' =>
      cases hok
      exact hr
  · obtain ⟨c, hmem, hfour⟩ := List.mem_map.mp (hfields.2 ▸ List.mem_singleton_self 4)
    have hdoc := hc.positions c hmem
    rw [hfields.1, hfour] at hdoc
    simp [unaryOptions] at hdoc

end Frink.Speculative
