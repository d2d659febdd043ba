import Frink.Grammar.Sampler

/-! # When masking and accepting agree

A token the machine takes always passes the mask. The mask lets more through only
when a parse meets a code point 0 or a matching token element within the piece.
-/

namespace Frink.Gbnf

open Exec Worklist Relation

variable {rules : List GrammarRule} {nameOf : ℕ → Option String} {start id c : ℕ}
  {g g' : Grammar} {stack s t : GrammarStack} {l : List ℕ} {p : PartialUtf8}
  {piece : List UInt8} {out new current : List GrammarStack}

/-- A parse that has read part of a piece and stops short of the code points `l` left: at a
code point 0, or at a token element that matches the id. -/
inductive StopsShort (rules : List GrammarRule) (id : ℕ) : GrammarStack → List ℕ → Prop where

  | zero {stack : GrammarStack} {l : List ℕ} : StopsShort rules id stack (0 :: l)

  | token {top : RulePos} {rest : GrammarStack} {c : ℕ} {l : List ℕ} :
      (elem rules top).gtype.isToken = true → matchToken (elem rules top) id = true →
      StopsShort rules id (top :: rest) (c :: l)

  | step {stack t : GrammarStack} {c : ℕ} {l : List ℕ} : ChrStep rules c stack t →
      StopsShort rules id t l → StopsShort rules id stack (c :: l)

/-- Some parse starts on the piece and stops short of its end. -/
def Grammar.Shortcut (g : Grammar) (id : ℕ) (piece : List UInt8) : Prop :=
  ∃ s ∈ g.parseStacks, ∃ c l, g.pieceChars piece = c :: l ∧
    (c = 0 ∨ ∃ t, ChrStep g.rules c s t ∧ StopsShort g.rules id t l)

/-- No parse stops short, or another one takes the whole token. -/
def Grammar.NoShortcut (g : Grammar) (id : ℕ) (piece : List UInt8) : Prop :=
  ¬ g.Shortcut id piece ∨ g.TakesWhole id piece

theorem maskPoints_eq (g : Grammar) (piece : List UInt8) :
    g.maskPoints piece = (g.pieceChars piece).takeWhile (· ≠ 0) := by
  unfold Grammar.maskPoints Grammar.pieceChars
  rw [decodePiece_dropLast]
  generalize (decodePiece piece g.partialUtf8).1.dropLast = l
  induction l with
  | nil => rfl
  | cons c l ih =>
    rw [List.cons_append, List.takeWhile_cons, List.dropLast_cons_of_ne_nil (by simp),
      List.takeWhile_cons, ih]

section Walks

variable (hp : p.nRemain = 0)
include hp

theorem maskTakes_of_charSteps (h : CharSteps rules l s t) :
    MaskTakes rules id p s (l.takeWhile (· ≠ 0)) := by
  induction l generalizing s with
  | nil => exact .done hp
  | cons c l ih =>
    obtain ⟨u, hu, hrest⟩ := h
    by_cases h0 : c = 0
    · simpa [h0] using MaskTakes.done hp
    · simpa [h0] using MaskTakes.chr hu (ih hrest)

theorem maskTakes_of_stopsShort (h : StopsShort rules id s l) :
    MaskTakes rules id p s (l.takeWhile (· ≠ 0)) := by
  induction h with
  | zero => exact .done hp
  | @token top rest c l ht hm =>
    by_cases h0 : c = 0
    · simpa [h0] using MaskTakes.done hp
    · simpa [h0] using MaskTakes.token ht hm
  | @step stack t c l hs _ ih =>
    by_cases h0 : c = 0
    · simpa [h0] using MaskTakes.done hp
    · simpa [h0] using MaskTakes.chr hs ih

/-- A token the machine takes passes the mask. -/
theorem Grammar.TakesWhole.passes (h : g.TakesWhole id piece)
    (hend : (decodePiece piece g.partialUtf8).2 = p) : g.Passes id piece := by
  obtain ⟨s, hs, t, ht⟩ := h
  refine ⟨s, hs, ?_⟩
  rw [maskPoints_eq, hend]
  cases ht with
  | token htok hm _ =>
    cases g.pieceChars piece with
    | nil => exact .done hp
    | cons c l =>
      by_cases h0 : c = 0
      · simpa [h0] using MaskTakes.done hp
      · simpa [h0] using MaskTakes.token htok hm
  | chars _ hc => exact maskTakes_of_charSteps hp hc

theorem Grammar.Shortcut.passes (h : g.Shortcut id piece)
    (hend : (decodePiece piece g.partialUtf8).2 = p) : g.Passes id piece := by
  obtain ⟨s, hs, c, l, hpiece, hstop⟩ := h
  refine ⟨s, hs, ?_⟩
  rw [maskPoints_eq, hend, hpiece]
  by_cases h0 : c = 0
  · simpa [h0] using MaskTakes.done hp
  · obtain ⟨t, hst, hshort⟩ := hstop.resolve_left h0
    simpa [h0] using MaskTakes.chr hst (maskTakes_of_stopsShort hp hshort)

end Walks

/-- A walk of the mask reads all the code points, or stops short of them. -/
theorem maskTakes_cases (h : MaskTakes rules id p s (l.takeWhile (· ≠ 0))) :
    StopsShort rules id s l ∨ ∃ t, CharSteps rules l s t := by
  induction l generalizing s with
  | nil => exact .inr ⟨s, rfl⟩
  | cons c l ih =>
    by_cases h0 : c = 0
    · subst h0
      exact .inl .zero
    · simp only [List.takeWhile_cons, ne_eq, h0, not_false_eq_true, decide_true, if_true] at h
      cases h with
      | token ht hm => exact .inl (.token ht hm)
      | chr hs hrest =>
        rcases ih hrest with hshort | ⟨t, ht⟩
        · exact .inl (.step hs hshort)
        · exact .inr ⟨t, _, hs, ht⟩

theorem Sound.exists_tokenStep (hg : Sound g) {top : RulePos} {rest : GrammarStack}
    (hs : top :: rest ∈ g.parseStacks) (ht : (elem g.rules top).gtype.isToken = true)
    (hm : matchToken (elem g.rules top) id = true) :
    ∃ t, TokenStep g.rules id l (top :: rest) t := by
  have hclean := hg.clean _ hs
  have hbelow : Clean.Stack g.rules rest := fun q hq => hclean q (by simp [hq])
  obtain ⟨t, hf⟩ := exists_front hg.wellFormed hg.noLeftRecursion
    (hbelow.push (hg.wellFormed.next (.inr ht)))
  exact ⟨t, .token ht hm hf⟩

/-- A token that passes the mask is taken whole, or some parse stops short of its end. -/
theorem Grammar.Passes.cases (hg : Sound g) (h : g.Passes id piece)
    (hne : g.pieceChars piece = [] → (decodePiece piece g.partialUtf8).2.nRemain ≠ 0) :
    g.Shortcut id piece ∨ g.TakesWhole id piece := by
  obtain ⟨s, hs, hm⟩ := h
  rw [maskPoints_eq] at hm
  cases hpiece : g.pieceChars piece with
  | nil =>
    rw [hpiece] at hm
    cases hm with
    | done hp => exact (hne hpiece hp).elim
    | @open_ pos rest hclass _ =>
      have hsteps : CharSteps g.rules (g.pieceChars piece) (pos :: rest) (pos :: rest) := by
        rw [hpiece]
        exact rfl
      exact .inr ⟨_, hs, _, .chars (GreType.isToken_of_isClass hclass) hsteps⟩
  | cons c l =>
    by_cases h0 : c = 0
    · exact .inl ⟨s, hs, c, l, hpiece, .inl h0⟩
    · rw [hpiece] at hm
      simp only [List.takeWhile_cons, ne_eq, h0, not_false_eq_true, decide_true, if_true] at hm
      cases hm with
      | token ht hmatch =>
        obtain ⟨t, hstep⟩ := hg.exists_tokenStep (l := g.pieceChars piece) hs ht hmatch
        exact .inr ⟨_, hs, t, hstep⟩
      | @chr _ t _ _ hstep hrest =>
        rcases maskTakes_cases hrest with hshort | ⟨u, hu⟩
        · exact .inl ⟨s, hs, c, l, hpiece, .inr ⟨t, hstep, hshort⟩⟩
        · obtain ⟨pos, rest, A, after, rfl, hclass, hmem, hf⟩ := hstep
          have htok := GreType.isToken_of_isClass hclass.isClass
          refine .inr ⟨_, hs, u, .chars htok ?_⟩
          rw [hpiece]
          exact ⟨t, (chrStep_class_iff hclass).mpr ⟨hmem, hf⟩, hu⟩

section Soundness

theorem CharSteps.clean (hw : WellFormed rules) (hs : Clean.Stack rules s)
    (h : CharSteps rules l s t) : Clean.Stack rules t := by
  induction l generalizing s with
  | nil => exact h ▸ hs
  | cons c l ih =>
    obtain ⟨u, hu, hrest⟩ := h
    exact ih (hu.clean hw hs) hrest

theorem CharSteps.atRest (hs : AtRest rules s) (h : CharSteps rules l s t) : AtRest rules t := by
  induction l generalizing s with
  | nil => exact h ▸ hs
  | cons c l ih =>
    obtain ⟨u, hu, hrest⟩ := h
    exact ih hu.atRest hrest

theorem TokenStep.clean (hw : WellFormed rules) (hs : Clean.Stack rules s)
    (h : TokenStep rules id l s t) : Clean.Stack rules t := by
  cases h with
  | @token top rest t htok _ hf =>
    have hbelow : Clean.Stack rules rest := fun q hq => hs q (by simp [hq])
    exact (hbelow.push (hw.next (.inr htok))).reach hw hf.1
  | chars _ hc => exact hc.clean hw hs

theorem TokenStep.atRest (hs : AtRest rules s) (h : TokenStep rules id l s t) :
    AtRest rules t := by
  cases h with
  | token _ _ hf => exact visitStack_emit_iff.mp hf.2
  | chars _ hc => exact hc.atRest hs

theorem replayChars_not_error (hw : WellFormed rules)
    (hs : ∀ s ∈ current, Clean.Stack rules s ∧ AtRest rules s) {e : GrammarError} :
    ¬ Returns (Grammar.replayChars rules l current) (.error e) := by
  induction l generalizing current with
  | nil => exact fun h => nomatch returns_pure_iff.mp h
  | cons c l ih =>
    have hk : ∀ next : List GrammarStack, Stable fun fuel =>
        (if next.isEmpty then pure [] else Grammar.replayChars rules l next fuel :
          Exec GrammarError (List GrammarStack)) := by
      intro next
      split
      · exact stable_pure _
      · exact replayChars_stable _ _ _
    intro h
    rcases (returns_bind_error_iff (acceptAll_stable rules c current) hk).mp h with
      h | ⟨next, hnext, h⟩
    · exact acceptAll_not_error hw hs h
    · split at h
      · exact nomatch returns_pure_iff.mp h
      · refine ih (fun t ht => ?_) h
        obtain ⟨s, hsc, hst⟩ := (mem_acceptAll_iff hnext).mp ht
        exact ⟨hst.clean hw (hs s hsc).1, hst.atRest⟩

theorem acceptOne_not_error (hw : WellFormed rules) (hs : Clean.Stack rules stack)
    (hr : AtRest rules stack) {e : GrammarError} :
    ¬ Returns (Grammar.acceptOne rules id l out stack) (.error e) := by
  intro h
  cases stack with
  | nil => exact nomatch returns_pure_iff.mp h
  | cons top rest =>
    have hbelow : Clean.Stack rules rest := fun q hq => hs q (by simp [hq])
    unfold Grammar.acceptOne at h
    dsimp only at h
    split at h
    · rename_i htok
      split at h
      · exact advanceStack_not_error hw (hbelow.push (hw.next (.inr htok))) h
      · exact nomatch returns_pure_iff.mp h
    · rcases (returns_bind_error_iff (replayChars_stable _ _ _) fun _ => stable_pure _).mp h with
        h | ⟨_, _, h⟩
      · refine replayChars_not_error hw (fun s hmem => ?_) h
        rw [List.mem_singleton.mp hmem]
        exact ⟨hs, hr⟩
      · exact nomatch returns_pure_iff.mp h

/-- Accepting a token keeps the machine sound, and succeeds exactly when a stack takes it. -/
theorem Sound.acceptTokenNow (hg : Sound g) {r : Except GrammarError Unit}
    (h : Returns (g.acceptTokenNow id piece) (r, g')) :
    Sound g' ∧ g'.rules = g.rules ∧ (r = .ok () ↔ g.TakesWhole id piece) := by
  rw [funext (Grammar.acceptTokenNow_eq g id piece)] at h
  obtain ⟨res, hres, heq⟩ := returns_map_iff.mp h
  cases res with
  | error e =>
    exact (foldlM_not_error (acceptOne_stable g.rules id _)
      (fun _ s hs => acceptOne_not_error hg.wellFormed (hg.clean s hs) (hg.atRest s hs)) []
      hres).elim
  | ok new =>
    have hmem : ∀ t, t ∈ new ↔
        ∃ s ∈ g.parseStacks, TokenStep g.rules id (g.pieceChars piece) s t := by
      intro t
      have hcollect := foldlM_collect (acceptOne_stable g.rules id _)
        (fun s _ out res hs t => mem_acceptOne_iff hs) hres t
      simpa [Grammar.pieceChars] using hcollect
    simp only [Grammar.commitToken, Prod.mk.injEq] at heq
    obtain ⟨hr, rfl⟩ := heq
    refine ⟨⟨hg.wellFormed, hg.noLeftRecursion, fun t ht => ?_, fun t ht => ?_⟩, rfl, ?_⟩
    · obtain ⟨s, hs, hst⟩ := (hmem t).mp ht
      exact hst.clean hg.wellFormed (hg.clean s hs)
    · obtain ⟨s, hs, hst⟩ := (hmem t).mp ht
      exact hst.atRest (hg.atRest s hs)
    · have hne : new ≠ [] ↔ g.TakesWhole id piece := by
        constructor
        · intro hne
          obtain ⟨t, ht⟩ := List.exists_mem_of_ne_nil new hne
          obtain ⟨s, hs, hst⟩ := (hmem t).mp ht
          exact ⟨s, hs, t, hst⟩
        · rintro ⟨s, hs, t, hst⟩
          exact List.ne_nil_of_mem ((hmem t).mpr ⟨s, hs, hst⟩)
      rw [← hne, ← hr]
      cases new with
      | nil => simp
      | cons => simp

theorem Sound.replayTokens {replay : List (ℕ × List UInt8)} (hg : Sound g)
    {r : Except GrammarError Unit}
    (h : Returns (fun fuel => Grammar.replayTokens fuel replay g) (r, g')) :
    Sound g' ∧ g'.rules = g.rules := by
  induction replay generalizing g with
  | nil =>
    have heq := returns_const_iff.mp h
    cases heq
    exact ⟨hg, rfl⟩
  | cons next replay ih =>
    obtain ⟨token, piece⟩ := next
    simp only [Grammar.replayTokens_cons_eq] at h
    rw [returns_option_bind_iff (Grammar.acceptTokenNow_stable g token piece)] at h
    rotate_left
    · rintro ⟨_ | _, g⟩
      · exact stable_const _
      · exact Grammar.replayTokens_stable _ _
    obtain ⟨⟨r', g₁⟩, h₁, h⟩ := h
    obtain ⟨hg₁, hrules, _⟩ := hg.acceptTokenNow h₁
    cases r' with
    | error e =>
      cases returns_const_iff.mp h
      exact ⟨hg₁, hrules⟩
    | ok u =>
      obtain ⟨hg', hrules'⟩ := ih hg₁ h
      exact ⟨hg', hrules'.trans hrules⟩

theorem Sound.withLazy (hg : Sound g) (lazyState : Option LazyState) :
    Sound { g with lazyState := lazyState } :=
  ⟨hg.wellFormed, hg.noLeftRecursion, hg.clean, hg.atRest⟩

theorem Sound.acceptToken (hg : Sound g) {r : Except GrammarError Unit}
    (h : Returns (g.acceptToken id piece) (r, g')) : Sound g' ∧ g'.rules = g.rules := by
  unfold Grammar.acceptToken at h
  split at h
  · exact ⟨(hg.acceptTokenNow h).1, (hg.acceptTokenNow h).2.1⟩
  · rename_i lazyState _
    split at h
    · revert h
      rcases lazyState.observe id piece with ⟨_ | _ | replay, lazyState⟩ <;> intro h
      · cases returns_const_iff.mp h
        exact ⟨hg.withLazy _, rfl⟩
      · cases returns_const_iff.mp h
        exact ⟨hg.withLazy _, rfl⟩
      · exact (hg.withLazy (some lazyState)).replayTokens h
    · exact ⟨(hg.acceptTokenNow h).1, (hg.acceptTokenNow h).2.1⟩

theorem acceptToken_of_not_awaiting (h : g.isAwaitingTrigger = false) (id : ℕ)
    (piece : List UInt8) : g.acceptToken id piece = g.acceptTokenNow id piece := by
  funext fuel
  unfold Grammar.acceptToken
  unfold Grammar.isAwaitingTrigger at h
  cases hl : g.lazyState with
  | none => rfl
  | some lazyState =>
    rw [hl, Option.any_some] at h
    simp [h]

end Soundness

/-- The states a grammar goes through while the tokens it is given are accepted. -/
inductive Grammar.Reachable (rules : List GrammarRule) (start : ℕ) (nameOf : ℕ → Option String) :
    Grammar → Prop where

  | init {g : Grammar} : Returns (Grammar.fromRules rules start nameOf) (.ok g) →
      Reachable rules start nameOf g

  | intoLazy {g g' : Grammar} {triggers : LazyTriggers} :
      Returns (Grammar.fromRules rules start nameOf) (.ok g) → g.intoLazy triggers = .ok g' →
      Reachable rules start nameOf g'

  | accept {g g' : Grammar} {token : ℕ} {piece : List UInt8} :
      Reachable rules start nameOf g → Returns (g.acceptToken token piece) (.ok (), g') →
      Reachable rules start nameOf g'

theorem Sound.fromRules (hw : WellFormed rules) (hcycle : NoHiddenCycle rules)
    (h : Returns (Grammar.fromRules rules start nameOf) (.ok g)) : Sound g := by
  obtain ⟨hcheck, parseStacks, hinit, rfl⟩ := returns_fromRules_iff.mp h
  have hclean := clean_initialStacks hw hinit
  exact ⟨hw, (noLeftRecursion_iff hcheck).mpr hcycle, fun s hs => (hclean s hs).1,
    fun s hs => (hclean s hs).2⟩

theorem Grammar.Reachable.sound (hw : WellFormed rules) (hcycle : NoHiddenCycle rules)
    (h : Grammar.Reachable rules start nameOf g) : Sound g := by
  induction h with
  | init h => exact .fromRules hw hcycle h
  | intoLazy h hl =>
    unfold Grammar.intoLazy at hl
    split at hl
    · exact nomatch hl
    · cases hl
      exact (Sound.fromRules hw hcycle h).withLazy _
  | accept _ h ih => exact (ih.acceptToken h).1

/-- Accepting succeeds exactly when a stack takes the token. -/
theorem Sound.acceptToken_ok_iff (hg : Sound g) (hawait : g.isAwaitingTrigger = false) :
    (∃ g', Returns (g.acceptToken id piece) (.ok (), g')) ↔ g.TakesWhole id piece := by
  rw [acceptToken_of_not_awaiting hawait]
  constructor
  · rintro ⟨g', h⟩
    exact (hg.acceptTokenNow h).2.2.mp rfl
  · intro hw
    obtain ⟨⟨r, g'⟩, h⟩ :=
      (terminates_of_noLeftRecursion hg.noLeftRecursion).acceptTokenNow rfl id piece
    rw [(hg.acceptTokenNow h).2.2.mpr hw] at h
    exact ⟨g', h⟩

theorem pieceChars_ne_nil {b : UInt8} {rest : List UInt8} (hb : b ≠ 0)
    (hnil : g.pieceChars (b :: rest) = []) :
    (decodePiece (b :: rest) g.partialUtf8).2.nRemain ≠ 0 :=
  fun hend => decodePiece_ne_nil hb hend hnil

section Sampler

open GrammarSampler

variable {K : Type} [DecidableEq K] {logits logits' : List (WithBot K)}

theorem vocabPass_tail (allowEog : Bool) (first : ℕ) (piece : List UInt8)
    (pieces : List (List UInt8)) (eog : Bool) (eogs : List Bool) (y : WithBot K) (i : ℕ)
    (logits : List (WithBot K)) :
    (vocabPass allowEog first (piece :: pieces) (eog :: eogs) (y :: logits)).logits[i + 1]? =
        (vocabPass allowEog (first + 1) pieces eogs logits).logits[i]? ∧
      (vocabPass allowEog (first + 1) pieces eogs logits).candidates ⊆
        (vocabPass allowEog first (piece :: pieces) (eog :: eogs) (y :: logits)).candidates := by
  rw [vocabPass]
  dsimp only
  split
  · simp [VocabPass.cons]
  · split
    · split <;> simp [VocabPass.cons]
    · split <;> simp [VocabPass.cons]

/-- A token the vocabulary pass leaves is an allowed end or a candidate. -/
theorem vocabPass_sampleable {allowEog : Bool} {first i : ℕ} {pieces : List (List UInt8)}
    {eogs : List Bool} {x : WithBot K} (he : eogs.length = pieces.length)
    (hlen : logits.length = pieces.length)
    (hx : (vocabPass allowEog first pieces eogs logits).logits[i]? = some x) (hbot : x ≠ ⊥) :
    (eogs[i]? = some true ∧ allowEog = true) ∨
      (eogs[i]? = some false ∧ ∃ b rest, pieces[i]? = some (b :: rest) ∧ b ≠ 0 ∧
        ⟨first + i, first + i, b :: rest⟩ ∈
          (vocabPass allowEog first pieces eogs logits).candidates) := by
  induction pieces generalizing first i eogs logits with
  | nil =>
    have hnil : logits = [] := by simpa using hlen
    subst hnil
    simp [vocabPass] at hx
  | cons piece pieces ih =>
    obtain ⟨eog, eogs, rfl⟩ := List.exists_cons_of_length_eq_add_one he
    obtain ⟨y, logits, rfl⟩ := List.exists_cons_of_length_eq_add_one hlen
    have he : eogs.length = pieces.length := by simpa using he
    have hlen : logits.length = pieces.length := by simpa using hlen
    cases i with
    | zero =>
      rw [vocabPass] at hx ⊢
      dsimp only at hx ⊢
      split at hx
      · rename_i hy
        simp only [VocabPass.cons, List.getElem?_cons_zero, Option.some.injEq] at hx
        exact (hbot (hx ▸ hy)).elim
      · rename_i hy
        rw [if_neg hy]
        cases eog with
        | true =>
          cases allowEog with
          | true => exact .inl ⟨rfl, rfl⟩
          | false =>
            simp only [VocabPass.cons, if_true, Bool.false_eq_true, if_false,
              List.getElem?_cons_zero, Option.some.injEq] at hx
            exact (hbot hx.symm).elim
        | false =>
          simp only [Bool.false_eq_true, if_false] at hx ⊢
          split at hx
          · simp only [VocabPass.cons, List.getElem?_cons_zero, Option.some.injEq] at hx
            exact (hbot hx.symm).elim
          · rename_i hp
            rw [if_neg hp]
            cases piece with
            | nil => simp at hp
            | cons b rest =>
              refine .inr ⟨rfl, b, rest, rfl, by simpa using hp, ?_⟩
              simp
    | succ i =>
      obtain ⟨htail, hsub⟩ := vocabPass_tail allowEog first piece pieces eog eogs
        y i logits
      rw [htail] at hx
      rcases ih he hlen hx with ⟨heog, hallow⟩ | ⟨heog, b, rest, hpiece, hb, hmem⟩
      · exact .inl ⟨by simpa using heog, hallow⟩
      · refine .inr ⟨by simpa using heog, b, rest, by simpa using hpiece, hb, hsub ?_⟩
        rwa [show first + (i + 1) = first + 1 + i by omega]

theorem vocabPass_candidate {allowEog : Bool} {first : ℕ} {pieces : List (List UInt8)}
    {eogs : List Bool} {c : Candidate}
    (hc : c ∈ (vocabPass allowEog first pieces eogs logits).candidates) :
    ∃ i, c.index = first + i ∧ c.id = first + i ∧ pieces[i]? = some c.piece := by
  induction pieces generalizing first eogs logits with
  | nil => simp [vocabPass] at hc
  | cons piece pieces ih =>
    cases eogs with
    | nil => simp [vocabPass] at hc
    | cons eog eogs =>
      cases logits with
      | nil => simp [vocabPass] at hc
      | cons y logits =>
        have later : c ∈ (vocabPass allowEog (first + 1) pieces eogs logits).candidates →
            ∃ i, c.index = first + i ∧ c.id = first + i ∧ (piece :: pieces)[i]? = some c.piece := by
          intro hmem
          obtain ⟨i, hidx, hid, hpiece⟩ := ih hmem
          exact ⟨i + 1, by omega, by omega, by simpa using hpiece⟩
        rw [vocabPass] at hc
        dsimp only at hc
        split at hc
        · exact later hc
        split at hc
        · split at hc
          · exact later hc
          · exact later hc
        split at hc
        · exact later hc
        · rcases List.mem_cons.mp hc with rfl | hc
          · exact ⟨0, rfl, rfl, rfl⟩
          · exact later hc

theorem maskIndices_get {indices : List ℕ} {i : ℕ} {x : WithBot K}
    (h : (maskIndices indices logits)[i]? = some x) (hbot : x ≠ ⊥) :
    logits[i]? = some x ∧ i ∉ indices := by
  induction indices generalizing logits with
  | nil => exact ⟨h, by simp⟩
  | cons j indices ih =>
    have hstep : (maskIndices indices (logits.set j ⊥))[i]? = some x := h
    obtain ⟨hget, hnot⟩ := ih hstep
    rw [List.getElem?_set] at hget
    split at hget
    · rename_i hji
      split at hget
      · exact (hbot (Option.some.inj hget).symm).elim
      · exact nomatch hget
    · rename_i hji
      exact ⟨hget, by simp [hnot, Ne.symm hji]⟩

/-- A token the mask leaves sampleable is an allowed end, or passes the mask of the grammar. -/
theorem maskLogits_sampleable {S : GrammarSampler} {outcome : MaskOutcome} {i : ℕ} {x : WithBot K}
    (hawait : S.grammar.isAwaitingTrigger = false)
    (h : Returns (S.maskLogits logits) (.ok outcome, logits')) (hx : logits'[i]? = some x)
    (hbot : x ≠ ⊥) :
    (S.eog[i]? = some true ∧ S.grammar.allowsEog = true) ∨
      (S.eog[i]? = some false ∧ ∃ b rest, S.pieces[i]? = some (b :: rest) ∧ b ≠ 0 ∧
        S.grammar.Passes i (b :: rest)) := by
  obtain ⟨n, hn⟩ := h
  unfold maskLogits at hn
  split at hn
  · exact nomatch hn
  rename_i hlen
  have hlen : logits.length = S.pieces.length := by simpa using hlen
  rw [hawait, if_neg (by simp)] at hn
  dsimp only at hn
  split at hn
  · exact nomatch hn
  · exact nomatch hn
  · rename_i rejected hrej
    have hmasked : logits' = maskIndices rejected
        (vocabPass S.grammar.allowsEog 0 S.pieces S.eog logits).logits := by
      split at hn
      · split at hn
        · cases hn; rfl
        · exact nomatch hn
      · cases hn; rfl
    subst hmasked
    obtain ⟨hget, hnot⟩ := maskIndices_get hx hbot
    rcases vocabPass_sampleable S.eog_length hlen hget hbot with
      hend | ⟨heog, b, rest, hpiece, hb, hmem⟩
    · exact .inl hend
    · rw [Nat.zero_add] at hmem
      refine .inr ⟨heog, b, rest, hpiece, hb, ?_⟩
      have huniq : ∀ d ∈ (vocabPass S.grammar.allowsEog 0 S.pieces S.eog logits).candidates,
          d.index = i → d = ⟨i, i, b :: rest⟩ := by
        intro d hd hdi
        obtain ⟨j, hidx, hid, hp⟩ := vocabPass_candidate hd
        have hj : j = i := by omega
        subst hj
        obtain ⟨index, id, piece⟩ := d
        rw [hpiece] at hp
        simp_all
      by_contra hno
      exact hnot ((mem_rejected_iff ⟨n, hrej⟩ hmem huniq).mpr hno)

/-- A sampleable token is accepted unless the grammar takes a shortcut on it. -/
theorem accept_of_sampleable {S : GrammarSampler} {outcome : MaskOutcome} {i : ℕ}
    {x : WithBot K} (hg : Sound S.grammar) (hawait : S.grammar.isAwaitingTrigger = false)
    (h : Returns (S.maskLogits logits) (.ok outcome, logits')) (hx : logits'[i]? = some x)
    (hbot : x ≠ ⊥) (hno : S.grammar.NoShortcut i (S.pieces[i]?.getD [])) :
    ∃ S', Returns (S.accept i) (.ok (), S') := by
  unfold accept
  rcases maskLogits_sampleable hawait h hx hbot with
    ⟨heog, hallow⟩ | ⟨heog, b, rest, hpiece, hb, hpass⟩
  · obtain ⟨hi, _⟩ := List.getElem?_eq_some_iff.mp heog
    rw [S.eog_length] at hi
    rw [List.getElem?_eq_getElem hi]
    simp only [hawait, heog, Bool.false_eq_true, if_false, Option.getD_some, if_true,
      Grammar.acceptEog, hallow]
    exact ⟨_, returns_const_iff.mpr rfl⟩
  · rw [hpiece, Option.getD_some] at hno
    have htakes : S.grammar.TakesWhole i (b :: rest) := by
      rcases hno with hno | htakes
      · exact (hpass.cases hg (pieceChars_ne_nil hb)).resolve_left hno
      · exact htakes
    obtain ⟨g', hg'⟩ := (hg.acceptToken_ok_iff hawait).mpr htakes
    rw [hpiece]
    simp only [hawait, heog, Bool.false_eq_true, if_false, Option.getD_some]
    exact ⟨_, returns_map_iff.mpr ⟨_, hg', rfl⟩⟩

theorem letterGrammar_reachable : Grammar.Reachable letterTable 0 (fun _ => none) letterGrammar :=
  .init ⟨3, rfl⟩

/-- `root ::= "a" <[5]>`. -/
def tokenTable : List GrammarRule := [[⟨.char, 97⟩, ⟨.token, 5⟩, ⟨.ruleEnd, 0⟩]]

def tokenGrammar : Grammar := ⟨tokenTable, [[⟨0, 0⟩]], .empty, none⟩

/-- A vocabulary whose token 5 is spelled `"ab"`. -/
def tokenSampler : GrammarSampler :=
  GrammarSampler.new tokenGrammar 6 (fun id => if id = 5 then [97, 98] else [120]) fun _ => false

end Sampler

end Frink.Gbnf
