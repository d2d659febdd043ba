import Frink.Grammar.LeftRecursion

/-! # Budgets of the machine

A larger budget never changes the result of a call of the machine, and every
call ends on a table over which every stack can be advanced.
-/

namespace Frink.Gbnf

open Exec Worklist

variable {rules : List GrammarRule} {stack : GrammarStack} {out : List GrammarStack}

theorem advanceStack_stable (rules : List GrammarRule) (stack : GrammarStack)
    (out : List GrammarStack) : Stable (advanceStack rules stack out) :=
  explore_stable _ _ _ _

theorem acceptChr_stable (rules : List GrammarRule) (stack : GrammarStack) (chr : ℕ)
    (out : List GrammarStack) : Stable (acceptChr rules stack chr out) := by
  cases stack with
  | nil => exact stable_pure _
  | cons pos rest =>
    unfold acceptChr
    dsimp only
    split
    · exact stable_pure _
    · split
      · exact stable_fail _
      · split
        · exact advanceStack_stable _ _ _
        · exact stable_pure _

/-- One code point over a list of stacks. -/
def acceptAll (rules : List GrammarRule) (chr : ℕ) (current : List GrammarStack) (fuel : ℕ) :
    Exec GrammarError (List GrammarStack) :=
  current.foldlM (fun next cur => acceptChr rules cur chr next fuel) []

theorem acceptAll_stable (rules : List GrammarRule) (chr : ℕ) (current : List GrammarStack) :
    Stable (acceptAll rules chr current) :=
  Stable.foldlM (fun next cur => acceptChr_stable rules cur chr next) current []

theorem replayChars_stable (rules : List GrammarRule) (chars : List ℕ)
    (current : List GrammarStack) : Stable (Grammar.replayChars rules chars current) := by
  induction chars generalizing current with
  | nil => exact stable_pure _
  | cons cp chars ih =>
    refine (acceptAll_stable rules cp current).bind fun next => ?_
    split
    · exact stable_pure _
    · exact ih next

theorem acceptOne_stable (rules : List GrammarRule) (token : ℕ) (chars : List ℕ)
    (out : List GrammarStack) (stack : GrammarStack) :
    Stable (Grammar.acceptOne rules token chars out stack) := by
  cases stack with
  | nil => exact stable_pure _
  | cons top rest =>
    unfold Grammar.acceptOne
    dsimp only
    split
    · split
      · exact advanceStack_stable _ _ _
      · exact stable_pure _
    · exact (replayChars_stable _ _ _).bind fun _ => stable_pure _

theorem acceptToken_fold_stable (rules : List GrammarRule) (token : ℕ) (chars : List ℕ)
    (current : List GrammarStack) :
    Stable fun fuel => (current.foldlM
      (fun new stack => Grammar.acceptOne rules token chars new stack fuel) [] :
        Exec GrammarError (List GrammarStack)) :=
  Stable.foldlM (acceptOne_stable rules token chars) current []

namespace Grammar

/-- What a code point leaves of a grammar, given the stacks it leaves. -/
def commitCodepoint (g : Grammar) : Except GrammarError (List GrammarStack) →
    Except GrammarError Unit × Grammar
  | .error e => (.error e, g)
  | .ok next => (.ok (), { g with parseStacks := next })

def commitToken (g : Grammar) (piece : List UInt8) :
    Except GrammarError (List GrammarStack) → Except GrammarError Unit × Grammar
  | .error e => (.error e, g)
  | .ok stacksNew =>
      (if stacksNew.isEmpty then .error (.noViableStack piece) else .ok (),
        { g with
          parseStacks := stacksNew
          partialUtf8 := (decodePiece piece g.partialUtf8).2 })

theorem acceptCodepoint_eq (g : Grammar) (chr fuel : ℕ) :
    g.acceptCodepoint chr fuel =
      Option.map g.commitCodepoint (acceptAll g.rules chr g.parseStacks fuel) := by
  unfold acceptCodepoint acceptAll
  split <;> rename_i h <;> rw [h] <;> rfl

theorem acceptTokenNow_eq (g : Grammar) (token : ℕ) (piece : List UInt8) (fuel : ℕ) :
    g.acceptTokenNow token piece fuel =
      Option.map (g.commitToken piece) (g.parseStacks.foldlM (fun new stack =>
        acceptOne g.rules token (decodePiece piece g.partialUtf8).1.dropLast new stack fuel) [] :
          Exec GrammarError (List GrammarStack)) := by
  unfold acceptTokenNow
  dsimp only
  split <;> rename_i h <;> rw [h] <;> rfl

theorem acceptTokenNow_stable (g : Grammar) (token : ℕ) (piece : List UInt8) :
    Stable (g.acceptTokenNow token piece) := by
  rw [funext (acceptTokenNow_eq g token piece)]
  exact (acceptToken_fold_stable _ _ _ _).map _

theorem replayTokens_cons_eq (g : Grammar) (token : ℕ) (piece : List UInt8)
    (replay : List (ℕ × List UInt8)) (fuel : ℕ) :
    replayTokens fuel ((token, piece) :: replay) g =
      (g.acceptTokenNow token piece fuel).bind fun r =>
        match r with
        | (.error e, g) => some (.error e, g)
        | (.ok (), g) => replayTokens fuel replay g := by
  rw [replayTokens]
  split <;> rename_i h <;> rw [h] <;> rfl

theorem replayTokens_stable (replay : List (ℕ × List UInt8)) (g : Grammar) :
    Stable fun fuel => replayTokens fuel replay g := by
  induction replay generalizing g with
  | nil => exact stable_const _
  | cons next replay ih =>
    obtain ⟨token, piece⟩ := next
    simp only [replayTokens_cons_eq]
    refine Stable.option_bind (k := fun r fuel =>
      match r with
      | (.error e, g) => some (.error e, g)
      | (.ok (), g) => replayTokens fuel replay g) (acceptTokenNow_stable g token piece) ?_
    rintro ⟨_ | _, g⟩
    · exact stable_const _
    · exact ih g

theorem acceptToken_stable (g : Grammar) (token : ℕ) (piece : List UInt8) :
    Stable (g.acceptToken token piece) := by
  unfold acceptToken
  split
  · exact acceptTokenNow_stable g token piece
  · rename_i lazyState _
    split
    · rcases lazyState.observe token piece with ⟨_ | _ | replay, lazyState⟩
      · exact stable_const _
      · exact stable_const _
      · exact replayTokens_stable _ _
    · exact acceptTokenNow_stable g token piece

end Grammar

/-- Every stack over the table can be advanced in finitely many steps. -/
def Terminates (rules : List GrammarRule) : Prop :=
  ∀ stack out, Halts (advanceStack rules stack out)

section Terminates

variable (h : Terminates rules)
include h

theorem Terminates.acceptChr (stack : GrammarStack) (chr : ℕ) (out : List GrammarStack) :
    Halts (acceptChr rules stack chr out) := by
  cases stack with
  | nil => exact ⟨.ok out, returns_pure_iff.mpr rfl⟩
  | cons pos rest =>
    unfold Gbnf.acceptChr
    dsimp only
    split
    · exact ⟨.ok out, returns_pure_iff.mpr rfl⟩
    · split
      · rename_i e _
        exact ⟨.error e, returns_fail_iff.mpr rfl⟩
      · split
        · exact h _ _
        · exact ⟨.ok out, returns_pure_iff.mpr rfl⟩

theorem Terminates.acceptAll (chr : ℕ) (current : List GrammarStack) :
    Halts (acceptAll rules chr current) :=
  foldlM_halts (fun next cur => acceptChr_stable rules cur chr next)
    (fun next cur _ => h.acceptChr cur chr next) []

theorem Terminates.replayChars (chars : List ℕ) (current : List GrammarStack) :
    Halts (Grammar.replayChars rules chars current) := by
  induction chars generalizing current with
  | nil => exact ⟨.ok current, returns_pure_iff.mpr rfl⟩
  | cons cp chars ih =>
    refine (h.acceptAll cp current).bind (acceptAll_stable rules cp current) (fun next => ?_)
      fun next _ => ?_
    · split
      · exact stable_pure _
      · exact replayChars_stable _ _ _
    · split
      · exact ⟨.ok [], returns_pure_iff.mpr rfl⟩
      · exact ih next

theorem Terminates.acceptOne (token : ℕ) (chars : List ℕ) (out : List GrammarStack)
    (stack : GrammarStack) : Halts (Grammar.acceptOne rules token chars out stack) := by
  cases stack with
  | nil => exact ⟨.ok out, returns_pure_iff.mpr rfl⟩
  | cons top rest =>
    unfold Grammar.acceptOne
    dsimp only
    split
    · split
      · exact h _ _
      · exact ⟨.ok out, returns_pure_iff.mpr rfl⟩
    · exact (h.replayChars chars _).bind (replayChars_stable _ _ _) (fun _ => stable_pure _)
        fun _ _ => ⟨_, returns_pure_iff.mpr rfl⟩

theorem Terminates.acceptTokenNow {g : Grammar} (hg : g.rules = rules) (token : ℕ)
    (piece : List UInt8) : Halts (g.acceptTokenNow token piece) := by
  subst hg
  rw [funext (Grammar.acceptTokenNow_eq g token piece)]
  exact halts_map (foldlM_halts (acceptOne_stable _ _ _)
    (fun new stack _ => h.acceptOne _ _ new stack) [])

theorem Terminates.replayTokens {g : Grammar} (hg : g.rules = rules)
    (replay : List (ℕ × List UInt8)) : Halts fun fuel => Grammar.replayTokens fuel replay g := by
  induction replay generalizing g with
  | nil => exact ⟨(.ok (), g), 0, rfl⟩
  | cons next replay ih =>
    obtain ⟨token, piece⟩ := next
    obtain ⟨⟨r, g'⟩, hr⟩ := h.acceptTokenNow hg token piece
    have hrules : g'.rules = rules := by
      rw [funext (Grammar.acceptTokenNow_eq g token piece)] at hr
      obtain ⟨s, _, hs⟩ := returns_map_iff.mp hr
      cases s <;> cases hs <;> exact hg
    simp only [Grammar.replayTokens_cons_eq]
    have hk : ∀ r : Except GrammarError Unit × Grammar, Stable fun fuel =>
        match r with
        | (.error e, g) => some (.error e, g)
        | (.ok (), g) => Grammar.replayTokens fuel replay g := by
      rintro ⟨_ | _, g⟩
      · exact stable_const _
      · exact Grammar.replayTokens_stable _ _
    cases r with
    | error e =>
      exact ⟨_, (returns_option_bind_iff (Grammar.acceptTokenNow_stable g token piece) hk).mpr
        ⟨_, hr, returns_const_iff.mpr rfl⟩⟩
    | ok u =>
      obtain ⟨r', hr'⟩ := ih hrules
      exact ⟨r', (returns_option_bind_iff (Grammar.acceptTokenNow_stable g token piece) hk).mpr
        ⟨_, hr, hr'⟩⟩

/-- Accepting a token ends, also while a trigger is awaited. -/
theorem Terminates.acceptToken {g : Grammar} (hg : g.rules = rules) (token : ℕ)
    (piece : List UInt8) : Halts (g.acceptToken token piece) := by
  unfold Grammar.acceptToken
  split
  · exact h.acceptTokenNow hg token piece
  · rename_i lazyState _
    split
    · rcases lazyState.observe token piece with ⟨_ | _ | replay, lazyState⟩
      · exact ⟨_, returns_const_iff.mpr rfl⟩
      · exact ⟨_, returns_const_iff.mpr rfl⟩
      · exact h.replayTokens (g := { g with lazyState := some lazyState }) hg _
    · exact h.acceptTokenNow hg token piece

theorem Terminates.initialStacks (start : ℕ) : Halts (initialStacks rules start) :=
  foldlM_halts (fun _ _ => advanceStack_stable _ _ _) (fun _ _ _ => h _ _) []

end Terminates

end Frink.Gbnf
