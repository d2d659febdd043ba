import Mathlib
import Frink.Grammar.Language

/-! # Which candidate tokens no stack accepts

All candidates are advanced one code point together over the stack set. A
candidate is rejected when every stack rejects it, on its own as in a batch.
-/

namespace Frink.Gbnf

open Exec Worklist Relation

structure Candidate where
  index : ℕ
  id : ℕ
  piece : List UInt8
  deriving DecidableEq, Repr

/-- A cursor along a decoded piece of the arena. -/
structure Cand where
  index : ℕ
  id : ℕ
  slot : ℕ
  off : ℕ
  partialUtf8 : PartialUtf8
  deriving DecidableEq, Repr

def Cand.advance (tok : Cand) : Cand := { tok with off := tok.off + 1 }

def Cand.back (tok : Cand) : Cand := { tok with off := tok.off - 1 }

/-- The terminating 0 of every piece keeps the cursor inside the arena. -/
def codePointAt (arena : List (List ℕ)) (tok : Cand) : ℕ :=
  ((arena[tok.slot]?.getD [])[tok.off]?).getD 0

inductive Verdict where
  | keep
  | reject
  | advance
  deriving DecidableEq, Repr

/-- One candidate at a character class. -/
def judge (rules : List GrammarRule) (arena : List (List ℕ)) (pos : RulePos) (tok : Cand) :
    Except GrammarError Verdict :=
  if codePointAt arena tok = 0 then
    if tok.partialUtf8.nRemain = 0 then .ok .keep
    else
      match matchPartialChar rules pos tok.partialUtf8 with
      | .error e => .error e
      | .ok fits => .ok (if fits then .keep else .reject)
  else
    match matchChar rules pos (codePointAt arena tok) with
    | .error e => .error e
    | .ok (matched, _) => .ok (if matched then .advance else .reject)

/-- The loop over the candidates at a character class: the rejected and the advanced ones. -/
def splitCandidates (rules : List GrammarRule) (arena : List (List ℕ)) (pos : RulePos) :
    List Cand → Except GrammarError (List Cand × List Cand)
  | [] => .ok ([], [])
  | tok :: toks =>
      match judge rules arena pos tok, splitCandidates rules arena pos toks with
      | .error e, _ => .error e
      | .ok _, .error e => .error e
      | .ok .keep, .ok (rejects, next) => .ok (rejects, next)
      | .ok .reject, .ok (rejects, next) => .ok (tok :: rejects, next)
      | .ok .advance, .ok (rejects, next) => .ok (rejects, tok.advance :: next)

/-- Each later stack sees what the stacks before it rejected. -/
def rejectRest (rejectOne : GrammarStack → List Cand → ℕ → Exec GrammarError (List Cand)) :
    List GrammarStack → List Cand → ℕ → Exec GrammarError (List Cand)
  | [], rejects, _ => pure rejects
  | stack :: parseStacks, rejects, fuel =>
      if rejects.isEmpty then pure rejects
      else do
        let rejects ← rejectOne stack rejects fuel
        rejectRest rejectOne parseStacks rejects fuel

def rejectOverStacks
    (rejectOne : GrammarStack → List Cand → ℕ → Exec GrammarError (List Cand))
    (parseStacks : List GrammarStack) (candidates : List Cand) (fuel : ℕ) :
    Exec GrammarError (List Cand) :=
  match parseStacks with
  | [] => Exec.fail (.internal "reject_over_stacks called with no stacks")
  | stack :: parseStacks =>
      if candidates.isEmpty then pure []
      else do
        let rejects ← rejectOne stack candidates fuel
        rejectRest rejectOne parseStacks rejects fuel

/-- The depth of the recursion is bounded by the longest piece. -/
def rejectForStack (rules : List GrammarRule) (arena : List (List ℕ)) :
    ℕ → GrammarStack → List Cand → ℕ → Exec GrammarError (List Cand)
  | 0, _, _, _ => none
  | _ + 1, [], candidates, _ =>
      pure (candidates.filter fun tok =>
        codePointAt arena tok != 0 || tok.partialUtf8.nRemain != 0)
  | depth + 1, pos :: rest, candidates, fuel =>
      if (elem rules pos).gtype.isToken then
        pure (candidates.filter fun tok =>
          if codePointAt arena tok = 0 then tok.partialUtf8.nRemain != 0
          else !matchToken (elem rules pos) tok.id)
      else do
        let (rejects, next) ← Exec.ofExcept (splitCandidates rules arena pos candidates)
        let (_, after) ← Exec.ofExcept (matchChar rules pos 0)
        let nextStacks ← advanceStack rules (pushPos rules after rest) [] fuel
        let nextRejects ← rejectOverStacks (rejectForStack rules arena depth) nextStacks next fuel
        pure (rejects ++ nextRejects.map Cand.back)

def arenaDepth (arena : List (List ℕ)) : ℕ := (arena.map List.length).foldr max 0 + 1

/-- The candidates decoded against the partial sequence the grammar carries. -/
def decodeArena (g : Grammar) (candidates : List Candidate) : List (List ℕ) :=
  candidates.map fun c => (decodePiece c.piece g.partialUtf8).1

def decodeCands (g : Grammar) (candidates : List Candidate) : List Cand :=
  candidates.zipIdx.map fun (c, slot) =>
    ⟨c.index, c.id, slot, 0, (decodePiece c.piece g.partialUtf8).2⟩

/-- The index of every candidate that no viable stack accepts. -/
def rejectCandidates (g : Grammar) (candidates : List Candidate) (fuel : ℕ) :
    Exec GrammarError (List ℕ) :=
  if g.isAwaitingTrigger then Exec.fail .awaitingTrigger
  else if candidates.isEmpty then pure []
  else if g.parseStacks.isEmpty then pure (candidates.map (·.index))
  else do
    let arena := decodeArena g candidates
    let rejects ← rejectOverStacks (rejectForStack g.rules arena (arenaDepth arena))
      g.parseStacks (decodeCands g candidates) fuel
    pure (rejects.map (·.index))

/-- A token with the code points `pts` still to read, up to a 0, passes the mask on a stack. -/
inductive MaskTakes (rules : List GrammarRule) (id : ℕ) (p : PartialUtf8) :
    GrammarStack → List ℕ → Prop where

  | done {stack : GrammarStack} : p.nRemain = 0 → MaskTakes rules id p stack []

  | open_ {pos : RulePos} {rest : GrammarStack} : (elem rules pos).gtype.isClass = true →
      matchPartialChar rules pos p = .ok true → MaskTakes rules id p (pos :: rest) []

  | token {pos : RulePos} {rest : GrammarStack} {c : ℕ} {pts : List ℕ} :
      (elem rules pos).gtype.isToken = true → matchToken (elem rules pos) id = true →
      MaskTakes rules id p (pos :: rest) (c :: pts)

  | chr {stack t : GrammarStack} {c : ℕ} {pts : List ℕ} : ChrStep rules c stack t →
      MaskTakes rules id p t pts → MaskTakes rules id p stack (c :: pts)

/-- The code points the mask still sees of a candidate. -/
def Cand.pts (arena : List (List ℕ)) (tok : Cand) : List ℕ :=
  ((arena[tok.slot]?.getD []).drop tok.off).takeWhile (· ≠ 0)

def Cand.Taken (rules : List GrammarRule) (arena : List (List ℕ)) (tok : Cand)
    (stack : GrammarStack) : Prop :=
  MaskTakes rules tok.id tok.partialUtf8 stack (tok.pts arena)

variable {rules : List GrammarRule} {arena : List (List ℕ)} {tok : Cand} {id : ℕ}
  {p : PartialUtf8} {stack rest : GrammarStack} {pos : RulePos} {pts : List ℕ}
  {candidates rejects next res : List Cand} {parseStacks : List GrammarStack}

@[simp] theorem Cand.back_advance (tok : Cand) : tok.advance.back = tok := by
  simp [Cand.back, Cand.advance]

theorem pts_of_zero (h : codePointAt arena tok = 0) : tok.pts arena = [] := by
  unfold codePointAt at h
  unfold Cand.pts
  generalize arena[tok.slot]?.getD [] = l at h
  cases hd : l.drop tok.off with
  | nil => rfl
  | cons c m =>
    have hc : l[tok.off]? = some c := by
      rw [← List.head?_drop, hd]
      rfl
    simp_all

theorem pts_of_ne_zero (h : codePointAt arena tok ≠ 0) :
    tok.pts arena = codePointAt arena tok :: tok.advance.pts arena := by
  unfold codePointAt at h ⊢
  unfold Cand.pts
  simp only [Cand.advance]
  generalize arena[tok.slot]?.getD [] = l at h
  cases hd : l.drop tok.off with
  | nil =>
    have hc : l[tok.off]? = none := by
      rw [← List.head?_drop, hd]
      rfl
    simp [hc] at h
  | cons c m =>
    have hc : l[tok.off]? = some c := by
      rw [← List.head?_drop, hd]
      rfl
    have hm : l.drop (tok.off + 1) = m := by
      rw [← List.drop_drop, hd]
      rfl
    rw [hc, Option.getD_some] at h ⊢
    rw [hm, List.takeWhile_cons, if_pos (by simpa using h)]

theorem maskTakes_nil_iff : MaskTakes rules id p [] pts ↔ pts = [] ∧ p.nRemain = 0 := by
  constructor
  · intro h
    cases h with
    | done h => exact ⟨rfl, h⟩
    | chr h _ => exact (not_chrStep_nil h).elim
  · rintro ⟨rfl, h⟩
    exact .done h

theorem maskTakes_token_iff (h : (elem rules pos).gtype.isToken = true) :
    MaskTakes rules id p (pos :: rest) pts ↔
      (pts = [] ∧ p.nRemain = 0) ∨ (pts ≠ [] ∧ matchToken (elem rules pos) id = true) := by
  constructor
  · intro hm
    cases hm with
    | done hp => exact .inl ⟨rfl, hp⟩
    | open_ hc _ => rw [GreType.isToken_of_isClass hc] at h; exact nomatch h
    | token _ ht => exact .inr ⟨by simp, ht⟩
    | chr hs _ => exact (not_chrStep_token h hs).elim
  · rintro (⟨rfl, hp⟩ | ⟨hne, ht⟩)
    · exact .done hp
    · obtain ⟨c, pts, rfl⟩ := List.exists_cons_of_ne_nil hne
      exact .token h ht

theorem maskTakes_class_nil_iff (h : (elem rules pos).gtype.isClass = true) :
    MaskTakes rules id p (pos :: rest) [] ↔
      p.nRemain = 0 ∨ matchPartialChar rules pos p = .ok true := by
  constructor
  · intro hm
    cases hm with
    | done hp => exact .inl hp
    | open_ _ ho => exact .inr ho
  · rintro (hp | ho)
    · exact .done hp
    · exact .open_ h ho

theorem maskTakes_class_cons_iff {c : ℕ} (h : (elem rules pos).gtype.isClass = true) :
    MaskTakes rules id p (pos :: rest) (c :: pts) ↔
      ∃ t, ChrStep rules c (pos :: rest) t ∧ MaskTakes rules id p t pts := by
  constructor
  · intro hm
    cases hm with
    | token ht _ => rw [GreType.isToken_of_isClass h] at ht; exact nomatch ht
    | chr hs hm => exact ⟨_, hs, hm⟩
  · rintro ⟨t, hs, hm⟩
    exact .chr hs hm

theorem splitCandidates_ok (h : splitCandidates rules arena pos candidates = .ok (rejects, next)) :
    (∀ tok ∈ candidates, ∃ v, judge rules arena pos tok = .ok v) ∧
      rejects = candidates.filter (fun tok => judge rules arena pos tok = .ok .reject) ∧
      next = (candidates.filter fun tok => judge rules arena pos tok = .ok .advance).map
        Cand.advance := by
  induction candidates generalizing rejects next with
  | nil =>
    cases h
    exact ⟨nofun, rfl, rfl⟩
  | cons tok toks ih =>
    rw [splitCandidates] at h
    cases hv : judge rules arena pos tok with
    | error e => rw [hv] at h; exact nomatch h
    | ok v =>
      cases hs : splitCandidates rules arena pos toks with
      | error e => rw [hv, hs] at h; exact nomatch h
      | ok r =>
        obtain ⟨rejects', next'⟩ := r
        obtain ⟨hall, hr, hn⟩ := ih hs
        rw [hv, hs] at h
        refine ⟨fun t ht => ?_, ?_⟩
        · rcases List.mem_cons.mp ht with rfl | ht
          · exact ⟨v, hv⟩
          · exact hall t ht
        · cases v <;> cases h <;> simp [hv, hr, hn]

theorem codePoint_ne_zero_of_advance (h : judge rules arena pos tok = .ok .advance) :
    codePointAt arena tok ≠ 0 := by
  intro h0
  unfold judge at h
  rw [if_pos h0] at h
  split at h
  · exact nomatch h
  · split at h
    · exact nomatch h
    · rename_i fits _
      cases fits <;> exact nomatch h

theorem codePoint_mem_of_advance {A : Set ℕ} {after : RulePos}
    (hA : CharClass rules pos A after) (h : judge rules arena pos tok = .ok .advance) :
    codePointAt arena tok ∈ A := by
  have h0 := codePoint_ne_zero_of_advance h
  unfold judge at h
  rw [if_neg h0] at h
  split at h
  · exact nomatch h
  · rename_i matched after' hm
    cases matched with
    | false => exact nomatch h
    | true =>
      obtain ⟨B, hB, hmem⟩ := matchChar_ok_iff.mp hm
      obtain ⟨rfl, _⟩ := hA.unique hB
      exact hmem.mp rfl

section Judge

variable (hc : (elem rules pos).gtype.isClass = true)
include hc

theorem matchPartialChar_of_isClass (p : PartialUtf8) :
    ∃ b, matchPartialChar rules pos p = .ok b := by
  unfold matchPartialChar
  dsimp only
  rw [if_neg]
  · split
    · exact ⟨_, rfl⟩
    · split <;> exact ⟨_, rfl⟩
  · revert hc
    generalize (elem rules pos).gtype = t
    cases t <;> simp [GreType.isClass, isPositiveChar]

theorem judge_of_isClass (arena : List (List ℕ)) (tok : Cand) : ∃ v, judge rules arena pos tok = .ok v := by
  unfold judge
  split
  · split
    · exact ⟨_, rfl⟩
    · obtain ⟨b, hb⟩ := matchPartialChar_of_isClass hc tok.partialUtf8
      rw [hb]
      exact ⟨_, rfl⟩
  · obtain ⟨_, b, after, _, hm, _⟩ := matchChar_of_isClass hc (codePointAt arena tok)
    rw [hm]
    exact ⟨_, rfl⟩

theorem splitCandidates_of_isClass (arena : List (List ℕ)) (candidates : List Cand) :
    ∃ r, splitCandidates rules arena pos candidates = .ok r := by
  induction candidates with
  | nil => exact ⟨_, rfl⟩
  | cons tok toks ih =>
    obtain ⟨v, hv⟩ := judge_of_isClass hc arena tok
    obtain ⟨⟨rejects, next⟩, hr⟩ := ih
    rw [splitCandidates, hv, hr]
    cases v <;> exact ⟨_, rfl⟩

/-- A class takes a candidate by keeping it, or by advancing it to a stack that takes the rest. -/
theorem taken_class_iff (tok : Cand) :
    tok.Taken rules arena (pos :: rest) ↔ judge rules arena pos tok = .ok .keep ∨
      (judge rules arena pos tok = .ok .advance ∧
        ∃ t, ChrStep rules (codePointAt arena tok) (pos :: rest) t ∧
          tok.advance.Taken rules arena t) := by
  unfold Cand.Taken judge
  by_cases h0 : codePointAt arena tok = 0
  · rw [pts_of_zero h0, maskTakes_class_nil_iff hc, if_pos h0]
    by_cases hn : tok.partialUtf8.nRemain = 0
    · simp [hn]
    · obtain ⟨b, hb⟩ := matchPartialChar_of_isClass hc tok.partialUtf8
      cases b <;> simp [hn, hb]
  · rw [pts_of_ne_zero h0, maskTakes_class_cons_iff hc, if_neg h0]
    obtain ⟨A, b, after, hA, hm, hmem⟩ := matchChar_of_isClass hc (codePointAt arena tok)
    rw [hm]
    cases b with
    | true => simp [Cand.advance]
    | false =>
      have hno : ∀ t, ¬ ChrStep rules (codePointAt arena tok) (pos :: rest) t := by
        intro t ht
        exact nomatch hmem.mpr ((chrStep_class_iff hA).mp ht).1
      simp [hno]

end Judge

theorem filter_append_filter_perm {α : Type} (l : List α) {p q : α → Bool}
    (h : ∀ a ∈ l, ¬ (p a = true ∧ q a = true)) :
    (l.filter p ++ l.filter q).Perm (l.filter fun a => p a || q a) := by
  induction l with
  | nil => exact .refl _
  | cons a l ih =>
    have hrest := ih fun b hb => h b (by simp [hb])
    have ha := h a (by simp)
    cases hp : p a with
    | true =>
      have hq : q a = false := eq_false_of_ne_true fun hq => ha ⟨hp, hq⟩
      simpa [hp, hq] using hrest
    | false =>
      cases hq : q a with
      | true =>
        simp only [List.filter_cons, hp, hq, Bool.or_true, Bool.false_eq_true, if_false, if_true]
        exact List.perm_middle.trans (hrest.cons a)
      | false => simpa [hp, hq] using hrest

section Reject

open Classical

/-- What a walk over one stack leaves of the candidates. -/
def Rejects (rejectOne : GrammarStack → List Cand → ℕ → Exec GrammarError (List Cand))
    (Takes : Cand → GrammarStack → Prop) : Prop :=
  ∀ stack candidates res, Returns (rejectOne stack candidates) (.ok res) →
    res.Perm (candidates.filter fun tok => ¬ Takes tok stack)

variable {rejectOne : GrammarStack → List Cand → ℕ → Exec GrammarError (List Cand)}
  {Takes : Cand → GrammarStack → Prop}

theorem rejectRest_cons (rejectOne : GrammarStack → List Cand → ℕ → Exec GrammarError (List Cand))
    (stack : GrammarStack) (parseStacks : List GrammarStack) (rejects : List Cand) :
    rejectRest rejectOne (stack :: parseStacks) rejects = fun fuel =>
      if rejects.isEmpty then pure rejects
      else rejectOne stack rejects fuel >>= fun rejects =>
        rejectRest rejectOne parseStacks rejects fuel := rfl

theorem rejectRest_stable (hone : ∀ s c, Stable (rejectOne s c))
    (parseStacks : List GrammarStack) (rejects : List Cand) :
    Stable (rejectRest rejectOne parseStacks rejects) := by
  induction parseStacks generalizing rejects with
  | nil => exact stable_pure _
  | cons stack parseStacks ih =>
    rw [rejectRest_cons]
    split
    · exact stable_pure _
    · exact (hone stack rejects).bind ih

theorem rejectOverStacks_stable (hone : ∀ s c, Stable (rejectOne s c))
    (parseStacks : List GrammarStack) (candidates : List Cand) :
    Stable (rejectOverStacks rejectOne parseStacks candidates) := by
  cases parseStacks with
  | nil => exact stable_fail _
  | cons stack parseStacks =>
    unfold rejectOverStacks
    dsimp only
    split
    · exact stable_pure _
    · exact (hone stack candidates).bind (rejectRest_stable hone parseStacks)

theorem rejectRest_perm (hone : ∀ s c, Stable (rejectOne s c)) (hr : Rejects rejectOne Takes)
    (h : Returns (rejectRest rejectOne parseStacks rejects) (.ok res)) :
    res.Perm (rejects.filter fun tok => ∀ s ∈ parseStacks, ¬ Takes tok s) := by
  induction parseStacks generalizing rejects with
  | nil =>
    have hres : res = rejects := by simpa using returns_pure_iff.mp h
    simp [hres]
  | cons stack parseStacks ih =>
    rw [rejectRest_cons] at h
    split at h
    · rename_i hempty
      have hres : res = rejects := by simpa using returns_pure_iff.mp h
      simp_all
    · obtain ⟨mid, hmid, hrest⟩ :=
        (returns_bind_ok_iff (hone stack rejects) (rejectRest_stable hone parseStacks)).mp h
      refine (ih hrest).trans (((hr _ _ _ hmid).filter _).trans ?_)
      rw [List.filter_filter]
      refine List.Perm.of_eq (List.filter_congr fun tok _ => ?_)
      simp [Bool.and_comm]

theorem rejectOverStacks_perm (hone : ∀ s c, Stable (rejectOne s c))
    (hr : Rejects rejectOne Takes)
    (h : Returns (rejectOverStacks rejectOne parseStacks candidates) (.ok res)) :
    res.Perm (candidates.filter fun tok => ∀ s ∈ parseStacks, ¬ Takes tok s) := by
  cases parseStacks with
  | nil => exact nomatch returns_fail_iff.mp h
  | cons stack parseStacks =>
    unfold rejectOverStacks at h
    dsimp only at h
    split at h
    · rename_i hempty
      have hres : res = [] := by simpa using returns_pure_iff.mp h
      simp_all
    · obtain ⟨mid, hmid, hrest⟩ :=
        (returns_bind_ok_iff (hone stack candidates) (rejectRest_stable hone parseStacks)).mp h
      refine (rejectRest_perm hone hr hrest).trans (((hr _ _ _ hmid).filter _).trans ?_)
      rw [List.filter_filter]
      refine List.Perm.of_eq (List.filter_congr fun tok _ => ?_)
      simp [Bool.and_comm]

section Stack

theorem rejectForStack_class (h : (elem rules pos).gtype.isToken = false) (depth : ℕ)
    (rest : GrammarStack) (candidates : List Cand) :
    rejectForStack rules arena (depth + 1) (pos :: rest) candidates = fun fuel =>
      Exec.ofExcept (splitCandidates rules arena pos candidates) >>= fun split =>
        Exec.ofExcept (matchChar rules pos 0) >>= fun matched =>
          advanceStack rules (pushPos rules matched.2 rest) [] fuel >>= fun nextStacks =>
            rejectOverStacks (rejectForStack rules arena depth) nextStacks split.2 fuel >>=
              fun nextRejects => pure (split.1 ++ nextRejects.map Cand.back) := by
  funext fuel
  simp only [rejectForStack, h]
  rfl

theorem rejectForStack_token (h : (elem rules pos).gtype.isToken = true) (depth : ℕ)
    (rest : GrammarStack) (candidates : List Cand) :
    rejectForStack rules arena (depth + 1) (pos :: rest) candidates = fun _ =>
      pure (candidates.filter fun tok =>
        if codePointAt arena tok = 0 then tok.partialUtf8.nRemain != 0
        else !matchToken (elem rules pos) tok.id) := by
  funext fuel
  simp only [rejectForStack, h]
  rfl

theorem rejectForStack_stable (depth : ℕ) (stack : GrammarStack) (candidates : List Cand) :
    Stable (rejectForStack rules arena depth stack candidates) := by
  induction depth generalizing stack candidates with
  | zero => exact stable_const none
  | succ depth ih =>
    cases stack with
    | nil => exact stable_pure _
    | cons pos rest =>
      cases h : (elem rules pos).gtype.isToken with
      | true => rw [rejectForStack_token h]; exact stable_pure _
      | false =>
        rw [rejectForStack_class h]
        refine (stable_ofExcept _).bind fun split => (stable_ofExcept _).bind fun matched => ?_
        refine (advanceStack_stable _ _ _).bind fun nextStacks => ?_
        exact (rejectOverStacks_stable ih _ _).bind fun _ => stable_pure _

theorem returns_rejectForStack_class_iff (h : (elem rules pos).gtype.isToken = false)
    {depth : ℕ} :
    Returns (rejectForStack rules arena (depth + 1) (pos :: rest) candidates) (.ok res) ↔
      ∃ rejects next b after nextStacks nextRejects,
        splitCandidates rules arena pos candidates = .ok (rejects, next) ∧
        matchChar rules pos 0 = .ok (b, after) ∧
        Returns (advanceStack rules (pushPos rules after rest) []) (.ok nextStacks) ∧
        Returns (rejectOverStacks (rejectForStack rules arena depth) nextStacks next)
          (.ok nextRejects) ∧
        res = rejects ++ nextRejects.map Cand.back := by
  rw [rejectForStack_class h]
  have hover : ∀ (nextStacks : List GrammarStack) (next : List Cand),
      Stable (rejectOverStacks (rejectForStack rules arena depth) nextStacks next) :=
    rejectOverStacks_stable (rejectForStack_stable depth)
  rw [returns_bind_ok_iff (stable_ofExcept _) fun split => (stable_ofExcept _).bind fun matched =>
    (advanceStack_stable _ _ _).bind fun nextStacks => (hover _ _).bind fun _ => stable_pure _]
  constructor
  · rintro ⟨⟨rejects, next⟩, hs, h⟩
    obtain ⟨⟨b, after⟩, hm, h⟩ := (returns_bind_ok_iff (stable_ofExcept _) fun matched =>
      (advanceStack_stable _ _ _).bind fun nextStacks =>
        (hover _ _).bind fun _ => stable_pure _).mp h
    obtain ⟨nextStacks, hn, h⟩ := (returns_bind_ok_iff (advanceStack_stable _ _ _)
      fun nextStacks => (hover _ _).bind fun _ => stable_pure _).mp h
    obtain ⟨nextRejects, ho, h⟩ :=
      (returns_bind_ok_iff (hover _ _) fun _ => stable_pure _).mp h
    simp only [returns_ofExcept_iff, returns_pure_iff, Except.ok.injEq] at hs hm h
    exact ⟨rejects, next, b, after, nextStacks, nextRejects, hs.symm, hm.symm, hn, ho, h⟩
  · rintro ⟨rejects, next, b, after, nextStacks, nextRejects, hs, hm, hn, ho, rfl⟩
    refine ⟨(rejects, next), returns_ofExcept_iff.mpr hs.symm, ?_⟩
    refine (returns_bind_ok_iff (stable_ofExcept _) fun matched =>
      (advanceStack_stable _ _ _).bind fun nextStacks =>
        (hover _ _).bind fun _ => stable_pure _).mpr
          ⟨(b, after), returns_ofExcept_iff.mpr hm.symm, ?_⟩
    refine (returns_bind_ok_iff (advanceStack_stable _ _ _)
      fun nextStacks => (hover _ _).bind fun _ => stable_pure _).mpr ⟨nextStacks, hn, ?_⟩
    exact (returns_bind_ok_iff (hover _ _) fun _ => stable_pure _).mpr
      ⟨nextRejects, ho, returns_pure_iff.mpr rfl⟩

/-- Walking a stack rejects the candidates that the stack, taken alone, does not take. -/
theorem rejectForStack_rejects (depth : ℕ) :
    Rejects (rejectForStack rules arena depth) (Cand.Taken rules arena) := by
  induction depth with
  | zero =>
    rintro stack candidates res ⟨n, hn⟩
    exact nomatch hn
  | succ depth ih =>
    intro stack candidates res h
    cases stack with
    | nil =>
      have hres := Except.ok.inj (returns_pure_iff.mp h)
      subst hres
      refine List.Perm.of_eq (List.filter_congr fun tok _ => ?_)
      unfold Cand.Taken
      rw [maskTakes_nil_iff]
      rw [Bool.eq_iff_iff]
      by_cases h0 : codePointAt arena tok = 0
      · simp [h0, pts_of_zero h0]
      · simp [h0, pts_of_ne_zero h0]
    | cons pos rest =>
      cases htok : (elem rules pos).gtype.isToken with
      | true =>
        rw [rejectForStack_token htok] at h
        have hres := Except.ok.inj (returns_pure_iff.mp h)
        subst hres
        refine List.Perm.of_eq (List.filter_congr fun tok _ => ?_)
        unfold Cand.Taken
        rw [maskTakes_token_iff htok]
        rw [Bool.eq_iff_iff]
        by_cases h0 : codePointAt arena tok = 0
        · simp [h0, pts_of_zero h0]
        · simp [h0, pts_of_ne_zero h0]
      | false =>
        obtain ⟨rejects, next, b, after, nextStacks, nextRejects, hs, hm, hn, ho, rfl⟩ :=
          (returns_rejectForStack_class_iff htok).mp h
        obtain ⟨A, hA, _⟩ := matchChar_ok_iff.mp hm
        obtain ⟨hjudge, hrejects, hnext⟩ := splitCandidates_ok hs
        have hover := rejectOverStacks_perm (rejectForStack_stable depth) ih ho
        have hback := hover.map Cand.back
        rw [hnext, List.filter_map, List.map_map] at hback
        have hid : Cand.back ∘ Cand.advance = id := funext Cand.back_advance
        rw [hid, List.map_id, List.filter_filter] at hback
        rw [hrejects]
        refine (hback.append_left _).trans ?_
        refine (filter_append_filter_perm candidates fun tok _ => ?_).trans ?_
        · simp only [decide_eq_true_eq, Function.comp_apply, Bool.and_eq_true, not_and]
          intro hr _ ha
          rw [hr] at ha
          exact nomatch ha
        · refine List.Perm.of_eq (List.filter_congr fun tok htok => ?_)
          obtain ⟨v, hv⟩ := hjudge tok htok
          have hstep : v = .advance → ∀ t,
              ChrStep rules (codePointAt arena tok) (pos :: rest) t ↔ t ∈ nextStacks := by
            rintro rfl t
            rw [chrStep_class_iff hA, mem_advanceStack_iff hn,
              and_iff_right (codePoint_mem_of_advance hA hv)]
            simp
          rw [Bool.eq_iff_iff]
          simp only [Bool.or_eq_true, Bool.and_eq_true, decide_eq_true_eq, Function.comp_apply,
            taken_class_iff hA.isClass tok, hv, Except.ok.injEq]
          cases v with
          | keep => simp
          | reject => simp
          | advance => simp [hstep rfl, and_comm]

end Stack

end Reject

end Frink.Gbnf
