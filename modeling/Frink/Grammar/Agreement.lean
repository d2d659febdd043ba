import Frink.Grammar.Recognizer
import Frink.Grammar.Candidates

/-! # Masking against accepting

The mask and the replay walk the same stacks. They part at a code point 0, which
the mask reads as the end of the piece, and at a token element met mid-piece.
-/

namespace Frink.Gbnf

open Exec Worklist Relation

variable {rules : List GrammarRule} {arena : List (List ℕ)} {stack t : GrammarStack}
  {parseStacks : List GrammarStack} {candidates res : List Cand} {g g' : Grammar}

/-- Without left recursion a clean stack can be run out. -/
theorem exists_front (hw : WellFormed rules) (hrec : NoLeftRecursion rules)
    (hs : Clean.Stack rules stack) : ∃ t, Front (visitStack rules) stack t := by
  induction acc_stack hrec stack with
  | intro stack _ ih =>
    cases hv : visitStack rules stack with
    | emit => exact ⟨stack, .refl, hv⟩
    | fail e => exact (hs.not_fail e hv).elim
    | expand next =>
      have hne : next ≠ [] := by
        cases stack with
        | nil => cases hv
        | cons pos rest =>
          by_cases href : (elem rules pos).gtype = .ruleRef
          · rw [visitStack_ref href] at hv
            cases hv
            simp [expandRef, alternates_ne_nil]
          · rcases hs pos (by simp) with hc | hc
            · exact (href hc).elim
            · rw [visitStack_terminal hc] at hv
              cases hv
      obtain ⟨u, hu⟩ := List.exists_mem_of_ne_nil next hne
      have hstep : Succ (visitStack rules) stack u := (succ_expand_iff hv).mpr hu
      obtain ⟨t, ht⟩ := ih u hstep (hs.reach hw (.single hstep))
      exact ⟨t, .head hstep ht.1, ht.2⟩

section Reject

open Classical

variable {rejectOne : GrammarStack → List Cand → ℕ → Exec GrammarError (List Cand)}
  {Takes : Cand → GrammarStack → Prop}

theorem Rejects.subset (hr : Rejects rejectOne Takes)
    (h : Returns (rejectOne stack candidates) (.ok res)) : res ⊆ candidates := by
  intro tok htok
  exact List.mem_of_mem_filter ((hr _ _ _ h).mem_iff.mp htok)

theorem rejectRest_ok (hone : ∀ s c, Stable (rejectOne s c)) (hr : Rejects rejectOne Takes)
    (hok : ∀ s ∈ parseStacks, ∀ c ⊆ candidates, c ≠ [] → ∃ r, Returns (rejectOne s c) (.ok r)) :
    ∃ r, Returns (rejectRest rejectOne parseStacks candidates) (.ok r) := by
  induction parseStacks generalizing candidates with
  | nil => exact ⟨candidates, returns_pure_iff.mpr rfl⟩
  | cons stack parseStacks ih =>
    rw [rejectRest_cons]
    split
    · exact ⟨candidates, returns_pure_iff.mpr rfl⟩
    · rename_i hne
      obtain ⟨mid, hmid⟩ := hok stack (by simp) candidates (List.Subset.refl _) (by simpa using hne)
      have hsub := hr.subset hmid
      obtain ⟨r, hrest⟩ := ih fun s hs c hc => hok s (by simp [hs]) c (List.Subset.trans hc hsub)
      exact ⟨r, (returns_bind_ok_iff (hone stack candidates)
        (rejectRest_stable hone parseStacks)).mpr ⟨mid, hmid, hrest⟩⟩

theorem rejectOverStacks_ok (hone : ∀ s c, Stable (rejectOne s c)) (hr : Rejects rejectOne Takes)
    (hne : parseStacks ≠ [])
    (hok : ∀ s ∈ parseStacks, ∀ c ⊆ candidates, c ≠ [] → ∃ r, Returns (rejectOne s c) (.ok r)) :
    ∃ r, Returns (rejectOverStacks rejectOne parseStacks candidates) (.ok r) := by
  obtain ⟨stack, parseStacks, rfl⟩ := List.exists_cons_of_ne_nil hne
  unfold rejectOverStacks
  dsimp only
  split
  · exact ⟨[], returns_pure_iff.mpr rfl⟩
  · rename_i hc
    obtain ⟨mid, hmid⟩ := hok stack (by simp) candidates (List.Subset.refl _) (by simpa using hc)
    have hsub := hr.subset hmid
    have hlater : ∀ s ∈ parseStacks, ∀ c ⊆ mid, c ≠ [] → ∃ r, Returns (rejectOne s c) (.ok r) :=
      fun s hs c hsc => hok s (List.mem_cons_of_mem _ hs) c (List.Subset.trans hsc hsub)
    obtain ⟨r, hrest⟩ := rejectRest_ok hone hr hlater
    exact ⟨r, (returns_bind_ok_iff (hone stack candidates)
      (rejectRest_stable hone parseStacks)).mpr ⟨mid, hmid, hrest⟩⟩

end Reject

section Total

variable (hw : WellFormed rules) (hrec : NoLeftRecursion rules)
include hw hrec

theorem advanceStack_ok (hs : Clean.Stack rules stack) (out : List GrammarStack) :
    ∃ r, Returns (advanceStack rules stack out) (.ok r) := by
  obtain ⟨r, hr⟩ := terminates_of_noLeftRecursion hrec stack out
  cases r with
  | error e => exact (advanceStack_not_error hw hs hr).elim
  | ok r => exact ⟨r, hr⟩

/-- The walk over a stack ends without a refusal within the length of the longest piece. -/
theorem rejectForStack_ok (depth : ℕ) (hpos : 0 < depth) (hs : Clean.Stack rules stack)
    (hrest : AtRest rules stack) (hdepth : ∀ tok ∈ candidates, (tok.pts arena).length < depth) :
    ∃ r, Returns (rejectForStack rules arena depth stack candidates) (.ok r) := by
  induction depth generalizing stack candidates with
  | zero => omega
  | succ depth ih =>
    cases stack with
    | nil => exact ⟨_, returns_pure_iff.mpr rfl⟩
    | cons pos rest =>
      cases htok : (elem rules pos).gtype.isToken with
      | true =>
        rw [rejectForStack_token htok]
        exact ⟨_, returns_pure_iff.mpr rfl⟩
      | false =>
        have hclass : (elem rules pos).gtype.isClass = true :=
          (atRest_cons hrest).resolve_left (by simp [htok])
        obtain ⟨⟨rejects, next⟩, hsplit⟩ := splitCandidates_of_isClass hclass arena
          candidates
        obtain ⟨A, b, after, hA, hm, _⟩ := matchChar_of_isClass hclass 0
        have hbelow : Clean.Stack rules rest := fun p hp => hs p (by simp [hp])
        have hafter := hbelow.push (hw.class_end hA)
        obtain ⟨nextStacks, hn⟩ := advanceStack_ok hw hrec hafter []
        have hfront : ∀ t ∈ nextStacks, Front (visitStack rules) (pushPos rules after rest) t := by
          intro t ht
          simpa using (mem_advanceStack_iff hn).mp ht
        have hne : nextStacks ≠ [] := by
          obtain ⟨t, ht⟩ := exists_front hw hrec hafter
          exact List.ne_nil_of_mem ((mem_advanceStack_iff hn).mpr (.inr ht))
        have hok : ∀ t ∈ nextStacks, ∀ c ⊆ next, c ≠ [] →
            ∃ r, Returns (rejectForStack rules arena depth t c) (.ok r) := by
          intro t ht c hc hcne
          have hshort : ∀ tok ∈ c, (tok.pts arena).length < depth := by
            intro tok htok
            have hmem := hc htok
            rw [(splitCandidates_ok hsplit).2.2, List.mem_map] at hmem
            obtain ⟨tok', htok', rfl⟩ := hmem
            obtain ⟨hmem, hadv⟩ := List.mem_filter.mp htok'
            have hlt := hdepth tok' hmem
            rw [pts_of_ne_zero (codePoint_ne_zero_of_advance (by simpa using hadv)),
              List.length_cons] at hlt
            omega
          obtain ⟨tok, htok⟩ := List.exists_mem_of_ne_nil c hcne
          have hlt := hshort tok htok
          exact ih (by omega) (hafter.reach hw (hfront t ht).1)
            (visitStack_emit_iff.mp (hfront t ht).2) hshort
        obtain ⟨nextRejects, ho⟩ := rejectOverStacks_ok (rejectForStack_stable depth)
          (rejectForStack_rejects depth) hne hok
        exact ⟨_, (returns_rejectForStack_class_iff htok).mpr
          ⟨rejects, next, b, after, nextStacks, nextRejects, hsplit, hm, hn, ho, rfl⟩⟩

end Total

section Batch

/-- The code points of a piece the mask reads: all of them up to a 0. -/
def Grammar.maskPoints (g : Grammar) (piece : List UInt8) : List ℕ :=
  (decodePiece piece g.partialUtf8).1.takeWhile (· ≠ 0)

/-- Some stack of the grammar lets the token through the mask. -/
def Grammar.Passes (g : Grammar) (id : ℕ) (piece : List UInt8) : Prop :=
  ∃ s ∈ g.parseStacks,
    MaskTakes g.rules id (decodePiece piece g.partialUtf8).2 s (g.maskPoints piece)

def decodeCand (g : Grammar) (c : Candidate × ℕ) : Cand :=
  ⟨c.1.index, c.1.id, c.2, 0, (decodePiece c.1.piece g.partialUtf8).2⟩

theorem decodeCands_eq (g : Grammar) (cands : List Candidate) :
    decodeCands g cands = cands.zipIdx.map (decodeCand g) := rfl

theorem decodeCand_pts {cands : List Candidate} {c : Candidate × ℕ} (hc : c ∈ cands.zipIdx) :
    (decodeCand g c).pts (decodeArena g cands) = g.maskPoints c.1.piece := by
  obtain ⟨c, slot⟩ := c
  have hslot : cands[slot]? = some c := List.mem_zipIdx_iff_getElem?.mp hc
  simp [decodeCand, Cand.pts, decodeArena, hslot, Grammar.maskPoints]

theorem decodeCand_taken_iff {cands : List Candidate} {c : Candidate × ℕ}
    (hc : c ∈ cands.zipIdx) :
    (∃ s ∈ g.parseStacks, (decodeCand g c).Taken g.rules (decodeArena g cands) s) ↔
      g.Passes c.1.id c.1.piece := by
  unfold Cand.Taken
  rw [decodeCand_pts hc]
  rfl

theorem length_lt_arenaDepth {l : List ℕ} (h : l ∈ arena) : l.length < arenaDepth arena := by
  unfold arenaDepth
  induction arena with
  | nil => exact nomatch h
  | cons m arena ih =>
    simp only [List.map_cons, List.foldr_cons]
    rcases List.mem_cons.mp h with rfl | h
    · omega
    · have := ih h
      omega

theorem decodeCands_short {cands : List Candidate} :
    ∀ tok ∈ decodeCands g cands,
      (tok.pts (decodeArena g cands)).length < arenaDepth (decodeArena g cands) := by
  intro tok htok
  rw [decodeCands_eq] at htok
  obtain ⟨c, hc, rfl⟩ := List.mem_map.mp htok
  rw [decodeCand_pts hc]
  have hmem : (decodePiece c.1.piece g.partialUtf8).1 ∈ decodeArena g cands := by
    obtain ⟨c, slot⟩ := c
    have hslot : cands[slot]? = some c := List.mem_zipIdx_iff_getElem?.mp hc
    exact List.mem_map.mpr ⟨c, List.mem_of_getElem? hslot, rfl⟩
  exact lt_of_le_of_lt (List.takeWhile_prefix _).length_le (length_lt_arenaDepth hmem)

open Classical in
/-- The rejected indices are those of the candidates that no stack lets through, each once. -/
theorem rejectCandidates_perm {cands : List Candidate} {rejected : List ℕ}
    (h : Returns (rejectCandidates g cands) (.ok rejected)) :
    rejected.Perm ((cands.filter fun c => ¬ g.Passes c.id c.piece).map (·.index)) := by
  unfold rejectCandidates at h
  split at h
  · exact nomatch returns_fail_iff.mp h
  split at h
  · rename_i hempty
    have hres := Except.ok.inj (returns_pure_iff.mp h)
    simp_all
  split at h
  · rename_i hdead
    have hres := Except.ok.inj (returns_pure_iff.mp h)
    have hno : ∀ id piece, ¬ g.Passes id piece := by
      rintro id piece ⟨s, hs, _⟩
      simp_all
    simp [hres, hno]
  · have hone : ∀ s c, Stable (rejectForStack g.rules (decodeArena g cands)
        (arenaDepth (decodeArena g cands)) s c) := rejectForStack_stable _
    obtain ⟨rejects, hr, hres⟩ := (returns_bind_ok_iff
      (rejectOverStacks_stable hone g.parseStacks _) fun _ => stable_pure _).mp h
    have hres := Except.ok.inj (returns_pure_iff.mp hres)
    have hperm := rejectOverStacks_perm hone (rejectForStack_rejects _) hr
    rw [decodeCands_eq, List.filter_map] at hperm
    have hmap := hperm.map Cand.index
    rw [List.map_map] at hmap
    rw [hres]
    refine hmap.trans (List.Perm.of_eq ?_)
    have hcongr : cands.zipIdx.filter ((fun tok => decide (∀ s ∈ g.parseStacks,
          ¬ tok.Taken g.rules (decodeArena g cands) s)) ∘ decodeCand g) =
        cands.zipIdx.filter ((fun c => decide (¬ g.Passes c.id c.piece)) ∘ Prod.fst) := by
      refine List.filter_congr fun c hc => ?_
      simp only [Function.comp_apply, ← decodeCand_taken_iff hc, not_exists, not_and]
    rw [hcongr]
    have hfst : cands.filter (fun c => decide (¬ g.Passes c.id c.piece)) =
        (cands.zipIdx.filter
          ((fun c => decide (¬ g.Passes c.id c.piece)) ∘ Prod.fst)).map Prod.fst := by
      rw [← List.filter_map, List.zipIdx_map_fst]
    rw [hfst, List.map_map]
    rfl

/-- What the machine keeps of its stacks over a well-formed table. -/
structure Sound (g : Grammar) : Prop where
  wellFormed : WellFormed g.rules
  noLeftRecursion : NoLeftRecursion g.rules
  clean : ∀ s ∈ g.parseStacks, Clean.Stack g.rules s
  atRest : ∀ s ∈ g.parseStacks, AtRest g.rules s

theorem Sound.rejectCandidates_ok (hg : Sound g) (hawait : g.isAwaitingTrigger = false)
    (cands : List Candidate) :
    ∃ rejected, Returns (rejectCandidates g cands) (.ok rejected) := by
  unfold rejectCandidates
  split
  · rename_i hyes
    rw [hawait] at hyes
    exact nomatch hyes
  split
  · exact ⟨[], returns_pure_iff.mpr rfl⟩
  split
  · exact ⟨_, returns_pure_iff.mpr rfl⟩
  · rename_i hdead
    have hone : ∀ s c, Stable (rejectForStack g.rules (decodeArena g cands)
        (arenaDepth (decodeArena g cands)) s c) := rejectForStack_stable _
    have hok : ∀ s ∈ g.parseStacks, ∀ c ⊆ decodeCands g cands, c ≠ [] →
        ∃ r, Returns (rejectForStack g.rules (decodeArena g cands)
          (arenaDepth (decodeArena g cands)) s c) (.ok r) :=
      fun s hs c hc _ => rejectForStack_ok hg.wellFormed hg.noLeftRecursion _ (Nat.succ_pos _)
        (hg.clean s hs) (hg.atRest s hs) fun tok htok => decodeCands_short tok (hc htok)
    obtain ⟨r, hr⟩ := rejectOverStacks_ok hone (rejectForStack_rejects _) (by simpa using hdead) hok
    exact ⟨_, (returns_bind_ok_iff (rejectOverStacks_stable hone g.parseStacks _)
      fun _ => stable_pure _).mpr ⟨r, hr, returns_pure_iff.mpr rfl⟩⟩

/-- A candidate with an index of its own is rejected exactly when no stack lets it through. -/
theorem mem_rejected_iff {cands : List Candidate} {c : Candidate} {rejected : List ℕ}
    (h : Returns (rejectCandidates g cands) (.ok rejected)) (hc : c ∈ cands)
    (huniq : ∀ d ∈ cands, d.index = c.index → d = c) :
    c.index ∈ rejected ↔ ¬ g.Passes c.id c.piece := by
  rw [(rejectCandidates_perm h).mem_iff]
  simp only [List.mem_map, List.mem_filter, decide_eq_true_eq]
  constructor
  · rintro ⟨d, ⟨hd, hno⟩, hidx⟩
    rwa [huniq d hd hidx] at hno
  · exact fun hno => ⟨c, ⟨hc, hno⟩, rfl⟩

end Batch

section Accept

/-- A stack takes a sequence of code points. -/
def CharSteps (rules : List GrammarRule) : List ℕ → GrammarStack → GrammarStack → Prop
  | [], s, t => s = t
  | c :: l, s, t => ∃ u, ChrStep rules c s u ∧ CharSteps rules l u t

/-- A stack takes a token: on its id when it rests on a token element, else on its piece. -/
inductive TokenStep (rules : List GrammarRule) (id : ℕ) (chars : List ℕ) :
    GrammarStack → GrammarStack → Prop where

  | token {top : RulePos} {rest t : GrammarStack} : (elem rules top).gtype.isToken = true →
      matchToken (elem rules top) id = true →
      Front (visitStack rules) (pushPos rules top.next rest) t →
      TokenStep rules id chars (top :: rest) t

  | chars {top : RulePos} {rest t : GrammarStack} : (elem rules top).gtype.isToken = false →
      CharSteps rules chars (top :: rest) t → TokenStep rules id chars (top :: rest) t

variable {id c : ℕ} {chars : List ℕ} {out new current : List GrammarStack}

theorem mem_replayChars_iff (h : Returns (Grammar.replayChars rules chars current) (.ok new)) :
    t ∈ new ↔ ∃ s ∈ current, CharSteps rules chars s t := by
  induction chars generalizing current with
  | nil =>
    have hnew := Except.ok.inj (returns_pure_iff.mp h)
    simp [hnew, CharSteps]
  | cons c chars ih =>
    have hk : ∀ next : List GrammarStack, Stable fun fuel =>
        (if next.isEmpty then pure [] else Grammar.replayChars rules chars next fuel :
          Exec GrammarError (List GrammarStack)) := by
      intro next
      split
      · exact stable_pure _
      · exact replayChars_stable _ _ _
    obtain ⟨next, hnext, h⟩ :=
      (returns_bind_ok_iff (acceptAll_stable rules c current) hk).mp h
    have hsteps : (∃ s ∈ current, CharSteps rules (c :: chars) s t) ↔
        ∃ u ∈ next, CharSteps rules chars u t := by
      simp only [CharSteps, mem_acceptAll_iff hnext]
      tauto
    rw [hsteps]
    split at h
    · rename_i hempty
      have hnew := Except.ok.inj (returns_pure_iff.mp h)
      simp_all
    · exact ih h

theorem mem_appendNew_iff : t ∈ Grammar.appendNew out new ↔ t ∈ out ∨ t ∈ new := by
  induction new generalizing out with
  | nil => simp [Grammar.appendNew]
  | cons s new ih =>
    have hfold : Grammar.appendNew out (s :: new) =
        Grammar.appendNew (if s ∈ out then out else out ++ [s]) new := rfl
    rw [hfold, ih, List.mem_cons, ← or_assoc]
    split
    · rename_i hs
      have hout : t = s → t ∈ out := fun hts => hts ▸ hs
      tauto
    · simp

theorem mem_acceptOne_iff (h : Returns (Grammar.acceptOne rules id chars out stack) (.ok new)) :
    t ∈ new ↔ t ∈ out ∨ TokenStep rules id chars stack t := by
  cases stack with
  | nil =>
    have hnew := Except.ok.inj (returns_pure_iff.mp h)
    rw [hnew]
    exact ⟨.inl, fun h => h.resolve_right nofun⟩
  | cons top rest =>
    unfold Grammar.acceptOne at h
    dsimp only at h
    split at h
    · rename_i htok
      have hiff : TokenStep rules id chars (top :: rest) t ↔
          matchToken (elem rules top) id = true ∧
            Front (visitStack rules) (pushPos rules top.next rest) t := by
        constructor
        · intro hs
          cases hs with
          | token _ hm hf => exact ⟨hm, hf⟩
          | chars hno _ => rw [htok] at hno; exact nomatch hno
        · rintro ⟨hm, hf⟩
          exact .token htok hm hf
      split at h
      · rename_i hm
        rw [mem_advanceStack_iff h, hiff, and_iff_right hm]
      · rename_i hm
        have hnew := Except.ok.inj (returns_pure_iff.mp h)
        rw [hnew, hiff]
        simp [hm]
    · rename_i htok
      have htok : (elem rules top).gtype.isToken = false := by simpa using htok
      obtain ⟨survivors, hs, h⟩ :=
        (returns_bind_ok_iff (replayChars_stable _ _ _) fun _ => stable_pure _).mp h
      have hnew := Except.ok.inj (returns_pure_iff.mp h)
      rw [hnew, mem_appendNew_iff, mem_replayChars_iff hs]
      have hiff : TokenStep rules id chars (top :: rest) t ↔
          CharSteps rules chars (top :: rest) t := by
        constructor
        · intro hs
          cases hs with
          | token hyes _ _ => rw [htok] at hyes; exact nomatch hyes
          | chars _ hc => exact hc
        · exact .chars htok
      simp [hiff]

/-- The code points of a piece the replay reads. -/
def Grammar.pieceChars (g : Grammar) (piece : List UInt8) : List ℕ :=
  (decodePiece piece g.partialUtf8).1.dropLast

/-- Some stack of the grammar takes the whole token. -/
def Grammar.TakesWhole (g : Grammar) (id : ℕ) (piece : List UInt8) : Prop :=
  ∃ s ∈ g.parseStacks, ∃ t, TokenStep g.rules id (g.pieceChars piece) s t

end Accept

end Frink.Gbnf
