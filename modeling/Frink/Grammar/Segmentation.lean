import Frink.Grammar.Encoding
import Frink.Grammar.MaskAccept

/-! # Pieces against code points

A text given in pieces and the same text given code point by code point leave the
same stacks. In between they differ in a finished stack, which the token path
drops at the first piece and which takes no further code point anyway.
-/

namespace Frink.Gbnf

open Exec Worklist

variable {rules : List GrammarRule} {stack s t : GrammarStack} {g g' w w' : Grammar} {c id : ℕ}
  {chars u v : List ℕ} {current out res : List GrammarStack} {piece : List UInt8}

section Fine

/-- The code point is no trouble to the stack: taken or not, the machine is not stuck. -/
def Fine (rules : List GrammarRule) (c : ℕ) (stack : GrammarStack) : Prop :=
  ∃ out res, Returns (acceptChr rules stack c out) (.ok res)

/-- No code point of the word is trouble to a stack the earlier ones lead to. -/
def FineAlong (rules : List GrammarRule) : List ℕ → GrammarStack → Prop
  | [], _ => True
  | c :: chars, s => Fine rules c s ∧ ∀ t, ChrStep rules c s t → FineAlong rules chars t

theorem exists_acceptChr_iff (out : List GrammarStack) :
    (∃ res, Returns (acceptChr rules stack c out) (.ok res)) ↔ Fine rules c stack := by
  constructor
  · exact fun ⟨res, h⟩ => ⟨out, res, h⟩
  · rintro ⟨out', res, h⟩
    cases stack with
    | nil => exact ⟨out, returns_pure_iff.mpr rfl⟩
    | cons pos rest =>
      unfold acceptChr at h ⊢
      dsimp only at h ⊢
      split at h
      · rename_i htok
        simp only [if_pos htok]
        exact ⟨out, returns_pure_iff.mpr rfl⟩
      · rename_i htok
        simp only [if_neg htok]
        split at h
        · exact nomatch returns_fail_iff.mp h
        · split at h
          · rename_i hm
            simp only [if_pos hm]
            exact explore_ok_of_ok h out
          · rename_i hm
            simp only [if_neg hm]
            exact ⟨out, returns_pure_iff.mpr rfl⟩

theorem fine_nil : Fine rules c [] := ⟨[], [], returns_pure_iff.mpr rfl⟩

theorem fineAlong_nil (chars : List ℕ) : FineAlong rules chars [] := by
  cases chars with
  | nil => trivial
  | cons c chars => exact ⟨fine_nil, fun t h => (not_chrStep_nil h).elim⟩

theorem fineAlong_append : FineAlong rules (u ++ v) s ↔
    FineAlong rules u s ∧ ∀ t, CharSteps rules u s t → FineAlong rules v t := by
  induction u generalizing s with
  | nil => simp [FineAlong, CharSteps]
  | cons c u ih =>
    simp only [List.cons_append, FineAlong, CharSteps, ih]
    constructor
    · rintro ⟨hc, h⟩
      refine ⟨⟨hc, fun t ht => (h t ht).1⟩, ?_⟩
      rintro t ⟨r, hr, hrt⟩
      exact (h r hr).2 t hrt
    · rintro ⟨⟨hc, h⟩, h'⟩
      exact ⟨hc, fun t ht => ⟨h t ht, fun r hr => h' r ⟨t, ht, hr⟩⟩⟩

theorem exists_acceptAll_iff :
    (∃ res, Returns (acceptAll rules c current) (.ok res)) ↔ ∀ s ∈ current, Fine rules c s :=
  foldlM_ok_iff (fun next cur => acceptChr_stable rules cur c next)
    (fun _ _ out => exists_acceptChr_iff out) []

theorem exists_replayChars_iff :
    (∃ res, Returns (Grammar.replayChars rules chars current) (.ok res)) ↔
      ∀ s ∈ current, FineAlong rules chars s := by
  induction chars generalizing current with
  | nil => exact ⟨fun _ _ _ => trivial, fun _ => ⟨current, returns_pure_iff.mpr rfl⟩⟩
  | cons c chars ih =>
    have hk : ∀ next : List GrammarStack, Stable fun fuel =>
        (if next.isEmpty then pure [] else Grammar.replayChars rules chars next fuel :
          Exec GrammarError (List GrammarStack)) := by
      intro next
      split
      · exact stable_pure _
      · exact replayChars_stable _ _ _
    have hrest : ∀ next : List GrammarStack, (∃ res, Returns (fun fuel =>
        (if next.isEmpty then pure [] else Grammar.replayChars rules chars next fuel :
          Exec GrammarError (List GrammarStack))) (.ok res)) ↔
            ∀ t ∈ next, FineAlong rules chars t := by
      intro next
      split
      · rename_i hempty
        rw [List.isEmpty_iff.mp hempty]
        exact ⟨fun _ => nofun, fun _ => ⟨[], returns_pure_iff.mpr rfl⟩⟩
      · exact ih
    have hbind : ∀ res, Returns (Grammar.replayChars rules (c :: chars) current) (.ok res) ↔ _ :=
      fun res => returns_bind_ok_iff (acceptAll_stable rules c current) hk
    simp only [hbind, FineAlong]
    constructor
    · rintro ⟨res, next, hnext, hres⟩ s hs
      have hfine := exists_acceptAll_iff.mp ⟨next, hnext⟩
      refine ⟨hfine s hs, fun t ht => (hrest next).mp ⟨res, hres⟩ t ?_⟩
      exact (mem_acceptAll_iff hnext).mpr ⟨s, hs, ht⟩
    · intro h
      obtain ⟨next, hnext⟩ := exists_acceptAll_iff.mpr fun s hs => (h s hs).1
      have hfine : ∀ t ∈ next, FineAlong rules chars t := by
        intro t ht
        obtain ⟨s, hs, hst⟩ := (mem_acceptAll_iff hnext).mp ht
        exact (h s hs).2 t hst
      obtain ⟨res, hres⟩ := (hrest next).mpr hfine
      exact ⟨res, next, hnext, hres⟩

theorem FineAlong.along_init (h : FineAlong rules v s) (hu : u <+: v) : FineAlong rules u s := by
  obtain ⟨r, rfl⟩ := hu
  exact (fineAlong_append.mp h).1

end Fine

section Token

/-- No rule has an element that matches a token by its id. -/
def NoTokens (rules : List GrammarRule) : Prop :=
  ∀ e ∈ rules.flatten, e.gtype.isToken = false

instance (rules : List GrammarRule) : Decidable (NoTokens rules) :=
  inferInstanceAs (Decidable (∀ e ∈ rules.flatten, e.gtype.isToken = false))

theorem NoTokens.elem (h : NoTokens rules) (pos : RulePos) :
    (elem rules pos).gtype.isToken = false := by
  by_cases hend : (Gbnf.elem rules pos).gtype = .ruleEnd
  · rw [hend]
    rfl
  · obtain ⟨hr, _⟩ := elem_of_lt_length hend
    have hmem := List.mem_of_getElem? (getElem?_of_not_end hend)
    refine h _ (List.mem_flatten.mpr ⟨_, ?_, hmem⟩)
    simp [ruleAt, hr]

variable (hno : NoTokens rules)
include hno

theorem tokenStep_iff :
    TokenStep rules id chars s t ↔ s ≠ [] ∧ CharSteps rules chars s t := by
  constructor
  · intro h
    cases h with
    | token htok _ _ => rw [hno.elem] at htok; exact nomatch htok
    | chars _ hc => exact ⟨List.cons_ne_nil _ _, hc⟩
  · rintro ⟨hne, h⟩
    obtain ⟨top, rest, rfl⟩ := List.exists_cons_of_ne_nil hne
    exact .chars (hno.elem top) h

theorem exists_acceptOne_iff (out : List GrammarStack) :
    (∃ res, Returns (Grammar.acceptOne rules id chars out stack) (.ok res)) ↔
      FineAlong rules chars stack := by
  cases stack with
  | nil => exact ⟨fun _ => fineAlong_nil chars, fun _ => ⟨out, returns_pure_iff.mpr rfl⟩⟩
  | cons top rest =>
    have hone : ∀ res, Returns (Grammar.acceptOne rules id chars out (top :: rest)) (.ok res) ↔
        ∃ new, Returns (Grammar.replayChars rules chars [top :: rest]) (.ok new) ∧
          Returns (fun _ => (pure (Grammar.appendNew out new) :
            Exec GrammarError (List GrammarStack))) (.ok res) := by
      intro res
      rw [← returns_bind_ok_iff (replayChars_stable _ _ _) fun _ => stable_pure _]
      unfold Grammar.acceptOne
      simp only [hno.elem top, Bool.false_eq_true, if_false]
    have hreplay : (∃ new, Returns (Grammar.replayChars rules chars [top :: rest]) (.ok new)) ↔
        FineAlong rules chars (top :: rest) := by
      rw [exists_replayChars_iff]
      simp
    rw [← hreplay]
    simp only [hone]
    constructor
    · rintro ⟨_, new, hnew, _⟩
      exact ⟨new, hnew⟩
    · rintro ⟨new, hnew⟩
      exact ⟨_, new, hnew, returns_pure_iff.mpr rfl⟩

end Token

section Accept

variable (hawait : g.isAwaitingTrigger = false) (hno : NoTokens g.rules)
include hawait hno

/-- A piece whose code points are no trouble leaves what the unfinished stacks step to. -/
theorem acceptToken_fine (id : ℕ)
    (hfine : ∀ s ∈ g.parseStacks, FineAlong g.rules (g.pieceChars piece) s) :
    ∃ new, (∀ t, t ∈ new ↔
        ∃ s ∈ g.parseStacks, s ≠ [] ∧ CharSteps g.rules (g.pieceChars piece) s t) ∧
      Returns (g.acceptToken id piece) (g.commitToken piece (.ok new)) := by
  have hfold := foldlM_ok_iff (acceptOne_stable g.rules id (g.pieceChars piece))
    (fun s (_ : s ∈ g.parseStacks) out => exists_acceptOne_iff hno out) []
  obtain ⟨new, hnew⟩ := hfold.mpr hfine
  refine ⟨new, fun t => ?_, ?_⟩
  · have hcollect := foldlM_collect (acceptOne_stable g.rules id _)
      (fun s _ out res hs t => mem_acceptOne_iff hs) hnew t
    simpa [tokenStep_iff hno] using hcollect
  · rw [acceptToken_of_not_awaiting hawait, funext (Grammar.acceptTokenNow_eq g id piece)]
    exact returns_map_iff.mpr ⟨.ok new, hnew, rfl⟩

/-- A piece with a troublesome code point is refused and changes nothing. -/
theorem acceptToken_stuck {r : Except GrammarError Unit}
    (hstuck : ¬ ∀ s ∈ g.parseStacks, FineAlong g.rules (g.pieceChars piece) s)
    (h : Returns (g.acceptToken id piece) (r, g')) : (∃ e, r = .error e) ∧ g' = g := by
  have hfold := foldlM_ok_iff (acceptOne_stable g.rules id (g.pieceChars piece))
    (fun s (_ : s ∈ g.parseStacks) out => exists_acceptOne_iff hno out) []
  rw [acceptToken_of_not_awaiting hawait, funext (Grammar.acceptTokenNow_eq g id piece)] at h
  obtain ⟨res, hres, heq⟩ := returns_map_iff.mp h
  cases res with
  | error e =>
    cases heq
    exact ⟨⟨e, rfl⟩, rfl⟩
  | ok new => exact (hstuck (hfold.mp ⟨new, hres⟩)).elim

end Accept

section Walk

/-- The code points are accepted one by one. -/
def Walk (g : Grammar) (u : List ℕ) (w : Grammar) : Prop :=
  ∃ rs, CodepointRun g u rs w ∧ ∀ r ∈ rs, r = .ok ()

theorem walk_nil_iff : Walk g [] w ↔ w = g := by
  constructor
  · rintro ⟨_, hrun, _⟩
    cases hrun
    rfl
  · rintro rfl
    exact ⟨[], .nil, nofun⟩

theorem walk_cons_iff : Walk g (c :: u) w ↔
    ∃ res, Returns (acceptAll g.rules c g.parseStacks) (.ok res) ∧
      Walk { g with parseStacks := res } u w := by
  constructor
  · rintro ⟨_, hrun, hok⟩
    cases hrun with
    | @cons _ m _ _ _ r rs hstep hrest =>
      obtain rfl : r = .ok () := hok r (by simp)
      obtain ⟨res, hres, rfl⟩ := returns_acceptCodepoint_ok_iff.mp hstep
      exact ⟨res, hres, rs, hrest, fun r hr => hok r (by simp [hr])⟩
  · rintro ⟨res, hres, rs, hrun, hok⟩
    have hstep : Returns (g.acceptCodepoint c) (.ok (), { g with parseStacks := res }) :=
      returns_acceptCodepoint_ok_iff.mpr ⟨res, hres, rfl⟩
    exact ⟨.ok () :: rs, .cons hstep hrun, by simpa using hok⟩

theorem Walk.spec (h : Walk g u w) : w.rules = g.rules ∧
    ∀ t, t ∈ w.parseStacks ↔ ∃ s ∈ g.parseStacks, CharSteps g.rules u s t := by
  induction u generalizing g with
  | nil =>
    rw [walk_nil_iff.mp h]
    simp [CharSteps]
  | cons c u ih =>
    obtain ⟨res, hres, h⟩ := walk_cons_iff.mp h
    obtain ⟨hrules, hmem⟩ := ih h
    refine ⟨hrules, fun t => ?_⟩
    simp only [hmem, mem_acceptAll_iff hres, CharSteps]
    tauto

theorem exists_walk_iff :
    (∃ w, Walk g u w) ↔ ∀ s ∈ g.parseStacks, FineAlong g.rules u s := by
  induction u generalizing g with
  | nil => simp [walk_nil_iff, FineAlong]
  | cons c u ih =>
    simp only [walk_cons_iff, FineAlong]
    constructor
    · rintro ⟨w, res, hres, hw⟩ s hs
      have hrest := ih.mp ⟨w, hw⟩
      exact ⟨exists_acceptAll_iff.mp ⟨res, hres⟩ s hs,
        fun t ht => hrest t ((mem_acceptAll_iff hres).mpr ⟨s, hs, ht⟩)⟩
    · intro h
      obtain ⟨res, hres⟩ := exists_acceptAll_iff.mpr fun s hs => (h s hs).1
      have hrest : ∀ t ∈ res, FineAlong g.rules u t := by
        intro t ht
        obtain ⟨s, hs, hst⟩ := (mem_acceptAll_iff hres).mp ht
        exact (h s hs).2 t hst
      obtain ⟨w, hw⟩ := (ih (g := { g with parseStacks := res })).mpr hrest
      exact ⟨w, res, hres, hw⟩

theorem walk_append : Walk g (u ++ v) w ↔ ∃ m, Walk g u m ∧ Walk m v w := by
  induction u generalizing g with
  | nil => simp [walk_nil_iff]
  | cons c u ih =>
    simp only [List.cons_append, walk_cons_iff, ih]
    tauto

theorem Walk.dead (h : Walk g u w) (hg : g.parseStacks = []) : w.parseStacks = [] := by
  rw [List.eq_nil_iff_forall_not_mem]
  intro t ht
  obtain ⟨s, hs, _⟩ := (h.spec.2 t).mp ht
  rw [hg] at hs
  exact nomatch hs

/-- Where the walk has died out nothing more can trouble it. -/
theorem Walk.fine_of_dead (h : Walk g u w) (hdead : w.parseStacks = []) (hu : u <+: v) :
    ∀ s ∈ g.parseStacks, FineAlong g.rules v s := by
  obtain ⟨r, rfl⟩ := hu
  intro s hs
  refine fineAlong_append.mpr ⟨exists_walk_iff.mp ⟨w, h⟩ s hs, fun t ht => ?_⟩
  have hmem := (h.spec.2 t).mpr ⟨s, hs, ht⟩
  rw [hdead] at hmem
  exact nomatch hmem

end Walk

section Pieces

/-- Tokens with their pieces, offered until one is refused; the verdict is that on the last. -/
inductive PieceRun : Grammar → List (ℕ × List UInt8) → Except GrammarError Unit → Grammar →
    Prop where

  | nil {g : Grammar} : PieceRun g [] (.ok ()) g

  | cons {g g' g'' : Grammar} {id : ℕ} {piece : List UInt8} {pieces : List (ℕ × List UInt8)}
      {r : Except GrammarError Unit} : Returns (g.acceptToken id piece) (.ok (), g') →
      PieceRun g' pieces r g'' → PieceRun g ((id, piece) :: pieces) r g''

  | refused {g g' : Grammar} {id : ℕ} {piece : List UInt8} {pieces : List (ℕ × List UInt8)}
      {e : GrammarError} : Returns (g.acceptToken id piece) (.error e, g') →
      PieceRun g ((id, piece) :: pieces) (.error e) g'

/-- The stacks after the pieces and after the code points they complete: a finished stack may be
missing while a character is open. -/
def SameStacks (g w : Grammar) (k : ℕ) : Prop :=
  (∀ t, t ≠ [] → (t ∈ g.parseStacks ↔ t ∈ w.parseStacks)) ∧
    (k = 0 → ([] ∈ g.parseStacks ↔ [] ∈ w.parseStacks))

/-- The pieces and the word they spell have the same outcome, from `g` and from `w`. -/
structure PiecesAgree (g w : Grammar) (pieces : List (ℕ × List UInt8)) (word : List ℕ) :
    Prop where

  same : ∀ g', PieceRun g pieces (.ok ()) g' →
    ∃ w', Walk w word w' ∧ ∀ s, s ∈ g'.parseStacks ↔ s ∈ w'.parseStacks

  survives : ∀ w', Walk w word w' → w'.parseStacks ≠ [] ∨ word = [] →
    ∃ g', PieceRun g pieces (.ok ()) g'

  dies_iff : (∃ e g', PieceRun g pieces (.error e) g' ∧ g'.parseStacks = []) ↔
    ∃ u w', u ≠ [] ∧ u <+: word ∧ Walk w u w' ∧ w'.parseStacks = []

  stuck : ∀ e g', PieceRun g pieces (.error e) g' → g'.parseStacks ≠ [] → ¬ ∃ w', Walk w word w'

variable {text done text' : List Char} {k k' : ℕ} {p : PartialUtf8} {more : List UInt8}
  {pieces : List (ℕ × List UInt8)} {word : List ℕ} {r : Except GrammarError Unit}

theorem pieceRun_nil_iff : PieceRun g [] r g' ↔ r = .ok () ∧ g' = g := by
  constructor
  · intro h
    cases h
    exact ⟨rfl, rfl⟩
  · rintro ⟨rfl, rfl⟩
    exact .nil

/-- The first piece has one outcome, which decides how the run goes on. -/
theorem pieceRun_cons_iff {first : Except GrammarError Unit} {m : Grammar}
    (h : Returns (g.acceptToken id piece) (first, m)) :
    PieceRun g ((id, piece) :: pieces) r g' ↔
      first = .ok () ∧ PieceRun m pieces r g' ∨ ∃ e, first = .error e ∧ r = .error e ∧ g' = m := by
  have huniq : ∀ x, Returns (g.acceptToken id piece) x → x = (first, m) :=
    fun x hx => hx.unique (Grammar.acceptToken_stable g id piece) h
  constructor
  · intro hrun
    cases hrun with
    | cons hstep hrest =>
      cases huniq _ hstep
      exact .inl ⟨rfl, hrest⟩
    | @refused _ _ _ _ _ e hstep =>
      cases huniq _ hstep
      exact .inr ⟨e, rfl, rfl, rfl⟩
  · rintro (⟨rfl, hrest⟩ | ⟨e, rfl, rfl, rfl⟩)
    · exact .cons h hrest
    · exact .refused h

theorem SameStacks.fine_iff (h : SameStacks g w k) (hrules : w.rules = g.rules) :
    (∀ s ∈ g.parseStacks, FineAlong g.rules u s) ↔ ∀ s ∈ w.parseStacks, FineAlong w.rules u s := by
  rw [hrules]
  constructor
  · intro hf s hs
    by_cases hne : s = []
    · rw [hne]
      exact fineAlong_nil u
    · exact hf s ((h.1 s hne).mpr hs)
  · intro hf s hs
    by_cases hne : s = []
    · rw [hne]
      exact fineAlong_nil u
    · exact hf s ((h.1 s hne).mp hs)

theorem not_charSteps_nil : ¬ CharSteps rules (c :: u) [] t := by
  rintro ⟨_, h, _⟩
  exact not_chrStep_nil h

/-- A piece that is not refused keeps the stacks together. -/
theorem SameStacks.step (h : SameStacks g w k) {m : Grammar} (hwalk : Walk w u w')
    (hrules : w.rules = g.rules) (hopen : u = [] → k' ≠ 0)
    (hmem : ∀ t, t ∈ m.parseStacks ↔ ∃ s ∈ g.parseStacks, s ≠ [] ∧ CharSteps g.rules u s t) :
    SameStacks m w' k' := by
  have hw := hwalk.spec.2
  rw [hrules] at hw
  cases u with
  | nil =>
    refine ⟨fun t ht => ?_, fun hk => (hopen rfl hk).elim⟩
    rw [hmem, hw]
    constructor
    · rintro ⟨s, hs, hne, hst⟩
      exact ⟨s, (h.1 s hne).mp hs, hst⟩
    · rintro ⟨s, hs, rfl⟩
      exact ⟨s, (h.1 s ht).mpr hs, ht, rfl⟩
  | cons c u =>
    have heq : ∀ t, t ∈ m.parseStacks ↔ t ∈ w'.parseStacks := by
      intro t
      rw [hmem, hw]
      constructor
      · rintro ⟨s, hs, hne, hst⟩
        exact ⟨s, (h.1 s hne).mp hs, hst⟩
      · rintro ⟨s, hs, hst⟩
        have hne : s ≠ [] := by
          rintro rfl
          exact not_charSteps_nil hst
        exact ⟨s, (h.1 s hne).mpr hs, hne, hst⟩
    exact ⟨fun t _ => heq t, fun _ => heq []⟩

/-- A piece inside the first character moves the position on. -/
theorem position_ne_zero (hne : piece ≠ []) (hcut : piece ++ more = (encode text).drop k)
    (hmore : more = (encode text).drop k') : k' ≠ 0 := by
  rintro rfl
  have hlen := congrArg List.length hcut
  have hpos := List.length_pos_of_ne_nil hne
  rw [hmore, List.length_append, List.drop_zero, List.length_drop] at hlen
  omega

/-- Where no unfinished stack is left, the walk dies out within the rest of the text. -/
theorem exists_dead_walk (hs : Stands p text k) (hsame : SameStacks g w k)
    (hdead : g.parseStacks = []) (hopen : word ≠ [] ∨ k ≠ 0) {w₀ : Grammar}
    (hwalk : Walk w₀ word w) :
    ∃ u w', u ≠ [] ∧ u <+: word ++ codes text ∧ Walk w₀ u w' ∧ w'.parseStacks = [] := by
  by_cases hk : k = 0
  · have hnil : w.parseStacks = [] := by
      rw [List.eq_nil_iff_forall_not_mem]
      intro t ht
      have hmem : t ∈ g.parseStacks := by
        by_cases hne : t = []
        · rw [hne]
          exact (hsame.2 hk).mpr (hne ▸ ht)
        · exact (hsame.1 t hne).mpr ht
      rw [hdead] at hmem
      exact nomatch hmem
    exact ⟨word, w, hopen.resolve_right (not_not.mpr hk), List.prefix_append _ _, hwalk, hnil⟩
  · obtain ⟨c, rest, rfl⟩ : ∃ c rest, text = c :: rest := by
      cases hs with
      | between _ => exact (hk rfl).elim
      | inside _ _ _ => exact ⟨_, _, rfl⟩
    have hempty : ∀ s ∈ w.parseStacks, s = [] := by
      intro s hmem
      by_contra hne
      rw [← hsame.1 s hne, hdead] at hmem
      exact nomatch hmem
    obtain ⟨w', hstep⟩ := (exists_walk_iff (g := w) (u := [c.toNat])).mpr fun s hmem => by
      rw [hempty s hmem]
      exact fineAlong_nil _
    refine ⟨word ++ [c.toNat], w', by simp, ⟨codes rest, by simp [codes]⟩,
      walk_append.mpr ⟨w, hwalk, hstep⟩, ?_⟩
    rw [List.eq_nil_iff_forall_not_mem]
    intro t ht
    obtain ⟨s, hmem, hst⟩ := (hstep.spec.2 t).mp ht
    rw [hempty s hmem] at hst
    exact not_charSteps_nil hst

theorem Stands.finished (hs : Stands p text k) (h : [] = (encode text).drop k) :
    text = [] ∧ k = 0 := by
  have hlen := congrArg List.length h
  cases hs with
  | between _ =>
    refine ⟨?_, rfl⟩
    cases text with
    | nil => rfl
    | cons c text =>
      have := c.utf8Size_pos
      simp only [List.length_nil, List.drop_zero, encode_cons, List.length_append,
        String.length_utf8EncodeChar] at hlen
      omega
  | inside _ hk _ =>
    simp only [List.length_nil, List.length_drop, encode_cons, List.length_append,
      String.length_utf8EncodeChar] at hlen
    omega

theorem piecesAgree_nil (hsame : SameStacks g w 0) : PiecesAgree g w [] [] where
  same g' h := by
    obtain ⟨-, rfl⟩ := pieceRun_nil_iff.mp h
    refine ⟨w, walk_nil_iff.mpr rfl, fun s => ?_⟩
    by_cases hs : s = []
    · rw [hs]
      exact hsame.2 rfl
    · exact hsame.1 s hs
  survives _ _ _ := ⟨g, .nil⟩
  dies_iff := by
    constructor
    · rintro ⟨e, g', h, _⟩
      exact nomatch (pieceRun_nil_iff.mp h).1
    · rintro ⟨u, w', hne, hu, _⟩
      exact (hne (List.prefix_nil.mp hu)).elim
  stuck _ _ h := nomatch (pieceRun_nil_iff.mp h).1

/-- A refused piece: the walk of the rest of the text is refused as well. -/
theorem piecesAgree_stuck (hawait : g.isAwaitingTrigger = false) (hno : NoTokens g.rules)
    (hstuck : ¬ ∀ s ∈ g.parseStacks, FineAlong g.rules (g.pieceChars piece) s)
    (hword : ¬ ∀ s ∈ w.parseStacks, FineAlong w.rules word s) :
    PiecesAgree g w ((id, piece) :: pieces) word := by
  have hrun : ∀ r g', PieceRun g ((id, piece) :: pieces) r g' →
      (∃ e, r = .error e) ∧ g' = g := by
    intro r g' h
    cases h with
    | cons hstep _ => exact nomatch (acceptToken_stuck hawait hno hstuck hstep).1
    | refused hstep => exact acceptToken_stuck hawait hno hstuck hstep
  refine ⟨fun g' h => (nomatch (hrun _ _ h).1), fun w' hw _ => ?_, ?_, fun _ _ _ _ hw => ?_⟩
  · exact (hword (exists_walk_iff.mp ⟨w', hw⟩)).elim
  · constructor
    · rintro ⟨e, g', h, hdead⟩
      obtain ⟨-, rfl⟩ := hrun _ _ h
      refine (hstuck fun s hs => ?_).elim
      rw [hdead] at hs
      exact nomatch hs
    · rintro ⟨u, w', _, hu, hw, hdead⟩
      exact (hword (hw.fine_of_dead hdead hu)).elim
  · exact hword (exists_walk_iff.mp hw)

/-- A piece after which no stack is left, and a walk that has died out within the text. -/
theorem piecesAgree_dead {m : Grammar} {e : GrammarError}
    (h : Returns (g.acceptToken id piece) (.error e, m)) (hdead : m.parseStacks = [])
    (hwalk : ∃ u w', u ≠ [] ∧ u <+: word ∧ Walk w u w' ∧ w'.parseStacks = []) :
    PiecesAgree g w ((id, piece) :: pieces) word := by
  have hrun : ∀ r g', PieceRun g ((id, piece) :: pieces) r g' → r = .error e ∧ g' = m := by
    intro r g' hrun
    rcases (pieceRun_cons_iff h).mp hrun with ⟨hok, _⟩ | ⟨_, heq, rfl, rfl⟩
    · exact nomatch hok
    · exact ⟨heq.symm, rfl⟩
  refine ⟨fun g' h => (nomatch (hrun _ _ h).1), fun w' hw halive => ?_, ?_,
    fun _ _ hr hne => ?_⟩
  · obtain ⟨u, w₁, hne, ⟨v, rfl⟩, hw₁, hdead₁⟩ := hwalk
    obtain ⟨w₂, hw₂, hrest⟩ := walk_append.mp hw
    have hdead₂ : w₂.parseStacks = [] := by
      rw [List.eq_nil_iff_forall_not_mem]
      intro t ht
      rw [hw₂.spec.2, ← hw₁.spec.2, hdead₁] at ht
      exact nomatch ht
    rcases halive with halive | hnil
    · exact (halive (hrest.dead hdead₂)).elim
    · exact (hne (List.append_eq_nil_iff.mp hnil).1).elim
  · exact ⟨fun _ => hwalk, fun _ => ⟨e, m, .refused h, hdead⟩⟩
  · exact (hne ((hrun _ _ hr).2 ▸ hdead)).elim

/-- A piece that is taken, and the walk over the characters it completes. -/
theorem piecesAgree_cons {m : Grammar} (h : Returns (g.acceptToken id piece) (.ok (), m))
    (hwalk : Walk w u w') (halive : w'.parseStacks ≠ []) (hrest : PiecesAgree m w' pieces v) :
    PiecesAgree g w ((id, piece) :: pieces) (u ++ v) := by
  have hrun : ∀ r g', PieceRun g ((id, piece) :: pieces) r g' ↔ PieceRun m pieces r g' := by
    intro r g'
    rw [pieceRun_cons_iff h]
    simp
  have hmid : ∀ x, Walk w u x → ∀ t, t ∈ x.parseStacks ↔ t ∈ w'.parseStacks := by
    intro x hx t
    rw [hx.spec.2, hwalk.spec.2]
  have hsplit : ∀ v' x, Walk w (u ++ v') x → ∃ y, Walk w' v' y ∧
      ∀ t, t ∈ y.parseStacks ↔ t ∈ x.parseStacks := by
    intro v' x hx
    have hfine : ∀ s ∈ w'.parseStacks, FineAlong w'.rules v' s := by
      intro s hs
      obtain ⟨r, hr, hst⟩ := (hwalk.spec.2 s).mp hs
      rw [hwalk.spec.1]
      exact (fineAlong_append.mp (exists_walk_iff.mp ⟨x, hx⟩ r hr)).2 s hst
    obtain ⟨y, hy⟩ := exists_walk_iff.mpr hfine
    refine ⟨y, hy, fun t => ?_⟩
    rw [hx.spec.2, (walk_append.mpr ⟨w', hwalk, hy⟩).spec.2]
  refine ⟨fun g' hg' => ?_, fun x hx hx' => ?_, ?_, fun e g' hr hne ⟨x, hx⟩ => ?_⟩
  · obtain ⟨x, hx, hsame⟩ := hrest.same g' ((hrun _ _).mp hg')
    exact ⟨x, walk_append.mpr ⟨w', hwalk, hx⟩, hsame⟩
  · obtain ⟨y, hy, hmem⟩ := hsplit v x hx
    have hy' : y.parseStacks ≠ [] ∨ v = [] := by
      rcases hx' with hx' | hnil
      · obtain ⟨t, ht⟩ := List.exists_mem_of_ne_nil _ hx'
        exact .inl (List.ne_nil_of_mem ((hmem t).mpr ht))
      · exact .inr (List.append_eq_nil_iff.mp hnil).2
    obtain ⟨g', hg'⟩ := hrest.survives y hy hy'
    exact ⟨g', (hrun _ _).mpr hg'⟩
  · simp only [hrun, hrest.dies_iff]
    constructor
    · rintro ⟨v', x, hne, hv, hx, hdead⟩
      refine ⟨u ++ v', x, by simp [hne], ?_, walk_append.mpr ⟨w', hwalk, hx⟩, hdead⟩
      exact (List.prefix_append_right_inj u).mpr hv
    · rintro ⟨u', x, hne, hu', hx, hdead⟩
      rcases List.prefix_or_prefix_of_prefix hu' (List.prefix_append u v) with hle | ⟨v', rfl⟩
      · obtain ⟨v', rfl⟩ := hle
        obtain ⟨y, hy, hyw⟩ := walk_append.mp hwalk
        have hydead : y.parseStacks = [] := by
          rw [List.eq_nil_iff_forall_not_mem]
          intro t ht
          rw [hy.spec.2, ← hx.spec.2, hdead] at ht
          exact nomatch ht
        exact (halive (hyw.dead hydead)).elim
      · obtain ⟨y, hy, hmem⟩ := hsplit v' x hx
        have hydead : y.parseStacks = [] := by
          rw [List.eq_nil_iff_forall_not_mem]
          intro t ht
          rw [hmem, hdead] at ht
          exact nomatch ht
        refine ⟨v', y, ?_, (List.prefix_append_right_inj u).mp hu', hy, hydead⟩
        rintro rfl
        rw [walk_nil_iff.mp hy] at hydead
        exact halive hydead
  · obtain ⟨y, hy, _⟩ := hsplit v x hx
    exact hrest.stuck e g' ((hrun _ _).mp hr) hne ⟨y, hy⟩

/-- What a piece that is not refused leaves of the grammar. -/
theorem commitToken_ok (g : Grammar) (piece : List UInt8) (new : List GrammarStack) :
    g.commitToken piece (.ok new) =
      (if new = [] then .error (.noViableStack piece) else .ok (),
        { g with
          parseStacks := new
          partialUtf8 := (decodePiece piece g.partialUtf8).2 }) := by
  cases new <;> rfl

/-- Along any cut of the rest of a text the token path keeps pace with the code points. -/
theorem piecesAgree_of_stands (hawait : g.isAwaitingTrigger = false) (hno : NoTokens g.rules)
    (hrules : w.rules = g.rules) (hs : Stands g.partialUtf8 text k)
    (hnul : ∀ c ∈ text, c.toNat ≠ 0) (hsame : SameStacks g w k)
    (hne : ∀ x ∈ pieces, x.2 ≠ [])
    (hcut : (pieces.map Prod.snd).flatten = (encode text).drop k) :
    PiecesAgree g w pieces (codes text) := by
  induction pieces generalizing g w text k with
  | nil =>
    obtain ⟨rfl, rfl⟩ := hs.finished hcut
    exact piecesAgree_nil hsame
  | cons x pieces ih =>
    obtain ⟨id, piece⟩ := x
    rw [List.map_cons, List.flatten_cons] at hcut
    have hpiece : piece ≠ [] := hne (id, piece) (by simp)
    obtain ⟨done, text', k', p', rfl, hs', hmore, hdec⟩ := decodePiece_stands hs hcut hnul
    have hchars : g.pieceChars piece = codes done := by
      rw [Grammar.pieceChars, hdec, List.dropLast_concat]
    have hcodes : codes (done ++ text') = codes done ++ codes text' := List.map_append
    by_cases hfine : ∀ s ∈ g.parseStacks, FineAlong g.rules (g.pieceChars piece) s
    · obtain ⟨new, hmem, hret⟩ := acceptToken_fine hawait hno id hfine
      rw [commitToken_ok, hdec] at hret
      rw [hchars] at hfine hmem
      obtain ⟨w', hwalk⟩ := exists_walk_iff.mpr ((hsame.fine_iff hrules).mp hfine)
      have hopen : codes done = [] → k' ≠ 0 := by
        intro hnil
        obtain rfl : done = [] := List.map_eq_nil_iff.mp hnil
        exact position_ne_zero hpiece hcut hmore
      have hstep : SameStacks { g with parseStacks := new, partialUtf8 := p' } w' k' :=
        hsame.step hwalk hrules hopen hmem
      by_cases hnew : new = []
      · rw [if_pos hnew] at hret
        refine piecesAgree_dead hret hnew ?_
        rw [hcodes]
        refine exists_dead_walk hs' hstep hnew ?_ hwalk
        by_cases hnil : codes done = []
        · exact .inr (hopen hnil)
        · exact .inl hnil
      · rw [if_neg hnew] at hret
        have hrest : PiecesAgree { g with parseStacks := new, partialUtf8 := p' } w' pieces
            (codes text') :=
          ih hawait hno (hwalk.spec.1.trans hrules) hs' (fun c hc => hnul c (by simp [hc])) hstep
            (fun x hx => hne x (by simp [hx])) hmore
        rw [hcodes]
        refine piecesAgree_cons hret hwalk (fun hdead => hnew ?_) hrest
        rw [List.eq_nil_iff_forall_not_mem]
        intro t ht
        obtain ⟨s, hsm, hsne, hst⟩ := (hmem t).mp ht
        have hmem' := (hwalk.spec.2 t).mpr ⟨s, (hsame.1 s hsne).mp hsm, hrules ▸ hst⟩
        rw [hdead] at hmem'
        cases hmem'
    · refine piecesAgree_stuck hawait hno hfine fun hword => hfine ?_
      rw [hchars, hsame.fine_iff hrules]
      exact fun s hs => (hword s hs).along_init (hcodes ▸ List.prefix_append _ _)

/-- Cutting a text into pieces does not change the parse: the pieces are all taken exactly where
the code points leave a stack, with the same stacks, and they die out where the code points do. -/
theorem segmentation_agrees (hawait : g.isAwaitingTrigger = false) (hno : NoTokens g.rules)
    (hp : g.partialUtf8.nRemain ≤ 0) (hnul : ∀ c ∈ text, c.toNat ≠ 0)
    (hne : ∀ x ∈ pieces, x.2 ≠ []) (hcut : (pieces.map Prod.snd).flatten = encode text) :
    PiecesAgree g g pieces (codes text) :=
  piecesAgree_of_stands hawait hno rfl (.between hp) hnul ⟨fun _ _ => Iff.rfl, fun _ => Iff.rfl⟩
    hne hcut

/-- `root ::= "é"` -/
def accentGrammar : Grammar := ⟨[[⟨.char, 0xe9⟩, ⟨.ruleEnd, 0⟩]], [[⟨0, 0⟩]], .empty, none⟩

theorem segmentation_agrees_accent :
    ∃ g', PieceRun accentGrammar [(0, [0xc3]), (1, [0xa9])] (.ok ()) g' := by
  have hagree : PiecesAgree accentGrammar accentGrammar [(0, [0xc3]), (1, [0xa9])] (codes ['é']) :=
    segmentation_agrees rfl (by decide) (by decide) (by simp) (by decide) (by decide)
  have hstep : Returns (acceptAll accentGrammar.rules 0xe9 accentGrammar.parseStacks)
      (.ok [[]]) := ⟨3, rfl⟩
  have hwalk : Walk accentGrammar (codes ['é']) { accentGrammar with parseStacks := [[]] } :=
    walk_cons_iff.mpr ⟨_, hstep, walk_nil_iff.mpr rfl⟩
  exact hagree.survives _ hwalk (.inl (by decide))

/-- Over a table with a stray modifier a piece is refused where the code points never die out, and
a piece offered while a character is open is taken for nothing. -/
theorem segmentation_disagrees :
    (NoTokens strayTable ∧ [[97]].flatten = encode ['a'] ∧
      PieceRun strayGrammar [(0, [97])] (.error restError) strayGrammar ∧
      ¬ ∃ u w, u <+: codes ['a'] ∧ Walk strayGrammar u w ∧ w.parseStacks = []) ∧
    ([[0xc3, 0xa9]].flatten = encode ['é'] ∧
      ∃ g, PieceRun accentGrammar [(0, [0xc3])] (.ok ()) g ∧
        (∃ g', PieceRun g [(1, [0xc3, 0xa9])] (.ok ()) g' ∧ g'.parseStacks = [[⟨0, 0⟩]]) ∧
        ∃ w, Walk g (codes ['é']) w ∧ w.parseStacks = [[]]) := by
  constructor
  · refine ⟨by decide, by decide, .refused ⟨3, rfl⟩, ?_⟩
    rintro ⟨u, w, hu, hw, hdead⟩
    cases u with
    | nil =>
      rw [walk_nil_iff.mp hw] at hdead
      exact nomatch hdead
    | cons c u =>
      obtain ⟨rfl, _⟩ : c = 97 ∧ u <+: [] := List.cons_prefix_cons.mp hu
      obtain ⟨res, hres, _⟩ := walk_cons_iff.mp hw
      have hstuck : Returns (acceptAll strayTable 97 strayGrammar.parseStacks)
          (.error restError) := ⟨3, rfl⟩
      exact nomatch hres.unique (acceptAll_stable _ _ _) hstuck
  · have hopen : Returns (accentGrammar.acceptToken 0 [0xc3])
        (.ok (), { accentGrammar with partialUtf8 := ⟨3, 1⟩ }) := ⟨3, rfl⟩
    have hstep : Returns (acceptAll accentGrammar.rules 0xe9 accentGrammar.parseStacks)
        (.ok [[]]) := ⟨3, rfl⟩
    exact ⟨by decide, _, .cons hopen .nil, ⟨_, .cons ⟨3, rfl⟩ .nil, rfl⟩,
      _, walk_cons_iff.mpr ⟨_, hstep, walk_nil_iff.mpr rfl⟩, rfl⟩

end Pieces

end Frink.Gbnf
