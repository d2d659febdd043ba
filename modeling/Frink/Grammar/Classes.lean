import Mathlib
import Frink.Grammar.LeftRecursion

/-! # Character classes

A class is a chain of elements, each with an optional upper bound, negated as a
whole when it starts with `CHAR_NOT`. The modifiers continue a class only.
-/

namespace Frink.Gbnf

/-- One element of a class with its optional upper bound: what it admits and where it ends. -/
inductive ClassItem (rules : List GrammarRule) : RulePos → Set ℕ → RulePos → Prop where

  | range {pos : RulePos} : (elem rules pos.next).gtype = .charRngUpper →
      ClassItem rules pos (Set.Icc (elem rules pos).value (elem rules pos.next).value)
        (pos.advance 2)

  | any {pos : RulePos} : (elem rules pos.next).gtype ≠ .charRngUpper →
      (elem rules pos).gtype = .charAny → ClassItem rules pos Set.univ pos.next

  | single {pos : RulePos} : (elem rules pos.next).gtype ≠ .charRngUpper →
      (elem rules pos).gtype ≠ .charAny → ClassItem rules pos {(elem rules pos).value} pos.next

inductive ClassGroup (rules : List GrammarRule) : RulePos → Set ℕ → RulePos → Prop where

  | last {pos after : RulePos} {A : Set ℕ} : ClassItem rules pos A after →
      (elem rules after).gtype ≠ .charAlt → ClassGroup rules pos A after

  | more {pos mid after : RulePos} {A B : Set ℕ} : ClassItem rules pos A mid →
      (elem rules mid).gtype = .charAlt → ClassGroup rules mid B after →
      ClassGroup rules pos (A ∪ B) after

/-- The class at a cursor: the code points it admits and the cursor just past it. -/
def CharClass (rules : List GrammarRule) (pos : RulePos) (A : Set ℕ) (after : RulePos) : Prop :=
  (isPositiveChar (elem rules pos).gtype = true ∧ ClassGroup rules pos A after) ∨
    ((elem rules pos).gtype = .charNot ∧ ∃ B, ClassGroup rules pos B after ∧ A = Bᶜ)

variable {rules : List GrammarRule} {pos after after' : RulePos} {A B : Set ℕ} {chr : ℕ}
  {b : Bool}

theorem ClassItem.unique (h : ClassItem rules pos A after) (h' : ClassItem rules pos B after') :
    A = B ∧ after = after' := by
  cases h <;> cases h' <;> simp_all

theorem ClassGroup.unique (h : ClassGroup rules pos A after)
    (h' : ClassGroup rules pos B after') : A = B ∧ after = after' := by
  induction h generalizing B with
  | last hi ha =>
    cases h' with
    | last hi' _ => exact hi.unique hi'
    | more hi' ha' _ =>
      obtain ⟨_, rfl⟩ := hi.unique hi'
      exact (ha ha').elim
  | more hi ha _ ih =>
    cases h' with
    | last hi' ha' =>
      obtain ⟨_, rfl⟩ := hi.unique hi'
      exact (ha' ha).elim
    | more hi' _ hg' =>
      obtain ⟨rfl, rfl⟩ := hi.unique hi'
      obtain ⟨rfl, rfl⟩ := ih hg'
      exact ⟨rfl, rfl⟩

theorem CharClass.unique (h : CharClass rules pos A after) (h' : CharClass rules pos B after') :
    A = B ∧ after = after' := by
  have hne : isPositiveChar (elem rules pos).gtype = true →
      (elem rules pos).gtype ≠ .charNot := by
    intro hp hn
    rw [hn] at hp
    exact nomatch hp
  rcases h with ⟨hp, hg⟩ | ⟨hn, C, hg, rfl⟩ <;> rcases h' with ⟨hp', hg'⟩ | ⟨hn', D, hg', rfl⟩
  · exact hg.unique hg'
  · exact (hne hp hn').elim
  · exact (hne hp' hn).elim
  · obtain ⟨rfl, rfl⟩ := hg.unique hg'
    exact ⟨rfl, rfl⟩

/-- The test a class element makes of a code point. -/
def admits (chr lo hi : ℕ) : Bool := lo ≤ chr && chr ≤ hi

theorem classItem_spec (rules : List GrammarRule) (pos : RulePos) (chr : ℕ) :
    ∃ A, ClassItem rules pos A (classItem rules pos (admits chr)).2 ∧
      ((classItem rules pos (admits chr)).1 = true ↔ chr ∈ A) := by
  unfold classItem
  dsimp only
  by_cases hn : (elem rules pos.next).gtype = .charRngUpper
  · rw [if_pos hn]
    exact ⟨_, .range hn, by simp [admits]⟩
  · rw [if_neg hn]
    by_cases ha : (elem rules pos).gtype = .charAny
    · rw [if_pos ha]
      exact ⟨_, .any hn ha, by simp⟩
    · rw [if_neg ha]
      refine ⟨_, .single hn ha, ?_⟩
      simp only [admits, Bool.and_eq_true, decide_eq_true_eq, Set.mem_singleton_iff]
      omega

theorem ClassItem.index_lt (h : ClassItem rules pos A after) :
    after.rule = pos.rule ∧ pos.index < after.index := by
  cases h <;> simp

theorem classLoop_spec (n : ℕ) (pos : RulePos) (found : Bool) (hn : 0 < n)
    (hlen : (ruleAt rules pos.rule).length + 1 ≤ pos.index + n) :
    ∃ A, ClassGroup rules pos A (classLoop rules (admits chr) n pos found).2 ∧
      ((classLoop rules (admits chr) n pos found).1 = true ↔ found = true ∨ chr ∈ A) := by
  induction n generalizing pos found with
  | zero => omega
  | succ n ih =>
    obtain ⟨A, hA, hmem⟩ := classItem_spec rules pos chr
    rw [classLoop]
    generalize hitem : classItem rules pos (admits chr) = item at hA hmem
    obtain ⟨here, mid⟩ := item
    dsimp only at hA hmem ⊢
    by_cases halt : (elem rules mid).gtype = .charAlt
    · rw [if_neg (by simpa using halt)]
      obtain ⟨hrule, hindex⟩ := hA.index_lt
      have hne : (elem rules mid).gtype ≠ .ruleEnd := by rw [halt]; decide
      have hin := (elem_of_lt_length hne).2
      have hin' : mid.index < (ruleAt rules pos.rule).length := hrule ▸ hin
      obtain ⟨B, hB, hmem'⟩ := ih mid (found || here) (by omega) (by rw [hrule]; omega)
      refine ⟨A ∪ B, .more hA halt hB, ?_⟩
      rw [hmem', Bool.or_eq_true, hmem, Set.mem_union, or_assoc]
    · rw [if_pos halt]
      exact ⟨A, .last hA halt, by rw [Bool.or_eq_true, hmem]⟩

theorem isClass_iff (t : GreType) :
    t.isClass = true ↔ isPositiveChar t = true ∨ t = .charNot := by
  cases t <;> simp [GreType.isClass, isPositiveChar]

theorem matchChar_eq (hc : (elem rules pos).gtype.isClass = true) (chr : ℕ) :
    matchChar rules pos chr =
      .ok ((classLoop rules (admits chr) (ruleLength rules pos) pos false).1 ==
          isPositiveChar (elem rules pos).gtype,
        (classLoop rules (admits chr) (ruleLength rules pos) pos false).2) := by
  unfold matchChar
  dsimp only
  rw [if_neg]
  · rfl
  · revert hc
    generalize (elem rules pos).gtype = t
    cases t <;> simp [GreType.isClass, isPositiveChar]

theorem matchChar_of_isClass (hc : (elem rules pos).gtype.isClass = true) (chr : ℕ) :
    ∃ A b after, CharClass rules pos A after ∧ matchChar rules pos chr = .ok (b, after) ∧
      (b = true ↔ chr ∈ A) := by
  have hlen : (ruleAt rules pos.rule).length + 1 ≤ pos.index + ruleLength rules pos := by
    simp [ruleLength, ruleAt]
  obtain ⟨A, hA, hmem⟩ : ∃ A, ClassGroup rules pos A
      (classLoop rules (admits chr) (ruleLength rules pos) pos false).2 ∧ _ :=
    classLoop_spec (ruleLength rules pos) pos false (by simp [ruleLength]) hlen
  rw [Bool.false_eq_true, false_or] at hmem
  rw [matchChar_eq hc]
  generalize classLoop rules (admits chr) (ruleLength rules pos) pos false = loop at hA hmem
  obtain ⟨found, after⟩ := loop
  dsimp only at hA hmem ⊢
  rcases (isClass_iff _).mp hc with hp | hn
  · exact ⟨A, found == true, after, .inl ⟨hp, hA⟩, by simp [hp], by simpa using hmem⟩
  · refine ⟨Aᶜ, found == false, after, .inr ⟨hn, A, hA, rfl⟩, by rw [hn]; rfl, ?_⟩
    · rw [Set.mem_compl_iff, ← hmem]
      cases found <;> simp

theorem matchChar_of_not_isClass (hc : (elem rules pos).gtype.isClass = false) (chr : ℕ) :
    matchChar rules pos chr = .error matchCharError := by
  unfold matchChar
  dsimp only
  revert hc
  generalize (elem rules pos).gtype = t
  cases t <;> simp [GreType.isClass, isPositiveChar]

/-- The machine reads a class as the class it is. -/
theorem matchChar_ok_iff :
    matchChar rules pos chr = .ok (b, after) ↔
      ∃ A, CharClass rules pos A after ∧ (b = true ↔ chr ∈ A) := by
  cases hc : (elem rules pos).gtype.isClass with
  | false =>
    rw [matchChar_of_not_isClass hc]
    constructor
    · exact nofun
    · rintro ⟨A, ⟨hp, _⟩ | ⟨hn, _⟩, _⟩
      · have := (isClass_iff _).mpr (.inl hp)
        rw [hc] at this
        exact nomatch this
      · rw [hn] at hc
        exact nomatch hc
  | true =>
    obtain ⟨A, b', after', hA, hm, hmem⟩ := matchChar_of_isClass hc chr
    rw [hm]
    constructor
    · intro h
      cases h
      exact ⟨A, hA, hmem⟩
    · rintro ⟨B, hB, hmem'⟩
      obtain ⟨rfl, rfl⟩ := hA.unique hB
      rw [show b' = b by cases b <;> cases b' <;> simp_all]

section WellFormed

/-- The modifiers of a class follow an element of a class only. -/
def mayFollow (prev : GreType) : GreType → Bool
  | .charRngUpper => prev == .char || prev == .charNot || prev == .charAlt
  | .charAlt => prev == .char || prev == .charNot || prev == .charAlt || prev == .charRngUpper
  | _ => true

def wellFormedFrom : GreType → GrammarRule → Bool
  | _, [] => true
  | prev, e :: rule => mayFollow prev e.gtype && wellFormedFrom e.gtype rule

/-- Every modifier of the table continues a class. -/
def WellFormed (rules : List GrammarRule) : Prop :=
  rules.all (wellFormedFrom .alt) = true

instance (rules : List GrammarRule) : Decidable (WellFormed rules) :=
  inferInstanceAs (Decidable (rules.all (wellFormedFrom .alt) = true))

theorem mayFollow_of_wellFormedFrom {prev : GreType} {rule : GrammarRule}
    (h : wellFormedFrom prev rule = true) {i : ℕ} {e : GrammarElement}
    (he : rule[i]? = some e) :
    mayFollow ((prev :: rule.map (·.gtype))[i]?.getD .alt) e.gtype = true := by
  induction rule generalizing prev i with
  | nil => simp at he
  | cons f rule ih =>
    simp only [wellFormedFrom, Bool.and_eq_true] at h
    cases i with
    | zero => simp_all
    | succ i => simpa using ih h.2 (by simpa using he)

theorem WellFormed.mayFollow_next (h : WellFormed rules) (pos : RulePos) :
    mayFollow (elem rules pos).gtype (elem rules pos.next).gtype = true := by
  by_cases hend : (elem rules pos.next).gtype = .ruleEnd
  · rw [hend]; rfl
  have hget := getElem?_of_not_end hend
  obtain ⟨hr, hi⟩ := elem_of_lt_length hend
  have hrule : wellFormedFrom .alt (ruleAt rules pos.rule) = true := by
    simp only [RulePos.next_rule] at hr
    have := List.all_eq_true.mp h _ (List.getElem_mem hr)
    simpa [ruleAt, hr] using this
  have hstep := mayFollow_of_wellFormedFrom hrule hget
  simp only [RulePos.next_index, List.getElem?_cons_succ, List.getElem?_map] at hstep
  have hprev : (ruleAt rules pos.rule)[pos.index]? = some (elem rules pos) := by
    have hlt : pos.index < (ruleAt rules pos.rule).length := by
      simp only [RulePos.next_index, RulePos.next_rule] at hi
      exact Nat.lt_of_succ_lt hi
    have hget' := List.getElem?_eq_getElem hlt
    rw [hget', elem_eq_of_getElem? hget']
  simpa [hprev] using hstep

theorem WellFormed.mayFollow_start (h : WellFormed rules) (r : ℕ) :
    mayFollow .alt (elem rules ⟨r, 0⟩).gtype = true := by
  by_cases hend : (elem rules ⟨r, 0⟩).gtype = .ruleEnd
  · rw [hend]; rfl
  have hget := getElem?_of_not_end hend
  obtain ⟨hr, _⟩ := elem_of_lt_length hend
  have hrule : wellFormedFrom .alt (ruleAt rules r) = true := by
    have := List.all_eq_true.mp h _ (List.getElem_mem hr)
    have hr' : r < rules.length := hr
    simpa [ruleAt, hr'] using this
  simpa using mayFollow_of_wellFormedFrom hrule hget

/-- A cursor the machine may leave on a stack: a reference or an element that consumes input. -/
def Clean (rules : List GrammarRule) (pos : RulePos) : Prop :=
  (elem rules pos).gtype = .ruleRef ∨ (elem rules pos).gtype.isStackTerminal = true

def Clean.Stack (rules : List GrammarRule) (stack : GrammarStack) : Prop :=
  ∀ pos ∈ stack, Clean rules pos

theorem clean_or_end {prev : GreType} (hprev : prev.isClass = false)
    (hm : prev ≠ .charAlt ∧ prev ≠ .charRngUpper)
    (h : mayFollow prev (elem rules pos).gtype = true) :
    (elem rules pos).isEndOfSequence = true ∨ Clean rules pos := by
  rw [GrammarElement.isEndOfSequence_iff]
  unfold Clean
  revert h
  generalize (elem rules pos).gtype = t
  cases t <;> cases prev <;> simp_all [mayFollow, GreType.isStackTerminal, GreType.isClass]

theorem Clean.Stack.push {stack : GrammarStack} (hs : Clean.Stack rules stack)
    (h : (elem rules pos).isEndOfSequence = true ∨ Clean rules pos) :
    Clean.Stack rules (pushPos rules pos stack) := by
  unfold pushPos
  split
  · exact hs
  · rename_i hend
    intro q hq
    rcases List.mem_cons.mp hq with rfl | hq
    · exact h.resolve_left hend
    · exact hs q hq

theorem WellFormed.alternate (h : WellFormed rules) {r : ℕ} (hpos : pos ∈ alternates rules r) :
    (elem rules pos).isEndOfSequence = true ∨ Clean rules pos := by
  suffices hm : mayFollow .alt (elem rules pos).gtype = true from
    clean_or_end rfl (by decide) hm
  obtain ⟨hrule, h0 | ⟨i, hi, halt⟩⟩ := alternate_start hpos
  · have := h.mayFollow_start r
    rwa [show pos = ⟨r, 0⟩ by rw [← hrule, ← h0]]
  · have := h.mayFollow_next ⟨r, i⟩
    rw [halt] at this
    rwa [show pos = (RulePos.mk r i).next by rw [RulePos.next, ← hrule, ← hi]]

theorem WellFormed.next (h : WellFormed rules) (hpos : (elem rules pos).gtype = .ruleRef ∨
    (elem rules pos).gtype.isToken = true) :
    (elem rules pos.next).isEndOfSequence = true ∨ Clean rules pos.next := by
  have hm := h.mayFollow_next pos
  revert hm
  generalize (elem rules pos).gtype = t at hpos
  intro hm
  refine clean_or_end ?_ ?_ hm
  · rcases hpos with rfl | hpos
    · rfl
    · cases t <;> simp_all [GreType.isToken, GreType.isClass]
  · rcases hpos with rfl | hpos
    · decide
    · cases t <;> simp_all [GreType.isToken]

theorem WellFormed.group_end (h : WellFormed rules) (hg : ClassGroup rules pos A after) :
    (elem rules after).isEndOfSequence = true ∨ Clean rules after := by
  induction hg with
  | more _ _ _ ih => exact ih
  | @last pos after A hi ha =>
    rw [GrammarElement.isEndOfSequence_iff]
    unfold Clean
    have hne : (elem rules after).gtype ≠ .charRngUpper := by
      cases hi with
      | range hn =>
        intro hr
        have hm := h.mayFollow_next pos.next
        rw [show pos.next.next = pos.advance 2 from rfl, hn, hr] at hm
        exact nomatch hm
      | any hn _ => exact hn
      | single hn _ => exact hn
    revert ha hne
    generalize (elem rules after).gtype = t
    cases t <;> simp [GreType.isStackTerminal]

theorem WellFormed.class_end (h : WellFormed rules) (hc : CharClass rules pos A after) :
    (elem rules after).isEndOfSequence = true ∨ Clean rules after := by
  rcases hc with ⟨_, hg⟩ | ⟨_, B, hg, _⟩
  · exact h.group_end hg
  · exact h.group_end hg

end WellFormed

end Frink.Gbnf
