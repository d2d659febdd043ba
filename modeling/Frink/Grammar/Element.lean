import Mathlib

/-! # Compiled grammars

A rule is a flat sequence of elements, its alternates separated by `ALT` and
closed by `END`. A cursor names a rule and an index into it.
-/

namespace Frink.Gbnf

inductive GreType where
  | ruleEnd
  | alt
  | ruleRef
  | char
  | charNot
  | charRngUpper
  | charAlt
  | charAny
  | token
  | tokenNot
  deriving DecidableEq, Repr

namespace GreType

/-- The element kinds a parse stack may rest on. -/
def isStackTerminal : GreType → Bool
  | char | charNot | charAny | token | tokenNot => true
  | _ => false

def isToken : GreType → Bool
  | token | tokenNot => true
  | _ => false

/-- The kinds that start a character class. -/
def isClass : GreType → Bool
  | char | charNot | charAny => true
  | _ => false

theorem isStackTerminal_iff (t : GreType) :
    t.isStackTerminal = true ↔ t.isToken = true ∨ t.isClass = true := by
  cases t <;> simp [isStackTerminal, isToken, isClass]

theorem isToken_of_isClass {t : GreType} (h : t.isClass = true) : t.isToken = false := by
  cases t <;> simp_all [isClass, isToken]

end GreType

structure GrammarElement where
  gtype : GreType
  value : ℕ
  deriving DecidableEq, Repr

def GrammarElement.isEndOfSequence (e : GrammarElement) : Bool :=
  e.gtype == .ruleEnd || e.gtype == .alt

abbrev GrammarRule := List GrammarElement

structure RulePos where
  rule : ℕ
  index : ℕ
  deriving DecidableEq, Repr

namespace RulePos

def next (pos : RulePos) : RulePos := ⟨pos.rule, pos.index + 1⟩

def advance (pos : RulePos) (n : ℕ) : RulePos := ⟨pos.rule, pos.index + n⟩

@[simp] theorem next_rule (pos : RulePos) : pos.next.rule = pos.rule := rfl

@[simp] theorem next_index (pos : RulePos) : pos.next.index = pos.index + 1 := rfl

@[simp] theorem advance_rule (pos : RulePos) (n : ℕ) : (pos.advance n).rule = pos.rule := rfl

@[simp] theorem advance_index (pos : RulePos) (n : ℕ) :
    (pos.advance n).index = pos.index + n := rfl

end RulePos

/-- The head is the innermost cursor, which the next character has to satisfy. -/
abbrev GrammarStack := List RulePos

/-- A cursor outside the table reads as `END`. -/
def elem (rules : List GrammarRule) (pos : RulePos) : GrammarElement :=
  ((rules[pos.rule]?).bind (·[pos.index]?)).getD ⟨.ruleEnd, 0⟩

/-- The positions after each `ALT`, up to the first `END`, of a rule read from index `i`. -/
def laterAlternates : ℕ → GrammarRule → List ℕ
  | _, [] => []
  | i, e :: rest =>
      match e.gtype with
      | .ruleEnd => []
      | .alt => (i + 1) :: laterAlternates (i + 1) rest
      | _ => laterAlternates (i + 1) rest

/-- The start of every alternate of a rule, in order. -/
def alternates (rules : List GrammarRule) (rule : ℕ) : List RulePos :=
  (0 :: laterAlternates 0 (rules[rule]?.getD [])).map (RulePos.mk rule)

/-- A cursor that has reached the end of its alternate is left off the stack. -/
def pushPos (rules : List GrammarRule) (pos : RulePos) (stack : GrammarStack) : GrammarStack :=
  if (elem rules pos).isEndOfSequence then stack else pos :: stack

section

variable {rules : List GrammarRule} {pos : RulePos} {stack : GrammarStack}

@[simp] theorem GrammarElement.isEndOfSequence_iff (e : GrammarElement) :
    e.isEndOfSequence = true ↔ e.gtype = .ruleEnd ∨ e.gtype = .alt := by
  simp [isEndOfSequence]

theorem isEndOfSequence_of_isStackTerminal {e : GrammarElement}
    (h : e.gtype.isStackTerminal = true) : e.isEndOfSequence = false := by
  obtain ⟨t, v⟩ := e
  cases t <;> simp_all [GreType.isStackTerminal, GrammarElement.isEndOfSequence]

theorem isEndOfSequence_of_isClass {e : GrammarElement} (h : e.gtype.isClass = true) :
    e.isEndOfSequence = false :=
  isEndOfSequence_of_isStackTerminal ((GreType.isStackTerminal_iff _).mpr (.inr h))

theorem isEndOfSequence_of_isToken {e : GrammarElement} (h : e.gtype.isToken = true) :
    e.isEndOfSequence = false :=
  isEndOfSequence_of_isStackTerminal ((GreType.isStackTerminal_iff _).mpr (.inl h))

theorem isEndOfSequence_of_ruleRef {e : GrammarElement} (h : e.gtype = .ruleRef) :
    e.isEndOfSequence = false := by
  simp [GrammarElement.isEndOfSequence, h]

theorem elem_of_lt_length (h : (elem rules pos).gtype ≠ .ruleEnd) :
    pos.rule < rules.length ∧ pos.index < (rules[pos.rule]?.getD []).length := by
  have hsome : ((rules[pos.rule]?).bind (·[pos.index]?)).isSome := by
    by_contra hn
    rw [Option.not_isSome_iff_eq_none] at hn
    simp [elem, hn] at h
  cases hr : rules[pos.rule]? with
  | none => simp [hr] at hsome
  | some rule =>
    refine ⟨(List.getElem?_eq_some_iff.mp hr).1, ?_⟩
    simpa [hr] using hsome

theorem pushPos_of_end (h : (elem rules pos).isEndOfSequence = true) :
    pushPos rules pos stack = stack := if_pos h

theorem pushPos_of_not_end (h : (elem rules pos).isEndOfSequence = false) :
    pushPos rules pos stack = pos :: stack := if_neg (by simp [h])

theorem alternates_ne_nil (rules : List GrammarRule) (rule : ℕ) : alternates rules rule ≠ [] := by
  simp [alternates]

theorem rule_of_mem_alternates {rule : ℕ} (h : pos ∈ alternates rules rule) :
    pos.rule = rule := by
  obtain ⟨i, _, rfl⟩ := List.mem_map.mp h
  rfl

end

end Frink.Gbnf
