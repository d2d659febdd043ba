import Frink.Grammar.Parser

/-! # The syntax of grammar text

What grammar text says, apart from the table it is compiled to: the parser reads a
body and compiles it, and the two can be told apart.
-/

namespace Frink.Gbnf

inductive Atom
  | literal (values : List ℕ)
  | charClass (negated : Bool) (members : List (ℕ × Option ℕ))
  | token (inverted : Bool) (tokenId : ℕ)
  | any
  deriving DecidableEq, Repr

/-- The alternates of a rule or a group as one sequence, `alt` standing between them; a repetition
follows what it repeats. -/
inductive Body
  | done
  | atom (a : Atom) (rest : Body)
  | ref (name : SymbolName) (rest : Body)
  | group (inner rest : Body)
  | repeated (minTimes : ℕ) (maxTimes : Option ℕ) (rest : Body)
  | alt (rest : Body)
  deriving DecidableEq, Repr

def Atom.elements : Atom → GrammarRule
  | literal values => values.map (GrammarElement.mk .char)
  | charClass negated members => classElements (if negated then .charNot else .char) members
  | token inverted tokenId => [⟨if inverted then .tokenNot else .token, tokenId⟩]
  | any => [⟨.charAny, 0⟩]

namespace SequenceState

/-- A state at the start of a sequence. -/
def fresh (rule : GrammarRule) (out : ParsedGrammar) : SequenceState := ⟨rule, rule.length, 1, out⟩

variable (s : SequenceState)

/-- The last item is there, and its copies stay under the limit. -/
def repeatable (minTimes : ℕ) (maxTimes : Option ℕ) : Prop :=
  s.lastSymStart ≠ s.rule.length ∧ overLimit minTimes maxTimes = false ∧
    min (s.nPrevRules * totalRules minTimes maxTimes) (2 ^ 64 - 1) < MAX_REPETITION_THRESHOLD

instance (minTimes : ℕ) (maxTimes : Option ℕ) : Decidable (s.repeatable minTimes maxTimes) :=
  inferInstanceAs (Decidable (_ ∧ _))

def optionalCount (minTimes : ℕ) (maxTimes : Option ℕ) : ℕ :=
  match maxTimes with
  | none => 1
  | some max => max - minTimes

/-- What a repetition leaves. -/
def repeatItem (ruleName : SymbolName) (minTimes : ℕ) (maxTimes : Option ℕ) : SequenceState :=
  let prevRule := s.rule.drop s.lastSymStart
  let rule := repeatLast s prevRule minTimes
  let nOpt := optionalCount minTimes maxTimes
  let (lastRecRuleId, out) := addOptional ruleName prevRule maxTimes.isNone nOpt (0, s.out)
  { s with
    rule := if 0 < nOpt then rule ++ [⟨.ruleRef, lastRecRuleId⟩] else rule
    nPrevRules := min (s.nPrevRules * totalRules minTimes maxTimes) (2 ^ 64 - 1)
    out := out }

def pushRef (name : SymbolName) : SequenceState :=
  let (refRuleId, out) := s.out.getSymbolId name
  { s with out := out }.pushItem [⟨.ruleRef, refRuleId⟩]

/-- A group that was compiled to the state `t` is a reference to its rule. -/
def pushGroup (subRuleId : ℕ) (t : SequenceState) : SequenceState :=
  let out := t.out.addRule subRuleId (t.rule ++ [⟨.ruleEnd, 0⟩])
  { rule := s.rule ++ [⟨.ruleRef, subRuleId⟩]
    lastSymStart := s.rule.length
    nPrevRules := max (out.symbolIds.length - s.out.symbolIds.length) 1
    out := out }

def nextAlternate : SequenceState := fresh (s.rule ++ [⟨.alt, 0⟩]) s.out

end SequenceState

namespace Body

/-- The table and the rule a body is compiled to. -/
def compile (ruleName : SymbolName) : Body → SequenceState → Option SequenceState
  | done, s => some s
  | atom a rest, s => rest.compile ruleName (s.pushItem a.elements)
  | ref name rest, s => rest.compile ruleName (s.pushRef name)
  | group inner rest, s =>
      let (subRuleId, out) := s.out.generateSymbolId ruleName
      (inner.compile ruleName (.fresh [] out)).bind fun t =>
        rest.compile ruleName (s.pushGroup subRuleId t)
  | repeated minTimes maxTimes rest, s =>
      if s.repeatable minTimes maxTimes then
        rest.compile ruleName (s.repeatItem ruleName minTimes maxTimes)
      else none
  | alt rest, s => rest.compile ruleName s.nextAlternate

/-- The alternates of `b` before those of `c`. -/
def join : Body → Body → Body
  | done, c => alt c
  | atom a rest, c => atom a (rest.join c)
  | ref name rest, c => ref name (rest.join c)
  | group inner rest, c => group inner (rest.join c)
  | repeated minTimes maxTimes rest, c => repeated minTimes maxTimes (rest.join c)
  | alt rest, c => alt (rest.join c)

theorem compile_join (ruleName : SymbolName) (b c : Body) (s : SequenceState) :
    (b.join c).compile ruleName s =
      (b.compile ruleName s).bind fun t => c.compile ruleName t.nextAlternate := by
  induction b generalizing s with
  | done => rfl
  | atom a rest ih => exact ih _
  | ref name rest ih => exact ih _
  | group inner rest _ ih =>
    simp only [join, compile]
    rw [Option.bind_assoc]
    exact congrArg _ (funext fun t => ih _)
  | repeated minTimes maxTimes rest ih =>
    simp only [join, compile]
    split
    · exact ih _
    · rfl
  | alt rest ih => exact ih _

end Body

/-- The lines of a grammar: a name and its alternates each. -/
abbrev Lines := List (SymbolName × Body)

namespace Lines

/-- A line interns its name, and adds its rule once its body is compiled. -/
def compileLine (line : SymbolName × Body) (out : ParsedGrammar) : Option ParsedGrammar :=
  let (ruleId, out) := out.getSymbolId line.1
  (line.2.compile line.1 (.fresh [] out)).map fun t =>
    t.out.addRule ruleId (t.rule ++ [⟨.ruleEnd, 0⟩])

def compile : Lines → ParsedGrammar → Option ParsedGrammar
  | [], out => some out
  | line :: lines, out => (compileLine line out).bind (compile lines)

end Lines

section Read

variable (total : ℕ) (vocab : Option GrammarVocab)

mutual

/-- The parser's loop, keeping what it read and no table. -/
def readSequence : ℕ → Bool → List UInt8 → Exec ParseError (Body × List UInt8)
  | 0, _, _ => ExceptT.mk none
  | fuel + 1, isNested, rest =>
      let c := cur rest
      if c = 0x22 then do
        let (values, rest) ← Exec.ofExcept (parseLiteral total rest.length (rest.drop 1))
        let (body, rest) ← readSequence fuel isNested (parseSpace isNested rest)
        pure (.atom (.literal values) body, rest)
      else if c = 0x5B then do
        let negated := byteAt rest 1 == 0x5E
        let (members, rest) ←
          Exec.ofExcept (parseClass total rest.length (rest.drop (if negated then 2 else 1)))
        let (body, rest) ← readSequence fuel isNested (parseSpace isNested rest)
        pure (.atom (.charClass negated members) body, rest)
      else if c = 0x3C ∨ c = 0x21 then do
        let inverted := c == 0x21
        let (tokenId, rest) ←
          Exec.ofExcept (parseToken total vocab (if inverted then rest.drop 1 else rest))
        let (body, rest) ← readSequence fuel isNested (parseSpace isNested rest)
        pure (.atom (.token inverted tokenId) body, rest)
      else if isWordChar c then do
        let (name, rest) ← Exec.ofExcept (parseName total rest)
        let (body, rest) ← readSequence fuel isNested (parseSpace isNested rest)
        pure (.ref name body, rest)
      else if c = 0x28 then do
        let (inner, rest) ← readAlternates fuel true (parseSpace true (rest.drop 1))
        if cur rest ≠ 0x29 then Exec.fail (.at total "expecting ')'" rest)
        else do
          let (body, rest) ← readSequence fuel isNested (parseSpace isNested (rest.drop 1))
          pure (.group inner body, rest)
      else if c = 0x2E then do
        let (body, rest) ← readSequence fuel isNested (parseSpace isNested (rest.drop 1))
        pure (.atom .any body, rest)
      else if c = 0x2A then do
        let (body, rest) ← readSequence fuel isNested (parseSpace isNested (rest.drop 1))
        pure (.repeated 0 none body, rest)
      else if c = 0x2B then do
        let (body, rest) ← readSequence fuel isNested (parseSpace isNested (rest.drop 1))
        pure (.repeated 1 none body, rest)
      else if c = 0x3F then do
        let (body, rest) ← readSequence fuel isNested (parseSpace isNested (rest.drop 1))
        pure (.repeated 0 (some 1) body, rest)
      else if c = 0x7B then do
        let ((minTimes, maxTimes), rest) ←
          Exec.ofExcept (parseBraces total isNested (parseSpace isNested (rest.drop 1)))
        let (body, rest) ← readSequence fuel isNested rest
        pure (.repeated minTimes maxTimes body, rest)
      else pure (.done, rest)

def readMore : ℕ → Bool → List UInt8 → Exec ParseError (Body × List UInt8)
  | 0, _, _ => ExceptT.mk none
  | fuel + 1, isNested, rest => do
      let (body, rest) ← readSequence fuel isNested rest
      if cur rest = 0x7C then do
        let (more, rest) ← readMore fuel isNested (parseSpace true (rest.drop 1))
        pure (body.join more, rest)
      else pure (body, rest)

def readAlternates : ℕ → Bool → List UInt8 → Exec ParseError (Body × List UInt8)
  | 0, _, _ => ExceptT.mk none
  | fuel + 1, isNested, rest => readMore fuel isNested rest

end

def readRule (fuel : ℕ) (rest : List UInt8) :
    Exec ParseError ((SymbolName × Body) × List UInt8) := do
  let (name, rest) ← Exec.ofExcept (parseName total rest)
  let rest := parseSpace false rest
  if !(cur rest == 0x3A && byteAt rest 1 == 0x3A && byteAt rest 2 == 0x3D) then
    Exec.fail (.at total "expecting ::=" rest)
  else
    let (body, rest) ← readAlternates total vocab fuel false (parseSpace true (rest.drop 3))
    let rest ← Exec.ofExcept (parseLineEnd total rest)
    pure ((name, body), parseSpace true rest)

def readRules : ℕ → List UInt8 → Exec ParseError Lines
  | 0, _ => ExceptT.mk none
  | fuel + 1, rest =>
      if cur rest = 0 then pure []
      else do
        let (line, rest) ← readRule total vocab fuel rest
        let lines ← readRules fuel rest
        pure (line :: lines)

/-- The lines a text is made of. -/
def readLines (src : List UInt8) (fuel : ℕ) : Exec ParseError Lines :=
  readRules src.length none fuel (parseSpace true src)

end Read

end Frink.Gbnf
