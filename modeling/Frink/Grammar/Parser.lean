import Frink.Grammar.Element
import Frink.Grammar.Source
import Frink.Library.Fuel

/-! # The grammar parser

Grammar text is compiled to a flat rule table in one pass. Groups and repetitions
become synthesized rules, named after the rule they stand in and numbered by the
symbols seen so far.
-/

namespace Frink.Gbnf

abbrev SymbolName := List UInt8

/-- `rules[id]` is the definition of the symbol with that id. -/
structure ParsedGrammar where
  rules : List GrammarRule
  symbolIds : List (SymbolName × ℕ)
  deriving DecidableEq, Repr

namespace ParsedGrammar

def empty : ParsedGrammar := ⟨[], []⟩

variable (g : ParsedGrammar)

def symbolId (name : SymbolName) : Option ℕ :=
  (g.symbolIds.find? fun p => p.1 == name).map Prod.snd

def symbolName (ruleId : ℕ) : Option SymbolName :=
  (g.symbolIds.find? fun p => p.2 == ruleId).map Prod.fst

/-- The map's insertion: a name it holds gets the new id. -/
def insertSymbol (name : SymbolName) (id : ℕ) : ParsedGrammar :=
  if (g.symbolId name).isSome then
    { g with symbolIds := g.symbolIds.map fun p => if p.1 == name then (name, id) else p }
  else { g with symbolIds := g.symbolIds ++ [(name, id)] }

/-- Interns a name: the id is the symbol count before the insertion. -/
def getSymbolId (name : SymbolName) : ℕ × ParsedGrammar :=
  match g.symbolId name with
  | some id => (id, g)
  | none => (g.symbolIds.length, g.insertSymbol name g.symbolIds.length)

def decimalBytes (n : ℕ) : List UInt8 := (Nat.toDigits 10 n).map (·.toNat.toUInt8)

/-- A fresh `<base>_<id>` symbol. -/
def generateSymbolId (baseName : SymbolName) : ℕ × ParsedGrammar :=
  let nextId := g.symbolIds.length
  (nextId, g.insertSymbol (baseName ++ 0x5F :: decimalBytes nextId) nextId)

/-- The table grows with empty rules, which stand for undefined symbols. -/
def addRule (ruleId : ℕ) (rule : GrammarRule) : ParsedGrammar :=
  let rules := if g.rules.length ≤ ruleId then g.rules.rightpad (ruleId + 1) [] else g.rules
  { g with rules := rules.set ruleId rule }

end ParsedGrammar

/-- The rule being built, where its last item starts, and the rules that item stands for. -/
structure SequenceState where
  rule : GrammarRule
  lastSymStart : ℕ
  nPrevRules : ℕ
  out : ParsedGrammar

namespace SequenceState

variable (s : SequenceState)

/-- The elements of a new last item. -/
def pushItem (elements : GrammarRule) : SequenceState :=
  { s with rule := s.rule ++ elements, lastSymStart := s.rule.length, nPrevRules := 1 }

end SequenceState

/-- One synthesized rule: the item, what may follow it, or nothing. -/
def recRule (prevRule : GrammarRule) (next : Option ℕ) : GrammarRule :=
  prevRule ++ (next.map (GrammarElement.mk .ruleRef)).toList ++ [⟨.alt, 0⟩, ⟨.ruleEnd, 0⟩]

/-- Adds `S'(1)`, `S'(2)` and so on, or the one rule that refers to itself when there is no
maximum, and answers the last. -/
def addOptional (ruleName : SymbolName) (prevRule : GrammarRule) (noMax : Bool) :
    ℕ → ℕ × ParsedGrammar → ℕ × ParsedGrammar
  | 0, last => last
  | nOpt + 1, last =>
      let (lastRecRuleId, out) := addOptional ruleName prevRule noMax nOpt last
      let (recRuleId, out) := out.generateSymbolId ruleName
      let next := if noMax then some recRuleId else if 0 < nOpt then some lastRecRuleId else none
      (recRuleId, out.addRule recRuleId (recRule prevRule next))

/-- `times` copies of the last item where it stood once. -/
def repeatLast (s : SequenceState) (prevRule : GrammarRule) (times : ℕ) : GrammarRule :=
  if times = 0 then s.rule.take s.lastSymStart
  else s.rule ++ (List.replicate (times - 1) prevRule).flatten

def totalRules (minTimes : ℕ) (maxTimes : Option ℕ) : ℕ :=
  match maxTimes with
  | some max => if 0 < max then max else if 0 < minTimes then minTimes else 1
  | none => if 0 < minTimes then minTimes else 1

section

variable (total : ℕ) (vocab : Option GrammarVocab)

/-- `S{min,max}` after the last item; `rest` is what is left of the text, for the errors. -/
def handleRepetitions (rest : List UInt8) (ruleName : SymbolName) (minTimes : ℕ)
    (maxTimes : Option ℕ) (s : SequenceState) : Except ParseError SequenceState :=
  if s.lastSymStart = s.rule.length then
    .error (.at total "expecting preceding item to */+/?/\x7b" rest)
  else
    let prevRule := s.rule.drop s.lastSymStart
    let product := min (s.nPrevRules * totalRules minTimes maxTimes) (2 ^ 64 - 1)
    if MAX_REPETITION_THRESHOLD ≤ product then
      .error (.repetitionTooLarge product MAX_REPETITION_THRESHOLD (total - rest.length))
    else
      let rule := repeatLast s prevRule minTimes
      let nOpt := match maxTimes with
        | none => 1
        | some max => max - minTimes
      let (lastRecRuleId, out) :=
        addOptional ruleName prevRule maxTimes.isNone nOpt (0, s.out)
      .ok { s with
        rule := if 0 < nOpt then rule ++ [⟨.ruleRef, lastRecRuleId⟩] else rule
        nPrevRules := product
        out := out }

/-- The characters of a literal up to its closing quote; each takes a byte or more. -/
def parseLiteral : ℕ → List UInt8 → Except ParseError (List ℕ × List UInt8)
  | 0, rest => .error (.at total "unexpected end of input" rest)
  | fuel + 1, rest =>
      if cur rest = 0x22 then .ok ([], rest.drop 1)
      else if cur rest = 0 then .error (.at total "unexpected end of input" rest)
      else do
        let (value, rest) ← parseChar total rest
        let (values, rest) ← parseLiteral fuel rest
        .ok (value :: values, rest)

/-- The members of a class up to its closing bracket, each with its upper bound if it has one. -/
def parseClass : ℕ → List UInt8 → Except ParseError (List (ℕ × Option ℕ) × List UInt8)
  | 0, rest => .error (.at total "unexpected end of input" rest)
  | fuel + 1, rest =>
      if cur rest = 0x5D then .ok ([], rest.drop 1)
      else if cur rest = 0 then .error (.at total "unexpected end of input" rest)
      else do
        let (value, rest) ← parseChar total rest
        if cur rest = 0x2D ∧ byteAt rest 1 ≠ 0x5D then
          if byteAt rest 1 = 0 then .error (.at total "unexpected end of input" rest)
          else do
            let (endchar, rest) ← parseChar total (rest.drop 1)
            let (members, rest) ← parseClass fuel rest
            .ok ((value, some endchar) :: members, rest)
        else do
          let (members, rest) ← parseClass fuel rest
          .ok ((value, none) :: members, rest)

/-- Only the first element of a class carries the negation, every later one is `CHAR_ALT`. -/
def classElements : GreType → List (ℕ × Option ℕ) → GrammarRule
  | _, [] => []
  | gtype, (value, upper) :: members =>
      ⟨gtype, value⟩ :: (upper.map (GrammarElement.mk .charRngUpper)).toList ++
        classElements .charAlt members

/-- What stands between the braces of a repetition, and what follows the closing one. -/
def parseBraces (isNested : Bool) (rest : List UInt8) :
    Except ParseError ((ℕ × Option ℕ) × List UInt8) :=
  if !isDigitChar (cur rest) then .error (.at total "expecting an int" rest)
  else do
    let (minTimes, rest) ← parseU64 total rest
    let rest := parseSpace isNested rest
    if cur rest = 0x7D then .ok ((minTimes, some minTimes), parseSpace isNested (rest.drop 1))
    else if cur rest = 0x2C then
      let rest := parseSpace isNested (rest.drop 1)
      if isDigitChar (cur rest) then do
        let (maxTimes, rest) ← parseU64 total rest
        let rest := parseSpace isNested rest
        if cur rest ≠ 0x7D then .error (.at total "expecting '\x7d'" rest)
        else .ok ((minTimes, some maxTimes), parseSpace isNested (rest.drop 1))
      else if cur rest ≠ 0x7D then .error (.at total "expecting '\x7d'" rest)
      else .ok ((minTimes, none), parseSpace isNested (rest.drop 1))
    else .error (.at total "expecting ','" rest)

/-- A count of the braces over the limit. -/
def overLimit (minTimes : ℕ) (maxTimes : Option ℕ) : Bool :=
  decide (MAX_REPETITION_THRESHOLD < minTimes) ||
    maxTimes.any fun max => decide (MAX_REPETITION_THRESHOLD < max)

mutual

/-- The loop of a sequence, one item or repetition at a time. -/
def parseSequence : ℕ → SymbolName → Bool → List UInt8 → SequenceState →
    Exec ParseError (SequenceState × List UInt8)
  | 0, _, _, _, _ => ExceptT.mk none
  | fuel + 1, ruleName, isNested, rest, s =>
      let c := cur rest
      if c = 0x22 then do
        let (values, rest) ← Exec.ofExcept (parseLiteral total rest.length (rest.drop 1))
        parseSequence fuel ruleName isNested (parseSpace isNested rest)
          (s.pushItem (values.map (GrammarElement.mk .char)))
      else if c = 0x5B then do
        let negated := byteAt rest 1 == 0x5E
        let (members, rest) ←
          Exec.ofExcept (parseClass total rest.length (rest.drop (if negated then 2 else 1)))
        parseSequence fuel ruleName isNested (parseSpace isNested rest)
          (s.pushItem (classElements (if negated then .charNot else .char) members))
      else if c = 0x3C ∨ c = 0x21 then do
        let inverted := c == 0x21
        let (tokenId, rest) ←
          Exec.ofExcept (parseToken total vocab (if inverted then rest.drop 1 else rest))
        parseSequence fuel ruleName isNested (parseSpace isNested rest)
          (s.pushItem [⟨if inverted then .tokenNot else .token, tokenId⟩])
      else if isWordChar c then do
        let (name, rest) ← Exec.ofExcept (parseName total rest)
        let (refRuleId, out) := s.out.getSymbolId name
        parseSequence fuel ruleName isNested (parseSpace isNested rest)
          ({ s with out := out }.pushItem [⟨.ruleRef, refRuleId⟩])
      else if c = 0x28 then do
        let nRulesBefore := s.out.symbolIds.length
        let (subRuleId, out) := s.out.generateSymbolId ruleName
        let (out, rest) ←
          parseAlternates fuel ruleName subRuleId true (parseSpace true (rest.drop 1)) out
        if cur rest ≠ 0x29 then Exec.fail (.at total "expecting ')'" rest)
        else
          parseSequence fuel ruleName isNested (parseSpace isNested (rest.drop 1))
            { rule := s.rule ++ [⟨.ruleRef, subRuleId⟩]
              lastSymStart := s.rule.length
              nPrevRules := max (out.symbolIds.length - nRulesBefore) 1
              out := out }
      else if c = 0x2E then
        parseSequence fuel ruleName isNested (parseSpace isNested (rest.drop 1))
          (s.pushItem [⟨.charAny, 0⟩])
      else if c = 0x2A then do
        let rest := parseSpace isNested (rest.drop 1)
        let s ← Exec.ofExcept (handleRepetitions total rest ruleName 0 none s)
        parseSequence fuel ruleName isNested rest s
      else if c = 0x2B then do
        let rest := parseSpace isNested (rest.drop 1)
        let s ← Exec.ofExcept (handleRepetitions total rest ruleName 1 none s)
        parseSequence fuel ruleName isNested rest s
      else if c = 0x3F then do
        let rest := parseSpace isNested (rest.drop 1)
        let s ← Exec.ofExcept (handleRepetitions total rest ruleName 0 (some 1) s)
        parseSequence fuel ruleName isNested rest s
      else if c = 0x7B then do
        let ((minTimes, maxTimes), rest) ←
          Exec.ofExcept (parseBraces total isNested (parseSpace isNested (rest.drop 1)))
        if overLimit minTimes maxTimes then
          Exec.fail (.repetitionTooLarge (maxTimes.getD minTimes) MAX_REPETITION_THRESHOLD
            (total - rest.length))
        else do
          let s ← Exec.ofExcept (handleRepetitions total rest ruleName minTimes maxTimes s)
          parseSequence fuel ruleName isNested rest s
      else pure (s, rest)

/-- The sequences after each `|`. -/
def parseMore : ℕ → SymbolName → Bool → List UInt8 → GrammarRule → ParsedGrammar →
    Exec ParseError (GrammarRule × ParsedGrammar × List UInt8)
  | 0, _, _, _, _, _ => ExceptT.mk none
  | fuel + 1, ruleName, isNested, rest, rule, out => do
      let (s, rest) ← parseSequence fuel ruleName isNested rest ⟨rule, rule.length, 1, out⟩
      if cur rest = 0x7C then
        parseMore fuel ruleName isNested (parseSpace true (rest.drop 1)) (s.rule ++ [⟨.alt, 0⟩])
          s.out
      else pure (s.rule, s.out, rest)

def parseAlternates : ℕ → SymbolName → ℕ → Bool → List UInt8 → ParsedGrammar →
    Exec ParseError (ParsedGrammar × List UInt8)
  | 0, _, _, _, _, _ => ExceptT.mk none
  | fuel + 1, ruleName, ruleId, isNested, rest, out => do
      let (rule, out, rest) ← parseMore fuel ruleName isNested rest [] out
      pure (out.addRule ruleId (rule ++ [⟨.ruleEnd, 0⟩]), rest)

end

def parseLineEnd (rest : List UInt8) : Except ParseError (List UInt8) :=
  if cur rest = 0x0D then .ok (rest.drop (if byteAt rest 1 = 0x0A then 2 else 1))
  else if cur rest = 0x0A then .ok (rest.drop 1)
  else if cur rest ≠ 0 then .error (.at total "expecting newline or end" rest)
  else .ok rest

/-- One `name ::= alternates` line. -/
def parseRule (fuel : ℕ) (rest : List UInt8) (out : ParsedGrammar) :
    Exec ParseError (ParsedGrammar × List UInt8) := do
  let (name, rest) ← Exec.ofExcept (parseName total rest)
  let rest := parseSpace false rest
  let (ruleId, out) := out.getSymbolId name
  if !(cur rest == 0x3A && byteAt rest 1 == 0x3A && byteAt rest 2 == 0x3D) then
    Exec.fail (.at total "expecting ::=" rest)
  else
    let (out, rest) ←
      parseAlternates total vocab fuel name ruleId false (parseSpace true (rest.drop 3)) out
    let rest ← Exec.ofExcept (parseLineEnd total rest)
    pure (out, parseSpace true rest)

def parseRules : ℕ → List UInt8 → ParsedGrammar → Exec ParseError ParsedGrammar
  | 0, _, _ => ExceptT.mk none
  | fuel + 1, rest, out =>
      if cur rest = 0 then pure out
      else do
        let (out, rest) ← parseRule total vocab fuel rest out
        parseRules fuel rest out

end

namespace ParsedGrammar

variable (g : ParsedGrammar)

def undefined (ruleId : ℕ) : ParseError :=
  .undefinedRule ((g.symbolName ruleId).getD "<unnamed>".toUTF8.toList) ruleId

/-- Every rule of the table is defined, and so is every rule it refers to. -/
def validate : Except ParseError Unit := do
  match (List.range g.rules.length).find? fun id => (g.rules[id]?.getD []).isEmpty with
  | some id => .error (g.undefined id)
  | none =>
      match g.rules.flatten.find? fun e =>
          e.gtype == .ruleRef && (g.rules[e.value]?.getD []).isEmpty with
      | some e => .error (g.undefined e.value)
      | none => .ok ()

end ParsedGrammar

def parseWithVocab (src : List UInt8) (vocab : Option GrammarVocab) (fuel : ℕ) :
    Exec ParseError ParsedGrammar := do
  let g ← parseRules src.length vocab fuel (parseSpace true src) .empty
  let _ ← Exec.ofExcept g.validate
  pure g

def parse (src : List UInt8) (fuel : ℕ) : Exec ParseError ParsedGrammar :=
  parseWithVocab src none fuel

end Frink.Gbnf
