import Mathlib
import Frink.Grammar.Element
import Frink.Grammar.Utf8
import Frink.Library.Worklist

/-! # The pushdown stack machine

A grammar is the set of parse stacks that are still viable. Rule references are
run out until each stack rests on an element that consumes input.
-/

/-! ## Grammars that wait for a trigger

A lazy grammar constrains nothing until a trigger token or pattern is observed;
it is then fed the buffered tokens from the match onwards.
-/

namespace Frink.Gbnf

inductive GrammarError where
  | undefinedRule (name : String) (ruleId : ℕ)
  | missingRoot (name : String)
  | leftRecursion (ruleId : ℕ) (name : Option String)
  | noViableStack (piece : List UInt8)
  | triggerPatternFailed (pattern : String) (reason : String)
  | lazyWithoutTriggers
  | awaitingTrigger
  | internal (message : String)
  deriving DecidableEq, Repr

/-- The regular expression engine is a dependency: `find` is what it answers on a text. -/
structure TriggerPattern where
  pattern : String
  find : List UInt8 → Except GrammarError (Option ℕ)

structure LazyTriggers where
  tokens : List ℕ
  patterns : List TriggerPattern
  mandatory : Bool

def LazyTriggers.isEmpty (t : LazyTriggers) : Bool := t.tokens.isEmpty && t.patterns.isEmpty

/-- A buffered token and the bytes it spans. -/
structure Span where
  token : ℕ
  start : ℕ
  stop : ℕ
  deriving DecidableEq, Repr

structure LazyState where
  triggers : LazyTriggers
  awaiting : Bool
  buffer : List UInt8
  spans : List Span

inductive TriggerStep where
  | awaiting
  | fired (replay : List (ℕ × List UInt8))
  deriving DecidableEq, Repr

namespace LazyState

def new (triggers : LazyTriggers) : LazyState := ⟨triggers, true, [], []⟩

/-- The longest prefix that is valid UTF-8: the tail of a buffer can be half a character. -/
def validPrefix (buffer : List UInt8) : List UInt8 :=
  (buffer.inits.reverse.find? fun l => (ByteArray.mk l.toArray).validateUTF8).getD []

def firstMatch (text : List UInt8) : List TriggerPattern → Except GrammarError (Option ℕ)
  | [] => .ok none
  | p :: patterns =>
      match p.find text with
      | .error e => .error e
      | .ok (some at_) => .ok (some at_)
      | .ok none => firstMatch text patterns

def findTrigger (s : LazyState) : Except GrammarError (Option ℕ) :=
  firstMatch (validPrefix s.buffer) s.triggers.patterns

def fire (s : LazyState) : LazyState := { s with awaiting := false, buffer := [], spans := [] }

/-- The buffered tokens that reach past `at_`, the one that straddles it truncated. -/
def replayFrom (s : LazyState) (at_ : ℕ) : List (ℕ × List UInt8) :=
  (s.spans.filter fun span => at_ < span.stop).map fun span =>
    (span.token, (s.buffer.take span.stop).drop (max span.start at_))

def observe (s : LazyState) (token : ℕ) (piece : List UInt8) :
    Except GrammarError TriggerStep × LazyState :=
  if token ∈ s.triggers.tokens then (.ok (.fired [(token, piece)]), s.fire)
  else
    let start := s.buffer.length
    let s := { s with
      buffer := s.buffer ++ piece
      spans := s.spans ++ [Span.mk token start (start + piece.length)] }
    match s.findTrigger with
    | .error e => (.error e, s)
    | .ok none => (.ok .awaiting, s)
    | .ok (some at_) => (.ok (.fired (s.replayFrom at_)), s.fire)

variable {s s' : LazyState} {token : ℕ} {piece : List UInt8}

@[simp] theorem fire_awaiting (s : LazyState) : s.fire.awaiting = false := rfl

end LazyState

end Frink.Gbnf

namespace Frink.Gbnf

open Worklist

def restError : GrammarError :=
  .internal "parse stack came to rest on END, ALT, CHAR_ALT or CHAR_RNG_UPPER"

def matchCharError : GrammarError :=
  .internal "match_char called on an element that is not a character class"

def matchPartialError : GrammarError :=
  .internal "match_partial_char called on an element that is not a character class"

/-- One element of a class with its optional upper bound: whether `hit` holds, and its end. -/
def classItem (rules : List GrammarRule) (pos : RulePos) (hit : ℕ → ℕ → Bool) :
    Bool × RulePos :=
  let cur := elem rules pos
  let nxt := elem rules pos.next
  if nxt.gtype = .charRngUpper then (hit cur.value nxt.value, pos.advance 2)
  else if cur.gtype = .charAny then (true, pos.next)
  else (hit cur.value cur.value, pos.next)

/-- The `CHAR_ALT` chain from `pos`; the bound is never reached within a rule. -/
def classLoop (rules : List GrammarRule) (hit : ℕ → ℕ → Bool) :
    ℕ → RulePos → Bool → Bool × RulePos
  | 0, pos, found => (found, pos)
  | n + 1, pos, found =>
      let (here, pos) := classItem rules pos hit
      if (elem rules pos).gtype ≠ .charAlt then (found || here, pos)
      else classLoop rules hit n pos (found || here)

/-- A bound on the length of any class of the rule at `pos`. -/
def ruleLength (rules : List GrammarRule) (pos : RulePos) : ℕ :=
  (rules[pos.rule]?.getD []).length + 1

def isPositiveChar (t : GreType) : Bool := t == .char || t == .charAny

/-- The verdict on `chr` and the position just past the class. -/
def matchChar (rules : List GrammarRule) (pos : RulePos) (chr : ℕ) :
    Except GrammarError (Bool × RulePos) :=
  let first := elem rules pos
  let positive := isPositiveChar first.gtype
  if !positive && first.gtype != .charNot then .error matchCharError
  else
    let (found, after) :=
      classLoop rules (fun lo hi => lo ≤ chr && chr ≤ hi) (ruleLength rules pos) pos false
    .ok (found == positive, after)

/-- The first code point a partial sequence can complete to, and the last. -/
def partialRange (p : PartialUtf8) : ℕ × ℕ :=
  let shift := (p.nRemain * 6).toNat
  let low := p.value * 2 ^ shift
  let high := low + (2 ^ shift - 1)
  if low = 0 ∧ p.nRemain = 2 then (2 ^ 11, high)
  else if low = 0 ∧ p.nRemain = 3 then (2 ^ 16, high)
  else (low, high)

/-- Whether some continuation of a partial sequence satisfies the class. -/
def matchPartialChar (rules : List GrammarRule) (pos : RulePos) (p : PartialUtf8) :
    Except GrammarError Bool :=
  let first := elem rules pos
  let positive := isPositiveChar first.gtype
  if !positive && first.gtype != .charNot then .error matchPartialError
  else if p.nRemain < 0 ∨ (p.nRemain = 1 ∧ p.value < 2) then .ok false
  else if 3 < p.nRemain then .ok false
  else
    let (low, high) := partialRange p
    .ok (partialLoop rules low high positive (ruleLength rules pos) pos)
where
  partialLoop (rules : List GrammarRule) (low high : ℕ) (positive : Bool) :
      ℕ → RulePos → Bool
    | 0, _ => !positive
    | n + 1, pos =>
        let cur := elem rules pos
        let nxt := elem rules pos.next
        if nxt.gtype = .charRngUpper then
          if cur.value ≤ high ∧ low ≤ nxt.value then positive
          else if (elem rules (pos.advance 2)).gtype ≠ .charAlt then !positive
          else partialLoop rules low high positive n (pos.advance 2)
        else if cur.gtype = .charAny then true
        else if low ≤ cur.value ∧ cur.value ≤ high then positive
        else if (elem rules pos.next).gtype ≠ .charAlt then !positive
        else partialLoop rules low high positive n pos.next

def matchToken (e : GrammarElement) (token : ℕ) : Bool :=
  match e.gtype with
  | .token => e.value == token
  | .tokenNot => e.value != token
  | _ => false

/-- The stack without its top, the continuation after the reference, the alternate's start. -/
def expandRef (rules : List GrammarRule) (pos : RulePos) (rest : GrammarStack) :
    List GrammarStack :=
  (alternates rules (elem rules pos).value).map fun subpos =>
    pushPos rules subpos (pushPos rules pos.next rest)

def visitStack (rules : List GrammarRule) : GrammarStack → Visit GrammarError GrammarStack
  | [] => .emit
  | pos :: rest =>
      match (elem rules pos).gtype with
      | .ruleRef => .expand (expandRef rules pos rest)
      | t => if t.isStackTerminal then .emit else .fail restError

/-- Runs rule references out to every alternate; duplicates are skipped. -/
def advanceStack (rules : List GrammarRule) (stack : GrammarStack)
    (newStacks : List GrammarStack) (fuel : ℕ) : Exec GrammarError (List GrammarStack) :=
  explore (visitStack rules) fuel [stack] [] newStacks

/-- Advances one stack over one code point. -/
def acceptChr (rules : List GrammarRule) (stack : GrammarStack) (chr : ℕ)
    (newStacks : List GrammarStack) (fuel : ℕ) : Exec GrammarError (List GrammarStack) :=
  match stack with
  | [] => pure newStacks
  | pos :: rest =>
      if (elem rules pos).gtype.isToken then pure newStacks
      else
        match matchChar rules pos chr with
        | .error e => Exec.fail e
        | .ok (matched, after) =>
            if matched then advanceStack rules (pushPos rules after rest) newStacks fuel
            else pure newStacks

structure Grammar where
  rules : List GrammarRule
  parseStacks : List GrammarStack
  partialUtf8 : PartialUtf8
  lazyState : Option LazyState

/-- A call that updates `self`: its verdict and the state it leaves; `none` when cut off. -/
abbrev Update (σ ε : Type) := Option (Except ε Unit × σ)

namespace Grammar

def intoLazy (g : Grammar) (triggers : LazyTriggers) : Except GrammarError Grammar :=
  if triggers.isEmpty then .error .lazyWithoutTriggers
  else .ok { g with lazyState := some (LazyState.new triggers) }

def isAwaitingTrigger (g : Grammar) : Bool := g.lazyState.any LazyState.awaiting

def triggerIsMandatory (g : Grammar) : Bool := g.lazyState.any (·.triggers.mandatory)

/-- Whether an end-of-generation token is allowed: an empty stack is a finished parse. -/
def allowsEog (g : Grammar) : Bool :=
  if g.isAwaitingTrigger then !g.triggerIsMandatory else g.parseStacks.any List.isEmpty

def isDead (g : Grammar) : Bool := g.parseStacks.isEmpty

/-- Advances every stack over one code point. -/
def acceptCodepoint (g : Grammar) (chr : ℕ) (fuel : ℕ) : Update Grammar GrammarError :=
  match (g.parseStacks.foldlM (fun next stack => acceptChr g.rules stack chr next fuel) [] :
      Exec GrammarError (List GrammarStack)) with
  | none => none
  | some (.error e) => some (.error e, g)
  | some (.ok next) => some (.ok (), { g with parseStacks := next })

/-- Replays the code points of a piece on the stacks that started as one. -/
def replayChars (rules : List GrammarRule) : List ℕ → List GrammarStack → ℕ →
    Exec GrammarError (List GrammarStack)
  | [], current, _ => pure current
  | cp :: chars, current, fuel => do
      let next ← current.foldlM (fun next cur => acceptChr rules cur cp next fuel) []
      if next.isEmpty then pure [] else replayChars rules chars next fuel

def appendNew (new survivors : List GrammarStack) : List GrammarStack :=
  survivors.foldl (fun new s => if s ∈ new then new else new ++ [s]) new

/-- Advances one stack over a sampled token; a token element matches on the id alone. -/
def acceptOne (rules : List GrammarRule) (token : ℕ) (chars : List ℕ)
    (stacksNew : List GrammarStack) (stack : GrammarStack) (fuel : ℕ) :
    Exec GrammarError (List GrammarStack) :=
  match stack with
  | [] => pure stacksNew
  | top :: rest =>
      if (elem rules top).gtype.isToken then
        if matchToken (elem rules top) token then
          advanceStack rules (pushPos rules top.next rest) stacksNew fuel
        else pure stacksNew
      else do
        let survivors ← replayChars rules chars [stack] fuel
        pure (appendNew stacksNew survivors)

def acceptTokenNow (g : Grammar) (token : ℕ) (piece : List UInt8) (fuel : ℕ) :
    Update Grammar GrammarError :=
  let (codePoints, partialUtf8) := decodePiece piece g.partialUtf8
  match (g.parseStacks.foldlM
      (fun new stack => acceptOne g.rules token codePoints.dropLast new stack fuel) [] :
      Exec GrammarError (List GrammarStack)) with
  | none => none
  | some (.error e) => some (.error e, g)
  | some (.ok stacksNew) =>
      let g := { g with parseStacks := stacksNew, partialUtf8 := partialUtf8 }
      some (if stacksNew.isEmpty then .error (.noViableStack piece) else .ok (), g)

def replayTokens (fuel : ℕ) : List (ℕ × List UInt8) → Grammar → Update Grammar GrammarError
  | [], g => some (.ok (), g)
  | (token, piece) :: replay, g =>
      match g.acceptTokenNow token piece fuel with
      | none => none
      | some (.error e, g) => some (.error e, g)
      | some (.ok (), g) => replayTokens fuel replay g

/-- Accepts a sampled token; while a trigger is awaited it only goes to the trigger buffer. -/
def acceptToken (g : Grammar) (token : ℕ) (piece : List UInt8) (fuel : ℕ) :
    Update Grammar GrammarError :=
  match g.lazyState with
  | none => g.acceptTokenNow token piece fuel
  | some lazyState =>
      if lazyState.awaiting then
        let (step, lazyState) := lazyState.observe token piece
        let g := { g with lazyState := some lazyState }
        match step with
        | .error e => some (.error e, g)
        | .ok .awaiting => some (.ok (), g)
        | .ok (.fired replay) => replayTokens fuel replay g
      else g.acceptTokenNow token piece fuel

def acceptEog (g : Grammar) : Except GrammarError Unit :=
  if g.allowsEog then .ok () else .error (.noViableStack "<eog>".toUTF8.toList)

end Grammar

end Frink.Gbnf
