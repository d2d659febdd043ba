import Mathlib

/-! # Reading grammar text

The lexical helpers of the grammar parser. The text left to read is a list of
bytes that reads as 0 past its end, and a NUL byte ends it like that.
-/

namespace Frink.Gbnf

/-- The errors of the parser, which the source keeps in one type with those of the machine. -/
inductive ParseError
  | syntaxError (expected : String) (offset : ℕ) (rest : List UInt8)
  | undefinedRule (name : List UInt8) (ruleId : ℕ)
  | repetitionTooLarge (requested limit offset : ℕ)
  | tokenNeedsVocabulary (token : List UInt8) (offset : ℕ)
  | tokenNotSingle (token : List UInt8) (nTokens : ℕ)
  deriving DecidableEq, Repr

def REST_CLIP : ℕ := 40

def validUtf8 (bytes : List UInt8) : Bool := (String.fromUTF8? ⟨bytes.toArray⟩).isSome

/-- The longest valid prefix of the quoted rest. -/
def clip (rest : List UInt8) : List UInt8 :=
  (((List.range (REST_CLIP + 1)).reverse.map (rest.take ·)).find? validUtf8).getD []

/-- A syntax error where `rest` of a text of `total` bytes is left. -/
def ParseError.at (total : ℕ) (expected : String) (rest : List UInt8) : ParseError :=
  .syntaxError expected (total - rest.length) (clip rest)

def isDigitChar (c : UInt8) : Bool := 0x30 ≤ c && c ≤ 0x39

def isAlphabetic (c : UInt8) : Bool := (0x41 ≤ c && c ≤ 0x5A) || (0x61 ≤ c && c ≤ 0x7A)

def isWordChar (c : UInt8) : Bool := isAlphabetic c || c == 0x2D || isDigitChar c

/-- The byte `i` further on. -/
def byteAt (rest : List UInt8) (i : ℕ) : UInt8 := rest[i]?.getD 0

abbrev cur (rest : List UInt8) : UInt8 := byteAt rest 0

/-- Skips blanks and comments, newlines too when `newlineOk`; a comment ends before its newline. -/
def parseSpace (newlineOk : Bool) (rest : List UInt8) : List UInt8 := skip false rest
where
  skip : Bool → List UInt8 → List UInt8
    | _, [] => []
    | inComment, c :: rest =>
        if inComment && c != 0 && c != 0x0D && c != 0x0A then skip true rest
        else if c == 0x20 || c == 0x09 then skip false rest
        else if c == 0x23 then skip true rest
        else if newlineOk && (c == 0x0D || c == 0x0A) then skip false rest
        else c :: rest

/-- The expansion limit of repetitions. -/
def MAX_REPETITION_THRESHOLD : ℕ := 2000

/-- A token name's ids, special tokens allowed. -/
abbrev GrammarVocab := List UInt8 → List ℕ

section

variable (total : ℕ)

def parseName (rest : List UInt8) : Except ParseError (List UInt8 × List UInt8) :=
  let name := rest.takeWhile isWordChar
  if name.isEmpty then .error (.at total "expecting name" rest)
  else .ok (name, rest.dropWhile isWordChar)

def digitValue (c : UInt8) : ℕ := c.toNat - 0x30

def parseU64 (rest : List UInt8) : Except ParseError (ℕ × List UInt8) :=
  let digits := rest.takeWhile isDigitChar
  let value := digits.foldl (fun n c => 10 * n + digitValue c) 0
  if digits.isEmpty then .error (.at total "expecting integer" rest)
  else if 2 ^ 64 ≤ value then .error (.at total "integer is too large" rest)
  else .ok (value, rest.dropWhile isDigitChar)

def hexDigit (c : UInt8) : Option ℕ :=
  if 0x61 ≤ c ∧ c ≤ 0x66 then some (c.toNat - 0x61 + 10)
  else if 0x41 ≤ c ∧ c ≤ 0x46 then some (c.toNat - 0x41 + 10)
  else if 0x30 ≤ c ∧ c ≤ 0x39 then some (c.toNat - 0x30)
  else none

/-- The value of `size` hex digits and what follows them. -/
def hexValue : ℕ → ℕ → List UInt8 → Option (ℕ × List UInt8)
  | 0, value, rest => some (value, rest)
  | _ + 1, _, [] => none
  | size + 1, value, c :: rest =>
      match hexDigit c with
      | some digit => hexValue size (value * 16 + digit) rest
      | none => none

def parseHex (size : ℕ) (rest : List UInt8) : Except ParseError (ℕ × List UInt8) :=
  match hexValue size 0 rest with
  | some result => .ok result
  | none => .error (.at total s!"expecting {size} hex chars" rest)

/-- The length a lead byte announces; a continuation byte counts as a character. -/
def charLookup (c : UInt8) : ℕ :=
  match c.toNat / 16 with
  | 12 | 13 => 2
  | 14 => 3
  | 15 => 4
  | _ => 1

def continueChar : ℕ → ℕ → List UInt8 → ℕ × List UInt8
  | 0, value, rest => (value, rest)
  | _ + 1, value, [] => (value, [])
  | n + 1, value, c :: rest =>
      if c = 0 then (value, c :: rest) else continueChar n (value * 64 + c.toNat % 64) rest

def decodeChar : List UInt8 → ℕ × List UInt8
  | [] => (0, [])
  | c :: rest =>
      let len := charLookup c
      continueChar (len - 1) (c.toNat % 2 ^ (8 - len)) rest

/-- One literal character, an escape included. -/
def parseChar (rest : List UInt8) : Except ParseError (ℕ × List UInt8) :=
  if cur rest = 0x5C then
    let next := byteAt rest 1
    let after := rest.drop 2
    if next = 0x78 then parseHex total 2 after
    else if next = 0x75 then parseHex total 4 after
    else if next = 0x55 then parseHex total 8 after
    else if next = 0x74 then .ok (0x09, after)
    else if next = 0x72 then .ok (0x0D, after)
    else if next = 0x6E then .ok (0x0A, after)
    else if next = 0x5C ∨ next = 0x22 ∨ next = 0x5B ∨ next = 0x5D then .ok (next.toNat, after)
    else .error (.at total "unknown escape" rest)
  else if cur rest ≠ 0 then .ok (decodeChar rest)
  else .error (.at total "unexpected end of input" rest)

/-- `<[id]>` or `<name>`. -/
def parseToken (vocab : Option GrammarVocab) (start : List UInt8) :
    Except ParseError (ℕ × List UInt8) :=
  if cur start ≠ 0x3C then .error (.at total "expecting '<'" start)
  else if byteAt start 1 = 0x5B then do
    let (id, rest) ← parseU64 total (start.drop 2)
    if 2 ^ 32 ≤ id then .error (.at total "token id is too large" start)
    else if cur rest ≠ 0x5D then .error (.at total "expecting ']'" rest)
    else if byteAt rest 1 ≠ 0x3E then .error (.at total "expecting '>'" (rest.drop 1))
    else .ok (id, rest.drop 2)
  else
    let name := (start.drop 1).takeWhile fun c => c != 0 && c != 0x3E
    let rest := (start.drop 1).dropWhile fun c => c != 0 && c != 0x3E
    if cur rest ≠ 0x3E then .error (.at total "expecting '>'" rest)
    else
      let text := 0x3C :: name ++ [0x3E]
      if !validUtf8 text then .error (.at total "token name is not valid UTF-8" start)
      else
        match vocab with
        | none => .error (.tokenNeedsVocabulary text (total - start.length))
        | some tokenizeSpecial =>
            match tokenizeSpecial text with
            | [id] => .ok (id, rest.drop 1)
            | ids => .error (.tokenNotSingle text ids.length)

end

end Frink.Gbnf
