import Mathlib
import Frink.Gguf.Value
import Frink.Library.Keyed
import Frink.Tokenizer.ByteLevel

/-! # The PLaMo-2 tokenizer

Every text of the vocabulary and every tail of one is a suffix with rows in one table: a row for
each of its prefixes that is itself a suffix, longest first, and a sentinel. A run is searched from
its end; the suffix a position starts with is found from that of the next, and its rows are the ways
on. Integer arithmetic that leaves its range fails.
-/

namespace Frink.Tokenizer

open Decode Gbnf Gguf

def INVALID_SCORE : ℤ := -20000000

def UNKNOWN_SCORE : ℤ := -10000000

def GGML_TOKEN_TYPE_BYTE : ℤ := 6

def U32_MAX : ℕ := 2 ^ 32 - 1

namespace GgufPlamo2Tokenizer

/-- Why a vocabulary does not load: a byte has no token, an expectation of the code is not met, or a
count does not fit. -/
inductive LoadFailure where
  | plamo2ByteTokenMissing (byte : UInt8)
  | expect (message : String)
  | overflow
  deriving DecidableEq

structure Row where

  pieceLength : ℕ

  tokenId : ℤ

  score : ℤ

  pieceId : ℕ
  deriving DecidableEq

/-- The last row of every suffix: one character that no piece covers. -/
def sentinel : Row := ⟨1, -1, UNKNOWN_SCORE, 0⟩

/-- Which ids are byte tokens, by their types in the file. -/
def byteFlags (n : ℕ) : Option GgufValue → List Bool
  | some (.array items) => (List.range n).map fun id =>
      match (items[id]? : Option GgufValue) with
      | some (.i32 ty) => ty.toInt == GGML_TOKEN_TYPE_BYTE
      | some (.u32 ty) => (ty.toNat : ℤ) == GGML_TOKEN_TYPE_BYTE
      | _ => false
  | _ => List.replicate n false

def properSuffixes (text : Text) : List Text := (List.range' 1 (text.length - 1)).map text.drop

def properPrefixes (text : Text) : List Text := (List.range' 1 (text.length - 1)).map text.take

def reversedBytes (text : Text) : List ℕ := ((encode text).map UInt8.toNat).reverse

def pieceCode (c : Char) (restId : ℕ) : ℕ := c.toNat <<< 32 ||| restId

/-- An id where negative numbers are not ids. -/
def asI32 (id : ℕ) : ℤ := Int.bmod id (2 ^ 32)

section Load

variable {K : Type}

/-- The byte tokens seen so far, and the texts with their tails; a tail that is no text of its own
has no score. -/
structure Scan (K : Type) where

  bytes : UInt8 → ℕ

  suffixToScore : List (Text × Option K)

def orInsert (suffixToScore : List (Text × Option K)) (suffix : Text) : List (Text × Option K) :=
  if (Keyed.get suffixToScore suffix).isSome then suffixToScore
  else Keyed.insert suffix none suffixToScore

def scanToken (vocab : ScoredVocab K) (isByte : List Bool) (scan : Scan K) (token : Text × ℕ) :
    Except LoadFailure (Scan K) :=
  if isByte[token.2]?.getD false then
    match spmByteFallbackValue token.1 with
    | some b => .ok { scan with bytes := Function.update scan.bytes b token.2 }
    | none => .ok scan
  else
    match vocab.lookup token.1 with
    | none => .error (.expect "token text is in its own vocabulary")
    | some (_, score) => .ok { scan with
        suffixToScore := (properSuffixes token.1).foldl orInsert
          (Keyed.insert token.1 (some score) scan.suffixToScore) }

/-- The suffixes in the order of their reversed bytes, the empty one among them. -/
def sortedSuffixes (suffixToScore : List (Text × Option K)) : List Text :=
  (suffixToScore.map Prod.fst ++ [[]]).insertionSort fun a b => reversedBytes a ≤ reversedBytes b

/-- What the first pass over the suffixes gives: their ids, the id of a character before a suffix,
and the rows counted. -/
structure Numbering where

  suffixToId : List (Text × ℕ)

  toSuffixId : List (ℕ × ℕ)

  numPieces : ℕ

def addI32 (a b : ℕ) : Except LoadFailure ℕ :=
  if a + b < 2 ^ 31 then .ok (a + b) else .error .overflow

/-- One row for every prefix, one for the sentinel and one for the suffix itself. -/
def rowCount (suffixToScore : List (Text × Option K)) (suffix : Text) : ℕ :=
  1 + (properPrefixes suffix).countP (fun piece => (Keyed.get suffixToScore piece).isSome) + 1

def numberSuffix (suffixToScore : List (Text × Option K)) (numbering : Numbering) (suffix : Text) :
    Except LoadFailure Numbering :=
  let suffixToId := Keyed.insert suffix numbering.numPieces numbering.suffixToId
  match suffix with
  | [] => (addI32 numbering.numPieces 1).map fun numPieces =>
      ⟨suffixToId, numbering.toSuffixId, numPieces⟩
  | first :: rest =>
      match Keyed.get suffixToId rest with
      | none => .error (.expect "a suffix's rest sorts before it in reversed order")
      | some restId =>
          let toSuffixId :=
            Keyed.insert (pieceCode first restId) numbering.numPieces numbering.toSuffixId
          (addI32 numbering.numPieces (rowCount suffixToScore suffix)).map fun numPieces =>
            ⟨suffixToId, toSuffixId, numPieces⟩

/-- The prefixes of a suffix that are suffixes, longest first. -/
def storedPrefixes (suffixToScore : List (Text × Option K)) (suffix : Text) :
    List (Text × Option K) :=
  ((properPrefixes suffix ++ [suffix]).reverse.filter (· ≠ [])).filterMap fun piece =>
    (Keyed.get suffixToScore piece).map fun score => (piece, score)

variable (isFinite : K → Bool) (scaled : K → Int32)

/-- The score of a row; `scaled` rounds ten thousand times a score. -/
def quantized : Option K → ℤ
  | some score => if isFinite score then (scaled score).toInt else INVALID_SCORE
  | none => INVALID_SCORE

def pieceRow (vocab : ScoredVocab K) (suffixToId : List (Text × ℕ)) (piece : Text × Option K) :
    Except LoadFailure Row :=
  match Keyed.get suffixToId piece.1 with
  | none => .error (.expect "no entry found for key")
  | some pieceId => .ok ⟨piece.1.length, ((vocab.idOf piece.1).map asI32).getD (-1),
      quantized isFinite scaled piece.2, pieceId⟩

def suffixRows (vocab : ScoredVocab K) (suffixToScore : List (Text × Option K))
    (suffixToId : List (Text × ℕ)) (suffix : Text) : Except LoadFailure (List Row) :=
  ((storedPrefixes suffixToScore suffix).mapM (pieceRow isFinite scaled vocab suffixToId)).map
    fun rows => rows ++ [sentinel]

end Load

end GgufPlamo2Tokenizer

open GgufPlamo2Tokenizer

structure GgufPlamo2Tokenizer (K : Type) where

  vocab : ScoredVocab K

  bytes : UInt8 → ℕ

  isByte : List Bool

  toSuffixId : List (ℕ × ℕ)

  table : List Row

namespace GgufPlamo2Tokenizer

variable {K : Type}

/-- The table of a vocabulary; the rows laid out are those counted. -/
def buildTable (isFinite : K → Bool) (scaled : K → Int32) (vocab : ScoredVocab K)
    (suffixToScore : List (Text × Option K)) : Except LoadFailure (Numbering × List Row) := do
  let suffixes := sortedSuffixes suffixToScore
  let numbering ← suffixes.foldlM (numberSuffix suffixToScore) ⟨[], [], 0⟩
  let blocks ← suffixes.mapM (suffixRows isFinite scaled vocab suffixToScore numbering.suffixToId)
  let table := blocks.flatten
  if table.length = numbering.numPieces then return (numbering, table)
  else throw (.expect "table.len() == num_pieces")

def scanTokens (vocab : ScoredVocab K) (isByte : List Bool) : Except LoadFailure (Scan K) :=
  vocab.idToToken.zipIdx.foldlM (scanToken vocab isByte) ⟨fun _ => U32_MAX, []⟩

def fromGguf (isFinite : K → Bool) (scaled : K → Int32) (vocab : ScoredVocab K)
    (types : Option GgufValue) : Except LoadFailure (GgufPlamo2Tokenizer K) := do
  let isByte := byteFlags vocab.idToToken.length types
  let scan ← scanTokens vocab isByte
  match (List.range 256).find? fun b => scan.bytes (.ofNat b) = U32_MAX with
  | some missing => throw (.plamo2ByteTokenMissing (.ofNat missing))
  | none =>
      let (numbering, table) ← buildTable isFinite scaled vocab scan.suffixToScore
      return ⟨vocab, scan.bytes, isByte, numbering.toSuffixId, table⟩

/-- What is known of a position: the cost from there on, and the first piece, its id and how many
tokens there are. -/
structure Cell where

  score : ℤ

  length : ℕ

  id : ℤ

  count : ℤ
  deriving DecidableEq

def checkedI64 (n : ℤ) : Option ℤ := if -2 ^ 63 ≤ n ∧ n < 2 ^ 63 then some n else none

def checkedI32 (n : ℤ) : Option ℤ := if -2 ^ 31 ≤ n ∧ n < 2 ^ 31 then some n else none

def utf8ExtraBytes (c : Char) : ℤ :=
  (if 0x80 ≤ c.toNat then 1 else 0) + (if 0x800 ≤ c.toNat then 1 else 0) +
    (if 0x10000 ≤ c.toNat then 1 else 0)

/-- Follows the rows of a suffix to the suffix that has one more character in front. -/
def follow (toSuffixId : List (ℕ × ℕ)) (c : Char) : List Row → ℕ → ℕ
  | [], suffixId => suffixId
  | row :: rows, _ =>
      let suffixId := (Keyed.get toSuffixId (pieceCode c row.pieceId)).getD 0
      if 0 < suffixId ∨ row.score = UNKNOWN_SCORE then suffixId else follow toSuffixId c rows suffixId

/-- Tries one row; the positions from this one on have `cells`, the first of them still changing. -/
def relaxRow (c : Char) (after : List Cell) (cell : Cell) (row : Row) : Option Cell :=
  if INVALID_SCORE < row.score then do
    let next ← (cell :: after)[row.pieceLength]?
    let s ← checkedI64 (next.score - row.score)
    if s < cell.score then
      let count ← checkedI32 (next.count + 1)
      let count ← if row.score = UNKNOWN_SCORE then checkedI32 (count + utf8ExtraBytes c)
        else some count
      return ⟨s, row.pieceLength, row.tokenId, count⟩
    else return cell
  else some cell

def relax (c : Char) (after : List Cell) : List Row → Cell → Option Cell
  | [], cell => some cell
  | row :: rows, cell => do
      let cell ← relaxRow c after cell row
      if row.score = UNKNOWN_SCORE then return cell else relax c after rows cell

/-- Searches a run from its end; gives the suffix it starts with, and the cells. -/
def search (t : GgufPlamo2Tokenizer K) : Text → Option (ℕ × List Cell)
  | [] => some (0, [⟨0, 0, -1, 0⟩])
  | c :: rest => do
      let (suffixId, after) ← t.search rest
      let suffixId := follow t.toSuffixId c (t.table.drop suffixId) suffixId
      let cell ← relax c after (t.table.drop suffixId) ⟨2 ^ 60, 0, -1, 0⟩
      return (suffixId, cell :: after)

/-- The ids along the path; `skip` characters belong to the piece before. -/
def emit (bytes : UInt8 → ℕ) : Text → List Cell → ℕ → List ℕ
  | c :: rest, cell :: after, 0 =>
      (if 0 ≤ cell.id then [cell.id.toNat] else (String.utf8EncodeChar c).map bytes) ++
        emit bytes rest after (max cell.length 1 - 1)
  | _ :: rest, _ :: after, skip + 1 => emit bytes rest after skip
  | _, _, _ => []

def encodeRun (t : GgufPlamo2Tokenizer K) (text : Text) : Option (List ℕ) :=
  let cpts := if text.head? = some '\uFEFF' then text.tail else text
  (t.search cpts).map fun found => emit t.bytes cpts found.2 0

def decodeBytes (t : GgufPlamo2Tokenizer K) (ids : List ℕ) : List UInt8 :=
  ids.flatMap fun id =>
    match t.vocab.token id with
    | none => []
    | some text =>
        match if t.isByte[id]?.getD false then spmByteFallbackValue text else none with
        | some b => [b]
        | none => encode text

end GgufPlamo2Tokenizer

end Frink.Tokenizer
