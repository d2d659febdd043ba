import Mathlib
import Frink.Decode.StopCuts
import Frink.Grammar.Encoding
import Frink.Library.Greedy
import Frink.Tokenizer.ByteLevel

/-! # Byte pair encoding

A text is cut into words, the characters of each word are merged by rank, and every piece that is
left becomes the ids that spell it. Two styles differ in how bytes are written and in where words
end.
-/

/-! ## Special tokens

The special entries of a vocabulary are carved out of a text before it is tokenized. They are
taken longest first, and each splits every run of text that those before it left.
-/

namespace Frink.Tokenizer
open Decode

/-- Whether a marker in the text is the token it names or the characters it is written with. -/
inductive SpecialTokens where
  | asText
  | parse
  deriving DecidableEq

inductive SpecialKind where
  | control
  | userDefined
  | unknown
  deriving DecidableEq

def SpecialKind.isParsed (kind : SpecialKind) : SpecialTokens → Bool
  | .parse => true
  | .asText => kind == .userDefined

structure SpecialToken where
  text : Text
  id : ℕ
  kind : SpecialKind
  deriving DecidableEq

/-- A run of text to tokenize, or the id of a special entry. -/
inductive TextOrSpecial where
  | text (run : Text)
  | special (id : ℕ)
  deriving DecidableEq

/-- An empty special would match everywhere. -/
structure SpecialTokenTable where

  entries : List SpecialToken

  nonempty : ∀ e ∈ entries, e.text ≠ []

/-- The run around every occurrence of a special entry, `fuel` bounding the occurrences. -/
def carve (special : SpecialToken) : ℕ → Text → List TextOrSpecial
  | 0, rest => if rest.isEmpty then [] else [.text rest]
  | fuel + 1, rest =>
      match findText special.text rest with
      | some at_ =>
          (if 0 < at_ then [.text (rest.take at_)] else []) ++
            .special special.id :: carve special fuel (rest.drop (at_ + special.text.length))
      | none => if rest.isEmpty then [] else [.text rest]

/-- Every run of text is split around one special entry. -/
def partition (fragments : List TextOrSpecial) (special : SpecialToken) : List TextOrSpecial :=
  fragments.flatMap fun
    | .special id => [.special id]
    | .text run => carve special run.length run

namespace SpecialTokenTable

/-- Longest text first, equal lengths in the order they come in. -/
def fromEntries (entries : List (Text × ℕ × SpecialKind)) : SpecialTokenTable where
  entries := ((entries.filter fun e => !e.1.isEmpty).map fun e => ⟨e.1, e.2.1, e.2.2⟩).mergeSort
    fun a b => (Gbnf.encode b.text).length ≤ (Gbnf.encode a.text).length
  nonempty := by
    intro e he
    obtain ⟨e, hmem, rfl⟩ := List.mem_map.mp (List.mem_mergeSort.mp he)
    simpa using (List.mem_filter.mp hmem).2

variable (t : SpecialTokenTable)

def split (text : Text) (mode : SpecialTokens) : List TextOrSpecial :=
  (t.entries.filter fun special => special.kind.isParsed mode).foldl partition [.text text]

end SpecialTokenTable

variable {special : SpecialToken} {fuel : ℕ} {run text : Text} {mode : SpecialTokens}

/-- A run that no special entry occurs in is left as it is. -/
theorem carve_plain (h : ∀ id, .special id ∉ carve special run.length run) :
    carve special run.length run = if run.isEmpty then [] else [.text run] := by
  cases run with
  | nil => rfl
  | cons c run =>
    rw [List.length_cons, carve] at h ⊢
    cases hf : findText special.text (c :: run) with
    | none => rfl
    | some at_ =>
      rw [hf] at h
      exact absurd (List.mem_append_right _ List.mem_cons_self) (h special.id)

/-- What has been carved out stays. -/
theorem special_mem_partition {fragments : List TextOrSpecial} {id : ℕ}
    (h : .special id ∈ fragments) : .special id ∈ partition fragments special :=
  List.mem_flatMap.mpr ⟨_, h, List.mem_singleton_self _⟩

theorem special_mem_foldl {fragments : List TextOrSpecial} {id : ℕ} (h : .special id ∈ fragments)
    (specials : List SpecialToken) : .special id ∈ specials.foldl partition fragments := by
  induction specials generalizing fragments with
  | nil => exact h
  | cons special specials ih => exact ih (special_mem_partition h)

theorem foldl_partition_nil (specials : List SpecialToken) : specials.foldl partition [] = [] := by
  induction specials with
  | nil => rfl
  | cons special specials ih => exact ih

/-- A text in which nothing is parsed is one run. -/
theorem foldl_partition_plain {specials : List SpecialToken}
    (h : ∀ id, .special id ∉ specials.foldl partition [.text text]) :
    specials.foldl partition [.text text] = [.text text] ∨
      text = [] ∧ specials.foldl partition [.text text] = [] := by
  induction specials with
  | nil => exact Or.inl rfl
  | cons special specials ih =>
    rw [List.foldl_cons] at h ⊢
    have hone : partition [.text text] special = carve special text.length text :=
      List.append_nil _
    rw [hone] at h ⊢
    have hplain := carve_plain fun id hid => h id (special_mem_foldl hid specials)
    rw [hplain] at h ⊢
    cases text with
    | nil => exact Or.inr ⟨rfl, foldl_partition_nil specials⟩
    | cons c text => exact ih h

theorem SpecialTokenTable.split_plain {t : SpecialTokenTable}
    (h : ∀ id, .special id ∉ t.split text mode) :
    t.split text mode = [.text text] ∨ text = [] ∧ t.split text mode = [] :=
  foldl_partition_plain h

end Frink.Tokenizer

namespace Frink.Tokenizer
open Decode Gbnf

/-- What lies between the matches is a chunk too; a match that fails ends the search. -/
def splitWithGaps (text : Text) : ℕ → List (Option (ℕ × ℕ)) → List Text
  | cursor, some (start, stop) :: found =>
      (if cursor < start then [(text.take start).drop cursor] else []) ++
        (text.take stop).drop start :: splitWithGaps text stop found
  | cursor, _ => if cursor < text.length then [text.drop cursor] else []

/-- The matches lie in the text, one behind the other. -/
def Ordered (text : Text) : ℕ → List (Option (ℕ × ℕ)) → Prop
  | cursor, some (start, stop) :: found =>
      cursor ≤ start ∧ start ≤ stop ∧ stop ≤ text.length ∧ Ordered text stop found
  | _, _ => True

/-- The longest runs of newlines and of other characters. -/
def newlineRuns (text : Text) : List Text := text.splitBy fun a b => (a == '\n') == (b == '\n')

inductive BpeEncodingStyle where
  | gpt2
  | spmWhitespace
  deriving DecidableEq

/-- The regular expression is known by what it finds. -/
structure GgufBpeTokenizer where
  idToToken : List Text
  mergeRank : Text → Text → Option ℕ
  specialTokens : SpecialTokenTable
  findIter : Text → List (Option (ℕ × ℕ))
  style : BpeEncodingStyle

namespace GgufBpeTokenizer

variable (t : GgufBpeTokenizer)

def idOf (piece : Text) : Option ℕ := tokenToId t.idToToken piece

/-- The pieces a word starts as. -/
def letters (word : Text) : List Text :=
  match t.style with
  | .gpt2 => (encode word).map fun b => [byteToUnicode b]
  | .spmWhitespace => word.map fun c => [c]

/-- The scan for the lowest rank from the `i`-th piece on. -/
def scan : ℕ → Option (ℕ × ℕ) → List Text → Option (ℕ × ℕ)
  | i, best, x :: y :: pieces =>
      let best :=
        match t.mergeRank x y with
        | some rank => if best.all fun b => rank < b.1 then some (rank, i) else best
        | none => best
      scan (i + 1) best (y :: pieces)
  | _, best, _ => best

/-- The merge loop, `fuel` bounding its turns. -/
def mergeLoop : ℕ → List Text → List Text
  | 0, pieces => pieces
  | fuel + 1, pieces =>
      match t.scan 0 none pieces with
      | some (_, i) => mergeLoop fuel (Greedy.joinAt (· ++ ·) i pieces)
      | none => pieces

/-- A piece without an entry is spelled by its first character, or in byte tokens. -/
def pieceToIds (piece : Text) : List ℕ :=
  match t.idOf piece with
  | some id => [id]
  | none =>
      match t.style with
      | .gpt2 => [(piece.head?.bind fun c => t.idOf [c]).getD 0]
      | .spmWhitespace => (encode piece).filterMap fun b => t.idOf (byteToken b)

def encodeWord (word : Text) : List ℕ :=
  (t.mergeLoop (t.letters word).length (t.letters word)).flatMap t.pieceToIds

def encodeTextRun (text : Text) : List ℕ :=
  match t.style with
  | .gpt2 => (splitWithGaps text 0 (t.findIter text)).flatMap t.encodeWord
  | .spmWhitespace =>
      (newlineRuns (escapeSpaces text)).flatMap fun word =>
        if word.head? = some '\n' then
          match t.idOf word with
          | some id => [id]
          | none => t.encodeWord word
        else t.encodeWord word

def encode (text : Text) (specials : SpecialTokens) : List ℕ :=
  (t.specialTokens.split text specials).flatMap fun
    | .special id => [id]
    | .text run => t.encodeTextRun run

def decodeBytes (ids : List ℕ) : List UInt8 :=
  match t.style with
  | .gpt2 => ((ids.filterMap fun id => t.idToToken[id]?).flatMap id).filterMap unicodeToByte
  | .spmWhitespace =>
      ids.flatMap fun id =>
        match t.idToToken[id]? with
        | none => []
        | some token =>
            match spmByteFallbackValue token with
            | some b => [b]
            | none => Gbnf.encode (unescapeSpaces token)

/-- The rank as a priority. -/
def priority (x y : Text) : Option ℕᵒᵈ := (t.mergeRank x y).map OrderDual.toDual

/-- What the scan keeps of the best so far and the best from the `i`-th piece on. -/
def better (i : ℕ) : Option (ℕ × ℕ) → Option (ℕᵒᵈ × ℕ) → Option (ℕ × ℕ)
  | best, none => best
  | none, some (k, j) => some (k.ofDual, i + j)
  | some b, some (k, j) => if k.ofDual < b.1 then some (k.ofDual, i + j) else some b

variable {t}

theorem scan_eq (i : ℕ) (best : Option (ℕ × ℕ)) (pieces : List Text) :
    t.scan i best pieces = better i best (Greedy.best t.priority pieces) := by
  induction pieces generalizing i best with
  | nil => rfl
  | cons x pieces ih =>
    cases pieces with
    | nil => rfl
    | cons y pieces =>
      rw [scan, ih, Greedy.best, priority]
      cases t.mergeRank x y with
      | none =>
        cases Greedy.best t.priority (y :: pieces) <;> cases best <;>
          simp [better, Nat.add_assoc, Nat.add_comm 1]
      | some rank =>
        cases Greedy.best t.priority (y :: pieces) with
        | none => cases best <;> simp [better]
        | some later =>
          obtain ⟨k, j⟩ := later
          have hlt : OrderDual.toDual rank < k ↔ k.ofDual < rank := OrderDual.toDual_lt
          cases best with
          | none =>
            simp only [Option.map_some, Option.all_none, ↓reduceIte, better, hlt]
            split_ifs <;> simp [Nat.add_assoc, Nat.add_comm 1]
          | some b =>
            simp only [Option.map_some, Option.all_some, decide_eq_true_eq, hlt]
            by_cases hbest : rank < b.1 <;> by_cases hlater : k.ofDual < rank <;>
              by_cases hboth : k.ofDual < b.1 <;>
                simp [better, hbest, hlater, hboth, Nat.add_assoc, Nat.add_comm 1] <;> omega

theorem mergeLoop_eq (fuel : ℕ) (pieces : List Text) :
    t.mergeLoop fuel pieces = Greedy.mergeFor t.priority (· ++ ·) fuel pieces := by
  induction fuel generalizing pieces with
  | zero => rfl
  | succ fuel ih =>
    rw [mergeLoop, scan_eq, Greedy.mergeFor]
    cases Greedy.best t.priority pieces with
    | none => rfl
    | some b =>
      simp only [better, Nat.zero_add]
      exact ih _

/-- The loop merges greedily by rank, and its fuel is enough. -/
theorem encodeWord_eq (word : Text) : t.encodeWord word =
    (Greedy.merge t.priority (· ++ ·) (t.letters word)).flatMap t.pieceToIds := by
  rw [encodeWord, mergeLoop_eq, Greedy.merge]

end GgufBpeTokenizer

end Frink.Tokenizer
