import Frink.Decode.Text
import Frink.Grammar.Encoding

/-! # Vocabularies

A vocabulary is a list of texts, and its ids are their places. Bytes that no piece covers are
written as byte tokens, six ASCII characters each.
-/

namespace Frink.Tokenizer
open Decode

/-- The id of a text: a later entry replaces an earlier one with the same text. -/
def tokenToId (tokens : List Text) (piece : Text) : Option ℕ :=
  (tokens.zipIdx.reverse.find? fun t => t.1 == piece).map (·.2)

/-- Upper-case hexadecimal. -/
def hexDigit (d : ℕ) : Char := if d < 10 then Char.ofNat (48 + d) else Char.ofNat (55 + d)

/-- How a byte that no piece covers is written. -/
def byteToken (b : UInt8) : Text :=
  ['<', '0', 'x', hexDigit (b.toNat / 16), hexDigit (b.toNat % 16), '>']

/-- The space of SentencePiece vocabularies. -/
def SPM_SPACE : Char := '\u2581'

def escapeSpaces (text : Text) : Text := text.map fun c => if c = ' ' then SPM_SPACE else c

/-- Why a vocabulary that carries scores is refused. -/
inductive TokenizerLoadError where
  | emptyVocabulary
  | scoresVocabLengthMismatch (tokens scores : ℕ)
  deriving DecidableEq

/-- One score for every entry, and at least one entry. -/
structure ScoredVocab (K : Type) where

  idToToken : List Text

  scores : List K

  nonempty : idToToken ≠ []

  covered : scores.length = idToToken.length

namespace ScoredVocab

variable {K : Type}

/-- The two arrays of a file; without scores every entry scores zero. -/
def fromArrays [Zero K] (idToToken : List Text) (scores : Option (List K)) :
    Except TokenizerLoadError (ScoredVocab K) :=
  if hempty : idToToken = [] then .error .emptyVocabulary
  else
    let scores := scores.getD (List.replicate idToToken.length 0)
    if hlen : scores.length = idToToken.length then .ok ⟨idToToken, scores, hempty, hlen⟩
    else .error (.scoresVocabLengthMismatch idToToken.length scores.length)

variable (vocab : ScoredVocab K)

def idOf (piece : Text) : Option ℕ := tokenToId vocab.idToToken piece

def token (id : ℕ) : Option Text := vocab.idToToken[id]?

/-- An id and the score that belongs to it. -/
def lookup (piece : Text) : Option (ℕ × K) :=
  (vocab.idOf piece).bind fun id => vocab.scores[id]?.map fun score => (id, score)

end ScoredVocab

variable {tokens : List Text} {piece : Text} {id : ℕ}

/-- The text of an id that a text has is that text. -/
theorem getElem_of_tokenToId (h : tokenToId tokens piece = some id) : tokens[id]? = some piece := by
  obtain ⟨⟨text, id⟩, ht, rfl⟩ := Option.map_eq_some_iff.mp h
  have hmem : (text, id) ∈ tokens.zipIdx := List.mem_reverse.mp (List.mem_of_find?_eq_some ht)
  obtain rfl : text = piece := by simpa using List.find?_some ht
  exact List.mk_mem_zipIdx_iff_getElem?.mp hmem

theorem tokenToId_isSome_iff : (tokenToId tokens piece).isSome ↔ piece ∈ tokens := by
  constructor
  · intro h
    obtain ⟨id, hid⟩ := Option.isSome_iff_exists.mp h
    exact List.mem_of_getElem? (getElem_of_tokenToId hid)
  · intro h
    obtain ⟨id, hid⟩ := List.mem_iff_getElem?.mp h
    rw [tokenToId, Option.isSome_map, List.find?_isSome]
    refine ⟨(piece, id), List.mem_reverse.mpr ?_, beq_self_eq_true piece⟩
    exact List.mk_mem_zipIdx_iff_getElem?.mpr hid

namespace ScoredVocab

variable {K : Type} {vocab : ScoredVocab K}

/-- A text that has an id has a score. -/
theorem lookup_isSome_iff : (vocab.lookup piece).isSome ↔ (vocab.idOf piece).isSome := by
  rw [lookup]
  cases h : vocab.idOf piece with
  | none => rfl
  | some id =>
    obtain ⟨hlt, -⟩ := List.getElem?_eq_some_iff.mp (getElem_of_tokenToId h)
    rw [← vocab.covered] at hlt
    simp [List.getElem?_eq_getElem hlt]

end ScoredVocab

end Frink.Tokenizer
