import Frink.Grammar.Source
import Frink.Tokenizer.Vocab

/-! # Bytes in vocabularies

A vocabulary spells bytes in one of two ways: each byte has a printable character of its own, or
each byte has a token that names it in hexadecimal.
-/

namespace Frink.Tokenizer
open Decode
open Gbnf (encode)

/-- The bytes that stand for themselves. -/
def isPrintable (b : ℕ) : Bool :=
  (33 ≤ b && b ≤ 126) || (161 ≤ b && b ≤ 172) || (174 ≤ b && b ≤ 255)

/-- The other bytes are numbered from 256 on. -/
def remapped (b : ℕ) : ℕ :=
  if isPrintable b then b else 256 + (List.range b).countP fun b => !isPrintable b

/-- The forward table of `gpt2_byte_to_unicode`. -/
def byteToUnicode (b : UInt8) : Char := Char.ofNat (remapped b.toNat)

/-- Its reverse table. -/
def unicodeToByte (c : Char) : Option UInt8 :=
  ((List.range 256).map UInt8.ofNat).reverse.find? fun b => byteToUnicode b == c

/-- A number in hexadecimal that fits a byte; a plus sign may stand in front. -/
def fromStrRadix16 (digits : List UInt8) : Option UInt8 :=
  let digits := if digits.head? = some 43 ∧ 1 < digits.length then digits.tail else digits
  if digits.isEmpty then none
  else
    (digits.foldlM (fun value c => (Gbnf.hexDigit c).bind fun digit =>
      if value * 16 + digit < 256 then some (value * 16 + digit) else none) 0).map UInt8.ofNat

/-- The byte that a token names. -/
def spmByteFallbackValue : Text → Option UInt8
  | '<' :: '0' :: 'x' :: rest =>
      if rest.getLast? = some '>' then
        let hex := encode rest.dropLast
        if hex.length = 2 then fromStrRadix16 hex else none
      else none
  | _ => none

/-- The text a token stands for where spaces are escaped. -/
def unescapeSpaces (text : Text) : Text := text.map fun c => if c = SPM_SPACE then ' ' else c

theorem remapped_eq {b : ℕ} (h : b < 256) : remapped b =
    if isPrintable b then b else if b < 33 then 256 + b else if b < 161 then 162 + b else 323 := by
  have htable : ∀ b < 256, remapped b = if isPrintable b then b
      else if b < 33 then 256 + b else if b < 161 then 162 + b else 323 := by
    decide +kernel
  exact htable b h

theorem remapped_inj {a b : ℕ} (ha : a < 256) (hb : b < 256) (h : remapped a = remapped b) :
    a = b := by
  rw [remapped_eq ha, remapped_eq hb] at h
  simp only [isPrintable, Bool.or_eq_true, Bool.and_eq_true, decide_eq_true_eq] at h
  split_ifs at h <;> omega

theorem byteToUnicode_injective : Function.Injective byteToUnicode := by
  intro a b h
  have hcode : ∀ b : UInt8, (byteToUnicode b).toNat = remapped b.toNat := by
    intro b
    have hlt := b.toNat_lt
    have hsmall : remapped b.toNat < 512 := by
      rw [remapped_eq hlt]
      split_ifs <;> omega
    have hvalid : (remapped b.toNat).isValidChar := Or.inl (by omega)
    simp [byteToUnicode, Char.ofNat, hvalid, Char.toNat, Char.ofNatAux]
  apply UInt8.toNat_inj.mp
  apply remapped_inj a.toNat_lt b.toNat_lt
  rw [← hcode, ← hcode, h]

@[simp] theorem unicodeToByte_byteToUnicode (b : UInt8) : unicodeToByte (byteToUnicode b) = some b := by
  have hsome : (unicodeToByte (byteToUnicode b)).isSome := by
    rw [unicodeToByte, List.find?_isSome]
    refine ⟨b, List.mem_reverse.mpr ?_, beq_self_eq_true _⟩
    exact List.mem_map.mpr ⟨b.toNat, List.mem_range.mpr b.toNat_lt, by simp⟩
  obtain ⟨a, ha⟩ := Option.isSome_iff_exists.mp hsome
  have hab : byteToUnicode a = byteToUnicode b := by simpa using List.find?_some ha
  rw [ha, byteToUnicode_injective hab]

@[simp] theorem spmByteFallbackValue_byteToken (b : UInt8) :
    spmByteFallbackValue (byteToken b) = some b := by
  have htable : ∀ n < 256, spmByteFallbackValue (byteToken (.ofNat n)) = some (.ofNat n) := by
    decide +kernel
  simpa using htable b.toNat b.toNat_lt

theorem space_notMem_byteToken (b : UInt8) : SPM_SPACE ∉ byteToken b := by
  have htable : ∀ n < 256, SPM_SPACE ∉ byteToken (.ofNat n) := by
    decide +kernel
  simpa using htable b.toNat b.toNat_lt

theorem length_encode_byteToken (b : UInt8) : 1 < (encode (byteToken b)).length := by
  have htable : ∀ n < 256, 1 < (encode (byteToken (.ofNat n))).length := by
    decide +kernel
  simpa using htable b.toNat b.toNat_lt

@[simp] theorem unescapeSpaces_append (text rest : Text) :
    unescapeSpaces (text ++ rest) = unescapeSpaces text ++ unescapeSpaces rest :=
  List.map_append

theorem unescapeSpaces_of_notMem {text : Text} (h : SPM_SPACE ∉ text) :
    unescapeSpaces text = text := by
  apply (List.map_congr_left fun c hc => ?_).trans (List.map_id text)
  apply if_neg
  rintro rfl
  exact h hc

theorem unescapeSpaces_escapeSpaces {text : Text} (h : SPM_SPACE ∉ text) :
    unescapeSpaces (escapeSpaces text) = text := by
  rw [unescapeSpaces, escapeSpaces, List.map_map]
  apply (List.map_congr_left fun c hc => ?_).trans (List.map_id text)
  by_cases hspace : c = ' '
  · simp [hspace]
  · have hne : c ≠ SPM_SPACE := by
      rintro rfl
      exact h hc
    simp [hspace, hne]

section Synchronisation
open Gbnf

variable {c d : Char} {text : Text}

theorem byteValues_inj {v w : ℕ} (hv : v < 0x110000) (hw : w < 0x110000)
    (h : byteValues v = byteValues w) : v = w := by
  unfold byteValues at h
  split_ifs at h <;> simp at h <;> omega

theorem utf8EncodeChar_injective : Function.Injective String.utf8EncodeChar := by
  intro c d h
  have hvalues := map_toNat_utf8EncodeChar c
  rw [h, map_toNat_utf8EncodeChar] at hvalues
  have hcode := byteValues_inj (toNat_lt d) (toNat_lt c) hvalues
  rw [← Char.ofNat_toNat c, ← hcode, Char.ofNat_toNat]

/-- A character starts where its lead byte stands. -/
theorem eq_of_starts (h : String.utf8EncodeChar c <+: String.utf8EncodeChar d ++ encode text) :
    c = d := by
  have hc := length_utf8EncodeChar_pos c
  have hd := length_utf8EncodeChar_pos d
  have hcb := List.getElem?_eq_getElem hc
  have hdb := List.getElem?_eq_getElem hd
  have hsame : (String.utf8EncodeChar c)[0] = (String.utf8EncodeChar d)[0] := by
    rw [h.getElem hc, List.getElem_append_left hd]
  have hsize : c.utf8Size = d.utf8Size := by
    have hlead := (leadByte hcb).1
    rw [hsame, (leadByte hdb).1] at hlead
    omega
  have hlen : (String.utf8EncodeChar c).length = (String.utf8EncodeChar d).length := by
    rw [String.length_utf8EncodeChar, String.length_utf8EncodeChar, hsize]
  apply utf8EncodeChar_injective
  exact (List.prefix_of_prefix_length_le h (List.prefix_append _ _) hlen.le).eq_of_length hlen

/-- No character starts within another. -/
theorem not_starts_inside {k : ℕ} (hk : 0 < k) (hlt : k < (String.utf8EncodeChar d).length) :
    ¬ String.utf8EncodeChar c <+: (String.utf8EncodeChar d ++ encode text).drop k := by
  intro h
  have hc := length_utf8EncodeChar_pos c
  have hsame : (String.utf8EncodeChar c)[0] = (String.utf8EncodeChar d)[k] := by
    rw [h.getElem hc, List.getElem_drop, List.getElem_append_left (by omega)]
    simp
  have hlead := (leadByte (List.getElem?_eq_getElem hc)).1
  have hlater := (laterByte hk (List.getElem?_eq_getElem hlt)).1
  rw [← hsame] at hlater
  have hpos := c.utf8Size_pos
  rw [pieceLookup_eq] at hlead
  split_ifs at hlead <;> omega

/-- The bytes of a character occur in those of a text only where the character does. -/
theorem mem_of_infix (h : String.utf8EncodeChar c <:+: encode text) : c ∈ text := by
  induction text with
  | nil =>
    have hempty : String.utf8EncodeChar c = [] := List.infix_nil.mp h
    have hpos := length_utf8EncodeChar_pos c
    simp [hempty] at hpos
  | cons d text ih =>
    obtain ⟨k, hk⟩ : ∃ k, String.utf8EncodeChar c <+: (encode (d :: text)).drop k := by
      obtain ⟨front, back, hsplit⟩ := h
      refine ⟨front.length, back, ?_⟩
      rw [← hsplit, List.append_assoc, List.drop_left]
    rw [encode_cons] at hk
    rcases Nat.lt_or_ge k (String.utf8EncodeChar d).length with hlt | hge
    · rcases Nat.eq_zero_or_pos k with rfl | hpos
      · rw [eq_of_starts hk]
        exact List.mem_cons_self
      · exact absurd hk (not_starts_inside hpos hlt)
    · apply List.mem_cons_of_mem
      apply ih
      rw [List.drop_append, List.drop_eq_nil_of_le hge, List.nil_append] at hk
      exact hk.isInfix.trans (List.drop_suffix _ _).isInfix

theorem infix_of_mem (h : c ∈ text) : String.utf8EncodeChar c <:+: encode text :=
  List.infix_of_mem_flatten (List.mem_map_of_mem h)

end Synchronisation

end Frink.Tokenizer
