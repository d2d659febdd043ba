import Mathlib

/-! # Lossy UTF-8 decoding

Bytes that are UTF-8 are their text. Elsewhere every maximal piece that starts a character and
does not finish it becomes one replacement character.
-/

namespace Frink.Codec

def REPLACEMENT : Char := '\uFFFD'

def isContinuation (b : UInt8) : Bool := 0x80 ≤ b && b ≤ 0xBF

/-- Whether the second byte may follow the lead byte of a longer sequence. -/
def isSecond (lead b : UInt8) : Bool :=
  if lead = 0xE0 then 0xA0 ≤ b && b ≤ 0xBF
  else if lead = 0xED then 0x80 ≤ b && b ≤ 0x9F
  else if lead = 0xF0 then 0x90 ≤ b && b ≤ 0xBF
  else if lead = 0xF4 then 0x80 ≤ b && b ≤ 0x8F
  else isContinuation b

/-- Continuation bytes that the lead byte announces; `none` for a byte that leads nothing. -/
def announced (b : UInt8) : Option ℕ :=
  if b ≤ 0x7F then some 0
  else if 0xC2 ≤ b && b ≤ 0xDF then some 1
  else if 0xE0 ≤ b && b ≤ 0xEF then some 2
  else if 0xF0 ≤ b && b ≤ 0xF4 then some 3
  else none

/-- The longest run of continuation bytes after a lead byte, at most as many as announced. -/
def trailing (lead : UInt8) : ℕ → List UInt8 → List UInt8
  | 0, _ => []
  | _, [] => []
  | n + 1, b :: bytes =>
      if isSecond lead b then b :: (bytes.take n).takeWhile isContinuation else []

/-- The code point of a complete sequence. -/
def codePoint (lead : UInt8) (tail : List UInt8) : ℕ :=
  tail.foldl (fun n b => n * 64 + b.toNat % 64)
    (if tail.isEmpty then lead.toNat else lead.toNat % 2 ^ (6 - tail.length))

/-- Character by character, `fuel` bounding the characters. -/
def lossyChars : ℕ → List UInt8 → List Char
  | 0, _ => []
  | _, [] => []
  | fuel + 1, lead :: bytes =>
      match announced lead with
      | none => REPLACEMENT :: lossyChars fuel bytes
      | some n =>
          let tail := trailing lead n bytes
          (if tail.length = n then Char.ofNat (codePoint lead tail) else REPLACEMENT) ::
            lossyChars fuel (bytes.drop tail.length)

def utf8 (s : String) : List UInt8 := s.toByteArray.data.toList

def fromUtf8Lossy (bytes : List UInt8) : String :=
  match String.fromUTF8? ⟨bytes.toArray⟩ with
  | some s => s
  | none => String.ofList (lossyChars bytes.length bytes)

theorem fromUtf8Lossy_utf8 (s : String) : fromUtf8Lossy (utf8 s) = s := by
  have h : String.fromUTF8? ⟨(utf8 s).toArray⟩ = some s := by
    rw [utf8, Array.toArray_toList, String.fromUTF8?, dif_pos s.isValidUTF8]
    rfl
  rw [fromUtf8Lossy, h]

theorem length_utf8_ofList (cs : List Char) :
    (utf8 (String.ofList cs)).length = (cs.map Char.utf8Size).sum := by
  rw [utf8, String.toByteArray_ofList]
  induction cs with
  | nil => simp
  | cons c cs ih =>
    rw [List.utf8Encode_cons]
    simpa [List.utf8Encode_singleton] using ih

theorem length_trailing_le (lead : UInt8) (n : ℕ) (bytes : List UInt8) :
    (trailing lead n bytes).length ≤ n ∧ (trailing lead n bytes).length ≤ bytes.length := by
  cases n with
  | zero => simp [trailing]
  | succ n =>
    cases bytes with
    | nil => simp [trailing]
    | cons b bytes =>
      have h := ((bytes.take n).takeWhile_sublist isContinuation).length_le
      rw [List.length_take] at h
      rw [trailing]
      split
      · simp only [List.length_cons]
        omega
      · simp

/-- A character takes at most three times the bytes it is decoded from. -/
theorem utf8Size_decoded {lead : UInt8} {n : ℕ} (h : announced lead = some n) (tail : List UInt8)
    (hn : tail.length = n) : (Char.ofNat (codePoint lead tail)).utf8Size ≤ 3 * (n + 1) := by
  cases n with
  | zero =>
    obtain rfl := List.eq_nil_of_length_eq_zero hn
    have hlead : lead.toNat < 0x800 := by
      have := UInt8.toNat_lt lead
      omega
    have hvalid : Nat.isValidChar lead.toNat := Or.inl (by omega)
    have hval : (Char.ofNat lead.toNat).val.toNat = lead.toNat := by
      rw [Char.ofNat, dif_pos hvalid]
      rfl
    show (Char.ofNat lead.toNat).utf8Size ≤ 3
    have hne : (Char.ofNat lead.toNat).utf8Size ≠ 4 := by
      rw [Ne, Char.utf8Size_eq_four_iff, UInt32.lt_iff_toNat_lt, hval]
      have : (0xffff : UInt32).toNat = 0xffff := rfl
      omega
    have := Char.utf8Size_le_four (Char.ofNat lead.toNat)
    omega
  | succ n =>
    have := Char.utf8Size_le_four (Char.ofNat (codePoint lead tail))
    omega

theorem sum_lossyChars_le (fuel : ℕ) (bytes : List UInt8) :
    ((lossyChars fuel bytes).map Char.utf8Size).sum ≤ 3 * bytes.length := by
  induction fuel generalizing bytes with
  | zero => simp [lossyChars]
  | succ fuel ih =>
    cases bytes with
    | nil => simp [lossyChars]
    | cons lead bytes =>
      have hreplace : REPLACEMENT.utf8Size = 3 := by decide
      rw [lossyChars]
      split
      · have := ih bytes
        simp only [List.map_cons, List.sum_cons, hreplace, List.length_cons]
        omega
      · rename_i n hn
        have htail := length_trailing_le lead n bytes
        have := ih (bytes.drop (trailing lead n bytes).length)
        rw [List.length_drop] at this
        simp only [List.map_cons, List.sum_cons, List.length_cons]
        split
        · have := utf8Size_decoded hn _ ‹_›
          omega
        · rw [hreplace]
          omega

/-- Decoding makes text of at most three times the bytes. -/
theorem length_fromUtf8Lossy_le (bytes : List UInt8) :
    (utf8 (fromUtf8Lossy bytes)).length ≤ 3 * bytes.length := by
  rw [fromUtf8Lossy]
  split
  · rename_i s hs
    rw [String.fromUTF8?] at hs
    split at hs
    · cases hs
      show bytes.length ≤ 3 * bytes.length
      omega
    · cases hs
  · rw [length_utf8_ofList]
    exact sum_lossyChars_le _ _

end Frink.Codec
