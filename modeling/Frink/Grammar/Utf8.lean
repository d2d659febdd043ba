import Mathlib

/-! # Decoding token pieces

A piece continues the sequence left open by the previous piece, and a NUL byte
ends it. The decoded code points are always followed by a terminating 0.
-/

namespace Frink.Gbnf

/-- `nRemain` continuation bytes are still expected; -1 marks an invalid sequence. -/
structure PartialUtf8 where
  value : ℕ
  nRemain : ℤ
  deriving DecidableEq, Repr

def PartialUtf8.empty : PartialUtf8 := ⟨0, 0⟩

/-- The length announced by the top four bits of a lead byte; 0 for a continuation byte. -/
def pieceLookup (b : UInt8) : ℤ :=
  match b.toNat / 16 with
  | 8 | 9 | 10 | 11 => 0
  | 12 | 13 => 2
  | 14 => 3
  | 15 => 4
  | _ => 1

/-- Continues the carried sequence; `none` when a byte is not a continuation byte. -/
def continuePartial (value : ℕ) (nRemain : ℤ) : List UInt8 → Option (ℕ × ℤ × List UInt8)
  | [] => some (value, nRemain, [])
  | b :: src =>
      if b = 0 ∨ nRemain ≤ 0 then some (value, nRemain, b :: src)
      else if b.toNat / 64 ≠ 2 then none
      else continuePartial (value * 64 + b.toNat % 64) (nRemain - 1) src

/-- The two nested loops of the source: `nRemain` is positive inside a sequence. -/
def decodeLoop (codePoints : List ℕ) (value : ℕ) (nRemain : ℤ) :
    List UInt8 → List ℕ × PartialUtf8
  | [] => (codePoints ++ [0], ⟨value, nRemain⟩)
  | b :: src =>
      if b = 0 then (codePoints ++ [0], ⟨value, nRemain⟩)
      else if 0 < nRemain then
        let value := value * 64 + b.toNat % 64
        decodeLoop (if nRemain = 1 then codePoints ++ [value] else codePoints) value
          (nRemain - 1) src
      else
        let nRemain := pieceLookup b - 1
        if nRemain < 0 then ([0], ⟨0, nRemain⟩)
        else
          let value := b.toNat % 2 ^ (7 - nRemain).toNat
          decodeLoop (if nRemain = 0 then codePoints ++ [value] else codePoints) value nRemain src

def decodePiece (src : List UInt8) (start : PartialUtf8) : List ℕ × PartialUtf8 :=
  match continuePartial start.value start.nRemain src with
  | none => ([0], ⟨0, -1⟩)
  | some (value, nRemain, rest) =>
      decodeLoop (if 0 < start.nRemain ∧ nRemain = 0 then [value] else []) value nRemain rest

variable {codePoints pts : List ℕ} {value : ℕ} {nRemain : ℤ} {src : List UInt8}
  {start p : PartialUtf8}

theorem decodeLoop_terminated (codePoints : List ℕ) (value : ℕ) (nRemain : ℤ)
    (src : List UInt8) :
    ∃ l, (decodeLoop codePoints value nRemain src).1 = l ++ [0] := by
  induction src generalizing codePoints value nRemain with
  | nil => exact ⟨codePoints, rfl⟩
  | cons b src ih =>
    simp only [decodeLoop]
    split
    · exact ⟨codePoints, rfl⟩
    · split
      · exact ih _ _ _
      · split
        · exact ⟨[], rfl⟩
        · exact ih _ _ _

/-- The decoded code points end with the terminating 0. -/
theorem decodePiece_terminated (src : List UInt8) (start : PartialUtf8) :
    ∃ l, (decodePiece src start).1 = l ++ [0] := by
  unfold decodePiece
  split
  · exact ⟨[], rfl⟩
  · exact decodeLoop_terminated _ _ _ _

theorem decodePiece_dropLast (src : List UInt8) (start : PartialUtf8) :
    (decodePiece src start).1 = (decodePiece src start).1.dropLast ++ [0] := by
  obtain ⟨l, hl⟩ := decodePiece_terminated src start
  rw [hl, List.dropLast_concat]

/-- A loop with something read or to be read has a code point to show when it ends cleanly. -/
theorem decodeLoop_ne_nil
    (h : 0 < nRemain ∨ codePoints ≠ [] ∨ ∃ b rest, src = b :: rest ∧ b ≠ 0)
    (hend : (decodeLoop codePoints value nRemain src).2.nRemain = 0) :
    (decodeLoop codePoints value nRemain src).1 ≠ [0] := by
  induction src generalizing codePoints value nRemain with
  | nil =>
    rcases h with h | h | ⟨b, rest, h, _⟩
    · simp only [decodeLoop] at hend; omega
    · simpa [decodeLoop] using h
    · exact nomatch h
  | cons b src ih =>
    simp only [decodeLoop] at hend ⊢
    split at hend
    · rename_i hb
      rw [if_pos hb]
      rcases h with h | h | ⟨b', rest, hbr, hb'⟩
      · simp only at hend; omega
      · simpa using h
      · cases hbr; exact absurd hb hb'
    · rename_i hb
      rw [if_neg hb]
      split at hend
      · rename_i hn
        rw [if_pos hn]
        refine ih ?_ hend
        by_cases h1 : nRemain = 1
        · simp [h1]
        · left; omega
      · rename_i hn
        rw [if_neg hn]
        split at hend
        · simp only at hend; omega
        · rename_i hlead
          rw [if_neg hlead]
          refine ih ?_ hend
          by_cases h0 : pieceLookup b - 1 = 0
          · simp [h0]
          · left; omega

theorem continuePartial_pos {value' : ℕ} {nRemain' : ℤ} {rest : List UInt8}
    (hpos : 0 < nRemain)
    (h : continuePartial value nRemain src = some (value', nRemain', rest)) :
    0 ≤ nRemain' := by
  induction src generalizing value nRemain with
  | nil => cases h; omega
  | cons b src ih =>
    rw [continuePartial] at h
    split at h
    · cases h; omega
    · rename_i hb
      split at h
      · exact nomatch h
      · by_cases h1 : nRemain = 1
        · subst h1
          cases src with
          | nil => cases h; omega
          | cons c src => simp [continuePartial] at h; omega
        · exact ih (by omega) h

/-- A non-empty piece that ends between characters decodes to a code point at least. -/
theorem decodePiece_ne_nil {b : UInt8} (hb : b ≠ 0)
    (hend : (decodePiece (b :: src) start).2.nRemain = 0) :
    (decodePiece (b :: src) start).1.dropLast ≠ [] := by
  have hne : (decodePiece (b :: src) start).1 ≠ [0] := by
    unfold decodePiece at hend ⊢
    split at hend
    · simp at hend
    · rename_i value nRemain rest hc
      by_cases hpos : 0 < start.nRemain
      · have hnn := continuePartial_pos hpos hc
        refine decodeLoop_ne_nil ?_ hend
        by_cases h0 : nRemain = 0
        · simp [hpos, h0]
        · left; omega
      · have hstop : continuePartial start.value start.nRemain (b :: src) =
            some (start.value, start.nRemain, b :: src) := by
          rw [continuePartial, if_pos (Or.inr (by omega))]
        rw [hstop] at hc
        cases hc
        exact decodeLoop_ne_nil (.inr (.inr ⟨b, src, rfl, hb⟩)) hend
  intro h
  rw [decodePiece_dropLast, h] at hne
  exact hne rfl

end Frink.Gbnf
