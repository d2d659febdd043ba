import Frink.Library.Lossy

/-! # UTF-8 validation

Text is read off bytes piece by piece. A validator reports how far the bytes are text, and
whether what stops it is ill-formed or only cut short.
-/

namespace Frink.Codec

/-- What the bytes from a lead byte on begin with. -/
inductive Piece where

  | decoded (wellFormed : Bool) (c : Char) (rest : List UInt8)

  /-- The bytes end within a character. -/
  | cut
  deriving DecidableEq

def piece (lead : UInt8) (bytes : List UInt8) : Piece :=
  match announced lead with
  | none => .decoded false REPLACEMENT bytes
  | some n =>
      let tail := trailing lead n bytes
      if tail.length = n then .decoded true (Char.ofNat (codePoint lead tail)) (bytes.drop n)
      else if tail.length = bytes.length then .cut
      else .decoded false REPLACEMENT (bytes.drop tail.length)

/-- The length of the valid front, and that of the ill-formed piece behind it; `none` when the
bytes end within a character. -/
structure Utf8Error where
  validUpTo : ℕ
  errorLen : Option ℕ
  deriving DecidableEq, Repr

/-- Validation, `fuel` bounding the characters. -/
def fromUtf8 : ℕ → List UInt8 → Except Utf8Error (List Char)
  | 0, _ => .ok []
  | _, [] => .ok []
  | fuel + 1, lead :: bytes =>
      match piece lead bytes with
      | .cut => .error ⟨0, none⟩
      | .decoded false _ rest => .error ⟨0, some (bytes.length + 1 - rest.length)⟩
      | .decoded true c rest =>
          match fromUtf8 fuel rest with
          | .ok text => .ok (c :: text)
          | .error e => .error ⟨bytes.length + 1 - rest.length + e.validUpTo, e.errorLen⟩

variable {lead : UInt8} {bytes rest : List UInt8} {wellFormed : Bool} {c : Char} {fuel : ℕ}

theorem announced_le {n : ℕ} (h : announced lead = some n) : n ≤ 3 := by
  unfold announced at h
  split at h
  · cases h
    omega
  · split at h
    · cases h
      omega
    · split at h
      · cases h
        omega
      · split at h <;> cases h
        omega

theorem takeWhile_append_of_lt {p : UInt8 → Bool} {bytes more : List UInt8}
    (h : (bytes.takeWhile p).length < bytes.length) :
    (bytes ++ more).takeWhile p = bytes.takeWhile p := by
  induction bytes with
  | nil => exact absurd h (Nat.lt_irrefl 0)
  | cons b bytes ih =>
    rw [List.cons_append, List.takeWhile_cons, List.takeWhile_cons]
    split
    · rename_i hb
      rw [List.takeWhile_cons, if_pos hb] at h
      rw [ih (Nat.lt_of_succ_lt_succ h)]
    · rfl

/-- A run of continuation bytes that does not reach the end of the bytes is not prolonged. -/
theorem trailing_append {n : ℕ} {more : List UInt8}
    (h : (trailing lead n bytes).length = n ∨ (trailing lead n bytes).length < bytes.length) :
    trailing lead n (bytes ++ more) = trailing lead n bytes := by
  cases n with
  | zero => simp [trailing]
  | succ n =>
    cases bytes with
    | nil => simp [trailing] at h
    | cons b bytes =>
      simp only [List.cons_append, trailing] at h ⊢
      split at h
      · rename_i hb
        rw [if_pos hb, if_pos hb, List.take_append]
        simp only [List.length_cons, Nat.add_right_cancel_iff] at h
        have hle := (List.takeWhile_prefix (l := bytes.take n) isContinuation).length_le
        rw [List.length_take] at hle
        obtain hn | hn := Nat.lt_or_ge bytes.length n
        · rw [takeWhile_append_of_lt]
          rw [List.length_take]
          omega
        · rw [Nat.sub_eq_zero_of_le hn, List.take_zero, List.append_nil]
      · rename_i hb
        rw [if_neg hb, if_neg hb]

/-- What stands whole at the front stays when more bytes arrive. -/
theorem piece_append (h : piece lead bytes = .decoded wellFormed c rest) (more : List UInt8) :
    piece lead (bytes ++ more) = .decoded wellFormed c (rest ++ more) := by
  unfold piece at h ⊢
  split at h
  · cases h
    rfl
  · rename_i n hn
    have hle := length_trailing_le lead n bytes
    dsimp only at h ⊢
    split at h
    · rename_i hfull
      cases h
      rw [trailing_append (Or.inl hfull), if_pos hfull, List.drop_append_of_le_length (by omega)]
    · rename_i hshort
      split at h
      · cases h
      · rename_i hcut
        cases h
        rw [trailing_append (Or.inr (by omega)), if_neg hshort, if_neg,
          List.drop_append_of_le_length hle.2]
        rw [List.length_append]
        omega

theorem piece_rest (h : piece lead bytes = .decoded wellFormed c rest) :
    rest.length ≤ bytes.length ∧ lead :: bytes =
      (lead :: bytes).take (bytes.length + 1 - rest.length) ++ rest := by
  have hdrop : ∃ k, rest = bytes.drop k := by
    unfold piece at h
    split at h
    · cases h
      exact ⟨0, rfl⟩
    · dsimp only at h
      split at h
      · cases h
        exact ⟨_, rfl⟩
      · split at h
        · cases h
        · cases h
          exact ⟨_, rfl⟩
  obtain ⟨k, rfl⟩ := hdrop
  constructor
  · rw [List.length_drop]
    omega
  · obtain hk | hk := Nat.le_total k bytes.length
    · have hlen : bytes.length + 1 - (bytes.drop k).length = k + 1 := by
        rw [List.length_drop]
        omega
      rw [hlen, List.take_succ_cons, List.cons_append, List.take_append_drop]
    · rw [List.drop_eq_nil_of_le hk, List.append_nil]
      simp

/-- A well-formed character does not depend on what follows it. -/
theorem piece_wellFormed (h : piece lead bytes = .decoded true c rest) :
    ∃ front, bytes = front ++ rest ∧ ∀ more, piece lead (front ++ more) = .decoded true c more := by
  unfold piece at h
  split at h
  · cases h
  · rename_i n hn
    have hle := length_trailing_le lead n bytes
    dsimp only at h
    split at h
    · rename_i hfull
      cases h
      have htake : ∀ bytes, trailing lead n bytes = trailing lead n (bytes.take n) := by
        intro bytes
        cases n with
        | zero => rfl
        | succ n => cases bytes <;> simp [trailing, List.take_take]
      have hlen : (bytes.take n).length = n := by
        rw [List.length_take]
        omega
      refine ⟨bytes.take n, (List.take_append_drop n bytes).symm, fun more => ?_⟩
      have hfront : (bytes.take n ++ more).take n = bytes.take n := by
        rw [List.take_append_of_le_length (by omega), List.take_take, Nat.min_self]
      have htail : trailing lead n (bytes.take n ++ more) = trailing lead n bytes := by
        rw [htake, hfront, ← htake]
      unfold piece
      rw [hn]
      dsimp only
      rw [htail, if_pos hfull, List.drop_append_of_le_length (by omega), List.drop_eq_nil_of_le (by omega),
        List.nil_append]
    · split at h <;> cases h

/-- An unfinished character has at most three bytes. -/
theorem piece_cut (h : piece lead bytes = .cut) : bytes.length < 3 := by
  unfold piece at h
  split at h
  · cases h
  · rename_i n hn
    have hn3 := announced_le hn
    have hle := length_trailing_le lead n bytes
    dsimp only at h
    split at h
    · cases h
    · split at h
      · omega
      · cases h

/-- Bytes are nothing, an unfinished character, or a piece and further bytes. -/
theorem pieces_induction {P : List UInt8 → Prop} (nil : P [])
    (cut : ∀ lead bytes, piece lead bytes = .cut → P (lead :: bytes))
    (decoded : ∀ lead bytes wellFormed c rest, piece lead bytes = .decoded wellFormed c rest →
      P rest → P (lead :: bytes)) (bytes : List UInt8) : P bytes := by
  induction hn : bytes.length using Nat.strongRecOn generalizing bytes with
  | ind n ih =>
    cases bytes with
    | nil => exact nil
    | cons lead bytes =>
      cases hp : piece lead bytes with
      | cut => exact cut lead bytes hp
      | decoded wellFormed c rest =>
        have hrest := (piece_rest hp).1
        rw [List.length_cons] at hn
        exact decoded lead bytes wellFormed c rest hp (ih rest.length (by omega) rest rfl)

theorem fromUtf8_nil (fuel : ℕ) : fromUtf8 fuel [] = .ok [] := by
  cases fuel <;> rfl

theorem fromUtf8_wellFormed (h : piece lead bytes = .decoded true c rest) :
    fromUtf8 (fuel + 1) (lead :: bytes) =
      match fromUtf8 fuel rest with
      | .ok text => .ok (c :: text)
      | .error e => .error ⟨bytes.length + 1 - rest.length + e.validUpTo, e.errorLen⟩ := by
  rw [fromUtf8, h]

theorem fromUtf8_fuel (h : bytes.length ≤ fuel) :
    fromUtf8 fuel bytes = fromUtf8 bytes.length bytes := by
  induction bytes using pieces_induction generalizing fuel with
  | nil => rw [fromUtf8_nil, fromUtf8_nil]
  | cut lead bytes hp =>
    cases fuel with
    | zero => cases h
    | succ fuel => rw [List.length_cons, fromUtf8, fromUtf8, hp]
  | decoded lead bytes wellFormed c rest hp ih =>
    have hrest := (piece_rest hp).1
    cases fuel with
    | zero => cases h
    | succ fuel =>
      have hfuel := Nat.le_of_succ_le_succ h
      cases wellFormed with
      | false => rw [List.length_cons, fromUtf8, fromUtf8, hp]
      | true =>
        rw [List.length_cons, fromUtf8_wellFormed hp, fromUtf8_wellFormed hp, ih hrest,
          ih (Nat.le_trans hrest hfuel)]

section Lossy

theorem lossyChars_nil (fuel : ℕ) : lossyChars fuel [] = [] := by
  cases fuel <;> rfl

theorem lossyChars_decoded (h : piece lead bytes = .decoded wellFormed c rest) :
    lossyChars (fuel + 1) (lead :: bytes) = c :: lossyChars fuel rest := by
  unfold piece at h
  rw [lossyChars]
  cases hn : announced lead with
  | none =>
    simp only [hn] at h
    cases h
    rfl
  | some n =>
    simp only [hn] at h
    dsimp only
    split at h
    · rename_i hfull
      cases h
      rw [if_pos hfull, hfull]
    · rename_i hshort
      split at h
      · cases h
      · cases h
        rw [if_neg hshort]

theorem lossyChars_cut (h : piece lead bytes = .cut) :
    lossyChars (fuel + 1) (lead :: bytes) = [REPLACEMENT] := by
  unfold piece at h
  rw [lossyChars]
  cases hn : announced lead with
  | none =>
    simp only [hn] at h
    cases h
  | some n =>
    simp only [hn] at h
    dsimp only
    split at h
    · cases h
    · rename_i hshort
      split at h
      · rename_i hall
        rw [if_neg hshort, hall, List.drop_length, lossyChars_nil]
      · cases h

theorem lossyChars_fuel (h : bytes.length ≤ fuel) :
    lossyChars fuel bytes = lossyChars bytes.length bytes := by
  induction bytes using pieces_induction generalizing fuel with
  | nil => rw [lossyChars_nil, lossyChars_nil]
  | cut lead bytes hp =>
    cases fuel with
    | zero => cases h
    | succ fuel => rw [lossyChars_cut hp, List.length_cons, lossyChars_cut hp]
  | decoded lead bytes wellFormed c rest hp ih =>
    have hrest := (piece_rest hp).1
    cases fuel with
    | zero => cases h
    | succ fuel =>
      have hfuel := Nat.le_of_succ_le_succ h
      rw [List.length_cons, lossyChars_decoded hp, lossyChars_decoded hp, ih hrest,
        ih (Nat.le_trans hrest hfuel)]

end Lossy

end Frink.Codec
