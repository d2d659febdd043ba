import Mathlib
import Frink.Grammar.Utf8

/-! # Pieces of a text

The bytes of a text may be cut anywhere. Between two pieces the decoder stands
some bytes into a character, and its state is what these bytes say of it.
-/

namespace Frink.Gbnf

def encode (text : List Char) : List UInt8 := text.flatMap String.utf8EncodeChar

def codes (text : List Char) : List ℕ := text.map Char.toNat

/-- What the first `k` bytes of a character leave. -/
def midChar (c : Char) (k : ℕ) : PartialUtf8 :=
  ⟨c.toNat / 64 ^ (c.utf8Size - k), (c.utf8Size : ℤ) - k⟩

/-- The decoder stands `k` bytes into the first character of the text still to come. -/
inductive Stands (p : PartialUtf8) : List Char → ℕ → Prop where

  | between {text : List Char} : p.nRemain ≤ 0 → Stands p text 0

  | inside {c : Char} {text : List Char} {k : ℕ} : 0 < k → k < c.utf8Size →
      p = midChar c k → Stands p (c :: text) k

variable {c : Char} {text done : List Char} {k : ℕ} {p : PartialUtf8} {b : UInt8}
  {piece more bytes src : List UInt8} {codePoints : List ℕ} {value : ℕ} {nRemain : ℤ}

@[simp] theorem encode_nil : encode [] = [] := rfl

@[simp] theorem encode_cons (c : Char) (text : List Char) :
    encode (c :: text) = String.utf8EncodeChar c ++ encode text := rfl

@[simp] theorem encode_append (text rest : List Char) :
    encode (text ++ rest) = encode text ++ encode rest :=
  List.flatMap_append

theorem utf8Size_eq (c : Char) :
    c.utf8Size = if c.toNat ≤ 0x7f then 1 else if c.toNat ≤ 0x7ff then 2
      else if c.toNat ≤ 0xffff then 3 else 4 := by
  unfold Char.utf8Size
  simp only [UInt32.le_iff_toNat_le, Char.toNat]
  rfl

theorem toNat_lt (c : Char) : c.toNat < 0x110000 := by
  rcases c.valid with h | h
  · have hlt : c.toNat < 0xd800 := h
    omega
  · exact h.2

theorem length_utf8EncodeChar_pos (c : Char) : 0 < (String.utf8EncodeChar c).length := by
  rw [String.length_utf8EncodeChar]
  exact c.utf8Size_pos

theorem pieceLookup_eq (b : UInt8) : pieceLookup b =
    if b.toNat < 128 then 1 else if b.toNat < 192 then 0 else if b.toNat < 224 then 2
      else if b.toNat < 240 then 3 else 4 := by
  have hb := b.toNat_lt
  unfold pieceLookup
  split
  any_goals split_ifs <;> omega
  simp only [imp_false] at *
  split_ifs <;> omega

/-- The bytes of a code point as numbers. -/
def byteValues (v : ℕ) : List ℕ :=
  if v ≤ 0x7f then [v]
  else if v ≤ 0x7ff then [v / 64 + 192, v % 64 + 128]
  else if v ≤ 0xffff then [v / 4096 + 224, v / 64 % 64 + 128, v % 64 + 128]
  else [v / 262144 + 240, v / 4096 % 64 + 128, v / 64 % 64 + 128, v % 64 + 128]

theorem map_toNat_utf8EncodeChar (c : Char) :
    (String.utf8EncodeChar c).map UInt8.toNat = byteValues c.toNat := by
  have hlt := toNat_lt c
  have hv : c.val.toNat = c.toNat := rfl
  unfold String.utf8EncodeChar byteValues
  dsimp only
  rw [hv]
  generalize c.toNat = v at *
  split_ifs
  all_goals
    simp
    omega

theorem byteValues_get (h : (String.utf8EncodeChar c)[k]? = some b) :
    (byteValues c.toNat)[k]? = some b.toNat := by
  rw [← map_toNat_utf8EncodeChar, List.getElem?_map, h]
  rfl

/-- The lead byte announces the length and carries the leading bits of the code point. -/
theorem leadByte (h : (String.utf8EncodeChar c)[0]? = some b) :
    pieceLookup b = c.utf8Size ∧
      b.toNat % 2 ^ (8 - c.utf8Size) = c.toNat / 64 ^ (c.utf8Size - 1) ∧
      (b.toNat = 0 ↔ c.toNat = 0) := by
  have hb := byteValues_get h
  have hlt := toNat_lt c
  rw [utf8Size_eq, pieceLookup_eq]
  unfold byteValues at hb
  generalize c.toNat = v at *
  generalize b.toNat = n at *
  split_ifs at hb with h1 h2 h3
  · obtain rfl : v = n := by simpa using hb
    rw [if_pos h1]
    simp
    omega
  · obtain rfl : v / 64 + 192 = n := by simpa using hb
    rw [if_neg h1, if_pos h2]
    simp
    omega
  · obtain rfl : v / 4096 + 224 = n := by simpa using hb
    rw [if_neg h1, if_neg h2, if_pos h3]
    simp
    omega
  · obtain rfl : v / 262144 + 240 = n := by simpa using hb
    rw [if_neg h1, if_neg h2, if_neg h3]
    simp
    omega

/-- Every later byte is a continuation byte with six bits of the code point. -/
theorem laterByte (hk : 0 < k) (h : (String.utf8EncodeChar c)[k]? = some b) :
    b.toNat / 64 = 2 ∧ b.toNat % 64 = c.toNat / 64 ^ (c.utf8Size - (k + 1)) % 64 := by
  have hb := byteValues_get h
  have hlt := toNat_lt c
  rw [utf8Size_eq]
  unfold byteValues at hb
  generalize c.toNat = v at *
  generalize b.toNat = n at *
  split_ifs at hb with h1 h2 h3
  · match k, hk, hb with
    | k + 1, _, hb => simp at hb
  · rw [if_neg h1, if_pos h2]
    match k, hk, hb with
    | 1, _, hb => simp at hb ⊢; omega
    | k + 2, _, hb => simp at hb
  · rw [if_neg h1, if_neg h2, if_pos h3]
    match k, hk, hb with
    | 1, _, hb => simp at hb ⊢; omega
    | 2, _, hb => simp at hb ⊢; omega
    | k + 3, _, hb => simp at hb
  · rw [if_neg h1, if_neg h2, if_neg h3]
    match k, hk, hb with
    | 1, _, hb => simp at hb ⊢; omega
    | 2, _, hb => simp at hb ⊢; omega
    | 3, _, hb => simp at hb ⊢; omega
    | k + 4, _, hb => simp at hb

theorem eq_zero_of_toNat (h : b.toNat = 0) : b = 0 := UInt8.toNat_inj.mp h

theorem ne_zero_of_later (h : b.toNat / 64 = 2) : b ≠ 0 := by
  rintro rfl
  exact nomatch h

theorem utf8Size_le (c : Char) : c.utf8Size ≤ 4 := by
  rw [utf8Size_eq]
  split_ifs <;> omega

/-- The loop over one byte of a character. -/
theorem decodeLoop_byte (hb : (String.utf8EncodeChar c)[k]? = some b) (hc : c.toNat ≠ 0)
    (hp : k = 0 ∧ nRemain ≤ 0 ∨ 0 < k ∧ (⟨value, nRemain⟩ : PartialUtf8) = midChar c k)
    (codePoints : List ℕ) (src : List UInt8) :
    decodeLoop codePoints value nRemain (b :: src) =
      decodeLoop (if k + 1 = c.utf8Size then codePoints ++ [c.toNat] else codePoints)
        (midChar c (k + 1)).value (midChar c (k + 1)).nRemain src := by
  have hk : k < c.utf8Size := by
    rw [← String.length_utf8EncodeChar]
    exact (List.getElem?_eq_some_iff.mp hb).1
  have h4 := utf8Size_le c
  have hlast : k + 1 = c.utf8Size → c.toNat / 64 ^ (c.utf8Size - (k + 1)) = c.toNat := by
    intro h
    simp [h]
  simp only [decodeLoop, midChar]
  rcases hp with ⟨rfl, hn⟩ | ⟨hk0, hmid⟩
  · obtain ⟨hlook, hvalue, hzero⟩ := leadByte hb
    have hb0 : b ≠ 0 := fun h => hc (hzero.mp (by rw [h]; rfl))
    have hexp : (7 - ((c.utf8Size : ℤ) - 1)).toNat = 8 - c.utf8Size := by omega
    rw [if_neg hb0, if_neg (by omega), hlook, if_neg (by omega), hexp, hvalue]
    by_cases h : 1 = c.utf8Size
    · rw [if_pos (by omega), if_pos (by omega), ← h]
      simp
    · rw [if_neg (by omega), if_neg (by omega)]
      simp
  · obtain ⟨hcont, hbits⟩ := laterByte hk0 hb
    cases hmid
    have hsplit : c.utf8Size - k = c.utf8Size - (k + 1) + 1 := by omega
    have hvalue : c.toNat / 64 ^ (c.utf8Size - k) * 64 + b.toNat % 64 =
        c.toNat / 64 ^ (c.utf8Size - (k + 1)) := by
      rw [hbits, hsplit, pow_succ, ← Nat.div_div_eq_div_mul]
      omega
    have hrem : (c.utf8Size : ℤ) - k - 1 = c.utf8Size - ((k + 1 : ℕ) : ℤ) := by
      push_cast
      ring
    rw [if_neg (ne_zero_of_later hcont), if_pos (by omega), hvalue, hrem]
    by_cases h : k + 1 = c.utf8Size
    · rw [if_pos (by omega), if_pos h, hlast h]
    · rw [if_neg (by omega), if_neg h]

/-- The position is between two characters or within the first of the text. -/
def InText (text : List Char) (k : ℕ) : Prop :=
  k = 0 ∨ ∃ c rest, text = c :: rest ∧ k < c.utf8Size

theorem Stands.inText (h : Stands p text k) : InText text k := by
  cases h with
  | between _ => exact .inl rfl
  | inside _ hk _ => exact .inr ⟨_, _, rfl, hk⟩

theorem Stands.mid (h : Stands p text k) (hp : 0 < p.nRemain) :
    ∃ c rest, text = c :: rest ∧ 0 < k ∧ k < c.utf8Size ∧ p = midChar c k := by
  cases h with
  | between hn => omega
  | inside hk0 hk hmid => exact ⟨_, _, rfl, hk0, hk, hmid⟩

/-- The next byte of the text, and where it leaves the decoder. -/
theorem InText.next (h : InText text k) (hb : b :: more = (encode text).drop k) :
    ∃ c rest, text = c :: rest ∧ k < c.utf8Size ∧ (String.utf8EncodeChar c)[k]? = some b ∧
      more = (encode text).drop (k + 1) := by
  obtain ⟨c, rest, rfl, hk⟩ : ∃ c rest, text = c :: rest ∧ k < c.utf8Size := by
    rcases h with rfl | h
    · cases text with
      | nil => exact nomatch hb
      | cons c rest => exact ⟨c, rest, rfl, c.utf8Size_pos⟩
    · exact h
  have hget : (encode (c :: rest))[k]? = some b := by
    rw [← Nat.add_zero k, ← List.getElem?_drop, ← hb]
    rfl
  refine ⟨c, rest, rfl, hk, ?_, ?_⟩
  · rw [← hget, encode_cons, List.getElem?_append_left]
    rwa [String.length_utf8EncodeChar]
  · rw [← List.drop_drop, ← hb]
    rfl

theorem drop_size (c : Char) (text : List Char) :
    (encode (c :: text)).drop c.utf8Size = encode text := by
  rw [encode_cons, List.drop_left' (String.length_utf8EncodeChar c)]

/-- One byte moves the decoder on: over the end of a character, which it shows, or within. -/
theorem Stands.byte (hs : Stands p text k) (hb : b :: more = (encode text).drop k)
    (hnul : ∀ c ∈ text.head?, c.toNat ≠ 0) :
    ∃ done text' k' p', text = done ++ text' ∧ Stands p' text' k' ∧
      more = (encode text').drop k' ∧
      ∀ codePoints src, decodeLoop codePoints p.value p.nRemain (b :: src) =
        decodeLoop (codePoints ++ codes done) p'.value p'.nRemain src := by
  obtain ⟨c, rest, rfl, hk, hget, hmore⟩ := hs.inText.next hb
  have hmid : k = 0 ∧ p.nRemain ≤ 0 ∨ 0 < k ∧ (⟨p.value, p.nRemain⟩ : PartialUtf8) =
      midChar c k := by
    cases hs with
    | between hn => exact .inl ⟨rfl, hn⟩
    | inside hk0 _ hp => exact .inr ⟨hk0, hp⟩
  have hstep := decodeLoop_byte hget (hnul c rfl) hmid
  by_cases hlast : k + 1 = c.utf8Size
  · refine ⟨[c], rest, 0, midChar c (k + 1), rfl, .between ?_, ?_, fun codePoints src => ?_⟩
    · rw [midChar, ← hlast]
      simp
    · rw [hmore, hlast, drop_size, List.drop_zero]
    · rw [hstep, if_pos hlast]
      rfl
  · refine ⟨[], c :: rest, k + 1, midChar c (k + 1), rfl, .inside (by omega) (by omega) rfl,
      hmore, fun codePoints src => ?_⟩
    rw [hstep, if_neg hlast]
    simp [codes]

/-- The loop over a piece of the text shows the characters that the piece completes. -/
theorem decodeLoop_stands (hs : Stands p text k) (hb : piece ++ more = (encode text).drop k)
    (hnul : ∀ c ∈ text, c.toNat ≠ 0) (codePoints : List ℕ) :
    ∃ done text' k' p', text = done ++ text' ∧ Stands p' text' k' ∧
      more = (encode text').drop k' ∧
      decodeLoop codePoints p.value p.nRemain piece = (codePoints ++ codes done ++ [0], p') := by
  induction piece generalizing p text k codePoints with
  | nil => exact ⟨[], text, k, p, rfl, hs, hb, by simp [decodeLoop, codes]⟩
  | cons b piece ih =>
    have hhead : ∀ c ∈ text.head?, c.toNat ≠ 0 := fun c hc => hnul c (List.mem_of_mem_head? hc)
    obtain ⟨done, text', k', p', rfl, hs', hmore, hloop⟩ := hs.byte hb hhead
    obtain ⟨done', text'', k'', p'', rfl, hs'', hmore', hloop'⟩ := ih hs' hmore
      (fun c hc => hnul c (by simp [hc])) (codePoints ++ codes done)
    refine ⟨done ++ done', text'', k'', p'', by simp, hs'', hmore', ?_⟩
    rw [hloop, hloop']
    simp [codes]

/-- The bytes a carried sequence still expects are continuation bytes. -/
theorem Stands.expected (hs : Stands p text k) (hb : piece ++ more = (encode text).drop k) :
    ∀ b ∈ piece.take p.nRemain.toNat, b.toNat / 64 = 2 := by
  intro b hmem
  cases hs with
  | between hn => simp [Int.toNat_of_nonpos hn] at hmem
  | @inside c rest k hk0 hk hp =>
    subst hp
    have hlen : ((String.utf8EncodeChar c).drop k).length = c.utf8Size - k := by
      rw [List.length_drop, String.length_utf8EncodeChar]
    have htake : (piece ++ more).take (c.utf8Size - k) = (String.utf8EncodeChar c).drop k := by
      rw [hb, encode_cons, List.drop_append_of_le_length (by
        rw [String.length_utf8EncodeChar]; omega), ← hlen, List.take_left]
    have hrem : (midChar c k).nRemain.toNat = c.utf8Size - k := by
      simp [midChar]
    rw [hrem] at hmem
    have hmem' : b ∈ (String.utf8EncodeChar c).drop k := by
      rw [← htake, List.take_append]
      exact List.mem_append_left _ hmem
    obtain ⟨i, hi⟩ := List.mem_iff_getElem?.mp hmem'
    rw [List.getElem?_drop] at hi
    exact (laterByte (by omega) hi).1

/-- The carried sequence is continued as the loop would. -/
theorem continuePartial_loop (hsrc : ∀ b ∈ src.take nRemain.toNat, b.toNat / 64 = 2)
    (hn : 0 < nRemain) :
    ∃ value' nRemain' rest, continuePartial value nRemain src = some (value', nRemain', rest) ∧
      decodeLoop (if nRemain' = 0 then [value'] else []) value' nRemain' rest =
        decodeLoop [] value nRemain src := by
  induction src generalizing value nRemain with
  | nil => exact ⟨value, nRemain, [], rfl, by rw [if_neg (by omega)]⟩
  | cons b src ih =>
    have htake : (b :: src).take nRemain.toNat = b :: src.take (nRemain - 1).toNat := by
      rw [show nRemain.toNat = (nRemain - 1).toNat + 1 by omega, List.take_succ_cons]
    rw [htake] at hsrc
    have hcont := hsrc b (by simp)
    have hb0 := ne_zero_of_later hcont
    rw [continuePartial, if_neg (by simp [hb0, hn]), if_neg (by simpa using hcont), decodeLoop,
      if_neg hb0, if_pos hn]
    by_cases h1 : nRemain = 1
    · subst h1
      refine ⟨value * 64 + b.toNat % 64, 0, src, ?_, ?_⟩
      · cases src <;> simp [continuePartial]
      · simp
    · obtain ⟨value', nRemain', rest, hc, hloop⟩ := ih
        (fun b hb => hsrc b (List.mem_cons_of_mem _ hb)) (by omega)
      refine ⟨value', nRemain', rest, hc, ?_⟩
      simp [hloop, h1]

theorem decodePiece_eq (hsrc : ∀ b ∈ src.take p.nRemain.toNat, b.toNat / 64 = 2) :
    decodePiece src p = decodeLoop [] p.value p.nRemain src := by
  unfold decodePiece
  by_cases hn : 0 < p.nRemain
  · obtain ⟨value', nRemain', rest, hc, hloop⟩ := continuePartial_loop hsrc hn
    rw [hc]
    simpa [hn] using hloop
  · have hstop : continuePartial p.value p.nRemain src = some (p.value, p.nRemain, src) := by
      cases src with
      | nil => rfl
      | cons b src => rw [continuePartial, if_pos (.inr (by omega))]
    rw [hstop]
    simp [hn]

/-- A piece of a text shows the characters it completes and nothing else. -/
theorem decodePiece_stands (hs : Stands p text k) (hb : piece ++ more = (encode text).drop k)
    (hnul : ∀ c ∈ text, c.toNat ≠ 0) :
    ∃ done text' k' p', text = done ++ text' ∧ Stands p' text' k' ∧
      more = (encode text').drop k' ∧ decodePiece piece p = (codes done ++ [0], p') := by
  rw [decodePiece_eq (hs.expected hb)]
  obtain ⟨done, text', k', p', htext, hs', hmore, hloop⟩ := decodeLoop_stands hs hb hnul []
  exact ⟨done, text', k', p', htext, hs', hmore, by simpa using hloop⟩

end Frink.Gbnf
