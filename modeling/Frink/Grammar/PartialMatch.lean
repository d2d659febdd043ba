import Frink.Grammar.Recognizer
import Frink.Grammar.Encoding

/-! # Matching an open character

A partial sequence leaves an interval of code points it may complete to. The
match asks which elements of the class meet the interval, whatever the sense of
the class.
-/

namespace Frink.Gbnf

open Exec

/-- The partial sequence carried past the pieces of a text. -/
def carried (pieces : List (List UInt8)) : PartialUtf8 :=
  pieces.foldl (fun p piece => (decodePiece piece p).2) .empty

/-- The bytes break off inside the character `c`. -/
def Completes (bytes : List UInt8) (c : Char) : Prop :=
  ∃ done k, 0 < k ∧ k < c.utf8Size ∧ bytes = encode done ++ (String.utf8EncodeChar c).take k

variable {c c' : Char} {text text' : List Char} {k k' n : ℕ} {p : PartialUtf8} {b : UInt8}
  {piece more : List UInt8} {pieces : List (List UInt8)} {codePoints : List ℕ}
  {rules : List GrammarRule} {pos after : RulePos} {A B : Set ℕ} {low high chr : ℕ}

section Carried

/-- The decoder stands where the text does, unless it expects no continuation. -/
def Loose (p : PartialUtf8) (text : List Char) (k : ℕ) : Prop :=
  InText text k ∧ (0 < p.nRemain → Stands p text k)

theorem inText_drop (text : List Char) (n : ℕ) :
    ∃ text' k, text' <:+ text ∧ InText text' k ∧ (encode text).drop n = (encode text').drop k := by
  induction text generalizing n with
  | nil => exact ⟨[], 0, List.suffix_rfl, .inl rfl, by simp⟩
  | cons c text ih =>
    by_cases hn : n < c.utf8Size
    · exact ⟨c :: text, n, List.suffix_rfl, .inr ⟨c, text, rfl, hn⟩, rfl⟩
    · obtain ⟨text', k, hsuf, hin, hdrop⟩ := ih (n - c.utf8Size)
      refine ⟨text', k, hsuf.trans (List.suffix_cons _ _), hin, ?_⟩
      rw [← hdrop, ← drop_size c text, List.drop_drop, Nat.add_sub_cancel' (by omega)]

/-- One byte either keeps the decoder with the text or leaves it expecting nothing. -/
theorem Loose.byte (h : Loose p text k) (hb : b :: more = (encode text).drop k) :
    (∃ text' k' p', text' <:+ text ∧ Loose p' text' k' ∧ more = (encode text').drop k' ∧
      ∀ codePoints src, ∃ codePoints', decodeLoop codePoints p.value p.nRemain (b :: src) =
        decodeLoop codePoints' p'.value p'.nRemain src) ∨
    ∀ codePoints src, (decodeLoop codePoints p.value p.nRemain (b :: src)).2.nRemain ≤ 0 := by
  obtain ⟨c, rest, rfl, hk, hget, hmore⟩ := h.1.next hb
  by_cases hstand : c.toNat ≠ 0 ∧ Stands p (c :: rest) k
  · obtain ⟨done, text', k', p', htext, hs, hmore', hloop⟩ := hstand.2.byte hb
      (by simpa using hstand.1)
    exact .inl ⟨text', k', p', ⟨done, htext.symm⟩, ⟨hs.inText, fun _ => hs⟩, hmore',
      fun codePoints src => ⟨_, hloop codePoints src⟩⟩
  · right
    have hn : p.nRemain ≤ 0 := by
      by_contra hn
      obtain ⟨c', rest', heq, hk0, hk', hp⟩ := (h.2 (by omega)).mid (by omega)
      cases heq
      refine hstand ⟨?_, h.2 (by omega)⟩
      intro hzero
      rw [utf8Size_eq, hzero] at hk'
      simp at hk'
      omega
    intro codePoints src
    rw [decodeLoop]
    by_cases hk0 : k = 0
    · subst hk0
      have hzero : c.toNat = 0 := by
        by_contra hne
        exact hstand ⟨hne, .between hn⟩
      have hb0 : b = 0 := eq_zero_of_toNat ((leadByte hget).2.2.mpr hzero)
      rw [if_pos hb0]
      exact hn
    · have hcont := (laterByte (by omega) hget).1
      have hlook : pieceLookup b = 0 := by
        rw [pieceLookup_eq, if_neg (by omega), if_pos (by omega)]
      rw [if_neg (ne_zero_of_later hcont), if_neg (by omega), hlook]
      simp

theorem decodeLoop_loose (h : Loose p text k) (hb : piece ++ more = (encode text).drop k)
    (codePoints : List ℕ) :
    ∃ text' k', text' <:+ text ∧ more = (encode text').drop k' ∧
      Loose (decodeLoop codePoints p.value p.nRemain piece).2 text' k' := by
  induction piece generalizing p text k codePoints with
  | nil => exact ⟨text, k, List.suffix_rfl, hb, h⟩
  | cons b piece ih =>
    rcases h.byte hb with ⟨text', k', p', hsuf, h', hmore, hloop⟩ | hstop
    · obtain ⟨codePoints', hstep⟩ := hloop codePoints piece
      rw [hstep]
      obtain ⟨text'', k'', hsuf', hmore', h''⟩ := ih h' hmore codePoints'
      exact ⟨text'', k'', hsuf'.trans hsuf, hmore', h''⟩
    · obtain ⟨text', k', hsuf, hin, hdrop⟩ := inText_drop text (k + (b :: piece).length)
      refine ⟨text', k', hsuf, ?_, hin, fun hpos => ?_⟩
      · rw [← hdrop, ← List.drop_drop, ← hb, List.drop_left]
      · have := hstop codePoints piece
        omega

theorem decodePiece_loose (h : Loose p text k) (hb : piece ++ more = (encode text).drop k) :
    ∃ text' k', text' <:+ text ∧ more = (encode text').drop k' ∧
      Loose (decodePiece piece p).2 text' k' := by
  have hsrc : ∀ b ∈ piece.take p.nRemain.toNat, b.toNat / 64 = 2 := by
    by_cases hn : 0 < p.nRemain
    · exact (h.2 hn).expected hb
    · rw [Int.toNat_of_nonpos (by omega)]
      simp
  rw [decodePiece_eq hsrc]
  exact decodeLoop_loose h hb []

theorem foldl_loose (h : Loose p text k) (hb : pieces.flatten ++ more = (encode text).drop k) :
    ∃ text' k', text' <:+ text ∧ more = (encode text').drop k' ∧
      Loose (pieces.foldl (fun p piece => (decodePiece piece p).2) p) text' k' := by
  induction pieces generalizing p text k with
  | nil => exact ⟨text, k, List.suffix_rfl, hb, h⟩
  | cons piece pieces ih =>
    rw [List.flatten_cons, List.append_assoc] at hb
    obtain ⟨text', k', hsuf, hmore, h'⟩ := decodePiece_loose h hb
    obtain ⟨text'', k'', hsuf', hmore', h''⟩ := ih h' hmore
    exact ⟨text'', k'', hsuf'.trans hsuf, hmore', h''⟩

/-- A sequence left open by a prefix of a text is what the prefix says of a character of it. -/
theorem carried_open (hp : 0 < (carried pieces).nRemain)
    (hb : pieces.flatten ++ more = encode text) :
    ∃ done c rest k, text = done ++ c :: rest ∧ 0 < k ∧ k < c.utf8Size ∧
      carried pieces = midChar c k ∧ more = (encode (c :: rest)).drop k := by
  have h0 : Loose .empty text 0 := ⟨.inl rfl, fun h => absurd h (by decide)⟩
  obtain ⟨text', k, ⟨done, rfl⟩, hmore, _, h⟩ := foldl_loose h0 hb
  obtain ⟨c, rest, rfl, hk0, hk, hmid⟩ := (h hp).mid hp
  exact ⟨done, c, rest, k, rfl, hk0, hk, hmid, hmore⟩

theorem Completes.mid (hp : 0 < (carried pieces).nRemain) (h : Completes pieces.flatten c) :
    ∃ k, 0 < k ∧ k < c.utf8Size ∧ carried pieces = midChar c k := by
  obtain ⟨done, k, hk0, hk, hbytes⟩ := h
  have htext : pieces.flatten ++ (String.utf8EncodeChar c).drop k = encode (done ++ [c]) := by
    rw [hbytes, List.append_assoc, List.take_append_drop]
    simp
  obtain ⟨done', c', rest, k', heq, hk0', hk', hmid, hmore⟩ := carried_open hp htext
  have hlen := congrArg List.length hmore
  rw [encode_cons, List.length_drop, List.length_drop, List.length_append,
    String.length_utf8EncodeChar, String.length_utf8EncodeChar] at hlen
  rcases List.eq_nil_or_concat' rest with rfl | ⟨L, d, rfl⟩
  · obtain ⟨-, hc⟩ := List.append_inj' heq rfl
    cases hc
    exact ⟨k', hk0', hk', hmid⟩
  · rw [← List.cons_append, ← List.append_assoc] at heq
    obtain ⟨-, hc⟩ := List.append_inj' heq rfl
    cases hc
    rw [encode_append, encode_cons, encode_nil, List.append_nil, List.length_append,
      String.length_utf8EncodeChar] at hlen
    omega

end Carried

section Interval

/-- The code point lies in the interval of the partial sequence. -/
def Spans (p : PartialUtf8) (c : Char) : Prop :=
  (partialRange p).1 ≤ c.toNat ∧ c.toNat ≤ (partialRange p).2

theorem utf8Size_cases (c : Char) :
    c.utf8Size = 1 ∧ c.toNat ≤ 0x7f ∨ c.utf8Size = 2 ∧ 0x7f < c.toNat ∧ c.toNat ≤ 0x7ff ∨
      c.utf8Size = 3 ∧ 0x7ff < c.toNat ∧ c.toNat ≤ 0xffff ∨
      c.utf8Size = 4 ∧ 0xffff < c.toNat ∧ c.toNat < 0x110000 := by
  have hlt := toNat_lt c
  have hsize := utf8Size_eq c
  split_ifs at hsize <;> omega

theorem partialRange_one (value : ℕ) :
    partialRange ⟨value, 1⟩ = (value * 64, value * 64 + 63) := by
  simp [partialRange]

theorem partialRange_two (value : ℕ) : partialRange ⟨value, 2⟩ =
    (if value = 0 then 2048 else value * 4096, value * 4096 + 4095) := by
  by_cases h : value = 0 <;> simp [partialRange, h]

theorem partialRange_three (value : ℕ) : partialRange ⟨value, 3⟩ =
    (if value = 0 then 65536 else value * 262144, value * 262144 + 262143) := by
  by_cases h : value = 0 <;> simp [partialRange, h]

/-- The places inside a character: how many bytes it has and how many have come. -/
theorem inside_cases (hk0 : 0 < k) (hk : k < c.utf8Size) :
    c.utf8Size = 2 ∧ k = 1 ∨ c.utf8Size = 3 ∧ k = 1 ∨ c.utf8Size = 3 ∧ k = 2 ∨
      c.utf8Size = 4 ∧ k = 1 ∨ c.utf8Size = 4 ∧ k = 2 ∨ c.utf8Size = 4 ∧ k = 3 := by
  have := utf8Size_le c
  omega

/-- The interval holds the code points of the same length with the same leading bits. -/
theorem spans_midChar_iff (hk0 : 0 < k) (hk : k < c.utf8Size) :
    Spans (midChar c k) c' ↔ c'.utf8Size = c.utf8Size ∧
      c'.toNat / 64 ^ (c.utf8Size - k) = c.toNat / 64 ^ (c.utf8Size - k) := by
  have hc := utf8Size_cases c
  have hc' := utf8Size_cases c'
  unfold Spans midChar
  generalize c.toNat = v at *
  generalize c'.toNat = v' at *
  rcases inside_cases hk0 hk with h | h | h | h | h | h <;> obtain ⟨hs, rfl⟩ := h <;>
    rw [hs] at hc ⊢ <;> norm_num
  · rw [partialRange_one]
    omega
  · rw [partialRange_two]
    dsimp only
    split_ifs <;> omega
  · rw [partialRange_one]
    omega
  · rw [partialRange_three]
    dsimp only
    split_ifs <;> omega
  · rw [partialRange_two]
    dsimp only
    split_ifs <;> omega
  · rw [partialRange_one]
    omega

theorem byteValues_two {v : ℕ} (h : 0x7f < v) (h' : v ≤ 0x7ff) :
    byteValues v = [v / 64 + 192, v % 64 + 128] := by
  rw [byteValues, if_neg (by omega), if_pos h']

theorem byteValues_three {v : ℕ} (h : 0x7ff < v) (h' : v ≤ 0xffff) :
    byteValues v = [v / 4096 + 224, v / 64 % 64 + 128, v % 64 + 128] := by
  rw [byteValues, if_neg (by omega), if_neg (by omega), if_pos h']

theorem byteValues_four {v : ℕ} (h : 0xffff < v) :
    byteValues v =
      [v / 262144 + 240, v / 4096 % 64 + 128, v / 64 % 64 + 128, v % 64 + 128] := by
  rw [byteValues, if_neg (by omega), if_neg (by omega), if_neg (by omega)]

/-- The leading bits settle the leading bytes. -/
theorem take_utf8EncodeChar (hk0 : 0 < k) (hk : k < c.utf8Size)
    (hsize : c'.utf8Size = c.utf8Size)
    (hbits : c'.toNat / 64 ^ (c.utf8Size - k) = c.toNat / 64 ^ (c.utf8Size - k)) :
    (String.utf8EncodeChar c').take k = (String.utf8EncodeChar c).take k := by
  apply List.map_injective_iff.mpr (fun _ _ h => UInt8.toNat_inj.mp h)
  rw [List.map_take, List.map_take, map_toNat_utf8EncodeChar, map_toNat_utf8EncodeChar]
  have hc := utf8Size_cases c
  have hc' := utf8Size_cases c'
  rw [hsize] at hc'
  have h4 := utf8Size_le c
  generalize c.toNat = v at *
  generalize c'.toNat = v' at *
  obtain hs | hs | hs : c.utf8Size = 2 ∨ c.utf8Size = 3 ∨ c.utf8Size = 4 := by omega
  · rw [byteValues_two (by omega) (by omega), byteValues_two (by omega) (by omega)]
    obtain rfl : k = 1 := by omega
    rw [hs] at hbits
    simp at hbits ⊢
    omega
  · rw [byteValues_three (by omega) (by omega), byteValues_three (by omega) (by omega)]
    obtain rfl | rfl : k = 1 ∨ k = 2 := by omega
    all_goals
      rw [hs] at hbits
      simp at hbits ⊢
      omega
  · rw [byteValues_four (by omega), byteValues_four (by omega)]
    obtain rfl | rfl | rfl : k = 1 ∨ k = 2 ∨ k = 3 := by omega
    all_goals
      rw [hs] at hbits
      simp at hbits ⊢
      omega

/-- The completions of an open prefix of a text are the characters of its interval. -/
theorem completes_iff_spans (hp : 0 < (carried pieces).nRemain)
    (hb : pieces.flatten <+: encode text) :
    Completes pieces.flatten c' ↔ Spans (carried pieces) c' := by
  constructor
  · intro h
    obtain ⟨k, hk0, hk, hmid⟩ := h.mid hp
    rw [hmid, spans_midChar_iff hk0 hk]
    exact ⟨rfl, rfl⟩
  · intro h
    obtain ⟨more, hmore⟩ := hb
    obtain ⟨done, c, rest, k, rfl, hk0, hk, hmid, rfl⟩ := carried_open hp hmore
    rw [hmid, spans_midChar_iff hk0 hk] at h
    refine ⟨done, k, hk0, h.1 ▸ hk, ?_⟩
    have hlen : k ≤ (String.utf8EncodeChar c).length := by
      rw [String.length_utf8EncodeChar]
      omega
    suffices heq : pieces.flatten ++ (encode (c :: rest)).drop k =
        encode done ++ (String.utf8EncodeChar c').take k ++ (encode (c :: rest)).drop k from
      List.append_cancel_right heq
    rw [take_utf8EncodeChar hk0 hk h.1 h.2, hmore, encode_append, encode_cons,
      List.drop_append_of_le_length hlen, List.append_assoc,
      ← List.append_assoc ((String.utf8EncodeChar c).take k), List.take_append_drop]

end Interval

section Class

/-- Some element of the class meets the interval. -/
inductive Meets (rules : List GrammarRule) (low high : ℕ) : RulePos → Prop where

  | range {pos : RulePos} : (elem rules pos.next).gtype = .charRngUpper →
      (elem rules pos).value ≤ high → low ≤ (elem rules pos.next).value →
      Meets rules low high pos

  | any {pos : RulePos} : (elem rules pos.next).gtype ≠ .charRngUpper →
      (elem rules pos).gtype = .charAny → Meets rules low high pos

  | single {pos : RulePos} : (elem rules pos.next).gtype ≠ .charRngUpper →
      low ≤ (elem rules pos).value → (elem rules pos).value ≤ high → Meets rules low high pos

  | later {pos mid : RulePos} {A : Set ℕ} : ClassItem rules pos A mid →
      (elem rules mid).gtype = .charAlt → Meets rules low high mid → Meets rules low high pos

theorem ClassItem.meets (h : ClassItem rules pos A after) (hmem : chr ∈ A) (hlow : low ≤ chr)
    (hhigh : chr ≤ high) : Meets rules low high pos := by
  cases h with
  | range hn => exact .range hn (hmem.1.trans hhigh) (hlow.trans hmem.2)
  | any hn ha => exact .any hn ha
  | single hn _ =>
    rw [Set.mem_singleton_iff] at hmem
    exact .single hn (hmem ▸ hlow) (hmem ▸ hhigh)

theorem ClassGroup.meets (h : ClassGroup rules pos A after) (hmem : chr ∈ A) (hlow : low ≤ chr)
    (hhigh : chr ≤ high) : Meets rules low high pos := by
  induction h with
  | last hi _ => exact hi.meets hmem hlow hhigh
  | more hi halt _ ih =>
    rcases hmem with hmem | hmem
    · exact hi.meets hmem hlow hhigh
    · exact .later hi halt (ih hmem)

/-- The walk over the class answers with its sense as soon as an element meets the interval. -/
theorem partialLoop_iff {positive : Bool} (hn : 0 < n)
    (hlen : (ruleAt rules pos.rule).length + 1 ≤ pos.index + n)
    (hany : (elem rules pos).gtype = .charAny → positive = true) :
    matchPartialChar.partialLoop rules low high positive n pos = true ↔
      (Meets rules low high pos ↔ positive = true) := by
  induction n generalizing pos with
  | zero => omega
  | succ n ih =>
    have hstep : ∀ {mid : RulePos} {A : Set ℕ}, ClassItem rules pos A mid →
        (Meets rules low high pos → (elem rules mid).gtype = .charAlt ∧ Meets rules low high mid) →
        ((if (elem rules mid).gtype ≠ .charAlt then !positive else
          matchPartialChar.partialLoop rules low high positive n mid) = true ↔
          (Meets rules low high pos ↔ positive = true)) := by
      intro mid A hi hlater
      by_cases halt : (elem rules mid).gtype = .charAlt
      · have hiff : Meets rules low high pos ↔ Meets rules low high mid :=
          ⟨fun h => (hlater h).2, .later hi halt⟩
        obtain ⟨hrule, hindex⟩ := hi.index_lt
        have hin := (elem_of_lt_length (show (elem rules mid).gtype ≠ .ruleEnd by
          rw [halt]; decide)).2
        have hin' : mid.index < (ruleAt rules pos.rule).length := hrule ▸ hin
        rw [if_neg (by simpa using halt), hiff]
        refine ih (by omega) (by rw [hrule]; omega) fun h => ?_
        rw [halt] at h
        exact nomatch h
      · have hno : ¬ Meets rules low high pos := fun h => halt (hlater h).1
        rw [if_pos halt]
        cases positive <;> simp [hno]
    rw [matchPartialChar.partialLoop]
    by_cases hr : (elem rules pos.next).gtype = .charRngUpper
    · rw [if_pos hr]
      by_cases hhit : (elem rules pos).value ≤ high ∧ low ≤ (elem rules pos.next).value
      · have hm : Meets rules low high pos := .range hr hhit.1 hhit.2
        rw [if_pos hhit]
        simp [hm]
      · rw [if_neg hhit]
        refine hstep (.range hr) fun h => ?_
        cases h with
        | range _ h1 h2 => exact (hhit ⟨h1, h2⟩).elim
        | any hn' _ => exact (hn' hr).elim
        | single hn' _ _ => exact (hn' hr).elim
        | later hi halt h =>
          obtain ⟨-, rfl⟩ := hi.unique (.range hr)
          exact ⟨halt, h⟩
    · rw [if_neg hr]
      by_cases ha : (elem rules pos).gtype = .charAny
      · have hm : Meets rules low high pos := .any hr ha
        rw [if_pos ha]
        simp [hm, hany ha]
      · rw [if_neg ha]
        by_cases hhit : low ≤ (elem rules pos).value ∧ (elem rules pos).value ≤ high
        · have hm : Meets rules low high pos := .single hr hhit.1 hhit.2
          rw [if_pos hhit]
          simp [hm]
        · rw [if_neg hhit]
          refine hstep (.single hr ha) fun h => ?_
          cases h with
          | range hr' _ _ => exact (hr hr').elim
          | any _ ha' => exact (ha ha').elim
          | single _ h1 h2 => exact (hhit ⟨h1, h2⟩).elim
          | later hi halt h =>
            obtain ⟨-, rfl⟩ := hi.unique (.single hr ha)
            exact ⟨halt, h⟩

/-- The verdict on a partial sequence that a text can leave open. -/
theorem matchPartialChar_verdict (hc : (elem rules pos).gtype.isClass = true) (hk0 : 0 < k)
    (hk : k < c.utf8Size) :
    matchPartialChar rules pos (midChar c k) = .ok true ↔
      (Meets rules (partialRange (midChar c k)).1 (partialRange (midChar c k)).2 pos ↔
        isPositiveChar (elem rules pos).gtype = true) := by
  have hclass : ¬ (!isPositiveChar (elem rules pos).gtype &&
      (elem rules pos).gtype != .charNot) = true := by
    revert hc
    generalize (elem rules pos).gtype = t
    cases t <;> simp [GreType.isClass, isPositiveChar]
  have hlegal : ¬ ((midChar c k).nRemain < 0 ∨
      (midChar c k).nRemain = 1 ∧ (midChar c k).value < 2) := by
    have hcases := utf8Size_cases c
    unfold midChar
    dsimp only
    generalize c.toNat = v at *
    rcases inside_cases hk0 hk with h | h | h | h | h | h <;> obtain ⟨hs, rfl⟩ := h <;>
      rw [hs] at hcases ⊢ <;> norm_num
    all_goals omega
  have hshort : ¬ 3 < (midChar c k).nRemain := by
    have := utf8Size_le c
    simp only [midChar]
    omega
  unfold matchPartialChar
  dsimp only
  rw [if_neg hclass, if_neg hlegal, if_neg hshort, Except.ok.injEq]
  refine partialLoop_iff (by simp [ruleLength]) (by simp [ruleLength, ruleAt]) fun h => ?_
  rw [h]
  rfl

/-- The sense of the class never decides against the elements: where one meets the interval, a
class without negation admits some character of it and a negated one excludes all of them. -/
def SenseKept (rules : List GrammarRule) (pos : RulePos) (p : PartialUtf8) : Prop :=
  Meets rules (partialRange p).1 (partialRange p).2 pos →
    ∃ B after, ClassGroup rules pos B after ∧
      if isPositiveChar (elem rules pos).gtype = true then ∃ c : Char, Spans p c ∧ c.toNat ∈ B
      else ∀ c : Char, Spans p c → c.toNat ∈ B

/-- The partial match is exact unless an element meets the interval in no character, or in some
only while the class is negated. -/
theorem partial_match_exact_iff (hc : (elem rules pos).gtype.isClass = true)
    (hb : pieces.flatten <+: encode text) (hp : 0 < (carried pieces).nRemain) :
    (matchPartialChar rules pos (carried pieces) = .ok true ↔
        ∃ c after, Completes pieces.flatten c ∧
          matchChar rules pos c.toNat = .ok (true, after)) ↔
      SenseKept rules pos (carried pieces) := by
  obtain ⟨more, hmore⟩ := id hb
  obtain ⟨_, c₀, _, k, _, hk0, hk, hmid, _⟩ := carried_open hp hmore
  have hspan : Spans (carried pieces) c₀ := by
    rw [hmid, spans_midChar_iff hk0 hk]
    exact ⟨rfl, rfl⟩
  have hverdict : matchPartialChar rules pos (midChar c₀ k) = .ok true ↔ _ :=
    matchPartialChar_verdict hc hk0 hk
  rw [← hmid] at hverdict
  simp only [completes_iff_spans hp hb]
  rw [hverdict]
  obtain ⟨A, _, after, hA, _, _⟩ := matchChar_of_isClass hc 0
  have hmatch : ∀ chr, (∃ after, matchChar rules pos chr = .ok (true, after)) ↔ chr ∈ A := by
    intro chr
    simp only [matchChar_ok_iff, true_iff]
    constructor
    · rintro ⟨_, A', hA', hmem⟩
      rwa [(hA.unique hA').1]
    · exact fun hmem => ⟨after, A, hA, hmem⟩
  have hright : (∃ c after, Spans (carried pieces) c ∧
      matchChar rules pos c.toNat = .ok (true, after)) ↔
        ∃ c : Char, Spans (carried pieces) c ∧ c.toNat ∈ A := by
    simp only [← hmatch, exists_and_left]
  rw [hright]
  unfold SenseKept
  rcases hA with ⟨hpos, hg⟩ | ⟨hnot, B, hg, rfl⟩
  · have hback : (∃ c : Char, Spans (carried pieces) c ∧ c.toNat ∈ A) →
        Meets rules (partialRange (carried pieces)).1 (partialRange (carried pieces)).2 pos := by
      rintro ⟨c, ⟨hlow, hhigh⟩, hmem⟩
      exact hg.meets hmem hlow hhigh
    simp only [hpos, iff_true, if_true]
    constructor
    · exact fun h hm => ⟨A, after, hg, h.mp hm⟩
    · refine fun h => ⟨fun hm => ?_, hback⟩
      obtain ⟨A', _, hg', hex⟩ := h hm
      rwa [(hg.unique hg').1]
  · have hneg : isPositiveChar (elem rules pos).gtype = false := by rw [hnot]; rfl
    have hmiss : ¬ Meets rules (partialRange (carried pieces)).1
        (partialRange (carried pieces)).2 pos → c₀.toNat ∈ Bᶜ :=
      fun hno hmem => hno (hg.meets hmem hspan.1 hspan.2)
    simp only [hneg, Bool.false_eq_true, iff_false, if_false]
    constructor
    · intro h hm
      refine ⟨B, after, hg, fun c hs => ?_⟩
      by_contra hmem
      exact h.mpr ⟨c, hs, hmem⟩ hm
    · intro h
      constructor
      · exact fun hno => ⟨c₀, hspan, hmiss hno⟩
      · rintro ⟨c, hs, hmem⟩ hm
        obtain ⟨B', _, hg', hall⟩ := h hm
        rw [← (hg.unique hg').1] at hall
        exact hmem (hall c hs)

/-- `root ::= [^é]` -/
def accentTable : List GrammarRule := [[⟨.charNot, 0xe9⟩, ⟨.ruleEnd, 0⟩]]

/-- No completion of the first two bytes of "€", cut apart, is what `[^é]` excludes. -/
theorem partial_match_exact_euro :
    matchPartialChar accentTable ⟨0, 0⟩ (carried [[0xe2], [0x82]]) = .ok true ↔
      ∃ c after, Completes [[0xe2], [0x82]].flatten c ∧
        matchChar accentTable ⟨0, 0⟩ c.toNat = .ok (true, after) := by
  have hmeets : ¬ Meets accentTable 0x2080 0x20bf ⟨0, 0⟩ := by
    intro h
    cases h with
    | range hr _ _ => exact nomatch hr
    | any _ ha => exact nomatch ha
    | single _ hlow _ => exact absurd hlow (by decide)
    | later hi halt _ =>
      have hsingle : ClassItem accentTable ⟨0, 0⟩ {0xe9} ⟨0, 1⟩ := .single (by decide) (by decide)
      rw [(hi.unique hsingle).2] at halt
      exact nomatch halt
  have hb : [[0xe2], [0x82]].flatten <+: encode ['€'] := ⟨[0xac], by decide⟩
  exact (partial_match_exact_iff (by decide) hb (by decide)).mpr fun h => (hmeets h).elim

/-- The lead byte that "é" shares with "è" is refused under `[^é]`, which admits "è". -/
theorem partial_match_inexact :
    WellFormed accentTable ∧ Returns (Grammar.fromRules accentTable 0 fun _ => none)
        (.ok ⟨accentTable, [[⟨0, 0⟩]], .empty, none⟩) ∧
      [[0xc3]].flatten <+: encode ['é'] ∧ carried [[0xc3]] = ⟨3, 1⟩ ∧
      matchPartialChar accentTable ⟨0, 0⟩ (carried [[0xc3]]) = .ok false ∧
      Completes [[0xc3]].flatten 'è' ∧
      matchChar accentTable ⟨0, 0⟩ 'è'.toNat = .ok (true, ⟨0, 1⟩) := by
  have hcut : Completes [[0xc3]].flatten 'è' := ⟨[], 1, by decide, by decide, by decide⟩
  exact ⟨by decide, ⟨3, rfl⟩, ⟨[0xa9], by decide⟩, by decide, by decide, hcut, by decide⟩

end Class

end Frink.Gbnf
