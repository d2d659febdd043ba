import Frink.Decode.Text
import Frink.Grammar.Encoding
import Frink.Library.Utf8

/-! # Streaming UTF-8

However the bytes are cut into pushes, the text that comes out is that of all the bytes
decoded at once. Between two pushes only an unfinished character is held.
-/

namespace Frink.Codec

variable {lead b : UInt8} {bytes : List UInt8} {cs : List Char}

theorem announced_eq (b : UInt8) : announced b =
    if b.toNat ≤ 0x7F then some 0 else if 0xC2 ≤ b.toNat ∧ b.toNat ≤ 0xDF then some 1
      else if 0xE0 ≤ b.toNat ∧ b.toNat ≤ 0xEF then some 2
      else if 0xF0 ≤ b.toNat ∧ b.toNat ≤ 0xF4 then some 3 else none := by
  simp [announced, UInt8.le_iff_toNat_le]

theorem isContinuation_iff : isContinuation b = true ↔ 0x80 ≤ b.toNat ∧ b.toNat ≤ 0xBF := by
  simp [isContinuation, UInt8.le_iff_toNat_le]

theorem isSecond_of (hb : 0x80 ≤ b.toNat ∧ b.toNat ≤ 0xBF)
    (hE0 : lead.toNat = 0xE0 → 0xA0 ≤ b.toNat) (hED : lead.toNat = 0xED → b.toNat ≤ 0x9F)
    (hF0 : lead.toNat = 0xF0 → 0x90 ≤ b.toNat) (hF4 : lead.toNat = 0xF4 → b.toNat ≤ 0x8F) :
    isSecond lead b = true := by
  unfold isSecond
  split
  · rename_i h
    simpa [UInt8.le_iff_toNat_le] using ⟨hE0 (h ▸ rfl), hb.2⟩
  · split
    · rename_i h
      simpa [UInt8.le_iff_toNat_le] using ⟨hb.1, hED (h ▸ rfl)⟩
    · split
      · rename_i h
        simpa [UInt8.le_iff_toNat_le] using ⟨hF0 (h ▸ rfl), hb.2⟩
      · split
        · rename_i h
          simpa [UInt8.le_iff_toNat_le] using ⟨hb.1, hF4 (h ▸ rfl)⟩
        · exact isContinuation_iff.mpr hb

/-- The bytes of a character are read back as that character. -/
theorem piece_encode (c : Char) (more : List UInt8) : ∃ lead tail,
    String.utf8EncodeChar c = lead :: tail ∧ piece lead (tail ++ more) = .decoded true c more := by
  have hmap := Gbnf.map_toNat_utf8EncodeChar c
  have hvalid := c.valid
  have hv : c.val.toNat = c.toNat := rfl
  have hchar : Char.ofNat c.toNat = c := Char.ofNat_toNat c
  simp only [UInt32.isValidChar, Nat.isValidChar, hv] at hvalid
  generalize String.utf8EncodeChar c = bs at hmap ⊢
  unfold Gbnf.byteValues at hmap
  split_ifs at hmap with h1 h2 h3
  · obtain ⟨b0, tail, rfl, h0, hmap⟩ := List.map_eq_cons_iff.mp hmap
    obtain rfl := List.map_eq_nil_iff.mp hmap
    refine ⟨b0, [], rfl, ?_⟩
    unfold piece
    rw [announced_eq, if_pos (by omega)]
    simp [trailing, codePoint, h0, hchar]
  · obtain ⟨b0, tail, rfl, h0, hmap⟩ := List.map_eq_cons_iff.mp hmap
    obtain ⟨b1, tail, rfl, h1', hmap⟩ := List.map_eq_cons_iff.mp hmap
    obtain rfl := List.map_eq_nil_iff.mp hmap
    refine ⟨b0, [b1], rfl, ?_⟩
    have hsecond : isSecond b0 b1 = true := by
      apply isSecond_of <;> omega
    have hcode : codePoint b0 [b1] = c.toNat := by
      simp [codePoint, h0, h1']
      omega
    unfold piece
    rw [announced_eq, if_neg (by omega), if_pos (by omega)]
    simp [trailing, hsecond, hcode, hchar]
  · obtain ⟨b0, tail, rfl, h0, hmap⟩ := List.map_eq_cons_iff.mp hmap
    obtain ⟨b1, tail, rfl, h1', hmap⟩ := List.map_eq_cons_iff.mp hmap
    obtain ⟨b2, tail, rfl, h2', hmap⟩ := List.map_eq_cons_iff.mp hmap
    obtain rfl := List.map_eq_nil_iff.mp hmap
    refine ⟨b0, [b1, b2], rfl, ?_⟩
    have hsecond : isSecond b0 b1 = true := by
      apply isSecond_of <;> omega
    have hthird : isContinuation b2 = true := isContinuation_iff.mpr (by omega)
    have hcode : codePoint b0 [b1, b2] = c.toNat := by
      simp [codePoint, h0, h1', h2']
      omega
    unfold piece
    rw [announced_eq, if_neg (by omega), if_neg (by omega), if_pos (by omega)]
    simp [trailing, hsecond, hthird, hcode, hchar]
  · obtain ⟨b0, tail, rfl, h0, hmap⟩ := List.map_eq_cons_iff.mp hmap
    obtain ⟨b1, tail, rfl, h1', hmap⟩ := List.map_eq_cons_iff.mp hmap
    obtain ⟨b2, tail, rfl, h2', hmap⟩ := List.map_eq_cons_iff.mp hmap
    obtain ⟨b3, tail, rfl, h3', hmap⟩ := List.map_eq_cons_iff.mp hmap
    obtain rfl := List.map_eq_nil_iff.mp hmap
    refine ⟨b0, [b1, b2, b3], rfl, ?_⟩
    have hsecond : isSecond b0 b1 = true := by
      apply isSecond_of <;> omega
    have hthird : isContinuation b2 = true := isContinuation_iff.mpr (by omega)
    have hfourth : isContinuation b3 = true := isContinuation_iff.mpr (by omega)
    have hcode : codePoint b0 [b1, b2, b3] = c.toNat := by
      simp [codePoint, h0, h1', h2', h3']
      omega
    unfold piece
    rw [announced_eq, if_neg (by omega), if_neg (by omega), if_neg (by omega), if_pos (by omega)]
    simp [trailing, hsecond, hthird, hfourth, hcode, hchar]

theorem lossyChars_encode (cs : List Char) :
    lossyChars (Gbnf.encode cs).length (Gbnf.encode cs) = cs := by
  induction cs with
  | nil => rfl
  | cons c cs ih =>
    obtain ⟨lead, tail, hc, hp⟩ := piece_encode c (Gbnf.encode cs)
    rw [Gbnf.encode_cons, hc, List.cons_append, List.length_cons, lossyChars_decoded hp,
      lossyChars_fuel (by simp), ih]

theorem utf8_ofList (cs : List Char) : utf8 (String.ofList cs) = Gbnf.encode cs := by
  rw [utf8, String.toByteArray_ofList]
  induction cs with
  | nil => rfl
  | cons c cs ih =>
    rw [List.utf8Encode_cons]
    simpa [List.utf8Encode_singleton] using ih

/-- Decoding is the same walk for valid bytes. -/
theorem fromUtf8Lossy_eq (bytes : List UInt8) :
    fromUtf8Lossy bytes = String.ofList (lossyChars bytes.length bytes) := by
  unfold fromUtf8Lossy
  split
  · rename_i s hs
    have hbytes : utf8 s = bytes := by
      unfold String.fromUTF8? at hs
      split at hs
      · cases hs
        rfl
      · cases hs
    have hs' : String.ofList s.toList = s := String.ofList_toList
    rw [← hs', utf8_ofList] at hbytes
    rw [← hbytes, lossyChars_encode, hs']
  · rfl

end Frink.Codec

namespace Frink.Decode
open Codec

variable {lead : UInt8} {bytes rest : List UInt8} {wellFormed : Bool} {c : Char} {fuel : ℕ}

theorem takeWhole_nil (fuel : ℕ) : takeWhole fuel [] = ([], []) := by
  cases fuel <;> rfl

theorem takeWhole_decoded (h : piece lead bytes = .decoded wellFormed c rest) :
    takeWhole (fuel + 1) (lead :: bytes) =
      (c :: (takeWhole fuel rest).1, (takeWhole fuel rest).2) := by
  unfold piece at h
  rw [takeWhole]
  cases hn : announced lead with
  | none =>
    simp only [hn] at h
    cases h
    rfl
  | some n =>
    simp only [hn] at h
    dsimp only
    split at h
    · rename_i hfull
      cases h
      rw [if_neg (by omega), if_pos hfull, hfull]
    · rename_i hshort
      split at h
      · cases h
      · cases h
        rw [if_neg (by omega), if_neg hshort]

theorem takeWhole_cut (h : piece lead bytes = .cut) :
    takeWhole (fuel + 1) (lead :: bytes) = ([], lead :: bytes) := by
  unfold piece at h
  rw [takeWhole]
  cases hn : announced lead with
  | none =>
    simp only [hn] at h
    cases h
  | some n =>
    have hle := length_trailing_le lead n bytes
    simp only [hn] at h
    dsimp only
    split at h
    · cases h
    · split at h
      · rw [if_pos (by omega)]
      · cases h

/-- What is whole in some bytes, and what is left of them. -/
def whole (bytes : List UInt8) : Text × List UInt8 := takeWhole bytes.length bytes

theorem takeWhole_fuel (h : bytes.length ≤ fuel) : takeWhole fuel bytes = whole bytes := by
  unfold whole
  induction bytes using pieces_induction generalizing fuel with
  | nil => rw [takeWhole_nil, takeWhole_nil]
  | cut lead bytes hp =>
    cases fuel with
    | zero => cases h
    | succ fuel => rw [takeWhole_cut hp, List.length_cons, takeWhole_cut hp]
  | decoded lead bytes wellFormed c rest hp ih =>
    have hrest := (piece_rest hp).1
    cases fuel with
    | zero => cases h
    | succ fuel =>
      have hfuel := Nat.le_of_succ_le_succ h
      rw [List.length_cons, takeWhole_decoded hp, takeWhole_decoded hp, ih hrest,
        ih (Nat.le_trans hrest hfuel)]

theorem whole_decoded (h : piece lead bytes = .decoded wellFormed c rest) :
    whole (lead :: bytes) = (c :: (whole rest).1, (whole rest).2) := by
  rw [whole, List.length_cons, takeWhole_decoded h, takeWhole_fuel (piece_rest h).1]

theorem whole_cut (h : piece lead bytes = .cut) : whole (lead :: bytes) = ([], lead :: bytes) := by
  rw [whole, List.length_cons, takeWhole_cut h]

/-- What is whole stays whole, and the rest goes on with the bytes that follow. -/
theorem whole_append (bytes more : List UInt8) :
    whole (bytes ++ more) =
      ((whole bytes).1 ++ (whole ((whole bytes).2 ++ more)).1,
        (whole ((whole bytes).2 ++ more)).2) := by
  induction bytes using pieces_induction with
  | nil => rfl
  | cut lead bytes hp => rw [whole_cut hp, List.nil_append]
  | decoded lead bytes wellFormed c rest hp ih =>
    rw [whole_decoded hp, List.cons_append, whole_decoded (piece_append hp more), ih,
      List.cons_append]

/-- What is left has nothing whole in it. -/
theorem whole_left (bytes : List UInt8) : whole (whole bytes).2 = ([], (whole bytes).2) := by
  have h := whole_append bytes []
  rw [List.append_nil, List.append_nil] at h
  obtain ⟨htext, hleft⟩ := Prod.mk.inj h
  exact Prod.ext (List.self_eq_append_right.mp htext) hleft.symm

/-- One replacement stands for a character that is not finished. -/
def replaced (pending : List UInt8) : Text := if pending.isEmpty then [] else [REPLACEMENT]

theorem lossy_whole (bytes : List UInt8) :
    lossyChars bytes.length bytes = (whole bytes).1 ++ replaced (whole bytes).2 := by
  induction bytes using pieces_induction with
  | nil => rfl
  | cut lead bytes hp =>
    rw [whole_cut hp, List.length_cons, lossyChars_cut hp]
    rfl
  | decoded lead bytes wellFormed c rest hp ih =>
    rw [whole_decoded hp, List.length_cons, lossyChars_decoded hp, lossyChars_fuel (piece_rest hp).1,
      ih, List.cons_append]

theorem whole_rest (bytes : List UInt8) : (whole bytes).2.length ≤ 3 := by
  induction bytes using pieces_induction with
  | nil => exact Nat.zero_le _
  | cut lead bytes hp =>
    rw [whole_cut hp]
    exact piece_cut hp
  | decoded lead bytes wellFormed c rest hp ih =>
    rw [whole_decoded hp]
    exact ih

/-- What the validator reports agrees with the walk over the characters: the front that is valid,
and the piece behind it. -/
def Explains (bytes : List UInt8) : Except Utf8Error Text → Prop
  | .ok text => whole bytes = (text, [])
  | .error ⟨valid, errorLen⟩ => ∃ text, fromUtf8 valid (bytes.take valid) = .ok text ∧
      match errorLen with
      | none => whole bytes = (text, bytes.drop valid)
      | some bad => 0 < bad ∧ whole bytes =
          (text ++ REPLACEMENT :: (whole (bytes.drop (valid + bad))).1,
            (whole (bytes.drop (valid + bad))).2)

theorem piece_replaced (h : piece lead bytes = .decoded false c rest) : c = REPLACEMENT := by
  unfold piece at h
  split at h
  · cases h
    rfl
  · dsimp only at h
    split at h
    · cases h
    · split at h <;> cases h
      rfl

theorem explains_fromUtf8 (bytes : List UInt8) :
    Explains bytes (fromUtf8 bytes.length bytes) := by
  induction bytes using pieces_induction with
  | nil => rfl
  | cut lead bytes hp =>
    rw [List.length_cons, fromUtf8, hp]
    exact ⟨[], rfl, whole_cut hp⟩
  | decoded lead bytes wellFormed c rest hp ih =>
    have hrest := piece_rest hp
    generalize hk : bytes.length + 1 - rest.length = k at hrest
    have hdrop : ∀ n, (lead :: bytes).drop (k + n) = rest.drop n := by
      intro n
      rw [← List.drop_drop, List.append_cancel_left ((List.take_append_drop k _).trans hrest.2)]
    cases wellFormed with
    | false =>
      obtain rfl := piece_replaced hp
      rw [List.length_cons, fromUtf8, hp]
      dsimp only
      rw [hk]
      refine ⟨[], rfl, by omega, ?_⟩
      rw [Nat.zero_add, ← Nat.add_zero k, hdrop]
      exact whole_decoded hp
    | true =>
      rw [List.length_cons, fromUtf8_wellFormed hp, fromUtf8_fuel hrest.1]
      cases hr : fromUtf8 rest.length rest with
      | ok text =>
        rw [hr] at ih
        show whole (lead :: bytes) = _
        rw [whole_decoded hp, show whole rest = _ from ih]
      | error e =>
        obtain ⟨valid, errorLen⟩ := e
        rw [hr] at ih
        obtain ⟨text, hfront, hrestOf⟩ := ih
        obtain ⟨front, hbytes, hfrontPiece⟩ := piece_wellFormed hp
        have hkf : k = front.length + 1 := by
          rw [← hk, hbytes, List.length_append]
          omega
        have htake : (lead :: bytes).take (k + valid) = lead :: (front ++ rest.take valid) := by
          rw [hkf, hbytes, Nat.add_right_comm, List.take_succ_cons, List.take_length_add_append]
        refine ⟨c :: text, ?_, ?_⟩
        · have hlen : (rest.take valid).length ≤ valid := List.length_take_le _ _
          rw [hk, htake, hkf, Nat.add_right_comm, fromUtf8_wellFormed (hfrontPiece _),
            fromUtf8_fuel (Nat.le_trans hlen (Nat.le_add_left _ _)), ← fromUtf8_fuel hlen, hfront]
        · dsimp only
          rw [hk]
          cases errorLen with
          | none =>
            dsimp only at hrestOf ⊢
            rw [whole_decoded hp, hrestOf, hdrop]
          | some bad =>
            dsimp only at hrestOf ⊢
            rw [whole_decoded hp, hrestOf.2, Nat.add_assoc, hdrop]
            exact ⟨hrestOf.1, rfl⟩

namespace Utf8Stream

/-- The loop over what is pending: text up to the first error, a replacement for what is
ill-formed, and what is cut short is kept. -/
def pushLoop : ℕ → Text → List UInt8 → Text × List UInt8
  | 0, out, pending => (out, pending)
  | fuel + 1, out, pending =>
      match fromUtf8 pending.length pending with
      | .ok text => (out ++ text, [])
      | .error error =>
          let valid := error.validUpTo
          -- the source expects the front to be valid
          let out := out ++ (fromUtf8 valid (pending.take valid)).toOption.getD []
          match error.errorLen with
          | none => (out, pending.drop valid)
          | some bad => pushLoop fuel (out ++ [REPLACEMENT]) (pending.drop (valid + bad))

/-- The bytes of one token; each turn of the loop takes a byte or ends it. -/
def feed (u : Utf8Stream) (bytes : List UInt8) : Text × Utf8Stream :=
  let pending := u.pending ++ bytes
  let (text, pending) := pushLoop (pending.length + 1) [] pending
  (text, ⟨pending⟩)

/-- Tokens one after the other. -/
def feedAll (u : Utf8Stream) : List (List UInt8) → Text × Utf8Stream
  | [] => ([], u)
  | bytes :: pushes =>
      let (text, u) := u.feed bytes
      let (texts, u) := u.feedAll pushes
      (text ++ texts, u)

theorem pushLoop_eq (out : Text) (h : bytes.length < fuel) :
    pushLoop fuel out bytes = (out ++ (whole bytes).1, (whole bytes).2) := by
  induction fuel generalizing out bytes with
  | zero => exact absurd h (Nat.not_lt_zero _)
  | succ fuel ih =>
    have hexplains := explains_fromUtf8 bytes
    rw [pushLoop]
    cases hr : fromUtf8 bytes.length bytes with
    | ok text =>
      rw [hr] at hexplains
      rw [show whole bytes = (text, []) from hexplains]
    | error e =>
      obtain ⟨valid, errorLen⟩ := e
      rw [hr] at hexplains
      obtain ⟨text, hfront, hwhole⟩ := hexplains
      dsimp only
      rw [hfront]
      cases errorLen with
      | none =>
        rw [show whole bytes = _ from hwhole]
        rfl
      | some bad =>
        dsimp only at hwhole ⊢
        have hlen : (bytes.drop (valid + bad)).length < fuel := by
          rw [List.length_drop]
          cases bytes with
          | nil => cases hr
          | cons lead bytes =>
            rw [List.length_cons] at h ⊢
            omega
        rw [ih _ hlen, hwhole.2, List.append_assoc, List.append_assoc]
        rfl

variable {u : Utf8Stream}

/-- The loop over the errors takes the characters one by one. -/
theorem feed_eq_push (u : Utf8Stream) (bytes : List UInt8) : u.feed bytes = u.push bytes := by
  unfold feed push
  dsimp only
  rw [pushLoop_eq [] (Nat.lt_succ_self _)]
  rfl

theorem push_eq (u : Utf8Stream) (bytes : List UInt8) :
    u.push bytes = ((whole (u.pending ++ bytes)).1, ⟨(whole (u.pending ++ bytes)).2⟩) := rfl

theorem flush_eq (u : Utf8Stream) : u.flush = (replaced u.pending, ⟨[]⟩) := by
  obtain ⟨pending⟩ := u
  cases pending <;> rfl

/-- A stream holds nothing whole between two pushes, and goes on as if all had come at once. -/
theorem feedAll_eq (hu : whole u.pending = ([], u.pending)) (pushes : List (List UInt8)) :
    u.feedAll pushes = ((whole (u.pending ++ pushes.flatten)).1,
      ⟨(whole (u.pending ++ pushes.flatten)).2⟩) := by
  induction pushes generalizing u with
  | nil =>
    rw [List.flatten_nil, List.append_nil, hu]
    rfl
  | cons bytes pushes ih =>
    rw [feedAll, feed_eq_push, push_eq]
    dsimp only
    rw [ih (whole_left _), List.flatten_cons, ← List.append_assoc,
      whole_append (u.pending ++ bytes)]

/-- The text that streams out, with what the flush adds, is that of all the bytes, and between two
pushes at most three bytes are held. -/
theorem streamed_eq_lossy (pushes : List (List UInt8)) :
    ((({} : Utf8Stream).feedAll pushes).1 ++ (({} : Utf8Stream).feedAll pushes).2.flush.1 =
      (fromUtf8Lossy pushes.flatten).toList) ∧
    ∀ n, (({} : Utf8Stream).feedAll (pushes.take n)).2.pending.length ≤ 3 := by
  have hempty : whole ({} : Utf8Stream).pending = ([], ({} : Utf8Stream).pending) := rfl
  constructor
  · rw [feedAll_eq hempty, flush_eq, fromUtf8Lossy_eq, String.toList_ofList, lossy_whole]
    rfl
  · intro n
    rw [feedAll_eq hempty]
    exact whole_rest _

end Utf8Stream

end Frink.Decode
