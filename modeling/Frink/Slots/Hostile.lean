import Frink.KvDisk.Hostile
import Frink.Slots.RoundTrip

/-! # Slot files nobody wrote

Whatever the bytes, reading them ends in a slot or an error, except where the
header describes no positions: then its layers and rows take no bytes, and are
given room for all the same.
-/

namespace Frink.Slots

open Codec Guarded
open KvDisk (KvDtype KvBuf Bytes32 fromUtf8 safe_slice_of fromLe_slice_lt)

variable {ρ : Type} {half : HalfConversion} {sha : List UInt8 → Bytes32} {room start n : ℕ}
  {bytes header body : List UInt8} {pre : Prefix} {h : Header}

theorem safe_readLe (hlt : start + n < U64_LIMIT) (hlen : start + n ≤ bytes.length) :
    Safe (readLe n bytes start) := by
  refine (safe_addU64.mpr hlt).bind fun stop hstop => ?_
  obtain ⟨-, rfl⟩ := addU64_eq_ok.mp hstop
  exact (safe_slice_of (Nat.le_add_right _ _) hlen).bind fun _ _ => safe_ok _

theorem readLe_lt {x : ℕ} (hx : readLe n bytes start = .ok x) : x < 256 ^ n := by
  obtain ⟨stop, hstop, hx⟩ := bind_eq_ok.mp hx
  obtain ⟨-, rfl⟩ := addU64_eq_ok.mp hstop
  obtain ⟨part, hpart, hx⟩ := bind_eq_ok.mp hx
  obtain rfl := Except.ok.inj hx
  exact fromLe_slice_lt hpart (Nat.add_sub_cancel_left _ _)

theorem safe_readPrefix (bytes : List UInt8) : Safe (readPrefix bytes) := by
  unfold readPrefix
  refine (safe_ensure _).bind fun _ hlen => ?_
  have hlen : 56 ≤ bytes.length := ensure_eq_ok.mp hlen
  refine (safe_slice_of (by decide) (by omega)).bind fun _ _ => ?_
  refine (safe_ensure _).bind fun _ _ => ?_
  refine (safe_readLe (by decide) (by omega)).bind fun _ _ => ?_
  refine (safe_ensure _).bind fun _ _ => ?_
  refine (safe_readLe (by decide) (by omega)).bind fun _ _ => ?_
  refine (safe_readLe (by decide) (by omega)).bind fun _ _ => ?_
  exact (safe_ensure _).bind fun _ _ => safe_ok _

/-- A file whose prefix is read is as long as it declares. -/
theorem readPrefix_ok (hp : readPrefix bytes = .ok pre) :
    PREFIX_LEN + pre.headerLen + pre.bodyLen = bytes.length ∧ pre.headerLen < 2 ^ 32 := by
  unfold readPrefix at hp
  obtain ⟨_, hlen, hp⟩ := bind_eq_ok.mp hp
  obtain ⟨magic, -, hp⟩ := bind_eq_ok.mp hp
  obtain ⟨_, -, hp⟩ := bind_eq_ok.mp hp
  obtain ⟨version, -, hp⟩ := bind_eq_ok.mp hp
  obtain ⟨_, -, hp⟩ := bind_eq_ok.mp hp
  obtain ⟨headerLen, hh, hp⟩ := bind_eq_ok.mp hp
  obtain ⟨bodyLen, -, hp⟩ := bind_eq_ok.mp hp
  obtain ⟨_, hsum, hp⟩ := bind_eq_ok.mp hp
  obtain rfl := Except.ok.inj hp
  have hlen := ensure_eq_ok.mp hlen
  have hsum := ensure_eq_ok.mp hsum
  refine ⟨?_, readLe_lt hh⟩
  dsimp only
  omega

theorem safe_readHeader (header : List UInt8) : Safe (readHeader header) := by
  unfold readHeader
  refine (safe_ensure _).bind fun _ hlen => ?_
  have hlen : 36 ≤ header.length := ensure_eq_ok.mp hlen
  refine (safe_readLe (by decide) (by omega)).bind fun _ _ => ?_
  refine (safe_readLe (by decide) (by omega)).bind fun _ _ => ?_
  refine (safe_readLe (by decide) (by omega)).bind fun _ _ => ?_
  refine (safe_readLe (by decide) (by omega)).bind fun _ _ => ?_
  refine (safe_readLe (by decide) (by omega)).bind fun _ _ => ?_
  refine (safe_readLe (by decide) (by omega)).bind fun _ _ => ?_
  refine (safe_readLe (by decide) (by omega)).bind fun _ _ => ?_
  refine (safe_readLe (by decide) (by omega)).bind fun nameLen _ => ?_
  refine (safe_readLe (by decide) (by omega)).bind fun printLen _ => ?_
  refine (safe_orRefuse _ _).bind fun _ _ => ?_
  refine (safe_ensure _).bind fun _ _ => ?_
  refine (safe_ensure _).bind fun _ _ => ?_
  refine (safe_slice_of hlen le_rfl).bind fun strings _ => ?_
  refine (safe_orRefuse _ _).bind fun split hsplit => ?_
  refine (safe_ensure _).bind fun _ hfill => ?_
  have hname : nameLen ≤ strings.length := by
    rw [← ensure_eq_ok.mp hfill]
    rw [orRefuse_eq_ok, checkedAdd, Option.ite_none_right_eq_some] at hsplit
    obtain ⟨-, hsplit⟩ := hsplit
    rw [← Option.some.inj hsplit]
    exact Nat.le_add_right _ _
  refine (safe_slice_of (Nat.zero_le _) hname).bind fun _ _ => ?_
  refine (safe_orRefuse _ _).bind fun _ _ => ?_
  refine (safe_slice_of hname le_rfl).bind fun _ _ => ?_
  exact (safe_orRefuse _ _).bind fun _ _ => safe_ok _

/-- A header that is read has layers and rows, of fewer than 2^32 heads of fewer elements. -/
theorem readHeader_ok (hh : readHeader header = .ok h) :
    0 < h.identity.nLayers ∧ 0 < h.width ∧ h.width < U64_LIMIT := by
  unfold readHeader at hh
  obtain ⟨_, -, hh⟩ := bind_eq_ok.mp hh
  obtain ⟨nLayers, hl, hh⟩ := bind_eq_ok.mp hh
  obtain ⟨nKvHeads, hk, hh⟩ := bind_eq_ok.mp hh
  obtain ⟨headDim, hw, hh⟩ := bind_eq_ok.mp hh
  obtain ⟨tag, -, hh⟩ := bind_eq_ok.mp hh
  obtain ⟨positions, -, hh⟩ := bind_eq_ok.mp hh
  obtain ⟨nPrompt, -, hh⟩ := bind_eq_ok.mp hh
  obtain ⟨nLogits, -, hh⟩ := bind_eq_ok.mp hh
  obtain ⟨nameLen, -, hh⟩ := bind_eq_ok.mp hh
  obtain ⟨printLen, -, hh⟩ := bind_eq_ok.mp hh
  obtain ⟨dtype, -, hh⟩ := bind_eq_ok.mp hh
  obtain ⟨_, hl0, hh⟩ := bind_eq_ok.mp hh
  obtain ⟨_, hne, hh⟩ := bind_eq_ok.mp hh
  obtain ⟨strings, -, hh⟩ := bind_eq_ok.mp hh
  obtain ⟨split, -, hh⟩ := bind_eq_ok.mp hh
  obtain ⟨_, -, hh⟩ := bind_eq_ok.mp hh
  obtain ⟨name, -, hh⟩ := bind_eq_ok.mp hh
  obtain ⟨modelName, -, hh⟩ := bind_eq_ok.mp hh
  obtain ⟨rest, -, hh⟩ := bind_eq_ok.mp hh
  obtain ⟨fingerprint, -, hh⟩ := bind_eq_ok.mp hh
  obtain rfl := Except.ok.inj hh
  obtain ⟨hk0, hw0⟩ := ensure_eq_ok.mp hne
  refine ⟨Nat.pos_of_ne_zero (ensure_eq_ok.mp hl0), ?_, mul_lt_limit (readLe_lt hk) (readLe_lt hw)⟩
  exact Nat.mul_pos (Nat.pos_of_ne_zero hk0) (Nat.pos_of_ne_zero hw0)

/-- The file is as long as declared, has the digest of its bytes, and a header that is read. -/
structure Opened (sha : List UInt8 → Bytes32) (bytes : List UInt8) (h : Header)
    (body : List UInt8) : Prop where

  header : ∃ pre, readPrefix bytes = .ok pre ∧
    readHeader ((bytes.drop PREFIX_LEN).take pre.headerLen) = .ok h ∧
    body = bytes.drop (PREFIX_LEN + pre.headerLen)
  digest : (sha (bytes.drop PREFIX_LEN)).val = (bytes.drop 24).take 32

namespace Opened

theorem unique {h' : Header} {body' : List UInt8} (ho : Opened sha bytes h body)
    (ho' : Opened sha bytes h' body') : h = h' ∧ body = body' := by
  obtain ⟨pre, hpre, hread, rfl⟩ := ho.header
  obtain ⟨pre', hpre', hread', rfl⟩ := ho'.header
  obtain rfl := Except.ok.inj (hpre.symm.trans hpre')
  exact ⟨Except.ok.inj (hread.symm.trans hread'), rfl⟩

theorem body_le (ho : Opened sha bytes h body) : body.length ≤ bytes.length := by
  obtain ⟨pre, -, -, rfl⟩ := ho.header
  rw [List.length_drop]
  exact Nat.sub_le _ _

theorem shape (ho : Opened sha bytes h body) :
    0 < h.identity.nLayers ∧ 0 < h.width ∧ h.width < U64_LIMIT := by
  obtain ⟨pre, -, hread, -⟩ := ho.header
  exact readHeader_ok hread

end Opened

/-- A safe step that gives nothing refuses. -/
theorem refused_of_safe {ε α : Type} {fault : Fault ε}
    (hsafe : Safe (.error fault : Result ε α)) : ∃ e, fault = .refused e := by
  cases fault with
  | hazard hz => exact absurd rfl (hsafe hz)
  | refused e => exact ⟨e, rfl⟩

/-- Past the length check only the digest, the header and the body are left to go wrong. -/
theorem decode_sized (hpre : readPrefix bytes = .ok pre) :
    decode ρ half sha room bytes = (do
      ensure ((sha (bytes.drop PREFIX_LEN)).val = (bytes.drop 24).take 32) .digestMismatch
      let h ← readHeader ((bytes.drop PREFIX_LEN).take pre.headerLen)
      decodeBody half room (bytes.drop (PREFIX_LEN + pre.headerLen)) ρ h) := by
  obtain ⟨hlen, hh⟩ := readPrefix_ok hpre
  have hd : (slice bytes 24 PREFIX_LEN : Decoding _) = .ok ((bytes.drop 24).take 32) :=
    slice_eq_ok.mpr ⟨⟨by decide, by omega⟩, rfl⟩
  have hstop : (addU64 PREFIX_LEN pre.headerLen : Decoding ℕ) = .ok (PREFIX_LEN + pre.headerLen) :=
    addU64_eq_ok.mpr ⟨by simp only [PREFIX_LEN, U64_LIMIT]; omega, rfl⟩
  have hheader : (slice bytes PREFIX_LEN (PREFIX_LEN + pre.headerLen) : Decoding _) =
      .ok ((bytes.drop PREFIX_LEN).take pre.headerLen) :=
    slice_eq_ok.mpr ⟨⟨by omega, by omega⟩, by rw [Nat.add_sub_cancel_left]⟩
  have hbody : (slice bytes (PREFIX_LEN + pre.headerLen) bytes.length : Decoding _) =
      .ok (bytes.drop (PREFIX_LEN + pre.headerLen)) := KvDisk.slice_rest (by omega)
  have hwhole : (bytes.drop PREFIX_LEN).take pre.headerLen ++
      bytes.drop (PREFIX_LEN + pre.headerLen) = bytes.drop PREFIX_LEN := by
    rw [← List.drop_drop, List.take_append_drop]
  unfold decode
  simp only [hpre, hd, hstop, hheader, hbody, bind, Except.bind, hwhole]

/-- Past its prefix a file is read as its body, if it opens, and refused if it does not. -/
theorem decode_cases (ρ : Type) (half : HalfConversion) (sha : List UInt8 → Bytes32)
    (bytes : List UInt8) :
    (∃ h body, Opened sha bytes h body ∧
      ∀ room, decode ρ half sha room bytes = decodeBody half room body ρ h) ∨
    (∀ h body, ¬ Opened sha bytes h body) ∧
      ∃ e, ∀ room, decode ρ half sha room bytes = .error (.refused e) := by
  cases hpre : readPrefix bytes with
  | error fault =>
    obtain ⟨e, rfl⟩ := refused_of_safe (hpre ▸ safe_readPrefix bytes)
    refine Or.inr ⟨?_, e, ?_⟩
    · rintro h body ⟨⟨pre, hp, -, -⟩, -⟩
      cases hpre.symm.trans hp
    · intro room
      rw [decode, hpre]
      rfl
  | ok pre =>
    by_cases hdigest : (sha (bytes.drop PREFIX_LEN)).val = (bytes.drop 24).take 32
    · cases hread : readHeader ((bytes.drop PREFIX_LEN).take pre.headerLen) with
      | error fault =>
        obtain ⟨e, rfl⟩ := refused_of_safe (hread ▸ safe_readHeader _)
        refine Or.inr ⟨?_, e, ?_⟩
        · rintro h body ⟨⟨pre', hp, hr, -⟩, -⟩
          obtain rfl := Except.ok.inj (hpre.symm.trans hp)
          cases hread.symm.trans hr
        · intro room
          rw [decode_sized hpre, ensure_true hdigest, hread]
          rfl
      | ok h =>
        refine Or.inl ⟨h, _, ⟨⟨pre, hpre, hread, rfl⟩, hdigest⟩, ?_⟩
        intro room
        rw [decode_sized hpre, ensure_true hdigest, hread]
        rfl
    · refine Or.inr ⟨fun h body ho => hdigest ho.digest, .digestMismatch, ?_⟩
      intro room
      rw [decode_sized hpre, ensure, if_neg hdigest]
      rfl

/-- Counts that do not add up to the body are refused. -/
theorem decodeBody_refused (ρ : Type) (half : HalfConversion) (hl : 0 < h.identity.nLayers) (hw : h.width < U64_LIMIT)
    (hwords : h.words * 4 ≠ body.length) :
    ∃ e, ∀ room, decodeBody half room body ρ h = .error (.refused e) := by
  have hpos : h.perPosition body.length = .ok h.width := perPosition_ok.mpr ⟨hw, rfl⟩
  have hsafe : Safe (h.computed body.length h.width) :=
    (safe_orRefuse _ _).bind fun _ _ => safe_orRefuse _ _
  cases hc : h.computed body.length h.width with
  | error fault =>
    obtain ⟨e, rfl⟩ := refused_of_safe (hc ▸ hsafe)
    refine ⟨e, ?_⟩
    intro room
    unfold decodeBody
    simp only [hpos, hc, bind, Except.bind]
  | ok computed =>
    obtain ⟨-, rfl⟩ := (computed_iff hl).mp hc
    refine ⟨.bodyLengthDisagrees body.length "counts do not match the body", ?_⟩
    intro room
    unfold decodeBody
    simp only [hpos, hc, bind, Except.bind, ensure, if_neg hwords]

/-- The header describes no positions, and layers and rows past the room there is. -/
structure Hollow (room : ℕ) (h : Header) (body : List UInt8) : Prop where

  positions : h.positions = 0
  sized : h.words * 4 = body.length
  lacks : ¬ (h.width ≤ ISIZE_MAX / 4 ∧ h.opening ≤ room)

theorem fits_of_not_hollow (hl : 0 < h.identity.nLayers) (hw : 0 < h.width)
    (hvec : body.length ≤ ISIZE_MAX) (hroom : body.length ≤ room)
    (hwords : h.words * 4 = body.length) (hnot : ¬ Hollow room h body) : h.Fits room := by
  rcases Nat.eq_zero_or_pos h.positions with hzero | hpos
  · have hopen : h.width ≤ ISIZE_MAX / 4 ∧ h.opening ≤ room := by
      by_contra hlacks
      exact hnot ⟨hzero, hwords, hlacks⟩
    have hspan : h.span = 0 := by rw [Header.span, hzero, Nat.zero_mul]
    refine ⟨hopen.1, ?_⟩
    rw [hspan]
    exact hopen.2
  · exact fits_of_positions hl hpos hw hwords hvec hroom

/-- A body with room for itself is read safely unless it is hollow. -/
theorem safe_decodeBody (ρ : Type) (half : HalfConversion) (hl : 0 < h.identity.nLayers)
    (hw0 : 0 < h.width) (hw : h.width < U64_LIMIT) (hvec : body.length ≤ ISIZE_MAX)
    (hroom : body.length ≤ room) :
    Safe (decodeBody half room body ρ h) ↔ ¬ Hollow room h body := by
  have hlen : body.length < U64_LIMIT := Nat.lt_of_le_of_lt hvec (by decide)
  by_cases hwords : h.words * 4 = body.length
  · constructor
    · intro hsafe hollow
      exact hollow.lacks (opening_of_safe hl hw hlen hwords hsafe)
    · intro hnot
      rw [decodeBody_ok hl hw hlen hwords
        (fits_of_not_hollow hl hw0 hvec hroom hwords hnot)]
      exact safe_ok _
  · obtain ⟨e, he⟩ := decodeBody_refused ρ half hl hw hwords
    rw [he room]
    exact iff_of_true (safe_refused e) fun hollow => hwords hollow.sized

/-- What is read of a file that opens is its payload. -/
theorem decode_ok {slot : UnverifiedSlot ρ} (hvec : bytes.length ≤ ISIZE_MAX)
    (hroom : bytes.length ≤ room) (hd : decode ρ half sha room bytes = .ok slot) :
    ∃ h body, Opened sha bytes h body ∧ h.words * 4 = body.length ∧
      slot = ⟨h.identity, payloadOf ρ half body h⟩ := by
  rcases decode_cases ρ half sha bytes with ⟨h, body, ho, hdec⟩ | ⟨-, e, he⟩
  · rw [hdec] at hd
    obtain ⟨hl, hw0, hw⟩ := ho.shape
    have hle := ho.body_le
    have hlen : body.length < U64_LIMIT :=
      Nat.lt_of_le_of_lt (hle.trans hvec) (by decide)
    by_cases hwords : h.words * 4 = body.length
    · have hsafe : Safe (decodeBody half room body ρ h) := hd ▸ safe_ok slot
      have hnot := (safe_decodeBody ρ half hl hw0 hw (hle.trans hvec) (hle.trans hroom)).mp hsafe
      rw [decodeBody_ok hl hw hlen hwords (fits_of_not_hollow hl hw0 (hle.trans hvec)
        (hle.trans hroom) hwords hnot)] at hd
      exact ⟨h, body, ho, hwords, (Except.ok.inj hd).symm⟩
    · obtain ⟨e, he⟩ := decodeBody_refused ρ half hl hw hwords
      cases (he room).symm.trans hd
  · cases (he room).symm.trans hd

/-- The layers that are read hold every position that the header describes. -/
theorem resident_layerAt (hw : 0 < h.width) (start : ℕ) :
    (layerAt ρ half body h start).Resident ∧
      (layerAt ρ half body h start).positions = h.positions := by
  have hpos : (layerAt ρ half body h start).positions = h.positions := Nat.zero_add _
  obtain ⟨hk, hv⟩ := len_layerAt (layerAt ρ half body h start) start rfl
  refine ⟨⟨?_, ?_, hw, rfl, rfl⟩, hpos⟩
  · rw [hk, hpos]
    rfl
  · rw [hv, hpos]
    rfl

end Frink.Slots
