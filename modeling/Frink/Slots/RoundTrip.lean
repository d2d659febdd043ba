import Frink.Slots.Reading

/-! # What a slot file gives back

Header and body are written as lists of 32-bit numbers, and the reader's words
are those numbers. So a file is read as the identity and the payload that it was
written from, and passes for that identity alone.
-/

namespace Frink.Slots

open Codec Guarded
open KvDisk (KvDtype KvBuf Bytes32 fromUtf8 fromUtf8_utf8 length_flatMap_leBytes)

variable {ρ : Type} {half : HalfConversion}

section Compare

theorem name_eq_name {a b : KvDtype} : a.name = b.name ↔ a = b := by
  cases a <;> cases b <;> decide

theorem comparePairs_ok {pairs : List (String × String × String)} :
    SlotIdentity.comparePairs pairs = .ok () ↔ ∀ p ∈ pairs, p.2.1 = p.2.2 := by
  induction pairs with
  | nil => simp [SlotIdentity.comparePairs]
  | cons p pairs ih =>
    obtain ⟨field, saved, serving⟩ := p
    rw [List.forall_mem_cons, SlotIdentity.comparePairs]
    split
    · rename_i hne
      exact iff_of_false nofun fun h => hne h.1
    · rename_i heq
      rw [not_not] at heq
      rw [ih]
      exact ⟨fun h => ⟨heq, h⟩, fun h => h.2⟩

/-- Only equal identities compare. -/
theorem compare_ok {a b : SlotIdentity} : a.compare b = .ok () ↔ a = b := by
  rw [SlotIdentity.compare, comparePairs_ok, SlotIdentity.ext_iff]
  simp [SlotIdentity.pairs, name_eq_name]

theorem verify_self (slot : UnverifiedSlot ρ) : slot.verify slot.identity = .ok slot.payload := by
  rw [UnverifiedSlot.verify, compare_ok.mpr rfl]
  rfl

theorem verify_ok {slot : UnverifiedSlot ρ} {serving : SlotIdentity} {payload : SlotPayload ρ}
    (h : slot.verify serving = .ok payload) : slot.identity = serving ∧ slot.payload = payload := by
  obtain ⟨⟨⟩, hcompare, h⟩ := bind_eq_ok.mp h
  exact ⟨compare_ok.mp hcompare, Except.ok.inj h⟩

theorem verify_other {slot : UnverifiedSlot ρ} {serving : SlotIdentity}
    (h : serving ≠ slot.identity) : ∃ e, slot.verify serving = .error e := by
  cases hv : slot.verify serving with
  | error e => exact ⟨e, rfl⟩
  | ok payload => exact absurd (verify_ok hv).1.symm h

end Compare

section Words

variable {numbers part : List ℕ} {rest : List UInt8} {i x : ℕ}

theorem word_numbers (hx : numbers[i]? = some x) (hlt : x < 2 ^ 32) :
    word (numbers.flatMap (leBytes 4) ++ rest) i = x := by
  obtain ⟨hi, rfl⟩ := List.getElem?_eq_some_iff.mp hx
  have hsplit : numbers.flatMap (leBytes 4) ++ rest = (numbers.take i).flatMap (leBytes 4) ++
      (leBytes 4 numbers[i] ++ ((numbers.drop (i + 1)).flatMap (leBytes 4) ++ rest)) := by
    conv_lhs => rw [← List.take_append_drop i numbers, List.drop_eq_getElem_cons hi,
      List.flatMap_append, List.flatMap_cons]
    rw [List.append_assoc, List.append_assoc]
  have hbefore : ((numbers.take i).flatMap (leBytes 4)).length = i * 4 := by
    rw [length_flatMap_leBytes, List.length_take, Nat.min_eq_left hi.le]
  rw [word, hsplit, List.drop_left' hbefore, List.take_left' (length_leBytes 4 _), fromLe_leBytes]
  exact Nat.mod_eq_of_lt hlt

/-- A run of the numbers is read back by its place. -/
theorem map_word_range' (before after : List ℕ) (hlt : ∀ x ∈ part, x < 2 ^ 32) :
    (List.range' before.length part.length).map
      (word ((before ++ (part ++ after)).flatMap (leBytes 4))) = part := by
  apply List.ext_getElem
  · simp
  · intro k hk hk'
    rw [List.getElem_map, List.getElem_range', Nat.one_mul,
      ← List.append_nil (List.flatMap _ _)]
    apply word_numbers
    · rw [List.getElem?_append_right (Nat.le_add_right _ _), Nat.add_sub_cancel_left,
        List.getElem?_append_left hk', List.getElem?_eq_getElem hk']
    · exact hlt _ (List.getElem_mem hk')

theorem wordsAt_part (before after : List ℕ) {bits : List (BitVec 32)} {body : List UInt8} {start n : ℕ}
    (hbody : body = (before ++ (bits.map BitVec.toNat ++ after)).flatMap (leBytes 4))
    (hstart : start = before.length) (hn : n = bits.length) : wordsAt body start n = bits := by
  have hlt : ∀ x ∈ bits.map BitVec.toNat, x < 2 ^ 32 := by
    simpa using fun (x : BitVec 32) _ => x.isLt
  have hread := map_word_range' before after hlt
  rw [← hbody, List.length_map, ← hstart, ← hn] at hread
  have hof : wordsAt body start n = ((List.range' start n).map (word body)).map (BitVec.ofNat 32) := by
    rw [List.map_map]
    rfl
  rw [hof, hread, List.map_map]
  simp [Function.comp_def]

end Words

section Encode

variable {sha : List UInt8 → Bytes32} {identity : SlotIdentity} {payload : SlotPayload ρ}
  {positions : ℕ} {bytes : List UInt8} {room : ℕ}

/-- The identity's shape is the payload's, and every layer holds the same positions. -/
structure Describes (identity : SlotIdentity) (payload : SlotPayload ρ) (positions : ℕ) :
    Prop where

  nLayers : identity.nLayers = payload.layers.length
  nKvHeads : ∀ l ∈ payload.layers, l.nKvHeads = identity.nKvHeads
  headDim : ∀ l ∈ payload.layers, l.headDim = identity.headDim
  positions_eq : ∀ l ∈ payload.layers, l.positions = positions
  k_len : ∀ l ∈ payload.layers, l.k.len = positions * l.kWidth
  v_len : ∀ l ∈ payload.layers, l.v.len = positions * l.vWidth

/-- Counts, dimensions, token ids and string lengths are below 2^32. -/
structure Fits32 (identity : SlotIdentity) (payload : SlotPayload ρ) (positions : ℕ) : Prop where

  nLayers : identity.nLayers < 2 ^ 32
  nKvHeads : identity.nKvHeads < 2 ^ 32
  headDim : identity.headDim < 2 ^ 32
  positions : positions < 2 ^ 32
  nPrompt : payload.tokens.length < 2 ^ 32
  nLogits : payload.pendingLogits.length < 2 ^ 32
  name : (utf8 identity.modelName).length < 2 ^ 32
  fingerprint : (utf8 identity.fingerprint).length < 2 ^ 32
  tokens : ∀ token ∈ payload.tokens, token < 2 ^ 32

/-- What encode's assertions leave. -/
theorem encode_ok (h : encode half sha identity payload = .ok bytes) :
    ∃ first rest, payload.layers = first :: rest ∧
      (∀ l ∈ payload.layers, l.nKvHeads = first.nKvHeads ∧ l.headDim = first.headDim ∧
        l.vHeadDim = first.headDim) ∧
      (∀ l ∈ payload.layers, l.dtype = identity.dtype) ∧
      PREFIX_LEN + (encodeHeader identity payload first).length +
        (encodeBody half payload).length ≤ ISIZE_MAX ∧
      bytes = MAGIC ++ (leBytes 4 SLOT_FORMAT_VERSION ++
        (leBytes 4 (encodeHeader identity payload first).length ++
          (leBytes 8 (encodeBody half payload).length ++
            ((sha (encodeHeader identity payload first ++ encodeBody half payload)).val ++
              (encodeHeader identity payload first ++ encodeBody half payload))))) := by
  unfold encode at h
  split at h
  · cases h
  rename_i first rest hlayers
  obtain ⟨⟨⟩, hgeometry, h⟩ := bind_eq_ok.mp h
  obtain ⟨⟨⟩, hdtype, h⟩ := bind_eq_ok.mp h
  obtain ⟨⟨⟩, hfit, h⟩ := bind_eq_ok.mp h
  exact ⟨first, rest, hlayers, asserting_eq_ok.mp hgeometry, asserting_eq_ok.mp hdtype,
    reserve_eq_ok.mp hfit, (Except.ok.inj h).symm⟩

/-- The header that is read back. -/
def headerOf (identity : SlotIdentity) (payload : SlotPayload ρ) (positions : ℕ) : Header :=
  ⟨identity, positions, payload.tokens.length, payload.pendingLogits.length⟩

/-- The body's numbers, in their order. -/
def bodyNumbers (half : HalfConversion) (payload : SlotPayload ρ) : List ℕ :=
  payload.tokens ++ (payload.pendingLogits.map BitVec.toNat ++
    (payload.layers.flatMap (layerWords half)).map BitVec.toNat)

theorem encodeWords_eq (words : List (BitVec 32)) :
    encodeWords words = (words.map BitVec.toNat).flatMap (leBytes 4) := by
  rw [encodeWords, List.flatMap_map]

theorem encodeBody_eq (half : HalfConversion) (payload : SlotPayload ρ) :
    encodeBody half payload = (bodyNumbers half payload).flatMap (leBytes 4) := by
  have hlayers : payload.layers.flatMap (fun layer => encodeWords (layerWords half layer)) =
      ((payload.layers.flatMap (layerWords half)).map BitVec.toNat).flatMap (leBytes 4) := by
    simp only [encodeWords_eq, List.map_flatMap, List.flatMap_assoc]
  rw [encodeBody, hlayers, encodeWords_eq, bodyNumbers, List.flatMap_append, List.flatMap_append]

theorem length_flatMap_layerWords {layers : List (KvCache ρ)} {span : ℕ}
    (h : ∀ l ∈ layers, l.k.len = span ∧ l.v.len = span) :
    (layers.flatMap (layerWords half)).length = layers.length * (2 * span) := by
  induction layers with
  | nil => simp
  | cons layer layers ih =>
    obtain ⟨⟨hk, hv⟩, hls⟩ := List.forall_mem_cons.mp h
    rw [List.flatMap_cons, List.length_append, ih hls, layerWords, List.length_append,
      KvBuf.length_toF32Vec, KvBuf.length_toF32Vec, hk, hv, List.length_cons,
      Nat.succ_mul layers.length]
    omega

section Layers

variable (hd : Describes identity payload positions)
  (hdtype : ∀ l ∈ payload.layers, l.dtype = identity.dtype)
  (hvw : ∀ l ∈ payload.layers, l.vHeadDim = identity.headDim)
include hd hvw

theorem lens_of_describes : ∀ l ∈ payload.layers,
    l.k.len = (headerOf identity payload positions).span ∧
      l.v.len = (headerOf identity payload positions).span := by
  intro l hl
  have hk := hd.k_len l hl
  have hv := hd.v_len l hl
  rw [KvCache.kWidth, hd.nKvHeads l hl, hd.headDim l hl] at hk
  rw [KvCache.vWidth, hd.nKvHeads l hl, hvw l hl] at hv
  exact ⟨hk, hv⟩

theorem length_bodyNumbers :
    (bodyNumbers half payload).length = (headerOf identity payload positions).words := by
  rw [bodyNumbers, List.length_append, List.length_append, List.length_map, List.length_map,
    length_flatMap_layerWords (lens_of_describes hd hvw), Header.words, ← hd.nLayers]
  show payload.tokens.length + (payload.pendingLogits.length + _) =
    identity.nLayers * _ + payload.tokens.length + payload.pendingLogits.length
  omega

include hdtype in
/-- The words of the `i`-th layer are its rows. -/
theorem layerAt_encoded (hexact : half.Exact) {i : ℕ} {l : KvCache ρ}
    (hi : payload.layers[i]? = some l) {layer : KvCache ρ}
    (hlayer : layer = layerAt ρ half (encodeBody half payload) (headerOf identity payload positions)
      (payload.tokens.length + payload.pendingLogits.length +
        i * (2 * (headerOf identity payload positions).span))) :
    layer.positions = l.positions ∧ layer.k = l.k ∧ layer.v = l.v := by
  have hlens := lens_of_describes hd hvw
  set span := (headerOf identity payload positions).span with hspan
  obtain ⟨hlt, hget⟩ := List.getElem?_eq_some_iff.mp hi
  have hmem : l ∈ payload.layers := List.mem_of_getElem? hi
  have hsplit : payload.layers = payload.layers.take i ++ (l :: payload.layers.drop (i + 1)) := by
    conv_lhs => rw [← List.take_append_drop i payload.layers, List.drop_eq_getElem_cons hlt, hget]
  have hbefore : ((payload.layers.take i).flatMap (layerWords half)).length = i * (2 * span) := by
    rw [length_flatMap_layerWords fun m hm => hlens m (List.mem_of_mem_take hm),
      List.length_take, Nat.min_eq_left hlt.le]
  have hwords : payload.layers.flatMap (layerWords half) =
      (payload.layers.take i).flatMap (layerWords half) ++ (l.k.toF32Vec half ++
        (l.v.toF32Vec half ++ (payload.layers.drop (i + 1)).flatMap (layerWords half))) := by
    conv_lhs => rw [hsplit, List.flatMap_append, List.flatMap_cons, layerWords]
    rw [List.append_assoc]
  have hk : wordsAt (encodeBody half payload) (payload.tokens.length +
      payload.pendingLogits.length + i * (2 * span)) span = l.k.toF32Vec half := by
    apply wordsAt_part (payload.tokens ++ (payload.pendingLogits.map BitVec.toNat ++
      ((payload.layers.take i).flatMap (layerWords half)).map BitVec.toNat))
      ((l.v.toF32Vec half ++
        (payload.layers.drop (i + 1)).flatMap (layerWords half)).map BitVec.toNat)
    · rw [encodeBody_eq, bodyNumbers, hwords]
      simp only [List.map_append, List.append_assoc]
    · simp [hbefore, Nat.add_assoc]
    · rw [KvBuf.length_toF32Vec, (hlens l hmem).1]
  have hv : wordsAt (encodeBody half payload) (payload.tokens.length +
      payload.pendingLogits.length + i * (2 * span) + span) span = l.v.toF32Vec half := by
    apply wordsAt_part (payload.tokens ++ (payload.pendingLogits.map BitVec.toNat ++
      ((payload.layers.take i).flatMap (layerWords half) ++ l.k.toF32Vec half).map BitVec.toNat))
      (((payload.layers.drop (i + 1)).flatMap (layerWords half)).map BitVec.toNat)
    · rw [encodeBody_eq, bodyNumbers, hwords]
      simp only [List.map_append, List.append_assoc]
    · simp [hbefore, Nat.add_assoc, (hlens l hmem).1]
    · rw [KvBuf.length_toF32Vec, (hlens l hmem).2]
  have hkd : l.k.dtype = identity.dtype := hdtype l hmem
  have hvd : l.v.dtype = identity.dtype := l.same_dtype.trans hkd
  subst hlayer
  refine ⟨?_, ?_, ?_⟩
  · show 0 + positions = l.positions
    rw [Nat.zero_add, hd.positions_eq l hmem]
  · show (KvBuf.new identity.dtype).extendFromF32 half (wordsAt _ _ span) = l.k
    rw [hk, ← hkd, KvBuf.extendFromF32_toF32Vec l.k hexact]
  · show (KvBuf.new identity.dtype).extendFromF32 half (wordsAt _ _ span) = l.v
    rw [hv, ← hvd, KvBuf.extendFromF32_toF32Vec l.v hexact]

/-- What is read of a payload is the payload: its numbers, and its layers' rows. -/
theorem payloadOf_encoded (hexact : half.Exact)
    (hdtype : ∀ l ∈ payload.layers, l.dtype = identity.dtype)
    (htokens : ∀ token ∈ payload.tokens, token < 2 ^ 32) {read : SlotPayload ρ}
    (hread : read = payloadOf ρ half (encodeBody half payload)
      (headerOf identity payload positions)) :
    read.tokens = payload.tokens ∧ read.pendingLogits = payload.pendingLogits ∧
      List.Forall₂ (fun a b => a.positions = b.positions ∧ a.k = b.k ∧ a.v = b.v)
        read.layers payload.layers := by
  subst hread
  refine ⟨?_, ?_, ?_⟩
  · show (List.range' 0 payload.tokens.length).map (word (encodeBody half payload)) = _
    rw [encodeBody_eq]
    exact map_word_range' [] _ htokens
  · apply wordsAt_part payload.tokens ((payload.layers.flatMap (layerWords half)).map BitVec.toNat)
    · rw [encodeBody_eq, bodyNumbers]
    · rfl
    · rfl
  · rw [List.forall₂_iff_get]
    refine ⟨?_, ?_⟩
    · simpa [payloadOf, headerOf] using hd.nLayers
    · intro i hi hi'
      apply layerAt_encoded hd hdtype hvw hexact (List.getElem?_eq_getElem hi')
      simp [payloadOf, headerOf]

end Layers

section Header

variable (hf : Fits32 identity payload positions)
include hf

/-- The header's numbers are below 2^32. -/
theorem headerNumbers_lt (first : KvCache ρ) (hl : identity.nLayers = payload.layers.length)
    (hh : first.nKvHeads = identity.nKvHeads) (hw : first.headDim = identity.headDim)
    (hp : first.positions = positions) :
    ∀ x ∈ headerNumbers identity payload first, x < 2 ^ 32 := by
  have htag : dtypeTag identity.dtype < 2 ^ 32 := by cases identity.dtype <;> decide
  have hlayers := hf.nLayers
  have hheads := hf.nKvHeads
  have hwidth := hf.headDim
  have hpositions := hf.positions
  rw [hl] at hlayers
  rw [← hh] at hheads
  rw [← hw] at hwidth
  rw [← hp] at hpositions
  simp only [headerNumbers, List.forall_mem_cons]
  exact ⟨hlayers, hheads, hwidth, htag, hpositions, hf.nPrompt, hf.nLogits, hf.name,
    hf.fingerprint, nofun⟩

/-- A header is read as it was written, if it has heads of a width. -/
theorem readHeader_encoded (first : KvCache ρ) (hl : identity.nLayers = payload.layers.length)
    (hh : first.nKvHeads = identity.nKvHeads) (hw : first.headDim = identity.headDim)
    (hp : first.positions = positions) (hl0 : identity.nLayers ≠ 0) (hh0 : identity.nKvHeads ≠ 0)
    (hw0 : identity.headDim ≠ 0)
    (hlen : (encodeHeader identity payload first).length < U64_LIMIT) :
    readHeader (encodeHeader identity payload first) =
      .ok (headerOf identity payload positions) := by
  have hlt := headerNumbers_lt hf first hl hh hw hp
  set numbers := headerNumbers identity payload first with hnumbers
  have hcount : numbers.length = 9 := rfl
  have hsplit : encodeHeader identity payload first =
      numbers.flatMap (leBytes 4) ++ (utf8 identity.modelName ++ utf8 identity.fingerprint) := rfl
  have hsize : (encodeHeader identity payload first).length =
      36 + ((utf8 identity.modelName).length + (utf8 identity.fingerprint).length) := by
    rw [hsplit, List.length_append, List.length_append, length_flatMap_leBytes, hcount]
  have hfield : ∀ (i x : ℕ), numbers[i]? = some x → i < 9 →
      readLe 4 (encodeHeader identity payload first) (i * 4) = .ok x := by
    intro i x hx hi
    rw [readLe_word hlen (by omega), hsplit,
      word_numbers hx (hlt x (List.mem_of_getElem? hx))]
  have hstrings : (slice (encodeHeader identity payload first) (HEADER_FIELDS * 4)
      (encodeHeader identity payload first).length : Decoding _) =
      .ok (utf8 identity.modelName ++ utf8 identity.fingerprint) := by
    rw [hsize, hsplit]
    apply slice_right
    · rw [length_flatMap_leBytes, hcount]
      rfl
    · rw [List.length_append]
      rfl
  have hname : (slice (utf8 identity.modelName ++ utf8 identity.fingerprint) 0
      (utf8 identity.modelName).length : Decoding _) = .ok (utf8 identity.modelName) :=
    slice_left rfl
  have hprint : (slice (utf8 identity.modelName ++ utf8 identity.fingerprint)
      (utf8 identity.modelName).length
      (utf8 identity.modelName ++ utf8 identity.fingerprint).length : Decoding _) =
      .ok (utf8 identity.fingerprint) := slice_right rfl (List.length_append ..)
  have hsum : (checkedAdd (utf8 identity.modelName).length (utf8 identity.fingerprint).length) =
      some ((utf8 identity.modelName).length + (utf8 identity.fingerprint).length) :=
    checkedAdd_of_lt (by omega)
  have htag : dtypeFromTag (dtypeTag identity.dtype) = some identity.dtype := by
    cases identity.dtype <;> rfl
  have henough : HEADER_FIELDS * 4 ≤ (encodeHeader identity payload first).length := by
    rw [hsize]
    exact Nat.le_add_right 36 _
  refine bind_eq_ok.mpr ⟨(), ensure_true henough, ?_⟩
  refine bind_eq_ok.mpr ⟨_, hfield 0 _ rfl (by decide), ?_⟩
  refine bind_eq_ok.mpr ⟨_, hfield 1 _ rfl (by decide), ?_⟩
  refine bind_eq_ok.mpr ⟨_, hfield 2 _ rfl (by decide), ?_⟩
  refine bind_eq_ok.mpr ⟨_, hfield 3 _ rfl (by decide), ?_⟩
  refine bind_eq_ok.mpr ⟨_, hfield 4 _ rfl (by decide), ?_⟩
  refine bind_eq_ok.mpr ⟨_, hfield 5 _ rfl (by decide), ?_⟩
  refine bind_eq_ok.mpr ⟨_, hfield 6 _ rfl (by decide), ?_⟩
  refine bind_eq_ok.mpr ⟨_, hfield 7 _ rfl (by decide), ?_⟩
  refine bind_eq_ok.mpr ⟨_, hfield 8 _ rfl (by decide), ?_⟩
  refine bind_eq_ok.mpr ⟨identity.dtype, orRefuse_eq_ok.mpr htag, ?_⟩
  refine bind_eq_ok.mpr ⟨(), ensure_true (hl ▸ hl0), ?_⟩
  refine bind_eq_ok.mpr ⟨(), ensure_true (by rw [hh, hw]; exact ⟨hh0, hw0⟩), ?_⟩
  refine bind_eq_ok.mpr ⟨_, hstrings, ?_⟩
  refine bind_eq_ok.mpr ⟨_, orRefuse_eq_ok.mpr hsum, ?_⟩
  refine bind_eq_ok.mpr ⟨(), ensure_true (List.length_append ..).symm, ?_⟩
  refine bind_eq_ok.mpr ⟨_, hname, ?_⟩
  refine bind_eq_ok.mpr ⟨_, orRefuse_eq_ok.mpr (fromUtf8_utf8 _), ?_⟩
  refine bind_eq_ok.mpr ⟨_, hprint, ?_⟩
  refine bind_eq_ok.mpr ⟨_, orRefuse_eq_ok.mpr (fromUtf8_utf8 _), ?_⟩
  rw [headerOf, hh, hw, hp, ← hl]

end Header

section File

variable {header body digest : List UInt8}

/-- The bytes of a file with this digest, header and body. -/
def fileOf (digest header body : List UInt8) : List UInt8 :=
  MAGIC ++ (leBytes 4 SLOT_FORMAT_VERSION ++ (leBytes 4 header.length ++
    (leBytes 8 body.length ++ (digest ++ (header ++ body)))))

theorem length_fileOf (hdigest : digest.length = 32) :
    (fileOf digest header body).length = PREFIX_LEN + header.length + body.length := by
  simp only [fileOf, List.length_append, length_leBytes, hdigest, MAGIC, PREFIX_LEN,
    List.length_cons, List.length_nil]
  omega

theorem readLe_append {before part after : List UInt8} {n start : ℕ}
    (hstart : start = before.length) (hn : n = part.length) (hlt : start + n < U64_LIMIT) :
    readLe n (before ++ (part ++ after)) start = .ok (fromLe part) := by
  have hadd : (addU64 start n : Decoding ℕ) = .ok (start + n) := addU64_eq_ok.mpr ⟨hlt, rfl⟩
  have hslice : (slice (before ++ (part ++ after)) start (start + n) : Decoding _) = .ok part :=
    slice_append hstart (by rw [hn])
  rw [readLe, hadd]
  simp only [bind, Except.bind, hslice]

/-- A file's prefix is read as it was written. -/
theorem readPrefix_encoded (hdigest : digest.length = 32) (hh : header.length < 2 ^ 32)
    (hb : body.length < 2 ^ 64) :
    readPrefix (fileOf digest header body) = .ok ⟨header.length, body.length⟩ := by
  have hlen := @length_fileOf header body digest hdigest
  have hmagic : (slice (fileOf digest header body) 0 8 : Decoding _) = .ok MAGIC := slice_left rfl
  have hversion : readLe 4 (fileOf digest header body) 8 = .ok SLOT_FORMAT_VERSION := by
    have h := @readLe_append MAGIC (leBytes 4 SLOT_FORMAT_VERSION) (leBytes 4 header.length ++
      (leBytes 8 body.length ++ (digest ++ (header ++ body)))) 4 8 rfl rfl (by decide)
    rwa [fromLe_leBytes] at h
  have hheader : readLe 4 (fileOf digest header body) 12 = .ok header.length := by
    have h := @readLe_append (MAGIC ++ leBytes 4 SLOT_FORMAT_VERSION) (leBytes 4 header.length)
      (leBytes 8 body.length ++ (digest ++ (header ++ body))) 4 12 rfl (by simp) (by decide)
    rw [fromLe_leBytes, Nat.mod_eq_of_lt (by simpa using hh)] at h
    rw [← h, fileOf]
    simp only [List.append_assoc]
  have hbody : readLe 8 (fileOf digest header body) 16 = .ok body.length := by
    have h := @readLe_append (MAGIC ++ leBytes 4 SLOT_FORMAT_VERSION ++ leBytes 4 header.length)
      (leBytes 8 body.length) (digest ++ (header ++ body)) 8 16 (by simp [MAGIC]) (by simp)
      (by decide)
    rw [fromLe_leBytes, Nat.mod_eq_of_lt (by simpa using hb)] at h
    rw [← h, fileOf]
    simp only [List.append_assoc]
  unfold readPrefix
  rw [hmagic, hversion, hheader, hbody]
  simp only [bind, Except.bind]
  rw [ensure_true (by omega), ensure_true trivial, ensure_true (by decide), ensure_true (by omega)]

/-- Past its prefix, a file is its header and body under a digest of both. -/
theorem decode_fileOf (sha : List UInt8 → Bytes32) (hh : header.length < 2 ^ 32)
    (hfit : PREFIX_LEN + header.length + body.length < U64_LIMIT) :
    decode ρ half sha room (fileOf (sha (header ++ body)).val header body) =
      readHeader header >>= fun h => decodeBody half room body ρ h := by
  have hdigest := (sha (header ++ body)).property
  set digest := (sha (header ++ body)).val with hd
  have hlen := @length_fileOf header body digest hdigest
  have hpre : readPrefix (fileOf digest header body) = .ok ⟨header.length, body.length⟩ :=
    readPrefix_encoded hdigest hh (by unfold U64_LIMIT at hfit; omega)
  obtain ⟨front, hfront, hflen⟩ : ∃ front : List UInt8, fileOf digest header body =
      front ++ (digest ++ (header ++ body)) ∧ front.length = 24 := by
    refine ⟨MAGIC ++ (leBytes 4 SLOT_FORMAT_VERSION ++ (leBytes 4 header.length ++
      leBytes 8 body.length)), ?_, by simp [MAGIC]⟩
    simp only [fileOf, List.append_assoc]
  have hstop : (addU64 PREFIX_LEN header.length : Decoding ℕ) = .ok (PREFIX_LEN + header.length) :=
    addU64_eq_ok.mpr ⟨by omega, rfl⟩
  have h₁ : (slice (fileOf digest header body) 24 PREFIX_LEN : Decoding _) = .ok digest := by
    rw [hfront]
    exact slice_append hflen.symm (by rw [hdigest]; rfl)
  have h₂ : (slice (fileOf digest header body) PREFIX_LEN (PREFIX_LEN + header.length) :
      Decoding _) = .ok header := by
    rw [hfront, ← List.append_assoc]
    exact slice_append (by simp [hflen, hdigest, PREFIX_LEN]) rfl
  have h₃ : (slice (fileOf digest header body) (PREFIX_LEN + header.length)
      (fileOf digest header body).length : Decoding _) = .ok body := by
    rw [hlen, hfront, ← List.append_assoc, ← List.append_assoc]
    apply slice_right
    · simp only [List.length_append, hflen, hdigest, PREFIX_LEN]
    · rfl
  unfold decode
  rw [hpre]
  simp only [bind, Except.bind, h₁, hstop, h₂, h₃]
  rw [ensure_true rfl]

end File

/-- Tokens, logits, layers and elements of a payload, and of two rows beside it. -/
def roomFor (identity : SlotIdentity) (payload : SlotPayload ρ) (positions : ℕ) : ℕ :=
  (headerOf identity payload positions).opening +
    identity.nLayers * (2 * (headerOf identity payload positions).span)

/-- The bytes are read as the identity, and for it and no other as the payload. -/
def Restores (half : HalfConversion) (sha : List UInt8 → Bytes32) (room : ℕ)
    (identity : SlotIdentity) (payload : SlotPayload ρ) (bytes : List UInt8) : Prop :=
  ∃ slot, decode ρ half sha room bytes = .ok slot ∧ slot.identity = identity ∧
    (∃ restored, slot.verify identity = .ok restored ∧ restored.tokens = payload.tokens ∧
      restored.pendingLogits = payload.pendingLogits ∧
      List.Forall₂ (fun a b => a.positions = b.positions ∧ a.k = b.k ∧ a.v = b.v)
        restored.layers payload.layers) ∧
    ∀ serving, serving ≠ identity → ∃ e, slot.verify serving = .error e

theorem slot_file_restores (hexact : half.Exact) (sha : List UInt8 → Bytes32)
    (henc : encode half sha identity payload = .ok bytes)
    (hd : Describes identity payload positions) (hf : Fits32 identity payload positions)
    (hh : identity.nKvHeads ≠ 0) (hw : identity.headDim ≠ 0)
    (hheader : HEADER_FIELDS * 4 + (utf8 identity.modelName).length +
      (utf8 identity.fingerprint).length < 2 ^ 32)
    (hrow : positions = 0 → identity.nKvHeads * identity.headDim ≤ ISIZE_MAX / 4) (room : ℕ)
    (hroom : roomFor identity payload positions ≤ room) :
    Restores half sha room identity payload bytes := by
  obtain ⟨first, rest, hlayers, hgeometry, hdtype, hfit, hbytes⟩ := encode_ok henc
  have hfirst : first ∈ payload.layers := hlayers ▸ List.mem_cons_self
  have hl : identity.nLayers ≠ 0 := by
    rw [hd.nLayers, hlayers]
    exact Nat.succ_ne_zero _
  have hvw : ∀ l ∈ payload.layers, l.vHeadDim = identity.headDim := by
    intro l hmem
    rw [(hgeometry l hmem).2.2, hd.headDim first hfirst]
  set header := encodeHeader identity payload first with hhdef
  set body := encodeBody half payload with hbdef
  set h := headerOf identity payload positions with hhead
  have hlen : header.length = HEADER_FIELDS * 4 + (utf8 identity.modelName).length +
      (utf8 identity.fingerprint).length := by
    rw [hhdef, encodeHeader, List.length_append, List.length_append, length_flatMap_leBytes,
      ← Nat.add_assoc]
    rfl
  have hblen : h.words * 4 = body.length := by
    rw [hbdef, encodeBody_eq, length_flatMap_leBytes, length_bodyNumbers hd hvw]
  have hvec : ISIZE_MAX < U64_LIMIT := by decide
  have hread : readHeader header = .ok h := readHeader_encoded hf first hd.nLayers
    (hd.nKvHeads first hfirst) (hd.headDim first hfirst) (hd.positions_eq first hfirst) hl hh hw
    (by rw [← hhdef]; omega)
  have hwidth : h.width < U64_LIMIT := mul_lt_limit hf.nKvHeads hf.headDim
  have hfits : h.Fits room := by
    refine ⟨?_, hroom⟩
    rcases Nat.eq_zero_or_pos positions with hzero | hpos
    · exact hrow hzero
    · have hsized := fits_of_positions (Nat.pos_of_ne_zero hl) hpos
        (Nat.mul_pos (Nat.pos_of_ne_zero hh) (Nat.pos_of_ne_zero hw)) hblen (by omega)
        (Nat.le_refl _)
      exact hsized.row
  have hdecode : decode ρ half sha room bytes = .ok ⟨identity, payloadOf ρ half body h⟩ := by
    have hfile : bytes = fileOf (sha (header ++ body)).val header body := hbytes
    rw [hfile, decode_fileOf sha (by omega) (by omega), hread]
    exact decodeBody_ok (Nat.pos_of_ne_zero hl) hwidth (by omega) hblen hfits
  refine ⟨_, hdecode, rfl, ⟨_, verify_self _, ?_⟩, fun serving hne => verify_other hne⟩
  exact payloadOf_encoded hd hvw hexact hdtype hf.tokens rfl

end Encode

/-- Conversions that agree with the real ones on zero. -/
def zeroHalf : HalfConversion := ⟨BitVec.setWidth 32, BitVec.setWidth 16⟩

def blankDigest (_ : List UInt8) : Bytes32 := ⟨List.replicate 32 0, List.length_replicate⟩

/-- A layer of one position, one head and one element, K and V apart. -/
def tinyLayer : KvCache Unit where
  nKvHeads := 1
  headDim := 1
  vHeadDim := 1
  k := .F32 [7]
  v := .F32 [8]
  positions := 1
  recurrent := none
  same_dtype := rfl
  window := none

/-- A layer of no positions with so many heads of so many elements. -/
def hollowLayer (nKvHeads headDim : ℕ) : KvCache Unit := .new nKvHeads headDim

theorem slot_file_restores_tiny :
    ∃ bytes, encode zeroHalf blankDigest ⟨"m", 1, 1, 1, .F32, "f"⟩ ⟨[3], [9], [tinyLayer]⟩ =
      .ok bytes ∧ Restores zeroHalf blankDigest 7 ⟨"m", 1, 1, 1, .F32, "f"⟩
        ⟨[3], [9], [tinyLayer]⟩ bytes := by
  have hexact : zeroHalf.Exact := by
    intro x
    simp [zeroHalf]
  have hdescribes : Describes ⟨"m", 1, 1, 1, .F32, "f"⟩ ⟨[3], [9], [tinyLayer]⟩ 1 := by
    constructor
    all_goals simp [tinyLayer, KvBuf.len, KvCache.kWidth, KvCache.vWidth]
  have hfits : Fits32 ⟨"m", 1, 1, 1, .F32, "f"⟩ ⟨[3], [9], [tinyLayer]⟩ 1 := by
    constructor
    all_goals decide
  exact ⟨_, rfl, slot_file_restores hexact blankDigest rfl hdescribes hfits (by decide)
    (by decide) (by decide) (fun h => absurd h Nat.one_ne_zero) 7 (by decide)⟩

/-- A payload without heads is written and never read, and one whose rows are too long for a
vector stops the reader although it holds none. -/
theorem slot_file_restores_not_all :
    (∃ bytes, encode zeroHalf blankDigest ⟨"m", 1, 0, 1, .F32, "f"⟩
      ⟨[3], [9], [hollowLayer 0 1]⟩ = .ok bytes ∧
        decode Unit zeroHalf blankDigest (2 ^ 80) bytes =
          .error (.refused (.degenerateShape 0 1))) ∧
    ∃ bytes, encode zeroHalf blankDigest ⟨"m", 1, 2 ^ 31, 2 ^ 31, .F32, "f"⟩
      ⟨[3], [9], [hollowLayer (2 ^ 31) (2 ^ 31)]⟩ = .ok bytes ∧
        decode Unit zeroHalf blankDigest (2 ^ 80) bytes = .error (.hazard .reserve) := by
  constructor
  · exact ⟨_, rfl, rfl⟩
  · exact ⟨_, rfl, rfl⟩

end Frink.Slots
