import Frink.KvDisk.RoundTrip

/-! # Files nobody wrote

Whatever the bytes, reading them ends in a block or an error, except for two
kinds of file: one whose declared lengths sum past 64 bits, and one of no tokens
with more layers than bytes.
-/

namespace Frink.KvDisk

open Codec Guarded

variable {ρ : Type} {bytes header body : List UInt8} {pre : Prefix} {h : Header}

theorem safe_slice_of {ε : Type} {start stop : ℕ} (hle : start ≤ stop) (hlen : stop ≤ bytes.length) :
    Safe (slice bytes start stop : Result ε _) := safe_slice.mpr ⟨hle, hlen⟩

theorem fromLe_slice_lt {ε : Type} {start stop n : ℕ} {out : List UInt8}
    (hs : (slice bytes start stop : Result ε _) = .ok out) (hn : stop - start = n) :
    fromLe out < 256 ^ n := by
  obtain ⟨⟨hle, hlen⟩, rfl⟩ := slice_eq_ok.mp hs
  have hlt := fromLe_lt ((bytes.drop start).take (stop - start))
  rw [← hn]
  rwa [List.length_take, List.length_drop, Nat.min_eq_left (by omega)] at hlt

theorem safe_readPrefix (bytes : List UInt8) : Safe (readPrefix bytes) := by
  unfold readPrefix
  refine (safe_ensure _).bind fun _ hlen => ?_
  have hlen : 56 ≤ bytes.length := ensure_eq_ok.mp hlen
  refine (safe_slice_of (by decide) (by omega)).bind fun _ _ => ?_
  refine (safe_ensure _).bind fun _ _ => ?_
  refine (safe_slice_of (by decide) (by omega)).bind fun _ _ => ?_
  refine (safe_ensure _).bind fun _ _ => ?_
  refine (safe_slice_of (by decide) (by omega)).bind fun _ _ => ?_
  refine (safe_slice_of (by decide) (by omega)).bind fun _ _ => ?_
  exact safe_ok _

/-- What a file whose prefix is read has. -/
theorem readPrefix_ok (hp : readPrefix bytes = .ok pre) :
    PREFIX_LEN ≤ bytes.length ∧ pre.headerLen < 2 ^ 32 ∧ pre.bodyLen < 2 ^ 64 := by
  unfold readPrefix at hp
  obtain ⟨_, hlen, hp⟩ := bind_eq_ok.mp hp
  obtain ⟨magic, -, hp⟩ := bind_eq_ok.mp hp
  obtain ⟨_, -, hp⟩ := bind_eq_ok.mp hp
  obtain ⟨version, -, hp⟩ := bind_eq_ok.mp hp
  obtain ⟨_, -, hp⟩ := bind_eq_ok.mp hp
  obtain ⟨headerLen, hh, hp⟩ := bind_eq_ok.mp hp
  obtain ⟨bodyLen, hb, hp⟩ := bind_eq_ok.mp hp
  obtain rfl := Except.ok.inj hp
  exact ⟨ensure_eq_ok.mp hlen, fromLe_slice_lt hh rfl, fromLe_slice_lt hb rfl⟩

theorem safe_headerField {i : ℕ} (hlen : 64 ≤ header.length) (hi : i < 8) :
    Safe (headerField header i) :=
  (safe_slice_of (by omega) (by omega)).bind fun _ _ => safe_ok _

theorem headerField_lt {i x : ℕ} (hx : headerField header i = .ok x) : x < 2 ^ 32 := by
  obtain ⟨out, hs, hx⟩ := bind_eq_ok.mp hx
  obtain rfl := Except.ok.inj hx
  exact fromLe_slice_lt hs (by omega : 36 + i * 4 - (32 + i * 4) = 4)

theorem safe_readHeader (header : List UInt8) : Safe (readHeader header) := by
  unfold readHeader
  refine (safe_ensure _).bind fun _ hlen => ?_
  have hlen : 64 ≤ header.length := ensure_eq_ok.mp hlen
  refine Safe.bind ?_ fun _ _ => ?_
  · unfold readHash
    rw [dif_pos (by rw [List.length_take]; omega)]
    exact safe_ok _
  refine (safe_headerField hlen (by decide)).bind fun _ _ => ?_
  refine (safe_headerField hlen (by decide)).bind fun _ _ => ?_
  refine (safe_headerField hlen (by decide)).bind fun _ _ => ?_
  refine (safe_headerField hlen (by decide)).bind fun _ _ => ?_
  refine (safe_headerField hlen (by decide)).bind fun _ _ => ?_
  refine (safe_headerField hlen (by decide)).bind fun _ _ => ?_
  refine (safe_headerField hlen (by decide)).bind fun _ _ => ?_
  refine (safe_headerField hlen (by decide)).bind fun _ _ => ?_
  refine (safe_orRefuse _ _).bind fun _ _ => ?_
  refine (safe_ensure _).bind fun _ _ => ?_
  refine (safe_slice_of hlen le_rfl).bind fun _ _ => ?_
  refine (safe_orRefuse _ _).bind fun _ _ => ?_
  refine (safe_ensure _).bind fun _ _ => ?_
  split
  · exact safe_refused _
  · exact safe_ok _

/-- The numbers of a header that is read are below 2^32, and a layer of it has a width. -/
theorem readHeader_ok (hh : readHeader header = .ok h) :
    h.nLayers < 2 ^ 32 ∧ h.nKvHeads < 2 ^ 32 ∧ h.headDim < 2 ^ 32 ∧ 0 < h.nLayers ∧
      0 < h.nKvHeads * h.headDim := by
  unfold readHeader at hh
  obtain ⟨_, -, hh⟩ := bind_eq_ok.mp hh
  obtain ⟨hash, -, hh⟩ := bind_eq_ok.mp hh
  obtain ⟨nLayers, hl, hh⟩ := bind_eq_ok.mp hh
  obtain ⟨nKvHeads, hk, hh⟩ := bind_eq_ok.mp hh
  obtain ⟨headDim, hw, hh⟩ := bind_eq_ok.mp hh
  obtain ⟨tokens, -, hh⟩ := bind_eq_ok.mp hh
  obtain ⟨code, -, hh⟩ := bind_eq_ok.mp hh
  obtain ⟨blockSize, -, hh⟩ := bind_eq_ok.mp hh
  obtain ⟨window, -, hh⟩ := bind_eq_ok.mp hh
  obtain ⟨modelLen, -, hh⟩ := bind_eq_ok.mp hh
  obtain ⟨dtype, -, hh⟩ := bind_eq_ok.mp hh
  obtain ⟨_, -, hh⟩ := bind_eq_ok.mp hh
  obtain ⟨name, -, hh⟩ := bind_eq_ok.mp hh
  obtain ⟨model, -, hh⟩ := bind_eq_ok.mp hh
  obtain ⟨_, hne, hh⟩ := bind_eq_ok.mp hh
  obtain ⟨hl0, hk0, hw0⟩ := ensure_eq_ok.mp hne
  split at hh
  · cases hh
  · obtain rfl := Except.ok.inj hh
    exact ⟨headerField_lt hl, headerField_lt hk, headerField_lt hw, Nat.pos_of_ne_zero hl0,
      Nat.mul_pos (Nat.pos_of_ne_zero hk0) (Nat.pos_of_ne_zero hw0)⟩

theorem safe_readLayer (k v : List UInt8) (hprod : h.nKvHeads * h.headDim < U64_LIMIT)
    (hrows : (if h.nKvHeads * h.headDim = 0 then 0 else
      (readLe h.dtype k).len / (h.nKvHeads * h.headDim)) = h.tokens) :
    Safe (h.readLayer k v : Decoding (KvCache ρ)) := by
  unfold Header.readLayer
  refine Safe.bind (by simp [mulU64, hprod, safe_ok]) fun width hw => ?_
  obtain ⟨-, rfl⟩ := mulU64_eq_ok.mp hw
  refine Safe.bind ?_ fun _ _ => safe_ok _
  rw [asserting, if_pos hrows]
  exact safe_ok ()

theorem length_chunks (width count : ℕ) (bytes : List UInt8) :
    (chunks width count bytes).length = count := by
  induction count generalizing bytes with
  | zero => rfl
  | succ count ih => simp [chunks, ih]

theorem len_readLe (dtype : KvDtype) (bytes : List UInt8) :
    (readLe dtype bytes).len = bytes.length / dtype.elemBytes := by
  cases dtype <;> simp [readLe, KvBuf.len, length_chunks, KvDtype.elemBytes]

/-- A body that is as long as its layers take is read layer by layer. -/
theorem safe_readLayers {elems : ℕ} (helems : elems = h.tokens * (h.nKvHeads * h.headDim))
    (hwidth : 0 < h.nKvHeads * h.headDim) (hprod : h.nKvHeads * h.headDim < U64_LIMIT)
    (hbody : body.length < U64_LIMIT) (n offset : ℕ)
    (hfit : offset + 2 * n * (elems * h.dtype.elemBytes) ≤ body.length) :
    Safe (h.readLayers elems body n offset : Decoding (List (KvCache ρ))) := by
  induction n generalizing offset with
  | zero => exact safe_ok _
  | succ n ih =>
    set size := elems * h.dtype.elemBytes with hsize
    have hsplit : 2 * (n + 1) * size = size + size + 2 * n * size := by ring
    have hbytes := h.dtype.elemBytes_pos
    unfold Header.readLayers
    refine Safe.bind (by rw [mulU64, if_pos (by omega)]; exact safe_ok _) fun s hs => ?_
    obtain ⟨-, rfl⟩ := mulU64_eq_ok.mp hs
    refine Safe.bind (safe_addU64.mpr (by omega)) fun middle hm => ?_
    obtain ⟨-, rfl⟩ := addU64_eq_ok.mp hm
    refine Safe.bind (safe_slice_of (by omega) (by omega)) fun k hk => ?_
    refine Safe.bind (safe_addU64.mpr (by omega)) fun stop hstop => ?_
    obtain ⟨-, rfl⟩ := addU64_eq_ok.mp hstop
    refine Safe.bind (safe_slice_of (by omega) (by omega)) fun v _ => ?_
    have hklen : k.length = size := by
      obtain ⟨-, rfl⟩ := slice_eq_ok.mp hk
      rw [List.length_take, List.length_drop]
      omega
    refine Safe.bind (safe_readLayer k v hprod ?_) fun layer _ => ?_
    · rw [if_neg hwidth.ne', len_readLe, hklen, hsize, Nat.mul_div_cancel _ hbytes, helems,
        Nat.mul_div_cancel _ hwidth]
    · exact Safe.bind (ih _ (by omega)) fun _ _ => safe_ok _

theorem perLayerElems_ok {elems : ℕ} (he : h.perLayerElems = .ok elems) :
    elems = h.tokens * (h.nKvHeads * h.headDim) := by
  obtain ⟨rows, hr, he⟩ := Option.bind_eq_some_iff.mp (orRefuse_eq_ok.mp he)
  obtain ⟨-, rfl⟩ := checkedMul_eq_some.mp hr
  obtain ⟨-, rfl⟩ := checkedMul_eq_some.mp he
  exact Nat.mul_assoc _ _ _

theorem expectedBody_ok {elems expected : ℕ} (he : h.expectedBody elems = .ok expected) :
    expected = 2 * h.nLayers * (elems * h.dtype.elemBytes) ∧ expected < U64_LIMIT := by
  obtain ⟨rows, hr, he⟩ := bind_eq_ok.mp he
  obtain ⟨-, rfl⟩ := mulU64_eq_ok.mp hr
  obtain ⟨n, hn, he⟩ := Option.bind_eq_some_iff.mp (orRefuse_eq_ok.mp he)
  obtain ⟨-, rfl⟩ := checkedMul_eq_some.mp hn
  obtain ⟨hlt, rfl⟩ := checkedMul_eq_some.mp he
  exact ⟨by ring, hlt⟩

/-- No tokens, an empty body, and more layers than the file has bytes. -/
def EmptyLayers (fileLen : ℕ) (h : Header) (body : List UInt8) : Prop :=
  h.tokens = 0 ∧ body = [] ∧ fileLen < h.nLayers

theorem safe_decodeBody {fileLen version : ℕ} (hh : readHeader header = .ok h)
    (hlen : body.length ≤ fileLen) :
    Safe (decodeBody ρ fileLen version h body) ↔ ¬ EmptyLayers fileLen h body := by
  obtain ⟨hl, hk, hw, hl0, hwidth⟩ := readHeader_ok hh
  have hprod := mul_lt_limit hk hw
  have hmul : (mulU64 2 h.nLayers : Decoding ℕ) = .ok (2 * h.nLayers) :=
    mulU64_eq_ok.mpr ⟨by unfold U64_LIMIT; omega, rfl⟩
  constructor
  · rintro hsafe ⟨ht, rfl, hgt⟩
    have helems : h.perLayerElems = .ok 0 := by
      simp [Header.perLayerElems, ht, checkedMul, U64_LIMIT, orRefuse]
    have hexpected : h.expectedBody 0 = .ok 0 := by
      rw [Header.expectedBody, hmul]
      simp [bind, Except.bind, checkedMul, U64_LIMIT, orRefuse]
    unfold decodeBody at hsafe
    rw [helems] at hsafe
    simp only [bind, Except.bind, hexpected] at hsafe
    rw [List.length_nil, ensure_true rfl, reserve, if_neg (by omega)] at hsafe
    exact hsafe _ rfl
  · intro hnot
    unfold decodeBody
    refine (safe_orRefuse _ _).bind fun elems he => ?_
    have helems := perLayerElems_ok he
    refine Safe.bind ?_ fun expected hx => ?_
    · rw [Header.expectedBody, hmul]
      exact safe_orRefuse _ _
    obtain ⟨hexp, hlt⟩ := expectedBody_ok hx
    refine (safe_ensure _).bind fun _ heq => ?_
    have heq : expected = body.length := ensure_eq_ok.mp heq
    refine Safe.bind (safe_reserve.mpr ?_) fun _ _ => ?_
    · by_contra hgt
      rw [Nat.not_le] at hgt
      have ht : h.tokens = 0 := by
        by_contra ht
        have hpos : 0 < elems * h.dtype.elemBytes :=
          Nat.mul_pos (helems ▸ Nat.mul_pos (Nat.pos_of_ne_zero ht) hwidth) h.dtype.elemBytes_pos
        have hle := Nat.le_mul_of_pos_right (2 * h.nLayers) hpos
        omega
      have hnil : body.length = 0 := by
        rw [← heq, hexp, helems, ht]
        simp
      exact hnot ⟨ht, List.eq_nil_of_length_eq_zero hnil, hgt⟩
    · refine (safe_readLayers helems hwidth hprod (heq ▸ hlt) _ 0 ?_).bind fun _ _ => safe_ok _
      rw [Nat.zero_add, ← hexp, heq]

/-- The declared lengths of a file with a readable prefix sum past 64 bits. -/
def Overdeclares (bytes : List UInt8) : Prop :=
  ∃ pre, readPrefix bytes = .ok pre ∧ U64_LIMIT ≤ PREFIX_LEN + pre.headerLen + pre.bodyLen

/-- A file that is as long as it declares and has the digest of its bytes describes no tokens in
more layers than it has bytes. -/
def Overreserves (sha : List UInt8 → Bytes32) (bytes : List UInt8) : Prop :=
  ∃ pre h, readPrefix bytes = .ok pre ∧ PREFIX_LEN + pre.headerLen + pre.bodyLen = bytes.length ∧
    (sha (bytes.drop PREFIX_LEN)).val = (bytes.drop 24).take 32 ∧
    readHeader ((bytes.drop PREFIX_LEN).take pre.headerLen) = .ok h ∧
    EmptyLayers bytes.length h (bytes.drop (PREFIX_LEN + pre.headerLen))

theorem slice_rest {ε : Type} {start : ℕ} (h : start ≤ bytes.length) :
    (slice bytes start bytes.length : Result ε _) = .ok (bytes.drop start) := by
  rw [slice, if_pos ⟨h, le_rfl⟩, List.take_of_length_le (by rw [List.length_drop])]

/-- Past the length check only the digest, the header and the body are left to go wrong. -/
theorem decodeBlock_sized {sha : List UInt8 → Bytes32} (hpre : readPrefix bytes = .ok pre)
    (hsum : PREFIX_LEN + pre.headerLen + pre.bodyLen < U64_LIMIT)
    (hlen : PREFIX_LEN + pre.headerLen + pre.bodyLen = bytes.length) :
    decodeBlock ρ sha bytes = (do
      ensure ((sha (bytes.drop PREFIX_LEN)).val = (bytes.drop 24).take 32) .checksumMismatch
      let h ← readHeader ((bytes.drop PREFIX_LEN).take pre.headerLen)
      decodeBody ρ bytes.length pre.version h (bytes.drop (PREFIX_LEN + pre.headerLen))) := by
  have hhead : (addU64 PREFIX_LEN pre.headerLen : Decoding ℕ) = .ok (PREFIX_LEN + pre.headerLen) :=
    addU64_eq_ok.mpr ⟨by omega, rfl⟩
  have hdeclared : (addU64 (PREFIX_LEN + pre.headerLen) pre.bodyLen : Decoding ℕ) =
      .ok bytes.length := addU64_eq_ok.mpr ⟨hsum, hlen⟩
  have hd : (slice bytes 24 PREFIX_LEN : Decoding _) = .ok ((bytes.drop 24).take 32) :=
    slice_eq_ok.mpr ⟨⟨by decide, by omega⟩, rfl⟩
  have hh : (slice bytes PREFIX_LEN (PREFIX_LEN + pre.headerLen) : Decoding _) =
      .ok ((bytes.drop PREFIX_LEN).take pre.headerLen) :=
    slice_eq_ok.mpr ⟨⟨by omega, by omega⟩, by rw [Nat.add_sub_cancel_left]⟩
  have hrest : (slice bytes PREFIX_LEN bytes.length : Decoding _) = .ok (bytes.drop PREFIX_LEN) :=
    slice_rest (by omega)
  have hbody : (slice bytes (PREFIX_LEN + pre.headerLen) bytes.length : Decoding _) =
      .ok (bytes.drop (PREFIX_LEN + pre.headerLen)) := slice_rest (by omega)
  unfold decodeBlock
  simp only [hpre, hhead, hdeclared, bind, Except.bind, hd, hh, hrest, hbody, ensure_true]

theorem safe_decodeBlock (sha : List UInt8 → Bytes32) (bytes : List UInt8) :
    Safe (decodeBlock ρ sha bytes) ↔ ¬ Overdeclares bytes ∧ ¬ Overreserves sha bytes := by
  cases hpre : readPrefix bytes with
  | error fault =>
    have hsafe : Safe (decodeBlock ρ sha bytes) := by
      unfold decodeBlock
      exact Safe.bind (safe_readPrefix bytes) fun pre hp => nomatch hpre.symm.trans hp
    simp [hsafe, Overdeclares, Overreserves, hpre]
  | ok pre =>
    obtain ⟨hlen, hh, hb⟩ := readPrefix_ok hpre
    have hhead : (addU64 PREFIX_LEN pre.headerLen : Decoding ℕ) =
        .ok (PREFIX_LEN + pre.headerLen) :=
      addU64_eq_ok.mpr ⟨by simp only [PREFIX_LEN, U64_LIMIT]; omega, rfl⟩
    by_cases hsum : PREFIX_LEN + pre.headerLen + pre.bodyLen < U64_LIMIT
    · have hnot : ¬ Overdeclares bytes := by
        rintro ⟨pre', hp, hge⟩
        obtain rfl := Except.ok.inj (hpre.symm.trans hp)
        omega
      by_cases heq : PREFIX_LEN + pre.headerLen + pre.bodyLen = bytes.length
      · rw [decodeBlock_sized hpre hsum heq, safe_bind]
        constructor
        · rintro ⟨-, hsafe⟩
          refine ⟨hnot, ?_⟩
          rintro ⟨pre', h, hp, -, hdigest, hread, hempty⟩
          obtain rfl := Except.ok.inj (hpre.symm.trans hp)
          have hbody := (safe_bind.mp (hsafe () (ensure_true hdigest))).2 h hread
          exact (safe_decodeBody hread (by rw [List.length_drop]; omega)).mp hbody hempty
        · rintro ⟨-, hover⟩
          refine ⟨safe_ensure _, fun _ hdigest => ?_⟩
          refine (safe_readHeader _).bind fun h hread => ?_
          refine (safe_decodeBody hread (by rw [List.length_drop]; omega)).mpr fun hempty => ?_
          exact hover ⟨pre, h, hpre, heq, ensure_eq_ok.mp hdigest, hread, hempty⟩
      · have hsafe : Safe (decodeBlock ρ sha bytes) := by
          unfold decodeBlock
          simp only [hpre, hhead, bind, Except.bind]
          rw [addU64, if_pos hsum]
          simp only [ensure, if_neg heq]
          exact safe_refused _
        have hover : ¬ Overreserves sha bytes := by
          rintro ⟨pre', h, hp, heq', -⟩
          obtain rfl := Except.ok.inj (hpre.symm.trans hp)
          exact heq heq'
        exact iff_of_true hsafe ⟨hnot, hover⟩
    · have hover : Overdeclares bytes := ⟨pre, hpre, Nat.not_lt.mp hsum⟩
      refine iff_of_false (fun hsafe => ?_) fun h => h.1 hover
      unfold decodeBlock at hsafe
      simp only [hpre, hhead, bind, Except.bind] at hsafe
      rw [addU64, if_neg hsum] at hsafe
      exact hsafe _ rfl

/-- A file that is read is as long as its prefix says. -/
theorem decodeBlock_ok {sha : List UInt8 → Bytes32} {d : DecodedBlock ρ}
    (hd : decodeBlock ρ sha bytes = .ok d) : ∃ pre, readPrefix bytes = .ok pre ∧
      PREFIX_LEN + pre.headerLen + pre.bodyLen < U64_LIMIT ∧
      PREFIX_LEN + pre.headerLen + pre.bodyLen = bytes.length := by
  unfold decodeBlock at hd
  obtain ⟨pre, hpre, hd⟩ := bind_eq_ok.mp hd
  obtain ⟨head, hhead, hd⟩ := bind_eq_ok.mp hd
  obtain ⟨declared, hdecl, hd⟩ := bind_eq_ok.mp hd
  obtain ⟨_, hlen, -⟩ := bind_eq_ok.mp hd
  obtain ⟨-, rfl⟩ := addU64_eq_ok.mp hhead
  obtain ⟨hlt, rfl⟩ := addU64_eq_ok.mp hdecl
  exact ⟨pre, hpre, hlt, ensure_eq_ok.mp hlen⟩

/-- The file is as long as announced, read as the block's hash and, for the block's own signature
and no other, as the block's layers. -/
def RoundTrips (sha : List UInt8 → Bytes32) (hash : BlockHash) (block : KvBlock ρ) : Prop :=
  (encodeBlock sha hash block).length = encodedLen block.signature ∧
    ∃ d, decodeBlock ρ sha (encodeBlock sha hash block) = .ok d ∧ d.hash = hash ∧
      (∃ b, d.block.verify block.signature = .ok b ∧ b.layers = block.layers) ∧
      ∀ expected, expected ≠ block.signature → ∃ e, d.block.verify expected = .error e

theorem measured_stored {sig : CacheSignature} {model : String} {layout : BlockLayout}
    {layers : List (KvCache ρ)} (h : Measured sig model layout layers) :
    Measured sig model layout (layers.map stored) := by
  refine ⟨h.version, h.model_eq, h.layout_eq, by simpa using h.nLayers, by simpa using h.layers_ne,
    h.heads_pos, h.width_pos, h.tokens, ?_⟩
  rintro _ hmem
  obtain ⟨layer, hl, rfl⟩ := List.mem_map.mp hmem
  have hd := h.describes layer hl
  exact ⟨hd.heads, hd.width, hd.vWidth, hd.dtype, hd.k_len, hd.v_len, hd.positions⟩

theorem stored_eq_iff {layer : KvCache ρ} : stored layer = layer ↔ layer.recurrent = none := by
  constructor
  · intro h
    rw [← h]
    rfl
  · intro h
    ext1 <;> first | rfl | exact h.symm

theorem map_stored_iff {layers : List (KvCache ρ)} :
    layers.map stored = layers ↔ ∀ layer ∈ layers, layer.recurrent = none := by
  induction layers with
  | nil => simp
  | cons layer rest ih => simp [stored_eq_iff, ih]

/-- When a file gives its block back: its header's length fits in the field for it, the whole file
in 64 bits, and no layer carries a recurrent state. -/
theorem roundTrips_iff (sha : List UInt8 → Bytes32) (hash : BlockHash) (block : KvBlock ρ)
    (hf : Fits32 block.signature) :
    RoundTrips sha hash block ↔ 64 + (utf8 block.signature.model).length < 2 ^ 32 ∧
      encodedLen block.signature < U64_LIMIT ∧ ∀ layer ∈ block.layers, layer.recurrent = none := by
  have hm := measured_stored block.measured
  have hverify := verify_measured hm.stamped
  constructor
  · rintro ⟨hlen, d, hd, -, ⟨b, hb, hlayers⟩, -⟩
    have hsize : 64 + (utf8 block.signature.model).length < 2 ^ 32 ∧
        encodedLen block.signature < U64_LIMIT := by
      obtain ⟨pre, hpre, hlt, hsum⟩ := decodeBlock_ok hd
      have hdigest := (sha (encodeHeader hash block.signature ++
        block.layers.flatMap encodeLayer)).property
      have hread := readPrefix_encoded (encodeHeader hash block.signature).length
        (block.layers.flatMap encodeLayer).length
        (by simp [hdigest] : 32 ≤ ((sha (encodeHeader hash block.signature ++
          block.layers.flatMap encodeLayer)).val ++ (encodeHeader hash block.signature ++
            block.layers.flatMap encodeLayer)).length)
      obtain rfl := Except.ok.inj (hread.symm.trans hpre)
      rw [hlen] at hsum
      simp only [length_encodeHeader, block.length_body] at hlt hsum
      have hh := Nat.mod_le (64 + (utf8 block.signature.model).length) (2 ^ 32)
      have hb := Nat.mod_le (bodyLen block.signature) (2 ^ 64)
      have hh' := Nat.mod_lt (64 + (utf8 block.signature.model).length)
        (by decide : 0 < 2 ^ 32)
      simp only [encodedLen, HEADER_FIELDS] at hsum ⊢
      omega
    refine ⟨hsize.1, hsize.2, map_stored_iff.mp ?_⟩
    rw [decode_encodeBlock sha hash hf hsize.1 hsize.2] at hd
    obtain rfl := Except.ok.inj hd
    rw [hverify, CacheSignature.compare_ok.mpr rfl] at hb
    obtain rfl := Except.ok.inj hb
    exact hlayers
  · rintro ⟨hname, hmem, hrec⟩
    refine ⟨length_encodeBlock block sha hash, _, decode_encodeBlock sha hash hf hname hmem, rfl,
      ⟨⟨block.signature, block.layers.map stored, hm.stamped⟩, ?_, map_stored_iff.mpr hrec⟩, ?_⟩
    · rw [hverify, CacheSignature.compare_ok.mpr rfl]
      rfl
    · rintro expected hne
      rw [hverify]
      cases hc : expected.compare block.signature .incompatible with
      | ok u => exact absurd (CacheSignature.compare_ok.mp hc) hne
      | error e => exact ⟨e, rfl⟩

/-- A digest that is the same for all bytes. -/
def blankDigest (_ : List UInt8) : Bytes32 := ⟨List.replicate 32 0, rfl⟩

/-- One token of one layer, one head, one element. -/
def oneToken : KvBlock Unit where
  signature := {
    formatVersion := 2
    model := "m"
    nLayers := 1
    nKvHeads := 1
    headDim := 1
    dtype := .F16
    tokens := 1
    layout := ⟨1, none, by decide, nofun⟩ }
  layers := [{
    nKvHeads := 1
    headDim := 1
    vHeadDim := 1
    k := .F16 [1]
    v := .F16 [2]
    positions := 1
    recurrent := none
    same_dtype := rfl }]
  stamped := rfl

/-- A prefix whose body length wraps the sum of the lengths back to the file's own. -/
def wrappingFile : List UInt8 :=
  MAGIC ++ leBytes 4 2 ++ leBytes 4 1 ++ leBytes 8 (2 ^ 64 - 1) ++ List.replicate 32 0

/-- A file of 120 bytes for 121 layers of no tokens. -/
def hollowFile : List UInt8 :=
  MAGIC ++ leBytes 4 2 ++ leBytes 4 64 ++ leBytes 8 0 ++ List.replicate 64 0 ++
    leBytes 4 121 ++ leBytes 4 1 ++ leBytes 4 1 ++ leBytes 4 0 ++ leBytes 4 0 ++ leBytes 4 1 ++
    leBytes 4 0 ++ leBytes 4 0

theorem kv_block_codec_iff (ρ : Type) (sha : List UInt8 → Bytes32) :
    (∀ hash (block : KvBlock ρ), Fits32 block.signature →
      (RoundTrips sha hash block ↔ 64 + (utf8 block.signature.model).length < 2 ^ 32 ∧
        encodedLen block.signature < U64_LIMIT ∧
        ∀ layer ∈ block.layers, layer.recurrent = none)) ∧
    ∀ bytes, Safe (decodeBlock ρ sha bytes) ↔ ¬ Overdeclares bytes ∧ ¬ Overreserves sha bytes :=
  ⟨fun hash block hf => roundTrips_iff sha hash block hf, fun bytes => safe_decodeBlock sha bytes⟩

theorem kv_block_codec_one_token :
    RoundTrips blankDigest (blankDigest []) oneToken ∧
      Safe (decodeBlock Unit blankDigest [0]) := by
  have hiff := kv_block_codec_iff Unit blankDigest
  constructor
  · apply (hiff.1 (blankDigest []) oneToken ⟨by decide, by decide, by decide, by decide, by decide,
      nofun⟩).mpr
    exact ⟨by decide, by decide, by simp [oneToken]⟩
  · apply (hiff.2 [0]).mpr
    constructor
    · rintro ⟨pre, hpre, -⟩
      cases hpre
    · rintro ⟨pre, h, hpre, -⟩
      cases hpre

set_option maxRecDepth 2000 in
theorem kv_block_codec_unsafe :
    decodeBlock Unit blankDigest wrappingFile = .error (.hazard .overflow) ∧
      decodeBlock Unit blankDigest hollowFile = .error (.hazard .reserve) := by
  constructor
  · rfl
  · rfl

end Frink.KvDisk
