import Mathlib
import Frink.KvDisk.Block

/-! # What a block file gives back

A file that was written is read as the block it was written from, and its layers
come back bit for bit.
-/

namespace Frink.KvDisk

open Codec Guarded

variable {ρ : Type}

theorem chunks_flatMap {width : ℕ} {xs : List ℕ} (h : ∀ x ∈ xs, x < 256 ^ width)
    (rest : List UInt8) : chunks width xs.length (xs.flatMap (leBytes width) ++ rest) = xs := by
  induction xs with
  | nil => rfl
  | cons x xs ih =>
    obtain ⟨hx, hxs⟩ := List.forall_mem_cons.mp h
    have htake : ((leBytes width x ++ (xs.flatMap (leBytes width) ++ rest)).take width) =
        leBytes width x := by simp
    have hdrop : ((leBytes width x ++ (xs.flatMap (leBytes width) ++ rest)).drop width) =
        xs.flatMap (leBytes width) ++ rest := by simp
    rw [List.length_cons, List.flatMap_cons, List.append_assoc, chunks, htake, hdrop, ih hxs,
      fromLe_leBytes, Nat.mod_eq_of_lt hx]

theorem length_flatMap_leBytes (width : ℕ) (xs : List ℕ) :
    (xs.flatMap (leBytes width)).length = xs.length * width := by
  simp [List.length_flatMap]

@[simp] theorem length_pushLe (buf : KvBuf) : (pushLe buf).length = buf.len * buf.dtype.elemBytes := by
  cases buf <;> simp [pushLe, KvBuf.len, KvBuf.dtype, KvDtype.elemBytes, List.length_flatMap]

/-- A buffer's bytes read at its own width are the buffer. -/
theorem readLe_pushLe (buf : KvBuf) : readLe buf.dtype (pushLe buf) = buf := by
  cases buf with
  | F32 v =>
    have hlen : (pushLe (.F32 v)).length / 4 = (v.map BitVec.toNat).length := by
      simp [KvBuf.len, KvBuf.dtype, KvDtype.elemBytes]
    have hpush : pushLe (.F32 v) = (v.map BitVec.toNat).flatMap (leBytes 4) ++ [] := by
      simp [pushLe, List.flatMap_map]
    have hlt : ∀ x ∈ v.map BitVec.toNat, x < 256 ^ 4 := by
      simpa using fun (x : BitVec 32) _ => x.isLt
    simp only [KvBuf.dtype, readLe, hlen]
    rw [hpush, chunks_flatMap hlt]
    simp [Function.comp_def]
  | F16 v =>
    have hlen : (pushLe (.F16 v)).length / 2 = (v.map BitVec.toNat).length := by
      simp [KvBuf.len, KvBuf.dtype, KvDtype.elemBytes]
    have hpush : pushLe (.F16 v) = (v.map BitVec.toNat).flatMap (leBytes 2) ++ [] := by
      simp [pushLe, List.flatMap_map]
    have hlt : ∀ x ∈ v.map BitVec.toNat, x < 256 ^ 2 := by
      simpa using fun (x : BitVec 16) _ => x.isLt
    simp only [KvBuf.dtype, readLe, hlen]
    rw [hpush, chunks_flatMap hlt]
    simp [Function.comp_def]

/-- Bytes of one layer's K or V. -/
def layerBytes (sig : CacheSignature) : ℕ :=
  sig.tokens * (sig.nKvHeads * sig.headDim) * sig.dtype.elemBytes

section Encode

variable {sig : CacheSignature} {layer : KvCache ρ} {layers : List (KvCache ρ)}

theorem length_pushLe_k (h : Describes sig layer) : (pushLe layer.k).length = layerBytes sig := by
  rw [length_pushLe, h.k_len, ← KvCache.dtype, h.dtype]
  rfl

theorem length_pushLe_v (h : Describes sig layer) : (pushLe layer.v).length = layerBytes sig := by
  rw [length_pushLe, h.v_len, layer.same_dtype, ← KvCache.dtype, h.dtype]
  rfl

theorem length_encodeLayers (h : ∀ layer ∈ layers, Describes sig layer) :
    (layers.flatMap encodeLayer).length = 2 * layerBytes sig * layers.length := by
  induction layers with
  | nil => simp
  | cons layer layers ih =>
    obtain ⟨hl, hls⟩ := List.forall_mem_cons.mp h
    rw [List.flatMap_cons, List.length_append, ih hls, encodeLayer, List.length_append,
      length_pushLe_k hl, length_pushLe_v hl, List.length_cons, Nat.mul_succ]
    omega

theorem bodyLen_eq (sig : CacheSignature) : bodyLen sig = 2 * layerBytes sig * sig.nLayers := by
  simp only [bodyLen, layerBytes]
  ring

@[simp] theorem length_encodeHeader (hash : BlockHash) (sig : CacheSignature) :
    (encodeHeader hash sig).length = 64 + (utf8 sig.model).length := by
  simp only [encodeHeader, List.length_append, length_leBytes, hash.property]
  omega

variable (block : KvBlock ρ)

theorem KvBlock.measured : Measured block.signature block.signature.model block.signature.layout
    block.layers := fromPayload_ok.mp block.stamped

theorem KvBlock.length_body :
    (block.layers.flatMap encodeLayer).length = bodyLen block.signature := by
  rw [length_encodeLayers block.measured.describes, bodyLen_eq, block.measured.nLayers]

theorem length_encodeBlock (sha : List UInt8 → Bytes32) (hash : BlockHash) :
    (encodeBlock sha hash block).length = encodedLen block.signature := by
  have hsha := (sha (encodeHeader hash block.signature ++ block.layers.flatMap encodeLayer)).property
  simp only [encodeBlock, List.length_append, length_leBytes, hsha, length_encodeHeader,
    block.length_body, encodedLen, MAGIC, PREFIX_LEN, HEADER_FIELDS, List.length_cons,
    List.length_nil]
  omega

end Encode

section Decode

variable {bytes : List UInt8}

/-- A prefix as it is written is read as it was written. -/
theorem readPrefix_encoded (headerLen bodyLen : ℕ) {rest : List UInt8} (hrest : 32 ≤ rest.length) :
    readPrefix (MAGIC ++ (leBytes 4 BLOCK_FORMAT_VERSION ++ (leBytes 4 headerLen ++
      (leBytes 8 bodyLen ++ rest)))) =
      .ok ⟨BLOCK_FORMAT_VERSION, headerLen % 2 ^ 32, bodyLen % 2 ^ 64⟩ := by
  set bytes := MAGIC ++ (leBytes 4 BLOCK_FORMAT_VERSION ++ (leBytes 4 headerLen ++
      (leBytes 8 bodyLen ++ rest))) with hbytes
  have hlen : PREFIX_LEN ≤ bytes.length := by
    simp only [hbytes, List.length_append, length_leBytes, MAGIC, PREFIX_LEN, List.length_cons,
      List.length_nil]
    omega
  have hmagic : (slice bytes 0 8 : Decoding _) = .ok MAGIC := slice_left rfl
  have hversion : (slice bytes 8 12 : Decoding _) = .ok (leBytes 4 BLOCK_FORMAT_VERSION) :=
    slice_append rfl rfl
  have hheader : (slice bytes 12 16 : Decoding _) = .ok (leBytes 4 headerLen) := by
    rw [hbytes, ← List.append_assoc]
    exact slice_append rfl (by simp)
  have hbody : (slice bytes 16 24 : Decoding _) = .ok (leBytes 8 bodyLen) := by
    rw [hbytes, ← List.append_assoc, ← List.append_assoc]
    exact slice_append (by simp [MAGIC]) (by simp)
  unfold readPrefix
  rw [hmagic, hversion, hheader, hbody]
  simp only [bind, Except.bind, fromLe_leBytes]
  rw [ensure_true hlen]
  rfl

/-- The numbers of a header, in their order. -/
def headerNumbers (sig : CacheSignature) : List ℕ :=
  [sig.nLayers, sig.nKvHeads, sig.headDim, sig.tokens, dtypeCode sig.dtype, sig.layout.blockSize,
    windowCode sig.layout.slidingWindow, (utf8 sig.model).length]

theorem encodeHeader_eq (hash : BlockHash) (sig : CacheSignature) :
    encodeHeader hash sig =
      hash.val ++ ((headerNumbers sig).flatMap (leBytes 4) ++ utf8 sig.model) := by
  simp [encodeHeader, headerNumbers]

theorem headerField_encoded {hash : BlockHash} {numbers : List ℕ} {name : List UInt8} {i x : ℕ}
    (hx : numbers[i]? = some x) (hlt : x < 2 ^ 32) :
    headerField (hash.val ++ (numbers.flatMap (leBytes 4) ++ name)) i = .ok x := by
  obtain ⟨hi, rfl⟩ := List.getElem?_eq_some_iff.mp hx
  have hsplit : hash.val ++ (numbers.flatMap (leBytes 4) ++ name) =
      (hash.val ++ (numbers.take i).flatMap (leBytes 4)) ++
        (leBytes 4 numbers[i] ++ ((numbers.drop (i + 1)).flatMap (leBytes 4) ++ name)) := by
    rw [List.append_assoc]
    congr 1
    conv_lhs => rw [← List.take_append_drop i numbers, List.drop_eq_getElem_cons hi,
      List.flatMap_append, List.flatMap_cons]
    rw [List.append_assoc, List.append_assoc]
  have hbefore : 32 + i * 4 = (hash.val ++ (numbers.take i).flatMap (leBytes 4)).length := by
    rw [List.length_append, length_flatMap_leBytes, hash.property, List.length_take,
      Nat.min_eq_left hi.le]
  rw [headerField, hsplit, slice_append hbefore (by simp; omega)]
  simp only [bind, Except.bind, fromLe_leBytes]
  rw [Nat.mod_eq_of_lt (by simpa using hlt)]

theorem dtypeFromCode_dtypeCode (d : KvDtype) : dtypeFromCode (dtypeCode d) = some d := by
  cases d <;> rfl

theorem windowFromCode_windowCode (l : BlockLayout) :
    windowFromCode (windowCode l.slidingWindow) = l.slidingWindow := by
  cases hw : l.slidingWindow with
  | none => rfl
  | some w =>
    have := (l.aligned w hw).1
    rw [windowCode, Option.getD_some, windowFromCode, if_neg (by omega)]

theorem fromUtf8_utf8 (s : String) : fromUtf8 (utf8 s) = some s := by
  rw [fromUtf8, utf8, Array.toArray_toList, String.fromUTF8?, dif_pos s.isValidUTF8]
  rfl

/-- Every dimension of the block fits in 32 bits. -/
structure Fits32 (sig : CacheSignature) : Prop where

  nLayers : sig.nLayers < 2 ^ 32
  nKvHeads : sig.nKvHeads < 2 ^ 32
  headDim : sig.headDim < 2 ^ 32
  tokens : sig.tokens < 2 ^ 32
  blockSize : sig.layout.blockSize < 2 ^ 32
  window : ∀ w, sig.layout.slidingWindow = some w → w < 2 ^ 32

theorem readHeader_encoded {hash : BlockHash} {sig : CacheSignature} (hf : Fits32 sig)
    (hname : (utf8 sig.model).length < 2 ^ 32) (hl : sig.nLayers ≠ 0) (hh : sig.nKvHeads ≠ 0)
    (hw : sig.headDim ≠ 0) :
    readHeader (encodeHeader hash sig) = .ok {
      hash
      nLayers := sig.nLayers
      nKvHeads := sig.nKvHeads
      headDim := sig.headDim
      tokens := sig.tokens
      dtype := sig.dtype
      model := sig.model
      layout := sig.layout } := by
  have hlen := length_encodeHeader hash sig
  have hwindow : windowCode sig.layout.slidingWindow < 2 ^ 32 := by
    cases hw : sig.layout.slidingWindow with
    | none => decide
    | some w => exact hf.window w hw
  have hcode : dtypeCode sig.dtype < 2 ^ 32 := by cases sig.dtype <;> decide
  have hhash : readHash (encodeHeader hash sig) = .ok hash := by
    have htake : (encodeHeader hash sig).take 32 = hash.val := by
      rw [encodeHeader, List.take_left' hash.property]
    unfold readHash
    simp only [htake, hash.property]
    rfl
  have hslice : (slice (encodeHeader hash sig) (32 + 4 * HEADER_FIELDS)
      (encodeHeader hash sig).length : Decoding _) = .ok (utf8 sig.model) := by
    rw [hlen, encodeHeader_eq, ← List.append_assoc]
    refine slice_right ?_ (by simp [HEADER_FIELDS])
    rw [List.length_append, length_flatMap_leBytes, hash.property]
    rfl
  have h0 : headerField (encodeHeader hash sig) 0 = .ok sig.nLayers := by
    rw [encodeHeader_eq]
    exact headerField_encoded rfl hf.nLayers
  have h1 : headerField (encodeHeader hash sig) 1 = .ok sig.nKvHeads := by
    rw [encodeHeader_eq]
    exact headerField_encoded rfl hf.nKvHeads
  have h2 : headerField (encodeHeader hash sig) 2 = .ok sig.headDim := by
    rw [encodeHeader_eq]
    exact headerField_encoded rfl hf.headDim
  have h3 : headerField (encodeHeader hash sig) 3 = .ok sig.tokens := by
    rw [encodeHeader_eq]
    exact headerField_encoded rfl hf.tokens
  have h4 : headerField (encodeHeader hash sig) 4 = .ok (dtypeCode sig.dtype) := by
    rw [encodeHeader_eq]
    exact headerField_encoded rfl hcode
  have h5 : headerField (encodeHeader hash sig) 5 = .ok sig.layout.blockSize := by
    rw [encodeHeader_eq]
    exact headerField_encoded rfl hf.blockSize
  have h6 : headerField (encodeHeader hash sig) 6 =
      .ok (windowCode sig.layout.slidingWindow) := by
    rw [encodeHeader_eq]
    exact headerField_encoded rfl hwindow
  have h7 : headerField (encodeHeader hash sig) 7 = .ok (utf8 sig.model).length := by
    rw [encodeHeader_eq]
    exact headerField_encoded rfl hname
  unfold readHeader
  rw [hhash, h0, h1, h2, h3, h4, h5, h6, h7, hslice]
  simp only [bind, Except.bind, dtypeFromCode_dtypeCode, windowFromCode_windowCode,
    fromUtf8_utf8, orRefuse, BlockLayout.new_self]
  rw [ensure_true (by rw [hlen]; simp [HEADER_FIELDS]), ensure_true (by rw [hlen]; rfl),
    ensure_true ⟨hl, hh, hw⟩]

/-- The header a signature is read back as. -/
def headerOf (hash : BlockHash) (sig : CacheSignature) : Header where
  hash
  nLayers := sig.nLayers
  nKvHeads := sig.nKvHeads
  headDim := sig.headDim
  tokens := sig.tokens
  dtype := sig.dtype
  model := sig.model
  layout := sig.layout

/-- What a file keeps of a layer. -/
def stored (layer : KvCache ρ) : KvCache ρ := { layer with recurrent := none }

variable {hash : BlockHash} {sig : CacheSignature} {layer : KvCache ρ} {layers : List (KvCache ρ)}

theorem readLayer_encoded (hf : Fits32 sig) (hw : 0 < sig.nKvHeads * sig.headDim)
    (hd : Describes sig layer) :
    (headerOf hash sig).readLayer (pushLe layer.k) (pushLe layer.v) = .ok (stored layer) := by
  have hk : readLe sig.dtype (pushLe layer.k) = layer.k := by
    rw [← hd.dtype]
    exact readLe_pushLe layer.k
  have hv : readLe sig.dtype (pushLe layer.v) = layer.v := by
    rw [← hd.dtype, KvCache.dtype, ← layer.same_dtype]
    exact readLe_pushLe layer.v
  have hmul : (mulU64 sig.nKvHeads sig.headDim : Decoding ℕ) = .ok (sig.nKvHeads * sig.headDim) :=
    mulU64_eq_ok.mpr ⟨mul_lt_limit hf.nKvHeads hf.headDim, rfl⟩
  have hassert : (asserting ((if sig.nKvHeads * sig.headDim = 0 then 0
      else layer.k.len / (sig.nKvHeads * sig.headDim)) = sig.tokens) : Decoding Unit) = .ok () := by
    rw [asserting, if_pos]
    rw [if_neg hw.ne', hd.k_len, Nat.mul_div_cancel _ hw]
  simp only [Header.readLayer, headerOf, hk, hv, hmul, bind, Except.bind, hassert]
  congr 1
  ext1
  · exact hd.heads.symm
  · exact hd.width.symm
  · exact hd.vWidth.symm
  · rfl
  · rfl
  · exact hd.positions.symm
  · rfl

/-- Elements of one layer's K or V. -/
def layerElems (sig : CacheSignature) : ℕ := sig.tokens * sig.nKvHeads * sig.headDim

theorem layerElems_mul (sig : CacheSignature) :
    layerElems sig * sig.dtype.elemBytes = layerBytes sig := by
  rw [layerElems, layerBytes, Nat.mul_assoc sig.tokens]

/-- Layer by layer from wherever the earlier ones end. -/
theorem readLayers_encoded (hash : BlockHash) (hf : Fits32 sig) (hw : 0 < sig.nKvHeads * sig.headDim)
    (hd : ∀ layer ∈ layers, Describes sig layer) (done : List UInt8)
    (hmem : (done ++ layers.flatMap encodeLayer).length < U64_LIMIT) :
    (headerOf hash sig).readLayers (layerElems sig) (done ++ layers.flatMap encodeLayer)
      layers.length done.length = .ok (layers.map stored) := by
  induction layers generalizing done with
  | nil => rfl
  | cons layer layers ih =>
    obtain ⟨hl, hls⟩ := List.forall_mem_cons.mp hd
    have hbody : done ++ (layer :: layers).flatMap encodeLayer =
        done ++ (pushLe layer.k ++ (pushLe layer.v ++ layers.flatMap encodeLayer)) := by
      simp [encodeLayer]
    have hk := length_pushLe_k hl
    have hv := length_pushLe_v hl
    rw [hbody] at hmem ⊢
    simp only [List.length_append, hk, hv] at hmem
    have hsize : (mulU64 (layerElems sig) sig.dtype.elemBytes : Decoding ℕ) =
        .ok (layerBytes sig) := by
      rw [mulU64_eq_ok, layerElems_mul]
      exact ⟨by omega, rfl⟩
    have hmiddle : (addU64 done.length (layerBytes sig) : Decoding ℕ) =
        .ok (done.length + layerBytes sig) := addU64_eq_ok.mpr ⟨by omega, rfl⟩
    have hstop : (addU64 (done.length + layerBytes sig) (layerBytes sig) : Decoding ℕ) =
        .ok (done.length + layerBytes sig + layerBytes sig) := addU64_eq_ok.mpr ⟨by omega, rfl⟩
    have hkslice : (slice (done ++ (pushLe layer.k ++ (pushLe layer.v ++
        layers.flatMap encodeLayer))) done.length (done.length + layerBytes sig) : Decoding _) =
        .ok (pushLe layer.k) := slice_append rfl (by rw [hk])
    have hvslice : (slice (done ++ (pushLe layer.k ++ (pushLe layer.v ++
        layers.flatMap encodeLayer))) (done.length + layerBytes sig)
        (done.length + layerBytes sig + layerBytes sig) : Decoding _) = .ok (pushLe layer.v) := by
      rw [← List.append_assoc]
      exact slice_append (by rw [List.length_append, hk]) (by rw [hv])
    have hrest := ih hls (done ++ pushLe layer.k ++ pushLe layer.v) (by
      simp only [List.length_append, hk, hv] at hmem ⊢
      omega)
    simp only [List.append_assoc, List.length_append, hk, hv] at hrest
    rw [Nat.add_assoc] at hvslice hstop
    rw [List.length_cons, Header.readLayers, show (headerOf hash sig).dtype = sig.dtype from rfl]
    simp only [hsize, hmiddle, hkslice, bind, Except.bind, hstop, hvslice,
      readLayer_encoded hf hw hl, hrest, List.map_cons]

theorem decodeBody_encoded (hash : BlockHash) (hf : Fits32 sig) {model : String} {layout : BlockLayout}
    (hm : Measured sig model layout layers) (hmem : bodyLen sig < U64_LIMIT) {fileLen : ℕ}
    (hfile : bodyLen sig ≤ fileLen) :
    decodeBody ρ fileLen sig.formatVersion (headerOf hash sig) (layers.flatMap encodeLayer) =
      .ok ⟨hash, some sig, layers.map stored⟩ := by
  have hw := Nat.mul_pos hm.heads_pos hm.width_pos
  have htokens : 0 < sig.tokens := hm.tokens ▸ layout.blockSize_pos
  have hlayers : 0 < sig.nLayers := hm.nLayers ▸ List.length_pos_iff.mpr hm.layers_ne
  have hbody : (layers.flatMap encodeLayer).length = bodyLen sig := by
    rw [length_encodeLayers hm.describes, bodyLen_eq, hm.nLayers]
  have helems : 0 < layerElems sig :=
    Nat.mul_pos (Nat.mul_pos htokens hm.heads_pos) hm.width_pos
  have hbytes := sig.dtype.elemBytes_pos
  have hprod : layerElems sig * (2 * sig.nLayers) * sig.dtype.elemBytes = bodyLen sig := by
    rw [bodyLen_eq, ← layerElems_mul]
    ring
  have hrows : layerElems sig * (2 * sig.nLayers) ≤ bodyLen sig :=
    hprod ▸ Nat.le_mul_of_pos_right _ hbytes
  have hle : layerElems sig ≤ bodyLen sig :=
    (Nat.le_mul_of_pos_right _ (by omega)).trans hrows
  have hcount : sig.nLayers ≤ bodyLen sig :=
    ((Nat.le_mul_of_pos_left _ (by decide)).trans (Nat.le_mul_of_pos_left _ helems)).trans hrows
  have h1 : (headerOf hash sig).perLayerElems = .ok (layerElems sig) := by
    rw [Header.perLayerElems, orRefuse_eq_ok]
    refine Option.bind_eq_some_iff.mpr ⟨sig.tokens * sig.nKvHeads, ?_, ?_⟩
    · exact checkedMul_eq_some.mpr ⟨mul_lt_limit hf.tokens hf.nKvHeads, rfl⟩
    · exact checkedMul_eq_some.mpr ⟨by
        change layerElems sig < U64_LIMIT
        omega, rfl⟩
  have h2 : (headerOf hash sig).expectedBody (layerElems sig) = .ok (bodyLen sig) := by
    refine bind_eq_ok.mpr ⟨2 * sig.nLayers, ?_, ?_⟩
    · exact mulU64_eq_ok.mpr ⟨by
        have := hf.nLayers
        change 2 * sig.nLayers < 2 ^ 64
        omega, rfl⟩
    · rw [orRefuse_eq_ok]
      refine Option.bind_eq_some_iff.mpr ⟨layerElems sig * (2 * sig.nLayers), ?_, ?_⟩
      · exact checkedMul_eq_some.mpr ⟨by omega, rfl⟩
      · exact checkedMul_eq_some.mpr ⟨by
          change layerElems sig * (2 * sig.nLayers) * sig.dtype.elemBytes < U64_LIMIT
          rwa [hprod], hprod⟩
  have h3 : (reserve fileLen sig.nLayers : Decoding Unit) = .ok () :=
    reserve_eq_ok.mpr (hcount.trans hfile)
  have h4 := readLayers_encoded hash hf hw hm.describes [] (by
    simp only [List.nil_append, hbody]
    exact hmem)
  rw [List.nil_append, List.length_nil, ← hm.nLayers] at h4
  unfold decodeBody
  simp only [h1, h2, bind, Except.bind, hbody,
    show (headerOf hash sig).nLayers = sig.nLayers from rfl, h3, h4]
  rfl

/-- A block's file is read as its hash, its signature and its layers. -/
theorem decode_encodeBlock {block : KvBlock ρ} (sha : List UInt8 → Bytes32) (hash : BlockHash)
    (hf : Fits32 block.signature) (hname : 64 + (utf8 block.signature.model).length < 2 ^ 32)
    (hmem : encodedLen block.signature < U64_LIMIT) :
    decodeBlock ρ sha (encodeBlock sha hash block) =
      .ok ⟨hash, some block.signature, block.layers.map stored⟩ := by
  have hm := block.measured
  set sig := block.signature
  set header := encodeHeader hash sig with hheader
  set body := block.layers.flatMap encodeLayer with hbody
  have hhlen : header.length = 64 + (utf8 sig.model).length := length_encodeHeader hash sig
  have hblen : body.length = bodyLen sig := block.length_body
  have hdigest := (sha (header ++ body)).property
  have htotal : PREFIX_LEN + header.length + body.length < U64_LIMIT := by
    simp only [encodedLen, HEADER_FIELDS] at hmem
    omega
  obtain ⟨front, hfront, hflen⟩ : ∃ front : List UInt8, front = MAGIC ++
      (leBytes 4 BLOCK_FORMAT_VERSION ++ (leBytes 4 header.length ++ leBytes 8 body.length)) ∧
      front.length = 24 := ⟨_, rfl, by simp [MAGIC]⟩
  have hfile : encodeBlock sha hash block =
      front ++ ((sha (header ++ body)).val ++ (header ++ body)) := by
    rw [hfront]
    simp only [encodeBlock, List.append_assoc, ← hbody]
    rfl
  have hlen : (encodeBlock sha hash block).length = PREFIX_LEN + header.length + body.length := by
    rw [hfile]
    simp only [List.length_append, hflen, hdigest, PREFIX_LEN]
    omega
  have hpre : readPrefix (encodeBlock sha hash block) =
      .ok ⟨sig.formatVersion, header.length, body.length⟩ := by
    have h := readPrefix_encoded header.length body.length
      (by simp [hdigest] : 32 ≤ ((sha (header ++ body)).val ++ (header ++ body)).length)
    rw [Nat.mod_eq_of_lt (hhlen ▸ hname), Nat.mod_eq_of_lt (by unfold U64_LIMIT at htotal; omega)] at h
    rw [hm.version, ← h]
    rfl
  have hhead : (addU64 PREFIX_LEN header.length : Decoding ℕ) = .ok (PREFIX_LEN + header.length) :=
    addU64_eq_ok.mpr ⟨by omega, rfl⟩
  have hdeclared : (addU64 (PREFIX_LEN + header.length) body.length : Decoding ℕ) =
      .ok (PREFIX_LEN + header.length + body.length) :=
    addU64_eq_ok.mpr ⟨htotal, rfl⟩
  have hd : (slice (encodeBlock sha hash block) 24 PREFIX_LEN : Decoding _) =
      .ok (sha (header ++ body)).val := by
    rw [hfile]
    exact slice_append hflen.symm (by rw [hdigest]; rfl)
  have hrest : (slice (encodeBlock sha hash block) PREFIX_LEN
      (encodeBlock sha hash block).length : Decoding _) = .ok (header ++ body) := by
    rw [hlen, hfile, ← List.append_assoc]
    exact slice_right (by simp [hflen, hdigest, PREFIX_LEN]) (by simp [Nat.add_assoc])
  have hh : (slice (encodeBlock sha hash block) PREFIX_LEN (PREFIX_LEN + header.length) :
      Decoding _) = .ok header := by
    rw [hfile, ← List.append_assoc]
    exact slice_append (by simp [hflen, hdigest, PREFIX_LEN]) rfl
  have hb : (slice (encodeBlock sha hash block) (PREFIX_LEN + header.length)
      (encodeBlock sha hash block).length : Decoding _) = .ok body := by
    rw [hlen, hfile, ← List.append_assoc, ← List.append_assoc]
    refine slice_right ?_ rfl
    simp only [List.length_append, hflen, hdigest, PREFIX_LEN]
  have hread : readHeader header = .ok (headerOf hash sig) :=
    readHeader_encoded hf (by omega) (by rw [hm.nLayers]; simpa using hm.layers_ne)
      hm.heads_pos.ne' hm.width_pos.ne'
  have hdone := decodeBody_encoded hash hf hm (by omega)
    (by omega : bodyLen sig ≤ PREFIX_LEN + header.length + body.length)
  unfold decodeBlock
  simp only [hpre, hhead, hdeclared, bind, Except.bind, hd, hrest, hh, hb, hread]
  rw [hlen, ensure_true rfl]
  exact hdone

end Decode

end Frink.KvDisk
