import Frink.KvDisk.Signature

/-! # Block files

One stored block as bytes: a fixed prefix with two lengths and a digest over the
rest, a header with the hash and the shape, and every layer's K and V rows. The
digest is a parameter. Reading stops at the first operation its operands do not
allow, among them room for more layers than the file has bytes.
-/

namespace Frink.KvDisk

open Codec Guarded

def MAGIC : List UInt8 := [0x46, 0x52, 0x58, 0x4B, 0x56, 0x42, 0x4C, 0x4B]
/-- Fixed u32 fields in a header, after the hash. -/
def HEADER_FIELDS : ℕ := 8
/-- Magic, version, header length, body length, digest. -/
def PREFIX_LEN : ℕ := 8 + 4 + 4 + 8 + 32

/-- Thirty-two bytes: a hash or a digest. -/
abbrev Bytes32 := { bytes : List UInt8 // bytes.length = 32 }

abbrev BlockHash := Bytes32

def dtypeCode : KvDtype → ℕ
  | .F32 => 0
  | .F16 => 1

def dtypeFromCode : ℕ → Option KvDtype
  | 0 => some .F32
  | 1 => some .F16
  | _ => none

/-- A window as a number, 0 for none. -/
def windowCode (window : Option ℕ) : ℕ := window.getD 0

def windowFromCode (code : ℕ) : Option ℕ := if code = 0 then none else some code

inductive BlockFormatError where
  | tooShort (len : ℕ)
  | badMagic
  | unsupportedFormat (found : ℕ) (readable : List ℕ)
  | truncated (expected actual : ℕ)
  | checksumMismatch
  | malformed (what : String)
  | unknownDtype (code : ℕ)
  | badLayout (err : BlockLayoutError)
  deriving DecidableEq

/-- The elements at the buffer's own width, bit for bit. -/
def pushLe : KvBuf → List UInt8
  | .F32 v => v.flatMap fun x => leBytes 4 x.toNat
  | .F16 v => v.flatMap fun x => leBytes 2 x.toNat

/-- `count` numbers of `width` bytes each. -/
def chunks (width : ℕ) : ℕ → List UInt8 → List ℕ
  | 0, _ => []
  | count + 1, bytes => fromLe (bytes.take width) :: chunks width count (bytes.drop width)

def readLe (dtype : KvDtype) (bytes : List UInt8) : KvBuf :=
  match dtype with
  | .F32 => .F32 ((chunks 4 (bytes.length / 4) bytes).map (BitVec.ofNat 32))
  | .F16 => .F16 ((chunks 2 (bytes.length / 2) bytes).map (BitVec.ofNat 16))

theorem dtype_readLe (dtype : KvDtype) (bytes : List UInt8) : (readLe dtype bytes).dtype = dtype := by
  cases dtype <;> rfl

section Encode

variable {ρ : Type} (sha : List UInt8 → Bytes32)

/-- The header of a block with this hash and signature. -/
def encodeHeader (hash : BlockHash) (sig : CacheSignature) : List UInt8 :=
  hash.val ++ (leBytes 4 sig.nLayers ++ (leBytes 4 sig.nKvHeads ++ (leBytes 4 sig.headDim ++
    (leBytes 4 sig.tokens ++ (leBytes 4 (dtypeCode sig.dtype) ++ (leBytes 4 sig.layout.blockSize ++
      (leBytes 4 (windowCode sig.layout.slidingWindow) ++ (leBytes 4 (utf8 sig.model).length ++
        utf8 sig.model))))))))

/-- One layer's rows, K then V. -/
def encodeLayer (layer : KvCache ρ) : List UInt8 := pushLe layer.k ++ pushLe layer.v

def encodeBlock (hash : BlockHash) (block : KvBlock ρ) : List UInt8 :=
  let header := encodeHeader hash block.signature
  let body := block.layers.flatMap encodeLayer
  MAGIC ++ (leBytes 4 BLOCK_FORMAT_VERSION ++ (leBytes 4 header.length ++ (leBytes 8 body.length ++
    ((sha (header ++ body)).val ++ (header ++ body)))))

end Encode

/-- Bytes the body of a block with this signature takes. -/
def bodyLen (sig : CacheSignature) : ℕ :=
  sig.tokens * sig.nKvHeads * sig.headDim * sig.dtype.elemBytes * 2 * sig.nLayers

/-- The size of a block file with this signature. -/
def encodedLen (sig : CacheSignature) : ℕ :=
  PREFIX_LEN + (32 + 4 * HEADER_FIELDS + (utf8 sig.model).length) + bodyLen sig

/-- What the fixed prefix declares. -/
structure Prefix where

  version : ℕ
  headerLen : ℕ
  bodyLen : ℕ
  deriving DecidableEq

abbrev Decoding (α : Type) := Result BlockFormatError α

/-- The prefix of a file that is long enough, has the magic and a readable version. -/
def readPrefix (bytes : List UInt8) : Decoding Prefix := do
  ensure (PREFIX_LEN ≤ bytes.length) (.tooShort bytes.length)
  let magic ← slice bytes 0 8
  ensure (magic = MAGIC) .badMagic
  let version ← slice bytes 8 12
  ensure (fromLe version ∈ READABLE_FORMAT_VERSIONS)
    (.unsupportedFormat (fromLe version) READABLE_FORMAT_VERSIONS)
  let headerLen ← slice bytes 12 16
  let bodyLen ← slice bytes 16 24
  .ok ⟨fromLe version, fromLe headerLen, fromLe bodyLen⟩

/-- What the header describes. -/
structure Header where

  hash : BlockHash
  nLayers : ℕ
  nKvHeads : ℕ
  headDim : ℕ
  tokens : ℕ
  dtype : KvDtype
  model : String
  layout : BlockLayout

/-- A u32 field of the header. -/
def headerField (header : List UInt8) (i : ℕ) : Decoding ℕ := do
  let bytes ← slice header (32 + i * 4) (36 + i * 4)
  .ok (fromLe bytes)

def fromUtf8 (bytes : List UInt8) : Option String := String.fromUTF8? ⟨bytes.toArray⟩

/-- The first 32 bytes; no reader gets here with fewer. -/
def readHash (header : List UInt8) : Decoding BlockHash :=
  if h : (header.take 32).length = 32 then .ok ⟨header.take 32, h⟩ else .error (.hazard .slice)

def readHeader (header : List UInt8) : Decoding Header := do
  ensure (32 + 4 * HEADER_FIELDS ≤ header.length) (.malformed "header shorter than its fields")
  let hash ← readHash header
  let nLayers ← headerField header 0
  let nKvHeads ← headerField header 1
  let headDim ← headerField header 2
  let tokens ← headerField header 3
  let dtypeCode ← headerField header 4
  let blockSize ← headerField header 5
  let windowCode ← headerField header 6
  let modelLen ← headerField header 7
  let dtype ← orRefuse (dtypeFromCode dtypeCode) (.unknownDtype dtypeCode)
  ensure (header.length = 32 + 4 * HEADER_FIELDS + modelLen)
    (.malformed "model name length disagrees with header")
  let name ← slice header (32 + 4 * HEADER_FIELDS) header.length
  let model ← orRefuse (fromUtf8 name) (.malformed "model name is not UTF-8")
  ensure (nLayers ≠ 0 ∧ nKvHeads ≠ 0 ∧ headDim ≠ 0) (.malformed "zero layers, heads, or head dim")
  match BlockLayout.new blockSize (windowFromCode windowCode) with
  | .error err => .error (.refused (.badLayout err))
  | .ok layout => .ok { hash, nLayers, nKvHeads, headDim, tokens, dtype, model, layout }

namespace Header

variable {ρ : Type} (h : Header)

/-- Elements of one layer's K or V. -/
def perLayerElems : Decoding ℕ :=
  orRefuse ((checkedMul h.tokens h.nKvHeads).bind (checkedMul · h.headDim))
    (.malformed "layer size overflows")

/-- The body's length as the header has it. -/
def expectedBody (perLayerElems : ℕ) : Decoding ℕ := do
  let rows ← mulU64 2 h.nLayers
  orRefuse ((checkedMul perLayerElems rows).bind (checkedMul · h.dtype.elemBytes))
    (.malformed "body size overflows")

/-- A layer from its two runs of bytes. -/
def readLayer (k v : List UInt8) : Decoding (KvCache ρ) := do
  let buf := readLe h.dtype k
  let width ← mulU64 h.nKvHeads h.headDim
  asserting ((if width = 0 then 0 else buf.len / width) = h.tokens)
  .ok {
    nKvHeads := h.nKvHeads
    headDim := h.headDim
    vHeadDim := h.headDim
    k := buf
    v := readLe h.dtype v
    positions := h.tokens
    recurrent := none
    same_dtype := by rw [dtype_readLe, dtype_readLe] }

/-- The layers of a body, each read at its offset. -/
def readLayers (perLayerElems : ℕ) (body : List UInt8) : ℕ → ℕ → Decoding (List (KvCache ρ))
  | 0, _ => .ok []
  | n + 1, offset => do
    let size ← mulU64 perLayerElems h.dtype.elemBytes
    let middle ← addU64 offset size
    let k ← slice body offset middle
    let stop ← addU64 middle size
    let v ← slice body middle stop
    let layer ← h.readLayer k v
    let rest ← readLayers perLayerElems body n stop
    .ok (layer :: rest)

end Header

structure DecodedBlock (ρ : Type) where

  hash : BlockHash
  block : UnverifiedBlock ρ

/-- The layers of a checked file. -/
def decodeBody (ρ : Type) (fileLen version : ℕ) (h : Header) (body : List UInt8) :
    Decoding (DecodedBlock ρ) := do
  let elems ← h.perLayerElems
  let expected ← h.expectedBody elems
  ensure (expected = body.length) (.malformed "body does not match declared dims")
  reserve fileLen h.nLayers
  let layers ← h.readLayers elems body h.nLayers 0
  .ok ⟨h.hash, some {
      formatVersion := version
      model := h.model
      nLayers := h.nLayers
      nKvHeads := h.nKvHeads
      headDim := h.headDim
      dtype := h.dtype
      tokens := h.tokens
      layout := h.layout }, layers⟩

def decodeBlock (ρ : Type) (sha : List UInt8 → Bytes32) (bytes : List UInt8) :
    Decoding (DecodedBlock ρ) := do
  let pre ← readPrefix bytes
  let head ← addU64 PREFIX_LEN pre.headerLen
  let declared ← addU64 head pre.bodyLen
  ensure (declared = bytes.length) (.truncated declared bytes.length)
  let digest ← slice bytes 24 PREFIX_LEN
  let rest ← slice bytes PREFIX_LEN bytes.length
  ensure ((sha rest).val = digest) .checksumMismatch
  let header ← slice bytes PREFIX_LEN head
  let body ← slice bytes head bytes.length
  let h ← readHeader header
  decodeBody ρ bytes.length pre.version h body

end Frink.KvDisk
