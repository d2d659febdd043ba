import Frink.Slots.Cache

/-! # Slot files

A saved prompt prefix as bytes: a fixed prefix with two lengths and a digest, a
header with the shape and the checkpoint's identity, and the tokens, the logits
and every layer's rows as one stream of 32-bit words. Reading stops at the first
operation its operands do not allow, and asks for room before it holds anything.
-/

namespace Frink.Slots

open Codec Guarded
open KvDisk (KvDtype KvBuf Bytes32 fromUtf8)

def MAGIC : List UInt8 := [0x46, 0x52, 0x58, 0x53, 0x4C, 0x4F, 0x54, 0x31]
def SLOT_FORMAT_VERSION : ℕ := 1
def READABLE_FORMAT_VERSIONS : List ℕ := [1]
/-- Magic, version, header length, body length, digest. -/
def PREFIX_LEN : ℕ := 8 + 4 + 4 + 8 + 32
/-- Fixed u32 fields in the header, before the two strings. -/
def HEADER_FIELDS : ℕ := 9
def DTYPE_F32 : ℕ := 0
def DTYPE_F16 : ℕ := 1
/-- The most bytes that a vector holds. -/
def ISIZE_MAX : ℕ := 2 ^ 63 - 1

def dtypeTag : KvDtype → ℕ
  | .F32 => DTYPE_F32
  | .F16 => DTYPE_F16

/-- What a saved slot is of. -/
@[ext] structure SlotIdentity where

  modelName : String
  nLayers : ℕ
  nKvHeads : ℕ
  headDim : ℕ
  dtype : KvDtype
  fingerprint : String
  deriving DecidableEq

structure IdentityMismatch where

  field : String
  saved : String
  serving : String

namespace SlotIdentity

/-- The fields by name, each in words, from this identity and the serving one. -/
def pairs (self serving : SlotIdentity) : List (String × String × String) :=
  [("model", self.modelName, serving.modelName),
    ("n_layers", self.nLayers.repr, serving.nLayers.repr),
    ("n_kv_heads", self.nKvHeads.repr, serving.nKvHeads.repr),
    ("head_dim", self.headDim.repr, serving.headDim.repr),
    ("kv_dtype", self.dtype.name, serving.dtype.name),
    ("checkpoint", self.fingerprint, serving.fingerprint)]

/-- Names the first field that differs. -/
def comparePairs : List (String × String × String) → Except IdentityMismatch Unit
  | [] => .ok ()
  | (field, saved, serving) :: rest =>
      if saved ≠ serving then .error ⟨field, saved, serving⟩ else comparePairs rest

def compare (self serving : SlotIdentity) : Except IdentityMismatch Unit :=
  comparePairs (self.pairs serving)

end SlotIdentity

/-- The prompt, the logits after it as bits, and one cache a layer. -/
structure SlotPayload (ρ : Type) where

  tokens : List ℕ
  pendingLogits : List (BitVec 32)
  layers : List (KvCache ρ)

/-- A decoded file that is not yet checked against the serving model. -/
structure UnverifiedSlot (ρ : Type) where

  identity : SlotIdentity
  payload : SlotPayload ρ

def UnverifiedSlot.verify {ρ : Type} (self : UnverifiedSlot ρ) (serving : SlotIdentity) :
    Except IdentityMismatch (SlotPayload ρ) := do
  self.identity.compare serving
  .ok self.payload

inductive SlotFormatError where
  | tooShort (len : ℕ)
  | badMagic
  | unsupportedVersion (found : ℕ) (readable : List ℕ)
  | lengthBeyondFile (declared available : ℕ)
  | digestMismatch
  | headerTooShort (len : ℕ)
  | unknownDtype (tag : ℕ)
  | degenerateShape (nKvHeads headDim : ℕ)
  | noLayers
  | bodyLengthDisagrees (declared : ℕ) (computed : String)
  | headerStringsOverrun (why : String)
  | notUtf8 (field : String)
  deriving DecidableEq

section Encode

variable {ρ : Type} (half : HalfConversion) (sha : List UInt8 → Bytes32)

def encodeWords (words : List (BitVec 32)) : List UInt8 :=
  words.flatMap fun word => leBytes 4 word.toNat

/-- One layer's elements, K then V. -/
def layerWords (layer : KvCache ρ) : List (BitVec 32) :=
  layer.k.toF32Vec half ++ layer.v.toF32Vec half

/-- The header's numbers, in their order. -/
def headerNumbers (identity : SlotIdentity) (payload : SlotPayload ρ) (first : KvCache ρ) :
    List ℕ :=
  [payload.layers.length, first.nKvHeads, first.headDim, dtypeTag identity.dtype, first.positions,
    payload.tokens.length, payload.pendingLogits.length, (utf8 identity.modelName).length,
    (utf8 identity.fingerprint).length]

def encodeHeader (identity : SlotIdentity) (payload : SlotPayload ρ) (first : KvCache ρ) :
    List UInt8 :=
  (headerNumbers identity payload first).flatMap (leBytes 4) ++
    (utf8 identity.modelName ++ utf8 identity.fingerprint)

def encodeBody (payload : SlotPayload ρ) : List UInt8 :=
  payload.tokens.flatMap (leBytes 4) ++ (encodeWords payload.pendingLogits ++
    payload.layers.flatMap fun layer => encodeWords (layerWords half layer))

/-- The file of a slot, where the writer's assertions hold and the bytes fit in a vector. -/
def encode (identity : SlotIdentity) (payload : SlotPayload ρ) : Result Empty (List UInt8) :=
  match payload.layers with
  | [] => .error (.hazard .assertion)
  | first :: _ => do
    asserting (∀ l ∈ payload.layers, l.nKvHeads = first.nKvHeads ∧ l.headDim = first.headDim ∧
      l.vHeadDim = first.headDim)
    asserting (∀ l ∈ payload.layers, l.dtype = identity.dtype)
    let header := encodeHeader identity payload first
    let body := encodeBody half payload
    reserve ISIZE_MAX (PREFIX_LEN + header.length + body.length)
    .ok (MAGIC ++ (leBytes 4 SLOT_FORMAT_VERSION ++ (leBytes 4 header.length ++
      (leBytes 8 body.length ++ ((sha (header ++ body)).val ++ (header ++ body))))))

end Encode

abbrev Decoding (α : Type) := Result SlotFormatError α

/-- `n` bytes at `start`, as a number. -/
def readLe (n : ℕ) (bytes : List UInt8) (start : ℕ) : Decoding ℕ := do
  let stop ← addU64 start n
  let part ← slice bytes start stop
  .ok (fromLe part)

def readF32 (bytes : List UInt8) (start : ℕ) : Decoding (BitVec 32) := do
  let bits ← readLe 4 bytes start
  .ok (.ofNat 32 bits)

/-- What the fixed prefix declares. -/
structure Prefix where

  headerLen : ℕ
  bodyLen : ℕ

/-- The prefix of a file that is as long as it declares. -/
def readPrefix (bytes : List UInt8) : Decoding Prefix := do
  ensure (PREFIX_LEN ≤ bytes.length) (.tooShort bytes.length)
  let magic ← slice bytes 0 8
  ensure (magic = MAGIC) .badMagic
  let version ← readLe 4 bytes 8
  ensure (version ∈ READABLE_FORMAT_VERSIONS)
    (.unsupportedVersion version READABLE_FORMAT_VERSIONS)
  let headerLen ← readLe 4 bytes 12
  let bodyLen ← readLe 8 bytes 16
  -- The source adds these two as 128-bit numbers.
  ensure (headerLen + bodyLen = bytes.length - PREFIX_LEN)
    (.lengthBeyondFile (headerLen + bodyLen) (bytes.length - PREFIX_LEN))
  .ok ⟨headerLen, bodyLen⟩

/-- What the header describes. -/
structure Header where

  identity : SlotIdentity
  positions : ℕ
  nPrompt : ℕ
  nLogits : ℕ

def dtypeFromTag : ℕ → Option KvDtype
  | 0 => some .F32
  | 1 => some .F16
  | _ => none

def readHeader (header : List UInt8) : Decoding Header := do
  ensure (HEADER_FIELDS * 4 ≤ header.length) (.headerTooShort header.length)
  let nLayers ← readLe 4 header (0 * 4)
  let nKvHeads ← readLe 4 header (1 * 4)
  let headDim ← readLe 4 header (2 * 4)
  let tag ← readLe 4 header (3 * 4)
  let positions ← readLe 4 header (4 * 4)
  let nPrompt ← readLe 4 header (5 * 4)
  let nLogits ← readLe 4 header (6 * 4)
  let nameLen ← readLe 4 header (7 * 4)
  let fingerprintLen ← readLe 4 header (8 * 4)
  let dtype ← orRefuse (dtypeFromTag tag) (.unknownDtype tag)
  ensure (nLayers ≠ 0) .noLayers
  ensure (nKvHeads ≠ 0 ∧ headDim ≠ 0) (.degenerateShape nKvHeads headDim)
  let strings ← slice header (HEADER_FIELDS * 4) header.length
  let split ← orRefuse (checkedAdd nameLen fingerprintLen)
    (.headerStringsOverrun "lengths overflow")
  ensure (split = strings.length)
    (.headerStringsOverrun "model name + fingerprint do not fill the header")
  let name ← slice strings 0 nameLen
  let modelName ← orRefuse (fromUtf8 name) (.notUtf8 "model name")
  let rest ← slice strings nameLen strings.length
  let fingerprint ← orRefuse (fromUtf8 rest) (.notUtf8 "fingerprint")
  .ok ⟨⟨modelName, nLayers, nKvHeads, headDim, dtype, fingerprint⟩, positions, nPrompt, nLogits⟩

namespace Header

variable (h : Header)

/-- Elements of one row. -/
def perPosition (bodyLen : ℕ) : Decoding ℕ :=
  orRefuse (checkedMul h.identity.nKvHeads h.identity.headDim)
    (.bodyLengthDisagrees bodyLen "layer shape overflows")

/-- The body's length as the header has it. -/
def computed (bodyLen perPosition : ℕ) : Decoding ℕ := do
  let perLayer ← orRefuse ((checkedMul perPosition h.positions).bind (checkedMul · 2))
    (.bodyLengthDisagrees bodyLen "layer size overflows")
  orRefuse ((((checkedMul h.identity.nLayers perLayer).bind (checkedAdd · h.nPrompt)).bind
      (checkedAdd · h.nLogits)).bind (checkedMul · 4))
    (.bodyLengthDisagrees bodyLen "body size overflows")

end Header

section Body

variable {ρ : Type} (half : HalfConversion) (room : ℕ) (body : List UInt8)

/-- `n` words of four bytes from `cursor` on, and where they end. -/
def readMany {α : Type} (read : ℕ → Decoding α) : ℕ → ℕ → Decoding (List α × ℕ)
  | 0, cursor => .ok ([], cursor)
  | n + 1, cursor => do
    let first ← read cursor
    let next ← addU64 cursor 4
    let rest ← readMany read n next
    .ok (first :: rest.1, rest.2)

/-- One position's K and V rows, element by element. -/
def readStep (perPosition kStart vStart position : ℕ) :
    Decoding (List (BitVec 32) × List (BitVec 32)) := do
  let elements ← (List.range perPosition).mapM fun element => do
    let kAt ← fitU64 (kStart + (position * perPosition + element) * 4)
    let k ← readF32 body kAt
    let vAt ← fitU64 (vStart + (position * perPosition + element) * 4)
    let v ← readF32 body vAt
    .ok (k, v)
  .ok (elements.map Prod.fst, elements.map Prod.snd)

/-- Pushes the `n` positions from `position` on, while `held` entries are held elsewhere. -/
def readPositions (perPosition kStart vStart held : ℕ) :
    ℕ → ℕ → KvCache ρ → Decoding (KvCache ρ)
  | 0, _, cache => .ok cache
  | n + 1, position, cache => do
    let step ← readStep body perPosition kStart vStart position
    reserve room (held + (cache.k.len + perPosition) + (cache.v.len + perPosition))
    let cache ← cache.push half step.1 step.2
    readPositions perPosition kStart vStart held n (position + 1) cache

/-- One layer from `cursor` on, and where it ends. -/
def readLayer (h : Header) (perPosition held cursor : ℕ) : Decoding (KvCache ρ × ℕ) := do
  let empty ← (KvCache.new h.identity.nKvHeads h.identity.headDim).withDtype h.identity.dtype
  let vStart ← fitU64 (cursor + perPosition * h.positions * 4)
  -- The two scratch rows, each a vector of 32-bit numbers.
  reserve (ISIZE_MAX / 4) perPosition
  reserve room (held + 2 * perPosition)
  let cache ← readPositions half room body perPosition cursor vStart (held + 2 * perPosition)
    h.positions 0 empty
  let stop ← fitU64 (vStart + perPosition * h.positions * 4)
  .ok (cache, stop)

def readLayers (h : Header) (perPosition : ℕ) : ℕ → ℕ → ℕ → Decoding (List (KvCache ρ))
  | 0, _, _ => .ok []
  | n + 1, held, cursor => do
    let layer ← readLayer half room body h perPosition held cursor
    let rest ← readLayers h perPosition n (held + layer.1.k.len + layer.1.v.len) layer.2
    .ok (layer.1 :: rest)

/-- The payload of a checked file. -/
def decodeBody (ρ : Type) (h : Header) : Decoding (UnverifiedSlot ρ) := do
  let perPosition ← h.perPosition body.length
  let computed ← h.computed body.length perPosition
  ensure (computed = body.length)
    (.bodyLengthDisagrees body.length "counts do not match the body")
  reserve room h.nPrompt
  let tokens ← readMany (readLe 4 body) h.nPrompt 0
  reserve room (h.nPrompt + h.nLogits)
  let pendingLogits ← readMany (readF32 body) h.nLogits tokens.2
  reserve room (h.nPrompt + h.nLogits + h.identity.nLayers)
  let layers ← readLayers half room body h perPosition h.identity.nLayers
    (h.nPrompt + h.nLogits + h.identity.nLayers) pendingLogits.2
  .ok ⟨h.identity, tokens.1, pendingLogits.1, layers⟩

end Body

/-- Reads a slot file with room for so many tokens, logits, layers and elements at a time. -/
def decode (ρ : Type) (half : HalfConversion) (sha : List UInt8 → Bytes32) (room : ℕ)
    (bytes : List UInt8) : Decoding (UnverifiedSlot ρ) := do
  let pre ← readPrefix bytes
  let digest ← slice bytes 24 PREFIX_LEN
  let stop ← addU64 PREFIX_LEN pre.headerLen
  let header ← slice bytes PREFIX_LEN stop
  let body ← slice bytes stop bytes.length
  ensure ((sha (header ++ body)).val = digest) .digestMismatch
  let h ← readHeader header
  decodeBody half room body ρ h

end Frink.Slots
