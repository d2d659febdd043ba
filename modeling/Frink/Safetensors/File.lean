import Frink.Gguf.Reader
import Frink.Library.Guarded
import Frink.Library.Keyed
import Frink.Library.Tiles
import Frink.Library.Utf8
import Frink.Decode.Text

/-! # Safetensors files

Eight bytes of header length, a JSON header that gives each tensor's dtype, shape and
byte range, and the tensors' bytes. The JSON reader is a parameter; operations that may
overflow and slices that may be out of range are explicit.
-/

namespace Frink.Safetensors

open Codec Decode Guarded
open Gguf (Mmap)

def HEADER_LEN_BYTES : ℕ := 8

def MAX_HEADER_SIZE : ℕ := 100000000

inductive SafetensorsDtype where
  | bool | u8 | i8 | i16 | u16 | i32 | u32 | i64 | u64 | f16 | bf16 | f32 | f64
  deriving DecidableEq

/-- `ε` is the JSON reader's own error. -/
inductive SafetensorsError (ε : Type) where
  | headerTooSmall
  | headerTooLarge (len : ℕ)
  | truncatedHeader (headerEnd fileLen : ℕ)
  | invalidHeaderUtf8 (e : Utf8Error)
  | invalidHeaderJson (e : ε)
  | unknownDtype (tag : Text)
  | invalidOffsets (name : Text) (offsets : UInt64 × UInt64)
  | sizeMismatch (name : Text) (expected span : ℕ)
  | implausibleShape (name : Text) (shape : List UInt64)
  | incompleteBuffer (dataLen claimed : ℕ)
  | tensorNotFound (name : Text)

namespace SafetensorsDtype

/-- The dtype of a tag, if it is one of those supported. -/
def tagged (tag : Text) : Option SafetensorsDtype :=
  if tag = "BOOL".toList then some .bool
  else if tag = "U8".toList then some .u8
  else if tag = "I8".toList then some .i8
  else if tag = "I16".toList then some .i16
  else if tag = "U16".toList then some .u16
  else if tag = "I32".toList then some .i32
  else if tag = "U32".toList then some .u32
  else if tag = "I64".toList then some .i64
  else if tag = "U64".toList then some .u64
  else if tag = "F16".toList then some .f16
  else if tag = "BF16".toList then some .bf16
  else if tag = "F32".toList then some .f32
  else if tag = "F64".toList then some .f64
  else none

def fromTag {ε : Type} (tag : Text) : Result (SafetensorsError ε) SafetensorsDtype :=
  orRefuse (tagged tag) (.unknownDtype tag)

/-- Bytes per element. -/
def byteSize : SafetensorsDtype → ℕ
  | .bool | .u8 | .i8 => 1
  | .i16 | .u16 | .f16 | .bf16 => 2
  | .i32 | .u32 | .f32 => 4
  | .i64 | .u64 | .f64 => 8

theorem byteSize_pos (dtype : SafetensorsDtype) : 0 < dtype.byteSize := by
  cases dtype <;> decide

end SafetensorsDtype

structure RawTensorInfo where
  dtype : Text
  shape : List UInt64
  dataOffsets : UInt64 × UInt64

def RawTensorInfo.span (info : RawTensorInfo) : ℕ × ℕ :=
  (info.dataOffsets.1.toNat, info.dataOffsets.2.toNat)

structure TensorInfo where
  name : Text
  dtype : SafetensorsDtype
  shape : List UInt64
  dataOffsets : UInt64 × UInt64

def TensorInfo.span (info : TensorInfo) : ℕ × ℕ :=
  (info.dataOffsets.1.toNat, info.dataOffsets.2.toNat)

/-- A JSON object; its keys are unique. -/
structure JsonMap (V : Type) where
  entries : List (Text × V)
  unique : Keyed.Functional entries

/-- The JSON reader: the object a header parses to, and what its values convert to. -/
structure SerdeJson (V ε : Type) where
  fromStr : Text → Except ε (JsonMap V)
  metadata : V → Except ε (List (Text × Text))
  rawTensorInfo : V → Except ε RawTensorInfo

def METADATA_KEY : Text := "__metadata__".toList

/-- The entries left once the metadata is taken out. -/
def JsonMap.tensorEntries {V : Type} (raw : JsonMap V) : List (Text × V) :=
  Keyed.erase METADATA_KEY raw.entries

def foldShapeFrom : ℕ → List UInt64 → Option ℕ
  | n, [] => some n
  | n, dim :: shape => (checkedMul n dim.toNat).bind fun m => foldShapeFrom m shape

/-- The element count of a shape, unless folding it leaves 64 bits. -/
def foldShape (shape : List UInt64) : Option ℕ := foldShapeFrom 1 shape

structure SafetensorsFile where
  metadata : Option (List (Text × Text))
  tensors : List TensorInfo
  mmap : Mmap
  dataStart : ℕ

variable {V ε : Type} (json : SerdeJson V ε)

/-- A step of the JSON reader. -/
def orInvalidJson {α : Type} (x : Except ε α) : Result (SafetensorsError ε) α :=
  x.mapError fun e => .refused (.invalidHeaderJson e)

def orInvalidUtf8 {α : Type} (x : Except Utf8Error α) : Result (SafetensorsError ε) α :=
  x.mapError fun e => .refused (.invalidHeaderUtf8 e)

/-- The length of the header and its bytes. -/
def readHeader (mmap : Mmap) : Result (SafetensorsError ε) (ℕ × List UInt8) := do
  ensure (HEADER_LEN_BYTES ≤ mmap.bytes.length) .headerTooSmall
  let lenBytes ← slice mmap.bytes 0 HEADER_LEN_BYTES
  let headerLen := fromLe lenBytes
  ensure (headerLen ≤ MAX_HEADER_SIZE) (.headerTooLarge headerLen)
  let claimed ← addU64 HEADER_LEN_BYTES headerLen
  let headerEnd ← orRefuse
    ((checkedAdd HEADER_LEN_BYTES headerLen).filter (· ≤ mmap.bytes.length))
    (.truncatedHeader claimed mmap.bytes.length)
  let header ← slice mmap.bytes HEADER_LEN_BYTES headerEnd
  .ok (headerEnd, header)

def parseMetadata (raw : JsonMap V) :
    Result (SafetensorsError ε) (Option (List (Text × Text))) :=
  match Keyed.get raw.entries METADATA_KEY with
  | some v => do
      let metadata ← orInvalidJson (json.metadata v)
      .ok (some metadata)
  | none => .ok none

def parseEntry (entry : Text × V) : Except ε (Text × RawTensorInfo) := do
  let info ← json.rawTensorInfo entry.2
  .ok (entry.1, info)

def parseEntries (raw : JsonMap V) : Result (SafetensorsError ε) (List (Text × RawTensorInfo)) :=
  orInvalidJson (raw.tensorEntries.mapM (parseEntry json))

/-- Checks the tensors in turn against where the one before ended, and says where the last one
ends. -/
def readTensors : ℕ → List (Text × RawTensorInfo) →
    Result (SafetensorsError ε) (List TensorInfo × ℕ)
  | runningEnd, [] => .ok ([], runningEnd)
  | runningEnd, (name, info) :: entries => do
      let dtype ← SafetensorsDtype.fromTag info.dtype
      ensure (info.span.1 = runningEnd ∧ info.span.1 ≤ info.span.2)
        (.invalidOffsets name info.dataOffsets)
      let expectedBytes ← orRefuse
        ((foldShape info.shape).bind fun n => checkedMul n dtype.byteSize)
        (.implausibleShape name info.shape)
      let spanBytes ← subU64 info.span.2 info.span.1
      ensure (spanBytes = expectedBytes) (.sizeMismatch name expectedBytes spanBytes)
      let (tensors, last) ← readTensors info.span.2 entries
      .ok ({ name, dtype, shape := info.shape, dataOffsets := info.dataOffsets } :: tensors, last)

namespace SafetensorsFile

def parse (mmap : Mmap) : Result (SafetensorsError ε) SafetensorsFile := do
  let (headerEnd, header) ← readHeader mmap
  let headerStr ← orInvalidUtf8 (fromUtf8 header.length header)
  let raw ← orInvalidJson (json.fromStr headerStr)
  let metadata ← parseMetadata json raw
  let entries ← parseEntries json raw
  let (tensors, runningEnd) ← readTensors 0 (Tiles.sortBySpan (fun e => e.2.span) entries)
  let dataLen ← subU64 mmap.bytes.length headerEnd
  ensure (runningEnd = dataLen) (.incompleteBuffer dataLen runningEnd)
  .ok { metadata, tensors, mmap, dataStart := headerEnd }

variable (file : SafetensorsFile)

def tensorInfo (name : Text) : Option TensorInfo := file.tensors.find? (·.name == name)

def tensorRange (name : Text) : Result (SafetensorsError ε) (ℕ × ℕ) := do
  let info ← orRefuse (file.tensorInfo name) (.tensorNotFound name)
  let start ← addU64 file.dataStart info.span.1
  let stop ← addU64 file.dataStart info.span.2
  asserting (start ≤ stop ∧ stop ≤ file.mmap.bytes.length)
  .ok (start, stop)

def tensorBytes (name : Text) : Result (SafetensorsError ε) (List UInt8) := do
  let range ← file.tensorRange name
  slice file.mmap.bytes range.1 range.2

end SafetensorsFile

end Frink.Safetensors
