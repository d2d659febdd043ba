import Frink.Gguf.Writer

/-! # The reader

A parsed file keeps the mapped bytes, and a tensor's range is checked against them when it is
asked for. Every count and length comes off the wire, so it is compared with what is left.
-/

namespace Frink.Gguf
open Codec

inductive GgufError where
  | unexpectedEof
  | nestingTooDeep
  | badMagic (magic : ℕ)
  | unsupportedVersion (version : ℕ)
  | unknownValueType (tag : ℕ)
  | tensorNotFound (name : String)
  | truncatedTensor (name : String) (want available : ℕ)
  | unsizedTensor (name : String) (dtype : GgmlType)
  | implausibleShape (name : String) (shape : List (BitVec 64)) (fileLen : ℕ)
  | badAlignment (declared : ℕ)

/-- A mapped file. No allocation or mapping is longer than the largest signed address. -/
structure Mmap where
  bytes : List UInt8
  fits : bytes.length < 2 ^ 63

abbrev Cursor := Reader GgufError

def readUint (n : ℕ) : Cursor ℕ := Reader.le .unexpectedEof n

/-- Refuses a length that is larger than what is left. -/
def checkRemaining (len : ℕ) : Cursor Unit := do
  let remaining ← Reader.remaining
  Reader.ensure (len ≤ remaining) .unexpectedEof

def readGgufString : Cursor String := do
  let len ← readUint 8
  checkRemaining len
  let buf ← Reader.take .unexpectedEof len
  pure (fromUtf8Lossy buf)

def MAX_VALUE_DEPTH : ℕ := 8

/-- `left` is how much deeper arrays may nest. -/
def readGgufValueTyped (left tag : ℕ) : Cursor GgufValue :=
  match tag with
  | 0 => do pure (.u8 (.ofNat 8 (← readUint 1)))
  | 1 => do pure (.i8 (.ofNat 8 (← readUint 1)))
  | 2 => do pure (.u16 (.ofNat 16 (← readUint 2)))
  | 3 => do pure (.i16 (.ofNat 16 (← readUint 2)))
  | 4 => do pure (.u32 (.ofNat 32 (← readUint 4)))
  | 5 => do pure (.i32 (.ofNat 32 (← readUint 4)))
  | 6 => do pure (.f32 (.ofNat 32 (← readUint 4)))
  | 7 => do pure (.bool ((← readUint 1) != 0))
  | 8 => do pure (.string (← readGgufString))
  | 9 =>
      match left with
      | 0 => Reader.fail .nestingTooDeep
      | left + 1 => do
          let elemTag ← readUint 4
          let len ← readUint 8
          checkRemaining len
          let items ← Reader.many (readGgufValueTyped left elemTag) len
          pure (.array items)
  | 10 => do pure (.u64 (.ofNat 64 (← readUint 8)))
  | 11 => do pure (.i64 (.ofNat 64 (← readUint 8)))
  | 12 => do pure (.f64 (.ofNat 64 (← readUint 8)))
  | other => Reader.fail (.unknownValueType other)

def readGgufValue : Cursor GgufValue := do
  let tag ← readUint 4
  readGgufValueTyped MAX_VALUE_DEPTH tag

/-- The key-value header; a key that occurs again replaces its value. -/
def readMetadata : ℕ → Metadata → Cursor Metadata
  | 0, metadata => pure metadata
  | n + 1, metadata => do
      let key ← readGgufString
      let value ← readGgufValue
      readMetadata n (metadata.insert key value)

/-- Every element takes a bit at least. -/
def shapeFits (fileLen : ℕ) (shape : List (BitVec 64)) : Bool :=
  match elementCount shape with
  | some n => n ≤ fileLen * 8
  | none => false

def readTensorInfo (fileLen : ℕ) : Cursor TensorInfo := do
  let name ← readGgufString
  let nDims ← readUint 4
  let shape ← Reader.many (readUint 8) nDims
  let dtypeTag ← readUint 4
  let offset ← readUint 8
  let shape := shape.map (BitVec.ofNat 64)
  Reader.ensure (shapeFits fileLen shape) (.implausibleShape name shape fileLen)
  pure { name, shape, dtype := .fromTag dtypeTag, offset := .ofNat 64 offset }

structure GgufHeader where
  version : ℕ
  metadata : Metadata
  tensors : List TensorInfo

def readHeader (fileLen : ℕ) : Cursor GgufHeader := do
  let magic ← readUint 4
  Reader.ensure (magic = GGUF_MAGIC) (.badMagic magic)
  let version ← readUint 4
  Reader.ensure (2 ≤ version ∧ version ≤ 3) (.unsupportedVersion version)
  let tensorCount ← readUint 8
  let kvCount ← readUint 8
  let metadata ← readMetadata kvCount ∅
  let tensors ← Reader.many (readTensorInfo fileLen) tensorCount
  pure { version, metadata, tensors }

structure GgufFile extends GgufHeader where
  mmap : Mmap
  dataStart : ℕ

namespace GgufFile

def parse (mmap : Mmap) : Except GgufError GgufFile := do
  let (header, rest) ← readHeader mmap.bytes.length mmap.bytes
  let declared :=
    ((header.metadata.lookup "general.alignment").bind GgufValue.asU64).getD DEFAULT_ALIGNMENT
  if isPowerOfTwo declared then
    let pos := mmap.bytes.length - rest.length
    let dataStart := nextMultipleOf pos declared
    if dataStart < USIZE_LIMIT then .ok { header with mmap, dataStart }
    else .error (.badAlignment declared)
  else .error (.badAlignment declared)

variable (file : GgufFile)

def findTensor (name : String) : Option TensorInfo := file.tensors.find? (·.name == name)

/-- The byte range of a tensor, start and end. -/
def tensorRange (name : String) : Except GgufError (ℕ × ℕ) :=
  match file.findTensor name with
  | none => .error (.tensorNotFound name)
  | some info =>
      match byteLen info.shape info.dtype with
      | none => .error (.unsizedTensor name info.dtype)
      | some len =>
          let start := file.dataStart + info.offset.toNat
          if start < USIZE_LIMIT then
            if start + len < USIZE_LIMIT ∧ start + len ≤ file.mmap.bytes.length then
              .ok (start, start + len)
            else .error (.truncatedTensor name len (file.mmap.bytes.length - start))
          else .error (.truncatedTensor name len 0)

def tensorBytes (name : String) : Except GgufError (List UInt8) := do
  let (start, stop) ← file.tensorRange name
  .ok ((file.mmap.bytes.drop start).take (stop - start))

end GgufFile

end Frink.Gguf
