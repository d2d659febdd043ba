import Frink.Library.Codec
import Frink.Library.Lossy
import Frink.Gguf.Value

/-! # The streaming writer

The plan is laid out before the data: a header with every offset, then one tensor's bytes at
a time in plan order, each padded to the alignment.
-/

namespace Frink.Gguf
open Codec

def GGUF_MAGIC : ℕ := 0x46554747

def GGUF_WRITE_VERSION : ℕ := 3

def DEFAULT_ALIGNMENT : ℕ := 32

inductive GgufWriteError where
  | emptyArray (key : String)
  | heterogeneousArray (key first item : String)
  | nestedArray (key : String)
  | badAlignment (declared : ℕ)
  | duplicateTensor (name : String)
  | noDimensions (name : String)
  | outOfOrder (want got : String)
  | wrongLength (name : String) (want got : ℕ)
  | tooManyTensors (name : String)
  | unfinished (left : ℕ) (name : String)
  | pastAddressSpace (name : String)

def nextMultipleOf (n m : ℕ) : ℕ := (n + m - 1) / m * m

def isPowerOfTwo (n : ℕ) : Bool := n != 0 && n &&& (n - 1) == 0

/-- The data-section alignment a `general.alignment` value declares. -/
def declaredAlignment (value : Option GgufValue) : Except GgufWriteError ℕ :=
  let declared := (value.bind GgufValue.asU64).getD DEFAULT_ALIGNMENT
  if isPowerOfTwo declared then .ok declared else .error (.badAlignment declared)

def writeString (s : String) : List UInt8 := leBytes 8 (utf8 s).length ++ utf8 s

def valueTag : GgufValue → ℕ
  | .u8 _ => 0
  | .i8 _ => 1
  | .u16 _ => 2
  | .i16 _ => 3
  | .u32 _ => 4
  | .i32 _ => 5
  | .f32 _ => 6
  | .bool _ => 7
  | .string _ => 8
  | .array _ => 9
  | .u64 _ => 10
  | .i64 _ => 11
  | .f64 _ => 12

def variantName : GgufValue → String
  | .u8 _ => "u8"
  | .i8 _ => "i8"
  | .u16 _ => "u16"
  | .i16 _ => "i16"
  | .u32 _ => "u32"
  | .i32 _ => "i32"
  | .f32 _ => "f32"
  | .bool _ => "bool"
  | .string _ => "string"
  | .array _ => "array"
  | .u64 _ => "u64"
  | .i64 _ => "i64"
  | .f64 _ => "f64"

/-- The element tag of an array: its first element's, if every element has it. -/
def elementTag (key : String) : List GgufValue → Except GgufWriteError ℕ
  | [] => .error (.emptyArray key)
  | .array _ :: _ => .error (.nestedArray key)
  | first :: items =>
      match (first :: items).find? fun item => valueTag item != valueTag first with
      | some item => .error (.heterogeneousArray key (variantName first) (variantName item))
      | none => .ok (valueTag first)

mutual

def writeValue (key : String) : GgufValue → Except GgufWriteError (List UInt8)
  | .u8 x => .ok (leBytes 1 x.toNat)
  | .i8 x => .ok (leBytes 1 x.toNat)
  | .u16 x => .ok (leBytes 2 x.toNat)
  | .i16 x => .ok (leBytes 2 x.toNat)
  | .u32 x => .ok (leBytes 4 x.toNat)
  | .i32 x => .ok (leBytes 4 x.toNat)
  | .f32 x => .ok (leBytes 4 x.toNat)
  | .bool x => .ok (leBytes 1 x.toNat)
  | .string s => .ok (writeString s)
  | .u64 x => .ok (leBytes 8 x.toNat)
  | .i64 x => .ok (leBytes 8 x.toNat)
  | .f64 x => .ok (leBytes 8 x.toNat)
  | .array items => do
      let tag ← elementTag key items
      let bytes ← writeItems key items
      .ok (leBytes 4 tag ++ leBytes 8 items.length ++ bytes)

def writeItems (key : String) : List GgufValue → Except GgufWriteError (List UInt8)
  | [] => .ok []
  | item :: items => do
      let bytes ← writeValue key item
      let rest ← writeItems key items
      .ok (bytes ++ rest)

end

def writeEntry (key : String) (value : GgufValue) : Except GgufWriteError (List UInt8) := do
  let bytes ← writeValue key value
  .ok (writeString key ++ leBytes 4 (valueTag value) ++ bytes)

def writeEntries : List (Sigma fun _ : String => GgufValue) →
    Except GgufWriteError (List UInt8)
  | [] => .ok []
  | ⟨key, value⟩ :: entries => do
      let bytes ← writeEntry key value
      let rest ← writeEntries entries
      .ok (bytes ++ rest)

/-- One descriptor; the count of dimensions is a 32-bit field. -/
def writeDescriptor (t : TensorPlan) (offset : ℕ) : List UInt8 :=
  writeString t.name ++ leBytes 4 t.shape.length ++
    t.shape.flatMap (fun dim => leBytes 8 dim.toNat) ++ leBytes 4 t.dtype.toTag ++ leBytes 8 offset

/-- Every descriptor, each tensor at the next aligned offset. -/
def writeDescriptors (alignment : ℕ) : List TensorPlan → ℕ → Except GgufWriteError (List UInt8)
  | [], _ => .ok []
  | t :: plan, offset => do
      let next := nextMultipleOf (offset + t.byteLen) alignment
      if offset + t.byteLen < USIZE_LIMIT ∧ next < USIZE_LIMIT then do
        let rest ← writeDescriptors alignment plan next
        .ok (writeDescriptor t offset ++ rest)
      else .error (.pastAddressSpace t.name)

/-- A plan has dimensions and no name twice. -/
def checkPlan : List String → List TensorPlan → Except GgufWriteError Unit
  | _, [] => .ok ()
  | seen, t :: plan =>
      if t.shape.isEmpty then .error (.noDimensions t.name)
      else if t.name ∈ seen then .error (.duplicateTensor t.name)
      else checkPlan (t.name :: seen) plan

def pad (bytes : List UInt8) (alignment : ℕ) : List UInt8 :=
  bytes ++ List.replicate (nextMultipleOf bytes.length alignment - bytes.length) 0

/-- The complete header, padded up to the data section. -/
def encodeHeader (metadata : Metadata) (plan : List TensorPlan) :
    Except GgufWriteError (List UInt8) := do
  let alignment ← declaredAlignment (metadata.lookup "general.alignment")
  checkPlan [] plan
  let entries ← writeEntries metadata.entries
  let descriptors ← writeDescriptors alignment plan 0
  .ok (pad (leBytes 4 GGUF_MAGIC ++ leBytes 4 GGUF_WRITE_VERSION ++ leBytes 8 plan.length ++
    leBytes 8 metadata.entries.length ++ entries ++ descriptors) alignment)

/-- `written` is the offset of the tensor expected next. -/
structure GgufWriter where
  out : List UInt8
  alignment : ℕ
  plan : List TensorPlan
  next : ℕ
  written : ℕ

namespace GgufWriter

def create (metadata : Metadata) (plan : List TensorPlan) : Except GgufWriteError GgufWriter := do
  let alignment ← declaredAlignment (metadata.lookup "general.alignment")
  let buf ← encodeHeader metadata plan
  .ok ⟨buf, alignment, plan, 0, 0⟩

variable (w : GgufWriter)

/-- Append one tensor's bytes, in plan order and as long as planned. -/
def writeTensor (name : String) (bytes : List UInt8) : Except GgufWriteError GgufWriter :=
  match w.plan[w.next]? with
  | none => .error (.tooManyTensors name)
  | some planned =>
      if planned.name ≠ name then .error (.outOfOrder planned.name name)
      else if planned.byteLen ≠ bytes.length then
        .error (.wrongLength name planned.byteLen bytes.length)
      else
        let last := w.written + bytes.length
        let padded := nextMultipleOf last w.alignment
        .ok { w with
          out := w.out ++ bytes ++ List.replicate (padded - last) 0
          written := padded
          next := w.next + 1 }

def finish : Except GgufWriteError (List UInt8) :=
  match w.plan[w.next]? with
  | some t => .error (.unfinished (w.plan.length - w.next) t.name)
  | none => .ok w.out

/-- Write the tensors of a plan in order. -/
def writeTensors : GgufWriter → List (TensorPlan × List UInt8) → Except GgufWriteError GgufWriter
  | w, [] => .ok w
  | w, (t, bytes) :: data => do
      let w ← w.writeTensor t.name bytes
      writeTensors w data

end GgufWriter

/-- `create`, `write_tensor` for each planned tensor, `finish`. -/
def writeFile (metadata : Metadata) (plan : List TensorPlan) (data : List (List UInt8)) :
    Except GgufWriteError (List UInt8) := do
  let w ← GgufWriter.create metadata plan
  let w ← w.writeTensors (plan.zip data)
  w.finish

end Frink.Gguf
