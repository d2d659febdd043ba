import Mathlib

/-! # GGUF metadata values and tensor descriptors

The values of the key-value header, the tensor element types with their wire tags and block
layouts, and the size a descriptor declares. Floats are their bit patterns.
-/

namespace Frink.Gguf

def USIZE_LIMIT : ℕ := 2 ^ 64

inductive GgufValue where
  | u8 (v : BitVec 8)
  | i8 (v : BitVec 8)
  | u16 (v : BitVec 16)
  | i16 (v : BitVec 16)
  | u32 (v : BitVec 32)
  | i32 (v : BitVec 32)
  | f32 (bits : BitVec 32)
  | bool (v : Bool)
  | string (s : String)
  | u64 (v : BitVec 64)
  | i64 (v : BitVec 64)
  | f64 (bits : BitVec 64)
  | array (items : List GgufValue)

namespace GgufValue

def asU64 : GgufValue → Option ℕ
  | u8 v => some v.toNat
  | u16 v => some v.toNat
  | u32 v => some v.toNat
  | u64 v => some v.toNat
  | i32 v => if 0 ≤ v.toInt then some v.toNat else none
  | i64 v => if 0 ≤ v.toInt then some v.toNat else none
  | _ => none

end GgufValue

abbrev Metadata := AList fun _ : String => GgufValue

inductive GgmlType where
  | F32 | F16 | Q4_0 | Q4_1 | Q5_0 | Q5_1 | Q8_0 | Q8_1 | Q2K | Q3K | Q4K | Q5K | Q6K | BF16
  | IQ4NL | IQ4XS | IQ1S | IQ2XXS | IQ3XXS | IQ2XS | IQ2S | IQ3S | IQ1M | MXFP4 | I32
  | TQ1_0 | TQ2_0 | NVFP4 | Q1_0 | Q2_0 | PQ2_0 | PTQ1_0
  | Other (tag : BitVec 32)
  deriving DecidableEq

def GGML_TYPE_TAGS : List (ℕ × GgmlType) :=
  [(0, .F32), (1, .F16), (2, .Q4_0), (3, .Q4_1), (6, .Q5_0), (7, .Q5_1), (8, .Q8_0), (9, .Q8_1),
    (10, .Q2K), (11, .Q3K), (12, .Q4K), (13, .Q5K), (14, .Q6K), (16, .IQ2XXS), (17, .IQ2XS),
    (18, .IQ3XXS), (19, .IQ1S), (20, .IQ4NL), (21, .IQ3S), (22, .IQ2S), (23, .IQ4XS), (26, .I32),
    (29, .IQ1M), (30, .BF16), (34, .TQ1_0), (35, .TQ2_0), (39, .MXFP4), (40, .NVFP4), (41, .Q1_0),
    (42, .Q2_0), (142, .PQ2_0), (143, .PTQ1_0)]

namespace GgmlType

def fromTag (tag : ℕ) : GgmlType :=
  match GGML_TYPE_TAGS.find? fun row => row.1 == tag with
  | some (_, ty) => ty
  | none => Other (BitVec.ofNat 32 tag)

def toTag : GgmlType → ℕ
  | Other tag => tag.toNat
  | named =>
      match GGML_TYPE_TAGS.find? fun row => row.2 == named with
      | some (tag, _) => tag
      | none => 2 ^ 32 - 1

/-- Bytes per quantization block, and elements per block. -/
def blockLayout : GgmlType → ℕ × ℕ
  | F32 => (4, 1)
  | F16 => (2, 1)
  | BF16 => (2, 1)
  | Q4_0 => (18, 32)
  | Q4_1 => (20, 32)
  | Q5_0 => (22, 32)
  | Q5_1 => (24, 32)
  | Q8_0 => (34, 32)
  | Q8_1 => (36, 32)
  | Q2K => (84, 256)
  | Q3K => (110, 256)
  | Q4K => (144, 256)
  | Q5K => (176, 256)
  | Q6K => (210, 256)
  | IQ4NL => (18, 32)
  | IQ4XS => (136, 256)
  | IQ1S => (50, 256)
  | IQ2XXS => (66, 256)
  | IQ3XXS => (98, 256)
  | IQ2XS => (74, 256)
  | IQ2S => (82, 256)
  | IQ3S => (110, 256)
  | IQ1M => (56, 256)
  | MXFP4 => (17, 32)
  | I32 => (4, 1)
  | TQ1_0 => (54, 256)
  | PQ2_0 => (34, 128)
  | PTQ1_0 => (28, 128)
  | TQ2_0 => (66, 256)
  | NVFP4 => (36, 64)
  | Q1_0 => (18, 128)
  | Q2_0 => (18, 64)
  | Other _ => (0, 1)

theorem fromTag_toTag {t : GgmlType} (h : t.blockLayout.1 ≠ 0) : fromTag t.toTag = t := by
  cases t with
  | Other tag => exact absurd rfl h
  | _ => rfl

theorem toTag_lt {t : GgmlType} (h : t.blockLayout.1 ≠ 0) : t.toTag < 256 := by
  cases t with
  | Other tag => exact absurd rfl h
  | _ => decide

/-- An element takes an eighth of a byte at least, and a block holds few elements. -/
theorem blockLayout_dense {t : GgmlType} (h : t.blockLayout.1 ≠ 0) :
    0 < t.blockLayout.2 ∧ t.blockLayout.2 ≤ 256 ∧ t.blockLayout.2 ≤ 8 * t.blockLayout.1 := by
  cases t with
  | Other tag => exact absurd rfl h
  | _ => decide

end GgmlType

/-- The declared element count; `none` when the fold does not fit an address. -/
def elementCount (shape : List (BitVec 64)) : Option ℕ :=
  shape.foldlM (fun n dim =>
    if n * dim.toNat < USIZE_LIMIT then some (n * dim.toNat) else none) 1

structure TensorInfo where
  name : String
  shape : List (BitVec 64)
  dtype : GgmlType
  offset : BitVec 64

/-- Size on disk; `none` for an element type whose block layout is not known. -/
def byteLen (shape : List (BitVec 64)) (dtype : GgmlType) : Option ℕ :=
  let (blockBytes, blockElems) := dtype.blockLayout
  if blockBytes = 0 then none
  else do
    let n ← elementCount shape
    let len := n / blockElems * blockBytes
    if len < USIZE_LIMIT then some len else none

/-- One tensor's header entry, declared before any bytes are written. -/
structure TensorPlan where
  name : String
  shape : List (BitVec 64)
  dtype : GgmlType
  byteLen : ℕ

/-- A declared size bounds the element count that the reader finds plausible. -/
theorem elementCount_of_byteLen {shape : List (BitVec 64)} {dtype : GgmlType} {len : ℕ}
    (h : byteLen shape dtype = some len) :
    dtype.blockLayout.1 ≠ 0 ∧ len < USIZE_LIMIT ∧
      ∃ n, elementCount shape = some n ∧ n < 8 * len + 256 := by
  unfold byteLen at h
  dsimp only at h
  split at h
  · cases h
  rename_i hb
  obtain ⟨hpos, hle, hdense⟩ := GgmlType.blockLayout_dense hb
  obtain ⟨n, hn, h⟩ := Option.bind_eq_some_iff.mp h
  split at h
  swap
  · cases h
  rename_i hlt
  rw [Option.some.injEq] at h
  subst h
  refine ⟨hb, hlt, n, hn, ?_⟩
  have hq : n < (n / dtype.blockLayout.2 + 1) * dtype.blockLayout.2 := by
    rw [Nat.mul_comm]
    exact Nat.lt_mul_div_succ n hpos
  have hm : n / dtype.blockLayout.2 * dtype.blockLayout.2 ≤
      n / dtype.blockLayout.2 * (8 * dtype.blockLayout.1) := Nat.mul_le_mul_left _ hdense
  rw [Nat.add_mul, Nat.one_mul] at hq
  have hc : n / dtype.blockLayout.2 * (8 * dtype.blockLayout.1) =
      8 * (n / dtype.blockLayout.2 * dtype.blockLayout.1) := Nat.mul_left_comm ..
  omega

end Frink.Gguf
