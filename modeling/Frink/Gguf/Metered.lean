import Mathlib
import Frink.Library.Guarded
import Frink.Gguf.RoundTrip

/-! # Files nobody wrote

The reader with its reservations, divisions and slices made explicit. Counts are
attacker-chosen, so room is asked for up to a cap and then item by item; with room
for the cap and for three times the file, no file makes the reader go wrong.
-/

namespace Frink.Gguf

open Codec Guarded

/-- Capacity reserved ahead from a count in the header, at most. -/
def PREALLOC_CAP : ℕ := 16 * 1024

namespace Metered

variable (limit : ℕ)

abbrev Cursor := Reader (Fault GgufError)

/-- Room for so many elements. -/
def room (n : ℕ) : Cursor Unit := lift (reserve limit n)

def withCapacity (count : ℕ) : Cursor Unit := room limit (min count PREALLOC_CAP)

def readUint (n : ℕ) : Cursor ℕ := Reader.le (.refused .unexpectedEof) n

def checkRemaining (len : ℕ) : Cursor Unit := do
  let remaining ← Reader.remaining
  Reader.ensure (len ≤ remaining) (.refused .unexpectedEof)

def readGgufString : Cursor String := do
  let len ← readUint 8
  checkRemaining len
  room limit len
  let buf ← Reader.take (.refused .unexpectedEof) len
  room limit (utf8 (fromUtf8Lossy buf)).length
  pure (fromUtf8Lossy buf)

def readGgufValueTyped (left tag : ℕ) : Cursor GgufValue :=
  match tag with
  | 0 => do pure (.u8 (.ofNat 8 (← readUint 1)))
  | 1 => do pure (.i8 (.ofNat 8 (← readUint 1)))
  | 2 => do pure (.u16 (.ofNat 16 (← readUint 2)))
  | 3 => do pure (.i16 (.ofNat 16 (← readUint 2)))
  | 4 => do pure (.u32 (.ofNat 32 (← readUint 4)))
  | 5 => do pure (.i32 (.ofNat 32 (← readUint 4)))
  | 6 => do pure (.f32 (.ofNat 32 (← readUint 4)))
  | 7 => do pure (.bool ((← readUint 1) != 0))
  | 8 => do pure (.string (← readGgufString limit))
  | 9 =>
      match left with
      | 0 => Reader.fail (.refused .nestingTooDeep)
      | left + 1 => do
          let elemTag ← readUint 4
          let len ← readUint 8
          checkRemaining len
          withCapacity limit len
          let items ← collect limit (readGgufValueTyped left elemTag) 0 len
          pure (.array items)
  | 10 => do pure (.u64 (.ofNat 64 (← readUint 8)))
  | 11 => do pure (.i64 (.ofNat 64 (← readUint 8)))
  | 12 => do pure (.f64 (.ofNat 64 (← readUint 8)))
  | other => Reader.fail (.refused (.unknownValueType other))

def readGgufValue : Cursor GgufValue := do
  let tag ← readUint 4
  readGgufValueTyped limit MAX_VALUE_DEPTH tag

def readMetadata : ℕ → Metadata → Cursor Metadata
  | 0, metadata => pure metadata
  | n + 1, metadata => do
      let key ← readGgufString limit
      let value ← readGgufValue limit
      room limit (metadata.insert key value).entries.length
      readMetadata n (metadata.insert key value)

def readTensorInfo (fileLen : ℕ) : Cursor TensorInfo := do
  let name ← readGgufString limit
  let nDims ← readUint 4
  withCapacity limit nDims
  let shape ← collect limit (readUint 8) 0 nDims
  let dtypeTag ← readUint 4
  let offset ← readUint 8
  let shape := shape.map (BitVec.ofNat 64)
  Reader.ensure (shapeFits fileLen shape) (.refused (.implausibleShape name shape fileLen))
  pure { name, shape, dtype := .fromTag dtypeTag, offset := .ofNat 64 offset }

def readHeader (fileLen : ℕ) : Cursor GgufHeader := do
  let magic ← readUint 4
  Reader.ensure (magic = GGUF_MAGIC) (.refused (.badMagic magic))
  let version ← readUint 4
  Reader.ensure (2 ≤ version ∧ version ≤ 3) (.refused (.unsupportedVersion version))
  let tensorCount ← readUint 8
  let kvCount ← readUint 8
  withCapacity limit kvCount
  let metadata ← readMetadata limit kvCount ∅
  withCapacity limit tensorCount
  let tensors ← collect limit (readTensorInfo limit fileLen) 0 tensorCount
  pure { version, metadata, tensors }

def parse (mmap : Mmap) : Result GgufError GgufFile := do
  let (header, rest) ← readHeader limit mmap.bytes.length mmap.bytes
  let declared :=
    ((header.metadata.lookup "general.alignment").bind GgufValue.asU64).getD DEFAULT_ALIGNMENT
  ensure (isPowerOfTwo declared = true) (.badAlignment declared)
  let blocks ← divCeil (mmap.bytes.length - rest.length) declared
  let dataStart ← orRefuse (checkedMul blocks declared) (.badAlignment declared)
  .ok { header with mmap, dataStart }

/-- The checked size of a shape, `none` where it is not known or does not fit. -/
def byteLen (shape : List (BitVec 64)) (dtype : GgmlType) : Result GgufError (Option ℕ) :=
  if dtype.blockLayout.1 = 0 then .ok none
  else
    match elementCount shape with
    | none => .ok none
    | some n => do
        let blocks ← divide n dtype.blockLayout.2
        .ok (checkedMul blocks dtype.blockLayout.1)

/-- The end of a range, if the range lies in the file. -/
def rangeIn (fileLen len : ℕ) (start : Option ℕ) : Option (ℕ × ℕ) :=
  (start.bind fun s => (checkedAdd s len).map (s, ·)).filter (·.2 ≤ fileLen)

def tensorRange (file : GgufFile) (name : String) : Result GgufError (ℕ × ℕ) := do
  let info ← orRefuse (file.findTensor name) (.tensorNotFound name)
  let size ← byteLen info.shape info.dtype
  let len ← orRefuse size (.unsizedTensor name info.dtype)
  let start := checkedAdd file.dataStart info.offset.toNat
  orRefuse (rangeIn file.mmap.bytes.length len start)
    (.truncatedTensor name len ((start.map (file.mmap.bytes.length - ·)).getD 0))

def tensorBytes (file : GgufFile) (name : String) : Result GgufError (List UInt8) := do
  let range ← tensorRange file name
  slice file.mmap.bytes range.1 range.2

section Agree

theorem length_insert_le (metadata : Metadata) (key : String) (value : GgufValue) :
    (metadata.insert key value).entries.length ≤ metadata.entries.length + 1 := by
  have hle := (List.kerase_sublist key metadata.entries).length_le
  show (⟨key, value⟩ :: List.kerase key metadata.entries).length ≤ _
  rw [List.length_cons]
  omega

theorem length_of_take {ε : Type} {e : ε} {len : ℕ} {s buf rest : List UInt8}
    (h : Reader.take e len s = .ok (buf, rest)) : buf.length = len := by
  unfold Reader.take at h
  split at h
  · rename_i hlen
    cases h
    rw [List.length_take, Nat.min_eq_left hlen]
  · cases h

variable {limit} {n : ℕ}

theorem meters_uint (m : ℕ) : Meters n m (readUint m) (Gguf.readUint m) := Meters.le _ m

/-- Once a length is known to be left, the room it takes is there. -/
theorem meters_checked {α : Type} {len k : ℕ} {f : Unit → Cursor α} {r : Gguf.Cursor α}
    (h : len ≤ n → Meters n k (f ()) r) :
    Meters n k (Reader.bind (checkRemaining len) f)
      (Reader.bind (Gguf.checkRemaining len) fun _ => r) := by
  have hpass : ∀ s : List UInt8, len ≤ s.length →
      checkRemaining len s = .ok ((), s) ∧ Gguf.checkRemaining len s = .ok ((), s) :=
    fun s hs => ⟨Reader.ensure_of hs _ s, Reader.ensure_of hs _ s⟩
  have hstop : ∀ s : List UInt8, ¬ len ≤ s.length →
      checkRemaining len s = .error (.refused .unexpectedEof) ∧
        Gguf.checkRemaining len s = .error .unexpectedEof := by
    intro s hs
    constructor
    · show Reader.ensure (len ≤ s.length) _ s = _
      rw [Reader.ensure, if_neg hs]
      rfl
    · show Reader.ensure (len ≤ s.length) _ s = _
      rw [Reader.ensure, if_neg hs]
      rfl
  constructor
  · intro s hs
    unfold Reader.bind
    by_cases hlen : len ≤ s.length
    · rw [(hpass s hlen).1, (hpass s hlen).2]
      exact (h (by omega)).same s hs
    · rw [(hstop s hlen).1, (hstop s hlen).2]
      rfl
  · intro s hs a t hr
    by_cases hlen : len ≤ s.length
    · unfold Reader.bind at hr
      rw [(hpass s hlen).2] at hr
      exact (h (by omega)).takes s hs a t hr
    · unfold Reader.bind at hr
      rw [(hstop s hlen).2] at hr
      cases hr

theorem meters_string (htext : 3 * n ≤ limit) :
    Meters n 8 (readGgufString limit) Gguf.readGgufString := by
  apply (meters_uint 8).andThen
  intro len
  apply meters_checked
  intro hlen
  apply Meters.after_reserve (by omega)
  apply ((Meters.take _ len).mono (Nat.zero_le _)).andThen_of fun _ _ _ => length_of_take
  intro buf hbuf
  have htext' := length_fromUtf8Lossy_le buf
  apply Meters.after_reserve (by omega)
  exact Meters.pure _

theorem meters_withCapacity {α : Type} {count k : ℕ} {f : Unit → Cursor α} {r : Gguf.Cursor α}
    (hcap : PREALLOC_CAP ≤ limit) (h : Meters n k (f ()) r) :
    Meters n k (Reader.bind (withCapacity limit count) f) r := by
  apply Meters.after_reserve _ h
  omega

variable (hcap : PREALLOC_CAP ≤ limit) (htext : 3 * n ≤ limit)
include hcap htext

theorem meters_value (left tag : ℕ) :
    Meters n 1 (readGgufValueTyped limit left tag) (Gguf.readGgufValueTyped left tag) := by
  induction left generalizing tag with
  | zero =>
    match tag with
    | 0 | 1 | 2 | 3 | 4 | 5 | 6 | 7 | 10 | 11 | 12 =>
      rw [readGgufValueTyped, Gguf.readGgufValueTyped]
      exact ((meters_uint _).mono (by decide)).map
    | 8 =>
      rw [readGgufValueTyped, Gguf.readGgufValueTyped]
      exact ((meters_string htext).mono (by decide)).map
    | 9 => exact Meters.fail _
    | other + 13 => exact Meters.fail _
  | succ left ih =>
    match tag with
    | 0 | 1 | 2 | 3 | 4 | 5 | 6 | 7 | 10 | 11 | 12 =>
      rw [readGgufValueTyped, Gguf.readGgufValueTyped]
      exact ((meters_uint _).mono (by decide)).map
    | 8 =>
      rw [readGgufValueTyped, Gguf.readGgufValueTyped]
      exact ((meters_string htext).mono (by decide)).map
    | 9 =>
      rw [readGgufValueTyped, Gguf.readGgufValueTyped]
      apply ((meters_uint 4).mono (by decide)).andThen
      intro elemTag
      apply ((meters_uint 8).mono (by decide)).andThen
      intro len
      apply meters_checked
      intro hlen
      apply Meters.after_reserve (by omega)
      exact ((ih elemTag).collect (by omega) len).map
    | other + 13 => exact Meters.fail _

theorem meters_readValue : Meters n 1 (readGgufValue limit) Gguf.readGgufValue := by
  apply ((meters_uint 4).mono (by decide)).andThen
  intro tag
  exact (meters_value hcap htext MAX_VALUE_DEPTH tag).mono (Nat.zero_le _)

theorem readMetadata_same (count : ℕ) {metadata : Metadata} {s : List UInt8} (hs : s.length ≤ n)
    (hroom : metadata.entries.length + s.length ≤ limit) :
    readMetadata limit count metadata s =
      (Gguf.readMetadata count metadata s).mapError .refused := by
  induction count generalizing metadata s with
  | zero => rfl
  | succ count ih =>
    have hkey := meters_string (n := n) htext
    have hvalue := meters_readValue hcap htext
    rw [readMetadata, Gguf.readMetadata]
    show Reader.bind _ _ s = (Reader.bind _ _ s).mapError _
    rw [Reader.bind, Reader.bind, hkey.same s hs]
    cases hk : Gguf.readGgufString s with
    | error e => rfl
    | ok p =>
      obtain ⟨key, t⟩ := p
      have ht := hkey.takes s hs key t hk
      show Reader.bind _ _ t = (Reader.bind _ _ t).mapError _
      rw [Reader.bind, Reader.bind, hvalue.same t (by omega)]
      cases hv : Gguf.readGgufValue t with
      | error e => rfl
      | ok q =>
        obtain ⟨value, u⟩ := q
        have hu := hvalue.takes t (by omega) value u hv
        have hlen := length_insert_le metadata key value
        have hres : (reserve limit (metadata.insert key value).entries.length : Result GgufError Unit) =
            .ok () := reserve_eq_ok.mpr (by omega)
        show Reader.bind (lift (reserve limit _)) _ u = _
        rw [Reader.bind, lift, hres]
        exact ih (by omega) (by omega)

theorem readMetadata_takes (count : ℕ) {metadata metadata' : Metadata} {s t : List UInt8}
    (hs : s.length ≤ n) (h : Gguf.readMetadata count metadata s = .ok (metadata', t)) :
    t.length ≤ s.length := by
  induction count generalizing metadata s with
  | zero =>
    cases h
    exact Nat.le_refl _
  | succ count ih =>
    obtain ⟨key, u, hu, h⟩ := Reader.bind_eq_ok h
    obtain ⟨value, v, hv, h⟩ := Reader.bind_eq_ok h
    have h₁ := (meters_string htext).takes s hs key u hu
    have h₂ := (meters_readValue hcap htext).takes u (by omega) value v hv
    have h₃ := ih (by omega) h
    omega

theorem meters_metadata (count : ℕ) :
    Meters n 0 (readMetadata limit count ∅) (Gguf.readMetadata count ∅) := by
  constructor
  · intro s hs
    apply readMetadata_same hcap htext count hs
    show 0 + s.length ≤ limit
    omega
  · intro s hs metadata t h
    exact readMetadata_takes hcap htext count hs h

theorem meters_tensorInfo (fileLen : ℕ) :
    Meters n 8 (readTensorInfo limit fileLen) (Gguf.readTensorInfo fileLen) := by
  apply (meters_string htext).andThen
  intro name
  apply ((meters_uint 4).mono (Nat.zero_le _)).andThen
  intro nDims
  apply meters_withCapacity hcap
  apply (((meters_uint 8).mono (by decide)).collect (by omega) nDims).andThen
  intro shape
  apply ((meters_uint 4).mono (Nat.zero_le _)).andThen
  intro dtypeTag
  apply ((meters_uint 8).mono (Nat.zero_le _)).andThen
  intro offset
  apply (Meters.ensure _ _).andThen
  rintro ⟨⟩
  exact Meters.pure _

theorem meters_header (fileLen : ℕ) :
    Meters n 0 (readHeader limit fileLen) (Gguf.readHeader fileLen) := by
  apply ((meters_uint 4).mono (Nat.zero_le _)).andThen
  intro magic
  apply (Meters.ensure _ _).andThen
  rintro ⟨⟩
  apply ((meters_uint 4).mono (Nat.zero_le _)).andThen
  intro version
  apply (Meters.ensure _ _).andThen
  rintro ⟨⟩
  apply ((meters_uint 8).mono (Nat.zero_le _)).andThen
  intro tensorCount
  apply ((meters_uint 8).mono (Nat.zero_le _)).andThen
  intro kvCount
  apply meters_withCapacity hcap
  apply (meters_metadata hcap htext kvCount).andThen
  intro metadata
  apply meters_withCapacity hcap
  exact (((meters_tensorInfo hcap htext fileLen).mono (by decide)).collect (by omega) tensorCount).map

end Agree

section Parse

variable {limit} {mmap : Mmap} {file : GgufFile} {name : String}

theorem limit_eq : U64_LIMIT = USIZE_LIMIT := rfl

/-- With room for the cap and for three times the file, the metered reader is the reader. -/
theorem parse_same (hcap : PREALLOC_CAP ≤ limit) (htext : 3 * mmap.bytes.length ≤ limit) :
    parse limit mmap = (GgufFile.parse mmap).mapError .refused := by
  have hheader := meters_header hcap htext mmap.bytes.length
  unfold parse GgufFile.parse
  rw [hheader.same _ (Nat.le_refl _)]
  cases hr : Gguf.readHeader mmap.bytes.length mmap.bytes with
  | error e => rfl
  | ok p =>
    obtain ⟨header, rest⟩ := p
    simp only [Except.mapError, bind, Except.bind]
    set declared := ((header.metadata.lookup "general.alignment").bind GgufValue.asU64).getD
      DEFAULT_ALIGNMENT
    by_cases hpow : isPowerOfTwo declared = true
    · have hfits := mmap.fits
      have hlt : mmap.bytes.length - rest.length < U64_LIMIT := by
        unfold U64_LIMIT
        omega
      rw [ensure_true hpow, if_pos hpow]
      simp only [divCeil_of_pos (isPowerOfTwo_pos hpow) hlt]
      rw [checkedMul, nextMultipleOf, limit_eq]
      by_cases hstart : (mmap.bytes.length - rest.length + declared - 1) / declared * declared <
          USIZE_LIMIT
      · rw [if_pos hstart, if_pos hstart]
        rfl
      · rw [if_neg hstart, if_neg hstart]
        rfl
    · rw [ensure, if_neg hpow, if_neg hpow]

theorem parse_mmap (h : GgufFile.parse mmap = .ok file) : file.mmap = mmap := by
  unfold GgufFile.parse at h
  obtain ⟨⟨header, rest⟩, -, h⟩ := bind_eq_ok.mp h
  dsimp only at h
  split at h
  · split at h
    · cases h
      rfl
    · cases h
  · cases h

theorem byteLen_same (shape : List (BitVec 64)) (dtype : GgmlType) :
    byteLen shape dtype = .ok (Gguf.byteLen shape dtype) := by
  unfold byteLen Gguf.byteLen
  dsimp only
  split
  · rfl
  rename_i hlayout
  cases elementCount shape with
  | none => rfl
  | some n =>
    dsimp only
    rw [divide_of_pos (GgmlType.blockLayout_dense hlayout).1]
    rfl

theorem tensorRange_same : tensorRange file name = (file.tensorRange name).mapError .refused := by
  unfold tensorRange GgufFile.tensorRange
  cases file.findTensor name with
  | none => rfl
  | some info =>
    simp only [orRefuse, bind, Except.bind, byteLen_same]
    cases Gguf.byteLen info.shape info.dtype with
    | none => rfl
    | some len =>
      dsimp only
      by_cases hstart : file.dataStart + info.offset.toNat < USIZE_LIMIT
      · rw [checkedAdd_of_lt hstart, if_pos hstart, rangeIn, Option.bind_some]
        by_cases hend : file.dataStart + info.offset.toNat + len < USIZE_LIMIT
        · rw [checkedAdd_of_lt hend]
          by_cases hin : file.dataStart + info.offset.toNat + len ≤ file.mmap.bytes.length
          · simp [hend, hin, Except.mapError, Option.filter_some]
          · simp [hin, Except.mapError, Option.filter_some]
        · rw [checkedAdd_of_le (by rw [limit_eq]; omega), if_neg (by omega)]
          rfl
      · rw [checkedAdd_of_le (by rw [limit_eq]; omega), if_neg hstart]
        rfl

/-- What a range that is returned is. -/
theorem tensorRange_ok {start stop : ℕ} (h : file.tensorRange name = .ok (start, stop)) :
    ∃ info len, file.findTensor name = some info ∧ Gguf.byteLen info.shape info.dtype = some len ∧
      start = file.dataStart + info.offset.toNat ∧ stop = start + len ∧
        stop ≤ file.mmap.bytes.length := by
  unfold GgufFile.tensorRange at h
  split at h
  · cases h
  rename_i info hfind
  split at h
  · cases h
  rename_i len hlen
  dsimp only at h
  split at h
  · split at h
    · rename_i hend
      cases h
      exact ⟨info, len, hfind, hlen, rfl, rfl, hend.2⟩
    · cases h
  · cases h

theorem foldlM_product {shape : List (BitVec 64)} {m n : ℕ}
    (h : shape.foldlM (fun n dim =>
      if n * dim.toNat < USIZE_LIMIT then some (n * dim.toNat) else none) m = some n) :
    n = m * (shape.map BitVec.toNat).prod := by
  induction shape generalizing m with
  | nil =>
    cases h
    simp
  | cons dim shape ih =>
    rw [List.foldlM_cons] at h
    obtain ⟨k, hk, h⟩ := Option.bind_eq_some_iff.mp h
    split at hk
    · cases hk
      rw [ih h, List.map_cons, List.prod_cons, Nat.mul_assoc]
    · cases hk

/-- A size that is returned is the product of the dimensions in blocks, as a number of any size. -/
theorem byteLen_exact {shape : List (BitVec 64)} {dtype : GgmlType} {len : ℕ}
    (h : Gguf.byteLen shape dtype = some len) :
    len = (shape.map BitVec.toNat).prod / dtype.blockLayout.2 * dtype.blockLayout.1 := by
  unfold Gguf.byteLen at h
  dsimp only at h
  split at h
  · cases h
  obtain ⟨n, hn, h⟩ := Option.bind_eq_some_iff.mp h
  split at h
  · cases h
    rw [foldlM_product hn, Nat.one_mul]
  · cases h

theorem safe_mapError {ε α : Type} (x : Except ε α) :
    Safe (x.mapError Fault.refused : Result ε α) := by
  cases x with
  | ok a => exact safe_ok a
  | error e => exact safe_refused e

end Parse

end Metered

/-- Room for the cap, or for three times the file where that is more. -/
def roomFor (mmap : Mmap) : ℕ := max PREALLOC_CAP (3 * mmap.bytes.length)

theorem gguf_parse_is_robust (mmap : Mmap) :
    Safe (Metered.parse (roomFor mmap) mmap) ∧
      ∀ file, Metered.parse (roomFor mmap) mmap = .ok file → ∀ name,
        Safe (Metered.tensorBytes file name) ∧
          ∀ start stop, Metered.tensorRange file name = .ok (start, stop) →
            stop ≤ mmap.bytes.length ∧ ∃ info, file.findTensor name = some info ∧
              byteLen info.shape info.dtype = some (stop - start) ∧
              start + (info.shape.map BitVec.toNat).prod / info.dtype.blockLayout.2 *
                info.dtype.blockLayout.1 = stop := by
  have hparse : Metered.parse (roomFor mmap) mmap = (GgufFile.parse mmap).mapError .refused :=
    Metered.parse_same (Nat.le_max_left _ _) (Nat.le_max_right _ _)
  rw [hparse]
  refine ⟨Metered.safe_mapError _, ?_⟩
  intro file hfile name
  have hmmap : file.mmap = mmap := by
    apply Metered.parse_mmap
    exact mapError_eq_ok.mp hfile
  rw [Metered.tensorBytes, Metered.tensorRange_same]
  constructor
  · apply (Metered.safe_mapError _).bind
    rintro ⟨start, stop⟩ hrange
    obtain ⟨info, len, -, -, -, hstop, hin⟩ := Metered.tensorRange_ok (mapError_eq_ok.mp hrange)
    exact safe_slice.mpr ⟨by dsimp only; omega, hin⟩
  · intro start stop hrange
    obtain ⟨info, len, hfind, hlen, -, rfl, hin⟩ :=
      Metered.tensorRange_ok (mapError_eq_ok.mp hrange)
    rw [← hmmap, Nat.add_sub_cancel_left]
    exact ⟨hin, info, hfind, hlen, by rw [Metered.byteLen_exact hlen]⟩

/-- A file with one tensor of two numbers. -/
def vectorFile : Mmap :=
  ⟨leBytes 4 GGUF_MAGIC ++ leBytes 4 3 ++ leBytes 8 1 ++ leBytes 8 0 ++ leBytes 8 1 ++ [119] ++
    leBytes 4 1 ++ leBytes 8 2 ++ leBytes 4 0 ++ leBytes 8 0 ++ List.replicate 7 0 ++
      [1, 2, 3, 4, 5, 6, 7, 8], by decide⟩

set_option maxRecDepth 3000 in
theorem gguf_parse_is_robust_vector :
    ∃ file, Metered.parse (roomFor vectorFile) vectorFile = .ok file ∧
      Metered.tensorRange file "w" = .ok (64, 72) ∧ 72 ≤ vectorFile.bytes.length := by
  refine ⟨_, rfl, rfl, ?_⟩
  exact (((gguf_parse_is_robust vectorFile).2 _ rfl "w").2 64 72 rfl).1

/-- Four header fields: no tensors, and a count of entries that are not there. -/
def countOnly : Mmap :=
  ⟨leBytes 4 GGUF_MAGIC ++ leBytes 4 3 ++ leBytes 8 0 ++ leBytes 8 PREALLOC_CAP, by decide⟩

theorem gguf_parse_outgrows_input :
    countOnly.bytes.length = 24 ∧
      Metered.parse (3 * countOnly.bytes.length) countOnly = .error (.hazard .reserve) := by
  constructor
  · rfl
  · rfl

end Frink.Gguf
