import Mathlib
import Frink.Safetensors.File

/-! # Which files are accepted

A file is accepted when its tensors' spans, in some order, tile its data and are as long
as their shapes say. The element count is folded from the left, so a shape whose product
leaves 64 bits in front of a zero dimension is refused although it says zero bytes.
-/

namespace Frink.Safetensors

open Codec Decode Guarded Tiles
open Gguf (Mmap)

variable {V ε : Type}

/-- The elements of a shape, in unbounded integers. -/
def elements (shape : List UInt64) : ℕ := (shape.map UInt64.toNat).prod

/-- The product of the dimensions in front of some zero dimension leaves 64 bits. -/
def HugeBeforeZero (shape : List UInt64) : Prop :=
  ∃ before after, shape = before ++ 0 :: after ∧ 2 ^ 64 ≤ elements before

/-- The span is as long as the shape times the width of the dtype, in unbounded integers. -/
def Sized (info : RawTensorInfo) : Prop :=
  ∃ dtype, SafetensorsDtype.tagged info.dtype = some dtype ∧
    info.span.2 = info.span.1 + elements info.shape * dtype.byteSize

section Fold

variable {shape : List UInt64} {n m : ℕ}

@[simp] theorem elements_nil : elements [] = 1 := rfl

@[simp] theorem elements_cons (dim : UInt64) (shape : List UInt64) :
    elements (dim :: shape) = dim.toNat * elements shape := by
  simp [elements]

theorem elements_append (before after : List UInt64) :
    elements (before ++ after) = elements before * elements after := by
  simp [elements]

theorem elements_pos (h : (0 : UInt64) ∉ shape) : 0 < elements shape := by
  induction shape with
  | nil => exact Nat.one_pos
  | cons dim shape ih =>
    rw [List.mem_cons, not_or] at h
    rw [elements_cons]
    apply Nat.mul_pos
    · apply Nat.pos_of_ne_zero
      intro hz
      exact h.1 (UInt64.toNat_inj.mp hz.symm)
    · exact ih h.2

/-- The fold succeeds when the product stays within 64 bits all along. -/
theorem foldShapeFrom_eq_some (hn : n < U64_LIMIT) :
    foldShapeFrom n shape = some m ↔
      (∀ k, n * elements (shape.take k) < U64_LIMIT) ∧ m = n * elements shape := by
  induction shape generalizing n with
  | nil => simp [foldShapeFrom, hn, eq_comm]
  | cons dim shape ih =>
    rw [foldShapeFrom, Option.bind_eq_some_iff]
    constructor
    · rintro ⟨m', hm', h⟩
      obtain ⟨hlt, rfl⟩ := checkedMul_eq_some.mp hm'
      obtain ⟨hall, rfl⟩ := (ih hlt).mp h
      constructor
      · rintro (_ | k)
        · simpa using hn
        · simpa [Nat.mul_assoc] using hall k
      · rw [elements_cons, Nat.mul_assoc]
    · rintro ⟨hall, rfl⟩
      have hlt : n * dim.toNat < U64_LIMIT := by simpa using hall 1
      refine ⟨n * dim.toNat, checkedMul_eq_some.mpr ⟨hlt, rfl⟩, (ih hlt).mpr ⟨?_, ?_⟩⟩
      · intro k
        simpa [Nat.mul_assoc] using hall (k + 1)
      · rw [elements_cons, Nat.mul_assoc]

theorem all_takes_iff :
    (∀ k, elements (shape.take k) < U64_LIMIT) ↔
      elements shape < U64_LIMIT ∧ ¬ HugeBeforeZero shape := by
  constructor
  · intro h
    constructor
    · simpa using h shape.length
    · rintro ⟨before, after, rfl, hhuge⟩
      have := h before.length
      rw [List.take_left' rfl] at this
      exact absurd this (by simpa [U64_LIMIT] using hhuge)
  · rintro ⟨hlt, hplain⟩ k
    have hsplit : elements shape = elements (shape.take k) * elements (shape.drop k) := by
      rw [← elements_append, List.take_append_drop]
    by_cases hz : (0 : UInt64) ∈ shape.drop k
    · obtain ⟨mid, after, hmid, hnot⟩ := List.eq_append_cons_of_mem hz
      have hbefore : elements (shape.take k ++ mid) < U64_LIMIT := by
        by_contra hge
        apply hplain
        refine ⟨shape.take k ++ mid, after, ?_, Nat.le_of_not_lt hge⟩
        rw [List.append_assoc, ← hmid, List.take_append_drop]
      rw [elements_append] at hbefore
      exact (Nat.le_mul_of_pos_right _ (elements_pos hnot)).trans_lt hbefore
    · exact (Nat.le_mul_of_pos_right _ (elements_pos hz)).trans_lt (hsplit ▸ hlt)

theorem foldShape_eq_some :
    foldShape shape = some m ↔
      (elements shape < U64_LIMIT ∧ ¬ HugeBeforeZero shape) ∧ m = elements shape := by
  rw [foldShape, foldShapeFrom_eq_some (by decide), ← all_takes_iff]
  simp only [Nat.one_mul]

/-- The size of a shape in bytes, as it is checked against the span. -/
theorem byteCount_eq_some {dtype : SafetensorsDtype} :
    ((foldShape shape).bind fun n => checkedMul n dtype.byteSize) = some m ↔
      (m < U64_LIMIT ∧ ¬ HugeBeforeZero shape) ∧ m = elements shape * dtype.byteSize := by
  rw [Option.bind_eq_some_iff]
  constructor
  · rintro ⟨n, hn, hm⟩
    obtain ⟨⟨-, hplain⟩, rfl⟩ := foldShape_eq_some.mp hn
    obtain ⟨hlt, rfl⟩ := checkedMul_eq_some.mp hm
    exact ⟨⟨hlt, hplain⟩, rfl⟩
  · rintro ⟨⟨hlt, hplain⟩, rfl⟩
    have hle := Nat.le_mul_of_pos_right (elements shape) dtype.byteSize_pos
    exact ⟨_, foldShape_eq_some.mpr ⟨⟨hle.trans_lt hlt, hplain⟩, rfl⟩,
      checkedMul_eq_some.mpr ⟨hlt, rfl⟩⟩

end Fold

/-- What a checked tensor keeps of its entry. -/
structure Keeps (entry : Text × RawTensorInfo) (tensor : TensorInfo) : Prop where

  name : tensor.name = entry.1
  dtype : SafetensorsDtype.tagged entry.2.dtype = some tensor.dtype
  shape : tensor.shape = entry.2.shape
  span : tensor.span = entry.2.span

  sized : entry.2.span.2 = entry.2.span.1 + elements entry.2.shape * tensor.dtype.byteSize

section Tensors

variable {entries : List (Text × RawTensorInfo)} {tensors : List TensorInfo} {a b : ℕ}

theorem safe_fromTag (tag : Text) :
    Safe (SafetensorsDtype.fromTag tag : Result (SafetensorsError ε) _) := safe_orRefuse _ _

theorem safe_readTensors (a : ℕ) (entries : List (Text × RawTensorInfo)) :
    Safe (readTensors a entries : Result (SafetensorsError ε) _) := by
  induction entries generalizing a with
  | nil => exact safe_ok _
  | cons entry entries ih =>
    obtain ⟨name, info⟩ := entry
    apply (safe_fromTag _).bind
    intro dtype _
    apply (safe_ensure _).bind
    intro _ hchain
    apply (safe_orRefuse _ _).bind
    intro expected _
    have hsub : (subU64 info.span.2 info.span.1 : Result (SafetensorsError ε) ℕ) = .ok _ :=
      subU64_eq_ok.mpr ⟨(ensure_eq_ok.mp hchain).2, rfl⟩
    rw [hsub]
    apply (safe_ok _).bind
    intro span _
    apply (safe_ensure _).bind
    intro _ _
    apply (ih _).bind
    intro _ _
    exact safe_ok _

theorem readTensors_ok (h : (readTensors a entries : Result (SafetensorsError ε) _) =
    .ok (tensors, b)) :
    Runs a (entries.map fun e => e.2.span) b ∧ List.Forall₂ Keeps entries tensors ∧
      ∀ e ∈ entries, ¬ HugeBeforeZero e.2.shape := by
  induction entries generalizing a tensors with
  | nil =>
    cases h
    exact ⟨rfl, .nil, by simp⟩
  | cons entry entries ih =>
    obtain ⟨name, info⟩ := entry
    obtain ⟨dtype, hdtype, h⟩ := bind_eq_ok.mp h
    obtain ⟨_, hchain, h⟩ := bind_eq_ok.mp h
    obtain ⟨expected, hexpected, h⟩ := bind_eq_ok.mp h
    obtain ⟨span, hspan, h⟩ := bind_eq_ok.mp h
    obtain ⟨_, hsame, h⟩ := bind_eq_ok.mp h
    obtain ⟨⟨rest, last⟩, hrest, h⟩ := bind_eq_ok.mp h
    cases h
    obtain ⟨hstart, hle⟩ := ensure_eq_ok.mp hchain
    obtain ⟨⟨-, hplain⟩, hcount⟩ := byteCount_eq_some.mp (orRefuse_eq_ok.mp hexpected)
    obtain ⟨-, hsub⟩ := subU64_eq_ok.mp hspan
    have hsize : span = expected := ensure_eq_ok.mp hsame
    obtain ⟨hruns, hkeeps, hall⟩ := ih hrest
    refine ⟨⟨hstart, hle, hruns⟩, .cons ?_ hkeeps, ?_⟩
    · exact ⟨rfl, orRefuse_eq_ok.mp hdtype, rfl, rfl, by dsimp only at *; omega⟩
    · exact List.forall_mem_cons.mpr ⟨hplain, hall⟩

theorem readTensors_of (hruns : Runs a (entries.map fun e => e.2.span) b)
    (hsized : ∀ e ∈ entries, Sized e.2) (hplain : ∀ e ∈ entries, ¬ HugeBeforeZero e.2.shape) :
    ∃ tensors, (readTensors a entries : Result (SafetensorsError ε) _) = .ok (tensors, b) := by
  induction entries generalizing a with
  | nil =>
    cases hruns
    exact ⟨[], rfl⟩
  | cons entry entries ih =>
    obtain ⟨name, info⟩ := entry
    obtain ⟨⟨dtype, hdtype, hsize⟩, hsized⟩ := List.forall_mem_cons.mp hsized
    obtain ⟨hinfo, hplain⟩ := List.forall_mem_cons.mp hplain
    obtain ⟨hstart, hle, hruns⟩ := hruns
    obtain ⟨tensors, htensors⟩ := ih hruns hsized hplain
    dsimp only at hsize hinfo hstart hle htensors
    have hlt : info.span.2 < U64_LIMIT := info.dataOffsets.2.toNat_lt
    have hcount : ((foldShape info.shape).bind fun n => checkedMul n dtype.byteSize) =
        some (info.span.2 - info.span.1) :=
      byteCount_eq_some.mpr ⟨⟨by omega, hinfo⟩, by omega⟩
    have hfrom : (SafetensorsDtype.fromTag info.dtype : Result (SafetensorsError ε) _) =
        .ok dtype := orRefuse_eq_ok.mpr hdtype
    use ⟨name, dtype, info.shape, info.dataOffsets⟩ :: tensors
    apply bind_eq_ok.mpr
    use dtype, hfrom
    apply bind_eq_ok.mpr
    use (), ensure_eq_ok.mpr ⟨hstart, hle⟩
    apply bind_eq_ok.mpr
    use info.span.2 - info.span.1, orRefuse_eq_ok.mpr hcount
    apply bind_eq_ok.mpr
    use info.span.2 - info.span.1, subU64_eq_ok.mpr ⟨hle, rfl⟩
    apply bind_eq_ok.mpr
    use (), ensure_eq_ok.mpr rfl
    exact bind_eq_ok.mpr ⟨_, htensors, rfl⟩

end Tensors

section Header

variable (json : SerdeJson V ε) (mmap : Mmap)

/-- The header length fits the limit and the file, and the header's text is a JSON object. -/
structure HasHeader (headerLen : ℕ) (raw : JsonMap V) : Prop where

  long : HEADER_LEN_BYTES ≤ mmap.bytes.length
  len : fromLe (mmap.bytes.take HEADER_LEN_BYTES) = headerLen
  limit : headerLen ≤ MAX_HEADER_SIZE
  fits : HEADER_LEN_BYTES + headerLen ≤ mmap.bytes.length

  text : ∃ text, fromUtf8 headerLen ((mmap.bytes.drop HEADER_LEN_BYTES).take headerLen) =
    .ok text ∧ json.fromStr text = .ok raw

/-- The metadata maps strings to strings, and every other value is the entry of a tensor. -/
structure RightForm (raw : JsonMap V) (entries : List (Text × RawTensorInfo)) : Prop where

  metadata : ∀ v, Keyed.get raw.entries METADATA_KEY = some v → ∃ m, json.metadata v = .ok m

  tensors : List.Forall₂ (fun e t => e.1 = t.1 ∧ json.rawTensorInfo e.2 = .ok t.2)
    raw.tensorEntries entries

/-- The file has a header of the right form whose tensors' dtypes are known, and whose tensors'
spans are as long as they should be and tile the data, in some order. -/
def Tiled : Prop :=
  ∃ headerLen raw entries, HasHeader json mmap headerLen raw ∧ RightForm json raw entries ∧
    (∀ e ∈ entries, Sized e.2) ∧
    Tile 0 (entries.map fun e => e.2.span) (mmap.bytes.length - (HEADER_LEN_BYTES + headerLen))

/-- No tensor of the header has a zero dimension behind dimensions whose product leaves
64 bits. -/
def Plain : Prop :=
  ∀ headerLen raw entries, HasHeader json mmap headerLen raw → RightForm json raw entries →
    ∀ e ∈ entries, ¬ HugeBeforeZero e.2.shape

variable {json mmap} {headerLen headerLen' headerEnd : ℕ} {header : List UInt8}
  {raw raw' : JsonMap V} {entries entries' : List (Text × RawTensorInfo)}

theorem HasHeader.unique (h : HasHeader json mmap headerLen raw)
    (h' : HasHeader json mmap headerLen' raw') : headerLen = headerLen' ∧ raw = raw' := by
  obtain rfl : headerLen = headerLen' := h.len.symm.trans h'.len
  obtain ⟨text, htext, hraw⟩ := h.text
  obtain ⟨text', htext', hraw'⟩ := h'.text
  obtain rfl : text = text' := by simpa [htext] using htext'
  exact ⟨rfl, by simpa [hraw] using hraw'⟩

theorem parseEntry_eq_ok {e : Text × V} {t : Text × RawTensorInfo} :
    parseEntry json e = .ok t ↔ e.1 = t.1 ∧ json.rawTensorInfo e.2 = .ok t.2 := by
  constructor
  · intro h
    obtain ⟨info, hinfo, h⟩ := bind_eq_ok.mp h
    cases h
    exact ⟨rfl, hinfo⟩
  · rintro ⟨hname, hinfo⟩
    apply bind_eq_ok.mpr
    use t.2, hinfo
    rw [hname]

theorem parseEntries_eq_ok : parseEntries json raw = .ok entries ↔
    List.Forall₂ (fun e t => e.1 = t.1 ∧ json.rawTensorInfo e.2 = .ok t.2)
      raw.tensorEntries entries := by
  rw [parseEntries, orInvalidJson, mapError_eq_ok]
  constructor
  · intro h
    exact (mapM_eq_ok h).imp fun _ _ => parseEntry_eq_ok.mp
  · intro h
    exact mapM_of_forall₂ (h.imp fun _ _ => parseEntry_eq_ok.mpr)

theorem RightForm.unique (h : RightForm json raw entries) (h' : RightForm json raw entries') :
    entries = entries' := by
  have hsame := (parseEntries_eq_ok.mpr h.tensors).symm.trans (parseEntries_eq_ok.mpr h'.tensors)
  simpa using hsame

theorem readHeader_eq_ok : (readHeader mmap : Result (SafetensorsError ε) _) =
    .ok (headerEnd, header) ↔ ∃ headerLen, HEADER_LEN_BYTES ≤ mmap.bytes.length ∧
      fromLe (mmap.bytes.take HEADER_LEN_BYTES) = headerLen ∧ headerLen ≤ MAX_HEADER_SIZE ∧
      HEADER_LEN_BYTES + headerLen ≤ mmap.bytes.length ∧
      headerEnd = HEADER_LEN_BYTES + headerLen ∧
      header = (mmap.bytes.drop HEADER_LEN_BYTES).take headerLen := by
  constructor
  · intro h
    obtain ⟨_, hlong, h⟩ := bind_eq_ok.mp h
    obtain ⟨lenBytes, hlen, h⟩ := bind_eq_ok.mp h
    obtain ⟨_, hlimit, h⟩ := bind_eq_ok.mp h
    obtain ⟨claimed, _, h⟩ := bind_eq_ok.mp h
    obtain ⟨stop, hstop, h⟩ := bind_eq_ok.mp h
    obtain ⟨bytes, hbytes, h⟩ := bind_eq_ok.mp h
    cases h
    obtain ⟨-, rfl⟩ := slice_eq_ok.mp hlen
    obtain ⟨hadd, hfits⟩ := Option.filter_eq_some_iff.mp (orRefuse_eq_ok.mp hstop)
    obtain ⟨-, rfl⟩ := slice_eq_ok.mp hbytes
    have hend : HEADER_LEN_BYTES + fromLe (mmap.bytes.take HEADER_LEN_BYTES) = headerEnd := by
      simp only [checkedAdd, Option.ite_none_right_eq_some, Option.some.injEq] at hadd
      exact hadd.2
    have hlimit := ensure_eq_ok.mp hlimit
    have hfits := of_decide_eq_true hfits
    subst hend
    refine ⟨_, ensure_eq_ok.mp hlong, rfl, hlimit, hfits, rfl, ?_⟩
    rw [Nat.add_sub_cancel_left]
  · rintro ⟨_, hlong, rfl, hlimit, hfits, rfl, rfl⟩
    have hlt : HEADER_LEN_BYTES + fromLe (mmap.bytes.take HEADER_LEN_BYTES) < U64_LIMIT := by
      simp only [HEADER_LEN_BYTES, MAX_HEADER_SIZE, U64_LIMIT] at *
      omega
    apply bind_eq_ok.mpr
    use (), ensure_eq_ok.mpr hlong
    apply bind_eq_ok.mpr
    use mmap.bytes.take HEADER_LEN_BYTES, slice_eq_ok.mpr ⟨⟨Nat.zero_le _, hlong⟩, rfl⟩
    apply bind_eq_ok.mpr
    use (), ensure_eq_ok.mpr hlimit
    apply bind_eq_ok.mpr
    use HEADER_LEN_BYTES + fromLe (mmap.bytes.take HEADER_LEN_BYTES)
    use addU64_eq_ok.mpr ⟨hlt, rfl⟩
    apply bind_eq_ok.mpr
    use HEADER_LEN_BYTES + fromLe (mmap.bytes.take HEADER_LEN_BYTES)
    constructor
    · apply orRefuse_eq_ok.mpr
      rw [checkedAdd_of_lt hlt, Option.filter_some, if_pos (decide_eq_true hfits)]
    · apply bind_eq_ok.mpr
      use (mmap.bytes.drop HEADER_LEN_BYTES).take (fromLe (mmap.bytes.take HEADER_LEN_BYTES))
      constructor
      · apply slice_eq_ok.mpr
        exact ⟨⟨Nat.le_add_right _ _, hfits⟩, by rw [Nat.add_sub_cancel_left]⟩
      · rfl

theorem safe_readHeader : Safe (readHeader mmap : Result (SafetensorsError ε) _) := by
  apply (safe_ensure _).bind
  intro _ hlong
  apply (safe_slice.mpr ⟨Nat.zero_le _, ensure_eq_ok.mp hlong⟩).bind
  intro lenBytes _
  apply (safe_ensure _).bind
  intro _ hlimit
  have hlimit := ensure_eq_ok.mp hlimit
  have hlt : HEADER_LEN_BYTES + fromLe lenBytes < U64_LIMIT := by
    simp only [HEADER_LEN_BYTES, MAX_HEADER_SIZE, U64_LIMIT] at *
    omega
  apply (safe_addU64.mpr hlt).bind
  intro claimed _
  apply (safe_orRefuse _ _).bind
  intro stop hstop
  obtain ⟨hadd, hfits⟩ := Option.filter_eq_some_iff.mp (orRefuse_eq_ok.mp hstop)
  rw [checkedAdd_of_lt hlt] at hadd
  cases hadd
  apply (safe_slice.mpr ⟨Nat.le_add_right _ _, of_decide_eq_true hfits⟩).bind
  intro _ _
  exact safe_ok _

end Header

end Frink.Safetensors
