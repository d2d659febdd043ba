import Frink.Gguf.Fields
import Frink.Gguf.Layout

/-! # A written file, parsed

The header is parsed up to its padding, so the data section starts where the writer put it and
every tensor is found at its offset.
-/

namespace Frink.Gguf
open Codec

variable {metadata : Metadata} {plan : List TensorPlan} {data : List (List UInt8)}
  {header : List UInt8} {alignment offset : ℕ}

theorem isPowerOfTwo_pos {n : ℕ} (h : isPowerOfTwo n = true) : 0 < n := by
  rw [isPowerOfTwo, Bool.and_eq_true, bne_iff_ne] at h
  exact Nat.pos_of_ne_zero h.1

theorem declaredAlignment_eq_ok {value : Option GgufValue}
    (h : declaredAlignment value = .ok alignment) :
    isPowerOfTwo alignment = true ∧
      (value.bind GgufValue.asU64).getD DEFAULT_ALIGNMENT = alignment := by
  rw [declaredAlignment] at h
  split at h
  · rename_i hp
    cases h
    exact ⟨hp, rfl⟩
  · cases h

/-- The header before its padding. -/
def rawHeader (metadata : Metadata) (plan : List TensorPlan) (entries descriptors : List UInt8) :
    List UInt8 :=
  leBytes 4 GGUF_MAGIC ++ leBytes 4 GGUF_WRITE_VERSION ++ leBytes 8 plan.length ++
    leBytes 8 metadata.entries.length ++ entries ++ descriptors

theorem encodeHeader_eq_ok (h : encodeHeader metadata plan = .ok header) :
    ∃ alignment entries descriptors,
      declaredAlignment (metadata.lookup "general.alignment") = .ok alignment ∧
      checkPlan [] plan = .ok () ∧ writeEntries metadata.entries = .ok entries ∧
      writeDescriptors alignment plan 0 = .ok descriptors ∧
      header = pad (rawHeader metadata plan entries descriptors) alignment := by
  rw [encodeHeader] at h
  obtain ⟨alignment, ha, h⟩ := bind_eq_ok.mp h
  obtain ⟨⟨⟩, hc, h⟩ := bind_eq_ok.mp h
  obtain ⟨entries, he, h⟩ := bind_eq_ok.mp h
  obtain ⟨descriptors, hd, h⟩ := bind_eq_ok.mp h
  cases h
  exact ⟨alignment, entries, descriptors, ha, hc, he, hd, rfl⟩

theorem checkPlan_nodup {seen : List String} (h : checkPlan seen plan = .ok ()) :
    (∀ t ∈ plan, t.name ∉ seen) ∧ (plan.map TensorPlan.name).Nodup := by
  induction plan generalizing seen with
  | nil => exact ⟨fun _ ht => (nomatch ht), List.nodup_nil⟩
  | cons t plan ih =>
    rw [checkPlan] at h
    split at h
    · cases h
    split at h
    · cases h
    rename_i hseen
    obtain ⟨hrest, hnodup⟩ := ih h
    constructor
    · intro u hu
      rcases List.mem_cons.mp hu with rfl | hu
      · exact hseen
      · exact fun hm => hrest u hu (List.mem_cons_of_mem _ hm)
    · apply List.nodup_cons.mpr
      refine ⟨fun hm => ?_, hnodup⟩
      obtain ⟨u, hu, hname⟩ := List.mem_map.mp hm
      exact hrest u hu (hname ▸ List.mem_cons_self)

theorem map_planInfos {β : Type} (f : String × List (BitVec 64) × GgmlType → β) :
    (planInfos alignment plan offset).map (fun i => f (i.name, i.shape, i.dtype)) =
      plan.map fun t => f (t.name, t.shape, t.dtype) := by
  induction plan generalizing offset with
  | nil => rfl
  | cons t plan ih => exact congrArg (f (t.name, t.shape, t.dtype) :: ·) ih

theorem reads_descriptors {fileLen : ℕ} {bytes : List UInt8}
    (h : writeDescriptors alignment plan offset = .ok bytes) (hoffset : offset < USIZE_LIMIT)
    (hrank : ∀ t ∈ plan, t.shape.length < 2 ^ 32)
    (hshape : ∀ t ∈ plan, t.dtype.blockLayout.1 ≠ 0 ∧ shapeFits fileLen t.shape = true)
    (hlen : bytes.length < 2 ^ 64) :
    Reads (Reader.many (readTensorInfo fileLen) plan.length) bytes
      (planInfos alignment plan offset) := by
  induction plan generalizing offset bytes with
  | nil =>
    rw [writeDescriptors, Except.ok.injEq] at h
    subst h
    exact Reads.pure []
  | cons t plan ih =>
    rw [writeDescriptors] at h
    split at h
    swap
    · cases h
    rename_i hfit
    obtain ⟨rest, hrest, h⟩ := bind_eq_ok.mp h
    cases h
    have ht := hshape t List.mem_cons_self
    have hname : 8 + (utf8 t.name).length ≤ (writeDescriptor t offset).length := by
      simp only [writeDescriptor, writeString, List.length_append, length_leBytes]
      omega
    rw [List.length_append] at hlen
    have hone := reads_tensorInfo (t := t) (by omega) (hrank t List.mem_cons_self) ht.1 ht.2 hoffset
    have hmany := ih hrest hfit.2 (fun u hu => hrank u (List.mem_cons_of_mem t hu))
      (fun u hu => hshape u (List.mem_cons_of_mem t hu)) (by omega)
    exact hone.bind hmany.map

theorem length_writeDescriptors {bytes : List UInt8}
    (h : writeDescriptors alignment plan offset = .ok bytes) : 24 * plan.length ≤ bytes.length := by
  induction plan generalizing offset bytes with
  | nil => exact Nat.zero_le _
  | cons t plan ih =>
    rw [writeDescriptors] at h
    split at h
    swap
    · cases h
    obtain ⟨rest, hrest, h⟩ := bind_eq_ok.mp h
    cases h
    have hr := ih hrest
    simp only [writeDescriptor, writeString, List.length_append, length_leBytes, List.length_cons]
    omega

theorem length_writeEntries {entries : List (Sigma fun _ : String => GgufValue)}
    {bytes : List UInt8} (h : writeEntries entries = .ok bytes) :
    entries.length ≤ bytes.length := by
  induction entries generalizing bytes with
  | nil => exact Nat.zero_le _
  | cons e entries ih =>
    obtain ⟨b, bs, hb, hbs, rfl⟩ := writeEntries_cons h
    obtain ⟨body, -, rfl⟩ := writeEntry_eq_ok hb
    have hr := ih hbs
    simp only [writeString, List.length_append, length_leBytes, List.length_cons]
    omega

/-- The reader takes the header off the file and leaves its padding and the data. -/
theorem reads_rawHeader {fileLen : ℕ} {entries descriptors : List UInt8}
    (he : writeEntries metadata.entries = .ok entries)
    (hd : writeDescriptors alignment plan 0 = .ok descriptors)
    (hrank : ∀ t ∈ plan, t.shape.length < 2 ^ 32)
    (hshape : ∀ t ∈ plan, t.dtype.blockLayout.1 ≠ 0 ∧ shapeFits fileLen t.shape = true)
    (hlen : (rawHeader metadata plan entries descriptors).length < 2 ^ 64) :
    Reads (readHeader fileLen) (rawHeader metadata plan entries descriptors)
      ⟨GGUF_WRITE_VERSION, metadata.entries.foldl (fun m e => m.insert e.1 e.2) ∅,
        planInfos alignment plan 0⟩ := by
  simp only [rawHeader, List.length_append, length_leBytes] at hlen
  have hm := reads_metadata (∅ : Metadata) he (by omega)
  have ht := reads_descriptors hd (by decide) hrank hshape (by omega)
  have hplan := length_writeDescriptors hd
  have hentries := length_writeEntries he
  simp only [rawHeader, List.append_assoc]
  apply Reads.bind (reads_uint (n := 4) (by decide))
  apply Reads.bind (Reads.ensure rfl _)
  apply Reads.bind (reads_uint (n := 4) (by decide))
  apply Reads.bind (Reads.ensure (by decide) _)
  apply Reads.bind (reads_uint (n := 8) (by omega))
  apply Reads.bind (reads_uint (n := 8) (by omega))
  apply Reads.bind hm
  exact ht.map

/-- Once the header is read, the data section starts after the header's padding. -/
theorem parse_eq_ok {mmap : Mmap} {raw rest : List UInt8} {h : GgufHeader}
    (hr : Reads (readHeader mmap.bytes.length) raw h)
    (hbytes : mmap.bytes = pad raw alignment ++ rest)
    (ha : declaredAlignment (h.metadata.lookup "general.alignment") = .ok alignment) :
    GgufFile.parse mmap =
      .ok { h with mmap := mmap, dataStart := (pad raw alignment).length } := by
  obtain ⟨hpow, hdeclared⟩ := declaredAlignment_eq_ok ha
  have hread : readHeader mmap.bytes.length mmap.bytes =
      .ok (h, List.replicate (nextMultipleOf raw.length alignment - raw.length) 0 ++ rest) := by
    have := hr (List.replicate (nextMultipleOf raw.length alignment - raw.length) 0 ++ rest)
    rwa [← List.append_assoc, ← pad, ← hbytes] at this
  have hpad : (pad raw alignment).length = nextMultipleOf raw.length alignment :=
    length_pad (isPowerOfTwo_pos hpow)
  have hle := le_nextMultipleOf (n := raw.length) (isPowerOfTwo_pos hpow)
  have hfits := mmap.fits
  have hfile : mmap.bytes.length = (pad raw alignment).length + rest.length := by
    rw [hbytes, List.length_append]
  have hpos : mmap.bytes.length -
      (List.replicate (nextMultipleOf raw.length alignment - raw.length) (0 : UInt8) ++
        rest).length = raw.length := by
    rw [List.length_append, List.length_replicate]
    omega
  rw [GgufFile.parse, hread]
  show (if isPowerOfTwo _ = true then _ else _) = _
  rw [hdeclared, if_pos hpow, hpos, hpad, if_pos (by rw [USIZE_LIMIT]; omega)]

theorem findTensor_of_mem {file : GgufFile} {info : TensorInfo}
    (hnames : (file.tensors.map TensorInfo.name).Nodup) (h : info ∈ file.tensors) :
    file.findTensor info.name = some info := by
  rw [GgufFile.findTensor]
  generalize file.tensors = tensors at hnames h
  induction tensors with
  | nil => cases h
  | cons i tensors ih =>
    obtain ⟨hnew, hnames⟩ := List.nodup_cons.mp hnames
    rcases List.mem_cons.mp h with rfl | h
    · exact List.find?_cons_of_pos (beq_self_eq_true _)
    · have hne : i.name ≠ info.name := fun he => hnew (he ▸ List.mem_map_of_mem h)
      rw [List.find?_cons_of_neg (by rw [beq_iff_eq]; exact hne)]
      exact ih hnames h

/-- A tensor that stands in the file at its offset is what the reader returns for its name. -/
theorem tensorBytes_of_placed {file : GgufFile} {info : TensorInfo} {bytes : List UInt8}
    (hfind : file.findTensor info.name = some info)
    (hlen : byteLen info.shape info.dtype = some bytes.length)
    (h : Placed file.mmap.bytes file.dataStart info bytes) :
    file.tensorBytes info.name = .ok bytes := by
  obtain ⟨hend, htake⟩ := h
  have hfits := file.mmap.fits
  have hrange : file.tensorRange info.name = .ok (file.dataStart + info.offset.toNat,
      file.dataStart + info.offset.toNat + bytes.length) := by
    rw [GgufFile.tensorRange, hfind]
    dsimp only
    rw [hlen]
    dsimp only
    rw [if_pos (by rw [USIZE_LIMIT]; omega), if_pos ⟨by rw [USIZE_LIMIT]; omega, hend⟩]
  rw [GgufFile.tensorBytes, hrange]
  show Except.ok _ = _
  rw [Nat.add_sub_cancel_left, htake]

theorem byteLen_le_dataSection (h : Sized plan data) (written : ℕ) {t : TensorPlan}
    (ht : t ∈ plan) : t.byteLen ≤ (dataSection alignment data written).length := by
  induction h generalizing written with
  | nil => cases ht
  | @cons u bytes plan data hlen _ ih =>
    rw [dataSection, List.length_append, List.length_append]
    rcases List.mem_cons.mp ht with rfl | ht
    · omega
    · have := ih (nextMultipleOf (written + bytes.length) alignment) ht
      omega

theorem exists_info {file : List UInt8} {dataStart : ℕ}
    (h : List.Forall₂ (Placed file dataStart) (planInfos alignment plan offset) data)
    {t : TensorPlan} {bytes : List UInt8} (hp : (t, bytes) ∈ plan.zip data) :
    ∃ info ∈ planInfos alignment plan offset, info.name = t.name ∧ info.shape = t.shape ∧
      info.dtype = t.dtype ∧ Placed file dataStart info bytes := by
  induction plan generalizing data offset with
  | nil => cases hp
  | cons u plan ih =>
    obtain ⟨b, data, hplaced, hrest, rfl⟩ := List.forall₂_cons_left_iff.mp h
    rcases List.mem_cons.mp hp with heq | hp
    · cases heq
      exact ⟨_, List.mem_cons_self, rfl, rfl, rfl, hplaced⟩
    · obtain ⟨info, hmem, hinfo⟩ := ih hrest hp
      exact ⟨info, List.mem_cons_of_mem _ hmem, hinfo⟩

/-- The file parses to what was written: the metadata, the tensors in order, and their bytes. -/
def RoundTrips (metadata : Metadata) (plan : List TensorPlan) (data : List (List UInt8))
    (mmap : Mmap) : Prop :=
  ∃ file : GgufFile, GgufFile.parse mmap = .ok file ∧
    (∀ key, file.metadata.lookup key = metadata.lookup key) ∧
    file.tensors.map (fun i => (i.name, i.shape, i.dtype)) =
      plan.map (fun t => (t.name, t.shape, t.dtype)) ∧
    ∀ t bytes, (t, bytes) ∈ plan.zip data → file.tensorBytes t.name = .ok bytes

theorem rank_lt_of_header {fileLen : ℕ} {s rest : List UInt8} {h : GgufHeader}
    (hr : readHeader fileLen s = .ok (h, rest)) :
    ∀ info ∈ h.tensors, info.shape.length < 2 ^ 32 := by
  obtain ⟨magic, _, -, hr⟩ := Reader.bind_eq_ok hr
  obtain ⟨⟨⟩, _, -, hr⟩ := Reader.bind_eq_ok hr
  obtain ⟨version, _, -, hr⟩ := Reader.bind_eq_ok hr
  obtain ⟨⟨⟩, _, -, hr⟩ := Reader.bind_eq_ok hr
  obtain ⟨tensorCount, _, -, hr⟩ := Reader.bind_eq_ok hr
  obtain ⟨kvCount, _, -, hr⟩ := Reader.bind_eq_ok hr
  obtain ⟨metadata, _, -, hr⟩ := Reader.bind_eq_ok hr
  obtain ⟨tensors, _, hread, hr⟩ := Reader.bind_eq_ok hr
  cases hr
  exact (Reader.many_eq_ok (fun _ _ _ hi => rank_lt_of_read hi) hread).2

/-- A parsed shape always fits the count that the file has for it. -/
theorem RoundTrips.rank_lt {mmap : Mmap} (h : RoundTrips metadata plan data mmap) :
    ∀ t ∈ plan, t.shape.length < 2 ^ 32 := by
  obtain ⟨file, hparse, -, htensors, -⟩ := h
  rw [GgufFile.parse] at hparse
  obtain ⟨⟨h, rest⟩, hread, hparse⟩ := bind_eq_ok.mp hparse
  have hfile : file.tensors = h.tensors := by
    dsimp only at hparse
    split at hparse
    · split at hparse
      · cases hparse
        rfl
      · cases hparse
    · cases hparse
  intro t ht
  obtain ⟨info, hinfo, heq⟩ : ∃ i ∈ h.tensors, (i.name, i.shape, i.dtype) =
      (t.name, t.shape, t.dtype) := by
    rw [← hfile]
    apply List.mem_map.mp
    rw [htensors]
    exact List.mem_map_of_mem ht
  have hshape : info.shape = t.shape := congrArg (·.2.1) heq
  rw [← hshape]
  exact rank_lt_of_header hread info hinfo

theorem shapeFits_of_planned {fileLen : ℕ} {t : TensorPlan}
    (h : byteLen t.shape t.dtype = some t.byteLen) (hfile : t.byteLen + 32 ≤ fileLen) :
    t.dtype.blockLayout.1 ≠ 0 ∧ shapeFits fileLen t.shape = true := by
  obtain ⟨hlayout, -, n, hn, hlt⟩ := elementCount_of_byteLen h
  refine ⟨hlayout, ?_⟩
  rw [shapeFits, hn]
  exact decide_eq_true (by omega)

/-- A written file whose ranks fit the descriptor's count comes back. -/
theorem roundTrips_of_rank_lt {mmap : Mmap} (hh : encodeHeader metadata plan = .ok header)
    (hp : ∀ t ∈ plan, byteLen t.shape t.dtype = some t.byteLen) (hs : Sized plan data)
    (hw : writeFile metadata plan data = .ok mmap.bytes)
    (hrank : ∀ t ∈ plan, t.shape.length < 2 ^ 32) : RoundTrips metadata plan data mmap := by
  obtain ⟨alignment, entries, descriptors, ha, hc, he, hd, rfl⟩ := encodeHeader_eq_ok hh
  have hpos := isPowerOfTwo_pos (declaredAlignment_eq_ok ha).1
  rw [writeFile_planned ha hh hs, Except.ok.injEq] at hw
  have hfits := mmap.fits
  have hraw := le_nextMultipleOf (n := (rawHeader metadata plan entries descriptors).length) hpos
  rw [← length_pad hpos] at hraw
  have hlen : mmap.bytes.length = (pad (rawHeader metadata plan entries descriptors)
      alignment).length + (dataSection alignment data 0).length := by
    rw [← hw, List.length_append]
  have hshape : ∀ t ∈ plan, t.dtype.blockLayout.1 ≠ 0 ∧
      shapeFits mmap.bytes.length t.shape = true := by
    intro t ht
    have hdata : t.byteLen ≤ (dataSection alignment data 0).length :=
      byteLen_le_dataSection hs 0 ht
    have hdesc := length_writeDescriptors hd
    have hone := List.length_pos_of_mem ht
    apply shapeFits_of_planned (hp t ht)
    simp only [rawHeader, List.length_append, length_leBytes] at hraw hlen
    omega
  have hread := reads_rawHeader he hd hrank hshape (by omega)
  have hlookup : ∀ key, (metadata.entries.foldl (fun m e => m.insert e.1 e.2)
      (∅ : Metadata)).lookup key = metadata.lookup key := by
    intro key
    rw [lookup_foldl_insert metadata.nodupKeys, AList.lookup_empty, Option.or_none]
    rfl
  have hparse := parse_eq_ok hread hw.symm ((hlookup _).symm ▸ ha)
  have hplaced : List.Forall₂ (Placed (pad (rawHeader metadata plan entries descriptors)
      alignment ++ dataSection alignment data 0) _) (planInfos alignment plan 0) data :=
    placed_planInfos hpos (by decide) (Nat.add_zero _).symm hd hs
  rw [hw] at hplaced
  refine ⟨_, hparse, hlookup, map_planInfos id, ?_⟩
  intro t bytes ht
  obtain ⟨info, hmem, hname, hshape, hdtype, hinfo⟩ := exists_info hplaced ht
  have hnames : ((planInfos alignment plan 0).map TensorInfo.name).Nodup := by
    rw [map_planInfos (fun i => i.1)]
    exact (checkPlan_nodup hc).2
  rw [← hname]
  apply tensorBytes_of_placed (findTensor_of_mem hnames hmem) _ hinfo
  rw [hshape, hdtype, hp t (List.of_mem_zip ht).1, List.forall₂_zip hs ht]

/-- For every accepted plan and every data of the planned sizes, the writer makes a file, and
that file comes back exactly when every rank fits the descriptor's 32-bit count. -/
theorem written_file_round_trips_iff (hh : encodeHeader metadata plan = .ok header)
    (hp : ∀ t ∈ plan, byteLen t.shape t.dtype = some t.byteLen) (hs : Sized plan data) :
    (∃ bytes, writeFile metadata plan data = .ok bytes) ∧
      ∀ mmap : Mmap, writeFile metadata plan data = .ok mmap.bytes →
        (RoundTrips metadata plan data mmap ↔ ∀ t ∈ plan, t.shape.length < 2 ^ 32) := by
  constructor
  · obtain ⟨alignment, _, _, ha, -⟩ := encodeHeader_eq_ok hh
    exact ⟨_, writeFile_planned ha hh hs⟩
  · intro mmap hw
    constructor
    · exact RoundTrips.rank_lt
    · exact roundTrips_of_rank_lt hh hp hs hw

def vectorPlan : TensorPlan := ⟨"w", [2], .F32, 8⟩

theorem written_file_round_trips_iff_vector :
    ∃ mmap : Mmap, writeFile ∅ [vectorPlan] [[1, 2, 3, 4, 5, 6, 7, 8]] = .ok mmap.bytes ∧
      (RoundTrips ∅ [vectorPlan] [[1, 2, 3, 4, 5, 6, 7, 8]] mmap ↔
        ∀ t ∈ [vectorPlan], t.shape.length < 2 ^ 32) := by
  have hh : encodeHeader ∅ [vectorPlan] = .ok _ := rfl
  have hw : writeFile ∅ [vectorPlan] [[1, 2, 3, 4, 5, 6, 7, 8]] = .ok _ := rfl
  exact ⟨⟨_, by decide⟩, hw, (written_file_round_trips_iff hh (by decide)
    (.cons rfl .nil)).2 ⟨_, _⟩ hw⟩

/-- One number under a shape of `n` dimensions. -/
def onesPlan (n : ℕ) : TensorPlan := ⟨"w", List.replicate n 1, .F32, 4⟩

theorem elementCount_ones (n : ℕ) : elementCount (List.replicate n 1) = some 1 := by
  induction n with
  | zero => rfl
  | succ n ih => exact ih

theorem byteLen_ones (n : ℕ) :
    byteLen (onesPlan n).shape (onesPlan n).dtype = some (onesPlan n).byteLen := by
  rw [onesPlan, byteLen]
  dsimp only [GgmlType.blockLayout]
  rw [elementCount_ones]
  rfl

def onesHeader (n : ℕ) : List UInt8 :=
  pad (rawHeader ∅ [onesPlan n] [] (writeDescriptor (onesPlan n) 0 ++ [])) DEFAULT_ALIGNMENT

theorem encodeHeader_ones (n : ℕ) :
    encodeHeader ∅ [onesPlan (n + 1)] = .ok (onesHeader (n + 1)) := by
  have ha : declaredAlignment ((∅ : Metadata).lookup "general.alignment") =
      .ok DEFAULT_ALIGNMENT := rfl
  have hc : checkPlan [] [onesPlan (n + 1)] = .ok () := rfl
  have hd : writeDescriptors DEFAULT_ALIGNMENT [onesPlan (n + 1)] 0 =
      .ok (writeDescriptor (onesPlan (n + 1)) 0 ++ []) := by
    have hfit : 0 + 4 < USIZE_LIMIT ∧ nextMultipleOf (0 + 4) DEFAULT_ALIGNMENT < USIZE_LIMIT := by
      decide
    exact if_pos hfit
  apply bind_eq_ok.mpr ⟨_, ha, _⟩
  apply bind_eq_ok.mpr ⟨(), hc, _⟩
  apply bind_eq_ok.mpr ⟨[], rfl, _⟩
  exact bind_eq_ok.mpr ⟨_, hd, rfl⟩

theorem length_onesFile {n : ℕ} (hn : n < 2 ^ 40) :
    (onesHeader n ++ dataSection DEFAULT_ALIGNMENT [[0, 0, 0, 0]] 0).length < 2 ^ 63 := by
  have hdims : ((List.replicate n (1 : BitVec 64)).flatMap fun dim =>
      leBytes 8 dim.toNat).length = 8 * n := by
    induction n with
    | zero => rfl
    | succ n ih =>
      rw [List.replicate_succ, List.flatMap_cons, List.length_append, ih (by omega),
        length_leBytes]
      omega
  have hname : (utf8 "w").length = 1 := rfl
  have hdata : (dataSection DEFAULT_ALIGNMENT [[0, 0, 0, 0]] 0).length = 32 := rfl
  rw [List.length_append, hdata, onesHeader, length_pad (by decide), nextMultipleOf]
  simp only [rawHeader, writeDescriptor, onesPlan, writeString, List.length_append, hdims, hname,
    length_leBytes, List.length_nil, DEFAULT_ALIGNMENT]
  omega

/-- A shape of 2^32 dimensions is written with a count of zero. -/
theorem written_file_loses_shape :
    ∃ (metadata : Metadata) (plan : List TensorPlan) (data : List (List UInt8))
      (header : List UInt8) (mmap : Mmap), encodeHeader metadata plan = .ok header ∧
      (∀ t ∈ plan, byteLen t.shape t.dtype = some t.byteLen) ∧ Sized plan data ∧
      writeFile metadata plan data = .ok mmap.bytes ∧ ¬ RoundTrips metadata plan data mmap := by
  have hh := encodeHeader_ones (2 ^ 32 - 1)
  have hs : Sized [onesPlan (2 ^ 32 - 1 + 1)] [[0, 0, 0, 0]] := .cons rfl .nil
  have hw : writeFile ∅ [onesPlan (2 ^ 32 - 1 + 1)] [[0, 0, 0, 0]] =
      .ok (onesHeader (2 ^ 32 - 1 + 1) ++ dataSection DEFAULT_ALIGNMENT [[0, 0, 0, 0]] 0) :=
    writeFile_planned rfl hh hs
  refine ⟨∅, [onesPlan (2 ^ 32 - 1 + 1)], [[0, 0, 0, 0]], _,
    ⟨_, length_onesFile (by decide)⟩, hh, ?_, hs, hw, ?_⟩
  · intro t ht
    cases List.mem_singleton.mp ht
    exact byteLen_ones _
  · intro hrt
    have hlt := hrt.rank_lt _ (List.mem_singleton_self _)
    rw [onesPlan, List.length_replicate] at hlt
    exact absurd hlt (by decide)

end Frink.Gguf
