import Frink.Safetensors.Tiling

/-! # Accepted files

Parsing never overflows or slices out of range. An accepted file's tensors lie inside it,
each as long as its shape says and apart from every other. Which order the header's keys
stand in makes no difference.
-/

namespace Frink.Safetensors

open Codec Decode Guarded Tiles SafetensorsFile
open Gguf (Mmap)

variable {V ε : Type} {json : SerdeJson V ε} {mmap : Mmap} {file : SafetensorsFile}
  {headerLen : ℕ} {raw : JsonMap V} {entries : List (Text × RawTensorInfo)}

/-- The entries in the order they are checked in. -/
def inOrder (entries : List (Text × RawTensorInfo)) : List (Text × RawTensorInfo) :=
  sortBySpan (fun e => e.2.span) entries

theorem mem_inOrder {e : Text × RawTensorInfo} : e ∈ inOrder entries ↔ e ∈ entries :=
  perm_sortBySpan.mem_iff

def dataLen (mmap : Mmap) (headerLen : ℕ) : ℕ :=
  mmap.bytes.length - (HEADER_LEN_BYTES + headerLen)

/-- What is known of a file that was parsed. -/
structure Parsed (json : SerdeJson V ε) (mmap : Mmap) (file : SafetensorsFile) (headerLen : ℕ)
    (raw : JsonMap V) (entries : List (Text × RawTensorInfo)) : Prop where

  header : HasHeader json mmap headerLen raw
  form : RightForm json raw entries
  keeps : List.Forall₂ Keeps (inOrder entries) file.tensors
  plain : ∀ e ∈ entries, ¬ HugeBeforeZero e.2.shape

  runs : Runs 0 ((inOrder entries).map fun e => e.2.span) (dataLen mmap headerLen)

  mmap : file.mmap = mmap
  dataStart : file.dataStart = HEADER_LEN_BYTES + headerLen

theorem length_header (h : HasHeader json mmap headerLen raw) :
    ((mmap.bytes.drop HEADER_LEN_BYTES).take headerLen).length = headerLen := by
  have := h.fits
  rw [List.length_take, List.length_drop]
  omega

theorem parseMetadata_of_form (h : RightForm json raw entries) :
    ∃ metadata, parseMetadata json raw = .ok metadata := by
  unfold parseMetadata
  split
  · rename_i v hv
    obtain ⟨m, hm⟩ := h.metadata v hv
    use some m
    rw [orInvalidJson, hm]
    rfl
  · exact ⟨none, rfl⟩

theorem parsed_of_parse (h : parse json mmap = .ok file) :
    ∃ headerLen raw entries, Parsed json mmap file headerLen raw entries := by
  obtain ⟨⟨headerEnd, header⟩, hheader, h⟩ := bind_eq_ok.mp h
  obtain ⟨text, htext, h⟩ := bind_eq_ok.mp h
  obtain ⟨raw, hraw, h⟩ := bind_eq_ok.mp h
  obtain ⟨metadata, hmetadata, h⟩ := bind_eq_ok.mp h
  obtain ⟨entries, hentries, h⟩ := bind_eq_ok.mp h
  obtain ⟨⟨tensors, runningEnd⟩, htensors, h⟩ := bind_eq_ok.mp h
  obtain ⟨len, hlen, h⟩ := bind_eq_ok.mp h
  obtain ⟨_, hwhole, h⟩ := bind_eq_ok.mp h
  cases h
  obtain ⟨headerLen, hlong, hread, hlimit, hfits, rfl, rfl⟩ := readHeader_eq_ok.mp hheader
  obtain ⟨hruns, hkeeps, hplain⟩ := readTensors_ok htensors
  obtain ⟨-, rfl⟩ := subU64_eq_ok.mp hlen
  obtain rfl : runningEnd = dataLen mmap headerLen := ensure_eq_ok.mp hwhole
  have hsize : ((mmap.bytes.drop HEADER_LEN_BYTES).take headerLen).length = headerLen := by
    rw [List.length_take, List.length_drop]
    omega
  rw [orInvalidUtf8, mapError_eq_ok, hsize] at htext
  rw [orInvalidJson, mapError_eq_ok] at hraw
  use headerLen, raw, entries
  constructor
  · exact ⟨hlong, hread, hlimit, hfits, text, htext, hraw⟩
  · constructor
    · intro v hv
      rw [parseMetadata, hv] at hmetadata
      obtain ⟨m, hm, -⟩ := bind_eq_ok.mp hmetadata
      exact ⟨m, mapError_eq_ok.mp hm⟩
    · exact parseEntries_eq_ok.mp hentries
  · exact hkeeps
  · exact fun e he => hplain e (mem_inOrder.mpr he)
  · exact hruns
  · rfl
  · rfl

theorem parse_of_tiled (hheader : HasHeader json mmap headerLen raw)
    (hform : RightForm json raw entries) (hsized : ∀ e ∈ entries, Sized e.2)
    (hplain : ∀ e ∈ entries, ¬ HugeBeforeZero e.2.shape)
    (htile : Tile 0 (entries.map fun e => e.2.span) (dataLen mmap headerLen)) :
    ∃ file, parse json mmap = .ok file := by
  obtain ⟨text, htext, hraw⟩ := hheader.text
  obtain ⟨metadata, hmetadata⟩ := parseMetadata_of_form hform
  have hread : (readHeader mmap : Result (SafetensorsError ε) _) = .ok (_, _) :=
    readHeader_eq_ok.mpr ⟨headerLen, hheader.long, hheader.len, hheader.limit, hheader.fits,
      rfl, rfl⟩
  have htensors : ∃ tensors, (readTensors 0 (inOrder entries) : Result (SafetensorsError ε) _) =
      .ok (tensors, dataLen mmap headerLen) := by
    apply readTensors_of (runs_sortBySpan_iff.mpr htile)
    · exact fun e he => hsized e (mem_inOrder.mp he)
    · exact fun e he => hplain e (mem_inOrder.mp he)
  obtain ⟨tensors, htensors⟩ := htensors
  use ⟨metadata, tensors, mmap, HEADER_LEN_BYTES + headerLen⟩
  apply bind_eq_ok.mpr
  use (HEADER_LEN_BYTES + headerLen, (mmap.bytes.drop HEADER_LEN_BYTES).take headerLen), hread
  apply bind_eq_ok.mpr
  use text
  constructor
  · rw [orInvalidUtf8, mapError_eq_ok, length_header hheader]
    exact htext
  apply bind_eq_ok.mpr
  use raw, mapError_eq_ok.mpr hraw
  apply bind_eq_ok.mpr
  use metadata, hmetadata
  apply bind_eq_ok.mpr
  use entries, parseEntries_eq_ok.mpr hform.tensors
  apply bind_eq_ok.mpr
  use (tensors, dataLen mmap headerLen), htensors
  apply bind_eq_ok.mpr
  use dataLen mmap headerLen, subU64_eq_ok.mpr ⟨hheader.fits, rfl⟩
  apply bind_eq_ok.mpr
  use (), ensure_eq_ok.mpr rfl

theorem tile_of_parsed (h : Parsed json mmap file headerLen raw entries) :
    Tile 0 (entries.map fun e => e.2.span) (dataLen mmap headerLen) :=
  runs_sortBySpan_iff.mp h.runs

theorem sized_of_parsed (h : Parsed json mmap file headerLen raw entries)
    {e : Text × RawTensorInfo} (he : e ∈ entries) : Sized e.2 := by
  obtain ⟨t, -, ht⟩ := exists_of_forall₂_left h.keeps (mem_inOrder.mpr he)
  exact ⟨t.dtype, ht.dtype, ht.sized⟩

/-- A file is accepted when it tiles, unless a shape leaves 64 bits before a zero. -/
theorem accepts_iff : (∃ file, parse json mmap = .ok file) ↔ Tiled json mmap ∧ Plain json mmap := by
  constructor
  · rintro ⟨file, h⟩
    obtain ⟨headerLen, raw, entries, h⟩ := parsed_of_parse h
    constructor
    · exact ⟨headerLen, raw, entries, h.header, h.form, fun e he => sized_of_parsed h he,
        tile_of_parsed h⟩
    · intro headerLen' raw' entries' hheader hform
      obtain ⟨rfl, rfl⟩ := h.header.unique hheader
      obtain rfl := h.form.unique hform
      exact h.plain
  · rintro ⟨⟨headerLen, raw, entries, hheader, hform, hsized, htile⟩, hplain⟩
    exact parse_of_tiled hheader hform hsized (hplain _ _ _ hheader hform) htile

theorem safe_parse : Safe (parse json mmap) := by
  apply safe_readHeader.bind
  rintro ⟨headerEnd, header⟩ hheader
  obtain ⟨headerLen, -, -, -, hfits, rfl, -⟩ := readHeader_eq_ok.mp hheader
  have hutf8 : ∀ {α : Type} (x : Except Utf8Error α),
      Safe (orInvalidUtf8 x : Result (SafetensorsError ε) α) := by
    rintro α (e | a)
    · exact safe_refused _
    · exact safe_ok _
  have hjson : ∀ {α : Type} (x : Except ε α), Safe (orInvalidJson x) := by
    rintro α (e | a)
    · exact safe_refused _
    · exact safe_ok _
  apply (hutf8 _).bind
  intro text _
  apply (hjson _).bind
  intro raw _
  have hmetadata : Safe (parseMetadata json raw) := by
    unfold parseMetadata
    split
    · exact (hjson _).bind fun _ _ => safe_ok _
    · exact safe_ok _
  apply hmetadata.bind
  intro metadata _
  apply (hjson _).bind
  intro entries _
  apply (safe_readTensors _ _).bind
  rintro ⟨tensors, runningEnd⟩ _
  have hsub : (subU64 mmap.bytes.length (HEADER_LEN_BYTES + headerLen) :
      Result (SafetensorsError ε) ℕ) = .ok _ := subU64_eq_ok.mpr ⟨hfits, rfl⟩
  rw [hsub]
  apply (safe_ok _).bind
  intro len _
  apply (safe_ensure _).bind
  intro _ _
  exact safe_ok _

section Permuted

variable {raw' : JsonMap V} {mmap' : Mmap} {headerLen' : ℕ}

theorem get_perm (hp : raw.entries.Perm raw'.entries) (key : Text) :
    Keyed.get raw.entries key = Keyed.get raw'.entries key := by
  ext v
  constructor
  · intro h
    exact raw'.unique.lookup (hp.mem_iff.mp (Keyed.mem_of_lookup h))
  · intro h
    exact raw.unique.lookup (hp.mem_iff.mpr (Keyed.mem_of_lookup h))

theorem form_perm (h : RightForm json raw entries) (hp : raw.entries.Perm raw'.entries) :
    ∃ entries', RightForm json raw' entries' ∧ entries'.Perm entries := by
  have htensors : raw'.tensorEntries.Perm raw.tensorEntries := hp.symm.filter _
  obtain ⟨entries', hall, hperm⟩ := List.perm_comp_forall₂ htensors h.tensors
  refine ⟨entries', ⟨?_, hall⟩, hperm⟩
  intro v hv
  exact h.metadata v ((get_perm hp _).trans hv)

theorem accepts_of_perm (hheader : HasHeader json mmap headerLen raw)
    (hheader' : HasHeader json mmap' headerLen' raw') (hp : raw.entries.Perm raw'.entries)
    (hlen : dataLen mmap headerLen = dataLen mmap' headerLen')
    (h : ∃ file, parse json mmap = .ok file) : ∃ file, parse json mmap' = .ok file := by
  obtain ⟨file, h⟩ := h
  obtain ⟨n, raw₁, entries, h⟩ := parsed_of_parse h
  obtain ⟨rfl, rfl⟩ := h.header.unique hheader
  obtain ⟨entries', hform, hperm⟩ := form_perm h.form hp
  apply parse_of_tiled hheader' hform
  · exact fun e he => sized_of_parsed h (hperm.mem_iff.mp he)
  · exact fun e he => h.plain e (hperm.mem_iff.mp he)
  · rw [← hlen]
    exact (tile_of_parsed h).perm (hperm.symm.map fun e => e.2.span)

end Permuted

section Ranges

theorem fst_of_form (h : RightForm json raw entries) :
    raw.tensorEntries.map Prod.fst = entries.map Prod.fst := by
  have hall := h.tensors
  clear h
  generalize raw.tensorEntries = items at hall
  induction hall with
  | nil => rfl
  | cons hfst _ ih => rw [List.map_cons, List.map_cons, hfst.1, ih]

theorem names_of_form (h : RightForm json raw entries) : (entries.map Prod.fst).Nodup := by
  rw [← fst_of_form h]
  exact raw.unique.erase METADATA_KEY

theorem map_of_keeps {items : List (Text × RawTensorInfo)} {tensors : List TensorInfo}
    (h : List.Forall₂ Keeps items tensors) :
    tensors.map TensorInfo.name = items.map Prod.fst ∧
      tensors.map TensorInfo.span = items.map fun e => e.2.span := by
  induction h with
  | nil => exact ⟨rfl, rfl⟩
  | cons hk _ ih =>
    simp only [List.map_cons, hk.name, hk.span, ih.1, ih.2, true_and]

theorem tensorInfo_of_mem (hnames : (file.tensors.map TensorInfo.name).Nodup) {t : TensorInfo}
    (ht : t ∈ file.tensors) : file.tensorInfo t.name = some t := by
  unfold tensorInfo
  generalize file.tensors = tensors at hnames ht
  induction tensors with
  | nil => cases ht
  | cons u tensors ih =>
    rw [List.map_cons, List.nodup_cons] at hnames
    rcases List.mem_cons.mp ht with rfl | ht
    · simp
    · have hne : u.name ≠ t.name := by
        intro heq
        exact hnames.1 (heq ▸ List.mem_map_of_mem ht)
      rw [List.find?_cons_of_neg (by simpa using hne)]
      exact ih hnames.2 ht

variable (h : Parsed json mmap file headerLen raw entries)

include h

theorem names_nodup : (file.tensors.map TensorInfo.name).Nodup := by
  rw [(map_of_keeps h.keeps).1]
  exact (perm_sortBySpan.map Prod.fst).nodup_iff.mpr (names_of_form h.form)

theorem runs_tensors : Runs 0 (file.tensors.map TensorInfo.span) (dataLen mmap headerLen) := by
  rw [(map_of_keeps h.keeps).2]
  exact h.runs

/-- A tensor's range is its span, counted from where the data starts. -/
theorem tensorRange_of_mem {t : TensorInfo} (ht : t ∈ file.tensors) :
    (file.tensorRange t.name : Result (SafetensorsError ε) _) =
      .ok (file.dataStart + t.span.1, file.dataStart + t.span.2) ∧
      t.span.1 ≤ t.span.2 ∧ file.dataStart + t.span.2 ≤ mmap.bytes.length := by
  obtain ⟨-, hle, hend⟩ := (runs_tensors h).within (List.mem_map_of_mem ht)
  have hfits := h.header.fits
  have hsmall := mmap.fits
  have hstop : file.dataStart + t.span.2 ≤ mmap.bytes.length := by
    rw [h.dataStart]
    unfold dataLen at hend
    omega
  refine ⟨?_, hle, hstop⟩
  apply bind_eq_ok.mpr
  use t, orRefuse_eq_ok.mpr (tensorInfo_of_mem (names_nodup h) ht)
  apply bind_eq_ok.mpr
  use file.dataStart + t.span.1
  use addU64_eq_ok.mpr ⟨by rw [U64_LIMIT]; omega, rfl⟩
  apply bind_eq_ok.mpr
  use file.dataStart + t.span.2
  use addU64_eq_ok.mpr ⟨by rw [U64_LIMIT]; omega, rfl⟩
  apply bind_eq_ok.mpr
  use ()
  constructor
  · apply asserting_eq_ok.mpr
    rw [h.mmap]
    exact ⟨by omega, hstop⟩
  · rfl

theorem tensors_apart {t u : TensorInfo} (ht : t ∈ file.tensors) (hu : u ∈ file.tensors)
    (hne : t.name ≠ u.name) : t.span.2 ≤ u.span.1 ∨ u.span.2 ≤ t.span.1 := by
  have hpair := (runs_tensors h).apart
  rw [List.pairwise_map] at hpair
  have hmem : ∀ {t u : TensorInfo}, [t, u].Sublist file.tensors → t.span.2 ≤ u.span.1 := by
    intro t u hsub
    have := hpair.sublist hsub
    simpa using this
  obtain ⟨before, after, hsplit⟩ := List.append_of_mem ht
  rw [hsplit, List.mem_append, List.mem_cons] at hu
  rcases hu with hu | rfl | hu
  · right
    apply hmem
    rw [hsplit]
    exact (List.singleton_sublist.mpr hu).append (List.singleton_sublist.mpr List.mem_cons_self)
  · exact absurd rfl hne
  · left
    apply hmem
    rw [hsplit]
    exact ((List.singleton_sublist.mpr hu).cons_cons t).trans (List.sublist_append_right _ _)

theorem tensors_named :
    (file.tensors.map TensorInfo.name).Perm (raw.tensorEntries.map Prod.fst) := by
  rw [(map_of_keeps h.keeps).1, fst_of_form h.form]
  exact perm_sortBySpan.map Prod.fst

theorem range_of_tensor {t : TensorInfo} (ht : t ∈ file.tensors) :
    ∃ start stop, (file.tensorRange t.name : Result (SafetensorsError ε) _) = .ok (start, stop) ∧
      start ≤ stop ∧ stop ≤ mmap.bytes.length ∧
      stop = start + elements t.shape * t.dtype.byteSize := by
  obtain ⟨hrange, hle, hend⟩ := tensorRange_of_mem h ht
  obtain ⟨e, -, hk⟩ := exists_of_forall₂_right h.keeps ht
  refine ⟨_, _, hrange, Nat.add_le_add_left hle _, hend, ?_⟩
  rw [hk.span, hk.shape, hk.sized]
  omega

end Ranges

variable (json mmap) in
/-- The format's promise for one file. -/
structure AcceptsTilings : Prop where

  safe : Safe (parse json mmap)

  accepts : (∃ file, parse json mmap = .ok file) ↔ Tiled json mmap

  /-- The order of the header's keys makes no difference. -/
  anyOrder : ∀ mmap' headerLen headerLen' raw raw', HasHeader json mmap headerLen raw →
    HasHeader json mmap' headerLen' raw' → raw.entries.Perm raw'.entries →
    dataLen mmap headerLen = dataLen mmap' headerLen' →
    ((∃ file, parse json mmap = .ok file) ↔ ∃ file, parse json mmap' = .ok file)

  named : ∀ file headerLen raw, parse json mmap = .ok file →
    HasHeader json mmap headerLen raw →
    (file.tensors.map TensorInfo.name).Perm (raw.tensorEntries.map Prod.fst)

  inside : ∀ file, parse json mmap = .ok file → ∀ t ∈ file.tensors, ∃ start stop,
    (file.tensorRange t.name : Result (SafetensorsError ε) _) = .ok (start, stop) ∧
    start ≤ stop ∧ stop ≤ mmap.bytes.length ∧
    stop = start + elements t.shape * t.dtype.byteSize

  apart : ∀ file, parse json mmap = .ok file → ∀ t ∈ file.tensors, ∀ u ∈ file.tensors,
    t.name ≠ u.name → ∀ r r' : ℕ × ℕ,
    (file.tensorRange t.name : Result (SafetensorsError ε) _) = .ok r →
    (file.tensorRange u.name : Result (SafetensorsError ε) _) = .ok r' →
    ∀ i, r.1 ≤ i → i < r.2 → ¬ (r'.1 ≤ i ∧ i < r'.2)

/-- The promise holds unless the tensors tile and one of them has a zero dimension behind
dimensions whose product leaves 64 bits. -/
theorem acceptsTilings_iff (json : SerdeJson V ε) (mmap : Mmap) :
    AcceptsTilings json mmap ↔ ¬ (Tiled json mmap ∧ ¬ Plain json mmap) := by
  constructor
  · rintro h ⟨htiled, hplain⟩
    exact hplain (accepts_iff.mp (h.accepts.mpr htiled)).2
  · intro h
    constructor
    · exact safe_parse
    · rw [accepts_iff, and_iff_left_iff_imp]
      intro htiled
      by_contra hplain
      exact h ⟨htiled, hplain⟩
    · intro mmap' headerLen headerLen' raw raw' hheader hheader' hp hlen
      exact ⟨accepts_of_perm hheader hheader' hp hlen,
        accepts_of_perm hheader' hheader hp.symm hlen.symm⟩
    · intro file headerLen raw hparse hheader
      obtain ⟨n, raw₁, entries, hparsed⟩ := parsed_of_parse hparse
      obtain ⟨-, rfl⟩ := hparsed.header.unique hheader
      exact tensors_named hparsed
    · intro file hparse t ht
      obtain ⟨n, raw, entries, hparsed⟩ := parsed_of_parse hparse
      exact range_of_tensor hparsed ht
    · rintro file hparse t ht u hu hne r r' hr hr' i hi hi' ⟨hj, hj'⟩
      obtain ⟨n, raw, entries, hparsed⟩ := parsed_of_parse hparse
      obtain ⟨hrange, -, -⟩ := tensorRange_of_mem hparsed ht
      obtain ⟨hrange', -, -⟩ := tensorRange_of_mem hparsed hu
      obtain rfl : _ = r := by simpa [hrange] using hr
      obtain rfl : _ = r' := by simpa [hrange'] using hr'
      dsimp only at hi hi' hj hj'
      rcases tensors_apart hparsed ht hu hne with h | h <;> omega

section Huge

def hugeHeader : Text :=
  ("\x7b\"a\":\x7b\"dtype\":\"U8\",\"shape\":[9223372036854775808,4,0]," ++
    "\"data_offsets\":[0,0]\x7d\x7d").toList

def hugeInfo : RawTensorInfo := ⟨"U8".toList, [9223372036854775808, 4, 0], (0, 0)⟩

def hugeRaw : JsonMap RawTensorInfo := ⟨[("a".toList, hugeInfo)], List.nodup_singleton _⟩

/-- A reader of this one header. -/
def hugeJson : SerdeJson RawTensorInfo Unit where
  fromStr text := if text = hugeHeader then .ok hugeRaw else .error ()
  metadata _ := .error ()
  rawTensorInfo info := .ok info

def hugeFile : Mmap :=
  ⟨leBytes 8 75 ++ hugeHeader.map fun c => c.toNat.toUInt8, by decide⟩

theorem hasHeader_huge : HasHeader hugeJson hugeFile 75 hugeRaw := by
  constructor
  · decide
  · decide
  · decide
  · decide
  · use hugeHeader
    constructor
    · decide +kernel
    · simp only [hugeJson, if_true]

theorem rightForm_huge : RightForm hugeJson hugeRaw [("a".toList, hugeInfo)] := by
  constructor
  · intro v hv
    cases hv
  · exact .cons ⟨rfl, rfl⟩ .nil

theorem tiled_huge : Tiled hugeJson hugeFile := by
  refine ⟨75, hugeRaw, _, hasHeader_huge, rightForm_huge, ?_, ?_⟩
  · rintro e he
    obtain rfl := List.mem_singleton.mp he
    exact ⟨.u8, rfl, by decide⟩
  · exact ⟨[(0, 0)], .refl _, rfl, le_rfl, show 0 = _ by decide⟩

/-- Two to the 63rd times four times zero elements take no bytes, and are refused. -/
theorem acceptsTilings_huge : ¬ AcceptsTilings hugeJson hugeFile := by
  intro h
  have hplain := (accepts_iff.mp (h.accepts.mpr tiled_huge)).2
  apply hplain 75 hugeRaw _ hasHeader_huge rightForm_huge _ List.mem_cons_self
  exact ⟨[9223372036854775808, 4], [], rfl, by decide⟩

end Huge

end Frink.Safetensors
