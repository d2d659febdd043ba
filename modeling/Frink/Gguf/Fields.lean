import Frink.Gguf.Reader

/-! # Reading back what the writer wrote

Field by field the reader takes exactly the bytes the writer laid down. The descriptor counts
its dimensions in 32 bits, so a shape comes back when its rank fits there.
-/

namespace Frink.Gguf
open Codec

theorem reads_uint {n x : ℕ} (h : x < 256 ^ n) : Reads (readUint n) (leBytes n x) x :=
  Reads.le _ h

theorem checkRemaining_of_le {len : ℕ} {s : List UInt8} (h : len ≤ s.length) :
    checkRemaining len s = .ok ((), s) := Reader.ensure_of h _ s

theorem reads_checked {α : Type} {r : Cursor α} {bytes : List UInt8} {a : α} {len : ℕ}
    (hlen : len ≤ bytes.length) (h : Reads r bytes a) :
    Reads (Reader.bind (checkRemaining len) fun _ => r) bytes a := by
  intro rest
  rw [Reader.bind, checkRemaining_of_le (by rw [List.length_append]; omega)]
  exact h rest

theorem reads_string {s : String} (h : (utf8 s).length < 2 ^ 64) :
    Reads readGgufString (writeString s) s := by
  apply Reads.bind (reads_uint h)
  apply reads_checked le_rfl
  have ht := (Reads.take GgufError.unexpectedEof (utf8 s)).map (f := fromUtf8Lossy)
  rwa [fromUtf8Lossy_utf8] at ht

theorem reads_bits {n w : ℕ} (hw : 2 ^ w = 256 ^ n) (f : BitVec w → GgufValue) (x : BitVec w) :
    Reads (Reader.bind (readUint n) fun x => Reader.pure (f (.ofNat w x))) (leBytes n x.toNat)
      (f x) := by
  have hx : x.toNat < 256 ^ n := hw ▸ x.isLt
  have hr := (reads_uint hx).map (f := fun x => f (BitVec.ofNat w x))
  rwa [BitVec.ofNat_toNat, BitVec.setWidth_eq] at hr

/-- A value that is not an array is read back at any depth. -/
theorem reads_scalar {key : String} {v : GgufValue} {bytes : List UInt8} (left : ℕ)
    (h : writeValue key v = .ok bytes) (hv : valueTag v ≠ 9) (hlen : bytes.length < 2 ^ 64) :
    Reads (readGgufValueTyped left (valueTag v)) bytes v ∧ 0 < bytes.length := by
  cases v with
  | array items => exact absurd rfl hv
  | string s =>
    rw [writeValue, Except.ok.injEq] at h
    subst h
    rw [writeString, List.length_append, length_leBytes] at hlen ⊢
    rw [valueTag, readGgufValueTyped]
    exact ⟨(reads_string (by omega)).map, by omega⟩
  | bool b =>
    rw [writeValue, Except.ok.injEq] at h
    subst h
    rw [valueTag, readGgufValueTyped, length_leBytes]
    have hr := (reads_uint (n := 1) (x := b.toNat) (by cases b <;> decide)).map
      (f := fun x => GgufValue.bool (x != 0))
    refine ⟨?_, Nat.one_pos⟩
    cases b <;> exact hr
  | _ x =>
    rw [writeValue, Except.ok.injEq] at h
    subst h
    rw [valueTag, readGgufValueTyped, length_leBytes]
    exact ⟨reads_bits rfl _ x, by decide⟩

theorem valueTag_lt (v : GgufValue) : valueTag v < 13 := by
  cases v <;> simp [valueTag]

theorem writeItems_cons {key : String} {item : GgufValue} {items : List GgufValue}
    {bytes : List UInt8} (h : writeItems key (item :: items) = .ok bytes) :
    ∃ b bs, writeValue key item = .ok b ∧ writeItems key items = .ok bs ∧ bytes = b ++ bs := by
  rw [writeItems] at h
  obtain ⟨b, hb, h⟩ := bind_eq_ok.mp h
  obtain ⟨bs, hbs, h⟩ := bind_eq_ok.mp h
  cases h
  exact ⟨b, bs, hb, hbs, rfl⟩

theorem reads_items {key : String} {tag : ℕ} {items : List GgufValue} {bytes : List UInt8}
    (left : ℕ) (htag : tag ≠ 9) (hitems : ∀ item ∈ items, valueTag item = tag)
    (h : writeItems key items = .ok bytes) (hlen : bytes.length < 2 ^ 64) :
    Reads (Reader.many (readGgufValueTyped left tag) items.length) bytes items ∧
      items.length ≤ bytes.length := by
  induction items generalizing bytes with
  | nil =>
    rw [writeItems, Except.ok.injEq] at h
    subst h
    exact ⟨Reads.pure [], le_rfl⟩
  | cons item items ih =>
    obtain ⟨b, bs, hb, hbs, rfl⟩ := writeItems_cons h
    rw [List.length_append] at hlen ⊢
    have hi := hitems item List.mem_cons_self
    have hone := reads_scalar left hb (hi ▸ htag) (by omega)
    have hrest := ih (fun i hm => hitems i (List.mem_cons_of_mem item hm)) hbs (by omega)
    rw [hi] at hone
    exact ⟨hone.1.bind hrest.1.map, by rw [List.length_cons]; omega⟩

theorem elementTag_eq_ok {key : String} {items : List GgufValue} {tag : ℕ}
    (h : elementTag key items = .ok tag) : tag < 13 ∧ tag ≠ 9 ∧ ∀ i ∈ items, valueTag i = tag := by
  cases items with
  | nil => cases h
  | cons first items =>
    have hne : valueTag first ≠ 9 := by
      cases first with
      | array _ => cases h
      | _ => simp [valueTag]
    cases hf : (first :: items).find? fun item => valueTag item != valueTag first with
    | some item => cases first <;> simp [elementTag, hf] at h
    | none =>
      obtain rfl : valueTag first = tag := by
        cases first with
        | array _ => cases h
        | _ => simpa [elementTag, hf] using h
      rw [List.find?_eq_none] at hf
      refine ⟨valueTag_lt first, hne, fun i hi => ?_⟩
      simpa using hf i hi

/-- What the writer encodes comes back, two levels of arrays being the deepest it writes. -/
theorem reads_value {key : String} {v : GgufValue} {bytes : List UInt8}
    (h : writeValue key v = .ok bytes) (hlen : bytes.length < 2 ^ 64) :
    Reads (readGgufValueTyped MAX_VALUE_DEPTH (valueTag v)) bytes v := by
  by_cases hv : valueTag v = 9
  swap
  · exact (reads_scalar _ h hv hlen).1
  obtain ⟨items, rfl⟩ : ∃ items, v = .array items := by
    cases v with
    | array items => exact ⟨items, rfl⟩
    | _ => cases hv
  rw [writeValue] at h
  obtain ⟨tag, htag, h⟩ := bind_eq_ok.mp h
  obtain ⟨body, hb, h⟩ := bind_eq_ok.mp h
  cases h
  obtain ⟨hlt, hne, hall⟩ := elementTag_eq_ok htag
  rw [List.length_append] at hlen
  obtain ⟨hr, hle⟩ := reads_items 7 hne hall hb (by omega)
  rw [valueTag, MAX_VALUE_DEPTH, readGgufValueTyped, List.append_assoc]
  apply Reads.bind (reads_uint (n := 4) (by omega))
  apply Reads.bind (reads_uint (n := 8) (by omega))
  exact reads_checked hle hr.map

theorem writeEntry_eq_ok {key : String} {v : GgufValue} {bytes : List UInt8}
    (h : writeEntry key v = .ok bytes) :
    ∃ b, writeValue key v = .ok b ∧ bytes = writeString key ++ leBytes 4 (valueTag v) ++ b := by
  rw [writeEntry] at h
  obtain ⟨b, hb, h⟩ := bind_eq_ok.mp h
  cases h
  exact ⟨b, hb, rfl⟩

theorem writeEntries_cons {key : String} {v : GgufValue}
    {entries : List (Sigma fun _ : String => GgufValue)} {bytes : List UInt8}
    (h : writeEntries (⟨key, v⟩ :: entries) = .ok bytes) :
    ∃ b bs, writeEntry key v = .ok b ∧ writeEntries entries = .ok bs ∧ bytes = b ++ bs := by
  rw [writeEntries] at h
  obtain ⟨b, hb, h⟩ := bind_eq_ok.mp h
  obtain ⟨bs, hbs, h⟩ := bind_eq_ok.mp h
  cases h
  exact ⟨b, bs, hb, hbs, rfl⟩

/-- The key-value header is read as its entries inserted one after the other. -/
theorem reads_metadata {entries : List (Sigma fun _ : String => GgufValue)} {bytes : List UInt8}
    (m : Metadata) (h : writeEntries entries = .ok bytes) (hlen : bytes.length < 2 ^ 64) :
    Reads (readMetadata entries.length m) bytes
      (entries.foldl (fun m e => m.insert e.1 e.2) m) := by
  induction entries generalizing m bytes with
  | nil =>
    rw [writeEntries, Except.ok.injEq] at h
    subst h
    exact Reads.pure m
  | cons e entries ih =>
    obtain ⟨key, v⟩ := e
    obtain ⟨b, bs, hb, hbs, rfl⟩ := writeEntries_cons h
    obtain ⟨body, hbody, rfl⟩ := writeEntry_eq_ok hb
    have hkey : (writeString key).length = 8 + (utf8 key).length := by
      rw [writeString, List.length_append, length_leBytes]
    simp only [List.length_append, length_leBytes] at hlen
    rw [List.append_assoc, List.append_assoc, ← List.append_assoc (leBytes 4 _)]
    apply Reads.bind (reads_string (by omega))
    have hv := reads_value hbody (by omega)
    have htag := reads_uint (n := 4) (x := valueTag v) (by have := valueTag_lt v; omega)
    exact (htag.bind hv).bind (ih (m.insert key v) hbs (by omega))

theorem lookup_foldl_insert {entries : List (Sigma fun _ : String => GgufValue)}
    (h : entries.NodupKeys) (m : Metadata) (key : String) :
    (entries.foldl (fun m e => m.insert e.1 e.2) m).lookup key =
      (entries.dlookup key).or (m.lookup key) := by
  induction entries generalizing m with
  | nil => rfl
  | cons e entries ih =>
    rw [List.nodupKeys_cons] at h
    rw [List.foldl_cons, ih h.2]
    by_cases hk : key = e.1
    · subst hk
      rw [List.dlookup_cons_eq, AList.lookup_insert, List.dlookup_eq_none.mpr h.1]
      rfl
    · rw [List.dlookup_cons_ne _ _ hk, AList.lookup_insert_ne hk]

theorem reads_tensorInfo {t : TensorPlan} {offset fileLen : ℕ} (hname : (utf8 t.name).length < 2 ^ 64)
    (hrank : t.shape.length < 2 ^ 32) (hlayout : t.dtype.blockLayout.1 ≠ 0)
    (hshape : shapeFits fileLen t.shape = true) (hoffset : offset < USIZE_LIMIT) :
    Reads (readTensorInfo fileLen) (writeDescriptor t offset)
      ⟨t.name, t.shape, t.dtype, .ofNat 64 offset⟩ := by
  have hdims : Reads (Reader.many (readUint 8) t.shape.length)
      (t.shape.flatMap fun dim => leBytes 8 dim.toNat) (t.shape.map BitVec.toNat) := by
    have hm : Reads (Reader.many (readUint 8) (t.shape.map BitVec.toNat).length)
        ((t.shape.map BitVec.toNat).flatMap (leBytes 8)) (t.shape.map BitVec.toNat) := by
      apply Reads.many
      intro x hx
      obtain ⟨dim, -, rfl⟩ := List.mem_map.mp hx
      exact reads_uint dim.isLt
    rwa [List.length_map, List.flatMap_map] at hm
  have hmap : (t.shape.map BitVec.toNat).map (BitVec.ofNat 64) = t.shape := by
    rw [List.map_map]
    apply (List.map_congr_left fun dim _ => ?_).trans t.shape.map_id
    exact (BitVec.ofNat_toNat 64 dim).trans (BitVec.setWidth_eq dim)
  have htag := GgmlType.toTag_lt hlayout
  rw [writeDescriptor, List.append_assoc, List.append_assoc, List.append_assoc]
  apply Reads.bind (reads_string hname)
  apply Reads.bind (reads_uint (n := 4) hrank)
  apply Reads.bind hdims
  apply Reads.bind (reads_uint (n := 4) (by omega))
  apply Reads.last (reads_uint (n := 8) hoffset)
  dsimp only
  rw [hmap, GgmlType.fromTag_toTag hlayout]
  exact (Reads.ensure hshape _).bind (Reads.pure _)

/-- A descriptor never comes back with more dimensions than its count can hold. -/
theorem rank_lt_of_read {fileLen : ℕ} {s t : List UInt8} {info : TensorInfo}
    (h : readTensorInfo fileLen s = .ok (info, t)) : info.shape.length < 2 ^ 32 := by
  obtain ⟨name, _, -, h⟩ := Reader.bind_eq_ok h
  obtain ⟨nDims, _, hdims, h⟩ := Reader.bind_eq_ok h
  obtain ⟨shape, _, hshape, h⟩ := Reader.bind_eq_ok h
  obtain ⟨dtypeTag, _, -, h⟩ := Reader.bind_eq_ok h
  obtain ⟨offset, _, -, h⟩ := Reader.bind_eq_ok h
  have hlt := Reader.le_lt hdims
  obtain ⟨hlen, -⟩ := Reader.many_eq_ok (P := fun _ => True) (fun _ _ _ _ => trivial) hshape
  obtain ⟨⟨⟩, _, -, h⟩ := Reader.bind_eq_ok h
  cases h
  rw [List.length_map, hlen]
  exact hlt

end Frink.Gguf
