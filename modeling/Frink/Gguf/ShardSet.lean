import Frink.Gguf.SplitPlan

/-! # A written set, opened

Every shard's file parses to its own tensors and keys, so the files under one
name pass the checks of a set and are indexed as one model. A set that passes has
every shard in its place.
-/

namespace Frink.Gguf

open Codec Guarded

variable {source : GgufFile} {n k : ℕ} {file : GgufFile} {tensors : List TensorPlan}

section Keys

variable {metadata : Metadata} {no count nTensors : ℕ}

theorem lookup_no (hno : no < 2 ^ 16) :
    metadataU64 (shardMetadata metadata no count nTensors) SPLIT_NO_KEY = some no := by
  rw [metadataU64, shardMetadata, lookup_toBTreeMap]
  simp only [insertKeys, splitKeys, List.foldl_cons, List.foldl_nil]
  rw [AList.lookup_insert_ne (by decide), AList.lookup_insert_ne (by decide), AList.lookup_insert]
  simp only [Option.bind_some, GgufValue.asU64, BitVec.toNat_ofNat]
  rw [Nat.mod_eq_of_lt hno]

theorem lookup_count :
    (shardMetadata metadata no count nTensors).lookup SPLIT_COUNT_KEY =
      some (.u16 (.ofNat 16 count)) := by
  rw [shardMetadata, lookup_toBTreeMap]
  simp only [insertKeys, splitKeys, List.foldl_cons, List.foldl_nil]
  rw [AList.lookup_insert_ne (by decide), AList.lookup_insert]

theorem lookup_tensors :
    (shardMetadata metadata no count nTensors).lookup SPLIT_TENSORS_COUNT_KEY =
      some (.i32 (.ofNat 32 nTensors)) := by
  rw [shardMetadata, lookup_toBTreeMap]
  simp only [insertKeys, splitKeys, List.foldl_cons, List.foldl_nil]
  rw [AList.lookup_insert]

theorem asU64_u16 (hc : count < 2 ^ 16) :
    (GgufValue.u16 (.ofNat 16 count)).asU64 = some count := by
  simp only [GgufValue.asU64, BitVec.toNat_ofNat]
  rw [Nat.mod_eq_of_lt hc]

theorem asU64_i32 (hn : nTensors < 2 ^ 31) :
    (GgufValue.i32 (.ofNat 32 nTensors)).asU64 = some nTensors := by
  have hmod : nTensors % 2 ^ 32 = nTensors := Nat.mod_eq_of_lt (by omega)
  have hint : 0 ≤ (BitVec.ofNat 32 nTensors).toInt := by
    rw [BitVec.toInt_eq_toNat_cond, BitVec.toNat_ofNat, hmod, if_pos (by omega)]
    omega
  rw [GgufValue.asU64, if_pos hint, BitVec.toNat_ofNat, hmod]

theorem metadataU64_count (hc : count < 2 ^ 16) :
    metadataU64 (shardMetadata metadata no count nTensors) SPLIT_COUNT_KEY = some count := by
  rw [metadataU64, lookup_count]
  exact asU64_u16 hc

end Keys

/-- The file is shard `k` of `n`: its keys, its tensors, and the source's bytes. -/
structure Carries (source : GgufFile) (n k : ℕ) (tensors : List TensorPlan) (file : GgufFile) :
    Prop where

  lookup : ∀ key, file.metadata.lookup key =
    (shardMetadata source.metadata k n source.tensors.length).lookup key
  infos : file.tensors.map (fun i => (i.name, i.shape, i.dtype)) =
    tensors.map fun t => (t.name, t.shape, t.dtype)
  bytes : ∀ t ∈ tensors, file.tensorBytes t.name = source.tensorBytes t.name

namespace Carries

theorem metadataU64_eq (h : Carries source n k tensors file) (key : String) :
    metadataU64 file.metadata key =
      metadataU64 (shardMetadata source.metadata k n source.tensors.length) key := by
  rw [metadataU64, metadataU64, h.lookup]

theorem names (h : Carries source n k tensors file) :
    file.tensors.map TensorInfo.name = tensors.map TensorPlan.name := by
  have hmap := congrArg (List.map Prod.fst) h.infos
  simpa [Function.comp_def] using hmap

end Carries

theorem exists_of_zip {α β : Type} {R : α → β → Prop} {xs : List α} {ys : List β}
    (h : List.Forall₂ R xs ys) {x : α} (hx : x ∈ xs) : ∃ y, (x, y) ∈ xs.zip ys ∧ R x y := by
  induction h with
  | nil => cases hx
  | @cons a b xs ys hab _ ih =>
    rcases List.mem_cons.mp hx with rfl | hx
    · exact ⟨b, List.mem_cons_self, hab⟩
    · obtain ⟨y, hy, hr⟩ := ih hx
      exact ⟨y, List.mem_cons_of_mem _ hy, hr⟩

/-- What is written with the bytes of the source comes back as its shard. -/
theorem carries_of_written {bytes : List UInt8} {metadata : Metadata} {alignment : ℕ}
    {header : List UInt8} {bytesOf : String → Except GgufError (List UInt8)}
    (ha : declaredAlignment (metadata.lookup "general.alignment") = .ok alignment)
    (hh : encodeHeader metadata tensors = .ok header)
    (hplanned : ∀ t ∈ tensors, byteLen t.shape t.dtype = some t.byteLen ∧ t.shape.length < 2 ^ 32)
    (hw : writeFileFrom bytesOf metadata tensors = .ok bytes) (hfit : bytes.length < 2 ^ 63) :
    ∃ file, GgufFile.parse ⟨bytes, hfit⟩ = .ok file ∧
      (∀ key, file.metadata.lookup key = metadata.lookup key) ∧
      file.tensors.map (fun i => (i.name, i.shape, i.dtype)) =
        tensors.map (fun t => (t.name, t.shape, t.dtype)) ∧
      ∀ t ∈ tensors, file.tensorBytes t.name = bytesOf t.name := by
  obtain ⟨data, hdata, rfl⟩ := writeFileFrom_ok ha hh hw
  have hfile := writeFile_planned ha hh hdata.sized
  have hback : RoundTrips metadata tensors data ⟨_, hfit⟩ := roundTrips_of_rank_lt hh
    (fun t ht => (hplanned t ht).1) hdata.sized hfile fun t ht => (hplanned t ht).2
  obtain ⟨file, hparse, hlookup, htensors, hbytes⟩ := hback
  refine ⟨file, hparse, hlookup, htensors, ?_⟩
  intro t ht
  obtain ⟨content, hmem, hfound, -⟩ := exists_of_zip hdata ht
  rw [hfound]
  exact hbytes t content hmem

section Index

variable {index : TensorIndex} {shards : List GgufFile} {infos : List TensorInfo}

theorem length_insert_new {name : String} {place : ℕ × ℕ} (h : index.lookup name = none) :
    (index.insert name place).entries.length = index.entries.length + 1 := by
  rw [AList.entries_insert_of_notMem (AList.lookup_eq_none.mp h), List.length_cons]

theorem indexTensors_ok (si ti : ℕ) (hnodup : (infos.map TensorInfo.name).Nodup)
    (hnew : ∀ name ∈ infos.map TensorInfo.name, index.lookup name = none) :
    ∃ index', indexTensors si ti index infos = .ok index' ∧
      (∀ name, name ∉ infos.map TensorInfo.name → index'.lookup name = index.lookup name) ∧
      (∀ name ∈ infos.map TensorInfo.name, ∃ j, index'.lookup name = some (si, j)) ∧
      index'.entries.length = index.entries.length + infos.length := by
  induction infos generalizing index ti with
  | nil => exact ⟨index, rfl, by simp⟩
  | cons t infos ih =>
    obtain ⟨hfresh, hnodup⟩ := List.nodup_cons.mp hnodup
    obtain ⟨hhere, hrest⟩ := List.forall_mem_cons.mp hnew
    have hnext : ∀ name ∈ infos.map TensorInfo.name,
        (index.insert t.name (si, ti)).lookup name = none := by
      intro name hname
      rw [AList.lookup_insert_ne (ne_of_mem_of_not_mem hname hfresh), hrest name hname]
    obtain ⟨index', hok, hframe, hplaced, hlen⟩ := ih (ti + 1) hnodup hnext
    refine ⟨index', ?_, ?_, ?_, ?_⟩
    · rw [indexTensors, hhere]
      exact hok
    · intro name hname
      simp only [List.map_cons, List.mem_cons, not_or] at hname
      rw [hframe name hname.2, AList.lookup_insert_ne hname.1]
    · intro name hname
      rcases List.mem_cons.mp hname with rfl | hname
      · exact ⟨ti, by rw [hframe _ hfresh, AList.lookup_insert]⟩
      · exact hplaced name hname
    · rw [hlen, length_insert_new hhere, List.length_cons]
      omega

def namesOf (shards : List GgufFile) : List String :=
  shards.flatMap fun shard => shard.tensors.map TensorInfo.name

/-- Shards without a common name are indexed, each tensor at its shard. -/
theorem indexShards_ok (si : ℕ) (hnodup : (namesOf shards).Nodup)
    (hnew : ∀ name ∈ namesOf shards, index.lookup name = none) :
    ∃ index', indexShards si index shards = .ok index' ∧
      (∀ name, name ∉ namesOf shards → index'.lookup name = index.lookup name) ∧
      (∀ (k : ℕ) (shard : GgufFile), shards[k]? = some shard → ∀ t ∈ shard.tensors,
        ∃ j, index'.lookup t.name = some (si + k, j)) ∧
      index'.entries.length = index.entries.length + (namesOf shards).length := by
  induction shards generalizing index si with
  | nil => exact ⟨index, rfl, by simp [namesOf]⟩
  | cons first shards ih =>
    have hnames : namesOf (first :: shards) =
        first.tensors.map TensorInfo.name ++ namesOf shards := rfl
    rw [hnames] at hnodup hnew
    obtain ⟨hfirst, hrest, hdisj⟩ := List.nodup_append.mp hnodup
    obtain ⟨index₁, hok₁, hframe₁, hplaced₁, hlen₁⟩ := indexTensors_ok si 0 hfirst
      fun name hname => hnew name (List.mem_append_left _ hname)
    have hnew₁ : ∀ name ∈ namesOf shards, index₁.lookup name = none := by
      intro name hname
      rw [hframe₁ name fun hmem => hdisj name hmem name hname rfl]
      exact hnew name (List.mem_append_right _ hname)
    obtain ⟨index', hok, hframe, hplaced, hlen⟩ := ih (si + 1) hrest hnew₁
    refine ⟨index', ?_, ?_, ?_, ?_⟩
    · rw [indexShards, hok₁]
      exact hok
    · intro name hname
      rw [hnames, List.mem_append, not_or] at hname
      rw [hframe name hname.2, hframe₁ name hname.1]
    · intro k shard hk t ht
      cases k with
      | zero =>
        cases hk
        have hmem : t.name ∈ first.tensors.map TensorInfo.name := List.mem_map_of_mem ht
        rw [hframe _ fun h => hdisj _ hmem _ h rfl]
        exact hplaced₁ _ hmem
      | succ k =>
        rw [← Nat.succ_add_eq_add_succ]
        exact hplaced k shard hk t ht
    · rw [hlen, hlen₁, hnames, List.length_append, List.length_map, Nat.add_assoc]

end Index

/-- The files under a name are the shards of the source, in their places. -/
structure Holds (disk : Disk) (source : GgufFile) (name : ShardName)
    (groups : List (List TensorPlan)) (files : List GgufFile) : Prop where

  count : name.count = groups.length
  length : files.length = groups.length
  opened : ∀ k file, files[k]? = some file → openFile disk (name.sibling (k + 1)) = .ok file
  carries : ∀ k file group, files[k]? = some file → groups[k]? = some group →
    Carries source groups.length k group file

/-- The tensors of all shards are the source's, under names of their own, and few enough. -/
structure Complete (source : GgufFile) (groups : List (List TensorPlan)) : Prop where

  pos : 0 < groups.length
  shards_lt : groups.length < 2 ^ 16
  tensors_lt : source.tensors.length < 2 ^ 31
  total : groups.flatten.length = source.tensors.length
  names : (groups.flatten.map TensorPlan.name).Nodup

namespace Holds

variable {disk : Disk} {name : ShardName} {groups : List (List TensorPlan)} {files : List GgufFile}

theorem group_of_file (h : Holds disk source name groups files) (hk : files[k]? = some file) :
    ∃ group, groups[k]? = some group ∧ Carries source groups.length k group file := by
  have hlt : k < groups.length := by
    rw [← h.length]
    exact (List.getElem?_eq_some_iff.mp hk).1
  exact ⟨groups[k], List.getElem?_eq_getElem hlt, h.carries k file _ hk
    (List.getElem?_eq_getElem hlt)⟩

theorem namesOf_eq (h : Holds disk source name groups files) :
    namesOf files = groups.flatten.map TensorPlan.name := by
  have hmap : files.map (fun f => f.tensors.map TensorInfo.name) =
      groups.map fun group => group.map TensorPlan.name := by
    apply List.ext_getElem?
    intro k
    rw [List.getElem?_map, List.getElem?_map]
    cases hk : files[k]? with
    | none =>
      rw [List.getElem?_eq_none_iff, h.length] at hk
      rw [List.getElem?_eq_none hk]
      rfl
    | some file =>
      obtain ⟨group, hgroup, hcarries⟩ := h.group_of_file hk
      rw [hgroup, Option.map_some, Option.map_some, hcarries.names]
  rw [namesOf, List.flatMap_def, hmap, ← List.map_flatten]

theorem openShard_ok (h : Holds disk source name groups files) (hc : Complete source groups)
    (hk : files[k]? = some file) : ShardedGguf.openShard disk name (1 + k) = .ok file := by
  obtain ⟨group, hgroup, hcarries⟩ := h.group_of_file hk
  have hlt : k < groups.length := (List.getElem?_eq_some_iff.mp hgroup).1
  have hopen := h.opened k file hk
  have hfits := hc.shards_lt
  have hsome : (disk (name.sibling (k + 1))).isNone = false := by
    cases hd : disk (name.sibling (k + 1)) with
    | none =>
      rw [openFile, hd] at hopen
      cases hopen
    | some bytes => rfl
  have hno : metadataU64 file.metadata SPLIT_NO_KEY = some k := by
    rw [hcarries.metadataU64_eq, lookup_no (by omega)]
  have hcount : metadataU64 file.metadata SPLIT_COUNT_KEY = some name.count := by
    rw [hcarries.metadataU64_eq, metadataU64_count (by omega), h.count]
  rw [Nat.add_comm, ShardedGguf.openShard]
  simp only [hsome, hopen, ShardedGguf.splitKey, hno, hcount, Except.mapError, bind, Except.bind,
    Nat.add_sub_cancel, ne_eq, not_true_eq_false, if_false, Bool.false_eq_true]

/-- A later shard's keys are the first's. -/
theorem agrees_of_carries {first : GgufFile} {ts us : List TensorPlan}
    (hfirst : Carries source n 0 ts first) (hfile : Carries source n k us file) (hk : k ≠ 0) :
    ∀ entry ∈ file.metadata.entries, ShardedGguf.agrees first.metadata entry = true := by
  rintro ⟨key, value⟩ hentry
  have hvalue : file.metadata.lookup key = some value :=
    (List.mem_dlookup_iff file.metadata.nodupKeys).mpr hentry
  rw [hfile.lookup] at hvalue
  unfold ShardedGguf.agrees
  dsimp only
  by_cases hno : key = SPLIT_NO_KEY
  · simp [hno]
  by_cases hcount : key = SPLIT_COUNT_KEY
  · subst hcount
    rw [lookup_count, Option.some.injEq] at hvalue
    rw [hfirst.lookup, lookup_count]
    subst hvalue
    simp [ggufValueEq]
  by_cases htensors : key = SPLIT_TENSORS_COUNT_KEY
  · subst htensors
    rw [lookup_tensors, Option.some.injEq] at hvalue
    rw [hfirst.lookup, lookup_tensors]
    subst hvalue
    simp [ggufValueEq]
  · rw [lookup_shardMetadata hno hcount htensors, if_neg hk] at hvalue
    cases hvalue

theorem checkConsistent_ok {first : GgufFile} {rest : List (GgufFile × Path)}
    (h : ∀ p ∈ rest, ∀ entry ∈ p.1.metadata.entries,
      ShardedGguf.agrees first.metadata entry = true) :
    ShardedGguf.checkConsistent first rest = .ok () := by
  induction rest with
  | nil => rfl
  | cons p rest ih =>
    obtain ⟨shard, path⟩ := p
    obtain ⟨hp, hrest⟩ := List.forall_mem_cons.mp h
    have hnone : (shard.metadata.entries.find? fun entry =>
        !ShardedGguf.agrees first.metadata entry) = none := by
      rw [List.find?_eq_none]
      intro entry hentry
      simp [hp entry hentry]
    rw [ShardedGguf.checkConsistent, hnone]
    exact ih hrest

theorem first_of_pos (h : Holds disk source name groups files) (hc : Complete source groups) :
    ∃ first rest, files = first :: rest := by
  have hpos := hc.pos
  rw [← h.length] at hpos
  exact List.exists_cons_of_length_pos hpos

/-- An index over all of the files finds every tensor in its file. -/
theorem indexed (h : Holds disk source name groups files) (hc : Complete source groups) :
    ∃ index, indexShards 0 ∅ files = .ok index ∧ index.entries.length = source.tensors.length ∧
      ∀ paths (k : ℕ) (file : GgufFile), files[k]? = some file → ∀ t ∈ file.tensors,
        ShardedGguf.tensorBytes ⟨files, paths, index⟩ t.name = file.tensorBytes t.name := by
  have hnames := h.namesOf_eq
  have hempty : ∀ name ∈ namesOf files, (∅ : TensorIndex).lookup name = none :=
    fun name _ => AList.lookup_empty name
  obtain ⟨index, hindex, -, hplaced, hlen⟩ := indexShards_ok 0 (hnames ▸ hc.names) hempty
  refine ⟨index, hindex, ?_, ?_⟩
  · rw [hlen, hnames, List.length_map, hc.total]
    exact Nat.zero_add _
  · intro paths k file hk t ht
    obtain ⟨j, hj⟩ := hplaced k file hk t ht
    rw [Nat.zero_add] at hj
    rw [ShardedGguf.tensorBytes, hj]
    dsimp only
    rw [hk]

theorem fromShardSet_ok (h : Holds disk source name groups files) (hc : Complete source groups) :
    ∃ set, ShardedGguf.fromShardSet disk name = .ok set ∧ set.shards = files ∧
      ∀ (k : ℕ) (file : GgufFile), files[k]? = some file → ∀ t ∈ file.tensors,
        set.tensorBytes t.name = file.tensorBytes t.name := by
  obtain ⟨first, rest, hfiles⟩ := h.first_of_pos hc
  obtain ⟨index, hindex, hlen, hbytes⟩ := h.indexed hc
  have hfirst : files[0]? = some first := by rw [hfiles]; rfl
  obtain ⟨group, hgroup, hcarries⟩ := h.group_of_file hfirst
  have hopen : (List.range' 1 name.count).mapM (ShardedGguf.openShard disk name) = .ok files := by
    rw [h.count, ← h.length]
    exact mapM_range'_eq_ok fun k file hk => h.openShard_ok hc hk
  have hconsistent : ShardedGguf.checkConsistent first
      ((files.zip ((List.range' 1 name.count).map name.sibling)).drop 1) = .ok () := by
    apply checkConsistent_ok
    rintro ⟨shard, path⟩ hmem
    obtain ⟨k, hk⟩ := List.mem_iff_getElem?.mp hmem
    rw [List.getElem?_drop] at hk
    have hshard : files[1 + k]? = some shard := (List.getElem?_zip_eq_some.mp hk).1
    obtain ⟨ts, -, hts⟩ := h.group_of_file hshard
    exact agrees_of_carries hcarries hts (by omega)
  have hcount : ShardedGguf.checkCount first index = .ok () := by
    have hkey : metadataU64 first.metadata SPLIT_TENSORS_COUNT_KEY =
        some source.tensors.length := by
      rw [hcarries.metadataU64_eq, metadataU64, lookup_tensors]
      exact asU64_i32 hc.tensors_lt
    rw [ShardedGguf.checkCount, hkey]
    dsimp only
    rw [if_neg (by simp [hlen])]
  refine ⟨_, ?_, rfl, hbytes ((List.range' 1 name.count).map name.sibling)⟩
  rw [ShardedGguf.fromShardSet]
  simp only [hopen, bind, Except.bind]
  rw [hfiles] at hconsistent hindex ⊢
  simp only [hconsistent, hindex, hcount]

/-- Opened by any of its files, the set is the source's shards. -/
theorem openSet_ok (h : Holds disk source name groups files) (hc : Complete source groups)
    (hp : name.pathPrefix ≠ []) (hk : k < groups.length) :
    ∃ set, ShardedGguf.openSet disk (name.sibling (k + 1)) = .ok set ∧ set.shards = files ∧
      ∀ (j : ℕ) (file : GgufFile), files[j]? = some file → ∀ t ∈ file.tensors,
        set.tensorBytes t.name = file.tensorBytes t.name := by
  have hfits := hc.shards_lt
  have hcount := h.count
  obtain ⟨file, hfile⟩ : ∃ file, files[k]? = some file :=
    ⟨_, List.getElem?_eq_getElem (h.length ▸ hk)⟩
  have hopen := h.opened k file hfile
  obtain ⟨group, hgroup, hcarries⟩ := h.group_of_file hfile
  have hdeclared : metadataU64 file.metadata SPLIT_COUNT_KEY = some name.count := by
    rw [hcarries.metadataU64_eq, metadataU64_count (by omega), hcount]
  have hparse : ShardName.parse (name.sibling (k + 1)) = some { name with no := k + 1 } :=
    ShardName.parse_sibling hp (by omega) (by omega)
  rw [ShardedGguf.openSet, hopen]
  simp only [Except.mapError, bind, Except.bind, hdeclared, Option.getD_some]
  by_cases hone : name.count ≤ 1
  · have hlen := h.length
    obtain ⟨index, hindex, -, hbytes⟩ := h.indexed hc
    obtain ⟨first, rest, rfl⟩ := h.first_of_pos hc
    obtain rfl := List.eq_nil_of_length_eq_zero (by
      rw [List.length_cons] at hlen
      omega : rest.length = 0)
    obtain rfl : k = 0 := by omega
    cases hfile
    rw [if_pos hone, ShardedGguf.fromSingle, hindex]
    exact ⟨_, rfl, rfl, hbytes _⟩
  · rw [if_neg hone, hparse]
    dsimp only
    rw [if_neg (by simp)]
    have hset : Holds disk source { name with no := k + 1 } groups files :=
      ⟨h.count, h.length, h.opened, h.carries⟩
    exact hset.fromShardSet_ok hc

end Holds

end Frink.Gguf
