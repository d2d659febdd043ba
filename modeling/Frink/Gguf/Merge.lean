import Frink.Gguf.ShardSet

/-! # Split, then merged

The shards that a plan is written to open as the source, by any of their names,
and merge into one file that is the source again but for the bookkeeping keys.
Whatever copies of the shards lie under whatever names, a set that opens is
complete and in order.
-/

namespace Frink.Gguf

open Codec Guarded

variable {source : GgufFile} {opts : SplitOptions} {plan : SplitPlan} {pathPrefix : Path}
  {disk disk' : Disk} {mmap : Mmap}

def isSplitKey (key : String) : Prop :=
  key = SPLIT_NO_KEY ∨ key = SPLIT_COUNT_KEY ∨ key = SPLIT_TENSORS_COUNT_KEY

/-- Name, shape and element type. -/
def infoKey (i : TensorInfo) : String × List (BitVec 64) × GgmlType := (i.name, i.shape, i.dtype)

/-- The set stands for the source. -/
structure SameModel (source : GgufFile) (set : ShardedGguf) : Prop where

  metadata : ∀ key, ¬ isSplitKey key → set.metadata key = source.metadata.lookup key
  infos : set.tensors.map infoKey = source.tensors.map infoKey
  bytes : ∀ info ∈ source.tensors, set.tensorBytes info.name = source.tensorBytes info.name

/-- The file is the source with bookkeeping keys that mark it as whole. -/
structure SameFile (source file : GgufFile) : Prop where

  metadata : ∀ key, ¬ isSplitKey key → file.metadata.lookup key = source.metadata.lookup key
  whole : metadataU64 file.metadata SPLIT_COUNT_KEY = some 0
  infos : file.tensors.map infoKey = source.tensors.map infoKey
  bytes : ∀ info ∈ source.tensors, file.tensorBytes info.name = source.tensorBytes info.name

def planKey (t : TensorPlan) : String × List (BitVec 64) × GgmlType := (t.name, t.shape, t.dtype)

theorem map_planKey {infos : List TensorInfo} {plans : List TensorPlan}
    (h : infos.mapM tensorPlan = .ok plans) : plans.map planKey = infos.map infoKey := by
  have hall := mapM_eq_ok h
  clear h
  induction hall with
  | nil => rfl
  | @cons i t infos plans hi _ ih =>
    obtain ⟨-, hname, hshape, hdtype⟩ := tensorPlan_ok hi
    rw [List.map_cons, List.map_cons, ih, planKey, infoKey, hname, hshape, hdtype]

theorem map_name_plans {infos : List TensorInfo} {plans : List TensorPlan}
    (h : infos.mapM tensorPlan = .ok plans) :
    plans.map TensorPlan.name = infos.map TensorInfo.name := by
  have hmap := congrArg (List.map Prod.fst) (map_planKey h)
  simpa [Function.comp_def, planKey, infoKey] using hmap

/-- A plan depends on a tensor's name, shape and type. -/
theorem mapM_tensorPlan_congr {infos infos' : List TensorInfo}
    (h : infos.map infoKey = infos'.map infoKey) :
    infos.mapM tensorPlan = infos'.mapM tensorPlan := by
  induction infos generalizing infos' with
  | nil =>
    obtain rfl := List.map_eq_nil_iff.mp h.symm
    rfl
  | cons i infos ih =>
    obtain ⟨j, rest, rfl, hkey, hrest⟩ := List.map_eq_cons_iff.mp h.symm
    simp only [infoKey, Prod.mk.injEq] at hkey
    have hone : tensorPlan j = tensorPlan i := by
      rw [tensorPlan, tensorPlan, hkey.1, hkey.2.1, hkey.2.2]
    rw [List.mapM_cons, List.mapM_cons, hone, ih hrest.symm]

theorem rank_lt_of_parse {file : GgufFile} (h : GgufFile.parse mmap = .ok file) :
    ∀ info ∈ file.tensors, info.shape.length < 2 ^ 32 := by
  unfold GgufFile.parse at h
  obtain ⟨⟨header, rest⟩, hread, h⟩ := bind_eq_ok.mp h
  have hheader := rank_lt_of_header hread
  dsimp only at h
  split at h
  · split at h
    · cases h
      exact hheader
    · cases h
  · cases h

theorem openFile_congr {disk₁ disk₂ : Disk} {p₁ p₂ : Path} (h : disk₁ p₁ = disk₂ p₂) :
    openFile disk₁ p₁ = openFile disk₂ p₂ := by
  unfold openFile
  rw [h]

/-- The planned tensors of every shard. -/
def groupsOf (plan : SplitPlan) : List (List TensorPlan) := plan.shards.map ShardPlan.tensors

/-- The name that the shards are written under. -/
def setName (plan : SplitPlan) (pathPrefix : Path) : ShardName :=
  ⟨pathPrefix, 0, plan.shards.length⟩

section Plan

variable (hplan : planSplit source opts = .ok plan)
include hplan

theorem plans_of_plan : ∃ alignment,
    declaredAlignment (source.metadata.lookup "general.alignment") = .ok alignment ∧
      source.tensors.mapM tensorPlan = .ok (groupsOf plan).flatten ∧
      0 < plan.shards.length ∧ plan.shards.length < 2 ^ 16 ∧ source.tensors.length < 2 ^ 31 ∧
      ∀ (k : ℕ) (shard : ShardPlan), plan.shards[k]? = some shard →
        planShard source alignment plan.shards.length k shard.tensors = .ok shard := by
  obtain ⟨alignment, plans, groups, ha, hm, hn, hplans, hgroups, hcount, hshards⟩ :=
    planSplit_ok hplan
  have hmap := (planShards_ok hshards).1
  have hlen := length_shards hshards
  have hflat := (inOrder_of_placed hgroups).flatten
  refine ⟨alignment, ha, ?_, ?_, by omega, hn, ?_⟩
  · rw [groupsOf, hmap, hflat, hplans]
  · rw [hlen, Groups.toList, List.length_append, List.length_singleton]
    omega
  · intro k shard hk
    have hone := (planShards_ok hshards).2 k shard hk
    rwa [Nat.zero_add, ← hlen] at hone

theorem complete_of_plan (hnames : (source.tensors.map TensorInfo.name).Nodup) :
    Complete source (groupsOf plan) := by
  obtain ⟨alignment, -, hplans, hpos, hlt, hn, -⟩ := plans_of_plan hplan
  have hlen : (groupsOf plan).length = plan.shards.length := List.length_map _
  refine ⟨hlen ▸ hpos, hlen ▸ hlt, hn, (mapM_eq_ok hplans).length_eq.symm, ?_⟩
  rwa [map_name_plans hplans]

end Plan

section Written

variable (hparse : GgufFile.parse mmap = .ok source) (hplan : planSplit source opts = .ok plan)
  (hw : writeSplit source plan pathPrefix disk = .ok disk')

include hplan hw in
/-- The file of shard `k`, written from the source. -/
theorem written_at {k : ℕ} {shard : ShardPlan} (hk : plan.shards[k]? = some shard) :
    ∃ bytes, writeFileFrom source.tensorBytes shard.metadata shard.tensors = .ok bytes ∧
      disk' ((setName plan pathPrefix).sibling (k + 1)) = some bytes := by
  obtain ⟨-, -, -, -, hlt, -, -⟩ := plans_of_plan hplan
  have hok := writeShards_ok hw (by omega) hk
  rwa [Nat.zero_add] at hok

include hparse hplan in
theorem planned_of_mem {t : TensorPlan} (ht : t ∈ (groupsOf plan).flatten) :
    byteLen t.shape t.dtype = some t.byteLen ∧ t.shape.length < 2 ^ 32 ∧
      ∃ info ∈ source.tensors, info.name = t.name := by
  obtain ⟨alignment, -, hplans, -⟩ := plans_of_plan hplan
  obtain ⟨info, hmem, hinfo⟩ := exists_of_forall₂_right (mapM_eq_ok hplans) ht
  obtain ⟨hlen, hname, hshape, hdtype⟩ := tensorPlan_ok hinfo
  rw [hshape, hdtype]
  exact ⟨hlen, rank_lt_of_parse hparse info hmem, info, hmem, hname.symm⟩

include hparse hplan hw in
/-- Every shard's file is opened as its shard. -/
theorem opened_at {k : ℕ} (hk : k < plan.shards.length)
    (hfit : ∀ bytes, disk' ((setName plan pathPrefix).sibling (k + 1)) = some bytes →
      bytes.length < 2 ^ 63) :
    ∃ file, openFile disk' ((setName plan pathPrefix).sibling (k + 1)) = .ok file ∧
      ∀ group, (groupsOf plan)[k]? = some group →
        Carries source plan.shards.length k group file := by
  obtain ⟨alignment, ha, hplans, -, -, -, hshards⟩ := plans_of_plan hplan
  have hshard := List.getElem?_eq_getElem hk
  obtain ⟨bytes, hbytes, hdisk⟩ := written_at hplan hw hshard
  obtain ⟨hmeta, -, -, header, hheader, -⟩ := planShard_ok (hshards k _ hshard)
  have hown := declaredAlignment_shard k plan.shards.length source.tensors.length ha
  rw [← hmeta] at hown
  have hgroup : (groupsOf plan)[k]? = some plan.shards[k].tensors := by
    rw [groupsOf, List.getElem?_map, hshard]
    rfl
  have hsub : ∀ t ∈ plan.shards[k].tensors, t ∈ (groupsOf plan).flatten := fun t ht =>
    List.mem_flatten.mpr ⟨_, List.mem_of_getElem? hgroup, ht⟩
  have hplanned : ∀ t ∈ plan.shards[k].tensors,
      byteLen t.shape t.dtype = some t.byteLen ∧ t.shape.length < 2 ^ 32 := fun t ht =>
    ⟨(planned_of_mem hparse hplan (hsub t ht)).1, (planned_of_mem hparse hplan (hsub t ht)).2.1⟩
  obtain ⟨file, hfile, hlookup, hinfos, hfound⟩ :=
    carries_of_written hown hheader hplanned hbytes (hfit bytes hdisk)
  refine ⟨file, ?_, ?_⟩
  · rw [openFile, hdisk]
    dsimp only
    rw [dif_pos (hfit bytes hdisk), hfile]
    rfl
  · intro group hg
    rw [hgroup, Option.some.injEq] at hg
    subst hg
    rw [hmeta] at hlookup
    exact ⟨hlookup, hinfos, hfound⟩

include hparse hplan hw in
theorem holds_of_written
    (hfit : ∀ k < plan.shards.length, ∀ bytes,
      disk' ((setName plan pathPrefix).sibling (k + 1)) = some bytes → bytes.length < 2 ^ 63) :
    ∃ files, Holds disk' source (setName plan pathPrefix) (groupsOf plan) files := by
  have hlen : (groupsOf plan).length = plan.shards.length := List.length_map _
  obtain ⟨files, hfiles, hall⟩ := exists_list_of_forall fun k hk =>
    opened_at hparse hplan hw hk (hfit k hk)
  refine ⟨files, hlen.symm, hfiles.trans hlen.symm, fun k file hk => (hall k file hk).1, ?_⟩
  intro k file group hk hg
  rw [hlen]
  exact (hall k file hk).2 group hg

end Written

section Model

variable {name : ShardName} {groups : List (List TensorPlan)} {files : List GgufFile}
  {set : ShardedGguf}

theorem infos_of_holds (h : Holds disk source name groups files) :
    (files.flatMap fun f => f.tensors).map infoKey = groups.flatten.map planKey := by
  have hmap : files.map (fun f => f.tensors.map infoKey) =
      groups.map fun group => group.map planKey := by
    apply List.ext_getElem?
    intro k
    rw [List.getElem?_map, List.getElem?_map]
    cases hk : files[k]? with
    | none =>
      rw [List.getElem?_eq_none_iff, h.length] at hk
      rw [List.getElem?_eq_none hk]
      rfl
    | some file =>
      obtain ⟨group, hgroup, hcarries⟩ := h.group_of_file hk
      rw [hgroup, Option.map_some, Option.map_some]
      exact congrArg some hcarries.infos
  rw [List.map_flatMap, List.flatMap_def, hmap, ← List.map_flatten]

theorem metadata_of_holds (h : Holds disk source name groups files) {key : String}
    (hkey : ¬ isSplitKey key) (hpos : files ≠ []) :
    files.findSome? (fun f => f.metadata.lookup key) = source.metadata.lookup key := by
  simp only [isSplitKey, not_or] at hkey
  have hfile : ∀ (k : ℕ) (file : GgufFile), files[k]? = some file →
      file.metadata.lookup key = if k = 0 then source.metadata.lookup key else none := by
    intro k file hk
    obtain ⟨group, -, hcarries⟩ := h.group_of_file hk
    rw [hcarries.lookup, lookup_shardMetadata hkey.1 hkey.2.1 hkey.2.2]
  obtain ⟨first, rest, rfl⟩ := List.exists_cons_of_ne_nil hpos
  rw [List.findSome?_cons, hfile 0 first rfl, if_pos rfl]
  cases source.metadata.lookup key with
  | some value => rfl
  | none =>
    apply List.findSome?_eq_none_iff.mpr
    intro file hmem
    obtain ⟨k, hk⟩ := List.mem_iff_getElem?.mp hmem
    rw [hfile (k + 1) file hk, if_neg (Nat.succ_ne_zero k)]

/-- A file of the set has the tensor that is planned under a name, with the source's bytes. -/
theorem bytes_of_holds (h : Holds disk source name groups files) {t : TensorPlan}
    (ht : t ∈ groups.flatten)
    (hbytes : ∀ (k : ℕ) (file : GgufFile), files[k]? = some file → ∀ t ∈ file.tensors,
      set.tensorBytes t.name = file.tensorBytes t.name) :
    set.tensorBytes t.name = source.tensorBytes t.name := by
  obtain ⟨group, hgroup, ht⟩ := List.mem_flatten.mp ht
  obtain ⟨k, hk⟩ := List.mem_iff_getElem?.mp hgroup
  have hlt : k < files.length := by
    rw [h.length]
    exact (List.getElem?_eq_some_iff.mp hk).1
  have hfile := List.getElem?_eq_getElem hlt
  have hcarries := h.carries k _ group hfile hk
  have hname : t.name ∈ files[k].tensors.map TensorInfo.name := by
    rw [hcarries.names]
    exact List.mem_map_of_mem ht
  obtain ⟨info, hinfo, heq⟩ := List.mem_map.mp hname
  rw [← hcarries.bytes t ht, ← heq]
  exact hbytes k _ hfile info hinfo

theorem sameModel_of_holds (h : Holds disk source name groups files)
    (hplans : source.tensors.mapM tensorPlan = .ok groups.flatten) (hpos : files ≠ [])
    (hset : set.shards = files)
    (hbytes : ∀ (k : ℕ) (file : GgufFile), files[k]? = some file → ∀ t ∈ file.tensors,
      set.tensorBytes t.name = file.tensorBytes t.name) : SameModel source set := by
  refine ⟨?_, ?_, ?_⟩
  · intro key hkey
    rw [ShardedGguf.metadata, hset]
    exact metadata_of_holds h hkey hpos
  · rw [ShardedGguf.tensors, hset, infos_of_holds h, map_planKey hplans]
  · intro info hinfo
    obtain ⟨t, ht, hplan⟩ := exists_of_forall₂_left (mapM_eq_ok hplans) hinfo
    rw [← (tensorPlan_ok hplan).2.1]
    exact bytes_of_holds h ht hbytes

end Model

section Refuse

variable (hparse : GgufFile.parse mmap = .ok source) (hplan : planSplit source opts = .ok plan)
  (hw : writeSplit source plan pathPrefix disk = .ok disk')

include hparse hplan hw in
/-- A set of copies that opens has every shard in its place. -/
theorem set_in_place {copies : Disk} {path : Path} {set : ShardedGguf}
    (hfit : ∀ k < plan.shards.length, ∀ bytes,
      disk' ((setName plan pathPrefix).sibling (k + 1)) = some bytes → bytes.length < 2 ^ 63)
    (htwo : 2 ≤ plan.shards.length)
    (hcopies : ∀ p, copies p = none ∨ ∃ k < plan.shards.length,
      copies p = disk' ((setName plan pathPrefix).sibling (k + 1)))
    (hopen : ShardedGguf.openSet copies path = .ok set) :
    ∃ name, ShardName.parse path = some name ∧ name.count = plan.shards.length ∧
      ∀ k < plan.shards.length, copies (name.sibling (k + 1)) =
        disk' ((setName plan pathPrefix).sibling (k + 1)) := by
  obtain ⟨alignment, -, -, -, hlt, -, -⟩ := plans_of_plan hplan
  have hlen : (groupsOf plan).length = plan.shards.length := List.length_map _
  -- What opens anywhere is some shard, with that shard's number and the count.
  have hshard : ∀ p file, openFile copies p = .ok file → ∃ k < plan.shards.length,
      copies p = disk' ((setName plan pathPrefix).sibling (k + 1)) ∧
        metadataU64 file.metadata SPLIT_NO_KEY = some k ∧
        metadataU64 file.metadata SPLIT_COUNT_KEY = some plan.shards.length := by
    intro p file hp
    rcases hcopies p with hnone | ⟨k, hk, hcopy⟩
    · rw [openFile, hnone] at hp
      cases hp
    · obtain ⟨file', hfile', hcarries⟩ := opened_at hparse hplan hw hk (hfit k hk)
      rw [openFile_congr hcopy, hfile'] at hp
      cases hp
      have hc := hcarries _ (List.getElem?_eq_getElem (hlen.symm ▸ hk))
      refine ⟨k, hk, hcopy, ?_, ?_⟩
      · rw [hc.metadataU64_eq, lookup_no (by omega)]
      · rw [hc.metadataU64_eq, metadataU64_count hlt]
  unfold ShardedGguf.openSet at hopen
  obtain ⟨first, hfirst, hopen⟩ := bind_eq_ok.mp hopen
  obtain ⟨-, -, -, -, hcount⟩ := hshard path first (mapError_eq_ok.mp hfirst)
  dsimp only at hopen
  rw [hcount, Option.getD_some, if_neg (by omega)] at hopen
  split at hopen
  · cases hopen
  rename_i name hname
  split at hopen
  · cases hopen
  rename_i hcount'
  rw [not_not] at hcount'
  refine ⟨name, hname, hcount', ?_⟩
  intro k hk
  unfold ShardedGguf.fromShardSet at hopen
  obtain ⟨shards, hshards, -⟩ := bind_eq_ok.mp hopen
  have hmem : 1 + k ∈ List.range' 1 name.count := by
    rw [List.mem_range'_1]
    omega
  obtain ⟨file, -, hfile⟩ := exists_of_forall₂_left (mapM_eq_ok hshards) hmem
  rw [Nat.add_comm] at hfile
  unfold ShardedGguf.openShard at hfile
  dsimp only at hfile
  split at hfile
  · cases hfile
  obtain ⟨file', hopened, hfile⟩ := bind_eq_ok.mp hfile
  obtain ⟨j, hj, hcopy, hno, -⟩ := hshard _ file' (mapError_eq_ok.mp hopened)
  simp only [ShardedGguf.splitKey, hno, bind, Except.bind] at hfile
  split at hfile
  · cases hfile
  rename_i heq
  rw [not_not, Nat.add_sub_cancel] at heq
  rw [hcopy, heq]

end Refuse

section Header

variable {metadata : Metadata} {tensors : List TensorPlan} {alignment offset : ℕ}

theorem writeValue_of_entries {entries : List (Sigma fun _ : String => GgufValue)}
    {bytes : List UInt8} (h : writeEntries entries = .ok bytes) :
    ∀ e ∈ entries, ∃ b, writeValue e.1 e.2 = .ok b := by
  induction entries generalizing bytes with
  | nil => simp
  | cons e entries ih =>
    obtain ⟨b, bs, hb, hbs, -⟩ := writeEntries_cons h
    obtain ⟨body, hbody, -⟩ := writeEntry_eq_ok hb
    exact List.forall_mem_cons.mpr ⟨⟨body, hbody⟩, ih hbs⟩

theorem writeEntries_of {entries : List (Sigma fun _ : String => GgufValue)}
    (h : ∀ e ∈ entries, ∃ b, writeValue e.1 e.2 = .ok b) :
    ∃ bytes, writeEntries entries = .ok bytes := by
  induction entries with
  | nil => exact ⟨[], rfl⟩
  | cons e entries ih =>
    obtain ⟨⟨b, hb⟩, hrest⟩ := List.forall_mem_cons.mp h
    obtain ⟨bs, hbs⟩ := ih hrest
    obtain ⟨key, value⟩ := e
    rw [writeEntries, writeEntry, hb, hbs]
    exact ⟨_, rfl⟩

theorem shape_of_checkPlan {seen : List String} (h : checkPlan seen tensors = .ok ()) :
    ∀ t ∈ tensors, t.shape.isEmpty = false := by
  induction tensors generalizing seen with
  | nil => simp
  | cons t tensors ih =>
    rw [checkPlan] at h
    split at h
    · cases h
    rename_i hshape
    split at h
    · cases h
    exact List.forall_mem_cons.mpr ⟨Bool.eq_false_iff.mpr hshape, ih h⟩

theorem checkPlan_of {seen : List String} (hshape : ∀ t ∈ tensors, t.shape.isEmpty = false)
    (hnames : (tensors.map TensorPlan.name).Nodup)
    (hseen : ∀ t ∈ tensors, t.name ∉ seen) : checkPlan seen tensors = .ok () := by
  induction tensors generalizing seen with
  | nil => rfl
  | cons t tensors ih =>
    obtain ⟨hnew, hnames⟩ := List.nodup_cons.mp hnames
    obtain ⟨ht, hshape⟩ := List.forall_mem_cons.mp hshape
    obtain ⟨hfresh, hseen⟩ := List.forall_mem_cons.mp hseen
    rw [checkPlan, if_neg (by simp [ht]), if_neg hfresh]
    apply ih hshape hnames
    intro u hu
    rw [List.mem_cons, not_or]
    exact ⟨fun heq => hnew (heq ▸ List.mem_map_of_mem hu), hseen u hu⟩

/-- Offsets that stay in the address space are written. -/
theorem writeDescriptors_of (ha : 0 < alignment) (hd : alignment ∣ offset)
    (hsum : offset + paddedSum alignment tensors < USIZE_LIMIT) :
    ∃ bytes, writeDescriptors alignment tensors offset = .ok bytes := by
  induction tensors generalizing offset with
  | nil => exact ⟨[], rfl⟩
  | cons t tensors ih =>
    have hsplit : paddedSum alignment (t :: tensors) =
        paddedLen alignment t + paddedSum alignment tensors := by simp [paddedSum]
    have hnext : nextMultipleOf (offset + t.byteLen) alignment =
        offset + paddedLen alignment t := nextMultipleOf_add ha hd
    have hle : t.byteLen ≤ paddedLen alignment t := le_nextMultipleOf ha
    rw [hsplit] at hsum
    obtain ⟨bytes, hbytes⟩ := ih (Nat.dvd_add hd (dvd_nextMultipleOf t.byteLen alignment))
      (by rw [paddedLen] at hsum; omega)
    rw [writeDescriptors, hnext, if_pos ⟨by omega, by omega⟩]
    exact ⟨_, bind_eq_ok.mpr ⟨bytes, hbytes, rfl⟩⟩

theorem encodeHeader_of
    (ha : declaredAlignment (metadata.lookup "general.alignment") = .ok alignment)
    (hvalues : ∀ e ∈ metadata.entries, ∃ b, writeValue e.1 e.2 = .ok b)
    (hshape : ∀ t ∈ tensors, t.shape.isEmpty = false)
    (hnames : (tensors.map TensorPlan.name).Nodup)
    (hsum : paddedSum alignment tensors < USIZE_LIMIT) :
    ∃ header, encodeHeader metadata tensors = .ok header := by
  obtain ⟨entries, hentries⟩ := writeEntries_of hvalues
  obtain ⟨descriptors, hdescriptors⟩ := writeDescriptors_of
    (isPowerOfTwo_pos (declaredAlignment_eq_ok ha).1) (Nat.dvd_zero alignment)
    (by rwa [Nat.zero_add])
  rw [encodeHeader, ha, checkPlan_of hshape hnames (by simp), hentries]
  simp only [bind, Except.bind, hdescriptors]
  exact ⟨_, rfl⟩

end Header

section Merge

variable {name : ShardName} {groups : List (List TensorPlan)} {files : List GgufFile}

/-- The merge of a set that holds the source is planned with the source's tensors. -/
theorem planMerge_of_holds (h : Holds disk source name groups files) (hc : Complete source groups)
    (hp : name.pathPrefix ≠ []) (hplans : source.tensors.mapM tensorPlan = .ok groups.flatten) :
    ∃ merge first, planMerge disk (name.sibling 1) = .ok merge ∧ files[0]? = some first ∧
      merge.metadata = toBTreeMap (first.metadata.insert SPLIT_COUNT_KEY (.u16 0)) ∧
      merge.tensors = groups.flatten ∧ SameModel source merge.set := by
  have hcount := h.count
  have hlt := hc.shards_lt
  have hpos := hc.pos
  obtain ⟨first, rest, hfiles⟩ := h.first_of_pos hc
  have hfirst : files[0]? = some first := by rw [hfiles]; rfl
  obtain ⟨group, -, hcarries⟩ := h.group_of_file hfirst
  obtain ⟨set, hset, hshards, hbytes⟩ := h.openSet_ok hc hp hpos
  have hsame := sameModel_of_holds h hplans (by rw [hfiles]; exact List.cons_ne_nil _ _) hshards
    hbytes
  have hparse : ShardName.parse (name.sibling 1) = some { name with no := 1 } :=
    ShardName.parse_sibling hp (by decide) (by omega)
  have hopen : openFirst disk (name.sibling 1) = .ok first := by
    rw [openFirst, h.opened 0 first hfirst]
  have hdeclared : metadataU64 first.metadata SPLIT_COUNT_KEY = some name.count := by
    rw [hcarries.metadataU64_eq, metadataU64_count (by omega), hcount]
  obtain ⟨m, hm⟩ : ∃ m, name.count = m + 1 := ⟨name.count - 1, by omega⟩
  have htensors : set.tensors.mapM tensorPlan = .ok groups.flatten := by
    rw [mapM_tensorPlan_congr hsame.infos, hplans]
  have hset' : ShardedGguf.openSet disk (name.sibling 1) = .ok set := hset
  refine ⟨⟨set, toBTreeMap (first.metadata.insert SPLIT_COUNT_KEY (.u16 0)), groups.flatten⟩,
    first, ?_, hfirst, rfl, rfl, hsame⟩
  rw [planMerge, hparse, Option.filter_some, if_pos (by simp)]
  simp only [bind, Except.bind, hopen, hdeclared, hm]
  rw [if_neg (by simp), hset']
  simp only [Except.mapError, htensors]

theorem shape_of_planned {plan : SplitPlan} (hplan : planSplit source opts = .ok plan) :
    ∀ t ∈ (groupsOf plan).flatten, t.shape.isEmpty = false := by
  obtain ⟨alignment, -, -, -, -, -, hshards⟩ := plans_of_plan hplan
  intro t ht
  obtain ⟨group, hgroup, ht⟩ := List.mem_flatten.mp ht
  obtain ⟨shard, hmem, rfl⟩ := List.mem_map.mp hgroup
  obtain ⟨k, hk⟩ := List.mem_iff_getElem?.mp hmem
  obtain ⟨-, -, -, header, hheader, -⟩ := planShard_ok (hshards k shard hk)
  obtain ⟨-, -, -, -, hcheck, -⟩ := encodeHeader_eq_ok hheader
  exact shape_of_checkPlan hcheck t ht

/-- The values of the first shard were written once, so they can be written again. -/
theorem values_of_merge (hplan : planSplit source opts = .ok plan) {first : GgufFile}
    {ts : List TensorPlan} (hcarries : Carries source plan.shards.length 0 ts first) :
    ∀ e ∈ (toBTreeMap (first.metadata.insert SPLIT_COUNT_KEY (.u16 0))).entries,
      ∃ b, writeValue e.1 e.2 = .ok b := by
  obtain ⟨alignment, -, -, hpos, -, -, hshards⟩ := plans_of_plan hplan
  obtain ⟨hmeta, -, -, header, hheader, -⟩ :=
    planShard_ok (hshards 0 _ (List.getElem?_eq_getElem hpos))
  obtain ⟨-, entries, -, -, -, hentries, -⟩ := encodeHeader_eq_ok hheader
  rw [hmeta] at hentries
  rintro ⟨key, value⟩ hentry
  have hvalue : (toBTreeMap (first.metadata.insert SPLIT_COUNT_KEY (.u16 0))).lookup key =
      some value := (List.mem_dlookup_iff (toBTreeMap _).nodupKeys).mpr hentry
  rw [lookup_toBTreeMap] at hvalue
  by_cases hkey : key = SPLIT_COUNT_KEY
  · subst hkey
    rw [AList.lookup_insert, Option.some.injEq] at hvalue
    subst hvalue
    exact ⟨_, rfl⟩
  · rw [AList.lookup_insert_ne hkey, hcarries.lookup] at hvalue
    exact writeValue_of_entries hentries ⟨key, value⟩
      ((List.mem_dlookup_iff (shardMetadata _ _ _ _).nodupKeys).mp hvalue)

end Merge

/-- The tensors' padded bytes fit in an address. -/
def MergeFits (source : GgufFile) : Prop :=
  ∀ alignment plans, declaredAlignment (source.metadata.lookup "general.alignment") = .ok alignment →
    source.tensors.mapM tensorPlan = .ok plans → paddedSum alignment plans < USIZE_LIMIT

/-- What the merged file gives back, where it is not too long to be mapped. -/
def MergesBack (source : GgufFile) (disk : Disk) (first out : Path) : Prop :=
  ∃ merge disk' bytes, planMerge disk first = .ok merge ∧ writeMerge disk merge out = .ok disk' ∧
    disk' out = some bytes ∧ (bytes.length < 2 ^ 63 →
      ∃ file, openFile disk' out = .ok file ∧ SameFile source file)

section Main

variable (hparse : GgufFile.parse mmap = .ok source) (hplan : planSplit source opts = .ok plan)
  (hnames : (source.tensors.map TensorInfo.name).Nodup) (hp : pathPrefix ≠ [])
  (hw : writeSplit source plan pathPrefix disk = .ok disk')
  (hfit : ∀ k < plan.shards.length, ∀ bytes,
    disk' ((setName plan pathPrefix).sibling (k + 1)) = some bytes → bytes.length < 2 ^ 63)

include hparse hplan hnames hp hw hfit in
theorem merges_back (hsum : MergeFits source) {out : Path} (hout : disk' out = none) :
    MergesBack source disk' ((setName plan pathPrefix).sibling 1) out := by
  obtain ⟨alignment, ha, hplans, hpos, -, -, -⟩ := plans_of_plan hplan
  have hlen : (groupsOf plan).length = plan.shards.length := List.length_map _
  have hc := complete_of_plan hplan hnames
  obtain ⟨files, hholds⟩ := holds_of_written hparse hplan hw hfit
  obtain ⟨merge, first, hmerge, hfirst, hmeta, htensors, hsame⟩ :=
    planMerge_of_holds hholds hc hp hplans
  obtain ⟨group, -, hcarries⟩ := hholds.group_of_file hfirst
  rw [hlen] at hcarries
  have hlookup : ∀ key, key ≠ SPLIT_COUNT_KEY → merge.metadata.lookup key =
      (shardMetadata source.metadata 0 plan.shards.length source.tensors.length).lookup key := by
    intro key hkey
    rw [hmeta, lookup_toBTreeMap, AList.lookup_insert_ne hkey, hcarries.lookup]
  have hown : declaredAlignment (merge.metadata.lookup "general.alignment") = .ok alignment := by
    rw [hlookup _ (by decide), declaredAlignment_shard 0 _ _ ha, if_pos rfl]
  obtain ⟨header, hheader⟩ := encodeHeader_of hown (hmeta ▸ values_of_merge hplan hcarries)
    (shape_of_planned hplan) hc.names (hsum alignment _ ha hplans)
  have hfound : ∃ data, Found merge.set.tensorBytes (groupsOf plan).flatten data := by
    obtain ⟨data, hdata⟩ : ∃ data, Found source.tensorBytes (groupsOf plan).flatten data := by
      obtain ⟨a, plans, groups, ha', -, -, hplans', hgroups, hcount, hshards⟩ := planSplit_ok hplan
      exact (readable_of_written ha' hplans' hgroups hcount hshards hw).found hplans
        fun t ht => ht
    refine ⟨data, hdata.congr ?_⟩
    intro t ht
    obtain ⟨-, -, info, hinfo, hname⟩ := planned_of_mem hparse hplan ht
    rw [← hname]
    exact hsame.bytes info hinfo
  obtain ⟨data, hdata⟩ := hfound
  have hwritten := writeFileFrom_found hown hheader hdata
  refine ⟨merge, disk'.write out (header ++ dataSection alignment data 0),
    header ++ dataSection alignment data 0, hmerge, ?_, disk'.write_same out _, ?_⟩
  · rw [writeMerge, hout, htensors, hwritten]
    rfl
  · intro hlt
    obtain ⟨file, hfile, hkeys, hinfos, hback⟩ := carries_of_written hown hheader
      (fun t ht => ⟨(planned_of_mem hparse hplan ht).1, (planned_of_mem hparse hplan ht).2.1⟩)
      hwritten hlt
    refine ⟨file, ?_, ?_, ?_, ?_, ?_⟩
    · rw [openFile, disk'.write_same]
      dsimp only
      rw [dif_pos hlt, hfile]
      rfl
    · intro key hkey
      have hne := hkey
      simp only [isSplitKey, not_or] at hne
      rw [hkeys, hlookup key hne.2.1, lookup_shardMetadata hne.1 hne.2.1 hne.2.2, if_pos rfl]
    · rw [metadataU64, hkeys, hmeta, lookup_toBTreeMap, AList.lookup_insert]
      rfl
    · exact hinfos.trans (map_planKey hplans)
    · intro info hinfo
      obtain ⟨t, ht, hinfo'⟩ := exists_of_forall₂_left (mapM_eq_ok hplans) hinfo
      rw [← (tensorPlan_ok hinfo').2.1, hback t ht, (tensorPlan_ok hinfo').2.1]
      exact hsame.bytes info hinfo

include hparse hplan hnames hp hw hfit in
/-- Opened from any shard, the set is the source; merged, it is the source in one file; and of
two shards or more, no set of copies opens but the complete one. -/
theorem split_then_merge_restores :
    (∀ k < plan.shards.length, ∃ set,
      ShardedGguf.openSet disk' (shardPath pathPrefix k plan.shards.length) = .ok set ∧
        SameModel source set) ∧
    (MergeFits source → ∀ out, disk' out = none →
      MergesBack source disk' (shardPath pathPrefix 0 plan.shards.length) out) ∧
    (2 ≤ plan.shards.length → ∀ copies : Disk,
      (∀ p, copies p = none ∨ ∃ k < plan.shards.length,
        copies p = disk' (shardPath pathPrefix k plan.shards.length)) →
      ∀ path set, ShardedGguf.openSet copies path = .ok set →
        ∃ name, ShardName.parse path = some name ∧ name.count = plan.shards.length ∧
          ∀ k < plan.shards.length, copies (name.sibling (k + 1)) =
            disk' (shardPath pathPrefix k plan.shards.length)) := by
  obtain ⟨alignment, ha, hplans, hpos, -, -, -⟩ := plans_of_plan hplan
  have hlen : (groupsOf plan).length = plan.shards.length := List.length_map _
  have hc := complete_of_plan hplan hnames
  obtain ⟨files, hholds⟩ := holds_of_written hparse hplan hw hfit
  refine ⟨?_, ?_, ?_⟩
  · intro k hk
    obtain ⟨first, rest, hfiles⟩ := hholds.first_of_pos hc
    obtain ⟨set, hset, hshards, hbytes⟩ := hholds.openSet_ok hc hp (hlen.symm ▸ hk)
    exact ⟨set, hset, sameModel_of_holds hholds hplans
      (by rw [hfiles]; exact List.cons_ne_nil _ _) hshards hbytes⟩
  · intro hsum out hout
    exact merges_back hparse hplan hnames hp hw hfit hsum hout
  · intro htwo copies hcopies path set hopen
    exact set_in_place hparse hplan hw hfit htwo hcopies hopen

end Main

set_option maxRecDepth 20000 in
theorem split_then_merge_restores_plain :
    ∃ source plan disk', GgufFile.parse plainFile = .ok source ∧
      planSplit source tensorFree = .ok plan ∧
      writeSplit source plan ['s'] (fun _ => none) = .ok disk' ∧
      (∃ set, ShardedGguf.openSet disk' (shardPath ['s'] 1 2) = .ok set ∧ SameModel source set) ∧
      MergesBack source disk' (shardPath ['s'] 0 2) ['o'] := by
  refine ⟨_, _, _, rfl, rfl, rfl, ?_⟩
  have hrestores := split_then_merge_restores (rfl : GgufFile.parse plainFile = _)
    (rfl : planSplit _ tensorFree = _) (by decide) (List.cons_ne_nil 's' [])
    (rfl : writeSplit _ _ _ (fun _ => none) = _) ?_
  · refine ⟨hrestores.1 1 (by decide), hrestores.2.1 ?_ ['o'] (by decide)⟩
    intro alignment plans ha hplans
    cases ha
    cases hplans
    decide
  · intro k hk bytes hbytes
    have hk : k < 2 := hk
    obtain rfl | rfl : k = 0 ∨ k = 1 := by omega
    · cases hbytes
      decide
    · cases hbytes
      decide

set_option maxRecDepth 2000 in
/-- Two numbers under one name. -/
def doubledFile : Mmap :=
  ⟨leBytes 4 GGUF_MAGIC ++ leBytes 4 3 ++ leBytes 8 2 ++ leBytes 8 0 ++ writeString "w" ++
    leBytes 4 1 ++ leBytes 8 1 ++ leBytes 4 0 ++ leBytes 8 0 ++ writeString "w" ++
      leBytes 4 1 ++ leBytes 8 1 ++ leBytes 4 0 ++ leBytes 8 0 ++ List.replicate 6 0 ++
        [1, 2, 3, 4], by decide⟩

theorem not_ok_of_isOk {ε α : Type} {r : Except ε α} (h : r.isOk = false) (a : α) : r ≠ .ok a := by
  rintro rfl
  cases h

theorem ok_of_isOk {ε α : Type} {r : Except ε α} (h : r.isOk = true) : ∃ a, r = .ok a := by
  cases r with
  | error e => cases h
  | ok a => exact ⟨a, rfl⟩

set_option maxRecDepth 20000 in
theorem split_then_merge_restores_not_all :
    (∃ source plan disk', GgufFile.parse doubledFile = .ok source ∧
      planSplit source ⟨.maxTensors 1, false⟩ = .ok plan ∧
      writeSplit source plan ['s'] (fun _ => none) = .ok disk' ∧
      ∀ set, ShardedGguf.openSet disk' (shardPath ['s'] 0 2) ≠ .ok set) ∧
    ∃ source plan disk', GgufFile.parse plainFile = .ok source ∧
      planSplit source ⟨.maxTensors 1, false⟩ = .ok plan ∧
      writeSplit source plan ['s'] (fun _ => none) = .ok disk' ∧ plan.shards.length = 1 ∧
      ∃ set, ShardedGguf.openSet
        (fun p => if p = shardPath ['s'] 1 1 then disk' (shardPath ['s'] 0 1) else none)
        (shardPath ['s'] 1 1) = .ok set := by
  constructor
  · refine ⟨_, _, _, rfl, rfl, rfl, not_ok_of_isOk ?_⟩
    decide +kernel
  · refine ⟨_, _, _, rfl, rfl, rfl, rfl, ok_of_isOk ?_⟩
    decide +kernel

end Frink.Gguf
