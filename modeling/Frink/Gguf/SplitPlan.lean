import Frink.Gguf.Pricing

/-! # What a split plan promises

The tensors in order, no empty shard after the first, the limit, and the size of
every file. An accepted plan keeps the last two promises on all sources but those
whose later tensors pad otherwise to their own alignment than to the default, and
those that have no tensors to put after an empty first shard.
-/

namespace Frink.Gguf

open Codec Guarded

variable {source : GgufFile} {opts : SplitOptions} {plan : SplitPlan} {alignment count no : ℕ}

section Inversion

theorem checkMode_ok {mode : SplitMode} {u : Unit} (h : checkMode mode = .ok u) : ModePos mode := by
  cases mode with
  | maxTensors n => exact Nat.pos_of_ne_zero (ensure_eq_ok.mp h)
  | maxBytes max => trivial

/-- What an accepted plan was made from. -/
theorem planSplit_ok (h : planSplit source opts = .ok plan) :
    ∃ alignment plans groups,
      declaredAlignment (source.metadata.lookup "general.alignment") = .ok alignment ∧
      ModePos opts.mode ∧ source.tensors.length < 2 ^ 31 ∧
      source.tensors.mapM tensorPlan = .ok plans ∧
      placeTensors opts.mode alignment 0 (.start opts) plans = .ok groups ∧
      groups.toList.length < 2 ^ 16 ∧
      planShards source alignment groups.toList.length 0 groups.toList = .ok plan.shards := by
  unfold planSplit at h
  obtain ⟨_, -, h⟩ := bind_eq_ok.mp h
  obtain ⟨_, hmode, h⟩ := bind_eq_ok.mp h
  obtain ⟨alignment, ha, h⟩ := bind_eq_ok.mp h
  obtain ⟨_, hn, h⟩ := bind_eq_ok.mp h
  obtain ⟨plans, hplans, h⟩ := bind_eq_ok.mp h
  obtain ⟨groups, hgroups, h⟩ := bind_eq_ok.mp h
  obtain ⟨_, hcount, h⟩ := bind_eq_ok.mp h
  obtain ⟨shards, hshards, h⟩ := bind_eq_ok.mp h
  cases h
  exact ⟨alignment, plans, groups, mapError_eq_ok.mp ha, checkMode_ok hmode, ensure_eq_ok.mp hn,
    mapError_eq_ok.mp hplans, hgroups, ensure_eq_ok.mp hcount, hshards⟩

theorem planShard_ok {tensors : List TensorPlan} {shard : ShardPlan}
    (h : planShard source alignment count no tensors = .ok shard) :
    shard.metadata = shardMetadata source.metadata no count source.tensors.length ∧
      shard.tensors = tensors ∧ paddedSum alignment tensors < U64_LIMIT ∧
      ∃ header, encodeHeader shard.metadata tensors = .ok header ∧
        shard.fileBytes = header.length + paddedSum alignment tensors := by
  unfold planShard at h
  obtain ⟨header, hheader, h⟩ := bind_eq_ok.mp h
  obtain ⟨dataBytes, -, h⟩ := bind_eq_ok.mp h
  obtain ⟨padded, hpadded, h⟩ := bind_eq_ok.mp h
  obtain ⟨fileBytes, hfile, h⟩ := bind_eq_ok.mp h
  cases h
  obtain ⟨hlt, rfl⟩ := fitU64_eq_ok.mp hpadded
  obtain ⟨-, rfl⟩ := addU64_eq_ok.mp hfile
  exact ⟨rfl, rfl, hlt, header, mapError_eq_ok.mp hheader, rfl⟩

theorem planShards_ok {groups : List (List TensorPlan)} {shards : List ShardPlan}
    (h : planShards source alignment count no groups = .ok shards) :
    shards.map ShardPlan.tensors = groups ∧ ∀ k shard, shards[k]? = some shard →
      planShard source alignment count (no + k) shard.tensors = .ok shard := by
  induction groups generalizing no shards with
  | nil =>
    cases h
    simp
  | cons group groups ih =>
    obtain ⟨first, hfirst, h⟩ := bind_eq_ok.mp h
    obtain ⟨rest, hrest, h⟩ := bind_eq_ok.mp h
    cases h
    obtain ⟨htensors, hall⟩ := ih hrest
    have hgroup : first.tensors = group := (planShard_ok hfirst).2.1
    constructor
    · rw [List.map_cons, hgroup, htensors]
    · intro k shard hk
      cases k with
      | zero =>
        cases hk
        rwa [hgroup]
      | succ k =>
        rw [← Nat.succ_add_eq_add_succ]
        exact hall k shard hk

end Inversion

section Files

variable {pathPrefix : Path} {shards : List ShardPlan} {disk disk' : Disk}

theorem shardPath_injective {m n : ℕ} (hm : m + 1 < 10 ^ 5) (hn : n + 1 < 10 ^ 5)
    (h : shardPath pathPrefix m count = shardPath pathPrefix n count) : m = n := by
  have := ShardName.sibling_injective hm hn h
  omega

theorem writeShards_frame {path : Path} (h : writeShards source pathPrefix count no disk shards =
      .ok disk') (hne : ∀ k < shards.length, path ≠ shardPath pathPrefix (no + k) count) :
    disk' path = disk path := by
  induction shards generalizing no disk with
  | nil =>
    cases h
    rfl
  | cons shard shards ih =>
    obtain ⟨bytes, -, h⟩ := bind_eq_ok.mp h
    rw [ih h]
    · exact disk.write_other bytes (hne 0 (by simp))
    · intro k hk
      rw [Nat.succ_add_eq_add_succ]
      exact hne (k + 1) (by simpa using hk)

/-- Every shard's file holds what its own plan and the source make of it. -/
theorem writeShards_ok (h : writeShards source pathPrefix count no disk shards = .ok disk')
    (hfit : no + shards.length < 10 ^ 5) {k : ℕ} {shard : ShardPlan}
    (hk : shards[k]? = some shard) :
    ∃ bytes, writeFileFrom source.tensorBytes shard.metadata shard.tensors = .ok bytes ∧
      disk' (shardPath pathPrefix (no + k) count) = some bytes := by
  induction shards generalizing no disk k with
  | nil => cases hk
  | cons first shards ih =>
    obtain ⟨bytes, hbytes, hrest⟩ := bind_eq_ok.mp h
    rw [List.length_cons] at hfit
    cases k with
    | zero =>
      cases hk
      refine ⟨bytes, hbytes, ?_⟩
      rw [writeShards_frame hrest]
      · exact disk.write_same _ bytes
      · intro j hj heq
        have := shardPath_injective (by omega) (by omega) heq
        omega
    | succ k =>
      rw [← Nat.succ_add_eq_add_succ]
      exact ih hrest (by omega) hk

theorem writeShards_of
    (h : ∀ shard ∈ shards, ∃ bytes,
      writeFileFrom source.tensorBytes shard.metadata shard.tensors = .ok bytes)
    (pathPrefix : Path) (count no : ℕ) (disk : Disk) :
    ∃ disk', writeShards source pathPrefix count no disk shards = .ok disk' := by
  induction shards generalizing no disk with
  | nil => exact ⟨disk, rfl⟩
  | cons first shards ih =>
    obtain ⟨bytes, hbytes⟩ := h first List.mem_cons_self
    obtain ⟨disk', hdisk⟩ := ih (fun shard hs => h shard (List.mem_cons_of_mem _ hs)) (no + 1)
      (disk.write (shardPath pathPrefix no count) bytes)
    exact ⟨disk', bind_eq_ok.mpr ⟨bytes, hbytes, hdisk⟩⟩

end Files

/-- Every tensor's bytes are in the file, as many as its shape and type take. -/
def Readable (source : GgufFile) : Prop :=
  ∀ info ∈ source.tensors, ∃ bytes, source.tensorBytes info.name = .ok bytes ∧
    byteLen info.shape info.dtype = some bytes.length

theorem tensorPlan_ok {info : TensorInfo} {t : TensorPlan} (h : tensorPlan info = .ok t) :
    byteLen info.shape info.dtype = some t.byteLen ∧ t.name = info.name ∧ t.shape = info.shape ∧
      t.dtype = info.dtype := by
  unfold tensorPlan at h
  split at h
  · cases h
  · rename_i len hlen
    cases h
    exact ⟨hlen, rfl, rfl, rfl⟩

theorem Readable.found {plans tensors : List TensorPlan} (h : Readable source)
    (hplans : source.tensors.mapM tensorPlan = .ok plans) (hsub : ∀ t ∈ tensors, t ∈ plans) :
    ∃ data, Found source.tensorBytes tensors data := by
  induction tensors with
  | nil => exact ⟨[], .nil⟩
  | cons t tensors ih =>
    obtain ⟨data, hdata⟩ := ih fun u hu => hsub u (List.mem_cons_of_mem _ hu)
    obtain ⟨info, hmem, hinfo⟩ :=
      exists_of_forall₂_right (mapM_eq_ok hplans) (hsub t List.mem_cons_self)
    obtain ⟨hlen, hname, -⟩ := tensorPlan_ok hinfo
    obtain ⟨bytes, hbytes, hsize⟩ := h info hmem
    rw [hlen, Option.some.injEq] at hsize
    exact ⟨bytes :: data, .cons ⟨hname ▸ hbytes, hsize.symm⟩ hdata⟩

/-- A shard's file is as long as planned when its own alignment pads it as the source's does. -/
theorem length_shard {shard : ShardPlan} {bytes : List UInt8}
    (ha : declaredAlignment (source.metadata.lookup "general.alignment") = .ok alignment)
    (hs : planShard source alignment count no shard.tensors = .ok shard)
    (hw : writeFileFrom source.tensorBytes shard.metadata shard.tensors = .ok bytes) :
    bytes.length = shard.fileBytes ↔
      paddedSum (if no = 0 then alignment else DEFAULT_ALIGNMENT) shard.tensors =
        paddedSum alignment shard.tensors := by
  obtain ⟨hmeta, -, -, header, hheader, hfile⟩ := planShard_ok hs
  have hpos : 0 < if no = 0 then alignment else DEFAULT_ALIGNMENT := by
    split
    · exact isPowerOfTwo_pos (declaredAlignment_eq_ok ha).1
    · decide
  have hown := declaredAlignment_shard no count source.tensors.length ha
  rw [← hmeta] at hown
  obtain ⟨data, hdata, rfl⟩ := writeFileFrom_ok hown hheader hw
  rw [hfile, List.length_append, length_found hpos hdata]
  omega

section Groups

variable {plans : List TensorPlan} {groups : Groups}

theorem inOrder_of_placed (h : placeTensors opts.mode alignment 0 (.start opts) plans = .ok groups) :
    InOrder plans groups :=
  placeTensors_keeps (P := InOrder) (fun _ _ _ _ hi hp => hi.place hp) (InOrder.start opts) h

theorem keeping_of_placed (hm : ModePos opts.mode)
    (h : placeTensors opts.mode alignment 0 (.start opts) plans = .ok groups) :
    Keeping opts.mode alignment plans groups :=
  placeTensors_keeps (P := Keeping opts.mode alignment) (fun _ _ _ _ hi hp => hi.place hm hp)
    (Keeping.start opts) h

/-- The shards after the first hold what the first does not take. -/
theorem tail_flatten (hm : ModePos opts.mode)
    (h : placeTensors opts.mode alignment 0 (.start opts) plans = .ok groups) :
    groups.toList.tail.flatten = plans.drop (firstShare opts alignment plans) := by
  have hhead := head_start hm h
  have hflat := (inOrder_of_placed h).flatten
  cases hl : groups.toList with
  | nil => simp [hl] at hhead
  | cons first rest =>
    rw [hl, List.head?_cons, Option.some.injEq] at hhead
    rw [hl, List.flatten_cons, hhead] at hflat
    apply List.append_cancel_left
    exact hflat.trans (List.take_append_drop (firstShare opts alignment plans) plans).symm

end Groups

/-- A number of tensors, or padded bytes unless a single tensor is larger. -/
def WithinLimit (mode : SplitMode) (alignment : ℕ) (ts : List TensorPlan) : Prop :=
  match mode with
  | .maxTensors n => ts.length ≤ n
  | .maxBytes max => paddedSum alignment ts ≤ max ∨ ∃ t, ts = [t] ∧ max < paddedLen alignment t

theorem Limited.within {mode : SplitMode} {ts : List TensorPlan} (h : Limited mode alignment ts)
    (hsum : paddedSum alignment ts < U64_LIMIT) : WithinLimit mode alignment ts := by
  cases mode with
  | maxTensors n => exact h
  | maxBytes max =>
    rw [Limited, Nat.min_eq_left (by omega)] at h
    exact h

/-- What a plan promises. -/
structure Respects (source : GgufFile) (opts : SplitOptions) (plan : SplitPlan) : Prop where

  order : source.tensors.mapM tensorPlan = .ok (plan.shards.flatMap ShardPlan.tensors)
  nonempty : ∀ no shard, plan.shards[no]? = some shard → shard.tensors = [] → no = 0
  limit : ∀ alignment,
    declaredAlignment (source.metadata.lookup "general.alignment") = .ok alignment →
      ∀ shard ∈ plan.shards, WithinLimit opts.mode alignment shard.tensors
  fileBytes : ∀ pathPrefix disk disk', writeSplit source plan pathPrefix disk = .ok disk' →
    ∀ no shard, plan.shards[no]? = some shard →
      ∃ bytes, disk' (shardPath pathPrefix no plan.shards.length) = some bytes ∧
        bytes.length = shard.fileBytes

/-- The tensors that the first shard does not take pad to the source's alignment as to the
default. -/
def PadsAlike (source : GgufFile) (opts : SplitOptions) : Prop :=
  ∀ alignment plans, declaredAlignment (source.metadata.lookup "general.alignment") = .ok alignment →
    source.tensors.mapM tensorPlan = .ok plans →
      ∀ t ∈ plans.drop (firstShare opts alignment plans),
        paddedLen DEFAULT_ALIGNMENT t = paddedLen alignment t

section Accepted

variable {plans : List TensorPlan} {groups : Groups}
  (ha : declaredAlignment (source.metadata.lookup "general.alignment") = .ok alignment)
  (hm : ModePos opts.mode) (hplans : source.tensors.mapM tensorPlan = .ok plans)
  (hgroups : placeTensors opts.mode alignment 0 (.start opts) plans = .ok groups)
  (hcount : groups.toList.length < 2 ^ 16)
  (hshards : planShards source alignment groups.toList.length 0 groups.toList = .ok plan.shards)

include hshards in
theorem length_shards : plan.shards.length = groups.toList.length := by
  rw [← (planShards_ok hshards).1, List.length_map]

include hshards in
theorem group_of_shard {shard : ShardPlan} (h : plan.shards[no]? = some shard) :
    groups.toList[no]? = some shard.tensors := by
  rw [← (planShards_ok hshards).1, List.getElem?_map, h]
  rfl

include hplans hgroups hshards in
theorem respects_nonempty_iff :
    (∀ no shard, plan.shards[no]? = some shard → shard.tensors = [] → no = 0) ↔
      (opts.noTensorFirstSplit = true → source.tensors ≠ []) := by
  have hmap := (planShards_ok hshards).1
  constructor
  · intro h hskip hnil
    rw [hnil, List.mapM_nil] at hplans
    cases hplans
    cases hgroups
    have htwo : plan.shards.map ShardPlan.tensors = [[], []] := by
      rw [hmap, Groups.start, if_pos hskip]
      rfl
    obtain ⟨first, rest, hfirst, -, hrest⟩ := List.map_eq_cons_iff.mp htwo
    obtain ⟨second, rest, rfl, hsecond, -⟩ := List.map_eq_cons_iff.mp hrest
    exact absurd (h 1 second (by rw [hfirst]; rfl) hsecond) Nat.one_ne_zero
  · intro h no shard hno hempty
    have hgroup := group_of_shard hshards hno
    cases no with
    | zero => rfl
    | succ k =>
      have htail : shard.tensors ∈ groups.toList.tail := by
        rw [← List.drop_one]
        apply List.mem_of_getElem? (i := k)
        rwa [List.getElem?_drop, Nat.add_comm]
      by_cases hplan : plans = []
      · subst hplan
        cases hgroups
        have htensors : source.tensors = [] := by
          have hall := mapM_eq_ok hplans
          exact List.forall₂_nil_right_iff.mp hall
        have hskip : opts.noTensorFirstSplit = false := by
          by_contra hs
          exact h (Bool.eq_true_of_not_eq_false hs) htensors
        simp [Groups.toList, Groups.start, hskip] at htail
      · exact absurd hempty ((inOrder_of_placed hgroups).tail_ne hplan _ htail)

include hm hgroups hshards in
theorem respects_limit :
    ∀ shard ∈ plan.shards, WithinLimit opts.mode alignment shard.tensors := by
  intro shard hmem
  obtain ⟨no, hno⟩ := List.mem_iff_getElem?.mp hmem
  have hlimited := (keeping_of_placed hm hgroups).limited shard.tensors
    (List.mem_of_getElem? (group_of_shard hshards hno))
  obtain ⟨-, -, hsum, -⟩ := planShard_ok ((planShards_ok hshards).2 no shard hno)
  exact hlimited.within hsum

include hshards in
theorem shard_of_group {group : List TensorPlan} (h : groups.toList[no]? = some group) :
    ∃ shard, plan.shards[no]? = some shard ∧ shard.tensors = group := by
  rw [← (planShards_ok hshards).1, List.getElem?_map, Option.map_eq_some_iff] at h
  exact h

include hgroups hshards in
/-- Every planned tensor is in a shard. -/
theorem shard_of_mem {t : TensorPlan} (ht : t ∈ plans) :
    ∃ (no : ℕ) (shard : ShardPlan), plan.shards[no]? = some shard ∧ t ∈ shard.tensors := by
  rw [← (inOrder_of_placed hgroups).flatten] at ht
  obtain ⟨group, hgroup, ht⟩ := List.mem_flatten.mp ht
  obtain ⟨no, hno⟩ := List.mem_iff_getElem?.mp hgroup
  obtain ⟨shard, hshard, rfl⟩ := shard_of_group hshards hno
  exact ⟨no, shard, hshard, ht⟩

include hcount hshards in
theorem written_shard {pathPrefix : Path} {disk disk' : Disk}
    (hw : writeSplit source plan pathPrefix disk = .ok disk') {shard : ShardPlan}
    (hno : plan.shards[no]? = some shard) :
    ∃ bytes, writeFileFrom source.tensorBytes shard.metadata shard.tensors = .ok bytes ∧
      disk' (shardPath pathPrefix no plan.shards.length) = some bytes := by
  have hlen := length_shards hshards
  have hok := writeShards_ok hw (by omega) hno
  rwa [Nat.zero_add] at hok

include ha hplans hgroups hcount hshards in
/-- A split that was written read every tensor. -/
theorem readable_of_written {pathPrefix : Path} {disk disk' : Disk}
    (hw : writeSplit source plan pathPrefix disk = .ok disk') : Readable source := by
  intro info hinfo
  obtain ⟨t, ht, hplan⟩ := exists_of_forall₂_left (mapM_eq_ok hplans) hinfo
  obtain ⟨no, shard, hno, hmem⟩ := shard_of_mem hgroups hshards ht
  obtain ⟨bytes, hbytes, -⟩ := written_shard hcount hshards hw hno
  obtain ⟨hmeta, -, -, header, hheader, -⟩ := planShard_ok ((planShards_ok hshards).2 no shard hno)
  have hown := declaredAlignment_shard (0 + no) groups.toList.length source.tensors.length ha
  rw [← hmeta] at hown
  obtain ⟨data, hdata, -⟩ := writeFileFrom_ok hown hheader hbytes
  obtain ⟨content, -, hfound, hsize⟩ := exists_of_forall₂_left hdata hmem
  obtain ⟨hlen, hname, -⟩ := tensorPlan_ok hplan
  exact ⟨content, hname ▸ hfound, by rw [hlen, hsize]⟩

include ha hm hplans hgroups hcount hshards in
theorem respects_fileBytes_iff :
    (∀ pathPrefix disk disk', writeSplit source plan pathPrefix disk = .ok disk' →
      ∀ no shard, plan.shards[no]? = some shard →
        ∃ bytes, disk' (shardPath pathPrefix no plan.shards.length) = some bytes ∧
          bytes.length = shard.fileBytes) ↔ (Readable source → PadsAlike source opts) := by
  have hdefault : isPowerOfTwo DEFAULT_ALIGNMENT = true := by decide
  have hpow := (declaredAlignment_eq_ok ha).1
  have hplanned := (planShards_ok hshards).2
  have htail := tail_flatten hm hgroups
  constructor
  · intro h hreadable a plans' ha' hplans' t ht
    obtain rfl := Except.ok.inj (ha.symm.trans ha')
    obtain rfl := Except.ok.inj (hplans.symm.trans hplans')
    have hfound : ∀ shard ∈ plan.shards, ∃ bytes,
        writeFileFrom source.tensorBytes shard.metadata shard.tensors = .ok bytes := by
      intro shard hmem
      obtain ⟨no, hno⟩ := List.mem_iff_getElem?.mp hmem
      obtain ⟨hmeta, -, -, header, hheader, -⟩ := planShard_ok (hplanned no shard hno)
      have hown := declaredAlignment_shard (0 + no) groups.toList.length source.tensors.length ha
      rw [← hmeta] at hown
      have hsub : ∀ t ∈ shard.tensors, t ∈ plans := by
        intro t ht
        rw [← (inOrder_of_placed hgroups).flatten]
        exact List.mem_flatten.mpr
          ⟨_, List.mem_of_getElem? (group_of_shard hshards hno), ht⟩
      obtain ⟨data, hdata⟩ := hreadable.found hplans hsub
      exact ⟨_, writeFileFrom_found hown hheader hdata⟩
    obtain ⟨disk', hw⟩ := writeShards_of hfound [] plan.shards.length 0 fun _ => none
    rw [← htail] at ht
    obtain ⟨group, hgroup, ht⟩ := List.mem_flatten.mp ht
    obtain ⟨k, hk⟩ := List.mem_iff_getElem?.mp hgroup
    rw [← List.drop_one, List.getElem?_drop] at hk
    obtain ⟨shard, hno, rfl⟩ := shard_of_group hshards hk
    obtain ⟨bytes, hbytes, hdisk⟩ := written_shard hcount hshards hw hno
    obtain ⟨bytes', hdisk', hlen⟩ := h [] _ _ hw _ shard hno
    obtain rfl := Option.some.inj (hdisk.symm.trans hdisk')
    have hsum := (length_shard ha (hplanned _ shard hno) hbytes).mp hlen
    rw [if_neg (by omega)] at hsum
    exact (paddedSum_eq_iff hdefault hpow).mp hsum t ht
  · intro h pathPrefix disk disk' hw no shard hno
    obtain ⟨bytes, hbytes, hdisk⟩ := written_shard hcount hshards hw hno
    refine ⟨bytes, hdisk, (length_shard ha (hplanned no shard hno) hbytes).mpr ?_⟩
    have hpads := h (readable_of_written ha hplans hgroups hcount hshards hw) alignment plans ha hplans
    split
    · rfl
    · apply (paddedSum_eq_iff hdefault hpow).mpr
      intro t ht
      apply hpads
      rw [← htail]
      refine List.mem_flatten.mpr ⟨shard.tensors, ?_, ht⟩
      rw [← List.drop_one]
      apply List.mem_of_getElem? (i := no - 1)
      have hsub : 1 + (no - 1) = no := by omega
      rw [List.getElem?_drop, hsub]
      exact group_of_shard hshards hno

end Accepted

theorem split_plan_respects_iff (h : planSplit source opts = .ok plan) :
    Respects source opts plan ↔ (opts.noTensorFirstSplit = true → source.tensors ≠ []) ∧
      (Readable source → PadsAlike source opts) := by
  obtain ⟨alignment, plans, groups, ha, hm, -, hplans, hgroups, hcount, hshards⟩ := planSplit_ok h
  have hnonempty := respects_nonempty_iff hplans hgroups hshards
  have hfile := respects_fileBytes_iff ha hm hplans hgroups hcount hshards
  constructor
  · intro hr
    exact ⟨hnonempty.mp hr.nonempty, hfile.mp hr.fileBytes⟩
  · rintro ⟨hne, hpads⟩
    refine ⟨?_, hnonempty.mpr hne, ?_, hfile.mpr hpads⟩
    · rw [hplans, List.flatMap_def, (planShards_ok hshards).1, (inOrder_of_placed hgroups).flatten]
    · intro a ha'
      obtain rfl := Except.ok.inj (ha.symm.trans ha')
      exact respects_limit hm hgroups hshards

/-- A tensor in every shard, after a first one with none. -/
def tensorFree : SplitOptions := ⟨.maxTensors 1, true⟩

/-- One number, in a file without entries. -/
def plainFile : Mmap :=
  ⟨leBytes 4 GGUF_MAGIC ++ leBytes 4 3 ++ leBytes 8 1 ++ leBytes 8 0 ++ writeString "w" ++
    leBytes 4 1 ++ leBytes 8 1 ++ leBytes 4 0 ++ leBytes 8 0 ++ List.replicate 7 0 ++
      [1, 2, 3, 4], by decide⟩

set_option maxRecDepth 8000 in
theorem split_plan_respects_plain :
    ∃ source plan, GgufFile.parse plainFile = .ok source ∧
      planSplit source tensorFree = .ok plan ∧ Respects source tensorFree plan := by
  refine ⟨_, _, rfl, rfl, (split_plan_respects_iff rfl).mpr ⟨fun _ => List.cons_ne_nil _ _, ?_⟩⟩
  intro _ alignment plans ha _ t _
  cases ha
  rfl

set_option maxRecDepth 2000 in
/-- One number, in a file whose data section is aligned to 64. -/
def alignedFile : Mmap :=
  ⟨leBytes 4 GGUF_MAGIC ++ leBytes 4 3 ++ leBytes 8 1 ++ leBytes 8 1 ++
    writeString "general.alignment" ++ leBytes 4 4 ++ leBytes 4 64 ++ writeString "w" ++
      leBytes 4 1 ++ leBytes 8 1 ++ leBytes 4 0 ++ leBytes 8 0 ++ List.replicate 38 0 ++
        [1, 2, 3, 4], by decide⟩

/-- No tensors and no entries. -/
def emptyFile : Mmap :=
  ⟨leBytes 4 GGUF_MAGIC ++ leBytes 4 3 ++ leBytes 8 0 ++ leBytes 8 0, by decide⟩

set_option maxRecDepth 20000 in
theorem split_plan_breaks_promises :
    (∃ source plan, GgufFile.parse alignedFile = .ok source ∧
      planSplit source tensorFree = .ok plan ∧ ¬ Respects source tensorFree plan) ∧
    ∃ source plan, GgufFile.parse emptyFile = .ok source ∧
      planSplit source tensorFree = .ok plan ∧ ¬ Respects source tensorFree plan := by
  constructor
  · refine ⟨_, _, rfl, rfl, ?_⟩
    intro h
    obtain ⟨bytes, hbytes, hlen⟩ := h.fileBytes ['s'] (fun _ => none) _ rfl 1 _ rfl
    cases hbytes
    exact absurd hlen (by decide)
  · refine ⟨_, _, rfl, rfl, ?_⟩
    intro h
    exact absurd (h.nonempty 1 _ rfl rfl) Nat.one_ne_zero

end Frink.Gguf
