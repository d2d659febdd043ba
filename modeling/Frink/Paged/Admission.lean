import Frink.Paged.Window
import Frink.Paged.Ledger

/-! # Admission

How many page groups a request must hold to run to its full length, and the pass of an
admission that gathers them and builds the lease over what the tree had.
-/

namespace Frink.Paged
open Radix

/-- What admission reads of the model. -/
structure Decoder where
  nLayers : ℕ
  uniformSlidingWindow : Option ℕ

/-- What admission reads of the deployment's paged store. -/
structure PagedKvConfig where
  radix : Bool
  anchorToken : Option ℕ
  slideInterval : ℕ

/-- The leading pages a request takes over from the tree. -/
structure Adoption where
  cachedLen : ℕ
  node : Option Handle
  groups : List PageGroup

def Adoption.none : Adoption := ⟨0, Option.none, []⟩

def pagedHoldPositions (maxSeqLen promptLen blockSize : ℕ) (window : Option WindowPolicy) : ℕ :=
  match window with
  | none => maxSeqLen
  | some policy =>
      min (promptLen + slideHoldBound policy.slidingWindow policy + blockSize) maxSeqLen

/-- The page groups a request holds to run to `maxSeqLen`. -/
def pagedGroupsNeeded (maxSeqLen promptLen blockSize : ℕ) (window : Option WindowPolicy) : ℕ :=
  max ((pagedHoldPositions maxSeqLen promptLen blockSize window + blockSize - 1) / blockSize) 1

def pagedWindowPolicy (decoder : Decoder) (config : PagedKvConfig) (blockSize : ℕ) :
    Option WindowPolicy :=
  decoder.uniformSlidingWindow.map fun w =>
    (WindowPolicy.new w blockSize).withEvictionInterval config.slideInterval

def makeWindow (decoder : Decoder) (config : PagedKvConfig) (blockSize cachedLen : ℕ) :
    Option WindowSlide :=
  (pagedWindowPolicy decoder config blockSize).map fun policy =>
    ⟨policy, 0, cachedLen, 0, .new, config.anchorToken⟩

/-- Take fresh groups until there are `need`, or the store has none. -/
def gather : ℕ → SharedPagedKv → List PageGroup → List PageGroup × SharedPagedKv
  | 0, store, fresh => (fresh, store)
  | need + 1, store, fresh =>
      match store.acquireGroup with
      | some (group, store) => gather need store (fresh ++ [group])
      | none => (fresh, store)

/-- The per-layer block tables of `groups`, with `cachedLen` positions already computed. -/
def seedCaches (decoder : Decoder) (store : SharedPagedKv) (groups : List PageGroup)
    (cachedLen blockSize : ℕ) : Option (List PagedKvCache) := do
  let perGroup ← groups.mapM store.groupBlocks
  (List.range decoder.nLayers).mapM fun layer => do
    let table ← perGroup.mapM fun blocks => blocks[layer]?
    PagedKvCache.adoptBlocks table cachedLen blockSize

/-- The groups still to be gathered once the tree's pages are taken over. -/
def groupsToGather (decoder : Decoder) (config : PagedKvConfig) (promptLen maxSeqLen blockSize : ℕ)
    (adoption : Adoption) : ℕ :=
  pagedGroupsNeeded maxSeqLen promptLen blockSize (pagedWindowPolicy decoder config blockSize) -
    adoption.groups.length

/-- The lease over what the tree had and what was gathered. -/
def leaseOver (decoder : Decoder) (config : PagedKvConfig) (store : SharedPagedKv) (blockSize : ℕ)
    (salt : Option ℕ) (adoption : Adoption) (fresh : List PageGroup) : Option PagedLease := do
  let groups := adoption.groups ++ fresh
  let caches ← seedCaches decoder store groups adoption.cachedLen blockSize
  some ⟨caches, groups.map some, [], adoption.node.map fun n => (adoption.cachedLen / blockSize, n),
    config.radix, salt, makeWindow decoder config blockSize adoption.cachedLen⟩

/-- One pass of an admission; `none` where it comes up short and has to give back. -/
def admissionPass (decoder : Decoder) (config : PagedKvConfig) (promptLen maxSeqLen : ℕ)
    (salt : Option ℕ) (adoption : Adoption) (store : SharedPagedKv) : Option (PagedLease × SharedPagedKv) := do
  let blockSize ← store.blockSize
  let need := groupsToGather decoder config promptLen maxSeqLen blockSize adoption
  let (fresh, store) := gather need store []
  if fresh.length = need then do
    let lease ← leaseOver decoder config store blockSize salt adoption fresh
    some (lease, store)
  else none

section Gathering

variable {s s' : SharedPagedKv} {P total : ℕ} {decoder : Decoder} {config : PagedKvConfig}
  {promptLen maxSeqLen : ℕ} {salt : Option ℕ} {adoption : Adoption} {lease : PagedLease}

theorem mapM_eq_some_map {α β : Type*} {f : α → Option β} {g : α → β} {xs : List α}
    (h : ∀ x ∈ xs, f x = some (g x)) : xs.mapM f = some (xs.map g) := by
  induction xs with
  | nil => rfl
  | cons x xs ih =>
    rw [List.mapM_cons, h x List.mem_cons_self, ih fun y hy => h y (List.mem_cons_of_mem x hy)]
    rfl

/-- What was gathered had no holder, has one now, and moved nothing that was live. -/
structure Gained (s : SharedPagedKv) (fresh : List PageGroup) (s' : SharedPagedKv) (P : ℕ) :
    Prop where
  nodup : fresh.Nodup
  free : ∀ g ∈ fresh, s.groupRefs g = 0
  refs : ∀ g, s'.groupRefs g = s.groupRefs g + fresh.count g
  kept : ∀ g, 0 < s.groupRefs g → s'.groupBlocks g = s.groupBlocks g
  layers : s'.layers.length = s.layers.length
  pool : ∀ i < s.layers.length, (s'.pool i).Perm (s.pool i)
  backed : s'.Backed P

/-- The same over a store whose blocks are all accounted for. -/
structure Gathered (s : SharedPagedKv) (fresh : List PageGroup) (s' : SharedPagedKv)
    (P total : ℕ) : Prop where
  nodup : fresh.Nodup
  free : ∀ g ∈ fresh, s.groupRefs g = 0
  refs : ∀ g, s'.groupRefs g = s.groupRefs g + fresh.count g
  kept : ∀ g, 0 < s.groupRefs g → s'.groupBlocks g = s.groupBlocks g
  layers : s'.layers.length = s.layers.length
  sound : s'.Sound P total

theorem Gained.gathered {fresh : List PageGroup} (hg : Gained s fresh s' P) (h : s.Sound P total) :
    Gathered s fresh s' P total :=
  ⟨hg.nodup, hg.free, hg.refs, hg.kept, hg.layers, hg.backed.sound h hg.layers hg.pool⟩

theorem Gained.refl (h : s.Backed P) : Gained s [] s P :=
  ⟨List.nodup_nil, by simp, by simp, fun _ _ => rfl, rfl, fun _ _ => List.Perm.refl _, h⟩

theorem Gained.cons {s₁ : SharedPagedKv} {g : PageGroup} {fresh : List PageGroup}
    (h : s.Backed P) (ha : s.acquireGroup = some (g, s₁)) (hg : Gained s₁ fresh s' P) :
    Gained s (g :: fresh) s' P := by
  obtain ⟨hz, hr, hb, hl, hp, -⟩ := SharedPagedKv.acquireGroup_backed h ha
  have hfree : ∀ g' ∈ fresh, g' ≠ g ∧ s.groupRefs g' = 0 := by
    intro g' hg'
    have hf := hg.free g' hg'
    rw [hr] at hf
    have hne : g' ≠ g := by
      rintro rfl
      rw [Function.update_self] at hf
      cases hf
    exact ⟨hne, by rwa [Function.update_of_ne hne] at hf⟩
  refine ⟨?_, ?_, fun g' => ?_, ?_, hg.layers.trans hl, ?_, hg.backed⟩
  · exact List.nodup_cons.mpr ⟨fun hm => (hfree g hm).1 rfl, hg.nodup⟩
  · rintro g' (_ | ⟨_, hm⟩)
    · exact hz
    · exact (hfree g' hm).2
  · rw [hg.refs, hr, List.count_cons]
    rcases eq_or_ne g' g with rfl | hne
    · rw [Function.update_self, hz, beq_self_eq_true, if_pos rfl]
      omega
    · rw [Function.update_of_ne hne, if_neg (by simpa using hne.symm)]
      omega
  · intro g' hg'
    have hne : g' ≠ g := by
      rintro rfl
      omega
    rw [hg.kept g' (by rwa [hr, Function.update_of_ne hne]), hb g' hne]
  · intro i hi
    exact (hg.pool i (hl ▸ hi)).trans (hp i hi)

theorem gather_gained (n : ℕ) (h : s.Backed P) (old : List PageGroup) :
    ∃ fresh s', gather n s old = (old ++ fresh, s') ∧ fresh.length ≤ n ∧ Gained s fresh s' P := by
  induction n generalizing s old with
  | zero => exact ⟨[], s, by rw [List.append_nil]; rfl, le_rfl, .refl h⟩
  | succ n ih =>
    unfold gather
    cases ha : s.acquireGroup with
    | none => exact ⟨[], s, by rw [List.append_nil], Nat.zero_le _, .refl h⟩
    | some r =>
      obtain ⟨g, s₁⟩ := r
      have hs := (SharedPagedKv.acquireGroup_backed h ha).2.2.2.2.2
      obtain ⟨fresh, s', he, hle, hg⟩ := ih hs (old ++ [g])
      exact ⟨g :: fresh, s', by simp [he], Nat.succ_le_succ hle, hg.cons h ha⟩

/-- The table of one layer over a list of groups. -/
def tableOf (s : SharedPagedKv) (groups : List PageGroup) (layer : ℕ) : List ℕ :=
  groups.map fun g => ((s.groupBlocks g).getD []).getD layer 0

theorem seedCaches_eq (h : s.Backed P) (hl : decoder.nLayers = s.layers.length)
    {groups : List PageGroup} (hlive : ∀ g ∈ groups, 0 < s.groupRefs g) {cachedLen : ℕ}
    (hdvd : cachedLen % P = 0) (hle : cachedLen / P ≤ groups.length) :
    seedCaches decoder s groups cachedLen P =
      some ((List.range decoder.nLayers).map fun layer => ⟨tableOf s groups layer, cachedLen⟩) := by
  have hper : ∀ g ∈ groups, s.groupBlocks g = some ((s.groupBlocks g).getD []) ∧
      ((s.groupBlocks g).getD []).length = decoder.nLayers := by
    intro g hg
    obtain ⟨bs, hbs⟩ := Option.isSome_iff_exists.mp
      (h.groupBlocks_isSome_iff.mpr (hlive g hg))
    rw [hbs, hl]
    exact ⟨rfl, h.groups.width_eq g bs hbs⟩
  unfold seedCaches
  rw [mapM_eq_some_map fun g hg => (hper g hg).1]
  simp only [Option.bind_eq_bind, Option.bind_some]
  apply mapM_eq_some_map
  intro layer hlayer
  have htable : (groups.map fun g => (s.groupBlocks g).getD []).mapM
      (fun blocks => blocks[layer]?) = some (tableOf s groups layer) := by
    rw [mapM_eq_some_map (g := fun blocks => blocks.getD layer 0), List.map_map]
    · rfl
    · intro blocks hb
      obtain ⟨g, hg, rfl⟩ := List.mem_map.mp hb
      rw [List.getD_eq_getElem?_getD, List.getElem?_eq_getElem
        ((List.mem_range.mp hlayer).trans_eq (hper g hg).2.symm)]
      rfl
  rw [htable, Option.bind_some]
  exact if_pos ⟨hdvd, by rwa [tableOf, List.length_map]⟩

/-- The lease of a successful pass, over the tree's pages and the fresh ones. -/
theorem admissionPass_gained (h : s.Backed P) (hl : decoder.nLayers = s.layers.length)
    (hlive : ∀ g ∈ adoption.groups, 0 < s.groupRefs g) (hP : 0 < P)
    (hcached : adoption.cachedLen = adoption.groups.length * P)
    (hq : admissionPass decoder config promptLen maxSeqLen salt adoption s = some (lease, s')) :
    ∃ fresh, fresh.length = groupsToGather decoder config promptLen maxSeqLen P adoption ∧
      Gained s fresh s' P ∧
      (∀ g ∈ adoption.groups ++ fresh, 0 < s'.groupRefs g) ∧
      lease = ⟨(List.range decoder.nLayers).map fun layer =>
          ⟨tableOf s' (adoption.groups ++ fresh) layer, adoption.cachedLen⟩,
        (adoption.groups ++ fresh).map some, [],
        adoption.node.map fun n => (adoption.cachedLen / P, n), config.radix, salt,
        makeWindow decoder config P adoption.cachedLen⟩ := by
  unfold admissionPass at hq
  rw [h.blockSize_eq] at hq
  obtain ⟨fresh, s₁, he, _, hg⟩ :=
    gather_gained (groupsToGather decoder config promptLen maxSeqLen P adoption) h []
  simp only [Option.bind_eq_bind, Option.bind_some, he, List.nil_append] at hq
  split at hq
  swap
  · cases hq
  rename_i hlen
  have hlive' : ∀ g ∈ adoption.groups ++ fresh, 0 < s₁.groupRefs g := by
    intro g hm
    rw [hg.refs]
    rcases List.mem_append.mp hm with hm | hm
    · exact Nat.add_pos_left (hlive g hm) _
    · exact Nat.add_pos_right _ (List.count_pos_iff.mpr hm)
  have hseed := seedCaches_eq hg.backed (hl.trans hg.layers.symm) hlive'
    (show adoption.cachedLen % P = 0 by rw [hcached, Nat.mul_mod_left])
    (by rw [hcached, Nat.mul_div_cancel _ hP, List.length_append]; exact Nat.le_add_right _ _)
  simp only [leaseOver, hseed, Option.bind_eq_bind, Option.bind_some, Option.some.injEq,
    Prod.mk.injEq] at hq
  obtain ⟨rfl, rfl⟩ := hq
  exact ⟨fresh, hlen, hg, hlive', rfl⟩

theorem admissionPass_spec (h : s.Sound P total) (hl : decoder.nLayers = s.layers.length)
    (hlive : ∀ g ∈ adoption.groups, 0 < s.groupRefs g) (hP : 0 < P)
    (hcached : adoption.cachedLen = adoption.groups.length * P)
    (hq : admissionPass decoder config promptLen maxSeqLen salt adoption s = some (lease, s')) :
    ∃ fresh, fresh.length = groupsToGather decoder config promptLen maxSeqLen P adoption ∧
      Gathered s fresh s' P total ∧
      (∀ g ∈ adoption.groups ++ fresh, 0 < s'.groupRefs g) ∧
      lease = ⟨(List.range decoder.nLayers).map fun layer =>
          ⟨tableOf s' (adoption.groups ++ fresh) layer, adoption.cachedLen⟩,
        (adoption.groups ++ fresh).map some, [],
        adoption.node.map fun n => (adoption.cachedLen / P, n), config.radix, salt,
        makeWindow decoder config P adoption.cachedLen⟩ := by
  obtain ⟨fresh, hlen, hg, hlive', rfl⟩ := admissionPass_gained h.backed hl hlive hP hcached hq
  exact ⟨fresh, hlen, hg.gathered h, hlive', rfl⟩

end Gathering

end Frink.Paged
