import Mathlib
import Frink.Library.PrefixMap
import Frink.Radix.Plain

/-! # Well-formed radix trees

Parent pointers and child tables agree, edges hold whole pages, and every linked node
leads up to the root. The four changes the cache makes to a tree keep this: a field
other than the shape is written, a node is cut, a leaf is attached, a leaf is unlinked.
-/

namespace Frink.Radix
open Forest

namespace RadixTree

variable {t t' : RadixTree} {i j p id n pos : NodeId} {k : PageKey} {l : List NodeId}

structure WellFormed (t : RadixTree) : Prop where
  page_pos : 0 < t.pageSize
  root_lt : ROOT < t.nodes.length
  root_parent : t.parent ROOT = none
  lookup_iff : ∀ p k i, (t.node p).children.lookup k = some i ↔
    t.parent i = some p ∧ k = pageKey (t.node i).key t.pageSize
  length_eq : ∀ i p, t.parent i = some p → (t.node i).key.length = (t.node i).value.length
  dvd : ∀ i p, t.parent i = some p → t.pageSize ∣ (t.node i).key.length
  pos : ∀ i p, t.parent i = some p → 0 < (t.node i).key.length
  reach : ∀ i p, t.parent i = some p → ∃ l, Chain t.parent ROOT p l

/-- A node the root leads to: the root, or a node no eviction has unlinked. -/
def Linked (t : RadixTree) (i : NodeId) : Prop := i = ROOT ∨ (t.parent i).isSome

instance : DecidablePred t.Linked := fun i => inferInstanceAs (Decidable (i = ROOT ∨ _))

theorem lookup_insert_ite {s : AList fun _ : PageKey => NodeId} {k k' : PageKey} :
    (s.insert k i).lookup k' = if k' = k then some i else s.lookup k' := by
  split
  · rename_i h
    rw [h, AList.lookup_insert]
  · rename_i h
    rw [AList.lookup_insert_ne h]

theorem lookup_erase_ite {s : AList fun _ : PageKey => NodeId} {k k' : PageKey} :
    (s.erase k).lookup k' = if k' = k then none else s.lookup k' := by
  split
  · rename_i h
    rw [h, AList.lookup_erase]
  · rename_i h
    rw [AList.lookup_erase_ne h]

theorem drop_zip {xs ys : List ℕ} {n : ℕ} :
    (xs.zip ys).drop n = (xs.drop n).zip (ys.drop n) := List.drop_zipWith

theorem label_length (h : (t.node i).key.length = (t.node i).value.length) :
    (t.label i).length = (t.node i).key.length := by
  simp [label, Node.label, h]

theorem label_fst (h : (t.node i).key.length = (t.node i).value.length) :
    (t.label i).map Prod.fst = (t.node i).key :=
  List.map_fst_zip h.le

theorem label_snd (h : (t.node i).key.length = (t.node i).value.length) :
    (t.label i).map Prod.snd = (t.node i).value :=
  List.map_snd_zip h.ge

namespace WellFormed

theorem linked_of_parent (h : t.WellFormed) (hp : t.parent i = some p) : t.Linked p := by
  obtain ⟨l, hc⟩ := h.reach i p hp
  cases hc with
  | root => exact .inl rfl
  | step hq _ => exact .inr (by simp [hq])

theorem chain (h : t.WellFormed) (hi : t.Linked i) : ∃ l, Chain t.parent ROOT i l := by
  rcases hi with rfl | hi
  · exact ⟨[], .root⟩
  · obtain ⟨p, hp⟩ := Option.isSome_iff_exists.mp hi
    obtain ⟨l, hc⟩ := h.reach i p hp
    exact ⟨i :: l, .step hp hc⟩

theorem linked_of_chain (hc : Chain t.parent ROOT i l) : t.Linked i := by
  cases hc with
  | root => exact .inl rfl
  | step hp _ => exact .inr (by simp [hp])

theorem linked_lt (h : t.WellFormed) (hi : t.Linked i) : i < t.nodes.length := by
  rcases hi with rfl | hi
  · exact h.root_lt
  · obtain ⟨p, hp⟩ := Option.isSome_iff_exists.mp hi
    exact lt_of_parent hp

theorem parent_lt (h : t.WellFormed) (hp : t.parent i = some p) : p < t.nodes.length :=
  h.linked_lt (h.linked_of_parent hp)

theorem parent_ne (h : t.WellFormed) (hp : t.parent i = some p) : p ≠ i := by
  rintro rfl
  obtain ⟨l, hc⟩ := h.reach p p hp
  have hl := chain_unique h.root_parent hc (.step hp hc)
  have hlen := congrArg List.length hl
  simp at hlen

theorem ne_root (h : t.WellFormed) (hp : t.parent i = some p) : i ≠ ROOT := by
  rintro rfl
  rw [h.root_parent] at hp
  cases hp

theorem parent_fresh : t.parent t.nodes.length = none := by
  simp [parent, node_of_le le_rfl]
  rfl

theorem no_child_fresh (h : t.WellFormed) : t.parent j ≠ some t.nodes.length := by
  intro hj
  exact absurd (h.parent_lt hj) (lt_irrefl _)

theorem fresh_ne_root (h : t.WellFormed) : t.nodes.length ≠ ROOT := (h.root_lt).ne'

/-- No two children of a node start with the same page. -/
theorem sibling (h : t.WellFormed) (hi : t.parent i = some p) (hj : t.parent j = some p)
    (hk : pageKey (t.node i).key t.pageSize = pageKey (t.node j).key t.pageSize) : i = j := by
  have hli := (h.lookup_iff p _ i).mpr ⟨hi, rfl⟩
  rw [hk, (h.lookup_iff p _ j).mpr ⟨hj, rfl⟩] at hli
  exact (Option.some.inj hli).symm

theorem paged (h : t.WellFormed) : Paged t.parent t.label t.pageSize where
  page_pos := h.page_pos
  dvd i p hp := by
    rw [label_length (h.length_eq i p hp)]
    exact h.dvd i p hp
  pos i p hp := by
    rw [label_length (h.length_eq i p hp)]
    exact h.pos i p hp
  sibling i j p hi hj he := by
    apply h.sibling hi hj
    rwa [List.map_take, List.map_take, label_fst (h.length_eq i p hi),
      label_fst (h.length_eq j p hj), ← pageKey_eq_take, ← pageKey_eq_take] at he

/-- The prefix map the cache stands for. -/
def prefixes (h : t.WellFormed) : PrefixMap ℕ ℕ t.pageSize := h.paged.prefixMap ROOT

theorem mem_kids_iff (h : t.WellFormed) : j ∈ t.kids p ↔ t.parent j = some p := by
  unfold kids
  constructor
  · intro hj
    obtain ⟨⟨k, i⟩, hm, rfl⟩ := List.mem_map.mp hj
    exact ((h.lookup_iff p k i).mp (AList.mem_lookup_iff.mpr hm)).1
  · intro hj
    have hl := (h.lookup_iff p _ j).mpr ⟨hj, rfl⟩
    exact List.mem_map.mpr ⟨⟨_, j⟩, AList.mem_lookup_iff.mp hl, rfl⟩

theorem kids_nodup (h : t.WellFormed) : (t.kids p).Nodup := by
  unfold kids
  have hkeys := (t.node p).children.nodupKeys
  rw [List.NodupKeys, List.keys] at hkeys
  refine List.Nodup.map_on ?_ (List.Nodup.of_map _ hkeys)
  rintro ⟨k, i⟩ hi ⟨k', i'⟩ hi' rfl
  rw [((h.lookup_iff p k i).mp (AList.mem_lookup_iff.mpr hi)).2,
    ((h.lookup_iff p k' i).mp (AList.mem_lookup_iff.mpr hi')).2]

/-- The walk meets every linked node but the root, once. -/
theorem walk_spec (h : t.WellFormed) :
    ∃ ids, t.walk = some ids ∧ ids.Nodup ∧ ∀ i, i ∈ ids ↔ (t.parent i).isSome := by
  have hU : ∀ i p, t.parent i = some p → i ∈ List.range t.nodes.length := by
    intro i p hp
    exact List.mem_range.mpr (lt_of_parent hp)
  obtain ⟨ids, hw, hn, hm⟩ := sweep_root (fun _ _ => h.mem_kids_iff) (fun _ => h.kids_nodup)
    h.root_parent h.reach (List.mem_range.mpr h.root_lt) hU
  rw [List.length_range] at hw
  exact ⟨ids, hw, hn, hm⟩

theorem isLeaf_iff (h : t.WellFormed) : (t.node i).isLeaf = true ↔ ∀ j, t.parent j ≠ some i := by
  have hk : (t.node i).isLeaf = true ↔ t.kids i = [] := by
    simp [Node.isLeaf, kids]
  rw [hk, List.eq_nil_iff_forall_not_mem]
  exact forall_congr' fun j => not_congr h.mem_kids_iff

/-- The structural check never fails on a well-formed tree. -/
theorem checkStructure_eq (h : t.WellFormed) : t.checkStructure = some () := by
  obtain ⟨ids, hw, _, hm⟩ := h.walk_spec
  have hall : ∀ i ∈ ids, ∃ p, t.parent i = some p := by
    intro i hi
    exact Option.isSome_iff_exists.mp ((hm i).mp hi)
  simp only [checkStructure, hw, Option.bind_eq_bind, Option.bind_some]
  rw [if_pos]
  rw [List.all_eq_true]
  intro i hi
  obtain ⟨p, hp⟩ := hall i hi
  have hp' : (t.node i).parent = some p := hp
  have hl := (h.lookup_iff p _ i).mpr ⟨hp, rfl⟩
  have hd := h.dvd i p hp
  simp [hp', hl, h.length_eq i p hp, Node.length, Nat.mod_eq_zero_of_dvd (h.length_eq i p hp ▸ hd)]

end WellFormed

section Shape

/-- Two trees that differ in lock depths and ages only. -/
structure SameShape (t t' : RadixTree) : Prop where
  pageSize : t'.pageSize = t.pageSize
  length : t'.nodes.length = t.nodes.length
  key : ∀ i, (t'.node i).key = (t.node i).key
  value : ∀ i, (t'.node i).value = (t.node i).value
  parent : t'.parent = t.parent
  children : ∀ i, (t'.node i).children = (t.node i).children

theorem SameShape.refl : SameShape t t := ⟨rfl, rfl, fun _ => rfl, fun _ => rfl, rfl, fun _ => rfl⟩

theorem SameShape.trans {t'' : RadixTree} (h : SameShape t t') (h' : SameShape t' t'') :
    SameShape t t'' where
  pageSize := h'.pageSize.trans h.pageSize
  length := h'.length.trans h.length
  key i := (h'.key i).trans (h.key i)
  value i := (h'.value i).trans (h.value i)
  parent := h'.parent.trans h.parent
  children i := (h'.children i).trans (h.children i)

theorem SameShape.label (h : SameShape t t') : t'.label = t.label := by
  funext i
  simp [RadixTree.label, Node.label, h.key i, h.value i]

theorem SameShape.linked_iff (h : SameShape t t') : t'.Linked i ↔ t.Linked i := by
  unfold Linked
  rw [h.parent]

theorem SameShape.wellFormed (h : SameShape t t') (hw : t.WellFormed) : t'.WellFormed where
  page_pos := h.pageSize ▸ hw.page_pos
  root_lt := h.length ▸ hw.root_lt
  root_parent := h.parent ▸ hw.root_parent
  lookup_iff p k i := by
    rw [h.children, h.parent, h.key, h.pageSize]
    exact hw.lookup_iff p k i
  length_eq i p hp := by
    rw [h.key, h.value]
    exact hw.length_eq i p (h.parent ▸ hp)
  dvd i p hp := by
    rw [h.key, h.pageSize]
    exact hw.dvd i p (h.parent ▸ hp)
  pos i p hp := by
    rw [h.key]
    exact hw.pos i p (h.parent ▸ hp)
  reach i p hp := by
    rw [h.parent] at hp ⊢
    exact hw.reach i p hp

/-- Writing a field that is not part of the shape. -/
theorem sameShape_nodeMut {f : Node → Node} (hid : id < t.nodes.length)
    (hf : ∀ n, (f n).key = n.key ∧ (f n).value = n.value ∧ (f n).parent = n.parent ∧
      (f n).children = n.children) : SameShape t (t.nodeMut id f) := by
  refine ⟨rfl, length_nodeMut, fun i => ?_, fun i => ?_, funext fun i => ?_, fun i => ?_⟩
  · rw [node_nodeMut hid]; split <;> simp [hf]
  · rw [node_nodeMut hid]; split <;> simp [hf]
  · rw [RadixTree.parent, node_nodeMut hid, RadixTree.parent]; split <;> simp [hf]
  · rw [node_nodeMut hid]; split <;> simp [hf]

theorem sameShape_stamp {tic : ℤ} (hid : id < t.nodes.length) : SameShape t (t.stamp id tic) :=
  sameShape_nodeMut hid fun _ => ⟨rfl, rfl, rfl, rfl⟩

end Shape

end RadixTree

end Frink.Radix
