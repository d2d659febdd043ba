import Mathlib
import Frink.Radix.Walk

/-! # Accounting

Sums over the linked nodes, the lock depth of a node, and the invariant the counters
keep: each bucket is the sum of its nodes, and each lock depth counts the outstanding
locks at or below the node.
-/

namespace Frink.Radix
open Forest

namespace RadixTree

variable {M : Type} [AddCommMonoid M] {t t' : RadixTree} {w : List ℕ → List ℕ → ℕ → M}
  {i j p id pos n : NodeId} {key value : List ℕ} {ts : ℤ} {l : List NodeId}

section Weigh

/-- What a node adds to a sum over the linked nodes. -/
def share (t : RadixTree) (w : List ℕ → List ℕ → ℕ → M) (i : NodeId) : M :=
  if (t.parent i).isSome then w (t.node i).key (t.node i).value (t.node i).refCount else 0

def weigh (t : RadixTree) (w : List ℕ → List ℕ → ℕ → M) : M :=
  ∑ i ∈ Finset.range t.nodes.length, t.share w i

theorem sum_range_change {f g : ℕ → M} (hi : i < n) (h : ∀ j, j ≠ i → g j = f j) :
    ∑ j ∈ Finset.range n, g j + f i = ∑ j ∈ Finset.range n, f j + g i := by
  have hm : i ∈ Finset.range n := Finset.mem_range.mpr hi
  rw [← Finset.add_sum_erase _ f hm, ← Finset.add_sum_erase _ g hm]
  have hs : ∑ j ∈ (Finset.range n).erase i, g j = ∑ j ∈ (Finset.range n).erase i, f j :=
    Finset.sum_congr rfl fun j hj => h j (Finset.ne_of_mem_erase hj)
  rw [hs, add_comm (g i), add_comm (f i), add_assoc, add_assoc, add_comm (g i)]

theorem share_of_parent (h : t.parent i = some p) :
    t.share w i = w (t.node i).key (t.node i).value (t.node i).refCount := by
  simp [share, h]

theorem share_congr (hp : t'.parent i = t.parent i) (hk : (t'.node i).key = (t.node i).key)
    (hv : (t'.node i).value = (t.node i).value)
    (hr : (t'.node i).refCount = (t.node i).refCount) : t'.share w i = t.share w i := by
  rw [share, share, hp, hk, hv, hr]

theorem SameShape.weigh (h : SameShape t t')
    (hr : ∀ i, (t'.node i).refCount = (t.node i).refCount) : t'.weigh w = t.weigh w := by
  unfold RadixTree.weigh
  rw [h.length]
  exact Finset.sum_congr rfl fun i _ =>
    share_congr (congrFun h.parent i) (h.key i) (h.value i) (hr i)

/-- A cut keeps every sum whose weight the two halves share. -/
theorem Cut.weigh [IsCancelAdd M] (h : Cut t id pos p t')
    (hw : ∀ k v r, w (k.take pos) (v.take pos) r + w (k.drop pos) (v.drop pos) r = w k v r) :
    t'.weigh w = t.weigh w := by
  have hid := lt_of_parent h.parent
  have hc : ∀ j, j ≠ id → j < t.nodes.length → t'.share w j = t.share w j := by
    intro j hj hlt
    obtain ⟨hk, hv, hr, hp⟩ := h.node_other hlt.ne hj
    exact share_congr hp hk hv hr
  have hsum : ∑ j ∈ Finset.range t.nodes.length, t'.share w j + t.share w id =
      ∑ j ∈ Finset.range t.nodes.length, t.share w j + t'.share w id := by
    have hg := sum_range_change (f := t.share w)
      (g := fun j => if j < t.nodes.length then t'.share w j else t.share w j) hid
      (by intro j hj; split; exacts [hc j hj ‹_›, rfl])
    rw [if_pos hid] at hg
    rw [← hg]
    congr 1
    exact Finset.sum_congr rfl fun j hj => by rw [if_pos (Finset.mem_range.mp hj)]
  have hhalves : t'.share w id + t'.share w t.nodes.length = t.share w id := by
    obtain ⟨hk, hv, hr, hp⟩ := h.node_tail
    obtain ⟨hk', hv', hr', hp'⟩ := h.node_head
    rw [share_of_parent hp, share_of_parent hp', share_of_parent h.parent, hk, hv, hr, hk', hv',
      hr', add_comm]
    exact hw _ _ _
  unfold RadixTree.weigh
  rw [h.length, Finset.sum_range_succ]
  apply add_right_cancel (b := t.share w id)
  rw [add_right_comm, hsum, add_assoc, hhalves]

theorem Attach.weigh (h : Attach t p key value ts t') :
    t'.weigh w = t.weigh w + w key value 0 := by
  obtain ⟨hk, hv, hr, hp⟩ := h.node_new
  unfold RadixTree.weigh
  rw [h.length, Finset.sum_range_succ, share_of_parent hp, hk, hv, hr]
  congr 1
  refine Finset.sum_congr rfl fun i hi => ?_
  obtain ⟨hk, hv, hr, hp⟩ := h.node_other (Finset.mem_range.mp hi).ne
  exact share_congr hp hk hv hr

theorem Unlink.weigh (h : Unlink t id p t') :
    t'.weigh w + w (t.node id).key (t.node id).value (t.node id).refCount = t.weigh w := by
  have hid := lt_of_parent h.parent
  have hs := sum_range_change (f := t.share w) (g := t'.share w) hid (by
    intro j hj
    obtain ⟨hk, hv, hr, _⟩ := h.node_other j
    exact share_congr (h.parent_other hj) hk hv hr)
  have hz : t'.share w id = 0 := by simp [share, h.parent_id]
  rw [hz, add_zero, share_of_parent h.parent] at hs
  unfold RadixTree.weigh
  rw [h.length, hs]

/-- One lock depth rewritten. -/
theorem weigh_relock {r : ℕ} (hp : t.parent id = some p) :
    (t.nodeMut id fun n => { n with refCount := r }).weigh w +
        w (t.node id).key (t.node id).value (t.node id).refCount =
      t.weigh w + w (t.node id).key (t.node id).value r := by
  have hid := lt_of_parent hp
  have hn : ∀ j, (t.nodeMut id fun n => { n with refCount := r }).node j =
      if j = id then { t.node j with refCount := r } else t.node j := fun j => node_nodeMut hid
  have hs := sum_range_change (f := t.share w)
    (g := (t.nodeMut id fun n => { n with refCount := r }).share w) hid (by
      intro j hj
      have hj : (t.nodeMut id fun n => { n with refCount := r }).node j = t.node j := by
        rw [hn j, if_neg hj]
      exact share_congr (congrArg Node.parent hj) (congrArg Node.key hj)
        (congrArg Node.value hj) (congrArg Node.refCount hj))
  have hq : (t.nodeMut id fun n => { n with refCount := r }).share w id =
      w (t.node id).key (t.node id).value r := by
    have hi : (t.nodeMut id fun n => { n with refCount := r }).node id =
        { t.node id with refCount := r } := by rw [hn id, if_pos rfl]
    have hpar : (t.nodeMut id fun n => { n with refCount := r }).parent id = some p :=
      (congrArg Node.parent hi).trans hp
    rw [share_of_parent hpar, hi]
  rw [hq, share_of_parent hp] at hs
  unfold weigh
  rw [length_nodeMut, hs]

/-- Tokens of unlocked nodes. -/
def evictableWeight (key _ : List ℕ) (refCount : ℕ) : ℕ := if refCount = 0 then key.length else 0

/-- Tokens of locked nodes. -/
def protectedWeight (key _ : List ℕ) (refCount : ℕ) : ℕ := if refCount = 0 then 0 else key.length

/-- The page indices of a node. -/
def storedWeight (_ value : List ℕ) (_ : ℕ) : Multiset ℕ := value

def countWeight (_ _ : List ℕ) (_ : ℕ) : ℕ := 1

theorem evictableWeight_cut (k v : List ℕ) (r : ℕ) :
    evictableWeight (k.take pos) (v.take pos) r + evictableWeight (k.drop pos) (v.drop pos) r =
      evictableWeight k v r := by
  unfold evictableWeight
  split
  · rw [← List.length_append, List.take_append_drop]
  · rfl

theorem protectedWeight_cut (k v : List ℕ) (r : ℕ) :
    protectedWeight (k.take pos) (v.take pos) r + protectedWeight (k.drop pos) (v.drop pos) r =
      protectedWeight k v r := by
  unfold protectedWeight
  split
  · rfl
  · rw [← List.length_append, List.take_append_drop]

theorem storedWeight_cut (k v : List ℕ) (r : ℕ) :
    storedWeight (k.take pos) (v.take pos) r + storedWeight (k.drop pos) (v.drop pos) r =
      storedWeight k v r := by
  unfold storedWeight
  rw [Multiset.coe_add, List.take_append_drop]

theorem SameShape.weigh_stored (h : SameShape t t') :
    t'.weigh storedWeight = t.weigh storedWeight := by
  unfold RadixTree.weigh
  rw [h.length]
  refine Finset.sum_congr rfl fun i _ => ?_
  rw [share, share, h.parent, storedWeight, storedWeight, h.value]

/-- A sum over the linked nodes, taken along the walk. -/
theorem WellFormed.weigh_eq_sum {ids : List NodeId} (hn : ids.Nodup)
    (hm : ∀ i, i ∈ ids ↔ (t.parent i).isSome) :
    t.weigh w =
      (ids.map fun i => w (t.node i).key (t.node i).value (t.node i).refCount).sum := by
  classical
  have hs : ∑ i ∈ ids.toFinset, t.share w i =
      (ids.map fun i => w (t.node i).key (t.node i).value (t.node i).refCount).sum := by
    rw [List.sum_toFinset _ hn]
    congr 1
    refine List.map_congr_left fun i hi => ?_
    rw [share, if_pos ((hm i).mp hi)]
  rw [← hs]
  unfold weigh
  refine (Finset.sum_subset ?_ ?_).symm
  · intro i hi
    obtain ⟨p, hp⟩ := Option.isSome_iff_exists.mp ((hm i).mp (List.mem_toFinset.mp hi))
    exact Finset.mem_range.mpr (lt_of_parent hp)
  · intro i _ hi
    have hno : ¬ (t.parent i).isSome := fun h => hi (List.mem_toFinset.mpr ((hm i).mpr h))
    rw [share, if_neg hno]

end Weigh

section Depth

/-- The nodes from `id` up to the root, the root left out. -/
def ancestry (t : RadixTree) (id : NodeId) : List NodeId :=
  (climb (fun _ => t.parent) (fun acc j => some (acc ++ [j])) (t.nodes.length + 1) [] id).getD []

/-- The number of locks taken at or below a node. -/
def lockDepth (t : RadixTree) (locks : List NodeId) (i : NodeId) : ℕ :=
  locks.countP fun l => i ∈ t.ancestry l

theorem WellFormed.chain_length (h : t.WellFormed) (hc : Chain t.parent ROOT i l) :
    l.length < t.nodes.length + 1 := by
  have hle := chain_length_le h.root_parent
    (fun i p hp => List.mem_range.mpr (lt_of_parent hp)) hc
  rw [List.length_range] at hle
  exact Nat.lt_succ_of_le hle

theorem WellFormed.ancestry_eq (h : t.WellFormed) (hc : Chain t.parent ROOT i l) :
    t.ancestry i = l := by
  have hfold : ∀ l acc : List NodeId,
      l.foldlM (fun acc j => some (acc ++ [j])) acc = some (acc ++ l) := by
    intro l
    induction l with
    | nil => simp
    | cons x l ih => intro acc; simp [ih]
  have hclimb : climb (fun _ : List NodeId => t.parent) (fun acc j => some (acc ++ [j]))
      (t.nodes.length + 1) [] i = l.foldlM (fun acc j => some (acc ++ [j])) [] :=
    climb_eq_foldlM (fun _ _ _ _ => rfl) h.root_parent hc (h.chain_length hc)
  rw [ancestry, hclimb, hfold]
  rfl

theorem WellFormed.chain_ancestry (h : t.WellFormed) (hi : t.Linked i) :
    Chain t.parent ROOT i (t.ancestry i) := by
  obtain ⟨l, hc⟩ := h.chain hi
  rwa [h.ancestry_eq hc]

theorem lockDepth_congr {locks : List NodeId}
    (h : ∀ l ∈ locks, (j ∈ t'.ancestry l ↔ i ∈ t.ancestry l)) :
    t'.lockDepth locks j = t.lockDepth locks i := by
  unfold lockDepth
  refine List.countP_congr fun l hl => ?_
  simpa using h l hl

/-- A node is locked at least as deep as any of its children. -/
theorem WellFormed.lockDepth_mono (h : t.WellFormed) {locks : List NodeId}
    (hl : ∀ l ∈ locks, t.Linked l) (hj : t.parent j = some i) (hi : i ≠ ROOT) :
    t.lockDepth locks j ≤ t.lockDepth locks i := by
  unfold lockDepth
  refine List.countP_mono_left fun l hm hjl => ?_
  rw [decide_eq_true_eq] at hjl ⊢
  obtain ⟨p, hp, hor⟩ := parent_of_mem_chain (h.chain_ancestry (hl l hm)) hjl
  rw [hj] at hp
  cases hp
  exact hor.resolve_left hi

/-- Every lock is at a linked node, and lock depths count them. -/
structure Counted (t : RadixTree) (locks : List NodeId) : Prop where
  wellFormed : t.WellFormed
  linked : ∀ l ∈ locks, t.Linked l
  depth : ∀ i p, t.parent i = some p → (t.node i).refCount = t.lockDepth locks i

variable {locks : List NodeId}

theorem SameShape.ancestry (h : SameShape t t') : t'.ancestry i = t.ancestry i := by
  unfold RadixTree.ancestry
  rw [h.parent, h.length]

theorem SameShape.lockDepth (h : SameShape t t') : t'.lockDepth locks i = t.lockDepth locks i :=
  lockDepth_congr fun l _ => by rw [h.ancestry]

theorem SameShape.counted (h : SameShape t t')
    (hr : ∀ i, (t'.node i).refCount = (t.node i).refCount) (hc : t.Counted locks) :
    t'.Counted locks where
  wellFormed := h.wellFormed hc.wellFormed
  linked l hl := h.linked_iff.mpr (hc.linked l hl)
  depth i p hp := by
    rw [hr, h.lockDepth]
    exact hc.depth i p (h.parent ▸ hp)

theorem Cut.linked_of (h : Cut t id pos p t') (hw : t.WellFormed) (hi : t.Linked i) :
    t'.Linked i ∧ t'.ancestry i = splice id t.nodes.length (t.ancestry i) ∧
      t.nodes.length ∉ t.ancestry i := by
  obtain ⟨hc, hn⟩ := h.chain hw (hw.chain_ancestry hi)
  exact ⟨WellFormed.linked_of_chain hc, (h.wellFormed hw).ancestry_eq hc, hn⟩

theorem Cut.counted (h : Cut t id pos p t') (hc : t.Counted locks) : t'.Counted locks := by
  have hw := hc.wellFormed
  refine ⟨h.wellFormed hw, fun l hl => (h.linked_of hw (hc.linked l hl)).1, fun i q hi => ?_⟩
  have hdepth : ∀ {i}, i ≠ t.nodes.length → t'.lockDepth locks i = t.lockDepth locks i := by
    intro i hin
    refine lockDepth_congr fun l hl => ?_
    rw [(h.linked_of hw (hc.linked l hl)).2.1]
    exact mem_splice_iff hin
  rcases h.parent_iff.mp hi with ⟨rfl, _⟩ | ⟨rfl, _⟩ | ⟨hin, hid, hi⟩
  · -- the prefix is below the locks that are at or below the suffix
    rw [h.node_head.2.2.1, hc.depth id p h.parent]
    refine (lockDepth_congr fun l hl => ?_).symm
    rw [(h.linked_of hw (hc.linked l hl)).2.1]
    exact new_mem_splice_iff (h.linked_of hw (hc.linked l hl)).2.2
  · rw [h.node_tail.2.2.1, hdepth h.ne_fresh]
    exact hc.depth i p h.parent
  · rw [(h.node_other hin hid).2.2.1, hdepth hin]
    exact hc.depth i q hi

theorem Attach.linked_of (h : Attach t p key value ts t') (hw : t.WellFormed) (hi : t.Linked i) :
    t'.Linked i ∧ t'.ancestry i = t.ancestry i ∧ t.nodes.length ∉ t.ancestry i := by
  obtain ⟨hc, hn⟩ := h.chain hw (hw.chain_ancestry hi)
  exact ⟨WellFormed.linked_of_chain hc, (h.wellFormed hw).ancestry_eq hc, hn⟩

theorem Attach.counted (h : Attach t p key value ts t') (hc : t.Counted locks) :
    t'.Counted locks := by
  have hw := hc.wellFormed
  refine ⟨h.wellFormed hw, fun l hl => (h.linked_of hw (hc.linked l hl)).1, fun i q hi => ?_⟩
  have hdepth : t'.lockDepth locks i = t.lockDepth locks i :=
    lockDepth_congr fun l hl => by rw [(h.linked_of hw (hc.linked l hl)).2.1]
  rw [hdepth]
  rcases h.parent_iff.mp hi with ⟨rfl, _⟩ | ⟨hin, hi⟩
  · rw [h.node_new.2.2.1]
    symm
    refine List.countP_eq_zero.mpr fun l hl => ?_
    rw [decide_eq_true_eq]
    exact (h.linked_of hw (hc.linked l hl)).2.2
  · rw [(h.node_other hin).2.2.1]
    exact hc.depth i q hi

theorem Counted.unlocked_of_depth (h : t.Counted locks) (hp : t.parent id = some p)
    (hr : (t.node id).refCount = 0) {l : NodeId} (hl : l ∈ locks) : id ∉ t.ancestry l := by
  have hd := h.depth id p hp
  rw [hr, lockDepth] at hd
  have hz := List.countP_eq_zero.mp hd.symm l hl
  simpa using hz

theorem Unlink.linked_of (h : Unlink t id p t') (hw : t.WellFormed) (hi : t.Linked i)
    (hne : i ≠ id) : t'.Linked i ∧ t'.ancestry i = t.ancestry i := by
  obtain ⟨hc, _⟩ := h.chain (hw.chain_ancestry hi) hne
  exact ⟨WellFormed.linked_of_chain hc, (h.wellFormed hw).ancestry_eq hc⟩

theorem WellFormed.mem_ancestry_self (h : t.WellFormed) (hp : t.parent i = some p) :
    i ∈ t.ancestry i := by
  have hc := h.chain_ancestry (.inr (by simp [hp]) : t.Linked i)
  obtain ⟨l, hl, _⟩ := chain_of_parent hc hp h.root_parent
  simp [hl]

/-- No lock is at an unlocked leaf. -/
theorem Counted.ne_of_unlocked (h : t.Counted locks) (hp : t.parent id = some p)
    (hr : (t.node id).refCount = 0) {l : NodeId} (hl : l ∈ locks) : l ≠ id := by
  rintro rfl
  exact h.unlocked_of_depth hp hr hl (h.wellFormed.mem_ancestry_self hp)

theorem Unlink.counted (h : Unlink t id p t') (hc : t.Counted locks)
    (hr : (t.node id).refCount = 0) : t'.Counted locks := by
  have hw := hc.wellFormed
  have hl : ∀ l ∈ locks, t'.Linked l ∧ t'.ancestry l = t.ancestry l := fun l hl =>
    h.linked_of hw (hc.linked l hl) (hc.ne_of_unlocked h.parent hr hl)
  refine ⟨h.wellFormed hw, fun l hm => (hl l hm).1, fun i q hi => ?_⟩
  rw [(h.node_other i).2.2.1, hc.depth i q (h.parent_iff.mp hi).2]
  exact (lockDepth_congr fun l hm => by rw [(hl l hm).2]).symm

theorem stamp_refCount {tic : ℤ} (hi : i < t.nodes.length) (j : NodeId) :
    ((t.stamp i tic).node j).refCount = (t.node j).refCount := by
  rw [stamp, node_nodeMut hi]
  split <;> rfl

theorem Reshape.counted (h : Reshape t t') (hc : t.Counted locks) : t'.Counted locks := by
  induction h with
  | refl => exact hc
  | stamp _ hi ih => exact (sameShape_stamp hi).counted (stamp_refCount hi) ih
  | cut _ hcut ih => exact hcut.counted ih

theorem Reshape.weigh [IsCancelAdd M] (h : Reshape t t')
    (hw : ∀ pos k v r, w (k.take pos) (v.take pos) r + w (k.drop pos) (v.drop pos) r = w k v r) :
    t'.weigh w = t.weigh w := by
  induction h with
  | refl => rfl
  | stamp _ hi ih => rw [(sameShape_stamp hi).weigh (stamp_refCount hi), ih]
  | cut _ hcut ih => rw [hcut.weigh (hw _), ih]

end Depth

end RadixTree

end Frink.Radix
