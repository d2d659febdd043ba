import Frink.Radix.Balance

/-! # Eviction

The heap holds the unlocked leaves, no more and no less, through the whole loop. While
tokens are evictable there is an unlocked leaf, so a request for no more than the
evictable tokens is always met, and nothing a lock holds is taken.
-/

namespace Frink.Radix
open Forest RadixTree

namespace RadixTree

variable {t t' : RadixTree} {i j p id : NodeId} {locks : List NodeId} {freed : List ℕ}

/-- An unlocked leaf. -/
def Evictable (t : RadixTree) (i : NodeId) : Prop :=
  (t.parent i).isSome ∧ (t.node i).refCount = 0 ∧ ∀ j, t.parent j ≠ some i

/-- Unlocked leaves taken off one after the other, with the pages they held. -/
inductive Pruned (t : RadixTree) : RadixTree → List ℕ → Prop
  | refl : Pruned t t []
  | step {t' t'' : RadixTree} {id p : ℕ} {freed : List ℕ} : Pruned t t' freed →
      Unlink t' id p t'' → (t'.node id).refCount = 0 →
      Pruned t t'' (freed ++ (t'.node id).value)

theorem Pruned.head {t'' : RadixTree} (hu : Unlink t id p t')
    (hr : (t.node id).refCount = 0) (h : Pruned t' t'' freed) :
    Pruned t t'' ((t.node id).value ++ freed) := by
  induction h with
  | refl =>
    have hs := Pruned.step .refl hu hr
    rwa [List.nil_append, ← List.append_nil (t.node id).value] at hs
  | step _ hu' hr' ih =>
    rw [← List.append_assoc]
    exact .step ih hu' hr'

theorem Pruned.counted (h : Pruned t t' freed) (hc : t.Counted locks) : t'.Counted locks := by
  induction h with
  | refl => exact hc
  | step _ hu hr ih => exact hu.counted ih hr

theorem Pruned.wellFormed (h : Pruned t t' freed) (hw : t.WellFormed) : t'.WellFormed := by
  induction h with
  | refl => exact hw
  | step _ hu _ ih => exact hu.wellFormed ih

theorem Pruned.pageSize (h : Pruned t t' freed) : t'.pageSize = t.pageSize := by
  induction h with
  | refl => rfl
  | step _ hu _ ih => rw [hu.pageSize, ih]

/-- What was stored is still stored, or freed. -/
theorem Pruned.stored (h : Pruned t t' freed) :
    t'.weigh storedWeight + (freed : Multiset ℕ) = t.weigh storedWeight := by
  induction h with
  | refl => simp
  | @step t' t'' id p freed _ hu _ ih =>
    have hs := hu.weigh (w := storedWeight)
    simp only [storedWeight] at hs
    rw [← ih, ← hs, ← Multiset.coe_add, add_assoc, add_comm (freed : Multiset ℕ)]

theorem Pruned.mem_prefixes_of {L : List (ℕ × ℕ)} (h : Pruned t t' freed) (hw : t.WellFormed)
    (hL : L ∈ (h.wellFormed hw).prefixes.entries) : L ∈ hw.prefixes.entries := by
  induction h with
  | refl => exact hL
  | step hp hu _ ih => exact ih (hu.mem_prefixes_of (hp.wellFormed hw) hL)

/-- A locked node spells what it spelled. -/
theorem Pruned.spells {L : List (ℕ × ℕ)} (h : Pruned t t' freed) (hc : t.Counted locks)
    (hi : i ∈ locks) (hs : Spells t.parent t.label ROOT L i) :
    Spells t'.parent t'.label ROOT L i := by
  induction h with
  | refl => exact hs
  | step hp hu hr ih =>
    have hc' := hp.counted hc
    exact (hu.spells_iff hc'.wellFormed).mpr ⟨ih, hc'.ne_of_unlocked hu.parent hr hi⟩

/-- Below an unlocked node there is an unlocked leaf. -/
theorem Counted.exists_evictable (h : t.Counted locks) (hp : t.parent i = some p)
    (hr : (t.node i).refCount = 0) : ∃ j, t.Evictable j := by
  have hw := h.wellFormed
  induction hm : t.nodes.length + 1 - (t.ancestry i).length using Nat.strong_induction_on
    generalizing i p with
  | _ m ih =>
    by_cases hleaf : ∀ j, t.parent j ≠ some i
    · exact ⟨i, by simp [hp], hr, hleaf⟩
    push Not at hleaf
    obtain ⟨j, hj⟩ := hleaf
    have hi : t.Linked i := .inr (by simp [hp])
    have hmono := hw.lockDepth_mono h.linked hj (hw.ne_root hp)
    rw [← h.depth i p hp, hr, ← h.depth j i hj] at hmono
    have hcj : Chain t.parent ROOT j (j :: t.ancestry i) := .step hj (hw.chain_ancestry hi)
    have hlen := hw.chain_length hcj
    have haj : (t.ancestry j).length = (t.ancestry i).length + 1 := by
      rw [hw.ancestry_eq hcj, List.length_cons]
    rw [List.length_cons] at hlen
    exact ih _ (by omega) hj (Nat.le_zero.mp hmono) rfl

theorem exists_unlocked (h : 0 < t.weigh evictableWeight) :
    ∃ i p, t.parent i = some p ∧ (t.node i).refCount = 0 := by
  obtain ⟨i, _, hi⟩ := Finset.exists_ne_zero_of_sum_ne_zero h.ne'
  unfold share at hi
  split at hi
  · rename_i hs
    obtain ⟨p, hp⟩ := Option.isSome_iff_exists.mp hs
    refine ⟨i, p, hp, ?_⟩
    by_contra hr
    exact hi (by rw [evictableWeight, if_neg hr])
  · exact (hi rfl).elim

/-- Unlinking a leaf takes it from the unlocked leaves and may add its parent. -/
theorem Unlink.evictable_iff (h : Unlink t id p t') :
    t'.Evictable i ↔ (i ≠ id ∧ t.Evictable i) ∨ (i = p ∧ t'.Evictable p) := by
  have hnp : ¬ t.Evictable p := fun hp => hp.2.2 id h.parent
  by_cases hip : i = p
  · subst hip
    simp [hnp]
  · simp only [hip, false_and, or_false, Evictable]
    rw [(h.node_other i).2.2.1]
    constructor
    · rintro ⟨hs, hr, hl⟩
      obtain ⟨q, hq⟩ := Option.isSome_iff_exists.mp hs
      obtain ⟨hid, hq⟩ := h.parent_iff.mp hq
      refine ⟨hid, by simp [hq], hr, fun j hj => ?_⟩
      have hjid : j ≠ id := by
        rintro rfl
        rw [h.parent] at hj
        exact hip (Option.some.inj hj).symm
      exact hl j (h.parent_iff.mpr ⟨hjid, hj⟩)
    · rintro ⟨hid, hs, hr, hl⟩
      refine ⟨by rw [h.parent_other hid]; exact hs, hr, fun j hj => ?_⟩
      exact hl j (h.parent_iff.mp hj).2

end RadixTree

namespace RadixCache

variable {c c' : RadixCache} {locks : List NodeId} {heap : List (ℤ ×ₗ ℕ)} {i id p : NodeId}
  {evicted : List ℕ} {size fuel evictedSize : ℕ} {t : RadixTree}

/-- The heap holds the ages of the unlocked leaves. -/
structure Heaped (t : RadixTree) (heap : List (ℤ ×ₗ ℕ)) : Prop where
  nodup : heap.Nodup
  mem_iff : ∀ x, x ∈ heap ↔ ∃ i, t.Evictable i ∧ x = age t i

theorem age_snd {t : RadixTree} : (ofLex (age t i)).2 = i := rfl

theorem age_injective {t : RadixTree} {j : NodeId} (h : age t i = age t j) : i = j := by
  have hs := congrArg (fun x => (ofLex x).2) h
  exact hs

/-- One turn of the loop: the heap holds the unlocked leaves of what is left. -/
theorem heaped_unlink {t' : RadixTree} (h : Heaped t heap) (hw : t.WellFormed)
    (hu : Unlink t id p t') :
    Heaped t' (if (t'.node p).isLeaf && (t'.node p).refCount == 0 && !(t'.node p).isRoot then
      age t' p :: heap.erase (age t id) else heap.erase (age t id)) := by
  have hw' := hu.wellFormed hw
  have hage : ∀ j, age t' j = age t j := fun j => by rw [age, age, (hu.node_other j).2.2.2]
  have hcond : ((t'.node p).isLeaf && (t'.node p).refCount == 0 && !(t'.node p).isRoot) = true ↔
      t'.Evictable p := by
    rw [Bool.and_eq_true, Bool.and_eq_true, hw'.isLeaf_iff, beq_iff_eq, Evictable]
    have hroot : (!(t'.node p).isRoot) = true ↔ (t'.parent p).isSome := by
      rw [Node.isRoot, parent]
      cases (t'.node p).parent <;> simp
    rw [hroot]
    tauto
  have hne : age t' p ∉ heap.erase (age t id) := by
    intro hm
    obtain ⟨i, hi, he⟩ := (h.mem_iff _).mp (List.mem_of_mem_erase hm)
    rw [hage] at he
    have hip := age_injective he
    subst hip
    exact hi.2.2 id hu.parent
  have hmem : ∀ x, x ∈ heap.erase (age t id) ↔ ∃ i, (i ≠ id ∧ t.Evictable i) ∧ x = age t' i := by
    intro x
    rw [h.nodup.mem_erase_iff, h.mem_iff]
    constructor
    · rintro ⟨hx, i, hi, rfl⟩
      refine ⟨i, ⟨?_, hi⟩, (hage i).symm⟩
      rintro rfl
      exact hx rfl
    · rintro ⟨i, ⟨hid, hi⟩, rfl⟩
      rw [hage]
      exact ⟨fun he => hid (age_injective he), i, hi, rfl⟩
  split
  · rename_i hc
    refine ⟨List.nodup_cons.mpr ⟨hne, h.nodup.erase _⟩, fun x => ?_⟩
    rw [List.mem_cons, hmem]
    constructor
    · rintro (rfl | ⟨i, hi, rfl⟩)
      · exact ⟨p, hcond.mp hc, rfl⟩
      · exact ⟨i, (hu.evictable_iff).mpr (.inl hi), rfl⟩
    · rintro ⟨i, hi, rfl⟩
      rcases (hu.evictable_iff).mp hi with hi | ⟨rfl, _⟩
      · exact .inr ⟨i, hi, rfl⟩
      · exact .inl rfl
  · rename_i hc
    refine ⟨h.nodup.erase _, fun x => ?_⟩
    rw [hmem]
    constructor
    · rintro ⟨i, hi, rfl⟩
      exact ⟨i, (hu.evictable_iff).mpr (.inl hi), rfl⟩
    · rintro ⟨i, hi, rfl⟩
      rcases (hu.evictable_iff).mp hi with hi | ⟨_, hp⟩
      · exact ⟨i, hi, rfl⟩
      · exact (hc (hcond.mpr hp)).elim

/-- The heap an eviction starts with. -/
theorem heaped_start (h : t.WellFormed) : ∃ ids, t.leaves = some ids ∧
    Heaped t ((ids.filter fun id => (t.node id).refCount == 0).map (age t)) := by
  obtain ⟨ids, hw, hn, hm⟩ := h.walk_spec
  refine ⟨ids.filter fun id => (t.node id).isLeaf, by simp [leaves, hw], ?_, fun x => ?_⟩
  · exact ((hn.filter _).filter _).map fun _ _ => age_injective
  · rw [List.mem_map]
    constructor
    · rintro ⟨i, hi, rfl⟩
      simp only [List.mem_filter, beq_iff_eq] at hi
      exact ⟨i, ⟨(hm i).mp hi.1.1, hi.2, h.isLeaf_iff.mp hi.1.2⟩, rfl⟩
    · rintro ⟨i, ⟨hs, hr, hl⟩, rfl⟩
      refine ⟨i, ?_, rfl⟩
      simp only [List.mem_filter, beq_iff_eq]
      exact ⟨⟨(hm i).mpr hs, h.isLeaf_iff.mpr hl⟩, hr⟩

theorem Balanced.unlink {t' : RadixTree} (h : c.Balanced locks) (hu : Unlink c.tree id p t')
    (hr : (c.tree.node id).refCount = 0) :
    ({ c with
        tree := t'
        evictableSize := c.evictableSize - (c.tree.node id).length } : RadixCache).Balanced locks ∧
      (c.tree.node id).length ≤ c.evictableSize := by
  have he := hu.weigh (w := evictableWeight)
  have hp := hu.weigh (w := protectedWeight)
  rw [← h.tallied.evictable, evictableWeight, if_pos hr] at he
  rw [← h.tallied.protected_eq, protectedWeight, if_pos hr, Nat.add_zero] at hp
  refine ⟨⟨hu.counted h.counted hr, ?_, hp.symm⟩, ?_⟩
  · dsimp only
    rw [← he, Node.length, Nat.add_sub_cancel]
  · rw [← he, Node.length]
    exact Nat.le_add_left _ _

/-- The loop meets every request the evictable tokens allow. -/
theorem evictFrom_spec (h : c.Balanced locks) (hh : Heaped c.tree heap)
    (hs : evicted.length = evictedSize) (hle : size ≤ evictedSize + c.evictableSize)
    (hf : c.tree.weigh countWeight < fuel) :
    ∃ c' freed, evictFrom size fuel c heap evicted evictedSize = some (c', evicted ++ freed) ∧
      c'.Balanced locks ∧ Pruned c.tree c'.tree freed ∧ size ≤ (evicted ++ freed).length := by
  induction fuel generalizing c heap evicted evictedSize with
  | zero => omega
  | succ fuel ih =>
    rw [evictFrom]
    split
    · rename_i hlt
      obtain ⟨i, q, hq, hr⟩ := exists_unlocked
        (by rw [← h.tallied.evictable]; omega : 0 < c.tree.weigh evictableWeight)
      obtain ⟨j, hj⟩ := h.counted.exists_evictable hq hr
      have hne : heap ≠ [] := by
        rintro rfl
        exact absurd ((hh.mem_iff _).mpr ⟨j, hj, rfl⟩) (List.not_mem_nil)
      obtain ⟨top, htop⟩ := Option.isSome_iff_exists.mp (List.isSome_min?_of_ne_nil hne)
      obtain ⟨id, hid, rfl⟩ := (hh.mem_iff top).mp (List.min?_mem htop)
      obtain ⟨p, hp⟩ := Option.isSome_iff_exists.mp hid.1
      obtain ⟨t', ht', hu⟩ := h.wellFormed.unlink_leaf hp hid.2.2
      obtain ⟨hb, hlen⟩ := h.unlink hu hid.2.1
      have hcount := hu.weigh (w := countWeight)
      simp only [countWeight] at hcount
      have hval := h.wellFormed.length_eq id p hp
      have hs₁ : (evicted ++ (c.tree.node id).value).length =
          evictedSize + (c.tree.node id).length := by
        rw [List.length_append, hs, Node.length, hval]
      obtain ⟨c', freed, he, hb', hp', hs'⟩ := ih hb (heaped_unlink hh h.wellFormed hu) hs₁
        (by dsimp only; omega) (by dsimp only; omega)
      refine ⟨c', (c.tree.node id).value ++ freed, ?_, hb', ?_, ?_⟩
      · simp only [htop, Option.bind_eq_bind, Option.bind_some, age_snd, ht']
        rw [he, List.append_assoc]
      · exact hp'.head hu hid.2.1
      · rw [← List.append_assoc]
        exact hs'
    · refine ⟨c, [], by rw [List.append_nil], h, .refl, ?_⟩
      rw [List.append_nil, hs]
      omega

/-- An eviction of no more than the evictable tokens returns, frees enough, and takes
unlocked leaves only. -/
theorem evict_spec (h : c.Balanced locks) (hle : size ≤ c.evictableSize) :
    ∃ c' freed, c.evict size = some (c', freed) ∧ c'.Balanced locks ∧
      Pruned c.tree c'.tree freed ∧ size ≤ freed.length := by
  unfold evict
  by_cases hz : size = 0
  · rw [if_pos hz]
    exact ⟨c, [], rfl, h, .refl, by rw [hz]; exact Nat.zero_le _⟩
  · rw [if_neg hz, if_pos hle]
    obtain ⟨ids, hl, hh⟩ := heaped_start h.wellFormed
    have hcount : c.tree.weigh countWeight < c.tree.nodes.length + 1 := by
      have hs : c.tree.weigh countWeight ≤ ∑ _i ∈ Finset.range c.tree.nodes.length, 1 :=
        Finset.sum_le_sum fun i _ => by
          unfold share countWeight
          split <;> simp
      rw [← Finset.card_eq_sum_ones, Finset.card_range] at hs
      exact Nat.lt_succ_of_le hs
    have hle' : size ≤ 0 + c.evictableSize := by omega
    obtain ⟨c', freed, he, hb, hp, hs⟩ := evictFrom_spec h hh List.length_nil hle' hcount
    rw [List.nil_append] at he hs
    exact ⟨c', freed, by simp only [hl, Option.bind_eq_bind, Option.bind_some, he], hb, hp, hs⟩

end RadixCache

end Frink.Radix
