import Frink.Radix.WellFormed

/-! # Cutting, attaching and unlinking

What each change of shape leaves in the slots, that it keeps a tree well-formed, and
what it does to the chains and to the stored prefixes.
-/

namespace Frink.Radix
open Forest

namespace RadixTree

variable {t t' : RadixTree} {i j p id pos : NodeId} {key value : List ℕ} {ts : ℤ} {l : List NodeId}
  {L : List (ℕ × ℕ)}

section Cut

/-- A node cut in two: the prefix takes a fresh slot. -/
structure Cut (t : RadixTree) (id pos p : ℕ) (t' : RadixTree) : Prop where
  parent : t.parent id = some p
  pos_pos : 0 < pos
  pos_lt : pos < (t.node id).length
  dvd : t.pageSize ∣ pos
  pageSize : t'.pageSize = t.pageSize
  length : t'.nodes.length = t.nodes.length + 1
  node : ∀ j, t'.node j =
    if j = t.nodes.length then
      { key := (t.node id).key.take pos
        value := (t.node id).value.take pos
        parent := some p
        children := (∅ : AList fun _ : PageKey => NodeId).insert
          (pageKey ((t.node id).key.drop pos) t.pageSize) id
        refCount := (t.node id).refCount
        timestamp := (t.node id).timestamp }
    else if j = id then
      { t.node id with
        key := (t.node id).key.drop pos
        value := (t.node id).value.drop pos
        parent := some t.nodes.length }
    else if j = p then
      { t.node p with
        children := (t.node p).children.insert
          (pageKey ((t.node id).key.take pos) t.pageSize) t.nodes.length }
    else t.node j

theorem WellFormed.splitAt_cut (h : t.WellFormed) (hp : t.parent id = some p) (hpos : 0 < pos)
    (hlt : pos < (t.node id).length) (hd : t.pageSize ∣ pos) :
    ∃ t', t.splitAt id pos = some (t', t.nodes.length) ∧ Cut t id pos p t' := by
  obtain ⟨t', he, hps, hl, hn⟩ := splitAt_spec hp (h.parent_lt hp) (h.parent_ne hp)
    (h.length_eq id p hp) hpos hlt
  exact ⟨t', he, hp, hpos, hlt, hd, hps, hl, hn⟩

variable (h : Cut t id pos p t')

namespace Cut

include h

theorem ne_fresh : id ≠ t.nodes.length := (lt_of_parent h.parent).ne

theorem node_head : (t'.node t.nodes.length).key = (t.node id).key.take pos ∧
    (t'.node t.nodes.length).value = (t.node id).value.take pos ∧
    (t'.node t.nodes.length).refCount = (t.node id).refCount ∧
    t'.parent t.nodes.length = some p := by
  simp [RadixTree.parent, h.node]

theorem node_tail : (t'.node id).key = (t.node id).key.drop pos ∧
    (t'.node id).value = (t.node id).value.drop pos ∧
    (t'.node id).refCount = (t.node id).refCount ∧ t'.parent id = some t.nodes.length := by
  simp [RadixTree.parent, h.node, h.ne_fresh]

theorem node_other (hj : j ≠ t.nodes.length) (hjid : j ≠ id) : (t'.node j).key = (t.node j).key ∧
    (t'.node j).value = (t.node j).value ∧ (t'.node j).refCount = (t.node j).refCount ∧
    t'.parent j = t.parent j := by
  by_cases hjp : j = p
  · subst hjp
    simp [RadixTree.parent, h.node, hj, hjid]
  · simp [RadixTree.parent, h.node, hj, hjid, hjp]

theorem label_other (hj : j ≠ t.nodes.length) (hjid : j ≠ id) : t'.label j = t.label j := by
  obtain ⟨hk, hv, _⟩ := h.node_other hj hjid
  simp [label, Node.label, hk, hv]

/-- The suffix and the prefix of a cut node start whole pages. -/
theorem page_le : t.pageSize ≤ pos := Nat.le_of_dvd h.pos_pos h.dvd

theorem pageKey_head :
    pageKey ((t.node id).key.take pos) t.pageSize = pageKey (t.node id).key t.pageSize := by
  rw [pageKey_eq_take, pageKey_eq_take, List.take_take, Nat.min_eq_left h.page_le]

theorem parent_iff : t'.parent i = some j ↔
    (i = t.nodes.length ∧ j = p) ∨ (i = id ∧ j = t.nodes.length) ∨
      (i ≠ t.nodes.length ∧ i ≠ id ∧ t.parent i = some j) := by
  have hne := h.ne_fresh
  by_cases hi : i = t.nodes.length
  · subst hi
    simp [h.node_head.2.2.2, hne.symm, eq_comm]
  · by_cases hid : i = id
    · subst hid
      simp [h.node_tail.2.2.2, hi, eq_comm]
    · simp [(h.node_other hi hid).2.2.2, hi, hid]

variable (hw : t.WellFormed)

include hw

theorem parent_ne_fresh : p ≠ t.nodes.length := (hw.parent_lt h.parent).ne

theorem parent_ne : p ≠ id := hw.parent_ne h.parent

theorem label_head_append : t'.label t.nodes.length ++ t'.label id = t.label id := by
  have hh := h.node_head
  have ht := h.node_tail
  simp only [label, Node.label, hh.1, hh.2.1, ht.1, ht.2.1]
  rw [← List.zip_append, List.take_append_drop, List.take_append_drop]
  simp [hw.length_eq id p h.parent]

theorem chain (hc : Chain t.parent ROOT i l) :
    Chain t'.parent ROOT i (splice id t.nodes.length l) ∧ t.nodes.length ∉ l :=
  chain_split h.parent WellFormed.parent_fresh hw.fresh_ne_root h.node_tail.2.2.2
    h.node_head.2.2.2 (fun _ hjid hj => (h.node_other hj hjid).2.2.2) hc

theorem chain_head (hc : Chain t.parent ROOT p l) :
    Chain t'.parent ROOT t.nodes.length (t.nodes.length :: splice id t.nodes.length l) :=
  .step h.node_head.2.2.2 (h.chain hw hc).1

theorem lookup_iff (q : NodeId) (k : PageKey) :
    (t'.node q).children.lookup k = some i ↔
      t'.parent i = some q ∧ k = pageKey (t'.node i).key t.pageSize := by
  have hne := h.ne_fresh
  have hpn := h.parent_ne_fresh hw
  have hpi := h.parent_ne hw
  have hkey : ∀ {i}, i ≠ t.nodes.length → i ≠ id → (t'.node i).key = (t.node i).key :=
    fun hi hid => (h.node_other hi hid).1
  have hold : ∀ {i q}, t.parent i = some q → i ≠ t.nodes.length := by
    rintro i q hi rfl
    rw [WellFormed.parent_fresh] at hi
    cases hi
  by_cases hq : q = t.nodes.length
  · -- the prefix has one child, the suffix
    subst hq
    have hc : (t'.node t.nodes.length).children = (∅ : AList fun _ : PageKey => NodeId).insert
        (pageKey ((t.node id).key.drop pos) t.pageSize) id := by simp [h.node]
    rw [hc, lookup_insert_ite, h.parent_iff]
    constructor
    · intro hl
      split at hl
      · rename_i hk
        cases hl
        exact ⟨.inr (.inl ⟨rfl, rfl⟩), by rw [hk, h.node_tail.1]⟩
      · cases hl
    · rintro ⟨⟨_, hnp⟩ | ⟨rfl, _⟩ | ⟨_, _, hi⟩, hk⟩
      · exact (hpn hnp.symm).elim
      · rw [h.node_tail.1] at hk
        rw [if_pos hk]
      · exact (hw.no_child_fresh hi).elim
  · by_cases hqp : q = p
    · -- the parent's entry now leads to the prefix
      subst hqp
      have hc : (t'.node q).children = (t.node q).children.insert
          (pageKey ((t.node id).key.take pos) t.pageSize) t.nodes.length := by
        simp [h.node, hq, hpi]
      rw [hc, lookup_insert_ite, h.pageKey_head, h.parent_iff]
      constructor
      · intro hl
        split at hl
        · rename_i hk
          cases hl
          exact ⟨.inl ⟨rfl, rfl⟩, by rw [hk, h.node_head.1, h.pageKey_head]⟩
        · rename_i hk
          obtain ⟨hi, hki⟩ := (hw.lookup_iff q k i).mp hl
          have hin := hold hi
          have hid : i ≠ id := by
            rintro rfl
            exact hk hki
          exact ⟨.inr (.inr ⟨hin, hid, hi⟩), by rw [hkey hin hid]; exact hki⟩
      · rintro ⟨⟨rfl, _⟩ | ⟨_, hqn⟩ | ⟨hin, hid, hi⟩, hk⟩
        · rw [h.node_head.1, h.pageKey_head] at hk
          rw [if_pos hk]
        · exact (hpn hqn).elim
        · rw [hkey hin hid] at hk
          rw [if_neg, (hw.lookup_iff q k i).mpr ⟨hi, hk⟩]
          intro hk'
          exact hid (hw.sibling hi h.parent (hk ▸ hk'))
    · have hc : (t'.node q).children = (t.node q).children := by
        by_cases hqi : q = id
        · subst hqi; simp [h.node, hq]
        · simp [h.node, hq, hqp, hqi]
      rw [hc, hw.lookup_iff, h.parent_iff]
      constructor
      · rintro ⟨hi, hk⟩
        have hin := hold hi
        have hid : i ≠ id := by
          rintro rfl
          rw [h.parent] at hi
          exact hqp (Option.some.inj hi).symm
        exact ⟨.inr (.inr ⟨hin, hid, hi⟩), by rw [hkey hin hid]; exact hk⟩
      · rintro ⟨⟨_, hq'⟩ | ⟨_, hq'⟩ | ⟨hin, hid, hi⟩, hk⟩
        · exact (hqp hq').elim
        · exact (hq hq').elim
        · exact ⟨hi, by rw [hkey hin hid] at hk; exact hk⟩

theorem wellFormed : t'.WellFormed where
  page_pos := h.pageSize ▸ hw.page_pos
  root_lt := h.length ▸ Nat.lt_succ_of_lt hw.root_lt
  root_parent := by
    rw [(h.node_other hw.fresh_ne_root.symm (hw.ne_root h.parent).symm).2.2.2]
    exact hw.root_parent
  lookup_iff q k i := by
    rw [h.pageSize]
    exact h.lookup_iff hw q k
  length_eq i q hi := by
    have hlen := hw.length_eq id p h.parent
    rcases (h.parent_iff).mp hi with ⟨rfl, _⟩ | ⟨rfl, _⟩ | ⟨hin, hid, hi⟩
    · simp [h.node_head.1, h.node_head.2.1, hlen]
    · simp [h.node_tail.1, h.node_tail.2.1, hlen]
    · rw [(h.node_other hin hid).1, (h.node_other hin hid).2.1]
      exact hw.length_eq i q hi
  dvd i q hi := by
    rw [h.pageSize]
    rcases (h.parent_iff).mp hi with ⟨rfl, _⟩ | ⟨rfl, _⟩ | ⟨hin, hid, hi⟩
    · have hlt : pos < (t.node id).key.length := h.pos_lt
      rw [h.node_head.1, List.length_take, Nat.min_eq_left hlt.le]
      exact h.dvd
    · rw [h.node_tail.1, List.length_drop]
      exact Nat.dvd_sub (hw.dvd i p h.parent) h.dvd
    · rw [(h.node_other hin hid).1]
      exact hw.dvd i q hi
  pos i q hi := by
    have hlt : pos < (t.node id).key.length := h.pos_lt
    rcases (h.parent_iff).mp hi with ⟨rfl, _⟩ | ⟨rfl, _⟩ | ⟨hin, hid, hi⟩
    · rw [h.node_head.1, List.length_take, Nat.min_eq_left hlt.le]
      exact h.pos_pos
    · rw [h.node_tail.1, List.length_drop]
      exact Nat.sub_pos_of_lt hlt
    · rw [(h.node_other hin hid).1]
      exact hw.pos i q hi
  reach i q hi := by
    obtain ⟨lp, hcp⟩ := hw.reach id p h.parent
    rcases (h.parent_iff).mp hi with ⟨_, rfl⟩ | ⟨_, rfl⟩ | ⟨hin, hid, hi⟩
    · exact ⟨_, (h.chain hw hcp).1⟩
    · exact ⟨_, h.chain_head hw hcp⟩
    · obtain ⟨lq, hcq⟩ := hw.reach i q hi
      exact ⟨_, (h.chain hw hcq).1⟩

theorem spells_iff : Spells t'.parent t'.label ROOT L j ↔ Spells t.parent t.label ROOT L j ∨
    (j = t.nodes.length ∧
      ∃ S, Spells t.parent t.label ROOT S p ∧ L = S ++ t'.label t.nodes.length) :=
  spells_split_iff h.parent WellFormed.parent_fresh hw.fresh_ne_root h.ne_fresh
    h.node_tail.2.2.2 h.node_head.2.2.2 (fun _ => hw.no_child_fresh)
    (h.label_head_append hw)
    fun _ hjid hj => ⟨(h.node_other hj hjid).2.2.2, h.label_other hj hjid⟩

/-- A cut stores what was stored. -/
theorem mem_prefixes_iff :
    L ∈ (h.wellFormed hw).prefixes.entries ↔ L ∈ hw.prefixes.entries := by
  unfold WellFormed.prefixes
  rw [Paged.mem_prefixMap_iff, Paged.mem_prefixMap_iff, h.pageSize]
  constructor
  · rintro ⟨S, j, n, hs, hn, rfl⟩
    rcases (h.spells_iff hw).mp hs with hs | ⟨_, S', hp, rfl⟩
    · exact ⟨S, j, n, hs, hn, rfl⟩
    · -- the prefix spells an aligned part of what the cut node spelled
      have hd := Spells.down hp h.parent
      refine ⟨S' ++ t.label id, id, min n (S' ++ t'.label t.nodes.length).length, hd, ?_, ?_⟩
      · have hS : t.pageSize ∣ (S' ++ t'.label t.nodes.length).length := by
          have hp' := (h.wellFormed hw).paged.dvd_spells hs
          exact h.pageSize ▸ hp'
        rcases Nat.le_total n (S' ++ t'.label t.nodes.length).length with hle | hle
        · rwa [Nat.min_eq_left hle]
        · rwa [Nat.min_eq_right hle]
      · rw [← h.label_head_append hw, ← List.append_assoc,
          List.take_append_of_le_length (Nat.min_le_right _ _), ← List.take_eq_take_min]
  · rintro ⟨S, j, n, hs, hn, rfl⟩
    exact ⟨S, j, n, (h.spells_iff hw).mpr (.inl hs), hn, rfl⟩

end Cut

end Cut

section Attach

/-- A new leaf below a linked node none of whose children starts with its first page. -/
structure Attach (t : RadixTree) (p : ℕ) (key value : List ℕ) (ts : ℤ) (t' : RadixTree) :
    Prop where
  linked : t.Linked p
  length_eq : key.length = value.length
  dvd : t.pageSize ∣ key.length
  pos : 0 < key.length
  no_child : t.child p key = none
  pageSize : t'.pageSize = t.pageSize
  length : t'.nodes.length = t.nodes.length + 1
  node : ∀ j, t'.node j =
    if j = t.nodes.length then { Node.new ts with key := key, value := value, parent := some p }
    else if j = p then
      { t.node p with
        children := (t.node p).children.insert (pageKey key t.pageSize) t.nodes.length }
    else t.node j

variable (h : Attach t p key value ts t')

namespace Attach

include h

theorem node_new : (t'.node t.nodes.length).key = key ∧
    (t'.node t.nodes.length).value = value ∧ (t'.node t.nodes.length).refCount = 0 ∧
    t'.parent t.nodes.length = some p := by
  simp [RadixTree.parent, h.node, Node.new]

theorem node_other (hj : j ≠ t.nodes.length) : (t'.node j).key = (t.node j).key ∧
    (t'.node j).value = (t.node j).value ∧ (t'.node j).refCount = (t.node j).refCount ∧
    t'.parent j = t.parent j := by
  by_cases hjp : j = p
  · subst hjp
    simp [RadixTree.parent, h.node, hj]
  · simp [RadixTree.parent, h.node, hj, hjp]

theorem label_other (hj : j ≠ t.nodes.length) : t'.label j = t.label j := by
  obtain ⟨hk, hv, _⟩ := h.node_other hj
  simp [label, Node.label, hk, hv]

theorem label_new : t'.label t.nodes.length = key.zip value := by
  simp [label, Node.label, h.node_new.1, h.node_new.2.1]

theorem parent_iff : t'.parent i = some j ↔
    (i = t.nodes.length ∧ j = p) ∨ (i ≠ t.nodes.length ∧ t.parent i = some j) := by
  by_cases hi : i = t.nodes.length
  · subst hi
    simp [h.node_new.2.2.2, eq_comm]
  · simp [(h.node_other hi).2.2.2, hi]

variable (hw : t.WellFormed)

include hw

theorem parent_ne_fresh : p ≠ t.nodes.length := (hw.linked_lt h.linked).ne

theorem chain (hc : Chain t.parent ROOT i l) :
    Chain t'.parent ROOT i l ∧ t.nodes.length ∉ l :=
  chain_add_leaf WellFormed.parent_fresh hw.fresh_ne_root
    (fun _ hj => (h.node_other hj).2.2.2) hc

theorem lookup_iff (q : NodeId) (k : PageKey) :
    (t'.node q).children.lookup k = some i ↔
      t'.parent i = some q ∧ k = pageKey (t'.node i).key t.pageSize := by
  have hpn := h.parent_ne_fresh hw
  have hold : ∀ {i q}, t.parent i = some q → i ≠ t.nodes.length := by
    rintro i q hi rfl
    rw [WellFormed.parent_fresh] at hi
    cases hi
  by_cases hq : q = t.nodes.length
  · subst hq
    have hc : (t'.node t.nodes.length).children = ∅ := by simp [h.node, Node.new]
    rw [hc, h.parent_iff, AList.lookup_empty]
    constructor
    · rintro ⟨⟩
    · rintro ⟨⟨_, hnp⟩ | ⟨_, hi⟩, _⟩
      · exact (hpn hnp.symm).elim
      · exact (hw.no_child_fresh hi).elim
  · by_cases hqp : q = p
    · subst hqp
      have hc : (t'.node q).children = (t.node q).children.insert
          (pageKey key t.pageSize) t.nodes.length := by simp [h.node, hq]
      rw [hc, lookup_insert_ite, h.parent_iff]
      constructor
      · intro hl
        split at hl
        · rename_i hk
          cases hl
          exact ⟨.inl ⟨rfl, rfl⟩, by rw [hk, h.node_new.1]⟩
        · obtain ⟨hi, hki⟩ := (hw.lookup_iff q k i).mp hl
          have hin := hold hi
          exact ⟨.inr ⟨hin, hi⟩, by rw [(h.node_other hin).1]; exact hki⟩
      · rintro ⟨⟨rfl, _⟩ | ⟨hin, hi⟩, hk⟩
        · rw [h.node_new.1] at hk
          rw [if_pos hk]
        · rw [(h.node_other hin).1] at hk
          have hl := (hw.lookup_iff q k i).mpr ⟨hi, hk⟩
          rw [if_neg, hl]
          rintro rfl
          have hn := h.no_child
          rw [child, hl] at hn
          cases hn
    · have hc : (t'.node q).children = (t.node q).children := by simp [h.node, hq, hqp]
      rw [hc, hw.lookup_iff, h.parent_iff]
      constructor
      · rintro ⟨hi, hk⟩
        have hin := hold hi
        exact ⟨.inr ⟨hin, hi⟩, by rw [(h.node_other hin).1]; exact hk⟩
      · rintro ⟨⟨_, hq'⟩ | ⟨hin, hi⟩, hk⟩
        · exact (hqp hq').elim
        · exact ⟨hi, by rw [(h.node_other hin).1] at hk; exact hk⟩

theorem wellFormed : t'.WellFormed where
  page_pos := h.pageSize ▸ hw.page_pos
  root_lt := h.length ▸ Nat.lt_succ_of_lt hw.root_lt
  root_parent := by
    rw [(h.node_other hw.fresh_ne_root.symm).2.2.2]
    exact hw.root_parent
  lookup_iff q k i := by
    rw [h.pageSize]
    exact h.lookup_iff hw q k
  length_eq i q hi := by
    rcases h.parent_iff.mp hi with ⟨rfl, _⟩ | ⟨hin, hi⟩
    · rw [h.node_new.1, h.node_new.2.1]
      exact h.length_eq
    · rw [(h.node_other hin).1, (h.node_other hin).2.1]
      exact hw.length_eq i q hi
  dvd i q hi := by
    rw [h.pageSize]
    rcases h.parent_iff.mp hi with ⟨rfl, _⟩ | ⟨hin, hi⟩
    · rw [h.node_new.1]
      exact h.dvd
    · rw [(h.node_other hin).1]
      exact hw.dvd i q hi
  pos i q hi := by
    rcases h.parent_iff.mp hi with ⟨rfl, _⟩ | ⟨hin, hi⟩
    · rw [h.node_new.1]
      exact h.pos
    · rw [(h.node_other hin).1]
      exact hw.pos i q hi
  reach i q hi := by
    rcases h.parent_iff.mp hi with ⟨_, rfl⟩ | ⟨_, hi⟩
    · obtain ⟨l, hc⟩ := hw.chain h.linked
      exact ⟨l, (h.chain hw hc).1⟩
    · obtain ⟨l, hc⟩ := hw.reach i q hi
      exact ⟨l, (h.chain hw hc).1⟩

theorem spells_iff : Spells t'.parent t'.label ROOT L j ↔ Spells t.parent t.label ROOT L j ∨
    (j = t.nodes.length ∧
      ∃ S, Spells t.parent t.label ROOT S p ∧ L = S ++ key.zip value) := by
  rw [← h.label_new]
  exact spells_add_leaf_iff WellFormed.parent_fresh hw.fresh_ne_root (h.parent_ne_fresh hw)
    h.node_new.2.2.2 (fun _ => hw.no_child_fresh)
    fun _ hj => ⟨(h.node_other hj).2.2.2, h.label_other hj⟩

/-- A new leaf stores the aligned prefixes of what it spells. -/
theorem mem_prefixes_iff :
    L ∈ (h.wellFormed hw).prefixes.entries ↔ L ∈ hw.prefixes.entries ∨
      ∃ S n, Spells t.parent t.label ROOT S p ∧ t.pageSize ∣ n ∧
        L = (S ++ key.zip value).take n := by
  unfold WellFormed.prefixes
  rw [Paged.mem_prefixMap_iff, Paged.mem_prefixMap_iff, h.pageSize]
  constructor
  · rintro ⟨S, j, n, hs, hn, rfl⟩
    rcases (h.spells_iff hw).mp hs with hs | ⟨_, S', hp, rfl⟩
    · exact .inl ⟨S, j, n, hs, hn, rfl⟩
    · exact .inr ⟨S', n, hp, hn, rfl⟩
  · rintro (⟨S, j, n, hs, hn, rfl⟩ | ⟨S, n, hs, hn, rfl⟩)
    · exact ⟨S, j, n, (h.spells_iff hw).mpr (.inl hs), hn, rfl⟩
    · exact ⟨_, _, n, (h.spells_iff hw).mpr (.inr ⟨rfl, S, hs, rfl⟩), hn, rfl⟩

end Attach

end Attach

section Unlink

/-- A leaf taken off the tree. -/
structure Unlink (t : RadixTree) (id p : ℕ) (t' : RadixTree) : Prop where
  parent : t.parent id = some p
  leaf : ∀ j, t.parent j ≠ some id
  pageSize : t'.pageSize = t.pageSize
  length : t'.nodes.length = t.nodes.length
  node : ∀ j, t'.node j =
    if j = id then { t.node id with parent := none }
    else if j = p then
      { t.node p with
        children := (t.node p).children.erase (pageKey (t.node id).key t.pageSize) }
    else t.node j

theorem WellFormed.unlink_leaf (h : t.WellFormed) (hp : t.parent id = some p)
    (hleaf : ∀ j, t.parent j ≠ some id) : ∃ t', t.unlink id = some (t', p) ∧ Unlink t id p t' := by
  obtain ⟨t', he, hps, hl, hn⟩ := unlink_spec hp (h.parent_lt hp) (h.parent_ne hp)
  exact ⟨t', he, hp, hleaf, hps, hl, hn⟩

variable (h : Unlink t id p t')

namespace Unlink

include h

theorem node_other (j : NodeId) : (t'.node j).key = (t.node j).key ∧
    (t'.node j).value = (t.node j).value ∧ (t'.node j).refCount = (t.node j).refCount ∧
    (t'.node j).timestamp = (t.node j).timestamp := by
  by_cases hj : j = id
  · subst hj; simp [h.node]
  · by_cases hjp : j = p
    · subst hjp
      simp [h.node, hj]
    · simp [h.node, hj, hjp]

theorem parent_id : t'.parent id = none := by simp [RadixTree.parent, h.node]

theorem parent_other (hj : j ≠ id) : t'.parent j = t.parent j := by
  by_cases hjp : j = p
  · subst hjp
    simp [RadixTree.parent, h.node, hj]
  · simp [RadixTree.parent, h.node, hj, hjp]

theorem label_eq : t'.label = t.label := by
  funext j
  obtain ⟨hk, hv, _⟩ := h.node_other j
  simp [label, Node.label, hk, hv]

theorem parent_iff : t'.parent i = some j ↔ i ≠ id ∧ t.parent i = some j := by
  by_cases hi : i = id
  · subst hi
    simp [h.parent_id]
  · simp [h.parent_other hi, hi]

theorem chain (hc : Chain t.parent ROOT i l) (hi : i ≠ id) :
    Chain t'.parent ROOT i l ∧ id ∉ l :=
  chain_remove_leaf h.leaf (fun _ hj => h.parent_other hj) hc hi

variable (hw : t.WellFormed)

include hw

theorem lookup_iff (q : NodeId) (k : PageKey) :
    (t'.node q).children.lookup k = some i ↔
      t'.parent i = some q ∧ k = pageKey (t'.node i).key t.pageSize := by
  have hpi := hw.parent_ne h.parent
  rw [h.parent_iff, (h.node_other i).1]
  by_cases hqp : q = p
  · subst hqp
    have hc : (t'.node q).children =
        (t.node q).children.erase (pageKey (t.node id).key t.pageSize) := by simp [h.node, hpi]
    rw [hc, lookup_erase_ite]
    constructor
    · intro hl
      split at hl
      · cases hl
      · rename_i hk
        obtain ⟨hi, hki⟩ := (hw.lookup_iff q k i).mp hl
        refine ⟨⟨?_, hi⟩, hki⟩
        rintro rfl
        exact hk hki
    · rintro ⟨⟨hid, hi⟩, hk⟩
      rw [if_neg, (hw.lookup_iff q k i).mpr ⟨hi, hk⟩]
      intro hk'
      exact hid (hw.sibling hi h.parent (hk ▸ hk'))
  · have hc : (t'.node q).children = (t.node q).children := by
      by_cases hqi : q = id
      · subst hqi; simp [h.node]
      · simp [h.node, hqp, hqi]
    rw [hc, hw.lookup_iff]
    constructor
    · rintro ⟨hi, hk⟩
      refine ⟨⟨?_, hi⟩, hk⟩
      rintro rfl
      rw [h.parent] at hi
      exact hqp (Option.some.inj hi).symm
    · rintro ⟨⟨_, hi⟩, hk⟩
      exact ⟨hi, hk⟩

theorem wellFormed : t'.WellFormed where
  page_pos := h.pageSize ▸ hw.page_pos
  root_lt := h.length ▸ hw.root_lt
  root_parent := by
    rw [h.parent_other (hw.ne_root h.parent).symm]
    exact hw.root_parent
  lookup_iff q k i := by
    rw [h.pageSize]
    exact h.lookup_iff hw q k
  length_eq i q hi := by
    rw [(h.node_other i).1, (h.node_other i).2.1]
    exact hw.length_eq i q (h.parent_iff.mp hi).2
  dvd i q hi := by
    rw [(h.node_other i).1, h.pageSize]
    exact hw.dvd i q (h.parent_iff.mp hi).2
  pos i q hi := by
    rw [(h.node_other i).1]
    exact hw.pos i q (h.parent_iff.mp hi).2
  reach i q hi := by
    have hi := (h.parent_iff.mp hi).2
    obtain ⟨l, hc⟩ := hw.reach i q hi
    exact ⟨l, (h.chain hc fun hq => h.leaf i (hq ▸ hi)).1⟩

theorem spells_iff : Spells t'.parent t'.label ROOT L j ↔
    Spells t.parent t.label ROOT L j ∧ j ≠ id :=
  spells_remove_leaf_iff (hw.ne_root h.parent) h.parent_id h.leaf
    fun _ hj => ⟨h.parent_other hj, congrFun h.label_eq _⟩

/-- Unlinking stores nothing new. -/
theorem mem_prefixes_of (hL : L ∈ (h.wellFormed hw).prefixes.entries) :
    L ∈ hw.prefixes.entries := by
  unfold WellFormed.prefixes at hL ⊢
  rw [Paged.mem_prefixMap_iff] at hL ⊢
  obtain ⟨S, j, n, hs, hn, rfl⟩ := hL
  exact ⟨S, j, n, ((h.spells_iff hw).mp hs).1, h.pageSize ▸ hn, rfl⟩

end Unlink

end Unlink

end RadixTree

end Frink.Radix
