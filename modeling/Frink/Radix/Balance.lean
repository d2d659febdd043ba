import Frink.Radix.Accounting

/-! # The cache keeps its books

Each operation of the cache, from a cache whose counters and lock depths are right: it
returns, its counters and lock depths are right again, and what it did to the tree.
-/

namespace Frink.Radix
open Forest RadixTree

namespace RadixCache

variable {c c' : RadixCache} {locks : List NodeId} {i j p node : NodeId} {l : List NodeId}
  {ids indices : List ℕ} {q : List ℕ}

/-- Both counters are the sums they stand for. -/
structure Tallied (c : RadixCache) : Prop where
  evictable : c.evictableSize = c.tree.weigh evictableWeight
  protected_eq : c.protectedSize = c.tree.weigh protectedWeight

structure Balanced (c : RadixCache) (locks : List NodeId) : Prop where
  counted : c.tree.Counted locks
  tallied : c.Tallied

theorem Balanced.wellFormed (h : c.Balanced locks) : c.tree.WellFormed := h.counted.wellFormed

theorem new_balanced {pageSize : ℕ} (hps : 0 < pageSize) :
    ∃ c, RadixCache.new pageSize = some c ∧ c.Balanced [] ∧ c.tree.pageSize = pageSize ∧
      ∀ i, c.tree.parent i = none := by
  have hnode : ∀ i, (RadixTree.mk [{ Node.new 0 with refCount := 1 }] pageSize).node i =
      if i = 0 then { Node.new 0 with refCount := 1 } else default := by
    intro i
    cases i <;> rfl
  have hpar : ∀ i, (RadixTree.mk [{ Node.new 0 with refCount := 1 }] pageSize).parent i = none := by
    intro i
    rw [parent, hnode]
    split <;> rfl
  have hlook : ∀ p k i,
      ((RadixTree.mk [{ Node.new 0 with refCount := 1 }] pageSize).node p).children.lookup k ≠
        some i := by
    intro p k i
    rw [hnode]
    split <;> rintro ⟨⟩
  have hsum : ∀ w : List ℕ → List ℕ → ℕ → ℕ,
      (RadixTree.mk [{ Node.new 0 with refCount := 1 }] pageSize).weigh w = 0 := by
    intro w
    exact Finset.sum_eq_zero fun i _ => by simp [share, hpar i]
  refine ⟨⟨⟨[{ Node.new 0 with refCount := 1 }], pageSize⟩, 0, 0, 0⟩,
    by simp [new, RadixTree.new, hps], ⟨⟨?_, by simp, ?_⟩, (hsum _).symm, (hsum _).symm⟩, rfl, hpar⟩
  · refine ⟨hps, Nat.zero_lt_one, hpar _, fun p k i => ?_, ?_, ?_, ?_, ?_⟩
    · simp only [hpar]
      exact ⟨fun h => (hlook p k i h).elim, fun h => by cases h.1⟩
    all_goals
      intro i p hp
      rw [hpar] at hp
      cases hp
  · intro i p hp
    rw [hpar] at hp
    cases hp

section Walk

theorem treeWalk_spec (h : c.tree.WellFormed) (ids : List ℕ) :
    ∃ t node S, c.treeWalk ids = some ({ c with tree := t, clock := c.clock + 1 }, node, S.length) ∧
      h.prefixes.Longest ids S ∧ Reshape c.tree t ∧ Spells t.parent t.label ROOT S node := by
  obtain ⟨S, hS, hp⟩ := h.peek_spec ids
  obtain ⟨t, node, S', hw, hr, hs, hk⟩ := @walkFrom_spec c.tree ROOT ids [] S.length 0 _ (c.clock + 1) h .refl
    (by simp) (Nat.zero_le _) hp
  refine ⟨t, node, S, by simp [treeWalk, hw], hS, hr, ?_⟩
  have hSk : S.map Prod.fst = ids.take S.length := by
    have he := List.prefix_iff_eq_take.mp hS.2.1
    rwa [List.length_map] at he
  have hmem : S' ∈ h.prefixes.entries :=
    (hr.mem_prefixes_iff h).mp ⟨S', node, S'.length, hs, (hr.wellFormed h).paged.dvd_spells hs,
      (List.take_length).symm⟩
  rw [h.prefixes.functional S hS.1 S' hmem (by rw [hSk, hk])]
  exact hs

theorem peekCachedLen_spec (h : c.tree.WellFormed) (ids : List ℕ) :
    ∃ S, h.prefixes.Longest ids S ∧ c.peekCachedLen ids = some S.length :=
  h.peek_spec ids

theorem Tallied.reshape {t : RadixTree} {clock : ℤ} (h : c.Tallied) (hr : Reshape c.tree t) :
    ({ c with tree := t, clock := clock } : RadixCache).Tallied where
  evictable := by
    rw [hr.weigh fun _ => evictableWeight_cut]
    exact h.evictable
  protected_eq := by
    rw [hr.weigh fun _ => protectedWeight_cut]
    exact h.protected_eq

theorem Balanced.reshape {t : RadixTree} {clock : ℤ} (h : c.Balanced locks)
    (hr : Reshape c.tree t) : ({ c with tree := t, clock := clock } : RadixCache).Balanced locks :=
  ⟨hr.counted h.counted, h.tallied.reshape hr⟩

/-- A match answers the longest stored prefix and ends at a node that spells it. -/
theorem matchPrefix_spec (h : c.Balanced locks) (ids : List ℕ) :
    ∃ c' node S, c.matchPrefix ids = some (c', ⟨S.length, node⟩) ∧
      h.wellFormed.prefixes.Longest ids S ∧ Reshape c.tree c'.tree ∧ c'.Balanced locks ∧
      Spells c'.tree.parent c'.tree.label ROOT S node := by
  obtain ⟨t, node, S, hw, hS, hr, hs⟩ := treeWalk_spec h.wellFormed ids
  exact ⟨{ c with tree := t, clock := c.clock + 1 }, node, S, by simp [matchPrefix, hw], hS, hr,
    h.reshape hr, hs⟩

/-- What an insert leaves in the tree once its walk is done. -/
inductive Published (t : RadixTree) (node : NodeId) (key value : List ℕ) : RadixTree → Prop
  | kept : key = [] → Published t node key value t
  | grown {ts : ℤ} {t' : RadixTree} : Attach t node key value ts t' →
      Published t node key value t'

theorem insertPrefix_spec (h : c.Balanced locks) (hlen : ids.length = indices.length) :
    ∃ c' t node S r, c.insertPrefix ids indices = some (c', r) ∧
      r.cachedLen = S.length ∧ r.insertedLen = alignDown ids.length c.tree.pageSize ∧
      h.wellFormed.prefixes.Longest (ids.take r.insertedLen) S ∧ Reshape c.tree t ∧
      Spells t.parent t.label ROOT S node ∧
      Published t node ((ids.take r.insertedLen).drop S.length)
        ((indices.take r.insertedLen).drop S.length) c'.tree ∧
      c'.Balanced locks ∧
      Spells c'.tree.parent c'.tree.label ROOT
        (S ++ ((ids.take r.insertedLen).zip (indices.take r.insertedLen)).drop S.length)
        r.node := by
  obtain ⟨t, node, S, hw, hS, hr, hs⟩ :=
    treeWalk_spec h.wellFormed (ids.take (alignDown ids.length c.tree.pageSize))
  have hb : ({ c with tree := t, clock := c.clock + 1 } : RadixCache).Balanced locks := h.reshape hr
  have hle : alignDown ids.length c.tree.pageSize ≤ ids.length := alignDown_le
  have hi : (ids.take (alignDown ids.length c.tree.pageSize)).length =
      alignDown ids.length c.tree.pageSize := by rw [List.length_take, Nat.min_eq_left hle]
  have hx : (indices.take (alignDown ids.length c.tree.pageSize)).length =
      alignDown ids.length c.tree.pageSize := by
    rw [List.length_take, ← hlen, Nat.min_eq_left hle]
  have hSle : S.length ≤ alignDown ids.length c.tree.pageSize := by
    have hp := hS.2.1.length_le
    rwa [List.length_map, hi] at hp
  simp only [insertPrefix, hlen, if_true, Option.bind_eq_bind]
  rw [← hlen]
  simp only [hw, Option.bind_some]
  by_cases hne : S.length = alignDown ids.length c.tree.pageSize
  · refine ⟨_, t, node, S, _, by rw [if_neg (not_not.mpr hne)], rfl, rfl, hS, hr, hs,
      .kept ?_, hb, ?_⟩
    · exact List.drop_of_length_le (by rw [hi, hne])
    · rw [List.drop_of_length_le (by rw [List.length_zip, hi, hx, Nat.min_self, hne]),
        List.append_nil]
      exact hs
  · have hlt : S.length < alignDown ids.length c.tree.pageSize := lt_of_le_of_ne hSle hne
    have hw' := hr.wellFormed h.wellFormed
    have hlinked : t.Linked node := by
      obtain ⟨l, hc, _⟩ := hs.chain
      exact WellFormed.linked_of_chain hc
    have hlen' : ((ids.take (alignDown ids.length c.tree.pageSize)).drop S.length).length =
        ((indices.take (alignDown ids.length c.tree.pageSize)).drop S.length).length := by
      rw [List.length_drop, List.length_drop, hi, hx]
    have hchild : t.child node
        ((ids.take (alignDown ids.length c.tree.pageSize)).drop S.length) = none := by
      refine hw'.no_child_past hs ⟨(hr.mem_prefixes_iff h.wellFormed).mpr hS.1, hS.2.1, ?_⟩
      intro L' hL' hq'
      exact hS.2.2 L' ((hr.mem_prefixes_iff h.wellFormed).mp hL') hq'
    have hSd : t.pageSize ∣ S.length := hw'.paged.dvd_spells hs
    obtain ⟨t', ht', hps, hl', hn'⟩ := @attach_spec t (c.clock + 1) node _ _ (hw'.linked_lt hlinked) hlen'
    have hatt : Attach t node ((ids.take (alignDown ids.length c.tree.pageSize)).drop S.length)
        ((indices.take (alignDown ids.length c.tree.pageSize)).drop S.length) (c.clock + 1) t' := by
      refine ⟨hlinked, hlen', ?_, ?_, hchild, hps, hl', hn'⟩
      · rw [List.length_drop, hi]
        exact Nat.dvd_sub (by rw [hr.pageSize]; exact dvd_alignDown) hSd
      · rw [List.length_drop, hi]
        exact Nat.sub_pos_of_lt hlt
    rw [if_pos hne]
    obtain ⟨u, hu, rfl⟩ := Option.map_eq_some_iff.mp ht'
    simp only [alloc_snd, hu, Option.bind_some]
    refine ⟨_, t, node, S, _, rfl, rfl, rfl, hS, hr, hs, .grown hatt,
      ⟨hatt.counted hb.counted, ?_, ?_⟩, ?_⟩
    · have he := hatt.weigh (w := evictableWeight)
      dsimp only
      rw [he, ← hb.tallied.evictable, Node.length, hatt.node_new.1]
      simp [evictableWeight]
    · have he := hatt.weigh (w := protectedWeight)
      dsimp only
      rw [he, ← hb.tallied.protected_eq]
      simp [protectedWeight]
    · rw [drop_zip]
      exact (hatt.spells_iff hw').mpr (.inr ⟨rfl, S, hs, rfl⟩)

end Walk

section Locks

/-- Writing a lock depth moves no parent, in range or not. -/
theorem parent_relock (t : RadixTree) (i : NodeId) (f : ℕ → ℕ) :
    (t.nodeMut i fun n => { n with refCount := f n.refCount }).parent = t.parent := by
  by_cases hi : i < t.nodes.length
  · have hs : SameShape t (t.nodeMut i fun n => { n with refCount := f n.refCount }) :=
      sameShape_nodeMut hi fun _ => ⟨rfl, rfl, rfl, rfl⟩
    exact hs.parent
  · have he : (t.nodeMut i fun n => { n with refCount := f n.refCount }) = t := by
      rw [nodeMut, List.modify_eq_self (not_lt.mp hi)]
    rw [he]

theorem lockNode_parent (c : RadixCache) (i : NodeId) (c' : RadixCache)
    (h : lockNode c i = some c') : c'.tree.parent = c.tree.parent := by
  simp only [lockNode, Option.some.injEq] at h
  subst h
  split <;> exact parent_relock c.tree i (· + 1)

theorem unlockNode_parent (c : RadixCache) (i : NodeId) (c' : RadixCache)
    (h : unlockNode c i = some c') : c'.tree.parent = c.tree.parent := by
  simp only [unlockNode] at h
  split at h
  · split at h <;> cases h <;> exact parent_relock c.tree i (· - 1)
  · cases h

/-- One lock depth changed, its node's tokens moved between the buckets as needed. -/
structure Relocked (c : RadixCache) (i r : ℕ) (c' : RadixCache) : Prop where
  tallied : c'.Tallied
  shape : SameShape c.tree c'.tree
  refCount : ∀ j, (c'.tree.node j).refCount = if j = i then r else (c.tree.node j).refCount

theorem relocked_of (h : c.Tallied) (hp : c.tree.parent i = some p) {f : ℕ → ℕ} {e s : ℕ}
    (he : e + evictableWeight (c.tree.node i).key [] (c.tree.node i).refCount =
      c.evictableSize + evictableWeight (c.tree.node i).key [] (f (c.tree.node i).refCount))
    (hs : s + protectedWeight (c.tree.node i).key [] (c.tree.node i).refCount =
      c.protectedSize + protectedWeight (c.tree.node i).key [] (f (c.tree.node i).refCount)) :
    Relocked c i (f (c.tree.node i).refCount)
      { c with
        tree := c.tree.nodeMut i fun n => { n with refCount := f n.refCount }
        evictableSize := e
        protectedSize := s } := by
  have hlt := lt_of_parent hp
  have hmod : (c.tree.nodeMut i fun n => { n with refCount := f n.refCount }) =
      c.tree.nodeMut i fun n => { n with refCount := f (c.tree.node i).refCount } := by
    unfold nodeMut
    congr 1
    refine List.ext_getElem? fun j => ?_
    rw [List.getElem?_modify, List.getElem?_modify]
    by_cases hj : i = j
    · subst hj
      simp [node, List.getElem?_eq_getElem hlt]
    · simp [hj]
  refine ⟨⟨?_, ?_⟩, sameShape_nodeMut hlt fun _ => ⟨rfl, rfl, rfl, rfl⟩, fun j => ?_⟩
  · have hw := @weigh_relock ℕ _ c.tree evictableWeight p i (f (c.tree.node i).refCount) hp
    dsimp only
    rw [hmod]
    rw [← h.evictable] at hw
    simp only [evictableWeight] at hw he ⊢
    omega
  · have hw := @weigh_relock ℕ _ c.tree protectedWeight p i (f (c.tree.node i).refCount) hp
    dsimp only
    rw [hmod]
    rw [← h.protected_eq] at hw
    simp only [protectedWeight] at hw hs ⊢
    omega
  · dsimp only
    rw [node_nodeMut hlt]
    split
    · rename_i hj; rw [hj]
    · rfl

/-- The tokens of a node are in the bucket its lock depth names. -/
theorem Tallied.length_le (h : c.Tallied) (hp : c.tree.parent i = some p) :
    ((c.tree.node i).refCount = 0 → (c.tree.node i).length ≤ c.evictableSize) ∧
      ((c.tree.node i).refCount ≠ 0 → (c.tree.node i).length ≤ c.protectedSize) := by
  have hm : i ∈ Finset.range c.tree.nodes.length := Finset.mem_range.mpr (lt_of_parent hp)
  constructor
  · intro hr
    have hle := Finset.single_le_sum (fun j _ => Nat.zero_le (c.tree.share evictableWeight j)) hm
    rw [share_of_parent hp, evictableWeight, if_pos hr] at hle
    rw [h.evictable]
    exact hle
  · intro hr
    have hle := Finset.single_le_sum (fun j _ => Nat.zero_le (c.tree.share protectedWeight j)) hm
    rw [share_of_parent hp, protectedWeight, if_neg hr] at hle
    rw [h.protected_eq]
    exact hle

theorem lockNode_spec (h : c.Tallied) (hp : c.tree.parent i = some p) :
    ∃ c', lockNode c i = some c' ∧ Relocked c i ((c.tree.node i).refCount + 1) c' := by
  have hle := (h.length_le hp).1
  unfold lockNode
  by_cases hr : (c.tree.node i).refCount = 0
  · simp only [hr, if_true]
    refine ⟨_, rfl, ?_⟩
    have hrel := @relocked_of c i p h hp (· + 1) (c.evictableSize - (c.tree.node i).length)
      (c.protectedSize + (c.tree.node i).length)
    simp only [hr, evictableWeight, protectedWeight, if_true, Node.length] at hrel hle ⊢
    refine hrel ?_ ?_
    · have hle := hle trivial
      simp
      omega
    · simp
  · simp only [hr, if_false]
    refine ⟨_, rfl, ?_⟩
    refine @relocked_of c i p h hp (· + 1) c.evictableSize c.protectedSize ?_ ?_
    · simp [evictableWeight, hr]
    · simp [protectedWeight, hr]

theorem unlockNode_spec (h : c.Tallied) (hp : c.tree.parent i = some p)
    (hr : 0 < (c.tree.node i).refCount) :
    ∃ c', unlockNode c i = some c' ∧ Relocked c i ((c.tree.node i).refCount - 1) c' := by
  have hle := (h.length_le hp).2 hr.ne'
  unfold unlockNode
  simp only [hr, if_true]
  by_cases hz : (c.tree.node i).refCount - 1 = 0
  · rw [if_pos hz]
    refine ⟨_, rfl, ?_⟩
    refine @relocked_of c i p h hp (· - 1) (c.evictableSize + (c.tree.node i).length)
      (c.protectedSize - (c.tree.node i).length) ?_ ?_
    · simp [evictableWeight, hr.ne', hz, Node.length]
    · simp only [protectedWeight, hr.ne', hz, if_true, if_false, Node.length] at hle ⊢
      omega
  · rw [if_neg hz]
    refine ⟨_, rfl, ?_⟩
    refine @relocked_of c i p h hp (· - 1) c.evictableSize c.protectedSize ?_ ?_
    · simp [evictableWeight, hr.ne', hz]
    · simp [protectedWeight, hr.ne', hz]

/-- Locking a chain raises the depth of each of its nodes by one. -/
theorem foldlM_lockNode (h : c.Tallied) (hn : l.Nodup)
    (hl : ∀ j ∈ l, (c.tree.parent j).isSome) :
    ∃ c', l.foldlM lockNode c = some c' ∧ c'.Tallied ∧ SameShape c.tree c'.tree ∧
      ∀ j, (c'.tree.node j).refCount = (c.tree.node j).refCount + if j ∈ l then 1 else 0 := by
  induction l generalizing c with
  | nil => exact ⟨c, rfl, h, .refl, by simp⟩
  | cons i l ih =>
    obtain ⟨p, hp⟩ := Option.isSome_iff_exists.mp (hl i (by simp))
    obtain ⟨hi, hn⟩ := List.nodup_cons.mp hn
    obtain ⟨c₁, h₁, hr⟩ := lockNode_spec h hp
    obtain ⟨c', h', ht, hs, hc⟩ := ih hr.tallied hn (by
      intro j hj
      rw [hr.shape.parent]
      exact hl j (List.mem_cons_of_mem _ hj))
    refine ⟨c', by simp [h₁, h'], ht, hr.shape.trans hs, fun j => ?_⟩
    rw [hc, hr.refCount]
    by_cases hj : j = i
    · subst hj; simp [hi]
    · simp [hj]

theorem foldlM_unlockNode (h : c.Tallied) (hn : l.Nodup)
    (hl : ∀ j ∈ l, (c.tree.parent j).isSome) (hr : ∀ j ∈ l, 0 < (c.tree.node j).refCount) :
    ∃ c', l.foldlM unlockNode c = some c' ∧ c'.Tallied ∧ SameShape c.tree c'.tree ∧
      ∀ j, (c'.tree.node j).refCount + (if j ∈ l then 1 else 0) = (c.tree.node j).refCount := by
  induction l generalizing c with
  | nil => exact ⟨c, rfl, h, .refl, by simp⟩
  | cons i l ih =>
    obtain ⟨p, hp⟩ := Option.isSome_iff_exists.mp (hl i (by simp))
    obtain ⟨hi, hn⟩ := List.nodup_cons.mp hn
    have hpos := hr i (by simp)
    obtain ⟨c₁, h₁, hrel⟩ := unlockNode_spec h hp hpos
    obtain ⟨c', h', ht, hs, hc⟩ := ih hrel.tallied hn
      (by
        intro j hj
        rw [hrel.shape.parent]
        exact hl j (List.mem_cons_of_mem _ hj))
      (by
        intro j hj
        have hji : j ≠ i := fun h => hi (h ▸ hj)
        rw [hrel.refCount, if_neg hji]
        exact hr j (List.mem_cons_of_mem _ hj))
    refine ⟨c', by simp [h₁, h'], ht, hrel.shape.trans hs, fun j => ?_⟩
    have hcj := hc j
    rw [hrel.refCount] at hcj
    by_cases hj : j = i
    · subst hj
      simp only [if_true, hi, if_false, List.mem_cons, true_or] at hcj ⊢
      omega
    · simpa [hj] using hcj

theorem WellFormed.isSome_of_mem_ancestry {t : RadixTree} (h : t.WellFormed) (hi : t.Linked i)
    (hj : j ∈ t.ancestry i) : (t.parent j).isSome := by
  obtain ⟨p, hp, _⟩ := parent_of_mem_chain (h.chain_ancestry hi) hj
  simp [hp]

/-- Locking a linked node counts one more lock. -/
theorem lock_spec (h : c.Balanced locks) (hn : c.tree.Linked node) :
    ∃ c', c.lock node = some c' ∧ c'.Balanced (node :: locks) ∧ SameShape c.tree c'.tree := by
  have hw := h.wellFormed
  have hc := hw.chain_ancestry hn
  obtain ⟨c', he, ht, hs, hr⟩ := foldlM_lockNode h.tallied (chain_nodup hw.root_parent hc)
    (fun j hj => WellFormed.isSome_of_mem_ancestry hw hn hj)
  have hclimb := climb_eq_foldlM lockNode_parent hw.root_parent hc
    (hw.chain_length hc)
  refine ⟨c', by rw [lock, hclimb, he], ⟨⟨hs.wellFormed hw, ?_, fun i p hp => ?_⟩, ht⟩, hs⟩
  · intro l hl
    rcases List.mem_cons.mp hl with rfl | hl
    · exact hs.linked_iff.mpr hn
    · exact hs.linked_iff.mpr (h.counted.linked l hl)
  · rw [hr, hs.lockDepth, h.counted.depth i p (hs.parent ▸ hp)]
    simp [lockDepth, List.countP_cons]

/-- Unlocking an outstanding lock counts one less. -/
theorem unlock_spec (h : c.Balanced locks) (hn : node ∈ locks) :
    ∃ c', c.unlock node = some c' ∧ c'.Balanced (locks.erase node) ∧
      SameShape c.tree c'.tree := by
  have hw := h.wellFormed
  have hlinked := h.counted.linked node hn
  have hc := hw.chain_ancestry hlinked
  have hsome : ∀ j ∈ c.tree.ancestry node, (c.tree.parent j).isSome :=
    fun j hj => WellFormed.isSome_of_mem_ancestry hw hlinked hj
  have hpos : ∀ j ∈ c.tree.ancestry node, 0 < (c.tree.node j).refCount := by
    intro j hj
    obtain ⟨p, hp⟩ := Option.isSome_iff_exists.mp (hsome j hj)
    rw [h.counted.depth j p hp]
    exact List.countP_pos_iff.mpr ⟨node, hn, by simpa using hj⟩
  obtain ⟨c', he, ht, hs, hr⟩ :=
    foldlM_unlockNode h.tallied (chain_nodup hw.root_parent hc) hsome hpos
  have hclimb := climb_eq_foldlM unlockNode_parent hw.root_parent hc
    (hw.chain_length hc)
  refine ⟨c', by rw [unlock, hclimb, he], ⟨⟨hs.wellFormed hw, ?_, fun i p hp => ?_⟩, ht⟩, hs⟩
  · intro l hl
    exact hs.linked_iff.mpr (h.counted.linked l (List.mem_of_mem_erase hl))
  · have hri := hr i
    rw [h.counted.depth i p (hs.parent ▸ hp)] at hri
    have hcount : c.tree.lockDepth locks i =
        c.tree.lockDepth (locks.erase node) i + if i ∈ c.tree.ancestry node then 1 else 0 := by
      have hperm := List.perm_cons_erase hn
      rw [lockDepth, hperm.countP_eq, List.countP_cons]
      simp [lockDepth]
    rw [hs.lockDepth]
    omega

end Locks

end RadixCache

end Frink.Radix
