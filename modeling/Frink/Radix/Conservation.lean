import Mathlib
import Frink.Radix.Refinement

/-! # Pages are conserved

Every page index ever offered is in one place: stored in the tree, handed back by an
eviction, in the duplicate span of its insert, or in the tail its insert dropped.
-/

namespace Frink.Radix
open Forest RadixTree

section Places

variable (evs : List (Op × Ans))

/-- The indices an operation offers. -/
def offeredBy : Op × Ans → List ℕ
  | (.insertPrefix _ indices, .inserted _) => indices
  | _ => []

/-- The offered indices of a span that was in the tree before. -/
def duplicateBy : Op × Ans → List ℕ
  | (.insertPrefix _ indices, .inserted r) => indices.take r.cachedLen
  | _ => []

/-- The offered indices of a trailing partial page. -/
def tailBy : Op × Ans → List ℕ
  | (.insertPrefix _ indices, .inserted r) => indices.drop r.insertedLen
  | _ => []

def evictedBy : Op × Ans → List ℕ
  | (.evict _, .evicted pages) => pages
  | _ => []

def offered : List ℕ := evs.flatMap offeredBy

def duplicates : List ℕ := evs.flatMap duplicateBy

def tails : List ℕ := evs.flatMap tailBy

def evicted : List ℕ := evs.flatMap evictedBy

end Places

namespace RadixTree

/-- The page indices of all reachable nodes. -/
def pages (t : RadixTree) : Option (List ℕ) :=
  t.walk.map fun ids => ids.flatMap fun id => (t.node id).value

variable {t t' : RadixTree} {locks : List NodeId} {node : NodeId} {key value : List ℕ}

theorem WellFormed.pages_spec (h : t.WellFormed) :
    ∃ xs, t.pages = some xs ∧ (xs : Multiset ℕ) = t.weigh storedWeight := by
  obtain ⟨ids, hw, hn, hm⟩ := h.walk_spec
  refine ⟨_, by rw [pages, hw]; rfl, ?_⟩
  rw [WellFormed.weigh_eq_sum hn hm]
  have hsum : ∀ ids : List NodeId, ((ids.flatMap fun id => (t.node id).value : List ℕ) :
      Multiset ℕ) = (ids.map fun i => storedWeight (t.node i).key (t.node i).value
        (t.node i).refCount).sum := by
    intro ids
    induction ids with
    | nil => rfl
    | cons i ids ih =>
      rw [List.flatMap_cons, List.map_cons, List.sum_cons, ← ih, ← Multiset.coe_add]
      rfl
  exact hsum ids

/-- The indices a node's path spells are stored. -/
theorem mem_stored_of_spells {S : List (ℕ × ℕ)} {i x : ℕ} (h : t.WellFormed)
    (hs : Spells t.parent t.label ROOT S i) (hx : x ∈ S.map Prod.snd) :
    x ∈ t.weigh storedWeight := by
  induction hs with
  | refl => cases hx
  | @down j k L _ hk ih =>
    rw [List.map_append, List.mem_append, label_snd (h.length_eq k j hk)] at hx
    rcases hx with hx | hx
    · exact ih hx
    · refine Multiset.mem_sum.mpr ⟨k, Finset.mem_range.mpr (lt_of_parent hk), ?_⟩
      rw [share_of_parent hk]
      exact hx

/-- A publication stores the part of the offer that was not in the tree. -/
theorem published_weigh (h : RadixCache.Published t node key value t')
    (hlen : key.length = value.length) :
    t'.weigh storedWeight = t.weigh storedWeight + (value : Multiset ℕ) := by
  cases h with
  | kept hk =>
    rw [hk, List.length_nil] at hlen
    rw [List.eq_nil_of_length_eq_zero hlen.symm]
    simp
  | grown ha => exact ha.weigh

end RadixTree

section Conservation

variable {pageSize size : ℕ} {w : World} {op : Op} {c : RadixCache} {ans : Ans}
  {evs : List (Op × Ans)}

/-- One operation puts what it was offered where it says. -/
theorem step_conserves (h : w.Sound pageSize) (ha : w.Admits op)
    (hr : w.cache.run op = some (c, ans)) :
    c.tree.weigh storedWeight + evictedBy (op, ans) + duplicateBy (op, ans) + tailBy (op, ans) =
      w.cache.tree.weigh storedWeight + (offeredBy (op, ans) : Multiset ℕ) := by
  have hw := h.balanced.wellFormed
  cases op with
  | insertPrefix ids xs =>
    obtain ⟨c', t, node, S, r, he, hc, hi, hS, hre, hs, hp, hb, _⟩ :=
      RadixCache.insertPrefix_spec h.balanced ha
    simp only [RadixCache.run, he, Option.map_some, Option.some.injEq, Prod.mk.injEq] at hr
    obtain ⟨rfl, rfl⟩ := hr
    have hlen : ids.length = xs.length := ha
    have hSle : S.length ≤ r.insertedLen := by
      have hle := hS.2.1.length_le
      rw [List.length_map, List.length_take] at hle
      omega
    have hkv : ((ids.take r.insertedLen).drop S.length).length =
        ((xs.take r.insertedLen).drop S.length).length := by simp [hlen]
    have hsplit : xs = xs.take S.length ++ (xs.take r.insertedLen).drop S.length ++
        xs.drop r.insertedLen := by
      have htake : xs.take S.length = (xs.take r.insertedLen).take S.length := by
        rw [List.take_take, Nat.min_eq_left hSle]
      rw [htake, List.take_append_drop, List.take_append_drop]
    rw [RadixTree.published_weigh hp hkv, hre.weigh fun _ => storedWeight_cut]
    simp only [evictedBy, duplicateBy, tailBy, offeredBy, hc]
    conv_rhs => rw [hsplit]
    rw [← Multiset.coe_add, ← Multiset.coe_add, Multiset.coe_nil, add_zero, add_assoc, add_assoc,
      add_assoc]
    congr 1
    rw [← add_assoc, add_comm (((xs.take r.insertedLen).drop S.length : List ℕ) : Multiset ℕ)]
    simp
  | matchPrefix ids =>
    obtain ⟨c', node, S, he, _, hre, hb, hs⟩ := RadixCache.matchPrefix_spec h.balanced ids
    have hv := hb.wellFormed.pathValue_spec hs
    simp only [RadixCache.run, he, RadixCache.matchedIndices, hv, Option.bind_some,
      Option.map_some, Option.some.injEq, Prod.mk.injEq] at hr
    obtain ⟨rfl, rfl⟩ := hr
    rw [hre.weigh fun _ => storedWeight_cut]
    simp [evictedBy, duplicateBy, tailBy, offeredBy]
  | peekCachedLen ids =>
    obtain ⟨S, _, he⟩ := RadixCache.peekCachedLen_spec hw ids
    simp only [RadixCache.run, he, Option.map_some, Option.some.injEq, Prod.mk.injEq] at hr
    obtain ⟨rfl, rfl⟩ := hr
    simp [evictedBy, duplicateBy, tailBy, offeredBy]
  | lock node =>
    obtain ⟨c', he, _, hsh⟩ := RadixCache.lock_spec h.balanced ha.2
    simp only [RadixCache.run, he, Option.map_some, Option.some.injEq, Prod.mk.injEq] at hr
    obtain ⟨rfl, rfl⟩ := hr
    rw [hsh.weigh_stored]
    simp [evictedBy, duplicateBy, tailBy, offeredBy]
  | unlock node =>
    obtain ⟨c', he, _, hsh⟩ := RadixCache.unlock_spec h.balanced ha
    simp only [RadixCache.run, he, Option.map_some, Option.some.injEq, Prod.mk.injEq] at hr
    obtain ⟨rfl, rfl⟩ := hr
    rw [hsh.weigh_stored]
    simp [evictedBy, duplicateBy, tailBy, offeredBy]
  | evict size =>
    obtain ⟨c', freed, he, _, hp, _⟩ := RadixCache.evict_spec h.balanced ha
    simp only [RadixCache.run, he, Option.map_some, Option.some.injEq, Prod.mk.injEq] at hr
    obtain ⟨rfl, rfl⟩ := hr
    rw [← hp.stored]
    simp [evictedBy, duplicateBy, tailBy, offeredBy]

theorem flatMap_snoc (f : Op × Ans → List ℕ) (e : Op × Ans) :
    (((evs ++ [e]).flatMap f : List ℕ) : Multiset ℕ) = (evs.flatMap f : List ℕ) + (f e : Multiset ℕ) := by
  rw [List.flatMap_append, List.flatMap_singleton, Multiset.coe_add]

/-- Over a run, what was offered is stored, evicted, duplicate or dropped. -/
theorem run_conserves (h : Run pageSize evs w) :
    w.cache.tree.weigh storedWeight + (evicted evs : Multiset ℕ) + (duplicates evs : Multiset ℕ) +
      (tails evs : Multiset ℕ) = (offered evs : Multiset ℕ) := by
  induction h with
  | @nil c hc =>
    have hps : 0 < pageSize := by
      by_contra hz
      simp [RadixCache.new, RadixTree.new, hz] at hc
    obtain ⟨c', hc', _, _, hpar⟩ := RadixCache.new_balanced hps
    rw [hc] at hc'
    cases hc'
    have hz : c.tree.weigh storedWeight = 0 :=
      Finset.sum_eq_zero fun i _ => by rw [share, hpar i]; rfl
    rw [hz]
    rfl
  | @snoc evs w op c ans hr ha he ih =>
    have hs := step_conserves (run_sound hr) ha he
    unfold evicted duplicates tails offered at ih ⊢
    rw [flatMap_snoc, flatMap_snoc, flatMap_snoc, flatMap_snoc, ← ih]
    calc c.tree.weigh storedWeight +
            ((evs.flatMap evictedBy : List ℕ) + (evictedBy (op, ans) : Multiset ℕ)) +
            ((evs.flatMap duplicateBy : List ℕ) + (duplicateBy (op, ans) : Multiset ℕ)) +
            ((evs.flatMap tailBy : List ℕ) + (tailBy (op, ans) : Multiset ℕ))
        = c.tree.weigh storedWeight + evictedBy (op, ans) + duplicateBy (op, ans) +
            tailBy (op, ans) + ((evs.flatMap evictedBy : List ℕ) +
              (evs.flatMap duplicateBy : List ℕ) + ((evs.flatMap tailBy : List ℕ) :
                Multiset ℕ)) := by abel
      _ = _ := by rw [hs]; abel

/-- The books of a cache: buckets and lock depths are what they say, an eviction within the
evictable tokens is met and leaves locked paths alone, every offered page is in one place. -/
structure World.Accounts (w : World) (evs : List (Op × Ans)) : Prop where
  integrity : w.cache.checkIntegrity = some ()
  depths : ∃ ids, w.cache.tree.walk = some ids ∧ (∀ l ∈ w.locks, l ∈ ids ∨ l = ROOT) ∧
    w.cache.evictableSize = ((ids.filter fun i => (w.cache.tree.node i).refCount == 0).map
      fun i => (w.cache.tree.node i).length).sum ∧
    w.cache.protectedSize = ((ids.filter fun i => (w.cache.tree.node i).refCount != 0).map
      fun i => (w.cache.tree.node i).length).sum ∧
    ∀ i ∈ ids, (w.cache.tree.node i).refCount =
      w.locks.countP fun l => i ∈ w.cache.tree.ancestry l
  evicts : ∀ size ≤ w.cache.evictableSize, ∃ c freed, w.cache.evict size = some (c, freed) ∧
    size ≤ freed.length ∧
    ∀ l ∈ w.locks, ∃ xs, w.cache.matchedIndices l = some xs ∧ c.matchedIndices l = some xs ∧
      ((offered evs).Nodup → xs.Disjoint freed)
  conserved : ∃ xs, w.cache.tree.pages = some xs ∧
    (xs ++ evicted evs ++ duplicates evs ++ tails evs).Perm (offered evs)

theorem sum_filter_eq {t : RadixTree} {ids : List NodeId} :
    ((ids.filter fun i => (t.node i).refCount == 0).map fun i => (t.node i).length).sum =
        (ids.map fun i =>
          evictableWeight (t.node i).key (t.node i).value (t.node i).refCount).sum ∧
      ((ids.filter fun i => (t.node i).refCount != 0).map fun i => (t.node i).length).sum =
        (ids.map fun i =>
          protectedWeight (t.node i).key (t.node i).value (t.node i).refCount).sum := by
  induction ids with
  | nil => exact ⟨rfl, rfl⟩
  | cons i ids ih =>
    by_cases hr : (t.node i).refCount = 0
    · simp only [evictableWeight, protectedWeight, Node.length] at ih ⊢
      simp [hr, ih.1, ih.2]
    · simp only [evictableWeight, protectedWeight, Node.length] at ih ⊢
      simp [hr, ih.1, ih.2]

/-- A locked node's indices survive an eviction, and none of them is freed. -/
theorem evict_keeps_locked (hb : w.cache.Balanced w.locks) {freed : List ℕ} {l : NodeId}
    (hp : Pruned w.cache.tree c.tree freed) (hl : l ∈ w.locks) :
    ∃ xs, w.cache.matchedIndices l = some xs ∧ c.matchedIndices l = some xs ∧
      ∀ x ∈ xs, x ∈ c.tree.weigh storedWeight := by
  have hw := hb.wellFormed
  have hw' := hp.wellFormed hw
  obtain ⟨ch, hc⟩ := hw.chain (hb.counted.linked l hl)
  have hs' := hp.spells hb.counted hl hc.spells
  exact ⟨_, hw.pathValue_spec hc.spells, hw'.pathValue_spec hs',
    fun x hx => mem_stored_of_spells hw' hs' hx⟩

/-- Every run keeps the books. -/
theorem radix_keeps_accounts (h : Run pageSize evs w) : w.Accounts evs := by
  have hs := run_sound h
  have hb := hs.balanced
  have hw := hb.wellFormed
  have hcons := run_conserves h
  obtain ⟨ids, hwalk, hn, hm⟩ := hw.walk_spec
  have hev := WellFormed.weigh_eq_sum (w := evictableWeight) hn hm
  have hpr := WellFormed.weigh_eq_sum (w := protectedWeight) hn hm
  rw [← hb.tallied.evictable, ← sum_filter_eq.1] at hev
  rw [← hb.tallied.protected_eq, ← sum_filter_eq.2] at hpr
  refine ⟨?_, ⟨ids, hwalk, ?_, hev, hpr, ?_⟩, ?_, ?_⟩
  · simp only [RadixCache.checkIntegrity, hw.checkStructure_eq, hwalk, Option.bind_eq_bind,
      Option.bind_some]
    rw [if_pos ⟨hev.symm, hpr.symm⟩]
  · intro l hl
    rcases hb.counted.linked l hl with hr | hp
    · exact .inr hr
    · exact .inl ((hm l).mpr hp)
  · intro i hi
    obtain ⟨p, hp⟩ := Option.isSome_iff_exists.mp ((hm i).mp hi)
    exact hb.counted.depth i p hp
  · intro size hle
    obtain ⟨c, freed, he, _, hp, hsize⟩ := RadixCache.evict_spec hb hle
    refine ⟨c, freed, he, hsize, fun l hl => ?_⟩
    obtain ⟨xs, hx, hx', hmem⟩ := evict_keeps_locked hb hp hl
    refine ⟨xs, hx, hx', fun hnd x hxs hxf => ?_⟩
    -- an index both stored and freed would have been offered twice
    have hnodup : (w.cache.tree.weigh storedWeight).Nodup := by
      refine Multiset.nodup_of_le ?_ (Multiset.coe_nodup.mpr hnd)
      rw [← hcons, add_assoc, add_assoc]
      exact Multiset.le_add_right _ _
    rw [← hp.stored] at hnodup
    exact (Multiset.disjoint_left.mp (Multiset.nodup_add.mp hnodup).2.2) (hmem x hxs) hxf
  · obtain ⟨xs, hxs, he⟩ := hw.pages_spec
    refine ⟨xs, hxs, ?_⟩
    rw [← Multiset.coe_eq_coe, ← Multiset.coe_add, ← Multiset.coe_add, ← Multiset.coe_add, he]
    exact hcons

/-- A publication, a lock on its first page, and an eviction of the rest. -/
theorem radix_keeps_accounts_pages : ∃ w : World, ∃ c : RadixCache,
    w.locks = [2] ∧ c.protectedSize = 2 ∧ w.cache = c ∧
      w.Accounts [(.insertPrefix [1, 2, 3, 4, 5] [10, 11, 12, 13, 14], .inserted ⟨0, 1, 4⟩),
        (.matchPrefix [1, 2], .matched ⟨2, 2⟩ [10, 11]), (.lock 2, .done),
        (.evict 1, .evicted [12, 13])] := by
  have hnew : Run 2 [] ⟨⟨⟨[{ Node.new 0 with refCount := 1 }], 2⟩, 0, 0, 0⟩, [], []⟩ := .nil rfl
  have hins : World.Admits ⟨⟨⟨[{ Node.new 0 with refCount := 1 }], 2⟩, 0, 0, 0⟩, [], []⟩
      (.insertPrefix [1, 2, 3, 4, 5] [10, 11, 12, 13, 14]) := rfl
  have hmatch := (hnew.snoc hins rfl).snoc
    (show World.Admits _ (.matchPrefix [1, 2]) from trivial) rfl
  have hlock := hmatch.snoc (show World.Admits _ (.lock 2) from ⟨by decide, by decide⟩) rfl
  have hevict := hlock.snoc (show World.Admits _ (.evict 1) from Nat.le_of_ble_eq_true rfl) rfl
  exact ⟨_, _, rfl, rfl, rfl, radix_keeps_accounts hevict⟩

end Conservation

end Frink.Radix
