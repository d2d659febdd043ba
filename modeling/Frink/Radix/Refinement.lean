import Frink.Radix.Evict

/-! # The cache is a prefix map

Runs of the cache, as its callers make them, against runs of a map from page-aligned
prefixes to page indices. A publication never overwrites an entry, an eviction only
takes entries away, and every lookup answers the longest entry.
-/

namespace Frink.Radix
open Forest RadixTree

inductive Op where
  | insertPrefix (inputIds indices : List ℕ)
  | matchPrefix (inputIds : List ℕ)
  | peekCachedLen (inputIds : List ℕ)
  | lock (node : NodeId)
  | unlock (node : NodeId)
  | evict (size : ℕ)

/-- What an operation hands back; a match comes with the indices of its node. -/
inductive Ans where
  | inserted (result : InsertResult)
  | matched (result : MatchResult) (indices : List ℕ)
  | peeked (cachedLen : ℕ)
  | done
  | evicted (pages : List ℕ)

namespace Ans

/-- The nodes a caller learns. -/
def handles : Ans → List NodeId
  | .inserted r => [r.node]
  | .matched r _ => [r.node]
  | _ => []

end Ans

def RadixCache.run (c : RadixCache) : Op → Option (RadixCache × Ans)
  | .insertPrefix inputIds indices =>
      (c.insertPrefix inputIds indices).map fun r => (r.1, .inserted r.2)
  | .matchPrefix inputIds => (c.matchPrefix inputIds).bind fun r =>
      (r.1.matchedIndices r.2.node).map fun indices => (r.1, .matched r.2 indices)
  | .peekCachedLen inputIds => (c.peekCachedLen inputIds).map fun n => (c, .peeked n)
  | .lock node => (c.lock node).map fun c => (c, .done)
  | .unlock node => (c.unlock node).map fun c => (c, .done)
  | .evict size => (c.evict size).map fun r => (r.1, .evicted r.2)

/-- A cache, the nodes its callers were given, and the locks they hold. -/
structure World where

  cache : RadixCache
  handles : List NodeId
  locks : List NodeId

namespace World

/-- What callers may ask: a lock is on a node they were given that was not evicted since, an
unlock on a node they hold, an eviction of no more than is evictable. -/
def Admits (w : World) : Op → Prop
  | .insertPrefix inputIds indices => inputIds.length = indices.length
  | .matchPrefix _ => True
  | .peekCachedLen _ => True
  | .lock node => node ∈ w.handles ∧ w.cache.tree.Linked node
  | .unlock node => node ∈ w.locks
  | .evict size => size ≤ w.cache.evictableSize

/-- The locks held after an operation. -/
def locksAfter (w : World) : Op → List NodeId
  | .lock node => node :: w.locks
  | .unlock node => w.locks.erase node
  | _ => w.locks

def next (w : World) (op : Op) (c : RadixCache) (ans : Ans) : World :=
  ⟨c, ans.handles ++ w.handles, w.locksAfter op⟩

end World

/-- The runs of a new cache, with what each operation answered. -/
inductive Run (pageSize : ℕ) : List (Op × Ans) → World → Prop
  | nil {c : RadixCache} : RadixCache.new pageSize = some c → Run pageSize [] ⟨c, [], []⟩
  | snoc {evs : List (Op × Ans)} {w : World} {op : Op} {c : RadixCache} {ans : Ans} :
      Run pageSize evs w → w.Admits op → w.cache.run op = some (c, ans) →
      Run pageSize (evs ++ [(op, ans)]) (w.next op c ans)

section Abstract

variable {page : ℕ} {M M' : PrefixMap ℕ ℕ page}

/-- What an operation does to a map of page-aligned prefixes. -/
inductive MapStep (M : PrefixMap ℕ ℕ page) : Op → Ans → PrefixMap ℕ ℕ page → Prop
  | insertPrefix {inputIds indices : List ℕ} {S : List (ℕ × ℕ)} {r : InsertResult}
      {M' : PrefixMap ℕ ℕ page} : r.insertedLen = alignDown inputIds.length page →
      M.Longest (inputIds.take r.insertedLen) S → r.cachedLen = S.length →
      M'.entries = M.entries ∪ PrefixMap.published S
        ((inputIds.take r.insertedLen).zip (indices.take r.insertedLen)) page →
      MapStep M (.insertPrefix inputIds indices) (.inserted r) M'
  | matchPrefix {inputIds : List ℕ} {S : List (ℕ × ℕ)} {node : NodeId} :
      M.Longest inputIds S →
      MapStep M (.matchPrefix inputIds) (.matched ⟨S.length, node⟩ (S.map Prod.snd)) M
  | peekCachedLen {inputIds : List ℕ} {S : List (ℕ × ℕ)} : M.Longest inputIds S →
      MapStep M (.peekCachedLen inputIds) (.peeked S.length) M
  | lock {node : NodeId} : MapStep M (.lock node) .done M
  | unlock {node : NodeId} : MapStep M (.unlock node) .done M
  | evict {size : ℕ} {pages : List ℕ} {M' : PrefixMap ℕ ℕ page} : M'.entries ⊆ M.entries →
      MapStep M (.evict size) (.evicted pages) M'

inductive MapRun (page : ℕ) : List (Op × Ans) → PrefixMap ℕ ℕ page → Prop
  | nil : MapRun page [] (PrefixMap.empty ℕ ℕ page)
  | snoc {evs : List (Op × Ans)} {M M' : PrefixMap ℕ ℕ page} {op : Op} {ans : Ans} :
      MapRun page evs M → MapStep M op ans M' → MapRun page (evs ++ [(op, ans)]) M'

theorem longest_congr {page' : ℕ} {N : PrefixMap ℕ ℕ page'} {q : List ℕ} {S : List (ℕ × ℕ)}
    (h : M.entries = N.entries) : M.Longest q S ↔ N.Longest q S := by
  unfold PrefixMap.Longest
  rw [h]

end Abstract

namespace RadixTree

/-- The entries a tree stores: aligned prefixes of what its nodes spell. -/
def stored (t : RadixTree) : Set (List (ℕ × ℕ)) :=
  {L | ∃ S j n, Spells t.parent t.label ROOT S j ∧ t.pageSize ∣ n ∧ L = S.take n}

theorem WellFormed.stored_eq {t : RadixTree} (h : t.WellFormed) :
    t.stored = h.prefixes.entries := rfl

/-- The map of a tree, at a named page size. -/
def WellFormed.mapAt {t : RadixTree} {page : ℕ} (h : t.WellFormed) (hp : t.pageSize = page) :
    PrefixMap ℕ ℕ page := hp ▸ h.prefixes

theorem WellFormed.mapAt_entries {t : RadixTree} {page : ℕ} (h : t.WellFormed)
    (hp : t.pageSize = page) : (h.mapAt hp).entries = t.stored := by
  subst hp
  rfl

variable {t t' : RadixTree} {node : NodeId} {key value : List ℕ} {S : List (ℕ × ℕ)}

theorem SameShape.stored_eq (h : SameShape t t') (hw : t.WellFormed) : t'.stored = t.stored :=
  Set.ext fun _ => h.mem_prefixes_iff hw

theorem Reshape.stored_eq (h : Reshape t t') (hw : t.WellFormed) : t'.stored = t.stored :=
  Set.ext fun _ => h.mem_prefixes_iff hw

theorem Pruned.stored_subset {freed : List ℕ} (h : Pruned t t' freed) (hw : t.WellFormed) :
    t'.stored ⊆ t.stored := fun _ => h.mem_prefixes_of hw

/-- A publication adds the entries of the published span. -/
theorem published_stored (h : RadixCache.Published t node key value t') (hw : t.WellFormed)
    (hs : Spells t.parent t.label ROOT S node) :
    t'.stored = t.stored ∪
      {L | ∃ n, t.pageSize ∣ n ∧ L = (S ++ key.zip value).take n} := by
  cases h with
  | kept hk =>
    subst hk
    refine (Set.union_eq_self_of_subset_right ?_).symm
    rintro _ ⟨n, hn, rfl⟩
    exact ⟨S, node, n, hs, hn, by simp⟩
  | grown ha =>
    ext L
    refine (ha.mem_prefixes_iff hw).trans (or_congr_right ?_)
    constructor
    · rintro ⟨S', n, hs', hn, rfl⟩
      rw [hs'.unique hw.root_parent hs]
      exact ⟨n, hn, rfl⟩
    · rintro ⟨n, hn, rfl⟩
      exact ⟨S, n, hs, hn, rfl⟩

end RadixTree

section Refinement

variable {pageSize : ℕ} {w : World} {op : Op} {evs : List (Op × Ans)}

/-- The invariant of a run. -/
structure World.Sound (pageSize : ℕ) (w : World) : Prop where
  balanced : w.cache.Balanced w.locks
  pageSize_eq : w.cache.tree.pageSize = pageSize

/-- One admitted operation: it returns, keeps the books, and is a step of the map. -/
theorem World.Sound.step (h : w.Sound pageSize) (ha : w.Admits op) :
    ∃ c ans, w.cache.run op = some (c, ans) ∧ (w.next op c ans).Sound pageSize ∧
      ∀ M : PrefixMap ℕ ℕ pageSize, M.entries = w.cache.tree.stored →
        ∃ M', MapStep M op ans M' ∧ M'.entries = c.tree.stored := by
  have hw := h.balanced.wellFormed
  have hps := h.pageSize_eq
  cases op with
  | insertPrefix ids xs =>
    obtain ⟨c, t, node, S, r, he, hc, hi, hS, hr, hs, hp, hb, _⟩ :=
      RadixCache.insertPrefix_spec h.balanced ha
    have hcps : c.tree.pageSize = pageSize := by
      rw [← hps, ← hr.pageSize]
      cases hp with
      | kept _ => rfl
      | grown hg => exact hg.pageSize
    refine ⟨c, .inserted r, by simp [RadixCache.run, he], ⟨hb, hcps⟩, fun M hM => ?_⟩
    have hst : c.tree.stored = M.entries ∪ PrefixMap.published S
        ((ids.take r.insertedLen).zip (xs.take r.insertedLen)) pageSize := by
      rw [published_stored hp (hr.wellFormed hw) hs, hr.stored_eq hw, hM, hr.pageSize, hps]
      unfold PrefixMap.published
      rw [drop_zip]
    refine ⟨hb.wellFormed.mapAt hcps, ?_, hb.wellFormed.mapAt_entries hcps⟩
    refine .insertPrefix (by rw [hi, hps]) ((longest_congr (hM.trans hw.stored_eq)).mpr hS) hc ?_
    rw [hb.wellFormed.mapAt_entries, hst]
  | matchPrefix ids =>
    obtain ⟨c, node, S, he, hS, hr, hb, hs⟩ := RadixCache.matchPrefix_spec h.balanced ids
    have hv := hb.wellFormed.pathValue_spec hs
    refine ⟨c, .matched ⟨S.length, node⟩ (S.map Prod.snd), ?_, ⟨hb, ?_⟩, fun M hM => ⟨M, ?_, ?_⟩⟩
    · simp [RadixCache.run, he, RadixCache.matchedIndices, hv]
    · exact hr.pageSize.trans hps
    · exact .matchPrefix ((longest_congr (hM.trans hw.stored_eq)).mpr hS)
    · rw [hM, hr.stored_eq hw]
  | peekCachedLen ids =>
    obtain ⟨S, hS, he⟩ := RadixCache.peekCachedLen_spec hw ids
    refine ⟨w.cache, .peeked S.length, by simp [RadixCache.run, he], ⟨h.balanced, hps⟩,
      fun M hM => ⟨M, ?_, hM⟩⟩
    exact .peekCachedLen ((longest_congr (hM.trans hw.stored_eq)).mpr hS)
  | lock node =>
    obtain ⟨c, he, hb, hsh⟩ := RadixCache.lock_spec h.balanced ha.2
    refine ⟨c, .done, by simp [RadixCache.run, he], ⟨hb, hsh.pageSize.trans hps⟩,
      fun M hM => ⟨M, .lock, ?_⟩⟩
    rw [hM, hsh.stored_eq hw]
  | unlock node =>
    obtain ⟨c, he, hb, hsh⟩ := RadixCache.unlock_spec h.balanced ha
    refine ⟨c, .done, by simp [RadixCache.run, he], ⟨hb, hsh.pageSize.trans hps⟩,
      fun M hM => ⟨M, .unlock, ?_⟩⟩
    rw [hM, hsh.stored_eq hw]
  | evict size =>
    obtain ⟨c, freed, he, hb, hp, _⟩ := RadixCache.evict_spec h.balanced ha
    have hcps : c.tree.pageSize = pageSize := hp.pageSize.trans hps
    refine ⟨c, .evicted freed, by simp [RadixCache.run, he], ⟨hb, hcps⟩, fun M hM => ?_⟩
    refine ⟨hb.wellFormed.mapAt hcps, .evict ?_, hb.wellFormed.mapAt_entries hcps⟩
    rw [hb.wellFormed.mapAt_entries, hM]
    exact hp.stored_subset hw

theorem run_sound (h : Run pageSize evs w) : w.Sound pageSize := by
  induction h with
  | @nil c hc =>
    have hps : 0 < pageSize := by
      by_contra hz
      simp [RadixCache.new, RadixTree.new, hz] at hc
    obtain ⟨c', hc', hb, hp, _⟩ := RadixCache.new_balanced hps
    rw [hc] at hc'
    cases hc'
    exact ⟨hb, hp⟩
  | snoc _ ha he ih =>
    obtain ⟨c, ans, he', hs, _⟩ := ih.step ha
    rw [he] at he'
    cases he'
    exact hs

theorem new_stored {c : RadixCache} (hps : 0 < pageSize) (hc : RadixCache.new pageSize = some c) :
    c.tree.stored = {[]} := by
  obtain ⟨c', hc', hb, _, hpar⟩ := RadixCache.new_balanced hps
  rw [hc] at hc'
  cases hc'
  ext L
  constructor
  · rintro ⟨S, j, n, hs, _, rfl⟩
    cases hs with
    | refl => exact List.take_nil
    | down _ hk =>
      rw [hpar] at hk
      cases hk
  · rintro rfl
    exact hb.wellFormed.prefixes.nil_mem

/-- Every run of the cache is a run of a prefix map with the same answers. -/
theorem run_refines (h : Run pageSize evs w) :
    ∃ M : PrefixMap ℕ ℕ pageSize, MapRun pageSize evs M ∧ M.entries = w.cache.tree.stored := by
  induction h with
  | @nil c hc =>
    have hps : 0 < pageSize := by
      by_contra hz
      simp [RadixCache.new, RadixTree.new, hz] at hc
    exact ⟨_, .nil, (new_stored hps hc).symm⟩
  | snoc hr ha he ih =>
    obtain ⟨M, hM, hMe⟩ := ih
    obtain ⟨c, ans, he', _, hstep⟩ := (run_sound hr).step ha
    rw [he] at he'
    cases he'
    obtain ⟨M', hs, he⟩ := hstep M hMe
    exact ⟨M', hM.snoc hs, he⟩

/-- What a cache owes to the map it stands for. -/
structure World.Answers (w : World) (M : PrefixMap ℕ ℕ pageSize) : Prop where
  entries : M.entries = w.cache.tree.stored
  returns : ∀ op, w.Admits op → (w.cache.run op).isSome
  lookup : ∀ q, ∃ S c node, M.Longest q S ∧
    w.cache.matchPrefix q = some (c, ⟨S.length, node⟩) ∧
    c.matchedIndices node = some (S.map Prod.snd) ∧ c.tree.stored = w.cache.tree.stored ∧
    w.cache.run (.peekCachedLen q) = some (w.cache, .peeked S.length)

/-- In every state of every run the cache answers as a prefix-closed map does: a match ends at
a node whose indices are those of the longest stored prefix, a peek gives the same length. -/
theorem radix_refines_prefix_map (h : Run pageSize evs w) :
    ∃ M : PrefixMap ℕ ℕ pageSize, MapRun pageSize evs M ∧ w.Answers M := by
  obtain ⟨M, hM, he⟩ := run_refines h
  have hs := run_sound h
  have hw := hs.balanced.wellFormed
  refine ⟨M, hM, he, ?_, fun q => ?_⟩
  · intro op ha
    obtain ⟨c, ans, hr, _⟩ := hs.step ha
    simp [hr]
  · obtain ⟨c, node, S, hm, hS, hr, hb, hsp⟩ := RadixCache.matchPrefix_spec hs.balanced q
    obtain ⟨S', hS', hp⟩ := RadixCache.peekCachedLen_spec hw q
    have hSS := PrefixMap.longest_unique hS hS'
    subst hSS
    refine ⟨S, c, node, (longest_congr (he.trans hw.stored_eq)).mpr hS, hm,
      hb.wellFormed.pathValue_spec hsp, hr.stored_eq hw, ?_⟩
    simp [RadixCache.run, hp]

/-- A publication and a query that leaves it after one page. -/
theorem radix_refines_prefix_map_pages : ∃ w : World, ∃ M : PrefixMap ℕ ℕ 2,
    MapRun 2 [(.insertPrefix [1, 2, 3, 4] [10, 11, 12, 13], .inserted ⟨0, 1, 4⟩),
      (.matchPrefix [1, 2, 9, 9], .matched ⟨2, 2⟩ [10, 11])] M ∧ w.Answers M := by
  have hnew : Run 2 [] ⟨⟨⟨[{ Node.new 0 with refCount := 1 }], 2⟩, 0, 0, 0⟩, [], []⟩ := .nil rfl
  have hins : World.Admits ⟨⟨⟨[{ Node.new 0 with refCount := 1 }], 2⟩, 0, 0, 0⟩, [], []⟩
      (.insertPrefix [1, 2, 3, 4] [10, 11, 12, 13]) := rfl
  exact ⟨_, radix_refines_prefix_map
    ((hnew.snoc hins rfl).snoc (show World.Admits _ (.matchPrefix [1, 2, 9, 9]) from trivial) rfl)⟩

end Refinement

end Frink.Radix
