import Frink.Radix.Spread

/-! # Callers do not see each other

A run of the salted cache, as its callers make it. What happens under one salt is what
happens in a run where nobody else asks for anything, and an eviction now and then takes a
node; a handle goes on naming the same path of the same tree until its node is evicted.
-/

namespace Frink.Radix
open Forest RadixTree

namespace RadixTree

variable {t t' t'' : RadixTree} {freed : List ℕ}

/-- An old node that is still in the tree spells what it spelled. -/
structure Persists (t t' : RadixTree) : Prop where
  length_le : t.nodes.length ≤ t'.nodes.length
  spells : ∀ i < t.nodes.length, ∀ S, Spells t'.parent t'.label ROOT S i →
    Spells t.parent t.label ROOT S i

theorem Persists.refl : Persists t t := ⟨le_rfl, fun _ _ _ => id⟩

theorem Persists.trans (h : Persists t t') (h' : Persists t' t'') : Persists t t'' where
  length_le := h.length_le.trans h'.length_le
  spells i hi S hs := h.spells i hi S (h'.spells i (hi.trans_le h.length_le) S hs)

theorem SameShape.persists (h : SameShape t t') : Persists t t' where
  length_le := h.length.ge
  spells _ _ _ hs := h.spells_iff.mp hs

theorem Reshape.persists (h : Reshape t t') (hw : t.WellFormed) : Persists t t' := by
  induction h with
  | refl => exact .refl
  | stamp _ hi ih => exact ih.trans (sameShape_stamp hi).persists
  | cut hr hc ih =>
    apply ih.trans
    refine ⟨hc.length.ge.trans' (Nat.le_succ _), fun i hi S hs => ?_⟩
    rcases (hc.spells_iff (hr.wellFormed hw)).mp hs with hs | ⟨rfl, _⟩
    · exact hs
    · exact absurd hi (lt_irrefl _)

theorem Attach.persists {p ts key value} (h : Attach t p key value ts t') (hw : t.WellFormed) :
    Persists t t' := by
  refine ⟨h.length.ge.trans' (Nat.le_succ _), fun i hi S hs => ?_⟩
  rcases (h.spells_iff hw).mp hs with hs | ⟨rfl, _⟩
  · exact hs
  · exact absurd hi (lt_irrefl _)

theorem Pruned.persists (h : Pruned t t' freed) (hw : t.WellFormed) : Persists t t' := by
  induction h with
  | refl => exact .refl
  | step hp hu _ ih =>
    apply ih.trans
    refine ⟨hu.length.ge, fun i _ S hs => ?_⟩
    exact ((hu.spells_iff (hp.wellFormed hw)).mp hs).1

end RadixTree

inductive SaltedOp where
  | matchPrefix (salt : Option ℕ) (inputIds : List ℕ)
  | cachedLen (salt : Option ℕ) (inputIds : List ℕ)
  | insertPrefix (salt : Option ℕ) (inputIds indices : List ℕ)
  | matchedIndices (handle : Handle)
  | lock (handle : Handle)
  | unlock (handle : Handle)
  | evict (size : ℕ)

inductive SaltedAns where
  | matched (result : SaltedMatch)
  | cached (cachedLen : ℕ)
  | inserted (result : SaltedInsert)
  | indices (pages : List ℕ)
  | done
  | evicted (pages : List ℕ)

/-- The namespace an operation is made under. -/
def SaltedOp.salt : SaltedOp → Option (Option ℕ)
  | .matchPrefix salt _ => some salt
  | .cachedLen salt _ => some salt
  | .insertPrefix salt _ _ => some salt
  | .matchedIndices handle => some handle.salt
  | .lock handle => some handle.salt
  | .unlock handle => some handle.salt
  | .evict _ => none

/-- The handles a caller learns. -/
def SaltedAns.handles : SaltedAns → List Handle
  | .matched r => [r.handle]
  | .inserted r => [r.handle]
  | _ => []

/-- An operation on the tree of its namespace. -/
def RadixCache.serve (c : RadixCache) : SaltedOp → Option (RadixCache × SaltedAns)
  | .matchPrefix salt inputIds => (c.matchPrefix inputIds).map fun r =>
      (r.1, .matched ⟨r.2.cachedLen, salt, r.2.node⟩)
  | .cachedLen _ inputIds => (c.peekCachedLen inputIds).map fun n => (c, .cached n)
  | .insertPrefix salt inputIds indices => (c.insertPrefix inputIds indices).map fun r =>
      (r.1, .inserted ⟨r.2.cachedLen, r.2.insertedLen, salt, r.2.node⟩)
  | .matchedIndices handle => (c.matchedIndices handle.node).map fun pages => (c, .indices pages)
  | .lock handle => (c.lock handle.node).map fun c => (c, .done)
  | .unlock handle => (c.unlock handle.node).map fun c => (c, .done)
  | .evict _ => none

def SaltedRadix.run (s : SaltedRadix) : SaltedOp → Option (SaltedRadix × SaltedAns)
  | .matchPrefix salt inputIds =>
      (s.matchPrefix salt inputIds).map fun r => (r.1, .matched r.2)
  | .cachedLen salt inputIds => (s.cachedLen salt inputIds).map fun n => (s, .cached n)
  | .insertPrefix salt inputIds indices =>
      (s.insertPrefix salt inputIds indices).map fun r => (r.1, .inserted r.2)
  | .matchedIndices handle => (s.tree handle.salt).bind fun r =>
      (r.1.matchedIndices handle.node).map fun pages => (r.2, .indices pages)
  | .lock handle => (s.lock handle).map fun s => (s, .done)
  | .unlock handle => (s.unlock handle).map fun s => (s, .done)
  | .evict size => (s.evict size).map fun r => (r.1, .evicted r.2)

/-- A salted cache, the handles its callers were given, and the locks they hold. -/
structure SaltedWorld where

  radix : SaltedRadix
  handles : List Handle
  locks : List Handle

namespace SaltedWorld

/-- The tree a handle names still has its node. -/
def Alive (w : SaltedWorld) (handle : Handle) : Prop :=
  ∃ c, w.radix.namespaces.lookup handle.salt = some c ∧ c.tree.Linked handle.node

/-- What callers may ask, as of the plain cache; an eviction may ask for any size. -/
def Admits (w : SaltedWorld) : SaltedOp → Prop
  | .matchPrefix _ _ => True
  | .cachedLen _ _ => True
  | .insertPrefix _ inputIds indices => inputIds.length = indices.length
  | .matchedIndices handle => handle ∈ w.handles ∧ w.Alive handle
  | .lock handle => handle ∈ w.handles ∧ w.Alive handle
  | .unlock handle => handle ∈ w.locks
  | .evict _ => True

/-- The locks held after an operation. -/
def locksAfter (w : SaltedWorld) : SaltedOp → List Handle
  | .lock handle => handle :: w.locks
  | .unlock handle => w.locks.erase handle
  | _ => w.locks

def next (w : SaltedWorld) (op : SaltedOp) (s : SaltedRadix) (ans : SaltedAns) : SaltedWorld :=
  ⟨s, ans.handles ++ w.handles, w.locksAfter op⟩

end SaltedWorld

/-- The runs of a new salted cache, with what each operation answered. -/
inductive SaltedRun (pageSize : ℕ) : List (SaltedOp × SaltedAns) → SaltedWorld → Prop
  | nil : SaltedRun pageSize [] ⟨.new pageSize, [], []⟩
  | snoc {evs : List (SaltedOp × SaltedAns)} {w : SaltedWorld} {op : SaltedOp}
      {s : SaltedRadix} {ans : SaltedAns} :
      SaltedRun pageSize evs w → w.Admits op → w.radix.run op = some (s, ans) →
      SaltedRun pageSize (evs ++ [(op, ans)]) (w.next op s ans)

namespace SaltedRadix

variable {pageSize : ℕ} {s s' t : SaltedRadix} {salt other : Option ℕ} {c : RadixCache}
  {locks : List Handle} {op : SaltedOp} {ans : SaltedAns}

/-- The tree an operation works on, and the cache with that tree in it. -/
structure Opened (s : SaltedRadix) (salt : Option ℕ) (c : RadixCache) (t : SaltedRadix) : Prop where
  lookup : t.namespaces.lookup salt = some c
  other : ∀ other, other ≠ salt → t.namespaces.lookup other = s.namespaces.lookup other
  pageSize : t.pageSize = s.pageSize
  known : ∀ other d, s.namespaces.lookup other = some d → t.namespaces.lookup other = some d

theorem tree_opened (h : s.tree salt = some (c, t)) : s.Opened salt c t := by
  unfold tree at h
  cases hl : s.namespaces.lookup salt with
  | some d =>
    simp only [hl, Option.some.injEq, Prod.mk.injEq] at h
    obtain ⟨rfl, rfl⟩ := h
    exact ⟨hl, fun _ _ => rfl, rfl, fun _ _ => id⟩
  | none =>
    simp only [hl, Option.bind_eq_bind] at h
    obtain ⟨d, _, hd⟩ := Option.bind_eq_some_iff.mp h
    simp only [Option.some.injEq, Prod.mk.injEq] at hd
    obtain ⟨rfl, rfl⟩ := hd
    refine ⟨lookup_setTree_self, fun other ho => lookup_setTree_ne ho, rfl, fun other d hd => ?_⟩
    have ho : other ≠ salt := by
      rintro rfl
      rw [hl] at hd
      cases hd
    exact (lookup_setTree_ne ho).trans hd

theorem tree_sound (h : s.tree salt = some (c, t)) (hs : s.Sound pageSize locks) :
    t.Sound pageSize locks := by
  unfold tree at h
  cases hl : s.namespaces.lookup salt with
  | some d =>
    simp only [hl, Option.some.injEq, Prod.mk.injEq] at h
    obtain ⟨rfl, rfl⟩ := h
    exact hs
  | none =>
    simp only [hl, Option.bind_eq_bind] at h
    obtain ⟨d, hnew, hd⟩ := Option.bind_eq_some_iff.mp h
    simp only [Option.some.injEq, Prod.mk.injEq] at hd
    obtain ⟨rfl, rfl⟩ := hd
    have hnot : salt ∉ s.order := fun hm =>
      AList.lookup_eq_none.mp hl ((hs.mem_order salt).mp hm)
    have hps : 0 < s.pageSize := by
      by_contra hz
      simp [RadixCache.new, RadixTree.new, hz] at hnew
    obtain ⟨d', hd', hb, hp, _⟩ := RadixCache.new_balanced hps
    rw [hnew] at hd'
    cases hd'
    have hempty : nodesUnder salt locks = [] := by
      apply List.eq_nil_iff_forall_not_mem.mpr
      intro node hm
      exact hnot (hs.locked _ (mem_nodesUnder.mp hm))
    refine ⟨hs.pageSize_eq, ?_, fun other => ?_, fun other e he => ?_, fun l hm => ?_,
      hs.cursor_lt⟩
    · apply List.Nodup.append hs.nodup (List.nodup_singleton salt)
      rintro x hx hx'
      rw [List.mem_singleton.mp hx'] at hx
      exact hnot hx
    · change other ∈ s.order ++ [salt] ↔ other ∈ s.namespaces.insert salt d
      rw [List.mem_append, List.mem_singleton, AList.mem_insert, hs.mem_order, or_comm]
    · by_cases ho : other = salt
      · subst ho
        have he' : some d = some e := lookup_setTree_self.symm.trans he
        cases he'
        rw [hempty]
        exact ⟨hb, hp.trans hs.pageSize_eq⟩
      · exact hs.balanced other e ((lookup_setTree_ne ho).symm.trans he)
    · exact List.mem_append_left _ (hs.locked l hm)

/-- Opening a tree depends on that tree and the page size only. -/
theorem tree_agree (hl : s'.namespaces.lookup salt = s.namespaces.lookup salt)
    (hp : s'.pageSize = s.pageSize) (h : s.tree salt = some (c, t)) :
    ∃ t', s'.tree salt = some (c, t') := by
  unfold tree at h ⊢
  rw [hl, hp]
  cases hd : s.namespaces.lookup salt with
  | some d =>
    simp only [hd, Option.some.injEq, Prod.mk.injEq] at h
    simp [h.1]
  | none =>
    simp only [hd, Option.bind_eq_bind] at h
    obtain ⟨d, hnew, hd⟩ := Option.bind_eq_some_iff.mp h
    simp only [Option.some.injEq, Prod.mk.injEq] at hd
    simp [hnew, hd.1]

/-- What an operation made under a salt comes to: a peek into a namespace nobody used, or an
operation on the tree of the namespace, which is opened and then read or written back. -/
inductive Served (s : SaltedRadix) (salt : Option ℕ) (op : SaltedOp) :
    SaltedRadix → SaltedAns → Prop
  | unused {inputIds : List ℕ} : op = .cachedLen salt inputIds →
      s.namespaces.lookup salt = none → Served s salt op s (.cached 0)
  | tree {c c' : RadixCache} {u t : SaltedRadix} {ans : SaltedAns} :
      s.tree salt = some (c, u) → c.serve op = some (c', ans) →
      (∀ inputIds, op = .cachedLen salt inputIds → s.namespaces.lookup salt = some c) →
      (t = u ∧ c' = c ∨ t = u.setTree salt c') → Served s salt op t ans

theorem run_served (h : s.run op = some (t, ans)) (hsalt : op.salt = some salt) :
    s.Served salt op t ans := by
  cases op with
  | evict size => cases hsalt
  | cachedLen salt' ids =>
    cases hsalt
    obtain ⟨n, hn, he⟩ := Option.map_eq_some_iff.mp h
    cases he
    unfold cachedLen at hn
    cases hl : s.namespaces.lookup salt with
    | none =>
      simp only [hl, Option.some.injEq] at hn
      subst hn
      exact .unused rfl hl
    | some c =>
      simp only [hl] at hn
      exact .tree (c := c) (u := s) (by simp [SaltedRadix.tree, hl])
        (by simp [RadixCache.serve, hn]) (fun _ _ => hl) (.inl ⟨rfl, rfl⟩)
  | matchPrefix salt' ids =>
    cases hsalt
    obtain ⟨r, hr, he⟩ := Option.map_eq_some_iff.mp h
    cases he
    simp only [matchPrefix, Option.bind_eq_bind] at hr
    obtain ⟨⟨c, u⟩, hu, hr⟩ := Option.bind_eq_some_iff.mp hr
    obtain ⟨⟨c', m⟩, hm, hr⟩ := Option.bind_eq_some_iff.mp hr
    cases hr
    exact .tree hu (by simp [RadixCache.serve, hm]) nofun (.inr rfl)
  | insertPrefix salt' ids xs =>
    cases hsalt
    obtain ⟨r, hr, he⟩ := Option.map_eq_some_iff.mp h
    cases he
    simp only [insertPrefix, Option.bind_eq_bind] at hr
    obtain ⟨⟨c, u⟩, hu, hr⟩ := Option.bind_eq_some_iff.mp hr
    obtain ⟨⟨c', m⟩, hm, hr⟩ := Option.bind_eq_some_iff.mp hr
    cases hr
    exact .tree hu (by simp [RadixCache.serve, hm]) nofun (.inr rfl)
  | matchedIndices handle =>
    cases hsalt
    obtain ⟨⟨c, u⟩, hu, hr⟩ := Option.bind_eq_some_iff.mp h
    obtain ⟨xs, hx, he⟩ := Option.map_eq_some_iff.mp hr
    cases he
    exact .tree hu (by simp [RadixCache.serve, hx]) nofun (.inl ⟨rfl, rfl⟩)
  | lock handle =>
    cases hsalt
    obtain ⟨r, hr, he⟩ := Option.map_eq_some_iff.mp h
    cases he
    simp only [lock, Option.bind_eq_bind] at hr
    obtain ⟨⟨c, u⟩, hu, hr⟩ := Option.bind_eq_some_iff.mp hr
    obtain ⟨c', hm, hr⟩ := Option.bind_eq_some_iff.mp hr
    cases hr
    exact .tree hu (by simp [RadixCache.serve, hm]) nofun (.inr rfl)
  | unlock handle =>
    cases hsalt
    obtain ⟨r, hr, he⟩ := Option.map_eq_some_iff.mp h
    cases he
    simp only [unlock, Option.bind_eq_bind] at hr
    obtain ⟨⟨c, u⟩, hu, hr⟩ := Option.bind_eq_some_iff.mp hr
    obtain ⟨c', hm, hr⟩ := Option.bind_eq_some_iff.mp hr
    cases hr
    exact .tree hu (by simp [RadixCache.serve, hm]) nofun (.inr rfl)

/-- An operation whose tree can serve it returns the answer of the tree. -/
theorem run_of_serve {c' : RadixCache} {u : SaltedRadix} (hsalt : op.salt = some salt)
    (hu : s.tree salt = some (c, u)) (hs : c.serve op = some (c', ans))
    (hl : ∀ inputIds, op = .cachedLen salt inputIds → s.namespaces.lookup salt = some c) :
    ∃ t, s.run op = some (t, ans) := by
  cases op with
  | evict size => cases hsalt
  | cachedLen salt' ids =>
    cases hsalt
    obtain ⟨n, hn, he⟩ := Option.map_eq_some_iff.mp hs
    cases he
    exact ⟨s, by simp [run, cachedLen, hl ids rfl, hn]⟩
  | matchPrefix salt' ids =>
    cases hsalt
    obtain ⟨r, hr, he⟩ := Option.map_eq_some_iff.mp hs
    cases he
    exact ⟨_, by simp only [run, matchPrefix, Option.bind_eq_bind, hu, Option.bind_some, hr]; rfl⟩
  | insertPrefix salt' ids xs =>
    cases hsalt
    obtain ⟨r, hr, he⟩ := Option.map_eq_some_iff.mp hs
    cases he
    exact ⟨_, by simp only [run, insertPrefix, Option.bind_eq_bind, hu, Option.bind_some, hr]; rfl⟩
  | matchedIndices handle =>
    cases hsalt
    obtain ⟨r, hr, he⟩ := Option.map_eq_some_iff.mp hs
    cases he
    exact ⟨_, by simp only [run, hu, Option.bind_some, hr]; rfl⟩
  | lock handle =>
    cases hsalt
    obtain ⟨r, hr, he⟩ := Option.map_eq_some_iff.mp hs
    cases he
    exact ⟨_, by simp only [run, lock, Option.bind_eq_bind, hu, Option.bind_some, hr]; rfl⟩
  | unlock handle =>
    cases hsalt
    obtain ⟨r, hr, he⟩ := Option.map_eq_some_iff.mp hs
    cases he
    exact ⟨_, by simp only [run, unlock, Option.bind_eq_bind, hu, Option.bind_some, hr]; rfl⟩

theorem Served.frame (h : s.Served salt op t ans) :
    t.pageSize = s.pageSize ∧
      (∀ other, other ≠ salt → t.namespaces.lookup other = s.namespaces.lookup other) := by
  cases h with
  | unused _ _ => exact ⟨rfl, fun _ _ => rfl⟩
  | tree hu _ _ ht =>
    have ho := tree_opened hu
    rcases ht with ⟨rfl, _⟩ | rfl
    · exact ⟨ho.pageSize, ho.other⟩
    · exact ⟨ho.pageSize, fun other hne => (lookup_setTree_ne hne).trans (ho.other other hne)⟩

/-- What an operation answers and does to its tree depends on that tree only. -/
theorem run_agree (hsalt : op.salt = some salt)
    (hl : s'.namespaces.lookup salt = s.namespaces.lookup salt) (hp : s'.pageSize = s.pageSize)
    (h : s.run op = some (t, ans)) :
    ∃ t', s'.run op = some (t', ans) ∧
      t'.namespaces.lookup salt = t.namespaces.lookup salt := by
  cases run_served h hsalt with
  | unused hop hnone =>
    subst hop
    rw [hnone] at hl
    exact ⟨s', by simp [run, cachedLen, hl], by rw [hl, hnone]⟩
  | @tree c c' u _ _ hu hs hused ht =>
    obtain ⟨u', hu'⟩ := tree_agree hl hp hu
    have hc : t.namespaces.lookup salt = some c' := by
      rcases ht with ⟨rfl, rfl⟩ | rfl
      · exact (tree_opened hu).lookup
      · exact lookup_setTree_self
    have hcached : ∀ ids, op = .cachedLen salt ids → s'.namespaces.lookup salt = some c :=
      fun ids hop => hl.trans (hused ids hop)
    obtain ⟨t', ht'⟩ := run_of_serve hsalt hu' hs hcached
    refine ⟨t', ht', ?_⟩
    cases run_served ht' hsalt with
    | unused hop hnone =>
      rw [hcached _ hop] at hnone
      cases hnone
    | tree hu₂ hs₂ _ ht₂ =>
      rw [hu'] at hu₂
      cases hu₂
      rw [hs] at hs₂
      cases hs₂
      rw [hc]
      rcases ht₂ with ⟨rfl, rfl⟩ | rfl
      · exact (tree_opened hu').lookup
      · exact lookup_setTree_self

end SaltedRadix

namespace SaltedWorld

variable {pageSize : ℕ} {w : SaltedWorld} {s t : SaltedRadix} {salt other : Option ℕ}
  {c c' : RadixCache} {op : SaltedOp} {ans : SaltedAns} {evs : List (SaltedOp × SaltedAns)}

/-- What an admitted operation leaves in the tree of its namespace. -/
structure Kept (salt : Option ℕ) (locks : List Handle) (c c' : RadixCache) (ans : SaltedAns) :
    Prop where
  balanced : c'.Balanced (nodesUnder salt locks)
  pageSize : c'.tree.pageSize = c.tree.pageSize
  persists : Persists c.tree c'.tree
  handles : ∀ h ∈ ans.handles, h.salt = salt ∧ c'.tree.Linked h.node

theorem linked_of_spells {t : RadixTree} {S : List (ℕ × ℕ)} {node : NodeId}
    (h : Spells t.parent t.label ROOT S node) : t.Linked node := by
  obtain ⟨l, hc, _⟩ := h.chain
  exact WellFormed.linked_of_chain hc

theorem serve_kept (hb : c.Balanced (nodesUnder salt w.locks)) (ha : w.Admits op)
    (hsalt : op.salt = some salt) (hc : ∀ d, w.radix.namespaces.lookup salt = some d → d = c)
    (h : c.serve op = some (c', ans)) : Kept salt (w.locksAfter op) c c' ans := by
  have hw := hb.wellFormed
  cases op with
  | evict size => cases hsalt
  | cachedLen salt' ids =>
    obtain ⟨n, hn, he⟩ := Option.map_eq_some_iff.mp h
    cases he
    exact ⟨hb, rfl, .refl, by simp [SaltedAns.handles]⟩
  | matchedIndices handle =>
    obtain ⟨n, hn, he⟩ := Option.map_eq_some_iff.mp h
    cases he
    exact ⟨hb, rfl, .refl, by simp [SaltedAns.handles]⟩
  | matchPrefix salt' ids =>
    cases hsalt
    obtain ⟨r, hr, he⟩ := Option.map_eq_some_iff.mp h
    cases he
    obtain ⟨d, node, S, hd, _, hreshape, hb', hs⟩ := RadixCache.matchPrefix_spec hb ids
    rw [hr] at hd
    cases hd
    refine ⟨hb', hreshape.pageSize, hreshape.persists hw, ?_⟩
    simpa [SaltedAns.handles] using linked_of_spells hs
  | insertPrefix salt' ids xs =>
    cases hsalt
    obtain ⟨r, hr, he⟩ := Option.map_eq_some_iff.mp h
    cases he
    obtain ⟨d, u, node, S, q, hd, _, _, _, hreshape, _, hpub, hb', hs⟩ :=
      RadixCache.insertPrefix_spec hb ha
    rw [hr] at hd
    cases hd
    have hkept : d.tree.pageSize = u.pageSize ∧ Persists u d.tree := by
      cases hpub with
      | kept _ => exact ⟨rfl, .refl⟩
      | grown hg => exact ⟨hg.pageSize, hg.persists (hreshape.wellFormed hw)⟩
    refine ⟨hb', hkept.1.trans hreshape.pageSize, (hreshape.persists hw).trans hkept.2, ?_⟩
    simpa [SaltedAns.handles] using linked_of_spells hs
  | lock handle =>
    cases hsalt
    obtain ⟨r, hr, he⟩ := Option.map_eq_some_iff.mp h
    cases he
    obtain ⟨_, d, hd, hlink⟩ := ha
    cases hc d hd
    obtain ⟨d', hd', hb', hshape⟩ := RadixCache.lock_spec hb hlink
    rw [hr] at hd'
    cases hd'
    refine ⟨?_, hshape.pageSize, hshape.persists, by simp [SaltedAns.handles]⟩
    rw [locksAfter, nodesUnder_cons_self]
    exact hb'
  | unlock handle =>
    cases hsalt
    obtain ⟨r, hr, he⟩ := Option.map_eq_some_iff.mp h
    cases he
    obtain ⟨d', hd', hb', hshape⟩ := RadixCache.unlock_spec hb (mem_nodesUnder.mpr ha)
    rw [hr] at hd'
    cases hd'
    refine ⟨?_, hshape.pageSize, hshape.persists, by simp [SaltedAns.handles]⟩
    rw [locksAfter, nodesUnder_erase_self]
    exact hb'

/-- The invariant of a run. -/
structure Sound (pageSize : ℕ) (w : SaltedWorld) : Prop where

  radix : w.radix.Sound pageSize w.locks
  known : ∀ h ∈ w.handles, ∃ c, w.radix.namespaces.lookup h.salt = some c ∧
    h.node < c.tree.nodes.length

theorem nodesUnder_locksAfter (hsalt : op.salt = some salt) (hne : other ≠ salt) :
    nodesUnder other (w.locksAfter op) = nodesUnder other w.locks := by
  cases op with
  | lock handle =>
    cases hsalt
    exact nodesUnder_cons_ne hne
  | unlock handle =>
    cases hsalt
    exact nodesUnder_erase_ne hne
  | _ => rfl

theorem mem_locksAfter {l : Handle} (hsalt : op.salt = some salt) (h : l ∈ w.locksAfter op) :
    l ∈ w.locks ∨ l.salt = salt := by
  cases op with
  | lock handle =>
    cases hsalt
    rcases List.mem_cons.mp h with rfl | h
    · exact .inr rfl
    · exact .inl h
  | unlock handle => exact .inl (List.mem_of_mem_erase h)
  | _ => exact .inl h

/-- Given an eviction, every tree keeps its names. -/
theorem Sound.persists_evict {freed : List ℕ} (h : w.Sound pageSize)
    (ht : w.radix.Turns t freed) (hl : w.radix.namespaces.lookup salt = some c) :
    ∃ c', t.namespaces.lookup salt = some c' ∧ Persists c.tree c'.tree := by
  obtain ⟨c', taken, hc', hp⟩ := ht.pruned h.radix hl
  exact ⟨c', hc', hp.persists (h.radix.balanced salt c hl).1.wellFormed⟩

theorem Sound.step_radix (h : w.Sound pageSize) (ha : w.Admits op)
    (hr : w.radix.run op = some (t, ans)) :
    t.Sound pageSize (w.locksAfter op) ∧
      (∀ salt c, w.radix.namespaces.lookup salt = some c →
        ∃ c', t.namespaces.lookup salt = some c' ∧ Persists c.tree c'.tree) ∧
      ∀ h ∈ ans.handles, op.salt = some h.salt ∧
        ∃ c, t.namespaces.lookup h.salt = some c ∧ c.tree.Linked h.node := by
  cases hsalt : op.salt with
  | none =>
    cases op with
    | evict size =>
      obtain ⟨⟨s', freed⟩, he, heq⟩ := Option.map_eq_some_iff.mp hr
      cases heq
      obtain ⟨s', freed, he', ht, _⟩ := SaltedRadix.evict_spec size h.radix
      rw [he] at he'
      cases he'
      exact ⟨ht.sound h.radix, fun _ _ hl => h.persists_evict ht hl, by simp [SaltedAns.handles]⟩
    | _ => cases hsalt
  | some salt =>
    cases SaltedRadix.run_served hr hsalt with
    | unused hop _ =>
      subst hop
      exact ⟨h.radix, fun _ c hl => ⟨c, hl, .refl⟩, by simp [SaltedAns.handles]⟩
    | @tree c c' u _ _ hu hs _ ht =>
      have ho := SaltedRadix.tree_opened hu
      have hsu := SaltedRadix.tree_sound hu h.radix
      obtain ⟨hb, hp⟩ := hsu.balanced salt c ho.lookup
      have hk := serve_kept hb ha hsalt
        (fun d hd => Option.some.inj ((ho.known salt d hd).symm.trans ho.lookup)) hs
      have hlt : t.namespaces.lookup salt = some c' := by
        rcases ht with ⟨rfl, rfl⟩ | rfl
        · exact ho.lookup
        · exact SaltedRadix.lookup_setTree_self
      have hframe : ∀ other, other ≠ salt →
          t.namespaces.lookup other = u.namespaces.lookup other := by
        rcases ht with ⟨rfl, rfl⟩ | rfl
        · exact fun _ _ => rfl
        · exact fun _ => SaltedRadix.lookup_setTree_ne
      have hside : t.pageSize = u.pageSize ∧ t.order = u.order ∧
          t.evictCursor = u.evictCursor := by
        rcases ht with ⟨rfl, rfl⟩ | rfl <;> exact ⟨rfl, rfl, rfl⟩
      refine ⟨hsu.update ho.lookup hlt hframe hside hk.balanced (hk.pageSize.trans hp)
        (fun _ hne => nodesUnder_locksAfter hsalt hne) fun _ => mem_locksAfter hsalt, ?_, ?_⟩
      · intro other d hd
        have hud := ho.known other d hd
        by_cases hne : other = salt
        · subst hne
          rw [ho.lookup] at hud
          cases hud
          exact ⟨c', hlt, hk.persists⟩
        · exact ⟨d, (hframe other hne).trans hud, .refl⟩
      · intro l hl
        obtain ⟨rfl, hlink⟩ := hk.handles l hl
        exact ⟨rfl, c', hlt, hlink⟩

/-- One operation keeps the invariant. -/
theorem Sound.step (h : w.Sound pageSize) (ha : w.Admits op)
    (hr : w.radix.run op = some (t, ans)) : (w.next op t ans).Sound pageSize := by
  obtain ⟨hs, hpersist, hhandles⟩ := h.step_radix ha hr
  refine ⟨hs, fun l hl => ?_⟩
  rcases List.mem_append.mp hl with hl | hl
  · obtain ⟨_, c, hc, hlink⟩ := hhandles l hl
    exact ⟨c, hc, (hs.balanced _ c hc).1.wellFormed.linked_lt hlink⟩
  · obtain ⟨c, hc, hlt⟩ := h.known l hl
    obtain ⟨c', hc', hp⟩ := hpersist _ c hc
    exact ⟨c', hc', hlt.trans_le hp.length_le⟩

end SaltedWorld

section Runs

variable {pageSize : ℕ} {w w₀ : SaltedWorld} {evs evs₀ : List (SaltedOp × SaltedAns)}

theorem saltedRun_sound (h : SaltedRun pageSize evs w) : w.Sound pageSize := by
  induction h with
  | nil =>
    refine ⟨⟨rfl, List.nodup_nil, ?_, ?_, by simp, Nat.two_pow_pos 64⟩, by simp⟩
    · simp [SaltedRadix.new]
    · rintro salt c hl
      cases hl
  | snoc _ ha hr ih => exact ih.step ha hr

/-- A run is determined by its events. -/
theorem saltedRun_unique (h : SaltedRun pageSize evs w) (h₀ : SaltedRun pageSize evs w₀) :
    w₀ = w := by
  induction h generalizing w₀ with
  | nil =>
    generalize he : ([] : List (SaltedOp × SaltedAns)) = l at h₀
    cases h₀ with
    | nil => rfl
    | snoc _ _ _ => simp at he
  | @snoc evs w op s ans _ _ hr ih =>
    generalize he : evs ++ [(op, ans)] = l at h₀
    cases h₀ with
    | nil => simp at he
    | snoc h' _ hr' =>
      obtain ⟨rfl, hlast⟩ := List.append_inj' he rfl
      cases hlast
      cases ih h'
      rw [hr] at hr'
      cases hr'
      rfl

/-- Between two states of a run, every tree keeps its names. -/
theorem saltedRun_persists (h : SaltedRun pageSize evs w) (h₀ : SaltedRun pageSize evs₀ w₀)
    (hpre : evs₀ <+: evs) {salt : Option ℕ} {c₀ : RadixCache}
    (hl : w₀.radix.namespaces.lookup salt = some c₀) :
    ∃ c, w.radix.namespaces.lookup salt = some c ∧ Persists c₀.tree c.tree := by
  induction h with
  | nil =>
    cases List.prefix_nil.mp hpre
    cases saltedRun_unique .nil h₀
    cases hl
  | @snoc evs w op s ans h ha hr ih =>
    rcases List.prefix_concat_iff.mp hpre with rfl | hpre
    · cases saltedRun_unique (.snoc h ha hr) h₀
      exact ⟨c₀, hl, .refl⟩
    · obtain ⟨c, hc, hp⟩ := ih hpre
      obtain ⟨c', hc', hp'⟩ := ((saltedRun_sound h).step_radix ha hr).2.1 salt c hc
      exact ⟨c', hc', hp.trans hp'⟩

end Runs

end Frink.Radix
