import Frink.Radix.Conservation
import Frink.Radix.Namespaces

/-! # A namespace as if it were alone

The run that keeps the operations of one salt, and an eviction of one node for each turn the
round robin gave it, ends with the same tree, so every lookup under the salt answers what it
answers there. An eviction frees what is asked as long as no pass skips a namespace; the
cursor of the round robin wraps at a power of two, and a pass over the wrap may.
-/

namespace Frink.Radix
open Forest RadixTree

variable {pageSize : ℕ} {w w' : SaltedWorld} {evs evs' : List (SaltedOp × SaltedAns)}
  {salt other : Option ℕ} {s t m : SaltedRadix} {op : SaltedOp} {ans : SaltedAns}
  {c c' : RadixCache} {freed got : List ℕ}

/-- The operations of a run made under a salt, with their answers. -/
def eventsUnder (salt : Option ℕ) (evs : List (SaltedOp × SaltedAns)) :
    List (SaltedOp × SaltedAns) :=
  evs.filter fun e => e.1.salt = some salt

/-- Nothing but operations under the salt, and evictions of one node. -/
def OnlyUnder (salt : Option ℕ) (evs : List (SaltedOp × SaltedAns)) : Prop :=
  ∀ e ∈ evs, e.1.salt = some salt ∨ e.1 = .evict 1

/-- A world with the tree, the handles and the locks of one namespace, and no other. -/
structure Mirrors (salt : Option ℕ) (w w' : SaltedWorld) : Prop where

  same : w'.radix.namespaces.lookup salt = w.radix.namespaces.lookup salt
  alone : ∀ other, other ≠ salt → w'.radix.namespaces.lookup other = none
  handles : w'.handles = w.handles.filter fun h => h.salt = salt
  locks : w'.locks = w.locks.filter fun h => h.salt = salt

namespace SaltedRadix

/-- With one namespace, an eviction of one node is a turn of that namespace. -/
theorem evict_alone {locks : List Handle} (h : m.Sound pageSize locks)
    (hl : m.namespaces.lookup salt = some c)
    (halone : ∀ other, other ≠ salt → m.namespaces.lookup other = none)
    (hpos : 0 < c.evictableSize) (he : c.evict 1 = some (c', got)) (hgot : 0 < got.length) :
    ∃ m', m.evict 1 = some (m', got) ∧ m'.namespaces.lookup salt = some c' ∧
      ∀ other, other ≠ salt → m'.namespaces.lookup other = none := by
  have horder : m.order = [salt] := by
    have hmem : ∀ other, other ∈ m.order ↔ other = salt := by
      intro other
      rw [h.mem_order, ← AList.lookup_isSome]
      constructor
      · intro hs
        by_contra hne
        rw [halone other hne] at hs
        cases hs
      · rintro rfl
        simp [hl]
    exact List.perm_singleton.mp ((List.perm_ext_iff_of_nodup h.nodup
      (List.nodup_singleton salt)).mpr fun x => by rw [hmem, List.mem_singleton])
  have hpass : evictPass 1 1 m [] false = some (({ m with
      evictCursor := (m.evictCursor + 1) % 2 ^ 64 } : SaltedRadix).setTree salt c', got, true) := by
    have hle : 1 ≤ got.length := hgot
    simp only [evictPass, horder, List.length_singleton, Nat.mod_one, List.getElem?_cons_zero,
      Option.bind_eq_bind, Option.bind_some, hl, hpos.ne', if_false, he, List.nil_append, hle,
      if_true]
  refine ⟨({ m with evictCursor := (m.evictCursor + 1) % 2 ^ 64 } : SaltedRadix).setTree salt c',
    ?_, lookup_setTree_self, fun other hne => (lookup_setTree_ne hne).trans (halone other hne)⟩
  have hle : 1 ≤ got.length := hgot
  have hne : (decide (1 = 0) || m.order.isEmpty) = false := by simp [horder]
  have hlen : m.order.length = 1 := by rw [horder, List.length_singleton]
  unfold evict
  rw [hne]
  simp only [Bool.false_eq_true, if_false, evictLoop, hlen, hpass, Option.bind_eq_bind,
    Option.bind_some, hle, decide_true, Bool.true_or, if_true]

/-- The turns a namespace is given are evictions of one node in the run where it is alone. -/
theorem turns_alone {locks : List Handle} (ht : s.Turns t freed) (hs : s.Sound pageSize locks)
    (hr : SaltedRun pageSize evs' w')
    (hsame : w'.radix.namespaces.lookup salt = s.namespaces.lookup salt)
    (halone : ∀ other, other ≠ salt → w'.radix.namespaces.lookup other = none) :
    ∃ more w'', SaltedRun pageSize (evs' ++ more) w'' ∧ (∀ e ∈ more, e.1 = .evict 1) ∧
      w''.radix.namespaces.lookup salt = t.namespaces.lookup salt ∧
      (∀ other, other ≠ salt → w''.radix.namespaces.lookup other = none) ∧
      w''.handles = w'.handles ∧ w''.locks = w'.locks := by
  induction ht with
  | refl => exact ⟨[], w', by simpa using hr, by simp, hsame, halone, rfl, rfl⟩
  | skip _ _ ih => exact ih
  | @take t freed got turn c c' ht hl hpos he ih =>
    obtain ⟨more, w₁, hr₁, hmore, hsame₁, halone₁, hh, hk⟩ := ih
    by_cases hturn : turn = salt
    · subst hturn
      obtain ⟨d, got', he', hgot, _⟩ := (ht.sound hs).turn hl hpos
      rw [he] at he'
      cases he'
      obtain ⟨m', hm, hlm, hom⟩ := evict_alone (saltedRun_sound hr₁).radix (hsame₁.trans hl)
        halone₁ hpos he hgot
      have hrun : w₁.radix.run (.evict 1) = some (m', .evicted got) := by
        simp [run, hm]
      refine ⟨more ++ [(.evict 1, .evicted got)], w₁.next (.evict 1) m' (.evicted got), ?_, ?_,
        hlm.trans lookup_setTree_self.symm, hom, hh, hk⟩
      · rw [← List.append_assoc]
        exact hr₁.snoc trivial hrun
      · simp only [List.mem_append, List.mem_singleton]
        rintro e (hm | rfl)
        · exact hmore e hm
        · rfl
    · refine ⟨more, w₁, hr₁, hmore, ?_, halone₁, hh, hk⟩
      rw [hsame₁, lookup_setTree_ne (Ne.symm hturn)]

end SaltedRadix

theorem eventsUnder_append (evs more : List (SaltedOp × SaltedAns)) :
    eventsUnder salt (evs ++ more) = eventsUnder salt evs ++ eventsUnder salt more :=
  List.filter_append ..

theorem eventsUnder_evictions {more : List (SaltedOp × SaltedAns)}
    (h : ∀ e ∈ more, e.1 = .evict 1) : eventsUnder salt more = [] := by
  apply List.filter_eq_nil_iff.mpr
  intro e he
  simp [h e he, SaltedOp.salt]

section Mirror

/-- What a caller may ask it may ask when it is alone. -/
theorem Mirrors.admits (h : Mirrors salt w w') (hsalt : op.salt = some salt)
    (ha : w.Admits op) : w'.Admits op := by
  cases op with
  | matchedIndices handle =>
    cases hsalt
    obtain ⟨hm, c, hc, hlink⟩ := ha
    refine ⟨?_, c, h.same.trans hc, hlink⟩
    rw [h.handles, List.mem_filter]
    exact ⟨hm, by simp⟩
  | lock handle =>
    cases hsalt
    obtain ⟨hm, c, hc, hlink⟩ := ha
    refine ⟨?_, c, h.same.trans hc, hlink⟩
    rw [h.handles, List.mem_filter]
    exact ⟨hm, by simp⟩
  | unlock handle =>
    cases hsalt
    change handle ∈ w'.locks
    rw [h.locks, List.mem_filter]
    exact ⟨ha, by simp⟩
  | evict size => cases hsalt
  | _ => exact ha

theorem filter_locksAfter_self (hsalt : op.salt = some salt)
    (hk : w'.locks = w.locks.filter fun h => h.salt = salt) :
    w'.locksAfter op = (w.locksAfter op).filter fun h => h.salt = salt := by
  cases op with
  | lock handle =>
    cases hsalt
    simp [SaltedWorld.locksAfter, hk]
  | unlock handle =>
    cases hsalt
    simp only [SaltedWorld.locksAfter, hk]
    exact List.erase_filter
  | _ => exact hk

theorem filter_locksAfter_ne (hsalt : op.salt = some other) (hne : other ≠ salt) :
    ((w.locksAfter op).filter fun h => h.salt = salt) =
      w.locks.filter fun h => h.salt = salt := by
  cases op with
  | lock handle =>
    cases hsalt
    simp [SaltedWorld.locksAfter, hne]
  | unlock handle =>
    cases hsalt
    have hnot : handle ∉ w.locks.filter fun h => h.salt = salt := by simp [hne]
    rw [SaltedWorld.locksAfter, ← List.erase_filter, List.erase_of_not_mem hnot]
  | _ => rfl

/-- The mirror follows an operation under its salt. -/
theorem Mirrors.step_self (h : Mirrors salt w w') (hw : w.Sound pageSize)
    (hw' : w'.Sound pageSize) (hsalt : op.salt = some salt) (ha : w.Admits op)
    (hr : w.radix.run op = some (t, ans)) :
    ∃ t', w'.radix.run op = some (t', ans) ∧ Mirrors salt (w.next op t ans) (w'.next op t' ans) := by
  obtain ⟨t', hr', hsame⟩ := SaltedRadix.run_agree hsalt h.same
    (hw'.radix.pageSize_eq.trans hw.radix.pageSize_eq.symm) hr
  have hframe := (SaltedRadix.run_served hr' hsalt).frame.2
  have hhandles := (hw.step_radix ha hr).2.2
  refine ⟨t', hr', hsame, fun other hne => (hframe other hne).trans (h.alone other hne), ?_,
    filter_locksAfter_self hsalt h.locks⟩
  simp only [SaltedWorld.next, List.filter_append, h.handles]
  congr 1
  symm
  apply List.filter_eq_self.mpr
  intro l hl
  have hs := (hhandles l hl).1
  rw [hsalt] at hs
  simpa using (Option.some.inj hs).symm

/-- The mirror is not moved by an operation under another salt. -/
theorem Mirrors.step_other (h : Mirrors salt w w') (hw : w.Sound pageSize)
    (hsalt : op.salt = some other) (hne : other ≠ salt) (ha : w.Admits op)
    (hr : w.radix.run op = some (t, ans)) : Mirrors salt (w.next op t ans) w' := by
  have hframe := (SaltedRadix.run_served hr hsalt).frame.2
  have hhandles := (hw.step_radix ha hr).2.2
  refine ⟨h.same.trans (hframe salt hne.symm).symm, h.alone, ?_, ?_⟩
  · simp only [SaltedWorld.next, List.filter_append, h.handles]
    have hnil : (ans.handles.filter fun h => h.salt = salt) = [] := by
      apply List.filter_eq_nil_iff.mpr
      intro l hl
      have hs := (hhandles l hl).1
      rw [hsalt] at hs
      cases hs
      simpa using hne
    rw [hnil, List.nil_append]
  · rw [h.locks]
    exact (filter_locksAfter_ne hsalt hne).symm

/-- The mirror follows an eviction, one node for each turn. -/
theorem Mirrors.step_evict {size : ℕ} (h : Mirrors salt w w') (hw : w.Sound pageSize)
    (hr' : SaltedRun pageSize evs' w') (hr : w.radix.run (.evict size) = some (t, ans)) :
    ∃ more w'', SaltedRun pageSize (evs' ++ more) w'' ∧ (∀ e ∈ more, e.1 = .evict 1) ∧
      Mirrors salt (w.next (.evict size) t ans) w'' := by
  obtain ⟨⟨s', freed⟩, he, heq⟩ := Option.map_eq_some_iff.mp hr
  cases heq
  obtain ⟨s', freed, he', ht, _⟩ := SaltedRadix.evict_spec size hw.radix
  rw [he] at he'
  cases he'
  obtain ⟨more, w'', hrun, hmore, hsame, halone, hh, hk⟩ :=
    SaltedRadix.turns_alone ht hw.radix hr' h.same h.alone
  exact ⟨more, w'', hrun, hmore, hsame, halone, hh.trans h.handles, hk.trans h.locks⟩

/-- What happens under one salt happens when nobody else asks for anything. -/
theorem run_alone (h : SaltedRun pageSize evs w) (salt : Option ℕ) :
    ∃ evs' w', SaltedRun pageSize evs' w' ∧ eventsUnder salt evs' = eventsUnder salt evs ∧
      OnlyUnder salt evs' ∧ Mirrors salt w w' := by
  induction h with
  | nil => exact ⟨[], _, .nil, rfl, nofun, rfl, fun _ _ => rfl, rfl, rfl⟩
  | @snoc evs w op s ans hrun ha hr ih =>
    obtain ⟨evs', w', hr', hevs, honly, hm⟩ := ih
    have hw := saltedRun_sound hrun
    cases hsalt : op.salt with
    | none =>
      cases op with
      | evict size =>
        obtain ⟨more, w'', hrun', hmore, hm'⟩ := hm.step_evict hw hr' hr
        refine ⟨evs' ++ more, w'', hrun', ?_, ?_, hm'⟩
        · rw [eventsUnder_append, eventsUnder_append, hevs, eventsUnder_evictions hmore]
          simp [eventsUnder, SaltedOp.salt]
        · intro e he
          rcases List.mem_append.mp he with he | he
          · exact honly e he
          · exact .inr (hmore e he)
      | _ => cases hsalt
    | some other =>
      by_cases hne : other = salt
      · subst hne
        obtain ⟨t', ht', hm'⟩ := hm.step_self hw (saltedRun_sound hr') hsalt ha hr
        refine ⟨evs' ++ [(op, ans)], _, hr'.snoc (hm.admits hsalt ha) ht', ?_, ?_, hm'⟩
        · rw [eventsUnder_append, eventsUnder_append, hevs]
        · intro e he
          rcases List.mem_append.mp he with he | he
          · exact honly e he
          · rw [List.mem_singleton.mp he]
            exact .inl hsalt
      · refine ⟨evs', w', hr', ?_, honly, hm.step_other hw hsalt hne ha hr⟩
        rw [eventsUnder_append, hevs]
        simp [eventsUnder, hsalt, hne]

end Mirror

section Secure

/-- The page indices a salted cache holds, over every namespace. -/
def SaltedRadix.stored (s : SaltedRadix) : Multiset ℕ :=
  s.total fun c => c.tree.weigh storedWeight

/-- What the salted cache owes to its callers. -/
structure SaltedWorld.Secure (pageSize : ℕ) (evs : List (SaltedOp × SaltedAns))
    (w : SaltedWorld) : Prop where

  /-- A lookup answers what it answers where there is no other salt. -/
  isolated : ∀ salt, ∃ evs' w', SaltedRun pageSize evs' w' ∧
    eventsUnder salt evs' = eventsUnder salt evs ∧ OnlyUnder salt evs' ∧
    (∀ inputIds, w.radix.cachedLen salt inputIds = w'.radix.cachedLen salt inputIds ∧
      (w.radix.matchPrefix salt inputIds).map Prod.snd =
        (w'.radix.matchPrefix salt inputIds).map Prod.snd) ∧
    ∀ node, w.radix.matchedIndices ⟨salt, node⟩ = w'.radix.matchedIndices ⟨salt, node⟩

  /-- A handle is of the salt it was asked under, and names what it named. -/
  named : (∀ e ∈ evs, ∀ h ∈ e.2.handles, e.1.salt = some h.salt) ∧
    ∀ evs₀ w₀, SaltedRun pageSize evs₀ w₀ → evs₀ <+: evs → ∀ h ∈ w₀.handles, w.Alive h →
      ∃ pages, w.radix.matchedIndices h = some pages ∧ w₀.radix.matchedIndices h = some pages

  /-- An eviction returns and takes nothing a lock holds; it frees what is asked, or all there
  is, when every pass gives every namespace a turn. -/
  evicts : ∀ size, ∃ s freed, w.radix.evict size = some (s, freed) ∧
    ((∀ k < size, w.radix.EveryTurn k) → min size w.radix.evictableSize ≤ freed.length) ∧
    s.evictableSize + freed.length = w.radix.evictableSize ∧
    s.protectedSize = w.radix.protectedSize ∧ s.stored + freed = w.radix.stored ∧
    ∀ l ∈ w.locks, ∃ pages, w.radix.matchedIndices l = some pages ∧
      s.matchedIndices l = some pages ∧ (w.radix.stored.Nodup → pages.Disjoint freed)

  /-- The reported sums are the sums over the nodes of every namespace. -/
  sums : w.radix.evictableSize = w.radix.total (fun c => c.tree.weigh evictableWeight) ∧
    w.radix.protectedSize = w.radix.total fun c => c.tree.weigh protectedWeight

theorem SaltedRadix.tree_fst (s : SaltedRadix) (salt : Option ℕ) :
    (s.tree salt).map Prod.fst = (s.namespaces.lookup salt).or (RadixCache.new s.pageSize) := by
  unfold tree
  cases s.namespaces.lookup salt with
  | some c => rfl
  | none => cases RadixCache.new s.pageSize <;> rfl

theorem SaltedRadix.matchedIndices_eq (s : SaltedRadix) (h : Handle) :
    s.matchedIndices h = ((s.tree h.salt).map Prod.fst).bind fun c => c.matchedIndices h.node := by
  unfold matchedIndices
  cases s.tree h.salt <;> rfl

theorem SaltedRadix.matchPrefix_snd (s : SaltedRadix) (salt : Option ℕ) (ids : List ℕ) :
    (s.matchPrefix salt ids).map Prod.snd = ((s.tree salt).map Prod.fst).bind fun c =>
      (c.matchPrefix ids).map fun r => ⟨r.2.cachedLen, salt, r.2.node⟩ := by
  unfold matchPrefix
  cases s.tree salt with
  | none => rfl
  | some r =>
    simp only [Option.bind_eq_bind, Option.bind_some, Option.map_some]
    cases r.1.matchPrefix ids <;> rfl

theorem SaltedRadix.matchedIndices_of_lookup {h : Handle}
    (hl : s.namespaces.lookup h.salt = some c) : s.matchedIndices h = c.matchedIndices h.node := by
  rw [matchedIndices_eq, tree_fst, hl]
  rfl

/-- Lookups under a salt are read off the tree of that salt. -/
theorem SaltedRadix.lookups_congr (hl : s.namespaces.lookup salt = t.namespaces.lookup salt)
    (hp : s.pageSize = t.pageSize) :
    (∀ ids, s.cachedLen salt ids = t.cachedLen salt ids ∧
      (s.matchPrefix salt ids).map Prod.snd = (t.matchPrefix salt ids).map Prod.snd) ∧
    ∀ node, s.matchedIndices ⟨salt, node⟩ = t.matchedIndices ⟨salt, node⟩ := by
  have htree : (s.tree salt).map Prod.fst = (t.tree salt).map Prod.fst := by
    rw [tree_fst, tree_fst, hl, hp]
  refine ⟨fun ids => ⟨?_, ?_⟩, fun node => ?_⟩
  · simp only [cachedLen, hl]
  · rw [matchPrefix_snd, matchPrefix_snd, htree]
  · rw [matchedIndices_eq, matchedIndices_eq, htree]

theorem run_handles (h : SaltedRun pageSize evs w) :
    ∀ e ∈ evs, ∀ h ∈ e.2.handles, e.1.salt = some h.salt := by
  induction h with
  | nil => nofun
  | snoc hrun ha hr ih =>
    intro e he
    rcases List.mem_append.mp he with he | he
    · exact ih e he
    · rw [List.mem_singleton.mp he]
      intro l hl
      exact (((saltedRun_sound hrun).step_radix ha hr).2.2 l hl).1

/-- A handle whose node was not evicted names the pages it named. -/
theorem run_names {evs₀ : List (SaltedOp × SaltedAns)} {w₀ : SaltedWorld}
    (h : SaltedRun pageSize evs w) (h₀ : SaltedRun pageSize evs₀ w₀) (hpre : evs₀ <+: evs)
    {l : Handle} (hl : l ∈ w₀.handles) (halive : w.Alive l) :
    ∃ pages, w.radix.matchedIndices l = some pages ∧ w₀.radix.matchedIndices l = some pages := by
  obtain ⟨c₀, hc₀, hlt⟩ := (saltedRun_sound h₀).known l hl
  obtain ⟨c, hc, hp⟩ := saltedRun_persists h h₀ hpre hc₀
  obtain ⟨d, hd, hlink⟩ := halive
  rw [hc] at hd
  cases hd
  have hw := ((saltedRun_sound h).radix.balanced _ c hc).1.wellFormed
  have hw₀ := ((saltedRun_sound h₀).radix.balanced _ c₀ hc₀).1.wellFormed
  obtain ⟨ch, hch⟩ := hw.chain hlink
  have hpages := hw.pathValue_spec hch.spells
  refine ⟨_, (SaltedRadix.matchedIndices_of_lookup hc).trans hpages, ?_⟩
  rw [SaltedRadix.matchedIndices_of_lookup hc₀]
  exact hw₀.pathValue_spec (hp.spells _ hlt _ hch.spells)

/-- A page on a locked path is on that path after the turns, and was not freed. -/
theorem turns_keep_locked {locks : List Handle} {l : Handle} (hs : s.Sound pageSize locks)
    (ht : s.Turns t freed) (hl : l ∈ locks) :
    ∃ pages, s.matchedIndices l = some pages ∧ t.matchedIndices l = some pages ∧
      (s.stored.Nodup → pages.Disjoint freed) := by
  obtain ⟨c, hc⟩ : ∃ c, s.namespaces.lookup l.salt = some c := by
    apply Option.isSome_iff_exists.mp
    rw [AList.lookup_isSome]
    exact (hs.mem_order _).mp (hs.locked l hl)
  obtain ⟨c', taken, hc', hp⟩ := ht.pruned hs hc
  have hb := (hs.balanced _ c hc).1
  have hw' := hp.wellFormed hb.wellFormed
  have hm : l.node ∈ nodesUnder l.salt locks := mem_nodesUnder.mpr hl
  obtain ⟨ch, hch⟩ := hb.wellFormed.chain (hb.counted.linked _ hm)
  have hsp := hp.spells hb.counted hm hch.spells
  refine ⟨_, (SaltedRadix.matchedIndices_of_lookup hc).trans
    (hb.wellFormed.pathValue_spec hch.spells), ?_, fun hnd x hx hxf => ?_⟩
  · rw [SaltedRadix.matchedIndices_of_lookup hc']
    exact hw'.pathValue_spec hsp
  · have hbooks := (ht.books hs).2.2
    have hstored : x ∈ t.stored := SaltedRadix.mem_total hc' (mem_stored_of_spells hw' hsp hx)
    unfold SaltedRadix.stored at hnd hstored
    rw [← hbooks] at hnd
    exact Multiset.disjoint_left.mp (Multiset.nodup_add.mp hnd).2.2 hstored hxf

/-- Every run of the salted cache keeps its callers apart and its books right. -/
theorem salted_secure (h : SaltedRun pageSize evs w) : w.Secure pageSize evs where
  isolated salt := by
    obtain ⟨evs', w', hr', hevs, honly, hm⟩ := run_alone h salt
    exact ⟨evs', w', hr', hevs, honly, SaltedRadix.lookups_congr hm.same.symm
      ((saltedRun_sound h).radix.pageSize_eq.trans (saltedRun_sound hr').radix.pageSize_eq.symm)⟩
  named := ⟨run_handles h, fun _ _ h₀ hpre _ hl halive => run_names h h₀ hpre hl halive⟩
  evicts size := by
    have hs := (saltedRun_sound h).radix
    obtain ⟨s, freed, he, ht, hsize⟩ := SaltedRadix.evict_spec size hs
    obtain ⟨hev, hpr, hst⟩ := ht.books hs
    exact ⟨s, freed, he, hsize, hev, hpr, hst, fun l hl => turns_keep_locked hs ht hl⟩
  sums := by
    have hs := (saltedRun_sound h).radix
    constructor
    · exact SaltedRadix.total_congr fun salt c hl => (hs.balanced salt c hl).1.tallied.evictable
    · exact SaltedRadix.total_congr fun salt c hl => (hs.balanced salt c hl).1.tallied.protected_eq

/-- Two callers, one of whom holds a lock while the other's prefix is evicted. -/
theorem salted_secure_pages : ∃ w : SaltedWorld, w.locks = [⟨some 1, 1⟩] ∧
    w.Secure 2 [(.insertPrefix (some 1) [1, 2] [10, 11], .inserted ⟨0, 2, some 1, 1⟩),
      (.insertPrefix (some 2) [1, 2] [12, 13], .inserted ⟨0, 2, some 2, 1⟩),
      (.lock ⟨some 1, 1⟩, .done), (.evict 2, .evicted [12, 13])] := by
  have h₁ := (@SaltedRun.nil 2).snoc
    (show SaltedWorld.Admits _ (.insertPrefix (some 1) [1, 2] [10, 11]) from rfl) rfl
  have h₂ := h₁.snoc (show SaltedWorld.Admits _ (.insertPrefix (some 2) [1, 2] [12, 13]) from rfl) rfl
  have h₃ := h₂.snoc (show SaltedWorld.Admits _ (.lock ⟨some 1, 1⟩) from
    ⟨by decide, _, rfl, by decide⟩) rfl
  have h₄ := h₃.snoc (show SaltedWorld.Admits _ (.evict 2) from trivial) rfl
  exact ⟨_, rfl, salted_secure h₄⟩

end Secure

section Wrap

/-- A pass over namespaces that have nothing to give moves the cursor and nothing else. -/
theorem evictPass_idle {size n : ℕ} (hne : s.order ≠ []) (hcur : s.evictCursor < 2 ^ 64)
    (hidle : ∀ salt ∈ s.order, ∃ c, s.namespaces.lookup salt = some c ∧ c.evictableSize = 0) :
    SaltedRadix.evictPass size n s freed false =
      some ({ s with evictCursor := (s.evictCursor + n) % 2 ^ 64 }, freed, false) := by
  induction n generalizing s with
  | zero =>
    rw [Nat.add_zero, Nat.mod_eq_of_lt hcur]
    rfl
  | succ n ih =>
    have hlt : s.evictCursor % s.order.length < s.order.length :=
      Nat.mod_lt _ (List.length_pos_of_ne_nil hne)
    obtain ⟨c, hl, hz⟩ := hidle _ (List.getElem_mem hlt)
    have hnext := @ih { s with evictCursor := (s.evictCursor + 1) % 2 ^ 64 } hne
      (Nat.mod_lt _ (Nat.two_pow_pos 64)) hidle
    simp only [SaltedRadix.evictPass, List.getElem?_eq_getElem hlt, Option.bind_eq_bind,
      Option.bind_some, hl, hz, if_true, hnext, Nat.mod_add_mod]
    rw [Nat.add_assoc, Nat.add_comm 1 n]

/-- Evictions with nothing to evict, which only turn the cursor. -/
theorem run_idle (h : SaltedRun pageSize evs w) (hne : w.radix.order ≠ [])
    (hidle : ∀ salt ∈ w.radix.order, ∃ c, w.radix.namespaces.lookup salt = some c ∧
      c.evictableSize = 0) (k : ℕ) :
    SaltedRun pageSize (evs ++ List.replicate k (.evict 1, .evicted []))
      { w with radix := { w.radix with
          evictCursor := (w.radix.evictCursor + k * w.radix.order.length) % 2 ^ 64 } } := by
  have hcur := (saltedRun_sound h).radix.cursor_lt
  induction k with
  | zero =>
    rw [Nat.zero_mul, Nat.add_zero, Nat.mod_eq_of_lt hcur, List.replicate_zero, List.append_nil]
    exact h
  | succ k ih =>
    rw [List.replicate_succ', ← List.append_assoc]
    have hpass := @evictPass_idle { w.radix with
      evictCursor := (w.radix.evictCursor + k * w.radix.order.length) % 2 ^ 64 } [] 1
      w.radix.order.length hne (Nat.mod_lt _ (Nat.two_pow_pos 64)) hidle
    have hempty : (decide (1 = 0) || w.radix.order.isEmpty) = false := by simp [hne]
    have hrun := @SaltedRun.snoc _ _ _ (.evict 1) { w.radix with
      evictCursor := (w.radix.evictCursor + (k + 1) * w.radix.order.length) % 2 ^ 64 }
      (.evicted []) ih trivial (by
        simp only [SaltedRadix.run, SaltedRadix.evict, hempty, Bool.false_eq_true, if_false,
          SaltedRadix.evictLoop, hpass, Option.bind_eq_bind, Option.bind_some, List.length_nil,
          Nat.mod_add_mod, Nat.succ_mul, Nat.add_assoc]
        simp)
    exact hrun

/-- Three namespaces do not divide the range of the cursor. After enough evictions that had
nothing to take, the next pass crosses the wrap: it visits the first namespace twice and the
third, which holds four tokens, not at all, and frees nothing. -/
theorem wrapped_pass_frees_nothing : ∃ evs w s, SaltedRun 4 evs w ∧
    w.radix.evictableSize = 4 ∧ w.radix.evict 4 = some (s, []) := by
  have h₁ := (@SaltedRun.nil 4).snoc
    (show SaltedWorld.Admits _ (.matchPrefix (some 0) []) from trivial) rfl
  have h₂ := h₁.snoc (show SaltedWorld.Admits _ (.matchPrefix (some 1) []) from trivial) rfl
  have h₃ := h₂.snoc (show SaltedWorld.Admits _ (.matchPrefix (some 2) []) from trivial) rfl
  have hidle : ∀ salt ∈ [some 0, some 1, some 2], salt = some 0 ∨ salt = some 1 ∨ salt = some 2 := by
    simp
  have h₄ := run_idle h₃ (by decide) (fun salt hm => by
    rcases hidle salt hm with rfl | rfl | rfl <;> exact ⟨_, rfl, rfl⟩) 6148914691236517205
  have h₅ := h₄.snoc (show SaltedWorld.Admits _
    (.insertPrefix (some 2) [0, 1, 2, 3] [7, 7, 7, 7]) from rfl) rfl
  exact ⟨_, _, _, h₅, rfl, rfl⟩

end Wrap

end Frink.Radix
