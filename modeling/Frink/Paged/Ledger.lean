import Mathlib
import Frink.Paged.Store

/-! # The store's ledger

A group has blocks exactly while it has holders, and every block of a layer is free or
belongs to exactly one group. Each operation of the store is described by what it does to
the counts and to the blocks.
-/

namespace Frink.Paged

namespace GroupTable

variable {t t' : GroupTable} {width g : ℕ} {bs : List ℕ}

structure Sound (t : GroupTable) (width : ℕ) : Prop where
  length_eq : t.blocks.length = t.refs.length
  live_iff : ∀ g, (t.blocksOf g).isSome ↔ 0 < t.refsOf g
  width_eq : ∀ g bs, t.blocksOf g = some bs → bs.length = width
  mem_free_iff : ∀ g, g ∈ t.freeIds ↔ g < t.refs.length ∧ t.refsOf g = 0
  free_nodup : t.freeIds.Nodup

theorem lt_of_live (h : 0 < t.refsOf g) : g < t.refs.length := by
  rcases lt_or_ge g t.refs.length with hlt | hge
  · exact hlt
  · rw [refsOf, List.getD_eq_default _ _ hge] at h
    exact absurd h (lt_irrefl 0)

theorem getD_set_eq_update {α : Type*} (xs : List α) (d x : α) {i : ℕ} (h : i < xs.length) :
    (fun j => (xs.set i x).getD j d) = Function.update (fun j => xs.getD j d) i x := by
  ext j
  rcases eq_or_ne j i with rfl | hj
  · rw [Function.update_self, List.getD_eq_getElem?_getD, List.getElem?_set_self h]
    rfl
  · rw [Function.update_of_ne hj, List.getD_eq_getElem?_getD, List.getElem?_set_ne hj.symm,
      List.getD_eq_getElem?_getD]

theorem getD_concat_eq_update {α : Type*} (xs : List α) (d x : α) :
    (fun j => (xs ++ [x]).getD j d) = Function.update (fun j => xs.getD j d) xs.length x := by
  ext j
  rcases lt_trichotomy j xs.length with hj | rfl | hj
  · rw [Function.update_of_ne (Nat.ne_of_lt hj), List.getD_append _ _ _ _ hj]
  · rw [Function.update_self, List.getD_append_right _ _ _ _ le_rfl, Nat.sub_self]
    rfl
  · rw [Function.update_of_ne (Nat.ne_of_gt hj), List.getD_eq_default _ _ (Nat.le_of_lt hj),
      List.getD_eq_default _ _ (by rw [List.length_append]; exact hj)]

/-- An insert hands out an id without holders, gives it the blocks and one holder. -/
theorem insert_spec (h : t.Sound width) (hbs : bs.length = width) :
    t.refsOf (t.insert bs).1 = 0 ∧
      (t.insert bs).2.refsOf = Function.update t.refsOf (t.insert bs).1 1 ∧
      (t.insert bs).2.blocksOf = Function.update t.blocksOf (t.insert bs).1 (some bs) ∧
      (t.insert bs).2.Sound width := by
  have hlive : ∀ (t' : GroupTable) {id : ℕ}, t'.refsOf = Function.update t.refsOf id 1 →
      t'.blocksOf = Function.update t.blocksOf id (some bs) →
      (∀ g, (t'.blocksOf g).isSome ↔ 0 < t'.refsOf g) ∧
        ∀ g cs, t'.blocksOf g = some cs → cs.length = width := by
    intro t' id hr hb
    constructor
    · intro g
      rcases eq_or_ne g id with rfl | hg
      · simp [hr, hb]
      · rw [hr, hb, Function.update_of_ne hg, Function.update_of_ne hg]
        exact h.live_iff g
    · intro g cs hcs
      rw [hb] at hcs
      rcases eq_or_ne g id with rfl | hg
      · rw [Function.update_self, Option.some.injEq] at hcs
        rw [← hcs, hbs]
      · rw [Function.update_of_ne hg] at hcs
        exact h.width_eq g cs hcs
  unfold insert
  split
  · rename_i id rest hf
    obtain ⟨hlt, hz⟩ := (h.mem_free_iff id).mp (by rw [hf]; exact List.mem_cons_self)
    have hr := getD_set_eq_update t.refs 0 1 hlt
    have hb := getD_set_eq_update t.blocks none (some bs) (h.length_eq ▸ hlt)
    obtain ⟨hl, hw⟩ := hlive ⟨t.blocks.set id (some bs), t.refs.set id 1, rest⟩ hr hb
    have hn := h.free_nodup
    rw [hf, List.nodup_cons] at hn
    refine ⟨hz, hr, hb, ?_, hl, hw, fun g => ?_, hn.2⟩
    · rw [List.length_set, List.length_set, h.length_eq]
    · rw [List.length_set]
      rcases eq_or_ne g id with rfl | hg
      · refine ⟨fun hm => absurd hm hn.1, fun hm => ?_⟩
        have h1 := hm.2
        rw [refsOf, congrFun hr g, Function.update_self] at h1
        cases h1
      · have hm := h.mem_free_iff g
        rw [hf, List.mem_cons, or_iff_right hg] at hm
        rw [hm, refsOf, refsOf, congrFun hr g, Function.update_of_ne hg]
  · rename_i hf
    have hb := getD_concat_eq_update t.blocks none (some bs)
    have hr := getD_concat_eq_update t.refs 0 1
    rw [← h.length_eq] at hr
    obtain ⟨hl, hw⟩ := hlive ⟨t.blocks ++ [some bs], t.refs ++ [1], []⟩ hr hb
    refine ⟨?_, hr, hb, ?_, hl, hw, fun g => ?_, List.nodup_nil⟩
    · exact List.getD_eq_default _ _ (le_of_eq h.length_eq.symm)
    · rw [List.length_append, List.length_append, h.length_eq]
      rfl
    · refine ⟨fun hm => absurd hm List.not_mem_nil, fun ⟨hlt, hz⟩ => ?_⟩
      rw [List.length_append, List.length_singleton, ← h.length_eq] at hlt
      rw [refsOf, congrFun hr g] at hz
      rcases eq_or_ne g t.blocks.length with rfl | hg
      · rw [Function.update_self] at hz
        cases hz
      · rw [Function.update_of_ne hg] at hz
        have hm := (h.mem_free_iff g).mpr ⟨by have := h.length_eq; omega, hz⟩
        rwa [hf] at hm

/-- Counts may change as long as no group gains its first or loses its last holder. -/
theorem Sound.recount {refs : List ℕ} (h : t.Sound width) (hlen : refs.length = t.refs.length)
    (hpos : ∀ i, 0 < refs.getD i 0 ↔ 0 < t.refsOf i) :
    ({ t with refs := refs } : GroupTable).Sound width where
  length_eq := h.length_eq.trans hlen.symm
  live_iff i := (h.live_iff i).trans (hpos i).symm
  width_eq := h.width_eq
  mem_free_iff i := by
    have hi := hpos i
    rw [hlen]
    refine (h.mem_free_iff i).trans (and_congr_right' ?_)
    change t.refsOf i = 0 ↔ refs.getD i 0 = 0
    omega
  free_nodup := h.free_nodup

theorem pos_update_iff {f : ℕ → ℕ} {n : ℕ} (hg : 0 < f g) (hn : 0 < n) (i : ℕ) :
    0 < Function.update f g n i ↔ 0 < f i := by
  rcases eq_or_ne i g with rfl | hi
  · rw [Function.update_self]
    exact iff_of_true hn hg
  · rw [Function.update_of_ne hi]

theorem retain_spec (h : t.Sound width) (hg : 0 < t.refsOf g) :
    ∃ t', t.retain g = some t' ∧ t'.refsOf = Function.update t.refsOf g (t.refsOf g + 1) ∧
      t'.blocks = t.blocks ∧ t'.Sound width := by
  have hr := getD_set_eq_update t.refs 0 (t.refsOf g + 1) (lt_of_live hg)
  refine ⟨_, if_pos hg, hr, rfl, h.recount (List.length_set ..) fun i => ?_⟩
  rw [congrFun hr i]
  exact pos_update_iff hg (Nat.succ_pos _) i

theorem release_spec (h : t.Sound width) (hg : 0 < t.refsOf g) :
    ∃ freed t', t.release g = some (freed, t') ∧
      t'.refsOf = Function.update t.refsOf g (t.refsOf g - 1) ∧ t'.Sound width ∧
      (freed = none ∧ 1 < t.refsOf g ∧ t'.blocks = t.blocks ∨
        ∃ bs, freed = some bs ∧ t.refsOf g = 1 ∧ t.blocksOf g = some bs ∧
          t'.blocks = t.blocks.set g none) := by
  have hlt := lt_of_live hg
  have hr := getD_set_eq_update t.refs 0 (t.refsOf g - 1) hlt
  unfold release
  rw [if_pos hg]
  dsimp only
  by_cases hlast : 0 < t.refsOf g - 1
  · rw [if_pos hlast]
    refine ⟨_, _, rfl, hr, h.recount (List.length_set ..) fun i => ?_, .inl ⟨rfl, by omega, rfl⟩⟩
    rw [congrFun hr i]
    exact pos_update_iff hg hlast i
  · rw [if_neg hlast]
    obtain ⟨bs, hbs⟩ := Option.isSome_iff_exists.mp ((h.live_iff g).mpr hg)
    have hb := getD_set_eq_update t.blocks none none (h.length_eq ▸ hlt)
    have hone : t.refsOf g = 1 := by omega
    have hR : (⟨t.blocks.set g none, t.refs.set g (t.refsOf g - 1), g :: t.freeIds⟩ :
      GroupTable).refsOf = Function.update t.refsOf g (t.refsOf g - 1) := hr
    have hB : (⟨t.blocks.set g none, t.refs.set g (t.refsOf g - 1), g :: t.freeIds⟩ :
      GroupTable).blocksOf = Function.update t.blocksOf g none := hb
    rw [hbs]
    refine ⟨_, _, rfl, hR, ⟨?_, fun i => ?_, fun i cs hcs => ?_, fun i => ?_, ?_⟩,
      .inr ⟨bs, rfl, hone, rfl, rfl⟩⟩
    · rw [List.length_set, List.length_set, h.length_eq]
    · rw [hR, hB]
      rcases eq_or_ne i g with rfl | hi
      · simp [hone]
      · rw [Function.update_of_ne hi, Function.update_of_ne hi]
        exact h.live_iff i
    · rw [hB] at hcs
      rcases eq_or_ne i g with rfl | hi
      · rw [Function.update_self] at hcs
        cases hcs
      · rw [Function.update_of_ne hi] at hcs
        exact h.width_eq i cs hcs
    · rw [hR, List.length_set, List.mem_cons]
      rcases eq_or_ne i g with rfl | hi
      · simp [hone, hlt]
      · rw [Function.update_of_ne hi, or_iff_right hi]
        exact h.mem_free_iff i
    · rw [List.nodup_cons]
      refine ⟨fun hm => ?_, h.free_nodup⟩
      have := ((h.mem_free_iff g).mp hm).2
      omega

/-- The blocks of one layer that belong to groups. -/
def owned (blocks : List (Option (List ℕ))) (layer : ℕ) : List ℕ :=
  blocks.filterMap fun b => b.bind fun bs => bs[layer]?

theorem owned_set_some {blocks : List (Option (List ℕ))} {layer x : ℕ} (hg : g < blocks.length)
    (hn : blocks.getD g none = none) (hx : bs[layer]? = some x) :
    (owned (blocks.set g (some bs)) layer).Perm (x :: owned blocks layer) := by
  have hnew := (List.set_perm_cons_eraseIdx hg (some bs)).filterMap fun b => b.bind (·[layer]?)
  have hold := (List.getElem_cons_eraseIdx_perm hg).filterMap fun b => b.bind (·[layer]?)
  rw [List.getD_eq_getElem _ _ hg] at hn
  rw [hn, List.filterMap_cons_none rfl] at hold
  rw [List.filterMap_cons_some (by exact hx)] at hnew
  exact hnew.trans (hold.cons x)

theorem owned_set_none {blocks : List (Option (List ℕ))} {layer x : ℕ} (hg : g < blocks.length)
    (hb : blocks.getD g none = some bs) (hx : bs[layer]? = some x) :
    (owned blocks layer).Perm (x :: owned (blocks.set g none) layer) := by
  have hnew := (List.set_perm_cons_eraseIdx hg none).filterMap fun b => b.bind (·[layer]?)
  have hold := (List.getElem_cons_eraseIdx_perm hg).filterMap fun b => b.bind (·[layer]?)
  rw [List.getD_eq_getElem _ _ hg] at hb
  rw [hb, List.filterMap_cons_some (by exact hx)] at hold
  rw [List.filterMap_cons_none rfl] at hnew
  exact hold.symm.trans (hnew.symm.cons x)

/-- An insert gives every layer one more owned block. -/
theorem insert_owned (h : t.Sound width) {layer x : ℕ} (hx : bs[layer]? = some x) :
    (owned (t.insert bs).2.blocks layer).Perm (x :: owned t.blocks layer) := by
  unfold insert
  split
  · rename_i id rest hf
    obtain ⟨hlt, hz⟩ := (h.mem_free_iff id).mp (by rw [hf]; exact List.mem_cons_self)
    apply owned_set_some (h.length_eq ▸ hlt) _ hx
    have hl := h.live_iff id
    rw [hz] at hl
    exact Option.not_isSome_iff_eq_none.mp fun hs => absurd (hl.mp hs) (lt_irrefl 0)
  · dsimp only
    rw [owned, List.filterMap_append, List.filterMap_cons_some (by exact hx), List.filterMap_nil]
    exact List.perm_append_singleton _ _

end GroupTable

namespace SharedPagedKv

variable {s s' : SharedPagedKv} {blockSize total g : ℕ}

/-- Every block of a layer is free or belongs to one group. -/
structure Sound (s : SharedPagedKv) (blockSize total : ℕ) : Prop where
  groups : s.groups.Sound s.layers.length
  layers_ne : s.layers ≠ []
  block_size : ∀ l ∈ s.layers, l.blockSize = blockSize
  conserved : ∀ i l, s.layers[i]? = some l →
    (l.freeBlockIds ++ GroupTable.owned s.groups.blocks i).Perm (List.range total)

/-- The blocks of one layer that are free or belong to a group. -/
def pool (s : SharedPagedKv) (i : ℕ) : List ℕ :=
  s.layers[i]?.elim [] PagedKvStore.freeBlockIds ++ GroupTable.owned s.groups.blocks i

/-- No block of a layer is in two places of its pool. -/
structure Backed (s : SharedPagedKv) (blockSize : ℕ) : Prop where
  groups : s.groups.Sound s.layers.length
  layers_ne : s.layers ≠ []
  block_size : ∀ l ∈ s.layers, l.blockSize = blockSize
  distinct : ∀ i < s.layers.length, (s.pool i).Nodup

theorem pool_eq {i : ℕ} {l : PagedKvStore} (h : s.layers[i]? = some l) :
    s.pool i = l.freeBlockIds ++ GroupTable.owned s.groups.blocks i := by
  rw [pool, h]
  rfl

theorem Sound.backed (h : s.Sound blockSize total) : s.Backed blockSize := by
  refine ⟨h.groups, h.layers_ne, h.block_size, fun i hi => ?_⟩
  have hl := List.getElem?_eq_getElem hi
  rw [pool_eq hl]
  exact (h.conserved i _ hl).nodup_iff.mpr List.nodup_range

theorem Backed.sound (h : s'.Backed blockSize) (hs : s.Sound blockSize total)
    (hlen : s'.layers.length = s.layers.length)
    (hpool : ∀ i < s.layers.length, (s'.pool i).Perm (s.pool i)) : s'.Sound blockSize total := by
  refine ⟨h.groups, h.layers_ne, h.block_size, fun i l hl => ?_⟩
  have hi : i < s.layers.length := hlen ▸ (List.getElem?_eq_some_iff.mp hl).1
  have hk := List.getElem?_eq_getElem hi
  have hp := hpool i hi
  rw [pool_eq hl, pool_eq hk] at hp
  exact hp.trans (hs.conserved i _ hk)

theorem Backed.blockSize_eq (h : s.Backed blockSize) : s.blockSize = some blockSize := by
  rcases s with ⟨_ | ⟨l, ls⟩, groups⟩
  · exact absurd rfl h.layers_ne
  · exact congrArg some (h.block_size l List.mem_cons_self)

theorem Backed.groupBlocks_isSome_iff (h : s.Backed blockSize) :
    (s.groupBlocks g).isSome ↔ 0 < s.groupRefs g := h.groups.live_iff g

theorem Sound.blockSize_eq (h : s.Sound blockSize total) : s.blockSize = some blockSize :=
  h.backed.blockSize_eq

theorem Sound.groupBlocks_isSome_iff (h : s.Sound blockSize total) :
    (s.groupBlocks g).isSome ↔ 0 < s.groupRefs g := h.groups.live_iff g

theorem new_sound {nLayers : ℕ} (hn : 0 < nLayers)
    (h : SharedPagedKv.new nLayers blockSize total = some s) : s.Sound blockSize total := by
  unfold SharedPagedKv.new PagedKvStore.new at h
  split at h
  swap
  · cases h
  obtain rfl : (⟨List.replicate nLayers ⟨blockSize, List.range total⟩, .new⟩ : SharedPagedKv) = s :=
    Option.some.inj h
  refine ⟨⟨rfl, fun g => ?_, fun g bs hg => ?_, fun g => ?_, List.nodup_nil⟩, ?_, ?_, ?_⟩
  · simp [GroupTable.blocksOf, GroupTable.refsOf, GroupTable.new]
  · simp [GroupTable.blocksOf, GroupTable.new] at hg
  · simp [GroupTable.new]
  · exact List.ne_nil_of_length_pos (by rwa [List.length_replicate])
  · intro l hl
    rw [List.eq_of_mem_replicate hl]
  · intro i l hl
    rw [List.eq_of_mem_replicate (List.mem_of_getElem? hl)]
    exact List.Perm.of_eq (List.append_nil _)

theorem mapM_acquireBlock {ls : List PagedKvStore} (h : ∀ l ∈ ls, l.freeBlockIds ≠ []) :
    ∃ taken, ls.mapM PagedKvStore.acquireBlock = some taken ∧ taken.length = ls.length ∧
      ∀ (i : ℕ) (l' : PagedKvStore), (taken.map Prod.snd)[i]? = some l' →
        ∃ (l : PagedKvStore) (x : ℕ), ls[i]? = some l ∧ (taken.map Prod.fst)[i]? = some x ∧
          l'.blockSize = l.blockSize ∧ l.freeBlockIds = x :: l'.freeBlockIds := by
  induction ls with
  | nil => exact ⟨[], rfl, rfl, fun i l hl => by simp at hl⟩
  | cons l ls ih =>
    obtain ⟨taken, ht, hlen, hi⟩ := ih fun k hk => h k (List.mem_cons_of_mem _ hk)
    obtain ⟨x, rest, hx⟩ := List.exists_cons_of_ne_nil (h l List.mem_cons_self)
    refine ⟨(x, { l with freeBlockIds := rest }) :: taken, ?_, by simp [hlen], ?_⟩
    · have ha : l.acquireBlock = some (x, { l with freeBlockIds := rest }) := by
        rw [PagedKvStore.acquireBlock, hx]
      simp [List.mapM_cons, ha, ht]
    · intro i k hk
      cases i with
      | zero =>
        obtain rfl : { l with freeBlockIds := rest } = k := by simpa using hk
        exact ⟨l, x, rfl, rfl, rfl, hx⟩
      | succ i => exact hi i k (by simpa using hk)

/-- A group that was free is acquired, or some layer has no free block. -/
theorem acquireGroup_backed (h : s.Backed blockSize) (ha : s.acquireGroup = some (g, s')) :
    s.groupRefs g = 0 ∧ s'.groupRefs = Function.update s.groupRefs g 1 ∧
      (∀ i, i ≠ g → s'.groupBlocks i = s.groupBlocks i) ∧
      s'.layers.length = s.layers.length ∧
      (∀ i < s.layers.length, (s'.pool i).Perm (s.pool i)) ∧ s'.Backed blockSize := by
  unfold acquireGroup at ha
  split at ha
  · cases ha
  rename_i hfree
  have hne : ∀ l ∈ s.layers, l.freeBlockIds ≠ [] := by
    intro l hl he
    refine hfree (List.any_eq_true.mpr ⟨l, hl, ?_⟩)
    simp [PagedKvStore.freeBlockCount, he]
  obtain ⟨taken, ht, hlen, hget⟩ := mapM_acquireBlock hne
  have hbs : (taken.map Prod.fst).length = s.layers.length := by rw [List.length_map, hlen]
  obtain ⟨hz, hr, hb, hs⟩ := GroupTable.insert_spec h.groups hbs
  simp only [ht, Option.bind_eq_bind, Option.bind_some, Option.some.injEq, Prod.mk.injEq] at ha
  obtain ⟨rfl, rfl⟩ := ha
  have hlen' : (taken.map Prod.snd).length = s.layers.length := by rw [List.length_map, hlen]
  have hpool : ∀ i < s.layers.length, (pool ⟨taken.map Prod.snd,
      (s.groups.insert (taken.map Prod.fst)).2⟩ i).Perm (s.pool i) := by
    intro i hi
    have hl := List.getElem?_eq_getElem (lt_of_lt_of_eq hi hlen'.symm)
    obtain ⟨k, x, hk, hx, _, hcons⟩ := hget i _ hl
    have ho := GroupTable.insert_owned h.groups hx
    rw [pool_eq hk, pool_eq (s := ⟨taken.map Prod.snd, _⟩) hl, hcons]
    exact (ho.append_left _).trans List.perm_middle
  refine ⟨hz, hr, fun i hi => ?_, hlen', hpool, ?_, ?_, ?_, ?_⟩
  · exact (congrFun hb i).trans (Function.update_of_ne hi _ _)
  · dsimp only
    rw [hlen']
    exact hs
  · exact List.ne_nil_of_length_pos (hlen' ▸ List.length_pos_of_ne_nil h.layers_ne)
  · intro l hl
    obtain ⟨i, hi', hl⟩ := List.getElem_of_mem hl
    obtain ⟨k, x, hk, hx, hsize, _⟩ := hget i l (by rw [List.getElem?_eq_getElem hi', hl])
    exact hsize.trans (h.block_size _ (List.mem_of_getElem? hk))
  · intro i hi
    have hi' : i < s.layers.length := lt_of_lt_of_eq hi hlen'
    exact (hpool i hi').nodup_iff.mpr (h.distinct i hi')

theorem acquireGroup_spec (h : s.Sound blockSize total) (ha : s.acquireGroup = some (g, s')) :
    s.groupRefs g = 0 ∧ s'.groupRefs = Function.update s.groupRefs g 1 ∧
      (∀ i, i ≠ g → s'.groupBlocks i = s.groupBlocks i) ∧
      s'.layers.length = s.layers.length ∧ s'.Sound blockSize total := by
  obtain ⟨hz, hr, hb, hl, hp, hs⟩ := acquireGroup_backed h.backed ha
  exact ⟨hz, hr, hb, hl, hs.sound h hl hp⟩

theorem retainGroup_backed (h : s.Backed blockSize) (hg : 0 < s.groupRefs g) :
    ∃ s', s.retainGroup g = some s' ∧
      s'.groupRefs = Function.update s.groupRefs g (s.groupRefs g + 1) ∧
      s'.groupBlocks = s.groupBlocks ∧ s'.layers = s.layers ∧ s'.pool = s.pool ∧
      s'.Backed blockSize := by
  obtain ⟨t', ht, hr, hb, hs⟩ := GroupTable.retain_spec h.groups hg
  have hpool : pool { s with groups := t' } = s.pool := by
    unfold pool
    rw [hb]
  refine ⟨{ s with groups := t' }, by simp [retainGroup, ht], hr, ?_, rfl, hpool, hs, h.layers_ne,
    h.block_size, hpool ▸ h.distinct⟩
  ext1 i
  exact congrArg (fun bs => List.getD bs i none) hb

theorem getElem?_releaseBlocks (ls : List PagedKvStore) (bs : List ℕ) (i : ℕ) :
    (releaseBlocks ls bs)[i]? =
      ls[i]?.map fun l => bs[i]?.elim l l.releaseBlock := by
  induction ls generalizing bs i with
  | nil => simp [releaseBlocks]
  | cons l ls ih =>
    cases bs with
    | nil => simp [releaseBlocks]
    | cons b bs =>
      cases i with
      | zero => rfl
      | succ i => exact ih bs i

theorem length_releaseBlocks (ls : List PagedKvStore) (bs : List ℕ) :
    (releaseBlocks ls bs).length = ls.length := by
  induction ls generalizing bs with
  | nil => rfl
  | cons l ls ih =>
    cases bs with
    | nil => rfl
    | cons b bs => exact congrArg (· + 1) (ih bs)

/-- A release takes one holder; the last one gives the blocks back to their layers. -/
theorem releaseGroup_backed (h : s.Backed blockSize) (hg : 0 < s.groupRefs g) :
    ∃ last s', s.releaseGroup g = some (last, s') ∧
      s'.groupRefs = Function.update s.groupRefs g (s.groupRefs g - 1) ∧
      (∀ i, 0 < s'.groupRefs i → s'.groupBlocks i = s.groupBlocks i) ∧
      s'.layers.length = s.layers.length ∧
      (∀ i < s.layers.length, (s'.pool i).Perm (s.pool i)) ∧ s'.Backed blockSize := by
  obtain ⟨freed, t', ht, hr, hs, ⟨rfl, _, hb⟩ | ⟨bs, rfl, hone, hbs, hb⟩⟩ :=
    GroupTable.release_spec h.groups hg
  · have hpool : pool { s with groups := t' } = s.pool := by
      unfold pool
      rw [hb]
    refine ⟨false, { s with groups := t' }, by simp [releaseGroup, ht], hr, fun i _ => ?_, rfl,
      fun i _ => hpool ▸ List.Perm.refl _, hs, h.layers_ne, h.block_size, hpool ▸ h.distinct⟩
    exact congrArg (fun bs => List.getD bs i none) hb
  · have hlt : g < s.groups.blocks.length := by
      rw [h.groups.length_eq]
      exact GroupTable.lt_of_live hg
    have hget : ∀ (i : ℕ) (l : PagedKvStore), (releaseBlocks s.layers bs)[i]? = some l →
        ∃ (k : PagedKvStore) (x : ℕ), s.layers[i]? = some k ∧ bs[i]? = some x ∧
          l = k.releaseBlock x := by
      intro i l hl
      obtain ⟨k, hk, rfl⟩ := Option.map_eq_some_iff.mp (getElem?_releaseBlocks .. ▸ hl)
      have hi : i < bs.length := by
        rw [h.groups.width_eq g bs hbs]
        exact (List.getElem?_eq_some_iff.mp hk).1
      exact ⟨k, bs[i], hk, List.getElem?_eq_getElem hi, by rw [List.getElem?_eq_getElem hi]; rfl⟩
    have hlen : (releaseBlocks s.layers bs).length = s.layers.length := length_releaseBlocks _ _
    have hpool : ∀ i < s.layers.length,
        (pool ⟨releaseBlocks s.layers bs, t'⟩ i).Perm (s.pool i) := by
      intro i hi
      have hl := List.getElem?_eq_getElem (lt_of_lt_of_eq hi hlen.symm)
      obtain ⟨k, x, hk, hx, hkx⟩ := hget i _ hl
      have ho := GroupTable.owned_set_none hlt hbs hx
      rw [pool_eq hl, pool_eq hk, hkx]
      dsimp only
      rw [hb]
      exact List.perm_middle.symm.trans (ho.symm.append_left _)
    refine ⟨true, ⟨releaseBlocks s.layers bs, t'⟩, by simp [releaseGroup, ht], hr, fun i hi => ?_,
      hlen, hpool, ?_, ?_, ?_, ?_⟩
    · have hne : g ≠ i := by
        rintro rfl
        have hz : t'.refsOf g = 0 := by rw [hr, Function.update_self, hone]
        exact absurd hi (by rw [groupRefs, hz]; exact lt_irrefl 0)
      unfold groupBlocks GroupTable.blocksOf
      rw [hb, List.getD_eq_getElem?_getD, List.getElem?_set_ne hne, List.getD_eq_getElem?_getD]
    · dsimp only
      rw [hlen]
      exact hs
    · apply List.ne_nil_of_length_pos
      rw [hlen]
      exact List.length_pos_of_ne_nil h.layers_ne
    · intro l hl
      obtain ⟨i, hi⟩ := List.mem_iff_getElem?.mp hl
      obtain ⟨k, x, hk, _, rfl⟩ := hget i l hi
      exact h.block_size k (List.mem_of_getElem? hk)
    · intro i hi
      have hi' : i < s.layers.length := lt_of_lt_of_eq hi hlen
      exact (hpool i hi').nodup_iff.mpr (h.distinct i hi')

end SharedPagedKv

end Frink.Paged
