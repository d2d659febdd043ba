import Frink.Paged.Serving

/-! # Shared pages are written pages

What every run of the requests keeps: a page with a second holder is written to its end by
every request that names it, and a block taken past a reservation is in one table only. So two
tables meet only in blocks that neither will write again.
-/

namespace Frink.Paged
open Radix

variable {α : Type}

/-- The blocks of a table that belong to no group of the lease. -/
def Sequence.stray (q : Sequence) (c : PagedKvCache) : List ℕ :=
  c.blockTable.drop q.lease.groups.length

/-- Every layer that keeps rows has the first `n` positions. -/
def Sequence.Written (q : Sequence) (m : PagedMemory α) (n : ℕ) : Prop :=
  ∀ (layer : ℕ) (c : PagedKvCache) (r : LayerRows α), q.lease.caches[layer]? = some c →
    m.rows[layer]? = some r → r.Keeps → n ≤ c.seqLen

/-- The tables of one request over a store: the groups' blocks first, then blocks of its own. -/
structure Sequence.Placed (q : Sequence) (kv : SharedPagedKv) (P total : ℕ) : Prop where
  window : q.lease.window = none
  groups : q.lease.groups = q.lease.held.map some
  layers : q.lease.caches.length = kv.layers.length
  named : ∀ (layer : ℕ) (c : PagedKvCache), q.lease.caches[layer]? = some c →
    ∀ (a : ℕ) (g : PageGroup), q.lease.held[a]? = some g →
      c.blockTable[a]? = (kv.groupBlocks g).bind fun blocks => blocks[layer]?
  long : ∀ c ∈ q.lease.caches, q.lease.groups.length ≤ c.blockTable.length
  reach : ∀ c ∈ q.lease.caches, c.seqLen ≤ c.blockTable.length * P
  ahead : ∀ c ∈ q.lease.caches, c.seqLen ≤ q.pos
  stray_nodup : ∀ c ∈ q.lease.caches, (q.stray c).Nodup
  stray : ∀ (layer : ℕ) (c : PagedKvCache), q.lease.caches[layer]? = some c →
    ∀ x ∈ q.stray c, x < total ∧ x ∉ kv.pool layer

namespace Serving

def held (running : List (Option Sequence)) : List (List PageGroup) :=
  running.map fun q => q.elim [] fun q => q.lease.held

structure Sound (σ : Serving α) (P total : ℕ) : Prop where
  page_pos : 0 < P
  backed : σ.memory.kv.Backed P
  range : ∀ layer < σ.memory.kv.layers.length, ∀ x ∈ σ.memory.kv.pool layer, x < total
  rows_length : σ.memory.rows.length = σ.memory.kv.layers.length
  fits : ∀ r ∈ σ.memory.rows, r.Fits P total
  counted : ∀ g, σ.memory.kv.groupRefs g = Holders.total (held σ.running) g + σ.cached.count g
  placed : ∀ (i : ℕ) (q : Sequence), σ.sequence i = some q → q.Placed σ.memory.kv P total
  apart : ∀ (i j : ℕ) (q q' : Sequence), i ≠ j → σ.sequence i = some q →
    σ.sequence j = some q' → ∀ (layer : ℕ) (c c' : PagedKvCache),
      q.lease.caches[layer]? = some c → q'.lease.caches[layer]? = some c' →
      List.Disjoint (q.stray c) (q'.stray c')
  written : ∀ (i : ℕ) (q : Sequence), σ.sequence i = some q →
    ∀ (a : ℕ) (g : PageGroup), q.lease.held[a]? = some g →
      σ.memory.kv.groupRefs g = 1 ∨ q.Written σ.memory ((a + 1) * P)

end Serving

section Blocks

variable {kv : SharedPagedKv} {P layer x g g' : ℕ} {bs bs' : List ℕ}

theorem blocks_getElem? (h : kv.groupBlocks g = some bs) :
    kv.groups.blocks[g]? = some (some bs) := by
  unfold SharedPagedKv.groupBlocks GroupTable.blocksOf at h
  rw [List.getD_eq_getElem?_getD] at h
  cases hb : kv.groups.blocks[g]? with
  | none =>
    rw [hb] at h
    cases h
  | some b =>
    rw [hb] at h
    exact congrArg some h

theorem mem_owned (h : kv.groupBlocks g = some bs) (hx : bs[layer]? = some x) :
    x ∈ GroupTable.owned kv.groups.blocks layer :=
  List.mem_filterMap.mpr ⟨some bs, List.mem_of_getElem? (blocks_getElem? h), hx⟩

theorem mem_pool (h : kv.groupBlocks g = some bs) (hx : bs[layer]? = some x) :
    x ∈ kv.pool layer := List.mem_append_right _ (mem_owned h hx)

/-- A block belongs to one group. -/
theorem group_of_block (hb : kv.Backed P) (hl : layer < kv.layers.length)
    (h : kv.groupBlocks g = some bs) (h' : kv.groupBlocks g' = some bs')
    (hx : bs[layer]? = some x) (hx' : bs'[layer]? = some x) : g = g' := by
  have hn : (GroupTable.owned kv.groups.blocks layer).Nodup :=
    (hb.distinct layer hl).of_append_right
  rw [GroupTable.owned, List.Nodup, List.pairwise_filterMap, List.pairwise_iff_getElem] at hn
  obtain ⟨hlt, hg⟩ := List.getElem?_eq_some_iff.mp (blocks_getElem? h)
  obtain ⟨hlt', hg'⟩ := List.getElem?_eq_some_iff.mp (blocks_getElem? h')
  by_contra hne
  rcases Nat.lt_or_gt_of_ne hne with hgt | hgt
  · exact hn g g' hlt hlt' hgt x (by rw [hg]; exact hx) x (by rw [hg']; exact hx') rfl
  · exact hn g' g hlt' hlt hgt x (by rw [hg']; exact hx') x (by rw [hg]; exact hx) rfl

end Blocks

namespace Serving

variable {σ : Serving α} {P total i j layer a b x g : ℕ} {q q' : Sequence}
  {c c' : PagedKvCache}

theorem sequence_eq (h : σ.sequence i = some q) : σ.running[i]? = some (some q) :=
  Option.join_eq_some_iff.mp h

theorem held_getElem? (h : σ.sequence i = some q) :
    (held σ.running)[i]? = some q.lease.held := by
  rw [held, List.getElem?_map, sequence_eq h]
  rfl

namespace Sound

theorem refs_pos (hs : σ.Sound P total) (hi : σ.sequence i = some q)
    (hg : q.lease.held[a]? = some g) : 0 < σ.memory.kv.groupRefs g := by
  have hle := Holders.count_le_total (a := g) (held_getElem? hi)
  have hpos := List.count_pos_iff.mpr (List.mem_of_getElem? hg)
  have := hs.counted g
  omega

/-- Two tables that name one group have written it. -/
theorem written_of_ne (hs : σ.Sound P total) (hi : σ.sequence i = some q)
    (hj : σ.sequence j = some q') (hg : q.lease.held[a]? = some g)
    (hg' : q'.lease.held[b]? = some g) (hne : i = j → a ≠ b) :
    q.Written σ.memory ((a + 1) * P) := by
  refine (hs.written i q hi a g hg).resolve_left fun hone => ?_
  have htwo := Holders.two_le_total (held_getElem? hi) (held_getElem? hj) hg hg' hne
  have := hs.counted g
  omega

/-- What one request has written of a group, every request that names it has. -/
theorem written_all (hs : σ.Sound P total) (hi : σ.sequence i = some q)
    (hg : q.lease.held[a]? = some g) (hw : q.Written σ.memory ((a + 1) * P))
    (hj : σ.sequence j = some q') (hg' : q'.lease.held[b]? = some g) :
    q'.Written σ.memory ((b + 1) * P) := by
  by_cases hne : j = i → b ≠ a
  · exact hs.written_of_ne hj hi hg' hg hne
  · obtain ⟨rfl, rfl⟩ : j = i ∧ b = a := by
      simp only [not_forall, not_not] at hne
      exact ⟨hne.1, hne.2⟩
    obtain rfl : q = q' := Option.some.inj (hi.symm.trans hj)
    exact hw

/-- A table's entry is its group's block, or a stray one. -/
theorem block_cases (hs : σ.Sound P total) (hi : σ.sequence i = some q)
    (hc : q.lease.caches[layer]? = some c) (hx : c.blockTable[a]? = some x) :
    (∃ g bs, q.lease.held[a]? = some g ∧ σ.memory.kv.groupBlocks g = some bs ∧
      bs[layer]? = some x) ∨
    (q.lease.held.length ≤ a ∧ (q.stray c)[a - q.lease.held.length]? = some x) := by
  have hp := hs.placed i q hi
  have hlen : q.lease.groups.length = q.lease.held.length := by
    have := congrArg List.length hp.groups
    rwa [List.length_map] at this
  rcases Nat.lt_or_ge a q.lease.held.length with hlt | hge
  · have hg := List.getElem?_eq_getElem hlt
    rw [hp.named layer c hc a _ hg] at hx
    obtain ⟨bs, hbs, hx⟩ := Option.bind_eq_some_iff.mp hx
    exact Or.inl ⟨_, bs, hg, hbs, hx⟩
  · refine Or.inr ⟨hge, ?_⟩
    rw [Sequence.stray, hlen, List.getElem?_drop, Nat.add_sub_cancel' hge]
    exact hx

/-- Two tables meet only where both are written. -/
theorem block_unique (hs : σ.Sound P total) (hi : σ.sequence i = some q)
    (hj : σ.sequence j = some q') (hc : q.lease.caches[layer]? = some c)
    (hc' : q'.lease.caches[layer]? = some c') (hx : c.blockTable[a]? = some x)
    (hx' : c'.blockTable[b]? = some x) (hne : i = j → a ≠ b) :
    q.Written σ.memory ((a + 1) * P) := by
  have hp := hs.placed i q hi
  have hp' := hs.placed j q' hj
  have hl : layer < σ.memory.kv.layers.length :=
    hp.layers ▸ (List.getElem?_eq_some_iff.mp hc).1
  rcases hs.block_cases hi hc hx with ⟨g, bs, hg, hbs, hgx⟩ | ⟨ha, hax⟩
  · rcases hs.block_cases hj hc' hx' with ⟨g', bs', hg', hbs', hgx'⟩ | ⟨hb, hbx⟩
    · obtain rfl := group_of_block hs.backed hl hbs hbs' hgx hgx'
      exact hs.written_of_ne hi hj hg hg' hne
    · exact absurd (mem_pool hbs hgx) (hp'.stray layer c' hc' x (List.mem_of_getElem? hbx)).2
  · rcases hs.block_cases hj hc' hx' with ⟨g', bs', hg', hbs', hgx'⟩ | ⟨hb, hbx⟩
    · exact absurd (mem_pool hbs' hgx') (hp.stray layer c hc x (List.mem_of_getElem? hax)).2
    · by_cases hij : i = j
      · subst hij
        obtain rfl : q = q' := Option.some.inj (hi.symm.trans hj)
        obtain rfl : c = c' := Option.some.inj (hc.symm.trans hc')
        have hnd := hp.stray_nodup c (List.mem_of_getElem? hc)
        obtain ⟨hlt, hax⟩ := List.getElem?_eq_some_iff.mp hax
        obtain ⟨hlt', hbx⟩ := List.getElem?_eq_some_iff.mp hbx
        have := (hnd.getElem_inj_iff).mp (hax.trans hbx.symm)
        exact absurd (by omega) (hne rfl)
      · exact absurd (List.mem_of_getElem? hbx)
          (hs.apart i j q q' hij hi hj layer c c' hc hc' (List.mem_of_getElem? hax))

/-- A table names no free block. -/
theorem not_free (hs : σ.Sound P total) (hi : σ.sequence i = some q)
    (hc : q.lease.caches[layer]? = some c) {s : PagedKvStore}
    (hl : σ.memory.kv.layers[layer]? = some s) (hx : c.blockTable[a]? = some x) :
    x ∉ s.freeBlockIds := by
  intro hfree
  have hlt := (List.getElem?_eq_some_iff.mp hl).1
  have hn := hs.backed.distinct layer hlt
  rw [SharedPagedKv.pool_eq hl] at hn
  rcases hs.block_cases hi hc hx with ⟨g, bs, -, hbs, hgx⟩ | ⟨-, hax⟩
  · exact (List.disjoint_of_nodup_append hn) hfree (mem_owned hbs hgx)
  · refine ((hs.placed i q hi).stray layer c hc x (List.mem_of_getElem? hax)).2 ?_
    rw [SharedPagedKv.pool_eq hl]
    exact List.mem_append_left _ hfree

/-- A table's blocks are blocks of the store. -/
theorem block_lt (hs : σ.Sound P total) (hi : σ.sequence i = some q)
    (hc : q.lease.caches[layer]? = some c) (hx : c.blockTable[a]? = some x) : x < total := by
  have hp := hs.placed i q hi
  have hl : layer < σ.memory.kv.layers.length :=
    hp.layers ▸ (List.getElem?_eq_some_iff.mp hc).1
  rcases hs.block_cases hi hc hx with ⟨g, bs, -, hbs, hgx⟩ | ⟨-, hax⟩
  · exact hs.range layer hl x (mem_pool hbs hgx)
  · exact (hp.stray layer c hc x (List.mem_of_getElem? hax)).1

end Sound

theorem rowAt_eq {m : PagedMemory α} {l : PagedLease} {r : LayerRows α} {p : ℕ}
    (hb : m.kv.Backed P) (hc : l.caches[layer]? = some c) (hr : m.rows[layer]? = some r)
    (hl : layer < m.kv.layers.length) :
    m.rowAt l layer p = c.blockTable[p / P]?.bind fun id => r.rowAt P id (p % P) := by
  have hs := List.getElem?_eq_getElem hl
  have hP := hb.block_size _ (List.getElem_mem hl)
  simp only [PagedMemory.rowAt, hc, hr, hs, hP, Option.bind_eq_bind, Option.bind_some]

theorem sequence_set {running : List (Option Sequence)} (m : PagedMemory α)
    (cached : List PageGroup) (new : Option Sequence) (hi : i < running.length) :
    (⟨m, running.set i new, cached⟩ : Serving α).sequence j =
      if j = i then new else running[j]?.join := by
  unfold sequence
  dsimp only
  rw [List.getElem?_set]
  by_cases hji : j = i
  · subst hji
    rw [if_pos rfl, if_pos rfl, if_pos hi]
    rfl
  · rw [if_neg (Ne.symm hji), if_neg hji]

theorem sequence_concat {running : List (Option Sequence)} {m : PagedMemory α}
    {cached : List PageGroup} {new : Option Sequence} :
    (⟨m, running ++ [new], cached⟩ : Serving α).sequence j =
      if j = running.length then new else running[j]?.join := by
  unfold sequence
  dsimp only
  rcases lt_trichotomy j running.length with hlt | rfl | hgt
  · rw [List.getElem?_append_left hlt, if_neg (Nat.ne_of_lt hlt)]
  · rw [List.getElem?_concat_length, if_pos rfl]
    rfl
  · rw [if_neg (Nat.ne_of_gt hgt), List.getElem?_eq_none (by simp; omega),
      List.getElem?_eq_none hgt.le]

namespace Sound

variable {cached' : List PageGroup}

/-- Holds may move between requests and the tree, as long as they are counted and a page
with two of them is written. -/
theorem recount (hs : σ.Sound P total) (kv' : SharedPagedKv) (running' : List (Option Sequence))
    (cached' : List PageGroup) (hrec : Recounted σ.memory.kv kv' P)
    (hcount : ∀ g, kv'.groupRefs g = Holders.total (held running') g + cached'.count g)
    (hrun : ∀ (i : ℕ) (q : Sequence), running'[i]?.join = some q → σ.sequence i = some q)
    (hseal : ∀ (i : ℕ) (q : Sequence), running'[i]?.join = some q →
      ∀ (a : ℕ) (g : PageGroup), q.lease.held[a]? = some g →
        kv'.groupRefs g = 1 ∨ q.Written σ.memory ((a + 1) * P)) :
    Sound ⟨{ σ.memory with kv := kv' }, running', cached'⟩ P total := by
  have hpool : ∀ layer < σ.memory.kv.layers.length, ∀ x,
      x ∈ kv'.pool layer ↔ x ∈ σ.memory.kv.pool layer :=
    fun layer hl x => (hrec.pool layer hl).mem_iff
  refine ⟨hs.page_pos, hrec.backed, fun layer hl x hx => ?_, hs.rows_length.trans hrec.layers.symm,
    hs.fits, hcount, fun i q hi => ?_, fun i j q q' hij hi hj => ?_, hseal⟩
  · have hl' : layer < σ.memory.kv.layers.length := hrec.layers ▸ hl
    exact hs.range layer hl' x ((hpool layer hl' x).mp hx)
  · have hp := hs.placed i q (hrun i q hi)
    refine ⟨hp.window, hp.groups, hp.layers.trans hrec.layers.symm, fun layer c hc a g hg => ?_,
      hp.long, hp.reach, hp.ahead, hp.stray_nodup, fun layer c hc x hx => ?_⟩
    · have hlive := hs.refs_pos (hrun i q hi) hg
      have hlive' : 0 < kv'.groupRefs g := by
        have hle : q.lease.held.count g ≤ Holders.total (held running') g :=
          Holders.count_le_total (held_getElem? (σ := ⟨σ.memory, running', []⟩) hi)
        have hpos := List.count_pos_iff.mpr (List.mem_of_getElem? hg)
        have := hcount g
        omega
      rw [hp.named layer c hc a g hg, hrec.kept g hlive hlive']
    · have hl : layer < σ.memory.kv.layers.length :=
        hp.layers ▸ (List.getElem?_eq_some_iff.mp hc).1
      obtain ⟨hlt, hout⟩ := hp.stray layer c hc x hx
      exact ⟨hlt, fun hin => hout ((hpool layer hl x).mp hin)⟩
  · exact hs.apart i j q q' hij (hrun i q hi) (hrun j q' hj)

/-- A new request takes over holds the tree had. -/
theorem add (hs : σ.Sound P total) (q : Sequence)
    (hcached : σ.cached.Perm (q.lease.held ++ cached'))
    (hq : q.Placed σ.memory.kv P total) (hstray : ∀ c ∈ q.lease.caches, q.stray c = [])
    (hseal : ∀ (a : ℕ) (g : PageGroup), q.lease.held[a]? = some g →
      σ.memory.kv.groupRefs g = 1 ∨ q.Written σ.memory ((a + 1) * P)) :
    Sound ⟨σ.memory, σ.running ++ [some q], cached'⟩ P total := by
  have hcases : ∀ (i : ℕ) (q₁ : Sequence),
      (⟨σ.memory, σ.running ++ [some q], cached'⟩ : Serving α).sequence i = some q₁ →
        q₁ = q ∨ σ.sequence i = some q₁ := by
    intro i q₁ hi
    rw [sequence_concat] at hi
    split at hi
    · exact Or.inl (Option.some.inj hi).symm
    · exact Or.inr hi
  refine ⟨hs.page_pos, hs.backed, hs.range, hs.rows_length, hs.fits, fun g => ?_,
    fun i q₁ hi => ?_, fun i j q₁ q₂ hij hi hj layer c c' hc hc' => ?_, fun i q₁ hi => ?_⟩
  · have hcount : (held (σ.running ++ [some q])) = held σ.running ++ [q.lease.held] := by
      simp [held]
    dsimp only
    rw [hs.counted g, hcached.count_eq, List.count_append, hcount, Holders.total_concat]
    omega
  · rcases hcases i q₁ hi with rfl | hi
    · exact hq
    · exact hs.placed i q₁ hi
  · rcases hcases i q₁ hi with rfl | hi'
    · rw [hstray c (List.mem_of_getElem? hc)]
      exact List.disjoint_nil_left _
    · rcases hcases j q₂ hj with rfl | hj'
      · rw [hstray c' (List.mem_of_getElem? hc')]
        exact List.disjoint_nil_right _
      · exact hs.apart i j q₁ q₂ hij hi' hj' layer c c' hc hc'
  · rcases hcases i q₁ hi with rfl | hi
    · exact hseal
    · exact hs.written i q₁ hi

/-- Rows may change as long as the buffers keep their shape. -/
theorem rerow (hs : σ.Sound P total) (rows : List (LayerRows α))
    (hlen : rows.length = σ.memory.rows.length)
    (hshape : ∀ (layer : ℕ) (r' : LayerRows α), rows[layer]? = some r' →
      ∃ r, σ.memory.rows[layer]? = some r ∧ LayerRows.SameShape r r') :
    Sound ⟨⟨σ.memory.kv, rows⟩, σ.running, σ.cached⟩ P total := by
  refine ⟨hs.page_pos, hs.backed, hs.range, hlen.trans hs.rows_length, fun r' hr' => ?_, hs.counted,
    hs.placed, hs.apart, fun i q hi a g hg => ?_⟩
  · obtain ⟨layer, hl⟩ := List.mem_iff_getElem?.mp hr'
    obtain ⟨r, hr, hsame⟩ := hshape layer r' hl
    exact hsame.fits (hs.fits r (List.mem_of_getElem? hr))
  · refine (hs.written i q hi a g hg).imp_right fun hw layer c r' hc hr' hk => ?_
    obtain ⟨r, hr, hsame⟩ := hshape layer r' hr'
    exact hw layer c r hc hr (hsame.keeps_iff.mp hk)

end Sound

/-- A layer's store once its first free blocks are taken. -/
def taken (kv : SharedPagedKv) (layer : ℕ) (s : PagedKvStore) (rest : List ℕ) : SharedPagedKv :=
  { kv with layers := kv.layers.set layer { s with freeBlockIds := rest } }

section Taking

variable {kv : SharedPagedKv} {s : PagedKvStore} {xs rest : List ℕ}

theorem taken_layers : (taken kv layer s rest).layers.length = kv.layers.length :=
  List.length_set ..

theorem pool_taken_self (hl : kv.layers[layer]? = some s) :
    (taken kv layer s rest).pool layer = rest ++ GroupTable.owned kv.groups.blocks layer := by
  apply SharedPagedKv.pool_eq (s := taken kv layer s rest) (l := { s with freeBlockIds := rest })
  exact List.getElem?_set_self (List.getElem?_eq_some_iff.mp hl).1

theorem pool_taken_ne (hne : j ≠ layer) : (taken kv layer s rest).pool j = kv.pool j := by
  simp only [SharedPagedKv.pool, taken, List.getElem?_set_ne hne.symm]

/-- What is left of a pool, and what was taken from it. -/
theorem pool_taken_perm (hl : kv.layers[layer]? = some s) (hfree : s.freeBlockIds = xs ++ rest) :
    (kv.pool layer).Perm (xs ++ (taken kv layer s rest).pool layer) := by
  rw [SharedPagedKv.pool_eq hl, pool_taken_self hl, hfree, List.append_assoc]

theorem mem_of_mem_pool_taken (hl : kv.layers[layer]? = some s)
    (hfree : s.freeBlockIds = xs ++ rest) (hx : x ∈ (taken kv layer s rest).pool j) :
    x ∈ kv.pool j := by
  by_cases hne : j = layer
  · subst hne
    exact (pool_taken_perm hl hfree).mem_iff.mpr (List.mem_append_right _ hx)
  · rwa [pool_taken_ne hne] at hx

theorem taken_backed (hb : kv.Backed P) (hl : kv.layers[layer]? = some s)
    (hfree : s.freeBlockIds = xs ++ rest) : (taken kv layer s rest).Backed P := by
  refine ⟨?_, ?_, fun t ht => ?_, fun j hj => ?_⟩
  · rw [taken_layers]
    exact hb.groups
  · apply List.ne_nil_of_length_pos
    rw [taken_layers]
    exact List.length_pos_of_ne_nil hb.layers_ne
  · rcases List.mem_or_eq_of_mem_set ht with hm | rfl
    · exact hb.block_size t hm
    · exact hb.block_size s (List.mem_of_getElem? hl)
  · rw [taken_layers] at hj
    by_cases hne : j = layer
    · subst hne
      exact ((pool_taken_perm hl hfree).nodup_iff.mp (hb.distinct j hj)).of_append_right
    · rw [pool_taken_ne hne]
      exact hb.distinct j hj

end Taking

/-- A request with one layer's table moved on. -/
def grown (q : Sequence) (layer : ℕ) (c : PagedKvCache) : Sequence :=
  { q with lease := { q.lease with caches := q.lease.caches.set layer c } }

section Growing

variable {s : PagedKvStore} {xs rest : List ℕ}

theorem caches_grown (hc : q.lease.caches[layer]? = some c) :
    (grown q layer c').lease.caches[j]? =
      if j = layer then some c' else q.lease.caches[j]? := by
  unfold grown
  dsimp only
  by_cases hne : j = layer
  · subst hne
    rw [if_pos rfl, List.getElem?_set_self (List.getElem?_eq_some_iff.mp hc).1]
  · rw [if_neg hne, List.getElem?_set_ne (Ne.symm hne)]

theorem stray_grown (hlong : q.lease.groups.length ≤ c.blockTable.length)
    (htable : c'.blockTable = c.blockTable ++ xs) : q.stray c' = q.stray c ++ xs := by
  rw [Sequence.stray, htable, List.drop_append_of_le_length hlong, Sequence.stray]

theorem held_set_self (hi : σ.sequence i = some q) (hq : q'.lease.held = q.lease.held) :
    held (σ.running.set i (some q')) = held σ.running := by
  rw [held, List.map_set, Option.elim_some, hq]
  apply List.ext_getElem?
  intro j
  by_cases hj : j = i
  · subst hj
    rw [List.getElem?_set_self, held_getElem? hi]
    rw [List.length_map]
    exact (List.getElem?_eq_some_iff.mp (sequence_eq hi)).1
  · rw [List.getElem?_set_ne (Ne.symm hj)]
    rfl

/-- One request may change as long as it holds the same groups and keeps what is written. -/
theorem Sound.swap (hs : σ.Sound P total) (q' : Sequence) (hi : σ.sequence i = some q)
    (hheld : q'.lease.held = q.lease.held) (hq : q'.Placed σ.memory.kv P total)
    (hapart : ∀ (j : ℕ) (q₂ : Sequence), j ≠ i → σ.sequence j = some q₂ →
      ∀ (layer : ℕ) (c c₂ : PagedKvCache), q'.lease.caches[layer]? = some c →
        q₂.lease.caches[layer]? = some c₂ → List.Disjoint (q'.stray c) (q₂.stray c₂))
    (hw : ∀ n, q.Written σ.memory n → q'.Written σ.memory n) :
    Sound ⟨σ.memory, σ.running.set i (some q'), σ.cached⟩ P total := by
  have hin : i < σ.running.length := (List.getElem?_eq_some_iff.mp (sequence_eq hi)).1
  have hcases : ∀ (j : ℕ) (q₁ : Sequence),
      (⟨σ.memory, σ.running.set i (some q'), σ.cached⟩ : Serving α).sequence j = some q₁ →
        (j = i ∧ q₁ = q') ∨ (j ≠ i ∧ σ.sequence j = some q₁) := by
    intro j q₁ hj
    rw [sequence_set _ _ _ hin] at hj
    split at hj
    · exact Or.inl ⟨‹_›, (Option.some.inj hj).symm⟩
    · exact Or.inr ⟨‹_›, hj⟩
  refine ⟨hs.page_pos, hs.backed, hs.range, hs.rows_length, hs.fits, fun g => ?_,
    fun j q₁ hj => ?_, fun j₁ j₂ q₁ q₂ hne hq₁ hq₂ ℓ c₁ c₂ hc₁ hc₂ => ?_, fun j q₁ hj a g hg => ?_⟩
  · dsimp only
    rw [held_set_self hi hheld]
    exact hs.counted g
  · rcases hcases j q₁ hj with ⟨-, rfl⟩ | ⟨-, hj⟩
    · exact hq
    · exact hs.placed j q₁ hj
  · rcases hcases j₁ q₁ hq₁ with ⟨rfl, rfl⟩ | ⟨hj₁, hold₁⟩
    · rcases hcases j₂ q₂ hq₂ with ⟨rfl, -⟩ | ⟨hj₂, hold₂⟩
      · exact absurd rfl hne
      · exact hapart j₂ q₂ hj₂ hold₂ ℓ c₁ c₂ hc₁ hc₂
    · rcases hcases j₂ q₂ hq₂ with ⟨rfl, rfl⟩ | ⟨hj₂, hold₂⟩
      · exact fun x hx hx' => hapart j₁ q₁ hj₁ hold₁ ℓ c₂ c₁ hc₂ hc₁ hx' hx
      · exact hs.apart j₁ j₂ q₁ q₂ hne hold₁ hold₂ ℓ c₁ c₂ hc₁ hc₂
  · rcases hcases j q₁ hj with ⟨-, rfl⟩ | ⟨-, hj⟩
    · rw [hheld] at hg
      exact (hs.written i q hi a g hg).imp_right (hw _)
    · exact hs.written j q₁ hj a g hg

/-- Blocks may leave the free list. -/
theorem Sound.take (hs : σ.Sound P total) (hl : σ.memory.kv.layers[layer]? = some s)
    (hfree : s.freeBlockIds = xs ++ rest) :
    Sound ⟨⟨taken σ.memory.kv layer s rest, σ.memory.rows⟩, σ.running, σ.cached⟩ P total := by
  refine ⟨hs.page_pos, taken_backed hs.backed hl hfree, fun ℓ hℓ x hx => ?_,
    hs.rows_length.trans taken_layers.symm, hs.fits, hs.counted, fun j q₁ hj => ?_, hs.apart,
    hs.written⟩
  · exact hs.range ℓ (taken_layers ▸ hℓ) x (mem_of_mem_pool_taken hl hfree hx)
  · have hp := hs.placed j q₁ hj
    refine ⟨hp.window, hp.groups, hp.layers.trans taken_layers.symm, hp.named, hp.long, hp.reach,
      hp.ahead, hp.stray_nodup, fun ℓ c hc x hx => (hp.stray ℓ c hc x hx).imp_right fun hout => ?_⟩
    exact fun hin => hout (mem_of_mem_pool_taken hl hfree hin)

/-- A cache of a request that moved one is the moved one or an old one. -/
theorem grown_cases {ℓ : ℕ} {c₁ : PagedKvCache} (hc : q.lease.caches[layer]? = some c)
    (h : (grown q layer c').lease.caches[ℓ]? = some c₁) :
    (ℓ = layer ∧ c₁ = c') ∨ (ℓ ≠ layer ∧ q.lease.caches[ℓ]? = some c₁) := by
  rw [caches_grown hc] at h
  split at h
  · exact Or.inl ⟨‹_›, (Option.some.inj h).symm⟩
  · exact Or.inr ⟨‹_›, h⟩

theorem forall_grown {p : PagedKvCache → Prop} (hc : q.lease.caches[layer]? = some c)
    (hold : ∀ c₁ ∈ q.lease.caches, p c₁) (hnew : p c') :
    ∀ c₁ ∈ (grown q layer c').lease.caches, p c₁ := by
  intro c₁ h₁
  obtain ⟨ℓ, hℓ⟩ := List.mem_iff_getElem?.mp h₁
  rcases grown_cases hc hℓ with ⟨-, rfl⟩ | ⟨-, h₂⟩
  · exact hnew
  · exact hold c₁ (List.mem_of_getElem? h₂)

/-- What a table takes past its groups must be new to it and to the pool. -/
theorem placed_grown {kv : SharedPagedKv} (hp : q.Placed kv P total)
    (hc : q.lease.caches[layer]? = some c) (htable : c'.blockTable = c.blockTable ++ xs)
    (hahead : c'.seqLen ≤ q.pos) (hreach : c'.seqLen ≤ c'.blockTable.length * P)
    (hnd : xs.Nodup) (hnew : ∀ x ∈ xs, x ∉ q.stray c)
    (hout : ∀ x ∈ xs, x < total ∧ x ∉ kv.pool layer) :
    (grown q layer c').Placed kv P total := by
  have hlong := hp.long c (List.mem_of_getElem? hc)
  have hstray := stray_grown hlong htable
  refine ⟨hp.window, hp.groups, (List.length_set ..).trans hp.layers, fun ℓ c₁ h₁ a g hg => ?_,
    forall_grown hc hp.long ?_, forall_grown hc hp.reach hreach, forall_grown hc hp.ahead hahead,
    forall_grown hc hp.stray_nodup ?_, fun ℓ c₁ h₁ x hx => ?_⟩
  · rcases grown_cases hc h₁ with ⟨rfl, rfl⟩ | ⟨-, h₂⟩
    · have halt : a < c.blockTable.length := by
        rw [hp.groups, List.length_map] at hlong
        exact (List.getElem?_eq_some_iff.mp hg).1.trans_le hlong
      rw [htable, List.getElem?_append_left halt]
      exact hp.named ℓ c hc a g hg
    · exact hp.named ℓ c₁ h₂ a g hg
  · rw [htable, List.length_append]
    exact hlong.trans (Nat.le_add_right _ _)
  · change (q.stray c').Nodup
    rw [hstray]
    exact (hp.stray_nodup c (List.mem_of_getElem? hc)).append hnd fun x hx hx' => hnew x hx' hx
  · change x ∈ q.stray c₁ at hx
    rcases grown_cases hc h₁ with ⟨rfl, rfl⟩ | ⟨-, h₂⟩
    · rw [hstray] at hx
      rcases List.mem_append.mp hx with hx | hx
      · exact hp.stray ℓ c hc x hx
      · exact hout x hx
    · exact hp.stray ℓ c₁ h₂ x hx

/-- Blocks taken from the free list into one table of one request. -/
theorem Sound.grow (hs : σ.Sound P total) (c' : PagedKvCache) (hi : σ.sequence i = some q)
    (hc : q.lease.caches[layer]? = some c) (hl : σ.memory.kv.layers[layer]? = some s)
    (hfree : s.freeBlockIds = xs ++ rest) (htable : c'.blockTable = c.blockTable ++ xs)
    (hle : c.seqLen ≤ c'.seqLen) (hahead : c'.seqLen ≤ q.pos)
    (hreach : c'.seqLen ≤ c'.blockTable.length * P) :
    Sound ⟨⟨taken σ.memory.kv layer s rest, σ.memory.rows⟩,
      σ.running.set i (some (grown q layer c')), σ.cached⟩ P total := by
  have hlt : layer < σ.memory.kv.layers.length := (List.getElem?_eq_some_iff.mp hl).1
  have hp := hs.placed i q hi
  have hpool : ∀ x ∈ xs, x ∈ σ.memory.kv.pool layer := fun x hx =>
    (pool_taken_perm hl hfree).mem_iff.mpr (List.mem_append_left _ hx)
  have hnd := (pool_taken_perm hl hfree).nodup_iff.mp (hs.backed.distinct layer hlt)
  have hstray := stray_grown (hp.long c (List.mem_of_getElem? hc)) htable
  have ht := hs.take hl hfree
  refine ht.swap _ hi rfl (placed_grown (ht.placed i q hi) hc htable hahead hreach
    hnd.of_append_left (fun x hx hx' => (hp.stray layer c hc x hx').2 (hpool x hx))
    fun x hx => ⟨?_, ?_⟩) ?_ ?_
  · exact hs.range layer hlt x (hpool x hx)
  · exact fun hin => (List.disjoint_of_nodup_append hnd) hx hin
  · -- the blocks added were in the pool, where no stray block is
    intro j q₂ hji hj ℓ c₁ c₂ h₁ h₂
    rcases grown_cases hc h₁ with ⟨rfl, rfl⟩ | ⟨-, hold⟩
    · change List.Disjoint (q.stray c₁) (q₂.stray c₂)
      rw [hstray, List.disjoint_append_left]
      refine ⟨hs.apart i j q q₂ (Ne.symm hji) hi hj ℓ c c₂ hc h₂, fun x hx hx' => ?_⟩
      exact ((hs.placed j q₂ hj).stray ℓ c₂ h₂ x hx').2 (hpool x hx)
    · exact hs.apart i j q q₂ (Ne.symm hji) hi hj ℓ c₁ c₂ hold h₂
  · intro n hw ℓ c₁ r h₁ hr hk
    rcases grown_cases hc h₁ with ⟨rfl, rfl⟩ | ⟨-, hold⟩
    · exact (hw ℓ c r hc hr hk).trans hle
    · exact hw ℓ c₁ r hold hr hk

end Growing

end Serving

end Frink.Paged
