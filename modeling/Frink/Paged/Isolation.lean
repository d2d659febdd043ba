import Frink.Paged.Sharing
import Frink.Paged.Sliding

/-! # Forks are isolated copies

Each act keeps the invariant and leaves every row another request reads as it was; a fork
reads, below its length, what its original reads.
-/

namespace Frink.Paged
open Radix

variable {α : Type}

namespace Serving

/-- Every request that lives on reads below its lengths what it read before. -/
def Frame (σ σ' : Serving α) : Prop :=
  ∀ (i : ℕ) (q q' : Sequence), σ.sequence i = some q → σ'.sequence i = some q' →
    ∀ (layer : ℕ) (c : PagedKvCache), q.lease.caches[layer]? = some c → ∀ p < c.seqLen,
      σ'.memory.rowAt q'.lease layer p = σ.memory.rowAt q.lease layer p

variable {σ σ' : Serving α} {P total i j layer a b x g : ℕ} {q q' : Sequence}
  {c c' : PagedKvCache}

/-- A request reads what it read if its tables go on as they were and the rows of their
blocks are as they were. -/
theorem frame_of (hs : σ.Sound P total) (hs' : σ'.Sound P total)
    (h : ∀ (i : ℕ) (q q' : Sequence), σ.sequence i = some q → σ'.sequence i = some q' →
      ∀ (layer : ℕ) (c : PagedKvCache), q.lease.caches[layer]? = some c →
        ∃ c', q'.lease.caches[layer]? = some c' ∧
          (∀ a < c.blockTable.length, c'.blockTable[a]? = c.blockTable[a]?) ∧
          ∀ r, σ.memory.rows[layer]? = some r → ∃ r', σ'.memory.rows[layer]? = some r' ∧
            ∀ p < c.seqLen, ∀ x, c.blockTable[p / P]? = some x →
              r'.rowAt P x (p % P) = r.rowAt P x (p % P)) : Frame σ σ' := by
  intro i q q' hi hi' layer c hc p hp
  have hq := hs.placed i q hi
  have hq' := hs'.placed i q' hi'
  obtain ⟨c', hc', htable, hrows⟩ := h i q q' hi hi' layer c hc
  have hl : layer < σ.memory.kv.layers.length :=
    hq.layers ▸ (List.getElem?_eq_some_iff.mp hc).1
  have hl' : layer < σ'.memory.kv.layers.length :=
    hq'.layers ▸ (List.getElem?_eq_some_iff.mp hc').1
  have hr := List.getElem?_eq_getElem (lt_of_lt_of_eq hl hs.rows_length.symm)
  obtain ⟨r', hr', hrow⟩ := hrows _ hr
  have hlt : p / P < c.blockTable.length :=
    (Nat.div_lt_iff_lt_mul hs.page_pos).mpr (hp.trans_le (hq.reach c (List.mem_of_getElem? hc)))
  have hx := List.getElem?_eq_getElem hlt
  rw [rowAt_eq hs'.backed hc' hr' hl', rowAt_eq hs.backed hc hr hl, htable _ hlt, hx,
    Option.bind_some, Option.bind_some]
  exact hrow p hp _ hx

theorem frame_of_rows (hs : σ.Sound P total) (hs' : σ'.Sound P total)
    (hrows : σ'.memory.rows = σ.memory.rows)
    (hrun : ∀ (i : ℕ) (q q' : Sequence), σ.sequence i = some q → σ'.sequence i = some q' →
      q'.lease = q.lease) : Frame σ σ' := by
  refine frame_of hs hs' fun i q q' hi hi' layer c hc => ?_
  rw [hrun i q q' hi hi', hrows]
  exact ⟨c, hc, fun _ _ => rfl, fun r hr => ⟨r, hr, fun _ _ _ _ => rfl⟩⟩

theorem evict_sound (hs : σ.Sound P total) (h : σ.evict g = some σ') :
    σ'.Sound P total ∧ Frame σ σ' := by
  unfold evict at h
  split at h
  swap
  · cases h
  rename_i hmem
  have hcached := List.count_pos_iff.mpr hmem
  have hcount := hs.counted g
  obtain ⟨last, kv', he, hr, hb, hl, hp, hbacked⟩ :=
    SharedPagedKv.releaseGroup_backed hs.backed (show 0 < σ.memory.kv.groupRefs g by omega)
  rw [he] at h
  obtain rfl := Option.some.inj h
  have hsound := hs.recount kv' σ.running (σ.cached.erase g)
    ⟨fun g' _ => hb g', hl, hp, hbacked⟩ (fun g' => ?_) (fun i q hi => hi)
    fun i q hi a g' hg' => ?_
  · exact ⟨hsound, frame_of_rows hs hsound rfl fun i q q' hi hi' =>
      congrArg Sequence.lease (Option.some.inj (hi'.symm.trans hi))⟩
  · have := hs.counted g'
    rw [hr, List.count_erase]
    rcases eq_or_ne g' g with rfl | hne
    · rw [Function.update_self, beq_self_eq_true, if_pos rfl]
      omega
    · rw [Function.update_of_ne hne, if_neg (by simpa using hne.symm)]
      omega
  · rw [hr]
    rcases eq_or_ne g' g with rfl | hne
    · have hle : q.lease.held.count g' ≤ Holders.total (held σ.running) g' :=
        Holders.count_le_total (held_getElem? hi)
      have hpos := List.count_pos_iff.mpr (List.mem_of_getElem? hg')
      exact Or.inr ((hs.written i q hi a g' hg').resolve_left (by omega))
    · rw [Function.update_of_ne hne]
      exact hs.written i q hi a g' hg'

theorem forward_sound {n : ℕ} (hs : σ.Sound P total) (h : σ.forward i n = some σ') :
    σ'.Sound P total ∧ Frame σ σ' := by
  unfold forward at h
  obtain ⟨q, hi, h⟩ := Option.bind_eq_some_iff.mp h
  split at h
  swap
  · cases h
  obtain rfl := Option.some.inj h
  have hp := hs.placed i q hi
  have hsound := hs.swap { q with pos := q.pos + n } hi rfl
    ⟨hp.window, hp.groups, hp.layers, hp.named, hp.long, hp.reach,
      fun c hc => (hp.ahead c hc).trans (Nat.le_add_right _ _), hp.stray_nodup, hp.stray⟩
    (fun j q₂ hji hj layer c c₂ hc hc₂ => hs.apart i j q q₂ (Ne.symm hji) hi hj layer c c₂ hc hc₂)
    fun _ hw => hw
  refine ⟨hsound, frame_of_rows hs hsound rfl fun j q₁ q₂ hj hj' => ?_⟩
  rw [sequence_set _ _ _ (List.getElem?_eq_some_iff.mp (sequence_eq hi)).1] at hj'
  split at hj'
  · subst j
    obtain rfl : q = q₁ := Option.some.inj (hi.symm.trans hj)
    rw [← Option.some.inj hj']
  · rw [Option.some.inj (hj'.symm.trans hj)]

theorem drop_sound (hs : σ.Sound P total) (h : σ.drop i = some σ') :
    σ'.Sound P total ∧ Frame σ σ' := by
  unfold drop at h
  obtain ⟨q, hi, h⟩ := Option.bind_eq_some_iff.mp h
  have hin : i < σ.running.length := (List.getElem?_eq_some_iff.mp (sequence_eq hi)).1
  have hle : ∀ g, q.lease.held.count g ≤ σ.memory.kv.groupRefs g := by
    intro g
    rw [hs.counted g]
    exact (Holders.count_le_total (held_getElem? hi)).trans (Nat.le_add_right _ _)
  obtain ⟨kv', he, hr, hrec⟩ := releaseAll_spec hs.backed hle
  rw [PagedLease.drop, he] at h
  obtain rfl := Option.some.inj h
  have hseq : ∀ (j : ℕ) (q₁ : Sequence), (σ.running.set i none)[j]?.join = some q₁ →
      j ≠ i ∧ σ.sequence j = some q₁ := by
    intro j q₁ hj
    have hset := sequence_set (j := j) σ.memory σ.cached none hin
    rw [sequence] at hset
    rw [hset] at hj
    split at hj
    · cases hj
    · exact ⟨‹_›, hj⟩
  have hsound := hs.recount kv' (σ.running.set i none) σ.cached hrec
    (fun g => ?_) (fun j q₁ hj => (hseq j q₁ hj).2) fun j q₁ hj a g hg => ?_
  · refine ⟨hsound, frame_of_rows hs hsound rfl fun j q₁ q₂ hj hj' => ?_⟩
    rw [Option.some.inj (((hseq j q₂ hj').2).symm.trans hj)]
  · have hset := Holders.total_set (held_getElem? hi) [] g
    have hheld : held (σ.running.set i none) = (held σ.running).set i [] := by
      rw [held, List.map_set]
      rfl
    have := hs.counted g
    have := hle g
    rw [hr, hheld]
    rw [List.count_nil] at hset
    omega
  · obtain ⟨hji, hj⟩ := hseq j q₁ hj
    by_cases hone : kv'.groupRefs g = 1
    · exact Or.inl hone
    · refine Or.inr ((hs.written j q₁ hj a g hg).resolve_left fun hrefs => hone ?_)
      have hadd := Holders.count_add_count_le_total (a := g) (held_getElem? hj)
        (held_getElem? hi) hji
      have hpos := List.count_pos_iff.mpr (List.mem_of_getElem? hg)
      have := hs.counted g
      have := hr g
      omega

/-- The groups a request holds and the tree's among them lose no writer by one more hold. -/
theorem Sound.retained (hs : σ.Sound P total) {groups : List PageGroup} (fresh : List PageGroup)
    (hg : ∀ g ∈ groups, ∀ (i : ℕ) (q : Sequence) (a : ℕ), σ.sequence i = some q →
      q.lease.held[a]? = some g → q.Written σ.memory ((a + 1) * P))
    {kv' : SharedPagedKv} (hfresh : ∀ g ∈ fresh, σ.memory.kv.groupRefs g = 0)
    (hr : ∀ g, kv'.groupRefs g =
      σ.memory.kv.groupRefs g + groups.count g + fresh.count g)
    (hrec : Recounted σ.memory.kv kv' P) :
    Sound ⟨{ σ.memory with kv := kv' }, σ.running, (groups ++ fresh) ++ σ.cached⟩ P total := by
  refine hs.recount kv' σ.running _ hrec (fun g => ?_) (fun i q hi => hi) fun i q hi a g hga => ?_
  · rw [hr, hs.counted g, List.count_append, List.count_append]
    omega
  · by_cases hmem : g ∈ groups
    · exact Or.inr (hg g hmem i q a hi hga)
    · have hne : g ∉ fresh := by
        intro hm
        have := hs.refs_pos hi hga
        rw [hfresh g hm] at this
        exact absurd this (lt_irrefl 0)
      rw [hr, List.count_eq_zero.mpr hmem, List.count_eq_zero.mpr hne]
      exact hs.written i q hi a g hga

theorem publish_sound {pages : List ℕ} (hs : σ.Sound P total)
    (h : σ.publish i pages = some σ') : σ'.Sound P total ∧ Frame σ σ' := by
  unfold publish at h
  obtain ⟨q, hi, h⟩ := Option.bind_eq_some_iff.mp h
  rw [hs.backed.blockSize_eq] at h
  simp only [Option.bind_eq_bind, Option.bind_some] at h
  split at h
  swap
  · cases h
  rename_i hguard
  obtain ⟨hrest, hpages⟩ := hguard
  obtain ⟨groups, hgroups, h⟩ := Option.bind_eq_some_iff.mp h
  have hp := hs.placed i q hi
  -- a published group stands in the lease at a page the pass has passed
  have hat : ∀ g ∈ groups, ∃ a, q.lease.held[a]? = some g ∧ (a + 1) * P ≤ q.pos := by
    intro g hg
    obtain ⟨k, hk⟩ := List.mem_iff_getElem?.mp hg
    rw [mapM_getElem? hgroups k] at hk
    obtain ⟨a, ha, hga⟩ := Option.bind_eq_some_iff.mp hk
    have hga := Option.join_eq_some_iff.mp hga
    rw [hp.groups, List.getElem?_map] at hga
    obtain ⟨g', hg', heq⟩ := Option.map_eq_some_iff.mp hga
    obtain rfl := Option.some.inj heq
    exact ⟨a, hg', hpages a (List.mem_of_getElem? ha)⟩
  have hlive : ∀ g ∈ groups, 0 < σ.memory.kv.groupRefs g := by
    intro g hg
    obtain ⟨a, ha, -⟩ := hat g hg
    exact hs.refs_pos hi ha
  have hwritten : ∀ g ∈ groups, ∀ (j : ℕ) (q' : Sequence) (b : ℕ), σ.sequence j = some q' →
      q'.lease.held[b]? = some g → q'.Written σ.memory ((b + 1) * P) := by
    intro g hg j q' b hj hb
    obtain ⟨a, ha, hle⟩ := hat g hg
    refine hs.written_all hi ha (fun layer c r hc hr hk => ?_) hj hb
    have hmem : (c, r) ∈ q.lease.caches.zip σ.memory.rows :=
      List.mem_of_getElem? (List.getElem?_zip_eq_some.mpr ⟨hc, hr⟩)
    rw [hrest _ hmem hk]
    exact hle
  obtain ⟨kv', he, hr, hrec⟩ := retainShared_spec hs.backed hlive
  rw [he] at h
  obtain rfl := Option.some.inj h
  have hsound := hs.retained [] hwritten (by simp) (by simpa using hr) hrec
  rw [List.append_nil] at hsound
  exact ⟨hsound, frame_of_rows hs hsound rfl fun i q q' hi hi' =>
    congrArg Sequence.lease (Option.some.inj (hi'.symm.trans hi))⟩

theorem tableOf_getElem? {kv : SharedPagedKv} {groups : List PageGroup} (hb : kv.Backed P)
    (hl : layer < kv.layers.length) (hlive : ∀ g ∈ groups, 0 < kv.groupRefs g) (a : ℕ) :
    (tableOf kv groups layer)[a]? =
      groups[a]?.bind fun g => (kv.groupBlocks g).bind fun blocks => blocks[layer]? := by
  rw [tableOf, List.getElem?_map]
  cases hg : groups[a]? with
  | none => rfl
  | some g =>
    obtain ⟨bs, hbs⟩ := Option.isSome_iff_exists.mp
      (hb.groupBlocks_isSome_iff.mpr (hlive g (List.mem_of_getElem? hg)))
    have hlt : layer < bs.length := (hb.groups.width_eq g bs hbs).symm ▸ hl
    rw [Option.map_some, Option.bind_some, hbs, Option.bind_some, Option.getD_some,
      List.getD_eq_getElem _ _ hlt, List.getElem?_eq_getElem hlt]

theorem length_held_groups {kv : SharedPagedKv} (hp : q.Placed kv P total) :
    q.lease.groups.length = q.lease.held.length := by
  have := congrArg List.length hp.groups
  rwa [List.length_map] at this

/-- A table over groups only, at a length it reaches. -/
theorem placed_of_tables (kv : SharedPagedKv) (l : PagedLease) (groups : List PageGroup) (pos : ℕ)
    (hwindow : l.window = none) (hgroups : l.groups = groups.map some) (hspare : l.spare = [])
    (hlayers : l.caches.length = kv.layers.length)
    (htables : ∀ (layer : ℕ) (c : PagedKvCache), l.caches[layer]? = some c →
      c.blockTable.length = groups.length ∧ c.seqLen ≤ groups.length * P ∧ c.seqLen ≤ pos ∧
        ∀ a : ℕ, c.blockTable[a]? =
          groups[a]?.bind fun g => (kv.groupBlocks g).bind fun blocks => blocks[layer]?) :
    l.held = groups ∧ (⟨l, pos⟩ : Sequence).Placed kv P total ∧
      ∀ c ∈ l.caches, (⟨l, pos⟩ : Sequence).stray c = [] := by
  have hheld : l.held = groups := by
    rw [PagedLease.held, hgroups, hspare, List.append_nil, reduceOption_map_some]
  have hlen : l.groups.length = groups.length := by rw [hgroups, List.length_map]
  have hall : ∀ c ∈ l.caches, c.blockTable.length = groups.length ∧ c.seqLen ≤ groups.length * P ∧
      c.seqLen ≤ pos := by
    intro c hc
    obtain ⟨layer, hl⟩ := List.mem_iff_getElem?.mp hc
    obtain ⟨h₁, h₂, h₃, -⟩ := htables layer c hl
    exact ⟨h₁, h₂, h₃⟩
  have hstray : ∀ c ∈ l.caches, (⟨l, pos⟩ : Sequence).stray c = [] := by
    intro c hc
    apply List.drop_eq_nil_of_le
    rw [(hall c hc).1, hlen]
  refine ⟨hheld, ⟨hwindow, ?_, hlayers, fun layer c hc a g hg => ?_, fun c hc => ?_, fun c hc => ?_,
    fun c hc => (hall c hc).2.2, fun c hc => ?_, fun layer c hc x hx => ?_⟩, hstray⟩
  · exact hgroups.trans (congrArg _ hheld.symm)
  · rw [(htables layer c hc).2.2.2 a, show groups[a]? = some g from hheld ▸ hg]
    rfl
  · exact (hlen.trans (hall c hc).1.symm).le
  · rw [(hall c hc).1]
    exact (hall c hc).2.1
  · rw [hstray c hc]
    exact List.nodup_nil
  · rw [hstray c (List.mem_of_getElem? hc)] at hx
    cases hx

theorem acquire_sound {groups : List PageGroup} {node : Option Handle} {config : PagedKvConfig}
    {promptLen maxSeqLen : ℕ} {salt : Option ℕ} (hs : σ.Sound P total)
    (h : σ.acquirePagedCaches groups node config promptLen maxSeqLen salt = some σ') :
    σ'.Sound P total ∧ Frame σ σ' := by
  unfold acquirePagedCaches at h
  rw [hs.backed.blockSize_eq] at h
  simp only [Option.bind_eq_bind, Option.bind_some] at h
  split at h
  swap
  · cases h
  rename_i hcached
  have htwo : ∀ g ∈ groups, ∀ (j : ℕ) (q' : Sequence) (b : ℕ), σ.sequence j = some q' →
      q'.lease.held[b]? = some g → q'.Written σ.memory ((b + 1) * P) := by
    intro g hg j q' b hj hb
    have hle : q'.lease.held.count g ≤ Holders.total (held σ.running) g :=
      Holders.count_le_total (held_getElem? hj)
    have hpos := List.count_pos_iff.mpr (List.mem_of_getElem? hb)
    have htree := List.count_pos_iff.mpr (hcached g hg)
    have := hs.counted g
    exact (hs.written j q' hj b g hb).resolve_left (by omega)
  have hlive : ∀ g ∈ groups, 0 < σ.memory.kv.groupRefs g := by
    intro g hg
    have := List.count_pos_iff.mpr (hcached g hg)
    have := hs.counted g
    omega
  obtain ⟨kv₁, he, hr₁, hrec₁⟩ := retainShared_spec hs.backed hlive
  rw [he, Option.bind_some] at h
  obtain ⟨⟨lease, kv'⟩, hpass, h⟩ := Option.bind_eq_some_iff.mp h
  obtain rfl := Option.some.inj h
  have hlive₁ : ∀ g ∈ groups, 0 < kv₁.groupRefs g := by
    intro g hg
    have := hlive g hg
    rw [hr₁]
    omega
  obtain ⟨fresh, -, hgained, hlive', hlease⟩ :=
    admissionPass_gained hrec₁.backed rfl hlive₁ hs.page_pos rfl hpass
  have hfree : ∀ g ∈ fresh, σ.memory.kv.groupRefs g = 0 := by
    intro g hg
    have := hgained.free g hg
    rw [hr₁] at this
    omega
  have hrec : Recounted σ.memory.kv kv' P := by
    refine hrec₁.trans hgained.recounted fun g hg _ => ?_
    rw [hr₁]
    omega
  have hret := hs.retained fresh htwo hfree (fun g => by rw [hgained.refs, hr₁]) hrec
  -- every table of the new lease names its groups' blocks and ends on a page
  have hcaches : ∀ (layer : ℕ) (c : PagedKvCache), lease.caches[layer]? = some c →
      layer < kv'.layers.length ∧ c = ⟨tableOf kv' (groups ++ fresh) layer, groups.length * P⟩ := by
    intro layer c hc
    rw [hlease, List.getElem?_map] at hc
    obtain ⟨k, hk, rfl⟩ := Option.map_eq_some_iff.mp hc
    obtain ⟨hlt, rfl⟩ := List.getElem?_eq_some_iff.mp hk
    rw [List.length_range] at hlt
    rw [List.getElem_range]
    exact ⟨hgained.layers ▸ hlt, rfl⟩
  have hlen : (groups ++ fresh).length = groups.length + fresh.length := List.length_append
  obtain ⟨hheld, hplaced, hstray⟩ := placed_of_tables (P := P) kv' lease (groups ++ fresh)
    (groups.length * P) (by rw [hlease]; rfl) (by rw [hlease]) (by rw [hlease])
    (by rw [hlease, List.length_map, List.length_range, hgained.layers]) fun layer c hc => by
      obtain ⟨hl, rfl⟩ := hcaches layer c hc
      refine ⟨List.length_map _, Nat.mul_le_mul_right P (by omega), le_rfl, ?_⟩
      exact tableOf_getElem? hgained.backed hl hlive'
  have hsound := hret.add ⟨lease, groups.length * P⟩ (List.Perm.of_eq (by rw [hheld])) hplaced
    hstray fun a g hg => ?_
  · refine ⟨hsound, frame_of_rows hs hsound rfl fun i q q' hi hi' => ?_⟩
    have hne : i ≠ σ.running.length :=
      Nat.ne_of_lt (List.getElem?_eq_some_iff.mp (sequence_eq hi)).1
    rw [sequence_concat, if_neg hne] at hi'
    rw [Option.some.inj (hi'.symm.trans hi)]
  · change lease.held[a]? = some g at hg
    rw [hheld] at hg
    rcases Nat.lt_or_ge a groups.length with hlt | hge
    · refine Or.inr fun layer c r hc _ _ => ?_
      obtain ⟨-, rfl⟩ := hcaches layer c hc
      exact Nat.mul_le_mul_right P hlt
    · rw [List.getElem?_append_right hge] at hg
      have hmem := List.mem_of_getElem? hg
      have hzero := hgained.free g hmem
      have hone := List.nodup_iff_count_le_one.mp hgained.nodup g
      have hpos := List.count_pos_iff.mpr hmem
      refine Or.inl ?_
      change kv'.groupRefs g = 1
      rw [hgained.refs]
      omega

/-- A table grows by what leaves the free list. -/
theorem reserve_grows {n : ℕ} {s s' : PagedKvStore} (h : c.reserve s n = some (c', s')) :
    ∃ xs rest, s.freeBlockIds = xs ++ rest ∧ c'.blockTable = c.blockTable ++ xs ∧
      c'.seqLen = c.seqLen ∧ s' = { s with freeBlockIds := rest } := by
  unfold PagedKvCache.reserve at h
  dsimp only at h
  split at h
  · cases h
  · obtain ⟨rfl, rfl⟩ := Prod.mk.inj (Option.some.inj h)
    exact ⟨_, _, (List.take_append_drop _ _).symm, rfl, rfl, rfl⟩

theorem push_grows {s s' : PagedKvStore} (h : c.push s = some (c', s')) :
    ∃ xs rest, s.freeBlockIds = xs ++ rest ∧ c'.blockTable = c.blockTable ++ xs ∧
      c'.seqLen = c.seqLen + 1 ∧ s' = { s with freeBlockIds := rest } ∧
      c.seqLen / s.blockSize < c'.blockTable.length := by
  unfold PagedKvCache.push PagedKvStore.acquireBlock at h
  by_cases hle : c.blockTable.length ≤ c.seqLen / s.blockSize
  · cases hfree : s.freeBlockIds with
    | nil => simp [hle, hfree] at h
    | cons x rest =>
      simp only [hle, hfree, if_true, Option.bind_eq_bind, Option.bind_some,
        Option.ite_none_right_eq_some, Option.some.injEq, Prod.mk.injEq] at h
      obtain ⟨hlt, rfl, rfl⟩ := h
      exact ⟨[x], rest, rfl, rfl, rfl, rfl, hlt⟩
  · simp only [hle, if_false, Option.bind_eq_bind, Option.bind_some,
      Option.ite_none_right_eq_some, Option.some.injEq, Prod.mk.injEq] at h
    obtain ⟨hlt, rfl, rfl⟩ := h
    exact ⟨[], s.freeBlockIds, rfl, (List.append_nil _).symm, rfl, rfl, hlt⟩

/-- One table that moved on leaves it to the rows. -/
theorem frame_of_grown {xs : List ℕ} (hs : σ.Sound P total) (hs' : σ'.Sound P total)
    (hi : σ.sequence i = some q) (hc : q.lease.caches[layer]? = some c)
    (htable : c'.blockTable = c.blockTable ++ xs)
    (hrun : σ'.running = σ.running.set i (some (grown q layer c')))
    (hrows : ∀ (j : ℕ) (q₁ : Sequence), σ.sequence j = some q₁ → ∀ (ℓ : ℕ) (c₁ : PagedKvCache),
      q₁.lease.caches[ℓ]? = some c₁ → ∀ r, σ.memory.rows[ℓ]? = some r →
        ∃ r', σ'.memory.rows[ℓ]? = some r' ∧ ∀ p < c₁.seqLen, ∀ x,
          c₁.blockTable[p / P]? = some x → r'.rowAt P x (p % P) = r.rowAt P x (p % P)) :
    Frame σ σ' := by
  refine frame_of hs hs' fun j q₁ q₂ hj hj' ℓ c₁ hc₁ => ?_
  have hrow := hrows j q₁ hj ℓ c₁ hc₁
  rw [sequence, hrun] at hj'
  have hset := sequence_set (j := j) σ.memory σ.cached (some (grown q layer c'))
    (List.getElem?_eq_some_iff.mp (sequence_eq hi)).1
  rw [sequence] at hset
  rw [hset] at hj'
  split at hj'
  · subst j
    obtain rfl : q = q₁ := Option.some.inj (hi.symm.trans hj)
    obtain rfl := Option.some.inj hj'
    rw [caches_grown hc]
    by_cases hne : ℓ = layer
    · subst hne
      obtain rfl : c = c₁ := Option.some.inj (hc.symm.trans hc₁)
      rw [if_pos rfl]
      exact ⟨c', rfl, fun a ha => by rw [htable, List.getElem?_append_left ha], hrow⟩
    · rw [if_neg hne]
      exact ⟨c₁, hc₁, fun _ _ => rfl, hrow⟩
  · obtain rfl := Option.some.inj (hj'.symm.trans hj)
    exact ⟨c₁, hc₁, fun _ _ => rfl, hrow⟩

theorem reserve_sound {n : ℕ} (hs : σ.Sound P total) (h : σ.reserve i layer n = some σ') :
    σ'.Sound P total ∧ Frame σ σ' := by
  unfold reserve at h
  obtain ⟨q, hi, h⟩ := Option.bind_eq_some_iff.mp h
  obtain ⟨⟨lease, kv'⟩, hat, h⟩ := Option.bind_eq_some_iff.mp h
  obtain rfl := Option.some.inj h
  unfold PagedLease.reserveAt at hat
  obtain ⟨c, hc, hat⟩ := Option.bind_eq_some_iff.mp hat
  obtain ⟨s, hl, hat⟩ := Option.bind_eq_some_iff.mp hat
  obtain ⟨⟨c', s'⟩, hres, hat⟩ := Option.bind_eq_some_iff.mp hat
  obtain ⟨rfl, rfl⟩ := Prod.mk.inj (Option.some.inj hat)
  obtain ⟨xs, rest, hfree, htable, hlen, rfl⟩ := reserve_grows hres
  have hp := hs.placed i q hi
  have hmem := List.mem_of_getElem? hc
  have hsound := hs.grow c' hi hc hl hfree htable hlen.ge (hlen.trans_le (hp.ahead c hmem)) (by
    rw [hlen, htable, List.length_append]
    exact (hp.reach c hmem).trans (Nat.mul_le_mul_right P (Nat.le_add_right _ _)))
  exact ⟨hsound, frame_of_grown hs hsound hi hc htable rfl
    fun j q₁ hj ℓ c₁ hc₁ r hr => ⟨r, hr, fun _ _ _ _ => rfl⟩⟩

theorem push_sound {k v : List α} (hs : σ.Sound P total) (h : σ.push i layer k v = some σ') :
    σ'.Sound P total ∧ Frame σ σ' := by
  unfold push at h
  obtain ⟨q, hi, h⟩ := Option.bind_eq_some_iff.mp h
  obtain ⟨c, hc, h⟩ := Option.bind_eq_some_iff.mp h
  split at h
  swap
  · cases h
  rename_i hpos
  obtain ⟨⟨lease, memory⟩, hat, h⟩ := Option.bind_eq_some_iff.mp h
  obtain rfl := Option.some.inj h
  unfold PagedLease.pushAt at hat
  rw [hc, Option.bind_eq_bind, Option.bind_some] at hat
  obtain ⟨s, hl, hat⟩ := Option.bind_eq_some_iff.mp hat
  obtain ⟨r, hr, hat⟩ := Option.bind_eq_some_iff.mp hat
  obtain ⟨⟨c', s', r'⟩, hrows, hat⟩ := Option.bind_eq_some_iff.mp hat
  obtain ⟨rfl, rfl⟩ := Prod.mk.inj (Option.some.inj hat)
  unfold PagedKvCache.pushRows at hrows
  obtain ⟨⟨c₁, s₁⟩, hpush, hrows⟩ := Option.bind_eq_some_iff.mp hrows
  obtain ⟨id, hid, hrows⟩ := Option.bind_eq_some_iff.mp hrows
  have hput : r.put s.blockSize id (c.seqLen % s.blockSize) k v = some r' ∧ c₁ = c' ∧ s₁ = s' := by
    obtain ⟨r₁, hk, hrows⟩ := Option.bind_eq_some_iff.mp hrows
    obtain ⟨r₂, hv, hrows⟩ := Option.bind_eq_some_iff.mp hrows
    simp only [Option.some.injEq, Prod.mk.injEq] at hrows
    obtain ⟨rfl, rfl, rfl⟩ := hrows
    exact ⟨Option.bind_eq_some_iff.mpr ⟨r₁, hk, hv⟩, rfl, rfl⟩
  obtain ⟨hput, rfl, rfl⟩ := hput
  have hP := hs.backed.block_size s (List.mem_of_getElem? hl)
  rw [hP] at hput hid
  obtain ⟨xs, rest, hfree, htable, hlen, rfl, hfit⟩ := push_grows hpush
  rw [hP] at hfit
  have hp := hs.placed i q hi
  have hmem := List.mem_of_getElem? hc
  have hshape := (LayerRows.put_spec hput).2.2.1
  -- the table before the length moves on
  have hbefore := hs.grow ⟨c₁.blockTable, c.seqLen⟩ hi hc hl hfree htable le_rfl
    (hp.ahead c hmem) (by
      rw [htable, List.length_append]
      exact (hp.reach c hmem).trans (Nat.mul_le_mul_right P (Nat.le_add_right _ _)))
  have hafter := hs.grow c₁ hi hc hl hfree htable (hlen ▸ Nat.le_succ _) (hlen ▸ hpos) (by
    rw [hlen]
    exact (Nat.div_lt_iff_lt_mul hs.page_pos).mp hfit)
  have hrlt := (List.getElem?_eq_some_iff.mp hr).1
  have hsound := hafter.rerow (σ.memory.rows.set layer r') (List.length_set ..) fun ℓ r₁ hr₁ => by
    by_cases hne : layer = ℓ
    · subst hne
      rw [List.getElem?_set_self hrlt] at hr₁
      obtain rfl := Option.some.inj hr₁
      exact ⟨r, hr, hshape⟩
    · rw [List.getElem?_set_ne hne] at hr₁
      exact ⟨r₁, hr₁, ⟨rfl, rfl, rfl, rfl⟩⟩
  refine ⟨hsound, frame_of_grown hs hsound hi hc htable rfl fun j q₁ hj ℓ c₂ hc₂ r₂ hr₂ => ?_⟩
  by_cases hne : layer = ℓ
  swap
  · exact ⟨r₂, (List.getElem?_set_ne hne).trans hr₂, fun _ _ _ _ => rfl⟩
  subst hne
  obtain rfl : r = r₂ := Option.some.inj (hr.symm.trans hr₂)
  refine ⟨r', List.getElem?_set_self hrlt, fun p hlt x hx => ?_⟩
  have hmod : ∀ n, n % P < P := fun n => Nat.mod_lt n hs.page_pos
  by_cases hk : r.Keeps
  swap
  · exact LayerRows.put_rowAt_of_not_keeps hput hk (hs.fits r (List.mem_of_getElem? hr))
      (hs.block_lt hj hc₂ hx) (hmod p)
  refine LayerRows.put_rowAt_ne hput (hmod _) (hmod p) ?_
  rintro rfl hoff
  -- one cell would be below a length and at the end of what is written
  have hapart : i = j → c.seqLen / P ≠ p / P := by
    rintro rfl hpage
    obtain rfl : q = q₁ := Option.some.inj (hi.symm.trans hj)
    obtain rfl : c = c₂ := Option.some.inj (hc.symm.trans hc₂)
    have h₁ := Nat.div_add_mod p P
    have h₂ := Nat.div_add_mod c.seqLen P
    rw [hpage] at h₂
    omega
  have hin : i < σ.running.length := (List.getElem?_eq_some_iff.mp (sequence_eq hi)).1
  obtain ⟨q₂, c₃, hj', hc₃, hx'⟩ : ∃ q₂ c₃, Serving.sequence
      ⟨⟨taken σ.memory.kv layer s rest, σ.memory.rows⟩,
        σ.running.set i (some (grown q layer ⟨c₁.blockTable, c.seqLen⟩)), σ.cached⟩ j = some q₂ ∧
      q₂.lease.caches[layer]? = some c₃ ∧ c₃.blockTable[p / P]? = some x := by
    rw [sequence_set _ _ _ hin]
    by_cases hji : j = i
    · subst hji
      obtain rfl : q = q₁ := Option.some.inj (hi.symm.trans hj)
      obtain rfl : c = c₂ := Option.some.inj (hc.symm.trans hc₂)
      refine ⟨_, ⟨c₁.blockTable, c.seqLen⟩, if_pos rfl, ?_, ?_⟩
      · rw [caches_grown hc, if_pos rfl]
      · dsimp only
        rw [htable, List.getElem?_append_left (List.getElem?_eq_some_iff.mp hx).1, hx]
    · exact ⟨q₁, c₂, (if_neg hji).trans hj, hc₂, hx⟩
  have hself : Serving.sequence ⟨⟨taken σ.memory.kv layer s rest, σ.memory.rows⟩,
      σ.running.set i (some (grown q layer ⟨c₁.blockTable, c.seqLen⟩)), σ.cached⟩ i =
        some (grown q layer ⟨c₁.blockTable, c.seqLen⟩) := by
    rw [sequence_set _ _ _ hin, if_pos rfl]
  have hcself : (grown q layer ⟨c₁.blockTable, c.seqLen⟩).lease.caches[layer]? =
      some ⟨c₁.blockTable, c.seqLen⟩ := by
    rw [caches_grown hc, if_pos rfl]
  have hw := hbefore.block_unique hself hj' hcself hc₃ hid hx' hapart
  have hle := hw layer _ r hcself hr hk
  have hgt := (Nat.div_lt_iff_lt_mul hs.page_pos).mp (Nat.lt_succ_self (c.seqLen / P))
  exact absurd hle (Nat.not_le.mpr hgt)

theorem seqLen_le {kv : SharedPagedKv} (hp : q.Placed kv P total) : q.lease.seqLen ≤ q.pos := by
  unfold PagedLease.seqLen
  cases hc : q.lease.caches.head? with
  | none => exact Nat.zero_le _
  | some c => exact hp.ahead c (List.mem_of_head? hc)

section Forking

variable {l : PagedLease} {m m' : PagedMemory α} {kv' : SharedPagedKv} {fresh : List PageGroup}
  {result : Except ForkRefused PagedLease}

/-- A fork that was taken: what it shares, what is fresh, and the copy between. -/
structure Forked (m : PagedMemory α) (P : ℕ) (l : PagedLease) (fresh : List PageGroup)
    (kv : SharedPagedKv) (f : PagedLease) (m' : PagedMemory α) : Prop where
  shared_le : l.seqLen / P ≤ l.held.length
  length : fresh.length = l.held.length - l.seqLen / P
  nodup : fresh.Nodup
  free : ∀ g ∈ fresh, m.kv.groupRefs g = 0
  refs : ∀ g, kv.groupRefs g =
    m.kv.groupRefs g + (l.held.take (l.seqLen / P)).count g + fresh.count g
  recounted : Recounted m.kv kv P
  copied : l.copyTail P fresh { m with kv := kv } = some m'
  retabled : retableAll m'.kv (l.held.take (l.seqLen / P) ++ fresh) l.caches = some f.caches
  lease : f = ⟨f.caches, (l.held.take (l.seqLen / P) ++ fresh).map some, [], none, false, l.salt,
    none⟩

/-- A fork is refused with every hold as it was, or taken. -/
theorem fork_cases (hb : m.kv.Backed P) (hwindow : l.window = none)
    (hgroups : l.groups = l.held.map some) (hlive : ∀ g ∈ l.held, 0 < m.kv.groupRefs g)
    (h : l.fork m = some (result, m')) :
    (∃ why kv', result = .error why ∧ m' = { m with kv := kv' } ∧
      (∀ g, kv'.groupRefs g = m.kv.groupRefs g) ∧ Recounted m.kv kv' P) ∨
    ∃ f fresh kv, result = .ok f ∧ Forked m P l fresh kv f m' := by
  have hlen : l.groups.length = l.held.length := by
    have := congrArg List.length hgroups
    rwa [List.length_map] at this
  unfold PagedLease.fork at h
  rw [hwindow, hb.blockSize_eq] at h
  simp only [Option.isSome_none, Bool.false_eq_true, if_false, Option.bind_eq_bind,
    Option.bind_some, hlen] at h
  split at h
  · obtain ⟨rfl, rfl⟩ := Prod.mk.inj (Option.some.inj h)
    exact Or.inl ⟨_, m.kv, rfl, rfl, fun _ => rfl, .refl hb⟩
  rename_i hshared
  obtain ⟨fresh, kv₁, he, hle, hgained⟩ := gather_gained (l.held.length - l.seqLen / P) hb []
  rw [List.nil_append] at he
  simp only [he] at h
  split at h
  · -- short of groups: what was gathered goes back
    have hcount : ∀ g, fresh.count g ≤ kv₁.groupRefs g := by
      intro g
      rw [hgained.refs]
      exact Nat.le_add_left _ _
    obtain ⟨kv₂, hrel, hr, hrec⟩ := releaseAll_spec hgained.backed hcount
    rw [hrel] at h
    obtain ⟨rfl, rfl⟩ := Prod.mk.inj (Option.some.inj h)
    refine Or.inl ⟨_, kv₂, rfl, rfl, fun g => ?_, hgained.recounted.trans hrec fun g hg _ => ?_⟩
    · rw [hr, hgained.refs, Nat.add_sub_cancel]
    · rw [hgained.refs]
      exact Nat.add_pos_left hg _
  rename_i henough
  have hlive₁ : ∀ g ∈ l.held.take (l.seqLen / P), 0 < kv₁.groupRefs g := by
    intro g hg
    rw [hgained.refs]
    exact Nat.add_pos_left (hlive g (List.mem_of_mem_take hg)) _
  obtain ⟨kv₂, hret, hr, hrec⟩ := retainShared_spec hgained.backed hlive₁
  rw [hgroups, ← List.map_take, hret] at h
  simp only [Option.bind_some] at h
  obtain ⟨m₁, hcopy, h⟩ := Option.bind_eq_some_iff.mp h
  obtain ⟨caches, htable, h⟩ := Option.bind_eq_some_iff.mp h
  obtain ⟨rfl, rfl⟩ := Prod.mk.inj (Option.some.inj h)
  refine Or.inr ⟨_, fresh, kv₂, rfl, Nat.not_lt.mp hshared, by omega, hgained.nodup, hgained.free,
    fun g => ?_, hgained.recounted.trans hrec fun g hg _ => ?_, hcopy, htable, rfl⟩
  · rw [hr, hgained.refs]
    omega
  · rw [hgained.refs]
    exact Nat.add_pos_left hg _

/-- The store of a fork, before the new lease has its holds. -/
theorem Forked.retained {f : PagedLease} {kv : SharedPagedKv} (hs : σ.Sound P total)
    (hi : σ.sequence i = some q) (hrest : q.AtRest σ.memory)
    (hf : Forked σ.memory P q.lease fresh kv f m') :
    Sound ⟨{ σ.memory with kv := kv }, σ.running,
      (q.lease.held.take (q.lease.seqLen / P) ++ fresh) ++ σ.cached⟩ P total := by
  refine hs.retained fresh (fun g hg j q' b hj hb => ?_) hf.free hf.refs hf.recounted
  obtain ⟨a, ha⟩ := List.mem_iff_getElem?.mp hg
  rw [List.getElem?_take] at ha
  split at ha
  swap
  · cases ha
  rename_i hlt
  refine hs.written_all hi ha (fun layer c r hc hr hk => ?_) hj hb
  have hmem : (c, r) ∈ q.lease.caches.zip σ.memory.rows :=
    List.mem_of_getElem? (List.getElem?_zip_eq_some.mpr ⟨hc, hr⟩)
  rw [hrest _ hmem hk]
  exact (Nat.mul_le_mul_right P hlt).trans ((Nat.div_mul_le_self _ _).trans
    (seqLen_le (hs.placed i q hi)))

/-- What the copy of the tail leaves of a layer's rows: the blocks of the running requests are
as they were, and the fresh group's block reads as the tail's does. -/
structure Copied (σ : Serving α) (P : ℕ) (kv : SharedPagedKv) (q : Sequence)
    (fresh : List PageGroup) (layer : ℕ) (r r' : LayerRows α) : Prop where
  shape : LayerRows.SameShape r r'
  kept : ∀ (j : ℕ) (q₁ : Sequence) (c₁ : PagedKvCache) (a x : ℕ), σ.sequence j = some q₁ →
    q₁.lease.caches[layer]? = some c₁ → c₁.blockTable[a]? = some x → ∀ o < P,
      r'.rowAt P x o = r.rowAt P x o
  tail : ∀ (tail first : PageGroup) (s d : ℕ), q.lease.seqLen % P ≠ 0 →
    q.lease.held[q.lease.seqLen / P]? = some tail → fresh.head? = some first →
    ((kv.groupBlocks tail).bind fun blocks => blocks[layer]?) = some s →
    ((kv.groupBlocks first).bind fun blocks => blocks[layer]?) = some d → ∀ o < P,
      r'.rowAt P d o = r.rowAt P s o

/-- A block of a group that had no holder is in no running table. -/
theorem not_named {kv : SharedPagedKv} {cached' : List PageGroup} (hs : σ.Sound P total)
    (hs₂ : Sound ⟨{ σ.memory with kv := kv }, σ.running, cached'⟩ P total)
    (hg : σ.memory.kv.groupRefs g = 0) {bs : List ℕ} (hbs : kv.groupBlocks g = some bs)
    (hx : bs[layer]? = some x) (hj : σ.sequence j = some q')
    (hc : q'.lease.caches[layer]? = some c) : c.blockTable[a]? ≠ some x := by
  intro hxa
  have hlt : layer < kv.layers.length :=
    (hs₂.placed j q' hj).layers ▸ (List.getElem?_eq_some_iff.mp hc).1
  rcases hs₂.block_cases hj hc hxa with ⟨g', bs', hg', hbs', hgx⟩ | ⟨-, hax⟩
  · obtain rfl := group_of_block hs₂.backed hlt hbs' hbs hgx hx
    have := hs.refs_pos hj hg'
    rw [hg] at this
    exact absurd this (lt_irrefl 0)
  · exact ((hs₂.placed j q' hj).stray layer c hc x (List.mem_of_getElem? hax)).2 (mem_pool hbs hx)

theorem Forked.copy {f : PagedLease} {kv : SharedPagedKv} (hs : σ.Sound P total)
    (hi : σ.sequence i = some q) (hrest : q.AtRest σ.memory)
    (hf : Forked σ.memory P q.lease fresh kv f m') :
    m'.kv = kv ∧ m'.rows.length = σ.memory.rows.length ∧
      ∀ (layer : ℕ) (r : LayerRows α), σ.memory.rows[layer]? = some r →
        ∃ r', m'.rows[layer]? = some r' ∧ Copied σ P kv q fresh layer r r' := by
  have hs₂ := hf.retained hs hi hrest
  have hsame : ∀ r : LayerRows α, LayerRows.SameShape r r := fun r => ⟨rfl, rfl, rfl, rfl⟩
  have hcopy := hf.copied
  unfold PagedLease.copyTail at hcopy
  split at hcopy
  · rename_i hpage
    obtain rfl := Option.some.inj hcopy
    exact ⟨rfl, rfl, fun layer r hr => ⟨r, hr, hsame r, fun _ _ _ _ _ _ _ _ _ _ => rfl,
      fun _ _ _ _ hragged => absurd hpage hragged⟩⟩
  rw [(hs.placed i q hi).groups, List.getElem?_map] at hcopy
  cases htail : q.lease.held[q.lease.seqLen / P]? with
  | none =>
    rw [htail] at hcopy
    obtain rfl := Option.some.inj hcopy
    refine ⟨rfl, rfl, fun layer r hr => ⟨r, hr, hsame r, fun _ _ _ _ _ _ _ _ _ _ => rfl,
      fun tail _ _ _ _ ht => ?_⟩⟩
    rw [htail] at ht
    cases ht
  | some tail =>
    rw [htail] at hcopy
    obtain ⟨first, hfirst, hcopy⟩ := Option.bind_eq_some_iff.mp hcopy
    unfold PagedMemory.copyGroup at hcopy
    rw [hs₂.backed.blockSize_eq] at hcopy
    simp only [Option.bind_eq_bind, Option.bind_some] at hcopy
    obtain ⟨source, hsource, hcopy⟩ := Option.bind_eq_some_iff.mp hcopy
    obtain ⟨target, htarget, hcopy⟩ := Option.bind_eq_some_iff.mp hcopy
    obtain ⟨rows, hrows, hcopy⟩ := Option.bind_eq_some_iff.mp hcopy
    obtain rfl := Option.some.inj hcopy
    obtain ⟨hlen, hget⟩ := copyBlocks_spec hrows
    refine ⟨rfl, hlen, fun layer r hr => ?_⟩
    have hlt : layer < kv.layers.length :=
      hs₂.rows_length ▸ (List.getElem?_eq_some_iff.mp hr).1
    have hsrc := List.getElem?_eq_getElem
      (lt_of_lt_of_eq hlt (hs₂.backed.groups.width_eq tail source hsource).symm)
    have hdst := List.getElem?_eq_getElem
      (lt_of_lt_of_eq hlt (hs₂.backed.groups.width_eq first target htarget).symm)
    obtain ⟨r', hr', hblock⟩ := hget layer r _ _ hr hsrc hdst
    obtain ⟨hshape, hread, hother⟩ := LayerRows.copyBlock_spec hblock
    refine ⟨r', hr', hshape, fun j q₁ c₁ a x hj hc₁ hx o ho => hother x o ?_ ho,
      fun tail' first' s d _ ht hf' hsd hdd o ho => ?_⟩
    · rintro rfl
      exact not_named hs hs₂ (hf.free first (List.mem_of_head? hfirst)) htarget hdst hj hc₁ hx
    · obtain rfl := Option.some.inj (htail.symm.trans ht)
      obtain rfl := Option.some.inj (hfirst.symm.trans hf')
      have hsd' : source[layer]? = some s := by
        have : kv.groupBlocks tail = some source := hsource
        rwa [this] at hsd
      have hdd' : target[layer]? = some d := by
        have : kv.groupBlocks first = some target := htarget
        rwa [this] at hdd
      rw [← Option.some.inj (hsrc.symm.trans hsd'), ← Option.some.inj (hdst.symm.trans hdd')]
      exact hread o ho

/-- The tables of a fork: the shared groups' blocks, then the fresh ones'. -/
theorem Forked.tables {f : PagedLease} {kv : SharedPagedKv} (hs : σ.Sound P total)
    (hi : σ.sequence i = some q) (hrest : q.AtRest σ.memory)
    (hf : Forked σ.memory P q.lease fresh kv f m') (hc : f.caches[layer]? = some c) :
    ∃ c₀, q.lease.caches[layer]? = some c₀ ∧ c.seqLen = c₀.seqLen ∧
      c₀.blockTable.length ≤ q.lease.held.length ∧ c.blockTable.length = q.lease.held.length ∧
      ∀ a : ℕ, c.blockTable[a]? = (q.lease.held.take (q.lease.seqLen / P) ++ fresh)[a]?.bind
        fun g => (kv.groupBlocks g).bind fun blocks => blocks[layer]? := by
  obtain ⟨-, htables⟩ := retableAll_spec hf.retabled
  obtain ⟨c₀, hc₀, hseq, hle, hlen, hget⟩ := htables layer c hc
  rw [(hf.copy hs hi hrest).1] at hget
  have hcount : (q.lease.held.take (q.lease.seqLen / P) ++ fresh).length = q.lease.held.length := by
    have hshared := hf.shared_le
    have hfresh := hf.length
    rw [List.length_append, List.length_take]
    omega
  exact ⟨c₀, hc₀, hseq, hcount ▸ hle, hlen.trans hcount, hget⟩

theorem Forked.sound {f : PagedLease} {kv : SharedPagedKv} (hs : σ.Sound P total)
    (hi : σ.sequence i = some q) (hrest : q.AtRest σ.memory)
    (hf : Forked σ.memory P q.lease fresh kv f m') :
    Sound ⟨m', σ.running ++ [some { q with lease := f }], σ.cached⟩ P total := by
  have hs₂ := hf.retained hs hi hrest
  obtain ⟨hkv, hrlen, hcopied⟩ := hf.copy hs hi hrest
  obtain ⟨kv', rows'⟩ := m'
  obtain rfl : kv' = kv := hkv
  have hs₃ := hs₂.rerow rows' hrlen fun layer r' hr' => by
    have hlt := lt_of_lt_of_eq (List.getElem?_eq_some_iff.mp hr').1 hrlen
    obtain ⟨r₁, hr₁, hcopy⟩ := hcopied layer _ (List.getElem?_eq_getElem hlt)
    obtain rfl := Option.some.inj (hr'.symm.trans hr₁)
    exact ⟨_, List.getElem?_eq_getElem hlt, hcopy.shape⟩
  have hp := hs.placed i q hi
  have hshared := hf.shared_le
  have hfresh := hf.length
  have hcount : (q.lease.held.take (q.lease.seqLen / P) ++ fresh).length = q.lease.held.length := by
    rw [List.length_append, List.length_take]
    omega
  obtain ⟨hheld, hplaced, hstray⟩ := placed_of_tables (P := P) kv' f
    (q.lease.held.take (q.lease.seqLen / P) ++ fresh) q.pos (by rw [hf.lease]) (by rw [hf.lease])
    (by rw [hf.lease])
    ((retableAll_spec hf.retabled).1.trans (hp.layers.trans hf.recounted.layers.symm))
    fun layer c hc => by
      obtain ⟨c₀, hc₀, hseq, hle, hlen, hget⟩ := hf.tables hs hi hrest hc
      have hmem := List.mem_of_getElem? hc₀
      refine ⟨hlen.trans hcount.symm, ?_, hseq.trans_le (hp.ahead c₀ hmem), hget⟩
      rw [hcount, hseq]
      exact (hp.reach c₀ hmem).trans (Nat.mul_le_mul_right P hle)
  refine hs₃.add ⟨f, q.pos⟩ (List.Perm.of_eq (by rw [hheld])) hplaced hstray fun a g hg => ?_
  change f.held[a]? = some g at hg
  rw [hheld] at hg
  have htake : (q.lease.held.take (q.lease.seqLen / P)).length = q.lease.seqLen / P :=
    List.length_take_of_le hshared
  rcases Nat.lt_or_ge a (q.lease.seqLen / P) with hlt | hge
  · -- a shared page is below the length of every layer that keeps rows
    refine Or.inr fun layer c r hc hr hk => ?_
    obtain ⟨c₀, hc₀, hseq, -⟩ := hf.tables hs hi hrest hc
    have hrl := lt_of_lt_of_eq (List.getElem?_eq_some_iff.mp hr).1 hrlen
    have hr₀ := List.getElem?_eq_getElem hrl
    obtain ⟨r₁, hr₁, hcopy⟩ := hcopied layer _ hr₀
    obtain rfl := Option.some.inj (hr.symm.trans hr₁)
    have hmem : (c₀, σ.memory.rows[layer]) ∈ q.lease.caches.zip σ.memory.rows :=
      List.mem_of_getElem? (List.getElem?_zip_eq_some.mpr ⟨hc₀, hr₀⟩)
    have hpos := hrest _ hmem (hcopy.shape.keeps_iff.mp hk)
    have hle := Nat.mul_le_mul_right P hlt
    have hdiv := Nat.div_mul_le_self q.lease.seqLen P
    have hseqLen := seqLen_le hp
    dsimp only at hpos
    rw [hseq, hpos]
    exact hle.trans (hdiv.trans hseqLen)
  · rw [List.getElem?_append_right (htake.trans_le hge)] at hg
    have hmem := List.mem_of_getElem? hg
    have hzero := hf.free g hmem
    have hone := List.nodup_iff_count_le_one.mp hf.nodup g
    have hpos := List.count_pos_iff.mpr hmem
    have hnot : g ∉ q.lease.held.take (q.lease.seqLen / P) := by
      intro hm
      obtain ⟨b, hb⟩ := List.mem_iff_getElem?.mp (List.mem_of_mem_take hm)
      have := hs.refs_pos hi hb
      omega
    refine Or.inl ?_
    change kv'.groupRefs g = 1
    rw [hf.refs, List.count_eq_zero.mpr hnot]
    omega

/-- The page of a position below the length is one of the lease's. -/
theorem Forked.page_lt {f : PagedLease} {kv : SharedPagedKv} {p : ℕ} (hs : σ.Sound P total)
    (hi : σ.sequence i = some q) (hrest : q.AtRest σ.memory)
    (hf : Forked σ.memory P q.lease fresh kv f m') (hp : p < q.lease.seqLen) :
    p / P < q.lease.held.length := by
  unfold PagedLease.seqLen at hp
  cases hc : q.lease.caches.head? with
  | none =>
    rw [hc] at hp
    cases hp
  | some c =>
    rw [hc] at hp
    rw [List.head?_eq_getElem?] at hc
    have hlen := (retableAll_spec hf.retabled).1
    have hcf := List.getElem?_eq_getElem
      (lt_of_lt_of_eq (List.getElem?_eq_some_iff.mp hc).1 hlen.symm)
    obtain ⟨c₀, hc₀, -, hle, -, -⟩ := hf.tables hs hi hrest hcf
    obtain rfl := Option.some.inj (hc.symm.trans hc₀)
    have hreach := (hs.placed i q hi).reach c (List.mem_of_getElem? hc)
    exact (Nat.div_lt_iff_lt_mul hs.page_pos).mpr
      (lt_of_lt_of_le hp (hreach.trans (Nat.mul_le_mul_right P hle)))

/-- Below its length a fork reads what its original reads. -/
theorem Forked.reads {f : PagedLease} {kv : SharedPagedKv} {p : ℕ} (hs : σ.Sound P total)
    (hi : σ.sequence i = some q) (hrest : q.AtRest σ.memory)
    (hf : Forked σ.memory P q.lease fresh kv f m') (hl : layer < σ.memory.kv.layers.length)
    (hp : p < q.lease.seqLen) :
    ∃ row, σ.memory.rowAt q.lease layer p = some row ∧ m'.rowAt f layer p = some row := by
  have hplaced := hs.placed i q hi
  have hs₂ := hf.retained hs hi hrest
  obtain ⟨hkv, hrlen, hcopied⟩ := hf.copy hs hi hrest
  have hflen := (retableAll_spec hf.retabled).1
  have hcl : layer < q.lease.caches.length := hplaced.layers.symm ▸ hl
  have hc := List.getElem?_eq_getElem hcl
  have hcf := List.getElem?_eq_getElem (lt_of_lt_of_eq hcl hflen.symm)
  have hr := List.getElem?_eq_getElem (lt_of_lt_of_eq hl hs.rows_length.symm)
  obtain ⟨r', hr', hcopy⟩ := hcopied layer _ hr
  obtain ⟨c₀, hc₀, hseq, hle, hlen, hget⟩ := hf.tables hs hi hrest hcf
  obtain rfl := Option.some.inj (hc.symm.trans hc₀)
  have hpage := hf.page_lt hs hi hrest hp
  have hlong := hplaced.long _ (List.mem_of_getElem? hc)
  rw [length_held_groups hplaced] at hlong
  obtain ⟨x, hx⟩ : ∃ x, q.lease.caches[layer].blockTable[p / P]? = some x :=
    ⟨_, List.getElem?_eq_getElem (hpage.trans_le hlong)⟩
  have hg := List.getElem?_eq_getElem hpage
  have hnamed := (hs₂.placed i q hi).named layer _ hc _ _ hg
  obtain ⟨y, hy⟩ : ∃ y, f.caches[layer].blockTable[p / P]? = some y :=
    ⟨_, List.getElem?_eq_getElem (lt_of_lt_of_eq hpage hlen.symm)⟩
  have hmod := Nat.mod_lt p hs.page_pos
  obtain ⟨row, hrow⟩ := LayerRows.rowAt_isSome (hs.fits _ (List.mem_of_getElem? hr))
    (hs.block_lt hi hc hx) hmod
  have hl' : layer < m'.kv.layers.length := by
    rw [hkv, hf.recounted.layers]
    exact hl
  have hb' : m'.kv.Backed P := hkv ▸ hf.recounted.backed
  refine ⟨row, ?_, ?_⟩
  · rw [rowAt_eq hs.backed hc hr hl, hx, Option.bind_some]
    exact hrow
  rw [rowAt_eq hb' hcf hr' hl', hy, Option.bind_some, ← hrow]
  have hylink := hget (p / P)
  rw [hy] at hylink
  have htake : (q.lease.held.take (q.lease.seqLen / P)).length = q.lease.seqLen / P :=
    List.length_take_of_le hf.shared_le
  rcases Nat.lt_or_ge (p / P) (q.lease.seqLen / P) with hlt | hge
  · -- a shared page: one block under both tables
    rw [List.getElem?_append_left (hlt.trans_eq htake.symm), List.getElem?_take_of_lt hlt, hg,
      Option.bind_some, ← hnamed, hx] at hylink
    rw [Option.some.inj hylink]
    exact hcopy.kept i q _ _ _ hi hc hx _ hmod
  · -- the part-written page: a copy in the first fresh group
    have hpage_eq : p / P = q.lease.seqLen / P := le_antisymm (Nat.div_le_div_right hp.le) hge
    have hragged : q.lease.seqLen % P ≠ 0 := by
      intro hzero
      have h₁ := Nat.div_add_mod q.lease.seqLen P
      have h₂ := Nat.div_add_mod p P
      rw [hpage_eq] at h₂
      omega
    rw [List.getElem?_append_right (htake.trans_le hge), htake, hpage_eq, Nat.sub_self,
      ← List.head?_eq_getElem?] at hylink
    obtain ⟨first, hfirst, hd⟩ := Option.bind_eq_some_iff.mp hylink.symm
    have htail : q.lease.held[q.lease.seqLen / P]? = some q.lease.held[p / P] := by
      rw [← hpage_eq]
      exact hg
    refine hcopy.tail _ first _ _ hragged htail hfirst ?_ hd _ hmod
    rw [← hx]
    exact hnamed.symm

end Forking

/-- What a fork of a request leaves: a refusal leaves the requests as they are, a fork is one
more at the same lengths that reads the same rows in every layer. -/
def Copies (σ : Serving α) (i : ℕ) (σ' : Serving α) : Prop :=
  ∃ q, σ.sequence i = some q ∧ (σ'.running = σ.running ∨
    ∃ f : PagedLease, σ'.running = σ.running ++ [some ⟨f, q.pos⟩] ∧
      f.caches.map PagedKvCache.seqLen = q.lease.caches.map PagedKvCache.seqLen ∧
      ∀ layer < σ.memory.kv.layers.length, ∀ p < q.lease.seqLen, ∃ row,
        σ.memory.rowAt q.lease layer p = some row ∧ σ'.memory.rowAt f layer p = some row)

/-- Every page a request names has a holder, and its blocks are on no free list. -/
def Held (σ : Serving α) : Prop :=
  ∀ (i : ℕ) (q : Sequence), σ.sequence i = some q →
    (∀ g, some g ∈ q.lease.groups → 0 < σ.memory.kv.groupRefs g) ∧
    ∀ (layer : ℕ) (c : PagedKvCache) (s : PagedKvStore), q.lease.caches[layer]? = some c →
      σ.memory.kv.layers[layer]? = some s → ∀ id ∈ c.blockTable, id ∉ s.freeBlockIds

theorem fork_sound (hs : σ.Sound P total) (h : σ.fork i = some σ') :
    σ'.Sound P total ∧ Frame σ σ' ∧ Copies σ i σ' := by
  unfold fork at h
  obtain ⟨q, hi, h⟩ := Option.bind_eq_some_iff.mp h
  split at h
  swap
  · cases h
  rename_i hrest
  obtain ⟨⟨result, m'⟩, hfork, h⟩ := Option.bind_eq_some_iff.mp h
  have hp := hs.placed i q hi
  have hlive : ∀ g ∈ q.lease.held, 0 < σ.memory.kv.groupRefs g := by
    intro g hg
    obtain ⟨a, ha⟩ := List.mem_iff_getElem?.mp hg
    exact hs.refs_pos hi ha
  rcases fork_cases hs.backed hp.window hp.groups hlive hfork with
    ⟨why, kv', rfl, rfl, hr, hrec⟩ | ⟨f, fresh, kv, rfl, hf⟩
  · obtain rfl := Option.some.inj h
    have hsound := hs.recount kv' σ.running σ.cached hrec (fun g => by rw [hr, hs.counted g])
      (fun j q₁ hj => hj) fun j q₁ hj a g hg => by
        rw [hr]
        exact hs.written j q₁ hj a g hg
    refine ⟨hsound, frame_of_rows hs hsound rfl fun j q₁ q₂ hj hj' => ?_, q, hi, Or.inl rfl⟩
    exact congrArg Sequence.lease (Option.some.inj (hj'.symm.trans hj))
  · obtain rfl := Option.some.inj h
    have hsound := hf.sound hs hi hrest
    refine ⟨hsound, frame_of hs hsound fun j q₁ q₂ hj hj' layer c hc => ?_, q, hi,
      Or.inr ⟨f, rfl, ?_, fun layer hl p hp => hf.reads hs hi hrest hl hp⟩⟩
    · have hne : j ≠ σ.running.length :=
        Nat.ne_of_lt (List.getElem?_eq_some_iff.mp (sequence_eq hj)).1
      rw [sequence_concat, if_neg hne] at hj'
      obtain rfl := Option.some.inj (hj'.symm.trans hj)
      refine ⟨c, hc, fun _ _ => rfl, fun r hr => ?_⟩
      obtain ⟨r', hr', hcopy⟩ := (hf.copy hs hi hrest).2.2 layer r hr
      exact ⟨r', hr', fun p _ x hx =>
        hcopy.kept j q₂ c _ x hj hc hx _ (Nat.mod_lt p hs.page_pos)⟩
    · obtain ⟨hlen, htables⟩ := retableAll_spec hf.retabled
      apply List.ext_getElem?
      intro layer
      rw [List.getElem?_map, List.getElem?_map]
      cases hc : f.caches[layer]? with
      | none =>
        have hout : q.lease.caches[layer]? = none :=
          List.getElem?_eq_none (hlen ▸ List.getElem?_eq_none_iff.mp hc)
        rw [hout]
      | some c =>
        obtain ⟨c₀, hc₀, hseq, -⟩ := htables layer c hc
        rw [hc₀, Option.map_some, Option.map_some, hseq]

/-- One act keeps the invariant and every row another request reads. -/
theorem step_sound {act : Act α} (hs : σ.Sound P total) (h : σ.step act = some σ') :
    σ'.Sound P total ∧ Frame σ σ' := by
  cases act with
  | acquire groups node config promptLen maxSeqLen salt => exact acquire_sound hs h
  | publish i pages => exact publish_sound hs h
  | evict g => exact evict_sound hs h
  | forward i n => exact forward_sound hs h
  | reserve i layer n => exact reserve_sound hs h
  | push i layer k v => exact push_sound hs h
  | fork i =>
    obtain ⟨hsound, hframe, -⟩ := fork_sound hs h
    exact ⟨hsound, hframe⟩
  | drop i => exact drop_sound hs h

theorem run_sound {acts : List (Act α)} (hs : σ.Sound P total) (h : run acts σ = some σ') :
    σ'.Sound P total := by
  induction acts generalizing σ with
  | nil =>
    obtain rfl := Option.some.inj h
    exact hs
  | cons act acts ih =>
    obtain ⟨σ₁, hstep, h⟩ := Option.bind_eq_some_iff.mp h
    exact ih (step_sound hs hstep).1 h

theorem Sound.held (hs : σ.Sound P total) : σ.Held := by
  intro i q hi
  constructor
  · intro g hg
    rw [(hs.placed i q hi).groups] at hg
    obtain ⟨g', hg', heq⟩ := List.mem_map.mp hg
    obtain rfl := Option.some.inj heq
    obtain ⟨a, ha⟩ := List.mem_iff_getElem?.mp hg'
    exact hs.refs_pos hi ha
  · intro layer c s hc hl x hx
    obtain ⟨a, ha⟩ := List.mem_iff_getElem?.mp hx
    exact hs.not_free hi hc hl ha

section Runs

variable {zero : α} {widths : List (ℕ × ℕ)} {acts : List (Act α)} {σ₀ : Serving α}

theorem start_sound (hne : widths ≠ []) (h : start zero P total widths = some σ) :
    σ.Sound P total := by
  unfold start at h
  obtain ⟨kv, hkv, h⟩ := Option.bind_eq_some_iff.mp h
  obtain rfl := Option.some.inj h
  have hnew := SharedPagedKv.new_sound (List.length_pos_of_ne_nil hne) hkv
  have hP : 0 < P := by
    unfold SharedPagedKv.new PagedKvStore.new at hkv
    by_contra hzero
    rw [if_neg hzero] at hkv
    cases hkv
  have hlen : kv.layers.length = widths.length ∧ kv.groups = GroupTable.new := by
    unfold SharedPagedKv.new PagedKvStore.new at hkv
    rw [if_pos hP] at hkv
    obtain rfl := Option.some.inj hkv
    exact ⟨List.length_replicate, rfl⟩
  refine ⟨hP, hnew.backed, fun layer hl x hx => ?_, (List.length_map _).trans hlen.1.symm,
    fun r hr => ?_, fun g => ?_, fun i q hi => (nomatch hi), fun i j q q' _ hi => (nomatch hi),
    fun i q hi => (nomatch hi)⟩
  · have hk := List.getElem?_eq_getElem hl
    rw [SharedPagedKv.pool_eq hk] at hx
    exact List.mem_range.mp ((hnew.conserved layer _ hk).mem_iff.mp hx)
  · obtain ⟨w, -, rfl⟩ := List.mem_map.mp hr
    exact ⟨List.length_replicate, List.length_replicate⟩
  · dsimp only
    rw [SharedPagedKv.groupRefs, hlen.2]
    rfl

/-- A model without layers serves nothing. -/
theorem step_of_no_layers (hkv : σ.memory.kv.layers = []) (hrun : σ.running = [])
    (hcached : σ.cached = []) (act : Act α) : σ.step act = none := by
  have hblock : σ.memory.kv.blockSize = none := by rw [SharedPagedKv.blockSize, hkv]; rfl
  have hseq : ∀ i, σ.sequence i = none := fun i => by rw [sequence, hrun]; rfl
  cases act <;> simp [step, acquirePagedCaches, publish, evict, forward, reserve, push, fork, drop,
    hblock, hseq, hcached]

theorem run_of_no_layers (hkv : σ.memory.kv.layers = []) (hrun : σ.running = [])
    (hcached : σ.cached = []) (h : run acts σ = some σ') : σ' = σ := by
  cases acts with
  | nil => exact (Option.some.inj h).symm
  | cons act acts =>
    rw [run, step_of_no_layers hkv hrun hcached] at h
    cases h

/-- Forks are isolated copies. In every state a run of requests reaches, a fork is one more
request at the lengths of its original that reads, in every layer and below the length, the
same rows; whatever happens next leaves every request the rows below its lengths; and what a
request names has a holder and is not free. -/
theorem forks_isolated (hstart : start zero P total widths = some σ₀)
    (hrun : run acts σ₀ = some σ) :
    (∀ i σ', σ.step (.fork i) = some σ' → Copies σ i σ') ∧
      (∀ act σ', σ.step act = some σ' → Frame σ σ') ∧ σ.Held := by
  by_cases hne : widths = []
  · subst hne
    obtain ⟨kv, hkv, h⟩ := Option.bind_eq_some_iff.mp hstart
    obtain rfl := Option.some.inj h
    have hlayers : kv.layers = [] := by
      obtain ⟨store, -, h⟩ := Option.bind_eq_some_iff.mp hkv
      obtain rfl := Option.some.inj h
      rfl
    obtain rfl := run_of_no_layers hlayers rfl rfl hrun
    refine ⟨fun i σ' h => ?_, fun act σ' h => ?_, fun i q hi => (nomatch hi)⟩
    · rw [step_of_no_layers hlayers rfl rfl] at h
      cases h
    · rw [step_of_no_layers hlayers rfl rfl] at h
      cases h
  · have hs := run_sound (start_sound hne hstart) hrun
    exact ⟨fun i σ' h => (fork_sound hs h).2.2, fun act σ' h => (step_sound hs h).2, hs.held⟩

/-- A request of three positions on pages of two, forked between its pages, then both on. -/
theorem forks_isolated_ragged : ∃ σ₀ σ : Serving ℕ,
    start 0 2 8 [(1, 1)] = some σ₀ ∧
      run [.acquire [] none ⟨true, none, 1⟩ 3 4 none, .forward 0 3, .push 0 0 [5] [50],
        .push 0 0 [6] [60], .push 0 0 [7] [70], .fork 0, .forward 0 1, .forward 1 1,
        .push 0 0 [8] [80], .push 1 0 [9] [90]] σ₀ = some σ ∧
      (∀ i σ', σ.step (.fork i) = some σ' → Copies σ i σ') ∧
      (∀ act σ', σ.step act = some σ' → Frame σ σ') ∧ σ.Held := by
  obtain ⟨σ, h⟩ := Option.isSome_iff_exists.mp
    (show ((start 0 2 8 [(1, 1)]).bind (run [.acquire [] none ⟨true, none, 1⟩ 3 4 none,
      .forward 0 3, .push 0 0 [5] [50], .push 0 0 [6] [60], .push 0 0 [7] [70], .fork 0,
      .forward 0 1, .forward 1 1, .push 0 0 [8] [80], .push 1 0 [9] [90]])).isSome = true by
        decide +kernel)
  obtain ⟨σ₀, hstart, hrun⟩ := Option.bind_eq_some_iff.mp h
  exact ⟨σ₀, σ, hstart, hrun, forks_isolated hstart hrun⟩

end Runs

end Serving

end Frink.Paged
