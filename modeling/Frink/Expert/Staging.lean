import Frink.Expert.Residency

/-! # What a staged layer moves

Between the opening of a chunk and its end a buffer's slots are registered nowhere once a
layer was staged into it, and the slots above the buffers keep their occupants. So the plan
of a staged layer brings each row of each bank to its place in the buffer once: from the slot
the expert is resident in, or from the host.
-/

namespace Frink.Expert

open Checked

/-- Where a row of a staged bank comes from. -/
inductive Source
  | resident (slot : ℕ)
  | host (row : ℕ)
  deriving DecidableEq

/-- The rows of one bank a plan moves: the slot each lands in, and where it comes from. -/
def PrefillPlan.moves (plan : PrefillPlan) (bank : ℕ) : List (ℕ × Source) :=
  (if bank ∈ plan.gatherBanks then
    plan.gather.dstSlots.zip (plan.gather.srcSlots.map .resident) else []) ++
  (plan.entries.filter fun x => x.bank = bank).flatMap fun x =>
    (List.range x.rows).map fun i => (x.dstSlot + i, .host (x.srcRow + i))

section Runs

/-- The experts of some runs, in order. -/
def expand (runs : List MissRun) : List ℕ :=
  runs.flatMap fun run => List.range' run.start run.len

theorem expand_append (runs more : List MissRun) :
    expand (runs ++ more) = expand runs ++ expand more := List.flatMap_append

theorem expand_pushRun (runs : List MissRun) (expert : ℕ) :
    expand (pushRun runs expert) = expand runs ++ [expert] := by
  unfold pushRun
  cases hlast : runs.getLast? with
  | none =>
    rw [List.getLast?_eq_none_iff.mp hlast]
    rfl
  | some run =>
    obtain ⟨init, rfl⟩ := List.getLast?_eq_some_iff.mp hlast
    dsimp only
    split
    · rename_i hnext
      rw [List.dropLast_concat, expand_append, expand_append, List.append_assoc]
      congr 1
      simp only [expand, List.flatMap_cons, List.flatMap_nil, List.append_nil]
      rw [List.range'_concat, Nat.one_mul, hnext]
    · rw [expand_append]
      rfl

/-- Coalescing loses no expert, adds none and keeps their order. -/
theorem expand_coalesceRuns (experts : List ℕ) : expand (coalesceRuns experts) = experts := by
  have hfold : ∀ (rest : List ℕ) (runs : List MissRun),
      expand (rest.foldl pushRun runs) = expand runs ++ rest := by
    intro rest
    induction rest with
    | nil => simp
    | cons expert rest ih =>
      intro runs
      rw [List.foldl_cons, ih, expand_pushRun, List.append_assoc, List.singleton_append]
  exact hfold experts []

end Runs

section Classify

variable {snapshot : Table} {base threshold bufferBase : ℕ} {experts : List ℕ}

/-- Whether the snapshot has an expert above the buffers. -/
def hit (snapshot : Table) (base threshold expert : ℕ) : Bool :=
  (Table.look snapshot (base + expert)).any (threshold ≤ ·)

/-- The slot the snapshot has an expert in. -/
def slotIn (snapshot : Table) (base expert : ℕ) : ℕ := (Table.look snapshot (base + expert)).getD 0

theorem classify_eq (gather : GatherPlan) (missing : List ℕ)
    (hin : ∀ expert ∈ experts, base + expert < snapshot.length) :
    classify snapshot base threshold bufferBase experts gather missing = some
      (⟨gather.dstSlots ++
          (experts.filter (hit snapshot base threshold)).map fun e => asU32 (bufferBase + e),
        gather.srcSlots ++
          (experts.filter (hit snapshot base threshold)).map fun e => asU32 (slotIn snapshot base e)⟩,
      missing ++ (experts.filter fun e => !hit snapshot base threshold e).map asU32) := by
  induction experts generalizing gather missing with
  | nil => simp [classify]
  | cons expert rest ih =>
    have hrest : ∀ e ∈ rest, base + e < snapshot.length := fun e he =>
      hin e (List.mem_cons_of_mem _ he)
    obtain ⟨entry, hget⟩ : ∃ entry, snapshot[base + expert]? = some entry :=
      ⟨_, List.getElem?_eq_getElem (hin expert List.mem_cons_self)⟩
    have hlook := Table.look_eq hget
    simp only [classify, hget, Option.bind_eq_bind, Option.bind_some]
    cases entry with
    | none =>
      have hmiss : hit snapshot base threshold expert = false := by simp [hit, hlook]
      simp only [ih _ _ hrest, List.filter_cons, hmiss, Bool.not_false, if_true, List.map_cons,
        List.append_assoc, List.singleton_append, Bool.false_eq_true, if_false]
    | some slot =>
      by_cases habove : threshold ≤ slot
      · have hhit : hit snapshot base threshold expert = true := by
          simp [hit, hlook, habove]
        have hin' : slotIn snapshot base expert = slot := by simp [slotIn, hlook]
        simp only [if_pos habove, ih _ _ hrest, List.filter_cons, hhit, Bool.not_true, if_true,
          List.map_cons, List.append_assoc, List.singleton_append, Bool.false_eq_true, if_false,
          hin']
      · have hmiss : hit snapshot base threshold expert = false := by
          simp [hit, hlook, habove]
        simp only [if_neg habove, ih _ _ hrest, List.filter_cons, hmiss, Bool.not_false, if_true,
          List.map_cons, List.append_assoc, List.singleton_append, Bool.false_eq_true, if_false]

end Classify

section Entries

variable {bufferBase experts bank feat : ℕ} {runs : List MissRun} {x : BankEntry}

theorem bank_of_mem (h : x ∈ bankEntries bufferBase experts runs bank feat) : x.bank = bank := by
  unfold bankEntries at h
  split at h
  · rw [List.mem_singleton.mp h]
  · obtain ⟨run, _, rfl⟩ := List.mem_map.mp h
    rfl

/-- The entries of one bank among those of all. -/
theorem filter_entries {banks : List ℕ} {k : ℕ} (hk : k ≤ bank)
    (h : banks[bank - k]? = some feat) :
    ((banks.zipIdx k).flatMap fun x => bankEntries bufferBase experts runs x.2 x.1).filter
      (fun x => x.bank = bank) = bankEntries bufferBase experts runs bank feat := by
  induction banks generalizing k with
  | nil => cases h
  | cons first rest ih =>
    rw [List.zipIdx_cons, List.flatMap_cons, List.filter_append]
    by_cases hb : k = bank
    · subst hb
      rw [Nat.sub_self] at h
      cases h
      have hrest : (((rest.zipIdx (k + 1)).flatMap fun x =>
          bankEntries bufferBase experts runs x.2 x.1).filter fun x => x.bank = k) = [] := by
        apply List.filter_eq_nil_iff.mpr
        intro x hx
        obtain ⟨y, hy, hx⟩ := List.mem_flatMap.mp hx
        have hle := List.le_snd_of_mem_zipIdx hy
        have hbank := bank_of_mem hx
        simp only [decide_eq_true_eq]
        omega
      rw [hrest, List.append_nil]
      apply List.filter_eq_self.mpr
      intro x hx
      simpa using bank_of_mem hx
    · have hfirst : ((bankEntries bufferBase experts runs k first).filter
          fun x => x.bank = bank) = [] := by
        apply List.filter_eq_nil_iff.mpr
        intro x hx
        have hbank := bank_of_mem hx
        simp only [decide_eq_true_eq]
        omega
      rw [hfirst, List.nil_append]
      apply ih (by omega)
      rw [← h, show bank - k = (bank - (k + 1)) + 1 by omega, List.getElem?_cons_succ]

theorem mem_gatherBanks {banks : List ℕ} (h : banks[bank]? = some feat) :
    bank ∈ (banks.zipIdx.filter fun x => smallBankFeatBytes ≤ x.1).map (·.2) ↔
      smallBankFeatBytes ≤ feat := by
  simp only [List.mem_map, List.mem_filter, decide_eq_true_eq, Prod.exists, exists_eq_right]
  constructor
  · rintro ⟨feat', hm, hle⟩
    rw [List.mem_zipIdx_iff_getElem?, h] at hm
    cases hm
    exact hle
  · intro hle
    exact ⟨feat, List.mem_zipIdx_iff_getElem?.mpr h, hle⟩

/-- Host rows of a bank that ships its misses. -/
theorem rows_of_runs (hsmall : smallBankFeatBytes ≤ feat) :
    ((bankEntries bufferBase experts runs bank feat).flatMap fun x =>
      (List.range x.rows).map fun i => (x.dstSlot + i, Source.host (x.srcRow + i))) =
      (expand runs).map fun e => (asU32 bufferBase + e, Source.host e) := by
  rw [bankEntries, if_neg (Nat.not_lt.mpr hsmall), List.flatMap_map, expand, List.map_flatMap]
  congr 1
  funext run
  rw [List.range'_eq_map_range, List.map_map]
  apply List.map_congr_left
  intro i _
  simp [Nat.add_assoc]

end Entries

section Split

variable {plan : PrefillPlan} {banks hits misses : List ℕ} {n base bank feat : ℕ} {slotOf : ℕ → ℕ}

/-- The plan of a layer whose experts are split into hits, with their slots, and misses. -/
structure PrefillPlan.Split (plan : PrefillPlan) (banks : List ℕ) (n base : ℕ)
    (hits misses : List ℕ) (slotOf : ℕ → ℕ) : Prop where

  gather : plan.gather = ⟨hits.map (base + ·), hits.map slotOf⟩
  missRuns : plan.missRuns = coalesceRuns misses
  entries : plan.entries = banks.zipIdx.flatMap fun x =>
    bankEntries base n (coalesceRuns misses) x.2 x.1
  gatherBanks : plan.gatherBanks = (banks.zipIdx.filter fun x => smallBankFeatBytes ≤ x.1).map (·.2)
  base_u32 : asU32 base = base
  n_u32 : asU32 n = n

theorem PrefillPlan.Split.filter_entries (h : plan.Split banks n base hits misses slotOf)
    (hb : banks[bank]? = some feat) : (plan.entries.filter fun x => x.bank = bank) =
      bankEntries base n (coalesceRuns misses) bank feat := by
  rw [h.entries]
  exact Expert.filter_entries (Nat.zero_le _) hb

theorem PrefillPlan.Split.moves_large (h : plan.Split banks n base hits misses slotOf)
    (hb : banks[bank]? = some feat) (hlarge : smallBankFeatBytes ≤ feat) :
    plan.moves bank = hits.map (fun e => (base + e, Source.resident (slotOf e))) ++
      misses.map fun e => (base + e, Source.host e) := by
  unfold moves
  have hmem : bank ∈ plan.gatherBanks := by
    rw [h.gatherBanks]
    exact (mem_gatherBanks hb).mpr hlarge
  rw [if_pos hmem, h.filter_entries hb, rows_of_runs hlarge, expand_coalesceRuns, h.base_u32,
    h.gather]
  congr 1
  simp only [List.map_map, List.zip_map']
  rfl

theorem PrefillPlan.Split.moves_small (h : plan.Split banks n base hits misses slotOf)
    (hb : banks[bank]? = some feat) (hsmall : feat < smallBankFeatBytes) :
    plan.moves bank = (List.range n).map fun e => (base + e, Source.host e) := by
  unfold moves
  have hmem : bank ∉ plan.gatherBanks := by
    rw [h.gatherBanks, mem_gatherBanks hb]
    exact Nat.not_le.mpr hsmall
  rw [if_neg hmem, h.filter_entries hb, bankEntries, if_pos hsmall]
  simp [h.base_u32, h.n_u32]

end Split

namespace ExpertCache

variable {c c' c₀ : ExpertCache} {layer : ℕ} {banks : List ℕ} {plan : PrefillPlan}

section Invalidate

theorem idAt_invalidateOne {slot : ℕ} (hi : c.invalidateOne slot = some c')
    (other : ℕ) : c'.idAt other = if other = slot then none else c.idAt other := by
  unfold ExpertCache.invalidateOne at hi
  obtain ⟨old, hold, hi⟩ := Option.bind_eq_some_iff.mp hi
  obtain ⟨slotForId, hids, hi⟩ := Option.bind_eq_some_iff.mp hi
  obtain ⟨idOfSlot, hslots, hi⟩ := Option.bind_eq_some_iff.mp hi
  obtain ⟨usage, husage, hi⟩ := Option.bind_eq_some_iff.mp hi
  obtain rfl := Option.some.inj hi
  obtain ⟨-, rfl⟩ := write_eq_some.mp hslots
  unfold idAt
  split
  · rename_i he
    subst he
    exact Table.look_set_none_self
  · rename_i hne
    exact Table.look_set_ne (Ne.symm hne)

/-- What no invalidation changes. -/
structure SameChunk (c c' : ExpertCache) : Prop where

  shape : SameShape c c'
  layer : c'.prefillLayer = c.prefillLayer
  snapshot : c'.prefillSnapshot = c.prefillSnapshot

theorem sameChunk_invalidateOne {slot : ℕ} (hi : c.invalidateOne slot = some c') :
    SameChunk c c' := by
  unfold ExpertCache.invalidateOne at hi
  obtain ⟨old, hold, hi⟩ := Option.bind_eq_some_iff.mp hi
  obtain ⟨slotForId, hids, hi⟩ := Option.bind_eq_some_iff.mp hi
  obtain ⟨idOfSlot, hslots, hi⟩ := Option.bind_eq_some_iff.mp hi
  obtain ⟨usage, husage, hi⟩ := Option.bind_eq_some_iff.mp hi
  obtain rfl := Option.some.inj hi
  exact ⟨⟨rfl, rfl, rfl⟩, rfl, rfl⟩

/-- An invalidation empties the slots of its buffer and no other. -/
theorem invalidate_spec {b : Fin 2} (h : c.Sound) (hi : c.invalidatePrefillBuffer b = some c') :
    c'.Sound ∧ SameChunk c c' ∧ ∀ slot, c'.idAt slot =
      if b * c.numExperts ≤ slot ∧ slot < b * c.numExperts + c.numExperts then none
      else c.idAt slot := by
  have hfold : ∀ (slots : List ℕ) (d : ExpertCache), d.Sound →
      slots.foldlM invalidateOne d = some c' → c'.Sound ∧ SameChunk d c' ∧
        ∀ slot, c'.idAt slot = if slot ∈ slots then none else d.idAt slot := by
    intro slots
    induction slots with
    | nil =>
      intro d hd he
      obtain rfl := Option.some.inj he
      exact ⟨hd, ⟨⟨rfl, rfl, rfl⟩, rfl, rfl⟩, fun slot => by simp⟩
    | cons first rest ih =>
      intro d hd he
      rw [List.foldlM_cons] at he
      obtain ⟨d₁, h₁, he⟩ := Option.bind_eq_some_iff.mp he
      obtain ⟨hs, hsame, hat⟩ := ih d₁ (hd.invalidateOne h₁) he
      obtain ⟨hshape, hlayer, hsnap⟩ := sameChunk_invalidateOne h₁
      refine ⟨hs, ⟨⟨hsame.shape.layers.trans hshape.layers, hsame.shape.experts.trans hshape.experts,
        hsame.shape.size.trans hshape.size⟩, hsame.layer.trans hlayer,
        hsame.snapshot.trans hsnap⟩, fun slot => ?_⟩
      rw [hat, idAt_invalidateOne h₁]
      by_cases hm : slot ∈ rest
      · simp [hm]
      · simp [hm]
  obtain ⟨hs, hsame, hat⟩ := hfold _ c h hi
  refine ⟨hs, hsame, fun slot => ?_⟩
  rw [hat]
  simp only [List.mem_range'_1]

end Invalidate

section Prefetch

theorem Sound.counted (h : c.Sound) (hitRows totalRows : ℕ) :
    ({ c with prefillHitRows := hitRows, prefillTotalRows := totalRows } : ExpertCache).Sound :=
  { h with }

/-- The plan of a layer that is staged: its rows split by the snapshot. -/
theorem prefetch_eq (h : c.Sound) (hp : c.prefetchPrefillLayer layer banks = some (c', plan))
    (hnew : plan.alreadyLoaded = false) :
    ∃ snapshot d, c.prefillSnapshot = some snapshot ∧ c.prefillOverlapFits ∧
      layer < c.numLayers ∧ d.Sound ∧ SameChunk c d ∧
      (∀ slot, d.idAt slot = if bufferOf layer * c.numExperts ≤ slot ∧
        slot < bufferOf layer * c.numExperts + c.numExperts then none else c.idAt slot) ∧
      c' = { d with
        prefillLayer := Function.update d.prefillLayer (bufferOf layer) (some layer)
        prefillReleased := Function.update d.prefillReleased (bufferOf layer) false } ∧
      plan = {
        layer
        bufferId := bufferOf layer
        alreadyLoaded := false
        gather := ⟨
          ((List.range c.numExperts).filter
            (hit snapshot (layer * c.numExperts) c.prefillBufferSlots)).map fun e =>
              asU32 (bufferOf layer * c.numExperts + e),
          ((List.range c.numExperts).filter
            (hit snapshot (layer * c.numExperts) c.prefillBufferSlots)).map fun e =>
              asU32 (slotIn snapshot (layer * c.numExperts) e)⟩
        missRuns := coalesceRuns (((List.range c.numExperts).filter fun e =>
          !hit snapshot (layer * c.numExperts) c.prefillBufferSlots e).map asU32)
        entries := banks.zipIdx.flatMap fun x =>
          bankEntries (bufferOf layer * c.numExperts) c.numExperts
            (coalesceRuns (((List.range c.numExperts).filter fun e =>
              !hit snapshot (layer * c.numExperts) c.prefillBufferSlots e).map asU32)) x.2 x.1
        gatherBanks := (banks.zipIdx.filter fun x => smallBankFeatBytes ≤ x.1).map (·.2) } := by
  unfold ExpertCache.prefetchPrefillLayer at hp
  split at hp
  · cases hp
  rename_i hlayer
  rw [Nat.not_le] at hlayer
  dsimp only at hp
  split at hp
  · obtain ⟨rfl, rfl⟩ := Prod.mk.inj (Option.some.inj hp)
    cases hnew
  split at hp
  · cases hp
  obtain ⟨snapshot, hsnap, hp⟩ := Option.bind_eq_some_iff.mp hp
  obtain ⟨⟨gather, missing⟩, hclass, hp⟩ := Option.bind_eq_some_iff.mp hp
  obtain ⟨d, hd, hp⟩ := Option.bind_eq_some_iff.mp hp
  obtain ⟨rfl, rfl⟩ := Prod.mk.inj (Option.some.inj hp)
  obtain ⟨hfits, hlen⟩ := h.chunk snapshot hsnap
  have hin : ∀ e ∈ List.range c.numExperts, layer * c.numExperts + e < snapshot.length := by
    intro e he
    have hlt := List.mem_range.mp he
    rw [hlen]
    calc layer * c.numExperts + e < (layer + 1) * c.numExperts := by rw [Nat.succ_mul]; omega
      _ ≤ c.numLayers * c.numExperts := Nat.mul_le_mul_right _ hlayer
  rw [classify_eq _ _ hin] at hclass
  obtain ⟨rfl, rfl⟩ := Prod.mk.inj (Option.some.inj hclass)
  obtain ⟨hs, hsame, hat⟩ := invalidate_spec (h.counted _ _) hd
  refine ⟨snapshot, d, hsnap, hfits, hlayer, hs, ⟨⟨hsame.shape.layers, hsame.shape.experts,
    hsame.shape.size⟩, hsame.layer, hsame.snapshot⟩, hat, rfl, ?_⟩
  simp only [List.nil_append]

/-- What a plan that stages a layer promises, over the cache before and after it. -/
structure Staged (c c' : ExpertCache) (banks : List ℕ) (plan : PrefillPlan) : Prop where

  /-- Each slot of the buffer is the destination of one row of each bank. -/
  once : ∀ bank < banks.length, ((plan.moves bank).map Prod.fst).Perm
    (List.range' (plan.bufferId * c.numExperts) c.numExperts)
  /-- A row comes from the host, or from a slot above the buffers that holds the expert. -/
  source : ∀ bank < banks.length, ∀ move ∈ plan.moves bank, ∃ e < c.numExperts,
    move.1 = plan.bufferId * c.numExperts + e ∧ (move.2 = .host e ∨ ∃ slot,
      move.2 = .resident slot ∧ c.prefillBufferSlots ≤ slot ∧ slot < c.cacheSize ∧
      c.idAt slot = some (plan.layer * c.numExperts + e) ∧ c'.idAt slot = c.idAt slot)
  /-- A small bank ships whole; another is gathered, and its misses ship in runs. -/
  small : ∀ bank feat, banks[bank]? = some feat → feat < smallBankFeatBytes →
    bank ∉ plan.gatherBanks ∧ (plan.entries.filter fun x => x.bank = bank) =
      [⟨bank, plan.bufferId * c.numExperts, 0, c.numExperts, c.numExperts * feat, true⟩]
  large : ∀ bank feat, banks[bank]? = some feat → smallBankFeatBytes ≤ feat →
    bank ∈ plan.gatherBanks ∧ (plan.entries.filter fun x => x.bank = bank) =
      plan.missRuns.map fun run => ⟨bank, plan.bufferId * c.numExperts + run.start, run.start,
        run.len, run.len * feat, false⟩
  gathers : plan.gather.dstSlots.length = plan.gather.srcSlots.length
  entries : ∀ x ∈ plan.entries, x.bank < banks.length

theorem asU32_of_lt {n : ℕ} (h : n < 2 ^ 32) : asU32 n = n := Nat.mod_eq_of_lt h

theorem map_asU32 {n : ℕ} {l : List ℕ} (hn : n ≤ 2 ^ 32) (hl : ∀ e ∈ l, e < n) :
    l.map asU32 = l := by
  conv_rhs => rw [← List.map_id l]
  apply List.map_congr_left
  intro e he
  exact asU32_of_lt ((hl e he).trans_le hn)

/-- What the snapshot says about the experts of a layer, on a pool whose slots fit in `u32`. -/
theorem split_of_prefetch (h : c.Sound) (hsize : c.cacheSize ≤ 2 ^ 32)
    (hsnap : ∀ snapshot, c.prefillSnapshot = some snapshot → ∀ id slot,
      c.prefillBufferSlots ≤ slot → (Table.look snapshot id = some slot ↔ c.slotAt id = some slot))
    (hp : c.prefetchPrefillLayer layer banks = some (c', plan))
    (hnew : plan.alreadyLoaded = false) :
    ∃ (p : ℕ → Bool) (slotOf : ℕ → ℕ), plan.Split banks c.numExperts
      (plan.bufferId * c.numExperts) ((List.range c.numExperts).filter p)
      ((List.range c.numExperts).filter fun e => !p e) slotOf ∧
      ∀ e, p e = true → c.prefillBufferSlots ≤ slotOf e ∧
        c.slotAt (plan.layer * c.numExperts + e) = some (slotOf e) := by
  obtain ⟨snapshot, d, hs, hfits, hlayer, hd, hsame, hat, rfl, rfl⟩ := prefetch_eq h hp hnew
  have hlook := hsnap snapshot hs
  have hfit : 2 * c.numExperts ≤ c.cacheSize := hfits
  have hbuf : bufferOf layer * c.numExperts + c.numExperts ≤ 2 * c.numExperts := by
    rw [← Nat.succ_mul]
    exact Nat.mul_le_mul_right _ (bufferOf layer).isLt
  have hpos := h.experts
  have hrange : ∀ (p : ℕ → Bool), ∀ e ∈ (List.range c.numExperts).filter p, e < c.numExperts :=
    fun p e he => List.mem_range.mp (List.mem_filter.mp he).1
  have hhit : ∀ e, hit snapshot (layer * c.numExperts) c.prefillBufferSlots e = true →
      c.prefillBufferSlots ≤ slotIn snapshot (layer * c.numExperts) e ∧
        c.slotAt (layer * c.numExperts + e) = some (slotIn snapshot (layer * c.numExperts) e) := by
    intro e he
    unfold hit at he
    cases hl : Table.look snapshot (layer * c.numExperts + e) with
    | none => simp [hl] at he
    | some slot =>
      have hle : c.prefillBufferSlots ≤ slot := by simpa [hl] using he
      simp only [slotIn, hl, Option.getD_some]
      exact ⟨hle, (hlook _ slot hle).mp hl⟩
  refine ⟨_, slotIn snapshot (layer * c.numExperts), ⟨?_, ?_, ?_, rfl, ?_, ?_⟩, hhit⟩
  · dsimp only
    congr 1
    · apply List.map_congr_left
      intro e he
      have hlt := hrange _ e he
      exact asU32_of_lt (by omega)
    · apply List.map_congr_left
      intro e he
      have hlt := h.slot_lt (hhit e (List.mem_filter.mp he).2).2
      exact asU32_of_lt (by omega)
  · dsimp only
    rw [map_asU32 (by omega) (hrange _)]
  · dsimp only
    rw [map_asU32 (by omega) (hrange _)]
  · exact asU32_of_lt (by dsimp only; omega)
  · exact asU32_of_lt (by omega)

/-- A prefetch that stages a layer empties the slots of its buffer and no other. -/
theorem idAt_prefetch (h : c.Sound) (hp : c.prefetchPrefillLayer layer banks = some (c', plan))
    (hnew : plan.alreadyLoaded = false) (slot : ℕ) :
    c'.idAt slot = if bufferOf layer * c.numExperts ≤ slot ∧
      slot < bufferOf layer * c.numExperts + c.numExperts then none else c.idAt slot := by
  obtain ⟨snapshot, d, hs, hfits, hlayer, hd, hsame, hat, rfl, rfl⟩ := prefetch_eq h hp hnew
  exact hat slot

theorem buffer_le (b : Fin 2) (n : ℕ) : b * n + n ≤ 2 * n := by
  rw [← Nat.succ_mul]
  exact Nat.mul_le_mul_right _ b.isLt

/-- On a pool whose slots fit in `u32`, a staged layer is moved once, from the right places. -/
theorem staged_of_prefetch (h : c.Sound) (hsize : c.cacheSize ≤ 2 ^ 32)
    (hsnap : ∀ snapshot, c.prefillSnapshot = some snapshot → ∀ id slot,
      c.prefillBufferSlots ≤ slot → (Table.look snapshot id = some slot ↔ c.slotAt id = some slot))
    (hp : c.prefetchPrefillLayer layer banks = some (c', plan))
    (hnew : plan.alreadyLoaded = false) : Staged c c' banks plan := by
  obtain ⟨p, slotOf, hsplit, hhit⟩ := split_of_prefetch h hsize hsnap hp hnew
  have hfeat : ∀ bank < banks.length, ∃ feat, banks[bank]? = some feat := fun bank hb =>
    ⟨_, List.getElem?_eq_getElem hb⟩
  constructor
  · intro bank hb
    obtain ⟨feat, hfeat⟩ := hfeat bank hb
    rw [List.range'_eq_map_range]
    rcases Nat.lt_or_ge feat smallBankFeatBytes with hsmall | hlarge
    · rw [hsplit.moves_small hfeat hsmall, List.map_map]
      rfl
    · rw [hsplit.moves_large hfeat hlarge, List.map_append, List.map_map, List.map_map]
      have hperm := (List.filter_append_perm p (List.range c.numExperts)).map
        (plan.bufferId * c.numExperts + ·)
      rw [List.map_append] at hperm
      exact hperm
  · intro bank hb move hm
    obtain ⟨feat, hfeat⟩ := hfeat bank hb
    rcases Nat.lt_or_ge feat smallBankFeatBytes with hsmall | hlarge
    · rw [hsplit.moves_small hfeat hsmall] at hm
      obtain ⟨e, he, rfl⟩ := List.mem_map.mp hm
      exact ⟨e, List.mem_range.mp he, rfl, .inl rfl⟩
    · rw [hsplit.moves_large hfeat hlarge] at hm
      rcases List.mem_append.mp hm with hm | hm
      · obtain ⟨e, he, rfl⟩ := List.mem_map.mp hm
        obtain ⟨he, hpe⟩ := List.mem_filter.mp he
        obtain ⟨habove, hslot⟩ := hhit e hpe
        refine ⟨e, List.mem_range.mp he, rfl, .inr ⟨slotOf e, rfl, habove, h.slot_lt hslot,
          (h.paired.iff _ _).mp hslot, ?_⟩⟩
        have hbuf := buffer_le (bufferOf layer) c.numExperts
        unfold prefillBufferSlots at habove
        rw [idAt_prefetch h hp hnew, if_neg (by omega)]
      · obtain ⟨e, he, rfl⟩ := List.mem_map.mp hm
        exact ⟨e, List.mem_range.mp (List.mem_filter.mp he).1, rfl, .inl rfl⟩
  · intro bank feat hfeat hsmall
    constructor
    · rw [hsplit.gatherBanks, mem_gatherBanks hfeat]
      exact Nat.not_le.mpr hsmall
    · rw [hsplit.filter_entries hfeat, bankEntries, if_pos hsmall, hsplit.base_u32, hsplit.n_u32]
  · intro bank feat hfeat hlarge
    constructor
    · rw [hsplit.gatherBanks]
      exact (mem_gatherBanks hfeat).mpr hlarge
    · rw [hsplit.filter_entries hfeat, bankEntries, if_neg (Nat.not_lt.mpr hlarge),
        hsplit.base_u32, hsplit.missRuns]
  · rw [hsplit.gather, List.length_map, List.length_map]
  · intro x hx
    rw [hsplit.entries] at hx
    obtain ⟨y, hy, hx⟩ := List.mem_flatMap.mp hx
    rw [bank_of_mem hx]
    exact (List.getElem?_eq_some_iff.mp (List.mem_zipIdx_iff_getElem?.mp hy)).1

end Prefetch

section Chunk

/-- The chunks of a cache: `begin_prefill`, then prefetches and releases, with their plans. -/
inductive Chunk (c₀ : ExpertCache) : List PrefillPlan → ExpertCache → Prop
  | begin {c : ExpertCache} : c₀.beginPrefill = some c → Chunk c₀ [] c
  | prefetch {plans : List PrefillPlan} {c c' : ExpertCache} {layer : ℕ} {banks : List ℕ}
      {plan : PrefillPlan} : Chunk c₀ plans c →
      c.prefetchPrefillLayer layer banks = some (c', plan) → Chunk c₀ (plans ++ [plan]) c'
  | release {plans : List PrefillPlan} {c : ExpertCache} {layer : ℕ} :
      Chunk c₀ plans c → Chunk c₀ plans (c.releasePrefillLayer layer)

variable {plans : List PrefillPlan}

/-- The invariant of a chunk. -/
structure Open (c₀ : ExpertCache) (plans : List PrefillPlan) (c : ExpertCache) : Prop where

  sound : c.Sound
  shape : SameShape c₀ c
  snapshot : c.prefillSnapshot = some c₀.slotForId
  above : ∀ slot, c₀.prefillBufferSlots ≤ slot → c.idAt slot = c₀.idAt slot
  /-- A buffer that a layer was staged into is registered nowhere, and its plan was made. -/
  staged : ∀ b l, c.prefillLayer b = some l → (∃ plan ∈ plans, plan.layer = l ∧
      plan.bufferId = b ∧ plan.alreadyLoaded = false) ∧
    ∀ slot, b * c.numExperts ≤ slot → slot < b * c.numExperts + c.numExperts → c.idAt slot = none
  /-- A buffer no layer was staged into keeps its occupants. -/
  idle : ∀ b, c.prefillLayer b = none → (∀ plan ∈ plans, plan.bufferId ≠ b) ∧
    ∀ slot, b * c.numExperts ≤ slot → slot < b * c.numExperts + c.numExperts →
      c.idAt slot = c₀.idAt slot

theorem open_begin (h : c₀.Sound) (hb : c₀.beginPrefill = some c) : Open c₀ [] c := by
  have hs := h.beginPrefill hb
  unfold ExpertCache.beginPrefill at hb
  split at hb
  · obtain rfl := Option.some.inj hb
    refine ⟨hs, ⟨rfl, rfl, rfl⟩, rfl, fun _ _ => rfl, nofun, fun b _ => ⟨nofun, fun _ _ _ => rfl⟩⟩
  · cases hb

theorem Open.release (h : Open c₀ plans c) (layer : ℕ) :
    Open c₀ plans (c.releasePrefillLayer layer) := by
  have hs := h.sound.releasePrefillLayer layer
  unfold releasePrefillLayer at hs ⊢
  split
  · rename_i hl
    rw [if_pos hl] at hs
    exact ⟨hs, ⟨h.shape.layers, h.shape.experts, h.shape.size⟩, h.snapshot, h.above, h.staged,
      h.idle⟩
  · exact h

/-- Asking again for the layer a buffer holds changes nothing and moves nothing. -/
theorem prefetch_loaded (hp : c.prefetchPrefillLayer layer banks = some (c', plan))
    (hold : plan.alreadyLoaded = true) : c' = c ∧ c.prefillLayer (bufferOf layer) = some layer ∧
      plan.gather = ⟨[], []⟩ ∧ plan.entries = [] := by
  unfold ExpertCache.prefetchPrefillLayer at hp
  split at hp
  · cases hp
  dsimp only at hp
  split at hp
  · obtain ⟨rfl, rfl⟩ := Prod.mk.inj (Option.some.inj hp)
    exact ⟨rfl, ‹_›, rfl, rfl⟩
  split at hp
  · cases hp
  obtain ⟨snapshot, -, hp⟩ := Option.bind_eq_some_iff.mp hp
  obtain ⟨⟨gather, missing⟩, -, hp⟩ := Option.bind_eq_some_iff.mp hp
  obtain ⟨d, -, hp⟩ := Option.bind_eq_some_iff.mp hp
  obtain ⟨-, rfl⟩ := Prod.mk.inj (Option.some.inj hp)
  cases hold

/-- The plan names its layer and the buffer of the layer's parity. -/
theorem prefetch_names (hp : c.prefetchPrefillLayer layer banks = some (c', plan)) :
    plan.layer = layer ∧ plan.bufferId = layer % 2 := by
  unfold ExpertCache.prefetchPrefillLayer at hp
  split at hp
  · cases hp
  dsimp only at hp
  split at hp
  · obtain ⟨-, rfl⟩ := Prod.mk.inj (Option.some.inj hp)
    exact ⟨rfl, rfl⟩
  split at hp
  · cases hp
  obtain ⟨snapshot, -, hp⟩ := Option.bind_eq_some_iff.mp hp
  obtain ⟨⟨gather, missing⟩, -, hp⟩ := Option.bind_eq_some_iff.mp hp
  obtain ⟨d, -, hp⟩ := Option.bind_eq_some_iff.mp hp
  obtain ⟨-, rfl⟩ := Prod.mk.inj (Option.some.inj hp)
  exact ⟨rfl, rfl⟩

/-- What a prefetch that stages a layer does to the buffers. -/
theorem prefetch_frame (h : c.Sound) (hp : c.prefetchPrefillLayer layer banks = some (c', plan))
    (hnew : plan.alreadyLoaded = false) : SameShape c c' ∧
      c'.prefillLayer = Function.update c.prefillLayer (bufferOf layer) (some layer) ∧
      c'.prefillSnapshot = c.prefillSnapshot := by
  obtain ⟨snapshot, d, -, -, -, -, hsame, -, rfl, -⟩ := prefetch_eq h hp hnew
  exact ⟨⟨hsame.shape.layers, hsame.shape.experts, hsame.shape.size⟩, by rw [hsame.layer],
    hsame.snapshot⟩

theorem buffers_disjoint {b b' : Fin 2} {n slot : ℕ} (hne : b ≠ b') (hge : b * n ≤ slot)
    (hlt : slot < b * n + n) : ¬ (b' * n ≤ slot ∧ slot < b' * n + n) := by
  rintro ⟨hge', hlt'⟩
  match b, b' with
  | 0, 0 => exact hne rfl
  | 1, 1 => exact hne rfl
  | 0, 1 =>
    simp only [Fin.val_zero, Fin.val_one, Nat.zero_mul, Nat.one_mul] at *
    omega
  | 1, 0 =>
    simp only [Fin.val_zero, Fin.val_one, Nat.zero_mul, Nat.one_mul] at *
    omega

theorem Open.prefetch (h : Open c₀ plans c)
    (hp : c.prefetchPrefillLayer layer banks = some (c', plan)) : Open c₀ (plans ++ [plan]) c' := by
  obtain ⟨hname, hbuffer⟩ := prefetch_names hp
  cases hload : plan.alreadyLoaded with
  | true =>
    obtain ⟨rfl, hheld, -, -⟩ := prefetch_loaded hp hload
    refine ⟨h.sound, h.shape, h.snapshot, h.above, fun b l hb => ?_, fun b hb => ?_⟩
    · obtain ⟨⟨plan', hm, hplan'⟩, hfree⟩ := h.staged b l hb
      exact ⟨⟨plan', List.mem_append_left _ hm, hplan'⟩, hfree⟩
    · obtain ⟨hnone, hkeep⟩ := h.idle b hb
      refine ⟨fun plan' hm => ?_, hkeep⟩
      rcases List.mem_append.mp hm with hm | hm
      · exact hnone plan' hm
      · rw [List.mem_singleton.mp hm, hbuffer]
        rintro heq
        obtain rfl : b = bufferOf layer := Fin.ext heq.symm
        rw [hb] at hheld
        cases hheld
  | false =>
    have hat := idAt_prefetch h.sound hp hload
    have hs := h.sound.prefetchPrefillLayer hp
    obtain ⟨hshape, hheld, hsnap⟩ := prefetch_frame h.sound hp hload
    refine ⟨hs, ⟨hshape.layers.trans h.shape.layers, hshape.experts.trans h.shape.experts,
      hshape.size.trans h.shape.size⟩, hsnap.trans h.snapshot, fun slot hslot => ?_,
      fun b l hb => ?_, fun b hb => ?_⟩
    · have hbuf := buffer_le (bufferOf layer) c.numExperts
      have hge := hslot
      unfold prefillBufferSlots at hge
      rw [← h.shape.experts] at hge
      rw [hat, if_neg (by omega)]
      exact h.above slot hslot
    · rw [hheld] at hb
      rw [hshape.experts]
      by_cases hbl : b = bufferOf layer
      · subst hbl
        rw [Function.update_self] at hb
        cases hb
        refine ⟨⟨plan, by simp, hname, hbuffer, hload⟩, fun slot hge hlt => ?_⟩
        rw [hat, if_pos ⟨hge, hlt⟩]
      · rw [Function.update_of_ne hbl] at hb
        obtain ⟨⟨plan', hm, hplan'⟩, hfree⟩ := h.staged b l hb
        refine ⟨⟨plan', List.mem_append_left _ hm, hplan'⟩, fun slot hge hlt => ?_⟩
        rw [hat]
        split
        · rfl
        · exact hfree slot hge hlt
    · rw [hheld] at hb
      rw [hshape.experts]
      by_cases hbl : b = bufferOf layer
      · subst hbl
        rw [Function.update_self] at hb
        cases hb
      · rw [Function.update_of_ne hbl] at hb
        obtain ⟨hnone, hkeep⟩ := h.idle b hb
        refine ⟨fun plan' hm => ?_, fun slot hge hlt => ?_⟩
        · rcases List.mem_append.mp hm with hm | hm
          · exact hnone plan' hm
          · rw [List.mem_singleton.mp hm, hbuffer]
            exact fun heq => hbl (Fin.ext heq.symm)
        · rw [hat, if_neg (buffers_disjoint hbl hge hlt)]
          exact hkeep slot hge hlt

theorem Chunk.opened (h₀ : c₀.Sound) (h : Chunk c₀ plans c) : Open c₀ plans c := by
  induction h with
  | begin hb => exact open_begin h₀ hb
  | prefetch _ hp ih => exact ih.prefetch hp
  | release _ ih => exact ih.release _

/-- What a state of a chunk promises about the plans made from it and before it. -/
structure Stages (plans : List PrefillPlan) (c : ExpertCache) : Prop where

  /-- A plan that stages a layer moves it once, into the buffer of its parity. -/
  covered : c.cacheSize ≤ 2 ^ 32 → ∀ layer banks c' plan,
    c.prefetchPrefillLayer layer banks = some (c', plan) → plan.alreadyLoaded = false →
      plan.layer = layer ∧ plan.bufferId = layer % 2 ∧ Staged c c' banks plan
  /-- A plan for a layer its buffer holds moves nothing; the layer was staged before. -/
  again : ∀ layer banks c' plan,
    c.prefetchPrefillLayer layer banks = some (c', plan) → plan.alreadyLoaded = true →
      c' = c ∧ plan.gather = ⟨[], []⟩ ∧ plan.entries = [] ∧ ∃ earlier ∈ plans,
        earlier.layer = layer ∧ earlier.bufferId = layer % 2 ∧ earlier.alreadyLoaded = false
  /-- A slot of a buffer that a plan was made for holds nobody, in either table. -/
  hidden : ∀ (b : Fin 2), (∃ plan ∈ plans, plan.bufferId = b) → ∀ slot,
    b * c.numExperts ≤ slot → slot < b * c.numExperts + c.numExperts →
      c.idAt slot = none ∧ ∀ id, c.slotAt id ≠ some slot

end Chunk

section Outgrown

/-- A cache of two experts a layer, some of whose empty slots were taken one by one. -/
structure Filled (numLayers cacheSize k : ℕ) (c : ExpertCache) : Prop where

  reachable : Reachable c
  layers : c.numLayers = numLayers
  experts : c.numExperts = 2
  size : c.cacheSize = cacheSize
  step : c.step = k
  nonneg : ∀ u ∈ c.usage, 0 ≤ u
  empty : ∀ slot, c.usage[slot]? = some 0 → c.idAt slot = none
  taken : ∀ slot u, c.usage[slot]? = some u → u ≠ 0 → (c.idAt slot).isSome
  count : c.usage.countP (fun u => u ≠ 0) = k
  fresh : ∀ id, k ≤ id → c.slotAt id = none

theorem filled_new {numLayers cacheSize : ℕ} (hL : 0 < numLayers) (hC : 2 ≤ cacheSize) :
    ∃ c, Filled numLayers cacheSize 0 c := by
  obtain ⟨c, hc⟩ : ∃ c, new numLayers 2 cacheSize = some c := ⟨_, if_pos ⟨hL, by decide, hC⟩⟩
  have hreach : Reachable c := .new hc
  unfold new at hc
  rw [if_pos ⟨hL, by decide, hC⟩] at hc
  obtain rfl := Option.some.inj hc
  refine ⟨_, hreach, rfl, rfl, rfl, rfl, ?_, ?_, ?_, ?_, ?_⟩
  · simp
  · simp [idAt]
  · intro slot u hu hne
    simp only [List.getElem?_replicate] at hu
    split at hu <;> simp_all
  · simp [List.countP_replicate]
  · simp [slotAt]

theorem Filled.next {numLayers cacheSize k : ℕ} {c : ExpertCache}
    (h : Filled numLayers cacheSize k c) (hk : k < cacheSize) (hid : k < 2 * numLayers)
    (hstep : (k : ℤ) < i64Max) : ∃ c', Filled numLayers cacheSize (k + 1) c' := by
  have hs := h.reachable.sound
  have hdiv : k / 2 * 2 + k % 2 = k := Nat.div_add_mod' k 2
  have hfree : 0 ∈ c.usage := by
    by_contra hno
    have hall : c.usage.countP (fun u => u ≠ 0) = c.usage.length := by
      apply List.countP_eq_length.mpr
      intro u hu
      simp only [ne_eq, decide_not, Bool.not_eq_true', decide_eq_false_iff_not]
      rintro rfl
      exact hno hu
    rw [h.count, hs.clock, h.size] at hall
    omega
  obtain ⟨c', plan, victim, hrun, hs', hshape, hstep', hvictim, husage, hids, hocc, -, -⟩ :=
    @ensure_fresh c (k / 2) (k % 2) hs (by rw [h.step]; exact hstep) (by rw [h.layers]; omega)
      (by rw [h.experts]; omega) (by rw [h.experts, hdiv]; exact h.fresh k le_rfl) h.nonneg hfree
      h.empty
  rw [h.experts, hdiv] at hids hocc
  rw [h.step] at hstep' husage
  have hlt : victim < c.usage.length := (List.getElem?_eq_some_iff.mp hvictim).1
  have hlt' : victim < c.idOfSlot.length := by rw [hs.slots, ← hs.clock]; exact hlt
  have hother : ∀ slot, slot ≠ victim → c'.idAt slot = c.idAt slot ∧
      c'.usage[slot]? = c.usage[slot]? := by
    intro slot hne
    rw [husage, idAt, hocc, Table.look_set_ne (Ne.symm hne), List.getElem?_set_ne (Ne.symm hne)]
    exact ⟨rfl, rfl⟩
  have hat : c'.idAt victim = some k := by
    rw [idAt, hocc, Table.look_set_self hlt']
  have huse : c'.usage[victim]? = some ((k : ℤ) + 1) := by
    rw [husage, List.getElem?_set_self hlt]
  refine ⟨c', .step h.reachable (by rw [perform, hrun]; rfl : c.perform (.ensure (k / 2) [k % 2]) = some c'),
    hshape.layers.trans h.layers, hshape.experts.trans h.experts, hshape.size.trans h.size, ?_, ?_,
    ?_, ?_, ?_, ?_⟩
  · rw [hstep']
    push_cast
    rfl
  · rw [husage]
    intro u hu
    rcases List.mem_or_eq_of_mem_set hu with hu | rfl
    · exact h.nonneg u hu
    · omega
  · intro slot hslot
    by_cases hne : slot = victim
    · subst hne
      rw [huse] at hslot
      have hz := Option.some.inj hslot
      omega
    · rw [(hother slot hne).1]
      exact h.empty slot ((hother slot hne).2 ▸ hslot)
  · intro slot u hu hne
    by_cases hv : slot = victim
    · subst hv
      simp [hat]
    · rw [(hother slot hv).1]
      exact h.taken slot u ((hother slot hv).2 ▸ hu) hne
  · have hzero : c.usage[victim] = 0 := by
      rw [List.getElem?_eq_getElem hlt] at hvictim
      exact Option.some.inj hvictim
    have hpos : (k : ℤ) + 1 ≠ 0 := by omega
    rw [husage, List.countP_set hlt, h.count, hzero]
    simp [hpos]
  · intro id hid'
    rw [slotAt, hids, Table.look_set_ne (by omega)]
    exact h.fresh id (by omega)

theorem exists_filled {numLayers cacheSize : ℕ} (hL : 0 < numLayers) (hC : 2 ≤ cacheSize) (k : ℕ)
    (hk : k ≤ cacheSize) (hid : k ≤ 2 * numLayers) (hstep : (k : ℤ) ≤ i64Max) :
    ∃ c, Filled numLayers cacheSize k c := by
  induction k with
  | zero => exact filled_new hL hC
  | succ k ih =>
    push_cast at hstep
    obtain ⟨c, hc⟩ := ih (by omega) (by omega) (by omega)
    exact hc.next (by omega) (by omega) (by omega)

theorem invalidateOne_runs {c : ExpertCache} (h : c.Sound) {slot : ℕ} (hlt : slot < c.cacheSize) :
    ∃ c', c.invalidateOne slot = some c' ∧ c'.Sound ∧ c'.cacheSize = c.cacheSize := by
  have hslot : slot < c.idOfSlot.length := h.slots ▸ hlt
  have hold : c.idOfSlot[slot]? = some (Table.look c.idOfSlot slot) := by
    simp [Table.look, List.getElem?_eq_getElem hslot]
  have hi : c.invalidateOne slot = some { c with
      slotForId := Paired.evict c.slotForId c.idOfSlot slot
      idOfSlot := c.idOfSlot.set slot none
      usage := c.usage.set slot 0 } := by
    simp only [ExpertCache.invalidateOne, hold, clearOwner_eq h.paired, write_of_lt hslot,
      write_of_lt (h.clock ▸ hlt : slot < c.usage.length), Option.bind_eq_bind, Option.bind_some]
  exact ⟨_, hi, h.invalidateOne hi, rfl⟩

theorem invalidate_runs {c : ExpertCache} (h : c.Sound) (hfits : c.prefillOverlapFits)
    (b : Fin 2) : ∃ c', c.invalidatePrefillBuffer b = some c' := by
  have hbuf := buffer_le b c.numExperts
  have hfit : 2 * c.numExperts ≤ c.cacheSize := hfits
  obtain ⟨c', hc', -⟩ : ∃ c', (List.range' (b * c.numExperts) c.numExperts).foldlM
      invalidateOne c = some c' ∧ c'.Sound ∧ c'.cacheSize = c.cacheSize := by
    apply foldlM_runs fun _ (d : ExpertCache) => d.Sound ∧ d.cacheSize = c.cacheSize
    · rintro read slot rest d hrange ⟨hd, hsize⟩
      have hm : slot ∈ List.range' (b * c.numExperts) c.numExperts := by
        rw [hrange]
        simp
      have hlt := (List.mem_range'_1.mp hm).2
      obtain ⟨d', hd', hs', hsize'⟩ := invalidateOne_runs hd (by omega : slot < d.cacheSize)
      exact ⟨d', hd', hs', hsize'.trans hsize⟩
    · exact ⟨h, rfl⟩
  exact ⟨c', hc'⟩

/-- A layer of an open chunk whose buffers are free is staged. -/
theorem prefetch_runs {c : ExpertCache} (h : c.Sound) {snapshot : Table} {layer : ℕ}
    (hs : c.prefillSnapshot = some snapshot) (hl : layer < c.numLayers)
    (hfree : c.prefillLayer (bufferOf layer) = none) (banks : List ℕ) :
    ∃ c' plan, c.prefetchPrefillLayer layer banks = some (c', plan) ∧
      plan.alreadyLoaded = false := by
  obtain ⟨hfits, hlen⟩ := h.chunk snapshot hs
  have hin : ∀ e ∈ List.range c.numExperts, layer * c.numExperts + e < snapshot.length := by
    intro e he
    have hlt := List.mem_range.mp he
    rw [hlen]
    calc layer * c.numExperts + e < (layer + 1) * c.numExperts := by rw [Nat.succ_mul]; omega
      _ ≤ c.numLayers * c.numExperts := Nat.mul_le_mul_right _ hl
  unfold ExpertCache.prefetchPrefillLayer
  rw [if_neg (by omega)]
  simp only [hfree, reduceCtorEq, if_false, Option.isSome_none, Bool.false_eq_true, false_and, hs,
    classify_eq _ _ hin, Option.bind_eq_bind, Option.bind_some]
  have hruns : ∀ hitRows totalRows, ∃ d, ({ c with
      prefillHitRows := hitRows
      prefillTotalRows := totalRows } : ExpertCache).invalidatePrefillBuffer (bufferOf layer) =
        some d := fun hitRows totalRows => invalidate_runs (h.counted hitRows totalRows) hfits _
  simp only [hs] at hruns
  rw [(hruns _ _).choose_spec]
  exact ⟨_, _, rfl, rfl⟩

/-- A resident past `u32` above the buffers is gathered from the slot its low bits name. -/
theorem gathers_low_bits {c : ExpertCache} (h : c.Sound) {snapshot : Table} {id slot : ℕ}
    {banks : List ℕ} {c' : ExpertCache} {plan : PrefillPlan}
    (hs : c.prefillSnapshot = some snapshot) (hid : Table.look snapshot id = some slot)
    (habove : c.prefillBufferSlots ≤ slot)
    (hp : c.prefetchPrefillLayer (id / c.numExperts) banks = some (c', plan))
    (hnew : plan.alreadyLoaded = false) : asU32 slot ∈ plan.gather.srcSlots := by
  obtain ⟨snapshot', d, hs', hfits, hlayer, hd, hsame, -, -, rfl⟩ := prefetch_eq h hp hnew
  rw [hs] at hs'
  cases hs'
  have hdiv : id / c.numExperts * c.numExperts + id % c.numExperts = id :=
    Nat.div_add_mod' id c.numExperts
  apply List.mem_map.mpr
  refine ⟨id % c.numExperts, List.mem_filter.mpr ⟨List.mem_range.mpr (Nat.mod_lt _ h.experts), ?_⟩, ?_⟩
  · simp [hit, hdiv, hid, habove]
  · simp [slotIn, hdiv, hid]

end Outgrown

end ExpertCache

end Frink.Expert
