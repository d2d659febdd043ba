import Frink.Expert.Ensure

/-! # Residency over whole runs

Every operation keeps the two tables inverse to each other, the prefill ones
included: a staged layer takes its borrowed slots away from their occupants and
is itself registered nowhere.
-/

namespace Frink.Expert

open Checked

namespace ExpertCache

variable {c c' : ExpertCache} {base layer : ℕ}

theorem paired_cleared (t t' : Table) :
    Paired (t.map fun _ => none) (t'.map fun _ => none) := by
  constructor
  simp

theorem new_sound {numLayers numExperts cacheSize : ℕ}
    (h : new numLayers numExperts cacheSize = some c) : c.Sound := by
  unfold new at h
  split at h
  · rename_i hok
    obtain rfl := Option.some.inj h
    constructor <;> simp [hok, Paired.empty]
  · cases h

theorem Sound.withFetchOrder (h : c.Sound) (order : FetchOrder) : (c.withFetchOrder order).Sound :=
  { h with }

theorem Sound.setCollectRouting (h : c.Sound) (on : Bool) : (c.setCollectRouting on).Sound :=
  { h with }

theorem Sound.resetStats (h : c.Sound) : c.resetStats.Sound :=
  { h with rows := by simpa [ExpertCache.resetStats] using h.rows }

theorem Sound.resetRouting (h : c.Sound) : c.resetRouting.Sound :=
  { h with freq := by simpa [ExpertCache.resetRouting] using h.freq }

theorem Sound.forgetPrefillBuffers (h : c.Sound) : c.forgetPrefillBuffers.Sound :=
  { h with chunk := nofun }

theorem Sound.reset (h : c.Sound) : c.reset.Sound := by
  apply Sound.forgetPrefillBuffers
  apply Sound.resetRouting
  apply Sound.resetStats
  exact { h with
    ids := by simpa using h.ids
    slots := by simpa using h.slots
    clock := by simpa using h.clock
    seen := by simpa using h.seen
    paired := paired_cleared _ _
    step_nonneg := le_rfl
    usage_le := by simp }

theorem Sound.rebuild (h : c.Sound) {cacheSize : ℕ} (hr : c.rebuild cacheSize = .ok c') :
    c'.Sound := by
  unfold ExpertCache.rebuild at hr
  split at hr
  · cases hr
  · rename_i hfit
    obtain rfl := Except.ok.inj hr
    rw [Nat.not_lt] at hfit
    constructor <;> simp [ExpertCache.forgetPrefillBuffers, ExpertCache.resetRouting,
      ExpertCache.resetStats, h.experts, hfit, h.ids, h.seen, h.freq, h.rows]
    constructor
    simp

theorem Sound.id_lt (h : c.Sound) {id slot : ℕ} (hs : c.idAt slot = some id) :
    id < c.slotForId.length := Table.lt_of_look ((h.paired.iff id slot).mpr hs)

theorem Sound.forgetSlot (h : c.Sound) {slot : ℕ} {old : Option ExpertId}
    (hf : c.forgetSlot slot = some (c', old)) : c'.Sound := by
  unfold ExpertCache.forgetSlot at hf
  split at hf
  · obtain ⟨rfl, -⟩ := Prod.mk.inj (Option.some.inj hf)
    exact h
  · rename_i id hid
    obtain ⟨idOfSlot, hslots, hf⟩ := Option.bind_eq_some_iff.mp hf
    obtain ⟨slotForId, hids, hf⟩ := Option.bind_eq_some_iff.mp hf
    obtain ⟨usage, husage, hf⟩ := Option.bind_eq_some_iff.mp hf
    obtain ⟨rfl, -⟩ := Prod.mk.inj (Option.some.inj hf)
    obtain ⟨-, rfl⟩ := write_eq_some.mp hslots
    obtain ⟨-, rfl⟩ := write_eq_some.mp hids
    obtain ⟨-, rfl⟩ := write_eq_some.mp husage
    have hstep := h.step_nonneg
    exact { h with
      ids := by simpa using h.ids
      slots := by simpa using h.slots
      clock := by simpa using h.clock
      paired := h.paired.unlink ((h.paired.iff id slot).mpr hid)
      usage_le := by
        rintro u hu
        rcases List.mem_or_eq_of_mem_set hu with hu | rfl
        · exact h.usage_le u hu
        · exact le_trans (by decide) hstep }

theorem Sound.beginPrefill (h : c.Sound) (hb : c.beginPrefill = some c') : c'.Sound := by
  unfold ExpertCache.beginPrefill at hb
  split at hb
  · rename_i hfit
    obtain rfl := Option.some.inj hb
    exact { h with
      chunk := by
        rintro snapshot hs
        obtain rfl := Option.some.inj hs
        exact ⟨hfit, h.ids⟩ }
  · cases hb

theorem Sound.invalidateOne (h : c.Sound) {slot : ℕ} (hi : c.invalidateOne slot = some c') :
    c'.Sound := by
  unfold ExpertCache.invalidateOne at hi
  obtain ⟨old, hold, hi⟩ := Option.bind_eq_some_iff.mp hi
  obtain ⟨slotForId, hids, hi⟩ := Option.bind_eq_some_iff.mp hi
  obtain ⟨idOfSlot, hslots, hi⟩ := Option.bind_eq_some_iff.mp hi
  obtain ⟨usage, husage, hi⟩ := Option.bind_eq_some_iff.mp hi
  obtain rfl := Option.some.inj hi
  obtain ⟨-, rfl⟩ := write_eq_some.mp hslots
  obtain ⟨-, rfl⟩ := write_eq_some.mp husage
  rw [← Table.look_eq hold, clearOwner_eq h.paired] at hids
  obtain rfl := Option.some.inj hids
  exact { h with
    ids := by simpa using h.ids
    slots := by simpa using h.slots
    clock := by simpa using h.clock
    paired := h.paired.evicted
    usage_le := by
      rintro u hu
      rcases List.mem_or_eq_of_mem_set hu with hu | rfl
      · exact h.usage_le u hu
      · exact h.step_nonneg }

theorem Sound.prefetchPrefillLayer (h : c.Sound) {banks : List ℕ} {plan : PrefillPlan}
    (hp : c.prefetchPrefillLayer layer banks = some (c', plan)) : c'.Sound := by
  unfold ExpertCache.prefetchPrefillLayer at hp
  split at hp
  · cases hp
  dsimp only at hp
  split at hp
  · obtain ⟨rfl, -⟩ := Prod.mk.inj (Option.some.inj hp)
    exact h
  split at hp
  · cases hp
  obtain ⟨snapshot, -, hp⟩ := Option.bind_eq_some_iff.mp hp
  obtain ⟨⟨gather, missing⟩, -, hp⟩ := Option.bind_eq_some_iff.mp hp
  obtain ⟨d, hd, hp⟩ := Option.bind_eq_some_iff.mp hp
  obtain ⟨rfl, -⟩ := Prod.mk.inj (Option.some.inj hp)
  have hs : d.Sound := foldlM_keeps (fun _ d => d.Sound)
    (fun _ _ _ _ hs hi => hs.invalidateOne hi) { h with } hd
  exact { hs with }

theorem Sound.releasePrefillLayer (h : c.Sound) (layer : ℕ) : (c.releasePrefillLayer layer).Sound := by
  unfold ExpertCache.releasePrefillLayer
  split
  · exact { h with }
  · exact h

/-- Other layers' experts in the listed slots lose their residency; nobody else does. -/
theorem clearOthers_runs (base : ℕ) {previous : Table}
    (hin : ∀ id, some id ∈ previous → id < c.slotForId.length) :
    ∃ t, c.clearOthers base previous c.slotForId = some t ∧
      t.length = c.slotForId.length ∧
      ∀ id, Table.look t id = if some id ∈ previous ∧ ¬ c.owns base id then none
        else c.slotAt id := by
  refine foldlM_runs (fun read (t : Table) => t.length = c.slotForId.length ∧
    ∀ id, Table.look t id = if some id ∈ read ∧ ¬ c.owns base id then none
      else c.slotAt id) ?_ ⟨rfl, by simp [slotAt]⟩
  rintro read old rest t rfl ⟨hlen, hlook⟩
  cases hold : old.filter fun id => !c.owns base id with
  | none =>
    refine ⟨t, rfl, hlen, fun id => ?_⟩
    have hid : old = some id → c.owns base id = true := by
      rintro rfl
      simpa using hold
    rw [hlook]
    congr 1
    simp only [List.mem_append, List.mem_singleton, eq_iff_iff]
    grind
  | some gone =>
    obtain ⟨rfl, hnot⟩ : old = some gone ∧ c.owns base gone = false := by simpa using hold
    have hlt : gone < t.length := hlen ▸ hin gone (by simp)
    refine ⟨t.set gone none, write_of_lt hlt, by simpa using hlen, fun id => ?_⟩
    by_cases hid : gone = id
    · subst hid
      simp [hnot]
    · rw [Table.look_set_ne hid, hlook]
      simp [Ne.symm hid]

theorem owns_iff {id : ℕ} : c.owns base id = true ↔ base ≤ id ∧ id < base + c.numExperts := by
  simp [owns]

/-- What the placing loop of a materialization has done. -/
structure Laid (s : ExpertCache) (base : ℕ) (read : List ℕ) (c : ExpertCache) : Prop where

  same : c = { s with idOfSlot := c.idOfSlot, slotForId := c.slotForId, usage := c.usage }
  ids : c.slotForId.length = s.slotForId.length
  slots : c.idOfSlot.length = s.idOfSlot.length
  clock : c.usage.length = s.usage.length
  idAt : ∀ slot, c.idAt slot = if slot ∈ read then some (base + slot) else s.idAt slot
  slotAt : ∀ id, c.slotAt id = if base ≤ id ∧ id - base ∈ read then some (id - base)
    else s.slotAt id
  usage : ∀ slot, c.usage[slot]? = if slot ∈ read then some s.step else s.usage[slot]?

theorem laid_runs (s : ExpertCache) (hids : base + s.numExperts ≤ s.slotForId.length)
    (hslots : s.numExperts ≤ s.idOfSlot.length) (hclock : s.idOfSlot.length = s.usage.length) :
    ∃ c, (List.range s.numExperts).foldlM (materializeOne base) s = some c ∧
      Laid s base (List.range s.numExperts) c := by
  refine foldlM_runs (Laid s base) ?_ ?_
  · rintro read e rest c hrange h
    have he : e < s.numExperts := by
      rw [← List.mem_range, hrange]
      simp
    have hslot : e < c.idOfSlot.length := by rw [h.slots]; omega
    have hid : base + e < c.slotForId.length := by rw [h.ids]; omega
    have huse : e < c.usage.length := by rw [h.clock]; omega
    have hstep : c.step = s.step := by rw [h.same]
    refine ⟨{ c with
        idOfSlot := c.idOfSlot.set e (some (base + e))
        slotForId := c.slotForId.set (base + e) (some e)
        usage := c.usage.set e c.step }, ?_, ?_⟩
    · simp [materializeOne, write_of_lt hslot, write_of_lt hid, write_of_lt huse]
    · constructor
      · dsimp only
        rw [h.same]
      · simpa using h.ids
      · simpa using h.slots
      · simpa using h.clock
      · rintro slot
        by_cases hs : e = slot
        · subst hs
          simp [ExpertCache.idAt, hslot]
        · have := h.idAt slot
          simp only [ExpertCache.idAt] at this ⊢
          rw [Table.look_set_ne hs, this]
          simp [Ne.symm hs]
      · rintro id
        by_cases hs : base + e = id
        · subst hs
          simp [ExpertCache.slotAt, hid]
        · have := h.slotAt id
          simp only [ExpertCache.slotAt] at this ⊢
          rw [Table.look_set_ne hs, this]
          have hne : base ≤ id → id - base ≠ e := by omega
          grind
      · rintro slot
        by_cases hs : e = slot
        · subst hs
          simp [huse, hstep]
        · dsimp only
          rw [List.getElem?_set_ne hs, h.usage slot]
          simp [Ne.symm hs]
  · constructor <;> simp

theorem idAt_dropOwn (slot : ℕ) :
    (c.dropOwn base).idAt slot = (c.idAt slot).filter fun id => !c.owns base id := by
  simp only [idAt, dropOwn, Table.look, List.getElem?_map]
  rcases c.idOfSlot[slot]? with - | - | id
  · rfl
  · rfl
  · cases ho : c.owns base id <;> simp [Option.filter, ho]

theorem mem_take_idOfSlot {id n : ℕ} :
    some id ∈ c.idOfSlot.take n ↔ ∃ slot < n, c.idAt slot = some id := by
  simp only [List.mem_iff_getElem?, List.getElem?_take, idAt, Table.look]
  constructor
  · rintro ⟨slot, hs⟩
    split at hs
    · exact ⟨slot, ‹_›, by simp [hs]⟩
    · cases hs
  · rintro ⟨slot, hlt, hs⟩
    refine ⟨slot, ?_⟩
    rw [if_pos hlt]
    exact Option.join_eq_some_iff.mp hs

theorem clearOthers_spec (base : ℕ) (h : c.Sound) :
    ∃ t, c.clearOthers base (c.idOfSlot.take c.numExperts) c.slotForId = some t ∧
      t.length = c.slotForId.length ∧
      ∀ id slot, Table.look t id = some slot ↔
        c.slotAt id = some slot ∧ (slot < c.numExperts → c.owns base id) := by
  have hown : ∀ id, some id ∈ c.idOfSlot.take c.numExperts → id < c.slotForId.length := by
    rintro id hid
    obtain ⟨slot, -, hs⟩ := mem_take_idOfSlot.mp hid
    exact h.id_lt hs
  obtain ⟨t, ht, hlen, hlook⟩ := clearOthers_runs base hown
  refine ⟨t, ht, hlen, fun id slot => ?_⟩
  have hocc : c.slotAt id = some slot →
      (some id ∈ c.idOfSlot.take c.numExperts ↔ slot < c.numExperts) := by
    intro hs
    have hid := (h.paired.iff id slot).mp hs
    rw [mem_take_idOfSlot]
    constructor
    · rintro ⟨slot', hlt, hs'⟩
      rwa [h.paired.symm.injective hid hs']
    · exact fun hlt => ⟨slot, hlt, hid⟩
  rw [hlook]
  split
  · rename_i hgone
    simp only [reduceCtorEq, false_iff, not_and]
    exact fun hs hlt => hgone.2 (hlt ((hocc hs).mp hgone.1))
  · rename_i hstay
    constructor
    · intro hs
      exact ⟨hs, fun hlt => by_contra fun howns => hstay ⟨(hocc hs).mpr hlt, howns⟩⟩
    · exact fun hs => hs.1

/-- The tables before the loop and the experts laid by it fit together. -/
theorem paired_laid (h : c.Sound) {s d : ExpertCache} (hl : Laid s base (List.range c.numExperts) d)
    (hid : ∀ slot, s.idAt slot = (c.idAt slot).filter fun id => !c.owns base id)
    (hslot : ∀ id slot, s.slotAt id = some slot ↔
      c.slotAt id = some slot ∧ (slot < c.numExperts → c.owns base id)) :
    Paired d.slotForId d.idOfSlot := by
  constructor
  intro id slot
  have hs := hl.slotAt id
  have hi := hl.idAt slot
  simp only [ExpertCache.slotAt, ExpertCache.idAt, List.mem_range] at hs hi hid hslot
  have hp := h.paired.iff id slot
  have hfilter : (Table.look c.idOfSlot slot).filter (fun id => !c.owns base id) = some id ↔
      Table.look c.idOfSlot slot = some id ∧ ¬ c.owns base id := by
    simp [Option.filter_eq_some_iff]
  rw [hs, hi]
  by_cases howns : c.owns base id = true
  · have hrange := owns_iff.mp howns
    rw [if_pos (by omega)]
    by_cases hlt : slot < c.numExperts
    · rw [if_pos hlt]
      simp only [Option.some.injEq]
      omega
    · rw [if_neg hlt, hid, hfilter]
      simp only [howns, not_true, and_false, iff_false, Option.some.injEq]
      omega
  · have hrange : ¬ (base ≤ id ∧ id < base + c.numExperts) := fun h => howns (owns_iff.mpr h)
    rw [if_neg (by omega), hslot]
    by_cases hlt : slot < c.numExperts
    · have hne : ¬ some (base + slot) = some id := by
        simp only [Option.some.injEq]
        omega
      rw [if_pos hlt]
      simp [hne, hlt, howns]
    · rw [if_neg hlt, hid, hfilter]
      simp [hp, hlt, howns]

/-- A materialization clears the tables, lays the layer and copies all of it. -/
theorem materializeLayer_laid (layer : ℕ) (h : c.Sound) (hlt : c.step < i64Max) (hl : layer < c.numLayers)
    (hb : base = layer * c.numExperts) :
    ∃ t d, c.materializeLayer layer = some (d,
        ⟨(List.range c.numExperts).map asU32, (List.range c.numExperts).map asU32⟩) ∧
      t.length = c.slotForId.length ∧
      (∀ id slot, Table.look t id = some slot ↔
        c.slotAt id = some slot ∧ (slot < c.numExperts → c.owns base id)) ∧
      Laid { c.dropOwn base with slotForId := t, step := c.step + 1 } base
        (List.range c.numExperts) d := by
  have hbase : c.flat layer 0 = some base := flat_zero.mpr ⟨hl, h.experts, hb⟩
  have hfits := h.fits
  have hslots := h.slots
  have hroom : base + c.numExperts ≤ c.slotForId.length := by
    rw [h.ids, hb]
    calc layer * c.numExperts + c.numExperts = (layer + 1) * c.numExperts := (Nat.succ_mul _ _).symm
      _ ≤ c.numLayers * c.numExperts := Nat.mul_le_mul_right _ hl
  obtain ⟨t', ht, htlen, htlook⟩ := clearOthers_spec base h
  obtain ⟨d', hd, hlaid⟩ : ∃ d, (List.range c.numExperts).foldlM (materializeOne base)
        { c.dropOwn base with slotForId := t', step := c.step + 1 } = some d ∧
      Laid { c.dropOwn base with slotForId := t', step := c.step + 1 } base
        (List.range c.numExperts) d :=
    laid_runs { c.dropOwn base with slotForId := t', step := c.step + 1 }
      (by simp only [dropOwn]; omega) (by simp [dropOwn, hslots, hfits])
      (by simp [dropOwn, hslots, h.clock])
  refine ⟨t', d', ?_, htlen, htlook, hlaid⟩
  simp only [materializeLayer, hbase, ht, tick, if_pos hlt, hd, Option.bind_eq_bind,
    Option.bind_some]

/-- The tables and the clock of a materialized layer: its experts sit at their own numbers,
their old places and the other occupants of those slots are gone. -/
theorem materializeLayer_runs (layer : ℕ) (h : c.Sound) (hlt : c.step < i64Max) (hl : layer < c.numLayers) :
    ∃ c' plan, c.materializeLayer layer = some (c', plan) ∧ c'.Sound ∧ SameShape c c' ∧
      c'.step = c.step + 1 ∧
      (∀ slot, slot < c.numExperts → c'.idAt slot = some (layer * c.numExperts + slot)) ∧
      (∀ slot, slot < c.numExperts → c'.usage[slot]? = some (c.step + 1)) ∧
      ∀ slot, c.numExperts ≤ slot → c.idAt slot = none →
        c'.idAt slot = none ∧ c'.usage[slot]? = c.usage[slot]? := by
  obtain ⟨base, hb⟩ : ∃ base, base = layer * c.numExperts := ⟨_, rfl⟩
  obtain ⟨t', d', hrun, htlen, htlook, hlaid⟩ := materializeLayer_laid layer h hlt hl hb
  have hpaired : Paired d'.slotForId d'.idOfSlot :=
    paired_laid h hlaid (fun slot => idAt_dropOwn slot) htlook
  have hstep' : d'.step = c.step + 1 := by rw [hlaid.same]
  have hshape : SameShape c d' := by
    rw [hlaid.same]
    exact ⟨rfl, rfl, rfl⟩
  have husage := hlaid.usage
  simp only [List.mem_range, dropOwn, List.getElem?_mapIdx] at husage
  have hrest : d'.recency = c.recency ∧ d'.routingFreq = c.routingFreq ∧
      d'.layerStats = c.layerStats ∧ d'.prefillSnapshot = c.prefillSnapshot := by
    rw [hlaid.same]
    exact ⟨rfl, rfl, rfl, rfl⟩
  refine ⟨d', _, hrun, ?_, hshape, hstep', ?_, ?_, ?_⟩
  · have hstep0 := h.step_nonneg
    constructor
    · rw [hshape.experts]; exact h.experts
    · rw [hshape.experts, hshape.size]; exact h.fits
    · rw [hlaid.ids, hshape.layers, hshape.experts]; exact htlen.trans h.ids
    · rw [hlaid.slots, hshape.size]; simp [dropOwn, h.slots]
    · rw [hlaid.clock, hshape.size]; simp [dropOwn, h.clock]
    · rw [hrest.1, hshape.layers, hshape.experts]; exact h.seen
    · rw [hrest.2.1, hshape.layers, hshape.experts]; exact h.freq
    · rw [hrest.2.2.1, hshape.layers]; exact h.rows
    · exact hpaired
    · omega
    · rintro u hu
      obtain ⟨slot, hs⟩ := List.getElem?_of_mem hu
      rw [husage, hstep'] at *
      split at hs
      · exact (Option.some.inj hs).symm.le
      · obtain ⟨v, hv, rfl⟩ := Option.map_eq_some_iff.mp hs
        have := h.usage_le v (List.mem_of_getElem? hv)
        split <;> omega
    · rw [hrest.2.2.2, hshape.layers, hshape.experts, prefillOverlapFits, prefillBufferSlots,
        hshape.size, hshape.experts]
      exact h.chunk
  · rintro slot hlt
    rw [hlaid.idAt, if_pos (List.mem_range.mpr hlt), hb]
  · rintro slot hlt
    rw [husage, if_pos hlt]
  · rintro slot hge hnone
    constructor
    · rw [hlaid.idAt, if_neg (by simpa using hge)]
      exact (idAt_dropOwn slot).trans (by simp [hnone])
    · rw [husage, if_neg (by omega), hnone]
      simp

theorem materializeLayer_inRange {r : ExpertCache × CopyPlan}
    (hm : c.materializeLayer layer = some r) : c.step < i64Max ∧ layer < c.numLayers := by
  unfold ExpertCache.materializeLayer at hm
  obtain ⟨base, hbase, hm⟩ := Option.bind_eq_some_iff.mp hm
  obtain ⟨t, -, hm⟩ := Option.bind_eq_some_iff.mp hm
  obtain ⟨step, hstep, -⟩ := Option.bind_eq_some_iff.mp hm
  exact ⟨tick_lt hstep, (flat_zero.mp hbase).1⟩

theorem Sound.materializeLayer (h : c.Sound) {plan : CopyPlan}
    (hm : c.materializeLayer layer = some (c', plan)) : c'.Sound := by
  have hrange := materializeLayer_inRange hm
  obtain ⟨d, plan', hd, hs, -⟩ := materializeLayer_runs layer h hrange.1 hrange.2
  obtain ⟨rfl, -⟩ := Prod.mk.inj (Option.some.inj (hd.symm.trans hm))
  exact hs

theorem Sound.ensureSplit (h : c.Sound) {routes : List ℕ} {policy : Option QStarPolicy}
    {plan : EnsurePlan} (he : c.ensureSplit layer routes policy = some (c', plan)) :
    c'.Sound ∧ SameShape c c' ∧
      ((distinctRoutes routes).length ≤ c.cacheSize → c.cacheSize ≤ 2 ^ 32 →
        Served c c' (layer * c.numExperts) routes policy plan) := by
  obtain ⟨hstep, hl, hin⟩ := ensureSplit_inRange he
  obtain ⟨d, plan', hd, hs⟩ := ensureSplit_spec policy h hstep hl hin
  obtain ⟨rfl, rfl⟩ := Prod.mk.inj (Option.some.inj (hd.symm.trans he))
  exact hs

/-- The operations on a cache. -/
inductive Op
  | ensure (layer : ℕ) (expertIds : List ℕ)
  | ensureHybrid (layer : ℕ) (expertIds : List ℕ) (policy : QStarPolicy)
  | materializeLayer (layer : ℕ)
  | forgetSlot (slot : ℕ)
  | rebuild (cacheSize : ℕ)
  | reset
  | beginPrefill
  | prefetchPrefillLayer (layer : ℕ) (bankFeatBytes : List ℕ)
  | releasePrefillLayer (layer : ℕ)
  | withFetchOrder (order : FetchOrder)
  | setCollectRouting (on : Bool)
  | resetStats
  | resetRouting

/-- The cache after an operation; nothing when an assertion ends the run. -/
def perform (c : ExpertCache) : Op → Option ExpertCache
  | .ensure layer expertIds => (c.ensure layer expertIds).map (·.1)
  | .ensureHybrid layer expertIds policy => (c.ensureHybrid layer expertIds policy).map (·.1)
  | .materializeLayer layer => (c.materializeLayer layer).map (·.1)
  | .forgetSlot slot => (c.forgetSlot slot).map (·.1)
  | .rebuild cacheSize => match c.rebuild cacheSize with
    | .ok c' => some c'
    | .error _ => some c
  | .reset => some c.reset
  | .beginPrefill => c.beginPrefill
  | .prefetchPrefillLayer layer banks => (c.prefetchPrefillLayer layer banks).map (·.1)
  | .releasePrefillLayer layer => some (c.releasePrefillLayer layer)
  | .withFetchOrder order => some (c.withFetchOrder order)
  | .setCollectRouting on => some (c.setCollectRouting on)
  | .resetStats => some c.resetStats
  | .resetRouting => some c.resetRouting

theorem Sound.perform (h : c.Sound) {op : Op} (hp : c.perform op = some c') : c'.Sound := by
  cases op <;> simp only [ExpertCache.perform, Option.map_eq_some_iff, Prod.exists,
    exists_and_right, exists_eq_right, Option.some.injEq] at hp
  case ensure => exact (h.ensureSplit hp.choose_spec).1
  case ensureHybrid => exact (h.ensureSplit hp.choose_spec).1
  case materializeLayer => exact h.materializeLayer hp.choose_spec
  case forgetSlot => exact h.forgetSlot hp.choose_spec
  case rebuild size =>
    split at hp
    · obtain rfl := Option.some.inj hp
      exact h.rebuild ‹_›
    · obtain rfl := Option.some.inj hp
      exact h
  case reset => exact hp ▸ h.reset
  case beginPrefill => exact h.beginPrefill hp
  case prefetchPrefillLayer => exact h.prefetchPrefillLayer hp.choose_spec
  case releasePrefillLayer layer => exact hp ▸ h.releasePrefillLayer layer
  case withFetchOrder order => exact hp ▸ h.withFetchOrder order
  case setCollectRouting on => exact hp ▸ h.setCollectRouting on
  case resetStats => exact hp ▸ h.resetStats
  case resetRouting => exact hp ▸ h.resetRouting

/-- The caches that runs from a new one reach. -/
inductive Reachable : ExpertCache → Prop
  | new {numLayers numExperts cacheSize : ℕ} {c : ExpertCache} :
      ExpertCache.new numLayers numExperts cacheSize = some c → Reachable c
  | step {c c' : ExpertCache} {op : Op} : Reachable c → c.perform op = some c' → Reachable c'

theorem Reachable.sound (h : Reachable c) : c.Sound := by
  induction h with
  | new h => exact new_sound h
  | step _ hp ih => exact ih.perform hp

end ExpertCache

theorem length_distinctRoutes_le {routes : List ℕ} {n : ℕ} (h : ∀ e ∈ routes, e < n) :
    (distinctRoutes routes).length ≤ n := by
  have hsub : distinctRoutes routes ⊆ List.range n := fun e he =>
    List.mem_range.mpr (h e (mem_distinctRoutes.mp he))
  simpa using ((nodup_distinctRoutes routes).subperm hsub).length_le

namespace ExpertCache

variable {c c' : ExpertCache} {base layer : ℕ} {routes : List ℕ} {policy : Option QStarPolicy}
  {plan : EnsurePlan}

/-- With every miss fetched, every route has a slot. -/
theorem Served.all_resident (h : Served c c' base routes none plan) {e : ℕ} (he : e ∈ routes) :
    ∃ slot, c'.slotAt (base + e) = some slot := by
  have hnil : c'.misses base (distinctRoutes routes) = [] := by
    apply List.eq_nil_of_length_eq_zero
    rw [h.host, h.fetched]
    exact Nat.sub_self _
  rw [← Option.ne_none_iff_exists']
  intro hnone
  have hmem : e ∈ c'.misses base (distinctRoutes routes) := mem_misses.mpr ⟨by simpa using he, hnone⟩
  simp [hnil] at hmem

/-- In every state a run reaches the two tables are a partial bijection between flat ids and
slots, steps over experts of a layer run to their end, and a step that names no more distinct
ids than the pool has slots serves its routes. -/
theorem expert_residency_is_bijective (h : Reachable c) :
    (∃ r : ℕ ≃. ℕ, (∀ id, c.slotAt id = r id) ∧ ∀ slot, c.idAt slot = r.symm slot) ∧
    (∀ id slot, c.slotAt id = some slot →
      id < c.numLayers * c.numExperts ∧ slot < c.cacheSize) ∧
    (∀ layer routes, c.step < i64Max → layer < c.numLayers → (∀ e ∈ routes, e < c.numExperts) →
      (distinctRoutes routes).length ≤ c.cacheSize ∧
      (∃ c' plan, c.ensure layer routes = some (c', plan)) ∧
      ∀ policy, ∃ c' plan, c.ensureHybrid layer routes policy = some (c', plan)) ∧
    (c.cacheSize ≤ 2 ^ 32 → ∀ layer routes, (distinctRoutes routes).length ≤ c.cacheSize →
      (∀ c' plan, c.ensure layer routes = some (c', plan) →
        Served c c' (layer * c.numExperts) routes none plan ∧
        ∀ e ∈ routes, ∃ slot, c'.slotAt (layer * c.numExperts + e) = some slot) ∧
      ∀ policy c' plan, c.ensureHybrid layer routes policy = some (c', plan) →
        Served c c' (layer * c.numExperts) routes (some policy) plan) := by
  have hs := h.sound
  refine ⟨⟨hs.paired.toPEquiv, fun _ => rfl, fun _ => rfl⟩, ?_, ?_, ?_⟩
  · rintro id slot hslot
    exact ⟨hs.ids ▸ Table.lt_of_look hslot, hs.slot_lt hslot⟩
  · rintro layer routes hstep hl hr
    have hin : ∀ e ∈ routes, layer * c.numExperts + e < c.slotForId.length := by
      rintro e he
      have := hr e he
      rw [hs.ids]
      calc layer * c.numExperts + e < (layer + 1) * c.numExperts := by rw [Nat.succ_mul]; omega
        _ ≤ c.numLayers * c.numExperts := Nat.mul_le_mul_right _ hl
    have hruns : ∀ policy, ∃ c' plan, c.ensureSplit layer routes policy = some (c', plan) :=
      fun policy => by
        obtain ⟨c', plan, hc, -⟩ := ensureSplit_spec policy hs hstep hl hin
        exact ⟨c', plan, hc⟩
    exact ⟨(length_distinctRoutes_le hr).trans hs.fits, hruns none, fun policy => hruns (some policy)⟩
  · rintro hsize layer routes hroom
    constructor
    · rintro c' plan hc
      have hserved := (hs.ensureSplit hc).2.2 hroom hsize
      exact ⟨hserved, fun e he => hserved.all_resident he⟩
    · rintro policy c' plan hc
      exact (hs.ensureSplit hc).2.2 hroom hsize

theorem expert_residency_is_bijective_cold :
    ∃ c c' plan, new 4 8 16 = some c ∧ c.ensure 0 [3, 5, 3] = some (c', plan) ∧
      plan.slots = [some 0, some 1, some 0] ∧ Served c c' 0 [3, 5, 3] none plan := by
  obtain ⟨c, hc⟩ : ∃ c, new 4 8 16 = some c := ⟨_, rfl⟩
  have hall := expert_residency_is_bijective (.new hc)
  obtain ⟨hC, hE, hL, hstep⟩ : c.cacheSize = 16 ∧ c.numExperts = 8 ∧ c.numLayers = 4 ∧ c.step = 0 := by
    obtain rfl := Option.some.inj hc
    decide
  obtain ⟨hlen, ⟨c', plan, he⟩, -⟩ := hall.2.2.1 0 [3, 5, 3] (by rw [hstep]; decide)
    (by rw [hL]; decide) (by rw [hE]; decide)
  have hserved := ((hall.2.2.2 (by rw [hC]; decide) 0 [3, 5, 3] hlen).1 c' plan he).1
  refine ⟨c, c', plan, hc, he, ?_, by simpa using hserved⟩
  have hplan : ((new 4 8 16).bind fun c => (c.ensure 0 [3, 5, 3]).map (·.2.slots)) =
      some [some 0, some 1, some 0] := by decide
  rw [hc, Option.bind_some, he] at hplan
  exact Option.some.inj hplan

/-- A miss of one expert, while there are empty slots, goes to an empty slot. -/
theorem ensure_fresh {e : ℕ} (h : c.Sound) (hstep : c.step < i64Max) (hl : layer < c.numLayers)
    (he : e < c.numExperts) (hmiss : c.slotAt (layer * c.numExperts + e) = none)
    (hpos : ∀ u ∈ c.usage, 0 ≤ u) (hfree : 0 ∈ c.usage)
    (hempty : ∀ slot, c.usage[slot]? = some 0 → c.idAt slot = none) :
    ∃ c' plan victim, c.ensure layer [e] = some (c', plan) ∧ c'.Sound ∧ SameShape c c' ∧
      c'.step = c.step + 1 ∧ c.usage[victim]? = some 0 ∧
      c'.usage = c.usage.set victim (c.step + 1) ∧
      c'.slotForId = c.slotForId.set (layer * c.numExperts + e) (some victim) ∧
      c'.idOfSlot = c.idOfSlot.set victim (some (layer * c.numExperts + e)) ∧
      plan.slots = [some (asU32 victim)] ∧ plan.copy.dstSlots = [asU32 victim] := by
  obtain ⟨base, hb⟩ : ∃ base, base = layer * c.numExperts := ⟨_, rfl⟩
  rw [← hb] at hmiss ⊢
  have hlt : base + e < c.slotForId.length := by
    rw [h.ids, hb]
    calc layer * c.numExperts + e < (layer + 1) * c.numExperts := by rw [Nat.succ_mul]; omega
      _ ≤ c.numLayers * c.numExperts := Nat.mul_le_mul_right _ hl
  have hlook : c.slotForId[base + e]? = some none := by
    rw [List.getElem?_eq_getElem hlt]
    simpa [slotAt, Table.look, List.getElem?_eq_getElem hlt] using hmiss
  have hdistinct : distinctRoutes [e] = [e] := by simp [distinctRoutes]
  have htouch : c.touchHits base (c.step + 1) (distinctRoutes [e]) c.usage [] =
      some (c.usage, [e]) := by
    simp [hdistinct, touchHits, hlook]
  have hev : c.evictable base (distinctRoutes [e]) none (c.step + 1) c.usage = c.usage := by
    have hkeep : (c.usage.map fun u => if u = c.step + 1 then unevictable else u) = c.usage := by
      conv_rhs => rw [← List.map_id c.usage]
      apply List.map_congr_left
      intro u hu
      have hle := h.usage_le u hu
      exact if_neg (by omega)
    simp [evictable, hkeep]
  have hpool : 0 < c.cacheSize := h.experts.trans_le h.fits
  have hp : Placed c base (c.step + 1) [] (c.fetching c.usage
      (c.evictable base (distinctRoutes [e]) none (c.step + 1) c.usage)) := by
    rw [hev]
    exact ⟨h.paired, rfl, h.slots, h.clock, h.clock, fun u hu => by
      have hle := h.usage_le u hu
      omega, fun id hid _ => hid⟩
  obtain ⟨victim, m, hm, hall, hplace⟩ := hp.place_eq hpool hlt
  have hm' : c.usage[victim]? = some m := by
    rw [← hev]
    exact hm
  obtain rfl : m = 0 := by
    have hle : m ≤ 0 := hall 0 (by
      change 0 ∈ c.evictable base (distinctRoutes [e]) none (c.step + 1) c.usage
      rw [hev]
      exact hfree)
    have hge := hpos m (List.mem_of_getElem? hm')
    omega
  have hnobody : Paired.evict c.slotForId c.idOfSlot victim = c.slotForId := by
    have hnone := hempty victim hm'
    unfold idAt at hnone
    simp [Paired.evict, hnone]
  have hcounted : ∀ x ∈ [e], base + x < c.routingFreq.length := by
    simpa [h.freq, ← h.ids] using hlt
  obtain ⟨freq, hfreq, -⟩ := observeRoutes_runs hcounted
  have hrow := List.getElem?_eq_getElem (by rw [h.rows]; exact hl : layer < c.layerStats.length)
  have htick : c.tick = some (c.step + 1) := if_pos hstep
  have hbase : c.flat layer 0 = some base := flat_zero.mpr ⟨hl, h.experts, hb⟩
  obtain ⟨p, hpdef⟩ : ∃ p : Placing, p = {
      slotForId := c.slotForId.set (base + e) (some victim)
      idOfSlot := c.idOfSlot.set victim (some (base + e))
      usage := c.usage.set victim (c.step + 1)
      evictable := (c.evictable base (distinctRoutes [e]) none (c.step + 1) c.usage).set victim
        unevictable
      copy := ⟨[asU32 victim], [e]⟩ } := ⟨_, rfl⟩
  have hloop : ((c.orderMissing base none [e]).take
      (numFetch none (c.orderMissing base none [e]).length)).foldlM
        (Placing.place base (c.step + 1)) (c.fetching c.usage
          (c.evictable base (distinctRoutes [e]) none (c.step + 1) c.usage)) = some p := by
    have horder : c.orderMissing base none [e] = [e] := rfl
    rw [horder, numFetch, List.length_singleton, List.take_succ_cons, List.take_zero,
      List.foldlM_cons, hplace, hpdef]
    simp only [fetching, hnobody, List.nil_append]
    rfl
  have hslots : routeSlots p.slotForId base [e] = some [some (asU32 victim)] := by
    rw [routeSlots_eq _ _ (by simpa [hpdef] using hlt), hpdef]
    simp only [List.map_cons, List.map_nil, Table.look_set_self hlt, Option.map_some]
  obtain ⟨c', plan, hplan, hshape, hids, hocc, husage, hstep', -, -, -, -, rfl⟩ :=
    ensureSplit_eq htick hbase hfreq htouch hloop hslots rfl hrow
  rw [hpdef] at hids hocc husage
  exact ⟨c', _, victim, hplan, (h.ensureSplit hplan).1, hshape, hstep', hm', husage, hids, hocc,
    rfl, by rw [hpdef]⟩

/-- A pool with one slot more than a layer: after the layer is materialized, the first miss of
another layer goes to the last slot, which the plan names by its low 32 bits. -/
theorem last_slot_as_u32 {n : ℕ} (hn : 0 < n) :
    ∃ c c₁ c₂ copy plan, new 2 n (n + 1) = some c ∧ c.materializeLayer 0 = some (c₁, copy) ∧
      c₁.ensure 1 [0] = some (c₂, plan) ∧ c₂.slotAt n = some n ∧ plan.slots = [some (asU32 n)] ∧
      plan.copy.dstSlots = [asU32 n] := by
  obtain ⟨c, hc⟩ : ∃ c, new 2 n (n + 1) = some c := ⟨_, if_pos ⟨by decide, hn, by omega⟩⟩
  have hs := new_sound hc
  obtain ⟨hL, hE, hC, hstep, hid, husage⟩ : c.numLayers = 2 ∧ c.numExperts = n ∧
      c.cacheSize = n + 1 ∧ c.step = 0 ∧ c.idAt n = none ∧ c.usage[n]? = some 0 := by
    unfold new at hc
    rw [if_pos ⟨by decide, hn, by omega⟩] at hc
    obtain rfl := Option.some.inj hc
    exact ⟨rfl, rfl, rfl, rfl, by simp [idAt], by simp⟩
  obtain ⟨c₁, copy, hm, hs₁, hshape, hstep₁, hocc, huse, hfree⟩ :=
    materializeLayer_runs 0 hs (by rw [hstep]; decide) (by omega)
  simp only [hE, hstep, Nat.zero_mul, Nat.zero_add, Int.zero_add] at hocc huse hfree hstep₁
  obtain ⟨hid₁, huse₁⟩ := hfree n le_rfl hid
  have hmiss : c₁.slotAt n = none := by
    rw [Option.eq_none_iff_forall_ne_some]
    rintro slot hslot
    have hi := (hs₁.paired.iff n slot).mp hslot
    have hlt := hs₁.slot_lt hslot
    rw [hshape.size, hC] at hlt
    rcases Nat.lt_or_ge slot n with h | h
    · have := Option.some.inj ((hocc slot h).symm.trans hi)
      omega
    · obtain rfl : slot = n := by omega
      exact nomatch hid₁.symm.trans hi
  have hsize : c₁.usage.length = n + 1 := by rw [hs₁.clock, hshape.size, hC]
  have hus : ∀ slot u, c₁.usage[slot]? = some u → slot < n ∧ u = 1 ∨ slot = n ∧ u = 0 := by
    intro slot u hu
    have hlt := (List.getElem?_eq_some_iff.mp hu).1
    rcases Nat.lt_or_ge slot n with hslot | hslot
    · rw [huse slot hslot] at hu
      exact .inl ⟨hslot, (Option.some.inj hu).symm⟩
    · obtain rfl : slot = n := by omega
      rw [huse₁, husage] at hu
      exact .inr ⟨rfl, (Option.some.inj hu).symm⟩
  obtain ⟨c₂, plan, victim, hplan, -, -, -, hvictim, -, hids, -, hslots, hdst⟩ :=
    @ensure_fresh c₁ 1 0 hs₁ (by rw [hstep₁]; decide) (by rw [hshape.layers, hL]; decide)
      hs₁.experts (by rw [hshape.experts, hE]; simpa using hmiss)
      (by
        intro u hu
        obtain ⟨slot, hslot⟩ := List.getElem?_of_mem hu
        rcases hus slot u hslot with ⟨_, rfl⟩ | ⟨_, rfl⟩ <;> decide)
      (List.mem_of_getElem? (huse₁.trans husage))
      (by
        intro slot hslot
        rcases hus slot 0 hslot with ⟨_, h⟩ | ⟨rfl, _⟩
        · cases h
        · exact hid₁)
  obtain rfl : victim = n := by
    rcases hus victim 0 hvictim with ⟨_, h⟩ | ⟨h, _⟩
    · cases h
    · exact h
  have hlt : victim < c₁.slotForId.length := by
    rw [hs₁.ids, hshape.layers, hshape.experts, hL, hE]
    omega
  refine ⟨c, c₁, c₂, copy, plan, hc, hm, hplan, ?_, hslots, hdst⟩
  rw [slotAt, hids, hshape.experts, hE, Nat.one_mul, Nat.add_zero]
  exact Table.look_set_self hlt

/-- An id past the layer's experts takes the only slot from a route of the same step; a slot past
`u32` is answered as another one. -/
theorem expert_residency_outgrown :
    ((new 2 1 1).bind fun c => (c.ensure 0 [0, 1]).map (·.2)) =
      some ⟨[none, some 0], ⟨[0, 0], [0, 1]⟩, 2, 2, 2⟩ ∧
    ∃ c c₁ c₂ copy plan, new 2 (2 ^ 32) (2 ^ 32 + 1) = some c ∧
      c.materializeLayer 0 = some (c₁, copy) ∧ c₁.ensure 1 [0] = some (c₂, plan) ∧
      c₂.slotAt (2 ^ 32) = some (2 ^ 32) ∧ plan.slots = [some 0] ∧ plan.copy.dstSlots = [0] :=
  ⟨by decide, last_slot_as_u32 (by decide)⟩

end ExpertCache

end Frink.Expert
