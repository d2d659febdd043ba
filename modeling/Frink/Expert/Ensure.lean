import Mathlib
import Frink.Expert.Placing
import Frink.Expert.Prefill

/-! # A step of the cache

What holds of the cache between operations, and what one call of `ensure` or
`ensure_hybrid` promises about the tables before it, the tables after it and
the plan it returns.
-/

namespace Frink.Expert

open Checked

namespace ExpertCache

/-- The tables undo each other, every vector has its size, and nothing was used after now. -/
structure Sound (c : ExpertCache) : Prop where

  experts : 0 < c.numExperts
  fits : c.numExperts ≤ c.cacheSize
  ids : c.slotForId.length = c.numLayers * c.numExperts
  slots : c.idOfSlot.length = c.cacheSize
  clock : c.usage.length = c.cacheSize
  seen : c.recency.length = c.numLayers * c.numExperts
  freq : c.routingFreq.length = c.numLayers * c.numExperts
  rows : c.layerStats.length = c.numLayers
  paired : Paired c.slotForId c.idOfSlot
  step_nonneg : 0 ≤ c.step
  usage_le : ∀ u ∈ c.usage, u ≤ c.step
  chunk : ∀ snapshot, c.prefillSnapshot = some snapshot →
    c.prefillOverlapFits ∧ snapshot.length = c.numLayers * c.numExperts

variable {c c' : ExpertCache} {base layer : ℕ} {routes : List ℕ} {policy : Option QStarPolicy}
  {plan : EnsurePlan}

theorem Sound.slot_lt (h : c.Sound) {id slot : ℕ} (hs : c.slotAt id = some slot) :
    slot < c.cacheSize := h.slots ▸ Table.lt_of_look ((h.paired.iff id slot).mp hs)

/-- What a step promises about its routes, the tables it leaves and the copies it asks for. -/
structure Served (c c' : ExpertCache) (base : ℕ) (routes : List ℕ) (policy : Option QStarPolicy)
    (plan : EnsurePlan) : Prop where

  /-- Each route is answered with the slot its expert ends up in, or handed to the host. -/
  slots : plan.slots = routes.map fun expert => c'.slotAt (base + expert)
  /-- As many distinct routes as were fetched or hit have a slot; the others go to the host. -/
  host : (c'.misses base (distinctRoutes routes)).length = plan.missing - plan.fetched
  missing : plan.missing = (c.misses base (distinctRoutes routes)).length
  fetched : plan.fetched = numFetch policy plan.missing
  apart : ∀ e ∈ routes, ∀ f ∈ routes, ∀ slot,
    c'.slotAt (base + e) = some slot → c'.slotAt (base + f) = some slot → e = f
  kept : ∀ e ∈ routes, ∀ slot, c.slotAt (base + e) = some slot → c'.slotAt (base + e) = some slot
  still : ∀ id slot slot', c.slotAt id = some slot → c'.slotAt id = some slot' → slot = slot'
  copy_length : plan.copy.dstSlots.length = plan.copy.srcRows.length
  copy_once : plan.copy.srcRows.Nodup
  copy_routed : ∀ e ∈ plan.copy.srcRows, e ∈ routes
  /-- The plan lists the newly resident experts, with their slots, and nothing else. -/
  copy_iff : ∀ id slot, (c.slotAt id = none ∧ c'.slotAt id = some slot) ↔
    ∃ expert, id = base + expert ∧ (slot, expert) ∈ plan.copy.dstSlots.zip plan.copy.srcRows

end ExpertCache

theorem distinctRoutes_spec (routes : List ℕ) :
    (distinctRoutes routes).Nodup ∧ ∀ e, e ∈ distinctRoutes routes ↔ e ∈ routes := by
  suffices h : ∀ routes acc : List ℕ, acc.Nodup →
      (routes.foldl (fun distinct id => if id ∈ distinct then distinct else distinct ++ [id])
        acc).Nodup ∧
      ∀ e, e ∈ routes.foldl (fun distinct id =>
        if id ∈ distinct then distinct else distinct ++ [id]) acc ↔ e ∈ acc ∨ e ∈ routes by
    simpa [distinctRoutes] using h routes [] List.nodup_nil
  intro routes
  induction routes with
  | nil => simp
  | cons x routes ih =>
    rintro acc hacc
    rw [List.foldl_cons]
    split
    · rename_i hx
      obtain ⟨hn, hm⟩ := ih acc hacc
      refine ⟨hn, fun e => ?_⟩
      rw [hm e, List.mem_cons]
      constructor
      · rintro (h | h) <;> simp [h]
      · rintro (h | rfl | h) <;> simp [*]
    · rename_i hx
      obtain ⟨hn, hm⟩ := ih (acc ++ [x]) (by
        simpa [List.nodup_append] using ⟨hacc, fun a ha => by rintro rfl; exact hx ha⟩)
      refine ⟨hn, fun e => ?_⟩
      rw [hm e]
      simp [or_assoc]

theorem nodup_distinctRoutes (routes : List ℕ) : (distinctRoutes routes).Nodup :=
  (distinctRoutes_spec routes).1

@[simp] theorem mem_distinctRoutes {routes : List ℕ} {e : ℕ} :
    e ∈ distinctRoutes routes ↔ e ∈ routes := (distinctRoutes_spec routes).2 e

theorem numFetch_le (policy : Option QStarPolicy) (n : ℕ) : numFetch policy n ≤ n := by
  cases policy with
  | none => exact le_rfl
  | some policy => exact policy.split_fetch_le n

namespace ExpertCache

variable {c c' : ExpertCache} {base layer : ℕ} {routes : List ℕ} {policy : Option QStarPolicy}
  {plan : EnsurePlan}

theorem orderMissing_perm (policy : Option QStarPolicy) (missing : List ℕ) :
    (c.orderMissing base policy missing).Perm missing := by
  unfold orderMissing
  split <;> apply List.perm_insertionSort

theorem flat_zero : c.flat layer 0 = some base ↔
    layer < c.numLayers ∧ 0 < c.numExperts ∧ base = layer * c.numExperts := by
  unfold flat
  split <;> simp_all [eq_comm]

theorem tick_lt {step : ℤ} (h : c.tick = some step) : c.step < i64Max := by
  unfold tick at h
  split at h
  · assumption
  · cases h

/-- The start of the fetch loop. -/
def fetching (c : ExpertCache) (usage evictable : List ℤ) : Placing :=
  ⟨c.slotForId, c.idOfSlot, usage, evictable, ⟨[], []⟩⟩

/-- The fetch loop runs to its end, and is exact when the pool has room for the step. -/
theorem fetch_runs (routes : List ℕ) (h : c.Sound) {step : ℤ} {usage evictable : List ℤ} {fetch : List ℕ}
    (hu : usage.length = c.cacheSize) (he : evictable.length = c.cacheSize)
    (hle : ∀ u ∈ usage, u ≤ step) (hnodup : fetch.Nodup)
    (hin : ∀ e ∈ fetch, base + e < c.slotForId.length)
    (hmiss : ∀ e ∈ fetch, c.slotAt (base + e) = none) :
    ∃ p, fetch.foldlM (Placing.place base step) (c.fetching usage evictable) = some p ∧
      Placed c base step fetch p ∧
      (Taken evictable (c.hits base routes) →
        (c.hits base routes).length + fetch.length ≤ c.cacheSize →
        ∃ victims, Exact c base routes fetch victims p) := by
  have hC : 0 < c.cacheSize := lt_of_lt_of_le h.experts h.fits
  refine foldlM_runs (fun read p => Placed c base step read p ∧
    (Taken evictable (c.hits base routes) →
      (c.hits base routes).length + read.length ≤ c.cacheSize →
      ∃ victims, Exact c base routes read victims p)) ?_ ?_
  · rintro read e rest p rfl ⟨hp, hx⟩
    have hnew : e ∉ read := by
      have := (List.nodup_append.mp hnodup).2.2
      exact fun hmem => this e hmem e (by simp) rfl
    have hlt := hin e (by simp)
    have hnone := hmiss e (by simp)
    obtain ⟨p', hplace, hp'⟩ := hp.place hC hlt hnone hnew
    refine ⟨p', hplace, hp', fun htaken hroom => ?_⟩
    simp only [List.length_append, List.length_singleton] at hroom
    obtain ⟨victims, hv⟩ := hx htaken (by omega)
    exact hv.place hp (by omega) hlt hnone hnew hplace
  · refine ⟨⟨h.paired, rfl, h.slots, hu, he, hle, fun id hid _ => hid⟩, fun htaken _ => ⟨[], ?_⟩⟩
    constructor
    · exact List.nodup_nil
    · simp
    · rfl
    · rfl
    · simpa [fetching] using htaken
    · simp [fetching, slotAt]

theorem observeRoutes_runs (hin : ∀ e ∈ routes, base + e < c.routingFreq.length) :
    ∃ freq, c.observeRoutes base routes = some freq ∧ freq.length = c.routingFreq.length := by
  unfold observeRoutes
  split
  · refine foldlM_runs (fun _ (freq : List ℕ) => freq.length = c.routingFreq.length) ?_ rfl
    rintro read e rest freq rfl hlen
    have he : base + e < freq.length := hlen ▸ hin e (by simp)
    exact ⟨freq.set (base + e) (freq[base + e] + 1),
      by simp [List.getElem?_eq_getElem he, write_of_lt he], by simp [hlen]⟩
  · exact ⟨_, rfl, rfl⟩

theorem stampRecency_runs (policy : Option QStarPolicy) (step : ℤ) {recency : List ℤ}
    (hin : ∀ e ∈ routes, base + e < recency.length) :
    ∃ recency', stampRecency base step policy routes recency = some recency' ∧
      recency'.length = recency.length := by
  unfold stampRecency
  split
  · refine foldlM_runs (fun _ (r : List ℤ) => r.length = recency.length) ?_ rfl
    rintro read e rest r rfl hlen
    have he : base + e < r.length := hlen ▸ hin e (by simp)
    exact ⟨_, write_of_lt he, by simp [hlen]⟩
  · exact ⟨_, rfl, rfl⟩

theorem routeSlots_eq (t : Table) (base : ℕ) {routes : List ℕ} (hin : ∀ e ∈ routes, base + e < t.length) :
    routeSlots t base routes = some (routes.map fun e => (Table.look t (base + e)).map asU32) := by
  unfold routeSlots
  induction routes with
  | nil => rfl
  | cons e routes ih =>
    obtain ⟨he, hin⟩ := List.forall_mem_cons.mp hin
    have hlook : t[base + e]? = some (Table.look t (base + e)) := by
      simp [Table.look, List.getElem?_eq_getElem he]
    rw [List.mapM_cons, ih hin]
    simp [hlook]

end ExpertCache

theorem mem_zip_shift {read victims : List ℕ} {base id slot : ℕ} :
    (id, slot) ∈ (read.map (base + ·)).zip victims ↔
      ∃ expert, id = base + expert ∧ (slot, expert) ∈ victims.zip read := by
  rw [List.zip_map_left, ← List.zip_swap read victims]
  constructor
  · intro h
    obtain ⟨⟨e, s⟩, hmem, heq⟩ := List.mem_map.mp h
    obtain ⟨rfl, rfl⟩ := Prod.mk.inj heq
    exact ⟨e, rfl, List.mem_map.mpr ⟨(e, s), hmem, rfl⟩⟩
  · rintro ⟨e, rfl, h⟩
    obtain ⟨⟨e', s⟩, hmem, heq⟩ := List.mem_map.mp h
    obtain ⟨rfl, rfl⟩ := Prod.mk.inj heq
    exact List.mem_map.mpr ⟨(e', s), hmem, rfl⟩

namespace ExpertCache

variable {c c' : ExpertCache} {base layer : ℕ} {routes read victims : List ℕ}
  {policy : Option QStarPolicy} {plan : EnsurePlan} {p : Placing}

theorem mem_misses {e : ℕ} : e ∈ c.misses base routes ↔ e ∈ routes ∧ c.slotAt (base + e) = none := by
  simp [misses]

theorem nodup_misses (c : ExpertCache) (base : ℕ) (routes : List ℕ) :
    (c.misses base (distinctRoutes routes)).Nodup := (nodup_distinctRoutes routes).filter _

theorem Exact.look_kept (hx : Exact c base routes read victims p) {e slot : ℕ} (he : e ∈ routes)
    (hs : c.slotAt (base + e) = some slot) : Table.look p.slotForId (base + e) = some slot := by
  refine (hx.tables _ _).mpr (.inr ⟨hs, fun hmem => hx.spared slot hmem ?_⟩)
  exact List.mem_filterMap.mpr ⟨e, he, hs⟩

theorem Exact.look_read (hx : Exact c base routes read victims p) {e : ℕ} (he : e ∈ read) :
    (Table.look p.slotForId (base + e)).isSome := by
  obtain ⟨i, hi, rfl⟩ := List.getElem_of_mem he
  have hv : i < victims.length := hx.length ▸ hi
  have hmem : (base + read[i], victims[i]) ∈ (read.map (base + ·)).zip victims := by
    rw [List.mem_iff_getElem]
    exact ⟨i, by simpa using ⟨hi, hv⟩, by simp⟩
  rw [(hx.tables _ _).mpr (.inl hmem)]
  rfl

/-- Of the distinct routes, those neither hit nor placed stay without a slot. -/
theorem Exact.look_none (hx : Exact c base routes read victims p) {e : ℕ} (he : e ∈ routes) :
    Table.look p.slotForId (base + e) = none ↔ c.slotAt (base + e) = none ∧ e ∉ read := by
  constructor
  · intro hnone
    constructor
    · cases hs : c.slotAt (base + e) with
      | none => rfl
      | some slot => exact nomatch hnone.symm.trans (hx.look_kept he hs)
    · intro hread
      have := hx.look_read hread
      simp [hnone] at this
  · rintro ⟨hnone, hread⟩
    rw [Option.eq_none_iff_forall_ne_some]
    rintro slot hs
    rcases (hx.tables _ _).mp hs with hmem | ⟨hs', -⟩
    · obtain ⟨e', heq, hmem⟩ := mem_zip_shift.mp hmem
      rw [Nat.add_left_cancel heq] at hread
      exact hread (List.of_mem_zip hmem).2
    · exact nomatch hnone.symm.trans hs'

theorem Exact.victim_lt {step : ℤ} (hx : Exact c base routes read victims p)
    (hp : Placed c base step read p) :
    ∀ v ∈ victims, v < c.cacheSize := by
  rintro v hv
  obtain ⟨i, hi, rfl⟩ := List.getElem_of_mem hv
  have hr : i < read.length := hx.length ▸ hi
  have hmem : (base + read[i], victims[i]) ∈ (read.map (base + ·)).zip victims := by
    rw [List.mem_iff_getElem]
    exact ⟨i, by simpa using ⟨hr, hi⟩, by simp⟩
  have hlook := (hx.tables _ _).mpr (.inl hmem)
  exact hp.slots ▸ Table.lt_of_look ((hp.paired.iff _ _).mp hlook)

/-- The distinct routes without a slot after the step are the misses the loop did not read. -/
theorem Exact.length_misses (hx : Exact c base (distinctRoutes routes) read victims p)
    (hc : c'.slotForId = p.slotForId) {rest : List ℕ}
    (hperm : (read ++ rest).Perm (c.misses base (distinctRoutes routes))) :
    (c'.misses base (distinctRoutes routes)).length = rest.length := by
  have hnodup' := hperm.nodup_iff.mpr (nodup_misses c base routes)
  apply List.Perm.length_eq
  rw [List.perm_ext_iff_of_nodup (nodup_misses c' base routes)
    (List.nodup_append.mp hnodup').2.1]
  intro e
  have hmem : e ∈ rest ↔ e ∈ c.misses base (distinctRoutes routes) ∧ e ∉ read := by
    rw [← hperm.mem_iff, List.mem_append]
    constructor
    · intro h
      exact ⟨.inr h, fun hr => (List.nodup_append.mp hnodup').2.2 e hr e h rfl⟩
    · rintro ⟨h | h, hr⟩
      · exact absurd h hr
      · exact h
  rw [hmem, mem_misses, mem_misses, slotAt, hc, and_assoc, and_congr_right_iff]
  intro he
  exact hx.look_none he

theorem served_of_exact {step : ℤ} (rest : List ℕ) (hsize : c.cacheSize ≤ 2 ^ 32)
    (hp : Placed c base step read p) (hx : Exact c base (distinctRoutes routes) read victims p)
    (hperm : (read ++ rest).Perm (c.misses base (distinctRoutes routes)))
    (hread : read.length = numFetch policy (read ++ rest).length)
    (hc : c'.slotForId = p.slotForId)
    (hslots : plan.slots = routes.map fun e => (Table.look p.slotForId (base + e)).map asU32)
    (hcopy : plan.copy = p.copy) (hmissing : plan.missing = (read ++ rest).length)
    (hfetched : plan.fetched = read.length) : Served c c' base routes policy plan := by
  have hslot : ∀ id, c'.slotAt id = Table.look p.slotForId id := fun id => by rw [slotAt, hc]
  have hnodup : (read ++ rest).Nodup :=
    hperm.nodup_iff.mpr (nodup_misses c base routes)
  have hmiss : ∀ e ∈ read, e ∈ routes ∧ c.slotAt (base + e) = none := fun e he => by
    have := mem_misses.mp (hperm.mem_iff.mp (List.mem_append_left rest he))
    simpa using this
  have hu32 : ∀ slot, slot < c.cacheSize → asU32 slot = slot := fun slot hs =>
    Nat.mod_eq_of_lt (by omega)
  have hvict : victims.map asU32 = victims := by
    rw [List.map_congr_left fun v hv => hu32 v (hx.victim_lt hp v hv), List.map_id']
  constructor
  · rw [hslots]
    apply List.map_congr_left
    rintro e -
    rw [hslot]
    cases hs : Table.look p.slotForId (base + e) with
    | none => rfl
    | some slot =>
      have hlt := Table.lt_of_look ((hp.paired.iff _ _).mp hs)
      rw [Option.map_some, hu32 slot (hp.slots ▸ hlt)]
  · rw [hx.length_misses hc hperm, hmissing, hfetched]
    simp
  · rw [hmissing, hperm.length_eq]
  · rw [hfetched, hmissing, hread]
  · rintro e - f - slot he hf
    rw [hslot] at he hf
    exact Nat.add_left_cancel (hp.paired.injective he hf)
  · rintro e he slot hs
    rw [hslot]
    exact hx.look_kept (by simpa using he) hs
  · rintro id slot slot' hs hs'
    rw [hslot] at hs'
    rcases (hx.tables _ _).mp hs' with hmem | ⟨hs'', -⟩
    · obtain ⟨e, rfl, hz⟩ := mem_zip_shift.mp hmem
      cases (hmiss e (List.of_mem_zip hz).2).2.symm.trans hs
    · exact Option.some.inj (hs.symm.trans hs'')
  · simp [hcopy, hx.copy, hx.length]
  · rw [hcopy, hx.copy]
    exact (List.nodup_append.mp hnodup).1
  · rw [hcopy, hx.copy]
    exact fun e he => (hmiss e he).1
  · rintro id slot
    rw [hcopy, hx.copy, hvict, hslot, hx.tables, ← mem_zip_shift]
    constructor
    · rintro ⟨hnone, hmem | ⟨hs, -⟩⟩
      · exact hmem
      · cases hnone.symm.trans hs
    · intro hmem
      obtain ⟨e, rfl, hz⟩ := mem_zip_shift.mp hmem
      exact ⟨(hmiss e (List.of_mem_zip hz).2).2, .inl hmem⟩

/-- What an operation leaves alone. -/
structure SameShape (c c' : ExpertCache) : Prop where

  layers : c'.numLayers = c.numLayers
  experts : c'.numExperts = c.numExperts
  size : c'.cacheSize = c.cacheSize

/-- The inputs on which a step ends in an assertion. -/
theorem ensureSplit_inRange {r : ExpertCache × EnsurePlan}
    (h : c.ensureSplit layer routes policy = some r) :
    c.step < i64Max ∧ layer < c.numLayers ∧
      ∀ e ∈ routes, layer * c.numExperts + e < c.slotForId.length := by
  unfold ensureSplit at h
  obtain ⟨step, hstep, h⟩ := Option.bind_eq_some_iff.mp h
  obtain ⟨base, hbase, h⟩ := Option.bind_eq_some_iff.mp h
  obtain ⟨freq, -, h⟩ := Option.bind_eq_some_iff.mp h
  obtain ⟨⟨usage, missing⟩, htouch, -⟩ := Option.bind_eq_some_iff.mp h
  obtain ⟨hl, -, rfl⟩ := flat_zero.mp hbase
  exact ⟨tick_lt hstep, hl, fun e he => touchHits_inRange htouch e (by simpa using he)⟩

/-- The stages of a step put together. -/
theorem ensureSplit_eq {step : ℤ} {freq : List ℕ} {usage recency : List ℤ} {misses : List ℕ}
    {slots : List (Option ℕ)} {row : ExpertCacheStats} (htick : c.tick = some step)
    (hbase : c.flat layer 0 = some base) (hfreq : c.observeRoutes base routes = some freq)
    (htouch : c.touchHits base step (distinctRoutes routes) c.usage [] = some (usage, misses))
    (hloop : ((c.orderMissing base policy misses).take
        (numFetch policy (c.orderMissing base policy misses).length)).foldlM
      (Placing.place base step) (c.fetching usage
        (c.evictable base (distinctRoutes routes) policy step usage)) = some p)
    (hslots : routeSlots p.slotForId base routes = some slots)
    (hrec : stampRecency base step policy (distinctRoutes routes) c.recency = some recency)
    (hrow : c.layerStats[layer]? = some row) :
    ∃ c' plan, c.ensureSplit layer routes policy = some (c', plan) ∧
      SameShape c c' ∧ c'.slotForId = p.slotForId ∧ c'.idOfSlot = p.idOfSlot ∧
      c'.usage = p.usage ∧ c'.step = step ∧ c'.recency = recency ∧ c'.routingFreq = freq ∧
      c'.layerStats.length = c.layerStats.length ∧ c'.prefillSnapshot = c.prefillSnapshot ∧
      plan = ⟨slots, p.copy, (distinctRoutes routes).length,
        (c.orderMissing base policy misses).length,
        numFetch policy (c.orderMissing base policy misses).length⟩ := by
  unfold fetching at hloop
  unfold ensureSplit
  simp only [htick, hbase, hfreq, htouch, hloop, hslots, hrec, hrow, Option.bind_eq_bind,
    Option.bind_some]
  exact ⟨_, _, rfl, ⟨rfl, rfl, rfl⟩, rfl, rfl, rfl, rfl, rfl, rfl, by simp, rfl, rfl⟩

/-- A step whose layer and ids are in range runs to its end, whatever the cache holds. -/
theorem ensureSplit_spec (policy : Option QStarPolicy) (h : c.Sound) (hstep : c.step < i64Max) (hl : layer < c.numLayers)
    (hin : ∀ e ∈ routes, layer * c.numExperts + e < c.slotForId.length) :
    ∃ c' plan, c.ensureSplit layer routes policy = some (c', plan) ∧ c'.Sound ∧ SameShape c c' ∧
      ((distinctRoutes routes).length ≤ c.cacheSize → c.cacheSize ≤ 2 ^ 32 →
        Served c c' (layer * c.numExperts) routes policy plan) := by
  set base := layer * c.numExperts
  have htick : c.tick = some (c.step + 1) := if_pos hstep
  have hbase : c.flat layer 0 = some base := flat_zero.mpr ⟨hl, h.experts, rfl⟩
  have hin' : ∀ e ∈ distinctRoutes routes, base + e < c.slotForId.length := by simpa using hin
  have hinFreq : ∀ e ∈ routes, base + e < c.routingFreq.length := by rwa [h.freq, ← h.ids]
  have hinSeen : ∀ e ∈ distinctRoutes routes, base + e < c.recency.length := by
    rwa [h.seen, ← h.ids]
  obtain ⟨freq, hfreq, hfreqLen⟩ := observeRoutes_runs hinFreq
  obtain ⟨usage, htouch, husage, hget⟩ := touchHits_spec (c.step + 1) [] c.usage hin'
    (fun id slot hs => h.clock ▸ h.slot_lt hs)
  rw [List.nil_append] at htouch
  set ordered := c.orderMissing base policy (c.misses base (distinctRoutes routes)) with hordered
  have hperm : ordered.Perm (c.misses base (distinctRoutes routes)) := orderMissing_perm policy _
  set k := numFetch policy ordered.length with hk
  have hsub : ∀ e ∈ ordered.take k, e ∈ distinctRoutes routes ∧ c.slotAt (base + e) = none :=
    fun e he => mem_misses.mp (hperm.mem_iff.mp (List.mem_of_mem_take he))
  have hevict : (c.evictable base (distinctRoutes routes) policy (c.step + 1) usage).length =
      c.cacheSize := by rw [length_evictable, husage, h.clock]
  have hle : ∀ u ∈ usage, u ≤ c.step + 1 := by
    rintro u hu
    obtain ⟨i, hi⟩ := List.getElem?_of_mem hu
    rw [hget i] at hi
    split at hi
    · exact (Option.some.inj hi).symm.le
    · have := h.usage_le u (List.mem_of_getElem? hi)
      omega
  have hfetchNodup : (ordered.take k).Nodup :=
    (hperm.nodup_iff.mpr (nodup_misses c base routes)).sublist (List.take_sublist _ _)
  obtain ⟨p, hloop, hp, hexact⟩ := fetch_runs (distinctRoutes routes) h
    (husage.trans h.clock) hevict hle hfetchNodup (fun e he => hin' e (hsub e he).1)
    (fun e he => (hsub e he).2)
  have hslots := routeSlots_eq p.slotForId base (hp.ids ▸ hin)
  obtain ⟨recency, hrec, hrecLen⟩ := stampRecency_runs policy (c.step + 1) hinSeen
  have hrow := List.getElem?_eq_getElem (h.rows ▸ hl : layer < c.layerStats.length)
  obtain ⟨c', plan, heq, hshape, hids, hslot, husage', hstep', hseen, hfreq', hrows, hsnap, rfl⟩ :=
    ensureSplit_eq htick hbase hfreq htouch hloop hslots hrec hrow
  refine ⟨c', _, heq, ?_, hshape, fun hroom hsize => ?_⟩
  · have hstep0 := h.step_nonneg
    constructor
    · rw [hshape.experts]; exact h.experts
    · rw [hshape.experts, hshape.size]; exact h.fits
    · rw [hids, hp.ids, h.ids, hshape.layers, hshape.experts]
    · rw [hslot, hp.slots, hshape.size]
    · rw [husage', hp.clock, hshape.size]
    · rw [hseen, hrecLen, h.seen, hshape.layers, hshape.experts]
    · rw [hfreq', hfreqLen, h.freq, hshape.layers, hshape.experts]
    · rw [hrows, h.rows, hshape.layers]
    · rw [hids, hslot]; exact hp.paired
    · omega
    · rw [husage', hstep']; exact hp.usage_le
    · rw [hsnap, hshape.layers, hshape.experts, prefillOverlapFits, prefillBufferSlots,
        hshape.size, hshape.experts]
      exact h.chunk
  · have hcount := length_hits_add_misses c base (distinctRoutes routes)
    have hlen : (ordered.take k).length = k := by simpa using numFetch_le policy ordered.length
    have htaken : Taken (c.evictable base (distinctRoutes routes) policy (c.step + 1) usage)
        (c.hits base (distinctRoutes routes)) :=
      taken_evictable h.paired (h.fits.trans hsize) policy (by omega)
        (fun u hu => by have := h.usage_le u hu; omega) hget
    obtain ⟨victims, hx⟩ := hexact htaken (by
      have hk := numFetch_le policy ordered.length
      have := hperm.length_eq
      omega)
    refine served_of_exact (ordered.drop k) hsize hp hx ?_ ?_ hids rfl rfl ?_ hlen.symm
    · rw [List.take_append_drop]; exact hperm
    · rw [List.take_append_drop]; exact hlen
    · rw [List.take_append_drop]

end ExpertCache

end Frink.Expert
