import Mathlib
import Frink.Expert.Cache

/-! # Hits and victims

The slots of a step's hits are off the table; while fewer slots are taken than
the pool has, each victim is a slot nobody of the step has, and the tables
change by exactly the experts placed so far.
-/

namespace Frink.Expert

open Checked

theorem argminFrom_spec (slot best : ℕ) (u : ℤ) (rest : List ℤ) :
    ∃ m ≤ u, (∀ v ∈ rest, m ≤ v) ∧ (argminFrom slot best u rest = best ∧ m = u ∨
      ∃ i, argminFrom slot best u rest = slot + i ∧ rest[i]? = some m) := by
  induction rest generalizing slot best u with
  | nil => exact ⟨u, le_rfl, by simp, .inl ⟨rfl, rfl⟩⟩
  | cons v rest ih =>
    unfold argminFrom
    split
    · rename_i hv
      obtain ⟨m, hm, hall, h | ⟨i, h, hi⟩⟩ := ih (slot + 1) slot v
      · exact ⟨m, by omega, by simpa using ⟨hm, hall⟩, .inr ⟨0, by simpa using h.1, by simp [h.2]⟩⟩
      · exact ⟨m, by omega, by simpa using ⟨hm, hall⟩, .inr ⟨i + 1, by omega, by simpa using hi⟩⟩
    · rename_i hv
      obtain ⟨m, hm, hall, h | ⟨i, h, hi⟩⟩ := ih (slot + 1) best u
      · exact ⟨m, hm, by simpa using ⟨by omega, hall⟩, .inl h⟩
      · exact ⟨m, hm, by simpa using ⟨by omega, hall⟩, .inr ⟨i + 1, by omega, by simpa using hi⟩⟩

/-- The victim is a slot of least usage. -/
theorem argminSlot_spec {usage : List ℤ} (h : usage ≠ []) :
    ∃ victim m, argminSlot usage = some victim ∧ usage[victim]? = some m ∧ ∀ v ∈ usage, m ≤ v := by
  cases usage with
  | nil => exact absurd rfl h
  | cons first rest =>
    obtain ⟨m, hm, hall, hr | ⟨i, hr, hi⟩⟩ := argminFrom_spec 1 0 first rest
    · exact ⟨_, m, rfl, by simp [hr.1, hr.2], by simpa using ⟨hm, hall⟩⟩
    · refine ⟨_, m, rfl, ?_, by simpa using ⟨hm, hall⟩⟩
      rw [hr, Nat.add_comm]
      simpa using hi

namespace ExpertCache

variable (c : ExpertCache) (base : ℕ)

/-- The slots of the resident experts among the routes. -/
def hits (routes : List ℕ) : List ℕ := routes.filterMap fun expert => c.slotAt (base + expert)

/-- The routes that have no slot. -/
def misses (routes : List ℕ) : List ℕ :=
  routes.filter fun expert => (c.slotAt (base + expert)).isNone

variable {c base}

theorem hits_cons_some {e slot : ℕ} (h : c.slotAt (base + e) = some slot) (routes : List ℕ) :
    c.hits base (e :: routes) = slot :: c.hits base routes := by simp [hits, h]

theorem misses_cons_some {e slot : ℕ} (h : c.slotAt (base + e) = some slot) (routes : List ℕ) :
    c.misses base (e :: routes) = c.misses base routes := by simp [misses, h]

theorem length_hits_add_misses (c : ExpertCache) (base : ℕ) (routes : List ℕ) :
    (c.hits base routes).length + (c.misses base routes).length = routes.length := by
  induction routes with
  | nil => rfl
  | cons e routes ih =>
    cases h : c.slotAt (base + e) <;> simp [hits, misses, h] at ih ⊢ <;> omega

theorem touchHits_inRange {step : ℤ} {routes missing : List ℕ} {usage : List ℤ}
    {r : List ℤ × List ℕ} (h : c.touchHits base step routes usage missing = some r) :
    ∀ expert ∈ routes, base + expert < c.slotForId.length := by
  induction routes generalizing usage missing with
  | nil => simp
  | cons e routes ih =>
    unfold touchHits at h
    obtain ⟨slot, hslot, h⟩ := Option.bind_eq_some_iff.mp h
    have he := (List.getElem?_eq_some_iff.mp hslot).1
    cases slot with
    | none => simpa using ⟨he, ih h⟩
    | some slot =>
      obtain ⟨usage', -, h⟩ := Option.bind_eq_some_iff.mp h
      simpa using ⟨he, ih h⟩

theorem touchHits_spec (step : ℤ) {routes : List ℕ} (missing : List ℕ) (usage : List ℤ)
    (hin : ∀ expert ∈ routes, base + expert < c.slotForId.length)
    (hslot : ∀ id slot, c.slotAt id = some slot → slot < usage.length) :
    ∃ usage', c.touchHits base step routes usage missing =
        some (usage', missing ++ c.misses base routes) ∧
      usage'.length = usage.length ∧
      ∀ slot, usage'[slot]? = if slot ∈ c.hits base routes then some step else usage[slot]? := by
  induction routes generalizing usage missing with
  | nil => exact ⟨usage, by simp [touchHits, misses], rfl, by simp [hits]⟩
  | cons e routes ih =>
    obtain ⟨he, hin⟩ := List.forall_mem_cons.mp hin
    have hlook : c.slotForId[base + e]? = some (c.slotAt (base + e)) := by
      simp [slotAt, Table.look, List.getElem?_eq_getElem he]
    cases hs : c.slotAt (base + e) with
    | none =>
      obtain ⟨usage', h, hlen, hget⟩ := ih (missing ++ [e]) usage hin hslot
      refine ⟨usage', ?_, hlen, by simpa [hits, hs] using hget⟩
      simpa [touchHits, hlook, hs, misses] using h
    | some slot =>
      have hlt := hslot _ _ hs
      obtain ⟨usage', h, hlen, hget⟩ := ih missing (usage.set slot step) hin
        (by simpa using hslot)
      refine ⟨usage', ?_, by simpa using hlen, fun s => ?_⟩
      · simpa [touchHits, hlook, hs, misses_cons_some hs, write_of_lt hlt] using h
      · rw [hget s, hits_cons_some hs]
        by_cases hmem : s ∈ c.hits base routes
        · simp [hmem]
        · by_cases hss : slot = s
          · subst hss; simp [hmem, hlt]
          · simp [hmem, List.getElem?_set_ne hss, Ne.symm hss]

end ExpertCache

/-- The slots off the table are exactly the ones listed. -/
def Taken (evictable : List ℤ) (taken : List ℕ) : Prop :=
  ∀ slot u, evictable[slot]? = some u → (slot ∈ taken ↔ u = unevictable) ∧ u ≤ unevictable

theorem Taken.exists_free {evictable : List ℤ} {taken : List ℕ} (h : Taken evictable taken)
    (hlt : taken.length < evictable.length) : ∃ u ∈ evictable, u < unevictable := by
  have hfree : ∃ slot, slot < evictable.length ∧ slot ∉ taken := by
    by_contra hall
    push Not at hall
    have hsub : List.range evictable.length ⊆ taken := fun slot hs =>
      hall slot (List.mem_range.mp hs)
    have hle := (List.nodup_range.subperm hsub).length_le
    simp at hle
    omega
  obtain ⟨slot, hs, hnot⟩ := hfree
  obtain ⟨hiff, hle⟩ := h slot _ (List.getElem?_eq_getElem hs)
  exact ⟨_, List.getElem_mem hs, lt_of_le_of_ne hle fun he => hnot (hiff.mpr he)⟩

theorem Taken.take {evictable : List ℤ} {taken : List ℕ} (h : Taken evictable taken) (slot : ℕ) :
    Taken (evictable.set slot unevictable) (taken ++ [slot]) := by
  rintro s u hu
  by_cases hs : slot = s
  · subst hs
    obtain ⟨hlt, -⟩ := List.getElem?_eq_some_iff.mp hu
    obtain rfl : unevictable = u := by
      simpa [List.getElem?_set, (by simpa using hlt : slot < evictable.length)] using hu
    simp
  · rw [List.getElem?_set_ne hs] at hu
    simpa [Ne.symm hs] using h s u hu

namespace ExpertCache

variable {c : ExpertCache} {base : ℕ} {routes : List ℕ}

@[simp] theorem length_evictable (policy : Option QStarPolicy) (step : ℤ) (usage : List ℤ) :
    (c.evictable base routes policy step usage).length = usage.length := by
  unfold evictable
  split <;> simp

/-- A slot whose expert the step routes to is the slot of a hit. -/
theorem mem_hits_of_routedHere (hp : Paired c.slotForId c.idOfSlot) (hE : c.numExperts ≤ 2 ^ 32)
    {slot : ℕ} (h : c.routedHere base routes slot = true) : slot ∈ c.hits base routes := by
  unfold routedHere at h
  split at h
  · rename_i id hid
    obtain ⟨hb, hlt, hmem⟩ := by simpa using h
    rw [asU32, Nat.mod_eq_of_lt (by omega)] at hmem
    refine List.mem_filterMap.mpr ⟨id - base, hmem, ?_⟩
    rw [Nat.add_sub_cancel' hb]
    exact (hp.iff id slot).mpr hid
  · cases h

theorem taken_evictable (hp : Paired c.slotForId c.idOfSlot) (hE : c.numExperts ≤ 2 ^ 32)
    {step : ℤ} {usage : List ℤ} (policy : Option QStarPolicy) (hstep : step ≤ i64Max)
    (hold : ∀ u ∈ c.usage, u < step)
    (hget : ∀ slot, usage[slot]? = if slot ∈ c.hits base routes then some step else c.usage[slot]?) :
    Taken (c.evictable base routes policy step usage) (c.hits base routes) := by
  have hcommitted : Taken (usage.map fun u => if u = step then unevictable else u)
      (c.hits base routes) := by
    rintro slot u hu
    rw [List.getElem?_map, hget slot] at hu
    by_cases hs : slot ∈ c.hits base routes
    · obtain rfl : unevictable = u := by simpa [hs] using hu
      simp [hs]
    · rw [if_neg hs] at hu
      obtain ⟨v, hv, rfl⟩ := Option.map_eq_some_iff.mp hu
      have hlt := hold v (List.mem_of_getElem? hv)
      have hlt' : v < unevictable := lt_of_lt_of_le hlt hstep
      rw [if_neg hlt.ne]
      exact ⟨iff_of_false hs hlt'.ne, hlt'.le⟩
  unfold evictable
  split
  · rintro slot u hu
    rw [List.getElem?_mapIdx] at hu
    obtain ⟨v, hv, rfl⟩ := Option.map_eq_some_iff.mp hu
    split
    · rename_i hr
      simp [mem_hits_of_routedHere hp hE hr]
    · exact hcommitted slot v hv
  · exact hcommitted

theorem clearOwner_eq {slotForId idOfSlot : Table} (h : Paired slotForId idOfSlot) (slot : ℕ) :
    clearOwner slotForId (Table.look idOfSlot slot) =
      some (Paired.evict slotForId idOfSlot slot) := by
  unfold Paired.evict
  cases ho : Table.look idOfSlot slot with
  | none => rfl
  | some old => exact write_of_lt (Table.lt_of_look ((h.iff old slot).mpr ho))

/-- What the fetch loop keeps, whatever it evicts. -/
structure Placed (c : ExpertCache) (base : ℕ) (step : ℤ) (read : List ℕ) (p : Placing) : Prop where

  paired : Paired p.slotForId p.idOfSlot
  ids : p.slotForId.length = c.slotForId.length
  slots : p.idOfSlot.length = c.cacheSize
  clock : p.usage.length = c.cacheSize
  room : p.evictable.length = c.cacheSize
  usage_le : ∀ u ∈ p.usage, u ≤ step
  absent : ∀ id, c.slotAt id = none → (∀ e ∈ read, id ≠ base + e) →
    Table.look p.slotForId id = none

/-- What it has done so far, while no victim was one of the step's own slots. -/
structure Exact (c : ExpertCache) (base : ℕ) (routes read victims : List ℕ) (p : Placing) :
    Prop where

  nodup : victims.Nodup
  spared : ∀ v ∈ victims, v ∉ c.hits base routes
  length : victims.length = read.length
  copy : p.copy = ⟨victims.map asU32, read⟩
  taken : Taken p.evictable (c.hits base routes ++ victims)
  tables : ∀ id slot, Table.look p.slotForId id = some slot ↔
    (id, slot) ∈ (read.map (base + ·)).zip victims ∨ c.slotAt id = some slot ∧ slot ∉ victims

variable {step : ℤ} {read victims : List ℕ} {p : Placing} {expert : ℕ}

theorem Placed.place_eq (h : Placed c base step read p) (hC : 0 < c.cacheSize)
    (hlt : base + expert < c.slotForId.length) :
    ∃ victim m, p.evictable[victim]? = some m ∧ (∀ v ∈ p.evictable, m ≤ v) ∧
      p.place base step expert = some {
        slotForId := (Paired.evict p.slotForId p.idOfSlot victim).set (base + expert) (some victim)
        idOfSlot := p.idOfSlot.set victim (some (base + expert))
        usage := p.usage.set victim step
        evictable := p.evictable.set victim unevictable
        copy := ⟨p.copy.dstSlots ++ [asU32 victim], p.copy.srcRows ++ [expert]⟩ } := by
  have hne : p.evictable ≠ [] := by
    rintro hnil
    have := h.room
    simp [hnil] at this
    omega
  obtain ⟨victim, m, hv, hm, hall⟩ := argminSlot_spec hne
  have hvC : victim < c.cacheSize := h.room ▸ (List.getElem?_eq_some_iff.mp hm).1
  refine ⟨victim, m, hm, hall, ?_⟩
  have hold : p.idOfSlot[victim]? = some (Table.look p.idOfSlot victim) := by
    simp [Table.look, List.getElem?_eq_getElem (h.slots ▸ hvC : victim < p.idOfSlot.length)]
  have hclear : clearOwner p.slotForId (Table.look p.idOfSlot victim) =
      some (Paired.evict p.slotForId p.idOfSlot victim) := clearOwner_eq h.paired victim
  simp only [Placing.place, hv, hold, hclear, Option.bind_eq_bind, Option.bind_some,
    write_of_lt (h.slots ▸ hvC : victim < p.idOfSlot.length),
    write_of_lt (h.clock ▸ hvC : victim < p.usage.length),
    write_of_lt (h.room ▸ hvC : victim < p.evictable.length)]
  rw [write_of_lt (by simpa [h.ids] using hlt)]
  rfl

/-- One round of the loop keeps the tables paired. -/
theorem Placed.place (h : Placed c base step read p) (hC : 0 < c.cacheSize)
    (hlt : base + expert < c.slotForId.length) (hmiss : c.slotAt (base + expert) = none)
    (hnew : expert ∉ read) :
    ∃ p', p.place base step expert = some p' ∧ Placed c base step (read ++ [expert]) p' := by
  obtain ⟨victim, m, hm, -, hplace⟩ := h.place_eq hC hlt
  have hvC : victim < p.idOfSlot.length :=
    h.slots ▸ h.room ▸ (List.getElem?_eq_some_iff.mp hm).1
  have hnone : Table.look p.slotForId (base + expert) = none :=
    h.absent _ hmiss fun e he heq => hnew (by rwa [Nat.add_left_cancel heq])
  refine ⟨_, hplace, ?_⟩
  constructor
  · exact h.paired.displace (h.ids ▸ hlt) hvC hnone
  · simp [h.ids]
  · simp [h.slots]
  · simp [h.clock]
  · simp [h.room]
  · rintro u hu
    rcases List.mem_or_eq_of_mem_set hu with hu | rfl
    · exact h.usage_le u hu
    · exact le_rfl
  · rintro id hid hall
    rw [Paired.look_displace h.paired (h.ids ▸ hlt), if_neg (hall expert (by simp)),
      h.absent id hid fun e he => hall e (by simp [he])]
    simp

/-- While slots are left, the victim is none of the step's own. -/
theorem Exact.place (h : Placed c base step read p) (hx : Exact c base routes read victims p)
    (hroom : (c.hits base routes).length + read.length < c.cacheSize)
    (hlt : base + expert < c.slotForId.length) (hmiss : c.slotAt (base + expert) = none)
    (hnew : expert ∉ read) {p' : Placing} (hp : p.place base step expert = some p') :
    ∃ victims', Exact c base routes (read ++ [expert]) victims' p' := by
  obtain ⟨victim, m, hm, hall, hplace⟩ := h.place_eq (by omega) hlt
  obtain rfl := Option.some.inj (hplace.symm.trans hp)
  have hfree : victim ∉ c.hits base routes ++ victims := by
    obtain ⟨u, hu, hlt⟩ := hx.taken.exists_free
      (by simp only [List.length_append, hx.length, h.room]; exact hroom)
    intro hmem
    have := (hx.taken victim m hm).1.mp hmem
    have := hall u hu
    omega
  simp only [List.mem_append, not_or] at hfree
  refine ⟨victims ++ [victim], ?_⟩
  constructor
  · simpa [List.nodup_append] using ⟨hx.nodup, fun v hv => by rintro rfl; exact hfree.2 hv⟩
  · simpa [or_imp, forall_and] using ⟨hx.spared, hfree.1⟩
  · simp [hx.length]
  · simp [hx.copy]
  · rw [← List.append_assoc]
    exact hx.taken.take victim
  · rintro id slot
    rw [Paired.look_displace h.paired (h.ids ▸ hlt), List.map_append, List.zip_append (by
      simp [hx.length])]
    have hnone : Table.look p.slotForId (base + expert) = none :=
      h.absent _ hmiss fun e he heq => hnew (by rwa [Nat.add_left_cancel heq])
    by_cases hid : id = base + expert
    · subst hid
      have hfar : ∀ s, (base + expert, s) ∉ (read.map (base + ·)).zip victims := by
        rintro s hs
        exact nomatch hnone.symm.trans ((hx.tables _ s).mpr (.inl hs))
      simp [hmiss, hfar, eq_comm]
    · rw [if_neg hid]
      have hlast : (id, slot) ∉ List.zip ([expert].map (base + ·)) [victim] := by simp [hid]
      have hzip : (id, victim) ∉ (read.map (base + ·)).zip victims := fun hmem =>
        hfree.2 (List.of_mem_zip hmem).2
      simp only [List.mem_append, hlast, or_false, List.mem_singleton, not_or]
      by_cases hv : Table.look p.slotForId id = some victim
      · rw [if_pos hv]
        constructor
        · nofun
        · rintro (hmem | ⟨hs, -, hne⟩)
          · have hs := hv.symm.trans ((hx.tables id slot).mpr (.inl hmem))
            exact absurd (Option.some.inj hs ▸ hmem) hzip
          · obtain hmem | ⟨hs', -⟩ := (hx.tables id victim).mp hv
            · exact absurd hmem hzip
            · exact absurd (Option.some.inj (hs.symm.trans hs')) hne
      · rw [if_neg hv, hx.tables id slot]
        constructor
        · rintro (hmem | ⟨hs, hmem⟩)
          · exact .inl hmem
          · refine .inr ⟨hs, hmem, ?_⟩
            rintro rfl
            exact hv ((hx.tables id slot).mpr (.inr ⟨hs, hmem⟩))
        · rintro (hmem | ⟨hs, hmem, -⟩)
          · exact .inl hmem
          · exact .inr ⟨hs, hmem⟩

end ExpertCache

end Frink.Expert
