import Frink.Weights.ExpertStore

/-! # Admission to the expert store

In every state a store gets into the stamps differ and the bytes held are those of the entries, so
that the victims of one admission are the shortest run of what may go. The candidate is admitted
when that run makes enough room; what was evicted stays out when it does not.
-/

namespace Frink.Weights

open Keyed Shedding

/-- The books of a store are right. -/
structure Inner.Sound (budgetBytes : ℕ) (storage : Storage) (inner : Inner) : Prop where

  unique : Functional inner.entries

  stamps : ∀ x ∈ inner.entries, ∀ y ∈ inner.entries, x.2.lastUsed = y.2.lastUsed → x = y

  stamp_le : ∀ x ∈ inner.entries, x.2.lastUsed ≤ inner.clock

  resident : inner.residentBytes = total Entry.charge inner.entries

  heap : storage = .heap → inner.residentBytes ≤ budgetBytes

  slots : ∀ count slotBytes, storage = .slots count slotBytes →
    inner.entries.length + inner.freeSlots.length = count ∧
      ∀ x ∈ inner.entries, x.2.slot.isSome

namespace ExpertStore

variable (s : ExpertStore) (inner : Inner) (key : ExpertKey)

/-- The entries that may go for `key`: nobody leases them, and they are no hotter. -/
def mayGo (x : ExpertKey × Entry) : Bool :=
  x.2.leases = 0 ∧ s.selections x.1 ≤ s.selections key

def evictable : List (ExpertKey × Entry) := inner.entries.filter (s.mayGo key)

/-- The largest expert that is ever cached. -/
def maxBytes : ℕ :=
  match s.storage with
  | .heap => s.budgetBytes
  | .slots _ slotBytes => slotBytes

/-- What is bounded: bytes on the heap, or the number of occupied slots. -/
def capacity : ℕ :=
  match s.storage with
  | .heap => s.budgetBytes
  | .slots count _ => count

def units (x : ExpertKey × Entry) : ℕ :=
  match s.storage with
  | .heap => x.2.charge
  | .slots _ _ => 1

/-- What would be taken with `size` bytes for `key` as well. -/
def demand (size : ℕ) : ℕ :=
  if (inner.entries.lookup key).isSome then 0
  else
    match s.storage with
    | .heap => inner.residentBytes + size
    | .slots _ _ => inner.entries.length + 1

/-- Admitted, at the cost of no more than the first of the evictable entries; or served uncached,
at no cost. -/
def AllOrNothing (size : ℕ) (r : Placement × Inner) : Prop :=
  (∃ data slot victims, r.1 = .cached data slot ∧
    Shed s.rank s.units {x | x ∈ s.evictable inner key} (s.demand inner key size) s.capacity
      victims ∧
    key ∈ r.2.entries.map Prod.fst ∧
    ∀ x : ExpertKey × Entry, x.1 ≠ key → (x ∈ r.2.entries ↔ x ∈ inner.entries ∧ x ∉ victims)) ∨
  ∃ data, r.1 = .passThrough data ∧ ∀ x, x ∈ r.2.entries ↔ x ∈ inner.entries

/-- Whether the candidate gets in is settled before anything goes: it is too large, it fits, nothing
may go for it, or what may go is enough and a slot that has to be freed takes the write. -/
def Settled (device : ℕ → Bytes → Except String Unit) (data : Bytes) : Prop :=
  s.maxBytes < data.length ∨ s.demand inner key data.length ≤ s.capacity ∨
  s.evictable inner key = [] ∨
  s.demand inner key data.length ≤ s.capacity + ((s.evictable inner key).map s.units).sum ∧
    ∀ count slotBytes slot, s.storage = .slots count slotBytes →
      (∃ x ∈ s.evictable inner key, x.2.slot = some slot ∧
        ∀ y ∈ s.evictable inner key, y ≠ x → s.rank x < s.rank y) →
      device slot (padded slotBytes data) = .ok ()

variable {s inner key} {inner' : Inner} {size fuel : ℕ} {v : ExpertKey}

theorem mem_evictable {x : ExpertKey × Entry} : x ∈ s.evictable inner key ↔
    x ∈ inner.entries ∧ x.2.leases = 0 ∧ s.selections x.1 ≤ s.selections key := by
  simp [evictable, mayGo]

theorem rank_inj (h : inner.Sound s.budgetBytes s.storage) {x y : ExpertKey × Entry}
    (hx : x ∈ inner.entries) (hy : y ∈ inner.entries) (heq : s.rank x = s.rank y) : x = y := by
  apply h.stamps x hx y hy
  have heq : (s.selections x.1, x.2.lastUsed) = (s.selections y.1, y.2.lastUsed) := heq
  exact (Prod.mk.inj heq).2

/-- Who is asked for a victim: nobody when nothing may go, and else the least of what may. -/
theorem victim_cases (h : inner.Sound s.budgetBytes s.storage) (key : ExpertKey) :
    (∃ refused, s.victim inner key = (none, { inner with refusedAdmissions := refused }) ∧
      s.evictable inner key = []) ∨
    ∃ x ∈ s.evictable inner key, s.victim inner key = (some x.1, inner) ∧
      ∀ y ∈ s.evictable inner key, y ≠ x → s.rank x < s.rank y := by
  unfold victim
  cases hmin : (inner.entries.filter fun x => decide (x.2.leases = 0)).argmin s.rank with
  | none =>
    left
    refine ⟨inner.refusedAdmissions, rfl, ?_⟩
    rw [List.argmin_eq_none] at hmin
    rw [List.eq_nil_iff_forall_not_mem]
    intro x hx
    obtain ⟨hx, hfree, -⟩ := mem_evictable.mp hx
    have : x ∈ inner.entries.filter fun x => decide (x.2.leases = 0) := by simp [hx, hfree]
    rw [hmin] at this
    cases this
  | some x =>
    have hmem := List.argmin_mem hmin
    obtain ⟨hx, hfree⟩ := List.mem_filter.mp hmem
    have hfree : x.2.leases = 0 := of_decide_eq_true hfree
    have hleast : ∀ y ∈ inner.entries, y.2.leases = 0 → s.rank x ≤ s.rank y := by
      intro y hy hy0
      apply List.le_of_mem_argmin _ hmin
      simp [hy, hy0]
    dsimp only
    split
    · rename_i hhot
      left
      refine ⟨_, rfl, ?_⟩
      rw [List.eq_nil_iff_forall_not_mem]
      intro y hy
      obtain ⟨hy, hy0, hcold⟩ := mem_evictable.mp hy
      have hle := Prod.Lex.le_iff.mp (hleast y hy hy0)
      have hfst : s.selections x.1 ≤ s.selections y.1 := hle.elim le_of_lt fun h => h.1.le
      omega
    · rename_i hcold
      right
      refine ⟨x, mem_evictable.mpr ⟨hx, hfree, Nat.le_of_not_lt hcold⟩, rfl, ?_⟩
      intro y hy hne
      obtain ⟨hy, hy0, -⟩ := mem_evictable.mp hy
      apply lt_of_le_of_ne (hleast y hy hy0)
      intro heq
      exact hne (rank_inj h hy hx heq.symm)

/-- A victim goes with its bytes and its slot. -/
theorem evict_spec (h : inner.Sound s.budgetBytes s.storage) {x : ExpertKey × Entry}
    (hx : x ∈ inner.entries) : ∃ inner', evict inner x.1 = some inner' ∧
      inner'.Sound s.budgetBytes s.storage ∧
      inner'.residentBytes + x.2.charge = inner.residentBytes ∧
      inner'.entries.length + 1 = inner.entries.length ∧
      inner'.freeSlots = x.2.slot.toList ++ inner.freeSlots ∧
      ∀ y, y ∈ inner'.entries ↔ y ∈ inner.entries ∧ y ≠ x := by
  have hlen := length_erase h.unique hx
  have htotal := total_erase Entry.charge h.unique hx
  have hresident := h.resident
  have hmem : ∀ y, y ∈ erase x.1 inner.entries ↔ y ∈ inner.entries ∧ y ≠ x := by
    intro y
    rw [mem_erase]
    refine and_congr_right fun hy => not_congr ⟨fun heq => ?_, fun heq => heq ▸ rfl⟩
    exact Prod.ext heq (h.unique.eq_of_mem (heq ▸ hy : (x.1, y.2) ∈ inner.entries) hx)
  refine ⟨_, by rw [evict, h.unique.lookup hx]; rfl, ?_, ?_, hlen, rfl, hmem⟩
  · constructor
    · exact h.unique.erase x.1
    · intro y hy z hz
      exact h.stamps y ((hmem y).mp hy).1 z ((hmem z).mp hz).1
    · intro y hy
      exact h.stamp_le y ((hmem y).mp hy).1
    · dsimp only
      omega
    · intro hheap
      exact (Nat.sub_le _ _).trans (h.heap hheap)
    · intro count slotBytes hslots
      obtain ⟨hcount, hsome⟩ := h.slots count slotBytes hslots
      refine ⟨?_, fun y hy => hsome y ((hmem y).mp hy).1⟩
      obtain ⟨slot, hslot⟩ := Option.isSome_iff_exists.mp (hsome x hx)
      dsimp only
      rw [hslot, Option.toList_some, List.length_append, List.length_singleton]
      omega
  · dsimp only
    omega

/-- What `makeRoom` evicts is the shortest run that makes room, and all that may go otherwise. -/
theorem makeRoom_spec (size : ℕ) (key : ExpertKey) (h : inner.Sound s.budgetBytes s.storage) (hheap : s.storage = .heap)
    (hfuel : inner.entries.length < fuel) :
    ∃ fits inner' victims, s.makeRoom size key fuel inner = some (fits, inner') ∧
      Shed s.rank s.units {x | x ∈ s.evictable inner key} (inner.residentBytes + size)
        s.budgetBytes victims ∧
      inner'.Sound s.budgetBytes s.storage ∧
      (fits = true ↔
        inner.residentBytes + size ≤ s.budgetBytes + (victims.map s.units).sum) ∧
      (fits = true → inner'.residentBytes + size ≤ s.budgetBytes) ∧
      ∀ x, x ∈ inner'.entries ↔ x ∈ inner.entries ∧ x ∉ victims := by
  induction fuel generalizing inner with
  | zero => cases hfuel
  | succ fuel ih =>
    unfold makeRoom
    split
    · rename_i hfits
      exact ⟨true, inner, [], rfl, .nil_of_fits hfits, h, by simpa using hfits, fun _ => hfits,
        by simp⟩
    · rename_i hfull
      rcases victim_cases h key with ⟨refused, hvictim, hnone⟩ | ⟨x, hx, hvictim, hleast⟩
      · rw [hvictim]
        refine ⟨false, _, [], rfl, .nil_of_none fun a ha => ?_, ?_, ?_, nofun, by simp⟩
        · rw [hnone] at ha
          cases ha
        · exact ⟨h.unique, h.stamps, h.stamp_le, h.resident, h.heap, h.slots⟩
        · simpa using Nat.lt_of_not_le hfull
      · have hmem := (mem_evictable.mp hx).1
        obtain ⟨inner₁, hevict, hsound, hresident, hlen, -, hrest⟩ := evict_spec h hmem
        obtain ⟨fits, inner₂, victims, hrun, hshed, hsound₂, hiff, hroom, hleft⟩ :=
          ih hsound (by omega)
        have hunits : s.units x = x.2.charge := by
          rw [units, hheap]
        rw [hvictim]
        refine ⟨fits, inner₂, x :: victims, ?_, ?_, hsound₂, ?_, hroom, fun y => ?_⟩
        · dsimp only
          rw [hevict]
          exact hrun
        · apply Shed.cons (C := {y | y ∈ s.evictable inner key})
            (D := {y | y ∈ s.evictable inner₁ key}) (Nat.lt_of_not_le hfull) hx hleast
          · intro y
            change y ∈ s.evictable inner₁ key ↔ y ∈ s.evictable inner key ∧ y ≠ x
            rw [mem_evictable, mem_evictable, hrest]
            tauto
          · rw [hunits]
            have : inner.residentBytes + size - x.2.charge = inner₁.residentBytes + size := by omega
            rwa [this]
        · rw [hiff, List.map_cons, List.sum_cons, hunits]
          omega
        · rw [hleft, hrest, List.mem_cons, not_or, and_assoc]

end ExpertStore

namespace Inner.Sound

variable {budgetBytes : ℕ} {storage : Storage} {inner : Inner} {key : ExpertKey}

theorem new (budgetBytes : ℕ) :
    (ExpertStore.new budgetBytes).2.Sound budgetBytes .heap := by
  constructor
  case slots => nofun
  case heap => exact fun _ => Nat.zero_le _
  all_goals simp [ExpertStore.new, Inner.empty, Functional]

theorem withSlots (count slotBytes : ℕ) :
    (ExpertStore.withSlots count slotBytes).2.Sound (count * slotBytes) (.slots count slotBytes) := by
  constructor
  case slots =>
    rintro n b ⟨⟩
    exact ⟨by simp [ExpertStore.withSlots, Inner.empty], nofun⟩
  case heap => nofun
  all_goals simp [ExpertStore.withSlots, Inner.empty, Functional]

/-- An entry is rewritten in place, its stamp kept or the newest. -/
theorem modify (h : inner.Sound budgetBytes storage) {f : Entry → Entry} {clock : ℕ}
    (hcharge : ∀ e, (f e).charge = e.charge) (hslot : ∀ e, (f e).slot = e.slot)
    (hclock : inner.clock ≤ clock)
    (hstamp : (∀ e, (f e).lastUsed = e.lastUsed) ∨
      (∀ e, (f e).lastUsed = clock) ∧ inner.clock < clock) :
    Inner.Sound budgetBytes storage
      { inner with clock := clock, entries := Keyed.modify key f inner.entries } := by
  have hlen : (Keyed.modify key f inner.entries).length = inner.entries.length := List.length_map _
  have hunique := h.unique.modify key f
  constructor
  · exact hunique
  · intro x hx y hy heq
    have hkeys : x.1 = y.1 := by
      rcases mem_modify.mp hx with ⟨hx', hxk⟩ | ⟨hxk, e, he, hxe⟩ <;>
        rcases mem_modify.mp hy with ⟨hy', hyk⟩ | ⟨hyk, e', he', hye⟩
      · rw [h.stamps x hx' y hy' heq]
      · rcases hstamp with hkeep | ⟨hnew, hlt⟩
        · rw [hye, hkeep] at heq
          exact (congrArg Prod.fst (h.stamps x hx' (key, e') he' heq)).trans hyk.symm
        · have := h.stamp_le x hx'
          rw [heq, hye, hnew] at this
          omega
      · rcases hstamp with hkeep | ⟨hnew, hlt⟩
        · rw [hxe, hkeep] at heq
          exact hxk.trans (congrArg Prod.fst (h.stamps (key, e) he y hy' heq))
        · have := h.stamp_le y hy'
          rw [← heq, hxe, hnew] at this
          omega
      · rw [hxk, hyk]
    exact Prod.ext hkeys (hunique.eq_of_mem (hkeys ▸ hx : (y.1, x.2) ∈ _) hy)
  · intro x hx
    rcases mem_modify.mp hx with ⟨hx', -⟩ | ⟨-, e, he, hxe⟩
    · exact (h.stamp_le x hx').trans hclock
    · rw [hxe]
      rcases hstamp with hkeep | ⟨hnew, -⟩
      · rw [hkeep]
        exact (h.stamp_le _ he).trans hclock
      · exact (hnew e).le
  · exact h.resident.trans (total_modify_same hcharge key inner.entries).symm
  · exact h.heap
  · intro count slotBytes hslots
    obtain ⟨hcount, hsome⟩ := h.slots count slotBytes hslots
    refine ⟨by rw [hlen, hcount], fun x hx => ?_⟩
    rcases mem_modify.mp hx with ⟨hx', -⟩ | ⟨-, e, he, hxe⟩
    · exact hsome x hx'
    · rw [hxe, hslot]
      exact hsome _ he

theorem touch (h : inner.Sound budgetBytes storage) (key : ExpertKey) :
    (inner.touch key).Sound budgetBytes storage :=
  h.modify (fun _ => rfl) (fun _ => rfl) (Nat.le_succ _) (.inr ⟨fun _ => rfl, Nat.lt_succ_self _⟩)

theorem share (h : inner.Sound budgetBytes storage) (key : ExpertKey) :
    (inner.share key).Sound budgetBytes storage :=
  h.modify (fun _ => rfl) (fun _ => rfl) le_rfl (.inl fun _ => rfl)

theorem release (h : inner.Sound budgetBytes storage) (key : ExpertKey) :
    (inner.release key).Sound budgetBytes storage :=
  h.modify (fun _ => rfl) (fun _ => rfl) le_rfl (.inl fun _ => rfl)

/-- A new entry goes into the room that was made for it. -/
theorem admitEntry (h : inner.Sound budgetBytes storage) (hkey : key ∉ inner.entries.map Prod.fst)
    {free : List ℕ} {data : Bytes} {slot : Option ℕ} {charge : ℕ}
    (hheap : storage = .heap → inner.residentBytes + charge ≤ budgetBytes)
    (hslots : ∀ count slotBytes, storage = .slots count slotBytes →
      slot.isSome ∧ free.length + 1 = inner.freeSlots.length) :
    (ExpertStore.admitEntry { inner with freeSlots := free } key data slot charge).2.Sound
      budgetBytes storage := by
  have herase : erase key inner.entries = inner.entries := erase_of_not_mem hkey
  constructor
  · exact h.unique.insert key _
  · intro x hx y hy heq
    simp only [ExpertStore.admitEntry, Keyed.insert, herase, List.mem_cons] at hx hy
    rcases hx with rfl | hx <;> rcases hy with rfl | hy
    · rfl
    · have := h.stamp_le y hy
      rw [← heq] at this
      exact absurd this (Nat.not_succ_le_self _)
    · have := h.stamp_le x hx
      rw [heq] at this
      exact absurd this (Nat.not_succ_le_self _)
    · exact h.stamps x hx y hy heq
  · intro x hx
    simp only [ExpertStore.admitEntry, Keyed.insert, herase, List.mem_cons] at hx
    rcases hx with rfl | hx
    · exact le_rfl
    · exact Nat.le_succ_of_le (h.stamp_le x hx)
  · simp only [ExpertStore.admitEntry, Keyed.insert, herase, total_cons, h.resident]
    omega
  · exact hheap
  · intro count slotBytes hs
    obtain ⟨hcount, hsome⟩ := h.slots count slotBytes hs
    obtain ⟨hslot, hfree⟩ := hslots count slotBytes hs
    simp only [ExpertStore.admitEntry, Keyed.insert, herase, List.length_cons, List.mem_cons]
    refine ⟨by omega, ?_⟩
    rintro x (rfl | hx)
    · exact hslot
    · exact hsome x hx

end Inner.Sound

namespace ExpertStore

variable {s : ExpertStore} {inner : Inner} {key : ExpertKey} {data : Bytes}
  {device : ℕ → Bytes → Except String Unit}

/-- What came of a placement, and the entries it took out on the way. -/
structure Placed (s : ExpertStore) (inner : Inner) (key : ExpertKey) (size : ℕ)
    (r : Placement × Inner) (admitted : Bool) (victims : List (ExpertKey × Entry)) : Prop where

  sound : r.2.Sound s.budgetBytes s.storage

  victims_mem : ∀ v ∈ victims, v ∈ inner.entries

  cached : admitted = true → ∃ data slot, r.1 = .cached data slot ∧
    Shed s.rank s.units {x | x ∈ s.evictable inner key} (s.demand inner key size) s.capacity
      victims ∧
    key ∈ r.2.entries.map Prod.fst ∧
    ∀ x : ExpertKey × Entry, x.1 ≠ key → (x ∈ r.2.entries ↔ x ∈ inner.entries ∧ x ∉ victims)

  passed : admitted = false → ∃ data, r.1 = .passThrough data ∧
    ∀ x, x ∈ r.2.entries ↔ x ∈ inner.entries ∧ x ∉ victims

/-- What is served uncached must not have cost an entry. -/
theorem Placed.allOrNothing_iff {size : ℕ} {r : Placement × Inner} {admitted : Bool}
    {victims : List (ExpertKey × Entry)} (h : Placed s inner key size r admitted victims) :
    s.AllOrNothing inner key size r ↔ admitted = true ∨ victims = [] := by
  cases admitted with
  | true =>
    obtain ⟨data, slot, hcached⟩ := h.cached rfl
    exact iff_of_true (.inl ⟨data, slot, victims, hcached⟩) (.inl rfl)
  | false =>
    obtain ⟨data, hr, hleft⟩ := h.passed rfl
    constructor
    · rintro (⟨data', slot, _, hr', -⟩ | ⟨_, -, hsame⟩)
      · rw [hr] at hr'
        cases hr'
      · right
        rw [List.eq_nil_iff_forall_not_mem]
        intro v hv
        have hin := h.victims_mem v hv
        exact ((hleft v).mp ((hsame v).mpr hin)).2 hv
    · rintro (hadm | rfl)
      · cases hadm
      · exact .inr ⟨data, hr, fun x => (hleft x).trans (by simp)⟩

/-- A new entry, beside what was left. -/
theorem mem_admitEntry {free : List ℕ} {slot : Option ℕ} {charge : ℕ} {x : ExpertKey × Entry}
    (hx : x.1 ≠ key) :
    x ∈ (admitEntry { inner with freeSlots := free } key data slot charge).2.entries ↔
      x ∈ inner.entries := by
  simp only [admitEntry, Keyed.insert, List.mem_cons, mem_erase]
  constructor
  · rintro (rfl | hmem)
    · exact absurd rfl hx
    · exact hmem.1
  · exact fun hmem => .inr ⟨hmem, hx⟩

theorem place_heap (h : inner.Sound s.budgetBytes s.storage) (hheap : s.storage = .heap)
    (hkey : inner.entries.lookup key = none) (hsize : data.length ≤ s.budgetBytes) :
    ∃ r admitted victims, s.place device inner key data = some r ∧
      Placed s inner key data.length r admitted victims ∧
      (s.Settled inner key device data ↔ admitted = true ∨ victims = []) := by
  obtain ⟨fits, inner', victims, hrun, hshed, hsound, hiff, hroom, hleft⟩ :=
    makeRoom_spec data.length key h hheap (Nat.lt_succ_self _)
  have hdemand : s.demand inner key data.length = inner.residentBytes + data.length := by
    rw [demand, hkey, if_neg (by simp), hheap]
  have hcapacity : s.capacity = s.budgetBytes := by rw [capacity, hheap]
  have hmax : s.maxBytes = s.budgetBytes := by rw [maxBytes, hheap]
  have hnew : key ∉ inner'.entries.map Prod.fst := by
    intro hmem
    obtain ⟨x, hx, rfl⟩ := List.mem_map.mp hmem
    exact not_mem_of_lookup hkey (mem_keys ((hleft x).mp hx).1)
  have hplace : s.place device inner key data = some
      (if fits then admitEntry inner' key data none data.length else (.passThrough data, inner')) := by
    rw [place, hkey]
    dsimp only
    rw [hheap]
    dsimp only
    rw [if_neg (Nat.not_lt_of_le hsize), hrun]
    cases fits <;> rfl
  refine ⟨_, fits, victims, hplace, ⟨?_, ?_, ?_, ?_⟩, ?_⟩
  · cases fits with
    | true =>
      apply hsound.admitEntry hnew (fun _ => hroom rfl)
      intro count slotBytes hs
      rw [hheap] at hs
      cases hs
    | false => exact hsound
  · exact fun v hv => (mem_evictable.mp (hshed.mem v hv)).1
  · rintro rfl
    refine ⟨data, none, rfl, by rwa [hdemand, hcapacity], List.mem_cons_self, fun x hx => ?_⟩
    rw [← hleft]
    exact mem_admitEntry hx
  · rintro rfl
    exact ⟨data, rfl, hleft⟩
  · have hnil := hshed.eq_nil_iff
    have hfits := hshed.fits_iff (s.evictable inner key) (h.unique.filter _).nodup
      (fun _ => Iff.rfl)
    rw [hiff, hnil, hfits, Settled, hmax, hdemand, hcapacity]
    constructor
    · rintro (hlarge | hfree | hnone | ⟨henough, -⟩)
      · omega
      · exact .inr (.inl hfree)
      · exact .inr (.inr fun a ha => by rw [hnone] at ha; cases ha)
      · exact .inl henough
    · rintro (henough | hfree | hnone)
      · refine .inr (.inr (.inr ⟨henough, ?_⟩))
        intro count slotBytes slot hs
        rw [hheap] at hs
        cases hs
      · exact .inr (.inl hfree)
      · exact .inr (.inr (.inl (List.eq_nil_iff_forall_not_mem.mpr hnone)))

theorem place_slots (h : inner.Sound s.budgetBytes s.storage) {count slotBytes : ℕ}
    (hslots : s.storage = .slots count slotBytes) (hkey : inner.entries.lookup key = none)
    (hsize : data.length ≤ slotBytes) :
    ∃ r admitted victims, s.place device inner key data = some r ∧
      Placed s inner key data.length r admitted victims ∧
      (s.Settled inner key device data ↔ admitted = true ∨ victims = []) := by
  obtain ⟨hcount, hsome⟩ := h.slots count slotBytes hslots
  have hdemand : s.demand inner key data.length = inner.entries.length + 1 := by
    rw [demand, hkey, if_neg (by simp), hslots]
  have hcapacity : s.capacity = count := by rw [capacity, hslots]
  have hmax : s.maxBytes = slotBytes := by rw [maxBytes, hslots]
  have hunits : ∀ x, s.units x = 1 := fun x => by rw [units, hslots]
  obtain ⟨k, hplace, hpass, hdown, hok⟩ : ∃ k, s.place device inner key data =
      (s.makeFree key inner).bind k ∧ (∀ inner, k (false, inner) = some (.passThrough data, inner)) ∧
      (∀ inner slot free e, inner.freeSlots = slot :: free →
        device slot (padded slotBytes data) = .error e →
          k (true, inner) = some (.passThrough data, inner)) ∧
      ∀ inner slot free, inner.freeSlots = slot :: free →
        device slot (padded slotBytes data) = .ok () → k (true, inner) =
          some (admitEntry { inner with freeSlots := free } key data (some slot) slotBytes) := by
    rw [place, hkey]
    dsimp only
    rw [hslots]
    dsimp only
    rw [if_neg (Nat.not_lt_of_le hsize)]
    refine ⟨_, rfl, fun _ => rfl, ?_, ?_⟩
    · intro inner slot free e hfree hwrite
      dsimp only
      rw [hfree]
      dsimp only
      rw [hwrite]
    · intro inner slot free hfree hwrite
      dsimp only
      rw [hfree]
      dsimp only
      rw [hwrite]
  cases hfree : inner.freeSlots with
  | cons slot free =>
    have hfits : s.demand inner key data.length ≤ s.capacity := by
      rw [hfree, List.length_cons] at hcount
      omega
    have hsettled : s.Settled inner key device data := .inr (.inl hfits)
    rw [makeFree, if_neg (by rw [hfree]; exact List.cons_ne_nil _ _), Option.bind_some] at hplace
    cases hwrite : device slot (padded slotBytes data) with
    | error e =>
      exact ⟨_, false, [], hplace.trans (hdown inner slot free e hfree hwrite),
        ⟨h, List.forall_mem_nil _, Bool.noConfusion, fun _ => ⟨data, rfl, by simp⟩⟩,
        iff_of_true hsettled (.inr rfl)⟩
    | ok u =>
      refine ⟨_, true, [], hplace.trans (hok inner slot free hfree hwrite),
        ⟨?_, List.forall_mem_nil _, fun _ => ?_, Bool.noConfusion⟩,
        iff_of_true hsettled (.inl rfl)⟩
      · apply h.admitEntry (not_mem_of_lookup hkey)
        · intro hheap
          rw [hslots] at hheap
          cases hheap
        · intro _ _ _
          exact ⟨rfl, by rw [hfree]; rfl⟩
      · refine ⟨data, some slot, rfl, .nil_of_fits hfits, List.mem_cons_self, fun x hx => ?_⟩
        rw [mem_admitEntry hx]
        simp
  | nil =>
    rw [hfree, List.length_nil, Nat.add_zero] at hcount
    have hfull : s.capacity < s.demand inner key data.length := by omega
    rw [makeFree, if_pos hfree] at hplace
    rcases victim_cases h key with ⟨refused, hvictim, hnone⟩ | ⟨x, hx, hvictim, hleast⟩
    · rw [hvictim] at hplace
      refine ⟨_, false, [], hplace.trans (hpass _),
        ⟨?_, List.forall_mem_nil _, Bool.noConfusion, fun _ => ⟨data, rfl, by simp⟩⟩,
        iff_of_true (.inr (.inr (.inl hnone))) (.inr rfl)⟩
      exact ⟨h.unique, h.stamps, h.stamp_le, h.resident, h.heap, h.slots⟩
    · have hmem := (mem_evictable.mp hx).1
      obtain ⟨inner₁, hevict, hsound, -, hlen, hfree₁, hrest⟩ := evict_spec h hmem
      obtain ⟨slot, hslot⟩ := Option.isSome_iff_exists.mp (hsome x hmem)
      rw [hslot, hfree, List.append_nil, Option.toList_some] at hfree₁
      rw [hvictim] at hplace
      dsimp only at hplace
      rw [hevict, Option.map_some, Option.bind_some] at hplace
      have hunique : ∀ slot', (∃ y ∈ s.evictable inner key, y.2.slot = some slot' ∧
          ∀ z ∈ s.evictable inner key, z ≠ y → s.rank y < s.rank z) → slot' = slot := by
        rintro slot' ⟨y, hy, hyslot, hyleast⟩
        by_cases hyx : y = x
        · rw [hyx, hslot] at hyslot
          exact (Option.some.inj hyslot).symm
        · exact absurd (hleast y hy hyx) (lt_asymm (hyleast x hx (Ne.symm hyx)))
      have hshed : Shed s.rank s.units {y | y ∈ s.evictable inner key}
          (s.demand inner key data.length) s.capacity [x] := by
        apply Shed.cons (C := {y | y ∈ s.evictable inner key})
          (D := {y | y ∈ s.evictable inner key ∧ y ≠ x}) hfull hx hleast (fun _ => Iff.rfl)
        apply Shed.nil_of_fits
        rw [hunits]
        omega
      cases hwrite : device slot (padded slotBytes data) with
      | error e =>
        refine ⟨_, false, [x], hplace.trans (hdown inner₁ slot [] e hfree₁ hwrite),
          ⟨hsound, ?_, Bool.noConfusion, fun _ => ⟨data, rfl, ?_⟩⟩, ?_⟩
        · rintro v hv
          rwa [List.mem_singleton.mp hv]
        · intro y
          rw [hrest, List.mem_singleton]
        · apply iff_of_false
          · rintro (hlarge | hfits | hnone | ⟨-, hdevice⟩)
            · omega
            · omega
            · rw [hnone] at hx
              cases hx
            · rw [hdevice count slotBytes slot hslots ⟨x, hx, hslot, hleast⟩] at hwrite
              cases hwrite
          · rintro (hadm | hnil)
            · cases hadm
            · cases hnil
      | ok u =>
        refine ⟨_, true, [x], hplace.trans (hok inner₁ slot [] hfree₁ hwrite),
          ⟨?_, ?_, fun _ => ?_, Bool.noConfusion⟩, ?_⟩
        · apply hsound.admitEntry
          · intro hin
            obtain ⟨y, hy, rfl⟩ := List.mem_map.mp hin
            exact not_mem_of_lookup hkey (mem_keys ((hrest y).mp hy).1)
          · intro hheap
            rw [hslots] at hheap
            cases hheap
          · intro _ _ _
            exact ⟨rfl, by rw [hfree₁]; rfl⟩
        · rintro v hv
          rwa [List.mem_singleton.mp hv]
        · refine ⟨data, some slot, rfl, hshed, List.mem_cons_self, fun y hy => ?_⟩
          rw [mem_admitEntry hy, hrest, List.mem_singleton]
        · refine iff_of_true (.inr (.inr (.inr ⟨?_, ?_⟩))) (.inl rfl)
          · have hsum := (hshed.fits_iff (s.evictable inner key) (h.unique.filter _).nodup
              (fun _ => Iff.rfl)).mp
            apply hsum
            simp only [List.map_cons, List.map_nil, List.sum_cons, List.sum_nil, hunits]
            omega
          · intro n b slot' hs hslot'
            rw [hslots] at hs
            cases hs
            cases u
            rw [hunique slot' hslot']
            exact hwrite

/-- A key somebody else has brought in is leased as it is. -/
theorem place_present (h : inner.Sound s.budgetBytes s.storage) {e : Entry}
    (hkey : inner.entries.lookup key = some e) :
    ∃ r admitted victims, s.place device inner key data = some r ∧
      Placed s inner key data.length r admitted victims ∧
      (s.Settled inner key device data ↔ admitted = true ∨ victims = []) := by
  have hfits : s.demand inner key data.length ≤ s.capacity := by
    rw [demand, hkey, if_pos (by rfl)]
    exact Nat.zero_le _
  refine ⟨_, true, [], by rw [place, hkey], ⟨h.share key, nofun, fun _ => ?_, nofun⟩,
    iff_of_true (.inr (.inl hfits)) (.inl rfl)⟩
  refine ⟨e.data, e.slot, rfl, .nil_of_fits hfits, ?_, fun x hx => ?_⟩
  · rw [map_fst_modify]
    exact mem_keys (mem_of_lookup hkey)
  · rw [mem_modify]
    simp [hx]

/-- Every placement has an outcome, in every state the books of which are right. -/
theorem place_spec (h : inner.Sound s.budgetBytes s.storage) :
    ∃ r admitted victims, s.place device inner key data = some r ∧
      Placed s inner key data.length r admitted victims ∧
      (s.Settled inner key device data ↔ admitted = true ∨ victims = []) := by
  cases hkey : inner.entries.lookup key with
  | some e => exact place_present h hkey
  | none =>
    by_cases hsize : s.maxBytes < data.length
    · have hplace : s.place device inner key data = some (.passThrough data, inner) := by
        rw [place, hkey]
        dsimp only
        unfold maxBytes at hsize
        cases hstorage : s.storage with
        | heap =>
          rw [hstorage] at hsize
          exact if_pos hsize
        | slots count slotBytes =>
          rw [hstorage] at hsize
          exact if_pos hsize
      exact ⟨_, false, [], hplace, ⟨h, nofun, nofun, fun _ => ⟨data, rfl, by simp⟩⟩,
        iff_of_true (.inl hsize) (.inr rfl)⟩
    · have hsize := Nat.le_of_not_lt hsize
      unfold maxBytes at hsize
      cases hstorage : s.storage with
      | heap =>
        rw [hstorage] at hsize
        exact place_heap h hstorage hkey hsize
      | slots count slotBytes =>
        rw [hstorage] at hsize
        exact place_slots h hstorage hkey hsize

end ExpertStore

/-- The books are right in every state a store gets into. -/
theorem Reachable.sound {budgetBytes : ℕ} {storage : Storage} {inner : Inner}
    (h : Reachable budgetBytes storage inner) : inner.Sound budgetBytes storage := by
  induction h with
  | new budgetBytes => exact .new budgetBytes
  | withSlots count slotBytes => exact .withSlots count slotBytes
  | touch key _ ih => exact ih.touch key
  | share key _ ih => exact ih.share key
  | release key _ ih => exact ih.release key
  | place device key data _ hplace ih =>
    obtain ⟨r, admitted, victims, hr, hplaced, -⟩ := ExpertStore.place_spec ih
    obtain rfl := Option.some.inj (hplace.symm.trans hr)
    exact hplaced.sound

namespace ExpertStore

/-- Admission is all or nothing exactly where it is settled before the first entry goes. -/
theorem place_all_or_nothing (s : ExpertStore) (inner : Inner)
    (h : Reachable s.budgetBytes s.storage inner) (device : ℕ → Bytes → Except String Unit)
    (key : ExpertKey) (data : Bytes) :
    ∃ r, s.place device inner key data = some r ∧
      (s.AllOrNothing inner key data.length r ↔ s.Settled inner key device data) := by
  obtain ⟨r, admitted, victims, hr, hplaced, hsettled⟩ := place_spec h.sound
  exact ⟨r, hr, hplaced.allOrNothing_iff.trans hsettled.symm⟩

theorem place_all_or_nothing_empty : ∃ r,
    (new 4).1.place (fun _ _ => .ok ()) (new 4).2 ⟨0, 0⟩ [1, 2] = some r ∧
      ((new 4).1.AllOrNothing (new 4).2 ⟨0, 0⟩ 2 r ↔
        (new 4).1.Settled (new 4).2 ⟨0, 0⟩ (fun _ _ => .ok ()) [1, 2]) :=
  place_all_or_nothing (new 4).1 (new 4).2 (.new 4) _ _ _

section Refused

/-- Ten bytes; the second expert is hot, the third warm. -/
def tenBytes : ExpertStore := (new 10).1.withHotness fun key => [0, 5, 1].getD key.expert 0

def cold : ExpertKey × Entry := (⟨0, 0⟩, ⟨List.replicate 6 0, none, 6, 1, 0⟩)

def hot : ExpertKey × Entry := (⟨0, 1⟩, ⟨List.replicate 4 0, none, 4, 2, 0⟩)

def full : Inner := ⟨[hot, cold], 10, 10, 2, [], 0, 0⟩

/-- The cold expert goes for the warm one, which then is refused because of the hot one. -/
theorem refused_after_eviction :
    Reachable tenBytes.budgetBytes tenBytes.storage full ∧
    ∃ r, tenBytes.place (fun _ _ => .ok ()) full ⟨0, 2⟩ (List.replicate 7 0) = some r ∧
      ¬ tenBytes.AllOrNothing full ⟨0, 2⟩ 7 r := by
  constructor
  · have hone := Reachable.new 10
    have htwo : Reachable 10 .heap ⟨[(⟨0, 0⟩, ⟨List.replicate 6 0, none, 6, 1, 1⟩)], 6, 6, 1, [], 0, 0⟩ :=
      hone.place (s := tenBytes) (fun _ _ => .ok ()) ⟨0, 0⟩ (List.replicate 6 0) rfl
    have hthree := htwo.release ⟨0, 0⟩
    have hfour : Reachable 10 .heap ⟨[(⟨0, 1⟩, ⟨List.replicate 4 0, none, 4, 2, 1⟩), cold], 10, 10, 2,
        [], 0, 0⟩ :=
      hthree.place (s := tenBytes) (fun _ _ => .ok ()) ⟨0, 1⟩ (List.replicate 4 0) rfl
    exact hfour.release ⟨0, 1⟩
  · refine ⟨(.passThrough (List.replicate 7 0), ⟨[hot], 4, 10, 2, [], 1, 1⟩), rfl, ?_⟩
    rintro (⟨_, _, _, hcached, -⟩ | ⟨_, -, hsame⟩)
    · cases hcached
    · have hmem := (hsame cold).mpr (List.mem_cons_of_mem _ List.mem_cons_self)
      have hkeys := mem_keys hmem
      revert hkeys
      decide

end Refused

end ExpertStore

end Frink.Weights
