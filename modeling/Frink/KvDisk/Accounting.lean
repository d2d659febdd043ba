import Frink.KvDisk.Index
import Frink.Library.Shedding

/-! # Exact accounting

Both totals of the disk index are the sums they stand for after every run of operations, so that
nothing is ever taken that is not there. A pass removes the shortest run of least recently used
entries that brings the index within its ceiling, as far as entries may be removed at all.
-/

namespace Frink.KvDisk

open Keyed Shedding

/-- What an entry occupies of the disk. -/
def Entry.diskBytes (entry : Entry) : ℕ := if entry.published then entry.bytes else 0

namespace Index

variable {H : Type*} {index : Index H} {hash : H} {entry : Entry}

/-- Both totals are exact, and no two entries were used at the same time. -/
structure Sound (index : Index H) : Prop where

  functional : Functional index.entries

  bytes : index.bytes = total Entry.bytes index.entries

  diskBytes : index.diskBytes = total Entry.diskBytes index.entries

  clock : ∀ x ∈ index.entries, x.2.lastUsed ≤ index.clock

  stamps : ∀ x ∈ index.entries, ∀ y ∈ index.entries, x.2.lastUsed = y.2.lastUsed → x.1 = y.1

theorem Sound.empty : Sound (empty : Index H) := ⟨List.nodup_nil, rfl, rfl, nofun, nofun⟩

theorem Sound.touch (h : index.Sound) : index.touch.Sound :=
  { h with clock := fun x hx => Nat.le_succ_of_le (h.clock x hx) }

theorem uncharge_eq {index : Index H} (hbytes : entry.bytes ≤ index.bytes)
    (hdisk : entry.diskBytes ≤ index.diskBytes) :
    index.uncharge entry = some { index with
      bytes := index.bytes - entry.bytes
      diskBytes := index.diskBytes - entry.diskBytes } := by
  unfold uncharge
  unfold Entry.diskBytes at hdisk ⊢
  cases hpublished : entry.published with
  | false => simp [hbytes]
  | true =>
    rw [hpublished, if_pos rfl] at hdisk
    simp [hbytes, hdisk]

variable [LinearOrder H]

/-- The index without an entry and its charges. -/
def without (index : Index H) (hash : H) (entry : Entry) : Index H :=
  { index with
    entries := erase hash index.entries
    bytes := index.bytes - entry.bytes
    diskBytes := index.diskBytes - entry.diskBytes }

theorem Sound.without (h : index.Sound) (he : (hash, entry) ∈ index.entries) :
    (index.without hash entry).Sound where

  functional := h.functional.erase hash
  bytes := by
    have hbytes := h.bytes
    have htotal := total_erase Entry.bytes h.functional he
    change index.bytes - entry.bytes = _
    dsimp only [Index.without]
    omega
  diskBytes := by
    have hdisk := h.diskBytes
    have htotal := total_erase Entry.diskBytes h.functional he
    change index.diskBytes - entry.diskBytes = _
    dsimp only [Index.without]
    omega
  clock x hx := h.clock x (mem_erase.mp hx).1
  stamps x hx y hy := h.stamps x (mem_erase.mp hx).1 y (mem_erase.mp hy).1

theorem Sound.removeEntry (h : index.Sound) (he : (hash, entry) ∈ index.entries) :
    index.removeEntry hash = some (some entry, index.without hash entry) := by
  have hbytes : entry.bytes ≤ index.bytes := by
    rw [h.bytes]
    exact charge_le_total he
  have hdisk : entry.diskBytes ≤ index.diskBytes := by
    rw [h.diskBytes]
    exact charge_le_total he
  have huncharge :=
    @uncharge_eq H entry { index with entries := erase hash index.entries } hbytes hdisk
  unfold Index.removeEntry
  rw [h.functional.lookup he]
  dsimp only
  rw [huncharge]
  rfl

theorem Sound.dropEntry (h : index.Sound) (hash : H) :
    ∃ after, index.dropEntry hash = some after ∧ after.Sound := by
  unfold Index.dropEntry
  cases hlookup : index.entries.lookup hash with
  | none =>
    refine ⟨index, ?_, h⟩
    rw [Index.removeEntry, hlookup]
    rfl
  | some entry =>
    have he := mem_of_lookup hlookup
    refine ⟨index.without hash entry, ?_, h.without he⟩
    rw [h.removeEntry he]
    rfl

theorem Sound.abandon (h : index.Sound) (hash : H) (generation : ℕ) :
    ∃ after, index.abandon hash generation = some after ∧ after.Sound := by
  unfold Index.abandon
  split
  · exact h.dropEntry hash
  · exact ⟨index, rfl, h⟩

/-- An entry that was just used takes the place of the old one; what it occupies of the disk is
still to be charged. -/
theorem Sound.insertEntry (h : index.Sound) (hash : H) (entry : Entry)
    (hclock : entry.lastUsed ≤ index.clock)
    (hfresh : ∀ x ∈ index.entries, x.2.lastUsed ≠ entry.lastUsed) :
    ∃ after, index.insertEntry hash entry = some after ∧
      after.entries = insert hash entry index.entries ∧ after.clock = index.clock ∧
      Sound { after with diskBytes := after.diskBytes + entry.diskBytes } := by
  have hbytes := h.bytes
  have hdisk := h.diskBytes
  have hstamps : ∀ x ∈ insert hash entry index.entries, ∀ y ∈ insert hash entry index.entries,
      x.2.lastUsed = y.2.lastUsed → x.1 = y.1 := by
    rintro x hx y hy hxy
    rcases mem_insert.mp hx with rfl | ⟨hx, -⟩ <;> rcases mem_insert.mp hy with rfl | ⟨hy, -⟩
    · rfl
    · exact absurd hxy.symm (hfresh y hy)
    · exact absurd hxy (hfresh x hx)
    · exact h.stamps x hx y hy hxy
  have hclocks : ∀ x ∈ insert hash entry index.entries, x.2.lastUsed ≤ index.clock := by
    rintro x hx
    rcases mem_insert.mp hx with rfl | ⟨hx, -⟩
    · exact hclock
    · exact h.clock x hx
  unfold Index.insertEntry
  cases hlookup : index.entries.lookup hash with
  | none =>
    have hsame := erase_of_not_mem (not_mem_of_lookup hlookup)
    refine ⟨_, rfl, rfl, rfl, h.functional.insert hash entry, ?_, ?_, hclocks, hstamps⟩
    · simp only [total_insert, hsame]
      omega
    · simp only [total_insert, hsame]
      omega
  | some previous =>
    have he := mem_of_lookup hlookup
    have htotal := total_erase Entry.bytes h.functional he
    have htotal' := total_erase Entry.diskBytes h.functional he
    have huncharge := @uncharge_eq H previous
      { index with entries := insert hash entry index.entries } (by dsimp only; omega)
      (by dsimp only; omega)
    dsimp only
    rw [huncharge]
    refine ⟨_, rfl, rfl, rfl, h.functional.insert hash entry, ?_, ?_, hclocks, hstamps⟩
    · simp only [total_insert]
      omega
    · simp only [total_insert]
      omega

/-- A hash that was just used. -/
theorem Sound.hold (h : index.Sound) (hash : H) (bytes generation : ℕ) (published : Bool) :
    ∃ after,
      index.touch.insertEntry hash ⟨bytes, index.touch.clock, published, generation⟩ = some after ∧
      after.entries = insert hash ⟨bytes, index.touch.clock, published, generation⟩ index.entries ∧
      Sound { after with diskBytes := after.diskBytes + if published then bytes else 0 } := by
  have hfresh : ∀ x ∈ index.touch.entries, x.2.lastUsed ≠ index.touch.clock := by
    rintro x hx
    exact Nat.ne_of_lt (Nat.lt_succ_of_le (h.clock x hx))
  obtain ⟨after, hafter, hentries, -, hsound⟩ :=
    h.touch.insertEntry hash ⟨bytes, index.touch.clock, published, generation⟩
      (Nat.le_refl _) hfresh
  exact ⟨after, hafter, hentries, hsound⟩

theorem Sound.markPublished (h : index.Sound) (hash : H) (generation : ℕ) :
    (index.markPublished hash generation).2.Sound := by
  unfold Index.markPublished
  cases hlookup : index.entries.lookup hash with
  | none => exact h
  | some entry =>
    dsimp only
    split
    · split
      · exact h
      · rename_i hpublished
        have he := mem_of_lookup hlookup
        have hold : entry.diskBytes = 0 := if_neg hpublished
        have hdisk := h.diskBytes
        have hbytes : total Entry.bytes (modify hash Entry.publish index.entries) =
            total Entry.bytes index.entries :=
          @total_modify_same _ _ _ Entry.bytes Entry.publish (fun _ => rfl) hash _
        have hmem : ∀ x ∈ modify hash Entry.publish index.entries,
            ∃ y ∈ index.entries, y.1 = x.1 ∧ y.2.lastUsed = x.2.lastUsed := by
          rintro x hx
          rcases mem_modify.mp hx with ⟨hx, -⟩ | ⟨hkey, e, he, hx⟩
          · exact ⟨x, hx, rfl, rfl⟩
          · exact ⟨(hash, e), he, hkey.symm, (congrArg Entry.lastUsed hx).symm⟩
        constructor
        case functional => exact h.functional.modify hash _
        case bytes => exact h.bytes.trans hbytes.symm
        case diskBytes =>
          have htotal := total_modify Entry.diskBytes h.functional he Entry.publish
          have hnew : entry.publish.diskBytes = entry.bytes := rfl
          change index.diskBytes + entry.bytes = _
          dsimp only
          omega
        case clock =>
          rintro x hx
          obtain ⟨y, hy, -, hxy⟩ := hmem x hx
          exact hxy ▸ h.clock y hy
        case stamps =>
          rintro x hx y hy hxy
          obtain ⟨x', hx', hkey, hx⟩ := hmem x hx
          obtain ⟨y', hy', hkey', hy⟩ := hmem y hy
          rw [← hkey, ← hkey']
          apply h.stamps x' hx' y' hy'
          rw [hx, hy, hxy]
    · exact h

theorem Sound.source (h : index.Sound) (hash : H) : (index.source hash).2.Sound := by
  unfold Index.source
  cases hlookup : index.entries.lookup hash with
  | none => exact h
  | some entry =>
    have hmem : ∀ x ∈ modify hash (Entry.use (index.clock + 1)) index.entries,
        x ∈ index.entries ∨ x.1 = hash ∧ x.2.lastUsed = index.clock + 1 := by
      rintro x hx
      rcases mem_modify.mp hx with ⟨hx, -⟩ | ⟨hkey, e, -, hx⟩
      · exact .inl hx
      · exact .inr ⟨hkey, congrArg Entry.lastUsed hx⟩
    have hsame : ∀ charge : Entry → ℕ, (∀ e, charge (e.use (index.clock + 1)) = charge e) →
        total charge (modify hash (Entry.use (index.clock + 1)) index.entries) =
          total charge index.entries := fun _ hcharge => total_modify_same hcharge hash _
    constructor
    case functional => exact h.functional.modify hash _
    case bytes => exact h.bytes.trans (hsame Entry.bytes fun _ => rfl).symm
    case diskBytes => exact h.diskBytes.trans (hsame Entry.diskBytes fun _ => rfl).symm
    case clock =>
      rintro x hx
      rcases hmem x hx with hx | ⟨-, hx⟩
      · exact Nat.le_succ_of_le (h.clock x hx)
      · exact Nat.le_of_eq hx
    case stamps =>
      rintro x hx y hy hxy
      rcases hmem x hx with hx | ⟨hkey, hx⟩ <;> rcases hmem y hy with hy | ⟨hkey', hy⟩
      · exact h.stamps x hx y hy hxy
      · have := h.clock x hx
        omega
      · have := h.clock y hy
        omega
      · rw [hkey, hkey']

theorem Sound.adopt (h : index.Sound) (found : List (H × ℕ × ℕ)) (adopted : ℕ) :
    ∃ count after, index.adopt found adopted = some (count, after) ∧ after.Sound := by
  induction found generalizing index adopted with
  | nil => exact ⟨adopted, index, rfl, h⟩
  | cons file found ih =>
    obtain ⟨hash, bytes, generation⟩ := file
    unfold Index.adopt
    split
    · exact ih h adopted
    · obtain ⟨after, hafter, -, hsound⟩ := h.hold hash bytes generation true
      dsimp only
      rw [hafter]
      exact ih hsound (adopted + 1)

/-- What a candidate is sorted by. -/
def order (x : H × Entry) : ℕ ×ₗ H := toLex (x.2.lastUsed, x.1)

def victimOf (x : H × Entry) : Victim H := ⟨x.1, x.2.published⟩

/-- Candidates go as long as the index does not fit, and nothing else does. -/
theorem Sound.evict (h : index.Sound) (budget : ℕ) {cs : List (H × Entry)} (hcs : Functional cs)
    (hsub : ∀ x ∈ cs, x ∈ index.entries) :
    ∃ victims after, victims = shed (fun x : H × Entry => x.2.bytes) budget index.bytes cs ∧
      Index.evict budget (cs.map order) index = some (victims.map victimOf, after) ∧ after.Sound ∧
      (∀ x, x ∈ after.entries ↔ x ∈ index.entries ∧ x ∉ victims) ∧
      after.bytes = index.bytes - (victims.map fun x => x.2.bytes).sum := by
  induction cs generalizing index with
  | nil => exact ⟨[], index, rfl, rfl, h, by simp, rfl⟩
  | cons v cs ih =>
    rw [List.map_cons, Index.evict, shed]
    split
    · exact ⟨[], index, rfl, rfl, h, by simp, rfl⟩
    · have hv := hsub v List.mem_cons_self
      obtain ⟨hfirst, hrest⟩ := List.nodup_cons.mp hcs
      have hleft : ∀ x ∈ cs, x ∈ (index.without v.1 v.2).entries := by
        rintro x hx
        apply mem_erase.mpr
        constructor
        · exact hsub x (List.mem_cons_of_mem _ hx)
        · rintro hkey
          exact hfirst (hkey ▸ List.mem_map_of_mem hx)
      obtain ⟨victims, after, hvictims, hevict, hsound, hentries, hbytes⟩ :=
        ih (h.without hv) hrest hleft
      refine ⟨v :: victims, after, by rw [hvictims]; rfl, ?_, hsound, ?_, ?_⟩
      · have hremove : index.removeEntry (ofLex (order v)).2 =
            some (some v.2, index.without v.1 v.2) := h.removeEntry hv
        rw [hremove]
        dsimp only
        rw [hevict]
        rfl
      · rintro x
        have hsame : x ∈ index.entries → (x.1 = v.1 ↔ x = v) := by
          intro hx
          constructor
          · intro hkey
            have hx : (v.1, x.2) ∈ index.entries := hkey ▸ hx
            exact Prod.ext hkey (h.functional.eq_of_mem hx hv)
          · rintro rfl
            rfl
        rw [hentries, List.mem_cons, not_or]
        change x ∈ erase v.1 index.entries ∧ _ ↔ _
        rw [mem_erase]
        constructor
        · rintro ⟨⟨hx, hkey⟩, hnot⟩
          exact ⟨hx, fun heq => hkey ((hsame hx).mpr heq), hnot⟩
        · rintro ⟨hx, hne, hnot⟩
          exact ⟨⟨hx, fun hkey => hne ((hsame hx).mp hkey)⟩, hnot⟩
      · rw [hbytes, List.map_cons, List.sum_cons]
        change index.bytes - v.2.bytes - _ = _
        omega

/-- The candidates are the entries that are not protected, in the order they were last used in. -/
theorem Sound.candidates (h : index.Sound) (protect : Option H) :
    ∃ cs : List (H × Entry), index.candidates protect = cs.map order ∧ Functional cs ∧
      (∀ x, x ∈ cs ↔ x ∈ index.entries ∧ some x.1 ≠ protect) ∧
      cs.Pairwise fun u v => u.2.lastUsed < v.2.lastUsed := by
  let free := index.entries.filter fun x => some x.1 ≠ protect
  let cs := free.insertionSort fun u v => order u ≤ order v
  have hperm : cs.Perm free := List.perm_insertionSort _ _
  have hmem : ∀ x, x ∈ cs ↔ x ∈ index.entries ∧ some x.1 ≠ protect := by
    intro x
    rw [hperm.mem_iff]
    simp [free]
  have hsorted : index.candidates protect = cs.map order :=
    (List.map_insertionSort _ _ order _ fun _ _ _ _ => Iff.rfl).symm
  have hfunctional : Functional cs :=
    (hperm.map Prod.fst).nodup_iff.mpr (h.functional.filter _)
  refine ⟨cs, hsorted, hfunctional, hmem, ?_⟩
  have hle : cs.Pairwise fun u v => order u ≤ order v := by
    apply List.pairwise_map.mp
    rw [← hsorted]
    exact List.pairwise_insertionSort _ _
  apply (hle.and hfunctional.nodup).imp_of_mem
  rintro u v hu hv ⟨huv, hne⟩
  have hu := ((hmem u).mp hu).1
  have hv := ((hmem v).mp hv).1
  rcases Prod.Lex.le_iff.mp huv with hlt | ⟨heq, -⟩
  · exact hlt
  · exfalso
    have hkey : u.1 = v.1 := h.stamps u hu v hv heq
    have hu : (v.1, u.2) ∈ index.entries := hkey ▸ hu
    exact hne (Prod.ext hkey (h.functional.eq_of_mem hu hv))

/-- What an eviction pass does to an index: of the entries that are not protected, the shortest
least recently used run goes that brings it within its budget, if one does. -/
structure Pass (protect : Option H) (budget : ℕ) (index after : Index H)
    (victims : List (H × Entry)) : Prop where

  shed : Shed (fun x : H × Entry => x.2.lastUsed) (fun x => x.2.bytes)
    {x | x ∈ index.entries ∧ some x.1 ≠ protect} index.bytes budget victims

  only : ∀ vs, Shed (fun x : H × Entry => x.2.lastUsed) (fun x => x.2.bytes)
    {x | x ∈ index.entries ∧ some x.1 ≠ protect} index.bytes budget vs → vs = victims

  entries : ∀ x, x ∈ after.entries ↔ x ∈ index.entries ∧ x ∉ victims

  fits : after.bytes ≤ budget ∨ ∀ x ∈ after.entries, some x.1 = protect

end Index

open Index

namespace DiskStore

variable {H : Type*} [LinearOrder H] (store : DiskStore) {index : Index H}

theorem collectVictims_spec (h : index.Sound) (free : Option ℕ) (protect : Option H) :
    ∃ victims after,
      store.collectVictims free index protect = some (victims.map victimOf, after) ∧ after.Sound ∧
        Pass protect (store.effectiveCapacity free index.diskBytes) index after victims := by
  unfold collectVictims
  generalize store.effectiveCapacity free index.diskBytes = budget
  dsimp only
  split
  · rename_i hfits
    have hshed : Shed (fun x : H × Entry => x.2.lastUsed) (fun x => x.2.bytes)
        {x | x ∈ index.entries ∧ some x.1 ≠ protect} index.bytes budget [] := .nil_of_fits hfits
    exact ⟨[], index, rfl, h, hshed, fun vs hvs => hvs.unique hshed, by simp, .inl hfits⟩
  · obtain ⟨cs, hcandidates, hfunctional, hmem, hsorted⟩ := h.candidates protect
    obtain ⟨victims, after, hvictims, hevict, hsound, hentries, hbytes⟩ :=
      h.evict budget hfunctional fun x hx => ((hmem x).mp hx).1
    have hshed := shed_spec (fun x : H × Entry => x.2.bytes) index.bytes budget hsorted
    rw [← hvictims] at hshed
    have hshed := hshed.congr_set fun x => (hmem x).symm
    refine ⟨victims, after, by rw [hcandidates]; exact hevict, hsound, hshed,
      fun vs hvs => hvs.unique hshed, hentries, ?_⟩
    rcases hshed.enough with henough | hall
    · left
      omega
    · right
      intro x hx
      obtain ⟨hx, hnot⟩ := (hentries x).mp hx
      by_contra hne
      exact hnot (hall x ⟨hx, hne⟩)

/-- Behind a reservation the index fits, or nothing but the reserved entry is left. -/
theorem reserve_spec (h : index.Sound) (free : Option ℕ) (hash : H) (bytes generation : ℕ) :
    ∃ held victims after,
      index.touch.insertEntry hash ⟨bytes, index.touch.clock, false, generation⟩ = some held ∧
      store.reserve free index hash bytes generation = some (victims.map victimOf, after) ∧
      after.Sound ∧
      Pass (some hash) (store.effectiveCapacity free held.diskBytes) held after victims ∧
      (after.bytes ≤ store.effectiveCapacity free held.diskBytes ∨
        after.entries.map Prod.fst = [hash]) := by
  obtain ⟨held, hheld, hentries, hsound⟩ := h.hold hash bytes generation false
  obtain ⟨victims, after, hcollect, hafter, hpass⟩ :=
    collectVictims_spec store hsound free (some hash)
  refine ⟨held, victims, after, hheld, ?_, hafter, hpass, hpass.fits.imp_right fun hall => ?_⟩
  · unfold reserve
    dsimp only
    rw [hheld]
    exact hcollect
  · have hmine : (hash, (⟨bytes, index.touch.clock, false, generation⟩ : Entry)) ∈
        after.entries := by
      apply (hpass.entries _).mpr
      constructor
      · rw [hentries]
        exact List.mem_cons_self
      · intro hvictim
        exact (hpass.shed.mem _ hvictim).2 rfl
    apply List.perm_singleton.mp
    apply (List.perm_ext_iff_of_nodup hafter.functional (List.nodup_singleton hash)).mpr
    intro k
    rw [List.mem_singleton]
    constructor
    · rintro hk
      obtain ⟨x, hx, rfl⟩ := List.mem_map.mp hk
      exact Option.some.inj (hall x hx)
    · rintro rfl
      exact mem_keys hmine

theorem reindex_spec (h : index.Sound) (free : Option ℕ) (found : List (H × ℕ × ℕ)) :
    ∃ count held victims after, index.adopt found 0 = some (count, held) ∧
      store.reindex free index found = some (count, victims.map victimOf, after) ∧ after.Sound ∧
      Pass none (store.effectiveCapacity free held.diskBytes) held after victims := by
  obtain ⟨count, held, hheld, hsound⟩ := h.adopt found 0
  obtain ⟨victims, after, hcollect, hafter, hpass⟩ :=
    collectVictims_spec store hsound free none
  refine ⟨count, held, victims, after, hheld, ?_, hafter, hpass⟩
  unfold reindex
  rw [hheld]
  dsimp only [Option.bind]
  rw [hcollect]
  rfl

/-- Every operation keeps both totals exact, and none takes what is not there. -/
theorem step_sound (h : index.Sound) (op : Op H) :
    ∃ after, store.step index op = some after ∧ after.Sound := by
  cases op with
  | reserve free hash bytes generation =>
    obtain ⟨_, _, after, _, hreserve, hafter, -⟩ :=
      reserve_spec store h free hash bytes generation
    exact ⟨after, by rw [step, hreserve]; rfl, hafter⟩
  | markPublished hash generation => exact ⟨_, rfl, h.markPublished hash generation⟩
  | abandon hash generation => exact h.abandon hash generation
  | dropEntry hash => exact h.dropEntry hash
  | reindex free found =>
    obtain ⟨_, _, _, after, _, hreindex, hafter, -⟩ :=
      reindex_spec store h free found
    exact ⟨after, by rw [step, hreindex]; rfl, hafter⟩
  | noteEnospc free =>
    obtain ⟨_, after, hcollect, hafter, -⟩ := collectVictims_spec store h free none
    exact ⟨after, by rw [step, noteEnospc, hcollect]; rfl, hafter⟩
  | read hash => exact ⟨_, rfl, h.source hash⟩

theorem sound_of_reached {store : DiskStore} (h : Reached store index) : index.Sound := by
  induction h with
  | empty => exact .empty
  | step op _ hstep ih =>
    obtain ⟨after, hafter, hsound⟩ := step_sound store ih op
    obtain rfl := Option.some.inj (hstep.symm.trans hafter)
    exact hsound

/-- After every run both totals are exact, no operation takes what is not there, and each pass
evicts exactly the shortest least recently used run that brings the index within its ceiling. -/
theorem accounting_exact {store : DiskStore} (h : Reached store index) :
    index.bytes = total Entry.bytes index.entries ∧
      index.diskBytes = total Entry.diskBytes index.entries ∧
      (∀ op, (store.step index op).isSome) ∧
      (∀ free hash bytes generation, ∃ held victims after,
        index.touch.insertEntry hash ⟨bytes, index.touch.clock, false, generation⟩ = some held ∧
        store.reserve free index hash bytes generation = some (victims.map victimOf, after) ∧
        Pass (some hash) (store.effectiveCapacity free held.diskBytes) held after victims ∧
        (after.bytes ≤ store.effectiveCapacity free held.diskBytes ∨
          after.entries.map Prod.fst = [hash])) ∧
      (∀ free found, ∃ count held victims after, index.adopt found 0 = some (count, held) ∧
        store.reindex free index found = some (count, victims.map victimOf, after) ∧
        Pass none (store.effectiveCapacity free held.diskBytes) held after victims) ∧
      ∀ free, ∃ victims after, store.noteEnospc free index = some (victims.map victimOf, after) ∧
        Pass none (store.effectiveCapacity free index.diskBytes) index after victims := by
  have hsound := sound_of_reached h
  refine ⟨hsound.bytes, hsound.diskBytes, ?_, ?_, ?_, ?_⟩
  · intro op
    obtain ⟨after, hafter, -⟩ := step_sound store hsound op
    exact Option.isSome_iff_exists.mpr ⟨after, hafter⟩
  · intro free hash bytes generation
    obtain ⟨held, victims, after, hheld, hreserve, -, hpass, hfits⟩ :=
      reserve_spec store hsound free hash bytes generation
    exact ⟨held, victims, after, hheld, hreserve, hpass, hfits⟩
  · intro free found
    obtain ⟨count, held, victims, after, hheld, hreindex, -, hpass⟩ :=
      reindex_spec store hsound free found
    exact ⟨count, held, victims, after, hheld, hreindex, hpass⟩
  · intro free
    obtain ⟨victims, after, hcollect, -, hpass⟩ := collectVictims_spec store hsound free none
    exact ⟨victims, after, hcollect, hpass⟩

/-- A block on the disk that is accepted once more, while a second one waits. -/
theorem accounting_exact_again :
    (Index.mk [(1, ⟨6, 3, false, 2⟩), (0, ⟨4, 2, false, 1⟩)] 10 0 3 : Index ℕ).bytes = 10 ∧
      ∀ op, (DiskStore.step ⟨10, 0⟩
        (Index.mk [(1, ⟨6, 3, false, 2⟩), (0, ⟨4, 2, false, 1⟩)] 10 0 3 : Index ℕ) op).isSome := by
  have hfirst : Reached ⟨10, 0⟩ (Index.mk [(1, ⟨6, 1, false, 0⟩)] 6 0 1 : Index ℕ) :=
    .step (.reserve none 1 6 0) .empty rfl
  have hpublished : Reached ⟨10, 0⟩ (Index.mk [(1, ⟨6, 1, true, 0⟩)] 6 6 1 : Index ℕ) :=
    .step (.markPublished 1 0) hfirst rfl
  have hsecond : Reached ⟨10, 0⟩
      (Index.mk [(0, ⟨4, 2, false, 1⟩), (1, ⟨6, 1, true, 0⟩)] 10 6 2 : Index ℕ) :=
    .step (.reserve none 0 4 1) hpublished rfl
  have hagain : Reached ⟨10, 0⟩
      (Index.mk [(1, ⟨6, 3, false, 2⟩), (0, ⟨4, 2, false, 1⟩)] 10 0 3 : Index ℕ) :=
    .step (.reserve none 1 6 2) hsecond rfl
  exact ⟨rfl, (accounting_exact hagain).2.2.1⟩

end DiskStore

end Frink.KvDisk
