import Frink.Batch.Conservation

/-! # Room for a job that waited

The rows that may go, newest first, are counted off until the job fits, and only then does any of
them go. So what is evicted is the shortest run that makes room, or nothing.
-/

namespace Frink.Batch
open Decode

variable {S L P E : Type}

/-- Takes the victims out one after the other; `none` where the code expects a row. -/
def evictRows (total : Option ℕ) : Rows S L P E → ℕ → List ℕ →
    Option (Rows S L P E × ℕ × List (Job S L P E))
  | rows, free, [] => some (rows, free, [])
  | rows, free, uid :: uids =>
      match rows.get uid with
      | none => none
      | some slot =>
          (evictRows total (rows.remove uid) (releaseBlocks total free slot.blocks) uids).map
            fun rest => (rest.1, rest.2.1, slot.preempt :: rest.2.2)

section Plan

variable (config : BatcherConfig) (rows : Rows S L P E) (prefilling free : ℕ) (head : Job S L P E)

/-- The head fits under both caps. -/
def roomFits (free seats : ℕ) : Bool :=
  decide (seats < config.maxSeqs) && (config.kvBlocks.isNone || decide (head.blocks ≤ free))

/-- The rows that may be evicted, newest first. -/
def evictable : List (ℕ × Slot S L P E) := rows.state.reverse.filter fun row => row.2.preemptible

def blocksOf (rows : List (ℕ × Slot S L P E)) : ℕ := (rows.map fun row => row.2.blocks).sum

/-- The head fits once the `n` newest of them are out. -/
def fitsWithout (n : ℕ) : Bool :=
  roomFits config head (free + blocksOf ((evictable rows).take n))
    (rows.state.length + prefilling - n)

/-- `make_room` as its caller sees it: the rows and the blocks it leaves, and the jobs that go on. -/
def madeRoom : Option (Rows S L P E × ℕ × List (Job S L P E)) :=
  evictRows config.kvBlocks rows free (makeRoom config rows prefilling free head)

/-- What the eviction of the `n` newest rows that may go leaves and hands over. -/
structure EvictsNewest (n : ℕ) (rows' : Rows S L P E) (free' : ℕ) (jobs : List (Job S L P E)) :
    Prop where

  rows_eq : rows'.state =
    rows.state.filter fun row => decide (row.1 ∉ ((evictable rows).take n).map Prod.fst)

  uids_eq : rows'.nextUid = rows.nextUid

  jobs_eq : jobs = ((evictable rows).take n).map fun row => row.2.preempt

  free_eq : free' =
    if config.kvBlocks.isNone then free else free + blocksOf ((evictable rows).take n)

  preemptible : ∀ row ∈ (evictable rows).take n, row ∈ rows.state ∧ row.2.finish = none ∧
    row.2.error = none ∧ row.2.answer.preemptions < MAX_PREEMPTIONS ∧ row.2.kv.slides = false

/-- There is room for the head after `n` evictions, not after fewer, and it can be taken. -/
structure Makes (n : ℕ) (rows' : Rows S L P E) (free' : ℕ) : Prop where

  fits : fitsWithout config rows prefilling free head n = true

  least : ∀ m < n, fitsWithout config rows prefilling free head m = false

  seated : rows'.state.length + prefilling < config.maxSeqs

  reserved : (tryReserve config.kvBlocks free' head.blocks).isSome

end Plan

section Scan

variable {config : BatcherConfig} {rows : Rows S L P E} {prefilling free : ℕ} {head : Job S L P E}
  {n : ℕ}

/-- One more row out of the way does no harm. -/
theorem roomFits_mono {free free' seats seats' : ℕ} (hfree : free ≤ free') (hseats : seats' ≤ seats)
    (h : roomFits config head free seats = true) : roomFits config head free' seats' = true := by
  simp only [roomFits, Bool.and_eq_true, Bool.or_eq_true, decide_eq_true_eq] at h ⊢
  refine ⟨by omega, ?_⟩
  rcases h.2 with hnone | hle
  · exact .inl hnone
  · exact .inr (by omega)

theorem blocksOf_take_le (rows : List (ℕ × Slot S L P E)) {m n : ℕ} (h : m ≤ n) :
    blocksOf (rows.take m) ≤ blocksOf (rows.take n) := by
  have hsplit : rows.take n = rows.take m ++ (rows.drop m).take (n - m) := by
    rw [← List.take_add, Nat.add_sub_cancel' h]
  rw [hsplit, blocksOf, blocksOf, List.map_append, List.sum_append]
  exact Nat.le_add_right _ _

theorem fitsWithout_mono {m n : ℕ} (h : m ≤ n)
    (hfits : fitsWithout config rows prefilling free head m = true) :
    fitsWithout config rows prefilling free head n = true := by
  refine roomFits_mono ?_ ?_ hfits
  · exact Nat.add_le_add_left (blocksOf_take_le _ h) _
  · omega

/-- The scan counts rows off until the head fits, or to the end. -/
theorem victims_eq (fits : ℕ → ℕ → Bool) (newest : List (ℕ × Slot S L P E)) (free seats : ℕ) :
    ∃ n ≤ (newest.filter fun row => row.2.preemptible).length,
      (Rows.victims fits newest free seats).1 =
        ((newest.filter fun row => row.2.preemptible).take n).map Prod.fst ∧
      (Rows.victims fits newest free seats).2 =
        fits (free + blocksOf ((newest.filter fun row => row.2.preemptible).take n)) (seats - n) ∧
      (∀ m < n, fits (free + blocksOf ((newest.filter fun row => row.2.preemptible).take m))
        (seats - m) = false) ∧
      ((Rows.victims fits newest free seats).2 = false →
        n = (newest.filter fun row => row.2.preemptible).length) := by
  induction newest generalizing free seats with
  | nil => exact ⟨0, le_rfl, rfl, rfl, fun _ h => absurd h (Nat.not_lt_zero _), fun _ => rfl⟩
  | cons row newest ih =>
    obtain ⟨uid, slot⟩ := row
    rw [Rows.victims]
    by_cases hfits : fits free seats = true
    · rw [if_pos hfits]
      refine ⟨0, Nat.zero_le _, rfl, ?_, fun _ h => absurd h (Nat.not_lt_zero _), Bool.noConfusion⟩
      rw [List.take_zero]
      exact hfits.symm
    · rw [if_neg hfits]
      by_cases hslot : slot.preemptible = true
      · have hkeep : ((uid, slot) :: newest).filter (fun row => row.2.preemptible) =
            (uid, slot) :: newest.filter fun row => row.2.preemptible :=
          List.filter_cons_of_pos hslot
        rw [if_pos hslot, hkeep]
        obtain ⟨n, hn, huids, hfit, hleast, hend⟩ := ih (free + slot.blocks) (seats - 1)
        have hshift : ∀ k, fits (free + slot.blocks +
            blocksOf ((newest.filter fun row => row.2.preemptible).take k)) (seats - 1 - k) =
              fits (free + blocksOf (((uid, slot) ::
                newest.filter fun row => row.2.preemptible).take (k + 1))) (seats - (k + 1)) := by
          intro k
          rw [List.take_succ_cons, blocksOf, blocksOf, List.map_cons, List.sum_cons,
            Nat.sub_sub, Nat.add_comm 1 k, Nat.add_assoc]
        dsimp only
        refine ⟨n + 1, Nat.succ_le_succ hn, ?_, ?_, ?_, ?_⟩
        · rw [List.take_succ_cons, List.map_cons, huids]
        · rw [hfit, hshift]
        · rintro (_ | m) hm
          · simpa [blocksOf] using hfits
          · rw [← hshift]
            exact hleast m (by omega)
        · intro hnot
          rw [List.length_cons, hend hnot]
      · have hskip : ((uid, slot) :: newest).filter (fun row => row.2.preemptible) =
            newest.filter fun row => row.2.preemptible := List.filter_cons_of_neg hslot
        rw [if_neg hslot, hskip]
        exact ih free seats

/-- What the scan hands over is the shortest run that makes room, or nothing. -/
theorem makeRoom_eq (config : BatcherConfig) (rows : Rows S L P E) (prefilling free : ℕ)
    (head : Job S L P E) :
    ∃ n ≤ (evictable rows).length,
      makeRoom config rows prefilling free head = ((evictable rows).take n).map Prod.fst ∧
      (0 < n → fitsWithout config rows prefilling free head n = true ∧
        ∀ m < n, fitsWithout config rows prefilling free head m = false) ∧
      (n = 0 ↔ config.preemptAfterTicks = none ∨
        (∃ after, config.preemptAfterTicks = some after ∧ head.waited < after) ∨
          fitsWithout config rows prefilling free head 0 = true ∨
            fitsWithout config rows prefilling free head (evictable rows).length = false) := by
  unfold makeRoom
  cases hafter : config.preemptAfterTicks with
  | none => exact ⟨0, Nat.zero_le _, rfl, by simp, by simp⟩
  | some after =>
    dsimp only
    by_cases hwaited : head.waited < after
    · rw [if_pos hwaited]
      refine ⟨0, Nat.zero_le _, rfl, by simp, ?_⟩
      simp [hwaited]
    · rw [if_neg hwaited]
      obtain ⟨n, hn, huids, hfit, hleast, hend⟩ := victims_eq (roomFits config head)
        rows.state.reverse free (rows.state.length + prefilling)
      have hnot : ∀ after', some after = some after' → ¬head.waited < after' := by
        rintro _ ⟨⟩
        exact hwaited
      change ∃ n ≤ (evictable rows).length, (if (Rows.victims (roomFits config head)
        rows.state.reverse free (rows.state.length + prefilling)).2 = true then
          (Rows.victims (roomFits config head) rows.state.reverse free
            (rows.state.length + prefilling)).1 else []) = _ ∧ _
      have hscan : (Rows.victims (roomFits config head) rows.state.reverse free
        (rows.state.length + prefilling)).2 = fitsWithout config rows prefilling free head n := hfit
      by_cases hfits : fitsWithout config rows prefilling free head n = true
      · rw [hscan, if_pos hfits, huids]
        refine ⟨n, hn, rfl, fun _ => ⟨hfits, hleast⟩, ?_⟩
        constructor
        · rintro rfl
          exact .inr (.inr (.inl hfits))
        · rintro (h | ⟨after', h, hlt⟩ | h | h)
          · cases h
          · exact absurd hlt (hnot after' h)
          · by_contra hpos
            have hfalse : fitsWithout config rows prefilling free head 0 = false :=
              hleast 0 (Nat.pos_of_ne_zero hpos)
            rw [h] at hfalse
            cases hfalse
          · have hall : fitsWithout config rows prefilling free head (evictable rows).length = true :=
              fitsWithout_mono hn hfits
            rw [hall] at h
            cases h
      · have hall := hend (hscan.trans (Bool.eq_false_iff.mpr hfits))
        rw [hscan, if_neg hfits]
        refine ⟨0, Nat.zero_le _, rfl, by simp, ?_⟩
        simp only [true_iff]
        right; right; right
        rw [Bool.eq_false_iff]
        intro h
        apply hfits
        rw [hall]
        exact h

theorem Rows.get_of_mem {row : ℕ × Slot S L P E} (hn : rows.keys.Nodup) (h : row ∈ rows.state) :
    rows.get row.1 = some row.2 := by
  obtain ⟨slot, hslot⟩ := Rows.get_of_mem_keys (List.mem_map_of_mem (f := Prod.fst) h)
  obtain ⟨front, back, hstate, _⟩ := Rows.remove_spec hslot
  have hmem : (row.1, slot) ∈ rows.state := by simp [hstate]
  have heq : (row.1, slot) = row := List.inj_on_of_nodup_map hn hmem h rfl
  rw [hslot, ← heq]

theorem Rows.remove_eq {row : ℕ × Slot S L P E} (hn : rows.keys.Nodup) (h : row ∈ rows.state) :
    (rows.remove row.1).state = (rows.state.filter fun r => decide (r.1 ≠ row.1)) ∧
      blocksOf rows.state = row.2.blocks + blocksOf (rows.remove row.1).state := by
  obtain ⟨front, back, hstate, hrest⟩ := Rows.remove_spec (Rows.get_of_mem hn h)
  rw [Rows.keys, hstate, List.map_append, List.map_cons, List.nodup_middle, List.nodup_cons] at hn
  have hother : ∀ r ∈ front ++ back, r.1 ≠ row.1 := by
    intro r hr heq
    apply hn.1
    rw [← List.map_append, ← heq]
    exact List.mem_map_of_mem hr
  constructor
  · rw [hstate, hrest, List.filter_append, List.filter_cons_of_neg (by simp), ← List.filter_append,
      List.filter_eq_self.mpr]
    intro r hr
    exact decide_eq_true (hother r hr)
  · rw [hstate, hrest]
    simp only [blocksOf, List.map_append, List.map_cons, List.sum_append, List.sum_cons]
    omega

/-- The victims are rows of the table, and without them it is the rest. -/
theorem evictRows_eq {victims : List (ℕ × Slot S L P E)} (hn : rows.keys.Nodup)
    (hin : ∀ row ∈ victims, row ∈ rows.state) (hnodup : (victims.map Prod.fst).Nodup)
    (hbudget : ∀ total, config.kvBlocks = some total → free + blocksOf rows.state ≤ total) :
    ∃ rows' free', evictRows config.kvBlocks rows free (victims.map Prod.fst) =
        some (rows', free', victims.map fun row => row.2.preempt) ∧
      rows'.state = (rows.state.filter fun row => decide (row.1 ∉ victims.map Prod.fst)) ∧
      rows'.nextUid = rows.nextUid ∧ rows'.state.length + victims.length = rows.state.length ∧
      free' = if config.kvBlocks.isNone then free else free + blocksOf victims := by
  induction victims generalizing rows free with
  | nil =>
    refine ⟨rows, free, rfl, ?_, rfl, rfl, ?_⟩
    · simp
    · simp [blocksOf]
  | cons row victims ih =>
    have hrow := hin row (by simp)
    have hget := Rows.get_of_mem hn hrow
    obtain ⟨hn', hlen, _⟩ := Rows.remove_keys hn hget
    obtain ⟨hstate, hblocks⟩ := Rows.remove_eq hn hrow
    rw [List.map_cons, List.nodup_cons] at hnodup
    have hin' : ∀ r ∈ victims, r ∈ (rows.remove row.1).state := by
      intro r hr
      rw [hstate, List.mem_filter]
      refine ⟨hin r (by simp [hr]), decide_eq_true fun heq => hnodup.1 ?_⟩
      rw [← heq]
      exact List.mem_map_of_mem hr
    have hfree : releaseBlocks config.kvBlocks free row.2.blocks =
        if config.kvBlocks.isNone then free else free + row.2.blocks := by
      cases htotal : config.kvBlocks with
      | none => rfl
      | some total =>
        have hle := hbudget total htotal
        exact min_eq_left (by omega)
    have hbudget' : ∀ total, config.kvBlocks = some total →
        releaseBlocks config.kvBlocks free row.2.blocks + blocksOf (rows.remove row.1).state ≤
          total := by
      intro total htotal
      have hle := hbudget total htotal
      rw [hfree, htotal]
      simp only [Option.isNone_some, Bool.false_eq_true, if_false]
      omega
    obtain ⟨rows', free', hevict, hleft, huid, hlen', hfree'⟩ := ih hn' hin' hnodup.2 hbudget'
    refine ⟨rows', free', ?_, ?_, huid, ?_, ?_⟩
    · rw [List.map_cons, evictRows, hget]
      dsimp only
      rw [hevict]
      rfl
    · rw [hleft, hstate, List.filter_filter]
      apply List.filter_congr
      intro r _
      simp only [List.map_cons, List.mem_cons, not_or, ← Bool.decide_and]
      rw [decide_eq_decide]
      exact and_comm
    · rw [List.length_cons]
      omega
    · rw [hfree', hfree]
      split
      · rfl
      · simp only [blocksOf, List.map_cons, List.sum_cons]
        omega

theorem mem_evictable {row : ℕ × Slot S L P E} (h : row ∈ evictable rows) :
    row ∈ rows.state ∧ row.2.finish = none ∧ row.2.error = none ∧
      row.2.answer.preemptions < MAX_PREEMPTIONS ∧ row.2.kv.slides = false := by
  obtain ⟨hrow, hslot⟩ := List.mem_filter.mp h
  simp only [Slot.preemptible, Bool.and_eq_true, Option.isNone_iff_eq_none, decide_eq_true_eq,
    Bool.not_eq_true'] at hslot
  obtain ⟨⟨⟨hfinish, herror⟩, hcount⟩, hslides⟩ := hslot
  exact ⟨List.mem_reverse.mp hrow, hfinish, herror, hcount, hslides⟩

theorem evictable_nodup (hn : rows.keys.Nodup) : ((evictable rows).map Prod.fst).Nodup := by
  have hsub : ((evictable rows).map Prod.fst).Sublist (rows.state.reverse.map Prod.fst) :=
    List.filter_sublist.map Prod.fst
  rw [List.map_reverse] at hsub
  exact hsub.nodup (List.nodup_reverse.mpr hn)

/-- Making room is all or nothing and no more than is needed. -/
theorem make_room_exact (config : BatcherConfig) (rows : Rows S L P E) (prefilling free : ℕ)
    (head : Job S L P E) (hn : rows.keys.Nodup)
    (hbudget : ∀ total, config.kvBlocks = some total → free + blocksOf rows.state ≤ total) :
    ∃ n rows' free' jobs,
      madeRoom config rows prefilling free head = some (rows', free', jobs) ∧
      n ≤ (evictable rows).length ∧
      EvictsNewest config rows free n rows' free' jobs ∧
      (0 < n → Makes config rows prefilling free head n rows' free') ∧
      (n = 0 → rows' = rows ∧ free' = free ∧ jobs = []) ∧
      (n = 0 ↔ config.preemptAfterTicks = none ∨
        (∃ after, config.preemptAfterTicks = some after ∧ head.waited < after) ∨
          fitsWithout config rows prefilling free head 0 = true ∨
            fitsWithout config rows prefilling free head (evictable rows).length = false) := by
  obtain ⟨n, hle, hroom, hmakes, hzero⟩ := makeRoom_eq config rows prefilling free head
  have hin : ∀ row ∈ (evictable rows).take n, row ∈ evictable rows :=
    fun row hrow => List.mem_of_mem_take hrow
  have hnodup : (((evictable rows).take n).map Prod.fst).Nodup :=
    ((List.take_sublist n _).map Prod.fst).nodup (evictable_nodup hn)
  obtain ⟨rows', free', hevict, hleft, huid, hlen, hfree⟩ :=
    evictRows_eq hn (fun row hrow => (mem_evictable (hin row hrow)).1) hnodup hbudget
  have hlength : ((evictable rows).take n).length = n := by
    rw [List.length_take, min_eq_left hle]
  rw [hlength] at hlen
  refine ⟨n, rows', free', _, by rw [madeRoom, hroom, hevict], hle, ?_, ?_, ?_, hzero⟩
  · exact ⟨hleft, huid, rfl, hfree, fun row hrow => mem_evictable (hin row hrow)⟩
  · intro hpos
    obtain ⟨hfits, hleast⟩ := hmakes hpos
    have hroomy := hfits
    simp only [fitsWithout, roomFits, Bool.and_eq_true, Bool.or_eq_true, decide_eq_true_eq] at hroomy
    refine ⟨hfits, hleast, by omega, ?_⟩
    rw [hfree]
    cases htotal : config.kvBlocks with
    | none => rfl
    | some total =>
      rw [htotal] at hroomy
      simp only [Option.isNone_some, Bool.false_eq_true, false_or, if_false] at hroomy ⊢
      rw [tryReserve, if_neg (by omega)]
      rfl
  · rintro rfl
    rw [List.take_zero, List.map_nil] at hevict
    cases hevict
    exact ⟨rfl, rfl, rfl⟩

end Scan

section Witness

/-- Four blocks, and a job that waited one pass may evict. -/
def evicting : BatcherConfig := ⟨2, 8, 64, 4, some 4, some 1⟩

/-- A row that holds three of the four blocks. -/
def heldRows : Rows Unit Unit Unit Unit :=
  ⟨[(0, ⟨⟨[0], false⟩, 1, (), .fresh twoZeros 1, [0], 2, twoZeros, none, none, 0, 3⟩)], 1⟩

def waitingJob : Job Unit Unit Unit Unit := ⟨[0], twoZeros, 1, 3, 0, 1, none⟩

theorem make_room_exact_held : ∃ n rows' free' jobs,
    madeRoom evicting heldRows 0 1 waitingJob = some (rows', free', jobs) ∧ 0 < n ∧
      Makes evicting heldRows 0 1 waitingJob n rows' free' := by
  have hbudget : ∀ total, evicting.kvBlocks = some total →
      1 + blocksOf heldRows.state ≤ total := by
    rintro _ ⟨⟩
    decide
  obtain ⟨n, rows', free', jobs, hmade, _, _, hmakes, _, hzero⟩ :=
    make_room_exact evicting heldRows 0 1 waitingJob (by decide) hbudget
  have hpos : 0 < n := by
    by_contra hn
    rcases hzero.mp (by omega) with h | ⟨after, h, hlt⟩ | h | h
    · cases h
    · cases h
      exact absurd hlt (by decide)
    · exact absurd h (by decide)
    · exact absurd h (by decide)
  exact ⟨n, rows', free', jobs, hmade, hpos, hmakes hpos⟩

end Witness

end Frink.Batch
