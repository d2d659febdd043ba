import Mathlib
import Frink.Expert.Slots

/-! # Labels and bytes

A lawful device carries out its copies in the order they were issued and may leave them to the
next flush; what it refuses may have touched the slot it was for. A label is true when the slot
holds the expert's rows once every copy issued so far is carried out.
-/

namespace Frink.Expert

variable {σ : Type}

/-- What one copy into a slot of a bank may do: it stores the value or is refused, and nothing
else changes. -/
structure Stores (view : σ → ℕ → ℕ → Bytes) (deferred : σ → Set ℕ) (bank slot : ℕ)
    (value : Bytes) (s : σ) (r : Except String Unit × σ) : Prop where

  stored : r.1 = .ok () → view r.2 bank slot = value
  others : ∀ b t, b ≠ bank ∨ t ≠ slot → view r.2 b t = view s b t
  defers : deferred r.2 ⊆ insert slot (deferred s)

/-- A device as its trait asks for it. `view` is what the slots hold once the copies issued so
far are carried out, `deferred` the slots whose copies the next flush decides. -/
structure LawfulDevice (d : SlotDevice σ) where

  view : σ → ℕ → ℕ → Bytes
  deferred : σ → Set ℕ
  begin_view : ∀ route s, view (d.beginPlan route s).2 = view s
  begin_defers : ∀ route s, deferred (d.beginPlan route s).2 ⊆ deferred s
  write : ∀ bank slot src s, Stores view deferred bank slot src s (d.writeSlot bank slot src s)
  copy : ∀ bank slot src s,
    Stores view deferred bank slot (view s bank src) s (d.copySlot bank slot src s)
  flush_ok : ∀ s, (d.flush s).1 = .ok () →
    view (d.flush s).2 = view s ∧ deferred (d.flush s).2 = ∅
  flush_view : ∀ s bank slot, slot ∉ deferred s → view (d.flush s).2 bank slot = view s bank slot
  flush_defers : ∀ s, deferred (d.flush s).2 ⊆ deferred s

/-- Each label names the expert whose rows are in the slot, in every bank. -/
def Labelled (view : ℕ → ℕ → Bytes) (rows : ExpertRows) (banks : ℕ) (o : Occupants) : Prop :=
  ∀ slot e, o.label slot = some e → ∀ bank < banks,
    rows bank e.layer e.expert = some (view bank slot)

namespace Occupants

variable {o : Occupants} {i j : ℕ} {e : Option ExpertId}

theorem label_set_ne (h : i ≠ j) : label (o.set i e) j = o.label j := by
  simp [label, List.getElem?_set_ne h]

theorem label_set_self (h : i < o.length) : label (o.set i e) i = e := by
  simp [label, h]

@[simp] theorem label_set_none : label (o.set i none) i = none := by
  by_cases h : i < o.length
  · exact label_set_self h
  · simp [label, h]

theorem label_set_some {x : ExpertId} (h : label (o.set i e) j = some x) :
    i = j ∧ e = some x ∨ i ≠ j ∧ o.label j = some x := by
  by_cases hij : i = j
  · subst hij
    by_cases hi : i < o.length
    · exact Or.inl ⟨rfl, (label_set_self hi).symm.trans h⟩
    · rw [List.set_eq_of_length_le (Nat.le_of_not_lt hi)] at h
      simp [label, hi] at h
  · exact Or.inr ⟨hij, (label_set_ne hij).symm.trans h⟩

end Occupants

section Issue

variable {view : σ → ℕ → ℕ → Bytes} {deferred : σ → Set ℕ}

/-- What issuing a row into some banks of one slot has done. -/
structure Banked (view : σ → ℕ → ℕ → Bytes) (deferred : σ → Set ℕ) (slot : ℕ)
    (value : ℕ → Bytes) (banks : List ℕ) (s : σ) (r : Except SlotFault Applied × σ) : Prop where

  stored : ∀ a, r.1 = .ok a → ∀ b ∈ banks, view r.2 b slot = value b
  others : ∀ b t, b ∉ banks ∨ t ≠ slot → view r.2 b t = view s b t
  defers : deferred r.2 ⊆ insert slot (deferred s)

theorem issueBanks_spec {call : ℕ → σ → Except String Unit × σ} (width : ℕ → ℕ) {slot : ℕ}
    {value : (ℕ → ℕ → Bytes) → ℕ → Bytes}
    (hlocal : ∀ v w bank, (∀ t, v bank t = w bank t) → value v bank = value w bank)
    (hcall : ∀ bank s, Stores view deferred bank slot (value (view s) bank) s (call bank s))
    (banks : List ℕ) (hbanks : banks.Nodup) (applied : Applied) (s : σ) :
    Banked view deferred slot (value (view s)) banks s
      (issueBanks call width slot banks applied s) := by
  induction banks generalizing applied s with
  | nil =>
    constructor
    · exact fun _ _ b hb => absurd hb List.not_mem_nil
    · exact fun _ _ _ => rfl
    · exact Set.subset_insert slot _
  | cons bank banks ih =>
    obtain ⟨hnotin, hbanks⟩ := List.nodup_cons.mp hbanks
    have hc := hcall bank s
    rw [issueBanks]
    generalize call bank s = r at hc
    obtain ⟨answer, s'⟩ := r
    cases answer with
    | error detail =>
      dsimp only
      constructor
      · exact fun _ h => nomatch h
      · intro b t h
        apply hc.others
        exact h.imp_left fun hb => List.ne_of_not_mem_cons hb
      · exact hc.defers
    | ok =>
      have hrest := ih hbanks { applied with
        rows := applied.rows + 1, bytes := applied.bytes + width bank } s'
      dsimp only
      constructor
      · intro a ha b hb
        obtain rfl | hin := List.mem_cons.mp hb
        · rw [hrest.others b slot (Or.inl hnotin)]
          exact hc.stored rfl
        · rw [hrest.stored a ha b hin]
          apply hlocal
          intro t
          exact hc.others b t (Or.inl (ne_of_mem_of_not_mem hin hnotin))
      · intro b t h
        rw [hrest.others b t (h.imp_left fun hb => List.not_mem_of_not_mem_cons hb)]
        exact hc.others b t (h.imp_left fun hb => List.ne_of_not_mem_cons hb)
      · apply hrest.defers.trans
        apply Set.insert_subset (Set.mem_insert slot _)
        exact hc.defers

/-- What issuing the pairs of a plan keeps, whichever of them the device takes. -/
structure Issued (view : σ → ℕ → ℕ → Bytes) (deferred : σ → Set ℕ) (rows : ExpertRows)
    (banks : ℕ) (dsts : List ℕ) (s : σ)
    (r : Except SlotFault Applied × Occupants × σ) : Prop where

  labelled : Labelled (view r.2.2) rows banks r.2.1
  defers : ∀ slot ∈ deferred r.2.2, slot ∈ dsts ∨ slot ∈ deferred s

theorem issuePairs_spec {call : ℕ → ℕ → ℕ → σ → Except String Unit × σ} (width : ℕ → ℕ → ℕ)
    (carried : Occupants → ℕ → Option ExpertId) {rows : ExpertRows} {banks : ℕ}
    (value : (ℕ → ℕ → Bytes) → ℕ → ℕ → Bytes)
    (hlocal : ∀ v w bank src, (∀ t, v bank t = w bank t) → value v bank src = value w bank src)
    (hcall : ∀ bank dst src s,
      Stores view deferred bank dst (value (view s) bank src) s (call bank dst src s))
    (pairs : List (ℕ × ℕ))
    (hcarried : ∀ o s e, ∀ p ∈ pairs, Labelled (view s) rows banks o → carried o p.2 = some e →
      ∀ bank < banks, rows bank e.layer e.expert = some (value (view s) bank p.2))
    (applied : Applied) {o : Occupants} {s : σ} (ho : Labelled (view s) rows banks o) :
    Issued view deferred rows banks (pairs.map (·.1)) s
      (issuePairs call width carried banks pairs applied o s) := by
  induction pairs generalizing applied o s with
  | nil => exact ⟨ho, fun _ h => Or.inr h⟩
  | cons pair pairs ih =>
    obtain ⟨dst, src⟩ := pair
    have hb := issueBanks_spec (width · src) (fun v w bank => hlocal v w bank src)
      (fun bank s => hcall bank dst src s) (List.range banks) List.nodup_range applied s
    rw [issuePairs]
    generalize issueBanks (call · dst src) (width · src) dst (List.range banks) applied s = r at hb
    obtain ⟨answer, s'⟩ := r
    have hkept : ∀ slot e, dst ≠ slot → o.label slot = some e → ∀ bank < banks,
        rows bank e.layer e.expert = some (view s' bank slot) := by
      intro slot e hne he bank hbank
      rw [hb.others bank slot (Or.inr hne.symm)]
      exact ho slot e he bank hbank
    cases answer with
    | error e =>
      constructor
      · intro slot e he
        obtain ⟨-, h⟩ | ⟨hne, h⟩ := Occupants.label_set_some he
        · cases h
        · exact hkept slot e hne h
      · intro slot hslot
        obtain rfl | h := Set.mem_insert_iff.mp (hb.defers hslot)
        · exact Or.inl List.mem_cons_self
        · exact Or.inr h
    | ok applied' =>
      have hlabel : Labelled (view s') rows banks ((o.set dst none).set dst (carried o src)) := by
        intro slot e he bank hbank
        rw [List.set_set] at he
        obtain ⟨rfl, h⟩ | ⟨hne, h⟩ := Occupants.label_set_some he
        · rw [hcarried o s e _ List.mem_cons_self ho h bank hbank]
          rw [hb.stored applied' rfl bank (List.mem_range.mpr hbank)]
        · exact hkept slot e hne h bank hbank
      have hrest := ih (fun o s e p hp => hcarried o s e p (List.mem_cons_of_mem _ hp)) applied' hlabel
      constructor
      · exact hrest.labelled
      · intro slot hslot
        obtain h | h := hrest.defers slot hslot
        · exact Or.inl (List.mem_cons_of_mem dst h)
        · obtain rfl | h := Set.mem_insert_iff.mp (hb.defers h)
          · exact Or.inl List.mem_cons_self
          · exact Or.inr h

end Issue

/-- A refused copy is named by its slot. -/
theorem issueBanks_refused {call : ℕ → σ → Except String Unit × σ} {width : ℕ → ℕ} {slot : ℕ}
    {banks : List ℕ} {applied : Applied} {s : σ} {e : SlotFault}
    (h : (issueBanks call width slot banks applied s).1 = .error e) :
    ∃ bank detail, e = .device bank slot detail := by
  induction banks generalizing applied s with
  | nil => cases h
  | cons bank banks ih =>
    rw [issueBanks] at h
    split at h
    · rename_i detail _ _
      exact ⟨bank, detail, (Except.error.inj h).symm⟩
    · exact ih h

section Frame

variable (call : ℕ → ℕ → ℕ → σ → Except String Unit × σ) (width : ℕ → ℕ → ℕ)
  (carried : Occupants → ℕ → Option ExpertId) (banks : ℕ)

/-- Only the slots a plan writes change their labels. -/
theorem issuePairs_frame (pairs : List (ℕ × ℕ)) (applied : Applied) (o : Occupants) (s : σ) :
    (issuePairs call width carried banks pairs applied o s).2.1.length = o.length ∧
    ∀ slot, slot ∉ pairs.map (·.1) →
      (issuePairs call width carried banks pairs applied o s).2.1.label slot = o.label slot := by
  induction pairs generalizing applied o s with
  | nil => exact ⟨rfl, fun _ _ => rfl⟩
  | cons pair pairs ih =>
    obtain ⟨dst, src⟩ := pair
    rw [issuePairs]
    split
    · constructor
      · exact List.length_set
      · intro slot hslot
        exact Occupants.label_set_ne (List.ne_of_not_mem_cons hslot).symm
    · rename_i applied' s' _
      obtain ⟨hlen, hothers⟩ := ih applied' ((o.set dst none).set dst (carried o src)) s'
      constructor
      · rw [hlen, List.length_set, List.length_set]
      · intro slot hslot
        have hne : dst ≠ slot := (List.ne_of_not_mem_cons hslot).symm
        rw [hothers slot (List.not_mem_of_not_mem_cons hslot)]
        exact (Occupants.label_set_ne hne).trans (Occupants.label_set_ne hne)

/-- A plan the device takes as a whole leaves its experts in its slots. -/
theorem issuePairs_copied (f : ℕ → Option ExpertId) {pairs : List (ℕ × ℕ)}
    (honce : (pairs.map (·.1)).Nodup) (applied : Applied) {o : Occupants} (s : σ)
    (hin : ∀ p ∈ pairs, p.1 < o.length) {a : Applied}
    (h : (issuePairs call width (fun _ => f) banks pairs applied o s).1 = .ok a) :
    ∀ p ∈ pairs, (issuePairs call width (fun _ => f) banks pairs applied o s).2.1.label p.1 =
      f p.2 := by
  induction pairs generalizing applied o s with
  | nil => exact nofun
  | cons pair pairs ih =>
    obtain ⟨dst, src⟩ := pair
    obtain ⟨hdst, honce⟩ := List.nodup_cons.mp honce
    rw [issuePairs] at h ⊢
    split at h
    · cases h
    · rename_i applied' s' _
      intro p hp
      obtain rfl | hp := List.mem_cons.mp hp
      · rw [(issuePairs_frame call width _ banks pairs applied' _ s').2 dst hdst]
        apply Occupants.label_set_self
        rw [List.length_set]
        exact hin (dst, src) List.mem_cons_self
      · apply ih honce applied' s' _ h p hp
        intro q hq
        rw [List.length_set, List.length_set]
        exact hin q (List.mem_cons_of_mem _ hq)

theorem issuePairs_append (xs ys : List (ℕ × ℕ)) (applied : Applied) (o : Occupants) (s : σ) :
    issuePairs call width carried banks (xs ++ ys) applied o s =
      match issuePairs call width carried banks xs applied o s with
      | (.error e, o, s) => (.error e, o, s)
      | (.ok applied, o, s) => issuePairs call width carried banks ys applied o s := by
  induction xs generalizing applied o s with
  | nil => rfl
  | cons pair xs ih =>
    obtain ⟨dst, src⟩ := pair
    rw [List.cons_append, issuePairs, issuePairs]
    split
    · rfl
    · exact ih _ _ _

end Frame

section Calls

/-- Calls made one after the other until the device refuses one. -/
def issue : List (σ → Except String Unit × σ) → σ → Except String Unit × σ
  | [], s => (.ok (), s)
  | call :: calls, s =>
      match call s with
      | (.error detail, s) => (.error detail, s)
      | (.ok (), s) => issue calls s

/-- The calls the pairs of a plan stand for. -/
def pairCalls (call : ℕ → ℕ → ℕ → σ → Except String Unit × σ) (banks : ℕ)
    (pairs : List (ℕ × ℕ)) : List (σ → Except String Unit × σ) :=
  pairs.flatMap fun p => (List.range banks).map fun bank => call bank p.1 p.2

theorem issue_append (xs ys : List (σ → Except String Unit × σ)) (s : σ) :
    issue (xs ++ ys) s = match issue xs s with
      | (.error detail, s) => (.error detail, s)
      | (.ok (), s) => issue ys s := by
  induction xs generalizing s with
  | nil => rfl
  | cons call xs ih =>
    rw [List.cons_append, issue, issue]
    generalize call s = r
    obtain ⟨detail | ⟨⟩, s'⟩ := r
    · rfl
    · exact ih s'

/-- The device takes the copies or refuses one, and is left where the calls leave it. -/
structure Answers {α : Type} (r : Except SlotFault Applied × α) (s : σ)
    (answer : Except String Unit × σ) : Prop where

  state : s = answer.2
  taken : ∀ a, r.1 = .ok a → answer.1 = .ok ()
  refused : ∀ e, r.1 = .error e → answer.1 ≠ .ok ()

theorem issueBanks_answers (call : ℕ → σ → Except String Unit × σ) (width : ℕ → ℕ) (slot : ℕ)
    (banks : List ℕ) (applied : Applied) (s : σ) :
    Answers (issueBanks call width slot banks applied s)
      (issueBanks call width slot banks applied s).2 (issue (banks.map call) s) := by
  induction banks generalizing applied s with
  | nil => exact ⟨rfl, fun _ _ => rfl, fun _ h => nomatch h⟩
  | cons bank banks ih =>
    rw [issueBanks, List.map_cons, issue]
    generalize call bank s = r
    obtain ⟨detail | ⟨⟩, s'⟩ := r
    · exact ⟨rfl, fun _ h => (nomatch h), fun _ _ h => nomatch h⟩
    · exact ih _ s'

theorem issuePairs_answers (call : ℕ → ℕ → ℕ → σ → Except String Unit × σ) (width : ℕ → ℕ → ℕ)
    (carried : Occupants → ℕ → Option ExpertId) (banks : ℕ) (pairs : List (ℕ × ℕ))
    (applied : Applied) (o : Occupants) (s : σ) :
    Answers (issuePairs call width carried banks pairs applied o s)
      (issuePairs call width carried banks pairs applied o s).2.2
      (issue (pairCalls call banks pairs) s) := by
  induction pairs generalizing applied o s with
  | nil => exact ⟨rfl, fun _ _ => rfl, fun _ h => nomatch h⟩
  | cons pair pairs ih =>
    obtain ⟨dst, src⟩ := pair
    have hb := issueBanks_answers (call · dst src) (width · src) dst (List.range banks) applied s
    rw [issuePairs, pairCalls, List.flatMap_cons, issue_append]
    generalize issueBanks (call · dst src) (width · src) dst (List.range banks) applied s = r at hb
    generalize issue ((List.range banks).map fun bank => call bank dst src) s = answer at hb
    obtain ⟨e | a, s'⟩ := r
    · obtain ⟨detail | ⟨⟩, t⟩ := answer
      · exact ⟨hb.state, fun _ h => (nomatch h), fun _ _ h => nomatch h⟩
      · exact absurd rfl (hb.refused e rfl)
    · obtain ⟨detail | ⟨⟩, t⟩ := answer
      · exact nomatch hb.taken a rfl
      · obtain rfl := hb.state
        exact ih a _ s'

end Calls

namespace ExpertSlots

variable (p : ExpertSlots)

theorem occupantOf_invalidate (written : List ℕ) (slot : ℕ) :
    (written.foldl invalidateSlot p).occupantOf slot =
      if slot ∈ written then none else p.occupantOf slot := by
  induction written generalizing p with
  | nil => rfl
  | cons first written ih =>
    rw [List.foldl_cons, ih]
    by_cases hw : slot ∈ written
    · simp [hw]
    · by_cases hf : first = slot
      · subst hf
        simp [hw, invalidateSlot, occupantOf]
      · simp [hw, Ne.symm hf, invalidateSlot, occupantOf, Occupants.label_set_ne hf]

@[simp] theorem geometry_invalidate (written : List ℕ) :
    (written.foldl invalidateSlot p).geometry = p.geometry := by
  induction written generalizing p with
  | nil => rfl
  | cons first written ih => exact ih _

@[simp] theorem length_invalidate (written : List ℕ) :
    (written.foldl invalidateSlot p).occupant.length = p.occupant.length := by
  induction written generalizing p with
  | nil => rfl
  | cons first written ih => exact (ih _).trans List.length_set

theorem validateSlots_ok {seen slots : List ℕ} (h : p.validateSlots seen slots = .ok ()) :
    (∀ slot ∈ slots, slot < p.geometry.slots) ∧ slots.Nodup ∧ ∀ slot ∈ slots, slot ∉ seen := by
  induction slots generalizing seen with
  | nil => exact ⟨nofun, List.nodup_nil, nofun⟩
  | cons slot slots ih =>
    rw [validateSlots] at h
    split at h
    · cases h
    · rename_i hlt
      split at h
      · cases h
      · rename_i hseen
        obtain ⟨hrange, hnodup, hfresh⟩ := ih h
        refine ⟨?_, ?_, ?_⟩
        · exact List.forall_mem_cons.mpr ⟨Nat.lt_of_not_le hlt, hrange⟩
        · apply List.nodup_cons.mpr
          exact ⟨fun hs => hfresh slot hs (by simp), hnodup⟩
        · exact List.forall_mem_cons.mpr
            ⟨hseen, fun t ht hs => hfresh t ht (List.mem_append_left _ hs)⟩

end ExpertSlots

section Rows

variable {rows : ExpertRows} {layer : ℕ}

theorem validateRow_ok {row : ℕ} {widths : List (ℕ × ℕ)}
    (h : validateRow rows layer row widths = .ok ()) :
    ∀ w ∈ widths, ∃ bytes, rows w.2 layer row = some bytes ∧ bytes.length = w.1 := by
  induction widths with
  | nil => exact nofun
  | cons w widths ih =>
    obtain ⟨expected, bank⟩ := w
    rw [validateRow] at h
    split at h
    · cases h
    · rename_i bytes hbytes
      split at h
      · rename_i hlen
        exact List.forall_mem_cons.mpr ⟨⟨bytes, hbytes, hlen⟩, ih h⟩
      · cases h

theorem validateRows_ok {widths srcs : List ℕ} (h : validateRows rows layer widths srcs = .ok ()) :
    ∀ src ∈ srcs, ∀ bank < widths.length, ∃ bytes, rows bank layer src = some bytes ∧
      widths[bank]? = some bytes.length := by
  induction srcs with
  | nil => exact nofun
  | cons src srcs ih =>
    rw [validateRows] at h
    split at h
    · cases h
    · rename_i hrow
      refine List.forall_mem_cons.mpr ⟨fun bank hbank => ?_, ih h⟩
      have hmem : (widths[bank], bank) ∈ widths.zipIdx := by
        apply List.mk_mem_zipIdx_iff_getElem?.mpr
        exact List.getElem?_eq_getElem hbank
      obtain ⟨bytes, hbytes, hlen⟩ := validateRow_ok hrow _ hmem
      exact ⟨bytes, hbytes, hlen ▸ List.getElem?_eq_getElem hbank⟩

end Rows

end Frink.Expert
