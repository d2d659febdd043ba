import Mathlib

/-! # Shedding the least

Something held is too much, and of the candidates for leaving the least goes first, one after the
other, until what is left fits or no candidate remains. Who goes is determined by that: the
shortest run of the candidates in their order.
-/

namespace Frink.Shedding

variable {α R : Type*} [LinearOrder R]

/-- What goes of `C`, in this order, so that of `held` no more than `target` stays. -/
structure Shed (rank : α → R) (charge : α → ℕ) (C : Set α) (held target : ℕ) (victims : List α) :
    Prop where

  sorted : victims.Pairwise fun u v => rank u < rank v

  mem : ∀ v ∈ victims, v ∈ C

  least : ∀ v ∈ victims, ∀ a ∈ C, a ∉ victims → rank v < rank a

  needed : ∀ pre v rest, victims = pre ++ v :: rest → target + (pre.map charge).sum < held

  enough : held ≤ target + (victims.map charge).sum ∨ ∀ a ∈ C, a ∈ victims

namespace Shed

variable {rank : α → R} {charge : α → ℕ} {C D : Set α} {held target : ℕ} {v : α} {us vs : List α}

theorem nil_of_fits (h : held ≤ target) : Shed rank charge C held target [] where

  sorted := .nil
  mem := nofun
  least := nofun
  needed := fun pre v rest h => by cases pre <;> cases h
  enough := .inl (by simpa using h)

theorem nil_of_none (h : ∀ a, a ∉ C) : Shed rank charge C held target [] where

  sorted := .nil
  mem := nofun
  least := nofun
  needed := fun pre v rest h => by cases pre <;> cases h
  enough := .inr fun a ha => absurd ha (h a)

/-- One more candidate, less than all others, goes while it does not fit. -/
theorem cons (hheld : target < held) (hv : v ∈ C) (hleast : ∀ a ∈ C, a ≠ v → rank v < rank a)
    (hD : ∀ a, a ∈ D ↔ a ∈ C ∧ a ≠ v)
    (h : Shed rank charge D (held - charge v) target vs) :
    Shed rank charge C held target (v :: vs) where

  sorted := List.pairwise_cons.mpr ⟨fun a ha =>
    hleast a ((hD a).mp (h.mem a ha)).1 ((hD a).mp (h.mem a ha)).2, h.sorted⟩
  mem := List.forall_mem_cons.mpr ⟨hv, fun a ha => ((hD a).mp (h.mem a ha)).1⟩
  least := by
    intro u hu a ha hnot
    rw [List.mem_cons, not_or] at hnot
    obtain rfl | hu := List.mem_cons.mp hu
    · exact hleast a ha hnot.1
    · exact h.least u hu a ((hD a).mpr ⟨ha, hnot.1⟩) hnot.2
  needed := by
    intro pre u rest heq
    cases pre with
    | nil => simpa using hheld
    | cons w pre =>
      obtain ⟨rfl, htail⟩ := List.cons.inj heq
      have := h.needed pre u rest htail
      rw [List.map_cons, List.sum_cons]
      omega
  enough := by
    rw [List.map_cons, List.sum_cons]
    rcases h.enough with h | h
    · left
      omega
    · right
      intro a ha
      by_cases hav : a = v
      · exact hav ▸ List.mem_cons_self
      · exact List.mem_cons_of_mem _ (h a ((hD a).mpr ⟨ha, hav⟩))

theorem congr_set (h : Shed rank charge C held target vs) (hCD : ∀ a, a ∈ D ↔ a ∈ C) :
    Shed rank charge D held target vs := by
  rwa [Set.ext hCD]

theorem nodup (h : Shed rank charge C held target vs) : vs.Nodup := by
  apply h.sorted.imp
  rintro u v huv rfl
  exact lt_irrefl _ huv

/-- If nothing goes, it fits or there is no candidate. -/
theorem eq_nil_iff (h : Shed rank charge C held target vs) :
    vs = [] ↔ held ≤ target ∨ ∀ a, a ∉ C := by
  constructor
  · rintro rfl
    exact h.enough.imp (by simp) fun hall a ha => nomatch hall a ha
  · intro hcase
    cases vs with
    | nil => rfl
    | cons v vs =>
      exfalso
      rcases hcase with hfits | hnone
      · have := h.needed [] v vs rfl
        simp only [List.map_nil, List.sum_nil] at this
        omega
      · exact hnone v (h.mem v List.mem_cons_self)

/-- What went is enough if all candidates together are. -/
theorem fits_iff (h : Shed rank charge C held target vs) (cs : List α) (hcs : cs.Nodup)
    (hmem : ∀ a, a ∈ cs ↔ a ∈ C) :
    held ≤ target + (vs.map charge).sum ↔ held ≤ target + (cs.map charge).sum := by
  have hle {us ws : List α} (hus : us.Nodup) (hsub : us ⊆ ws) :
      (us.map charge).sum ≤ (ws.map charge).sum := by
    obtain ⟨l, hperm, hl⟩ := List.subperm_of_subset hus hsub
    rw [← (hperm.map charge).sum_eq]
    exact (hl.map charge).sum_le_sum fun _ _ => Nat.zero_le _
  have hvs : vs ⊆ cs := fun v hv => (hmem v).mpr (h.mem v hv)
  constructor
  · intro hfits
    exact hfits.trans (Nat.add_le_add_left (hle h.nodup hvs) _)
  · intro hall
    refine h.enough.elim id fun hmax => hall.trans (Nat.add_le_add_left (hle hcs ?_) _)
    exact fun a ha => hmax a ((hmem a).mp ha)

/-- Only one run of candidates is the one that has to go. -/
theorem unique (h : Shed rank charge C held target us) (h' : Shed rank charge C held target vs) :
    us = vs := by
  induction us generalizing vs C held with
  | nil => exact ((h'.eq_nil_iff).mpr (h.eq_nil_iff.mp rfl)).symm
  | cons u us ih =>
    cases vs with
    | nil => exact (h.eq_nil_iff).mpr (h'.eq_nil_iff.mp rfl)
    | cons v vs =>
      have hfirst : ∀ {w : α} {ws : List α}, Shed rank charge C held target (w :: ws) →
          ∀ a ∈ C, a ≠ w → rank w < rank a := by
        intro w ws hw a ha hne
        by_cases hmem : a ∈ ws
        · exact (List.pairwise_cons.mp hw.sorted).1 a hmem
        · exact hw.least w List.mem_cons_self a ha (by simp [hne, hmem])
      have huv : u = v := by
        by_contra hne
        have huv := hfirst h v (h'.mem v List.mem_cons_self) (Ne.symm hne)
        have hvu := hfirst h' u (h.mem u List.mem_cons_self) hne
        exact lt_asymm huv hvu
      subst huv
      have hrest : ∀ {ws : List α}, Shed rank charge C held target (u :: ws) →
          Shed rank charge {a | a ∈ C ∧ a ≠ u} (held - charge u) target ws := by
        intro ws hw
        have hnot : u ∉ ws := (List.nodup_cons.mp hw.nodup).1
        constructor
        · exact (List.pairwise_cons.mp hw.sorted).2
        · intro a ha
          exact ⟨hw.mem a (List.mem_cons_of_mem _ ha), by rintro rfl; exact hnot ha⟩
        · intro a ha b hb hnb
          exact hw.least a (List.mem_cons_of_mem _ ha) b hb.1 (by simp [hb.2, hnb])
        · intro pre a rest heq
          have := hw.needed (u :: pre) a rest (by rw [heq]; rfl)
          rw [List.map_cons, List.sum_cons] at this
          omega
        · refine hw.enough.imp (fun henough => ?_) fun hall a ha => ?_
          · rw [List.map_cons, List.sum_cons] at henough
            omega
          · exact (List.mem_cons.mp (hall a ha.1)).resolve_left ha.2
      rw [ih (hrest h) (hrest h')]

end Shed

/-- Candidates in their order, taken as long as what is held does not fit. -/
def shed (charge : α → ℕ) (target : ℕ) : ℕ → List α → List α
  | _, [] => []
  | held, v :: cs => if held ≤ target then [] else v :: shed charge target (held - charge v) cs

theorem shed_spec {rank : α → R} (charge : α → ℕ) (held target : ℕ) {cs : List α}
    (hcs : cs.Pairwise fun u v => rank u < rank v) :
    Shed rank charge {a | a ∈ cs} held target (shed charge target held cs) := by
  induction cs generalizing held with
  | nil => exact .nil_of_none fun a => List.not_mem_nil
  | cons v cs ih =>
    obtain ⟨hv, hcs⟩ := List.pairwise_cons.mp hcs
    rw [shed]
    split
    · exact .nil_of_fits (by assumption)
    · rename_i hheld
      have hne : ∀ a ∈ cs, a ≠ v := by
        rintro a ha rfl
        exact lt_irrefl _ (hv a ha)
      have hmem : v ∈ {a | a ∈ v :: cs} := List.mem_cons_self
      refine Shed.cons (Nat.lt_of_not_le hheld) hmem ?_ ?_ (ih (held - charge v) hcs)
      · intro a ha hav
        exact hv a ((List.mem_cons.mp ha).resolve_left hav)
      · intro a
        constructor
        · intro ha
          exact ⟨List.mem_cons_of_mem _ ha, hne a ha⟩
        · rintro ⟨ha, hav⟩
          exact (List.mem_cons.mp ha).resolve_left hav

end Frink.Shedding
