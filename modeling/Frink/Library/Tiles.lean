import Mathlib

/-! # Spans laid end to end

Spans run from one position to another when each begins where the one before it
ends. Sorting spans by beginning and then by end finds such an order whenever there
is one, with any number of empty spans among them.
-/

namespace Frink.Tiles

variable {α : Type*}

def Runs [LE α] : α → List (α × α) → α → Prop
  | a, [], b => a = b
  | a, s :: spans, b => s.1 = a ∧ s.1 ≤ s.2 ∧ Runs s.2 spans b

/-- In some order the spans run from `a` to `b`. -/
def Tile [LE α] (a : α) (spans : List (α × α)) (b : α) : Prop :=
  ∃ order : List (α × α), order.Perm spans ∧ Runs a order b

variable [LinearOrder α] {a b : α} {spans : List (α × α)}

/-- The order of the beginnings, and of the ends where two spans begin together. -/
def spanLe (s t : α × α) : Bool := s.1 < t.1 || (s.1 = t.1 && s.2 ≤ t.2)

theorem spanLe_iff {s t : α × α} : spanLe s t = true ↔ s.1 < t.1 ∨ s.1 = t.1 ∧ s.2 ≤ t.2 := by
  simp [spanLe]

theorem spanLe_trans (s t u : α × α) (h : spanLe s t = true) (h' : spanLe t u = true) :
    spanLe s u = true := by
  rw [spanLe_iff] at *
  rcases h with hst | ⟨hst, hle⟩
  · left
    rcases h' with htu | ⟨htu, -⟩
    · exact hst.trans htu
    · exact htu ▸ hst
  · rcases h' with htu | ⟨htu, hle'⟩
    · left
      exact hst ▸ htu
    · right
      exact ⟨hst.trans htu, hle.trans hle'⟩

theorem spanLe_total (s t : α × α) : (spanLe s t || spanLe t s) = true := by
  rw [Bool.or_eq_true, spanLe_iff, spanLe_iff]
  rcases lt_trichotomy s.1 t.1 with h | h | h
  · exact .inl (.inl h)
  · rcases le_total s.2 t.2 with hle | hle
    · exact .inl (.inr ⟨h, hle⟩)
    · exact .inr (.inr ⟨h.symm, hle⟩)
  · exact .inr (.inl h)

theorem spanLe_antisymm {s t : α × α} (h : spanLe s t = true) (h' : spanLe t s = true) :
    s = t := by
  rw [spanLe_iff] at h h'
  rcases h with h | ⟨h, hle⟩
  · rcases h' with h' | ⟨h', -⟩
    · exact absurd h h'.not_gt
    · exact absurd h' h.ne'
  · rcases h' with h' | ⟨-, hle'⟩
    · exact absurd h h'.ne'
    · exact Prod.ext h (le_antisymm hle hle')

theorem Runs.le (h : Runs a spans b) : a ≤ b := by
  induction spans generalizing a with
  | nil => exact le_of_eq h
  | cons s spans ih =>
    obtain ⟨rfl, hs, h⟩ := h
    exact hs.trans (ih h)

theorem Runs.within (h : Runs a spans b) {s : α × α} (hs : s ∈ spans) :
    a ≤ s.1 ∧ s.1 ≤ s.2 ∧ s.2 ≤ b := by
  induction spans generalizing a with
  | nil => cases hs
  | cons t spans ih =>
    obtain ⟨rfl, ht, h⟩ := h
    rcases List.mem_cons.mp hs with rfl | hs
    · exact ⟨le_rfl, ht, h.le⟩
    · obtain ⟨h₁, h₂, h₃⟩ := ih h hs
      exact ⟨ht.trans h₁, h₂, h₃⟩

/-- Of two spans the one in front ends before the other begins. -/
theorem Runs.apart (h : Runs a spans b) : spans.Pairwise fun s t => s.2 ≤ t.1 := by
  induction spans generalizing a with
  | nil => exact .nil
  | cons s spans ih =>
    obtain ⟨rfl, -, h⟩ := h
    exact .cons (fun t ht => (h.within ht).1) (ih h)

theorem Runs.sorted (h : Runs a spans b) : spans.Pairwise fun s t => spanLe s t = true := by
  apply h.apart.imp_of_mem
  intro s t hs ht hst
  rw [spanLe_iff]
  obtain ⟨-, hs, -⟩ := h.within hs
  obtain ⟨-, ht, -⟩ := h.within ht
  rcases (hs.trans hst).lt_or_eq with hlt | heq
  · exact .inl hlt
  · exact .inr ⟨heq, hst.trans ht⟩

theorem Tile.perm {spans' : List (α × α)} (h : Tile a spans b) (hp : spans.Perm spans') :
    Tile a spans' b := by
  obtain ⟨order, ho, hr⟩ := h
  exact ⟨order, ho.trans hp, hr⟩

/-- What carries spans, in the order of their spans. -/
def sortBySpan {β : Type*} (span : β → α × α) (items : List β) : List β :=
  items.mergeSort fun x y => spanLe (span x) (span y)

variable {β : Type*} {span : β → α × α} {items : List β}

theorem perm_sortBySpan : (sortBySpan span items).Perm items := List.mergeSort_perm _ _

theorem sorted_sortBySpan :
    ((sortBySpan span items).map span).Pairwise fun s t => spanLe s t = true := by
  rw [List.pairwise_map]
  exact List.pairwise_mergeSort (fun x y z => spanLe_trans (span x) (span y) (span z))
    (fun x y => spanLe_total (span x) (span y)) items

/-- The sorted order is one that runs, if any does. -/
theorem runs_sortBySpan_iff :
    Runs a ((sortBySpan span items).map span) b ↔ Tile a (items.map span) b := by
  constructor
  · intro h
    exact ⟨_, perm_sortBySpan.map span, h⟩
  · rintro ⟨order, hp, h⟩
    have hsame : order = (sortBySpan span items).map span :=
      List.Perm.eq_of_pairwise (fun _ _ _ _ => spanLe_antisymm) h.sorted sorted_sortBySpan
        (hp.trans (perm_sortBySpan.map span).symm)
    exact hsame ▸ h

end Frink.Tiles
