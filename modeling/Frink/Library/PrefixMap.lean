import Mathlib
import Frink.Library.Forest

/-! # Page-aligned prefix maps

A store of paged prefixes: each entry is a whole number of pages, gives every
position a value, comes with all its page-aligned prefixes, and is determined
by its keys. A forest whose edges carry whole pages, no two siblings starting
with the same page, holds such a map.
-/

namespace Frink

/-- A prefix-closed map from page-aligned key sequences to value sequences. -/
structure PrefixMap (α β : Type) (page : ℕ) where

  entries : Set (List (α × β))

  nil_mem : [] ∈ entries
  dvd : ∀ L ∈ entries, page ∣ L.length
  take_mem : ∀ L ∈ entries, ∀ n, page ∣ n → L.take n ∈ entries
  functional : ∀ L ∈ entries, ∀ L' ∈ entries, L.map Prod.fst = L'.map Prod.fst → L = L'

namespace PrefixMap

variable {α β : Type} {page : ℕ} {M M' : PrefixMap α β page} {L L' : List (α × β)} {q : List α}

/-- The longest entry whose keys are a prefix of the query. -/
def Longest (M : PrefixMap α β page) (q : List α) (L : List (α × β)) : Prop :=
  L ∈ M.entries ∧ L.map Prod.fst <+: q ∧
    ∀ L' ∈ M.entries, L'.map Prod.fst <+: q → L'.length ≤ L.length

theorem longest_unique (h : M.Longest q L) (h' : M.Longest q L') : L = L' := by
  have hlen : L.length = L'.length :=
    le_antisymm (h'.2.2 L h.1 h.2.1) (h.2.2 L' h'.1 h'.2.1)
  refine M.functional L h.1 L' h'.1 ?_
  exact (List.prefix_of_prefix_length_le h.2.1 h'.2.1 (by simp [hlen])).eq_of_length (by simp [hlen])

/-- The map that knows the empty prefix only. -/
def empty (α β : Type) (page : ℕ) : PrefixMap α β page where
  entries := {[]}
  nil_mem := rfl
  dvd := by rintro L rfl; simp
  take_mem := by rintro L rfl n _; exact List.take_nil
  functional := by rintro L rfl L' rfl _; rfl

/-- The entries a publication of `kv` adds once the stored prefix `S` is known: stored
positions keep their values, the others take the published ones. -/
def published (S kv : List (α × β)) (page : ℕ) : Set (List (α × β)) :=
  {L | ∃ n, page ∣ n ∧ L = (S ++ kv.drop S.length).take n}

end PrefixMap

namespace Forest

variable {ν α β γ : Type} {parent parent' : ν → Option ν} {label label' : ν → List γ}
  {root i j k p d w : ν} {L L' : List γ}

/-- The labels read on the way down from one node to another. -/
inductive Spells (parent : ν → Option ν) (label : ν → List γ) (i : ν) : List γ → ν → Prop
  | refl : Spells parent label i [] i
  | down {j k : ν} {L : List γ} : Spells parent label i L j → parent k = some j →
      Spells parent label i (L ++ label k) k

theorem Spells.head (hi : parent j = some i) (h : Spells parent label j L k) :
    Spells parent label i (label j ++ L) k := by
  induction h with
  | refl => simpa using Spells.down .refl hi
  | down _ hk ih =>
    rw [← List.append_assoc]
    exact .down ih hk

theorem Spells.cases_head (h : Spells parent label i L k) :
    (i = k ∧ L = []) ∨
      ∃ j L', parent j = some i ∧ Spells parent label j L' k ∧ L = label j ++ L' := by
  induction h with
  | refl => exact .inl ⟨rfl, rfl⟩
  | @down j k L _ hk ih =>
    right
    rcases ih with ⟨rfl, rfl⟩ | ⟨c, L', hc, hs, rfl⟩
    · exact ⟨k, [], hk, .refl, by simp⟩
    · exact ⟨c, L' ++ label k, hc, .down hs hk, by simp⟩

theorem Chain.spells {l : List ν} (h : Chain parent root i l) :
    Spells parent label root (l.reverse.flatMap label) i := by
  induction h with
  | root => exact .refl
  | step hp _ ih =>
    rw [List.reverse_cons, List.flatMap_append, List.flatMap_singleton]
    exact .down ih hp

theorem Spells.chain (h : Spells parent label root L i) : ∃ l, Chain parent root i l ∧
    L = l.reverse.flatMap label := by
  induction h with
  | refl => exact ⟨[], .root, rfl⟩
  | @down j k L _ hk ih =>
    obtain ⟨l, hc, rfl⟩ := ih
    exact ⟨k :: l, .step hk hc, by simp⟩

theorem Spells.unique (hr : parent root = none) (h : Spells parent label root L i)
    (h' : Spells parent label root L' i) : L = L' := by
  obtain ⟨l, hc, rfl⟩ := h.chain
  obtain ⟨l', hc', rfl⟩ := h'.chain
  rw [chain_unique hr hc hc']

section Surgery

theorem Spells.congr (hp : parent' = parent) (hl : label' = label) :
    Spells parent' label' i L j ↔ Spells parent label i L j := by
  rw [hp, hl]

/-- A new leaf spells what its parent does and its own label. -/
theorem spells_add_leaf_iff (hw : parent w = none) (hwr : w ≠ root) (hpw : p ≠ w)
    (hw' : parent' w = some p) (hleaf : ∀ j, parent j ≠ some w)
    (hsame : ∀ j, j ≠ w → parent' j = parent j ∧ label' j = label j) :
    Spells parent' label' root L j ↔ Spells parent label root L j ∨
      (j = w ∧ ∃ S, Spells parent label root S p ∧ L = S ++ label' w) := by
  constructor
  · intro h
    induction h with
    | refl => exact .inl .refl
    | @down j k L _ hk ih =>
      by_cases hkw : k = w
      · subst hkw
        rw [hw'] at hk
        cases hk
        rcases ih with h | ⟨rfl, _⟩
        · exact .inr ⟨rfl, L, h, rfl⟩
        · exact (hpw rfl).elim
      · rw [(hsame k hkw).1] at hk
        rcases ih with h | ⟨rfl, _⟩
        · rw [(hsame k hkw).2]
          exact .inl (.down h hk)
        · exact (hleaf k hk).elim
  · have hold : ∀ {L j}, Spells parent label root L j → Spells parent' label' root L j := by
      intro L j h
      induction h with
      | refl => exact .refl
      | @down j k L _ hk ih =>
        have hkw : k ≠ w := by
          rintro rfl
          rw [hw] at hk
          cases hk
        rw [← (hsame k hkw).2]
        exact .down ih (by rw [(hsame k hkw).1]; exact hk)
    rintro (h | ⟨rfl, S, h, rfl⟩)
    · exact hold h
    · exact .down (hold h) hw'

/-- Removing a leaf takes away what it spelled and nothing else. -/
theorem spells_remove_leaf_iff (hdr : d ≠ root) (hd' : parent' d = none)
    (hleaf : ∀ j, parent j ≠ some d)
    (hsame : ∀ j, j ≠ d → parent' j = parent j ∧ label' j = label j) :
    Spells parent' label' root L j ↔ Spells parent label root L j ∧ j ≠ d := by
  constructor
  · intro h
    induction h with
    | refl => exact ⟨.refl, hdr.symm⟩
    | @down j k L _ hk ih =>
      have hkd : k ≠ d := by
        rintro rfl
        rw [hd'] at hk
        cases hk
      rw [(hsame k hkd).1] at hk
      rw [(hsame k hkd).2]
      exact ⟨.down ih.1 hk, hkd⟩
  · rintro ⟨h, hj⟩
    induction h with
    | refl => exact .refl
    | @down j k L _ hk ih =>
      have hjd : j ≠ d := by
        rintro rfl
        exact hleaf k hk
      rw [← (hsame k hj).2]
      exact .down (ih hjd) (by rw [(hsame k hj).1]; exact hk)

/-- Cutting an edge in two adds its upper half and changes no old spelling. -/
theorem spells_split_iff (hd : parent d = some p) (hw : parent w = none) (hwr : w ≠ root)
    (hdw : d ≠ w) (hd' : parent' d = some w) (hw' : parent' w = some p)
    (hleaf : ∀ j, parent j ≠ some w) (hlabel : label' w ++ label' d = label d)
    (hsame : ∀ j, j ≠ d → j ≠ w → parent' j = parent j ∧ label' j = label j) :
    Spells parent' label' root L j ↔ Spells parent label root L j ∨
      (j = w ∧ ∃ S, Spells parent label root S p ∧ L = S ++ label' w) := by
  have hpw : p ≠ w := fun h => hleaf d (h ▸ hd)
  constructor
  · intro h
    induction h with
    | refl => exact .inl .refl
    | @down j k L _ hk ih =>
      by_cases hkw : k = w
      · subst hkw
        rw [hw'] at hk
        cases hk
        rcases ih with h | ⟨rfl, _⟩
        · exact .inr ⟨rfl, L, h, rfl⟩
        · exact (hpw rfl).elim
      · by_cases hkd : k = d
        · subst hkd
          rw [hd'] at hk
          cases hk
          rcases ih with h | ⟨_, S, h, rfl⟩
          · obtain ⟨l, hc, _⟩ := h.chain
            exact (hwr (chain_of_no_parent hc hw)).elim
          · left
            rw [List.append_assoc, hlabel]
            exact .down h hd
        · rw [(hsame k hkd hkw).1] at hk
          rcases ih with h | ⟨rfl, _⟩
          · rw [(hsame k hkd hkw).2]
            exact .inl (.down h hk)
          · exact (hleaf k hk).elim
  · have hold : ∀ {L j}, Spells parent label root L j → Spells parent' label' root L j := by
      intro L j h
      induction h with
      | refl => exact .refl
      | @down j k L _ hk ih =>
        have hkw : k ≠ w := by
          rintro rfl
          rw [hw] at hk
          cases hk
        by_cases hkd : k = d
        · subst hkd
          rw [hd] at hk
          cases hk
          rw [← hlabel, ← List.append_assoc]
          exact .down (.down ih hw') hd'
        · rw [← (hsame k hkd hkw).2]
          exact .down ih (by rw [(hsame k hkd hkw).1]; exact hk)
    rintro (h | ⟨rfl, S, h, rfl⟩)
    · exact hold h
    · exact .down (hold h) hw'

end Surgery

/-- Edges carry whole pages and no two siblings start with the same page of keys. -/
structure Paged (parent : ν → Option ν) (label : ν → List (α × β)) (page : ℕ) : Prop where
  page_pos : 0 < page
  dvd : ∀ i p, parent i = some p → page ∣ (label i).length
  pos : ∀ i p, parent i = some p → 0 < (label i).length
  sibling : ∀ i j p, parent i = some p → parent j = some p →
    ((label i).take page).map Prod.fst = ((label j).take page).map Prod.fst → i = j

section Trie

variable {label : ν → List (α × β)} {page n : ℕ} {L L' : List (α × β)}

theorem Paged.le_length (h : Paged parent label page) (hi : parent i = some p) :
    page ≤ (label i).length := Nat.le_of_dvd (h.pos i p hi) (h.dvd i p hi)

theorem Paged.dvd_spells (h : Paged parent label page) (hs : Spells parent label i L j) :
    page ∣ L.length := by
  induction hs with
  | refl => simp
  | down _ hk ih =>
    rw [List.length_append]
    exact Nat.dvd_add ih (h.dvd _ _ hk)

/-- In a paged forest the keys of an aligned prefix determine its values. -/
theorem Paged.functional (h : Paged parent label page) (hs : Spells parent label i L j)
    (hs' : Spells parent label i L' k) (hn : page ∣ n) (hl : n ≤ L.length) (hl' : n ≤ L'.length)
    (he : (L.take n).map Prod.fst = (L'.take n).map Prod.fst) : L.take n = L'.take n := by
  induction hm : L.length using Nat.strong_induction_on generalizing i L L' n with
  | _ m ih =>
    rcases Nat.eq_zero_or_pos n with rfl | hpos
    · simp
    rcases hs.cases_head with ⟨_, rfl⟩ | ⟨c, A, hc, hsA, rfl⟩
    · simp at hl; omega
    rcases hs'.cases_head with ⟨_, rfl⟩ | ⟨c', A', hc', hsA', rfl⟩
    · simp at hl'; omega
    have hpn : page ≤ n := Nat.le_of_dvd hpos hn
    have hcc : c = c' := by
      refine h.sibling c c' i hc hc' ?_
      have hp := congrArg (List.take page) he
      rw [← List.map_take, ← List.map_take, List.take_take, List.take_take,
        Nat.min_eq_left hpn, List.take_append_of_le_length (h.le_length hc),
        List.take_append_of_le_length (h.le_length hc')] at hp
      exact hp
    subst hcc
    rw [List.take_append, List.take_append] at he ⊢
    rw [List.map_append, List.map_append] at he
    rw [List.length_append] at hl hl' hm
    have hrest := List.append_cancel_left he
    have hdvd : page ∣ n - (label c).length := Nat.dvd_sub hn (h.dvd c i hc)
    have hlt : A.length < m := by have := h.pos c i hc; omega
    rw [ih A.length hlt hsA hsA' hdvd (by omega) (by omega) hrest rfl]

/-- The map a paged forest holds: the aligned prefixes of what its nodes spell. -/
def Paged.prefixMap (h : Paged parent label page) (root : ν) : PrefixMap α β page where
  entries := {L | ∃ S j n, Spells parent label root S j ∧ page ∣ n ∧ L = S.take n}
  nil_mem := ⟨[], root, 0, .refl, by simp, rfl⟩
  dvd := by
    rintro _ ⟨S, j, n, hs, hn, rfl⟩
    rw [List.length_take]
    rcases Nat.le_total n S.length with hle | hle
    · rwa [Nat.min_eq_left hle]
    · rw [Nat.min_eq_right hle]
      exact h.dvd_spells hs
  take_mem := by
    rintro _ ⟨S, j, n, hs, hn, rfl⟩ m hm
    refine ⟨S, j, min m n, hs, ?_, by rw [List.take_take]⟩
    rcases Nat.le_total m n with hle | hle
    · rwa [Nat.min_eq_left hle]
    · rwa [Nat.min_eq_right hle]
  functional := by
    rintro _ ⟨S, j, n, hs, hn, rfl⟩ _ ⟨S', j', n', hs', hn', rfl⟩ he
    have hlen := congrArg List.length he
    simp only [List.length_map, List.length_take] at hlen
    have hdvd : page ∣ min n S.length := by
      rcases Nat.le_total n S.length with hle | hle
      · rwa [Nat.min_eq_left hle]
      · rw [Nat.min_eq_right hle]
        exact h.dvd_spells hs
    rw [List.take_eq_take_min] at he ⊢
    rw [List.take_eq_take_min (i := n'), ← hlen] at he ⊢
    exact h.functional hs hs' hdvd (Nat.min_le_right _ _) (by omega) he

theorem Paged.mem_prefixMap_iff (h : Paged parent label page) :
    L ∈ (h.prefixMap root).entries ↔
      ∃ S j n, Spells parent label root S j ∧ page ∣ n ∧ L = S.take n := Iff.rfl

end Trie

end Forest

end Frink
