import Mathlib

/-! # Keyed entries

A map as a list of keys and entries, each key once, and the totals of what the entries are
charged: what erasing, inserting and rewriting one entry does to such a total.
-/

namespace Frink.Keyed

variable {κ ε : Type*} {k : κ} {e : ε} {l : List (κ × ε)}

/-- Each key has one entry. -/
def Functional (l : List (κ × ε)) : Prop := (l.map Prod.fst).Nodup

def total (charge : ε → ℕ) (l : List (κ × ε)) : ℕ := (l.map fun x => charge x.2).sum

theorem mem_keys (he : (k, e) ∈ l) : k ∈ l.map Prod.fst := List.mem_map_of_mem (f := Prod.fst) he

theorem Functional.filter (h : Functional l) (p : κ × ε → Bool) : Functional (l.filter p) :=
  h.sublist (List.filter_sublist.map _)

theorem Functional.nodup (h : Functional l) : l.Nodup := List.Nodup.of_map _ h

section Charge

variable {charge : ε → ℕ}

@[simp] theorem total_nil : total charge ([] : List (κ × ε)) = 0 := rfl

@[simp] theorem total_cons (x : κ × ε) : total charge (x :: l) = charge x.2 + total charge l := by
  simp [total]

theorem charge_le_total (he : (k, e) ∈ l) : charge e ≤ total charge l :=
  List.single_le_sum (fun _ _ => Nat.zero_le _) _
    (List.mem_map_of_mem (f := fun x : κ × ε => charge x.2) he)

end Charge

variable [DecidableEq κ]

def erase (k : κ) (l : List (κ × ε)) : List (κ × ε) := l.filter fun x => x.1 ≠ k

/-- The entry takes the place of one that was there. -/
def insert (k : κ) (e : ε) (l : List (κ × ε)) : List (κ × ε) := (k, e) :: erase k l

def modify (k : κ) (f : ε → ε) (l : List (κ × ε)) : List (κ × ε) :=
  l.map fun x => if x.1 = k then (x.1, f x.2) else x

/-- The entry of a key. -/
def get (l : List (κ × ε)) (k : κ) : Option ε := l.lookup k

theorem mem_of_lookup (h : l.lookup k = some e) : (k, e) ∈ l := by
  induction l with
  | nil => cases h
  | cons x l ih =>
    rw [List.lookup_cons] at h
    split at h
    · rename_i hk
      obtain rfl := Option.some.inj h
      rw [eq_of_beq hk]
      exact List.mem_cons_self
    · exact List.mem_cons_of_mem _ (ih h)

theorem not_mem_of_lookup (h : l.lookup k = none) : k ∉ l.map Prod.fst := by
  induction l with
  | nil => exact List.not_mem_nil
  | cons x l ih =>
    rw [List.lookup_cons] at h
    split at h
    · cases h
    · rename_i hk
      rw [List.map_cons, List.mem_cons, not_or]
      exact ⟨by simpa using hk, ih h⟩

@[simp] theorem mem_erase {x : κ × ε} : x ∈ erase k l ↔ x ∈ l ∧ x.1 ≠ k := by
  simp [erase]

theorem erase_of_not_mem (h : k ∉ l.map Prod.fst) : erase k l = l := by
  apply List.filter_eq_self.mpr
  intro x hx
  rw [decide_eq_true_iff]
  rintro rfl
  exact h (List.mem_map_of_mem hx)

namespace Functional

theorem lookup (h : Functional l) (he : (k, e) ∈ l) : l.lookup k = some e := by
  induction l with
  | nil => cases he
  | cons x l ih =>
    obtain ⟨hx, hl⟩ := List.nodup_cons.mp h
    rw [List.lookup_cons]
    obtain rfl | he := List.mem_cons.mp he
    · simp
    · have hne : ¬ k = x.1 := by
        rintro rfl
        exact hx (mem_keys he)
      rw [beq_false_of_ne hne]
      exact ih hl he

theorem eq_of_mem (h : Functional l) {e' : ε} (he : (k, e) ∈ l) (he' : (k, e') ∈ l) : e = e' :=
  Option.some.inj ((h.lookup he).symm.trans (h.lookup he'))

theorem erase (h : Functional l) (k : κ) : Functional (erase k l) := h.filter _

theorem insert (h : Functional l) (k : κ) (e : ε) : Functional (insert k e l) := by
  apply List.nodup_cons.mpr
  constructor
  · rintro hk
    obtain ⟨x, hx, rfl⟩ := List.mem_map.mp hk
    exact (mem_erase.mp hx).2 rfl
  · exact h.erase k

end Functional

theorem map_fst_modify (k : κ) (f : ε → ε) (l : List (κ × ε)) :
    (modify k f l).map Prod.fst = l.map Prod.fst := by
  rw [modify, List.map_map]
  apply List.map_congr_left
  intro x _
  dsimp only [Function.comp]
  split <;> rfl

theorem Functional.modify (h : Functional l) (k : κ) (f : ε → ε) : Functional (modify k f l) := by
  rwa [Functional, map_fst_modify]

theorem mem_modify {f : ε → ε} {x : κ × ε} :
    x ∈ modify k f l ↔ x ∈ l ∧ x.1 ≠ k ∨ x.1 = k ∧ ∃ e, (k, e) ∈ l ∧ x.2 = f e := by
  rw [modify, List.mem_map]
  constructor
  · rintro ⟨y, hy, rfl⟩
    split
    · rename_i hk
      subst hk
      exact .inr ⟨rfl, y.2, hy, rfl⟩
    · exact .inl ⟨hy, by assumption⟩
  · rintro (⟨hx, hk⟩ | ⟨rfl, e, he, hx⟩)
    · exact ⟨x, hx, if_neg hk⟩
    · exact ⟨(x.1, e), he, by rw [if_pos rfl, ← hx]⟩

theorem modify_of_not_mem (h : k ∉ l.map Prod.fst) (f : ε → ε) : modify k f l = l := by
  rw [modify, ← List.map_id l, List.map_map]
  apply List.map_congr_left
  intro x hx
  apply if_neg
  rintro rfl
  exact h (mem_keys hx)

theorem mem_insert {x : κ × ε} : x ∈ insert k e l ↔ x = (k, e) ∨ x ∈ l ∧ x.1 ≠ k := by
  rw [insert, List.mem_cons, mem_erase]

@[simp] theorem get_nil : get ([] : List (κ × ε)) k = none := rfl

theorem get_erase_of_ne {k' : κ} (h : k' ≠ k) : get (erase k l) k' = get l k' := by
  induction l with
  | nil => rfl
  | cons x l ih =>
    unfold get erase at ih ⊢
    by_cases hx : x.1 = k
    · have hne : (k' == x.1) = false := beq_false_of_ne (hx ▸ h)
      rw [List.filter_cons_of_neg (by simpa using hx), ih, List.lookup_cons, hne]
    · rw [List.filter_cons_of_pos (by simpa using hx), List.lookup_cons, List.lookup_cons, ih]

theorem get_insert (k k' : κ) (e : ε) (l : List (κ × ε)) :
    get (insert k e l) k' = if k' = k then some e else get l k' := by
  by_cases h : k' = k
  · subst h
    simp [get, insert]
  · have hne : (k' == k) = false := beq_false_of_ne h
    have herase : get (erase k l) k' = get l k' := get_erase_of_ne h
    rw [if_neg h, ← herase]
    simp only [get, insert, List.lookup_cons, hne]

theorem get_isSome_iff : (get l k).isSome ↔ k ∈ l.map Prod.fst := by
  constructor
  · intro h
    obtain ⟨e, he⟩ := Option.isSome_iff_exists.mp h
    exact mem_keys (mem_of_lookup he)
  · intro h
    by_contra hnone
    exact not_mem_of_lookup (Option.not_isSome_iff_eq_none.mp hnone) h

section Total

variable {charge : ε → ℕ}

theorem get_erase_self (k : κ) (l : List (κ × ε)) : get (erase k l) k = none := by
  rw [← Option.not_isSome_iff_eq_none, get_isSome_iff, List.mem_map]
  rintro ⟨x, hx, rfl⟩
  exact (mem_erase.mp hx).2 rfl

@[simp] theorem total_insert (charge : ε → ℕ) (k : κ) (e : ε) (l : List (κ × ε)) :
    total charge (insert k e l) = charge e + total charge (erase k l) := total_cons _

theorem total_modify_same {f : ε → ε} (hf : ∀ e, charge (f e) = charge e) (k : κ)
    (l : List (κ × ε)) : total charge (modify k f l) = total charge l := by
  rw [total, total, modify, List.map_map]
  congr 1
  apply List.map_congr_left
  intro x _
  dsimp only [Function.comp]
  split
  · exact hf x.2
  · rfl

/-- An entry that goes takes its charge along. -/
theorem total_erase (charge : ε → ℕ) (h : Functional l) (he : (k, e) ∈ l) :
    charge e + total charge (erase k l) = total charge l := by
  induction l with
  | nil => cases he
  | cons x l ih =>
    obtain ⟨hx, hl⟩ := List.nodup_cons.mp h
    obtain rfl | he := List.mem_cons.mp he
    · rw [erase, List.filter_cons_of_neg (by simp), ← erase, erase_of_not_mem hx, total_cons]
    · have hne : x.1 ≠ k := by
        rintro rfl
        exact hx (mem_keys he)
      rw [erase, List.filter_cons_of_pos (by simpa using hne), ← erase, total_cons, total_cons,
        ← ih hl he]
      omega

theorem length_erase (h : Functional l) (he : (k, e) ∈ l) : (erase k l).length + 1 = l.length := by
  have hone : ∀ l : List (κ × ε), total (fun _ => 1) l = l.length := by
    intro l
    simp [total]
  have := total_erase (fun _ => 1) h he
  rw [hone, hone] at this
  omega

/-- Rewriting an entry exchanges its charge. -/
theorem total_modify (charge : ε → ℕ) (h : Functional l) (he : (k, e) ∈ l) (f : ε → ε) :
    total charge (modify k f l) + charge e = total charge l + charge (f e) := by
  induction l with
  | nil => cases he
  | cons x l ih =>
    obtain ⟨hx, hl⟩ := List.nodup_cons.mp h
    rw [modify, List.map_cons, ← modify, total_cons, total_cons]
    obtain rfl | he := List.mem_cons.mp he
    · have hsame : modify k f l = l := modify_of_not_mem hx f
      rw [if_pos rfl, hsame]
      dsimp only
      omega
    · have hne : x.1 ≠ k := by
        rintro rfl
        exact hx (mem_keys he)
      have := ih hl he
      rw [if_neg hne]
      omega

end Total

end Frink.Keyed

/-! ## Counting holders

Several parties hold items, an item as often as it stands in a party's list. The number of
holds of an item moves with the one party that changes its list, and two different places
where it stands are two holds.
-/

namespace Frink.Holders

variable {α : Type*} [DecidableEq α]

/-- How often an item is held by all parties together. -/
def total (held : List (List α)) (a : α) : ℕ := (held.map (List.count a)).sum

variable {held : List (List α)} {xs ys : List α} {a : α} {i j p q : ℕ}

@[simp]
theorem total_nil (a : α) : total [] a = 0 := rfl

@[simp]
theorem total_cons (xs : List α) (held : List (List α)) (a : α) :
    total (xs :: held) a = xs.count a + total held a := rfl

theorem total_concat (held : List (List α)) (xs : List α) (a : α) :
    total (held ++ [xs]) a = total held a + xs.count a := by
  simp [total]

/-- What one party changes is what changes. -/
theorem total_set (h : held[i]? = some xs) (ys : List α) (a : α) :
    total (held.set i ys) a + xs.count a = total held a + ys.count a := by
  induction held generalizing i with
  | nil => cases h
  | cons zs held ih =>
    cases i with
    | zero =>
      obtain rfl := Option.some.inj h
      simp only [List.set_cons_zero, total_cons]
      omega
    | succ i =>
      have := ih h
      simp only [List.set_cons_succ, total_cons]
      omega

theorem count_le_total (h : held[i]? = some xs) : xs.count a ≤ total held a := by
  have := total_set h [] a
  rw [List.count_nil] at this
  omega

theorem count_add_count_le_total (hi : held[i]? = some xs) (hj : held[j]? = some ys)
    (hne : i ≠ j) : xs.count a + ys.count a ≤ total held a := by
  have hset := total_set hi [] a
  have hj' : (held.set i [])[j]? = some ys := by rwa [List.getElem?_set_ne hne]
  have hle := count_le_total (a := a) hj'
  rw [List.count_nil] at hset
  omega

/-- An item in two places has two holds. -/
theorem two_le_total (hi : held[i]? = some xs) (hj : held[j]? = some ys) (hp : xs[p]? = some a)
    (hq : ys[q]? = some a) (hne : i = j → p ≠ q) : 2 ≤ total held a := by
  have hx : 1 ≤ xs.count a := List.count_pos_iff.mpr (List.mem_of_getElem? hp)
  have hy : 1 ≤ ys.count a := List.count_pos_iff.mpr (List.mem_of_getElem? hq)
  by_cases hij : i = j
  · subst hij
    obtain rfl : xs = ys := Option.some.inj (hi.symm.trans hj)
    have hpq := hne rfl
    have htwo : 2 ≤ xs.count a := by
      obtain ⟨hp', hpa⟩ := List.getElem?_eq_some_iff.mp hp
      obtain ⟨hq', hqa⟩ := List.getElem?_eq_some_iff.mp hq
      rw [← List.duplicate_iff_two_le_count, List.duplicate_iff_exists_distinct_get]
      rcases Nat.lt_or_gt_of_ne hpq with hlt | hgt
      · exact ⟨⟨p, hp'⟩, ⟨q, hq'⟩, hlt, hpa.symm, hqa.symm⟩
      · exact ⟨⟨q, hq'⟩, ⟨p, hp'⟩, hgt, hqa.symm, hpa.symm⟩
    exact htwo.trans (count_le_total hi)
  · have := count_add_count_le_total (a := a) hi hj hij
    omega

end Frink.Holders
