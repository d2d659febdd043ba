import Mathlib

/-! # Two tables, each the inverse of the other

A table gives an index at some of its positions. Two tables are paired when
each undoes the other; together they are a partial bijection. An entry is
unlinked in both tables or linked in both, and the pairing survives.
-/

namespace Frink

/-- Optional indices by position. -/
abbrev Table := List (Option ℕ)

namespace Table

variable {t : Table} {i j : ℕ} {v : Option ℕ}

/-- The index at a position; nothing past the end. -/
def look (t : Table) (i : ℕ) : Option ℕ := t[i]?.join

theorem lt_of_look (h : look t i = some j) : i < t.length := by
  by_contra hi
  simp [look, List.getElem?_eq_none (Nat.le_of_not_lt hi)] at h

theorem look_eq (h : t[i]? = some v) : look t i = v := by simp [look, h]

@[simp] theorem look_set_self (h : i < t.length) : look (t.set i v) i = v := by
  simp [look, h]

@[simp] theorem look_set_ne (h : i ≠ j) : look (t.set i v) j = look t j := by
  simp [look, List.getElem?_set_ne h]

@[simp] theorem look_set_none_self : look (t.set i none) i = none := by
  by_cases h : i < t.length
  · exact look_set_self h
  · simp [look, h]

@[simp] theorem look_replicate (n i : ℕ) : look (List.replicate n none) i = none := by
  rw [look, List.getElem?_replicate]
  split <;> rfl

end Table

/-- Each table undoes the other. -/
structure Paired (fwd bwd : Table) : Prop where
  iff : ∀ i j, Table.look fwd i = some j ↔ Table.look bwd j = some i

namespace Paired

open Table (look)

variable {fwd bwd : Table} {i i' j : ℕ}

theorem symm (h : Paired fwd bwd) : Paired bwd fwd := ⟨fun j i => (h.iff i j).symm⟩

theorem injective (h : Paired fwd bwd) (hi : look fwd i = some j) (hi' : look fwd i' = some j) :
    i = i' := Option.some.inj (((h.iff i j).mp hi).symm.trans ((h.iff i' j).mp hi'))

theorem empty (m n : ℕ) : Paired (List.replicate m none) (List.replicate n none) := ⟨by simp⟩

/-- The partial bijection the two tables are. -/
def toPEquiv (h : Paired fwd bwd) : ℕ ≃. ℕ where
  toFun := look fwd
  invFun := look bwd
  inv i j := by simpa [Option.mem_def] using (h.iff i j).symm

/-- An entry cleared in both tables. -/
theorem unlink (h : Paired fwd bwd) (hij : look fwd i = some j) :
    Paired (fwd.set i none) (bwd.set j none) := by
  constructor
  intro a b
  by_cases ha : i = a
  · subst ha
    by_cases hb : j = b
    · subst hb; simp
    · rw [Table.look_set_none_self, Table.look_set_ne hb]
      constructor
      · nofun
      · intro hba
        exact absurd (Option.some.inj (hij.symm.trans ((h.iff i b).mpr hba))) hb
  · rw [Table.look_set_ne ha]
    by_cases hb : j = b
    · subst hb
      rw [Table.look_set_none_self]
      constructor
      · intro haj
        exact absurd (h.injective hij haj) ha
      · nofun
    · rw [Table.look_set_ne hb]
      exact h.iff a b

/-- Two free ends linked to each other. -/
theorem link (h : Paired fwd bwd) (hi : i < fwd.length) (hj : j < bwd.length)
    (hfi : look fwd i = none) (hbj : look bwd j = none) :
    Paired (fwd.set i (some j)) (bwd.set j (some i)) := by
  constructor
  intro a b
  by_cases ha : i = a
  · subst ha
    rw [Table.look_set_self hi]
    by_cases hb : j = b
    · subst hb; simp [Table.look_set_self hj]
    · rw [Table.look_set_ne hb]
      constructor
      · intro hjb
        exact absurd (Option.some.inj hjb) hb
      · intro hba
        exact nomatch hfi.symm.trans ((h.iff i b).mpr hba)
  · rw [Table.look_set_ne ha]
    by_cases hb : j = b
    · subst hb
      rw [Table.look_set_self hj]
      constructor
      · intro haj
        exact nomatch hbj.symm.trans ((h.iff a j).mp haj)
      · intro hia
        exact absurd (Option.some.inj hia) ha
    · rw [Table.look_set_ne hb]
      exact h.iff a b

/-- Clears the entry of a position's owner, if it has one. -/
def evict (fwd bwd : Table) (j : ℕ) : Table :=
  match look bwd j with
  | some old => fwd.set old none
  | none => fwd

@[simp] theorem length_evict : (evict fwd bwd j).length = fwd.length := by
  unfold evict
  split <;> simp

theorem look_evict (h : Paired fwd bwd) (i : ℕ) :
    look (evict fwd bwd j) i = if look fwd i = some j then none else look fwd i := by
  unfold evict
  cases hj : look bwd j with
  | none =>
    rw [if_neg]
    intro hi
    exact nomatch hj.symm.trans ((h.iff i j).mp hi)
  | some old =>
    have hold := (h.iff old j).mpr hj
    by_cases hi : old = i
    · subst hi; simp [hold]
    · rw [Table.look_set_ne hi, if_neg]
      intro hij
      exact hi (h.injective hold hij)

/-- A position handed over: its owner leaves both tables. -/
theorem evicted (h : Paired fwd bwd) : Paired (evict fwd bwd j) (bwd.set j none) := by
  unfold evict
  cases hj : look bwd j with
  | some old => exact h.unlink ((h.iff old j).mpr hj)
  | none =>
    constructor
    intro a b
    by_cases hb : j = b
    · subst hb
      rw [Table.look_set_none_self, h.iff a j, hj]
    · rw [Table.look_set_ne hb]
      exact h.iff a b

/-- A position taken over by an index that had none. -/
theorem displace (h : Paired fwd bwd) (hi : i < fwd.length) (hj : j < bwd.length)
    (hfi : look fwd i = none) :
    Paired ((evict fwd bwd j).set i (some j)) (bwd.set j (some i)) := by
  have hlink := h.evicted (j := j) |>.link (i := i) (j := j) (by simpa using hi) (by simpa using hj)
    (by simp [look_evict h, hfi]) Table.look_set_none_self
  simpa using hlink

theorem look_displace (h : Paired fwd bwd) (hi : i < fwd.length) (a : ℕ) :
    look ((evict fwd bwd j).set i (some j)) a =
      if a = i then some j else if look fwd a = some j then none else look fwd a := by
  by_cases ha : i = a
  · subst ha
    simpa using Table.look_set_self (by simpa using hi)
  · rw [Table.look_set_ne ha, look_evict h, if_neg (Ne.symm ha)]

end Paired

end Frink
