import Mathlib

/-! # Machine arithmetic, and whether it was exact

Sums, products and casts in 64 bits wrap around. A tracked computation has the value the machine
gets, and says whether every operation on the way stayed in range: then the value is the exact one.
-/

namespace Frink.Machine

/-- What the machine gets, and whether nothing wrapped. -/
structure Tracked (α : Type) where

  value : α

  exact : Bool

namespace Tracked

variable {α β : Type}

instance : Monad Tracked where
  pure a := ⟨a, true⟩
  bind x f := ⟨(f x.value).value, x.exact && (f x.value).exact⟩

@[simp] theorem value_pure (a : α) : (pure a : Tracked α).value = a := rfl

@[simp] theorem exact_pure (a : α) : (pure a : Tracked α).exact = true := rfl

@[simp] theorem value_bind (x : Tracked α) (f : α → Tracked β) :
    (x >>= f).value = (f x.value).value := rfl

@[simp] theorem exact_bind (x : Tracked α) (f : α → Tracked β) :
    (x >>= f).exact = (x.exact && (f x.value).exact) := rfl

@[simp] theorem value_map (g : α → β) (x : Tracked α) : (g <$> x).value = g x.value := rfl

/-- All of some computations. -/
def collect (xs : List (Tracked α)) : Tracked (List α) := ⟨xs.map value, xs.all exact⟩

@[simp] theorem value_collect (xs : List (Tracked α)) : (collect xs).value = xs.map value := rfl

@[simp] theorem exact_collect (xs : List (Tracked α)) :
    (collect xs).exact = true ↔ ∀ x ∈ xs, x.exact = true := List.all_eq_true

end Tracked

def addU64 (a b : UInt64) : Tracked UInt64 := ⟨a + b, decide (a.toNat + b.toNat < 2 ^ 64)⟩

def mulU64 (a b : UInt64) : Tracked UInt64 := ⟨a * b, decide (a.toNat * b.toNat < 2 ^ 64)⟩

def subU64 (a b : UInt64) : Tracked UInt64 := ⟨a - b, decide (b.toNat ≤ a.toNat)⟩

/-- The largest machine word, where saturating sums and products stay. -/
def maxWord : ℕ := 2 ^ 64 - 1

/-- The source's `saturating_add` on `u64`. -/
def satAdd (a b : UInt64) : UInt64 := .ofNat (min (a.toNat + b.toNat) maxWord)

/-- The source's `saturating_mul` on `u64`. -/
def satMul (a b : UInt64) : UInt64 := .ofNat (min (a.toNat * b.toNat) maxWord)

/-- The source's `saturating_sub` on `u64`. -/
def satSub (a b : UInt64) : UInt64 := .ofNat (a.toNat - b.toNat)

/-- The source's `div_ceil`. -/
def divCeilU64 (a b : UInt64) : UInt64 := .ofNat ((a.toNat + (b.toNat - 1)) / b.toNat)

/-- The source's `as i64`. -/
def asI64 (a : UInt64) : Tracked Int64 := ⟨a.toInt64, decide (a.toNat < 2 ^ 63)⟩

def subI64 (a b : Int64) : Tracked Int64 :=
  ⟨a - b, decide (-2 ^ 63 ≤ a.toInt - b.toInt ∧ a.toInt - b.toInt < 2 ^ 63)⟩

/-- The source's `saturating_sub`. -/
def saturatingSub (a b : Int64) : Int64 :=
  if a.toInt - b.toInt < -2 ^ 63 then Int64.minValue
  else if 2 ^ 63 ≤ a.toInt - b.toInt then Int64.maxValue
  else a - b

def minU64 (a b : UInt64) : UInt64 := if a.toNat ≤ b.toNat then a else b

def maxU64 (a b : UInt64) : UInt64 := if a.toNat ≤ b.toNat then b else a

section Exact

variable {a b : UInt64} {x y : Int64}

@[simp] theorem exact_addU64 : (addU64 a b).exact = true ↔ a.toNat + b.toNat < 2 ^ 64 :=
  decide_eq_true_iff

@[simp] theorem exact_mulU64 : (mulU64 a b).exact = true ↔ a.toNat * b.toNat < 2 ^ 64 :=
  decide_eq_true_iff

theorem toNat_subU64 (h : b.toNat ≤ a.toNat) : (subU64 a b).value.toNat = a.toNat - b.toNat :=
  UInt64.toNat_sub_of_le a b (UInt64.le_iff_toNat_le.mpr h)

@[simp] theorem exact_asI64 : (asI64 a).exact = true ↔ a.toNat < 2 ^ 63 := decide_eq_true_iff

@[simp] theorem exact_subI64 : (subI64 x y).exact = true ↔
    -2 ^ 63 ≤ x.toInt - y.toInt ∧ x.toInt - y.toInt < 2 ^ 63 := decide_eq_true_iff

theorem toNat_addU64 (h : a.toNat + b.toNat < 2 ^ 64) :
    (addU64 a b).value.toNat = a.toNat + b.toNat := by
  rw [addU64, UInt64.toNat_add, Nat.mod_eq_of_lt h]

theorem toNat_mulU64 (h : a.toNat * b.toNat < 2 ^ 64) :
    (mulU64 a b).value.toNat = a.toNat * b.toNat := by
  rw [mulU64, UInt64.toNat_mul, Nat.mod_eq_of_lt h]

theorem toInt_asI64 (h : a.toNat < 2 ^ 63) : (asI64 a).value.toInt = a.toNat := by
  have hbits : (asI64 a).value.toInt = a.toBitVec.toInt := rfl
  rw [hbits, BitVec.toInt_eq_toNat_of_lt]
  · rfl
  · change 2 * a.toNat < 2 ^ 64
    omega

theorem toInt_subI64 (h : -2 ^ 63 ≤ x.toInt - y.toInt) (h' : x.toInt - y.toInt < 2 ^ 63) :
    (subI64 x y).value.toInt = x.toInt - y.toInt := by
  rw [subI64, Int64.toInt_sub]
  apply Int.bmod_eq_of_le
  · exact h
  · exact h'

theorem toInt_saturatingSub : (saturatingSub x y).toInt =
    max (-2 ^ 63) (min (2 ^ 63 - 1) (x.toInt - y.toInt)) := by
  unfold saturatingSub
  split
  · rw [Int64.toInt_minValue]
    omega
  · split
    · rw [Int64.toInt_maxValue]
      omega
    · have hsub : (x - y).toInt = x.toInt - y.toInt := toInt_subI64 (by omega) (by omega)
      omega

theorem toNat_le_maxWord (a : UInt64) : a.toNat ≤ maxWord := Nat.le_of_lt_succ a.toNat_lt

theorem toNat_satAdd : (satAdd a b).toNat = min (a.toNat + b.toNat) maxWord := by
  apply UInt64.toNat_ofNat_of_lt'
  change _ < 2 ^ 64
  unfold maxWord
  omega

theorem toNat_satMul : (satMul a b).toNat = min (a.toNat * b.toNat) maxWord := by
  apply UInt64.toNat_ofNat_of_lt'
  change _ < 2 ^ 64
  unfold maxWord
  omega

theorem toNat_satSub : (satSub a b).toNat = a.toNat - b.toNat := by
  have hlt := a.toNat_lt
  apply UInt64.toNat_ofNat_of_lt'
  change _ < 2 ^ 64
  omega

theorem toNat_divCeilU64 (hb : 0 < b.toNat) :
    (divCeilU64 a b).toNat = (a.toNat + (b.toNat - 1)) / b.toNat := by
  have hlt := a.toNat_lt
  apply UInt64.toNat_ofNat_of_lt'
  change _ < 2 ^ 64
  have hle : (a.toNat + (b.toNat - 1)) / b.toNat ≤ a.toNat := by
    rw [Nat.div_le_iff_le_mul hb]
    have : a.toNat * 1 ≤ a.toNat * b.toNat := Nat.mul_le_mul_left _ hb
    omega
  omega

/-- Of a number that is not negative. -/
theorem toNat_toUInt64 (h : 0 ≤ x.toInt) : (x.toUInt64.toNat : ℤ) = x.toInt := by
  have hle : 0 ≤ x := Int64.le_iff_toInt_le.mpr h
  rw [Int64.toNat_toUInt64_of_le hle]
  exact Int.toNat_of_nonneg h

theorem toNat_minU64 : (minU64 a b).toNat = min a.toNat b.toNat := by
  unfold minU64
  split <;> omega

theorem toNat_maxU64 : (maxU64 a b).toNat = max a.toNat b.toNat := by
  unfold maxU64
  split <;> omega

end Exact

end Frink.Machine

/-! ## What a run leads to

A run is a sequence of states. `P` leads to `Q` when no state with `P` is the last to hear of it:
`Q` holds there or later. Phases are chained, and a loop is left by a rank that drops.
-/

namespace Frink.Run

variable {σ α : Type} {b : ℕ → σ} {P Q R : σ → Prop}

def LeadsTo (b : ℕ → σ) (P Q : σ → Prop) : Prop := ∀ n, P (b n) → ∃ m, n ≤ m ∧ Q (b m)

namespace LeadsTo

theorem trans (h : LeadsTo b P Q) (h' : LeadsTo b Q R) : LeadsTo b P R := by
  intro n hn
  obtain ⟨m, hm, hq⟩ := h n hn
  obtain ⟨k, hk, hr⟩ := h' m hq
  exact ⟨k, Nat.le_trans hm hk, hr⟩

theorem of_step (h : ∀ n, P (b n) → Q (b (n + 1))) : LeadsTo b P Q :=
  fun n hn => ⟨n + 1, n.le_succ, h n hn⟩

/-- One step, and then on from there. -/
theorem step (h : ∀ n, P (b n) → Q (b (n + 1))) (h' : LeadsTo b Q R) : LeadsTo b P R :=
  (of_step h).trans h'

theorem or (h : LeadsTo b P R) (h' : LeadsTo b Q R) : LeadsTo b (fun s => P s ∨ Q s) R := by
  rintro n (hn | hn)
  · exact h n hn
  · exact h' n hn

/-- A family that leads back to itself only at a smaller rank. -/
theorem of_rank {P : α → σ → Prop} (rank : α → ℕ)
    (h : ∀ a, LeadsTo b (P a) fun s => Q s ∨ ∃ a', rank a' < rank a ∧ P a' s) (a : α) :
    LeadsTo b (P a) Q := by
  induction hk : rank a using Nat.strongRecOn generalizing a with
  | _ k ih =>
    subst hk
    intro n hn
    obtain ⟨m, hm, hq | ⟨a', hlt, ha'⟩⟩ := h a n hn
    · exact ⟨m, hm, hq⟩
    · obtain ⟨k, hk, hq⟩ := ih _ hlt a' rfl m ha'
      exact ⟨k, Nat.le_trans hm hk, hq⟩

end LeadsTo

end Frink.Run
