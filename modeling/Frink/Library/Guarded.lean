import Mathlib
import Frink.Library.Codec

/-! # Arithmetic and slices that may not be taken for granted

A function over untrusted lengths ends in a value, in an error it reports, or at
the first operation its operands do not allow: a sum or product past 64 bits, a
slice past the end, a division by zero, room for more than a bound, an assertion.
-/

namespace Frink.Guarded

open Codec

/-- An operation outside what its operands allow. -/
inductive Hazard | overflow | slice | division | reserve | assertion
  deriving DecidableEq

/-- How a guarded function can end without a value. -/
inductive Fault (ε : Type) where
  | hazard (h : Hazard)
  | refused (e : ε)
  deriving DecidableEq

variable {ε α β : Type}

abbrev Result (ε α : Type) := Except (Fault ε) α

def U64_LIMIT : ℕ := 2 ^ 64

/-- A computed number that has to fit. -/
def fitU64 (n : ℕ) : Result ε ℕ := if n < U64_LIMIT then .ok n else .error (.hazard .overflow)

def addU64 (a b : ℕ) : Result ε ℕ :=
  if a + b < U64_LIMIT then .ok (a + b) else .error (.hazard .overflow)

def mulU64 (a b : ℕ) : Result ε ℕ :=
  if a * b < U64_LIMIT then .ok (a * b) else .error (.hazard .overflow)

def subU64 (a b : ℕ) : Result ε ℕ := if b ≤ a then .ok (a - b) else .error (.hazard .overflow)

def divide (a b : ℕ) : Result ε ℕ :=
  if b = 0 then .error (.hazard .division) else .ok (a / b)

/-- The source's `div_ceil`. -/
def divCeil (a b : ℕ) : Result ε ℕ := do
  let d ← divide a b
  if a % b = 0 then .ok d else addU64 d 1

/-- The source's `checked_add`. -/
def checkedAdd (a b : ℕ) : Option ℕ := if a + b < U64_LIMIT then some (a + b) else none

/-- The source's `checked_mul`. -/
def checkedMul (a b : ℕ) : Option ℕ := if a * b < U64_LIMIT then some (a * b) else none

/-- `bytes[start..stop]`. -/
def slice (bytes : List UInt8) (start stop : ℕ) : Result ε (List UInt8) :=
  if start ≤ stop ∧ stop ≤ bytes.length then .ok ((bytes.drop start).take (stop - start))
  else .error (.hazard .slice)

/-- Room for `n` things where at most `limit` are accounted for. -/
def reserve (limit n : ℕ) : Result ε Unit :=
  if n ≤ limit then .ok () else .error (.hazard .reserve)

def asserting (c : Prop) [Decidable c] : Result ε Unit :=
  if c then .ok () else .error (.hazard .assertion)

/-- Refuses with `e` unless the condition holds. -/
def ensure (c : Prop) [Decidable c] (e : ε) : Result ε Unit :=
  if c then .ok () else .error (.refused e)

def orRefuse (x : Option α) (e : ε) : Result ε α :=
  match x with
  | some a => .ok a
  | none => .error (.refused e)

/-- The function ends in a value or in an error it reports. -/
def Safe (x : Result ε α) : Prop := ∀ h, x ≠ .error (.hazard h)

variable {x : Result ε α} {f : α → Result ε β} {a b n limit start stop : ℕ} {e : ε}
  {bytes out : List UInt8} {c : Prop} [Decidable c]

theorem safe_ok (a : α) : Safe (.ok a : Result ε α) := nofun

theorem safe_refused (e : ε) : Safe (.error (.refused e) : Result ε α) := by
  rintro h ⟨⟩

theorem safe_bind : Safe (x >>= f) ↔ Safe x ∧ ∀ a, x = .ok a → Safe (f a) := by
  cases x with
  | ok a =>
    constructor
    · intro h
      refine ⟨safe_ok a, ?_⟩
      rintro _ ⟨⟩
      exact h
    · exact fun h => h.2 a rfl
  | error fault =>
    constructor
    · intro h
      exact ⟨fun hz he => h hz (by cases he; rfl), nofun⟩
    · rintro ⟨h, -⟩ hz he
      exact h hz (by cases he; rfl)

theorem Safe.bind (hx : Safe x) (hf : ∀ a, x = .ok a → Safe (f a)) : Safe (x >>= f) :=
  safe_bind.mpr ⟨hx, hf⟩

theorem safe_ensure (e : ε) : Safe (ensure c e) := by
  unfold ensure
  split
  · exact safe_ok ()
  · exact safe_refused e

theorem safe_orRefuse (x : Option α) (e : ε) : Safe (orRefuse x e) := by
  cases x with
  | some a => exact safe_ok a
  | none => exact safe_refused e

theorem safe_addU64 : Safe (addU64 a b : Result ε ℕ) ↔ a + b < U64_LIMIT := by
  unfold addU64
  split
  · simp [safe_ok, *]
  · simp [Safe, *]

theorem safe_slice : Safe (slice bytes start stop : Result ε _) ↔
    start ≤ stop ∧ stop ≤ bytes.length := by
  unfold slice
  split
  · simp [safe_ok, *]
  · simp only [Safe, *, iff_false, not_forall, not_not]
    exact ⟨.slice, rfl⟩

theorem safe_reserve : Safe (reserve limit n : Result ε Unit) ↔ n ≤ limit := by
  unfold reserve
  split
  · simp [safe_ok, *]
  · simp only [Safe, *, iff_false, not_forall, not_not]
    exact ⟨.reserve, rfl⟩

theorem ensure_eq_ok {u : Unit} : ensure c e = .ok u ↔ c := by
  unfold ensure
  split <;> simp [*]

theorem asserting_eq_ok {u : Unit} : (asserting c : Result ε Unit) = .ok u ↔ c := by
  unfold asserting
  split <;> simp [*]

@[simp] theorem ensure_true (h : c) : (ensure c e : Result ε Unit) = .ok () := if_pos h

theorem addU64_eq_ok : (addU64 a b : Result ε ℕ) = .ok n ↔ a + b < U64_LIMIT ∧ a + b = n := by
  unfold addU64
  split <;> simp [*]

theorem fitU64_eq_ok {m : ℕ} : (fitU64 m : Result ε ℕ) = .ok n ↔ m < U64_LIMIT ∧ m = n := by
  unfold fitU64
  split <;> simp [*]

theorem mulU64_eq_ok : (mulU64 a b : Result ε ℕ) = .ok n ↔ a * b < U64_LIMIT ∧ a * b = n := by
  unfold mulU64
  split <;> simp [*]

theorem subU64_eq_ok : (subU64 a b : Result ε ℕ) = .ok n ↔ b ≤ a ∧ a - b = n := by
  unfold subU64
  split <;> simp [*]

theorem slice_eq_ok : (slice bytes start stop : Result ε _) = .ok out ↔
    (start ≤ stop ∧ stop ≤ bytes.length) ∧ (bytes.drop start).take (stop - start) = out := by
  unfold slice
  split <;> simp [*]

theorem reserve_eq_ok {u : Unit} : (reserve limit n : Result ε Unit) = .ok u ↔ n ≤ limit := by
  unfold reserve
  split <;> simp [*]

theorem checkedMul_eq_some : checkedMul a b = some n ↔ a * b < U64_LIMIT ∧ a * b = n := by
  simp [checkedMul]

theorem checkedAdd_of_lt (h : a + b < U64_LIMIT) : checkedAdd a b = some (a + b) := if_pos h

theorem checkedAdd_of_le (h : U64_LIMIT ≤ a + b) : checkedAdd a b = none := if_neg (by omega)

theorem divide_of_pos (h : 0 < b) : (divide a b : Result ε ℕ) = .ok (a / b) := if_neg (by omega)

theorem div_add_one_of_mod (hb : 0 < b) (h : a % b ≠ 0) : a / b + 1 = (a + b - 1) / b := by
  obtain ⟨c, rfl⟩ := Nat.exists_eq_add_of_lt hb
  have hsplit : a + (0 + c + 1) - 1 = (0 + c + 1) * (a / (0 + c + 1) + 1) +
      (a % (0 + c + 1) - 1) := by
    have := Nat.div_add_mod a (0 + c + 1)
    rw [Nat.mul_add]
    omega
  have hlt : a % (0 + c + 1) - 1 < 0 + c + 1 := by
    have := Nat.mod_lt a hb
    omega
  rw [hsplit, Nat.mul_add_div hb, Nat.div_eq_of_lt hlt, Nat.add_zero]

/-- Rounding a quotient up never leaves 64 bits. -/
theorem divCeil_of_pos (hb : 0 < b) (ha : a < U64_LIMIT) :
    (divCeil a b : Result ε ℕ) = .ok ((a + b - 1) / b) := by
  have hd : (divCeil a b : Result ε ℕ) = if a % b = 0 then .ok (a / b) else addU64 (a / b) 1 := by
    rw [divCeil, divide_of_pos hb]
    rfl
  rw [hd]
  split
  · rename_i hmod
    have hsplit : a + b - 1 = b * (a / b) + (b - 1) := by
      have := Nat.div_add_mod a b
      omega
    have hzero : (b - 1) / b = 0 := Nat.div_eq_of_lt (by omega)
    rw [hsplit, Nat.mul_add_div hb, hzero, Nat.add_zero]
  · rename_i hmod
    have hle : a / b + 1 ≤ a := by
      have hlt : a / b < a := by
        apply Nat.div_lt_self
        · exact Nat.pos_of_ne_zero fun h => hmod (by rw [h, Nat.zero_mod])
        · by_contra h
          obtain rfl : b = 1 := by omega
          exact hmod (Nat.mod_one a)
      omega
    rw [addU64, if_pos (by omega), div_add_one_of_mod hb hmod]

theorem mul_lt_limit (ha : a < 2 ^ 32) (hb : b < 2 ^ 32) : a * b < U64_LIMIT := by
  have h : a * b < 2 ^ 32 * 2 ^ 32 := Nat.mul_lt_mul'' ha hb
  simpa [U64_LIMIT] using h

theorem mapError_eq_ok {ε ε' α : Type} {x : Except ε α} {f : ε → ε'} {a : α} :
    x.mapError f = .ok a ↔ x = .ok a := by
  cases x <;> simp [Except.mapError]

theorem mapM_eq_ok {ε α β : Type} {f : α → Except ε β} {xs : List α} {ys : List β}
    (h : xs.mapM f = .ok ys) : List.Forall₂ (fun x y => f x = .ok y) xs ys := by
  induction xs generalizing ys with
  | nil =>
    rw [List.mapM_nil] at h
    cases h
    exact .nil
  | cons x xs ih =>
    rw [List.mapM_cons] at h
    obtain ⟨y, hy, h⟩ := bind_eq_ok.mp h
    obtain ⟨zs, hzs, h⟩ := bind_eq_ok.mp h
    cases h
    exact .cons hy (ih hzs)

theorem mapM_of_forall₂ {ε α β : Type} {f : α → Except ε β} {xs : List α} {ys : List β}
    (h : List.Forall₂ (fun x y => f x = .ok y) xs ys) : xs.mapM f = .ok ys := by
  induction h with
  | nil => rfl
  | cons hx _ ih =>
    rw [List.mapM_cons, hx, ih]
    rfl

theorem mapM_of_forall {ε α β : Type} {f : α → Except ε β} {g : α → β} {xs : List α}
    (h : ∀ x ∈ xs, f x = .ok (g x)) : xs.mapM f = .ok (xs.map g) := by
  induction xs with
  | nil => rfl
  | cons x xs ih =>
    obtain ⟨hx, hxs⟩ := List.forall_mem_cons.mp h
    rw [List.mapM_cons, hx, ih hxs]
    rfl

theorem exists_list_of_forall {α : Type} {P : ℕ → α → Prop} {n : ℕ}
    (h : ∀ k < n, ∃ y, P k y) : ∃ ys : List α, ys.length = n ∧ ∀ k y, ys[k]? = some y → P k y := by
  induction n with
  | zero => exact ⟨[], rfl, by simp⟩
  | succ n ih =>
    obtain ⟨ys, hlen, hys⟩ := ih fun k hk => h k (by omega)
    obtain ⟨y, hy⟩ := h n (by omega)
    refine ⟨ys ++ [y], by simp [hlen], ?_⟩
    intro k z hk
    rcases Nat.lt_trichotomy k n with hlt | rfl | hgt
    · rw [List.getElem?_append_left (by omega)] at hk
      exact hys k z hk
    · rw [List.getElem?_append_right (by omega), hlen, Nat.sub_self] at hk
      cases hk
      exact hy
    · rw [List.getElem?_eq_none (by simp; omega)] at hk
      cases hk

/-- A step that answers for every number of a range answers for the range. -/
theorem mapM_range'_eq_ok {ε α : Type} {f : ℕ → Except ε α} {ys : List α} {start : ℕ}
    (h : ∀ k y, ys[k]? = some y → f (start + k) = .ok y) :
    (List.range' start ys.length).mapM f = .ok ys := by
  induction ys generalizing start with
  | nil => rfl
  | cons y ys ih =>
    have hrest : (List.range' (start + 1) ys.length).mapM f = .ok ys := by
      apply ih
      intro k z hz
      rw [Nat.succ_add_eq_add_succ]
      exact h (k + 1) z hz
    have hfirst : f start = .ok y := h 0 y rfl
    rw [List.length_cons, List.range'_succ, List.mapM_cons, hfirst, hrest]
    rfl

theorem exists_of_forall₂_left {α β : Type} {R : α → β → Prop} {xs : List α} {ys : List β}
    (h : List.Forall₂ R xs ys) {x : α} (hx : x ∈ xs) : ∃ y ∈ ys, R x y := by
  induction h with
  | nil => cases hx
  | @cons a b xs ys hab _ ih =>
    rcases List.mem_cons.mp hx with rfl | hx
    · exact ⟨b, List.mem_cons_self, hab⟩
    · obtain ⟨y, hy, hr⟩ := ih hx
      exact ⟨y, List.mem_cons_of_mem _ hy, hr⟩

theorem exists_of_forall₂_right {α β : Type} {R : α → β → Prop} {xs : List α} {ys : List β}
    (h : List.Forall₂ R xs ys) {y : β} (hy : y ∈ ys) : ∃ x ∈ xs, R x y :=
  exists_of_forall₂_left h.flip hy

theorem orRefuse_eq_ok {x : Option α} {a : α} : orRefuse x e = .ok a ↔ x = some a := by
  cases x <;> simp [orRefuse]

/-- A slice that starts where a part begins and is as long as the part. -/
theorem slice_append {before part after : List UInt8} (hstart : start = before.length)
    (hstop : stop = start + part.length) :
    (slice (before ++ (part ++ after)) start stop : Result ε _) = .ok part := by
  subst hstart hstop
  rw [slice, if_pos (by simp), List.drop_left, Nat.add_sub_cancel_left, List.take_left]

theorem slice_left {part after : List UInt8} (h : stop = part.length) :
    (slice (part ++ after) 0 stop : Result ε _) = .ok part := by
  subst h
  rw [slice, if_pos (by simp), List.drop_zero, Nat.sub_zero, List.take_left]

theorem slice_right {before part : List UInt8} (hstart : start = before.length)
    (hstop : stop = start + part.length) :
    (slice (before ++ part) start stop : Result ε _) = .ok part := by
  have h : (slice (before ++ (part ++ [])) start stop : Result ε _) = .ok part :=
    slice_append hstart hstop
  rwa [List.append_nil] at h

end Frink.Guarded

/-! ## Readers whose room is metered

A reader that asks for room before it holds anything, next to the same reader
without the asking. Where the room suffices the two end alike, and as every item
of a collection takes bytes, a collection never outgrows the input.
-/

namespace Frink.Guarded

open Codec

variable {ε α β : Type} {n k k' limit : ℕ} {x : Except ε α}

/-- A step that reads nothing. -/
def lift (x : Except ε α) : Reader ε α := fun s => x.map (·, s)

/-- Reads `m` items after the `held` there are, with room for each before it is kept. -/
def collect (limit : ℕ) (g : Reader (Fault ε) α) : ℕ → ℕ → Reader (Fault ε) (List α)
  | _, 0 => Reader.pure []
  | held, m + 1 =>
      Reader.bind g fun a =>
        Reader.bind (lift (reserve limit (held + 1))) fun _ =>
          Reader.bind (collect limit g (held + 1) m) fun as => Reader.pure (a :: as)

/-- On `n` bytes at most the guarded reader ends as the plain one does, and what is read takes
`k` bytes at least. -/
structure Meters (n k : ℕ) (g : Reader (Fault ε) α) (r : Reader ε α) : Prop where

  same : ∀ s, s.length ≤ n → g s = (r s).mapError .refused
  takes : ∀ s, s.length ≤ n → ∀ a t, r s = .ok (a, t) → t.length + k ≤ s.length

namespace Meters

variable {g : Reader (Fault ε) α} {r : Reader ε α}

theorem mono (h : Meters n k g r) (hk : k' ≤ k) : Meters n k' g r := by
  refine ⟨h.same, ?_⟩
  intro s hs a t hr
  have := h.takes s hs a t hr
  omega

theorem pure (a : α) : Meters n 0 (Reader.pure a : Reader (Fault ε) α) (Reader.pure a) := by
  constructor
  · intro s hs
    rfl
  · rintro s hs a t ⟨⟩
    exact Nat.le_refl _

theorem fail (e : ε) : Meters n k (Reader.fail (.refused e)) (Reader.fail e : Reader ε α) := by
  constructor
  · intro s hs
    rfl
  · rintro s hs a t ⟨⟩

theorem ensure (c : Prop) [Decidable c] (e : ε) :
    Meters n 0 (Reader.ensure c (.refused e)) (Reader.ensure c e) := by
  unfold Reader.ensure
  split
  · exact pure ()
  · exact fail e

/-- The steps after a read need not take any bytes, and may count on what the read gives. -/
theorem andThen_of {P : α → Prop} {f : α → Reader (Fault ε) β} {f' : α → Reader ε β}
    (h : Meters n k g r) (hP : ∀ s a t, r s = .ok (a, t) → P a)
    (hf : ∀ a, P a → Meters n 0 (f a) (f' a)) :
    Meters n k (Reader.bind g f) (Reader.bind r f') := by
  constructor
  · intro s hs
    rw [Reader.bind, Reader.bind, h.same s hs]
    cases hr : r s with
    | error e => rfl
    | ok p =>
      obtain ⟨a, t⟩ := p
      have := h.takes s hs a t hr
      exact (hf a (hP s a t hr)).same t (by omega)
  · intro s hs b u hb
    obtain ⟨a, t, hr, hb⟩ := Reader.bind_eq_ok hb
    have h₁ := h.takes s hs a t hr
    have h₂ := (hf a (hP s a t hr)).takes t (by omega) b u hb
    omega

theorem andThen {f : α → Reader (Fault ε) β} {f' : α → Reader ε β} (h : Meters n k g r)
    (hf : ∀ a, Meters n 0 (f a) (f' a)) : Meters n k (Reader.bind g f) (Reader.bind r f') :=
  h.andThen_of (fun _ _ _ _ => trivial) fun a _ => hf a

theorem map {f : α → β} (h : Meters n k g r) :
    Meters n k (Reader.bind g fun a => Reader.pure (f a))
      (Reader.bind r fun a => Reader.pure (f a)) := h.andThen fun a => pure (f a)

theorem take (e : ε) (m : ℕ) : Meters n m (Reader.take (.refused e) m) (Reader.take e m) := by
  constructor
  · intro s hs
    unfold Reader.take
    split <;> rfl
  · intro s hs a t hr
    unfold Reader.take at hr
    split at hr
    · cases hr
      rw [List.length_drop]
      omega
    · cases hr

theorem le (e : ε) (m : ℕ) : Meters n m (Reader.le (.refused e) m) (Reader.le e m) :=
  (take e m).map

/-- A step that comes out well and reads nothing may stand in the guarded reader alone. -/
theorem after {f : α → Reader (Fault ε) β} {r : Reader ε β} {x : Result ε α} {a : α}
    (hx : x = .ok a) (h : Meters n k (f a) r) : Meters n k (Reader.bind (lift x) f) r := by
  subst hx
  exact ⟨h.same, h.takes⟩

theorem after_reserve {f : Unit → Reader (Fault ε) β} {r : Reader ε β} {m : ℕ} (hm : m ≤ limit)
    (h : Meters n k (f ()) r) : Meters n k (Reader.bind (lift (reserve limit m)) f) r :=
  after (reserve_eq_ok.mpr hm) h

theorem collect_same (h : Meters n 1 g r) {held m : ℕ} {s : List UInt8} (hs : s.length ≤ n)
    (hroom : held + s.length ≤ limit) :
    collect limit g held m s = (Reader.many r m s).mapError .refused := by
  induction m generalizing held s with
  | zero => rfl
  | succ m ih =>
    rw [collect, Reader.many, Reader.bind, Reader.bind, h.same s hs]
    cases hr : r s with
    | error e => rfl
    | ok p =>
      obtain ⟨a, t⟩ := p
      have htakes := h.takes s hs a t hr
      have hres : (reserve limit (held + 1) : Result ε Unit) = .ok () :=
        reserve_eq_ok.mpr (by omega)
      simp only [Except.mapError, Reader.bind, lift, hres, Except.map]
      rw [ih (by omega) (by omega)]
      cases Reader.many r m t <;> rfl

/-- Items that take a byte each never outnumber the bytes. -/
theorem collect (h : Meters n 1 g r) (hn : n ≤ limit) (m : ℕ) :
    Meters n 0 (collect limit g 0 m) (Reader.many r m) := by
  constructor
  · intro s hs
    exact h.collect_same hs (by omega)
  · intro s hs as t hr
    induction m generalizing s as t with
    | zero =>
      cases hr
      exact Nat.le_refl _
    | succ m ih =>
      obtain ⟨a, u, hu, hr⟩ := Reader.bind_eq_ok hr
      obtain ⟨bs, v, hv, hr⟩ := Reader.bind_eq_ok hr
      cases hr
      have h₁ := h.takes s hs a u hu
      have h₂ := ih u (by omega) bs t hv
      omega

end Meters

end Frink.Guarded
