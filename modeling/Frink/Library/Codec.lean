import Mathlib

/-! # Readers that take back what was written

A reader consumes the front of a byte string. `Reads` says that it takes exactly the given
bytes and returns the given value whatever follows, and composes along a reader's binds.
-/

namespace Frink.Codec

theorem bind_eq_ok {ε : Type*} {α β : Type} {x : Except ε α} {f : α → Except ε β} {b : β} :
    (x >>= f) = .ok b ↔ ∃ a, x = .ok a ∧ f a = .ok b := by
  cases x with
  | error e => exact ⟨(nomatch ·), fun ⟨_, h, _⟩ => nomatch h⟩
  | ok a => exact ⟨fun h => ⟨a, rfl, h⟩, fun ⟨_, h, hf⟩ => by cases h; exact hf⟩

theorem bind_eq_error {ε : Type*} {α β : Type} {x : Except ε α} {f : α → Except ε β} {e : ε} :
    (x >>= f) = .error e ↔ x = .error e ∨ ∃ a, x = .ok a ∧ f a = .error e := by
  cases x with
  | error e' =>
    constructor
    · intro h
      cases h
      exact Or.inl rfl
    · rintro (h | ⟨_, h, _⟩)
      · cases h
        rfl
      · cases h
  | ok a => exact ⟨fun h => Or.inr ⟨a, rfl, h⟩, fun h => by
      rcases h with h | ⟨_, h, hf⟩
      · cases h
      · cases h
        exact hf⟩

/-- A reader over the bytes that are left. -/
abbrev Reader (ε α : Type*) := List UInt8 → Except ε (α × List UInt8)

namespace Reader

variable {ε α β : Type*}

def pure (a : α) : Reader ε α := fun s => .ok (a, s)

def fail (e : ε) : Reader ε α := fun _ => .error e

/-- Reads nothing; fails when the condition does. -/
def ensure (c : Prop) [Decidable c] (e : ε) : Reader ε Unit := if c then pure () else fail e

def bind (r : Reader ε α) (f : α → Reader ε β) : Reader ε β := fun s =>
  match r s with
  | .ok (a, s) => f a s
  | .error e => .error e

instance : Monad (Reader ε) where
  pure := Reader.pure
  bind := Reader.bind

/-- How many bytes are left. -/
def remaining : Reader ε ℕ := fun s => .ok (s.length, s)

/-- The next `n` bytes. -/
def take (eof : ε) (n : ℕ) : Reader ε (List UInt8) := fun s =>
  if n ≤ s.length then .ok (s.take n, s.drop n) else .error eof

/-- The same reader `n` times. -/
def many (r : Reader ε α) : ℕ → Reader ε (List α)
  | 0 => pure []
  | n + 1 => bind r fun a => bind (many r n) fun as => pure (a :: as)

end Reader

namespace Reader

variable {ε α β : Type*}

theorem ensure_of {c : Prop} [Decidable c] (h : c) (e : ε) (s : List UInt8) :
    ensure c e s = .ok ((), s) := by
  rw [ensure, if_pos h]
  rfl

theorem bind_eq_ok {r : Reader ε α} {f : α → Reader ε β} {s u : List UInt8} {b : β}
    (h : bind r f s = .ok (b, u)) : ∃ a t, r s = .ok (a, t) ∧ f a t = .ok (b, u) := by
  rw [bind] at h
  cases hr : r s with
  | error e => rw [hr] at h; cases h
  | ok p =>
    rw [hr] at h
    exact ⟨p.1, p.2, rfl, h⟩

/-- What every read returns, all of them return, and there are as many as asked for. -/
theorem many_eq_ok {r : Reader ε α} {P : α → Prop} (hr : ∀ s a t, r s = .ok (a, t) → P a)
    {n : ℕ} {s t : List UInt8} {as : List α} (h : many r n s = .ok (as, t)) :
    as.length = n ∧ ∀ a ∈ as, P a := by
  induction n generalizing s t as with
  | zero =>
    cases h
    exact ⟨rfl, fun _ ha => nomatch ha⟩
  | succ n ih =>
    obtain ⟨a, u, ha, h⟩ := bind_eq_ok h
    obtain ⟨bs, v, hbs, h⟩ := bind_eq_ok h
    cases h
    obtain ⟨hn, hall⟩ := ih hbs
    exact ⟨congrArg (· + 1) hn, List.forall_mem_cons.mpr ⟨hr _ _ _ ha, hall⟩⟩

end Reader

/-- The little-endian bytes of a number, `n` of them. -/
def leBytes : ℕ → ℕ → List UInt8
  | 0, _ => []
  | n + 1, x => UInt8.ofNat x :: leBytes n (x / 256)

def fromLe : List UInt8 → ℕ
  | [] => 0
  | b :: bs => b.toNat + 256 * fromLe bs

@[simp] theorem length_leBytes (n x : ℕ) : (leBytes n x).length = n := by
  induction n generalizing x with
  | zero => rfl
  | succ n ih => exact congrArg (· + 1) (ih (x / 256))

theorem fromLe_leBytes (n x : ℕ) : fromLe (leBytes n x) = x % 256 ^ n := by
  induction n generalizing x with
  | zero => rw [Nat.pow_zero, Nat.mod_one]; rfl
  | succ n ih =>
    rw [leBytes, fromLe, ih, Nat.pow_succ', Nat.mod_mul, UInt8.toNat_ofNat']

theorem fromLe_lt (bs : List UInt8) : fromLe bs < 256 ^ bs.length := by
  induction bs with
  | nil => exact Nat.one_pos
  | cons b bs ih =>
    have hb : b.toNat < 256 := UInt8.toNat_lt b
    rw [fromLe, List.length_cons, Nat.pow_succ']
    omega

/-- A little-endian number of `n` bytes. -/
def Reader.le {ε : Type*} (eof : ε) (n : ℕ) : Reader ε ℕ :=
  Reader.bind (Reader.take eof n) fun bs => Reader.pure (fromLe bs)

theorem Reader.le_lt {ε : Type*} {eof : ε} {n x : ℕ} {s t : List UInt8}
    (h : Reader.le eof n s = .ok (x, t)) : x < 256 ^ n := by
  obtain ⟨bs, u, hbs, h⟩ := Reader.bind_eq_ok h
  cases h
  rw [Reader.take] at hbs
  split at hbs
  · rename_i hn
    cases hbs
    have hlt := fromLe_lt (s.take n)
    rwa [List.length_take, Nat.min_eq_left hn] at hlt
  · cases hbs

section Reads

variable {ε α β : Type*}

/-- The reader takes `bytes` off the front and returns `a`. -/
def Reads (r : Reader ε α) (bytes : List UInt8) (a : α) : Prop :=
  ∀ rest, r (bytes ++ rest) = .ok (a, rest)

theorem Reads.pure (a : α) : Reads (Reader.pure a : Reader ε α) [] a := fun _ => rfl

theorem Reads.ensure {c : Prop} [Decidable c] (h : c) (e : ε) :
    Reads (Reader.ensure c e) [] () := fun s => Reader.ensure_of h e s

theorem Reads.bind {r : Reader ε α} {f : α → Reader ε β} {bytes bytes' : List UInt8} {a : α}
    {b : β} (h : Reads r bytes a) (h' : Reads (f a) bytes' b) :
    Reads (Reader.bind r f) (bytes ++ bytes') b := by
  intro rest
  rw [Reader.bind, List.append_assoc, h (bytes' ++ rest)]
  exact h' rest

/-- A last step that reads nothing. -/
theorem Reads.map {r : Reader ε α} {f : α → β} {bytes : List UInt8} {a : α} (h : Reads r bytes a) :
    Reads (Reader.bind r fun a => Reader.pure (f a)) bytes (f a) := by
  intro rest
  rw [Reader.bind, h rest]
  rfl

/-- A last step that checks what was read. -/
theorem Reads.last {r : Reader ε α} {f : α → Reader ε β} {bytes : List UInt8} {a : α} {b : β}
    (h : Reads r bytes a) (h' : Reads (f a) [] b) : Reads (Reader.bind r f) bytes b := by
  have hb := h.bind h'
  rwa [List.append_nil] at hb

theorem Reads.take (eof : ε) (bytes : List UInt8) :
    Reads (Reader.take eof bytes.length) bytes bytes := by
  intro rest
  rw [Reader.take, if_pos (by rw [List.length_append]; omega), List.take_left, List.drop_left]

theorem Reads.le (eof : ε) {n x : ℕ} (h : x < 256 ^ n) :
    Reads (Reader.le eof n) (leBytes n x) x := by
  have ht := Reads.take eof (leBytes n x)
  rw [length_leBytes] at ht
  have hm := ht.map (f := fromLe)
  rwa [fromLe_leBytes, Nat.mod_eq_of_lt h] at hm

theorem Reads.many {r : Reader ε α} {write : α → List UInt8} {as : List α}
    (h : ∀ a ∈ as, Reads r (write a) a) :
    Reads (Reader.many r as.length) (as.flatMap write) as := by
  induction as with
  | nil => exact Reads.pure []
  | cons a as ih =>
    rw [List.flatMap_cons]
    exact (h a List.mem_cons_self).bind
      ((ih fun b hb => h b (List.mem_cons_of_mem a hb)).map (f := (a :: ·)))

end Reads

end Frink.Codec
