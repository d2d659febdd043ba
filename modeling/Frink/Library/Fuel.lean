import Mathlib

/-! # Cut-off computations

A loop whose termination is a theorem, not a fact of its syntax, is a family of
computations indexed by the number of steps allowed. `none` means cut off.
-/

namespace Frink

abbrev Exec (ε α : Type) := ExceptT ε Option α

namespace Exec

variable {ε α β : Type}

def ofExcept (x : Except ε α) : Exec ε α := ExceptT.mk (some x)

def fail (e : ε) : Exec ε α := ExceptT.mk (some (.error e))

/-- A larger budget never changes a result that was already reached. -/
def Stable (f : ℕ → Option α) : Prop :=
  ∀ ⦃m n a⦄, m ≤ n → f m = some a → f n = some a

def Returns (f : ℕ → Option α) (a : α) : Prop := ∃ n, f n = some a

def Halts (f : ℕ → Option α) : Prop := ∃ a, Returns f a

theorem Returns.unique {f : ℕ → Option α} (hf : Stable f) {a b : α}
    (ha : Returns f a) (hb : Returns f b) : a = b := by
  obtain ⟨m, hm⟩ := ha
  obtain ⟨n, hn⟩ := hb
  have hm' := hf (Nat.le_max_left m n) hm
  rw [hf (Nat.le_max_right m n) hn] at hm'
  exact (Option.some.inj hm').symm

theorem Returns.halts {f : ℕ → Option α} {a : α} (h : Returns f a) : Halts f := ⟨a, h⟩

theorem stable_const (x : Option α) : Stable fun _ => x := fun _ _ _ _ h => h

@[simp] theorem returns_const_iff {x : Option α} {a : α} :
    Returns (fun _ => x) a ↔ x = some a :=
  ⟨fun ⟨_, h⟩ => h, fun h => ⟨0, h⟩⟩

theorem Stable.of_succ {f : ℕ → Option α} (h : ∀ n a, f n = some a → f (n + 1) = some a) :
    Stable f := by
  intro m n a hmn hm
  induction hmn with
  | refl => exact hm
  | step _ ih => exact h _ _ ih

theorem Stable.option_bind {f : ℕ → Option α} {k : α → ℕ → Option β}
    (hf : Stable f) (hk : ∀ a, Stable (k a)) : Stable fun n => (f n).bind fun a => k a n := by
  intro m n b hmn hb
  obtain ⟨a, ha, hab⟩ := Option.bind_eq_some_iff.mp hb
  exact Option.bind_eq_some_iff.mpr ⟨a, hf hmn ha, hk a hmn hab⟩

theorem returns_option_bind_iff {f : ℕ → Option α} {k : α → ℕ → Option β}
    (hf : Stable f) (hk : ∀ a, Stable (k a)) {b : β} :
    Returns (fun n => (f n).bind fun a => k a n) b ↔ ∃ a, Returns f a ∧ Returns (k a) b := by
  constructor
  · rintro ⟨n, hn⟩
    obtain ⟨a, ha, hab⟩ := Option.bind_eq_some_iff.mp hn
    exact ⟨a, ⟨n, ha⟩, n, hab⟩
  · rintro ⟨a, ⟨m, hm⟩, n, hn⟩
    exact ⟨max m n, Option.bind_eq_some_iff.mpr
      ⟨a, hf (Nat.le_max_left m n) hm, hk a (Nat.le_max_right m n) hn⟩⟩

theorem Stable.map {f : ℕ → Option α} (hf : Stable f) (k : α → β) :
    Stable fun n => (f n).map k := by
  intro m n b hmn hb
  obtain ⟨a, ha, rfl⟩ := Option.map_eq_some_iff.mp hb
  exact Option.map_eq_some_iff.mpr ⟨a, hf hmn ha, rfl⟩

theorem returns_map_iff {f : ℕ → Option α} {k : α → β} {b : β} :
    Returns (fun n => (f n).map k) b ↔ ∃ a, Returns f a ∧ k a = b := by
  constructor
  · rintro ⟨n, hn⟩
    obtain ⟨a, ha, hb⟩ := Option.map_eq_some_iff.mp hn
    exact ⟨a, ⟨n, ha⟩, hb⟩
  · rintro ⟨a, ⟨n, hn⟩, hb⟩
    exact ⟨n, Option.map_eq_some_iff.mpr ⟨a, hn, hb⟩⟩

theorem halts_map {f : ℕ → Option α} {k : α → β} (h : Halts f) :
    Halts fun n => (f n).map k := by
  obtain ⟨a, ha⟩ := h
  exact ⟨k a, returns_map_iff.mpr ⟨a, ha, rfl⟩⟩

theorem Halts.of_map {f : ℕ → Option α} {k : α → β} (h : Halts fun n => (f n).map k) :
    Halts f := by
  obtain ⟨b, hb⟩ := h
  obtain ⟨a, ha, _⟩ := returns_map_iff.mp hb
  exact ⟨a, ha⟩

theorem bind_eq (x : Exec ε α) (k : α → Exec ε β) :
    (x >>= k) = Option.bind x (fun | .ok a => k a | .error e => some (.error e)) := by
  change Option.bind x _ = _
  congr 1

theorem bind_eq_ok_iff {x : Exec ε α} {k : α → Exec ε β} {b : β} :
    (x >>= k : Exec ε β) = some (.ok b) ↔ ∃ a, x = some (.ok a) ∧ k a = some (.ok b) := by
  rw [bind_eq, Option.bind_eq_some_iff]
  constructor
  · rintro ⟨_ | a, ha, hb⟩
    · exact nomatch hb
    · exact ⟨a, ha, hb⟩
  · rintro ⟨a, ha, hb⟩
    exact ⟨.ok a, ha, hb⟩

theorem ofExcept_eq_ok_iff {x : Except ε α} {a : α} :
    (ofExcept x : Exec ε α) = some (.ok a) ↔ x = .ok a :=
  ⟨fun h => Option.some.inj h, fun h => congrArg some h⟩

theorem pure_eq_ok_iff {a b : α} : (pure a : Exec ε α) = some (.ok b) ↔ a = b :=
  ⟨fun h => Except.ok.inj (Option.some.inj h), fun h => congrArg (some ∘ Except.ok) h⟩

theorem fail_ne_ok {e : ε} {a : α} : (fail e : Exec ε α) ≠ some (.ok a) := nofun

theorem Stable.bind {x : ℕ → Exec ε α} {k : α → ℕ → Exec ε β}
    (hx : Stable x) (hk : ∀ a, Stable (k a)) :
    Stable fun n => (x n >>= fun a => k a n : Exec ε β) := by
  simp only [bind_eq]
  refine Stable.option_bind (k := fun r n =>
    match r with | .ok a => k a n | .error e => some (.error e)) hx fun r => ?_
  cases r with
  | ok a => exact hk a
  | error e => exact stable_const _

theorem returns_bind_ok_iff {x : ℕ → Exec ε α} {k : α → ℕ → Exec ε β}
    (hx : Stable x) (hk : ∀ a, Stable (k a)) {b : β} :
    Returns (fun n => (x n >>= fun a => k a n : Exec ε β)) (.ok b) ↔
      ∃ a, Returns x (.ok a) ∧ Returns (k a) (.ok b) := by
  simp only [bind_eq]
  rw [returns_option_bind_iff (k := fun r n =>
    match r with | .ok a => k a n | .error e => some (.error e)) hx (fun r => by
      cases r with
      | ok a => exact hk a
      | error e => exact stable_const _)]
  constructor
  · rintro ⟨r, hr, hb⟩
    cases r with
    | ok a => exact ⟨a, hr, hb⟩
    | error e => simp at hb
  · rintro ⟨a, ha, hb⟩
    exact ⟨.ok a, ha, hb⟩

theorem returns_bind_error_iff {x : ℕ → Exec ε α} {k : α → ℕ → Exec ε β}
    (hx : Stable x) (hk : ∀ a, Stable (k a)) {e : ε} :
    Returns (fun n => (x n >>= fun a => k a n : Exec ε β)) (.error e) ↔
      Returns x (.error e) ∨ ∃ a, Returns x (.ok a) ∧ Returns (k a) (.error e) := by
  simp only [bind_eq]
  rw [returns_option_bind_iff (k := fun r n =>
    match r with | .ok a => k a n | .error e => some (.error e)) hx (fun r => by
      cases r with
      | ok a => exact hk a
      | error e => exact stable_const _)]
  constructor
  · rintro ⟨r, hr, hb⟩
    cases r with
    | ok a => exact .inr ⟨a, hr, hb⟩
    | error e' =>
      simp only [returns_const_iff, Option.some.injEq, Except.error.injEq] at hb
      exact .inl (hb ▸ hr)
  · rintro (h | ⟨a, ha, hb⟩)
    · exact ⟨.error e, h, by simp⟩
    · exact ⟨.ok a, ha, hb⟩

theorem Halts.bind {x : ℕ → Exec ε α} {k : α → ℕ → Exec ε β}
    (hx : Stable x) (hk : ∀ a, Stable (k a)) (h : Halts x)
    (hhk : ∀ a, Returns x (.ok a) → Halts (k a)) :
    Halts fun n => (x n >>= fun a => k a n : Exec ε β) := by
  obtain ⟨r, hr⟩ := h
  cases r with
  | error e => exact ⟨.error e, (returns_bind_error_iff hx hk).mpr (.inl hr)⟩
  | ok a =>
    obtain ⟨r', hr'⟩ := hhk a hr
    cases r' with
    | ok b => exact ⟨.ok b, (returns_bind_ok_iff hx hk).mpr ⟨a, hr, hr'⟩⟩
    | error e => exact ⟨.error e, (returns_bind_error_iff hx hk).mpr (.inr ⟨a, hr, hr'⟩)⟩

theorem Halts.of_bind {x : ℕ → Exec ε α} {k : α → ℕ → Exec ε β}
    (h : Halts fun n => (x n >>= fun a => k a n : Exec ε β)) : Halts x := by
  obtain ⟨r, n, hn⟩ := h
  simp only [bind_eq] at hn
  obtain ⟨a, ha, _⟩ := Option.bind_eq_some_iff.mp hn
  exact ⟨a, n, ha⟩

theorem pure_eq (a : α) : (pure a : Exec ε α) = some (.ok a) := rfl

@[simp] theorem returns_pure_iff {r : Except ε α} {a : α} :
    Returns (fun _ => (pure a : Exec ε α)) r ↔ r = .ok a := by
  rw [show (fun _ : ℕ => (pure a : Exec ε α)) = fun _ => (some (.ok a) : Option _) from rfl]
  simp [eq_comm]

@[simp] theorem returns_fail_iff {r : Except ε α} {e : ε} :
    Returns (fun _ => (fail e : Exec ε α)) r ↔ r = .error e := by
  rw [show (fun _ : ℕ => (fail e : Exec ε α)) = fun _ => (some (.error e) : Option _) from rfl]
  simp [eq_comm]

@[simp] theorem returns_ofExcept_iff {x r : Except ε α} :
    Returns (fun _ => (ofExcept x : Exec ε α)) r ↔ r = x := by
  rw [show (fun _ : ℕ => (ofExcept x : Exec ε α)) = fun _ => (some x : Option _) from rfl]
  simp [eq_comm]

theorem stable_ofExcept (x : Except ε α) : Stable fun _ => (ofExcept x : Exec ε α) :=
  stable_const _

theorem stable_pure (a : α) : Stable fun _ => (pure a : Exec ε α) := stable_const _

theorem stable_fail (e : ε) : Stable fun _ => (fail e : Exec ε α) := stable_const _

section Fold

variable {σ : Type} {f : σ → α → ℕ → Exec ε σ}

theorem Stable.foldlM (hf : ∀ s a, Stable (f s a)) (l : List α) (s : σ) :
    Stable fun n => (l.foldlM (fun s a => f s a n) s : Exec ε σ) := by
  induction l generalizing s with
  | nil => exact stable_pure s
  | cons a l ih =>
    simp only [List.foldlM_cons]
    exact (hf s a).bind ih

theorem returns_foldlM_cons_ok_iff (hf : ∀ s a, Stable (f s a)) {a : α} {l : List α} {s t : σ} :
    Returns (fun n => ((a :: l).foldlM (fun s a => f s a n) s : Exec ε σ)) (.ok t) ↔
      ∃ u, Returns (f s a) (.ok u) ∧
        Returns (fun n => (l.foldlM (fun s a => f s a n) u : Exec ε σ)) (.ok t) := by
  simp only [List.foldlM_cons]
  exact returns_bind_ok_iff (hf s a) (Stable.foldlM hf l)

/-- Each step keeps the relation, so the whole fold does. -/
theorem foldlM_rule (hf : ∀ s a, Stable (f s a)) (P : σ → List α → σ → Prop)
    (hnil : ∀ s, P s [] s)
    (hcons : ∀ a l s t u, Returns (f s a) (.ok t) → P t l u → P s (a :: l) u)
    {l : List α} {s t : σ}
    (h : Returns (fun n => (l.foldlM (fun s a => f s a n) s : Exec ε σ)) (.ok t)) :
    P s l t := by
  induction l generalizing s with
  | nil =>
    simp only [List.foldlM_nil, returns_pure_iff, Except.ok.injEq] at h
    exact h ▸ hnil s
  | cons a l ih =>
    obtain ⟨u, hu, ht⟩ := (returns_foldlM_cons_ok_iff hf).mp h
    exact hcons a l s u t hu (ih ht)

theorem foldlM_not_error (hf : ∀ s a, Stable (f s a)) {l : List α} {e : ε}
    (h : ∀ s, ∀ a ∈ l, ¬ Returns (f s a) (.error e)) (s : σ) :
    ¬ Returns (fun n => (l.foldlM (fun s a => f s a n) s : Exec ε σ)) (.error e) := by
  induction l generalizing s with
  | nil => exact fun hr => nomatch returns_pure_iff.mp hr
  | cons a l ih =>
    simp only [List.foldlM_cons]
    intro hr
    rcases (returns_bind_error_iff (hf s a) (Stable.foldlM hf l)).mp hr with hr | ⟨u, _, hr⟩
    · exact h s a (by simp) hr
    · exact ih (fun s b hb => h s b (by simp [hb])) u hr

theorem foldlM_halts (hf : ∀ s a, Stable (f s a)) {l : List α}
    (h : ∀ s, ∀ a ∈ l, Halts (f s a)) (s : σ) :
    Halts fun n => (l.foldlM (fun s a => f s a n) s : Exec ε σ) := by
  induction l generalizing s with
  | nil => exact ⟨.ok s, 0, rfl⟩
  | cons a l ih =>
    simp only [List.foldlM_cons]
    exact (h s a (by simp)).bind (hf s a) (Stable.foldlM hf l)
      fun u _ => ih (fun s b hb => h s b (by simp [hb])) u

/-- A fold whose steps end well whatever was gathered ends well when each of them does. -/
theorem foldlM_ok_iff (hf : ∀ s a, Stable (f s a)) {P : α → Prop} {l : List α}
    (h : ∀ a ∈ l, ∀ s, (∃ t, Returns (f s a) (.ok t)) ↔ P a) (s : σ) :
    (∃ t, Returns (fun n => (l.foldlM (fun s a => f s a n) s : Exec ε σ)) (.ok t)) ↔
      ∀ a ∈ l, P a := by
  induction l generalizing s with
  | nil => exact ⟨fun _ => nofun, fun _ => ⟨s, returns_pure_iff.mpr rfl⟩⟩
  | cons a l ih =>
    have ih := ih fun b hb => h b (by simp [hb])
    simp only [returns_foldlM_cons_ok_iff hf, List.forall_mem_cons]
    constructor
    · rintro ⟨t, u, hu, ht⟩
      exact ⟨(h a (by simp) s).mp ⟨u, hu⟩, (ih u).mp ⟨t, ht⟩⟩
    · rintro ⟨ha, hl⟩
      obtain ⟨u, hu⟩ := (h a (by simp) s).mpr ha
      obtain ⟨t, ht⟩ := (ih u).mpr hl
      exact ⟨t, u, hu, ht⟩

end Fold

section Collect

variable {f : List β → α → ℕ → Exec ε (List β)} {R : α → β → Prop}

/-- A fold whose steps each add the results of one element adds those of all of them. -/
theorem foldlM_collect (hf : ∀ s a, Stable (f s a)) {l : List α} {out res : List β}
    (hstep : ∀ a ∈ l, ∀ out res, Returns (f out a) (.ok res) → ∀ b, b ∈ res ↔ b ∈ out ∨ R a b)
    (h : Returns (fun n => (l.foldlM (fun s a => f s a n) out : Exec ε (List β))) (.ok res))
    (b : β) : b ∈ res ↔ b ∈ out ∨ ∃ a ∈ l, R a b := by
  have hrule := foldlM_rule hf
    (fun out l' res => (∀ a ∈ l', a ∈ l) → (b ∈ res ↔ b ∈ out ∨ ∃ a ∈ l', R a b))
    (fun s _ => by simp)
    (fun a l' s t u hs ih hl => by
      rw [ih fun c hc => hl c (by simp [hc]), hstep a (hl a (by simp)) s t hs b]
      simp [or_assoc]) h
  exact hrule fun a ha => ha

theorem foldlM_nodup (hf : ∀ s a, Stable (f s a)) {l : List α} {out res : List β}
    (hstep : ∀ a out res, Returns (f out a) (.ok res) → out.Nodup → res.Nodup)
    (h : Returns (fun n => (l.foldlM (fun s a => f s a n) out : Exec ε (List β))) (.ok res))
    (hout : out.Nodup) : res.Nodup :=
  foldlM_rule hf (fun out _ res => out.Nodup → res.Nodup) (fun _ h => h)
    (fun a _ s t _ hs ih ho => ih (hstep a s t hs ho)) h hout

end Collect

end Exec

end Frink

/-! ## Checked writes and loops that may stop

Writing past a list's end is refused, and a loop over a list ends at its first
refusal. What every round keeps the whole loop keeps.
-/

namespace Frink.Checked

variable {α β : Type}

/-- A write into a list, refused past its end. -/
def write (xs : List α) (i : ℕ) (a : α) : Option (List α) :=
  if i < xs.length then some (xs.set i a) else none

variable {xs ys : List α} {i : ℕ} {a : α}

theorem write_eq_some : write xs i a = some ys ↔ i < xs.length ∧ xs.set i a = ys := by
  simp [write]

theorem write_of_lt (h : i < xs.length) : write xs i a = some (xs.set i a) := by
  simp [write, h]

theorem foldlM_keeps {f : β → α → Option β} (P : List α → β → Prop) {s s' : β} {xs : List α}
    (step : ∀ x xs s s', P (x :: xs) s → f s x = some s' → P xs s')
    (hs : P xs s) (h : xs.foldlM f s = some s') : P [] s' := by
  induction xs generalizing s with
  | nil =>
    obtain rfl : s = s' := by simpa using h
    exact hs
  | cons x xs ih =>
    rw [List.foldlM_cons] at h
    obtain ⟨t, ht, h⟩ := Option.bind_eq_some_iff.mp h
    exact ih (step x xs s t hs ht) h

/-- A loop whose rounds all succeed, with an invariant on the part read so far. -/
theorem foldlM_runs {f : β → α → Option β} (P : List α → β → Prop) {s : β} {xs : List α}
    (step : ∀ read x rest s, xs = read ++ x :: rest → P read s →
      ∃ s', f s x = some s' ∧ P (read ++ [x]) s')
    (hs : P [] s) : ∃ s', xs.foldlM f s = some s' ∧ P xs s' := by
  suffices h : ∀ rest read s, xs = read ++ rest → P read s →
      ∃ s', rest.foldlM f s = some s' ∧ P xs s' from h xs [] s rfl hs
  intro rest
  induction rest with
  | nil =>
    rintro read s rfl hs
    exact ⟨s, rfl, by simpa using hs⟩
  | cons x rest ih =>
    rintro read s hx hs
    obtain ⟨t, ht, hP⟩ := step read x rest s hx hs
    obtain ⟨s', hs', hP'⟩ := ih (read ++ [x]) t (by simpa using hx) hP
    exact ⟨s', by simp [List.foldlM_cons, ht, hs'], hP'⟩

end Frink.Checked
