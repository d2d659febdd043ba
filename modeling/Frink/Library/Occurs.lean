import Mathlib
import Frink.Library.Codec

/-! # Where a pattern may begin

A scanner that releases text may do so only where no pattern it looks for can begin, whatever
arrives later. `Clear` says that of a released part and what follows it; it composes along the
text, so releases may be made one after the other. Patterns that cannot overlap are `Apart`.
-/

namespace Frink.Occurs

variable {α : Type} {p q r w w' x : List α}

/-- No occurrence of `p` in `r ++ w` begins in `r`. -/
def Clear (p r w : List α) : Prop := ∀ k < r.length, ¬ p <+: (r ++ w).drop k

/-- No end of `p` is a beginning of `q` or begins with all of it, unless it is all of `p`. -/
def Apart (p q : List α) : Prop :=
  ∀ k < p.length, 0 < k → ¬ p.drop k <+: q ∧ ¬ q <+: p.drop k

instance [DecidableEq α] : Decidable (Apart p q) := by
  unfold Apart
  infer_instance

theorem Clear.mono (h : Clear p r w) (hw : w' <+: w) : Clear p r w' := by
  intro k hk hp
  apply h k hk
  obtain ⟨more, rfl⟩ := hw
  rw [← List.append_assoc, List.drop_append_of_le_length (by rw [List.length_append]; omega)]
  exact hp.trans (List.prefix_append _ _)

theorem Clear.left (h : Clear p (r ++ x) w) : Clear p r (x ++ w) := by
  intro k hk hp
  apply h k
  · rw [List.length_append]
    omega
  · rwa [List.append_assoc]

theorem Clear.right (h : Clear p (r ++ x) w) : Clear p x w := by
  intro k hk hp
  apply h (r.length + k)
  · rw [List.length_append]
    omega
  · rwa [List.append_assoc, List.drop_length_add_append]

/-- A pattern does not begin where its first element does not stand. -/
theorem clear_of_head {a : α} (h : ∀ b ∈ r, b ≠ a) (w : List α) : Clear (a :: p) r w := by
  intro k hk hp
  rw [List.drop_append_of_le_length hk.le, List.drop_eq_getElem_cons hk, List.cons_append] at hp
  exact h _ (List.getElem_mem hk) (List.cons_prefix_cons.mp hp).1.symm

theorem Clear.absent (h : Clear p r w) (hp : p ≠ []) : ¬ p <:+: r := by
  rintro ⟨u, v, rfl⟩
  apply h u.length
  · have := List.length_pos_of_ne_nil hp
    simp only [List.length_append]
    omega
  · rw [List.append_assoc, List.append_assoc, List.drop_left]
    exact List.prefix_append _ _

/-- An occurrence that begins in `r` lies in it or reaches into what follows. -/
theorem infix_or_drop_prefix {k : ℕ} (hk : k ≤ r.length) (h : p <+: (r ++ w).drop k) :
    p <:+: r ∨ r.length - k < p.length ∧ p.drop (r.length - k) <+: w := by
  rw [List.drop_append_of_le_length hk] at h
  by_cases hlen : p.length ≤ r.length - k
  · left
    have hp : p <+: r.drop k := by
      apply List.prefix_of_prefix_length_le h (List.prefix_append _ _)
      rwa [List.length_drop]
    exact hp.isInfix.trans (List.drop_suffix _ _).isInfix
  · right
    have hd := h.drop (r.length - k)
    rw [← List.length_drop, List.drop_left, List.length_drop] at hd
    exact ⟨by omega, hd⟩

/-- A part without the pattern is clear of it up to a pattern the first is apart from. -/
theorem clear_of_apart (h : Apart p q) (hr : ¬ p <:+: r) (w : List α) : Clear p r (q ++ w) := by
  intro k hk hp
  obtain hin | ⟨hlt, hd⟩ := infix_or_drop_prefix hk.le hp
  · exact hr hin
  · obtain hq | hq := List.prefix_or_prefix_of_prefix hd (List.prefix_append q w)
    · exact (h _ hlt (by omega)).1 hq
    · exact (h _ hlt (by omega)).2 hq

/-- A pattern does not straddle the end of a part in which it does not occur and no end of which
begins it. -/
theorem clear_of_partial (hr : ¬ p <:+: r ++ x)
    (h : ∀ v, v <:+ r ++ x → v <+: p → v ≠ p → v.length ≤ x.length) (w : List α) :
    Clear p r (x ++ w) := by
  intro k hk hp
  have hle : k ≤ (r ++ x).length := by
    rw [List.length_append]
    omega
  rw [← List.append_assoc] at hp
  obtain hin | ⟨hlt, -⟩ := infix_or_drop_prefix hle hp
  · exact hr hin
  · have hv : (r ++ x).drop k <+: p := by
      rw [List.drop_append_of_le_length hle] at hp
      apply List.prefix_of_prefix_length_le (List.prefix_append _ w) hp
      rw [List.length_drop]
      omega
    have hlong := h _ (List.drop_suffix _ _) hv (by
      rintro rfl
      rw [List.length_drop] at hlt
      omega)
    rw [List.length_drop, List.length_append] at hlong
    omega

end Frink.Occurs

/-! ## Encodings that end by themselves

An encoding is delimited where the bytes behind it cannot be taken for a part of it, so that a
concatenation of delimited fields reads back in one way only. Fixed widths, length prefixes and
counted sequences are delimited.
-/

namespace Frink.Codec

variable {α : Type*} {D : Set α} {enc : α → List UInt8} {n : ℕ}

/-- Of two encodings with something behind them that agree, the values and the rests agree. -/
def DelimitedOn (D : Set α) (enc : α → List UInt8) : Prop :=
  ∀ ⦃a⦄, a ∈ D → ∀ ⦃b⦄, b ∈ D → ∀ ⦃s t⦄, enc a ++ s = enc b ++ t → a = b ∧ s = t

/-- A field with its length in front, in `n` bytes. -/
def sized (n : ℕ) (field : List UInt8) : List UInt8 := leBytes n field.length ++ field

/-- A sequence with its length in front. -/
def counted (n : ℕ) (enc : α → List UInt8) (as : List α) : List UInt8 :=
  leBytes n as.length ++ as.flatMap enc

theorem leBytes_injOn (n : ℕ) : Set.InjOn (leBytes n) {x | x < 256 ^ n} := by
  intro x hx y hy heq
  have hread := congrArg fromLe heq
  rwa [fromLe_leBytes, fromLe_leBytes, Nat.mod_eq_of_lt hx, Nat.mod_eq_of_lt hy] at hread

/-- Codes of one width are delimited when they are injective. -/
theorem delimitedOn_of_width (hinj : Set.InjOn enc D) (hlen : ∀ a, (enc a).length = n) :
    DelimitedOn D enc := by
  intro a ha b hb s t heq
  obtain ⟨henc, hrest⟩ := List.append_inj heq ((hlen a).trans (hlen b).symm)
  exact ⟨hinj ha hb henc, hrest⟩

theorem delimitedOn_leBytes (n : ℕ) : DelimitedOn {x | x < 256 ^ n} (leBytes n) :=
  delimitedOn_of_width (leBytes_injOn n) (length_leBytes n)

namespace DelimitedOn

/-- Sequences of one length read back element by element. -/
theorem flatMap (h : DelimitedOn D enc) {as bs : List α} (ha : ∀ a ∈ as, a ∈ D)
    (hb : ∀ b ∈ bs, b ∈ D) (hlen : as.length = bs.length) {s t : List UInt8}
    (heq : as.flatMap enc ++ s = bs.flatMap enc ++ t) : as = bs ∧ s = t := by
  induction as generalizing bs with
  | nil =>
    obtain rfl := List.length_eq_zero_iff.mp hlen.symm
    exact ⟨rfl, heq⟩
  | cons a as ih =>
    cases bs with
    | nil => cases hlen
    | cons b bs =>
      rw [List.flatMap_cons, List.flatMap_cons, List.append_assoc, List.append_assoc] at heq
      obtain ⟨rfl, hrest⟩ := h (ha a List.mem_cons_self) (hb b List.mem_cons_self) heq
      obtain ⟨rfl, hst⟩ := ih (List.forall_mem_cons.mp ha).2 (List.forall_mem_cons.mp hb).2
        (Nat.succ.inj hlen) hrest
      exact ⟨rfl, hst⟩

theorem counted (h : DelimitedOn D enc) (n : ℕ) :
    DelimitedOn {as | as.length < 256 ^ n ∧ ∀ a ∈ as, a ∈ D} (counted n enc) := by
  rintro as ⟨hlen, ha⟩ bs ⟨hlen', hb⟩ s t heq
  rw [Codec.counted, Codec.counted, List.append_assoc, List.append_assoc] at heq
  obtain ⟨hcount, hrest⟩ := delimitedOn_leBytes n hlen hlen' heq
  exact h.flatMap ha hb hcount hrest

end DelimitedOn

theorem delimitedOn_sized (n : ℕ) : DelimitedOn {field | field.length < 256 ^ n} (sized n) := by
  intro a ha b hb s t heq
  rw [sized, sized, List.append_assoc, List.append_assoc] at heq
  obtain ⟨hlen, hrest⟩ := delimitedOn_leBytes n ha hb heq
  exact List.append_inj hrest hlen

/-- A sequence of codes of one positive width needs no count where nothing is behind it. -/
theorem flatMap_inj_of_width (hinj : Function.Injective enc) (hlen : ∀ a, (enc a).length = n + 1)
    {as bs : List α} (heq : as.flatMap enc = bs.flatMap enc) : as = bs := by
  have hd : DelimitedOn Set.univ enc := delimitedOn_of_width hinj.injOn hlen
  have hcount : ∀ as : List α, (as.flatMap enc).length = as.length * (n + 1) := by
    intro as
    induction as with
    | nil => exact (Nat.zero_mul _).symm
    | cons a as ih =>
      rw [List.flatMap_cons, List.length_append, hlen, ih, List.length_cons, Nat.succ_mul,
        Nat.add_comm]
  have hsame : as.length = bs.length := by
    apply Nat.eq_of_mul_eq_mul_right (Nat.succ_pos n)
    rw [← hcount, ← hcount, heq]
  exact (hd.flatMap (s := []) (t := []) (fun _ _ => trivial) (fun _ _ => trivial) hsame
    (by rw [heq])).1

end Frink.Codec
