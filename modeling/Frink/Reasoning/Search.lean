import Mathlib
import Frink.Decode.StopBytes
import Frink.Library.Occurs
import Frink.Decode.Text

/-! # Searching and trimming

What a search in a part says of the whole, where nothing of the pattern can begin in what was
released before, and what trimming takes away.
-/

namespace Frink.Reasoning
open Decode Occurs
open Tool (isWhitespace trim trimStart trimEnd)

variable {pat t r w : Text} {i : ℕ}

section Find

theorem drop_of_findText (h : findText pat t = some i) :
    t.drop i = pat ++ t.drop (i + pat.length) := by
  obtain ⟨rest, hrest⟩ := (findText_leftmost h).1
  rw [← List.drop_drop, ← hrest, List.drop_left]

theorem findText_split (h : findText pat t = some i) :
    t = t.take i ++ (pat ++ t.drop (i + pat.length)) := by
  rw [← drop_of_findText h, List.take_append_drop]

theorem clear_of_findText (h : findText pat t = some i) :
    Clear pat (t.take i) (t.drop i) := by
  intro k hk
  rw [List.take_append_drop]
  apply (findText_leftmost h).2 k
  rw [List.length_take] at hk
  omega

theorem findText_eq_none_iff (hp : pat ≠ []) : findText pat t = none ↔ ¬ pat <:+: t := by
  constructor
  · rintro h ⟨u, v, rfl⟩
    apply findText_eq_none h u.length hp
    rw [List.append_assoc, List.drop_left]
    exact List.prefix_append _ _
  · intro h
    cases hf : findText pat t with
    | none => rfl
    | some i =>
      exact absurd ((findText_leftmost hf).1.isInfix.trans (List.drop_suffix _ _).isInfix) h

theorem findText_isSome (h : findText pat t = some i) : pat <:+: t :=
  ⟨t.take i, t.drop (i + pat.length), by rw [List.append_assoc, ← findText_split h]⟩

/-- Where nothing begins in the first part, the search is one in the second. -/
theorem findText_append (h : Clear pat r w) :
    findText pat (r ++ w) = (findText pat w).map (· + r.length) := by
  induction r with
  | nil => simp
  | cons c r ih =>
    have hc : ¬ pat.isPrefixOf (c :: (r ++ w)) = true := by
      intro hp
      exact h 0 (Nat.zero_lt_succ _) (List.isPrefixOf_iff_prefix.mp hp)
    have hr : Clear pat r w := Clear.right (r := [c]) h
    rw [List.cons_append, findText, if_neg hc, ih hr, Option.map_map]
    congr 1

/-- What is found in a part is found there in the whole. -/
theorem findText_append_right (h : findText pat t = some i) (w : Text) :
    findText pat (t ++ w) = some i := by
  have hle := Tool.findText_le h
  have hsplit := findText_split h
  have hclear : Clear pat (t.take i) (pat ++ (t.drop (i + pat.length) ++ w)) := by
    intro k hk hp
    obtain hin | ⟨hlt, hd⟩ := infix_or_drop_prefix hk.le hp
    · have hc := clear_of_findText h
      by_cases hpat : pat = []
      · subst hpat
        exact hc k hk List.nil_prefix
      · exact hc.absent hpat hin
    · apply clear_of_findText h k hk
      rw [List.take_append_drop]
      have hlen : k + pat.length ≤ t.length := by
        rw [List.length_take] at hk
        omega
      have hpt : pat <+: (t ++ w).drop k := by
        rwa [← List.append_assoc, ← List.append_assoc, List.append_assoc (t.take i), ← hsplit] at hp
      rw [List.drop_append_of_le_length (by omega)] at hpt
      apply List.prefix_of_prefix_length_le hpt (List.prefix_append _ _)
      rw [List.length_drop]
      omega
  have hfind : findText pat (pat ++ (t.drop (i + pat.length) ++ w)) = some 0 :=
    Tool.findText_of_prefix (List.prefix_append _ _)
  conv_lhs => rw [hsplit]
  rw [List.append_assoc, List.append_assoc, findText_append hclear, hfind, List.length_take,
    Nat.min_eq_left (by omega)]
  simp

/-- No pattern straddles the end of what is released once its partial tail is held back. -/
theorem clear_of_holdback {stops : List Text} (hmem : pat ∈ stops) (h : ¬ pat <:+: t) (w : Text) :
    Clear pat (t.take (t.length - stopPrefixHoldback t stops))
      (t.drop (t.length - stopPrefixHoldback t stops) ++ w) := by
  apply clear_of_partial
  · rwa [List.take_append_drop]
  · rw [List.take_append_drop]
    intro v hv hp hne
    exact (longestPartial_holdback t stops).longest v hv ⟨pat, hmem, hp, hne⟩

end Find

section Trim

/-- Nothing but white space. -/
def Blank (t : Text) : Prop := ∀ c ∈ t, isWhitespace c = true

instance : DecidablePred Blank := List.decidableBAll fun c => isWhitespace c = true

theorem blank_nil : Blank [] := by
  rintro c ⟨⟩

theorem trimStart_append (hr : Blank r) (t : Text) : trimStart (r ++ t) = trimStart t := by
  induction r with
  | nil => rfl
  | cons c r ih =>
    rw [List.cons_append, trimStart, List.dropWhile_cons_of_pos (hr c List.mem_cons_self)]
    exact ih fun d hd => hr d (List.mem_cons_of_mem c hd)

theorem trimEnd_append (hw : Blank w) (t : Text) : trimEnd (t ++ w) = trimEnd t := by
  have hrev : Blank w.reverse := fun c hc => hw c (List.mem_reverse.mp hc)
  have h := trimStart_append hrev t.reverse
  simp only [trimStart] at h
  rw [trimEnd, trimEnd, List.reverse_append, h]

/-- What is trimmed at the end is white space. -/
theorem exists_trimEnd (t : Text) : ∃ ws, Blank ws ∧ t = trimEnd t ++ ws := by
  refine ⟨(t.reverse.takeWhile isWhitespace).reverse, ?_, ?_⟩
  · intro c hc
    exact List.mem_takeWhile_imp (List.mem_reverse.mp hc)
  · rw [trimEnd, ← List.reverse_append, List.takeWhile_append_dropWhile, List.reverse_reverse]

theorem exists_trimStart (t : Text) : ∃ ws, Blank ws ∧ t = ws ++ trimStart t :=
  ⟨t.takeWhile isWhitespace, fun _ hc => List.mem_takeWhile_imp hc,
    (List.takeWhile_append_dropWhile).symm⟩

theorem trimStart_blank (h : Blank t) : trimStart t = [] := by
  have := trimStart_append h []
  rwa [List.append_nil] at this

theorem trimEnd_nil : trimEnd [] = [] := rfl

/-- Trimming at the start and at the end commute on what is left. -/
theorem trim_append_blank (hw : Blank w) (t : Text) : trim (t ++ w) = trim t := by
  induction t with
  | nil => rw [List.nil_append, trim, trimStart_blank hw]; rfl
  | cons c t ih =>
    by_cases hc : isWhitespace c = true
    · have h : ∀ u : Text, trim (c :: u) = trim u := by
        intro u
        rw [trim, trimStart, List.dropWhile_cons_of_pos hc]
        rfl
      rw [List.cons_append, h, h, ih]
    · have h : ∀ u : Text, trim (c :: u) = trimEnd (c :: u) := by
        intro u
        rw [trim, trimStart, List.dropWhile_cons_of_neg hc]
      rw [List.cons_append, h, h, ← List.cons_append, trimEnd_append hw]

theorem trim_blank_append (hr : Blank r) (t : Text) : trim (r ++ t) = trim t := by
  rw [trim, trimStart_append hr]
  rfl

end Trim

end Frink.Reasoning
