import Frink.Decode.Text

/-! # Stop matching and the cuts of the text

The matcher decides at the first piece that completes a stop string, and by what has arrived until
then. What is withheld never matters to that decision: every match that is not settled yet begins
inside it.
-/

namespace Frink.Decode

/-- A stop string stands in the text at `i`. -/
def StopAt (stops : List Text) (text : Text) (i : ℕ) (s : Text) : Prop :=
  s ∈ stops ∧ s ≠ [] ∧ s <+: text.drop i

/-- The match that is reported: the leftmost, the longest of those that begin there. -/
def Reported (stops : List Text) (text : Text) (i : ℕ) (s : Text) : Prop :=
  StopAt stops text i s ∧ ∀ j t, StopAt stops text j t → i < j ∨ i = j ∧ t.length ≤ s.length

/-- No stop string lies within another unless it ends it. -/
def EndsOnly (stops : List Text) : Prop :=
  ∀ s ∈ stops, ∀ t ∈ stops, t ≠ [] → ∀ u v, s = u ++ t ++ v → v = []

section Find

variable {s text : Text} {i : ℕ}

theorem findText_leftmost (h : findText s text = some i) :
    s <+: text.drop i ∧ ∀ j < i, ¬ s <+: text.drop j := by
  induction text generalizing i with
  | nil =>
    unfold findText at h
    split at h
    · rename_i hp
      obtain rfl := Option.some.inj h
      exact ⟨List.isPrefixOf_iff_prefix.mp hp, fun j hj => absurd hj (Nat.not_lt_zero j)⟩
    · cases h
  | cons c text ih =>
    unfold findText at h
    split at h
    · rename_i hp
      obtain rfl := Option.some.inj h
      exact ⟨List.isPrefixOf_iff_prefix.mp hp, fun j hj => absurd hj (Nat.not_lt_zero j)⟩
    · rename_i hp
      obtain ⟨k, hk, rfl⟩ := Option.map_eq_some_iff.mp h
      refine ⟨(ih hk).1, fun j hj => ?_⟩
      cases j with
      | zero => exact fun hs => hp (List.isPrefixOf_iff_prefix.mpr hs)
      | succ j => exact (ih hk).2 j (Nat.lt_of_succ_lt_succ hj)

theorem findText_eq_none (h : findText s text = none) (j : ℕ) : s ≠ [] → ¬ s <+: text.drop j := by
  intro hs hp
  have hd := findText_drop hs h j
  cases hrest : text.drop j with
  | nil =>
    rw [hrest] at hp
    exact hs (List.prefix_nil.mp hp)
  | cons c rest =>
    rw [hrest, findText, if_pos (List.isPrefixOf_iff_prefix.mpr (hrest ▸ hp))] at hd
    cases hd

end Find

section Earliest

variable {stops : List Text} {text : Text} {i : ℕ} {s : Text}

theorem Reported.unique {j : ℕ} {t : Text} (hs : Reported stops text i s)
    (ht : Reported stops text j t) : i = j ∧ s = t := by
  have h₁ := hs.2 j t ht.1
  have h₂ := ht.2 i s hs.1
  obtain rfl : i = j := by omega
  have hlen : s.length = t.length := by omega
  exact ⟨rfl, (List.prefix_of_prefix_length_le hs.1.2.2 ht.1.2.2 (Nat.le_of_eq hlen)).eq_of_length hlen⟩

theorem not_stopAt_of_none (h : earliestStopMatch text stops = none) :
    ¬ StopAt stops text i s :=
  fun ⟨hs, hne, hp⟩ => findText_eq_none (earliestStopMatch_eq_none_iff.mp h s hs hne) i hne hp

theorem earliest_none_iff : earliestStopMatch text stops = none ↔
    ∀ i s, ¬ StopAt stops text i s := by
  constructor
  · exact fun h _ _ => not_stopAt_of_none h
  · intro h
    apply earliestStopMatch_eq_none_iff.mpr
    intro s hs hne
    cases hf : findText s text with
    | none => rfl
    | some i => exact absurd ⟨hs, hne, (findText_leftmost hf).1⟩ (h i s)

theorem reported_of_earliest (h : earliestStopMatch text stops = some (i, s)) :
    Reported stops text i s := by
  induction stops generalizing i s with
  | nil => cases h
  | cons t stops ih =>
    have later {j r} (hr : StopAt (t :: stops) text j r) (hj : r ≠ t) : StopAt stops text j r :=
      ⟨(List.mem_cons.mp hr.1).resolve_left hj, hr.2⟩
    have wider {j r} (hr : StopAt stops text j r) : StopAt (t :: stops) text j r :=
      ⟨List.mem_cons_of_mem t hr.1, hr.2⟩
    rw [earliestStopMatch] at h
    by_cases ht : t = []
    · subst ht
      rw [List.isEmpty_nil, if_pos rfl] at h
      obtain ⟨hs, hfirst⟩ := ih h
      exact ⟨wider hs, fun j r hr => hfirst j r (later hr hr.2.1)⟩
    · have he : t.isEmpty = false := List.isEmpty_eq_false_iff.mpr ht
      rw [he, if_neg Bool.false_ne_true] at h
      cases hf : findText t text with
      | none =>
        rw [hf] at h
        obtain ⟨hs, hfirst⟩ := ih h
        refine ⟨wider hs, fun j r hr => ?_⟩
        apply hfirst j r (later hr _)
        rintro rfl
        exact findText_eq_none hf j ht hr.2.2
      | some k =>
        obtain ⟨hk, hleft⟩ := findText_leftmost hf
        have own {j} (hr : StopAt (t :: stops) text j t) : k ≤ j :=
          Nat.le_of_not_lt fun hlt => hleft j hlt hr.2.2
        have here : StopAt (t :: stops) text k t := ⟨List.mem_cons_self, ht, hk⟩
        rw [hf] at h
        cases hbest : earliestStopMatch text stops with
        | none =>
          rw [hbest] at h
          obtain ⟨rfl, rfl⟩ := Prod.mk.inj (Option.some.inj h)
          refine ⟨here, fun j r hr => ?_⟩
          by_cases hrt : r = t
          · subst hrt
            have := own hr
            omega
          · exact absurd (later hr hrt) (not_stopAt_of_none hbest)
        | some best =>
          obtain ⟨i', s'⟩ := best
          rw [hbest] at h
          dsimp only at h
          obtain ⟨hs', hfirst⟩ := ih hbest
          have rest {j r} (hr : StopAt (t :: stops) text j r) :
              (r = t ∧ k ≤ j) ∨ i' < j ∨ i' = j ∧ r.length ≤ s'.length := by
            by_cases hrt : r = t
            · subst hrt
              exact Or.inl ⟨rfl, own hr⟩
            · exact Or.inr (hfirst j r (later hr hrt))
          split at h
          · obtain ⟨rfl, rfl⟩ := Prod.mk.inj (Option.some.inj h)
            refine ⟨wider hs', fun j r hr => ?_⟩
            obtain ⟨rfl, hj⟩ | hj := rest hr <;> omega
          · obtain ⟨rfl, rfl⟩ := Prod.mk.inj (Option.some.inj h)
            refine ⟨here, fun j r hr => ?_⟩
            obtain ⟨rfl, hj⟩ | hj := rest hr <;> omega

theorem earliest_eq_some_iff :
    earliestStopMatch text stops = some (i, s) ↔ Reported stops text i s := by
  constructor
  · exact reported_of_earliest
  · intro h
    cases hm : earliestStopMatch text stops with
    | none => exact absurd h.1 (not_stopAt_of_none hm)
    | some best =>
      obtain ⟨rfl, rfl⟩ := h.unique (reported_of_earliest hm)
      rfl

theorem StopAt.append (h : StopAt stops text i s) (more : Text) :
    StopAt stops (text ++ more) i s := by
  obtain ⟨hs, hne, hp⟩ := h
  refine ⟨hs, hne, hp.trans ?_⟩
  rw [List.drop_append]
  exact List.prefix_append _ _

theorem StopAt.length_le (h : StopAt stops text i s) : i + s.length ≤ text.length := by
  have hpos := List.length_pos_of_ne_nil h.2.1
  have hlen := h.2.2.length_le
  rw [List.length_drop] at hlen
  omega

theorem StopAt.of_append {more : Text} (h : StopAt stops (text ++ more) i s)
    (hend : i + s.length ≤ text.length) : StopAt stops text i s := by
  obtain ⟨hs, hne, hp⟩ := h
  refine ⟨hs, hne, ?_⟩
  rw [List.drop_append_of_le_length (by omega)] at hp
  apply List.prefix_of_prefix_length_le hp (List.prefix_append _ more)
  rw [List.length_drop]
  omega

/-- A match that ends later than one beside it does not begin sooner. -/
theorem StopAt.within {j : ℕ} {t : Text} (ht : StopAt stops text j t) (hs : StopAt stops text i s)
    (hji : j ≤ i) (hend : i + s.length < j + t.length) :
    ∃ u v, t = u ++ s ++ v ∧ v ≠ [] := by
  obtain ⟨k, rfl⟩ := Nat.exists_eq_add_of_le hji
  obtain ⟨rest, hrest⟩ := ht.2.2
  have hp := hs.2.2
  rw [← List.drop_drop, ← hrest, List.drop_append_of_le_length (by omega)] at hp
  obtain ⟨v, hv⟩ := List.prefix_of_prefix_length_le hp (List.prefix_append _ rest)
    (by rw [List.length_drop]; omega)
  refine ⟨t.take k, v, ?_, ?_⟩
  · rw [List.append_assoc, hv, List.take_append_drop]
  · rintro rfl
    have hlen := congrArg List.length hv
    rw [List.append_nil, List.length_drop] at hlen
    omega

theorem Reported.append (hends : EndsOnly stops) (h : Reported stops text i s) (more : Text) :
    Reported stops (text ++ more) i s := by
  refine ⟨h.1.append more, fun j t ht => ?_⟩
  by_cases hlen : j + t.length ≤ text.length
  · exact h.2 j t (ht.of_append hlen)
  · by_contra hfirst
    have hs := h.1.length_le
    obtain ⟨u, v, hw, hv⟩ := ht.within (h.1.append more) (by omega) (by omega)
    exact hv (hends t ht.1 s h.1.1 h.1.2.1 u v hw)

theorem stopAt_filter :
    StopAt (stops.filter fun s => !s.isEmpty) text i s ↔ StopAt stops text i s := by
  constructor
  · exact fun ⟨hs, h⟩ => ⟨(List.mem_filter.mp hs).1, h⟩
  · rintro ⟨hs, hne, h⟩
    exact ⟨List.mem_filter.mpr ⟨hs, by simp [hne]⟩, hne, h⟩

theorem reported_filter :
    Reported (stops.filter fun s => !s.isEmpty) text i s ↔ Reported stops text i s := by
  simp only [Reported, stopAt_filter]

end Earliest

/-- A search downwards stops at the largest. -/
theorem le_find_down {p : ℕ → Bool} {n k : ℕ} (hpos : 0 < k) (hk : k ≤ n) (hp : p k = true) :
    k ≤ (((List.range n).reverse.map (· + 1)).find? p).getD 0 := by
  induction n with
  | zero => omega
  | succ n ih =>
    rw [List.range_succ, List.reverse_append, List.reverse_singleton, List.singleton_append,
      List.map_cons, List.find?_cons]
    split
    · exact hk
    · rename_i hn
      apply ih
      obtain h | rfl : k ≤ n ∨ k = n + 1 := by omega
      · exact h
      · rw [hp] at hn
        cases hn

/-- A tail that may still become a stop string is held back. -/
theorem le_holdback {text : Text} {stops : List Text} {i : ℕ} {s : Text} (hs : s ∈ stops)
    (hp : text.drop i <+: s) (hlt : text.length - i < s.length) :
    text.length - i ≤ stopPrefixHoldback text stops := by
  have hmax : s.length - 1 ≤ (stops.map fun s => s.length - 1).foldr max 0 := by
    clear hp
    induction stops with
    | nil => cases hs
    | cons t stops ih =>
      rw [List.map_cons, List.foldr_cons]
      obtain rfl | hs := List.mem_cons.mp hs
      · exact Nat.le_max_left _ _
      · exact Nat.le_trans (ih hs) (Nat.le_max_right _ _)
  obtain hz | hpos := Nat.eq_zero_or_pos (text.length - i)
  · rw [hz]
    exact Nat.zero_le _
  · apply le_find_down hpos
    · exact Nat.le_min.mpr ⟨by omega, Nat.sub_le _ _⟩
    · apply List.any_eq_true.mpr
      refine ⟨s, hs, ?_⟩
      rw [Nat.sub_sub_self (by omega), List.isPrefixOf_iff_prefix.mpr hp, Bool.and_true]
      exact decide_eq_true hlt

namespace StopMatcher

variable {m : StopMatcher} {out seen piece : Text}

/-- Pieces go in until a stop string matches; what is withheld follows when none does. -/
def deliver (m : StopMatcher) : List Text → Text × Option Text
  | [] => (m.flush.1, none)
  | piece :: pieces =>
      match m.push piece with
      | (.matched text stop, _) => (text, some stop)
      | (.emit text, m) => ((text ++ (m.deliver pieces).1), (m.deliver pieces).2)

/-- Of what was seen `out` is delivered, and no stop string can begin in it any more. -/
structure Holds (m : StopMatcher) (out seen : Text) : Prop where

  seen_eq : seen = out ++ m.pending
  unmatched : ∀ i s, ¬ StopAt m.stops seen i s
  withheld : ∀ s ∈ m.stops, ∀ i < out.length, ¬ seen.drop i <+: s
  idle : m.stops = [] → m.pending = []

theorem holds_new (stops : List Text) (stopTokens : List ℕ) :
    (StopMatcher.new stops stopTokens).Holds [] [] where

  seen_eq := rfl
  unmatched _ _ h := by
    have hlen := h.length_le
    have hpos := List.length_pos_of_ne_nil h.2.1
    rw [List.length_nil] at hlen
    omega
  withheld _ _ i hi := absurd hi (Nat.not_lt_zero i)
  idle _ := rfl

namespace Holds

/-- No match of what has been seen begins in what is delivered. -/
theorem out_le (h : m.Holds out seen) {i : ℕ} {s : Text} (hs : StopAt m.stops (seen ++ piece) i s) :
    out.length ≤ i := by
  by_contra hi
  have hlen : i ≤ seen.length := by
    have := congrArg List.length h.seen_eq
    rw [List.length_append] at this
    omega
  have hp := hs.2.2
  rw [List.drop_append_of_le_length hlen] at hp
  obtain hp | hp := List.prefix_or_prefix_of_prefix hp (List.prefix_append (seen.drop i) piece)
  · exact h.unmatched i s ⟨hs.1, hs.2.1, hp⟩
  · exact h.withheld s hs.1 i (Nat.lt_of_not_le hi) hp

/-- Matches of all that was seen are those of what is withheld. -/
theorem stopAt_iff (h : m.Holds out seen) {i : ℕ} {s : Text} :
    StopAt m.stops (seen ++ piece) (out.length + i) s ↔
      StopAt m.stops (m.pending ++ piece) i s := by
  rw [StopAt, StopAt, h.seen_eq, List.append_assoc, List.drop_length_add_append]

theorem reported_iff (h : m.Holds out seen) {i : ℕ} {s : Text} :
    Reported m.stops (seen ++ piece) (out.length + i) s ↔
      Reported m.stops (m.pending ++ piece) i s := by
  constructor
  · rintro ⟨hs, hfirst⟩
    refine ⟨h.stopAt_iff.mp hs, fun j t ht => ?_⟩
    have := hfirst _ t (h.stopAt_iff.mpr ht)
    omega
  · rintro ⟨hs, hfirst⟩
    refine ⟨h.stopAt_iff.mpr hs, fun j t ht => ?_⟩
    obtain ⟨k, rfl⟩ := Nat.exists_eq_add_of_le (h.out_le ht)
    have := hfirst k t (h.stopAt_iff.mp ht)
    omega

/-- A piece that completes a stop string ends the answer there. -/
theorem push_matched (h : m.Holds out seen) {i : ℕ} {s : Text}
    (hs : Reported m.stops (seen ++ piece) i s) :
    ∃ text m', m.push piece = (.matched text s, m') ∧ out ++ text = (seen ++ piece).take i := by
  obtain ⟨k, rfl⟩ := Nat.exists_eq_add_of_le (h.out_le hs.1)
  have hm := earliest_eq_some_iff.mpr (h.reported_iff.mp hs)
  have hsome : m.stops.isEmpty = false :=
    List.isEmpty_eq_false_iff.mpr (List.ne_nil_of_mem hs.1.1)
  refine ⟨(m.pending ++ piece).take k, { m with pending := [] }, ?_, ?_⟩
  · rw [push, hsome, if_neg Bool.false_ne_true]
    dsimp only
    rw [hm]
  · rw [h.seen_eq, List.append_assoc, List.take_length_add_append]

/-- A piece after which nothing matches releases all that can no longer begin a match. -/
theorem push_unmatched (h : m.Holds out seen)
    (hnone : ∀ i s, ¬ StopAt m.stops (seen ++ piece) i s) :
    ∃ text m', m.push piece = (.emit text, m') ∧ m'.stops = m.stops ∧
      m'.Holds (out ++ text) (seen ++ piece) := by
  obtain hstops | hstops := Decidable.em (m.stops = [])
  · have hpending := h.idle hstops
    refine ⟨piece, m, ?_, rfl, ?_⟩
    · rw [push, hstops, List.isEmpty_nil, if_pos rfl]
    · constructor
      · rw [h.seen_eq, hpending, List.append_nil, List.append_nil]
      · exact hnone
      · intro s hs
        rw [hstops] at hs
        cases hs
      · exact fun _ => hpending
  · have hsome : m.stops.isEmpty = false := List.isEmpty_eq_false_iff.mpr hstops
    have hm : earliestStopMatch (m.pending ++ piece) m.stops = none :=
      earliest_none_iff.mpr fun i s hs => hnone _ s (h.stopAt_iff.mpr hs)
    generalize hsplit : (m.pending ++ piece).length -
      stopPrefixHoldback (m.pending ++ piece) m.stops = split
    refine ⟨(m.pending ++ piece).take split,
      { m with pending := (m.pending ++ piece).drop split }, ?_, rfl, ?_⟩
    · rw [push, hsome, if_neg Bool.false_ne_true]
      dsimp only
      rw [hm, hsplit]
    · constructor
      · rw [List.append_assoc, List.take_append_drop, h.seen_eq, List.append_assoc]
      · exact hnone
      · intro s hs i hi hp
        rw [List.length_append, List.length_take] at hi
        obtain hout | hout := Nat.lt_or_ge i out.length
        · have hlen := congrArg List.length h.seen_eq
          rw [List.length_append] at hlen
          rw [List.drop_append_of_le_length (by omega)] at hp
          exact h.withheld s hs i hout ((List.prefix_append _ piece).trans hp)
        · obtain ⟨k, rfl⟩ := Nat.exists_eq_add_of_le hout
          rw [h.seen_eq, List.append_assoc, List.drop_length_add_append] at hp
          obtain hlt | hge := Nat.lt_or_ge ((m.pending ++ piece).length - k) s.length
          · have hle : _ ≤ stopPrefixHoldback (m.pending ++ piece) m.stops := le_holdback hs hp hlt
            omega
          · have hlen := List.length_drop (i := k) (l := m.pending ++ piece)
            have heq := hp.eq_of_length (Nat.le_antisymm hp.length_le (by omega))
            apply hnone (out.length + k) s
            apply h.stopAt_iff.mpr
            refine ⟨hs, ?_, heq ▸ List.prefix_refl _⟩
            apply List.ne_nil_of_length_pos
            rw [← heq]
            omega
      · exact fun hs => absurd hs hstops

/-- The answer is cut at the match some first pieces already show, or nowhere. -/
theorem deliver_spec (h : m.Holds out seen) (pieces : List Text) :
    (∃ arrived, arrived <+: pieces.flatten ∧ ∃ i s, Reported m.stops (seen ++ arrived) i s ∧
      (m.deliver pieces).2 = some s ∧
      out ++ (m.deliver pieces).1 = (seen ++ arrived).take i) ∨
    ((∀ i s, ¬ StopAt m.stops (seen ++ pieces.flatten) i s) ∧ (m.deliver pieces).2 = none ∧
      out ++ (m.deliver pieces).1 = seen ++ pieces.flatten) := by
  induction pieces generalizing m out seen with
  | nil =>
    right
    rw [List.flatten_nil, List.append_nil]
    exact ⟨h.unmatched, rfl, h.seen_eq.symm⟩
  | cons piece pieces ih =>
    rw [List.flatten_cons]
    cases hm : earliestStopMatch (seen ++ piece) m.stops with
    | some best =>
      obtain ⟨i, s⟩ := best
      have hr := reported_of_earliest hm
      obtain ⟨text, m', hpush, htext⟩ := h.push_matched hr
      left
      refine ⟨piece, List.prefix_append _ _, i, s, hr, ?_, ?_⟩
      · rw [deliver, hpush]
      · rw [deliver, hpush]
        exact htext
    | none =>
      obtain ⟨text, m', hpush, hstops, h'⟩ := h.push_unmatched (earliest_none_iff.mp hm)
      rw [deliver, hpush]
      dsimp only
      rw [← List.append_assoc, ← List.append_assoc, ← hstops]
      obtain ⟨arrived, hp, i, s, hr, hs, htext⟩ | hrest := ih h'
      · left
        refine ⟨piece ++ arrived, ?_, i, s, ?_, hs, ?_⟩
        · exact (List.prefix_append_right_inj piece).mpr hp
        · rwa [← List.append_assoc]
        · rw [htext, List.append_assoc]
      · exact Or.inr hrest

end Holds

variable {stops : List Text}

/-- What a matcher that saw the whole text at once would deliver. -/
def atOnce (stops : List Text) (text : Text) : Text × Option Text :=
  match earliestStopMatch text stops with
  | some (cut, stop) => (text.take cut, some stop)
  | none => (text, none)

theorem deliver_eq_atOnce (stopTokens : List ℕ) (hends : EndsOnly stops) (pieces : List Text) :
    (StopMatcher.new stops stopTokens).deliver pieces = atOnce stops pieces.flatten := by
  rw [atOnce]
  obtain ⟨arrived, ⟨more, hmore⟩, i, s, hr, hs, htext⟩ | ⟨hnone, hs, htext⟩ :=
    (holds_new stops stopTokens).deliver_spec pieces
  · rw [List.nil_append] at hr htext
    rw [← hmore, earliest_eq_some_iff.mpr ((reported_filter.mp hr).append hends more)]
    have hlen := hr.1.length_le
    dsimp only
    rw [List.take_append_of_le_length (by omega)]
    exact Prod.ext htext hs
  · have hnone' := earliest_none_iff.mpr fun i s hs => hnone i s (stopAt_filter.mpr hs)
    rw [List.nil_append] at hnone'
    rw [hnone']
    exact Prod.ext htext hs

/-- A first piece that shows a match decides which stop string is reported. -/
theorem deliver_of_stopAt (stopTokens : List ℕ) {piece : Text} {j : ℕ} {t : Text}
    (ht : StopAt stops piece j t) (pieces : List Text) :
    ∃ i s, Reported stops piece i s ∧
      ((StopMatcher.new stops stopTokens).deliver (piece :: pieces)).2 = some s := by
  cases hm : earliestStopMatch piece stops with
  | none => exact absurd ht (not_stopAt_of_none hm)
  | some best =>
    obtain ⟨i, s⟩ := best
    have hr := reported_of_earliest hm
    obtain ⟨text, m', hpush, -⟩ :=
      (holds_new stops stopTokens).push_matched (reported_filter.mpr hr)
    refine ⟨i, s, hr, ?_⟩
    rw [deliver, hpush]

/-- The cuts of the text never matter exactly when no stop string lies within another one, except
at its end. -/
theorem stop_cuts_agree_iff (stops : List Text) (stopTokens : List ℕ) :
    (∀ pieces pieces' : List Text, pieces.flatten = pieces'.flatten →
      (StopMatcher.new stops stopTokens).deliver pieces =
        (StopMatcher.new stops stopTokens).deliver pieces') ↔ EndsOnly stops := by
  constructor
  · intro h s hs t ht hne u v hw
    by_contra hv
    have hpos := List.length_pos_of_ne_nil hv
    have hlen := congrArg List.length hw
    rw [List.length_append] at hlen
    have hwhole : StopAt stops s 0 s := by
      refine ⟨hs, ?_, List.prefix_refl _⟩
      rintro rfl
      rw [List.length_nil] at hlen
      omega
    have hpart : StopAt stops (u ++ t) u.length t := by
      refine ⟨ht, hne, ?_⟩
      exact List.drop_left.symm ▸ List.prefix_refl t
    obtain ⟨i, r, hr, hstop⟩ := deliver_of_stopAt stopTokens hpart [v]
    obtain ⟨i', r', hr', hstop'⟩ := deliver_of_stopAt stopTokens hwhole []
    have heq := h [u ++ t, v] [s] (by simp [hw])
    rw [heq, hstop'] at hstop
    obtain rfl := Option.some.inj hstop
    have hshort := hr.1.length_le
    have hlong := hr'.2 0 s hwhole
    omega
  · intro hends pieces pieces' heq
    rw [deliver_eq_atOnce stopTokens hends, deliver_eq_atOnce stopTokens hends, heq]

theorem stop_cuts_differ : ¬ ∀ (stops : List Text) (stopTokens : List ℕ)
    (pieces pieces' : List Text), pieces.flatten = pieces'.flatten →
    (StopMatcher.new stops stopTokens).deliver pieces =
      (StopMatcher.new stops stopTokens).deliver pieces' := by
  intro h
  have := h ["abc".toList, "b".toList] [] ["abc".toList] ["ab".toList, "c".toList] rfl
  revert this
  decide

end StopMatcher

end Frink.Decode
