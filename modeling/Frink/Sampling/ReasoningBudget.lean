import Mathlib

/-! # The reasoning budget

A machine watches the accepted tokens for an opener, counts the tokens behind it, and
forces the closer once the budget is spent and the last character is whole. Two matchers
keep a window of the last tokens each; a window is as good as everything fed since the
last match.
-/

namespace Frink.Sampling

structure ReasoningBudgetPlan where
  startSeqs : List (List ℕ)
  endSeqs : List (List ℕ)
  forced : List ℕ
  budget : ℕ
  prefill : List ℕ

inductive BudgetState where
  | idle
  | counting
  | waitingUtf8
  | forcing
  | done
  deriving DecidableEq, Repr

/-- The last of the largest. -/
def maxByKey {α : Type} (key : α → ℕ) (xs : List α) : Option α :=
  xs.foldl (fun best x => match best with
    | none => some x
    | some b => if key b ≤ key x then some x else some b) none

structure SeqMatcher where
  seqs : List (List ℕ)
  window : List ℕ
  longest : ℕ

namespace SeqMatcher

/-- Empty sequences and duplicates are dropped. -/
def keep (kept : List (List ℕ)) (seq : List ℕ) : List (List ℕ) :=
  if seq ≠ [] ∧ seq ∉ kept then kept ++ [seq] else kept

def new (seqs : List (List ℕ)) : SeqMatcher :=
  let kept := seqs.foldl keep []
  { seqs := kept, window := [], longest := (kept.map List.length).foldl max 0 }

def reset (m : SeqMatcher) : SeqMatcher := { m with window := [] }

/-- The sequence is what the window ends with. -/
def endsWindow (window seq : List ℕ) : Bool :=
  seq.length ≤ window.length && window.drop (window.length - seq.length) == seq

/-- Feeds one token; the index of the longest sequence ending here. -/
def advance (m : SeqMatcher) (token : ℕ) : Option ℕ × SeqMatcher :=
  if m.longest = 0 then (none, m)
  else
    let window := (if m.window.length = m.longest then m.window.tail else m.window) ++ [token]
    let hit := (maxByKey (fun x => x.1.length)
      (m.seqs.zipIdx.filter fun x => endsWindow window x.1)).map Prod.snd
    if hit.isSome then (hit, reset { m with window }) else (hit, { m with window })

end SeqMatcher

structure ReasoningBudget where
  startMatcher : SeqMatcher
  endMatcher : SeqMatcher
  forced : List ℕ
  budget : ℕ
  remaining : ℕ
  state : BudgetState
  forcePos : ℕ

namespace ReasoningBudget

/-- The token the next draw must produce, when the machine is forcing. -/
def forcedToken (m : ReasoningBudget) : Option ℕ :=
  match m.state with
  | .forcing => m.forced[m.forcePos]?
  | _ => none

def arm (m : ReasoningBudget) : ReasoningBudget :=
  let m := { m with state := .counting, remaining := m.budget, endMatcher := m.endMatcher.reset }
  if m.remaining = 0 then { m with state := .forcing, forcePos := 0 } else m

def force (m : ReasoningBudget) : ReasoningBudget :=
  { m with state := .forcing, forcePos := 0, endMatcher := m.endMatcher.reset }

/-- A token that was accepted inside the block. -/
def acceptInside (m : ReasoningBudget) (token : ℕ) (pieceComplete : Bool) : ReasoningBudget :=
  let (hit, endMatcher) := m.endMatcher.advance token
  let m := { m with endMatcher }
  if hit.isSome then { m with state := .done }
  else if m.state = .waitingUtf8 then
    if pieceComplete then m.force else m
  else
    let m := { m with remaining := m.remaining - 1 }
    if m.remaining = 0 then
      if pieceComplete then m.force
      else { m with state := .waitingUtf8, endMatcher := m.endMatcher.reset }
    else m

def acceptForcing (m : ReasoningBudget) (token : ℕ) : ReasoningBudget :=
  let m := { m with endMatcher := (m.endMatcher.advance token).2 }
  let m := { m with forcePos := if m.forced[m.forcePos]? = some token then m.forcePos + 1 else 0 }
  if m.forced.length ≤ m.forcePos then { m with state := .done } else m

/-- The token that was just sampled, and whether its piece ends with a whole character. -/
def accept (m : ReasoningBudget) (token : ℕ) (pieceComplete : Bool) : ReasoningBudget :=
  match m.state with
  | .idle | .done =>
      let (hit, startMatcher) := m.startMatcher.advance token
      let m := { m with startMatcher }
      if hit.isSome then m.arm else m
  | .counting | .waitingUtf8 => m.acceptInside token pieceComplete
  | .forcing => m.acceptForcing token

/-- A machine that has accepted nothing. -/
def unfed (plan : ReasoningBudgetPlan) : ReasoningBudget :=
  { startMatcher := .new plan.startSeqs
    endMatcher := .new plan.endSeqs
    forced := plan.forced
    budget := plan.budget
    remaining := plan.budget
    state := .idle
    forcePos := 0 }

/-- The prompt's tokens are whole characters. -/
def new (plan : ReasoningBudgetPlan) : ReasoningBudget :=
  plan.prefill.foldl (fun m token => m.accept token true) (unfed plan)

end ReasoningBudget

/-- A listed sequence ends here. -/
def EndsHere (seqs : List (List ℕ)) (ts : List ℕ) : Prop := ∃ s ∈ seqs, s ≠ [] ∧ s <:+ ts

/-- No listed sequence has ended so far. -/
def Quiet (seqs : List (List ℕ)) (ts : List ℕ) : Prop :=
  ∀ n ≤ ts.length, ¬ EndsHere seqs (ts.take n)

/-- A listed sequence ends here for the first time. -/
def FirstEnd (seqs : List (List ℕ)) (ts : List ℕ) : Prop :=
  EndsHere seqs ts ∧ ∀ n < ts.length, ¬ EndsHere seqs (ts.take n)

instance (seqs : List (List ℕ)) (ts : List ℕ) : Decidable (EndsHere seqs ts) :=
  inferInstanceAs (Decidable (∃ s ∈ seqs, s ≠ [] ∧ s <:+ ts))

instance (seqs : List (List ℕ)) (ts : List ℕ) : Decidable (FirstEnd seqs ts) :=
  inferInstanceAs (Decidable (_ ∧ ∀ n < ts.length, ¬ EndsHere seqs (ts.take n)))

section Matcher

variable {seqs : List (List ℕ)} {ts : List ℕ} {m : SeqMatcher} {token : ℕ} {s : List ℕ}

theorem quiet_nil (seqs : List (List ℕ)) : Quiet seqs [] := by
  rintro n - ⟨s, -, hne, hsuffix⟩
  rw [List.take_nil, List.suffix_nil] at hsuffix
  exact hne hsuffix

theorem Quiet.concat (h : Quiet seqs ts) (hnot : ¬ EndsHere seqs (ts ++ [token])) :
    Quiet seqs (ts ++ [token]) := by
  intro n hn
  rw [List.length_append, List.length_singleton] at hn
  rcases Nat.eq_or_lt_of_le hn with rfl | hlt
  · rw [List.take_of_length_le (by simp)]
    exact hnot
  · rw [List.take_append_of_le_length (by omega)]
    exact h n (by omega)

theorem Quiet.first (h : Quiet seqs ts) (hends : EndsHere seqs (ts ++ [token])) :
    FirstEnd seqs (ts ++ [token]) := by
  use hends
  intro n hn
  rw [List.length_append, List.length_singleton] at hn
  rw [List.take_append_of_le_length (by omega)]
  exact h n (by omega)

theorem mem_keep {kept : List (List ℕ)} {seq : List ℕ} :
    s ∈ SeqMatcher.keep kept seq ↔ s ∈ kept ∨ s = seq ∧ seq ≠ [] := by
  unfold SeqMatcher.keep
  split
  · rename_i h
    rw [List.mem_append, List.mem_singleton]
    exact or_congr_right ⟨fun he => ⟨he, h.1⟩, And.left⟩
  · rename_i h
    rw [not_and, not_not] at h
    constructor
    · exact Or.inl
    · rintro (hs | ⟨rfl, hne⟩)
      · exact hs
      · exact h hne

theorem mem_seqs_new : s ∈ (SeqMatcher.new seqs).seqs ↔ s ∈ seqs ∧ s ≠ [] := by
  have hfold : ∀ kept : List (List ℕ),
      s ∈ seqs.foldl SeqMatcher.keep kept ↔ s ∈ kept ∨ s ∈ seqs ∧ s ≠ [] := by
    induction seqs with
    | nil => simp
    | cons seq seqs ih =>
      intro kept
      rw [List.foldl_cons, ih, mem_keep, List.mem_cons]
      grind
  rw [SeqMatcher.new, hfold]
  simp

theorem le_foldl_max {xs : List ℕ} {n : ℕ} (init : ℕ) (h : n ≤ init ∨ n ∈ xs) :
    n ≤ xs.foldl max init := by
  induction xs generalizing init with
  | nil => simpa using h
  | cons x xs ih =>
    apply ih
    rcases h with h | h
    · exact .inl (by omega)
    · rcases List.mem_cons.mp h with rfl | h
      · exact .inl (Nat.le_max_right _ _)
      · exact .inr h

theorem foldl_max_pos {xs : List ℕ} (h : ∀ x ∈ xs, 0 < x) :
    xs.foldl max 0 = 0 ↔ xs = [] := by
  constructor
  · intro hz
    cases xs with
    | nil => rfl
    | cons x xs =>
      have hle : x ≤ (x :: xs).foldl max 0 := le_foldl_max 0 (.inr List.mem_cons_self)
      have := h x List.mem_cons_self
      omega
  · rintro rfl
    rfl

/-- The largest is among the elements, and none is larger. -/
theorem maxByKey_spec {α : Type} (key : α → ℕ) (xs : List α) :
    (maxByKey key xs = none ↔ xs = []) ∧
      ∀ x, maxByKey key xs = some x → x ∈ xs ∧ ∀ y ∈ xs, key y ≤ key x := by
  induction xs using List.reverseRecOn with
  | nil => simp [maxByKey]
  | append_singleton xs x ih =>
    obtain ⟨hnone, hsome⟩ := ih
    unfold maxByKey at hnone hsome ⊢
    rw [List.foldl_append, List.foldl_cons, List.foldl_nil]
    split
    · rename_i hbest
      rw [hnone.mp hbest]
      simp
    · rename_i b hbest
      obtain ⟨hb, hmax⟩ := hsome b hbest
      split
      · rename_i hle
        refine ⟨by simp, ?_⟩
        rintro y ⟨⟩
        refine ⟨by simp, ?_⟩
        intro z hz
        rcases List.mem_append.mp hz with hz | hz
        · exact Nat.le_trans (hmax z hz) hle
        · exact Nat.le_of_eq (congrArg key (List.mem_singleton.mp hz))
      · rename_i hlt
        refine ⟨by simp, ?_⟩
        rintro y ⟨⟩
        refine ⟨List.mem_append_left _ hb, ?_⟩
        intro z hz
        rcases List.mem_append.mp hz with hz | hz
        · exact hmax z hz
        · rw [List.mem_singleton.mp hz]
          omega

theorem endsWindow_iff {window seq : List ℕ} :
    SeqMatcher.endsWindow window seq = true ↔ seq <:+ window := by
  unfold SeqMatcher.endsWindow
  rw [Bool.and_eq_true, decide_eq_true_eq, beq_iff_eq]
  constructor
  · rintro ⟨-, h⟩
    exact h ▸ List.drop_suffix _ _
  · intro h
    exact ⟨h.length_le, (List.suffix_iff_eq_drop.mp h).symm⟩

/-- The matcher lists the sequences and has been fed the tokens since it was reset. -/
structure SeqMatcher.Watches (m : SeqMatcher) (seqs : List (List ℕ)) (ts : List ℕ) : Prop where

  seqs : ∀ s, s ∈ m.seqs ↔ s ∈ seqs ∧ s ≠ []
  longest : ∀ s ∈ m.seqs, s.length ≤ m.longest
  empty : m.longest = 0 → m.seqs = []
  window : m.longest ≠ 0 → m.window = ts.drop (ts.length - m.longest)

theorem watches_new (seqs : List (List ℕ)) : (SeqMatcher.new seqs).Watches seqs [] := by
  constructor
  · exact fun s => mem_seqs_new
  · intro s hs
    exact le_foldl_max 0 (.inr (List.mem_map_of_mem hs))
  · intro hz
    have hpos : ∀ n ∈ (SeqMatcher.new seqs).seqs.map List.length, 0 < n := by
      intro n hn
      obtain ⟨s, hs, rfl⟩ := List.mem_map.mp hn
      exact List.length_pos_of_ne_nil (mem_seqs_new.mp hs).2
    exact List.map_eq_nil_iff.mp ((foldl_max_pos hpos).mp hz)
  · intro _
    rw [List.drop_nil]
    rfl

theorem SeqMatcher.Watches.reset (h : m.Watches seqs ts) : m.reset.Watches seqs [] :=
  ⟨h.seqs, h.longest, h.empty, fun _ => List.drop_nil.symm⟩

/-- The window after a token is the end of everything fed. -/
theorem SeqMatcher.Watches.fed (h : m.Watches seqs ts) (hne : m.longest ≠ 0) :
    (if m.window.length = m.longest then m.window.tail else m.window) ++ [token] =
      (ts ++ [token]).drop ((ts ++ [token]).length - m.longest) := by
  have hwindow := h.window hne
  rw [hwindow, List.length_drop, List.length_append, List.length_singleton]
  split
  · rw [List.tail_drop, List.drop_append_of_le_length (by omega)]
    congr 2
    omega
  · have hzero : ts.length - m.longest = 0 := by omega
    have hzero' : ts.length + 1 - m.longest = 0 := by omega
    rw [hzero, hzero', List.drop_zero, List.drop_zero]

/-- What the window ends with is what everything fed ends with. -/
theorem SeqMatcher.Watches.suffix_iff (h : m.Watches seqs ts) (hs : s ∈ m.seqs) (us : List ℕ) :
    s <:+ us.drop (us.length - m.longest) ↔ s <:+ us := by
  constructor
  · exact fun hsuffix => hsuffix.trans (List.drop_suffix _ _)
  · intro hsuffix
    apply List.suffix_of_suffix_length_le hsuffix (List.drop_suffix _ _)
    have := h.longest s hs
    have := hsuffix.length_le
    rw [List.length_drop]
    omega

/-- The sequences that end here, with their indices. -/
def SeqMatcher.hits (m : SeqMatcher) (us : List ℕ) : List (List ℕ × ℕ) :=
  m.seqs.zipIdx.filter fun x => endsWindow (us.drop (us.length - m.longest)) x.1

theorem SeqMatcher.Watches.mem_hits (h : m.Watches seqs ts) {x : List ℕ × ℕ} {us : List ℕ} :
    x ∈ m.hits us ↔ m.seqs[x.2]? = some x.1 ∧ x.1 <:+ us := by
  rw [SeqMatcher.hits, List.mem_filter, endsWindow_iff, List.mem_zipIdx_iff_getElem?]
  apply and_congr_right
  intro hx
  exact h.suffix_iff (List.mem_of_getElem? hx) us

theorem SeqMatcher.Watches.advance_eq (h : m.Watches seqs ts) (hne : m.longest ≠ 0) :
    m.advance token =
      let hit := (maxByKey (fun x => x.1.length) (m.hits (ts ++ [token]))).map Prod.snd
      let window := (ts ++ [token]).drop ((ts ++ [token]).length - m.longest)
      if hit.isSome then (hit, SeqMatcher.reset { m with window })
      else (hit, { m with window }) := by
  rw [SeqMatcher.advance, if_neg hne]
  dsimp only
  rw [h.fed hne]
  rfl

/-- A matcher recognises a sequence exactly where one ends, and starts over there. -/
theorem SeqMatcher.Watches.advance (h : m.Watches seqs ts) (token : ℕ) :
    ((m.advance token).1.isSome = true ↔ EndsHere seqs (ts ++ [token])) ∧
      (m.advance token).2.Watches seqs
        (if (m.advance token).1.isSome = true then [] else ts ++ [token]) := by
  by_cases hne : m.longest = 0
  · rw [SeqMatcher.advance, if_pos hne]
    constructor
    · refine iff_of_false nofun ?_
      rintro ⟨s, hs, hnil, -⟩
      have := (h.seqs s).mpr ⟨hs, hnil⟩
      rw [h.empty hne] at this
      cases this
    · exact ⟨h.seqs, h.longest, h.empty, fun hpos => absurd hne hpos⟩
  · obtain ⟨hnone, hsome⟩ := maxByKey_spec (fun x => x.1.length) (m.hits (ts ++ [token]))
    rw [h.advance_eq hne]
    cases hmax : maxByKey (fun x => x.1.length) (m.hits (ts ++ [token])) with
    | none =>
      constructor
      · refine iff_of_false nofun ?_
        rintro ⟨s, hmem, hnil, hsuffix⟩
        obtain ⟨k, hk⟩ := List.mem_iff_getElem?.mp ((h.seqs s).mpr ⟨hmem, hnil⟩)
        have hx : (s, k) ∈ m.hits (ts ++ [token]) := h.mem_hits.mpr ⟨hk, hsuffix⟩
        rw [hnone.mp hmax] at hx
        cases hx
      · exact ⟨h.seqs, h.longest, h.empty, fun _ => rfl⟩
    | some x =>
      obtain ⟨hget, hsuffix⟩ := h.mem_hits.mp (hsome x hmax).1
      obtain ⟨hmem, hnil⟩ := (h.seqs _).mp (List.mem_of_getElem? hget)
      constructor
      · exact iff_of_true rfl ⟨x.1, hmem, hnil, hsuffix⟩
      · exact ⟨h.seqs, h.longest, h.empty, fun _ => List.drop_nil.symm⟩

end Matcher

end Frink.Sampling
