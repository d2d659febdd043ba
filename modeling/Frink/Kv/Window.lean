import Mathlib

/-! # The windowed KV cache

A contiguous cache that drops the rows behind a sliding window in blocks. What it holds is
always the end of what an unwindowed cache would hold, at least the window the next query
reads, and enough beyond it to undo a bounded number of the positions written since.
-/

namespace Frink.Kv

def USIZE_MAX : ℕ := 2 ^ 64 - 1

/-- A drain takes the cache from `window + slack` rows down to `window + reserve`. -/
structure KvWindow where
  window : ℕ
  slack : ℕ
  reserve : ℕ
  window_pos : 0 < window
  reserve_le : reserve ≤ slack

namespace KvWindow

def new (window slack : ℕ) : Option KvWindow :=
  if h : 0 < window then some ⟨window, slack, 0, h, Nat.zero_le _⟩ else none

def withReserve (w : KvWindow) (reserve : ℕ) : Option KvWindow :=
  if h : reserve ≤ w.slack then some { w with reserve := reserve, reserve_le := h } else none

variable (w : KvWindow)

def rowsNeededAt (positions : ℕ) : ℕ := min positions (w.window - 1)

def maxRollback : ℕ := w.reserve + 1

/-- Rows resident once a holder that evicts at every step has consumed `positions`. -/
def rowsAfter (positions : ℕ) : ℕ :=
  let peak := w.window + w.slack
  if positions ≤ peak then positions
  else
    let floor := w.window + w.reserve
    floor + (positions - peak - 1) % (peak - floor + 1)

theorem rowsAfter_ge (positions : ℕ) :
    min positions (w.window + w.reserve) ≤ w.rowsAfter positions := by
  unfold rowsAfter
  dsimp only
  split
  · exact min_le_left _ _
  · exact (min_le_right _ _).trans (Nat.le_add_right _ _)

end KvWindow

/-- One row of `k` and of `v` per resident position; `recurrent` says whether the cache
carries a recurrent layer's state. -/
structure KvCache (α β : Type*) where
  k : List α
  v : List β
  positions : ℕ
  window : Option KvWindow
  evictionForbidden : Bool
  recurrent : Bool

namespace KvCache

variable {α β : Type*} (c : KvCache α β)

def new : KvCache α β := ⟨[], [], 0, none, false, false⟩

def rows : ℕ := c.k.length

/-- Append one position; a pool that is exhausted appends nothing. -/
def push (kStep : α) (vStep : β) : KvCache α β :=
  { c with k := c.k ++ [kStep], v := c.v ++ [vStep], positions := c.positions + 1 }

def canTruncateTo (newSeqLen : ℕ) : Bool :=
  if c.positions < newSeqLen then false
  else
    let recurrentOk := !c.recurrent || newSeqLen == 0 || newSeqLen == c.positions
    let dropped := c.positions - newSeqLen
    let windowOk := match c.window with
      | none => true
      | some w => decide (dropped ≤ c.rows) &&
          (newSeqLen == 0 || decide (w.rowsNeededAt newSeqLen ≤ c.rows - dropped))
    recurrentOk && windowOk

/-- How many positions written from now on a truncate is sure to be able to undo. -/
def rollbackLimit : ℕ :=
  if c.recurrent then 0
  else match c.window with
    | none => USIZE_MAX
    | some w => w.maxRollback

/-- Roll back to `newSeqLen` positions; `none` where the code asserts that it can. -/
def truncate (newSeqLen : ℕ) : Option (KvCache α β) :=
  if c.canTruncateTo newSeqLen then
    let keepRows := c.rows - (c.positions - newSeqLen)
    some { c with
      k := c.k.take keepRows
      v := c.v.take keepRows
      positions := newSeqLen
      recurrent := if newSeqLen = 0 then false else c.recurrent }
  else none

def armWindow (w : KvWindow) : KvCache α β :=
  if c.evictionForbidden then c else { c with window := some w }

/-- Drop the rows behind the window, and say how many went. -/
def evictBehindWindow : KvCache α β × ℕ :=
  match c.window with
  | none => (c, 0)
  | some w =>
      let keep := min (w.rowsAfter c.positions) c.rows
      let dropRows := c.rows - keep
      ({ c with k := c.k.drop dropRows, v := c.v.drop dropRows }, dropRows)

/-- A cache that keeps every row it was pushed. -/
structure Plain (u : KvCache α β) : Prop where
  k_length : u.k.length = u.positions
  v_length : u.v.length = u.positions
  window : u.window = none
  attention : u.recurrent = false
  evictable : u.evictionForbidden = false

/-- A windowed cache and an unwindowed one after the same pushes and truncates, the window
armed once on a cache that had kept every row. -/
inductive Runs (w : KvWindow) : KvCache α β → KvCache α β → Prop
  | arm {u : KvCache α β} : Plain u → Runs w (u.armWindow w) u
  | push {c u : KvCache α β} (kStep : α) (vStep : β) : Runs w c u →
      Runs w (c.push kStep vStep) (u.push kStep vStep)
  | evict {c u : KvCache α β} : Runs w c u → Runs w c.evictBehindWindow.1 u
  | truncate {c c' u u' : KvCache α β} {n : ℕ} : Runs w c u → c.canTruncateTo n = true →
      c.truncate n = some c' → u.truncate n = some u' → Runs w c' u'

/-- What a run keeps: the windowed cache holds the end of the unwindowed one, and the rows
the next query reads. -/
structure Suffix (w : KvWindow) (c u : KvCache α β) : Prop where
  plain : Plain u
  window : c.window = some w
  attention : c.recurrent = false
  positions : c.positions = u.positions
  rows_le : c.rows ≤ c.positions
  k_eq : c.k = u.k.drop (c.positions - c.rows)
  v_eq : c.v = u.v.drop (c.positions - c.rows)
  needed : w.rowsNeededAt c.positions ≤ c.rows

variable {c} {w : KvWindow} {u c' u' : KvCache α β} {n : ℕ}

theorem Plain.push (h : Plain u) (kStep : α) (vStep : β) : Plain (u.push kStep vStep) where
  k_length := by simp [KvCache.push, h.k_length]
  v_length := by simp [KvCache.push, h.v_length]
  window := h.window
  attention := h.attention
  evictable := h.evictable

theorem Plain.truncate (h : Plain u) (hn : n ≤ u.positions) :
    ∃ u', u.truncate n = some u' ∧ u'.k = u.k.take n ∧ u'.v = u.v.take n ∧ u'.positions = n ∧
      Plain u' := by
  have hcan : u.canTruncateTo n = true := by
    simp [canTruncateTo, not_lt.mpr hn, h.attention, h.window]
  have hkeep : u.rows - (u.positions - n) = n := by
    rw [rows, h.k_length]
    omega
  refine ⟨_, if_pos hcan, ?_, ?_, rfl, ?_, ?_, h.window, ?_, h.evictable⟩
  · exact congrArg u.k.take hkeep
  · exact congrArg u.v.take hkeep
  · rw [hkeep, List.length_take, h.k_length]
    exact min_eq_left hn
  · rw [hkeep, List.length_take, h.v_length]
    exact min_eq_left hn
  · simp [h.attention]

theorem canTruncateTo_iff (hw : c.window = some w) (hr : c.recurrent = false) :
    c.canTruncateTo n = true ↔ n ≤ c.positions ∧ c.positions - n ≤ c.rows ∧
      w.rowsNeededAt n ≤ c.rows - (c.positions - n) := by
  have hz : n = 0 → w.rowsNeededAt n = 0 := by
    rintro rfl
    exact Nat.zero_min _
  unfold canTruncateTo
  rw [hw, hr]
  split
  · rename_i h
    exact iff_of_false (by simp) fun hn => absurd hn.1 (not_le.mpr h)
  · rename_i h
    simp only [Bool.not_false, Bool.true_or, Bool.true_and, Bool.and_eq_true, Bool.or_eq_true,
      decide_eq_true_eq, beq_iff_eq]
    refine ⟨fun ⟨hd, hn⟩ => ⟨not_lt.mp h, hd, ?_⟩, fun ⟨_, hd, hn⟩ => ⟨hd, .inr hn⟩⟩
    rcases hn with hn | hn
    · rw [hz hn]
      exact Nat.zero_le _
    · exact hn

theorem truncate_spec (hr : c.recurrent = false) (h : c.truncate n = some c') :
    c.canTruncateTo n = true ∧ c'.positions = n ∧ c'.window = c.window ∧ c'.recurrent = false ∧
      c'.rows = c.rows - (c.positions - n) ∧ c'.k = c.k.take (c.rows - (c.positions - n)) ∧
      c'.v = c.v.take (c.rows - (c.positions - n)) := by
  unfold truncate at h
  split at h
  swap
  · cases h
  rename_i hcan
  rw [Option.some.injEq] at h
  subst h
  refine ⟨hcan, rfl, rfl, by simp [hr], ?_, rfl, rfl⟩
  exact (List.length_take ..).trans (min_eq_left (Nat.sub_le _ _))

theorem evict_rows (hw : c.window = some w) :
    c.evictBehindWindow.1.rows = min (w.rowsAfter c.positions) c.rows := by
  unfold evictBehindWindow
  rw [hw]
  simp only [rows, List.length_drop]
  omega

namespace Suffix

theorem arm (h : Plain u) : Suffix w (u.armWindow w) u := by
  have ha : u.armWindow w = { u with window := some w } := by
    unfold armWindow
    rw [h.evictable]
    rfl
  have hz : u.positions - u.k.length = 0 := by rw [h.k_length, Nat.sub_self]
  rw [ha]
  refine ⟨h, rfl, h.attention, rfl, h.k_length.le, ?_, ?_, ?_⟩
  · rw [rows, hz]
    rfl
  · rw [rows, hz]
    rfl
  · rw [rows, h.k_length]
    exact min_le_left _ _

theorem push (h : Suffix w c u) (kStep : α) (vStep : β) :
    Suffix w (c.push kStep vStep) (u.push kStep vStep) := by
  have hrows : (c.push kStep vStep).rows = c.rows + 1 := by simp [KvCache.push, rows]
  have hskip : c.positions + 1 - (c.rows + 1) = c.positions - c.rows := Nat.add_sub_add_right ..
  refine ⟨h.plain.push kStep vStep, h.window, h.attention, congrArg (· + 1) h.positions, ?_, ?_,
    ?_, ?_⟩
  · rw [hrows]
    exact Nat.succ_le_succ h.rows_le
  · rw [hrows]
    simp only [KvCache.push]
    rw [hskip, List.drop_append_of_le_length (by rw [h.plain.k_length, h.positions]; omega), ← h.k_eq]
  · rw [hrows]
    simp only [KvCache.push]
    rw [hskip, List.drop_append_of_le_length (by rw [h.plain.v_length, h.positions]; omega), ← h.v_eq]
  · have hn := h.needed
    rw [hrows]
    simp only [KvCache.push, KvWindow.rowsNeededAt] at hn ⊢
    omega

theorem evict (h : Suffix w c u) : Suffix w c.evictBehindWindow.1 u := by
  have hrows := evict_rows h.window
  have hge := w.rowsAfter_ge c.positions
  have hn := h.needed
  have hle := h.rows_le
  unfold KvWindow.rowsNeededAt at hn
  have hk : c.evictBehindWindow.1.k = c.k.drop (c.rows - c.evictBehindWindow.1.rows) := by
    rw [hrows]
    unfold evictBehindWindow
    rw [h.window]
  have hv : c.evictBehindWindow.1.v = c.v.drop (c.rows - c.evictBehindWindow.1.rows) := by
    rw [hrows]
    unfold evictBehindWindow
    rw [h.window]
  have hpos : c.evictBehindWindow.1.positions = c.positions := by
    unfold evictBehindWindow
    rw [h.window]
  have hskip : c.positions - c.rows + (c.rows - c.evictBehindWindow.1.rows) =
      c.positions - c.evictBehindWindow.1.rows := by omega
  refine ⟨h.plain, ?_, ?_, hpos.trans h.positions, ?_, ?_, ?_, ?_⟩
  · unfold evictBehindWindow
    rw [h.window]
  · unfold evictBehindWindow
    rw [h.window]
    exact h.attention
  · omega
  · rw [hpos, hk, h.k_eq, List.drop_drop, hskip]
  · rw [hpos, hv, h.v_eq, List.drop_drop, hskip]
  · rw [hpos]
    unfold KvWindow.rowsNeededAt
    omega

theorem truncate (h : Suffix w c u) (hc : c.truncate n = some c') (hu : u.truncate n = some u') :
    Suffix w c' u' := by
  obtain ⟨hn, hpos, hw, hr, hrows, hk, hv⟩ := truncate_spec h.attention hc
  obtain ⟨hle, hdrop, hneed⟩ := (canTruncateTo_iff h.window h.attention).mp hn
  obtain ⟨u₁, hu₁, huk, huv, hup, hplain⟩ := h.plain.truncate (n := n) (h.positions ▸ hle)
  rw [hu₁, Option.some.injEq] at hu
  subst hu
  have hrl := h.rows_le
  have hskip : n - (c.rows - (c.positions - n)) = c.positions - c.rows := by omega
  have hend : c.positions - c.rows + (c.rows - (c.positions - n)) = n := by omega
  refine ⟨hplain, hw.trans h.window, hr, hpos.trans hup.symm, ?_, ?_, ?_, ?_⟩
  · rw [hrows, hpos]
    omega
  · rw [hrows, hpos, hskip, hk, huk, h.k_eq, List.take_drop, hend]
  · rw [hrows, hpos, hskip, hv, huv, h.v_eq, List.take_drop, hend]
  · rw [hrows, hpos]
    exact hneed

end Suffix

theorem Runs.suffix (h : Runs w c u) : Suffix w c u := by
  induction h with
  | arm h => exact .arm h
  | push kStep vStep _ ih => exact ih.push kStep vStep
  | evict _ ih => exact ih.evict
  | truncate _ _ hc hu ih => exact ih.truncate hc hu

/-- What may follow a question for the rollback limit at `c`: the positions below
`c.positions` stay, and `undone` counts the rolled back ones. -/
inductive Since (c : KvCache α β) : ℕ → KvCache α β → Prop
  | asked : Since c 0 c
  | push {undone : ℕ} {d : KvCache α β} (kStep : α) (vStep : β) : Since c undone d →
      Since c undone (d.push kStep vStep)
  | evict {undone : ℕ} {d : KvCache α β} : Since c undone d → Since c undone d.evictBehindWindow.1
  | truncate {undone n : ℕ} {d d' : KvCache α β} : Since c undone d → c.positions ≤ n →
      n ≤ d.positions → d.truncate n = some d' → Since c (undone + (d.positions - n)) d'

/-- Either no drain has caught up since the question, or the reserve less what was undone
is resident. -/
structure Reserved (w : KvWindow) (c d : KvCache α β) (undone : ℕ) : Prop where
  window : d.window = some w
  attention : d.recurrent = false
  positions_le : c.positions ≤ d.positions
  kept : c.rows + (d.positions - c.positions) ≤ d.rows ∨
    min d.positions (w.window + w.reserve - undone) ≤ d.rows

theorem Since.reserved {d : KvCache α β} {undone : ℕ} (hs : Since c undone d)
    (h : Suffix w c u) : Reserved w c d undone := by
  induction hs with
  | asked => exact ⟨h.window, h.attention, le_rfl, .inl (by rw [Nat.sub_self, Nat.add_zero])⟩
  | @push undone d kStep vStep _ ih =>
    have hrows : (d.push kStep vStep).rows = d.rows + 1 := by simp [KvCache.push, rows]
    have hpos : (d.push kStep vStep).positions = d.positions + 1 := rfl
    have hle := ih.positions_le
    refine ⟨ih.window, ih.attention, ?_, ?_⟩
    · rw [hpos]
      exact hle.trans (Nat.le_succ _)
    · rw [hrows, hpos]
      exact ih.kept.imp (fun hk => by omega) fun hk => by omega
  | @evict undone d _ ih =>
    have hrows := evict_rows ih.window
    have hge := w.rowsAfter_ge d.positions
    have hpos : d.evictBehindWindow.1.positions = d.positions := by
      unfold evictBehindWindow
      rw [ih.window]
    refine ⟨?_, ?_, ?_, ?_⟩
    · unfold evictBehindWindow
      rw [ih.window]
    · unfold evictBehindWindow
      rw [ih.window]
      exact ih.attention
    · rw [hpos]
      exact ih.positions_le
    · have hk := ih.kept
      rw [hrows, hpos]
      omega
  | @truncate undone n d d' _ hcn hnd hd ih =>
    obtain ⟨hw, hr, hle, hk⟩ := ih
    obtain ⟨hcan, hpos, hw', hr', hrows, _, _⟩ := truncate_spec hr hd
    obtain ⟨_, hdrop, _⟩ := (canTruncateTo_iff hw hr).mp hcan
    refine ⟨hw'.trans hw, hr', hpos ▸ hcn, ?_⟩
    rw [hrows, hpos]
    omega

/-- A truncate that undoes no more than the limit answers for is permitted. -/
theorem Since.canTruncateTo {d : KvCache α β} {undone : ℕ} (hs : Since c undone d)
    (h : Suffix w c u) (hcn : c.positions ≤ n) (hnd : n ≤ d.positions)
    (hlim : undone + (d.positions - n) ≤ c.rollbackLimit) : d.canTruncateTo n = true := by
  obtain ⟨hw, hr, hle, hk⟩ := hs.reserved h
  have hn := h.needed
  have hpos := w.window_pos
  have hl : c.rollbackLimit = w.reserve + 1 := by
    rw [rollbackLimit, h.attention, h.window]
    rfl
  rw [canTruncateTo_iff hw hr]
  unfold KvWindow.rowsNeededAt at hn ⊢
  omega

end KvCache

end Frink.Kv
