import Mathlib
import Frink.Kv.Window

/-! # The target and its caches

A deterministic target answers each context with logits and a hidden state, and keeps
one row a layer for each token. A cache holds a context when its rows are the
context's, or the end of them behind the layer's window.
-/

namespace Frink.Speculative

open Kv

instance : DecidableEq KvWindow := fun a b =>
  decidable_of_iff (a.window = b.window ∧ a.slack = b.slack ∧ a.reserve = b.reserve)
    (by cases a; cases b; simp)

variable {K α β : Type}

structure Target (K α β : Type) where
  logits : List ℕ → List K
  hidden : List ℕ → List K
  kRow : ℕ → List ℕ → α
  vRow : ℕ → List ℕ → β
  window : ℕ → Option KvWindow

/-- The contexts after each of the tokens. -/
def grown : List ℕ → List ℕ → List (List ℕ)
  | _, [] => []
  | ctx, token :: tokens => (ctx ++ [token]) :: grown (ctx ++ [token]) tokens

@[simp] theorem length_grown (ctx tokens : List ℕ) : (grown ctx tokens).length = tokens.length := by
  induction tokens generalizing ctx with
  | nil => rfl
  | cons token tokens ih => simp [grown, ih]

theorem grown_append (ctx tokens more : List ℕ) :
    grown ctx (tokens ++ more) = grown ctx tokens ++ grown (ctx ++ tokens) more := by
  induction tokens generalizing ctx with
  | nil => simp [grown]
  | cons token tokens ih => simp [grown, ih]

theorem take_grown (ctx tokens : List ℕ) (n : ℕ) :
    (grown ctx tokens).take n = grown ctx (tokens.take n) := by
  induction tokens generalizing ctx n with
  | nil => simp [grown]
  | cons token tokens ih =>
    cases n with
    | zero => rfl
    | succ n => simp [grown, ih]

theorem getElem?_grown {ctx tokens : List ℕ} {i : ℕ} (hi : i < tokens.length) :
    (grown ctx tokens)[i]? = some (ctx ++ tokens.take (i + 1)) := by
  induction tokens generalizing ctx i with
  | nil => simp at hi
  | cons token tokens ih =>
    cases i with
    | zero => simp [grown]
    | succ i =>
      have hi : i < tokens.length := by simpa using hi
      simp [grown, ih hi]

theorem getLast?_grown {ctx tokens : List ℕ} (h : tokens ≠ []) :
    (grown ctx tokens).getLast? = some (ctx ++ tokens) := by
  have hpos : 0 < tokens.length := List.length_pos_iff.mpr h
  rw [List.getLast?_eq_getElem?, length_grown, getElem?_grown (by omega)]
  congr 2
  exact List.take_of_length_le (by omega)

/-- Arms the cache with its layer's window, then drops what fell behind it. -/
def evictLayerKv (window : Option KvWindow) (cache : KvCache α β) : KvCache α β :=
  match window with
  | none => cache
  | some w => (if cache.window = some w then cache else cache.armWindow w).evictBehindWindow.1

namespace Target

variable (t : Target K α β) (l : ℕ)

def rows (ctx : List ℕ) : List α × List β :=
  ((grown [] ctx).map (t.kRow l), (grown [] ctx).map (t.vRow l))

/-- One pushed row for each of the contexts. -/
def feed (cache : KvCache α β) (contexts : List (List ℕ)) : KvCache α β :=
  contexts.foldl (fun c ctx => c.push (t.kRow l ctx) (t.vRow l ctx)) cache

/-- The cache keeps every row of the context. -/
structure Whole (ctx : List ℕ) (c : KvCache α β) : Prop where
  window : c.window = none
  attention : c.recurrent = false
  positions : c.positions = ctx.length
  k_eq : c.k = (t.rows l ctx).1
  v_eq : c.v = (t.rows l ctx).2

inductive Holds (ctx : List ℕ) : KvCache α β → Prop

  | whole {c : KvCache α β} : t.Whole l ctx c → Holds ctx c

  | windowed {c u : KvCache α β} {w : KvWindow} : t.window l = some w → t.Whole l ctx u →
      KvCache.Suffix w c u → Holds ctx c

/-- The layer's window is on the cache, unless the cache may not evict. -/
def Armed (c : KvCache α β) : Prop :=
  c.window = t.window l ∨ c.window = none ∧ c.evictionForbidden = true

variable {t l} {ctx tokens : List ℕ} {c u : KvCache α β} {w : KvWindow} {n : ℕ}

theorem rows_append (ctx : List ℕ) (token : ℕ) :
    t.rows l (ctx ++ [token]) =
      ((t.rows l ctx).1 ++ [t.kRow l (ctx ++ [token])],
        (t.rows l ctx).2 ++ [t.vRow l (ctx ++ [token])]) := by
  simp [rows, grown_append, grown]

theorem take_rows (ctx : List ℕ) (n : ℕ) :
    t.rows l (ctx.take n) = ((t.rows l ctx).1.take n, (t.rows l ctx).2.take n) := by
  simp [rows, ← take_grown]

namespace Whole

theorem push (h : t.Whole l ctx c) (token : ℕ) :
    t.Whole l (ctx ++ [token])
      (c.push (t.kRow l (ctx ++ [token])) (t.vRow l (ctx ++ [token]))) where
  window := h.window
  attention := h.attention
  positions := by simp [KvCache.push, h.positions]
  k_eq := by rw [rows_append, KvCache.push, h.k_eq]
  v_eq := by rw [rows_append, KvCache.push, h.v_eq]

theorem plain (h : t.Whole l ctx c) (hf : c.evictionForbidden = false) : c.Plain where
  k_length := by simp [h.k_eq, h.positions, rows]
  v_length := by simp [h.v_eq, h.positions, rows]
  window := h.window
  attention := h.attention
  evictable := hf

theorem truncate (h : t.Whole l ctx c) (hn : n ≤ ctx.length) :
    ∃ d, c.truncate n = some d ∧ t.Whole l (ctx.take n) d ∧
      d.evictionForbidden = c.evictionForbidden := by
  have hcan : c.canTruncateTo n = true := by
    simp [KvCache.canTruncateTo, h.positions, not_lt.mpr hn, h.attention, h.window]
  have hkeep : c.rows - (c.positions - n) = n := by
    have hrows : c.rows = ctx.length := by simp [KvCache.rows, h.k_eq, rows]
    have hpos := h.positions
    omega
  refine ⟨_, if_pos hcan, ⟨h.window, ?_, ?_, ?_, ?_⟩, rfl⟩
  · simp [h.attention]
  · simp [hn]
  · rw [take_rows, hkeep, h.k_eq]
  · rw [take_rows, hkeep, h.v_eq]

end Whole

namespace Holds

theorem positions (h : t.Holds l ctx c) : c.positions = ctx.length := by
  cases h with
  | whole h => exact h.positions
  | windowed _ hu hs => exact hs.positions.trans hu.positions

theorem push (h : t.Holds l ctx c) (token : ℕ) :
    t.Holds l (ctx ++ [token])
      (c.push (t.kRow l (ctx ++ [token])) (t.vRow l (ctx ++ [token]))) := by
  cases h with
  | whole h => exact .whole (h.push token)
  | windowed hw hu hs => exact .windowed hw (hu.push token) (hs.push _ _)

theorem feed (h : t.Holds l ctx c) (tokens : List ℕ) :
    t.Holds l (ctx ++ tokens) (t.feed l c (grown ctx tokens)) := by
  induction tokens generalizing ctx c with
  | nil => simpa [grown, Target.feed] using h
  | cons token tokens ih => simpa [grown, Target.feed] using ih (h.push token)

theorem evict (h : t.Holds l ctx c) :
    t.Holds l ctx (evictLayerKv (t.window l) c) ∧ t.Armed l (evictLayerKv (t.window l) c) := by
  unfold evictLayerKv
  cases hw : t.window l with
  | none =>
    refine ⟨h, ?_⟩
    cases h with
    | whole h => exact .inl (h.window.trans hw.symm)
    | windowed hw' => cases hw ▸ hw'
  | some w =>
    cases h with
    | whole h =>
      dsimp only
      rw [if_neg (by simp [h.window])]
      cases hf : c.evictionForbidden with
      | true =>
        have harm : (c.armWindow w).evictBehindWindow.1 = c := by
          rw [KvCache.armWindow, if_pos hf, KvCache.evictBehindWindow, h.window]
        rw [harm]
        exact ⟨.whole h, .inr ⟨h.window, hf⟩⟩
      | false =>
        have hs := (KvCache.Suffix.arm (w := w) (h.plain hf)).evict
        exact ⟨.windowed hw h hs, .inl (hs.window.trans hw.symm)⟩
    | windowed hw' hu hs =>
      obtain rfl : w = _ := Option.some.inj (hw.symm.trans hw')
      dsimp only
      rw [if_pos hs.window]
      exact ⟨.windowed hw hu hs.evict, .inl (hs.evict.window.trans hw.symm)⟩

end Holds

theorem Whole.feed (h : t.Whole l ctx c) (tokens : List ℕ) :
    t.Whole l (ctx ++ tokens) (t.feed l c (grown ctx tokens)) := by
  induction tokens generalizing ctx c with
  | nil => simpa [grown, Target.feed] using h
  | cons token tokens ih => simpa [grown, Target.feed] using ih (h.push token)

theorem feed_forbidden (contexts : List (List ℕ)) :
    (t.feed l c contexts).evictionForbidden = c.evictionForbidden := by
  induction contexts generalizing c with
  | nil => rfl
  | cons ctx contexts ih => exact ih

theorem feed_window (contexts : List (List ℕ)) : (t.feed l c contexts).window = c.window := by
  induction contexts generalizing c with
  | nil => rfl
  | cons ctx contexts ih => exact ih

theorem Armed.feed (h : t.Armed l c) (contexts : List (List ℕ)) :
    t.Armed l (t.feed l c contexts) := by
  unfold Armed
  rw [feed_window, feed_forbidden]
  exact h

/-- An armed cache that is whole never evicts. -/
theorem Armed.evict_whole (ha : t.Armed l c) (h : t.Whole l ctx c) :
    evictLayerKv (t.window l) c = c := by
  unfold evictLayerKv
  cases hw : t.window l with
  | none => rfl
  | some w =>
    rcases ha with ha | ⟨_, hf⟩
    · cases (hw ▸ ha).symm.trans h.window
    · dsimp only
      rw [if_neg (by simp [h.window]), KvCache.armWindow, if_pos hf, KvCache.evictBehindWindow,
        h.window]

theorem since_feed (contexts : List (List ℕ)) {d : KvCache α β} (h : KvCache.Since c 0 d) :
    KvCache.Since c 0 (t.feed l d contexts) := by
  induction contexts generalizing d with
  | nil => exact h
  | cons ctx contexts ih => exact ih (h.push _ _)

/-- What the rollback limit answered for before some tokens were fed can be undone after. -/
theorem Holds.rollback (h : t.Holds l ctx c) (ha : t.Armed l c) (tokens : List ℕ)
    (hn : n ≤ tokens.length)
    (hlim : tokens.length - n ≤ c.rollbackLimit) :
    ∃ d, (evictLayerKv (t.window l) (t.feed l c (grown ctx tokens))).truncate (ctx.length + n) =
        some d ∧
      t.Holds l (ctx ++ tokens.take n) d ∧ t.Armed l d := by
  have htake : (ctx ++ tokens).take (ctx.length + n) = ctx ++ tokens.take n := by
    rw [List.take_append, List.take_of_length_le (by omega), Nat.add_sub_cancel_left]
  have hle : ctx.length + n ≤ (ctx ++ tokens).length := by
    rw [List.length_append]
    omega
  cases h with
  | whole h =>
    have hfed := h.feed tokens
    rw [(ha.feed _).evict_whole hfed]
    obtain ⟨d, hd, hwhole, hforbid⟩ := hfed.truncate hle
    rw [htake] at hwhole
    refine ⟨d, hd, .whole hwhole, ?_⟩
    unfold Armed at ha ⊢
    rw [hforbid, hwhole.window, feed_forbidden]
    rwa [h.window] at ha
  | @windowed u w hw hu hs =>
    have hfed : t.Holds l (ctx ++ tokens) (t.feed l c (grown ctx tokens)) :=
      (Holds.windowed hw hu hs).feed tokens
    have hevict : evictLayerKv (t.window l) (t.feed l c (grown ctx tokens)) =
        (t.feed l c (grown ctx tokens)).evictBehindWindow.1 := by
      unfold evictLayerKv
      rw [hw]
      dsimp only
      rw [if_pos ((feed_window _).trans hs.window)]
    have hheld := hfed.evict.1
    rw [hevict] at hheld ⊢
    have hpos := hheld.positions
    have hcpos := (Holds.windowed hw hu hs).positions
    rw [List.length_append] at hpos
    have hsince := (since_feed (t := t) (l := l) (grown ctx tokens) (.asked (c := c))).evict
    have hcan := hsince.canTruncateTo (n := ctx.length + n) hs (by omega) (by omega) (by omega)
    cases hheld with
    | whole h =>
      have hwin : (t.feed l c (grown ctx tokens)).evictBehindWindow.1.window = some w := by
        rw [KvCache.evictBehindWindow, (feed_window _).trans hs.window]
      cases hwin.symm.trans h.window
    | @windowed u' w' hw' hu' hs' =>
      obtain ⟨u₁, htrunc, hwhole, _⟩ := hu'.truncate hle
      rw [htake] at hwhole
      obtain ⟨d, hd⟩ : ∃ d, (t.feed l c (grown ctx tokens)).evictBehindWindow.1.truncate
          (ctx.length + n) = some d := ⟨_, if_pos hcan⟩
      have hs₁ := hs'.truncate hd htrunc
      exact ⟨d, hd, .windowed hw' hwhole hs₁, .inl (hs₁.window.trans hw'.symm)⟩

end Target

end Frink.Speculative
