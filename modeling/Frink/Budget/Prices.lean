import Mathlib
import Frink.Budget.Context

/-! # Prices of context

What the KV of a request costs as numbers without a width, beside the machine's. The two agree where
no sum of the source wraps around, and the price is monotone in the tokens: what rests grows with
them, and so does what any one layer is short of its whole prompt.
-/

namespace Frink.Context

open Machine

section Folds

/-- The largest of some numbers, and 0 of none. -/
def largest (xs : List ℕ) : ℕ := xs.foldr max 0

theorem largest_map_le {α : Type} (xs : List α) {f g : α → ℕ} (h : ∀ x ∈ xs, f x ≤ g x) :
    largest (xs.map f) ≤ largest (xs.map g) := by
  induction xs with
  | nil => exact Nat.le_refl _
  | cons x xs ih =>
    obtain ⟨hx, hxs⟩ := List.forall_mem_cons.mp h
    have := ih hxs
    simp only [largest, List.map_cons, List.foldr_cons] at this ⊢
    omega

theorem toNat_foldl_satAdd (xs : List UInt64) (a : UInt64) :
    (xs.foldl satAdd a).toNat = min (a.toNat + (xs.map UInt64.toNat).sum) maxWord := by
  induction xs generalizing a with
  | nil =>
    have := toNat_le_maxWord a
    simp only [List.foldl_nil, List.map_nil, List.sum_nil]
    omega
  | cons x xs ih =>
    simp only [List.foldl_cons, List.map_cons, List.sum_cons, ih, toNat_satAdd]
    omega

theorem toNat_foldl_maxU64 (xs : List UInt64) (a : UInt64) :
    (xs.foldl maxU64 a).toNat = max a.toNat (largest (xs.map UInt64.toNat)) := by
  induction xs generalizing a with
  | nil => simp [largest]
  | cons x xs ih =>
    simp only [List.foldl_cons, List.map_cons, ih, toNat_maxU64, largest, List.foldr_cons]
    omega

end Folds

section Elements

variable {elem : KvElem} {m n : ℕ}

def KvElem.price (n : ℕ) : KvElem → ℕ
  | .f32 => min (n * 4) maxWord
  | .f16 => min (n * 2) maxWord
  | .q8_0 => min ((n + 31) / 32 * 34) maxWord
  | .q4_0 => min ((n + 31) / 32 * 18) maxWord

theorem toNat_bytesFor (elems : UInt64) (elem : KvElem) :
    (elem.bytesFor elems).toNat = elem.price elems.toNat := by
  have hblocks : (divCeilU64 elems 32).toNat = (elems.toNat + 31) / 32 :=
    toNat_divCeilU64 (by decide)
  cases elem with
  | f32 => exact toNat_satMul
  | f16 => exact toNat_satMul
  | q8_0 =>
    rw [KvElem.bytesFor, toNat_satMul, hblocks]
    rfl
  | q4_0 =>
    rw [KvElem.bytesFor, toNat_satMul, hblocks]
    rfl

theorem price_mono (elem : KvElem) (h : m ≤ n) : elem.price m ≤ elem.price n := by
  cases elem <;> simp only [KvElem.price] <;> omega

@[simp] theorem price_zero (elem : KvElem) : elem.price 0 = 0 := by
  cases elem <;> rfl

theorem price_pos (elem : KvElem) (h : 0 < n) : 0 < elem.price n := by
  have hword : 0 < maxWord := by decide
  cases elem <;> simp only [KvElem.price] <;> omega

end Elements

namespace KvLayout

def elems : KvLayout → ℕ
  | gqa nKvHeads headDim vHeadDim => nKvHeads.toNat * (headDim.toNat + vHeadDim.toNat)
  | mlaLatent kvLoraRank qkRopeHeadDim => kvLoraRank.toNat + qkRopeHeadDim.toNat
  | mlaExpanded nHeads kHeadDim vHeadDim => nHeads.toNat * (kHeadDim.toNat + vHeadDim.toNat)

/-- The scalars of a token, and of one of its heads, are counted in a machine word. -/
def Fits : KvLayout → Prop
  | gqa nKvHeads headDim vHeadDim =>
      headDim.toNat + vHeadDim.toNat < 2 ^ 64 ∧
        nKvHeads.toNat * (headDim.toNat + vHeadDim.toNat) < 2 ^ 64
  | mlaLatent kvLoraRank qkRopeHeadDim => kvLoraRank.toNat + qkRopeHeadDim.toNat < 2 ^ 64
  | mlaExpanded nHeads kHeadDim vHeadDim =>
      kHeadDim.toNat + vHeadDim.toNat < 2 ^ 64 ∧
        nHeads.toNat * (kHeadDim.toNat + vHeadDim.toNat) < 2 ^ 64

theorem exact_heads {n k v : UInt64} :
    (do let both ← addU64 k v; mulU64 n both : Tracked UInt64).exact = true ↔
      k.toNat + v.toNat < 2 ^ 64 ∧ n.toNat * (k.toNat + v.toNat) < 2 ^ 64 := by
  rw [Tracked.exact_bind, Bool.and_eq_true, exact_addU64, exact_mulU64]
  constructor
  · rintro ⟨hadd, hmul⟩
    rw [toNat_addU64 hadd] at hmul
    exact ⟨hadd, hmul⟩
  · rintro ⟨hadd, hmul⟩
    rw [toNat_addU64 hadd]
    exact ⟨hadd, hmul⟩

theorem toNat_heads {n k v : UInt64} (hadd : k.toNat + v.toNat < 2 ^ 64)
    (hmul : n.toNat * (k.toNat + v.toNat) < 2 ^ 64) :
    (do let both ← addU64 k v; mulU64 n both : Tracked UInt64).value.toNat =
      n.toNat * (k.toNat + v.toNat) := by
  rw [Tracked.value_bind, toNat_mulU64 (by rwa [toNat_addU64 hadd]), toNat_addU64 hadd]

theorem exact_elems (layout : KvLayout) :
    layout.elemsPerTokenPerLayer.exact = true ↔ layout.Fits := by
  cases layout with
  | gqa => exact exact_heads
  | mlaLatent => exact exact_addU64
  | mlaExpanded => exact exact_heads

theorem toNat_elems {layout : KvLayout} (h : layout.Fits) :
    layout.elemsPerTokenPerLayer.value.toNat = layout.elems := by
  cases layout with
  | gqa => exact toNat_heads h.1 h.2
  | mlaLatent => exact toNat_addU64 h
  | mlaExpanded => exact toNat_heads h.1 h.2

end KvLayout

namespace KvWindow

variable {w : KvWindow} {t : UInt64}

/-- The most rows of a window are counted in a machine word. -/
def Fits (w : KvWindow) : Prop := w.window.toNat + w.slack.toNat < 2 ^ 64

/-- A window never holds more rows than its ceiling, or than there are. -/
theorem rowsAfter_le (h : w.Fits) :
    (w.rowsAfter t).value.toNat ≤ min (w.window.toNat + w.slack.toNat) t.toNat := by
  have hreserve := w.reserve_le
  have hpos := w.window_pos
  have hpeak : (addU64 w.window w.slack).value.toNat = w.window.toNat + w.slack.toNat :=
    toNat_addU64 h
  unfold KvWindow.Fits at h
  have hfloor : (addU64 w.window w.reserve).value.toNat = w.window.toNat + w.reserve.toNat :=
    toNat_addU64 (by omega)
  simp only [rowsAfter, Tracked.value_bind]
  split
  · rename_i hle
    rw [hpeak] at hle
    exact Nat.le_min.mpr ⟨hle, Nat.le_refl _⟩
  · rename_i hlt
    rw [hpeak] at hlt
    have hone : (1 : UInt64).toNat = 1 := rfl
    simp only [Tracked.value_bind]
    have hspan : (subU64 (addU64 w.window w.slack).value (addU64 w.window w.reserve).value).value.toNat =
        w.slack.toNat - w.reserve.toNat := by
      rw [toNat_subU64 (by omega), hpeak, hfloor]
      omega
    have hmod : (addU64 (subU64 (addU64 w.window w.slack).value
        (addU64 w.window w.reserve).value).value 1).value.toNat =
          w.slack.toNat - w.reserve.toNat + 1 := by
      rw [toNat_addU64 (by omega), hspan, hone]
    generalize (subU64 (subU64 t (addU64 w.window w.slack).value).value 1).value = past
    have hlt' : past.toNat % (w.slack.toNat - w.reserve.toNat + 1) <
        w.slack.toNat - w.reserve.toNat + 1 := Nat.mod_lt _ (Nat.succ_pos _)
    have hrest : (past % (addU64 (subU64 (addU64 w.window w.slack).value
        (addU64 w.window w.reserve).value).value 1).value).toNat ≤
          w.slack.toNat - w.reserve.toNat := by
      rw [UInt64.toNat_mod, hmod]
      exact Nat.le_of_lt_succ hlt'
    rw [toNat_addU64 (by omega), hfloor]
    omega

end KvWindow

/-- The rows a layer holds at most at `t` tokens. -/
def ceilingOf (t : ℕ) : Option KvWindow → ℕ
  | some w => min (w.window.toNat + w.slack.toNat) t
  | none => t

theorem ceilingOf_le (t : ℕ) (o : Option KvWindow) : ceilingOf t o ≤ t := by
  cases o with
  | none => exact Nat.le_refl t
  | some w => exact Nat.min_le_right _ _

theorem exact_ceilingRows {t : UInt64} {o : Option KvWindow} :
    (KvResidency.ceilingRows t o).exact = true ↔ ∀ w ∈ o, w.Fits := by
  cases o with
  | none => exact iff_of_true rfl nofun
  | some w =>
    simp only [KvResidency.ceilingRows, KvWindow.maxRows, Tracked.exact_bind, Tracked.exact_pure,
      Bool.and_true, exact_addU64, Option.mem_def, Option.some.injEq, forall_eq']
    rfl

theorem toNat_ceilingRows {t : UInt64} {o : Option KvWindow} (h : ∀ w ∈ o, w.Fits) :
    (KvResidency.ceilingRows t o).value.toNat = ceilingOf t.toNat o := by
  cases o with
  | none => rfl
  | some w =>
    have hpeak : (addU64 w.window w.slack).value.toNat = w.window.toNat + w.slack.toNat :=
      toNat_addU64 (h w rfl)
    simp only [KvResidency.ceilingRows, KvWindow.maxRows, Tracked.value_bind, Tracked.value_pure,
      toNat_minU64, hpeak, ceilingOf]

namespace KvShape

variable {s : KvShape} {residency : KvResidency} {t t' : UInt64} {m n : ℕ}

/-- The price of some rows of one layer. -/
def rowPrice (s : KvShape) (rows : ℕ) : ℕ := s.elem.price (min (s.layout.elems * rows) maxWord)

theorem rowPrice_mono (s : KvShape) (h : m ≤ n) : s.rowPrice m ≤ s.rowPrice n := by
  have : s.layout.elems * m ≤ s.layout.elems * n := Nat.mul_le_mul_left _ h
  apply price_mono
  omega

theorem toNat_rowBytes (h : s.layout.Fits) (rows : UInt64) :
    (s.elem.bytesFor (satMul s.layout.elemsPerTokenPerLayer.value rows)).toNat =
      s.rowPrice rows.toNat := by
  rw [toNat_bytesFor, toNat_satMul, KvLayout.toNat_elems h, rowPrice]

/-- Every window of a layer that caches fits. -/
def WindowsFit (s : KvShape) (residency : KvResidency) : Prop :=
  ∀ layer < s.kvLayers.toNat, ∀ w ∈ residency.layerWindow layer, w.Fits

/-- What each layer costs at most at `t` tokens. -/
def prices (s : KvShape) (residency : KvResidency) (t : ℕ) : List ℕ :=
  (List.range s.kvLayers.toNat).map fun layer => s.rowPrice (ceilingOf t (residency.layerWindow layer))

/-- The most a layer is short of its whole prompt. -/
def shortfall (s : KvShape) (residency : KvResidency) (t : ℕ) : ℕ :=
  largest ((s.prices residency t).map fun price => s.rowPrice t - price)

def peakPrice (s : KvShape) (residency : KvResidency) (t : ℕ) : ℕ :=
  min ((s.prices residency t).sum + s.shortfall residency t) maxWord

theorem exact_peak : (s.peakKvBytesForTokens residency t).exact = true ↔
    s.layout.Fits ∧ s.WindowsFit residency := by
  simp only [peakKvBytesForTokens, KvResidency.ceilingRowsPerLayer, Tracked.exact_bind,
    Tracked.exact_pure, Bool.and_true, Bool.and_eq_true, KvLayout.exact_elems,
    Tracked.exact_collect, List.forall_mem_map, List.mem_range, exact_ceilingRows, WindowsFit]

theorem toNat_peak (hlayout : s.layout.Fits) (hwindows : s.WindowsFit residency) (t : UInt64) :
    (s.peakKvBytesForTokens residency t).value.toNat = s.peakPrice residency t.toNat := by
  have hbytes : ((s.rowBytes s.layout.elemsPerTokenPerLayer.value
      (residency.ceilingRowsPerLayer s.kvLayers t).value).map UInt64.toNat) =
        s.prices residency t.toNat := by
    simp only [rowBytes, KvResidency.ceilingRowsPerLayer, Tracked.value_collect, List.map_map,
      prices]
    apply List.map_congr_left
    intro layer hlayer
    simp only [Function.comp, toNat_rowBytes hlayout,
      toNat_ceilingRows (hwindows layer (List.mem_range.mp hlayer))]
  have hshort : ((s.rowBytes s.layout.elemsPerTokenPerLayer.value
      (residency.ceilingRowsPerLayer s.kvLayers t).value).map fun bytes =>
        satSub (s.elem.bytesFor (satMul s.layout.elemsPerTokenPerLayer.value t)) bytes).map
          UInt64.toNat =
        (s.prices residency t.toNat).map fun price => s.rowPrice t.toNat - price := by
    rw [← hbytes, List.map_map, List.map_map]
    apply List.map_congr_left
    intro bytes _
    simp only [Function.comp, toNat_satSub, toNat_rowBytes hlayout]
  have hzero : (0 : UInt64).toNat = 0 := rfl
  simp only [peakKvBytesForTokens, Tracked.value_bind, Tracked.value_pure, toNat_satAdd,
    toNat_foldl_satAdd, toNat_foldl_maxU64, hbytes, hshort, hzero, peakPrice, shortfall]
  omega

end KvShape

end Frink.Context
