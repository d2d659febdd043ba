import Frink.Budget.Prices

/-! # The largest context

The peak is monotone, between what rests and what nothing evicted would cost, so bisection finds the
largest context that fits. The check agrees with the numbers as long as their sum is a machine word.
-/

namespace Frink.Context

open Machine

namespace KvShape

variable {s : KvShape} {residency : KvResidency} {m n : ℕ}

theorem sum_add_largest_le {xs : List ℕ} {full : ℕ} (h : ∀ x ∈ xs, x ≤ full) :
    xs.sum + largest (xs.map fun x => full - x) ≤ xs.length * full := by
  induction xs with
  | nil => exact Nat.le_of_eq (Nat.zero_mul full).symm
  | cons x xs ih =>
    obtain ⟨hx, hxs⟩ := List.forall_mem_cons.mp h
    have hrest := ih hxs
    have hsum : xs.sum ≤ xs.length * full := by omega
    simp only [largest, List.sum_cons, List.map_cons, List.foldr_cons, List.length_cons,
      Nat.succ_mul] at hrest ⊢
    omega

/-- Resting and transient together are at most what nothing evicted would cost. -/
theorem prices_le (s : KvShape) (residency : KvResidency) (t : ℕ) :
    (s.prices residency t).sum + s.shortfall residency t ≤ s.kvLayers.toNat * s.rowPrice t := by
  have hlength : (s.prices residency t).length = s.kvLayers.toNat := by simp [prices]
  rw [← hlength]
  apply sum_add_largest_le
  rintro price hprice
  obtain ⟨layer, -, rfl⟩ := List.mem_map.mp hprice
  exact s.rowPrice_mono (ceilingOf_le t _)

theorem sum_prices_mono (h : m ≤ n) :
    (s.prices residency m).sum ≤ (s.prices residency n).sum := by
  apply List.sum_le_sum
  rintro layer -
  apply s.rowPrice_mono
  cases residency.layerWindow layer with
  | none => exact h
  | some w =>
    dsimp only [ceilingOf]
    omega

theorem shortfall_mono (h : m ≤ n) : s.shortfall residency m ≤ s.shortfall residency n := by
  simp only [shortfall, prices, List.map_map]
  apply largest_map_le
  rintro layer -
  dsimp only [Function.comp]
  have hfull := s.rowPrice_mono h
  cases residency.layerWindow layer with
  | none => simp [ceilingOf]
  | some w =>
    dsimp only [ceilingOf]
    -- below its ceiling a layer holds its whole prompt
    rcases Nat.le_total m (w.window.toNat + w.slack.toNat) with hle | hle
    · rw [Nat.min_eq_right hle]
      omega
    · rw [Nat.min_eq_left hle, Nat.min_eq_left (Nat.le_trans hle h)]
      omega

theorem peakPrice_mono (h : m ≤ n) : s.peakPrice residency m ≤ s.peakPrice residency n := by
  have hsum := @sum_prices_mono s residency m n h
  have hshort := @shortfall_mono s residency m n h
  unfold peakPrice
  omega

@[simp] theorem rowPrice_zero (s : KvShape) : s.rowPrice 0 = 0 := by
  simp [rowPrice]

@[simp] theorem peakPrice_zero : s.peakPrice residency 0 = 0 := by
  have hle := s.prices_le residency 0
  rw [rowPrice_zero, Nat.mul_zero] at hle
  unfold peakPrice
  omega

/-- A token that costs something is charged for. -/
theorem peakPrice_pos (hlayers : 0 < s.kvLayers.toNat) (helems : 0 < s.layout.elems)
    (ht : 0 < n) : 0 < s.peakPrice residency n := by
  have hword : 0 < maxWord := by decide
  have hrows : 0 < ceilingOf n (residency.layerWindow 0) := by
    cases residency.layerWindow 0 with
    | none => exact ht
    | some w =>
      have := w.window_pos
      dsimp only [ceilingOf]
      omega
  have hfirst : 0 < s.rowPrice (ceilingOf n (residency.layerWindow 0)) := by
    have := Nat.mul_pos helems hrows
    apply price_pos
    omega
  have hmem : s.rowPrice (ceilingOf n (residency.layerWindow 0)) ∈ s.prices residency n :=
    List.mem_map.mpr ⟨0, List.mem_range.mpr hlayers, rfl⟩
  have hle : s.rowPrice (ceilingOf n (residency.layerWindow 0)) ≤ (s.prices residency n).sum :=
    List.single_le_sum (fun _ _ => Nat.zero_le _) _ hmem
  unfold peakPrice
  omega

theorem toNat_full (hlayout : s.layout.Fits) (t : UInt64) :
    (s.kvBytesForTokens t).value.toNat = min (s.kvLayers.toNat * s.rowPrice t.toNat) maxWord := by
  simp only [kvBytesForTokens, Tracked.value_bind, Tracked.value_pure, toNat_satMul,
    toNat_rowBytes hlayout]

theorem toNat_perToken (hlayout : s.layout.Fits) :
    s.perTokenKvBytes.value.toNat =
      min (s.kvLayers.toNat * s.elem.price s.layout.elems) maxWord := by
  simp only [perTokenKvBytes, Tracked.value_bind, Tracked.value_pure, toNat_satMul,
    toNat_bytesFor, KvLayout.toNat_elems hlayout]

theorem resident_le (hlayout : s.layout.Fits) (hwindows : s.WindowsFit residency) (t : UInt64) :
    (s.residentKvBytesForTokens residency t).value.toNat ≤ s.peakPrice residency t.toNat := by
  have hzero : (0 : UInt64).toNat = 0 := rfl
  have hle : ((s.rowBytes s.layout.elemsPerTokenPerLayer.value
      (residency.rowsPerLayer s.kvLayers t).value).map UInt64.toNat).sum ≤
        (s.prices residency t.toNat).sum := by
    simp only [rowBytes, KvResidency.rowsPerLayer, Tracked.value_collect, List.map_map, prices]
    apply List.sum_le_sum
    intro layer hlayer
    simp only [Function.comp, toNat_rowBytes hlayout]
    apply s.rowPrice_mono
    have hfits := hwindows layer (List.mem_range.mp hlayer)
    generalize residency.layerWindow layer = window at hfits ⊢
    cases window with
    | none => exact Nat.le_refl _
    | some w => exact w.rowsAfter_le (hfits w rfl)
  simp only [residentKvBytesForTokens, Tracked.value_bind, Tracked.value_pure, toNat_foldl_satAdd,
    hzero, peakPrice]
  omega

end KvShape

namespace KvBudget

variable {b : KvBudget} {t limit cap : UInt64} {m n : ℕ}

/-- What all requests cost at `t` tokens. -/
def kvPrice (b : KvBudget) (t : ℕ) : ℕ :=
  min (b.shape.peakPrice b.residency t * max b.concurrentRequests.toNat 1) maxWord

theorem kvPrice_mono (b : KvBudget) (h : m ≤ n) : b.kvPrice m ≤ b.kvPrice n := by
  have hpeak := @KvShape.peakPrice_mono b.shape b.residency m n h
  have := Nat.mul_le_mul_right (max b.concurrentRequests.toNat 1) hpeak
  unfold kvPrice
  omega

@[simp] theorem kvPrice_zero (b : KvBudget) : b.kvPrice 0 = 0 := by
  simp [kvPrice]

/-- The numbers the arithmetic comes across are machine words. -/
structure Fits (b : KvBudget) : Prop where

  layout : b.shape.layout.Fits

  windows : b.shape.WindowsFit b.residency

theorem exact_kvBytesAt : (b.kvBytesAt t).exact = true ↔ b.Fits := by
  simp only [kvBytesAt, Tracked.exact_bind, Tracked.exact_pure, Bool.and_true, KvShape.exact_peak]
  exact ⟨fun h => ⟨h.1, h.2⟩, fun h => ⟨h.1, h.2⟩⟩

theorem toNat_kvBytesAt (h : b.Fits) (t : UInt64) :
    (b.kvBytesAt t).value.toNat = b.kvPrice t.toNat := by
  have hone : (1 : UInt64).toNat = 1 := rfl
  simp only [kvBytesAt, Tracked.value_bind, Tracked.value_pure, toNat_satMul, toNat_maxU64, hone,
    KvShape.toNat_peak h.layout h.windows, kvPrice]

/-- What is in memory at `t` tokens. -/
def demand (b : KvBudget) (t : ℕ) : ℕ :=
  b.weightsBytes.toNat + b.activationHeadroomBytes.toNat + b.kvPrice t

theorem exact_check : (b.check t).exact = true ↔ b.Fits ∧ b.demand t.toNat < 2 ^ 64 := by
  have hfinal : ∀ estimated kv : UInt64,
      (if estimated.toNat ≤ b.deviceBudgetBytes.toNat then pure (.ok estimated)
        else pure (.error ⟨.deviceMemory, estimated, b.deviceBudgetBytes, b.detail t kv⟩) :
          Tracked (Except KvBudgetError UInt64)).exact = true := by
    intro estimated kv
    split <;> rfl
  simp only [check, estimatedBytes, Tracked.exact_bind, Bool.and_eq_true, hfinal, and_true,
    exact_kvBytesAt, exact_addU64]
  constructor
  · rintro ⟨⟨hfits, hfixed, hsum⟩, -⟩
    rw [toNat_addU64 hfixed, toNat_kvBytesAt hfits] at hsum
    exact ⟨hfits, hsum⟩
  · rintro ⟨hfits, hsum⟩
    have hfixed : b.weightsBytes.toNat + b.activationHeadroomBytes.toNat < 2 ^ 64 := by
      unfold demand at hsum
      omega
    refine ⟨⟨hfits, hfixed, ?_⟩, hfits⟩
    rw [toNat_addU64 hfixed, toNat_kvBytesAt hfits]
    exact hsum

/-- The check says yes. -/
def Accepts (b : KvBudget) (t : UInt64) : Prop := ∃ estimated, (b.check t).value = .ok estimated

theorem accepts_iff (hfits : b.Fits) (hsum : b.demand t.toNat < 2 ^ 64) :
    b.Accepts t ↔ b.demand t.toNat ≤ b.deviceBudgetBytes.toNat := by
  have hfixed : b.weightsBytes.toNat + b.activationHeadroomBytes.toNat < 2 ^ 64 := by
    unfold demand at hsum
    omega
  have hestimated : (b.estimatedBytes t).value.toNat = b.demand t.toNat := by
    simp only [estimatedBytes, Tracked.value_bind]
    rw [toNat_addU64, toNat_addU64 hfixed, toNat_kvBytesAt hfits]
    · rfl
    · rw [toNat_addU64 hfixed, toNat_kvBytesAt hfits]
      exact hsum
  simp only [Accepts, check, Tracked.value_bind, hestimated]
  split
  · rename_i hle
    exact iff_of_true ⟨_, rfl⟩ hle
  · rename_i hlt
    exact iff_of_false nofun hlt

theorem toNat_available (b : KvBudget) : b.kvBytesAvailable.toNat =
    b.deviceBudgetBytes.toNat - b.weightsBytes.toNat - b.activationHeadroomBytes.toNat := by
  rw [kvBytesAvailable, toNat_satSub, toNat_satSub]

/-- The largest context up to `cap` whose price is within `available`. -/
structure Largest (b : KvBudget) (cap available : ℕ) (r : UInt64) : Prop where

  le : r.toNat ≤ cap

  fits : b.kvPrice r.toNat ≤ available

  largest : ∀ n ≤ cap, b.kvPrice n ≤ available → n ≤ r.toNat

theorem bisect_spec (hfits : b.Fits) {available : UInt64} {fuel : ℕ} {lo hi : UInt64}
    (hlo : b.kvPrice lo.toNat ≤ available.toNat) (hhi : available.toNat < b.kvPrice hi.toNat)
    (hfuel : hi.toNat ≤ lo.toNat + (fuel + 1)) (hlt : lo.toNat < hi.toNat)
    (hcap : hi.toNat ≤ cap.toNat) :
    b.Largest cap.toNat available.toNat (b.bisect available fuel lo hi) := by
  have hdone : hi.toNat ≤ lo.toNat + 1 → b.Largest cap.toNat available.toNat lo := by
    intro hnext
    refine ⟨by omega, hlo, fun n _ hn => ?_⟩
    by_contra hgt
    have := b.kvPrice_mono (show hi.toNat ≤ n by omega)
    omega
  induction fuel generalizing lo hi with
  | zero => exact hdone hfuel
  | succ fuel ih =>
    have hspan : (hi - lo).toNat = hi.toNat - lo.toNat :=
      UInt64.toNat_sub_of_le hi lo (UInt64.le_iff_toNat_le.mpr (Nat.le_of_lt hlt))
    unfold bisect
    split
    · rename_i hle
      rw [hspan] at hle
      exact hdone (by omega)
    · rename_i hmore
      rw [hspan] at hmore
      have htwo : (2 : UInt64).toNat = 2 := rfl
      have hword := hi.toNat_lt
      have hmid : (lo + (hi - lo) / 2).toNat = lo.toNat + (hi.toNat - lo.toNat) / 2 := by
        rw [UInt64.toNat_add, UInt64.toNat_div, hspan, htwo, Nat.mod_eq_of_lt (by omega)]
      dsimp only
      rw [toNat_kvBytesAt hfits]
      split
      · rename_i hle
        apply ih hle hhi (by omega) (by omega) hcap
        intro hnext
        refine ⟨by omega, hle, fun n _ hn => ?_⟩
        by_contra hgt
        have := b.kvPrice_mono (show hi.toNat ≤ n by omega)
        omega
      · rename_i hgt
        apply ih hlo (by omega) (by omega) (by omega) (by omega)
        intro hnext
        refine ⟨by omega, hlo, fun n _ hn => ?_⟩
        by_contra hgt'
        have := b.kvPrice_mono (show (lo + (hi - lo) / 2).toNat ≤ n by omega)
        omega

theorem largestFittingContext_spec (hfits : b.Fits) (cap available : UInt64) :
    b.Largest cap.toNat available.toNat (b.largestFittingContext cap available) := by
  unfold largestFittingContext
  rw [toNat_kvBytesAt hfits]
  split
  · rename_i hle
    exact ⟨Nat.le_refl _, hle, fun n hn _ => hn⟩
  · rename_i hgt
    have hzero : (0 : UInt64).toNat = 0 := rfl
    have hcap : 0 < cap.toNat := by
      by_contra hnot
      rw [Nat.eq_zero_of_not_pos hnot, kvPrice_zero] at hgt
      exact hgt (Nat.zero_le _)
    apply bisect_spec hfits
    · rw [hzero, kvPrice_zero]
      exact Nat.zero_le _
    · omega
    · omega
    · omega
    · exact Nat.le_refl _

/-- What is promised of every context up to `limit`. -/
structure Sound (b : KvBudget) (limit : UInt64) : Prop where

  exact_check : ∀ t : UInt64, t.toNat ≤ limit.toNat → (b.check t).exact = true

  monotone : ∀ t t' : UInt64, t.toNat ≤ t'.toNat → t'.toNat ≤ limit.toNat →
    (b.shape.peakKvBytesForTokens b.residency t).value.toNat ≤
      (b.shape.peakKvBytesForTokens b.residency t').value.toNat

  resident_le : ∀ t : UInt64, t.toNat ≤ limit.toNat →
    (b.shape.residentKvBytesForTokens b.residency t).value.toNat ≤
      (b.shape.peakKvBytesForTokens b.residency t).value.toNat

  le_full : ∀ t : UInt64, t.toNat ≤ limit.toNat →
    (b.shape.peakKvBytesForTokens b.residency t).value.toNat ≤
      (b.shape.kvBytesForTokens t).value.toNat

  accepts_iff : ∀ t : UInt64, t.toNat ≤ limit.toNat → (b.Accepts t ↔
    b.weightsBytes.toNat + b.activationHeadroomBytes.toNat + (b.kvBytesAt t).value.toNat ≤
      b.deviceBudgetBytes.toNat)

  largest : ∀ cap : UInt64, cap.toNat ≤ limit.toNat → 0 < b.shape.perTokenKvBytes.value.toNat →
    (b.rawContext cap).toNat ≤ cap.toNat ∧
    (∀ t : UInt64, t.toNat ≤ cap.toNat → b.Accepts t → t.toNat ≤ (b.rawContext cap).toNat) ∧
    (b.Accepts (b.rawContext cap) ∨ b.rawContext cap = 0)

  floored : ∀ cap granularity : UInt64, cap.toNat ≤ limit.toNat →
    b.weightsBytes.toNat + b.activationHeadroomBytes.toNat ≤ b.deviceBudgetBytes.toNat →
    b.Accepts (b.maxContext cap granularity).tokens

/-- The layout and the windows fit, and what is in memory at `limit` tokens is a machine word. -/
def InRange (b : KvBudget) (limit : UInt64) : Prop := b.Fits ∧ b.demand limit.toNat < 2 ^ 64

theorem demand_lt (h : b.InRange limit) (ht : n ≤ limit.toNat) : b.demand n < 2 ^ 64 := by
  have hmono := b.kvPrice_mono ht
  have hlimit := h.2
  unfold demand at hlimit ⊢
  omega

/-- A raw answer of some tokens fits into what is available, and is the largest that does. -/
theorem rawContext_spec (hfits : b.Fits) (cap : UInt64)
    (havailable : b.kvBytesAvailable ≠ 0) :
    b.Largest cap.toNat b.kvBytesAvailable.toNat (b.rawContext cap) := by
  rw [rawContext, if_neg havailable]
  exact largestFittingContext_spec hfits cap b.kvBytesAvailable

theorem largest_of_inRange (h : b.InRange limit) (hcap : cap.toNat ≤ limit.toNat)
    (htoken : 0 < b.shape.perTokenKvBytes.value.toNat) :
    (b.rawContext cap).toNat ≤ cap.toNat ∧
    (∀ t : UInt64, t.toNat ≤ cap.toNat → b.Accepts t → t.toNat ≤ (b.rawContext cap).toNat) ∧
    (b.Accepts (b.rawContext cap) ∨ b.rawContext cap = 0) := by
  have hfits := h.1
  have havailable := b.toNat_available
  have haccepts : ∀ t : UInt64, t.toNat ≤ cap.toNat →
      (b.Accepts t ↔ b.demand t.toNat ≤ b.deviceBudgetBytes.toNat) :=
    fun t ht => accepts_iff hfits (demand_lt h (Nat.le_trans ht hcap))
  unfold demand at haccepts
  by_cases hzero : b.kvBytesAvailable = 0
  · have hraw : b.rawContext cap = 0 := if_pos hzero
    have hnothing : b.kvBytesAvailable.toNat = 0 := by
      rw [hzero]
      rfl
    rw [hraw]
    refine ⟨Nat.zero_le _, fun t ht hyes => ?_, .inr rfl⟩
    have hle := (haccepts t ht).mp hyes
    by_contra hpos
    -- beside weights that leave nothing, any token is one too many
    have hlayers : 0 < b.shape.kvLayers.toNat ∧ 0 < b.shape.layout.elems := by
      rw [KvShape.toNat_perToken hfits.layout] at htoken
      constructor
      · by_contra hnone
        rw [Nat.eq_zero_of_not_pos hnone] at htoken
        simp at htoken
      · by_contra hnone
        rw [Nat.eq_zero_of_not_pos hnone] at htoken
        simp at htoken
    have hpeak := @KvShape.peakPrice_pos b.shape b.residency t.toNat hlayers.1 hlayers.2
      (Nat.lt_of_not_le hpos)
    have hword : 0 < maxWord := by decide
    have hprice : 0 < b.kvPrice t.toNat := by
      have := Nat.mul_pos hpeak (show 0 < max b.concurrentRequests.toNat 1 by omega)
      unfold kvPrice
      omega
    omega
  · obtain ⟨hle, hin, hmax⟩ := rawContext_spec hfits cap hzero
    have hsome : b.kvBytesAvailable.toNat ≠ 0 := fun heq => hzero (UInt64.toNat_inj.mp heq)
    refine ⟨hle, fun t ht hyes => ?_, .inl ?_⟩
    · have hyes := (haccepts t ht).mp hyes
      apply hmax t.toNat ht
      omega
    · rw [haccepts _ hle]
      omega

theorem floored_of_inRange (h : b.InRange limit) (hcap : cap.toNat ≤ limit.toNat)
    (granularity : UInt64)
    (hfixed : b.weightsBytes.toNat + b.activationHeadroomBytes.toNat ≤
      b.deviceBudgetBytes.toNat) :
    b.Accepts (b.maxContext cap granularity).tokens := by
  have hfits := h.1
  have havailable := b.toNat_available
  have haccepts : ∀ t : UInt64, t.toNat ≤ cap.toNat → b.kvPrice t.toNat ≤ b.kvBytesAvailable.toNat →
      b.Accepts t := by
    intro t ht hprice
    rw [accepts_iff hfits (demand_lt h (Nat.le_trans ht hcap)), demand]
    omega
  dsimp only [maxContext]
  generalize maxU64 granularity 1 = granularity
  unfold fitTokens
  split
  · apply haccepts
    · exact Nat.zero_le _
    · exact Nat.le_trans (Nat.le_of_eq b.kvPrice_zero) (Nat.zero_le _)
  · rename_i hsome
    obtain ⟨hle, hin, -⟩ := rawContext_spec hfits cap hsome
    dsimp only
    split
    · rename_i hcapped
      apply haccepts cap (Nat.le_refl _)
      exact Nat.le_trans (b.kvPrice_mono hcapped) hin
    · rename_i hshort
      generalize hfloored : (if granularity.toNat ≤ (b.rawContext cap).toNat then
        b.rawContext cap / granularity * granularity else b.rawContext cap) = floored
      have hbelow : floored.toNat ≤ (b.rawContext cap).toNat := by
        rw [← hfloored]
        split
        · rw [UInt64.toNat_mul, UInt64.toNat_div]
          exact Nat.le_trans (Nat.mod_le _ _) (Nat.div_mul_le_self _ _)
        · exact Nat.le_refl _
      split
      · omega
      · apply haccepts floored (Nat.le_trans hbelow hle)
        exact Nat.le_trans (b.kvPrice_mono hbelow) hin

/-- The search is exact, and the check means what it says, up to some context exactly when what that
context takes can be counted. -/
theorem sound_iff (b : KvBudget) (limit : UInt64) : b.Sound limit ↔ b.InRange limit := by
  constructor
  · intro h
    exact KvBudget.exact_check.mp (h.exact_check limit (Nat.le_refl _))
  · intro h
    obtain ⟨hlayout, hwindows⟩ := h.1
    constructor
    case exact_check =>
      intro t ht
      exact KvBudget.exact_check.mpr ⟨h.1, demand_lt h ht⟩
    case monotone =>
      intro t t' ht _
      rw [KvShape.toNat_peak hlayout hwindows, KvShape.toNat_peak hlayout hwindows]
      exact KvShape.peakPrice_mono ht
    case resident_le =>
      intro t _
      rw [KvShape.toNat_peak hlayout hwindows]
      exact KvShape.resident_le hlayout hwindows t
    case le_full =>
      intro t _
      have hle := b.shape.prices_le b.residency t.toNat
      rw [KvShape.toNat_peak hlayout hwindows, KvShape.toNat_full hlayout, KvShape.peakPrice]
      omega
    case accepts_iff =>
      intro t ht
      rw [KvBudget.accepts_iff h.1 (demand_lt h ht), toNat_kvBytesAt h.1]
      rfl
    case largest => exact fun cap hcap => largest_of_inRange h hcap
    case floored => exact fun cap granularity hcap => floored_of_inRange h hcap granularity

/-- Weights of 4 GiB on a device of 8 GiB. At `2 ^ 61` tokens of 8 bytes the price is the largest
machine word, and the sum wraps around. -/
theorem wrapped_sum_accepted :
    let b : KvBudget := ⟨4294967296, 0, 8589934592, ⟨1, .gqa 1 1 1, .f32⟩, ⟨[]⟩, 1⟩
    b.Accepts 2305843009213693952 ∧
      b.deviceBudgetBytes.toNat < b.weightsBytes.toNat + b.activationHeadroomBytes.toNat +
        (b.kvBytesAt 2305843009213693952).value.toNat :=
  ⟨⟨4294967295, rfl⟩, by decide⟩

end KvBudget

end Frink.Context
