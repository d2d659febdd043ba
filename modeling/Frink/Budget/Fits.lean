import Frink.Budget.Split

/-! # Splits that fit

Where no product, sum or cast wraps around, an accepted split costs at most the budget, its floors
hold and it is the best one. Which inputs make something wrap is told by the exact cost of the
smallest split the function may choose.
-/

namespace Frink.Budget

open Machine

/-- What `slots` and `pages` cost, exactly. -/
def cost (slots pages bytesPerExpert bytesPerPage : UInt64) : ℕ :=
  slots.toNat * bytesPerExpert.toNat + pages.toNat * bytesPerPage.toNat

section Required

variable {slots pages bytesPerExpert bytesPerPage : UInt64}

theorem exact_requiredBytes :
    (requiredBytes slots pages bytesPerExpert bytesPerPage).exact = true ↔
      cost slots pages bytesPerExpert bytesPerPage < 2 ^ 63 := by
  simp only [requiredBytes, Tracked.exact_bind, Bool.and_eq_true, exact_mulU64, exact_addU64,
    exact_asI64, cost]
  constructor
  · rintro ⟨hs, hp, hsum, hcast⟩
    rw [toNat_addU64 hsum, toNat_mulU64 hs, toNat_mulU64 hp] at hcast
    exact hcast
  · intro h
    have hs : slots.toNat * bytesPerExpert.toNat < 2 ^ 64 := by omega
    have hp : pages.toNat * bytesPerPage.toNat < 2 ^ 64 := by omega
    have hsum : (mulU64 slots bytesPerExpert).value.toNat + (mulU64 pages bytesPerPage).value.toNat <
        2 ^ 64 := by
      rw [toNat_mulU64 hs, toNat_mulU64 hp]
      omega
    refine ⟨hs, hp, hsum, ?_⟩
    rw [toNat_addU64 hsum, toNat_mulU64 hs, toNat_mulU64 hp]
    exact h

theorem toInt_requiredBytes (h : cost slots pages bytesPerExpert bytesPerPage < 2 ^ 63) :
    (requiredBytes slots pages bytesPerExpert bytesPerPage).value.toInt =
      cost slots pages bytesPerExpert bytesPerPage := by
  rw [cost] at h ⊢
  have hs : slots.toNat * bytesPerExpert.toNat < 2 ^ 64 := by omega
  have hp : pages.toNat * bytesPerPage.toNat < 2 ^ 64 := by omega
  have hsum : (mulU64 slots bytesPerExpert).value.toNat + (mulU64 pages bytesPerPage).value.toNat <
      2 ^ 64 := by
    rw [toNat_mulU64 hs, toNat_mulU64 hp]
    omega
  simp only [requiredBytes, Tracked.value_bind]
  rw [toInt_asI64 (by rw [toNat_addU64 hsum, toNat_mulU64 hs, toNat_mulU64 hp]; exact h),
    toNat_addU64 hsum, toNat_mulU64 hs, toNat_mulU64 hp]

end Required

section Rebuild

variable (request : RebuildRequest) (current : PoolSizes) (floors : PoolFloors) (idle : Bool)
  (budgetBytes : Int64) (bytesPerExpert bytesPerPage fixedBytes : UInt64)

/-- A rebuild to `target` is in order: it is what was asked for, above the floors and affordable. -/
structure RebuildFits (target : PoolSizes) : Prop where

  target_eq : target = rebuildTarget request current

  cost_le : (cost target.moeCacheSlots target.kvPages bytesPerExpert bytesPerPage : ℤ) +
    fixedBytes.toNat ≤ budgetBytes.toInt

  moe : ∀ n ∈ request.moeCacheSlots, floors.moeSlots.toNat ≤ n.toNat

  kv : ∀ n ∈ request.kvPages, floors.kvPages.toNat ≤ n.toNat ∧ 2 ≤ n.toNat

  mamba : ∀ n ∈ request.mambaSlots, ∃ floor ∈ floors.mambaSlots, floor.toNat ≤ n.toNat

  swa : ∀ n ∈ request.swaPages, ∃ floor ∈ floors.swaPages, floor.toNat ≤ n.toNat

/-- Nothing wraps, and what is accepted is in order. -/
def RebuildSound : Prop :=
  (validateRebuild request current floors idle budgetBytes bytesPerExpert bytesPerPage
    fixedBytes).exact = true ∧
  ∀ target, (validateRebuild request current floors idle budgetBytes bytesPerExpert bytesPerPage
    fixedBytes).value = .ok target →
    RebuildFits request current floors budgetBytes bytesPerExpert bytesPerPage fixedBytes target

/-- A request that reaches the arithmetic costs less than `2 ^ 63` bytes, and so does the rest. -/
def RebuildInRange : Prop :=
  checkFloors request floors idle = .ok () →
    cost (rebuildTarget request current).moeCacheSlots (rebuildTarget request current).kvPages
      bytesPerExpert bytesPerPage < 2 ^ 63 ∧ fixedBytes.toNat < 2 ^ 63

variable {request current floors idle budgetBytes bytesPerExpert bytesPerPage fixedBytes}

theorem below_ok {pool : String} {requested : Option UInt64} {floor : UInt64}
    (h : below pool requested floor = .ok ()) : ∀ n ∈ requested, floor.toNat ≤ n.toNat := by
  rintro n ⟨⟩
  unfold below at h
  dsimp only at h
  split at h
  · cases h
  · omega

theorem belowOwn_ok {pool missing : String} {requested floor : Option UInt64}
    (h : belowOwn pool missing requested floor = .ok ()) :
    ∀ n ∈ requested, ∃ f ∈ floor, f.toNat ≤ n.toNat := by
  rintro n ⟨⟩
  cases floor with
  | none => cases h
  | some f =>
    have h : below pool (some n) f = .ok () := h
    exact ⟨f, rfl, below_ok h n rfl⟩

theorem checkFloors_ok (h : checkFloors request floors idle = .ok ()) :
    (∀ n ∈ request.moeCacheSlots, floors.moeSlots.toNat ≤ n.toNat) ∧
    (∀ n ∈ request.kvPages, floors.kvPages.toNat ≤ n.toNat ∧ 2 ≤ n.toNat) ∧
    (∀ n ∈ request.mambaSlots, ∃ floor ∈ floors.mambaSlots, floor.toNat ≤ n.toNat) ∧
    ∀ n ∈ request.swaPages, ∃ floor ∈ floors.swaPages, floor.toNat ≤ n.toNat := by
  unfold checkFloors at h
  cases idle with
  | false => cases h
  | true =>
    cases hmoe : below "moe" request.moeCacheSlots floors.moeSlots with
    | error e =>
      rw [hmoe] at h
      cases h
    | ok u =>
      rw [hmoe] at h
      cases hkv : below "kv" request.kvPages (maxU64 floors.kvPages 2) with
      | error e =>
        rw [hkv] at h
        cases h
      | ok u =>
        rw [hkv] at h
        cases hmamba : belowOwn "mamba" "recurrent-state" request.mambaSlots floors.mambaSlots with
        | error e =>
          rw [hmamba] at h
          cases h
        | ok u =>
          rw [hmamba] at h
          refine ⟨below_ok hmoe, fun n hn => ?_, belowOwn_ok hmamba, belowOwn_ok h⟩
          have hle := below_ok hkv n hn
          have htwo : (2 : UInt64).toNat = 2 := rfl
          rw [toNat_maxU64] at hle
          omega

/-- A rebuild is checked soundly exactly when the exact numbers are in range. -/
theorem rebuildSound_iff :
    RebuildSound request current floors idle budgetBytes bytesPerExpert bytesPerPage fixedBytes ↔
    RebuildInRange request current floors idle bytesPerExpert bytesPerPage fixedBytes := by
  unfold RebuildSound RebuildInRange validateRebuild
  cases hcheck : checkFloors request floors idle with
  | error e => exact iff_of_true ⟨rfl, nofun⟩ nofun
  | ok u =>
    cases u
    simp only [Tracked.exact_bind, Tracked.value_bind, Bool.and_eq_true, exact_requiredBytes,
      exact_asI64, forall_const]
    constructor
    · rintro ⟨⟨hcost, hfixed, -⟩, -⟩
      exact ⟨hcost, hfixed⟩
    · rintro ⟨hcost, hfixed⟩
      refine ⟨⟨hcost, hfixed, ?_⟩, ?_⟩
      · split <;> rfl
      · intro target htarget
        split at htarget
        · cases htarget
        · rename_i hfits
          have htarget : target = rebuildTarget request current := (Except.ok.inj htarget).symm
          rw [toInt_saturatingSub, toInt_requiredBytes hcost, toInt_asI64 hfixed] at hfits
          obtain ⟨hmoe, hkv, hmamba, hswa⟩ := checkFloors_ok hcheck
          refine ⟨htarget, ?_, hmoe, hkv, hmamba, hswa⟩
          rw [htarget]
          omega

end Rebuild

section Plan

variable (budgetBytes : Int64) (bytesPerExpert bytesPerPage numExperts totalExperts : UInt64)
  (prefillOverlap : Bool) (kvReservePages maxSlots : UInt64)

/-- The most slots a split may have. -/
def ceiling : ℕ := min totalExperts.toNat maxSlots.toNat

/-- The fewest: two layers where the prefill overlaps and they are allowed, and else one. -/
def layerSlots : ℕ :=
  if prefillOverlap ∧ 2 * numExperts.toNat ≤ ceiling totalExperts maxSlots then 2 * numExperts.toNat
  else numExperts.toNat

/-- The best split there is: affordable, above the floors, with as many slots as the reserve leaves
and as many pages as go beside them. -/
structure SplitFits (sizes : PoolSizes) : Prop where

  cost_le : (cost sizes.moeCacheSlots sizes.kvPages bytesPerExpert bytesPerPage : ℤ) ≤
    budgetBytes.toInt

  layer : numExperts.toNat ≤ sizes.moeCacheSlots.toNat

  reserve : kvReservePages.toNat ≤ sizes.kvPages.toNat

  two_pages : 2 ≤ sizes.kvPages.toNat

  ceiling : sizes.moeCacheSlots.toNat ≤ ceiling totalExperts maxSlots

  most_slots : ∀ n, n ≤ Budget.ceiling totalExperts maxSlots →
    (n * bytesPerExpert.toNat + kvReservePages.toNat * bytesPerPage.toNat : ℤ) ≤
      budgetBytes.toInt → n ≤ sizes.moeCacheSlots.toNat

  most_pages : ∀ n : ℕ,
    (sizes.moeCacheSlots.toNat * bytesPerExpert.toNat + n * bytesPerPage.toNat : ℤ) ≤
      budgetBytes.toInt → n ≤ sizes.kvPages.toNat

/-- Nothing wraps, and what is accepted is the best split. -/
def PlanSound : Prop :=
  (planCacheBudget budgetBytes bytesPerExpert bytesPerPage numExperts totalExperts prefillOverlap
    kvReservePages maxSlots).exact = true ∧
  ∀ sizes, (planCacheBudget budgetBytes bytesPerExpert bytesPerPage numExperts totalExperts
    prefillOverlap kvReservePages maxSlots).value = some (.ok sizes) →
    SplitFits budgetBytes bytesPerExpert bytesPerPage numExperts totalExperts kvReservePages maxSlots
      sizes

/-- The smallest split costs less than `2 ^ 63` bytes, and neither of its parts takes the budget
below `-2 ^ 63`, unless an assertion fails first. -/
def PlanInRange : Prop :=
  bytesPerExpert.toNat ≠ 0 → bytesPerPage.toNat ≠ 0 →
    (prefillOverlap = true → 2 * numExperts.toNat < 2 ^ 64) ∧
    (layerSlots numExperts totalExperts prefillOverlap maxSlots ≤ ceiling totalExperts maxSlots →
      layerSlots numExperts totalExperts prefillOverlap maxSlots * bytesPerExpert.toNat +
        kvReservePages.toNat * bytesPerPage.toNat < 2 ^ 63 ∧
      -2 ^ 63 ≤ budgetBytes.toInt - (kvReservePages.toNat * bytesPerPage.toNat : ℕ) ∧
      -2 ^ 63 ≤ budgetBytes.toInt -
        (layerSlots numExperts totalExperts prefillOverlap maxSlots * bytesPerExpert.toNat : ℕ))

end Plan

section Within

variable {budgetBytes : Int64} {bytesPerExpert bytesPerPage numExperts kvReservePages hi lo : UInt64}
  {overlap : Bool}

theorem exact_less {n price : UInt64} : (less budgetBytes n price).exact = true ↔
    n.toNat * price.toNat < 2 ^ 63 ∧
      -2 ^ 63 ≤ budgetBytes.toInt - (n.toNat * price.toNat : ℕ) := by
  have hlt := budgetBytes.toInt_lt
  simp only [less, Tracked.exact_bind, Bool.and_eq_true, exact_mulU64, exact_asI64, exact_subI64]
  constructor
  · rintro ⟨hmul, hcast, hsub, -⟩
    rw [toNat_mulU64 hmul] at hcast
    rw [toInt_asI64 (by rwa [toNat_mulU64 hmul]), toNat_mulU64 hmul] at hsub
    exact ⟨hcast, hsub⟩
  · rintro ⟨hcast, hsub⟩
    have hmul : n.toNat * price.toNat < 2 ^ 64 := by omega
    rw [toInt_asI64 (by rwa [toNat_mulU64 hmul]), toNat_mulU64 hmul]
    exact ⟨hmul, hcast, hsub, by omega⟩

theorem toInt_less {n price : UInt64} (h : (less budgetBytes n price).exact = true) :
    (less budgetBytes n price).value.toInt =
      budgetBytes.toInt - (n.toNat * price.toNat : ℕ) := by
  have hlt := budgetBytes.toInt_lt
  obtain ⟨hcast, hsub⟩ := exact_less.mp h
  have hmul : n.toNat * price.toNat < 2 ^ 64 := by omega
  have htaken : (asI64 (mulU64 n price).value).value.toInt = (n.toNat * price.toNat : ℕ) := by
    rw [toInt_asI64 (by rwa [toNat_mulU64 hmul]), toNat_mulU64 hmul]
  simp only [less, Tracked.value_bind]
  rw [toInt_subI64 (by rwa [htaken]) (by rw [htaken]; omega), htaken]

/-- What is affordable is the largest number whose price is there. -/
theorem le_affordable {left : Int64} {price : UInt64} (hleft : 0 ≤ left.toInt)
    (hprice : price.toNat ≠ 0) (n : ℕ) :
    n ≤ (affordable left price).toNat ↔ ((n * price.toNat : ℕ) : ℤ) ≤ left.toInt := by
  rw [affordable, UInt64.toNat_div, Nat.le_div_iff_mul_le (Nat.pos_of_ne_zero hprice),
    ← toNat_toUInt64 hleft, Int.ofNat_le]

theorem fillSlots_spec {spare : Int64} (hprice : bytesPerExpert.toNat ≠ 0)
    (hlo : lo.toNat ≤ hi.toNat) :
    lo.toNat ≤ (fillSlots spare bytesPerExpert hi lo).toNat ∧
    (fillSlots spare bytesPerExpert hi lo).toNat ≤ hi.toNat ∧
    ((fillSlots spare bytesPerExpert hi lo).toNat = lo.toNat ∨
      (((fillSlots spare bytesPerExpert hi lo).toNat * bytesPerExpert.toNat : ℕ) : ℤ) ≤
        spare.toInt) ∧
    ∀ n, n ≤ hi.toNat → ((n * bytesPerExpert.toNat : ℕ) : ℤ) ≤ spare.toInt →
      n ≤ (fillSlots spare bytesPerExpert hi lo).toNat := by
  unfold fillSlots
  dsimp only
  rw [toNat_maxU64, toNat_minU64]
  split
  · rename_i hspare
    have hzero : (0 : UInt64).toNat = 0 := rfl
    refine ⟨by omega, by omega, by omega, fun n _ hn => ?_⟩
    have : n * bytesPerExpert.toNat = 0 := by omega
    rcases Nat.mul_eq_zero.mp this with h | h
    · omega
    · exact absurd h hprice
  · rename_i hspare
    have hleft : 0 ≤ spare.toInt := by omega
    refine ⟨by omega, by omega, ?_, fun n hn hle => ?_⟩
    · by_cases hcase : min (affordable spare bytesPerExpert).toNat hi.toNat ≤ lo.toNat
      · left
        omega
      · right
        rw [← le_affordable hleft hprice]
        omega
    · have := (le_affordable hleft hprice n).mpr hle
      omega

theorem fillPages_spec {remaining : Int64} (hprice : bytesPerPage.toNat ≠ 0) :
    kvReservePages.toNat ≤ (fillPages remaining bytesPerPage kvReservePages).toNat ∧
    ((fillPages remaining bytesPerPage kvReservePages).toNat = kvReservePages.toNat ∨
      (((fillPages remaining bytesPerPage kvReservePages).toNat * bytesPerPage.toNat : ℕ) : ℤ) ≤
        remaining.toInt) ∧
    ∀ n, ((n * bytesPerPage.toNat : ℕ) : ℤ) ≤ remaining.toInt →
      n ≤ (fillPages remaining bytesPerPage kvReservePages).toNat := by
  unfold fillPages
  split
  · rename_i hremaining
    refine ⟨Nat.le_refl _, .inl rfl, fun n hn => ?_⟩
    have : n * bytesPerPage.toNat = 0 := by omega
    rcases Nat.mul_eq_zero.mp this with h | h
    · omega
    · exact absurd h hprice
  · rename_i hremaining
    have hleft : 0 ≤ remaining.toInt := by omega
    rw [toNat_maxU64]
    refine ⟨by omega, ?_, fun n hle => ?_⟩
    · by_cases hcase : (affordable remaining bytesPerPage).toNat ≤ kvReservePages.toNat
      · left
        omega
      · right
        rw [← le_affordable hleft hprice]
        omega
    · have := (le_affordable hleft hprice n).mpr hle
      omega

theorem exact_overlaps {limit : UInt64} : (overlaps overlap numExperts limit).exact = true ↔
    (overlap = true → 2 * numExperts.toNat < 2 ^ 64) := by
  cases overlap with
  | false => exact iff_of_true rfl nofun
  | true =>
    have htwo : (2 : UInt64).toNat = 2 := rfl
    rw [overlaps, if_pos rfl, Tracked.exact_bind, Bool.and_eq_true, exact_mulU64, htwo]
    exact ⟨fun h _ => h.1, fun h => ⟨h rfl, rfl⟩⟩

theorem value_overlaps {limit : UInt64} (h : (overlaps overlap numExperts limit).exact = true) :
    (overlaps overlap numExperts limit).value =
      decide (overlap = true ∧ 2 * numExperts.toNat ≤ limit.toNat) := by
  cases overlap with
  | false => simp [overlaps]
  | true =>
    have htwo : (2 : UInt64).toNat = 2 := rfl
    have hboth := exact_overlaps.mp h rfl
    rw [overlaps, if_pos rfl, Tracked.value_bind, Tracked.value_pure,
      toNat_mulU64 (by rwa [htwo]), htwo]
    simp

/-- What can wrap between `lo` and `hi` is told by the cost of `lo` slots and the reserve; and if
nothing does, what is accepted is the best split. -/
theorem planWithin_spec (hexpert : bytesPerExpert.toNat ≠ 0) (hpage : bytesPerPage.toNat ≠ 0)
    (hlo : lo.toNat ≤ hi.toNat) (hboth : overlap = true → 2 * numExperts.toNat < 2 ^ 64) :
    ((planWithin budgetBytes bytesPerExpert bytesPerPage numExperts kvReservePages hi lo
        overlap).exact = true ↔
      lo.toNat * bytesPerExpert.toNat + kvReservePages.toNat * bytesPerPage.toNat < 2 ^ 63 ∧
      -2 ^ 63 ≤ budgetBytes.toInt - (kvReservePages.toNat * bytesPerPage.toNat : ℕ) ∧
      -2 ^ 63 ≤ budgetBytes.toInt - (lo.toNat * bytesPerExpert.toNat : ℕ)) ∧
    ∀ sizes, (planWithin budgetBytes bytesPerExpert bytesPerPage numExperts kvReservePages hi lo
        overlap).exact = true →
      (planWithin budgetBytes bytesPerExpert bytesPerPage numExperts kvReservePages hi lo
        overlap).value = .ok sizes →
      (cost sizes.moeCacheSlots sizes.kvPages bytesPerExpert bytesPerPage : ℤ) ≤
        budgetBytes.toInt ∧
      lo.toNat ≤ sizes.moeCacheSlots.toNat ∧ sizes.moeCacheSlots.toNat ≤ hi.toNat ∧
      kvReservePages.toNat ≤ sizes.kvPages.toNat ∧ 2 ≤ sizes.kvPages.toNat ∧
      (∀ n, n ≤ hi.toNat →
        ((n * bytesPerExpert.toNat : ℕ) : ℤ) + (kvReservePages.toNat * bytesPerPage.toNat : ℕ) ≤
          budgetBytes.toInt → n ≤ sizes.moeCacheSlots.toNat) ∧
      ∀ n : ℕ, ((sizes.moeCacheSlots.toNat * bytesPerExpert.toNat : ℕ) : ℤ) +
          (n * bytesPerPage.toNat : ℕ) ≤ budgetBytes.toInt → n ≤ sizes.kvPages.toNat := by
  have hfinal : ∀ (needed : Int64) (slots pages : UInt64) (again : Bool),
      (if budgetBytes.toInt < needed.toInt ∨ pages.toNat ≤ 1 then
          pure (.error ⟨needed, budgetBytes, ⟨slots, pages, again⟩⟩)
        else pure (.ok ⟨slots, pages, again⟩) :
          Tracked (Except BudgetTooSmall PoolSizes)).exact = true := by
    intro needed slots pages again
    split <;> rfl
  simp only [planWithin, Tracked.exact_bind, Tracked.value_bind, Bool.and_eq_true,
    exact_overlaps.mpr hboth, exact_requiredBytes, hfinal, true_and, and_true]
  generalize hspare : (less budgetBytes kvReservePages bytesPerPage).value = spare
  obtain ⟨hge, hle, hslots, hmost⟩ := @fillSlots_spec bytesPerExpert hi lo spare hexpert hlo
  generalize fillSlots spare bytesPerExpert hi lo = slots at hge hle hslots hmost ⊢
  generalize hremaining : (less budgetBytes slots bytesPerExpert).value = remaining
  obtain ⟨hreserve, hpages, hrest⟩ := @fillPages_spec bytesPerPage kvReservePages remaining hpage
  generalize fillPages remaining bytesPerPage kvReservePages = pages at hreserve hpages hrest ⊢
  have hslotsCost := Nat.mul_le_mul_right bytesPerExpert.toNat hge
  have hpagesCost := Nat.mul_le_mul_right bytesPerPage.toNat hreserve
  have hlt := budgetBytes.toInt_lt
  have hspareEq := @toInt_less budgetBytes kvReservePages bytesPerPage
  have hremainingEq := @toInt_less budgetBytes slots bytesPerExpert
  rw [hspare, exact_less] at hspareEq
  rw [hremaining, exact_less] at hremainingEq
  rw [exact_less, exact_less, cost]
  refine ⟨⟨?_, ?_⟩, ?_⟩
  · rintro ⟨⟨hfloor, hfloor'⟩, ⟨htaken, htaken'⟩, hcost⟩
    omega
  · rintro ⟨hsmall, hfloor, htaken⟩
    have hspareEq := hspareEq ⟨by omega, hfloor⟩
    have hslotsFit : slots.toNat * bytesPerExpert.toNat = lo.toNat * bytesPerExpert.toNat ∨
        ((slots.toNat * bytesPerExpert.toNat : ℕ) : ℤ) ≤ spare.toInt :=
      hslots.imp_left fun heq => by rw [heq]
    have hpagesFit : pages.toNat * bytesPerPage.toNat = kvReservePages.toNat * bytesPerPage.toNat ∨
        ((pages.toNat * bytesPerPage.toNat : ℕ) : ℤ) ≤ remaining.toInt :=
      hpages.imp_left fun heq => by rw [heq]
    have hremainingEq := hremainingEq ⟨by omega, by omega⟩
    exact ⟨⟨by omega, hfloor⟩, ⟨by omega, by omega⟩, by omega⟩
  · rintro sizes ⟨hfloor, htaken, hcost⟩ hok
    have hspareEq := hspareEq hfloor
    have hremainingEq := hremainingEq htaken
    have hneeded := @toInt_requiredBytes slots pages bytesPerExpert bytesPerPage hcost
    rw [cost] at hneeded
    split at hok
    · cases hok
    · rename_i hfits
      obtain rfl := Except.ok.inj hok
      rw [hneeded] at hfits
      dsimp only [cost]
      refine ⟨by omega, hge, hle, hreserve, by omega, fun n hn hpays => ?_, fun n hpays => ?_⟩
      · exact hmost n hn (by omega)
      · exact hrest n (by omega)

end Within

section Sound

variable {budgetBytes : Int64} {bytesPerExpert bytesPerPage numExperts totalExperts : UInt64}
  {prefillOverlap : Bool} {kvReservePages maxSlots : UInt64}

theorem toNat_ceiling : (minU64 totalExperts maxSlots).toNat = ceiling totalExperts maxSlots :=
  toNat_minU64

/-- The slots a layer needs, once the two layers are known not to wrap. -/
theorem layers_spec (h : prefillOverlap = true → 2 * numExperts.toNat < 2 ^ 64) :
    (layers (decide (prefillOverlap = true ∧
        2 * numExperts.toNat ≤ (minU64 totalExperts maxSlots).toNat)) numExperts).exact = true ∧
    (layers (decide (prefillOverlap = true ∧
        2 * numExperts.toNat ≤ (minU64 totalExperts maxSlots).toNat)) numExperts).value.toNat =
      layerSlots numExperts totalExperts prefillOverlap maxSlots := by
  have htwo : (2 : UInt64).toNat = 2 := rfl
  rw [toNat_ceiling, layers, layerSlots]
  by_cases hcase : prefillOverlap = true ∧ 2 * numExperts.toNat ≤ ceiling totalExperts maxSlots
  · have hmul := h hcase.1
    rw [if_pos (decide_eq_true hcase), if_pos hcase, exact_mulU64, htwo,
      toNat_mulU64 (by rwa [htwo]), htwo]
    exact ⟨hmul, rfl⟩
  · rw [if_neg (by simpa using hcase), if_neg hcase]
    exact ⟨rfl, rfl⟩

/-- A split is planned soundly exactly when the smallest one is in range. -/
theorem planSound_iff :
    PlanSound budgetBytes bytesPerExpert bytesPerPage numExperts totalExperts prefillOverlap
      kvReservePages maxSlots ↔
    PlanInRange budgetBytes bytesPerExpert bytesPerPage numExperts totalExperts prefillOverlap
      kvReservePages maxSlots := by
  unfold PlanSound PlanInRange planCacheBudget
  by_cases hpriced : bytesPerExpert = 0 ∨ bytesPerPage = 0
  · rw [if_pos hpriced]
    apply iff_of_true ⟨rfl, nofun⟩
    intro hexpert hpage
    rcases hpriced with rfl | rfl
    · exact absurd rfl hexpert
    · exact absurd rfl hpage
  have hexpert : bytesPerExpert.toNat ≠ 0 := by
    intro h
    exact hpriced (.inl (UInt64.toNat_inj.mp h))
  have hpage : bytesPerPage.toNat ≠ 0 := by
    intro h
    exact hpriced (.inr (UInt64.toNat_inj.mp h))
  rw [if_neg hpriced]
  simp only [Tracked.exact_bind, Tracked.value_bind, Bool.and_eq_true, exact_overlaps,
    forall_const, hexpert, hpage, ne_eq, not_false_iff]
  by_cases hboth : prefillOverlap = true → 2 * numExperts.toNat < 2 ^ 64
  · obtain ⟨hlayers, hlo⟩ := @layers_spec numExperts totalExperts prefillOverlap maxSlots hboth
    rw [value_overlaps (exact_overlaps.mpr hboth)]
    generalize layers _ numExperts = lo at hlayers hlo ⊢
    rw [toNat_ceiling, hlo]
    by_cases hroom : layerSlots numExperts totalExperts prefillOverlap maxSlots ≤
        ceiling totalExperts maxSlots
    · rw [if_neg (Nat.not_lt_of_le hroom)]
      have hwithin := @planWithin_spec budgetBytes bytesPerExpert bytesPerPage numExperts
        kvReservePages (minU64 totalExperts maxSlots) lo.value
        (decide (prefillOverlap = true ∧ 2 * numExperts.toNat ≤ ceiling totalExperts maxSlots))
        hexpert hpage (by rw [hlo, toNat_ceiling]; exact hroom)
        (fun h => hboth (of_decide_eq_true h).1)
      rw [hlo, toNat_ceiling] at hwithin
      obtain ⟨hexact, hfits⟩ := hwithin
      simp only [Tracked.exact_bind, Tracked.value_bind, Tracked.exact_pure, Tracked.value_pure,
        Bool.and_true, hexact, hlayers, true_and, hroom, forall_const]
      constructor
      · exact And.left
      · rintro hrange
        refine ⟨hrange, fun sizes hsizes => ?_⟩
        obtain ⟨hcost, hlow, hhigh, hreserve, htwo, hslots, hpages⟩ :=
          hfits sizes (hexact.mpr hrange.2) (Option.some.inj hsizes)
        have hlayer : numExperts.toNat ≤ layerSlots numExperts totalExperts prefillOverlap maxSlots := by
          unfold layerSlots
          split <;> omega
        refine ⟨hcost, Nat.le_trans hlayer hlow, hreserve, htwo, hhigh, fun n hn hpays => ?_,
          fun n hpays => ?_⟩
        · exact hslots n hn (by omega)
        · exact hpages n (by omega)
    · rw [if_pos (Nat.lt_of_not_le hroom)]
      exact iff_of_true ⟨⟨hboth, hlayers, rfl⟩, nofun⟩ ⟨hboth, fun h => absurd h hroom⟩
  · apply iff_of_false
    · exact fun h => hboth h.1.1
    · exact fun h => hboth h.1

/-- What is accepted fits, and nothing wraps on the way, exactly where the exact numbers are in
range. -/
theorem accepted_fits (budgetBytes : Int64) (bytesPerExpert bytesPerPage : UInt64) :
    (∀ (request : RebuildRequest) (current : PoolSizes) (floors : PoolFloors) (idle : Bool)
      (fixedBytes : UInt64),
      RebuildSound request current floors idle budgetBytes bytesPerExpert bytesPerPage fixedBytes ↔
        RebuildInRange request current floors idle bytesPerExpert bytesPerPage fixedBytes) ∧
    ∀ (numExperts totalExperts : UInt64) (prefillOverlap : Bool)
      (kvReservePages maxSlots : UInt64),
      PlanSound budgetBytes bytesPerExpert bytesPerPage numExperts totalExperts prefillOverlap
        kvReservePages maxSlots ↔
      PlanInRange budgetBytes bytesPerExpert bytesPerPage numExperts totalExperts prefillOverlap
        kvReservePages maxSlots :=
  ⟨fun _ _ _ _ _ => rebuildSound_iff, fun _ _ _ _ _ => planSound_iff⟩

/-- 2 ^ 44 pages of 2 ^ 20 bytes cost nothing, and neither do 2 ^ 62 slots of four bytes. -/
theorem wrapped_split_accepted :
    (∃ target, (validateRebuild ⟨none, some 0x100000000000, none, none⟩ ⟨1, 1024, true⟩
        ⟨1, 16, none, none⟩ true 0x80000000 0x100000 0x100000 0).value = .ok target ∧
      ¬ (cost target.moeCacheSlots target.kvPages 0x100000 0x100000 : ℤ) ≤
        (0x80000000 : Int64).toInt) ∧
    ∃ sizes, (planCacheBudget 0x100000 4 1 0x4000000000000000 0x4000000000000000 false 2
        0x4000000000000000).value = some (.ok sizes) ∧
      ¬ (cost sizes.moeCacheSlots sizes.kvPages 4 1 : ℤ) ≤ (0x100000 : Int64).toInt := by
  constructor
  · exact ⟨⟨1, 0x100000000000, true⟩, by decide, by decide⟩
  · exact ⟨⟨0x4000000000000000, 0x100000, false⟩, by decide, by decide⟩

end Sound

end Frink.Budget
