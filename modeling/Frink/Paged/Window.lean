import Mathlib
import Frink.Paged.Store
import Frink.Radix.Plain
import Frink.Radix.Tree

/-! # The window slide

When a request with a uniform sliding window may recycle pages, and which: a cadence, a
threshold behind the cursor, a semantic anchor that holds it back, and the prefix that
belongs to the tree.
-/

namespace Frink.Paged
open Radix

def SWA_RETAIN_GAP : ℕ := 16

def DEFAULT_SWA_EVICTION_INTERVAL : ℕ := 128

/-- The length at which a request opened its first tool call, if it has. -/
structure AnchorState where
  anchorLen : Option ℕ

namespace AnchorState

def new : AnchorState := ⟨none⟩

def clear (_ : AnchorState) : AnchorState := ⟨none⟩

/-- Offer one sampled token, `position` being the length including it. -/
def observe (a : AnchorState) (token : ℕ) (anchorToken : Option ℕ) (position : ℕ)
    (finished : Bool) : AnchorState :=
  if finished || a.anchorLen.isSome || anchorToken != some token then a else ⟨some position⟩

end AnchorState

structure WindowPolicy where
  slidingWindow : ℕ
  pageSize : ℕ
  evictionInterval : ℕ

namespace WindowPolicy

def new (slidingWindow pageSize : ℕ) : WindowPolicy :=
  ⟨slidingWindow, pageSize, DEFAULT_SWA_EVICTION_INTERVAL⟩

def withEvictionInterval (p : WindowPolicy) (interval : ℕ) : WindowPolicy :=
  { p with evictionInterval := max interval 1 }

end WindowPolicy

/-- One request's position, as a slide sees it. -/
structure SlidingRequest where
  position : ℕ
  alreadyReleased : ℕ
  lockedPrefix : ℕ
  decodeStep : ℕ

/-- Release the positions `[freeFrom, freeTo)`. -/
structure SlideDecision where
  freeFrom : ℕ
  freeTo : ℕ
  dropAnchor : Bool

def SlideDecision.freesNothing (d : SlideDecision) : Prop := d.freeTo ≤ d.freeFrom

instance (d : SlideDecision) : Decidable d.freesNothing := Nat.decLe _ _

/-- A negative threshold aligns further negative. -/
def alignThreshold (threshold page : ℤ) : ℤ :=
  if threshold < 0 then threshold - (page + threshold.tmod page).tmod page
  else (alignDown threshold.toNat page.toNat : ℕ)

def releaseSpan (threshold : ℤ) (request : SlidingRequest) (page : ℤ) (dropAnchor : Bool) :
    SlideDecision :=
  let aligned := alignThreshold threshold page
  let start := max request.alreadyReleased request.lockedPrefix
  ⟨start, if (start : ℤ) < aligned then aligned.toNat else start, dropAnchor⟩

/-- The threshold of a slide under an anchor, and whether the anchor is dropped. -/
def anchoredThreshold (threshold : ℤ) (policy : WindowPolicy) : Option ℕ → ℤ × Bool
  | none => (threshold, false)
  | some anchorLen =>
      let window : ℤ := policy.slidingWindow
      let gap : ℤ := SWA_RETAIN_GAP
      let cap := anchorLen - window - gap
      if window + gap < threshold - cap then (threshold, true) else (min threshold cap, false)

/-- The slide of one decode step; `none` when the cadence has not come round. -/
def decodeSlide (request : SlidingRequest) (anchor : Option ℕ) (policy : WindowPolicy)
    (forwardIter : ℕ) : Option SlideDecision :=
  if forwardIter % policy.evictionInterval ≠ 0 then none
  else if request.decodeStep < 1 then none
  else
    let threshold := ((request.position : ℤ) - 1) - policy.slidingWindow - policy.pageSize
    let (threshold, dropAnchor) := anchoredThreshold threshold policy anchor
    some (releaseSpan threshold request policy.pageSize dropAnchor)

/-- The positions a sliding request may hold beyond its prompt. -/
def slideHoldBound (window : ℕ) (policy : WindowPolicy) : ℕ :=
  2 * (window + SWA_RETAIN_GAP) + policy.evictionInterval + 2 * policy.pageSize

section Thresholds

variable {threshold : ℤ} {request : SlidingRequest} {policy : WindowPolicy} {anchor : Option ℕ}
  {page w e forwardIter : ℕ} {dropAnchor : Bool} {d : SlideDecision}

/-- An anchor only holds the threshold back, by no more than a window and the gap. -/
theorem anchoredThreshold_spec :
    (anchoredThreshold threshold policy anchor).1 ≤ threshold ∧
      threshold ≤ (anchoredThreshold threshold policy anchor).1 +
        (policy.slidingWindow + SWA_RETAIN_GAP) := by
  cases anchor with
  | none => exact ⟨le_refl _, by simp only [anchoredThreshold]; omega⟩
  | some a =>
    simp only [anchoredThreshold]
    split
    · exact ⟨le_refl _, by dsimp only; omega⟩
    · exact ⟨min_le_left _ _, by dsimp only; omega⟩

theorem alignThreshold_le (hp : 0 < page) : alignThreshold threshold page ≤ threshold := by
  unfold alignThreshold
  split
  · have h : (0 : ℤ) ≤ (page + threshold.tmod page).tmod page := by
      have hlt : -(page : ℤ) < threshold.tmod page := Int.lt_tmod_of_pos _ (by omega)
      exact Int.tmod_nonneg _ (by omega)
    omega
  · rename_i h
    have hle : alignDown threshold.toNat page ≤ threshold.toNat := alignDown_le
    rw [Int.toNat_natCast]
    omega

theorem lt_alignThreshold (h : 0 ≤ threshold) (hp : 0 < page) :
    threshold < alignThreshold threshold page + page := by
  unfold alignThreshold
  rw [if_neg (not_lt.mpr h), Int.toNat_natCast]
  have hlt : threshold.toNat < (threshold.toNat / page + 1) * page := by
    rw [Nat.mul_comm]
    exact Nat.lt_mul_div_succ _ hp
  have heq : (threshold.toNat / page + 1) * page = alignDown threshold.toNat page + page := by
    rw [alignDown, Nat.succ_mul]
  omega

theorem dvd_alignThreshold (h : 0 ≤ threshold) : page ∣ (alignThreshold threshold page).toNat := by
  unfold alignThreshold
  rw [if_neg (not_lt.mpr h), Int.toNat_natCast, Int.toNat_natCast]
  exact dvd_alignDown

/-- What a slide of one step may decide: the span starts where the release stands or at the
tree's prefix, ends on a page behind the window and not much further behind. -/
structure Slides (request : SlidingRequest) (policy : WindowPolicy) (d : SlideDecision) : Prop where
  start : d.freeFrom = max request.alreadyReleased request.lockedPrefix
  le : d.freeFrom ≤ d.freeTo
  aligned : d.freeFrom < d.freeTo → policy.pageSize ∣ d.freeTo
  behind : d.freeFrom < d.freeTo →
    d.freeTo + policy.slidingWindow + policy.pageSize + 1 ≤ request.position
  lag : request.position ≤ d.freeTo + 2 * policy.slidingWindow + SWA_RETAIN_GAP + 2 * policy.pageSize

theorem releaseSpan_spec (hp : 0 < page) (hle : threshold ≤ request.position - 1 - w - page)
    (hge : request.position - 1 - w - page ≤ threshold + (w + SWA_RETAIN_GAP)) :
    Slides request ⟨w, page, e⟩ (releaseSpan threshold request page dropAnchor) := by
  have ha := @alignThreshold_le threshold page hp
  unfold releaseSpan
  dsimp only
  by_cases hs : ((max request.alreadyReleased request.lockedPrefix : ℕ) : ℤ) <
      alignThreshold threshold page
  · have h0 : 0 ≤ threshold := by omega
    have hl := lt_alignThreshold h0 hp
    rw [if_pos hs]
    refine ⟨rfl, ?_, fun _ => dvd_alignThreshold h0, fun _ => ?_, ?_⟩
    all_goals dsimp only; omega
  · rw [if_neg hs]
    refine ⟨rfl, le_refl _, fun h => absurd h (lt_irrefl _), fun h => absurd h (lt_irrefl _), ?_⟩
    dsimp only
    rcases lt_or_ge threshold 0 with h0 | h0
    · omega
    · have hl := lt_alignThreshold h0 hp
      omega

theorem decodeSlide_spec (hp : 0 < policy.pageSize)
    (h : decodeSlide request anchor policy forwardIter = some d) :
    forwardIter % policy.evictionInterval = 0 ∧ Slides request policy d := by
  unfold decodeSlide at h
  split at h
  · cases h
  rename_i hc
  split at h
  · cases h
  obtain ⟨hle, hge⟩ := @anchoredThreshold_spec
    (((request.position : ℤ) - 1) - policy.slidingWindow - policy.pageSize) policy anchor
  obtain rfl : releaseSpan _ _ _ _ = d := Option.some.inj h
  exact ⟨not_not.mp hc, releaseSpan_spec hp hle hge⟩

theorem decodeSlide_none (hd : 1 ≤ request.decodeStep)
    (h : decodeSlide request anchor policy forwardIter = none) :
    forwardIter % policy.evictionInterval ≠ 0 := by
  unfold decodeSlide at h
  rw [if_neg (show ¬request.decodeStep < 1 from not_lt.mpr hd)] at h
  split at h
  · assumption
  · cases h

end Thresholds

end Frink.Paged

/-! ## A request's lease

The page groups one request holds in position order, the block tables that name their
blocks, and for a sliding window the groups it recycled and keeps for itself.
-/

namespace Frink.Paged
open Radix

/-- The sliding-window state one paged request carries. -/
structure WindowSlide where
  policy : WindowPolicy
  released : ℕ
  lockedPrefix : ℕ
  decodeStep : ℕ
  anchor : AnchorState
  anchorToken : Option ℕ

/-- `none` among the groups is an index whose group a slide recycled into `spare`;
`adopted` counts the leading groups that came from the tree; `radix` says whether the
lease holds the tree. -/
structure PagedLease where
  caches : List PagedKvCache
  groups : List (Option PageGroup)
  spare : List PageGroup
  adopted : Option (ℕ × Handle)
  radix : Bool
  salt : Option ℕ
  window : Option WindowSlide

/-- Take the groups of `[lo, hi)` out of the table. -/
def recycle (groups : List (Option PageGroup)) (lo hi : ℕ) :
    Option (List (Option PageGroup) × List PageGroup) :=
  if lo ≤ hi ∧ hi ≤ groups.length then
    some (groups.take lo ++ List.replicate (hi - lo) none ++ groups.drop hi,
      ((groups.drop lo).take (hi - lo)).reduceOption)
  else none

/-- Append one block to each cache's table, as far as there are blocks. -/
def appendBlocks : List PagedKvCache → List ℕ → List PagedKvCache
  | c :: caches, b :: blocks => c.appendBlock b :: appendBlocks caches blocks
  | caches, _ => caches

namespace PagedLease

variable (l : PagedLease)

/-- Every group the lease gives back when it is dropped. -/
def held : List PageGroup := l.groups.reduceOption ++ l.spare

def adoptedPositions (blockSize : ℕ) : ℕ := (l.adopted.map fun a => a.1 * blockSize).getD 0

/-- Whether the window has taken any page away. -/
def hasSlid : Bool := l.window.any fun w => 0 < w.released

def slides : Bool := l.window.isSome

/-- Offer one sampled token to the anchor detector. -/
def observeSampled (token position : ℕ) (finished : Bool) : PagedLease :=
  { l with window := l.window.map fun w =>
    { w with anchor := w.anchor.observe (token % 2 ^ 32) w.anchorToken position finished } }

/-- One decode step's window slide. -/
def slide (position blockSize : ℕ) : Option PagedLease :=
  match l.window with
  | none => some l
  | some w =>
      let w := { w with decodeStep := w.decodeStep + 1 }
      let request : SlidingRequest := ⟨position, w.released, w.lockedPrefix, w.decodeStep⟩
      match decodeSlide request w.anchor.anchorLen w.policy w.decodeStep with
      | none => some { l with window := some w }
      | some decision =>
          let w := if decision.dropAnchor then { w with anchor := w.anchor.clear } else w
          if decision.freesNothing then some { l with window := some w }
          else do
            let (groups, taken) ←
              recycle l.groups (decision.freeFrom / blockSize) (decision.freeTo / blockSize)
            some { l with
              groups := groups
              spare := l.spare ++ taken
              window := some { w with released := decision.freeTo } }

/-- A page to install: the last one recycled, else a fresh one from the store. -/
def takePage (store : SharedPagedKv) : Option (PageGroup × PagedLease × SharedPagedKv) :=
  match l.spare.getLast? with
  | some group => some (group, { l with spare := l.spare.dropLast }, store)
  | none => do
    let (group, store) ← store.acquireGroup
    some (group, l, store)

/-- Install up to `n` pages, stopping where there is none. -/
def install : ℕ → PagedLease → SharedPagedKv → Option (PagedLease × SharedPagedKv)
  | 0, l, store => some (l, store)
  | n + 1, l, store =>
      match l.takePage store with
      | none => some (l, store)
      | some (group, l, store) => do
        let blocks ← store.groupBlocks group
        install n { l with
          caches := appendBlocks l.caches blocks
          groups := l.groups ++ [some group] } store

/-- Reach the page `position` belongs to. -/
def extendTo (position blockSize : ℕ) (store : SharedPagedKv) :
    Option (PagedLease × SharedPagedKv) :=
  install (position / blockSize + 1 - l.groups.length) l store

def beforeStep (position : ℕ) (store : SharedPagedKv) : Option (PagedLease × SharedPagedKv) :=
  match l.window with
  | none => some (l, store)
  | some _ => do
    let blockSize ← store.blockSize
    let l ← l.slide position blockSize
    l.extendTo position blockSize store

/-- Every block table has one entry per group index. -/
def TablesMatchGroups : Prop := ∀ c ∈ l.caches, c.blockTable.length = l.groups.length

end PagedLease

end Frink.Paged
