import Mathlib
import Frink.Sampling.Chain

/-! # The argmax and the ranking

The argmax scan takes the last of the largest, a ranked list starts with the first of them. The
two meet at the last entry that is tied with the head.
-/

namespace Frink.Sampling

open Speculative.SamplingParams (argmax argmaxFrom)

section Argmax

variable {K : Type} [LinearOrder K] {scores : List K} {i k best : ℕ} {top x : K}

/-- Index `k` holds the last of the largest. -/
def IsLastMax (scores : List K) (k : ℕ) (x : K) : Prop :=
  scores[k]? = some x ∧ ∀ j y, scores[j]? = some y → y ≤ x ∧ (k < j → y < x)

theorem argmaxFrom_best (h : ∀ y ∈ scores, y < top) : argmaxFrom i best top scores = best := by
  induction scores generalizing i with
  | nil => rfl
  | cons y scores ih =>
    rw [argmaxFrom, if_pos (h y (by simp))]
    exact ih fun z hz => h z (by simp [hz])

theorem argmaxFrom_eq (h : IsLastMax scores k x) (htop : top ≤ x) :
    argmaxFrom i best top scores = i + k := by
  induction scores generalizing i k best top with
  | nil => cases h.1
  | cons y scores ih =>
    obtain ⟨hget, hmax⟩ := h
    rw [argmaxFrom]
    cases k with
    | zero =>
      cases hget
      rw [if_neg (not_lt.mpr htop)]
      apply argmaxFrom_best
      intro z hz
      obtain ⟨j, hj⟩ := List.mem_iff_getElem?.mp hz
      exact (hmax (j + 1) z hj).2 j.succ_pos
    | succ k =>
      have htail : IsLastMax scores k x := by
        refine ⟨hget, fun j z hj => ?_⟩
        obtain ⟨hle, hlt⟩ := hmax (j + 1) z hj
        exact ⟨hle, fun hk => hlt (Nat.succ_lt_succ hk)⟩
      split
      · rw [ih htail htop]
        omega
      · rw [ih htail (hmax 0 y rfl).1]
        omega

theorem argmax_eq (h : IsLastMax scores k x) : argmax scores = k := by
  cases scores with
  | nil => cases h.1
  | cons y scores =>
    obtain ⟨hget, hmax⟩ := h
    cases k with
    | zero =>
      cases hget
      apply argmaxFrom_best
      intro z hz
      obtain ⟨j, hj⟩ := List.mem_iff_getElem?.mp hz
      exact (hmax (j + 1) z hj).2 j.succ_pos
    | succ k =>
      have htail : IsLastMax scores k x := by
        refine ⟨hget, fun j z hj => ?_⟩
        obtain ⟨hle, hlt⟩ := hmax (j + 1) z hj
        exact ⟨hle, fun hk => hlt (Nat.succ_lt_succ hk)⟩
      rw [argmax, argmaxFrom_eq htail (hmax 0 y rfl).1]
      omega

theorem argmax_map {J : Type} [LinearOrder J] {f : K → J} (hf : StrictMono f) :
    argmax (scores.map f) = argmax scores := by
  have hfrom : ∀ (scores : List K) i best top,
      argmaxFrom i best (f top) (scores.map f) = argmaxFrom i best top scores := by
    intro scores
    induction scores with
    | nil => intros; rfl
    | cons y scores ih =>
      intro i best top
      rw [List.map_cons, argmaxFrom, argmaxFrom, ih, ih]
      simp only [hf.lt_iff_lt]
  cases scores with
  | nil => rfl
  | cons y scores => exact hfrom scores 1 0 y

end Argmax

section Ranking

variable {K : Type} [LinearOrder K] {ranking : List (ℕ × K)} {scores : List K} {x : K}

/-- The scores with their indices, larger ones first. -/
def ranked (scores : List K) : List (ℕ × K) := (scores.zipIdx.map Prod.swap).insertionSort Ahead

/-- The leading entries that hold `x`. -/
def leaders (x : K) (ranking : List (ℕ × K)) : List (ℕ × K) :=
  ranking.takeWhile fun e => decide (e.2 = x)

/-- A ranking of some of the scores, all others being below its head. -/
structure Ranks (scores : List K) (x : K) (ranking : List (ℕ × K)) : Prop where

  sorted : ranking.Pairwise Ahead

  get : ∀ e ∈ ranking, scores[e.1]? = some e.2

  head : ∃ i rest, ranking = (i, x) :: rest

  below : ∀ j y, scores[j]? = some y → (∀ e ∈ ranking, e.1 ≠ j) → y < x

theorem leaders_ne_nil (h : ∃ i rest, ranking = (i, x) :: rest) : leaders x ranking ≠ [] := by
  obtain ⟨i, rest, rfl⟩ := h
  simp [leaders]

theorem snd_of_mem_leaders {e : ℕ × K} (h : e ∈ leaders x ranking) : e.2 = x := by
  simpa using List.mem_takeWhile_imp h

theorem mem_of_mem_leaders {e : ℕ × K} (h : e ∈ leaders x ranking) : e ∈ ranking :=
  (List.takeWhile_prefix _).subset h

/-- Behind the leaders of a sorted ranking everything is below the head. -/
theorem leaders_eq_filter (hsorted : ranking.Pairwise Ahead) (hle : ∀ e ∈ ranking, e.2 ≤ x) :
    leaders x ranking = ranking.filter fun e => decide (e.2 = x) := by
  induction ranking with
  | nil => rfl
  | cons a ranking ih =>
    obtain ⟨ha, hrest⟩ := List.pairwise_cons.mp hsorted
    have ih' := ih hrest fun e he => hle e (List.mem_cons_of_mem _ he)
    unfold leaders at ih' ⊢
    by_cases hax : a.2 = x
    · simp [hax, ih']
    · have hlt : a.2 < x := lt_of_le_of_ne (hle a List.mem_cons_self) hax
      have hnone : ranking.filter (fun e => decide (e.2 = x)) = [] := by
        simp only [List.filter_eq_nil_iff, decide_eq_true_eq]
        rintro e he rfl
        exact absurd (ha e he).le (not_le.mpr hlt)
      simp [hax, hnone]

theorem mem_leaders (hsorted : ranking.Pairwise Ahead) (hle : ∀ e ∈ ranking, e.2 ≤ x)
    {e : ℕ × K} (he : e ∈ ranking) (hx : e.2 = x) : e ∈ leaders x ranking := by
  rw [leaders_eq_filter hsorted hle]
  simpa [hx] using he

theorem fst_le_getLast (hsorted : ranking.Pairwise Ahead) {e last : ℕ × K}
    (he : e ∈ leaders x ranking) (hlast : (leaders x ranking).getLast? = some last) :
    e.1 ≤ last.1 := by
  obtain ⟨front, hfront⟩ := List.getLast?_eq_some_iff.mp hlast
  have hpair : (leaders x ranking).Pairwise Ahead :=
    hsorted.sublist (List.takeWhile_prefix _).sublist
  have hx : last.2 = x := snd_of_mem_leaders (List.mem_of_getLast? hlast)
  have hex : e.2 = x := snd_of_mem_leaders he
  rw [hfront] at he hpair
  rcases List.mem_append.mp he with he' | he'
  · rcases (List.pairwise_append.mp hpair).2.2 e he' last (by simp) with h | h
    · rw [hx, hex] at h
      exact absurd h (lt_irrefl x)
    · exact h.2
  · rw [List.mem_singleton.mp he']

namespace Ranks

theorem le (h : Ranks scores x ranking) {e : ℕ × K} (he : e ∈ ranking) : e.2 ≤ x := by
  obtain ⟨i, rest, rfl⟩ := h.head
  rcases List.mem_cons.mp he with rfl | he
  · exact le_rfl
  · exact ((List.pairwise_cons.mp h.sorted).1 e he).le

/-- The argmax is the last of the leaders. -/
theorem getLast?_leaders (h : Ranks scores x ranking) :
    ((leaders x ranking).map Prod.fst).getLast? = some (argmax scores) := by
  obtain ⟨last, hlast⟩ : ∃ last, (leaders x ranking).getLast? = some last :=
    ⟨_, List.getLast?_eq_some_getLast (leaders_ne_nil h.head)⟩
  have hmem : last ∈ leaders x ranking := List.mem_of_getLast? hlast
  rw [List.getLast?_map, hlast, Option.map_some]
  congr 1
  symm
  apply argmax_eq (x := x)
  refine ⟨?_, fun j y hj => ?_⟩
  · rw [h.get _ (mem_of_mem_leaders hmem), snd_of_mem_leaders hmem]
  · by_cases hin : ∃ e ∈ ranking, e.1 = j
    · obtain ⟨e, he, rfl⟩ := hin
      obtain rfl : e.2 = y := Option.some.inj ((h.get e he).symm.trans hj)
      refine ⟨h.le he, fun hlt => lt_of_le_of_ne (h.le he) fun hx => ?_⟩
      have hle := fst_le_getLast h.sorted (mem_leaders h.sorted (fun _ => h.le) he hx) hlast
      omega
    · have hlt := h.below j y hj fun e he hej => hin ⟨e, he, hej⟩
      exact ⟨hlt.le, fun _ => hlt⟩

end Ranks

end Ranking

section Ranked

variable {K : Type} [LinearOrder K] {scores : List K} {x : K} {n : ℕ}

/-- The number of scores that no score exceeds. -/
def tied (scores : List K) : ℕ := (scores.filter fun x => scores.all fun y => decide (y ≤ x)).length

theorem ranked_perm (scores : List K) : (ranked scores).Perm (scores.zipIdx.map Prod.swap) :=
  List.perm_insertionSort Ahead _

theorem ranked_sorted (scores : List K) : (ranked scores).Pairwise Ahead :=
  List.pairwise_insertionSort Ahead _

theorem length_ranked (scores : List K) : (ranked scores).length = scores.length := by
  simp [(ranked_perm scores).length_eq]

theorem mem_ranked {e : ℕ × K} : e ∈ ranked scores ↔ scores[e.1]? = some e.2 := by
  obtain ⟨i, y⟩ := e
  rw [(ranked_perm scores).mem_iff, List.mem_map]
  constructor
  · rintro ⟨⟨z, j⟩, hmem, heq⟩
    cases heq
    exact List.mem_zipIdx_iff_getElem?.mp hmem
  · intro h
    exact ⟨(y, i), List.mem_zipIdx_iff_getElem?.mpr h, rfl⟩

theorem ranked_nodup (scores : List K) : ((ranked scores).map Prod.fst).Nodup := by
  have hfst : (scores.zipIdx.map Prod.swap).map Prod.fst = List.range scores.length := by
    rw [List.map_map, show Prod.fst ∘ Prod.swap = @Prod.snd K ℕ from rfl,
      List.zipIdx_map_snd, List.range_eq_range']
  exact ((ranked_perm scores).map Prod.fst).nodup_iff.mpr (hfst ▸ List.nodup_range)

theorem ranks_ranked (h : scores ≠ []) : ∃ x, Ranks scores x (ranked scores) := by
  obtain ⟨⟨i, x⟩, rest, hrest⟩ : ∃ e rest, ranked scores = e :: rest := by
    apply List.exists_cons_of_ne_nil
    intro hnil
    apply h
    rw [← List.length_eq_zero_iff, ← length_ranked, hnil]
    rfl
  refine ⟨x, ranked_sorted scores, fun e he => mem_ranked.mp he, ⟨i, rest, hrest⟩, ?_⟩
  intro j y hj hne
  exact absurd rfl (hne (j, y) (mem_ranked.mpr hj))

/-- The leaders of a ranking are the tied scores. -/
theorem length_leaders (h : Ranks scores x (ranked scores)) :
    (leaders x (ranked scores)).length = tied scores := by
  have hmax : ∀ y ∈ scores, scores.all (fun z => decide (z ≤ y)) = decide (y = x) := by
    intro y hy
    obtain ⟨j, hj⟩ := List.mem_iff_getElem?.mp hy
    obtain ⟨i, rest, hrest⟩ := h.head
    have hx : x ∈ scores := by
      apply List.mem_of_getElem? (i := i)
      exact h.get (i, x) (by simp [hrest])
    have hle : ∀ z ∈ scores, z ≤ x := by
      intro z hz
      obtain ⟨k, hk⟩ := List.mem_iff_getElem?.mp hz
      exact h.le (e := (k, z)) (mem_ranked.mpr hk)
    rw [Bool.eq_iff_iff]
    simp only [List.all_eq_true, decide_eq_true_eq]
    constructor
    · intro hall
      exact le_antisymm (hle y hy) (hall x hx)
    · rintro rfl
      exact hle
  have htied : tied scores = scores.countP fun y => decide (y = x) := by
    rw [tied, ← List.countP_eq_length_filter]
    exact List.countP_congr fun y hy => by rw [hmax y hy]
  rw [leaders_eq_filter h.sorted fun _ => h.le, htied, ← List.countP_eq_length_filter,
    (ranked_perm scores).countP_eq, List.countP_map]
  conv_rhs => rw [← List.zipIdx_map_fst 0 scores, List.countP_map]
  rfl

end Ranked

end Frink.Sampling
