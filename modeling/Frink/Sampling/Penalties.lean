import Frink.Sampling.Dry
import Mathlib

/-! # Penalties by the naive definition

A quadratic definition compares the window's end with the text that ends at each position, up
to the nearest sequence breaker. The linear pass assigns the penalties it does, but for windows
and lengths its integer arithmetic cannot take.
-/

/-! ## The reverse Z-algorithm counts repetitions

The window read backwards is compared with what is left of it after a cut. Each count of the
linear pass is the overlap at its cut, or the limit where that is less: a capped count still
tells whether a copied overlap stays inside of the box.
-/

namespace Frink.Sampling

open Overlap

variable {recent : List ℕ} {limit : ℤ} {s : ZBox} {n k i matched remaining : ℕ}

theorem asI32_of_lt (h : n < 2 ^ 31) : asI32 n = n := by
  unfold asI32
  rw [Int.bmod_def]
  omega

theorem rat_eq (hi : i < recent.length) : rat recent i = recent.reverse[i]? := by
  rw [rat, List.getElem?_reverse hi]

/-- The comparing loops find the overlap. -/
theorem matchFrom_eq (hlen : matched + k + remaining = recent.length)
    (h : ∀ j < matched, recent.reverse[j]? = recent.reverse[j + k]?) :
    matchFrom recent k remaining matched = overlap recent.reverse k := by
  have hk : k ≤ recent.reverse.length := by
    rw [List.length_reverse]
    omega
  induction remaining generalizing matched with
  | zero =>
    refine (overlap_eq hk ?_ h (.inl ?_)).symm <;> rw [List.length_reverse] <;> omega
  | succ remaining ih =>
    rw [matchFrom, rat_eq (by omega), rat_eq (by omega)]
    split
    · rename_i heq
      apply ih (by omega)
      intro j hj
      rcases Nat.lt_succ_iff_lt_or_eq.mp hj with hj | rfl
      · exact h j hj
      · exact heq
    · rename_i hne
      refine (overlap_eq hk ?_ h (.inr hne)).symm
      rw [List.length_reverse]
      omega

/-- The counts behind a round are the capped overlaps, and the box is one. -/
structure ZBox.Sound (recent : List ℕ) (limit : ℤ) (k : ℕ) (s : ZBox) : Prop where

  length_eq : s.repeatCount.length = recent.length

  count : ∀ j, 1 ≤ j → j < k →
    s.repeatCount[recent.length - 1 - j]? = some (min (overlap recent.reverse j : ℤ) limit)

  box : Box recent.reverse s.lt s.rt

  lt_lt : s.lt < k

  pos : s.rt = 0 ∨ 1 ≤ s.lt

theorem overlap_le (hk : k ≤ recent.length) :
    overlap recent.reverse k + k ≤ recent.length := by
  have hback : k ≤ recent.reverse.length := by simpa using hk
  have h := (le_overlap_iff hback).mp le_rfl
  simpa using h.1

theorem overlap_box (hk : k ≤ recent.length) (hpos : 0 < overlap recent.reverse k) :
    Box recent.reverse k (k + overlap recent.reverse k - 1) := by
  have hback : k ≤ recent.reverse.length := by simpa using hk
  have h := (le_overlap_iff hback).mp le_rfl
  constructor
  · have := h.1
    omega
  · intro x hx hlt
    have heq := h.2 (x - k) (by omega)
    rw [Nat.sub_add_cancel hx] at heq
    exact heq.symm

/-- A round that sets its own count right. -/
theorem ZBox.Sound.set (h : s.Sound recent limit k) (hk : 1 ≤ k) (hn : k < recent.length)
    {count : ℤ} {lt rt : ℕ} (hcount : count = min (overlap recent.reverse k : ℤ) limit)
    (hbox : Box recent.reverse lt rt) (hlt : lt ≤ k) (hpos : rt = 0 ∨ 1 ≤ lt) :
    ZBox.Sound recent limit (k + 1)
      ⟨s.repeatCount.set (recent.length - 1 - k) count, lt, rt⟩ where
  length_eq := by rw [List.length_set, h.length_eq]
  count := by
    intro j hj hjk
    rcases Nat.lt_succ_iff_lt_or_eq.mp hjk with hlow | rfl
    · rw [List.getElem?_set_ne (by omega)]
      exact h.count j hj hlow
    · have hin : recent.length - 1 - j < s.repeatCount.length := by
        rw [h.length_eq]
        omega
      rw [List.getElem?_set_self hin, hcount]
  box := hbox
  lt_lt := Nat.lt_succ_of_le hlt
  pos := hpos

theorem ZBox.Sound.zRound (h : s.Sound recent limit k) (hk : 1 ≤ k) (hn : k < recent.length)
    (hfit : recent.length < 2 ^ 31) : (zRound recent limit s k).Sound recent limit (k + 1) := by
  have hlen : overlap recent.reverse k + k ≤ recent.length := overlap_le hn.le
  have hcast : asI32 (overlap recent.reverse k) = overlap recent.reverse k :=
    asI32_of_lt (by omega)
  unfold Sampling.zRound
  dsimp only
  split
  · have hmatch : matchFrom recent k (recent.length - k) 0 = overlap recent.reverse k :=
      matchFrom_eq (by omega) (by simp)
    rw [hmatch, hcast]
    by_cases hpos : 0 < overlap recent.reverse k
    · rw [if_pos hpos, if_pos hpos]
      exact h.set hk hn rfl (overlap_box hn.le hpos) le_rfl (.inr hk)
    · rw [if_neg hpos, if_neg hpos]
      exact h.set hk hn rfl h.box h.lt_lt.le h.pos
  · rename_i hbox
    have hkrt : k ≤ s.rt := by omega
    have hrt : s.rt < recent.length := by simpa using h.box.1
    have hlt : 1 ≤ s.lt := by
      rcases h.pos with hzero | hlt
      · omega
      · exact hlt
    have hltk := h.lt_lt
    have hpart : asI32 (s.rt - k + 1 : ℕ) = (s.rt - k + 1 : ℕ) := asI32_of_lt (by omega)
    have hknown : s.repeatCount.getD (recent.length - 1 - (k - s.lt)) 0 =
        min (overlap recent.reverse (k - s.lt) : ℤ) limit := by
      rw [List.getD_eq_getElem?_getD, h.count (k - s.lt) (by omega) (by omega)]
      rfl
    rw [hpart, hknown]
    by_cases hin : overlap recent.reverse (k - s.lt) + k ≤ s.rt
    · have hcopy := h.box.copy hltk.le hin
      rw [if_pos (lt_of_le_of_lt (min_le_left _ _) (by omega)), min_assoc, min_self, ← hcopy]
      exact h.set hk hn rfl h.box hltk.le h.pos
    · have hseed : ∀ j < s.rt + 1 - k, recent.reverse[j]? = recent.reverse[j + k]? :=
        fun j hj => h.box.seed hltk.le hkrt (by omega) (by omega)
      have hmatch : matchFrom recent k (recent.length - (s.rt + 1)) (s.rt + 1 - k) =
          overlap recent.reverse k := matchFrom_eq (by omega) hseed
      have hlong : s.rt + 1 - k ≤ overlap recent.reverse k :=
        (le_overlap_iff (by simpa using hn.le)).mpr
          ⟨by rw [List.length_reverse]; omega, hseed⟩
      split
      · rename_i hcapped
        -- the copied count is the limit, and so is the right one
        have hlimit : limit < (s.rt - k + 1 : ℕ) := by
          rcases min_lt_iff.mp hcapped with h | h
          · omega
          · exact h
        refine h.set hk hn ?_ h.box hltk.le h.pos
        rw [min_assoc, min_self, min_eq_right (by omega), min_eq_right (by omega)]
      · rw [hmatch, Nat.add_sub_cancel, hcast, Nat.add_comm (overlap recent.reverse k)]
        exact h.set hk hn rfl (overlap_box hn.le (by omega)) le_rfl (.inr hk)

theorem ZBox.Sound.foldl (hfit : recent.length < 2 ^ 31) (h : s.Sound recent limit k) (hk : 1 ≤ k)
    (hn : k + n ≤ recent.length) :
    ((List.range' k n).foldl (Sampling.zRound recent limit) s).Sound recent limit (k + n) := by
  induction n generalizing k s with
  | zero => exact h
  | succ n ih =>
    rw [List.range'_succ, List.foldl_cons]
    have hnext := ih (h.zRound hk (by omega) hfit) (by omega) (by omega)
    rwa [show k + 1 + n = k + (n + 1) by omega] at hnext

/-- Each count is the overlap of the window's end with the text that ends there, or the limit. -/
theorem repeatCounts_eq (hfit : recent.length < 2 ^ 31) (hi : i + 1 < recent.length) :
    (repeatCounts recent limit)[i]? =
      some (min (overlap recent.reverse (recent.length - 1 - i) : ℤ) limit) := by
  have hstart : ZBox.Sound recent limit 1 ⟨List.replicate recent.length 0, 0, 0⟩ := by
    constructor
    · simp
    · intro j _ _
      omega
    · constructor
      · simp only [List.length_reverse]
        omega
      · intro x _ _
        rfl
    · exact Nat.zero_lt_one
    · exact .inl rfl
  have hend := hstart.foldl (n := recent.length - 1) hfit le_rfl (by omega)
  have hcount := hend.count (recent.length - 1 - i) (by omega) (by omega)
  rwa [show recent.length - 1 - (recent.length - 1 - i) = i by omega] at hcount

end Frink.Sampling

namespace Frink.Sampling

open Overlap

section Naive

variable (recent : List ℕ) (b : DryBreakers)

/-- How long the breakers are that the token `i` back from the end starts. -/
def tailsAt (i : ℕ) : List ℕ :=
  (((recent.reverse[i]?.bind b.tails).getD []).filter
    fun tail => tail <+: recent.drop (recent.length - i)).map List.length

/-- How many tokens follow the nearest sequence breaker. -/
def naiveLimit : ℕ :=
  ((List.range recent.length).findSome? fun i =>
    (tailsAt recent b i).max?.map fun len => i - len).getD recent.length

/-- The longest match between the window's end and the text that ends at a position. -/
def naiveCount (i : ℕ) : ℕ :=
  min (common recent.reverse (recent.take (i + 1)).reverse) (naiveLimit recent b)

/-- The matches a token would extend, less those that are free. -/
def naiveMatches (allowedLength : ℤ) (token : ℕ) : List ℕ :=
  ((List.range (recent.length - 1)).filter fun i =>
    recent[i + 1]? = some token ∧ allowedLength ≤ naiveCount recent b i).map (naiveCount recent b)

end Naive

namespace DryParams

variable {K : Type} [Field K] [LinearOrder K] (logLimit : K → ℤ) (p : DryParams K)

def naivePenalty (history : PenaltyWindow) (token : ℕ) : Option K :=
  if p.isEnabled ∧ ¬p.breakers.isSingleTokenBreaker token then
    (naiveMatches (p.window history) p.breakers p.allowedLength token).max?.map fun longest : ℕ =>
      p.penalty logLimit (longest - p.allowedLength)
  else none

end DryParams

theorem max?_concat (xs : List ℕ) (a : ℕ) :
    (xs ++ [a]).max? = some (xs.max?.elim a fun m => max m a) := by
  cases xs with
  | nil => simp
  | cons x xs => simp only [List.cons_append, List.max?_cons', List.foldl_append, List.foldl_cons,
      List.foldl_nil, Option.elim_some]

section Limit

variable {recent tail : List ℕ} {b : DryBreakers} {i : ℕ} {tails : List (List ℕ)}

/-- What the loop over a head's tails compares is whether the tail follows. -/
theorem tail_follows (hi : i < recent.length) (hlen : tail.length ≤ i) :
    ((List.range tail.length).all fun offset => tail[offset]? == rat recent (i - offset - 1)) ↔
      tail <+: recent.drop (recent.length - i) := by
  rw [List.prefix_iff_getElem?]
  simp only [List.all_eq_true, List.mem_range, beq_iff_eq, List.getElem?_drop]
  constructor
  · intro h j hj
    have heq := h j hj
    rw [List.getElem?_eq_getElem hj] at heq
    rw [heq, rat]
    congr 1
    omega
  · intro h j hj
    rw [List.getElem?_eq_getElem hj, ← h j hj, rat]
    congr 1
    omega

/-- The longest of the lengths found, as the loop keeps it. -/
def longestSeen (xs : List ℕ) : ℤ := xs.max?.elim (-1) (↑)

theorem longestSeen_none {xs : List ℕ} (h : xs.max? = none) : longestSeen xs = -1 := by
  rw [longestSeen, h]
  rfl

theorem longestSeen_some {xs : List ℕ} {m : ℕ} (h : xs.max? = some m) : longestSeen xs = m := by
  rw [longestSeen, h]
  rfl

theorem longestSeen_concat (xs : List ℕ) (a : ℕ) :
    longestSeen (xs ++ [a]) = if (a : ℤ) ≤ longestSeen xs then longestSeen xs else a := by
  have hconcat := longestSeen_some (max?_concat xs a)
  cases hmax : xs.max? with
  | none =>
    rw [hmax, Option.elim_none] at hconcat
    rw [hconcat, longestSeen_none hmax, if_neg (by omega)]
  | some m =>
    rw [hmax, Option.elim_some] at hconcat
    rw [hconcat, longestSeen_some hmax]
    split <;> omega

theorem longerTail_eq (hi : i < recent.length) (hfit : recent.length < 2 ^ 31) (xs : List ℕ) :
    longerTail recent i (longestSeen xs) tail =
      if tail <+: recent.drop (recent.length - i) then longestSeen (xs ++ [tail.length])
      else longestSeen xs := by
  have hcast : asI32 i = i := asI32_of_lt (by omega)
  unfold longerTail
  rw [hcast]
  by_cases hlen : tail.length ≤ i
  · simp only [tail_follows hi hlen, longestSeen_concat]
    have hin : ¬(i : ℤ) < tail.length := by omega
    simp only [hin, or_false]
    split_ifs <;> rfl
  · have hnot : ¬tail <+: recent.drop (recent.length - i) := by
      intro h
      have := h.length_le
      rw [List.length_drop] at this
      omega
    rw [if_neg hnot, if_pos (.inr (by omega))]

theorem longestMatch_eq (hi : i < recent.length) (hfit : recent.length < 2 ^ 31) :
    longestMatch recent i tails = longestSeen ((tails.filter fun tail =>
      tail <+: recent.drop (recent.length - i)).map List.length) := by
  have hloop : ∀ xs, tails.foldl (longerTail recent i) (longestSeen xs) =
      longestSeen (xs ++ (tails.filter fun tail =>
        tail <+: recent.drop (recent.length - i)).map List.length) := by
    intro xs
    induction tails generalizing xs with
    | nil => simp
    | cons tail tails ih =>
      rw [List.foldl_cons, longerTail_eq hi hfit]
      split
      · rename_i hfollows
        rw [ih, List.filter_cons_of_pos (by simpa using hfollows), List.map_cons,
          List.append_assoc, List.singleton_append]
      · rename_i hnot
        rw [ih, List.filter_cons_of_neg (by simpa using hnot)]
  exact hloop []

theorem tailsAt_le {len : ℕ} (h : len ∈ tailsAt recent b i) : len ≤ i := by
  unfold tailsAt at h
  simp only [List.mem_map, List.mem_filter, decide_eq_true_eq] at h
  obtain ⟨tail, ⟨_, hfollows⟩, rfl⟩ := h
  have := hfollows.length_le
  rw [List.length_drop] at this
  omega

/-- The walk back to a sequence breaker stops where the naive limit says. -/
theorem repLimit_eq (hfit : recent.length < 2 ^ 31) :
    repLimit recent b = naiveLimit recent b := by
  have hwalk : ∀ is : List ℕ, (∀ i ∈ is, i < recent.length) → repLimitFrom recent b is =
      ((is.findSome? fun i => (tailsAt recent b i).max?.map fun len => i - len).getD
        recent.length : ℕ) := by
    intro is
    induction is with
    | nil => simp [repLimitFrom, asI32_of_lt hfit]
    | cons i is ih =>
      intro his
      have hi : i < recent.length := his i (by simp)
      have hrest := ih fun j hj => his j (by simp [hj])
      have hcast : asI32 i = i := asI32_of_lt (by omega)
      rw [repLimitFrom, rat_eq hi, List.findSome?_cons]
      cases hhead : recent.reverse[i]?.bind b.tails with
      | none =>
        have hnone : tailsAt recent b i = [] := by simp [tailsAt, hhead]
        simpa [hnone] using hrest
      | some tails =>
        have hseen : longestMatch recent i tails = longestSeen (tailsAt recent b i) := by
          rw [longestMatch_eq hi hfit, tailsAt, hhead, Option.getD_some]
        dsimp only
        rw [hseen, hcast]
        cases hmax : (tailsAt recent b i).max? with
        | none =>
          rw [longestSeen_none hmax, if_neg (by omega), hrest, Option.map_none]
        | some len =>
          have hle : len ≤ i := tailsAt_le (List.max?_mem hmax)
          rw [longestSeen_some hmax, if_pos (by omega), Option.map_some, Option.getD_some,
            Nat.cast_sub hle]
  exact hwalk _ fun i hi => List.mem_range.mp hi

end Limit

section Counts

variable {recent : List ℕ} {b : DryBreakers} {allowedLength : ℤ} {token i : ℕ}

theorem naiveCount_eq (hi : i + 1 < recent.length) :
    naiveCount recent b i =
      min (overlap recent.reverse (recent.length - 1 - i)) (naiveLimit recent b) := by
  have hcut : recent.length - (i + 1) = recent.length - 1 - i := by omega
  rw [naiveCount, overlap, List.reverse_take, hcut]

theorem naiveCount_le (recent : List ℕ) (b : DryBreakers) (i : ℕ) : naiveCount recent b i ≤ i + 1 := by
  have h := (le_common_iff (m := common recent.reverse (recent.take (i + 1)).reverse)).mp le_rfl
  have hlen : (recent.take (i + 1)).reverse.length ≤ i + 1 := by simp
  exact (min_le_left _ _).trans (h.2.1.trans hlen)

/-- The counts of the linear pass are the naive ones. -/
theorem repeatCounts_naive (hfit : recent.length < 2 ^ 31) (hi : i + 1 < recent.length) :
    (repeatCounts recent (repLimit recent b))[i]? = some (naiveCount recent b i : ℤ) := by
  rw [repeatCounts_eq hfit hi, repLimit_eq hfit, naiveCount_eq hi, Nat.cast_min]

theorem lookup_cons_ne {β : Type} {t t' : ℕ} (h : t ≠ t') (c : β) (slots : List (ℕ × β)) :
    ((t', c) :: slots).lookup t = slots.lookup t := by
  have hne : (t == t') = false := by simpa using h
  rw [List.lookup_cons, hne]

theorem lookup_raise (slots : List (ℕ × ℤ)) (t : ℕ) (count : ℤ) :
    (raise slots token count).lookup t =
      if t = token then some ((slots.lookup token).elim count fun c => max c count)
      else slots.lookup t := by
  induction slots with
  | nil =>
    rw [raise]
    by_cases h : t = token
    · simp [h]
    · simp [lookup_cons_ne h, h]
  | cons slot slots ih =>
    obtain ⟨t', c⟩ := slot
    rw [raise]
    by_cases hslot : t' = token
    · subst hslot
      rw [if_pos rfl]
      by_cases h : t = t'
      · subst h
        simp only [List.lookup_cons_self, if_true, Option.elim_some]
        split <;> simp only [Option.some.injEq] <;> omega
      · simp [lookup_cons_ne h, h]
    · rw [if_neg hslot]
      by_cases h : t = t'
      · subst h
        simp [hslot]
      · rw [lookup_cons_ne h, lookup_cons_ne (Ne.symm hslot), lookup_cons_ne h, ih]

theorem mem_raise {slots : List (ℕ × ℤ)} {count : ℤ} {e : ℕ × ℤ}
    (h : e ∈ raise slots token count) : e ∈ slots ∨ e = (token, count) := by
  induction slots with
  | nil => simpa [raise] using h
  | cons slot slots ih =>
    obtain ⟨t', c⟩ := slot
    rw [raise] at h
    split at h
    · rename_i hslot
      subst hslot
      rcases List.mem_cons.mp h with rfl | h
      · split <;> simp
      · simp [h]
    · rcases List.mem_cons.mp h with rfl | h
      · simp
      · rcases ih h with h | h
        · simp [h]
        · exact .inr h

theorem raiseAt_eq {counts : List ℤ} (hi : i + 1 < recent.length)
    (hcount : counts[i]? = some (naiveCount recent b i : ℤ)) (slots : List (ℕ × ℤ)) :
    raiseAt recent allowedLength counts slots i =
      if allowedLength ≤ naiveCount recent b i then
        raise slots recent[i + 1] (naiveCount recent b i)
      else slots := by
  rw [raiseAt, hcount, List.getElem?_eq_getElem hi]
  dsimp only
  split_ifs <;> first | rfl | omega

/-- The slot of a token holds the longest of the matches that it would extend. -/
theorem lookup_raiseAt {counts : List ℤ} {is xs : List ℕ} {slots : List (ℕ × ℤ)}
    (his : ∀ i ∈ is, i + 1 < recent.length ∧ counts[i]? = some (naiveCount recent b i : ℤ))
    (hslots : slots.lookup token = xs.max?.map (↑)) :
    (is.foldl (raiseAt recent allowedLength counts) slots).lookup token =
      (xs ++ (is.filter fun i => recent[i + 1]? = some token ∧
        allowedLength ≤ naiveCount recent b i).map (naiveCount recent b)).max?.map (↑) := by
  induction is generalizing xs slots with
  | nil => simpa using hslots
  | cons i is ih =>
    obtain ⟨hi, hcount⟩ := his i (by simp)
    have hrest := fun j hj => his j (List.mem_cons_of_mem i hj)
    rw [List.foldl_cons, raiseAt_eq hi hcount]
    by_cases hmatch : recent[i + 1]? = some token ∧ allowedLength ≤ naiveCount recent b i
    · rw [if_pos hmatch.2, List.filter_cons_of_pos (by simpa using hmatch), List.map_cons,
        ← List.singleton_append, ← List.append_assoc]
      apply ih hrest
      have htoken : recent[i + 1] = token := by
        have := hmatch.1
        rw [List.getElem?_eq_getElem hi] at this
        exact Option.some.inj this
      rw [htoken, lookup_raise, if_pos rfl, hslots, max?_concat]
      cases xs.max? <;> simp
    · rw [List.filter_cons_of_neg (by simpa using hmatch)]
      apply ih hrest
      split
      · rename_i hlen
        have htoken : token ≠ recent[i + 1] := by
          rintro rfl
          exact hmatch ⟨List.getElem?_eq_getElem hi, hlen⟩
        rw [lookup_raise, if_neg htoken, hslots]
      · exact hslots

theorem mem_raiseAt {counts : List ℤ} {is : List ℕ} {slots : List (ℕ × ℤ)} {e : ℕ × ℤ}
    (his : ∀ i ∈ is, i + 1 < recent.length ∧ counts[i]? = some (naiveCount recent b i : ℤ))
    (he : e ∈ is.foldl (raiseAt recent allowedLength counts) slots) :
    e ∈ slots ∨ ∃ i, recent[i + 1]? = some e.1 ∧ allowedLength ≤ naiveCount recent b i ∧
      e.2 = naiveCount recent b i := by
  induction is generalizing slots with
  | nil => exact .inl he
  | cons i is ih =>
    obtain ⟨hi, hcount⟩ := his i (by simp)
    rw [List.foldl_cons, raiseAt_eq hi hcount] at he
    rcases ih (fun j hj => his j (List.mem_cons_of_mem i hj)) he with hslot | hlater
    · split at hslot
      · rename_i hlen
        rcases mem_raise hslot with h | rfl
        · exact .inl h
        · exact .inr ⟨i, List.getElem?_eq_getElem hi, hlen, rfl⟩
      · exact .inl hslot
    · exact .inr hlater

end Counts

namespace DryParams

variable {K : Type} [Field K] [LinearOrder K] {checks : Bool} {logLimit : K → ℤ}
  {p : DryParams K} {history : PenaltyWindow} {slots : List (ℕ × ℤ)} {token : ℕ}

section Assign

variable (checks p)

/-- The exponent of a length, where its subtraction gives one. -/
def exponent (maxRepeat : ℤ) : Option ℤ := (subI32 checks maxRepeat p.allowedLength).toOption

variable {checks p}

theorem assign_spec (logLimit : K → ℤ) (h : ∀ e ∈ slots, ¬p.breakers.isSingleTokenBreaker e.1 →
      (p.exponent checks e.2).isSome) :
    ∃ out, p.assign checks logLimit slots = .ok out ∧ ∀ token, out.lookup token =
      if p.breakers.isSingleTokenBreaker token then none
      else (slots.lookup token).bind fun r => (p.exponent checks r).map (p.penalty logLimit) := by
  induction slots with
  | nil => exact ⟨[], rfl, fun token => by simp⟩
  | cons e slots ih =>
    obtain ⟨t, r⟩ := e
    obtain ⟨out, hout, hlookup⟩ := ih fun e he => h e (List.mem_cons_of_mem _ he)
    rw [assign]
    by_cases hexempt : p.breakers.isSingleTokenBreaker t
    · refine ⟨out, by rw [if_pos hexempt, hout], fun token => ?_⟩
      rw [hlookup]
      by_cases ht : token = t
      · subst ht
        rw [if_pos hexempt, if_pos hexempt]
      · rw [lookup_cons_ne ht]
    · have hsome := h (t, r) (by simp) hexempt
      rw [if_neg hexempt]
      unfold exponent at hsome hlookup ⊢
      cases hexp : subI32 checks r p.allowedLength with
      | error e => simp [hexp, Except.toOption] at hsome
      | ok x =>
        refine ⟨(t, p.penalty logLimit x) :: out, by rw [hout]; rfl, fun token => ?_⟩
        by_cases ht : token = t
        · subst ht
          rw [List.lookup_cons_self, List.lookup_cons_self, if_neg hexempt, Option.bind_some, hexp]
          rfl
        · rw [lookup_cons_ne ht, lookup_cons_ne ht]
          exact hlookup token

theorem exponent_of_assign {out : List (ℕ × K)} (h : p.assign checks logLimit slots = .ok out)
    {e : ℕ × ℤ} (he : e ∈ slots) (hexempt : ¬p.breakers.isSingleTokenBreaker e.1) :
    (p.exponent checks e.2).isSome := by
  induction slots generalizing out with
  | nil => simp at he
  | cons e' slots ih =>
    obtain ⟨t, r⟩ := e'
    rw [assign] at h
    split at h
    · rename_i hskip
      rcases List.mem_cons.mp he with rfl | he
      · exact absurd hskip hexempt
      · exact ih h he
    · cases hexp : subI32 checks r p.allowedLength with
      | error e => rw [hexp] at h; cases h
      | ok x =>
        cases hrest : p.assign checks logLimit slots with
        | error e => rw [hexp, hrest] at h; cases h
        | ok rest =>
          rcases List.mem_cons.mp he with rfl | he
          · simp [exponent, hexp, Except.toOption]
          · exact ih hrest he

end Assign

section Exponents

variable {r e e' : ℤ}

omit [Field K] [LinearOrder K] in
theorem exponent_of_lt (hr : p.allowedLength ≤ r) (h : r - p.allowedLength < 2 ^ 31) :
    p.exponent checks r = some (r - p.allowedLength) := by
  rw [exponent, subI32, if_pos ⟨by omega, h⟩]
  rfl

omit [Field K] [LinearOrder K] in
theorem exponent_of_overflow (hr : r < 2 ^ 31) (h : 2 ^ 31 ≤ r - p.allowedLength) :
    p.exponent checks r = if checks then none else some (r - p.allowedLength - 2 ^ 32) := by
  have hwrap : asI32 (r - p.allowedLength) = r - p.allowedLength - 2 ^ 32 := by
    have := p.allowedLength_i32.1
    unfold asI32
    rw [Int.bmod_def]
    omega
  rw [exponent, subI32, if_neg (by omega), hwrap]
  split <;> rfl

theorem clampExponent_neg (h : e < 0) : p.clampExponent logLimit e = e := by
  rw [clampExponent, if_neg]
  rintro ⟨hpos, hlt⟩
  omega

theorem clampExponent_pos (h : 0 < e) : 0 < p.clampExponent logLimit e := by
  unfold clampExponent
  split
  · rename_i hclamp
    exact hclamp.1
  · exact h

/-- A length that wrapped below zero gives the penalty it would have otherwise for one base. -/
theorem penalty_eq_iff [IsStrictOrderedRing K] (hon : p.isEnabled) (he : e < 0) (he' : 0 < e') :
    p.penalty logLimit e = p.penalty logLimit e' ↔ p.base = 1 := by
  simp only [isEnabled, decide_eq_true_eq] at hon
  have hbase : 0 < p.base := lt_of_lt_of_le zero_lt_one hon.2.1
  have hpos : 0 < p.clampExponent logLimit e' := clampExponent_pos he'
  unfold penalty
  rw [clampExponent_neg he, mul_right_inj' hon.1]
  constructor
  · intro h
    by_contra hne
    have := zpow_right_injective₀ hbase hne h
    omega
  · intro h
    rw [h, one_zpow, one_zpow]

end Exponents

variable (checks logLimit p history)

/-- The counts are the naive ones and so is what is assigned to each token. -/
structure Naive : Prop where

  counts : ∀ i, i + 1 < (p.window history).length →
    (repeatCounts (p.window history) (repLimit (p.window history) p.breakers))[i]? =
      some (naiveCount (p.window history) p.breakers i : ℤ)

  penalties : ∃ out, p.penalties checks logLimit history = .ok out ∧
    ∀ token, out.lookup token = p.naivePenalty logLimit history token

/-- Where the allowed length is negative the window has a token, and no length that is to be
turned into a penalty is too far above it; a build that wraps takes any length at base one. -/
def InRange : Prop :=
  p.isEnabled → p.allowedLength < 0 → p.window history ≠ [] ∧
    ∀ i token, (p.window history)[i + 1]? = some token →
      ¬p.breakers.isSingleTokenBreaker token →
        naiveCount (p.window history) p.breakers i - p.allowedLength < 2 ^ 31 ∨
          checks = false ∧ p.base = 1

section Assigned

variable {checks logLimit p history}

omit [Field K] [LinearOrder K] in
theorem mem_naiveMatches {m : ℕ} :
    m ∈ naiveMatches (p.window history) p.breakers p.allowedLength token ↔
      ∃ i, (p.window history)[i + 1]? = some token ∧
        p.allowedLength ≤ naiveCount (p.window history) p.breakers i ∧
          naiveCount (p.window history) p.breakers i = m := by
  unfold naiveMatches
  simp only [List.mem_map, List.mem_filter, List.mem_range, decide_eq_true_eq]
  constructor
  · rintro ⟨i, ⟨_, htoken, hlen⟩, hm⟩
    exact ⟨i, htoken, hlen, hm⟩
  · rintro ⟨i, htoken, hlen, hm⟩
    have hi := (List.getElem?_eq_some_iff.mp htoken).1
    exact ⟨i, ⟨by omega, htoken, hlen⟩, hm⟩

omit [Field K] [LinearOrder K] in
theorem naiveCount_lt (hfit : (p.window history).length < 2 ^ 31) {i : ℕ}
    (h : (p.window history)[i + 1]? = some token) :
    naiveCount (p.window history) p.breakers i < 2 ^ 31 := by
  have hi := (List.getElem?_eq_some_iff.mp h).1
  have := naiveCount_le (p.window history) p.breakers i
  omega

/-- What is assigned from the slots is what the naive definition assigns where every length
above the allowed one is in range. -/
theorem assigned_iff [IsStrictOrderedRing K] (hon : p.isEnabled)
    (hfit : (p.window history).length < 2 ^ 31)
    (hlookup : ∀ token, slots.lookup token =
      (naiveMatches (p.window history) p.breakers p.allowedLength token).max?.map (↑))
    (hmem : ∀ e ∈ slots, ∃ i, (p.window history)[i + 1]? = some e.1 ∧
      p.allowedLength ≤ naiveCount (p.window history) p.breakers i ∧
        e.2 = naiveCount (p.window history) p.breakers i) :
    (∃ out, p.assign checks logLimit slots = .ok out ∧
        ∀ token, out.lookup token = p.naivePenalty logLimit history token) ↔
      ∀ i token, (p.window history)[i + 1]? = some token →
        ¬p.breakers.isSingleTokenBreaker token →
          p.allowedLength ≤ naiveCount (p.window history) p.breakers i →
            naiveCount (p.window history) p.breakers i - p.allowedLength < 2 ^ 31 ∨
              checks = false ∧ p.base = 1 := by
  constructor
  · rintro ⟨out, hout, hnaive⟩ i token htoken hexempt hlen
    obtain ⟨out', hout', hassigned⟩ := assign_spec logLimit
      fun e he hexempt => exponent_of_assign hout he hexempt
    obtain rfl : out' = out := Except.ok.inj (hout'.symm.trans hout)
    have hin := mem_naiveMatches.mpr ⟨i, htoken, hlen, rfl⟩
    cases hmax : (naiveMatches (p.window history) p.breakers p.allowedLength token).max? with
    | none =>
      rw [List.max?_eq_none_iff] at hmax
      rw [hmax] at hin
      cases hin
    | some m =>
      have hge := (List.max?_eq_some_iff.mp hmax).2 _ hin
      obtain ⟨j, hj, _, hjm⟩ := mem_naiveMatches.mp (List.max?_mem hmax)
      have hm : (m : ℤ) < 2 ^ 31 := by
        have := naiveCount_lt hfit hj
        omega
      by_contra hover
      simp only [not_or, not_lt] at hover
      have hwrap : p.exponent checks m =
          if checks then none else some (m - p.allowedLength - 2 ^ 32) :=
        exponent_of_overflow hm (by omega)
      have hslot := hlookup token
      have h := hnaive token
      rw [hassigned, if_neg hexempt, hslot, hmax, naivePenalty, if_pos ⟨hon, hexempt⟩, hmax,
        Option.map_some, Option.map_some, Option.bind_some, hwrap] at h
      cases checks with
      | true => simp at h
      | false =>
        have hallowed := p.allowedLength_i32.1
        simp only [Bool.false_eq_true, if_false, Option.map_some, Option.some.injEq] at h
        rw [penalty_eq_iff hon (by omega) (by omega)] at h
        exact hover.2 ⟨rfl, h⟩
  · intro h
    have hsome : ∀ e ∈ slots, ¬p.breakers.isSingleTokenBreaker e.1 →
        (p.exponent checks e.2).isSome := by
      intro e he hexempt
      obtain ⟨i, htoken, hlen, hcount⟩ := hmem e he
      rw [hcount]
      by_cases hlt : (naiveCount (p.window history) p.breakers i : ℤ) - p.allowedLength < 2 ^ 31
      · rw [exponent_of_lt hlen hlt]
        rfl
      · have hfits := naiveCount_lt hfit htoken
        rw [exponent_of_overflow (by omega) (by omega)]
        rcases h i e.1 htoken hexempt hlen with hlt' | ⟨rfl, _⟩
        · exact absurd hlt' hlt
        · rfl
    obtain ⟨out, hout, hassigned⟩ := assign_spec logLimit hsome
    refine ⟨out, hout, fun token => ?_⟩
    rw [hassigned, hlookup, naivePenalty]
    by_cases hexempt : p.breakers.isSingleTokenBreaker token
    · rw [if_pos hexempt, if_neg (fun h => h.2 hexempt)]
    · rw [if_neg hexempt, if_pos ⟨hon, hexempt⟩]
      cases hmax : (naiveMatches (p.window history) p.breakers p.allowedLength token).max? with
      | none => rfl
      | some m =>
        obtain ⟨i, htoken, hlen, rfl⟩ := mem_naiveMatches.mp (List.max?_mem hmax)
        rw [Option.map_some, Option.map_some, Option.bind_some]
        by_cases hlt : (naiveCount (p.window history) p.breakers i : ℤ) - p.allowedLength < 2 ^ 31
        · rw [exponent_of_lt hlen hlt]
          rfl
        · have hfits := naiveCount_lt hfit htoken
          have hallowed := p.allowedLength_i32.1
          rcases h i token htoken hexempt hlen with hlt' | ⟨rfl, hbase⟩
          · exact absurd hlt' hlt
          · rw [exponent_of_overflow (by omega) (by omega)]
            simp only [Bool.false_eq_true, if_false, Option.map_some, Option.some.injEq]
            exact (penalty_eq_iff hon (by omega) (by omega)).mpr hbase

end Assigned

section Whole

variable {checks logLimit p history}

/-- The slots that the whole pass ends with. -/
theorem maxTokenRepeat_spec {recent : List ℕ} {b : DryBreakers} {allowedLength : ℤ}
    (hfit : recent.length < 2 ^ 31) :
    (∀ token, (maxTokenRepeat recent allowedLength
        (repeatCounts recent (repLimit recent b))).lookup token =
          (naiveMatches recent b allowedLength token).max?.map (↑)) ∧
      ∀ e ∈ maxTokenRepeat recent allowedLength (repeatCounts recent (repLimit recent b)),
        ∃ i, recent[i + 1]? = some e.1 ∧ allowedLength ≤ naiveCount recent b i ∧
          e.2 = naiveCount recent b i := by
  have hpositions : ∀ i ∈ List.range (recent.length - 1), i + 1 < recent.length ∧
      (repeatCounts recent (repLimit recent b))[i]? = some (naiveCount recent b i : ℤ) := by
    intro i hi
    have hlt : i + 1 < recent.length := by
      have := List.mem_range.mp hi
      omega
    exact ⟨hlt, repeatCounts_naive hfit hlt⟩
  constructor
  · intro token
    have hnone : ([] : List (ℕ × ℤ)).lookup token = ([] : List ℕ).max?.map (↑) := rfl
    exact lookup_raiseAt hpositions hnone
  · intro e he
    rcases mem_raiseAt hpositions he with hnil | h
    · cases hnil
    · exact h

theorem naivePenalty_eq_none (h : ∀ i, i + 1 < (p.window history).length →
    (naiveCount (p.window history) p.breakers i : ℤ) < p.allowedLength) (token : ℕ) :
    p.naivePenalty logLimit history token = none := by
  have hnone : naiveMatches (p.window history) p.breakers p.allowedLength token = [] := by
    apply List.eq_nil_iff_forall_not_mem.mpr
    intro m hm
    obtain ⟨i, htoken, hlen, _⟩ := mem_naiveMatches.mp hm
    have hi := (List.getElem?_eq_some_iff.mp htoken).1
    exact absurd (h i hi) (not_lt.mpr hlen)
  rw [naivePenalty, hnone]
  split <;> rfl

theorem assigned_naive_iff [IsStrictOrderedRing K] (checks : Bool) (logLimit : K → ℤ)
    (hon : p.isEnabled)
    (hfit : (p.window history).length < 2 ^ 31) :
    (∃ out, p.assign checks logLimit (maxTokenRepeat (p.window history) p.allowedLength
          (repeatCounts (p.window history) (repLimit (p.window history) p.breakers))) = .ok out ∧
        ∀ token, out.lookup token = p.naivePenalty logLimit history token) ↔
      ∀ i token, (p.window history)[i + 1]? = some token →
        ¬p.breakers.isSingleTokenBreaker token →
          p.allowedLength ≤ naiveCount (p.window history) p.breakers i →
            naiveCount (p.window history) p.breakers i - p.allowedLength < 2 ^ 31 ∨
              checks = false ∧ p.base = 1 := by
  obtain ⟨hlookup, hmem⟩ := maxTokenRepeat_spec (b := p.breakers) hfit
  exact assigned_iff hon hfit hlookup hmem

/-- Where the allowed length is not negative every exit is the naive answer. -/
theorem penalties_of_nonneg [IsStrictOrderedRing K] (hon : p.isEnabled)
    (hfit : (p.window history).length < 2 ^ 31) (hpos : 0 ≤ p.allowedLength) :
    ∃ out, p.penalties checks logLimit history = .ok out ∧
      ∀ token, out.lookup token = p.naivePenalty logLimit history token := by
  have hcast : asI32 (p.window history).length = (p.window history).length := asI32_of_lt hfit
  unfold penalties
  simp only [hon, Bool.not_true, Bool.false_eq_true, if_false, hcast, repLimit_eq hfit]
  by_cases hshort : ((p.window history).length : ℤ) ≤ p.allowedLength
  · rw [if_pos hshort]
    refine ⟨[], rfl, fun token => (naivePenalty_eq_none (fun i hi => ?_) token).symm⟩
    have := naiveCount_le (p.window history) p.breakers i
    omega
  · rw [if_neg hshort]
    by_cases hlimit : (naiveLimit (p.window history) p.breakers : ℤ) < p.allowedLength
    · rw [if_pos hlimit]
      refine ⟨[], rfl, fun token => (naivePenalty_eq_none (fun i _ => ?_) token).symm⟩
      have hle : naiveCount (p.window history) p.breakers i ≤
        naiveLimit (p.window history) p.breakers := min_le_right _ _
      omega
    · rw [if_neg hlimit, if_neg (by omega), ← repLimit_eq hfit, assigned_naive_iff checks logLimit hon hfit]
      intro i token htoken _ hlen
      have := naiveCount_lt hfit htoken
      left
      omega

/-- Where it is negative no guard returns before the counts are read. -/
theorem penalties_of_neg (checks : Bool) (logLimit : K → ℤ) (hon : p.isEnabled)
    (hfit : (p.window history).length < 2 ^ 31) (hneg : p.allowedLength < 0) :
    p.penalties checks logLimit history =
      if p.window history = [] then .error .indexOutOfBounds
      else p.assign checks logLimit (maxTokenRepeat (p.window history) p.allowedLength
        (repeatCounts (p.window history) (repLimit (p.window history) p.breakers))) := by
  have hcast : asI32 (p.window history).length = (p.window history).length := asI32_of_lt hfit
  unfold penalties
  simp only [hon, Bool.not_true, Bool.false_eq_true, if_false, hcast, List.length_eq_zero_iff]
  rw [if_neg (by omega), if_neg]
  rw [repLimit_eq hfit]
  omega

/-- The counts and the penalties are the naive ones exactly where the integers take them. -/
theorem naive_iff [IsStrictOrderedRing K] (hfit : (p.window history).length < 2 ^ 31) :
    p.Naive checks logLimit history ↔ p.InRange checks history := by
  have hcounts : ∀ i, i + 1 < (p.window history).length →
      (repeatCounts (p.window history) (repLimit (p.window history) p.breakers))[i]? =
        some (naiveCount (p.window history) p.breakers i : ℤ) :=
    fun i hi => repeatCounts_naive hfit hi
  by_cases hon : p.isEnabled
  · rcases le_or_gt 0 p.allowedLength with hpos | hneg
    · constructor
      · intro _ _ hneg
        omega
      · intro _
        exact ⟨hcounts, penalties_of_nonneg hon hfit hpos⟩
    · have hexit := penalties_of_neg checks logLimit hon hfit hneg
      by_cases hempty : p.window history = []
      · rw [if_pos hempty] at hexit
        constructor
        · rintro ⟨_, out, hout, _⟩
          rw [hexit] at hout
          cases hout
        · intro h
          exact absurd hempty (h hon hneg).1
      · rw [if_neg hempty] at hexit
        have hiff := assigned_naive_iff checks logLimit hon hfit
        rw [← hexit] at hiff
        constructor
        · intro h _ _
          refine ⟨hempty, fun i token htoken hexempt => ?_⟩
          exact hiff.mp h.penalties i token htoken hexempt (by omega)
        · intro h
          refine ⟨hcounts, hiff.mpr fun i token htoken hexempt _ => ?_⟩
          exact (h hon hneg).2 i token htoken hexempt
  · constructor
    · intro _ h
      exact absurd h hon
    · intro _
      refine ⟨hcounts, [], ?_, fun token => ?_⟩
      · simp [penalties, hon]
      · simp [naivePenalty, hon]

/-- A multiplier and the default base over a whole context of 1024 tokens. -/
def whole (allowedLength : ℤ) (h : -2 ^ 31 ≤ allowedLength ∧ allowedLength < 2 ^ 31) :
    DryParams ℚ := ⟨4 / 5, 7 / 4, allowedLength, -1, 1024, .none, h⟩

theorem naive_iff_repeated :
    (whole 2 (by omega)).Naive false (fun _ => 158) ⟨[0, 1, 2], [0, 1]⟩ := by
  refine (naive_iff ?_).mpr ?_
  · simp [window, whole, effectiveLastN, PenaltyWindow.recent, PenaltyWindow.len]
  · intro _ hneg
    simp [whole] at hneg

/-- The first token after an empty prompt, under a negative allowed length. -/
theorem not_naive_empty :
    ¬(whole (-1) (by omega)).Naive true (fun _ => 158) ⟨[], []⟩ ∧
      ¬(whole (-1) (by omega)).Naive false (fun _ => 158) ⟨[], []⟩ := by
  have hpanics : ∀ checks, (whole (-1) (by omega)).penalties checks (fun _ => 158) ⟨[], []⟩ =
      .error .indexOutOfBounds := by
    intro checks
    have hon : (whole (-1) (by omega)).isEnabled := by
      simp only [isEnabled, whole]
      norm_num
    have hempty : (whole (-1) (by omega)).window ⟨[], []⟩ = [] := rfl
    rw [penalties_of_neg checks _ hon (by simp [hempty]) (by simp [whole]), if_pos hempty]
  constructor
  · rintro ⟨_, out, hout, _⟩
    rw [hpanics] at hout
    cases hout
  · rintro ⟨_, out, hout, _⟩
    rw [hpanics] at hout
    cases hout

end Whole

end DryParams

end Frink.Sampling
