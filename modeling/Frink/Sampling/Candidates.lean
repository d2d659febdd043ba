import Mathlib

/-! # The candidate list

A chain of samplers narrows one list of candidates, held sorted by descending logit. A logit is
an exact number or `-∞`; the exponential, the logarithm and the square root are parameters with
the laws that the filters rest on.
-/

namespace Frink.Sampling

local instance Candidates.two : Nat.AtLeastTwo 2 := inferInstance

/-- The elementary functions, and the casts of what they compute to integers. -/
structure Elementary (K : Type) [Field K] [LinearOrder K] where

  exp : K → K

  ln : K → K

  sqrt : K → K

  asUsize : K → ℕ

  logLimit : K → ℤ

  exp_strictMono : StrictMono exp

  exp_pos : ∀ x, 0 < exp x

  exp_zero : exp 0 = 1

  ln_nonpos_iff : ∀ x, 0 < x → (ln x ≤ 0 ↔ x ≤ 1)

  sqrt_nonneg : ∀ x, 0 ≤ sqrt x

/-- The number of summands up to the one where the running sum passes, which is all where it
never does. -/
def keptUntil {K : Type} [Add K] (passes : K → Bool) : K → List K → ℕ
  | _, [] => 0
  | cumSum, q :: probs =>
      if passes (cumSum + q) then 1 else keptUntil passes (cumSum + q) probs + 1

section Order

variable {K : Type} [LinearOrder K]

/-- The larger first, and of equal ones the lower index. -/
def Ahead (a b : ℕ × K) : Prop := b.2 < a.2 ∨ b.2 = a.2 ∧ a.1 ≤ b.1

instance : DecidableRel (Ahead (K := K)) := fun a b =>
  inferInstanceAs (Decidable (b.2 < a.2 ∨ b.2 = a.2 ∧ a.1 ≤ b.1))

theorem Ahead.le {a b : ℕ × K} (h : Ahead a b) : b.2 ≤ a.2 :=
  h.elim le_of_lt fun h => h.1.le

instance : Std.Total (Ahead (K := K)) where
  total a b := by
    unfold Ahead
    rcases lt_trichotomy a.2 b.2 with h | h | h
    · exact .inr (.inl h)
    · rcases le_total a.1 b.1 with hi | hi
      · exact .inl (.inr ⟨h.symm, hi⟩)
      · exact .inr (.inr ⟨h, hi⟩)
    · exact .inl (.inl h)

instance : IsTrans (ℕ × K) Ahead where
  trans a b c := by
    rintro (h | ⟨h, hi⟩) (h' | ⟨h', hi'⟩)
    · exact .inl (h'.trans h)
    · exact .inl (h' ▸ h)
    · exact .inl (h ▸ h')
    · exact .inr ⟨h'.trans h, hi.trans hi'⟩

end Order

/-- The live candidates with their logits. -/
structure Candidates (K : Type) [LinearOrder K] where

  entries : List (ℕ × WithBot K)

  sorted : entries.Pairwise fun a b => b.2 ≤ a.2

namespace Candidates

variable {K : Type} [Field K] [LinearOrder K] (fl : Elementary K) (c : Candidates K)

def len : ℕ := c.entries.length

def logits : List (WithBot K) := c.entries.map Prod.snd

omit [Field K] in
@[ext] theorem ext {c d : Candidates K} (h : c.entries = d.entries) : c = d := by
  cases c
  cases d
  congr

/-- Sorted by descending logit, ties by the lower token id. -/
def resort (entries : List (ℕ × WithBot K)) : Candidates K :=
  ⟨entries.insertionSort Ahead, (List.pairwise_insertionSort Ahead entries).imp Ahead.le⟩

def new (logits : List (WithBot K)) : Candidates K := resort (logits.zipIdx.map Prod.swap)

def truncate (n : ℕ) : Candidates K :=
  ⟨c.entries.take n, c.sorted.sublist (List.take_sublist n _)⟩

def dropFront (n : ℕ) : Candidates K :=
  ⟨c.entries.drop n, c.sorted.sublist (List.drop_sublist n _)⟩

/-- The candidates at these positions, in the order they are held in. -/
def retainPositions (keep : List ℕ) : Candidates K :=
  ⟨(c.entries.zipIdx.filter fun e => decide (e.2 ∈ keep)).map Prod.fst, by
    refine List.Pairwise.sublist ?_ c.sorted
    conv_rhs => rw [← List.zipIdx_map_fst 0 c.entries]
    exact List.filter_sublist.map _⟩

/-- Every logit through a map that keeps their order. -/
def mapLogits (f : WithBot K → WithBot K) (hf : Monotone f) : Candidates K :=
  ⟨c.entries.map fun e => (e.1, f e.2), List.pairwise_map.mpr (c.sorted.imp fun h => hf h)⟩

omit [Field K] in
@[simp] theorem truncate_entries (n : ℕ) : (c.truncate n).entries = c.entries.take n := rfl

omit [Field K] in
@[simp] theorem mapLogits_entries (f : WithBot K → WithBot K) (hf : Monotone f) :
    (c.mapLogits f hf).entries = c.entries.map fun e => (e.1, f e.2) := rfl

def weight (max : K) (l : WithBot K) : K := (l.map fun x => fl.exp (x - max)).unbotD 0

/-- The softmax over the live candidates; a sum that is no positive number leaves the uniform
distribution. -/
def softmax : List K :=
  match c.logits with
  | some max :: rest =>
      let weights := ((max : WithBot K) :: rest).map (weight fl max)
      if weights.sum ≤ 0 then List.replicate weights.length (1 / weights.length)
      else weights.map (· / weights.sum)
  | logits => List.replicate logits.length (1 / logits.length)

def topK (k : ℕ) : Candidates K := if k = 0 then c else c.truncate (min k c.len)

/-- The candidate that crosses the cutoff is included. -/
def topP (p : K) : Candidates K :=
  if 1 ≤ p then c else c.truncate (keptUntil (fun cumSum => decide (p ≤ cumSum)) 0 (c.softmax fl))

/-- The first candidate always matches. -/
def minP (p : K) : Candidates K :=
  if p ≤ 0 then c
  else
    match c.logits with
    | [] => c
    | max :: rest =>
        let minLogit := max.map (· + fl.ln p)
        c.truncate (1 + (rest.takeWhile fun l => decide (minLogit ≤ l)).length)

/-- The candidates whose surprisal is closest to the entropy. -/
def typicalP (p : K) : Candidates K :=
  if 1 ≤ p ∨ c.len = 0 then c
  else
    let probs := c.softmax fl
    let entropy := (probs.map fun q => -q * fl.ln q).sum
    let shifted := probs.map fun q => |-fl.ln q - entropy|
    let order := (shifted.zipIdx.insertionSort fun a b =>
      a.1 < b.1 ∨ a.1 = b.1 ∧ a.2 ≤ b.2).map Prod.snd
    let lastIdx := keptUntil (fun cumSum => decide (p < cumSum)) 0 (order.map (probs.getD · 0))
    c.retainPositions (order.take lastIdx)

/-- A logit that is not masked. -/
def number : WithBot K → Option K
  | none => none
  | some x => some x

omit [Field K] [LinearOrder K] in
@[simp] theorem number_coe (x : K) : number (x : WithBot K) = some x := rfl

omit [Field K] [LinearOrder K] in
@[simp] theorem number_bot : number (⊥ : WithBot K) = none := rfl

/-- The standard deviation of the logits that are numbers. -/
def deviation (valid : List K) : K :=
  let mean := if 0 < valid.length then valid.sum / valid.length else 0
  if 0 < valid.length then
    fl.sqrt ((valid.map fun l => (l - mean) ^ 2).sum / valid.length)
  else 0

theorem deviation_nonneg (valid : List K) : 0 ≤ deviation fl valid := by
  unfold deviation
  dsimp only
  split
  · exact fl.sqrt_nonneg _
  · exact le_rfl

/-- A logit below the threshold is masked. -/
def maskBelow (threshold l : WithBot K) : WithBot K := if l < threshold then ⊥ else l

omit [Field K] in
theorem maskBelow_mono (threshold : WithBot K) : Monotone (maskBelow threshold) := by
  intro a b h
  unfold maskBelow
  split
  · exact bot_le
  · rename_i ha
    rwa [if_neg fun hb => ha (h.trans_lt hb)]

/-- Every candidate more than `n` standard deviations below the maximum is masked. -/
def topNSigma (n : K) : Candidates K :=
  if n ≤ 0 ∨ c.len ≤ 1 then c
  else
    let valid := c.logits.filterMap number
    let max := valid.foldl (fun (max : WithBot K) (l : K) => max ⊔ l) (c.logits.headD ⊥)
    let threshold := max.map (· - n * deviation fl valid)
    c.mapLogits (maskBelow threshold) (maskBelow_mono threshold)

/-- All but the last of the candidates at or above the threshold are dropped. -/
def xtc (probability threshold chance : K) : Candidates K :=
  if probability ≤ 0 ∨ 1 / 2 < threshold ∨ c.len < 2 then c
  else if probability < chance then c
  else
    c.dropFront (((c.softmax fl).takeWhile fun q => decide (threshold ≤ q)).length - 1)

def penalise (penalties : List (ℕ × K)) (e : ℕ × WithBot K) : ℕ × WithBot K :=
  match penalties.lookup e.1 with
  | some penalty => (e.1, e.2.map (· - penalty))
  | none => e

def dry (penalties : List (ℕ × K)) : Candidates K :=
  if c.entries.any fun e => (penalties.lookup e.1).isSome then
    resort (c.entries.map (penalise penalties))
  else c

end Candidates

namespace Candidates

variable {K : Type} [Field K] [LinearOrder K] [IsStrictOrderedRing K] (fl : Elementary K)
  (c : Candidates K)

theorem map_div_mono {temp : K} (h : 0 < temp) :
    Monotone (WithBot.map (· / temp) : WithBot K → WithBot K) :=
  WithBot.monotone_map_iff.mpr fun _ _ hle => div_le_div_of_nonneg_right hle h.le

def temperature (temp : K) : Candidates K :=
  if h : temp ≤ 0 then c
  else c.mapLogits (WithBot.map (· / temp)) (map_div_mono (not_le.mp h))

omit [IsStrictOrderedRing K] in
/-- The live candidates as a distribution over the whole vocabulary. -/
def intoDistribution (vocab : ℕ) : List K :=
  ((c.entries.map Prod.fst).zip (c.softmax fl)).foldl (fun out e => out.set e.1 e.2)
    (List.replicate vocab 0)

end Candidates

end Frink.Sampling
