import Mathlib

/-! # Accepting a drafted token

A drafted token is kept with the probability its target allows, else a token is
drawn from what the draft left of the target. Under a greedy target both answers
are the greedy one.
-/

namespace Frink.Speculative

local instance Sampler.two : Nat.AtLeastTwo 2 := inferInstance

variable {K : Type} [Field K] [LinearOrder K] [IsStrictOrderedRing K]

/-- The seeded xorshift64* stream. -/
structure Sampler where
  state : UInt64
  deriving DecidableEq, Repr

namespace Sampler

def new (seed : UInt64) : Sampler := ⟨if seed = 0 then 0x9E3779B97F4A7C15 else seed⟩

def nextU64 (s : Sampler) : UInt64 × Sampler :=
  let state := s.state ^^^ (s.state <<< 13)
  let state := state ^^^ (state >>> 7)
  let state := state ^^^ (state <<< 17)
  (state * 0x2545F4914F6CDD1D, ⟨state⟩)

/-- The upper 24 bits as a fraction. -/
def uniform (s : Sampler) : K × Sampler :=
  let (bits, s) := s.nextU64
  (((bits >>> 40).toNat : K) / 2 ^ 24, s)

/-- The first index whose cumulative mass passes the draw. -/
def drawIndex (draw : K) : ℕ → K → List K → Option ℕ
  | _, _, [] => none
  | i, cumulative, p :: probs =>
      if draw < cumulative + p then some i else drawIndex draw (i + 1) (cumulative + p) probs

def lastPositive (probs : List K) : ℕ :=
  ((probs.zipIdx.reverse.find? fun p => decide (0 < p.1)).map Prod.snd).getD 0

def sampleFrom (s : Sampler) (probs : List K) : ℕ × Sampler :=
  let (draw, s) : K × Sampler := s.uniform
  ((drawIndex draw 0 0 probs).getD (lastPositive probs), s)

end Sampler

/-- What the sampler chain computes with floats is a parameter. -/
structure SamplingParams (K : Type) [Zero K] where
  temperature : K
  xtcProbability : K
  xtcThreshold : K
  chainKeepsTheArgmax : Bool
  applyHistoryPenalties : List K → List ℕ → List ℕ → List K
  filteredDistribution : List K → List ℕ → List ℕ → Option K → List K
  filtered_length : ∀ scores prompt generated roll,
    (filteredDistribution scores prompt generated roll).length = scores.length

namespace SamplingParams

variable (params : SamplingParams K)

def xtcCanFire : Bool := decide (0 < params.xtcProbability ∧ params.xtcThreshold ≤ 1 / 2)

def xtcRoll (rng : Sampler) : Option K × Sampler :=
  if params.xtcCanFire then
    let (roll, rng) : K × Sampler := rng.uniform
    (some roll, rng)
  else (none, rng)

def argmaxFrom : ℕ → ℕ → K → List K → ℕ
  | _, best, _, [] => best
  | i, best, top, x :: scores =>
      if x < top then argmaxFrom (i + 1) best top scores else argmaxFrom (i + 1) i x scores

/-- The last of the largest. -/
def argmax : List K → ℕ
  | [] => 0
  | x :: scores => argmaxFrom 1 0 x scores

def greedyChoice (scores : List K) (prompt generated : List ℕ) (roll : Option K) : ℕ :=
  if params.chainKeepsTheArgmax then argmax scores
  else argmax (params.filteredDistribution scores prompt generated roll)

def pointMass (vocab chosen : ℕ) : List K := (List.replicate vocab 0).set chosen 1

/-- The distribution the sampler draws from; a greedy one is the point mass on its choice. -/
def samplingDistribution (logits : List K) (prompt generated : List ℕ) (roll : Option K) :
    List K :=
  let scores := params.applyHistoryPenalties logits prompt generated
  if params.temperature ≤ 0 then
    pointMass scores.length (params.greedyChoice scores prompt generated roll)
  else params.filteredDistribution scores prompt generated roll

/-- The choice is a function of the logits and the history. -/
def Greedy : Prop := params.temperature ≤ 0 ∧ params.xtcCanFire = false

end SamplingParams

/-- The support of the distribution a drafted token was drawn from. -/
structure DraftDist (K : Type) where
  support : List (ℕ × K)

namespace DraftDist

def deterministic (token : ℕ) : DraftDist K := ⟨[(token, 1)]⟩

def prob (d : DraftDist K) (token : ℕ) : K :=
  ((d.support.find? fun p => p.1 == token).map Prod.snd).getD 0

/-- A token drawn from the distribution has a positive mass in it, and no mass is negative. -/
def Honest (d : DraftDist K) (token : ℕ) : Prop :=
  0 < d.prob token ∧ ∀ p ∈ d.support, 0 ≤ p.2

end DraftDist

structure DraftBlock (K : Type) where
  tokens : List ℕ
  dists : List (DraftDist K)
  length_eq : tokens.length = dists.length

namespace DraftBlock

def deterministic (tokens : List ℕ) : DraftBlock K :=
  ⟨tokens, tokens.map DraftDist.deterministic, (List.length_map _).symm⟩

def truncate (block : DraftBlock K) (len : ℕ) : DraftBlock K :=
  ⟨block.tokens.take len, block.dists.take len, by
    rw [List.length_take, List.length_take, block.length_eq]⟩

def Honest (block : DraftBlock K) : Prop :=
  ∀ p ∈ block.tokens.zip block.dists, p.2.Honest p.1

end DraftBlock

/-- What the draft leaves of the target. -/
def residual (target : List K) (support : List (ℕ × K)) : List K :=
  support.foldl (fun r p => r.modify p.1 fun x => max (x - p.2) 0) target

/-- `none` keeps the drafted token, else the replacement. -/
def acceptOrResample (target : List K) (draft : DraftDist K) (token : ℕ) (rng : Sampler) :
    Option ℕ × Sampler :=
  let p := target[token]?.getD 0
  let q := draft.prob token
  if q ≤ 0 ∨ q ≤ p then (none, rng)
  else
    let (coin, rng) : K × Sampler := rng.uniform
    if coin < p / q then (none, rng)
    else
      let rest := residual target draft.support
      let total := rest.sum
      let (replacement, rng) :=
        if total ≤ 0 then rng.sampleFrom target else rng.sampleFrom (rest.map (· / total))
      (some replacement, rng)

namespace Sampler

theorem uniform_nonneg (s : Sampler) : (0 : K) ≤ (s.uniform (K := K)).1 := by
  unfold uniform
  dsimp only
  positivity

theorem uniform_lt_one (s : Sampler) : (s.uniform (K := K)).1 < 1 := by
  unfold uniform
  dsimp only
  have hbits : (s.nextU64.1 >>> 40).toNat < 2 ^ 24 := by
    have := s.nextU64.1.toNat_lt
    rw [UInt64.toNat_shiftRight, Nat.shiftRight_eq_div_pow]
    simp
    omega
  rw [div_lt_one (by positivity)]
  exact_mod_cast hbits

end Sampler

/-- All the mass, `x`, on one index. -/
def spike (vocab chosen : ℕ) (x : K) : List K := (List.replicate vocab 0).set chosen x

variable {n c : ℕ} {x draw : K} {support : List (ℕ × K)}

theorem spike_modify (hx : 0 ≤ x) {q : K} (hq : 0 ≤ q) (t : ℕ) :
    ∃ y, 0 ≤ y ∧ (spike n c x).modify t (fun r => max (r - q) 0) = spike n c y := by
  by_cases ht : t = c
  · refine ⟨max (x - q) 0, le_max_right _ _, ?_⟩
    subst ht
    apply List.ext_getElem?
    intro i
    unfold spike
    rw [List.getElem?_modify, List.getElem?_set, List.getElem?_set]
    by_cases hi : t = i
    · subst hi
      by_cases hlt : t < n <;> simp [hlt]
    · simp [hi]
  · refine ⟨x, hx, ?_⟩
    apply List.ext_getElem?
    intro i
    unfold spike
    rw [List.getElem?_modify, List.getElem?_set]
    by_cases hi : t = i
    · subst hi
      by_cases hlt : t < n <;> simp [Ne.symm ht, hlt, hq]
    · simp [hi]

theorem residual_spike (hx : 0 ≤ x) (hq : ∀ p ∈ support, 0 ≤ p.2) :
    ∃ y, 0 ≤ y ∧ residual (spike n c x) support = spike n c y := by
  induction support generalizing x with
  | nil => exact ⟨x, hx, rfl⟩
  | cons p support ih =>
    obtain ⟨y, hy, hstep⟩ := spike_modify (n := n) (c := c) hx (hq p (by simp)) p.1
    obtain ⟨z, hz, hrest⟩ := ih hy fun p hp => hq p (by simp [hp])
    refine ⟨z, hz, ?_⟩
    rw [← hrest, residual, List.foldl_cons, hstep]
    rfl

omit [LinearOrder K] [IsStrictOrderedRing K] in
theorem sum_spike (hc : c < n) : (spike n c x).sum = x := by
  unfold spike
  rw [List.sum_set']
  simp [hc]

omit [LinearOrder K] [IsStrictOrderedRing K] in
theorem map_div_spike (hx : x ≠ 0) : (spike n c x).map (· / x) = spike n c 1 := by
  simp [spike, List.map_set, hx]

omit [IsStrictOrderedRing K] in
theorem drawIndex_spike (h0 : 0 ≤ draw) (h1 : draw < 1) (hc : c < n) (i : ℕ) :
    Sampler.drawIndex draw i 0 (spike n c 1) = some (i + c) := by
  induction n generalizing c i with
  | zero => omega
  | succ n ih =>
    cases c with
    | zero => simp [spike, List.replicate_succ, Sampler.drawIndex, h1]
    | succ c =>
      have hspike : spike (n + 1) (c + 1) (1 : K) = 0 :: spike n c 1 := by
        simp [spike, List.replicate_succ]
      rw [hspike, Sampler.drawIndex, add_zero, if_neg (not_lt.mpr h0), ih (by omega)]
      congr 1
      omega

theorem sampleFrom_spike (s : Sampler) (hc : c < n) :
    (s.sampleFrom (spike n c (1 : K))).1 = c := by
  unfold Sampler.sampleFrom
  dsimp only
  rw [drawIndex_spike s.uniform_nonneg s.uniform_lt_one hc]
  simp

omit [IsStrictOrderedRing K] in
theorem sampleFrom_nil (s : Sampler) : (s.sampleFrom ([] : List K)).1 = 0 := rfl

omit [LinearOrder K] [IsStrictOrderedRing K] in
theorem getElem?_spike (t : ℕ) :
    (spike n c x)[t]?.getD 0 = if t = c ∧ c < n then x else 0 := by
  unfold spike
  rw [List.getElem?_set]
  by_cases ht : c = t
  · subst ht
    by_cases hlt : c < n <;> simp [hlt]
  · by_cases hlt : t < n <;> simp [ht, Ne.symm ht, hlt]

/-- Against a point mass an honest draft is kept only when it is the choice, and is replaced by
nothing but the choice. -/
theorem acceptOrResample_spike {draft : DraftDist K} {token : ℕ} (rng : Sampler)
    (hc : c < n ∨ n = 0 ∧ c = 0) (hq : draft.Honest token) :
    ((acceptOrResample (spike n c 1) draft token rng).1 = none → token = c) ∧
      ∀ r, (acceptOrResample (spike n c 1) draft token rng).1 = some r → r = c := by
  obtain ⟨hpos, hsupport⟩ := hq
  have hzero : token ≠ c → (spike n c (1 : K))[token]?.getD 0 = 0 := by
    intro h
    rw [getElem?_spike, if_neg (fun h' => h h'.1)]
  have hself : ∀ s : Sampler, (s.sampleFrom (spike n c (1 : K))).1 = c := by
    intro s
    rcases hc with hc | ⟨rfl, rfl⟩
    · exact sampleFrom_spike s hc
    · exact sampleFrom_nil s
  unfold acceptOrResample
  dsimp only
  by_cases hkeep : draft.prob token ≤ 0 ∨ draft.prob token ≤ (spike n c (1 : K))[token]?.getD 0
  · rw [if_pos hkeep]
    refine ⟨fun _ => ?_, nofun⟩
    by_contra hne
    rw [hzero hne] at hkeep
    exact absurd hpos (not_lt.mpr (hkeep.elim id id))
  · rw [if_neg hkeep]
    split
    · rename_i hcoin
      refine ⟨fun _ => ?_, nofun⟩
      by_contra hne
      rw [hzero hne, zero_div] at hcoin
      exact absurd hcoin (not_lt.mpr rng.uniform_nonneg)
    · refine ⟨nofun, fun r hr => ?_⟩
      obtain ⟨y, hy, hres⟩ := residual_spike (n := n) (c := c) zero_le_one hsupport
      rw [hres] at hr
      split at hr
      · cases hr
        exact hself _
      · rename_i htotal
        cases hr
        rcases hc with hc | hc
        · rw [sum_spike hc] at htotal ⊢
          rw [map_div_spike (not_le.mp htotal).ne', sampleFrom_spike _ hc]
        · rw [hc.1, hc.2]
          exact sampleFrom_nil _

namespace SamplingParams

variable (params : SamplingParams K) {scores logits : List K} {prompt generated : List ℕ}

omit [Field K] [IsStrictOrderedRing K] in
theorem argmaxFrom_lt {i best : ℕ} {top : K} (h : best < i) :
    argmaxFrom i best top scores < i + scores.length := by
  induction scores generalizing i best top with
  | nil => simpa [argmaxFrom] using h
  | cons x scores ih =>
    rw [argmaxFrom, List.length_cons]
    split
    · have hlt : argmaxFrom (i + 1) best top scores < i + 1 + scores.length := ih (by omega)
      omega
    · have hlt : argmaxFrom (i + 1) i x scores < i + 1 + scores.length := ih (by omega)
      omega

omit [Field K] [IsStrictOrderedRing K] in
theorem argmax_lt : argmax scores < scores.length ∨ scores.length = 0 ∧ argmax scores = 0 := by
  cases scores with
  | nil => exact .inr ⟨rfl, rfl⟩
  | cons x scores =>
    left
    have hlt : argmaxFrom 1 0 x scores < 1 + scores.length := argmaxFrom_lt Nat.zero_lt_one
    rw [argmax, List.length_cons]
    omega

omit [IsStrictOrderedRing K] in
theorem greedyChoice_lt (roll : Option K) :
    params.greedyChoice scores prompt generated roll < scores.length ∨
      scores.length = 0 ∧ params.greedyChoice scores prompt generated roll = 0 := by
  unfold greedyChoice
  split
  · exact argmax_lt
  · have hlt : _ ∨ _ ∧ argmax (params.filteredDistribution scores prompt generated roll) = 0 :=
      argmax_lt
    rwa [params.filtered_length] at hlt

/-- The token plain greedy decoding takes. -/
def greedyToken (logits : List K) (prompt generated : List ℕ) : ℕ :=
  params.greedyChoice (params.applyHistoryPenalties logits prompt generated) prompt generated none

variable {params}

omit [IsStrictOrderedRing K] in
theorem Greedy.xtcRoll (h : params.Greedy) (rng : Sampler) : params.xtcRoll rng = (none, rng) := by
  rw [SamplingParams.xtcRoll, h.2]
  rfl

omit [IsStrictOrderedRing K] in
theorem Greedy.distribution (h : params.Greedy) (logits : List K) (prompt generated : List ℕ) :
    ∃ n, params.samplingDistribution logits prompt generated none =
        spike n (params.greedyToken logits prompt generated) 1 ∧
      (params.greedyToken logits prompt generated < n ∨
        n = 0 ∧ params.greedyToken logits prompt generated = 0) := by
  refine ⟨_, ?_, params.greedyChoice_lt none⟩
  rw [samplingDistribution, if_pos h.1]
  rfl

theorem Greedy.sampleFrom (h : params.Greedy) (rng : Sampler) :
    (rng.sampleFrom (params.samplingDistribution logits prompt generated none)).1 =
      params.greedyToken logits prompt generated := by
  obtain ⟨n, hd, hc⟩ := h.distribution logits prompt generated
  rw [hd]
  rcases hc with hc | ⟨hn, hc⟩
  · exact sampleFrom_spike rng hc
  · rw [hc, hn]
    exact sampleFrom_nil rng

/-- Under greedy options an honest draft is kept only when it is the greedy token, and replaced by
nothing else. -/
theorem Greedy.accept (h : params.Greedy) (logits : List K) (prompt generated : List ℕ)
    {draft : DraftDist K} {token : ℕ} (rng : Sampler) (hq : draft.Honest token) :
    ((acceptOrResample (params.samplingDistribution logits prompt generated none) draft token
        rng).1 = none → token = params.greedyToken logits prompt generated) ∧
      ∀ r, (acceptOrResample (params.samplingDistribution logits prompt generated none) draft
        token rng).1 = some r → r = params.greedyToken logits prompt generated := by
  obtain ⟨n, hd, hc⟩ := h.distribution logits prompt generated
  rw [hd]
  exact acceptOrResample_spike rng hc hq

end SamplingParams

end Frink.Speculative
