import Frink.Sampling.Candidates
import Frink.Sampling.Dry
import Frink.Speculative.Accept

/-! # The sampler chain

The penalties run over the whole vocabulary, the other steps over the candidate list in the order
a request asks for. Greedy decoding skips the list where a table of verdicts says that no step
moves the argmax, and a sampler that reports its distribution never skips it.
-/

namespace Frink.Sampling

open Speculative (Sampler)
open Speculative.SamplingParams (argmax pointMass)

local instance ChainStep.two : Nat.AtLeastTwo 2 := inferInstance

inductive ChainStep where

  | penalties

  | dry

  | topNSigma

  | topK

  | typP

  | topP

  | minP

  | xtc

  | temperature
  deriving DecidableEq, Repr

/-- The steps that a parsed `--samplers` can name. -/
structure SamplerOrder where

  steps : List ChainStep

  nodup : steps.Nodup

  penalties_first : ChainStep.penalties ∉ steps.tail

  temperature_mem : ChainStep.temperature ∈ steps

namespace SamplerOrder

def default : SamplerOrder where
  steps := [.penalties, .dry, .topNSigma, .topK, .typP, .topP, .minP, .xtc, .temperature]
  nodup := by decide
  penalties_first := by decide
  temperature_mem := by decide

def hasPenalties (o : SamplerOrder) : Bool := o.steps.contains .penalties

end SamplerOrder

structure SamplingParams (K : Type) where

  temperature : K

  topP : K

  minP : K

  topK : ℕ

  typicalP : K

  topNSigma : K

  xtcProbability : K

  xtcThreshold : K

  dry : DryParams K

  repetitionPenalty : K

  penaltyLastN : ℕ

  presencePenalty : K

  frequencyPenalty : K

  samplerOrder : SamplerOrder

theorem two_mem_i32 : -2 ^ 31 ≤ (2 : ℤ) ∧ (2 : ℤ) < 2 ^ 31 := by omega

/-- DRY switched off. -/
def DryParams.off {K : Type} [Field K] : DryParams K where
  multiplier := 0
  base := 7 / 4
  allowedLength := 2
  penaltyLastN := -1
  totalContextSize := 0
  breakers := .none
  allowedLength_i32 := two_mem_i32

/-- What one step does to the argmax of the scores it is handed. -/
inductive StepEffect where

  | inert

  | keepsTheMaximum

  | movesTheArgmax
  deriving DecidableEq, Repr

/-- A callback that masks logits in place. -/
structure LogitMask (K : Type) where

  apply : List (WithBot K) → List (WithBot K)

  length_apply : ∀ scores, (apply scores).length = scores.length

namespace SamplingParams

variable {K : Type} [Field K] [LinearOrder K] [IsStrictOrderedRing K]

/-- The values at which every sampler does nothing. -/
def default : SamplingParams K where
  temperature := 0
  topP := 1
  minP := 0
  topK := 0
  typicalP := 1
  topNSigma := -1
  xtcProbability := 0
  xtcThreshold := 1 / 10
  dry := .off
  repetitionPenalty := 1
  penaltyLastN := 64
  presencePenalty := 0
  frequencyPenalty := 0
  samplerOrder := .default

variable (fl : Elementary K) (checks : Bool) (params : SamplingParams K)

def xtcCanFire : Bool := decide (0 < params.xtcProbability ∧ params.xtcThreshold ≤ 1 / 2)

/-- The draw is skipped where it would not be used. -/
def xtcRoll (rng : Sampler) : Option K × Sampler :=
  if params.xtcCanFire then
    let (roll, rng) : K × Sampler := rng.uniform
    (some roll, rng)
  else (none, rng)

/-- A token is penalised once, however often it occurs. -/
def penalise (count : ℕ) (s : K) : K :=
  let s :=
    if params.repetitionPenalty ≠ 1 then
      if 0 < s then s / params.repetitionPenalty else s * params.repetitionPenalty
    else s
  s - params.frequencyPenalty * count - params.presencePenalty

def applyHistoryPenalties (scores : List K) (history : PenaltyWindow) : List K :=
  if !params.samplerOrder.hasPenalties then scores
  else if params.repetitionPenalty = 1 ∧ params.presencePenalty = 0 ∧
      params.frequencyPenalty = 0 then scores
  else if params.penaltyLastN = 0 then scores
  else
    let recent := history.recent params.penaltyLastN
    recent.dedup.foldl (fun scores tok => scores.modify tok (params.penalise (recent.count tok)))
      scores

/-- One step over the candidate list; the penalties have already run. -/
def runStep (history : PenaltyWindow) (xtcRoll : Option K) (candidates : Candidates K)
    (step : ChainStep) : Except DryPanic (Candidates K) :=
  match step with
  | .penalties => .ok candidates
  | .dry => (params.dry.penalties checks fl.logLimit history).map candidates.dry
  | .topNSigma => .ok (candidates.topNSigma fl params.topNSigma)
  | .topK => .ok (candidates.topK params.topK)
  | .typP => .ok (candidates.typicalP fl params.typicalP)
  | .topP => .ok (candidates.topP fl params.topP)
  | .minP => .ok (candidates.minP fl params.minP)
  | .xtc =>
      match xtcRoll with
      | some chance =>
          .ok (candidates.xtc fl params.xtcProbability params.xtcThreshold chance)
      | none => .ok candidates
  | .temperature => .ok (candidates.temperature params.temperature)

/-- The distribution that penalised scores leave at the end of the chain. -/
def filteredDistribution (scores : List (WithBot K)) (history : PenaltyWindow)
    (xtcRoll : Option K) : Except DryPanic (List K) := do
  let candidates ← params.samplerOrder.steps.foldlM (params.runStep fl checks history xtcRoll)
    (Candidates.new scores)
  return candidates.intoDistribution fl scores.length

/-- What a step would do to an argmax. -/
def stepEffect (step : ChainStep) : StepEffect :=
  match step with
  | .penalties =>
      if params.penaltyLastN = 0 ∨ params.repetitionPenalty = 1 ∧ params.presencePenalty = 0 ∧
          params.frequencyPenalty = 0 then .inert
      else .movesTheArgmax
  | .dry => if params.dry.isEnabled then .movesTheArgmax else .inert
  | .topNSigma => if params.topNSigma ≤ 0 then .inert else .keepsTheMaximum
  | .topK => if params.topK = 0 then .inert else .keepsTheMaximum
  | .typP => if 1 ≤ params.typicalP then .inert else .movesTheArgmax
  | .topP => if 1 ≤ params.topP then .inert else .keepsTheMaximum
  | .minP => if params.minP ≤ 0 then .inert else .keepsTheMaximum
  | .xtc => if params.xtcCanFire then .movesTheArgmax else .inert
  | .temperature => .keepsTheMaximum

/-- No step left in the chain moves the argmax of penalised scores. -/
def chainKeepsTheArgmax : Bool :=
  params.samplerOrder.steps.all fun step =>
    decide (step = .penalties ∨ params.stepEffect step ≠ .movesTheArgmax)

/-- No step of the chain, the penalties included, moves the argmax. -/
def greedyEqualsRawArgmax : Bool :=
  params.samplerOrder.steps.all fun step => decide (params.stepEffect step ≠ .movesTheArgmax)

def greedyChoice (scores : List (WithBot K)) (history : PenaltyWindow) (xtcRoll : Option K) :
    Except DryPanic ℕ :=
  if params.chainKeepsTheArgmax then .ok (argmax scores)
  else return argmax (← params.filteredDistribution fl checks scores history xtcRoll)

/-- The scores that the steps over the candidate list are handed. -/
def scores (logits : List K) (history : PenaltyWindow) : List (WithBot K) :=
  (params.applyHistoryPenalties logits history).map (↑)

/-- The distribution that speculative decoding verifies against. -/
def samplingDistribution (logits : List K) (history : PenaltyWindow) (xtcRoll : Option K) :
    Except DryPanic (List K) :=
  let scores := params.scores logits history
  if params.temperature ≤ 0 then
    return pointMass scores.length (← params.greedyChoice fl checks scores history xtcRoll)
  else params.filteredDistribution fl checks scores history xtcRoll

/-- A token with the distribution it was drawn from, where that is wanted, and the stream behind
the draws. -/
def sampleInner (rng : Sampler) (logits : List K) (history : PenaltyWindow)
    (mask : Option (LogitMask K)) (wantProbs : Bool) :
    Except DryPanic ((ℕ × Option (List K)) × Sampler) :=
  let (roll, rng) := params.xtcRoll rng
  if params.temperature ≤ 0 ∧ mask.isNone ∧ logits.length = 1 then
    .ok ((fl.asUsize (logits.headD 0), none), rng)
  else
    let scores := params.scores logits history
    let scores := mask.elim scores fun m => m.apply scores
    if params.temperature ≤ 0 then
      if scores.length = 1 then .ok ((((scores.headD ⊥).map fl.asUsize).unbotD 0, none), rng)
      else if !wantProbs then
        return ((← params.greedyChoice fl checks scores history roll, none), rng)
      else do
        let probs ← params.filteredDistribution fl checks scores history roll
        return ((argmax probs, some probs), rng)
    else do
      let probs ← params.filteredDistribution fl checks scores history roll
      let (chosen, rng) := rng.sampleFrom probs
      return ((chosen, if wantProbs then some probs else none), rng)

def sampleWithMask (rng : Sampler) (logits : List K) (history : PenaltyWindow)
    (mask : Option (LogitMask K)) : Except DryPanic (ℕ × Sampler) := do
  let (chosen, rng) ← params.sampleInner fl checks rng logits history mask false
  return (chosen.1, rng)

def sample (rng : Sampler) (logits : List K) (history : PenaltyWindow) :
    Except DryPanic (ℕ × Sampler) := params.sampleWithMask fl checks rng logits history none

def sampleReporting (rng : Sampler) (logits : List K) (history : PenaltyWindow)
    (mask : Option (LogitMask K)) : Except DryPanic ((ℕ × Option (List K)) × Sampler) :=
  params.sampleInner fl checks rng logits history mask true

end SamplingParams

end Frink.Sampling
