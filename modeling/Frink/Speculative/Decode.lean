import Frink.Library.Fuel
import Frink.Speculative.Accept
import Frink.Speculative.Target

/-! # The speculative loop

Each round commits the pending token, verifies a drafted block behind it in one
batched call, rolls the caches back to what was accepted, and picks the next
pending token.
-/

namespace Frink.Speculative

open Kv

structure SpeculativeOptions (K : Type) [Zero K] where
  maxNewTokens : ℕ
  startPos : ℕ
  sampling : SamplingParams K
  seed : UInt64

structure SpeculativeDecodeResult where
  generatedTokens : List ℕ
  forwardCalls : ℕ
  tokensGenerated : ℕ
  verificationSteps : ℕ
  draftedTokens : ℕ
  acceptedTokens : ℕ
  evaluatedAtPosition : List ℕ
  acceptedAtPosition : List ℕ
  deriving DecidableEq, Repr

namespace SpeculativeDecodeResult

def default : SpeculativeDecodeResult := ⟨[], 0, 0, 0, 0, 0, [], []⟩

def recordPosition (r : SpeculativeDecodeResult) (position : ℕ) (accepted : Bool) :
    SpeculativeDecodeResult :=
  let r := if r.evaluatedAtPosition.length ≤ position then
      { r with
        evaluatedAtPosition := r.evaluatedAtPosition.rightpad (position + 1) 0
        acceptedAtPosition := r.acceptedAtPosition.rightpad (position + 1) 0 }
    else r
  let r := { r with
    evaluatedAtPosition := r.evaluatedAtPosition.modify position (· + 1)
    draftedTokens := r.draftedTokens + 1 }
  if accepted then
    { r with
      acceptedAtPosition := r.acceptedAtPosition.modify position (· + 1)
      acceptedTokens := r.acceptedTokens + 1 }
  else r

end SpeculativeDecodeResult

/-- The panics of the loop. -/
inductive Panic
  | emptyPrompt
  | recurrentLayers
  | startPos
  | noLogits
  | index
  | truncate
  deriving DecidableEq, Repr

structure Decoder (K α β : Type) where
  hasRecurrentLayers : Bool
  forwardBatchWithHidden : List ℕ → ℕ → List (KvCache α β) →
    (List (List K) × List (List K)) × List (KvCache α β)

structure Drafter (σ K : Type) where
  propose : σ → List ℕ → List K → ℕ → DraftBlock K × σ

/-- The observer answers from the calls before and the token. -/
abbrev OnToken := List ℕ → ℕ → Bool

structure Run (σ K α β : Type) where
  rng : Sampler
  drafter : σ
  kvCaches : List (KvCache α β)
  history : List ℕ
  generated : List ℕ
  observed : List ℕ
  stopAt : Option ℕ
  targetHidden : List K
  pending : ℕ
  pos : ℕ
  result : SpeculativeDecodeResult

structure Outcome (σ α β : Type) where
  result : SpeculativeDecodeResult
  kvCaches : List (KvCache α β)
  drafter : σ
  observed : List ℕ

variable {σ K α β : Type}

/-- The token joins what is generated, and is shown to an observer that has not said stop. -/
def Run.commit (onToken : OnToken) (s : Run σ K α β) (token : ℕ) : Run σ K α β :=
  let s := { s with history := s.history ++ [token], generated := s.generated ++ [token] }
  if s.stopAt.isNone then
    { s with
      observed := s.observed ++ [token]
      stopAt := if onToken s.observed token then none else some s.generated.length }
  else s

def tryGet {γ : Type} (xs : List γ) (i : ℕ) : Except Panic γ :=
  match xs[i]? with
  | some x => .ok x
  | none => .error .index

/-- `truncate` on every cache. -/
def truncateAll (committedLen : ℕ) : List (KvCache α β) → Except Panic (List (KvCache α β))
  | [] => .ok []
  | cache :: caches =>
      match cache.truncate committedLen with
      | some cache => (truncateAll committedLen caches).map (cache :: ·)
      | none => .error .truncate

/-- A block that was accepted whole leaves nothing to roll back. -/
def rollBack (drafted accepted committedLen : ℕ) (kvCaches : List (KvCache α β)) :
    Except Panic (List (KvCache α β)) :=
  if accepted < drafted then truncateAll committedLen kvCaches else .ok kvCaches

/-- No longer than the caches can roll back, and one short of what may still be generated. -/
def draftBudget (maxNewTokens : ℕ) (s : Run σ K α β) : ℕ :=
  min (maxNewTokens - s.generated.length - 1)
    ((s.kvCaches.map (·.rollbackLimit)).min?.getD USIZE_MAX)

variable [Field K] [LinearOrder K]

section

variable (options : SpeculativeOptions K) (promptLen : ℕ)

def sampleNext (logits : List K) (history : List ℕ) (rng : Sampler) : ℕ × Sampler :=
  let (xtcRoll, rng) := options.sampling.xtcRoll rng
  rng.sampleFrom (options.sampling.samplingDistribution logits (history.take promptLen)
    (history.drop promptLen) xtcRoll)

/-- Judges the drafted tokens from `i` on: how many of the block were accepted, and what
replaces the first that was not. -/
def verifyDrafts (onToken : OnToken) (batchLogits : List (List K)) :
    ℕ → List (ℕ × DraftDist K) → Run σ K α β → Except Panic (Run σ K α β × ℕ × Option ℕ)
  | i, [], s => .ok (s, i, none)
  | i, (token, dist) :: drafts, s => do
      let logits ← tryGet batchLogits i
      let (xtcRoll, rng) := options.sampling.xtcRoll s.rng
      let target := options.sampling.samplingDistribution logits (s.history.take promptLen)
        (s.history.drop promptLen) xtcRoll
      match acceptOrResample target dist token rng with
      | (none, rng) =>
          let s := { s with rng := rng, result := s.result.recordPosition i true }
          verifyDrafts onToken batchLogits (i + 1) drafts (s.commit onToken token)
      | (some resampled, rng) =>
          .ok ({ s with rng := rng, result := s.result.recordPosition i false }, i, some resampled)

/-- One batched call over the pending token and the draft behind it. -/
def dispatch (decoder : Decoder K α β) (drafter : Drafter σ K) (s : Run σ K α β) :
    DraftBlock K × List (List K) × List (List K) × Run σ K α β :=
  let budget := draftBudget options.maxNewTokens s
  let (draft, drafting) := drafter.propose s.drafter s.history s.targetHidden budget
  let draft := draft.truncate budget
  let ((batchLogits, batchHidden), kvCaches) :=
    decoder.forwardBatchWithHidden (s.pending :: draft.tokens) s.pos s.kvCaches
  (draft, batchLogits, batchHidden,
    { s with
      drafter := drafting
      kvCaches := kvCaches
      result := { s.result with
        forwardCalls := s.result.forwardCalls + 1
        verificationSteps := s.result.verificationSteps + 1 } })

/-- The replacement, or a bonus token when every draft was accepted. -/
def nextAnchor (batchLogits : List (List K)) (accepted : ℕ) (replacement : Option ℕ)
    (s : Run σ K α β) : Except Panic (ℕ × Sampler) :=
  match replacement with
  | some tok => .ok (tok, s.rng)
  | none => (tryGet batchLogits accepted).map fun logits =>
      sampleNext options promptLen logits s.history s.rng

/-- Drops what was computed from tokens that were not committed, and picks the next anchor. -/
def settle (batchLogits batchHidden : List (List K)) (drafted accepted : ℕ)
    (replacement : Option ℕ) (s : Run σ K α β) : Except Panic (Run σ K α β) := do
  let committedLen := s.pos + 1 + accepted
  let kvCaches ← rollBack drafted accepted committedLen s.kvCaches
  let targetHidden ← tryGet batchHidden accepted
  let next ← nextAnchor options promptLen batchLogits accepted replacement s
  .ok { s with
    kvCaches := kvCaches
    targetHidden := targetHidden
    pending := next.1
    rng := next.2
    pos := committedLen }

/-- A round, and whether the loop breaks after it. -/
def round (decoder : Decoder K α β) (drafter : Drafter σ K) (onToken : OnToken)
    (s : Run σ K α β) : Except Panic (Bool × Run σ K α β) :=
  let s := s.commit onToken s.pending
  if s.stopAt.isSome then .ok (true, s)
  else if s.generated.length = options.maxNewTokens then .ok (true, s)
  else do
    let (draft, batchLogits, batchHidden, s) := dispatch options decoder drafter s
    let (s, accepted, replacement) ←
      verifyDrafts options promptLen onToken batchLogits 0 (draft.tokens.zip draft.dists) s
    let s ← settle options promptLen batchLogits batchHidden draft.tokens.length accepted
      replacement s
    .ok (s.stopAt.isSome, s)

def decodeLoop (decoder : Decoder K α β) (drafter : Drafter σ K) (onToken : OnToken) :
    ℕ → Run σ K α β → Exec Panic (Run σ K α β)
  | 0, _ => ExceptT.mk none
  | fuel + 1, s => do
      let (stopped, s) ← Exec.ofExcept (round options promptLen decoder drafter onToken s)
      if stopped then pure s else decodeLoop decoder drafter onToken fuel s

end

variable (decoder : Decoder K α β) (drafter : Drafter σ K) (onToken : OnToken)
  (options : SpeculativeOptions K)

/-- The run after the prefill. -/
def prefill (promptTokens : List ℕ) (kvCaches : List (KvCache α β)) (drafting : σ) :
    Except Panic (Run σ K α β) :=
  let ((prefillLogits, prefillHidden), kvCaches) :=
    decoder.forwardBatchWithHidden promptTokens options.startPos kvCaches
  match prefillLogits.getLast? with
  | none => .error .noLogits
  | some last =>
      let (pending, rng) :=
        sampleNext options promptTokens.length last promptTokens (Sampler.new options.seed)
      .ok {
        rng := rng
        drafter := drafting
        kvCaches := kvCaches
        history := promptTokens
        generated := []
        observed := []
        stopAt := none
        targetHidden := prefillHidden.getLast?.getD []
        pending := pending
        pos := options.startPos + promptTokens.length
        result := { SpeculativeDecodeResult.default with forwardCalls := 1 } }

/-- The output is cut at the token that said stop. -/
def Run.finish (s : Run σ K α β) : Outcome σ α β :=
  let generated := match s.stopAt with
    | some len => s.generated.take len
    | none => s.generated
  { result := { s.result with
      tokensGenerated := generated.length
      generatedTokens := generated }
    kvCaches := s.kvCaches
    drafter := s.drafter
    observed := s.observed }

def speculativeDecodeObserved (promptTokens : List ℕ) (kvCaches : List (KvCache α β))
    (drafting : σ) (fuel : ℕ) : Exec Panic (Outcome σ α β) :=
  if promptTokens = [] then Exec.fail .emptyPrompt
  else if decoder.hasRecurrentLayers then Exec.fail .recurrentLayers
  else if kvCaches.any (·.positions != options.startPos) then Exec.fail .startPos
  else if options.maxNewTokens = 0 then
    pure ⟨SpeculativeDecodeResult.default, kvCaches, drafting, []⟩
  else do
    let s ← Exec.ofExcept (prefill decoder options promptTokens kvCaches drafting)
    let s ← decodeLoop options promptTokens.length decoder drafter onToken fuel s
    pure s.finish

end Frink.Speculative
