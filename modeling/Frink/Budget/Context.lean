import Frink.Library.Machine

/-! # How much context fits

The KV bytes of a request at some number of tokens, priced by the rows every layer keeps, and the
largest context that goes beside the weights. A layer with a window keeps at most its window and
its slack; one layer at a time holds a whole prompt. Products saturate, other sums wrap around.
-/

namespace Frink.Context

open Machine

inductive KvElem
  | f32
  | f16
  | q8_0
  | q4_0
  deriving DecidableEq

/-- The bytes of `elems` cached scalars; a partial block costs a full one. -/
def KvElem.bytesFor (elems : UInt64) : KvElem → UInt64
  | .f32 => satMul elems 4
  | .f16 => satMul elems 2
  | .q8_0 => satMul (divCeilU64 elems 32) 34
  | .q4_0 => satMul (divCeilU64 elems 32) 18

inductive KvLayout
  | gqa (nKvHeads headDim vHeadDim : UInt64)
  | mlaLatent (kvLoraRank qkRopeHeadDim : UInt64)
  | mlaExpanded (nHeads kHeadDim vHeadDim : UInt64)
  deriving DecidableEq

/-- The scalars one token contributes to one layer. -/
def KvLayout.elemsPerTokenPerLayer : KvLayout → Tracked UInt64
  | .gqa nKvHeads headDim vHeadDim => do
      let both ← addU64 headDim vHeadDim
      mulU64 nKvHeads both
  | .mlaLatent kvLoraRank qkRopeHeadDim => addU64 kvLoraRank qkRopeHeadDim
  | .mlaExpanded nHeads kHeadDim vHeadDim => do
      let both ← addU64 kHeadDim vHeadDim
      mulU64 nHeads both

/-- A window; it is not empty, and its reserve is part of its slack. -/
structure KvWindow where

  window : UInt64

  slack : UInt64

  reserve : UInt64

  window_pos : 0 < window.toNat

  reserve_le : reserve.toNat ≤ slack.toNat

namespace KvWindow

variable (w : KvWindow)

def maxRows : Tracked UInt64 := addU64 w.window w.slack

/-- The rows that are resident behind `positions` positions. -/
def rowsAfter (positions : UInt64) : Tracked UInt64 := do
  let peak ← addU64 w.window w.slack
  if positions.toNat ≤ peak.toNat then pure positions
  else do
    let floor ← addU64 w.window w.reserve
    let past ← subU64 positions peak
    let past ← subU64 past 1
    let span ← subU64 peak floor
    let span ← addU64 span 1
    addU64 floor (past % span)

end KvWindow

/-- The window each layer evicts behind, if it does. -/
structure KvResidency where

  perLayer : List (Option KvWindow)

namespace KvResidency

variable (r : KvResidency)

def layerWindow (layer : ℕ) : Option KvWindow := (r.perLayer[layer]?).join

def rowsPerLayer (nLayers tokens : UInt64) : Tracked (List UInt64) :=
  .collect ((List.range nLayers.toNat).map fun layer =>
    match r.layerWindow layer with
    | some w => w.rowsAfter tokens
    | none => pure tokens)

/-- The most rows a layer holds at `tokens` tokens. -/
def ceilingRows (tokens : UInt64) : Option KvWindow → Tracked UInt64
  | some w => do
      let rows ← w.maxRows
      pure (minU64 rows tokens)
  | none => pure tokens

def ceilingRowsPerLayer (nLayers tokens : UInt64) : Tracked (List UInt64) :=
  .collect ((List.range nLayers.toNat).map fun layer => ceilingRows tokens (r.layerWindow layer))

def evictingLayers : ℕ := (r.perLayer.filter Option.isSome).length

end KvResidency

structure KvShape where

  kvLayers : UInt64
  layout : KvLayout
  elem : KvElem
  deriving DecidableEq

namespace KvShape

variable (s : KvShape) (residency : KvResidency)

def perTokenKvBytes : Tracked UInt64 := do
  let perLayer ← s.layout.elemsPerTokenPerLayer
  pure (satMul s.kvLayers (s.elem.bytesFor perLayer))

def kvBytesForTokens (tokens : UInt64) : Tracked UInt64 := do
  let perLayer ← s.layout.elemsPerTokenPerLayer
  pure (satMul s.kvLayers (s.elem.bytesFor (satMul perLayer tokens)))

/-- The bytes of each of some numbers of rows. -/
def rowBytes (perLayer : UInt64) (rows : List UInt64) : List UInt64 :=
  rows.map fun rows => s.elem.bytesFor (satMul perLayer rows)

/-- What the caches hold once every layer has been through. -/
def residentKvBytesForTokens (tokens : UInt64) : Tracked UInt64 := do
  let perLayer ← s.layout.elemsPerTokenPerLayer
  let rows ← residency.rowsPerLayer s.kvLayers tokens
  pure ((s.rowBytes perLayer rows).foldl satAdd 0)

/-- What has to be admitted: the most that rests, and the one layer that is still being prefilled. -/
def peakKvBytesForTokens (tokens : UInt64) : Tracked UInt64 := do
  let perLayer ← s.layout.elemsPerTokenPerLayer
  let full := s.elem.bytesFor (satMul perLayer tokens)
  let rows ← residency.ceilingRowsPerLayer s.kvLayers tokens
  let resting := (s.rowBytes perLayer rows).foldl satAdd 0
  let transient := ((s.rowBytes perLayer rows).map fun bytes => satSub full bytes).foldl maxU64 0
  pure (satAdd resting transient)

end KvShape

inductive Ceiling
  | contextLength
  | deviceMemory
  deriving DecidableEq

structure KvBudgetError where

  binding : Ceiling
  estimatedBytes : UInt64
  limitBytes : UInt64
  detail : String

structure KvBudget where

  weightsBytes : UInt64
  activationHeadroomBytes : UInt64
  deviceBudgetBytes : UInt64
  shape : KvShape
  residency : KvResidency
  concurrentRequests : UInt64

inductive ContextCap
  | modelContextLength
  | deviceBudget
  deriving DecidableEq

/-- An answer, with every term that went into it. -/
structure ContextFit where

  tokens : UInt64
  cap : UInt64
  granularity : UInt64
  cappedBy : ContextCap
  kvAvailableBytes : UInt64
  perTokenKvBytes : UInt64
  concurrentRequests : UInt64
  kvBytes : UInt64
  evictingLayers : ℕ
  weightsBytes : UInt64
  activationHeadroomBytes : UInt64
  deviceBudgetBytes : UInt64

namespace KvBudget

variable (b : KvBudget)

/-- What is left for KV beside the weights and the headroom. -/
def kvBytesAvailable : UInt64 :=
  satSub (satSub b.deviceBudgetBytes b.weightsBytes) b.activationHeadroomBytes

/-- The KV bytes of all requests at `tokens` tokens, when they cost most. -/
def kvBytesAt (tokens : UInt64) : Tracked UInt64 := do
  let peak ← b.shape.peakKvBytesForTokens b.residency tokens
  pure (satMul peak (maxU64 b.concurrentRequests 1))

def estimatedBytes (tokens : UInt64) : Tracked UInt64 := do
  let kv ← b.kvBytesAt tokens
  let fixed ← addU64 b.weightsBytes b.activationHeadroomBytes
  addU64 fixed kv

def detail (tokens kv : UInt64) : String :=
  s!"{b.weightsBytes} weight bytes + {kv} KV bytes at {tokens} tokens x{maxU64 b.concurrentRequests 1} concurrent + {b.activationHeadroomBytes} activation headroom exceeds the {b.deviceBudgetBytes} byte device budget"

/-- Whether `tokens` tokens fit, with the estimate. -/
def check (tokens : UInt64) : Tracked (Except KvBudgetError UInt64) := do
  let estimated ← b.estimatedBytes tokens
  let kv ← b.kvBytesAt tokens
  if estimated.toNat ≤ b.deviceBudgetBytes.toNat then pure (.ok estimated)
  else
    pure (.error ⟨.deviceMemory, estimated, b.deviceBudgetBytes, b.detail tokens kv⟩)

/-- Halves the range between a context that fits and one that does not. -/
def bisect (available : UInt64) : ℕ → UInt64 → UInt64 → UInt64
  | 0, lo, _ => lo
  | fuel + 1, lo, hi =>
      if (hi - lo).toNat ≤ 1 then lo
      else
        let mid := lo + (hi - lo) / 2
        if (b.kvBytesAt mid).value.toNat ≤ available.toNat then bisect available fuel mid hi
        else bisect available fuel lo mid

def largestFittingContext (cap available : UInt64) : UInt64 :=
  if (b.kvBytesAt cap).value.toNat ≤ available.toNat then cap
  else b.bisect available cap.toNat 0 cap

/-- The answer before it is floored. -/
def rawContext (cap : UInt64) : UInt64 :=
  if b.kvBytesAvailable = 0 then 0 else b.largestFittingContext cap b.kvBytesAvailable

/-- The answer, floored to a multiple of `granularity` unless that leaves nothing. -/
def fitTokens (cap granularity : UInt64) : UInt64 × ContextCap :=
  if b.kvBytesAvailable = 0 then (0, .deviceBudget)
  else
    let raw := b.rawContext cap
    if cap.toNat ≤ raw.toNat then (cap, .modelContextLength)
    else
      let floored := if granularity.toNat ≤ raw.toNat then raw / granularity * granularity else raw
      if cap.toNat ≤ floored.toNat then (cap, .modelContextLength) else (floored, .deviceBudget)

def maxContext (cap granularity : UInt64) : ContextFit :=
  let granularity := maxU64 granularity 1
  let fit := b.fitTokens cap granularity
  { tokens := fit.1
    cap := cap
    granularity := granularity
    cappedBy := fit.2
    kvAvailableBytes := b.kvBytesAvailable
    perTokenKvBytes := b.shape.perTokenKvBytes.value
    concurrentRequests := maxU64 b.concurrentRequests 1
    kvBytes := (b.kvBytesAt fit.1).value
    evictingLayers := b.residency.evictingLayers
    weightsBytes := b.weightsBytes
    activationHeadroomBytes := b.activationHeadroomBytes
    deviceBudgetBytes := b.deviceBudgetBytes }

end KvBudget

end Frink.Context
