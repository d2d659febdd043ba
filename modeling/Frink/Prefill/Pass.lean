import Mathlib

/-! # Prefill passes

Which prompts run in a step, and how much of each: arithmetic over capacities the caller measures.
A new prompt reserves the KV of its remainder and its whole output budget; under a sliding window a
chunk is bounded by the pages the window pool can seat and ends on a page boundary, unless it is
the last one. Every call gives the pass it leaves behind, also when it refuses.
-/

namespace Frink.Prefill

/-- Where a chunked prefill has got to. -/
structure ChunkState where

  computedLen : ℕ
  slot : ℕ
  swaEvictedLen : ℕ
  lockedPrefixLen : ℕ
  deriving DecidableEq

/-- A prompt that waits, or is being prefilled in chunks. -/
structure PendingRequest where

  uid : ℕ
  promptLen : ℕ
  outputLen : ℕ
  chunk : Option ChunkState
  deriving DecidableEq

structure Capacity where

  requestSlots : ℕ
  kvTokens : ℕ
  swaTokens : ℕ
  recurrentSlots : ℕ

structure Geometry where

  pageSize : ℕ
  slidingWindow : Option ℕ
  recurrent : Bool

/-- The live state, and two that the snapshot alternates between. -/
def RECURRENT_SLOTS_PER_REQUEST : ℕ := 3

inductive NotAdmitted
  | noRequestSlot
  | kvBudget
  | windowBudget
  | recurrentBudget
  | noWholePage
  | budgetSpent
  deriving DecidableEq

/-- What a prompt cost, reported once. -/
structure PromptAdmission where

  uid : ℕ
  promptTokens : ℕ
  cachedTokens : ℕ
  deriving DecidableEq

structure AdmittedChunk where

  uid : ℕ
  slot : ℕ
  computedLen : ℕ
  chunkLen : ℕ
  chunked : Bool
  admission : Option PromptAdmission
  deriving DecidableEq

/-- What is left of a pass, and what it has reserved. -/
structure PrefillPass where

  tokenBudget : ℕ
  reservedTokens : ℕ
  reservedSwa : ℕ
  geometry : Geometry

def divCeil (a b : ℕ) : ℕ := (a + b - 1) / b

def alignDown (a b : ℕ) : ℕ := a / b * b

def alignCeil (a b : ℕ) : ℕ := divCeil a b * b

namespace PrefillPass

def new (tokenBudget inflightTokens : ℕ) (geometry : Geometry) : PrefillPass :=
  ⟨tokenBudget, inflightTokens, 0, geometry⟩

variable (pass : PrefillPass)

/-- Whether a prompt can be seated at all. -/
def checkAdmission (request : PendingRequest) (cachedLen : ℕ) (capacity : Capacity) :
    Except NotAdmitted Unit :=
  if capacity.requestSlots = 0 then .error .noRequestSlot
  else
    let extendLen := request.promptLen - cachedLen
    if capacity.kvTokens < extendLen + request.outputLen + pass.reservedTokens then .error .kvBudget
    else if pass.geometry.recurrent ∧ capacity.recurrentSlots < RECURRENT_SLOTS_PER_REQUEST then
      .error .recurrentBudget
    else
      match pass.geometry.slidingWindow with
      | none => .ok ()
      | some window =>
          if capacity.swaTokens - pass.reservedSwa <
              alignCeil (min (max extendLen 1) window + 1) pass.geometry.pageSize then
            .error .windowBudget
          else .ok ()

/-- The tokens a request can free as its window slides past what it has computed. -/
def selfReclaim (request : PendingRequest) (computedLen window : ℕ) : ℕ :=
  let chunk := request.chunk.getD ⟨computedLen, 0, 0, 0⟩
  let newlyEvicted := alignDown (computedLen - (window + pass.geometry.pageSize)) pass.geometry.pageSize
  newlyEvicted - max chunk.swaEvictedLen chunk.lockedPrefixLen

/-- Bounds a chunk by the pages that can be seated, and charges them. -/
def windowBoundedChunk (request : PendingRequest) (computedLen chunkLen window : ℕ)
    (capacity : Capacity) : Except NotAdmitted ℕ × PrefillPass :=
  let page := pass.geometry.pageSize
  let budget := capacity.swaTokens + pass.selfReclaim request computedLen window - pass.reservedSwa
  let maxEnd := (divCeil computedLen page + budget / page) * page
  let bounded := min chunkLen (maxEnd - computedLen)
  let remaining := request.promptLen - computedLen
  let aligned := alignDown (computedLen + bounded) page - computedLen
  let short := 0 < bounded ∧ bounded < remaining
  if short ∧ aligned = 0 then (.error .noWholePage, pass)
  else
    let bounded := if short then aligned else bounded
    (.ok bounded, { pass with reservedSwa := pass.reservedSwa +
      (divCeil (computedLen + bounded) page - divCeil computedLen page) * page })

/-- Where the next chunk of a request starts. -/
def startOf (request : PendingRequest) (cachedLen : ℕ) : ℕ :=
  (request.chunk.map ChunkState.computedLen).getD cachedLen

/-- The length of the next chunk under the window, if there is one. -/
def boundedChunk (request : PendingRequest) (computedLen chunkLen : ℕ) (capacity : Capacity) :
    Except NotAdmitted ℕ × PrefillPass :=
  match pass.geometry.slidingWindow with
  | none => (.ok chunkLen, pass)
  | some window => pass.windowBoundedChunk request computedLen chunkLen window capacity

/-- Sizes the next chunk of a request and charges the pass for it. -/
def takeChunk (request : PendingRequest) (cachedLen slot : ℕ) (capacity : Capacity) :
    Except NotAdmitted AdmittedChunk × PrefillPass :=
  if pass.tokenBudget = 0 then (.error .budgetSpent, pass)
  else
    let computedLen := startOf request cachedLen
    let remaining := request.promptLen - computedLen
    match pass.boundedChunk request computedLen (min pass.tokenBudget remaining) capacity with
    | (.error e, pass) => (.error e, pass)
    | (.ok chunkLen, pass) =>
        if chunkLen = 0 then (.error .noWholePage, pass)
        else
          (.ok ⟨request.uid, slot, computedLen, chunkLen, decide (chunkLen < remaining),
              if request.chunk.isNone then some ⟨request.uid, request.promptLen, cachedLen⟩ else none⟩,
            { pass with
              tokenBudget := pass.tokenBudget - chunkLen
              reservedTokens := pass.reservedTokens +
                if request.chunk.isNone then remaining + request.outputLen else 0 })

end PrefillPass

/-- A chunk, and by how much it raised what the pass has reserved. -/
structure Charge where

  chunk : AdmittedChunk
  window : ℕ
  tokens : ℕ

/-- A prompt, what of it was cached, and the chunks it was given so far. -/
structure Progress where

  request : PendingRequest
  cachedLen : ℕ
  charges : List Charge

/-- The state a request is in behind a chunk; how far its window has slid is the engine's. -/
def PendingRequest.advance (request : PendingRequest) (chunk : AdmittedChunk)
    (swaEvictedLen lockedPrefixLen : ℕ) : PendingRequest :=
  let state := ⟨chunk.computedLen + chunk.chunkLen, chunk.slot, swaEvictedLen, lockedPrefixLen⟩
  { request with chunk := some state }

/-- A pass over some prompts, and what the requests admitted in it could free for themselves. -/
structure System where

  pass : PrefillPass
  capacity : Capacity
  reclaims : List ℕ
  prompts : List Progress

namespace System

variable (s : System)

def beginPass (tokenBudget inflightTokens : ℕ) (capacity : Capacity) : System :=
  { s with
    pass := .new tokenBudget inflightTokens s.pass.geometry
    capacity := capacity
    reclaims := [] }

/-- What the request of a prompt could free for itself now. -/
def reclaim (p : Progress) : ℕ :=
  (s.pass.geometry.slidingWindow.map fun window =>
    s.pass.selfReclaim p.request (PrefillPass.startOf p.request p.cachedLen) window).getD 0

/-- The next chunk of the prompt at `i`; after a refusal the prompts are as they were. -/
def take (i slot swaEvictedLen lockedPrefixLen : ℕ) : System :=
  match s.prompts[i]? with
  | none => s
  | some p =>
      match s.pass.takeChunk p.request p.cachedLen slot s.capacity with
      | (.error _, pass) => { s with pass }
      | (.ok chunk, pass) =>
          { s with
            pass
            reclaims := s.reclaim p :: s.reclaims
            prompts := s.prompts.set i
              { p with
                request := p.request.advance chunk swaEvictedLen lockedPrefixLen
                charges := p.charges ++ [⟨chunk, pass.reservedSwa - s.pass.reservedSwa,
                  pass.reservedTokens - s.pass.reservedTokens⟩] } }

end System

/-- The prompts before the first pass: cached up to a page boundary, and not to the end. -/
def Progress.Fresh (geometry : Geometry) (p : Progress) : Prop :=
  p.request.chunk = none ∧ p.charges = [] ∧ p.cachedLen < p.request.promptLen ∧
    geometry.pageSize ∣ p.cachedLen

/-- The systems passes over some prompts get to, with any budgets and capacities. -/
inductive Reachable (geometry : Geometry) : System → Prop

  | start (tokenBudget inflightTokens : ℕ) (capacity : Capacity) (prompts : List Progress) :
      (∀ p ∈ prompts, p.Fresh geometry) →
      Reachable geometry ⟨.new tokenBudget inflightTokens geometry, capacity, [], prompts⟩

  | beginPass {s : System} (tokenBudget inflightTokens : ℕ) (capacity : Capacity) :
      Reachable geometry s → Reachable geometry (s.beginPass tokenBudget inflightTokens capacity)

  | take {s : System} (i slot swaEvictedLen lockedPrefixLen : ℕ) :
      Reachable geometry s → Reachable geometry (s.take i slot swaEvictedLen lockedPrefixLen)

end Frink.Prefill
