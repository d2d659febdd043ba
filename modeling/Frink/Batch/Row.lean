import Frink.Decode.Stream

/-! # One request through the batcher

A job waits, a prefill runs its prompt in chunks, a slot decodes. Preemption turns a slot back into
a job; only its cache, position and logits are thrown away.
-/

/-! ## What one batched request has produced

The part of a row that cannot be recomputed from its tokens, as one value. It is carried whole
through a preemption, and it is what the caller is replied to with.
-/

namespace Frink.Batch
open Decode

variable {S L P E : Type}

/-- The batcher's own refusals, and the sampler's. -/
inductive RowError (E : Type) where
  | tokenOutOfVocab (token vocabSize : ℕ)
  | kvPoolExhausted
  | constraint (e : E)

structure Usage where
  promptTokens : ℕ
  completionTokens : ℕ

abbrev JobResult (E : Type) := Except (RowError E) (FinishReason × List ℕ × Text × Usage)

/-- From the worker to the caller: text as it becomes visible, and one end. -/
inductive BatcherEvent (E : Type) where
  | chunk (text : Text)
  | finished (result : JobResult E)

def BatcherEvent.isFinished : BatcherEvent E → Bool
  | chunk _ => false
  | finished _ => true

def sendChunk (text : Text) : List (BatcherEvent E) := if text.isEmpty then [] else [.chunk text]

structure Answer (S : Type) where
  sample : S
  generatedIds : List ℕ
  visible : Text
  stops : StopMatcher
  utf8 : Utf8Stream
  promptTokens : ℕ
  preemptions : ℕ

namespace Answer

/-- A request that has produced nothing yet. -/
def fresh (request : StepContext S L P E) (promptTokens : ℕ) : Answer S where
  sample := request.newState request.params.seed
  generatedIds := []
  visible := []
  stops := .new request.params.stop request.params.stopTokenIds
  utf8 := {}
  promptTokens := promptTokens
  preemptions := 0

variable (a : Answer S)

/-- What is withheld at the end. The text that the last push lets go is not sent. -/
def tail : Text :=
  let partial_ := a.utf8.flush.1
  let stops := if partial_.isEmpty then a.stops else (a.stops.push partial_).2
  stops.flush.1

/-- The one exit of every admitted request. -/
def reply (finish : FinishReason) (error : Option (RowError E)) : List (BatcherEvent E) :=
  match error with
  | some e => [.finished (.error e)]
  | none =>
      sendChunk a.tail ++ [.finished (.ok (finish, a.generatedIds, a.visible ++ a.tail,
        ⟨a.promptTokens, a.generatedIds.length⟩))]

/-- A piece through the stop matcher: what becomes visible, and whether a stop matched. -/
def applyStopBuffer (piece : Text) : Option FinishReason × Answer S × List (BatcherEvent E) :=
  let step := a.stops.push piece
  let a := { a with stops := step.2, visible := a.visible ++ step.1.text }
  match step.1 with
  | .emit text => (none, a, sendChunk text)
  | .matched text stop => (some (.stopSequence stop), a, sendChunk text)

end Answer

end Frink.Batch

namespace Frink.Batch
open Decode

variable {S L P E : Type}

/-- A decoder whose logits are a function of the tokens it has run. -/
structure Decoder (L : Type) where
  logits : List ℕ → L
  noLogits : L
  vocabSize : ℕ
  vocab_pos : 0 < vocabSize

/-- A job; `request` holds its parameters, its stop tokens and the sampler under them. `answer` is
there when the job was preempted. -/
structure Job (S L P E : Type) where
  promptTokens : List ℕ
  request : StepContext S L P E
  abort : ℕ
  blocks : ℕ
  skips : ℕ
  waited : ℕ
  answer : Option (Answer S)

/-- The tokens whose rows were written. -/
@[ext]
structure RowKv where
  tokens : List ℕ
  slides : Bool

namespace RowKv

variable (kv : RowKv)

def positionsWritten : ℕ := kv.tokens.length

/-- A forward pass writes at the end, whatever position it is given. -/
def push (tokens : List ℕ) : RowKv := { kv with tokens := kv.tokens ++ tokens }

end RowKv

/-- Page groups for a run of tokens. An adopted prefix leaves a token to run. -/
structure Lease (run : List ℕ) where
  adopted : ℕ
  slides : Bool
  adopted_le : adopted ≤ run.length - 1

/-- The paged store's answer to a run and the longest sequence it may become. -/
abbrev PagedStore := (run : List ℕ) → ℕ → Option (Lease run)

structure PrefillState (L : Type) where
  kv : RowKv
  tokens : List ℕ
  tokensProcessed : ℕ
  logits : L
  chunkSize : ℕ

namespace PrefillState

def overRun (decoder : Decoder L) (kv : RowKv) (run : List ℕ) (chunkSize : ℕ) : PrefillState L where
  kv := kv
  tokens := if run.isEmpty then [0] else run
  tokensProcessed := kv.positionsWritten
  logits := decoder.noLogits
  chunkSize := chunkSize

variable (s : PrefillState L)

def isDone : Bool := s.tokens.length - s.tokensProcessed == 0

/-- At most `budget` further tokens of the prompt. -/
def stepChunk (decoder : Decoder L) (budget : ℕ) : PrefillState L :=
  let stop := min (s.tokensProcessed + budget) s.tokens.length
  if stop ≤ s.tokensProcessed then s
  else
    let kv := s.kv.push ((s.tokens.take stop).drop s.tokensProcessed)
    { s with kv, logits := decoder.logits kv.tokens, tokensProcessed := stop }

end PrefillState

structure Prefill (S L P E : Type) where
  state : PrefillState L
  request : StepContext S L P E
  abort : ℕ
  blocks : ℕ
  answer : Answer S

@[ext]
structure Slot (S L P E : Type) where
  kv : RowKv
  pos : ℕ
  logits : L
  answer : Answer S
  promptIds : List ℕ
  maxTokens : ℕ
  request : StepContext S L P E
  finish : Option FinishReason
  error : Option (RowError E)
  abort : ℕ
  blocks : ℕ

/-- The handover to decode; a resumed prefill gives back the prompt without what was generated. -/
def Prefill.intoSlot (p : Prefill S L P E) : Slot S L P E where
  kv := p.state.kv
  pos := p.state.tokensProcessed
  logits := p.state.logits
  answer := p.answer
  promptIds := p.state.tokens.take (p.state.tokens.length - p.answer.generatedIds.length)
  maxTokens := p.request.params.maxTokens
  request := p.request
  finish := none
  error := none
  abort := p.abort
  blocks := p.blocks

inductive Accepted (S L P E : Type) where
  | prefill (p : Prefill S L P E)
  | refused (error : RowError E)
  | requeue (job : Job S L P E)

/-- What its prefill runs. -/
def Job.run (job : Job S L P E) : List ℕ :=
  job.promptTokens ++ (job.answer.map (·.generatedIds)).getD []

/-- The prefill of a job whose cache is `kv`. -/
def Job.intoPrefill (job : Job S L P E) (decoder : Decoder L) (chunkSize : ℕ) (kv : RowKv) :
    Prefill S L P E where
  state := .overRun decoder kv job.run chunkSize
  request := job.request
  abort := job.abort
  blocks := job.blocks
  answer := job.answer.getD (.fresh job.request job.promptTokens.length)

/-- Validates a job and asks the store for it. A resumed job runs its prompt and what it had
generated; one that the store cannot seat goes back to the queue. -/
def accept (decoder : Decoder L) (job : Job S L P E) (chunkSize : ℕ) (paged : Option PagedStore) :
    Accepted S L P E :=
  match job.promptTokens.find? fun t => decoder.vocabSize ≤ t with
  | some bad => .refused (.tokenOutOfVocab bad decoder.vocabSize)
  | none =>
      let reportedPrompt := (job.answer.map (·.promptTokens)).getD job.promptTokens.length
      match paged with
      | none => .prefill (job.intoPrefill decoder chunkSize ⟨[], false⟩)
      | some store =>
          match store job.run (reportedPrompt + job.request.params.maxTokens) with
          | some lease =>
              .prefill (job.intoPrefill decoder chunkSize ⟨job.run.take lease.adopted, lease.slides⟩)
          | none =>
              match job.answer with
              | some _ => .requeue { job with skips := 0, waited := 0 }
              | none => .refused .kvPoolExhausted

/-- What accepting can do. -/
theorem accept_spec (decoder : Decoder L) (job : Job S L P E) (chunkSize : ℕ)
    (paged : Option PagedStore) :
    (∃ k slides, k ≤ job.run.length - 1 ∧ (∀ t ∈ job.promptTokens, t < decoder.vocabSize) ∧
        accept decoder job chunkSize paged =
          .prefill (job.intoPrefill decoder chunkSize ⟨job.run.take k, slides⟩)) ∨
      (∃ e, accept decoder job chunkSize paged = .refused e ∧ (∀ c, e ≠ .constraint c) ∧
        (job.answer = none ∨ ∃ t ∈ job.promptTokens, decoder.vocabSize ≤ t)) ∨
      (job.answer ≠ none ∧
        accept decoder job chunkSize paged = .requeue { job with skips := 0, waited := 0 }) := by
  rw [accept]
  cases hbad : job.promptTokens.find? fun t => decoder.vocabSize ≤ t with
  | some bad =>
    refine Or.inr (Or.inl ⟨_, rfl, fun _ he => (nomatch he), Or.inr ⟨bad, ?_, ?_⟩⟩)
    · exact List.mem_of_find?_eq_some hbad
    · simpa using List.find?_some hbad
  | none =>
    have hvalid : ∀ t ∈ job.promptTokens, t < decoder.vocabSize := by
      simpa using List.find?_eq_none.mp hbad
    cases paged with
    | none => exact Or.inl ⟨0, false, Nat.zero_le _, hvalid, rfl⟩
    | some store =>
      dsimp only
      cases hs : store job.run ((job.answer.map (·.promptTokens)).getD job.promptTokens.length +
        job.request.params.maxTokens) with
      | some lease => exact Or.inl ⟨lease.adopted, lease.slides, lease.adopted_le, hvalid, rfl⟩
      | none =>
        cases ha : job.answer with
        | none => exact Or.inr (Or.inl ⟨_, rfl, fun _ he => (nomatch he), Or.inl rfl⟩)
        | some a => exact Or.inr (Or.inr ⟨Option.some_ne_none a, rfl⟩)

/-- How many times one request may be preempted. -/
def MAX_PREEMPTIONS : ℕ := 4

namespace Slot

variable (s : Slot S L P E)

def fail (error : RowError E) : Slot S L P E := { s with finish := some .stop, error := some error }

/-- What a row leaves to the queue. -/
def intoJob : Job S L P E where
  promptTokens := s.promptIds
  request := s.request
  abort := s.abort
  blocks := s.blocks
  skips := 0
  waited := 0
  answer := some s.answer

def preemptible : Bool :=
  s.finish.isNone && s.error.isNone && s.answer.preemptions < MAX_PREEMPTIONS && !s.kv.slides

/-- The job that continues an evicted row. -/
def preempt : Job S L P E :=
  { s.intoJob with answer := some { s.answer with preemptions := s.answer.preemptions + 1 } }

def isReady : Bool := s.finish.isNone && s.answer.generatedIds.length < s.maxTokens

/-- The stop rules and the text of a token that was drawn; a row that goes on keeps `finish`
empty. -/
def commit (next : ℕ) : Slot S L P E × List (BatcherEvent E) :=
  if !s.request.params.ignoreEos && s.request.stopTokens.contains next ||
      s.answer.stops.isStopToken next then
    ({ s with finish := some .stop }, [])
  else
    let piece := s.answer.utf8.push (s.request.decodeOne [next])
    let answer := { s.answer with
      generatedIds := s.answer.generatedIds ++ [next]
      utf8 := piece.2 }
    if piece.1.isEmpty then ({ s with answer }, [])
    else
      let step : _ × _ × List (BatcherEvent E) := answer.applyStopBuffer piece.1
      ({ s with answer := step.2.1, finish := step.1 }, step.2.2)

/-- Draws one token for this row. -/
def sample : Slot S L P E × List (BatcherEvent E) :=
  match s.request.sampleNext s.answer.sample s.logits s.promptIds s.answer.generatedIds with
  | .error e => (s.fail (.constraint e), [])
  | .ok (.grammarComplete, state) =>
      ({ s with answer := { s.answer with sample := state }, finish := some .stop }, [])
  | .ok (.token next _, state) =>
      ({ s with answer := { s.answer with sample := state } } : Slot S L P E).commit next

/-- Feeds the last token of a row that stayed active, and ends it at its budget. -/
def forward (decoder : Decoder L) : Slot S L P E :=
  let kv := s.kv.push s.answer.generatedIds.getLast?.toList
  { s with
    kv, logits := decoder.logits kv.tokens, pos := s.pos + 1
    finish := if s.maxTokens ≤ s.answer.generatedIds.length then some .length else s.finish }

/-- One decode step of the batch, as this row sees it. -/
def decodeStep (decoder : Decoder L) : Slot S L P E × List (BatcherEvent E) :=
  if s.isReady then
    let drawn := s.sample
    if drawn.1.finish.isNone then (drawn.1.forward decoder, drawn.2) else drawn
  else (s, [])

/-- What the caller is sent when a finished row leaves. -/
def replyFinished (finish : FinishReason) : List (BatcherEvent E) := s.answer.reply finish s.error

end Slot

end Frink.Batch
