import Frink.Decode.SampleStep

/-! # One completion, a token at a time

The decode state of the private loop as a value. A step draws, commits under the stop rules and
feeds the token forward; `emitted` records what went to the client, call by call.
-/

namespace Frink.Decode
open Codec

inductive FinishReason where
  | stop
  | stopSequence (stop : Text)
  | length
  | cancelled
  deriving DecidableEq

structure GenerationParams where
  seed : ℕ
  maxTokens : ℕ
  stop : List Text
  stopTokenIds : List ℕ
  ignoreEos : Bool
  keepSpecialTokens : Bool
  isCancelled : Bool

/-- What every step reads and none changes; `sampleNext` is the sampler under the parameters. -/
structure StepContext (S L P E : Type) where
  params : GenerationParams
  promptIds : List ℕ
  stopTokens : List ℕ
  decodeOne : List ℕ → List UInt8
  newState : ℕ → S
  sampleNext : S → L → List ℕ → List ℕ → Except E (Step P × S)

structure ChoiceStream (S L P : Type) where
  matcher : StopMatcher
  utf8 : Utf8Stream
  state : S
  generatedIds : List ℕ
  finish : FinishReason
  perTokenProbs : List (ℕ × P)
  logits : L
  pos : ℕ
  done : Bool
  emitted : List Text

inductive Committed where
  | continue
  | stopped (reason : FinishReason)
  deriving DecidableEq

variable {S L P E : Type}

namespace ChoiceStream

def new (ctx : StepContext S L P E) (logits : L) (pos : ℕ) : ChoiceStream S L P where
  matcher := .new ctx.params.stop ctx.params.stopTokenIds
  utf8 := {}
  state := ctx.newState ctx.params.seed
  generatedIds := []
  finish := .length
  perTokenProbs := []
  logits := logits
  pos := pos
  done := false
  emitted := []

variable (c : ChoiceStream S L P) (ctx : StepContext S L P E)

/-- Ends this completion. -/
def stop (reason : FinishReason) : ChoiceStream S L P := { c with finish := reason, done := true }

def emit (text : Text) : ChoiceStream S L P :=
  { c with emitted := if text.isEmpty then c.emitted else c.emitted ++ [text] }

def checkBudget (params : GenerationParams) : Bool × ChoiceStream S L P :=
  if c.done then (false, c)
  else if params.maxTokens ≤ c.generatedIds.length then (false, c.stop .length)
  else if params.isCancelled then (false, c.stop .cancelled)
  else (true, c)

/-- What the matcher makes of a piece of text. -/
def show_ (step : StopStep × StopMatcher) : ChoiceStream S L P :=
  ({ c with matcher := step.2 } : ChoiceStream S L P).emit step.1.text

def committed : StopStep → Committed
  | .emit _ => .continue
  | .matched _ stop => .stopped (.stopSequence stop)

/-- A token's text through the two buffers. -/
def pushText (next : ℕ) : Committed × ChoiceStream S L P :=
  let piece := c.utf8.push (ctx.decodeOne [next])
  let step := c.matcher.push piece.1
  (committed step.1, ({ c with utf8 := piece.2 } : ChoiceStream S L P).show_ step)

/-- The end marker, kept: everything withheld goes out with it. -/
def pushLast (next : ℕ) : ChoiceStream S L P :=
  let piece := c.utf8.push (ctx.decodeOne [next])
  let last := c.matcher.flushWith piece.1
  ({ c with utf8 := piece.2, matcher := last.2 } : ChoiceStream S L P).emit last.1

def record (next : ℕ) : ChoiceStream S L P := { c with generatedIds := c.generatedIds ++ [next] }

/-- The stop rules, the id and the text of a token that was drawn. -/
def commit (next : ℕ) : Committed × ChoiceStream S L P :=
  if !ctx.params.ignoreEos && ctx.stopTokens.contains next then
    (.stopped .stop, if ctx.params.keepSpecialTokens then (c.record next).pushLast ctx next else c)
  else if c.matcher.isStopToken next then (.stopped .stop, c)
  else (c.record next).pushText ctx next

/-- The character left open, as text like any other. -/
def flushUtf8 : ChoiceStream S L P :=
  let tail := c.utf8.flush
  let c : ChoiceStream S L P := { c with utf8 := tail.2 }
  if tail.1.isEmpty then c else c.show_ (c.matcher.push tail.1)

/-- What the matcher and the decoder were still holding. -/
def flush : ChoiceStream S L P :=
  let c := c.flushUtf8
  let tail := c.matcher.flush
  ({ c with matcher := tail.2 } : ChoiceStream S L P).emit tail.1

end ChoiceStream

/-- A decoder whose logits are a function of the tokens in its store. -/
structure Engine (L D : Type) where
  store : List ℕ
  drafter : D

/-- The model, and a drafter with what it does on a proposal and on its outcome. `rollsBack` says
whether the store may be speculated into. -/
structure EngineOps (L D : Type) where
  logits : List ℕ → L
  propose : D → List ℕ → List ℕ × D
  rollsBack : List ℕ → List ℕ → Bool
  observe : D → ℕ → ℕ → D

namespace Engine

variable {D : Type} (ops : EngineOps L D) (e : Engine L D)

/-- Feeds one token at `pos`. -/
def step (token pos : ℕ) : L × Engine L D :=
  let store := e.store.take pos ++ [token]
  (ops.logits store, { e with store })

/-- A drafter's proposal, cut to `max` tokens. -/
def draft (history : List ℕ) (max : ℕ) : List ℕ × Engine L D :=
  let (proposal, drafter) := ops.propose e.drafter history
  (proposal.take max, { e with drafter })

/-- Feeds a block at `pos`; one row of logits for each token. -/
def batch (tokens : List ℕ) (pos : ℕ) : Option (List L × Engine L D) :=
  if ops.rollsBack e.store tokens then
    let front := e.store.take pos
    some ((List.range tokens.length).map fun i => ops.logits (front ++ tokens.take (i + 1)),
      { e with store := front ++ tokens })
  else none

def truncate (pos : ℕ) : Engine L D := { e with store := e.store.take pos }

def observe (accepted drafted : ℕ) : Engine L D :=
  { e with drafter := ops.observe e.drafter accepted drafted }

end Engine

/-- A completion and the store it decodes into. -/
structure Decoding (S L P D : Type) where
  choice : ChoiceStream S L P
  engine : Engine L D

namespace Decoding

variable {D : Type} (ctx : StepContext S L P E) (ops : EngineOps L D) (d : Decoding S L P D)

/-- A token that was kept, fed forward. -/
def feed (id : ℕ) (probs : Option P) : Decoding S L P D :=
  let fed := d.engine.step ops id d.choice.pos
  { choice := { d.choice with
      perTokenProbs := d.choice.perTokenProbs ++ (probs.map (id, ·)).toList
      logits := fed.1
      pos := d.choice.pos + 1 }
    engine := fed.2 }

/-- Commits what was drawn. -/
def take (next : Step P) : Decoding S L P D :=
  match next with
  | .grammarComplete => { d with choice := d.choice.stop .stop }
  | .token id probs =>
      match d.choice.commit ctx id with
      | (.stopped reason, c) => { d with choice := c.stop reason }
      | (.continue, c) => ({ d with choice := c } : Decoding S L P D).feed ops id probs

/-- Draws one token, commits it, and feeds it forward. -/
def step : Except E (Decoding S L P D) := do
  let drawn ← ctx.sampleNext d.choice.state d.choice.logits ctx.promptIds d.choice.generatedIds
  .ok (({ d with choice := { d.choice with state := drawn.2 } } : Decoding S L P D).take ctx ops
    drawn.1)

end Decoding

end Frink.Decode
