import Frink.Decode.Stream

/-! # Verifying a block of drafts

A round feeds a whole proposal, draws at every position with the one sampler, and keeps the
drafts that equal the draw. What was drawn is committed token by token.
-/

namespace Frink.Decode

variable {S L P E D : Type}

structure VerifiedBlock where
  tokens : List ℕ
  accepted : ℕ
  drafted : ℕ
  grammarComplete : Bool

/-- Draws along the drafts, each given with the row that follows it, up to the first
disagreement. -/
def verifyBlock (ctx : StepContext S L P E) :
    S → L → List ℕ → List (ℕ × L) → Except E (VerifiedBlock × S)
  | state, logits, history, [] => do
      let drawn ← ctx.sampleNext state logits ctx.promptIds history
      match drawn.1 with
      | .grammarComplete => .ok (⟨[], 0, 0, true⟩, drawn.2)
      | .token t _ => .ok (⟨[t], 0, 0, false⟩, drawn.2)
  | state, logits, history, (draft, row) :: drafts => do
      let drawn ← ctx.sampleNext state logits ctx.promptIds history
      match drawn.1 with
      | .grammarComplete => .ok (⟨[], 0, drafts.length + 1, true⟩, drawn.2)
      | .token t _ =>
          if t = draft then do
            let (block, state) ← verifyBlock ctx drawn.2 row (history ++ [t]) drafts
            .ok (⟨t :: block.tokens, block.accepted + 1, block.drafted + 1,
              block.grammarComplete⟩, state)
          else .ok (⟨[t], 0, drafts.length + 1, false⟩, drawn.2)

/-- Commits the tokens in order; a stop keeps the rows of the tokens before it. -/
def commitBlock (ctx : StepContext S L P E) (accepted : ℕ) :
    ℕ → List ℕ → Option ℕ → ChoiceStream S L P →
      Option (FinishReason × ℕ) × Option ℕ × ChoiceStream S L P
  | _, [], last, c => (none, last, c)
  | i, t :: tokens, last, c =>
      match c.commit ctx t with
      | (.continue, c) => commitBlock ctx accepted (i + 1) tokens (some t) c
      | (.stopped reason, c) => (some (reason, c.pos - accepted + min i accepted), last, c)

namespace Decoding

variable (ctx : StepContext S L P E) (ops : EngineOps L D) (draftMax : ℕ) (d : Decoding S L P D)

/-- The end of a round: rejected rows are dropped, the block is committed, and only the last
token kept still needs feeding. -/
def settle (draft : List ℕ) (engine : Engine L D) (block : VerifiedBlock) (state : S) :
    Decoding S L P D :=
  let engine := engine.observe ops block.accepted block.drafted
  let engine := if block.accepted < draft.length then
      engine.truncate (d.choice.pos + block.accepted) else engine
  match commitBlock ctx block.accepted 0 block.tokens none
    { d.choice with state, pos := d.choice.pos + block.accepted } with
  | (some (reason, kept), _, c) =>
      { choice := ({ c with pos := kept } : ChoiceStream S L P).stop reason
        engine := engine.truncate kept }
  | (none, last, c) =>
      if block.grammarComplete then { choice := c.stop .stop, engine }
      else
        match last with
        | none => { choice := c, engine }
        | some t =>
            let fed := engine.step ops t c.pos
            { choice := { c with logits := fed.1, pos := c.pos + 1 }, engine := fed.2 }

/-- One speculative round; `false` when there was nothing to draft. -/
def speculate : Except E (Bool × Decoding S L P D) :=
  let room := ctx.params.maxTokens - d.choice.generatedIds.length - 1
  if room = 0 then .ok (false, d)
  else
    let drafted := d.engine.draft ops d.choice.generatedIds (min draftMax room)
    if drafted.1.isEmpty then .ok (false, { d with engine := drafted.2 })
    else
      match drafted.2.batch ops drafted.1 d.choice.pos with
      | none => .ok (false, { d with engine := drafted.2 })
      | some (rows, engine) => do
          let verified ← verifyBlock ctx d.choice.state d.choice.logits d.choice.generatedIds
            (drafted.1.zip rows)
          .ok (true, d.settle ctx ops drafted.1 engine verified.1 verified.2)

def round : Except E (Decoding S L P D) :=
  if 0 < draftMax then do
    let (took, d) ← d.speculate ctx ops draftMax
    if took then .ok d else d.step ctx ops
  else d.step ctx ops

/-- The loop after at most `n` rounds. -/
def rounds : ℕ → Decoding S L P D → Except E (Decoding S L P D)
  | 0, d => .ok d
  | n + 1, d =>
      match d.choice.checkBudget ctx.params with
      | (true, c) => do
          let d ← ({ d with choice := c } : Decoding S L P D).round ctx ops draftMax
          rounds n d
      | (false, c) => .ok { d with choice := c }

/-- Why the completion ended, its ids and the text that was emitted. -/
def answer : FinishReason × List ℕ × Text :=
  (d.choice.finish, d.choice.generatedIds, d.choice.emitted.flatten)

/-- The whole loop. Every round commits a token or ends the completion. -/
def sampleUntilStop : Except E (Decoding S L P D) := do
  let d ← rounds ctx ops draftMax (ctx.params.maxTokens + 1) d
  .ok { d with choice := d.choice.flush }

end Decoding

end Frink.Decode
