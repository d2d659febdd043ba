import Frink.Decode.Text
import Frink.Grammar.Sampler

/-! # One token under every constraint

The masks before the draw and the machines after it. What the sampler computes with floats, its
penalties before the mask and the draw after it, is a parameter.
-/

namespace Frink.Decode
open Codec Gbnf

/-- Reports the longest of `seqs` that ends at the token just fed. -/
structure SeqMatcher where
  seqs : List (List ℕ)
  window : List ℕ
  longest : ℕ

namespace SeqMatcher

def new (seqs : List (List ℕ)) : SeqMatcher :=
  let kept := seqs.foldl (fun kept seq =>
    if seq.isEmpty || kept.contains seq then kept else kept ++ [seq]) []
  ⟨kept, [], (kept.map List.length).foldr max 0⟩

def reset (m : SeqMatcher) : SeqMatcher := { m with window := [] }

/-- Whether a sequence ends here, and the matcher after the token. -/
def advance (m : SeqMatcher) (token : ℕ) : Bool × SeqMatcher :=
  if m.longest = 0 then (false, m)
  else
    let window := (if m.window.length = m.longest then m.window.drop 1 else m.window) ++ [token]
    let hit := m.seqs.any fun seq => seq.isSuffixOf window
    (hit, { m with window := if hit then [] else window })

end SeqMatcher

/-- A piece decoded lossily ends in the replacement character when its last character is open. -/
def lossyPieceIsComplete (piece : Text) : Bool := piece.getLast? != some REPLACEMENT

inductive BudgetState where
  | idle | counting | waitingUtf8 | forcing | done
  deriving DecidableEq

structure ReasoningBudgetPlan where
  startSeqs : List (List ℕ)
  endSeqs : List (List ℕ)
  forced : List ℕ
  budget : ℕ
  prefill : List ℕ

structure BudgetMachine where
  start : SeqMatcher
  stop : SeqMatcher
  forced : List ℕ
  budget : ℕ
  remaining : ℕ
  state : BudgetState
  forcePos : ℕ

namespace BudgetMachine

variable (b : BudgetMachine)

def arm : BudgetMachine :=
  { b with
    state := if b.budget = 0 then .forcing else .counting
    remaining := b.budget
    stop := b.stop.reset
    forcePos := if b.budget = 0 then 0 else b.forcePos }

def force : BudgetMachine := { b with state := .forcing, forcePos := 0, stop := b.stop.reset }

def accept (token : ℕ) (pieceComplete : Bool) : BudgetMachine :=
  match b.state with
  | .idle | .done =>
      let (hit, start) := b.start.advance token
      let b := { b with start }
      if hit then b.arm else b
  | .counting =>
      let (hit, stop) := b.stop.advance token
      let b := { b with stop }
      if hit then { b with state := .done }
      else
        let b := { b with remaining := b.remaining - 1 }
        if b.remaining = 0 then
          if pieceComplete then b.force else { b with state := .waitingUtf8, stop := b.stop.reset }
        else b
  | .waitingUtf8 =>
      let (hit, stop) := b.stop.advance token
      let b := { b with stop }
      if hit then { b with state := .done } else if pieceComplete then b.force else b
  | .forcing =>
      let (_, stop) := b.stop.advance token
      let forcePos := if b.forced[b.forcePos]? = some token then b.forcePos + 1 else 0
      { b with stop, forcePos, state := if b.forced.length ≤ forcePos then .done else .forcing }

def new (plan : ReasoningBudgetPlan) : BudgetMachine :=
  plan.prefill.foldl (fun b token => b.accept token true)
    ⟨.new plan.startSeqs, .new plan.endSeqs, plan.forced, plan.budget, plan.budget, .idle, 0⟩

def forcedToken : Option ℕ :=
  match b.state with
  | .forcing => b.forced[b.forcePos]?
  | _ => none

end BudgetMachine

inductive ReasoningBudget where
  | unrestricted
  | requested (n : ℕ)
  | armed (plan : ReasoningBudgetPlan)

structure TokenMask where
  allowed : Option (List ℕ)
  badWords : List (List ℕ)
  pending : List String

def TokenMask.isEmpty (m : TokenMask) : Bool :=
  m.allowed.isNone && m.badWords.isEmpty && m.pending.isEmpty

def jsonSafeChar (c : Char) : Bool :=
  ['{', '}', '[', ']', '"', ':', ',', '.', '-', '+', ' ', '\t', '\n', '\r', '\\', '/', '_'].contains c
    || c.isDigit || c.isAlpha

def pieceIsJsonSafe (piece : Text) : Bool := piece.all jsonSafeChar

/-- The part of a request that only the sampler reads; `Q` is its chain's own settings. -/
structure SamplingRequest (Q K : Type) where
  sampling : Q
  wantsLogprobs : Bool
  jsonObject : Bool
  logitBias : List (ℕ × K)
  tokenMask : TokenMask
  grammar : Option Grammar
  reasoningBudget : ReasoningBudget

/-- What the sampler computes with floats. `draw` is told whether it is given the masked scores or
the raw logits. -/
structure SamplerChain (A Q K P : Type) where
  new : ℕ → A
  greedyEqualsRawArgmax : Q → Bool
  penalize : Q → List (WithBot K) → List ℕ → List ℕ → List (WithBot K)
  draw : A → Q → List (WithBot K) → List ℕ → List ℕ → Bool → (ℕ × Option P) × A

structure SampleState (A : Type) where
  sampler : A
  grammar : Option GrammarSampler
  budget : Option BudgetMachine

inductive Step (P : Type) where
  | token (id : ℕ) (probs : Option P)
  | grammarComplete

/-- `unfinished` stands for a grammar step whose fuel ran out; the source has no such error. -/
inductive DecodeError where
  | unsupported (word : String)
  | reasoningBudget (n : ℕ)
  | grammarConstraint (e : ConstraintError)
  | unfinished

section Mask

variable {Q K : Type} [DecidableEq K] [Add K]

def TokenMask.mask (m : TokenMask) (history : List ℕ) (scores : List (WithBot K)) :
    List (WithBot K) :=
  let scores := match m.allowed with
    | none => scores
    | some allowed => scores.mapIdx fun id score => if allowed.contains id then score else ⊥
  m.badWords.foldl (fun scores word =>
    match word.getLast? with
    | none => scores
    | some last => if word.dropLast.isSuffixOf history then scores.set last ⊥ else scores) scores

def BudgetMachine.mask (b : BudgetMachine) (scores : List (WithBot K)) : List (WithBot K) :=
  match b.forcedToken with
  | none => scores
  | some forced => scores.mapIdx fun id score => if id = forced then score else ⊥

namespace SamplingRequest

variable (req : SamplingRequest Q K)

def needsVocabLogits {A P : Type} (chain : SamplerChain A Q K P) : Bool :=
  req.jsonObject || !req.logitBias.isEmpty || !req.tokenMask.isEmpty || req.grammar.isSome ||
    (match req.reasoningBudget with | .unrestricted => false | _ => true) ||
    !chain.greedyEqualsRawArgmax req.sampling

/-- Every mask but the grammar's. -/
def maskScores (decodeToken : ℕ → Text) (budget : Option BudgetMachine) (history : List ℕ)
    (scores : List (WithBot K)) : List (WithBot K) :=
  let scores := req.logitBias.foldl (fun scores (id, bias) =>
    scores.modify id (WithBot.map (· + bias))) scores
  let scores := match budget with | none => scores | some b => b.mask scores
  let scores := if req.jsonObject then
      scores.mapIdx fun id score => if pieceIsJsonSafe (decodeToken id) then score else ⊥
    else scores
  req.tokenMask.mask history scores

end SamplingRequest

end Mask

section SampleNext

variable {A Q K P : Type} [DecidableEq K] [Add K]

/-- Everything `sample_next` is given that a decode loop does not change. -/
structure SampleContext (A Q K P : Type) where
  chain : SamplerChain A Q K P
  req : SamplingRequest Q K
  stopTokens : List ℕ
  decodeToken : ℕ → Text
  fuel : ℕ

namespace SampleContext

variable (C : SampleContext A Q K P)

def newState (seed : ℕ) : SampleState A := ⟨C.chain.new seed, none, none⟩

/-- The grammar parse and the budget machine, built on the first constrained step. -/
def start (st : SampleState A) (nVocab : ℕ) : Except DecodeError (SampleState A) :=
  let grammar := match st.grammar, C.req.grammar with
    | none, some g => some (GrammarSampler.new g nVocab
        (fun id => utf8 (String.ofList (C.decodeToken id))) fun id => C.stopTokens.contains id)
    | grammar, _ => grammar
  match C.req.tokenMask.pending with
  | word :: _ => .error (.unsupported word)
  | [] =>
      match st.budget, C.req.reasoningBudget with
      | none, .requested n => .error (.reasoningBudget n)
      | none, .armed plan => .ok { st with grammar, budget := some (.new plan) }
      | _, _ => .ok { st with grammar }

/-- The grammar's mask, after all the others. -/
def grammarMask (grammar : Option GrammarSampler) (scores : List (WithBot K)) :
    Except DecodeError (MaskOutcome × List (WithBot K)) :=
  match grammar with
  | none => .ok (.allowed, scores)
  | some g =>
      match g.maskLogits scores C.fuel with
      | none => .error .unfinished
      | some (.error e, _) => .error (.grammarConstraint e)
      | some (.ok outcome, scores) => .ok (outcome, scores)

/-- The machines over the token drawn. -/
def acceptToken (st : SampleState A) (next : ℕ) : Except DecodeError (SampleState A) :=
  let budget := st.budget.map fun b => b.accept next (lossyPieceIsComplete (C.decodeToken next))
  match st.grammar with
  | none => .ok { st with budget }
  | some g =>
      match g.accept next C.fuel with
      | none => .error .unfinished
      | some (.error e, _) => .error (.grammarConstraint e)
      | some (.ok (), g) => .ok { st with grammar := some g, budget }

def sampleNext (st : SampleState A) (logits : List (WithBot K)) (prompt history : List ℕ) :
    Except DecodeError (Step P × SampleState A) :=
  let report := fun probs => if C.req.wantsLogprobs then probs else none
  if !C.req.needsVocabLogits C.chain then
    let ((id, probs), sampler) :=
      C.chain.draw st.sampler C.req.sampling logits prompt history false
    .ok (.token id (report probs), { st with sampler })
  else do
    let st ← C.start st logits.length
    let scores := C.chain.penalize C.req.sampling logits prompt history
    let scores := C.req.maskScores C.decodeToken st.budget history scores
    let (outcome, scores) ← C.grammarMask st.grammar scores
    let ((id, probs), sampler) :=
      C.chain.draw st.sampler C.req.sampling scores prompt history true
    let st := { st with sampler }
    match outcome with
    | .complete => .ok (.grammarComplete, st)
    | .allowed => do
        let st ← C.acceptToken st id
        .ok (.token id (report probs), st)

end SampleContext

end SampleNext

end Frink.Decode
