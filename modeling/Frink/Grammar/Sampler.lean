import Mathlib
import Frink.Grammar.Agreement

/-! # A grammar over a vocabulary

The sampler hook: forbidden logits are masked before a token is sampled, and the
sampled token is accepted after. A score of `⊥` stands for minus infinity.
-/

namespace Frink.Gbnf

open Exec Worklist Relation

inductive ConstraintError where
  | vocabMismatch (got expected : ℕ)
  | noAllowedToken (accepted : ℕ)
  | tokenOutOfVocab (token vocabSize : ℕ)
  | grammar (e : GrammarError)
  deriving DecidableEq, Repr

inductive MaskOutcome where
  | allowed
  | complete
  deriving DecidableEq, Repr

/-- A grammar applied to one generation; one end-of-generation flag for each piece. -/
structure GrammarSampler where
  grammar : Grammar
  pieces : List (List UInt8)
  eog : List Bool
  accepted : ℕ
  eog_length : eog.length = pieces.length

namespace GrammarSampler

def new (g : Grammar) (nVocab : ℕ) (pieceOf : ℕ → List UInt8) (isEog : ℕ → Bool) :
    GrammarSampler where
  grammar := g
  pieces := (List.range nVocab).map pieceOf
  eog := (List.range nVocab).map isEog
  accepted := 0
  eog_length := by simp

def vocabSize (S : GrammarSampler) : ℕ := S.pieces.length

def allowsEog (S : GrammarSampler) : Bool := S.grammar.allowsEog

variable {K : Type} [DecidableEq K]

/-- What the pass over the vocabulary decides without asking the grammar. -/
structure VocabPass (K : Type) where
  logits : List (WithBot K)
  candidates : List Candidate
  allowedEog : ℕ

def VocabPass.cons (l : WithBot K) (pass : VocabPass K) : VocabPass K :=
  { pass with logits := l :: pass.logits }

/-- The loop over the vocabulary, from token `id` on. -/
def vocabPass (allowEog : Bool) :
    ℕ → List (List UInt8) → List Bool → List (WithBot K) → VocabPass K
  | id, piece :: pieces, eog :: eogs, l :: logits =>
      let pass := vocabPass allowEog (id + 1) pieces eogs logits
      if l = ⊥ then pass.cons l
      else if eog then
        if allowEog then { pass.cons l with allowedEog := pass.allowedEog + 1 } else pass.cons ⊥
      else if piece.isEmpty || piece.head? == some 0 then pass.cons ⊥
      else { pass.cons l with candidates := ⟨id, id, piece⟩ :: pass.candidates }
  | _, _, _, logits => ⟨logits, [], 0⟩

def maskIndices (indices : List ℕ) (logits : List (WithBot K)) : List (WithBot K) :=
  indices.foldl (fun logits i => logits.set i ⊥) logits

/-- Only the end-of-generation tokens are taken out. -/
def maskEogOnly (S : GrammarSampler) (logits : List (WithBot K)) :
    Except ConstraintError MaskOutcome × List (WithBot K) :=
  let masked := List.zipWith (fun eog l => if eog then ⊥ else l) S.eog logits
  if masked.all (· = ⊥) then (.error (.noAllowedToken S.accepted), masked)
  else (.ok .allowed, masked)

/-- Sets every logit the grammar forbids to `⊥`. -/
def maskLogits (S : GrammarSampler) (logits : List (WithBot K)) (fuel : ℕ) :
    Option (Except ConstraintError MaskOutcome × List (WithBot K)) :=
  if logits.length ≠ S.pieces.length then
    some (.error (.vocabMismatch logits.length S.pieces.length), logits)
  else if S.grammar.isAwaitingTrigger then
    if S.grammar.allowsEog then some (.ok .allowed, logits) else some (S.maskEogOnly logits)
  else
    let allowEog := S.grammar.allowsEog
    let pass := vocabPass allowEog 0 S.pieces S.eog logits
    match (rejectCandidates S.grammar pass.candidates fuel :
        Option (Except GrammarError (List ℕ))) with
    | none => none
    | some (.error e) => some (.error (.grammar e), pass.logits)
    | some (.ok rejected) =>
        let logits := maskIndices rejected pass.logits
        if pass.candidates.length - rejected.length + pass.allowedEog = 0 then
          if allowEog then some (.ok .complete, logits)
          else some (.error (.noAllowedToken S.accepted), logits)
        else some (.ok .allowed, logits)

def withGrammar (S : GrammarSampler) (g : Grammar) : GrammarSampler := { S with grammar := g }

def countAccepted (S : GrammarSampler) : GrammarSampler := { S with accepted := S.accepted + 1 }

/-- What accepting leaves of the sampler, given what it leaves of the grammar. -/
def commitAccept (S : GrammarSampler) : Except GrammarError Unit × Grammar →
    Except ConstraintError Unit × GrammarSampler
  | (.error e, g) => (.error (.grammar e), S.withGrammar g)
  | (.ok (), g) => (.ok (), (S.withGrammar g).countAccepted)

/-- Advances the grammar over a sampled token; an end-of-generation token asserts the end. -/
def accept (S : GrammarSampler) (token : ℕ) (fuel : ℕ) :
    Update GrammarSampler ConstraintError :=
  match S.pieces[token]? with
  | none => some (.error (.tokenOutOfVocab token S.pieces.length), S)
  | some piece =>
      if S.grammar.isAwaitingTrigger then
        (S.grammar.acceptToken token piece fuel).map S.commitAccept
      else if (S.eog[token]?).getD false then
        some (S.commitAccept (S.grammar.acceptEog, S.grammar))
      else (S.grammar.acceptToken token piece fuel).map S.commitAccept

end GrammarSampler

end Frink.Gbnf
