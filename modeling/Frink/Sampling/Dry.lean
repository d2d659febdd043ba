import Mathlib
import Frink.Library.Overlap

/-! # The DRY sampler

A token that would continue a repetition of the recent text is penalised by how long the
repetition is. The lengths come from a reverse Z-algorithm over the window, capped where a
sequence breaker ends it.
-/

namespace Frink.Sampling

local instance DryParams.two : Nat.AtLeastTwo 2 := inferInstance

/-- A prompt and the tokens generated after it. -/
structure PenaltyWindow where

  prompt : List ℕ

  generated : List ℕ

namespace PenaltyWindow

def len (w : PenaltyWindow) : ℕ := w.prompt.length + w.generated.length

/-- The most recent tokens, oldest first. -/
def recent (w : PenaltyWindow) (lastN : ℕ) : List ℕ :=
  let start := w.len - lastN
  w.prompt.drop (min start w.prompt.length) ++ w.generated.drop (start - w.prompt.length)

end PenaltyWindow

/-- The cast `as i32`. -/
def asI32 (n : ℤ) : ℤ := n.bmod (2 ^ 32)

def maxSeqLen : ℕ := 20

/-- Sequence breakers by the token that holds their start, each with the tokens that must
follow it. -/
structure DryBreakers where

  heads : ℕ → Option (List (List ℕ))

  tail_le : ∀ token tails, heads token = some tails → ∀ tail ∈ tails, tail.length ≤ maxSeqLen

namespace DryBreakers

def none : DryBreakers := ⟨fun _ => Option.none, nofun⟩

def tails (b : DryBreakers) (token : ℕ) : Option (List (List ℕ)) := b.heads token

def isSingleTokenBreaker (b : DryBreakers) (token : ℕ) : Bool :=
  (b.heads token).any fun tails => tails.any List.isEmpty

end DryBreakers

/-- One request's configuration. -/
structure DryParams (K : Type) where

  multiplier : K

  base : K

  allowedLength : ℤ

  penaltyLastN : ℤ

  totalContextSize : ℕ

  breakers : DryBreakers

  allowedLength_i32 : -2 ^ 31 ≤ allowedLength ∧ allowedLength < 2 ^ 31

inductive DryPanic where

  | subtractWithOverflow

  | indexOutOfBounds
  deriving DecidableEq, Repr

/-- Subtraction of `i32` values: it panics where the build checks overflow and wraps where it
does not. -/
def subI32 (checks : Bool) (a b : ℤ) : Except DryPanic ℤ :=
  if -2 ^ 31 ≤ a - b ∧ a - b < 2 ^ 31 then .ok (a - b)
  else if checks then .error .subtractWithOverflow
  else .ok (asI32 (a - b))

section Scan

variable (recent : List ℕ)

/-- The token `i` back from the most recent. -/
def rat (i : ℕ) : Option ℕ := recent[recent.length - 1 - i]?

/-- A head's tail, where it is longer than those before it and follows the head. -/
def longerTail (i : ℕ) (longest : ℤ) (tail : List ℕ) : ℤ :=
  if (tail.length : ℤ) ≤ longest ∨ asI32 i < tail.length then longest
  else if (List.range tail.length).all fun offset => tail[offset]? == rat recent (i - offset - 1)
  then tail.length
  else longest

def longestMatch (i : ℕ) (tails : List (List ℕ)) : ℤ := tails.foldl (longerTail recent i) (-1)

/-- How far back a repetition may reach before it hits a sequence breaker. -/
def repLimitFrom (b : DryBreakers) : List ℕ → ℤ
  | [] => asI32 recent.length
  | i :: rest =>
      match (rat recent i).bind b.tails with
      | none => repLimitFrom b rest
      | some tails =>
          let longest := longestMatch recent i tails
          if 0 ≤ longest then asI32 i - longest else repLimitFrom b rest

def repLimit (b : DryBreakers) : ℤ := repLimitFrom recent b (List.range recent.length)

/-- Both comparing loops: tokens are compared with those `k` further back while they agree
and the window, of which `remaining` tokens are left, does not end. -/
def matchFrom (k : ℕ) : ℕ → ℕ → ℕ
  | 0, matched => matched
  | remaining + 1, matched =>
      if rat recent matched = rat recent (matched + k) then matchFrom k remaining (matched + 1)
      else matched

/-- The counts with the box of the last match that was compared. -/
structure ZBox where

  repeatCount : List ℤ

  lt : ℕ

  rt : ℕ

/-- One round of the reverse Z-algorithm. -/
def zRound (limit : ℤ) (s : ZBox) (k : ℕ) : ZBox :=
  let n := recent.length
  let last := n - 1
  if s.rt < k then
    let matched := matchFrom recent k (n - k) 0
    { repeatCount := s.repeatCount.set (last - k) (min (asI32 matched) limit)
      lt := if 0 < matched then k else s.lt
      rt := if 0 < matched then k + matched - 1 else s.rt }
  else
    let p := k - s.lt
    let rightPartLen := asI32 (s.rt - k + 1 : ℕ)
    let known := s.repeatCount.getD (last - p) 0
    if known < rightPartLen then
      { s with repeatCount := s.repeatCount.set (last - k) (min known limit) }
    else
      let i := matchFrom recent k (n - (s.rt + 1)) (s.rt + 1 - k) + k
      { repeatCount := s.repeatCount.set (last - k) (min (asI32 (i - k : ℕ)) limit)
        lt := k
        rt := i - 1 }

/-- The length of the window's end that also occurs ending at each position. -/
def repeatCounts (limit : ℤ) : List ℤ :=
  ((List.range' 1 (recent.length - 1)).foldl (zRound recent limit)
    ⟨List.replicate recent.length 0, 0, 0⟩).repeatCount

end Scan

/-- The entry of a token, raised to a count. -/
def raise : List (ℕ × ℤ) → ℕ → ℤ → List (ℕ × ℤ)
  | [], token, count => [(token, count)]
  | (t, c) :: rest, token, count =>
      if t = token then (t, if c < count then count else c) :: rest
      else (t, c) :: raise rest token count

/-- A position's count goes to the token that follows it. -/
def raiseAt (recent : List ℕ) (allowedLength : ℤ) (counts : List ℤ) (slots : List (ℕ × ℤ))
    (i : ℕ) : List (ℕ × ℤ) :=
  match counts[i]?, recent[i + 1]? with
  | some count, some token =>
      if count < allowedLength then slots else raise slots token count
  | _, _ => slots

/-- The token that would extend each repetition, with the longest of its repetitions. -/
def maxTokenRepeat (recent : List ℕ) (allowedLength : ℤ) (counts : List ℤ) : List (ℕ × ℤ) :=
  (List.range (recent.length - 1)).foldl (raiseAt recent allowedLength counts) []

namespace DryParams

variable {K : Type} [Field K] [LinearOrder K]

def isEnabled (p : DryParams K) : Bool :=
  decide (p.multiplier ≠ 0 ∧ 1 ≤ p.base ∧ p.penaltyLastN ≠ 0)

def effectiveLastN (p : DryParams K) : ℕ :=
  if p.penaltyLastN = -1 then p.totalContextSize else p.penaltyLastN.toNat

/-- The tokens the scan looks at. -/
def window (p : DryParams K) (history : PenaltyWindow) : List ℕ :=
  history.recent (min p.effectiveLastN p.totalContextSize)

variable (checks : Bool) (logLimit : K → ℤ) (p : DryParams K)

/-- The cap on the exponent; what `FLOAT_MAX_LOG / base.ln()` is cast to is a parameter. -/
def maxExponent : ℤ := if 1 + 1 / 2 ^ 20 < p.base then logLimit p.base else 0

def clampExponent (repeatExp : ℤ) : ℤ :=
  if 0 < p.maxExponent logLimit ∧ p.maxExponent logLimit < repeatExp then p.maxExponent logLimit
  else repeatExp

def penalty (repeatExp : ℤ) : K := p.multiplier * p.base ^ p.clampExponent logLimit repeatExp

def assign : List (ℕ × ℤ) → Except DryPanic (List (ℕ × K))
  | [] => .ok []
  | (token, maxRepeat) :: rest =>
      if p.breakers.isSingleTokenBreaker token then assign rest
      else do
        let repeatExp ← subI32 checks maxRepeat p.allowedLength
        let out ← assign rest
        return (token, p.penalty logLimit repeatExp) :: out

/-- What is subtracted from each token's logit. -/
def penalties (history : PenaltyWindow) : Except DryPanic (List (ℕ × K)) :=
  if !p.isEnabled then .ok []
  else
    let recent := p.window history
    if asI32 recent.length ≤ p.allowedLength then .ok []
    else
      let limit := repLimit recent p.breakers
      if limit < p.allowedLength then .ok []
      -- `n - 1` is below zero: the subtraction panics, or else the first count read does
      else if recent.length = 0 then .error .indexOutOfBounds
      else
        p.assign checks logLimit
          (maxTokenRepeat recent p.allowedLength (repeatCounts recent limit))

end DryParams

end Frink.Sampling
