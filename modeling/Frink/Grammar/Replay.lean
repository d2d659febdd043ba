import Frink.Grammar.MaskAccept

/-! # What a trigger hands over

The text seen so far is cut where a pattern says, and the tokens that reach past the cut are fed
to the grammar, the one that lies across it from there on. Until then the parse does not move,
after that it is the parse of a grammar that was never lazy.
-/

namespace Frink.Gbnf

/-- A token and the bytes it stands for. -/
abbrev Sampled := ℕ × List UInt8

def textOf (ts : List Sampled) : List UInt8 := ts.flatMap Prod.snd

/-- The tokens that reach past `at_`, the first of them without what lies before. -/
def recut (at_ : ℕ) : List Sampled → List Sampled
  | [] => []
  | (token, piece) :: ts =>
      if piece.length ≤ at_ then recut (at_ - piece.length) ts else (token, piece.drop at_) :: ts

namespace LazyTriggers

variable (triggers : LazyTriggers)

/-- What the triggers say of one more token: nothing yet, or what is to be replayed. -/
def offer (seen : List Sampled) (t : Sampled) : Except GrammarError (Option (List Sampled)) :=
  if t.1 ∈ triggers.tokens then .ok (some [t])
  else
    match LazyState.firstMatch (LazyState.validPrefix (textOf (seen ++ [t]))) triggers.patterns with
    | .error e => .error e
    | .ok none => .ok none
    | .ok (some at_) => .ok (some (recut at_ (seen ++ [t])))

/-- No token fires where it stands. -/
def Quiet : List Sampled → List Sampled → Prop
  | _, [] => True
  | seen, t :: ts =>
      (∀ replay, triggers.offer seen t ≠ .ok (some replay)) ∧ Quiet (seen ++ [t]) ts

/-- The verdicts on tokens that do not fire: a pattern whose engine fails refuses the token. -/
def verdicts : List Sampled → List Sampled → List (Except GrammarError Unit)
  | _, [] => []
  | seen, t :: ts => (triggers.offer seen t).map (fun _ => ()) :: verdicts (seen ++ [t]) ts

end LazyTriggers

/-- Where the buffered tokens lie. -/
def spansFrom : ℕ → List Sampled → List Span
  | _, [] => []
  | start, (token, piece) :: ts =>
      ⟨token, start, start + piece.length⟩ :: spansFrom (start + piece.length) ts

/-- The state that has seen `ts` and not fired. -/
def waiting (triggers : LazyTriggers) (ts : List Sampled) : LazyState :=
  ⟨triggers, true, textOf ts, spansFrom 0 ts⟩

def fired (triggers : LazyTriggers) : LazyState := ⟨triggers, false, [], []⟩

namespace Grammar

/-- One token after the other, whatever the verdicts. -/
def feed (fuel : ℕ) : List Sampled → Grammar →
    Option (List (Except GrammarError Unit) × Grammar)
  | [], g => some ([], g)
  | (token, piece) :: ts, g =>
      match g.acceptToken token piece fuel with
      | none => none
      | some (verdict, g) => (feed fuel ts g).map fun out => (verdict :: out.1, out.2)

def withLazy (g : Grammar) (lazyState : Option LazyState) : Grammar :=
  { g with lazyState := lazyState }

end Grammar

section Cut

variable {ts rest : List Sampled} {at_ start : ℕ} {front : List UInt8}

@[simp] theorem textOf_cons (t : Sampled) (ts : List Sampled) :
    textOf (t :: ts) = t.2 ++ textOf ts := rfl

/-- What is replayed is the text from the cut on. -/
theorem textOf_recut (at_ : ℕ) (ts : List Sampled) :
    textOf (recut at_ ts) = (textOf ts).drop at_ := by
  induction ts generalizing at_ with
  | nil => simp [recut, textOf]
  | cons t ts ih =>
    obtain ⟨token, piece⟩ := t
    rw [recut, textOf_cons, List.drop_append]
    split
    · rename_i hle
      rw [ih, List.drop_eq_nil_of_le hle, List.nil_append]
    · rename_i hlt
      rw [textOf_cons, Nat.sub_eq_zero_of_le (Nat.le_of_not_le hlt), List.drop_zero]

/-- The cut lies in one token, and those behind it are replayed whole. -/
theorem recut_cases (at_ : ℕ) (ts : List Sampled) :
    recut at_ ts = [] ∨ ∃ skipped token piece rest k, ts = skipped ++ (token, piece) :: rest ∧
      k < piece.length ∧ (textOf skipped).length + k = at_ ∧
        recut at_ ts = (token, piece.drop k) :: rest := by
  induction ts generalizing at_ with
  | nil => exact Or.inl rfl
  | cons t ts ih =>
    obtain ⟨token, piece⟩ := t
    rw [recut]
    split
    · rename_i hle
      rcases ih (at_ - piece.length) with hnil | ⟨skipped, token', piece', rest, k, rfl, hk, hat, hcut⟩
      · exact Or.inl hnil
      · refine Or.inr ⟨(token, piece) :: skipped, token', piece', rest, k, rfl, hk, ?_, hcut⟩
        rw [textOf_cons, List.length_append]
        dsimp only
        omega
    · rename_i hlt
      exact Or.inr ⟨[], token, piece, ts, at_, rfl, Nat.lt_of_not_le hlt, Nat.zero_add _, rfl⟩

theorem spansFrom_append (start : ℕ) (ts rest : List Sampled) :
    spansFrom start (ts ++ rest) =
      spansFrom start ts ++ spansFrom (start + (textOf ts).length) rest := by
  induction ts generalizing start with
  | nil => rfl
  | cons t ts ih =>
    obtain ⟨token, piece⟩ := t
    rw [List.cons_append, spansFrom, ih, spansFrom, textOf_cons, List.length_append, Nat.add_assoc]
    rfl

/-- The bytes of one token within the text, from `from_` on. -/
theorem piece_of_text {piece : List UInt8} {from_ : ℕ} (hlen : front.length = start)
    (hle : start ≤ from_) :
    ((front ++ (piece ++ textOf ts)).take (start + piece.length)).drop from_ =
      piece.drop (from_ - start) := by
  have htake : (front ++ (piece ++ textOf ts)).take (start + piece.length) = front ++ piece := by
    rw [← List.append_assoc, ← hlen, ← List.length_append, List.take_left]
  rw [htake, List.drop_append, List.drop_eq_nil_of_le (by omega), List.nil_append, hlen]

/-- Behind the cut every token is kept whole. -/
theorem replay_behind (at_ : ℕ) (ts : List Sampled) (h : at_ < start) (hlen : front.length = start) :
    ((spansFrom start ts).filter fun span => at_ < span.stop).map (fun span =>
      (span.token, ((front ++ textOf ts).take span.stop).drop (max span.start at_))) = ts := by
  induction ts generalizing start front with
  | nil => rfl
  | cons t ts ih =>
    obtain ⟨token, piece⟩ := t
    have hfront : (front ++ piece).length = start + piece.length := by
      rw [List.length_append, hlen]
    have hrest := ih (by omega) hfront
    rw [List.append_assoc] at hrest
    rw [spansFrom, List.filter_cons, if_pos (by simpa using by omega), List.map_cons, textOf_cons,
      hrest, Nat.max_eq_left h.le, piece_of_text hlen (Nat.le_refl start), Nat.sub_self,
      List.drop_zero]

/-- The spans that reach past the cut are the tokens cut there. -/
theorem replay_spans (hle : start ≤ at_) (hlen : front.length = start) :
    ((spansFrom start ts).filter fun span => at_ < span.stop).map (fun span =>
      (span.token, ((front ++ textOf ts).take span.stop).drop (max span.start at_))) =
        recut (at_ - start) ts := by
  induction ts generalizing start front with
  | nil => rfl
  | cons t ts ih =>
    obtain ⟨token, piece⟩ := t
    have hfront : (front ++ piece).length = start + piece.length := by
      rw [List.length_append, hlen]
    rw [spansFrom, recut, List.filter_cons, textOf_cons]
    by_cases hskip : piece.length ≤ at_ - start
    · have hrest := ih (by omega) hfront
      rw [List.append_assoc] at hrest
      rw [if_pos hskip, if_neg (by simpa using by omega), hrest, Nat.sub_sub]
    · have hrest := replay_behind at_ ts (by omega) hfront
      rw [List.append_assoc] at hrest
      rw [if_neg hskip, if_pos (by simpa using by omega), List.map_cons, hrest,
        Nat.max_eq_right hle, piece_of_text hlen hle]

end Cut

section Observe

variable {triggers : LazyTriggers} {seen : List Sampled} {t : Sampled}

/-- One more token is buffered and fires or not, as the triggers say. -/
theorem observe_waiting :
    (waiting triggers seen).observe t.1 t.2 =
      match triggers.offer seen t with
      | .error e => (.error e, waiting triggers (seen ++ [t]))
      | .ok none => (.ok .awaiting, waiting triggers (seen ++ [t]))
      | .ok (some replay) => (.ok (.fired replay), fired triggers) := by
  obtain ⟨token, piece⟩ := t
  have hgrown : (⟨triggers, true, textOf seen ++ piece,
      spansFrom 0 seen ++ [⟨token, (textOf seen).length, (textOf seen).length + piece.length⟩]⟩ :
        LazyState) = waiting triggers (seen ++ [(token, piece)]) := by
    simp [waiting, spansFrom_append, spansFrom, textOf]
  have hreplay : ∀ at_, (waiting triggers (seen ++ [(token, piece)])).replayFrom at_ =
      recut at_ (seen ++ [(token, piece)]) := by
    intro at_
    exact replay_spans (Nat.zero_le at_) (List.length_nil : ([] : List UInt8).length = 0)
  unfold LazyState.observe LazyTriggers.offer
  by_cases hmem : token ∈ triggers.tokens
  · simp [waiting, hmem, LazyState.fire, fired]
  · have hfind : (waiting triggers (seen ++ [(token, piece)])).findTrigger =
        LazyState.firstMatch (LazyState.validPrefix (textOf (seen ++ [(token, piece)])))
          triggers.patterns := rfl
    have hmem' : token ∉ (waiting triggers seen).triggers.tokens := hmem
    rw [if_neg hmem, if_neg hmem', ← hfind, ← hgrown]
    dsimp only [waiting]
    rw [hgrown]
    cases (waiting triggers (seen ++ [(token, piece)])).findTrigger with
    | error e => rfl
    | ok found =>
      cases found with
      | none => rfl
      | some at_ =>
        dsimp only
        rw [hreplay at_]
        rfl

/-- Tokens stay quiet to the end, or one is the first to fire. -/
theorem quiet_or_fires (seen ts : List Sampled) : triggers.Quiet seen ts ∨
    ∃ before t after replay, ts = before ++ t :: after ∧ triggers.Quiet seen before ∧
      triggers.offer (seen ++ before) t = .ok (some replay) := by
  induction ts generalizing seen with
  | nil => exact Or.inl trivial
  | cons t ts ih =>
    by_cases hfire : ∃ replay, triggers.offer seen t = .ok (some replay)
    · obtain ⟨replay, hreplay⟩ := hfire
      exact Or.inr ⟨[], t, ts, replay, rfl, trivial, by rwa [List.append_nil]⟩
    · have hquiet : ∀ replay, triggers.offer seen t ≠ .ok (some replay) :=
        fun replay h => hfire ⟨replay, h⟩
      rcases ih (seen ++ [t]) with hrest | ⟨before, t', after, replay, rfl, hrest, hreplay⟩
      · exact Or.inl ⟨hquiet, hrest⟩
      · refine Or.inr ⟨t :: before, t', after, replay, rfl, ⟨hquiet, hrest⟩, ?_⟩
        rwa [List.append_assoc, List.singleton_append] at hreplay

end Observe

namespace Grammar

variable {g : Grammar} {triggers : LazyTriggers} {seen ts : List Sampled} {t : Sampled} {fuel : ℕ}

/-- Accepting does not look at the trigger state. -/
theorem acceptTokenNow_withLazy (g : Grammar) (l : Option LazyState) (t : Sampled) (fuel : ℕ) :
    (g.withLazy l).acceptTokenNow t.1 t.2 fuel =
      (g.acceptTokenNow t.1 t.2 fuel).map fun out => (out.1, out.2.withLazy l) := by
  unfold acceptTokenNow withLazy
  dsimp only
  cases (g.parseStacks.foldlM (fun new stack =>
      acceptOne g.rules t.1 (decodePiece t.2 g.partialUtf8).1.dropLast new stack fuel) [] :
        Exec GrammarError (List GrammarStack)) with
  | none => rfl
  | some out => cases out <;> rfl

theorem replayTokens_withLazy (g : Grammar) (l : Option LazyState) (replay : List Sampled)
    (fuel : ℕ) : replayTokens fuel replay (g.withLazy l) =
      (replayTokens fuel replay g).map fun out => (out.1, out.2.withLazy l) := by
  induction replay generalizing g with
  | nil => rfl
  | cons t replay ih =>
    rw [replayTokens, replayTokens, acceptTokenNow_withLazy]
    cases g.acceptTokenNow t.1 t.2 fuel with
    | none => rfl
    | some out =>
      obtain ⟨verdict, g'⟩ := out
      cases verdict with
      | error e => rfl
      | ok => exact ih g'

theorem acceptTokenNow_lazyState {out : Except GrammarError Unit × Grammar}
    (h : g.acceptTokenNow t.1 t.2 fuel = some out) : out.2.lazyState = g.lazyState := by
  have hsame := acceptTokenNow_withLazy g g.lazyState t fuel
  have hself : g.withLazy g.lazyState = g := rfl
  rw [hself, h] at hsame
  have hout := Option.some.inj hsame
  rw [hout]
  rfl

/-- While nothing fires every token is only buffered. -/
theorem acceptToken_waiting (triggers : LazyTriggers) (seen : List Sampled) (g : Grammar) (t : Sampled) (fuel : ℕ) :
    (g.withLazy (some (waiting triggers seen))).acceptToken t.1 t.2 fuel =
      match triggers.offer seen t with
      | .error e => some (.error e, g.withLazy (some (waiting triggers (seen ++ [t]))))
      | .ok none => some (.ok (), g.withLazy (some (waiting triggers (seen ++ [t]))))
      | .ok (some replay) => replayTokens fuel replay (g.withLazy (some (fired triggers))) := by
  have hobserve : (waiting triggers seen).observe t.1 t.2 = _ := observe_waiting
  unfold acceptToken withLazy
  dsimp only
  rw [if_pos (show (waiting triggers seen).awaiting = true from rfl), hobserve]
  cases triggers.offer seen t with
  | error e => rfl
  | ok replay => cases replay <;> rfl

theorem feed_waiting (g : Grammar) (rest : List Sampled) (fuel : ℕ)
    (h : triggers.Quiet seen ts) :
    feed fuel (ts ++ rest) (g.withLazy (some (waiting triggers seen))) =
      (feed fuel rest (g.withLazy (some (waiting triggers (seen ++ ts))))).map fun out =>
        (triggers.verdicts seen ts ++ out.1, out.2) := by
  induction ts generalizing seen with
  | nil => simp [LazyTriggers.verdicts]
  | cons t ts ih =>
    obtain ⟨hquiet, hrest⟩ := h
    have hstep := acceptToken_waiting triggers seen g t fuel
    have hnext := ih hrest
    rw [List.append_assoc, List.singleton_append] at hnext
    rw [List.cons_append, feed, hstep, LazyTriggers.verdicts]
    cases hoffer : triggers.offer seen t with
    | error e =>
      dsimp only
      rw [hnext, Option.map_map]
      rfl
    | ok replay =>
      cases replay with
      | some replay => exact absurd hoffer (hquiet replay)
      | none =>
        dsimp only
        rw [hnext, Option.map_map]
        rfl

/-- A grammar that has fired takes tokens as one that was never lazy. -/
theorem feed_fired (hg : g.lazyState = none) (ts : List Sampled) (fuel : ℕ) :
    feed fuel ts (g.withLazy (some (fired triggers))) =
      (feed fuel ts g).map fun out => (out.1, out.2.withLazy (some (fired triggers))) := by
  induction ts generalizing g with
  | nil => rfl
  | cons t ts ih =>
    have heager : g.acceptToken t.1 t.2 = g.acceptTokenNow t.1 t.2 :=
      acceptToken_of_not_awaiting (by simp [isAwaitingTrigger, hg]) t.1 t.2
    have hfired : (g.withLazy (some (fired triggers))).acceptToken t.1 t.2 =
        (g.withLazy (some (fired triggers))).acceptTokenNow t.1 t.2 :=
      acceptToken_of_not_awaiting rfl t.1 t.2
    rw [feed, feed, hfired, heager, acceptTokenNow_withLazy]
    cases hnow : g.acceptTokenNow t.1 t.2 fuel with
    | none => rfl
    | some out =>
      obtain ⟨verdict, g'⟩ := out
      have hg' : g'.lazyState = none := (acceptTokenNow_lazyState hnow).trans hg
      simp only [Option.map_some]
      rw [ih hg', Option.map_map, Option.map_map]
      rfl

theorem replayTokens_lazyState {out : Except GrammarError Unit × Grammar} {replay : List Sampled}
    (h : replayTokens fuel replay g = some out) : out.2.lazyState = g.lazyState := by
  have hsame := replayTokens_withLazy g g.lazyState replay fuel
  have hself : g.withLazy g.lazyState = g := rfl
  rw [hself, h] at hsame
  have hout := Option.some.inj hsame
  rw [hout]
  rfl

theorem feed_lazyState {out : List (Except GrammarError Unit) × Grammar} (hg : g.lazyState = none)
    (h : feed fuel ts g = some out) : out.2.lazyState = none := by
  induction ts generalizing g out with
  | nil =>
    cases h
    exact hg
  | cons t ts ih =>
    have heager : g.acceptToken t.1 t.2 = g.acceptTokenNow t.1 t.2 :=
      acceptToken_of_not_awaiting (by simp [isAwaitingTrigger, hg]) t.1 t.2
    rw [feed, heager] at h
    cases hnow : g.acceptTokenNow t.1 t.2 fuel with
    | none =>
      rw [hnow] at h
      cases h
    | some r =>
      rw [hnow] at h
      obtain ⟨out', hout', rfl⟩ := Option.map_eq_some_iff.mp h
      have hlast := ih ((acceptTokenNow_lazyState hnow).trans hg) hout'
      exact hlast

/-- The first token that fires hands the grammar over to the replay. -/
theorem feed_fires {before : List Sampled} {replay : List Sampled} (hg : g.lazyState = none)
    (hquiet : triggers.Quiet [] before) (hoffer : triggers.offer before t = .ok (some replay))
    (after : List Sampled) (fuel : ℕ) :
    feed fuel (before ++ t :: after) (g.withLazy (some (waiting triggers []))) =
      (replayTokens fuel replay g).bind fun r => (feed fuel after r.2).map fun out =>
        (triggers.verdicts [] before ++ r.1 :: out.1, out.2.withLazy (some (fired triggers))) := by
  rw [feed_waiting g (t :: after) fuel hquiet, List.nil_append, feed, acceptToken_waiting, hoffer]
  dsimp only
  rw [replayTokens_withLazy]
  cases hreplay : replayTokens fuel replay g with
  | none => rfl
  | some r =>
    have hr : r.2.lazyState = none := (replayTokens_lazyState hreplay).trans hg
    simp only [Option.map_some, Option.bind_some]
    rw [feed_fired hr, Option.map_map, Option.map_map]
    rfl

/-- While nothing has fired nothing is masked, except the ends where the trigger is mandatory. -/
theorem maskLogits_waiting {K : Type} [DecidableEq K] {S : GrammarSampler}
    (hS : S.grammar = g.withLazy (some (waiting triggers ts))) {logits : List (WithBot K)}
    (hlen : logits.length = S.pieces.length) (fuel : ℕ) :
    ∃ outcome masked, S.maskLogits logits fuel = some (outcome, masked) ∧
      if triggers.mandatory then
        ∀ i : ℕ, masked[i]? =
          logits[i]?.map fun l => if S.eog[i]? = some true then (⊥ : WithBot K) else l
      else outcome = .ok .allowed ∧ masked = logits := by
  have hawait : S.grammar.isAwaitingTrigger = true := by
    rw [hS]
    rfl
  have hallow : S.grammar.allowsEog = !triggers.mandatory := by
    rw [hS]
    rfl
  rw [GrammarSampler.maskLogits, if_neg (by simp [hlen]), if_pos hawait, hallow]
  cases triggers.mandatory with
  | false => exact ⟨_, _, rfl, rfl, rfl⟩
  | true =>
    refine ⟨(S.maskEogOnly logits).1, (S.maskEogOnly logits).2, by simp, ?_⟩
    have hmasked : (S.maskEogOnly logits).2 =
        List.zipWith (fun eog l => if eog then ⊥ else l) S.eog logits := by
      unfold GrammarSampler.maskEogOnly
      dsimp only
      split <;> rfl
    intro i
    rw [hmasked, List.getElem?_zipWith]
    rcases Nat.lt_or_ge i logits.length with hlt | hge
    · have heog : i < S.eog.length := by
        rw [S.eog_length, ← hlen]
        exact hlt
      simp [List.getElem?_eq_getElem hlt, List.getElem?_eq_getElem heog]
    · rw [List.getElem?_eq_none hge]
      cases S.eog[i]? <;> rfl

/-- What fires replays the trigger token alone, or the text from where the pattern says. -/
theorem replay_of_offer {replay : List Sampled} (h : triggers.offer seen t = .ok (some replay)) :
    (t.1 ∈ triggers.tokens ∧ replay = [t]) ∨
      t.1 ∉ triggers.tokens ∧ ∃ at_, LazyState.firstMatch
          (LazyState.validPrefix (textOf (seen ++ [t]))) triggers.patterns = .ok (some at_) ∧
        textOf replay = (textOf (seen ++ [t])).drop at_ ∧
        (replay = [] ∨ ∃ skipped token piece rest k,
          seen ++ [t] = skipped ++ (token, piece) :: rest ∧ k < piece.length ∧
            (textOf skipped).length + k = at_ ∧ replay = (token, piece.drop k) :: rest) := by
  unfold LazyTriggers.offer at h
  split at h
  · rename_i hmem
    cases h
    exact Or.inl ⟨hmem, rfl⟩
  · rename_i hmem
    refine Or.inr ⟨hmem, ?_⟩
    cases hfind : LazyState.firstMatch (LazyState.validPrefix (textOf (seen ++ [t])))
        triggers.patterns with
    | error e =>
      rw [hfind] at h
      cases h
    | ok found =>
      rw [hfind] at h
      cases found with
      | none => cases h
      | some at_ =>
        cases h
        exact ⟨at_, rfl, textOf_recut at_ _, recut_cases at_ _⟩

/-- A lazy grammar over any tokens. Until a trigger fires the parse does not move, a token is
refused only where a pattern's engine fails, and no token is masked but the ends where the trigger
is mandatory. The first token that fires hands over itself, if it is a trigger token, or else the
tokens cut where the first pattern that matches says; from there on the grammar takes what the
grammar that was never lazy takes, and does not wait again. -/
theorem lazy_replay (K : Type) [DecidableEq K] (g lz : Grammar) (triggers : LazyTriggers)
    (hg : g.lazyState = none) (hlazy : g.intoLazy triggers = .ok lz) (ts : List Sampled)
    (fuel : ℕ) :
    (triggers.Quiet [] ts →
      (∃ waits : Grammar, feed fuel ts lz = some (triggers.verdicts [] ts, waits) ∧
        waits.isAwaitingTrigger = true ∧ waits.withLazy none = g ∧
        ∀ (S : GrammarSampler) (logits : List (WithBot K)), S.grammar = waits →
          logits.length = S.pieces.length →
            ∃ outcome masked, S.maskLogits logits fuel = some (outcome, masked) ∧
              if triggers.mandatory then
                ∀ i : ℕ, masked[i]? =
                  logits[i]?.map fun l => if S.eog[i]? = some true then (⊥ : WithBot K) else l
              else outcome = .ok .allowed ∧ masked = logits)) ∧
    (∀ before t after replay, ts = before ++ t :: after → triggers.Quiet [] before →
      triggers.offer before t = .ok (some replay) →
        (t.1 ∈ triggers.tokens ∧ replay = [t] ∨
          t.1 ∉ triggers.tokens ∧ ∃ at_, LazyState.firstMatch
              (LazyState.validPrefix (textOf (before ++ [t]))) triggers.patterns = .ok (some at_) ∧
            textOf replay = (textOf (before ++ [t])).drop at_ ∧
            (replay = [] ∨ ∃ skipped token piece rest k,
              before ++ [t] = skipped ++ (token, piece) :: rest ∧ k < piece.length ∧
                (textOf skipped).length + k = at_ ∧ replay = (token, piece.drop k) :: rest)) ∧
        (feed fuel ts lz).map (fun out => (out.1, out.2.withLazy none)) =
          (replayTokens fuel replay g).bind (fun r => (feed fuel after r.2).map fun out =>
            (triggers.verdicts [] before ++ r.1 :: out.1, out.2)) ∧
        ∀ out, feed fuel ts lz = some out → out.2.isAwaitingTrigger = false) ∧
    (triggers.Quiet [] ts ∨ ∃ before t after replay, ts = before ++ t :: after ∧
      triggers.Quiet [] before ∧ triggers.offer before t = .ok (some replay)) := by
  have hlz : lz = g.withLazy (some (waiting triggers [])) := by
    unfold intoLazy at hlazy
    split at hlazy
    · cases hlazy
    · cases hlazy
      rfl
  have hself : g.withLazy none = g := by
    rw [← hg]
    rfl
  refine ⟨fun hquiet => ?_, ?_, ?_⟩
  · refine ⟨g.withLazy (some (waiting triggers ts)), ?_, rfl, hself, ?_⟩
    · have hrun := feed_waiting g [] fuel hquiet
      rw [hlz]
      simpa [feed] using hrun
    · intro S logits hS hlen
      exact maskLogits_waiting hS hlen fuel
  · rintro before t after replay rfl hquiet hoffer
    have hrun := feed_fires hg hquiet hoffer after fuel
    rw [← hlz] at hrun
    refine ⟨replay_of_offer hoffer, ?_, ?_⟩
    · rw [hrun]
      cases hreplay : replayTokens fuel replay g with
      | none => rfl
      | some r =>
        have hr : r.2.lazyState = none := (replayTokens_lazyState hreplay).trans hg
        simp only [Option.bind_some]
        cases hfeed : feed fuel after r.2 with
        | none => rfl
        | some out =>
          have hout : out.2.withLazy none = out.2 := by
            rw [← feed_lazyState hr hfeed]
            rfl
          exact congrArg (fun eager => some (triggers.verdicts [] before ++ r.1 :: out.1, eager)) hout
    · intro out hout
      rw [hrun] at hout
      obtain ⟨r, -, hr⟩ := Option.bind_eq_some_iff.mp hout
      obtain ⟨out', -, rfl⟩ := Option.map_eq_some_iff.mp hr
      rfl
  · exact quiet_or_fires [] ts

section Witness

/-- The grammar of the letter a. -/
def letter : Grammar := ⟨[[⟨.char, 97⟩, ⟨.ruleEnd, 0⟩]], [[⟨0, 0⟩]], ⟨0, 0⟩, none⟩

/-- Waits for the letter a. -/
def onLetter : LazyTriggers := ⟨[], [⟨"a", fun text => .ok (text.findIdx? (· == 97))⟩], false⟩

theorem lazy_replay_letter :
    (feed 9 [(7, [120]), (8, [121, 97])] (letter.withLazy (some (waiting onLetter [])))).map
        (fun out => (out.1, out.2.withLazy none)) =
      (replayTokens 9 [(8, [97])] letter).bind fun r => some ([.ok (), r.1], r.2) := by
  have hquiet : onLetter.Quiet [] [(7, [120])] := by
    refine ⟨fun replay h => ?_, trivial⟩
    have hoffer : onLetter.offer [] (7, [120]) = .ok none := by decide +kernel
    rw [hoffer] at h
    cases h
  exact ((lazy_replay ℕ letter _ onLetter rfl rfl [(7, [120]), (8, [121, 97])] 9).2.1
    [(7, [120])] (8, [121, 97]) [] [(8, [97])] rfl hquiet (by decide +kernel)).2.1

/-- A mandatory trigger masks the end of generation, and a pattern whose engine fails refuses
a token: not every token is free while nothing has fired. -/
theorem waiting_not_free :
    (¬∀ (g lz : Grammar) (triggers : LazyTriggers) (S : GrammarSampler) (logits : List (WithBot ℕ))
      (fuel : ℕ), g.lazyState = none → g.intoLazy triggers = .ok lz → S.grammar = lz →
        logits.length = S.pieces.length → S.maskLogits logits fuel = some (.ok .allowed, logits)) ∧
    ¬∀ (g lz : Grammar) (triggers : LazyTriggers) (t : Sampled) (fuel : ℕ), g.lazyState = none →
      g.intoLazy triggers = .ok lz → triggers.Quiet [] [t] →
        (lz.acceptToken t.1 t.2 fuel).map Prod.fst = some (.ok ()) := by
  constructor
  · intro h
    have hmask := h letter _ { onLetter with mandatory := true }
      ⟨_, [[97], []], [false, true], 0, rfl⟩ [((1 : ℕ) : WithBot ℕ), ((1 : ℕ) : WithBot ℕ)] 9 rfl rfl
      rfl rfl
    exact absurd hmask (by decide +kernel)
  · intro h
    have hfail := h letter _ ⟨[], [⟨"a", fun _ => .error (.triggerPatternFailed "a" "limit")⟩], false⟩
      (7, [97]) 9 rfl rfl ⟨nofun, trivial⟩
    cases hfail

end Witness

end Grammar

end Frink.Gbnf
