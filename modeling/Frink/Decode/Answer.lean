import Mathlib
import Frink.Decode.Lossless
import Frink.Decode.StopCuts
import Frink.Decode.Utf8Stream

/-! # The text of an answer

Bytes pass the two buffers in series. Up to the end of a completion what was emitted is the text
before the stop, or lacks only what is withheld; the flush then turns an unfinished character into
a replacement that goes through the matcher once more.
-/

namespace Frink.Decode
open Codec Relation

variable {S L P E : Type} {ctx : StepContext S L P E} {c c' : ChoiceStream S L P} {t : ℕ}

/-- A match leaves nothing withheld. -/
theorem StopMatcher.matched_fields {m m' : StopMatcher} {piece text stop : Text}
    (h : m.push piece = (.matched text stop, m')) : m'.stops = m.stops ∧ m'.pending = [] := by
  unfold StopMatcher.push at h
  split at h
  · cases h
  · dsimp only at h
    split at h <;> cases h
    exact ⟨rfl, rfl⟩

namespace ChoiceStream

/-- One move of a completion that is not done; what a token is followed by is the engine's and the
sampler's. -/
inductive Move (ctx : StepContext S L P E) : ChoiceStream S L P → ChoiceStream S L P → Prop where

  | budget (c : ChoiceStream S L P) : Move ctx c (c.checkBudget ctx.params).2

  | complete {c : ChoiceStream S L P} : c.done = false → Move ctx c (c.stop .stop)

  | commit {c c' : ChoiceStream S L P} {t : ℕ} (s : S) (l : L) (n : ℕ) (q : List (ℕ × P)) :
      c.done = false → c.commit ctx t = (.continue, c') → Move ctx c (c'.rebase s l n q)

  | stopped {c c' : ChoiceStream S L P} {t : ℕ} {reason : FinishReason} : c.done = false →
      c.commit ctx t = (.stopped reason, c') → Move ctx c (c'.stop reason)

/-- The completions a run goes through. -/
def Runs (ctx : StepContext S L P E) (c : ChoiceStream S L P) : Prop :=
  ∃ logits pos, ReflTransGen (Move ctx) (.new ctx logits pos) c

/-- The bytes of the tokens that were committed. -/
def committedBytes (ctx : StepContext S L P E) (c : ChoiceStream S L P) : List UInt8 :=
  c.generatedIds.flatMap fun t => ctx.decodeOne [t]

/-- Everything emitted so far. -/
def output (c : ChoiceStream S L P) : Text := c.emitted.flatten

@[simp] theorem output_emit (text : Text) : (c.emit text).output = c.output ++ text := by
  unfold output emit
  cases text <;> simp

@[simp] theorem output_show (step : StopStep × StopMatcher) :
    (c.show_ step).output = c.output ++ step.1.text := output_emit _

/-- How far the answer is told: the stop cut it, or all is out, or the matcher withholds the
rest. -/
inductive Told (stops : List Text) (c : ChoiceStream S L P) (seen : Text) : Prop where

  | cut {i : ℕ} {s : Text} : c.done = true → c.finish = .stopSequence s → Reported stops seen i s →
      c.output = seen.take i → c.matcher.pending = [] → Told stops c seen

  | whole : c.done = true → (∀ s, c.finish ≠ .stopSequence s) → c.output = seen →
      c.matcher.pending = [] → Told stops c seen

  | withheld : (∀ s, c.finish ≠ .stopSequence s) → c.matcher.Holds c.output seen → Told stops c seen

/-- What a run keeps. -/
structure Telling (ctx : StepContext S L P E) (c : ChoiceStream S L P) (seen : Text) : Prop where
  decoded : whole (c.committedBytes ctx) = (seen, c.utf8.pending)
  stops : c.matcher.stops = ctx.params.stop.filter fun s => !s.isEmpty
  told : c.Told (ctx.params.stop.filter fun s => !s.isEmpty) seen

theorem telling_new (ctx : StepContext S L P E) (logits : L) (pos : ℕ) :
    Telling ctx (.new ctx logits pos) [] where
  decoded := rfl
  stops := rfl
  told := .withheld (fun _ h => nomatch h) (StopMatcher.holds_new _ _)

/-- The token's bytes make whole what they complete. -/
theorem Telling.decoded_push {seen : Text} (h : Telling ctx c seen) (t : ℕ) :
    whole ((c.record t).committedBytes ctx) =
      (seen ++ (c.utf8.push (ctx.decodeOne [t])).1,
        (c.utf8.push (ctx.decodeOne [t])).2.pending) := by
  have hbytes : (c.record t).committedBytes ctx = c.committedBytes ctx ++ ctx.decodeOne [t] := by
    simp [committedBytes, record]
  rw [hbytes, whole_append, h.decoded]
  rfl

theorem Told.of_eq {stops : List Text} {seen : Text} (h : c.Told stops seen)
    (hdone : c'.done = c.done) (hfinish : c'.finish = c.finish) (hout : c'.output = c.output)
    (hmatcher : c'.matcher = c.matcher) : c'.Told stops seen := by
  cases h with
  | cut hd hf hr ho hp =>
    exact .cut (hdone.trans hd) (hfinish.trans hf) hr (hout.trans ho) (hmatcher ▸ hp)
  | whole hd hf ho hp =>
    exact .whole (hdone.trans hd) (hfinish ▸ hf) (hout.trans ho) (hmatcher ▸ hp)
  | withheld hf hh =>
    refine .withheld (hfinish ▸ hf) ?_
    rw [hmatcher, hout]
    exact hh

theorem Telling.rebase {seen : Text} (h : Telling ctx c seen) (s : S) (l : L) (n : ℕ)
    (q : List (ℕ × P)) : Telling ctx (c.rebase s l n q) seen :=
  ⟨h.decoded, h.stops, h.told.of_eq rfl rfl rfl rfl⟩

/-- While a completion runs, the matcher holds what is not out. -/
theorem Telling.holds {seen : Text} (h : Telling ctx c seen) (hd : c.done = false) :
    (∀ s, c.finish ≠ .stopSequence s) ∧ c.matcher.Holds c.output seen := by
  cases h.told with
  | cut hdone => exact absurd hdone (by simp [hd])
  | whole hdone => exact absurd hdone (by simp [hd])
  | withheld hf hh => exact ⟨hf, hh⟩

/-- Ending for another reason than a stop string leaves what is withheld. -/
theorem Telling.stop {seen : Text} (h : Telling ctx c seen) (hd : c.done = false)
    {reason : FinishReason} (hr : ∀ s, reason ≠ .stopSequence s) :
    Telling ctx (c.stop reason) seen :=
  ⟨h.decoded, h.stops, .withheld hr (h.holds hd).2⟩

theorem Telling.pushText {seen : Text} (h : Telling ctx c seen) (hd : c.done = false) (t : ℕ) :
    ∃ seen', (∀ c', (c.record t).pushText ctx t = (.continue, c') → Telling ctx c' seen') ∧
      ∀ reason c', (c.record t).pushText ctx t = (.stopped reason, c') →
        Telling ctx (c'.stop reason) seen' := by
  obtain ⟨hfinish, hh⟩ := h.holds hd
  have hdecoded := h.decoded_push t
  generalize hpiece : c.utf8.push (ctx.decodeOne [t]) = piece at hdecoded
  refine ⟨seen ++ piece.1, ?_⟩
  unfold ChoiceStream.pushText
  rw [show (c.record t).utf8 = c.utf8 from rfl, hpiece,
    show (c.record t).matcher = c.matcher from rfl]
  cases hm : earliestStopMatch (seen ++ piece.1) c.matcher.stops with
  | some best =>
    obtain ⟨i, s⟩ := best
    have hr := reported_of_earliest hm
    obtain ⟨text, m', hpush, htext⟩ := hh.push_matched hr
    obtain ⟨hstops, hpending⟩ := StopMatcher.matched_fields hpush
    dsimp only
    rw [hpush]
    refine ⟨fun _ hc => (nomatch hc), fun reason c' hc => ?_⟩
    obtain ⟨hreason, rfl⟩ := Prod.mk.inj hc
    obtain rfl := Committed.stopped.inj hreason
    rw [h.stops] at hr
    refine ⟨hdecoded, hstops.trans h.stops, .cut rfl rfl hr ?_ hpending⟩
    exact (output_show _).trans htext
  | none =>
    obtain ⟨text, m', hpush, hstops, hh'⟩ := hh.push_unmatched (earliest_none_iff.mp hm)
    dsimp only
    rw [hpush]
    refine ⟨fun c' hc => ?_, fun reason c' hc => (nomatch hc)⟩
    obtain ⟨-, rfl⟩ := Prod.mk.inj hc
    refine ⟨hdecoded, hstops.trans h.stops, .withheld hfinish ?_⟩
    rw [output_show]
    exact hh'

/-- What a kept end marker leaves: everything withheld is out. -/
theorem Telling.pushLast {seen : Text} (h : Telling ctx c seen) (hd : c.done = false) (t : ℕ) :
    ∃ seen', Telling ctx (((c.record t).pushLast ctx t).stop .stop) seen' := by
  have hseen := (h.holds hd).2.seen_eq
  refine ⟨_, h.decoded_push t, h.stops, .whole rfl (fun _ hs => nomatch hs) ?_ rfl⟩
  rw [hseen, List.append_assoc]
  exact output_emit _

theorem Telling.commit {seen : Text} (h : Telling ctx c seen) (hd : c.done = false) (t : ℕ) :
    (∀ c', c.commit ctx t = (.continue, c') → ∃ seen', Telling ctx c' seen') ∧
      ∀ reason c', c.commit ctx t = (.stopped reason, c') →
        ∃ seen', Telling ctx (c'.stop reason) seen' := by
  unfold ChoiceStream.commit
  split
  · refine ⟨fun _ hc => (nomatch (Prod.mk.inj hc).1), fun reason c' hc => ?_⟩
    obtain ⟨hreason, rfl⟩ := Prod.mk.inj hc
    obtain rfl := Committed.stopped.inj hreason
    split
    · exact h.pushLast hd t
    · exact ⟨seen, h.stop hd fun _ hs => nomatch hs⟩
  · split
    · refine ⟨fun _ hc => (nomatch (Prod.mk.inj hc).1), fun reason c' hc => ?_⟩
      obtain ⟨hreason, rfl⟩ := Prod.mk.inj hc
      obtain rfl := Committed.stopped.inj hreason
      exact ⟨seen, h.stop hd fun _ hs => nomatch hs⟩
    · obtain ⟨seen', hcontinue, hstopped⟩ := h.pushText hd t
      exact ⟨fun c' hc => ⟨seen', hcontinue c' hc⟩, fun reason c' hc => ⟨seen', hstopped reason c' hc⟩⟩

theorem Telling.move {seen : Text} (h : Telling ctx c seen) (hm : Move ctx c c') :
    ∃ seen', Telling ctx c' seen' := by
  cases hm with
  | budget =>
    unfold ChoiceStream.checkBudget
    split
    · exact ⟨seen, h⟩
    · rename_i hd
      have hd : c.done = false := by simpa using hd
      split
      · exact ⟨seen, h.stop hd fun _ hs => nomatch hs⟩
      · split
        · exact ⟨seen, h.stop hd fun _ hs => nomatch hs⟩
        · exact ⟨seen, h⟩
  | complete hd => exact ⟨seen, h.stop hd fun _ hs => nomatch hs⟩
  | commit s l n q hd hc =>
    obtain ⟨seen', h'⟩ := (h.commit hd _).1 _ hc
    exact ⟨seen', h'.rebase s l n q⟩
  | stopped hd hc => exact (h.commit hd _).2 _ _ hc

theorem Runs.telling (h : Runs ctx c) : ∃ seen, Telling ctx c seen := by
  obtain ⟨logits, pos, hr⟩ := h
  induction hr with
  | refl => exact ⟨[], telling_new ctx logits pos⟩
  | tail _ hm ih =>
    obtain ⟨seen, hseen⟩ := ih
    exact hseen.move hm

section Flush

theorem push_some {m : StopMatcher} {piece s : Text} {k : ℕ}
    (h : earliestStopMatch (m.pending ++ piece) m.stops = some (k, s)) :
    (m.push piece).1.text = (m.pending ++ piece).take k ∧ (m.push piece).2.pending = [] := by
  have hstops : m.stops.isEmpty = false := by
    cases hs : m.stops with
    | nil => rw [hs] at h; cases h
    | cons => rfl
  unfold StopMatcher.push
  rw [hstops, if_neg Bool.false_ne_true]
  dsimp only
  rw [h]
  exact ⟨rfl, rfl⟩

theorem push_none {m : StopMatcher} {piece : Text} (hidle : m.stops = [] → m.pending = [])
    (h : earliestStopMatch (m.pending ++ piece) m.stops = none) :
    (m.push piece).1.text ++ (m.push piece).2.pending = m.pending ++ piece := by
  unfold StopMatcher.push
  split
  · rename_i hs
    have hpending := hidle (List.isEmpty_iff.mp hs)
    show piece ++ m.pending = m.pending ++ piece
    rw [hpending, List.append_nil, List.nil_append]
  · dsimp only
    rw [h]
    exact List.take_append_drop _ _

/-- Only texts that are not empty are emitted. -/
theorem emit_grows (c : ChoiceStream S L P) (text : Text) :
    ∃ texts : List Text, (c.emit text).emitted = c.emitted ++ texts ∧ [] ∉ texts := by
  unfold emit
  cases text with
  | nil => exact ⟨[], by simp, by simp⟩
  | cons char text => exact ⟨[char :: text], by simp, by simp⟩

theorem flush_grows (c : ChoiceStream S L P) :
    ∃ texts : List Text, c.flush.emitted = c.emitted ++ texts ∧ [] ∉ texts := by
  have hutf8 : ∃ texts : List Text, c.flushUtf8.emitted = c.emitted ++ texts ∧ [] ∉ texts := by
    unfold flushUtf8
    dsimp only
    split
    · exact ⟨[], by simp, by simp⟩
    · exact emit_grows _ _
  obtain ⟨texts, htexts, hne⟩ := hutf8
  obtain ⟨texts', htexts', hne'⟩ := emit_grows
    ({ c.flushUtf8 with matcher := c.flushUtf8.matcher.flush.2 } : ChoiceStream S L P)
    c.flushUtf8.matcher.flush.1
  refine ⟨texts ++ texts', ?_, by simp [hne, hne']⟩
  rw [← List.append_assoc, ← htexts]
  exact htexts'

/-- A flush that adds no text emits nothing. -/
theorem flush_emitted (h : c.flush.output = c.output) : c.flush.emitted = c.emitted := by
  obtain ⟨texts, htexts, hne⟩ := flush_grows c
  unfold output at h
  rw [htexts, List.flatten_append] at h
  have hnil := List.self_eq_append_right.mp h.symm
  cases texts with
  | nil => rw [htexts, List.append_nil]
  | cons text texts =>
    rw [List.flatten_cons, List.append_eq_nil_iff] at hnil
    exact absurd (hnil.1 ▸ List.mem_cons_self) hne

theorem flush_of_whole (h : c.utf8.pending = []) :
    c.flush.output = c.output ++ c.matcher.pending := by
  have hflush : c.flushUtf8 = c := by
    unfold flushUtf8
    rw [Utf8Stream.flush_eq, h]
    obtain ⟨_, ⟨pending⟩, _⟩ := c
    cases h
    rfl
  unfold flush
  rw [hflush]
  exact output_emit _

theorem flush_of_partial (h : c.utf8.pending ≠ []) :
    c.flush.output = c.output ++ ((c.matcher.push [REPLACEMENT]).1.text ++
      (c.matcher.push [REPLACEMENT]).2.pending) := by
  have htail : c.utf8.flush = ([REPLACEMENT], ⟨[]⟩) := by
    rw [Utf8Stream.flush_eq, replaced, if_neg (by simpa using h)]
  unfold flush flushUtf8
  rw [htail]
  dsimp only
  rw [if_neg (by simp)]
  refine (output_emit _).trans ?_
  rw [← List.append_assoc]
  exact congrArg (· ++ (c.matcher.push [REPLACEMENT]).2.pending) (output_show _)

end Flush

/-- The answer ends at the stop, shows no stop, and nothing follows; or it is all the text. -/
def Exact (ctx : StepContext S L P E) (c : ChoiceStream S L P) : Prop :=
  let lossy := (fromUtf8Lossy (c.committedBytes ctx)).toList
  match c.finish with
  | .stopSequence s =>
      (∃ i, StopAt ctx.params.stop lossy i s ∧ c.flush.output = lossy.take i) ∧
        (∀ i t, ¬ StopAt ctx.params.stop c.flush.output i t) ∧ c.flush.emitted = c.emitted
  | _ => c.flush.output = lossy

/-- The replacement of an unfinished character completes a stop string. -/
def ReplacementStops (ctx : StepContext S L P E) (c : ChoiceStream S L P) : Prop :=
  ∃ i s, StopAt ctx.params.stop (c.matcher.pending ++ [REPLACEMENT]) i s

theorem Telling.lossy {seen : Text} (h : Telling ctx c seen) :
    (fromUtf8Lossy (c.committedBytes ctx)).toList = seen ++ replaced c.utf8.pending := by
  rw [fromUtf8Lossy_eq, String.toList_ofList, lossy_whole, h.decoded]

theorem Telling.replacementStops_iff {seen : Text} (h : Telling ctx c seen) :
    c.ReplacementStops ctx ↔
      earliestStopMatch (c.matcher.pending ++ [REPLACEMENT]) c.matcher.stops ≠ none := by
  rw [Ne, earliest_none_iff, h.stops]
  simp only [stopAt_filter, ReplacementStops, not_forall, not_not]

theorem exact_stopSequence {s : Text} (h : c.finish = .stopSequence s) :
    c.Exact ctx ↔
      (∃ i, StopAt ctx.params.stop (fromUtf8Lossy (c.committedBytes ctx)).toList i s ∧
        c.flush.output = (fromUtf8Lossy (c.committedBytes ctx)).toList.take i) ∧
      (∀ i t, ¬ StopAt ctx.params.stop c.flush.output i t) ∧ c.flush.emitted = c.emitted := by
  unfold Exact
  dsimp only
  rw [h]

theorem exact_other (h : ∀ s, c.finish ≠ .stopSequence s) :
    c.Exact ctx ↔ c.flush.output = (fromUtf8Lossy (c.committedBytes ctx)).toList := by
  unfold Exact
  dsimp only
  split
  · rename_i s hs
    exact absurd hs (h s)
  · rfl

/-- Nothing may follow the cut: the replacement of an unfinished character has to be a stop
string itself. -/
theorem Telling.exact_cut {seen : Text} (h : Telling ctx c seen) {i : ℕ} {s : Text}
    (hf : c.finish = .stopSequence s) (hr : Reported ctx.params.stop seen i s)
    (hout : c.output = seen.take i) (hp : c.matcher.pending = []) :
    c.Exact ctx ↔ c.utf8.pending = [] ∨ c.ReplacementStops ctx := by
  have hlen := hr.1.length_le
  have htake : (seen ++ replaced c.utf8.pending).take i = seen.take i :=
    List.take_append_of_le_length (by omega)
  have hclean : ∀ j t, ¬ StopAt ctx.params.stop (seen.take i) j t := by
    intro j t ht
    have hshort := ht.length_le
    have hpos := List.length_pos_of_ne_nil ht.2.1
    rw [List.length_take] at hshort
    have hseen : StopAt ctx.params.stop seen j t := by
      have := ht.append (seen.drop i)
      rwa [List.take_append_drop] at this
    have := hr.2 j t hseen
    omega
  have hkept : c.flush.output = c.output → c.Exact ctx := by
    intro hflush
    rw [exact_stopSequence hf, h.lossy, flush_emitted hflush, hflush, hout]
    exact ⟨⟨i, hr.1.append _, htake.symm⟩, hclean, rfl⟩
  by_cases hw : c.utf8.pending = []
  · refine iff_of_true (hkept ?_) (Or.inl hw)
    rw [flush_of_whole hw, hp, List.append_nil]
  · rw [or_iff_right hw, h.replacementStops_iff]
    have hflush := flush_of_partial hw
    cases hm : earliestStopMatch (c.matcher.pending ++ [REPLACEMENT]) c.matcher.stops with
    | some best =>
      obtain ⟨k, t⟩ := best
      have hk := (reported_of_earliest hm).1
      have hshort := hk.length_le
      have hpos := List.length_pos_of_ne_nil hk.2.1
      obtain ⟨htext, hpending⟩ := push_some hm
      rw [hp, List.nil_append, List.length_singleton] at hshort
      obtain rfl : k = 0 := by omega
      refine iff_of_true (hkept ?_) (Option.some_ne_none _)
      rw [hflush, htext, hpending, List.take_zero, List.append_nil, List.append_nil]
    | none =>
      have hidle : c.matcher.stops = [] → c.matcher.pending = [] := fun _ => hp
      rw [push_none hidle hm, hp, List.nil_append] at hflush
      refine iff_of_false (fun hexact => ?_) (fun hne => hne rfl)
      have hemitted := ((exact_stopSequence hf).mp hexact).2.2
      have := congrArg List.length (congrArg List.flatten hemitted)
      rw [show c.flush.emitted.flatten = _ from hflush, List.length_append] at this
      exact absurd this (by simp [output])

/-- Everything that was withheld is text of the answer, if the replacement completes no stop. -/
theorem Telling.exact_rest {seen : Text} (h : Telling ctx c seen)
    (hf : ∀ s, c.finish ≠ .stopSequence s) (hout : c.output ++ c.matcher.pending = seen)
    (hidle : c.matcher.stops = [] → c.matcher.pending = []) :
    c.Exact ctx ↔ c.utf8.pending = [] ∨ ¬ c.ReplacementStops ctx := by
  rw [exact_other hf, h.lossy]
  by_cases hw : c.utf8.pending = []
  · refine iff_of_true ?_ (Or.inl hw)
    rw [flush_of_whole hw, hout, hw]
    exact (List.append_nil seen).symm
  · rw [or_iff_right hw, h.replacementStops_iff, not_not, flush_of_partial hw, replaced,
      if_neg (by simpa using hw), ← hout, List.append_assoc, List.append_cancel_left_eq]
    cases hm : earliestStopMatch (c.matcher.pending ++ [REPLACEMENT]) c.matcher.stops with
    | some best =>
      obtain ⟨k, t⟩ := best
      have hk := (reported_of_earliest hm).1
      have hshort := hk.length_le
      have hpos := List.length_pos_of_ne_nil hk.2.1
      obtain ⟨htext, hpending⟩ := push_some hm
      refine iff_of_false (fun heq => ?_) (fun hne => nomatch hne)
      rw [htext, hpending, List.append_nil] at heq
      have := congrArg List.length heq
      rw [List.length_take] at this
      omega
    | none => exact iff_of_true (push_none hidle hm) rfl

/-- The answer is exact unless a character is left unfinished at the end, and its replacement
completes a stop string of an answer that no stop ended, or completes none of one that a stop did
end. -/
theorem answer_exact_iff (h : Runs ctx c) : c.Exact ctx ↔
    c.utf8.pending = [] ∨ (c.ReplacementStops ctx ↔ ∃ s, c.finish = .stopSequence s) := by
  obtain ⟨seen, htelling⟩ := h.telling
  cases htelling.told with
  | @cut i s _ hf hr hout hp =>
    have hstop : ∃ s, c.finish = .stopSequence s := ⟨s, hf⟩
    rw [htelling.exact_cut hf (reported_filter.mp hr) hout hp]
    simp only [hstop, iff_true]
  | whole _ hf hout hp =>
    have hother : ¬ ∃ s, c.finish = .stopSequence s := fun ⟨s, hs⟩ => hf s hs
    rw [htelling.exact_rest hf (by rw [hout, hp, List.append_nil]) fun _ => hp]
    simp only [hother, iff_false]
  | withheld hf hh =>
    have hother : ¬ ∃ s, c.finish = .stopSequence s := fun ⟨s, hs⟩ => hf s hs
    rw [htelling.exact_rest hf hh.seen_eq.symm hh.idle]
    simp only [hother, iff_false]

/-- A vocabulary of one token, and the stop string `b`. -/
def oneToken (bytes : List UInt8) : StepContext Unit Unit Unit Unit where
  params := ⟨0, 1, [['b']], [], false, false, false⟩
  promptIds := []
  stopTokens := []
  decodeOne := fun _ => bytes
  newState := fun _ => ()
  sampleNext := fun _ _ _ _ => .ok (.token 0 none, ())

/-- The completion that ends with the first token. -/
def stoppedAtOnce (bytes : List UInt8) : ChoiceStream Unit Unit Unit :=
  ((ChoiceStream.new (oneToken bytes) () 0).commit (oneToken bytes) 0).2.stop
    (.stopSequence ['b'])

theorem runs_stoppedAtOnce {bytes : List UInt8}
    (h : ((ChoiceStream.new (oneToken bytes) () 0).commit (oneToken bytes) 0).1 =
      .stopped (.stopSequence ['b'])) : Runs (oneToken bytes) (stoppedAtOnce bytes) := by
  have hstep : (ChoiceStream.new (oneToken bytes) () 0).commit (oneToken bytes) 0 =
      (.stopped (.stopSequence ['b']),
        ((ChoiceStream.new (oneToken bytes) () 0).commit (oneToken bytes) 0).2) := Prod.ext h rfl
  exact ⟨(), 0, .single (.stopped rfl hstep)⟩

theorem answer_exact_ab : (stoppedAtOnce [0x61, 0x62]).Exact (oneToken [0x61, 0x62]) :=
  (answer_exact_iff (runs_stoppedAtOnce (by decide))).mpr (Or.inl (by decide))

theorem answer_not_exact : ¬ ∀ (ctx : StepContext Unit Unit Unit Unit)
    (c : ChoiceStream Unit Unit Unit), Runs ctx c → c.done = true → c.Exact ctx := by
  intro h
  have hexact := h (oneToken [0x62, 0xF0]) (stoppedAtOnce [0x62, 0xF0])
    (runs_stoppedAtOnce (by decide)) rfl
  have hemitted := ((exact_stopSequence (s := ['b']) rfl).mp hexact).2.2
  revert hemitted
  decide

end ChoiceStream

end Frink.Decode
