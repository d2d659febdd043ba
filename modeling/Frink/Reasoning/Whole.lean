import Frink.Reasoning.Parser
import Frink.Reasoning.Search

/-! # The split loses nothing

Written out in order, the deltas are the text without the markers that were taken out of it.
`Stripped` says which those may be: one opener at most, and for each block entered one closer with
the white space in front of it.
-/

namespace Frink.Reasoning
open Decode
open Tool (isWhitespace trim trimStart trimEnd stripPrefix contains byteLen)

/-- `out` is `text` without its removed markers. The flags say whether the opener has been removed
already and whether a block is open; an opener enters a block from wherever the parser stands, a
closer leaves it. -/
inductive Stripped (m : Markers) : Bool → Bool → Text → Text → Prop
  | done {opened inside : Bool} : Stripped m opened inside [] []
  | keep {opened inside : Bool} {text out : Text} (c : Char) (h : Stripped m opened inside text out) :
      Stripped m opened inside (c :: text) (c :: out)
  | opener {inside : Bool} {before after out : Text} (h : Stripped m true true (before ++ after) out) :
      Stripped m false inside (before ++ m.start ++ after) out
  | closer {opened : Bool} {ws after out : Text} (hws : Blank ws)
      (h : Stripped m opened false after out) : Stripped m opened true (ws ++ m.end_ ++ after) out

/-- What may be written out of a text: it stripped, or stripped after a bare closer at its head,
which ends the block that the template of the adaptive family may have opened. -/
def Yields (format : ReasoningFormat) (forceReasoning : Bool) (text out : Text) : Prop :=
  Stripped format.markers false (forceReasoning || format.markers.alwaysOpen) text out ∨
    format = .miniMaxM3 ∧ forceReasoning = false ∧ ∃ ws rest, Blank ws ∧
      text = ws ++ format.markers.end_ ++ rest ∧ Stripped format.markers false false rest out

namespace Stripped

variable {m : Markers} {opened inside : Bool} {text out rest : Text}

theorem keep_all (kept : Text) (h : Stripped m opened inside text out) :
    Stripped m opened inside (kept ++ text) (kept ++ out) := by
  induction kept with
  | nil => exact h
  | cons c kept ih => exact .keep c ih

theorem refl (m : Markers) (opened inside : Bool) (text : Text) :
    Stripped m opened inside text text := by
  have h : Stripped m opened inside (text ++ []) (text ++ []) := keep_all text .done
  rwa [List.append_nil] at h

/-- What can be written out of a block's outside can be written out of its inside. -/
theorem enter (h : Stripped m opened false text out) : Stripped m opened true text out := by
  generalize hi : false = inside at h
  induction h with
  | done => exact .done
  | keep c _ ih => exact .keep c (ih hi)
  | opener h => exact .opener h
  | closer => cases hi

/-- A text without either marker is written out whole. -/
theorem eq_of_no_marker (hs : ¬ m.start <:+: text) (he : ¬ m.end_ <:+: text)
    (h : Stripped m opened inside text out) : out = text := by
  induction h with
  | done => rfl
  | keep c _ ih =>
    rw [ih (fun ht => hs (ht.trans (List.suffix_cons c _).isInfix))
      (fun ht => he (ht.trans (List.suffix_cons c _).isInfix))]
  | opener => exact absurd ⟨_, _, rfl⟩ hs
  | closer => exact absurd ⟨_, _, rfl⟩ he

end Stripped

namespace ReasoningParser

/-- A step of `p`, to a delta and the parser after it: whatever can be written out of what is left,
with the delta in front of it can be written out of the whole. -/
structure Passes (p : ReasoningParser) (r : ReasoningDelta × ReasoningParser) : Prop where

  format_eq : r.2.format = p.format

  pending_eq : r.2.leadingCloserPending = p.leadingCloserPending

  stripped : ∀ rest out, Stripped p.markers r.2.strippedStart r.2.inReasoning (r.2.buffer ++ rest) out →
    Stripped p.markers p.strippedStart p.inReasoning (p.buffer ++ rest) (r.1.written ++ out)

variable {p : ReasoningParser}

theorem stripStart_passes : p.Passes ({}, p.stripStart) := by
  unfold stripStart
  split
  · exact ⟨rfl, rfl, fun _ _ h => h⟩
  · rename_i hs
    split
    · exact ⟨rfl, rfl, fun _ _ h => h⟩
    · rename_i index hf
      refine ⟨rfl, rfl, fun rest out h => ?_⟩
      have hstripped : p.strippedStart = false := by
        cases hp : p.strippedStart with
        | false => rfl
        | true => simp [hp] at hs
      rw [List.append_assoc] at h
      rw [findText_split hf, hstripped, List.append_assoc, List.append_assoc, ← List.append_assoc]
      exact .opener h

theorem releaseSafe_passes : p.Passes p.releaseSafe := by
  unfold releaseSafe
  have hkeep : ∀ rest out : Text, Stripped p.markers p.strippedStart p.inReasoning
      (p.buffer.drop (p.buffer.length - p.trailingPartialLen) ++ rest) out →
      Stripped p.markers p.strippedStart p.inReasoning (p.buffer ++ rest)
        (p.buffer.take (p.buffer.length - p.trailingPartialLen) ++ out) := by
    intro rest out h
    have := Stripped.keep_all (p.buffer.take (p.buffer.length - p.trailingPartialLen)) h
    rwa [← List.append_assoc, List.take_append_drop] at this
  dsimp only
  split
  · exact ⟨rfl, rfl, fun _ _ h => h⟩
  · split
    · refine ⟨rfl, rfl, fun rest out h => ?_⟩
      rw [ReasoningDelta.written, List.append_nil]
      exact hkeep rest out h
    · exact ⟨rfl, rfl, hkeep⟩

theorem holdTool_passes (hin : p.inReasoning = true) (tool : Text) : p.Passes (p.holdTool tool) := by
  unfold holdTool
  split
  · exact releaseSafe_passes
  · rename_i index _
    dsimp only
    split
    · refine ⟨rfl, rfl, fun rest out h => ?_⟩
      have := Stripped.keep_all p.buffer h.enter
      rw [ReasoningDelta.written, List.take_append_drop, hin]
      exact this
    · refine ⟨rfl, rfl, fun rest out h => ?_⟩
      have := Stripped.keep_all (p.buffer.take index) h
      rw [← List.append_assoc, List.take_append_drop] at this
      rw [ReasoningDelta.written, List.append_nil]
      exact this

theorem insideBlock_passes (hin : p.inReasoning = true) : p.Passes p.insideBlock := by
  unfold insideBlock
  split
  · rename_i finish hf
    refine ⟨rfl, rfl, fun rest out h => ?_⟩
    have hfind : findText p.markers.end_ p.buffer = some finish := by
      split at hf
      · cases hf
      · exact hf
    obtain ⟨ws, hws, hsplit⟩ := exists_trimEnd (p.buffer.take finish)
    have htail : Stripped p.markers p.strippedStart false
        (p.buffer.drop (finish + p.markers.end_.length) ++ rest)
        (p.buffer.drop (finish + p.markers.end_.length) ++ out) := Stripped.keep_all _ h
    have hblock := Stripped.keep_all (trimEnd (p.buffer.take finish)) (htail.closer hws)
    have hwhole : p.buffer ++ rest = trimEnd (p.buffer.take finish) ++ (ws ++ p.markers.end_ ++
        (p.buffer.drop (finish + p.markers.end_.length) ++ rest)) := by
      conv_lhs => rw [findText_split hfind, hsplit]
      simp only [List.append_assoc]
    rw [hwhole, hin]
    simpa only [ReasoningDelta.written, List.append_assoc] using hblock
  · split
    · exact holdTool_passes hin _
    · exact releaseSafe_passes

theorem Passes.markers_eq {r : ReasoningDelta × ReasoningParser} (h : p.Passes r) :
    r.2.markers = p.markers := congrArg ReasoningFormat.markers h.format_eq

theorem Passes.after {q : ReasoningParser} {r : ReasoningDelta × ReasoningParser}
    (hq : p.Passes ({}, q)) (h : q.Passes r) : p.Passes r where

  format_eq := h.format_eq.trans hq.format_eq
  pending_eq := h.pending_eq.trans hq.pending_eq
  stripped rest out hr := by
    apply hq.stripped rest
    rw [← hq.markers_eq] at hr ⊢
    exact h.stripped rest out hr

theorem pushMarker_passes (chunk : Text) :
    { p with buffer := p.buffer ++ chunk }.Passes (p.pushMarker chunk) := by
  apply Passes.after stripStart_passes
  unfold pushMarker
  dsimp only
  split
  · rename_i hin
    exact insideBlock_passes hin
  · exact releaseSafe_passes

/-- The last of a stream is what is still buffered. -/
theorem flushBuffer_written : p.flushBuffer.1.written = p.buffer := by
  unfold flushBuffer
  dsimp only
  split
  · rename_i hempty
    exact (List.isEmpty_iff.mp hempty).symm
  · split
    · rfl
    · split
      · exact List.append_nil _
      · rfl

theorem flushBuffer_outside (h : p.inReasoning = false) : p.flushBuffer.1.reasoning = [] := by
  unfold flushBuffer
  dsimp only
  split
  · rfl
  · split
    · rfl
    · rw [h]
      rfl

/-- A step that puts out content leaves the parser outside a block. -/
def Settles (r : ReasoningDelta × ReasoningParser) : Prop :=
  r.1.content = [] ∨ r.2.inReasoning = false

theorem releaseSafe_settles : Settles p.releaseSafe := by
  unfold releaseSafe
  dsimp only
  split
  · exact .inl rfl
  · split
    · exact .inl rfl
    · rename_i hin
      exact .inr (Bool.eq_false_iff.mpr hin)

theorem pushMarker_settles (chunk : Text) : Settles (p.pushMarker chunk) := by
  unfold pushMarker
  dsimp only
  split
  · unfold insideBlock
    split
    · exact .inr rfl
    · split
      · unfold holdTool
        split
        · exact releaseSafe_settles
        · dsimp only
          split
          · exact .inr rfl
          · exact .inl rfl
      · exact releaseSafe_settles
  · exact releaseSafe_settles

/-- The whole stream written out. -/
def writtenOut (p : ReasoningParser) (chunks : List Text) : Text :=
  ((p.stream chunks).map ReasoningDelta.written).flatten

theorem writtenOut_cons (p : ReasoningParser) (chunk : Text) (chunks : List Text) :
    p.writtenOut (chunk :: chunks) =
      (p.push chunk).1.written ++ (p.push chunk).2.writtenOut chunks := rfl

theorem push_eq (hf : p.format ≠ .gptOss) (hp : p.leadingCloserPending = false) (chunk : Text) :
    p.push chunk = p.pushMarker chunk := by
  rw [push, if_neg (by simpa using hf), hp]
  rfl

theorem flush_eq (hf : p.format ≠ .gptOss) (hp : p.leadingCloserPending = false) :
    p.flush = p.flushBuffer := by
  rw [flush, if_neg (by simpa using hf), hp]
  rfl

/-- Once the head of the stream is decided, it is written out stripped. -/
theorem writtenOut_stripped (hf : p.format ≠ .gptOss) (hp : p.leadingCloserPending = false)
    (chunks : List Text) : Stripped p.markers p.strippedStart p.inReasoning
      (p.buffer ++ chunks.flatten) (p.writtenOut chunks) := by
  induction chunks generalizing p with
  | nil =>
    have h := Stripped.refl p.markers p.strippedStart p.inReasoning p.buffer
    rw [writtenOut, stream, List.map_singleton, List.flatten_singleton, flush_eq hf hp,
      flushBuffer_written]
    rwa [List.flatten_nil, List.append_nil]
  | cons chunk chunks ih =>
    have hstep := pushMarker_passes (p := p) chunk
    have hrest := ih (p := (p.pushMarker chunk).2) (hstep.format_eq.symm ▸ hf)
      (hstep.pending_eq.trans hp)
    rw [hstep.markers_eq] at hrest
    rw [writtenOut_cons, push_eq hf hp, List.flatten_cons, ← List.append_assoc]
    exact hstep.stripped _ _ hrest

/-- The parser of a stream whose head may still turn out to be a bare closer. -/
structure Undecided (p : ReasoningParser) : Prop where

  format_eq : p.format = .miniMaxM3

  pending : p.leadingCloserPending = true

  buffer_eq : p.buffer = []

  unstripped : p.strippedStart = false

  outside : p.inReasoning = false

theorem stripPrefix_trimStart {t m rest : Text} (h : stripPrefix (trimStart t) m = some rest) :
    ∃ ws, Blank ws ∧ t = ws ++ m ++ rest := by
  obtain ⟨ws, hws, ht⟩ := exists_trimStart t
  refine ⟨ws, hws, ?_⟩
  rw [List.append_assoc, ← Tool.stripPrefix_spec h]
  exact ht

/-- The same parser with its head decided. -/
def decided (p : ReasoningParser) : ReasoningParser :=
  { p with headBuffer := [], leadingCloserPending := false }

theorem written_append {d e : ReasoningDelta} (h : d.content = [] ∨ e.reasoning = []) :
    (d ++ e).written = d.written ++ e.written := by
  simp only [ReasoningDelta.written, ReasoningDelta.append_reasoning, ReasoningDelta.append_content]
  rcases h with h | h <;> simp [h]

theorem Undecided.decided_stripped (h : p.Undecided) (chunks : List Text) :
    Stripped p.markers false false chunks.flatten (p.decided.writtenOut chunks) := by
  have hfmt : p.decided.format ≠ .gptOss := by
    rw [decided, h.format_eq]
    decide
  have hrun := writtenOut_stripped hfmt rfl chunks
  have hbuffer : p.decided.buffer = [] := h.buffer_eq
  have hopened : p.decided.strippedStart = false := h.unstripped
  have hinside : p.decided.inReasoning = false := h.outside
  rwa [hbuffer, hopened, hinside] at hrun

/-- A head that is still held at the end goes through the parser like any other text. -/
theorem Undecided.flush_written (h : p.Undecided) (hhead : p.headBuffer ≠ []) :
    p.flush.1.written = p.decided.writtenOut [p.headBuffer] := by
  have hfmt : p.format ≠ .gptOss := by
    rw [h.format_eq]
    decide
  have hstep := pushMarker_passes (p := p.decided) p.headBuffer
  have hsettles : (p.decided.pushMarker p.headBuffer).1.content = [] ∨
      (p.decided.pushMarker p.headBuffer).2.flushBuffer.1.reasoning = [] :=
    (pushMarker_settles (p := p.decided) p.headBuffer).imp_right flushBuffer_outside
  have hlast : (p.decided.pushMarker p.headBuffer).2.flush =
      (p.decided.pushMarker p.headBuffer).2.flushBuffer :=
    flush_eq (fun he => hfmt (hstep.format_eq.symm.trans he)) hstep.pending_eq
  rw [writtenOut_cons, push_eq (p := p.decided) hfmt rfl, writtenOut, stream, List.map_singleton,
    List.flatten_singleton, hlast, flush, if_neg (by simpa using hfmt), h.pending]
  have hne : p.headBuffer.isEmpty = false := List.isEmpty_eq_false_iff.mpr hhead
  rw [hne, Bool.not_false, Bool.and_true, if_pos rfl]
  exact written_append hsettles

theorem writtenOut_undecided (h : p.Undecided) (chunks : List Text) :
    Stripped p.markers false false (p.headBuffer ++ chunks.flatten) (p.writtenOut chunks) ∨
      ∃ ws rest, Blank ws ∧ p.headBuffer ++ chunks.flatten = ws ++ p.markers.end_ ++ rest ∧
        Stripped p.markers false false rest (p.writtenOut chunks) := by
  have hfmt : p.format ≠ .gptOss := by simp [h.format_eq]
  induction chunks generalizing p with
  | nil =>
    left
    rw [writtenOut, stream, List.map_singleton, List.flatten_singleton, List.flatten_nil,
      List.append_nil]
    by_cases hhead : p.headBuffer = []
    · rw [flush, if_neg (by simpa using hfmt), hhead, List.isEmpty_nil, Bool.not_true,
        Bool.and_false, if_neg Bool.false_ne_true, flushBuffer_written, h.buffer_eq]
      exact .done
    · have hrun := h.decided_stripped [p.headBuffer]
      rwa [← h.flush_written hhead, List.flatten_singleton] at hrun
  | cons chunk chunks ih =>
    have hpush : p.push chunk = p.pushLeadingCloser chunk := by
      rw [push, if_neg (by simpa using hfmt), h.pending, if_pos rfl]
    rw [writtenOut_cons, hpush, pushLeadingCloser, List.flatten_cons, ← List.append_assoc]
    cases hs : stripPrefix (trimStart (p.headBuffer ++ chunk)) p.markers.end_ with
    | some rest =>
      right
      obtain ⟨ws, hws, hhead⟩ := stripPrefix_trimStart hs
      refine ⟨ws, rest ++ chunks.flatten, hws, ?_, ?_⟩
      · rw [hhead, List.append_assoc]
      · have hrun := h.decided_stripped (rest :: chunks)
        rw [writtenOut_cons, push_eq (p := p.decided) hfmt rfl] at hrun
        have heq : { p with headBuffer := [], leadingCloserPending := false, inReasoning := false } =
            p.decided := by simp [decided, h.outside]
        rw [heq]
        exact hrun
    | none =>
      dsimp only
      by_cases hheld : isPartialPrefix (trimStart (p.headBuffer ++ chunk)) p.markers.end_ = true
      · rw [if_pos hheld]
        exact ih (p := { p with headBuffer := p.headBuffer ++ chunk }) ⟨h.1, h.2, h.3, h.4, h.5⟩ hfmt
      · rw [if_neg hheld]
        left
        have hrun := h.decided_stripped ((p.headBuffer ++ chunk) :: chunks)
        rw [writtenOut_cons, push_eq (p := p.decided) hfmt rfl] at hrun
        exact hrun

end ReasoningParser

theorem Yields.eq_of_no_marker {format : ReasoningFormat} {force : Bool} {text out : Text}
    (h : Yields format force text out) (hs : ¬ format.markers.start <:+: text)
    (he : ¬ format.markers.end_ <:+: text) : out = text := by
  rcases h with h | ⟨-, -, ws, rest, -, rfl, -⟩
  · exact h.eq_of_no_marker hs he
  · exact absurd ⟨ws, rest, rfl⟩ he

open ReasoningParser in
/-- Over all pushes and the flush, the deltas written out in order are the text without the markers
taken out of it, and with nothing else removed, added or moved. -/
theorem split_loses_nothing (format : ReasoningFormat) (hf : format.delimited = true)
    (forceReasoning streamReasoning : Bool) (chunks : List Text) :
    Yields format forceReasoning chunks.flatten
        ((new format forceReasoning streamReasoning).writtenOut chunks) ∧
      (¬ format.markers.start <:+: chunks.flatten → ¬ format.markers.end_ <:+: chunks.flatten →
        (new format forceReasoning streamReasoning).writtenOut chunks = chunks.flatten) := by
  have hyields : Yields format forceReasoning chunks.flatten
      ((new format forceReasoning streamReasoning).writtenOut chunks) := by
    have hfmt : format ≠ .gptOss := by
      rintro rfl
      cases hf
    by_cases hp : (new format forceReasoning streamReasoning).leadingCloserPending = true
    · obtain ⟨hm3, hforce⟩ : format = .miniMaxM3 ∧
          (forceReasoning || format.markers.alwaysOpen) = false := by simpa [new] using hp
      have hf' := (Bool.or_eq_false_iff.mp hforce).1
      have hrun := writtenOut_undecided
        (p := new format forceReasoning streamReasoning) ⟨hm3, hp, rfl, rfl, hforce⟩ chunks
      rcases hrun with h | ⟨ws, rest, hws, htext, h⟩
      · left
        rw [hforce]
        exact h
      · exact Or.inr ⟨hm3, hf', ws, rest, hws, htext, h⟩
    · left
      exact writtenOut_stripped (p := new format forceReasoning streamReasoning) hfmt
        (Bool.eq_false_iff.mpr hp) chunks
  exact ⟨hyields, fun hs he => hyields.eq_of_no_marker hs he⟩

/-- A forced block, closed by a marker that arrives in two pieces. -/
theorem split_loses_nothing_think :
    ReasoningFormat.think.delimited = true ∧
      Yields .think true "mull </think>4".toList
        ((ReasoningParser.new .think true false).writtenOut
          ["mull </thi".toList, "nk>4".toList]) :=
  ⟨rfl, (split_loses_nothing .think rfl true false ["mull </thi".toList, "nk>4".toList]).1⟩

end Frink.Reasoning
