import Frink.Reasoning.Split
import Frink.Reasoning.Whole

/-! # The split and the cuts of the text

One induction on the chunks for each stage of a stream: outside for good, inside a block, before
the block, and at the head that may still be a bare closer. What a stage delivers is the split of
the text that is left, up to white space in front of the closer.
-/

namespace Frink.Reasoning
open Decode Occurs
open Tool (isWhitespace trim trimStart trimEnd stripPrefix contains byteLen)

/-- What is delivered is the split, less white space at the end of the reasoning. -/
def Delivers (whole d : ReasoningDelta) : Prop :=
  ∃ ws, Blank ws ∧ whole = ⟨d.reasoning ++ ws, d.content⟩

theorem Delivers.after {whole d : ReasoningDelta} (h : Delivers whole d) (x : Text) :
    Delivers (⟨x, []⟩ ++ whole) ({ reasoning := x } ++ d) := by
  obtain ⟨ws, hws, rfl⟩ := h
  refine ⟨ws, hws, ?_⟩
  ext1 <;> simp

theorem Delivers.trimmed_eq {whole d : ReasoningDelta} (h : Delivers whole d) :
    whole.trimmed = d.trimmed := by
  obtain ⟨ws, hws, rfl⟩ := h
  rw [ReasoningDelta.trimmed, ReasoningDelta.trimmed, trim_append_blank hws]

theorem byteLen_lt {x y : Text} (h : x <+: y) (hne : x.length < y.length) : byteLen x < byteLen y := by
  obtain ⟨z, rfl⟩ := h
  rw [byteLen_append]
  cases z with
  | nil => simp at hne
  | cons c z =>
    have hpos := Char.utf8Size_pos c
    simp only [byteLen, List.map_cons, List.sum_cons]
    omega

namespace ReasoningParser

variable {p : ReasoningParser} {i : ℕ}

section Stages

theorem stripStart_eq_self (hm : p.markers.Separate)
    (h : p.strippedStart = true ∨ ¬ p.markers.start <:+: p.buffer) : p.stripStart = p := by
  unfold stripStart
  rcases h with h | h
  · rw [h, Bool.true_or, if_pos rfl]
  · split
    · rfl
    · rw [(findText_eq_none_iff hm.start_solid.ne_nil).mpr h]

theorem stripStart_of_find (hm : p.markers.Separate) (hs : p.strippedStart = false)
    (hf : findText p.markers.start p.buffer = some i) : p.stripStart =
      { p with
        buffer := p.buffer.take i ++ p.buffer.drop (i + p.markers.start.length)
        strippedStart := true
        inReasoning := true } := by
  have hne : p.markers.start.isEmpty = false := List.isEmpty_eq_false_iff.mpr hm.start_solid.ne_nil
  rw [stripStart, hs, hne, Bool.or_false, if_neg Bool.false_ne_true, hf]

theorem releaseSafe_outside (h : p.inReasoning = false) : p.releaseSafe =
    ({ content := p.buffer.take (p.buffer.length - p.trailingPartialLen) },
      { p with buffer := p.buffer.drop (p.buffer.length - p.trailingPartialLen) }) := by
  simp [releaseSafe, h]

theorem releaseSafe_inside (h : p.inReasoning = true) (hs : p.streamReasoning = true) :
    p.releaseSafe =
    ({ reasoning := p.buffer.take (p.buffer.length - p.trailingPartialLen) },
      { p with buffer := p.buffer.drop (p.buffer.length - p.trailingPartialLen) }) := by
  simp [releaseSafe, h, hs]

theorem clear_released {pat : Text} (hne : pat ≠ []) (hmem : pat = p.markers.end_ ∨
    pat = p.markers.start ∧ p.strippedStart = false ∨ pat ∈ p.markers.toolStart)
    (h : ¬ pat <:+: p.buffer) (w : Text) :
    Clear pat (p.buffer.take (p.buffer.length - p.trailingPartialLen))
      (p.buffer.drop (p.buffer.length - p.trailingPartialLen) ++ w) := by
  apply clear_of_holdback _ h
  apply List.mem_filter.mpr
  refine ⟨?_, by simpa using hne⟩
  rcases hmem with rfl | ⟨rfl, hs⟩ | hmem
  · exact List.mem_cons_self
  · simp [hs]
  · simp [Option.mem_toList.mpr hmem]

theorem flushBuffer_delta : p.flushBuffer.1 =
    if p.buffer.isEmpty then {}
    else if p.markers.toolStart.any fun tool => tool.isPrefixOf (trimStart p.buffer) then
      { content := p.buffer }
    else if p.inReasoning then { reasoning := p.buffer } else { content := p.buffer } := by
  unfold flushBuffer
  rw [apply_ite Prod.fst, apply_ite Prod.fst, apply_ite Prod.fst]
  rfl

theorem flushBuffer_outside_eq (h : p.inReasoning = false) :
    p.flushBuffer.1 = { content := p.buffer } := by
  rw [flushBuffer_delta, h]
  split
  · rename_i hempty
    rw [List.isEmpty_iff.mp hempty]
  · split <;> rfl

/-- The three ways on from inside a block. -/
inductive Inward (p : ReasoningParser) : ReasoningDelta × ReasoningParser → Prop
  | closed (e : ℕ) (he : findText p.markers.end_ p.buffer = some e) :
      Inward p (⟨trimEnd (p.buffer.take e), p.buffer.drop (e + p.markers.end_.length)⟩,
        { p with buffer := [], inReasoning := false })
  | called (tool : Text) (a : ℕ) (hmem : tool ∈ p.markers.toolStart)
      (hend : ¬ p.markers.end_ <:+: p.buffer) (ha : findText tool p.buffer = some a)
      (hlong : TOOL_HOLD_MAX < byteLen (p.buffer.drop a)) :
      Inward p (⟨p.buffer.take a, p.buffer.drop a⟩, { p with buffer := [], inReasoning := false })
  | held (tool : Text) (a : ℕ) (hmem : tool ∈ p.markers.toolStart)
      (hend : ¬ p.markers.end_ <:+: p.buffer) (ha : findText tool p.buffer = some a) :
      Inward p ({ reasoning := p.buffer.take a }, { p with buffer := p.buffer.drop a })
  | released (hend : ¬ p.markers.end_ <:+: p.buffer)
      (htool : ∀ tool ∈ p.markers.toolStart, ¬ tool <:+: p.buffer) :
      Inward p ({ reasoning := p.buffer.take (p.buffer.length - p.trailingPartialLen) },
        { p with buffer := p.buffer.drop (p.buffer.length - p.trailingPartialLen) })

theorem insideBlock_inward (hm : p.markers.Separate) (hin : p.inReasoning = true)
    (hs : p.streamReasoning = true) : Inward p p.insideBlock := by
  have hne : p.markers.end_.isEmpty = false := List.isEmpty_eq_false_iff.mpr hm.end_solid.ne_nil
  unfold insideBlock
  rw [hne, if_neg Bool.false_ne_true]
  cases he : findText p.markers.end_ p.buffer with
  | some e => exact .closed e he
  | none =>
    have hend := (findText_eq_none_iff hm.end_solid.ne_nil).mp he
    dsimp only
    cases ht : p.markers.toolStart with
    | none =>
      dsimp only
      rw [releaseSafe_inside hin hs]
      apply Inward.released hend
      rw [ht]
      exact fun _ h => nomatch h
    | some tool =>
      dsimp only
      unfold holdTool
      cases ha : findText tool p.buffer with
      | none =>
        dsimp only
        rw [releaseSafe_inside hin hs]
        apply Inward.released hend
        rw [ht]
        rintro _ ⟨⟩
        exact (findText_eq_none_iff (hm.tool_solid tool ht).ne_nil).mp ha
      | some a =>
        dsimp only
        split
        · exact .called tool a ht hend ha ‹_›
        · exact .held tool a ht hend ha

end Stages

/-- A parser of a marker family that streams its reasoning, the head of its stream decided. -/
structure Runs (p : ReasoningParser) : Prop where

  delimited : p.format.delimited = true

  decided : p.leadingCloserPending = false

  streaming : p.streamReasoning = true

theorem Runs.separate (h : p.Runs) : p.markers.Separate := markers_separate h.delimited

theorem Runs.format_ne (h : p.Runs) : p.format ≠ .gptOss := by
  intro he
  have := h.delimited
  rw [he] at this
  cases this

/-- Outside a block that will not be opened any more everything is content. -/
theorem deliver_outside (hr : p.Runs) (hout : p.inReasoning = false) (chunks : List Text)
    (hs : p.strippedStart = true ∨ ¬ p.markers.start <:+: p.buffer ++ chunks.flatten) :
    p.deliver chunks = { content := p.buffer ++ chunks.flatten } := by
  induction chunks generalizing p with
  | nil =>
    rw [deliver_nil, flush_eq hr.format_ne hr.decided, flushBuffer_outside_eq hout, List.flatten_nil]
    rfl
  | cons chunk chunks ih =>
    rw [List.flatten_cons, ← List.append_assoc] at hs
    have hstrip : { p with buffer := p.buffer ++ chunk }.stripStart =
        { p with buffer := p.buffer ++ chunk } := by
      apply stripStart_eq_self (p := { p with buffer := p.buffer ++ chunk }) hr.separate
      exact hs.imp_right fun h hin => h (hin.trans (List.prefix_append _ _).isInfix)
    have hpush : p.push chunk = { p with buffer := p.buffer ++ chunk }.releaseSafe := by
      rw [push_eq hr.format_ne hr.decided, pushMarker, hstrip]
      dsimp only
      rw [hout, if_neg Bool.false_ne_true]
    rw [deliver_cons, hpush, releaseSafe_outside (p := { p with buffer := p.buffer ++ chunk }) hout,
      List.flatten_cons, ← List.append_assoc]
    dsimp only
    generalize (p.buffer ++ chunk).length -
      { p with buffer := p.buffer ++ chunk }.trailingPartialLen = n
    rw [ih (p := { p with buffer := (p.buffer ++ chunk).drop n }) ⟨hr.1, hr.2, hr.3⟩ hout]
    · ext1
      · rfl
      · simp only [ReasoningDelta.append_content]
        rw [← List.append_assoc, List.take_append_drop]
    · refine hs.imp_right fun h hin => h (hin.trans ?_)
      have hdrop : (p.buffer ++ chunk).drop n ++ chunks.flatten <:+ p.buffer ++ chunk ++ chunks.flatten :=
        ⟨(p.buffer ++ chunk).take n, by rw [← List.append_assoc, List.take_append_drop]⟩
      exact hdrop.isInfix

/-- What is buffered inside a block: no closer, no opener that is still to be taken out, and a tool
marker only at the head. -/
structure Waiting (p : ReasoningParser) : Prop where

  unclosed : ¬ p.markers.end_ <:+: p.buffer

  unopened : p.strippedStart = false → ¬ p.markers.start <:+: p.buffer

  tool_head : ∀ tool ∈ p.markers.toolStart, ∀ a, findText tool p.buffer = some a → a = 0

theorem blockText_eq_self {m : Markers} (hm : m.Separate) {stripped : Bool} {text : Text}
    (h : stripped = true ∨ ¬ m.start <:+: text) : blockText m stripped text = text := by
  rcases h with rfl | h
  · rfl
  · cases stripped with
    | true => rfl
    | false => exact unopened_eq_self h hm

/-- At the end of the stream the buffer goes out as the split has it. -/
theorem flushBuffer_inside (hm : p.markers.Separate) (hin : p.inReasoning = true) (h : p.Waiting) :
    splitBlock p.markers (blockText p.markers p.strippedStart p.buffer) = p.flushBuffer.1 := by
  have hbody : blockText p.markers p.strippedStart p.buffer = p.buffer := by
    apply blockText_eq_self hm
    cases hs : p.strippedStart with
    | true => exact .inl rfl
    | false => exact .inr (h.unopened hs)
  have hend := (findText_eq_none_iff hm.end_solid.ne_nil).mpr h.unclosed
  rw [hbody, splitBlock, hend]
  dsimp only
  by_cases hcall : ∃ tool ∈ p.markers.toolStart, tool <:+: p.buffer
  · obtain ⟨tool, hmem, hocc⟩ := hcall
    have hsolid := hm.tool_solid tool hmem
    obtain ⟨a, ha⟩ : ∃ a, findText tool p.buffer = some a := by
      cases ha : findText tool p.buffer with
      | some a => exact ⟨a, rfl⟩
      | none => exact absurd hocc ((findText_eq_none_iff hsolid.ne_nil).mp ha)
    obtain rfl := h.tool_head tool hmem a ha
    obtain ⟨rest, hrest⟩ := (findText_leftmost ha).1
    rw [List.drop_zero] at hrest
    have hne : p.buffer.isEmpty = false := by
      rw [← hrest]
      exact List.isEmpty_eq_false_iff.mpr (by simp [hsolid.ne_nil])
    have hpre : tool.isPrefixOf (trimStart p.buffer) = true := by
      rw [← hrest, hsolid.trimStart_eq]
      exact List.isPrefixOf_iff_prefix.mpr (List.prefix_append _ _)
    rw [show p.markers.toolStart = some tool from hmem, Option.bind_some, ha]
    rw [flushBuffer_delta, hne, show p.markers.toolStart = some tool from hmem, Option.any_some, hpre]
    rfl
  · have hnone : (p.markers.toolStart.bind fun tool => findText tool p.buffer) = none := by
      cases ht : p.markers.toolStart with
      | none => rfl
      | some tool =>
        rw [Option.bind_some]
        apply (findText_eq_none_iff (hm.tool_solid tool ht).ne_nil).mpr
        exact fun hocc => hcall ⟨tool, ht, hocc⟩
    have hany : (p.markers.toolStart.any fun tool => tool.isPrefixOf (trimStart p.buffer)) = false := by
      cases ht : p.markers.toolStart with
      | none => rfl
      | some tool =>
        apply Bool.eq_false_iff.mpr
        intro hpre
        obtain ⟨ws, -, hsplit⟩ := exists_trimStart p.buffer
        have hpre := List.isPrefixOf_iff_prefix.mp hpre
        exact hcall ⟨tool, ht, hpre.isInfix.trans ⟨ws, [], by rw [List.append_nil, ← hsplit]⟩⟩
    rw [hnone, flushBuffer_delta, hany, hin]
    dsimp only
    split
    · rename_i hempty
      rw [List.isEmpty_iff.mp hempty]
    · rfl

end ReasoningParser

section Decided

variable {m : Markers} {b w : Text}

/-- What is not found in a part ends after it. -/
theorem length_lt_of_find {pat : Text} {i : ℕ} (hi : findText pat (b ++ w) = some i)
    (hb : ¬ pat <:+: b) : b.length < i + pat.length := by
  by_contra hshort
  apply hb
  have hpre : pat <+: b.drop i := by
    have h := (findText_leftmost hi).1
    rw [List.drop_append_of_le_length (by omega)] at h
    apply List.prefix_of_prefix_length_le h (List.prefix_append _ _)
    rw [List.length_drop]
    omega
  exact hpre.isInfix.trans (List.drop_suffix _ _).isInfix

/-- A marker in what has arrived stands before an opener that has not. -/
theorem infix_before {pat : Text} {i : ℕ} (hapart : Apart pat m.start) (hnot : ¬ pat <:+: m.start)
    (hi : findText m.start (b ++ w) = some i) (hb : ¬ m.start <:+: b) (hpat : pat <:+: b) :
    pat <:+: (b ++ w).take i := by
  by_contra hcon
  obtain ⟨u, v, rfl⟩ := hpat
  have hsplit := findText_split hi
  have hle := Tool.findText_le hi
  have hclear := clear_of_apart hapart hcon ((u ++ pat ++ v ++ w).drop (i + m.start.length))
  rw [List.length_append] at hle
  have hlen : ((u ++ pat ++ v ++ w).take i).length = i := by
    rw [List.length_take, List.length_append]
    omega
  have hat : pat <+: (u ++ pat ++ v ++ w).drop u.length := by
    rw [List.append_assoc, List.append_assoc, List.drop_left]
    exact List.prefix_append _ _
  have hge : i ≤ u.length := by
    by_contra hlt
    apply hclear u.length (by rw [hlen]; omega)
    rwa [← hsplit]
  have hlong := length_lt_of_find hi hb
  obtain ⟨k, hk⟩ := Nat.exists_eq_add_of_le hge
  rw [hsplit, hk, show i + k = ((u ++ pat ++ v ++ w).take i).length + k by rw [hlen],
    List.drop_length_add_append] at hat
  simp only [List.length_append] at hlong
  obtain hin | ⟨hlt, -⟩ := infix_or_drop_prefix (by omega) hat
  · exact hnot hin
  · omega

theorem byteLen_drop_lt {c : Text} {a : ℕ} (hpre : b <+: c) (hlen : b.length < c.length)
    (ha : a ≤ b.length) : byteLen (b.drop a) < byteLen (c.drop a) := by
  apply byteLen_lt (hpre.drop a)
  rw [List.length_drop, List.length_drop]
  omega

/-- A closed block is not opened again. -/
theorem SteadyInside.unopened_of_closed {stripped : Bool} (hm : m.Separate)
    (h : SteadyInside m stripped (b ++ w)) (hb : stripped = false → ¬ m.start <:+: b)
    (hend : m.end_ <:+: b) : stripped = true ∨ ¬ m.start <:+: b ++ w := by
  cases hs : stripped with
  | true => exact .inl rfl
  | false =>
    right
    intro hin
    cases hi : findText m.start (b ++ w) with
    | none => exact (findText_eq_none_iff hm.start_solid.ne_nil).mp hi hin
    | some i =>
      apply (h.opens hs i hi).unclosed
      exact infix_before hm.end_start.1 hm.end_start.2 hi (hb hs) hend

/-- Nor is a block that a tool call has ended. -/
theorem SteadyInside.unopened_of_called {stripped : Bool} {tool : Text} {a : ℕ} (hm : m.Separate)
    (h : SteadyInside m stripped (b ++ w)) (hb : stripped = false → ¬ m.start <:+: b)
    (hmem : tool ∈ m.toolStart) (ha : findText tool b = some a)
    (hlong : TOOL_HOLD_MAX < byteLen (b.drop a)) : stripped = true ∨ ¬ m.start <:+: b ++ w := by
  cases hs : stripped with
  | true => exact .inl rfl
  | false =>
    right
    intro hin
    cases hi : findText m.start (b ++ w) with
    | none => exact (findText_eq_none_iff hm.start_solid.ne_nil).mp hi hin
    | some i =>
      have hbefore := infix_before (hm.tool_start tool hmem).1 (hm.tool_start tool hmem).2 hi (hb hs)
        (findText_isSome ha)
      have hsplit := findText_split hi
      have hfind : findText tool ((b ++ w).take i) = some a := by
        cases hf : findText tool ((b ++ w).take i) with
        | none => exact absurd hbefore ((findText_eq_none_iff (hm.tool_solid tool hmem).ne_nil).mp hf)
        | some a' =>
          have hwhole := findText_append_right hf ((b ++ w).drop i)
          rw [List.take_append_drop, findText_append_right ha w] at hwhole
          rw [hwhole]
      have hheld := (h.opens hs i hi).held tool hmem a hfind
      have hlt := length_lt_of_find hi (hb hs)
      have hat := Tool.findText_le hi
      have hpre : b <+: (b ++ w).take i ++ m.start := by
        apply List.prefix_of_prefix_length_le (List.prefix_append b w)
        · conv_rhs => rw [hsplit, ← List.append_assoc]
          exact List.prefix_append _ _
        · rw [List.length_append, List.length_take]
          omega
      have hle := Tool.findText_le ha
      have hle' := Tool.findText_le hfind
      have hless := byteLen_drop_lt (a := a) hpre (by
        rw [List.length_append, List.length_take]
        omega) (by omega)
      rw [List.drop_append_of_le_length (by omega)] at hless
      omega

/-- A tool marker held too long for a quotation is not in a block that closes later. -/
theorem Quoted.unclosed {tool : Text} {a : ℕ} (hm : m.Separate) (h : Quoted m (b ++ w))
    (hmem : tool ∈ m.toolStart) (ha : findText tool b = some a) (hend : ¬ m.end_ <:+: b)
    (hlong : TOOL_HOLD_MAX < byteLen (b.drop a)) : findText m.end_ (b ++ w) = none := by
  cases he : findText m.end_ (b ++ w) with
  | none => rfl
  | some e =>
    exfalso
    have hlt := length_lt_of_find he hend
    have hle := Tool.findText_le ha
    have hle' := Tool.findText_le he
    have hsplit := findText_split ha
    have hbefore : ¬ m.end_ <:+: b.take a :=
      fun hin => hend (hin.trans (List.take_prefix a b).isInfix)
    have hclear := clear_of_apart (hm.end_tool tool hmem) hbefore (b.drop (a + tool.length) ++ w)
    have hae : a ≤ e := by
      by_contra hlate
      apply hclear e
      · rw [List.length_take]
        omega
      · rw [← List.append_assoc tool, ← List.append_assoc, ← hsplit]
        exact (findText_leftmost he).1
    have hbound := h tool hmem a e (findText_append_right ha w) he hae
    have hpre : b <+: (b ++ w).take (e + m.end_.length) := by
      apply List.prefix_of_prefix_length_le (List.prefix_append b w) (List.take_prefix _ _)
      rw [List.length_take]
      omega
    have hless := byteLen_drop_lt (a := a) hpre (by
      rw [List.length_take]
      omega) (by omega)
    omega

end Decided

namespace ReasoningParser

variable {p q : ReasoningParser} {chunks : List Text}

/-- The split of an open block's text, as the parser still has to deliver it. -/
def blockSplit (p : ReasoningParser) (text : Text) : ReasoningDelta :=
  splitBlock p.markers (blockText p.markers p.strippedStart text)

/-- What holds of every parser that waits inside a block with these chunks to come. -/
def DeliversInside (format : ReasoningFormat) (chunks : List Text) : Prop :=
  ∀ q : ReasoningParser, q.Runs → q.format = format → q.inReasoning = true → q.Waiting →
    SteadyInside q.markers q.strippedStart (q.buffer ++ chunks.flatten) →
      Delivers (q.blockSplit (q.buffer ++ chunks.flatten)) (q.deliver chunks)

/-- Releasing the front of the buffer, where no marker begins, leaves the rest of the split. -/
theorem delivers_release {n : ℕ} (hr : q.Runs) (hin : q.inReasoning = true)
    (hs : SteadyInside q.markers q.strippedStart (q.buffer ++ chunks.flatten))
    (ih : DeliversInside q.format chunks)
    (hwait : { q with buffer := q.buffer.drop n }.Waiting)
    (hend : Clear q.markers.end_ (q.buffer.take n) (q.buffer.drop n ++ chunks.flatten))
    (htool : ∀ tool ∈ q.markers.toolStart,
      Clear tool (q.buffer.take n) (q.buffer.drop n ++ chunks.flatten))
    (hstart : q.strippedStart = false →
      Clear q.markers.start (q.buffer.take n) (q.buffer.drop n ++ chunks.flatten)) :
    Delivers (q.blockSplit (q.buffer ++ chunks.flatten))
      ({ reasoning := q.buffer.take n } ++ { q with buffer := q.buffer.drop n }.deliver chunks) := by
  have hbuffer : q.buffer ++ chunks.flatten =
      q.buffer.take n ++ (q.buffer.drop n ++ chunks.flatten) := by
    rw [← List.append_assoc, List.take_append_drop]
  rw [hbuffer] at hs ⊢
  obtain ⟨hsteady, hsplit⟩ := hs.shift hr.separate hend htool hstart
  have hrest := ih { q with buffer := q.buffer.drop n } ⟨hr.1, hr.2, hr.3⟩ rfl hin hwait hsteady
  rw [blockSplit, hsplit]
  exact hrest.after _

/-- Inside a block, one push and what follows it deliver the split. -/
theorem insideBlock_delivers (hr : q.Runs) (hin : q.inReasoning = true)
    (hopen : q.strippedStart = false → ¬ q.markers.start <:+: q.buffer)
    (hs : SteadyInside q.markers q.strippedStart (q.buffer ++ chunks.flatten))
    (ih : DeliversInside q.format chunks) :
    Delivers (q.blockSplit (q.buffer ++ chunks.flatten))
      (q.insideBlock.1 ++ q.insideBlock.2.deliver chunks) := by
  have hm := hr.separate
  have hopened : q.strippedStart = true ∨ ¬ q.markers.start <:+: q.buffer ++ chunks.flatten →
      q.blockSplit (q.buffer ++ chunks.flatten) =
        splitBlock q.markers (q.buffer ++ chunks.flatten) ∧
      { q with buffer := [], inReasoning := false }.deliver chunks = { content := chunks.flatten } := by
    intro h
    constructor
    · rw [blockSplit, blockText_eq_self hm h]
    · apply deliver_outside (p := { q with buffer := [], inReasoning := false }) ⟨hr.1, hr.2, hr.3⟩ rfl
      exact h.imp_right fun hno hyes => hno (hyes.trans (List.suffix_append _ _).isInfix)
  have hcases := insideBlock_inward hm hin hr.streaming
  generalize q.insideBlock = r at hcases
  cases hcases with
  | closed e he =>
    obtain ⟨hwhole, hrest⟩ := hopened (hs.unopened_of_closed hm hopen (findText_isSome he))
    have hle := Tool.findText_le he
    obtain ⟨ws, hws, htrim⟩ := exists_trimEnd (q.buffer.take e)
    refine ⟨ws, hws, ?_⟩
    rw [hwhole, hrest, splitBlock, findText_append_right he]
    dsimp only
    rw [List.take_append_of_le_length (by omega), List.drop_append_of_le_length (by omega)]
    ext1
    · simp only [ReasoningDelta.append_reasoning, List.append_nil]
      exact htrim
    · rfl
  | called tool a hmem hend ha hlong =>
    have hshut := hs.unopened_of_called hm hopen hmem ha hlong
    obtain ⟨hwhole, hrest⟩ := hopened hshut
    have hle := Tool.findText_le ha
    have hquoted := hs.quoted
    rw [blockText_eq_self hm hshut] at hquoted
    have hnone := hquoted.unclosed hm hmem ha hend hlong
    rw [hwhole, hrest, splitBlock, hnone]
    dsimp only
    rw [show q.markers.toolStart = some tool from hmem, Option.bind_some,
      findText_append_right ha]
    dsimp only
    rw [List.take_append_of_le_length (by omega), List.drop_append_of_le_length (by omega)]
    refine ⟨[], blank_nil, ?_⟩
    ext1 <;> simp
  | held tool a hmem hend ha =>
    obtain ⟨rest, hrest⟩ := (findText_leftmost ha).1
    have hdrop : ∀ {pat : Text}, ¬ pat <:+: q.buffer → ¬ pat <:+: q.buffer.drop a :=
      fun hno hyes => hno (hyes.trans (List.drop_suffix _ _).isInfix)
    have htake : ∀ {pat : Text}, ¬ pat <:+: q.buffer → ¬ pat <:+: q.buffer.take a :=
      fun hno hyes => hno (hyes.trans (List.take_prefix _ _).isInfix)
    have only : ∀ {tool'}, tool' ∈ q.markers.toolStart → tool' = tool :=
      fun h => Option.some.inj (h.symm.trans hmem)
    apply delivers_release hr hin hs ih
    · refine ⟨hdrop hend, fun h => hdrop (hopen h), fun tool' hmem' a' ha' => ?_⟩
      obtain rfl := only hmem'
      have hhead : findText tool' (q.buffer.drop a) = some 0 :=
        Tool.findText_of_prefix (findText_leftmost ha).1
      exact Option.some.inj (ha'.symm.trans hhead)
    · rw [← hrest, List.append_assoc]
      exact clear_of_apart (hm.end_tool tool hmem) (htake hend) _
    · intro tool' hmem'
      obtain rfl := only hmem'
      have hclear := clear_of_findText (findText_append_right ha chunks.flatten)
      have hle := Tool.findText_le ha
      rwa [List.take_append_of_le_length (by omega), List.drop_append_of_le_length (by omega)] at hclear
    · intro h
      rw [← hrest, List.append_assoc]
      exact clear_of_apart (hm.start_tool tool hmem) (htake (hopen h)) _
  | released hend htool =>
    have hdrop : ∀ {pat : Text} (n : ℕ), ¬ pat <:+: q.buffer → ¬ pat <:+: q.buffer.drop n :=
      fun n hno hyes => hno (hyes.trans (List.drop_suffix n _).isInfix)
    apply delivers_release hr hin hs ih
    · refine ⟨hdrop _ hend, fun h => hdrop _ (hopen h), fun tool hmem a ha => ?_⟩
      exact absurd (findText_isSome ha) (hdrop _ (htool tool hmem))
    · exact clear_released hm.end_solid.ne_nil (.inl rfl) hend _
    · intro tool hmem
      exact clear_released (hm.tool_solid tool hmem).ne_nil (.inr (.inr hmem)) (htool tool hmem) _
    · intro h
      exact clear_released hm.start_solid.ne_nil (.inr (.inl ⟨rfl, h⟩)) (hopen h) _

/-- The marker step of a push: the opener is taken out, then the block decides. -/
theorem pushMarker_opened {i : ℕ} (hr : p.Runs) (hs : p.strippedStart = false) {chunk : Text}
    (hf : findText p.markers.start (p.buffer ++ chunk) = some i) :
    p.pushMarker chunk = { p with
      buffer := (p.buffer ++ chunk).take i ++ (p.buffer ++ chunk).drop (i + p.markers.start.length)
      strippedStart := true
      inReasoning := true }.insideBlock := by
  rw [pushMarker, stripStart_of_find (p := { p with buffer := p.buffer ++ chunk }) hr.separate hs hf]
  rfl

theorem pushMarker_unopened (hr : p.Runs) (chunk : Text)
    (h : p.strippedStart = true ∨ ¬ p.markers.start <:+: p.buffer ++ chunk) :
    p.pushMarker chunk =
      if p.inReasoning then { p with buffer := p.buffer ++ chunk }.insideBlock
      else { p with buffer := p.buffer ++ chunk }.releaseSafe := by
  rw [pushMarker, stripStart_eq_self (p := { p with buffer := p.buffer ++ chunk }) hr.separate h]

/-- Taking the opener out of what has arrived takes it out of the whole. -/
theorem unopened_of_find {m : Markers} {b w : Text} {i : ℕ} (h : findText m.start b = some i) :
    unopened m (b ++ w) = b.take i ++ b.drop (i + m.start.length) ++ w := by
  have hle := Tool.findText_le h
  rw [unopened, findText_append_right h]
  dsimp only
  rw [List.take_append_of_le_length (by omega), List.drop_append_of_le_length (by omega),
    List.append_assoc]

/-- From inside a block the stream delivers the split of the text that is left. -/
theorem deliver_inside (format : ReasoningFormat) (chunks : List Text) :
    DeliversInside format chunks := by
  induction chunks with
  | nil =>
    intro q hr _ hin hwait _
    rw [List.flatten_nil, List.append_nil, blockSplit, flushBuffer_inside hr.separate hin hwait,
      deliver_nil, flush_eq hr.format_ne hr.decided]
    refine ⟨[], blank_nil, ?_⟩
    ext1 <;> simp
  | cons chunk chunks ih =>
    intro q hr hfmt hin hwait hs
    subst hfmt
    rw [List.flatten_cons, ← List.append_assoc] at hs ⊢
    rw [deliver_cons, push_eq hr.format_ne hr.decided]
    by_cases hopen : q.strippedStart = false ∧ q.markers.start <:+: q.buffer ++ chunk
    · obtain ⟨hstripped, hocc⟩ := hopen
      obtain ⟨i, hi⟩ : ∃ i, findText q.markers.start (q.buffer ++ chunk) = some i := by
        cases hi : findText q.markers.start (q.buffer ++ chunk) with
        | some i => exact ⟨i, rfl⟩
        | none => exact absurd hocc ((findText_eq_none_iff hr.separate.start_solid.ne_nil).mp hi)
      have hbody := unopened_of_find (w := chunks.flatten) hi
      have hquoted := hs.quoted
      rw [blockSplit, blockText, hstripped, if_neg Bool.false_ne_true, hbody]
      rw [blockText, hstripped, if_neg Bool.false_ne_true, hbody] at hquoted
      rw [pushMarker_opened hr hstripped hi]
      exact insideBlock_delivers (q := { q with
        buffer := (q.buffer ++ chunk).take i ++ (q.buffer ++ chunk).drop (i + q.markers.start.length)
        strippedStart := true
        inReasoning := true }) ⟨hr.1, hr.2, hr.3⟩ rfl (fun h => Bool.noConfusion h)
        ⟨fun h => Bool.noConfusion h, hquoted⟩ ih
    · have hno : q.strippedStart = false → ¬ q.markers.start <:+: q.buffer ++ chunk :=
        fun h hin => hopen ⟨h, hin⟩
      have hcase : q.strippedStart = true ∨ ¬ q.markers.start <:+: q.buffer ++ chunk := by
        cases h : q.strippedStart with
        | true => exact .inl rfl
        | false => exact .inr (hno h)
      rw [pushMarker_unopened hr chunk hcase, if_pos hin]
      exact insideBlock_delivers (q := { q with buffer := q.buffer ++ chunk }) ⟨hr.1, hr.2, hr.3⟩ hin
        hno hs ih

end ReasoningParser

end Frink.Reasoning
