import Frink.Reasoning.Cuts

/-! # Streaming and one-shot agree

Before a block only white space may have gone out, and the head of an adaptive stream may be cut
anywhere but in front of its first visible character. Under these conditions every way of cutting
the text delivers what one push of all of it does; a text that breaks them reaches a branch that
depends on how much of it has arrived.
-/

namespace Frink.Reasoning
open Decode Occurs
open Tool (isWhitespace trim trimStart trimEnd stripPrefix contains byteLen)

/-- The split of a text outside a block. -/
def splitOutside (m : Markers) (text : Text) : ReasoningDelta :=
  if contains text m.start then splitBlock m (unopened m text) else { content := text }

theorem contains_iff {pat text : Text} (hp : pat ≠ []) : contains text pat = true ↔ pat <:+: text := by
  have h := findText_eq_none_iff (t := text) hp
  unfold contains
  cases hf : findText pat text with
  | none =>
    rw [hf] at h
    simpa using h
  | some i =>
    simpa using findText_isSome hf

namespace ReasoningParser

variable {p : ReasoningParser}

/-- A block that is still to be opened: only white space goes out before it. -/
theorem deliver_opening (hr : p.Runs) (hout : p.inReasoning = false) (hs : p.strippedStart = false)
    (chunks : List Text) (hb : ¬ p.markers.start <:+: p.buffer)
    (hin : p.markers.start <:+: p.buffer ++ chunks.flatten)
    (h : SteadyOutside p.markers (p.buffer ++ chunks.flatten)) :
    (splitBlock p.markers (unopened p.markers (p.buffer ++ chunks.flatten))).trimmed =
      (p.deliver chunks).trimmed := by
  induction chunks generalizing p with
  | nil =>
    rw [List.flatten_nil, List.append_nil] at hin
    exact absurd hin hb
  | cons chunk chunks ih =>
    have hm := hr.separate
    have hne := hm.start_solid.ne_nil
    rw [List.flatten_cons, ← List.append_assoc] at h hin ⊢
    rw [deliver_cons, push_eq hr.format_ne hr.decided]
    cases hi : findText p.markers.start (p.buffer ++ chunk) with
    | some i =>
      have hbody := unopened_of_find (w := chunks.flatten) hi
      obtain ⟨-, hquoted⟩ := h i (findText_append_right hi _)
      rw [hbody] at hquoted ⊢
      rw [pushMarker_opened hr hs hi]
      apply Delivers.trimmed_eq
      exact insideBlock_delivers (q := { p with
        buffer := (p.buffer ++ chunk).take i ++ (p.buffer ++ chunk).drop (i + p.markers.start.length)
        strippedStart := true
        inReasoning := true }) ⟨hr.1, hr.2, hr.3⟩ rfl (fun h => nomatch h)
        ⟨fun h => (nomatch h), hquoted⟩ (deliver_inside _ chunks)
    | none =>
      have hno := (findText_eq_none_iff hne).mp hi
      have hpush := pushMarker_unopened hr chunk (.inr hno)
      rw [if_neg (by simp [hout]),
        releaseSafe_outside (p := { p with buffer := p.buffer ++ chunk }) hout] at hpush
      rw [hpush]
      dsimp only
      have hclear := clear_released (p := { p with buffer := p.buffer ++ chunk }) hne
        (.inr (.inl ⟨rfl, hs⟩)) hno chunks.flatten
      generalize (p.buffer ++ chunk).length -
        { p with buffer := p.buffer ++ chunk }.trailingPartialLen = n at hclear ⊢
      have hwhole : p.buffer ++ chunk ++ chunks.flatten = (p.buffer ++ chunk).take n ++
          ((p.buffer ++ chunk).drop n ++ chunks.flatten) := by
        rw [← List.append_assoc, List.take_append_drop]
      have hno' : ¬ p.markers.start <:+: (p.buffer ++ chunk).drop n :=
        fun hyes => hno (hyes.trans (List.drop_suffix _ _).isInfix)
      generalize (p.buffer ++ chunk).take n = x at hwhole hclear ⊢
      generalize (p.buffer ++ chunk).drop n = y at hwhole hclear hno' ⊢
      rw [hwhole] at h hin ⊢
      obtain ⟨i, hi'⟩ : ∃ i, findText p.markers.start (y ++ chunks.flatten) = some i := by
        cases hi' : findText p.markers.start (y ++ chunks.flatten) with
        | some i => exact ⟨i, rfl⟩
        | none =>
          have hnone : findText p.markers.start (x ++ (y ++ chunks.flatten)) = none := by
            rw [findText_append hclear, hi', Option.map_none]
          exact absurd hin ((findText_eq_none_iff hne).mp hnone)
      have hx : Blank x := by
        have hfind : findText p.markers.start (x ++ (y ++ chunks.flatten)) = some (i + x.length) := by
          rw [findText_append hclear, hi', Option.map_some]
        have hblank := (h _ hfind).1
        rw [Nat.add_comm, List.take_length_add_append] at hblank
        exact fun c hc => hblank c (List.mem_append_left _ hc)
      have hrest := ih (p := { p with buffer := y }) ⟨hr.1, hr.2, hr.3⟩ hout hs hno' (findText_isSome hi')
        (h.shift hm (fun _ => hx) hclear)
      rw [unopened_append hclear, splitBlock_append (hm.end_solid.clear hx _)
        (fun _ tool hmem => (hm.tool_solid tool hmem).clear hx _) hm]
      obtain ⟨hreasoning, hcontent⟩ := ReasoningDelta.mk.inj hrest
      ext1
      · simp only [ReasoningDelta.trimmed, ReasoningDelta.append_reasoning, List.nil_append,
          trim_blank_append hx]
        exact hreasoning
      · simp only [ReasoningDelta.trimmed, ReasoningDelta.append_content, List.nil_append,
          trim_blank_append hx]
        exact hcontent

/-- What a parser still has to split. -/
def split (p : ReasoningParser) (text : Text) : ReasoningDelta :=
  if p.inReasoning then p.blockSplit text else splitOutside p.markers text

/-- The condition on a text that makes its split independent of its cuts. -/
def Steady (p : ReasoningParser) (text : Text) : Prop :=
  if p.inReasoning then SteadyInside p.markers p.strippedStart text else SteadyOutside p.markers text

/-- A parser that has read nothing, its head decided. -/
structure Fresh (p : ReasoningParser) : Prop extends p.Runs where

  buffer_eq : p.buffer = []

  unstripped : p.strippedStart = false

/-- From a fresh parser every way of cutting a steady text delivers its split. -/
theorem Fresh.deliver_eq (hp : p.Fresh) (chunks : List Text) (h : p.Steady chunks.flatten) :
    (p.split chunks.flatten).trimmed = (p.deliver chunks).trimmed := by
  have hm := hp.toRuns.separate
  have hnil : ∀ {pat : Text}, pat ≠ [] → ¬ pat <:+: p.buffer := by
    intro pat hpat hin
    rw [hp.buffer_eq] at hin
    exact hpat (List.infix_nil.mp hin)
  have hbuffer : p.buffer ++ chunks.flatten = chunks.flatten := by rw [hp.buffer_eq, List.nil_append]
  rw [← hbuffer] at h ⊢
  unfold split
  unfold Steady at h
  cases hin : p.inReasoning with
  | true =>
    rw [hin, if_pos rfl] at h
    rw [if_pos rfl]
    apply Delivers.trimmed_eq
    apply deliver_inside p.format chunks p hp.toRuns rfl hin _ h
    refine ⟨hnil hm.end_solid.ne_nil, fun _ => hnil hm.start_solid.ne_nil, fun tool hmem a ha => ?_⟩
    exact absurd (findText_isSome ha) (hnil (hm.tool_solid tool hmem).ne_nil)
  | false =>
    rw [hin, if_neg Bool.false_ne_true] at h
    rw [if_neg Bool.false_ne_true, splitOutside]
    by_cases hopen : p.markers.start <:+: p.buffer ++ chunks.flatten
    · rw [if_pos ((contains_iff hm.start_solid.ne_nil).mpr hopen)]
      exact deliver_opening hp.toRuns hin hp.unstripped chunks (hnil hm.start_solid.ne_nil) hopen h
    · rw [if_neg fun hc => hopen ((contains_iff hm.start_solid.ne_nil).mp hc),
        deliver_outside hp.toRuns hin chunks (.inr hopen)]

end ReasoningParser

section Head

variable {x y pat rest : Text}

theorem trimStart_append_of_ne (h : trimStart x ≠ []) (y : Text) :
    trimStart (x ++ y) = trimStart x ++ y := by
  induction x with
  | nil => exact absurd rfl h
  | cons c x ih =>
    by_cases hc : isWhitespace c = true
    · have hdrop : ∀ u : Text, trimStart (c :: u) = trimStart u :=
        fun u => List.dropWhile_cons_of_pos hc
      rw [hdrop] at h
      rw [List.cons_append, hdrop, hdrop, ih h]
    · rw [List.cons_append, trimStart, trimStart, List.dropWhile_cons_of_neg hc,
        List.dropWhile_cons_of_neg hc, List.cons_append]

theorem blank_of_trimStart (h : trimStart x = []) : Blank x := by
  obtain ⟨ws, hws, hx⟩ := exists_trimStart x
  rw [h, List.append_nil] at hx
  exact hx ▸ hws

theorem stripPrefix_append (h : stripPrefix x pat = some rest) (y : Text) :
    stripPrefix (x ++ y) pat = some (rest ++ y) := by
  rw [Tool.stripPrefix_spec h, List.append_assoc, stripPrefix,
    if_pos (List.isPrefixOf_iff_prefix.mpr (List.prefix_append _ _)), List.drop_left]

theorem stripPrefix_eq_none_iff : stripPrefix x pat = none ↔ ¬ pat <+: x := by
  unfold stripPrefix
  rw [← List.isPrefixOf_iff_prefix]
  split <;> simp [*]

/-- The text after the bare closer at its head, or all of it. -/
def afterCloser (m : Markers) (text : Text) : Text :=
  (stripPrefix (trimStart text) m.end_).getD text

/-- A head that is neither a closer nor the beginning of one does not grow into one. -/
theorem stripPrefix_diverged (hne : trimStart x ≠ []) (hstrip : stripPrefix (trimStart x) pat = none)
    (hpart : ReasoningParser.isPartialPrefix (trimStart x) pat = false) (y : Text) :
    stripPrefix (trimStart (x ++ y)) pat = none := by
  rw [trimStart_append_of_ne hne, stripPrefix_eq_none_iff]
  intro hpre
  obtain hp | hp := List.prefix_or_prefix_of_prefix hpre (List.prefix_append (trimStart x) y)
  · exact stripPrefix_eq_none_iff.mp hstrip hp
  · have hlen : (trimStart x).length < pat.length := by
      by_contra hlen
      have heq := hp.eq_of_length (Nat.le_antisymm hp.length_le (Nat.le_of_not_lt hlen))
      exact stripPrefix_eq_none_iff.mp hstrip (heq ▸ List.prefix_refl _)
    rw [ReasoningParser.isPartialPrefix, List.isPrefixOf_iff_prefix.mpr hp,
      List.isEmpty_eq_false_iff.mpr hne, decide_eq_true (byteLen_lt hp hlen)] at hpart
    cases hpart

end Head

namespace ReasoningParser

variable {p : ReasoningParser}

/-- The head of an adaptive stream: once decided, the stream is that of the text after a bare
closer, if the first chunk shows where the head begins. -/
theorem Undecided.deliver_eq (h : p.Undecided) (hm : p.markers.Separate) (chunks : List Text)
    (hhead : p.headBuffer = [] ∨ isPartialPrefix (trimStart p.headBuffer) p.markers.end_ = true)
    (hfirst : stripPrefix (trimStart (p.headBuffer ++ chunks.flatten)) p.markers.end_ ≠ none →
      p.headBuffer = [] → ¬ Blank (chunks.headD [])) :
    ∃ cut : List Text, cut.flatten = afterCloser p.markers (p.headBuffer ++ chunks.flatten) ∧
      p.deliver chunks = p.decided.deliver cut := by
  have hfmt : p.format ≠ .gptOss := by simp [h.format_eq]
  induction chunks generalizing p with
  | nil =>
    rw [List.flatten_nil, List.append_nil]
    rcases hhead with hhead | hhead
    · refine ⟨[], ?_, ?_⟩
      · have hnone : stripPrefix (trimStart []) p.markers.end_ = none :=
          stripPrefix_eq_none_iff.mpr fun hp => hm.end_solid.ne_nil (List.prefix_nil.mp hp)
        rw [hhead, afterCloser, hnone]
        rfl
      · have hflush : p.flush = p.flushBuffer := by
          rw [flush, if_neg (by simpa using hfmt), hhead, List.isEmpty_nil, Bool.not_true,
            Bool.and_false, if_neg Bool.false_ne_true]
        rw [deliver_nil, deliver_nil, hflush, flush_eq (p := p.decided) hfmt rfl, flushBuffer_delta,
          flushBuffer_delta]
        rfl
    · have hne : p.headBuffer.isEmpty = false := by
        apply List.isEmpty_eq_false_iff.mpr
        rintro he
        rw [he] at hhead
        cases hhead
      refine ⟨[p.headBuffer], ?_, ?_⟩
      · have hnone : stripPrefix (trimStart p.headBuffer) p.markers.end_ = none := by
          apply stripPrefix_eq_none_iff.mpr
          intro hpre
          rw [isPartialPrefix, Bool.and_eq_true, Bool.and_eq_true] at hhead
          have hlt := of_decide_eq_true hhead.1.2
          have heq := hpre.eq_of_length (Nat.le_antisymm hpre.length_le
            (List.isPrefixOf_iff_prefix.mp hhead.2).length_le)
          rw [heq] at hlt
          exact Nat.lt_irrefl _ hlt
        rw [List.flatten_singleton, afterCloser, hnone]
        rfl
      · have hstep := pushMarker_passes (p := p.decided) p.headBuffer
        have hlast : (p.decided.pushMarker p.headBuffer).2.flush =
            (p.decided.pushMarker p.headBuffer).2.flushBuffer :=
          flush_eq (fun he => hfmt (hstep.format_eq.symm.trans he)) hstep.pending_eq
        rw [deliver_cons, push_eq (p := p.decided) hfmt rfl, deliver_nil, deliver_nil, hlast, flush,
          if_neg (by simpa using hfmt), h.pending, hne, Bool.not_false, Bool.and_true, if_pos rfl]
        dsimp only
        ext1 <;> simp [decided]
  | cons chunk chunks ih =>
    have hpush : p.push chunk = p.pushLeadingCloser chunk := by
      rw [push, if_neg (by simpa using hfmt), h.pending, if_pos rfl]
    rw [deliver_cons, hpush, pushLeadingCloser, List.flatten_cons, ← List.append_assoc]
    rw [List.flatten_cons, ← List.append_assoc] at hfirst
    cases hs : stripPrefix (trimStart (p.headBuffer ++ chunk)) p.markers.end_ with
    | some rest =>
      refine ⟨rest :: chunks, ?_, ?_⟩
      · have hne : trimStart (p.headBuffer ++ chunk) ≠ [] := by
          rw [Tool.stripPrefix_spec hs]
          simp [hm.end_solid.ne_nil]
        rw [afterCloser, trimStart_append_of_ne hne, stripPrefix_append hs]
        rfl
      · have heq : { p with headBuffer := [], leadingCloserPending := false, inReasoning := false } =
            p.decided := by simp [decided, h.outside]
        dsimp only
        rw [deliver_cons, push_eq (p := p.decided) hfmt rfl, heq]
    | none =>
      dsimp only
      by_cases hheld : isPartialPrefix (trimStart (p.headBuffer ++ chunk)) p.markers.end_ = true
      · rw [if_pos hheld]
        have hrest := ih (p := { p with headBuffer := p.headBuffer ++ chunk })
          ⟨h.1, h.2, h.3, h.4, h.5⟩ hm (.inr hheld) (fun _ hnil => by
            rw [show p.headBuffer ++ chunk = [] from hnil] at hheld
            cases hheld) hfmt
        obtain ⟨cut, hcut, hdeliver⟩ := hrest
        refine ⟨cut, hcut, ?_⟩
        dsimp only
        rw [hdeliver]
        ext1 <;> rfl
      · rw [if_neg hheld]
        refine ⟨(p.headBuffer ++ chunk) :: chunks, ?_, ?_⟩
        · have hnone : stripPrefix (trimStart (p.headBuffer ++ chunk ++ chunks.flatten))
              p.markers.end_ = none := by
            by_cases hblank : trimStart (p.headBuffer ++ chunk) = []
            · by_contra hlead
              have hempty : p.headBuffer = [] := by
                rcases hhead with hhead | hhead
                · exact hhead
                · exfalso
                  have hb := blank_of_trimStart hblank
                  have hb' : Blank p.headBuffer := fun c hc => hb c (List.mem_append_left _ hc)
                  rw [trimStart_blank hb'] at hhead
                  cases hhead
              rw [hempty, List.nil_append] at hblank
              exact hfirst hlead hempty (blank_of_trimStart hblank)
            · exact stripPrefix_diverged hblank hs (Bool.eq_false_iff.mpr hheld) _
          rw [List.flatten_cons, afterCloser, hnone]
          rfl
        · rw [deliver_cons, push_eq (p := p.decided) hfmt rfl]
          rfl

end ReasoningParser

/-- The texts and cuts whose split is that of the whole text. For an open block: a closer does not
stand before the opener, no marker is put together from what stands around it, and a quoted tool
marker is closed before it counts as a call. Outside a block: the opener follows white space only.
For the adaptive family: a first chunk shows where a bare closer at the head begins. -/
def CutFree (format : ReasoningFormat) (forceReasoning : Bool) (chunks : List Text) : Prop :=
  let m := format.markers
  if forceReasoning || m.alwaysOpen then SteadyInside m false chunks.flatten
  else if format = .miniMaxM3 then
    (stripPrefix (trimStart chunks.flatten) m.end_ ≠ none → ¬ Blank (chunks.headD [])) ∧
      SteadyOutside m (afterCloser m chunks.flatten)
  else SteadyOutside m chunks.flatten

theorem CutFree.whole {format : ReasoningFormat} {force : Bool} {chunks : List Text} (hf : format.delimited = true)
    (h : CutFree format force chunks) : CutFree format force [chunks.flatten] := by
  unfold CutFree at h ⊢
  dsimp only at h ⊢
  rw [List.flatten_singleton]
  split
  · rwa [if_pos ‹_›] at h
  · rw [if_neg ‹_›] at h
    split
    · rw [if_pos ‹_›] at h
      refine ⟨fun hlead hblank => hlead ?_, h.2⟩
      have hblank : Blank chunks.flatten := hblank
      rw [trimStart_blank hblank]
      apply stripPrefix_eq_none_iff.mpr
      exact fun hp => (markers_separate hf).end_solid.ne_nil (List.prefix_nil.mp hp)
    · rwa [if_neg ‹_›] at h

namespace ReasoningParser

variable {format : ReasoningFormat} {force : Bool}

theorem runs_decided (force : Bool) (hf : format.delimited = true) : (new format force true).decided.Fresh where

  delimited := hf
  decided := rfl
  streaming := rfl
  buffer_eq := rfl
  unstripped := rfl

theorem steady_new {text : Text} : (new format force true).decided.Steady text ↔
    if force || format.markers.alwaysOpen then SteadyInside format.markers false text
    else SteadyOutside format.markers text :=
  Iff.rfl

/-- A fresh stream delivers a split that depends on the text alone. -/
theorem deliver_new (hf : format.delimited = true) (chunks : List Text)
    (h : CutFree format force chunks) :
    ((new format force true).deliver chunks).trimmed =
      ((new format force true).decided.split
        (if (new format force true).leadingCloserPending then
          afterCloser format.markers chunks.flatten else chunks.flatten)).trimmed := by
  have hfresh := runs_decided force hf
  unfold CutFree at h
  dsimp only at h
  by_cases hopen : (force || format.markers.alwaysOpen) = true
  · have hpend : (new format force true).leadingCloserPending = false := by simp [new, hopen]
    have hself : (new format force true).decided = new format force true := by
      simp [decided, new, hopen]
    rw [if_pos hopen] at h
    rw [hpend, if_neg Bool.false_ne_true, hfresh.deliver_eq, hself]
    exact steady_new.mpr (by rwa [if_pos hopen])
  · have hclosed := Bool.eq_false_iff.mpr hopen
    rw [if_neg hopen] at h
    by_cases hm3 : format = .miniMaxM3
    · rw [if_pos hm3] at h
      have hpend : (new format force true).leadingCloserPending = true := by
        subst hm3
        simp [new, hclosed]
      obtain ⟨hfirst, hsteady⟩ := h
      obtain ⟨cut, hcut, hdeliver⟩ := Undecided.deliver_eq (p := new format force true)
        ⟨hm3, hpend, rfl, rfl, hclosed⟩ (markers_separate hf) chunks (.inl rfl)
        (fun hlead _ => hfirst hlead)
      rw [hpend, if_pos rfl, hdeliver]
      have hcut : cut.flatten = afterCloser format.markers chunks.flatten := hcut
      rw [← hcut] at hsteady ⊢
      apply (hfresh.deliver_eq cut _).symm
      exact steady_new.mpr (by rwa [if_neg hopen])
    · rw [if_neg hm3] at h
      have hpend : (new format force true).leadingCloserPending = false := by
        simp [new, hm3]
      have hself : (new format force true).decided = new format force true := by
        simp [decided, new, hm3]
      rw [hpend, if_neg Bool.false_ne_true, hfresh.deliver_eq, hself]
      exact steady_new.mpr (by rwa [if_neg hopen])

/-- The one-shot parse is the stream of one chunk. -/
theorem parseComplete_eq (text : Text) : (new format force true).parseComplete text =
    ((new format force true).deliver [text]).trimmed := by
  have hclone : { new (new format force true).format (new format force true).inReasoning true with
      leadingCloserPending := (new format force true).leadingCloserPending } =
      new format force true := by
    simp [new]
  rw [parseComplete, hclone, deliver_cons, deliver_nil]
  simp [ReasoningDelta.trimmed]

end ReasoningParser

end Frink.Reasoning
