import Frink.Reasoning.Cuts
import Frink.Reasoning.Scan

/-! # Harmony deltas

Each push emits what its scan has beyond a byte counter. That reassembles the scan of the whole
text exactly where every scan extends the one before: where no text stands in front of the first
channel, and no tool message is ended by another message.
-/

namespace Frink.Reasoning
open Decode Occurs
open Tool (contains byteLen)

/-- No channel at all; or one at the very start, and every tool message that is over was ended by a
closing token. -/
def SteadyChannels (text : Text) : Prop :=
  ∀ i, findText HARMONY_CHANNEL text = some i → i = 0 ∧ ToolsClosed text

section Counters

variable {x y : Text} {n : ℕ}

@[simp] theorem getFrom_zero (x : Text) : getFrom 0 x = x := by
  cases x <;> rfl

theorem getFrom_append (x y : Text) : getFrom (byteLen x) (x ++ y) = y := by
  induction x with
  | nil => exact getFrom_zero y
  | cons c x ih =>
    have hlen : byteLen (c :: x) = c.utf8Size + byteLen x := by simp [byteLen]
    have hpos := Char.utf8Size_pos c
    obtain ⟨k, hk⟩ : ∃ k, c.utf8Size = k + 1 := ⟨c.utf8Size - 1, by omega⟩
    rw [hlen, hk, show k + 1 + byteLen x = (k + byteLen x) + 1 by omega, List.cons_append, getFrom,
      if_neg (by omega), hk, show k + byteLen x + 1 - (k + 1) = byteLen x by omega, ih]

theorem getFrom_past (h : byteLen x ≤ n) : getFrom n x = [] := by
  induction x generalizing n with
  | nil =>
    cases n with
    | zero => rfl
    | succ n => rfl
  | cons c x ih =>
    have hlen : byteLen (c :: x) = c.utf8Size + byteLen x := by simp [byteLen]
    have hpos := Char.utf8Size_pos c
    obtain ⟨k, rfl⟩ : ∃ k, n = k + 1 := ⟨n - 1, by omega⟩
    rw [getFrom]
    split
    · rfl
    · exact ih (by omega)

theorem getFrom_of_extends (h : x <+: y) : x ++ getFrom (byteLen x) y = y := by
  obtain ⟨z, rfl⟩ := h
  rw [getFrom_append]

end Counters

namespace HarmonyState

variable {h : HarmonyState} {d scan : ReasoningDelta}

/-- The counters are those of what has been emitted. -/
structure Counts (h : HarmonyState) (d : ReasoningDelta) : Prop where

  reasoning : h.emittedReasoning = byteLen d.reasoning

  content : h.emittedContent = byteLen d.content

theorem counts_harmonyDelta (h : HarmonyState) (scan : ReasoningDelta) :
    Counts (h.harmonyDelta scan).2 scan := ⟨rfl, rfl⟩

theorem harmonyDelta_buffer : (h.harmonyDelta scan).2.buffer = h.buffer := by
  unfold harmonyDelta
  dsimp only
  split <;> rfl

theorem harmonyDelta_passthrough :
    (h.harmonyDelta scan).2.passthrough = !contains h.buffer HARMONY_CHANNEL := by
  unfold harmonyDelta
  dsimp only
  split
  · rfl
  · rename_i hsame
    generalize contains h.buffer HARMONY_CHANNEL = c at hsame ⊢
    cases hp : h.passthrough <;> cases c <;> rw [hp] at hsame
    · exact absurd rfl hsame
    · rfl
    · rfl
    · exact absurd rfl hsame

/-- In the mode of the last scan, a delta is what is beyond the counters. -/
theorem harmonyDelta_same (hmode : h.passthrough = !contains h.buffer HARMONY_CHANNEL) :
    (h.harmonyDelta scan).1 =
      ⟨getFrom h.emittedReasoning scan.reasoning, getFrom h.emittedContent scan.content⟩ := by
  unfold harmonyDelta
  dsimp only
  rw [← hmode, bne_self_eq_false, if_neg Bool.false_ne_true]

/-- In a new mode it is all of the scan. -/
theorem harmonyDelta_new (hmode : h.passthrough = contains h.buffer HARMONY_CHANNEL) :
    (h.harmonyDelta scan).1 = scan := by
  unfold harmonyDelta
  dsimp only
  rw [← hmode, if_pos (by cases h.passthrough <;> rfl), getFrom_zero, getFrom_zero]

/-- A delta completes what was emitted to the scan. -/
theorem harmonyDelta_completes (hcount : h.Counts d) (hext : Extends d scan)
    (hmode : h.passthrough = contains h.buffer HARMONY_CHANNEL → d = {}) :
    d ++ (h.harmonyDelta scan).1 = scan := by
  by_cases hnew : h.passthrough = contains h.buffer HARMONY_CHANNEL
  · rw [harmonyDelta_new hnew, hmode hnew]
    rfl
  · have hsame : h.passthrough = !contains h.buffer HARMONY_CHANNEL := by
      cases hp : h.passthrough <;> cases hc : contains h.buffer HARMONY_CHANNEL <;> simp_all
    rw [harmonyDelta_same hsame, hcount.reasoning, hcount.content]
    ext1
    · exact getFrom_of_extends hext.1
    · exact getFrom_of_extends hext.2

end HarmonyState

section Prefixes

variable {s f t : Text} {holdPartial : Bool}

theorem contains_append (h : contains s HARMONY_CHANNEL = true) (f : Text) :
    contains (s ++ f) HARMONY_CHANNEL = true := by
  obtain ⟨i, hi⟩ := Option.isSome_iff_exists.mp h
  rw [contains, findText_append_right hi]
  rfl

theorem toolsClosed_left (h : ToolsClosed (s ++ f)) : ToolsClosed s := by
  induction hn : s.length using Nat.strong_induction_on generalizing s with
  | _ n ih =>
    subst hn
    intro m hm htool b hb
    cases hnext : nextMessage s with
    | none =>
      rw [messages_none hnext] at hm
      cases hm
    | some m' =>
      obtain ⟨before, hhead, hs, ⟨c, hc, hbound⟩ | ⟨hc, -, -⟩⟩ := nextMessage_cases hnext
      · have hgrown : nextMessage (s ++ f) = some ⟨m'.header, m'.body, some c, m'.rest ++ f⟩ := by
          have := hhead.next_bounded (hbound.grow (hbound.bound.trans (List.prefix_append m'.rest f)))
          rwa [← List.append_assoc m'.body, ← List.append_assoc, ← hs] at this
        have hwhole : messages (s ++ f) = _ := messages_bounded hgrown rfl
        rw [messages_bounded hnext hc] at hm
        obtain rfl | hm := List.mem_cons.mp hm
        · have hmem : (⟨m.header, m.body, some c, m.rest ++ f⟩ : HarmonyMessage) ∈ messages (s ++ f) := by
            rw [hwhole]
            exact List.mem_cons_self
          exact h _ hmem htool b (hc ▸ hb)
        · refine ih _ (length_rest_lt hnext) ?_ rfl m hm htool b hb
          intro m'' hm''
          apply h
          rw [hwhole]
          exact List.mem_cons_of_mem _ hm''
      · rw [messages_open hnext hc, List.mem_singleton] at hm
        rw [hm, hc] at hb
        cases hb

theorem SteadyChannels.left (h : SteadyChannels (s ++ f)) : SteadyChannels s := by
  intro i hi
  obtain ⟨hz, hclosed⟩ := h i (findText_append_right hi f)
  exact ⟨hz, toolsClosed_left hclosed⟩

/-- Before the first channel has arrived nothing is emitted of a text that begins with it. -/
theorem harmonyScan_before (h : SteadyChannels (s ++ f)) (hs : contains s HARMONY_CHANNEL = false)
    (hf : contains (s ++ f) HARMONY_CHANNEL = true) : harmonyScan true s = {} := by
  obtain ⟨i, hi⟩ := Option.isSome_iff_exists.mp hf
  obtain ⟨rfl, -⟩ := h i hi
  have hno : ¬ HARMONY_CHANNEL <:+: s := by
    intro hin
    cases hfind : findText HARMONY_CHANNEL s with
    | none => exact (findText_eq_none_iff channel_ne_nil).mp hfind hin
    | some i =>
      rw [contains, hfind] at hs
      cases hs
  have hpre : HARMONY_CHANNEL <+: s ++ f := (findText_leftmost hi).1
  have hcut : s <+: HARMONY_CHANNEL := by
    obtain h | h := List.prefix_or_prefix_of_prefix (List.prefix_append s f) hpre
    · exact h
    · exact absurd h.isInfix hno
  have hne : s ≠ HARMONY_CHANNEL := by
    rintro rfl
    exact hno (List.infix_refl _)
  have hlong := (longestPartial_holdback s [HARMONY_CHANNEL]).longest s (List.suffix_refl s)
    ⟨HARMONY_CHANNEL, List.mem_singleton_self _, hcut, hne⟩
  have hzero : withoutPartial s [HARMONY_CHANNEL] = [] := by
    rw [List.length_drop] at hlong
    apply List.length_eq_zero_iff.mp
    rw [withoutPartial, List.length_take]
    omega
  rw [harmonyScan, hs, if_neg Bool.false_ne_true, if_pos rfl, hzero]

/-- Each scan extends those of the text's beginnings. -/
theorem harmonyScan_extends (h : SteadyChannels (s ++ f)) :
    Extends (harmonyScan true s) (harmonyScan holdPartial (s ++ f)) := by
  cases hs : contains s HARMONY_CHANNEL with
  | true =>
    have hf := contains_append hs f
    obtain ⟨i, hi⟩ := Option.isSome_iff_exists.mp hf
    rw [harmonyScan, harmonyScan, if_pos hs, if_pos hf]
    exact scan_extends s f (h i hi).2
  | false =>
    cases hf : contains (s ++ f) HARMONY_CHANNEL with
    | true =>
      rw [harmonyScan_before h hs hf]
      exact extends_empty _
    | false =>
      rw [harmonyScan, harmonyScan, hs, hf, if_neg Bool.false_ne_true, if_neg Bool.false_ne_true,
        if_pos rfl]
      refine ⟨List.prefix_refl _, ?_⟩
      cases holdPartial with
      | true => exact withoutPartial_grow s f _
      | false => exact (withoutPartial_isPrefix _ _).trans (List.prefix_append _ _)

theorem harmonyScan_last (t : Text) : Extends (harmonyScan true t) (harmonyScan false t) := by
  unfold harmonyScan
  split
  · exact scan_last t
  · exact ⟨List.prefix_refl _, withoutPartial_isPrefix _ _⟩

end Prefixes

namespace ReasoningParser

variable {p : ReasoningParser} {s : Text} {force streamReasoning : Bool}

open HarmonyState

/-- A parser that has scanned `s` last, or nothing yet. -/
structure Scanned (p : ReasoningParser) (s : Text) : Prop where

  format_eq : p.format = .gptOss

  buffer_eq : p.harmony.buffer = s

  counts : p.harmony.Counts (harmonyScan true s)

  mode : p.harmony.passthrough = !contains s HARMONY_CHANNEL ∨ harmonyScan true s = {}

theorem harmonyScan_nil : harmonyScan true [] = {} := by decide

theorem scanned_new : (new .gptOss force streamReasoning).Scanned [] where

  format_eq := rfl
  buffer_eq := rfl
  counts := by
    rw [harmonyScan_nil]
    exact ⟨rfl, rfl⟩
  mode := .inr harmonyScan_nil

theorem push_harmony (hf : p.format = .gptOss) (chunk : Text) : p.push chunk =
    (({ p.harmony with buffer := p.harmony.buffer ++ chunk }.harmonyDelta
        (harmonyScan true (p.harmony.buffer ++ chunk))).1,
      { p with harmony := ({ p.harmony with buffer := p.harmony.buffer ++ chunk }.harmonyDelta
        (harmonyScan true (p.harmony.buffer ++ chunk))).2 }) := by
  rw [push, hf]
  rfl

theorem flush_harmony (hf : p.format = .gptOss) : p.flush.1 =
    (p.harmony.harmonyDelta (harmonyScan false p.harmony.buffer)).1 := by
  rw [flush, hf]
  rfl

/-- After a push the scan is that of all that has arrived. -/
theorem Scanned.push (h : p.Scanned s) (chunk : Text) : (p.push chunk).2.Scanned (s ++ chunk) := by
  rw [push_harmony h.format_eq, h.buffer_eq]
  exact ⟨h.format_eq, harmonyDelta_buffer, counts_harmonyDelta _ _, .inl harmonyDelta_passthrough⟩

/-- The flush adds what the last scan held back. -/
theorem Scanned.flush (h : p.Scanned s) : harmonyScan true s ++ p.flush.1 = harmonyScan false s := by
  rw [flush_harmony h.format_eq, h.buffer_eq]
  apply harmonyDelta_completes h.counts (harmonyScan_last s)
  rw [h.buffer_eq]
  intro hmode
  rcases h.mode with hsame | hempty
  · rw [hmode] at hsame
    cases hc : contains s HARMONY_CHANNEL <;> rw [hc] at hsame <;> cases hsame
  · exact hempty

/-- A push completes what was emitted to the next scan. -/
theorem Scanned.push_completes (h : p.Scanned s) {chunk : Text}
    (hext : Extends (harmonyScan true s) (harmonyScan true (s ++ chunk)))
    (hmode : contains s HARMONY_CHANNEL = false → contains (s ++ chunk) HARMONY_CHANNEL = true →
      harmonyScan true s = {}) :
    harmonyScan true s ++ (p.push chunk).1 = harmonyScan true (s ++ chunk) := by
  rw [push_harmony h.format_eq, h.buffer_eq]
  apply harmonyDelta_completes (h := { p.harmony with buffer := s ++ chunk })
    ⟨h.counts.reasoning, h.counts.content⟩ hext
  intro hnew
  have hnew : p.harmony.passthrough = contains (s ++ chunk) HARMONY_CHANNEL := hnew
  rcases h.mode with hsame | hempty
  · rw [hnew] at hsame
    cases hc : contains s HARMONY_CHANNEL with
    | true =>
      rw [contains_append hc, hc] at hsame
      cases hsame
    | false =>
      rw [hc] at hsame
      exact hmode hc hsame
  · exact hempty

theorem append_assoc (a b c : ReasoningDelta) : a ++ b ++ c = a ++ (b ++ c) := by
  ext1 <;> simp

/-- Of a steady text the deltas reassemble the scan. -/
theorem Scanned.deliver (h : p.Scanned s) (chunks : List Text)
    (hsteady : SteadyChannels (s ++ chunks.flatten)) :
    harmonyScan true s ++ p.deliver chunks = harmonyScan false (s ++ chunks.flatten) := by
  induction chunks generalizing p s with
  | nil =>
    rw [deliver_nil, List.flatten_nil, List.append_nil, ← append_assoc, h.flush]
    ext1 <;> simp
  | cons chunk chunks ih =>
    rw [List.flatten_cons, ← List.append_assoc] at hsteady ⊢
    have hleft := hsteady.left
    rw [deliver_cons, ← append_assoc,
      h.push_completes (harmonyScan_extends hleft) fun hs hf => harmonyScan_before hleft hs hf]
    exact ih (h.push chunk) hsteady

theorem withoutPartial_channel (u : Text) :
    u.length ≤ (withoutPartial (u ++ HARMONY_CHANNEL.dropLast) [HARMONY_CHANNEL]).length := by
  have hle : stopPrefixHoldback (u ++ HARMONY_CHANNEL.dropLast) [HARMONY_CHANNEL] ≤ 10 := by
    rcases holdback_spec (u ++ HARMONY_CHANNEL.dropLast) [HARMONY_CHANNEL] with h | ⟨h, -⟩
    · omega
    · exact h
  have hlen : HARMONY_CHANNEL.dropLast.length = 10 := by decide
  rw [withoutPartial, List.length_take, List.length_append, hlen]
  omega

theorem dropLast_append_getLast {b : Text} (hb : b ∈ HARMONY_BOUNDARIES) :
    b.dropLast ++ [b.getLast (boundary_ne_nil hb)] = b :=
  List.dropLast_append_getLast (boundary_ne_nil hb)

/-- Text before the first channel goes out, and is not part of the scan. -/
theorem early_text_emitted {text : Text} {i : ℕ} (hi : findText HARMONY_CHANNEL text = some i)
    (hpos : i ≠ 0) : ∃ chunks : List Text, chunks.flatten = text ∧
      (new .gptOss force streamReasoning).deliver chunks ≠ harmonyScan false text := by
  have hmem : HARMONY_CHANNEL ∈ HARMONY_BOUNDARIES := by decide
  have hle := Tool.findText_le hi
  obtain ⟨post, hpost⟩ : ∃ post, text = text.take i ++ HARMONY_CHANNEL.dropLast ++
      (HARMONY_CHANNEL.getLast (boundary_ne_nil hmem) :: post) := by
    refine ⟨text.drop (i + HARMONY_CHANNEL.length), ?_⟩
    calc text = text.take i ++ (HARMONY_CHANNEL ++ text.drop (i + HARMONY_CHANNEL.length)) :=
          findText_split hi
      _ = text.take i ++ ((HARMONY_CHANNEL.dropLast ++
            [HARMONY_CHANNEL.getLast (boundary_ne_nil hmem)]) ++
            text.drop (i + HARMONY_CHANNEL.length)) := by rw [dropLast_append_getLast hmem]
      _ = _ := by simp only [List.append_assoc, List.singleton_append]
  generalize hfirst : text.take i ++ HARMONY_CHANNEL.dropLast = first at hpost
  generalize HARMONY_CHANNEL.getLast (boundary_ne_nil hmem) :: post = second at hpost
  have habsent : contains first HARMONY_CHANNEL = false := by
    cases hf : findText HARMONY_CHANNEL first with
    | none => rw [contains, hf]; rfl
    | some j =>
      have hwhole := findText_append_right hf second
      rw [← hpost, hi] at hwhole
      obtain rfl := Option.some.inj hwhole
      have hend := Tool.findText_le hf
      rw [← hfirst, List.length_append, List.length_take, List.length_dropLast] at hend
      have hlen : HARMONY_CHANNEL.length = 11 := by decide
      omega
  refine ⟨[first, second], by rw [hpost]; simp, fun heq => ?_⟩
  have hone : (new .gptOss force streamReasoning).Scanned [] := scanned_new
  have htwo := hone.push first
  rw [List.nil_append] at htwo
  have hall := htwo.push second
  rw [← hpost] at hall
  have hpresent : contains text HARMONY_CHANNEL = true := by
    rw [contains, hi]
    rfl
  have hdelta : ((new .gptOss force streamReasoning).push first).1.content =
      withoutPartial first [HARMONY_CHANNEL] := by
    have hscan : harmonyScan true [] ++ _ = harmonyScan true ([] ++ first) := hone.push_completes
      (by rw [harmonyScan_nil]; exact extends_empty _) (fun _ _ => harmonyScan_nil)
    rw [harmonyScan_nil, List.nil_append] at hscan
    have hcontent := congrArg ReasoningDelta.content hscan
    rw [ReasoningDelta.append_content, List.nil_append, harmonyScan, habsent,
      if_neg Bool.false_ne_true, if_pos rfl] at hcontent
    exact hcontent
  have hdelta' : (((new .gptOss force streamReasoning).push first).2.push second).1 =
      harmonyScan true text := by
    have hmode : ((new .gptOss force streamReasoning).push first).2.harmony.passthrough = true := by
      rw [push_harmony hone.format_eq, hone.buffer_eq]
      dsimp only
      rw [harmonyDelta_passthrough, List.nil_append, habsent]
      rfl
    rw [push_harmony htwo.format_eq, htwo.buffer_eq, ← hpost]
    apply harmonyDelta_new
    dsimp only
    rw [hmode, hpresent]
  have hlast := hall.flush
  rw [deliver_cons, deliver_cons, deliver_nil, hdelta'] at heq
  have hlength := congrArg (fun d => d.content.length) heq
  rw [← hlast] at hlength
  simp only [ReasoningDelta.append_content, List.length_append, hdelta, List.append_nil] at hlength
  have hlong := withoutPartial_channel (text.take i)
  rw [hfirst, List.length_take] at hlong
  omega

theorem scan_boundary {b : Text} (hb : b ∈ HARMONY_BOUNDARIES) : scanMessages true b = {} := by
  apply scan_none
  revert b
  decide

/-- What a tool message has shown of a boundary goes out, and is not part of the scan. -/
theorem cut_boundary_emitted {text : Text} (hbad : ¬ ToolsClosed text) : ∃ chunks : List Text, chunks.flatten = text ∧
      (new .gptOss force streamReasoning).deliver chunks ≠ harmonyScan false text := by
  obtain ⟨pre, b, post, emitted, hcut⟩ := exists_cutTool hbad
  have hpre : contains pre HARMONY_CHANNEL = true := by
    cases hfind : findText HARMONY_CHANNEL pre with
    | none => exact absurd hcut.channel ((findText_eq_none_iff channel_ne_nil).mp hfind)
    | some i => rw [contains, hfind]; rfl
  refine ⟨[pre ++ b.dropLast, [b.getLast (boundary_ne_nil hcut.mem)], post], ?_, fun heq => ?_⟩
  · have hb := dropLast_append_getLast hcut.mem
    calc [pre ++ b.dropLast, [b.getLast (boundary_ne_nil hcut.mem)], post].flatten
        = pre ++ ((b.dropLast ++ [b.getLast (boundary_ne_nil hcut.mem)]) ++ post) := by simp
      _ = text := by rw [hb, ← hcut.text_eq]
  have hzero : (new .gptOss force streamReasoning).Scanned [] := scanned_new
  have hone := hzero.push (pre ++ b.dropLast)
  have htwo := hone.push [b.getLast (boundary_ne_nil hcut.mem)]
  have hwhole : pre ++ b.dropLast ++ [b.getLast (boundary_ne_nil hcut.mem)] = pre ++ b := by
    rw [List.append_assoc, dropLast_append_getLast hcut.mem]
  rw [List.nil_append] at hone htwo
  have hscan : harmonyScan true (pre ++ b.dropLast) = emitted ++ { content := b.dropLast } := by
    rw [harmonyScan, if_pos (contains_append hpre _), hcut.scan_cut]
  have hscan' : harmonyScan true (pre ++ b) = emitted := by
    have heq := hcut.scan_eq true []
    rw [List.append_nil, scan_boundary hcut.mem] at heq
    rw [harmonyScan, if_pos (contains_append hpre _), heq]
    ext1 <;> simp
  have hfirst : ((new .gptOss force streamReasoning).push (pre ++ b.dropLast)).1 =
      emitted ++ { content := b.dropLast } := by
    have h : harmonyScan true [] ++ _ = harmonyScan true ([] ++ (pre ++ b.dropLast)) :=
      hzero.push_completes (by rw [harmonyScan_nil]; exact extends_empty _)
        (fun _ _ => harmonyScan_nil)
    rw [harmonyScan_nil, List.nil_append, hscan] at h
    rw [← h]
    ext1 <;> simp
  have hsecond : ((((new .gptOss force streamReasoning).push (pre ++ b.dropLast)).2).push
      [b.getLast (boundary_ne_nil hcut.mem)]).1 = {} := by
    have hmode : ((new .gptOss force streamReasoning).push (pre ++ b.dropLast)).2.harmony.passthrough
        = !contains (pre ++ b) HARMONY_CHANNEL := by
      rw [push_harmony hzero.format_eq, hzero.buffer_eq]
      dsimp only
      rw [harmonyDelta_passthrough, List.nil_append, contains_append hpre, contains_append hpre]
    have hreasoning := hone.counts.reasoning
    have hcontent := hone.counts.content
    rw [push_harmony hone.format_eq, hone.buffer_eq, hwhole, hscan']
    dsimp only
    rw [harmonyDelta_same hmode]
    rw [hscan] at hreasoning hcontent
    ext1
    · apply getFrom_past
      rw [hreasoning]
      simp [byteLen]
    · apply getFrom_past
      rw [hcontent]
      simp [byteLen]
  rw [hwhole] at htwo
  have hthree := htwo.push post
  have hthird : harmonyScan true (pre ++ b) ++ _ = harmonyScan true (pre ++ b ++ post) :=
    htwo.push_completes
      (by
        rw [hscan', harmonyScan, if_pos (contains_append (contains_append hpre _) _),
          List.append_assoc, hcut.scan_eq]
        exact extends_append _ _)
      (fun hno => by rw [contains_append hpre] at hno; cases hno)
  have hlast := hthree.flush
  rw [← hthird, hscan', List.append_assoc, ← hcut.text_eq] at hlast
  rw [deliver_cons, deliver_cons, deliver_cons, deliver_nil, hfirst, hsecond, ← hlast] at heq
  have hlength := congrArg (fun d => d.content.length) heq
  simp only [ReasoningDelta.append_content, List.length_append, List.length_dropLast,
    List.length_nil] at hlength
  have hlong := (boundary_length b hcut.mem).1
  omega

/-- A text's deltas reassemble its scan under every chunking exactly when no text stands in front
of the first channel and no tool message is ended by another message. -/
theorem harmony_scan_delivered (force streamReasoning : Bool) (text : Text) :
    (∀ chunks : List Text, chunks.flatten = text →
      (new .gptOss force streamReasoning).deliver chunks = harmonyScan false text) ↔
    SteadyChannels text := by
  constructor
  · intro hall
    by_contra hbad
    obtain ⟨i, hi, hcase⟩ : ∃ i, findText HARMONY_CHANNEL text = some i ∧
        (i ≠ 0 ∨ ¬ ToolsClosed text) := by
      by_contra hnone
      apply hbad
      intro i hi
      by_contra hcase
      exact hnone ⟨i, hi, not_and_or.mp hcase⟩
    obtain ⟨chunks, hchunks, hne⟩ : ∃ chunks : List Text, chunks.flatten = text ∧
        (new .gptOss force streamReasoning).deliver chunks ≠ harmonyScan false text := by
      rcases hcase with hpos | hopen
      · exact early_text_emitted hi hpos
      · exact cut_boundary_emitted hopen
    exact hne (hall chunks hchunks)
  · rintro hsteady chunks rfl
    have hnew : (new .gptOss force streamReasoning).Scanned [] := scanned_new
    have h := hnew.deliver chunks (by rwa [List.nil_append])
    rwa [harmonyScan_nil, List.nil_append] at h

/-- The greeting has gone out as content when the channel opens and takes it back. -/
theorem harmony_scan_withdrawn :
    (new .gptOss false true).deliver
      ["Hi ".toList, "<|channel|>final<|message|>yes".toList] ≠
    harmonyScan false ["Hi ".toList, "<|channel|>final<|message|>yes".toList].flatten := by
  have hscan : ∀ holdPartial,
      harmonyScan holdPartial "Hi <|channel|>final<|message|>yes".toList =
        { content := "yes".toList } := by
    intro holdPartial
    rw [harmonyScan, if_pos (by decide),
      scan_open (m := ⟨"final".toList, "yes".toList, none, []⟩) (by rfl) rfl]
    cases holdPartial <;> rfl
  have hflat : ["Hi ".toList, "<|channel|>final<|message|>yes".toList].flatten =
      "Hi <|channel|>final<|message|>yes".toList := by decide
  have hpush : ((new .gptOss false true).push "Hi ".toList).1 = { content := "Hi ".toList } := by
    decide
  rw [hflat, hscan, deliver_cons, hpush]
  intro heq
  have hcontent := congrArg ReasoningDelta.content heq
  simp only [ReasoningDelta.append_content] at hcontent
  have hfirst := congrArg List.head? hcontent
  simp at hfirst

end ReasoningParser

end Frink.Reasoning
