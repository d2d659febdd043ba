import Frink.Reasoning.Parser
import Frink.Reasoning.Search

/-! # Successive scans

A scan of a longer text extends the scan of a shorter one, as long as no tool message is ended by
the next message: its slice runs to the end of the text while it is open, and loses the boundary
when that turns out not to be a closer.
-/

/-! ## Messages of the harmony format

What the scan finds depends only on the text up to the marker that ends a body: a message that is
complete stays as it is whatever follows, and an open one grows.
-/

namespace Frink.Reasoning
open Decode Occurs
open Tool (contains byteLen)

section Boundaries

variable {b c : Text}

theorem apart_boundaries : ∀ b ∈ HARMONY_BOUNDARIES, ∀ c ∈ HARMONY_BOUNDARIES, Apart b c := by
  decide

theorem boundary_unique : ∀ b ∈ HARMONY_BOUNDARIES, ∀ c ∈ HARMONY_BOUNDARIES, b <+: c → b = c := by
  decide

theorem boundary_not_in_cut :
    ∀ b ∈ HARMONY_BOUNDARIES, ∀ c ∈ HARMONY_BOUNDARIES, ¬ b <:+: c.dropLast := by
  decide

theorem boundary_length : ∀ b ∈ HARMONY_BOUNDARIES, 1 < b.length ∧ b.length ≤ HARMONY_CHANNEL.length := by
  decide

theorem boundary_ne_nil (hb : b ∈ HARMONY_BOUNDARIES) : b ≠ [] := by
  rintro rfl
  have := (boundary_length [] hb).1
  cases this

theorem channel_ne_nil : HARMONY_CHANNEL ≠ [] := by decide

end Boundaries

section Earliest

variable {text body rest b : Text} {n : ℕ}

theorem nearer_cases (text : Text) (best : ℕ × Option Text) (marker : Text) :
    nearer text best marker = best ∧ (∀ i, findText marker text = some i → best.1 ≤ i) ∨
      ∃ i, findText marker text = some i ∧ i < best.1 ∧ nearer text best marker = (i, some marker) := by
  unfold nearer
  cases findText marker text with
  | none => exact .inl ⟨rfl, fun _ h => nomatch h⟩
  | some index =>
    dsimp only
    split
    · exact .inr ⟨index, rfl, ‹_›, rfl⟩
    · refine .inl ⟨rfl, fun i hi => ?_⟩
      obtain rfl := Option.some.inj hi
      omega

/-- The fold over the markers, from any best so far. -/
theorem foldl_nearer (markers : List Text) (best : ℕ × Option Text) :
    (markers.foldl (nearer text) best).1 ≤ best.1 ∧
      (∀ m ∈ markers, ∀ i, findText m text = some i → (markers.foldl (nearer text) best).1 ≤ i) ∧
      (markers.foldl (nearer text) best = best ∨
        ∃ m ∈ markers, (markers.foldl (nearer text) best).2 = some m ∧
          findText m text = some (markers.foldl (nearer text) best).1) := by
  induction markers generalizing best with
  | nil => exact ⟨Nat.le_refl _, (fun _ hm => nomatch hm), .inl rfl⟩
  | cons marker markers ih =>
    obtain ⟨hle, hall, hwhich⟩ := ih (nearer text best marker)
    rw [List.foldl_cons]
    have hlater : ∀ m ∈ markers, m ∈ marker :: markers := fun _ hm => List.mem_cons_of_mem _ hm
    obtain ⟨hsame, hfirst⟩ | ⟨i, hi, hlt, heq⟩ := nearer_cases text best marker
    · rw [hsame] at hle hall hwhich ⊢
      refine ⟨hle, ?_, hwhich.imp_right fun ⟨m, hm, h⟩ => ⟨m, hlater m hm, h⟩⟩
      rintro m hm i hi
      obtain rfl | hm := List.mem_cons.mp hm
      · exact Nat.le_trans hle (hfirst i hi)
      · exact hall m hm i hi
    · rw [heq] at hle hall hwhich ⊢
      dsimp only at hle
      refine ⟨by omega, ?_, .inr ?_⟩
      · rintro m hm j hj
        obtain rfl | hm := List.mem_cons.mp hm
        · obtain rfl := Option.some.inj (hi.symm.trans hj)
          exact hle
        · exact hall m hm j hj
      · rcases hwhich with hsame | ⟨m, hm, h⟩
        · refine ⟨marker, List.mem_cons_self, ?_, ?_⟩
          · rw [hsame]
          · rw [hsame]
            exact hi
        · exact ⟨m, hlater m hm, h⟩

/-- Either no boundary occurs, or the one reported is where none begins earlier. -/
theorem earliestMarker_cases (text : Text) :
    (earliestMarker text HARMONY_BOUNDARIES = (text.length, none) ∧
      ∀ b ∈ HARMONY_BOUNDARIES, ¬ b <:+: text) ∨
    ∃ n b, earliestMarker text HARMONY_BOUNDARIES = (n, some b) ∧ b ∈ HARMONY_BOUNDARIES ∧
      b <+: text.drop n ∧ ∀ c ∈ HARMONY_BOUNDARIES, Clear c (text.take n) (text.drop n) := by
  obtain ⟨-, hall, hwhich⟩ := @foldl_nearer text HARMONY_BOUNDARIES (text.length, none)
  change ∀ m ∈ _, ∀ i, _ → (earliestMarker text HARMONY_BOUNDARIES).1 ≤ i at hall
  change earliestMarker text HARMONY_BOUNDARIES = _ ∨ _ at hwhich
  rcases hwhich with hsame | ⟨b, hb, hwhich, hfind⟩
  · left
    refine ⟨hsame, fun b hb hin => ?_⟩
    cases hf : findText b text with
    | none => exact (findText_eq_none_iff (boundary_ne_nil hb)).mp hf hin
    | some i =>
      have hle := hall b hb i hf
      have hlen := Tool.findText_le hf
      have hpos := (boundary_length b hb).1
      rw [hsame] at hle
      dsimp only at hle
      omega
  · right
    refine ⟨_, b, Prod.ext rfl hwhich, hb, (findText_leftmost hfind).1, fun c hc k hk hp => ?_⟩
    rw [List.take_append_drop] at hp
    rw [List.length_take] at hk
    cases hf : findText c text with
    | none => exact findText_eq_none hf k (boundary_ne_nil hc) hp
    | some i =>
      have hle := hall c hc i hf
      exact (findText_leftmost hf).2 k (Nat.lt_of_lt_of_le (Nat.lt_min.mp hk).1 hle) hp

/-- A body with a boundary behind it and none that begins in it. -/
structure Bounded (body b rest : Text) : Prop where

  mem : b ∈ HARMONY_BOUNDARIES

  bound : b <+: rest

  clear : ∀ c ∈ HARMONY_BOUNDARIES, Clear c body rest

theorem Bounded.earliest (h : Bounded body b rest) :
    earliestMarker (body ++ rest) HARMONY_BOUNDARIES = (body.length, some b) := by
  have hat : b <+: (body ++ rest).drop body.length := by
    rw [List.drop_left]
    exact h.bound
  rcases earliestMarker_cases (body ++ rest) with ⟨-, hnone⟩ | ⟨n, c, heq, hc, hpre, hclear⟩
  · exact absurd (hat.isInfix.trans (List.drop_suffix _ _).isInfix) (hnone b h.mem)
  · have hn : n = body.length := by
      obtain hlt | rfl | hgt := Nat.lt_trichotomy n body.length
      · exact absurd hpre (h.clear c hc n hlt)
      · rfl
      · exfalso
        apply hclear b h.mem body.length
        · rw [List.length_take, List.length_append]
          have := h.bound.length_le
          have := (boundary_length b h.mem).1
          omega
        · rwa [List.take_append_drop]
    subst hn
    rw [List.drop_left] at hpre
    rw [heq]
    obtain hbc | hcb := List.prefix_or_prefix_of_prefix h.bound hpre
    · rw [boundary_unique b h.mem c hc hbc]
    · rw [boundary_unique c hc b h.mem hcb]

/-- What follows the boundary does not matter. -/
theorem Bounded.grow (h : Bounded body b rest) {rest' : Text} (hb : b <+: rest') :
    Bounded body b rest' where

  mem := h.mem
  bound := hb
  clear c hc := by
    obtain ⟨more, rfl⟩ := hb
    exact clear_of_apart (apart_boundaries c hc b h.mem)
      ((h.clear c hc).absent (boundary_ne_nil hc)) more

end Earliest

section Next

variable {text before header body rest after b : Text} {m : HarmonyMessage}

/-- An occurrence in front of the pattern itself does not depend on what follows the pattern. -/
theorem clear_grow {p r : Text} (h : Clear p r p) (w : Text) : Clear p r (p ++ w) := by
  intro k hk hp
  apply h k hk
  rw [← List.append_assoc, List.drop_append_of_le_length (by rw [List.length_append]; omega)] at hp
  apply List.prefix_of_prefix_length_le hp (List.prefix_append _ _)
  rw [List.length_drop, List.length_append]
  omega

/-- The text up to a message's body. -/
def opening (before header : Text) : Text :=
  before ++ (HARMONY_CHANNEL ++ (header ++ HARMONY_MESSAGE))

/-- A header stands where the scan finds it. -/
structure Headed (before header : Text) : Prop where

  channel : Clear HARMONY_CHANNEL before HARMONY_CHANNEL

  message : Clear HARMONY_MESSAGE header HARMONY_MESSAGE

/-- The scan of a headed text. -/
theorem Headed.next (h : Headed before header) (after : Text) :
    nextMessage (opening before header ++ after) =
      some ⟨header, after.take (earliestMarker after HARMONY_BOUNDARIES).1,
        (earliestMarker after HARMONY_BOUNDARIES).2,
        after.drop (earliestMarker after HARMONY_BOUNDARIES).1⟩ := by
  have htext : opening before header ++ after =
      before ++ (HARMONY_CHANNEL ++ (header ++ (HARMONY_MESSAGE ++ after))) := by
    simp [opening]
  have hchannel : findText HARMONY_CHANNEL (opening before header ++ after) = some before.length := by
    rw [htext, findText_append (clear_grow h.channel _),
      Tool.findText_of_prefix (List.prefix_append _ _), Option.map_some, Nat.zero_add]
  have hmessage : findText HARMONY_MESSAGE (header ++ (HARMONY_MESSAGE ++ after)) =
      some header.length := by
    rw [findText_append (clear_grow h.message _), Tool.findText_of_prefix (List.prefix_append _ _),
      Option.map_some, Nat.zero_add]
  have hopened : (opening before header ++ after).drop (before.length + HARMONY_CHANNEL.length) =
      header ++ (HARMONY_MESSAGE ++ after) := by
    rw [htext, List.drop_length_add_append, List.drop_left]
  rw [nextMessage, hchannel]
  dsimp only
  rw [hopened, hmessage]
  dsimp only
  rw [List.drop_length_add_append, List.drop_left, List.take_left]

/-- What a found message says of the text: it is complete before a boundary, or open. -/
theorem nextMessage_cases (h : nextMessage text = some m) : ∃ before,
    Headed before m.header ∧ text = opening before m.header ++ (m.body ++ m.rest) ∧
      ((∃ b, m.boundary = some b ∧ Bounded m.body b m.rest) ∨
        m.boundary = none ∧ m.rest = [] ∧ ∀ b ∈ HARMONY_BOUNDARIES, ¬ b <:+: m.body) := by
  unfold nextMessage at h
  split at h
  · cases h
  rename_i channel hc
  dsimp only at h
  split at h
  · cases h
  rename_i message hm
  obtain rfl := Option.some.inj h
  have hchannel := clear_of_findText hc
  have hmessage := clear_of_findText hm
  rw [drop_of_findText hc] at hchannel
  rw [drop_of_findText hm] at hmessage
  have hsplit := findText_split hc
  generalize text.drop (channel + HARMONY_CHANNEL.length) = opened at hm hmessage hsplit ⊢
  have hopened := findText_split hm
  generalize opened.drop (message + HARMONY_MESSAGE.length) = after at hopened ⊢
  refine ⟨text.take channel, ⟨hchannel.mono (List.prefix_append _ _),
    hmessage.mono (List.prefix_append _ _)⟩, ?_, ?_⟩
  · conv_lhs => rw [hsplit, hopened]
    simp [opening]
  · rcases earliestMarker_cases after with ⟨heq, hnone⟩ | ⟨n, b, heq, hb, hpre, hclear⟩
    · right
      simp only [heq, List.take_length, List.drop_length]
      exact ⟨trivial, trivial, hnone⟩
    · left
      simp only [heq]
      exact ⟨b, rfl, hb, hpre, hclear⟩

end Next

end Frink.Reasoning

namespace Frink.Reasoning
open Decode Occurs
open Tool (contains byteLen)

/-- The messages of a scan. -/
def messages (text : Text) : List HarmonyMessage :=
  match _h : nextMessage text with
  | none => []
  | some m => m :: if m.boundary.isNone then [] else messages m.rest
termination_by text.length
decreasing_by exact length_rest_lt _h

/-- Every tool message that is over was ended by a closing token. -/
def ToolsClosed (text : Text) : Prop :=
  ∀ m ∈ messages text, m.isTool = true → ∀ b ∈ m.boundary, b ∈ HARMONY_CLOSERS

/-- Both fields only grow. -/
def Extends (d e : ReasoningDelta) : Prop := d.reasoning <+: e.reasoning ∧ d.content <+: e.content

theorem Extends.refl (d : ReasoningDelta) : Extends d d :=
  ⟨List.prefix_refl _, List.prefix_refl _⟩

theorem Extends.trans {d e f : ReasoningDelta} (h : Extends d e) (h' : Extends e f) : Extends d f :=
  ⟨h.1.trans h'.1, h.2.trans h'.2⟩

theorem extends_append (d e : ReasoningDelta) : Extends d (d ++ e) :=
  ⟨List.prefix_append _ _, List.prefix_append _ _⟩

theorem Extends.after {d e : ReasoningDelta} (h : Extends d e) (x : ReasoningDelta) :
    Extends (x ++ d) (x ++ e) :=
  ⟨(List.prefix_append_right_inj _).mpr h.1, (List.prefix_append_right_inj _).mpr h.2⟩

theorem extends_empty (d : ReasoningDelta) : Extends {} d := ⟨List.nil_prefix, List.nil_prefix⟩

section Partial

variable {s f body : Text} {stops : List Text}

theorem withoutPartial_isPrefix (s : Text) (stops : List Text) : withoutPartial s stops <+: s :=
  List.take_prefix _ _

/-- What may be released of a text may be released of a longer one. -/
theorem withoutPartial_grow (s f : Text) (stops : List Text) :
    withoutPartial s stops <+: withoutPartial (s ++ f) stops := by
  have hs : withoutPartial s stops <+: s ++ f :=
    (withoutPartial_isPrefix s stops).trans (List.prefix_append _ _)
  apply List.prefix_of_prefix_length_le hs (withoutPartial_isPrefix _ _)
  by_contra hshort
  have hlong := longestPartial_holdback s stops
  have hlong' := longestPartial_holdback (s ++ f) stops
  simp only [withoutPartial, List.length_take, List.length_append] at hshort
  generalize hn : s.length - stopPrefixHoldback s stops = n at hshort hlong
  rw [List.length_append] at hlong'
  generalize s.length + f.length - stopPrefixHoldback (s ++ f) stops = k at hshort hlong'
  have hk : k < n ∧ n ≤ s.length := by omega
  have hne : (s ++ f).drop k ≠ [] := by
    apply List.ne_nil_of_length_pos
    rw [List.length_drop, List.length_append]
    omega
  obtain ⟨stop, hstop, hpre, hproper⟩ := hlong'.isPartial hne
  rw [List.drop_append_of_le_length (by omega)] at hpre hproper
  have hcut : s.drop k <+: stop := (List.prefix_append _ _).trans hpre
  have hlt : (s.drop k).length ≠ stop.length := by
    intro heq
    have hall := hcut.eq_of_length heq
    have hf : f = [] := by
      have := hpre.length_le
      rw [List.length_append, heq] at this
      exact List.length_eq_zero_iff.mp (by omega)
    rw [hf, List.append_nil] at hproper
    exact hproper hall
  have hle := hlong.longest (s.drop k) (List.drop_suffix _ _) ⟨stop, hstop, hcut, by
    rintro rfl
    exact hlt rfl⟩
  rw [List.length_drop, List.length_drop] at hle
  omega

/-- What may be released of an open body lies before its boundary. -/
theorem withoutPartial_le {b rest : Text} (h : ∀ b ∈ HARMONY_BOUNDARIES, ¬ b <:+: body)
    (hb : b ∈ HARMONY_BOUNDARIES) {n : ℕ} (hn : b <+: (body ++ rest).drop n) :
    (withoutPartial body HARMONY_BOUNDARIES).length ≤ n := by
  by_contra hlt
  have hclear := clear_of_holdback hb (h b hb) rest
  apply hclear n (Nat.lt_of_not_le hlt)
  rwa [← List.append_assoc, List.take_append_drop]

end Partial

section Steps

variable {text s before header body rest b : Text} {m : HarmonyMessage} {holdPartial : Bool}

theorem Headed.next_bounded (h : Headed before header) (hb : Bounded body b rest) :
    nextMessage (opening before header ++ (body ++ rest)) = some ⟨header, body, some b, rest⟩ := by
  rw [h.next, hb.earliest, List.take_left, List.drop_left]

theorem Headed.next_open (h : Headed before header) (hb : ∀ b ∈ HARMONY_BOUNDARIES, ¬ b <:+: body) :
    nextMessage (opening before header ++ body) = some ⟨header, body, none, []⟩ := by
  rcases earliestMarker_cases body with ⟨heq, -⟩ | ⟨n, b, -, hmem, hpre, -⟩
  · rw [h.next, heq, List.take_length, List.drop_length]
  · exact absurd (hpre.isInfix.trans (List.drop_suffix _ _).isInfix) (hb b hmem)

theorem scan_none (h : nextMessage text = none) : scanMessages holdPartial text = {} := by
  unfold scanMessages
  split
  · rfl
  · rename_i m hm
    rw [h] at hm
    cases hm

theorem scan_open (h : nextMessage text = some m) (hb : m.boundary = none) :
    scanMessages holdPartial text = m.emit holdPartial := by
  unfold scanMessages
  split
  · rename_i hm
    rw [h] at hm
    cases hm
  · rename_i m' hm
    obtain rfl := Option.some.inj (h.symm.trans hm)
    rw [hb]
    rfl

theorem scan_bounded (h : nextMessage text = some m) (hb : m.boundary = some b) :
    scanMessages holdPartial text = m.emit false ++ scanMessages holdPartial m.rest := by
  have hemit : m.emit holdPartial = m.emit false := by
    rw [HarmonyMessage.emit, HarmonyMessage.emit, hb, Option.isNone_some, Bool.false_and,
      Bool.false_and]
  conv_lhs => unfold scanMessages
  split
  · rename_i hm
    rw [h] at hm
    cases hm
  · rename_i m' hm
    obtain rfl := Option.some.inj (h.symm.trans hm)
    rw [hb, hemit]
    rfl

theorem messages_none (h : nextMessage text = none) : messages text = [] := by
  unfold messages
  split
  · rfl
  · rename_i m hm
    rw [h] at hm
    cases hm

theorem messages_open (h : nextMessage text = some m) (hb : m.boundary = none) :
    messages text = [m] := by
  unfold messages
  split
  · rename_i hm
    rw [h] at hm
    cases hm
  · rename_i m' hm
    obtain rfl := Option.some.inj (h.symm.trans hm)
    rw [hb]
    rfl

theorem messages_bounded (h : nextMessage text = some m) (hb : m.boundary = some b) :
    messages text = m :: messages m.rest := by
  conv_lhs => unfold messages
  split
  · rename_i hm
    rw [h] at hm
    cases hm
  · rename_i m' hm
    obtain rfl := Option.some.inj (h.symm.trans hm)
    rw [hb]
    rfl

end Steps

section Extending

variable {s f t before header body body' rest b : Text} {which : Option Text} {m : HarmonyMessage}
  {holdPartial : Bool}

theorem emit_tool (h : m.isTool = true) : m.emit holdPartial =
    { content := HARMONY_CHANNEL ++ m.header ++ HARMONY_MESSAGE ++ m.body ++
        ((m.boundary.filter HARMONY_CLOSERS.contains).getD []) } := by
  rw [HarmonyMessage.emit, if_pos h]

/-- What is released of the body of a message that is no call. -/
def released (m : HarmonyMessage) (holdPartial : Bool) : Text :=
  if m.boundary.isNone && holdPartial then withoutPartial m.body HARMONY_BOUNDARIES else m.body

theorem emit_text (h : m.isTool = false) : m.emit holdPartial =
    if m.channelName == "analysis".toList then { reasoning := released m holdPartial }
    else { content := released m holdPartial } := by
  rw [HarmonyMessage.emit, if_neg (Bool.not_eq_true _ ▸ h)]
  rfl

/-- An open message that grows, and may meet its boundary, only adds to what it emitted. -/
theorem emit_extends (hsplit : body' ++ rest = body ++ f)
    (hopen : ∀ b ∈ HARMONY_BOUNDARIES, ¬ b <:+: body)
    (hwhich : (∃ b, which = some b ∧ Bounded body' b rest) ∨ which = none ∧ rest = [])
    (htool : (⟨header, body', which, rest⟩ : HarmonyMessage).isTool = true →
      ∀ b ∈ which, b ∈ HARMONY_CLOSERS) :
    Extends ((⟨header, body, none, []⟩ : HarmonyMessage).emit true)
      ((⟨header, body', which, rest⟩ : HarmonyMessage).emit holdPartial) := by
  cases ht : (⟨header, body', which, rest⟩ : HarmonyMessage).isTool with
  | true =>
    have ht' : (⟨header, body, none, []⟩ : HarmonyMessage).isTool = true := ht
    rw [emit_tool ht, emit_tool ht']
    refine ⟨List.prefix_refl _, ?_⟩
    dsimp only
    rw [Option.filter_none, Option.getD_none, List.append_nil, List.append_assoc _ body',
      List.prefix_append_right_inj]
    rcases hwhich with ⟨b, rfl, hb⟩ | ⟨rfl, rfl⟩
    · have hcloser : HARMONY_CLOSERS.contains b = true :=
        List.contains_iff_mem.mpr (htool ht b rfl)
      rw [Option.filter_some, if_pos hcloser, Option.getD_some]
      have hpre : body' ++ b <+: body ++ f := by
        rw [← hsplit]
        exact (List.prefix_append_right_inj _).mpr hb.bound
      obtain h | h := List.prefix_or_prefix_of_prefix (List.prefix_append body f) hpre
      · exact h
      · exact absurd ((List.suffix_append body' b).isInfix.trans h.isInfix) (hopen b hb.mem)
    · rw [List.append_nil] at hsplit
      rw [hsplit]
      exact (List.prefix_append _ _).trans (List.prefix_append _ _)
  | false =>
    have ht' : (⟨header, body, none, []⟩ : HarmonyMessage).isTool = false := ht
    have hreleased : released ⟨header, body, none, []⟩ true <+:
        released ⟨header, body', which, rest⟩ holdPartial := by
      rcases hwhich with ⟨b, rfl, hb⟩ | ⟨rfl, rfl⟩
      · have hpre : withoutPartial body HARMONY_BOUNDARIES <+: body' ++ rest := by
          rw [hsplit]
          exact (withoutPartial_isPrefix _ _).trans (List.prefix_append _ _)
        apply List.prefix_of_prefix_length_le hpre (List.prefix_append _ _)
        apply withoutPartial_le hopen hb.mem
        rw [← hsplit, List.drop_left]
        exact hb.bound
      · rw [List.append_nil] at hsplit
        subst hsplit
        cases holdPartial with
        | true => exact withoutPartial_grow body f _
        | false => exact (withoutPartial_isPrefix _ _).trans (List.prefix_append _ _)
    have hname : (⟨header, body, none, []⟩ : HarmonyMessage).channelName =
        (⟨header, body', which, rest⟩ : HarmonyMessage).channelName := rfl
    rw [emit_text ht, emit_text ht', hname]
    split
    · exact ⟨hreleased, List.prefix_refl _⟩
    · exact ⟨List.prefix_refl _, hreleased⟩

/-- The scan of a text starts with its first message. -/
theorem extends_first (h : nextMessage t = some m) :
    Extends (m.emit holdPartial) (scanMessages holdPartial t) := by
  cases hb : m.boundary with
  | none =>
    rw [scan_open h hb]
    exact .refl _
  | some b =>
    have hemit : m.emit holdPartial = m.emit false := by
      rw [HarmonyMessage.emit, HarmonyMessage.emit, hb, Option.isNone_some, Bool.false_and,
        Bool.false_and]
    rw [scan_bounded h hb, hemit]
    exact extends_append _ _

theorem toolsClosed_first (h : nextMessage t = some m) (ht : ToolsClosed t) :
    m.isTool = true → ∀ b ∈ m.boundary, b ∈ HARMONY_CLOSERS := by
  apply ht
  cases hb : m.boundary with
  | none =>
    rw [messages_open h hb]
    exact List.mem_singleton_self m
  | some b =>
    rw [messages_bounded h hb]
    exact List.mem_cons_self

/-- Successive scans only ever extend what was emitted. -/
theorem scan_extends (s f : Text) (hclosed : ToolsClosed (s ++ f)) :
    Extends (scanMessages true s) (scanMessages holdPartial (s ++ f)) := by
  induction hn : s.length using Nat.strong_induction_on generalizing s with
  | _ n ih =>
    subst hn
    cases hnext : nextMessage s with
    | none =>
      rw [scan_none hnext]
      exact extends_empty _
    | some m =>
      obtain ⟨before, hhead, hs, ⟨b, hb, hbound⟩ | ⟨hb, hrest, hopen⟩⟩ := nextMessage_cases hnext
      · have hgrown : nextMessage (s ++ f) = some ⟨m.header, m.body, some b, m.rest ++ f⟩ := by
          have := hhead.next_bounded (hbound.grow (hbound.bound.trans (List.prefix_append m.rest f)))
          rwa [← List.append_assoc m.body, ← List.append_assoc, ← hs] at this
        have hlater : ToolsClosed (m.rest ++ f) := by
          intro m' hm'
          apply hclosed
          rw [messages_bounded hgrown rfl]
          exact List.mem_cons_of_mem _ hm'
        have hemit : m.emit false =
            (⟨m.header, m.body, some b, m.rest ++ f⟩ : HarmonyMessage).emit false := by
          rw [HarmonyMessage.emit, HarmonyMessage.emit, hb]
          rfl
        rw [scan_bounded hnext hb, scan_bounded hgrown rfl, hemit]
        exact (ih _ (length_rest_lt hnext) m.rest hlater rfl).after _
      · have hgrown : nextMessage (s ++ f) = some ⟨m.header,
            (m.body ++ f).take (earliestMarker (m.body ++ f) HARMONY_BOUNDARIES).1,
            (earliestMarker (m.body ++ f) HARMONY_BOUNDARIES).2,
            (m.body ++ f).drop (earliestMarker (m.body ++ f) HARMONY_BOUNDARIES).1⟩ := by
          rw [← hhead.next, ← List.append_assoc, hs, hrest, List.append_nil]
        have hm : m = ⟨m.header, m.body, none, []⟩ := by
          rw [← hb, ← hrest]
        rw [scan_open hnext hb]
        refine Extends.trans ?_ (extends_first hgrown)
        rw [hm]
        apply emit_extends (List.take_append_drop _ _) hopen
        · rcases earliestMarker_cases (m.body ++ f) with ⟨heq, -⟩ | ⟨k, b, heq, hmem, hpre, hclear⟩
          · right
            rw [heq, List.drop_length]
            exact ⟨rfl, rfl⟩
          · left
            rw [heq]
            exact ⟨b, rfl, hmem, hpre, hclear⟩
        · exact toolsClosed_first hgrown hclosed

/-- The last scan only adds what was held back. -/
theorem scan_last (t : Text) : Extends (scanMessages true t) (scanMessages false t) := by
  induction hn : t.length using Nat.strong_induction_on generalizing t with
  | _ n ih =>
    subst hn
    cases hnext : nextMessage t with
    | none =>
      rw [scan_none hnext]
      exact extends_empty _
    | some m =>
      cases hb : m.boundary with
      | some b =>
        rw [scan_bounded hnext hb, scan_bounded hnext hb]
        exact (ih _ (length_rest_lt hnext) m.rest rfl).after _
      | none =>
        rw [scan_open hnext hb, scan_open hnext hb]
        cases ht : m.isTool with
        | true =>
          rw [emit_tool ht, emit_tool ht]
          exact .refl _
        | false =>
          have hreleased : released m true <+: released m false := by
            rw [released, released, hb]
            exact withoutPartial_isPrefix _ _
          rw [emit_text ht, emit_text ht]
          split
          · exact ⟨hreleased, List.prefix_refl _⟩
          · exact ⟨List.prefix_refl _, hreleased⟩

end Extending

section Cut

variable {t : Text}

/-- Where a tool message is ended by the next message, the scan of the text up to the last
character of that boundary has emitted a part of it. -/
structure CutTool (t pre b post : Text) (emitted : ReasoningDelta) : Prop where

  text_eq : t = pre ++ (b ++ post)

  mem : b ∈ HARMONY_BOUNDARIES

  channel : HARMONY_CHANNEL <:+: pre

  scan_eq : ∀ holdPartial w,
    scanMessages holdPartial (pre ++ (b ++ w)) = emitted ++ scanMessages holdPartial (b ++ w)

  scan_cut : scanMessages true (pre ++ b.dropLast) = emitted ++ { content := b.dropLast }

variable {before : Text} {m : HarmonyMessage} {b : Text}

theorem channel_in_opening (before header body : Text) :
    HARMONY_CHANNEL <:+: opening before header ++ body :=
  ⟨before, header ++ HARMONY_MESSAGE ++ body, by simp [opening]⟩

/-- A tool message that is ended by the next message is such a place. -/
theorem cutTool_of_tool (hhead : Headed before m.header) (hbound : Bounded m.body b m.rest)
    (hb : m.boundary = some b) (htool : m.isTool = true) (hcloser : b ∉ HARMONY_CLOSERS) :
    ∃ post, CutTool (opening before m.header ++ (m.body ++ m.rest))
      (opening before m.header ++ m.body) b post (m.emit false) := by
  obtain ⟨post, hpost⟩ := hbound.bound
  refine ⟨post, ?_, hbound.mem, channel_in_opening _ _ _, fun holdPartial w => ?_, ?_⟩
  · rw [List.append_assoc, hpost]
  · have hnext := hhead.next_bounded (hbound.grow (List.prefix_append b w))
    rw [List.append_assoc, scan_bounded hnext rfl, HarmonyMessage.emit, HarmonyMessage.emit, hb]
    rfl
  · have hopen : ∀ c ∈ HARMONY_BOUNDARIES, ¬ c <:+: m.body ++ b.dropLast := by
      rintro c hc ⟨u, v, huv⟩
      have hat : c <+: (m.body ++ b.dropLast).drop u.length := by
        rw [← huv, List.append_assoc, List.drop_left]
        exact List.prefix_append _ _
      by_cases hlt : u.length < m.body.length
      · apply (hbound.grow (List.prefix_refl b)).clear c hc u.length hlt
        rw [List.drop_append_of_le_length hlt.le] at hat ⊢
        exact hat.trans ((List.prefix_append_right_inj _).mpr (List.dropLast_prefix b))
      · obtain ⟨k, hk⟩ := Nat.exists_eq_add_of_le (Nat.le_of_not_lt hlt)
        rw [hk, List.drop_length_add_append] at hat
        exact boundary_not_in_cut c hc b hbound.mem
          (hat.isInfix.trans (List.drop_suffix _ _).isInfix)
    have hnext := hhead.next_open hopen
    have ht : (⟨m.header, m.body ++ b.dropLast, none, []⟩ : HarmonyMessage).isTool = true := htool
    have hnot : HARMONY_CLOSERS.contains b = false := by
      apply Bool.eq_false_iff.mpr
      exact fun h => hcloser (List.contains_iff_mem.mp h)
    rw [List.append_assoc, scan_open hnext rfl, emit_tool ht, emit_tool htool, hb,
      Option.filter_some, if_neg (by rw [hnot]; exact Bool.false_ne_true)]
    ext1 <;> simp

theorem exists_cutTool (h : ¬ ToolsClosed t) : ∃ pre b post emitted, CutTool t pre b post emitted := by
  induction hn : t.length using Nat.strong_induction_on generalizing t with
  | _ n ih =>
    subst hn
    cases hnext : nextMessage t with
    | none =>
      exfalso
      apply h
      rw [ToolsClosed, messages_none hnext]
      exact fun _ hm => nomatch hm
    | some m =>
      obtain ⟨before, hhead, htext, ⟨b, hb, hbound⟩ | ⟨hb, -, -⟩⟩ := nextMessage_cases hnext
      · by_cases hbad : m.isTool = true ∧ b ∉ HARMONY_CLOSERS
        · obtain ⟨post, hcut⟩ := cutTool_of_tool hhead hbound hb hbad.1 hbad.2
          rw [← htext] at hcut
          exact ⟨_, b, post, _, hcut⟩
        · have hlater : ¬ ToolsClosed m.rest := by
            intro hlater
            apply h
            rw [ToolsClosed, messages_bounded hnext hb]
            intro m' hm' htool c hc
            obtain rfl | hm' := List.mem_cons.mp hm'
            · obtain rfl := Option.some.inj (hb.symm.trans hc)
              by_contra hcloser
              exact hbad ⟨htool, hcloser⟩
            · exact hlater m' hm' htool c hc
          obtain ⟨pre, c, post, emitted, hcut⟩ := ih _ (length_rest_lt hnext) hlater rfl
          have hpre : b <+: pre := by
            have hwhole := hbound.bound
            rw [hcut.text_eq] at hwhole
            apply List.prefix_of_prefix_length_le hwhole (List.prefix_append _ _)
            exact Nat.le_trans (boundary_length b hbound.mem).2 hcut.channel.length_le
          have hscan : ∀ holdPartial w, scanMessages holdPartial
              (opening before m.header ++ (m.body ++ pre) ++ w) =
              m.emit false ++ scanMessages holdPartial (pre ++ w) := by
            intro holdPartial w
            have hgrown := hhead.next_bounded (hbound.grow (hpre.trans (List.prefix_append pre w)))
            rw [List.append_assoc, List.append_assoc, scan_bounded hgrown rfl, HarmonyMessage.emit,
              HarmonyMessage.emit, hb]
            rfl
          refine ⟨opening before m.header ++ (m.body ++ pre), c, post, m.emit false ++ emitted, ?_,
            hcut.mem, channel_in_opening _ _ _, fun holdPartial w => ?_, ?_⟩
          · rw [htext, hcut.text_eq]
            simp only [List.append_assoc]
          · rw [hscan, hcut.scan_eq]
            ext1 <;> simp
          · rw [hscan, hcut.scan_cut]
            ext1 <;> simp
      · exfalso
        apply h
        rw [ToolsClosed, messages_open hnext hb]
        intro m' hm' _ c hc
        rw [List.mem_singleton.mp hm', hb] at hc
        cases hc

end Cut

end Frink.Reasoning
