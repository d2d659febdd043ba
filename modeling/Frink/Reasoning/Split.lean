import Frink.Reasoning.Parser
import Frink.Reasoning.Search

/-! # Where a text splits

The split of a block read as a whole: at its closer, else at a tool marker, else nowhere. A text
splits the same way in pieces when nothing that was released early would have taken part in a
marker; the conditions here say so of the text itself.
-/

namespace Frink.Reasoning
open Decode Occurs
open Tool (isWhitespace trim trimStart trimEnd stripPrefix contains byteLen)

/-- A text that opens with something other than white space. -/
def Solid (t : Text) : Prop := (t.head?.any fun c => !isWhitespace c) = true

instance : DecidablePred Solid := fun t =>
  inferInstanceAs (Decidable ((t.head?.any fun c => !isWhitespace c) = true))

theorem Solid.clear {pat r : Text} (h : Solid pat) (hr : Blank r) (w : Text) :
    Clear pat r w := by
  cases pat with
  | nil => cases h
  | cons a pat =>
    have ha : isWhitespace a = false := by simpa [Solid] using h
    apply clear_of_head
    rintro b hb rfl
    rw [hr b hb] at ha
    cases ha

theorem Solid.ne_nil {pat : Text} (h : Solid pat) : pat ≠ [] := by
  rintro rfl
  cases h

theorem Solid.trimStart_eq {pat w : Text} (h : Solid pat) :
    trimStart (pat ++ w) = pat ++ w := by
  cases pat with
  | nil => cases h
  | cons a pat =>
    have ha : isWhitespace a = false := by simpa [Solid] using h
    rw [trimStart, List.cons_append, List.dropWhile_cons_of_neg (by simp [ha])]

/-- The markers of a family do not overlap one another and open with something visible. -/
structure Markers.Separate (m : Markers) : Prop where

  start_solid : Solid m.start

  end_solid : Solid m.end_

  tool_solid : ∀ tool ∈ m.toolStart, Solid tool

  end_start : Apart m.end_ m.start ∧ ¬ m.end_ <:+: m.start

  tool_start : ∀ tool ∈ m.toolStart, Apart tool m.start ∧ ¬ tool <:+: m.start

  start_tool : ∀ tool ∈ m.toolStart, Apart m.start tool

  end_tool : ∀ tool ∈ m.toolStart, Apart m.end_ tool

theorem markers_separate {f : ReasoningFormat} (h : f.delimited = true) : f.markers.Separate := by
  cases f
  case gptOss => cases h
  all_goals
    constructor <;> decide

/-- The text without its first opener. -/
def unopened (m : Markers) (text : Text) : Text :=
  match findText m.start text with
  | none => text
  | some i => text.take i ++ text.drop (i + m.start.length)

/-- A block's text, split at its closer, else at a tool marker. -/
def splitBlock (m : Markers) (body : Text) : ReasoningDelta :=
  match findText m.end_ body with
  | some e => ⟨body.take e, body.drop (e + m.end_.length)⟩
  | none =>
      match m.toolStart.bind fun tool => findText tool body with
      | some a => ⟨body.take a, body.drop a⟩
      | none => ⟨body, []⟩

/-- The text of an open block whose opener may still have to be taken out. -/
def blockText (m : Markers) (stripped : Bool) (text : Text) : Text :=
  if stripped then text else unopened m text

/-- A tool marker that the block's closer makes a quotation is closed while it is still held. -/
def Quoted (m : Markers) (body : Text) : Prop :=
  ∀ tool ∈ m.toolStart, ∀ a e, findText tool body = some a → findText m.end_ body = some e → a ≤ e →
    byteLen ((body.take (e + m.end_.length)).drop a) ≤ TOOL_HOLD_MAX + 1

/-- An opener inside an open block: no closer stands before it, a tool marker before it is still
held when it is complete, and without one the text on its two sides makes no marker. -/
structure OpensInside (m : Markers) (before after : Text) : Prop where

  unclosed : ¬ m.end_ <:+: before

  held : ∀ tool ∈ m.toolStart, ∀ a, findText tool before = some a →
    byteLen (before.drop a ++ m.start) ≤ TOOL_HOLD_MAX + 1

  seamless : (∀ tool ∈ m.toolStart, ¬ tool <:+: before) → Clear m.end_ before after ∧
    (¬ m.end_ <:+: after → ∀ tool ∈ m.toolStart, Clear tool before after)

/-- What keeps the split of an open block from depending on how its text arrives. -/
structure SteadyInside (m : Markers) (stripped : Bool) (text : Text) : Prop where

  opens : stripped = false → ∀ i, findText m.start text = some i →
    OpensInside m (text.take i) (text.drop (i + m.start.length))

  quoted : Quoted m (blockText m stripped text)

/-- The same outside a block: only white space stands before the opener. -/
def SteadyOutside (m : Markers) (text : Text) : Prop :=
  ∀ i, findText m.start text = some i → Blank (text.take i) ∧ Quoted m (unopened m text)

section Shift

variable {m : Markers} {x y u v : Text} {i : ℕ}

theorem unopened_eq_self (h : ¬ m.start <:+: x) (hm : m.Separate) : unopened m x = x := by
  rw [unopened, (findText_eq_none_iff hm.start_solid.ne_nil).mpr h]

theorem unopened_append (h : Clear m.start x y) : unopened m (x ++ y) = x ++ unopened m y := by
  rw [unopened, unopened, findText_append h]
  cases findText m.start y with
  | none => rfl
  | some i =>
    rw [Option.map_some]
    dsimp only
    rw [Nat.add_comm i x.length, Nat.add_assoc, List.take_length_add_append,
      List.drop_length_add_append, List.append_assoc]

theorem splitBlock_append (hend : Clear m.end_ x y)
    (htool : ¬ m.end_ <:+: y → ∀ tool ∈ m.toolStart, Clear tool x y) (hm : m.Separate) :
    splitBlock m (x ++ y) = ⟨x, []⟩ ++ splitBlock m y := by
  rw [splitBlock, splitBlock, findText_append hend]
  cases he : findText m.end_ y with
  | some e =>
    rw [Option.map_some]
    dsimp only
    rw [Nat.add_comm e x.length, Nat.add_assoc, List.take_length_add_append,
      List.drop_length_add_append]
    rfl
  | none =>
    have hy := (findText_eq_none_iff hm.end_solid.ne_nil).mp he
    rw [Option.map_none]
    dsimp only
    cases ht : m.toolStart with
    | none => rfl
    | some tool =>
      rw [Option.bind_some, Option.bind_some, findText_append (htool hy tool ht)]
      cases findText tool y with
      | none => rfl
      | some a =>
        rw [Option.map_some]
        dsimp only
        rw [Nat.add_comm a x.length, List.take_length_add_append, List.drop_length_add_append]
        rfl

theorem byteLen_append (x y : Text) : byteLen (x ++ y) = byteLen x + byteLen y := by
  simp [byteLen]

theorem byteLen_drop_le (n : ℕ) (x : Text) : byteLen (x.drop n) ≤ byteLen x := by
  conv_rhs => rw [← List.take_append_drop n x, byteLen_append]
  exact Nat.le_add_left _ _

/-- What is quoted in a text is quoted in the part after what was released of it. -/
theorem Quoted.right (hend : Clear m.end_ x y) (h : Quoted m (x ++ y)) : Quoted m y := by
  intro tool htool a e ha he hae
  have he' : findText m.end_ (x ++ y) = some (e + x.length) := by
    rw [findText_append hend, he, Option.map_some]
  have hin : tool <+: (x ++ y).drop (x.length + a) := by
    rw [List.drop_length_add_append]
    exact (findText_leftmost ha).1
  obtain ⟨b, hb, hle⟩ : ∃ b, findText tool (x ++ y) = some b ∧ b ≤ x.length + a := by
    cases hb : findText tool (x ++ y) with
    | none =>
      by_cases hne : tool = []
      · subst hne
        have := Tool.findText_of_prefix (List.nil_prefix (l := x ++ y))
        rw [hb] at this
        cases this
      · exact absurd hin (findText_eq_none hb _ hne)
    | some b =>
      refine ⟨b, rfl, ?_⟩
      by_contra hlt
      exact (findText_leftmost hb).2 _ (by omega) hin
  have hbound := h tool htool b _ hb he' (by omega)
  refine Nat.le_trans ?_ hbound
  have hcut : (x ++ y).take (e + x.length + m.end_.length) = x ++ y.take (e + m.end_.length) := by
    rw [show e + x.length + m.end_.length = x.length + (e + m.end_.length) by omega,
      List.take_length_add_append]
  have hdrop : (y.take (e + m.end_.length)).drop a =
      ((x ++ y.take (e + m.end_.length)).drop b).drop (x.length + a - b) := by
    rw [List.drop_drop, show b + (x.length + a - b) = x.length + a by omega,
      List.drop_length_add_append]
  rw [hcut, hdrop]
  exact byteLen_drop_le _ _

namespace OpensInside

theorem right (hm : m.Separate) (htool : ∀ tool ∈ m.toolStart, Clear tool x u)
    (h : OpensInside m (x ++ u) v) : OpensInside m u v where

  unclosed hin := h.unclosed (hin.trans (List.suffix_append x u).isInfix)
  held tool hmem a ha := by
    have hfind : findText tool (x ++ u) = some (a + x.length) := by
      rw [findText_append (htool tool hmem), ha, Option.map_some]
    have hbound := h.held tool hmem _ hfind
    rwa [Nat.add_comm, List.drop_length_add_append] at hbound
  seamless hnone := by
    have hwhole : ∀ tool ∈ m.toolStart, ¬ tool <:+: x ++ u := by
      intro tool hmem
      have hne := (hm.tool_solid tool hmem).ne_nil
      rw [← findText_eq_none_iff hne, findText_append (htool tool hmem),
        (findText_eq_none_iff hne).mpr (hnone tool hmem), Option.map_none]
    obtain ⟨hend, htools⟩ := h.seamless hwhole
    exact ⟨hend.right, fun hv tool hmem => (htools hv tool hmem).right⟩

/-- With the opener taken out, nothing begins in what was released before it. -/
theorem clear (hm : m.Separate) (htool : ∀ tool ∈ m.toolStart, Clear tool x u)
    (h : OpensInside m (x ++ u) v) : Clear m.end_ x (u ++ v) ∧
      (¬ m.end_ <:+: u ++ v → ∀ tool ∈ m.toolStart, Clear tool x (u ++ v)) := by
  by_cases hq : ∃ tool ∈ m.toolStart, tool <:+: x ++ u
  · obtain ⟨tool, hmem, hin⟩ := hq
    have hne := (hm.tool_solid tool hmem).ne_nil
    obtain ⟨b, hb⟩ : ∃ b, findText tool u = some b := by
      cases hb : findText tool u with
      | some b => exact ⟨b, rfl⟩
      | none =>
        have hnone : findText tool (x ++ u) = none := by
          rw [findText_append (htool tool hmem), hb, Option.map_none]
        exact absurd hin ((findText_eq_none_iff hne).mp hnone)
    have hfind : findText tool (x ++ u) = some (b + x.length) := by
      rw [findText_append (htool tool hmem), hb, Option.map_some]
    have hsplit := findText_split hb
    constructor
    · have hbefore : ¬ m.end_ <:+: x ++ u.take b := by
        intro hend
        apply h.unclosed
        exact hend.trans ((List.prefix_append_right_inj x).mpr (List.take_prefix b u)).isInfix
      have hclear := clear_of_apart (hm.end_tool tool hmem) hbefore (u.drop (b + tool.length) ++ v)
      have := hclear.left
      rwa [← List.append_assoc tool, ← List.append_assoc, ← hsplit] at this
    · intro _ tool' hmem'
      obtain rfl : tool = tool' := Option.some.inj (hmem.symm.trans hmem')
      have hclear := clear_of_findText (findText_append_right hfind v)
      rw [Nat.add_comm, List.append_assoc, List.take_length_add_append,
        List.drop_length_add_append] at hclear
      have := hclear.left
      rwa [List.take_append_drop] at this
  · obtain ⟨hend, htools⟩ := h.seamless fun tool hmem hin => hq ⟨tool, hmem, hin⟩
    refine ⟨hend.left, fun huv tool hmem => (htools (fun hv => huv ?_) tool hmem).left⟩
    exact hv.trans (List.suffix_append u v).isInfix

end OpensInside

/-- Releasing a part in which nothing begins leaves a steady text, which splits after it. -/
theorem SteadyInside.shift {stripped : Bool} (hm : m.Separate) (hend : Clear m.end_ x y)
    (htool : ∀ tool ∈ m.toolStart, Clear tool x y)
    (hstart : stripped = false → Clear m.start x y) (h : SteadyInside m stripped (x ++ y)) :
    SteadyInside m stripped y ∧ splitBlock m (blockText m stripped (x ++ y)) =
      ⟨x, []⟩ ++ splitBlock m (blockText m stripped y) := by
  have hclear : Clear m.end_ x (blockText m stripped y) ∧
      (¬ m.end_ <:+: blockText m stripped y →
        ∀ tool ∈ m.toolStart, Clear tool x (blockText m stripped y)) ∧
      (∀ i, stripped = false → findText m.start y = some i →
        OpensInside m (y.take i) (y.drop (i + m.start.length))) := by
    cases stripped with
    | true => exact ⟨hend, fun _ => htool, fun _ hs => nomatch hs⟩
    | false =>
      rw [blockText, if_neg Bool.false_ne_true, unopened]
      cases hf : findText m.start y with
      | none => exact ⟨hend, fun _ => htool, fun _ _ hs => nomatch hs⟩
      | some i =>
        have hwhole : findText m.start (x ++ y) = some (i + x.length) := by
          rw [findText_append (hstart rfl), hf, Option.map_some]
        have hopens := h.opens rfl _ hwhole
        rw [Nat.add_comm, Nat.add_assoc, List.take_length_add_append,
          List.drop_length_add_append] at hopens
        have htaken : ∀ tool ∈ m.toolStart, Clear tool x (y.take i) :=
          fun tool hmem => (htool tool hmem).mono (List.take_prefix i y)
        obtain ⟨hend', htool'⟩ := hopens.clear hm htaken
        refine ⟨hend', htool', fun j _ hj => ?_⟩
        obtain rfl := Option.some.inj hj
        exact hopens.right hm htaken
  obtain ⟨hend', htool', hopens⟩ := hclear
  have hbody : blockText m stripped (x ++ y) = x ++ blockText m stripped y := by
    cases stripped with
    | true => rfl
    | false => exact unopened_append (hstart rfl)
  constructor
  · refine ⟨fun hs i hi => hopens i hs hi, ?_⟩
    have := h.quoted
    rw [hbody] at this
    exact this.right hend'
  · rw [hbody, splitBlock_append hend' htool' hm]

/-- White space before the opener is released like any other text. -/
theorem SteadyOutside.shift (hm : m.Separate) (hx : m.start <:+: y → Blank x)
    (hstart : Clear m.start x y) (h : SteadyOutside m (x ++ y)) : SteadyOutside m y := by
  intro i hi
  have hwhole : findText m.start (x ++ y) = some (i + x.length) := by
    rw [findText_append hstart, hi, Option.map_some]
  obtain ⟨hblank, hquoted⟩ := h _ hwhole
  rw [Nat.add_comm, List.take_length_add_append] at hblank
  rw [unopened_append hstart] at hquoted
  refine ⟨fun c hc => hblank c (List.mem_append_right x hc), ?_⟩
  exact hquoted.right (hm.end_solid.clear (hx (findText_isSome hi)) _)

end Shift

end Frink.Reasoning
