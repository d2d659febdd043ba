import Frink.Grammar.MaskAccept
import Frink.Grammar.Preserved

/-! # From grammar text to verdicts

A text that is accepted compiles to a well-formed table, on which the machine answers every
question without an internal error, and what it decides is the language of the text.
-/

namespace Frink.Gbnf

open Exec ParsedGrammar

variable {src : List UInt8} {fuel start : ℕ} {parsed : ParsedGrammar} {rootName : SymbolName}
  {nameOf : ℕ → Option String} {g : Grammar}

/-- A symbol's name, as errors quote it. -/
def nameText (name : SymbolName) : String := (String.fromUTF8? ⟨name.toArray⟩).getD ""

/-- A machine over an already parsed grammar. -/
def Grammar.fromParsed (parsed : ParsedGrammar) (rootName : SymbolName) (fuel : ℕ) :
    Exec GrammarError Grammar :=
  match parsed.symbolId rootName with
  | none => Exec.fail (.missingRoot (nameText rootName))
  | some start =>
      Grammar.fromRules parsed.rules start (fun id => (parsed.symbolName id).map nameText) fuel

/-- `a::=[bc]+`, and what it compiles to. -/
def repeatSource : List UInt8 := [97, 58, 58, 61, 91, 98, 99, 93, 43]

def repeatTable : ParsedGrammar where
  rules :=
    [[⟨.char, 98⟩, ⟨.charAlt, 99⟩, ⟨.ruleRef, 1⟩, ⟨.ruleEnd, 0⟩],
      [⟨.char, 98⟩, ⟨.charAlt, 99⟩, ⟨.ruleRef, 1⟩, ⟨.alt, 0⟩, ⟨.ruleEnd, 0⟩]]
  symbolIds := [([97], 0), ([97, 95, 49], 1)]

theorem parse_repeatSource : parse repeatSource 12 = some (.ok repeatTable) := rfl

/-- `a::="a"`, which compiles to the table of one letter. -/
def letterSource : List UInt8 := [97, 58, 58, 61, 34, 97, 34]

def letterParsed : ParsedGrammar := ⟨letterTable, [([97], 0)]⟩

theorem parse_letterSource : parse letterSource 10 = some (.ok letterParsed) := rfl

section Table

theorem ruleAt_mem {rules : List GrammarRule} {rule : GrammarRule} (h : rule ∈ rules) :
    ∃ id < rules.length, ruleAt rules id = rule := by
  obtain ⟨id, hlt, rfl⟩ := List.getElem_of_mem h
  exact ⟨id, hlt, by simp [ruleAt, hlt]⟩

theorem lt_of_ruleAt_ne_nil {rules : List GrammarRule} {id : ℕ} (h : ruleAt rules id ≠ []) :
    id < rules.length := by
  by_contra hge
  exact h (by simp [ruleAt, List.getElem?_eq_none (not_lt.mp hge)])

/-- The pass after the parse. -/
theorem validate_ok (h : parsed.validate = .ok ()) :
    (∀ id < parsed.rules.length, ruleAt parsed.rules id ≠ []) ∧
      ∀ e ∈ parsed.rules.flatten, e.gtype = .ruleRef → e.value < parsed.rules.length := by
  unfold validate at h
  split at h
  · cases h
  rename_i hempty
  split at h
  · cases h
  rename_i hdangling
  constructor
  · intro id hid hnil
    have hno := List.find?_eq_none.mp hempty id (List.mem_range.mpr hid)
    exact hno (by simpa [ruleAt] using hnil)
  · intro e he href
    have hno := List.find?_eq_none.mp hdangling e he
    apply lt_of_ruleAt_ne_nil
    intro hnil
    exact hno (by simpa [href, ruleAt] using hnil)

theorem Shaped.wellFormed {bound : ℕ} {rule : GrammarRule} (h : Shaped bound rule) :
    wellFormedFrom .alt rule = true := by
  obtain ⟨es, rfl, hes⟩ := h
  exact wellFormedFrom_append (hes.starts .alt) fun _ => rfl

theorem shaped_of_sound (hs : parsed.Sound) (hvalid : parsed.validate = .ok ()) :
    ∀ rule ∈ parsed.rules, Shaped parsed.symbolIds.length rule := by
  intro rule hrule
  obtain ⟨id, hid, rfl⟩ := ruleAt_mem hrule
  exact (hs.shaped id).resolve_left ((validate_ok hvalid).1 id hid)

theorem wellFormed_of_parse (h : parse src fuel = some (.ok parsed)) : WellFormed parsed.rules := by
  obtain ⟨_, _, htabled, hvalid⟩ := parse_tabled h
  apply List.all_eq_true.mpr
  intro rule hrule
  exact (shaped_of_sound htabled.toSound hvalid rule hrule).wellFormed

end Table

/-- Compiling preserves meaning: the rule of a name derives the words of the name's language, by
the least solution of the equations that the lines of the text are. -/
theorem parse_means (h : parse src fuel = some (.ok parsed)) :
    ∃ lines, readLines src fuel = some (.ok lines) ∧
      ∀ name id, Plain name → (name, id) ∈ parsed.symbolIds →
        ∀ w, DerivesRule parsed.rules id w ↔ w ∈ OrderHom.lfp lines.equations name := by
  obtain ⟨lines, hread, hmeans⟩ := parse_language h
  obtain ⟨_, _, htabled, _⟩ := parse_tabled h
  refine ⟨lines, hread, fun name id hname hmem w => ?_⟩
  have hid := htabled.symbolId_eq_some_iff.mpr hmem
  rw [← hmeans name hname, ParsedGrammar.language, hid, Option.map_some, Option.getD_some]
  exact derivesRule_iff_lfp

theorem parse_means_repeat : ∃ lines, readLines repeatSource 12 = some (.ok lines) ∧
    ∀ w, DerivesRule repeatTable.rules 0 w ↔ w ∈ OrderHom.lfp lines.equations [97] := by
  obtain ⟨lines, hread, hmeans⟩ := parse_means parse_repeatSource
  exact ⟨lines, hread, hmeans [97] 0 (List.forall_mem_singleton.mpr rfl) (by decide)⟩

section Machine

/-- Over the table of an accepted text without a hidden left-recursive cycle, every state the
machine reaches takes each code point, takes each token or refuses it by name, and masks. -/
theorem parsed_machine_answers (h : parse src fuel = some (.ok parsed))
    (hcycle : NoHiddenCycle parsed.rules)
    (hreach : Grammar.Reachable parsed.rules start nameOf g)
    (hawait : g.isAwaitingTrigger = false) :
    (∀ c, ∃ g', Returns (g.acceptCodepoint c) (.ok (), g')) ∧
      (∀ token piece, ∃ r g', Returns (g.acceptToken token piece) (r, g') ∧
        (r = .ok () ∨ r = .error (.noViableStack piece))) ∧
      ∀ cands, ∃ rejected, Returns (rejectCandidates g cands) (.ok rejected) := by
  have hsound : Sound g := hreach.sound (wellFormed_of_parse h) hcycle
  have hterm := terminates_of_noLeftRecursion hsound.noLeftRecursion
  refine ⟨?_, ?_, hsound.rejectCandidates_ok hawait⟩
  · intro c
    obtain ⟨r, hr⟩ := hterm.acceptAll c g.parseStacks
    cases r with
    | error e =>
      have hclean : ∀ s ∈ g.parseStacks, Clean.Stack g.rules s ∧ AtRest g.rules s :=
        fun s hs => ⟨hsound.clean s hs, hsound.atRest s hs⟩
      exact (acceptAll_not_error hsound.wellFormed hclean hr).elim
    | ok res => exact ⟨_, returns_acceptCodepoint_ok_iff.mpr ⟨res, hr, rfl⟩⟩
  · intro token piece
    rw [acceptToken_of_not_awaiting hawait]
    obtain ⟨⟨r, g'⟩, hr⟩ := hterm.acceptTokenNow rfl token piece
    refine ⟨r, g', hr, ?_⟩
    rw [funext (Grammar.acceptTokenNow_eq g token piece)] at hr
    obtain ⟨res, hres, heq⟩ := returns_map_iff.mp hr
    cases res with
    | error e =>
      exact (foldlM_not_error (acceptOne_stable g.rules token _) (fun _ s hs =>
        acceptOne_not_error hsound.wellFormed (hsound.clean s hs) (hsound.atRest s hs)) []
        hres).elim
    | ok new =>
      simp only [Grammar.commitToken, Prod.mk.injEq] at heq
      rw [← heq.1]
      split
      · exact .inr rfl
      · exact .inl rfl

theorem letterTable_noHiddenCycle : NoHiddenCycle letterTable :=
  (noLeftRecursion_iff letterTable_checked).mp (noLeftRecursion_of_noRef (by decide))

theorem parsed_machine_answers_letter :
    ∃ g', Returns (letterGrammar.acceptCodepoint 98) (.ok (), g') :=
  (parsed_machine_answers parse_letterSource letterTable_noHiddenCycle letterGrammar_reachable
    rfl).1 98

/-- The machine of an accepted text decides the least solution of the text's equations, for the
name it starts from. -/
theorem text_decides_language (h : parse src fuel = some (.ok parsed)) (hroot : Plain rootName)
    (hg : Returns (Grammar.fromParsed parsed rootName) (.ok g)) :
    ∃ lines, readLines src fuel = some (.ok lines) ∧
      (∀ w rs g', CodepointRun g w rs g' → (∀ r ∈ rs, r = .ok ()) →
        (g'.allowsEog = true ↔ w ∈ OrderHom.lfp lines.equations rootName)) ∧
      (NoHiddenCycle parsed.rules →
        ∀ w, ∃ rs g', CodepointRun g w rs g' ∧ ∀ r ∈ rs, r = .ok ()) := by
  obtain ⟨lines, hread, hmeans⟩ := parse_language h
  have hlanguage := hmeans rootName hroot
  unfold Grammar.fromParsed at hg
  cases hid : parsed.symbolId rootName with
  | none =>
    simp only [hid] at hg
    cases returns_fail_iff.mp hg
  | some start =>
    simp only [hid] at hg
    rw [ParsedGrammar.language, hid, Option.map_some, Option.getD_some] at hlanguage
    obtain ⟨hcheck, parseStacks, hinit, rfl⟩ := returns_fromRules_iff.mp hg
    refine ⟨lines, hread, ?_, ?_⟩
    · intro w rs g' hrun hok
      obtain ⟨_, hlazy, hlive⟩ := Live.run (live_initialStacks hinit) hrun hok
      rw [allowsEog_iff hlazy, hlive.finished_iff, List.append_nil, ← hlanguage]
      exact derivesRule_iff_lfp
    · intro hcycle w
      have hterm := terminates_of_noLeftRecursion ((noLeftRecursion_iff hcheck).mpr hcycle)
      exact exists_codepointRun (wellFormed_of_parse h) hterm
        (clean_initialStacks (wellFormed_of_parse h) hinit) w

theorem text_decides_letter : ∃ lines, readLines letterSource 10 = some (.ok lines) ∧
    ∃ rs g', CodepointRun letterGrammar [97] rs g' ∧
      (g'.allowsEog = true ↔ [97] ∈ OrderHom.lfp lines.equations [97]) := by
  have hg : Returns (Grammar.fromParsed letterParsed [97]) (.ok letterGrammar) := ⟨3, rfl⟩
  obtain ⟨lines, hread, hdecides, hrun⟩ :=
    text_decides_language parse_letterSource (List.forall_mem_singleton.mpr rfl) hg
  obtain ⟨rs, g', hrun, hok⟩ := hrun letterTable_noHiddenCycle [97]
  exact ⟨lines, hread, rs, g', hrun, hdecides _ _ _ hrun hok⟩

end Machine

end Frink.Gbnf
