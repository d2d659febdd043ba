import Frink.Grammar.Language

/-! # The machine decides the language

After a word the stacks derive exactly the continuations of the word. A stray
class modifier is the one thing that makes the machine refuse a code point.
-/

namespace Frink.Gbnf

open Exec Worklist Relation

/-- A word of code points offered one by one, with the verdict on each. -/
inductive CodepointRun : Grammar → List ℕ → List (Except GrammarError Unit) → Grammar → Prop where

  | nil {g : Grammar} : CodepointRun g [] [] g

  | cons {g g' g'' : Grammar} {c : ℕ} {w : List ℕ} {r : Except GrammarError Unit}
      {rs : List (Except GrammarError Unit)} : Returns (g.acceptCodepoint c) (r, g') →
      CodepointRun g' w rs g'' → CodepointRun g (c :: w) (r :: rs) g''

/-- The stacks are run out, distinct, and derive exactly the words of `L`. -/
structure Live (rules : List GrammarRule) (parseStacks : List GrammarStack)
    (L : List ℕ → Prop) : Prop where
  atRest : ∀ s ∈ parseStacks, AtRest rules s
  pending : ∀ s ∈ parseStacks, Pending rules s
  nodup : parseStacks.Nodup
  derives : ∀ w, (∃ s ∈ parseStacks, StackDerives rules s w) ↔ L w

variable {rules : List GrammarRule} {nameOf : ℕ → Option String} {start : ℕ} {g g' : Grammar}
  {parseStacks res : List GrammarStack} {L : List ℕ → Prop} {c : ℕ} {w : List ℕ}
  {rs : List (Except GrammarError Unit)}

theorem returns_fromRules_iff :
    Returns (Grammar.fromRules rules start nameOf) (.ok g) ↔
      Returns (checkRules rules start nameOf) (.ok ()) ∧
        ∃ parseStacks, Returns (initialStacks rules start) (.ok parseStacks) ∧
          g = ⟨rules, parseStacks, .empty, none⟩ := by
  have hinner : ∀ u : Unit, Stable fun n => (initialStacks rules start n >>= fun parseStacks =>
      pure ⟨rules, parseStacks, .empty, none⟩ : Exec GrammarError Grammar) :=
    fun _ => initialStacks_stable.bind fun _ => stable_pure _
  refine (returns_bind_ok_iff checkRules_stable hinner).trans ?_
  simp only [returns_bind_ok_iff initialStacks_stable fun _ => stable_pure _, returns_pure_iff,
    Except.ok.injEq]
  constructor
  · rintro ⟨_, hc, hs⟩
    exact ⟨hc, hs⟩
  · rintro ⟨hc, hs⟩
    exact ⟨(), hc, hs⟩

theorem mem_initialStacks_iff (h : Returns (initialStacks rules start) (.ok res))
    {t : GrammarStack} :
    t ∈ res ↔ ∃ pos ∈ alternates rules start,
      Front (visitStack rules) (pushPos rules pos []) t := by
  have hcollect := foldlM_collect
    (fun out pos => advanceStack_stable rules (pushPos rules pos []) out)
    (fun pos _ out res hs t => mem_advanceStack_iff hs) h t
  simpa using hcollect

theorem pending_nil : Pending rules [] := nofun

/-- The constructor leaves the stacks that derive the words of the start rule. -/
theorem live_initialStacks (h : Returns (initialStacks rules start) (.ok res)) :
    Live rules res (DerivesRule rules start) where
  atRest s hs := by
    obtain ⟨pos, _, hf⟩ := (mem_initialStacks_iff h).mp hs
    exact visitStack_emit_iff.mp hf.2
  pending s hs := by
    obtain ⟨pos, _, hf⟩ := (mem_initialStacks_iff h).mp hs
    exact (pending_nil.push _).reach hf.1
  nodup := foldlM_nodup (fun out pos => advanceStack_stable rules (pushPos rules pos []) out)
    (fun pos out res hs => advanceStack_nodup hs) h List.nodup_nil
  derives w := by
    have hpos : ∀ pos, (∃ s, Front (visitStack rules) (pushPos rules pos []) s ∧
        StackDerives rules s w) ↔ Derives rules pos w := by
      intro pos
      have hpending : Pending rules (pushPos rules pos []) := pending_nil.push pos
      have hcov := covered_iff hpending w
      rw [Covered] at hcov
      rw [hcov, stackDerives_push_iff, stackDerives_cons_iff]
      simp
    constructor
    · rintro ⟨s, hs, hd⟩
      obtain ⟨pos, hmem, hf⟩ := (mem_initialStacks_iff h).mp hs
      exact ⟨pos, hmem, (hpos pos).mp ⟨s, hf, hd⟩⟩
    · rintro ⟨pos, hmem, hd⟩
      obtain ⟨s, hf, hd⟩ := (hpos pos).mpr hd
      exact ⟨s, (mem_initialStacks_iff h).mpr ⟨pos, hmem, hf⟩, hd⟩

/-- What a stack steps to over a code point derives what may follow it. -/
theorem derives_chrStep_iff {s : GrammarStack} (hp : Pending rules s) (hr : AtRest rules s) :
    (∃ t, ChrStep rules c s t ∧ StackDerives rules t w) ↔ StackDerives rules s (c :: w) := by
  cases s with
  | nil => simp [not_chrStep_nil]
  | cons pos rest =>
    rcases atRest_cons hr with htok | hclass
    · simp [not_chrStep_token htok, not_stackDerives_token htok]
    · obtain ⟨A, _, after, hA, _, _⟩ := matchChar_of_isClass hclass c
      have hbelow : Pending rules rest := fun p hm => hp p (by simp [hm])
      have hcov := covered_iff (hbelow.push after) w
      rw [stackDerives_class_iff hA, ← hcov, Covered]
      simp only [chrStep_class_iff hA, and_assoc, exists_and_left]

theorem Live.step (h : Live rules parseStacks L)
    (hs : Returns (acceptAll rules c parseStacks) (.ok res)) :
    Live rules res fun w => L (c :: w) where
  atRest t ht := by
    obtain ⟨s, _, hst⟩ := (mem_acceptAll_iff hs).mp ht
    exact hst.atRest
  pending t ht := by
    obtain ⟨s, hmem, hst⟩ := (mem_acceptAll_iff hs).mp ht
    exact hst.pending (h.pending s hmem)
  nodup := acceptAll_nodup hs
  derives w := by
    rw [← h.derives]
    constructor
    · rintro ⟨t, ht, hd⟩
      obtain ⟨s, hmem, hst⟩ := (mem_acceptAll_iff hs).mp ht
      exact ⟨s, hmem, (derives_chrStep_iff (h.pending s hmem) (h.atRest s hmem)).mp ⟨t, hst, hd⟩⟩
    · rintro ⟨s, hmem, hd⟩
      obtain ⟨t, hst, hd⟩ := (derives_chrStep_iff (h.pending s hmem) (h.atRest s hmem)).mpr hd
      exact ⟨t, (mem_acceptAll_iff hs).mpr ⟨s, hmem, hst⟩, hd⟩

theorem Live.finished_iff (h : Live rules parseStacks L) :
    (∃ s ∈ parseStacks, s = []) ↔ L [] := by
  rw [← h.derives]
  constructor
  · rintro ⟨s, hs, hnil⟩
    exact ⟨s, hs, (stackDerives_nil_word_iff (h.atRest s hs)).mpr hnil⟩
  · rintro ⟨s, hs, hd⟩
    exact ⟨s, hs, (stackDerives_nil_word_iff (h.atRest s hs)).mp hd⟩

theorem returns_acceptCodepoint_ok_iff :
    Returns (g.acceptCodepoint c) (.ok (), g') ↔
      ∃ res, Returns (acceptAll g.rules c g.parseStacks) (.ok res) ∧
        g' = { g with parseStacks := res } := by
  rw [funext (Grammar.acceptCodepoint_eq g c), returns_map_iff]
  constructor
  · rintro ⟨r, hr, heq⟩
    cases r with
    | error e => simp [Grammar.commitCodepoint] at heq
    | ok res =>
      simp only [Grammar.commitCodepoint, Prod.mk.injEq, true_and] at heq
      exact ⟨res, hr, heq.symm⟩
  · rintro ⟨res, hr, rfl⟩
    exact ⟨.ok res, hr, rfl⟩

theorem Live.run (h : Live g.rules g.parseStacks L) (hrun : CodepointRun g w rs g')
    (hok : ∀ r ∈ rs, r = .ok ()) :
    g'.rules = g.rules ∧ g'.lazyState = g.lazyState ∧
      Live g.rules g'.parseStacks fun v => L (w ++ v) := by
  induction hrun generalizing L with
  | nil => exact ⟨rfl, rfl, h⟩
  | @cons g g' g'' c w r rs hstep _ ih =>
    have hr : r = .ok () := hok r (by simp)
    subst hr
    obtain ⟨res, hres, rfl⟩ := returns_acceptCodepoint_ok_iff.mp hstep
    obtain ⟨hrules, hlazy, hlive⟩ := ih (h.step hres) fun r hr => hok r (by simp [hr])
    exact ⟨hrules, hlazy, hlive⟩

theorem allowsEog_iff (hlazy : g.lazyState = none) :
    g.allowsEog = true ↔ ∃ s ∈ g.parseStacks, s = [] := by
  simp [Grammar.allowsEog, Grammar.isAwaitingTrigger, hlazy]

/-- Over a well-formed table every code point gets a verdict, and it is not an error. -/
theorem exists_codepointRun (hw : WellFormed g.rules) (ht : Terminates g.rules)
    (hclean : ∀ s ∈ g.parseStacks, Clean.Stack g.rules s ∧ AtRest g.rules s) (w : List ℕ) :
    ∃ rs g', CodepointRun g w rs g' ∧ ∀ r ∈ rs, r = .ok () := by
  induction w generalizing g with
  | nil => exact ⟨[], g, .nil, nofun⟩
  | cons c w ih =>
    obtain ⟨r, hr⟩ := ht.acceptAll c g.parseStacks
    cases r with
    | error e => exact (acceptAll_not_error hw hclean hr).elim
    | ok res =>
      let g' : Grammar := { g with parseStacks := res }
      have hstep : Returns (g.acceptCodepoint c) (.ok (), g') :=
        returns_acceptCodepoint_ok_iff.mpr ⟨res, hr, rfl⟩
      have hclean' : ∀ t ∈ res, Clean.Stack g.rules t ∧ AtRest g.rules t := by
        intro t ht
        obtain ⟨s, hs, hst⟩ := (mem_acceptAll_iff hr).mp ht
        exact ⟨hst.clean hw (hclean s hs).1, hst.atRest⟩
      obtain ⟨rs, g'', hrun, hok⟩ := @ih g' hw ht hclean'
      exact ⟨.ok () :: rs, g'', .cons hstep hrun, by simpa using hok⟩

theorem clean_initialStacks (hw : WellFormed rules)
    (h : Returns (initialStacks rules start) (.ok res)) :
    ∀ s ∈ res, Clean.Stack rules s ∧ AtRest rules s := by
  intro s hs
  obtain ⟨pos, hpos, hf⟩ := (mem_initialStacks_iff h).mp hs
  have hnil : Clean.Stack rules [] := nofun
  exact ⟨(hnil.push (hw.alternate hpos)).reach hw hf.1, visitStack_emit_iff.mp hf.2⟩

/-- The machine decides the language of the start rule along every run without a refusal, and
over a well-formed table on which it terminates no code point is refused. -/
theorem machine_decides_language
    (hg : Returns (Grammar.fromRules rules start nameOf) (.ok g)) :
    (∀ w rs g', CodepointRun g w rs g' → (∀ r ∈ rs, r = .ok ()) →
      (g'.allowsEog = true ↔ DerivesRule rules start w) ∧ g'.parseStacks.Nodup ∧
        ∀ s ∈ g'.parseStacks, AtRest rules s) ∧
    (WellFormed rules → Terminates rules →
      ∀ w, ∃ rs g', CodepointRun g w rs g' ∧ ∀ r ∈ rs, r = .ok ()) := by
  obtain ⟨_, parseStacks, hinit, rfl⟩ := returns_fromRules_iff.mp hg
  have hlive := live_initialStacks hinit
  constructor
  · intro w rs g' hrun hok
    obtain ⟨_, hlazy, hrunLive⟩ := Live.run hlive hrun hok
    refine ⟨?_, hrunLive.nodup, hrunLive.atRest⟩
    rw [allowsEog_iff hlazy, hrunLive.finished_iff, List.append_nil]
  · intro hw ht w
    exact exists_codepointRun hw ht (clean_initialStacks hw hinit) w

def letterGrammar : Grammar := ⟨letterTable, [[⟨0, 0⟩]], .empty, none⟩

theorem machine_decides_letter :
    ∃ rs g', CodepointRun letterGrammar [97] rs g' ∧ g'.allowsEog = true := by
  have hg : Returns (Grammar.fromRules letterTable 0 fun _ => none) (.ok letterGrammar) :=
    ⟨3, rfl⟩
  obtain ⟨hdecides, hruns⟩ := machine_decides_language hg
  have ht : Terminates letterTable :=
    terminates_of_noLeftRecursion (noLeftRecursion_of_noRef (by decide))
  obtain ⟨rs, g', hrun, hok⟩ := hruns (by decide) ht [97]
  have hclass : CharClass letterTable ⟨0, 0⟩ {97} ⟨0, 1⟩ :=
    .inl ⟨rfl, .last (.single (by decide) (by decide)) (by decide)⟩
  have hderives : DerivesRule letterTable 0 [97] :=
    ⟨⟨0, 0⟩, by decide, .chr hclass rfl (.done (by decide))⟩
  exact ⟨rs, g', hrun, (hdecides _ _ _ hrun hok).1.mpr hderives⟩

/-- `root ::= "a" | "a"` whose second class is followed by two upper bounds. -/
def strayTable : List GrammarRule :=
  [[⟨.char, 97⟩, ⟨.alt, 0⟩, ⟨.char, 97⟩, ⟨.charRngUpper, 98⟩, ⟨.charRngUpper, 99⟩,
    ⟨.ruleEnd, 0⟩]]

def strayGrammar : Grammar := ⟨strayTable, [[⟨0, 0⟩], [⟨0, 2⟩]], .empty, none⟩

/-- An accepted table without token elements, on which the machine terminates, that refuses
a word it derives: a stack comes to rest on the second bound. -/
theorem stray_modifier_refused :
    Returns (Grammar.fromRules strayTable 0 fun _ => none) (.ok strayGrammar) ∧
      (∀ e ∈ strayTable.flatten, e.gtype.isToken = false) ∧ Terminates strayTable ∧
      CodepointRun strayGrammar [97] [.error restError] strayGrammar ∧
      strayGrammar.allowsEog = false ∧ DerivesRule strayTable 0 [97] := by
  have hclass : CharClass strayTable ⟨0, 0⟩ {97} ⟨0, 1⟩ :=
    .inl ⟨rfl, .last (.single (by decide) (by decide)) (by decide)⟩
  have hrefused : Returns (strayGrammar.acceptCodepoint 97) (.error restError, strayGrammar) :=
    ⟨3, rfl⟩
  exact ⟨⟨3, rfl⟩, by decide, terminates_of_noLeftRecursion (noLeftRecursion_of_noRef (by decide)),
    .cons hrefused .nil, rfl, ⟨0, 0⟩, by decide, .chr hclass rfl (.done (by decide))⟩

end Frink.Gbnf
