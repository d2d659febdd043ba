import Frink.Grammar.Compile
import Frink.Grammar.Syntax
import Mathlib

/-! # Parsing is reading and compiling

A run of the parser reads a body and compiles it: the parser succeeds exactly when
both do, and its table is the compiled one.
-/

namespace Frink.Gbnf

open Exec

variable {total fuel : ℕ} {vocab : Option GrammarVocab} {name : SymbolName} {isNested : Bool}
  {rest rest' : List UInt8} {s s' : SequenceState} {minTimes : ℕ} {maxTimes : Option ℕ}

theorem handleRepetitions_ok_iff (hlimit : overLimit minTimes maxTimes = false) :
    handleRepetitions total rest name minTimes maxTimes s = .ok s' ↔
      s.repeatable minTimes maxTimes ∧ s.repeatItem name minTimes maxTimes = s' := by
  unfold handleRepetitions SequenceState.repeatable
  by_cases hitem : s.lastSymStart = s.rule.length
  · simp [hitem]
  · rw [if_neg hitem]
    dsimp only
    by_cases hover : MAX_REPETITION_THRESHOLD ≤
        min (s.nPrevRules * totalRules minTimes maxTimes) (2 ^ 64 - 1)
    · rw [if_pos hover]
      simp only [reduceCtorEq, false_iff, not_and]
      exact fun h => absurd h.2.2 (not_lt.mpr hover)
    · rw [if_neg hover]
      constructor
      · rintro ⟨⟩
        exact ⟨⟨hitem, hlimit, not_le.mp hover⟩, rfl⟩
      · rintro ⟨_, rfl⟩
        rfl

/-- The parser reads a body and compiles it, in the loop of a sequence and in that of its
alternates. -/
def Factors (total : ℕ) (vocab : Option GrammarVocab) (fuel : ℕ) : Prop :=
  (∀ name isNested rest s s' rest',
    parseSequence total vocab fuel name isNested rest s = some (.ok (s', rest')) ↔
      ∃ body, readSequence total vocab fuel isNested rest = some (.ok (body, rest')) ∧
        body.compile name s = some s') ∧
  (∀ name isNested rest rule out r,
    parseMore total vocab fuel name isNested rest rule out = some (.ok r) ↔
      ∃ body, readMore total vocab fuel isNested rest = some (.ok (body, r.2.2)) ∧
        ∃ t, body.compile name (.fresh rule out) = some t ∧ t.rule = r.1 ∧ t.out = r.2.1) ∧
  (∀ name ruleId isNested rest out r,
    parseAlternates total vocab fuel name ruleId isNested rest out = some (.ok r) ↔
      ∃ body, readAlternates total vocab fuel isNested rest = some (.ok (body, r.2)) ∧
        ∃ t, body.compile name (.fresh [] out) = some t ∧
          t.out.addRule ruleId (t.rule ++ [⟨.ruleEnd, 0⟩]) = r.1)

theorem factors_zero : Factors total vocab 0 :=
  ⟨fun _ _ _ _ _ _ => ⟨nofun, nofun⟩, fun _ _ _ _ _ _ => ⟨nofun, nofun⟩,
    fun _ _ _ _ _ _ => ⟨nofun, nofun⟩⟩

theorem parseAlternates_factors
    (h : ∀ name isNested rest rule out r,
      parseMore total vocab fuel name isNested rest rule out = some (.ok r) ↔
        ∃ body, readMore total vocab fuel isNested rest = some (.ok (body, r.2.2)) ∧
          ∃ t, body.compile name (.fresh rule out) = some t ∧ t.rule = r.1 ∧ t.out = r.2.1)
    (name : SymbolName) (ruleId : ℕ) (isNested : Bool) (rest : List UInt8) (out : ParsedGrammar)
    (r : ParsedGrammar × List UInt8) :
    parseAlternates total vocab (fuel + 1) name ruleId isNested rest out = some (.ok r) ↔
      ∃ body, readAlternates total vocab (fuel + 1) isNested rest = some (.ok (body, r.2)) ∧
        ∃ t, body.compile name (.fresh [] out) = some t ∧
          t.out.addRule ruleId (t.rule ++ [⟨.ruleEnd, 0⟩]) = r.1 := by
  rw [parseAlternates, readAlternates, bind_eq_ok_iff]
  simp only [h, pure_eq_ok_iff]
  constructor
  · rintro ⟨a, ⟨body, hread, t, ht, hrule, hout⟩, rfl⟩
    exact ⟨body, hread, t, ht, by rw [hrule, hout]⟩
  · rintro ⟨body, hread, t, ht, hr⟩
    exact ⟨(t.rule, t.out, r.2), ⟨body, hread, t, ht, rfl, rfl⟩, Prod.ext hr rfl⟩

theorem parseMore_factors (h : Factors total vocab fuel)
    (name : SymbolName) (isNested : Bool) (rest : List UInt8) (rule : GrammarRule)
    (out : ParsedGrammar) (r : GrammarRule × ParsedGrammar × List UInt8) :
    parseMore total vocab (fuel + 1) name isNested rest rule out = some (.ok r) ↔
      ∃ body, readMore total vocab (fuel + 1) isNested rest = some (.ok (body, r.2.2)) ∧
        ∃ t, body.compile name (.fresh rule out) = some t ∧ t.rule = r.1 ∧ t.out = r.2.1 := by
  rw [parseMore, readMore, bind_eq_ok_iff]
  simp only [bind_eq_ok_iff]
  constructor
  · rintro ⟨⟨s, rest₁⟩, hseq, hr⟩
    obtain ⟨body, hread, hs⟩ := (h.1 _ _ _ _ _ _).mp hseq
    dsimp only at hr
    split at hr
    · rename_i hbar
      obtain ⟨more, hmore, t, ht, hrule, hout⟩ := (h.2.1 _ _ _ _ _ _).mp hr
      refine ⟨body.join more, ⟨(body, rest₁), hread, ?_⟩, t, ?_, hrule, hout⟩
      · dsimp only
        rw [if_pos hbar, bind_eq_ok_iff]
        exact ⟨_, hmore, rfl⟩
      · rw [Body.compile_join]
        exact Option.bind_eq_some_iff.mpr ⟨s, hs, ht⟩
    · rename_i hbar
      obtain rfl := pure_eq_ok_iff.mp hr
      refine ⟨body, ⟨(body, rest₁), hread, ?_⟩, s, hs, rfl, rfl⟩
      dsimp only
      rw [if_neg hbar]
      rfl
  · rintro ⟨body, ⟨⟨first, rest₁⟩, hread, hbody⟩, t, ht, hrule, hout⟩
    dsimp only at hbody
    split at hbody
    · rename_i hbar
      obtain ⟨⟨more, rest₂⟩, hmore, hjoin⟩ := bind_eq_ok_iff.mp hbody
      obtain ⟨rfl, rfl⟩ := Prod.mk.inj (pure_eq_ok_iff.mp hjoin)
      rw [Body.compile_join] at ht
      obtain ⟨s, hs, ht⟩ := Option.bind_eq_some_iff.mp ht
      refine ⟨(s, rest₁), (h.1 _ _ _ _ _ _).mpr ⟨first, hread, hs⟩, ?_⟩
      dsimp only
      rw [if_pos hbar]
      exact (h.2.1 _ _ _ _ _ _).mpr ⟨more, hmore, t, ht, hrule, hout⟩
    · rename_i hbar
      obtain ⟨rfl, hrest⟩ := Prod.mk.inj (pure_eq_ok_iff.mp hbody)
      refine ⟨(t, rest₁), (h.1 _ _ _ _ _ _).mpr ⟨first, hread, ht⟩, ?_⟩
      dsimp only
      rw [if_neg hbar, pure_eq_ok_iff, hrule, hout, hrest]

section Sequence

variable (h : ∀ name isNested rest s s' rest',
  parseSequence total vocab fuel name isNested rest s = some (.ok (s', rest')) ↔
    ∃ body, readSequence total vocab fuel isNested rest = some (.ok (body, rest')) ∧
      body.compile name s = some s')

include h

/-- An item that was read off the text, then the rest of the sequence. -/
theorem item_step {γ : Type} {lex : Except ParseError γ} {text : γ → List UInt8}
    {next : γ → SequenceState} (wrap : γ → Body → Body)
    (hwrap : ∀ a body, (wrap a body).compile name s = body.compile name (next a)) :
    (Exec.ofExcept lex >>= fun a =>
        parseSequence total vocab fuel name isNested (text a) (next a) :
        Exec ParseError (SequenceState × List UInt8)) = some (.ok (s', rest')) ↔
      ∃ body, (Exec.ofExcept lex >>= fun a =>
          readSequence total vocab fuel isNested (text a) >>= fun r => pure (wrap a r.1, r.2) :
          Exec ParseError (Body × List UInt8)) = some (.ok (body, rest')) ∧
        body.compile name s = some s' := by
  simp only [bind_eq_ok_iff, ofExcept_eq_ok_iff, pure_eq_ok_iff, h]
  constructor
  · rintro ⟨a, hlex, body, hread, hs⟩
    exact ⟨wrap a body, ⟨a, hlex, (body, rest'), hread, rfl⟩, (hwrap a body).trans hs⟩
  · rintro ⟨_, ⟨a, hlex, ⟨body, _⟩, hread, hw⟩, hs⟩
    obtain ⟨rfl, rfl⟩ := Prod.mk.inj hw
    exact ⟨a, hlex, body, hread, (hwrap a body).symm.trans hs⟩

/-- A repetition whose bounds are known, then the rest of the sequence. -/
theorem suffix_step (hlimit : overLimit minTimes maxTimes = false) {text : List UInt8} :
    (Exec.ofExcept (handleRepetitions total rest name minTimes maxTimes s) >>= fun t =>
        parseSequence total vocab fuel name isNested text t :
        Exec ParseError (SequenceState × List UInt8)) = some (.ok (s', rest')) ↔
      ∃ body, (readSequence total vocab fuel isNested text >>= fun r =>
          pure (.repeated minTimes maxTimes r.1, r.2) :
          Exec ParseError (Body × List UInt8)) = some (.ok (body, rest')) ∧
        body.compile name s = some s' := by
  constructor
  · intro hp
    obtain ⟨t, ht, hseq⟩ := bind_eq_ok_iff.mp hp
    obtain ⟨body, hread, hs⟩ := (h _ _ _ _ _ _).mp hseq
    refine ⟨.repeated minTimes maxTimes body, bind_eq_ok_iff.mpr ⟨_, hread, rfl⟩, ?_⟩
    obtain ⟨hrep, rfl⟩ := (handleRepetitions_ok_iff hlimit).mp (ofExcept_eq_ok_iff.mp ht)
    rw [Body.compile, if_pos hrep]
    exact hs
  · rintro ⟨body, hread, hs⟩
    obtain ⟨⟨inner, rest₂⟩, hinner, hbody⟩ := bind_eq_ok_iff.mp hread
    obtain ⟨rfl, rfl⟩ := Prod.mk.inj (pure_eq_ok_iff.mp hbody)
    rw [Body.compile] at hs
    split at hs
    · rename_i hrep
      refine bind_eq_ok_iff.mpr ⟨_, ?_, (h _ _ _ _ _ _).mpr ⟨inner, hinner, hs⟩⟩
      exact ofExcept_eq_ok_iff.mpr ((handleRepetitions_ok_iff hlimit).mpr ⟨hrep, rfl⟩)
    · cases hs

omit h in
/-- What is read is wrapped, and so is what is compiled. -/
theorem wrapped_iff {text : List UInt8} {wrap : Body → Body} {t : SequenceState}
    (hwrap : ∀ body, (wrap body).compile name s = some s' ↔ body.compile name t = some s') :
    (∃ body, readSequence total vocab fuel isNested text = some (.ok (body, rest')) ∧
        body.compile name t = some s') ↔
      ∃ body, (readSequence total vocab fuel isNested text >>= fun r =>
          pure (wrap r.1, r.2) :
          Exec ParseError (Body × List UInt8)) = some (.ok (body, rest')) ∧
        body.compile name s = some s' := by
  simp only [bind_eq_ok_iff, pure_eq_ok_iff]
  constructor
  · rintro ⟨body, hread, hs⟩
    exact ⟨wrap body, ⟨(body, rest'), hread, rfl⟩, (hwrap body).mpr hs⟩
  · rintro ⟨_, ⟨⟨body, _⟩, hread, hw⟩, hs⟩
    obtain ⟨rfl, rfl⟩ := Prod.mk.inj hw
    exact ⟨body, hread, (hwrap body).mp hs⟩

omit h in
theorem handleRepetitions_overLimit (hlimit : overLimit minTimes maxTimes = true) (body : Body) :
    (Body.repeated minTimes maxTimes body).compile name s = none := by
  rw [Body.compile, if_neg]
  rintro ⟨_, hfalse, _⟩
  rw [hlimit] at hfalse
  cases hfalse

theorem braces_step {text : List UInt8} :
    (Exec.ofExcept (parseBraces total isNested text) >>= fun r =>
        if overLimit r.1.1 r.1.2 = true then
          Exec.fail (.repetitionTooLarge (r.1.2.getD r.1.1) MAX_REPETITION_THRESHOLD
            (total - r.2.length))
        else Exec.ofExcept (handleRepetitions total r.2 name r.1.1 r.1.2 s) >>= fun t =>
          parseSequence total vocab fuel name isNested r.2 t :
        Exec ParseError (SequenceState × List UInt8)) = some (.ok (s', rest')) ↔
      ∃ body, (Exec.ofExcept (parseBraces total isNested text) >>= fun b =>
          readSequence total vocab fuel isNested b.2 >>= fun r =>
            pure (.repeated b.1.1 b.1.2 r.1, r.2) :
          Exec ParseError (Body × List UInt8)) = some (.ok (body, rest')) ∧
        body.compile name s = some s' := by
  constructor
  · intro hp
    obtain ⟨⟨⟨lo, hi⟩, rest₁⟩, hbraces, hp⟩ := bind_eq_ok_iff.mp hp
    dsimp only at hp
    split at hp
    · exact absurd hp fail_ne_ok
    · rename_i hlimit
      obtain ⟨body, hread, hs⟩ := (suffix_step h (eq_false_of_ne_true hlimit)).mp hp
      exact ⟨body, bind_eq_ok_iff.mpr ⟨_, hbraces, hread⟩, hs⟩
  · rintro ⟨body, hread, hs⟩
    obtain ⟨⟨⟨lo, hi⟩, rest₁⟩, hbraces, hread⟩ := bind_eq_ok_iff.mp hread
    refine bind_eq_ok_iff.mpr ⟨_, hbraces, ?_⟩
    dsimp only at hread ⊢
    cases hlimit : overLimit lo hi with
    | true =>
      obtain ⟨⟨inner, _⟩, _, hbody⟩ := bind_eq_ok_iff.mp hread
      obtain ⟨rfl, _⟩ := Prod.mk.inj (pure_eq_ok_iff.mp hbody)
      rw [handleRepetitions_overLimit hlimit] at hs
      exact nomatch hs
    | false =>
      rw [if_neg (by simp)]
      exact (suffix_step h hlimit).mpr ⟨body, hread, hs⟩

theorem group_step
    (halt : ∀ name ruleId isNested rest out r,
      parseAlternates total vocab fuel name ruleId isNested rest out = some (.ok r) ↔
        ∃ body, readAlternates total vocab fuel isNested rest = some (.ok (body, r.2)) ∧
          ∃ t, body.compile name (.fresh [] out) = some t ∧
            t.out.addRule ruleId (t.rule ++ [⟨.ruleEnd, 0⟩]) = r.1) {text : List UInt8} :
    (parseAlternates total vocab fuel name (s.out.generateSymbolId name).1 true text
          (s.out.generateSymbolId name).2 >>= fun r =>
        if cur r.2 ≠ 0x29 then Exec.fail (.at total "expecting ')'" r.2)
        else parseSequence total vocab fuel name isNested (parseSpace isNested (r.2.drop 1))
          { rule := s.rule ++ [⟨.ruleRef, (s.out.generateSymbolId name).1⟩]
            lastSymStart := s.rule.length
            nPrevRules := max (r.1.symbolIds.length - s.out.symbolIds.length) 1
            out := r.1 } :
        Exec ParseError (SequenceState × List UInt8)) = some (.ok (s', rest')) ↔
      ∃ body, (readAlternates total vocab fuel true text >>= fun a =>
          if cur a.2 ≠ 0x29 then Exec.fail (.at total "expecting ')'" a.2)
          else readSequence total vocab fuel isNested (parseSpace isNested (a.2.drop 1)) >>=
            fun r => pure (.group a.1 r.1, r.2) :
          Exec ParseError (Body × List UInt8)) = some (.ok (body, rest')) ∧
        body.compile name s = some s' := by
  constructor
  · intro hp
    obtain ⟨⟨out, rest₁⟩, hinner, hp⟩ := bind_eq_ok_iff.mp hp
    obtain ⟨inner, hread, t, ht, hout⟩ := (halt _ _ _ _ _ _).mp hinner
    dsimp only at hp hout
    split at hp
    · exact absurd hp fail_ne_ok
    · rename_i hclose
      obtain ⟨body, hbody, hs⟩ := (h _ _ _ _ _ _).mp hp
      refine ⟨.group inner body, bind_eq_ok_iff.mpr ⟨_, hread, ?_⟩, ?_⟩
      · dsimp only
        rw [if_neg hclose]
        exact bind_eq_ok_iff.mpr ⟨_, hbody, rfl⟩
      · subst hout
        exact Option.bind_eq_some_iff.mpr ⟨t, ht, hs⟩
  · rintro ⟨body, hread, hs⟩
    obtain ⟨⟨inner, rest₁⟩, hinner, hread⟩ := bind_eq_ok_iff.mp hread
    dsimp only at hread
    split at hread
    · exact absurd hread fail_ne_ok
    · rename_i hclose
      obtain ⟨⟨after, rest₂⟩, hafter, hbody⟩ := bind_eq_ok_iff.mp hread
      obtain ⟨rfl, rfl⟩ := Prod.mk.inj (pure_eq_ok_iff.mp hbody)
      obtain ⟨t, ht, hs⟩ := Option.bind_eq_some_iff.mp hs
      refine bind_eq_ok_iff.mpr ⟨(_, rest₁), (halt _ _ _ _ _ _).mpr ⟨inner, hinner, t, ht, rfl⟩, ?_⟩
      dsimp only
      rw [if_neg hclose]
      exact (h _ _ _ _ _ _).mpr ⟨after, hafter, hs⟩

theorem parseSequence_factors
    (halt : ∀ name ruleId isNested rest out r,
      parseAlternates total vocab fuel name ruleId isNested rest out = some (.ok r) ↔
        ∃ body, readAlternates total vocab fuel isNested rest = some (.ok (body, r.2)) ∧
          ∃ t, body.compile name (.fresh [] out) = some t ∧
            t.out.addRule ruleId (t.rule ++ [⟨.ruleEnd, 0⟩]) = r.1)
    (name : SymbolName) (isNested : Bool) (rest : List UInt8) (s s' : SequenceState)
    (rest' : List UInt8) :
    parseSequence total vocab (fuel + 1) name isNested rest s = some (.ok (s', rest')) ↔
      ∃ body, readSequence total vocab (fuel + 1) isNested rest = some (.ok (body, rest')) ∧
        body.compile name s = some s' := by
  rw [parseSequence, readSequence]
  dsimp only
  by_cases hquote : cur rest = 0x22
  · rw [if_pos hquote, if_pos hquote]
    exact item_step h (fun a : List ℕ × List UInt8 => .atom (.literal a.1)) fun _ _ => rfl
  rw [if_neg hquote, if_neg hquote]
  by_cases hclass : cur rest = 0x5B
  · rw [if_pos hclass, if_pos hclass]
    exact item_step h (fun a : List (ℕ × Option ℕ) × List UInt8 => .atom (.charClass _ a.1))
      fun _ _ => rfl
  rw [if_neg hclass, if_neg hclass]
  by_cases htoken : cur rest = 0x3C ∨ cur rest = 0x21
  · rw [if_pos htoken, if_pos htoken]
    exact item_step h (fun a : ℕ × List UInt8 => .atom (.token _ a.1)) fun _ _ => rfl
  rw [if_neg htoken, if_neg htoken]
  by_cases hword : isWordChar (cur rest) = true
  · rw [if_pos hword, if_pos hword]
    exact item_step h (fun a : List UInt8 × List UInt8 => .ref a.1) fun _ _ => rfl
  rw [if_neg hword, if_neg hword]
  by_cases hgroup : cur rest = 0x28
  · rw [if_pos hgroup, if_pos hgroup]
    exact group_step h halt
  rw [if_neg hgroup, if_neg hgroup]
  by_cases hdot : cur rest = 0x2E
  · rw [if_pos hdot, if_pos hdot, h]
    exact wrapped_iff fun _ => Iff.rfl
  rw [if_neg hdot, if_neg hdot]
  by_cases hstar : cur rest = 0x2A
  · rw [if_pos hstar, if_pos hstar]
    exact suffix_step h rfl
  rw [if_neg hstar, if_neg hstar]
  by_cases hplus : cur rest = 0x2B
  · rw [if_pos hplus, if_pos hplus]
    exact suffix_step h rfl
  rw [if_neg hplus, if_neg hplus]
  by_cases hopt : cur rest = 0x3F
  · rw [if_pos hopt, if_pos hopt]
    exact suffix_step h rfl
  rw [if_neg hopt, if_neg hopt]
  by_cases hbrace : cur rest = 0x7B
  · rw [if_pos hbrace, if_pos hbrace]
    exact braces_step h
  rw [if_neg hbrace, if_neg hbrace]
  simp only [pure_eq_ok_iff]
  constructor
  · rintro ⟨⟩
    exact ⟨.done, rfl, rfl⟩
  · rintro ⟨_, ⟨⟩, hs⟩
    rw [Option.some.inj hs]

end Sequence

theorem factors (fuel : ℕ) : Factors total vocab fuel := by
  induction fuel with
  | zero => exact factors_zero
  | succ fuel ih =>
    exact ⟨parseSequence_factors ih.1 ih.2.2, parseMore_factors ih, parseAlternates_factors ih.2.1⟩

theorem parseRule_factors {out out' : ParsedGrammar} :
    parseRule total vocab fuel rest out = some (.ok (out', rest')) ↔
      ∃ line, readRule total vocab fuel rest = some (.ok (line, rest')) ∧
        Lines.compileLine line out = some out' := by
  unfold parseRule readRule Lines.compileLine
  simp only [bind_eq_ok_iff, ofExcept_eq_ok_iff]
  constructor
  · rintro ⟨⟨name, rest₁⟩, hname, hp⟩
    dsimp only at hp
    split at hp
    · exact absurd hp fail_ne_ok
    · rename_i hdef
      obtain ⟨⟨out₁, rest₂⟩, hbody, hp⟩ := bind_eq_ok_iff.mp hp
      obtain ⟨rest₃, hend, hp⟩ := bind_eq_ok_iff.mp hp
      obtain ⟨rfl, rfl⟩ := Prod.mk.inj (pure_eq_ok_iff.mp hp)
      obtain ⟨body, hread, t, ht, rfl⟩ := ((factors fuel).2.2 _ _ _ _ _ _).mp hbody
      refine ⟨(name, body), ⟨_, hname, ?_⟩, Option.map_eq_some_iff.mpr ⟨t, ht, rfl⟩⟩
      dsimp only
      rw [if_neg hdef, bind_eq_ok_iff]
      exact ⟨_, hread, bind_eq_ok_iff.mpr ⟨_, hend, rfl⟩⟩
  · rintro ⟨line, ⟨⟨name, rest₁⟩, hname, hread⟩, hline⟩
    dsimp only at hread
    split at hread
    · exact absurd hread fail_ne_ok
    · rename_i hdef
      obtain ⟨⟨body, rest₂⟩, hbody, hread⟩ := bind_eq_ok_iff.mp hread
      obtain ⟨rest₃, hend, hread⟩ := bind_eq_ok_iff.mp hread
      obtain ⟨rfl, rfl⟩ := Prod.mk.inj (pure_eq_ok_iff.mp hread)
      obtain ⟨t, ht, hout⟩ := Option.map_eq_some_iff.mp hline
      refine ⟨(name, rest₁), hname, ?_⟩
      dsimp only
      rw [if_neg hdef, bind_eq_ok_iff]
      exact ⟨(out', rest₂), ((factors fuel).2.2 _ _ _ _ _ _).mpr ⟨body, hbody, t, ht, hout⟩,
        bind_eq_ok_iff.mpr ⟨_, hend, rfl⟩⟩

theorem parseRules_factors {out g : ParsedGrammar} :
    parseRules total vocab fuel rest out = some (.ok g) ↔
      ∃ lines, readRules total vocab fuel rest = some (.ok lines) ∧ lines.compile out = some g := by
  induction fuel generalizing rest out with
  | zero => exact ⟨nofun, nofun⟩
  | succ fuel ih =>
    rw [parseRules, readRules]
    by_cases hend : cur rest = 0
    · rw [if_pos hend, if_pos hend]
      simp only [pure_eq_ok_iff]
      constructor
      · rintro rfl
        exact ⟨[], rfl, rfl⟩
      · rintro ⟨_, rfl, hg⟩
        exact Option.some.inj hg
    · rw [if_neg hend, if_neg hend]
      simp only [bind_eq_ok_iff, pure_eq_ok_iff]
      constructor
      · rintro ⟨⟨out₁, rest₁⟩, hrule, hrules⟩
        obtain ⟨line, hread, hline⟩ := parseRule_factors.mp hrule
        obtain ⟨lines, hlines, hg⟩ := ih.mp hrules
        exact ⟨line :: lines, ⟨_, hread, lines, hlines, rfl⟩,
          Option.bind_eq_some_iff.mpr ⟨out₁, hline, hg⟩⟩
      · rintro ⟨_, ⟨⟨line, rest₁⟩, hread, lines, hlines, rfl⟩, hg⟩
        obtain ⟨out₁, hline, hg⟩ := Option.bind_eq_some_iff.mp hg
        exact ⟨(out₁, rest₁), parseRule_factors.mpr ⟨line, hread, hline⟩, ih.mpr ⟨lines, hlines, hg⟩⟩

/-- The parser accepts the texts whose lines compile to a table without undefined rules. -/
theorem parse_ok_iff {src : List UInt8} {g : ParsedGrammar} :
    parse src fuel = some (.ok g) ↔
      ∃ lines, readLines src fuel = some (.ok lines) ∧ lines.compile .empty = some g ∧
        g.validate = .ok () := by
  unfold parse parseWithVocab readLines
  simp only [bind_eq_ok_iff, parseRules_factors, ofExcept_eq_ok_iff, pure_eq_ok_iff]
  constructor
  · rintro ⟨_, ⟨lines, hread, hg⟩, _, hvalid, rfl⟩
    exact ⟨lines, hread, hg, hvalid⟩
  · rintro ⟨lines, hread, hg, hvalid⟩
    exact ⟨g, ⟨lines, hread, hg⟩, (), hvalid, rfl⟩

end Frink.Gbnf

/-! ## Which rules a text defines

A line defines the rule of its name, and a name that is only referred to has a symbol
and no rule. Every synthesized symbol has its rule.
-/

namespace Frink.Gbnf

open ParsedGrammar

namespace ParsedGrammar

/-- The symbols are the synthesized ones and those of the names, and of the names those in `defs`
have their rules. -/
structure Tabled (defs refs : List SymbolName) (out : ParsedGrammar) : Prop extends Sound out where
  synthesized : ∀ name id, (name, id) ∈ out.symbolIds → Synthesized name id →
    ruleAt out.rules id ≠ []
  given : ∀ name id, (name, id) ∈ out.symbolIds → Plain name → name ∈ defs ++ refs
  defined : ∀ name id, (name, id) ∈ out.symbolIds → Plain name →
    (ruleAt out.rules id ≠ [] ↔ name ∈ defs)
  symbols : ∀ name ∈ defs ++ refs, ∃ id, (name, id) ∈ out.symbolIds

theorem tabled_empty : Tabled [] [] empty where
  toSound := sound_empty
  synthesized := nofun
  given := nofun
  defined := nofun
  symbols := nofun

end ParsedGrammar

namespace Lines

variable {line : SymbolName × Body} {lines : Lines} {out out' g : ParsedGrammar}
  {ds rs : List SymbolName}

/-- A line grows the table by its names, and then adds the rule of its own. -/
theorem compileLine_sound (hline : Plain line.1) (hbody : ∀ name ∈ line.2.names, Plain name)
    (hs : out.Sound) (h : compileLine line out = some out') :
    ∃ t id, Sound t ∧ Grown (line.1 :: line.2.names) out t ∧ (line.1, id) ∈ t.symbolIds ∧
      ∃ rule, Shaped t.symbolIds.length rule ∧ out' = t.addRule id rule := by
  obtain ⟨t, ht, rfl⟩ := Option.map_eq_some_iff.mp h
  obtain ⟨hs', hmem⟩ := hs.getSymbolId hline
  have hg := hs.getSymbolId_grown hline
  obtain ⟨hts, htg⟩ := Body.compile_sound hline hbody (.fresh hs' .nil) ht
  refine ⟨t.out, (out.getSymbolId line.1).1, hts.out, hg.trans hs' hts.out htg,
    htg.symbols.subset hmem, _, ⟨t.rule, rfl, hts.inner⟩, rfl⟩

theorem compileLine_tabled (hline : Plain line.1) (hbody : ∀ name ∈ line.2.names, Plain name)
    (ht : Tabled ds rs out) (h : compileLine line out = some out') :
    Tabled (ds ++ [line.1]) (rs ++ line.2.names) out' := by
  obtain ⟨t, id, hs, hg, hmem, rule, hrule, rfl⟩ := compileLine_sound hline hbody ht.toSound h
  have hold : ∀ p ∈ out.symbolIds, ruleAt t.rules p.2 = ruleAt out.rules p.2 := fun p hp =>
    hg.old p.2 (ht.id_lt hp)
  refine ⟨hs.addRule (hs.id_lt hmem) hrule, ?_, ?_, ?_, ?_⟩
  · intro name i hp hsynth
    rw [ruleAt_addRule]
    split
    · exact hrule.ne_nil
    · by_cases hin : (name, i) ∈ out.symbolIds
      · rw [hold _ hin]
        exact ht.synthesized name i hin hsynth
      · rcases hg.new _ hp hin with ⟨hplain, _⟩ | ⟨_, hne⟩
        · exact absurd hplain hsynth.not_plain
        · exact hne
  · intro name i hp hplain
    by_cases hin : (name, i) ∈ out.symbolIds
    · have hnames := ht.given name i hin hplain
      simp only [List.mem_append] at hnames ⊢
      tauto
    · rcases hg.new _ hp hin with ⟨_, hnames, _⟩ | ⟨hsynth, _⟩
      · simp only [List.mem_append, List.mem_cons] at hnames ⊢
        tauto
      · exact absurd hplain hsynth.not_plain
  · intro name i hp hplain
    rw [ruleAt_addRule, List.mem_append, List.mem_singleton]
    by_cases hi : i = id
    · subst hi
      obtain rfl : name = line.1 := hs.id_unique hp hmem
      simp [hrule.ne_nil]
    · have hname : name ≠ line.1 := by
        rintro rfl
        exact hi (hs.name_unique hp hmem)
      rw [if_neg hi, or_iff_left hname]
      by_cases hin : (name, i) ∈ out.symbolIds
      · rw [hold _ hin]
        exact ht.defined name i hin hplain
      · rcases hg.new _ hp hin with ⟨_, _, hnil⟩ | ⟨hsynth, _⟩
        · refine iff_of_false (not_not.mpr hnil) fun hdef => ?_
          obtain ⟨j, hj⟩ := ht.symbols name (List.mem_append_left _ hdef)
          obtain rfl := hs.name_unique hp (hg.symbols.subset hj)
          exact hin hj
        · exact absurd hplain hsynth.not_plain
  · intro name hname
    have hnames : name ∈ ds ++ rs ∨ name ∈ line.1 :: line.2.names := by
      simp only [List.mem_append, List.mem_cons] at hname ⊢
      tauto
    rcases hnames with hnames | hnames
    · obtain ⟨i, hi⟩ := ht.symbols name hnames
      exact ⟨i, hg.symbols.subset hi⟩
    · exact hg.given name hnames

/-- The names the lines define. -/
def defs (lines : Lines) : List SymbolName := lines.map Prod.fst

/-- The names the lines refer to, also in items that are repeated zero times. -/
def refs (lines : Lines) : List SymbolName := lines.flatMap fun line => line.2.names

theorem compile_tabled (hplain : ∀ line ∈ lines, Plain line.1 ∧ ∀ name ∈ line.2.names, Plain name)
    (ht : Tabled ds rs out) (h : lines.compile out = some g) :
    Tabled (ds ++ lines.defs) (rs ++ lines.refs) g := by
  induction lines generalizing ds rs out with
  | nil =>
    cases h
    simpa [defs, refs] using ht
  | cons line lines ih =>
    obtain ⟨out', hline, h⟩ := Option.bind_eq_some_iff.mp h
    obtain ⟨hname, hbody⟩ := hplain line (by simp)
    have hrest := ih (fun l hl => hplain l (by simp [hl])) (compileLine_tabled hname hbody ht hline) h
    simpa [defs, refs] using hrest

end Lines

/-- What a text compiles to. -/
theorem parse_tabled {src : List UInt8} {fuel : ℕ} {g : ParsedGrammar}
    (h : parse src fuel = some (.ok g)) : ∃ lines, readLines src fuel = some (.ok lines) ∧
      Tabled lines.defs lines.refs g ∧ g.validate = .ok () := by
  obtain ⟨lines, hread, hg, hvalid⟩ := parse_ok_iff.mp h
  exact ⟨lines, hread, Lines.compile_tabled (readRules_plain hread) tabled_empty hg, hvalid⟩

end Frink.Gbnf
