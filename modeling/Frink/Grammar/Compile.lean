import Mathlib
import Frink.Grammar.Symbols
import Frink.Grammar.Table

/-! # Compiling a body

Each item, repetition and group keeps the rule being built sound. A group or a
repetition adds rules at new symbols only, so the rules added before stay as they are.
-/

/-! ## The names of a text

Every name that is read is a word, so none has the underscore of the synthesized
names.
-/

namespace Frink.Gbnf

open Exec ParsedGrammar

namespace Body

/-- The rules a body refers to by name. -/
def names : Body → List SymbolName
  | done => []
  | atom _ rest => rest.names
  | ref name rest => name :: rest.names
  | group inner rest => inner.names ++ rest.names
  | repeated _ _ rest => rest.names
  | alt rest => rest.names

theorem names_join (b c : Body) : (b.join c).names = b.names ++ c.names := by
  induction b <;> simp_all [join, names]

end Body

section Names

variable {total fuel : ℕ} {vocab : Option GrammarVocab} {isNested : Bool}
  {rest rest' : List UInt8} {body : Body} {name : SymbolName}

theorem parseName_plain (h : parseName total rest = .ok (name, rest')) : Plain name := by
  unfold parseName at h
  dsimp only at h
  split at h
  · exact nomatch h
  · cases h
    exact fun c hc => List.mem_takeWhile_imp hc

/-- Names are read as words. -/
def ReadsPlain (total : ℕ) (vocab : Option GrammarVocab) (fuel : ℕ) : Prop :=
  (∀ isNested rest body rest',
    readSequence total vocab fuel isNested rest = some (.ok (body, rest')) →
      ∀ name ∈ body.names, Plain name) ∧
  (∀ isNested rest body rest',
    readMore total vocab fuel isNested rest = some (.ok (body, rest')) →
      ∀ name ∈ body.names, Plain name) ∧
  (∀ isNested rest body rest',
    readAlternates total vocab fuel isNested rest = some (.ok (body, rest')) →
      ∀ name ∈ body.names, Plain name)

/-- Wrapping what was read in an item without a name adds no name. -/
theorem plain_wrapped {m : Exec ParseError (Body × List UInt8)} (wrap : Body → Body)
    (hwrap : ∀ b, (wrap b).names = b.names)
    (h : ∀ body rest', m = some (.ok (body, rest')) → ∀ name ∈ body.names, Plain name)
    (hread : (m >>= fun r => pure (wrap r.1, r.2) : Exec ParseError (Body × List UInt8)) =
      some (.ok (body, rest'))) : ∀ name ∈ body.names, Plain name := by
  obtain ⟨⟨inner, _⟩, hinner, hbody⟩ := bind_eq_ok_iff.mp hread
  cases pure_eq_ok_iff.mp hbody
  rw [hwrap]
  exact h _ _ hinner

theorem readSequence_plain (h : ReadsPlain total vocab fuel)
    (hread : readSequence total vocab (fuel + 1) isNested rest = some (.ok (body, rest'))) :
    ∀ name ∈ body.names, Plain name := by
  rw [readSequence] at hread
  dsimp only at hread
  by_cases hquote : cur rest = 0x22
  · rw [if_pos hquote] at hread
    obtain ⟨_, _, hread⟩ := bind_eq_ok_iff.mp hread
    exact plain_wrapped (.atom _) (fun _ => rfl) (h.1 _ _) hread
  rw [if_neg hquote] at hread
  by_cases hclass : cur rest = 0x5B
  · rw [if_pos hclass] at hread
    obtain ⟨_, _, hread⟩ := bind_eq_ok_iff.mp hread
    exact plain_wrapped (.atom _) (fun _ => rfl) (h.1 _ _) hread
  rw [if_neg hclass] at hread
  by_cases htoken : cur rest = 0x3C ∨ cur rest = 0x21
  · rw [if_pos htoken] at hread
    obtain ⟨_, _, hread⟩ := bind_eq_ok_iff.mp hread
    exact plain_wrapped (.atom _) (fun _ => rfl) (h.1 _ _) hread
  rw [if_neg htoken] at hread
  by_cases hword : isWordChar (cur rest) = true
  · rw [if_pos hword] at hread
    obtain ⟨⟨name, _⟩, hname, hread⟩ := bind_eq_ok_iff.mp hread
    obtain ⟨⟨inner, _⟩, hinner, hbody⟩ := bind_eq_ok_iff.mp hread
    cases pure_eq_ok_iff.mp hbody
    exact List.forall_mem_cons.mpr
      ⟨parseName_plain (ofExcept_eq_ok_iff.mp hname), h.1 _ _ _ _ hinner⟩
  rw [if_neg hword] at hread
  by_cases hgroup : cur rest = 0x28
  · rw [if_pos hgroup] at hread
    obtain ⟨⟨group, _⟩, hinner, hread⟩ := bind_eq_ok_iff.mp hread
    dsimp only at hread
    split at hread
    · exact absurd hread fail_ne_ok
    · obtain ⟨⟨after, _⟩, hafter, hbody⟩ := bind_eq_ok_iff.mp hread
      cases pure_eq_ok_iff.mp hbody
      exact List.forall_mem_append.mpr ⟨h.2.2 _ _ _ _ hinner, h.1 _ _ _ _ hafter⟩
  rw [if_neg hgroup] at hread
  by_cases hdot : cur rest = 0x2E
  · rw [if_pos hdot] at hread
    exact plain_wrapped (.atom _) (fun _ => rfl) (h.1 _ _) hread
  rw [if_neg hdot] at hread
  by_cases hstar : cur rest = 0x2A
  · rw [if_pos hstar] at hread
    exact plain_wrapped (.repeated _ _) (fun _ => rfl) (h.1 _ _) hread
  rw [if_neg hstar] at hread
  by_cases hplus : cur rest = 0x2B
  · rw [if_pos hplus] at hread
    exact plain_wrapped (.repeated _ _) (fun _ => rfl) (h.1 _ _) hread
  rw [if_neg hplus] at hread
  by_cases hopt : cur rest = 0x3F
  · rw [if_pos hopt] at hread
    exact plain_wrapped (.repeated _ _) (fun _ => rfl) (h.1 _ _) hread
  rw [if_neg hopt] at hread
  by_cases hbrace : cur rest = 0x7B
  · rw [if_pos hbrace] at hread
    obtain ⟨_, _, hread⟩ := bind_eq_ok_iff.mp hread
    exact plain_wrapped (.repeated _ _) (fun _ => rfl) (h.1 _ _) hread
  rw [if_neg hbrace] at hread
  cases pure_eq_ok_iff.mp hread
  exact nofun

theorem reads_plain (fuel : ℕ) : ReadsPlain total vocab fuel := by
  induction fuel with
  | zero => exact ⟨nofun, nofun, nofun⟩
  | succ fuel ih =>
    refine ⟨fun _ _ _ _ => readSequence_plain ih, fun _ _ body _ hread => ?_, fun _ _ _ _ => ?_⟩
    · rw [readMore] at hread
      obtain ⟨⟨first, _⟩, hfirst, hread⟩ := bind_eq_ok_iff.mp hread
      dsimp only at hread
      split at hread
      · obtain ⟨⟨more, _⟩, hmore, hbody⟩ := bind_eq_ok_iff.mp hread
        cases pure_eq_ok_iff.mp hbody
        rw [Body.names_join]
        exact List.forall_mem_append.mpr ⟨ih.1 _ _ _ _ hfirst, ih.2.1 _ _ _ _ hmore⟩
      · cases pure_eq_ok_iff.mp hread
        exact ih.1 _ _ _ _ hfirst
    · exact ih.2.1 _ _ _ _

theorem readRule_plain {line : SymbolName × Body}
    (h : readRule total vocab fuel rest = some (.ok (line, rest'))) :
    Plain line.1 ∧ ∀ name ∈ line.2.names, Plain name := by
  unfold readRule at h
  obtain ⟨⟨name, rest₁⟩, hname, h⟩ := bind_eq_ok_iff.mp h
  dsimp only at h
  split at h
  · exact absurd h fail_ne_ok
  · obtain ⟨⟨body, rest₂⟩, hbody, h⟩ := bind_eq_ok_iff.mp h
    obtain ⟨rest₃, _, h⟩ := bind_eq_ok_iff.mp h
    cases pure_eq_ok_iff.mp h
    exact ⟨parseName_plain (ofExcept_eq_ok_iff.mp hname), (reads_plain fuel).2.2 _ _ _ _ hbody⟩

theorem readRules_plain {lines : Lines} (h : readRules total vocab fuel rest = some (.ok lines)) :
    ∀ line ∈ lines, Plain line.1 ∧ ∀ name ∈ line.2.names, Plain name := by
  induction fuel generalizing rest lines with
  | zero => exact nomatch h
  | succ fuel ih =>
    rw [readRules] at h
    split at h
    · cases pure_eq_ok_iff.mp h
      exact nofun
    · obtain ⟨⟨line, rest₁⟩, hline, h⟩ := bind_eq_ok_iff.mp h
      obtain ⟨lines', hlines, h⟩ := bind_eq_ok_iff.mp h
      cases pure_eq_ok_iff.mp h
      exact List.forall_mem_cons.mpr ⟨readRule_plain hline, ih hlines⟩

end Names

end Frink.Gbnf

namespace Frink.Gbnf

open ParsedGrammar

section Growth

variable {out out' : ParsedGrammar} {names : List SymbolName} {name base : SymbolName}
  {rule : GrammarRule}

theorem ParsedGrammar.Interned.ruleAt_new (h : Interned out) {id : ℕ}
    (hid : out.symbolIds.length ≤ id) : ruleAt out.rules id = [] := by
  unfold ruleAt
  rw [List.getElem?_eq_none (h.rules_le.trans hid)]
  rfl

theorem ParsedGrammar.Sound.getSymbolId_grown (h : Sound out) (hname : Plain name) :
    Grown [name] out (out.getSymbolId name).2 := by
  rcases h.toInterned.getSymbolId name with ⟨id, hmem, heq⟩ | ⟨hnew, heq⟩
  · rw [heq]
    refine { Grown.refl with given := ?_ , new := fun _ hp hn => absurd hp hn }
    simpa using ⟨id, hmem⟩
  · rw [heq]
    refine ⟨List.prefix_append _ _, fun _ _ => rfl, ?_, ?_⟩
    · intro p hp hn
      rcases List.mem_append.mp hp with hp | hp
      · exact absurd hp hn
      · obtain rfl := List.mem_singleton.mp hp
        exact .inl ⟨hname, by simp, h.ruleAt_new le_rfl⟩
    · simp [ParsedGrammar.appended]

/-- The rule of a generated symbol, added once what it refers to is there. -/
theorem ParsedGrammar.Grown.addRule (h' : Sound out')
    (hname : Synthesized name out.symbolIds.length) (hg : Grown names (out.appended name) out')
    (hne : rule ≠ []) : Grown names out (out'.addRule out.symbolIds.length rule) where
  symbols := (List.prefix_append _ _).trans hg.symbols
  old := by
    intro id hid
    rw [ruleAt_addRule, if_neg hid.ne, hg.old id (by simp [ParsedGrammar.appended]; omega)]
    rfl
  new := by
    intro p hp hn
    rw [ruleAt_addRule]
    have hmem : (name, out.symbolIds.length) ∈ out'.symbolIds :=
      hg.symbols.subset (by simp [ParsedGrammar.appended])
    by_cases hid : p.2 = out.symbolIds.length
    · have hpn : p.1 = name := h'.id_unique hp (hid ▸ hmem)
      rw [if_pos hid, hpn, hid]
      exact .inr ⟨hname, hne⟩
    · rw [if_neg hid]
      refine hg.new p hp fun hold => ?_
      rcases List.mem_append.mp hold with hold | hold
      · exact hn hold
      · exact hid (congrArg Prod.snd (List.mem_singleton.mp hold))
  given := hg.given

/-- A generated symbol and its rule. -/
theorem ParsedGrammar.Sound.generated (h : Sound out) (hbase : Plain base)
    (hrule : Shaped (out.symbolIds.length + 1) rule) :
    ∃ name, out.generateSymbolId base = (out.symbolIds.length, out.appended name) ∧
      Sound ((out.appended name).addRule out.symbolIds.length rule) ∧
      Grown [] out ((out.appended name).addRule out.symbolIds.length rule) := by
  obtain ⟨name, hname, hnew, heq⟩ := h.toInterned.generateSymbolId hbase
  have hsound := h.appended hnew (.inr hname)
  have hlen : (out.appended name).symbolIds.length = out.symbolIds.length + 1 := by
    simp [ParsedGrammar.appended]
  refine ⟨name, heq, ?_, Grown.refl.addRule hsound hname hrule.ne_nil⟩
  exact hsound.addRule (by omega) (hlen ▸ hrule)

end Growth

section Optional

variable {out : ParsedGrammar} {ruleName : SymbolName} {prevRule : GrammarRule}

theorem recRule_shaped {bound : ℕ} (h : Inner bound prevRule) {next : Option ℕ}
    (hnext : ∀ id ∈ next, id < bound) : Shaped bound (recRule prevRule next) := by
  refine ⟨prevRule ++ (next.map (GrammarElement.mk .ruleRef)).toList ++ [⟨.alt, 0⟩], ?_, ?_⟩
  · simp [recRule]
  · refine (h.append ?_).append .alt
    cases next with
    | none => exact .nil
    | some id => exact .ref (hnext id rfl)

/-- What follows the item in the optional rule with the number `i`. -/
def recNext (noMax : Bool) (bound i : ℕ) : Option ℕ :=
  if noMax then some (bound + i) else if 0 < i then some (bound + i - 1) else none

theorem recNext_lt {noMax : Bool} {bound i : ℕ} :
    ∀ id ∈ recNext noMax bound i, id < bound + i + 1 := by
  intro id hid
  unfold recNext at hid
  split at hid
  · cases hid
    omega
  · split at hid
    · cases hid
      omega
    · exact nomatch hid

/-- The optional rules stand at the new symbols, each going on with the one before it. -/
theorem addOptional_spec (h : Sound out) (hname : Plain ruleName)
    (hprev : Inner out.symbolIds.length prevRule) (noMax : Bool) (nOpt : ℕ) :
    ∃ id out', addOptional ruleName prevRule noMax nOpt (0, out) = (id, out') ∧ Sound out' ∧
      Grown [] out out' ∧ out'.symbolIds.length = out.symbolIds.length + nOpt ∧
      (0 < nOpt → id = out.symbolIds.length + nOpt - 1) ∧
      ∀ i < nOpt, ruleAt out'.rules (out.symbolIds.length + i) =
        recRule prevRule (recNext noMax out.symbolIds.length i) := by
  induction nOpt with
  | zero => exact ⟨0, out, rfl, h, .refl, rfl, nofun, nofun⟩
  | succ nOpt ih =>
    obtain ⟨id, out', heq, hs, hg, hlen, hid, hrules⟩ := ih
    have hnext : (if noMax then some out'.symbolIds.length else if 0 < nOpt then some id else none)
        = recNext noMax out.symbolIds.length nOpt := by
      unfold recNext
      rw [hlen]
      split
      · rfl
      · split
        · rename_i hpos
          rw [hid hpos]
        · rfl
    have hshaped : Shaped (out'.symbolIds.length + 1)
        (recRule prevRule (recNext noMax out.symbolIds.length nOpt)) := by
      rw [hlen]
      exact recRule_shaped (hprev.mono (by omega)) recNext_lt
    obtain ⟨name, hgen, hs', hg'⟩ := hs.generated hname hshaped
    refine ⟨out'.symbolIds.length, _, ?_, hs', hg.trans hs hs' hg', ?_, ?_, ?_⟩
    · simp only [addOptional, heq, hgen, hnext]
    · simp [addRule_symbolIds, ParsedGrammar.appended, hlen]
      omega
    · intro _
      omega
    · intro i hi
      rw [ruleAt_addRule, hlen]
      by_cases hin : i = nOpt
      · rw [hin, if_pos rfl]
      · rw [if_neg (by omega)]
        exact hrules i (by omega)

end Optional

namespace SequenceState

/-- The rule being built refers to interned symbols, and the last item is one alternate's. -/
structure Sound (s : SequenceState) : Prop where
  out : s.out.Sound
  start_le : s.lastSymStart ≤ s.rule.length
  before : Inner s.out.symbolIds.length (s.rule.take s.lastSymStart)
  item : Inner s.out.symbolIds.length (s.rule.drop s.lastSymStart)
  noAlt : ∀ e ∈ s.rule.drop s.lastSymStart, e.gtype ≠ .alt

variable {s t : SequenceState} {out : ParsedGrammar} {rule : GrammarRule} {ruleName : SymbolName}

theorem Sound.inner (h : s.Sound) : Inner s.out.symbolIds.length s.rule := by
  have hrule := h.before.append h.item
  rwa [List.take_append_drop] at hrule

theorem Sound.fresh (h : out.Sound) (hrule : Inner out.symbolIds.length rule) :
    (fresh rule out).Sound where
  out := h
  start_le := le_rfl
  before := by simpa [SequenceState.fresh] using hrule
  item := by simpa [SequenceState.fresh] using Inner.nil
  noAlt := by simp [SequenceState.fresh]

/-- A state after a new last item. -/
theorem Sound.item_pushed {elements : GrammarRule} (hout : out.Sound)
    (hrule : Inner out.symbolIds.length rule) (he : Inner out.symbolIds.length elements)
    (halt : ∀ e ∈ elements, e.gtype ≠ .alt) (nPrevRules : ℕ) :
    SequenceState.Sound ⟨rule ++ elements, rule.length, nPrevRules, out⟩ where
  out := hout
  start_le := by simp
  before := by simpa using hrule
  item := by simpa using he
  noAlt := by simpa using halt

theorem Sound.pushItem (h : s.Sound) (a : Atom) : (s.pushItem a.elements).Sound :=
  .item_pushed h.out h.inner a.inner (fun _ he => (Atom.elements_gtype he).2.1) 1

theorem Sound.pushRef (h : s.Sound) {name : SymbolName} (hname : Plain name) :
    (s.pushRef name).Sound ∧ Grown [name] s.out (s.pushRef name).out := by
  obtain ⟨hs, hmem⟩ := h.out.getSymbolId hname
  have hg := h.out.getSymbolId_grown hname
  refine ⟨?_, hg⟩
  exact .item_pushed hs (h.inner.mono hg.length_le) (.ref (hs.id_lt hmem)) (by simp) 1

theorem Sound.pushGroup (h : s.Sound) (ht : t.Sound) {names : List SymbolName} {name : SymbolName}
    (hname : Synthesized name s.out.symbolIds.length)
    (hg : Grown names (s.out.appended name) t.out) :
    (s.pushGroup s.out.symbolIds.length t).Sound ∧
      Grown names s.out (s.pushGroup s.out.symbolIds.length t).out := by
  have hlt : s.out.symbolIds.length < t.out.symbolIds.length := by
    have hle := hg.length_le
    simp only [ParsedGrammar.appended, List.length_append, List.length_cons] at hle
    omega
  have hshaped : Shaped t.out.symbolIds.length (t.rule ++ [⟨.ruleEnd, 0⟩]) :=
    ⟨t.rule, rfl, ht.inner⟩
  constructor
  · exact .item_pushed (ht.out.addRule hlt hshaped) (h.inner.mono hlt.le) (.ref hlt) (by simp) _
  · exact hg.addRule ht.out hname hshaped.ne_nil

theorem flatten_replicate_tail (es : GrammarRule) {times : ℕ} (h : times ≠ 0) :
    es ++ (List.replicate (times - 1) es).flatten = (List.replicate times es).flatten := by
  obtain ⟨n, rfl⟩ := Nat.exists_eq_succ_of_ne_zero h
  rfl

theorem repeatLast_eq (s : SequenceState) (times : ℕ) :
    repeatLast s (s.rule.drop s.lastSymStart) times = s.rule.take s.lastSymStart ++
      (List.replicate times (s.rule.drop s.lastSymStart)).flatten := by
  unfold repeatLast
  split
  · rename_i h0
    simp [h0]
  · rename_i h0
    rw [← flatten_replicate_tail _ h0, ← List.append_assoc, List.take_append_drop]

/-- The copies of the item, and the reference to the last optional rule. -/
def repeatedItem (item : GrammarRule) (bound minTimes : ℕ) (maxTimes : Option ℕ) : GrammarRule :=
  (List.replicate minTimes item).flatten ++
    if 0 < optionalCount minTimes maxTimes then
      [⟨.ruleRef, bound + optionalCount minTimes maxTimes - 1⟩]
    else []

/-- What a repetition does to a sound state. -/
theorem Sound.repeatItem_spec (h : s.Sound) (hname : Plain ruleName) (minTimes : ℕ)
    (maxTimes : Option ℕ) : ∃ out' nPrevRules,
      s.repeatItem ruleName minTimes maxTimes =
        ⟨s.rule.take s.lastSymStart ++ repeatedItem (s.rule.drop s.lastSymStart)
          s.out.symbolIds.length minTimes maxTimes, s.lastSymStart, nPrevRules, out'⟩ ∧
      out'.Sound ∧ Grown [] s.out out' ∧
      out'.symbolIds.length = s.out.symbolIds.length + optionalCount minTimes maxTimes ∧
      ∀ i < optionalCount minTimes maxTimes, ruleAt out'.rules (s.out.symbolIds.length + i) =
        recRule (s.rule.drop s.lastSymStart)
          (recNext maxTimes.isNone s.out.symbolIds.length i) := by
  obtain ⟨id, out', heq, hs, hg, hlen, hid, hrules⟩ := addOptional_spec h.out hname h.item
    maxTimes.isNone (optionalCount minTimes maxTimes)
  refine ⟨out', min (s.nPrevRules * totalRules minTimes maxTimes) (2 ^ 64 - 1), ?_, hs, hg, hlen,
    hrules⟩
  unfold SequenceState.repeatItem
  simp only [heq, repeatLast_eq, repeatedItem]
  split
  · rename_i hpos
    rw [hid hpos, List.append_assoc]
  · rw [List.append_nil]

theorem Sound.repeatItem (h : s.Sound) (hname : Plain ruleName) (minTimes : ℕ)
    (maxTimes : Option ℕ) :
    (s.repeatItem ruleName minTimes maxTimes).Sound ∧
      Grown [] s.out (s.repeatItem ruleName minTimes maxTimes).out := by
  obtain ⟨out', nPrevRules, heq, hs, hg, hlen, _⟩ := h.repeatItem_spec hname minTimes maxTimes
  have hitem : Inner out'.symbolIds.length (repeatedItem (s.rule.drop s.lastSymStart)
      s.out.symbolIds.length minTimes maxTimes) := by
    refine ((h.item.mono hg.length_le).copies minTimes).append ?_
    split
    · exact .ref (by omega)
    · exact .nil
  have hstart : (s.rule.take s.lastSymStart).length = s.lastSymStart :=
    List.length_take_of_le h.start_le
  have halt : ∀ e ∈ repeatedItem (s.rule.drop s.lastSymStart) s.out.symbolIds.length minTimes
      maxTimes, e.gtype ≠ .alt := by
    intro e he
    rcases List.mem_append.mp he with he | he
    · obtain ⟨item, hitem, he⟩ := List.mem_flatten.mp he
      rw [List.eq_of_mem_replicate hitem] at he
      exact h.noAlt e he
    · split at he
      · obtain rfl := List.mem_singleton.mp he
        exact nofun
      · exact nomatch he
  rw [heq]
  refine ⟨?_, hg⟩
  have hpushed := Sound.item_pushed hs (h.before.mono hg.length_le) hitem halt nPrevRules
  rwa [hstart] at hpushed

theorem Sound.nextAlternate (h : s.Sound) : s.nextAlternate.Sound :=
  .fresh h.out (h.inner.append .alt)

end SequenceState

namespace Body

/-- Compiling keeps the state sound, and interns the names of the body. -/
theorem compile_sound {b : Body} {s t : SequenceState} {ruleName : SymbolName}
    (hname : Plain ruleName) (hb : ∀ name ∈ b.names, Plain name) (hs : s.Sound)
    (h : b.compile ruleName s = some t) : t.Sound ∧ Grown b.names s.out t.out := by
  induction b generalizing s t with
  | done =>
    cases h
    exact ⟨hs, .refl⟩
  | atom a rest ih =>
    obtain ⟨ht, hg⟩ := ih hb (hs.pushItem a) h
    exact ⟨ht, hg⟩
  | ref name rest ih =>
    obtain ⟨hs', hg⟩ := hs.pushRef (hb name (by simp [names]))
    obtain ⟨ht, hg'⟩ := ih (fun n hn => hb n (by simp [names, hn])) hs' h
    exact ⟨ht, hg.trans hs'.out ht.out hg'⟩
  | group inner rest ihInner ih =>
    obtain ⟨name, hsynth, hnew, hgen⟩ := hs.out.toInterned.generateSymbolId hname
    simp only [compile, hgen] at h
    obtain ⟨u, hu, h⟩ := Option.bind_eq_some_iff.mp h
    have happ := hs.out.appended hnew (.inr hsynth)
    obtain ⟨hus, hug⟩ := ihInner (fun n hn => hb n (by simp [names, hn])) (.fresh happ .nil) hu
    obtain ⟨hs', hg⟩ := hs.pushGroup hus hsynth hug
    obtain ⟨ht, hg'⟩ := ih (fun n hn => hb n (by simp [names, hn])) hs' h
    exact ⟨ht, hg.trans hs'.out ht.out hg'⟩
  | repeated minTimes maxTimes rest ih =>
    rw [compile] at h
    split at h
    · obtain ⟨hs', hg⟩ := hs.repeatItem hname minTimes maxTimes
      obtain ⟨ht, hg'⟩ := ih hb hs' h
      exact ⟨ht, hg.trans hs'.out ht.out hg'⟩
    · cases h
  | alt rest ih =>
    obtain ⟨ht, hg⟩ := ih hb hs.nextAlternate h
    exact ⟨ht, hg⟩

end Body

end Frink.Gbnf
