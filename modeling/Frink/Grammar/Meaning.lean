import Frink.Grammar.Factoring
import Frink.Grammar.Recognizer
import Frink.Grammar.Spelling

/-! # What grammar text means

A body has a language once the names it refers to have theirs, and the lines of a text are
equations between the languages of their names. Compiling preserves this meaning: the rule of a
name derives its part of the least solution.
-/

namespace Frink.Gbnf

open Equations ParsedGrammar Exec

/-- The characters a class lists. -/
def listed (members : List (ℕ × Option ℕ)) : Set ℕ :=
  {c | ∃ member ∈ members, member.1 ≤ c ∧ c ≤ member.2.getD member.1}

/-- A class without members is no element at all, and no character is read as a token. -/
def Atom.language : Atom → Language ℕ
  | literal values => {values}
  | charClass _ [] => 1
  | charClass negated members => oneOf (if negated then (listed members)ᶜ else listed members)
  | token _ _ => 0
  | any => oneOf Set.univ

/-- What a repetition adds to the copies that have to be there. -/
def optional (L : Language ℕ) (minTimes : ℕ) : Option ℕ → Language ℕ
  | none => KStar.kstar L
  | some max => ∑ k ∈ Finset.range (max - minTimes + 1), L ^ k

/-- The names of a text have the languages of `env`; `earlier` are the alternates before the one
that is read, `before` and `item` the last item of it and all before. -/
def Body.denote (env : SymbolName → Language ℕ) (earlier before item : Language ℕ) :
    Body → Language ℕ
  | done => earlier + before * item
  | atom a rest => rest.denote env earlier (before * item) a.language
  | ref name rest => rest.denote env earlier (before * item) (env name)
  | group inner rest => rest.denote env earlier (before * item) (inner.denote env 0 1 1)
  | repeated minTimes maxTimes rest =>
      rest.denote env earlier before (item ^ minTimes * optional item minTimes maxTimes)
  | alt rest => rest.denote env (earlier + before * item) 1 1

def Body.language (env : SymbolName → Language ℕ) (b : Body) : Language ℕ := b.denote env 0 1 1

namespace Lines

/-- The body of a name: of several lines for it the last. -/
def body : Lines → SymbolName → Option Body
  | [], _ => none
  | line :: lines, name => (body lines name).or (if line.1 = name then some line.2 else none)

end Lines

section Monotone

variable {env env' : SymbolName → Language ℕ} {A A' B B' L L' : Language ℕ}

theorem optional_mono (hL : L ≤ L') (minTimes : ℕ) (maxTimes : Option ℕ) :
    optional L minTimes maxTimes ≤ optional L' minTimes maxTimes := by
  cases maxTimes with
  | none => exact kstar_mono hL
  | some max => exact Finset.sum_le_sum fun k _ => pow_le_pow_left' hL k

theorem Body.denote_mono (henv : env ≤ env') (b : Body) (hA : A ≤ A') (hB : B ≤ B')
    (hL : L ≤ L') : b.denote env A B L ≤ b.denote env' A' B' L' := by
  induction b generalizing A A' B B' L L' with
  | done => exact add_le_add hA (mul_le_mul' hB hL)
  | atom a rest ih => exact ih hA (mul_le_mul' hB hL) le_rfl
  | ref name rest ih => exact ih hA (mul_le_mul' hB hL) (henv name)
  | group inner rest ihInner ih =>
    exact ih hA (mul_le_mul' hB hL) (ihInner le_rfl le_rfl le_rfl)
  | repeated minTimes maxTimes rest ih =>
    exact ih hA hB (mul_le_mul' (pow_le_pow_left' hL _) (optional_mono hL _ _))
  | alt rest ih => exact ih (add_le_add hA (mul_le_mul' hB hL)) le_rfl le_rfl

end Monotone

/-- Each name has the language of its body; a name without one has the empty word alone. -/
def Lines.equations (lines : Lines) :
    (SymbolName → Language ℕ) →o (SymbolName → Language ℕ) where
  toFun env name := ((lines.body name).map (Body.language env)).getD 1
  monotone' := by
    intro env env' henv name
    change ((lines.body name).map (Body.language env)).getD 1 ≤
      ((lines.body name).map (Body.language env')).getD 1
    cases lines.body name with
    | none => exact le_rfl
    | some b => exact b.denote_mono henv le_rfl le_rfl le_rfl

section Atoms

variable {rules : List GrammarRule} {pos : RulePos} {members : List (ℕ × Option ℕ)}
  {gtype : GreType} {V : ℕ → Language ℕ} {value : ℕ} {upper : Option ℕ}

theorem listed_cons (member : ℕ × Option ℕ) :
    listed (member :: members) =
      Set.Icc member.1 (member.2.getD member.1) ∪ listed members := by
  ext c
  simp [listed]

theorem classGroup_elements (hg : gtype ≠ .charAny) (hne : members ≠ [])
    (h : ∀ k, elem rules (pos.advance k) =
      (classElements gtype members)[k]?.getD ⟨.ruleEnd, 0⟩) :
    ClassGroup rules pos (listed members) (pos.advance (classElements gtype members).length) := by
  induction members generalizing gtype pos with
  | nil => exact (hne rfl).elim
  | cons member members ih =>
    obtain ⟨value, upper⟩ := member
    have hhead : elem rules pos = ⟨gtype, value⟩ := h 0
    obtain ⟨n, hn, hitem⟩ : ∃ n, classElements gtype ((value, upper) :: members) =
        (classElements gtype ((value, upper) :: members)).take n ++ classElements .charAlt members ∧
        ClassItem rules pos (Set.Icc value (upper.getD value)) (pos.advance n) ∧
        ((classElements gtype ((value, upper) :: members)).take n).length = n := by
      cases upper with
      | none =>
        refine ⟨1, rfl, ?_, rfl⟩
        have hnext : (elem rules pos.next).gtype ≠ .charRngUpper := by
          have hone := h 1
          rw [show pos.next = pos.advance 1 from rfl, hone]
          cases members with
          | nil => exact GreType.noConfusion
          | cons member members => exact GreType.noConfusion
        have hsingle := ClassItem.single hnext (by rw [hhead]; exact hg)
        rw [hhead] at hsingle
        rwa [Option.getD_none, Set.Icc_self]
      | some hi =>
        refine ⟨2, rfl, ?_, rfl⟩
        have hnext : elem rules pos.next = ⟨.charRngUpper, hi⟩ := h 1
        have hrange : ClassItem rules pos _ (pos.advance 2) := .range (by rw [hnext])
        rwa [hhead, hnext] at hrange
    obtain ⟨hitem, hlen⟩ := hitem
    have hlater : ∀ k, elem rules ((pos.advance n).advance k) =
        (classElements .charAlt members)[k]?.getD ⟨.ruleEnd, 0⟩ := by
      intro k
      rw [advance_advance, h, hn, List.getElem?_append_right (by omega), hlen,
        Nat.add_sub_cancel_left]
    have htotal : (classElements gtype ((value, upper) :: members)).length =
        n + (classElements .charAlt members).length := by
      rw [hn, List.length_append, hlen]
    rw [listed_cons, htotal]
    have hmid : elem rules (pos.advance n) =
        (classElements .charAlt members)[0]?.getD ⟨.ruleEnd, 0⟩ := hlater 0
    cases members with
    | nil =>
      have hempty : listed [] = ∅ := by simp [listed]
      rw [hempty, Set.union_empty]
      change ClassGroup rules pos _ (pos.advance n)
      exact .last hitem (by rw [hmid]; exact GreType.noConfusion)
    | cons member members =>
      have hrest := ih GreType.noConfusion (List.cons_ne_nil _ _) hlater
      rw [advance_advance] at hrest
      exact .more hitem (by rw [hmid]; rfl) hrest

theorem seq_literal (values : List ℕ) :
    seq V (values.map (GrammarElement.mk .char)) = ({values} : Language ℕ) := by
  induction values with
  | nil => exact seq_nil
  | cons v values ih =>
    have hnext : ∀ t : GreType, t.continues = true →
        (elem [(v :: values).map (GrammarElement.mk .char)] ⟨0, 1⟩).gtype ≠ t := by
      intro t ht
      cases values with
      | nil => rintro rfl; cases ht
      | cons v' values => rintro rfl; cases ht
    have hclass : CharClass [(v :: values).map (GrammarElement.mk .char)] ⟨0, 0⟩ {v} ⟨0, 1⟩ :=
      .inl ⟨rfl, .last (.single (hnext _ rfl) GreType.noConfusion) (hnext _ rfl)⟩
    rw [seq_class hclass]
    ext w
    rw [mem_oneOf_mul]
    simp only [List.map_cons, List.drop_one, List.tail_cons, ih]
    constructor
    · rintro ⟨_, rfl, _, rfl, rfl⟩
      rfl
    · rintro rfl
      exact ⟨v, rfl, values, rfl, rfl⟩

theorem seq_classElements (negated : Bool) (hne : members ≠ []) :
    seq V (classElements (if negated then .charNot else .char) members) =
      oneOf (if negated then (listed members)ᶜ else listed members) := by
  have hgroup : ClassGroup [classElements (if negated then .charNot else .char) members] ⟨0, 0⟩
      (listed members) ((⟨0, 0⟩ : RulePos).advance
        (classElements (if negated then .charNot else .char) members).length) := by
    apply classGroup_elements _ hne
    · intro k
      simp [RulePos.advance, elem_single]
    · cases negated <;> exact GreType.noConfusion
  obtain ⟨⟨value, upper⟩, members, rfl⟩ := List.exists_cons_of_ne_nil hne
  have hclass : CharClass [classElements (if negated then .charNot else .char)
      ((value, upper) :: members)] ⟨0, 0⟩
      (if negated then (listed ((value, upper) :: members))ᶜ
        else listed ((value, upper) :: members))
      ((⟨0, 0⟩ : RulePos).advance (classElements (if negated then .charNot else .char)
        ((value, upper) :: members)).length) := by
    cases negated with
    | false => exact .inl ⟨rfl, hgroup⟩
    | true => exact .inr ⟨rfl, _, hgroup, rfl⟩
  rw [RulePos.advance, Nat.zero_add] at hclass
  rw [seq_class hclass, List.drop_length, seq_nil, mul_one]

/-- The elements of an atom spell its language. -/
theorem Atom.seq_elements (a : Atom) : seq V a.elements = a.language := by
  cases a with
  | literal values => exact seq_literal values
  | charClass negated members =>
    cases members with
    | nil => exact seq_nil
    | cons member members => exact seq_classElements negated (List.cons_ne_nil _ _)
  | token inverted tokenId =>
    cases inverted <;> exact seq_stuck rfl rfl GreType.noConfusion
  | any =>
    have hclass : CharClass [[⟨.charAny, 0⟩]] ⟨0, 0⟩ Set.univ ⟨0, 1⟩ :=
      .inl ⟨rfl, .last (.any GreType.noConfusion rfl) GreType.noConfusion⟩
    have hseq := seq_class (V := V) hclass
    rw [List.drop_one, List.tail_cons, seq_nil, mul_one] at hseq
    exact hseq

end Atoms

section States

variable {env : SymbolName → Language ℕ} {V : ℕ → Language ℕ} {bound : ℕ} {es fs : GrammarRule}
  {A B L : Language ℕ} {s t : SequenceState} {elements : GrammarRule} {n : ℕ}
  {out u g : ParsedGrammar}

theorem Inner.fresh (h : Inner bound es) : Fresh es := by
  cases es with
  | nil => rfl
  | cons e es =>
    have hstart := h.starts .alt
    simp only [wellFormedFrom, Bool.and_eq_true] at hstart
    obtain ⟨t, value⟩ := e
    cases t <;> first | rfl | cases hstart.1

theorem Inner.unbroken (h : Inner bound es) (halt : ∀ e ∈ es, e.gtype ≠ .alt) : Unbroken es := by
  intro e he
  by_contra hend
  rcases (GrammarElement.isEndOfSequence_iff e).mp (eq_true_of_ne_false hend) with hend | hend
  · exact h.noEnd e he hend
  · exact halt e he hend

theorem seq_copies (h : Inner bound es) (halt : ∀ e ∈ es, e.gtype ≠ .alt) (n : ℕ) :
    seq V (List.replicate n es).flatten = seq V es ^ n := by
  induction n with
  | zero => exact seq_nil
  | succ n ih =>
    rw [List.replicate_succ, List.flatten_cons, seq_append (h.unbroken halt) (h.copies n).fresh, ih,
      pow_succ']

/-- The elements of whole alternates, the bar after the last included. -/
def Closed (V : ℕ → Language ℕ) (pre : GrammarRule) (A : Language ℕ) : Prop :=
  pre = [] ∧ A = 0 ∨ ∃ es, pre = es ++ [⟨.alt, 0⟩] ∧ A = alts V es

theorem Closed.alts {pre : GrammarRule} (h : Closed V pre A) (hend : ∀ e ∈ pre, e.gtype ≠ .ruleEnd)
    (es : GrammarRule) : alts V (pre ++ es) = A + alts V es := by
  rcases h with ⟨rfl, rfl⟩ | ⟨fs, rfl, rfl⟩
  · rw [List.nil_append, zero_add]
  · rw [List.append_assoc]
    exact alts_append_alt fun e he => hend e (by simp [he])

/-- What the rule being built means so far. -/
structure Reads (V : ℕ → Language ℕ) (s : SequenceState) (A B L : Language ℕ) : Prop where

  before : ∃ pre mid, s.rule.take s.lastSymStart = pre ++ mid ∧ Closed V pre A ∧ Unbroken mid ∧
    seq V mid = B

  item : seq V (s.rule.drop s.lastSymStart) = L

theorem SequenceState.Sound.unbroken (hs : s.Sound) : Unbroken (s.rule.drop s.lastSymStart) :=
  hs.item.unbroken hs.noAlt

/-- The whole rule, its last alternate as one run of elements. -/
theorem Reads.whole (h : Reads V s A B L) (hs : s.Sound) :
    ∃ pre mid, s.rule = pre ++ mid ∧ Closed V pre A ∧ Unbroken mid ∧ seq V mid = B * L := by
  obtain ⟨⟨pre, mid, htake, hclosed, hmid, hB⟩, hitem⟩ := h
  refine ⟨pre, mid ++ s.rule.drop s.lastSymStart, ?_, hclosed, hmid.append hs.unbroken, ?_⟩
  · rw [← List.append_assoc, ← htake, List.take_append_drop]
  · rw [seq_append hmid hs.item.fresh, hB, hitem]

theorem Reads.alts (h : Reads V s A B L) (hs : s.Sound) : alts V s.rule = A + B * L := by
  obtain ⟨pre, mid, hrule, hclosed, hmid, hseq⟩ := h.whole hs
  have hend : ∀ e ∈ pre, e.gtype ≠ .ruleEnd :=
    fun e he => hs.inner.noEnd e (by rw [hrule]; exact List.mem_append_left _ he)
  rw [hrule, hclosed.alts hend, alts_of_unbroken hmid, hseq]

theorem Reads.fresh {rule : GrammarRule} (h : Closed V rule A) :
    Reads V (.fresh rule out) A 1 1 where
  before := ⟨rule, [], by simp [SequenceState.fresh], h, List.forall_mem_nil _, seq_nil⟩
  item := by simp [SequenceState.fresh]

theorem Reads.pushed (h : Reads V s A B L) (hs : s.Sound) (elements : GrammarRule) (n : ℕ)
    (out : ParsedGrammar) :
    Reads V ⟨s.rule ++ elements, s.rule.length, n, out⟩ A (B * L) (seq V elements) where
  before := by
    obtain ⟨pre, mid, hrule, hrest⟩ := h.whole hs
    exact ⟨pre, mid, by simpa using hrule, hrest⟩
  item := by simp

theorem Reads.replaced (h : Reads V s A B L) (hs : s.Sound) :
    Reads V ⟨s.rule.take s.lastSymStart ++ elements, s.lastSymStart, n, out⟩ A B
      (seq V elements) where
  before := by
    have hlen : (s.rule.take s.lastSymStart).length = s.lastSymStart :=
      List.length_take_of_le hs.start_le
    obtain ⟨pre, mid, htake, hrest⟩ := h.before
    exact ⟨pre, mid, by rw [List.take_left' hlen, htake], hrest⟩
  item := by
    have hlen : (s.rule.take s.lastSymStart).length = s.lastSymStart :=
      List.length_take_of_le hs.start_le
    rw [List.drop_left' hlen]

theorem Reads.nextAlternate (h : Reads V s A B L) (hs : s.Sound) :
    Reads V s.nextAlternate (A + B * L) 1 1 :=
  .fresh (.inr ⟨s.rule, rfl, (h.alts hs).symm⟩)

/-- The symbols have the languages they should have: those of the names are given, and those of
the synthesized rules are what they spell and nothing less. -/
structure Fits (env : SymbolName → Language ℕ) (g : ParsedGrammar) (V : ℕ → Language ℕ) : Prop where

  named : ∀ name id, (name, id) ∈ g.symbolIds → Plain name → V id = env name

  spelled : ∀ name id, (name, id) ∈ g.symbolIds → Synthesized name id →
    V id = Gbnf.alts V (ruleAt g.rules id)

  least : ∀ name id, (name, id) ∈ g.symbolIds → Synthesized name id → ∀ L ≤ V id,
    Gbnf.alts (Function.update V id L) (ruleAt g.rules id) ≤ L → V id = L

/-- What a synthesized rule of a repetition spells. -/
theorem alts_recRule (h : Inner bound es) (halt : ∀ e ∈ es, e.gtype ≠ .alt) (next : Option ℕ) :
    alts V (recRule es next) = seq V es * (next.map V).getD 1 + 1 := by
  have hnext : alts V (es ++ (next.map (GrammarElement.mk .ruleRef)).toList) =
      seq V es * (next.map V).getD 1 := by
    cases next with
    | none => simp [alts_of_unbroken (h.unbroken halt)]
    | some id =>
      have href : Unbroken [⟨.ruleRef, id⟩] := by simp [Unbroken, GrammarElement.isEndOfSequence]
      have hfresh : Fresh [⟨.ruleRef, id⟩] := rfl
      simp only [Option.map_some, Option.toList_some, Option.getD_some]
      rw [alts_of_unbroken ((h.unbroken halt).append href), seq_append (h.unbroken halt) hfresh,
        seq_ref, seq_nil, mul_one]
  have hend : alts V [⟨.ruleEnd, 0⟩] = 1 := by
    rw [alts, seq_end rfl]
    exact add_zero 1
  rw [recRule]
  refine (alts_append_alt ?_).trans (congrArg₂ (· + ·) hnext hend)
  intro e he
  rcases List.mem_append.mp he with he | he
  · exact h.noEnd e he
  · cases next with
    | none => cases he
    | some id =>
      rw [List.mem_singleton.mp he]
      exact GreType.noConfusion

/-- The rule that goes on with itself stands for any number of items. -/
theorem Fits.star {name : SymbolName} {id : ℕ} (hfit : Fits env g V)
    (hmem : (name, id) ∈ g.symbolIds) (hsynth : Synthesized name id) (h : Inner bound es)
    (halt : ∀ e ∈ es, e.gtype ≠ .alt) (hrule : ruleAt g.rules id = recRule es (some id)) :
    V id = KStar.kstar (seq V es) := by
  have heq : V id = seq V es * V id + 1 := by
    have hspelled := hfit.spelled name id hmem hsynth
    rw [hrule, alts_recRule h halt] at hspelled
    exact hspelled
  have hle : KStar.kstar (seq V es) ≤ V id := by
    apply kstar_le_of_mul_le_right
    · rw [heq]
      exact le_add_self
    · conv_rhs => rw [heq]
      exact le_self_add
  apply hfit.least name id hmem hsynth _ hle
  have hupdate : Function.update V id (KStar.kstar (seq V es)) ≤ V := by
    intro j
    by_cases hj : j = id
    · subst hj
      simpa using hle
    · simp [hj]
  rw [hrule, alts_recRule h halt]
  apply add_le _ one_le_kstar
  calc seq (Function.update V id (KStar.kstar (seq V es))) es *
          ((some id).map (Function.update V id (KStar.kstar (seq V es)))).getD 1
      ≤ seq V es * KStar.kstar (seq V es) := by
        simpa using mul_le_mul' (seq_mono hupdate es) le_rfl
    _ ≤ KStar.kstar (seq V es) := mul_kstar_le_kstar

/-- The rules of a bounded repetition stand for one item more each. -/
theorem chain_eq {M : Language ℕ} {W : ℕ → Language ℕ} {n : ℕ}
    (hzero : 0 < n → W 0 = M + 1) (hsucc : ∀ i, i + 1 < n → W (i + 1) = M * W i + 1)
    {i : ℕ} (hi : i < n) : W i = ∑ k ∈ Finset.range (i + 2), M ^ k := by
  induction i with
  | zero =>
    rw [hzero hi]
    simp [Finset.sum_range_succ, add_comm]
  | succ i ih =>
    rw [hsucc i hi, ih (by omega), Finset.sum_range_succ' _ (i + 2), Finset.mul_sum, pow_zero]
    simp only [pow_succ']

end States

end Frink.Gbnf
