import Frink.Library.Worklist
import Frink.Grammar.Classes
import Frink.Grammar.Runs

/-! # Termination of the machine

Without left recursion an expansion of a stack is always finite. The detector
leaves one case: cycles over a rule that is nullable only through other rules.
-/

namespace Frink.Gbnf

open Exec Worklist Relation

/-- Cursors from which the alternate can end without consuming anything. -/
inductive Empties (rules : List GrammarRule) : RulePos → Prop where

  | done {pos : RulePos} : (elem rules pos).isEndOfSequence = true → Empties rules pos

  | ref {pos sub : RulePos} : (elem rules pos).gtype = .ruleRef →
      sub ∈ alternates rules (elem rules pos).value → Empties rules sub →
      Empties rules pos.next → Empties rules pos

/-- A rule some alternate of which can be finished without consuming anything. -/
def Nullable (rules : List GrammarRule) (r : ℕ) : Prop :=
  ∃ pos ∈ alternates rules r, Empties rules pos

def NoLeftRecursion (rules : List GrammarRule) : Prop :=
  ∀ r, ¬ TransGen (LeftEdge rules (Nullable rules)) r r

/-- An edge that skips a rule which is nullable but has no alternate written empty. -/
def HiddenEdge (rules : List GrammarRule) (r t : ℕ) : Prop :=
  LeftEdge rules (Nullable rules) r t ∧ ¬ VisibleEdge rules r t

def NoHiddenCycle (rules : List GrammarRule) : Prop :=
  ¬ ∃ r t, HiddenEdge rules r t ∧ ReflTransGen (LeftEdge rules (Nullable rules)) t r

/-- The cursors an expansion at a reference can put on top of a stack. -/
inductive LeftStep (rules : List GrammarRule) : RulePos → RulePos → Prop where

  | enter {pos sub : RulePos} : (elem rules pos).gtype = .ruleRef →
      sub ∈ alternates rules (elem rules pos).value → LeftStep rules pos sub

  | skip {pos : RulePos} : (elem rules pos).gtype = .ruleRef →
      Nullable rules (elem rules pos).value → LeftStep rules pos pos.next

variable {rules : List GrammarRule} {nameOf : ℕ → Option String} {start : ℕ}
  {pos sub : RulePos} {stack rest : GrammarStack}

theorem LeftStep.ref (h : LeftStep rules pos sub) : (elem rules pos).gtype = .ruleRef := by
  cases h with
  | enter href _ => exact href
  | skip href _ => exact href

theorem leftmost_reach {r : ℕ} (h : ReflTransGen (LeftStep rules) pos sub)
    (hpos : Leftmost rules (Nullable rules) r pos) :
    ∃ t, ReflTransGen (LeftEdge rules (Nullable rules)) r t ∧
      Leftmost rules (Nullable rules) t sub := by
  induction h with
  | refl => exact ⟨r, .refl, hpos⟩
  | tail _ hstep ih =>
    obtain ⟨t, hrt, ht⟩ := ih
    cases hstep with
    | enter href hsub => exact ⟨_, hrt.tail ⟨_, ht, href, rfl⟩, .start hsub⟩
    | skip href hnull => exact ⟨t, hrt, .next ht href hnull⟩

/-- A path of leftmost steps only moves on within its rule, or enters a rule. -/
theorem leftStep_path (h : TransGen (LeftStep rules) pos sub) :
    (sub.rule = pos.rule ∧ pos.index < sub.index) ∨
      ∃ a q, ReflTransGen (LeftStep rules) pos a ∧ (elem rules a).gtype = .ruleRef ∧
        q ∈ alternates rules (elem rules a).value ∧ ReflTransGen (LeftStep rules) q sub := by
  induction h with
  | single hstep =>
    cases hstep with
    | enter href hsub => exact .inr ⟨_, _, .refl, href, hsub, .refl⟩
    | skip href hnull => exact .inl ⟨rfl, Nat.lt_succ_self _⟩
  | tail hpath hstep ih =>
    rcases ih with ⟨hrule, hindex⟩ | ⟨a, q, hpa, href, hq, hqb⟩
    · cases hstep with
      | enter href hsub => exact .inr ⟨_, _, hpath.to_reflTransGen, href, hsub, .refl⟩
      | skip href hnull => exact .inl ⟨hrule, Nat.lt_succ_of_lt hindex⟩
    · exact .inr ⟨a, q, hpa, href, hq, hqb.tail hstep⟩

theorem leftStep_acyclic (h : NoLeftRecursion rules) (pos : RulePos) :
    ¬ TransGen (LeftStep rules) pos pos := by
  intro hcycle
  rcases leftStep_path hcycle with ⟨_, hindex⟩ | ⟨a, q, hpa, href, hq, hqp⟩
  · exact lt_irrefl _ hindex
  · obtain ⟨t, hrt, ht⟩ := leftmost_reach (hqp.trans hpa) (.start hq)
    exact h _ (TransGen.tail' hrt ⟨a, ht, href, rfl⟩)

theorem finite_refs (rules : List GrammarRule) :
    {pos | (elem rules pos).gtype = .ruleRef}.Finite := by
  have hbox : (⋃ r ∈ Finset.range rules.length,
      (RulePos.mk r) '' (Set.Iio (ruleAt rules r).length)).Finite :=
    Set.Finite.biUnion (Finset.finite_toSet _) fun r _ => (Set.finite_Iio _).image _
  refine hbox.subset fun pos hpos => ?_
  have hne : (elem rules pos).gtype ≠ .ruleEnd := by rw [hpos]; decide
  obtain ⟨hr, hi⟩ := elem_of_lt_length hne
  simp only [Finset.mem_range, Set.mem_iUnion]
  exact ⟨pos.rule, hr, pos.index, hi, rfl⟩

theorem leftStep_acc (h : NoLeftRecursion rules) (pos : RulePos) :
    Acc (fun q p => LeftStep rules p q) pos :=
  Acyclic.acc_of_finite ((finite_refs rules).subset fun _ ⟨_, hstep⟩ => hstep.ref)
    (leftStep_acyclic h) pos

section Visit

theorem visitStack_ref (h : (elem rules pos).gtype = .ruleRef) :
    visitStack rules (pos :: rest) = .expand (expandRef rules pos rest) := by
  simp [visitStack, h]

theorem visitStack_terminal (h : (elem rules pos).gtype.isStackTerminal = true) :
    visitStack rules (pos :: rest) = .emit := by
  unfold visitStack
  dsimp only
  revert h
  generalize (elem rules pos).gtype = t
  cases t <;> simp [GreType.isStackTerminal]

/-- A stack is run out when it is finished or rests on an element that consumes input. -/
def AtRest (rules : List GrammarRule) : GrammarStack → Prop
  | [] => True
  | pos :: _ => (elem rules pos).gtype.isStackTerminal = true

theorem visitStack_emit_iff : visitStack rules stack = .emit ↔ AtRest rules stack := by
  cases stack with
  | nil => simp [visitStack, AtRest]
  | cons pos rest =>
    unfold visitStack AtRest
    dsimp only
    generalize (elem rules pos).gtype = t
    cases t <;> simp [GreType.isStackTerminal]

theorem visitStack_fail_iff {e : GrammarError} :
    visitStack rules (pos :: rest) = .fail e ↔ e = restError ∧
      (elem rules pos).gtype ≠ .ruleRef ∧ (elem rules pos).gtype.isStackTerminal = false := by
  unfold visitStack
  dsimp only
  generalize (elem rules pos).gtype = t
  cases t <;> simp [GreType.isStackTerminal, eq_comm]

theorem succ_cons_iff {t : GrammarStack} :
    Succ (visitStack rules) (pos :: rest) t ↔ (elem rules pos).gtype = .ruleRef ∧
      ∃ q ∈ alternates rules (elem rules pos).value,
        t = pushPos rules q (pushPos rules pos.next rest) := by
  by_cases href : (elem rules pos).gtype = .ruleRef
  · rw [succ_expand_iff (visitStack_ref href)]
    simp [expandRef, href, eq_comm]
  · constructor
    · rintro ⟨next, hv, _⟩
      unfold visitStack at hv
      dsimp only at hv
      revert hv href
      generalize (elem rules pos).gtype = t
      cases t <;> simp [GreType.isStackTerminal]
    · exact fun h => (href h.1).elim

end Visit

/-- The expansions of a cursor pushed on a stack end if those of the stack below do. -/
theorem acc_pushPos (h : NoLeftRecursion rules) (pos : RulePos) (rest : GrammarStack)
    (hrest : Empties rules pos → Acc (fun t s => Succ (visitStack rules) s t) rest) :
    Acc (fun t s => Succ (visitStack rules) s t) (pushPos rules pos rest) := by
  induction leftStep_acc h pos generalizing rest with
  | intro pos _ ih =>
    by_cases hend : (elem rules pos).isEndOfSequence = true
    · rw [pushPos_of_end hend]
      exact hrest (.done hend)
    · rw [pushPos_of_not_end (eq_false_of_ne_true hend)]
      refine Acc.intro _ fun t ht => ?_
      obtain ⟨href, q, hq, rfl⟩ := succ_cons_iff.mp ht
      exact ih q (.enter href hq) _ fun hqe =>
        ih pos.next (.skip href ⟨q, hq, hqe⟩) rest fun hpe => hrest (.ref href hq hqe hpe)

theorem acc_stack (h : NoLeftRecursion rules) (stack : GrammarStack) :
    Acc (fun t s => Succ (visitStack rules) s t) stack := by
  induction stack with
  | nil => exact Acc.intro _ fun t ht => (not_succ_of_emit rfl ht).elim
  | cons pos rest ih =>
    by_cases hend : (elem rules pos).isEndOfSequence = true
    · refine Acc.intro _ fun t ht => ?_
      have href := (succ_cons_iff.mp ht).1
      rw [GrammarElement.isEndOfSequence_iff, href] at hend
      exact hend.elim nofun nofun
    · rw [← pushPos_of_not_end (eq_false_of_ne_true hend)]
      exact acc_pushPos h pos rest fun _ => ih

theorem terminates_of_noLeftRecursion (h : NoLeftRecursion rules) : Terminates rules :=
  fun stack out => explore_halts (by simpa using acc_stack h stack) [] out

theorem returns_checkRules_iff {r : Except GrammarError Unit} :
    Returns (checkRules rules start nameOf) r ↔
      (∃ e, checkTable rules start nameOf = .error e ∧ r = .error e) ∨
      (checkTable rules start nameOf = .ok () ∧
        Returns (fun n => detectLeftRecursionAll rules nameOf n) r) := by
  have heq : checkRules rules start nameOf = fun fuel =>
      match checkTable rules start nameOf with
      | .error e => (some (.error e) : Option (Except GrammarError Unit))
      | .ok () => detectLeftRecursionAll rules nameOf fuel := by
    funext fuel
    unfold checkRules
    cases checkTable rules start nameOf <;> rfl
  rw [heq]
  cases checkTable rules start nameOf with
  | error e => simp [eq_comm]
  | ok u => simp

theorem checkRules_stable : Stable (checkRules rules start nameOf) := by
  unfold checkRules
  exact (stable_const _).bind fun _ => detectLeftRecursionAll_stable

theorem noLeftRecursion_iff (h : Returns (checkRules rules start nameOf) (.ok ())) :
    NoLeftRecursion rules ↔ NoHiddenCycle rules := by
  rcases returns_checkRules_iff.mp h with ⟨e, _, he⟩ | ⟨htable, hdetect⟩
  · exact nomatch he
  · exact Acyclic.acyclic_iff (visible_acyclic (refsResolve_of_checkTable htable) hdetect)

/-- A table without references is not left-recursive. -/
theorem noLeftRecursion_of_noRef (h : ∀ e ∈ rules.flatten, e.gtype ≠ .ruleRef) :
    NoLeftRecursion rules := by
  intro r hcycle
  obtain ⟨t, ⟨pos, _, href, _⟩, _⟩ := TransGen.head'_iff.mp hcycle
  have hne : (elem rules pos).gtype ≠ .ruleEnd := by rw [href]; decide
  exact h _ (elem_mem_flatten hne) href

theorem initialStacks_stable : Stable (initialStacks rules start) :=
  Stable.foldlM (fun _ _ => advanceStack_stable _ _ _) _ _

theorem fromRules_halts (h : Returns (checkRules rules start nameOf) (.ok ()))
    (ht : Terminates rules) : Halts (Grammar.fromRules rules start nameOf) := by
  have hrest : Stable fun n => (initialStacks rules start n >>= fun parseStacks =>
      pure ⟨rules, parseStacks, .empty, none⟩ : Exec GrammarError Grammar) :=
    initialStacks_stable.bind fun _ => stable_pure _
  refine h.halts.bind checkRules_stable (fun _ => hrest) fun _ _ => ?_
  exact (ht.initialStacks start).bind initialStacks_stable (fun _ => stable_pure _)
    fun _ _ => ⟨_, returns_pure_iff.mpr rfl⟩

/-- A table that passes the checks cannot loop if and only if no left-recursive cycle goes
through an edge hidden from the detector. -/
theorem checked_table_cannot_loop_iff (h : Returns (checkRules rules start nameOf) (.ok ())) :
    (NoLeftRecursion rules ∧
      (∀ stack out, Halts (advanceStack rules stack out) ∧
        {t | ReflTransGen (Succ (visitStack rules)) stack t}.Finite) ∧
      Halts (Grammar.fromRules rules start nameOf) ∧
      ∀ g : Grammar, g.rules = rules → ∀ token piece, Halts (g.acceptToken token piece)) ↔
    NoHiddenCycle rules := by
  constructor
  · rintro ⟨hrec, _⟩
    exact (noLeftRecursion_iff h).mp hrec
  · intro hcycle
    have hrec := (noLeftRecursion_iff h).mpr hcycle
    have hterm := terminates_of_noLeftRecursion hrec
    refine ⟨hrec, fun stack out => ⟨hterm stack out, finite_reach_of_acc (acc_stack hrec stack)⟩,
      fromRules_halts h hterm, fun g hg token piece => hterm.acceptToken hg token piece⟩

/-- `root ::= "a"`. -/
def letterTable : List GrammarRule := [[⟨.char, 97⟩, ⟨.ruleEnd, 0⟩]]

theorem letterTable_checked : Returns (checkRules letterTable 0 fun _ => none) (.ok ()) :=
  ⟨2, by decide⟩

theorem checked_table_cannot_loop_letter :
    NoLeftRecursion letterTable ∧ Halts (Grammar.fromRules letterTable 0 fun _ => none) := by
  have hcycle : NoHiddenCycle letterTable :=
    (noLeftRecursion_iff letterTable_checked).mp (noLeftRecursion_of_noRef (by decide))
  obtain ⟨hrec, _, hfrom, _⟩ := (checked_table_cannot_loop_iff letterTable_checked).mpr hcycle
  exact ⟨hrec, hfrom⟩

/-- A stack reached from clean cursors of a well-formed table is clean. -/
theorem Clean.Stack.reach (hw : WellFormed rules) (hs : Clean.Stack rules stack)
    {t : GrammarStack} (hr : ReflTransGen (Succ (visitStack rules)) stack t) :
    Clean.Stack rules t := by
  induction hr with
  | refl => exact hs
  | @tail s t _ hstep ih =>
    cases s with
    | nil => exact (not_succ_of_emit rfl hstep).elim
    | cons pos rest =>
      obtain ⟨href, q, hq, rfl⟩ := succ_cons_iff.mp hstep
      have hrest : Clean.Stack rules rest := fun p hp => ih p (by simp [hp])
      exact (hrest.push (hw.next (.inl href))).push (hw.alternate hq)

theorem Clean.Stack.not_fail (hs : Clean.Stack rules stack) (e : GrammarError) :
    visitStack rules stack ≠ .fail e := by
  cases stack with
  | nil => exact nofun
  | cons pos rest =>
    intro h
    obtain ⟨_, href, hterm⟩ := visitStack_fail_iff.mp h
    rcases hs pos (by simp) with hc | hc
    · exact href hc
    · rw [hterm] at hc
      exact nomatch hc

/-- Over a well-formed table a clean stack is never refused. -/
theorem advanceStack_not_error (hw : WellFormed rules) (hs : Clean.Stack rules stack)
    {out : List GrammarStack} {e : GrammarError} :
    ¬ Returns (advanceStack rules stack out) (.error e) := by
  intro h
  obtain ⟨x, hx, y, hr, hy⟩ := explore_error h
  rw [List.mem_singleton.mp hx] at hr
  exact (hs.reach hw hr).not_fail e hy

section Counterexample

/-- `root ::= "a" bad`, `bad ::= B bad "x" | "y"`, `B ::= C`, `C ::= | "c"`. -/
def hiddenTable : List GrammarRule :=
  [[⟨.char, 97⟩, ⟨.ruleRef, 1⟩, ⟨.ruleEnd, 0⟩],
    [⟨.ruleRef, 2⟩, ⟨.ruleRef, 1⟩, ⟨.char, 120⟩, ⟨.alt, 0⟩, ⟨.char, 121⟩, ⟨.ruleEnd, 0⟩],
    [⟨.ruleRef, 3⟩, ⟨.ruleEnd, 0⟩],
    [⟨.alt, 0⟩, ⟨.char, 99⟩, ⟨.ruleEnd, 0⟩]]

/-- The grammar the constructor builds from that table. -/
def hiddenGrammar : Grammar := ⟨hiddenTable, [[⟨0, 0⟩]], .empty, none⟩

/-- `n` pending `"x"` under the start of `bad`. -/
def hiddenStack (n : ℕ) : GrammarStack := ⟨1, 0⟩ :: List.replicate n ⟨1, 2⟩

theorem hiddenStack_step (n : ℕ) :
    ReflTransGen (Succ (visitStack hiddenTable)) (hiddenStack n) (hiddenStack (n + 1)) := by
  have h1 : Succ (visitStack hiddenTable) (hiddenStack n)
      (⟨2, 0⟩ :: ⟨1, 1⟩ :: List.replicate n ⟨1, 2⟩) :=
    succ_cons_iff.mpr ⟨by decide, ⟨2, 0⟩, by decide, rfl⟩
  have h2 : Succ (visitStack hiddenTable) (⟨2, 0⟩ :: ⟨1, 1⟩ :: List.replicate n ⟨1, 2⟩)
      (⟨1, 1⟩ :: List.replicate n ⟨1, 2⟩) :=
    succ_cons_iff.mpr ⟨by decide, ⟨3, 0⟩, by decide, rfl⟩
  have h3 : Succ (visitStack hiddenTable) (⟨1, 1⟩ :: List.replicate n ⟨1, 2⟩)
      (hiddenStack (n + 1)) :=
    succ_cons_iff.mpr ⟨by decide, ⟨1, 0⟩, by decide, rfl⟩
  exact .head h1 (.head h2 (.single h3))

theorem hiddenStack_reach (n : ℕ) :
    ReflTransGen (Succ (visitStack hiddenTable)) (hiddenStack 0) (hiddenStack n) := by
  induction n with
  | zero => exact .refl
  | succ n ih => exact ih.trans (hiddenStack_step n)

theorem hiddenStack_injective : Function.Injective hiddenStack := by
  intro m n h
  have := congrArg List.length h
  simpa [hiddenStack] using this

theorem hiddenTable_diverges {stack : GrammarStack} (hs : Clean.Stack hiddenTable stack)
    (hr : ReflTransGen (Succ (visitStack hiddenTable)) stack (hiddenStack 0))
    (out : List GrammarStack) : ¬ Halts (advanceStack hiddenTable stack out) := by
  rintro ⟨r, h⟩
  cases r with
  | error e => exact advanceStack_not_error (by decide) hs h
  | ok res =>
    exact Set.infinite_of_injective_forall_mem hiddenStack_injective
      (fun n => hr.trans (hiddenStack_reach n)) (finite_reach h)

theorem hiddenTable_leftRecursive : ¬ NoLeftRecursion hiddenTable := by
  have hsub : Empties hiddenTable ⟨3, 0⟩ := .done (by decide)
  have hnext : Empties hiddenTable ⟨2, 1⟩ := .done (by decide)
  have hnull : Nullable hiddenTable 2 :=
    ⟨⟨2, 0⟩, by decide, .ref (by decide) (by decide) hsub hnext⟩
  have hleft : Leftmost hiddenTable (Nullable hiddenTable) 1 ⟨1, 1⟩ :=
    .next (.start (by decide : (⟨1, 0⟩ : RulePos) ∈ alternates hiddenTable 1)) (by decide) hnull
  exact fun h => h 1 (.single ⟨_, hleft, by decide, by decide⟩)

theorem hiddenTable_accepted :
    Returns (Grammar.fromRules hiddenTable 0 fun _ => none) (.ok hiddenGrammar) :=
  ⟨6, by rfl⟩

theorem hiddenGrammar_acceptToken (token : ℕ) :
    ¬ Halts (hiddenGrammar.acceptToken token [97]) := by
  intro h
  have hnow : Halts (hiddenGrammar.acceptTokenNow token [97]) := h
  rw [funext (Grammar.acceptTokenNow_eq hiddenGrammar token [97])] at hnow
  have hone : Halts (Grammar.acceptOne hiddenTable token [97] [] [⟨0, 0⟩]) := hnow.of_map.of_bind
  have hchars : Halts (Grammar.replayChars hiddenTable [97] [[⟨0, 0⟩]]) := hone.of_bind
  have hchr : Halts (acceptChr hiddenTable [⟨0, 0⟩] 97 []) := hchars.of_bind.of_bind
  refine hiddenTable_diverges (fun pos hpos => ?_) (.single ?_) [] hchr
  · rw [List.mem_singleton.mp hpos]
    exact .inl (by decide)
  · exact succ_cons_iff.mpr ⟨by decide, ⟨1, 0⟩, by decide, rfl⟩

/-- An accepted table that reaches itself in leftmost position: its first token never ends. -/
theorem accepted_table_loops :
    Returns (Grammar.fromRules hiddenTable 0 fun _ => none) (.ok hiddenGrammar) ∧
      ¬ NoLeftRecursion hiddenTable ∧
      (∀ out, ¬ Halts (advanceStack hiddenTable (hiddenStack 0) out)) ∧
      ∀ token, ¬ Halts (hiddenGrammar.acceptToken token [97]) := by
  refine ⟨hiddenTable_accepted, hiddenTable_leftRecursive, hiddenTable_diverges ?_ .refl,
    hiddenGrammar_acceptToken⟩
  intro pos hpos
  rw [List.mem_singleton.mp hpos]
  exact .inl (by decide)

end Counterexample

end Frink.Gbnf
