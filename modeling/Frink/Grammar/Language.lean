import Frink.Grammar.Termination

/-! # The language of a grammar

A word is derived from a cursor by reading classes and replacing references by
an alternate. The stacks of the machine hold exactly the pending derivations.
-/

namespace Frink.Gbnf

open Exec Worklist Relation

/-- The words derived from a cursor up to the end of its alternate. -/
inductive Derives (rules : List GrammarRule) : RulePos → List ℕ → Prop where

  | done {pos : RulePos} : (elem rules pos).isEndOfSequence = true → Derives rules pos []

  | chr {pos after : RulePos} {A : Set ℕ} {c : ℕ} {w : List ℕ} : CharClass rules pos A after →
      c ∈ A → Derives rules after w → Derives rules pos (c :: w)

  | ref {pos sub : RulePos} {u v : List ℕ} : (elem rules pos).gtype = .ruleRef →
      sub ∈ alternates rules (elem rules pos).value → Derives rules sub u →
      Derives rules pos.next v → Derives rules pos (u ++ v)

/-- The words derived from a rule. -/
def DerivesRule (rules : List GrammarRule) (r : ℕ) (w : List ℕ) : Prop :=
  ∃ pos ∈ alternates rules r, Derives rules pos w

/-- The words derived from the cursors of a stack, innermost first. -/
inductive StackDerives (rules : List GrammarRule) : GrammarStack → List ℕ → Prop where

  | nil : StackDerives rules [] []

  | cons {pos : RulePos} {rest : GrammarStack} {u v : List ℕ} : Derives rules pos u →
      StackDerives rules rest v → StackDerives rules (pos :: rest) (u ++ v)

variable {rules : List GrammarRule} {pos after : RulePos} {rest stack t : GrammarStack}
  {A : Set ℕ} {c chr : ℕ} {w : List ℕ}

theorem CharClass.isClass (h : CharClass rules pos A after) :
    (elem rules pos).gtype.isClass = true := by
  rcases h with ⟨hp, _⟩ | ⟨hn, _⟩
  · exact (isClass_iff _).mpr (.inl hp)
  · exact (isClass_iff _).mpr (.inr hn)

theorem derives_end_iff (h : (elem rules pos).isEndOfSequence = true) :
    Derives rules pos w ↔ w = [] := by
  constructor
  · intro hd
    cases hd with
    | done _ => rfl
    | chr hc _ _ =>
      rw [isEndOfSequence_of_isClass hc.isClass] at h
      exact nomatch h
    | ref href _ _ _ =>
      rw [isEndOfSequence_of_ruleRef href] at h
      exact nomatch h
  · rintro rfl
    exact .done h

theorem stackDerives_cons_iff :
    StackDerives rules (pos :: rest) w ↔
      ∃ u v, w = u ++ v ∧ Derives rules pos u ∧ StackDerives rules rest v := by
  constructor
  · intro h
    cases h with
    | cons hu hv => exact ⟨_, _, rfl, hu, hv⟩
  · rintro ⟨u, v, rfl, hu, hv⟩
    exact .cons hu hv

@[simp] theorem stackDerives_nil_iff : StackDerives rules [] w ↔ w = [] := by
  constructor
  · intro h
    cases h
    rfl
  · rintro rfl
    exact .nil

theorem stackDerives_push_iff :
    StackDerives rules (pushPos rules pos rest) w ↔ StackDerives rules (pos :: rest) w := by
  by_cases h : (elem rules pos).isEndOfSequence = true
  · rw [pushPos_of_end h, stackDerives_cons_iff]
    simp [derives_end_iff h]
  · rw [pushPos_of_not_end (eq_false_of_ne_true h)]

/-- Replacing a reference keeps the words of a stack. -/
theorem stackDerives_of_succ (h : Succ (visitStack rules) stack t)
    (ht : StackDerives rules t w) : StackDerives rules stack w := by
  cases stack with
  | nil => exact (not_succ_of_emit rfl h).elim
  | cons pos rest =>
    obtain ⟨href, q, hq, rfl⟩ := succ_cons_iff.mp h
    rw [stackDerives_push_iff, stackDerives_cons_iff] at ht
    obtain ⟨u, v, rfl, hu, hv⟩ := ht
    rw [stackDerives_push_iff, stackDerives_cons_iff] at hv
    obtain ⟨v, v', rfl, hv, hv'⟩ := hv
    rw [← List.append_assoc]
    exact .cons (.ref href hq hu hv) hv'

theorem stackDerives_of_reach (h : ReflTransGen (Succ (visitStack rules)) stack t)
    (ht : StackDerives rules t w) : StackDerives rules stack w := by
  induction h using ReflTransGen.head_induction_on with
  | refl => exact ht
  | head hstep _ ih => exact stackDerives_of_succ hstep ih

/-- A derivation from a stack goes through a stack the machine runs it out to. -/
def Covered (rules : List GrammarRule) (stack : GrammarStack) (w : List ℕ) : Prop :=
  ∃ t, Front (visitStack rules) stack t ∧ StackDerives rules t w

theorem covered_push {u v : List ℕ} (hu : Derives rules pos u) (hv : StackDerives rules rest v)
    (h : Covered rules rest v) : Covered rules (pushPos rules pos rest) (u ++ v) := by
  induction hu generalizing rest v with
  | done hend => rwa [pushPos_of_end hend]
  | @chr pos after A c w hc hcA hw _ =>
    have hterm := (GreType.isStackTerminal_iff _).mpr (.inr hc.isClass)
    rw [pushPos_of_not_end (isEndOfSequence_of_isStackTerminal hterm)]
    exact ⟨pos :: rest, ⟨.refl, visitStack_terminal hterm⟩, .cons (.chr hc hcA hw) hv⟩
  | @ref pos sub u u' href hsub hu hu' ihu ihu' =>
    have hnext := ihu' hv h
    have hmid : StackDerives rules (pushPos rules pos.next rest) (u' ++ v) :=
      stackDerives_push_iff.mpr (.cons hu' hv)
    obtain ⟨t, ⟨hreach, hemit⟩, ht⟩ := ihu hmid hnext
    rw [pushPos_of_not_end (isEndOfSequence_of_ruleRef href), List.append_assoc]
    exact ⟨t, ⟨.head (succ_cons_iff.mpr ⟨href, sub, hsub, rfl⟩) hreach, hemit⟩, ht⟩

theorem covered_of_derives (h : StackDerives rules stack w) (hs : ∀ pos ∈ stack,
    (elem rules pos).isEndOfSequence = false) : Covered rules stack w := by
  induction h with
  | nil => exact ⟨[], ⟨.refl, rfl⟩, .nil⟩
  | cons hu hv ih =>
    have := covered_push hu hv (ih fun p hp => hs p (by simp [hp]))
    rwa [pushPos_of_not_end (hs _ (by simp))] at this

/-- The run-out stacks of a stack derive together what the stack derives. -/
theorem covered_iff (hs : ∀ pos ∈ stack, (elem rules pos).isEndOfSequence = false)
    (w : List ℕ) :
    Covered rules stack w ↔ StackDerives rules stack w := by
  constructor
  · rintro ⟨t, ⟨hr, _⟩, ht⟩
    exact stackDerives_of_reach hr ht
  · exact fun h => covered_of_derives h hs

theorem stackDerives_class_iff (hc : CharClass rules pos A after) :
    StackDerives rules (pos :: rest) (c :: w) ↔
      c ∈ A ∧ StackDerives rules (pushPos rules after rest) w := by
  have hclass := hc.isClass
  rw [stackDerives_push_iff]
  constructor
  · intro h
    obtain ⟨u, v, huv, hu, hv⟩ := stackDerives_cons_iff.mp h
    cases hu with
    | done hend =>
      rw [isEndOfSequence_of_isClass hclass] at hend
      exact nomatch hend
    | chr hc' hcA hw =>
      obtain ⟨rfl, rfl⟩ := hc.unique hc'
      simp only [List.cons_append, List.cons.injEq] at huv
      obtain ⟨rfl, rfl⟩ := huv
      exact ⟨hcA, .cons hw hv⟩
    | ref href _ _ _ => rw [href] at hclass; exact nomatch hclass
  · rintro ⟨hcA, h⟩
    obtain ⟨u, v, rfl, hu, hv⟩ := stackDerives_cons_iff.mp h
    exact .cons (.chr hc hcA hu) hv

theorem not_stackDerives_token (h : (elem rules pos).gtype.isToken = true) :
    ¬ StackDerives rules (pos :: rest) w := by
  intro hd
  obtain ⟨u, v, _, hu, _⟩ := stackDerives_cons_iff.mp hd
  cases hu with
  | done hend =>
    rw [isEndOfSequence_of_isToken h] at hend
    exact nomatch hend
  | chr hc _ _ =>
    rw [GreType.isToken_of_isClass hc.isClass] at h
    exact nomatch h
  | ref href _ _ _ => rw [href] at h; exact nomatch h

theorem atRest_cons (h : AtRest rules (pos :: rest)) :
    (elem rules pos).gtype.isToken = true ∨ (elem rules pos).gtype.isClass = true :=
  (GreType.isStackTerminal_iff _).mp h

/-- A stack at rest derives the empty word only when it is finished. -/
theorem stackDerives_nil_word_iff (h : AtRest rules stack) :
    StackDerives rules stack [] ↔ stack = [] := by
  cases stack with
  | nil => simp
  | cons pos rest =>
    constructor
    · intro hd
      rcases atRest_cons h with htok | hclass
      · exact (not_stackDerives_token htok hd).elim
      · obtain ⟨u, v, huv, hu, _⟩ := stackDerives_cons_iff.mp hd
        obtain ⟨rfl, rfl⟩ := List.append_eq_nil_iff.mp huv.symm
        generalize hnil : ([] : List ℕ) = w at hu
        cases hu with
        | done hend =>
          rw [isEndOfSequence_of_isClass hclass] at hend
          exact nomatch hend
        | chr _ _ _ => exact nomatch hnil
        | ref href _ _ _ => rw [href] at hclass; exact nomatch hclass
    · exact fun hn => nomatch hn

end Frink.Gbnf

/-! ## What one step of the machine does

Each operation is described once: which stacks it leaves, that it leaves no
duplicates, and that clean stacks of a well-formed table are never refused.
-/

namespace Frink.Gbnf

open Exec Worklist Relation

variable {rules : List GrammarRule} {stack t : GrammarStack} {out res current : List GrammarStack}
  {chr : ℕ}

theorem mem_advanceStack_iff (h : Returns (advanceStack rules stack out) (.ok res)) :
    t ∈ res ↔ t ∈ out ∨ Front (visitStack rules) stack t :=
  mem_explore_iff h

theorem advanceStack_nodup (h : Returns (advanceStack rules stack out) (.ok res))
    (hout : out.Nodup) : res.Nodup :=
  explore_nodup h hout

/-- A stack takes a code point: its class admits it, and the stack is run out past the class. -/
def ChrStep (rules : List GrammarRule) (chr : ℕ) (stack t : GrammarStack) : Prop :=
  ∃ pos rest A after, stack = pos :: rest ∧ CharClass rules pos A after ∧ chr ∈ A ∧
    Front (visitStack rules) (pushPos rules after rest) t

theorem not_chrStep_nil : ¬ ChrStep rules chr [] t := by
  rintro ⟨_, _, _, _, h, _⟩
  exact nomatch h

theorem not_chrStep_token {pos : RulePos} {rest : GrammarStack}
    (h : (elem rules pos).gtype.isToken = true) : ¬ ChrStep rules chr (pos :: rest) t := by
  rintro ⟨_, _, _, _, heq, hc, _⟩
  cases heq
  rw [GreType.isToken_of_isClass hc.isClass] at h
  exact nomatch h

theorem chrStep_class_iff {pos after : RulePos} {rest : GrammarStack} {A : Set ℕ}
    (hc : CharClass rules pos A after) :
    ChrStep rules chr (pos :: rest) t ↔
      chr ∈ A ∧ Front (visitStack rules) (pushPos rules after rest) t := by
  constructor
  · rintro ⟨_, _, _, _, heq, hc', hmem, hf⟩
    cases heq
    obtain ⟨rfl, rfl⟩ := hc.unique hc'
    exact ⟨hmem, hf⟩
  · rintro ⟨hmem, hf⟩
    exact ⟨pos, rest, A, after, rfl, hc, hmem, hf⟩

theorem acceptChr_ok (h : Returns (acceptChr rules stack chr out) (.ok res)) :
    (∀ t, t ∈ res ↔ t ∈ out ∨ ChrStep rules chr stack t) ∧ (out.Nodup → res.Nodup) := by
  cases stack with
  | nil =>
    have hres : res = out := by simpa using returns_pure_iff.mp h
    subst hres
    exact ⟨fun t => by simp [not_chrStep_nil], fun h => h⟩
  | cons pos rest =>
    unfold acceptChr at h
    dsimp only at h
    split at h
    · rename_i htok
      have hres : res = out := by simpa using returns_pure_iff.mp h
      subst hres
      exact ⟨fun t => by simp [not_chrStep_token htok], fun h => h⟩
    · split at h
      · exact nomatch returns_fail_iff.mp h
      · rename_i matched after hm
        obtain ⟨A, hc, hmem⟩ := matchChar_ok_iff.mp hm
        split at h
        · rename_i hmatched
          refine ⟨fun t => ?_, advanceStack_nodup h⟩
          rw [mem_advanceStack_iff h, chrStep_class_iff hc, and_iff_right (hmem.mp hmatched)]
        · rename_i hmatched
          have hres : res = out := by simpa using returns_pure_iff.mp h
          subst hres
          exact ⟨fun t => by simp [chrStep_class_iff hc, mt hmem.mpr hmatched], fun h => h⟩

/-- One code point over a list of stacks leaves what its stacks step to. -/
theorem mem_acceptAll_iff (h : Returns (acceptAll rules chr current) (.ok res)) :
    t ∈ res ↔ ∃ s ∈ current, ChrStep rules chr s t := by
  have hcollect := foldlM_collect (fun next cur => acceptChr_stable rules cur chr next)
    (fun s _ out res hs => (acceptChr_ok hs).1) h t
  simpa using hcollect

theorem acceptAll_nodup (h : Returns (acceptAll rules chr current) (.ok res)) : res.Nodup :=
  foldlM_nodup (fun next cur => acceptChr_stable rules cur chr next)
    (fun _ _ _ hs => (acceptChr_ok hs).2) h List.nodup_nil

/-- No cursor of the stack stands at the end of its alternate. -/
def Pending (rules : List GrammarRule) (stack : GrammarStack) : Prop :=
  ∀ pos ∈ stack, (elem rules pos).isEndOfSequence = false

theorem Pending.push (h : Pending rules stack) (pos : RulePos) :
    Pending rules (pushPos rules pos stack) := by
  unfold pushPos
  split
  · exact h
  · rename_i hend
    intro q hq
    rcases List.mem_cons.mp hq with rfl | hq
    · exact eq_false_of_ne_true hend
    · exact h q hq

theorem Pending.reach (h : Pending rules stack)
    (hr : ReflTransGen (Succ (visitStack rules)) stack t) : Pending rules t := by
  induction hr with
  | refl => exact h
  | @tail s t _ hstep ih =>
    cases s with
    | nil => exact (not_succ_of_emit rfl hstep).elim
    | cons pos rest =>
      obtain ⟨_, q, _, rfl⟩ := succ_cons_iff.mp hstep
      have hrest : Pending rules rest := fun p hp => ih p (by simp [hp])
      exact (hrest.push _).push _

theorem ChrStep.pending (hs : Pending rules stack) (h : ChrStep rules chr stack t) :
    Pending rules t := by
  obtain ⟨pos, rest, A, after, rfl, _, _, hf⟩ := h
  have hrest : Pending rules rest := fun p hp => hs p (by simp [hp])
  exact (hrest.push _).reach hf.1

theorem ChrStep.atRest (h : ChrStep rules chr stack t) : AtRest rules t := by
  obtain ⟨_, _, _, _, _, _, _, hf⟩ := h
  exact visitStack_emit_iff.mp hf.2

theorem ChrStep.clean (hw : WellFormed rules) (hs : Clean.Stack rules stack)
    (h : ChrStep rules chr stack t) : Clean.Stack rules t := by
  obtain ⟨pos, rest, A, after, rfl, hc, _, hf⟩ := h
  have hrest : Clean.Stack rules rest := fun p hp => hs p (by simp [hp])
  exact (hrest.push (hw.class_end hc)).reach hw hf.1

section Refusals

variable (hw : WellFormed rules)
include hw

theorem acceptChr_not_error (hs : Clean.Stack rules stack) (hrest : AtRest rules stack)
    {e : GrammarError} : ¬ Returns (acceptChr rules stack chr out) (.error e) := by
  intro h
  cases stack with
  | nil => exact nomatch returns_pure_iff.mp h
  | cons pos rest =>
    unfold acceptChr at h
    dsimp only at h
    split at h
    · exact nomatch returns_pure_iff.mp h
    · rename_i htok
      obtain ⟨A, b, after, hA, hm, _⟩ :=
        matchChar_of_isClass ((atRest_cons hrest).resolve_left htok) chr
      rw [hm] at h
      dsimp only at h
      split at h
      · have hbelow : Clean.Stack rules rest := fun p hp => hs p (by simp [hp])
        exact advanceStack_not_error hw (hbelow.push (hw.class_end hA)) h
      · exact nomatch returns_pure_iff.mp h

theorem acceptAll_not_error (hs : ∀ s ∈ current, Clean.Stack rules s ∧ AtRest rules s)
    {e : GrammarError} : ¬ Returns (acceptAll rules chr current) (.error e) := by
  refine foldlM_not_error (fun next cur => acceptChr_stable rules cur chr next) ?_ []
  exact fun _ s h => acceptChr_not_error hw (hs s h).1 (hs s h).2

end Refusals

end Frink.Gbnf
