import Frink.Grammar.Language
import Frink.Library.LeastSolution

/-! # Rules as equations

A rule spells a language once the rules it refers to have theirs. A rule of several alternates
spells their union, elements in a row the product of their languages, and the languages derived
from a table are the least solution of its equations.
-/

namespace Frink.Gbnf

open Equations

/-- The words spelled from a cursor up to the end of its alternate, the rules it refers to having
the languages of `V`. -/
inductive Spells (rules : List GrammarRule) (V : ℕ → Language ℕ) : RulePos → List ℕ → Prop where

  | done {pos : RulePos} : (elem rules pos).isEndOfSequence = true → Spells rules V pos []

  | chr {pos after : RulePos} {A : Set ℕ} {c : ℕ} {w : List ℕ} : CharClass rules pos A after →
      c ∈ A → Spells rules V after w → Spells rules V pos (c :: w)

  | ref {pos : RulePos} {u v : List ℕ} : (elem rules pos).gtype = .ruleRef →
      u ∈ V (elem rules pos).value → Spells rules V pos.next v → Spells rules V pos (u ++ v)

/-- What elements spell up to the end of their first alternate. -/
def seq (V : ℕ → Language ℕ) (es : GrammarRule) : Language ℕ := {w | Spells [es] V ⟨0, 0⟩ w}

/-- What the alternates spell that begin after the first element. -/
def laterAlts (V : ℕ → Language ℕ) : GrammarRule → Language ℕ
  | [] => 0
  | e :: es =>
      match e.gtype with
      | .ruleEnd => 0
      | .alt => seq V es + laterAlts V es
      | _ => laterAlts V es

/-- What a rule spells. -/
def alts (V : ℕ → Language ℕ) (es : GrammarRule) : Language ℕ := seq V es + laterAlts V es

/-- The words of one letter of a set. -/
def oneOf (A : Set ℕ) : Language ℕ := {w | ∃ c ∈ A, w = [c]}

section Agree

/-- The kinds of the elements that continue a class. -/
def GreType.continues : GreType → Bool
  | charAlt | charRngUpper => true
  | _ => false

/-- Two cursors that read alike for `n` elements, and then nothing that continues a class. -/
structure Agree (rules rules' : List GrammarRule) (n : ℕ) (pos pos' : RulePos) : Prop where

  same : ∀ k < n, elem rules (pos.advance k) = elem rules' (pos'.advance k)

  stop : (elem rules (pos.advance n)).gtype.continues = false

  stop' : (elem rules' (pos'.advance n)).gtype.continues = false

variable {rules rules' : List GrammarRule} {n m : ℕ} {pos pos' after : RulePos} {A : Set ℕ}
  {V V' : ℕ → Language ℕ} {w : List ℕ}

theorem advance_advance (pos : RulePos) (n m : ℕ) :
    (pos.advance n).advance m = pos.advance (n + m) := by
  simp [RulePos.advance, Nat.add_assoc]

theorem Agree.symm (h : Agree rules rules' n pos pos') : Agree rules' rules n pos' pos :=
  ⟨fun k hk => (h.same k hk).symm, h.stop', h.stop⟩

theorem Agree.advance (h : Agree rules rules' n pos pos') (hm : m ≤ n) :
    Agree rules rules' (n - m) (pos.advance m) (pos'.advance m) where
  same := by
    intro k hk
    rw [advance_advance, advance_advance]
    exact h.same _ (by omega)
  stop := by
    rw [advance_advance, Nat.add_sub_cancel' hm]
    exact h.stop
  stop' := by
    rw [advance_advance, Nat.add_sub_cancel' hm]
    exact h.stop'

/-- Up to the end both read one kind, or neither continues a class. -/
theorem Agree.continues (h : Agree rules rules' n pos pos') (hm : m ≤ n) :
    elem rules (pos.advance m) = elem rules' (pos'.advance m) ∨
      (elem rules (pos.advance m)).gtype.continues = false ∧
        (elem rules' (pos'.advance m)).gtype.continues = false := by
  rcases hm.lt_or_eq with hlt | rfl
  · exact .inl (h.same m hlt)
  · exact .inr ⟨h.stop, h.stop'⟩

theorem Agree.of_continues (h : Agree rules rules' n pos pos') (hm : m ≤ n)
    (hc : (elem rules (pos.advance m)).gtype.continues = true) :
    m < n ∧ elem rules (pos.advance m) = elem rules' (pos'.advance m) := by
  have hlt : m < n := by
    apply lt_of_le_of_ne hm
    rintro rfl
    rw [h.stop] at hc
    cases hc
  exact ⟨hlt, h.same m hlt⟩

theorem Agree.not_kind (h : Agree rules rules' n pos pos') (hm : m ≤ n) {t : GreType}
    (ht : t.continues = true) (hne : (elem rules (pos.advance m)).gtype ≠ t) :
    (elem rules' (pos'.advance m)).gtype ≠ t := by
  rcases h.continues hm with heq | ⟨_, hstop⟩
  · rwa [← heq]
  · rintro rfl
    rw [hstop] at ht
    cases ht

theorem ClassItem.agree (h : ClassItem rules pos A after) (ha : Agree rules rules' n pos pos')
    (hn : 0 < n) : ∃ m, 0 < m ∧ m ≤ n ∧ after = pos.advance m ∧
      ClassItem rules' pos' A (pos'.advance m) := by
  have hhead : elem rules pos = elem rules' pos' := ha.same 0 hn
  cases h with
  | range hupper =>
    obtain ⟨hlt, hnext⟩ := ha.of_continues (m := 1) hn
      (by rw [show pos.advance 1 = pos.next from rfl, hupper]; rfl)
    have hnext' : elem rules pos.next = elem rules' pos'.next := hnext
    refine ⟨2, by omega, hlt, rfl, ?_⟩
    rw [hhead, hnext']
    exact .range (hnext' ▸ hupper)
  | any hupper hany =>
    exact ⟨1, by omega, hn, rfl, .any (ha.not_kind (m := 1) hn rfl hupper) (hhead ▸ hany)⟩
  | single hupper hany =>
    refine ⟨1, by omega, hn, rfl, ?_⟩
    rw [hhead]
    exact .single (ha.not_kind (m := 1) hn rfl hupper) (hhead ▸ hany)

theorem ClassGroup.agree (h : ClassGroup rules pos A after) (ha : Agree rules rules' n pos pos')
    (hn : 0 < n) : ∃ m, 0 < m ∧ m ≤ n ∧ after = pos.advance m ∧
      ClassGroup rules' pos' A (pos'.advance m) := by
  induction h generalizing n pos' with
  | last hitem halt =>
    obtain ⟨m, hpos, hm, rfl, hitem'⟩ := hitem.agree ha hn
    exact ⟨m, hpos, hm, rfl, .last hitem' (ha.not_kind hm rfl halt)⟩
  | more hitem halt _ ih =>
    obtain ⟨m, hpos, hm, rfl, hitem'⟩ := hitem.agree ha hn
    obtain ⟨hlt, hmid⟩ := ha.of_continues hm (by rw [halt]; rfl)
    obtain ⟨k, hk, hkn, rfl, hgroup⟩ := ih (ha.advance hm) (by omega)
    refine ⟨m + k, by omega, by omega, advance_advance _ _ _, ?_⟩
    rw [advance_advance] at hgroup
    exact .more hitem' (hmid ▸ halt) hgroup

/-- A class is read alike from cursors that agree. -/
theorem CharClass.agree (h : CharClass rules pos A after) (ha : Agree rules rules' n pos pos')
    (hn : 0 < n) : ∃ m, 0 < m ∧ m ≤ n ∧ after = pos.advance m ∧
      CharClass rules' pos' A (pos'.advance m) := by
  have hhead : elem rules pos = elem rules' pos' := ha.same 0 hn
  rcases h with ⟨hp, hg⟩ | ⟨hc, B, hg, rfl⟩
  · obtain ⟨m, hpos, hm, rfl, hg'⟩ := hg.agree ha hn
    exact ⟨m, hpos, hm, rfl, .inl ⟨hhead ▸ hp, hg'⟩⟩
  · obtain ⟨m, hpos, hm, rfl, hg'⟩ := hg.agree ha hn
    exact ⟨m, hpos, hm, rfl, .inr ⟨hhead ▸ hc, B, hg', rfl⟩⟩

theorem exists_charClass (hc : (elem rules pos).gtype.isClass = true) :
    ∃ A after, CharClass rules pos A after := by
  obtain ⟨A, _, after, h, _⟩ := matchChar_of_isClass hc 0
  exact ⟨A, after, h⟩

theorem CharClass.not_end (h : CharClass rules pos A after) :
    (elem rules pos).isEndOfSequence ≠ true := by
  rw [isEndOfSequence_of_isClass h.isClass]
  exact Bool.false_ne_true

theorem not_end_of_ref (h : (elem rules pos).gtype = .ruleRef) :
    (elem rules pos).isEndOfSequence ≠ true := by
  rw [isEndOfSequence_of_ruleRef h]
  exact Bool.false_ne_true

theorem continues_of_end {e : GrammarElement} (h : e.isEndOfSequence = true) :
    e.gtype.continues = false := by
  rcases (GrammarElement.isEndOfSequence_iff e).mp h with h | h <;> rw [h] <;> rfl

/-- Cursors that agree up to where both alternates end spell the same words. -/
theorem Spells.agree (h : Spells rules V pos w) (ha : Agree rules rules' n pos pos')
    (hend : (elem rules (pos.advance n)).isEndOfSequence = true)
    (hend' : (elem rules' (pos'.advance n)).isEndOfSequence = true) :
    Spells rules' V pos' w := by
  induction h generalizing n pos' with
  | done hdone =>
    rcases Nat.eq_zero_or_pos n with rfl | hn
    · exact .done hend'
    · exact .done (ha.same 0 hn ▸ hdone)
  | @chr pos after A c w hc hmem _ ih =>
    have hn : 0 < n := by
      apply Nat.pos_of_ne_zero
      rintro rfl
      exact hc.not_end hend
    obtain ⟨m, _, hm, rfl, hc'⟩ := hc.agree ha hn
    refine .chr hc' hmem (ih (ha.advance hm) ?_ ?_)
    · rwa [advance_advance, Nat.add_sub_cancel' hm]
    · rwa [advance_advance, Nat.add_sub_cancel' hm]
  | @ref pos u v href hu _ ih =>
    have hn : 0 < n := by
      apply Nat.pos_of_ne_zero
      rintro rfl
      exact not_end_of_ref href hend
    have hhead : elem rules pos = elem rules' pos' := ha.same 0 hn
    refine .ref (hhead ▸ href) (hhead ▸ hu) (ih (ha.advance (m := 1) hn) ?_ ?_)
    · rwa [show pos.next = pos.advance 1 from rfl, advance_advance, Nat.add_sub_cancel' hn]
    · rwa [show pos'.next = pos'.advance 1 from rfl, advance_advance, Nat.add_sub_cancel' hn]

theorem Spells.mono (hV : V ≤ V') (h : Spells rules V pos w) : Spells rules V' pos w := by
  induction h with
  | done hdone => exact .done hdone
  | chr hc hmem _ ih => exact .chr hc hmem ih
  | ref href hu _ ih => exact .ref href (hV _ hu) ih

end Agree

section Elements

variable {V V' : ℕ → Language ℕ} {es fs : GrammarRule} {e : GrammarElement} {A : Set ℕ} {m n i : ℕ}
  {rules : List GrammarRule} {pos : RulePos} {w : List ℕ}

theorem elem_single (es : GrammarRule) (i : ℕ) :
    elem [es] ⟨0, i⟩ = es[i]?.getD ⟨.ruleEnd, 0⟩ := rfl

theorem elem_eq_ruleAt (rules : List GrammarRule) (pos : RulePos) :
    elem rules pos = (ruleAt rules pos.rule)[pos.index]?.getD ⟨.ruleEnd, 0⟩ := by
  unfold elem ruleAt
  cases rules[pos.rule]? <;> simp

/-- A cursor spells what is left of its rule. -/
theorem spells_iff : Spells rules V pos w ↔ w ∈ seq V ((ruleAt rules pos.rule).drop pos.index) := by
  have hsame : ∀ k, elem rules (pos.advance k) =
      elem [(ruleAt rules pos.rule).drop pos.index] ((⟨0, 0⟩ : RulePos).advance k) := by
    intro k
    rw [elem_eq_ruleAt]
    simp [RulePos.advance, elem_single]
  have hlast : elem rules (pos.advance (ruleAt rules pos.rule).length) = ⟨.ruleEnd, 0⟩ := by
    rw [elem_eq_ruleAt, List.getElem?_eq_none (by simp)]
    rfl
  have ha : Agree rules [(ruleAt rules pos.rule).drop pos.index]
      (ruleAt rules pos.rule).length pos ⟨0, 0⟩ :=
    ⟨fun k _ => hsame k, by rw [hlast]; rfl, by rw [← hsame, hlast]; rfl⟩
  constructor
  · intro h
    exact h.agree ha (by rw [hlast]; rfl) (by rw [← hsame, hlast]; rfl)
  · intro h
    exact Spells.agree h ha.symm (by rw [← hsame, hlast]; rfl) (by rw [hlast]; rfl)

theorem mem_seq_drop : Spells [es] V ⟨0, i⟩ w ↔ w ∈ seq V (es.drop i) := spells_iff

@[simp] theorem seq_nil : seq V [] = 1 := by
  ext w
  constructor
  · intro h
    cases h with
    | done _ => rfl
    | chr hc _ _ => exact absurd hc.isClass (by decide)
    | ref href _ _ => exact absurd href (by decide)
  · rintro rfl
    exact .done rfl

theorem seq_end (he : e.isEndOfSequence = true) : seq V (e :: es) = 1 := by
  ext w
  constructor
  · intro h
    cases h with
    | done _ => rfl
    | chr hc _ _ => exact (hc.not_end he).elim
    | ref href _ _ => exact (not_end_of_ref href he).elim
  · rintro rfl
    exact .done he

theorem seq_ref (id : ℕ) : seq V (⟨.ruleRef, id⟩ :: es) = V id * seq V es := by
  ext w
  rw [Language.mem_mul]
  constructor
  · intro h
    cases h with
    | done hdone => exact (not_end_of_ref rfl hdone).elim
    | chr hc _ _ => exact Bool.false_ne_true hc.isClass |>.elim
    | ref _ hu hv => exact ⟨_, hu, _, mem_seq_drop.mp hv, rfl⟩
  · rintro ⟨u, hu, v, hv, rfl⟩
    exact .ref rfl hu (mem_seq_drop.mpr hv)

theorem mem_oneOf_mul {L : Language ℕ} :
    w ∈ oneOf A * L ↔ ∃ c ∈ A, ∃ v ∈ L, w = c :: v := by
  rw [Language.mem_mul]
  constructor
  · rintro ⟨_, ⟨c, hc, rfl⟩, v, hv, rfl⟩
    exact ⟨c, hc, v, hv, rfl⟩
  · rintro ⟨c, hc, v, hv, rfl⟩
    exact ⟨[c], ⟨c, hc, rfl⟩, v, hv, rfl⟩

theorem seq_class (hc : CharClass [es] ⟨0, 0⟩ A ⟨0, m⟩) :
    seq V es = oneOf A * seq V (es.drop m) := by
  ext w
  rw [mem_oneOf_mul]
  constructor
  · intro h
    cases h with
    | done hdone => exact (hc.not_end hdone).elim
    | @chr _ after B c w hc' hmem hw =>
      obtain ⟨rfl, rfl⟩ := hc.unique hc'
      exact ⟨c, hmem, w, mem_seq_drop.mp hw, rfl⟩
    | ref href _ _ =>
      have hclass := hc.isClass
      rw [href] at hclass
      cases hclass
  · rintro ⟨c, hmem, v, hv, rfl⟩
    exact .chr hc hmem (mem_seq_drop.mpr hv)

/-- An element that neither ends an alternate, nor begins a class, nor refers to a rule. -/
theorem seq_stuck (hend : e.isEndOfSequence = false) (hclass : e.gtype.isClass = false)
    (href : e.gtype ≠ .ruleRef) : seq V (e :: es) = 0 := by
  ext w
  constructor
  · intro h
    cases h with
    | done hdone => exact absurd (hend.symm.trans hdone) (by simp)
    | chr hc _ _ => exact absurd (hclass.symm.trans hc.isClass) (by simp)
    | ref h _ _ => exact (href h).elim
  · rintro ⟨⟩

/-- No element of `es` ends an alternate. -/
def Unbroken (es : GrammarRule) : Prop := ∀ e ∈ es, e.isEndOfSequence = false

/-- What follows does not continue a class. -/
def Fresh (fs : GrammarRule) : Prop := (elem [fs] ⟨0, 0⟩).gtype.continues = false

theorem agree_append (es : GrammarRule) (hfs : Fresh fs) :
    Agree [es] [es ++ fs] es.length ⟨0, 0⟩ ⟨0, 0⟩ where
  same := by
    intro k hk
    simp [RulePos.advance, elem_single, List.getElem?_append_left hk]
  stop := by simp [RulePos.advance, elem_single, GreType.continues]
  stop' := by
    rw [← hfs]
    simp [RulePos.advance, elem_single, List.getElem?_append_right]

/-- A class at the head of elements, and what is left of them. -/
theorem seq_class_append (es : GrammarRule) (hclass : (elem [es] ⟨0, 0⟩).gtype.isClass = true)
    (hne : es ≠ []) :
    ∃ A m, 0 < m ∧ m ≤ es.length ∧ ∀ fs, Fresh fs →
      seq V (es ++ fs) = oneOf A * seq V (es.drop m ++ fs) := by
  obtain ⟨A, after, hc⟩ := exists_charClass hclass
  have hnil : Fresh [] := rfl
  obtain ⟨m, hpos, hm, rfl, _⟩ :=
    hc.agree (agree_append _ hnil) (List.length_pos_of_ne_nil hne)
  refine ⟨A, m, hpos, hm, fun fs hfs => ?_⟩
  obtain ⟨k, _, _, hk, hc'⟩ := hc.agree (agree_append _ hfs) (List.length_pos_of_ne_nil hne)
  obtain rfl : m = k := by simpa [RulePos.advance] using hk
  have hdrop : (es ++ fs).drop m = es.drop m ++ fs := List.drop_append_of_le_length hm
  rw [← hdrop]
  apply seq_class
  simpa [RulePos.advance] using hc'

theorem Unbroken.drop (h : Unbroken es) (n : ℕ) : Unbroken (es.drop n) :=
  fun e he => h e (List.mem_of_mem_drop he)

theorem Unbroken.append (hes : Unbroken es) (hfs : Unbroken fs) : Unbroken (es ++ fs) := by
  intro e he
  rcases List.mem_append.mp he with he | he
  · exact hes e he
  · exact hfs e he

/-- Elements in a row spell the product of their languages. -/
theorem seq_append (hes : Unbroken es) (hfs : Fresh fs) :
    seq V (es ++ fs) = seq V es * seq V fs := by
  induction hn : es.length using Nat.strong_induction_on generalizing es with
  | _ n ih =>
    subst hn
    cases es with
    | nil => rw [List.nil_append, seq_nil, one_mul]
    | cons e es =>
      have hend : e.isEndOfSequence = false := hes e (by simp)
      by_cases hclass : e.gtype.isClass = true
      · obtain ⟨A, m, hpos, hm, h⟩ := seq_class_append (V := V) (e :: es) hclass (by simp)
        have hnil := h [] rfl
        rw [List.append_nil, List.append_nil] at hnil
        rw [h fs hfs, hnil, ih _ (by simp; omega) (hes.drop m) rfl, mul_assoc]
      · by_cases href : e.gtype = .ruleRef
        · obtain ⟨_, id⟩ := e
          obtain rfl : _ = GreType.ruleRef := href
          rw [List.cons_append, seq_ref, seq_ref, mul_assoc,
            ih es.length (by simp) (fun f hf => hes f (by simp [hf])) rfl]
        · rw [List.cons_append, seq_stuck hend (eq_false_of_ne_true hclass) href,
            seq_stuck hend (eq_false_of_ne_true hclass) href, zero_mul]

/-- Nothing after the end of an alternate counts. -/
theorem seq_cut (he : e.isEndOfSequence = true) : seq V (es ++ e :: fs) = seq V es := by
  have hfresh : Fresh (e :: fs) := continues_of_end he
  have ha := agree_append es hfresh
  have hend : (elem [es] ((⟨0, 0⟩ : RulePos).advance es.length)).isEndOfSequence = true := by
    simp [RulePos.advance, elem_single]
  have hend' : (elem [es ++ e :: fs]
      ((⟨0, 0⟩ : RulePos).advance es.length)).isEndOfSequence = true := by
    simpa [RulePos.advance, elem_single] using he
  ext w
  exact ⟨fun h => Spells.agree h ha.symm hend' hend, fun h => Spells.agree h ha hend hend'⟩

theorem seq_mono (hV : V ≤ V') (es : GrammarRule) : seq V es ≤ seq V' es :=
  fun _ h => Spells.mono hV h

theorem laterAlts_mono (hV : V ≤ V') (es : GrammarRule) : laterAlts V es ≤ laterAlts V' es := by
  induction es with
  | nil => exact le_rfl
  | cons e es ih =>
    simp only [laterAlts]
    split
    · exact le_rfl
    · exact add_le_add (seq_mono hV es) ih
    · exact ih

theorem alts_mono (hV : V ≤ V') (es : GrammarRule) : alts V es ≤ alts V' es :=
  add_le_add (seq_mono hV es) (laterAlts_mono hV es)

theorem laterAlts_of_unbroken (hes : Unbroken es) : laterAlts V es = 0 := by
  induction es with
  | nil => rfl
  | cons e es ih =>
    have hend : e.isEndOfSequence = false := hes e (by simp)
    have hrest := ih fun f hf => hes f (by simp [hf])
    obtain ⟨t, value⟩ := e
    cases t <;> first | exact hrest | exact Bool.noConfusion hend

theorem alts_of_unbroken (hes : Unbroken es) : alts V es = seq V es := by
  rw [alts, laterAlts_of_unbroken hes, add_zero]

theorem laterAlts_append_alt (hes : ∀ e ∈ es, e.gtype ≠ .ruleEnd) :
    laterAlts V (es ++ ⟨.alt, 0⟩ :: fs) = laterAlts V es + alts V fs := by
  induction es with
  | nil => simp [laterAlts, alts]
  | cons e es ih =>
    have hrest := ih fun f hf => hes f (by simp [hf])
    simp only [List.cons_append, laterAlts]
    split
    · rename_i ht
      exact (hes e (by simp) ht).elim
    · rw [hrest, seq_cut rfl, add_assoc]
    · exact hrest

theorem alts_append_alt (hes : ∀ e ∈ es, e.gtype ≠ .ruleEnd) :
    alts V (es ++ ⟨.alt, 0⟩ :: fs) = alts V es + alts V fs := by
  rw [alts, laterAlts_append_alt hes, seq_cut rfl]
  exact (add_assoc _ _ _).symm

theorem alts_append_end (hes : ∀ e ∈ es, e.gtype ≠ .ruleEnd) :
    alts V (es ++ [⟨.ruleEnd, 0⟩]) = alts V es := by
  have hlater : laterAlts V (es ++ [⟨.ruleEnd, 0⟩]) = laterAlts V es := by
    induction es with
    | nil => rfl
    | cons e es ih =>
      have hrest := ih fun f hf => hes f (by simp [hf])
      simp only [List.cons_append, laterAlts]
      split
      · rfl
      · rw [hrest, seq_cut rfl]
      · exact hrest
  rw [alts, hlater, seq_cut rfl, alts]

end Elements

section Least

variable {rules : List GrammarRule} {V : ℕ → Language ℕ} {pos : RulePos} {w : List ℕ} {r : ℕ}

theorem mem_laterAlts_iff (rule : GrammarRule) (i : ℕ) :
    w ∈ laterAlts V (rule.drop i) ↔
      ∃ j ∈ laterAlternates i (rule.drop i), w ∈ seq V (rule.drop j) := by
  induction hes : rule.drop i generalizing i with
  | nil => simp [laterAlts, laterAlternates, Language.notMem_zero]
  | cons e es ih =>
    have hnext : rule.drop (i + 1) = es := by
      rw [← List.tail_drop, hes]
      rfl
    have hrest := ih (i + 1) hnext
    simp only [laterAlts, laterAlternates]
    cases e.gtype with
    | ruleEnd => simp [Language.notMem_zero]
    | alt =>
      rw [Language.mem_add, hrest]
      simp [hnext]
    | _ => exact hrest

/-- The alternates of a rule spell what the rule does. -/
theorem mem_alts_iff :
    w ∈ alts V (ruleAt rules r) ↔ ∃ pos ∈ alternates rules r, Spells rules V pos w := by
  have hlater := mem_laterAlts_iff (V := V) (w := w) (ruleAt rules r) 0
  rw [List.drop_zero] at hlater
  rw [alts, Language.mem_add, hlater]
  simp only [alternates, List.mem_map, List.mem_cons, exists_exists_and_eq_and, spells_iff]
  simp [ruleAt]

/-- The equations of a table: each rule has what it spells. -/
def equations (rules : List GrammarRule) : (ℕ → Language ℕ) →o (ℕ → Language ℕ) where
  toFun V r := alts V (ruleAt rules r)
  monotone' := fun _ _ hV r => alts_mono hV (ruleAt rules r)

theorem derives_iff_spells :
    Derives rules pos w ↔ Spells rules (fun r => {w | DerivesRule rules r w}) pos w := by
  constructor
  · intro h
    induction h with
    | done hend => exact .done hend
    | chr hc hmem _ ih => exact .chr hc hmem ih
    | ref href hsub hu _ _ ih => exact .ref href ⟨_, hsub, hu⟩ ih
  · intro h
    induction h with
    | done hend => exact .done hend
    | chr hc hmem _ ih => exact .chr hc hmem ih
    | ref href hu _ ih =>
      obtain ⟨sub, hsub, hu⟩ := hu
      exact .ref href hsub hu ih

theorem spells_of_derives (hV : equations rules V ≤ V) (h : Derives rules pos w) :
    Spells rules V pos w := by
  induction h with
  | done hend => exact .done hend
  | chr hc hmem _ ih => exact .chr hc hmem ih
  | ref href hsub _ _ ihu ihv => exact .ref href (hV _ (mem_alts_iff.mpr ⟨_, hsub, ihu⟩)) ihv

/-- The languages derived from a table are the least solution of its equations. -/
theorem derivesRule_iff_lfp : DerivesRule rules r w ↔ w ∈ OrderHom.lfp (equations rules) r := by
  constructor
  · rintro ⟨pos, hpos, h⟩
    rw [lfp_eq]
    exact mem_alts_iff.mpr ⟨pos, hpos, spells_of_derives (OrderHom.map_lfp _).le h⟩
  · have hle : OrderHom.lfp (equations rules) ≤ fun r => {w | DerivesRule rules r w} := by
      apply OrderHom.lfp_le
      intro r w hw
      obtain ⟨pos, hpos, h⟩ := mem_alts_iff.mp hw
      exact ⟨pos, hpos, derives_iff_spells.mpr h⟩
    exact fun hw => hle r hw

end Least

end Frink.Gbnf
