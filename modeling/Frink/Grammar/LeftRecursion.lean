import Mathlib
import Frink.Grammar.Machine

/-! # Left recursion and the construction of a grammar

The detector walks the references a rule can reach in leftmost position, where
a rule is skipped only if one of its alternates is written empty.
-/

namespace Frink.Gbnf

open Exec

structure DetectState where
  visited : ℕ → Bool
  inProgress : ℕ → Bool
  mayBeEmpty : ℕ → Bool

def DetectState.init : DetectState := ⟨fun _ => false, fun _ => false, fun _ => false⟩

/-- Whether some alternate ends where it starts. -/
def writtenEmpty : Bool → GrammarRule → Bool
  | _, [] => false
  | atRuleStart, e :: rule =>
      if e.isEndOfSequence then (if atRuleStart then true else writtenEmpty true rule)
      else writtenEmpty false rule

/-- The second pass of the detector over the elements of a rule. -/
def scanLeftmost (detect : ℕ → DetectState → Option (Bool × DetectState)) (nRules : ℕ) :
    GrammarRule → Bool → DetectState → Option (Bool × DetectState)
  | [], _, st => some (false, st)
  | e :: rule, recurse, st =>
      if e.gtype = .ruleRef ∧ recurse then
        if nRules ≤ e.value then scanLeftmost detect nRules rule recurse st
        else
          match detect e.value st with
          | none => none
          | some (true, st) => some (true, st)
          | some (false, st) => scanLeftmost detect nRules rule (st.mayBeEmpty e.value) st
      else scanLeftmost detect nRules rule e.isEndOfSequence st

def ruleAt (rules : List GrammarRule) (i : ℕ) : GrammarRule := rules[i]?.getD []

def DetectState.enter (st : DetectState) (rules : List GrammarRule) (i : ℕ) : DetectState where
  visited := st.visited
  inProgress := Function.update st.inProgress i true
  mayBeEmpty := if writtenEmpty true (ruleAt rules i)
    then Function.update st.mayBeEmpty i true else st.mayBeEmpty

def DetectState.leave (st : DetectState) (i : ℕ) : DetectState where
  visited := Function.update st.visited i true
  inProgress := Function.update st.inProgress i false
  mayBeEmpty := st.mayBeEmpty

/-- `true` when the rule reaches a rule in progress. -/
def detectLeftRecursion (rules : List GrammarRule) :
    ℕ → ℕ → DetectState → Option (Bool × DetectState)
  | 0, _, _ => none
  | fuel + 1, i, st =>
      if st.inProgress i then some (true, st)
      else
        match scanLeftmost (detectLeftRecursion rules fuel) rules.length (ruleAt rules i) true
          (st.enter rules i) with
        | none => none
        | some (true, st) => some (true, st)
        | some (false, st) => some (false, st.leave i)

def detectFrom (rules : List GrammarRule) (nameOf : ℕ → Option String) (fuel : ℕ) :
    List ℕ → DetectState → Exec GrammarError Unit
  | [], _ => pure ()
  | i :: is, st =>
      if st.visited i then detectFrom rules nameOf fuel is st
      else
        match detectLeftRecursion rules fuel i st with
        | none => none
        | some (true, _) => Exec.fail (.leftRecursion i (nameOf i))
        | some (false, st) => detectFrom rules nameOf fuel is st

def detectLeftRecursionAll (rules : List GrammarRule) (nameOf : ℕ → Option String) (fuel : ℕ) :
    Exec GrammarError Unit :=
  detectFrom rules nameOf fuel (List.range rules.length) .init

/-- A rule that does not close with `END`, and its id. -/
def findUnterminated (rules : List GrammarRule) : Option (GrammarRule × ℕ) :=
  rules.zipIdx.find? fun rule => rule.1.getLast?.map (·.gtype) != some .ruleEnd

def findDangling (rules : List GrammarRule) : Option GrammarElement :=
  rules.flatten.find? fun e =>
    e.gtype == .ruleRef && (rules.length ≤ e.value || (ruleAt rules e.value).isEmpty)

/-- The checks of the constructor that come before the left recursion check. -/
def checkTable (rules : List GrammarRule) (start : ℕ) (nameOf : ℕ → Option String) :
    Except GrammarError Unit :=
  match findUnterminated rules with
  | some (_, i) => .error (.undefinedRule ((nameOf i).getD "<unnamed>") i)
  | none =>
      match findDangling rules with
      | some e => .error (.undefinedRule ((nameOf e.value).getD "<unnamed>") e.value)
      | none =>
          if rules.length ≤ start then .error (.missingRoot ((nameOf start).getD "root"))
          else .ok ()

/-- The stacks of the alternates of the start rule. -/
def initialStacks (rules : List GrammarRule) (start : ℕ) (fuel : ℕ) :
    Exec GrammarError (List GrammarStack) :=
  (alternates rules start).foldlM
    (fun parseStacks pos => advanceStack rules (pushPos rules pos []) parseStacks fuel) []

/-- Everything the constructor refuses a table for. -/
def checkRules (rules : List GrammarRule) (start : ℕ) (nameOf : ℕ → Option String) (fuel : ℕ) :
    Exec GrammarError Unit := do
  Exec.ofExcept (checkTable rules start nameOf)
  detectLeftRecursionAll rules nameOf fuel

def Grammar.fromRules (rules : List GrammarRule) (start : ℕ) (nameOf : ℕ → Option String)
    (fuel : ℕ) : Exec GrammarError Grammar := do
  checkRules rules start nameOf fuel
  let parseStacks ← initialStacks rules start fuel
  pure ⟨rules, parseStacks, .empty, none⟩

/-- Cursors in leftmost position: alternate starts, and past references that may be skipped. -/
inductive Leftmost (rules : List GrammarRule) (skip : ℕ → Prop) (r : ℕ) : RulePos → Prop where

  | start {pos : RulePos} : pos ∈ alternates rules r → Leftmost rules skip r pos

  | next {pos : RulePos} : Leftmost rules skip r pos → (elem rules pos).gtype = .ruleRef →
      skip (elem rules pos).value → Leftmost rules skip r pos.next

/-- A rule that reaches another in leftmost position. -/
def LeftEdge (rules : List GrammarRule) (skip : ℕ → Prop) (r t : ℕ) : Prop :=
  ∃ pos, Leftmost rules skip r pos ∧ (elem rules pos).gtype = .ruleRef ∧
    (elem rules pos).value = t

/-- What the detector takes for nullable. -/
def WrittenEmpty (rules : List GrammarRule) (r : ℕ) : Prop :=
  writtenEmpty true (ruleAt rules r) = true

/-- The edges the detector sees. -/
def VisibleEdge (rules : List GrammarRule) : ℕ → ℕ → Prop := LeftEdge rules (WrittenEmpty rules)

/-- A rule from which the detector finds nothing in progress. -/
inductive Clear (rules : List GrammarRule) : (ℕ → Bool) → ℕ → Prop where

  | mk {inProgress : ℕ → Bool} {r : ℕ} : inProgress r = false →
      (∀ t, VisibleEdge rules r t → Clear rules (Function.update inProgress r true) t) →
      Clear rules inProgress r

variable {rules : List GrammarRule} {nameOf : ℕ → Option String}

def RefsResolve (rules : List GrammarRule) : Prop :=
  ∀ pos, (elem rules pos).gtype = .ruleRef → (elem rules pos).value < rules.length

theorem elem_eq_of_getElem? {r i : ℕ} {e : GrammarElement} (h : (ruleAt rules r)[i]? = some e) :
    elem rules ⟨r, i⟩ = e := by
  unfold ruleAt at h
  cases hr : rules[r]? with
  | none => simp [hr] at h
  | some rule => simp_all [elem]

theorem getElem?_of_not_end {pos : RulePos} (h : (elem rules pos).gtype ≠ .ruleEnd) :
    (ruleAt rules pos.rule)[pos.index]? = some (elem rules pos) := by
  obtain ⟨_, hi⟩ := elem_of_lt_length h
  have hget := List.getElem?_eq_getElem (l := ruleAt rules pos.rule) hi
  rw [hget, elem_eq_of_getElem? hget]

theorem elem_mem_flatten {pos : RulePos} (h : (elem rules pos).gtype ≠ .ruleEnd) :
    elem rules pos ∈ rules.flatten := by
  have hget := getElem?_of_not_end h
  obtain ⟨hr, _⟩ := elem_of_lt_length h
  have hrule : ruleAt rules pos.rule = rules[pos.rule] := by simp [ruleAt, hr]
  rw [hrule] at hget
  exact List.mem_flatten.mpr ⟨_, List.getElem_mem hr, List.mem_of_getElem? hget⟩

theorem refsResolve_of_checkTable {start : ℕ} (h : checkTable rules start nameOf = .ok ()) :
    RefsResolve rules := by
  intro pos href
  unfold checkTable at h
  split at h
  · exact nomatch h
  split at h
  · exact nomatch h
  rename_i hd
  have hne : (elem rules pos).gtype ≠ .ruleEnd := by rw [href]; decide
  have hno := List.find?_eq_none.mp hd _ (elem_mem_flatten hne)
  simp only [href, beq_self_eq_true, Bool.true_and, Bool.or_eq_true, decide_eq_true_eq,
    not_or, not_le] at hno
  exact hno.1

section Scan

/-- The flag of the second pass after one more element. -/
def stepFlag (rules : List GrammarRule) (flag : Bool) (e : GrammarElement) : Bool :=
  if e.gtype = .ruleRef ∧ flag then
    if rules.length ≤ e.value then flag else writtenEmpty true (ruleAt rules e.value)
  else e.isEndOfSequence

/-- The rules the second pass recurses into. -/
def scanTargets (rules : List GrammarRule) : Bool → GrammarRule → List ℕ
  | _, [] => []
  | flag, e :: rule =>
      (if e.gtype = .ruleRef ∧ flag ∧ e.value < rules.length then [e.value] else []) ++
        scanTargets rules (stepFlag rules flag e) rule

theorem mem_scanTargets {rule : GrammarRule} {flag : Bool} {i : ℕ} {e : GrammarElement}
    (he : rule[i]? = some e) (href : e.gtype = .ruleRef) (hlt : e.value < rules.length)
    (hflag : (rule.take i).foldl (stepFlag rules) flag = true) :
    e.value ∈ scanTargets rules flag rule := by
  induction rule generalizing flag i with
  | nil => simp at he
  | cons f rule ih =>
    cases i with
    | zero =>
      simp only [List.getElem?_cons_zero, Option.some.injEq] at he
      simp only [List.take_zero, List.foldl_nil] at hflag
      subst he
      simp [scanTargets, href, hflag, hlt]
    | succ i =>
      simp only [List.getElem?_cons_succ] at he
      simp only [List.take_succ_cons, List.foldl_cons] at hflag
      exact List.mem_append_right _ (ih he hflag)

theorem mem_laterAlternates {i j : ℕ} {rule : GrammarRule} (h : j ∈ laterAlternates i rule) :
    ∃ k e, j = i + k + 1 ∧ rule[k]? = some e ∧ e.gtype = .alt := by
  induction rule generalizing i with
  | nil => simp [laterAlternates] at h
  | cons e rule ih =>
    have later : j ∈ laterAlternates (i + 1) rule →
        ∃ k f, j = i + k + 1 ∧ (e :: rule)[k]? = some f ∧ f.gtype = .alt := by
      intro h
      obtain ⟨k, f, hj, hf, hft⟩ := ih h
      exact ⟨k + 1, f, by omega, by simpa using hf, hft⟩
    simp only [laterAlternates] at h
    split at h
    · simp at h
    · rename_i halt
      rcases List.mem_cons.mp h with rfl | h
      · exact ⟨0, e, rfl, rfl, halt⟩
      · exact later h
    · exact later h

theorem alternate_start {r : ℕ} {pos : RulePos} (h : pos ∈ alternates rules r) :
    pos.rule = r ∧ (pos.index = 0 ∨
      ∃ i, pos.index = i + 1 ∧ (elem rules ⟨r, i⟩).gtype = .alt) := by
  refine ⟨rule_of_mem_alternates h, ?_⟩
  obtain ⟨j, hj, rfl⟩ := List.mem_map.mp h
  rcases List.mem_cons.mp hj with rfl | hj
  · exact .inl rfl
  · obtain ⟨k, e, rfl, he, halt⟩ := mem_laterAlternates hj
    refine .inr ⟨k, by simp, ?_⟩
    rw [elem_eq_of_getElem? (e := e) he]
    exact halt

theorem Leftmost.rule_eq {skip : ℕ → Prop} {r : ℕ} {pos : RulePos}
    (h : Leftmost rules skip r pos) : pos.rule = r := by
  induction h with
  | start hq => exact rule_of_mem_alternates hq
  | next _ _ _ ih => exact ih

theorem Leftmost.flag (hrefs : RefsResolve rules) {r : ℕ} {pos : RulePos}
    (h : Leftmost rules (WrittenEmpty rules) r pos) :
    ((ruleAt rules r).take pos.index).foldl (stepFlag rules) true = true := by
  have step : ∀ i, (elem rules ⟨r, i⟩).gtype ≠ .ruleEnd →
      ((ruleAt rules r).take (i + 1)).foldl (stepFlag rules) true =
        stepFlag rules (((ruleAt rules r).take i).foldl (stepFlag rules) true)
          (elem rules ⟨r, i⟩) := by
    intro i hi
    have hget := getElem?_of_not_end hi
    rw [List.take_add_one, hget, List.foldl_append]
    rfl
  induction h with
  | start hq =>
    obtain ⟨_, h0 | ⟨i, hi, halt⟩⟩ := alternate_start hq
    · simp [h0]
    · rw [hi, step i (by rw [halt]; decide)]
      simp [stepFlag, halt]
  | @next pos hp href hskip ih =>
    have hpos : pos = ⟨r, pos.index⟩ := by rw [← hp.rule_eq]
    have hlt := hrefs pos href
    rw [RulePos.next_index, step pos.index (by rw [← hpos, href]; decide), ih, ← hpos]
    simp [stepFlag, href, Nat.not_le.mpr hlt]
    exact hskip

theorem VisibleEdge.mem_scanTargets (hrefs : RefsResolve rules) {r t : ℕ}
    (h : VisibleEdge rules r t) : t ∈ scanTargets rules true (ruleAt rules r) := by
  obtain ⟨pos, hp, href, rfl⟩ := h
  have hne : (elem rules pos).gtype ≠ .ruleEnd := by rw [href]; decide
  have hget := getElem?_of_not_end hne
  rw [hp.rule_eq] at hget
  exact Gbnf.mem_scanTargets hget href (hrefs pos href) (hp.flag hrefs)

end Scan

section Detect

variable {detect detect' : ℕ → DetectState → Option (Bool × DetectState)} {st st' : DetectState}

/-- What the arrays of the detector are known to say. -/
structure DetectOk (rules : List GrammarRule) (st : DetectState) : Prop where
  empty : ∀ j, st.mayBeEmpty j = true → WrittenEmpty rules j
  visited : ∀ j, st.visited j = true → ∃ inProgress, Clear rules inProgress j

/-- A call that found nothing leaves the rules in progress as they were. -/
structure Cleared (rules : List GrammarRule) (i : ℕ) (st st' : DetectState) : Prop where
  ok : DetectOk rules st'
  inProgress : st'.inProgress = st.inProgress
  mono : ∀ j, st.mayBeEmpty j = true → st'.mayBeEmpty j = true
  empty : st'.mayBeEmpty i = writtenEmpty true (ruleAt rules i)
  clear : Clear rules st.inProgress i

theorem DetectOk.init : DetectOk rules DetectState.init :=
  ⟨fun _ h => (nomatch h), fun _ h => (nomatch h)⟩

theorem DetectOk.enter (h : DetectOk rules st) (i : ℕ) : DetectOk rules (st.enter rules i) := by
  refine ⟨fun j hj => ?_, fun j hj => h.visited j hj⟩
  simp only [DetectState.enter] at hj
  split at hj
  · rename_i hw
    by_cases hji : j = i
    · subst hji; exact hw
    · rw [Function.update_of_ne hji] at hj
      exact h.empty j hj
  · exact h.empty j hj

theorem enter_mono (i j : ℕ) (h : st.mayBeEmpty j = true) :
    (st.enter rules i).mayBeEmpty j = true := by
  simp only [DetectState.enter]
  split
  · by_cases hji : j = i
    · simp [hji]
    · rwa [Function.update_of_ne hji]
  · exact h

theorem enter_empty (h : DetectOk rules st) (i : ℕ) :
    (st.enter rules i).mayBeEmpty i = writtenEmpty true (ruleAt rules i) := by
  simp only [DetectState.enter]
  split
  · rename_i hw; simp [hw]
  · rename_i hw
    by_contra hne
    have : st.mayBeEmpty i = true := by
      cases hm : st.mayBeEmpty i <;> simp_all
    exact hw (h.empty i this)

theorem scan_cleared
    (hdetect : ∀ t s s', DetectOk rules s → detect t s = some (false, s') → Cleared rules t s s')
    {rule : GrammarRule} {flag : Bool} (hst : DetectOk rules st)
    (h : scanLeftmost detect rules.length rule flag st = some (false, st')) :
    DetectOk rules st' ∧ st'.inProgress = st.inProgress ∧
      (∀ j, st.mayBeEmpty j = true → st'.mayBeEmpty j = true) ∧
      ∀ t ∈ scanTargets rules flag rule, Clear rules st.inProgress t := by
  induction rule generalizing flag st with
  | nil =>
    cases h
    exact ⟨hst, rfl, fun _ h => h, fun t ht => nomatch ht⟩
  | cons e rule ih =>
    rw [scanLeftmost] at h
    by_cases hrec : e.gtype = .ruleRef ∧ flag = true
    · rw [if_pos hrec] at h
      by_cases hn : rules.length ≤ e.value
      · rw [if_pos hn] at h
        have hstep : stepFlag rules flag e = flag := by simp [stepFlag, hrec, hn]
        have := ih hst h
        rwa [scanTargets, if_neg (by omega), List.nil_append, hstep]
      · rw [if_neg hn] at h
        cases hd : detect e.value st with
        | none => rw [hd] at h; exact nomatch h
        | some r =>
          obtain ⟨found, s⟩ := r
          rw [hd] at h
          cases found with
          | true => exact nomatch h
          | false =>
            have hc := hdetect _ _ _ hst hd
            obtain ⟨hok, hin, hmono, hclear⟩ := ih hc.ok h
            have hstep : stepFlag rules flag e = s.mayBeEmpty e.value := by
              rw [hc.empty]
              simp [stepFlag, hrec, hn]
            refine ⟨hok, hin.trans hc.inProgress, fun j hj => hmono j (hc.mono j hj),
              fun t ht => ?_⟩
            rw [scanTargets, hstep, if_pos ⟨hrec.1, hrec.2, by omega⟩] at ht
            rcases List.mem_append.mp ht with ht | ht
            · rw [List.mem_singleton.mp ht]
              exact hc.clear
            · exact hc.inProgress ▸ hclear t ht
    · rw [if_neg hrec] at h
      have hstep : stepFlag rules flag e = e.isEndOfSequence := by
        unfold stepFlag
        rw [if_neg hrec]
      have := ih hst h
      rwa [scanTargets, if_neg (by tauto), List.nil_append, hstep]

theorem detect_cleared (hrefs : RefsResolve rules) (fuel i : ℕ) (st st' : DetectState)
    (hst : DetectOk rules st) (h : detectLeftRecursion rules fuel i st = some (false, st')) :
    Cleared rules i st st' := by
  induction fuel generalizing i st st' with
  | zero => exact nomatch h
  | succ fuel ih =>
    rw [detectLeftRecursion] at h
    by_cases hin : st.inProgress i = true
    · rw [if_pos hin] at h
      exact nomatch h
    rw [if_neg hin] at h
    split at h
    · exact nomatch h
    · exact nomatch h
    · rename_i s hs
      cases h
      obtain ⟨hok, hprog, hmono, hclear⟩ := scan_cleared ih (hst.enter i) hs
      have hmine : Clear rules st.inProgress i :=
        .mk (by simpa using hin) fun t ht => hclear t (ht.mem_scanTargets hrefs)
      refine ⟨⟨hok.empty, fun j hj => ?_⟩, ?_, fun j hj => hmono j (enter_mono i j hj), ?_, hmine⟩
      · by_cases hji : j = i
        · subst hji; exact ⟨_, hmine⟩
        · simp only [DetectState.leave, Function.update_of_ne hji] at hj
          exact hok.visited j hj
      · simp only [DetectState.leave, hprog, DetectState.enter, Function.update_idem]
        rw [show false = st.inProgress i by simpa using (Bool.eq_false_iff.mpr hin).symm,
          Function.update_eq_self]
      · have := enter_empty hst i
        change s.mayBeEmpty i = _
        cases hw : writtenEmpty true (ruleAt rules i) with
        | true => exact hmono i (this.trans hw)
        | false =>
          by_contra hne
          have hs : WrittenEmpty rules i := hok.empty i (by simpa using hne)
          rw [WrittenEmpty, hw] at hs
          exact nomatch hs

theorem scan_mono (hd : ∀ t s r, detect t s = some r → detect' t s = some r) {n : ℕ}
    {rule : GrammarRule} {flag : Bool} {r : Bool × DetectState}
    (h : scanLeftmost detect n rule flag st = some r) :
    scanLeftmost detect' n rule flag st = some r := by
  induction rule generalizing flag st with
  | nil => exact h
  | cons e rule ih =>
    rw [scanLeftmost] at h ⊢
    split at h
    · rename_i hrec
      rw [if_pos hrec]
      split at h
      · rename_i hn; rw [if_pos hn]; exact ih h
      · rename_i hn
        rw [if_neg hn]
        cases hc : detect e.value st with
        | none => rw [hc] at h; exact nomatch h
        | some s =>
          rw [hd _ _ _ hc]
          obtain ⟨found, s⟩ := s
          rw [hc] at h
          cases found with
          | true => exact h
          | false => exact ih h
    · rename_i hrec; rw [if_neg hrec]; exact ih h

theorem detect_mono {fuel i : ℕ} {r : Bool × DetectState}
    (h : detectLeftRecursion rules fuel i st = some r) :
    detectLeftRecursion rules (fuel + 1) i st = some r := by
  induction fuel generalizing i st r with
  | zero => exact nomatch h
  | succ fuel ih =>
    rw [detectLeftRecursion] at h ⊢
    split at h
    · rename_i hin; rw [if_pos hin]; exact h
    · rename_i hin
      rw [if_neg hin]
      cases hs : scanLeftmost (detectLeftRecursion rules fuel) rules.length (ruleAt rules i) true
          (st.enter rules i) with
      | none => rw [hs] at h; exact nomatch h
      | some s =>
        rw [scan_mono (fun t s r => ih) hs]
        rw [hs] at h
        exact h

theorem detectFrom_stable (is : List ℕ) (st : DetectState) :
    Stable fun n => detectFrom rules nameOf n is st := by
  refine Stable.of_succ fun n => ?_
  induction is generalizing st with
  | nil => exact fun a h => h
  | cons i is ih =>
    intro a h
    rw [detectFrom] at h ⊢
    split at h
    · rename_i hv; rw [if_pos hv]; exact ih _ _ h
    · rename_i hv
      rw [if_neg hv]
      cases hd : detectLeftRecursion rules n i st with
      | none => rw [hd] at h; exact nomatch h
      | some r =>
        rw [hd] at h
        rw [detect_mono hd]
        obtain ⟨found, s⟩ := r
        cases found with
        | true => exact h
        | false => exact ih _ _ h

theorem detectFrom_clear (hrefs : RefsResolve rules) {fuel : ℕ} {is : List ℕ}
    (hst : DetectOk rules st) (h : detectFrom rules nameOf fuel is st = some (.ok ())) :
    ∀ i ∈ is, ∃ inProgress, Clear rules inProgress i := by
  induction is generalizing st with
  | nil => exact fun i hi => nomatch hi
  | cons j is ih =>
    rw [detectFrom] at h
    intro i hi
    split at h
    · rename_i hv
      rcases List.mem_cons.mp hi with rfl | hi
      · exact hst.visited _ hv
      · exact ih hst h i hi
    · cases hd : detectLeftRecursion rules fuel j st with
      | none => rw [hd] at h; exact nomatch h
      | some r =>
        rw [hd] at h
        obtain ⟨found, s⟩ := r
        cases found with
        | true => exact nomatch h
        | false =>
          have hc := detect_cleared hrefs fuel j st s hst hd
          rcases List.mem_cons.mp hi with rfl | hi
          · exact ⟨_, hc.clear⟩
          · exact ih hc.ok h i hi

end Detect

theorem detectLeftRecursionAll_stable :
    Stable fun n => detectLeftRecursionAll rules nameOf n := detectFrom_stable _ _

theorem Clear.fresh {inProgress : ℕ → Bool} {r : ℕ} (h : Clear rules inProgress r) :
    inProgress r = false := by
  cases h with | mk h _ => exact h

theorem Clear.reach {inProgress : ℕ → Bool} {r t : ℕ} (h : Clear rules inProgress r)
    (hr : Relation.TransGen (VisibleEdge rules) r t) :
    ∃ inProgress', Clear rules inProgress' t ∧ inProgress' r = true := by
  induction hr with
  | single hrt =>
    cases h with
    | mk _ hsub => exact ⟨_, hsub _ hrt, by simp⟩
  | tail _ hbc ih =>
    rename_i b c _
    obtain ⟨inProgress', hb, hr'⟩ := ih
    cases hb with
    | mk hbf hsub =>
      refine ⟨_, hsub _ hbc, ?_⟩
      by_cases hrb : r = b
      · simp [hrb]
      · rwa [Function.update_of_ne hrb]

theorem LeftEdge.source_lt {skip : ℕ → Prop} {r t : ℕ} (h : LeftEdge rules skip r t) :
    r < rules.length := by
  obtain ⟨pos, hp, href, _⟩ := h
  rw [← hp.rule_eq]
  exact (elem_of_lt_length (by rw [href]; decide)).1

/-- An accepted table has no cycle of edges that the detector sees. -/
theorem visible_acyclic (hrefs : RefsResolve rules)
    (h : Returns (fun n => detectLeftRecursionAll rules nameOf n) (.ok ())) (r : ℕ) :
    ¬ Relation.TransGen (VisibleEdge rules) r r := by
  intro hcycle
  obtain ⟨n, hn⟩ := h
  have hlt : r < rules.length := by
    obtain ⟨t, ht, _⟩ := Relation.TransGen.head'_iff.mp hcycle
    exact ht.source_lt
  obtain ⟨inProgress, hclear⟩ :=
    detectFrom_clear hrefs DetectOk.init hn r (List.mem_range.mpr hlt)
  obtain ⟨inProgress', hclear', hr⟩ := hclear.reach hcycle
  rw [hclear'.fresh] at hr
  exact nomatch hr

end Frink.Gbnf
