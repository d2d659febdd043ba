import Frink.Grammar.Classes
import Frink.Grammar.Symbols

/-! # The table a text compiles to

Compiling keeps the table sound: each rule is empty or closed by its `END`, its
references are interned, and its class modifiers continue a class. New rules only
ever stand at new symbols.
-/

namespace Frink.Gbnf

open ParsedGrammar

/-- Elements whose class modifiers continue a class of theirs, whatever they follow. -/
def Starts (es : GrammarRule) : Prop := ∀ prev, wellFormedFrom prev es = true

theorem wellFormedFrom_append {prev : GreType} {es fs : GrammarRule}
    (he : wellFormedFrom prev es = true) (hf : Starts fs) :
    wellFormedFrom prev (es ++ fs) = true := by
  induction es generalizing prev with
  | nil => exact hf prev
  | cons e es ih =>
    simp only [List.cons_append, wellFormedFrom, Bool.and_eq_true] at he ⊢
    exact ⟨he.1, ih he.2⟩

theorem wellFormedFrom_classElements {prev gtype : GreType}
    (hg : gtype = .char ∨ gtype = .charNot ∨ gtype = .charAlt)
    (hp : mayFollow prev gtype = true) (members : List (ℕ × Option ℕ)) :
    wellFormedFrom prev (classElements gtype members) = true := by
  induction members generalizing prev gtype with
  | nil => rfl
  | cons member members ih =>
    obtain ⟨value, upper⟩ := member
    cases upper with
    | none =>
      simp only [classElements, Option.map_none, Option.toList_none, List.cons_append,
        List.nil_append, wellFormedFrom, hp, Bool.true_and]
      exact ih (.inr (.inr rfl)) (by rcases hg with rfl | rfl | rfl <;> rfl)
    | some hi =>
      have hupper : mayFollow gtype .charRngUpper = true := by
        rcases hg with rfl | rfl | rfl <;> rfl
      simp only [classElements, Option.map_some, Option.toList_some, List.cons_append,
        List.nil_append, wellFormedFrom, hp, hupper, Bool.true_and]
      exact ih (.inr (.inr rfl)) rfl

/-- Elements of a rule before its `END`, the references below `bound`. -/
structure Inner (bound : ℕ) (es : GrammarRule) : Prop where
  starts : Starts es
  noEnd : ∀ e ∈ es, e.gtype ≠ .ruleEnd
  refs : ∀ e ∈ es, e.gtype = .ruleRef → e.value < bound

variable {bound : ℕ} {es fs : GrammarRule}

theorem Inner.nil : Inner bound [] := ⟨fun _ => rfl, nofun, nofun⟩

theorem Inner.append (he : Inner bound es) (hf : Inner bound fs) : Inner bound (es ++ fs) where
  starts := fun prev => wellFormedFrom_append (he.starts prev) hf.starts
  noEnd := fun e h => (List.mem_append.mp h).elim (he.noEnd e) (hf.noEnd e)
  refs := fun e h => (List.mem_append.mp h).elim (he.refs e) (hf.refs e)

theorem Inner.mono {bound' : ℕ} (h : Inner bound es) (hle : bound ≤ bound') : Inner bound' es :=
  ⟨h.starts, h.noEnd, fun e he hr => (h.refs e he hr).trans_le hle⟩

theorem Inner.copies (h : Inner bound es) (n : ℕ) :
    Inner bound (List.replicate n es).flatten := by
  induction n with
  | zero => exact .nil
  | succ n ih =>
    rw [List.replicate_succ, List.flatten_cons]
    exact h.append ih

theorem Inner.ref {id : ℕ} (h : id < bound) : Inner bound [⟨.ruleRef, id⟩] := by
  refine ⟨fun prev => rfl, ?_, ?_⟩
  · simp
  · simpa using h

theorem Inner.alt : Inner bound [⟨.alt, 0⟩] := by
  refine ⟨fun prev => rfl, ?_, ?_⟩ <;> simp

theorem classElements_gtype {gtype : GreType} {members : List (ℕ × Option ℕ)} {e : GrammarElement}
    (h : e ∈ classElements gtype members) :
    e.gtype = gtype ∨ e.gtype = .charAlt ∨ e.gtype = .charRngUpper := by
  induction members generalizing gtype with
  | nil => exact nomatch h
  | cons member members ih =>
    obtain ⟨value, upper⟩ := member
    rw [classElements, List.mem_append, List.mem_cons] at h
    rcases h with (rfl | h) | h
    · exact .inl rfl
    · cases upper with
      | none => exact nomatch h
      | some hi =>
        obtain rfl := List.mem_singleton.mp h
        exact .inr (.inr rfl)
    · rcases ih h with h | h | h
      · exact .inr (.inl h)
      · exact .inr (.inl h)
      · exact .inr (.inr h)

/-- The kinds of the elements of an atom. -/
theorem Atom.elements_gtype {a : Atom} {e : GrammarElement} (h : e ∈ a.elements) :
    e.gtype ≠ .ruleEnd ∧ e.gtype ≠ .alt ∧ e.gtype ≠ .ruleRef := by
  cases a with
  | literal values =>
    obtain ⟨v, _, rfl⟩ := List.mem_map.mp h
    exact ⟨nofun, nofun, nofun⟩
  | charClass negated members =>
    cases negated <;> rcases classElements_gtype h with h | h | h <;> simp [h]
  | token inverted tokenId =>
    obtain rfl := List.mem_singleton.mp h
    cases inverted <;> exact ⟨nofun, nofun, nofun⟩
  | any =>
    obtain rfl := List.mem_singleton.mp h
    exact ⟨nofun, nofun, nofun⟩

theorem Atom.inner (a : Atom) : Inner bound a.elements where
  starts := by
    intro prev
    cases a with
    | literal values =>
      induction values generalizing prev with
      | nil => rfl
      | cons v values ih => exact ih _
    | charClass negated members =>
      cases negated
      · exact wellFormedFrom_classElements (.inl rfl) rfl members
      · exact wellFormedFrom_classElements (.inr (.inl rfl)) rfl members
    | token inverted tokenId => cases inverted <;> rfl
    | any => rfl
  noEnd := fun _ h => (elements_gtype h).1
  refs := fun _ h hr => absurd hr (elements_gtype h).2.2

/-- A finished rule. -/
def Shaped (bound : ℕ) (rule : GrammarRule) : Prop :=
  ∃ es, rule = es ++ [⟨.ruleEnd, 0⟩] ∧ Inner bound es

theorem Shaped.ne_nil {rule : GrammarRule} (h : Shaped bound rule) : rule ≠ [] := by
  obtain ⟨es, rfl, _⟩ := h
  simp

namespace ParsedGrammar

/-- Every rule is finished or still without a definition. -/
structure Sound (out : ParsedGrammar) : Prop extends Interned out where
  shaped : ∀ id, ruleAt out.rules id = [] ∨ Shaped out.symbolIds.length (ruleAt out.rules id)

variable {out out' out'' : ParsedGrammar} {names names' : List SymbolName} {name : SymbolName}
  {id : ℕ} {rule : GrammarRule}

theorem sound_empty : Sound empty := ⟨interned_empty, fun _ => .inl rfl⟩

theorem Sound.appended (h : Sound out) (hnew : ∀ p ∈ out.symbolIds, p.1 ≠ name)
    (hname : Plain name ∨ Synthesized name out.symbolIds.length) : Sound (out.appended name) where
  toInterned := h.toInterned.appended hnew hname
  shaped := by
    intro id
    refine (h.shaped id).imp_right fun ⟨es, he, hi⟩ => ⟨es, he, hi.mono ?_⟩
    simp [ParsedGrammar.appended]

theorem Sound.addRule (h : Sound out) (hid : id < out.symbolIds.length)
    (hrule : Shaped out.symbolIds.length rule) : Sound (out.addRule id rule) where
  toInterned := h.toInterned.addRule hid rule
  shaped := by
    intro j
    rw [ruleAt_addRule]
    split
    · exact .inr hrule
    · exact h.shaped j

theorem Sound.getSymbolId (h : Sound out) (hname : Plain name) :
    Sound (out.getSymbolId name).2 ∧
      (name, (out.getSymbolId name).1) ∈ (out.getSymbolId name).2.symbolIds := by
  rcases h.toInterned.getSymbolId name with ⟨id, hmem, heq⟩ | ⟨hnew, heq⟩
  · rw [heq]
    exact ⟨h, hmem⟩
  · rw [heq]
    exact ⟨h.appended hnew (.inl hname), by simp [ParsedGrammar.appended]⟩

/-- What compiling adds: the given names, and defined synthesized ones. -/
structure Grown (names : List SymbolName) (out out' : ParsedGrammar) : Prop where
  symbols : out.symbolIds <+: out'.symbolIds
  old : ∀ id < out.symbolIds.length, ruleAt out'.rules id = ruleAt out.rules id
  new : ∀ p ∈ out'.symbolIds, p ∉ out.symbolIds →
    (Plain p.1 ∧ p.1 ∈ names ∧ ruleAt out'.rules p.2 = []) ∨
      (Synthesized p.1 p.2 ∧ ruleAt out'.rules p.2 ≠ [])
  given : ∀ name ∈ names, ∃ id, (name, id) ∈ out'.symbolIds

theorem Grown.length_le (h : Grown names out out') :
    out.symbolIds.length ≤ out'.symbolIds.length := h.symbols.length_le

theorem Grown.refl : Grown [] out out where
  symbols := List.prefix_rfl
  old := fun _ _ => rfl
  new := fun _ hp hn => absurd hp hn
  given := nofun

theorem Grown.trans (h' : Sound out') (h'' : Sound out'') (h : Grown names out out')
    (hg : Grown names' out' out'') : Grown (names ++ names') out out'' where
  symbols := h.symbols.trans hg.symbols
  old := by
    intro id hid
    rw [hg.old id (hid.trans_le h.length_le), h.old id hid]
  new := by
    intro p hp hn
    by_cases hmid : p ∈ out'.symbolIds
    · have hid : p.2 < out'.symbolIds.length := h'.id_lt hmid
      rw [hg.old p.2 hid]
      exact (h.new p hmid hn).imp_left fun ⟨hplain, hmem, hnil⟩ =>
        ⟨hplain, List.mem_append_left _ hmem, hnil⟩
    · exact (hg.new p hp hmid).imp_left fun ⟨hplain, hmem, hnil⟩ =>
        ⟨hplain, List.mem_append_right _ hmem, hnil⟩
  given := by
    intro name hname
    rcases List.mem_append.mp hname with hname | hname
    · obtain ⟨id, hid⟩ := h.given name hname
      exact ⟨id, hg.symbols.subset hid⟩
    · exact hg.given name hname

end ParsedGrammar

end Frink.Gbnf
