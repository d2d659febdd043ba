import Mathlib
import Frink.Grammar.LeftRecursion
import Frink.Grammar.Syntax

/-! # The symbol table

Ids are given in the order the names come up. A name of the text has no underscore and
a synthesized name has one before its own id, so no name is ever given twice.
-/

namespace Frink.Gbnf

/-- A name as the text may spell it. -/
def Plain (name : SymbolName) : Prop := ∀ c ∈ name, isWordChar c = true

def Synthesized (name : SymbolName) (id : ℕ) : Prop :=
  ∃ base, Plain base ∧ name = base ++ 0x5F :: ParsedGrammar.decimalBytes id

theorem decimalBytes_value (n : ℕ) :
    (ParsedGrammar.decimalBytes n).foldl (fun n c => 10 * n + digitValue c) 0 = n := by
  have hbyte : ∀ c : Char, c.isDigit = true → digitValue c.toNat.toUInt8 = c.toNat - '0'.toNat := by
    intro c hc
    have hlt : c.toNat < 256 := by
      simp only [Char.isDigit, Bool.and_eq_true, decide_eq_true_eq] at hc
      have := UInt32.le_iff_toNat_le.mp hc.2
      exact this.trans_lt (by decide)
    rw [digitValue, UInt8.toNat_ofNat', Nat.mod_eq_of_lt hlt]
    rfl
  have hfold : ∀ (ds : List Char) init, (∀ c ∈ ds, c.isDigit = true) →
      (ds.map (·.toNat.toUInt8)).foldl (fun n c => 10 * n + digitValue c) init =
        Nat.ofDigitChars 10 ds init := by
    intro ds
    induction ds with
    | nil => intro init _; rfl
    | cons d ds ih =>
      intro init hds
      rw [List.map_cons, List.foldl_cons, Nat.ofDigitChars_cons, hbyte d (hds d (by simp)),
        ih _ fun c hc => hds c (by simp [hc])]
  unfold ParsedGrammar.decimalBytes
  rw [hfold _ _ fun c hc => Nat.isDigit_of_mem_toDigits (by decide) (by decide) hc]
  exact Nat.ofDigitChars_toDigits (by decide) (by decide)

theorem decimalBytes_injective : Function.Injective ParsedGrammar.decimalBytes :=
  Function.LeftInverse.injective decimalBytes_value

theorem Plain.no_underscore {name : SymbolName} (h : Plain name) : (0x5F : UInt8) ∉ name :=
  fun hmem => absurd (h _ hmem) (by decide)

theorem Synthesized.not_plain {name : SymbolName} {id : ℕ} (h : Synthesized name id) :
    ¬ Plain name := by
  obtain ⟨base, _, rfl⟩ := h
  exact fun hp => hp.no_underscore (by simp)

theorem Synthesized.unique {name : SymbolName} {id id' : ℕ} (h : Synthesized name id)
    (h' : Synthesized name id') : id = id' := by
  obtain ⟨base, hb, rfl⟩ := h
  obtain ⟨base', hb', heq⟩ := h'
  apply decimalBytes_injective
  have hdrop : ∀ {b : SymbolName} (tail : List UInt8), Plain b →
      (b ++ 0x5F :: tail).dropWhile (· != 0x5F) = 0x5F :: tail := by
    intro b tail hb
    rw [List.dropWhile_append_of_pos fun c hc => ?_]
    · rfl
    · have hne : c ≠ 0x5F := fun hc' => hb.no_underscore (hc' ▸ hc)
      simpa using hne
  have hboth := congrArg (List.dropWhile (· != 0x5F)) heq
  rw [hdrop _ hb, hdrop _ hb'] at hboth
  exact (List.cons.inj hboth).2

namespace ParsedGrammar

/-- The ids are the order of the names, and no name comes twice. -/
structure Interned (out : ParsedGrammar) : Prop where
  ids : out.symbolIds.map Prod.snd = List.range out.symbolIds.length
  nodup : (out.symbolIds.map Prod.fst).Nodup
  names : ∀ p ∈ out.symbolIds, Plain p.1 ∨ Synthesized p.1 p.2
  rules_le : out.rules.length ≤ out.symbolIds.length

variable {out : ParsedGrammar} {name : SymbolName} {id : ℕ}

theorem interned_empty : Interned empty :=
  ⟨rfl, List.nodup_nil, nofun, le_rfl⟩

theorem Interned.id_lt (h : Interned out) (hmem : (name, id) ∈ out.symbolIds) :
    id < out.symbolIds.length := by
  have hid : id ∈ out.symbolIds.map Prod.snd := List.mem_map_of_mem hmem
  rwa [h.ids, List.mem_range] at hid

theorem Interned.name_unique (h : Interned out) {id' : ℕ} (hmem : (name, id) ∈ out.symbolIds)
    (hmem' : (name, id') ∈ out.symbolIds) : id = id' :=
  congrArg Prod.snd (List.inj_on_of_nodup_map h.nodup hmem hmem' rfl)

theorem Interned.id_unique (h : Interned out) {name' : SymbolName}
    (hmem : (name, id) ∈ out.symbolIds) (hmem' : (name', id) ∈ out.symbolIds) : name = name' := by
  have hnodup : (out.symbolIds.map Prod.snd).Nodup := h.ids ▸ List.nodup_range
  exact congrArg Prod.fst (List.inj_on_of_nodup_map hnodup hmem hmem' rfl)

theorem Interned.exists_name (h : Interned out) (hid : id < out.symbolIds.length) :
    ∃ name, (name, id) ∈ out.symbolIds := by
  have hmem : id ∈ out.symbolIds.map Prod.snd := by
    rw [h.ids]
    exact List.mem_range.mpr hid
  obtain ⟨⟨name, _⟩, hp, rfl⟩ := List.mem_map.mp hmem
  exact ⟨name, hp⟩

theorem Interned.symbolId_eq_some_iff (h : Interned out) :
    out.symbolId name = some id ↔ (name, id) ∈ out.symbolIds := by
  unfold symbolId
  rw [Option.map_eq_some_iff]
  constructor
  · rintro ⟨⟨n, i⟩, hfind, rfl⟩
    obtain rfl : n = name := by simpa using List.find?_some hfind
    exact List.mem_of_find?_eq_some hfind
  · intro hmem
    obtain ⟨⟨n, i⟩, hfind⟩ : ∃ p, out.symbolIds.find? (fun p => p.1 == name) = some p :=
      Option.isSome_iff_exists.mp (List.find?_isSome.mpr ⟨_, hmem, by simp⟩)
    obtain rfl : n = name := by simpa using List.find?_some hfind
    exact ⟨_, hfind, h.name_unique (List.mem_of_find?_eq_some hfind) hmem⟩

theorem symbolId_eq_none_iff :
    out.symbolId name = none ↔ ∀ p ∈ out.symbolIds, p.1 ≠ name := by
  simp [symbolId]

theorem insertSymbol_new (h : ∀ p ∈ out.symbolIds, p.1 ≠ name) :
    out.insertSymbol name id = { out with symbolIds := out.symbolIds ++ [(name, id)] } := by
  unfold insertSymbol
  rw [symbolId_eq_none_iff.mpr h]
  rfl

/-- The table after a new name. -/
def appended (out : ParsedGrammar) (name : SymbolName) : ParsedGrammar :=
  { out with symbolIds := out.symbolIds ++ [(name, out.symbolIds.length)] }

theorem Interned.appended (h : Interned out) (hnew : ∀ p ∈ out.symbolIds, p.1 ≠ name)
    (hname : Plain name ∨ Synthesized name out.symbolIds.length) :
    Interned (out.appended name) where
  ids := by simp [ParsedGrammar.appended, h.ids, List.range_succ]
  nodup := by
    simp only [ParsedGrammar.appended, List.map_append, List.map_cons, List.map_nil]
    refine List.Nodup.append h.nodup (List.nodup_singleton _) ?_
    rw [List.disjoint_singleton]
    intro hmem
    obtain ⟨p, hp, hpn⟩ := List.mem_map.mp hmem
    exact hnew p hp hpn
  names := by
    intro p hp
    rcases List.mem_append.mp hp with hp | hp
    · exact h.names p hp
    · obtain rfl := List.mem_singleton.mp hp
      exact hname
  rules_le := by
    have hle := h.rules_le
    simp only [ParsedGrammar.appended, List.length_append, List.length_cons, List.length_nil]
    omega

theorem Interned.getSymbolId (h : Interned out) (name : SymbolName) :
    (∃ id, (name, id) ∈ out.symbolIds ∧ out.getSymbolId name = (id, out)) ∨
      (∀ p ∈ out.symbolIds, p.1 ≠ name) ∧
        out.getSymbolId name = (out.symbolIds.length, out.appended name) := by
  unfold ParsedGrammar.getSymbolId
  cases hid : out.symbolId name with
  | some id => exact .inl ⟨id, h.symbolId_eq_some_iff.mp hid, rfl⟩
  | none =>
    have hnew := symbolId_eq_none_iff.mp hid
    refine .inr ⟨hnew, ?_⟩
    dsimp only
    rw [insertSymbol_new hnew]
    rfl

theorem Interned.synthesized_new (h : Interned out)
    (hname : Synthesized name out.symbolIds.length) : ∀ p ∈ out.symbolIds, p.1 ≠ name := by
  rintro ⟨n, i⟩ hp rfl
  rcases h.names _ hp with hplain | hsynth
  · exact hname.not_plain hplain
  · exact absurd (h.id_lt hp) (hsynth.unique hname ▸ lt_irrefl _)

/-- A generated symbol is always a new one. -/
theorem Interned.generateSymbolId (h : Interned out) {base : SymbolName} (hbase : Plain base) :
    ∃ name, Synthesized name out.symbolIds.length ∧ (∀ p ∈ out.symbolIds, p.1 ≠ name) ∧
      out.generateSymbolId base = (out.symbolIds.length, out.appended name) := by
  have hname : Synthesized (base ++ 0x5F :: decimalBytes out.symbolIds.length)
      out.symbolIds.length := ⟨base, hbase, rfl⟩
  have hnew := h.synthesized_new hname
  refine ⟨_, hname, hnew, ?_⟩
  unfold ParsedGrammar.generateSymbolId
  dsimp only
  rw [insertSymbol_new hnew]
  rfl

theorem addRule_symbolIds (rule : GrammarRule) :
    (out.addRule id rule).symbolIds = out.symbolIds := rfl

theorem ruleAt_addRule (rule : GrammarRule) (j : ℕ) :
    ruleAt (out.addRule id rule).rules j = if j = id then rule else ruleAt out.rules j := by
  have hpad : ∀ rules : List GrammarRule, ruleAt (if rules.length ≤ id then
      rules.rightpad (id + 1) [] else rules) j = ruleAt rules j := by
    intro rules
    split
    · unfold ruleAt List.rightpad
      rw [List.getElem?_append]
      split
      · rfl
      · rename_i hj
        rw [List.getElem?_eq_none (not_lt.mp hj), List.getElem?_replicate]
        split <;> rfl
    · rfl
  have hlen : id < (if out.rules.length ≤ id then out.rules.rightpad (id + 1) []
      else out.rules).length := by
    split
    · simp
      omega
    · omega
  unfold addRule
  dsimp only
  by_cases hj : j = id
  · subst hj
    rw [if_pos rfl, ruleAt, List.getElem?_set_self hlen]
    rfl
  · rw [if_neg hj, ← hpad out.rules, ruleAt, List.getElem?_set_ne (Ne.symm hj)]
    rfl

theorem length_addRule_rules (rule : GrammarRule) :
    (out.addRule id rule).rules.length = max out.rules.length (id + 1) := by
  unfold addRule
  dsimp only
  rw [List.length_set]
  split
  · simp
    omega
  · omega

theorem Interned.addRule (h : Interned out) (hid : id < out.symbolIds.length)
    (rule : GrammarRule) : Interned (out.addRule id rule) where
  ids := h.ids
  nodup := h.nodup
  names := h.names
  rules_le := by
    rw [length_addRule_rules]
    exact max_le h.rules_le hid

end ParsedGrammar

end Frink.Gbnf
