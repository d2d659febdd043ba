import Frink.Grammar.Meaning

/-! # Compiling preserves the meaning

Whatever is compiled later, the synthesized rules of an item stay as they are, so they have the
languages of the item in the finished table. A text then means the same before compiling and after.
-/

namespace Frink.Gbnf

open Equations ParsedGrammar Exec

variable {env : SymbolName → Language ℕ} {V : ℕ → Language ℕ} {A B L : Language ℕ}
  {s t : SequenceState} {out u g : ParsedGrammar} {names : List SymbolName} {ruleName : SymbolName}

/-- The symbols of `t` are those of the finished table, and so are the rules it has synthesized
since `out`. -/
structure Within (out t g : ParsedGrammar) : Prop where

  symbols : t.symbolIds ⊆ g.symbolIds

  rules : ∀ p ∈ t.symbolIds, p ∉ out.symbolIds → Synthesized p.1 p.2 →
    ruleAt g.rules p.2 = ruleAt t.rules p.2

theorem Within.first {t : ParsedGrammar} (h : Within out t g) (hu : u.Sound)
    (hg : Grown names u t) : Within out u g where
  symbols := fun _ hp => h.symbols (hg.symbols.subset hp)
  rules := by
    intro p hp hnew hsynth
    rw [h.rules p (hg.symbols.subset hp) hnew hsynth, hg.old p.2 (hu.id_lt hp)]

theorem Within.last {t : ParsedGrammar} (h : Within out t g) (hu : out.symbolIds ⊆ u.symbolIds) :
    Within u t g :=
  ⟨h.symbols, fun p hp hnew => h.rules p hp fun hold => hnew (hu hold)⟩

/-- A rule that was synthesized is found in the finished table. -/
theorem Within.rule_eq {t : ParsedGrammar} {id : ℕ} (h : Within out t g) (ht : t.Sound)
    (hout : out.Sound) (hg : Grown [] out t) (hge : out.symbolIds.length ≤ id)
    (hlt : id < t.symbolIds.length) : ∃ name, (name, id) ∈ g.symbolIds ∧ Synthesized name id ∧
      ruleAt g.rules id = ruleAt t.rules id := by
  obtain ⟨name, hmem⟩ := ht.exists_name hlt
  have hnew : (name, id) ∉ out.symbolIds := by
    intro hold
    have hid := hout.id_lt hold
    omega
  have hsynth : Synthesized name id := by
    rcases hg.new _ hmem hnew with ⟨_, hnil, _⟩ | ⟨hsynth, _⟩
    · cases hnil
    · exact hsynth
  exact ⟨name, h.symbols hmem, hsynth, h.rules _ hmem hnew hsynth⟩

/-- The reference to the optional rules of a repetition. -/
theorem Fits.optional (hfit : Fits env g V) {t : ParsedGrammar} (hin : Within out t g)
    (ht : t.Sound) (hout : out.Sound) (hg : Grown [] out t) {es : GrammarRule}
    (h : Inner out.symbolIds.length es) (halt : ∀ e ∈ es, e.gtype ≠ .alt) (minTimes : ℕ)
    (maxTimes : Option ℕ)
    (hlen : t.symbolIds.length =
      out.symbolIds.length + SequenceState.optionalCount minTimes maxTimes)
    (hrules : ∀ i < SequenceState.optionalCount minTimes maxTimes,
      ruleAt t.rules (out.symbolIds.length + i) =
        recRule es (recNext maxTimes.isNone out.symbolIds.length i))
    (hpos : 0 < SequenceState.optionalCount minTimes maxTimes) :
    V (out.symbolIds.length + SequenceState.optionalCount minTimes maxTimes - 1) =
      Gbnf.optional (seq V es) minTimes maxTimes := by
  cases maxTimes with
  | none =>
    obtain ⟨name, hmem, hsynth, heq⟩ := hin.rule_eq ht hout hg le_rfl (by omega)
    exact hfit.star hmem hsynth h halt (heq.trans (hrules 0 hpos))
  | some max =>
    rw [SequenceState.optionalCount] at hpos hlen hrules ⊢
    have hchain := chain_eq (M := seq V es) (W := fun i => V (out.symbolIds.length + i))
      (n := max - minTimes) ?_ ?_ (i := max - minTimes - 1) (by omega)
    · rw [Gbnf.optional, show max - minTimes + 1 = max - minTimes - 1 + 2 by omega, ← hchain]
      exact congrArg V (by omega)
    · intro hpos
      obtain ⟨name, hmem, hsynth, heq⟩ := hin.rule_eq ht hout hg le_rfl (by omega)
      have hspelled := hfit.spelled name _ hmem hsynth
      rw [heq, ← Nat.add_zero out.symbolIds.length, hrules 0 hpos, alts_recRule h halt] at hspelled
      simpa [recNext] using hspelled
    · intro i hi
      obtain ⟨name, hmem, hsynth, heq⟩ :=
        hin.rule_eq ht hout hg (Nat.le_add_right _ (i + 1)) (by omega)
      have hspelled := hfit.spelled name _ hmem hsynth
      rw [heq, hrules (i + 1) hi, alts_recRule h halt] at hspelled
      simpa [recNext, Nat.add_sub_assoc] using hspelled

/-- An item that is repeated. -/
theorem Reads.repeatItem (h : Reads V s A B L) (hs : s.Sound) (hname : Plain ruleName)
    (hfit : Fits env g V) (minTimes : ℕ) (maxTimes : Option ℕ)
    (hin : Within s.out (s.repeatItem ruleName minTimes maxTimes).out g) :
    Reads V (s.repeatItem ruleName minTimes maxTimes) A B
      (L ^ minTimes * optional L minTimes maxTimes) := by
  obtain ⟨out', nPrevRules, heq, hs', hg, hlen, hrules⟩ :=
    hs.repeatItem_spec hname minTimes maxTimes
  rw [heq] at hin ⊢
  have hseq : seq V (SequenceState.repeatedItem (s.rule.drop s.lastSymStart)
      s.out.symbolIds.length minTimes maxTimes) = L ^ minTimes * optional L minTimes maxTimes := by
    have hcopies : Unbroken (List.replicate minTimes (s.rule.drop s.lastSymStart)).flatten := by
      apply (hs.item.copies minTimes).unbroken
      intro e he
      obtain ⟨item, hitem, he⟩ := List.mem_flatten.mp he
      rw [List.eq_of_mem_replicate hitem] at he
      exact hs.noAlt e he
    rw [SequenceState.repeatedItem]
    split
    · rename_i hpos
      have hfresh : Fresh [⟨.ruleRef, s.out.symbolIds.length +
          SequenceState.optionalCount minTimes maxTimes - 1⟩] := rfl
      rw [seq_append hcopies hfresh, seq_copies hs.item hs.noAlt, h.item, seq_ref, seq_nil, mul_one,
        hfit.optional hin hs' hs.out hg hs.item hs.noAlt minTimes maxTimes hlen hrules hpos, h.item]
    · rename_i hzero
      have hone : optional L minTimes maxTimes = 1 := by
        cases maxTimes with
        | none => exact absurd Nat.zero_lt_one hzero
        | some max =>
          rw [SequenceState.optionalCount] at hzero
          simp [optional, show max - minTimes = 0 by omega]
      rw [List.append_nil, seq_copies hs.item hs.noAlt, h.item, hone, mul_one]
  rw [← hseq]
  exact h.replaced hs

namespace Body

/-- The rule a body is compiled to spells its language. -/
theorem compile_means {b : Body} (hname : Plain ruleName) (hb : ∀ name ∈ b.names, Plain name)
    (hs : s.Sound) (h : b.compile ruleName s = some t) (hfit : Fits env g V)
    (hin : Within s.out t.out g) (hr : Reads V s A B L) :
    alts V t.rule = b.denote env A B L := by
  induction b generalizing s t A B L with
  | done =>
    cases h
    exact hr.alts hs
  | atom a rest ih =>
    have hpushed := hr.pushed hs a.elements 1 s.out
    rw [a.seq_elements] at hpushed
    exact ih hb (hs.pushItem a) h hin hpushed
  | ref name rest ih =>
    have hplain : Plain name := hb name (by simp [names])
    have hrest : ∀ n ∈ rest.names, Plain n := fun n hn => hb n (by simp [names, hn])
    obtain ⟨hs', hg⟩ := hs.pushRef hplain
    obtain ⟨_, hg'⟩ := compile_sound hname hrest hs' h
    have hmem := hin.symbols (hg'.symbols.subset (hs.out.getSymbolId hplain).2)
    have hpushed := hr.pushed hs [⟨.ruleRef, (s.out.getSymbolId name).1⟩] 1
      (s.out.getSymbolId name).2
    rw [seq_ref, seq_nil, mul_one, hfit.named name _ hmem hplain] at hpushed
    exact ih hrest hs' h (hin.last hg.symbols.subset) hpushed
  | group inner rest ihInner ih =>
    have hinnerNames : ∀ n ∈ inner.names, Plain n := fun n hn => hb n (by simp [names, hn])
    have hrest : ∀ n ∈ rest.names, Plain n := fun n hn => hb n (by simp [names, hn])
    obtain ⟨name, hsynth, hnew, hgen⟩ := hs.out.toInterned.generateSymbolId hname
    simp only [compile, hgen] at h
    obtain ⟨u, hu, h⟩ := Option.bind_eq_some_iff.mp h
    have happ := hs.out.appended hnew (.inr hsynth)
    obtain ⟨hus, hug⟩ := compile_sound hname hinnerNames (.fresh happ .nil) hu
    obtain ⟨hs', hg⟩ := hs.pushGroup hus hsynth hug
    obtain ⟨_, hg'⟩ := compile_sound hname hrest hs' h
    have hfirst := hin.first hs'.out hg'
    have hself : (name, s.out.symbolIds.length) ∈ u.out.symbolIds :=
      hug.symbols.subset (by simp [ParsedGrammar.appended, SequenceState.fresh])
    have hinner : Within (s.out.appended name) u.out g := by
      refine ⟨hfirst.symbols, fun p hp hold hsynth' => ?_⟩
      have hne : p.2 ≠ s.out.symbolIds.length := by
        intro hid
        have hpn : p.1 = name := hus.out.id_unique hp (hid ▸ hself)
        refine hold (List.mem_append_right _ (List.mem_singleton.mpr ?_))
        exact Prod.ext hpn hid
      have hrule := hfirst.rules p hp (fun hin => hold (List.mem_append_left _ hin)) hsynth'
      rw [hrule]
      exact (ruleAt_addRule _ _).trans (if_neg hne)
    have hvalue : V s.out.symbolIds.length = inner.denote env 0 1 1 := by
      have hgroup := ihInner hinnerNames (.fresh happ .nil) hu hinner (.fresh (.inl ⟨rfl, rfl⟩))
      rw [hfit.spelled name _ (hfirst.symbols hself) hsynth,
        hfirst.rules _ hself (fun hold => hnew _ hold rfl) hsynth, ← hgroup]
      refine (congrArg (alts V) ((ruleAt_addRule _ _).trans (if_pos rfl))).trans ?_
      exact alts_append_end hus.inner.noEnd
    have hpushed := hr.pushed hs [⟨.ruleRef, s.out.symbolIds.length⟩]
      (max (u.out.symbolIds.length - s.out.symbolIds.length) 1)
      (s.pushGroup s.out.symbolIds.length u).out
    rw [seq_ref, seq_nil, mul_one, hvalue] at hpushed
    exact ih hrest hs' h (hin.last hg.symbols.subset) hpushed
  | repeated minTimes maxTimes rest ih =>
    rw [compile] at h
    split at h
    · obtain ⟨hs', hg⟩ := hs.repeatItem hname minTimes maxTimes
      obtain ⟨_, hg'⟩ := compile_sound hname (b := rest) hb hs' h
      exact ih hb hs' h (hin.last hg.symbols.subset)
        (hr.repeatItem hs hname hfit minTimes maxTimes (hin.first hs'.out hg'))
    · cases h
  | alt rest ih => exact ih hb hs.nextAlternate h hin (hr.nextAlternate hs)

end Body

namespace Lines

variable {lines : Lines} {name : SymbolName} {id : ℕ}

/-- What the later lines leave of a table. -/
structure Later (out g : ParsedGrammar) : Prop where

  symbols : out.symbolIds ⊆ g.symbolIds

  rules : ∀ p ∈ out.symbolIds, Synthesized p.1 p.2 → ruleAt g.rules p.2 = ruleAt out.rules p.2

theorem compile_later (hplain : ∀ line ∈ lines, Plain line.1 ∧ ∀ name ∈ line.2.names, Plain name)
    (hs : out.Sound) (h : lines.compile out = some g) : g.Sound ∧ Later out g := by
  induction lines generalizing out with
  | nil =>
    cases h
    exact ⟨hs, fun _ hp => hp, fun _ _ _ => rfl⟩
  | cons line lines ih =>
    obtain ⟨out', hline, h⟩ := Option.bind_eq_some_iff.mp h
    obtain ⟨hname, hbody⟩ := hplain line (by simp)
    obtain ⟨t, i, hts, hg, hmem, rule, hrule, rfl⟩ := compileLine_sound hname hbody hs hline
    obtain ⟨hgs, hlater⟩ := ih (fun l hl => hplain l (by simp [hl]))
      (hts.addRule (hts.id_lt hmem) hrule) h
    refine ⟨hgs, fun p hp => hlater.symbols (hg.symbols.subset hp), fun p hp hsynth => ?_⟩
    have hne : p.2 ≠ i := by
      intro hid
      have hpn : p.1 = line.1 := hts.id_unique (hg.symbols.subset hp) (hid ▸ hmem)
      exact hsynth.not_plain (hpn ▸ hname)
    rw [hlater.rules p (hg.symbols.subset hp) hsynth, ruleAt_addRule, if_neg hne,
      hg.old p.2 (hs.id_lt hp)]

/-- In the finished table the rule of a name spells its last body, or is the one from before. -/
theorem compile_means (hplain : ∀ line ∈ lines, Plain line.1 ∧ ∀ name ∈ line.2.names, Plain name)
    (hs : out.Sound) (h : lines.compile out = some g) (hfit : Fits env g V)
    (hmem : (name, id) ∈ g.symbolIds) (hname : Plain name) :
    (∀ b, lines.body name = some b → alts V (ruleAt g.rules id) = b.language env) ∧
      (lines.body name = none → ruleAt g.rules id = ruleAt out.rules id) := by
  induction lines generalizing out with
  | nil =>
    cases h
    exact ⟨fun _ hb => (by cases hb), fun _ => rfl⟩
  | cons line lines ih =>
    obtain ⟨out', hline, h⟩ := Option.bind_eq_some_iff.mp h
    have hrest : ∀ l ∈ lines, Plain l.1 ∧ ∀ name ∈ l.2.names, Plain name :=
      fun l hl => hplain l (by simp [hl])
    obtain ⟨hlinePlain, hbody⟩ := hplain line (by simp)
    obtain ⟨t, ht, rfl⟩ := Option.map_eq_some_iff.mp hline
    obtain ⟨hs', hself⟩ := hs.getSymbolId hlinePlain
    have hgrown := hs.getSymbolId_grown hlinePlain
    obtain ⟨hts, htg⟩ := Body.compile_sound hlinePlain hbody (.fresh hs' .nil) ht
    have hselfT := htg.symbols.subset hself
    have hshaped : Shaped t.out.symbolIds.length (t.rule ++ [⟨.ruleEnd, 0⟩]) :=
      ⟨t.rule, rfl, hts.inner⟩
    have hadded := hts.out.addRule (hts.out.id_lt hselfT) hshaped
    obtain ⟨hgs, hlater⟩ := compile_later hrest hadded h
    obtain ⟨ihSome, ihNone⟩ := ih hrest hadded h
    have hin : Within (out.getSymbolId line.1).2 t.out g := by
      refine ⟨hlater.symbols, fun p hp _ hsynth => ?_⟩
      have hne : p.2 ≠ (out.getSymbolId line.1).1 := by
        intro hid
        have hpn : p.1 = line.1 := hts.out.id_unique hp (hid ▸ hselfT)
        exact hsynth.not_plain (hpn ▸ hlinePlain)
      rw [hlater.rules p hp hsynth, ruleAt_addRule, if_neg hne]
    by_cases heq : line.1 = name
    · refine ⟨fun b hb => ?_, fun hb => ?_⟩
      · rw [body, if_pos heq] at hb
        cases hlast : body lines name with
        | some b' =>
          rw [hlast, Option.some_or] at hb
          exact ihSome b (hlast.trans hb)
        | none =>
          rw [hlast, Option.none_or] at hb
          obtain rfl := Option.some.inj hb
          obtain rfl : id = (out.getSymbolId line.1).1 :=
            hgs.name_unique (heq ▸ hmem) (hlater.symbols hselfT)
          rw [ihNone hlast, ruleAt_addRule, if_pos rfl, alts_append_end hts.inner.noEnd]
          exact Body.compile_means hlinePlain hbody (.fresh hs' .nil) ht hfit hin
            (.fresh (.inl ⟨rfl, rfl⟩))
      · rw [body, if_pos heq] at hb
        cases hlast : body lines name <;> rw [hlast] at hb <;> cases hb
    · rw [body, if_neg heq, Option.or_none]
      refine ⟨ihSome, fun hnone => ?_⟩
      have hne : id ≠ (out.getSymbolId line.1).1 := by
        rintro rfl
        exact heq (hgs.id_unique (hlater.symbols hselfT) hmem)
      rw [ihNone hnone, ruleAt_addRule, if_neg hne]
      have htotal := hgrown.trans hs' hts.out htg
      by_cases hold : id < out.symbolIds.length
      · exact htotal.old id hold
      · rw [hs.ruleAt_new (not_lt.mp hold)]
        by_cases hnew : id < t.out.symbolIds.length
        · obtain ⟨n, hn⟩ := hts.out.exists_name hnew
          obtain rfl : n = name := hgs.id_unique (hlater.symbols hn) hmem
          rcases htotal.new _ hn fun hin => hold (hs.id_lt hin) with ⟨_, _, hnil⟩ | ⟨hsynth, _⟩
          · exact hnil
          · exact (hsynth.not_plain hname).elim
        · exact hts.out.ruleAt_new (not_lt.mp hnew)

end Lines

/-- A least solution fits, where the synthesized rules keep their equations. -/
theorem Fits.of_lfp {F : (ℕ → Language ℕ) →o (ℕ → Language ℕ)}
    (hnamed : ∀ name id, (name, id) ∈ g.symbolIds → Plain name → OrderHom.lfp F id = env name)
    (hrule : ∀ name id, (name, id) ∈ g.symbolIds → Synthesized name id →
      ∀ W, F W id = alts W (ruleAt g.rules id)) : Fits env g (OrderHom.lfp F) where
  named := hnamed
  spelled := fun name id hmem hsynth => (lfp_eq F id).trans (hrule name id hmem hsynth _)
  least := fun name id hmem hsynth _ hle hpre =>
    lfp_unique hle ((hrule name id hmem hsynth _).trans_le hpre)

/-- The language a table derives for a name. -/
def ParsedGrammar.language (g : ParsedGrammar) (name : SymbolName) : Language ℕ :=
  ((g.symbolId name).map fun id => OrderHom.lfp (equations g.rules) id).getD 1

open Classical in
/-- The languages of `env` for the symbols of its names. -/
noncomputable def given (g : ParsedGrammar) (env : SymbolName → Language ℕ) (id : ℕ) :
    Option (Language ℕ) :=
  if h : ∃ name, Plain name ∧ (name, id) ∈ g.symbolIds then some (env h.choose) else none

section Given

variable {name : SymbolName} {id : ℕ}

theorem given_named (hg : g.Sound) (hmem : (name, id) ∈ g.symbolIds) (hname : Plain name) :
    given g env id = some (env name) := by
  have h : ∃ name, Plain name ∧ (name, id) ∈ g.symbolIds := ⟨name, hname, hmem⟩
  rw [given, dif_pos h, hg.id_unique h.choose_spec.2 hmem]

theorem given_synthesized (hg : g.Sound) (hmem : (name, id) ∈ g.symbolIds)
    (hsynth : Synthesized name id) : given g env id = none := by
  apply dif_neg
  rintro ⟨n, hplain, hn⟩
  exact hsynth.not_plain (hg.id_unique hn hmem ▸ hplain)

end Given

section Texts

variable {src : List UInt8} {fuel : ℕ} {lines : Lines} {name : SymbolName}

theorem Lines.body_plain (hplain : ∀ line ∈ lines, Plain line.1 ∧ ∀ name ∈ line.2.names, Plain name)
    {b : Body} (h : lines.body name = some b) : Plain name ∧ name ∈ lines.defs := by
  induction lines with
  | nil => cases h
  | cons line lines ih =>
    have hrest := ih fun l hl => hplain l (by simp [hl])
    rw [body] at h
    cases hlast : body lines name with
    | some b' =>
      obtain ⟨hp, hmem⟩ := hrest (hlast.trans (by rw [hlast, Option.some_or] at h; exact h))
      exact ⟨hp, List.mem_cons_of_mem _ hmem⟩
    | none =>
      rw [hlast, Option.none_or] at h
      split at h
      · rename_i heq
        exact ⟨heq ▸ (hplain line (by simp)).1, by simp [defs, heq]⟩
      · cases h

open Classical in
/-- The table a text compiles to derives the least solution of the equations of the text. -/
theorem parse_language (h : parse src fuel = some (.ok g)) :
    ∃ lines, readLines src fuel = some (.ok lines) ∧
      ∀ name, Plain name → g.language name = OrderHom.lfp lines.equations name := by
  obtain ⟨lines, hread, hcompile, _⟩ := parse_ok_iff.mp h
  have hplain := readRules_plain hread
  have htabled := Lines.compile_tabled hplain tabled_empty hcompile
  have hsound : g.Sound := htabled.toSound
  refine ⟨lines, hread, fun name hname => le_antisymm ?_ ?_⟩
  · -- the least solution of the text, given to the names of the table
    have hfit : Fits (OrderHom.lfp lines.equations) g
        (OrderHom.lfp (fix (equations g.rules) (given g (OrderHom.lfp lines.equations)))) :=
      .of_lfp (fun n i hmem hn => lfp_given (given_named hsound hmem hn))
        fun n i hmem hsynth W => by
          change (given g _ i).getD (alts W (ruleAt g.rules i)) = _
          rw [given_synthesized hsound hmem hsynth, Option.getD_none]
    have hle : OrderHom.lfp (equations g.rules) ≤
        OrderHom.lfp (fix (equations g.rules) (given g (OrderHom.lfp lines.equations))) := by
      apply lfp_le_fix
      intro i l hi
      by_cases hex : ∃ n, Plain n ∧ (n, i) ∈ g.symbolIds
      · obtain ⟨n, hn, hmem⟩ := hex
        rw [given_named hsound hmem hn] at hi
        obtain rfl := Option.some.inj hi
        obtain ⟨hsome, hnone⟩ := Lines.compile_means hplain sound_empty hcompile hfit hmem hn
        rw [lfp_eq lines.equations n]
        change alts _ (ruleAt g.rules i) ≤ ((lines.body n).map _).getD 1
        cases hb : lines.body n with
        | some b => exact (hsome b hb).le
        | none =>
          rw [hnone hb]
          exact (alts_of_unbroken (List.forall_mem_nil _)).trans_le seq_nil.le
      · rw [given, dif_neg hex] at hi
        cases hi
    rw [ParsedGrammar.language]
    cases hid : g.symbolId name with
    | some id =>
      have hmem := hsound.symbolId_eq_some_iff.mp hid
      exact (hle id).trans_eq (hfit.named name id hmem hname)
    | none =>
      have hbody : lines.body name = none := by
        by_contra hne
        obtain ⟨b, hb⟩ := Option.ne_none_iff_exists'.mp hne
        obtain ⟨id, hmem⟩ := htabled.symbols name
          (List.mem_append_left _ (Lines.body_plain hplain hb).2)
        rw [hsound.symbolId_eq_some_iff.mpr hmem] at hid
        cases hid
      rw [Option.map_none, Option.getD_none, lfp_eq]
      change 1 ≤ ((lines.body name).map _).getD 1
      rw [hbody]
      exact le_rfl
  · -- the languages of the table, given to the names of the text
    let env : SymbolName → Language ℕ := fun n => if Plain n then g.language n else 1
    have hnamed : ∀ n id, (n, id) ∈ g.symbolIds → Plain n →
        OrderHom.lfp (equations g.rules) id = env n := by
      intro n id hmem hn
      simp [env, hn, ParsedGrammar.language, hsound.symbolId_eq_some_iff.mpr hmem]
    have hfit : Fits env g (OrderHom.lfp (equations g.rules)) :=
      .of_lfp hnamed fun _ _ _ _ _ => rfl
    have hle : OrderHom.lfp lines.equations ≤ env := by
      apply OrderHom.lfp_le
      intro n
      change ((lines.body n).map (Body.language env)).getD 1 ≤ env n
      cases hb : lines.body n with
      | some b =>
        obtain ⟨hn, hdef⟩ := Lines.body_plain hplain hb
        obtain ⟨id, hmem⟩ := htabled.symbols n (List.mem_append_left _ hdef)
        rw [← hnamed n id hmem hn, lfp_eq]
        exact ((Lines.compile_means hplain sound_empty hcompile hfit hmem hn).1 b hb).ge
      | none =>
        by_cases hn : Plain n
        · rw [Option.map_none, Option.getD_none]
          simp only [env, if_pos hn, ParsedGrammar.language]
          cases hid : g.symbolId n with
          | none => exact le_rfl
          | some id =>
            have hmem := hsound.symbolId_eq_some_iff.mp hid
            have hrule := (Lines.compile_means hplain sound_empty hcompile hfit hmem hn).2 hb
            rw [Option.map_some, Option.getD_some, lfp_eq]
            change 1 ≤ alts _ (ruleAt g.rules id)
            rw [hrule]
            exact seq_nil.ge.trans_eq (alts_of_unbroken (List.forall_mem_nil _)).symm
        · simp [env, hn]
    have hname' := hle name
    simpa [env, hname] using hname'

end Texts

end Frink.Gbnf
