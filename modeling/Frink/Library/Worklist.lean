import Mathlib
import Frink.Library.Fuel

/-! # Depth-first worklists

A node is expanded into further nodes, emitted, or refused. The run of the
worklist emits exactly the emitting nodes that are reachable from its roots.
-/

namespace Frink

inductive Visit (ε α : Type) where
  | expand (next : List α)
  | emit
  | fail (e : ε)

namespace Worklist

open Relation Exec

variable {ε α : Type} [DecidableEq α]

/-- Nodes are taken from the top of `todo`; a node already `seen` is skipped. -/
def explore (visit : α → Visit ε α) : ℕ → List α → List α → List α → Exec ε (List α)
  | 0, _, _, _ => none
  | _ + 1, [], _, out => some (.ok out)
  | fuel + 1, x :: todo, seen, out =>
      if x ∈ seen then explore visit fuel todo seen out
      else
        match visit x with
        | .expand next => explore visit fuel (next.reverse ++ todo) (x :: seen) out
        | .emit => explore visit fuel todo (x :: seen) (if x ∈ out then out else out ++ [x])
        | .fail e => some (.error e)

omit [DecidableEq α] in
variable (visit : α → Visit ε α) in
def Succ (x y : α) : Prop := ∃ next, visit x = .expand next ∧ y ∈ next

omit [DecidableEq α] in
variable (visit : α → Visit ε α) in
/-- The emitting nodes a root leads to. -/
def Front (x y : α) : Prop := ReflTransGen (Succ visit) x y ∧ visit y = .emit

omit [DecidableEq α] in
variable (visit : α → Visit ε α) in
/-- A set of nodes the run has finished with, given what it has emitted. -/
def Settled (out S : List α) : Prop :=
  ∀ x ∈ S, (∀ y, Succ visit x y → y ∈ S) ∧ (visit x = .emit → x ∈ out) ∧ ∀ e, visit x ≠ .fail e

variable {visit : α → Visit ε α} {todo seen out res : List α} {x y : α} {e : ε}

omit [DecidableEq α] in
theorem succ_expand_iff {next : List α} (h : visit x = .expand next) :
    Succ visit x y ↔ y ∈ next := by
  simp [Succ, h]

omit [DecidableEq α] in
theorem not_succ_of_emit (h : visit x = .emit) : ¬ Succ visit x y := by
  rintro ⟨next, hn, _⟩
  rw [h] at hn
  cases hn

omit [DecidableEq α] in
theorem not_succ_of_fail (h : visit x = .fail e) : ¬ Succ visit x y := by
  rintro ⟨next, hn, _⟩
  rw [h] at hn
  cases hn

omit [DecidableEq α] in
theorem front_emit_iff (h : visit x = .emit) : Front visit x y ↔ y = x := by
  constructor
  · rintro ⟨hr, _⟩
    rcases ReflTransGen.cases_head hr with rfl | ⟨z, hz, _⟩
    · rfl
    · exact (not_succ_of_emit h hz).elim
  · rintro rfl
    exact ⟨.refl, h⟩

omit [DecidableEq α] in
theorem front_expand_iff {next : List α} (h : visit x = .expand next) :
    Front visit x y ↔ ∃ z ∈ next, Front visit z y := by
  constructor
  · rintro ⟨hr, he⟩
    rcases ReflTransGen.cases_head hr with rfl | ⟨z, hz, hr⟩
    · rw [h] at he; cases he
    · exact ⟨z, (succ_expand_iff h).mp hz, hr, he⟩
  · rintro ⟨z, hz, hr, he⟩
    exact ⟨.head ((succ_expand_iff h).mpr hz) hr, he⟩

theorem explore_stable (visit : α → Visit ε α) (todo seen out : List α) :
    Stable fun n => explore visit n todo seen out := by
  refine Stable.of_succ fun n => ?_
  induction n generalizing todo seen out with
  | zero => intro a h; exact nomatch h
  | succ n ih =>
    intro a h
    cases todo with
    | nil => exact h
    | cons x todo =>
      rw [explore] at h ⊢
      split at h
      · rename_i hx; rw [if_pos hx]; exact ih _ _ _ _ h
      · rename_i hx
        rw [if_neg hx]
        cases hv : visit x with
        | expand next => rw [hv] at h; exact ih _ _ _ _ h
        | emit => rw [hv] at h; exact ih _ _ _ _ h
        | fail e => rw [hv] at h; exact h

section Runs

theorem returns_explore_nil {r : Except ε (List α)} :
    Returns (fun n => explore visit n [] seen out) r ↔ r = .ok out := by
  constructor
  · rintro ⟨n, hn⟩
    cases n with
    | zero => exact nomatch hn
    | succ n => exact (Option.some.inj hn).symm
  · rintro rfl
    exact ⟨1, rfl⟩

theorem returns_explore_seen (h : x ∈ seen) {r : Except ε (List α)} :
    Returns (fun n => explore visit n (x :: todo) seen out) r ↔
      Returns (fun n => explore visit n todo seen out) r := by
  constructor
  · rintro ⟨n, hn⟩
    cases n with
    | zero => exact nomatch hn
    | succ n => exact ⟨n, by simpa [explore, h] using hn⟩
  · rintro ⟨n, hn⟩
    exact ⟨n + 1, by simpa [explore, h] using hn⟩

theorem returns_explore_expand (h : x ∉ seen) {next : List α} (hv : visit x = .expand next)
    {r : Except ε (List α)} :
    Returns (fun n => explore visit n (x :: todo) seen out) r ↔
      Returns (fun n => explore visit n (next.reverse ++ todo) (x :: seen) out) r := by
  constructor
  · rintro ⟨n, hn⟩
    cases n with
    | zero => exact nomatch hn
    | succ n => exact ⟨n, by simpa [explore, h, hv] using hn⟩
  · rintro ⟨n, hn⟩
    exact ⟨n + 1, by simpa [explore, h, hv] using hn⟩

theorem returns_explore_emit (h : x ∉ seen) (hv : visit x = .emit) {r : Except ε (List α)} :
    Returns (fun n => explore visit n (x :: todo) seen out) r ↔
      Returns (fun n => explore visit n todo (x :: seen)
        (if x ∈ out then out else out ++ [x])) r := by
  constructor
  · rintro ⟨n, hn⟩
    cases n with
    | zero => exact nomatch hn
    | succ n => exact ⟨n, by simpa [explore, h, hv] using hn⟩
  · rintro ⟨n, hn⟩
    exact ⟨n + 1, by simpa [explore, h, hv] using hn⟩

theorem returns_explore_fail (h : x ∉ seen) (hv : visit x = .fail e) {r : Except ε (List α)} :
    Returns (fun n => explore visit n (x :: todo) seen out) r ↔ r = .error e := by
  constructor
  · rintro ⟨n, hn⟩
    cases n with
    | zero => exact nomatch hn
    | succ n =>
      simp only [explore, h, if_false, hv] at hn
      exact (Option.some.inj hn).symm
  · rintro rfl
    exact ⟨1, by simp [explore, h, hv]⟩

end Runs

theorem mem_pushOnce_iff {l : List α} : y ∈ (if x ∈ l then l else l ++ [x]) ↔ y ∈ l ∨ y = x := by
  split <;> simp_all

theorem nodup_pushOnce {l : List α} (h : l.Nodup) : (if x ∈ l then l else l ++ [x]).Nodup := by
  split
  · exact h
  · rename_i hx
    rw [List.nodup_append]
    exact ⟨h, by simp, by rintro a ha b hb rfl; simp_all⟩

theorem explore_sound (h : Returns (fun n => explore visit n todo seen out) (.ok res)) :
    out ⊆ res ∧ ∀ y ∈ res, y ∈ out ∨ ∃ x ∈ todo, Front visit x y := by
  obtain ⟨n, hn : explore visit n todo seen out = _⟩ := h
  induction n generalizing todo seen out with
  | zero => exact nomatch hn
  | succ n ih =>
    cases todo with
    | nil => cases hn; exact ⟨List.Subset.refl _, fun y hy => .inl hy⟩
    | cons x todo =>
      rw [explore] at hn
      split at hn
      · obtain ⟨hs, hr⟩ := ih hn
        refine ⟨hs, fun y hy => (hr y hy).imp_right ?_⟩
        rintro ⟨z, hz, hf⟩
        exact ⟨z, by simp [hz], hf⟩
      · cases hv : visit x with
        | expand next =>
          rw [hv] at hn
          obtain ⟨hs, hr⟩ := ih hn
          refine ⟨hs, fun y hy => (hr y hy).imp_right ?_⟩
          rintro ⟨z, hz, hf⟩
          rcases List.mem_append.mp hz with hz | hz
          · exact ⟨x, by simp, (front_expand_iff hv).mpr ⟨z, by simpa using hz, hf⟩⟩
          · exact ⟨z, by simp [hz], hf⟩
        | emit =>
          rw [hv] at hn
          obtain ⟨hs, hr⟩ := ih hn
          refine ⟨fun y hy => hs (mem_pushOnce_iff.mpr (.inl hy)), fun y hy => ?_⟩
          rcases hr y hy with hy | ⟨z, hz, hf⟩
          · rcases mem_pushOnce_iff.mp hy with hy | rfl
            · exact .inl hy
            · exact .inr ⟨y, by simp, (front_emit_iff hv).mpr rfl⟩
          · exact .inr ⟨z, by simp [hz], hf⟩
        | fail e => rw [hv] at hn; exact nomatch hn

omit [DecidableEq α] in
variable (visit : α → Visit ε α) in
/-- A node already seen has its successors seen or waiting. -/
def Progress (seen todo out : List α) : Prop :=
  ∀ x ∈ seen, (∀ y, Succ visit x y → y ∈ seen ∨ y ∈ todo) ∧
    (visit x = .emit → x ∈ out) ∧ ∀ e, visit x ≠ .fail e

omit [DecidableEq α] in
theorem progress_nil : Progress visit [] todo out := by
  intro x hx
  exact nomatch hx

omit [DecidableEq α] in
theorem Progress.skip (h : Progress visit seen (x :: todo) out) (hx : x ∈ seen) :
    Progress visit seen todo out := by
  intro z hz
  obtain ⟨hsucc, hrest⟩ := h z hz
  refine ⟨fun y hy => ?_, hrest⟩
  rcases hsucc y hy with hy | hy
  · exact .inl hy
  · rcases List.mem_cons.mp hy with rfl | hy
    · exact .inl hx
    · exact .inr hy

omit [DecidableEq α] in
theorem Progress.expand {next : List α} (h : Progress visit seen (x :: todo) out)
    (hv : visit x = .expand next) : Progress visit (x :: seen) (next.reverse ++ todo) out := by
  intro z hz
  rcases List.mem_cons.mp hz with rfl | hz
  · refine ⟨fun y hy => .inr ?_, by simp [hv], by simp [hv]⟩
    simpa using Or.inl ((succ_expand_iff hv).mp hy)
  · obtain ⟨hsucc, hrest⟩ := h z hz
    refine ⟨fun y hy => ?_, hrest⟩
    rcases hsucc y hy with hy | hy
    · exact .inl (by simp [hy])
    · rcases List.mem_cons.mp hy with rfl | hy
      · exact .inl (by simp)
      · exact .inr (by simp [hy])

theorem Progress.emit (h : Progress visit seen (x :: todo) out) (hv : visit x = .emit) :
    Progress visit (x :: seen) todo (if x ∈ out then out else out ++ [x]) := by
  intro z hz
  rcases List.mem_cons.mp hz with rfl | hz
  · exact ⟨fun y hy => (not_succ_of_emit hv hy).elim,
      fun _ => mem_pushOnce_iff.mpr (.inr rfl), by simp [hv]⟩
  · obtain ⟨hsucc, hemit, hfail⟩ := h z hz
    refine ⟨fun y hy => ?_, fun he => mem_pushOnce_iff.mpr (.inl (hemit he)), hfail⟩
    rcases hsucc y hy with hy | hy
    · exact .inl (by simp [hy])
    · rcases List.mem_cons.mp hy with rfl | hy
      · exact .inl (by simp)
      · exact .inr hy

theorem explore_settled (h : Returns (fun n => explore visit n todo seen out) (.ok res))
    (hp : Progress visit seen todo out) : ∃ S, seen ⊆ S ∧ todo ⊆ S ∧ Settled visit res S := by
  obtain ⟨n, hn : explore visit n todo seen out = _⟩ := h
  induction n generalizing todo seen out with
  | zero => exact nomatch hn
  | succ n ih =>
    cases todo with
    | nil =>
      cases hn
      refine ⟨seen, List.Subset.refl _, by simp, fun x hx => ?_⟩
      obtain ⟨hsucc, hemit, hfail⟩ := hp x hx
      exact ⟨fun y hy => by simpa using hsucc y hy, hemit, hfail⟩
    | cons x todo =>
      rw [explore] at hn
      split at hn
      · rename_i hx
        obtain ⟨S, hs, ht, hS⟩ := ih (hp.skip hx) hn
        exact ⟨S, hs, List.cons_subset.mpr ⟨hs hx, ht⟩, hS⟩
      · cases hv : visit x with
        | expand next =>
          rw [hv] at hn
          obtain ⟨S, hs, ht, hS⟩ := ih (hp.expand hv) hn
          exact ⟨S, (List.cons_subset.mp hs).2, List.cons_subset.mpr
            ⟨(List.cons_subset.mp hs).1, (List.append_subset.mp ht).2⟩, hS⟩
        | emit =>
          rw [hv] at hn
          obtain ⟨S, hs, ht, hS⟩ := ih (hp.emit hv) hn
          exact ⟨S, (List.cons_subset.mp hs).2,
            List.cons_subset.mpr ⟨(List.cons_subset.mp hs).1, ht⟩, hS⟩
        | fail e => rw [hv] at hn; exact nomatch hn

theorem explore_nodup (h : Returns (fun n => explore visit n todo seen out) (.ok res))
    (hout : out.Nodup) : res.Nodup := by
  obtain ⟨n, hn : explore visit n todo seen out = _⟩ := h
  induction n generalizing todo seen out with
  | zero => exact nomatch hn
  | succ n ih =>
    cases todo with
    | nil => cases hn; exact hout
    | cons x todo =>
      rw [explore] at hn
      split at hn
      · exact ih hout hn
      · cases hv : visit x with
        | expand next => rw [hv] at hn; exact ih hout hn
        | emit => rw [hv] at hn; exact ih (nodup_pushOnce hout) hn
        | fail e => rw [hv] at hn; exact nomatch hn

theorem explore_error (h : Returns (fun n => explore visit n todo seen out) (.error e)) :
    ∃ x ∈ todo, ∃ y, ReflTransGen (Succ visit) x y ∧ visit y = .fail e := by
  obtain ⟨n, hn : explore visit n todo seen out = _⟩ := h
  induction n generalizing todo seen out with
  | zero => exact nomatch hn
  | succ n ih =>
    cases todo with
    | nil => cases hn
    | cons x todo =>
      rw [explore] at hn
      split at hn
      · obtain ⟨z, hz, hy⟩ := ih hn
        exact ⟨z, by simp [hz], hy⟩
      · cases hv : visit x with
        | expand next =>
          rw [hv] at hn
          obtain ⟨z, hz, y, hr, hy⟩ := ih hn
          rcases List.mem_append.mp hz with hz | hz
          · have hxz : Succ visit x z := (succ_expand_iff hv).mpr (by simpa using hz)
            exact ⟨x, by simp, y, .head hxz hr, hy⟩
          · exact ⟨z, by simp [hz], y, hr, hy⟩
        | emit =>
          rw [hv] at hn
          obtain ⟨z, hz, hy⟩ := ih hn
          exact ⟨z, by simp [hz], hy⟩
        | fail e' =>
          rw [hv] at hn
          cases hn
          exact ⟨x, by simp, x, .refl, hv⟩

/-- What was emitted before has no say in whether a worklist ends well. -/
theorem explore_ok_of_ok (h : Returns (fun n => explore visit n todo seen out) (.ok res))
    (out' : List α) : ∃ res', Returns (fun n => explore visit n todo seen out') (.ok res') := by
  obtain ⟨n, hn : explore visit n todo seen out = _⟩ := h
  induction n generalizing todo seen out out' with
  | zero => exact nomatch hn
  | succ n ih =>
    cases todo with
    | nil => exact ⟨out', returns_explore_nil.mpr rfl⟩
    | cons x todo =>
      rw [explore] at hn
      split at hn
      · rename_i hx
        obtain ⟨res', hr⟩ := ih out' hn
        exact ⟨res', (returns_explore_seen hx).mpr hr⟩
      · rename_i hx
        cases hv : visit x with
        | expand next =>
          rw [hv] at hn
          obtain ⟨res', hr⟩ := ih out' hn
          exact ⟨res', (returns_explore_expand hx hv).mpr hr⟩
        | emit =>
          rw [hv] at hn
          obtain ⟨res', hr⟩ := ih (if x ∈ out' then out' else out' ++ [x]) hn
          exact ⟨res', (returns_explore_emit hx hv).mpr hr⟩
        | fail e =>
          rw [hv] at hn
          exact nomatch hn

/-- A worklist ends when nothing it starts from expands forever. -/
theorem explore_halts (h : ∀ x ∈ todo, Acc (fun y x => Succ visit x y) x) (seen out : List α) :
    Halts fun n => explore visit n todo seen out := by
  have step : ∀ x, Acc (fun y x => Succ visit x y) x → ∀ todo,
      (∀ seen out, Halts fun n => explore visit n todo seen out) →
      ∀ seen out, Halts fun n => explore visit n (x :: todo) seen out := by
    intro x hx
    induction hx with
    | intro x _ ih =>
      intro todo htodo seen out
      by_cases hs : x ∈ seen
      · obtain ⟨r, hr⟩ := htodo seen out
        exact ⟨r, (returns_explore_seen hs).mpr hr⟩
      cases hv : visit x with
      | expand next =>
        have hnext : ∀ l : List α, (∀ y ∈ l, y ∈ next) →
            ∀ seen out, Halts fun n => explore visit n (l ++ todo) seen out := by
          intro l
          induction l with
          | nil => intro _; exact htodo
          | cons y l ihl =>
            intro hl
            exact ih y ((succ_expand_iff hv).mpr (hl y (by simp))) _
              (ihl fun z hz => hl z (by simp [hz]))
        obtain ⟨r, hr⟩ := hnext next.reverse (by simp) (x :: seen) out
        exact ⟨r, (returns_explore_expand hs hv).mpr hr⟩
      | emit =>
        obtain ⟨r, hr⟩ := htodo (x :: seen) (if x ∈ out then out else out ++ [x])
        exact ⟨r, (returns_explore_emit hs hv).mpr hr⟩
      | fail e => exact ⟨_, (returns_explore_fail hs hv).mpr rfl⟩
  induction todo generalizing seen out with
  | nil => exact ⟨_, returns_explore_nil.mpr rfl⟩
  | cons x todo ih =>
    exact step x (h x (by simp)) todo (fun seen out => ih (fun y hy => h y (by simp [hy])) seen out)
      seen out

omit [DecidableEq α] in
theorem Settled.reach {S : List α} (hS : Settled visit out S) (hx : x ∈ S)
    (hr : ReflTransGen (Succ visit) x y) : y ∈ S := by
  induction hr with
  | refl => exact hx
  | tail _ hbc ih => exact (hS _ ih).1 _ hbc

omit [DecidableEq α] in
/-- A node that cannot be expanded forever leads to finitely many nodes. -/
theorem finite_reach_of_acc (h : Acc (fun y x => Succ visit x y) x) :
    {y | ReflTransGen (Succ visit) x y}.Finite := by
  induction h with
  | intro x _ ih =>
    have hsub : {y | ReflTransGen (Succ visit) x y} ⊆
        insert x (⋃ z ∈ {z | Succ visit x z}, {y | ReflTransGen (Succ visit) z y}) := by
      intro y hy
      rcases ReflTransGen.cases_head hy with rfl | ⟨z, hz, hr⟩
      · exact Set.mem_insert _ _
      · exact Set.mem_insert_of_mem _ (Set.mem_biUnion hz hr)
    have hnext : {z | Succ visit x z}.Finite := by
      cases hv : visit x with
      | expand next => exact next.finite_toSet.subset fun z hz => (succ_expand_iff hv).mp hz
      | emit => exact Set.finite_empty.subset fun z hz => not_succ_of_emit hv hz
      | fail e => exact Set.finite_empty.subset fun z hz => not_succ_of_fail hv hz
    exact ((hnext.biUnion fun z hz => ih z hz).insert x).subset hsub

section Root

variable (h : Returns (fun n => explore visit n [x] [] out) (.ok res))
include h

theorem exists_settled : ∃ S, x ∈ S ∧ Settled visit res S := by
  obtain ⟨S, _, hx, hS⟩ := explore_settled h progress_nil
  exact ⟨S, hx (by simp), hS⟩

theorem mem_explore_iff : y ∈ res ↔ y ∈ out ∨ Front visit x y := by
  obtain ⟨hsub, hsound⟩ := explore_sound h
  obtain ⟨S, hx, hS⟩ := exists_settled h
  constructor
  · intro hy
    simpa using hsound y hy
  · rintro (hy | ⟨hr, he⟩)
    · exact hsub hy
    · exact (hS y (hS.reach hx hr)).2.1 he

/-- Only finitely many nodes are reachable from a root whose run ended. -/
theorem finite_reach : {y | ReflTransGen (Succ visit) x y}.Finite := by
  obtain ⟨S, hx, hS⟩ := exists_settled h
  exact S.finite_toSet.subset fun y hy => hS.reach hx hy

end Root

end Worklist

end Frink

/-! ## Relations without cycles

A relation with finitely many sources and no cycle cannot be followed forever,
and a cycle either stays within a subrelation or takes an edge outside it.
-/

namespace Frink.Acyclic

open Relation

variable {α : Type} {r v : α → α → Prop}

theorem acc_of_finite (hfin : {x | ∃ y, r x y}.Finite) (hacyclic : ∀ x, ¬ TransGen r x x) (x : α) :
    Acc (fun y x => r x y) x := by
  let s : Set α := {x | ∃ y, r x y}
  have hirrefl : Std.Irrefl (Function.swap (TransGen r)) := ⟨hacyclic⟩
  have htrans : IsTrans α (Function.swap (TransGen r)) := ⟨fun _ _ _ hab hbc => hbc.trans hab⟩
  have horder : IsStrictOrder α (Function.swap (TransGen r)) := {}
  have hwf : s.WellFoundedOn (Function.swap (TransGen r)) := hfin.wellFoundedOn
  by_cases hx : x ∈ s
  · refine hwf.induction hx fun x _ ih => Acc.intro x fun y hy => ?_
    by_cases hys : y ∈ s
    · exact ih y hys (.single hy)
    · exact Acc.intro y fun z hz => (hys ⟨z, hz⟩).elim
  · exact Acc.intro x fun y hy => (hx ⟨y, hy⟩).elim

/-- A path stays within a subrelation, or takes an edge outside it. -/
theorem transGen_or_exists {x y : α} (h : TransGen r x y) :
    TransGen v x y ∨ ∃ a b, ReflTransGen r x a ∧ r a b ∧ ¬ v a b ∧ ReflTransGen r b y := by
  induction h with
  | @single b hxy =>
    by_cases hv : v x b
    · exact .inl (.single hv)
    · exact .inr ⟨_, _, .refl, hxy, hv, .refl⟩
  | @tail b c hxb hbc ih =>
    rcases ih with hv | ⟨a, a', hxa, haa', hv, hb⟩
    · by_cases hvbc : v b c
      · exact .inl (hv.tail hvbc)
      · exact .inr ⟨b, c, hxb.to_reflTransGen, hbc, hvbc, .refl⟩
    · exact .inr ⟨a, a', hxa, haa', hv, hb.tail hbc⟩

/-- A cycle outside an acyclic subrelation goes through an edge outside it. -/
theorem acyclic_iff (hv : ∀ x, ¬ TransGen v x x) :
    (∀ x, ¬ TransGen r x x) ↔ ¬ ∃ a b, (r a b ∧ ¬ v a b) ∧ ReflTransGen r b a := by
  constructor
  · rintro h ⟨a, b, ⟨hab, _⟩, hba⟩
    exact h a (.head' hab hba)
  · rintro h x hx
    rcases transGen_or_exists (v := v) hx with hvx | ⟨a, b, hxa, hab, hvab, hbx⟩
    · exact hv x hvx
    · exact h ⟨a, b, ⟨hab, hvab⟩, hbx.trans hxa⟩

end Frink.Acyclic
