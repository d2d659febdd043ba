import Mathlib

/-! # Best paths forward

Positions in a row, and edges that lead forward, each with a label and a weight. Visiting the
positions in order and keeping the best way into every position finds the best path to each; the
way back from a position always ends at the start.
-/

namespace Frink.BestPath

variable {ι S : Type*}

structure Edge (ι S : Type*) where

  target : ℕ

  label : ι

  weight : S

/-- The best way into a position so far: by which edge, from where, and the score, if there is a
way. -/
structure Cell (ι S : Type*) where

  label : ι

  source : ℕ

  score : Option S

/-- A score that is better than what is there. -/
def beats [LT S] [DecidableLT S] (t : S) : Option S → Bool
  | none => true
  | some s => decide (s < t)

section Search

variable [AddCommMonoid S] [LinearOrder S]

def relax (source : ℕ) (base : S) (cells : ℕ → Cell ι S) (e : Edge ι S) : ℕ → Cell ι S :=
  if beats (base + e.weight) (cells e.target).score then
    Function.update cells e.target ⟨e.label, source, some (base + e.weight)⟩
  else cells

/-- Tries the edges of a position that has been reached. -/
def visit (edges : ℕ → List (Edge ι S)) (cells : ℕ → Cell ι S) (i : ℕ) : ℕ → Cell ι S :=
  match (cells i).score with
  | none => cells
  | some base => (edges i).foldl (relax i base) cells

/-- Visits the first `n` positions. -/
def search (edges : ℕ → List (Edge ι S)) (cells : ℕ → Cell ι S) (n : ℕ) : ℕ → Cell ι S :=
  (List.range n).foldl (visit edges) cells

end Search

/-- The labels on the way back from a position, none when `fuel` steps are not enough. -/
def trace (cells : ℕ → Cell ι S) : ℕ → ℕ → List ι → Option (List ι)
  | _, 0, labels => some labels
  | 0, _ + 1, _ => none
  | fuel + 1, i + 1, labels =>
      trace cells fuel (cells (i + 1)).source ((cells (i + 1)).label :: labels)

/-- A path from the start, with its labels and its weight. -/
inductive Path [AddCommMonoid S] (edges : ℕ → List (Edge ι S)) : ℕ → List ι → S → Prop

  | nil : Path edges 0 [] 0

  | snoc {i : ℕ} {labels : List ι} {s : S} {e : Edge ι S} :
      Path edges i labels s → e ∈ edges i → Path edges e.target (labels ++ [e.label]) (s + e.weight)

variable [AddCommMonoid S] [LinearOrder S]

/-- Nothing is better than what the cell has. -/
def Covers (cell : Cell ι S) (s : S) : Prop := ∃ t, cell.score = some t ∧ s ≤ t

section Relax

variable {source j : ℕ} {base s : S} {cells : ℕ → Cell ι S} {e : Edge ι S}

theorem relax_of_ne (h : j ≠ e.target) : relax source base cells e j = cells j := by
  unfold relax
  split
  · exact Function.update_of_ne h _ _
  · rfl

theorem relax_target :
    relax source base cells e e.target = ⟨e.label, source, some (base + e.weight)⟩ ∨
      relax source base cells e e.target = cells e.target := by
  unfold relax
  split
  · exact .inl (Function.update_self _ _ _)
  · exact .inr rfl

/-- A cell only gets better. -/
theorem Covers.relax (h : Covers (cells j) s) : Covers (relax source base cells e j) s := by
  obtain ⟨t, ht, hst⟩ := h
  by_cases hj : j = e.target
  · subst hj
    unfold BestPath.relax
    split
    · rename_i hbeats
      rw [ht, beats, decide_eq_true_iff] at hbeats
      exact ⟨_, by rw [Function.update_self], hst.trans hbeats.le⟩
    · exact ⟨t, ht, hst⟩
  · rw [relax_of_ne hj]
    exact ⟨t, ht, hst⟩

theorem covers_relax : Covers (relax source base cells e e.target) (base + e.weight) := by
  unfold relax
  split
  · exact ⟨_, by rw [Function.update_self], le_rfl⟩
  · rename_i hbeats
    cases hscore : (cells e.target).score with
    | none =>
      rw [hscore] at hbeats
      exact absurd rfl hbeats
    | some t =>
      rw [hscore, beats, decide_eq_true_iff] at hbeats
      exact ⟨t, hscore, le_of_not_gt hbeats⟩

end Relax

section Relaxed

variable {source j : ℕ} {base s : S} {cells : ℕ → Cell ι S} {es : List (Edge ι S)}

/-- What trying some edges from one position does: cells that are not a target stay, all cells only
get better, every edge is covered, and a cell that changed is entered by one of the edges. -/
theorem foldl_relax (source : ℕ) (base : S) (cells : ℕ → Cell ι S) (es : List (Edge ι S)) :
    (∀ j, (∀ e ∈ es, e.target ≠ j) → es.foldl (relax source base) cells j = cells j) ∧
    (∀ j s, Covers (cells j) s → Covers (es.foldl (relax source base) cells j) s) ∧
    (∀ e ∈ es, Covers (es.foldl (relax source base) cells e.target) (base + e.weight)) ∧
    ∀ j, es.foldl (relax source base) cells j = cells j ∨ ∃ e ∈ es, e.target = j ∧
      es.foldl (relax source base) cells j = ⟨e.label, source, some (base + e.weight)⟩ := by
  induction es generalizing cells with
  | nil => exact ⟨fun _ _ => rfl, fun _ _ h => h, nofun, fun _ => .inl rfl⟩
  | cons e es ih =>
    obtain ⟨hsame, hbetter, hcovers, hchanged⟩ := ih (relax source base cells e)
    rw [List.foldl_cons]
    refine ⟨fun j hj => ?_, fun j s hs => hbetter j s hs.relax, ?_, fun j => ?_⟩
    · obtain ⟨he, hes⟩ := List.forall_mem_cons.mp hj
      rw [hsame j hes, relax_of_ne (Ne.symm he)]
    · rintro d hd
      rcases List.mem_cons.mp hd with rfl | hd
      · exact hbetter _ _ covers_relax
      · exact hcovers d hd
    · rcases hchanged j with hkept | ⟨d, hd, htarget, hcell⟩
      · by_cases hj : j = e.target
        · subst hj
          rcases @relax_target ι S _ _ source base cells e with hnew | hold
          · exact .inr ⟨e, List.mem_cons_self, rfl, hkept.trans hnew⟩
          · exact .inl (hkept.trans hold)
        · exact .inl (hkept.trans (relax_of_ne hj))
      · exact .inr ⟨d, List.mem_cons_of_mem _ hd, htarget, hcell⟩

end Relaxed

/-- What holds when the positions before `k` have been visited: every cell is entered by an edge from
a position visited, and every edge from such a position is covered. -/
structure Visited (edges : ℕ → List (Edge ι S)) (k : ℕ) (cells : ℕ → Cell ι S) : Prop where

  start : (cells 0).score = some 0

  entered : ∀ j s, 0 < j → (cells j).score = some s →
    (cells j).source < k ∧ (cells j).source < j ∧ ∃ base e,
      (cells (cells j).source).score = some base ∧ e ∈ edges (cells j).source ∧ e.target = j ∧
        e.label = (cells j).label ∧ s = base + e.weight

  covered : ∀ i < k, ∀ e ∈ edges i, ∀ base, (cells i).score = some base →
    Covers (cells e.target) (base + e.weight)

theorem Visited.visit {edges : ℕ → List (Edge ι S)} (hforward : ∀ i, ∀ e ∈ edges i, i < e.target)
    {k : ℕ} {cells : ℕ → Cell ι S} (h : Visited edges k cells) :
    Visited edges (k + 1) (visit edges cells k) := by
  unfold BestPath.visit
  cases hscore : (cells k).score with
  | none =>
    refine ⟨h.start, fun j s hj hs => ?_, fun i hi e he base hbase => ?_⟩
    · obtain ⟨hlt, hrest⟩ := h.entered j s hj hs
      exact ⟨Nat.lt_succ_of_lt hlt, hrest⟩
    · rcases Nat.lt_succ_iff_lt_or_eq.mp hi with hi | rfl
      · exact h.covered i hi e he base hbase
      · rw [hscore] at hbase
        cases hbase
  | some base =>
    dsimp only
    obtain ⟨hsame, hbetter, hcovers, hchanged⟩ := foldl_relax k base cells (edges k)
    generalize (edges k).foldl (relax k base) cells = after at hsame hbetter hcovers hchanged ⊢
    -- no edge leads back to a position that was visited
    have hbehind : ∀ i ≤ k, after i = cells i := by
      intro i hi
      apply hsame
      rintro e he rfl
      exact absurd (hforward k e he) (Nat.not_lt.mpr hi)
    refine ⟨by rw [hbehind 0 (Nat.zero_le k)]; exact h.start, fun j s hj hs => ?_, ?_⟩
    · rcases hchanged j with hkept | ⟨e, he, htarget, hcell⟩
      · rw [hkept] at hs ⊢
        obtain ⟨hlt, hless, b, e, hb, hrest⟩ := h.entered j s hj hs
        refine ⟨Nat.lt_succ_of_lt hlt, hless, b, e, ?_, hrest⟩
        rw [hbehind _ (Nat.le_of_lt hlt)]
        exact hb
      · rw [hcell] at hs ⊢
        have hlt := hforward k e he
        refine ⟨Nat.lt_succ_self k, by rwa [← htarget], base, e, ?_, he, htarget, rfl, ?_⟩
        · dsimp only
          rw [hbehind k (Nat.le_refl k), hscore]
        · exact (Option.some.inj hs).symm
    · rintro i hi e he b hb
      rw [hbehind i (Nat.le_of_lt_succ hi)] at hb
      rcases Nat.lt_succ_iff_lt_or_eq.mp hi with hi | rfl
      · exact hbetter _ _ (h.covered i hi e he b hb)
      · rw [hscore] at hb
        obtain rfl := Option.some.inj hb
        exact hcovers e he

theorem Visited.search {edges : ℕ → List (Edge ι S)} (hforward : ∀ i, ∀ e ∈ edges i, i < e.target)
    {cells : ℕ → Cell ι S} (h : Visited edges 0 cells) (n : ℕ) :
    Visited edges n (search edges cells n) := by
  induction n with
  | zero => exact h
  | succ n ih =>
    have hlast : BestPath.search edges cells (n + 1) =
        BestPath.visit edges (BestPath.search edges cells n) n := by
      simp only [BestPath.search, List.range_succ, List.foldl_append, List.foldl_cons,
        List.foldl_nil]
    rw [hlast]
    exact ih.visit hforward

section Result

variable {edges : ℕ → List (Edge ι S)} {n : ℕ} {cells : ℕ → Cell ι S}

/-- The way back from a position that was reached is a path of its score. -/
theorem Visited.trace (h : Visited edges n cells) {j : ℕ} {s : S} (hs : (cells j).score = some s) :
    ∃ labels, Path edges j labels s ∧
      ∀ fuel, j ≤ fuel → ∀ acc, BestPath.trace cells fuel j acc = some (labels ++ acc) := by
  induction j using Nat.strongRecOn generalizing s with
  | ind j ih =>
    cases j with
    | zero =>
      rw [h.start] at hs
      obtain rfl := Option.some.inj hs
      exact ⟨[], .nil, fun fuel _ acc => by cases fuel <;> rfl⟩
    | succ j =>
      obtain ⟨-, hless, base, e, hbase, he, htarget, hlabel, rfl⟩ :=
        h.entered (j + 1) s (Nat.succ_pos j) hs
      obtain ⟨labels, hpath, htrace⟩ := ih _ hless hbase
      refine ⟨labels ++ [e.label], htarget ▸ hpath.snoc he, fun fuel hfuel acc => ?_⟩
      cases fuel with
      | zero => exact absurd hfuel (Nat.not_succ_le_zero j)
      | succ fuel =>
        rw [BestPath.trace, htrace fuel (by omega), ← hlabel, List.append_assoc]
        rfl

/-- No path is better than what its end has. -/
theorem Visited.best [IsOrderedAddMonoid S] (hforward : ∀ i, ∀ e ∈ edges i, i < e.target)
    (h : Visited edges n cells) {j : ℕ} {labels : List ι} {s : S} (hpath : Path edges j labels s)
    (hj : j ≤ n) : Covers (cells j) s := by
  induction hpath with
  | nil => exact ⟨0, h.start, le_rfl⟩
  | snoc hpath he ih =>
    have hlt := hforward _ _ he
    obtain ⟨base, hbase, hle⟩ := ih (by omega)
    obtain ⟨t, ht, hbest⟩ := h.covered _ (by omega) _ he base hbase
    exact ⟨t, ht, (add_le_add_left hle _).trans hbest⟩

end Result

end Frink.BestPath

/-! ## Segmentations

A word is cut into valid parts, each with a text and a cost. A best segmentation of the whole starts
with a part and goes on with a best segmentation of what is left.
-/

namespace Frink.Segmentation

variable {α P S : Type*} {text : P → List α} {valid : P → Prop} {whole rest : List α}
  {part : P} {parts : List P}

/-- Valid parts that make up the whole. -/
structure Cuts (text : P → List α) (valid : P → Prop) (whole : List α) (parts : List P) : Prop where

  valid : ∀ p ∈ parts, valid p

  covers : parts.flatMap text = whole

theorem Cuts.nil : Cuts text valid [] [] := ⟨nofun, rfl⟩

theorem Cuts.cons (hpart : valid part) (h : Cuts text valid rest parts) :
    Cuts text valid (text part ++ rest) (part :: parts) := by
  constructor
  · rintro p hp
    rcases List.mem_cons.mp hp with rfl | hp
    · exact hpart
    · exact h.valid p hp
  · rw [List.flatMap_cons, h.covers]

theorem Cuts.uncons (h : Cuts text valid whole (part :: parts)) :
    valid part ∧ Cuts text valid (parts.flatMap text) parts ∧
      text part ++ parts.flatMap text = whole := by
  obtain ⟨hpart, hparts⟩ := List.forall_mem_cons.mp h.valid
  exact ⟨hpart, ⟨hparts, rfl⟩, by rw [← List.flatMap_cons, h.covers]⟩

variable [AddCommMonoid S] {cost : P → S}

def total (cost : P → S) (parts : List P) : S := (parts.map cost).sum

@[simp] theorem total_cons : total cost (part :: parts) = cost part + total cost parts := by
  simp [total]

variable [LinearOrder S]

/-- A segmentation of the least cost. -/
structure Best (text : P → List α) (valid : P → Prop) (cost : P → S) (whole : List α)
    (parts : List P) : Prop where

  cuts : Cuts text valid whole parts

  least : ∀ others, Cuts text valid whole others → total cost parts ≤ total cost others

theorem Best.nil (hne : ∀ p, valid p → text p ≠ []) : Best text valid cost [] [] := by
  refine ⟨.nil, fun others hothers => ?_⟩
  cases others with
  | nil => exact le_rfl
  | cons p others =>
    obtain ⟨hp, -, hwhole⟩ := hothers.uncons
    exact absurd (List.append_eq_nil_iff.mp hwhole).1 (hne p hp)

/-- A part that is best as the first one, before a best segmentation of what it leaves. -/
theorem Best.cons (hpart : valid part) (hne : whole ≠ []) (hwhole : text part ++ rest = whole)
    (hrest : Best text valid cost rest parts)
    (hfirst : ∀ q, valid q → ∀ left others, text q ++ left = whole → Cuts text valid left others →
      cost part + total cost parts ≤ cost q + total cost others) :
    Best text valid cost whole (part :: parts) := by
  refine ⟨hwhole ▸ hrest.cuts.cons hpart, fun others hothers => ?_⟩
  cases others with
  | nil => exact absurd hothers.covers.symm hne
  | cons q others =>
    obtain ⟨hq, hcuts, hall⟩ := hothers.uncons
    rw [total_cons, total_cons]
    exact hfirst q hq _ others hall hcuts

end Frink.Segmentation
