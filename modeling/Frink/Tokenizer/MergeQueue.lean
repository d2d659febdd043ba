import Mathlib
import Frink.Library.Fuel
import Frink.Library.Greedy
import Frink.Tokenizer.Vocab

/-! # The merge queue

Symbols are places in a doubly linked list. Candidates wait in a heap and may be stale when they
come out: a place is dead, another has come between, or a text has grown. The heap always holds a
current candidate for every two neighbours that a vocabulary entry joins.
-/

namespace Frink.Tokenizer
open Decode

variable {n : ℕ} {K : Type}

structure SpmMergeCandidate (n : ℕ) (K : Type) where
  score : K
  left : Fin n
  right : Fin n
  insertionOrder : ℕ
  expectedLeftText : Text
  expectedRightText : Text

namespace SpmMergeCandidate

variable [LinearOrder K]

/-- The order of the heap: a higher score, then the leftmost, then the first in. -/
def le (c d : SpmMergeCandidate n K) : Bool :=
  decide (c.score < d.score ∨ (c.score = d.score ∧
    (d.left < c.left ∨ (d.left = c.left ∧ d.insertionOrder ≤ c.insertionOrder))))

/-- Takes a greatest candidate out of the heap. -/
def pop : List (SpmMergeCandidate n K) →
    Option (SpmMergeCandidate n K × List (SpmMergeCandidate n K))
  | [] => none
  | c :: heap =>
      match pop heap with
      | none => some (c, [])
      | some (d, rest) => if d.le c then some (c, heap) else some (d, c :: rest)

variable {c d : SpmMergeCandidate n K} {heap rest : List (SpmMergeCandidate n K)}

theorem le_iff : c.le d = true ↔ c.score < d.score ∨ (c.score = d.score ∧
    (d.left < c.left ∨ (d.left = c.left ∧ d.insertionOrder ≤ c.insertionOrder))) :=
  decide_eq_true_iff

theorem le_total (c d : SpmMergeCandidate n K) : c.le d = true ∨ d.le c = true := by
  rw [le_iff, le_iff]
  rcases lt_trichotomy c.score d.score with hs | hs | hs
  · exact .inl (.inl hs)
  · rcases lt_trichotomy c.left d.left with hl | hl | hl
    · exact .inr (.inr ⟨hs.symm, .inl hl⟩)
    · rcases Nat.le_total c.insertionOrder d.insertionOrder with ho | ho
      · exact .inr (.inr ⟨hs.symm, .inr ⟨hl, ho⟩⟩)
      · exact .inl (.inr ⟨hs, .inr ⟨hl.symm, ho⟩⟩)
    · exact .inl (.inr ⟨hs, .inl hl⟩)
  · exact .inr (.inl hs)

theorem le_trans {c d e : SpmMergeCandidate n K} (hcd : c.le d = true) (hde : d.le e = true) :
    c.le e = true := by
  rw [le_iff] at hcd hde ⊢
  rcases hcd with hcd | ⟨hcd, hl⟩ <;> rcases hde with hde | ⟨hde, hl'⟩
  · exact .inl (hcd.trans hde)
  · exact .inl (hde ▸ hcd)
  · exact .inl (hcd ▸ hde)
  · refine .inr ⟨hcd.trans hde, ?_⟩
    rcases hl with hl | ⟨hl, ho⟩ <;> rcases hl' with hl' | ⟨hl', ho'⟩
    · exact .inl (hl'.trans hl)
    · exact .inl (hl' ▸ hl)
    · exact .inl (hl ▸ hl')
    · exact .inr ⟨hl'.trans hl, ho'.trans ho⟩

theorem pop_eq_none : pop heap = none ↔ heap = [] := by
  cases heap with
  | nil => exact ⟨fun _ => rfl, fun _ => rfl⟩
  | cons c heap =>
    rw [pop]
    split
    · exact ⟨nofun, nofun⟩
    · split <;> exact ⟨nofun, nofun⟩

/-- What comes out is a greatest candidate, and the others stay. -/
theorem pop_spec (h : pop heap = some (c, rest)) :
    heap.Perm (c :: rest) ∧ ∀ d ∈ heap, d.le c = true := by
  induction heap generalizing c rest with
  | nil => cases h
  | cons b heap ih =>
    have hrefl : ∀ e : SpmMergeCandidate n K, e.le e = true :=
      fun e => (le_total e e).elim id id
    rw [pop] at h
    cases hp : pop heap with
    | none =>
      rw [hp] at h
      cases h
      rw [pop_eq_none.mp hp]
      exact ⟨List.Perm.refl _, List.forall_mem_singleton.mpr (hrefl _)⟩
    | some top =>
      obtain ⟨d, rest'⟩ := top
      obtain ⟨hperm, hle⟩ := ih hp
      rw [hp] at h
      dsimp only at h
      by_cases hdb : d.le b = true
      · rw [if_pos hdb] at h
        cases h
        refine ⟨List.Perm.refl _, List.forall_mem_cons.mpr ⟨hrefl _, ?_⟩⟩
        exact fun e he => le_trans (hle e he) hdb
      · rw [if_neg hdb] at h
        cases h
        constructor
        · exact (hperm.cons b).trans (List.Perm.swap c b rest')
        · exact List.forall_mem_cons.mpr ⟨(le_total b c).resolve_right hdb, hle⟩

end SpmMergeCandidate

/-- The working set of one run of text. -/
structure Symbols (n : ℕ) (K : Type) where
  symbols : Fin n → Text
  nexts : Fin n → Option (Fin n)
  prevs : Fin n → Option (Fin n)
  alive : Fin n → Bool
  heap : List (SpmMergeCandidate n K)
  insertionOrder : ℕ

namespace Symbols

variable (vocab : ScoredVocab K) (s : Symbols n K)

/-- Queues two symbols when a vocabulary entry joins them. -/
def tryAddMerge : Option (Fin n) → Option (Fin n) → Symbols n K
  | some l, some r =>
      match vocab.lookup (s.symbols l ++ s.symbols r) with
      | none => s
      | some (_, score) =>
          { s with
            heap := ⟨score, l, r, s.insertionOrder + 1, s.symbols l, s.symbols r⟩ :: s.heap
            insertionOrder := s.insertionOrder + 1 }
  | _, _ => s

/-- Queues every place with what comes after it. -/
def queueAll (nexts : Fin n → Option (Fin n)) (places : List (Fin n)) (s : Symbols n K) :
    Symbols n K :=
  places.foldl (fun s i => s.tryAddMerge vocab (some i) (nexts i)) s

/-- The symbols one after the other, and every two neighbours queued. -/
def new (symbols : List Text) : Symbols symbols.length K :=
  let nexts : Fin symbols.length → Option (Fin symbols.length) := fun i =>
    if h : i.val + 1 < symbols.length then some ⟨i.val + 1, h⟩ else none
  queueAll vocab nexts (List.finRange symbols.length)
    { symbols := symbols.get
      nexts
      prevs := fun i => if i.val = 0 then none else some ⟨i.val - 1, by omega⟩
      alive := fun _ => true
      heap := []
      insertionOrder := 0 }

/-- Neither symbol is gone, they are neighbours, and their texts are those that were queued. -/
def isCurrent (c : SpmMergeCandidate n K) : Bool :=
  s.alive c.left && s.alive c.right && s.nexts c.left == some c.right &&
    s.symbols c.left == c.expectedLeftText && s.symbols c.right == c.expectedRightText

/-- The left symbol takes over the right one. -/
def absorb (l r : Fin n) : Symbols n K :=
  { s with
    symbols := Function.update s.symbols l (s.symbols l ++ s.symbols r)
    alive := Function.update s.alive r false
    nexts := Function.update s.nexts l (s.nexts r)
    prevs := match s.nexts r with
      | some nextOfR => Function.update s.prevs nextOfR (some l)
      | none => s.prevs }

/-- A merge, with the new neighbours queued. -/
def mergePair (l r : Fin n) : Symbols n K :=
  let s := s.absorb l r
  let s := s.tryAddMerge vocab (s.prevs l) (some l)
  s.tryAddMerge vocab (some l) (s.nexts l)

/-- The loop over the heap. -/
def drain [LinearOrder K] : ℕ → Symbols n K → Option (Symbols n K)
  | 0, _ => none
  | fuel + 1, s =>
      match SpmMergeCandidate.pop s.heap with
      | none => some s
      | some (c, heap) =>
          let s := { s with heap }
          if s.isCurrent c then drain fuel (s.mergePair vocab c.left c.right) else drain fuel s

/-- The ids along the list; a text that has none becomes id 0. -/
def collect : ℕ → Option (Fin n) → Option (List ℕ)
  | 0, _ => none
  | _ + 1, none => some []
  | fuel + 1, some i =>
      (collect fuel (s.nexts i)).map fun rest =>
        if s.alive i then (vocab.idOf (s.symbols i)).getD 0 :: rest else rest

end Symbols

/-- What two neighbouring texts score together. -/
def priority (vocab : ScoredVocab K) (x y : Text) : Option K := (vocab.lookup (x ++ y)).map (·.2)

namespace Symbols

variable {vocab : ScoredVocab K} {s s' : Symbols n K} {chain front back : List (Fin n)}
  {l r i : Fin n} {prev next : Option (Fin n)} {c : SpmMergeCandidate n K}

/-- A stretch of the list, between the places before and behind it. -/
def Linked (s : Symbols n K) : Option (Fin n) → List (Fin n) → Option (Fin n) → Prop
  | _, [], _ => True
  | prev, i :: chain, next =>
      s.prevs i = prev ∧ s.nexts i = chain.head?.or next ∧ Linked s (some i) chain next

theorem linked_append : s.Linked prev (front ++ i :: back) next ↔
    s.Linked prev front (some i) ∧ s.Linked (front.getLast?.or prev) (i :: back) next := by
  induction front generalizing prev with
  | nil => simp [Linked]
  | cons j front ih =>
    rw [List.cons_append, Linked, Linked, ih]
    cases front with
    | nil => simp [and_assoc]
    | cons k front =>
      obtain ⟨z, hz⟩ : ∃ z, (k :: front).getLast? = some z := ⟨_, List.getLast?_cons⟩
      rw [List.getLast?_cons_cons, hz]
      simp [and_assoc]

theorem Linked.congr (h : s.Linked prev chain next)
    (hs : ∀ i ∈ chain, s'.prevs i = s.prevs i ∧ s'.nexts i = s.nexts i) :
    s'.Linked prev chain next := by
  induction chain generalizing prev with
  | nil => trivial
  | cons i chain ih =>
    rw [List.forall_mem_cons] at hs
    obtain ⟨hprev, hnext, hrest⟩ := h
    exact ⟨hs.1.1.trans hprev, hs.1.2.trans hnext, ih hrest hs.2⟩

/-- If a vocabulary entry joins the two, they wait in the heap as they are now. -/
def Covered (vocab : ScoredVocab K) (s : Symbols n K) (x y : Fin n) : Prop :=
  ∀ k, priority vocab (s.symbols x) (s.symbols y) = some k →
    ∃ c ∈ s.heap, c.left = x ∧ c.right = y ∧ c.score = k ∧
      c.expectedLeftText = s.symbols x ∧ c.expectedRightText = s.symbols y

/-- The places that are left, in their order. -/
structure Listed (s : Symbols n K) (chain : List (Fin n)) : Prop where

  alive_iff : ∀ i, s.alive i = true ↔ i ∈ chain

  sorted : chain.Pairwise (· < ·)

  linked : s.Linked none chain none

structure Queued (vocab : ScoredVocab K) (s : Symbols n K) (chain : List (Fin n)) : Prop
    extends s.Listed chain where

  covered : chain.IsChain (Covered vocab s)

  scored : ∀ c ∈ s.heap, priority vocab c.expectedLeftText c.expectedRightText = some c.score

section TryAddMerge

variable {p q : Option (Fin n)}

@[simp] theorem tryAddMerge_symbols : (s.tryAddMerge vocab p q).symbols = s.symbols := by
  unfold tryAddMerge
  split
  · split <;> rfl
  · rfl

@[simp] theorem tryAddMerge_nexts : (s.tryAddMerge vocab p q).nexts = s.nexts := by
  unfold tryAddMerge
  split
  · split <;> rfl
  · rfl

@[simp] theorem tryAddMerge_prevs : (s.tryAddMerge vocab p q).prevs = s.prevs := by
  unfold tryAddMerge
  split
  · split <;> rfl
  · rfl

@[simp] theorem tryAddMerge_alive : (s.tryAddMerge vocab p q).alive = s.alive := by
  unfold tryAddMerge
  split
  · split <;> rfl
  · rfl

theorem mem_tryAddMerge (h : c ∈ s.heap) : c ∈ (s.tryAddMerge vocab p q).heap := by
  unfold tryAddMerge
  split
  · split
    · exact h
    · exact List.mem_cons_of_mem _ h
  · exact h

theorem tryAddMerge_length : (s.tryAddMerge vocab p q).heap.length ≤ s.heap.length + 1 := by
  unfold tryAddMerge
  split
  · split
    · exact Nat.le_succ _
    · exact le_rfl
  · exact Nat.le_succ _

theorem tryAddMerge_scored
    (h : ∀ c ∈ s.heap, priority vocab c.expectedLeftText c.expectedRightText = some c.score) :
    ∀ c ∈ (s.tryAddMerge vocab p q).heap,
      priority vocab c.expectedLeftText c.expectedRightText = some c.score := by
  unfold tryAddMerge
  split
  · split
    · exact h
    · rename_i score hlookup
      refine List.forall_mem_cons.mpr ⟨?_, h⟩
      rw [priority, hlookup]
      rfl
  · exact h

theorem tryAddMerge_covered : (s.tryAddMerge vocab (some l) (some r)).Covered vocab l r := by
  intro k hk
  rw [tryAddMerge_symbols] at hk ⊢
  unfold priority at hk
  unfold tryAddMerge
  obtain ⟨⟨id, score⟩, hlookup, rfl⟩ := Option.map_eq_some_iff.mp hk
  dsimp only
  rw [hlookup]
  exact ⟨_, List.mem_cons_self, rfl, rfl, rfl, rfl, rfl⟩

end TryAddMerge

theorem Covered.mono {x y : Fin n} (h : s.Covered vocab x y) (hx : s'.symbols x = s.symbols x)
    (hy : s'.symbols y = s.symbols y) (hheap : ∀ c ∈ s.heap, c.left = x → c ∈ s'.heap) :
    s'.Covered vocab x y := by
  intro k hk
  rw [hx, hy] at hk
  obtain ⟨c, hc, hleft, hright, hscore, hl, hr⟩ := h k hk
  exact ⟨c, hheap c hc hleft, hleft, hright, hscore, hx ▸ hl, hy ▸ hr⟩

theorem Covered.tryAddMerge {x y : Fin n} {p q : Option (Fin n)} (h : s.Covered vocab x y) :
    (s.tryAddMerge vocab p q).Covered vocab x y := by
  apply h.mono
  · rw [tryAddMerge_symbols]
  · rw [tryAddMerge_symbols]
  · exact fun c hc _ => mem_tryAddMerge hc

/-- A current candidate is of two neighbours. -/
theorem Listed.neighbours (h : s.Listed chain) (hl : s.alive l = true)
    (hnext : s.nexts l = some r) : ∃ front back, chain = front ++ l :: r :: back := by
  obtain ⟨front, rest, rfl⟩ := List.append_of_mem ((h.alive_iff l).mp hl)
  obtain ⟨-, -, hnext', -⟩ := linked_append.mp h.linked
  rw [hnext, Option.or_none] at hnext'
  obtain ⟨back, rfl⟩ := List.head?_eq_some_iff.mp hnext'.symm
  exact ⟨front, back, rfl⟩

theorem Listed.links (h : s.Listed (front ++ l :: r :: back)) :
    s.alive l = true ∧ s.alive r = true ∧ s.nexts l = some r ∧ s.nexts r = back.head? := by
  obtain ⟨-, -, hnext, -, hnext', -⟩ := linked_append.mp h.linked
  refine ⟨(h.alive_iff l).mpr (by simp), (h.alive_iff r).mpr (by simp), by simpa using hnext, ?_⟩
  simpa using hnext'

theorem absorb_nexts (hi : i ≠ l) : (s.absorb l r).nexts i = s.nexts i :=
  Function.update_of_ne hi _ _

theorem absorb_prevs (hi : s.nexts r ≠ some i) : (s.absorb l r).prevs i = s.prevs i := by
  unfold absorb
  dsimp only
  cases hnext : s.nexts r with
  | none => rfl
  | some nextOfR =>
    apply Function.update_of_ne
    rintro rfl
    exact hi hnext

/-- The list without the place that was taken over. -/
theorem Listed.absorb (h : s.Listed (front ++ l :: r :: back)) :
    (s.absorb l r).Listed (front ++ l :: back) := by
  obtain ⟨-, -, hnext, hnext'⟩ := h.links
  obtain ⟨halive, hsorted, hlinked⟩ := h
  have hsub : (front ++ l :: back).Sublist (front ++ l :: r :: back) :=
    List.Sublist.append_left (List.Sublist.cons_cons l (List.sublist_cons_self r back)) front
  have hnodup : (front ++ l :: r :: back).Nodup := hsorted.imp ne_of_lt
  rw [List.nodup_append, List.nodup_cons, List.nodup_cons] at hnodup
  obtain ⟨-, ⟨hl, hr, hback⟩, hfront⟩ := hnodup
  obtain ⟨hlinked, hprev, -, hrest⟩ := linked_append.mp hlinked
  have hhead : ∀ j, s.nexts r = some j → j ∈ back := by
    intro j hj
    rw [hnext'] at hj
    exact List.mem_of_mem_head? hj
  constructor
  · intro i
    by_cases hi : i = r
    · subst hi
      have hout : i ∉ front ++ l :: back := by
        intro hmem
        rcases List.mem_append.mp hmem with hmem | hmem
        · exact hfront i hmem i (by simp) rfl
        · rcases List.mem_cons.mp hmem with rfl | hmem
          · exact hl List.mem_cons_self
          · exact hr hmem
      simp [Symbols.absorb, hout]
    · have halive' : (s.absorb l r).alive i = s.alive i := Function.update_of_ne hi _ _
      rw [halive', halive]
      simp [hi]
  · exact hsorted.sublist hsub
  · apply linked_append.mpr
    refine ⟨hlinked.congr ?_, ?_, ?_, ?_⟩
    · intro i hi
      constructor
      · apply absorb_prevs
        intro hj
        exact hfront i hi i (by simp [hhead i hj]) rfl
      · apply absorb_nexts
        rintro rfl
        exact hfront i hi i (by simp) rfl
    · rw [absorb_prevs, hprev]
      intro hj
      exact hl (List.mem_cons_of_mem _ (hhead l hj))
    · rw [Option.or_none, ← hnext']
      exact Function.update_self _ _ _
    · cases back with
      | nil => trivial
      | cons b back =>
        obtain ⟨-, -, hprev', hnext'', hrest⟩ := hrest
        rw [List.nodup_cons] at hback
        refine ⟨?_, ?_, hrest.congr ?_⟩
        · unfold Symbols.absorb
          rw [hnext']
          exact Function.update_self _ _ _
        · rw [absorb_nexts, hnext'']
          rintro rfl
          exact hl (by simp)
        · intro i hi
          constructor
          · apply absorb_prevs
            rw [hnext']
            rintro ⟨⟩
            exact hback.1 hi
          · apply absorb_nexts
            rintro rfl
            exact hl (by simp [hi])

/-- The two texts become one, and no other text changes. -/
theorem absorb_texts (h : (front ++ l :: r :: back).Nodup) :
    (front ++ l :: back).map (s.absorb l r).symbols =
      front.map s.symbols ++ (s.symbols l ++ s.symbols r) :: back.map s.symbols := by
  rw [List.nodup_append, List.nodup_cons] at h
  obtain ⟨-, ⟨hl, -⟩, hfront⟩ := h
  have hother : ∀ i, i ≠ l → (s.absorb l r).symbols i = s.symbols i :=
    fun i hi => Function.update_of_ne hi _ _
  rw [List.map_append, List.map_cons]
  congr 1
  · apply List.map_congr_left
    intro i hi
    exact hother i (hfront i hi l (by simp))
  · congr 1
    · exact Function.update_self _ _ _
    · apply List.map_congr_left
      intro i hi
      apply hother
      rintro rfl
      exact hl (List.mem_cons_of_mem _ hi)

theorem Queued.isCurrent_iff (h : s.Queued vocab chain) : s.isCurrent c = true ↔
    (∃ front back, chain = front ++ c.left :: c.right :: back) ∧
      s.symbols c.left = c.expectedLeftText ∧ s.symbols c.right = c.expectedRightText := by
  simp only [isCurrent, Bool.and_eq_true, beq_iff_eq]
  constructor
  · rintro ⟨⟨⟨⟨hl, -⟩, hnext⟩, hleft⟩, hright⟩
    exact ⟨h.neighbours hl hnext, hleft, hright⟩
  · rintro ⟨⟨front, back, rfl⟩, hleft, hright⟩
    obtain ⟨hl, hr, hnext, -⟩ := h.links
    exact ⟨⟨⟨⟨hl, hr⟩, hnext⟩, hleft⟩, hright⟩

theorem Listed.tryAddMerge {p q : Option (Fin n)} (h : s.Listed chain) :
    (s.tryAddMerge vocab p q).Listed chain := by
  refine ⟨?_, h.sorted, h.linked.congr ?_⟩
  · rw [tryAddMerge_alive]
    exact h.alive_iff
  · intro i _
    rw [tryAddMerge_prevs, tryAddMerge_nexts]
    exact ⟨rfl, rfl⟩

theorem mergePair_symbols : (s.mergePair vocab l r).symbols = (s.absorb l r).symbols := by
  rw [mergePair, tryAddMerge_symbols, tryAddMerge_symbols]

section Loop

variable [LinearOrder K] {heap : List (SpmMergeCandidate n K)}

theorem mem_of_pop (h : SpmMergeCandidate.pop s.heap = some (c, heap)) {d : SpmMergeCandidate n K}
    (hd : d ∈ s.heap) (hne : d ≠ c) : d ∈ heap :=
  (List.mem_cons.mp ((SpmMergeCandidate.pop_spec h).1.subset hd)).resolve_left hne

/-- A stale candidate is dropped. -/
theorem Queued.skip (h : s.Queued vocab chain)
    (hpop : SpmMergeCandidate.pop s.heap = some (c, heap)) (hstale : s.isCurrent c = false) :
    ({ s with heap } : Symbols n K).Queued vocab chain := by
  refine ⟨⟨h.alive_iff, h.sorted, ?_⟩, ?_, ?_⟩
  · exact h.linked.congr fun _ _ => ⟨rfl, rfl⟩
  · rw [List.isChain_iff_forall_rel_of_append_cons_cons]
    intro x y front back hchain k hk
    have hcovered := List.isChain_iff_forall_rel_of_append_cons_cons.mp h.covered hchain
    obtain ⟨d, hd, rfl, rfl, hscore, hl, hr⟩ := hcovered k hk
    refine ⟨d, mem_of_pop hpop hd ?_, rfl, rfl, hscore, hl, hr⟩
    rintro rfl
    have hcurrent : s.isCurrent d = true := h.isCurrent_iff.mpr ⟨⟨front, back, hchain⟩, hl.symm, hr.symm⟩
    rw [hcurrent] at hstale
    cases hstale
  · intro d hd
    exact h.scored d ((SpmMergeCandidate.pop_spec hpop).1.symm.subset (List.mem_cons_of_mem _ hd))

/-- The best candidate, if it is current, is the greedy procedure's choice. -/
theorem Queued.greedy (h : s.Queued vocab (front ++ c.left :: c.right :: back))
    (hpop : SpmMergeCandidate.pop s.heap = some (c, heap)) (hcurrent : s.isCurrent c = true) :
    Greedy.Step (priority vocab) (· ++ ·) ((front ++ c.left :: c.right :: back).map s.symbols)
      (front.map s.symbols ++ (s.symbols c.left ++ s.symbols c.right) :: back.map s.symbols) := by
  obtain ⟨hperm, hmax⟩ := SpmMergeCandidate.pop_spec hpop
  have hmem : c ∈ s.heap := hperm.symm.subset List.mem_cons_self
  obtain ⟨-, hleft, hright⟩ := h.isCurrent_iff.mp hcurrent
  have hscore : priority vocab (s.symbols c.left) (s.symbols c.right) = some c.score := by
    rw [hleft, hright]
    exact h.scored c hmem
  obtain ⟨hfront, -, hback⟩ := List.isChain_append_cons_cons.mp h.covered
  rw [List.map_append, List.map_cons, List.map_cons]
  apply Greedy.Step.join hscore
  · have hmap : front.map s.symbols ++ [s.symbols c.left] = (front ++ [c.left]).map s.symbols := by
      simp
    rw [hmap, List.isChain_map, List.isChain_iff_forall_rel_of_append_cons_cons]
    intro x y before behind hchain k hk
    have hcovered := List.isChain_iff_forall_rel_of_append_cons_cons.mp hfront hchain
    obtain ⟨d, hd, rfl, -, rfl, -, -⟩ := hcovered k hk
    have hlast : c.left ∈ y :: behind := by
      have hlast := congrArg List.getLast? hchain
      rw [List.getLast?_append, List.getLast?_append, List.getLast?_cons_cons] at hlast
      apply List.mem_of_getLast?
      simpa using hlast.symm
    have hlt : d.left < c.left := by
      have hsorted : (front ++ [c.left]).Pairwise (· < ·) :=
        (List.pairwise_append.mp (List.append_cons front c.left _ ▸ h.sorted)).1
      rw [hchain, List.pairwise_append, List.pairwise_cons] at hsorted
      exact hsorted.2.1.1 c.left hlast
    rcases SpmMergeCandidate.le_iff.mp (hmax d hd) with hd | ⟨-, hd | ⟨hd, -⟩⟩
    · exact hd
    · exact absurd hd hlt.asymm
    · exact absurd hd hlt.ne'
  · have hmap : s.symbols c.right :: back.map s.symbols = (c.right :: back).map s.symbols := rfl
    rw [hmap, List.isChain_map]
    apply hback.imp
    intro x y hcovered k hk
    obtain ⟨d, hd, -, -, rfl, -, -⟩ := hcovered k hk
    rcases SpmMergeCandidate.le_iff.mp (hmax d hd) with hd | ⟨hd, -⟩
    · exact hd.le
    · exact hd.le

/-- After a merge the new neighbours are queued, and all the others still are. -/
theorem Queued.merge (h : s.Queued vocab (front ++ c.left :: c.right :: back))
    (hpop : SpmMergeCandidate.pop s.heap = some (c, heap)) :
    (({ s with heap } : Symbols n K).mergePair vocab c.left c.right).Queued vocab
      (front ++ c.left :: back) := by
  have hlisted : ({ s with heap } : Symbols n K).Listed (front ++ c.left :: c.right :: back) :=
    ⟨h.alive_iff, h.sorted, h.linked.congr fun _ _ => ⟨rfl, rfl⟩⟩
  have habsorbed := hlisted.absorb
  have hscored : ∀ d ∈ heap,
      priority vocab d.expectedLeftText d.expectedRightText = some d.score :=
    fun d hd =>
      h.scored d ((SpmMergeCandidate.pop_spec hpop).1.symm.subset (List.mem_cons_of_mem _ hd))
  have hnodup : (front ++ c.left :: c.right :: back).Nodup := h.sorted.imp ne_of_lt
  rw [List.nodup_append, List.nodup_cons] at hnodup
  obtain ⟨-, ⟨hl, -⟩, hfront⟩ := hnodup
  have hold : ∀ x y, x ≠ c.left → y ≠ c.left → s.Covered vocab x y →
      (({ s with heap } : Symbols n K).mergePair vocab c.left c.right).Covered vocab x y := by
    intro x y hx hy hcovered
    apply Covered.tryAddMerge
    apply Covered.tryAddMerge
    apply hcovered.mono
    · exact Function.update_of_ne hx _ _
    · exact Function.update_of_ne hy _ _
    · intro d hd hleft
      apply mem_of_pop hpop hd
      rintro rfl
      exact hx hleft.symm
  have hwas := List.isChain_append_cons_cons.mp h.covered
  obtain ⟨-, hprev, hnext, -⟩ := linked_append.mp habsorbed.linked
  refine ⟨habsorbed.tryAddMerge.tryAddMerge, ?_, ?_⟩
  · rw [List.isChain_split]
    constructor
    · rcases List.eq_nil_or_concat front with rfl | ⟨before, p, rfl⟩
      · exact List.isChain_singleton _
      · rw [List.concat_eq_append] at hwas hprev hfront ⊢
        rw [List.append_assoc, List.singleton_append, List.isChain_append_cons_cons] at hwas ⊢
        refine ⟨hwas.1.1.imp_of_mem_imp ?_, ?_, List.isChain_singleton _⟩
        · intro x y hx hy
          exact hold x y (hfront x hx c.left (by simp)) (hfront y hy c.left (by simp))
        · have hp : (({ s with heap } : Symbols n K).absorb c.left c.right).prevs c.left = some p := by
            rw [hprev]
            simp
          rw [mergePair]
          rw [hp]
          exact tryAddMerge_covered.tryAddMerge
    · cases back with
      | nil => exact List.isChain_singleton _
      | cons b back =>
        rw [List.isChain_cons_cons]
        constructor
        · rw [mergePair]
          rw [tryAddMerge_nexts, hnext]
          exact tryAddMerge_covered
        · apply hwas.2.2.tail.imp_of_mem_imp
          intro x y hx hy
          apply hold
          · rintro rfl
            exact hl (List.mem_cons_of_mem _ hx)
          · rintro rfl
            exact hl (List.mem_cons_of_mem _ hy)
  · exact tryAddMerge_scored (tryAddMerge_scored hscored)

/-- The loop takes the greedy procedure's steps until nothing can be joined. -/
theorem Queued.drain {size : ℕ} (h : s.Queued vocab chain)
    (hsize : s.heap.length + 3 * chain.length < size) :
    ∃ s' chain', drain vocab size s = some s' ∧ s'.Listed chain' ∧ chain'.head? = chain.head? ∧
      Relation.ReflTransGen (Greedy.Step (priority vocab) (· ++ ·)) (chain.map s.symbols)
        (chain'.map s'.symbols) ∧ Greedy.Stuck (priority vocab) (chain'.map s'.symbols) := by
  induction size generalizing s chain with
  | zero => exact absurd hsize (Nat.not_lt_zero _)
  | succ size ih =>
    rw [Symbols.drain]
    cases hpop : SpmMergeCandidate.pop s.heap with
    | none =>
      refine ⟨s, chain, rfl, h.toListed, rfl, .refl, ?_⟩
      rw [Greedy.Stuck, List.isChain_map]
      apply h.covered.imp
      intro x y hcovered
      rw [Option.eq_none_iff_forall_ne_some]
      intro k hk
      obtain ⟨d, hd, -⟩ := hcovered k hk
      rw [SpmMergeCandidate.pop_eq_none.mp hpop] at hd
      cases hd
    | some top =>
      obtain ⟨c, heap⟩ := top
      have hlen : s.heap.length = heap.length + 1 :=
        (SpmMergeCandidate.pop_spec hpop).1.length_eq
      dsimp only
      have hsame : ({ s with heap } : Symbols n K).isCurrent c = s.isCurrent c := rfl
      rw [hsame]
      cases hcurrent : s.isCurrent c with
      | false => exact ih (h.skip hpop hcurrent) (by dsimp only; omega)
      | true =>
        obtain ⟨⟨front, back, rfl⟩, -, -⟩ := h.isCurrent_iff.mp hcurrent
        have hgreedy := h.greedy hpop hcurrent
        have hnodup : (front ++ c.left :: c.right :: back).Nodup := h.sorted.imp ne_of_lt
        have htexts : (front ++ c.left :: back).map
            (({ s with heap } : Symbols n K).mergePair vocab c.left c.right).symbols =
              front.map s.symbols ++
                (s.symbols c.left ++ s.symbols c.right) :: back.map s.symbols := by
          rw [mergePair_symbols]
          exact absorb_texts hnodup
        have hheap : (({ s with heap } : Symbols n K).mergePair vocab c.left c.right).heap.length ≤
            heap.length + 2 :=
          tryAddMerge_length.trans (Nat.succ_le_succ tryAddMerge_length)
        obtain ⟨s', chain', hdrain, hlisted, hhead, hsteps, hstuck⟩ := ih (h.merge hpop) (by
          simp only [List.length_append, List.length_cons] at hsize ⊢
          omega)
        refine ⟨s', chain', hdrain, hlisted, ?_, ?_, hstuck⟩
        · rw [hhead]
          cases front <;> rfl
        · rw [htexts] at hsteps
          exact .head hgreedy hsteps

end Loop

theorem drain_stable [LinearOrder K] (vocab : ScoredVocab K) (s : Symbols n K) :
    Exec.Stable fun fuel => drain vocab fuel s := by
  apply Exec.Stable.of_succ
  intro fuel
  induction fuel generalizing s with
  | zero => exact fun _ h => nomatch h
  | succ fuel ih =>
    intro s' h
    rw [drain] at h ⊢
    cases hpop : SpmMergeCandidate.pop s.heap with
    | none =>
      rw [hpop] at h
      exact h
    | some top =>
      rw [hpop] at h
      dsimp only at h ⊢
      by_cases hcurrent : ({ s with heap := top.2 } : Symbols n K).isCurrent top.1 = true
      · rw [if_pos hcurrent] at h ⊢
        exact ih _ _ h
      · rw [if_neg hcurrent] at h ⊢
        exact ih _ _ h

theorem collect_stable (vocab : ScoredVocab K) (s : Symbols n K) (i : Option (Fin n)) :
    Exec.Stable fun fuel => s.collect vocab fuel i := by
  apply Exec.Stable.of_succ
  intro fuel
  induction fuel generalizing i with
  | zero => exact fun _ h => nomatch h
  | succ fuel ih =>
    intro ids h
    cases i with
    | none => exact h
    | some i =>
      rw [collect, Option.map_eq_some_iff] at h ⊢
      obtain ⟨rest, hrest, rfl⟩ := h
      exact ⟨rest, ih _ _ hrest, rfl⟩

/-- Along the list every id is collected. -/
theorem Listed.collect (h : s.Listed chain) :
    s.collect vocab (chain.length + 1) chain.head? =
      some (chain.map fun i => (vocab.idOf (s.symbols i)).getD 0) := by
  have hwalk : ∀ (before : Option (Fin n)) rest, s.Linked before rest none →
      (∀ i ∈ rest, s.alive i = true) → s.collect vocab (rest.length + 1) rest.head? =
        some (rest.map fun i => (vocab.idOf (s.symbols i)).getD 0) := by
    intro before rest
    induction rest generalizing before with
    | nil => exact fun _ _ => rfl
    | cons i rest ih =>
      intro hlinked halive
      obtain ⟨-, hnext, hrest⟩ := hlinked
      rw [List.forall_mem_cons] at halive
      rw [List.length_cons, List.head?_cons, Symbols.collect, hnext, Option.or_none,
        ih _ hrest halive.2, halive.1]
      rfl
  exact hwalk none chain h.linked fun i hi => (h.alive_iff i).mpr hi

section New

variable {symbols : List Text} {nexts : Fin n → Option (Fin n)}

theorem queueAll_fields (vocab : ScoredVocab K) (nexts : Fin n → Option (Fin n))
    (places : List (Fin n)) (s : Symbols n K) :
    (queueAll vocab nexts places s).symbols = s.symbols ∧
      (queueAll vocab nexts places s).nexts = s.nexts ∧
      (queueAll vocab nexts places s).prevs = s.prevs ∧
      (queueAll vocab nexts places s).alive = s.alive ∧
      (queueAll vocab nexts places s).heap.length ≤ s.heap.length + places.length := by
  induction places generalizing s with
  | nil => exact ⟨rfl, rfl, rfl, rfl, le_rfl⟩
  | cons i places ih =>
    obtain ⟨h1, h2, h3, h4, h5⟩ := ih (s.tryAddMerge vocab (some i) (nexts i))
    have hlen : (s.tryAddMerge vocab (some i) (nexts i)).heap.length ≤ s.heap.length + 1 :=
      tryAddMerge_length
    rw [tryAddMerge_symbols] at h1
    rw [tryAddMerge_nexts] at h2
    rw [tryAddMerge_prevs] at h3
    rw [tryAddMerge_alive] at h4
    refine ⟨h1, h2, h3, h4, h5.trans ?_⟩
    rw [List.length_cons]
    omega

theorem queueAll_covered {x y : Fin n} (places : List (Fin n)) {s : Symbols n K}
    (h : s.Covered vocab x y) : (queueAll vocab nexts places s).Covered vocab x y := by
  induction places generalizing s with
  | nil => exact h
  | cons i places ih => exact ih h.tryAddMerge

theorem queueAll_covers {x y : Fin n} {places : List (Fin n)} (s : Symbols n K) (hx : x ∈ places)
    (hy : nexts x = some y) : (queueAll vocab nexts places s).Covered vocab x y := by
  induction places generalizing s with
  | nil => cases hx
  | cons i places ih =>
    rcases List.mem_cons.mp hx with rfl | hx
    · have hnew : (s.tryAddMerge vocab (some x) (nexts x)).Covered vocab x y := by
        rw [hy]
        exact tryAddMerge_covered
      exact queueAll_covered places hnew
    · exact ih _ hx

theorem queueAll_scored (places : List (Fin n)) {s : Symbols n K}
    (h : ∀ c ∈ s.heap, priority vocab c.expectedLeftText c.expectedRightText = some c.score) :
    ∀ c ∈ (queueAll vocab nexts places s).heap,
      priority vocab c.expectedLeftText c.expectedRightText = some c.score := by
  induction places generalizing s with
  | nil => exact h
  | cons i places ih => exact ih (tryAddMerge_scored h)

theorem linked_finRange {s : Symbols n K}
    (hnexts : ∀ i, s.nexts i = if h : i.val + 1 < n then some ⟨i.val + 1, h⟩ else none)
    (hprevs : ∀ i, s.prevs i = if i.val = 0 then none else some ⟨i.val - 1, by omega⟩) :
    s.Linked none (List.finRange n) none := by
  have hdrop : ∀ k m, m + k = n → ∀ before,
      (∀ h : m < n, s.prevs ⟨m, h⟩ = before) → s.Linked before ((List.finRange n).drop m) none := by
    intro k
    induction k with
    | zero =>
      intro m hm before _
      rw [List.drop_of_length_le (by rw [List.length_finRange]; omega)]
      trivial
    | succ k ih =>
      intro m hm before hbefore
      have hlt : m < (List.finRange n).length := by
        rw [List.length_finRange]
        omega
      rw [List.drop_eq_getElem_cons hlt, List.getElem_finRange]
      refine ⟨hbefore (by omega), ?_, ?_⟩
      · rw [hnexts, List.head?_drop, Option.or_none]
        by_cases hnext : m + 1 < n
        · rw [List.getElem?_eq_getElem (by rwa [List.length_finRange]), List.getElem_finRange]
          exact dif_pos hnext
        · rw [List.getElem?_eq_none (by rw [List.length_finRange]; omega)]
          exact dif_neg hnext
      · apply ih (m + 1) (by omega)
        intro h
        rw [hprevs]
        simp
  exact hdrop n 0 (Nat.zero_add n) none fun h => by rw [hprevs]; rfl

theorem new_spec (vocab : ScoredVocab K) (symbols : List Text) :
    (new vocab symbols).Queued vocab (List.finRange symbols.length) ∧
      (List.finRange symbols.length).map (new vocab symbols).symbols = symbols ∧
      (new vocab symbols).heap.length ≤ symbols.length := by
  let nexts : Fin symbols.length → Option (Fin symbols.length) := fun i =>
    if h : i.val + 1 < symbols.length then some ⟨i.val + 1, h⟩ else none
  let start : Symbols symbols.length K :=
    ⟨symbols.get, nexts, fun i => if i.val = 0 then none else some ⟨i.val - 1, by omega⟩,
      fun _ => true, [], 0⟩
  have hnew : new vocab symbols =
      queueAll vocab nexts (List.finRange symbols.length) start := rfl
  rw [hnew]
  obtain ⟨hsymbols, hnexts, hprevs, halive, hlen⟩ :=
    queueAll_fields vocab nexts (List.finRange symbols.length) start
  refine ⟨⟨⟨?_, List.pairwise_lt_finRange _, ?_⟩, ?_, ?_⟩, ?_, ?_⟩
  · intro i
    rw [halive]
    exact ⟨fun _ => List.mem_finRange i, fun _ => rfl⟩
  · apply linked_finRange
    · rw [hnexts]
      exact fun i => rfl
    · rw [hprevs]
      exact fun i => rfl
  · rw [List.isChain_iff_forall_rel_of_append_cons_cons]
    intro x y front back hchain
    have hlinked : start.Linked none (List.finRange symbols.length) none :=
      linked_finRange (fun _ => rfl) fun _ => rfl
    rw [hchain] at hlinked
    exact queueAll_covers start (List.mem_finRange x) (linked_append.mp hlinked).2.2.1
  · exact queueAll_scored _ (s := start) nofun
  · rw [hsymbols]
    exact List.map_get_finRange symbols
  · simpa [start] using hlen

end New

end Symbols

end Frink.Tokenizer
