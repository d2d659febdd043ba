import Mathlib
import Frink.Radix.Evict
import Frink.Radix.Plain

/-! # An eviction spread over the namespaces

An eviction of the salted cache is a series of turns, each one whole node off the tree of
one namespace. A turn keeps the books of its tree and touches no other, so the sums over
the namespaces move by what was freed. A pass that gives every namespace a turn and frees
nothing leaves nothing to free.
-/

namespace Frink.Radix
open Forest RadixTree

namespace RadixTree

variable {t t' : RadixTree} {freed : List ℕ}

theorem Pruned.trans {t'' : RadixTree} {got : List ℕ} (h : Pruned t t' freed)
    (h' : Pruned t' t'' got) : Pruned t t'' (freed ++ got) := by
  induction h' with
  | refl => simpa using h
  | step _ hu hr ih =>
    rw [← List.append_assoc]
    exact .step ih hu hr

theorem Pruned.evictable (h : Pruned t t' freed) (hw : t.WellFormed) :
    t'.weigh evictableWeight + freed.length = t.weigh evictableWeight := by
  induction h with
  | refl => simp
  | @step t' t'' id p freed hp hu hr ih =>
    have hs := hu.weigh (w := evictableWeight)
    have hlen := (hp.wellFormed hw).length_eq id p hu.parent
    rw [evictableWeight, if_pos hr, hlen] at hs
    rw [List.length_append]
    omega

theorem Pruned.protected_eq (h : Pruned t t' freed) :
    t'.weigh protectedWeight = t.weigh protectedWeight := by
  induction h with
  | refl => rfl
  | step _ hu hr ih =>
    have hs := hu.weigh (w := protectedWeight)
    rw [protectedWeight, if_pos hr] at hs
    omega

end RadixTree

deriving instance DecidableEq for Handle

/-- The nodes of one namespace among some handles. -/
def nodesUnder (salt : Option ℕ) (handles : List Handle) : List NodeId :=
  handles.filterMap fun h => if h.salt = salt then some h.node else none

section Handles

variable {salt : Option ℕ} {h : Handle} {hs : List Handle}

theorem mem_nodesUnder {node : NodeId} : node ∈ nodesUnder salt hs ↔ ⟨salt, node⟩ ∈ hs := by
  simp only [nodesUnder, List.mem_filterMap]
  constructor
  · rintro ⟨⟨s, n⟩, hm, he⟩
    split at he
    · rename_i hs
      cases he
      cases hs
      exact hm
    · cases he
  · intro hm
    exact ⟨_, hm, if_pos rfl⟩

@[simp] theorem nodesUnder_cons_self : nodesUnder h.salt (h :: hs) = h.node :: nodesUnder h.salt hs := by
  simp [nodesUnder]

theorem nodesUnder_cons_ne (hne : salt ≠ h.salt) : nodesUnder salt (h :: hs) = nodesUnder salt hs := by
  simp [nodesUnder, hne.symm]

theorem nodesUnder_erase_self :
    nodesUnder h.salt (hs.erase h) = (nodesUnder h.salt hs).erase h.node := by
  induction hs with
  | nil => rfl
  | cons k hs ih =>
    by_cases hk : k = h
    · subst hk
      simp
    · rw [List.erase_cons_tail (by simpa using hk)]
      by_cases hsalt : h.salt = k.salt
      · have hnode : k.node ≠ h.node := fun hn => hk (by cases k; cases h; simp_all)
        rw [hsalt, nodesUnder_cons_self, nodesUnder_cons_self, List.erase_cons_tail (by simpa using hnode),
          ← hsalt, ih]
      · rw [nodesUnder_cons_ne hsalt, nodesUnder_cons_ne hsalt, ih]

theorem nodesUnder_erase_ne (hne : salt ≠ h.salt) :
    nodesUnder salt (hs.erase h) = nodesUnder salt hs := by
  induction hs with
  | nil => rfl
  | cons k hs ih =>
    by_cases hk : k = h
    · subst hk
      rw [List.erase_cons_head, nodesUnder_cons_ne hne]
    · rw [List.erase_cons_tail (by simpa using hk)]
      simp only [nodesUnder, List.filterMap_cons] at ih ⊢
      rw [ih]

end Handles

namespace SaltedRadix

section Sums

variable {M : Type*} [AddCommMonoid M] {s : SaltedRadix} {salt : Option ℕ} {c c' : RadixCache}
  {f : RadixCache → M}

/-- A quantity of the trees, summed over the namespaces. -/
def total (s : SaltedRadix) (f : RadixCache → M) : M :=
  (s.namespaces.entries.map fun e => f e.2).sum

theorem exists_entries (h : s.namespaces.lookup salt = some c) :
    ∃ l₁ l₂, s.namespaces.entries = l₁ ++ ⟨salt, c⟩ :: l₂ ∧
      s.namespaces.entries.kerase salt = l₁ ++ l₂ := by
  have hmem : salt ∈ s.namespaces.entries.keys := by
    apply AList.mem_keys.mp
    simp [← AList.lookup_isSome, h]
  obtain ⟨b, l₁, l₂, _, he, hk⟩ := List.exists_of_kerase hmem
  have hb : s.namespaces.lookup salt = some b :=
    AList.mem_lookup_iff.mpr (by rw [he]; simp)
  rw [h] at hb
  cases hb
  exact ⟨l₁, l₂, he, hk⟩

theorem total_setTree (f : RadixCache → M) (c' : RadixCache)
    (h : s.namespaces.lookup salt = some c) :
    (s.setTree salt c').total f + f c = s.total f + f c' := by
  obtain ⟨l₁, l₂, he, hk⟩ := exists_entries h
  simp only [total, setTree, AList.entries_insert, hk]
  simp only [he, List.map_cons, List.map_append, List.sum_cons, List.sum_append]
  abel

theorem mem_total {f : RadixCache → Multiset ℕ} {x : ℕ} (h : s.namespaces.lookup salt = some c)
    (hx : x ∈ f c) : x ∈ s.total f := by
  obtain ⟨l₁, l₂, he, _⟩ := exists_entries h
  simp [total, he, hx]

theorem total_congr {g : RadixCache → M}
    (h : ∀ salt c, s.namespaces.lookup salt = some c → f c = g c) : s.total f = s.total g := by
  unfold total
  congr 1
  apply List.map_congr_left
  rintro ⟨salt, c⟩ hm
  exact h salt c (AList.mem_lookup_iff.mpr hm)

theorem total_eq_zero (h : ∀ salt c, s.namespaces.lookup salt = some c → f c = 0) :
    s.total f = 0 := by
  rw [total_congr (g := fun _ => 0) h]
  simp [total]

theorem evictableSize_eq : s.evictableSize = s.total RadixCache.evictableSize := rfl

theorem protectedSize_eq : s.protectedSize = s.total RadixCache.protectedSize := rfl

@[simp] theorem lookup_setTree_self : (s.setTree salt c).namespaces.lookup salt = some c :=
  AList.lookup_insert _

theorem lookup_setTree_ne {other : Option ℕ} (h : other ≠ salt) :
    (s.setTree salt c).namespaces.lookup other = s.namespaces.lookup other :=
  AList.lookup_insert_ne h

end Sums

/-- The invariant of a salted cache, over the locks its callers hold. -/
structure Sound (pageSize : ℕ) (s : SaltedRadix) (locks : List Handle) : Prop where

  pageSize_eq : s.pageSize = pageSize
  nodup : s.order.Nodup
  mem_order : ∀ salt, salt ∈ s.order ↔ salt ∈ s.namespaces
  balanced : ∀ salt c, s.namespaces.lookup salt = some c →
    c.Balanced (nodesUnder salt locks) ∧ c.tree.pageSize = pageSize
  locked : ∀ l ∈ locks, l.salt ∈ s.order
  cursor_lt : s.evictCursor < 2 ^ 64

/-- Turns of the round robin: a namespace skipped, or a whole node off its tree. -/
inductive Turns (s : SaltedRadix) : SaltedRadix → List ℕ → Prop
  | refl : Turns s s []
  | skip {s' : SaltedRadix} {freed : List ℕ} {n : ℕ} : Turns s s' freed → n < 2 ^ 64 →
      Turns s { s' with evictCursor := n } freed
  | take {s' : SaltedRadix} {freed got : List ℕ} {salt : Option ℕ} {c c' : RadixCache} :
      Turns s s' freed → s'.namespaces.lookup salt = some c → 0 < c.evictableSize →
      c.evict 1 = some (c', got) → Turns s (s'.setTree salt c') (freed ++ got)

section Turns

variable {pageSize size fuel n : ℕ} {s s' s'' : SaltedRadix} {locks : List Handle}
  {freed got : List ℕ} {salt : Option ℕ} {c : RadixCache} {progress : Bool}

theorem Turns.trans (h : Turns s s' freed) (h' : Turns s' s'' got) :
    Turns s s'' (freed ++ got) := by
  induction h' with
  | refl => simpa using h
  | skip _ hn ih => exact ih.skip hn
  | take _ hl hpos he ih =>
    rw [← List.append_assoc]
    exact ih.take hl hpos he

theorem Turns.order (h : Turns s s' freed) : s'.order = s.order := by
  induction h with
  | refl => rfl
  | skip _ _ ih => exact ih
  | take _ _ _ _ ih => exact ih

/-- Writing a tree that keeps its books, over the locks as they are then. -/
theorem Sound.update {t : SaltedRadix} {locks' : List Handle} {c' : RadixCache}
    (h : s.Sound pageSize locks) (hl : s.namespaces.lookup salt = some c)
    (ht : t.namespaces.lookup salt = some c')
    (hkept : ∀ other, other ≠ salt → t.namespaces.lookup other = s.namespaces.lookup other)
    (hside : t.pageSize = s.pageSize ∧ t.order = s.order ∧ t.evictCursor = s.evictCursor)
    (hb : c'.Balanced (nodesUnder salt locks')) (hp : c'.tree.pageSize = pageSize)
    (hother : ∀ other, other ≠ salt → nodesUnder other locks' = nodesUnder other locks)
    (hlocked : ∀ l ∈ locks', l ∈ locks ∨ l.salt = salt) : t.Sound pageSize locks' := by
  obtain ⟨hpage, horder, hcursor⟩ := hside
  have hmem : ∀ other, other ∈ t.namespaces ↔ other ∈ s.namespaces := by
    intro other
    rw [← AList.lookup_isSome, ← AList.lookup_isSome]
    by_cases ho : other = salt
    · subst ho
      simp [ht, hl]
    · rw [hkept other ho]
  refine ⟨hpage.trans h.pageSize_eq, horder ▸ h.nodup, fun other => ?_, fun other d hd => ?_,
    fun l hm => ?_, hcursor ▸ h.cursor_lt⟩
  · rw [horder, hmem, h.mem_order]
  · by_cases ho : other = salt
    · subst ho
      rw [ht] at hd
      cases hd
      exact ⟨hb, hp⟩
    · rw [hkept other ho] at hd
      rw [hother other ho]
      exact h.balanced other d hd
  · rw [horder]
    rcases hlocked l hm with hm | rfl
    · exact h.locked l hm
    · exact (h.mem_order _).mpr (AList.lookup_isSome.mp (by simp [hl]))

/-- What one turn does to the tree it takes from. -/
theorem Sound.turn (h : s.Sound pageSize locks) (hl : s.namespaces.lookup salt = some c)
    (hpos : 0 < c.evictableSize) :
    ∃ c' got, c.evict 1 = some (c', got) ∧ 0 < got.length ∧ Pruned c.tree c'.tree got ∧
      c'.Balanced (nodesUnder salt locks) ∧ (s.setTree salt c').Sound pageSize locks := by
  obtain ⟨hb, hp⟩ := h.balanced salt c hl
  obtain ⟨c', got, he, hb', hprune, hlen⟩ := RadixCache.evict_spec hb hpos
  exact ⟨c', got, he, hlen, hprune, hb',
    h.update hl lookup_setTree_self (fun _ => lookup_setTree_ne) ⟨rfl, rfl, rfl⟩ hb'
      (hprune.pageSize.trans hp) (fun _ _ => rfl) fun _ => .inl⟩

theorem Turns.sound (h : Turns s s' freed) (hs : s.Sound pageSize locks) :
    s'.Sound pageSize locks := by
  induction h with
  | refl => exact hs
  | skip _ hn ih => exact { ih with cursor_lt := hn }
  | take _ hl hpos he ih =>
    obtain ⟨c', got, he', _, _, _, hs'⟩ := ih.turn hl hpos
    rw [he] at he'
    cases he'
    exact hs'

/-- The books of a series of turns: what was evictable or stored is so still, or was freed. -/
theorem Turns.books (h : Turns s s' freed) (hs : s.Sound pageSize locks) :
    s'.evictableSize + freed.length = s.evictableSize ∧ s'.protectedSize = s.protectedSize ∧
      (s'.total fun c => c.tree.weigh storedWeight) + (freed : Multiset ℕ) =
        s.total fun c => c.tree.weigh storedWeight := by
  induction h with
  | refl => simp
  | skip _ _ ih => exact ih
  | @take s' freed got salt c c' ht hl hpos he ih =>
    have hs' := ht.sound hs
    obtain ⟨d, got', he', _, hprune, hb', _⟩ := hs'.turn hl hpos
    rw [he] at he'
    cases he'
    have hb := (hs'.balanced salt c hl).1
    have hev := hprune.evictable hb.wellFormed
    have hpr := hprune.protected_eq
    have hst := hprune.stored
    rw [← hb.tallied.evictable, ← hb'.tallied.evictable] at hev
    rw [← hb.tallied.protected_eq, ← hb'.tallied.protected_eq] at hpr
    have he₁ := total_setTree RadixCache.evictableSize c' hl
    have hp₁ := total_setTree RadixCache.protectedSize c' hl
    have hs₁ := total_setTree (fun c => c.tree.weigh storedWeight) c' hl
    simp only [evictableSize_eq, protectedSize_eq] at ih ⊢
    refine ⟨?_, ?_, ?_⟩
    · rw [List.length_append]
      omega
    · omega
    · rw [← ih.2.2, ← Multiset.coe_add]
      apply add_right_cancel (b := c.tree.weigh storedWeight)
      rw [add_right_comm, hs₁, ← hst]
      abel

/-- A tree after some turns is the tree with unlocked leaves taken off. -/
theorem Turns.pruned (h : Turns s s' freed) (hs : s.Sound pageSize locks)
    (hl : s.namespaces.lookup salt = some c) :
    ∃ c' taken, s'.namespaces.lookup salt = some c' ∧ Pruned c.tree c'.tree taken := by
  induction h with
  | refl => exact ⟨c, [], hl, .refl⟩
  | skip _ _ ih => exact ih
  | @take s' freed got other d d' ht hd hpos he ih =>
    obtain ⟨c', taken, hc', hp⟩ := ih
    by_cases ho : salt = other
    · subst ho
      rw [hc'] at hd
      cases hd
      obtain ⟨e, got', he', _, hprune, _, _⟩ := (ht.sound hs).turn hc' hpos
      rw [he] at he'
      cases he'
      exact ⟨d', taken ++ got, lookup_setTree_self, hp.trans hprune⟩
    · exact ⟨c', taken, by rw [lookup_setTree_ne ho, hc'], hp⟩

theorem Turns.evictableSize_le {c' : RadixCache} (h : Turns s s' freed)
    (hs : s.Sound pageSize locks) (hl : s.namespaces.lookup salt = some c)
    (hl' : s'.namespaces.lookup salt = some c') : c'.evictableSize ≤ c.evictableSize := by
  obtain ⟨d, taken, hd, hp⟩ := h.pruned hs hl
  rw [hl'] at hd
  cases hd
  have hb := (hs.balanced salt c hl).1
  have hb' := ((h.sound hs).balanced salt c' hl').1
  have he := hp.evictable hb.wellFormed
  rw [← hb.tallied.evictable, ← hb'.tallied.evictable] at he
  omega

end Turns

/-- The namespace that gets the turn `i` turns from now. -/
def turnOf (s : SaltedRadix) (i : ℕ) : Option (Option ℕ) :=
  s.order[(s.evictCursor + i) % 2 ^ 64 % s.order.length]?

/-- Every namespace gets a turn in the pass that is `k` passes from now. -/
def EveryTurn (s : SaltedRadix) (k : ℕ) : Prop :=
  ∀ salt ∈ s.order, ∃ i < s.order.length, s.turnOf (k * s.order.length + i) = some salt

section Passes

variable {pageSize size fuel n : ℕ} {s s' : SaltedRadix} {locks : List Handle}
  {freed : List ℕ} {salt : Option ℕ} {c : RadixCache} {progress : Bool}

/-- The namespaces of some turns have nothing more to give. -/
def Exhausted (s s' : SaltedRadix) (start n : ℕ) : Prop :=
  ∀ i < n, ∀ salt c, s.turnOf (start + i) = some salt → s'.namespaces.lookup salt = some c →
    c.evictableSize = 0

theorem turnOf_advance (ho : s'.order = s.order)
    (hc : s'.evictCursor = (s.evictCursor + n) % 2 ^ 64) (i : ℕ) :
    s'.turnOf i = s.turnOf (n + i) := by
  unfold turnOf
  rw [ho, hc, Nat.mod_add_mod, Nat.add_assoc]

/-- A pass takes turns; one that frees nothing found its namespaces exhausted. -/
theorem evictPass_spec (h : s.Sound pageSize locks) (hne : s.order ≠ []) (freed : List ℕ)
    (progress : Bool) :
    ∃ s' got progress', evictPass size n s freed progress = some (s', freed ++ got, progress') ∧
      Turns s s' got ∧ (progress' = true ↔ progress = true ∨ 0 < got.length) ∧
      (size ≤ (freed ++ got).length ∧ progress' = true ∨
        s'.evictCursor = (s.evictCursor + n) % 2 ^ 64 ∧
          (progress' = false → got = [] ∧ s.Exhausted s' 0 n)) := by
  induction n generalizing s freed progress with
  | zero =>
    refine ⟨s, [], progress, by simp [evictPass], .refl, by simp, .inr ⟨?_, ?_⟩⟩
    · exact (Nat.mod_eq_of_lt h.cursor_lt).symm
    · exact fun _ => ⟨rfl, fun i hi => absurd hi (Nat.not_lt_zero i)⟩
  | succ n ih =>
    have hlt : s.evictCursor % s.order.length < s.order.length :=
      Nat.mod_lt _ (List.length_pos_of_ne_nil hne)
    obtain ⟨salt, hsalt⟩ : ∃ salt, s.order[s.evictCursor % s.order.length]? = some salt :=
      ⟨_, List.getElem?_eq_getElem hlt⟩
    have hfirst : s.turnOf 0 = some salt := by
      rw [turnOf, Nat.add_zero, Nat.mod_eq_of_lt h.cursor_lt, hsalt]
    obtain ⟨c, hl⟩ : ∃ c, s.namespaces.lookup salt = some c := by
      apply Option.isSome_iff_exists.mp
      rw [AList.lookup_isSome]
      exact (h.mem_order salt).mp (List.mem_of_getElem? hsalt)
    have hcur : (s.evictCursor + 1) % 2 ^ 64 < 2 ^ 64 := Nat.mod_lt _ (by decide)
    have h₁ : ({ s with evictCursor := (s.evictCursor + 1) % 2 ^ 64 } : SaltedRadix).Sound
        pageSize locks := { h with cursor_lt := hcur }
    have ht₁ : Turns s { s with evictCursor := (s.evictCursor + 1) % 2 ^ 64 } [] :=
      Turns.refl.skip hcur
    have hstep : ((s.evictCursor + 1) % 2 ^ 64 + n) % 2 ^ 64 =
        (s.evictCursor + (n + 1)) % 2 ^ 64 := by
      rw [Nat.mod_add_mod, Nat.add_assoc, Nat.add_comm 1 n]
    simp only [evictPass, hsalt, hl, Option.bind_eq_bind, Option.bind_some]
    by_cases hz : c.evictableSize = 0
    · rw [if_pos hz]
      obtain ⟨s', got, progress', he, ht, hp, hend⟩ := ih h₁ hne freed progress
      refine ⟨s', got, progress', he, ht₁.trans ht, hp, hend.imp id ?_⟩
      rintro ⟨hc, hno⟩
      refine ⟨hc.trans hstep, fun hf => ?_⟩
      obtain ⟨rfl, hex⟩ := hno hf
      refine ⟨rfl, fun i hi other d hturn hd => ?_⟩
      cases i with
      | zero =>
        rw [Nat.add_zero, hfirst] at hturn
        cases hturn
        have hle := ht.evictableSize_le h₁ hl hd
        omega
      | succ i =>
        refine hex i (by omega) other d ?_ hd
        have hnext : ({ s with evictCursor := (s.evictCursor + 1) % 2 ^ 64 } : SaltedRadix).turnOf
            (0 + i) = s.turnOf (1 + (0 + i)) := by
          apply turnOf_advance <;> rfl
        rw [hnext, ← hturn]
        congr 1
        omega
    · rw [if_neg hz]
      have hpos : 0 < c.evictableSize := Nat.pos_of_ne_zero hz
      obtain ⟨c', got₁, he₁, hlen, _, _, hs₁⟩ := h₁.turn hl hpos
      have ht₂ : Turns s (({ s with evictCursor := (s.evictCursor + 1) % 2 ^ 64 } :
          SaltedRadix).setTree salt c') got₁ := ht₁.take hl hpos he₁
      simp only [he₁, Option.bind_some]
      by_cases hsize : size ≤ (freed ++ got₁).length
      · rw [if_pos hsize]
        exact ⟨_, got₁, true, rfl, ht₂, by simp [hlen], .inl ⟨hsize, rfl⟩⟩
      · rw [if_neg hsize]
        obtain ⟨s', got, progress', he, ht, hp, hend⟩ := ih hs₁ hne (freed ++ got₁) true
        have hon : progress' = true := hp.mpr (.inl rfl)
        refine ⟨s', got₁ ++ got, progress', ?_, ht₂.trans ht, ?_, ?_⟩
        · rw [he, List.append_assoc]
        · simp [hon, hlen]
        · rw [List.append_assoc] at hend
          refine hend.imp id ?_
          rintro ⟨hc, _⟩
          refine ⟨hc.trans hstep, fun hf => ?_⟩
          rw [hon] at hf
          cases hf

/-- The loop returns, having freed enough or run a pass over exhausted namespaces. -/
theorem evictLoop_spec (h : s.Sound pageSize locks) (hne : s.order ≠ [])
    (hfuel : s.evictableSize < fuel) (freed : List ℕ) :
    ∃ s' got, evictLoop size fuel s freed = some (s', freed ++ got) ∧ Turns s s' got ∧
      (size ≤ (freed ++ got).length ∨
        ∃ k ≤ got.length, s.Exhausted s' (k * s.order.length) s.order.length) := by
  induction fuel generalizing s freed with
  | zero => omega
  | succ fuel ih =>
    obtain ⟨s₁, got, progress, he, ht, hp, hend⟩ :
        ∃ s₁ got progress, evictPass size s.order.length s freed false =
          some (s₁, freed ++ got, progress) ∧ _ := evictPass_spec h hne freed false
    simp only [evictLoop, he, Option.bind_eq_bind, Option.bind_some]
    by_cases hsize : size ≤ (freed ++ got).length
    · exact ⟨s₁, got, if_pos (by simp only [hsize, decide_true, Bool.true_or]), ht, .inl hsize⟩
    · obtain ⟨hc, hno⟩ := hend.resolve_left fun hs => hsize hs.1
      cases progress with
      | false =>
        obtain ⟨rfl, hex⟩ := hno rfl
        exact ⟨s₁, [], by simp, ht, .inr ⟨0, Nat.zero_le _, by simpa using hex⟩⟩
      | true =>
        have hlen : 0 < got.length := by simpa using hp.mp rfl
        have hb := (ht.books h).1
        have ho := ht.order
        obtain ⟨s', got', he', ht', hend'⟩ := ih (ht.sound h) (ho ▸ hne) (by omega)
          (freed ++ got)
        refine ⟨s', got ++ got', ?_, ht.trans ht', ?_⟩
        · simp only [hsize, decide_false, Bool.not_true, Bool.or_self, Bool.false_eq_true, if_false]
          rw [he', List.append_assoc]
        · rw [List.append_assoc] at hend'
          refine hend'.imp id ?_
          rintro ⟨k, hk, hex⟩
          refine ⟨k + 1, by rw [List.length_append]; omega, fun i hi salt c hturn => ?_⟩
          rw [ho] at hex
          refine hex i hi salt c ?_
          rw [turnOf_advance ho hc, ← hturn, Nat.succ_mul]
          congr 1
          omega

/-- An eviction returns; where every pass gives every namespace a turn, it frees what was
asked, and everything there is when that is less. -/
theorem evict_spec (size : ℕ) (h : s.Sound pageSize locks) :
    ∃ s' freed, s.evict size = some (s', freed) ∧ Turns s s' freed ∧
      ((∀ k < size, s.EveryTurn k) → min size s.evictableSize ≤ freed.length) := by
  unfold evict
  by_cases hz : size = 0
  · exact ⟨s, [], by simp [hz], .refl, fun _ => by simp [hz]⟩
  by_cases hne : s.order = []
  · refine ⟨s, [], by simp [hne], .refl, fun _ => ?_⟩
    have htotal : s.evictableSize = 0 := total_eq_zero fun salt c hl => by
      have hmem := (h.mem_order salt).mpr (AList.lookup_isSome.mp (by simp [hl]))
      rw [hne] at hmem
      cases hmem
    simp [htotal]
  obtain ⟨s', freed, he, ht, hend⟩ :
      ∃ s' freed, evictLoop size (s.evictableSize + 1) s [] = some (s', [] ++ freed) ∧ _ :=
    evictLoop_spec h hne (Nat.lt_succ_self _) []
  refine ⟨s', freed, ?_, ht, fun hall => ?_⟩
  · rw [if_neg (by simp [hz, hne]), he, List.nil_append]
  rw [List.nil_append] at hend
  by_contra hlt
  obtain ⟨k, hk, hex⟩ := hend.resolve_left (by omega)
  have htotal : s'.evictableSize = 0 := total_eq_zero fun salt c hl => by
    have hmem := ((ht.sound h).mem_order salt).mpr (AList.lookup_isSome.mp (by simp [hl]))
    rw [ht.order] at hmem
    obtain ⟨i, hi, hturn⟩ := hall k (by omega) salt hmem
    exact hex i hi salt c hturn hl
  have hb := (ht.books h).1
  omega

end Passes

end SaltedRadix

end Frink.Radix
