import Mathlib

/-! # Forests given by parent pointers

Each node knows its parent, the root has none. The chain of a node is the way up
to the root. Loops that climb, sweeps that descend, and the three changes a tree
goes through: a leaf is added, a leaf is removed, an edge is cut in two.
-/

namespace Frink.Forest

variable {ν σ : Type}

/-- The nodes met on the way from a node up to the root, the root left out. -/
inductive Chain (parent : ν → Option ν) (root : ν) : ν → List ν → Prop
  | root : Chain parent root root []
  | step {i p : ν} {l : List ν} : parent i = some p → Chain parent root p l →
      Chain parent root i (i :: l)

variable {parent parent' : ν → Option ν} {root i j p d w : ν} {l l' : List ν}

theorem chain_root_iff (hr : parent root = none) : Chain parent root root l ↔ l = [] := by
  constructor
  · intro h
    cases h with
    | root => rfl
    | step hp _ => rw [hr] at hp; cases hp
  · rintro rfl
    exact .root

theorem chain_of_parent (h : Chain parent root i l) (hi : parent i = some p)
    (hr : parent root = none) : ∃ t, l = i :: t ∧ Chain parent root p t := by
  cases h with
  | root => rw [hr] at hi; cases hi
  | step hp hc =>
    rw [hi] at hp
    cases hp
    exact ⟨_, rfl, hc⟩

theorem chain_of_no_parent (h : Chain parent root i l) (hi : parent i = none) : i = root := by
  cases h with
  | root => rfl
  | step hp _ => rw [hi] at hp; cases hp

theorem chain_unique (hr : parent root = none) (h : Chain parent root i l)
    (h' : Chain parent root i l') : l = l' := by
  induction h generalizing l' with
  | root => exact ((chain_root_iff hr).mp h').symm
  | step hp _ ih =>
    obtain ⟨t, rfl, ht⟩ := chain_of_parent h' hp hr
    rw [ih ht]

theorem parent_of_mem_chain (h : Chain parent root i l) (hj : j ∈ l) :
    ∃ p, parent j = some p ∧ (p = root ∨ p ∈ l) := by
  induction h with
  | root => cases hj
  | @step i p l hp hc ih =>
    rcases List.mem_cons.mp hj with rfl | hj
    · refine ⟨p, hp, ?_⟩
      cases hc with
      | root => exact .inl rfl
      | step _ _ => exact .inr (by simp)
    · obtain ⟨q, hq, hm⟩ := ih hj
      exact ⟨q, hq, hm.imp_right (List.mem_cons_of_mem _)⟩

theorem chain_of_mem (h : Chain parent root i l) (hj : j ∈ l) :
    ∃ t, Chain parent root j t ∧ t.length ≤ l.length := by
  induction h with
  | root => cases hj
  | @step i p l hp hc ih =>
    rcases List.mem_cons.mp hj with rfl | hj
    · exact ⟨_, .step hp hc, le_rfl⟩
    · obtain ⟨t, ht, hle⟩ := ih hj
      exact ⟨t, ht, hle.trans (by simp)⟩

theorem chain_nodup (hr : parent root = none) (h : Chain parent root i l) : l.Nodup := by
  induction h with
  | root => exact List.nodup_nil
  | @step i p l hp hc ih =>
    refine List.nodup_cons.mpr ⟨fun hi => ?_, ih⟩
    obtain ⟨t, ht, hle⟩ := chain_of_mem hc hi
    have hl := chain_unique hr ht (.step hp hc)
    rw [hl, List.length_cons] at hle
    omega

theorem chain_length_le {U : List ν} (hr : parent root = none)
    (hU : ∀ i p, parent i = some p → i ∈ U) (h : Chain parent root i l) :
    l.length ≤ U.length := by
  refine ((chain_nodup hr h).subperm fun j hj => ?_).length_le
  obtain ⟨p, hp, _⟩ := parent_of_mem_chain h hj
  exact hU j p hp

section Climb

/-- A loop that runs its body at each node of the way up. -/
def climb (parent : σ → ν → Option ν) (body : σ → ν → Option σ) : ℕ → σ → ν → Option σ
  | 0, _, _ => none
  | fuel + 1, s, i =>
      match parent s i with
      | none => some s
      | some _ => do
          let s ← body s i
          let p ← parent s i
          climb parent body fuel s p

/-- A climbing loop whose body moves no parent folds the body over the chain. -/
theorem climb_eq_foldlM {parent : σ → ν → Option ν} {body : σ → ν → Option σ}
    (hb : ∀ s i s', body s i = some s' → parent s' = parent s) {fuel : ℕ} {s : σ}
    (hr : parent s root = none) (h : Chain (parent s) root i l) (hf : l.length < fuel) :
    climb parent body fuel s i = l.foldlM body s := by
  induction l generalizing fuel s i with
  | nil =>
    obtain ⟨fuel, rfl⟩ : ∃ n, fuel = n + 1 := ⟨fuel - 1, by simp at hf; omega⟩
    cases h
    simp [climb, hr]
  | cons j l ih =>
    obtain ⟨fuel, rfl⟩ : ∃ n, fuel = n + 1 := ⟨fuel - 1, by simp at hf; omega⟩
    cases h with
    | step hp hc =>
      simp only [climb, hp, List.foldlM_cons, Option.bind_eq_bind]
      cases hbj : body s j with
      | none => rfl
      | some s' =>
        have hs := hb s j s' hbj
        simp only [Option.bind_some, hs, hp]
        exact ih (by rw [hs]; exact hr) (by rw [hs]; exact hc) (by simpa using hf)

end Climb

section Sweep

/-- Nodes are taken from the top of a stack; the children of each are pushed and emitted. -/
def sweep (kids : ν → List ν) : ℕ → List ν → List ν → Option (List ν)
  | 0, _, _ => none
  | _ + 1, [], out => some out
  | fuel + 1, i :: todo, out => sweep kids fuel ((kids i).reverse ++ todo) (out ++ kids i)

variable {kids : ν → List ν} {popped todo out res : List ν} {U : List ν} {fuel : ℕ}

/-- What a sweep has pushed so far, split into the popped nodes and the stack. -/
structure Swept (kids : ν → List ν) (root : ν) (popped todo out : List ν) : Prop where
  perm : (popped ++ todo).Perm (root :: out)
  out_perm : out.Perm (popped.flatMap kids)
  nodup : (popped ++ todo).Nodup

theorem swept_start : Swept kids root [] [root] [] :=
  ⟨.refl _, .refl _, by simp⟩

theorem nodup_flatMap_kids (hk : ∀ p c, c ∈ kids p ↔ parent c = some p)
    (hn : ∀ p, (kids p).Nodup) {l : List ν} (hl : l.Nodup) : (l.flatMap kids).Nodup := by
  refine List.nodup_flatMap.mpr ⟨fun p _ => hn p, hl.imp fun {a b} hab => ?_⟩
  intro c ha hb
  have hc := (hk a c).mp ha
  rw [(hk b c).mp hb] at hc
  exact hab (Option.some.inj hc).symm

theorem swept_step (hk : ∀ p c, c ∈ kids p ↔ parent c = some p) (hn : ∀ p, (kids p).Nodup)
    (hr : parent root = none) (h : Swept kids root popped (i :: todo) out) :
    Swept kids root (popped ++ [i]) ((kids i).reverse ++ todo) (out ++ kids i) := by
  have hout : (out ++ kids i).Perm ((popped ++ [i]).flatMap kids) := by
    rw [List.flatMap_append, List.flatMap_singleton]
    exact h.out_perm.append_right _
  have hperm : (popped ++ [i] ++ ((kids i).reverse ++ todo)).Perm (root :: (out ++ kids i)) := by
    have hswap : (popped ++ [i] ++ ((kids i).reverse ++ todo)).Perm
        (popped ++ i :: todo ++ kids i) := by
      rw [List.append_assoc, List.append_assoc, List.singleton_append, List.cons_append]
      refine (List.Perm.cons i ?_).append_left popped
      exact ((List.reverse_perm _).append_right todo).trans List.perm_append_comm
    exact hswap.trans (h.perm.append_right _)
  refine ⟨hperm, hout, hperm.nodup_iff.mpr (List.nodup_cons.mpr ⟨?_, ?_⟩)⟩
  · intro hm
    obtain ⟨p, _, hp⟩ := List.mem_flatMap.mp (hout.mem_iff.mp hm)
    have hpr := (hk p root).mp hp
    rw [hr] at hpr
    cases hpr
  · refine hout.nodup_iff.mpr (nodup_flatMap_kids hk hn ?_)
    refine List.Nodup.sublist ?_ h.nodup
    exact (List.Sublist.refl popped).append (List.singleton_sublist.mpr (by simp))

theorem sweep_swept (hk : ∀ p c, c ∈ kids p ↔ parent c = some p) (hn : ∀ p, (kids p).Nodup)
    (hr : parent root = none) (hU : ∀ i ∈ root :: out ++ todo, i ∈ U)
    (hUk : ∀ i p, parent i = some p → i ∈ U) (h : Swept kids root popped todo out)
    (hf : U.length < fuel + popped.length) :
    ∃ res order, sweep kids fuel todo out = some res ∧ Swept kids root order [] res := by
  induction fuel generalizing popped todo out with
  | zero =>
    have hle : popped.length ≤ U.length := by
      refine (List.Nodup.subperm (h.nodup.sublist (List.sublist_append_left _ _)) ?_).length_le
      intro j hj
      have hj := h.perm.mem_iff.mp (List.mem_append_left _ hj)
      exact hU j (by simp only [List.cons_append, List.mem_cons, List.mem_append] at hj ⊢; tauto)
    omega
  | succ fuel ih =>
    cases todo with
    | nil => exact ⟨out, popped, rfl, h⟩
    | cons i todo =>
      refine ih ?_ (swept_step hk hn hr h) (by simp; omega)
      intro j hj
      simp only [List.cons_append, List.mem_cons, List.mem_append, List.mem_reverse] at hj
      rcases hj with rfl | (hj | hj) | hj | hj
      · exact hU _ (by simp)
      · exact hU _ (by simp [hj])
      · exact hUk _ _ ((hk _ _).mp hj)
      · exact hUk _ _ ((hk _ _).mp hj)
      · exact hU _ (by simp [hj])

theorem mem_swept_iff (hk : ∀ p c, c ∈ kids p ↔ parent c = some p)
    (hreach : ∀ i p, parent i = some p → ∃ l, Chain parent root p l)
    (h : Swept kids root popped [] out) : i ∈ out ↔ (parent i).isSome := by
  have hpop : ∀ j, j ∈ popped ↔ j = root ∨ j ∈ out := by
    intro j
    have hj := h.perm.mem_iff (a := j)
    simpa using hj
  constructor
  · intro hi
    obtain ⟨p, _, hp⟩ := List.mem_flatMap.mp (h.out_perm.mem_iff.mp hi)
    simp [(hk p i).mp hp]
  · intro hi
    obtain ⟨p, hp⟩ := Option.isSome_iff_exists.mp hi
    obtain ⟨l, hc⟩ := hreach i p hp
    have hmem : ∀ {q t}, Chain parent root q t → q ∈ popped := by
      intro q t hq
      induction hq with
      | root => exact (hpop root).mpr (.inl rfl)
      | @step q r t hqr _ ihq =>
        refine (hpop q).mpr (.inr (h.out_perm.mem_iff.mpr ?_))
        exact List.mem_flatMap.mpr ⟨r, ihq, (hk r q).mpr hqr⟩
    exact h.out_perm.mem_iff.mpr (List.mem_flatMap.mpr ⟨p, hmem hc, (hk p i).mpr hp⟩)

/-- A sweep from the root emits every node that has a parent, once. -/
theorem sweep_root (hk : ∀ p c, c ∈ kids p ↔ parent c = some p) (hn : ∀ p, (kids p).Nodup)
    (hr : parent root = none) (hreach : ∀ i p, parent i = some p → ∃ l, Chain parent root p l)
    (hroot : root ∈ U) (hUk : ∀ i p, parent i = some p → i ∈ U) :
    ∃ res, sweep kids (U.length + 1) [root] [] = some res ∧ res.Nodup ∧
      ∀ i, i ∈ res ↔ (parent i).isSome := by
  have hstart : Swept kids root [] [root] [] := swept_start
  obtain ⟨res, order, he, hs⟩ := sweep_swept hk hn hr
    (by intro j hj; simp at hj; exact hj ▸ hroot) hUk hstart (Nat.lt_succ_self U.length)
  refine ⟨res, he, ?_, fun i => mem_swept_iff hk hreach hs⟩
  have hnd := hs.perm.nodup_iff.mp hs.nodup
  exact (List.nodup_cons.mp hnd).2

end Sweep

section Surgery

theorem chain_add_leaf (hw : parent w = none) (hwr : w ≠ root)
    (hsame : ∀ j, j ≠ w → parent' j = parent j) (h : Chain parent root i l) :
    Chain parent' root i l ∧ w ∉ l := by
  induction h with
  | root => exact ⟨.root, by simp⟩
  | @step i p l hp hc ih =>
    have hiw : i ≠ w := by
      rintro rfl
      rw [hw] at hp
      cases hp
    exact ⟨.step (by rw [hsame i hiw]; exact hp) ih.1, by simp [Ne.symm hiw, ih.2]⟩

theorem chain_remove_leaf (hd : ∀ j, parent j ≠ some d) (hsame : ∀ j, j ≠ d → parent' j = parent j)
    (h : Chain parent root i l) (hi : i ≠ d) : Chain parent' root i l ∧ d ∉ l := by
  induction h with
  | root => exact ⟨.root, by simp⟩
  | @step i p l hp hc ih =>
    have hpd : p ≠ d := fun h => hd i (h ▸ hp)
    exact ⟨.step (by rw [hsame i hi]; exact hp) (ih hpd).1, by simp [Ne.symm hi, (ih hpd).2]⟩

variable [DecidableEq ν]

/-- The chain of a node below the cut edge: the new node follows the old one. -/
def splice (d w : ν) (l : List ν) : List ν := l.flatMap fun j => if j = d then [d, w] else [j]

theorem mem_splice_iff (hne : j ≠ w) : j ∈ splice d w l ↔ j ∈ l := by
  simp only [splice, List.mem_flatMap]
  constructor
  · rintro ⟨k, hk, hj⟩
    split at hj
    · rename_i hkd
      simp only [List.mem_cons, List.not_mem_nil, or_false, hne] at hj
      exact hj ▸ hkd ▸ hk
    · exact (List.mem_singleton.mp hj) ▸ hk
  · intro hj
    refine ⟨j, hj, ?_⟩
    split
    · rename_i h; simp [h]
    · simp

theorem new_mem_splice_iff (hw : w ∉ l) : w ∈ splice d w l ↔ d ∈ l := by
  simp only [splice, List.mem_flatMap]
  constructor
  · rintro ⟨k, hk, hj⟩
    split at hj
    · rename_i hkd
      exact hkd ▸ hk
    · exact (hw ((List.mem_singleton.mp hj) ▸ hk)).elim
  · intro hd
    exact ⟨d, hd, by simp⟩

theorem chain_split (hd : parent d = some p) (hw : parent w = none) (hwr : w ≠ root)
    (hd' : parent' d = some w) (hw' : parent' w = some p)
    (hsame : ∀ j, j ≠ d → j ≠ w → parent' j = parent j) (h : Chain parent root i l) :
    Chain parent' root i (splice d w l) ∧ w ∉ l := by
  induction h with
  | root => exact ⟨.root, by simp⟩
  | @step i q l hq hc ih =>
    have hiw : i ≠ w := by
      rintro rfl
      rw [hw] at hq
      cases hq
    refine ⟨?_, by simp [Ne.symm hiw, ih.2]⟩
    by_cases hid : i = d
    · subst hid
      rw [hd] at hq
      cases hq
      have hs : splice i w (i :: l) = i :: w :: splice i w l := by simp [splice]
      rw [hs]
      exact .step hd' (.step hw' ih.1)
    · have hs : splice d w (i :: l) = i :: splice d w l := by simp [splice, hid]
      rw [hs]
      exact .step (by rw [hsame i hid hiw]; exact hq) ih.1

end Surgery

end Frink.Forest
