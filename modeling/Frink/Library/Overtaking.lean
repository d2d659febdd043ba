import Mathlib

/-! # Lines with bounded overtaking

One waits in a line until one is taken, cancelled, or passed over by somebody further back. Who
was passed over `bound` times is passed over no more, so a line starves nobody: what can be
served first is what stood ahead, what is away and may come back, and `bound` latecomers.
-/

namespace Frink.Overtaking

variable {ι : Type}

/-- One who waits: how often it was passed over, and how often it can still be served. -/
structure Waiter (ι : Type) where

  id : ι

  skips : ℕ

  credit : ℕ

namespace Waiter

def pass (x : Waiter ι) : Waiter ι := { x with skips := x.skips + 1 }

@[simp] theorem pass_id (x : Waiter ι) : x.pass.id = x.id := rfl

@[simp] theorem pass_skips (x : Waiter ι) : x.pass.skips = x.skips + 1 := rfl

@[simp] theorem pass_credit (x : Waiter ι) : x.pass.credit = x.credit := rfl

end Waiter

abbrev Line (ι : Type) := List (Waiter ι)

def ids (l : Line ι) : List ι := l.map Waiter.id

def credits (l : Line ι) : ℕ := (l.map Waiter.credit).sum

/-- What a step shows: who joins the line, who leaves it for service and past whom, who leaves it
for good, and who is served. -/
structure Event (ι : Type) where

  joined : Option ι := none

  taken : Option ι := none

  jumped : List ι := []

  cancelled : Option ι := none

  served : Option ι := none

namespace Event

/-- The event leaves `x` where it waits. -/
def Spares (e : Event ι) (x : ι) : Prop := e.taken ≠ some x ∧ e.cancelled ≠ some x

end Event

/-- How often `x` is passed over. -/
def passes [DecidableEq ι] (x : ι) (events : List (Event ι)) : ℕ :=
  (events.map fun e => e.jumped.count x).sum

def serves (events : List (Event ι)) : ℕ := events.countP fun e => e.served.isSome

/-- One step of a line, with the credit of everybody who is away from it. -/
inductive Step (bound fresh : ℕ) : Line ι → ℕ → Event ι → Line ι → ℕ → Prop

  | idle {l : Line ι} {out out' : ℕ} (served : Option ι)
      (h : out' + (if served.isSome then 1 else 0) ≤ out) :
      Step bound fresh l out { served } l out'

  | join {l : Line ι} {out : ℕ} {x : Waiter ι} (hskips : x.skips = 0) (hcredit : x.credit ≤ fresh)
      (hnew : x.id ∉ ids l) : Step bound fresh l out { joined := some x.id } (l ++ [x]) out

  | leave {front back : Line ι} {out : ℕ} {x : Waiter ι} :
      Step bound fresh (front ++ x :: back) out { cancelled := some x.id } (front ++ back) out

  | take {front back : Line ι} {out out' : ℕ} {x : Waiter ι}
      (hfront : ∀ y ∈ front, y.skips < bound) (hhead : bound ≤ x.skips → front = [])
      (hout : out' ≤ out + x.credit) :
      Step bound fresh (front ++ x :: back) out { taken := some x.id, jumped := ids front }
        (front.map Waiter.pass ++ back) out'

  | giveBack {l front : Line ι} {out out' : ℕ} (hskips : ∀ x ∈ front, x.skips = 0)
      (hnew : (ids (front ++ l)).Nodup) (hout : out' + credits front ≤ out) :
      Step bound fresh l out {} (front ++ l) out'

inductive Run (bound fresh : ℕ) : Line ι → ℕ → List (Event ι) → Line ι → ℕ → Prop

  | nil {l : Line ι} {out : ℕ} : Run bound fresh l out [] l out

  | cons {l l' l'' : Line ι} {out out' out'' : ℕ} {e : Event ι} {events : List (Event ι)}
      (h : Step bound fresh l out e l' out') (rest : Run bound fresh l' out' events l'' out'') :
      Run bound fresh l out (e :: events) l'' out''

/-- Everybody waits once, and nobody was passed over more than `bound` times. -/
structure Sound (bound : ℕ) (l : Line ι) : Prop where

  nodup : (ids l).Nodup

  skips_le : ∀ x ∈ l, x.skips ≤ bound

variable {bound fresh out out' : ℕ} {l l' front back : Line ι} {e : Event ι}
  {events : List (Event ι)} {x y : Waiter ι}

@[simp] theorem ids_append : ids (front ++ back) = ids front ++ ids back := List.map_append

@[simp] theorem ids_cons : ids (x :: l) = x.id :: ids l := rfl

@[simp] theorem ids_pass : ids (l.map Waiter.pass) = ids l := by simp [ids, Function.comp_def]

@[simp] theorem credits_append : credits (front ++ back) = credits front + credits back := by
  simp [credits]

@[simp] theorem credits_cons : credits (x :: l) = x.credit + credits l := rfl

@[simp] theorem credits_pass : credits (l.map Waiter.pass) = credits l := by
  simp [credits, Function.comp_def]

theorem serves_cons : serves (e :: events) =
    (if e.served.isSome then 1 else 0) + serves events := by
  rw [serves, List.countP_cons, Nat.add_comm]
  rfl

theorem sublist_left : (front ++ back).Sublist (front ++ x :: back) :=
  List.Sublist.append_left (List.sublist_cons_self _ _) _

theorem Step.sound (h : Step bound fresh l out e l' out') (hl : Sound bound l) :
    Sound bound l' := by
  obtain ⟨hnodup, hskips⟩ := hl
  cases h with
  | idle => exact ⟨hnodup, hskips⟩
  | join hzero _ hnew =>
    constructor
    · rw [ids_append, List.nodup_append]
      refine ⟨hnodup, List.nodup_singleton _, ?_⟩
      rintro a ha b hb rfl
      exact hnew (List.mem_singleton.mp hb ▸ ha)
    · intro y hy
      rcases List.mem_append.mp hy with hy | hy
      · exact hskips y hy
      · rw [List.mem_singleton.mp hy, hzero]
        exact Nat.zero_le bound
  | leave =>
    constructor
    · exact hnodup.sublist (sublist_left.map Waiter.id)
    · exact fun y hy => hskips y (sublist_left.subset hy)
  | @take front back _ _ x hfront _ _ =>
    constructor
    · rw [ids_append, ids_pass, ← ids_append]
      exact hnodup.sublist (sublist_left.map Waiter.id)
    · intro y hy
      rcases List.mem_append.mp hy with hy | hy
      · obtain ⟨z, hz, rfl⟩ := List.mem_map.mp hy
        exact hfront z hz
      · exact hskips y (by simp [hy])
  | giveBack hzero hnew _ =>
    refine ⟨hnew, fun y hy => ?_⟩
    rcases List.mem_append.mp hy with hy | hy
    · rw [hzero y hy]
      exact Nat.zero_le bound
    · exact hskips y hy

theorem Run.sound (h : Run bound fresh l out events l' out') (hl : Sound bound l) :
    Sound bound l' := by
  induction h with
  | nil => exact hl
  | cons h _ ih => exact ih (h.sound hl)

section Passes

variable [DecidableEq ι] {i : ι}

def skipsOf (i : ι) (l : Line ι) : ℕ :=
  ((l.filter fun y => decide (y.id = i)).map Waiter.skips).sum

@[simp] theorem skipsOf_append : skipsOf i (front ++ back) = skipsOf i front + skipsOf i back := by
  simp [skipsOf]

theorem skipsOf_cons_ne (h : x.id ≠ i) : skipsOf i (x :: l) = skipsOf i l := by
  simp [skipsOf, h]

theorem skipsOf_eq_zero (h : ∀ y ∈ l, y.id = i → y.skips = 0) : skipsOf i l = 0 := by
  apply List.sum_eq_zero
  simp only [List.mem_map, List.mem_filter, decide_eq_true_eq]
  rintro _ ⟨y, ⟨hy, hid⟩, rfl⟩
  exact h y hy hid

theorem skipsOf_pass : skipsOf i (l.map Waiter.pass) = skipsOf i l + (ids l).count i := by
  induction l with
  | nil => rfl
  | cons y l ih =>
    rw [List.map_cons, ids_cons, List.count_cons]
    by_cases hy : y.id = i
    · simp only [skipsOf, List.filter_cons, Waiter.pass_id, hy, decide_true, if_true, List.map_cons,
        List.sum_cons, Waiter.pass_skips, beq_self_eq_true] at ih ⊢
      omega
    · rw [skipsOf_cons_ne hy, skipsOf_cons_ne (by exact hy), ih]
      simp [hy]

theorem skipsOf_le (h : Sound bound l) : skipsOf i l ≤ bound := by
  obtain ⟨hnodup, hskips⟩ := h
  induction l with
  | nil => exact Nat.zero_le bound
  | cons y l ih =>
    rw [ids_cons, List.nodup_cons] at hnodup
    by_cases hy : y.id = i
    · have hrest : skipsOf i l = 0 := by
        apply skipsOf_eq_zero
        intro z hz hid
        exact absurd (List.mem_map.mpr ⟨z, hz, hid.trans hy.symm⟩) hnodup.1
      have hhead : skipsOf i (y :: l) = y.skips + skipsOf i l := by simp [skipsOf, hy]
      rw [hhead, hrest]
      exact hskips y List.mem_cons_self
    · rw [skipsOf_cons_ne hy]
      exact ih hnodup.2 fun z hz => hskips z (List.mem_cons_of_mem _ hz)

/-- Its skips are counted where it is passed over, as long as it waits. -/
theorem Step.skipsOf_eq (h : Step bound fresh l out e l' out') (hi : e.Spares i) :
    skipsOf i l' = skipsOf i l + e.jumped.count i := by
  obtain ⟨htaken, hcancelled⟩ := hi
  cases h with
  | idle => rfl
  | join hzero _ _ =>
    rw [skipsOf_append, skipsOf_eq_zero (l := [_])]
    · rfl
    · rintro y hy -
      rw [List.mem_singleton.mp hy, hzero]
  | leave =>
    rw [skipsOf_append, skipsOf_append, skipsOf_cons_ne fun h => hcancelled (congrArg some h)]
    rfl
  | take =>
    rw [skipsOf_append, skipsOf_append, skipsOf_pass,
      skipsOf_cons_ne fun h => htaken (congrArg some h)]
    exact Nat.add_right_comm _ _ _
  | giveBack hzero _ _ =>
    rw [skipsOf_append, skipsOf_eq_zero fun y hy _ => hzero y hy, Nat.zero_add]
    rfl

theorem Run.skipsOf_eq (h : Run bound fresh l out events l' out')
    (hi : ∀ e ∈ events, e.Spares i) : skipsOf i l' = skipsOf i l + passes i events := by
  induction h with
  | nil => rfl
  | cons h _ ih =>
    rw [ih fun e he => hi e (List.mem_cons_of_mem _ he), h.skipsOf_eq (hi _ List.mem_cons_self)]
    exact Nat.add_assoc _ _ _

/-- As long as one waits one is passed over at most `bound` times. -/
theorem Run.passes_le (h : Run bound fresh l out events l' out') (hl : Sound bound l)
    (hi : ∀ e ∈ events, e.Spares i) : passes i events ≤ bound := by
  have hle : skipsOf i l' ≤ bound := skipsOf_le (h.sound hl)
  rw [h.skipsOf_eq hi] at hle
  omega

end Passes

section Order

theorem sublist_of_skipped {part : Line ι} (h : part.Sublist (front ++ x :: back))
    (hfront : ∀ y ∈ part, y ∉ front) (hx : x ∉ part) : part.Sublist back := by
  obtain ⟨part₁, part₂, rfl, h₁, h₂⟩ := List.sublist_append_iff.mp h
  have hnil : part₁ = [] := by
    apply List.eq_nil_iff_forall_not_mem.mpr
    intro y hy
    exact hfront y (List.mem_append_left _ hy) (h₁.subset hy)
  subst hnil
  cases h₂ with
  | cons _ h₂ => exact h₂
  | cons_cons _ h₂ => exact absurd (List.mem_append_right _ List.mem_cons_self) hx

theorem sublist_of_left {part : Line ι} (h : part.Sublist (front ++ x :: back)) (hx : x ∉ part) :
    part.Sublist (front ++ back) := by
  obtain ⟨part₁, part₂, rfl, h₁, h₂⟩ := List.sublist_append_iff.mp h
  apply h₁.append
  cases h₂ with
  | cons _ h₂ => exact h₂
  | cons_cons _ h₂ => exact absurd (List.mem_append_right _ List.mem_cons_self) hx

/-- Of two at the bound the one behind is not taken, and stays behind. -/
theorem Step.order (h : Step bound fresh l out e l' out') (hl : Sound bound l)
    (hxy : [x, y].Sublist l) (hx : bound ≤ x.skips) (hy : bound ≤ y.skips)
    (hspares : e.Spares x.id) (hwaits : e.cancelled ≠ some y.id) :
    e.taken ≠ some y.id ∧ [x, y].Sublist l' := by
  obtain ⟨htaken, hcancelled⟩ := hspares
  cases h with
  | idle => exact ⟨nofun, hxy⟩
  | join => exact ⟨nofun, hxy.trans (List.sublist_append_left _ _)⟩
  | @leave front back _ z =>
    refine ⟨nofun, sublist_of_left hxy ?_⟩
    intro hz
    rcases List.mem_pair.mp hz with rfl | rfl
    · exact hcancelled rfl
    · exact hwaits rfl
  | @take front back _ _ z hfront hhead _ =>
    have hzx : z.id ≠ x.id := fun h => htaken (congrArg some h)
    have hlate : ∀ v ∈ [x, y], v ∉ front := by
      intro v hv hmem
      have hlt : v.skips < bound := hfront v hmem
      rcases List.mem_pair.mp hv with rfl | rfl <;> omega
    have hzy : z.id ≠ y.id := by
      intro hzy
      have hnodup : (front ++ z :: back).Nodup := List.Nodup.of_map Waiter.id hl.nodup
      have hmem : y ∈ front ++ z :: back := hxy.subset (by simp)
      have hz : z = y := List.inj_on_of_nodup_map hl.nodup (by simp) hmem hzy
      subst hz
      rw [hhead hy] at hxy hnodup
      rw [List.nil_append] at hxy hnodup
      cases hxy with
      | cons _ hxy => exact (List.nodup_cons.mp hnodup).1 (hxy.subset (by simp))
      | cons_cons _ _ => exact hzx rfl
    refine ⟨fun h => hzy (Option.some.inj h), ?_⟩
    have hback : [x, y].Sublist back := by
      apply sublist_of_skipped hxy hlate
      intro hz
      rcases List.mem_pair.mp hz with rfl | rfl
      · exact hzx rfl
      · exact hzy rfl
    exact hback.trans (List.sublist_append_right _ _)
  | giveBack => exact ⟨nofun, hxy.trans (List.sublist_append_right _ _)⟩

theorem Run.order (h : Run bound fresh l out events l' out') (hl : Sound bound l)
    (hxy : [x, y].Sublist l) (hx : bound ≤ x.skips) (hy : bound ≤ y.skips)
    (hspares : ∀ e ∈ events, e.Spares x.id) (hwaits : ∀ e ∈ events, e.cancelled ≠ some y.id) :
    (∀ e ∈ events, e.taken ≠ some y.id) ∧ [x, y].Sublist l' := by
  induction h with
  | nil => exact ⟨nofun, hxy⟩
  | cons h _ ih =>
    rw [List.forall_mem_cons] at hspares hwaits
    obtain ⟨htaken, hxy'⟩ := h.order hl hxy hx hy hspares.1 hwaits.1
    obtain ⟨hrest, hlast⟩ := ih (h.sound hl) hxy' hspares.2 hwaits.2
    exact ⟨List.forall_mem_cons.mpr ⟨htaken, hrest⟩, hlast⟩

end Order

section Arrival

variable {i : ι} {n : ℕ}

/-- What was served since `i` came, and what may still be served before it: who stands ahead, who
is away, and a latecomer for each time it was passed over. -/
def Owes (fresh : ℕ) (i : ι) (n : ℕ) (l : Line ι) (out served : ℕ) : Prop :=
  ∃ front y back, l = front ++ y :: back ∧ y.id = i ∧ (∀ z ∈ back, z.credit ≤ fresh) ∧
    served + out + credits front ≤ n + fresh * y.skips

theorem Owes.of_join (hid : x.id = i) (hn : out + credits l ≤ n) :
    Owes fresh i n (l ++ [x]) out 0 :=
  ⟨l, x, [], rfl, hid, nofun, by omega⟩

theorem Owes.mem {served : ℕ} (h : Owes fresh i n l out served) : i ∈ ids l := by
  obtain ⟨front, y, back, rfl, rfl, -⟩ := h
  simp

theorem Owes.served_le {served : ℕ} (h : Owes fresh i n l out served) (hl : Sound bound l) :
    served ≤ n + fresh * bound := by
  obtain ⟨front, y, back, rfl, -, -, hle⟩ := h
  have hskips : fresh * y.skips ≤ fresh * bound :=
    Nat.mul_le_mul_left fresh (hl.skips_le y (by simp))
  omega

/-- Where somebody stands in a line that is split at somebody else. -/
theorem split_cases {front' back' : Line ι} (h : front ++ y :: back = front' ++ x :: back') :
    (∃ mid, front' = front ++ y :: mid ∧ back = mid ++ x :: back') ∨
      (front' = front ∧ x = y ∧ back' = back) ∨
        ∃ mid, front = front' ++ x :: mid ∧ back' = mid ++ y :: back := by
  rcases List.append_eq_append_iff.mp h with ⟨mid, hfront, hmid⟩ | ⟨mid, hfront, hmid⟩
  · cases mid with
    | nil =>
      cases hmid
      exact .inr (.inl ⟨by simpa using hfront, rfl, rfl⟩)
    | cons v mid =>
      cases hmid
      exact .inl ⟨mid, hfront, rfl⟩
  · cases mid with
    | nil =>
      cases hmid
      exact .inr (.inl ⟨by simpa using hfront.symm, rfl, rfl⟩)
    | cons v mid =>
      cases hmid
      exact .inr (.inr ⟨mid, hfront, rfl⟩)

theorem Step.owes {served : ℕ} (h : Step bound fresh l out e l' out')
    (ho : Owes fresh i n l out served) (hi : e.Spares i) :
    Owes fresh i n l' out' (served + if e.served.isSome then 1 else 0) := by
  obtain ⟨front, y, back, rfl, hy, hback, hle⟩ := ho
  obtain ⟨htaken, hcancelled⟩ := hi
  generalize hl : front ++ y :: back = l at h
  cases h with
  | idle o hout =>
    subst hl
    exact ⟨front, y, back, rfl, hy, hback, by dsimp only; omega⟩
  | @join _ _ z _ hcredit _ =>
    subst hl
    refine ⟨front, y, back ++ [z], by simp, hy, ?_, hle⟩
    intro v hv
    rcases List.mem_append.mp hv with hv | hv
    · exact hback v hv
    · rw [List.mem_singleton.mp hv]
      exact hcredit
  | @leave front' back' _ z =>
    rcases split_cases hl with ⟨mid, rfl, rfl⟩ | ⟨-, rfl, -⟩ | ⟨mid, rfl, rfl⟩
    · refine ⟨front, y, mid ++ back', by simp, hy, ?_, hle⟩
      intro v hv
      apply hback
      rw [List.mem_append] at hv ⊢
      exact hv.imp_right (List.mem_cons_of_mem _)
    · exact absurd (congrArg some hy) hcancelled
    · refine ⟨front' ++ mid, y, back, by simp, hy, hback, ?_⟩
      simp only [credits_append, credits_cons, Option.isSome_none, Bool.false_eq_true,
        if_false] at hle ⊢
      omega
  | @take front' back' _ _ z _ _ hout =>
    rcases split_cases hl with ⟨mid, rfl, rfl⟩ | ⟨-, rfl, -⟩ | ⟨mid, rfl, rfl⟩
    · have hcredit : z.credit ≤ fresh := hback z (by simp)
      refine ⟨front.map Waiter.pass, y.pass, mid.map Waiter.pass ++ back', by simp, hy, ?_, ?_⟩
      · intro v hv
        rcases List.mem_append.mp hv with hv | hv
        · obtain ⟨u, hu, rfl⟩ := List.mem_map.mp hv
          exact hback u (by simp [hu])
        · exact hback v (by simp [hv])
      · simp only [credits_pass, Waiter.pass_skips, Nat.mul_succ, Option.isSome_none,
          Bool.false_eq_true, if_false]
        omega
    · exact absurd (congrArg some hy) htaken
    · refine ⟨front'.map Waiter.pass ++ mid, y, back, by simp, hy, hback, ?_⟩
      simp only [credits_append, credits_cons, credits_pass, Option.isSome_none,
        Bool.false_eq_true, if_false] at hle ⊢
      omega
  | @giveBack _ front' _ _ _ _ hout =>
    subst hl
    refine ⟨front' ++ front, y, back, by simp, hy, hback, ?_⟩
    simp only [credits_append, Option.isSome_none, Bool.false_eq_true, if_false]
    omega

end Arrival

end Frink.Overtaking
