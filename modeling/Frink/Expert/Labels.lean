import Frink.Expert.Agreement

/-! # When occupant labels are true

Runs of any plans on any lawful device, and a device that defers every copy to the next flush to
show what the two conditions leave out.
-/

namespace Frink.Expert

variable {σ : Type}

/-- What runs of plans reach from a pool and a device; `allowed` says which plans a run may make. -/
inductive Ran (d : SlotDevice σ) (rows : ExpertRows) (allowed : ExpertSlots → σ → PlanOp → Prop)
    (p₀ : ExpertSlots) (s₀ : σ) : ExpertSlots → σ → Prop
  | start : Ran d rows allowed p₀ s₀ p₀ s₀
  | step {p : ExpertSlots} {s : σ} (op : PlanOp) : Ran d rows allowed p₀ s₀ p s →
      allowed p s op →
      Ran d rows allowed p₀ s₀ (p.execute d rows s op).2.1 (p.execute d rows s op).2.2

/-- The experts of a step's routes are in the slots the step assigned. -/
def Assigned (p : ExpertSlots) (layer : ℕ) (routes : List ℕ) (slots : List (Option ℕ)) : Prop :=
  List.Forall₂ (fun e slot => ∃ t, slot = some t ∧ p.occupantOf t = some ⟨layer, e⟩) routes slots

theorem Ran.truthful {d : SlotDevice σ} {l : LawfulDevice d} {rows : ExpertRows}
    {p₀ p : ExpertSlots} {s₀ s : σ} (h₀ : Truthful l rows p₀ s₀)
    (h : Ran d rows (Sheltered l rows) p₀ s₀ p s) : Truthful l rows p s := by
  induction h with
  | start => exact h₀
  | step op _ hop ih => exact ExpertSlots.execute_truthful ih hop

/-- Labels are true in every run that shelters what is deferred, a plan turned away changes
nothing, and planner and pool agree in every run whose device refuses only last copies. -/
theorem occupants_never_lie (d : SlotDevice σ) (l : LawfulDevice d) (rows : ExpertRows) :
    (∀ g p₀ residency s₀, ExpertSlots.new g = .ok p₀ → ∀ p s,
      Ran d rows (Sheltered l rows) (p₀.withResidency residency) s₀ p s → Truthful l rows p s) ∧
    (∀ p s op e, ExpertSlots.check rows p op = .error e →
      p.execute d rows s op = (.error e, p, s)) ∧
    (∀ c p s, Together d rows (RefusesLast d rows) c p s → ∀ layer routes c' plan a,
      (∀ e ∈ routes, e < c.numExperts) → c.ensure layer routes = some (c', plan) →
      (p.applyCopyPlan d rows layer plan.copy s).1 = .ok a →
      Assigned (p.applyCopyPlan d rows layer plan.copy s).2.1 layer routes plan.slots) := by
  refine ⟨?_, ?_, ?_⟩
  · intro g p₀ residency s₀ hnew p s h
    apply h.truthful
    intro slot e he
    exact nomatch ((new_unlabelled hnew).2 slot).symm.trans he
  · exact fun p s op e h => ExpertSlots.execute_refused h
  · exact fun c p s h layer routes c' plan a hroutes he hok => h.joint.served hroutes he hok

/-- A copy engine: copies wait for the flush, and `answers` says which calls succeed; past its end
all do. -/
structure Engine where

  memory : ℕ → ℕ → Bytes
  queue : List (ℕ × ℕ × Bytes)
  answers : List Bool

namespace Engine

def put (m : ℕ → ℕ → Bytes) (w : ℕ × ℕ × Bytes) : ℕ → ℕ → Bytes :=
  fun b t => if b = w.1 ∧ t = w.2.1 then w.2.2 else m b t

def view (e : Engine) : ℕ → ℕ → Bytes := e.queue.foldl put e.memory

def enqueue (e : Engine) (w : ℕ × ℕ × Bytes) : Except String Unit × Engine :=
  if e.answers.headD true then
    (.ok (), { e with queue := e.queue ++ [w], answers := e.answers.tail })
  else (.error "copy refused", { e with answers := e.answers.tail })

def device : SlotDevice Engine where

  beginPlan _ e := (.ok (), e)
  writeSlot bank slot src e := e.enqueue (bank, slot, src)
  copySlot bank dst src e := e.enqueue (bank, dst, e.view bank src)
  flush e :=
    if e.answers.headD true then (.ok (), ⟨e.view, [], e.answers.tail⟩)
    else (.error "copy engine reported an error", ⟨e.memory, [], e.answers.tail⟩)

theorem put_other {m : ℕ → ℕ → Bytes} {w : ℕ × ℕ × Bytes} {b t : ℕ}
    (h : b ≠ w.1 ∨ t ≠ w.2.1) : put m w b t = m b t := by
  apply if_neg
  rintro ⟨hb, ht⟩
  exact h.elim (· hb) (· ht)

theorem view_other {m : ℕ → ℕ → Bytes} {queue : List (ℕ × ℕ × Bytes)} {b t : ℕ}
    (h : ∀ w ∈ queue, w.2.1 ≠ t) : queue.foldl put m b t = m b t := by
  induction queue generalizing m with
  | nil => rfl
  | cons w queue ih =>
    rw [List.foldl_cons, ih fun v hv => h v (List.mem_cons_of_mem w hv)]
    exact put_other (Or.inr (h w List.mem_cons_self).symm)

theorem enqueue_stores (e : Engine) (bank slot : ℕ) (src : Bytes) :
    Stores view (fun e => {t | ∃ w ∈ e.queue, w.2.1 = t}) bank slot src e
      (e.enqueue (bank, slot, src)) := by
  rw [enqueue]
  split
  · have hview : ∀ b t, (e.queue ++ [(bank, slot, src)]).foldl put e.memory b t =
        put e.view (bank, slot, src) b t := fun b t => by rw [List.foldl_append]; rfl
    constructor
    · exact fun _ => (hview bank slot).trans (if_pos ⟨rfl, rfl⟩)
    · exact fun b t h => (hview b t).trans (put_other h)
    · rintro t ⟨w, hw, rfl⟩
      obtain hw | hw := List.mem_append.mp hw
      · exact Set.mem_insert_of_mem _ ⟨w, hw, rfl⟩
      · obtain rfl := List.mem_singleton.mp hw
        exact Set.mem_insert _ _
  · constructor
    · exact nofun
    · exact fun _ _ _ => rfl
    · exact Set.subset_insert _ _

/-- The engine does what a device promises. -/
def lawful : LawfulDevice device where

  view := view
  deferred e := {t | ∃ w ∈ e.queue, w.2.1 = t}
  begin_view _ _ := rfl
  begin_defers _ _ := subset_rfl
  write bank slot src e := enqueue_stores e bank slot src
  copy bank slot src e := enqueue_stores e bank slot _
  flush_ok e h := by
    unfold device at h ⊢
    dsimp only at h ⊢
    split at h
    · rename_i hok
      rw [if_pos hok]
      exact ⟨rfl, by simp⟩
    · cases h
  flush_view e bank slot h := by
    unfold device
    dsimp only
    split
    · rfl
    · symm
      apply view_other
      exact fun w hw ht => h ⟨w, hw, ht⟩
  flush_defers e := by
    unfold device
    dsimp only
    split <;> simp

/-- A row of one byte, the expert's number. -/
def byteRows : ExpertRows := fun _ _ row => some [UInt8.ofNat row]

/-- Every slot holds junk, and the second of four copies and flushes is refused, the last fails. -/
def faulty (answers : List Bool) : Engine := ⟨fun _ _ => [255], [], answers⟩

end Engine

/-- Without the conditions both promises break. A flush that fails loses a copy an abandoned plan
had left deferred, and its slot keeps the label; and of a plan refused at its first copy the
planner is not told of the others, so that its next step hits an expert that was never copied. -/
theorem occupants_lie :
    (∃ p₀ p s, ExpertSlots.new ⟨1, 3, [1]⟩ = .ok p₀ ∧
      Ran Engine.device Engine.byteRows (fun _ _ _ => True) p₀
        (Engine.faulty [true, false, true, false]) p s ∧
      ¬ Truthful Engine.lawful Engine.byteRows p s) ∧
    ∃ c p s c' plan a, Together Engine.device Engine.byteRows (fun _ _ _ _ _ => True) c p s ∧
      c.ensure 0 [1] = some (c', plan) ∧
      (p.applyCopyPlan Engine.device Engine.byteRows 0 plan.copy s).1 = .ok a ∧
      ¬ Assigned (p.applyCopyPlan Engine.device Engine.byteRows 0 plan.copy s).2.1 0 [1]
        plan.slots := by
  constructor
  · refine ⟨_, _, _, rfl, .step (.copyPlan 0 ⟨[2], [2]⟩) (.step (.copyPlan 0 ⟨[0, 1], [0, 1]⟩)
      .start trivial) trivial, fun h => ?_⟩
    have hrow := h 0 ⟨0, 0⟩ rfl 0 (by decide)
    revert hrow
    decide
  · have h₀ : Together Engine.device Engine.byteRows (fun _ _ _ _ _ => True) _ _ _ :=
      .start .allPinned (Engine.faulty [false]) (rfl : ExpertCache.new 1 2 2 = some _) (by decide)
        (rfl : ExpertSlots.new ⟨1, 2, [1]⟩ = .ok _)
    have h₁ := h₀.ensure (by decide : ∀ e ∈ [0, 1], e < _)
      (rfl : ExpertCache.ensureSplit _ 0 [0, 1] none = some (_, _)) trivial (by decide)
      (rfl : ExpertCache.forgetSlots _ [0] = some _)
    refine ⟨_, _, _, _, _, _, h₁, rfl, rfl, ?_⟩
    rintro (_ | ⟨⟨t, ht, hlabel⟩, -⟩)
    obtain rfl := Option.some.inj ht
    revert hlabel
    decide

theorem occupants_never_lie_engine :
    (∃ p s, (p : ExpertSlots).occupantOf 0 = some ⟨0, 0⟩ ∧ p.occupantOf 1 = none ∧
      Truthful Engine.lawful Engine.byteRows p s) ∧
    (∃ p, ExpertSlots.new ⟨1, 2, [1]⟩ = .ok p ∧
      p.execute Engine.device Engine.byteRows (Engine.faulty []) (.copyPlan 0 ⟨[0], []⟩) =
        (.error (.planHalvesDisagree 1 0), p, Engine.faulty [])) ∧
    ∃ p, Assigned p 0 [1, 0] [some 1, some 0] := by
  obtain ⟨htrue, hrefused, hassigned⟩ :=
    occupants_never_lie Engine.device Engine.lawful Engine.byteRows
  refine ⟨?_, ?_, ?_⟩
  · refine ⟨_, _, ?_, ?_, htrue ⟨1, 2, [1]⟩ _ .allPinned (Engine.faulty [true, false]) rfl _ _
      (.step (.copyPlan 0 ⟨[0, 1], [0, 1]⟩) .start ?_)⟩
    · rfl
    · rfl
    · rintro route - - s₁ - s₂ - - slot ⟨w, hw, -⟩
      cases hw
  · exact ⟨_, rfl, hrefused _ _ _ _ rfl⟩
  · exact ⟨_, hassigned _ _ _ (.start .allPinned (Engine.faulty [])
      (rfl : ExpertCache.new 1 2 2 = some _) (by decide)
      (rfl : ExpertSlots.new ⟨1, 2, [1]⟩ = .ok _)) 0 [1, 0] _ _ _ (by decide) rfl rfl⟩

end Frink.Expert
