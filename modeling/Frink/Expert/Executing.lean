import Frink.Expert.Occupants

/-! # Runs of plans

What any run of plans, valid or not, leaves in the labels of the pool. A plan that is abandoned at
a refused copy leaves its earlier copies to the flush of some later plan, and that plan forgets
only its own slots when the flush fails.
-/

namespace Frink.Expert

variable {σ : Type}

inductive PlanOp
  | copyPlan (layer : ℕ) (plan : CopyPlan)
  | materialize (layer : ℕ) (plan : CopyPlan)
  | gather (plan : GatherPlan)

/-- The slots a plan writes. -/
def PlanOp.written : PlanOp → List ℕ
  | copyPlan _ plan => plan.dstSlots
  | materialize _ plan => plan.dstSlots
  | gather plan => plan.dstSlots

namespace ExpertSlots

variable (d : SlotDevice σ) (rows : ExpertRows) (p : ExpertSlots)

def execute (s : σ) : PlanOp → Except SlotFault Applied × ExpertSlots × σ
  | .copyPlan layer plan => p.applyCopyPlan d rows layer plan s
  | .materialize layer plan => p.applyMaterialize d rows layer plan s
  | .gather plan => p.applyGatherPlan d plan s

/-- Whether the checks let a plan through. -/
def check : PlanOp → Except SlotFault CopyRoute
  | .copyPlan layer plan => p.checkCopyPlan rows layer plan false
  | .materialize layer plan => p.checkCopyPlan rows layer plan true
  | .gather plan => (p.checkGatherPlan plan).map fun _ => .deviceIndexed

/-- The copies a plan asks of the device. -/
def copies : PlanOp → List (σ → Except String Unit × σ)
  | .copyPlan layer plan =>
      pairCalls (writeRow d rows layer) p.geometry.banks (plan.dstSlots.zip plan.srcRows)
  | .materialize layer plan =>
      pairCalls (writeRow d rows layer) p.geometry.banks (plan.dstSlots.zip plan.srcRows)
  | .gather plan => pairCalls d.copySlot p.geometry.banks (plan.dstSlots.zip plan.srcSlots)

/-- The device once a plan is announced; a gather is not. -/
def announce (route : CopyRoute) (s : σ) : PlanOp → Except String Unit × σ
  | .gather _ => (.ok (), s)
  | _ => d.beginPlan route s

end ExpertSlots

/-- What an occupied slot holds once every copy issued so far is carried out. -/
def Truthful {d : SlotDevice σ} (l : LawfulDevice d) (rows : ExpertRows) (p : ExpertSlots)
    (s : σ) : Prop := Labelled (l.view s) rows p.geometry.banks p.occupant

/-- When the flush of a plan fails, what was deferred before the plan began is for slots that the
plan writes or that have no label. -/
def Sheltered {d : SlotDevice σ} (l : LawfulDevice d) (rows : ExpertRows) (p : ExpertSlots)
    (s : σ) (op : PlanOp) : Prop :=
  ∀ route, p.check rows op = .ok route → op.written ≠ [] →
    ∀ s₁, ExpertSlots.announce d route s op = (.ok (), s₁) →
      ∀ s₂, issue (p.copies d rows op) s₁ = (.ok (), s₂) → (d.flush s₂).1 ≠ .ok () →
        ∀ slot ∈ l.deferred s, slot ∈ op.written ∨ p.occupantOf slot = none

namespace ExpertSlots

variable {d : SlotDevice σ} {l : LawfulDevice d} {rows : ExpertRows} {p : ExpertSlots} {s : σ}

theorem flush_labelled {banks : ℕ} {written : List ℕ}
    (h : Labelled (l.view s) rows banks p.occupant)
    (hlost : (d.flush s).1 ≠ .ok () →
      ∀ slot ∈ l.deferred s, slot ∈ written ∨ p.occupantOf slot = none) :
    Labelled (l.view (p.flush d written s).2.2) rows banks (p.flush d written s).2.1.occupant := by
  have hok := l.flush_ok s
  have hview := l.flush_view s
  rw [ExpertSlots.flush]
  generalize d.flush s = r at hok hview hlost
  obtain ⟨detail | ⟨⟩, s'⟩ := r
  · intro slot e he bank hbank
    have he := (occupantOf_invalidate p written slot).symm.trans he
    split at he
    · cases he
    · rename_i hw
      rw [hview]
      · exact h slot e he bank hbank
      · intro hd
        obtain hin | hnone := hlost nofun slot hd
        · exact hw hin
        · exact nomatch hnone.symm.trans he
  · rw [(hok rfl).1]
    exact h

@[simp] theorem geometry_flush (written : List ℕ) :
    (p.flush d written s).2.1.geometry = p.geometry := by
  rw [ExpertSlots.flush]
  split
  · rfl
  · exact geometry_invalidate p written

/-- What the checks promise of a plan they let through. -/
structure Checked (rows : ExpertRows) (p : ExpertSlots) (layer : ℕ) (plan : CopyPlan) : Prop where

  halves : plan.dstSlots.length = plan.srcRows.length
  slots : ∀ slot ∈ plan.dstSlots, slot < p.geometry.slots
  once : plan.dstSlots.Nodup
  rows : ∀ src ∈ plan.srcRows, ∀ bank < p.geometry.banks, ∃ bytes,
    rows bank layer src = some bytes ∧ p.geometry.rowBytes[bank]? = some bytes.length

theorem checkCopyPlan_ok {layer : ℕ} {plan : CopyPlan} {wholeLayer : Bool} {route : CopyRoute}
    (h : p.checkCopyPlan rows layer plan wholeLayer = .ok route) : Checked rows p layer plan := by
  rw [checkCopyPlan] at h
  split at h
  · cases h
  · rename_i hlen
    split at h
    · cases h
    · split at h
      · cases h
      · split at h
        · cases h
        · rename_i hslots
          split at h
          · cases h
          · rename_i hrows
            obtain ⟨hrange, honce, -⟩ := validateSlots_ok p hslots
            exact ⟨not_not.mp hlen, hrange, honce, validateRows_ok hrows⟩

theorem checkGatherPlan_ok {plan : GatherPlan} (h : p.checkGatherPlan plan = .ok ()) :
    plan.dstSlots.length = plan.srcSlots.length := by
  rw [checkGatherPlan] at h
  split at h
  · cases h
  · rename_i hlen
    exact not_not.mp hlen

/-- Copies the device took, then a flush: labels are true unless the flush loses a copy that was
deferred before. -/
theorem finish_labelled {q : ExpertSlots} {s s₁ s₂ : σ} {dsts : List ℕ}
    {answer : Except SlotFault Applied}
    (hr : Issued l.view l.deferred rows p.geometry.banks dsts s₁ (answer, q.occupant, s₂))
    (hothers : ∀ slot, slot ∉ dsts → q.occupantOf slot = p.occupantOf slot)
    (hs : l.deferred s₁ ⊆ l.deferred s)
    (hlost : (d.flush s₂).1 ≠ .ok () →
      ∀ slot ∈ l.deferred s, slot ∈ dsts ∨ p.occupantOf slot = none) :
    Labelled (l.view (q.flush d dsts s₂).2.2) rows p.geometry.banks
      (q.flush d dsts s₂).2.1.occupant := by
  apply flush_labelled
  · exact hr.labelled
  · intro hfail slot hslot
    by_cases hw : slot ∈ dsts
    · exact Or.inl hw
    · right
      rw [hothers slot hw]
      obtain h | h := hr.defers slot hslot
      · exact absurd h hw
      · exact (hlost hfail slot (hs h)).resolve_left hw

theorem writes_issued {layer : ℕ} {plan : CopyPlan} (h : Checked rows p layer plan)
    (applied : Applied) {o : Occupants} (ho : Labelled (l.view s) rows p.geometry.banks o) :
    Issued l.view l.deferred rows p.geometry.banks plan.dstSlots s
      (issuePairs (writeRow d rows layer) (fun bank src => ((rows bank layer src).getD []).length)
        (fun _ src => some ⟨layer, src⟩) p.geometry.banks (plan.dstSlots.zip plan.srcRows)
        applied o s) := by
  have hissued := issuePairs_spec (fun bank src => ((rows bank layer src).getD []).length)
    (fun _ src => some ⟨layer, src⟩) (fun _ bank src => (rows bank layer src).getD [])
    (fun _ _ _ _ _ => rfl) (fun bank dst src s => l.write bank dst ((rows bank layer src).getD []) s)
    (plan.dstSlots.zip plan.srcRows)
    (by
      rintro o s e q hq - hlabel bank hbank
      obtain rfl := Option.some.inj hlabel
      obtain ⟨bytes, hbytes, -⟩ := h.rows q.2 (List.of_mem_zip hq).2 bank hbank
      simp [hbytes]) applied ho
  rw [List.map_fst_zip (Nat.le_of_eq h.halves)] at hissued
  exact hissued

theorem copies_issued {plan : GatherPlan} (h : plan.dstSlots.length = plan.srcSlots.length)
    (width : ℕ → ℕ → ℕ) (applied : Applied) {o : Occupants}
    (ho : Labelled (l.view s) rows p.geometry.banks o) :
    Issued l.view l.deferred rows p.geometry.banks plan.dstSlots s
      (issuePairs d.copySlot width Occupants.label p.geometry.banks
        (plan.dstSlots.zip plan.srcSlots) applied o s) := by
  have hissued := issuePairs_spec width Occupants.label (fun v bank src => v bank src)
    (fun _ _ _ src h => h src) (fun bank dst src s => l.copy bank dst src s)
    (plan.dstSlots.zip plan.srcSlots)
    (fun o s e q _ ho hlabel bank hbank => ho q.2 e hlabel bank hbank) applied ho
  rw [List.map_fst_zip (Nat.le_of_eq h)] at hissued
  exact hissued

theorem truthful_of {q : ExpertSlots} (hq : q.geometry = p.geometry)
    (h : Labelled (l.view s) rows p.geometry.banks q.occupant) : Truthful l rows q s := by
  rw [Truthful, hq]
  exact h

theorem applyPlan_truthful {layer : ℕ} {plan : CopyPlan} {wholeLayer : Bool}
    (hp : Truthful l rows p s)
    (hsafe : ∀ route, p.checkCopyPlan rows layer plan wholeLayer = .ok route →
      plan.dstSlots ≠ [] → ∀ s₁, d.beginPlan route s = (.ok (), s₁) →
      ∀ s₂, issue (pairCalls (writeRow d rows layer) p.geometry.banks
        (plan.dstSlots.zip plan.srcRows)) s₁ = (.ok (), s₂) → (d.flush s₂).1 ≠ .ok () →
      ∀ slot ∈ l.deferred s, slot ∈ plan.dstSlots ∨ p.occupantOf slot = none) :
    (p.applyPlan d rows layer plan wholeLayer s).2.1.geometry = p.geometry ∧
      Truthful l rows (p.applyPlan d rows layer plan wholeLayer s).2.1
        (p.applyPlan d rows layer plan wholeLayer s).2.2 := by
  rw [applyPlan]
  cases hcheck : p.checkCopyPlan rows layer plan wholeLayer with
  | error e => exact ⟨rfl, hp⟩
  | ok route =>
    dsimp only
    split
    · exact ⟨rfl, hp⟩
    · rename_i hne
      have hview := l.begin_view route s
      have hdefers := l.begin_defers route s
      have hsafe := hsafe route hcheck (fun h => hne (List.isEmpty_iff.mpr h))
      generalize d.beginPlan route s = b at hview hdefers hsafe
      have hp' : Labelled (l.view b.2) rows p.geometry.banks p.occupant := hview ▸ hp
      obtain ⟨detail | ⟨⟩, s₁⟩ := b
      · exact ⟨rfl, hp'⟩
      · have hissued := writes_issued (checkCopyPlan_ok hcheck) ⟨0, 0, false⟩ hp'
        have hanswer := issuePairs_answers (writeRow d rows layer)
          (fun bank src => ((rows bank layer src).getD []).length) (fun _ src => some ⟨layer, src⟩)
          p.geometry.banks (plan.dstSlots.zip plan.srcRows) ⟨0, 0, false⟩ p.occupant s₁
        have hlost := hsafe s₁ rfl
        have hothers := (issuePairs_frame (writeRow d rows layer)
          (fun bank src => ((rows bank layer src).getD []).length) (fun _ src => some ⟨layer, src⟩)
          p.geometry.banks (plan.dstSlots.zip plan.srcRows) ⟨0, 0, false⟩ p.occupant s₁).2
        rw [List.map_fst_zip (Nat.le_of_eq (checkCopyPlan_ok hcheck).halves)] at hothers
        dsimp only
        generalize hr : issuePairs _ _ _ _ _ _ _ _ = r
        have hr' : issuePairs (writeRow d rows layer)
          (fun bank src => ((rows bank layer src).getD []).length) (fun _ src => some ⟨layer, src⟩)
          p.geometry.banks (plan.dstSlots.zip plan.srcRows) ⟨0, 0, false⟩ p.occupant s₁ = r := hr
        rw [hr'] at hissued hanswer hothers
        obtain ⟨e | a, o, s₂⟩ := r
        · exact ⟨rfl, hissued.labelled⟩
        · have hfinish := finish_labelled (q := { p.planned with occupant := o }) hissued hothers
            hdefers (hlost s₂ (Prod.ext (hanswer.taken a rfl) hanswer.state.symm))
          have hgeometry := geometry_flush (d := d) (p := { p.planned with occupant := o }) (s := s₂)
            plan.dstSlots
          dsimp only
          generalize ExpertSlots.flush d _ plan.dstSlots s₂ = f at hfinish hgeometry
          obtain ⟨e | ⟨⟩, q, s₃⟩ := f
          · exact ⟨hgeometry, truthful_of hgeometry hfinish⟩
          · exact ⟨hgeometry, truthful_of hgeometry hfinish⟩

theorem applyGatherPlan_truthful {plan : GatherPlan} (hp : Truthful l rows p s)
    (hsafe : p.checkGatherPlan plan = .ok () → plan.dstSlots ≠ [] →
      ∀ s₂, issue (pairCalls d.copySlot p.geometry.banks
        (plan.dstSlots.zip plan.srcSlots)) s = (.ok (), s₂) → (d.flush s₂).1 ≠ .ok () →
      ∀ slot ∈ l.deferred s, slot ∈ plan.dstSlots ∨ p.occupantOf slot = none) :
    (p.applyGatherPlan d plan s).2.1.geometry = p.geometry ∧
      Truthful l rows (p.applyGatherPlan d plan s).2.1 (p.applyGatherPlan d plan s).2.2 := by
  rw [applyGatherPlan]
  cases hcheck : p.checkGatherPlan plan with
  | error e => exact ⟨rfl, hp⟩
  | ok =>
    dsimp only
    split
    · exact ⟨rfl, hp⟩
    · rename_i hne
      have hlost := hsafe hcheck (fun h => hne (List.isEmpty_iff.mpr h))
      have hothers := (issuePairs_frame d.copySlot
        (fun bank _ => p.geometry.rowBytes[bank]?.getD 0) Occupants.label p.geometry.banks
        (plan.dstSlots.zip plan.srcSlots) ⟨0, 0, false⟩ p.occupant s).2
      rw [List.map_fst_zip (Nat.le_of_eq (checkGatherPlan_ok hcheck))] at hothers
      have hissued := copies_issued (d := d) (l := l) (checkGatherPlan_ok hcheck)
        (fun bank _ => p.geometry.rowBytes[bank]?.getD 0) ⟨0, 0, false⟩ hp
      have hanswer := issuePairs_answers d.copySlot
        (fun bank _ => p.geometry.rowBytes[bank]?.getD 0) Occupants.label
        p.geometry.banks (plan.dstSlots.zip plan.srcSlots) ⟨0, 0, false⟩ p.occupant s
      generalize hr : issuePairs _ _ _ _ _ _ _ _ = r
      have hr' : issuePairs d.copySlot (fun bank _ => p.geometry.rowBytes[bank]?.getD 0)
        Occupants.label p.geometry.banks (plan.dstSlots.zip plan.srcSlots) ⟨0, 0, false⟩
        p.occupant s = r := hr
      rw [hr'] at hissued hanswer hothers
      obtain ⟨e | a, o, s₂⟩ := r
      · exact ⟨rfl, hissued.labelled⟩
      · have hfinish := finish_labelled (q := { p.planned with occupant := o }) hissued hothers
          subset_rfl (hlost s₂ (Prod.ext (hanswer.taken a rfl) hanswer.state.symm))
        have hgeometry := geometry_flush (d := d) (p := { p.planned with occupant := o }) (s := s₂)
          plan.dstSlots
        dsimp only
        generalize ExpertSlots.flush d _ plan.dstSlots s₂ = f at hfinish hgeometry
        obtain ⟨e | ⟨⟩, q, s₃⟩ := f
        · exact ⟨hgeometry, truthful_of hgeometry hfinish⟩
        · exact ⟨hgeometry, truthful_of hgeometry hfinish⟩

/-- A plan leaves true labels true unless its flush loses what was deferred before. -/
theorem execute_truthful {op : PlanOp} (hp : Truthful l rows p s) (hop : Sheltered l rows p s op) :
    Truthful l rows (p.execute d rows s op).2.1 (p.execute d rows s op).2.2 := by
  cases op with
  | copyPlan layer plan => exact (applyPlan_truthful hp hop).2
  | materialize layer plan => exact (applyPlan_truthful hp hop).2
  | gather plan =>
    apply (applyGatherPlan_truthful hp _).2
    intro hcheck hne s₂
    apply hop .deviceIndexed _ hne s rfl s₂
    rw [check, hcheck]
    rfl

/-- A plan the checks turn away changes no label and makes no device call. -/
theorem execute_refused {op : PlanOp} {e : SlotFault} (h : p.check rows op = .error e) :
    p.execute d rows s op = (.error e, p, s) := by
  cases op with
  | copyPlan layer plan =>
    have h : p.checkCopyPlan rows layer plan false = .error e := h
    rw [execute, applyCopyPlan, applyPlan, h]
  | materialize layer plan =>
    have h : p.checkCopyPlan rows layer plan true = .error e := h
    rw [execute, applyMaterialize, applyPlan, h]
  | gather plan =>
    have h : (p.checkGatherPlan plan).map _ = .error e := h
    cases hcheck : p.checkGatherPlan plan with
    | error e' =>
      rw [hcheck] at h
      obtain rfl := Except.error.inj h
      rw [execute, applyGatherPlan, hcheck]
    | ok =>
      rw [hcheck] at h
      cases h

end ExpertSlots

end Frink.Expert
