import Frink.Expert.Executing
import Frink.Expert.Residency

/-! # The planner and the pool

The planner records a residency before the copies are made. It agrees with the pool as long as it
forgets every slot a failed plan has not filled; what a fault names is enough for that when the
device refuses no copy but the last of its plan.
-/

namespace Frink.Expert

variable {σ : Type}

/-- The slots a caller is to forget: those a fault names, and all of a plan that was turned away. -/
def toForget (plan : CopyPlan) : Except SlotFault Applied → List ℕ
  | .ok _ => []
  | .error (.device _ slot _) => [slot]
  | .error (.deviceFlush slots _) => slots
  | .error _ => plan.dstSlots

/-- The planner told to forget slots. -/
def ExpertCache.forgetSlots (c : ExpertCache) (slots : List ℕ) : Option ExpertCache :=
  slots.foldlM (fun c slot => (c.forgetSlot slot).map (·.1)) c

/-- The planner's slots hold, by the pool's labels, the experts they are for. -/
def Agrees (c : ExpertCache) (p : ExpertSlots) : Prop :=
  ∀ layer e slot, e < c.numExperts → c.slotAt (layer * c.numExperts + e) = some slot →
    p.occupantOf slot = some ⟨layer, e⟩

/-- A resident expert was resident before, in a slot the plan spares, or the plan copies it in. -/
def Plans (c c' : ExpertCache) (layer : ℕ) (plan : CopyPlan) : Prop :=
  ∀ id slot, c'.slotAt id = some slot →
    (c.slotAt id = some slot ∧ slot ∉ plan.dstSlots) ∨
    ∃ e < c.numExperts, id = layer * c.numExperts + e ∧ (slot, e) ∈ plan.dstSlots.zip plan.srcRows

/-- The pool's labels after a plan, but for some slots: the plan's experts in the plan's slots. -/
structure Relabelled (p p' : ExpertSlots) (layer : ℕ) (plan : CopyPlan) (except : List ℕ) :
    Prop where

  spared : ∀ slot, slot ∉ plan.dstSlots → slot ∉ except → p'.occupantOf slot = p.occupantOf slot
  copied : ∀ slot e, (slot, e) ∈ plan.dstSlots.zip plan.srcRows → slot ∉ except →
    p'.occupantOf slot = some ⟨layer, e⟩

/-- The device refuses no copy of a plan before its last pair. -/
def RefusesLast (d : SlotDevice σ) (rows : ExpertRows) (p : ExpertSlots) (s : σ) (layer : ℕ)
    (plan : CopyPlan) (wholeLayer : Bool) : Prop :=
  ∀ route, p.checkCopyPlan rows layer plan wholeLayer = .ok route →
    ∀ s₁, d.beginPlan route s = (.ok (), s₁) →
      (issue (pairCalls (ExpertSlots.writeRow d rows layer) p.geometry.banks
        (plan.dstSlots.zip plan.srcRows).dropLast) s₁).1 = .ok ()

namespace ExpertCache

variable {c c' : ExpertCache}

theorem forgetSlot_spec (h : c.Sound) {slot : ℕ} {old : Option ExpertId}
    (hf : c.forgetSlot slot = some (c', old)) : SameShape c c' ∧
      ∀ id t, c'.slotAt id = some t → c.slotAt id = some t ∧ t ≠ slot := by
  have hc' := h.forgetSlot hf
  unfold ExpertCache.forgetSlot at hf
  split at hf
  · rename_i hnone
    obtain ⟨rfl, -⟩ := Prod.mk.inj (Option.some.inj hf)
    refine ⟨⟨rfl, rfl, rfl⟩, fun id t ht => ⟨ht, ?_⟩⟩
    rintro rfl
    exact nomatch hnone.symm.trans ((hc'.paired.iff id t).mp ht)
  · rename_i old hid
    obtain ⟨idOfSlot, hslots, hf⟩ := Option.bind_eq_some_iff.mp hf
    obtain ⟨slotForId, hids, hf⟩ := Option.bind_eq_some_iff.mp hf
    obtain ⟨usage, -, hf⟩ := Option.bind_eq_some_iff.mp hf
    obtain ⟨rfl, -⟩ := Prod.mk.inj (Option.some.inj hf)
    obtain ⟨-, rfl⟩ := Checked.write_eq_some.mp hslots
    obtain ⟨-, rfl⟩ := Checked.write_eq_some.mp hids
    refine ⟨⟨rfl, rfl, rfl⟩, fun id t ht => ?_⟩
    have hback := (hc'.paired.iff id t).mp ht
    have hne : slot ≠ t := by
      rintro rfl
      exact nomatch Table.look_set_none_self.symm.trans hback
    refine ⟨?_, hne.symm⟩
    apply (h.paired.iff id t).mpr
    exact (Table.look_set_ne hne).symm.trans hback

/-- Forgetting slots takes their experts away and nothing else. -/
theorem forgetSlots_spec (h : c.Sound) {slots : List ℕ} (hf : c.forgetSlots slots = some c') :
    c'.Sound ∧ SameShape c c' ∧
      ∀ id t, c'.slotAt id = some t → c.slotAt id = some t ∧ t ∉ slots := by
  induction slots generalizing c with
  | nil =>
    obtain rfl : c = c' := by simpa [forgetSlots] using hf
    exact ⟨h, ⟨rfl, rfl, rfl⟩, fun _ _ ht => ⟨ht, List.not_mem_nil⟩⟩
  | cons slot slots ih =>
    rw [forgetSlots, List.foldlM_cons] at hf
    obtain ⟨d, hd, hf⟩ := Option.bind_eq_some_iff.mp hf
    obtain ⟨⟨d, old⟩, hforget, rfl⟩ := Option.map_eq_some_iff.mp hd
    obtain ⟨hshape, hslots⟩ := forgetSlot_spec h hforget
    obtain ⟨hsound, hshape', hslots'⟩ := ih (h.forgetSlot hforget) hf
    refine ⟨hsound, ?_, fun id t ht => ?_⟩
    · exact ⟨hshape'.layers.trans hshape.layers, hshape'.experts.trans hshape.experts,
        hshape'.size.trans hshape.size⟩
    · obtain ⟨ht, hrest⟩ := hslots' id t ht
      obtain ⟨ht, hne⟩ := hslots id t ht
      exact ⟨ht, List.not_mem_cons_of_ne_of_not_mem hne hrest⟩

variable {layer : ℕ} {routes : List ℕ} {policy : Option QStarPolicy}

/-- The tables an `ensure` leaves are those its plan makes true. -/
theorem ensureSplit_plans (h : c.Sound) (hsize : c.cacheSize ≤ 2 ^ 32)
    (hroutes : ∀ e ∈ routes, e < c.numExperts) {plan : EnsurePlan}
    (he : c.ensureSplit layer routes policy = some (c', plan)) :
    Plans c c' layer plan.copy := by
  obtain ⟨hsound, -, hserved⟩ := h.ensureSplit he
  have hs := hserved ((length_distinctRoutes_le hroutes).trans h.fits) hsize
  intro id slot hslot
  cases hold : c.slotAt id with
  | none =>
    right
    obtain ⟨e, rfl, hmem⟩ := (hs.copy_iff id slot).mp ⟨hold, hslot⟩
    exact ⟨e, hroutes e (hs.copy_routed e (List.of_mem_zip hmem).2), rfl, hmem⟩
  | some slot' =>
    left
    obtain rfl := hs.still id slot' slot hold hslot
    refine ⟨rfl, fun hin => ?_⟩
    rw [← List.map_fst_zip (Nat.le_of_eq hs.copy_length)] at hin
    obtain ⟨⟨slot', e⟩, hmem, rfl⟩ := List.mem_map.mp hin
    obtain ⟨hnone, hnew⟩ := (hs.copy_iff _ slot').mpr ⟨e, rfl, hmem⟩
    dsimp only at hslot hold
    rw [hsound.paired.injective hslot hnew] at hold
    exact nomatch hnone.symm.trans hold

/-- So are those a materialization leaves. -/
theorem materializeLayer_plans (h : c.Sound) (hsize : c.cacheSize ≤ 2 ^ 32) {plan : CopyPlan}
    (hm : c.materializeLayer layer = some (c', plan)) : Plans c c' layer plan := by
  obtain ⟨hstep, hl⟩ := materializeLayer_inRange hm
  obtain ⟨t, d, hrun, -, htable, hlaid⟩ := materializeLayer_laid layer h hstep hl rfl
  obtain ⟨rfl, rfl⟩ := Prod.mk.inj (Option.some.inj (hrun.symm.trans hm))
  have hrows : (List.range c.numExperts).map asU32 = List.range c.numExperts := by
    rw [List.map_congr_left fun e he => ?_, List.map_id']
    have hlt := List.mem_range.mp he
    have hfits := h.fits
    exact Nat.mod_eq_of_lt (by omega)
  intro id slot hslot
  rw [hlaid.slotAt] at hslot
  split at hslot
  · rename_i hin
    obtain rfl := Option.some.inj hslot
    right
    refine ⟨id - layer * c.numExperts, List.mem_range.mp hin.2, by omega, ?_⟩
    rw [hrows]
    apply List.mem_iff_getElem?.mpr
    refine ⟨id - layer * c.numExperts, ?_⟩
    simp [List.mem_range.mp hin.2]
  · rename_i hout
    left
    obtain ⟨hold, howns⟩ := (htable id slot).mp hslot
    refine ⟨hold, ?_⟩
    rw [hrows, List.mem_range]
    intro hlt
    have hrange := owns_iff.mp (howns hlt)
    exact hout ⟨hrange.1, List.mem_range.mpr (by omega)⟩

end ExpertCache

namespace ExpertSlots

variable {d : SlotDevice σ} {rows : ExpertRows} {p : ExpertSlots} {s : σ} {layer : ℕ}
  {plan : CopyPlan} {wholeLayer : Bool}

theorem validateSlots_error {seen slots : List ℕ} {e : SlotFault}
    (h : p.validateSlots seen slots = .error e) : toForget plan (.error e) = plan.dstSlots := by
  induction slots generalizing seen with
  | nil => cases h
  | cons slot slots ih =>
    rw [validateSlots] at h
    split at h
    · cases h
      rfl
    · split at h
      · cases h
        rfl
      · exact ih h

theorem validateRow_error {row : ℕ} {widths : List (ℕ × ℕ)} {e : SlotFault}
    (h : validateRow rows layer row widths = .error e) :
    toForget plan (.error e) = plan.dstSlots := by
  induction widths with
  | nil => cases h
  | cons w widths ih =>
    rw [validateRow] at h
    split at h
    · cases h
      rfl
    · split at h
      · exact ih h
      · cases h
        rfl

theorem validateRows_error {widths srcs : List ℕ} {e : SlotFault}
    (h : validateRows rows layer widths srcs = .error e) :
    toForget plan (.error e) = plan.dstSlots := by
  induction srcs with
  | nil => cases h
  | cons src srcs ih =>
    rw [validateRows] at h
    split at h
    · rename_i e' hrow
      cases h
      exact validateRow_error hrow
    · exact ih h

/-- A plan the checks turn away is forgotten as a whole. -/
theorem checkCopyPlan_error {e : SlotFault}
    (h : p.checkCopyPlan rows layer plan wholeLayer = .error e) :
    toForget plan (.error e) = plan.dstSlots := by
  rw [checkCopyPlan] at h
  split at h
  · cases h
    rfl
  · split at h
    · cases h
      rfl
    · split at h
      · cases h
        rfl
      · split at h
        · rename_i e' hslots
          cases h
          exact validateSlots_error hslots
        · split at h
          · rename_i e' hrows
            cases h
            exact validateRows_error hrows
          · cases h

/-- Pairs the device takes up to the last, and the last refused. -/
theorem issuePairs_last {call : ℕ → ℕ → ℕ → σ → Except String Unit × σ} (width : ℕ → ℕ → ℕ)
    (f : ℕ → Option ExpertId) {banks : ℕ} {pairs : List (ℕ × ℕ)} (applied : Applied)
    {o : Occupants} {e : SlotFault} (honce : (pairs.map (·.1)).Nodup)
    (hin : ∀ p ∈ pairs, p.1 < o.length)
    (hlast : (issue (pairCalls call banks pairs.dropLast) s).1 = .ok ())
    (h : (issuePairs call width (fun _ => f) banks pairs applied o s).1 = .error e) :
    ∃ bank slot detail, e = .device bank slot detail ∧ ∀ p ∈ pairs, p.1 ≠ slot →
      (issuePairs call width (fun _ => f) banks pairs applied o s).2.1.label p.1 = f p.2 := by
  obtain rfl | ⟨init, ⟨dst, src⟩, rfl⟩ := List.eq_nil_or_concat' pairs
  · cases h
  · rw [List.dropLast_concat] at hlast
    rw [List.map_append, List.nodup_append] at honce
    have hanswer := issuePairs_answers call width (fun _ => f) banks init applied o s
    have hcopied := fun a => issuePairs_copied call width banks f honce.1 applied s
      (fun p hp => hin p (List.mem_append_left _ hp)) (a := a)
    rw [issuePairs_append] at h ⊢
    generalize issuePairs call width (fun _ => f) banks init applied o s = r at h hanswer hcopied
    obtain ⟨e' | a, o', s'⟩ := r
    · exact absurd hlast (hanswer.refused e' rfl)
    · dsimp only at h ⊢
      rw [issuePairs] at h ⊢
      have hrefused : ∀ e', (issueBanks (call · dst src) (width · src) dst (List.range banks) a
          s').1 = .error e' → ∃ bank detail, e' = .device bank dst detail :=
        fun _ => issueBanks_refused
      generalize issueBanks (call · dst src) (width · src) dst (List.range banks) a s' = b
        at h hrefused
      obtain ⟨e' | a', s''⟩ := b
      · obtain ⟨bank, detail, rfl⟩ := hrefused e' rfl
        refine ⟨bank, dst, detail, (Except.error.inj h).symm, fun p hp hne => ?_⟩
        obtain hp | hp := List.mem_append.mp hp
        · exact (Occupants.label_set_ne hne.symm).trans (hcopied a rfl p hp)
        · obtain rfl := List.mem_singleton.mp hp
          exact absurd rfl hne
      · cases h

/-- The labels a copy plan leaves are the planner's, but for what is to be forgotten. -/
theorem applyPlan_relabels (hlen : p.occupant.length = p.geometry.slots)
    (hlast : RefusesLast d rows p s layer plan wholeLayer) :
    (p.applyPlan d rows layer plan wholeLayer s).2.1.occupant.length =
        (p.applyPlan d rows layer plan wholeLayer s).2.1.geometry.slots ∧
      Relabelled p (p.applyPlan d rows layer plan wholeLayer s).2.1 layer plan
        (toForget plan (p.applyPlan d rows layer plan wholeLayer s).1) := by
  have hmem : ∀ slot e, (slot, e) ∈ plan.dstSlots.zip plan.srcRows → slot ∈ plan.dstSlots :=
    fun slot e h => (List.of_mem_zip h).1
  have hall : ∀ q : ExpertSlots, (∀ slot, slot ∉ plan.dstSlots → q.occupantOf slot = p.occupantOf slot) →
      Relabelled p q layer plan plan.dstSlots :=
    fun q hq => ⟨fun slot h _ => hq slot h, fun slot e h hno => absurd (hmem slot e h) hno⟩
  rw [applyPlan]
  cases hcheck : p.checkCopyPlan rows layer plan wholeLayer with
  | error e =>
    refine ⟨hlen, ?_⟩
    rw [checkCopyPlan_error hcheck]
    exact hall p fun _ _ => rfl
  | ok route =>
    have hok := checkCopyPlan_ok hcheck
    have hlast := hlast route hcheck
    dsimp only
    split
    · rename_i hnil
      refine ⟨hlen, fun _ _ _ => rfl, fun slot e h => ?_⟩
      have hslot := hmem slot e h
      rw [List.isEmpty_iff.mp hnil] at hslot
      cases hslot
    · generalize d.beginPlan route s = b at hlast
      obtain ⟨detail | ⟨⟩, s₁⟩ := b
      · exact ⟨hlen, hall _ fun _ _ => rfl⟩
      · have hlast := hlast s₁ rfl
        have hfst := List.map_fst_zip (Nat.le_of_eq hok.halves)
        have honce : ((plan.dstSlots.zip plan.srcRows).map (·.1)).Nodup := hfst.symm ▸ hok.once
        have hin : ∀ q ∈ plan.dstSlots.zip plan.srcRows, q.1 < p.occupant.length :=
          fun q hq => hlen.symm ▸ hok.slots q.1 (List.of_mem_zip hq).1
        obtain ⟨hframe, hothers⟩ := issuePairs_frame (writeRow d rows layer)
          (fun bank src => ((rows bank layer src).getD []).length) (fun _ src => some ⟨layer, src⟩)
          p.geometry.banks (plan.dstSlots.zip plan.srcRows) ⟨0, 0, false⟩ p.occupant s₁
        rw [hfst] at hothers
        have hcopied := fun a => issuePairs_copied (writeRow d rows layer)
          (fun bank src => ((rows bank layer src).getD []).length) p.geometry.banks
          (fun src => some ⟨layer, src⟩) honce ⟨0, 0, false⟩ s₁ hin (a := a)
        have hrefused := fun e => issuePairs_last
          (fun bank src => ((rows bank layer src).getD []).length) (fun src => some ⟨layer, src⟩)
          ⟨0, 0, false⟩ honce hin hlast (e := e)
        dsimp only
        generalize hr : issuePairs _ _ _ _ _ _ _ _ = r
        have hr' : issuePairs (writeRow d rows layer)
          (fun bank src => ((rows bank layer src).getD []).length) (fun _ src => some ⟨layer, src⟩)
          p.geometry.banks (plan.dstSlots.zip plan.srcRows) ⟨0, 0, false⟩ p.occupant s₁ = r := hr
        rw [hr'] at hframe hothers hcopied hrefused
        obtain ⟨e | a, o, s₂⟩ := r
        · refine ⟨hframe.trans hlen, fun slot hslot _ => hothers slot hslot, ?_⟩
          obtain ⟨bank, slot, detail, rfl, hcopied⟩ := hrefused e rfl
          intro t src ht hne
          exact hcopied (t, src) ht fun h => hne (h ▸ List.mem_singleton_self slot)
        · dsimp only
          rw [ExpertSlots.flush]
          generalize d.flush s₂ = f
          obtain ⟨detail | ⟨⟩, s₃⟩ := f
          · constructor
            · rw [length_invalidate, geometry_invalidate]
              exact hframe.trans hlen
            · apply hall
              intro slot hslot
              rw [occupantOf_invalidate, if_neg hslot]
              exact hothers slot hslot
          · refine ⟨hframe.trans hlen, fun slot hslot _ => hothers slot hslot, ?_⟩
            exact fun slot e h _ => hcopied a rfl (slot, e) h

/-- A plan that went through had none of its copies refused. -/
theorem refusesLast_of_ok {a : Applied}
    (h : (p.applyPlan d rows layer plan wholeLayer s).1 = .ok a) :
    RefusesLast d rows p s layer plan wholeLayer := by
  intro route hcheck s₁ hbegin
  rw [applyPlan, hcheck] at h
  dsimp only at h
  obtain hnil | ⟨init, last, hpairs⟩ := List.eq_nil_or_concat' (plan.dstSlots.zip plan.srcRows)
  · rw [hnil]
    rfl
  · split at h
    · rename_i hempty
      rw [List.isEmpty_iff.mp hempty, List.zip_nil_left] at hpairs
      simp at hpairs
    · rw [hbegin] at h
      have hanswer := issuePairs_answers (writeRow d rows layer)
        (fun bank src => ((rows bank layer src).getD []).length) (fun _ src => some ⟨layer, src⟩)
        p.geometry.banks (plan.dstSlots.zip plan.srcRows) ⟨0, 0, false⟩ p.occupant s₁
      dsimp only at h
      generalize hr : issuePairs _ _ _ _ _ _ _ _ = r at h
      have hr' : issuePairs (writeRow d rows layer)
        (fun bank src => ((rows bank layer src).getD []).length) (fun _ src => some ⟨layer, src⟩)
        p.geometry.banks (plan.dstSlots.zip plan.srcRows) ⟨0, 0, false⟩ p.occupant s₁ = r := hr
      rw [hr'] at hanswer
      obtain ⟨e | a', o, s₂⟩ := r
      · cases h
      · have htaken := hanswer.taken a' rfl
        rw [hpairs, pairCalls, List.flatMap_append, issue_append] at htaken
        rw [hpairs, List.dropLast_concat, pairCalls]
        generalize issue _ s₁ = b at htaken ⊢
        obtain ⟨detail | ⟨⟩, s₃⟩ := b
        · cases htaken
        · rfl

end ExpertSlots

section Runs

variable {c c' c'' : ExpertCache} {p p' : ExpertSlots} {layer : ℕ} {plan : CopyPlan}
  {named forgotten : List ℕ}

theorem flat_injective {n layer layer' e e' : ℕ} (he : e < n) (he' : e' < n)
    (h : layer * n + e = layer' * n + e') : layer = layer' ∧ e = e' := by
  have hdiv : ∀ l f, f < n → (l * n + f) / n = l := fun l f hf => by
    rw [Nat.add_comm, Nat.add_mul_div_right _ _ (Nat.zero_lt_of_lt hf), Nat.div_eq_of_lt hf,
      Nat.zero_add]
  have hlayer := (hdiv layer e he).symm.trans ((congrArg (· / n) h).trans (hdiv layer' e' he'))
  subst hlayer
  exact ⟨rfl, Nat.add_left_cancel h⟩

/-- A step of both sides keeps them agreed, once what is named is forgotten. -/
theorem Agrees.step (h : Agrees c p) (hplans : Plans c c' layer plan) (hshape : c.SameShape c')
    (hlabels : Relabelled p p' layer plan named) (hnamed : ∀ slot ∈ named, slot ∈ forgotten)
    (hsound : c'.Sound) (hforget : c'.forgetSlots forgotten = some c'') : Agrees c'' p' := by
  obtain ⟨-, hshape', hkept⟩ := ExpertCache.forgetSlots_spec hsound hforget
  intro layer' e slot he hslot
  rw [hshape'.experts, hshape.experts] at he hslot
  obtain ⟨hslot, hout⟩ := hkept _ slot hslot
  have hout : slot ∉ named := fun hin => hout (hnamed slot hin)
  obtain ⟨hold, hspared⟩ | ⟨e', he', hid, hmem⟩ := hplans _ slot hslot
  · rw [hlabels.spared slot hspared hout]
    exact h layer' e slot he hold
  · rw [hlabels.copied slot e' hmem hout]
    obtain ⟨rfl, rfl⟩ := flat_injective he he' hid
    rfl

end Runs

variable (d : SlotDevice σ) (rows : ExpertRows)

/-- What planner and pool reach together. A step asks for experts of the model, and a plan that
fails is forgotten at least as far as it is to be; `allowed` says which plans a run may make. -/
inductive Together (allowed : ExpertSlots → σ → ℕ → CopyPlan → Bool → Prop) :
    ExpertCache → ExpertSlots → σ → Prop
  | start {numLayers numExperts cacheSize : ℕ} {c : ExpertCache} {g : SlotGeometry}
      {p : ExpertSlots} (residency : BankResidency) (s : σ) :
      ExpertCache.new numLayers numExperts cacheSize = some c → cacheSize ≤ 2 ^ 32 →
      ExpertSlots.new g = .ok p → Together allowed c (p.withResidency residency) s
  | ensure {c c' c'' : ExpertCache} {p : ExpertSlots} {s : σ} {layer : ℕ} {routes : List ℕ}
      {policy : Option QStarPolicy} {plan : EnsurePlan} {forgotten : List ℕ} :
      Together allowed c p s → (∀ e ∈ routes, e < c.numExperts) →
      c.ensureSplit layer routes policy = some (c', plan) → allowed p s layer plan.copy false →
      (∀ slot ∈ toForget plan.copy (p.applyCopyPlan d rows layer plan.copy s).1,
        slot ∈ forgotten) →
      c'.forgetSlots forgotten = some c'' →
      Together allowed c'' (p.applyCopyPlan d rows layer plan.copy s).2.1
        (p.applyCopyPlan d rows layer plan.copy s).2.2
  | materialize {c c' c'' : ExpertCache} {p : ExpertSlots} {s : σ} {layer : ℕ} {plan : CopyPlan}
      {forgotten : List ℕ} :
      Together allowed c p s → c.materializeLayer layer = some (c', plan) →
      allowed p s layer plan true →
      (∀ slot ∈ toForget plan (p.applyMaterialize d rows layer plan s).1, slot ∈ forgotten) →
      c'.forgetSlots forgotten = some c'' →
      Together allowed c'' (p.applyMaterialize d rows layer plan s).2.1
        (p.applyMaterialize d rows layer plan s).2.2

variable {d rows}

theorem new_unlabelled {g : SlotGeometry} {p : ExpertSlots} (h : ExpertSlots.new g = .ok p) :
    p.occupant.length = p.geometry.slots ∧ ∀ slot, p.occupantOf slot = none := by
  rw [ExpertSlots.new] at h
  split at h
  · cases h
  · split at h
    · cases h
    · split at h
      · cases h
      · obtain rfl := Except.ok.inj h
        refine ⟨List.length_replicate, fun slot => ?_⟩
        rw [ExpertSlots.occupantOf, Occupants.label, List.getElem?_replicate]
        split <;> rfl

/-- The invariant of planner and pool. -/
structure Joint (c : ExpertCache) (p : ExpertSlots) : Prop where

  sound : c.Sound
  size : c.cacheSize ≤ 2 ^ 32
  agrees : Agrees c p
  length : p.occupant.length = p.geometry.slots

theorem Together.joint {c : ExpertCache} {p : ExpertSlots} {s : σ}
    (h : Together d rows (RefusesLast d rows) c p s) :
    Joint c p := by
  induction h with
  | start residency s hc hsize hp =>
    obtain ⟨hlen, hnone⟩ := new_unlabelled hp
    have hsound := ExpertCache.new_sound hc
    unfold ExpertCache.new at hc
    split at hc
    · obtain rfl := Option.some.inj hc
      constructor
      · exact hsound
      · exact hsize
      · intro layer e slot _ hslot
        exact nomatch (Table.look_replicate _ _).symm.trans hslot
      · exact hlen
    · cases hc
  | ensure _ hroutes he hlast hnamed hforget ih =>
    obtain ⟨hsound, hshape, -⟩ := ih.sound.ensureSplit he
    obtain ⟨hsound', hshape', -⟩ := ExpertCache.forgetSlots_spec hsound hforget
    obtain ⟨hlen, hlabels⟩ := ExpertSlots.applyPlan_relabels ih.length hlast
    have hplans := ExpertCache.ensureSplit_plans ih.sound ih.size hroutes he
    constructor
    · exact hsound'
    · rw [hshape'.size, hshape.size]
      exact ih.size
    · exact ih.agrees.step hplans hshape hlabels hnamed hsound hforget
    · exact hlen
  | materialize _ hm hlast hnamed hforget ih =>
    obtain ⟨hstep, hl⟩ := ExpertCache.materializeLayer_inRange hm
    obtain ⟨d, plan', hrun, hsound, hshape, -⟩ :=
      ExpertCache.materializeLayer_runs _ ih.sound hstep hl
    obtain ⟨rfl, rfl⟩ := Prod.mk.inj (Option.some.inj (hrun.symm.trans hm))
    obtain ⟨hsound', hshape', -⟩ := ExpertCache.forgetSlots_spec hsound hforget
    obtain ⟨hlen, hlabels⟩ := ExpertSlots.applyPlan_relabels ih.length hlast
    have hplans := ExpertCache.materializeLayer_plans ih.sound ih.size hm
    constructor
    · exact hsound'
    · rw [hshape'.size, hshape.size]
      exact ih.size
    · exact ih.agrees.step hplans hshape hlabels hnamed hsound hforget
    · exact hlen

/-- After a step whose plan went through, each route's slot holds the expert routed to it. -/
theorem Joint.served {c c' : ExpertCache} {p : ExpertSlots} {s : σ} {layer : ℕ} {routes : List ℕ}
    {plan : EnsurePlan} {a : Applied} (h : Joint c p) (hroutes : ∀ e ∈ routes, e < c.numExperts)
    (he : c.ensure layer routes = some (c', plan))
    (hok : (p.applyCopyPlan d rows layer plan.copy s).1 = .ok a) :
    List.Forall₂ (fun e slot => ∃ t, slot = some t ∧
      (p.applyCopyPlan d rows layer plan.copy s).2.1.occupantOf t = some ⟨layer, e⟩)
      routes plan.slots := by
  obtain ⟨hsound, hshape, hserved⟩ := h.sound.ensureSplit he
  have hserved := hserved ((length_distinctRoutes_le hroutes).trans h.sound.fits) h.size
  obtain ⟨-, hlabels⟩ := ExpertSlots.applyPlan_relabels h.length
    (ExpertSlots.refusesLast_of_ok hok)
  have hplans := ExpertCache.ensureSplit_plans h.sound h.size hroutes he
  have hnamed : ∀ slot ∈ toForget plan.copy (p.applyCopyPlan d rows layer plan.copy s).1,
      slot ∈ ([] : List ℕ) := by
    rw [hok]
    exact nofun
  have hagrees : Agrees c' _ := h.agrees.step hplans hshape hlabels hnamed hsound rfl
  rw [hserved.slots, List.forall₂_map_right_iff, List.forall₂_same]
  intro e hin
  obtain ⟨slot, hslot⟩ := hserved.all_resident hin
  refine ⟨slot, hslot, ?_⟩
  apply hagrees layer e slot
  · rw [hshape.experts]
    exact hroutes e hin
  · rw [hshape.experts]
    exact hslot

end Frink.Expert
