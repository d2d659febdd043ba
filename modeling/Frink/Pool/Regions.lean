import Frink.Pool.Barrier

/-! # Regions of the worker pool

In every interleaving: a region calls each of its tasks once, no thread holds a closure whose
submitter has returned, no worker sleeps through a region, and somebody can always go on.
-/

namespace Frink.Pool

open Claiming

theorem add_one_ne (x : UInt64) : x + 1 ≠ x := by
  intro h
  have hnat := congrArg UInt64.toNat h
  have hlt := x.toNat_lt
  rw [UInt64.toNat_add] at hnat
  change (x.toNat + 1) % 2 ^ 64 = x.toNat at hnat
  omega

namespace Worker

/-- The epoch a worker waits to see the end of. -/
def waitsAt : Worker → Option UInt64
  | spinning seen | locking seen | checking seen | asleep seen | waking seen => some seen
  | _ => none

/-- Whether it is counted as parked. -/
def sleepy : Worker → ℕ
  | asleep _ | waking _ => 1
  | _ => 0

/-- Whether it still has to check out. -/
def pending (epoch : UInt64) (w : Worker) : ℕ := if w.waitsAt = some epoch then 0 else 1

@[simp] theorem waitsAt_roused (w : Worker) : w.roused.waitsAt = w.waitsAt := by cases w <;> rfl

@[simp] theorem sleepy_roused (w : Worker) : w.roused.sleepy = w.sleepy := by cases w <;> rfl

theorem roused_ne_asleep (w : Worker) (seen : UInt64) : w.roused ≠ .asleep seen := by
  cases w <;> simp [roused]

theorem roused_checking_iff (w : Worker) :
    (∃ seen, w.roused = .checking seen) ↔ ∃ seen, w = .checking seen := by
  cases w <;> simp [roused]

end Worker

def Caller.holds {ε : Type} : Caller ε → Bool
  | .bumping _ | .shutting => true
  | _ => false

/-- The region whose closure is alive. -/
def Caller.serves {ε : Type} : Caller ε → Option Job
  | .notifying job | .draining job | .waiting job | .taking job => some job
  | _ => none

variable {k : ℕ} {ε : Type}

/-- The lock is held by whoever says so, and guards the count of the parked workers. -/
structure Locks (holder : Option (Option (Fin k))) (held : Bool) (parked : ℕ)
    (worker : Fin k → Worker) : Prop where

  called : holder = some none ↔ held = true

  locked : ∀ i, holder = some (some i) ↔ ∃ seen, worker i = .checking seen

  counted : parked = ∑ i, (worker i).sleepy

namespace Locks

variable {holder holder' : Option (Option (Fin k))} {held : Bool} {parked parked' : ℕ}
  {worker : Fin k → Worker} {i : Fin k} {w : Worker}

theorem goto (h : Locks holder held parked worker)
    (hcaller : holder' = some none ↔ holder = some none)
    (hself : holder' = some (some i) ↔ ∃ seen, w = .checking seen)
    (hother : ∀ j, j ≠ i → (holder' = some (some j) ↔ holder = some (some j)))
    (hparked : parked' + (worker i).sleepy = parked + w.sleepy) :
    Locks holder' held parked' (Function.update worker i w) where
  called := hcaller.trans h.called
  locked := by
    intro j
    by_cases hj : j = i
    · subst hj
      rwa [Function.update_self]
    · rw [Function.update_of_ne hj]
      exact (hother j hj).trans (h.locked j)
  counted := by
    have hsum := sum_update Worker.sleepy worker i w
    have hold := h.counted
    omega

/-- A worker moves without the lock. -/
theorem free (h : Locks holder held parked worker) (hold : ∀ seen, worker i ≠ .checking seen)
    (hnew : ∀ seen, w ≠ .checking seen) (hsleepy : (worker i).sleepy = w.sleepy) :
    Locks holder held parked (Function.update worker i w) := by
  apply h.goto Iff.rfl _ (fun _ _ => Iff.rfl) (by rw [hsleepy])
  rw [h.locked i]
  simp [hold, hnew]

theorem acquire {seen : UInt64} (h : Locks none held parked worker)
    (hparked : parked' + (worker i).sleepy = parked) :
    Locks (some (some i)) held parked' (Function.update worker i (.checking seen)) := by
  apply h.goto
  · simp
  · simp
  · intro j hj
    simp [Ne.symm hj]
  · exact hparked

theorem release {seen : UInt64} (h : Locks holder held parked worker)
    (hi : worker i = .checking seen) (hnew : ∀ seen, w ≠ .checking seen)
    (hparked : parked' = parked + w.sleepy) :
    Locks none held parked' (Function.update worker i w) := by
  have hholder : holder = some (some i) := (h.locked i).mpr ⟨seen, hi⟩
  apply h.goto
  · simp [hholder]
  · simp [hnew]
  · intro j hj
    simp [hholder, Ne.symm hj]
  · simp [hi, Worker.sleepy, hparked]

theorem take (h : Locks none held parked worker) : Locks (some none) true parked worker where
  called := by simp
  locked := by
    intro i
    rw [← h.locked i]
    simp
  counted := h.counted

theorem give (h : Locks holder true parked worker) : Locks none false parked worker where
  called := by simp
  locked := by
    intro i
    rw [← h.locked i, h.called.mpr rfl]
    simp
  counted := h.counted

theorem rouse (h : Locks holder held parked worker) :
    Locks holder held parked fun i => (worker i).roused where
  called := h.called
  locked := fun i => (h.locked i).trans (worker i).roused_checking_iff.symm
  counted := by
    simp only [Worker.sleepy_roused]
    exact h.counted

end Locks

/-- How far a worker is in a region, with its place there. -/
inductive Part (epoch : UInt64) (job : Job) (w : Worker) (p : Place ε) : Prop where

  | late {seen : UInt64} (hw : w.waitsAt = some seen) (hseen : seen + 1 = epoch)
      (hp : p = .absent)

  | arrived (hw : w = .observed epoch ∨ w = .reading epoch) (hp : p = .absent)

  | inside (hw : w = .draining epoch job) (hp : p ≠ .absent)

  | leaving (hw : w = .leaving epoch) (hp : p = .out)

  | back (hw : w.waitsAt = some epoch) (hp : p = .out)

theorem Part.roused {epoch : UInt64} {job : Job} {w : Worker} {p : Place ε}
    (h : Part epoch job w p) : Part epoch job w.roused p := by
  cases h with
  | late hw hseen hp => exact .late (w.waitsAt_roused.trans hw) hseen hp
  | arrived hw hp => exact .arrived (by rcases hw with rfl | rfl <;> simp [Worker.roused]) hp
  | inside hw hp => exact .inside (by subst hw; rfl) hp
  | leaving hw hp => exact .leaving (by subst hw; rfl) hp
  | back hw hp => exact .back (w.waitsAt_roused.trans hw) hp

/-- A worker that goes on waiting keeps its part. -/
theorem Part.waiting {epoch : UInt64} {job : Job} {w w' : Worker} {p : Place ε}
    (h : Part epoch job w p) {seen : UInt64} (hw : w.waitsAt = some seen)
    (hw' : w'.waitsAt = some seen) : Part epoch job w' p := by
  cases h with
  | late hold hseen hp => exact .late (hw'.trans (hw.symm.trans hold)) hseen hp
  | arrived hold hp => rcases hold with rfl | rfl <;> cases hw
  | inside hold hp => subst hold; cases hw
  | leaving hold hp => subst hold; cases hw
  | back hold hp => exact .back (hw'.trans (hw.symm.trans hold)) hp

namespace CpuPool

variable {s s' : CpuPool k ε} {i : Fin k} {w : Worker} {job : Job} {outcome : Option ε}

/-- No region is open, and every worker waits for the next. -/
structure Quiet (s : CpuPool k ε) : Prop where

  shutdown : s.shutdown = false

  panic : s.region.panic = none

  waits : ∀ i, (s.worker i).waitsAt = some s.epoch

/-- What has been written of the next region, in the order it is written. -/
structure Prepared (s : CpuPool k ε) (job : Job) (n : ℕ) : Prop extends Quiet s where

  job : s.job = job

  calls : s.region.calls = []

  raised : s.region.raised = []

  place : ∀ x, s.region.place x = .absent

  next : 1 ≤ n → s.region.next = 0

  aborted : 2 ≤ n → s.region.aborted = false

  active : 3 ≤ n → s.active = k

structure Opened (s : CpuPool k ε) (job : Job) : Prop where

  shutdown : s.shutdown = false

  published : s.job = job

  region : s.region.Sound job.nTasks

  part : ∀ i, Part s.epoch job (s.worker i) (s.region.place (some i))

  active : s.active = ∑ i, (s.worker i).pending s.epoch

/-- Nobody sleeps on an epoch that is over. -/
def Awake (s : CpuPool k ε) : Prop := ∀ i seen, s.worker i = .asleep seen → seen = s.epoch

/-- How a region has ended: what it leaves in the log. -/
structure Ended (s : CpuPool k ε) (job : Job) (payload : Option ε) : Prop where

  finished : payload = none ↔ s.region.raised = []

  complete : payload = none → s.region.calls = List.range job.nTasks

  atMostOnce : s.region.calls <+: List.range job.nTasks

  raised : ∀ e ∈ payload, e ∈ s.region.raised

structure Down (s : CpuPool k ε) : Prop where

  shutdown : s.shutdown = true

  worker : ∀ i, (∃ seen, (s.worker i).waitsAt = some seen ∧ seen + 1 = s.epoch) ∨
    s.worker i = .observed s.epoch ∨ s.worker i = .exited

/-- What holds while the caller is where it is. -/
def Phase (s : CpuPool k ε) : Caller ε → Prop
  | .idle | .writing _ | .closing | .shutting => s.Quiet
  | .resetting job => s.Prepared job 0
  | .clearing job => s.Prepared job 1
  | .arming job => s.Prepared job 2
  | .locking job | .bumping job => s.Prepared job 3
  | .notifying job => s.Opened job ∧ s.region.place none = .absent
  | .draining job => s.Opened job ∧ s.Awake ∧ s.region.place none ≠ .absent
  | .waiting job => s.Opened job ∧ s.Awake ∧ s.region.place none = .out
  | .taking job => s.Opened job ∧ s.active = 0 ∧ s.region.place none = .out
  | .returning job payload => s.Quiet ∧ s.Ended job payload
  | .rousing => s.Down
  | .joining | .joined => s.Down ∧ s.Awake

structure Inv (s : CpuPool k ε) : Prop where

  locks : Locks s.holder s.caller.holds s.parked s.worker

  phase : s.Phase s.caller

/-- A step of a worker, by what it does in each kind of phase. -/
theorem Phase.of_worker {c : Caller ε} (h : s.Phase c)
    (hquiet : s.Quiet → s'.Quiet ∧ s'.region = s.region ∧ s'.job = s.job ∧ s'.active = s.active)
    (hopened : ∀ job, s.Opened job → s'.Opened job ∧ s'.active ≤ s.active ∧
      s'.region.place none = s.region.place none)
    (hawake : s.Awake → s'.Awake) (hdown : s.Down → s'.Down) : s'.Phase c := by
  have hprepared : ∀ {job n}, s.Prepared job n → s'.Prepared job n := by
    intro job n hp
    obtain ⟨hq, hregion, hjob, hactive⟩ := hquiet hp.toQuiet
    refine ⟨hq, hjob.trans hp.job, ?_, ?_, ?_, ?_, ?_, fun hn => hactive.trans (hp.active hn)⟩
    all_goals rw [hregion]
    exacts [hp.calls, hp.raised, hp.place, hp.next, hp.aborted]
  cases c with
  | idle => exact (hquiet h).1
  | writing job => exact (hquiet h).1
  | closing => exact (hquiet h).1
  | shutting => exact (hquiet h).1
  | resetting job => exact hprepared h
  | clearing job => exact hprepared h
  | arming job => exact hprepared h
  | locking job => exact hprepared h
  | bumping job => exact hprepared h
  | notifying job =>
    obtain ⟨ho, _, hplace⟩ := hopened job h.1
    exact ⟨ho, hplace.trans h.2⟩
  | draining job =>
    obtain ⟨ho, _, hplace⟩ := hopened job h.1
    exact ⟨ho, hawake h.2.1, hplace ▸ h.2.2⟩
  | waiting job =>
    obtain ⟨ho, _, hplace⟩ := hopened job h.1
    exact ⟨ho, hawake h.2.1, hplace.trans h.2.2⟩
  | taking job =>
    obtain ⟨ho, hactive, hplace⟩ := hopened job h.1
    exact ⟨ho, Nat.le_zero.mp (h.2.1 ▸ hactive), hplace.trans h.2.2⟩
  | returning job payload =>
    obtain ⟨hq, hregion, _⟩ := hquiet h.1
    refine ⟨hq, ?_⟩
    constructor
    all_goals rw [hregion]
    exacts [h.2.finished, h.2.complete, h.2.atMostOnce, h.2.raised]
  | rousing => exact hdown h
  | joining => exact ⟨hdown h.1, hawake h.2⟩
  | joined => exact ⟨hdown h.1, hawake h.2⟩

section Workers

variable {holder : Option (Option (Fin k))} {parked : ℕ} {seen : UInt64}

/-- What a worker in the phase of a drop looks like. -/
def Leaves (epoch : UInt64) (w : Worker) : Prop :=
  (∃ seen, w.waitsAt = some seen ∧ seen + 1 = epoch) ∨ w = .observed epoch ∨ w = .exited

theorem Phase.goto {c : Caller ε} (h : s.Phase c) (region : Region (Option (Fin k)) ε) (active : ℕ)
    (hquiet : (s.worker i).waitsAt = some s.epoch →
      w.waitsAt = some s.epoch ∧ region = s.region ∧ active = s.active)
    (hopened : ∀ job, s.Opened job → region.Sound job.nTasks ∧
      Part s.epoch job w (region.place (some i)) ∧
      active + (s.worker i).pending s.epoch = s.active + w.pending s.epoch ∧ active ≤ s.active)
    (hother : ∀ x, x ≠ some i → region.place x = s.region.place x)
    (hasleep : ∀ seen, w = .asleep seen → seen = s.epoch)
    (hdown : s.shutdown = true → Leaves s.epoch (s.worker i) → Leaves s.epoch w) :
    ({ s with holder, parked, region, active }.goto i w).Phase c := by
  apply h.of_worker
  · intro hq
    obtain ⟨hw, hregion, hactive⟩ := hquiet (hq.waits i)
    refine ⟨⟨hq.shutdown, ?_, fun j => ?_⟩, hregion, rfl, hactive⟩
    · exact (congrArg Region.panic hregion).trans hq.panic
    · by_cases hj : j = i
      · subst hj
        simpa [CpuPool.goto] using hw
      · simpa [CpuPool.goto, hj] using hq.waits j
  · intro job ho
    obtain ⟨hsound, hpart, hactive, hle⟩ := hopened job ho
    refine ⟨⟨ho.shutdown, ho.published, hsound, fun j => ?_, ?_⟩, hle, hother none (by simp)⟩
    · by_cases hj : j = i
      · subst hj
        simpa [CpuPool.goto] using hpart
      · simpa [CpuPool.goto, hj, hother (some j) (by simpa using hj)] using ho.part j
    · have hsum := sum_update (Worker.pending s.epoch) s.worker i w
      have hold := ho.active
      change active = ∑ j, (Function.update s.worker i w j).pending s.epoch
      omega
  · intro ha j seen hj
    by_cases hji : j = i
    · subst hji
      exact hasleep seen (by simpa [CpuPool.goto] using hj)
    · exact ha j seen (by simpa [CpuPool.goto, hji] using hj)
  · intro hd
    refine ⟨hd.shutdown, fun j => ?_⟩
    by_cases hj : j = i
    · subst hj
      simpa [CpuPool.goto, Leaves] using hdown hd.shutdown (hd.worker j)
    · simpa [CpuPool.goto, hj] using hd.worker j

/-- A worker that goes on waiting. -/
theorem Phase.waiting {c : Caller ε} (h : s.Phase c) (hold : (s.worker i).waitsAt = some seen)
    (hnew : w.waitsAt = some seen) (hasleep : ∀ seen, w = .asleep seen → seen = s.epoch) :
    ({ s with holder, parked }.goto i w).Phase c := by
  apply h.goto s.region s.active
  · intro hq
    exact ⟨hnew.trans (hold.symm.trans hq), rfl, rfl⟩
  · intro job ho
    refine ⟨ho.region, (ho.part i).waiting hold hnew, ?_, le_rfl⟩
    simp only [Worker.pending, hold, hnew]
  · exact fun _ _ => rfl
  · exact hasleep
  · rintro _ (⟨seen', hw, hseen⟩ | hw | hw)
    · exact .inl ⟨seen', hnew.trans (hold.symm.trans hw), hseen⟩
    · rw [hw] at hold
      cases hold
    · rw [hw] at hold
      cases hold

/-- A worker that sees a new epoch. -/
theorem Phase.observe {c : Caller ε} (h : s.Phase c) (hold : (s.worker i).waitsAt = some seen)
    (hne : s.epoch ≠ seen) : ({ s with holder, parked }.goto i (.observed s.epoch)).Phase c := by
  apply h.goto s.region s.active
  · intro hq
    exact (hne (Option.some.inj (hq.symm.trans hold))).elim
  · intro job ho
    refine ⟨ho.region, .arrived (.inl rfl) ?_, ?_, le_rfl⟩
    · cases ho.part i with
      | late _ _ hp => exact hp
      | arrived _ hp => exact hp
      | inside hw _ => rw [hw] at hold; cases hold
      | leaving hw _ => rw [hw] at hold; cases hold
      | back hw _ => exact (hne (Option.some.inj (hw.symm.trans hold))).elim
    · have hone : (s.worker i).pending s.epoch = 1 := by simp [Worker.pending, hold, Ne.symm hne]
      rw [hone]
      rfl
  · exact fun _ _ => rfl
  · simp
  · exact fun _ _ => .inr (.inl rfl)

/-- A worker in a region; it neither waits nor has it left. -/
theorem Phase.inside {c : Caller ε} (h : s.Phase c) (region : Region (Option (Fin k)) ε)
    (active : ℕ) (hold : (s.worker i).waitsAt = none)
    (hobserved : s.shutdown = true → Leaves s.epoch (s.worker i) → Leaves s.epoch w)
    (hasleep : w.sleepy = 0) (hother : ∀ x, x ≠ some i → region.place x = s.region.place x)
    (hopened : ∀ job, s.Opened job → region.Sound job.nTasks ∧
      Part s.epoch job w (region.place (some i)) ∧ active + 1 = s.active + w.pending s.epoch ∧
      active ≤ s.active) : ({ s with region, active }.goto i w).Phase c := by
  apply h.goto region active
  · intro hq
    cases hold.symm.trans hq
  · simpa [Worker.pending, hold] using hopened
  · exact hother
  · rintro seen rfl
    cases hasleep
  · exact hobserved

/-- Where a worker of an open region is when it does not wait. -/
theorem Opened.place (h : s.Opened job) (hw : (s.worker i).waitsAt = none) :
    (s.region.place (some i) = .absent ∧
      (s.worker i = .observed s.epoch ∨ s.worker i = .reading s.epoch)) ∨
    (s.region.place (some i) ≠ .absent ∧ s.worker i = .draining s.epoch job) ∨
    (s.region.place (some i) = .out ∧ s.worker i = .leaving s.epoch) := by
  cases h.part i with
  | late hold _ _ => cases hw.symm.trans hold
  | arrived hold hp => exact .inl ⟨hp, hold⟩
  | inside hold hp => exact .inr (.inl ⟨hp, hold⟩)
  | leaving hold hp => exact .inr (.inr ⟨hp, hold⟩)
  | back hold _ => cases hw.symm.trans hold

/-- A worker that has seen a new epoch goes into the region, or ends. -/
theorem Inv.observed (h : s.Inv) (hi : s.worker i = .observed seen) :
    (s.goto i (if s.shutdown then .exited else .reading seen)).Inv := by
  obtain ⟨hl, hp⟩ := h
  have hold : (s.worker i).waitsAt = none := by simp [hi, Worker.waitsAt]
  refine ⟨hl.free ?_ ?_ ?_, hp.inside s.region s.active hold ?_ ?_ (fun _ _ => rfl) ?_⟩
  · simp [hi]
  · split <;> simp
  · split <;> simp [hi, Worker.sleepy]
  · intro hdown _
    rw [if_pos hdown]
    exact .inr (.inr rfl)
  · split <;> rfl
  · intro job ho
    rcases ho.place hold with ⟨hplace, hw⟩ | ⟨_, hw⟩ | ⟨_, hw⟩
    · rw [ho.shutdown]
      have hseen : seen = s.epoch := by simpa [hi] using hw
      refine ⟨ho.region, .arrived (.inr ?_) hplace, ?_, le_rfl⟩
      · simp [hseen]
      · simp [Worker.pending, Worker.waitsAt]
    · cases hi.symm.trans hw
    · cases hi.symm.trans hw

theorem Inv.reading (h : s.Inv) (hi : s.worker i = .reading seen) :
    ((s.enter (some i)).goto i (.draining seen s.job)).Inv := by
  obtain ⟨hl, hp⟩ := h
  have hold : (s.worker i).waitsAt = none := by simp [hi, Worker.waitsAt]
  refine ⟨hl.free ?_ (by simp) ?_, hp.inside (s.region.move (some i) .check) s.active hold ?_ rfl
    (fun x hx => Region.move_place_ne hx _) ?_⟩
  · simp [hi]
  · simp [hi, Worker.sleepy]
  · simp [Leaves, hi, Worker.waitsAt]
  · intro job ho
    rcases ho.place hold with ⟨hplace, hw⟩ | ⟨_, hw⟩ | ⟨_, hw⟩
    · have hseen : seen = s.epoch := by simpa [hi] using hw
      refine ⟨ho.region.enter hplace, .inside ?_ ?_, ?_, le_rfl⟩
      · rw [hseen, ho.published]
      · simp
      · simp [Worker.pending, Worker.waitsAt]
    · cases hi.symm.trans hw
    · cases hi.symm.trans hw

/-- A worker takes a task, or finds none left. -/
theorem Inv.draining (h : s.Inv) (hi : s.worker i = .draining seen job) :
    ({ s with region := s.region.drain (some i) job.nTasks outcome } : CpuPool k ε).Inv := by
  obtain ⟨hl, hp⟩ := h
  have hold : (s.worker i).waitsAt = none := by simp [hi, Worker.waitsAt]
  refine ⟨hl, hp.of_worker ?_ ?_ id fun hd => ⟨hd.shutdown, hd.worker⟩⟩
  · intro hq
    cases hold.symm.trans (hq.waits i)
  · intro job' ho
    rcases ho.place hold with ⟨_, hw⟩ | ⟨hplace, hw⟩ | ⟨_, hw⟩
    · simp [hi] at hw
    · obtain ⟨rfl, rfl⟩ : seen = s.epoch ∧ job = job' := by simpa [hi] using hw
      refine ⟨⟨ho.shutdown, ho.published, ho.region.drain, fun j => ?_, ho.active⟩, le_rfl,
        Region.drain_place_ne (by simp)⟩
      by_cases hj : j = i
      · subst hj
        exact .inside hw (Region.drain_place_ne_absent hplace)
      · change Part _ _ _ ((s.region.drain (some i) _ _).place (some j))
        rw [Region.drain_place_ne (by simpa using hj)]
        exact ho.part j
    · cases hi.symm.trans hw

theorem Inv.drained (h : s.Inv) (hi : s.worker i = .draining seen job)
    (hout : s.region.place (some i) = .out) : (s.goto i (.leaving seen)).Inv := by
  obtain ⟨hl, hp⟩ := h
  have hold : (s.worker i).waitsAt = none := by simp [hi, Worker.waitsAt]
  refine ⟨hl.free ?_ (by simp) ?_, hp.inside s.region s.active hold ?_ rfl (fun _ _ => rfl) ?_⟩
  · simp [hi]
  · simp [hi, Worker.sleepy]
  · simp [Leaves, hi, Worker.waitsAt]
  · intro job' ho
    rcases ho.place hold with ⟨_, hw⟩ | ⟨_, hw⟩ | ⟨_, hw⟩
    · simp [hi] at hw
    · have hseen : seen = s.epoch := by
        rw [hi] at hw
        cases hw
        rfl
      refine ⟨ho.region, .leaving (by rw [hseen]) hout, ?_, le_rfl⟩
      simp [Worker.pending, Worker.waitsAt]
    · cases hi.symm.trans hw

/-- A worker checks out. -/
theorem Inv.leaving (h : s.Inv) (hi : s.worker i = .leaving seen) :
    ({ s with active := s.active - 1 }.goto i (.spinning seen)).Inv := by
  obtain ⟨hl, hp⟩ := h
  have hold : (s.worker i).waitsAt = none := by simp [hi, Worker.waitsAt]
  refine ⟨hl.free ?_ (by simp) ?_,
    hp.inside s.region (s.active - 1) hold ?_ rfl (fun _ _ => rfl) ?_⟩
  · simp [hi]
  · simp [hi, Worker.sleepy]
  · simp [Leaves, hi, Worker.waitsAt]
  · intro job ho
    rcases ho.place hold with ⟨_, hw⟩ | ⟨_, hw⟩ | ⟨hout, hw⟩
    · simp [hi] at hw
    · cases hi.symm.trans hw
    · have hseen : seen = s.epoch := by
        rw [hi] at hw
        cases hw
        rfl
      have hle := Finset.single_le_sum (fun j _ => Nat.zero_le ((s.worker j).pending s.epoch))
        (Finset.mem_univ i)
      have hcount := ho.active
      have hone : (s.worker i).pending s.epoch = 1 := by simp [Worker.pending, hold]
      refine ⟨ho.region, .back (by rw [hseen]; rfl) hout, ?_, Nat.sub_le _ _⟩
      simp only [hseen, Worker.pending, Worker.waitsAt, if_true]
      omega

theorem Inv.workerStep (h : s.Inv) (hs : s.workerStep i outcome = some s') : s'.Inv := by
  have hl := h.locks
  have hp := h.phase
  unfold CpuPool.workerStep at hs
  split at hs
  case h_1 seen hi =>
    split at hs
    · rename_i hne
      cases hs
      refine ⟨hl.free ?_ ?_ ?_, hp.observe (by simp [hi, Worker.waitsAt]) hne⟩ <;>
        simp [hi, Worker.sleepy]
    · cases hs
  case h_2 seen hi =>
    split at hs
    · rename_i hfree
      cases hs
      rw [hfree] at hl
      refine ⟨hl.acquire ?_, hp.waiting (by simp [hi, Worker.waitsAt]) rfl (by simp)⟩
      simp [hi, Worker.sleepy]
    · cases hs
  case h_3 seen hi =>
    split at hs
    · rename_i hne
      cases hs
      refine ⟨hl.release hi (by simp) ?_, hp.observe (by simp [hi, Worker.waitsAt]) hne⟩
      simp [Worker.sleepy]
    · rename_i heq
      cases hs
      refine ⟨hl.release hi (by simp) ?_, hp.waiting (by simp [hi, Worker.waitsAt]) rfl ?_⟩
      · simp [Worker.sleepy]
      · rintro seen' h'
        cases h'
        exact (not_not.mp heq).symm
  case h_4 => cases hs
  case h_5 seen hi =>
    split at hs
    · rename_i hfree
      cases hs
      rw [hfree] at hl
      refine ⟨hl.acquire ?_, hp.waiting (by simp [hi, Worker.waitsAt]) rfl (by simp)⟩
      have hle := Finset.single_le_sum (fun j _ => Nat.zero_le (s.worker j).sleepy)
        (Finset.mem_univ i)
      have hcount := hl.counted
      have hone : (s.worker i).sleepy = 1 := by rw [hi, Worker.sleepy]
      change s.parked - 1 + (s.worker i).sleepy = s.parked
      omega
    · cases hs
  case h_6 seen hi =>
    cases hs
    exact h.observed hi
  case h_7 seen hi =>
    cases hs
    exact h.reading hi
  case h_8 seen job hi =>
    split at hs
    · rename_i hout
      cases hs
      exact h.drained hi hout
    · cases hs
      exact h.draining hi
  case h_9 seen hi =>
    cases hs
    exact h.leaving hi
  case h_10 => cases hs

end Workers

section Callers

/-- The worker has published the region, and nobody has seen it yet. -/
theorem Prepared.opened (h : s.Prepared job 3) (holder : Option (Option (Fin k)))
    (caller : Job → Caller ε) :
    ({ s with epoch := s.epoch + 1, holder, caller := caller job } : CpuPool k ε).Opened job where
  shutdown := h.shutdown
  published := h.job
  region := .fresh (h.next (by omega)) (h.aborted (by omega)) h.panic h.calls h.raised h.place
  part := fun i => .late (h.waits i) rfl (h.place _)
  active := by
    have hone : ∀ i, (s.worker i).pending (s.epoch + 1) = 1 := by
      intro i
      simp [Worker.pending, h.waits i, Ne.symm (add_one_ne s.epoch)]
    simp [hone, h.active le_rfl]

theorem Opened.enter (h : s.Opened job) (hplace : s.region.place none = .absent)
    (caller : Job → Caller ε) : ({ s with caller := caller job }.enter none).Opened job ∧
      (s.enter none).region.place none ≠ .absent := by
  refine ⟨⟨h.shutdown, h.published, h.region.enter hplace, fun i => ?_, h.active⟩, ?_⟩
  · change Part _ _ _ ((s.region.move none .check).place (some i))
    rw [Region.move_place_ne (by simp)]
    exact h.part i
  · simp [CpuPool.enter]

theorem Opened.rouse (h : s.Opened job) :
    ({ s with worker := fun i => (s.worker i).roused } : CpuPool k ε).Opened job where
  shutdown := h.shutdown
  published := h.published
  region := h.region
  part := fun i => (h.part i).roused
  active := by simpa [Worker.pending] using h.active

/-- Once every worker has checked out, everybody has left the region. -/
theorem Opened.ended (h : s.Opened job) (hactive : s.active = 0)
    (hplace : s.region.place none = .out) :
    (∀ i, (s.worker i).waitsAt = some s.epoch) ∧ s.Ended job s.region.panic := by
  have hback : ∀ i, (s.worker i).waitsAt = some s.epoch := by
    intro i
    have hle := Finset.single_le_sum (fun j _ => Nat.zero_le ((s.worker j).pending s.epoch))
      (Finset.mem_univ i)
    have hzero : (s.worker i).pending s.epoch = 0 := by
      have hcount := h.active
      omega
    by_contra hne
    simp [Worker.pending, hne] at hzero
  have hout : ∀ x, s.region.place x = .out := by
    rintro (_ | i)
    · exact hplace
    · have hbacki := hback i
      cases h.part i with
      | late hw hseen _ =>
        obtain rfl := Option.some.inj (hw.symm.trans hbacki)
        exact (add_one_ne _ hseen).elim
      | arrived hw _ => rcases hw with hw | hw <;> (rw [hw] at hbacki; cases hbacki)
      | inside hw _ => rw [hw] at hbacki; cases hbacki
      | leaving _ hp => exact hp
      | back _ hp => exact hp
  have hfinished := h.region.panic_iff hout
  exact ⟨hback, hfinished, fun hpanic => h.region.complete hout (hfinished.mp hpanic),
    h.region.calls_prefix, h.region.panic⟩

theorem Inv.callerStep (h : s.Inv) (hs : s.callerStep outcome = some s') : s'.Inv := by
  obtain ⟨hl, hp⟩ := h
  unfold CpuPool.callerStep at hs
  split at hs
  case h_1 => cases hs
  case h_2 job hc =>
    rw [hc] at hl hp
    cases hs
    exact ⟨hl, ⟨hp.shutdown, hp.panic, hp.waits⟩, rfl, rfl, rfl, fun _ => rfl, by simp, by simp,
      by simp⟩
  case h_3 job hc =>
    rw [hc] at hl hp
    cases hs
    exact ⟨hl, ⟨hp.shutdown, hp.panic, hp.waits⟩, hp.job, hp.calls, hp.raised, hp.place,
      fun _ => rfl, by simp, by simp⟩
  case h_4 job hc =>
    rw [hc] at hl hp
    cases hs
    exact ⟨hl, ⟨hp.shutdown, hp.panic, hp.waits⟩, hp.job, hp.calls, hp.raised, hp.place,
      fun _ => hp.next le_rfl, fun _ => rfl, by simp⟩
  case h_5 job hc =>
    rw [hc] at hl hp
    cases hs
    exact ⟨hl, ⟨hp.shutdown, hp.panic, hp.waits⟩, hp.job, hp.calls, hp.raised, hp.place,
      fun _ => hp.next (by omega), fun _ => hp.aborted le_rfl, fun _ => rfl⟩
  case h_6 job hc =>
    rw [hc] at hl hp
    split at hs
    · rename_i hfree
      cases hs
      rw [hfree] at hl
      exact ⟨hl.take, ⟨hp.shutdown, hp.panic, hp.waits⟩, hp.job, hp.calls, hp.raised, hp.place,
        hp.next, hp.aborted, hp.active⟩
    · cases hs
  case h_7 job hc =>
    rw [hc] at hl hp
    dsimp only at hs
    split at hs
    · cases hs
      exact ⟨hl.give, Prepared.opened hp none .notifying, hp.place none⟩
    · rename_i hparked
      cases hs
      have hawake : ∀ i seen, s.worker i ≠ .asleep seen := by
        intro i seen hi
        have hle := Finset.single_le_sum (fun j _ => Nat.zero_le (s.worker j).sleepy)
          (Finset.mem_univ i)
        have hcount := hl.counted
        have hone : (s.worker i).sleepy = 1 := by rw [hi, Worker.sleepy]
        omega
      obtain ⟨hopened, hplace⟩ :=
        (Prepared.opened hp none .draining).enter (hp.place none) .draining
      exact ⟨hl.give, hopened, fun i seen hi => (hawake i seen hi).elim, hplace⟩
  case h_8 job hc =>
    rw [hc] at hl hp
    cases hs
    obtain ⟨hopened, hplace⟩ := (Opened.rouse hp.1).enter hp.2 .draining
    exact ⟨hl.rouse, hopened, fun i seen hi => (Worker.roused_ne_asleep _ _ hi).elim, hplace⟩
  case h_9 job hc =>
    rw [hc] at hl hp
    obtain ⟨ho, ha, hplace⟩ := hp
    split at hs
    · rename_i hout
      cases hs
      exact ⟨hl, ⟨ho.shutdown, ho.published, ho.region, ho.part, ho.active⟩, ha, hout⟩
    · cases hs
      rw [← hc] at hl
      refine ⟨hl, ?_⟩
      change Phase _ s.caller
      rw [hc]
      refine ⟨⟨ho.shutdown, ho.published, ho.region.drain, fun i => ?_, ho.active⟩, ha,
        Region.drain_place_ne_absent hplace⟩
      change Part _ _ _ ((s.region.drain none _ _).place (some i))
      rw [Region.drain_place_ne (by simp)]
      exact ho.part i
  case h_10 job hc =>
    rw [hc] at hl hp
    obtain ⟨ho, _, hplace⟩ := hp
    split at hs
    · rename_i hactive
      cases hs
      exact ⟨hl, ⟨ho.shutdown, ho.published, ho.region, ho.part, ho.active⟩, hactive, hplace⟩
    · cases hs
  case h_11 job hc =>
    rw [hc] at hl hp
    obtain ⟨ho, hactive, hplace⟩ := hp
    cases hs
    obtain ⟨hback, hended⟩ := ho.ended hactive hplace
    exact ⟨hl, ⟨ho.shutdown, rfl, hback⟩, hended.finished, hended.complete, hended.atMostOnce,
      hended.raised⟩
  case h_12 job payload hc =>
    rw [hc] at hl hp
    cases hs
    exact ⟨hl, hp.1.shutdown, hp.1.panic, hp.1.waits⟩
  case h_13 hc =>
    rw [hc] at hl hp
    split at hs
    · rename_i hfree
      cases hs
      rw [hfree] at hl
      exact ⟨hl.take, hp.shutdown, hp.panic, hp.waits⟩
    · cases hs
  case h_14 hc =>
    rw [hc] at hl hp
    cases hs
    exact ⟨hl.give, rfl, fun i => .inl ⟨s.epoch, hp.waits i, rfl⟩⟩
  case h_15 hc =>
    rw [hc] at hl hp
    cases hs
    refine ⟨hl.rouse, ⟨hp.shutdown, fun i => ?_⟩, fun i seen hi =>
      (Worker.roused_ne_asleep _ _ hi).elim⟩
    change Leaves s.epoch (s.worker i).roused
    rcases hp.worker i with ⟨seen, hw, hseen⟩ | hw | hw
    · exact .inl ⟨seen, (Worker.waitsAt_roused _).trans hw, hseen⟩
    · exact .inr (.inl (by rw [hw]; rfl))
    · exact .inr (.inr (by rw [hw]; rfl))
  case h_16 hc =>
    rw [hc] at hl hp
    split at hs
    · cases hs
      exact ⟨hl, ⟨hp.1.shutdown, hp.1.worker⟩, hp.2⟩
    · cases hs
  case h_17 => cases hs

end Callers

theorem inv_new : (new : CpuPool k ε).Inv := by
  refine ⟨⟨?_, ?_, ?_⟩, rfl, rfl, fun _ => rfl⟩ <;> simp [new, Caller.holds, Worker.sleepy]

theorem Inv.step {a : Action k ε} (h : s.Inv) (hs : s.step a = some s') : s'.Inv := by
  obtain ⟨hl, hp⟩ := h
  cases a with
  | run job =>
    simp only [CpuPool.step] at hs
    split at hs
    · rename_i hc
      rw [hc] at hl hp
      split at hs
      · cases hs
        exact ⟨hl, hp.shutdown, hp.panic, hp.waits⟩
      · cases hs
    · cases hs
  | drop =>
    simp only [CpuPool.step] at hs
    split at hs
    · rename_i hc
      rw [hc] at hl hp
      cases hs
      exact ⟨hl, hp.shutdown, hp.panic, hp.waits⟩
    · cases hs
  | caller outcome => exact Inv.callerStep ⟨hl, hp⟩ hs
  | worker i outcome => exact Inv.workerStep ⟨hl, hp⟩ hs
  | park i =>
    simp only [CpuPool.step] at hs
    split at hs
    · rename_i seen hi
      cases hs
      refine ⟨hl.free ?_ (by simp) ?_, hp.waiting (by simp [hi, Worker.waitsAt]) rfl (by simp)⟩
      · simp [hi]
      · simp [hi, Worker.sleepy]
    · cases hs
  | timeout i =>
    simp only [CpuPool.step] at hs
    split at hs
    · rename_i seen hi
      cases hs
      refine ⟨hl.free ?_ (by simp) ?_, hp.waiting (by simp [hi, Worker.waitsAt]) rfl (by simp)⟩
      · simp [hi]
      · simp [hi, Worker.sleepy]
    · cases hs

theorem Reaches.inv (h : Reaches s) : s.Inv := by
  induction h with
  | new => exact inv_new
  | step _ hs ih => exact ih.step hs

/-- A region that returns has no task left, and every worker waits for the next one. -/
theorem run_returns {payload : Option ε} (h : Reaches s) (hc : s.caller = .returning job payload) :
    s.Quiet ∧ s.Ended job payload := by
  have hphase := h.inv.phase
  rwa [hc] at hphase

/-- One worker, which claims nothing before the caller has called the one task. -/
def oneRegion : List (Action 1 Unit) :=
  .run ⟨7, 1⟩ :: List.replicate 12 (.caller none) ++ List.replicate 7 (.worker 0 none) ++
    List.replicate 2 (.caller none)

theorem run_returns_once : ∃ s : CpuPool 1 Unit, s.caller = .returning ⟨7, 1⟩ none ∧
    s.Quiet ∧ s.Ended ⟨7, 1⟩ none := by
  have hrun : (steps oneRegion new).map caller = some (.returning ⟨7, 1⟩ none) := rfl
  obtain ⟨s, hs, hc⟩ := Option.map_eq_some_iff.mp hrun
  exact ⟨s, hc, run_returns (Reaches.new.steps hs) hc⟩

theorem Phase.quiet_or_opened (h : s.Phase s.caller) :
    s.Quiet ∨ (∃ job, s.caller.serves = some job ∧ s.Opened job) ∨ s.Down := by
  revert h
  cases s.caller with
  | idle => exact .inl
  | writing job => exact .inl
  | closing => exact .inl
  | shutting => exact .inl
  | resetting job => exact fun h => .inl h.toQuiet
  | clearing job => exact fun h => .inl h.toQuiet
  | arming job => exact fun h => .inl h.toQuiet
  | locking job => exact fun h => .inl h.toQuiet
  | bumping job => exact fun h => .inl h.toQuiet
  | notifying job => exact fun h => .inr (.inl ⟨job, rfl, h.1⟩)
  | draining job => exact fun h => .inr (.inl ⟨job, rfl, h.1⟩)
  | waiting job => exact fun h => .inr (.inl ⟨job, rfl, h.1⟩)
  | taking job => exact fun h => .inr (.inl ⟨job, rfl, h.1⟩)
  | returning job payload => exact fun h => .inl h.1
  | rousing => exact fun h => .inr (.inr h)
  | joining => exact fun h => .inr (.inr h.1)
  | joined => exact fun h => .inr (.inr h.1)

/-- A worker reads a job, or calls one, only while whoever submitted it is inside its region: the
closure is alive then, and nobody writes the job. -/
theorem closure_outlives (h : Reaches s) {seen : UInt64} :
    (s.worker i = .reading seen → ∃ job, s.caller.serves = some job ∧ s.job = job) ∧
      ∀ job, s.worker i = .draining seen job → s.caller.serves = some job ∧ s.job = job := by
  have hwaits : ∀ w : Worker, w = .reading seen ∨ (∃ job, w = .draining seen job) →
      w.waitsAt = none := by
    rintro w (rfl | ⟨job, rfl⟩) <;> rfl
  have hopen : s.worker i = .reading seen ∨ (∃ job, s.worker i = .draining seen job) →
      ∃ job, s.caller.serves = some job ∧ s.Opened job := by
    intro hi
    have hnone := hwaits _ hi
    rcases h.inv.phase.quiet_or_opened with hq | ho | hd
    · cases hnone.symm.trans (hq.waits i)
    · exact ho
    · rcases hd.worker i with ⟨_, hw, _⟩ | hw | hw
      · cases hnone.symm.trans hw
      · rcases hi with hi | ⟨_, hi⟩ <;> cases hi.symm.trans hw
      · rcases hi with hi | ⟨_, hi⟩ <;> cases hi.symm.trans hw
  constructor
  · intro hi
    obtain ⟨job, hserves, ho⟩ := hopen (.inl hi)
    exact ⟨job, hserves, ho.published⟩
  · intro job hi
    obtain ⟨job', hserves, ho⟩ := hopen (.inr ⟨job, hi⟩)
    rcases ho.place (hwaits _ (.inr ⟨job, hi⟩)) with ⟨_, hw | hw⟩ | ⟨_, hw⟩ | ⟨_, hw⟩
    · cases hi.symm.trans hw
    · cases hi.symm.trans hw
    · cases hi.symm.trans hw
      exact ⟨hserves, ho.published⟩
    · cases hi.symm.trans hw

theorem closure_outlives_once : ∃ s : CpuPool 1 Unit, s.worker 0 = .draining 1 ⟨7, 1⟩ ∧
    s.caller.serves = some ⟨7, 1⟩ := by
  have hrun : (steps (oneRegion.take 16) new).map (fun s => s.worker 0) =
      some (.draining 1 ⟨7, 1⟩) := rfl
  obtain ⟨s, hs, hw⟩ := Option.map_eq_some_iff.mp hrun
  exact ⟨s, hw, ((closure_outlives (Reaches.new.steps hs)).2 _ hw).1⟩

/-- Some thread can take its next step, whatever the call it is in does, with no timeout. -/
def Movable (s : CpuPool k ε) : Prop :=
  (∀ outcome, (s.callerStep outcome).isSome) ∨ ∃ i, ∀ outcome, (s.workerStep i outcome).isSome

theorem Movable.of_busy (hw : (s.worker i).waitsAt = none) (he : s.worker i ≠ .exited) :
    s.Movable := by
  refine .inr ⟨i, fun outcome => ?_⟩
  unfold CpuPool.workerStep
  cases hi : s.worker i with
  | draining seen job =>
    dsimp only
    split <;> rfl
  | observed seen => rfl
  | reading seen => rfl
  | leaving seen => rfl
  | exited => exact (he hi).elim
  | _ => simp [hi, Worker.waitsAt] at hw

/-- The lock comes free. -/
theorem Movable.of_lock (hl : Locks s.holder s.caller.holds s.parked s.worker)
    (hheld : s.caller.holds = false) (hmove : s.holder = none → s.Movable) : s.Movable := by
  rcases hh : s.holder with _ | _ | j
  · exact hmove hh
  · have hholds := hl.called.mp hh
    rw [hheld] at hholds
    cases hholds
  · obtain ⟨seen, hj⟩ := (hl.locked j).mp hh
    refine .inr ⟨j, fun outcome => ?_⟩
    unfold CpuPool.workerStep
    rw [hj]
    dsimp only
    split <;> rfl

/-- A worker that has yet to see the epoch does. -/
theorem Movable.of_late {seen : UInt64} (hl : Locks s.holder s.caller.holds s.parked s.worker)
    (hheld : s.caller.holds = false) (ha : s.Awake) (hw : (s.worker i).waitsAt = some seen)
    (hseen : seen + 1 = s.epoch) : s.Movable := by
  have hne : s.epoch ≠ seen := hseen ▸ add_one_ne seen
  apply Movable.of_lock hl hheld
  intro hfree
  refine .inr ⟨i, fun outcome => ?_⟩
  unfold CpuPool.workerStep
  cases hi : s.worker i with
  | spinning seen' =>
    obtain rfl : seen' = seen := by simpa [hi, Worker.waitsAt] using hw
    simp [hne]
  | locking seen' => simp [hfree]
  | checking seen' =>
    dsimp only
    split <;> rfl
  | asleep seen' =>
    obtain rfl : seen' = seen := by simpa [hi, Worker.waitsAt] using hw
    exact (hne (ha i seen' hi).symm).elim
  | waking seen' => simp [hfree]
  | _ => simp [hi, Worker.waitsAt] at hw

theorem Phase.awake (h : s.Phase s.caller) :
    s.Awake ∨ (∃ job, s.caller = .notifying job) ∨ s.caller = .rousing := by
  have hquiet : s.Quiet → s.Awake := by
    intro hq i seen hi
    simpa [hi, Worker.waitsAt] using hq.waits i
  cases hc : s.caller with
  | notifying job => exact .inr (.inl ⟨job, rfl⟩)
  | rousing => exact .inr (.inr rfl)
  | taking job =>
    rw [hc] at h
    obtain ⟨ho, hactive, hplace⟩ := h
    left
    intro i seen hi
    simpa [hi, Worker.waitsAt] using (ho.ended hactive hplace).1 i
  | draining job =>
    rw [hc] at h
    exact .inl h.2.1
  | waiting job =>
    rw [hc] at h
    exact .inl h.2.1
  | joining =>
    rw [hc] at h
    exact .inl h.2
  | joined =>
    rw [hc] at h
    exact .inl h.2
  | _ =>
    rw [hc] at h
    first
    | exact .inl (hquiet h)
    | exact .inl (hquiet h.toQuiet)
    | exact .inl (hquiet h.1)

theorem Inv.movable (h : s.Inv) (hidle : s.caller ≠ .idle) (hjoined : s.caller ≠ .joined) :
    s.Movable := by
  obtain ⟨hl, hp⟩ := h
  cases hc : s.caller with
  | idle => exact (hidle hc).elim
  | joined => exact (hjoined hc).elim
  | locking job =>
    apply Movable.of_lock hl (by rw [hc]; rfl)
    intro hfree
    exact .inl fun outcome => by simp [CpuPool.callerStep, hc, hfree]
  | closing =>
    apply Movable.of_lock hl (by rw [hc]; rfl)
    intro hfree
    exact .inl fun outcome => by simp [CpuPool.callerStep, hc, hfree]
  | bumping job =>
    left
    intro outcome
    simp only [CpuPool.callerStep, hc]
    split <;> rfl
  | draining job =>
    left
    intro outcome
    simp only [CpuPool.callerStep, hc]
    split <;> rfl
  | waiting job =>
    rw [hc] at hp
    obtain ⟨ho, ha, _⟩ := hp
    by_cases hactive : s.active = 0
    · exact .inl fun outcome => by simp [CpuPool.callerStep, hc, hactive]
    · obtain ⟨i, hi⟩ : ∃ i, (s.worker i).waitsAt ≠ some s.epoch := by
        by_contra hall
        push Not at hall
        apply hactive
        rw [ho.active]
        exact Finset.sum_eq_zero fun i _ => by simp [Worker.pending, hall i]
      cases ho.part i with
      | late hw hseen _ => exact .of_late hl (by rw [hc]; rfl) ha hw hseen
      | arrived hw _ =>
        rcases hw with hw | hw <;> exact .of_busy (i := i) (by rw [hw]; rfl) (by simp [hw])
      | inside hw _ => exact .of_busy (i := i) (by rw [hw]; rfl) (by simp [hw])
      | leaving hw _ => exact .of_busy (i := i) (by rw [hw]; rfl) (by simp [hw])
      | back hw _ => exact (hi hw).elim
  | joining =>
    rw [hc] at hp
    obtain ⟨hd, ha⟩ := hp
    by_cases hall : ∀ i, s.worker i = .exited
    · exact .inl fun outcome => by simp [CpuPool.callerStep, hc, hall]
    · obtain ⟨i, hi⟩ := not_forall.mp hall
      rcases hd.worker i with ⟨seen, hw, hseen⟩ | hw | hw
      · exact .of_late hl (by rw [hc]; rfl) ha hw hseen
      · exact .of_busy (i := i) (by rw [hw]; rfl) (by simp [hw])
      · exact (hi hw).elim
  | _ => exact .inl fun outcome => by simp [CpuPool.callerStep, hc]

/-- No wakeup is lost: a worker sleeps on an epoch that is over only until the notification that is
under way. And while there is anything to do, some thread can go on. -/
theorem no_lost_wakeup (h : Reaches s) :
    (∀ i seen, s.worker i = .asleep seen → seen ≠ s.epoch →
      (∃ job, s.caller = .notifying job) ∨ s.caller = .rousing) ∧
    (s.caller ≠ .idle → s.caller ≠ .joined → s.Movable) := by
  refine ⟨fun i seen hi hne => ?_, h.inv.movable⟩
  exact h.inv.phase.awake.resolve_left fun ha => hne (ha i seen hi)

/-- The worker parks before the region is published. -/
def parkedRegion : List (Action 1 Unit) :=
  [.park 0, .worker 0 none, .worker 0 none, .run ⟨7, 1⟩] ++ List.replicate 6 (.caller none)

theorem no_lost_wakeup_parked : ∃ s : CpuPool 1 Unit, s.worker 0 = .asleep 0 ∧ s.epoch = 1 ∧
    ((∃ job, s.caller = .notifying job) ∨ s.caller = .rousing) := by
  have hrun : (steps parkedRegion new).map (fun s => (s.worker 0, s.epoch)) =
      some (.asleep 0, 1) := rfl
  obtain ⟨s, hs, hw⟩ := Option.map_eq_some_iff.mp hrun
  obtain ⟨hasleep, hepoch⟩ := Prod.mk.inj hw
  refine ⟨s, hasleep, hepoch, (no_lost_wakeup (Reaches.new.steps hs)).1 0 0 hasleep ?_⟩
  rw [hepoch]
  decide

end CpuPool

end Frink.Pool
