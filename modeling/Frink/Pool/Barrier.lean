import Frink.Library.Claiming

/-! # The worker pool

Workers that are kept for good wait for a region, first spinning and then parked. Whoever submits
a region publishes its closure by a new epoch, takes part in it, and returns once every worker has
checked out. Each step is one access to what the threads share, or all that is done under the lock.
-/

namespace Frink.Pool

open Claiming

/-- A closure, by a name of its own, and the number of tasks it is run for. -/
structure Job where

  closure : ℕ

  nTasks : ℕ
  deriving DecidableEq

/-- Where a worker is in its loop, with the epoch it has seen. -/
inductive Worker where
  | spinning (seen : UInt64)
  | locking (seen : UInt64)
  | checking (seen : UInt64)
  | asleep (seen : UInt64)
  | waking (seen : UInt64)
  | observed (seen : UInt64)
  | reading (seen : UInt64)
  | draining (seen : UInt64) (job : Job)
  | leaving (seen : UInt64)
  | exited
  deriving DecidableEq

/-- Where the thread is that has the pool to itself: in `run`, or in `drop`. -/
inductive Caller (ε : Type) where
  | idle
  | writing (job : Job)
  | resetting (job : Job)
  | clearing (job : Job)
  | arming (job : Job)
  | locking (job : Job)
  | bumping (job : Job)
  | notifying (job : Job)
  | draining (job : Job)
  | waiting (job : Job)
  | taking (job : Job)
  | returning (job : Job) (payload : Option ε)
  | closing
  | shutting
  | rousing
  | joining
  | joined

/-- The pool of `k` workers; the thread that has it takes part as `none`. -/
structure CpuPool (k : ℕ) (ε : Type) where

  epoch : UInt64

  job : Job

  active : ℕ

  shutdown : Bool

  parked : ℕ

  /-- Who holds the lock of `parked`. -/
  holder : Option (Option (Fin k))

  region : Region (Option (Fin k)) ε

  caller : Caller ε

  worker : Fin k → Worker

inductive Action (k : ℕ) (ε : Type) where
  | run (job : Job)
  | drop
  | caller (outcome : Option ε)
  | worker (i : Fin k) (outcome : Option ε)

  /-- The spin window is over. -/
  | park (i : Fin k)

  | timeout (i : Fin k)

/-- A broadcast. -/
def Worker.roused : Worker → Worker
  | .asleep seen => .waking seen
  | w => w

namespace CpuPool

variable {k : ℕ} {ε : Type}

def new : CpuPool k ε where
  epoch := 0
  job := ⟨0, 0⟩
  active := 0
  shutdown := false
  parked := 0
  holder := none
  region := ⟨0, false, none, [], [], fun _ => .absent⟩
  caller := .idle
  worker := fun _ => .spinning 0

variable (s : CpuPool k ε)

def goto (i : Fin k) (w : Worker) : CpuPool k ε := { s with worker := Function.update s.worker i w }

@[simp] theorem goto_parked (i : Fin k) (w : Worker) : (s.goto i w).parked = s.parked := rfl

def enter (x : Option (Fin k)) : CpuPool k ε := { s with region := s.region.move x .check }

/-- The next step of the worker `i`, where it has one. -/
def workerStep (i : Fin k) (outcome : Option ε) : Option (CpuPool k ε) :=
  match s.worker i with
  | .spinning seen => if s.epoch ≠ seen then some (s.goto i (.observed s.epoch)) else none
  | .locking seen =>
      if s.holder = none then some ({ s with holder := some (some i) }.goto i (.checking seen))
      else none
  | .checking seen =>
      if s.epoch ≠ seen then some ({ s with holder := none }.goto i (.observed s.epoch))
      else some ({ s with holder := none, parked := s.parked + 1 }.goto i (.asleep seen))
  | .asleep _ => none
  | .waking seen =>
      if s.holder = none then
        some ({ s with holder := some (some i), parked := s.parked - 1 }.goto i (.checking seen))
      else none
  | .observed seen => some (s.goto i (if s.shutdown then .exited else .reading seen))
  | .reading seen => some ((s.enter (some i)).goto i (.draining seen s.job))
  | .draining seen job =>
      match s.region.place (some i) with
      | .out => some (s.goto i (.leaving seen))
      | _ => some { s with region := s.region.drain (some i) job.nTasks outcome }
  | .leaving seen => some ({ s with active := s.active - 1 }.goto i (.spinning seen))
  | .exited => none

/-- The next step of the thread that has the pool; what the log of calls says is about the region
that is written here. -/
def callerStep (outcome : Option ε) : Option (CpuPool k ε) :=
  match s.caller with
  | .idle => none
  | .writing job => some { s with
      job := job
      region := { s.region with calls := [], raised := [], place := fun _ => .absent }
      caller := .resetting job }
  | .resetting job =>
      some { s with region := { s.region with next := 0 }, caller := .clearing job }
  | .clearing job =>
      some { s with region := { s.region with aborted := false }, caller := .arming job }
  | .arming job => some { s with active := k, caller := .locking job }
  | .locking job =>
      if s.holder = none then some { s with holder := some none, caller := .bumping job } else none
  | .bumping job =>
      let published := { s with epoch := s.epoch + 1, holder := none }
      if 0 < s.parked then some { published with caller := .notifying job }
      else some ({ published with caller := .draining job }.enter none)
  | .notifying job =>
      some ({ s with worker := fun i => (s.worker i).roused, caller := .draining job }.enter none)
  | .draining job =>
      match s.region.place none with
      | .out => some { s with caller := .waiting job }
      | _ => some { s with region := s.region.drain none job.nTasks outcome }
  | .waiting job => if s.active = 0 then some { s with caller := .taking job } else none
  | .taking job => some { s with
      region := { s.region with panic := none }
      caller := .returning job s.region.panic }
  | .returning _ _ => some { s with caller := .idle }
  | .closing =>
      if s.holder = none then some { s with holder := some none, caller := .shutting } else none
  | .shutting => some { s with
      shutdown := true
      epoch := s.epoch + 1
      holder := none
      caller := .rousing }
  | .rousing => some { s with worker := fun i => (s.worker i).roused, caller := .joining }
  | .joining =>
      if ∀ i, s.worker i = .exited then some { s with caller := .joined } else none
  | .joined => none

/-- One action; `none` where it is not enabled. A caller that finds the pool taken leaves it as it
is, and so does one that is inside a region already. -/
def step : Action k ε → Option (CpuPool k ε)
  | .run job =>
      match s.caller with
      | .idle => if 0 < job.nTasks then some { s with caller := .writing job } else none
      | _ => none
  | .drop =>
      match s.caller with
      | .idle => some { s with caller := .closing }
      | _ => none
  | .caller outcome => s.callerStep outcome
  | .worker i outcome => s.workerStep i outcome
  | .park i =>
      match s.worker i with
      | .spinning seen => some (s.goto i (.locking seen))
      | _ => none
  | .timeout i =>
      match s.worker i with
      | .asleep seen => some (s.goto i (.waking seen))
      | _ => none

/-- The actions of a schedule, one after the other. -/
def steps (schedule : List (Action k ε)) (s : CpuPool k ε) : Option (CpuPool k ε) :=
  schedule.foldlM (fun s a => s.step a) s

inductive Reaches : CpuPool k ε → Prop where

  | new : Reaches .new

  | step {s s' : CpuPool k ε} {a : Action k ε} : Reaches s → s.step a = some s' → Reaches s'

theorem Reaches.steps {schedule : List (Action k ε)} {s s' : CpuPool k ε} (h : Reaches s)
    (hs : s.steps schedule = some s') : Reaches s' := by
  induction schedule generalizing s with
  | nil =>
    cases hs
    exact h
  | cons a schedule ih =>
    obtain ⟨t, ht, hs⟩ := Option.bind_eq_some_iff.mp hs
    exact ih (h.step ht) hs

end CpuPool

end Frink.Pool
