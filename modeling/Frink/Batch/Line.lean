import Frink.Batch.Preemption
import Frink.Batch.Room
import Frink.Library.Overtaking

/-! # The line at the batcher's door

The queue of waiting jobs, with what a pass over it has put aside before it and the channel
behind it, is one line. A job is good for one admission more than it may still be preempted.
-/

namespace Frink.Batch
open Decode Overtaking

variable {S L P E : Type} {decoder : Decoder L} {config : BatcherConfig}

/-- How often the request may still be admitted, once this prefill or this row is done. -/
def Answer.credit (a : Answer S) : ℕ := MAX_PREEMPTIONS - a.preemptions

namespace Job

variable (job : Job S L P E)

/-- How often the request may still be admitted. -/
def credit : ℕ :=
  match job.answer with
  | none => 1 + MAX_PREEMPTIONS
  | some a => 1 + MAX_PREEMPTIONS - a.preemptions

def waiter : Waiter ℕ := ⟨job.abort, job.skips, job.credit⟩

/-- A job that comes back was preempted, and not more often than it may be. -/
def Fit : Prop := ∀ a, job.answer = some a → 1 ≤ a.preemptions ∧ a.preemptions ≤ MAX_PREEMPTIONS

variable {job}

theorem credit_le : job.credit ≤ 1 + MAX_PREEMPTIONS := by
  rw [credit]
  split
  · exact le_rfl
  · exact Nat.sub_le _ _

theorem Fit.credit_le {a : Answer S} (h : job.Fit) (ha : job.answer = some a) :
    job.credit ≤ MAX_PREEMPTIONS := by
  have hpos := (h a ha).1
  rw [credit, ha]
  dsimp only
  omega

/-- An admission uses one up. -/
theorem Fit.credit_intoPrefill (h : job.Fit) (decoder : Decoder L) (chunkSize : ℕ)
    (kv : RowKv) :
    (job.intoPrefill decoder chunkSize kv).answer.credit + 1 = job.credit := by
  rw [intoPrefill, credit]
  dsimp only
  cases ha : job.answer with
  | none => rfl
  | some a =>
    have hle := (h a ha).2
    show MAX_PREEMPTIONS - a.preemptions + 1 = 1 + MAX_PREEMPTIONS - a.preemptions
    omega

end Job

/-- A preemption takes nothing away. -/
theorem Slot.credit_preempt (s : Slot S L P E) : s.preempt.credit = s.answer.credit := by
  show 1 + MAX_PREEMPTIONS - (s.answer.preemptions + 1) = MAX_PREEMPTIONS - s.answer.preemptions
  omega

theorem Slot.credit_decodeStep (s : Slot S L P E) :
    (s.decodeStep decoder).1.answer.credit = s.answer.credit := by
  have hown : s.relabel s.abort s.blocks s.answer.preemptions s.kv.slides = s := rfl
  have hstep : s.decodeStep decoder = _ := hown ▸ relabel_decodeStep
  rw [hstep]
  rfl

namespace Stage

/-- Jobs that a pass over the queue has put aside. -/
def kept : Stage S L P E → List (Job S L P E)
  | abortWaiting kept => kept
  | _ => []

/-- Jobs in hand that the queue gets back. -/
def back : Stage S L P E → List (Job S L P E)
  | admission evicted | evict _ _ evicted | preempting _ _ _ evicted | take _ _ evicted
  | accepting _ evicted | refused _ evicted | closeAdmit evicted => evicted
  | requeue job evicted => job :: evicted
  | _ => []

/-- The job that is being admitted. -/
def accepted : Stage S L P E → List (Job S L P E)
  | accepting job _ => [job]
  | _ => []

end Stage

/-- The pick jumps nobody who was passed over too often, and jumps nobody if it was itself. -/
def Picked (waiting : List (Job S L P E)) (pick : ℕ) : Prop :=
  (∀ job ∈ waiting.take pick, job.skips < MAX_SKIPS) ∧
    ∀ job, waiting[pick]? = some job → MAX_SKIPS ≤ job.skips → pick = 0

theorem chooseFrom_spec (jobs : List (ℕ × ℕ)) (i best bestDepth : ℕ) :
    chooseFrom i jobs best bestDepth = best ∨ ∃ k < jobs.length,
      chooseFrom i jobs best bestDepth = i + k ∧ ∀ job ∈ jobs.take (k + 1), job.2 < MAX_SKIPS := by
  induction jobs generalizing i best bestDepth with
  | nil => exact .inl rfl
  | cons job jobs ih =>
    obtain ⟨depth, skips⟩ := job
    rw [chooseFrom]
    by_cases hskips : MAX_SKIPS ≤ skips
    · rw [if_pos hskips]
      exact .inl rfl
    · rw [if_neg hskips]
      have hlater : ∀ best bestDepth, chooseFrom (i + 1) jobs best bestDepth = best ∨
          ∃ k < ((depth, skips) :: jobs).length,
            chooseFrom (i + 1) jobs best bestDepth = i + k ∧
              ∀ job ∈ ((depth, skips) :: jobs).take (k + 1), job.2 < MAX_SKIPS := by
        intro best bestDepth
        rcases ih (i + 1) best bestDepth with h | ⟨k, hk, h, hfresh⟩
        · exact .inl h
        · refine .inr ⟨k + 1, Nat.succ_lt_succ hk, by omega, ?_⟩
          rw [List.take_succ_cons, List.forall_mem_cons]
          exact ⟨Nat.lt_of_not_le hskips, hfresh⟩
      split
      · rcases hlater i depth with h | h
        · refine .inr ⟨0, Nat.succ_pos _, h, ?_⟩
          simpa using hskips
        · exact .inr h
      · exact hlater best bestDepth

theorem choose_spec (jobs : List (ℕ × ℕ)) :
    choose jobs = 0 ∨ (choose jobs < jobs.length ∧
      ∀ job ∈ jobs.take (choose jobs + 1), job.2 < MAX_SKIPS) := by
  cases jobs with
  | nil => exact .inl rfl
  | cons job jobs =>
    obtain ⟨depth, skips⟩ := job
    rw [choose]
    by_cases hskips : MAX_SKIPS ≤ skips
    · rw [if_pos hskips]
      exact .inl rfl
    · rw [if_neg hskips]
      rcases chooseFrom_spec jobs 1 0 depth with h | ⟨k, hk, h, hfresh⟩
      · exact .inl h
      · right
        rw [h, Nat.add_comm 1 k, List.take_succ_cons, List.forall_mem_cons]
        exact ⟨Nat.succ_lt_succ hk, Nat.lt_of_not_le hskips, hfresh⟩

theorem cacheAwarePick_picked (cachedLen : Option (Job S L P E → ℕ))
    (waiting : List (Job S L P E)) : Picked waiting (cacheAwarePick cachedLen waiting) := by
  have hzero : Picked waiting 0 := by simp [Picked]
  cases cachedLen with
  | none => exact hzero
  | some len =>
    rw [cacheAwarePick]
    have hspec := choose_spec ((waiting.take WINDOW).map fun job => (len job, job.skips))
    generalize choose ((waiting.take WINDOW).map fun job => (len job, job.skips)) = pick at hspec ⊢
    rcases hspec with rfl | ⟨hlt, hfresh⟩
    · exact hzero
    · have hwindow : pick + 1 ≤ WINDOW := by
        rw [List.length_map, List.length_take] at hlt
        omega
      have hskips : ∀ job ∈ waiting.take (pick + 1), job.skips < MAX_SKIPS := by
        intro job hjob
        apply hfresh (len job, job.skips)
        rw [← List.map_take, List.take_take, min_eq_left hwindow]
        exact List.mem_map_of_mem (f := fun job => (len job, job.skips)) hjob
      constructor
      · intro job hjob
        apply hskips
        exact (List.take_sublist_take_left (Nat.le_succ _)).subset hjob
      · intro job hjob hle
        have hmem : job ∈ waiting.take (pick + 1) := by
          rw [List.take_add_one, hjob]
          exact List.mem_append_right _ List.mem_cons_self
        exact absurd (hskips job hmem) (Nat.not_lt.mpr hle)

namespace World

variable (w : World S L P E)

/-- Everybody who waits, in the order in which they are looked at. -/
def line : List (Job S L P E) := w.stage.kept ++ w.waiting ++ w.channel

/-- Jobs in hand that stand in no queue. -/
def away : List (Job S L P E) := w.stage.accepted ++ w.stage.back

def waiters : Line ℕ := w.line.map Job.waiter

/-- The admissions that requests which do not wait are still good for. -/
def out : ℕ :=
  (w.away.map Job.credit).sum + (w.allPrefills.map fun p => p.answer.credit).sum +
    (w.allSlots.map fun s => s.answer.credit).sum

/-- The head of the queue, if it was cancelled. -/
def cancels : Option ℕ :=
  (w.waiting.head?.filter fun job => decide (job.abort ∈ w.carried)).map (·.abort)

/-- What a step shows of the line. -/
def event (decoder : Decoder L) (config : BatcherConfig) : Action S L P E → Event ℕ
  | .send i => { joined := w.submitting[i]?.map (·.abort) }
  | .work o =>
      match w.stage with
      | .abortWaiting _ => { cancelled := w.cancels }
      | .take job pick _ =>
          { taken := some job.abort, jumped := (w.waiting.take pick).map (·.abort) }
      | .accepting job _ =>
          match accept decoder job config.prefillChunk o.paged with
          | .prefill _ => { served := some job.abort }
          | _ => {}
      | _ => {}
  | _ => {}

/-- What a run shows of the line. -/
def events (decoder : Decoder L) (config : BatcherConfig) :
    World S L P E → List (Action S L P E) → List (Event ℕ)
  | _, [] => []
  | w, action :: actions =>
      w.event decoder config action :: events decoder config (w.act decoder config action) actions

/-- What a pick was chosen by, and whom it evicts. -/
def StageLined (w : World S L P E) : Prop :=
  match w.stage with
  | .evict uids pick _ => Picked w.waiting pick ∧
      ∀ row ∈ w.rows.state, row.1 ∈ uids → row.2.answer.preemptions < MAX_PREEMPTIONS
  | .preempting slot uids pick _ => Picked w.waiting pick ∧
      slot.answer.preemptions < MAX_PREEMPTIONS ∧
        ∀ row ∈ w.rows.state, row.1 ∈ uids → row.2.answer.preemptions < MAX_PREEMPTIONS
  | .take _ pick _ => Picked w.waiting pick
  | _ => True

structure Lined (w : World S L P E) : Prop where

  fit : ∀ job ∈ w.allJobs, job.Fit

  submitted : ∀ job ∈ w.submitting, job.skips = 0 ∧ job.answer = none

  back : ∀ job ∈ w.stage.back, job.skips = 0

  stage : w.StageLined

variable {w} {o : Oracle S L P E}

theorem init_lined : (init config : World S L P E).Lined :=
  ⟨nofun, nofun, nofun, trivial⟩

theorem makeRoom_preemptible {prefilling free : ℕ} {head : Job S L P E}
    (hn : w.rows.keys.Nodup) :
    ∀ row ∈ w.rows.state, row.1 ∈ makeRoom config w.rows prefilling free head →
      row.2.answer.preemptions < MAX_PREEMPTIONS := by
  intro row hrow hu
  obtain ⟨n, -, hroom, -⟩ := makeRoom_eq config w.rows prefilling free head
  rw [hroom] at hu
  obtain ⟨row', hrow', he⟩ := List.mem_map.mp hu
  obtain ⟨hstate, -, -, hcount, -⟩ := mem_evictable (List.mem_of_mem_take hrow')
  rw [row_eq hn hrow hstate he.symm]
  exact hcount

/-- The two worlds before and after a step, as lines. -/
def Steps (w : World S L P E) (e : Event ℕ) (w' : World S L P E) : Prop :=
  Step MAX_SKIPS (1 + MAX_PREEMPTIONS) w.waiters w.out e w'.waiters w'.out

variable {w' : World S L P E}

theorem Steps.idle (hl : w'.waiters = w.waiters) (ho : w'.out ≤ w.out) : w.Steps {} w' := by
  rw [Steps, hl]
  exact .idle none ho

theorem Steps.of_step {e : Event ℕ} {l l' : Line ℕ} {out' : ℕ}
    (h : Step MAX_SKIPS (1 + MAX_PREEMPTIONS) l w.out e l' out') (hl : w.waiters = l)
    (hl' : w'.waiters = l') (ho : w'.out = out') : w.Steps e w' := by
  subst hl hl' ho
  exact h

theorem goto_steps {stage old : Stage S L P E} (hs : w.stage = old) (hk : stage.kept = old.kept)
    (ha : stage.accepted = old.accepted) (hb : stage.back = old.back)
    (hp : stage.prefills = old.prefills) (hsl : stage.slots = old.slots) :
    w.Steps {} (w.goto stage) := by
  subst hs
  apply Steps.idle
  · simp only [waiters, line, goto, hk]
  · simp only [out, away, allPrefills, allSlots, goto, ha, hb, hp, hsl, le_refl]

theorem Books.count_le (h : w.Books config) (id : ℕ) : w.owed.count id ≤ 1 :=
  List.nodup_iff_count_le_one.mp h.owed_nodup id

/-- The stage's share of the line is in its hands. -/
theorem kept_sublist (stage : Stage S L P E) : stage.kept.Sublist stage.jobs := by
  cases stage <;> simp [Stage.kept, Stage.jobs]

theorem Books.not_waiting {job : Job S L P E} (h : w.Books config) (hjob : job ∈ w.submitting) :
    job.abort ∉ w.line.map (·.abort) := by
  intro hline
  have hcount := h.count_le job.abort
  have hsubmitting : 0 < (w.submitting.map (·.abort)).count job.abort :=
    List.count_pos_iff.mpr (List.mem_map_of_mem hjob)
  have hwaiting : 0 < (w.line.map (·.abort)).count job.abort := List.count_pos_iff.mpr hline
  have hkept : (w.stage.kept.map (·.abort)).count job.abort ≤
      (w.stage.jobs.map (·.abort)).count job.abort :=
    ((kept_sublist w.stage).map _).count_le _
  simp only [owed, line, List.map_append, List.count_append] at hcount hwaiting
  omega

theorem ids_waiters : ids w.waiters = w.line.map (·.abort) := by
  rw [waiters, ids, List.map_map]
  rfl

/-- Jobs in hand that go to the front of the queue. -/
theorem Steps.giveBack (jobs : List (Job S L P E)) (hb : w.Books config)
    (hskips : ∀ job ∈ jobs, job.skips = 0)
    (hids : ∀ id, ((jobs ++ w.line).map (·.abort)).count id ≤ w.owed.count id)
    (hl : w'.waiters = jobs.map Job.waiter ++ w.waiters)
    (ho : w'.out + (jobs.map Job.credit).sum ≤ w.out) : w.Steps {} w' := by
  rw [Steps, hl]
  apply Step.giveBack
  · intro x hx
    obtain ⟨job, hjob, rfl⟩ := List.mem_map.mp hx
    exact hskips job hjob
  · rw [waiters, ← List.map_append, ids, List.map_map, List.nodup_iff_count_le_one]
    exact fun id => (hids id).trans (hb.count_le id)
  · rw [credits, List.map_map]
    exact ho

theorem top_steps (hs : w.stage = .top) : w.Steps {} (w.work decoder config o) := by
  rw [work, hs]
  dsimp only
  split
  · rename_i hidle
    have hw : w.waiting = [] := by
      simp only [Bool.and_eq_true, List.isEmpty_iff] at hidle
      exact hidle.2
    split
    · exact .idle rfl le_rfl
    · rename_i job channel hc
      apply Steps.idle
      · simp [waiters, line, hs, hw, hc, Stage.kept]
      · simp [out, away, allPrefills, allSlots, hs, Stage.accepted, Stage.back, Stage.prefills,
          Stage.slots]
  · exact goto_steps hs rfl rfl rfl rfl rfl

theorem drain_steps (hs : w.stage = .drain) : w.Steps {} (w.work decoder config o) := by
  rw [work, hs]
  dsimp only
  split
  · exact goto_steps hs rfl rfl rfl rfl rfl
  · rename_i job channel hc
    apply Steps.idle
    · simp [waiters, line, hs, hc, Stage.kept]
    · simp [out, away, allPrefills, allSlots, hs]

theorem aborts_steps (hs : w.stage = .aborts) : w.Steps {} (w.work decoder config o) := by
  rw [work, hs]
  dsimp only
  by_cases hc : w.carried ∪ w.inbox = ∅
  · rw [if_pos hc]
    exact goto_steps hs rfl rfl rfl rfl rfl
  · rw [if_neg hc]
    exact goto_steps hs rfl rfl rfl rfl rfl

theorem abortWaiting_steps {kept : List (Job S L P E)} (hs : w.stage = .abortWaiting kept) :
    w.Steps { cancelled := w.cancels } (w.work decoder config o) := by
  rw [work, hs, cancels]
  dsimp only
  cases hw : w.waiting with
  | nil =>
    apply Steps.idle
    · simp [waiters, line, hs, hw, Stage.kept]
    · simp [out, away, allPrefills, allSlots, hs, Stage.accepted, Stage.back, Stage.prefills,
        Stage.slots]
  | cons job waiting =>
    dsimp only
    by_cases hc : job.abort ∈ w.carried
    · rw [if_pos hc, List.head?_cons, Option.filter_some_pos (by simpa using hc)]
      apply Steps.of_step (Step.leave (x := job.waiter))
      · show _ = kept.map Job.waiter ++ job.waiter :: (waiting ++ w.channel).map Job.waiter
        simp [waiters, line, hs, hw, Stage.kept]
      · simp [waiters, line, Stage.kept]
      · simp [out, away, allPrefills, allSlots, hs]
    · rw [if_neg hc, List.head?_cons, Option.filter_some_neg (by simpa using hc)]
      apply Steps.idle
      · simp [waiters, line, hs, hw, Stage.kept]
      · simp [out, away, allPrefills, allSlots, hs, Stage.accepted, Stage.back, Stage.prefills,
          Stage.slots]

theorem abortPrefills_steps {kept : List (Prefill S L P E)} (hs : w.stage = .abortPrefills kept) :
    w.Steps {} (w.work decoder config o) := by
  rw [work, hs]
  dsimp only
  cases hw : w.prefills with
  | nil =>
    apply Steps.idle
    · simp [waiters, line, hs, Stage.kept]
    · simp [out, away, allPrefills, allSlots, hs, hw, Stage.accepted, Stage.back, Stage.prefills,
        Stage.slots]
  | cons p prefills =>
    dsimp only
    split
    · apply Steps.idle
      · simp [waiters, line, hs, Stage.kept]
      · simp [out, away, allPrefills, allSlots, hs, hw, Stage.accepted, Stage.back, Stage.prefills,
          Stage.slots]
        omega
    · apply Steps.idle
      · simp [waiters, line, hs, Stage.kept]
      · simp [out, away, allPrefills, allSlots, hs, hw, Stage.accepted, Stage.back, Stage.prefills,
          Stage.slots]
        omega

theorem abortPrefill_steps {p : Prefill S L P E} {kept : List (Prefill S L P E)}
    (hs : w.stage = .abortPrefill p kept) : w.Steps {} (w.work decoder config o) := by
  rw [work, hs]
  apply Steps.idle
  · simp [waiters, line, hs, Stage.kept]
  · simp [out, away, allPrefills, allSlots, hs, Stage.accepted, Stage.back, Stage.prefills,
      Stage.slots]

theorem markRows_steps (hs : w.stage = .markRows) : w.Steps {} (w.work decoder config o) := by
  rw [work, hs]
  apply Steps.idle
  · simp [waiters, line, hs, Stage.kept]
  · apply le_of_eq
    simp only [out, away, allPrefills, allSlots, hs, Stage.accepted, Stage.back, Stage.prefills,
      Stage.slots, Rows.markCancelled, Rows.mapSlots, Rows.slots, List.map_map, List.append_nil]
    congr 2
    apply List.map_congr_left
    rintro ⟨uid, slot⟩ -
    dsimp only [Function.comp_apply]
    split <;> rfl

theorem flush_steps {next : AfterFlush} (hs : w.stage = .flush next) :
    w.Steps {} (w.work decoder config o) := by
  rw [work, hs]
  dsimp only
  split
  · cases next <;> exact goto_steps hs rfl rfl rfl rfl rfl
  · split
    · exact .idle rfl le_rfl
    · rename_i uid finish _ _ slot hget
      obtain ⟨front, back, hstate, hrest⟩ := Rows.remove_spec hget
      apply Steps.idle
      · simp [waiters, line, hs, Stage.kept]
      · simp [out, away, allPrefills, allSlots, Rows.slots, hs, hstate, hrest, Stage.accepted,
          Stage.back, Stage.prefills, Stage.slots]
        omega

theorem flushing_steps {slot : Slot S L P E} {finish : FinishReason} {next : AfterFlush}
    (hs : w.stage = .flushing slot finish next) : w.Steps {} (w.work decoder config o) := by
  rw [work, hs]
  apply Steps.idle
  · simp [waiters, line, hs, Stage.kept]
  · simp [out, away, allPrefills, allSlots, hs, Stage.accepted, Stage.back, Stage.prefills,
      Stage.slots]

theorem admission_steps {evicted : List (Job S L P E)} (hs : w.stage = .admission evicted) :
    w.Steps {} (w.work decoder config o) := by
  rw [work, hs]
  dsimp only
  split
  · exact goto_steps hs rfl rfl rfl rfl rfl
  rw [admitHead]
  dsimp only
  split
  · exact goto_steps hs rfl rfl rfl rfl rfl
  split
  · exact goto_steps hs rfl rfl rfl rfl rfl
  split
  · exact goto_steps hs rfl rfl rfl rfl rfl
  · split <;> exact goto_steps hs rfl rfl rfl rfl rfl

theorem evict_steps {uids : List ℕ} {pick : ℕ} {evicted : List (Job S L P E)}
    (hs : w.stage = .evict uids pick evicted) : w.Steps {} (w.work decoder config o) := by
  rw [work, hs]
  cases uids with
  | nil =>
    dsimp only
    rw [reserveRoom]
    split
    · exact goto_steps hs rfl rfl rfl rfl rfl
    split <;> exact goto_steps hs rfl rfl rfl rfl rfl
  | cons uid uids =>
    dsimp only
    split
    · exact goto_steps hs rfl rfl rfl rfl rfl
    · rename_i slot hget
      obtain ⟨front, back, hstate, hrest⟩ := Rows.remove_spec hget
      apply Steps.idle
      · simp [waiters, line, hs, Stage.kept]
      · simp [out, away, allPrefills, allSlots, Rows.slots, hs, hstate, hrest, Stage.accepted,
          Stage.back, Stage.prefills, Stage.slots]
        omega

theorem preempting_steps {slot : Slot S L P E} {uids : List ℕ} {pick : ℕ}
    {evicted : List (Job S L P E)} (hs : w.stage = .preempting slot uids pick evicted) :
    w.Steps {} (w.work decoder config o) := by
  rw [work, hs]
  apply Steps.idle
  · simp [waiters, line, hs, Stage.kept]
  · simp [out, away, allPrefills, allSlots, hs, Stage.accepted, Stage.back, Stage.prefills,
      Stage.slots, Slot.credit_preempt]
    omega

theorem take_steps {job : Job S L P E} {pick : ℕ} {evicted : List (Job S L P E)}
    (hseat : w.Seated config) (h : w.Lined) (hs : w.stage = .take job pick evicted) :
    w.Steps { taken := some job.abort, jumped := (w.waiting.take pick).map (·.abort) }
      (w.work decoder config o) := by
  have hroom := hseat.room
  have hpicked := h.stage
  rw [Room, hs] at hroom
  rw [StageLined, hs] at hpicked
  obtain ⟨hfresh, hhead⟩ := hpicked
  have hwaiting := waiting_split hroom.1
  have hjumped : (w.waiting.take pick).map (·.abort) =
      ids ((w.waiting.take pick).map Job.waiter) := by
    rw [ids, List.map_map]
    rfl
  rw [work, hs, hjumped]
  dsimp only [takeJob]
  apply Steps.of_step (Step.take (x := job.waiter) ?_ ?_
    (le_rfl : w.out + job.credit ≤ w.out + job.credit))
  · show _ = (w.waiting.take pick).map Job.waiter ++ job.waiter ::
      (w.waiting.drop (pick + 1) ++ w.channel).map Job.waiter
    simp only [waiters, line, hs, Stage.kept, List.nil_append]
    nth_rewrite 1 [hwaiting]
    simp
  · simp [waiters, line, Stage.kept, Function.comp_def, Job.waiter, Job.credit, Waiter.pass]
  · simp [out, away, allPrefills, allSlots, hs, Stage.accepted, Stage.back, Stage.prefills,
      Stage.slots]
    omega
  · rintro x hx
    obtain ⟨j, hj, rfl⟩ := List.mem_map.mp hx
    exact hfresh j hj
  · intro hskips
    rw [hhead job hroom.1 hskips]
    rfl

theorem accepting_steps {job : Job S L P E} {evicted : List (Job S L P E)} (h : w.Lined)
    (hs : w.stage = .accepting job evicted) :
    w.Steps (match accept decoder job config.prefillChunk o.paged with
      | .prefill _ => { served := some job.abort }
      | _ => {}) (w.work decoder config o) := by
  have hfit : job.Fit := by
    apply h.fit
    simp [allJobs, hs, Stage.jobs]
  rw [work, hs]
  dsimp only [acceptJob]
  rcases accept_spec decoder job config.prefillChunk o.paged with
    ⟨k, slides, -, -, ha⟩ | ⟨e, ha, -⟩ | ⟨-, ha⟩
  · have hcredit := hfit.credit_intoPrefill decoder config.prefillChunk
      ⟨job.run.take k, slides⟩
    rw [ha]
    dsimp only
    refine Steps.of_step (Step.idle (some job.abort) ?_) rfl ?_ rfl
    · simp [out, away, allPrefills, allSlots, hs, Stage.accepted, Stage.back, Stage.prefills,
        Stage.slots]
      omega
    · simp [waiters, line, hs, Stage.kept]
  · rw [ha]
    apply Steps.idle
    · simp [waiters, line, hs, Stage.kept]
    · simp [out, away, allPrefills, allSlots, hs, Stage.accepted, Stage.back, Stage.prefills,
        Stage.slots]
  · rw [ha]
    apply Steps.idle
    · simp [waiters, line, hs, goto, Stage.kept]
    · simp [out, away, allPrefills, allSlots, hs, goto, Stage.accepted, Stage.back, Stage.prefills,
        Stage.slots, Job.credit]

theorem refused_steps {blocks : ℕ} {evicted : List (Job S L P E)}
    (hs : w.stage = .refused blocks evicted) : w.Steps {} (w.work decoder config o) := by
  rw [work, hs]
  exact goto_steps hs rfl rfl rfl rfl rfl

theorem requeue_steps {job : Job S L P E} {evicted : List (Job S L P E)} (hb : w.Books config)
    (h : w.Lined) (hs : w.stage = .requeue job evicted) :
    w.Steps {} (w.work decoder config o) := by
  rw [work, hs]
  apply Steps.giveBack [job] hb
  · rintro j hj
    rw [List.mem_singleton.mp hj]
    apply h.back
    simp [hs, Stage.back]
  · intro id
    simp [owed, line, hs, Stage.kept, Stage.jobs, Stage.prefills, Stage.slots, List.count_cons]
    omega
  · simp [waiters, line, hs, Stage.kept]
  · simp [out, away, allPrefills, allSlots, hs, Stage.accepted, Stage.back, Stage.prefills,
      Stage.slots]
    omega

theorem closeAdmit_steps {evicted : List (Job S L P E)} (hb : w.Books config) (h : w.Lined)
    (hs : w.stage = .closeAdmit evicted) : w.Steps {} (w.work decoder config o) := by
  rw [work, hs]
  dsimp only [World.closeAdmit]
  apply Steps.giveBack evicted.reverse hb
  · rintro j hj
    apply h.back
    simpa [hs, Stage.back] using hj
  · intro id
    simp [owed, line, hs, Stage.kept, Stage.jobs, Stage.prefills, Stage.slots]
    omega
  · simp [waiters, line, hs, Stage.kept, Function.comp_def, Job.waiter, Job.credit]
  · simp [out, away, allPrefills, allSlots, hs, Stage.accepted, Stage.back, Stage.prefills,
      Stage.slots]
    omega

theorem prefill_steps (hs : w.stage = .prefill) : w.Steps {} (w.work decoder config o) := by
  rw [work, hs]
  dsimp only
  rw [prefillChunk]
  cases hp : w.prefills with
  | nil => exact goto_steps hs rfl rfl rfl rfl rfl
  | cons p prefills =>
    dsimp only
    split
    · apply Steps.idle
      · simp [waiters, line, hs, Stage.kept]
      · simp [out, away, allPrefills, allSlots, hs, hp, Rows.slots, Rows.insert, Prefill.intoSlot,
          Stage.accepted, Stage.back, Stage.prefills, Stage.slots]
        omega
    · apply Steps.idle
      · simp [waiters, line, hs, Stage.kept]
      · simp [out, away, allPrefills, allSlots, hs, hp, Stage.accepted, Stage.back, Stage.prefills,
          Stage.slots]
        omega

theorem decode_steps (hs : w.stage = .decode) : w.Steps {} (w.work decoder config o) := by
  rw [work, hs]
  dsimp only
  rw [decodeRows]
  split
  · exact goto_steps hs rfl rfl rfl rfl rfl
  · apply Steps.idle
    · simp [waiters, line, hs, Stage.kept]
    · simp [out, away, allPrefills, allSlots, hs, Rows.slots, Rows.mapSlots, Function.comp_def,
        Slot.credit_decodeStep, Stage.accepted, Stage.back, Stage.prefills, Stage.slots]

theorem work_steps (hb : w.Books config) (hseat : w.Seated config) (h : w.Lined) :
    w.Steps (w.event decoder config (.work o)) (w.work decoder config o) := by
  rw [event]
  cases hs : w.stage with
  | top => exact top_steps hs
  | drain => exact drain_steps hs
  | aborts => exact aborts_steps hs
  | abortWaiting kept => exact abortWaiting_steps hs
  | abortPrefills kept => exact abortPrefills_steps hs
  | abortPrefill p kept => exact abortPrefill_steps hs
  | markRows => exact markRows_steps hs
  | flush next => exact flush_steps hs
  | flushing slot finish next => exact flushing_steps hs
  | admission evicted => exact admission_steps hs
  | evict uids pick evicted => exact evict_steps hs
  | preempting slot uids pick evicted => exact preempting_steps hs
  | take job pick evicted => exact take_steps hseat h hs
  | accepting job evicted => exact accepting_steps h hs
  | refused blocks evicted => exact refused_steps hs
  | requeue job evicted => exact requeue_steps hb h hs
  | closeAdmit evicted => exact closeAdmit_steps hb h hs
  | prefill => exact prefill_steps hs
  | decode => exact decode_steps hs

/-- Whatever happens next is a step of the line. -/
theorem act_steps (action : Action S L P E) (hb : w.Books config) (hseat : w.Seated config)
    (h : w.Lined) : w.Steps (w.event decoder config action) (w.act decoder config action) := by
  cases action with
  | reserve request blocks =>
    show w.Steps {} (w.reserve config request blocks)
    rw [reserve]
    split <;> exact .idle rfl le_rfl
  | send i =>
    show w.Steps { joined := w.submitting[i]?.map (·.abort) } (w.send i)
    rw [send]
    cases hjob : w.submitting[i]? with
    | none => exact .idle rfl le_rfl
    | some job =>
      refine Steps.of_step (Step.join (x := job.waiter) ?_ Job.credit_le ?_) rfl ?_ rfl
      · exact (h.submitted job (List.mem_of_getElem? hjob)).1
      · rw [ids_waiters]
        exact hb.not_waiting (List.mem_of_getElem? hjob)
      · simp [waiters, line]
  | cancel id => exact .idle rfl le_rfl
  | work o => exact work_steps hb hseat h

section Lined

/-- After the step the line is in order, and no job is new to it that was never admitted. -/
structure Follows (w w' : World S L P E) : Prop where

  lined : w'.Lined

  fresh : ∀ job ∈ w'.allJobs, job.answer = none →
    ∃ job' ∈ w.allJobs, job'.abort = job.abort ∧ job'.answer = none

theorem Follows.refl (h : w.Lined) : w.Follows w :=
  ⟨h, fun job hjob hfresh => ⟨job, hjob, rfl, hfresh⟩⟩

/-- The worker goes on elsewhere with the same jobs. -/
theorem Lined.of_same (h : w.Lined) (hsubmitting : w'.submitting = w.submitting)
    (hjobs : ∀ job ∈ w'.allJobs, ∃ job' ∈ w.allJobs, SameJob job job')
    (hback : ∀ job ∈ w'.stage.back, job.skips = 0) (hstage : w'.StageLined) : w.Follows w' := by
  refine ⟨⟨?_, hsubmitting ▸ h.submitted, hback, hstage⟩, ?_⟩
  · intro job hjob a ha
    obtain ⟨job', hjob', -, -, -, hanswer⟩ := hjobs job hjob
    exact h.fit job' hjob' a (hanswer ▸ ha)
  · intro job hjob hfresh
    obtain ⟨job', hjob', habort, -, -, hanswer⟩ := hjobs job hjob
    exact ⟨job', hjob', habort.symm, hanswer ▸ hfresh⟩

theorem Lined.of_mem (h : w.Lined) (hsubmitting : w'.submitting = w.submitting)
    (hjobs : ∀ job ∈ w'.allJobs, job ∈ w.allJobs)
    (hback : ∀ job ∈ w'.stage.back, job.skips = 0) (hstage : w'.StageLined) : w.Follows w' :=
  h.of_same hsubmitting (fun job hjob => SameJob.refl_of_mem (hjobs job hjob)) hback hstage

theorem goto_lined {stage : Stage S L P E} (h : w.Lined) (hj : stage.jobs = w.stage.jobs)
    (hb : ∀ job ∈ stage.back, job ∈ w.stage.back) (hstage : (w.goto stage).StageLined) :
    w.Follows (w.goto stage) := by
  refine h.of_mem rfl ?_ (fun job hjob => h.back job (hb job hjob)) hstage
  intro job hjob
  rwa [allJobs, goto, hj] at hjob

theorem queue_lined (h : w.Lined) (hs : w.stage = .top ∨ w.stage = .drain ∨ w.stage = .aborts) :
    w.Follows (w.work decoder config o) := by
  rcases hs with hs | hs | hs <;> rw [work, hs] <;> dsimp only
  · split
    · split
      · exact .refl h
      · rename_i hc
        refine h.of_mem rfl ?_ (List.forall_mem_nil _) trivial
        intro job hjob
        simp only [allJobs, hs, hc, Stage.jobs, List.mem_append, List.mem_cons] at hjob ⊢
        tauto
    · exact goto_lined h (by rw [hs]; rfl) (List.forall_mem_nil _) trivial
  · split
    · exact goto_lined h (by rw [hs]; rfl) (List.forall_mem_nil _) trivial
    · rename_i hc
      refine h.of_mem rfl ?_ (List.forall_mem_nil _) trivial
      intro job hjob
      simp only [allJobs, hs, hc, Stage.jobs, List.mem_append, List.mem_cons] at hjob ⊢
      tauto
  · by_cases hc : w.carried ∪ w.inbox = ∅
    · rw [if_pos hc]
      refine h.of_mem rfl ?_ (List.forall_mem_nil _) trivial
      intro job hjob
      rwa [allJobs, hs]
    · rw [if_neg hc]
      refine h.of_mem rfl ?_ (List.forall_mem_nil _) trivial
      intro job hjob
      rwa [allJobs, hs]

theorem abort_lined (h : w.Lined) (hs : (∃ kept, w.stage = .abortWaiting kept) ∨
    (∃ kept, w.stage = .abortPrefills kept) ∨ ∃ p kept, w.stage = .abortPrefill p kept) :
    w.Follows (w.work decoder config o) := by
  rcases hs with ⟨kept, hs⟩ | ⟨kept, hs⟩ | ⟨p, kept, hs⟩ <;> rw [work, hs] <;> dsimp only
  · cases hw : w.waiting with
    | nil =>
      refine h.of_mem rfl ?_ (List.forall_mem_nil _) trivial
      intro job hjob
      simp only [allJobs, hs, hw, Stage.jobs, List.mem_append] at hjob ⊢
      tauto
    | cons first waiting =>
      dsimp only
      split
      · refine h.of_mem rfl ?_ (by simp [Stage.back]) (by simp [StageLined])
        intro job hjob
        simp only [allJobs, hs, hw, Stage.jobs, List.mem_append, List.mem_cons] at hjob ⊢
        tauto
      · refine h.of_mem rfl ?_ (List.forall_mem_nil _) trivial
        intro job hjob
        simp only [allJobs, hs, hw, Stage.jobs, List.mem_append, List.mem_cons,
          List.not_mem_nil, or_false] at hjob ⊢
        tauto
  · split
    · exact h.of_mem rfl (fun job hjob => by rwa [allJobs, hs]) (List.forall_mem_nil _) trivial
    · split <;> exact h.of_mem rfl (fun job hjob => by rwa [allJobs, hs]) (List.forall_mem_nil _) trivial
  · exact h.of_mem rfl (fun job hjob => by rwa [allJobs, hs]) (List.forall_mem_nil _) trivial

theorem flush_lined (h : w.Lined) (hs : w.stage = .markRows ∨ (∃ next, w.stage = .flush next) ∨
    ∃ slot finish next, w.stage = .flushing slot finish next) :
    w.Follows (w.work decoder config o) := by
  rcases hs with hs | ⟨next, hs⟩ | ⟨slot, finish, next, hs⟩ <;> rw [work, hs] <;> dsimp only
  · exact h.of_mem rfl (fun job hjob => by rwa [allJobs, hs]) (List.forall_mem_nil _) trivial
  · split
    · cases next <;> exact goto_lined h (by rw [hs]; rfl) (List.forall_mem_nil _) trivial
    · split
      · exact .refl h
      · exact h.of_mem rfl (fun job hjob => by rwa [allJobs, hs]) (List.forall_mem_nil _) trivial
  · exact h.of_mem rfl (fun job hjob => by rwa [allJobs, hs]) (List.forall_mem_nil _) trivial

theorem admission_lined {evicted : List (Job S L P E)} (hseat : w.Seated config) (h : w.Lined)
    (hs : w.stage = .admission evicted) : w.Follows (w.work decoder config o) := by
  have hback : ∀ job ∈ evicted, job.skips = 0 := by
    have hback := h.back
    rwa [hs] at hback
  have hpicked := cacheAwarePick_picked o.cachedLen w.waiting
  rw [work, hs]
  dsimp only
  split
  · exact h.of_mem rfl (fun job hjob => by rwa [allJobs, hs]) hback trivial
  rw [admitHead]
  dsimp only
  split
  · exact h.of_mem rfl (fun job hjob => by rwa [allJobs, hs]) hback trivial
  split
  · exact h.of_mem rfl (fun job hjob => by rwa [allJobs, hs]) hback trivial
  split
  · exact h.of_mem rfl (fun job hjob => by rwa [allJobs, hs]) hback hpicked
  · split
    · exact h.of_mem rfl (fun job hjob => by rwa [allJobs, hs]) hback trivial
    · exact h.of_mem rfl (fun job hjob => by rwa [allJobs, hs]) hback
        ⟨hpicked, makeRoom_preemptible hseat.nodup⟩

theorem evict_lined {uids : List ℕ} {pick : ℕ} {evicted : List (Job S L P E)} (h : w.Lined)
    (hs : w.stage = .evict uids pick evicted) : w.Follows (w.work decoder config o) := by
  have hback : ∀ job ∈ evicted, job.skips = 0 := by
    have hback := h.back
    rwa [hs] at hback
  have hstage := h.stage
  rw [StageLined, hs] at hstage
  obtain ⟨hpicked, hlive⟩ := hstage
  rw [work, hs]
  cases uids with
  | nil =>
    dsimp only
    rw [reserveRoom]
    split
    · exact h.of_mem rfl (fun job hjob => by rwa [allJobs, hs]) hback trivial
    split
    · exact h.of_mem rfl (fun job hjob => by rwa [allJobs, hs]) hback hpicked
    · exact h.of_mem rfl (fun job hjob => by rwa [allJobs, hs]) hback trivial
  | cons uid uids =>
    dsimp only
    split
    · refine h.of_mem rfl (fun job hjob => by rwa [allJobs, hs]) hback ⟨hpicked, ?_⟩
      exact fun row hrow hu => hlive row hrow (List.mem_cons_of_mem _ hu)
    · rename_i slot hget
      obtain ⟨hmem, hrows⟩ := rows_remove hget
      refine h.of_mem rfl (fun job hjob => by rwa [allJobs, hs]) hback ⟨hpicked, ?_, ?_⟩
      · exact hlive _ hmem List.mem_cons_self
      · exact fun row hrow hu => hlive row (hrows row hrow) (List.mem_cons_of_mem _ hu)

theorem preempting_lined {slot : Slot S L P E} {uids : List ℕ} {pick : ℕ}
    {evicted : List (Job S L P E)} (h : w.Lined)
    (hs : w.stage = .preempting slot uids pick evicted) : w.Follows (w.work decoder config o) := by
  obtain ⟨hfit, hsubmitted, hback, hstage⟩ := h
  rw [hs] at hback
  rw [StageLined, hs] at hstage
  obtain ⟨hpicked, hcount, hlive⟩ := hstage
  rw [work, hs]
  have hcases : ∀ job ∈ w.submitting ++ w.channel ++ w.waiting ++ (evicted ++ [slot.preempt]),
      job ∈ w.allJobs ∨ job = slot.preempt := by
    intro job hjob
    simp only [allJobs, hs, Stage.jobs, List.mem_append, List.mem_cons, List.not_mem_nil,
      or_false] at hjob ⊢
    tauto
  refine ⟨⟨?_, hsubmitted, ?_, ⟨hpicked, hlive⟩⟩, ?_⟩
  · intro job hjob
    rcases hcases job hjob with hjob | rfl
    · exact hfit job hjob
    · rintro a ⟨⟩
      exact ⟨Nat.succ_pos _, hcount⟩
  · intro job hjob
    rcases List.mem_append.mp hjob with hjob | hjob
    · exact hback job hjob
    · rw [List.mem_singleton.mp hjob]
      rfl
  · intro job hjob hfresh
    rcases hcases job hjob with hjob | rfl
    · exact ⟨job, hjob, rfl, hfresh⟩
    · cases hfresh

theorem take_lined {job : Job S L P E} {pick : ℕ} {evicted : List (Job S L P E)}
    (hseat : w.Seated config) (h : w.Lined) (hs : w.stage = .take job pick evicted) :
    w.Follows (w.work decoder config o) := by
  have hback : ∀ job ∈ evicted, job.skips = 0 := by
    have hback := h.back
    rwa [hs] at hback
  have hroom := hseat.room
  rw [Room, hs] at hroom
  rw [work, hs]
  exact h.of_same rfl (takeJob_jobs hroom.1 hs) hback trivial

theorem accepting_lined {job : Job S L P E} {evicted : List (Job S L P E)} (h : w.Lined)
    (hs : w.stage = .accepting job evicted) : w.Follows (w.work decoder config o) := by
  have hback : ∀ job ∈ evicted, job.skips = 0 := by
    have hback := h.back
    rwa [hs] at hback
  have hjobs : ∀ j, j ∈ w.submitting ++ w.channel ++ w.waiting ++ evicted → j ∈ w.allJobs := by
    intro j hj
    simp only [allJobs, hs, Stage.jobs, List.mem_append, List.mem_cons] at hj ⊢
    tauto
  have hjob : job ∈ w.allJobs := by simp [allJobs, hs, Stage.jobs]
  rw [work, hs]
  dsimp only [acceptJob]
  rcases accept_spec decoder job config.prefillChunk o.paged with
    ⟨k, slides, -, -, ha⟩ | ⟨e, ha, -⟩ | ⟨-, ha⟩ <;> rw [ha]
  · exact h.of_mem rfl hjobs hback trivial
  · exact h.of_mem rfl hjobs hback trivial
  · refine h.of_same rfl ?_ ?_ trivial
    · intro j hj
      simp only [allJobs, goto, Stage.jobs, List.mem_append, List.mem_cons] at hj
      rcases hj with hj | rfl | hj
      · exact SameJob.refl_of_mem (hjobs j (by simp only [List.mem_append]; tauto))
      · exact ⟨job, hjob, rfl, rfl, rfl, rfl⟩
      · exact SameJob.refl_of_mem (hjobs j (by simp only [List.mem_append]; tauto))
    · exact List.forall_mem_cons.mpr ⟨rfl, hback⟩

theorem finish_lined {evicted : List (Job S L P E)} (h : w.Lined)
    (hs : (∃ blocks, w.stage = .refused blocks evicted) ∨ (∃ job, w.stage = .requeue job evicted) ∨
      w.stage = .closeAdmit evicted) : w.Follows (w.work decoder config o) := by
  have hback := h.back
  rcases hs with ⟨blocks, hs⟩ | ⟨job, hs⟩ | hs <;> rw [hs] at hback <;> rw [work, hs] <;> dsimp only
  · exact h.of_mem rfl (fun job hjob => by rwa [allJobs, hs]) hback trivial
  · refine h.of_mem rfl ?_ (List.forall_mem_cons.mp hback).2 trivial
    intro j hj
    simp only [allJobs, hs, Stage.jobs, List.mem_append, List.mem_cons] at hj ⊢
    tauto
  · exact h.of_same rfl (closeAdmit_jobs hs) (List.forall_mem_nil _) trivial

theorem run_rows_lined (h : w.Lined) (hs : w.stage = .prefill ∨ w.stage = .decode) :
    w.Follows (w.work decoder config o) := by
  rcases hs with hs | hs <;> rw [work, hs] <;> dsimp only
  · rw [prefillChunk]
    split
    · exact goto_lined h (by rw [hs]; rfl) (List.forall_mem_nil _) trivial
    · dsimp only
      split <;> exact h.of_mem rfl (fun job hjob => by rwa [allJobs, hs]) (List.forall_mem_nil _) trivial
  · rw [decodeRows]
    split
    · exact goto_lined h (by rw [hs]; rfl) (List.forall_mem_nil _) trivial
    · exact h.of_mem rfl (fun job hjob => by rwa [allJobs, hs]) (List.forall_mem_nil _) trivial

theorem work_lined (hseat : w.Seated config) (h : w.Lined) :
    w.Follows (w.work decoder config o) := by
  cases hs : w.stage with
  | top => exact queue_lined h (.inl hs)
  | drain => exact queue_lined h (.inr (.inl hs))
  | aborts => exact queue_lined h (.inr (.inr hs))
  | abortWaiting kept => exact abort_lined h (.inl ⟨kept, hs⟩)
  | abortPrefills kept => exact abort_lined h (.inr (.inl ⟨kept, hs⟩))
  | abortPrefill p kept => exact abort_lined h (.inr (.inr ⟨p, kept, hs⟩))
  | markRows => exact flush_lined h (.inl hs)
  | flush next => exact flush_lined h (.inr (.inl ⟨next, hs⟩))
  | flushing slot finish next => exact flush_lined h (.inr (.inr ⟨slot, finish, next, hs⟩))
  | admission evicted => exact admission_lined hseat h hs
  | evict uids pick evicted => exact evict_lined h hs
  | preempting slot uids pick evicted => exact preempting_lined h hs
  | take job pick evicted => exact take_lined hseat h hs
  | accepting job evicted => exact accepting_lined h hs
  | refused blocks evicted => exact finish_lined h (.inl ⟨blocks, hs⟩)
  | requeue job evicted => exact finish_lined h (.inr (.inl ⟨job, hs⟩))
  | closeAdmit evicted => exact finish_lined h (.inr (.inr hs))
  | prefill => exact run_rows_lined h (.inl hs)
  | decode => exact run_rows_lined h (.inr hs)

/-- A job that was never admitted is one that was there before, or that is being submitted. -/
theorem act_follows (action : Action S L P E) (hseat : w.Seated config) (h : w.Lined) :
    (w.act decoder config action).Lined ∧
      ∀ job ∈ (w.act decoder config action).allJobs, job.answer = none →
        job.abort = w.nextId ∨ ∃ job' ∈ w.allJobs, job'.abort = job.abort ∧ job'.answer = none := by
  cases action with
  | reserve request blocks =>
    show (w.reserve config request blocks).Lined ∧
      ∀ job ∈ (w.reserve config request blocks).allJobs, _
    rw [reserve]
    split
    · exact ⟨h, fun job hjob hfresh => .inr ⟨job, hjob, rfl, hfresh⟩⟩
    have hcases : ∀ job ∈ w.submitting ++
        [⟨request.promptIds, request, w.nextId, blocks, 0, 0, none⟩] ++ w.channel ++ w.waiting ++
          w.stage.jobs,
        job ∈ w.allJobs ∨ job = ⟨request.promptIds, request, w.nextId, blocks, 0, 0, none⟩ := by
      intro job hjob
      simp only [allJobs, List.mem_append, List.mem_singleton] at hjob ⊢
      tauto
    refine ⟨⟨?_, ?_, h.back, h.stage⟩, ?_⟩
    · intro job hjob
      rcases hcases job hjob with hjob | rfl
      · exact h.fit job hjob
      · intro _ hnone
        cases hnone
    · intro job hjob
      rcases List.mem_append.mp hjob with hjob | hjob
      · exact h.submitted job hjob
      · rw [List.mem_singleton.mp hjob]
        exact ⟨rfl, rfl⟩
    · intro job hjob hfresh
      rcases hcases job hjob with hjob | rfl
      · exact .inr ⟨job, hjob, rfl, hfresh⟩
      · exact .inl rfl
  | send i =>
    show (w.send i).Lined ∧ ∀ job ∈ (w.send i).allJobs, _
    rw [send]
    split
    · exact ⟨h, fun job hjob hfresh => .inr ⟨job, hjob, rfl, hfresh⟩⟩
    rename_i job hget
    have hcases : ∀ j ∈ w.submitting.eraseIdx i ++ (w.channel ++ [job]) ++ w.waiting ++
        w.stage.jobs, j ∈ w.allJobs := by
      intro j hj
      simp only [allJobs, List.mem_append, List.mem_singleton] at hj ⊢
      rcases hj with ((hj | hj | rfl) | hj) | hj
      · exact .inl (.inl (.inl ((List.eraseIdx_sublist ..).subset hj)))
      · exact .inl (.inl (.inr hj))
      · exact .inl (.inl (.inl (List.mem_of_getElem? hget)))
      · exact .inl (.inr hj)
      · exact .inr hj
    refine ⟨⟨fun j hj => h.fit j (hcases j hj), ?_, h.back, h.stage⟩, ?_⟩
    · exact fun j hj => h.submitted j ((List.eraseIdx_sublist ..).subset hj)
    · exact fun j hj hfresh => .inr ⟨j, hcases j hj, rfl, hfresh⟩
  | cancel id =>
    exact ⟨⟨h.fit, h.submitted, h.back, h.stage⟩,
      fun job hjob hfresh => .inr ⟨job, hjob, rfl, hfresh⟩⟩
  | work o =>
    obtain ⟨hlined, hfresh⟩ : w.Follows (w.work decoder config o) := work_lined hseat h
    exact ⟨hlined, fun job hjob hnone => .inr (hfresh job hjob hnone)⟩

end Lined

/-- What holds of every state the batcher can be in. -/
structure Orderly (config : BatcherConfig) (w : World S L P E) : Prop where

  books : w.Books config

  seated : w.Seated config

  lined : w.Lined

theorem init_orderly : (init config : World S L P E).Orderly config :=
  ⟨init_books, init_seated, init_lined⟩

theorem act_orderly (action : Action S L P E) (h : w.Orderly config) :
    (w.act decoder config action).Orderly config := by
  obtain ⟨hb, hseat⟩ : (w.act decoder config action).Books config ∧
      (w.act decoder config action).Seated config := act_keeps action ⟨h.books, h.seated⟩
  exact ⟨hb, hseat, (act_follows action h.seated h.lined).1⟩

theorem run_orderly (actions : List (Action S L P E)) (h : w.Orderly config) :
    (w.run decoder config actions).Orderly config := by
  induction actions generalizing w with
  | nil => exact h
  | cons action actions ih => exact ih (act_orderly action h)

/-- A run of the batcher is a run of its line. -/
theorem run_steps (actions : List (Action S L P E)) (h : w.Orderly config) :
    Run MAX_SKIPS (1 + MAX_PREEMPTIONS) w.waiters w.out (w.events decoder config actions)
      (w.run decoder config actions).waiters (w.run decoder config actions).out := by
  induction actions generalizing w with
  | nil => exact .nil
  | cons action actions ih =>
    exact .cons (act_steps action h.books h.seated h.lined) (ih (act_orderly action h))

end World

end Frink.Batch
