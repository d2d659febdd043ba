import Frink.Batch.Line

/-! # Nobody starves at the door

Whatever arrives, however deep its cached prompts, and whatever is preempted or sent back: a job
that waits is passed over a few times and no more, and what is admitted before it is bounded by
what was there when it came.
-/

namespace Frink.Batch
open Decode Overtaking

variable {S L P E : Type}

namespace World

variable (w : World S L P E)

/-- The request waits for its first admission. -/
def Unadmitted (id : ℕ) : Prop := ∃ job ∈ w.allJobs, job.abort = id ∧ job.answer = none

/-- The jobs in the line or in hand that were never admitted. -/
def ahead : ℕ := (w.line ++ w.away).countP fun job => job.answer.isNone

/-- The requests that were admitted and have not ended. -/
def admitted : ℕ :=
  ((w.line ++ w.away).countP fun job => job.answer.isSome) + w.allPrefills.length +
    w.allSlots.length

/-- What can be admitted before a job that comes now: each request ahead of it and one for each
skip, as often as it can be preempted and once more, and those in the cache as often as they can be
preempted. -/
def admissionBound : ℕ :=
  (1 + MAX_PREEMPTIONS) * (w.ahead + MAX_SKIPS) + MAX_PREEMPTIONS * w.admitted

/-- Bounded overtaking, from the state `w` on. -/
structure BoundedOvertaking (decoder : Decoder L) (config : BatcherConfig) (w : World S L P E) :
    Prop where

  skips_le : ∀ job ∈ w.line, job.skips ≤ MAX_SKIPS

  passes_le : ∀ after id, (∀ e ∈ w.events decoder config after, e.Spares id) →
    passes id (w.events decoder config after) ≤ MAX_SKIPS

  order : ∀ after (x y : Job S L P E), [x, y].Sublist w.line → MAX_SKIPS ≤ x.skips →
    MAX_SKIPS ≤ y.skips → (∀ e ∈ w.events decoder config after, e.Spares x.abort) →
    (∀ e ∈ w.events decoder config after, e.cancelled ≠ some y.abort) →
      (∀ e ∈ w.events decoder config after, e.taken ≠ some y.abort) ∧
        [x.abort, y.abort].Sublist ((w.run decoder config after).line.map (·.abort))

  arrival : ∀ (i : ℕ) (job : Job S L P E) after, w.submitting[i]? = some job →
    ((w.send i).run decoder config after).Unadmitted job.abort →
      serves ((w.send i).events decoder config after) ≤ w.admissionBound

variable {w} {w' : World S L P E} {decoder : Decoder L} {config : BatcherConfig}
  {o : Oracle S L P E} {id n served : ℕ}

theorem credits_le (jobs : List (Job S L P E)) (h : ∀ job ∈ jobs, job.Fit) :
    (jobs.map Job.credit).sum ≤ (1 + MAX_PREEMPTIONS) * (jobs.countP fun job => job.answer.isNone) +
      MAX_PREEMPTIONS * jobs.countP fun job => job.answer.isSome := by
  induction jobs with
  | nil => exact Nat.zero_le _
  | cons job jobs ih =>
    rw [List.forall_mem_cons] at h
    have hrest := ih h.2
    rw [List.map_cons, List.sum_cons, List.countP_cons, List.countP_cons]
    cases ha : job.answer with
    | none =>
      have hcredit : job.credit ≤ 1 + MAX_PREEMPTIONS := Job.credit_le
      simp only [Option.isNone_none, Option.isSome_none, Bool.false_eq_true, if_true, if_false,
        Nat.mul_succ, Nat.add_zero]
      omega
    | some a =>
      have hcredit : job.credit ≤ MAX_PREEMPTIONS := h.1.credit_le ha
      simp only [Option.isNone_some, Option.isSome_some, Bool.false_eq_true, if_true, if_false,
        Nat.mul_succ, Nat.add_zero]
      omega

theorem sum_credit_le {α : Type} (answer : α → Answer S) (l : List α) :
    (l.map fun x => (answer x).credit).sum ≤ MAX_PREEMPTIONS * l.length := by
  induction l with
  | nil => exact Nat.zero_le _
  | cons x l ih =>
    have hx : (answer x).credit ≤ MAX_PREEMPTIONS := Nat.sub_le _ _
    rw [List.map_cons, List.sum_cons, List.length_cons, Nat.mul_succ]
    omega

/-- Everybody in the line or away from it is a job of the batcher. -/
theorem line_away_subset : ∀ job ∈ w.line ++ w.away, job ∈ w.allJobs := by
  intro job hjob
  simp only [line, away, allJobs, List.mem_append] at hjob ⊢
  have hstage : job ∈ w.stage.kept ∨ job ∈ w.stage.accepted ∨ job ∈ w.stage.back →
      job ∈ w.stage.jobs := by
    cases w.stage <;> simp [Stage.kept, Stage.accepted, Stage.back, Stage.jobs]
  tauto

theorem owing_le (h : w.Lined) :
    w.out + credits w.waiters + (1 + MAX_PREEMPTIONS) * MAX_SKIPS ≤ w.admissionBound := by
  have hjobs := credits_le (w.line ++ w.away) fun job hjob => h.fit job (line_away_subset job hjob)
  have hprefills := sum_credit_le Prefill.answer w.allPrefills
  have hslots := sum_credit_le Slot.answer w.allSlots
  have hline : credits w.waiters = (w.line.map Job.credit).sum := by
    rw [waiters, credits, List.map_map]
    rfl
  rw [List.map_append, List.sum_append] at hjobs
  rw [out, admissionBound, ahead, admitted, hline]
  simp only [Nat.mul_add] at hjobs ⊢
  omega

theorem work_nextId : (w.work decoder config o).nextId = w.nextId := by
  rw [work]
  split <;> try dsimp only [admitHead, reserveRoom, acceptJob, prefillChunk, decodeRows, goto]
  all_goals repeat' split
  all_goals rfl

theorem nextId_le (action : Action S L P E) : w.nextId ≤ (w.act decoder config action).nextId := by
  cases action with
  | reserve request blocks =>
    show w.nextId ≤ (w.reserve config request blocks).nextId
    rw [reserve]
    split
    · exact le_rfl
    · exact Nat.le_succ _
  | send i =>
    show w.nextId ≤ (w.send i).nextId
    rw [send]
    split <;> exact le_rfl
  | cancel id => exact le_rfl
  | work o => exact work_nextId.ge

/-- A request that is held elsewhere, or has ended, waits for no first admission. -/
theorem not_unadmitted_of_ended (h : w.Books config) (hid : id ∈ w.ended) : ¬w.Unadmitted id := by
  rintro ⟨job, hjob, rfl, -⟩
  have howed : job.abort ∈ w.owed :=
    List.mem_append_left _ (List.mem_append_left _ (List.mem_map_of_mem hjob))
  exact (h.of_owed howed).1 hid

theorem not_unadmitted_of_prefill (h : w.Books config) {p : Prefill S L P E}
    (hp : p ∈ w.allPrefills) (hid : p.abort = id) : ¬w.Unadmitted id := by
  rintro ⟨job, hjob, hjid, -⟩
  have hcount := h.count_le id
  have hjobs : 0 < (w.allJobs.map (·.abort)).count id :=
    List.count_pos_iff.mpr (hjid ▸ List.mem_map_of_mem hjob)
  have hprefills : 0 < (w.allPrefills.map (·.abort)).count id :=
    List.count_pos_iff.mpr (hid ▸ List.mem_map_of_mem hp)
  simp only [owed, allJobs, allPrefills, List.count_append] at hcount hjobs hprefills
  omega

theorem not_unadmitted_of_resumed (h : w.Books config) (job : Job S L P E)
    (hjob : job ∈ w.allJobs) (hid : job.abort = id) (hanswer : job.answer ≠ none) :
    ¬w.Unadmitted id := by
  rintro ⟨job', hjob', hid', hnone⟩
  have hnodup : (w.allJobs.map (·.abort)).Nodup := by
    have howed := h.owed_nodup
    rw [owed, List.nodup_append, List.nodup_append] at howed
    exact howed.1.1
  have heq : job = job' := List.inj_on_of_nodup_map hnodup hjob hjob' (hid.trans hid'.symm)
  exact hanswer (heq ▸ hnone)

/-- Where a request stands that came when `n` admissions could come before it: it waits, it is in
hand, or it waits for its first admission no longer. -/
inductive Standing (id n : ℕ) (w : World S L P E) (served : ℕ) : Prop

  | waits (h : Owes (1 + MAX_PREEMPTIONS) id n w.waiters w.out served)

  | held {job : Job S L P E} {evicted : List (Job S L P E)} (hs : w.stage = .accepting job evicted)
      (hid : job.abort = id) (h : served ≤ n + (1 + MAX_PREEMPTIONS) * MAX_SKIPS)

  | gone (h : ¬w.Unadmitted id) (hid : id < w.nextId)

theorem gone_stays (action : Action S L P E) (ho : w.Orderly config) (h : ¬w.Unadmitted id)
    (hid : id < w.nextId) : ¬(w.act decoder config action).Unadmitted id := by
  rintro ⟨job, hjob, rfl, hfresh⟩
  rcases (act_follows action ho.seated ho.lined).2 job hjob hfresh with hnew | ⟨job', hjob', heq⟩
  · omega
  · exact h ⟨job', hjob', heq⟩

/-- The job that is taken is in hand. -/
theorem taken_held {action : Action S L P E}
    (htaken : (w.event decoder config action).taken = some id) :
    (w.event decoder config action).served = none ∧
      ∃ job evicted, (w.act decoder config action).stage = .accepting job evicted ∧
        job.abort = id := by
  cases action with
  | reserve | send | cancel => cases htaken
  | work o =>
    rw [event] at htaken ⊢
    cases hs : w.stage with
    | take job pick evicted =>
      rw [hs] at htaken
      refine ⟨rfl, job, evicted, ?_, Option.some.inj htaken⟩
      show (w.work decoder config o).stage = _
      rw [work, hs]
      rfl
    | accepting job evicted =>
      rw [hs] at htaken
      dsimp only at htaken
      split at htaken <;> cases htaken
    | _ =>
      rw [hs] at htaken
      cases htaken

/-- The job that is cancelled has ended. -/
theorem cancelled_ended {action : Action S L P E}
    (hcancelled : (w.event decoder config action).cancelled = some id) :
    id ∈ (w.act decoder config action).ended := by
  cases action with
  | reserve | send | cancel => cases hcancelled
  | work o =>
    rw [event] at hcancelled
    cases hs : w.stage with
    | abortWaiting kept =>
      rw [hs] at hcancelled
      dsimp only at hcancelled
      rw [cancels, Option.map_eq_some_iff] at hcancelled
      obtain ⟨job, hjob, rfl⟩ := hcancelled
      rw [Option.filter_eq_some_iff, List.head?_eq_some_iff] at hjob
      obtain ⟨⟨waiting, hw⟩, hc⟩ := hjob
      obtain ⟨result, hreply⟩ := abortReply_finished job
      show job.abort ∈ (w.work decoder config o).ended
      rw [work, hs]
      dsimp only
      rw [hw]
      dsimp only
      rw [if_pos (of_decide_eq_true hc), ended, ended_post, hreply]
      exact List.mem_append_right _ List.mem_cons_self
    | accepting job evicted =>
      rw [hs] at hcancelled
      dsimp only at hcancelled
      split at hcancelled <;> cases hcancelled
    | _ =>
      rw [hs] at hcancelled
      cases hcancelled

/-- Accepting is the end of waiting for the first admission. -/
theorem accepting_gone {job : Job S L P E} {evicted : List (Job S L P E)}
    (ho : w.Orderly config) (hs : w.stage = .accepting job evicted) :
    ¬(w.work decoder config o).Unadmitted job.abort := by
  have hb : (w.work decoder config o).Books config := work_books ho.seated ho.books
  rw [work, hs] at hb ⊢
  dsimp only [acceptJob] at hb ⊢
  rcases accept_spec decoder job config.prefillChunk o.paged with
    ⟨k, slides, -, -, ha⟩ | ⟨e, ha, -⟩ | ⟨hanswer, ha⟩ <;> rw [ha] at hb ⊢
  · apply not_unadmitted_of_prefill hb (p := job.intoPrefill decoder config.prefillChunk
      ⟨job.run.take k, slides⟩)
    · simp [allPrefills]
    · rfl
  · apply not_unadmitted_of_ended hb
    rw [ended, ended_post]
    exact List.mem_append_right _ List.mem_cons_self
  · apply not_unadmitted_of_resumed hb { job with skips := 0, waited := 0 }
    · simp [allJobs, goto, Stage.jobs]
    · rfl
    · exact hanswer

theorem id_lt (hb : w.Books config) (hid : id ∈ ids w.waiters) : id < w.nextId := by
  rw [ids_waiters] at hid
  obtain ⟨job, hjob, rfl⟩ := List.mem_map.mp hid
  have hall : job ∈ w.allJobs := line_away_subset job (List.mem_append_left _ hjob)
  exact (hb.of_owed
    (List.mem_append_left _ (List.mem_append_left _ (List.mem_map_of_mem hall)))).2

theorem act_standing (action : Action S L P E) (ho : w.Orderly config)
    (hsound : Sound MAX_SKIPS w.waiters) (h : w.Standing id n served) :
    (w.act decoder config action).Standing id n
      (served + if (w.event decoder config action).served.isSome then 1 else 0) := by
  have hstep : w.Steps _ (w.act decoder config action) :=
    act_steps action ho.books ho.seated ho.lined
  have ho' : (w.act decoder config action).Orderly config := act_orderly action ho
  have hnext : w.nextId ≤ (w.act decoder config action).nextId := nextId_le action
  cases h with
  | waits h =>
    have hlt : id < w.nextId := id_lt ho.books h.mem
    by_cases htaken : (w.event decoder config action).taken = some id
    · obtain ⟨hserved, job, evicted, hs, hid⟩ := taken_held htaken
      rw [hserved]
      exact .held hs hid (h.served_le hsound)
    · by_cases hcancelled : (w.event decoder config action).cancelled = some id
      · exact .gone (not_unadmitted_of_ended ho'.books (cancelled_ended hcancelled)) (by omega)
      · exact .waits (hstep.owes h ⟨htaken, hcancelled⟩)
  | @held job evicted hs hid hle =>
    cases action with
    | reserve request blocks =>
      apply Standing.held ?_ hid hle
      show (w.reserve config request blocks).stage = _
      rw [reserve]
      split <;> exact hs
    | send i =>
      apply Standing.held ?_ hid hle
      show (w.send i).stage = _
      rw [send]
      split <;> exact hs
    | cancel i => exact .held hs hid hle
    | work o =>
      subst hid
      have howed : job.abort ∈ w.owed := by
        simp [owed, hs, Stage.jobs]
      have hlt : job.abort < w.nextId := (ho.books.of_owed howed).2
      exact .gone (accepting_gone ho hs) (by omega)
  | gone h hid => exact .gone (gone_stays action ho h hid) (by omega)

theorem run_standing (actions : List (Action S L P E)) (ho : w.Orderly config)
    (hsound : Sound MAX_SKIPS w.waiters) (h : w.Standing id n served) :
    (w.run decoder config actions).Standing id n
      (served + serves (w.events decoder config actions)) := by
  induction actions generalizing w served with
  | nil => exact h
  | cons action actions ih =>
    have hstep : w.Steps _ (w.act decoder config action) :=
      act_steps action ho.books ho.seated ho.lined
    rw [events, serves_cons, ← Nat.add_assoc]
    exact ih (act_orderly action ho) (hstep.sound hsound) (act_standing action ho hsound h)

theorem Standing.served_le (h : w.Standing id n served) (hsound : Sound MAX_SKIPS w.waiters)
    (hfresh : w.Unadmitted id) : served ≤ n + (1 + MAX_PREEMPTIONS) * MAX_SKIPS := by
  cases h with
  | waits h => exact h.served_le hsound
  | held _ _ h => exact h
  | gone h => exact absurd hfresh h

end World

/-- Bounded overtaking holds in every state the batcher can be in. -/
theorem bounded_overtaking (decoder : Decoder L) (config : BatcherConfig)
    (before : List (Action S L P E)) :
    ((World.init config).run decoder config before).BoundedOvertaking decoder config := by
  have ho : ((World.init config).run decoder config before).Orderly config :=
    World.run_orderly before World.init_orderly
  have hsound : Sound MAX_SKIPS ((World.init config).run decoder config before).waiters :=
    (World.run_steps before World.init_orderly).sound ⟨List.nodup_nil, nofun⟩
  generalize (World.init config).run decoder config before = w at ho hsound
  constructor
  · intro job hjob
    exact hsound.skips_le job.waiter (List.mem_map_of_mem hjob)
  · intro after id hspares
    exact (World.run_steps after ho).passes_le hsound hspares
  · intro after x y hxy hx hy hspares hwaits
    obtain ⟨htaken, hline⟩ := (World.run_steps after ho).order hsound
      (x := x.waiter) (y := y.waiter) (hxy.map Job.waiter) hx hy hspares hwaits
    refine ⟨htaken, ?_⟩
    rw [← World.ids_waiters]
    exact hline.map Waiter.id
  · intro i job after hget hfresh
    have hsend : w.send i = { w with
        submitting := w.submitting.eraseIdx i, channel := w.channel ++ [job] } := by
      rw [World.send, hget]
    have hline : (w.send i).waiters = w.waiters ++ [job.waiter] := by
      rw [hsend]
      simp [World.waiters, World.line]
    have hout : (w.send i).out = w.out := by
      rw [hsend]
      rfl
    have hstep : w.Steps (w.event decoder config (.send i)) (w.send i) :=
      World.act_steps (.send i) ho.books ho.seated ho.lined
    have ho' : (w.act decoder config (.send i)).Orderly config := World.act_orderly (.send i) ho
    have hsound' : Sound MAX_SKIPS (w.send i).waiters := hstep.sound hsound
    have hstart : (w.send i).Standing job.abort (w.out + credits w.waiters) 0 := by
      apply World.Standing.waits
      rw [hline, hout]
      exact Owes.of_join rfl le_rfl
    have hend : ((w.send i).run decoder config after).Standing job.abort
        (w.out + credits w.waiters) (0 + serves ((w.send i).events decoder config after)) :=
      World.run_standing after ho' hsound' hstart
    have hbound := hend.served_le ((World.run_steps after ho').sound hsound') hfresh
    rw [Nat.zero_add] at hbound
    exact hbound.trans (World.owing_le ho.lined)

section Counterexample

/-- How often `x` is passed over by those who came after it and were never served: `late`, and
whoever joins. -/
def overtakings {ι : Type} [DecidableEq ι] (x : ι) : List ι → List (Event ι) → ℕ
  | _, [] => 0
  | late, e :: events =>
      (if x ∈ e.jumped ∧ ∃ y ∈ late, e.taken = some y then 1 else 0) +
        overtakings x ((late ++ e.joined.toList).filter fun y => decide (e.served ≠ some y)) events

def sixBlocks : BatcherConfig := ⟨6, 8, 64, 8, some 6, some 1⟩

def manyZeros : StepContext Unit Unit Unit Unit :=
  { twoZeros with params := ⟨0, 20, [], [], false, false, false⟩ }

/-- The later a request comes, the more of its prompt is cached. -/
def byArrival : Oracle Unit Unit Unit Unit := ⟨none, some fun job => job.abort⟩

/-- Four later requests pass the first, a fifth evicts it, and a sixth passes it again. -/
def passedRun : List (Action Unit Unit Unit Unit) :=
  (List.replicate 4 [.reserve twoZeros 1, .send 0]).flatten ++ List.replicate 60 (.work byArrival) ++
    [.reserve twoZeros 5, .send 0] ++ List.replicate 30 (.work byArrival) ++
      [.reserve twoZeros 1, .send 0] ++ List.replicate 30 (.work byArrival)

theorem overtaken_again : ∃ (before after : List (Action Unit Unit Unit Unit)) (i : ℕ)
    (job : Job Unit Unit Unit Unit),
      ((World.init sixBlocks).run unitDecoder sixBlocks before).submitting[i]? = some job ∧
        MAX_SKIPS < overtakings job.abort []
          ((((World.init sixBlocks).run unitDecoder sixBlocks before).send i).events unitDecoder
            sixBlocks after) :=
  ⟨[.reserve manyZeros 2], passedRun, 0, ⟨[0], manyZeros, 0, 2, 0, 0, none⟩, rfl,
    by decide +kernel⟩

end Counterexample

end Frink.Batch
