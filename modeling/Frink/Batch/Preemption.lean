import Frink.Batch.Conservation
import Frink.Batch.Tracks

/-! # Preemption is invisible

Every request that the worker holds stands where the uninterrupted request stands after some
number of steps. So what its caller has been sent at the end does not depend on the schedule.
-/

namespace Frink.Batch
open Decode

variable {S L P E : Type} {decoder : Decoder L} {config : BatcherConfig}

namespace World

variable (w : World S L P E)

/-- What the caller of a request was sent. -/
def sentTo (id : ℕ) : List (BatcherEvent E) := (w.sent.filter fun e => e.1 == id).map (·.2)

def allJobs : List (Job S L P E) := w.submitting ++ w.channel ++ w.waiting ++ w.stage.jobs

def allPrefills : List (Prefill S L P E) := w.prefills ++ w.stage.prefills

def allSlots : List (Slot S L P E) := w.rows.slots ++ w.stage.slots

/-- Whoever holds the request holds it where it stands. -/
structure Holds (decoder : Decoder L) (w : World S L P E) (id : ℕ)
    (request : StepContext S L P E) : Prop where
  jobs : ∀ job ∈ w.allJobs, job.abort = id → JobTracks decoder request (w.sentTo id) job
  prefills : ∀ p ∈ w.allPrefills, p.abort = id → PrefillTracks decoder request (w.sentTo id) p
  slots : ∀ s ∈ w.allSlots, s.abort = id → SlotTracks decoder request (w.sentTo id) s

/-- A row that leaves has finished; a victim has not. -/
def StageTracks (w : World S L P E) : Prop :=
  match w.stage with
  | .flushing slot finish _ => slot.finish = some finish
  | .evict uids _ _ => ∀ row ∈ w.rows.state, row.1 ∈ uids → row.2.finish = none
  | .preempting slot uids _ _ => slot.finish = none ∧
      ∀ row ∈ w.rows.state, row.1 ∈ uids → row.2.finish = none
  | _ => True

structure Tracked (decoder : Decoder L) (w : World S L P E) : Prop where
  held : ∀ id request, w.requests[id]? = some request → id ∉ w.ended → w.Holds decoder id request
  ends : ∀ id request, w.requests[id]? = some request → id ∈ w.ended →
    EndTracks decoder request (w.sentTo id)
  stage : w.StageTracks
  submitted : w.requests.length = w.nextId
  fresh : ∀ e ∈ w.sent, e.1 < w.nextId

variable {w} {w' : World S L P E} {o : Oracle S L P E}

theorem filter_post_id (id i : ℕ) (events : List (BatcherEvent E)) :
    ((post i events).filter fun e => e.1 == id).map (·.2) = if i = id then events else [] := by
  rw [post]
  split
  · rename_i h
    rw [List.filter_eq_self.mpr, List.map_map]
    · exact List.map_id _
    · intro e he
      obtain ⟨_, -, rfl⟩ := List.mem_map.mp he
      exact beq_iff_eq.mpr h
  · rename_i h
    rw [List.filter_eq_nil_iff.mpr]
    · rfl
    · intro e he
      obtain ⟨_, -, rfl⟩ := List.mem_map.mp he
      exact fun hbeq => h (eq_of_beq hbeq)

theorem sentTo_post {sent : List (ℕ × BatcherEvent E)} (id i : ℕ)
    (events : List (BatcherEvent E)) :
    ((sent ++ post i events).filter fun e => e.1 == id).map (·.2) =
      (sent.filter fun e => e.1 == id).map (·.2) ++ if i = id then events else [] := by
  rw [List.filter_append, List.map_append, filter_post_id]

/-- A batch of rows sends nothing to anybody else. -/
theorem sent_none {f : Slot S L P E → List (BatcherEvent E)} {rows : List (ℕ × Slot S L P E)}
    {id : ℕ} (h : ∀ row ∈ rows, row.2.abort ≠ id) :
    ((rows.flatMap fun row => post row.2.abort (f row.2)).filter fun e => e.1 == id).map (·.2) =
      [] := by
  induction rows with
  | nil => rfl
  | cons row rows ih =>
    rw [List.forall_mem_cons] at h
    rw [List.flatMap_cons, List.filter_append, List.map_append, filter_post_id, if_neg h.1, ih h.2]
    rfl

/-- A row's caller is sent what that row has to say. -/
theorem sent_row {f : Slot S L P E → List (BatcherEvent E)} {rows : List (ℕ × Slot S L P E)}
    (hn : (rows.map (·.2.abort)).Nodup) {row : ℕ × Slot S L P E} (hrow : row ∈ rows) :
    ((rows.flatMap fun row => post row.2.abort (f row.2)).filter
      fun e => e.1 == row.2.abort).map (·.2) = f row.2 := by
  induction rows with
  | nil => cases hrow
  | cons first rows ih =>
    rw [List.map_cons, List.nodup_cons] at hn
    rw [List.flatMap_cons, List.filter_append, List.map_append, filter_post_id]
    rcases List.mem_cons.mp hrow with rfl | hrow
    · rw [if_pos rfl, sent_none, List.append_nil]
      intro row' hrow' he
      exact hn.1 (he ▸ List.mem_map_of_mem hrow')
    · rw [if_neg, ih hn.2 hrow, List.nil_append]
      intro he
      exact hn.1 (he ▸ List.mem_map_of_mem hrow)

/-- What a request is owed, it has not been sent, and it was submitted. -/
theorem Books.of_owed (h : w.Books config) {id : ℕ} (hid : id ∈ w.owed) :
    id ∉ w.ended ∧ id < w.nextId := by
  have honce := h.once id
  have hpos := List.count_pos_iff.mpr hid
  split at honce
  · rename_i hlt
    exact ⟨List.count_eq_zero.mp (by omega), hlt⟩
  · omega

theorem Books.of_row (h : w.Books config) {slot : Slot S L P E} (hslot : slot ∈ w.rows.slots) :
    slot ∈ w.allSlots ∧ slot.abort ∉ w.ended := by
  have hall : slot ∈ w.allSlots := List.mem_append_left _ hslot
  have howed : slot.abort ∈ w.owed := List.mem_append_right _ (List.mem_map_of_mem hall)
  exact ⟨hall, (h.of_owed howed).1⟩

theorem Books.owed_nodup (h : w.Books config) : w.owed.Nodup := by
  rw [List.nodup_iff_count_le_one]
  intro id
  have honce := h.once id
  split at honce <;> omega

/-- A step that sends nothing. -/
theorem Tracked.of_step (h : w.Tracked decoder) (hsent : w'.sent = w.sent)
    (hreq : w'.requests = w.requests) (hn : w'.nextId = w.nextId)
    (hheld : ∀ id request, w.Holds decoder id request → w'.Holds decoder id request)
    (hstage : w'.StageTracks) : w'.Tracked decoder := by
  obtain ⟨h1, h2, -, h4, h5⟩ := h
  refine ⟨?_, ?_, hstage, ?_, ?_⟩
  · intro id request hr hne
    rw [hreq] at hr
    rw [ended, hsent] at hne
    exact hheld id request (h1 id request hr hne)
  · intro id request hr he
    rw [hreq] at hr
    rw [ended, hsent] at he
    rw [sentTo, hsent]
    exact h2 id request hr he
  · rw [hreq, h4, hn]
  · rw [hsent, hn]
    exact h5

/-- A step that hands requests on as they are. -/
theorem Holds.of_sub {id : ℕ} {request : StepContext S L P E} (h : w.Holds decoder id request)
    (hsent : w'.sent = w.sent)
    (hjobs : ∀ job ∈ w'.allJobs, ∃ job' ∈ w.allJobs, job.abort = job'.abort ∧
      job.request = job'.request ∧ job.promptTokens = job'.promptTokens ∧ job.answer = job'.answer)
    (hprefills : ∀ p ∈ w'.allPrefills, p ∈ w.allPrefills)
    (hslots : ∀ s ∈ w'.allSlots, s ∈ w.allSlots) : w'.Holds decoder id request := by
  have he : w'.sentTo id = w.sentTo id := by rw [sentTo, sentTo, hsent]
  refine ⟨?_, ?_, ?_⟩ <;> rw [he]
  · intro job hjob hid
    obtain ⟨job', hjob', ha, hr, hp, hans⟩ := hjobs job hjob
    exact (h.jobs job' hjob' (ha ▸ hid)).of_eq hr hp hans
  · exact fun p hp => h.prefills p (hprefills p hp)
  · exact fun s hs => h.slots s (hslots s hs)

/-- A step that ends one request. -/
theorem Tracked.of_end (h : w.Tracked decoder) {i : ℕ} {events : List (BatcherEvent E)}
    {result : JobResult E} (hsent : w'.sent = w.sent ++ post i events)
    (hevents : events.filter BatcherEvent.isFinished = [.finished result])
    (hreq : w'.requests = w.requests) (hn : w'.nextId = w.nextId) (hi : i < w.nextId)
    (hend : ∀ request, w.requests[i]? = some request → EndTracks decoder request
      (w.sentTo i ++ events))
    (hjobs : ∀ job ∈ w'.allJobs, job ∈ w.allJobs)
    (hprefills : ∀ p ∈ w'.allPrefills, p ∈ w.allPrefills)
    (hslots : ∀ s ∈ w'.allSlots, s ∈ w.allSlots) (hstage : w'.StageTracks) :
    w'.Tracked decoder := by
  obtain ⟨h1, h2, -, h4, h5⟩ := h
  have hended : w'.ended = w.ended ++ [i] := by
    rw [ended, hsent, ended_post, hevents]
    rfl
  have hto : ∀ id, w'.sentTo id = w.sentTo id ++ if i = id then events else [] := by
    intro id
    rw [sentTo, hsent]
    exact sentTo_post ..
  refine ⟨?_, ?_, hstage, ?_, ?_⟩
  · intro id request hr hid
    rw [hreq] at hr
    rw [hended, List.mem_append, List.mem_singleton, not_or] at hid
    have hh := h1 id request hr hid.1
    have he : w'.sentTo id = w.sentTo id := by
      rw [hto, if_neg (Ne.symm hid.2), List.append_nil]
    refine ⟨?_, ?_, ?_⟩ <;> rw [he]
    · exact fun job hjob => hh.jobs job (hjobs job hjob)
    · exact fun p hp => hh.prefills p (hprefills p hp)
    · exact fun s hs => hh.slots s (hslots s hs)
  · intro id request hr hid
    rw [hreq] at hr
    rw [hended, List.mem_append, List.mem_singleton] at hid
    rw [hto]
    by_cases he : i = id
    · subst he
      rw [if_pos rfl]
      exact hend request hr
    · rw [if_neg he, List.append_nil]
      rcases hid with hid | hid
      · exact h2 id request hr hid
      · exact absurd hid.symm he
  · rw [hreq, h4, hn]
  · intro e he
    rw [hn]
    rw [hsent, List.mem_append] at he
    rcases he with he | he
    · exact h5 e he
    · obtain ⟨_, -, rfl⟩ := List.mem_map.mp he
      exact hi

/-- The same request in the same position of its life. -/
def SameJob (job job' : Job S L P E) : Prop :=
  job.abort = job'.abort ∧ job.request = job'.request ∧ job.promptTokens = job'.promptTokens ∧
    job.answer = job'.answer

theorem Tracked.of_sub (h : w.Tracked decoder) (hsent : w'.sent = w.sent)
    (hreq : w'.requests = w.requests) (hn : w'.nextId = w.nextId)
    (hjobs : ∀ job ∈ w'.allJobs, ∃ job' ∈ w.allJobs, SameJob job job')
    (hprefills : ∀ p ∈ w'.allPrefills, p ∈ w.allPrefills)
    (hslots : ∀ s ∈ w'.allSlots, s ∈ w.allSlots) (hstage : w'.StageTracks) :
    w'.Tracked decoder :=
  h.of_step hsent hreq hn (fun _ _ hh => hh.of_sub hsent hjobs hprefills hslots) hstage

theorem SameJob.refl_of_mem {jobs : List (Job S L P E)} {job : Job S L P E} (h : job ∈ jobs) :
    ∃ job' ∈ jobs, SameJob job job' := ⟨job, h, rfl, rfl, rfl, rfl⟩

/-- A change of stage alone. -/
theorem goto_tracked {old stage : Stage S L P E} (h : w.Tracked decoder) (hs : w.stage = old)
    (hj : stage.jobs = old.jobs) (hp : stage.prefills = old.prefills)
    (hsl : stage.slots = old.slots) (hstage : (w.goto stage).StageTracks) :
    (w.goto stage).Tracked decoder := by
  subst hs
  refine h.of_sub rfl rfl rfl ?_ ?_ ?_ hstage
  · intro job hjob
    rw [allJobs, goto, hj] at hjob
    exact SameJob.refl_of_mem hjob
  · intro p hmem
    rw [allPrefills, goto, hp] at hmem
    exact hmem
  · intro s hmem
    rw [allSlots, goto, hsl] at hmem
    exact hmem

/-- Jobs that change hands. -/
theorem Tracked.of_jobs (h : w.Tracked decoder) (hsent : w'.sent = w.sent)
    (hreq : w'.requests = w.requests) (hn : w'.nextId = w.nextId)
    (hjobs : ∀ job ∈ w'.allJobs, ∃ job' ∈ w.allJobs, SameJob job job')
    (hprefills : w'.allPrefills = w.allPrefills) (hslots : w'.allSlots = w.allSlots)
    (hstage : w'.StageTracks) : w'.Tracked decoder := by
  refine h.of_sub hsent hreq hn hjobs ?_ ?_ hstage
  · rw [hprefills]
    exact fun _ hp => hp
  · rw [hslots]
    exact fun _ hs => hs

theorem top_tracked (h : w.Tracked decoder) (hs : w.stage = .top) :
    (w.work decoder config o).Tracked decoder := by
  rw [work, hs]
  dsimp only
  split
  · split
    · exact h
    · rename_i hidle _ job channel hc
      refine h.of_jobs rfl rfl rfl ?_ (by rw [allPrefills, allPrefills, hs]; rfl)
        (by rw [allSlots, allSlots, hs]; rfl) trivial
      intro j hj
      apply SameJob.refl_of_mem
      simp only [allJobs, hs, hc, Stage.jobs, List.mem_append, List.mem_cons] at hj ⊢
      tauto
  · exact goto_tracked h hs rfl rfl rfl trivial

theorem drain_tracked (h : w.Tracked decoder) (hs : w.stage = .drain) :
    (w.work decoder config o).Tracked decoder := by
  rw [work, hs]
  dsimp only
  split
  · exact goto_tracked h hs rfl rfl rfl trivial
  · rename_i job channel hc
    refine h.of_jobs rfl rfl rfl ?_ (by rw [allPrefills, allPrefills, hs])
      (by rw [allSlots, allSlots, hs]) trivial
    intro j hj
    apply SameJob.refl_of_mem
    simp only [allJobs, hs, hc, Stage.jobs, List.mem_append, List.mem_cons] at hj ⊢
    tauto

theorem aborts_tracked (h : w.Tracked decoder) (hs : w.stage = .aborts) :
    (w.work decoder config o).Tracked decoder := by
  rw [work, hs]
  dsimp only
  have hjobs : ∀ stage : Stage S L P E, stage.jobs = [] → stage.prefills = [] →
      stage.slots = [] → (w.goto stage).StageTracks →
      ({ w with carried := w.carried ∪ w.inbox, inbox := ∅, stage } : World S L P E).Tracked
        decoder := by
    intro stage hj hp hsl hstage
    have hgo : (w.goto stage).Tracked decoder := goto_tracked h hs hj hp hsl hstage
    refine hgo.of_jobs rfl rfl rfl ?_ rfl rfl hstage
    exact fun _ hjob => SameJob.refl_of_mem hjob
  by_cases hc : w.carried ∪ w.inbox = ∅
  · rw [if_pos hc]
    exact hjobs _ rfl rfl rfl trivial
  · rw [if_neg hc]
    exact hjobs _ rfl rfl rfl trivial

theorem abortReply_ends {job : Job S L P E} {request : StepContext S L P E}
    (events : List (BatcherEvent E)) :
    EndTracks decoder request (events ++ abortReply job) := by
  rw [abortReply]
  right
  split
  · rename_i a _
    obtain ⟨before, result, hreply, hno⟩ := a.reply_cancelled (E := E)
    exact ⟨events ++ before, result, by rw [hreply, List.append_assoc], hno⟩
  · exact ⟨events, _, rfl, fun h => h rfl⟩

theorem abortReply_finished (job : Job S L P E) :
    ∃ result, (abortReply job).filter BatcherEvent.isFinished = [.finished result] := by
  rw [abortReply]
  split
  · exact Answer.reply_finished _ _ _
  · exact ⟨_, rfl⟩

theorem abortWaiting_tracked {kept : List (Job S L P E)} (hb : w.Books config)
    (h : w.Tracked decoder) (hs : w.stage = .abortWaiting kept) :
    (w.work decoder config o).Tracked decoder := by
  rw [work, hs]
  dsimp only
  cases hw : w.waiting with
  | nil =>
    refine h.of_jobs rfl rfl rfl ?_ (by rw [allPrefills, allPrefills, hs]; rfl)
      (by rw [allSlots, allSlots, hs]; rfl) trivial
    intro j hj
    apply SameJob.refl_of_mem
    simp only [allJobs, hs, hw, Stage.jobs, List.mem_append, List.not_mem_nil, or_false] at hj ⊢
    tauto
  | cons job waiting =>
    dsimp only
    have hsub : ∀ j, j ∈ w.submitting ++ w.channel ++ waiting ++ kept → j ∈ w.allJobs := by
      intro j hj
      simp only [allJobs, hs, hw, Stage.jobs, List.mem_append, List.mem_cons] at hj ⊢
      tauto
    split
    · obtain ⟨result, hreply⟩ := abortReply_finished job
      have howed : job.abort ∈ w.owed := by
        simp [owed, hw]
      refine h.of_end (i := job.abort) rfl hreply rfl rfl (hb.of_owed howed).2
        (fun _ _ => abortReply_ends _) hsub ?_ ?_ trivial
      · intro p hp
        rw [allPrefills, hs]
        exact hp
      · intro s hmem
        rw [allSlots, hs]
        exact hmem
    · refine h.of_jobs rfl rfl rfl ?_ (by rw [allPrefills, allPrefills, hs]; rfl)
        (by rw [allSlots, allSlots, hs]; rfl) trivial
      intro j hj
      apply SameJob.refl_of_mem
      simp only [allJobs, hs, hw, Stage.jobs, List.mem_append, List.mem_cons,
        List.not_mem_nil, or_false] at hj ⊢
      tauto

theorem abortPrefills_tracked {kept : List (Prefill S L P E)} (h : w.Tracked decoder)
    (hs : w.stage = .abortPrefills kept) : (w.work decoder config o).Tracked decoder := by
  rw [work, hs]
  dsimp only
  cases hw : w.prefills with
  | nil =>
    refine h.of_sub rfl rfl rfl ?_ ?_ ?_ trivial
    · intro j hj
      apply SameJob.refl_of_mem
      rwa [allJobs, hs]
    · intro p hp
      simpa [allPrefills, hs, hw, Stage.prefills] using hp
    · intro s hmem
      rwa [allSlots, hs]
  | cons p prefills =>
    dsimp only
    split
    · refine h.of_sub rfl rfl rfl ?_ ?_ ?_ trivial
      · intro j hj
        apply SameJob.refl_of_mem
        rwa [allJobs, hs]
      · intro q hq
        simp only [allPrefills, hs, hw, Stage.prefills, List.mem_append, List.mem_cons] at hq ⊢
        tauto
      · intro s hmem
        rwa [allSlots, hs]
    · refine h.of_sub rfl rfl rfl ?_ ?_ ?_ trivial
      · intro j hj
        apply SameJob.refl_of_mem
        rwa [allJobs, hs]
      · intro q hq
        simp only [allPrefills, hs, hw, Stage.prefills, List.mem_append, List.mem_cons,
          List.not_mem_nil, or_false] at hq ⊢
        tauto
      · intro s hmem
        rwa [allSlots, hs]

theorem abortPrefill_tracked {p : Prefill S L P E} {kept : List (Prefill S L P E)}
    (hb : w.Books config) (h : w.Tracked decoder) (hs : w.stage = .abortPrefill p kept) :
    (w.work decoder config o).Tracked decoder := by
  rw [work, hs]
  dsimp only
  obtain ⟨result, hreply⟩ := p.answer.reply_finished (E := E) .cancelled none
  obtain ⟨before, last, hlast, hno⟩ := p.answer.reply_cancelled (E := E)
  have howed : p.abort ∈ w.owed := by
    simp [owed, hs, Stage.prefills]
  refine h.of_end (i := p.abort) rfl hreply rfl rfl (hb.of_owed howed).2 ?_ ?_ ?_ ?_ trivial
  · exact fun _ _ => Or.inr ⟨_, last, by rw [hlast, List.append_assoc], hno⟩
  · intro j hj
    rwa [allJobs, hs]
  · intro q hq
    simp only [allPrefills, hs, Stage.prefills, List.mem_append, List.mem_cons] at hq ⊢
    tauto
  · intro s hmem
    rwa [allSlots, hs]

theorem mem_slots_mapSlots {r : Rows S L P E} {f : Slot S L P E → Slot S L P E}
    {s : Slot S L P E} (h : s ∈ (r.mapSlots f).slots) : ∃ s' ∈ r.slots, s = f s' := by
  rw [Rows.slots, Rows.mapSlots, List.map_map, List.mem_map] at h
  obtain ⟨row, hrow, rfl⟩ := h
  exact ⟨row.2, List.mem_map_of_mem hrow, rfl⟩

theorem markRows_tracked (h : w.Tracked decoder) (hs : w.stage = .markRows) :
    (w.work decoder config o).Tracked decoder := by
  rw [work, hs]
  refine h.of_step rfl rfl rfl ?_ trivial
  intro id request hh
  refine ⟨?_, ?_, ?_⟩
  · intro job hjob
    apply hh.jobs job
    rwa [allJobs, hs]
  · intro p hp
    apply hh.prefills p
    rwa [allPrefills, hs]
  · intro s hmem hid
    have hmem : s ∈ (w.rows.markCancelled w.carried).2.slots := by
      simpa [allSlots, Stage.slots] using hmem
    obtain ⟨s', hs', rfl⟩ := mem_slots_mapSlots hmem
    have hall : s' ∈ w.allSlots := List.mem_append_left _ hs'
    by_cases hc : Rows.isCancelled w.carried s' = true
    · rw [if_pos hc] at hid ⊢
      rw [Rows.isCancelled, Bool.and_eq_true, Option.isNone_iff_eq_none] at hc
      exact (hh.slots s' hall hid).cancel hc.2
    · rw [if_neg hc] at hid ⊢
      exact hh.slots s' hall hid

/-- Removing a row loses nothing that is not in hand. -/
theorem slots_remove {uid : ℕ} {slot : Slot S L P E} (hget : w.rows.get uid = some slot)
    {s : Slot S L P E} (h : s ∈ (w.rows.remove uid).slots ++ [slot]) : s ∈ w.rows.slots := by
  obtain ⟨front, back, hstate, hrest⟩ := Rows.remove_spec hget
  simp only [Rows.slots, hstate, hrest, List.map_append, List.map_cons, List.mem_append,
    List.mem_cons, List.not_mem_nil, or_false] at h ⊢
  tauto

theorem rows_remove {uid : ℕ} {slot : Slot S L P E} (hget : w.rows.get uid = some slot) :
    (uid, slot) ∈ w.rows.state ∧ ∀ row ∈ (w.rows.remove uid).state, row ∈ w.rows.state := by
  obtain ⟨front, back, hstate, hrest⟩ := Rows.remove_spec hget
  rw [hstate, hrest]
  refine ⟨List.mem_append_right _ List.mem_cons_self, fun row hrow => ?_⟩
  rcases List.mem_append.mp hrow with hrow | hrow
  · exact List.mem_append_left _ hrow
  · exact List.mem_append_right _ (List.mem_cons_of_mem _ hrow)

/-- One name, one row. -/
theorem row_eq {row row' : ℕ × Slot S L P E} (hn : w.rows.keys.Nodup) (h : row ∈ w.rows.state)
    (h' : row' ∈ w.rows.state) (hu : row.1 = row'.1) : row = row' :=
  List.inj_on_of_nodup_map hn h h' hu

theorem flush_tracked {next : AfterFlush} (hseat : w.Seated config) (h : w.Tracked decoder)
    (hs : w.stage = .flush next) : (w.work decoder config o).Tracked decoder := by
  rw [work, hs]
  dsimp only
  split
  · cases next <;> exact goto_tracked h hs rfl rfl rfl trivial
  split
  · exact h
  · rename_i uid finish hfirst _ slot hget
    have hfinish : slot.finish = some finish := by
      rw [Rows.firstFinished, List.findSome?_eq_some_iff] at hfirst
      obtain ⟨front, row, back, hstate, hrow, -⟩ := hfirst
      rw [Option.map_eq_some_iff] at hrow
      obtain ⟨f, hf, he⟩ := hrow
      rw [Prod.mk.injEq] at he
      obtain ⟨hu, rfl⟩ := he
      have hmem : row ∈ w.rows.state := by
        rw [hstate]
        exact List.mem_append_right _ List.mem_cons_self
      have hrow := row_eq hseat.nodup hmem (rows_remove hget).1 hu
      rw [hrow] at hf
      exact hf
    refine h.of_sub rfl rfl rfl ?_ ?_ ?_ hfinish
    · intro j hj
      apply SameJob.refl_of_mem
      rwa [allJobs, hs]
    · intro p hp
      rwa [allPrefills, hs]
    · intro s hmem
      exact List.mem_append_left _ (slots_remove hget hmem)

theorem flushing_tracked {slot : Slot S L P E} {finish : FinishReason} {next : AfterFlush}
    (hb : w.Books config) (h : w.Tracked decoder) (hs : w.stage = .flushing slot finish next) :
    (w.work decoder config o).Tracked decoder := by
  have hstage := h.stage
  rw [StageTracks, hs] at hstage
  rw [work, hs]
  dsimp only
  obtain ⟨result, hreply⟩ := slot.answer.reply_finished finish slot.error
  have howed : slot.abort ∈ w.owed := by
    simp [owed, hs, Stage.slots]
  obtain ⟨hne, hlt⟩ := hb.of_owed howed
  refine h.of_end (i := slot.abort) rfl hreply rfl rfl hlt ?_ ?_ ?_ ?_ trivial
  · intro request hr
    have hmem : slot ∈ w.allSlots := by
      rw [allSlots, hs]
      exact List.mem_append_right _ List.mem_cons_self
    exact ((h.held slot.abort request hr hne).slots slot hmem rfl).ends hstage
  · intro j hj
    rwa [allJobs, hs]
  · intro q hq
    rwa [allPrefills, hs]
  · intro s hmem
    have hmem : s ∈ w.rows.slots := by
      simpa [allSlots, Stage.slots] using hmem
    exact List.mem_append_left _ hmem

theorem victims_live {fits : ℕ → ℕ → Bool} {rows : List (ℕ × Slot S L P E)} {free seats : ℕ} :
    ∀ u ∈ (Rows.victims fits rows free seats).1, ∃ row ∈ rows, row.1 = u ∧ row.2.finish = none := by
  induction rows generalizing free seats with
  | nil => exact fun u hu => (nomatch hu)
  | cons row rows ih =>
    obtain ⟨uid, slot⟩ := row
    intro u hu
    rw [Rows.victims] at hu
    split at hu
    · cases hu
    split at hu
    · rename_i hp
      rcases List.mem_cons.mp hu with rfl | hu
      · rw [Slot.preemptible] at hp
        simp only [Bool.and_eq_true, Option.isNone_iff_eq_none] at hp
        exact ⟨_, List.mem_cons_self, rfl, hp.1.1.1⟩
      · obtain ⟨row, hrow, he⟩ := ih u hu
        exact ⟨row, List.mem_cons_of_mem _ hrow, he⟩
    · obtain ⟨row, hrow, he⟩ := ih u hu
      exact ⟨row, List.mem_cons_of_mem _ hrow, he⟩

theorem makeRoom_live {prefilling free : ℕ} {head : Job S L P E} (hn : w.rows.keys.Nodup) :
    ∀ row ∈ w.rows.state, row.1 ∈ makeRoom config w.rows prefilling free head →
      row.2.finish = none := by
  intro row hrow hu
  rw [makeRoom] at hu
  split at hu
  · cases hu
  split at hu
  · cases hu
  dsimp only at hu
  split at hu
  swap
  · cases hu
  obtain ⟨row', hrow', he, hf⟩ := victims_live _ hu
  rw [row_eq hn hrow (List.mem_reverse.mp hrow') he.symm]
  exact hf

theorem admission_tracked {evicted : List (Job S L P E)} (hseat : w.Seated config)
    (h : w.Tracked decoder) (hs : w.stage = .admission evicted) :
    (w.work decoder config o).Tracked decoder := by
  rw [work, hs]
  dsimp only
  split
  · exact goto_tracked h hs rfl rfl rfl trivial
  rw [admitHead]
  dsimp only
  split
  · exact goto_tracked h hs rfl rfl rfl trivial
  split
  · exact goto_tracked h hs rfl rfl rfl trivial
  split
  · refine h.of_sub rfl rfl rfl ?_ ?_ ?_ trivial
    · intro j hj
      apply SameJob.refl_of_mem
      rwa [allJobs, hs]
    · intro p hp
      rwa [allPrefills, hs]
    · intro s hmem
      rwa [allSlots, hs]
  · split
    · exact goto_tracked h hs rfl rfl rfl trivial
    · exact goto_tracked h hs rfl rfl rfl (makeRoom_live hseat.nodup)

theorem evict_tracked {uids : List ℕ} {pick : ℕ} {evicted : List (Job S L P E)}
    (h : w.Tracked decoder) (hs : w.stage = .evict uids pick evicted) :
    (w.work decoder config o).Tracked decoder := by
  have hstage := h.stage
  rw [StageTracks, hs] at hstage
  rw [work, hs]
  cases uids with
  | nil =>
    dsimp only
    rw [reserveRoom]
    split
    · exact goto_tracked h hs rfl rfl rfl trivial
    split
    · refine h.of_sub rfl rfl rfl ?_ ?_ ?_ trivial
      · intro j hj
        apply SameJob.refl_of_mem
        rwa [allJobs, hs]
      · intro p hp
        rwa [allPrefills, hs]
      · intro s hmem
        rwa [allSlots, hs]
    · exact goto_tracked h hs rfl rfl rfl trivial
  | cons uid uids =>
    dsimp only
    split
    · exact goto_tracked h hs rfl rfl rfl fun row hrow hu =>
        hstage row hrow (List.mem_cons_of_mem _ hu)
    · rename_i slot hget
      obtain ⟨hmem, hrows⟩ := rows_remove hget
      refine h.of_sub rfl rfl rfl ?_ ?_ ?_ ⟨hstage _ hmem List.mem_cons_self, fun row hrow hu => ?_⟩
      · intro j hj
        apply SameJob.refl_of_mem
        rwa [allJobs, hs]
      · intro p hp
        rwa [allPrefills, hs]
      · intro s hmem
        exact List.mem_append_left _ (slots_remove hget hmem)
      · exact hstage row (hrows row hrow) (List.mem_cons_of_mem _ hu)

theorem preempting_tracked {slot : Slot S L P E} {uids : List ℕ} {pick : ℕ}
    {evicted : List (Job S L P E)} (h : w.Tracked decoder)
    (hs : w.stage = .preempting slot uids pick evicted) :
    (w.work decoder config o).Tracked decoder := by
  have hstage := h.stage
  rw [StageTracks, hs] at hstage
  rw [work, hs]
  refine h.of_step rfl rfl rfl ?_ hstage.2
  intro id request hh
  have hslot : slot ∈ w.allSlots := by
    rw [allSlots, hs]
    exact List.mem_append_right _ List.mem_cons_self
  refine ⟨?_, ?_, ?_⟩
  · intro job hjob hid
    have hcases : job ∈ w.allJobs ∨ job = slot.preempt := by
      simp only [allJobs, hs, Stage.jobs, List.mem_append, List.mem_cons, List.not_mem_nil,
        or_false] at hjob ⊢
      tauto
    rcases hcases with hjob | rfl
    · exact hh.jobs job hjob hid
    · exact (hh.slots slot hslot hid).preempt hstage.1
  · intro p hp
    apply hh.prefills p
    rwa [allPrefills, hs]
  · intro s hmem
    apply hh.slots s
    have hmem : s ∈ w.rows.slots := by
      simpa [allSlots, Stage.slots] using hmem
    exact List.mem_append_left _ hmem

/-- Taking a job out of the queue loses none. -/
theorem takeJob_jobs {job : Job S L P E} {pick : ℕ} {evicted : List (Job S L P E)}
    (hjob : w.waiting[pick]? = some job) (hs : w.stage = .take job pick evicted) :
    ∀ j ∈ (w.takeJob job pick evicted).allJobs, ∃ j' ∈ w.allJobs, SameJob j j' := by
  have hsplit := waiting_split hjob
  intro j hj
  have hall : ∀ j', j' ∈ w.waiting ∨ j' ∈ w.submitting ∨ j' ∈ w.channel ∨ j' ∈ evicted →
      j' ∈ w.allJobs := by
    intro j' hj'
    simp only [allJobs, hs, Stage.jobs, List.mem_append]
    tauto
  have hwait : ∀ j', j' ∈ w.waiting.take pick ∨ j' = job ∨ j' ∈ w.waiting.drop (pick + 1) →
      j' ∈ w.waiting := by
    intro j' hj'
    rw [hsplit, List.mem_append, List.mem_cons]
    exact hj'
  simp only [allJobs, takeJob, Stage.jobs, List.mem_append, List.mem_map, List.mem_cons] at hj
  rcases hj with ((hj | hj) | ⟨j', hj', rfl⟩ | hj) | hj | hj
  · exact SameJob.refl_of_mem (hall j (Or.inr (Or.inl hj)))
  · exact SameJob.refl_of_mem (hall j (Or.inr (Or.inr (Or.inl hj))))
  · exact ⟨j', hall j' (Or.inl (hwait j' (Or.inl hj'))), rfl, rfl, rfl, rfl⟩
  · exact SameJob.refl_of_mem (hall j (Or.inl (hwait j (Or.inr (Or.inr hj)))))
  · exact SameJob.refl_of_mem (hall j (Or.inl (hwait j (Or.inr (Or.inl hj)))))
  · exact SameJob.refl_of_mem (hall j (Or.inr (Or.inr (Or.inr hj))))

theorem take_tracked {job : Job S L P E} {pick : ℕ} {evicted : List (Job S L P E)}
    (hseat : w.Seated config) (h : w.Tracked decoder) (hs : w.stage = .take job pick evicted) :
    (w.work decoder config o).Tracked decoder := by
  have hroom := hseat.room
  rw [Room, hs] at hroom
  rw [work, hs]
  refine h.of_sub rfl rfl rfl (takeJob_jobs hroom.1 hs) ?_ ?_ trivial
  · intro p hp
    rwa [allPrefills, hs]
  · intro s hmem
    rwa [allSlots, hs]

theorem accepting_tracked {job : Job S L P E} {evicted : List (Job S L P E)}
    (hb : w.Books config) (h : w.Tracked decoder) (hs : w.stage = .accepting job evicted) :
    (w.work decoder config o).Tracked decoder := by
  have hjob : job ∈ w.allJobs := by
    rw [allJobs, hs]
    exact List.mem_append_right _ List.mem_cons_self
  have hsub : ∀ j, j ∈ w.submitting ++ w.channel ++ w.waiting ++ evicted → j ∈ w.allJobs := by
    intro j hj
    simp only [allJobs, hs, Stage.jobs, List.mem_append, List.mem_cons] at hj ⊢
    tauto
  have howed : job.abort ∈ w.owed := List.mem_append_left _ (List.mem_append_left _
    (List.mem_map_of_mem hjob))
  rw [work, hs]
  dsimp only
  rw [acceptJob]
  rcases accept_spec decoder job config.prefillChunk o.paged with
    ⟨k, slides, hk, hvalid, ha⟩ | ⟨e, ha, he, hbad⟩ | ⟨-, ha⟩ <;> rw [ha] <;> dsimp only
  · refine h.of_step rfl rfl rfl ?_ trivial
    intro id request hh
    refine ⟨fun j hj => hh.jobs j (hsub j hj), ?_, ?_⟩
    · intro p hp hid
      have hcases : p ∈ w.allPrefills ∨
          p = job.intoPrefill decoder config.prefillChunk ⟨job.run.take k, slides⟩ := by
        simp only [allPrefills, hs, Stage.prefills, List.mem_append, List.mem_cons,
          List.not_mem_nil, or_false] at hp ⊢
        exact hp
      rcases hcases with hp | rfl
      · exact hh.prefills p hp hid
      · exact (hh.jobs job hjob hid).intoPrefill hvalid hk config.prefillChunk slides
    · intro s hmem
      apply hh.slots s
      rwa [allSlots, hs]
  · refine h.of_end (i := job.abort) rfl rfl rfl rfl (hb.of_owed howed).2 ?_ hsub ?_ ?_ trivial
    · refine fun _ _ => Or.inr ⟨_, .error e, rfl, ?_⟩
      cases e with
      | constraint c => exact absurd rfl (he c)
      | tokenOutOfVocab t v => exact id
      | kvPoolExhausted => exact id
    · intro p hp
      rwa [allPrefills, hs]
    · intro s hmem
      rwa [allSlots, hs]
  · refine h.of_sub rfl rfl rfl ?_ ?_ ?_ trivial
    · intro j hj
      have hcases : j ∈ w.submitting ++ w.channel ++ w.waiting ++ evicted ∨
          j = { job with skips := 0, waited := 0 } := by
        simp only [allJobs, goto, Stage.jobs, List.mem_append, List.mem_cons] at hj ⊢
        tauto
      rcases hcases with hj | rfl
      · exact SameJob.refl_of_mem (hsub j hj)
      · exact ⟨job, hjob, rfl, rfl, rfl, rfl⟩
    · intro p hp
      rwa [allPrefills, hs]
    · intro s hmem
      rwa [allSlots, hs]

theorem refused_tracked {blocks : ℕ} {evicted : List (Job S L P E)} (h : w.Tracked decoder)
    (hs : w.stage = .refused blocks evicted) : (w.work decoder config o).Tracked decoder := by
  rw [work, hs]
  refine h.of_sub rfl rfl rfl ?_ ?_ ?_ trivial
  · intro j hj
    apply SameJob.refl_of_mem
    rwa [allJobs, hs]
  · intro p hp
    rwa [allPrefills, hs]
  · intro s hmem
    rwa [allSlots, hs]

theorem requeue_tracked {job : Job S L P E} {evicted : List (Job S L P E)}
    (h : w.Tracked decoder) (hs : w.stage = .requeue job evicted) :
    (w.work decoder config o).Tracked decoder := by
  rw [work, hs]
  refine h.of_sub rfl rfl rfl ?_ ?_ ?_ trivial
  · intro j hj
    apply SameJob.refl_of_mem
    simp only [allJobs, hs, Stage.jobs, List.mem_append, List.mem_cons] at hj ⊢
    tauto
  · intro p hp
    rwa [allPrefills, hs]
  · intro s hmem
    rwa [allSlots, hs]

/-- Giving the evicted jobs back to the queue adds none. -/
theorem closeAdmit_jobs {evicted : List (Job S L P E)} (hs : w.stage = .closeAdmit evicted) :
    ∀ j ∈ (w.closeAdmit evicted).allJobs, ∃ j' ∈ w.allJobs, SameJob j j' := by
  intro j hj
  have hall : ∀ j', j' ∈ w.waiting ∨ j' ∈ w.submitting ∨ j' ∈ w.channel ∨ j' ∈ evicted →
      j' ∈ w.allJobs := by
    intro j' hj'
    simp only [allJobs, hs, Stage.jobs, List.mem_append]
    tauto
  simp only [allJobs, closeAdmit, Stage.jobs, List.mem_append, List.mem_map, List.mem_reverse,
    List.not_mem_nil, or_false] at hj
  rcases hj with (hj | hj) | hj | ⟨j', hj', rfl⟩
  · exact SameJob.refl_of_mem (hall j (Or.inr (Or.inl hj)))
  · exact SameJob.refl_of_mem (hall j (Or.inr (Or.inr (Or.inl hj))))
  · exact SameJob.refl_of_mem (hall j (Or.inr (Or.inr (Or.inr hj))))
  · exact ⟨j', hall j' (Or.inl hj'), rfl, rfl, rfl, rfl⟩

theorem closeAdmit_tracked {evicted : List (Job S L P E)} (h : w.Tracked decoder)
    (hs : w.stage = .closeAdmit evicted) : (w.work decoder config o).Tracked decoder := by
  rw [work, hs]
  refine h.of_sub rfl rfl rfl (closeAdmit_jobs hs) ?_ ?_ trivial
  · intro p hp
    rwa [allPrefills, hs]
  · intro s hmem
    rwa [allSlots, hs]

theorem prefill_tracked (h : w.Tracked decoder) (hs : w.stage = .prefill) :
    (w.work decoder config o).Tracked decoder := by
  rw [work, hs]
  dsimp only
  rw [prefillChunk]
  cases hp : w.prefills with
  | nil => exact goto_tracked h hs rfl rfl rfl trivial
  | cons p prefills =>
    dsimp only
    generalize prefillBudget config.maxBatchTokens w.rows.state.length p.state.chunkSize = budget
    have hmem : p ∈ w.allPrefills := by
      rw [allPrefills, hp]
      exact List.mem_cons_self
    have hrest : ∀ q ∈ prefills, q ∈ w.allPrefills := by
      intro q hq
      rw [allPrefills, hp]
      exact List.mem_append_left _ (List.mem_cons_of_mem _ hq)
    split
    · rename_i hdone
      refine h.of_step rfl rfl rfl ?_ trivial
      intro id request hh
      refine ⟨?_, ?_, ?_⟩
      · intro j hj
        apply hh.jobs j
        rwa [allJobs, hs]
      · intro q hq
        apply hh.prefills q
        simp only [allPrefills, Stage.prefills, List.append_nil] at hq
        exact hrest q hq
      · intro s hslot hid
        have hcases : s ∈ w.rows.slots ∨
            s = { p with state := p.state.stepChunk decoder budget }.intoSlot := by
          simp only [allSlots, Rows.slots, Rows.insert, Stage.slots, List.append_nil, List.map_append,
            List.mem_append, List.map_cons, List.map_nil, List.mem_cons, List.not_mem_nil,
            or_false] at hslot ⊢
          exact hslot
        rcases hcases with hslot | rfl
        · exact hh.slots s (List.mem_append_left _ hslot) hid
        · exact (hh.prefills p hmem hid).intoSlot hdone
    · rename_i hdone
      refine h.of_step rfl rfl rfl ?_ trivial
      intro id request hh
      refine ⟨?_, ?_, ?_⟩
      · intro j hj
        apply hh.jobs j
        rwa [allJobs, hs]
      · intro q hq hid
        have hcases : q ∈ prefills ∨ q = { p with state := p.state.stepChunk decoder budget } := by
          simpa [allPrefills, Stage.prefills] using hq
        rcases hcases with hq | rfl
        · exact hh.prefills q (hrest q hq) hid
        · exact (hh.prefills p hmem hid).stepChunk (Bool.eq_false_iff.mpr hdone)
      · intro s hslot
        apply hh.slots s
        rwa [allSlots, hs]

theorem decode_tracked (hb : w.Books config) (h : w.Tracked decoder) (hs : w.stage = .decode) :
    (w.work decoder config o).Tracked decoder := by
  rw [work, hs]
  dsimp only
  rw [decodeRows]
  split
  · exact goto_tracked h hs rfl rfl rfl trivial
  have howed := hb.owed_nodup
  have hsplit : w.owed = w.allJobs.map (·.abort) ++ w.allPrefills.map (·.abort) ++
      w.rows.state.map (·.2.abort) := by
    simp [owed, hs, allJobs, allPrefills, Rows.slots, Stage.slots]
  rw [hsplit, List.nodup_append] at howed
  obtain ⟨-, hrows, hdisjoint⟩ := howed
  obtain ⟨h1, h2, -, h4, h5⟩ := h
  generalize hsteps : (w.rows.state.flatMap fun row =>
    post row.2.abort (row.2.decodeStep decoder).2) = steps
  have hto : ∀ id, ((w.sent ++ steps).filter fun e => e.1 == id).map (·.2) =
      w.sentTo id ++ (steps.filter fun e => e.1 == id).map (·.2) := by
    intro id
    rw [List.filter_append, List.map_append]
    rfl
  have hother : ∀ id, (∀ row ∈ w.rows.state, row.2.abort ≠ id) →
      ((w.sent ++ steps).filter fun e => e.1 == id).map (·.2) = w.sentTo id := by
    intro id hid
    rw [hto, ← hsteps, sent_none (f := fun s => (s.decodeStep decoder).2) hid, List.append_nil]
  have hended : ((w.sent ++ steps).filter fun e => e.2.isFinished).map (·.1) = w.ended := by
    rw [List.filter_append, List.map_append, ← hsteps, flatMap_finished, List.map_nil,
      List.append_nil]
    rfl
  refine ⟨?_, ?_, trivial, h4, ?_⟩
  · intro id request hr hid
    rw [ended] at hid
    dsimp only at hid
    rw [hended] at hid
    have hh := h1 id request hr hid
    have hnot : id ∈ w.allJobs.map (·.abort) ++ w.allPrefills.map (·.abort) →
        ∀ row ∈ w.rows.state, row.2.abort ≠ id := by
      intro hmem row hrow he
      exact hdisjoint id hmem _ (List.mem_map_of_mem hrow) he.symm
    refine ⟨?_, ?_, ?_⟩
    · intro job hjob hid'
      have hjob : job ∈ w.allJobs := by
        rw [allJobs, hs]
        exact hjob
      show JobTracks decoder request (((w.sent ++ steps).filter _).map _) job
      rw [hother id (hnot (List.mem_append_left _ (hid' ▸ List.mem_map_of_mem hjob)))]
      exact hh.jobs job hjob hid'
    · intro p hp hid'
      have hp : p ∈ w.allPrefills := by
        rw [allPrefills, hs]
        exact hp
      show PrefillTracks decoder request (((w.sent ++ steps).filter _).map _) p
      rw [hother id (hnot (List.mem_append_right _ (hid' ▸ List.mem_map_of_mem hp)))]
      exact hh.prefills p hp hid'
    · intro s hmem hid'
      have hmem : s ∈ (w.rows.mapSlots fun slot => (slot.decodeStep decoder).1).slots := by
        simpa [allSlots, Stage.slots] using hmem
      obtain ⟨s', hs', rfl⟩ := mem_slots_mapSlots hmem
      rw [(Slot.decodeStep_fields s').1] at hid'
      obtain ⟨row, hrow, rfl⟩ := List.mem_map.mp hs'
      show SlotTracks decoder request (((w.sent ++ steps).filter _).map _) _
      rw [hto, ← hsteps, ← hid', sent_row (f := fun s => (s.decodeStep decoder).2) hrows hrow]
      have hslot := hh.slots row.2 (List.mem_append_left _ hs') hid'
      rw [← hid'] at hslot
      exact hslot.decodeStep
  · intro id request hr hid
    rw [ended] at hid
    dsimp only at hid
    rw [hended] at hid
    have hne : ∀ row ∈ w.rows.state, row.2.abort ≠ id := by
      intro row hrow he
      have : row.2.abort ∈ w.owed := by
        rw [hsplit]
        exact List.mem_append_right _ (List.mem_map_of_mem hrow)
      exact (hb.of_owed this).1 (he ▸ hid)
    show EndTracks decoder request (((w.sent ++ steps).filter _).map _)
    rw [hother id hne]
    exact h2 id request hr hid
  · intro e he
    rcases List.mem_append.mp he with he | he
    · exact h5 e he
    · rw [← hsteps, List.mem_flatMap] at he
      obtain ⟨row, hrow, he⟩ := he
      obtain ⟨_, -, rfl⟩ := List.mem_map.mp he
      have : row.2.abort ∈ w.owed := by
        rw [hsplit]
        exact List.mem_append_right _ (List.mem_map_of_mem hrow)
      exact (hb.of_owed this).2

theorem work_tracked (hb : w.Books config) (hseat : w.Seated config) (h : w.Tracked decoder) :
    (w.work decoder config o).Tracked decoder := by
  cases hs : w.stage with
  | top => exact top_tracked h hs
  | drain => exact drain_tracked h hs
  | aborts => exact aborts_tracked h hs
  | abortWaiting kept => exact abortWaiting_tracked hb h hs
  | abortPrefills kept => exact abortPrefills_tracked h hs
  | abortPrefill p kept => exact abortPrefill_tracked hb h hs
  | markRows => exact markRows_tracked h hs
  | flush next => exact flush_tracked hseat h hs
  | flushing slot finish next => exact flushing_tracked hb h hs
  | admission evicted => exact admission_tracked hseat h hs
  | evict uids pick evicted => exact evict_tracked h hs
  | preempting slot uids pick evicted => exact preempting_tracked h hs
  | take job pick evicted => exact take_tracked hseat h hs
  | accepting job evicted => exact accepting_tracked hb h hs
  | refused blocks evicted => exact refused_tracked h hs
  | requeue job evicted => exact requeue_tracked h hs
  | closeAdmit evicted => exact closeAdmit_tracked h hs
  | prefill => exact prefill_tracked h hs
  | decode => exact decode_tracked hb h hs

theorem reserve_tracked {request : StepContext S L P E} {blocks : ℕ} (hb : w.Books config)
    (h : w.Tracked decoder) : (w.reserve config request blocks).Tracked decoder := by
  rw [reserve]
  split
  · exact h
  obtain ⟨h1, h2, h3, h4, h5⟩ := h
  have hnew : ∀ id ∈ w.owed, id ≠ w.nextId := fun id hid he => by
    have := (hb.of_owed hid).2
    omega
  have hnone : w.sentTo w.nextId = [] := by
    rw [sentTo, List.filter_eq_nil_iff.mpr, List.map_nil]
    intro e he hbeq
    have := h5 e he
    rw [eq_of_beq hbeq] at this
    omega
  have hjobs : ∀ j, j ∈ w.submitting ++ [⟨request.promptIds, request, w.nextId, blocks, 0, 0, none⟩] ++
      w.channel ++ w.waiting ++ w.stage.jobs →
      j ∈ w.allJobs ∨ j = ⟨request.promptIds, request, w.nextId, blocks, 0, 0, none⟩ := by
    intro j hj
    simp only [allJobs, List.mem_append, List.mem_singleton] at hj ⊢
    tauto
  have howed : ∀ j ∈ w.allJobs, j.abort ∈ w.owed := fun j hj =>
    List.mem_append_left _ (List.mem_append_left _ (List.mem_map_of_mem hj))
  refine ⟨?_, ?_, h3, ?_, ?_⟩
  · intro id r hr hid
    rcases Nat.lt_or_ge id w.requests.length with hlt | hge
    · rw [List.getElem?_append_left hlt] at hr
      have hh := h1 id r hr hid
      refine ⟨fun j hj hid' => ?_, hh.prefills, hh.slots⟩
      rcases hjobs j hj with hj | rfl
      · exact hh.jobs j hj hid'
      · have hid' : w.nextId = id := hid'
        omega
    · obtain ⟨hlt, hget⟩ := List.getElem?_eq_some_iff.mp hr
      rw [List.length_append, List.length_singleton] at hlt
      obtain rfl : id = w.nextId := by omega
      rw [List.getElem?_append_right hge, h4, Nat.sub_self] at hr
      cases hr
      refine ⟨fun j hj hid' => ?_, fun p hp hid' => ?_, fun s hmem hid' => ?_⟩
      · rcases hjobs j hj with hj | rfl
        · exact absurd hid' (hnew _ (howed j hj))
        · exact ⟨rfl, rfl, hnone⟩
      · exact absurd hid' (hnew _ (List.mem_append_left _ (List.mem_append_right _
          (List.mem_map_of_mem hp))))
      · exact absurd hid' (hnew _ (List.mem_append_right _ (List.mem_map_of_mem hmem)))
  · intro id r hr hid
    rcases Nat.lt_or_ge id w.requests.length with hlt | hge
    · rw [List.getElem?_append_left hlt] at hr
      exact h2 id r hr hid
    · obtain ⟨e, he, rfl⟩ := List.mem_map.mp hid
      have := h5 e (List.mem_of_mem_filter he)
      omega
  · show (w.requests ++ [request]).length = w.nextId + 1
    rw [List.length_append, h4, List.length_singleton]
  · intro e he
    have := h5 e he
    show e.1 < w.nextId + 1
    omega

theorem send_tracked {i : ℕ} (h : w.Tracked decoder) : (w.send i).Tracked decoder := by
  rw [send]
  split
  · exact h
  rename_i job hjob
  have hsplit := waiting_split hjob
  have herase : w.submitting.eraseIdx i = w.submitting.take i ++ w.submitting.drop (i + 1) :=
    List.eraseIdx_eq_take_drop_succ ..
  have hmem : ∀ j, j ∈ w.submitting ↔
      j ∈ w.submitting.take i ∨ j = job ∨ j ∈ w.submitting.drop (i + 1) := by
    intro j
    nth_rewrite 1 [hsplit]
    rw [List.mem_append, List.mem_cons]
  refine h.of_sub rfl rfl rfl ?_ (fun _ hp => hp) (fun _ hs => hs) h.stage
  intro j hj
  apply SameJob.refl_of_mem
  simp only [allJobs, herase, List.mem_append, List.mem_singleton] at hj ⊢
  rw [hmem]
  tauto

theorem init_tracked : (init config : World S L P E).Tracked decoder :=
  ⟨fun _ _ hr => (nomatch hr), fun _ _ hr => (nomatch hr), trivial, rfl, fun _ he => (nomatch he)⟩

theorem run_tracked (actions : List (Action S L P E)) (hb : w.Books config)
    (hseat : w.Seated config) (h : w.Tracked decoder) :
    (w.run decoder config actions).Tracked decoder := by
  induction actions generalizing w with
  | nil => exact h
  | cons action actions ih =>
    obtain ⟨hb', hseat'⟩ : (w.act decoder config action).Books config ∧
        (w.act decoder config action).Seated config := act_keeps action ⟨hb, hseat⟩
    apply ih hb' hseat'
    cases action with
    | reserve request blocks => exact reserve_tracked hb h
    | send i => exact send_tracked h
    | cancel id =>
      exact h.of_step rfl rfl rfl (fun _ _ hh => ⟨hh.jobs, hh.prefills, hh.slots⟩) h.stage
    | work o => exact work_tracked hb hseat h

/-- The request was decoded to its end and its caller told so. -/
def Served (w : World S L P E) (id : ℕ) : Prop :=
  ∃ result, .finished result ∈ w.sentTo id ∧ Decoded result

theorem sent_finished {id : ℕ} {result : JobResult E} (h : .finished result ∈ w.sentTo id) :
    id ∈ w.ended := by
  obtain ⟨e, he, hr⟩ := List.mem_map.mp h
  obtain ⟨hmem, hid⟩ := List.mem_filter.mp he
  refine List.mem_map.mpr ⟨e, List.mem_filter.mpr ⟨hmem, ?_⟩, eq_of_beq hid⟩
  rw [hr]
  rfl

/-- The ends in the record are the ends that the caller saw. -/
theorem count_ended (sent : List (ℕ × BatcherEvent E)) (id : ℕ) :
    ((sent.filter fun e => e.2.isFinished).map (·.1)).count id =
      (((sent.filter fun e => e.1 == id).map (·.2)).filter BatcherEvent.isFinished).length := by
  induction sent with
  | nil => rfl
  | cons e sent ih =>
    rw [List.filter_cons, List.filter_cons]
    cases hf : e.2.isFinished <;> cases hi : e.1 == id <;>
      simp [hf, hi, List.count_cons, ih]

/-- A request that was served was sent what the uninterrupted request is. -/
theorem Served.ends {id : ℕ} {request : StepContext S L P E} (hb : w.Books config)
    (h : w.Tracked decoder) (hr : w.requests[id]? = some request) (hs : w.Served id) :
    SoloEnds decoder request (w.sentTo id) := by
  obtain ⟨result, hmem, hdecoded⟩ := hs
  have hended := sent_finished hmem
  rcases h.ends id request hr hended with hsolo | ⟨before, last, he, hno⟩
  · exact hsolo
  · have honce : ((w.sentTo id).filter BatcherEvent.isFinished).length ≤ 1 := by
      rw [sentTo, ← count_ended]
      have hcount := hb.once id
      rw [World.ended] at hcount
      split at hcount <;> omega
    rw [he, List.filter_append, List.length_append] at honce
    rw [he, List.mem_append, List.mem_singleton] at hmem
    rcases hmem with hmem | hmem
    · have hpos := List.length_pos_of_mem
        (List.mem_filter.mpr ⟨hmem, (rfl : BatcherEvent.isFinished (.finished result) = true)⟩)
      have hone : ([.finished last] : List (BatcherEvent E)).filter BatcherEvent.isFinished =
        [.finished last] := rfl
      rw [hone, List.length_singleton] at honce
      omega
    · cases hmem
      exact absurd hdecoded hno

end World

open World

/-- A preempted job is seated or goes back to the queue. -/
theorem JobTracks.not_refused {request : StepContext S L P E} {events : List (BatcherEvent E)}
    {job : Job S L P E} (h : JobTracks decoder request events job) (hj : job.answer ≠ none)
    (chunk : ℕ) (paged : Option PagedStore) (e : RowError E) :
    accept decoder job chunk paged ≠ .refused e := by
  obtain ⟨-, h⟩ := h
  cases ha : job.answer with
  | none => exact absurd ha hj
  | some a =>
    rw [ha] at h
    rcases accept_spec decoder job chunk paged with
      ⟨k, slides, -, -, hacc⟩ | ⟨e', -, -, hnone | ⟨t, ht, hle⟩⟩ | ⟨-, hacc⟩
    · rw [hacc]
      exact nofun
    · exact absurd hnone hj
    · exact absurd (h.2.1 t ht) (Nat.not_lt.mpr hle)
    · rw [hacc]
      exact nofun

/-- Two runs with the same decoder that serve the same request send its caller the same chunks and
the same end, whatever else they batched, cached, evicted or requeued; a row that goes on covers
its prompt and all it generated; and no preempted request is refused when it comes back. -/
theorem preemption_invisible (decoder : Decoder L) (config : BatcherConfig)
    (actions : List (Action S L P E)) (id : ℕ) (request : StepContext S L P E)
    (hr : ((init config).run decoder config actions).requests[id]? = some request) :
    (∀ (config' : BatcherConfig) (actions' : List (Action S L P E)) (id' : ℕ),
      ((init config').run decoder config' actions').requests[id']? = some request →
      ((init config).run decoder config actions).Served id →
      ((init config').run decoder config' actions').Served id' →
      ((init config).run decoder config actions).sentTo id =
        ((init config').run decoder config' actions').sentTo id') ∧
    (∀ slot ∈ ((init config).run decoder config actions).rows.slots, slot.abort = id →
      slot.finish = none → slot.promptIds = asRun request.promptIds ∧
        slot.kv.tokens = slot.promptIds ++ slot.answer.generatedIds ∧
        slot.pos = slot.promptIds.length + slot.answer.generatedIds.length ∧
        slot.logits = decoder.logits slot.kv.tokens) ∧
    ∀ job ∈ ((init config).run decoder config actions).allJobs, job.abort = id →
      job.answer ≠ none → ∀ (chunkSize : ℕ) (paged : Option PagedStore) (e : RowError E),
        accept decoder job chunkSize paged ≠ .refused e := by
  have hbooks : ∀ (config : BatcherConfig) (actions : List (Action S L P E)),
      ((init config).run decoder config actions).Books config :=
    fun config actions => (run_keeps actions ⟨init_books, init_seated⟩).1
  have htracked : ∀ (config : BatcherConfig) (actions : List (Action S L P E)),
      ((init config).run decoder config actions).Tracked decoder :=
    fun config actions => run_tracked actions init_books init_seated init_tracked
  constructor
  · intro config' actions' id' hr' hs hs'
    exact (hs.ends (hbooks config actions) (htracked config actions) hr).unique
      (hs'.ends (hbooks config' actions') (htracked config' actions') hr')
  constructor
  · rintro slot hslot rfl hf
    obtain ⟨hall, hne⟩ := (hbooks config actions).of_row hslot
    have hh := (htracked config actions).held slot.abort request hr hne
    obtain ⟨-, hprompt, htokens, hpos, hlogits, -⟩ := (hh.slots slot hall rfl).live hf
    refine ⟨hprompt, htokens, ?_, hlogits⟩
    rw [hpos, htokens, List.length_append]
  · rintro job hjob rfl hanswer
    have howed : job.abort ∈ ((init config).run decoder config actions).owed :=
      List.mem_append_left _ (List.mem_append_left _ (List.mem_map_of_mem hjob))
    have hne := ((hbooks config actions).of_owed howed).1
    have hh := (htracked config actions).held job.abort request hr hne
    exact (hh.jobs job hjob rfl).not_refused hanswer

section Witness

/-- Blocks for one request at a time; a job that waited one pass may evict. -/
def oneAtATime : BatcherConfig := ⟨2, 8, 64, 4, some 4, some 1⟩

def fourZeros : StepContext Unit Unit Unit Unit :=
  { twoZeros with params := ⟨0, 4, [], [], false, false, false⟩ }

/-- The first request is evicted for the second after two tokens, and comes back. -/
def evictedRun : List (Action Unit Unit Unit Unit) :=
  [.reserve fourZeros 3, .send 0, .work ⟨none, none⟩, .work ⟨none, none⟩, .reserve twoZeros 3,
    .send 0] ++ List.replicate 70 (.work ⟨none, none⟩)

def quietRun : List (Action Unit Unit Unit Unit) :=
  [.reserve fourZeros 3, .send 0] ++ List.replicate 60 (.work ⟨none, none⟩)

theorem preemption_invisible_evicted :
    (((World.init oneAtATime).run unitDecoder oneAtATime (evictedRun.take 41)).rows.slots.map
        (·.abort) = [1] ∧
      ((World.init oneAtATime).run unitDecoder oneAtATime (evictedRun.take 66)).rows.slots.map
        (·.answer.preemptions) = [1]) ∧
      ((World.init oneAtATime).run unitDecoder oneAtATime evictedRun).sentTo 0 =
        ((World.init oneAtATime).run unitDecoder oneAtATime quietRun).sentTo 0 := by
  constructor
  · decide
  · exact (preemption_invisible unitDecoder oneAtATime evictedRun 0 fourZeros rfl).1 oneAtATime
      quietRun 0 rfl ⟨_, List.mem_of_getElem? (i := 4) rfl, nofun⟩
        ⟨_, List.mem_of_getElem? (i := 4) rfl, nofun⟩

end Witness

end Frink.Batch
