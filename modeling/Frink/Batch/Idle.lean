import Frink.Batch.Preemption
import Frink.Library.Machine

/-! # A worker with one request

The statements of a tick, each as a phase that leads to the next, when all that the worker has is
one request that nobody cancels. A request with a budget is replied to.
-/

namespace Frink.Batch
open Decode Run

variable {S L P E : Type} {decoder : Decoder L} {config : BatcherConfig}

namespace Slot

/-- An end that drawing leads to: no cancellation, and no refusal but the constraint's. -/
def Drawn (s : Slot S L P E) (finish : FinishReason) : Prop :=
  finish ≠ .cancelled ∧ (s.error = none ∨ ∃ e, s.error = some (.constraint e))

variable {s : Slot S L P E} {finish : FinishReason}

theorem Drawn.reply (h : s.Drawn finish) :
    ∃ result, .finished result ∈ s.replyFinished finish ∧ Decoded result := by
  obtain ⟨hne, he | ⟨e, he⟩⟩ := h
  · rw [replyFinished, he]
    exact ⟨_, List.mem_append_right _ (List.mem_singleton.mpr rfl), hne⟩
  · rw [replyFinished, he]
    exact ⟨_, List.mem_singleton.mpr rfl, trivial⟩

theorem commit_drawn {next : ℕ} (he : s.error = none) (hf : s.finish = none)
    (h : (s.commit next).1.finish = some finish) : (s.commit next).1.Drawn finish := by
  rw [commit] at h ⊢
  split at h
  · rename_i hstop
    rw [if_pos hstop]
    cases h
    exact ⟨by rintro ⟨⟩, Or.inl he⟩
  · rename_i hstop
    rw [if_neg hstop]
    dsimp only at h ⊢
    split at h
    · rw [hf] at h
      cases h
    · rename_i hpiece
      rw [if_neg hpiece]
      refine ⟨?_, Or.inl he⟩
      rw [Answer.applyStopBuffer] at h
      dsimp only at h
      split at h
      · cases h
      · cases h
        rintro ⟨⟩

theorem sample_drawn (he : s.error = none) (hf : s.finish = none)
    (h : s.sample.1.finish = some finish) : s.sample.1.Drawn finish := by
  rw [sample] at h ⊢
  cases hd : s.request.sampleNext s.answer.sample s.logits s.promptIds s.answer.generatedIds with
  | error e =>
    rw [hd] at h
    cases h
    exact ⟨by rintro ⟨⟩, Or.inr ⟨e, rfl⟩⟩
  | ok drawn =>
    obtain ⟨next, state⟩ := drawn
    rw [hd] at h
    cases next with
    | grammarComplete =>
      cases h
      exact ⟨by rintro ⟨⟩, Or.inl he⟩
    | token next probs => exact commit_drawn (by exact he) (by exact hf) h

/-- A row that was drawing ends as drawing does, or at its budget. -/
theorem decodeStep_drawn (he : s.error = none) (hf : s.finish = none)
    (h : (s.decodeStep decoder).1.finish = some finish) :
    (s.decodeStep decoder).1.Drawn finish := by
  rw [decodeStep] at h ⊢
  split at h
  · rename_i hready
    rw [if_pos hready]
    dsimp only at h ⊢
    split at h
    · rename_i hgo
      rw [if_pos hgo]
      have herr := (s.sample_spec.2.2.2 (Option.isNone_iff_eq_none.mp hgo)).1.trans he
      refine ⟨?_, Or.inl herr⟩
      rw [forward] at h
      dsimp only at h
      split at h
      · cases h
        rintro ⟨⟩
      · rw [Option.isNone_iff_eq_none.mp hgo] at h
        cases h
    · rename_i hgo
      rw [if_neg hgo]
      exact sample_drawn he hf h
  · rw [hf] at h
    cases h

end Slot

namespace World

/-- The worker alone, from each statement to the next. -/
def Works (decoder : Decoder L) (config : BatcherConfig) (os : ℕ → Oracle S L P E)
    (b : ℕ → World S L P E) : Prop :=
  ∀ n, b (n + 1) = (b n).work decoder config (os n)

/-- The worker at `stage`, with nobody at the door and no cancellation of `id`. -/
structure Alone (id free : ℕ) (at_ : Stage S L P E) (jobs : List (Job S L P E))
    (ps : List (Prefill S L P E)) (ss : List (Slot S L P E)) (w : World S L P E) : Prop where
  stage : w.stage = at_
  channel : w.channel = []
  waiting : w.waiting = jobs
  prefills : w.prefills = ps
  slots : w.rows.slots = ss
  carried : id ∉ w.carried
  inbox : id ∉ w.inbox
  free : w.free = free

section Phases

variable {os : ℕ → Oracle S L P E} {b : ℕ → World S L P E} {id free : ℕ} {w : World S L P E}
  {waiting : List (Job S L P E)} {prefills : List (Prefill S L P E)}
  {slots : List (Slot S L P E)} {o : Oracle S L P E}

theorem state_isEmpty (r : Rows S L P E) : r.state.isEmpty = r.slots.isEmpty :=
  (List.isEmpty_map).symm

theorem work_top (h : Alone id free .top waiting prefills slots w)
    (hne : waiting ≠ [] ∨ prefills ≠ [] ∨ slots ≠ []) :
    Alone id free .drain waiting prefills slots (w.work decoder config o) := by
  obtain ⟨hs, hc, hw, hp, hsl, hcar, hin, hfree⟩ := h
  have hidle : ¬(w.rows.state.isEmpty && w.prefills.isEmpty && w.waiting.isEmpty) = true := by
    rw [state_isEmpty, hsl, hp, hw]
    simp only [Bool.and_eq_true, List.isEmpty_iff]
    tauto
  rw [work, hs]
  dsimp only
  rw [if_neg hidle]
  exact ⟨rfl, hc, hw, hp, hsl, hcar, hin, hfree⟩

theorem work_drain (h : Alone id free .drain waiting prefills slots w) :
    Alone id free .aborts waiting prefills slots (w.work decoder config o) := by
  obtain ⟨hs, hc, hw, hp, hsl, hcar, hin, hfree⟩ := h
  rw [work, hs]
  dsimp only
  rw [hc]
  exact ⟨rfl, hc, hw, hp, hsl, hcar, hin, hfree⟩

theorem work_aborts (h : Alone id free .aborts waiting prefills slots w) :
    Alone id free (.flush .admission) waiting prefills slots (w.work decoder config o) ∨
      Alone id free (.abortWaiting []) waiting prefills slots (w.work decoder config o) := by
  obtain ⟨hs, hc, hw, hp, hsl, hcar, hin, hfree⟩ := h
  have hboth : id ∉ w.carried ∪ w.inbox := by
    rw [Finset.mem_union]
    exact not_or.mpr ⟨hcar, hin⟩
  rw [work, hs]
  dsimp only
  by_cases hempty : w.carried ∪ w.inbox = ∅
  · left
    exact ⟨if_pos hempty, hc, hw, hp, hsl, hboth, Finset.notMem_empty id, hfree⟩
  · right
    exact ⟨if_neg hempty, hc, hw, hp, hsl, hboth, Finset.notMem_empty id, hfree⟩

/-- What an abort pass keeps when it is not for `id`. -/
theorem work_abortWaiting {job : Job S L P E} {kept : List (Job S L P E)}
    (h : Alone id free (.abortWaiting kept) (job :: waiting) prefills slots w)
    (hjob : job.abort = id) :
    Alone id free (.abortWaiting (kept ++ [job])) waiting prefills slots
      (w.work decoder config o) := by
  obtain ⟨hs, hc, hw, hp, hsl, hcar, hin, hfree⟩ := h
  have hno : job.abort ∉ w.carried := by rwa [hjob]
  rw [work, hs]
  dsimp only
  rw [hw]
  dsimp only
  rw [if_neg hno]
  exact ⟨rfl, hc, rfl, hp, hsl, hcar, hin, hfree⟩

theorem work_abortWaiting_nil {kept : List (Job S L P E)}
    (h : Alone id free (.abortWaiting kept) [] prefills slots w) :
    Alone id free (.abortPrefills []) kept prefills slots (w.work decoder config o) := by
  obtain ⟨hs, hc, hw, hp, hsl, hcar, hin, hfree⟩ := h
  rw [work, hs]
  dsimp only
  rw [hw]
  exact ⟨rfl, hc, rfl, hp, hsl, hcar, hin, hfree⟩

theorem work_abortPrefills {p : Prefill S L P E} {kept : List (Prefill S L P E)}
    (h : Alone id free (.abortPrefills kept) waiting (p :: prefills) slots w)
    (hp : p.abort = id) :
    Alone id free (.abortPrefills (kept ++ [p])) waiting prefills slots
      (w.work decoder config o) := by
  obtain ⟨hs, hc, hw, hps, hsl, hcar, hin, hfree⟩ := h
  have hno : p.abort ∉ w.carried := by rwa [hp]
  rw [work, hs]
  dsimp only
  rw [hps]
  dsimp only
  rw [if_neg hno]
  exact ⟨rfl, hc, hw, rfl, hsl, hcar, hin, hfree⟩

theorem work_abortPrefills_nil {kept : List (Prefill S L P E)}
    (h : Alone id free (.abortPrefills kept) waiting [] slots w) :
    Alone id free .markRows waiting kept slots (w.work decoder config o) := by
  obtain ⟨hs, hc, hw, hps, hsl, hcar, hin, hfree⟩ := h
  rw [work, hs]
  dsimp only
  rw [hps]
  exact ⟨rfl, hc, hw, rfl, hsl, hcar, hin, hfree⟩

theorem work_markRows (h : Alone id free .markRows waiting prefills slots w)
    (hown : ∀ slot ∈ slots, slot.abort = id) :
    Alone id free (.flush .admission) waiting prefills slots (w.work decoder config o) := by
  obtain ⟨hs, hc, hw, hps, hsl, hcar, hin, hfree⟩ := h
  have hmark : (w.rows.markCancelled w.carried).2.slots = slots := by
    rw [Rows.markCancelled, Rows.mapSlots, Rows.slots, List.map_map]
    rw [← hsl]
    apply List.map_congr_left
    intro row hrow
    have hmem : row.2 ∈ w.rows.slots := List.mem_map_of_mem hrow
    have hno : row.2.abort ∉ w.carried := by
      rw [hown _ (hsl ▸ hmem)]
      exact hcar
    have hfalse : Rows.isCancelled w.carried row.2 = false := by
      rw [Rows.isCancelled, decide_eq_false hno, Bool.false_and]
    show (if Rows.isCancelled w.carried row.2 = true then _ else row.2) = row.2
    rw [hfalse, if_neg Bool.false_ne_true]
  rw [work, hs]
  exact ⟨rfl, hc, hw, hps, hmark, fun hmem => hcar (Finset.mem_sdiff.mp hmem).1, hin, hfree⟩

/-- Where a flush goes on when nothing has finished. -/
theorem work_flush {next : AfterFlush}
    (h : Alone id free (.flush next) waiting prefills slots w)
    (hlive : ∀ slot ∈ slots, slot.finish = none) :
    Alone id free (match next with | .admission => .admission [] | .top => .top) waiting prefills
      slots (w.work decoder config o) := by
  obtain ⟨hs, hc, hw, hps, hsl, hcar, hin, hfree⟩ := h
  have hnone : w.rows.firstFinished = none := by
    rw [Rows.firstFinished, List.findSome?_eq_none_iff]
    intro row hrow
    have hmem : row.2 ∈ w.rows.slots := List.mem_map_of_mem hrow
    rw [hlive _ (hsl ▸ hmem)]
    rfl
  rw [work, hs]
  dsimp only
  rw [hnone]
  exact ⟨rfl, hc, hw, hps, hsl, hcar, hin, hfree⟩

theorem work_admission_nil (h : Alone id free (.admission []) [] prefills slots w) :
    Alone id free (.closeAdmit []) [] prefills slots (w.work decoder config o) := by
  obtain ⟨hs, hc, hw, hps, hsl, hcar, hin, hfree⟩ := h
  have he : w.waiting.isEmpty = true := by rw [hw]; rfl
  rw [work, hs]
  dsimp only
  rw [if_pos he]
  exact ⟨rfl, hc, hw, hps, hsl, hcar, hin, hfree⟩

theorem cacheAwarePick_single (cachedLen : Option (Job S L P E → ℕ)) (job : Job S L P E) :
    cacheAwarePick cachedLen [job] = 0 := by
  cases cachedLen with
  | none => rfl
  | some len =>
    show (if MAX_SKIPS ≤ job.skips then 0 else _) = 0
    split <;> rfl

theorem work_admission {job : Job S L P E} {left : ℕ} (hseat : 0 < config.maxSeqs)
    (hfit : tryReserve config.kvBlocks free job.blocks = some left)
    (h : Alone id free (.admission []) [job] [] [] w) :
    Alone id left (.take job 0 []) [job] [] [] (w.work decoder config o) := by
  obtain ⟨hs, hc, hw, hps, hsl, hcar, hin, hfree⟩ := h
  have hstate : w.rows.state = [] := List.map_eq_nil_iff.mp hsl
  have hseated : decide (w.rows.state.length + w.prefills.length < config.maxSeqs) = true := by
    rw [hstate, hps]
    exact decide_eq_true hseat
  have hpick : w.waiting[cacheAwarePick o.cachedLen w.waiting]? = some job := by
    rw [hw, cacheAwarePick_single]
    rfl
  have hne : ¬w.waiting.isEmpty = true := by
    rw [hw]
    exact Bool.false_ne_true
  rw [work, hs]
  dsimp only
  rw [if_neg hne, admitHead, hseated]
  dsimp only
  rw [if_neg (by simp), hpick]
  dsimp only
  rw [if_pos rfl, hfree, hfit]
  refine ⟨?_, hc, hw, hps, hsl, hcar, hin, rfl⟩
  rw [hw, cacheAwarePick_single]

theorem work_take {job : Job S L P E} (h : Alone id free (.take job 0 []) [job] [] [] w) :
    Alone id free (.accepting job []) [] [] [] (w.work decoder config o) := by
  obtain ⟨hs, hc, hw, hps, hsl, hcar, hin, hfree⟩ := h
  rw [work, hs]
  refine ⟨rfl, hc, ?_, hps, hsl, hcar, hin, hfree⟩
  show (w.waiting.take 0).map _ ++ w.waiting.drop 1 = []
  rw [hw]
  rfl

theorem work_accepting {job : Job S L P E} {p : Prefill S L P E}
    (h : Alone id free (.accepting job []) [] [] [] w)
    (hacc : accept decoder job config.prefillChunk o.paged = .prefill p) :
    Alone id free (.admission []) [] [p] [] (w.work decoder config o) := by
  obtain ⟨hs, hc, hw, hps, hsl, hcar, hin, hfree⟩ := h
  rw [work, hs]
  dsimp only
  rw [acceptJob, hacc]
  refine ⟨rfl, hc, hw, ?_, hsl, hcar, hin, hfree⟩
  show w.prefills ++ [p] = [p]
  rw [hps, List.nil_append]

theorem work_closeAdmit (h : Alone id free (.closeAdmit []) [] prefills slots w) :
    Alone id free .prefill [] prefills slots (w.work decoder config o) := by
  obtain ⟨hs, hc, hw, hps, hsl, hcar, hin, hfree⟩ := h
  rw [work, hs]
  refine ⟨rfl, hc, ?_, hps, hsl, hcar, hin, hfree⟩
  show [] ++ w.waiting.map _ = []
  rw [hw]
  rfl

theorem work_prefill_nil (h : Alone id free .prefill waiting [] slots w) :
    Alone id free .decode waiting [] slots (w.work decoder config o) := by
  obtain ⟨hs, hc, hw, hps, hsl, hcar, hin, hfree⟩ := h
  rw [work, hs]
  dsimp only
  rw [prefillChunk, hps]
  exact ⟨rfl, hc, hw, hps, hsl, hcar, hin, hfree⟩

/-- A chunk of at least one token; the last one hands the row over. -/
theorem work_prefill {p : Prefill S L P E} (h : Alone id free .prefill [] [p] [] w) :
    ∃ budget, 0 < budget ∧
      if (p.state.stepChunk decoder budget).isDone = true then
        Alone id free .decode [] []
          [{ p with state := p.state.stepChunk decoder budget }.intoSlot] (w.work decoder config o)
      else Alone id free .decode [] [{ p with state := p.state.stepChunk decoder budget }] []
        (w.work decoder config o) := by
  obtain ⟨hs, hc, hw, hps, hsl, hcar, hin, hfree⟩ := h
  have hstate : w.rows.state = [] := List.map_eq_nil_iff.mp hsl
  refine ⟨prefillBudget config.maxBatchTokens 0 p.state.chunkSize,
    lt_of_lt_of_le (by decide : 0 < MIN_PREFILL_CHUNK) (Nat.le_max_left _ _), ?_⟩
  rw [work, hs]
  dsimp only
  rw [prefillChunk, hps]
  dsimp only
  rw [hstate]
  dsimp only [List.length_nil]
  split
  · refine ⟨rfl, hc, hw, rfl, ?_, hcar, hin, hfree⟩
    show (w.rows.state ++ [_]).map _ = _
    rw [hstate]
    rfl
  · exact ⟨rfl, hc, hw, rfl, hsl, hcar, hin, hfree⟩

theorem work_decode_nil (h : Alone id free .decode waiting prefills [] w) :
    Alone id free .top waiting prefills [] (w.work decoder config o) := by
  obtain ⟨hs, hc, hw, hps, hsl, hcar, hin, hfree⟩ := h
  have he : w.rows.state.isEmpty = true := by
    rw [state_isEmpty, hsl]
    rfl
  rw [work, hs]
  dsimp only
  rw [decodeRows, if_pos he]
  exact ⟨rfl, hc, hw, hps, hsl, hcar, hin, hfree⟩

theorem work_decode {slot : Slot S L P E} (h : Alone id free .decode waiting prefills [slot] w) :
    Alone id free (.flush .top) waiting prefills [(slot.decodeStep decoder).1]
      (w.work decoder config o) := by
  obtain ⟨hs, hc, hw, hps, hsl, hcar, hin, hfree⟩ := h
  have hne : ¬w.rows.state.isEmpty = true := by
    rw [state_isEmpty, hsl]
    exact Bool.false_ne_true
  rw [work, hs]
  dsimp only
  rw [decodeRows, if_neg hne]
  refine ⟨rfl, hc, hw, hps, ?_, hcar, hin, hfree⟩
  rw [Rows.slots] at hsl
  show (w.rows.state.map fun row => (row.1, (row.2.decodeStep decoder).1)).map _ = _
  rw [List.map_map]
  have hmap : (w.rows.state.map fun row => (row.2.decodeStep decoder).1) =
      (w.rows.state.map (·.2)).map fun s => (s.decodeStep decoder).1 := by
    rw [List.map_map]
    rfl
  exact hmap.trans (by rw [hsl]; rfl)

/-- The row that finished leaves, and its caller is told. -/
theorem work_flush_finished {slot : Slot S L P E} {finish : FinishReason} {next : AfterFlush}
    (h : Alone id free (.flush next) waiting prefills [slot] w) (hf : slot.finish = some finish) :
    Alone id free (.flushing slot finish next) waiting prefills [] (w.work decoder config o) := by
  obtain ⟨hs, hc, hw, hps, hsl, hcar, hin, hfree⟩ := h
  obtain ⟨⟨uid, s⟩, hstate, rfl⟩ := List.map_eq_singleton_iff.mp hsl
  have hfirst : w.rows.firstFinished = some (uid, finish) := by
    rw [Rows.firstFinished, hstate]
    dsimp only at hf
    simp only [List.findSome?_cons, hf, Option.map_some]
  have hget : w.rows.get uid = some s := by
    rw [Rows.get, hstate, List.find?_cons_of_pos (by exact beq_self_eq_true uid)]
    rfl
  have hremove : (w.rows.remove uid).state = [] := by
    show w.rows.state.eraseP (fun row => row.1 == uid) = []
    rw [hstate, List.eraseP_cons, beq_self_eq_true, cond_true]
  rw [work, hs]
  dsimp only
  rw [hfirst]
  dsimp only
  rw [hget]
  exact ⟨rfl, hc, hw, hps, List.map_eq_nil_iff.mpr hremove, hcar, hin, hfree⟩

theorem work_flushing {slot : Slot S L P E} {finish : FinishReason} {next : AfterFlush}
    (h : Alone id free (.flushing slot finish next) waiting prefills slots w)
    (hend : slot.Drawn finish) : (w.work decoder config o).Served slot.abort := by
  obtain ⟨result, hmem, hdecoded⟩ := hend.reply
  refine ⟨result, ?_, hdecoded⟩
  rw [work, h.stage]
  dsimp only
  rw [sentTo, sentTo_post, if_pos rfl]
  exact List.mem_append_right _ hmem

end Phases

section Leads

variable {os : ℕ → Oracle S L P E} {b : ℕ → World S L P E} {id free : ℕ}
  {waiting : List (Job S L P E)} {prefills : List (Prefill S L P E)} {slots : List (Slot S L P E)}

theorem leads_abortPrefills (hb : Works decoder config os b)
    (hjobs : ∀ job ∈ waiting, job.abort = id) (kept : List (Job S L P E)) :
    LeadsTo b (Alone id free (.abortWaiting kept) waiting prefills slots)
      (Alone id free (.abortPrefills []) (kept ++ waiting) prefills slots) := by
  induction waiting generalizing kept with
  | nil =>
    apply LeadsTo.of_step
    intro n h
    rw [hb, List.append_nil]
    exact work_abortWaiting_nil h
  | cons job waiting ih =>
    rw [List.forall_mem_cons] at hjobs
    have hrest := ih hjobs.2 (kept ++ [job])
    rw [List.append_assoc] at hrest
    apply LeadsTo.step _ hrest
    intro n h
    rw [hb]
    exact work_abortWaiting h hjobs.1

theorem leads_markRows (hb : Works decoder config os b) (hps : ∀ p ∈ prefills, p.abort = id)
    (kept : List (Prefill S L P E)) :
    LeadsTo b (Alone id free (.abortPrefills kept) waiting prefills slots)
      (Alone id free .markRows waiting (kept ++ prefills) slots) := by
  induction prefills generalizing kept with
  | nil =>
    apply LeadsTo.of_step
    intro n h
    rw [hb, List.append_nil]
    exact work_abortPrefills_nil h
  | cons p prefills ih =>
    rw [List.forall_mem_cons] at hps
    have hrest := ih hps.2 (kept ++ [p])
    rw [List.append_assoc] at hrest
    apply LeadsTo.step _ hrest
    intro n h
    rw [hb]
    exact work_abortPrefills h hps.1

/-- What the worker holds is all of one request, and still going. -/
structure Own (id : ℕ) (waiting : List (Job S L P E)) (prefills : List (Prefill S L P E))
    (slots : List (Slot S L P E)) : Prop where
  jobs : ∀ job ∈ waiting, job.abort = id
  prefills : ∀ p ∈ prefills, p.abort = id
  slots : ∀ slot ∈ slots, slot.abort = id ∧ slot.finish = none

/-- From the aborts to the admission loop. -/
theorem leads_admission (hb : Works decoder config os b) (hown : Own id waiting prefills slots) :
    LeadsTo b (Alone id free .drain waiting prefills slots)
      (Alone id free (.admission []) waiting prefills slots) := by
  have hflush : LeadsTo b (Alone id free (.flush .admission) waiting prefills slots)
      (Alone id free (.admission []) waiting prefills slots) := by
    apply LeadsTo.of_step
    intro n h
    rw [hb]
    exact work_flush h fun slot hslot => (hown.slots slot hslot).2
  have hmark : LeadsTo b (Alone id free .markRows waiting prefills slots)
      (Alone id free (.admission []) waiting prefills slots) := by
    apply LeadsTo.step _ hflush
    intro n h
    rw [hb]
    exact work_markRows h fun slot hslot => (hown.slots slot hslot).1
  have habort : LeadsTo b (Alone id free (.abortWaiting []) waiting prefills slots)
      (Alone id free (.admission []) waiting prefills slots) :=
    ((leads_abortPrefills hb hown.jobs []).trans (leads_markRows hb hown.prefills [])).trans hmark
  have haborts : LeadsTo b (Alone id free .aborts waiting prefills slots)
      (Alone id free (.admission []) waiting prefills slots) := by
    apply LeadsTo.step _ (hflush.or habort)
    intro n h
    rw [hb]
    exact work_aborts h
  apply LeadsTo.step _ haborts
  intro n h
  rw [hb]
  exact work_drain h

/-- With nobody waiting, the admission loop is left for the prefill. -/
theorem leads_closeAdmit (hb : Works decoder config os b) :
    LeadsTo b (Alone id free (.admission []) [] prefills slots)
      (Alone id free .prefill [] prefills slots) := by
  have hclose : LeadsTo b (Alone id free (.closeAdmit []) [] prefills slots)
      (Alone id free .prefill [] prefills slots) := by
    apply LeadsTo.of_step
    intro n h
    rw [hb]
    exact work_closeAdmit h
  apply LeadsTo.step _ hclose
  intro n h
  rw [hb]
  exact work_admission_nil h

/-- A tick with nobody waiting, up to its prefill. -/
theorem leads_prefill (hb : Works decoder config os b) (hown : Own id [] prefills slots)
    (hne : prefills ≠ [] ∨ slots ≠ []) :
    LeadsTo b (Alone id free .top [] prefills slots)
      (Alone id free .prefill [] prefills slots) := by
  apply LeadsTo.step _ ((leads_admission hb hown).trans (leads_closeAdmit hb))
  intro n h
  rw [hb]
  exact work_top h (Or.inr hne)

/-- A prompt of `id` that has tokens left to run, for an answer that is still empty. -/
structure Unread (id : ℕ) (request : StepContext S L P E) (p : Prefill S L P E) : Prop where
  abort : p.abort = id
  request : p.request = request
  ids : p.answer.generatedIds = []
  more : p.state.tokensProcessed < p.state.tokens.length

/-- A row of `id` that has budget left. -/
structure Ready (id : ℕ) (slot : Slot S L P E) : Prop where
  abort : slot.abort = id
  finish : slot.finish = none
  error : slot.error = none
  budget : slot.answer.generatedIds.length < slot.maxTokens

theorem stepChunk_more {state : PrefillState L} {budget : ℕ} (hpos : 0 < budget)
    (hmore : state.tokensProcessed < state.tokens.length) :
    (state.stepChunk decoder budget).tokens = state.tokens ∧
      state.tokensProcessed < (state.stepChunk decoder budget).tokensProcessed := by
  have hstop : ¬min (state.tokensProcessed + budget) state.tokens.length ≤
      state.tokensProcessed := by
    omega
  rw [PrefillState.stepChunk, if_neg hstop]
  refine ⟨rfl, ?_⟩
  show state.tokensProcessed < min _ _
  omega

/-- A prompt is run to its end. -/
theorem leads_decode (hb : Works decoder config os b) {request : StepContext S L P E}
    (hmax : 0 < request.params.maxTokens) {p : Prefill S L P E} (hp : Unread id request p) :
    LeadsTo b (Alone id free .prefill [] [p] [])
      fun w => ∃ slot, Ready id slot ∧ Alone id free .decode [] [] [slot] w := by
  refine LeadsTo.of_rank
    (P := fun p : { p : Prefill S L P E // Unread id request p } => Alone id free .prefill [] [p.1] [])
    (fun p => p.1.state.tokens.length - p.1.state.tokensProcessed) ?_ ⟨p, hp⟩
  rintro ⟨p, habort, hreq, hids, hmore⟩ n hn
  obtain ⟨budget, hpos, hstep⟩ : ∃ budget, 0 < budget ∧
      if (p.state.stepChunk decoder budget).isDone = true then
        Alone id free .decode [] []
          [{ p with state := p.state.stepChunk decoder budget }.intoSlot] (b (n + 1))
      else Alone id free .decode [] [{ p with state := p.state.stepChunk decoder budget }] []
        (b (n + 1)) := by
    rw [hb]
    exact work_prefill hn
  obtain ⟨htok, hproc⟩ : (p.state.stepChunk decoder budget).tokens = p.state.tokens ∧
      p.state.tokensProcessed < (p.state.stepChunk decoder budget).tokensProcessed :=
    stepChunk_more hpos hmore
  split at hstep
  · refine ⟨n + 1, n.le_succ, Or.inl ⟨_, ⟨habort, rfl, rfl, ?_⟩, hstep⟩⟩
    show p.answer.generatedIds.length < p.request.params.maxTokens
    rw [hids, hreq]
    exact hmax
  · rename_i hdone
    have hleft : (p.state.stepChunk decoder budget).tokensProcessed <
        (p.state.stepChunk decoder budget).tokens.length := by
      rw [PrefillState.isDone, beq_iff_eq] at hdone
      omega
    have hnext : Unread id request { p with state := p.state.stepChunk decoder budget } :=
      ⟨habort, hreq, hids, hleft⟩
    have hown : Own id [] [{ p with state := p.state.stepChunk decoder budget }] [] := by
      refine ⟨List.forall_mem_nil _, fun q hq => ?_, List.forall_mem_nil _⟩
      rw [List.mem_singleton.mp hq]
      exact habort
    have htop : LeadsTo b (Alone id free .decode []
        [{ p with state := p.state.stepChunk decoder budget }] [])
        (Alone id free .top [] [{ p with state := p.state.stepChunk decoder budget }] []) := by
      apply LeadsTo.of_step
      intro n h
      rw [hb]
      exact work_decode_nil h
    obtain ⟨m, hm, hagain⟩ :=
      (htop.trans (leads_prefill hb hown (Or.inl (List.cons_ne_nil _ _)))) (n + 1) hstep
    refine ⟨m, by omega, Or.inr ⟨⟨_, hnext⟩, ?_, hagain⟩⟩
    show (p.state.stepChunk decoder budget).tokens.length -
      (p.state.stepChunk decoder budget).tokensProcessed <
        p.state.tokens.length - p.state.tokensProcessed
    rw [htok]
    omega

/-- A row that stays has one token more. -/
theorem Ready.decodeStep {slot : Slot S L P E} (h : Ready id slot)
    (hf : (slot.decodeStep decoder).1.finish = none) :
    Ready id (slot.decodeStep decoder).1 ∧
      (slot.decodeStep decoder).1.maxTokens = slot.maxTokens ∧
      slot.answer.generatedIds.length <
        (slot.decodeStep decoder).1.answer.generatedIds.length := by
  have hready : slot.isReady = true := by
    rw [Slot.isReady, h.finish, decide_eq_true h.budget]
    rfl
  have habort : (slot.decodeStep decoder).1.abort = slot.abort := slot.decodeStep_fields.1
  have hmax := (Slot.decodeStep_spec decoder slot).1.maxTokens
  rw [Slot.decodeStep, if_pos hready] at hf habort hmax ⊢
  dsimp only at hf habort hmax ⊢
  by_cases hdrawn : slot.sample.1.finish.isNone = true
  · rw [if_pos hdrawn] at hf habort hmax ⊢
    obtain ⟨-, -, -, hgen⟩ := slot.sample_spec
    obtain ⟨herr, next, hids⟩ := hgen (Option.isNone_iff_eq_none.mp hdrawn)
    have hlen : slot.sample.1.answer.generatedIds.length =
        slot.answer.generatedIds.length + 1 := by
      rw [hids, List.length_append]
      rfl
    refine ⟨⟨habort.trans h.abort, hf, herr.trans h.error, ?_⟩, hmax, ?_⟩
    · by_contra hle
      have hspent : slot.sample.1.maxTokens ≤ slot.sample.1.answer.generatedIds.length :=
        Nat.not_lt.mp hle
      rw [Slot.forward] at hf
      dsimp only at hf
      rw [if_pos hspent] at hf
      cases hf
    · show _ < slot.sample.1.answer.generatedIds.length
      omega
  · rw [if_neg hdrawn] at hf
    rw [hf] at hdrawn
    exact absurd rfl hdrawn

/-- A row that has budget left decodes until it is replied to. -/
theorem leads_served (hb : Works decoder config os b) {slot : Slot S L P E} (hs : Ready id slot) :
    LeadsTo b (Alone id free .decode [] [] [slot]) fun w => w.Served id := by
  refine LeadsTo.of_rank
    (P := fun slot : { slot : Slot S L P E // Ready id slot } => Alone id free .decode [] [] [slot.1])
    (fun slot => slot.1.maxTokens - slot.1.answer.generatedIds.length) ?_ ⟨slot, hs⟩
  rintro ⟨slot, hready⟩ n hn
  have hnext : Alone id free (.flush .top) [] [] [(slot.decodeStep decoder).1] (b (n + 1)) := by
    rw [hb]
    exact work_decode hn
  cases hf : (slot.decodeStep decoder).1.finish with
  | some finish =>
    refine ⟨n + 3, by omega, Or.inl ?_⟩
    have hflushing : Alone id free (.flushing (slot.decodeStep decoder).1 finish .top) [] [] []
        (b (n + 2)) := by
      rw [hb]
      exact work_flush_finished hnext hf
    have habort : (slot.decodeStep decoder).1.abort = id :=
      slot.decodeStep_fields.1.trans hready.abort
    rw [hb, ← habort]
    exact work_flushing hflushing (Slot.decodeStep_drawn hready.error hready.finish hf)
  | none =>
    obtain ⟨hagain, hmax, hlt⟩ := hready.decodeStep hf
    have htop : Alone id free .top [] [] [(slot.decodeStep decoder).1] (b (n + 2)) := by
      rw [hb]
      apply work_flush hnext
      intro s hs
      rw [List.mem_singleton.mp hs]
      exact hf
    have hown : Own id [] [] [(slot.decodeStep decoder).1] := by
      refine ⟨nofun, nofun, fun s hs => ?_⟩
      rw [List.mem_singleton.mp hs]
      exact ⟨hagain.abort, hf⟩
    have hdecode : LeadsTo b (Alone id free .prefill [] [] [(slot.decodeStep decoder).1])
        (Alone id free .decode [] [] [(slot.decodeStep decoder).1]) := by
      apply LeadsTo.of_step
      intro n h
      rw [hb]
      exact work_prefill_nil h
    obtain ⟨m, hm, hdec⟩ := ((leads_prefill hb hown (Or.inr (List.cons_ne_nil _ _))).trans
      hdecode) (n + 2) htop
    refine ⟨m, by omega, Or.inr ⟨⟨_, hagain⟩, ?_, hdec⟩⟩
    have hbudget := hready.budget
    have hbudget' := hagain.budget
    show (slot.decodeStep decoder).1.maxTokens - _ < _
    dsimp only
    omega

/-- A worker with nothing to do. -/
structure Idle (w : World S L P E) : Prop where
  stage : w.stage = .top
  submitting : w.submitting = []
  channel : w.channel = []
  waiting : w.waiting = []
  prefills : w.prefills = []
  rows : w.rows.slots = []

/-- The job of a request that is about to be submitted. -/
def nextJob (w : World S L P E) (request : StepContext S L P E) (blocks : ℕ) : Job S L P E :=
  ⟨request.promptIds, request, w.nextId, blocks, 0, 0, none⟩

/-- The batcher takes the request: there is room in the queue, a seat, blocks and pages. -/
structure Admits (decoder : Decoder L) (config : BatcherConfig) (os : ℕ → Oracle S L P E)
    (w : World S L P E) (request : StepContext S L P E) (blocks : ℕ) : Prop where
  queue : w.depth < config.maxQueue
  seat : 0 < config.maxSeqs
  room : (tryReserve config.kvBlocks w.free blocks).isSome
  pages : ∀ n, ∃ p, accept decoder (w.nextJob request blocks) config.prefillChunk (os n).paged =
    .prefill p

theorem submit_idle {w : World S L P E} {request : StepContext S L P E} {blocks : ℕ}
    (hidle : w.Idle) (hq : w.depth < config.maxQueue) (hcar : w.nextId ∉ w.carried)
    (hin : w.nextId ∉ w.inbox) :
    Alone w.nextId w.free .drain [w.nextJob request blocks] [] []
      (((w.reserve config request blocks).send 0).work decoder config o) := by
  obtain ⟨hs, hsub, hc, hw, hps, hsl⟩ := hidle
  have hstate : w.rows.state = [] := List.map_eq_nil_iff.mp hsl
  have hsend : (w.reserve config request blocks).send 0 =
      { w with
        depth := w.depth + 1, nextId := w.nextId + 1, requests := w.requests ++ [request]
        submitting := [], channel := [w.nextJob request blocks] } := by
    rw [reserve, if_neg (Nat.not_le.mpr hq), send, hsub, hc]
    rfl
  rw [hsend, work, hs]
  dsimp only
  rw [hstate, hps, hw]
  exact ⟨rfl, rfl, rfl, rfl, hsl, hcar, hin, rfl⟩

/-- A request with a budget is replied to. -/
theorem replied {w : World S L P E} {request : StepContext S L P E} {blocks : ℕ}
    (hb : Works decoder config os b) (h0 : b 0 = (w.reserve config request blocks).send 0)
    (hidle : w.Idle) (hadmits : Admits decoder config os w request blocks)
    (hcar : w.nextId ∉ w.carried) (hin : w.nextId ∉ w.inbox)
    (hmax : 0 < request.params.maxTokens) : ∃ n, (b n).Served w.nextId := by
  obtain ⟨hq, hseat, hblocks, hacc⟩ := hadmits
  obtain ⟨left, hleft⟩ := Option.isSome_iff_exists.mp hblocks
  have hfirst : Alone w.nextId w.free .drain [w.nextJob request blocks] [] [] (b 1) := by
    rw [hb, h0]
    exact submit_idle hidle hq hcar hin
  have hown : Own w.nextId [w.nextJob request blocks] [] [] := by
    refine ⟨fun job hjob => ?_, nofun, nofun⟩
    rw [List.mem_singleton.mp hjob]
    rfl
  obtain ⟨n, -, hadmission⟩ := leads_admission hb hown 1 hfirst
  have htake : Alone w.nextId left (.take (w.nextJob request blocks) 0 [])
      [w.nextJob request blocks] [] [] (b (n + 1)) := by
    rw [hb]
    exact work_admission hseat hleft hadmission
  have haccepting : Alone w.nextId left (.accepting (w.nextJob request blocks) []) [] [] []
      (b (n + 2)) := by
    rw [hb]
    exact work_take htake
  obtain ⟨p, hp⟩ := hacc (n + 2)
  have hprefill : Alone w.nextId left (.admission []) [] [p] [] (b (n + 3)) := by
    rw [hb]
    exact work_accepting haccepting hp
  have hunread : Unread w.nextId request p := by
    have htracks : JobTracks decoder request [] (w.nextJob request blocks) := ⟨rfl, rfl, rfl⟩
    rcases accept_spec decoder (w.nextJob request blocks) config.prefillChunk (os (n + 2)).paged
      with ⟨k, slides, hk, hvalid, he⟩ | ⟨e, he, -⟩ | ⟨-, he⟩
    · rw [he] at hp
      cases hp
      exact ⟨rfl, rfl, rfl, (htracks.intoPrefill hvalid hk config.prefillChunk slides).more⟩
    · rw [he] at hp
      cases hp
    · rw [he] at hp
      cases hp
  obtain ⟨m, -, hrun⟩ := leads_closeAdmit hb (n + 3) hprefill
  obtain ⟨k, -, slot, hready, hdecode⟩ := leads_decode hb hmax hunread m hrun
  obtain ⟨j, -, hserved⟩ := leads_served hb hready k hdecode
  exact ⟨j, hserved⟩

end Leads

section Requests

variable (w : World S L P E) (o : Oracle S L P E)

@[simp] theorem admitHead_requests (evicted : List (Job S L P E)) :
    (w.admitHead config o evicted).requests = w.requests := by
  rw [admitHead]
  dsimp only
  split
  · rfl
  split
  · rfl
  split
  · rfl
  · split <;> rfl

@[simp] theorem reserveRoom_requests (pick : ℕ) (evicted : List (Job S L P E)) :
    (w.reserveRoom config pick evicted).requests = w.requests := by
  rw [reserveRoom]
  split
  · rfl
  · split <;> rfl

@[simp] theorem acceptJob_requests (job : Job S L P E) (evicted : List (Job S L P E)) :
    (w.acceptJob decoder config o job evicted).requests = w.requests := by
  rw [acceptJob]
  split <;> rfl

@[simp] theorem prefillChunk_requests : (w.prefillChunk decoder config).requests = w.requests := by
  rw [prefillChunk]
  split
  · rfl
  · dsimp only
    split <;> rfl

@[simp] theorem decodeRows_requests : (w.decodeRows decoder).requests = w.requests := by
  rw [decodeRows]
  split <;> rfl

/-- The worker leaves the record of what was submitted. -/
theorem work_requests : (w.work decoder config o).requests = w.requests := by
  have hgoto : ∀ stage, (w.goto stage).requests = w.requests := fun _ => rfl
  have htake : ∀ job pick evicted, (w.takeJob job pick evicted).requests = w.requests :=
    fun _ _ _ => rfl
  have hclose : ∀ evicted, (w.closeAdmit evicted).requests = w.requests := fun _ => rfl
  rw [work]
  split <;> (try split) <;> (try split) <;> simp only [hgoto, htake, hclose, admitHead_requests,
    reserveRoom_requests, acceptJob_requests, prefillChunk_requests, decodeRows_requests]

end Requests

end World

end Frink.Batch
