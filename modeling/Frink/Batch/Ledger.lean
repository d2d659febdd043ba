import Mathlib
import Frink.Batch.Worker

/-! # The batcher's books

Blocks, queue slots and requests, each with everything that holds one. The worker's hands count:
between two statements a reservation or a request is in no collection.
-/

namespace Frink.Batch
open Decode

variable {S L P E : Type} {decoder : Decoder L} {config : BatcherConfig}

namespace Rows

variable {r : Rows S L P E} {uid : ℕ} {slot : Slot S L P E}

def slots (r : Rows S L P E) : List (Slot S L P E) := r.state.map (·.2)

def keys (r : Rows S L P E) : List ℕ := r.state.map (·.1)

/-- Removing the row that a name finds takes out that row and nothing else. -/
theorem remove_spec (h : r.get uid = some slot) :
    ∃ front back, r.state = front ++ (uid, slot) :: back ∧
      (r.remove uid).state = front ++ back := by
  rw [get, Option.map_eq_some_iff] at h
  obtain ⟨⟨u, s⟩, hfind, rfl⟩ := h
  rw [List.find?_eq_some_iff_append] at hfind
  obtain ⟨hu, front, back, hstate, hfront⟩ := hfind
  obtain rfl : u = uid := eq_of_beq hu
  refine ⟨front, back, hstate, ?_⟩
  have hrest : ∀ row ∈ front, ¬(row.1 == u) = true := by simpa using hfront
  rw [remove, hstate]
  show (front ++ (u, s) :: back).eraseP (fun row => row.1 == u) = front ++ back
  rw [List.eraseP_append_right _ hrest, List.eraseP_cons, hu, cond_true]

end Rows

namespace Stage

/-- Jobs in the worker's hands. -/
def jobs : Stage S L P E → List (Job S L P E)
  | abortWaiting kept => kept
  | admission evicted | evict _ _ evicted | preempting _ _ _ evicted | take _ _ evicted
  | refused _ evicted | closeAdmit evicted => evicted
  | accepting job evicted | requeue job evicted => job :: evicted
  | _ => []

def prefills : Stage S L P E → List (Prefill S L P E)
  | abortPrefills kept => kept
  | abortPrefill p kept => p :: kept
  | _ => []

def slots : Stage S L P E → List (Slot S L P E)
  | flushing slot _ _ | preempting slot _ _ _ => [slot]
  | _ => []

/-- Reserved blocks whose owner is in no table yet, or no longer. -/
def blocks : Stage S L P E → ℕ
  | abortPrefills kept => (kept.map (·.blocks)).sum
  | abortPrefill p kept => p.blocks + (kept.map (·.blocks)).sum
  | flushing slot _ _ | preempting slot _ _ _ => slot.blocks
  | take job _ _ | accepting job _ | requeue job _ => job.blocks
  | refused blocks _ => blocks
  | _ => 0

/-- Jobs in hand that still count as waiting. -/
def queued : Stage S L P E → ℕ
  | abortWaiting kept => kept.length
  | _ => 0

end Stage

namespace World

variable (w : World S L P E)

def blocksHeld : ℕ := (w.rows.slots.map (·.blocks)).sum + (w.prefills.map (·.blocks)).sum

/-- The requests the batcher still owes an end. -/
def owed : List ℕ :=
  (w.submitting ++ w.channel ++ w.waiting ++ w.stage.jobs).map (·.abort) ++
    (w.prefills ++ w.stage.prefills).map (·.abort) ++ (w.rows.slots ++ w.stage.slots).map (·.abort)

/-- The requests that were sent an end, once for each time. -/
def ended : List ℕ := (w.sent.filter fun e => e.2.isFinished).map (·.1)

def queueLength : ℕ := w.submitting.length + w.channel.length + w.waiting.length + w.stage.queued

/-- Nothing is lost and nothing is counted twice. -/
structure Books (config : BatcherConfig) (w : World S L P E) : Prop where
  ledger : ∀ total, config.kvBlocks = some total → w.free + w.blocksHeld + w.stage.blocks = total
  gate : w.depth = w.queueLength
  once : ∀ id, w.owed.count id + w.ended.count id = if id < w.nextId then 1 else 0

end World

theorem sendChunk_finished (text : Text) :
    (sendChunk text : List (BatcherEvent E)).filter BatcherEvent.isFinished = [] := by
  rw [sendChunk]
  split <;> rfl

theorem Answer.reply_finished (a : Answer S) (finish : FinishReason) (error : Option (RowError E)) :
    ∃ result, (a.reply finish error).filter BatcherEvent.isFinished = [.finished result] := by
  cases error with
  | some e => exact ⟨_, rfl⟩
  | none =>
    rw [reply, List.filter_append, sendChunk_finished]
    exact ⟨_, rfl⟩

theorem Answer.applyStopBuffer_finished (a : Answer S) (piece : Text) :
    (a.applyStopBuffer piece : _ × _ × List (BatcherEvent E)).2.2.filter
      BatcherEvent.isFinished = [] := by
  rw [applyStopBuffer]
  split <;> exact sendChunk_finished _

theorem Slot.decodeStep_finished (s : Slot S L P E) :
    (s.decodeStep decoder).2.filter BatcherEvent.isFinished = [] := by
  have hcommit : ∀ (s : Slot S L P E) next,
      (s.commit next).2.filter BatcherEvent.isFinished = [] := by
    intro s next
    rw [commit]
    split
    · rfl
    dsimp only
    split
    · rfl
    · exact Answer.applyStopBuffer_finished _ _
  have hsample : s.sample.2.filter BatcherEvent.isFinished = [] := by
    rw [sample]
    split
    · rfl
    · rfl
    · exact hcommit _ _
  rw [decodeStep]
  split
  · dsimp only
    split <;> exact hsample
  · rfl

theorem Slot.commit_fields (s : Slot S L P E) (next : ℕ) :
    (s.commit next).1.abort = s.abort ∧ (s.commit next).1.blocks = s.blocks := by
  rw [commit]
  split
  · exact ⟨rfl, rfl⟩
  dsimp only
  split <;> exact ⟨rfl, rfl⟩

theorem Slot.decodeStep_fields (s : Slot S L P E) :
    (s.decodeStep decoder).1.abort = s.abort ∧ (s.decodeStep decoder).1.blocks = s.blocks := by
  have hsample : s.sample.1.abort = s.abort ∧ s.sample.1.blocks = s.blocks := by
    rw [sample]
    split
    · exact ⟨rfl, rfl⟩
    · exact ⟨rfl, rfl⟩
    · exact commit_fields _ _
  rw [decodeStep]
  split
  · dsimp only
    split
    · exact hsample
    · exact hsample
  · exact ⟨rfl, rfl⟩

/-- What the end of one request adds to the record. -/
theorem filter_post (id : ℕ) (events : List (BatcherEvent E)) :
    ((post id events).filter fun e => e.2.isFinished).map (·.1) =
      (events.filter BatcherEvent.isFinished).map fun _ => id := by
  rw [post, List.filter_map, List.map_map]
  rfl

namespace World

variable {w : World S L P E} {o : Oracle S L P E}

theorem ended_post {sent : List (ℕ × BatcherEvent E)} {id : ℕ} {events : List (BatcherEvent E)} :
    ((sent ++ post id events).filter fun e => e.2.isFinished).map (·.1) =
      (sent.filter fun e => e.2.isFinished).map (·.1) ++
        (events.filter BatcherEvent.isFinished).map fun _ => id := by
  rw [List.filter_append, List.map_append, filter_post]

/-- The requests of a world that differs in what is held and sent. -/
theorem Books.of_work {w' : World S L P E} (h : w.Books config)
    (hl : w'.free + w'.blocksHeld + w'.stage.blocks = w.free + w.blocksHeld + w.stage.blocks)
    (hg : w'.depth + w.queueLength = w.depth + w'.queueLength)
    (ho : ∀ id, w'.owed.count id + w'.ended.count id = w.owed.count id + w.ended.count id)
    (hn : w'.nextId = w.nextId) : w'.Books config := by
  obtain ⟨hledger, hgate, honce⟩ := h
  refine ⟨fun total ht => hl.trans (hledger total ht), by omega, fun id => ?_⟩
  rw [ho, hn]
  exact honce id

theorem goto_books {stage : Stage S L P E} (h : w.Books config)
    (hb : stage.blocks = w.stage.blocks) (hj : stage.jobs = w.stage.jobs)
    (hp : stage.prefills = w.stage.prefills) (hs : stage.slots = w.stage.slots)
    (hq : stage.queued = w.stage.queued) : (w.goto stage).Books config := by
  apply h.of_work
  · show w.free + w.blocksHeld + stage.blocks = _
    rw [hb]
  · show w.depth + w.queueLength = w.depth + (_ + stage.queued)
    rw [hq]
    rfl
  · intro id
    show List.count id ((_ ++ stage.jobs).map _ ++ (_ ++ stage.prefills).map _ ++
      (_ ++ stage.slots).map _) + _ = _
    rw [hj, hp, hs]
    rfl
  · rfl

theorem init_books : (init config : World S L P E).Books config := by
  refine ⟨fun total ht => ?_, rfl, fun id => rfl⟩
  rw [init, ht]
  rfl

/-- The release of blocks that were reserved never meets the clamp. -/
theorem releaseBlocks_of_le {total free blocks : ℕ} (ht : config.kvBlocks = some total)
    (h : free + blocks ≤ total) : releaseBlocks config.kvBlocks free blocks = free + blocks := by
  rw [ht]
  exact min_eq_left h

theorem tryReserve_eq_some {total free blocks free' : ℕ} (ht : config.kvBlocks = some total)
    (h : tryReserve config.kvBlocks free blocks = some free') : free' + blocks = free := by
  rw [ht, tryReserve] at h
  split at h
  · cases h
  · cases h
    omega

theorem top_books (h : w.Books config) (hs : w.stage = .top) :
    (w.work decoder config o).Books config := by
  rw [work, hs]
  dsimp only
  split
  · split
    · exact h
    · rename_i hidle _ job channel hc
      have hw : w.waiting = [] := by
        simp only [Bool.and_eq_true, List.isEmpty_iff] at hidle
        exact hidle.2
      obtain ⟨hl, hg, ho⟩ := h
      refine ⟨fun total ht => ?_, ?_, fun id => ?_⟩
      · have hl := hl total ht
        simpa [blocksHeld, hs, Stage.blocks] using hl
      · simp [queueLength, hs, hw, hc, Stage.queued] at hg ⊢
        omega
      · rw [← ho id]
        simp [owed, ended, hs, hw, hc, Stage.jobs, Stage.prefills, Stage.slots, List.count_cons]
        omega
  · apply goto_books h <;> rw [hs] <;> rfl

theorem drain_books (h : w.Books config) (hs : w.stage = .drain) :
    (w.work decoder config o).Books config := by
  rw [work, hs]
  dsimp only
  split
  · apply goto_books h <;> rw [hs] <;> rfl
  · rename_i job channel hc
    obtain ⟨hl, hg, ho⟩ := h
    rw [hs] at hl
    refine ⟨hl, ?_, fun id => ?_⟩
    · simp [queueLength, hs, hc, Stage.queued] at hg ⊢
      omega
    · rw [← ho id]
      simp [owed, ended, hs, hc, Stage.jobs, Stage.prefills, Stage.slots, List.count_cons]
      omega

theorem aborts_books (h : w.Books config) (hs : w.stage = .aborts) :
    (w.work decoder config o).Books config := by
  obtain ⟨hl, hg, ho⟩ := h
  rw [work, hs]
  rw [hs] at hl
  rw [queueLength, hs] at hg
  dsimp only
  by_cases hc : w.carried ∪ w.inbox = ∅
  · rw [if_pos hc]
    refine ⟨hl, hg, fun id => ?_⟩
    have ho := ho id
    rw [owed, hs] at ho
    exact ho
  · rw [if_neg hc]
    refine ⟨hl, hg, fun id => ?_⟩
    have ho := ho id
    rw [owed, hs] at ho
    exact ho

theorem abortWaiting_books {kept : List (Job S L P E)} (h : w.Books config)
    (hs : w.stage = .abortWaiting kept) : (w.work decoder config o).Books config := by
  obtain ⟨hl, hg, ho⟩ := h
  rw [work, hs]
  dsimp only
  cases hw : w.waiting with
  | nil =>
    refine ⟨fun total ht => ?_, ?_, fun id => ?_⟩
    · have hl := hl total ht
      simpa [blocksHeld, hs, Stage.blocks] using hl
    · simpa [queueLength, hs, hw, Stage.queued] using hg
    · rw [← ho id]
      simp [owed, ended, hs, hw, Stage.jobs, Stage.prefills, Stage.slots]
  | cons job waiting =>
    dsimp only
    split
    · have hreply : ∃ result, (abortReply job).filter BatcherEvent.isFinished =
          [.finished result] := by
        rw [abortReply]
        split
        · exact Answer.reply_finished _ _ _
        · exact ⟨_, rfl⟩
      obtain ⟨result, hreply⟩ := hreply
      refine ⟨fun total ht => ?_, ?_, fun id => ?_⟩
      · have hl := hl total ht
        simpa [blocksHeld, hs, Stage.blocks] using hl
      · simp [queueLength, hs, hw, Stage.queued] at hg ⊢
        omega
      · rw [← ho id, ended, ended_post, hreply]
        simp [owed, ended, hs, hw, Stage.jobs, Stage.prefills, Stage.slots, List.count_cons]
        omega
    · refine ⟨fun total ht => ?_, ?_, fun id => ?_⟩
      · have hl := hl total ht
        simpa [blocksHeld, hs, Stage.blocks] using hl
      · simp [queueLength, hs, hw, Stage.queued] at hg ⊢
        omega
      · rw [← ho id]
        simp [owed, ended, hs, hw, Stage.jobs, Stage.prefills, Stage.slots, List.count_cons]
        omega

theorem abortPrefills_books {kept : List (Prefill S L P E)} (h : w.Books config)
    (hs : w.stage = .abortPrefills kept) : (w.work decoder config o).Books config := by
  obtain ⟨hl, hg, ho⟩ := h
  rw [work, hs]
  dsimp only
  cases hw : w.prefills with
  | nil =>
    refine ⟨fun total ht => ?_, ?_, fun id => ?_⟩
    · have hl := hl total ht
      simpa [blocksHeld, hs, hw, Stage.blocks, Nat.add_assoc] using hl
    · simpa [queueLength, hs, Stage.queued] using hg
    · rw [← ho id]
      simp [owed, ended, hs, hw, Stage.jobs, Stage.prefills, Stage.slots]
  | cons p prefills =>
    dsimp only
    split <;> refine ⟨fun total ht => ?_, ?_, fun id => ?_⟩
    · have hl := hl total ht
      simp [blocksHeld, hs, hw, Stage.blocks] at hl ⊢
      omega
    · simpa [queueLength, hs, Stage.queued] using hg
    · rw [← ho id]
      simp [owed, ended, hs, hw, Stage.jobs, Stage.prefills, Stage.slots, List.count_cons]
      omega
    · have hl := hl total ht
      simp [blocksHeld, hs, hw, Stage.blocks] at hl ⊢
      omega
    · simpa [queueLength, hs, Stage.queued] using hg
    · rw [← ho id]
      simp [owed, ended, hs, hw, Stage.jobs, Stage.prefills, Stage.slots, List.count_cons]
      omega

theorem abortPrefill_books {p : Prefill S L P E} {kept : List (Prefill S L P E)}
    (h : w.Books config) (hs : w.stage = .abortPrefill p kept) :
    (w.work decoder config o).Books config := by
  obtain ⟨hl, hg, ho⟩ := h
  obtain ⟨result, hreply⟩ := p.answer.reply_finished (E := E) .cancelled none
  rw [hs, Stage.blocks] at hl
  rw [work, hs]
  dsimp only
  refine ⟨fun total ht => ?_, ?_, fun id => ?_⟩
  · have hl := hl total ht
    rw [releaseBlocks_of_le ht (by omega)]
    simp [blocksHeld, Stage.blocks] at hl ⊢
    omega
  · simpa [queueLength, hs, Stage.queued] using hg
  · rw [← ho id, ended, ended_post, hreply]
    simp [owed, ended, hs, Stage.jobs, Stage.prefills, Stage.slots, List.count_cons]
    omega

theorem markRows_books (h : w.Books config) (hs : w.stage = .markRows) :
    (w.work decoder config o).Books config := by
  obtain ⟨hl, hg, ho⟩ := h
  rw [work, hs]
  have hfield : ∀ {α : Type} (f : Slot S L P E → α), (∀ slot finish, f { slot with finish } = f slot) →
      (w.rows.markCancelled w.carried).2.slots.map f = w.rows.slots.map f := by
    intro α f hf
    rw [Rows.markCancelled, Rows.mapSlots, Rows.slots, Rows.slots, List.map_map, List.map_map,
      List.map_map]
    apply List.map_congr_left
    rintro ⟨uid, slot⟩ -
    simp only [Function.comp_apply]
    split
    · exact hf slot _
    · rfl
  refine ⟨fun total ht => ?_, ?_, fun id => ?_⟩
  · have hl := hl total ht
    rw [blocksHeld, hs] at hl
    rw [blocksHeld, hfield _ fun _ _ => rfl]
    exact hl
  · rw [queueLength, hs] at hg
    exact hg
  · have ho := ho id
    rw [owed, hs] at ho
    rw [owed]
    simp only [List.map_append] at ho ⊢
    rw [hfield _ fun _ _ => rfl]
    exact ho

theorem flush_books {next : AfterFlush} (h : w.Books config) (hs : w.stage = .flush next) :
    (w.work decoder config o).Books config := by
  rw [work, hs]
  dsimp only
  split
  · cases next <;> apply goto_books h <;> rw [hs] <;> rfl
  · split
    · exact h
    · rename_i uid finish _ _ slot hget
      obtain ⟨front, back, hstate, hrest⟩ := Rows.remove_spec hget
      obtain ⟨hl, hg, ho⟩ := h
      refine ⟨fun total ht => ?_, ?_, fun id => ?_⟩
      · have hl := hl total ht
        simp [blocksHeld, Rows.slots, hs, hstate, hrest, Stage.blocks] at hl ⊢
        omega
      · simpa [queueLength, hs, Stage.queued] using hg
      · rw [← ho id]
        simp [owed, ended, Rows.slots, hs, hstate, hrest, Stage.jobs, Stage.prefills, Stage.slots,
          List.count_cons]

theorem flushing_books {slot : Slot S L P E} {finish : FinishReason} {next : AfterFlush}
    (h : w.Books config)
    (hs : w.stage = .flushing slot finish next) : (w.work decoder config o).Books config := by
  obtain ⟨hl, hg, ho⟩ := h
  obtain ⟨result, hreply⟩ := slot.answer.reply_finished finish slot.error
  rw [hs, Stage.blocks] at hl
  rw [work, hs]
  dsimp only
  refine ⟨fun total ht => ?_, ?_, fun id => ?_⟩
  · have hl := hl total ht
    rw [releaseBlocks_of_le ht (by omega)]
    simp [blocksHeld, Stage.blocks] at hl ⊢
    omega
  · simpa [queueLength, hs, Stage.queued] using hg
  · rw [← ho id, ended, ended_post, Slot.replyFinished, hreply]
    simp [owed, ended, hs, Stage.jobs, Stage.prefills, Stage.slots, List.count_cons]
    omega

/-- A job that was given blocks is still in the queue. -/
theorem reserved_books {job : Job S L P E} {free pick : ℕ} {evicted : List (Job S L P E)}
    (h : w.Books config)
    (hj : w.stage.jobs = evicted) (hb : w.stage.blocks = 0) (hp : w.stage.prefills = [])
    (hsl : w.stage.slots = []) (hq : w.stage.queued = 0)
    (hr : tryReserve config.kvBlocks w.free job.blocks = some free) :
    ({ w with free, stage := .take job pick evicted } : World S L P E).Books config := by
  obtain ⟨hl, hg, ho⟩ := h
  refine ⟨fun total ht => ?_, ?_, fun id => ?_⟩
  · have hl := hl total ht
    have hfree := tryReserve_eq_some ht hr
    rw [hb] at hl
    show free + w.blocksHeld + job.blocks = total
    omega
  · rw [queueLength, hq] at hg
    exact hg
  · have ho := ho id
    rw [owed, hj, hp, hsl] at ho
    exact ho

theorem admission_books {evicted : List (Job S L P E)} (h : w.Books config) (hs : w.stage = .admission evicted) :
    (w.work decoder config o).Books config := by
  have hgoto : ∀ stage : Stage S L P E, stage.jobs = evicted → stage.blocks = 0 →
      stage.prefills = [] → stage.slots = [] → stage.queued = 0 → (w.goto stage).Books config := by
    intro stage hj hb hp hsl hq
    apply goto_books h <;> rw [hs] <;> assumption
  rw [work, hs]
  dsimp only
  split
  · exact hgoto _ rfl rfl rfl rfl rfl
  rw [admitHead]
  dsimp only
  split
  · exact hgoto _ rfl rfl rfl rfl rfl
  split
  · exact hgoto _ rfl rfl rfl rfl rfl
  split
  · rename_i free hr
    split at hr
    swap
    · cases hr
    apply reserved_books h _ _ _ _ _ hr <;> rw [hs] <;> rfl
  · split
    · exact hgoto _ rfl rfl rfl rfl rfl
    · exact hgoto _ rfl rfl rfl rfl rfl

theorem evict_books {uids : List ℕ} {pick : ℕ} {evicted : List (Job S L P E)}
    (h : w.Books config)
    (hs : w.stage = .evict uids pick evicted) : (w.work decoder config o).Books config := by
  rw [work, hs]
  cases uids with
  | nil =>
    dsimp only
    rw [reserveRoom]
    split
    · apply goto_books h <;> rw [hs] <;> rfl
    split
    · rename_i free hr
      apply reserved_books h _ _ _ _ _ hr <;> rw [hs] <;> rfl
    · apply goto_books h <;> rw [hs] <;> rfl
  | cons uid uids =>
    dsimp only
    split
    · apply goto_books h <;> rw [hs] <;> rfl
    · rename_i slot hget
      obtain ⟨front, back, hstate, hrest⟩ := Rows.remove_spec hget
      obtain ⟨hl, hg, ho⟩ := h
      refine ⟨fun total ht => ?_, ?_, fun id => ?_⟩
      · have hl := hl total ht
        simp [blocksHeld, Rows.slots, hs, hstate, hrest, Stage.blocks] at hl ⊢
        omega
      · simpa [queueLength, hs, Stage.queued] using hg
      · rw [← ho id]
        simp [owed, ended, Rows.slots, hs, hstate, hrest, Stage.jobs, Stage.prefills, Stage.slots,
          List.count_cons]

theorem preempting_books {slot : Slot S L P E} {uids : List ℕ} {pick : ℕ}
    {evicted : List (Job S L P E)} (h : w.Books config)
    (hs : w.stage = .preempting slot uids pick evicted) :
    (w.work decoder config o).Books config := by
  obtain ⟨hl, hg, ho⟩ := h
  rw [hs, Stage.blocks] at hl
  rw [work, hs]
  dsimp only
  refine ⟨fun total ht => ?_, ?_, fun id => ?_⟩
  · have hl := hl total ht
    rw [releaseBlocks_of_le ht (by omega)]
    simp [blocksHeld, Stage.blocks] at hl ⊢
    omega
  · simpa [queueLength, hs, Stage.queued] using hg
  · rw [← ho id]
    have ha : slot.preempt.abort = slot.abort := rfl
    simp [owed, ended, hs, Stage.jobs, Stage.prefills, Stage.slots, List.count_cons, ha]
    omega

theorem waiting_split {job : Job S L P E} {waiting : List (Job S L P E)} {pick : ℕ}
    (h : waiting[pick]? = some job) :
    waiting = waiting.take pick ++ job :: waiting.drop (pick + 1) := by
  obtain ⟨hlt, hget⟩ := List.getElem?_eq_some_iff.mp h
  rw [← hget, ← List.drop_eq_getElem_cons hlt, List.take_append_drop]

theorem take_books {job : Job S L P E} {pick : ℕ} {evicted : List (Job S L P E)}
    (h : w.Books config) (hs : w.stage = .take job pick evicted)
    (hpick : w.waiting[pick]? = some job) : (w.work decoder config o).Books config := by
  obtain ⟨hl, hg, ho⟩ := h
  have hsplit := waiting_split hpick
  have hlen := congrArg List.length hsplit
  rw [hs] at hl
  rw [work, hs]
  dsimp only [takeJob]
  refine ⟨hl, ?_, fun id => ?_⟩
  · simp [queueLength, hs, Stage.queued] at hg hlen ⊢
    omega
  · have hcount := congrArg (fun l => (l.map (·.abort)).count id) hsplit
    have hmap : ((w.waiting.take pick).map fun j => { j with skips := j.skips + 1 }).map (·.abort) =
        (w.waiting.take pick).map (·.abort) := by
      rw [List.map_map]
      rfl
    rw [← ho id]
    simp only [owed, ended, hs, Stage.jobs, Stage.prefills, Stage.slots, List.map_append, hmap,
      List.map_cons, List.count_append, List.count_cons] at hcount ⊢
    omega

theorem accepting_books {job : Job S L P E} {evicted : List (Job S L P E)} (h : w.Books config)
    (hs : w.stage = .accepting job evicted) : (w.work decoder config o).Books config := by
  obtain ⟨hl, hg, ho⟩ := h
  rw [work, hs]
  dsimp only
  rw [acceptJob]
  rcases accept_spec decoder job config.prefillChunk o.paged with
    ⟨k, slides, -, -, ha⟩ | ⟨e, ha, -, -⟩ | ⟨-, ha⟩ <;> rw [ha] <;> dsimp only
  · have hid : (job.intoPrefill decoder config.prefillChunk ⟨job.run.take k, slides⟩).abort =
      job.abort := rfl
    have hb : (job.intoPrefill decoder config.prefillChunk ⟨job.run.take k, slides⟩).blocks =
      job.blocks := rfl
    refine ⟨fun total ht => ?_, ?_, fun id => ?_⟩
    · have hl := hl total ht
      simp [blocksHeld, hs, Stage.blocks, hb] at hl ⊢
      omega
    · simpa [queueLength, hs, Stage.queued] using hg
    · rw [← ho id]
      simp [owed, ended, hs, Stage.jobs, Stage.prefills, Stage.slots, List.count_cons, hid]
      omega
  · have hend : ([.finished (.error e)] : List (BatcherEvent E)).filter BatcherEvent.isFinished =
      [.finished (.error e)] := rfl
    refine ⟨fun total ht => ?_, ?_, fun id => ?_⟩
    · have hl := hl total ht
      simpa [blocksHeld, hs, Stage.blocks] using hl
    · simpa [queueLength, hs, Stage.queued] using hg
    · rw [← ho id, ended, ended_post, hend]
      simp [owed, ended, hs, Stage.jobs, Stage.prefills, Stage.slots, List.count_cons]
      omega
  · refine ⟨fun total ht => ?_, ?_, fun id => ?_⟩
    · have hl := hl total ht
      rw [hs] at hl
      exact hl
    · rw [queueLength, hs] at hg
      exact hg
    · show _ = if id < w.nextId then 1 else 0
      rw [← ho id]
      simp [goto, owed, ended, hs, Stage.jobs, Stage.prefills, Stage.slots, List.count_cons]

theorem refused_books {blocks : ℕ} {evicted : List (Job S L P E)}
    (h : w.Books config)
    (hs : w.stage = .refused blocks evicted) : (w.work decoder config o).Books config := by
  obtain ⟨hl, hg, ho⟩ := h
  rw [hs, Stage.blocks] at hl
  rw [work, hs]
  dsimp only
  refine ⟨fun total ht => ?_, ?_, fun id => ?_⟩
  · have hl := hl total ht
    rw [releaseBlocks_of_le ht (by omega)]
    simp [blocksHeld, Stage.blocks] at hl ⊢
    omega
  · simpa [queueLength, hs, Stage.queued] using hg
  · have ho := ho id
    rw [owed, hs] at ho
    exact ho

theorem requeue_books {job : Job S L P E} {evicted : List (Job S L P E)}
    (h : w.Books config) (hs : w.stage = .requeue job evicted) :
    (w.work decoder config o).Books config := by
  obtain ⟨hl, hg, ho⟩ := h
  rw [hs, Stage.blocks] at hl
  rw [work, hs]
  dsimp only
  refine ⟨fun total ht => ?_, ?_, fun id => ?_⟩
  · have hl := hl total ht
    rw [releaseBlocks_of_le ht (by omega)]
    simp [blocksHeld, Stage.blocks] at hl ⊢
    omega
  · simp [queueLength, hs, Stage.queued] at hg ⊢
    omega
  · rw [← ho id]
    simp [owed, ended, hs, Stage.jobs, Stage.prefills, Stage.slots, List.count_cons]
    omega

theorem closeAdmit_books {evicted : List (Job S L P E)} (h : w.Books config)
    (hs : w.stage = .closeAdmit evicted) : (w.work decoder config o).Books config := by
  obtain ⟨hl, hg, ho⟩ := h
  rw [hs] at hl
  rw [work, hs]
  dsimp only [closeAdmit]
  refine ⟨hl, ?_, fun id => ?_⟩
  · simp [queueLength, hs, Stage.queued] at hg ⊢
    omega
  · have hmap : (w.waiting.map fun j => { j with waited := j.waited + 1 }).map (·.abort) =
        w.waiting.map (·.abort) := by
      rw [List.map_map]
      rfl
    rw [← ho id]
    simp only [owed, ended, hs, Stage.jobs, Stage.prefills, Stage.slots, List.map_append, hmap,
      List.map_reverse, List.count_append, List.count_reverse, List.map_nil, List.count_nil]
    omega

theorem prefill_books (h : w.Books config) (hs : w.stage = .prefill) :
    (w.work decoder config o).Books config := by
  rw [work, hs]
  dsimp only
  rw [prefillChunk]
  cases hp : w.prefills with
  | nil => apply goto_books h <;> rw [hs] <;> rfl
  | cons p prefills =>
    obtain ⟨hl, hg, ho⟩ := h
    dsimp only
    split <;> refine ⟨fun total ht => ?_, ?_, fun id => ?_⟩
    · have hl := hl total ht
      simp [blocksHeld, Rows.slots, Rows.insert, Prefill.intoSlot, hs, hp, Stage.blocks] at hl ⊢
      omega
    · simpa [queueLength, hs, Stage.queued] using hg
    · rw [← ho id]
      simp [owed, ended, Rows.slots, Rows.insert, Prefill.intoSlot, hs, hp, Stage.jobs,
        Stage.prefills, Stage.slots, List.count_cons]
      omega
    · have hl := hl total ht
      simp [blocksHeld, hs, hp, Stage.blocks] at hl ⊢
      omega
    · simpa [queueLength, hs, Stage.queued] using hg
    · rw [← ho id]
      simp [owed, ended, hs, hp, Stage.jobs, Stage.prefills, Stage.slots, List.count_cons]
      omega

/-- Decoding ends no request. -/
theorem flatMap_finished (rows : List (ℕ × Slot S L P E)) :
    ((rows.flatMap fun row => post row.2.abort (row.2.decodeStep decoder).2).filter
      fun e => e.2.isFinished) = [] := by
  induction rows with
  | nil => rfl
  | cons row rows ih =>
    rw [List.flatMap_cons, List.filter_append, ih, List.append_nil, post, List.filter_map]
    exact congrArg (List.map _) (Slot.decodeStep_finished row.2)

theorem decode_books (h : w.Books config) (hs : w.stage = .decode) :
    (w.work decoder config o).Books config := by
  rw [work, hs]
  dsimp only
  rw [decodeRows]
  split
  · apply goto_books h <;> rw [hs] <;> rfl
  have hfield : ∀ {α : Type} (f : Slot S L P E → α),
      (∀ slot : Slot S L P E, f (slot.decodeStep decoder).1 = f slot) →
      (w.rows.mapSlots fun slot => (slot.decodeStep decoder).1).slots.map f =
        w.rows.slots.map f := by
    intro α f hf
    rw [Rows.mapSlots, Rows.slots, Rows.slots, List.map_map, List.map_map, List.map_map]
    apply List.map_congr_left
    rintro ⟨uid, slot⟩ -
    exact hf slot
  obtain ⟨hl, hg, ho⟩ := h
  refine ⟨fun total ht => ?_, ?_, fun id => ?_⟩
  · have hl := hl total ht
    rw [blocksHeld, hs] at hl
    rw [blocksHeld, hfield _ fun slot => (Slot.decodeStep_fields slot).2]
    exact hl
  · rw [queueLength, hs] at hg
    exact hg
  · have ho := ho id
    rw [owed, ended, hs] at ho
    rw [owed, ended]
    simp only [List.map_append, List.filter_append, flatMap_finished, List.append_nil] at ho ⊢
    rw [hfield _ fun slot => (Slot.decodeStep_fields slot).1]
    exact ho

/-- Callers leave the worker's tables alone. -/
theorem reserve_books {request : StepContext S L P E} {blocks : ℕ} (h : w.Books config) :
    (w.reserve config request blocks).Books config := by
  rw [reserve]
  split
  · exact h
  obtain ⟨hl, hg, ho⟩ := h
  refine ⟨hl, ?_, fun id => ?_⟩
  · simp [queueLength] at hg ⊢
    omega
  · have ho := ho id
    simp [owed, ended, List.count_cons] at ho ⊢
    split_ifs at ho ⊢ <;> omega

theorem send_books {i : ℕ} (h : w.Books config) : (w.send i).Books config := by
  rw [send]
  split
  · exact h
  rename_i job hjob
  obtain ⟨hlt, hget⟩ := List.getElem?_eq_some_iff.mp hjob
  have hsplit := waiting_split hjob
  have herase : w.submitting.eraseIdx i = w.submitting.take i ++ w.submitting.drop (i + 1) :=
    List.eraseIdx_eq_take_drop_succ ..
  have hlen := congrArg List.length hsplit
  obtain ⟨hl, hg, ho⟩ := h
  refine ⟨hl, ?_, fun id => ?_⟩
  · simp only [queueLength, herase, List.length_append, List.length_cons, List.length_nil]
      at hg hlen ⊢
    omega
  · have hcount := congrArg (fun l => (l.map (·.abort)).count id) hsplit
    rw [← ho id]
    simp only [owed, ended, herase, List.map_append, List.map_cons, List.count_append,
      List.count_cons, List.map_nil, List.count_nil] at hcount ⊢
    omega

end World

end Frink.Batch
