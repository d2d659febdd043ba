import Mathlib
import Frink.Batch.Row

/-! # The worker loop

One tick drains the channel, applies cancellations, admits, prefills a chunk and decodes. The loop
is a machine whose steps are the source's statements: callers act between any two of them, and
`Stage` says where the worker stands and what it holds in its hands.
-/

namespace Frink.Batch
open Decode

variable {S L P E : Type}

structure BatcherConfig where
  maxSeqs : ℕ
  prefillChunk : ℕ
  maxBatchTokens : ℕ
  maxQueue : ℕ
  kvBlocks : Option ℕ
  preemptAfterTicks : Option ℕ

def MIN_PREFILL_CHUNK : ℕ := 16

/-- Prompt tokens this tick may run. -/
def prefillBudget (maxBatchTokens decodeRows configuredChunk : ℕ) : ℕ :=
  max MIN_PREFILL_CHUNK
    (min (maxBatchTokens - decodeRows) (max configuredChunk MIN_PREFILL_CHUNK))

/-- How many waiting jobs are looked at, and how often one may be passed over. -/
def WINDOW : ℕ := 8

def MAX_SKIPS : ℕ := 4

/-- The deepest hit so far and where it is, up to a job that nothing may overtake. -/
def chooseFrom : ℕ → List (ℕ × ℕ) → ℕ → ℕ → ℕ
  | _, [], best, _ => best
  | i, (depth, skips) :: jobs, best, bestDepth =>
      if MAX_SKIPS ≤ skips then best
      else if bestDepth < depth then chooseFrom (i + 1) jobs i depth
      else chooseFrom (i + 1) jobs best bestDepth

/-- The waiting job to admit next, of those in the window, by depth and skips. -/
def choose : List (ℕ × ℕ) → ℕ
  | [] => 0
  | (depth, skips) :: jobs => if MAX_SKIPS ≤ skips then 0 else chooseFrom 1 jobs 0 depth

/-- The depths come from the radix tree, when there is one. -/
def cacheAwarePick (cachedLen : Option (Job S L P E → ℕ)) (waiting : List (Job S L P E)) : ℕ :=
  match cachedLen with
  | none => 0
  | some len => choose ((waiting.take WINDOW).map fun job => (len job, job.skips))

/-- Takes `blocks` if they are there. -/
def tryReserve (total : Option ℕ) (free blocks : ℕ) : Option ℕ :=
  match total with
  | none => some free
  | some _ => if free < blocks then none else some (free - blocks)

def releaseBlocks (total : Option ℕ) (free blocks : ℕ) : ℕ :=
  match total with
  | none => free
  | some total => min (free + blocks) total

/-- The rows in admission order, each under the identity it was given. -/
structure Rows (S L P E : Type) where
  state : List (ℕ × Slot S L P E)
  nextUid : ℕ

namespace Rows

variable (r : Rows S L P E)

def insert (slot : Slot S L P E) : Rows S L P E :=
  ⟨r.state ++ [(r.nextUid, slot)], r.nextUid + 1⟩

def get (uid : ℕ) : Option (Slot S L P E) :=
  (r.state.find? fun row => row.1 == uid).map (·.2)

def remove (uid : ℕ) : Rows S L P E :=
  { r with state := r.state.eraseP fun row => row.1 == uid }

def mapSlots (f : Slot S L P E → Slot S L P E) : Rows S L P E :=
  { r with state := r.state.map fun row => (row.1, f row.2) }

def isCancelled (ids : Finset ℕ) (slot : Slot S L P E) : Bool :=
  decide (slot.abort ∈ ids) && slot.finish.isNone

/-- Marks the rows that `ids` names, and tells which ids they were. -/
def markCancelled (ids : Finset ℕ) : List ℕ × Rows S L P E :=
  ((r.state.filter fun row => isCancelled ids row.2).map fun row => row.2.abort,
    r.mapSlots fun slot => if isCancelled ids slot then { slot with finish := some .cancelled }
      else slot)

/-- A row that has finished, and how. -/
def firstFinished : Option (ℕ × FinishReason) :=
  r.state.findSome? fun row => row.2.finish.map (row.1, ·)

/-- Rows to evict, newest first, until `fits` holds of what is free and of the seats taken. -/
def victims (fits : ℕ → ℕ → Bool) :
    List (ℕ × Slot S L P E) → ℕ → ℕ → List ℕ × Bool
  | [], free, seats => ([], fits free seats)
  | (uid, slot) :: rows, free, seats =>
      if fits free seats then ([], true)
      else if slot.preemptible then
        let rest := victims fits rows (free + slot.blocks) (seats - 1)
        (uid :: rest.1, rest.2)
      else victims fits rows free seats

end Rows

/-- Whom to evict so that `head` fits: nobody unless it waited long enough and room can be made. -/
def makeRoom (config : BatcherConfig) (rows : Rows S L P E) (prefilling free : ℕ)
    (head : Job S L P E) : List ℕ :=
  match config.preemptAfterTicks with
  | none => []
  | some after =>
      if head.waited < after then []
      else
        let fits := fun free seats =>
          decide (seats < config.maxSeqs) && (config.kvBlocks.isNone || decide (head.blocks ≤ free))
        let (uids, fit) := Rows.victims fits rows.state.reverse free
          (rows.state.length + prefilling)
        if fit then uids else []

/-- Where a flush goes on. -/
inductive AfterFlush where
  | admission
  | top

inductive Stage (S L P E : Type) where
  | top
  | drain
  | aborts
  | abortWaiting (kept : List (Job S L P E))
  | abortPrefills (kept : List (Prefill S L P E))
  | abortPrefill (p : Prefill S L P E) (kept : List (Prefill S L P E))
  | markRows
  | flush (next : AfterFlush)
  | flushing (slot : Slot S L P E) (finish : FinishReason) (next : AfterFlush)
  | admission (evicted : List (Job S L P E))
  | evict (uids : List ℕ) (pick : ℕ) (evicted : List (Job S L P E))
  | preempting (slot : Slot S L P E) (uids : List ℕ) (pick : ℕ) (evicted : List (Job S L P E))
  | take (job : Job S L P E) (pick : ℕ) (evicted : List (Job S L P E))
  | accepting (job : Job S L P E) (evicted : List (Job S L P E))
  | refused (blocks : ℕ) (evicted : List (Job S L P E))
  | requeue (job : Job S L P E) (evicted : List (Job S L P E))
  | closeAdmit (evicted : List (Job S L P E))
  | prefill
  | decode

/-- The whole batcher. `requests` records what each id was submitted with; nothing reads it. -/
structure World (S L P E : Type) where
  submitting : List (Job S L P E)
  channel : List (Job S L P E)
  waiting : List (Job S L P E)
  prefills : List (Prefill S L P E)
  rows : Rows S L P E
  inbox : Finset ℕ
  carried : Finset ℕ
  depth : ℕ
  free : ℕ
  nextId : ℕ
  requests : List (StepContext S L P E)
  sent : List (ℕ × BatcherEvent E)
  stage : Stage S L P E

/-- What the worker cannot compute: the paged store's answers and the depths of cached prompts. -/
structure Oracle (S L P E : Type) where
  paged : Option PagedStore
  cachedLen : Option (Job S L P E → ℕ)

def post (id : ℕ) (events : List (BatcherEvent E)) : List (ℕ × BatcherEvent E) :=
  events.map (id, ·)

namespace World

variable (decoder : Decoder L) (config : BatcherConfig) (w : World S L P E)

def init : World S L P E where
  submitting := []
  channel := []
  waiting := []
  prefills := []
  rows := ⟨[], 0⟩
  inbox := ∅
  carried := ∅
  depth := 0
  free := config.kvBlocks.getD 0
  nextId := 0
  requests := []
  sent := []
  stage := .top

def goto (stage : Stage S L P E) : World S L P E := { w with stage }

/-- A cancelled job that waits holds no cache; what it had produced is its partial answer. -/
def abortReply (job : Job S L P E) : List (BatcherEvent E) :=
  match job.answer with
  | some a => a.reply .cancelled none
  | none => [.finished (.ok (.cancelled, [], [], ⟨job.promptTokens.length, 0⟩))]

/-- The head of the admission loop: a seat and blocks, or room made for the job, or the end. -/
def admitHead (o : Oracle S L P E) (evicted : List (Job S L P E)) : World S L P E :=
  let seated := decide (w.rows.state.length + w.prefills.length < config.maxSeqs)
  if !seated && config.preemptAfterTicks.isNone then w.goto (.closeAdmit evicted)
  else
    let pick := cacheAwarePick o.cachedLen w.waiting
    match w.waiting[pick]? with
    | none => w.goto (.closeAdmit evicted)
    | some job =>
        match (if seated then tryReserve config.kvBlocks w.free job.blocks else none) with
        | some free => { w with free, stage := .take job pick evicted }
        | none =>
            match makeRoom config w.rows w.prefills.length w.free job with
            | [] => w.goto (.closeAdmit evicted)
            | uids => w.goto (.evict uids pick evicted)

/-- The reservation in the room that was made. -/
def reserveRoom (pick : ℕ) (evicted : List (Job S L P E)) : World S L P E :=
  match w.waiting[pick]? with
  | none => w.goto (.closeAdmit evicted)
  | some job =>
      match tryReserve config.kvBlocks w.free job.blocks with
      | some free => { w with free, stage := .take job pick evicted }
      | none => w.goto (.closeAdmit evicted)

/-- Everything the pick jumped is one skip older, and the job has stopped waiting. -/
def takeJob (job : Job S L P E) (pick : ℕ) (evicted : List (Job S L P E)) : World S L P E :=
  { w with
    waiting := ((w.waiting.take pick).map fun j => { j with skips := j.skips + 1 }) ++
      w.waiting.drop (pick + 1)
    depth := w.depth - 1
    stage := .accepting job evicted }

def acceptJob (o : Oracle S L P E) (job : Job S L P E) (evicted : List (Job S L P E)) :
    World S L P E :=
  match accept decoder job config.prefillChunk o.paged with
  | .prefill p => { w with prefills := w.prefills ++ [p], stage := .admission evicted }
  | .refused e =>
      { w with
        sent := w.sent ++ post job.abort [.finished (.error e)]
        stage := .refused job.blocks evicted }
  | .requeue job => w.goto (.requeue job evicted)

/-- Newest first, so the oldest evicted row ends up at the head. -/
def closeAdmit (evicted : List (Job S L P E)) : World S L P E :=
  { w with
    waiting := evicted.reverse ++ w.waiting.map fun j => { j with waited := j.waited + 1 }
    depth := w.depth + evicted.length
    stage := .prefill }

/-- One prefill chunk, round-robin over the prompts. -/
def prefillChunk : World S L P E :=
  match w.prefills with
  | [] => w.goto .decode
  | p :: prefills =>
      let budget := prefillBudget config.maxBatchTokens w.rows.state.length p.state.chunkSize
      let p := { p with state := p.state.stepChunk decoder budget }
      if p.state.isDone then
        { w with prefills, rows := w.rows.insert p.intoSlot, stage := .decode }
      else { w with prefills := prefills ++ [p], stage := .decode }

/-- One token for every ready row. -/
def decodeRows : World S L P E :=
  if w.rows.state.isEmpty then w.goto .top
  else
    { w with
      rows := w.rows.mapSlots fun slot => (slot.decodeStep decoder).1
      sent := w.sent ++ w.rows.state.flatMap fun row =>
        post row.2.abort (row.2.decodeStep decoder).2
      stage := .flush .top }

/-- The worker's next statement. An idle worker waits on the channel. -/
def work (o : Oracle S L P E) : World S L P E :=
  match w.stage with
  | .top =>
      if w.rows.state.isEmpty && w.prefills.isEmpty && w.waiting.isEmpty then
        match w.channel with
        | [] => w
        | job :: channel => { w with channel, waiting := [job], stage := .drain }
      else w.goto .drain
  | .drain =>
      match w.channel with
      | [] => w.goto .aborts
      | job :: channel => { w with channel, waiting := w.waiting ++ [job] }
  | .aborts =>
      let carried := w.carried ∪ w.inbox
      { w with
        carried, inbox := ∅
        stage := if carried = ∅ then .flush .admission else .abortWaiting [] }
  | .abortWaiting kept =>
      match w.waiting with
      | [] => { w with waiting := kept, stage := .abortPrefills [] }
      | job :: waiting =>
          if job.abort ∈ w.carried then
            { w with
              waiting, carried := w.carried.erase job.abort, depth := w.depth - 1
              sent := w.sent ++ post job.abort (abortReply job) }
          else { w with waiting, stage := .abortWaiting (kept ++ [job]) }
  | .abortPrefills kept =>
      match w.prefills with
      | [] => { w with prefills := kept, stage := .markRows }
      | p :: prefills =>
          if p.abort ∈ w.carried then
            { w with
              prefills, carried := w.carried.erase p.abort, stage := .abortPrefill p kept }
          else { w with prefills, stage := .abortPrefills (kept ++ [p]) }
  | .abortPrefill p kept =>
      { w with
        free := releaseBlocks config.kvBlocks w.free p.blocks
        sent := w.sent ++ post p.abort (p.answer.reply .cancelled none)
        stage := .abortPrefills kept }
  | .markRows =>
      let marked := w.rows.markCancelled w.carried
      { w with
        rows := marked.2, carried := w.carried \ marked.1.toFinset, stage := .flush .admission }
  | .flush next =>
      match w.rows.firstFinished with
      | none => w.goto (match next with | .admission => .admission [] | .top => .top)
      | some (uid, finish) =>
          match w.rows.get uid with
          | none => w
          | some slot =>
              { w with rows := w.rows.remove uid, stage := .flushing slot finish next }
  | .flushing slot finish next =>
      { w with
        free := releaseBlocks config.kvBlocks w.free slot.blocks
        sent := w.sent ++ post slot.abort (slot.replyFinished finish)
        stage := .flush next }
  | .admission evicted =>
      if w.waiting.isEmpty then w.goto (.closeAdmit evicted) else w.admitHead config o evicted
  | .evict [] pick evicted => w.reserveRoom config pick evicted
  | .evict (uid :: uids) pick evicted =>
      match w.rows.get uid with
      | none => w.goto (.evict uids pick evicted)
      | some slot => { w with rows := w.rows.remove uid, stage := .preempting slot uids pick evicted }
  | .preempting slot uids pick evicted =>
      { w with
        free := releaseBlocks config.kvBlocks w.free slot.blocks
        stage := .evict uids pick (evicted ++ [slot.preempt]) }
  | .take job pick evicted => w.takeJob job pick evicted
  | .accepting job evicted => w.acceptJob decoder config o job evicted
  | .refused blocks evicted =>
      { w with
        free := releaseBlocks config.kvBlocks w.free blocks, stage := .admission evicted }
  | .requeue job evicted =>
      { w with
        free := releaseBlocks config.kvBlocks w.free job.blocks
        depth := w.depth + 1
        waiting := job :: w.waiting
        stage := .closeAdmit evicted }
  | .closeAdmit evicted => w.closeAdmit evicted
  | .prefill => w.prefillChunk decoder config
  | .decode => w.decodeRows decoder

/-- A caller claims a place in the queue, unless the queue is full. -/
def reserve (request : StepContext S L P E) (blocks : ℕ) : World S L P E :=
  if config.maxQueue ≤ w.depth then w
  else
    { w with
      depth := w.depth + 1, nextId := w.nextId + 1, requests := w.requests ++ [request]
      submitting := w.submitting ++ [⟨request.promptIds, request, w.nextId, blocks, 0, 0, none⟩] }

/-- One of the callers that hold a claim sends its job. -/
def send (i : ℕ) : World S L P E :=
  match w.submitting[i]? with
  | none => w
  | some job =>
      { w with submitting := w.submitting.eraseIdx i, channel := w.channel ++ [job] }

def cancel (id : ℕ) : World S L P E := { w with inbox := insert id w.inbox }

end World

/-- What can happen next: a caller acts, or the worker does. -/
inductive Action (S L P E : Type) where
  | reserve (request : StepContext S L P E) (blocks : ℕ)
  | send (i : ℕ)
  | cancel (id : ℕ)
  | work (o : Oracle S L P E)

def World.act (decoder : Decoder L) (config : BatcherConfig) (w : World S L P E) :
    Action S L P E → World S L P E
  | .reserve request blocks => w.reserve config request blocks
  | .send i => w.send i
  | .cancel id => w.cancel id
  | .work o => w.work decoder config o

def World.run (decoder : Decoder L) (config : BatcherConfig) (w : World S L P E)
    (actions : List (Action S L P E)) : World S L P E :=
  actions.foldl (World.act decoder config) w

end Frink.Batch
