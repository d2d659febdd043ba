import Frink.Batch.Row

/-! # Where a request stands against the uninterrupted one

A job, a prefill or a slot is the uninterrupted request after some number of steps, with what its
caller was sent so far. Accepting, prefilling, preempting and decoding keep it so.
-/

/-! ## A request on its own

What a request decodes to when nothing interrupts it. A row of the batch is such a row up to what
no step of it reads: whose request it is, what it reserved and how often it was preempted.
-/

namespace Frink.Batch
open Decode

variable {S L P E : Type} {decoder : Decoder L}

/-- The prompt as it is run. -/
def asRun (prompt : List ℕ) : List ℕ := if prompt.isEmpty then [0] else prompt

/-- The row of a request that has run its prompt. -/
def Slot.first (decoder : Decoder L) (request : StepContext S L P E) : Slot S L P E where
  kv := ⟨asRun request.promptIds, false⟩
  pos := (asRun request.promptIds).length
  logits := decoder.logits (asRun request.promptIds)
  answer := .fresh request request.promptIds.length
  promptIds := asRun request.promptIds
  maxTokens := request.params.maxTokens
  request := request
  finish := none
  error := none
  abort := 0
  blocks := 0

/-- The row after `n` decode steps, and what was sent. -/
def solo (decoder : Decoder L) (request : StepContext S L P E) :
    ℕ → Slot S L P E × List (BatcherEvent E)
  | 0 => (.first decoder request, [])
  | n + 1 =>
      let row := solo decoder request n
      ((row.1.decodeStep decoder).1, row.2 ++ (row.1.decodeStep decoder).2)

/-- What the caller of an uninterrupted request is sent. -/
def SoloEnds (decoder : Decoder L) (request : StepContext S L P E)
    (events : List (BatcherEvent E)) : Prop :=
  ∃ n finish, (solo decoder request n).1.finish = some finish ∧
    events = (solo decoder request n).2 ++ (solo decoder request n).1.replyFinished finish

namespace Slot

/-- The same row with another owner, reservation, window and number of preemptions. -/
def relabel (s : Slot S L P E) (abort blocks preemptions : ℕ) (slides : Bool) : Slot S L P E :=
  { s with
    abort, blocks
    kv := { s.kv with slides }
    answer := { s.answer with preemptions } }

variable {s : Slot S L P E} {abort blocks preemptions : ℕ} {slides : Bool}

theorem relabel_commit (next : ℕ) :
    (s.relabel abort blocks preemptions slides).commit next =
      ((s.commit next).1.relabel abort blocks preemptions slides, (s.commit next).2) := by
  rw [commit, commit]
  by_cases hstop : (!s.request.params.ignoreEos && s.request.stopTokens.contains next ||
      s.answer.stops.isStopToken next) = true
  · rw [if_pos hstop]
    exact if_pos hstop
  · rw [if_neg hstop]
    refine (if_neg hstop).trans ?_
    dsimp only
    by_cases hp : (s.answer.utf8.push (s.request.decodeOne [next])).1.isEmpty = true
    · rw [if_pos hp]
      exact if_pos hp
    · rw [if_neg hp]
      refine (if_neg hp).trans ?_
      rw [Answer.applyStopBuffer, Answer.applyStopBuffer]
      dsimp only [relabel]
      cases (s.answer.stops.push (s.answer.utf8.push (s.request.decodeOne [next])).1).1 <;> rfl

theorem relabel_sample :
    (s.relabel abort blocks preemptions slides).sample =
      (s.sample.1.relabel abort blocks preemptions slides, s.sample.2) := by
  rw [sample, sample]
  dsimp only [relabel]
  cases s.request.sampleNext s.answer.sample s.logits s.promptIds s.answer.generatedIds with
  | error e => rfl
  | ok drawn =>
    obtain ⟨next, state⟩ := drawn
    cases next with
    | grammarComplete => rfl
    | token next probs =>
      exact relabel_commit (s := { s with answer := { s.answer with sample := state } }) next

/-- A decode step reads none of it. -/
theorem relabel_decodeStep :
    (s.relabel abort blocks preemptions slides).decodeStep decoder =
      ((s.decodeStep decoder).1.relabel abort blocks preemptions slides,
        (s.decodeStep decoder).2) := by
  rw [decodeStep, decodeStep, relabel_sample]
  by_cases hr : s.isReady = true
  · rw [if_pos hr]
    refine (if_pos hr).trans ?_
    dsimp only
    by_cases hf : s.sample.1.finish.isNone = true
    · rw [if_pos hf]
      exact if_pos hf
    · rw [if_neg hf]
      exact if_neg hf
  · rw [if_neg hr]
    exact if_neg hr

/-- What a decode step leaves of a row, but for its output. -/
structure Frame (s s' : Slot S L P E) : Prop where
  promptIds : s'.promptIds = s.promptIds
  maxTokens : s'.maxTokens = s.maxTokens
  request : s'.request = s.request
  promptTokens : s'.answer.promptTokens = s.answer.promptTokens

/-- Drawing writes no cache; a row that goes on has one token more. -/
theorem commit_spec (s : Slot S L P E) (next : ℕ) :
    Frame s (s.commit next).1 ∧ (s.commit next).1.kv = s.kv ∧ (s.commit next).1.pos = s.pos ∧
      ((s.commit next).1.finish = none → (s.commit next).1.error = s.error ∧
        (s.commit next).1.answer.generatedIds = s.answer.generatedIds ++ [next]) := by
  rw [commit]
  split
  · exact ⟨⟨rfl, rfl, rfl, rfl⟩, rfl, rfl, fun hf => (nomatch hf)⟩
  dsimp only
  split
  · exact ⟨⟨rfl, rfl, rfl, rfl⟩, rfl, rfl, fun _ => ⟨rfl, rfl⟩⟩
  rw [Answer.applyStopBuffer]
  dsimp only
  split <;> exact ⟨⟨rfl, rfl, rfl, rfl⟩, rfl, rfl, fun _ => ⟨rfl, rfl⟩⟩

theorem sample_spec (s : Slot S L P E) :
    Frame s s.sample.1 ∧ s.sample.1.kv = s.kv ∧ s.sample.1.pos = s.pos ∧
      (s.sample.1.finish = none → s.sample.1.error = s.error ∧
        ∃ next, s.sample.1.answer.generatedIds = s.answer.generatedIds ++ [next]) := by
  rw [sample]
  split
  · exact ⟨⟨rfl, rfl, rfl, rfl⟩, rfl, rfl, fun hf => (nomatch hf)⟩
  · exact ⟨⟨rfl, rfl, rfl, rfl⟩, rfl, rfl, fun hf => (nomatch hf)⟩
  · rename_i next _ state _
    obtain ⟨⟨h1, h2, h3, h4⟩, hkv, hpos, hgen⟩ :=
      commit_spec { s with answer := { s.answer with sample := state } } next
    exact ⟨⟨h1, h2, h3, h4⟩, hkv, hpos, fun hf => ⟨(hgen hf).1, next, (hgen hf).2⟩⟩

/-- The cache covers the prompt and everything generated, and the logits are its own. -/
structure Coherent (decoder : Decoder L) (s : Slot S L P E) : Prop where
  tokens : s.kv.tokens = s.promptIds ++ s.answer.generatedIds
  pos : s.pos = s.kv.tokens.length
  logits : s.logits = decoder.logits s.kv.tokens
  error : s.error = none

/-- A row that goes on has fed the token it drew. -/
theorem decodeStep_spec (decoder : Decoder L) (s : Slot S L P E) :
    Frame s (s.decodeStep decoder).1 ∧ (s.finish ≠ none → s.decodeStep decoder = (s, [])) ∧
      (s.Coherent decoder → (s.decodeStep decoder).1.finish = none →
        (s.decodeStep decoder).1.Coherent decoder) := by
  obtain ⟨⟨h1, h2, h3, h4⟩, hkv, hpos, hgen⟩ := sample_spec s
  rw [decodeStep]
  split
  · rename_i hready
    rw [isReady, Bool.and_eq_true, Option.isNone_iff_eq_none] at hready
    dsimp only
    split
    · rename_i hf
      rw [Option.isNone_iff_eq_none] at hf
      refine ⟨⟨h1, h2, h3, h4⟩, fun hne => absurd hready.1 hne, ?_⟩
      rintro ⟨htok, hp, -, he⟩ -
      obtain ⟨herr, next, hnext⟩ := hgen hf
      refine ⟨?_, ?_, rfl, herr.trans he⟩
      · show s.sample.1.kv.tokens ++ s.sample.1.answer.generatedIds.getLast?.toList =
          s.sample.1.promptIds ++ s.sample.1.answer.generatedIds
        rw [hkv, htok, hnext, h1, List.getLast?_concat]
        exact List.append_assoc ..
      · show s.sample.1.pos + 1 = (s.sample.1.kv.tokens ++ _).length
        rw [hpos, hkv, hp, hnext, List.getLast?_concat, List.length_append]
        rfl
    · rename_i hf
      rw [Option.isNone_iff_eq_none] at hf
      exact ⟨⟨h1, h2, h3, h4⟩, fun hne => absurd hready.1 hne, fun _ hnone => absurd hnone hf⟩
  · exact ⟨⟨rfl, rfl, rfl, rfl⟩, fun _ => rfl, fun hc _ => hc⟩

end Slot

variable {request : StepContext S L P E}

theorem solo_frame (decoder : Decoder L) (request : StepContext S L P E) (n : ℕ) : (Slot.first decoder request).Frame (solo decoder request n).1 := by
  induction n with
  | zero => exact ⟨rfl, rfl, rfl, rfl⟩
  | succ n ih =>
    obtain ⟨⟨h1, h2, h3, h4⟩, -, -⟩ := Slot.decodeStep_spec decoder
      (solo decoder request n).1
    exact ⟨h1.trans ih.promptIds, h2.trans ih.maxTokens, h3.trans ih.request,
      h4.trans ih.promptTokens⟩

/-- A row that has finished stays as it is. -/
theorem solo_add {n : ℕ} (h : (solo decoder request n).1.finish ≠ none) (m : ℕ) :
    solo decoder request (n + m) = solo decoder request n := by
  induction m with
  | zero => rfl
  | succ m ih =>
    have hstep := (Slot.decodeStep_spec decoder (solo decoder request n).1).2.1 h
    rw [← Nat.add_assoc, solo, ih, hstep, List.append_nil]

theorem solo_coherent {n : ℕ} (h : (solo decoder request n).1.finish = none) :
    (solo decoder request n).1.Coherent decoder := by
  induction n with
  | zero =>
    refine ⟨?_, rfl, rfl, rfl⟩
    exact (List.append_nil _).symm
  | succ n ih =>
    obtain ⟨-, hdone, hnext⟩ := Slot.decodeStep_spec decoder
      (solo decoder request n).1
    apply hnext _ h
    apply ih
    by_contra hne
    rw [solo, hdone hne] at h
    exact hne h

/-- An uninterrupted request ends in one way. -/
theorem SoloEnds.unique {events events' : List (BatcherEvent E)}
    (h : SoloEnds decoder request events) (h' : SoloEnds decoder request events') :
    events = events' := by
  obtain ⟨n, finish, hf, rfl⟩ := h
  obtain ⟨m, finish', hf', rfl⟩ := h'
  have hsame : solo decoder request n = solo decoder request m := by
    rcases Nat.le_total n m with hle | hle
    · obtain ⟨k, rfl⟩ := Nat.exists_eq_add_of_le hle
      exact (solo_add (by rw [hf]; exact Option.some_ne_none _) k).symm
    · obtain ⟨k, rfl⟩ := Nat.exists_eq_add_of_le hle
      exact solo_add (by rw [hf']; exact Option.some_ne_none _) k
  rw [hsame] at hf ⊢
  rw [hf] at hf'
  cases hf'
  rfl

end Frink.Batch

namespace Frink.Batch
open Decode

variable {S L P E : Type} {decoder : Decoder L} {request : StepContext S L P E}
  {events : List (BatcherEvent E)}

/-- An answer carried between two rows. -/
def Resumes (decoder : Decoder L) (request : StepContext S L P E) (a : Answer S)
    (events : List (BatcherEvent E)) : Prop :=
  ∃ n preemptions, (solo decoder request n).1.finish = none ∧
    a = { (solo decoder request n).1.answer with preemptions } ∧
    events = (solo decoder request n).2

def JobTracks (decoder : Decoder L) (request : StepContext S L P E)
    (events : List (BatcherEvent E)) (job : Job S L P E) : Prop :=
  job.request = request ∧ match job.answer with
    | none => job.promptTokens = request.promptIds ∧ events = []
    | some a => job.promptTokens = asRun request.promptIds ∧
        (∀ t ∈ job.promptTokens, t < decoder.vocabSize) ∧ Resumes decoder request a events

structure PrefillTracks (decoder : Decoder L) (request : StepContext S L P E)
    (events : List (BatcherEvent E)) (p : Prefill S L P E) : Prop where
  request_eq : p.request = request
  valid : ∀ t ∈ asRun request.promptIds, t < decoder.vocabSize
  answer : Resumes decoder request p.answer events
  tokens : p.state.tokens = asRun request.promptIds ++ p.answer.generatedIds
  kv : p.state.kv.tokens = p.state.tokens.take p.state.tokensProcessed
  more : p.state.tokensProcessed < p.state.tokens.length

/-- A row is the uninterrupted one, or it was cancelled. -/
def SlotTracks (decoder : Decoder L) (request : StepContext S L P E)
    (events : List (BatcherEvent E)) (s : Slot S L P E) : Prop :=
  (∀ t ∈ asRun request.promptIds, t < decoder.vocabSize) ∧
    ((∃ n preemptions slides,
        s = (solo decoder request n).1.relabel s.abort s.blocks preemptions slides ∧
          events = (solo decoder request n).2) ∨
      s.finish = some .cancelled ∧ s.error = none)

/-- A request that decoded and was not cancelled. -/
def Decoded : JobResult E → Prop
  | .ok (finish, _) => finish ≠ .cancelled
  | .error (.constraint _) => True
  | .error _ => False

/-- The end of a request is the uninterrupted one, or none that decoding leads to. -/
def EndTracks (decoder : Decoder L) (request : StepContext S L P E)
    (events : List (BatcherEvent E)) : Prop :=
  SoloEnds decoder request events ∨
    ∃ before result, events = before ++ [.finished result] ∧ ¬Decoded result

theorem asRun_ne_nil (prompt : List ℕ) : asRun prompt ≠ [] := by
  rw [asRun]
  split
  · exact List.cons_ne_nil _ _
  · rename_i h
    exact fun hnil => h (List.isEmpty_iff.mpr hnil)

theorem asRun_of_ne_nil {prompt : List ℕ} (h : prompt ≠ []) : asRun prompt = prompt :=
  if_neg fun he => h (List.isEmpty_iff.mp he)

theorem asRun_valid {prompt : List ℕ} (h : ∀ t ∈ prompt, t < decoder.vocabSize) :
    ∀ t ∈ asRun prompt, t < decoder.vocabSize := by
  intro t ht
  rw [asRun] at ht
  split at ht
  · rw [List.mem_singleton.mp ht]
    exact decoder.vocab_pos
  · exact h t ht

/-- Nothing but the owner's answer and request matters to a waiting job. -/
theorem JobTracks.of_eq {job job' : Job S L P E} (h : JobTracks decoder request events job)
    (hr : job'.request = job.request) (hp : job'.promptTokens = job.promptTokens)
    (ha : job'.answer = job.answer) : JobTracks decoder request events job' := by
  rw [JobTracks, hr, hp, ha]
  exact h

/-- An accepted job prefills from where its request stands. -/
theorem JobTracks.intoPrefill {job : Job S L P E} (h : JobTracks decoder request events job)
    (hvalid : ∀ t ∈ job.promptTokens, t < decoder.vocabSize) {k : ℕ}
    (hk : k ≤ job.run.length - 1) (chunk : ℕ) (slides : Bool) :
    PrefillTracks decoder request events
      (job.intoPrefill decoder chunk ⟨job.run.take k, slides⟩) := by
  have hover : ∀ (run prompt gen : List ℕ), run.length - 1 ≥ k → asRun run = prompt ++ gen →
      (PrefillState.overRun decoder ⟨run.take k, slides⟩ run chunk).tokens = prompt ++ gen ∧
      run.take k = (asRun run).take (run.take k).length ∧ (run.take k).length < (asRun run).length := by
    intro run prompt gen hle he
    refine ⟨he, ?_⟩
    rcases List.eq_nil_or_concat run with rfl | ⟨_, _, rfl⟩
    · rw [List.take_nil]
      exact ⟨rfl, Nat.one_pos⟩
    · rw [asRun_of_ne_nil (by simp), List.length_take, Nat.min_eq_left (by omega)]
      refine ⟨rfl, ?_⟩
      simp at hle ⊢
      omega
  obtain ⟨hreq, hrest⟩ := h
  have hprefill := hover job.run
  cases ha : job.answer with
  | none =>
    rw [ha] at hrest
    obtain ⟨hp, rfl⟩ := hrest
    have hrun : job.run = request.promptIds := by
      rw [Job.run, ha, hp]
      exact List.append_nil _
    have hanswer : (job.intoPrefill decoder chunk ⟨job.run.take k, slides⟩).answer =
        .fresh request request.promptIds.length := by
      rw [Job.intoPrefill, ha, hreq, hp]
      rfl
    obtain ⟨htok, hkv, hlt⟩ := hprefill (asRun request.promptIds) [] hk
      (by rw [hrun, List.append_nil])
    refine ⟨hreq, ?_, ⟨0, 0, rfl, hanswer, rfl⟩, ?_, hkv, hlt⟩
    · rw [hp] at hvalid
      exact asRun_valid hvalid
    · rw [hanswer]
      exact htok
  | some a =>
    rw [ha] at hrest
    obtain ⟨hp, hv, hres⟩ := hrest
    have hrun : job.run = asRun request.promptIds ++ a.generatedIds := by
      rw [Job.run, ha, hp]
      rfl
    have hanswer : (job.intoPrefill decoder chunk ⟨job.run.take k, slides⟩).answer = a := by
      rw [Job.intoPrefill, ha]
      rfl
    have hne : job.run ≠ [] := by
      rw [hrun]
      exact fun hnil => asRun_ne_nil _ (List.append_eq_nil_iff.mp hnil).1
    obtain ⟨htok, hkv, hlt⟩ := hprefill (asRun request.promptIds) a.generatedIds hk
      ((asRun_of_ne_nil hne).trans hrun)
    refine ⟨hreq, ?_, ?_, ?_, hkv, hlt⟩
    · rw [hp] at hv
      exact hv
    · rw [hanswer]
      exact hres
    · rw [hanswer]
      exact htok

/-- The rows of a chunk come after the rows of the run so far. -/
theorem push_chunk {kv : RowKv} {tokens : List ℕ} {processed stop : ℕ}
    (h : kv.tokens = tokens.take processed) (hle : processed ≤ stop) :
    (kv.push ((tokens.take stop).drop processed)).tokens = tokens.take stop := by
  have hsplit := List.take_append_drop processed (tokens.take stop)
  rw [List.take_take, Nat.min_eq_left hle] at hsplit
  rw [RowKv.push, h]
  exact hsplit

/-- A chunk moves the cursor along the same run. -/
theorem PrefillTracks.stepChunk {p : Prefill S L P E} (h : PrefillTracks decoder request events p)
    {budget : ℕ} (hdone : (p.state.stepChunk decoder budget).isDone = false) :
    PrefillTracks decoder request events
      { p with state := p.state.stepChunk decoder budget } := by
  have hlt : ∀ s : PrefillState L, s.isDone = false → s.tokensProcessed < s.tokens.length := by
    intro s hs
    rw [PrefillState.isDone, beq_eq_false_iff_ne] at hs
    omega
  have hmore := hlt _ hdone
  obtain ⟨hreq, hvalid, hanswer, htok, hkv, -⟩ := h
  rw [PrefillState.stepChunk] at hmore ⊢
  dsimp only at hmore ⊢
  split at hmore
  · rename_i hle
    rw [if_pos hle]
    exact ⟨hreq, hvalid, hanswer, htok, hkv, hmore⟩
  · rename_i hle
    rw [if_neg hle]
    refine ⟨hreq, hvalid, hanswer, htok, ?_, hmore⟩
    exact push_chunk hkv (Nat.le_of_not_le hle)

/-- The prefill that ends hands over the uninterrupted row. -/
theorem PrefillTracks.intoSlot {p : Prefill S L P E} (h : PrefillTracks decoder request events p)
    {budget : ℕ} (hdone : (p.state.stepChunk decoder budget).isDone = true) :
    SlotTracks decoder request events
      { p with state := p.state.stepChunk decoder budget }.intoSlot := by
  obtain ⟨hreq, hvalid, ⟨n, k, hf, hanswer, rfl⟩, htok, hkv, hmore⟩ := h
  rw [PrefillState.isDone, beq_iff_eq] at hdone
  have hstop : ¬min (p.state.tokensProcessed + budget) p.state.tokens.length ≤
      p.state.tokensProcessed := by
    intro hle
    rw [PrefillState.stepChunk, if_pos hle] at hdone
    omega
  have hstate : (p.state.stepChunk decoder budget).kv.tokens = p.state.tokens ∧
      (p.state.stepChunk decoder budget).logits = decoder.logits p.state.tokens ∧
      (p.state.stepChunk decoder budget).tokensProcessed = p.state.tokens.length := by
    rw [PrefillState.stepChunk, if_neg hstop] at hdone ⊢
    dsimp only at hdone ⊢
    have hlen : min (p.state.tokensProcessed + budget) p.state.tokens.length =
      p.state.tokens.length := by omega
    have hpush := push_chunk hkv (Nat.le_of_not_le hstop)
    rw [hlen] at hpush ⊢
    rw [List.take_length] at hpush ⊢
    exact ⟨hpush, congrArg decoder.logits hpush, rfl⟩
  obtain ⟨hkv', hlogits, hpos⟩ := hstate
  have htokens : (p.state.stepChunk decoder budget).tokens = p.state.tokens := by
    rw [PrefillState.stepChunk]
    split <;> rfl
  have hc := solo_coherent hf
  obtain ⟨hprompt, hmax, hrequest, -⟩ := solo_frame decoder request n
  have hids : p.answer.generatedIds = (solo decoder request n).1.answer.generatedIds := by
    rw [hanswer]
  have hrun : (solo decoder request n).1.kv.tokens = p.state.tokens := by
    rw [hc.tokens, htok, hids, hprompt]
    rfl
  refine ⟨hvalid, Or.inl ⟨n, k, (p.state.stepChunk decoder budget).kv.slides, ?_, rfl⟩⟩
  ext1
  · ext1
    · exact hkv'.trans hrun.symm
    · rfl
  · exact hpos.trans (by rw [← hrun]; exact hc.pos.symm)
  · exact hlogits.trans (by rw [← hrun]; exact hc.logits.symm)
  · exact hanswer
  · show (p.state.stepChunk decoder budget).tokens.take _ = (solo decoder request n).1.promptIds
    rw [htokens, htok, List.length_append, Nat.add_sub_cancel, List.take_left, hprompt]
    rfl
  · show p.request.params.maxTokens = (solo decoder request n).1.maxTokens
    rw [hreq, hmax]
    rfl
  · exact hreq.trans hrequest.symm
  · exact hf.symm
  · exact hc.error.symm
  · rfl
  · rfl

theorem Slot.replyFinished_relabel (s : Slot S L P E) (abort blocks preemptions : ℕ)
    (slides : Bool) (finish : FinishReason) :
    (s.relabel abort blocks preemptions slides).replyFinished finish = s.replyFinished finish := by
  rw [replyFinished, replyFinished]
  show Answer.reply _ finish s.error = _
  cases s.error <;> rfl

theorem Answer.reply_cancelled (a : Answer S) :
    ∃ before result, (a.reply .cancelled none : List (BatcherEvent E)) =
      before ++ [.finished result] ∧ ¬Decoded result :=
  ⟨_, _, rfl, fun h => h rfl⟩

namespace SlotTracks

variable {s : Slot S L P E}

theorem decodeStep (h : SlotTracks decoder request events s) :
    SlotTracks decoder request (events ++ (s.decodeStep decoder).2) (s.decodeStep decoder).1 := by
  obtain ⟨hvalid, ⟨n, k, slides, hs, rfl⟩ | ⟨hf, he⟩⟩ := h
  · rw [hs, Slot.relabel_decodeStep]
    exact ⟨hvalid, Or.inl ⟨n + 1, k, slides, rfl, rfl⟩⟩
  · have hstep := (Slot.decodeStep_spec decoder s).2.1 (by rw [hf]; exact Option.some_ne_none _)
    rw [hstep]
    exact ⟨hvalid, Or.inr ⟨hf, he⟩⟩

/-- A row that goes on is the uninterrupted one, with a cache that covers it. -/
theorem live (h : SlotTracks decoder request events s) (hf : s.finish = none) :
    s.error = none ∧ s.promptIds = asRun request.promptIds ∧
      s.kv.tokens = s.promptIds ++ s.answer.generatedIds ∧ s.pos = s.kv.tokens.length ∧
      s.logits = decoder.logits s.kv.tokens ∧ Resumes decoder request s.answer events := by
  obtain ⟨-, ⟨n, k, slides, hs, rfl⟩ | ⟨hc, -⟩⟩ := h
  · rw [hs] at hf ⊢
    have hc := solo_coherent hf
    exact ⟨hc.error, (solo_frame decoder request n).promptIds, hc.tokens, hc.pos, hc.logits, n, k, hf, rfl, rfl⟩
  · rw [hf] at hc
    cases hc

theorem request_eq (h : SlotTracks decoder request events s) (hf : s.finish = none) :
    s.request = request := by
  obtain ⟨-, ⟨n, k, slides, hs, rfl⟩ | ⟨hc, -⟩⟩ := h
  · rw [hs]
    exact (solo_frame decoder request n).request
  · rw [hf] at hc
    cases hc

/-- The evicted row's job continues it. -/
theorem preempt (h : SlotTracks decoder request events s) (hf : s.finish = none) :
    JobTracks decoder request events s.preempt := by
  obtain ⟨-, hprompt, -, -, -, n, k, hn, ha, he⟩ := h.live hf
  refine ⟨h.request_eq hf, hprompt, ?_, n, s.answer.preemptions + 1, hn, ?_, he⟩
  · show ∀ t ∈ s.promptIds, t < decoder.vocabSize
    rw [hprompt]
    exact h.1
  · rw [ha]

theorem cancel (h : SlotTracks decoder request events s) (hf : s.finish = none) :
    SlotTracks decoder request events { s with finish := some .cancelled } :=
  ⟨h.1, Or.inr ⟨rfl, (h.live hf).1⟩⟩

/-- What is sent to the caller of a row that leaves. -/
theorem ends (h : SlotTracks decoder request events s) {finish : FinishReason}
    (hf : s.finish = some finish) :
    EndTracks decoder request (events ++ s.replyFinished finish) := by
  obtain ⟨-, ⟨n, k, slides, hs, rfl⟩ | ⟨hc, he⟩⟩ := h
  · rw [hs] at hf ⊢
    rw [Slot.replyFinished_relabel]
    exact Or.inl ⟨n, finish, hf, rfl⟩
  · rw [hf] at hc
    cases hc
    obtain ⟨before, result, hreply, hno⟩ := s.answer.reply_cancelled (E := E)
    refine Or.inr ⟨events ++ before, result, ?_, hno⟩
    rw [Slot.replyFinished, he, hreply, List.append_assoc]

end SlotTracks

end Frink.Batch
