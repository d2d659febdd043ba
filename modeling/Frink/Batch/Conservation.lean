import Frink.Batch.Ledger

/-! # Every run of the worker

The books hold after every statement, whatever the callers do in between. Seats are a second
invariant: a job is taken only where a seat was found or made for it.
-/

namespace Frink.Batch
open Decode

variable {S L P E : Type} {decoder : Decoder L} {config : BatcherConfig} {total : ℕ}

namespace Rows

variable {r : Rows S L P E} {uid : ℕ} {slot : Slot S L P E}

theorem mapSlots_keys (f : Slot S L P E → Slot S L P E) : (r.mapSlots f).keys = r.keys := by
  rw [mapSlots, keys, keys, List.map_map]
  rfl

theorem get_of_mem_keys (h : uid ∈ r.keys) : ∃ slot, r.get uid = some slot := by
  obtain ⟨row, hrow, rfl⟩ := List.mem_map.mp h
  cases hf : r.state.find? fun x => x.1 == row.1 with
  | none => exact absurd (beq_self_eq_true row.1) (List.find?_eq_none.mp hf row hrow)
  | some found => exact ⟨found.2, by rw [get, hf]; rfl⟩

/-- A removed row takes its name with it. -/
theorem remove_keys (hn : r.keys.Nodup) (h : r.get uid = some slot) :
    (r.remove uid).keys.Nodup ∧ r.state.length = (r.remove uid).state.length + 1 ∧
      ∀ k, k ∈ (r.remove uid).keys ↔ k ∈ r.keys ∧ k ≠ uid := by
  obtain ⟨front, back, hstate, hrest⟩ := remove_spec h
  have hk : r.keys = front.map (·.1) ++ uid :: back.map (·.1) := by
    rw [keys, hstate, List.map_append, List.map_cons]
  have hk' : (r.remove uid).keys = front.map (·.1) ++ back.map (·.1) := by
    rw [keys, hrest, List.map_append]
  rw [hk] at hn
  have hperm := List.nodup_middle.mp hn
  rw [List.nodup_cons] at hperm
  refine ⟨by rw [hk']; exact hperm.2, ?_, fun k => ?_⟩
  · rw [hstate, hrest]
    simp only [List.length_append, List.length_cons]
    omega
  · rw [hk, hk']
    constructor
    · intro hmem
      refine ⟨?_, fun he => hperm.1 (he ▸ hmem)⟩
      rcases List.mem_append.mp hmem with hmem | hmem
      · exact List.mem_append_left _ hmem
      · exact List.mem_append_right _ (List.mem_cons_of_mem _ hmem)
    · rintro ⟨hmem, hne⟩
      rcases List.mem_append.mp hmem with hmem | hmem
      · exact List.mem_append_left _ hmem
      · rcases List.mem_cons.mp hmem with he | hmem
        · exact absurd he hne
        · exact List.mem_append_right _ hmem

/-- The victims are rows of the table, each once, and without them there is room. -/
theorem victims_spec {fits : ℕ → ℕ → Bool} {rows : List (ℕ × Slot S L P E)} {free seats : ℕ}
    {uids : List ℕ} (h : victims fits rows free seats = (uids, true)) :
    uids.Sublist (rows.map (·.1)) ∧ ∃ free', fits free' (seats - uids.length) = true := by
  induction rows generalizing free seats uids with
  | nil =>
    rw [victims, Prod.mk.injEq] at h
    obtain ⟨rfl, hfit⟩ := h
    exact ⟨List.Sublist.slnil, free, hfit⟩
  | cons row rows ih =>
    obtain ⟨uid, slot⟩ := row
    rw [victims] at h
    split at h
    · rename_i hfit
      rw [Prod.mk.injEq] at h
      obtain ⟨rfl, -⟩ := h
      exact ⟨List.nil_sublist _, free, hfit⟩
    split at h
    · dsimp only at h
      rw [Prod.mk.injEq] at h
      obtain ⟨rfl, hrest⟩ := h
      obtain ⟨hsub, free', hfit⟩ := ih (Prod.ext rfl hrest)
      refine ⟨hsub.cons_cons uid, free', ?_⟩
      rw [List.length_cons, Nat.add_comm, ← Nat.sub_sub]
      exact hfit
    · obtain ⟨hsub, hfit⟩ := ih h
      exact ⟨hsub.cons uid, hfit⟩

end Rows

theorem makeRoom_spec {rows : Rows S L P E} {prefilling free : ℕ} {head : Job S L P E}
    {uids : List ℕ} (hn : rows.keys.Nodup)
    (h : makeRoom config rows prefilling free head = uids) (hne : uids ≠ []) :
    uids.Nodup ∧ (∀ u ∈ uids, u ∈ rows.keys) ∧
      rows.state.length + prefilling < config.maxSeqs + uids.length := by
  rw [makeRoom] at h
  split at h
  · exact absurd h.symm hne
  split at h
  · exact absurd h.symm hne
  dsimp only at h
  split at h
  swap
  · exact absurd h.symm hne
  rename_i hfit
  obtain ⟨hsub, free', hroom⟩ := Rows.victims_spec (Prod.ext h hfit)
  rw [List.map_reverse] at hsub
  refine ⟨hsub.nodup (List.nodup_reverse.mpr hn), fun u hu => ?_, ?_⟩
  · exact List.mem_reverse.mp (hsub.subset hu)
  · rw [Bool.and_eq_true, decide_eq_true_iff] at hroom
    omega

namespace World

variable {w : World S L P E} {o : Oracle S L P E}

/-- Prompts that are between two queues still take a seat. -/
def seats (w : World S L P E) : ℕ :=
  w.rows.state.length + w.prefills.length + match w.stage with
    | .abortPrefills kept | .abortPrefill _ kept => kept.length
    | _ => 0

/-- A seat is there for the job in hand; victims not yet evicted count as seats to come. -/
def Room (config : BatcherConfig) (w : World S L P E) : Prop :=
  match w.stage with
  | .take job pick _ => w.waiting[pick]? = some job ∧
      w.rows.state.length + w.prefills.length < config.maxSeqs
  | .accepting _ _ => w.rows.state.length + w.prefills.length < config.maxSeqs
  | .evict uids _ _ | .preempting _ uids _ _ => uids.Nodup ∧ (∀ u ∈ uids, u ∈ w.rows.keys) ∧
      w.rows.state.length + w.prefills.length < config.maxSeqs + uids.length
  | _ => True

structure Seated (config : BatcherConfig) (w : World S L P E) : Prop where
  nodup : w.rows.keys.Nodup
  named : ∀ k ∈ w.rows.keys, k < w.rows.nextUid
  seats : w.seats ≤ config.maxSeqs
  room : w.Room config

theorem init_seated : (init config : World S L P E).Seated config :=
  ⟨List.nodup_nil, fun _ hk => (nomatch hk), Nat.zero_le _, trivial⟩

theorem Seated.of_rows {w' : World S L P E} (h : w.Seated config) (hr : w'.rows = w.rows)
    (hs : w'.seats ≤ config.maxSeqs) (hroom : w'.Room config) : w'.Seated config :=
  ⟨by rw [hr]; exact h.nodup, by rw [hr]; exact h.named, hs, hroom⟩

/-- Every row keeps its name. -/
theorem Seated.of_mapSlots {w' : World S L P E} (h : w.Seated config)
    (f : Slot S L P E → Slot S L P E) (hr : w'.rows = w.rows.mapSlots f)
    (hs : w'.seats ≤ config.maxSeqs) (hroom : w'.Room config) : w'.Seated config := by
  refine ⟨?_, ?_, hs, hroom⟩ <;> rw [hr, Rows.mapSlots_keys]
  · exact h.nodup
  · exact h.named

theorem Seated.of_remove {w' : World S L P E} {uid : ℕ} {slot : Slot S L P E}
    (h : w.Seated config) (hget : w.rows.get uid = some slot)
    (hr : w'.rows = w.rows.remove uid) (hs : w'.seats ≤ config.maxSeqs)
    (hroom : w'.Room config) : w'.Seated config := by
  obtain ⟨hn, -, hk⟩ := Rows.remove_keys h.nodup hget
  refine ⟨?_, ?_, hs, hroom⟩ <;> rw [hr]
  · exact hn
  · intro k hmem
    exact h.named k ((hk k).mp hmem).1

theorem admission_seated {evicted : List (Job S L P E)} (h : w.Seated config)
    (hs : w.stage = .admission evicted) : (w.work decoder config o).Seated config := by
  have hseats := h.seats
  rw [seats, hs] at hseats
  have hgoto : ∀ stage, (w.goto stage).Room config →
      (w.goto stage).seats = w.rows.state.length + w.prefills.length →
      (w.goto stage).Seated config :=
    fun stage hroom he => h.of_rows rfl (he.le.trans hseats) hroom
  rw [work, hs]
  dsimp only
  split
  · exact hgoto _ trivial rfl
  rw [admitHead]
  dsimp only
  split
  · exact hgoto _ trivial rfl
  split
  · exact hgoto _ trivial rfl
  rename_i job hjob
  split
  · rename_i free hr
    split at hr
    swap
    · cases hr
    rename_i hseat
    exact h.of_rows rfl hseats ⟨hjob, of_decide_eq_true hseat⟩
  · split
    · exact hgoto _ trivial rfl
    · rename_i uids hne
      exact hgoto _ (makeRoom_spec h.nodup rfl hne) rfl

theorem evict_seated {uids : List ℕ} {pick : ℕ} {evicted : List (Job S L P E)}
    (h : w.Seated config) (hs : w.stage = .evict uids pick evicted) :
    (w.work decoder config o).Seated config := by
  have hseats := h.seats
  have hroom := h.room
  rw [seats, hs] at hseats
  rw [Room, hs] at hroom
  obtain ⟨hnodup, hmem, hlt⟩ := hroom
  rw [work, hs]
  cases uids with
  | nil =>
    dsimp only
    rw [reserveRoom]
    split
    · exact h.of_rows rfl hseats trivial
    rename_i job hjob
    split
    · exact h.of_rows rfl hseats ⟨hjob, hlt⟩
    · exact h.of_rows rfl hseats trivial
  | cons uid uids =>
    obtain ⟨slot, hget⟩ := Rows.get_of_mem_keys (hmem uid List.mem_cons_self)
    obtain ⟨-, hlen, hk⟩ := Rows.remove_keys h.nodup hget
    rw [List.nodup_cons] at hnodup
    rw [List.length_cons] at hlt
    dsimp only
    rw [hget]
    have hseats' : (w.rows.remove uid).state.length + w.prefills.length ≤ config.maxSeqs := by
      omega
    refine h.of_remove hget rfl hseats' ⟨hnodup.2, fun u hu => ?_, ?_⟩
    · exact (hk u).mpr ⟨hmem u (List.mem_cons_of_mem _ hu), fun he => hnodup.1 (he ▸ hu)⟩
    · show (w.rows.remove uid).state.length + w.prefills.length < config.maxSeqs + uids.length
      omega

theorem prefill_seated (h : w.Seated config) (hs : w.stage = .prefill) :
    (w.work decoder config o).Seated config := by
  have hseats := h.seats
  rw [seats, hs] at hseats
  rw [work, hs]
  dsimp only
  rw [prefillChunk]
  cases hp : w.prefills with
  | nil => exact h.of_rows rfl hseats trivial
  | cons p prefills =>
    rw [hp, List.length_cons] at hseats
    dsimp only
    split
    · have hstate : ∀ slot, (w.rows.insert slot).state = w.rows.state ++ [(w.rows.nextUid, slot)] :=
        fun _ => rfl
      have hkeys : ∀ slot, (w.rows.insert slot).keys = w.rows.keys ++ [w.rows.nextUid] :=
        fun slot => List.map_append
      refine ⟨?_, ?_, ?_, trivial⟩
      · rw [hkeys, List.nodup_append]
        refine ⟨h.nodup, List.nodup_singleton _, fun a ha b hb => ?_⟩
        have := h.named a ha
        rw [List.mem_singleton.mp hb]
        omega
      · intro k hk
        rw [hkeys, List.mem_append, List.mem_singleton] at hk
        show k < w.rows.nextUid + 1
        rcases hk with hk | rfl
        · have := h.named k hk
          omega
        · omega
      · show (w.rows.insert _).state.length + prefills.length + 0 ≤ config.maxSeqs
        rw [hstate, List.length_append, List.length_singleton]
        omega
    · refine h.of_rows rfl ?_ trivial
      show w.rows.state.length + (prefills ++ [_]).length + 0 ≤ config.maxSeqs
      rw [List.length_append, List.length_singleton]
      omega

theorem abort_seated (h : w.Seated config)
    (hs : (∃ kept, w.stage = .abortWaiting kept) ∨ (∃ kept, w.stage = .abortPrefills kept) ∨
      ∃ p kept, w.stage = .abortPrefill p kept) : (w.work decoder config o).Seated config := by
  have hseats := h.seats
  rcases hs with ⟨kept, hs⟩ | ⟨kept, hs⟩ | ⟨p, kept, hs⟩ <;> rw [seats, hs] at hseats <;>
    rw [work, hs] <;> dsimp only at hseats ⊢
  · cases hw : w.waiting with
    | nil => exact h.of_rows rfl hseats trivial
    | cons job waiting =>
      dsimp only
      split <;> exact h.of_rows rfl hseats trivial
  · cases hp : w.prefills with
    | nil =>
      rw [hp, List.length_nil] at hseats
      refine h.of_rows rfl ?_ trivial
      show w.rows.state.length + kept.length + 0 ≤ config.maxSeqs
      omega
    | cons p prefills =>
      rw [hp, List.length_cons] at hseats
      dsimp only
      split
      · refine h.of_rows rfl ?_ trivial
        show w.rows.state.length + prefills.length + kept.length ≤ config.maxSeqs
        omega
      · refine h.of_rows rfl ?_ trivial
        show w.rows.state.length + prefills.length + (kept ++ [p]).length ≤ config.maxSeqs
        rw [List.length_append, List.length_singleton]
        omega
  · exact h.of_rows rfl hseats trivial

theorem flush_seated {next : AfterFlush} (h : w.Seated config) (hs : w.stage = .flush next) :
    (w.work decoder config o).Seated config := by
  have hseats := h.seats
  rw [seats, hs] at hseats
  rw [work, hs]
  dsimp only at hseats ⊢
  split
  · cases next <;> exact h.of_rows rfl hseats trivial
  split
  · exact h
  · rename_i uid _ _ _ slot hget
    obtain ⟨-, hlen, -⟩ := Rows.remove_keys h.nodup hget
    refine h.of_remove hget rfl ?_ trivial
    show (w.rows.remove uid).state.length + w.prefills.length + 0 ≤ config.maxSeqs
    omega

theorem decode_seated (h : w.Seated config) (hs : w.stage = .decode) :
    (w.work decoder config o).Seated config := by
  have hseats := h.seats
  rw [seats, hs] at hseats
  rw [work, hs]
  dsimp only at hseats ⊢
  rw [decodeRows]
  split
  · exact h.of_rows rfl hseats trivial
  · refine h.of_mapSlots (fun slot => (slot.decodeStep decoder).1) rfl ?_ trivial
    show (w.rows.state.map _).length + w.prefills.length + 0 ≤ config.maxSeqs
    rwa [List.length_map]

theorem accepting_seated {job : Job S L P E} {evicted : List (Job S L P E)}
    (h : w.Seated config) (hs : w.stage = .accepting job evicted) :
    (w.work decoder config o).Seated config := by
  have hseats := h.seats
  have hroom := h.room
  rw [seats, hs] at hseats
  rw [Room, hs] at hroom
  rw [work, hs]
  dsimp only at hseats hroom ⊢
  rw [acceptJob]
  cases accept decoder job config.prefillChunk o.paged with
  | prefill p =>
    refine h.of_rows rfl ?_ trivial
    show w.rows.state.length + (w.prefills ++ [p]).length + 0 ≤ config.maxSeqs
    rw [List.length_append, List.length_singleton]
    omega
  | refused e => exact h.of_rows rfl hseats trivial
  | requeue job => exact h.of_rows rfl hseats trivial

/-- The worker seats nobody beyond the cap. -/
theorem work_seated (h : w.Seated config) : (w.work decoder config o).Seated config := by
  have hseats := h.seats
  have hroom := h.room
  cases hs : w.stage with
  | abortWaiting kept => exact abort_seated h (Or.inl ⟨kept, hs⟩)
  | abortPrefills kept => exact abort_seated h (Or.inr (Or.inl ⟨kept, hs⟩))
  | abortPrefill p kept => exact abort_seated h (Or.inr (Or.inr ⟨p, kept, hs⟩))
  | flush next => exact flush_seated h hs
  | admission evicted => exact admission_seated h hs
  | evict uids pick evicted => exact evict_seated h hs
  | accepting job evicted => exact accepting_seated h hs
  | prefill => exact prefill_seated h hs
  | decode => exact decode_seated h hs
  | top =>
    rw [seats, hs] at hseats
    rw [work, hs]
    dsimp only at hseats ⊢
    split
    · split
      · exact h
      · exact h.of_rows rfl hseats trivial
    · exact h.of_rows rfl hseats trivial
  | drain =>
    rw [seats, hs] at hseats
    rw [work, hs]
    dsimp only at hseats ⊢
    cases w.channel with
    | nil => exact h.of_rows rfl hseats trivial
    | cons job channel => exact h.of_rows rfl hseats trivial
  | aborts =>
    rw [seats, hs] at hseats
    rw [work, hs]
    dsimp only at hseats ⊢
    by_cases hc : w.carried ∪ w.inbox = ∅
    · rw [if_pos hc]
      exact h.of_rows rfl hseats trivial
    · rw [if_neg hc]
      exact h.of_rows rfl hseats trivial
  | markRows =>
    rw [seats, hs] at hseats
    rw [work, hs]
    refine h.of_mapSlots (fun slot => if Rows.isCancelled w.carried slot then
      { slot with finish := some .cancelled } else slot) rfl ?_ trivial
    show (w.rows.state.map _).length + w.prefills.length + 0 ≤ config.maxSeqs
    rwa [List.length_map]
  | flushing slot finish next =>
    rw [seats, hs] at hseats
    rw [work, hs]
    exact h.of_rows rfl hseats trivial
  | preempting slot uids pick evicted =>
    rw [seats, hs] at hseats
    rw [Room, hs] at hroom
    rw [work, hs]
    exact h.of_rows rfl hseats hroom
  | take job pick evicted =>
    rw [seats, hs] at hseats
    rw [Room, hs] at hroom
    rw [work, hs]
    exact h.of_rows rfl hseats hroom.2
  | refused blocks evicted =>
    rw [seats, hs] at hseats
    rw [work, hs]
    exact h.of_rows rfl hseats trivial
  | requeue job evicted =>
    rw [seats, hs] at hseats
    rw [work, hs]
    exact h.of_rows rfl hseats trivial
  | closeAdmit evicted =>
    rw [seats, hs] at hseats
    rw [work, hs]
    exact h.of_rows rfl hseats trivial

theorem work_books (hseat : w.Seated config)
    (h : w.Books config) : (w.work decoder config o).Books config := by
  cases hs : w.stage with
  | top => exact top_books h hs
  | drain => exact drain_books h hs
  | aborts => exact aborts_books h hs
  | abortWaiting kept => exact abortWaiting_books h hs
  | abortPrefills kept => exact abortPrefills_books h hs
  | abortPrefill p kept => exact abortPrefill_books h hs
  | markRows => exact markRows_books h hs
  | flush next => exact flush_books h hs
  | flushing slot finish next => exact flushing_books h hs
  | admission evicted => exact admission_books h hs
  | evict uids pick evicted => exact evict_books h hs
  | preempting slot uids pick evicted => exact preempting_books h hs
  | take job pick evicted =>
    have hroom := hseat.room
    rw [Room, hs] at hroom
    exact take_books h hs hroom.1
  | accepting job evicted => exact accepting_books h hs
  | refused blocks evicted => exact refused_books h hs
  | requeue job evicted => exact requeue_books h hs
  | closeAdmit evicted => exact closeAdmit_books h hs
  | prefill => exact prefill_books h hs
  | decode => exact decode_books h hs

theorem reserve_seated {request : StepContext S L P E} {blocks : ℕ} (h : w.Seated config) :
    (w.reserve config request blocks).Seated config := by
  rw [reserve]
  split
  · exact h
  · exact ⟨h.nodup, h.named, h.seats, h.room⟩

theorem send_seated {i : ℕ} (h : w.Seated config) : (w.send i).Seated config := by
  rw [send]
  split
  · exact h
  · exact ⟨h.nodup, h.named, h.seats, h.room⟩

theorem act_keeps (action : Action S L P E)
    (h : w.Books config ∧ w.Seated config) :
    (w.act decoder config action).Books config ∧ (w.act decoder config action).Seated config := by
  obtain ⟨hbooks, hseated⟩ := h
  cases action with
  | reserve request blocks => exact ⟨reserve_books hbooks, reserve_seated hseated⟩
  | send i => exact ⟨send_books hbooks, send_seated hseated⟩
  | cancel id =>
    exact ⟨⟨hbooks.ledger, hbooks.gate, hbooks.once⟩,
      ⟨hseated.nodup, hseated.named, hseated.seats, hseated.room⟩⟩
  | work o => exact ⟨work_books hseated hbooks, work_seated hseated⟩

theorem run_keeps (actions : List (Action S L P E))
    (h : w.Books config ∧ w.Seated config) :
    (w.run decoder config actions).Books config ∧ (w.run decoder config actions).Seated config := by
  induction actions generalizing w with
  | nil => exact h
  | cons action actions ih => exact ih (act_keeps action h)

/-- What callers and operators may count on; `stage = top` is the boundary between two ticks, and
the two releases of a queue slot stand in `abortWaiting` and `take`. -/
structure Conserved (config : BatcherConfig) (total : ℕ) (w : World S L P E) : Prop where
  ledger_le : w.free + w.blocksHeld ≤ total
  ledger : w.stage = .top → w.free + w.blocksHeld = total
  gate : w.stage = .top → w.depth = w.submitting.length + w.channel.length + w.waiting.length
  abort_slot : ∀ kept, w.stage = .abortWaiting kept → w.waiting ≠ [] → 0 < w.depth
  take_slot : ∀ job pick evicted, w.stage = .take job pick evicted → 0 < w.depth
  seats : w.rows.state.length + w.prefills.length ≤ config.maxSeqs
  owed_or_ended : ∀ id < w.nextId, (w.owed.count id = 1 ∧ id ∉ w.ended) ∨
    (w.ended.count id = 1 ∧ id ∉ w.owed)
  submitted : ∀ id ∈ w.ended, id < w.nextId

theorem conserved_of_books (ht : config.kvBlocks = some total) (hb : w.Books config) (hs : w.Seated config) :
    w.Conserved config total := by
  obtain ⟨hledger, hg, ho⟩ := hb
  have hl := hledger total ht
  rw [queueLength] at hg
  refine ⟨by omega, fun htop => ?_, fun htop => ?_, fun kept hstage hne => ?_,
    fun job pick evicted hstage => ?_, ?_, fun id hid => ?_, fun id hid => ?_⟩
  · rw [htop] at hl
    exact hl
  · rw [htop] at hg
    exact hg
  · have := List.length_pos_iff.mpr hne
    omega
  · have hroom := hs.room
    rw [Room, hstage] at hroom
    obtain ⟨hlt, -⟩ := List.getElem?_eq_some_iff.mp hroom.1
    omega
  · have := hs.seats
    rw [World.seats] at this
    omega
  · have := ho id
    rw [if_pos hid] at this
    rcases Nat.eq_zero_or_pos (w.ended.count id) with he | he
    · exact Or.inl ⟨by omega, List.count_eq_zero.mp he⟩
    · exact Or.inr ⟨by omega, List.count_eq_zero.mp (by omega)⟩
  · by_contra hge
    have := ho id
    rw [if_neg hge] at this
    have := List.count_pos_iff.mpr hid
    omega

end World

section Witness

def unitDecoder : Decoder Unit := ⟨fun _ => (), (), 1, Nat.one_pos⟩

/-- Always draws token 0, for two tokens. -/
def twoZeros : StepContext Unit Unit Unit Unit where
  params := ⟨0, 2, [], [], false, false, false⟩
  promptIds := [0]
  stopTokens := []
  decodeOne ids := ids.map fun _ => 97
  newState _ := ()
  sampleNext _ _ _ _ := .ok (.token 0 none, ())

def fourBlocks : BatcherConfig := ⟨2, 8, 64, 4, some 4, none⟩

/-- Two requests, of which the second is cancelled while it waits for blocks. -/
def twoRequests : List (Action Unit Unit Unit Unit) :=
  [.reserve twoZeros 3, .send 0, .reserve twoZeros 3, .cancel 1, .send 0] ++
    List.replicate 40 (.work ⟨none, none⟩)

end Witness

end Frink.Batch
