import Frink.Decode.Text

/-! # The replay buffer of a stream

Every event of a resumable stream is stored under its index, and the oldest are dropped
past a window. A read from a cursor says what is held from there on, or that the position
is lost; a reconnect names the last event it saw.
-/

namespace Frink.Server

open Decode (Text)

def REPLAY_BYTES : ℕ := 2 ^ 20

def U64_LIMIT : ℕ := 2 ^ 64

structure StoredEvent where
  index : ℕ
  data : String
  deriving DecidableEq, Repr

structure SlotState where
  events : List StoredEvent
  firstIndex : ℕ
  nextIndex : ℕ
  bytes : ℕ
  finished : Bool
  deriving DecidableEq

structure ReadResult where
  events : List StoredEvent
  nextIndex : ℕ
  finished : Bool
  lost : Bool

/-- Drops the oldest events while more than the window is held, never the last one. -/
def trim (bytes firstIndex : ℕ) : List StoredEvent → List StoredEvent × ℕ × ℕ
  | dropped :: kept :: events =>
      if REPLAY_BYTES < bytes then
        trim (bytes - dropped.data.utf8ByteSize) (dropped.index + 1) (kept :: events)
      else (dropped :: kept :: events, bytes, firstIndex)
  | events => (events, bytes, firstIndex)

namespace SlotState

def new : SlotState := ⟨[], 0, 0, 0, false⟩

variable (st : SlotState)

/-- The next index is counted in 64 bits. -/
def push (data : String) : SlotState :=
  let (events, bytes, firstIndex) :=
    trim (st.bytes + data.utf8ByteSize) st.firstIndex (st.events ++ [⟨st.nextIndex, data⟩])
  { st with events, bytes, firstIndex, nextIndex := (st.nextIndex + 1) % U64_LIMIT }

def finish : SlotState := { st with finished := true }

def readNow (cursor : ℕ) : ReadResult :=
  if cursor < st.firstIndex then
    { events := [], nextIndex := st.firstIndex, finished := st.finished, lost := true }
  else
    let events := st.events.filter fun e => cursor ≤ e.index
    { events
      nextIndex := (events.getLast?.map fun e => e.index + 1).getD cursor
      finished := st.finished
      lost := false }

end SlotState

/-- What is in front of the last `c` and what is behind it. -/
def rsplitOnce (c : Char) (s : Text) : Option (Text × Text) :=
  match s.reverse.dropWhile (· ≠ c) with
  | [] => none
  | _ :: before => some (before.reverse, (s.reverse.takeWhile (· ≠ c)).reverse)

/-- A leading plus sign is allowed, and nothing but digits behind it. -/
def parseU64 (s : Text) : Option ℕ :=
  let digits := if s.head? = some '+' then s.tail else s
  if digits ≠ [] ∧ digits.all Char.isDigit = true ∧ Nat.ofDigitChars 10 digits 0 < U64_LIMIT then
    some (Nat.ofDigitChars 10 digits 0)
  else none

def eventId (requestId : Text) (index : ℕ) : Text := requestId ++ ':' :: Nat.toDigits 10 index

/-- The index of the next event wanted, in 64 bits; `none` for an id that does not belong here. -/
def cursorFromEventId (requestId lastEventId : Text) : Option ℕ :=
  match rsplitOnce ':' lastEventId with
  | none => none
  | some (id, index) =>
      if id ≠ requestId then none
      else (parseU64 index).map fun i => (i + 1) % U64_LIMIT

/-- The events from an index on, one for each payload. -/
def numbered : ℕ → List String → List StoredEvent
  | _, [] => []
  | k, data :: rest => ⟨k, data⟩ :: numbered (k + 1) rest

section Numbered

variable {k cursor : ℕ} {datas more : List String} {e : StoredEvent}

theorem numbered_append (k : ℕ) (datas more : List String) :
    numbered k (datas ++ more) = numbered k datas ++ numbered (k + datas.length) more := by
  induction datas generalizing k with
  | nil => rfl
  | cons data datas ih =>
    simp only [List.cons_append, numbered, ih, List.length_cons, Nat.add_assoc,
      Nat.add_comm 1]

theorem index_of_mem_numbered (h : e ∈ numbered k datas) :
    k ≤ e.index ∧ e.index < k + datas.length := by
  induction datas generalizing k with
  | nil => cases h
  | cons data datas ih =>
    rw [List.length_cons]
    rcases List.mem_cons.mp h with rfl | h
    · exact ⟨Nat.le_refl _, by dsimp only; omega⟩
    · have := ih h
      omega

theorem exists_mem_numbered {i : ℕ} (h : k ≤ i) (h' : i < k + datas.length) :
    ∃ e ∈ numbered k datas, e.index = i := by
  induction datas generalizing k with
  | nil =>
    rw [List.length_nil] at h'
    omega
  | cons data datas ih =>
    rw [List.length_cons] at h'
    rcases Nat.eq_or_lt_of_le h with rfl | hlt
    · exact ⟨⟨k, data⟩, List.mem_cons_self, rfl⟩
    · obtain ⟨e, he, hi⟩ := ih hlt (by omega)
      exact ⟨e, List.mem_cons_of_mem _ he, hi⟩

/-- What is numbered below a cursor is what comes before it. -/
theorem filter_numbered (h : k ≤ cursor) :
    (numbered k datas).filter (fun e => cursor ≤ e.index) =
      numbered cursor (datas.drop (cursor - k)) := by
  induction datas generalizing k with
  | nil => simp [numbered]
  | cons data datas ih =>
    rw [numbered, List.filter_cons]
    rcases Nat.eq_or_lt_of_le h with rfl | hlt
    · have hall : (numbered (k + 1) datas).filter (fun e => k ≤ e.index) =
          numbered (k + 1) datas := by
        apply List.filter_eq_self.mpr
        intro e he
        have := index_of_mem_numbered he
        exact decide_eq_true (by omega)
      rw [if_pos (by simp), hall, Nat.sub_self, List.drop_zero, numbered]
    · rw [if_neg (by simpa using hlt), ih hlt]
      have hsucc : cursor - k = cursor - (k + 1) + 1 := by omega
      rw [hsucc, List.drop_succ_cons]

theorem getLast?_numbered (h : datas ≠ []) :
    (numbered k datas).getLast?.map (fun e => e.index + 1) = some (k + datas.length) := by
  obtain rfl | ⟨front, data, rfl⟩ := List.eq_nil_or_concat' datas
  · exact absurd rfl h
  · rw [numbered_append, numbered, numbered, List.getLast?_concat, List.length_append]
    rfl

theorem numbered_ne_nil : numbered k datas = [] ↔ datas = [] := by
  cases datas <;> simp [numbered]

end Numbered

def heldBytes (events : List StoredEvent) : ℕ := (events.map fun e => e.data.utf8ByteSize).sum

/-- The buffer holds the payloads from its first index on. -/
structure Holds (pushed : List String) (st : SlotState) : Prop where

  events : st.events = numbered st.firstIndex (pushed.drop st.firstIndex)
  next : st.nextIndex = pushed.length
  bytes : st.bytes = heldBytes st.events

  /-- The newest event is held. -/
  newest : st.firstIndex < pushed.length ∨ st.firstIndex = 0 ∧ pushed = []

section Holds

variable {pushed : List String} {st : SlotState} {cursor : ℕ}

theorem holds_new : Holds [] SlotState.new := ⟨rfl, rfl, rfl, .inr ⟨rfl, rfl⟩⟩

theorem Holds.first_le (h : Holds pushed st) : st.firstIndex ≤ pushed.length := by
  rcases h.newest with hlt | ⟨hz, -⟩ <;> omega

theorem trim_spec {bytes firstIndex : ℕ} {events : List StoredEvent}
    (he : events = numbered firstIndex (pushed.drop firstIndex))
    (hb : bytes = heldBytes events)
    (hlt : firstIndex < pushed.length) :
    ∃ first, firstIndex ≤ first ∧ first < pushed.length ∧
      trim bytes firstIndex events =
        (numbered first (pushed.drop first), heldBytes (numbered first (pushed.drop first)),
          first) := by
  induction events generalizing bytes firstIndex with
  | nil =>
    have := numbered_ne_nil.mp he.symm
    rw [List.drop_eq_nil_iff] at this
    omega
  | cons dropped events ih =>
    have hdrop := List.drop_eq_getElem_cons hlt
    have hstop : (dropped :: events, bytes, firstIndex) =
        (numbered firstIndex (pushed.drop firstIndex),
          heldBytes (numbered firstIndex (pushed.drop firstIndex)), firstIndex) := by
      rw [← he, hb]
    cases events with
    | nil => exact ⟨firstIndex, Nat.le_refl _, hlt, hstop⟩
    | cons kept events =>
      rw [trim]
      split
      · have hbytes : bytes - dropped.data.utf8ByteSize = heldBytes (kept :: events) := by
          rw [hb, heldBytes, List.map_cons, List.sum_cons, Nat.add_sub_cancel_left]
          rfl
        rw [hdrop, numbered] at he
        obtain ⟨rfl, hrest⟩ := List.cons_eq_cons.mp he
        have hmore : firstIndex + 1 < pushed.length := by
          by_contra hge
          rw [List.drop_eq_nil_of_le (Nat.le_of_not_lt hge)] at hrest
          cases hrest
        obtain ⟨first, hle, hlast, htrim⟩ := ih hrest hbytes hmore
        exact ⟨first, by omega, hlast, htrim⟩
      · exact ⟨firstIndex, Nat.le_refl _, hlt, hstop⟩

theorem Holds.push (h : Holds pushed st) (data : String) (hlt : st.nextIndex + 1 < U64_LIMIT) :
    Holds (pushed ++ [data]) (st.push data) ∧ st.firstIndex ≤ (st.push data).firstIndex := by
  have hevents : st.events ++ [⟨st.nextIndex, data⟩] =
      numbered st.firstIndex ((pushed ++ [data]).drop st.firstIndex) := by
    rw [List.drop_append_of_le_length h.first_le, numbered_append, ← h.events, h.next,
      List.length_drop, Nat.add_sub_cancel' h.first_le]
    rfl
  have hbytes : st.bytes + data.utf8ByteSize =
      heldBytes (st.events ++ [⟨st.nextIndex, data⟩]) := by
    simp [h.bytes, heldBytes]
  have hfirst : st.firstIndex < (pushed ++ [data]).length := by
    have := h.first_le
    rw [List.length_append, List.length_singleton]
    omega
  obtain ⟨first, hle, hlast, htrim⟩ := trim_spec hevents hbytes hfirst
  have hpush : st.push data = ⟨numbered first ((pushed ++ [data]).drop first), first,
      st.nextIndex + 1, heldBytes (numbered first ((pushed ++ [data]).drop first)),
      st.finished⟩ := by
    rw [SlotState.push, htrim, Nat.mod_eq_of_lt hlt]
  rw [hpush]
  refine ⟨⟨rfl, ?_, rfl, .inl hlast⟩, hle⟩
  rw [List.length_append, h.next]
  rfl

theorem Holds.finish (h : Holds pushed st) : Holds pushed st.finish :=
  ⟨h.events, h.next, h.bytes, h.newest⟩

/-- A read is lost below the first index, and gives everything from its cursor on otherwise. -/
theorem Holds.readNow (h : Holds pushed st) (hc : cursor ≤ pushed.length) :
    ((st.readNow cursor).lost = true ↔ cursor < st.firstIndex) ∧
      (st.firstIndex ≤ cursor →
        (st.readNow cursor).events = numbered cursor (pushed.drop cursor) ∧
        (st.readNow cursor).nextIndex = pushed.length) := by
  unfold SlotState.readNow
  split
  · rename_i hlt
    exact ⟨by simp [hlt], fun hle => absurd hlt (Nat.not_lt.mpr hle)⟩
  · rename_i hge
    have hevents : st.events.filter (fun e => cursor ≤ e.index) =
        numbered cursor (pushed.drop cursor) := by
      rw [h.events, filter_numbered (Nat.le_of_not_lt hge), List.drop_drop,
        Nat.add_sub_cancel' (Nat.le_of_not_lt hge)]
    refine ⟨by simpa using hge, fun _ => ⟨hevents, ?_⟩⟩
    dsimp only
    rw [hevents]
    rcases Nat.eq_or_lt_of_le hc with rfl | hlt
    · rw [List.drop_length]
      rfl
    · rw [getLast?_numbered (by simpa using hlt), List.length_drop]
      exact Nat.add_sub_cancel' hc

@[simp] theorem finished_readNow : (st.readNow cursor).finished = st.finished := by
  unfold SlotState.readNow
  split <;> rfl

/-- A position is lost exactly when an event from it on has been evicted. -/
theorem Holds.lost_iff (h : Holds pushed st) :
    cursor < st.firstIndex ↔
      ∃ i, cursor ≤ i ∧ i < pushed.length ∧ ∀ e ∈ st.events, e.index ≠ i := by
  constructor
  · intro hlt
    refine ⟨cursor, Nat.le_refl _, Nat.lt_of_lt_of_le hlt h.first_le, ?_⟩
    intro e he heq
    rw [h.events] at he
    have := (index_of_mem_numbered he).1
    omega
  · rintro ⟨i, hle, hlt, hnone⟩
    by_contra hge
    have hfirst := h.first_le
    have hbound : i < st.firstIndex + (pushed.drop st.firstIndex).length := by
      rw [List.length_drop]
      omega
    obtain ⟨e, he, hi⟩ := exists_mem_numbered (by omega) hbound
    exact hnone e (h.events ▸ he) hi

end Holds

/-- The id names the event before position `k` of the stream. -/
def Names (requestId id : Text) (k : ℕ) : Prop :=
  ∃ s i, id = requestId ++ ':' :: s ∧ ':' ∉ s ∧ parseU64 s = some i ∧ k = i + 1 ∧ k < U64_LIMIT

/-- The id has the last index there is, behind which there is no position. -/
def NamesLast (requestId id : Text) : Prop :=
  ∃ s, id = requestId ++ ':' :: s ∧ ':' ∉ s ∧ parseU64 s = some (U64_LIMIT - 1)

section Ids

variable {c : Char} {s front back requestId id : Text} {i k : ℕ}

theorem rsplitOnce_eq_some :
    rsplitOnce c s = some (front, back) ↔ s = front ++ c :: back ∧ c ∉ back := by
  constructor
  · intro h
    unfold rsplitOnce at h
    have hsplit := List.takeWhile_append_dropWhile (p := (· ≠ c)) (l := s.reverse)
    split at h
    · cases h
    · rename_i x before hdrop
      cases h
      have hx : x = c := by
        have hhead := List.head?_dropWhile_not (fun a => decide (a ≠ c)) s.reverse
        rw [hdrop] at hhead
        simpa using hhead
      rw [hdrop, hx] at hsplit
      constructor
      · have := congrArg List.reverse hsplit
        simpa using this.symm
      · rw [List.mem_reverse]
        intro hmem
        simpa using List.all_eq_true.mp List.all_takeWhile _ hmem
  · rintro ⟨rfl, hback⟩
    have hall : ∀ x ∈ back.reverse, decide (x ≠ c) = true := by
      intro x hx
      rw [decide_eq_true_eq]
      rintro rfl
      exact hback (List.mem_reverse.mp hx)
    have hrev : (front ++ c :: back).reverse = back.reverse ++ c :: front.reverse := by simp
    unfold rsplitOnce
    rw [hrev, List.dropWhile_append_of_pos hall, List.takeWhile_append_of_pos hall]
    simp

theorem parseU64_lt (h : parseU64 s = some i) : i < U64_LIMIT := by
  unfold parseU64 at h
  simp only [Option.ite_none_right_eq_some, Option.some.injEq] at h
  obtain ⟨⟨-, -, hlt⟩, rfl⟩ := h
  exact hlt

theorem parseU64_toDigits (h : i < U64_LIMIT) : parseU64 (Nat.toDigits 10 i) = some i := by
  have hdigits : ∀ d ∈ Nat.toDigits 10 i, d.isDigit = true := fun d hd =>
    Nat.isDigit_of_mem_toDigits (by decide) (by decide) hd
  have hplus : (Nat.toDigits 10 i).head? ≠ some '+' := by
    intro hhead
    have := hdigits '+' (List.mem_of_mem_head? hhead)
    exact absurd this (by decide)
  have hvalue : Nat.ofDigitChars 10 (Nat.toDigits 10 i) 0 = i :=
    Nat.ofDigitChars_toDigits (by decide) (by decide)
  have hne : Nat.toDigits 10 i ≠ [] := Nat.toDigits_ne_nil
  unfold parseU64
  rw [if_neg hplus]
  dsimp only
  rw [hvalue, if_pos ⟨hne, List.all_eq_true.mpr hdigits, h⟩]

theorem cursorFromEventId_eq_some : cursorFromEventId requestId id = some k ↔
    ∃ s i, id = requestId ++ ':' :: s ∧ ':' ∉ s ∧ parseU64 s = some i ∧
      k = (i + 1) % U64_LIMIT := by
  unfold cursorFromEventId
  constructor
  · intro h
    split at h
    · cases h
    · rename_i front s hsplit
      split at h
      · cases h
      · rename_i hid
        obtain rfl := not_not.mp hid
        obtain ⟨i, hi, rfl⟩ := Option.map_eq_some_iff.mp h
        obtain ⟨hsplit, hnot⟩ := rsplitOnce_eq_some.mp hsplit
        exact ⟨s, i, hsplit, hnot, hi, rfl⟩
  · rintro ⟨s, i, rfl, hnot, hi, rfl⟩
    rw [rsplitOnce_eq_some.mpr ⟨rfl, hnot⟩]
    dsimp only
    rw [if_neg (by simp), hi]
    rfl

/-- An id is read as the position it names, except where there is no position behind it. -/
theorem cursor_iff_names (h : ¬ NamesLast requestId id) :
    cursorFromEventId requestId id = some k ↔ Names requestId id k := by
  rw [cursorFromEventId_eq_some]
  constructor
  · rintro ⟨s, i, hid, hnot, hi, rfl⟩
    have hlt : i + 1 < U64_LIMIT := by
      have := parseU64_lt hi
      by_contra hge
      apply h
      refine ⟨s, hid, hnot, ?_⟩
      rw [hi, Option.some.injEq]
      omega
    exact ⟨s, i, hid, hnot, hi, Nat.mod_eq_of_lt hlt, by rwa [Nat.mod_eq_of_lt hlt]⟩
  · rintro ⟨s, i, hid, hnot, hi, rfl, hlt⟩
    exact ⟨s, i, hid, hnot, hi, (Nat.mod_eq_of_lt hlt).symm⟩

/-- The id of an event names the position behind it. -/
theorem names_eventId (requestId : Text) (h : i + 1 < U64_LIMIT) :
    Names requestId (eventId requestId i) (i + 1) := by
  refine ⟨Nat.toDigits 10 i, i, rfl, ?_, parseU64_toDigits (by omega), rfl, h⟩
  intro hmem
  have := Nat.isDigit_of_mem_toDigits (by decide) (by decide) hmem
  exact absurd this (by decide)

theorem cursor_eventId (requestId : Text) (h : i + 1 < U64_LIMIT) :
    cursorFromEventId requestId (eventId requestId i) = some (i + 1) := by
  obtain ⟨s, i, hid, hnot, hi, hk, hlt⟩ := names_eventId requestId h
  apply cursorFromEventId_eq_some.mpr
  exact ⟨s, i, hid, hnot, hi, by rw [hk, Nat.mod_eq_of_lt (hk ▸ hlt)]⟩

end Ids

end Frink.Server
