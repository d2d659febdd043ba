import Frink.Server.Resume

/-! # Readers of a replay buffer

Pushes, the finish and any number of readers interleave. A push wakes the waiting readers
after it has released the buffer, and a reader registers before it looks. The two
transports stop at different results; in every run each reader has received exactly the
events from where it started up to its cursor.
-/

namespace Frink.Server

open Decode (Text)

/-- What a reader makes of one read. -/
inductive Turn where
  | lost
  | over
  | batch (events : List StoredEvent) (nextIndex : ℕ)

/-- One round of the replay loop. -/
def resumeTurn (cursor : ℕ) (result : ReadResult) : Turn :=
  if result.lost then .lost
  else if result.events.isEmpty then
    if result.finished then .over else .batch [] cursor
  else .batch result.events result.nextIndex

structure PollResponse where
  events : List StoredEvent
  nextIndex : ℕ
  done : Bool

/-- `none` is the refusal of a position that is lost. -/
def poll (result : ReadResult) : Option PollResponse :=
  if result.lost then none
  else some
    { events := result.events
      nextIndex := result.nextIndex
      done := result.finished && result.events.isEmpty }

/-- A client stops polling on `done` alone, and asks from where it is told. -/
def pollTurn (result : ReadResult) : Turn :=
  match poll result with
  | none => .lost
  | some response => if response.done then .over else .batch response.events response.nextIndex

inductive Transport where
  | resume
  | poll

/-- What a reader asked to start from. -/
inductive Asked where
  | beginning
  | after (id : Text)
  | index (k : ℕ)

inductive Phase where

  /-- Before the look ahead of the response. -/
  | checking

  /-- About to register for a wakeup. -/
  | start

  | registered (notified : Bool)
  | parked (notified : Bool)
  | lost
  | over
  deriving DecidableEq

structure Reader where
  transport : Transport
  asked : Asked
  start : ℕ
  cursor : ℕ
  phase : Phase
  received : List StoredEvent

inductive ReaderAction where
  | check
  | register
  | read (expired : Bool)
  | wake
  | timeout

namespace Reader

variable (r : Reader)

def take : Turn → Reader
  | .lost => { r with phase := .lost }
  | .over => { r with phase := .over }
  | .batch events nextIndex =>
      { r with received := r.received ++ events, cursor := nextIndex, phase := .start }

def turn (result : ReadResult) : Reader :=
  match r.transport with
  | .resume => r.take (resumeTurn r.cursor result)
  | .poll => r.take (pollTurn result)

/-- A wakeup reaches whoever has registered. -/
def notified : Reader :=
  match r.phase with
  | .registered _ => { r with phase := .registered true }
  | .parked _ => { r with phase := .parked true }
  | _ => r

/-- A step of `read_from`, or of what calls it. -/
def step (slot : SlotState) : ReaderAction → Option Reader
  | .check =>
      if r.phase = .checking then
        some { r with phase := if (slot.readNow r.cursor).lost then .lost else .start }
      else none
  | .register => if r.phase = .start then some { r with phase := .registered false } else none
  | .read expired =>
      match r.phase with
      | .registered notified =>
          let result := slot.readNow r.cursor
          if result.lost || result.finished || !result.events.isEmpty || expired then
            some (r.turn result)
          else some { r with phase := .parked notified }
      | _ => none
  | .wake => if r.phase = .parked true then some { r with phase := .start } else none
  | .timeout =>
      match r.phase with
      | .parked _ => some (r.turn (slot.readNow r.cursor))
      | _ => none

end Reader

structure System where
  slot : SlotState

  /-- Wakeups still to be sent by those who pushed or finished. -/
  owed : ℕ

  readers : List Reader
  refused : List Text
  pushed : List String
  finishedAt : Option ℕ

inductive Action where
  | push (data : String)
  | finish
  | notify
  | resume (lastEventId : Option Text)
  | poll (index : ℕ)
  | reader (i : ℕ) (action : ReaderAction)

namespace System

def new : System := ⟨.new, 0, [], [], [], none⟩

variable (requestId : Text) (s : System)

def join (transport : Transport) (asked : Asked) (cursor : ℕ) : System :=
  let phase := match transport with
    | .resume => .checking
    | .poll => .start
  { s with readers := s.readers ++ [⟨transport, asked, cursor, cursor, phase, []⟩] }

/-- One action; `none` where it is not enabled. A reader starts at most at the next event. -/
def step : Action → Option System
  | .push data => some
      { s with slot := s.slot.push data, owed := s.owed + 1, pushed := s.pushed ++ [data] }
  | .finish =>
      if s.slot.finished then none
      else some
        { s with slot := s.slot.finish, owed := s.owed + 1, finishedAt := some s.pushed.length }
  | .notify =>
      if s.owed = 0 then none
      else some { s with owed := s.owed - 1, readers := s.readers.map Reader.notified }
  | .resume none => some (s.join .resume .beginning 0)
  | .resume (some id) =>
      match cursorFromEventId requestId id with
      | none => some { s with refused := id :: s.refused }
      | some cursor =>
          if cursor ≤ s.slot.nextIndex then some (s.join .resume (.after id) cursor) else none
  | .poll index =>
      if index ≤ s.slot.nextIndex then some (s.join .poll (.index index) index) else none
  | .reader i action =>
      match s.readers[i]? with
      | none => none
      | some r => (r.step s.slot action).map fun r' => { s with readers := s.readers.set i r' }

/-- There is a position behind every index that is given out or named. -/
def Bounded : Action → Prop
  | .push _ => s.pushed.length + 1 < U64_LIMIT
  | .resume (some id) => ¬ NamesLast requestId id
  | _ => True

/-- The states of the runs whose steps all meet a condition. -/
inductive Reaches (C : System → Action → Prop) : System → Prop where
  | new : Reaches C .new
  | step {s s' : System} {a : Action} :
      Reaches C s → C s a → s.step requestId a = some s' → Reaches C s'

end System

/-- The events of the indices from one to another. -/
def segment (pushed : List String) (first last : ℕ) : List StoredEvent :=
  numbered first ((pushed.drop first).take (last - first))

/-- A reader starts where it asked to. -/
def Reader.Named (requestId : Text) (r : Reader) : Prop :=
  match r.asked with
  | .beginning => r.start = 0
  | .after id => Names requestId id r.start
  | .index k => r.start = k

/-- An event from the cursor on was pushed and is no longer held. -/
def System.Evicted (s : System) (cursor : ℕ) : Prop :=
  ∃ i, cursor ≤ i ∧ i < s.pushed.length ∧ ∀ e ∈ s.slot.events, e.index ≠ i

/-- What readers are promised. -/
structure Sound (requestId : Text) (s : System) : Prop where

  refused : ∀ id ∈ s.refused, ∀ k, ¬ Names requestId id k
  named : ∀ r ∈ s.readers, r.Named requestId

  received : ∀ r ∈ s.readers, r.start ≤ r.cursor ∧ r.cursor ≤ s.pushed.length ∧
    r.received = segment s.pushed r.start r.cursor

  /-- The id of an event received leads back to the event behind it. -/
  reconnects : ∀ r ∈ s.readers, ∀ e ∈ r.received, e.index + 1 ≤ s.pushed.length ∧
    cursorFromEventId requestId (eventId requestId e.index) = some (e.index + 1)

  /-- A reader that looks is told its position is lost exactly when an event it still needs is
  gone. -/
  lost : ∀ r ∈ s.readers,
    (r.turn (s.slot.readNow r.cursor)).phase = .lost ↔ s.Evicted r.cursor

  told : ∀ r ∈ s.readers, r.phase = .lost → s.Evicted r.cursor

  ended : ∀ r ∈ s.readers, r.phase = .over → ∃ n, s.finishedAt = some n ∧ n ≤ r.cursor

  /-- No reader sleeps through an event or the finish. -/
  awake : ∀ r ∈ s.readers, r.phase = .parked false → s.owed = 0 →
    r.cursor = s.pushed.length ∧ s.finishedAt = none

section Turns

variable {pushed : List String} {slot : SlotState} {r : Reader}

/-- The two transports stop at the same results. -/
theorem pollTurn_eq_resumeTurn {cursor : ℕ} {result : ReadResult}
    (h : result.events = [] → result.lost = false → result.nextIndex = cursor) :
    pollTurn result = resumeTurn cursor result := by
  unfold pollTurn poll resumeTurn
  cases hlost : result.lost with
  | true => rfl
  | false =>
    cases hevents : result.events with
    | nil => cases hfinished : result.finished <;> simp [h hevents hlost]
    | cons e events => simp

/-- A turn is lost, ends the reader or delivers everything there is. -/
theorem turn_eq (h : Holds pushed slot) (hc : r.cursor ≤ pushed.length) :
    r.turn (slot.readNow r.cursor) =
      if r.cursor < slot.firstIndex then { r with phase := .lost }
      else if r.cursor = pushed.length ∧ slot.finished = true then { r with phase := .over }
      else
        { r with
          received := r.received ++ numbered r.cursor (pushed.drop r.cursor)
          cursor := pushed.length
          phase := .start } := by
  obtain ⟨hlost, hheld⟩ := h.readNow hc
  have hempty : slot.firstIndex ≤ r.cursor →
      ((slot.readNow r.cursor).events = [] ↔ r.cursor = pushed.length) := by
    intro hle
    rw [(hheld hle).1, numbered_ne_nil, List.drop_eq_nil_iff]
    omega
  have hle : (slot.readNow r.cursor).lost = false → slot.firstIndex ≤ r.cursor := by
    rw [← Bool.not_eq_true, hlost, Nat.not_lt]
    exact id
  have hturn : r.turn (slot.readNow r.cursor) =
      r.take (resumeTurn r.cursor (slot.readNow r.cursor)) := by
    unfold Reader.turn
    cases r.transport with
    | resume => rfl
    | poll =>
      apply congrArg r.take
      apply pollTurn_eq_resumeTurn
      intro hnil hnot
      rw [(hheld (hle hnot)).2]
      exact ((hempty (hle hnot)).mp hnil).symm
  rw [hturn, resumeTurn]
  by_cases hlt : r.cursor < slot.firstIndex
  · rw [if_pos (hlost.mpr hlt), if_pos hlt, Reader.take]
  · obtain ⟨hevents, hnext⟩ := hheld (Nat.le_of_not_lt hlt)
    have hnil : (slot.readNow r.cursor).events.isEmpty = true ↔ r.cursor = pushed.length := by
      rw [List.isEmpty_iff, hempty (Nat.le_of_not_lt hlt)]
    rw [if_neg (mt hlost.mp hlt), if_neg hlt, finished_readNow]
    by_cases hend : r.cursor = pushed.length
    · rw [if_pos (hnil.mpr hend)]
      by_cases hfin : slot.finished = true
      · rw [if_pos hfin, if_pos ⟨hend, hfin⟩, Reader.take]
      · rw [if_neg hfin, if_neg (fun h => hfin h.2), Reader.take]
        simp [hend, numbered]
    · rw [if_neg (mt hnil.mp hend), if_neg (fun h => hend h.1), Reader.take, hevents, hnext]

theorem segment_append {first last : ℕ} (hle : first ≤ last) (hlast : last ≤ pushed.length) :
    segment pushed first last ++ numbered last (pushed.drop last) =
      segment pushed first pushed.length := by
  have hlen : first + ((pushed.drop first).take (last - first)).length = last := by
    rw [List.length_take, List.length_drop]
    omega
  have hrest : pushed.drop last = (pushed.drop first).drop (last - first) := by
    rw [List.drop_drop, Nat.add_sub_cancel' hle]
  have hall : (pushed.drop first).take (pushed.length - first) = pushed.drop first := by
    rw [← List.length_drop, List.take_length]
  have happend := numbered_append first ((pushed.drop first).take (last - first))
    ((pushed.drop first).drop (last - first))
  rw [List.take_append_drop, hlen, ← hrest] at happend
  rw [segment, segment, hall, happend]

/-- A push does not change what was received. -/
theorem segment_push {first last : ℕ} (hlast : last ≤ pushed.length) (data : String) :
    segment (pushed ++ [data]) first last = segment pushed first last := by
  unfold segment
  rcases Nat.le_total first pushed.length with hle | hge
  · rw [List.drop_append_of_le_length hle, List.take_append_of_le_length]
    rw [List.length_drop]
    omega
  · have hzero : last - first = 0 := by omega
    rw [hzero, List.take_zero, List.take_zero]

end Turns

/-- What holds of a reader at any time. -/
structure Reader.Ok (requestId : Text) (s : System) (r : Reader) : Prop where

  named : r.Named requestId
  start_le : r.start ≤ r.cursor
  cursor_le : r.cursor ≤ s.pushed.length
  received : r.received = segment s.pushed r.start r.cursor
  told : r.phase = .lost → r.cursor < s.slot.firstIndex
  ended : r.phase = .over → ∃ n, s.finishedAt = some n ∧ n ≤ r.cursor

  awake : r.phase = .parked false → s.owed = 0 →
    r.cursor = s.pushed.length ∧ s.finishedAt = none

structure System.Inv (requestId : Text) (s : System) : Prop where

  holds : Holds s.pushed s.slot
  small : s.pushed.length < U64_LIMIT
  finished : s.slot.finished = s.finishedAt.isSome
  finishedAt_le : ∀ n, s.finishedAt = some n → n ≤ s.pushed.length
  refused : ∀ id ∈ s.refused, ∀ k, ¬ Names requestId id k
  readers : ∀ r ∈ s.readers, r.Ok requestId s

section Steps

variable {requestId : Text} {s s' : System} {r r' : Reader}

/-- Who else reads and who was refused does not matter to a reader. -/
theorem Reader.Ok.beside (h : r.Ok requestId s) (readers : List Reader) (refused : List Text) :
    r.Ok requestId { s with readers, refused } :=
  ⟨h.named, h.start_le, h.cursor_le, h.received, h.told, h.ended, h.awake⟩

/-- A change of phase alone, to one that promises nothing. -/
theorem Reader.Ok.phase (h : r.Ok requestId s) {phase : Phase} (hlost : phase ≠ .lost)
    (hover : phase ≠ .over) (hparked : phase ≠ .parked false) :
    Reader.Ok requestId s { r with phase } :=
  ⟨h.named, h.start_le, h.cursor_le, h.received, fun he => absurd he hlost,
    fun he => absurd he hover, fun he => absurd he hparked⟩

theorem Reader.Ok.turn (h : r.Ok requestId s) (hs : s.Inv requestId) :
    (r.turn (s.slot.readNow r.cursor)).Ok requestId s := by
  rw [turn_eq hs.holds h.cursor_le]
  split
  · rename_i hlt
    exact ⟨h.named, h.start_le, h.cursor_le, h.received, fun _ => hlt, nofun, nofun⟩
  · split
    · rename_i hend
      refine ⟨h.named, h.start_le, h.cursor_le, h.received, nofun, fun _ => ?_, nofun⟩
      rw [hs.finished, Option.isSome_iff_exists] at hend
      obtain ⟨hcursor, n, hn⟩ := hend
      exact ⟨n, hn, hcursor ▸ hs.finishedAt_le n hn⟩
    · constructor
      · exact h.named
      · exact Nat.le_trans h.start_le h.cursor_le
      · exact Nat.le_refl _
      · dsimp only
        rw [h.received, segment_append h.start_le h.cursor_le]
      · exact nofun
      · exact nofun
      · exact nofun

/-- A reader that parks has seen everything, and the stream goes on. -/
theorem Reader.Ok.park (h : r.Ok requestId s) (hs : s.Inv requestId) {notified : Bool}
    (hquiet : ((s.slot.readNow r.cursor).lost || (s.slot.readNow r.cursor).finished ||
      !(s.slot.readNow r.cursor).events.isEmpty) = false) :
    Reader.Ok requestId s { r with phase := .parked notified } := by
  obtain ⟨hlost, hheld⟩ := hs.holds.readNow h.cursor_le
  simp only [Bool.or_eq_false_iff, Bool.not_eq_false', List.isEmpty_iff] at hquiet
  obtain ⟨⟨hnot, hfin⟩, hnil⟩ := hquiet
  have hge : s.slot.firstIndex ≤ r.cursor := by
    rw [← Bool.not_eq_true, hlost] at hnot
    exact Nat.le_of_not_lt hnot
  refine ⟨h.named, h.start_le, h.cursor_le, h.received, nofun, nofun, fun _ _ => ?_⟩
  constructor
  · rw [(hheld hge).1, numbered_ne_nil, List.drop_eq_nil_iff] at hnil
    exact Nat.le_antisymm h.cursor_le hnil
  · rw [finished_readNow, hs.finished] at hfin
    simpa using hfin

theorem Reader.Ok.step (h : r.Ok requestId s) (hs : s.Inv requestId) {action : ReaderAction}
    (hstep : r.step s.slot action = some r') : r'.Ok requestId s := by
  cases action with
  | check =>
    simp only [Reader.step, Option.ite_none_right_eq_some, Option.some.injEq] at hstep
    obtain ⟨-, rfl⟩ := hstep
    split
    · rename_i hlost
      have hlt := (hs.holds.readNow h.cursor_le).1.mp hlost
      exact ⟨h.named, h.start_le, h.cursor_le, h.received, fun _ => hlt, nofun, nofun⟩
    · exact h.phase nofun nofun nofun
  | register =>
    simp only [Reader.step, Option.ite_none_right_eq_some, Option.some.injEq] at hstep
    obtain ⟨-, rfl⟩ := hstep
    exact h.phase nofun nofun nofun
  | read expired =>
    simp only [Reader.step] at hstep
    split at hstep
    · split at hstep
      · cases hstep
        exact h.turn hs
      · rename_i hquiet
        cases hstep
        apply h.park hs
        rw [Bool.not_eq_true, Bool.or_eq_false_iff] at hquiet
        exact hquiet.1
    · cases hstep
  | wake =>
    simp only [Reader.step, Option.ite_none_right_eq_some, Option.some.injEq] at hstep
    obtain ⟨-, rfl⟩ := hstep
    exact h.phase nofun nofun nofun
  | timeout =>
    simp only [Reader.step] at hstep
    split at hstep
    · cases hstep
      exact h.turn hs
    · cases hstep

theorem Reader.Ok.notified (h : r.Ok requestId s) (owed : ℕ) :
    r.notified.Ok requestId { s with owed } := by
  unfold Reader.notified
  split
  · exact ⟨h.named, h.start_le, h.cursor_le, h.received, nofun, nofun, nofun⟩
  · exact ⟨h.named, h.start_le, h.cursor_le, h.received, nofun, nofun, nofun⟩
  · rename_i hparked
    exact ⟨h.named, h.start_le, h.cursor_le, h.received, h.told, h.ended,
      fun he => absurd he (hparked false)⟩

theorem System.Inv.join (hs : s.Inv requestId) (transport : Transport) {asked : Asked} {k : ℕ}
    (hk : k ≤ s.pushed.length) (hnamed : ∀ phase, Reader.Named requestId
      ⟨transport, asked, k, k, phase, []⟩) : (s.join transport asked k).Inv requestId := by
  refine ⟨hs.holds, hs.small, hs.finished, hs.finishedAt_le, hs.refused, ?_⟩
  intro r hr
  rcases List.mem_append.mp hr with hr | hr
  · exact (hs.readers r hr).beside _ _
  · obtain rfl := List.mem_singleton.mp hr
    have hnil : ([] : List StoredEvent) = segment s.pushed k k := by
      rw [segment, Nat.sub_self, List.take_zero, numbered]
    cases transport with
    | resume => exact ⟨hnamed _, Nat.le_refl _, hk, hnil, by rintro ⟨⟩, by rintro ⟨⟩, by rintro ⟨⟩⟩
    | poll => exact ⟨hnamed _, Nat.le_refl _, hk, hnil, by rintro ⟨⟩, by rintro ⟨⟩, by rintro ⟨⟩⟩

theorem System.Inv.push (hs : s.Inv requestId) (data : String)
    (hsmall : s.pushed.length + 1 < U64_LIMIT) :
    System.Inv requestId
      { s with slot := s.slot.push data, owed := s.owed + 1, pushed := s.pushed ++ [data] } := by
  obtain ⟨hholds, hfirst⟩ := hs.holds.push data (by rwa [hs.holds.next])
  constructor
  · exact hholds
  · simpa using hsmall
  · exact hs.finished
  · intro n hn
    have := hs.finishedAt_le n hn
    rw [List.length_append]
    omega
  · exact hs.refused
  · intro r hr
    have h := hs.readers r hr
    constructor
    · exact h.named
    · exact h.start_le
    · have := h.cursor_le
      rw [List.length_append]
      omega
    · rw [segment_push h.cursor_le]
      exact h.received
    · intro hphase
      exact Nat.lt_of_lt_of_le (h.told hphase) hfirst
    · exact h.ended
    · rintro - ⟨⟩

theorem System.Inv.finish (hs : s.Inv requestId) (hopen : s.slot.finished = false) :
    System.Inv requestId
      { s with
        slot := s.slot.finish
        owed := s.owed + 1
        finishedAt := some s.pushed.length } := by
  have hnone : s.finishedAt = none := by
    rw [hs.finished] at hopen
    simpa using hopen
  refine ⟨hs.holds.finish, hs.small, rfl, ?_, hs.refused, ?_⟩
  · rintro n ⟨⟩
    exact Nat.le_refl _
  · intro r hr
    have h := hs.readers r hr
    refine ⟨h.named, h.start_le, h.cursor_le, h.received, h.told, ?_, ?_⟩
    · intro hphase
      obtain ⟨n, hn, -⟩ := h.ended hphase
      rw [hnone] at hn
      cases hn
    · rintro - ⟨⟩

theorem System.Inv.step (hs : s.Inv requestId) {a : Action} (hbounded : s.Bounded requestId a)
    (h : s.step requestId a = some s') : s'.Inv requestId := by
  have hnext := hs.holds.next
  cases a with
  | push data =>
    cases h
    exact hs.push data hbounded
  | finish =>
    simp only [System.step, Option.ite_none_left_eq_some, Option.some.injEq] at h
    obtain ⟨hopen, rfl⟩ := h
    exact hs.finish (by simpa using hopen)
  | notify =>
    simp only [System.step, Option.ite_none_left_eq_some, Option.some.injEq] at h
    obtain ⟨-, rfl⟩ := h
    refine ⟨hs.holds, hs.small, hs.finished, hs.finishedAt_le, hs.refused, ?_⟩
    intro r hr
    obtain ⟨u, hu, rfl⟩ := List.mem_map.mp hr
    exact ((hs.readers u hu).notified (s.owed - 1)).beside _ _
  | resume lastEventId =>
    cases lastEventId with
    | none =>
      cases h
      exact hs.join .resume (Nat.zero_le _) fun _ => rfl
    | some id =>
      have hnames := @cursor_iff_names requestId id
      simp only [System.step] at h
      split at h
      · rename_i hnone
        cases h
        refine ⟨hs.holds, hs.small, hs.finished, hs.finishedAt_le, ?_, ?_⟩
        · intro id' hid' k
          rcases List.mem_cons.mp hid' with rfl | hid'
          · rw [← hnames hbounded, hnone]
            exact nofun
          · exact hs.refused id' hid' k
        · exact fun r hr => (hs.readers r hr).beside _ _
      · rename_i k hk
        simp only [Option.ite_none_right_eq_some, Option.some.injEq] at h
        obtain ⟨hle, rfl⟩ := h
        rw [hnext] at hle
        exact hs.join .resume hle fun _ => (hnames hbounded).mp hk
  | poll index =>
    simp only [System.step, Option.ite_none_right_eq_some, Option.some.injEq] at h
    obtain ⟨hle, rfl⟩ := h
    rw [hnext] at hle
    exact hs.join .poll hle fun _ => rfl
  | reader i action =>
    simp only [System.step] at h
    split at h
    · cases h
    · rename_i r hr
      obtain ⟨r', hstep, rfl⟩ := Option.map_eq_some_iff.mp h
      have hmem : r ∈ s.readers := List.mem_of_getElem? hr
      have hok := (hs.readers r hmem).step hs hstep
      refine ⟨hs.holds, hs.small, hs.finished, hs.finishedAt_le, hs.refused, ?_⟩
      intro u hu
      rcases List.mem_or_eq_of_mem_set hu with hu | rfl
      · exact (hs.readers u hu).beside _ _
      · exact hok.beside _ _

theorem inv_of_reaches (h : s.Reaches requestId (fun s a => s.Bounded requestId a)) :
    s.Inv requestId := by
  induction h with
  | new => exact ⟨holds_new, by decide, rfl, nofun, nofun, nofun⟩
  | step _ hbounded hstep ih => exact ih.step hbounded hstep

theorem sound_of_inv (hs : s.Inv requestId) : Sound requestId s := by
  have hevicted : ∀ cursor, s.Evicted cursor ↔ cursor < s.slot.firstIndex :=
    fun cursor => hs.holds.lost_iff.symm
  constructor
  · exact hs.refused
  · exact fun r hr => (hs.readers r hr).named
  · intro r hr
    have h := hs.readers r hr
    exact ⟨h.start_le, h.cursor_le, h.received⟩
  · intro r hr e he
    have h := hs.readers r hr
    rw [h.received, segment] at he
    have hindex := (index_of_mem_numbered he).2
    rw [List.length_take, List.length_drop] at hindex
    have hlt : e.index + 1 ≤ s.pushed.length := by
      have := h.start_le
      have := h.cursor_le
      omega
    exact ⟨hlt, cursor_eventId requestId (Nat.lt_of_le_of_lt hlt hs.small)⟩
  · intro r hr
    rw [turn_eq hs.holds (hs.readers r hr).cursor_le, hevicted]
    split
    · rename_i hlt
      exact iff_of_true rfl hlt
    · rename_i hge
      split <;> exact iff_of_false nofun hge
  · intro r hr hphase
    exact (hevicted _).mpr ((hs.readers r hr).told hphase)
  · exact fun r hr => (hs.readers r hr).ended
  · exact fun r hr => (hs.readers r hr).awake

end Steps

/-- In every run that stays within 64 bits no reader skips an event, gets one twice or sleeps
through one, and no id is taken for another position than the one it names. -/
theorem resumed_sound (requestId : Text) (s : System)
    (h : s.Reaches requestId fun s a => s.Bounded requestId a) : Sound requestId s :=
  sound_of_inv (inv_of_reaches h)

def oneEvent : System :=
  { slot := SlotState.new.push "x"
    owed := 1
    readers := [⟨.resume, .beginning, 0, 1, .start, [⟨0, "x"⟩]⟩]
    refused := []
    pushed := ["x"]
    finishedAt := none }

theorem resumed_sound_one : Sound "a".toList oneEvent := by
  apply resumed_sound
  have hnew : System.Reaches "a".toList (fun s a => s.Bounded "a".toList a) .new := .new
  have hpush := hnew.step (a := .push "x") (show 0 + 1 < U64_LIMIT by decide) rfl
  have hresume := hpush.step (a := .resume none) trivial rfl
  have hcheck := hresume.step (a := .reader 0 .check) trivial rfl
  have hregister := hcheck.step (a := .reader 0 .register) trivial rfl
  exact hregister.step (a := .reader 0 (.read false)) trivial rfl

/-- The last index there is leads back to the first event. -/
theorem resumed_sound_wraps :
    ¬ ∀ s : System, s.Reaches "a".toList (fun _ _ => True) → Sound "a".toList s := by
  intro h
  have hnew : System.Reaches "a".toList (fun _ _ => True) .new := .new
  have hresume := hnew.step (a := .resume (some "a:18446744073709551615".toList)) trivial rfl
  obtain ⟨s, i, -, -, -, hstart, -⟩ := (h _ hresume).named _ List.mem_cons_self
  cases hstart

end Frink.Server
