import Frink.Library.Lossy
import Mathlib

/-! # Text on its way out

A token's bytes first pass a buffer for unfinished characters, then a matcher that withholds
whatever may still become a stop string. Text is a list of characters: a stop string and the text
it is compared with are both whole characters, so byte offsets never fall inside one.
-/

namespace Frink.Decode
open Codec

abbrev Text := List Char

instance : LawfulBEq Text := inferInstance

/-- `pending` is the tail of a character whose other bytes have not arrived. -/
structure Utf8Stream where
  pending : List UInt8 := []

/-- Whole characters, and the unfinished one at the end; `fuel` bounds the characters. -/
def takeWhole : ℕ → List UInt8 → Text × List UInt8
  | 0, bytes => ([], bytes)
  | _, [] => ([], [])
  | fuel + 1, lead :: bytes =>
      match announced lead with
      | none =>
          let (text, rest) := takeWhole fuel bytes
          (REPLACEMENT :: text, rest)
      | some n =>
          let tail := trailing lead n bytes
          if tail.length < n ∧ tail.length = bytes.length then ([], lead :: bytes)
          else
            let c := if tail.length = n then Char.ofNat (codePoint lead tail) else REPLACEMENT
            let (text, rest) := takeWhole fuel (bytes.drop tail.length)
            (c :: text, rest)

namespace Utf8Stream

variable (u : Utf8Stream)

def push (bytes : List UInt8) : Text × Utf8Stream :=
  let (text, pending) := takeWhole (u.pending ++ bytes).length (u.pending ++ bytes)
  (text, ⟨pending⟩)

/-- A character that was never completed surfaces as a replacement. -/
def flush : Text × Utf8Stream :=
  if u.pending.isEmpty then ([], u) else ([REPLACEMENT], ⟨[]⟩)

end Utf8Stream

inductive StopStep where
  | emit (text : Text)
  | matched (text stop : Text)
  deriving DecidableEq

def StopStep.text : StopStep → Text
  | emit text => text
  | matched text _ => text

/-- Where `s` first occurs. -/
def findText (s : Text) : Text → Option ℕ
  | [] => if s.isPrefixOf [] then some 0 else none
  | c :: text => if s.isPrefixOf (c :: text) then some 0 else (findText s text).map (· + 1)

/-- The leftmost match, the longest of those that start there. -/
def earliestStopMatch (text : Text) : List Text → Option (ℕ × Text)
  | [] => none
  | s :: stops =>
      match (if s.isEmpty then none else findText s text), earliestStopMatch text stops with
      | none, best => best
      | some at_, none => some (at_, s)
      | some at_, some (at', s') =>
          if at' < at_ ∨ (at' = at_ ∧ s.length < s'.length) then some (at', s') else some (at_, s)

/-- The longest trailing run that is a proper prefix of a stop string. -/
def stopPrefixHoldback (text : Text) (stops : List Text) : ℕ :=
  let longest := (stops.map fun s => s.length - 1).foldr max 0
  let candidates := (List.range (min longest text.length)).reverse.map (· + 1)
  (candidates.find? fun k =>
    stops.any fun s => k < s.length && (text.drop (text.length - k)).isPrefixOf s).getD 0

structure StopMatcher where
  stops : List Text
  stopTokens : List ℕ
  pending : Text

namespace StopMatcher

def new (stops : List Text) (stopTokens : List ℕ) : StopMatcher :=
  ⟨stops.filter fun s => !s.isEmpty, stopTokens, []⟩

variable (m : StopMatcher)

def isStopToken (token : ℕ) : Bool := m.stopTokens.contains token

def push (piece : Text) : StopStep × StopMatcher :=
  if m.stops.isEmpty then (.emit piece, m)
  else
    let pending := m.pending ++ piece
    match earliestStopMatch pending m.stops with
    | some (cut, stop) => (.matched (pending.take cut) stop, { m with pending := [] })
    | none =>
        let split := pending.length - stopPrefixHoldback pending m.stops
        (.emit (pending.take split), { m with pending := pending.drop split })

/-- What is still withheld when no stop can match any more. -/
def flush : Text × StopMatcher := (m.pending, { m with pending := [] })

def flushWith (tail : Text) : Text × StopMatcher := (m.pending ++ tail, { m with pending := [] })

/-- Nothing matches what is withheld, and all of it may still become a stop string. -/
def Settled : Prop :=
  m.stops = [] ∨ (earliestStopMatch m.pending m.stops = none ∧
    stopPrefixHoldback m.pending m.stops = m.pending.length)

end StopMatcher

theorem findText_drop {s text : Text} (hs : s ≠ []) (h : findText s text = none) (n : ℕ) :
    findText s (text.drop n) = none := by
  induction text generalizing n with
  | nil => rwa [List.drop_nil]
  | cons c text ih =>
    cases n with
    | zero => exact h
    | succ n =>
      rw [findText] at h
      split at h
      · cases h
      · exact ih (Option.map_eq_none_iff.mp h) n

theorem earliestStopMatch_eq_none_iff {text : Text} {stops : List Text} :
    earliestStopMatch text stops = none ↔ ∀ s ∈ stops, s ≠ [] → findText s text = none := by
  induction stops with
  | nil => exact ⟨fun _ _ hs => (nomatch hs), fun _ => rfl⟩
  | cons s stops ih =>
    rw [List.forall_mem_cons, ← ih]
    rw [earliestStopMatch]
    by_cases hs : s = []
    · subst hs
      simp
    · have he : s.isEmpty = false := List.isEmpty_eq_false_iff.mpr hs
      rw [he, if_neg Bool.false_ne_true]
      cases hf : findText s text with
      | none => simp
      | some i =>
        constructor
        · intro h
          split at h
          · contradiction
          · cases h
          · split at h <;> cases h
        · intro h
          exact absurd (h.1 hs) (Option.some_ne_none i)

theorem holdback_spec (text : Text) (stops : List Text) :
    stopPrefixHoldback text stops = 0 ∨
      (stopPrefixHoldback text stops ≤ (stops.map fun s => s.length - 1).foldr max 0 ∧
        stopPrefixHoldback text stops ≤ text.length ∧
        ∃ s ∈ stops, stopPrefixHoldback text stops < s.length ∧
          (text.drop (text.length - stopPrefixHoldback text stops)).isPrefixOf s = true) := by
  rw [stopPrefixHoldback]
  cases h : List.find? _ _ with
  | none => exact Or.inl rfl
  | some k =>
    right
    have hk := List.mem_of_find?_eq_some h
    simp only [List.mem_map, List.mem_reverse, List.mem_range] at hk
    obtain ⟨i, hi, rfl⟩ := hk
    have hany := List.find?_some h
    obtain ⟨s, hs, hp⟩ := List.any_eq_true.mp hany
    rw [Bool.and_eq_true, decide_eq_true_iff] at hp
    have hl := Nat.min_le_left ((stops.map fun s => s.length - 1).foldr max 0) text.length
    have hr := Nat.min_le_right ((stops.map fun s => s.length - 1).foldr max 0) text.length
    rw [Option.getD_some]
    exact ⟨by omega, by omega, s, hs, hp⟩

theorem holdback_le (text : Text) (stops : List Text) :
    stopPrefixHoldback text stops ≤ text.length := by
  rcases holdback_spec text stops with h | ⟨-, h, -⟩
  · omega
  · exact h

/-- What is held back would be held back on its own. -/
theorem holdback_drop (text : Text) (stops : List Text) :
    stopPrefixHoldback (text.drop (text.length - stopPrefixHoldback text stops)) stops =
      (text.drop (text.length - stopPrefixHoldback text stops)).length := by
  have hle := holdback_le text stops
  have hlen : (text.drop (text.length - stopPrefixHoldback text stops)).length =
      stopPrefixHoldback text stops := by
    rw [List.length_drop]
    omega
  rcases holdback_spec text stops with h | ⟨hmax, -, s, hs, hlt, hp⟩
  · have := holdback_le (text.drop (text.length - stopPrefixHoldback text stops)) stops
    omega
  · generalize hheld : text.drop (text.length - stopPrefixHoldback text stops) = held at *
    obtain ⟨k, hk⟩ | hk : (∃ k, stopPrefixHoldback text stops = k + 1) ∨
        stopPrefixHoldback text stops = 0 := by
      cases stopPrefixHoldback text stops with
      | zero => exact Or.inr rfl
      | succ k => exact Or.inl ⟨k, rfl⟩
    swap
    · have := holdback_le held stops
      omega
    rw [hk] at hlen hmax hlt
    rw [stopPrefixHoldback, hlen, Nat.min_eq_right hmax, List.range_succ, List.reverse_append]
    rw [List.reverse_singleton, List.singleton_append, List.map_cons, List.find?_cons_of_pos]
    · rfl
    · apply List.any_eq_true.mpr
      refine ⟨s, hs, ?_⟩
      rw [Nat.sub_self, List.drop_zero, hp, Bool.and_true]
      exact decide_eq_true hlt

namespace StopMatcher

variable {m m' : StopMatcher} {piece text : Text}

theorem settled_new (stops : List Text) (stopTokens : List ℕ) :
    (StopMatcher.new stops stopTokens).Settled := by
  right
  constructor
  · apply earliestStopMatch_eq_none_iff.mpr
    intro s _ hs
    cases s with
    | nil => exact absurd rfl hs
    | cons c s => rfl
  · exact Nat.le_zero.mp (holdback_le [] _)

/-- Text that goes out leaves the matcher with nothing it could still release. -/
theorem settled_of_push (h : m.push piece = (.emit text, m')) : m'.Settled := by
  rw [push] at h
  split at h
  · rename_i hs
    cases h
    exact Or.inl (List.isEmpty_iff.mp hs)
  · dsimp only at h
    split at h
    · cases h
    · rename_i hnone
      cases h
      right
      constructor
      · apply earliestStopMatch_eq_none_iff.mpr
        intro s hs hne
        exact findText_drop hne (earliestStopMatch_eq_none_iff.mp hnone s hs hne) _
      · exact holdback_drop _ _

/-- An empty piece changes nothing. -/
theorem push_nil (h : m.Settled) : m.push [] = (.emit [], m) := by
  rw [push]
  split
  · rfl
  · rename_i hs
    rcases h with h | ⟨hnone, hheld⟩
    · exact absurd (List.isEmpty_iff.mpr h) hs
    · rw [List.append_nil]
      dsimp only
      rw [hnone, hheld, Nat.sub_self]
      rfl

end StopMatcher

end Frink.Decode

/-! ## Searching text

The string operations the readers of model output are written with, on lists of characters. Every
marker they look for opens with an ASCII character and every offset comes from a search, so an
offset in bytes and one in characters cut a text at the same place.
-/

namespace Frink.Tool
open Decode

/-- The white space of Unicode. -/
def isWhitespace (c : Char) : Bool :=
  let n := c.toNat
  (9 ≤ n && n ≤ 13) || n == 32 || n == 0x85 || n == 0xA0 || n == 0x1680 ||
    (0x2000 ≤ n && n ≤ 0x200A) || n == 0x2028 || n == 0x2029 || n == 0x202F || n == 0x205F ||
    n == 0x3000

def trimStart (t : Text) : Text := t.dropWhile isWhitespace

def trimEnd (t : Text) : Text := (t.reverse.dropWhile isWhitespace).reverse

def trim (t : Text) : Text := trimEnd (trimStart t)

def splitWhitespace (t : Text) : List Text := (t.splitOnP isWhitespace).filter (· ≠ [])

def contains (t pat : Text) : Bool := (findText pat t).isSome

def stripPrefix (t pat : Text) : Option Text :=
  if pat.isPrefixOf t then some (t.drop pat.length) else none

/-- The bytes of a text. -/
def byteLen (t : Text) : ℕ := (t.map Char.utf8Size).sum

section Find

variable {pat t : Text} {i : ℕ}

theorem findText_spec (h : findText pat t = some i) : pat <+: t.drop i ∧ i ≤ t.length := by
  induction t generalizing i with
  | nil =>
    unfold findText at h
    split at h
    · rename_i hp
      obtain rfl := Option.some.inj h
      exact ⟨List.isPrefixOf_iff_prefix.mp hp, Nat.le_refl _⟩
    · cases h
  | cons c t ih =>
    unfold findText at h
    split at h
    · rename_i hp
      obtain rfl := Option.some.inj h
      exact ⟨List.isPrefixOf_iff_prefix.mp hp, Nat.zero_le _⟩
    · obtain ⟨j, hj, rfl⟩ := Option.map_eq_some_iff.mp h
      exact ⟨(ih hj).1, Nat.succ_le_succ (ih hj).2⟩

/-- A pattern lies within the text it was found in. -/
theorem findText_le (h : findText pat t = some i) : i + pat.length ≤ t.length := by
  obtain ⟨hp, hi⟩ := findText_spec h
  have hlen := hp.length_le
  rw [List.length_drop] at hlen
  omega

theorem findText_of_prefix (h : pat <+: t) : findText pat t = some 0 := by
  have hp := List.isPrefixOf_iff_prefix.mpr h
  cases t with
  | nil => simp [findText, hp]
  | cons c t => simp [findText, hp]

theorem stripPrefix_spec {t pat rest : Text} (h : stripPrefix t pat = some rest) :
    t = pat ++ rest := by
  unfold stripPrefix at h
  split at h
  · rename_i hp
    obtain rfl := Option.some.inj h
    obtain ⟨rest, rfl⟩ := List.isPrefixOf_iff_prefix.mp hp
    rw [List.drop_left]
  · cases h

end Find

end Frink.Tool
