import Frink.Decode.StopCuts
import Frink.Decode.Utf8Stream

/-! # Withholding by bytes

The split of the withheld text is computed on bytes and moved down to a character. No character
starts with a continuation byte, so the tail that may become a stop string starts at a character
anyway.
-/

namespace Frink.Decode
open Codec Gbnf

section Partial

variable {α : Type}

/-- A beginning of some stop that is not all of it. -/
def Partial (stops : List (List α)) (w : List α) : Prop := ∃ s ∈ stops, w <+: s ∧ w ≠ s

/-- The longest suffix that is a proper prefix of some stop; nothing if there is none. -/
structure LongestPartial (stops : List (List α)) (text w : List α) : Prop where
  isSuffix : w <:+ text
  isPartial : w ≠ [] → Partial stops w
  longest : ∀ v, v <:+ text → Partial stops v → v.length ≤ w.length

variable {stops : List (List α)} {text w w' : List α}

theorem LongestPartial.unique (h : LongestPartial stops text w)
    (h' : LongestPartial stops text w') : w = w' := by
  have hle : ∀ {w w' : List α}, LongestPartial stops text w → LongestPartial stops text w' →
      w.length ≤ w'.length := by
    intro w w' h h'
    by_cases hw : w = []
    · rw [hw]
      exact Nat.zero_le _
    · exact h'.longest w h.isSuffix (h.isPartial hw)
  have hlen := Nat.le_antisymm (hle h h') (hle h' h)
  exact (List.suffix_of_suffix_length_le h.isSuffix h'.isSuffix hlen.le).eq_of_length hlen

/-- Searching downwards for a tail that is a proper prefix finds the longest. -/
theorem longestPartial_of_find [BEq α] [LawfulBEq α] {n : ℕ}
    (hn : ∀ v, v <:+ text → Partial stops v → v.length ≤ n) (hlen : n ≤ text.length) :
    LongestPartial stops text (text.drop (text.length -
      (((List.range n).reverse.map (· + 1)).find? fun k =>
        stops.any fun s => k < s.length && (text.drop (text.length - k)).isPrefixOf s).getD 0)) := by
  generalize hk : (((List.range n).reverse.map (· + 1)).find? fun k =>
    stops.any fun s => k < s.length && (text.drop (text.length - k)).isPrefixOf s).getD 0 = k
  have hle : k ≤ text.length := by
    cases hf : ((List.range n).reverse.map (· + 1)).find? fun k =>
      stops.any fun s => k < s.length && (text.drop (text.length - k)).isPrefixOf s with
    | none =>
      rw [hf] at hk
      exact hk ▸ Nat.zero_le _
    | some j =>
      rw [hf] at hk
      obtain rfl : j = k := hk
      have hmem := List.mem_of_find?_eq_some hf
      simp only [List.mem_map, List.mem_reverse, List.mem_range] at hmem
      omega
  have htail : ∀ {j : ℕ}, j ≤ text.length → (text.drop (text.length - j)).length = j := by
    intro j hj
    rw [List.length_drop]
    omega
  refine ⟨List.drop_suffix _ _, fun hne => ?_, fun v hv hp => ?_⟩
  · cases hf : ((List.range n).reverse.map (· + 1)).find? fun k =>
      stops.any fun s => k < s.length && (text.drop (text.length - k)).isPrefixOf s with
    | none =>
      rw [hf] at hk
      obtain rfl : 0 = k := hk
      simp at hne
    | some j =>
      rw [hf] at hk
      obtain rfl : j = k := hk
      have hany := List.find?_some hf
      obtain ⟨s, hs, hp⟩ := List.any_eq_true.mp hany
      rw [Bool.and_eq_true, decide_eq_true_iff] at hp
      refine ⟨s, hs, List.isPrefixOf_iff_prefix.mp hp.2, fun heq => ?_⟩
      exact absurd (heq ▸ htail hle) (Nat.ne_of_gt hp.1)
  · rw [htail hle]
    obtain hz | hpos := Nat.eq_zero_or_pos v.length
    · omega
    rw [← hk]
    apply le_find_down hpos (hn v hv hp)
    obtain ⟨s, hs, hvs, hne⟩ := hp
    have hdrop : text.drop (text.length - v.length) = v := (List.suffix_iff_eq_drop.mp hv).symm
    apply List.any_eq_true.mpr
    refine ⟨s, hs, ?_⟩
    rw [hdrop, List.isPrefixOf_iff_prefix.mpr hvs, Bool.and_true]
    have hlt := hvs.length_le
    have hneq : v.length ≠ s.length := fun h => hne (hvs.eq_of_length h)
    exact decide_eq_true (by omega)

/-- The bound of the search: one less than the longest stop, and the length of the text. -/
theorem partial_length_le {v : List α} (hv : v <:+ text) (hp : Partial stops v) :
    v.length ≤ min ((stops.map fun s => s.length - 1).foldr max 0) text.length := by
  obtain ⟨s, hs, hvs, hne⟩ := hp
  have hlt := hvs.length_le
  have hneq : v.length ≠ s.length := fun h => hne (hvs.eq_of_length h)
  apply Nat.le_min.mpr
  refine ⟨?_, hv.length_le⟩
  have hmax : s.length - 1 ≤ (stops.map fun s => s.length - 1).foldr max 0 := by
    induction stops with
    | nil => cases hs
    | cons t stops ih =>
      rw [List.map_cons, List.foldr_cons]
      obtain rfl | hs := List.mem_cons.mp hs
      · exact Nat.le_max_left _ _
      · exact Nat.le_trans (ih hs) (Nat.le_max_right _ _)
  omega

end Partial

/-- The rule on bytes: the length of the longest trailing run that is a proper prefix of a stop
string. -/
def stopPrefixHoldbackBytes (text : List UInt8) (stopStrs : List (List UInt8)) : ℕ :=
  let longest := (stopStrs.map fun s => s.length - 1).foldr max 0
  let maxK := min longest text.length
  (((List.range maxK).reverse.map (· + 1)).find? fun k =>
    stopStrs.any fun s => k < s.length && (text.drop (text.length - k)).isPrefixOf s).getD 0

def isCharBoundary (text : List UInt8) (idx : ℕ) : Bool :=
  idx == 0 || if h : idx < text.length then !isContinuation text[idx] else idx == text.length

/-- The largest boundary at or below an index of the text. -/
def floorCharBoundary (text : List UInt8) (at_ : ℕ) : ℕ := walk (min at_ text.length)
where
  walk : ℕ → ℕ
    | 0 => 0
    | idx + 1 => if isCharBoundary text (idx + 1) then idx + 1 else walk idx

/-- The characters before a byte offset, and those from it on. -/
def splitAtByte : ℕ → Text → Text × Text
  | _, [] => ([], [])
  | at_, c :: text =>
      if at_ = 0 then ([], c :: text)
      else
        let (before, after) := splitAtByte (at_ - c.utf8Size) text
        (c :: before, after)

theorem longestPartial_holdback (text : Text) (stops : List Text) :
    LongestPartial stops text (text.drop (text.length - stopPrefixHoldback text stops)) :=
  longestPartial_of_find (fun _ => partial_length_le) (Nat.min_le_right _ _)

theorem longestPartial_holdbackBytes (text : List UInt8) (stops : List (List UInt8)) :
    LongestPartial stops text (text.drop (text.length - stopPrefixHoldbackBytes text stops)) :=
  longestPartial_of_find (fun _ => partial_length_le) (Nat.min_le_right _ _)

section Encoding

variable {stops : List Text} {text : Text} {s v : Text} {w : List UInt8}

theorem encode_eq_nil_iff : encode text = [] ↔ text = [] := by
  constructor
  · intro h
    cases text with
    | nil => rfl
    | cons c text =>
      obtain ⟨lead, tail, hc, _⟩ := piece_encode c (encode text)
      rw [encode_cons, hc] at h
      cases h
  · rintro rfl
    rfl

/-- A text whose bytes begin those of another begins it. -/
theorem prefix_of_encode (h : encode v <+: encode s) : v <+: s := by
  induction v generalizing s with
  | nil => exact List.nil_prefix
  | cons c v ih =>
    obtain ⟨rest, hrest⟩ := h
    cases s with
    | nil =>
      have hnil := List.append_eq_nil_iff.mp hrest
      exact absurd (encode_eq_nil_iff.mp hnil.1) (List.cons_ne_nil _ _)
    | cons d s =>
      obtain ⟨lead, tail, hc, hp⟩ := piece_encode c (encode v ++ rest)
      obtain ⟨lead', tail', hd, hp'⟩ := piece_encode d (encode s)
      rw [encode_cons, encode_cons, hc, hd, List.append_assoc, List.cons_append,
        List.cons_append] at hrest
      obtain ⟨rfl, htail⟩ := List.cons.inj hrest
      rw [htail, hp'] at hp
      obtain ⟨-, rfl, hs⟩ := Piece.decoded.inj hp
      exact List.cons_prefix_cons.mpr ⟨rfl, ih ⟨rest, hs.symm⟩⟩

theorem encode_prefix_iff : encode v <+: encode s ↔ v <+: s := by
  constructor
  · exact prefix_of_encode
  · rintro ⟨rest, rfl⟩
    exact ⟨encode rest, (encode_append v rest).symm⟩

theorem encode_injective (h : encode v = encode s) : v = s := by
  have hvs : v <+: s := prefix_of_encode (h ▸ List.prefix_refl _)
  have hsv : s <+: v := prefix_of_encode (h ▸ List.prefix_refl _)
  exact hvs.eq_of_length_le hsv.length_le

theorem lead_not_continuation {b : UInt8} {bytes : List UInt8} (hv : encode v = b :: bytes) :
    isContinuation b = false := by
  cases v with
  | nil => cases hv
  | cons c v =>
    obtain ⟨lead, tail, hc, hp⟩ := piece_encode c (encode v)
    rw [encode_cons, hc, List.cons_append] at hv
    obtain ⟨rfl, -⟩ := List.cons.inj hv
    apply eq_false_of_ne_true
    intro hcont
    obtain ⟨hlo, hhi⟩ := isContinuation_iff.mp hcont
    unfold piece at hp
    rw [announced_eq, if_neg (by omega), if_neg (by omega), if_neg (by omega), if_neg (by omega)]
      at hp
    cases hp

/-- A byte suffix starts at a character, or with a continuation byte. -/
theorem suffix_encode (h : w <:+ encode text) :
    (∃ v, v <:+ text ∧ w = encode v) ∨ ∃ b bytes, w = b :: bytes ∧ isContinuation b = true := by
  induction text with
  | nil =>
    left
    exact ⟨[], List.suffix_refl _, List.suffix_nil.mp h⟩
  | cons c text ih =>
    rw [encode_cons] at h
    obtain hw | ⟨t, rfl⟩ := List.suffix_or_suffix_of_suffix h (List.suffix_append _ (encode text))
    · obtain ⟨v, hv, rfl⟩ | hcont := ih hw
      · exact Or.inl ⟨v, hv.trans (List.suffix_cons c text), rfl⟩
      · exact Or.inr hcont
    · obtain ⟨front, hfront⟩ := List.suffix_append_self_iff.mp h
      cases t with
      | nil => exact Or.inl ⟨text, List.suffix_cons c text, rfl⟩
      | cons b t =>
        obtain rfl | hne := Decidable.em (front = [])
        · left
          refine ⟨c :: text, List.suffix_refl _, ?_⟩
          rw [encode_cons, ← hfront, List.nil_append]
        · right
          refine ⟨b, t ++ encode text, rfl, ?_⟩
          have hget : (String.utf8EncodeChar c)[front.length]? = some b := by
            rw [← hfront, List.getElem?_append_right (Nat.le_refl _), Nat.sub_self]
            rfl
          obtain ⟨hlater, -⟩ := laterByte (List.length_pos_of_ne_nil hne) hget
          exact isContinuation_iff.mpr (by omega)

theorem encode_suffix (h : v <:+ text) : encode v <:+ encode text := by
  obtain ⟨front, rfl⟩ := h
  exact ⟨encode front, (encode_append front v).symm⟩

/-- The bytes of a partial stop are those of a partial stop. -/
theorem partial_encode_iff : Partial (stops.map encode) (encode v) ↔ Partial stops v := by
  constructor
  · rintro ⟨_, hmem, hp, hne⟩
    obtain ⟨r, hr, rfl⟩ := List.mem_map.mp hmem
    exact ⟨r, hr, encode_prefix_iff.mp hp, fun h => hne (h ▸ rfl)⟩
  · rintro ⟨s, hs, hp, hne⟩
    exact ⟨encode s, List.mem_map_of_mem hs, encode_prefix_iff.mpr hp,
      fun h => hne (encode_injective h)⟩

/-- The longest partial stop in bytes is the longest in characters. -/
theorem LongestPartial.encode (h : LongestPartial stops text v) :
    LongestPartial (stops.map Gbnf.encode) (Gbnf.encode text) (Gbnf.encode v) where
  isSuffix := encode_suffix h.isSuffix
  isPartial := by
    intro hne
    apply partial_encode_iff.mpr (h.isPartial _)
    rintro rfl
    exact hne rfl
  longest := by
    intro w hw hp
    obtain ⟨u, hu, rfl⟩ | ⟨b, bytes, rfl, hcont⟩ := suffix_encode hw
    · have hlen := h.longest u hu (partial_encode_iff.mp hp)
      have hsuffix := List.suffix_of_suffix_length_le hu h.isSuffix hlen
      exact (encode_suffix hsuffix).length_le
    · obtain ⟨_, hs, ⟨rest, hrest⟩, -⟩ := hp
      obtain ⟨s, -, rfl⟩ := List.mem_map.mp hs
      rw [lead_not_continuation hrest.symm] at hcont
      cases hcont

theorem splitAtByte_encode (u v : Text) : splitAtByte (encode u).length (u ++ v) = (u, v) := by
  induction u with
  | nil =>
    cases v with
    | nil => rfl
    | cons c v => rfl
  | cons c u ih =>
    have hpos := c.utf8Size_pos
    have hlen : (encode (c :: u)).length = c.utf8Size + (encode u).length := by
      rw [encode_cons, List.length_append, String.length_utf8EncodeChar]
    rw [List.cons_append, splitAtByte, if_neg (by omega), hlen, Nat.add_sub_cancel_left, ih]

/-- An offset between two characters is a boundary. -/
theorem isCharBoundary_encode (u v : Text) :
    isCharBoundary (encode (u ++ v)) (encode u).length = true := by
  unfold isCharBoundary
  rw [Bool.or_eq_true]
  right
  split
  · rename_i hlt
    cases hv : encode v with
    | nil =>
      rw [encode_append, hv, List.append_nil] at hlt
      exact absurd hlt (Nat.lt_irrefl _)
    | cons b bytes =>
      have hget : (encode (u ++ v))[(encode u).length] = b := by
        simp [encode_append, hv]
      rw [hget, lead_not_continuation hv]
      rfl
  · rename_i hge
    rw [encode_append, List.length_append] at hge ⊢
    apply beq_iff_eq.mpr
    omega

theorem floorCharBoundary_encode (u v : Text) :
    floorCharBoundary (encode (u ++ v)) (encode u).length = (encode u).length := by
  have hle : (encode u).length ≤ (encode (u ++ v)).length := by
    rw [encode_append, List.length_append]
    exact Nat.le_add_right _ _
  unfold floorCharBoundary
  rw [Nat.min_eq_left hle]
  have hb := isCharBoundary_encode u v
  cases hn : (encode u).length with
  | zero => rfl
  | succ n =>
    rw [hn] at hb
    rw [floorCharBoundary.walk, if_pos hb]

end Encoding

namespace StopMatcher

variable (m : StopMatcher)

/-- The second layer, its split computed on the bytes. -/
def pushBytes (piece : Text) : StopStep × StopMatcher :=
  if m.stops.isEmpty then (.emit piece, m)
  else
    let pending := m.pending ++ piece
    match earliestStopMatch pending m.stops with
    | some (cut, stop) => (.matched (pending.take cut) stop, { m with pending := [] })
    | none =>
        let bytes := encode pending
        let keep := stopPrefixHoldbackBytes bytes (m.stops.map encode)
        let split := floorCharBoundary bytes (bytes.length - keep)
        let (out, rest) := splitAtByte split pending
        (.emit out, { m with pending := rest })

/-- The bytes split where the characters do. -/
theorem split_eq (pending : Text) (stops : List Text) :
    splitAtByte (floorCharBoundary (encode pending) ((encode pending).length -
      stopPrefixHoldbackBytes (encode pending) (stops.map encode))) pending =
      (pending.take (pending.length - stopPrefixHoldback pending stops),
        pending.drop (pending.length - stopPrefixHoldback pending stops)) := by
  generalize hn : pending.length - stopPrefixHoldback pending stops = n
  have hchars := (longestPartial_holdback pending stops).encode
  have hbytes := longestPartial_holdbackBytes (encode pending) (stops.map encode)
  have heq := hbytes.unique hchars
  rw [hn] at heq
  have hsplit : (encode pending).length -
      stopPrefixHoldbackBytes (encode pending) (stops.map encode) =
      (encode (pending.take n)).length := by
    have hlen := congrArg List.length heq
    have hwhole : (encode pending).length =
        (encode (pending.take n)).length + (encode (pending.drop n)).length := by
      rw [← List.length_append, ← encode_append, List.take_append_drop]
    rw [List.length_drop] at hlen
    omega
  have hfloor := floorCharBoundary_encode (pending.take n) (pending.drop n)
  have hat := splitAtByte_encode (pending.take n) (pending.drop n)
  rw [List.take_append_drop] at hfloor hat
  rw [hsplit, hfloor, hat]

theorem pushBytes_eq_push (piece : Text) : m.pushBytes piece = m.push piece := by
  unfold pushBytes push
  split
  · rfl
  · simp only [split_eq]
    all_goals rfl

variable {m} {out seen : Text} {stops : List Text}

/-- What is withheld is the longest tail that may still become a stop. -/
theorem longest_of_holds (h : m.Holds out seen) (hs : m.Settled) :
    LongestPartial m.stops seen m.pending where
  isSuffix := ⟨out, h.seen_eq.symm⟩
  isPartial := by
    intro hne
    obtain hnil | ⟨-, hheld⟩ := hs
    · exact absurd (h.idle hnil) hne
    · have hp := (longestPartial_holdback m.pending m.stops).isPartial
      rw [hheld, Nat.sub_self, List.drop_zero] at hp
      exact hp hne
  longest := by
    rintro v ⟨front, hfront⟩ ⟨s, hs, hp, -⟩
    have hlen := congrArg List.length (hfront.trans h.seen_eq)
    rw [List.length_append, List.length_append] at hlen
    by_contra hlong
    apply h.withheld s hs front.length (by omega)
    rwa [← hfront, List.drop_left]

/-- Pieces pushed for as long as none completes a stop string: what was emitted, and the
matcher. -/
def pushAll (m : StopMatcher) : List Text → Option (Text × StopMatcher)
  | [] => some ([], m)
  | piece :: pieces =>
      match m.pushBytes piece with
      | (.matched _ _, _) => none
      | (.emit text, m) => (m.pushAll pieces).map fun r => (text ++ r.1, r.2)

theorem pushAll_spec {m' : StopMatcher} {text : Text} {pieces : List Text}
    (h : m.Holds out seen) (hs : m.Settled) (hp : m.pushAll pieces = some (text, m')) :
    m'.stops = m.stops ∧ m'.Holds (out ++ text) (seen ++ pieces.flatten) ∧ m'.Settled := by
  induction pieces generalizing m out seen text with
  | nil =>
    obtain ⟨rfl, rfl⟩ := Prod.mk.inj (Option.some.inj hp)
    rw [List.flatten_nil, List.append_nil, List.append_nil]
    exact ⟨rfl, h, hs⟩
  | cons piece pieces ih =>
    rw [pushAll, pushBytes_eq_push] at hp
    cases hm : earliestStopMatch (seen ++ piece) m.stops with
    | some best =>
      obtain ⟨i, s⟩ := best
      obtain ⟨_, _, hpush, -⟩ := h.push_matched (reported_of_earliest hm)
      rw [hpush] at hp
      cases hp
    | none =>
      obtain ⟨first, next, hpush, hstops, h'⟩ := h.push_unmatched (earliest_none_iff.mp hm)
      rw [hpush] at hp
      obtain ⟨⟨rest, last⟩, hrest, heq⟩ := Option.map_eq_some_iff.mp hp
      obtain ⟨rfl, rfl⟩ := Prod.mk.inj heq
      have hlast := ih h' (settled_of_push hpush) hrest
      rw [List.append_assoc, List.append_assoc, ← List.flatten_cons, hstops] at hlast
      exact hlast

/-- The shortest suffix of whole characters around the longest run of bytes that ends the text and
is a proper prefix of a stop string. -/
def Withheld (stops : List Text) (text pending : Text) : Prop :=
  ∃ w, LongestPartial (stops.map encode) (encode text) w ∧ pending <:+ text ∧
    w <:+ encode pending ∧ ∀ p, p <:+ text → w <:+ encode p → pending <:+ p

theorem partial_filter {v : Text} :
    Partial (stops.filter fun s => !s.isEmpty) v ↔ Partial stops v := by
  constructor
  · rintro ⟨s, hs, h⟩
    exact ⟨s, (List.mem_filter.mp hs).1, h⟩
  · rintro ⟨s, hs, hp, hne⟩
    refine ⟨s, List.mem_filter.mpr ⟨hs, ?_⟩, hp, hne⟩
    cases s with
    | nil => exact absurd (List.prefix_nil.mp hp) hne
    | cons => rfl

theorem withheld_of_longest {text pending : Text}
    (h : LongestPartial (stops.filter fun s => !s.isEmpty) text pending) :
    Withheld stops text pending := by
  have h' : LongestPartial stops text pending :=
    ⟨h.isSuffix, fun hne => partial_filter.mp (h.isPartial hne),
      fun v hv hp => h.longest v hv (partial_filter.mpr hp)⟩
  refine ⟨encode pending, h'.encode, h'.isSuffix, List.suffix_refl _, fun p hp hw => ?_⟩
  obtain hle | hle := List.suffix_or_suffix_of_suffix h'.isSuffix hp
  · exact hle
  · have heq := (encode_suffix hle).eq_of_length_le hw.length_le
    exact encode_injective heq ▸ List.suffix_refl _

end StopMatcher

end Frink.Decode
