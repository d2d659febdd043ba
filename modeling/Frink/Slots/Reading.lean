import Frink.Slots.File

/-! # A sized body, word by word

Where the header's counts add up to the body, every offset that the reader
computes is a word of the body. What it reads is given outright, and room for it
is all that it can lack.
-/

namespace Frink.Slots

open Codec Guarded
open KvDisk (KvDtype KvBuf Bytes32)

variable {ρ : Type} {half : HalfConversion} {room : ℕ} {body : List UInt8} {h : Header}

/-- The `i`-th word. -/
def word (body : List UInt8) (i : ℕ) : ℕ := fromLe ((body.drop (i * 4)).take 4)

def wordBits (body : List UInt8) (i : ℕ) : BitVec 32 := .ofNat 32 (word body i)

/-- The `n` words from the `start`-th on, as bits. -/
def wordsAt (body : List UInt8) (start n : ℕ) : List (BitVec 32) :=
  (List.range' start n).map (wordBits body)

@[simp] theorem length_wordsAt (start n : ℕ) : (wordsAt body start n).length = n := by
  simp [wordsAt]

theorem wordsAt_append (start m n : ℕ) :
    wordsAt body start m ++ wordsAt body (start + m) n = wordsAt body start (m + n) := by
  rw [wordsAt, wordsAt, ← List.map_append, List.range'_append_1]
  rfl

theorem wordsAt_eq_map (start n : ℕ) :
    wordsAt body start n = (List.range n).map fun i => wordBits body (start + i) := by
  rw [wordsAt, List.range'_eq_map_range, List.map_map]
  rfl

section Words

variable {words i start n : ℕ}

theorem readLe_word (hlen : body.length < U64_LIMIT) (hi : i * 4 + 4 ≤ body.length) :
    readLe 4 body (i * 4) = .ok (word body i) := by
  have hadd : (addU64 (i * 4) 4 : Decoding ℕ) = .ok (i * 4 + 4) :=
    addU64_eq_ok.mpr ⟨by omega, rfl⟩
  have hslice : (slice body (i * 4) (i * 4 + 4) : Decoding _) =
      .ok ((body.drop (i * 4)).take 4) :=
    slice_eq_ok.mpr ⟨⟨by omega, hi⟩, by rw [Nat.add_sub_cancel_left]⟩
  rw [readLe, hadd]
  simp only [bind, Except.bind, hslice]
  rfl

theorem readF32_word (hlen : body.length < U64_LIMIT) (hi : i * 4 + 4 ≤ body.length) :
    readF32 body (i * 4) = .ok (wordBits body i) := by
  rw [readF32, readLe_word hlen hi]
  rfl

theorem readMany_words {α : Type} {read : ℕ → Decoding α} {f : ℕ → α}
    (hread : ∀ i, start ≤ i → i < start + n → read (i * 4) = .ok (f i))
    (hlt : (start + n) * 4 < U64_LIMIT) :
    readMany read n (start * 4) = .ok ((List.range' start n).map f, (start + n) * 4) := by
  induction n generalizing start with
  | zero => rfl
  | succ n ih =>
    have hnext : (addU64 (start * 4) 4 : Decoding ℕ) = .ok ((start + 1) * 4) :=
      addU64_eq_ok.mpr ⟨by omega, by omega⟩
    have hrest : readMany read n ((start + 1) * 4) =
        .ok ((List.range' (start + 1) n).map f, (start + 1 + n) * 4) := by
      apply ih
      · intro i hle hi
        exact hread i (by omega) (by omega)
      · omega
    have hsum : start + 1 + n = start + (n + 1) := by omega
    rw [hsum] at hrest
    rw [readMany, hread start (Nat.le_refl _) (by omega)]
    simp only [bind, Except.bind, hnext, hrest]
    rfl

end Words

section Layers

variable {perPosition k v position held n : ℕ}

/-- The words of one position's rows. -/
theorem readStep_words (hlen : body.length < U64_LIMIT)
    (hk : (k + (position + 1) * perPosition) * 4 ≤ body.length)
    (hv : (v + (position + 1) * perPosition) * 4 ≤ body.length) :
    readStep body perPosition (k * 4) (v * 4) position =
      .ok (wordsAt body (k + position * perPosition) perPosition,
        wordsAt body (v + position * perPosition) perPosition) := by
  rw [Nat.succ_mul] at hk hv
  have hone : ∀ start, (start + (position * perPosition + perPosition)) * 4 ≤ body.length →
      ∀ element < perPosition,
        (fitU64 (start * 4 + (position * perPosition + element) * 4) : Decoding ℕ) =
          .ok ((start + position * perPosition + element) * 4) ∧
        readF32 body ((start + position * perPosition + element) * 4) =
          .ok (wordBits body (start + position * perPosition + element)) := by
    intro start hstart element helement
    exact ⟨fitU64_eq_ok.mpr ⟨by omega, by omega⟩, readF32_word hlen (by omega)⟩
  have hall : ∀ element ∈ List.range perPosition, (do
      let kAt ← fitU64 (k * 4 + (position * perPosition + element) * 4)
      let x ← readF32 body kAt
      let vAt ← fitU64 (v * 4 + (position * perPosition + element) * 4)
      let y ← readF32 body vAt
      (.ok (x, y) : Decoding _)) =
      .ok (wordBits body (k + position * perPosition + element),
        wordBits body (v + position * perPosition + element)) := by
    intro element helement
    rw [List.mem_range] at helement
    obtain ⟨hkAt, hkRead⟩ := hone k hk element helement
    obtain ⟨hvAt, hvRead⟩ := hone v hv element helement
    simp only [hkAt, hkRead, hvAt, hvRead, bind, Except.bind]
  rw [readStep, mapM_of_forall hall, wordsAt_eq_map, wordsAt_eq_map]
  simp only [bind, Except.bind, List.map_map]
  rfl

variable {cache : KvCache ρ}

/-- The positions are pushed in order, each with its own words. -/
theorem readPositions_words (hlen : body.length < U64_LIMIT) (hkw : cache.kWidth = perPosition)
    (hvw : cache.vWidth = perPosition)
    (hk : (k + (position + n) * perPosition) * 4 ≤ body.length)
    (hv : (v + (position + n) * perPosition) * 4 ≤ body.length)
    (hroom : held + (cache.k.len + n * perPosition) + (cache.v.len + n * perPosition) ≤ room) :
    readPositions half room body perPosition (k * 4) (v * 4) held n position cache =
      .ok (cache.extended half (wordsAt body (k + position * perPosition) (n * perPosition))
        (wordsAt body (v + position * perPosition) (n * perPosition)) n) := by
  induction n generalizing position cache with
  | zero => simp [readPositions, wordsAt, KvCache.extended_nil]
  | succ n ih =>
    have hnext : (position + 1) * perPosition ≤ (position + (n + 1)) * perPosition :=
      Nat.mul_le_mul_right _ (by omega)
    have hsucc : (n + 1) * perPosition = perPosition + n * perPosition := by ring
    have hskip : (position + 1) * perPosition = position * perPosition + perPosition := by ring
    rw [hsucc] at hroom ⊢
    have hstep : readStep body perPosition (k * 4) (v * 4) position = .ok _ :=
      readStep_words hlen (by omega) (by omega)
    set ks := wordsAt body (k + position * perPosition) perPosition with hks
    set vs := wordsAt body (v + position * perPosition) perPosition with hvs
    have hlenk : ks.length = perPosition := length_wordsAt _ _
    have hlenv : vs.length = perPosition := length_wordsAt _ _
    have hres : (reserve room (held + (cache.k.len + perPosition) + (cache.v.len + perPosition)) :
        Decoding Unit) = .ok () := reserve_eq_ok.mpr (by omega)
    have hpush : (cache.push half ks vs : Decoding _) = .ok (cache.extended half ks vs 1) :=
      KvCache.push_ok (hlenk.trans hkw.symm) (hlenv.trans hvw.symm)
    have hmove : position + 1 + n = position + (n + 1) := by omega
    have hfits : held + ((cache.extended half ks vs 1).k.len + n * perPosition) +
        ((cache.extended half ks vs 1).v.len + n * perPosition) ≤ room := by
      simp only [KvCache.extended, KvBuf.len_extendFromF32, hlenk, hlenv]
      omega
    have hrest := @ih (position + 1) (cache.extended half ks vs 1) hkw hvw (by rwa [hmove])
      (by rwa [hmove]) hfits
    rw [readPositions, hstep]
    simp only [bind, Except.bind, hres, hpush, hrest]
    rw [KvCache.extended_extended, hskip, ← Nat.add_assoc k, ← Nat.add_assoc v, hks, hvs,
      wordsAt_append, wordsAt_append, Nat.add_comm 1 n]

/-- The layer that the reader starts from. -/
def emptyLayer (ρ : Type) (h : Header) : KvCache ρ where
  nKvHeads := h.identity.nKvHeads
  headDim := h.identity.headDim
  vHeadDim := h.identity.headDim
  k := .new h.identity.dtype
  v := .new h.identity.dtype
  positions := 0
  recurrent := none
  same_dtype := rfl
  window := none

theorem withDtype_new (ρ : Type) (h : Header) :
    ((KvCache.new h.identity.nKvHeads h.identity.headDim).withDtype h.identity.dtype :
      Decoding (KvCache ρ)) = .ok (emptyLayer ρ h) := by
  obtain ⟨⟨_, _, _, _, dtype, _⟩, _, _, _⟩ := h
  cases dtype <;> rfl

/-- Elements of one row. -/
def Header.width (h : Header) : ℕ := h.identity.nKvHeads * h.identity.headDim

/-- Elements of one layer's K or V. -/
def Header.span (h : Header) : ℕ := h.positions * h.width

/-- The layer whose words start at the `start`-th. -/
def layerAt (ρ : Type) (half : HalfConversion) (body : List UInt8) (h : Header) (start : ℕ) :
    KvCache ρ :=
  (emptyLayer ρ h).extended half (wordsAt body start h.span) (wordsAt body (start + h.span) h.span)
    h.positions

theorem len_layerAt (layer : KvCache ρ) (start : ℕ) (hl : layer = layerAt ρ half body h start) :
    layer.k.len = h.span ∧ layer.v.len = h.span := by
  subst hl
  have hnew : (KvBuf.new h.identity.dtype).len = 0 := by cases h.identity.dtype <;> rfl
  simp [layerAt, KvCache.extended, emptyLayer, hnew]

variable {start : ℕ}

theorem readLayer_words (hlen : body.length < U64_LIMIT)
    (hfit : (start + 2 * h.span) * 4 ≤ body.length) (hvec : h.width ≤ ISIZE_MAX / 4)
    (hroom : held + 2 * h.width + 2 * h.span ≤ room) :
    readLayer half room body h h.width held (start * 4) =
      .ok (layerAt ρ half body h start, (start + 2 * h.span) * 4) := by
  have hspan : h.width * h.positions = h.span := Nat.mul_comm _ _
  have hnew : (KvBuf.new h.identity.dtype).len = 0 := by cases h.identity.dtype <;> rfl
  have hv : (fitU64 (start * 4 + h.width * h.positions * 4) : Decoding ℕ) =
      .ok ((start + h.span) * 4) := fitU64_eq_ok.mpr ⟨by rw [hspan]; omega, by rw [hspan]; omega⟩
  have hstop : (fitU64 ((start + h.span) * 4 + h.width * h.positions * 4) : Decoding ℕ) =
      .ok ((start + 2 * h.span) * 4) := fitU64_eq_ok.mpr ⟨by rw [hspan]; omega, by rw [hspan]; omega⟩
  have hvec' : (reserve (ISIZE_MAX / 4) h.width : Decoding Unit) = .ok () := reserve_eq_ok.mpr hvec
  have hscratch : (reserve room (held + 2 * h.width) : Decoding Unit) = .ok () :=
    reserve_eq_ok.mpr (by omega)
  have hrows : readPositions half room body h.width (start * 4) ((start + h.span) * 4)
      (held + 2 * h.width) h.positions 0 (emptyLayer ρ h) =
      .ok ((emptyLayer ρ h).extended half (wordsAt body (start + 0 * h.width) h.span)
        (wordsAt body (start + h.span + 0 * h.width) h.span) h.positions) := by
    have hkw : (emptyLayer ρ h).kWidth = h.width := rfl
    have hvw : (emptyLayer ρ h).vWidth = h.width := rfl
    apply readPositions_words hlen hkw hvw
    · rw [Nat.zero_add]
      show (start + h.span) * 4 ≤ _
      omega
    · rw [Nat.zero_add]
      show (start + h.span + h.span) * 4 ≤ _
      omega
    · show held + 2 * h.width + ((KvBuf.new h.identity.dtype).len + h.span) +
        ((KvBuf.new h.identity.dtype).len + h.span) ≤ room
      omega
  rw [Nat.zero_mul, Nat.add_zero, Nat.add_zero] at hrows
  rw [readLayer, withDtype_new]
  simp only [bind, Except.bind, hv, hvec', hscratch, hrows, hstop]
  rfl

theorem readLayers_words (hlen : body.length < U64_LIMIT)
    (hfit : (start + n * (2 * h.span)) * 4 ≤ body.length)
    (hroom : 0 < n → h.width ≤ ISIZE_MAX / 4 ∧ held + 2 * h.width + n * (2 * h.span) ≤ room) :
    readLayers half room body h h.width n held (start * 4) =
      .ok ((List.range n).map fun l => layerAt ρ half body h (start + l * (2 * h.span))) := by
  induction n generalizing start held with
  | zero => rfl
  | succ n ih =>
    obtain ⟨hvec, hroom⟩ := hroom (Nat.succ_pos n)
    have hmul : (n + 1) * (2 * h.span) = n * (2 * h.span) + 2 * h.span := Nat.succ_mul _ _
    rw [hmul] at hfit hroom
    obtain ⟨hk, hv⟩ := len_layerAt (layerAt ρ half body h start) start rfl
    have hlayer : readLayer half room body h h.width held (start * 4) =
        .ok (layerAt ρ half body h start, (start + 2 * h.span) * 4) :=
      readLayer_words hlen (by omega) hvec (by omega)
    have hrest : readLayers half room body h h.width n (held + h.span + h.span)
        ((start + 2 * h.span) * 4) = .ok ((List.range n).map fun l =>
          layerAt ρ half body h (start + 2 * h.span + l * (2 * h.span))) := by
      apply ih
      · omega
      · intro _
        exact ⟨hvec, by omega⟩
    rw [readLayers, hlayer]
    simp only [bind, Except.bind, hk, hv, hrest]
    rw [List.range_succ_eq_map, List.map_cons, List.map_map, Nat.zero_mul, Nat.add_zero]
    congr 2
    apply List.map_congr_left
    intro l _
    show layerAt ρ half body h (start + 2 * h.span + l * (2 * h.span)) =
      layerAt ρ half body h (start + (l + 1) * (2 * h.span))
    have hskip : start + 2 * h.span + l * (2 * h.span) = start + (l + 1) * (2 * h.span) := by ring
    rw [hskip]

end Layers

section Body

/-- The words of a body with these counts. -/
def Header.words (h : Header) : ℕ := h.identity.nLayers * (2 * h.span) + h.nPrompt + h.nLogits

/-- What a sized body holds. -/
def payloadOf (ρ : Type) (half : HalfConversion) (body : List UInt8) (h : Header) :
    SlotPayload ρ where
  tokens := (List.range' 0 h.nPrompt).map (word body)
  pendingLogits := wordsAt body h.nPrompt h.nLogits
  layers := (List.range h.identity.nLayers).map fun l =>
    layerAt ρ half body h (h.nPrompt + h.nLogits + l * (2 * h.span))

/-- Room for what the reader holds before the first row, its scratch rows among it. -/
def Header.opening (h : Header) : ℕ := h.nPrompt + h.nLogits + h.identity.nLayers + 2 * h.width

theorem perPosition_ok {perPosition bodyLen : ℕ} :
    h.perPosition bodyLen = .ok perPosition ↔ h.width < U64_LIMIT ∧ h.width = perPosition := by
  rw [Header.perPosition, orRefuse_eq_ok, checkedMul_eq_some]
  rfl

theorem computed_iff {bodyLen computed : ℕ} (hl : 0 < h.identity.nLayers) :
    h.computed bodyLen h.width = .ok computed ↔
      h.words * 4 < U64_LIMIT ∧ h.words * 4 = computed := by
  have hspan : h.width * h.positions = h.span := Nat.mul_comm _ _
  have htwice : h.span * 2 = 2 * h.span := Nat.mul_comm _ _
  have hlayers : 2 * h.span ≤ h.identity.nLayers * (2 * h.span) := Nat.le_mul_of_pos_left _ hl
  have hwords : h.words = h.identity.nLayers * (2 * h.span) + h.nPrompt + h.nLogits := rfl
  rw [Header.computed, bind_eq_ok]
  simp only [orRefuse_eq_ok, Option.bind_eq_some_iff, checkedMul_eq_some, checkedAdd,
    Option.ite_none_right_eq_some, Option.some.injEq, hspan]
  constructor
  · rintro ⟨perLayer, ⟨n, ⟨-, rfl⟩, -, rfl⟩, c, ⟨b, ⟨a, ⟨-, rfl⟩, -, rfl⟩, -, rfl⟩, hlt, rfl⟩
    rw [htwice] at hlt ⊢
    exact ⟨hlt, rfl⟩
  · rintro ⟨hlt, rfl⟩
    refine ⟨2 * h.span, ⟨h.span, ⟨by omega, rfl⟩, by omega, htwice⟩, h.words, ?_, hlt, rfl⟩
    exact ⟨_, ⟨_, ⟨by omega, rfl⟩, by omega, rfl⟩, by omega, rfl⟩

/-- Past the count of its words, a body only lacks room. -/
theorem decodeBody_sized (hl : 0 < h.identity.nLayers) (hw : h.width < U64_LIMIT)
    (hlen : body.length < U64_LIMIT) (hwords : h.words * 4 = body.length) :
    decodeBody half room body ρ h = (do
      reserve room h.nPrompt
      reserve room (h.nPrompt + h.nLogits)
      reserve room (h.nPrompt + h.nLogits + h.identity.nLayers)
      let layers ← readLayers half room body h h.width h.identity.nLayers
        (h.nPrompt + h.nLogits + h.identity.nLayers) ((h.nPrompt + h.nLogits) * 4)
      .ok ⟨h.identity, { payloadOf ρ half body h with layers := layers }⟩) := by
  have hfit : (h.nPrompt + h.nLogits) * 4 ≤ body.length := by
    rw [← hwords, Header.words]
    omega
  have hpos : h.perPosition body.length = .ok h.width := perPosition_ok.mpr ⟨hw, rfl⟩
  have hcount : h.computed body.length h.width = .ok body.length :=
    (computed_iff hl).mpr ⟨by omega, hwords⟩
  have htokens : readMany (readLe 4 body) h.nPrompt 0 =
      .ok ((List.range' 0 h.nPrompt).map (word body), h.nPrompt * 4) := by
    have hread : readMany (readLe 4 body) h.nPrompt (0 * 4) =
        .ok ((List.range' 0 h.nPrompt).map (word body), (0 + h.nPrompt) * 4) := by
      apply readMany_words
      · intro i _ hi
        exact readLe_word hlen (by omega)
      · omega
    rwa [Nat.zero_mul, Nat.zero_add] at hread
  have hlogits : readMany (readF32 body) h.nLogits (h.nPrompt * 4) =
      .ok (wordsAt body h.nPrompt h.nLogits, (h.nPrompt + h.nLogits) * 4) := by
    apply readMany_words
    · intro i _ hi
      exact readF32_word hlen (by omega)
    · omega
  unfold decodeBody
  simp only [hpos, hcount, bind, Except.bind, ensure_true, htokens, hlogits]
  rfl

/-- Room for all that the reader holds at once, and for a row in a vector. -/
structure Header.Fits (h : Header) (room : ℕ) : Prop where

  row : h.width ≤ ISIZE_MAX / 4
  held : h.opening + h.identity.nLayers * (2 * h.span) ≤ room

theorem decodeBody_ok (hl : 0 < h.identity.nLayers) (hw : h.width < U64_LIMIT)
    (hlen : body.length < U64_LIMIT) (hwords : h.words * 4 = body.length) (hfits : h.Fits room) :
    decodeBody half room body ρ h = .ok ⟨h.identity, payloadOf ρ half body h⟩ := by
  have hheld := hfits.held
  rw [Header.opening] at hheld
  have hlayers : readLayers half room body h h.width h.identity.nLayers
      (h.nPrompt + h.nLogits + h.identity.nLayers) ((h.nPrompt + h.nLogits) * 4) =
        .ok (payloadOf ρ half body h).layers := by
    apply readLayers_words hlen
    · rw [← hwords, Header.words]
      omega
    · intro _
      exact ⟨hfits.row, hheld⟩
  rw [decodeBody_sized hl hw hlen hwords]
  simp only [reserve, bind, Except.bind]
  rw [if_pos (by omega), if_pos (by omega), if_pos (by omega)]
  simp only [hlayers]

/-- A body that is sized and read to an end had room before the first row. -/
theorem opening_of_safe (hl : 0 < h.identity.nLayers) (hw : h.width < U64_LIMIT)
    (hlen : body.length < U64_LIMIT) (hwords : h.words * 4 = body.length)
    (hsafe : Safe (decodeBody half room body ρ h)) :
    h.width ≤ ISIZE_MAX / 4 ∧ h.opening ≤ room := by
  rw [decodeBody_sized hl hw hlen hwords] at hsafe
  obtain ⟨hprompt, hsafe⟩ := safe_bind.mp hsafe
  obtain ⟨hlogits, hsafe⟩ := safe_bind.mp (hsafe () (reserve_eq_ok.mpr (safe_reserve.mp hprompt)))
  obtain ⟨hcount, hsafe⟩ := safe_bind.mp (hsafe () (reserve_eq_ok.mpr (safe_reserve.mp hlogits)))
  obtain ⟨hlayers, -⟩ := safe_bind.mp (hsafe () (reserve_eq_ok.mpr (safe_reserve.mp hcount)))
  obtain ⟨n, hn⟩ : ∃ n, h.identity.nLayers = n + 1 := ⟨h.identity.nLayers - 1, by omega⟩
  rw [hn, readLayers] at hlayers
  obtain ⟨hlayer, -⟩ := safe_bind.mp hlayers
  have hspan : h.width * h.positions = h.span := Nat.mul_comm _ _
  have hone : h.span ≤ h.identity.nLayers * (2 * h.span) :=
    (Nat.le_mul_of_pos_left _ (by decide)).trans (Nat.le_mul_of_pos_left _ hl)
  have hstart : (fitU64 ((h.nPrompt + h.nLogits) * 4 + h.width * h.positions * 4) : Decoding ℕ) =
      .ok ((h.nPrompt + h.nLogits) * 4 + h.width * h.positions * 4) := by
    rw [hspan]
    rw [Header.words] at hwords
    exact fitU64_eq_ok.mpr ⟨by omega, rfl⟩
  rw [readLayer, withDtype_new] at hlayer
  obtain ⟨-, hlayer⟩ := safe_bind.mp hlayer
  obtain ⟨-, hlayer⟩ := safe_bind.mp (hlayer _ rfl)
  obtain ⟨hrow, hlayer⟩ := safe_bind.mp (hlayer _ hstart)
  obtain ⟨hscratch, -⟩ := safe_bind.mp (hlayer () (reserve_eq_ok.mpr (safe_reserve.mp hrow)))
  have hopening := safe_reserve.mp hscratch
  rw [← hn] at hopening
  exact ⟨safe_reserve.mp hrow, hopening⟩

/-- Rows that take bytes leave room for two of them, in a file that is no longer than a vector. -/
theorem fits_of_positions (hl : 0 < h.identity.nLayers) (hp : 0 < h.positions) (hw : 0 < h.width)
    (hwords : h.words * 4 = body.length) (hvec : body.length ≤ ISIZE_MAX)
    (hroom : body.length ≤ room) : h.Fits room := by
  have hrow : h.width ≤ h.span := Nat.le_mul_of_pos_left _ hp
  have hone : 2 * h.span ≤ h.identity.nLayers * (2 * h.span) := Nat.le_mul_of_pos_left _ hl
  have hcount : h.identity.nLayers ≤ h.identity.nLayers * (2 * h.span) :=
    Nat.le_mul_of_pos_right _ (by omega)
  rw [Header.words] at hwords
  constructor
  · rw [Nat.le_div_iff_mul_le (by decide)]
    omega
  · rw [Header.opening]
    omega

end Body

end Frink.Slots
