import Frink.Slots.Hostile

/-! # Restoring a slot into the prefix cache

The prefix cache keeps, for each prompt it stored, one cache a layer; a lookup
rolls the best entry's caches back to the common length. A restore decodes,
verifies, checks the token ids and stores.
-/

namespace Frink.Slots

open Codec Guarded
open KvDisk (KvDtype KvBuf Bytes32)

variable {ρ ε : Type}

structure StoredPrefix (ρ : Type) where

  salt : Option ℕ
  tokens : List ℕ
  kvCaches : List (KvCache ρ)
  pendingLogits : List (BitVec 32)
  lastUsed : ℕ

structure PrefixCache (ρ : Type) where

  entries : List (StoredPrefix ρ)
  maxEntries : ℕ
  hitsPositionsReused : ℕ
  hitsCount : ℕ
  missesCount : ℕ
  refusedWindowed : ℕ
  clock : ℕ

structure PrefixMatch (ρ : Type) where

  matchedLen : ℕ
  kvCaches : Option (List (KvCache ρ))
  pendingLogits : Option (List (BitVec 32))

def commonPrefixLen : List ℕ → List ℕ → ℕ
  | a :: as, b :: bs => if a = b then commonPrefixLen as bs + 1 else 0
  | _, _ => 0

/-- Whether every cache of the entry can go back to where the caller goes on from. -/
def reusableAt (entry : StoredPrefix ρ) (matchedLen queryLen : ℕ) : Bool :=
  let backsOff := matchedLen == queryLen && decide (matchedLen < entry.tokens.length)
  let target := if backsOff then matchedLen - 1 else matchedLen
  entry.kvCaches.all fun c => c.canTruncateTo target

namespace PrefixCache

def new (maxEntries : ℕ) : PrefixCache ρ := ⟨[], maxEntries, 0, 0, 0, 0, 0⟩

section Lookup

variable (tokens : List ℕ) (salt : Option ℕ)

/-- The longest match in the entries from index `i` on, over the best so far, and how many
windowed matches were passed over. -/
def scan : ℕ → Option (ℕ × ℕ) → ℕ → List (StoredPrefix ρ) → Option (ℕ × ℕ) × ℕ
  | _, best, refused, [] => (best, refused)
  | i, best, refused, entry :: entries =>
    if entry.salt ≠ salt then scan (i + 1) best refused entries
    else
      let common := commonPrefixLen entry.tokens tokens
      if common = 0 ∨ (best.any fun b => decide (common ≤ b.1)) then
        scan (i + 1) best refused entries
      else if reusableAt entry common tokens.length = false then
        scan (i + 1) best (refused + 1) entries
      else scan (i + 1) (some (common, i)) refused entries

def findLongestPrefixSalted (cache : PrefixCache ρ) :
    Result ε (PrefixMatch ρ × PrefixCache ρ) :=
  let found := scan tokens salt 0 none 0 cache.entries
  let cache := { cache with refusedWindowed := cache.refusedWindowed + found.2 }
  match found.1 with
  | none => .ok (⟨0, none, none⟩, { cache with missesCount := cache.missesCount + 1 })
  | some (matchedLen, index) =>
    match cache.entries[index]? with
    | none => .error (.hazard .slice)
    | some entry => do
      let cache := { cache with
        hitsCount := cache.hitsCount + 1
        hitsPositionsReused := cache.hitsPositionsReused + matchedLen
        clock := cache.clock + 1
        entries := cache.entries.set index { entry with lastUsed := cache.clock + 1 } }
      let kvCaches ← entry.kvCaches.mapM fun c => c.truncate matchedLen
      let pendingLogits :=
        if matchedLen = entry.tokens.length then some entry.pendingLogits else none
      .ok (⟨matchedLen, some kvCaches, pendingLogits⟩, cache)

end Lookup

/-- The index of the least recently used of the entries from index `i` on, or of the best so
far. -/
def coldestFrom : ℕ → ℕ × ℕ → List (StoredPrefix ρ) → ℕ
  | _, best, [] => best.2
  | i, best, entry :: entries =>
    coldestFrom (i + 1) (if entry.lastUsed < best.1 then (entry.lastUsed, i) else best) entries

def coldest : List (StoredPrefix ρ) → Option ℕ
  | [] => none
  | entry :: entries => some (coldestFrom 1 (entry.lastUsed, 0) entries)

def storeSalted (cache : PrefixCache ρ) (payload : SlotPayload ρ) (salt : Option ℕ) :
    PrefixCache ρ :=
  if payload.layers.any fun c => c.recurrent.isSome then cache
  else
    let entries :=
      if cache.maxEntries ≤ cache.entries.length then
        match coldest cache.entries with
        | some i => cache.entries.eraseIdx i
        | none => cache.entries
      else cache.entries
    { cache with
      clock := cache.clock + 1
      entries := entries ++ [⟨salt, payload.tokens, payload.layers, payload.pendingLogits,
        cache.clock + 1⟩] }

end PrefixCache

inductive RestoreError where
  | format (e : SlotFormatError)
  | mismatch (e : IdentityMismatch)
  | vocabulary (token vocab : ℕ)

/-- What a slot file hands to the prefix cache. -/
def checkSlot (ρ : Type) (half : HalfConversion) (sha : List UInt8 → Bytes32) (room : ℕ)
    (serving : SlotIdentity) (vocab : Option ℕ) (bytes : List UInt8) :
    Result RestoreError (SlotPayload ρ) :=
  match decode ρ half sha room bytes with
  | .error (.hazard hz) => .error (.hazard hz)
  | .error (.refused e) => .error (.refused (.format e))
  | .ok unverified =>
    match unverified.verify serving with
    | .error e => .error (.refused (.mismatch e))
    | .ok payload =>
      match vocab with
      | none => .ok payload
      | some vocab =>
        match payload.tokens.find? fun t => decide (vocab ≤ t) with
        | some bad => .error (.refused (.vocabulary bad vocab))
        | none => .ok payload

def restore (half : HalfConversion) (sha : List UInt8 → Bytes32) (room : ℕ)
    (serving : SlotIdentity) (vocab : Option ℕ) (cache : PrefixCache ρ) (bytes : List UInt8) :
    Result RestoreError (PrefixCache ρ) := do
  let payload ← checkSlot ρ half sha room serving vocab bytes
  .ok (cache.storeSalted payload none)

section Lookup

variable {tokens : List ℕ} {salt : Option ℕ}

theorem commonPrefixLen_le (as bs : List ℕ) : commonPrefixLen as bs ≤ as.length := by
  induction as generalizing bs with
  | nil => cases bs <;> exact Nat.zero_le _
  | cons a as ih =>
    cases bs with
    | nil => exact Nat.zero_le _
    | cons b bs =>
      rw [commonPrefixLen]
      split
      · exact Nat.succ_le_succ (ih bs)
      · exact Nat.zero_le _

/-- A match is an entry's common length with the query. -/
theorem scan_spec {i : ℕ} {best : Option (ℕ × ℕ)} {refused : ℕ} {entries : List (StoredPrefix ρ)}
    {matchedLen index : ℕ}
    (h : (PrefixCache.scan tokens salt i best refused entries).1 = some (matchedLen, index)) :
    best = some (matchedLen, index) ∨ ∃ k entry, index = i + k ∧ entries[k]? = some entry ∧
      matchedLen = commonPrefixLen entry.tokens tokens := by
  induction entries generalizing i best refused with
  | nil => exact Or.inl h
  | cons entry entries ih =>
    have hlater : ∀ {best' refused'},
        (PrefixCache.scan tokens salt (i + 1) best' refused' entries).1 =
          some (matchedLen, index) → best' = some (matchedLen, index) ∨
          ∃ k e, index = i + k ∧ (entry :: entries)[k]? = some e ∧
            matchedLen = commonPrefixLen e.tokens tokens := by
      intro best' refused' h'
      rcases ih h' with hb | ⟨k, e, hk, he, hm⟩
      · exact Or.inl hb
      · exact Or.inr ⟨k + 1, e, by omega, he, hm⟩
    rw [PrefixCache.scan] at h
    split at h
    · exact hlater h
    dsimp only at h
    split at h
    · exact hlater h
    split at h
    · exact hlater h
    · rcases hlater h with hb | hk
      · obtain ⟨rfl, rfl⟩ := Prod.mk.inj (Option.some.inj hb)
        exact Or.inr ⟨0, entry, rfl, rfl, rfl⟩
      · exact Or.inr hk

/-- An entry whose caches hold one position a token serves every lookup that chooses it. -/
theorem find_of_resident {cache : PrefixCache ρ} {matchedLen index : ℕ} {entry : StoredPrefix ρ}
    (hscan : (PrefixCache.scan tokens salt 0 none 0 cache.entries).1 = some (matchedLen, index))
    (hentry : cache.entries[index]? = some entry)
    (hres : ∀ c ∈ entry.kvCaches, c.Resident ∧ c.positions = entry.tokens.length) :
    ∃ found cache' caches,
      (cache.findLongestPrefixSalted tokens salt : Result ε _) = .ok (found, cache') ∧
      found.matchedLen = matchedLen ∧ found.kvCaches = some caches ∧
      caches.length = entry.kvCaches.length ∧
      ∀ c ∈ caches, c.Resident ∧ c.positions = matchedLen := by
  have hle : matchedLen ≤ entry.tokens.length := by
    rcases scan_spec hscan with hnone | ⟨k, e, hk, he, rfl⟩
    · cases hnone
    · rw [Nat.zero_add] at hk
      subst hk
      obtain rfl := Option.some.inj (hentry.symm.trans he)
      exact commonPrefixLen_le _ _
  have hback : entry.kvCaches.mapM (fun c => (c.truncate matchedLen : Result ε _)) =
      .ok (entry.kvCaches.map fun c => c.truncated matchedLen) := by
    apply mapM_of_forall
    intro c hc
    obtain ⟨hr, hp⟩ := hres c hc
    exact KvCache.truncate_ok (hr.canTruncateTo (hp.symm ▸ hle))
  obtain ⟨cache', hfind⟩ : ∃ cache',
      (cache.findLongestPrefixSalted tokens salt : Result ε _) = .ok (⟨matchedLen,
        some (entry.kvCaches.map fun c => c.truncated matchedLen),
        if matchedLen = entry.tokens.length then some entry.pendingLogits else none⟩, cache') := by
    unfold PrefixCache.findLongestPrefixSalted
    simp only [hscan, hentry, hback, bind, Except.bind]
    exact ⟨_, rfl⟩
  refine ⟨_, cache', _, hfind, rfl, rfl, List.length_map _, ?_⟩
  intro c hc
  obtain ⟨d, hd, rfl⟩ := List.mem_map.mp hc
  obtain ⟨hr, hp⟩ := hres d hd
  exact ⟨hr.truncated (hp.symm ▸ hle), rfl⟩

end Lookup

/-- The bytes of a file, as many as a vector holds. -/
structure SlotBytes where

  bytes : List UInt8
  fits : bytes.length ≤ ISIZE_MAX

section Harmless

variable {half : HalfConversion} {sha : List UInt8 → Bytes32} {perByte : ℕ}
  {serving : SlotIdentity} {vocab : Option ℕ} {file : SlotBytes}

/-- The payload is one cache a layer of the serving model, each with one position a token. -/
def Covers (serving : SlotIdentity) (payload : SlotPayload ρ) : Prop :=
  payload.layers.length = serving.nLayers ∧
    ∀ c ∈ payload.layers, c.Resident ∧ c.positions = payload.tokens.length

/-- Lookups that choose the stored payload give back its layers at the common length. -/
def ServesLookups (serving : SlotIdentity) (payload : SlotPayload ρ) : Prop :=
  ∀ (cache : PrefixCache ρ) (tokens : List ℕ) (salt : Option ℕ) (matchedLen index : ℕ)
    (entry : StoredPrefix ρ),
    (PrefixCache.scan tokens salt 0 none 0 (cache.storeSalted payload none).entries).1 =
      some (matchedLen, index) →
    (cache.storeSalted payload none).entries[index]? = some entry →
    entry.tokens = payload.tokens → entry.kvCaches = payload.layers →
    ∃ found cache' caches,
      ((cache.storeSalted payload none).findLongestPrefixSalted tokens salt : Result Empty _) =
        .ok (found, cache') ∧
      found.matchedLen = matchedLen ∧ found.kvCaches = some caches ∧
      caches.length = serving.nLayers ∧ ∀ c ∈ caches, c.Resident ∧ c.positions = matchedLen

/-- The file is decoded or refused within `perByte` entries a byte, and what it hands to the
prefix cache is what lookups count on. -/
def Harmless (ρ : Type) (half : HalfConversion) (sha : List UInt8 → Bytes32) (perByte : ℕ)
    (serving : SlotIdentity) (vocab : Option ℕ) (file : SlotBytes) : Prop :=
  Safe (decode ρ half sha (perByte * file.bytes.length) file.bytes) ∧
    ∀ payload : SlotPayload ρ,
      checkSlot ρ half sha (perByte * file.bytes.length) serving vocab file.bytes = .ok payload →
        Covers serving payload ∧ ServesLookups serving payload

/-- A file of the serving model and its vocabulary whose positions are not its tokens. -/
structure Mismatched (serving : SlotIdentity) (vocab : Option ℕ) (h : Header)
    (body : List UInt8) : Prop where

  sized : h.words * 4 = body.length
  identity : h.identity = serving
  tokens : ∀ limit ∈ vocab, ∀ i < h.nPrompt, word body i < limit
  positions : h.positions ≠ h.nPrompt

theorem servesLookups_of_covers {payload : SlotPayload ρ} (h : Covers serving payload) :
    ServesLookups serving payload := by
  intro cache tokens salt matchedLen index entry hscan hentry htokens hcaches
  have hres : ∀ c ∈ entry.kvCaches, c.Resident ∧ c.positions = entry.tokens.length := by
    rw [htokens, hcaches]
    exact h.2
  obtain ⟨found, cache', caches, hfind, hmatched, hkv, hlen, hall⟩ :=
    find_of_resident hscan hentry hres
  exact ⟨found, cache', caches, hfind, hmatched, hkv, hlen.trans (hcaches ▸ h.1), hall⟩

theorem covers_iff {h : Header} {body : List UInt8} (hl : 0 < h.identity.nLayers)
    (hw : 0 < h.width) (hid : h.identity = serving) :
    Covers serving (payloadOf ρ half body h) ↔ h.positions = h.nPrompt := by
  have htokens : (payloadOf ρ half body h).tokens.length = h.nPrompt := by simp [payloadOf]
  constructor
  · rintro ⟨-, hall⟩
    have hmem : layerAt ρ half body h (h.nPrompt + h.nLogits + 0 * (2 * h.span)) ∈
        (payloadOf ρ half body h).layers := List.mem_map_of_mem (List.mem_range.mpr hl)
    rw [← htokens, ← (hall _ hmem).2]
    exact (resident_layerAt hw _).2.symm
  · intro hpos
    refine ⟨?_, ?_⟩
    · rw [← hid]
      simp [payloadOf]
    · intro c hc
      obtain ⟨l, -, rfl⟩ := List.mem_map.mp hc
      have hlayer := @resident_layerAt ρ half body h hw
        (h.nPrompt + h.nLogits + l * (2 * h.span))
      exact ⟨hlayer.1, hlayer.2.trans (hpos.trans htokens.symm)⟩

/-- A checked slot decodes, is the serving model's, and names its tokens. -/
theorem checkSlot_ok {room : ℕ} {bytes : List UInt8} {payload : SlotPayload ρ} :
    checkSlot ρ half sha room serving vocab bytes = .ok payload ↔
      ∃ slot, decode ρ half sha room bytes = .ok slot ∧ slot.identity = serving ∧
        slot.payload = payload ∧ ∀ limit ∈ vocab, ∀ t ∈ payload.tokens, t < limit := by
  unfold checkSlot
  constructor
  · intro h
    split at h
    · cases h
    · cases h
    rename_i slot hslot
    split at h
    · cases h
    rename_i restored hverify
    obtain ⟨hid, hpay⟩ := verify_ok hverify
    split at h
    · cases h
      exact ⟨slot, hslot, hid, hpay, nofun⟩
    rename_i limit
    split at h
    · cases h
    rename_i hnone
    cases h
    refine ⟨slot, hslot, hid, hpay, ?_⟩
    rintro _ ⟨⟩ t ht
    have := List.find?_eq_none.mp hnone t ht
    simpa using this
  · rintro ⟨slot, hslot, rfl, rfl, hvocab⟩
    simp only [hslot, verify_self]
    split
    · rfl
    rename_i limit
    have hnone : (slot.payload.tokens.find? fun t => decide (limit ≤ t)) = none := by
      rw [List.find?_eq_none]
      intro t ht
      have := hvocab limit rfl t ht
      simpa using this
    rw [hnone]

theorem slot_files_harmless_iff (ρ : Type) (half : HalfConversion) (sha : List UInt8 → Bytes32)
    (serving : SlotIdentity) (vocab : Option ℕ) (file : SlotBytes) (hone : 1 ≤ perByte) :
    Harmless ρ half sha perByte serving vocab file ↔
      ∀ h body, Opened sha file.bytes h body →
        ¬ Hollow (perByte * file.bytes.length) h body ∧ ¬ Mismatched serving vocab h body := by
  have hroom : file.bytes.length ≤ perByte * file.bytes.length := Nat.le_mul_of_pos_left _ hone
  constructor
  · rintro ⟨hsafe, hpayload⟩ h body ho
    obtain ⟨hl, hw0, hw⟩ := ho.shape
    have hle := ho.body_le
    have hdec : ∀ room, decode ρ half sha room file.bytes = decodeBody half room body ρ h := by
      rcases decode_cases ρ half sha file.bytes with ⟨h', body', ho', hdec⟩ | ⟨hnone, -⟩
      · obtain ⟨rfl, rfl⟩ := ho.unique ho'
        exact hdec
      · exact absurd ho (hnone h body)
    rw [hdec] at hsafe
    have hnot := (safe_decodeBody ρ half hl hw0 hw (hle.trans file.fits)
      (hle.trans hroom)).mp hsafe
    refine ⟨hnot, ?_⟩
    intro hm
    have hread : decode ρ half sha (perByte * file.bytes.length) file.bytes =
        .ok ⟨h.identity, payloadOf ρ half body h⟩ := by
      rw [hdec]
      exact decodeBody_ok hl hw (Nat.lt_of_le_of_lt (hle.trans file.fits) (by decide)) hm.sized
        (fits_of_not_hollow hl hw0 (hle.trans file.fits) (hle.trans hroom) hm.sized hnot)
    have hchecked : checkSlot ρ half sha (perByte * file.bytes.length) serving vocab file.bytes =
        .ok (payloadOf ρ half body h) := by
      apply checkSlot_ok.mpr
      refine ⟨_, hread, hm.identity, rfl, ?_⟩
      intro limit hlimit t ht
      obtain ⟨i, hi, rfl⟩ := List.mem_map.mp ht
      rw [List.mem_range'_1] at hi
      exact hm.tokens limit hlimit i (by omega)
    exact hm.positions ((covers_iff hl hw0 hm.identity).mp (hpayload _ hchecked).1)
  · intro hall
    refine ⟨?_, ?_⟩
    · rcases decode_cases ρ half sha file.bytes with ⟨h, body, ho, hdec⟩ | ⟨-, e, he⟩
      · obtain ⟨hl, hw0, hw⟩ := ho.shape
        have hle := ho.body_le
        rw [hdec]
        exact (safe_decodeBody ρ half hl hw0 hw (hle.trans file.fits) (hle.trans hroom)).mpr
          (hall h body ho).1
      · rw [he]
        exact safe_refused e
    · intro payload hchecked
      obtain ⟨slot, hslot, hid, rfl, hvocab⟩ := checkSlot_ok.mp hchecked
      obtain ⟨h, body, ho, hwords, rfl⟩ := decode_ok file.fits hroom hslot
      obtain ⟨hl, hw0, -⟩ := ho.shape
      have hcovers : Covers serving (payloadOf ρ half body h) := by
        apply (covers_iff hl hw0 hid).mpr
        by_contra hpos
        apply (hall h body ho).2
        refine ⟨hwords, hid, ?_, hpos⟩
        intro limit hlimit i hi
        exact hvocab limit hlimit _ (List.mem_map_of_mem (List.mem_range'_1.mpr ⟨by omega, by omega⟩))
      exact ⟨hcovers, servesLookups_of_covers hcovers⟩

end Harmless

/-- A file for one layer of one head of one element. -/
def tinyFile (positions nPrompt : ℕ) (words : List ℕ) : List UInt8 :=
  fileOf (List.replicate 32 0)
    ([1, 1, 1, 0, positions, nPrompt, 0, 1, 1].flatMap (leBytes 4) ++ [0x6D, 0x66])
    (words.flatMap (leBytes 4))

def tinyIdentity : SlotIdentity := ⟨"m", 1, 1, 1, .F32, "f"⟩

set_option maxRecDepth 4000 in
theorem slot_files_harmless_tiny :
    Harmless Unit zeroHalf blankDigest 1 tinyIdentity (some 10)
      ⟨tinyFile 1 1 [3, 7, 8], by decide⟩ := by
  apply (slot_files_harmless_iff Unit zeroHalf blankDigest tinyIdentity (some 10) _
    (le_refl 1)).mpr
  intro h body ho
  have hopened : Opened blankDigest (tinyFile 1 1 [3, 7, 8]) ⟨tinyIdentity, 1, 1, 0⟩
      ([3, 7, 8].flatMap (leBytes 4)) := ⟨⟨_, rfl, rfl, rfl⟩, rfl⟩
  obtain ⟨rfl, rfl⟩ := ho.unique hopened
  constructor
  · intro hollow
    exact absurd hollow.positions (by decide)
  · intro hm
    exact hm.positions rfl

/-- A file for one layer without positions, of 2^31 heads of 2^31 elements. -/
def hollowFile : List UInt8 :=
  fileOf (List.replicate 32 0)
    ([1, 2 ^ 31, 2 ^ 31, 0, 0, 0, 0, 1, 1].flatMap (leBytes 4) ++ [0x6D, 0x66]) []

set_option maxRecDepth 4000 in
/-- A file of one layer without positions asks for rows that no vector holds; and one with fewer
positions than tokens passes every check and stops a later lookup. -/
theorem slot_files_harmful :
    (hollowFile.length = 94 ∧
      decode Unit zeroHalf blankDigest (2 ^ 40 * 94) hollowFile = .error (.hazard .reserve)) ∧
    ∃ payload : SlotPayload Unit,
      checkSlot Unit zeroHalf blankDigest (tinyFile 1 3 [5, 6, 7, 1, 2]).length tinyIdentity
        (some 10) (tinyFile 1 3 [5, 6, 7, 1, 2]) = .ok payload ∧
      (((PrefixCache.new 4).storeSalted payload none).findLongestPrefixSalted [5, 6] none :
        Result Empty _) = .error (.hazard .assertion) := by
  constructor
  · exact ⟨rfl, rfl⟩
  · refine ⟨_, checkSlot_ok.mpr ⟨_, rfl, rfl, rfl, ?_⟩, rfl⟩
    rintro _ ⟨⟩ t ht
    revert t
    decide

end Frink.Slots
