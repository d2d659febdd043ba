import Frink.Tokenizer.SuffixSearch

/-! # PLaMo-2 segmentations

A vocabulary that loads segments every text of moderate length at the least cost, and decodes what it
has encoded. Texts that a byte token shares, ids that are no `i32` and longer texts are the limits.
-/

namespace Frink.Tokenizer.GgufPlamo2Tokenizer

open Blocks Decode Gbnf LongestPrefix Segmentation

variable {K : Type} {isFinite : K → Bool} {scaled : K → Int32} {vocab : ScoredVocab K}
  {isByte : List Bool} {types : Option Gguf.GgufValue} {t : GgufPlamo2Tokenizer K} {scan : Scan K}
  {n : Numbering} {text : Text} {c : Char}

/-- No byte token takes the id of a text that is written like a byte. -/
def Apart (isByte : List Bool) (vocab : ScoredVocab K) : Prop :=
  ∀ text id, Plain isByte vocab.idToToken.zipIdx text → vocab.idOf text = some id →
    (spmByteFallbackValue text).isSome → isByte[id]?.getD false = false

/-- What a loaded tokenizer is made of. -/
structure Loaded (isFinite : K → Bool) (scaled : K → Int32) (vocab : ScoredVocab K)
    (isByte : List Bool) (t : GgufPlamo2Tokenizer K) (scan : Scan K) (n : Numbering) : Prop where

  scanned : Scanned vocab isByte vocab.idToToken.zipIdx scan

  covered : ∀ b, scan.bytes b ≠ U32_MAX

  suffixes : Suffixes scan.suffixToScore (sortedSuffixes scan.suffixToScore)

  numbered : Numbered scan.suffixToScore (sortedSuffixes scan.suffixToScore) n

  built : t = ⟨vocab, scan.bytes, isByte, n.toSuffixId,
    (sortedSuffixes scan.suffixToScore).flatMap (block isFinite scaled vocab scan.suffixToScore
      (sortedSuffixes scan.suffixToScore))⟩

theorem Scanned.suffixes (h : Scanned vocab isByte vocab.idToToken.zipIdx scan) :
    Suffixes scan.suffixToScore (sortedSuffixes scan.suffixToScore) := by
  apply sortedSuffixes_spec h.functional
  · cases hget : Keyed.get scan.suffixToScore [] with
    | none => rfl
    | some e => exact absurd rfl ((h.stored []).mp (by rw [hget]; rfl)).1
  · rintro c rest hstored
    obtain ⟨-, text, hplain, hsuffix⟩ := (h.stored _).mp hstored
    apply or_iff_not_imp_left.mpr
    intro hne
    exact (h.stored rest).mpr ⟨hne, text, hplain, (List.suffix_cons c rest).trans hsuffix⟩

theorem fromGguf_eq {bytes : UInt8 → ℕ} {m : List (Text × Option K)}
    (hscan : scanTokens vocab (byteFlags vocab.idToToken.length types) = .ok ⟨bytes, m⟩)
    (hcovered : ((List.range 256).find? fun b => bytes (.ofNat b) = U32_MAX) = none) :
    fromGguf isFinite scaled vocab types =
      (buildTable isFinite scaled vocab m).map fun built =>
        ⟨vocab, bytes, byteFlags vocab.idToToken.length types, built.1.toSuffixId, built.2⟩ := by
  unfold fromGguf
  dsimp only
  rw [hscan]
  dsimp only [bind, Except.bind]
  rw [hcovered]
  cases buildTable isFinite scaled vocab m <;> rfl

/-- Loading is refused for a missing byte or for too many rows, and for no other reason. -/
theorem fromGguf_cases (isFinite : K → Bool) (scaled : K → Int32) (hne : ∀ text, Plain (byteFlags vocab.idToToken.length types)
      vocab.idToToken.zipIdx text → text ≠ []) :
    (∃ b, fromGguf isFinite scaled vocab types = .error (.plamo2ByteTokenMissing b)) ∨
      fromGguf isFinite scaled vocab types = .error .overflow ∨
      ∃ t scan n, fromGguf isFinite scaled vocab types = .ok t ∧
        scanTokens vocab (byteFlags vocab.idToToken.length types) = .ok scan ∧
        buildTable isFinite scaled vocab scan.suffixToScore = .ok (n, t.table) ∧
        Loaded isFinite scaled vocab (byteFlags vocab.idToToken.length types) t scan n := by
  obtain ⟨scan, hok, hscan⟩ := scanTokens_spec vocab _ hne
  cases hmissing : (List.range 256).find? fun b => scan.bytes (.ofNat b) = U32_MAX with
  | some missing =>
    left
    refine ⟨.ofNat missing, ?_⟩
    unfold fromGguf
    dsimp only
    rw [hok]
    dsimp only [bind, Except.bind]
    rw [hmissing]
    rfl
  | none =>
    right
    have hcovered : ∀ b, scan.bytes b ≠ U32_MAX := by
      intro b
      have hb := List.find?_eq_none.mp hmissing b.toNat (List.mem_range.mpr b.toNat_lt)
      simpa using hb
    rw [fromGguf_eq hok hmissing]
    rcases hscan.suffixes.buildTable isFinite scaled vocab with hover | ⟨n, hbuild, hn⟩
    · exact .inl (by rw [hover]; rfl)
    · refine .inr ⟨_, scan, n, ?_, hok, hbuild, hscan, hcovered, hscan.suffixes, hn, rfl⟩
      rw [hbuild]
      rfl

/-- Every run is solved: the walk stands at the longest suffix the text starts with. -/
theorem Loaded.search (h : Loaded isFinite scaled vocab isByte t scan n)
    (hsized : Sized (Part.Valid isFinite scaled vocab isByte))
    (habove : Above isFinite scaled scan.suffixToScore) (hids : vocab.idToToken.length ≤ 2 ^ 31)
    (text : Text) (hsize : (encode text).length < 2 ^ 31) :
    ∃ p cells, t.search text =
        some (start (size scan.suffixToScore) (sortedSuffixes scan.suffixToScore) p, cells) ∧
      Longest (· ∈ sortedSuffixes scan.suffixToScore) text p ∧
      Solved (Part.Valid isFinite scaled vocab isByte) t.bytes text cells := by
  induction text with
  | nil =>
    refine ⟨[], [⟨0, 0, -1, 0⟩], ?_, .nil h.suffixes.nil_mem, fun front left hwhole => ?_⟩
    · rw [h.suffixes.start_nil]
      rfl
    · obtain ⟨rfl, rfl⟩ := List.append_eq_nil_iff.mp hwhole
      exact ⟨[], .nil hsized.text_ne, ⟨_, [], rfl, rfl, by decide, by decide⟩, rfl⟩
  | cons c rest ih =>
    rw [encode_cons, List.length_append] at hsize
    obtain ⟨p, after, hsearch, hlongest, hsolved⟩ := ih (by omega)
    obtain ⟨q, hq, hfollow⟩ := follow_longest h.suffixes h.numbered habove vocab c hlongest
    obtain ⟨more, hmore⟩ := drop_table h.suffixes isFinite scaled vocab hq.stored
    have hsize' : (encode (c :: rest)).length < 2 ^ 31 := by
      rw [encode_cons, List.length_append]
      exact hsize
    have hrelax := hsolved.cons hsized hsize' more
      ((storedPrefixes scan.suffixToScore q).map (rowOf isFinite scaled vocab scan.suffixToScore
        (sortedSuffixes scan.suffixToScore))) ?_ ?_
    · obtain ⟨cell, hrelax, hsolved'⟩ := hrelax
      refine ⟨q, cell :: after, ?_, hq, hsolved'⟩
      rw [GgufPlamo2Tokenizer.search, hsearch, h.built]
      dsimp only [Option.bind_eq_bind, Option.bind_some]
      rw [hfollow, hmore, hrelax]
      rfl
    · intro row hrow
      obtain ⟨x, hx, rfl⟩ := List.mem_map.mp hrow
      obtain ⟨-, -, hget⟩ := mem_storedPrefixes.mp hx
      refine ⟨habove.ne_unknown hget, ?_⟩
      cases hv : x.2 with
      | none =>
        left
        simp [rowOf, hv, quantized]
      | some v =>
        obtain ⟨id, left, -, hfits⟩ := rows_fit h.scanned habove hids t.bytes hq.isPrefix hx hv
        exact .inr ⟨_, left, hfits⟩
    · rintro part left hpart hwhole
      cases part with
      | unknown d =>
        obtain ⟨rfl, -⟩ := List.cons.inj hwhole
        exact .inl rfl
      | piece txt id score =>
        obtain ⟨hplain, v, hlookup, rfl⟩ := hpart
        obtain ⟨v', hget⟩ := h.scanned.plain txt hplain
        have hne : txt ≠ [] := ((h.scanned.stored txt).mp (by rw [hget]; rfl)).1
        have hmem : txt ∈ sortedSuffixes scan.suffixToScore :=
          (h.suffixes.mem txt).mpr (.inr (by rw [hget]; rfl))
        have hstart : txt <+: q := hq.longest txt hmem ⟨left, hwhole⟩
        have hx : (txt, some v') ∈ storedPrefixes scan.suffixToScore q :=
          mem_storedPrefixes.mpr ⟨hne, hstart, hget⟩
        obtain ⟨id', left', hlookup', hfits⟩ :=
          rows_fit (l := sortedSuffixes scan.suffixToScore) h.scanned habove hids t.bytes
            hq.isPrefix hx rfl
        obtain ⟨rfl, rfl⟩ := Prod.mk.inj (Option.some.inj (hlookup.symm.trans hlookup'))
        obtain rfl : left = left' :=
          List.append_cancel_left (hwhole.trans hfits.whole.symm)
        exact .inr ⟨_, List.mem_map_of_mem hx, hfits⟩

/-- Plain texts are not empty, and they score above unknown characters. -/
structure Scorable (isFinite : K → Bool) (scaled : K → Int32) (vocab : ScoredVocab K)
    (isByte : List Bool) : Prop where

  text_ne : ∀ text, Plain isByte vocab.idToToken.zipIdx text → text ≠ []

  above : ∀ text id v, Plain isByte vocab.idToToken.zipIdx text →
    vocab.lookup text = some (id, v) → UNKNOWN_SCORE < quantized isFinite scaled (some v)

theorem Scanned.above (h : Scanned vocab isByte vocab.idToToken.zipIdx scan)
    (hscorable : Scorable isFinite scaled vocab isByte) :
    Above isFinite scaled scan.suffixToScore := by
  intro s v hget
  obtain ⟨hplain, id, hlookup⟩ := h.scored s v hget
  exact hscorable.above s id v hplain hlookup

/-- The tokens of a byte that no piece covers decode to that byte. -/
theorem Loaded.decode_byte (h : Loaded isFinite scaled vocab isByte t scan n) (b : UInt8) :
    t.decodeBytes [t.bytes b] = [b] := by
  obtain ⟨text, hmem, hbyte, hvalue⟩ := h.scanned.bytes b (h.covered b)
  have htoken : vocab.idToToken[scan.bytes b]? = some text :=
    List.mk_mem_zipIdx_iff_getElem?.mp hmem
  rw [h.built]
  simp [decodeBytes, ScoredVocab.token, htoken, hbyte, hvalue]

theorem Loaded.decode_part (h : Loaded isFinite scaled vocab isByte t scan n)
    (hapart : Apart isByte vocab) {part : Part}
    (hpart : part.Valid isFinite scaled vocab isByte) :
    t.decodeBytes (part.ids t.bytes) = encode part.text := by
  cases part with
  | unknown c =>
    have hbytes : ∀ bytes : List UInt8, t.decodeBytes (bytes.map t.bytes) = bytes := by
      intro bytes
      induction bytes with
      | nil => rfl
      | cons b bytes ih =>
        have hcons : t.decodeBytes ((b :: bytes).map t.bytes) =
            t.decodeBytes [t.bytes b] ++ t.decodeBytes (bytes.map t.bytes) := by
          simp [decodeBytes]
        rw [hcons, h.decode_byte, ih]
        rfl
    rw [Part.ids, hbytes, Part.text, encode_cons, encode_nil, List.append_nil]
  | piece text id score =>
    obtain ⟨hplain, v, hlookup, -⟩ := hpart
    rw [ScoredVocab.lookup] at hlookup
    obtain ⟨id', hid, hlookup⟩ := Option.bind_eq_some_iff.mp hlookup
    obtain ⟨score', -, hpair⟩ := Option.map_eq_some_iff.mp hlookup
    obtain ⟨rfl, -⟩ := Prod.mk.inj hpair
    have htoken : vocab.idToToken[id']? = some text := getElem_of_tokenToId hid
    have hvalue : (if isByte[id']?.getD false then spmByteFallbackValue text else none) = none := by
      cases hsome : spmByteFallbackValue text with
      | none => exact ite_self none
      | some b => rw [hapart text id' hplain hid (by rw [hsome]; rfl), if_neg Bool.false_ne_true]
    rw [h.built, Part.ids, Part.text]
    simp only [decodeBytes, ScoredVocab.token, List.flatMap_cons, List.flatMap_nil,
      List.append_nil, htoken, hvalue]

theorem Loaded.decode (h : Loaded isFinite scaled vocab isByte t scan n)
    (hapart : Apart isByte vocab) {parts : List Part}
    (hparts : Cuts Part.text (Part.Valid isFinite scaled vocab isByte) text parts) :
    t.decodeBytes (parts.flatMap (Part.ids t.bytes)) = encode text := by
  induction parts generalizing text with
  | nil =>
    rw [← hparts.covers]
    rfl
  | cons part parts ih =>
    obtain ⟨hpart, hrest, rfl⟩ := hparts.uncons
    have happend : t.decodeBytes ((part :: parts).flatMap (Part.ids t.bytes)) =
        t.decodeBytes (part.ids t.bytes) ++
          t.decodeBytes (parts.flatMap (Part.ids t.bytes)) := by
      simp [decodeBytes]
    rw [happend, h.decode_part hapart hpart, ih hrest, encode_append]

/-- Loading meets every expectation of the code: each tail is numbered before the suffix, and the
rows are laid out as they were counted. A tokenizer that loads stays in the table and in range,
segments at the least cost, and decodes to the text where no byte token takes the id of a text. -/
theorem encodeRun_least (isFinite : K → Bool) (scaled : K → Int32) (vocab : ScoredVocab K)
    (types : Option Gguf.GgufValue)
    (hscorable : Scorable isFinite scaled vocab (byteFlags vocab.idToToken.length types))
    (hids : vocab.idToToken.length ≤ 2 ^ 31) :
    (∀ message, fromGguf isFinite scaled vocab types ≠ .error (.expect message)) ∧
    ∀ t, fromGguf isFinite scaled vocab types = .ok t →
      (∃ scan n, scanTokens vocab (byteFlags vocab.idToToken.length types) = .ok scan ∧
        buildTable isFinite scaled vocab scan.suffixToScore = .ok (n, t.table) ∧
        t.table.length = n.numPieces ∧
        ∀ suffix ∈ sortedSuffixes scan.suffixToScore, ∃ k rows,
          Keyed.get n.suffixToId suffix = some k ∧
          suffixRows isFinite scaled vocab scan.suffixToScore n.suffixToId suffix = .ok rows ∧
          rows <+: t.table.drop k) ∧
      ∀ text : Text, text.head? ≠ some '\uFEFF' → (encode text).length < 2 ^ 31 →
        ∃ parts, Best Part.text (Part.Valid isFinite scaled vocab
            (byteFlags vocab.idToToken.length types)) Part.cost text parts ∧
          t.encodeRun text = some (parts.flatMap (Part.ids t.bytes)) ∧
          (Apart (byteFlags vocab.idToToken.length types) vocab →
            t.decodeBytes (parts.flatMap (Part.ids t.bytes)) = encode text) := by
  rcases fromGguf_cases isFinite scaled hscorable.text_ne with
    ⟨b, hmissing⟩ | hover | ⟨t, scan, n, hok, hscan, hbuild, hloaded⟩
  · rw [hmissing]
    exact ⟨nofun, nofun⟩
  · rw [hover]
    exact ⟨nofun, nofun⟩
  rw [hok]
  refine ⟨nofun, fun t' ht' => ?_⟩
  obtain rfl := Except.ok.inj ht'
  have hl := hloaded.suffixes
  have htable := congrArg GgufPlamo2Tokenizer.table hloaded.built
  dsimp only at htable
  refine ⟨⟨scan, n, hscan, hbuild, ?_, fun suffix hsuffix => ?_⟩, fun text hbom hsize => ?_⟩
  · rw [htable, length_flatMap fun s hs => hl.length_block isFinite scaled vocab hs,
      hloaded.numbered.total]
  · refine ⟨start (size scan.suffixToScore) (sortedSuffixes scan.suffixToScore) suffix, _, ?_,
      hloaded.numbered.suffixRows hl suffix, ?_⟩
    · rw [hloaded.numbered.ids, if_pos hsuffix]
    · rw [htable]
      exact drop_start (fun s hs => hl.length_block isFinite scaled vocab hs) hsuffix
  · obtain ⟨p, cells, hsearch, -, hsolved⟩ := hloaded.search
      (sized_valid hscorable.text_ne hscorable.above) (hloaded.scanned.above hscorable) hids text hsize
    obtain ⟨parts, hbest, -, hemitted⟩ := hsolved [] text rfl
    refine ⟨parts, hbest, ?_, fun hapart => hloaded.decode hapart hbest.cuts⟩
    rw [encodeRun, if_neg hbom, hsearch, ← hemitted]
    rfl

section Limits

/-- The byte tokens in order. -/
@[irreducible] def byteTokens : List Text := (List.range 256).map fun b => byteToken (.ofNat b)

def byteTypes : Gguf.GgufValue := .array (List.replicate 256 (.i32 6))

/-- The byte tokens, and some entries with one text of two characters. -/
def wideVocab (k : ℕ) : ScoredVocab Unit where
  idToToken := byteTokens ++ List.replicate k ['a', 'b']
  scores := List.replicate (256 + k) ()
  nonempty h := by
    have hlength := congrArg List.length h
    rw [List.length_append, byteTokens, List.length_map, List.length_range] at hlength
    exact absurd hlength (by simp)
  covered := by rw [List.length_append, List.length_replicate, List.length_replicate, byteTokens,
    List.length_map, List.length_range]

@[simp] theorem idToToken_wide (k : ℕ) :
    (wideVocab k).idToToken = byteTokens ++ List.replicate k ['a', 'b'] := rfl

def wideFlags (k : ℕ) : List Bool := byteFlags (wideVocab k).idToToken.length (some byteTypes)

/-- Where some tokens leave the ids of the bytes. -/
def bytesAfter (tokens : List (Text × ℕ)) (bytes : UInt8 → ℕ) : UInt8 → ℕ :=
  tokens.foldl (fun bytes token =>
    match spmByteFallbackValue token.1 with
    | some b => Function.update bytes b token.2
    | none => bytes) bytes

theorem bytesAfter_byteTokens (bytes : UInt8 → ℕ) (id : ℕ) :
    bytesAfter (byteTokens.zipIdx id) bytes = fun b => id + b.toNat := by
  have hsome : ∀ n ≤ 256, ∀ b : UInt8, bytesAfter
      (((List.range n).map fun b => byteToken (.ofNat b)).zipIdx id) bytes b =
        if b.toNat < n then id + b.toNat else bytes b := by
    intro n
    induction n with
    | zero => exact fun _ _ => rfl
    | succ n ih =>
      intro hn b
      have hlast : (UInt8.ofNat n).toNat = n := by
        rw [UInt8.toNat_ofNat']
        omega
      have hprev := ih (by omega) b
      rw [List.range_succ, List.map_append, List.zipIdx_append, bytesAfter, List.foldl_append]
      rw [bytesAfter] at hprev
      simp only [List.map_cons, List.map_nil, List.zipIdx_cons, List.zipIdx_nil, List.foldl_cons,
        List.foldl_nil, spmByteFallbackValue_byteToken, List.length_map, List.length_range]
      by_cases hb : b = .ofNat n
      · subst hb
        rw [Function.update_self, hlast, if_pos (Nat.lt_succ_self n)]
      · have hne : b.toNat ≠ n := by
          rintro rfl
          exact hb (UInt8.ofNat_toNat).symm
        rw [Function.update_of_ne hb, hprev]
        congr 1
        rw [eq_iff_iff]
        omega
  ext b
  rw [byteTokens, hsome 256 (Nat.le_refl _) b, if_pos b.toNat_lt]

theorem covered_add (id : ℕ) (hid : id < 2 ^ 31) :
    ((List.range 256).find? fun b => id + (UInt8.ofNat b).toNat = U32_MAX) = none := by
  apply List.find?_eq_none.mpr
  intro b _
  have := (UInt8.ofNat b).toNat_lt
  rw [decide_eq_true_iff, U32_MAX]
  omega

variable {k : ℕ}

theorem length_byteTokens : byteTokens.length = 256 := by
  rw [byteTokens, List.length_map, List.length_range]

theorem getElem_byteTokens (b : UInt8) : byteTokens[b.toNat]? = some (byteToken b) := by
  rw [byteTokens, List.getElem?_map, List.getElem?_range b.toNat_lt, Option.map_some,
    UInt8.ofNat_toNat]

theorem length_of_mem_byteTokens {t : Text} (h : t ∈ byteTokens) : t.length = 6 := by
  rw [byteTokens] at h
  obtain ⟨b, -, rfl⟩ := List.mem_map.mp h
  rfl

theorem wideFlags_get (k id : ℕ) : (wideFlags k)[id]?.getD false = decide (id < 256) := by
  have hlength : (wideVocab k).idToToken.length = 256 + k := by
    rw [idToToken_wide, List.length_append, length_byteTokens, List.length_replicate]
  rw [wideFlags, hlength, byteTypes, byteFlags, List.getElem?_map]
  by_cases hid : id < 256
  · rw [List.getElem?_range (by omega)]
    simp only [Option.map_some, Option.getD_some, List.getElem?_replicate_of_lt hid, hid,
      decide_true]
    decide
  · by_cases hk : id < 256 + k
    · rw [List.getElem?_range hk]
      simp only [Option.map_some, Option.getD_some, List.getElem?_replicate, if_neg hid,
        decide_eq_false hid]
    · rw [List.getElem?_eq_none (by rw [List.length_range]; omega), decide_eq_false hid]
      rfl

theorem plain_wide (h : Plain (wideFlags k) (wideVocab k).idToToken.zipIdx text) :
    text = ['a', 'b'] := by
  obtain ⟨id, hmem, hbyte⟩ := h
  rw [wideFlags_get, decide_eq_false_iff_not] at hbyte
  have hget : (byteTokens ++ List.replicate k ['a', 'b'])[id]? = some text :=
    List.mk_mem_zipIdx_iff_getElem?.mp hmem
  rw [List.getElem?_append_right (by rw [length_byteTokens]; omega)] at hget
  exact List.eq_of_mem_replicate (List.mem_of_getElem? hget)

theorem scorable_wide (k : ℕ) :
    Scorable (fun _ => true) (fun _ => 0) (wideVocab k) (wideFlags k) where
  text_ne text h := by
    rw [plain_wide h]
    exact List.cons_ne_nil _ _
  above text id v _ _ := by
    rw [quantized, if_pos rfl]
    decide

theorem apart_wide (k : ℕ) : Apart (wideFlags k) (wideVocab k) := by
  rintro text id hplain - hvalue
  rw [plain_wide hplain] at hvalue
  exact absurd hvalue (by decide)

theorem idOf_wide (k : ℕ) : (wideVocab (k + 1)).idOf ['a', 'b'] = some (256 + k) := by
  have htokens : (wideVocab (k + 1)).idToToken =
      (byteTokens ++ List.replicate k ['a', 'b']) ++ [['a', 'b']] := by
    rw [idToToken_wide, List.replicate_succ', ← List.append_assoc]
  rw [ScoredVocab.idOf, tokenToId, htokens, List.zipIdx_append, List.reverse_append,
    List.length_append, length_byteTokens, List.length_replicate]
  simp

theorem idOf_wide_tail (k : ℕ) : (wideVocab k).idOf ['b'] = none := by
  have hnone : ['b'] ∉ (wideVocab k).idToToken := by
    rw [idToToken_wide, List.mem_append, not_or]
    refine ⟨fun h => absurd (length_of_mem_byteTokens h) (by decide), fun h => ?_⟩
    exact absurd (List.eq_of_mem_replicate h) (by decide)
  rw [← tokenToId_isSome_iff] at hnone
  exact Option.not_isSome_iff_eq_none.mp hnone

theorem lookup_wide (k : ℕ) :
    (wideVocab (k + 1)).lookup ['a', 'b'] = some (256 + k, ()) := by
  rw [ScoredVocab.lookup, idOf_wide]
  simp only [wideVocab, Option.bind_some]
  rw [List.getElem?_replicate_of_lt (by omega)]
  rfl

theorem foldlM_cons_of_ok {α σ ε : Type} {f : σ → α → Except ε σ} {x : α} {xs : List α} {s s' : σ}
    (h : f s x = .ok s') : (x :: xs).foldlM f s = xs.foldlM f s' := by
  rw [List.foldlM_cons, h]
  rfl

/-- Byte tokens only change where the bytes are. -/
theorem foldlM_scan_bytes (vocab : ScoredVocab K) {tokens : List (Text × ℕ)}
    (h : ∀ token ∈ tokens, isByte[token.2]?.getD false = true) (scan : Scan K) :
    tokens.foldlM (scanToken vocab isByte) scan =
      .ok { scan with bytes := bytesAfter tokens scan.bytes } := by
  induction tokens generalizing scan with
  | nil => rfl
  | cons token tokens ih =>
    obtain ⟨htoken, htokens⟩ := List.forall_mem_cons.mp h
    rw [List.foldlM_cons, scanToken, if_pos htoken]
    cases hvalue : spmByteFallbackValue token.1 with
    | none =>
      simp only [bytesAfter, List.foldl_cons, hvalue]
      exact ih htokens scan
    | some b =>
      simp only [bytesAfter, List.foldl_cons, hvalue]
      exact ih htokens _

theorem scanTokens_bytes (k : ℕ) : scanTokens (wideVocab k) (wideFlags k) =
    ((List.replicate k ['a', 'b']).zipIdx 256).foldlM (scanToken (wideVocab k) (wideFlags k))
      ⟨fun b => 0 + b.toNat, []⟩ := by
  have hflags : ∀ token ∈ byteTokens.zipIdx, (wideFlags k)[token.2]?.getD false = true := by
    intro token htoken
    have hlt := List.snd_lt_add_of_mem_zipIdx htoken
    rw [length_byteTokens] at hlt
    rwa [wideFlags_get, decide_eq_true_iff]
  have htokens : (wideVocab k).idToToken.zipIdx =
      byteTokens.zipIdx ++ (List.replicate k ['a', 'b']).zipIdx 256 := by
    rw [idToToken_wide, List.zipIdx_append, length_byteTokens]
  rw [scanTokens, htokens, List.foldlM_append, foldlM_scan_bytes _ hflags, bytesAfter_byteTokens]
  rfl

theorem scanTokens_wide (k : ℕ) : scanTokens (wideVocab (k + 2)) (wideFlags (k + 2)) =
    .ok ⟨fun b => 0 + b.toNat, [(['a', 'b'], some ()), (['b'], none)]⟩ := by
  have hlookup := lookup_wide (k + 1)
  have hplain : ∀ id, 256 ≤ id → (wideFlags (k + 2))[id]?.getD false = false := by
    intro id hid
    rw [wideFlags_get, decide_eq_false_iff_not]
    omega
  have hscan : ∀ (bytes : UInt8 → ℕ) m id, 256 ≤ id →
      scanToken (wideVocab (k + 2)) (wideFlags (k + 2)) ⟨bytes, m⟩ (['a', 'b'], id) =
        .ok ⟨bytes, (properSuffixes ['a', 'b']).foldl orInsert
          (Keyed.insert ['a', 'b'] (some ()) m)⟩ := by
    intro bytes m id hid
    unfold scanToken
    rw [if_neg (by rw [hplain id hid]; exact Bool.false_ne_true)]
    dsimp only
    rw [hlookup]
  have hrest : ∀ j id, 256 ≤ id →
      ((List.replicate j ['a', 'b']).zipIdx id).foldlM
        (scanToken (wideVocab (k + 2)) (wideFlags (k + 2)))
        ⟨fun b => 0 + b.toNat, [(['a', 'b'], some ()), (['b'], none)]⟩ =
          .ok ⟨fun b => 0 + b.toNat, [(['a', 'b'], some ()), (['b'], none)]⟩ := by
    intro j
    induction j with
    | zero => exact fun _ _ => rfl
    | succ j ih =>
      intro id hid
      rw [List.replicate_succ, List.zipIdx_cons, List.foldlM_cons, hscan _ _ _ hid]
      exact ih (id + 1) (by omega)
  rw [scanTokens_bytes, List.replicate_succ, List.replicate_succ, List.zipIdx_cons,
    List.zipIdx_cons, List.foldlM_cons, hscan _ _ _ (Nat.le_refl 256)]
  dsimp only [bind, Except.bind]
  rw [List.foldlM_cons, hscan _ _ _ (by decide)]
  exact hrest k 258 (by decide)

theorem buildTable_wide (vocab : ScoredVocab Unit) :
    ∃ n, buildTable (fun _ => true) (fun _ => 0) vocab [(['a', 'b'], some ()), (['b'], none)] =
      .ok (n, [sentinel, ⟨1, ((vocab.idOf ['b']).map asI32).getD (-1), INVALID_SCORE, 1⟩, sentinel,
        ⟨2, ((vocab.idOf ['a', 'b']).map asI32).getD (-1), 0, 3⟩, sentinel]) ∧
      n.toSuffixId = [(pieceCode 'a' 1, 3), (pieceCode 'b' 0, 1)] := by
  have hsorted : sortedSuffixes [(['a', 'b'], some ()), (['b'], none)] =
      [[], ['b'], ['a', 'b']] := by
    decide
  unfold buildTable
  dsimp only
  rw [hsorted]
  exact ⟨_, rfl, rfl⟩

def wideTokenizer (k : ℕ) : GgufPlamo2Tokenizer Unit :=
  ⟨wideVocab (k + 2), fun b => 0 + b.toNat, wideFlags (k + 2), [(pieceCode 'a' 1, 3), (pieceCode 'b' 0, 1)],
    [sentinel, ⟨1, -1, INVALID_SCORE, 1⟩, sentinel, ⟨2, asI32 (256 + (k + 1)), 0, 3⟩, sentinel]⟩

theorem fromGguf_wide (k : ℕ) :
    fromGguf (fun _ => true) (fun _ => 0) (wideVocab (k + 2)) (some byteTypes) =
      .ok (wideTokenizer k) := by
  obtain ⟨n, hbuild, hlinks⟩ := buildTable_wide (wideVocab (k + 2))
  rw [idOf_wide, idOf_wide_tail, Option.map_some, Option.getD_some, Option.map_none,
    Option.getD_none] at hbuild
  rw [fromGguf_eq (scanTokens_wide k) (covered_add 0 (by decide)), hbuild, wideTokenizer, ← hlinks]
  rfl

theorem fromGguf_bytes : fromGguf (fun _ => true) (fun _ => 0) (wideVocab 0) (some byteTypes) =
    .ok ⟨wideVocab 0, fun b => 0 + b.toNat, wideFlags 0, [], [sentinel]⟩ := by
  have hbuild : ∃ n, buildTable (fun _ => true) (fun _ => 0) (wideVocab 0) [] =
      .ok (n, [sentinel]) ∧ n.toSuffixId = [] := ⟨_, rfl, rfl⟩
  obtain ⟨n, hbuild, hlinks⟩ := hbuild
  rw [fromGguf_eq (scanTokens_bytes 0) (covered_add 0 (by decide)), hbuild, ← hlinks]
  rfl

/-- One more unknown character counts one more token. -/
theorem relax_unknown {cell next : Cell} (more : List Cell)
    (hrange : -2 ^ 63 ≤ next.score - UNKNOWN_SCORE ∧ next.score - UNKNOWN_SCORE < 2 ^ 63)
    (hless : next.score - UNKNOWN_SCORE < cell.score) :
    relax 'x' (next :: more) [sentinel] cell = (checkedI32 (next.count + 1)).bind fun count =>
      (checkedI32 (count + 0)).map fun count => ⟨next.score - UNKNOWN_SCORE, 1, -1, count⟩ := by
  have hvalid : INVALID_SCORE < sentinel.score := by decide
  have hscore : sentinel.score = UNKNOWN_SCORE := rfl
  have hlength : sentinel.pieceLength = 1 := rfl
  have hextra : utf8ExtraBytes 'x' = 0 := by decide
  rw [relax, relaxRow, if_pos hvalid, hlength, hscore, hextra]
  simp only [List.getElem?_cons_succ, List.getElem?_cons_zero, Option.bind_eq_bind,
    Option.bind_some, checkedI64, if_pos hrange, if_pos hless, if_true]
  cases checkedI32 (next.count + 1) with
  | none => rfl
  | some count =>
    simp only [Option.bind_some]
    cases checkedI32 (count + 0) <;> rfl

theorem search_cons_unknown {t : GgufPlamo2Tokenizer K} (hlinks : t.toSuffixId = [])
    (htable : t.table = [sentinel]) (hk : k < 2 ^ 31) {next : Cell} {more : List Cell}
    (hscore : next.score = -UNKNOWN_SCORE * k)
    (hsearch : t.search text = some (0, next :: more)) :
    t.search ('x' :: text) = (checkedI32 (next.count + 1)).bind fun count =>
      (checkedI32 (count + 0)).map fun count =>
        (0, ⟨next.score - UNKNOWN_SCORE, 1, -1, count⟩ :: next :: more) := by
  have hfollow : follow [] 'x' ([sentinel].drop 0) 0 = 0 := rfl
  have hrange : -2 ^ 63 ≤ next.score - UNKNOWN_SCORE ∧ next.score - UNKNOWN_SCORE < 2 ^ 63 := by
    rw [hscore]
    unfold UNKNOWN_SCORE
    omega
  have hless : next.score - UNKNOWN_SCORE < 2 ^ 60 := by
    rw [hscore]
    unfold UNKNOWN_SCORE
    omega
  rw [search, hsearch, hlinks, htable]
  simp only [Option.bind_eq_bind, Option.bind_some]
  rw [hfollow, List.drop_zero, relax_unknown more hrange hless]
  cases checkedI32 (next.count + 1) with
  | none => rfl
  | some count =>
    simp only [Option.bind_some]
    cases checkedI32 (count + 0) <;> rfl

theorem search_unknown {t : GgufPlamo2Tokenizer K} (hlinks : t.toSuffixId = [])
    (htable : t.table = [sentinel]) (hk : k < 2 ^ 31) : ∃ next more,
    t.search (List.replicate k 'x') = some (0, next :: more) ∧
      next.score = -UNKNOWN_SCORE * k ∧ next.count = k := by
  induction k with
  | zero =>
    refine ⟨⟨0, 0, -1, 0⟩, [], rfl, ?_, rfl⟩
    rw [Nat.cast_zero, mul_zero]
  | succ k ih =>
    obtain ⟨next, more, hsearch, hscore, hcount⟩ := ih (by omega)
    have hone : checkedI32 (next.count + 1) = some (next.count + 1) := if_pos (by omega)
    have hzero : checkedI32 (next.count + 1 + 0) = some (next.count + 1) := by
      rw [add_zero, hone]
    rw [List.replicate_succ, search_cons_unknown hlinks htable (by omega) hscore hsearch, hone,
      Option.bind_some, hzero, Option.map_some]
    refine ⟨_, _, rfl, ?_, ?_⟩
    · dsimp only
      rw [hscore]
      push_cast
      ring
    · dsimp only
      rw [hcount]
      push_cast
      rfl

/-- The tokens of a text are counted in 32 bits. -/
theorem search_long {t : GgufPlamo2Tokenizer K} (hlinks : t.toSuffixId = [])
    (htable : t.table = [sentinel]) (hk : k + 1 = 2 ^ 31) :
    t.search (List.replicate (k + 1) 'x') = none := by
  obtain ⟨next, more, hsearch, hscore, hcount⟩ := search_unknown hlinks htable (k := k) (by omega)
  have hnone : checkedI32 (next.count + 1) = none := if_neg (by omega)
  rw [List.replicate_succ, search_cons_unknown hlinks htable (by omega) hscore hsearch, hnone,
    Option.bind_none]

theorem encodeRun_long {t : GgufPlamo2Tokenizer K} (hlinks : t.toSuffixId = [])
    (htable : t.table = [sentinel]) (hk : k + 1 = 2 ^ 31) :
    t.encodeRun (List.replicate (k + 1) 'x') = none := by
  have hbom : (List.replicate (k + 1) 'x').head? ≠ some '\uFEFF' := by
    rw [List.replicate_succ, List.head?_cons]
    decide
  rw [encodeRun, if_neg hbom, search_long hlinks htable hk]
  rfl

/-- The id of the pair is negative, so that only its first character is written. -/
theorem encodeRun_wide : (wideTokenizer 2147483646).encodeRun ['a', 'b'] = some [97] := by
  decide

theorem decodeBytes_wide (k : ℕ) : (wideTokenizer k).decodeBytes [97] = encode ['a'] := by
  have htoken : (wideVocab (k + 2)).idToToken[97]? = some (byteToken 97) := by
    rw [idToToken_wide, List.getElem?_append_left (by rw [length_byteTokens]; decide)]
    exact getElem_byteTokens 97
  have hbyte : (wideFlags (k + 2))[97]?.getD false = true := by
    rw [wideFlags_get]
    decide
  simp only [wideTokenizer, decodeBytes, ScoredVocab.token, List.flatMap_cons, List.flatMap_nil,
    List.append_nil, htoken, hbyte, if_true, spmByteFallbackValue_byteToken]
  decide

/-- A text written like a byte, and then the byte tokens. -/
def sharedVocab : ScoredVocab Unit where
  idToToken := ['<', '0', 'x', '4', '1', '>'] :: byteTokens
  scores := List.replicate 257 ()
  nonempty := List.cons_ne_nil _ _
  covered := by rw [List.length_cons, length_byteTokens, List.length_replicate]

def sharedTypes : Gguf.GgufValue := .array (.i32 1 :: List.replicate 256 (.i32 6))

theorem sharedFlags_get {id : ℕ} (hid : id < 257) :
    (byteFlags sharedVocab.idToToken.length (some sharedTypes))[id]?.getD false =
      decide (id ≠ 0) := by
  have hlength : sharedVocab.idToToken.length = 257 := by
    rw [sharedVocab, List.length_cons, length_byteTokens]
  rw [hlength, sharedTypes, byteFlags, List.getElem?_map, List.getElem?_range hid]
  cases id with
  | zero => decide
  | succ id =>
    simp only [Option.map_some, Option.getD_some, List.getElem?_cons_succ,
      List.getElem?_replicate_of_lt (show id < 256 by omega)]
    rfl

theorem plain_shared (h : Plain (byteFlags sharedVocab.idToToken.length (some sharedTypes))
    sharedVocab.idToToken.zipIdx text) : text = ['<', '0', 'x', '4', '1', '>'] := by
  obtain ⟨id, hmem, hbyte⟩ := h
  have hlt := List.snd_lt_add_of_mem_zipIdx hmem
  have hget : sharedVocab.idToToken[id]? = some text := List.mk_mem_zipIdx_iff_getElem?.mp hmem
  have hlength : sharedVocab.idToToken.length = 257 := by
    rw [sharedVocab, List.length_cons, length_byteTokens]
  rw [hlength] at hlt
  rw [sharedFlags_get (by omega), decide_eq_false_iff_not, not_not] at hbyte
  subst hbyte
  exact (Option.some.inj hget).symm

theorem scorable_shared : Scorable (fun _ => true) (fun _ => 0) sharedVocab
    (byteFlags sharedVocab.idToToken.length (some sharedTypes)) where
  text_ne text h := by
    rw [plain_shared h]
    exact List.cons_ne_nil _ _
  above text id v _ _ := by
    rw [quantized, if_pos rfl]
    decide

/-- The suffixes of the one text that is plain. -/
def sharedSuffixes : List (Text × Option Unit) :=
  (properSuffixes ['<', '0', 'x', '4', '1', '>']).foldl orInsert
    [(['<', '0', 'x', '4', '1', '>'], some ())]

theorem scanTokens_shared : scanTokens sharedVocab
    (byteFlags sharedVocab.idToToken.length (some sharedTypes)) =
      .ok ⟨fun b => 1 + b.toNat, sharedSuffixes⟩ := by
  have hflags : ∀ token ∈ byteTokens.zipIdx 1,
      (byteFlags sharedVocab.idToToken.length (some sharedTypes))[token.2]?.getD false = true := by
    intro token htoken
    have hle := List.le_snd_of_mem_zipIdx htoken
    have hlt := List.snd_lt_add_of_mem_zipIdx htoken
    rw [length_byteTokens] at hlt
    rw [sharedFlags_get (by omega), decide_eq_true_iff]
    omega
  have hfirst : scanToken sharedVocab
      (byteFlags sharedVocab.idToToken.length (some sharedTypes)) ⟨fun _ => U32_MAX, []⟩
        (['<', '0', 'x', '4', '1', '>'], 0) = .ok ⟨fun _ => U32_MAX, sharedSuffixes⟩ := by
    have hlookup : sharedVocab.lookup ['<', '0', 'x', '4', '1', '>'] = some (66, ()) := by
      decide +kernel
    have hflag : (byteFlags sharedVocab.idToToken.length (some sharedTypes))[0]?.getD false =
        false := by
      rw [sharedFlags_get (by decide)]
      decide
    unfold scanToken
    rw [if_neg (by rw [hflag]; exact Bool.false_ne_true)]
    dsimp only
    rw [hlookup]
    rfl
  have htokens : sharedVocab.idToToken.zipIdx =
      (['<', '0', 'x', '4', '1', '>'], 0) :: byteTokens.zipIdx 1 := by
    rw [sharedVocab, List.zipIdx_cons]
  have hrest := foldlM_scan_bytes sharedVocab hflags ⟨fun _ => U32_MAX, sharedSuffixes⟩
  rw [bytesAfter_byteTokens] at hrest
  rw [scanTokens, htokens, foldlM_cons_of_ok hfirst, hrest]

theorem decode_shared :
    ∃ t, fromGguf (fun _ => true) (fun _ => 0) sharedVocab (some sharedTypes) = .ok t ∧
      (t.encodeRun ['<', '0', 'x', '4', '1', '>']).map t.decodeBytes = some (encode ['A']) := by
  have hrun : ((buildTable (fun _ => true) (fun _ => 0) sharedVocab sharedSuffixes).toOption.bind
      fun built => (encodeRun ⟨sharedVocab, fun b => 1 + b.toNat,
        byteFlags sharedVocab.idToToken.length (some sharedTypes), built.1.toSuffixId, built.2⟩
        ['<', '0', 'x', '4', '1', '>'])) = some [66] := by
    decide +kernel
  rw [fromGguf_eq scanTokens_shared (covered_add 1 (by decide))]
  cases hbuild : buildTable (fun _ => true) (fun _ => 0) sharedVocab sharedSuffixes with
  | error e =>
    rw [hbuild] at hrun
    cases hrun
  | ok built =>
    rw [hbuild] at hrun
    have htoken : sharedVocab.idToToken[66]? = some (byteToken 65) := getElem_byteTokens 65
    have hids : encodeRun ⟨sharedVocab, fun b => 1 + b.toNat,
        byteFlags sharedVocab.idToToken.length (some sharedTypes), built.1.toSuffixId, built.2⟩
        ['<', '0', 'x', '4', '1', '>'] = some [66] := hrun
    have hdecode : decodeBytes ⟨sharedVocab, fun b => 1 + b.toNat,
        byteFlags sharedVocab.idToToken.length (some sharedTypes), built.1.toSuffixId, built.2⟩
        [66] = encode ['A'] := by
      have hflag : (byteFlags sharedVocab.idToToken.length (some sharedTypes))[66]?.getD false =
          true := by
        rw [sharedFlags_get (by decide)]
        decide
      simp only [decodeBytes, ScoredVocab.token, List.flatMap_cons, List.flatMap_nil,
        List.append_nil, htoken, hflag, if_true, spmByteFallbackValue_byteToken]
      decide
    exact ⟨_, rfl, by rw [hids, Option.map_some, hdecode]⟩

/-- What is segmented is not always decoded to the text: a byte token may take the id of a text, and
an id that is no `i32` is taken for none. A text of `2 ^ 31` tokens is not segmented. -/
theorem encodeRun_limits :
    (∃ t, fromGguf (fun _ => true) (fun _ => 0) sharedVocab (some sharedTypes) = .ok t ∧
      Scorable (fun _ => true) (fun _ => 0) sharedVocab
        (byteFlags sharedVocab.idToToken.length (some sharedTypes)) ∧
      (t.encodeRun ['<', '0', 'x', '4', '1', '>']).map t.decodeBytes = some (encode ['A'])) ∧
    (∃ t, fromGguf (fun _ => true) (fun _ => 0) (wideVocab (2147483646 + 2)) (some byteTypes) =
        .ok t ∧
      Scorable (fun _ => true) (fun _ => 0) (wideVocab (2147483646 + 2))
        (wideFlags (2147483646 + 2)) ∧
      Apart (wideFlags (2147483646 + 2)) (wideVocab (2147483646 + 2)) ∧
      (t.encodeRun ['a', 'b']).map t.decodeBytes = some (encode ['a'])) ∧
    ∃ t, fromGguf (fun _ => true) (fun _ => 0) (wideVocab 0) (some byteTypes) = .ok t ∧
      Scorable (fun _ => true) (fun _ => 0) (wideVocab 0) (wideFlags 0) ∧
      Apart (wideFlags 0) (wideVocab 0) ∧
      t.encodeRun (List.replicate (2147483647 + 1) 'x') = none := by
  obtain ⟨t, hload, hrun⟩ := decode_shared
  have hwide : ((wideTokenizer 2147483646).encodeRun ['a', 'b']).map
      (wideTokenizer 2147483646).decodeBytes = some (encode ['a']) := by
    rw [encodeRun_wide, Option.map_some, decodeBytes_wide]
  exact ⟨⟨t, hload, scorable_shared, hrun⟩,
    ⟨_, fromGguf_wide 2147483646, scorable_wide _, apart_wide _, hwide⟩,
    ⟨_, fromGguf_bytes, scorable_wide 0, apart_wide 0, encodeRun_long rfl rfl (by norm_num)⟩⟩

/-- Two entries with one text, which is then one piece. -/
theorem encodeRun_least_pair : ∃ (t : GgufPlamo2Tokenizer Unit) (parts : List Part),
    fromGguf (fun _ => true) (fun _ => 0) (wideVocab 2) (some byteTypes) = .ok t ∧
      t.encodeRun ['a', 'b', 'x'] = some (parts.flatMap (Part.ids t.bytes)) ∧
      t.encodeRun ['a', 'b', 'x'] = some [257, 120] ∧
      t.decodeBytes (parts.flatMap (Part.ids t.bytes)) = encode ['a', 'b', 'x'] := by
  obtain ⟨-, hall⟩ := encodeRun_least (fun _ => true) (fun _ => 0) (wideVocab 2) (some byteTypes)
    (scorable_wide 2) (by rw [idToToken_wide, List.length_append, length_byteTokens]; decide)
  obtain ⟨parts, -, hencode, hdecode⟩ :=
    (hall _ (fromGguf_wide 0)).2 ['a', 'b', 'x'] (by decide) (by decide)
  exact ⟨_, parts, fromGguf_wide 0, hencode, by decide, hdecode (apart_wide 2)⟩

end Limits

end Frink.Tokenizer.GgufPlamo2Tokenizer
