import Frink.Library.Guarded
import Frink.Library.Slab
import Frink.Tokenizer.Plamo2

/-! # The suffix table

What loading a PLaMo-2 vocabulary builds. The suffixes are the texts and their tails; sorted by
their reversed bytes each comes after its own tail, so that the first pass finds every tail
numbered, and it counts the rows that the second pass lays out.
-/

namespace Frink.Tokenizer.GgufPlamo2Tokenizer

open Blocks Decode Gbnf

variable {K : Type} {text s : Text} {c : Char}

theorem mem_properSuffixes : s ∈ properSuffixes text ↔ s ≠ [] ∧ s <:+ text ∧ s ≠ text := by
  simp only [properSuffixes, List.mem_map, List.mem_range'_1]
  constructor
  · rintro ⟨i, hi, rfl⟩
    have hlength : (text.drop i).length = text.length - i := List.length_drop
    refine ⟨?_, List.drop_suffix i text, ?_⟩
    · rw [← List.length_pos_iff]
      omega
    · intro heq
      rw [heq] at hlength
      omega
  · rintro ⟨hne, ⟨front, rfl⟩, hproper⟩
    have hfront : front ≠ [] := by
      rintro rfl
      exact hproper rfl
    rw [← List.length_pos_iff] at hne hfront
    exact ⟨front.length, by simp; omega, by simp⟩

theorem mem_properPrefixes : s ∈ properPrefixes text ↔ s ≠ [] ∧ s <+: text ∧ s ≠ text := by
  simp only [properPrefixes, List.mem_map, List.mem_range'_1]
  constructor
  · rintro ⟨i, hi, rfl⟩
    have hlength : (text.take i).length = min i text.length := List.length_take
    refine ⟨?_, List.take_prefix i text, ?_⟩
    · rw [← List.length_pos_iff]
      omega
    · intro heq
      rw [heq] at hlength
      omega
  · rintro ⟨hne, ⟨back, rfl⟩, hproper⟩
    have hback : back ≠ [] := by
      rintro rfl
      exact hproper (List.append_nil s).symm
    rw [← List.length_pos_iff] at hne hback
    exact ⟨s.length, by simp; omega, by simp⟩

section Scan

variable {vocab : ScoredVocab K} {isByte : List Bool} {seen : List (Text × ℕ)} {scan : Scan K}

/-- A text with an id that is not a byte token. -/
def Plain (isByte : List Bool) (seen : List (Text × ℕ)) (text : Text) : Prop :=
  ∃ id, (text, id) ∈ seen ∧ isByte[id]?.getD false = false

/-- What the scan knows of the tokens it has seen. -/
structure Scanned (vocab : ScoredVocab K) (isByte : List Bool) (seen : List (Text × ℕ))
    (scan : Scan K) : Prop where

  functional : Keyed.Functional scan.suffixToScore

  stored : ∀ s, (Keyed.get scan.suffixToScore s).isSome ↔
    s ≠ [] ∧ ∃ text, Plain isByte seen text ∧ s <:+ text

  scored : ∀ s score, Keyed.get scan.suffixToScore s = some (some score) →
    Plain isByte seen s ∧ ∃ id, vocab.lookup s = some (id, score)

  plain : ∀ s, Plain isByte seen s → ∃ score, Keyed.get scan.suffixToScore s = some (some score)

  bytes : ∀ b, scan.bytes b ≠ U32_MAX → ∃ text, (text, scan.bytes b) ∈ seen ∧
    isByte[scan.bytes b]?.getD false = true ∧ spmByteFallbackValue text = some b

theorem plain_append {token : Text × ℕ} : Plain isByte (seen ++ [token]) text ↔
    Plain isByte seen text ∨ text = token.1 ∧ isByte[token.2]?.getD false = false := by
  simp only [Plain, List.mem_append, List.mem_singleton]
  constructor
  · rintro ⟨id, hmem | rfl, hbyte⟩
    · exact .inl ⟨id, hmem, hbyte⟩
    · exact .inr ⟨rfl, hbyte⟩
  · rintro (⟨id, hmem, hbyte⟩ | ⟨rfl, hbyte⟩)
    · exact ⟨id, .inl hmem, hbyte⟩
    · exact ⟨token.2, .inr rfl, hbyte⟩

theorem scanned_nil : Scanned vocab isByte [] ⟨fun _ => U32_MAX, []⟩ where
  functional := List.nodup_nil
  stored s := by simp [Plain]
  scored s score h := by cases h
  plain s h := by simp [Plain] at h
  bytes b h := absurd rfl h

theorem orInsert_functional {m : List (Text × Option K)} (h : Keyed.Functional m) (s : Text) :
    Keyed.Functional (orInsert m s) := by
  unfold orInsert
  split
  · exact h
  · exact h.insert s none

theorem get_orInsert (m : List (Text × Option K)) (s t : Text) : Keyed.get (orInsert m s) t =
    (Keyed.get m t).or (if t = s then some none else none) := by
  unfold orInsert
  by_cases hts : t = s
  · subst hts
    cases hget : Keyed.get m t with
    | none => simp [Keyed.get_insert]
    | some e => simp [hget]
  · rw [if_neg hts, Option.or_none]
    split
    · rfl
    · rw [Keyed.get_insert, if_neg hts]

/-- Tails are entered without a score, unless they are there. -/
theorem foldl_orInsert (l : List Text) {m : List (Text × Option K)} (h : Keyed.Functional m) :
    Keyed.Functional (l.foldl orInsert m) ∧ ∀ t, Keyed.get (l.foldl orInsert m) t =
      (Keyed.get m t).or (if t ∈ l then some none else none) := by
  induction l generalizing m with
  | nil => exact ⟨h, fun t => by simp⟩
  | cons s l ih =>
    obtain ⟨hfunctional, hget⟩ := ih (orInsert_functional h s)
    refine ⟨hfunctional, fun t => ?_⟩
    rw [List.foldl_cons, hget, get_orInsert, Option.or_assoc]
    by_cases hts : t = s <;> by_cases htl : t ∈ l <;> simp [hts, htl]

/-- What a text adds: itself with its score, and its tails. -/
theorem get_scanned {m : List (Text × Option K)} (h : Keyed.Functional m) (text : Text) (score : K)
    (t : Text) :
    Keyed.get ((properSuffixes text).foldl orInsert (Keyed.insert text (some score) m)) t =
      if t = text then some (some score)
      else (Keyed.get m t).or (if t ∈ properSuffixes text then some none else none) := by
  rw [(foldl_orInsert _ (h.insert text (some score))).2, Keyed.get_insert]
  split <;> rfl

/-- A text is looked up at once, and a byte token is entered as one. -/
theorem Scanned.scanToken (h : Scanned vocab isByte seen scan) {token : Text × ℕ} {id : ℕ}
    {score : K} (hlookup : vocab.lookup token.1 = some (id, score))
    (hne : isByte[token.2]?.getD false = false → token.1 ≠ []) :
    ∃ scan', scanToken vocab isByte scan token = .ok scan' ∧
      Scanned vocab isByte (seen ++ [token]) scan' := by
  unfold GgufPlamo2Tokenizer.scanToken
  cases hbyte : isByte[token.2]?.getD false with
  | true =>
    have hplain : ∀ text, Plain isByte (seen ++ [token]) text ↔ Plain isByte seen text := by
      intro text
      simp [plain_append, hbyte]
    have hkept : ∀ b, scan.bytes b ≠ U32_MAX → ∃ text, (text, scan.bytes b) ∈ seen ++ [token] ∧
        isByte[scan.bytes b]?.getD false = true ∧ spmByteFallbackValue text = some b := by
      intro b hb
      obtain ⟨text, hmem, hrest⟩ := h.bytes b hb
      exact ⟨text, List.mem_append_left _ hmem, hrest⟩
    rw [if_pos rfl]
    cases hvalue : spmByteFallbackValue token.1 with
    | none =>
      refine ⟨scan, rfl, h.functional, fun s => ?_, fun s v hs => ?_, fun s hs => ?_, hkept⟩
      · simpa only [hplain] using h.stored s
      · simpa only [hplain] using h.scored s v hs
      · exact h.plain s ((hplain s).mp hs)
    | some value =>
      refine ⟨_, rfl, h.functional, fun s => ?_, fun s v hs => ?_, fun s hs => ?_, fun b hb => ?_⟩
      · simpa only [hplain] using h.stored s
      · simpa only [hplain] using h.scored s v hs
      · exact h.plain s ((hplain s).mp hs)
      · dsimp only at hb ⊢
        by_cases hbv : b = value
        · subst hbv
          rw [Function.update_self]
          exact ⟨token.1, by simp, hbyte, hvalue⟩
        · rw [Function.update_of_ne hbv] at hb ⊢
          exact hkept b hb
  | false =>
    rw [if_neg Bool.false_ne_true, hlookup]
    refine ⟨_, rfl, (foldl_orInsert _ (h.functional.insert _ _)).1, ?_, ?_, ?_, ?_⟩
    · intro s
      dsimp only
      rw [get_scanned h.functional]
      simp only [plain_append, hbyte, and_true]
      by_cases hs : s = token.1
      · subst hs
        simp only [↓reduceIte, Option.isSome_some, true_iff]
        exact ⟨hne hbyte, token.1, .inr rfl, List.suffix_refl _⟩
      · rw [if_neg hs, Option.isSome_or, Bool.or_eq_true, h.stored s]
        have hsuffix : (if s ∈ properSuffixes token.1 then some (none : Option K) else none).isSome ↔
            s ≠ [] ∧ s <:+ token.1 := by
          have hmem : s ∈ properSuffixes token.1 ↔ s ≠ [] ∧ s <:+ token.1 := by
            rw [mem_properSuffixes]
            exact ⟨fun h => ⟨h.1, h.2.1⟩, fun h => ⟨h.1, h.2, hs⟩⟩
          rw [← hmem]
          split <;> simpa
        rw [hsuffix]
        constructor
        · rintro (⟨hs, text, htext, hsuffix⟩ | ⟨hs, hsuffix⟩)
          · exact ⟨hs, text, .inl htext, hsuffix⟩
          · exact ⟨hs, token.1, .inr rfl, hsuffix⟩
        · rintro ⟨hs, text, htext | rfl, hsuffix⟩
          · exact .inl ⟨hs, text, htext, hsuffix⟩
          · exact .inr ⟨hs, hsuffix⟩
    · intro s v hs
      dsimp only at hs
      rw [get_scanned h.functional] at hs
      by_cases hst : s = token.1
      · subst hst
        rw [if_pos rfl] at hs
        obtain rfl := Option.some.inj (Option.some.inj hs)
        exact ⟨plain_append.mpr (.inr ⟨rfl, hbyte⟩), id, hlookup⟩
      · rw [if_neg hst] at hs
        have hold : Keyed.get scan.suffixToScore s = some (some v) := by
          cases hget : Keyed.get scan.suffixToScore s with
          | none =>
            rw [hget, Option.none_or] at hs
            split at hs <;> cases hs
          | some e => simpa [hget] using hs
        obtain ⟨hplain, hscore⟩ := h.scored s v hold
        exact ⟨plain_append.mpr (.inl hplain), hscore⟩
    · intro s hs
      dsimp only
      rw [get_scanned h.functional]
      by_cases hst : s = token.1
      · exact ⟨score, if_pos hst⟩
      · rcases plain_append.mp hs with hs | ⟨rfl, -⟩
        · obtain ⟨v, hv⟩ := h.plain s hs
          exact ⟨v, by rw [if_neg hst, hv, Option.some_or]⟩
        · exact absurd rfl hst
    · intro b hb
      obtain ⟨text, hmem, hrest⟩ := h.bytes b hb
      exact ⟨text, List.mem_append_left _ hmem, hrest⟩

/-- The scan of a vocabulary whose plain texts are not empty never fails. -/
theorem scanTokens_spec (vocab : ScoredVocab K) (isByte : List Bool)
    (hne : ∀ text, Plain isByte vocab.idToToken.zipIdx text → text ≠ []) :
    ∃ scan, scanTokens vocab isByte = .ok scan ∧
      Scanned vocab isByte vocab.idToToken.zipIdx scan := by
  have hrun : ∀ (tokens seen : List (Text × ℕ)) (scan : Scan K),
      seen ++ tokens = vocab.idToToken.zipIdx → Scanned vocab isByte seen scan →
      ∃ scan', tokens.foldlM (GgufPlamo2Tokenizer.scanToken vocab isByte) scan = .ok scan' ∧
        Scanned vocab isByte vocab.idToToken.zipIdx scan' := by
    intro tokens
    induction tokens with
    | nil =>
      intro seen scan hall hscan
      rw [← hall, List.append_nil]
      exact ⟨scan, rfl, hscan⟩
    | cons token tokens ih =>
      intro seen scan hall hscan
      have hmem : (token.1, token.2) ∈ vocab.idToToken.zipIdx := by
        rw [← hall]
        simp
      have htext : token.1 ∈ vocab.idToToken :=
        List.mem_of_getElem? (List.mk_mem_zipIdx_iff_getElem?.mp hmem)
      have hid : (vocab.lookup token.1).isSome :=
        ScoredVocab.lookup_isSome_iff.mpr (tokenToId_isSome_iff.mpr htext)
      obtain ⟨⟨id, score⟩, hlookup⟩ := Option.isSome_iff_exists.mp hid
      obtain ⟨scan', hstep, hscan'⟩ := hscan.scanToken hlookup
        fun hbyte => hne token.1 ⟨token.2, hmem, hbyte⟩
      rw [List.foldlM_cons, hstep]
      exact ih (seen ++ [token]) scan' (by rw [← hall]; simp) hscan'
  exact hrun _ [] _ rfl scanned_nil

end Scan

section Sorted

variable {m : List (Text × Option K)} {l : List Text}

/-- What the suffixes are, in an order in which each comes after its tail. -/
structure Suffixes (m : List (Text × Option K)) (l : List Text) : Prop where

  nodup : l.Nodup

  mem : ∀ s, s ∈ l ↔ s = [] ∨ (Keyed.get m s).isSome

  tail_first : ∀ front c rest back, l = front ++ (c :: rest) :: back → rest ∈ front

theorem reversedBytes_cons (c : Char) (rest : Text) : reversedBytes (c :: rest) =
    reversedBytes rest ++ ((String.utf8EncodeChar c).map UInt8.toNat).reverse := by
  simp [reversedBytes, encode]

theorem reversedBytes_lt_cons (c : Char) (rest : Text) :
    reversedBytes rest < reversedBytes (c :: rest) := by
  have hne : (String.utf8EncodeChar c).length ≠ 0 := by
    have := c.utf8Size_pos
    simp
    omega
  rw [reversedBytes_cons]
  cases hbytes : ((String.utf8EncodeChar c).map UInt8.toNat).reverse with
  | nil =>
    have hlength := congrArg List.length hbytes
    rw [List.length_reverse, List.length_map] at hlength
    exact absurd hlength hne
  | cons b bytes =>
    have hlt := List.Lex.append_left (· < ·) (@List.Lex.nil ℕ (· < ·) b bytes) (reversedBytes rest)
    rwa [List.append_nil] at hlt

/-- The empty suffix is there, and the tail of every other one. -/
theorem sortedSuffixes_spec (hm : Keyed.Functional m) (hnil : Keyed.get m [] = none)
    (hclosed : ∀ c rest, (Keyed.get m (c :: rest)).isSome →
      rest = [] ∨ (Keyed.get m rest).isSome) :
    Suffixes m (sortedSuffixes m) := by
  have hperm : (sortedSuffixes m).Perm (m.map Prod.fst ++ [[]]) := List.perm_insertionSort _ _
  have hmem : ∀ s, s ∈ sortedSuffixes m ↔ s = [] ∨ (Keyed.get m s).isSome := by
    intro s
    rw [hperm.mem_iff, List.mem_append, List.mem_singleton, Keyed.get_isSome_iff, or_comm]
  have hnodup : (sortedSuffixes m).Nodup := by
    rw [hperm.nodup_iff]
    apply List.nodup_append'.mpr
    refine ⟨hm, List.nodup_singleton _, ?_⟩
    rintro s hs hsnil
    obtain rfl := List.mem_singleton.mp hsnil
    rw [← Keyed.get_isSome_iff, hnil] at hs
    cases hs
  refine ⟨hnodup, hmem, fun front c rest back hl => ?_⟩
  have hsorted : (sortedSuffixes m).Pairwise fun a b => reversedBytes a ≤ reversedBytes b := by
    have : Std.Total fun a b => reversedBytes a ≤ reversedBytes b := ⟨fun _ _ => le_total _ _⟩
    have : IsTrans Text fun a b => reversedBytes a ≤ reversedBytes b := ⟨fun _ _ _ => le_trans⟩
    exact List.pairwise_insertionSort _ _
  have hrest : rest ∈ sortedSuffixes m := by
    apply (hmem rest).mpr
    apply hclosed c rest
    refine ((hmem (c :: rest)).mp ?_).resolve_left (List.cons_ne_nil c rest)
    rw [hl]
    simp
  rw [hl] at hrest hsorted
  rcases List.mem_append.mp hrest with hfront | hback
  · exact hfront
  · exfalso
    have hlt := reversedBytes_lt_cons c rest
    rcases List.mem_cons.mp hback with heq | hback
    · rw [← heq] at hlt
      exact lt_irrefl _ hlt
    · have hle := (List.pairwise_cons.mp (List.pairwise_append.mp hsorted).2.1).1 rest hback
      exact absurd hlt (not_lt.mpr hle)

end Sorted

section Numbering

variable {m : List (Text × Option K)} {l : List Text} {n : Numbering}

/-- How many rows a suffix has. -/
def size (m : List (Text × Option K)) (s : Text) : ℕ := if s = [] then 1 else rowCount m s

theorem size_pos (m : List (Text × Option K)) (s : Text) : 0 < size m s := by
  unfold size rowCount
  split <;> omega

theorem pieceCode_eq {k : ℕ} (h : k < 2 ^ 31) : pieceCode c k = c.toNat * 2 ^ 32 + k := by
  rw [pieceCode, ← Nat.shiftLeft_add_eq_or_of_lt (by omega), Nat.shiftLeft_eq]

theorem pieceCode_inj {d : Char} {j k : ℕ} (hj : j < 2 ^ 31) (hk : k < 2 ^ 31)
    (h : pieceCode c j = pieceCode d k) : c = d ∧ j = k := by
  rw [pieceCode_eq hj, pieceCode_eq hk] at h
  have hcode : c.toNat = d.toNat ∧ j = k := by omega
  exact ⟨Char.toNat_inj.mp hcode.1, hcode.2⟩

/-- The first pass has gone through some suffixes: each has the row it starts at as its id, and a
character before one of them leads to the longer one. -/
structure Numbered (m : List (Text × Option K)) (l : List Text) (n : Numbering) : Prop where

  closed : ∀ c rest, c :: rest ∈ l → rest ∈ l

  ids : ∀ s, Keyed.get n.suffixToId s = if s ∈ l then some (start (size m) l s) else none

  links : ∀ code k, Keyed.get n.toSuffixId code = some k ↔
    ∃ c rest, c :: rest ∈ l ∧ code = pieceCode c (start (size m) l rest) ∧
      k = start (size m) l (c :: rest)

  total : n.numPieces = (l.map (size m)).sum

  fits : n.numPieces < 2 ^ 31

theorem numbered_nil : Numbered m [] ⟨[], [], 0⟩ where
  closed c rest h := by cases h
  ids s := rfl
  links code k := by simp
  total := rfl
  fits := by decide

theorem Numbered.start_lt (h : Numbered m l n) (hs : s ∈ l) : start (size m) l s < 2 ^ 31 := by
  have hle := @start_add_size_le _ _ (size m) l s hs
  have := h.fits
  rw [h.total] at this
  omega

theorem addI32_spec (a b : ℕ) :
    addI32 a b = .error .overflow ∨ addI32 a b = .ok (a + b) ∧ a + b < 2 ^ 31 := by
  unfold addI32
  split
  · exact .inr ⟨rfl, by assumption⟩
  · exact .inl rfl

/-- A suffix that is new gets the number of rows counted so far; its tail has been numbered. -/
theorem Numbered.numberSuffix (h : Numbered m l n) (hnew : s ∉ l)
    (htail : ∀ c rest, s = c :: rest → rest ∈ l) :
    numberSuffix m n s = .error .overflow ∨
      ∃ n', numberSuffix m n s = .ok n' ∧ Numbered m (l ++ [s]) n' := by
  have hids : ∀ t, Keyed.get (Keyed.insert s n.numPieces n.suffixToId) t =
      if t ∈ l ++ [s] then some (start (size m) (l ++ [s]) t) else none := by
    intro t
    rw [Keyed.get_insert, h.ids]
    by_cases hts : t = s
    · subst hts
      simp [start_snoc hnew, h.total]
    · by_cases htl : t ∈ l
      · simp [hts, htl, start_append_of_mem htl]
      · simp [hts, htl]
  have hstart : ∀ {t}, t ∈ l → start (size m) (l ++ [s]) t = start (size m) l t :=
    fun ht => start_append_of_mem ht
  have hself : start (size m) (l ++ [s]) s = n.numPieces := by rw [start_snoc hnew, h.total]
  have htotal : ∀ k, k = size m s → n.numPieces + k = ((l ++ [s]).map (size m)).sum := by
    rintro k rfl
    simp [h.total]
  cases s with
  | nil =>
    unfold GgufPlamo2Tokenizer.numberSuffix
    rcases addI32_spec n.numPieces 1 with hover | ⟨hok, hlt⟩
    · exact .inl (by simp only [hover]; rfl)
    · refine .inr ⟨_, by simp only [hok]; rfl, ?_, hids, ?_, htotal 1 rfl, hlt⟩
      · intro c rest hmem
        rw [List.mem_append, List.mem_singleton] at hmem
        exact List.mem_append_left _ (h.closed c rest (hmem.resolve_right (List.cons_ne_nil _ _)))
      · intro code k
        rw [h.links]
        constructor
        · rintro ⟨c, rest, hmem, rfl, rfl⟩
          refine ⟨c, rest, List.mem_append_left _ hmem, ?_, (hstart hmem).symm⟩
          rw [hstart (h.closed c rest hmem)]
        · rintro ⟨c, rest, hmem, rfl, rfl⟩
          rw [List.mem_append, List.mem_singleton] at hmem
          have hmem := hmem.resolve_right (List.cons_ne_nil _ _)
          exact ⟨c, rest, hmem, by rw [hstart (h.closed c rest hmem)], hstart hmem⟩
  | cons first rest =>
    have hrest : rest ∈ l := htail first rest rfl
    have hid : Keyed.get (Keyed.insert (first :: rest) n.numPieces n.suffixToId) rest =
        some (start (size m) l rest) := by
      rw [hids, if_pos (List.mem_append_left _ hrest), hstart hrest]
    unfold GgufPlamo2Tokenizer.numberSuffix
    rcases addI32_spec n.numPieces (rowCount m (first :: rest)) with hover | ⟨hok, hlt⟩
    · exact .inl (by simp only [hid, hover]; rfl)
    · refine .inr ⟨_, by simp only [hid, hok]; rfl, ?_, hids, ?_, htotal _ rfl, hlt⟩
      · intro c tail hmem
        rcases List.mem_append.mp hmem with hmem | hmem
        · exact List.mem_append_left _ (h.closed c tail hmem)
        · obtain ⟨rfl, rfl⟩ := List.cons.inj (List.mem_singleton.mp hmem)
          exact List.mem_append_left _ hrest
      · intro code k
        rw [Keyed.get_insert]
        split
        · rename_i hcode
          constructor
          · intro hk
            obtain rfl := Option.some.inj hk
            exact ⟨first, rest, by simp, by rw [hcode, hstart hrest], hself.symm⟩
          · rintro ⟨c, tail, hmem, hcode', rfl⟩
            rcases List.mem_append.mp hmem with hold | hnew'
            · -- the old link has another character or another tail
              exfalso
              have htail' := h.closed c tail hold
              rw [hcode, hstart htail'] at hcode'
              obtain ⟨rfl, heq⟩ := pieceCode_inj (h.start_lt hrest) (h.start_lt htail') hcode'
              obtain rfl := start_inj (size_pos m) hrest htail' heq
              exact hnew hold
            · obtain ⟨rfl, rfl⟩ := List.cons.inj (List.mem_singleton.mp hnew')
              rw [hself]
        · rename_i hcode
          rw [h.links]
          constructor
          · rintro ⟨c, tail, hmem, rfl, rfl⟩
            refine ⟨c, tail, List.mem_append_left _ hmem, ?_, (hstart hmem).symm⟩
            rw [hstart (h.closed c tail hmem)]
          · rintro ⟨c, tail, hmem, rfl, rfl⟩
            rcases List.mem_append.mp hmem with hold | hnew'
            · exact ⟨c, tail, hold, by rw [hstart (h.closed c tail hold)], hstart hold⟩
            · obtain ⟨rfl, rfl⟩ := List.cons.inj (List.mem_singleton.mp hnew')
              exact absurd (by rw [hstart hrest]) hcode

/-- The first pass never misses a tail; the rows it counts may be too many. -/
theorem Suffixes.number (h : Suffixes m l) :
    l.foldlM (numberSuffix m) ⟨[], [], 0⟩ = .error .overflow ∨
      ∃ n, l.foldlM (numberSuffix m) ⟨[], [], 0⟩ = .ok n ∧ Numbered m l n := by
  have hrun : ∀ (back front : List Text) (n : Numbering), front ++ back = l → Numbered m front n →
      back.foldlM (GgufPlamo2Tokenizer.numberSuffix m) n = .error .overflow ∨
        ∃ n', back.foldlM (GgufPlamo2Tokenizer.numberSuffix m) n = .ok n' ∧ Numbered m l n' := by
    intro back
    induction back with
    | nil =>
      rintro front n rfl hn
      rw [List.append_nil]
      exact .inr ⟨n, rfl, hn⟩
    | cons s back ih =>
      rintro front n hl hn
      have hnodup := h.nodup
      rw [← hl, List.nodup_middle] at hnodup
      have hnew : s ∉ front := fun hs =>
        (List.nodup_cons.mp hnodup).1 (List.mem_append_left _ hs)
      have hstep := hn.numberSuffix hnew
        fun c rest hs => h.tail_first front c rest back (by rw [← hs, hl])
      rw [List.foldlM_cons]
      rcases hstep with hover | ⟨n', hok, hn'⟩
      · exact .inl (by rw [hover]; rfl)
      · rw [hok]
        exact ih (front ++ [s]) n' (by rw [← hl]; simp) hn'
  exact hrun l [] _ rfl numbered_nil

end Numbering

section Layout

variable {m : List (Text × Option K)} {l : List Text} {n : Numbering} {piece : Text × Option K}
  (isFinite : K → Bool) (scaled : K → Int32) (vocab : ScoredVocab K)

theorem mem_storedPrefixes :
    piece ∈ storedPrefixes m s ↔ piece.1 ≠ [] ∧ piece.1 <+: s ∧ Keyed.get m piece.1 = some piece.2 := by
  have hmem : ∀ t, t ∈ (properPrefixes s ++ [s]).reverse.filter (· ≠ []) ↔ t ≠ [] ∧ t <+: s := by
    intro t
    simp only [List.mem_filter, List.mem_reverse, List.mem_append, List.mem_singleton,
      mem_properPrefixes, decide_eq_true_eq]
    constructor
    · rintro ⟨⟨-, hstart, -⟩ | rfl, hne⟩
      · exact ⟨hne, hstart⟩
      · exact ⟨hne, List.prefix_refl _⟩
    · rintro ⟨hne, hstart⟩
      exact ⟨or_iff_not_imp_right.mpr fun hts => ⟨hne, hstart, hts⟩, hne⟩
  simp only [storedPrefixes, List.mem_filterMap, hmem, Option.map_eq_some_iff]
  constructor
  · rintro ⟨t, ⟨hne, hstart⟩, score, hget, rfl⟩
    exact ⟨hne, hstart, hget⟩
  · rintro ⟨hne, hstart, hget⟩
    exact ⟨piece.1, ⟨hne, hstart⟩, piece.2, hget, rfl⟩

/-- Longest first. -/
theorem storedPrefixes_pairwise (m : List (Text × Option K)) (s : Text) :
    (storedPrefixes m s).Pairwise fun a b => b.1 <+: a.1 := by
  have hprefixes : (properPrefixes s ++ [s]).Pairwise fun a b => a <+: b := by
    rw [List.pairwise_append]
    refine ⟨?_, List.pairwise_singleton _ _, fun a ha b hb => ?_⟩
    · apply List.pairwise_map.mpr
      refine (List.pairwise_lt_range' 1 Nat.one_pos).imp fun {i j} hij => ?_
      exact List.take_prefix_take_left (Nat.le_of_lt hij)
    · obtain rfl := List.mem_singleton.mp hb
      exact (mem_properPrefixes.mp ha).2.1
  apply List.Pairwise.filterMap _ _ ((List.pairwise_reverse.mpr hprefixes).filter _)
  intro a b hab x hx y hy
  obtain ⟨-, -, rfl⟩ := Option.map_eq_some_iff.mp hx
  obtain ⟨-, -, rfl⟩ := Option.map_eq_some_iff.mp hy
  exact hab

theorem length_storedPrefixes (hs : (Keyed.get m s).isSome) (hne : s ≠ []) :
    (storedPrefixes m s).length + 1 = rowCount m s := by
  have hall : (properPrefixes s ++ [s]).reverse.filter (· ≠ []) = (properPrefixes s ++ [s]).reverse := by
    apply List.filter_eq_self.mpr
    intro t ht
    rw [decide_eq_true_iff]
    rw [List.mem_reverse, List.mem_append, List.mem_singleton] at ht
    rcases ht with ht | rfl
    · exact (mem_properPrefixes.mp ht).1
    · exact hne
  rw [storedPrefixes, hall, List.length_filterMap_eq_countP, List.countP_reverse,
    List.countP_append, rowCount]
  simp only [Option.isSome_map, List.countP_singleton, hs]
  simp
  omega

/-- The row of a prefix that is a suffix. -/
def rowOf (m : List (Text × Option K)) (l : List Text) (piece : Text × Option K) : Row :=
  ⟨piece.1.length, ((vocab.idOf piece.1).map asI32).getD (-1), quantized isFinite scaled piece.2,
    start (size m) l piece.1⟩

/-- The rows of a suffix. -/
def block (m : List (Text × Option K)) (l : List Text) (s : Text) : List Row :=
  (storedPrefixes m s).map (rowOf isFinite scaled vocab m l) ++ [sentinel]

theorem Suffixes.length_block (h : Suffixes m l) (hs : s ∈ l) :
    (block isFinite scaled vocab m l s).length = size m s := by
  rw [block, List.length_append, List.length_map, size]
  split
  · rename_i hnil
    subst hnil
    rfl
  · rename_i hne
    exact length_storedPrefixes (((h.mem s).mp hs).resolve_left hne) hne

variable {isFinite scaled vocab} in
theorem Numbered.suffixRows (h : Numbered m l n) (hl : Suffixes m l) (s : Text) :
    suffixRows isFinite scaled vocab m n.suffixToId s = .ok (block isFinite scaled vocab m l s) := by
  have hrows : (storedPrefixes m s).mapM (pieceRow isFinite scaled vocab n.suffixToId) =
      .ok ((storedPrefixes m s).map (rowOf isFinite scaled vocab m l)) := by
    apply Guarded.mapM_of_forall
    intro piece hpiece
    obtain ⟨-, -, hget⟩ := mem_storedPrefixes.mp hpiece
    have hmem : piece.1 ∈ l := (hl.mem piece.1).mpr (.inr (by rw [hget]; rfl))
    simp only [pieceRow, h.ids, hmem, if_true, rowOf]
  rw [GgufPlamo2Tokenizer.suffixRows, hrows]
  rfl

/-- The table is laid out as it was counted: no expectation of the construction fails. -/
theorem Suffixes.buildTable (h : Suffixes m (sortedSuffixes m)) :
    buildTable isFinite scaled vocab m = .error .overflow ∨
      ∃ n, buildTable isFinite scaled vocab m =
          .ok (n, (sortedSuffixes m).flatMap (block isFinite scaled vocab m (sortedSuffixes m))) ∧
        Numbered m (sortedSuffixes m) n := by
  unfold GgufPlamo2Tokenizer.buildTable
  rcases h.number with hover | ⟨n, hok, hn⟩
  · exact .inl (by simp only [hover]; rfl)
  · refine .inr ⟨n, ?_, hn⟩
    have hblocks : (sortedSuffixes m).mapM
        (GgufPlamo2Tokenizer.suffixRows isFinite scaled vocab m n.suffixToId) =
          .ok ((sortedSuffixes m).map (block isFinite scaled vocab m (sortedSuffixes m))) :=
      Guarded.mapM_of_forall fun s _ => hn.suffixRows h s
    have hlength : ((sortedSuffixes m).flatMap
        (block isFinite scaled vocab m (sortedSuffixes m))).length = n.numPieces := by
      rw [length_flatMap fun s hs => h.length_block isFinite scaled vocab hs, hn.total]
    rw [List.flatMap_def] at hlength ⊢
    dsimp only
    rw [hok]
    dsimp only [bind, Except.bind]
    rw [hblocks]
    exact if_pos hlength

end Layout

end Frink.Tokenizer.GgufPlamo2Tokenizer
