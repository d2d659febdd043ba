import Frink.Tokenizer.MergeQueue

/-! # The SentencePiece tokenizer

A run of text becomes symbols, one for each character the vocabulary has and one for each byte
of the others, and the merge queue joins them into pieces.
-/

namespace Frink.Tokenizer
open Decode

variable {K : Type} [LinearOrder K]

structure GgufSpmTokenizer (K : Type) where
  vocab : ScoredVocab K
  addSpacePrefix : Bool

/-- The ids of the pieces that the queue leaves of the symbols, `fuel` bounding the loops. -/
def encodeSymbols (vocab : ScoredVocab K) (symbols : List Text) (fuel : ℕ) : Option (List ℕ) :=
  if h : symbols.length = 0 then some []
  else
    (Symbols.drain vocab fuel (.new vocab symbols)).bind fun s =>
      s.collect vocab fuel (some ⟨0, Nat.pos_of_ne_zero h⟩)

theorem encodeSymbols_stable (vocab : ScoredVocab K) (symbols : List Text) :
    Exec.Stable fun fuel => encodeSymbols vocab symbols fuel := by
  unfold encodeSymbols
  split
  · exact Exec.stable_const _
  · exact (Symbols.drain_stable vocab _).option_bind fun s => Symbols.collect_stable vocab s _

/-- The queue ends with what the greedy procedure leaves. -/
theorem encodeSymbols_returns (vocab : ScoredVocab K) (symbols : List Text) :
    Exec.Returns (fun fuel => encodeSymbols vocab symbols fuel)
      ((Greedy.merge (priority vocab) (· ++ ·) symbols).map fun piece =>
        (vocab.idOf piece).getD 0) := by
  unfold encodeSymbols
  split
  · rename_i hempty
    obtain rfl := List.length_eq_zero_iff.mp hempty
    exact ⟨0, rfl⟩
  · rename_i hne
    obtain ⟨hqueued, htexts, hheap⟩ := Symbols.new_spec vocab symbols
    obtain ⟨s, chain, hdrain, hlisted, hhead, hsteps, hstuck⟩ :=
      hqueued.drain (Nat.lt_succ_self _)
    rw [htexts] at hsteps
    rw [Greedy.merge_eq hsteps hstuck, List.map_map]
    have hfirst : chain.head? = some ⟨0, Nat.pos_of_ne_zero hne⟩ := by
      have hlt : 0 < (List.finRange symbols.length).length := by
        rw [List.length_finRange]
        exact Nat.pos_of_ne_zero hne
      rw [hhead, List.head?_eq_getElem?, List.getElem?_eq_getElem hlt, List.getElem_finRange]
      rfl
    apply (Exec.returns_option_bind_iff (Symbols.drain_stable vocab _)
      fun s => Symbols.collect_stable vocab s _).mpr
    refine ⟨s, ⟨_, hdrain⟩, chain.length + 1, ?_⟩
    rw [← hfirst]
    exact hlisted.collect

/-- Every merge makes a vocabulary entry, and keeps the text. -/
theorem merge_known {vocab : ScoredVocab K} {symbols : List Text}
    (h : ∀ piece ∈ symbols, (vocab.idOf piece).isSome) :
    (∀ piece ∈ Greedy.merge (priority vocab) (· ++ ·) symbols, (vocab.idOf piece).isSome) ∧
      (Greedy.merge (priority vocab) (· ++ ·) symbols).flatten = symbols.flatten := by
  refine ⟨Greedy.merge_forall ?_ h, Greedy.flatten_merge⟩
  rintro x y k hp - -
  rw [← ScoredVocab.lookup_isSome_iff]
  obtain ⟨found, hfound, -⟩ := Option.map_eq_some_iff.mp hp
  exact Option.isSome_iff_exists.mpr ⟨found, hfound⟩

namespace GgufSpmTokenizer

variable (t : GgufSpmTokenizer K) (text : Text)

def normalized : Text :=
  if t.addSpacePrefix then SPM_SPACE :: escapeSpaces text else escapeSpaces text

/-- A character that has no entry is spelled in byte tokens. -/
def initialSymbols : List Text :=
  (t.normalized text).flatMap fun ch =>
    if (t.vocab.idOf [ch]).isSome then [[ch]] else (String.utf8EncodeChar ch).map byteToken

def encodeNormalRun (fuel : ℕ) : Option (List ℕ) :=
  encodeSymbols t.vocab (t.initialSymbols text) fuel

/-- What the naive procedure leaves: as long as two neighbours are a vocabulary entry together,
those are joined whose entry scores highest, the leftmost of several. -/
def naivePieces : List Text := Greedy.merge (priority t.vocab) (· ++ ·) (t.initialSymbols text)

omit [LinearOrder K] in
theorem initialSymbols_known {t : GgufSpmTokenizer K} (text : Text)
    (h : ∀ b, (t.vocab.idOf (byteToken b)).isSome) :
    ∀ piece ∈ t.initialSymbols text, (t.vocab.idOf piece).isSome := by
  intro piece hpiece
  obtain ⟨ch, -, hch⟩ := List.mem_flatMap.mp hpiece
  split at hch
  · rename_i hknown
    rwa [List.mem_singleton.mp hch]
  · obtain ⟨b, -, rfl⟩ := List.mem_map.mp hch
    exact h b

/-- The merge queue is the naive procedure, and with all byte tokens it knows every piece. -/
theorem encodeNormalRun_eq (t : GgufSpmTokenizer K) (text : Text) :
    (∀ ids, Exec.Returns (fun fuel => t.encodeNormalRun text fuel) ids ↔
      ids = (t.naivePieces text).map fun piece => (t.vocab.idOf piece).getD 0) ∧
    ((∀ b, (t.vocab.idOf (byteToken b)).isSome) →
      (∀ piece ∈ t.naivePieces text, (t.vocab.idOf piece).isSome) ∧
        ∀ ids, Exec.Returns (fun fuel => t.encodeNormalRun text fuel) ids →
          ids.map t.vocab.token = (t.naivePieces text).map some ∧
            (ids.filterMap t.vocab.token).flatten = (t.initialSymbols text).flatten) := by
  have hreturns : ∀ ids, Exec.Returns (fun fuel => t.encodeNormalRun text fuel) ids ↔
      ids = (t.naivePieces text).map fun piece => (t.vocab.idOf piece).getD 0 := by
    intro ids
    have hrun := encodeSymbols_returns t.vocab (t.initialSymbols text)
    constructor
    · intro h
      exact h.unique (encodeSymbols_stable t.vocab (t.initialSymbols text)) hrun
    · rintro rfl
      exact hrun
  refine ⟨hreturns, fun hbytes => ?_⟩
  obtain ⟨hknown, hflat⟩ := merge_known (initialSymbols_known text hbytes)
  refine ⟨hknown, fun ids hids => ?_⟩
  rw [(hreturns ids).mp hids]
  have hmap : ((t.naivePieces text).map fun piece => (t.vocab.idOf piece).getD 0).map
      t.vocab.token = (t.naivePieces text).map some := by
    rw [List.map_map]
    apply List.map_congr_left
    intro piece hpiece
    obtain ⟨id, hid⟩ := Option.isSome_iff_exists.mp (hknown piece hpiece)
    rw [Function.comp_apply, hid]
    exact getElem_of_tokenToId hid
  refine ⟨hmap, ?_⟩
  have hfilter : ∀ ids : List ℕ, ids.filterMap t.vocab.token =
      (ids.map t.vocab.token).filterMap id := by
    intro ids
    rw [List.filterMap_map]
    rfl
  rw [hfilter, hmap, ← hflat, List.filterMap_map]
  simp [naivePieces]

section Witness

/-- All byte tokens, two letters and the two of them together. -/
def letters : ScoredVocab ℕ where
  idToToken := (List.range 256).map (fun b => byteToken (.ofNat b)) ++ [['a'], ['b'], ['a', 'b']]
  scores := List.range 259
  nonempty := by simp
  covered := by simp

theorem letters_bytes (b : UInt8) : (letters.idOf (byteToken b)).isSome := by
  apply tokenToId_isSome_iff.mpr
  apply List.mem_append_left
  exact List.mem_map.mpr ⟨b.toNat, List.mem_range.mpr b.toNat_lt, by rw [UInt8.ofNat_toNat]⟩

theorem encodeNormalRun_eq_letters : ∃ ids,
    Exec.Returns (fun fuel => (GgufSpmTokenizer.mk letters false).encodeNormalRun ['a', 'b', 'a'] fuel)
      ids ∧ ids.map letters.token = [some ['a', 'b'], some ['a']] := by
  obtain ⟨hreturns, hknown⟩ := encodeNormalRun_eq ⟨letters, false⟩ ['a', 'b', 'a']
  have hrun := (hreturns _).mpr rfl
  refine ⟨_, hrun, ?_⟩
  rw [((hknown letters_bytes).2 _ hrun).1]
  decide +kernel

end Witness

end GgufSpmTokenizer

end Frink.Tokenizer
