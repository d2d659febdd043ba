import Mathlib
import Frink.Library.BestPath
import Frink.Tokenizer.Vocab
import Frink.Decode.Text

/-! # The Unigram tokenizer

A run of text is normalized and cut into vocabulary pieces and single unknown characters, so that
the scores of the parts sum to the most there is. Positions between characters are visited from the
front, and the ids are read off on the way back.
-/

namespace Frink.Tokenizer

local instance Segment.ten : Nat.AtLeastTwo 10 := inferInstance

open BestPath Decode

variable {K : Type} [CommRing K] [LinearOrder K]

/-- The lowest score; there is one. -/
def ScoredVocab.minScore (vocab : ScoredVocab K) : K := vocab.scores.min?.getD 0

structure GgufUnigramTokenizer (K : Type) where

  vocab : ScoredVocab K
  unkId : ℕ
  maxPieceChars : ℕ
  unknownTokenScore : K

namespace GgufUnigramTokenizer

def fromGguf (vocab : ScoredVocab K) (unknownTokenId : Option ℕ) : GgufUnigramTokenizer K :=
  ⟨vocab, unknownTokenId.getD 0, max ((vocab.idToToken.map List.length).max?.getD 1) 1,
    vocab.minScore - 10⟩

/-- Runs of whitespace become one space, and every word starts with one. -/
def normalize (text : Text) : Text :=
  SPM_SPACE :: escapeSpaces (List.intercalate [' '] (Tool.splitWhitespace text))

variable (t : GgufUnigramTokenizer K)

/-- The ways on from a position, as they are tried: pieces by length, and then one unknown. -/
def candidates (chars : Text) (i : ℕ) : List (Edge ℕ K) :=
  ((List.range' 1 (min t.maxPieceChars (chars.length - i))).filterMap fun len =>
    (t.vocab.lookup ((chars.drop i).take len)).map fun (id, score) => ⟨i + len, id, score⟩) ++
      [⟨i + 1, t.unkId, t.unknownTokenScore⟩]

/-- Only the start has been reached. -/
def unreached : ℕ → Cell ℕ K := fun j => ⟨0, 0, if j = 0 then some 0 else none⟩

/-- The ids of a run; none if the way back did not end. -/
def encodeNormalRun (text : Text) : Option (List ℕ) :=
  let chars := normalize text
  let n := chars.length
  trace (search (t.candidates chars) unreached n) n n []

end GgufUnigramTokenizer

/-- A part of a segmentation. -/
inductive Segment (K : Type)
  | piece (text : Text) (id : ℕ) (score : K)
  | unknown (c : Char)

namespace Segment

variable (vocab : ScoredVocab K) (unkId : ℕ)

def text : Segment K → Text
  | piece text _ _ => text
  | unknown c => [c]

def id : Segment K → ℕ
  | piece _ id _ => id
  | unknown _ => unkId

/-- An unknown character costs ten more than the worst piece. -/
def score : Segment K → K
  | piece _ _ score => score
  | unknown _ => vocab.minScore - 10

/-- A piece is an entry of the vocabulary, with the id and the score its text has. -/
def Valid : Segment K → Prop
  | piece text id score => text ≠ [] ∧ vocab.lookup text = some (id, score)
  | unknown _ => True

end Segment

/-- A segmentation of a text. -/
structure Segments (vocab : ScoredVocab K) (text : Text) (parts : List (Segment K)) : Prop where

  valid : ∀ p ∈ parts, p.Valid vocab

  covers : (parts.map Segment.text).flatten = text

def totalScore (vocab : ScoredVocab K) (parts : List (Segment K)) : K :=
  (parts.map (Segment.score vocab)).sum

namespace GgufUnigramTokenizer

variable {vocab : ScoredVocab K} {unknownTokenId : Option ℕ} {chars : Text} {i j n : ℕ}

/-- No piece is longer than what is tried. -/
theorem length_le_maxPieceChars {text : Text} {id : ℕ} {score : K}
    (h : vocab.lookup text = some (id, score)) :
    text.length ≤ (fromGguf vocab unknownTokenId).maxPieceChars := by
  have hsome : (vocab.idOf text).isSome := by
    rw [← ScoredVocab.lookup_isSome_iff, h]
    rfl
  have hmem : text ∈ vocab.idToToken := tokenToId_isSome_iff.mp hsome
  have hlength : text.length ∈ vocab.idToToken.map List.length := List.mem_map_of_mem hmem
  dsimp only [fromGguf]
  cases hmax : (vocab.idToToken.map List.length).max? with
  | none =>
    rw [List.max?_eq_none_iff.mp hmax] at hlength
    cases hlength
  | some m =>
    obtain ⟨-, hle⟩ := List.max?_eq_some_iff.mp hmax
    exact Nat.le_trans (hle _ hlength) (Nat.le_max_left _ _)

omit [CommRing K] [LinearOrder K] in
theorem mem_candidates {t : GgufUnigramTokenizer K} {e : Edge ℕ K} :
    e ∈ t.candidates chars i ↔
      (∃ len id score, 1 ≤ len ∧ len ≤ min t.maxPieceChars (chars.length - i) ∧
        t.vocab.lookup ((chars.drop i).take len) = some (id, score) ∧ e = ⟨i + len, id, score⟩) ∨
      e = ⟨i + 1, t.unkId, t.unknownTokenScore⟩ := by
  simp only [candidates, List.mem_append, List.mem_filterMap, List.mem_range'_1,
    List.mem_singleton]
  constructor
  · rintro (⟨len, hlen, he⟩ | he)
    · obtain ⟨⟨id, score⟩, hlookup, rfl⟩ := Option.map_eq_some_iff.mp he
      exact .inl ⟨len, id, score, hlen.1, by omega, hlookup, rfl⟩
    · exact .inr he
  · rintro (⟨len, id, score, hpos, hle, hlookup, rfl⟩ | he)
    · refine .inl ⟨len, by omega, ?_⟩
      rw [hlookup]
      rfl
    · exact .inr he

omit [CommRing K] [LinearOrder K] in
theorem candidates_forward (t : GgufUnigramTokenizer K) (chars : Text) (i : ℕ) :
    ∀ e ∈ t.candidates chars i, i < e.target := by
  rintro e he
  rcases mem_candidates.mp he with ⟨len, id, score, hpos, -, -, rfl⟩ | rfl
  · exact Nat.lt_add_of_pos_right hpos
  · exact Nat.lt_succ_self i

/-- A path through the positions of a text cuts it into segments. -/
theorem segments_of_path {labels : List ℕ} {s : K}
    (h : Path ((fromGguf vocab unknownTokenId).candidates chars) j labels s)
    (hj : j ≤ chars.length) :
    ∃ segments, Segments vocab (chars.take j) segments ∧
      labels = segments.map (Segment.id (unknownTokenId.getD 0)) ∧
        s = totalScore vocab segments := by
  induction h with
  | nil => exact ⟨[], ⟨nofun, rfl⟩, rfl, rfl⟩
  | snoc hpath he ih =>
    rename_i i labels s e
    have hlt := candidates_forward _ _ _ _ he
    obtain ⟨segments, ⟨hvalid, hcovers⟩, rfl, rfl⟩ := ih (by omega)
    have hsnoc : ∀ segment : Segment K, segment.Valid vocab →
        chars.take i ++ segment.text = chars.take e.target →
        segment.id (unknownTokenId.getD 0) = e.label → segment.score vocab = e.weight →
        ∃ segments' : List (Segment K), Segments vocab (chars.take e.target) segments' ∧
          segments.map (Segment.id (unknownTokenId.getD 0)) ++ [e.label] =
            segments'.map (Segment.id (unknownTokenId.getD 0)) ∧
          totalScore vocab segments + e.weight = totalScore vocab segments' := by
      rintro segment hsegment htext hid hscore
      refine ⟨segments ++ [segment], ⟨?_, ?_⟩, ?_, ?_⟩
      · rintro p hp
        rcases List.mem_append.mp hp with hp | hp
        · exact hvalid p hp
        · exact List.mem_singleton.mp hp ▸ hsegment
      · simp [hcovers, htext]
      · simp [hid]
      · simp [totalScore, hscore]
    rcases mem_candidates.mp he with ⟨len, id, score, hpos, hlen, hlookup, rfl⟩ | rfl
    · apply hsnoc (.piece ((chars.drop i).take len) id score)
      · refine ⟨?_, hlookup⟩
        intro hnil
        have := congrArg List.length hnil
        simp only [List.length_take, List.length_drop, List.length_nil] at this
        omega
      · exact List.take_add.symm
      · rfl
      · rfl
    · have hi : i < chars.length := hj
      apply hsnoc (.unknown (chars.get ⟨i, hi⟩))
      · trivial
      · exact (List.take_succ_eq_append_getElem hi).symm
      · rfl
      · rfl

/-- Segments of a text are a path through its positions. -/
theorem path_of_segments {segments : List (Segment K)}
    (h : Segments vocab (chars.take j) segments) (hj : j ≤ chars.length) :
    Path ((fromGguf vocab unknownTokenId).candidates chars) j
      (segments.map (Segment.id (unknownTokenId.getD 0))) (totalScore vocab segments) := by
  induction segments using List.reverseRecOn generalizing j with
  | nil =>
    have hnil : chars.take j = [] := h.covers.symm
    have hzero : j = 0 := by
      have := congrArg List.length hnil
      simp only [List.length_take, List.length_nil] at this
      omega
    subst hzero
    exact .nil
  | append_singleton segments segment ih =>
    obtain ⟨hvalid, hcovers⟩ := h
    have hlast := hvalid segment (by simp)
    rw [List.map_append, List.flatten_append] at hcovers
    simp only [List.map_cons, List.map_nil, List.flatten_cons, List.flatten_nil,
      List.append_nil] at hcovers
    have hchars : (segments.map Segment.text).flatten ++ (segment.text ++ chars.drop j) = chars := by
      rw [← List.append_assoc, hcovers, List.take_append_drop]
    have hlength := congrArg List.length hcovers
    rw [List.length_append, List.length_take, Nat.min_eq_left hj] at hlength
    generalize hi : ((segments.map Segment.text).flatten).length = i at hlength
    have hcut : (segments.map Segment.text).flatten = chars.take i := by
      rw [← hchars, List.take_left' hi]
    have hrest : (chars.drop i).take segment.text.length = segment.text := by
      rw [← hchars, List.drop_left' hi, List.take_left]
    have hpath := ih ⟨fun p hp => hvalid p (List.mem_append_left _ hp), hcut⟩ (by omega)
    have hsum : totalScore vocab (segments ++ [segment]) =
        totalScore vocab segments + segment.score vocab := by
      simp [totalScore]
    rw [hsum, List.map_append, ← hlength]
    cases segment with
    | unknown c =>
      exact hpath.snoc (mem_candidates.mpr (.inr rfl))
    | piece text id score =>
      obtain ⟨hne, hlookup⟩ := hlast
      have hmax := @length_le_maxPieceChars K _ _ vocab unknownTokenId text id score hlookup
      have hpos := List.length_pos_iff.mpr hne
      dsimp only [Segment.text] at hlength hrest ⊢
      refine hpath.snoc (mem_candidates.mpr (.inl ⟨text.length, id, score, hpos, ?_, ?_, rfl⟩))
      · apply Nat.le_min.mpr
        exact ⟨hmax, by omega⟩
      · rw [hrest]
        exact hlookup

theorem visited_unreached (t : GgufUnigramTokenizer K) (chars : Text) :
    Visited (t.candidates chars) 0 (unreached : ℕ → Cell ℕ K) := by
  refine ⟨rfl, fun j s hj hs => ?_, fun i hi => absurd hi (Nat.not_lt_zero i)⟩
  unfold unreached at hs
  rw [if_neg (Nat.ne_of_gt hj)] at hs
  cases hs

omit [LinearOrder K] in
/-- Every position can be reached: one unknown character after the other. -/
theorem path_unknown (t : GgufUnigramTokenizer K) (chars : Text) (j : ℕ) :
    ∃ labels s, Path (t.candidates chars) j labels s := by
  induction j with
  | zero => exact ⟨[], 0, .nil⟩
  | succ j ih =>
    obtain ⟨labels, s, hpath⟩ := ih
    exact ⟨_, _, hpath.snoc (mem_candidates.mpr (.inr rfl))⟩

/-- The ids of a run are those of the best segmentation of the normalized text into vocabulary
pieces and single unknown characters; the way back always ends. -/
theorem encodeNormalRun_optimal [IsStrictOrderedRing K] (vocab : ScoredVocab K)
    (unknownTokenId : Option ℕ) (text : Text) :
    ∃ segments, (fromGguf vocab unknownTokenId).encodeNormalRun text =
        some (segments.map (Segment.id (unknownTokenId.getD 0))) ∧
      Segments vocab (normalize text) segments ∧
      ∀ others, Segments vocab (normalize text) others →
        totalScore vocab others ≤ totalScore vocab segments := by
  generalize hchars : normalize text = chars
  have hforward := candidates_forward (fromGguf vocab unknownTokenId) chars
  have hvisited := (visited_unreached (fromGguf vocab unknownTokenId) chars).search hforward
    chars.length
  have hbest : ∀ {labels s}, Path ((fromGguf vocab unknownTokenId).candidates chars) chars.length
      labels s → Covers (search ((fromGguf vocab unknownTokenId).candidates chars) unreached
        chars.length chars.length) s :=
    fun hpath => hvisited.best hforward hpath (Nat.le_refl _)
  obtain ⟨labels, s, hpath⟩ := path_unknown (fromGguf vocab unknownTokenId) chars chars.length
  obtain ⟨score, hscore, -⟩ := hbest hpath
  obtain ⟨ids, hids, htrace⟩ := hvisited.trace hscore
  obtain ⟨segments, hsegments, rfl, rfl⟩ := segments_of_path hids (Nat.le_refl _)
  rw [List.take_length] at hsegments
  refine ⟨segments, ?_, hsegments, fun others hothers => ?_⟩
  · unfold encodeNormalRun
    rw [hchars]
    dsimp only
    rw [htrace _ (Nat.le_refl _) [], List.append_nil]
  · rw [← @List.take_length _ chars] at hothers
    obtain ⟨t, ht, hle⟩ := hbest (path_of_segments hothers (Nat.le_refl _))
    obtain rfl := Option.some.inj (hscore.symm.trans ht)
    exact hle

/-- Two characters are one piece, although the second is also one. -/
theorem encodeNormalRun_optimal_two :
    ∃ segments : List (Segment ℤ),
      (fromGguf ⟨[['a'], ['▁', 'a'], ['▁']], [-3, -4, -2], nofun, rfl⟩ none).encodeNormalRun ['a'] =
        some (segments.map (Segment.id 0)) ∧
      (fromGguf ⟨[['a'], ['▁', 'a'], ['▁']], [-3, -4, -2], nofun, rfl⟩ none).encodeNormalRun ['a'] =
        some [1] := by
  obtain ⟨segments, hencode, -⟩ := encodeNormalRun_optimal
    (⟨[['a'], ['▁', 'a'], ['▁']], [-3, -4, -2], nofun, rfl⟩ : ScoredVocab ℤ) none ['a']
  exact ⟨segments, hencode, by decide⟩

end GgufUnigramTokenizer

end Frink.Tokenizer
