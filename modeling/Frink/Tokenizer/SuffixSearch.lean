import Frink.Library.BestPath
import Frink.Library.Overlap
import Frink.Tokenizer.SuffixTable

/-! # Searching the suffix table

The walk from one position to the one before it finds the longest suffix the text goes on with, so
that the rows tried are those of all pieces that fit. The path is the best segmentation, and decoding
gives the text back.
-/

namespace Frink.Tokenizer.GgufPlamo2Tokenizer

open Blocks Decode Gbnf LongestPrefix Segmentation

/-- A part of a segmentation. -/
inductive Part where
  | piece (text : Text) (id : ℕ) (score : ℤ)
  | unknown (c : Char)

namespace Part

def text : Part → Text
  | piece text _ _ => text
  | unknown c => [c]

def cost : Part → ℤ
  | piece _ _ score => -score
  | unknown _ => -UNKNOWN_SCORE

/-- A piece is one id, an unknown character the ids of its bytes. -/
def ids (bytes : UInt8 → ℕ) : Part → List ℕ
  | piece _ id _ => [id]
  | unknown c => (String.utf8EncodeChar c).map bytes

/-- A piece is a text that is no byte token, with the id and the rounded score the text has. -/
def Valid {K : Type} (isFinite : K → Bool) (scaled : K → Int32) (vocab : ScoredVocab K)
    (isByte : List Bool) : Part → Prop
  | piece text id score => Plain isByte vocab.idToToken.zipIdx text ∧
      ∃ v, vocab.lookup text = some (id, v) ∧ quantized isFinite scaled (some v) = score
  | unknown _ => True

end Part

variable {K : Type} {isFinite : K → Bool} {scaled : K → Int32} {vocab : ScoredVocab K}
  {isByte : List Bool} {m : List (Text × Option K)} {l : List Text} {n : Numbering}
  {t : GgufPlamo2Tokenizer K} {s p text rest : Text} {c : Char}

theorem Suffixes.nil_mem (h : Suffixes m l) : [] ∈ l := (h.mem []).mpr (.inl rfl)

/-- The empty suffix comes first. -/
theorem Suffixes.start_nil (h : Suffixes m l) : start (size m) l [] = 0 := by
  cases l with
  | nil => rfl
  | cons s l =>
    cases s with
    | nil => rfl
    | cons c rest => exact absurd (h.tail_first [] c rest l rfl) List.not_mem_nil

theorem Suffixes.start_pos (h : Suffixes m l) (hs : s ∈ l) (hne : s ≠ []) :
    0 < start (size m) l s := by
  apply Nat.pos_of_ne_zero
  intro hzero
  rw [← h.start_nil] at hzero
  exact hne (start_inj (size_pos m) hs h.nil_mem hzero)

/-- What a character before a suffix leads to. -/
theorem Numbered.link (h : Numbered m l n) (hs : s ∈ l) (c : Char) :
    Keyed.get n.toSuffixId (pieceCode c (start (size m) l s)) =
      if c :: s ∈ l then some (start (size m) l (c :: s)) else none := by
  split
  · rename_i hmem
    exact (h.links _ _).mpr ⟨c, s, hmem, rfl, rfl⟩
  · rename_i hmem
    cases hget : Keyed.get n.toSuffixId (pieceCode c (start (size m) l s)) with
    | none => rfl
    | some k =>
      obtain ⟨d, rest, hd, hcode, -⟩ := (h.links _ k).mp hget
      have hrest := h.closed d rest hd
      obtain ⟨rfl, heq⟩ := pieceCode_inj (h.start_lt hs) (h.start_lt hrest) hcode
      obtain rfl := start_inj (size_pos m) hs hrest heq
      exact absurd hd hmem

/-- Every text that has a score has one above that of unknown characters. -/
def Above (isFinite : K → Bool) (scaled : K → Int32) (m : List (Text × Option K)) : Prop :=
  ∀ s score, Keyed.get m s = some (some score) →
    UNKNOWN_SCORE < quantized isFinite scaled (some score)

theorem Above.ne_unknown (h : Above isFinite scaled m) {piece : Text × Option K}
    (hget : Keyed.get m piece.1 = some piece.2) :
    quantized isFinite scaled piece.2 ≠ UNKNOWN_SCORE := by
  obtain ⟨s, score⟩ := piece
  cases score with
  | none =>
    rw [quantized]
    decide
  | some score => exact ne_of_gt (h s score hget)

section Follow

variable (hl : Suffixes m l) (hn : Numbered m l n) (habove : Above isFinite scaled m)
include hl hn habove

/-- Going down the rows of the longest suffix, the first with a link is the longest one before
which the character stands; the sentinel stands for the empty one. -/
theorem follow_rows (hp : Longest (· ∈ l) text p) (more : List Row)
    (pre : List (Text × Option K)) (k : ℕ)
    (hpre : ∀ x ∈ pre, x.1 <+: p ∧ Keyed.get m x.1 = some x.2)
    (hsorted : pre.Pairwise fun a b => b.1 <+: a.1)
    (hall : ∀ q ∈ l, q <+: p → c :: q ∈ l → q = [] ∨ ∃ x ∈ pre, x.1 = q) :
    ∃ q, Longest (· ∈ l) (c :: text) q ∧
      follow n.toSuffixId c (pre.map (rowOf isFinite scaled vocab m l) ++ sentinel :: more) k =
        start (size m) l q := by
  induction pre generalizing k with
  | nil =>
    have hlink := hn.link hl.nil_mem c
    rw [hl.start_nil] at hlink
    have hend : follow n.toSuffixId c (sentinel :: more) k =
        (if [c] ∈ l then some (start (size m) l [c]) else none).getD 0 := by
      rw [follow, if_pos (.inr rfl), ← hlink]
      rfl
    rw [List.map_nil, List.nil_append, hend]
    have honly : ∀ q ∈ l, q <+: p → c :: q ∈ l → q = [] := by
      intro q hq hqp hcq
      exact (hall q hq hqp hcq).resolve_right (by simp)
    by_cases hc : [c] ∈ l
    · refine ⟨[c], hp.extend hn.closed List.nil_prefix hc fun q hq hqp hcq => ?_, by simp [hc]⟩
      rw [honly q hq hqp hcq]
    · refine ⟨[], hp.restart hn.closed hl.nil_mem fun q hq hqp hcq => ?_, by
        simp [hc, hl.start_nil]⟩
      obtain rfl := honly q hq hqp hcq
      exact hc hcq
  | cons x pre ih =>
    obtain ⟨⟨hxp, hget⟩, hpre⟩ := List.forall_mem_cons.mp hpre
    obtain ⟨hx, hsorted⟩ := List.pairwise_cons.mp hsorted
    have hxl : x.1 ∈ l := (hl.mem x.1).mpr (.inr (by rw [hget]; rfl))
    have hid : (Keyed.get n.toSuffixId
        (pieceCode c (rowOf isFinite scaled vocab m l x).pieceId)).getD 0 =
          (if c :: x.1 ∈ l then some (start (size m) l (c :: x.1)) else none).getD 0 :=
      congrArg (·.getD 0) (hn.link hxl c)
    rw [List.map_cons, List.cons_append, follow]
    by_cases hc : c :: x.1 ∈ l
    · have hpos := hl.start_pos hc (List.cons_ne_nil c x.1)
      rw [if_pos hc, Option.getD_some] at hid
      rw [if_pos (.inl (hid ▸ hpos)), hid]
      refine ⟨c :: x.1, hp.extend hn.closed hxp hc fun q hq hqp hcq => ?_, rfl⟩
      rcases hall q hq hqp hcq with rfl | ⟨y, hy, rfl⟩
      · exact List.nil_prefix
      · rcases List.mem_cons.mp hy with rfl | hy
        · exact List.prefix_refl _
        · exact hx y hy
    · have hscore : (rowOf isFinite scaled vocab m l x).score ≠ UNKNOWN_SCORE :=
        habove.ne_unknown hget
      rw [if_neg hc, Option.getD_none] at hid
      rw [if_neg (by simp [hid, hscore]), hid]
      apply ih 0 hpre hsorted
      intro q hq hqp hcq
      rcases hall q hq hqp hcq with rfl | ⟨y, hy, rfl⟩
      · exact .inl rfl
      · rcases List.mem_cons.mp hy with rfl | hy
        · exact absurd hcq hc
        · exact .inr ⟨y, hy, rfl⟩

omit hn habove in
/-- What stands in the table from the start of a suffix on. -/
theorem drop_table (isFinite : K → Bool) (scaled : K → Int32) (vocab : ScoredVocab K) (hp : p ∈ l) : ∃ more,
    (l.flatMap (block isFinite scaled vocab m l)).drop (start (size m) l p) =
      (storedPrefixes m p).map (rowOf isFinite scaled vocab m l) ++ sentinel :: more := by
  obtain ⟨more, hmore⟩ := drop_start (fun s hs => hl.length_block isFinite scaled vocab hs) hp
  exact ⟨more, by rw [← hmore, block, List.append_assoc]; rfl⟩

/-- One step of the walk leads to the longest suffix again. -/
theorem follow_longest (vocab : ScoredVocab K) (c : Char) (hp : Longest (· ∈ l) text p) : ∃ q, Longest (· ∈ l) (c :: text) q ∧
    follow n.toSuffixId c
      ((l.flatMap (block isFinite scaled vocab m l)).drop (start (size m) l p))
      (start (size m) l p) = start (size m) l q := by
  obtain ⟨more, hmore⟩ := drop_table hl isFinite scaled vocab hp.stored
  rw [hmore]
  apply follow_rows hl hn habove hp more _ _ _ (storedPrefixes_pairwise m p)
  · intro q hq hqp hcq
    by_cases hnil : q = []
    · exact .inl hnil
    · obtain ⟨score, hget⟩ := Option.isSome_iff_exists.mp (((hl.mem q).mp hq).resolve_left hnil)
      exact .inr ⟨(q, score), mem_storedPrefixes.mpr ⟨hnil, hqp, hget⟩, rfl⟩
  · intro x hx
    obtain ⟨-, hxp, hget⟩ := mem_storedPrefixes.mp hx
    exact ⟨hxp, hget⟩

end Follow

/-- Parts of which every character is one, and of which none costs more. -/
structure Sized (valid : Part → Prop) : Prop where

  unknown : ∀ c, valid (.unknown c)

  text_ne : ∀ p, valid p → p.text ≠ []

  cost_le : ∀ p, valid p → p.cost ≤ -UNKNOWN_SCORE

  le_cost : ∀ p, valid p → -2 ^ 31 ≤ p.cost

section Bounds

variable {valid : Part → Prop} {parts : List Part}

theorem length_le_encode (text : Text) : text.length ≤ (encode text).length := by
  induction text with
  | nil => exact Nat.le_refl 0
  | cons c text ih =>
    have := c.utf8Size_pos
    simp
    omega

theorem cuts_unknown (h : Sized valid) (text : Text) :
    Cuts Part.text valid text (text.map .unknown) := by
  induction text with
  | nil => exact .nil
  | cons c text ih => exact ih.cons (h.unknown c)

theorem total_unknown (text : Text) :
    total Part.cost (text.map .unknown) = -UNKNOWN_SCORE * text.length := by
  induction text with
  | nil => rfl
  | cons c text ih =>
    rw [List.map_cons, total_cons, ih, List.length_cons, Part.cost]
    push_cast
    ring

/-- No segmentation costs less than if every character were the best piece. -/
theorem le_total (h : Sized valid) (hcuts : Cuts Part.text valid text parts) :
    -2 ^ 31 * (text.length : ℤ) ≤ total Part.cost parts := by
  induction parts generalizing text with
  | nil =>
    rw [← hcuts.covers]
    simp [total]
  | cons part parts ih =>
    obtain ⟨hpart, hrest, rfl⟩ := hcuts.uncons
    have hlength := List.length_pos_iff.mpr (h.text_ne part hpart)
    have hcost := h.le_cost part hpart
    have := ih hrest
    rw [total_cons, List.length_append]
    push_cast
    omega

theorem total_le (h : Sized valid) (hbest : Best Part.text valid Part.cost text parts) :
    total Part.cost parts ≤ -UNKNOWN_SCORE * text.length := by
  rw [← total_unknown]
  exact hbest.least _ (cuts_unknown h text)

end Bounds

section Relax

variable {valid : Part → Prop} {bytes : UInt8 → ℕ} {after : List Cell} {row : Row}
  {part : Part} {left : Text}

theorem emit_skip (bytes : UInt8 → ℕ) (front left : Text) (cells : List Cell) :
    emit bytes (front ++ left) cells front.length =
      emit bytes left (cells.drop front.length) 0 := by
  induction front generalizing cells with
  | nil => rfl
  | cons c front ih =>
    cases cells with
    | nil => cases left <;> rfl
    | cons cell cells => exact ih cells

/-- The cells of a text start with its best cost, and the path through them is a best
segmentation. -/
structure Known (valid : Part → Prop) (bytes : UInt8 → ℕ) (text : Text) (cells : List Cell)
    (parts : List Part) : Prop where

  best : Best Part.text valid Part.cost text parts

  head : ∃ cell after, cells = cell :: after ∧ cell.score = total Part.cost parts ∧
    0 ≤ cell.count ∧ cell.count ≤ (encode text).length

  emitted : emit bytes text cells 0 = parts.flatMap (Part.ids bytes)

/-- All positions are known. -/
def Solved (valid : Part → Prop) (bytes : UInt8 → ℕ) (text : Text) (cells : List Cell) : Prop :=
  ∀ front left, front ++ left = text →
    ∃ parts, Known valid bytes left (cells.drop front.length) parts

/-- A row that stands for a part the text starts with. -/
structure Fits (valid : Part → Prop) (bytes : UInt8 → ℕ) (c : Char) (rest : Text) (row : Row)
    (part : Part) (left : Text) : Prop where

  allowed : valid part

  whole : part.text ++ left = c :: rest

  length : row.pieceLength = part.text.length

  score : row.score = -part.cost

  ids : (if 0 ≤ row.tokenId then [row.tokenId.toNat] else (String.utf8EncodeChar c).map bytes) =
    part.ids bytes

  unknown : row.score = UNKNOWN_SCORE → 1 + utf8ExtraBytes c ≤ (encode part.text).length

/-- A cell that was entered by a part, with a best segmentation of what the part leaves. -/
structure Enters (valid : Part → Prop) (bytes : UInt8 → ℕ) (c : Char) (rest : Text)
    (after : List Cell) (cell : Cell) (part : Part) (left : Text) (parts : List Part) : Prop where

  allowed : valid part

  whole : part.text ++ left = c :: rest

  best : Best Part.text valid Part.cost left parts

  score : cell.score = part.cost + total Part.cost parts

  length : cell.length = part.text.length

  ids : (if 0 ≤ cell.id then [cell.id.toNat] else (String.utf8EncodeChar c).map bytes) =
    part.ids bytes

  count : 0 ≤ cell.count ∧ cell.count ≤ (encode (c :: rest)).length

  emitted : emit bytes left (after.drop (part.text.length - 1)) 0 =
    parts.flatMap (Part.ids bytes)

/-- Trying a row that fits stays in the cells and in range; the cell is then at most what the row
offers. -/
theorem relaxRow_spec (hsized : Sized valid) (hsolved : Solved valid bytes rest after)
    (hfits : Fits valid bytes c rest row part left) (hsize : (encode (c :: rest)).length < 2 ^ 31)
    (cell : Cell) :
    ∃ cell', relaxRow c after cell row = some cell' ∧
      (cell' = cell ∨ ∃ parts, Enters valid bytes c rest after cell' part left parts) ∧
      cell'.score ≤ cell.score ∧
      ∀ others, Cuts Part.text valid left others →
        cell'.score ≤ part.cost + total Part.cost others := by
  obtain ⟨d, front, hfront⟩ := List.exists_cons_of_ne_nil (hsized.text_ne part hfits.allowed)
  have hwhole := hfits.whole
  rw [hfront, List.cons_append, List.cons.injEq] at hwhole
  obtain ⟨rfl, hrest⟩ := hwhole
  obtain ⟨parts, hbest, ⟨next, more, hcells, hscore, hpos, hcount⟩, hemitted⟩ :=
    hsolved front left hrest
  have hlower := le_total hsized hbest.cuts
  have hupper := total_le hsized hbest
  have hcost := hsized.cost_le part hfits.allowed
  have hcost' := hsized.le_cost part hfits.allowed
  have hleft := length_le_encode left
  have hsum : (encode (d :: rest)).length = (encode part.text).length + (encode left).length := by
    rw [← hfits.whole, encode_append, List.length_append]
  have hpart : 0 < (encode part.text).length := by
    have := length_le_encode part.text
    rw [hfront, List.length_cons] at this
    rw [hfront]
    omega
  have hnext : (cell :: after)[row.pieceLength]? = some next := by
    rw [hfits.length, hfront, List.length_cons, List.getElem?_cons_succ, ← List.head?_drop, hcells]
    rfl
  have hs : next.score - row.score = part.cost + total Part.cost parts := by
    rw [hfits.score, hscore]
    ring
  have hrow : INVALID_SCORE < row.score := by
    rw [hfits.score]
    unfold UNKNOWN_SCORE at hcost
    unfold INVALID_SCORE
    omega
  have hrange : -2 ^ 63 ≤ next.score - row.score ∧ next.score - row.score < 2 ^ 63 := by
    rw [hs]
    unfold UNKNOWN_SCORE at hcost hupper
    omega
  have hextra : 0 ≤ utf8ExtraBytes d := by
    unfold utf8ExtraBytes
    split <;> split <;> split <;> omega
  have htry : relaxRow d after cell row =
      if next.score - row.score < cell.score then
        (checkedI32 (next.count + 1)).bind fun count =>
          (if row.score = UNKNOWN_SCORE then checkedI32 (count + utf8ExtraBytes d) else some count).map
            fun count => ⟨next.score - row.score, row.pieceLength, row.tokenId, count⟩
      else some cell := by
    unfold relaxRow
    rw [if_pos hrow, hnext]
    simp only [Option.bind_eq_bind, Option.bind_some, checkedI64, if_pos hrange]
    split
    · congr 1
      ext count : 1
      split
      · rw [Option.map_eq_bind]
        rfl
      · rfl
    · rfl
  rw [htry]
  by_cases hbetter : next.score - row.score < cell.score
  · have hone : checkedI32 (next.count + 1) = some (next.count + 1) := if_pos (by omega)
    have hcounted : ∃ count, (if row.score = UNKNOWN_SCORE then
        checkedI32 (next.count + 1 + utf8ExtraBytes d) else some (next.count + 1)) = some count ∧
        0 ≤ count ∧ count ≤ (encode (d :: rest)).length := by
      by_cases hunknown : row.score = UNKNOWN_SCORE
      · have := hfits.unknown hunknown
        rw [if_pos hunknown, checkedI32, if_pos (by omega)]
        exact ⟨_, rfl, by omega, by omega⟩
      · rw [if_neg hunknown]
        exact ⟨_, rfl, by omega, by omega⟩
    obtain ⟨count, hok, hnonneg, hle⟩ := hcounted
    rw [if_pos hbetter, hone, Option.bind_some, hok]
    refine ⟨_, rfl, .inr ⟨parts, hfits.allowed, hfits.whole, hbest, hs, hfits.length, hfits.ids,
      ⟨hnonneg, hle⟩, ?_⟩, ?_, fun others hothers => ?_⟩
    · rw [hfront, List.length_cons, Nat.add_sub_cancel]
      exact hemitted
    · exact le_of_lt hbetter
    · have := hbest.least others hothers
      dsimp only
      omega
  · rw [if_neg hbetter]
    refine ⟨cell, rfl, .inl rfl, le_refl _, fun others hothers => ?_⟩
    have := hbest.least others hothers
    omega

theorem utf8ExtraBytes_eq (c : Char) : 1 + utf8ExtraBytes c = c.utf8Size := by
  rw [utf8Size_eq, utf8ExtraBytes]
  split_ifs <;> omega

theorem fits_sentinel (hsized : Sized valid) (bytes : UInt8 → ℕ) (c : Char) (rest : Text) :
    Fits valid bytes c rest sentinel (.unknown c) rest where
  allowed := hsized.unknown c
  whole := rfl
  length := rfl
  score := (neg_neg UNKNOWN_SCORE).symm
  ids := rfl
  unknown _ := by
    rw [utf8ExtraBytes_eq]
    simp [Part.text]

/-- Trying the rows of a suffix down to the sentinel. -/
theorem relax_rows (hsized : Sized valid) (hsolved : Solved valid bytes rest after)
    (hsize : (encode (c :: rest)).length < 2 ^ 31) (more rows : List Row)
    (hrows : ∀ row ∈ rows, row.score ≠ UNKNOWN_SCORE ∧
      (¬ INVALID_SCORE < row.score ∨ ∃ part left, Fits valid bytes c rest row part left))
    (cell : Cell) :
    ∃ cell', relax c after (rows ++ sentinel :: more) cell = some cell' ∧
      (cell' = cell ∨ ∃ part left parts, Enters valid bytes c rest after cell' part left parts) ∧
      cell'.score ≤ cell.score ∧
      (∀ row ∈ rows, INVALID_SCORE < row.score → ∀ part left, Fits valid bytes c rest row part left →
        ∀ others, Cuts Part.text valid left others →
          cell'.score ≤ part.cost + total Part.cost others) ∧
      ∀ others, Cuts Part.text valid rest others →
        cell'.score ≤ -UNKNOWN_SCORE + total Part.cost others := by
  induction rows generalizing cell with
  | nil =>
    obtain ⟨cell', htry, henters, hle, hleast⟩ :=
      relaxRow_spec hsized hsolved (fits_sentinel hsized bytes c rest) hsize cell
    refine ⟨cell', ?_, ?_, hle, nofun, hleast⟩
    · rw [List.nil_append, relax, htry]
      rfl
    · exact henters.imp id fun ⟨parts, h⟩ => ⟨_, _, parts, h⟩
  | cons row rows ih =>
    obtain ⟨⟨hunknown, hrow⟩, hrows⟩ := List.forall_mem_cons.mp hrows
    have hstep : ∃ next, relaxRow c after cell row = some next ∧
        (next = cell ∨ ∃ part left parts, Enters valid bytes c rest after next part left parts) ∧
        next.score ≤ cell.score ∧
        (INVALID_SCORE < row.score → ∀ part left, Fits valid bytes c rest row part left →
          ∀ others, Cuts Part.text valid left others →
            next.score ≤ part.cost + total Part.cost others) := by
      rcases hrow with hinvalid | ⟨part, left, hfits⟩
      · exact ⟨cell, by rw [relaxRow, if_neg hinvalid], .inl rfl, le_refl _,
          fun h => absurd h hinvalid⟩
      · obtain ⟨next, htry, henters, hle, -⟩ :=
          relaxRow_spec hsized hsolved hfits hsize cell
        refine ⟨next, htry, henters.imp id fun ⟨parts, h⟩ => ⟨_, _, parts, h⟩, hle, ?_⟩
        intro _ part left hfits
        obtain ⟨next', htry', -, -, hleast⟩ :=
          relaxRow_spec hsized hsolved hfits hsize cell
        obtain rfl := Option.some.inj (htry.symm.trans htry')
        exact hleast
    obtain ⟨next, htry, henters, hle, hleast⟩ := hstep
    obtain ⟨cell', hrelax, henters', hle', hleast', hlast⟩ := ih hrows next
    refine ⟨cell', ?_, ?_, le_trans hle' hle, ?_, hlast⟩
    · rw [List.cons_append, relax, htry]
      simp only [Option.bind_eq_bind, Option.bind_some, if_neg hunknown]
      exact hrelax
    · rcases henters' with rfl | henters'
      · exact henters
      · exact .inr henters'
    · rintro r hr hvalid part left hfits others hothers
      rcases List.mem_cons.mp hr with rfl | hr
      · exact le_trans hle' (hleast hvalid part left hfits others hothers)
      · exact hleast' r hr hvalid part left hfits others hothers

/-- A position whose rows are those of all parts that fit is solved. -/
theorem Solved.cons (hsized : Sized valid) (hsolved : Solved valid bytes rest after)
    (hsize : (encode (c :: rest)).length < 2 ^ 31) (more rows : List Row)
    (hrows : ∀ row ∈ rows, row.score ≠ UNKNOWN_SCORE ∧
      (¬ INVALID_SCORE < row.score ∨ ∃ part left, Fits valid bytes c rest row part left))
    (hcomplete : ∀ part left, valid part → part.text ++ left = c :: rest →
      part = .unknown c ∨ ∃ row ∈ rows, Fits valid bytes c rest row part left) :
    ∃ cell, relax c after (rows ++ sentinel :: more) ⟨2 ^ 60, 0, -1, 0⟩ = some cell ∧
      Solved valid bytes (c :: rest) (cell :: after) := by
  obtain ⟨cell, hrelax, henters, -, hleast, hlast⟩ :=
    relax_rows hsized hsolved hsize more rows hrows ⟨2 ^ 60, 0, -1, 0⟩
  refine ⟨cell, hrelax, fun front left hwhole => ?_⟩
  cases front with
  | cons d front =>
    rw [List.cons_append, List.cons.injEq] at hwhole
    exact hsolved front left hwhole.2
  | nil =>
    obtain rfl : left = c :: rest := hwhole
    rcases henters with rfl | ⟨part, left, parts, henters⟩
    · -- the sentinel is better than what the cell starts with
      exfalso
      have hupper := hlast _ (cuts_unknown hsized rest)
      have hlength := length_le_encode (c :: rest)
      rw [total_unknown] at hupper
      rw [List.length_cons] at hlength
      dsimp only at hupper
      unfold UNKNOWN_SCORE at hupper
      omega
    · obtain ⟨d, front, hfront⟩ := List.exists_cons_of_ne_nil (hsized.text_ne part henters.allowed)
      have hwhole := henters.whole
      rw [hfront, List.cons_append, List.cons.injEq] at hwhole
      obtain ⟨rfl, hrest⟩ := hwhole
      refine ⟨part :: parts, ?_, ⟨cell, after, rfl, ?_, henters.count⟩, ?_⟩
      · apply henters.best.cons henters.allowed (List.cons_ne_nil _ _) henters.whole
        intro q hq left' others hleft hothers
        rw [← henters.score]
        rcases hcomplete q left' hq hleft with rfl | ⟨row, hrow, hfits⟩
        · obtain rfl : left' = rest := (List.cons.inj hleft).2
          exact hlast others hothers
        · refine hleast row hrow ?_ q left' hfits others hothers
          rw [hfits.score]
          have := hsized.cost_le q hq
          unfold UNKNOWN_SCORE at this
          unfold INVALID_SCORE
          omega
      · rw [henters.score, total_cons]
      · have hskip : max cell.length 1 - 1 = front.length := by
          rw [henters.length, hfront, List.length_cons]
          omega
        have hemitted := henters.emitted
        rw [hfront, List.length_cons, Nat.add_sub_cancel] at hemitted
        rw [List.length_nil, List.drop_zero, emit, henters.ids, hskip, ← hrest, emit_skip,
          hemitted, List.flatMap_cons]

end Relax

section Search

variable {seen : List (Text × ℕ)} {scan : Scan K}

/-- Texts have scores above that of unknown characters, and their parts are sized. -/
theorem sized_valid (hne : ∀ text, Plain isByte vocab.idToToken.zipIdx text → text ≠ [])
    (hscore : ∀ text id v, Plain isByte vocab.idToToken.zipIdx text →
      vocab.lookup text = some (id, v) → UNKNOWN_SCORE < quantized isFinite scaled (some v)) :
    Sized (Part.Valid isFinite scaled vocab isByte) where
  unknown c := trivial
  text_ne p hp := by
    cases p with
    | unknown c => exact List.cons_ne_nil c []
    | piece text id score => exact hne text hp.1
  cost_le p hp := by
    cases p with
    | unknown c => exact le_refl _
    | piece text id score =>
      obtain ⟨hplain, v, hlookup, rfl⟩ := hp
      exact neg_le_neg (hscore text id v hplain hlookup).le
  le_cost p hp := by
    cases p with
    | unknown c =>
      rw [Part.cost]
      decide
    | piece text id score =>
      obtain ⟨-, v, -, rfl⟩ := hp
      have hlt : quantized isFinite scaled (some v) < 2 ^ 31 := by
        rw [quantized]
        split
        · exact Int32.toInt_lt _
        · decide
      dsimp only [Part.cost]
      omega

theorem asI32_of_lt {id : ℕ} (h : id < 2 ^ 31) : asI32 id = id := by
  unfold asI32
  rw [Int.bmod_eq_of_le] <;> omega

/-- The rows of the longest suffix are those of the pieces that fit. -/
theorem rows_fit (hscan : Scanned vocab isByte vocab.idToToken.zipIdx scan)
    (habove : Above isFinite scaled scan.suffixToScore) (hids : vocab.idToToken.length ≤ 2 ^ 31)
    (bytes : UInt8 → ℕ) (hp : p <+: c :: rest) {x : Text × Option K}
    (hx : x ∈ storedPrefixes scan.suffixToScore p) {v : K} (hv : x.2 = some v) :
    ∃ id left, vocab.lookup x.1 = some (id, v) ∧
      Fits (Part.Valid isFinite scaled vocab isByte) bytes c rest
        (rowOf isFinite scaled vocab scan.suffixToScore l x)
        (.piece x.1 id (quantized isFinite scaled (some v))) left := by
  obtain ⟨-, hxp, hget⟩ := mem_storedPrefixes.mp hx
  rw [hv] at hget
  obtain ⟨hplain, id, hlookup⟩ := hscan.scored x.1 v hget
  obtain ⟨left, hleft⟩ := hxp.trans hp
  refine ⟨id, left, hlookup, ⟨hplain, v, hlookup, rfl⟩, hleft, rfl, ?_, ?_, ?_⟩
  · simp [rowOf, hv, Part.cost]
  · have hidOf : vocab.idOf x.1 = some id := by
      rw [ScoredVocab.lookup] at hlookup
      obtain ⟨id', hid', hlookup⟩ := Option.bind_eq_some_iff.mp hlookup
      obtain ⟨score, -, hpair⟩ := Option.map_eq_some_iff.mp hlookup
      rw [hid', (Prod.mk.inj hpair).1]
    have hlt : id < vocab.idToToken.length :=
      (List.getElem?_eq_some_iff.mp (getElem_of_tokenToId hidOf)).1
    simp [rowOf, hidOf, asI32_of_lt (Nat.lt_of_lt_of_le hlt hids), Part.ids]
  · intro hunknown
    simp only [rowOf, hv] at hunknown
    exact absurd hunknown (ne_of_gt (habove x.1 v hget))

end Search

end Frink.Tokenizer.GgufPlamo2Tokenizer
