import Frink.Tokenizer.Bpe

/-! # Decoding what was encoded

The words of a text are its bytes in order, and merging keeps them. So the bytes come back exactly
when every piece that merging leaves is spelled in full.
-/

namespace Frink.Tokenizer
open Decode Gbnf

section Words

variable {text : Text} {cursor : ℕ} {found : List (Option (ℕ × ℕ))}

theorem take_drop_append {a b : ℕ} (h : a ≤ b) :
    (text.take b).drop a ++ text.drop b = text.drop a := by
  have hb : text.drop b = (text.drop a).drop (b - a) := by
    rw [List.drop_drop, Nat.add_sub_cancel' h]
  rw [List.drop_take, hb, List.take_append_drop]

/-- The chunks are the text from the cursor on. -/
theorem flatten_splitWithGaps (h : Ordered text cursor found) :
    (splitWithGaps text cursor found).flatten = text.drop cursor := by
  have hend : ∀ cursor,
      (if cursor < text.length then [text.drop cursor] else []).flatten = text.drop cursor := by
    intro cursor
    split
    · simp
    · rename_i hge
      rw [List.drop_eq_nil_of_le (Nat.le_of_not_lt hge)]
      rfl
  induction found generalizing cursor with
  | nil => exact hend cursor
  | cons m found ih =>
    cases m with
    | none => exact hend cursor
    | some m =>
      obtain ⟨start, stop⟩ := m
      obtain ⟨hstart, hstop, hlen, hrest⟩ := h
      have hgap : (if cursor < start then [(text.take start).drop cursor] else []).flatten =
          (text.take start).drop cursor := by
        split
        · simp
        · rw [List.drop_eq_nil_of_le (by rw [List.length_take]; omega)]
          rfl
      rw [splitWithGaps, List.flatten_append, List.flatten_cons, ih hrest, hgap,
        take_drop_append hstop, take_drop_append hstart]

end Words

/-- Spellings of which none is longer than it should be are right together only if each is. -/
theorem flatMap_eq_iff {α β : Type} {f g : α → List β} {l : List α}
    (h : ∀ x ∈ l, f x = g x ∨ (f x).length < (g x).length) :
    l.flatMap f = l.flatMap g ↔ ∀ x ∈ l, f x = g x := by
  have hle : ∀ l' : List α, (∀ x ∈ l', x ∈ l) → (l'.flatMap f).length ≤ (l'.flatMap g).length := by
    intro l' hsub
    induction l' with
    | nil => exact Nat.le_refl _
    | cons x l' ih =>
      have hrest := ih fun y hy => hsub y (List.mem_cons_of_mem _ hy)
      have hx : (f x).length ≤ (g x).length := by
        rcases h x (hsub x List.mem_cons_self) with hx | hx
        · rw [hx]
        · exact hx.le
      simp only [List.flatMap_cons, List.length_append]
      omega
  constructor
  · intro heq
    induction l with
    | nil => simp
    | cons x l ih =>
      rw [List.flatMap_cons, List.flatMap_cons] at heq
      have hx : f x = g x := by
        rcases h x List.mem_cons_self with hx | hx
        · exact hx
        · have hrest := hle l fun y hy => List.mem_cons_of_mem _ hy
          have hlen := congrArg List.length heq
          rw [List.length_append, List.length_append] at hlen
          omega
      rw [hx, List.append_cancel_left_eq] at heq
      have hrest := ih (fun y hy => h y (List.mem_cons_of_mem _ hy))
        (fun l' hsub => hle l' fun y hy => List.mem_cons_of_mem _ (hsub y hy)) heq
      simpa using ⟨hx, hrest⟩
  · intro heq
    rw [List.flatMap_def, List.flatMap_def, List.map_congr_left heq]

namespace GgufBpeTokenizer

variable (t : GgufBpeTokenizer)

/-- Every byte can be spelled, and nothing else is spelled like a byte. -/
def Based : Prop :=
  match t.style with
  | .gpt2 => ∀ b, [byteToUnicode b] ∈ t.idToToken
  | .spmWhitespace => (∀ b, byteToken b ∈ t.idToToken) ∧
      ∀ token ∈ t.idToToken, ∀ b, spmByteFallbackValue token = some b → token = byteToken b

/-- What merging is applied to. -/
def words (text : Text) : List Text :=
  match t.style with
  | .gpt2 => splitWithGaps text 0 (t.findIter text)
  | .spmWhitespace => newlineRuns (escapeSpaces text)

/-- What merging leaves of a word; a run of newlines that has an entry is left whole. -/
def wordPieces (word : Text) : List Text :=
  if t.style = .spmWhitespace ∧ word.head? = some '\n' ∧ (t.idOf word).isSome then [word]
  else Greedy.merge t.priority (· ++ ·) (t.letters word)

def pieces (text : Text) : List Text := (t.words text).flatMap t.wordPieces

/-- The bytes that a piece stands for. -/
def bytesOf (piece : Text) : List UInt8 :=
  match t.style with
  | .gpt2 => piece.filterMap unicodeToByte
  | .spmWhitespace => Gbnf.encode (unescapeSpaces piece)

/-- A piece that is spelled in full: by an entry that does not read as a byte, or in byte tokens
where no escaped space is in it. -/
def Faithful (piece : Text) : Prop :=
  match t.style with
  | .gpt2 => piece ∈ t.idToToken
  | .spmWhitespace =>
      if piece ∈ t.idToToken then spmByteFallbackValue piece = none else SPM_SPACE ∉ piece

variable {t} {text word piece : Text} {mode : SpecialTokens}

theorem encodeTextRun_eq (text : Text) :
    t.encodeTextRun text = (t.pieces text).flatMap t.pieceToIds := by
  have hword : ∀ word, ¬(t.style = .spmWhitespace ∧ word.head? = some '\n' ∧
      (t.idOf word).isSome) → t.encodeWord word = (t.wordPieces word).flatMap t.pieceToIds := by
    intro word h
    rw [wordPieces, if_neg h, encodeWord_eq]
  rw [encodeTextRun, pieces, words, List.flatMap_assoc]
  cases hstyle : t.style with
  | gpt2 =>
    apply List.flatMap_congr
    intro word hmem
    exact hword word (by simp [hstyle])
  | spmWhitespace =>
    apply List.flatMap_congr
    intro word hmem
    by_cases hnl : word.head? = some '\n'
    · rw [if_pos hnl]
      cases hid : t.idOf word with
      | some id => simp [wordPieces, hstyle, hnl, hid, pieceToIds]
      | none => exact hword word (by simp [hid])
    · rw [if_neg hnl]
      exact hword word (by simp [hnl])

theorem bytesOf_append (x y : Text) : t.bytesOf (x ++ y) = t.bytesOf x ++ t.bytesOf y := by
  unfold bytesOf
  cases t.style <;> simp

theorem bytesOf_flatten (l : List Text) : t.bytesOf l.flatten = l.flatMap t.bytesOf := by
  induction l with
  | nil =>
    unfold bytesOf
    cases t.style <;> rfl
  | cons x l ih => rw [List.flatten_cons, bytesOf_append, ih, List.flatMap_cons]

theorem flatMap_encode (l : List Text) : l.flatMap Gbnf.encode = Gbnf.encode l.flatten := by
  induction l with
  | nil => rfl
  | cons x l ih => rw [List.flatMap_cons, ih, List.flatten_cons, encode_append]

theorem flatten_letters_gpt2 (hstyle : t.style = .gpt2) (word : Text) :
    (t.letters word).flatten = (Gbnf.encode word).map byteToUnicode := by
  rw [letters, hstyle]
  dsimp only
  rw [← List.flatMap_def, ← List.map_eq_flatMap]

theorem flatten_letters_spm (hstyle : t.style = .spmWhitespace) (word : Text) :
    (t.letters word).flatten = word := by
  rw [letters, hstyle]
  dsimp only
  rw [← List.flatMap_def, List.flatMap_singleton']

/-- The pieces of a word stand for its bytes. -/
theorem bytesOf_wordPieces_gpt2 (hstyle : t.style = .gpt2) (word : Text) :
    (t.wordPieces word).flatMap t.bytesOf = Gbnf.encode word := by
  rw [wordPieces, if_neg (by simp [hstyle]), ← bytesOf_flatten, Greedy.flatten_merge,
    flatten_letters_gpt2 hstyle, bytesOf, hstyle]
  simp [List.filterMap_map]

theorem bytesOf_wordPieces_spm (hstyle : t.style = .spmWhitespace) (word : Text) :
    (t.wordPieces word).flatMap t.bytesOf = t.bytesOf word := by
  rw [wordPieces]
  split
  · simp
  · rw [← bytesOf_flatten, Greedy.flatten_merge, flatten_letters_spm hstyle]

/-- Every word of a text is part of it. -/
theorem flatten_words (hfound : Ordered text 0 (t.findIter text)) :
    (t.words text).flatten = if t.style = .gpt2 then text else escapeSpaces text := by
  rw [words]
  cases hstyle : t.style with
  | gpt2 => exact flatten_splitWithGaps hfound
  | spmWhitespace => exact List.flatten_splitBy _ _

/-- The pieces of a text stand for its bytes. -/
theorem bytesOf_pieces (hfound : Ordered text 0 (t.findIter text))
    (hspace : t.style = .spmWhitespace → SPM_SPACE ∉ text) :
    (t.pieces text).flatMap t.bytesOf = Gbnf.encode text := by
  rw [pieces, List.flatMap_assoc]
  cases hstyle : t.style with
  | gpt2 =>
    rw [List.flatMap_congr fun word _ => bytesOf_wordPieces_gpt2 hstyle word, flatMap_encode,
      flatten_words hfound, if_pos hstyle]
  | spmWhitespace =>
    rw [List.flatMap_congr fun word _ => bytesOf_wordPieces_spm hstyle word, ← bytesOf_flatten,
      flatten_words hfound, if_neg (by simp [hstyle]), bytesOf, hstyle]
    exact congrArg Gbnf.encode (unescapeSpaces_escapeSpaces (hspace hstyle))

theorem decodeBytes_append (ids ids' : List ℕ) :
    t.decodeBytes (ids ++ ids') = t.decodeBytes ids ++ t.decodeBytes ids' := by
  unfold decodeBytes
  cases t.style <;> simp

theorem decodeBytes_flatMap {α : Type} (f : α → List ℕ) (l : List α) :
    t.decodeBytes (l.flatMap f) = l.flatMap fun x => t.decodeBytes (f x) := by
  induction l with
  | nil =>
    unfold decodeBytes
    cases t.style <;> rfl
  | cons x l ih => rw [List.flatMap_cons, decodeBytes_append, ih, List.flatMap_cons]

theorem pieces_nil (hfound : Ordered [] 0 (t.findIter [])) : t.pieces [] = [] := by
  have hwords := flatten_words hfound
  have hempty : (t.words []).flatten = [] := by
    rw [hwords]
    split <;> rfl
  rw [pieces, List.flatMap_eq_nil_iff]
  intro word hword
  obtain rfl := List.flatten_eq_nil_iff.mp hempty word hword
  rw [wordPieces, if_neg (by simp), letters]
  cases t.style <;> rfl

/-- With nothing parsed, the pieces are decoded one by one. -/
theorem decodeBytes_encode_eq (hnone : ∀ id, .special id ∉ t.specialTokens.split text mode)
    (hfound : Ordered text 0 (t.findIter text)) :
    t.decodeBytes (t.encode text mode) =
      (t.pieces text).flatMap fun piece => t.decodeBytes (t.pieceToIds piece) := by
  have hids : t.encode text mode = (t.pieces text).flatMap t.pieceToIds := by
    rw [encode]
    rcases SpecialTokenTable.split_plain hnone with hsplit | ⟨rfl, hsplit⟩
    · rw [hsplit, ← encodeTextRun_eq]
      exact List.append_nil _
    · rw [hsplit, pieces_nil hfound]
      rfl
  rw [hids, decodeBytes_flatMap]

section Gpt2

variable (hstyle : t.style = .gpt2)
include hstyle

/-- Every piece is a run of remapped bytes. -/
theorem remapped_of_mem_pieces (h : piece ∈ t.pieces text) :
    ∃ b bytes, piece = (b :: bytes).map byteToUnicode := by
  obtain ⟨word, -, hpiece⟩ := List.mem_flatMap.mp h
  rw [wordPieces, if_neg (by simp [hstyle])] at hpiece
  refine Greedy.merge_forall (P := fun piece => ∃ b bytes, piece = (b :: bytes).map byteToUnicode)
    ?_ ?_ piece hpiece
  · rintro x y k - ⟨b, bytes, rfl⟩ ⟨b', bytes', rfl⟩
    exact ⟨b, bytes ++ b' :: bytes', by simp⟩
  · intro letter hletter
    rw [letters, hstyle] at hletter
    obtain ⟨b, -, rfl⟩ := List.mem_map.mp hletter
    exact ⟨b, [], rfl⟩

theorem decodeBytes_id_gpt2 {id : ℕ} (hid : t.idOf piece = some id) :
    t.decodeBytes [id] = piece.filterMap unicodeToByte := by
  rw [decodeBytes, hstyle]
  simp [getElem_of_tokenToId hid]

/-- A piece without an entry loses all bytes but the first. -/
theorem decodeBytes_piece_gpt2 (hbased : t.Based) (h : piece ∈ t.pieces text) :
    (t.Faithful piece → t.decodeBytes (t.pieceToIds piece) = t.bytesOf piece) ∧
      (¬t.Faithful piece →
        (t.decodeBytes (t.pieceToIds piece)).length < (t.bytesOf piece).length) := by
  have hbytes : t.bytesOf piece = piece.filterMap unicodeToByte := by
    rw [bytesOf, hstyle]
  have hfaithful : t.Faithful piece ↔ piece ∈ t.idToToken := by
    rw [Faithful, hstyle]
  rw [Based, hstyle] at hbased
  constructor
  · intro hmem
    obtain ⟨id, hid⟩ := Option.isSome_iff_exists.mp (tokenToId_isSome_iff.mpr (hfaithful.mp hmem))
    have hidOf : t.idOf piece = some id := hid
    rw [pieceToIds, hidOf, hbytes]
    exact decodeBytes_id_gpt2 hstyle hid
  · intro hmem
    obtain ⟨b, bytes, rfl⟩ := remapped_of_mem_pieces hstyle h
    obtain ⟨id, hid⟩ := Option.isSome_iff_exists.mp (tokenToId_isSome_iff.mpr (hbased b))
    have hnone : t.idOf ((b :: bytes).map byteToUnicode) = none :=
      Option.not_isSome_iff_eq_none.mp fun hsome =>
        hmem (hfaithful.mpr (tokenToId_isSome_iff.mp hsome))
    have hfirst : t.idOf [byteToUnicode b] = some id := hid
    have hmore : bytes ≠ [] := by
      rintro rfl
      exact hmem (hfaithful.mpr (hbased b))
    rw [pieceToIds, hnone, hstyle, hbytes]
    simp only [List.map_cons, List.head?_cons, Option.bind_some, hfirst, Option.getD_some]
    rw [decodeBytes_id_gpt2 hstyle hfirst]
    simpa [List.filterMap_map] using List.length_pos_of_ne_nil hmore

end Gpt2

section SpmWhitespace

variable (hstyle : t.style = .spmWhitespace)
include hstyle

theorem decodeBytes_id_spm {id : ℕ} (hid : t.idOf piece = some id) :
    t.decodeBytes [id] = match spmByteFallbackValue piece with
      | some b => [b]
      | none => Gbnf.encode (unescapeSpaces piece) := by
  rw [decodeBytes, hstyle]
  cases hvalue : spmByteFallbackValue piece with
  | none => simp only [List.flatMap_singleton, getElem_of_tokenToId hid, hvalue]
  | some b => simp only [List.flatMap_singleton, getElem_of_tokenToId hid, hvalue]

theorem decodeBytes_byteTokens (hbased : t.Based) (bytes : List UInt8) :
    t.decodeBytes (bytes.filterMap fun b => t.idOf (byteToken b)) = bytes := by
  rw [Based, hstyle] at hbased
  induction bytes with
  | nil =>
    rw [decodeBytes, hstyle]
    rfl
  | cons b bytes ih =>
    obtain ⟨id, hid⟩ := Option.isSome_iff_exists.mp (tokenToId_isSome_iff.mpr (hbased.1 b))
    have hidOf : t.idOf (byteToken b) = some id := hid
    have hcons : (b :: bytes).filterMap (fun b => t.idOf (byteToken b)) =
        [id] ++ bytes.filterMap fun b => t.idOf (byteToken b) := by
      rw [List.filterMap_cons, hidOf]
      rfl
    rw [hcons, decodeBytes_append, ih, decodeBytes_id_spm hstyle hidOf,
      spmByteFallbackValue_byteToken]
    rfl

/-- A piece with an entry comes back unless its entry reads as a byte, a piece without one comes
back as it was spelled. -/
theorem decodeBytes_piece_spm (hbased : t.Based) (piece : Text) :
    (t.Faithful piece → t.decodeBytes (t.pieceToIds piece) = t.bytesOf piece) ∧
      (¬t.Faithful piece →
        (t.decodeBytes (t.pieceToIds piece)).length < (t.bytesOf piece).length ∨
          SPM_SPACE ∈ piece ∧ t.decodeBytes (t.pieceToIds piece) = Gbnf.encode piece) := by
  have hbytes : t.bytesOf piece = Gbnf.encode (unescapeSpaces piece) := by
    rw [bytesOf, hstyle]
  have hfaithful : t.Faithful piece ↔ if piece ∈ t.idToToken then
      spmByteFallbackValue piece = none else SPM_SPACE ∉ piece := by
    rw [Faithful, hstyle]
  rw [hfaithful, hbytes]
  by_cases hmem : piece ∈ t.idToToken
  · obtain ⟨id, hid⟩ := Option.isSome_iff_exists.mp (tokenToId_isSome_iff.mpr hmem)
    have hidOf : t.idOf piece = some id := hid
    rw [if_pos hmem, pieceToIds, hidOf]
    dsimp only
    rw [decodeBytes_id_spm hstyle hidOf]
    cases hvalue : spmByteFallbackValue piece with
    | none => simp
    | some b =>
      rw [Based, hstyle] at hbased
      obtain rfl := hbased.2 piece hmem b hvalue
      refine ⟨fun h => absurd h (Option.some_ne_none b), fun _ => Or.inl ?_⟩
      rw [unescapeSpaces_of_notMem (space_notMem_byteToken b)]
      exact length_encode_byteToken b
  · have hnone : t.idOf piece = none :=
      Option.not_isSome_iff_eq_none.mp fun hsome => hmem (tokenToId_isSome_iff.mp hsome)
    have hspelled : t.decodeBytes (t.pieceToIds piece) = Gbnf.encode piece := by
      rw [pieceToIds, hnone, hstyle]
      exact decodeBytes_byteTokens hstyle hbased _
    rw [if_neg hmem, hspelled]
    constructor
    · intro h
      rw [unescapeSpaces_of_notMem h]
    · intro h
      exact Or.inr ⟨not_not.mp h, rfl⟩

end SpmWhitespace

theorem decodeBytes_piece (hbased : t.Based) (h : piece ∈ t.pieces text) :
    (t.Faithful piece → t.decodeBytes (t.pieceToIds piece) = t.bytesOf piece) ∧
      (¬t.Faithful piece →
        (t.decodeBytes (t.pieceToIds piece)).length < (t.bytesOf piece).length ∨
          t.style = .spmWhitespace ∧ SPM_SPACE ∈ piece ∧
            t.decodeBytes (t.pieceToIds piece) = Gbnf.encode piece) := by
  cases hstyle : t.style with
  | gpt2 =>
    obtain ⟨hgood, hbad⟩ := decodeBytes_piece_gpt2 hstyle hbased h
    exact ⟨hgood, fun hf => Or.inl (hbad hf)⟩
  | spmWhitespace =>
    obtain ⟨hgood, hbad⟩ := decodeBytes_piece_spm hstyle hbased piece
    exact ⟨hgood, fun hf => (hbad hf).imp id fun hspelled => ⟨rfl, hspelled⟩⟩

/-- Where the text comes back, no escaped space does, so an unfaithful piece is too short. -/
theorem short_of_not_faithful (hbased : t.Based)
    (hspace : t.style = .spmWhitespace → SPM_SPACE ∉ text)
    (heq : (t.pieces text).flatMap (fun piece => t.decodeBytes (t.pieceToIds piece)) =
      Gbnf.encode text) (h : piece ∈ t.pieces text) (hbad : ¬t.Faithful piece) :
    (t.decodeBytes (t.pieceToIds piece)).length < (t.bytesOf piece).length := by
  rcases (decodeBytes_piece hbased h).2 hbad with hlt | ⟨hstyle, hin, hspelled⟩
  · exact hlt
  · exfalso
    apply hspace hstyle
    apply mem_of_infix
    rw [← heq]
    have hpiece : Gbnf.encode piece ∈
        (t.pieces text).map fun piece => t.decodeBytes (t.pieceToIds piece) :=
      List.mem_map.mpr ⟨piece, h, hspelled⟩
    exact (infix_of_mem hin).trans (List.infix_of_mem_flatten hpiece)

/-- The bytes of a text come back exactly when every piece is spelled in full. -/
theorem decodeBytes_encode_iff (t : GgufBpeTokenizer) (text : Text) (mode : SpecialTokens)
    (hbased : t.Based) (hfound : ∀ text, Ordered text 0 (t.findIter text))
    (hnone : ∀ id, .special id ∉ t.specialTokens.split text mode)
    (hspace : t.style = .spmWhitespace → SPM_SPACE ∉ text) :
    t.decodeBytes (t.encode text mode) = Gbnf.encode text ↔
      ∀ piece ∈ t.pieces text, t.Faithful piece := by
  rw [decodeBytes_encode_eq hnone (hfound text)]
  have hbytes := bytesOf_pieces (hfound text) hspace
  constructor
  · intro heq piece hpiece
    by_contra hbad
    have hshort : ∀ piece ∈ t.pieces text,
        t.decodeBytes (t.pieceToIds piece) = t.bytesOf piece ∨
          (t.decodeBytes (t.pieceToIds piece)).length < (t.bytesOf piece).length := by
      intro piece hpiece
      rcases Classical.em (t.Faithful piece) with hgood | hbad
      · exact Or.inl ((decodeBytes_piece hbased hpiece).1 hgood)
      · exact Or.inr (short_of_not_faithful hbased hspace heq hpiece hbad)
    have hlt := short_of_not_faithful hbased hspace heq hpiece hbad
    rw [(flatMap_eq_iff hshort).mp (heq.trans hbytes.symm) piece hpiece] at hlt
    exact Nat.lt_irrefl _ hlt
  · intro h
    rw [← hbytes]
    apply List.flatMap_congr
    intro piece hpiece
    exact (decodeBytes_piece hbased hpiece).1 (h piece hpiece)

/-- Where every merge makes an entry, nothing is lost. -/
theorem faithful_of_merges (hstyle : t.style = .gpt2) (hbased : t.Based)
    (h : ∀ x y, (t.mergeRank x y).isSome → x ++ y ∈ t.idToToken) :
    ∀ piece ∈ t.pieces text, t.Faithful piece := by
  intro piece hpiece
  obtain ⟨word, -, hmem⟩ := List.mem_flatMap.mp hpiece
  rw [wordPieces, if_neg (by simp [hstyle])] at hmem
  rw [Faithful, hstyle]
  refine Greedy.merge_forall (P := fun piece => piece ∈ t.idToToken) ?_ ?_ piece hmem
  · rintro x y k hk - -
    apply h
    rw [← Option.isSome_map (f := OrderDual.toDual)]
    exact Option.isSome_iff_exists.mpr ⟨k, hk⟩
  · intro letter hletter
    rw [letters, hstyle] at hletter
    rw [Based, hstyle] at hbased
    obtain ⟨b, -, rfl⟩ := List.mem_map.mp hletter
    exact hbased b

section Witness

/-- The bytes in either style, further entries, and one merge. -/
def bytePairs (style : BpeEncodingStyle) (entries : List Text) : GgufBpeTokenizer where
  idToToken := (List.range 256).map (fun n => match style with
    | .gpt2 => [byteToUnicode (.ofNat n)]
    | .spmWhitespace => byteToken (.ofNat n)) ++ entries
  mergeRank x y := if x = ['a'] ∧ y = ['b'] then some 0 else none
  specialTokens := ⟨[], by simp⟩
  findIter text := if text.isEmpty then [] else [some (0, text.length)]
  style := style

theorem ordered_bytePairs (style : BpeEncodingStyle) (entries : List Text) (text : Text) :
    Ordered text 0 ((bytePairs style entries).findIter text) := by
  cases text <;> simp [bytePairs, Ordered]

theorem split_bytePairs (style : BpeEncodingStyle) (entries : List Text) (text : Text)
    (mode : SpecialTokens) (id : ℕ) :
    .special id ∉ (bytePairs style entries).specialTokens.split text mode := by
  simp [bytePairs, SpecialTokenTable.split]

theorem based_gpt2 (entries : List Text) : (bytePairs .gpt2 entries).Based := by
  intro b
  apply List.mem_append_left
  exact List.mem_map.mpr ⟨b.toNat, List.mem_range.mpr b.toNat_lt, by simp⟩

theorem based_spm : (bytePairs .spmWhitespace []).Based := by
  constructor
  · intro b
    apply List.mem_append_left
    exact List.mem_map.mpr ⟨b.toNat, List.mem_range.mpr b.toNat_lt, by simp⟩
  · intro token hmem b hvalue
    rw [bytePairs, List.append_nil] at hmem
    obtain ⟨n, -, rfl⟩ := List.mem_map.mp hmem
    rw [spmByteFallbackValue_byteToken] at hvalue
    rw [Option.some.inj hvalue]

theorem decodeBytes_encode_pair :
    (bytePairs .gpt2 [['a', 'b']]).decodeBytes
      ((bytePairs .gpt2 [['a', 'b']]).encode ['a', 'b'] .parse) = Gbnf.encode ['a', 'b'] := by
  apply (decodeBytes_encode_iff _ _ _ (based_gpt2 _) (ordered_bytePairs _ _)
    (split_bytePairs _ _ _ _) (by simp [bytePairs])).mpr
  apply faithful_of_merges rfl (based_gpt2 _)
  intro x y hxy
  obtain ⟨rfl, rfl⟩ : x = ['a'] ∧ y = ['b'] := by
    by_contra hne
    simp [bytePairs, hne] at hxy
  exact List.mem_append_right _ (List.mem_singleton_self _)

/-- In either style bytes are lost or changed: a merged piece without an entry keeps its first
byte only, and an escaped space that has no entry comes back escaped. -/
theorem lossy_of_style (style : BpeEncodingStyle) :
    ¬∀ (t : GgufBpeTokenizer) (text : Text) (mode : SpecialTokens), t.style = style → t.Based →
      (∀ text, Ordered text 0 (t.findIter text)) →
      (∀ id, .special id ∉ t.specialTokens.split text mode) →
      (t.style = .spmWhitespace → SPM_SPACE ∉ text) →
        t.decodeBytes (t.encode text mode) = Gbnf.encode text := by
  intro h
  cases style with
  | gpt2 =>
    have hab := h (bytePairs .gpt2 []) ['a', 'b'] .parse rfl (based_gpt2 _)
      (ordered_bytePairs _ _) (split_bytePairs _ _ _ _) (by simp [bytePairs])
    exact absurd hab (by decide +kernel)
  | spmWhitespace =>
    have hspace := h (bytePairs .spmWhitespace []) ['a', ' ', 'b'] .parse rfl based_spm
      (ordered_bytePairs _ _) (split_bytePairs _ _ _ _) (by decide)
    exact absurd hspace (by decide +kernel)

theorem decodeBytes_encode_lossy :
    ¬∀ (t : GgufBpeTokenizer) (text : Text) (mode : SpecialTokens), t.Based →
      (∀ text, Ordered text 0 (t.findIter text)) →
      (∀ id, .special id ∉ t.specialTokens.split text mode) →
      (t.style = .spmWhitespace → SPM_SPACE ∉ text) →
        t.decodeBytes (t.encode text mode) = Gbnf.encode text :=
  fun h => lossy_of_style .gpt2 fun t text mode _ => h t text mode

end Witness

end GgufBpeTokenizer

end Frink.Tokenizer
