import Mathlib
import Frink.Paged.Append

/-! # Appends are atomic

A sequence that can be appended to has blocks of its own from the one on that it writes next. An
operation is refused with nothing changed, or it takes the blocks it was counted to need and puts
its rows behind those the sequence has.
-/

namespace Frink.Paged

variable {α β ι : Type}

namespace KvRows

variable {convert : β → α} {r : KvRows α β} {start stop : ℕ}

@[simp] theorem length_stored : (r.stored convert).length = r.len := by
  cases r <;> simp [stored, len]

@[simp] theorem len_slice : (r.slice start stop).len = min stop r.len - start := by
  cases r <;> simp [slice, len]

@[simp] theorem stored_slice :
    (r.slice start stop).stored convert = ((r.stored convert).take stop).drop start := by
  cases r <;> simp [stored, slice]

end KvRows

namespace PagedKvCache

variable {c : PagedKvCache} {s : PagedKvStore} {n : ℕ}

theorem blocksNeededFor_one (hP : 0 < s.blockSize) :
    c.blocksNeededFor s 1 = if c.seqLen < c.blockTable.length * s.blockSize then 0 else 1 := by
  unfold blocksNeededFor
  dsimp only
  split
  · apply Nat.div_eq_of_lt
    omega
  · have hfull : c.blockTable.length * s.blockSize - c.seqLen = 0 := by omega
    rw [hfull, Nat.sub_zero, Nat.add_sub_cancel_left, Nat.div_self hP]

/-- Counting one position at a time comes to the same. -/
theorem blocksNeededFor_succ {taken rest : List ℕ} (hP : 0 < s.blockSize)
    (hroom : c.seqLen ≤ c.blockTable.length * s.blockSize)
    (htaken : taken.length = c.blocksNeededFor s 1) :
    c.blocksNeededFor s (n + 1) = taken.length +
      (⟨c.blockTable ++ taken, c.seqLen + 1⟩ : PagedKvCache).blocksNeededFor
        ⟨s.blockSize, rest⟩ n := by
  rw [blocksNeededFor_one hP] at htaken
  unfold blocksNeededFor
  dsimp only
  rw [List.length_append, Nat.add_mul]
  split at htaken
  · rw [htaken, Nat.zero_mul, Nat.zero_add]
    congr 2
    omega
  · have hfull : c.seqLen = c.blockTable.length * s.blockSize := by omega
    rw [htaken, ← hfull, Nat.one_mul, Nat.sub_self, Nat.sub_zero, Nat.add_sub_add_left]
    have hleft : n + 1 + s.blockSize - 1 = n + s.blockSize := by omega
    rw [hleft, Nat.add_div_right _ hP, Nat.add_comm]
    congr 1
    rcases Nat.lt_or_ge n (s.blockSize - 1) with hlt | hge
    · rw [Nat.div_eq_of_lt (by omega), Nat.div_eq_of_lt (by omega)]
    · congr 1
      omega

end PagedKvCache

namespace PagedLayer

variable {m m' : PagedLayer α} {c c' : PagedKvCache} {convert : β → α} {k v : KvRows α β}
  {total : ℕ}

/-- The step of a sequence that finds its block: the table grows by what it needs, and one cell
of its last block is written. -/
theorem pushRows_ok {total : ℕ} (hP : 0 < m.kv.blockSize) (hf : m.rows.Fits m.kv.blockSize total)
    (hfree : ∀ b ∈ m.kv.freeBlockIds, b < total) (htable : ∀ b ∈ c.blockTable, b < total)
    (hroom : c.seqLen ≤ c.blockTable.length * m.kv.blockSize)
    (hneed : c.blocksNeededFor m.kv 1 ≤ m.kv.freeBlockCount)
    (hk : k.len = m.rows.kWidth) (hv : v.len = m.rows.vWidth) :
    ∃ taken rest id r, m.kv.freeBlockIds = taken ++ rest ∧
      taken.length = c.blocksNeededFor m.kv 1 ∧
      (c.blockTable ++ taken)[c.seqLen / m.kv.blockSize]? = some id ∧
      m.rows.put m.kv.blockSize id (c.seqLen % m.kv.blockSize) (k.stored convert)
        (v.stored convert) = some r ∧
      m.pushRows convert c k v = some (.ok (), ⟨c.blockTable ++ taken, c.seqLen + 1⟩,
        ⟨⟨m.kv.blockSize, rest⟩, r⟩) := by
  have hoffset := Nat.mod_lt c.seqLen hP
  have hwrite : ∀ id < total, ∃ r, m.rows.put m.kv.blockSize id (c.seqLen % m.kv.blockSize)
      (k.stored convert) (v.stored convert) = some r :=
    fun id hid => LayerRows.put_isSome hf hid hoffset (by simpa using hk) (by simpa using hv)
  rw [PagedKvCache.blocksNeededFor_one hP] at hneed ⊢
  split at hneed
  · rename_i hlt
    have hindex := (Nat.div_lt_iff_lt_mul hP).mpr hlt
    have hid := List.getElem?_eq_getElem hindex
    obtain ⟨r, hr⟩ := hwrite _ (htable _ (List.getElem_mem hindex))
    refine ⟨[], m.kv.freeBlockIds, _, r, rfl, by rw [if_pos hlt]; rfl, by simp, hr, ?_⟩
    obtain ⟨r₁, hr₁, hr₂⟩ := Option.bind_eq_some_iff.mp hr
    simp [pushRows, Nat.not_le.mpr hindex, hid, hr₁, hr₂]
  · rename_i hfull
    have hseq : c.seqLen = c.blockTable.length * m.kv.blockSize := by omega
    have hindex : c.seqLen / m.kv.blockSize = c.blockTable.length := by
      rw [hseq, Nat.mul_div_cancel _ hP]
    obtain ⟨id, rest, hids⟩ := List.exists_cons_of_length_pos hneed
    obtain ⟨r, hr⟩ := hwrite id (hfree id (by rw [hids]; exact List.mem_cons_self))
    refine ⟨[id], rest, id, r, hids, by rw [if_neg hfull]; rfl, by simp [hindex], hr, ?_⟩
    obtain ⟨r₁, hr₁, hr₂⟩ := Option.bind_eq_some_iff.mp hr
    simp [pushRows, PagedKvStore.acquireBlock, hids, hindex, hr₁, hr₂]

theorem pushRows_refused (hP : 0 < m.kv.blockSize)
    (hneed : m.kv.freeBlockCount < c.blocksNeededFor m.kv 1) :
    m.pushRows convert c k v = some (.error {}, c, m) := by
  rw [PagedKvCache.blocksNeededFor_one hP] at hneed
  split at hneed
  · cases hneed
  · rename_i hfull
    have hnone : m.kv.acquireBlock = none := by
      rw [PagedKvStore.acquireBlock, List.eq_nil_of_length_eq_zero (Nat.lt_one_iff.mp hneed)]
    have hle : c.blockTable.length ≤ c.seqLen / m.kv.blockSize :=
      (Nat.le_div_iff_mul_le hP).mpr (Nat.le_of_not_lt hfull)
    simp only [pushRows, if_pos hle, hnone, Option.map_none]

theorem mapM_read_congr {n : ℕ} (h : ∀ pos < n, m'.read c' pos = m.read c pos) :
    ((List.range n).mapM fun pos => m'.read c' pos) =
      (List.range n).mapM fun pos => m.read c pos := by
  induction n with
  | zero => rfl
  | succ n ih =>
    rw [List.range_succ, List.mapM_append, List.mapM_append,
      ih fun pos hpos => h pos (Nat.lt_succ_of_lt hpos)]
    simp [h n (Nat.lt_succ_self n)]

theorem toContiguous_congr (hlen : c'.seqLen = c.seqLen)
    (h : ∀ pos < c.seqLen, m'.read c' pos = m.read c pos) :
    m'.toContiguous c' = m.toContiguous c := by
  rw [toContiguous, toContiguous, hlen, mapM_read_congr h]

/-- One more position is read behind the others. -/
theorem toContiguous_succ {row : List α × List α} (hlen : c'.seqLen = c.seqLen + 1)
    (h : ∀ pos < c.seqLen, m'.read c' pos = m.read c pos)
    (hnew : m'.read c' c.seqLen = some row) :
    m'.toContiguous c' = (m.toContiguous c).map fun x => (x.1 ++ row.1, x.2 ++ row.2) := by
  rw [toContiguous, toContiguous, hlen, List.range_succ, List.mapM_append, mapM_read_congr h]
  cases (List.range c.seqLen).mapM fun pos => m.read c pos <;> simp [hnew]

end PagedLayer

namespace Sequences

/-- The buffers hold the blocks, and a free block is in no table. -/
structure Sound (σ : Sequences ι α) (total : ℕ) : Prop where

  blockSize_pos : 0 < σ.layer.kv.blockSize

  fits : σ.layer.rows.Fits σ.layer.kv.blockSize total

  free_nodup : σ.layer.kv.freeBlockIds.Nodup

  free_lt : ∀ b ∈ σ.layer.kv.freeBlockIds, b < total

  live : ∀ i, ∀ b ∈ (σ.seq i).blockTable, b ∉ σ.layer.kv.freeBlockIds

/-- A sequence within its blocks, which are distinct and from the block of its next position on
in no other table. -/
structure Owns (σ : Sequences ι α) (total : ℕ) (i : ι) : Prop where

  nodup : (σ.seq i).blockTable.Nodup

  lt : ∀ b ∈ (σ.seq i).blockTable, b < total

  room : (σ.seq i).seqLen ≤ (σ.seq i).blockTable.length * σ.layer.kv.blockSize

  apart : ∀ j ≠ i, ∀ b ∈ (σ.seq i).blockTable.drop ((σ.seq i).seqLen / σ.layer.kv.blockSize),
    b ∉ (σ.seq j).blockTable

/-- One sequence has `n` more positions with these rows in `need` more blocks, and every other is
as it was. -/
structure Grown (σ : Sequences ι α) (i : ι) (need n : ℕ) (rows : List α × List α)
    (σ' : Sequences ι α) : Prop where

  taken : ∃ taken, σ.layer.kv.freeBlockIds = taken ++ σ'.layer.kv.freeBlockIds ∧
    taken.length = need ∧ (σ'.seq i).blockTable = (σ.seq i).blockTable ++ taken

  seqLen : (σ'.seq i).seqLen = (σ.seq i).seqLen + n

  own : σ'.contiguous i = (σ.contiguous i).map fun x => (x.1 ++ rows.1, x.2 ++ rows.2)

  elsewhere : ∀ j ≠ i, σ'.seq j = σ.seq j ∧ σ'.contiguous j = σ.contiguous j

variable {σ σ' σ'' : Sequences ι α} {total need need' n n' : ℕ} {i : ι}
  {rows rows' : List α × List α}

theorem Grown.trans (h : σ.Grown i need n rows σ') (h' : σ'.Grown i need' n' rows' σ'') :
    σ.Grown i (need + need') (n + n') (rows.1 ++ rows'.1, rows.2 ++ rows'.2) σ'' where
  taken := by
    obtain ⟨taken, hfree, hlen, htable⟩ := h.taken
    obtain ⟨taken', hfree', hlen', htable'⟩ := h'.taken
    refine ⟨taken ++ taken', ?_, ?_, ?_⟩
    · rw [hfree, hfree', List.append_assoc]
    · rw [List.length_append, hlen, hlen']
    · rw [htable', htable, List.append_assoc]
  seqLen := by rw [h'.seqLen, h.seqLen, Nat.add_assoc]
  own := by
    rw [h'.own, h.own, Option.map_map]
    simp only [Function.comp_def, List.append_assoc]
  elsewhere j hj := by
    obtain ⟨hseq, hcont⟩ := h.elsewhere j hj
    obtain ⟨hseq', hcont'⟩ := h'.elsewhere j hj
    exact ⟨hseq'.trans hseq, hcont'.trans hcont⟩

/-- A table that grows by free blocks is the sequence's own. -/
theorem sound_of_grown (σ' : Sequences ι α) {taken : List ℕ} (hs : σ.Sound total)
    (hfree : σ.layer.kv.freeBlockIds = taken ++ σ'.layer.kv.freeBlockIds)
    (hsize : σ'.layer.kv.blockSize = σ.layer.kv.blockSize)
    (hfits : σ'.layer.rows.Fits σ.layer.kv.blockSize total)
    (htable : (σ'.seq i).blockTable = (σ.seq i).blockTable ++ taken)
    (hle : (σ.seq i).seqLen ≤ (σ'.seq i).seqLen)
    (hroom : (σ'.seq i).seqLen ≤ (σ'.seq i).blockTable.length * σ.layer.kv.blockSize)
    (helse : ∀ j ≠ i, σ'.seq j = σ.seq j) :
    σ'.Sound total ∧ ∀ j, σ.Owns total j → σ'.Owns total j := by
  have hnodup := hs.free_nodup
  have hfresh : ∀ b ∈ taken, b ∈ σ.layer.kv.freeBlockIds := by
    intro b hb
    rw [hfree]
    exact List.mem_append_left _ hb
  have hmem : ∀ j, ∀ b ∈ (σ'.seq j).blockTable, b ∈ (σ.seq j).blockTable ∨ j = i ∧ b ∈ taken := by
    intro j b hb
    by_cases hj : j = i
    · subst hj
      rw [htable] at hb
      exact (List.mem_append.mp hb).imp id fun hb => ⟨rfl, hb⟩
    · rw [helse j hj] at hb
      exact Or.inl hb
  rw [hfree, List.nodup_append] at hnodup
  constructor
  · refine ⟨hsize ▸ hs.blockSize_pos, hsize ▸ hfits, hnodup.2.1, ?_, ?_⟩
    · intro b hb
      apply hs.free_lt
      rw [hfree]
      exact List.mem_append_right _ hb
    · intro j b hb hfree'
      rcases hmem j b hb with hb | ⟨-, hb⟩
      · apply hs.live j b hb
        rw [hfree]
        exact List.mem_append_right _ hfree'
      · exact hnodup.2.2 b hb b hfree' rfl
  · intro j hj
    have hlive : ∀ b ∈ taken, b ∉ (σ.seq j).blockTable := fun b hb hb' =>
      hs.live j b hb' (hfresh b hb)
    constructor
    · by_cases hji : j = i
      · subst hji
        rw [htable, List.nodup_append]
        refine ⟨hj.nodup, hnodup.1, ?_⟩
        rintro b hb _ hb' rfl
        exact hlive b hb' hb
      · rw [helse j hji]
        exact hj.nodup
    · intro b hb
      rcases hmem j b hb with hb | ⟨-, hb⟩
      · exact hj.lt b hb
      · exact hs.free_lt b (hfresh b hb)
    · rw [hsize]
      by_cases hji : j = i
      · subst hji
        exact hroom
      · rw [helse j hji]
        exact hj.room
    · rw [hsize]
      intro j' hj' b hb hb'
      have hb₀ : b ∈ (σ.seq j).blockTable.drop ((σ.seq j).seqLen / σ.layer.kv.blockSize) ∨
          j = i ∧ b ∈ taken := by
        by_cases hji : j = i
        · subst hji
          rw [htable, List.drop_append] at hb
          refine (List.mem_append.mp hb).imp (fun hb => ?_) fun hb => ⟨rfl, List.mem_of_mem_drop hb⟩
          exact (List.drop_subset_drop_left _ (Nat.div_le_div_right hle)) hb
        · rw [helse j hji] at hb
          exact Or.inl hb
      rcases hb₀ with hb₀ | ⟨rfl, hb₀⟩
      · rcases hmem j' b hb' with hb' | ⟨rfl, hb'⟩
        · exact hj.apart j' hj' b hb₀ hb'
        · exact hlive b hb' (List.mem_of_mem_drop hb₀)
      · rw [helse j' hj'] at hb'
        exact hs.live j' b hb' (hfresh b hb₀)

/-- The block of the next position is nobody else's. -/
theorem next_apart {taken : List ℕ} {id : ℕ} (hs : σ.Sound total) (hi : σ.Owns total i)
    (htaken : ∀ b ∈ taken, b ∈ σ.layer.kv.freeBlockIds)
    (hid : ((σ.seq i).blockTable ++ taken)[(σ.seq i).seqLen / σ.layer.kv.blockSize]? = some id)
    {j : ι} (hj : j ≠ i) : id ∉ (σ.seq j).blockTable := by
  intro hmem
  rcases Nat.lt_or_ge ((σ.seq i).seqLen / σ.layer.kv.blockSize) (σ.seq i).blockTable.length
    with hlt | hge
  · rw [List.getElem?_append_left hlt] at hid
    apply hi.apart j hj id _ hmem
    apply List.mem_of_getElem?
    rw [List.getElem?_drop, Nat.add_zero]
    exact hid
  · rw [List.getElem?_append_right hge] at hid
    exact hs.live j id hmem (htaken id (List.mem_of_getElem? hid))

/-- The widths and the page size stay, and who could be appended to still can. -/
structure Moved (σ : Sequences ι α) (total : ℕ) (i : ι) (need n : ℕ) (rows : List α × List α)
    (σ' : Sequences ι α) : Prop extends σ.Grown i need n rows σ' where

  sound : σ'.Sound total

  owns : ∀ j, σ.Owns total j → σ'.Owns total j

  blockSize : σ'.layer.kv.blockSize = σ.layer.kv.blockSize

  kWidth : σ'.layer.rows.kWidth = σ.layer.rows.kWidth

  vWidth : σ'.layer.rows.vWidth = σ.layer.rows.vWidth

theorem Moved.refl (hs : σ.Sound total) (i : ι) : σ.Moved total i 0 0 ([], []) σ where
  taken := ⟨[], rfl, rfl, (List.append_nil _).symm⟩
  seqLen := rfl
  own := by simp
  elsewhere := fun _ _ => ⟨rfl, rfl⟩
  sound := hs
  owns := fun _ hj => hj
  blockSize := rfl
  kWidth := rfl
  vWidth := rfl

theorem Moved.trans (h : σ.Moved total i need n rows σ')
    (h' : σ'.Moved total i need' n' rows' σ'') :
    σ.Moved total i (need + need') (n + n') (rows.1 ++ rows'.1, rows.2 ++ rows'.2) σ'' where
  toGrown := h.toGrown.trans h'.toGrown
  sound := h'.sound
  owns j hj := h'.owns j (h.owns j hj)
  blockSize := h'.blockSize.trans h.blockSize
  kWidth := h'.kWidth.trans h.kWidth
  vWidth := h'.vWidth.trans h.vWidth

section Cell

variable {taken : List ℕ} {id pos : ℕ} {r : LayerRows α} {x y : List α}
  {free : List ℕ} (hs : σ.Sound total)
  (hput : σ.layer.rows.put σ.layer.kv.blockSize id
    ((σ.seq i).seqLen % σ.layer.kv.blockSize) x y = some r)
include hs hput

/-- A write into a block that a table does not name is not read through it. -/
theorem read_of_notMem {c : PagedKvCache} (hid : id ∉ c.blockTable) :
    PagedLayer.read ⟨⟨σ.layer.kv.blockSize, free⟩, r⟩ c pos = σ.layer.read c pos := by
  have hP := hs.blockSize_pos
  apply Option.bind_congr
  intro b hb
  apply LayerRows.put_rowAt_ne hput (Nat.mod_lt _ hP) (Nat.mod_lt _ hP)
  rintro rfl
  exact absurd (List.mem_of_getElem? hb) hid

/-- The positions before the written one read as before. -/
theorem read_of_lt (hi : σ.Owns total i) (hnodup : ((σ.seq i).blockTable ++ taken).Nodup)
    (hid : ((σ.seq i).blockTable ++ taken)[(σ.seq i).seqLen / σ.layer.kv.blockSize]? = some id)
    (hpos : pos < (σ.seq i).seqLen) :
    PagedLayer.read ⟨⟨σ.layer.kv.blockSize, free⟩, r⟩
      ⟨(σ.seq i).blockTable ++ taken, (σ.seq i).seqLen + 1⟩ pos =
        σ.layer.read (σ.seq i) pos := by
  have hP := hs.blockSize_pos
  have hindex : pos / σ.layer.kv.blockSize < (σ.seq i).blockTable.length :=
    (Nat.div_lt_iff_lt_mul hP).mpr (Nat.lt_of_lt_of_le hpos hi.room)
  have hcell : ((σ.seq i).blockTable ++ taken)[pos / σ.layer.kv.blockSize]? =
      (σ.seq i).blockTable[pos / σ.layer.kv.blockSize]? := List.getElem?_append_left hindex
  rw [PagedLayer.read, PagedLayer.read]
  dsimp only
  rw [hcell]
  apply Option.bind_congr
  intro b hb
  apply LayerRows.put_rowAt_ne hput (Nat.mod_lt _ hP) (Nat.mod_lt _ hP)
  rintro rfl heq
  have hlt : pos / σ.layer.kv.blockSize < ((σ.seq i).blockTable ++ taken).length := by
    rw [List.length_append]
    omega
  have hsame := (List.getElem?_inj hlt hnodup).mp ((hcell.trans hb).trans hid.symm)
  have hsplit := Nat.div_add_mod pos σ.layer.kv.blockSize
  rw [hsame, heq, Nat.div_add_mod] at hsplit
  omega

end Cell

variable [DecidableEq ι] {convert : β → α} {k v : KvRows α β} {op : Op ι α β}

/-- A position that finds its block is appended. -/
theorem pushRows_moved (convert : β → α) (hs : σ.Sound total) (hi : σ.Owns total i)
    (hk : k.len = σ.layer.rows.kWidth) (hv : v.len = σ.layer.rows.vWidth)
    (hneed : (σ.seq i).blocksNeededFor σ.layer.kv 1 ≤ σ.layer.kv.freeBlockCount) :
    ∃ c m, σ.layer.pushRows convert (σ.seq i) k v = some (.ok (), c, m) ∧
      σ.Moved total i ((σ.seq i).blocksNeededFor σ.layer.kv 1) 1
        (k.stored convert, v.stored convert) ⟨m, Function.update σ.seq i c⟩ := by
  have hP := hs.blockSize_pos
  obtain ⟨taken, rest, id, r, hfree, htaken, hid, hput, hpush⟩ :=
    PagedLayer.pushRows_ok hP hs.fits hs.free_lt hi.lt hi.room hneed hk hv
  refine ⟨_, _, hpush, ?_⟩
  set σ' : Sequences ι α := ⟨⟨⟨σ.layer.kv.blockSize, rest⟩, r⟩,
    Function.update σ.seq i ⟨(σ.seq i).blockTable ++ taken, (σ.seq i).seqLen + 1⟩⟩ with hσ'
  obtain ⟨-, -, hshape, -, -⟩ := LayerRows.put_spec hput
  have hself : σ'.seq i = ⟨(σ.seq i).blockTable ++ taken, (σ.seq i).seqLen + 1⟩ :=
    Function.update_self _ _ _
  have helse : ∀ j ≠ i, σ'.seq j = σ.seq j := fun j hj => Function.update_of_ne hj _ _
  have hroom : (σ.seq i).seqLen + 1 ≤
      ((σ.seq i).blockTable ++ taken).length * σ.layer.kv.blockSize := by
    have hlt := (List.getElem?_eq_some_iff.mp hid).choose
    exact Nat.succ_le_of_lt ((Nat.div_lt_iff_lt_mul hP).mp hlt)
  obtain ⟨hsound, howns⟩ : σ'.Sound total ∧ ∀ j, σ.Owns total j → σ'.Owns total j :=
    sound_of_grown σ' hs hfree rfl (hshape.fits hs.fits) (by rw [hself])
      (by rw [hself]; exact Nat.le_succ _) (by rw [hself]; exact hroom) helse
  have hnodup := (howns i hi).nodup
  rw [hself] at hnodup
  exact {
    taken := ⟨taken, hfree, htaken, by rw [hself]⟩
    seqLen := by rw [hself]
    own := by
      rw [contiguous, hself]
      apply PagedLayer.toContiguous_succ rfl fun pos hpos => read_of_lt hs hput hi hnodup hid hpos
      rw [PagedLayer.read]
      dsimp only [σ']
      rw [hid]
      exact LayerRows.put_rowAt_self hput
    elsewhere := by
      intro j hj
      have hapart : id ∉ (σ.seq j).blockTable := by
        apply next_apart hs hi ?_ hid hj
        intro b hb
        rw [hfree]
        exact List.mem_append_left _ hb
      rw [contiguous, contiguous, helse j hj]
      exact ⟨rfl, PagedLayer.toContiguous_congr rfl fun pos _ => read_of_notMem hs hput hapart⟩
    sound := hsound
    owns := howns
    blockSize := rfl
    kWidth := hshape.k_width
    vWidth := hshape.v_width }

/-- With the blocks counted beforehand every position of a run finds its block. -/
theorem appendFrom_moved (convert : β → α) (start : ℕ) {count : ℕ} (hs : σ.Sound total) (hi : σ.Owns total i)
    (hk : k.len = (start + count) * σ.layer.rows.kWidth)
    (hv : v.len = (start + count) * σ.layer.rows.vWidth)
    (hneed : (σ.seq i).blocksNeededFor σ.layer.kv count ≤ σ.layer.kv.freeBlockCount) :
    ∃ c m, PagedLayer.appendFrom convert k v start count (σ.seq i) σ.layer = some (c, m) ∧
      σ.Moved total i ((σ.seq i).blocksNeededFor σ.layer.kv count) count
        ((k.stored convert).drop (start * σ.layer.rows.kWidth),
          (v.stored convert).drop (start * σ.layer.rows.vWidth))
        ⟨m, Function.update σ.seq i c⟩ := by
  induction count generalizing σ start with
  | zero =>
    refine ⟨_, _, rfl, ?_⟩
    have hnone : (σ.seq i).blocksNeededFor σ.layer.kv 0 = 0 := by
      apply Nat.div_eq_of_lt
      have hP := hs.blockSize_pos
      omega
    rw [hnone, Function.update_eq_self, List.drop_eq_nil_of_le (by simp [hk]),
      List.drop_eq_nil_of_le (by simp [hv])]
    exact Moved.refl hs i
  | succ count ih =>
    have hP := hs.blockSize_pos
    have hstep : ∀ {w : ℕ} {r : KvRows α β}, r.len = (start + (count + 1)) * w →
        (r.slice (start * w) ((start + 1) * w)).len = w := by
      intro w r hr
      rw [KvRows.len_slice, hr, Nat.min_eq_left (Nat.mul_le_mul_right w (by omega)), Nat.succ_mul,
        Nat.add_sub_cancel_left]
    have hone : (σ.seq i).blocksNeededFor σ.layer.kv 1 ≤
        (σ.seq i).blocksNeededFor σ.layer.kv (count + 1) :=
      Nat.div_le_div_right (by omega)
    obtain ⟨c, m, hpush, hmoved⟩ :=
      pushRows_moved convert hs hi (hstep hk) (hstep hv) (hone.trans hneed)
    obtain ⟨taken, hfree, htaken, htable⟩ := hmoved.taken
    have hself : (⟨m, Function.update σ.seq i c⟩ : Sequences ι α).seq i = c :=
      Function.update_self _ _ _
    have hc : c = ⟨(σ.seq i).blockTable ++ taken, (σ.seq i).seqLen + 1⟩ := by
      have hlen := hmoved.seqLen
      rw [hself] at htable hlen
      rw [← htable, ← hlen]
    have hkv : m.kv = ⟨σ.layer.kv.blockSize, m.kv.freeBlockIds⟩ := by
      rw [← hmoved.blockSize]
    have hsucc : (σ.seq i).blocksNeededFor σ.layer.kv (count + 1) =
        (σ.seq i).blocksNeededFor σ.layer.kv 1 + c.blocksNeededFor m.kv count := by
      rw [PagedKvCache.blocksNeededFor_succ hP hi.room htaken, htaken, hc, hkv]
    have hleft : c.blocksNeededFor m.kv count ≤ m.kv.freeBlockCount := by
      have hcount := congrArg List.length hfree
      rw [List.length_append, htaken] at hcount
      rw [hsucc, PagedKvStore.freeBlockCount, hcount] at hneed
      exact Nat.le_of_add_le_add_left hneed
    have hturn : ∀ {w w' : ℕ} {r : KvRows α β}, w' = w → r.len = (start + (count + 1)) * w →
        r.len = (start + 1 + count) * w' := by
      rintro w w' r rfl hr
      rw [hr, Nat.add_right_comm, Nat.add_assoc]
    obtain ⟨c', m', hrest, hmoved'⟩ := ih (start + 1) hmoved.sound (hmoved.owns i hi)
      (hturn hmoved.kWidth hk) (hturn hmoved.vWidth hv) (by rw [hself]; exact hleft)
    rw [hself] at hrest hmoved'
    refine ⟨c', m', ?_, ?_⟩
    · rw [PagedLayer.appendFrom, hpush]
      exact hrest
    · have hboth := hmoved.trans hmoved'
      have hcut : ∀ {w w' : ℕ} {r : KvRows α β}, w' = w →
          (r.slice (start * w) ((start + 1) * w)).stored convert ++
            (r.stored convert).drop ((start + 1) * w') = (r.stored convert).drop (start * w) := by
        rintro w w' r rfl
        rw [KvRows.stored_slice, List.drop_take, Nat.succ_mul, Nat.add_sub_cancel_left]
        exact List.drop_take_append_drop _ _ _
      rw [Function.update_idem, hcut hmoved.kWidth, hcut hmoved.vWidth, ← hsucc,
        Nat.add_comm 1] at hboth
      exact hboth

omit [DecidableEq ι] in
/-- A sequence within its blocks can be read. -/
theorem contiguous_isSome (hs : σ.Sound total) (hi : σ.Owns total i) :
    (σ.contiguous i).isSome := by
  have hP := hs.blockSize_pos
  have hread : ∀ pos < (σ.seq i).seqLen, ∃ row, σ.layer.read (σ.seq i) pos = some row := by
    intro pos hpos
    have hindex : pos / σ.layer.kv.blockSize < (σ.seq i).blockTable.length :=
      (Nat.div_lt_iff_lt_mul hP).mpr (Nat.lt_of_lt_of_le hpos hi.room)
    obtain ⟨row, hrow⟩ := LayerRows.rowAt_isSome hs.fits
      (hi.lt _ (List.getElem_mem hindex)) (Nat.mod_lt pos hP)
    exact ⟨row, by rw [PagedLayer.read, List.getElem?_eq_getElem hindex]; exact hrow⟩
  have hall : ∀ n ≤ (σ.seq i).seqLen,
      ((List.range n).mapM fun pos => σ.layer.read (σ.seq i) pos).isSome := by
    intro n hn
    induction n with
    | zero => rfl
    | succ n ih =>
      obtain ⟨row, hrow⟩ := hread n hn
      obtain ⟨rows, hrows⟩ := Option.isSome_iff_exists.mp (ih (Nat.le_of_succ_le hn))
      rw [List.range_succ, List.mapM_append, hrows]
      simp [hrow]
  rw [contiguous, PagedLayer.toContiguous, Option.isSome_map]
  exact hall _ (Nat.le_refl _)

omit [DecidableEq ι] in
/-- The blocks that an operation takes. -/
def blocksNeeded (σ : Sequences ι α) (op : Op ι α β) : ℕ :=
  (σ.seq op.target).blocksNeededFor σ.layer.kv op.positions

omit [DecidableEq ι] in
/-- Refused with nothing changed, or done in exactly the blocks that were counted. -/
def Atomic (convert : β → α) (σ : Sequences ι α) (op : Op ι α β)
    (result : Except PagedStoreExhausted Unit) (σ' : Sequences ι α) : Prop :=
  if σ.layer.kv.freeBlockCount < σ.blocksNeeded op then result = .error {} ∧ σ' = σ
  else result = .ok () ∧ σ.Grown op.target (σ.blocksNeeded op) op.advance (op.written convert) σ'

/-- Taking blocks changes no position. -/
theorem reserve_moved {count : ℕ} (hs : σ.Sound total) (hi : σ.Owns total i)
    (hneed : (σ.seq i).blocksNeededFor σ.layer.kv count ≤ σ.layer.kv.freeBlockCount) :
    ∃ c m, σ.layer.reserve (σ.seq i) count = (.ok (), c, m) ∧
      σ.Moved total i ((σ.seq i).blocksNeededFor σ.layer.kv count) 0 ([], [])
        ⟨m, Function.update σ.seq i c⟩ := by
  set taken := σ.layer.kv.freeBlockIds.take ((σ.seq i).blocksNeededFor σ.layer.kv count) with htaken
  set rest := σ.layer.kv.freeBlockIds.drop ((σ.seq i).blocksNeededFor σ.layer.kv count)
  set σ' : Sequences ι α := ⟨⟨⟨σ.layer.kv.blockSize, rest⟩, σ.layer.rows⟩,
    Function.update σ.seq i ⟨(σ.seq i).blockTable ++ taken, (σ.seq i).seqLen⟩⟩
  have hreserve : (σ.seq i).reserve σ.layer.kv count =
      some (⟨(σ.seq i).blockTable ++ taken, (σ.seq i).seqLen⟩, ⟨σ.layer.kv.blockSize, rest⟩) :=
    if_neg (Nat.not_lt.mpr hneed)
  have hself : σ'.seq i = ⟨(σ.seq i).blockTable ++ taken, (σ.seq i).seqLen⟩ :=
    Function.update_self _ _ _
  have helse : ∀ j ≠ i, σ'.seq j = σ.seq j := fun j hj => Function.update_of_ne hj _ _
  have hfree : σ.layer.kv.freeBlockIds = taken ++ σ'.layer.kv.freeBlockIds :=
    (List.take_append_drop _ _).symm
  have hroom : (σ.seq i).seqLen ≤
      ((σ.seq i).blockTable ++ taken).length * σ.layer.kv.blockSize := by
    rw [List.length_append, Nat.add_mul]
    exact hi.room.trans (Nat.le_add_right _ _)
  obtain ⟨hsound, howns⟩ : σ'.Sound total ∧ ∀ j, σ.Owns total j → σ'.Owns total j :=
    sound_of_grown σ' hs hfree rfl hs.fits (by rw [hself]) (by rw [hself])
      (by rw [hself]; exact hroom) helse
  refine ⟨_, _, by rw [PagedLayer.reserve, hreserve], ?_⟩
  exact {
    taken := ⟨taken, hfree, List.length_take_of_le hneed, by rw [hself]⟩
    seqLen := by rw [hself]; rfl
    own := by
      have hread : ∀ pos < (σ.seq i).seqLen,
          σ'.layer.read (σ'.seq i) pos = σ.layer.read (σ.seq i) pos := by
        intro pos hpos
        have hindex : pos / σ.layer.kv.blockSize < (σ.seq i).blockTable.length :=
          (Nat.div_lt_iff_lt_mul hs.blockSize_pos).mpr (Nat.lt_of_lt_of_le hpos hi.room)
        rw [hself, PagedLayer.read, PagedLayer.read]
        exact congrArg (· >>= _) (List.getElem?_append_left hindex)
      have hcont : σ'.contiguous i = σ.contiguous i :=
        PagedLayer.toContiguous_congr (by rw [hself]) hread
      simpa using hcont
    elsewhere := fun j hj => ⟨helse j hj, by rw [contiguous, contiguous, helse j hj]; rfl⟩
    sound := hsound
    owns := howns
    blockSize := rfl
    kWidth := rfl
    vWidth := rfl }

/-- An operation whose blocks are not free changes nothing. -/
theorem step_refused (convert : β → α) (hs : σ.Sound total)
    (hfits : op.Fits σ.layer.rows.kWidth σ.layer.rows.vWidth)
    (hlt : σ.layer.kv.freeBlockCount < σ.blocksNeeded op) :
    σ.step convert op = some (.error {}, σ) := by
  have hsame : ∀ i, σ.after i (.error {}, σ.seq i, σ.layer) = (.error {}, σ) := by
    intro i
    rw [after, Function.update_eq_self]
  cases op with
  | push i k v =>
    change _ < (σ.seq i).blocksNeededFor σ.layer.kv 1 at hlt
    rw [step, PagedLayer.pushRows_refused hs.blockSize_pos hlt, Option.map_some, hsame]
  | reserve i count =>
    have hreserve : (σ.seq i).reserve σ.layer.kv count = none := if_pos hlt
    rw [step, PagedLayer.reserve, hreserve]
    exact congrArg some (hsame i)
  | append i k v count =>
    change _ < (σ.seq i).blocksNeededFor σ.layer.kv count at hlt
    rw [Op.Fits] at hfits
    rw [step, PagedLayer.appendContiguous, if_pos hfits, if_pos hlt, Option.map_some, hsame]

/-- An operation whose blocks are free is done. -/
theorem step_moved (convert : β → α) (hs : σ.Sound total) (hi : σ.Owns total op.target)
    (hfits : op.Fits σ.layer.rows.kWidth σ.layer.rows.vWidth)
    (hle : σ.blocksNeeded op ≤ σ.layer.kv.freeBlockCount) :
    ∃ σ', σ.step convert op = some (.ok (), σ') ∧
      σ.Moved total op.target (σ.blocksNeeded op) op.advance (op.written convert) σ' := by
  cases op with
  | push i k v =>
    change σ.Owns total i at hi
    obtain ⟨c, m, hpush, hmoved⟩ := pushRows_moved convert hs hi hfits.1 hfits.2 hle
    exact ⟨_, by rw [step, hpush]; rfl, hmoved⟩
  | reserve i count =>
    change σ.Owns total i at hi
    change (σ.seq i).blocksNeededFor σ.layer.kv count ≤ _ at hle
    obtain ⟨c, m, hreserve, hmoved⟩ := reserve_moved hs hi hle
    exact ⟨_, by rw [step, hreserve]; rfl, hmoved⟩
  | append i k v count =>
    change σ.Owns total i at hi
    change (σ.seq i).blocksNeededFor σ.layer.kv count ≤ _ at hle
    rw [Op.Fits] at hfits
    obtain ⟨c, m, happend, hmoved⟩ := appendFrom_moved convert 0 hs hi
      (by rw [Nat.zero_add]; exact hfits.1) (by rw [Nat.zero_add]; exact hfits.2) hle
    refine ⟨⟨m, Function.update σ.seq i c⟩, ?_, ?_⟩
    · rw [step, PagedLayer.appendContiguous, if_pos hfits, if_neg (Nat.not_lt.mpr hle), happend]
      rfl
    · rw [Nat.zero_mul, Nat.zero_mul, List.drop_zero, List.drop_zero] at hmoved
      exact hmoved

/-- Every operation on a sequence that can be appended to is atomic. -/
theorem step_atomic (convert : β → α) (hs : σ.Sound total) (hi : σ.Owns total op.target)
    (hfits : op.Fits σ.layer.rows.kWidth σ.layer.rows.vWidth) :
    ∃ result σ', σ.step convert op = some (result, σ') ∧ σ.Atomic convert op result σ' ∧
      σ'.Sound total ∧ (∀ j, σ.Owns total j → σ'.Owns total j) ∧
      σ'.layer.rows.kWidth = σ.layer.rows.kWidth ∧ σ'.layer.rows.vWidth = σ.layer.rows.vWidth := by
  rcases Nat.lt_or_ge σ.layer.kv.freeBlockCount (σ.blocksNeeded op) with hlt | hge
  · refine ⟨_, _, step_refused convert hs hfits hlt, ?_, hs, fun j hj => hj, rfl, rfl⟩
    rw [Atomic, if_pos hlt]
    exact ⟨rfl, rfl⟩
  · obtain ⟨σ', hstep, hmoved⟩ := step_moved convert hs hi hfits hge
    refine ⟨_, _, hstep, ?_, hmoved.sound, hmoved.owns, hmoved.kWidth, hmoved.vWidth⟩
    rw [Atomic, if_neg (Nat.not_lt.mpr hge)]
    exact ⟨rfl, hmoved.toGrown⟩

/-- What a run that was answered so has put behind the rows of one sequence. -/
def appended (convert : β → α) (j : ι) :
    List (Op ι α β) → List (Except PagedStoreExhausted Unit) → List α × List α
  | op :: ops, result :: results =>
      let rest := appended convert j ops results
      match result with
      | .ok _ =>
          if op.target = j then
            ((op.written convert).1 ++ rest.1, (op.written convert).2 ++ rest.2)
          else rest
      | .error _ => rest
  | _, _ => ([], [])

/-- Whatever is asked of the sequences, every operation is atomic where it stands, and a sequence
ends with the rows it had and those of its own operations that were not refused. -/
theorem run_atomic (σ : Sequences ι α) (convert : β → α) (ops : List (Op ι α β))
    (hs : σ.Sound total)
    (hops : ∀ op ∈ ops, σ.Owns total op.target ∧
      op.Fits σ.layer.rows.kWidth σ.layer.rows.vWidth) :
    ∃ results σ', run convert ops σ = some (results, σ') ∧
      (∀ j, σ'.contiguous j = (σ.contiguous j).map fun x =>
        (x.1 ++ (appended convert j ops results).1, x.2 ++ (appended convert j ops results).2)) ∧
      ∀ before op after, ops = before ++ op :: after →
        ∃ results₁ σ₁ result σ₂, run convert before σ = some (results₁, σ₁) ∧
          (σ₁.contiguous op.target).isSome ∧ σ₁.step convert op = some (result, σ₂) ∧
          σ₁.Atomic convert op result σ₂ := by
  induction ops generalizing σ with
  | nil =>
    refine ⟨[], σ, rfl, fun j => ?_, ?_⟩
    · simp [appended]
    · rintro before op after hsplit
      cases before <;> cases hsplit
  | cons op ops ih =>
    obtain ⟨hi, hfits⟩ := hops op List.mem_cons_self
    obtain ⟨result, σ₁, hstep, hatomic, hs₁, howns, hk, hv⟩ := step_atomic convert hs hi hfits
    obtain ⟨results, σ', hrun, hcont, hall⟩ := ih σ₁ hs₁ (by
      intro op' hop'
      obtain ⟨hi', hfits'⟩ := hops op' (List.mem_cons_of_mem _ hop')
      rw [hk, hv]
      exact ⟨howns _ hi', hfits'⟩)
    refine ⟨result :: results, σ', by rw [run, hstep]; simp [hrun], fun j => ?_, ?_⟩
    · rw [hcont j]
      unfold Atomic at hatomic
      split at hatomic
      · obtain ⟨rfl, rfl⟩ := hatomic
        rfl
      · obtain ⟨rfl, hgrown⟩ := hatomic
        rw [appended]
        by_cases hj : op.target = j
        · subst hj
          rw [hgrown.own, Option.map_map]
          simp [Function.comp_def]
        · rw [(hgrown.elsewhere j (Ne.symm hj)).2, if_neg hj]
    · rintro before op' after hsplit
      cases before with
      | nil =>
        cases hsplit
        exact ⟨[], σ, result, σ₁, rfl, contiguous_isSome hs hi, hstep, hatomic⟩
      | cons op₀ before =>
        cases hsplit
        obtain ⟨results₁, σ₂, result', σ₃, hbefore, hrest⟩ := hall before op' after rfl
        exact ⟨result :: results₁, σ₂, result', σ₃, by rw [run, hstep]; simp [hbefore], hrest⟩

section Witness

/-- Three blocks of two positions, keys of one element and values of two. -/
def blank : Sequences Bool ℕ where
  layer := ⟨⟨2, [0, 1, 2]⟩, .zeroed 0 2 3 1 2⟩
  seq _ := .new

/-- Two blocks are reserved for one sequence, the other takes the third and is then refused. -/
def requests : List (Op Bool ℕ ℕ) :=
  [.reserve false 3, .append true (.same [1, 2]) (.other [3, 4, 5, 6]) 2,
    .push false (.same [7]) (.same [8, 9]), .append true (.same [5]) (.same [5, 5]) 1]

theorem blank_sound : blank.Sound 3 where
  blockSize_pos := by decide
  fits := ⟨by decide, by decide⟩
  free_nodup := by decide
  free_lt := by decide
  live _ b hb := by cases hb

theorem blank_owns (i : Bool) : blank.Owns 3 i where
  nodup := List.nodup_nil
  lt b hb := by cases hb
  room := Nat.le_refl _
  apart j _ b _ hb := by cases hb

theorem run_atomic_requests : ∃ σ' : Sequences Bool ℕ,
    run (· * 10) requests blank = some ([.ok (), .ok (), .ok (), .error {}], σ') ∧
      σ'.contiguous true = some ([1, 2], [30, 40, 50, 60]) ∧
      σ'.contiguous false = some ([7], [8, 9]) := by
  obtain ⟨results, σ', hrun, hcont, -⟩ := run_atomic blank (· * 10) requests blank_sound (by
    intro op hop
    refine ⟨blank_owns _, ?_⟩
    simp only [requests, List.mem_cons, List.not_mem_nil, or_false] at hop
    rcases hop with rfl | rfl | rfl | rfl <;> simp [Op.Fits, KvRows.len, blank, LayerRows.zeroed])
  have hresults : (run (· * 10) requests blank).map Prod.fst =
      some [.ok (), .ok (), .ok (), .error {}] := by decide +kernel
  rw [hrun] at hresults
  obtain rfl : results = _ := Option.some.inj hresults
  exact ⟨σ', hrun, by rw [hcont]; decide +kernel, by rw [hcont]; decide +kernel⟩

end Witness

end Sequences

end Frink.Paged
