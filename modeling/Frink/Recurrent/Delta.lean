import Mathlib

/-! # The gated delta rule, row by row and in chunks

A value head keeps a square state. A token decays it, moves it towards the token's value along its
key, and reads it with its query. A chunk of tokens is taken at once: the updates are solved for by
forward substitution against the state of before, which is rewritten once. Arithmetic is exact.
-/

namespace Frink.Recurrent

variable {K : Type} [CommRing K] [DecidableEq K] {s : ℕ}

/-- Which key head a value head reads. -/
inductive HeadMap where
  | tiled
  | grouped

def HeadMap.kHead (map : HeadMap) (vHead nKHeads nVHeads : ℕ) : ℕ :=
  match map with
  | tiled => vHead % nKHeads
  | grouped => vHead / (nVHeads / nKHeads)

structure DeltaDims where

  nKHeads : ℕ

  nVHeads : ℕ

  headDim : ℕ

  map : HeadMap

/-- The operands of one token, by head. -/
structure DeltaRow (K : Type) (s : ℕ) where

  q : ℕ → Fin s → K

  k : ℕ → Fin s → K

  v : ℕ → Fin s → K

  g : ℕ → K

  beta : ℕ → K

/-- What one value head reads of a token. -/
structure HeadRow (K : Type) (s : ℕ) where

  q : Fin s → K

  k : Fin s → K

  v : Fin s → K

  decay : K

  beta : K

def DeltaRow.head (x : DeltaRow K s) (dims : DeltaDims) (exp : K → K) (h : ℕ) : HeadRow K s :=
  let kh := dims.map.kHead h dims.nKHeads dims.nVHeads
  ⟨x.q kh, x.k kh, x.v h, exp (x.g h), x.beta h⟩

/-- The state of a head, by rows. -/
abbrev HeadState (K : Type) (s : ℕ) := Fin s → Fin s → K

section Heads

variable (scale : K) (x : ℕ → HeadRow K s) (st : HeadState K s)

/-- One token through one head. -/
def HeadRow.step (x : HeadRow K s) : HeadState K s × (Fin s → K) :=
  let decayed : HeadState K s := fun j => x.decay • st j
  let d : Fin s → K := fun j => (x.v j - decayed j ⬝ᵥ x.k) * x.beta
  let updated : HeadState K s := fun j => decayed j + d j • x.k
  (updated, fun j => (updated j ⬝ᵥ x.q) * scale)

/-- The state after so many tokens. -/
def stateAt : ℕ → HeadState K s
  | 0 => st
  | t + 1 => ((x t).step scale (stateAt t)).1

def outAt (t : ℕ) : Fin s → K := ((x t).step scale (stateAt scale x st t)).2

/-- `R[t][t - n]`, the decays of the last `n` tokens up to `t`. -/
def ratio (t : ℕ) : ℕ → K
  | 0 => 1
  | n + 1 => ratio t n * (x (t - n)).decay

/-- The decays of all tokens up to `t`. -/
def decays : ℕ → K
  | 0 => (x 0).decay
  | t + 1 => decays t * (x (t + 1)).decay

/-- What the state holds against `y` before the update of token `t`, given the updates before. -/
def against (d : ℕ → Fin s → K) (t : ℕ) (y : Fin s → K) (j : Fin s) : K :=
  decays x t * (st j ⬝ᵥ y) +
    ∑ u ∈ Finset.range t, ratio x t (t - u) * (y ⬝ᵥ (x u).k) * d u j

/-- The updates of the first so many tokens, solved for in order. -/
def updates : ℕ → ℕ → Fin s → K
  | 0 => fun _ _ => 0
  | t + 1 =>
      let d := updates t
      Function.update d t fun j => (x t).beta * ((x t).v j - against x st d t (x t).k j)

def chunkOut (d : ℕ → Fin s → K) (t : ℕ) (j : Fin s) : K :=
  (against x st d t (x t).q j + ((x t).q ⬝ᵥ (x t).k) * d t j) * scale

/-- The state, updated once for all `c` tokens; an update of weight zero is left out. -/
def chunkState (d : ℕ → Fin s → K) (c : ℕ) (j : Fin s) : Fin s → K :=
  decays x (c - 1) • st j + ∑ t ∈ Finset.range c,
    let w := ratio x (c - 1) (c - 1 - t) * d t j
    if w = 0 then 0 else w • (x t).k

end Heads

def CHUNK : ℕ := 32

/-- One head from the token `start` on, with what has been written so far. -/
def headChunks (scale : K) (x : ℕ → HeadRow K s) (rows start : ℕ) (st : HeadState K s)
    (out : ℕ → Fin s → K) : HeadState K s × (ℕ → Fin s → K) :=
  if start < rows then
    let c := min CHUNK (rows - start)
    let y := fun t => x (start + t)
    let d := updates y st c
    headChunks scale x rows (start + c) (chunkState y st d c) fun t =>
      if start ≤ t ∧ t < start + c then chunkOut scale y st d (t - start) else out t
  else (st, out)
termination_by rows - start
decreasing_by
  unfold CHUNK
  omega

section Calls

variable (dims : DeltaDims) (exp : K → K) (scale : K)

/-- One token through every head. -/
def deltaStep (state : Fin dims.nVHeads → HeadState K s) (x : DeltaRow K s) :
    (Fin dims.nVHeads → HeadState K s) × (Fin dims.nVHeads → Fin s → K) :=
  (fun h => ((x.head dims exp h).step scale (state h)).1,
    fun h => ((x.head dims exp h).step scale (state h)).2)

/-- A call of `deltaStep` for each token, each with the state the one before left. -/
def deltaSteps (x : ℕ → DeltaRow K s) (state : Fin dims.nVHeads → HeadState K s) :
    ℕ → (Fin dims.nVHeads → HeadState K s) × (ℕ → Fin dims.nVHeads → Fin s → K)
  | 0 => (state, fun _ _ _ => 0)
  | t + 1 =>
      let done := deltaSteps x state t
      let next := deltaStep dims exp scale done.1 (x t)
      (next.1, Function.update done.2 t next.2)

/-- All tokens through every head, in chunks. -/
def deltaChunk (rows : ℕ) (x : ℕ → DeltaRow K s) (state : Fin dims.nVHeads → HeadState K s) :
    (Fin dims.nVHeads → HeadState K s) × (ℕ → Fin dims.nVHeads → Fin s → K) :=
  let done := fun h : Fin dims.nVHeads =>
    headChunks scale (fun t => (x t).head dims exp h) rows 0 (state h) fun _ _ => 0
  (fun h => (done h).1, fun t h => (done h).2 t)

end Calls

section Chunk

variable {scale : K} {x : ℕ → HeadRow K s} {st : HeadState K s} {d : ℕ → Fin s → K} {t u c : ℕ}
  {j : Fin s} {y : Fin s → K}

omit [DecidableEq K] in
theorem ratio_succ (n : ℕ) : ratio x (t + 1) (n + 1) = ratio x t n * (x (t + 1)).decay := by
  induction n with
  | zero => simp [ratio]
  | succ n ih =>
    rw [ratio, ih, ratio, Nat.add_sub_add_right]
    ring

/-- The decayed state of before token `t`, by the state of before the chunk. -/
def carried (x : ℕ → HeadRow K s) (st : HeadState K s) (d : ℕ → Fin s → K) (t : ℕ) (j : Fin s) :
    Fin s → K :=
  decays x t • st j + ∑ u ∈ Finset.range t, (ratio x t (t - u) * d u j) • (x u).k

omit [DecidableEq K] in
theorem carried_succ :
    (x (t + 1)).decay • (carried x st d t j + d t j • (x t).k) = carried x st d (t + 1) j := by
  have hlast : ratio x (t + 1) (t + 1 - t) = (x (t + 1)).decay := by
    rw [Nat.add_sub_cancel_left, ratio_succ, ratio, one_mul]
  have hearlier : ∀ u ∈ Finset.range t, (ratio x (t + 1) (t + 1 - u) * d u j) • (x u).k =
      (x (t + 1)).decay • (ratio x t (t - u) * d u j) • (x u).k := by
    intro u hu
    rw [Nat.succ_sub (Finset.mem_range.mp hu).le, Nat.succ_eq_add_one, ratio_succ, smul_smul]
    congr 1
    ring
  rw [carried, carried, Finset.sum_range_succ, hlast, Finset.sum_congr rfl hearlier,
    ← Finset.smul_sum, decays, smul_add, smul_add, smul_smul, smul_smul, mul_comm (decays x t),
    add_assoc]

omit [DecidableEq K] in
theorem carried_dotProduct : carried x st d t j ⬝ᵥ y = against x st d t y j := by
  rw [carried, against, add_dotProduct, smul_dotProduct, smul_eq_mul, sum_dotProduct]
  congr 1
  apply Finset.sum_congr rfl
  intro u _
  rw [smul_dotProduct, smul_eq_mul, dotProduct_comm]
  ring

omit [DecidableEq K] in
theorem carried_congr {d' : ℕ → Fin s → K} (h : ∀ u < t, d u = d' u) :
    carried x st d t j = carried x st d' t j := by
  rw [carried, carried]
  congr 1
  apply Finset.sum_congr rfl
  intro u hu
  rw [h u (Finset.mem_range.mp hu)]

omit [DecidableEq K] in
/-- A later round leaves an update alone. -/
theorem updates_eq (h : u < t) : updates x st t u = updates x st (u + 1) u := by
  induction t with
  | zero => cases h
  | succ t ih =>
    rcases Nat.lt_succ_iff_lt_or_eq.mp h with hlt | rfl
    · rw [updates, Function.update_of_ne hlt.ne, ih hlt]
    · rfl

omit [DecidableEq K] in
theorem stateAt_succ_of_decayed (h : t < c)
    (hdecayed : (fun j => (x t).decay • stateAt scale x st t j) =
      carried x st (updates x st c) t) :
    stateAt scale x st (t + 1) = fun j =>
      carried x st (updates x st c) t j + updates x st c t j • (x t).k := by
  funext j
  have hearlier : ∀ u < t, updates x st t u = updates x st c u :=
    fun u hu => (updates_eq hu).trans (updates_eq (hu.trans h)).symm
  have hsolved : updates x st c t j =
      (x t).beta * ((x t).v j - carried x st (updates x st c) t j ⬝ᵥ (x t).k) := by
    rw [updates_eq h, updates, Function.update_self, ← carried_dotProduct, carried_congr hearlier]
  rw [hsolved, ← congrFun hdecayed j, mul_comm]
  rfl

omit [DecidableEq K] in
/-- The invariant of the chunk: what is solved for are the updates of the tokens one by one. -/
theorem decayed_stateAt (h : t < c) :
    (fun j => (x t).decay • stateAt scale x st t j) = carried x st (updates x st c) t := by
  induction t with
  | zero =>
    funext j
    simp [carried, decays, stateAt]
  | succ t ih =>
    have hlt : t < c := Nat.lt_of_succ_lt h
    rw [stateAt_succ_of_decayed hlt (ih hlt)]
    funext j
    exact carried_succ

omit [DecidableEq K] in
theorem stateAt_succ (h : t < c) : stateAt scale x st (t + 1) = fun j =>
    carried x st (updates x st c) t j + updates x st c t j • (x t).k :=
  stateAt_succ_of_decayed h (decayed_stateAt h)

omit [DecidableEq K] in
theorem chunkOut_eq (h : t < c) :
    chunkOut scale x st (updates x st c) t = outAt scale x st t := by
  ext j
  change _ = (stateAt scale x st (t + 1) j ⬝ᵥ (x t).q) * scale
  rw [stateAt_succ h, add_dotProduct, carried_dotProduct, smul_dotProduct, smul_eq_mul,
    dotProduct_comm (x t).k, chunkOut, mul_comm (updates x st c t j)]

theorem chunkState_eq (h : 0 < c) :
    chunkState x st (updates x st c) c = stateAt scale x st c := by
  obtain ⟨t, rfl⟩ := Nat.exists_eq_add_one.mpr h
  rw [stateAt_succ (Nat.lt_succ_self t)]
  funext j
  have hkept : ∀ w : K, ∀ k : Fin s → K, (if w = 0 then 0 else w • k) = w • k := by
    intro w k
    split
    · rename_i hw
      rw [hw, zero_smul]
    · rfl
  simp only [chunkState, carried, hkept, Nat.add_sub_cancel]
  rw [Finset.sum_range_succ, Nat.sub_self, ratio, one_mul, add_assoc]

end Chunk

section Rows

variable {scale : K} {x : ℕ → HeadRow K s} {st : HeadState K s} {rows start : ℕ}
  {out : ℕ → Fin s → K}

omit [DecidableEq K] in
theorem stateAt_add (start t : ℕ) :
    stateAt scale (fun t => x (start + t)) (stateAt scale x st start) t =
      stateAt scale x st (start + t) := by
  induction t with
  | zero => rfl
  | succ t ih => rw [stateAt, ih, ← Nat.add_assoc, stateAt]

/-- From any token on, the chunks leave what the tokens one by one leave. -/
theorem headChunks_eq (h : start ≤ rows) :
    headChunks scale x rows start (stateAt scale x st start) out =
      (stateAt scale x st rows,
        fun t => if start ≤ t ∧ t < rows then outAt scale x st t else out t) := by
  induction hn : rows - start using Nat.strong_induction_on generalizing start out with
  | _ n ih =>
    subst hn
    rw [headChunks]
    split
    · rename_i hlt
      have hpos : 0 < min CHUNK (rows - start) := lt_min (by decide) (by omega)
      have hle := Nat.min_le_right CHUNK (rows - start)
      dsimp only
      rw [chunkState_eq hpos, stateAt_add, ih _ (by omega) (by omega) rfl]
      congr 1
      funext t
      by_cases hin : start ≤ t ∧ t < start + min CHUNK (rows - start)
      · rw [if_neg (by omega), if_pos hin, if_pos (by omega), chunkOut_eq (by omega), outAt,
          stateAt_add, Nat.add_sub_cancel' hin.1]
        rfl
      · rw [if_neg hin]
        congr 1
        exact propext (by omega)
    · obtain rfl : start = rows := by omega
      congr 1
      funext t
      rw [if_neg (by omega)]

end Rows

section Calls

variable {dims : DeltaDims} {exp : K → K} {scale : K} {x : ℕ → DeltaRow K s}
  {state : Fin dims.nVHeads → HeadState K s}

omit [DecidableEq K] in
theorem deltaSteps_eq (n : ℕ) : deltaSteps dims exp scale x state n =
    (fun h : Fin dims.nVHeads => stateAt scale (fun t => (x t).head dims exp h) (state h) n,
      fun t (h : Fin dims.nVHeads) =>
        if t < n then outAt scale (fun t => (x t).head dims exp h) (state h) t
        else fun _ => 0) := by
  induction n with
  | zero => rfl
  | succ n ih =>
    rw [deltaSteps, ih]
    congr 1
    funext t h
    dsimp only
    by_cases ht : t = n
    · subst ht
      simp [deltaStep, outAt]
    · rw [Function.update_of_ne ht]
      congr 1
      exact propext (by omega)

/-- Taking tokens in chunks changes nothing: any number of tokens, through any number of heads,
leaves the state and the outputs that a step for each token leaves. -/
theorem deltaChunk_eq_deltaSteps (rows : ℕ) :
    deltaChunk dims exp scale rows x state = deltaSteps dims exp scale x state rows := by
  have hheads : ∀ h : Fin dims.nVHeads,
      headChunks scale (fun t => (x t).head dims exp h) rows 0 (state h) (fun _ _ => 0) = _ :=
    fun h => headChunks_eq (Nat.zero_le rows)
  rw [deltaSteps_eq, deltaChunk]
  simp only [hheads, Nat.zero_le, true_and]

end Calls

end Frink.Recurrent
