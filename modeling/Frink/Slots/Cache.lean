import Frink.KvDisk.RoundTrip
import Frink.Kv.Window

/-! # Layer caches that are written and rebuilt

A layer's cache as a slot holds it: flat buffers of 32 or 16 bit elements, pushed
a row at a time in single precision. The conversions between half and single
precision are parameters.
-/

namespace Frink

/-- The half precision conversions: what a half widens to, and what a single narrows to. -/
structure HalfConversion where

  widen : BitVec 16 → BitVec 32
  narrow : BitVec 32 → BitVec 16

/-- Widening a half and narrowing it again gives it back. -/
def HalfConversion.Exact (half : HalfConversion) : Prop := ∀ x, half.narrow (half.widen x) = x

namespace KvDisk.KvBuf

variable (half : HalfConversion)

def toF32Vec : KvBuf → List (BitVec 32)
  | F32 v => v
  | F16 v => v.map half.widen

def extendFromF32 : KvBuf → List (BitVec 32) → KvBuf
  | F32 v, src => F32 (v ++ src)
  | F16 v, src => F16 (v ++ src.map half.narrow)

def truncate : KvBuf → ℕ → KvBuf
  | F32 v, elems => F32 (v.take elems)
  | F16 v, elems => F16 (v.take elems)

variable {half} (buf : KvBuf)

@[simp] theorem length_toF32Vec : (buf.toF32Vec half).length = buf.len := by
  cases buf <;> simp [toF32Vec, len]

@[simp] theorem dtype_extendFromF32 (src : List (BitVec 32)) :
    (buf.extendFromF32 half src).dtype = buf.dtype := by
  cases buf <;> rfl

@[simp] theorem len_extendFromF32 (src : List (BitVec 32)) :
    (buf.extendFromF32 half src).len = buf.len + src.length := by
  cases buf <;> simp [extendFromF32, len]

@[simp] theorem dtype_truncate (elems : ℕ) : (buf.truncate elems).dtype = buf.dtype := by
  cases buf <;> rfl

@[simp] theorem len_truncate (elems : ℕ) : (buf.truncate elems).len = min elems buf.len := by
  cases buf <;> simp [truncate, len]

theorem extendFromF32_append (xs ys : List (BitVec 32)) :
    (buf.extendFromF32 half xs).extendFromF32 half ys = buf.extendFromF32 half (xs ++ ys) := by
  cases buf <;> simp [extendFromF32]

theorem extendFromF32_nil : buf.extendFromF32 half [] = buf := by
  cases buf <;> simp [extendFromF32]

/-- An empty buffer that is given what a buffer widens to is that buffer. -/
theorem extendFromF32_toF32Vec (h : half.Exact) :
    (KvBuf.new buf.dtype).extendFromF32 half (buf.toF32Vec half) = buf := by
  cases buf with
  | F32 v => rfl
  | F16 v => simp [KvBuf.new, dtype, toF32Vec, extendFromF32, Function.comp_def, h _]

end KvDisk.KvBuf

namespace Slots

open Codec Guarded
open KvDisk (KvDtype KvBuf)

/-- One layer's cache, with the window it may evict behind. -/
structure KvCache (ρ : Type) extends KvDisk.KvCache ρ where

  window : Option Kv.KvWindow

namespace KvCache

variable {ρ ε : Type} (half : HalfConversion) (c : KvCache ρ)

def dtype : KvDtype := c.k.dtype

def kWidth : ℕ := c.nKvHeads * c.headDim

def vWidth : ℕ := c.nKvHeads * c.vHeadDim

def rows : ℕ := if c.kWidth = 0 then 0 else c.k.len / c.kWidth

def new (nKvHeads headDim : ℕ) : KvCache ρ where
  nKvHeads := nKvHeads
  headDim := headDim
  vHeadDim := headDim
  k := .new .F32
  v := .new .F32
  positions := 0
  recurrent := none
  same_dtype := rfl
  window := none

/-- The same cache with elements of another type, before it holds any. -/
def withDtype (dtype : KvDtype) : Result ε (KvCache ρ) := do
  asserting (c.k.len = 0 ∧ c.v.len = 0)
  .ok { c with
    k := if c.k.dtype = dtype then c.k else .new dtype
    v := if c.k.dtype = dtype then c.v else .new dtype
    same_dtype := by
      split
      · exact c.same_dtype
      · rfl }

/-- The cache with `n` positions more. -/
def extended (ks vs : List (BitVec 32)) (n : ℕ) : KvCache ρ :=
  { c with
    k := c.k.extendFromF32 half ks
    v := c.v.extendFromF32 half vs
    positions := c.positions + n
    same_dtype := by
      rw [KvBuf.dtype_extendFromF32, KvBuf.dtype_extendFromF32]
      exact c.same_dtype }

/-- Append one position's rows, to a cache that draws from no pool. -/
def push (kStep vStep : List (BitVec 32)) : Result ε (KvCache ρ) := do
  asserting (kStep.length = c.kWidth)
  asserting (vStep.length = c.vWidth)
  .ok (c.extended half kStep vStep 1)

def canTruncateTo (newSeqLen : ℕ) : Bool :=
  if c.positions < newSeqLen then false
  else
    let recurrentOk := c.recurrent.isNone || newSeqLen == 0 || newSeqLen == c.positions
    let dropped := c.positions - newSeqLen
    let windowOk := match c.window with
      | none => true
      | some w => decide (dropped ≤ c.rows) &&
          (newSeqLen == 0 || decide (w.rowsNeededAt newSeqLen ≤ c.rows - dropped))
    recurrentOk && windowOk

/-- What a rollback to `newSeqLen` positions leaves. -/
def truncated (newSeqLen : ℕ) : KvCache ρ :=
  let keepRows := c.rows - (c.positions - newSeqLen)
  { c with
    k := c.k.truncate (keepRows * c.kWidth)
    v := c.v.truncate (keepRows * c.vWidth)
    positions := newSeqLen
    recurrent := if newSeqLen = 0 then none else c.recurrent
    same_dtype := by
      rw [KvBuf.dtype_truncate, KvBuf.dtype_truncate]
      exact c.same_dtype }

def truncate (newSeqLen : ℕ) : Result ε (KvCache ρ) := do
  asserting (newSeqLen ≤ c.positions)
  asserting (c.canTruncateTo newSeqLen = true)
  .ok (c.truncated newSeqLen)

/-- Every position has its K row and its V row, and nothing bounds the way back. -/
structure Resident (c : KvCache ρ) : Prop where

  k_len : c.k.len = c.positions * c.kWidth
  v_len : c.v.len = c.positions * c.vWidth
  kWidth_pos : 0 < c.kWidth
  window : c.window = none
  attention : c.recurrent = none

variable {half} {c}

theorem push_ok {kStep vStep : List (BitVec 32)} (hk : kStep.length = c.kWidth)
    (hv : vStep.length = c.vWidth) :
    (c.push half kStep vStep : Result ε _) = .ok (c.extended half kStep vStep 1) := by
  rw [push, asserting, if_pos hk, asserting, if_pos hv]
  rfl

theorem extended_extended (ks vs ks' vs' : List (BitVec 32)) (m n : ℕ) :
    (c.extended half ks vs m).extended half ks' vs' n =
      c.extended half (ks ++ ks') (vs ++ vs') (m + n) := by
  simp [extended, KvBuf.extendFromF32_append, Nat.add_assoc]

theorem extended_nil : c.extended half [] [] 0 = c := by
  simp [extended, KvBuf.extendFromF32_nil]

theorem Resident.rows_eq (h : c.Resident) : c.rows = c.positions := by
  rw [rows, if_neg h.kWidth_pos.ne', h.k_len, Nat.mul_div_cancel _ h.kWidth_pos]

theorem Resident.canTruncateTo (h : c.Resident) {n : ℕ} (hn : n ≤ c.positions) :
    c.canTruncateTo n = true := by
  simp [KvCache.canTruncateTo, Nat.not_lt.mpr hn, h.window, h.attention]

theorem canTruncateTo_le {n : ℕ} (h : c.canTruncateTo n = true) : n ≤ c.positions := by
  by_contra hn
  rw [KvCache.canTruncateTo, if_pos (Nat.not_le.mp hn)] at h
  cases h

theorem truncate_ok {n : ℕ} (h : c.canTruncateTo n = true) :
    (c.truncate n : Result ε _) = .ok (c.truncated n) := by
  rw [KvCache.truncate, asserting, if_pos (canTruncateTo_le h), asserting, if_pos h]
  rfl

/-- A cache that holds every position holds every position it is rolled back to. -/
theorem Resident.truncated (h : c.Resident) {n : ℕ} (hn : n ≤ c.positions) :
    (c.truncated n).Resident := by
  have hkeep : c.rows - (c.positions - n) = n := by
    rw [h.rows_eq]
    omega
  constructor
  · show (c.k.truncate _).len = n * c.kWidth
    rw [KvBuf.len_truncate, hkeep, h.k_len]
    exact Nat.min_eq_left (Nat.mul_le_mul_right _ hn)
  · show (c.v.truncate _).len = n * c.vWidth
    rw [KvBuf.len_truncate, hkeep, h.v_len]
    exact Nat.min_eq_left (Nat.mul_le_mul_right _ hn)
  · exact h.kWidth_pos
  · exact h.window
  · show (if n = 0 then none else c.recurrent) = none
    rw [h.attention, ite_self]

end KvCache

end Slots

end Frink
