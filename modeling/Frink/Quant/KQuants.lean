import Mathlib
import Frink.Library.Codec
import Frink.Library.Nearest
import Frink.Library.Table

/-! # The super-blocks of Q4_K, Q5_K and Q6_K

What an encoder writes for 256 values once the iterative fits have given scales, minima and
provisional codes, and what the decoder reads. Arithmetic is exact; a half-precision number is
its sixteen bits, with the conversions as parameters.
-/

namespace Frink.Quant

open Codec Nearest Table

/-- Half precision. -/
structure Half where
  toF32 : BitVec 16 → ℚ
  fromF32 : ℚ → BitVec 16
  zero : toF32 0 = 0

def toLeBytes (x : BitVec 16) : List UInt8 := leBytes 2 x.toNat

def fromLeBytes (bytes : List UInt8) : BitVec 16 := BitVec.ofNat 16 (fromLe bytes)

def nearestInt (x : ℚ) : ℤ := roundHalfEven x

def QK_SUBS : ℕ := 8

def Q4_K_SCALE_BYTES : ℕ := 12

def Q4_K_BLOCK_BYTES : ℕ := 144

def Q5_K_BLOCK_BYTES : ℕ := 176

def Q6_K_BLOCK_BYTES : ℕ := 210

def GROUP_MAX_EPS : ℚ := 1 / 10 ^ 15

def byteAt (bytes : List UInt8) (i : ℕ) : UInt8 := bytes.getD i 0

structure QkFit where
  nmax : ℕ
  imatrixClampsScaleCodes : Bool

def Q4_K_FIT : QkFit := ⟨15, false⟩

def Q5_K_FIT : QkFit := ⟨31, true⟩

/-- What the fits of the eight sub-blocks leave: scales, minima, and codes in their range. -/
structure SubBlockFits (nmax : ℕ) where
  scales : ℕ → ℚ
  mins : ℕ → ℚ
  l : ℕ → UInt8
  le : ∀ i, (l i).toNat ≤ nmax

/-- The weighted fit of the scales and of the minima. -/
structure QpQuants where
  dBlock : ℚ
  mBlock : ℚ
  ls : ℕ → UInt8
  lm : ℕ → UInt8

structure QkSuperBlock where
  d : BitVec 16
  dmin : BitVec 16
  packed : List UInt8
  l : ℕ → UInt8

/-- The scale and the minimum of a sub-block, six bits each. -/
def q4KScaleMin (j : ℕ) (scales : List UInt8) : UInt8 × UInt8 :=
  if j < 4 then (byteAt scales j &&& (63 : UInt8), byteAt scales (j + 4) &&& (63 : UInt8))
  else
    ((byteAt scales (j + 4) &&& (0x0F : UInt8)) ||| ((byteAt scales (j - 4) >>> 6) <<< 4),
      (byteAt scales (j + 4) >>> 4) ||| ((byteAt scales j >>> 6) <<< 4))

/-- A code past six bits spills into the scale of another sub-block. -/
def packScaleMin (packed : List UInt8) (j : ℕ) (ls lm : UInt8) : List UInt8 :=
  if j < 4 then (packed.set j ls).set (j + 4) lm
  else
    let packed := packed.set (j + 4) ((ls &&& (0xF : UInt8)) ||| ((lm &&& (0xF : UInt8)) <<< 4))
    let packed := packed.set (j - 4) (byteAt packed (j - 4) ||| ((ls >>> 4) <<< 6))
    packed.set j (byteAt packed j ||| ((lm >>> 4) <<< 6))

def packAll (ls lm : ℕ → UInt8) : List UInt8 :=
  (List.range QK_SUBS).foldl (fun packed j => packScaleMin packed j (ls j) (lm j))
    (List.replicate Q4_K_SCALE_BYTES 0)

def maxOf (xs : ℕ → ℚ) : ℚ :=
  (List.range QK_SUBS).foldl (fun best j => if best < xs j then xs j else best) 0

/-- Sixty-three levels up to the largest; the narrowing comes before the clamp. -/
def levelCode (largest x : ℚ) : UInt8 :=
  let inv := if 0 < largest then 63 / largest else 0
  min (UInt8.ofInt (nearestInt (inv * x))) 63

/-- The super-scales and the packed codes of the scales and minima. -/
def fitScales (half : Half) (fit : QkFit) (one : SubBlockFits fit.nmax) (qp : Option QpQuants) :
    BitVec 16 × BitVec 16 × List UInt8 :=
  match qp with
  | none =>
      (half.fromF32 (maxOf one.scales / 63), half.fromF32 (maxOf one.mins / 63),
        packAll (fun j => levelCode (maxOf one.scales) (one.scales j))
          (fun j => levelCode (maxOf one.mins) (one.mins j)))
  | some qp =>
      let clampCode (code : UInt8) := if fit.imatrixClampsScaleCodes then min code 63 else code
      (half.fromF32 qp.dBlock, half.fromF32 qp.mBlock,
        packAll (fun j => clampCode (qp.ls j)) (fun j => clampCode (qp.lm j)))

/-- The codes are found again against the packed scales; where a scale is zero those of the fit
stay. -/
def fitQkSuperBlock (half : Half) (fit : QkFit) (block : ℕ → ℚ) (one : SubBlockFits fit.nmax)
    (qp : Option QpQuants) : QkSuperBlock :=
  let (d, dmin, packed) := fitScales half fit one qp
  let l (i : ℕ) : UInt8 :=
    let (sc, m) := q4KScaleMin (i / 32) packed
    let dj := half.toF32 d * sc.toNat
    if dj = 0 then one.l i
    else
      let dm := half.toF32 dmin * m.toNat
      UInt8.ofInt (clamp 0 fit.nmax (nearestInt ((block i + dm) / dj)))
  { d, dmin, packed, l }

def q4KNibbles (l : ℕ → UInt8) : List UInt8 :=
  (List.range 4).flatMap fun g => table 32 fun i => l (64 * g + i) ||| (l (64 * g + i + 32) <<< 4)

def encodeBlockQ4K (half : Half) (block : ℕ → ℚ) (one : SubBlockFits Q4_K_FIT.nmax)
    (qp : Option QpQuants) (out : List UInt8) : List UInt8 :=
  let fitted := fitQkSuperBlock half Q4_K_FIT block one qp
  out ++ toLeBytes fitted.d ++ toLeBytes fitted.dmin ++ fitted.packed ++ q4KNibbles fitted.l

/-- The low four bits of a code of five. -/
def lowNibble (l : UInt8) : UInt8 := if 15 < l then l - 16 else l

def q5KNibbles (l : ℕ → UInt8) : List UInt8 :=
  (List.range 4).flatMap fun g => table 32 fun j =>
    lowNibble (l (64 * g + j)) ||| (lowNibble (l (64 * g + j + 32)) <<< 4)

/-- The fifth bits, two for each group of 64; the masks move up by two from group to group. -/
def q5KHighBits (l : ℕ → UInt8) : List UInt8 :=
  table 32 fun j => ((List.range 4).foldl (fun (acc : UInt8 × UInt8 × UInt8) g =>
    let (qh, m1, m2) := acc
    let qh := if 15 < l (64 * g + j) then qh ||| m1 else qh
    let qh := if 15 < l (64 * g + j + 32) then qh ||| m2 else qh
    (qh, m1 <<< 2, m2 <<< 2)) (0, 1, 2)).1

def encodeBlockQ5K (half : Half) (block : ℕ → ℚ) (one : SubBlockFits Q5_K_FIT.nmax)
    (qp : Option QpQuants) (out : List UInt8) : List UInt8 :=
  let fitted := fitQkSuperBlock half Q5_K_FIT block one qp
  out ++ toLeBytes fitted.d ++ toLeBytes fitted.dmin ++ fitted.packed ++ q5KHighBits fitted.l ++
    q5KNibbles fitted.l

/-- What the fits of the sixteen groups leave. -/
structure GroupFits where
  scales : ℕ → ℚ
  l : ℕ → Int8
  nonneg : ∀ i, 0 ≤ (l i).toInt
  le : ∀ i, (l i).toInt ≤ 63

structure Q6SuperBlock where
  d : BitVec 16
  qscales : ℕ → Int8
  l : ℕ → Int8

/-- The scale that is largest in absolute value. -/
def extremeOf (scales : ℕ → ℚ) : ℚ :=
  (List.range 16).foldl (fun best j => if |best| < |scales j| then scales j else best) 0

/-- `none` for a block whose scales are all next to zero. -/
def fitQ6SuperBlock (half : Half) (block : ℕ → ℚ) (one : GroupFits) : Option Q6SuperBlock :=
  let maxScale := extremeOf one.scales
  if |maxScale| < GROUP_MAX_EPS then none
  else
    let iscale := -128 / maxScale
    let d := half.fromF32 (1 / iscale)
    let qscales (j : ℕ) : Int8 := Int8.ofInt (min (nearestInt (iscale * one.scales j)) 127)
    let l (i : ℕ) : Int8 :=
      let dj := half.toF32 d * (qscales (i / 16)).toInt
      if dj = 0 then one.l i
      else Int8.ofInt (clamp (-32) 31 (nearestInt (block i / dj)) + 32)
    some { d, qscales, l }

def q6KLow (l : ℕ → Int8) : List UInt8 :=
  (List.range 2).flatMap fun h =>
    (table 32 fun i => (l (128 * h + i) &&& 0xF).toUInt8 |||
      ((l (128 * h + i + 64) &&& (0xF : Int8)).toUInt8 <<< 4)) ++
    table 32 fun i => (l (128 * h + i + 32) &&& (0xF : Int8)).toUInt8 |||
      ((l (128 * h + i + 96) &&& (0xF : Int8)).toUInt8 <<< 4)

def q6KHigh (l : ℕ → Int8) : List UInt8 :=
  (List.range 2).flatMap fun h => table 32 fun i =>
    (l (128 * h + i) >>> 4).toUInt8 ||| ((l (128 * h + i + 32) >>> 4).toUInt8 <<< 2) |||
      ((l (128 * h + i + 64) >>> 4).toUInt8 <<< 4) |||
      ((l (128 * h + i + 96) >>> 4).toUInt8 <<< 6)

def encodeBlockQ6K (half : Half) (block : ℕ → ℚ) (one : GroupFits) (out : List UInt8) :
    List UInt8 :=
  match fitQ6SuperBlock half block one with
  | none => out ++ List.replicate Q6_K_BLOCK_BYTES 0
  | some fitted =>
      out ++ q6KLow fitted.l ++ q6KHigh fitted.l ++
        table 16 (fun j => (fitted.qscales j).toUInt8) ++ toLeBytes fitted.d

inductive QuantError where
  | misaligned (len blockBytes : ℕ)

/-- A whole number of blocks, each decoded by itself. -/
def dequant (blockBytes : ℕ) (decode : List UInt8 → List ℚ) (src : List UInt8) :
    Except QuantError (List ℚ) :=
  if src.length % blockBytes ≠ 0 then .error (.misaligned src.length blockBytes)
  else .ok ((List.range (src.length / blockBytes)).flatMap fun b =>
    decode ((src.drop (blockBytes * b)).take blockBytes))

def dequantBlockQ4K (half : Half) (block : List UInt8) : List ℚ :=
  let d := half.toF32 (fromLeBytes (block.take 2))
  let dmin := half.toF32 (fromLeBytes ((block.drop 2).take 2))
  let scales := (block.drop 4).take Q4_K_SCALE_BYTES
  let qs := (block.drop 16).take 128
  (List.range 4).flatMap fun g =>
    let (sc1, m1) := q4KScaleMin (2 * g) scales
    let (sc2, m2) := q4KScaleMin (2 * g + 1) scales
    (table 32 fun l =>
      d * sc1.toNat * (byteAt qs (32 * g + l) &&& (0x0F : UInt8)).toNat - dmin * m1.toNat) ++
    table 32 fun l => d * sc2.toNat * (byteAt qs (32 * g + l) >>> 4).toNat - dmin * m2.toNat

def dequantQ4K (half : Half) (src : List UInt8) : Except QuantError (List ℚ) :=
  dequant Q4_K_BLOCK_BYTES (dequantBlockQ4K half) src

def dequantBlockQ5K (half : Half) (block : List UInt8) : List ℚ :=
  let d := half.toF32 (fromLeBytes (block.take 2))
  let dmin := half.toF32 (fromLeBytes ((block.drop 2).take 2))
  let scales := (block.drop 4).take Q4_K_SCALE_BYTES
  let qh := (block.drop 16).take 32
  let qs := (block.drop 48).take 128
  (List.range 4).flatMap fun g =>
    let (sc1, m1) := q4KScaleMin (2 * g) scales
    let (sc2, m2) := q4KScaleMin (2 * g + 1) scales
    let u1 : UInt8 := 1 <<< (2 * g).toUInt8
    let u2 : UInt8 := 2 <<< (2 * g).toUInt8
    (table 32 fun l =>
      let hi : UInt8 := if byteAt qh l &&& u1 ≠ 0 then 16 else 0
      d * sc1.toNat * ((byteAt qs (32 * g + l) &&& (0x0F : UInt8)) + hi).toNat - dmin * m1.toNat) ++
    table 32 fun l =>
      let hi : UInt8 := if byteAt qh l &&& u2 ≠ 0 then 16 else 0
      d * sc2.toNat * ((byteAt qs (32 * g + l) >>> 4) + hi).toNat - dmin * m2.toNat

def dequantQ5K (half : Half) (src : List UInt8) : Except QuantError (List ℚ) :=
  dequant Q5_K_BLOCK_BYTES (dequantBlockQ5K half) src

def dequantBlockQ6K (half : Half) (block : List UInt8) : List ℚ :=
  let d := half.toF32 (fromLeBytes ((block.drop 208).take 2))
  (List.range 2).flatMap fun h =>
    let ql := (block.drop (64 * h)).take 64
    let qh := (block.drop (128 + 32 * h)).take 32
    let sc (k : ℕ) : ℚ := (byteAt block (192 + 8 * h + k)).toInt8.toInt
    let q1 (l : ℕ) : UInt8 :=
      (byteAt ql l &&& (0x0F : UInt8)) ||| ((byteAt qh l &&& (3 : UInt8)) <<< 4)
    let q2 (l : ℕ) : UInt8 :=
      (byteAt ql (l + 32) &&& (0x0F : UInt8)) ||| (((byteAt qh l >>> 2) &&& (3 : UInt8)) <<< 4)
    let q3 (l : ℕ) : UInt8 :=
      (byteAt ql l >>> 4) ||| (((byteAt qh l >>> 4) &&& (3 : UInt8)) <<< 4)
    let q4 (l : ℕ) : UInt8 :=
      (byteAt ql (l + 32) >>> 4) ||| (((byteAt qh l >>> 6) &&& (3 : UInt8)) <<< 4)
    (table 32 fun l => d * sc (l / 16) * ((q1 l).toInt8 - 32).toInt) ++
    (table 32 fun l => d * sc (l / 16 + 2) * ((q2 l).toInt8 - 32).toInt) ++
    (table 32 fun l => d * sc (l / 16 + 4) * ((q3 l).toInt8 - 32).toInt) ++
    table 32 fun l => d * sc (l / 16 + 6) * ((q4 l).toInt8 - 32).toInt

def dequantQ6K (half : Half) (src : List UInt8) : Except QuantError (List ℚ) :=
  dequant Q6_K_BLOCK_BYTES (dequantBlockQ6K half) src

end Frink.Quant
