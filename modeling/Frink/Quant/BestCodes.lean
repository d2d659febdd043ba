import Mathlib
import Frink.Quant.KQuants

/-! # The codes a super-block stores are its best

The planes an encoder writes are read back as the codes it chose, and against the header that
is stored no other code of the format comes nearer to the value.
-/

namespace Frink.Quant

open Codec Nearest Table

section Bytes

@[simp] theorem length_toLeBytes (x : BitVec 16) : (toLeBytes x).length = 2 := length_leBytes 2 _

@[simp] theorem fromLeBytes_toLeBytes (x : BitVec 16) : fromLeBytes (toLeBytes x) = x := by
  have hlt : x.toNat < 256 ^ 2 := x.isLt
  rw [fromLeBytes, toLeBytes, fromLe_leBytes, Nat.mod_eq_of_lt hlt, BitVec.ofNat_toNat,
    BitVec.setWidth_eq]

theorem byteAt_window {bytes : List UInt8} {m n i : ℕ} (h : i < n) :
    byteAt ((bytes.drop m).take n) i = byteAt bytes (m + i) := by
  simp [byteAt, List.getD, h]

theorem byteAt_append_left {xs ys : List UInt8} {i : ℕ} (h : i < xs.length) :
    byteAt (xs ++ ys) i = byteAt xs i := by
  simp [byteAt, List.getD, List.getElem?_append_left h]

theorem byteAt_append_right (xs ys : List UInt8) (i : ℕ) :
    byteAt (xs ++ ys) (xs.length + i) = byteAt ys i := by
  have hge : xs.length ≤ xs.length + i := Nat.le_add_right _ _
  simp [byteAt, List.getD, List.getElem?_append_right hge]

/-- A fact about every code below a bound is checked code by code. -/
theorem of_codes {n : ℕ} {P : UInt8 → Prop} (h : ∀ k : Fin n, P (UInt8.ofNat k)) {a : UInt8}
    (ha : a.toNat < n) : P a := by
  have hcode := h ⟨a.toNat, ha⟩
  rwa [UInt8.ofNat_toNat] at hcode

theorem and_nibbles {a b : UInt8} (ha : a.toNat < 16) (hb : b.toNat < 16) :
    (a ||| (b <<< 4)) &&& 0x0F = a := by
  revert b
  apply of_codes _ ha
  intro k b hb
  revert k
  apply of_codes _ hb
  decide

theorem shiftRight_nibbles {a b : UInt8} (ha : a.toNat < 16) (hb : b.toNat < 16) :
    (a ||| (b <<< 4)) >>> 4 = b := by
  revert b
  apply of_codes _ ha
  intro k b hb
  revert k
  apply of_codes _ hb
  decide

end Bytes

section Fit

variable (half : Half) (fit : QkFit) (block : ℕ → ℚ) (one : SubBlockFits fit.nmax)
  (qp : Option QpQuants)

@[simp] theorem length_packScaleMin (packed : List UInt8) (j : ℕ) (ls lm : UInt8) :
    (packScaleMin packed j ls lm).length = packed.length := by
  unfold packScaleMin
  split <;> simp

@[simp] theorem length_packAll (ls lm : ℕ → UInt8) :
    (packAll ls lm).length = Q4_K_SCALE_BYTES := by
  have hfold : ∀ (js : List ℕ) (packed : List UInt8),
      (js.foldl (fun packed j => packScaleMin packed j (ls j) (lm j)) packed).length =
        packed.length := by
    intro js
    induction js with
    | nil => exact fun _ => rfl
    | cons j js ih =>
      intro packed
      rw [List.foldl_cons, ih, length_packScaleMin]
  rw [packAll, hfold, List.length_replicate]

theorem length_packed :
    (fitQkSuperBlock half fit block one qp).packed.length = Q4_K_SCALE_BYTES := by
  have hpacked : (fitQkSuperBlock half fit block one qp).packed =
      (fitScales half fit one qp).2.2 := rfl
  rw [hpacked, fitScales.eq_def]
  cases qp <;> simp only [length_packAll]

/-- What a code of a sub-block decodes to under a header. -/
def qkDecoded (d dmin : BitVec 16) (packed : List UInt8) (i c : ℕ) : ℚ :=
  half.toF32 d * (q4KScaleMin (i / 32) packed).1.toNat * c -
    half.toF32 dmin * (q4KScaleMin (i / 32) packed).2.toNat

theorem toNat_ofInt_clamp {nmax : ℕ} (hmax : nmax ≤ 255) (n : ℤ) :
    ((UInt8.ofInt (clamp 0 nmax n)).toNat : ℤ) = clamp 0 nmax n := by
  obtain ⟨hlo, hhi⟩ := clamp_mem (Int.natCast_nonneg nmax) n
  rw [UInt8.ofInt, UInt8.toNat_ofNat']
  omega

/-- Either the code of the fit survives, and every code decodes alike, or it is the rounded one. -/
theorem code_cases (hmax : fit.nmax ≤ 255) (i : ℕ) :
    let fitted := fitQkSuperBlock half fit block one qp
    let a := half.toF32 fitted.d * (q4KScaleMin (i / 32) fitted.packed).1.toNat
    let b := half.toF32 fitted.dmin * (q4KScaleMin (i / 32) fitted.packed).2.toNat
    (a = 0 ∧ fitted.l i = one.l i) ∨
      (a ≠ 0 ∧
        ((fitted.l i).toNat : ℤ) = clamp 0 fit.nmax (roundHalfEven ((block i + b) / a))) := by
  intro fitted a b
  by_cases ha : a = 0
  · left
    exact ⟨ha, if_pos ha⟩
  · right
    have hcode : fitted.l i =
        UInt8.ofInt (clamp 0 fit.nmax (roundHalfEven ((block i + b) / a))) := if_neg ha
    rw [hcode]
    exact ⟨ha, toNat_ofInt_clamp hmax _⟩

theorem code_le (hmax : fit.nmax ≤ 255) (i : ℕ) :
    ((fitQkSuperBlock half fit block one qp).l i).toNat ≤ fit.nmax := by
  rcases code_cases half fit block one qp hmax i with ⟨-, hcode⟩ | ⟨-, hcode⟩
  · rw [hcode]
    exact one.le i
  · have hmem := clamp_mem (Int.natCast_nonneg fit.nmax)
    rw [← Int.ofNat_le, hcode]
    exact (hmem _).2

theorem code_nearest (hmax : fit.nmax ≤ 255) (i c : ℕ) (hc : c ≤ fit.nmax) :
    let fitted := fitQkSuperBlock half fit block one qp
    |block i - qkDecoded half fitted.d fitted.dmin fitted.packed i (fitted.l i).toNat| ≤
      |block i - qkDecoded half fitted.d fitted.dmin fitted.packed i c| := by
  intro fitted
  unfold qkDecoded
  rcases code_cases half fit block one qp hmax i with ⟨ha, -⟩ | ⟨ha, hcode⟩
  · rw [ha, zero_mul, zero_mul]
  · rw [← Int.cast_natCast (R := ℚ) (fitted.l i).toNat, hcode, ← Int.cast_natCast (R := ℚ) c]
    exact affine_nearest ha (Int.natCast_nonneg c) (Int.ofNat_le.mpr hc)

end Fit

section Layout

variable (half : Half)

/-- What a code decodes to under the header of a block. -/
def qkValue (bytes : List UInt8) (i c : ℕ) : ℚ :=
  qkDecoded half (fromLeBytes (bytes.take 2)) (fromLeBytes ((bytes.drop 2).take 2))
    ((bytes.drop 4).take Q4_K_SCALE_BYTES) i c

theorem qkValue_header (d dmin : BitVec 16) {packed rest : List UInt8}
    (h : packed.length = Q4_K_SCALE_BYTES) (i c : ℕ) :
    qkValue half (toLeBytes d ++ toLeBytes dmin ++ packed ++ rest) i c =
      qkDecoded half d dmin packed i c := by
  have hd : ∀ tail, (toLeBytes d ++ tail).take 2 = toLeBytes d :=
    fun tail => List.take_left' (length_toLeBytes d)
  have hdmin : ∀ tail, ((toLeBytes d ++ (toLeBytes dmin ++ tail)).drop 2).take 2 =
      toLeBytes dmin := by
    intro tail
    rw [List.drop_left' (length_toLeBytes d), List.take_left' (length_toLeBytes dmin)]
  have hpacked : ((toLeBytes d ++ toLeBytes dmin ++ (packed ++ rest)).drop 4).take
      Q4_K_SCALE_BYTES = packed := by
    rw [List.drop_left' (by simp), List.take_left' h]
  rw [List.append_assoc, qkValue, hpacked, List.append_assoc, hd, hdmin, fromLeBytes_toLeBytes,
    fromLeBytes_toLeBytes]

theorem byteAt_header (d dmin : BitVec 16) {packed rest : List UInt8}
    (h : packed.length = Q4_K_SCALE_BYTES) (i : ℕ) :
    byteAt (toLeBytes d ++ toLeBytes dmin ++ packed ++ rest) (16 + i) = byteAt rest i := by
  have hlength : (toLeBytes d ++ toLeBytes dmin ++ packed).length = 16 := by
    simp [h, Q4_K_SCALE_BYTES]
  rw [← hlength, byteAt_append_right]

/-- Rows of two halves, each decoded with the scale and the minimum of its sub-block. -/
theorem decoded_rows {bytes : List UInt8} {code : ℕ → ℕ} {first second : ℕ → ℕ → ℕ}
    (hfirst : ∀ g < 4, ∀ i < 32, first g i = code (64 * g + i))
    (hsecond : ∀ g < 4, ∀ i < 32, second g i = code (64 * g + i + 32)) :
    ((List.range 4).flatMap fun g =>
      (table 32 fun i => qkValue half bytes (64 * g) (first g i)) ++
        table 32 fun i => qkValue half bytes (64 * g + 32) (second g i)) =
      table 256 fun i => qkValue half bytes i (code i) := by
  have hvalue : ∀ {i j : ℕ} (c : ℕ), i / 32 = j / 32 →
      qkValue half bytes i c = qkValue half bytes j c := by
    intro i j c h
    rw [qkValue, qkValue, qkDecoded, qkDecoded, h]
  rw [← flatMap_table 4 64]
  apply rows_congr
  intro g hg
  rw [← table_append 32 32]
  congr 1
  · apply table_congr
    intro i hi
    rw [hfirst g hg i hi]
    exact hvalue _ (by omega)
  · apply table_congr
    intro i hi
    rw [hsecond g hg i hi, Nat.add_right_comm, Nat.add_assoc]
    exact hvalue _ (by omega)

theorem dequant_one {blockBytes : ℕ} (hpos : 0 < blockBytes) (decode : List UInt8 → List ℚ)
    {bytes : List UInt8} (h : bytes.length = blockBytes) :
    dequant blockBytes decode bytes = .ok (decode bytes) := by
  have hwhole : bytes.take blockBytes = bytes := List.take_of_length_le h.le
  simp [dequant, h, Nat.div_self hpos, hwhole]

theorem byteAt_q4KNibbles (l : ℕ → UInt8) {g i : ℕ} (hg : g < 4) (hi : i < 32) :
    byteAt (q4KNibbles l) (32 * g + i) = l (64 * g + i) ||| (l (64 * g + i + 32) <<< 4) :=
  getD_rows hg hi (fun g i => l (64 * g + i) ||| (l (64 * g + i + 32) <<< 4)) 0

theorem dequantBlockQ4K_eq (bytes : List UInt8) :
    dequantBlockQ4K half bytes = (List.range 4).flatMap fun g =>
      (table 32 fun i =>
        qkValue half bytes (64 * g) (byteAt bytes (16 + (32 * g + i)) &&& 0x0F).toNat) ++
        table 32 fun i =>
          qkValue half bytes (64 * g + 32) (byteAt bytes (16 + (32 * g + i)) >>> 4).toNat := by
  unfold dequantBlockQ4K
  apply rows_congr
  intro g hg
  have heven : 64 * g / 32 = 2 * g := by omega
  have hodd : (64 * g + 32) / 32 = 2 * g + 1 := by omega
  rcases hfirst : q4KScaleMin (2 * g) ((bytes.drop 4).take Q4_K_SCALE_BYTES) with ⟨sc1, m1⟩
  rcases hsecond : q4KScaleMin (2 * g + 1) ((bytes.drop 4).take Q4_K_SCALE_BYTES) with ⟨sc2, m2⟩
  dsimp only
  congr 1
  · apply table_congr
    intro i hi
    rw [byteAt_window (by omega), qkValue, qkDecoded, heven, hfirst]
  · apply table_congr
    intro i hi
    rw [byteAt_window (by omega), qkValue, qkDecoded, hodd, hsecond]

theorem dequantBlockQ4K_encoded {bytes : List UInt8} {l : ℕ → UInt8}
    (hbytes : ∀ i, byteAt bytes (16 + i) = byteAt (q4KNibbles l) i) (hl : ∀ i, (l i).toNat < 16) :
    dequantBlockQ4K half bytes = table 256 fun i => qkValue half bytes i (l i).toNat := by
  rw [dequantBlockQ4K_eq]
  apply decoded_rows
  · intro g hg i hi
    rw [hbytes, byteAt_q4KNibbles l hg hi, and_nibbles (hl _) (hl _)]
  · intro g hg i hi
    rw [hbytes, byteAt_q4KNibbles l hg hi, shiftRight_nibbles (hl _) (hl _)]

theorem lowNibble_lt {a : UInt8} (ha : a.toNat < 32) : (lowNibble a).toNat < 16 := by
  revert a
  apply of_codes
  decide

/-- The fifth bit goes back onto the low four. -/
theorem lowNibble_add {a : UInt8} (ha : a.toNat < 32) :
    lowNibble a + (if 15 < a then 16 else 0) = a := by
  revert a
  apply of_codes
  decide

/-- Flags in one byte, two a step. -/
def flagsByte (flags : List (Bool × Bool)) : UInt8 :=
  (flags.foldl (fun (acc : UInt8 × UInt8 × UInt8) flag =>
    let (qh, m1, m2) := acc
    let qh := if flag.1 then qh ||| m1 else qh
    let qh := if flag.2 then qh ||| m2 else qh
    (qh, m1 <<< 2, m2 <<< 2)) (0, 1, 2)).1

/-- Each of eight flags is found again under its own mask. -/
theorem flagsByte_test (p q : ℕ → Bool) (g : ℕ) (hg : g < 4) :
    let byte := flagsByte ((List.range 4).map fun g => (p g, q g))
    (byte &&& ((1 : UInt8) <<< (2 * g).toUInt8) ≠ 0 ↔ p g = true) ∧
      (byte &&& ((2 : UInt8) <<< (2 * g).toUInt8) ≠ 0 ↔ q g = true) := by
  have hall : ∀ p0 p1 p2 p3 q0 q1 q2 q3 : Bool,
      let byte := flagsByte [(p0, q0), (p1, q1), (p2, q2), (p3, q3)]
      ∀ g : Fin 4,
        (byte &&& ((1 : UInt8) <<< (2 * g.val).toUInt8) ≠ 0 ↔ [p0, p1, p2, p3][g] = true) ∧
        (byte &&& ((2 : UInt8) <<< (2 * g.val).toUInt8) ≠ 0 ↔ [q0, q1, q2, q3][g] = true) := by
    decide
  have htest := hall (p 0) (p 1) (p 2) (p 3) (q 0) (q 1) (q 2) (q 3) ⟨g, hg⟩
  intro byte
  rcases g with _ | _ | _ | _ | g
  · exact htest
  · exact htest
  · exact htest
  · exact htest
  · omega

theorem byteAt_q5KHighBits (l : ℕ → UInt8) {j : ℕ} (hj : j < 32) :
    byteAt (q5KHighBits l) j = flagsByte ((List.range 4).map fun g =>
      (decide (15 < l (64 * g + j)), decide (15 < l (64 * g + j + 32)))) := by
  rw [q5KHighBits, byteAt, getD_table hj, flagsByte, List.foldl_map]
  simp only [decide_eq_true_eq]

theorem byteAt_q5KNibbles (l : ℕ → UInt8) {g i : ℕ} (hg : g < 4) (hi : i < 32) :
    byteAt (q5KNibbles l) (32 * g + i) =
      lowNibble (l (64 * g + i)) ||| (lowNibble (l (64 * g + i + 32)) <<< 4) :=
  getD_rows hg hi
    (fun g i => lowNibble (l (64 * g + i)) ||| (lowNibble (l (64 * g + i + 32)) <<< 4)) 0

/-- The fifth bit of a code, under a mask. -/
def fifthBit (qh mask : UInt8) : UInt8 := if qh &&& mask ≠ 0 then 16 else 0

theorem dequantBlockQ5K_eq (bytes : List UInt8) :
    dequantBlockQ5K half bytes = (List.range 4).flatMap fun g =>
      (table 32 fun i => qkValue half bytes (64 * g)
        ((byteAt bytes (48 + (32 * g + i)) &&& 0x0F) +
          fifthBit (byteAt bytes (16 + i)) ((1 : UInt8) <<< (2 * g).toUInt8)).toNat) ++
        table 32 fun i => qkValue half bytes (64 * g + 32)
          ((byteAt bytes (48 + (32 * g + i)) >>> 4) +
            fifthBit (byteAt bytes (16 + i)) ((2 : UInt8) <<< (2 * g).toUInt8)).toNat := by
  unfold dequantBlockQ5K
  apply rows_congr
  intro g hg
  have heven : 64 * g / 32 = 2 * g := by omega
  have hodd : (64 * g + 32) / 32 = 2 * g + 1 := by omega
  rcases hfirst : q4KScaleMin (2 * g) ((bytes.drop 4).take Q4_K_SCALE_BYTES) with ⟨sc1, m1⟩
  rcases hsecond : q4KScaleMin (2 * g + 1) ((bytes.drop 4).take Q4_K_SCALE_BYTES) with ⟨sc2, m2⟩
  dsimp only
  congr 1
  · apply table_congr
    intro i hi
    rw [byteAt_window (by omega), byteAt_window hi, qkValue, qkDecoded, heven, hfirst]
    rfl
  · apply table_congr
    intro i hi
    rw [byteAt_window (by omega), byteAt_window hi, qkValue, qkDecoded, hodd, hsecond]
    rfl

theorem dequantBlockQ5K_encoded {bytes : List UInt8} {l : ℕ → UInt8}
    (hhigh : ∀ i < 32, byteAt bytes (16 + i) = byteAt (q5KHighBits l) i)
    (hlow : ∀ i, byteAt bytes (48 + i) = byteAt (q5KNibbles l) i) (hl : ∀ i, (l i).toNat < 32) :
    dequantBlockQ5K half bytes = table 256 fun i => qkValue half bytes i (l i).toNat := by
  have hlt : ∀ i, (lowNibble (l i)).toNat < 16 := fun i => lowNibble_lt (hl i)
  have hflag := fun i => flagsByte_test (fun g => decide (15 < l (64 * g + i)))
    fun g => decide (15 < l (64 * g + i + 32))
  rw [dequantBlockQ5K_eq]
  apply decoded_rows
  · intro g hg i hi
    rw [hlow, hhigh i hi, byteAt_q5KNibbles l hg hi, byteAt_q5KHighBits l hi,
      and_nibbles (hlt _) (hlt _)]
    simp only [fifthBit, (hflag i g hg).1, decide_eq_true_eq]
    rw [lowNibble_add (hl _)]
  · intro g hg i hi
    rw [hlow, hhigh i hi, byteAt_q5KNibbles l hg hi, byteAt_q5KHighBits l hi,
      shiftRight_nibbles (hlt _) (hlt _)]
    simp only [fifthBit, (hflag i g hg).2, decide_eq_true_eq]
    rw [lowNibble_add (hl _)]

end Layout

section Signed

variable (half : Half)

/-- What a code of a signed block decodes to. -/
def q6Value (bytes : List UInt8) (i c : ℕ) : ℚ :=
  half.toF32 (fromLeBytes ((bytes.drop 208).take 2)) * (byteAt bytes (192 + i / 16)).toInt8.toInt *
    ((c : ℚ) - 32)

/-- A code of six bits. -/
def IsCode (a : Int8) : Prop := 0 ≤ a.toInt ∧ a.toInt ≤ 63

theorem of_signed_codes {P : Int8 → Prop} (h : ∀ k : Fin 64, P (Int8.ofInt k)) {a : Int8}
    (ha : IsCode a) : P a := by
  obtain ⟨hlo, hhi⟩ := ha
  have hcode := h ⟨a.toInt.toNat, by omega⟩
  have hcast : ((a.toInt.toNat : ℕ) : ℤ) = a.toInt := Int.toNat_of_nonneg hlo
  rwa [hcast, Int8.ofInt_toInt] at hcode

theorem nibble_lt {a : Int8} (ha : IsCode a) : (a &&& 0xF).toUInt8.toNat < 16 := by
  revert a
  apply of_signed_codes
  decide

theorem high_lt {a : Int8} (ha : IsCode a) : (a >>> 4).toUInt8.toNat < 4 := by
  revert a
  apply of_signed_codes
  decide

theorem recombined {a : Int8} (ha : IsCode a) :
    ((a &&& 0xF).toUInt8 ||| ((a >>> 4).toUInt8 <<< 4)).toInt8 = a := by
  revert a
  apply of_signed_codes
  decide

theorem toInt_sub {a : Int8} (ha : IsCode a) : (a - 32).toInt = (a.toInt.toNat : ℤ) - 32 := by
  revert a
  apply of_signed_codes
  decide

/-- Four codes of two bits share a byte. -/
theorem quarters_byte {w x y z : UInt8} (hw : w.toNat < 4) (hx : x.toNat < 4) (hy : y.toNat < 4)
    (hz : z.toNat < 4) :
    let byte := w ||| (x <<< 2) ||| (y <<< 4) ||| (z <<< 6)
    byte &&& 3 = w ∧ (byte >>> 2) &&& 3 = x ∧ (byte >>> 4) &&& 3 = y ∧ (byte >>> 6) &&& 3 = z := by
  have hall : ∀ w x y z : Fin 4,
      let byte := UInt8.ofNat w ||| (UInt8.ofNat x <<< 2) ||| (UInt8.ofNat y <<< 4) |||
        (UInt8.ofNat z <<< 6)
      byte &&& 3 = UInt8.ofNat w ∧ (byte >>> 2) &&& 3 = UInt8.ofNat x ∧
        (byte >>> 4) &&& 3 = UInt8.ofNat y ∧ (byte >>> 6) &&& 3 = UInt8.ofNat z := by
    decide
  have hcase := hall ⟨_, hw⟩ ⟨_, hx⟩ ⟨_, hy⟩ ⟨_, hz⟩
  simp only [UInt8.ofNat_toNat] at hcase
  exact hcase

theorem byteAt_q6KLow (l : ℕ → Int8) {h i : ℕ} (hh : h < 2) (hi : i < 32) :
    byteAt (q6KLow l) (64 * h + i) =
        (l (128 * h + i) &&& 0xF).toUInt8 ||| ((l (128 * h + i + 64) &&& 0xF).toUInt8 <<< 4) ∧
      byteAt (q6KLow l) (64 * h + (i + 32)) =
        (l (128 * h + i + 32) &&& 0xF).toUInt8 |||
          ((l (128 * h + i + 96) &&& 0xF).toUInt8 <<< 4) := by
  have hrows : q6KLow l = (List.range 2).flatMap fun h => table 64 fun i =>
      if i < 32 then
        (l (128 * h + i) &&& 0xF).toUInt8 ||| ((l (128 * h + i + 64) &&& 0xF).toUInt8 <<< 4)
      else
        (l (128 * h + (i - 32) + 32) &&& 0xF).toUInt8 |||
          ((l (128 * h + (i - 32) + 96) &&& 0xF).toUInt8 <<< 4) := by
    apply rows_congr
    intro h _
    exact table_append_ite 32 32 _ _
  have hnot : ¬ i + 32 < 32 := by omega
  rw [hrows, byteAt, byteAt, getD_rows hh (by omega), getD_rows hh (by omega), if_pos hi,
    if_neg hnot, Nat.add_sub_cancel]
  exact ⟨rfl, rfl⟩

theorem byteAt_q6KHigh (l : ℕ → Int8) {h i : ℕ} (hh : h < 2) (hi : i < 32) :
    byteAt (q6KHigh l) (32 * h + i) =
      (l (128 * h + i) >>> 4).toUInt8 ||| ((l (128 * h + i + 32) >>> 4).toUInt8 <<< 2) |||
        ((l (128 * h + i + 64) >>> 4).toUInt8 <<< 4) |||
        ((l (128 * h + i + 96) >>> 4).toUInt8 <<< 6) :=
  getD_rows hh hi (fun h i =>
    (l (128 * h + i) >>> 4).toUInt8 ||| ((l (128 * h + i + 32) >>> 4).toUInt8 <<< 2) |||
      ((l (128 * h + i + 64) >>> 4).toUInt8 <<< 4) |||
      ((l (128 * h + i + 96) >>> 4).toUInt8 <<< 6)) 0

@[simp] theorem length_q6KLow (l : ℕ → Int8) : (q6KLow l).length = 128 := by
  simp [q6KLow, List.range_succ]

@[simp] theorem length_q6KHigh (l : ℕ → Int8) : (q6KHigh l).length = 64 := length_rows 2 32 _

theorem q6Value_eq {bytes : List UInt8} {l : ℕ → Int8} (hl : ∀ i, IsCode (l i)) {n k : ℕ}
    {code : UInt8} (hk : k = 192 + n / 16) (hcode : code.toInt8 = l n) :
    half.toF32 (fromLeBytes ((bytes.drop 208).take 2)) * (byteAt bytes k).toInt8.toInt *
      (code.toInt8 - 32).toInt = q6Value half bytes n (l n).toInt.toNat := by
  rw [q6Value, hk, hcode, toInt_sub (hl _)]
  push_cast
  rfl

theorem dequantBlockQ6K_encoded {bytes : List UInt8} {l : ℕ → Int8} (hl : ∀ i, IsCode (l i))
    (hlow : ∀ i < 128, byteAt bytes i = byteAt (q6KLow l) i)
    (hhigh : ∀ i < 64, byteAt bytes (128 + i) = byteAt (q6KHigh l) i) :
    dequantBlockQ6K half bytes = table 256 fun i => q6Value half bytes i (l i).toInt.toNat := by
  rw [← flatMap_table 2 128]
  unfold dequantBlockQ6K
  apply rows_congr
  intro h hh
  rw [← table_append (32 + 32 + 32) 32, ← table_append (32 + 32) 32, ← table_append 32 32]
  have hbytes : ∀ i < 32,
      byteAt ((bytes.drop (64 * h)).take 64) i = byteAt (q6KLow l) (64 * h + i) ∧
        byteAt ((bytes.drop (64 * h)).take 64) (i + 32) = byteAt (q6KLow l) (64 * h + (i + 32)) ∧
        byteAt ((bytes.drop (128 + 32 * h)).take 32) i = byteAt (q6KHigh l) (32 * h + i) := by
    intro i hi
    rw [byteAt_window (by omega), byteAt_window (by omega), byteAt_window hi, hlow _ (by omega),
      hlow _ (by omega), Nat.add_assoc, hhigh _ (by omega)]
    exact ⟨rfl, rfl, rfl⟩
  have hplanes := fun i => quarters_byte (high_lt (hl (128 * h + i)))
    (high_lt (hl (128 * h + i + 32))) (high_lt (hl (128 * h + i + 64)))
    (high_lt (hl (128 * h + i + 96)))
  dsimp only
  congr 1
  · congr 1
    · congr 1
      · apply table_congr
        intro i hi
        obtain ⟨hlow1, -, hhigh1⟩ := hbytes i hi
        apply q6Value_eq half hl (by omega)
        rw [hlow1, hhigh1, (byteAt_q6KLow l hh hi).1, byteAt_q6KHigh l hh hi, (hplanes i).1,
          and_nibbles (nibble_lt (hl _)) (nibble_lt (hl _)), recombined (hl _)]
      · apply table_congr
        intro i hi
        obtain ⟨-, hlow2, hhigh1⟩ := hbytes i hi
        apply q6Value_eq half hl (by omega)
        rw [hlow2, hhigh1, (byteAt_q6KLow l hh hi).2, byteAt_q6KHigh l hh hi, (hplanes i).2.1,
          and_nibbles (nibble_lt (hl _)) (nibble_lt (hl _)), recombined (hl _)]
        congr 1
        omega
    · apply table_congr
      intro i hi
      obtain ⟨hlow1, -, hhigh1⟩ := hbytes i hi
      apply q6Value_eq half hl (by omega)
      rw [hlow1, hhigh1, (byteAt_q6KLow l hh hi).1, byteAt_q6KHigh l hh hi, (hplanes i).2.2.1,
        shiftRight_nibbles (nibble_lt (hl _)) (nibble_lt (hl _)), recombined (hl _)]
      congr 1
      omega
  · apply table_congr
    intro i hi
    obtain ⟨-, hlow2, hhigh1⟩ := hbytes i hi
    apply q6Value_eq half hl (by omega)
    rw [hlow2, hhigh1, (byteAt_q6KLow l hh hi).2, byteAt_q6KHigh l hh hi, (hplanes i).2.2.2,
      shiftRight_nibbles (nibble_lt (hl _)) (nibble_lt (hl _)), recombined (hl _)]
    congr 1
    omega

theorem toInt_ofInt_clamp (n : ℤ) :
    (Int8.ofInt (clamp (-32) 31 n + 32)).toInt = clamp (-32) 31 n + 32 := by
  have hrange : (-32 : ℤ) ≤ 31 := by decide
  have hmem := clamp_mem hrange n
  rw [Int8.toInt_ofInt]
  apply Int.bmod_eq_of_le <;> simp only [Int8.size] <;> omega

theorem q6_code_cases {block : ℕ → ℚ} {one : GroupFits} {fitted : Q6SuperBlock}
    (h : fitQ6SuperBlock half block one = some fitted) (i : ℕ) :
    let a := half.toF32 fitted.d * (fitted.qscales (i / 16)).toInt
    (a = 0 ∧ fitted.l i = one.l i) ∨
      (a ≠ 0 ∧ (fitted.l i).toInt = clamp (-32) 31 (roundHalfEven (block i / a)) + 32) := by
  intro a
  unfold fitQ6SuperBlock at h
  dsimp only at h
  split at h
  · cases h
  · obtain rfl := Option.some.inj h
    by_cases ha : a = 0
    · left
      exact ⟨ha, if_pos ha⟩
    · right
      refine ⟨ha, ?_⟩
      rw [← toInt_ofInt_clamp]
      exact congrArg Int8.toInt (if_neg ha)

theorem q6_isCode {block : ℕ → ℚ} {one : GroupFits} {fitted : Q6SuperBlock}
    (h : fitQ6SuperBlock half block one = some fitted) (i : ℕ) : IsCode (fitted.l i) := by
  rcases q6_code_cases half h i with ⟨-, hcode⟩ | ⟨-, hcode⟩
  · rw [hcode]
    exact ⟨one.nonneg i, one.le i⟩
  · have hrange : (-32 : ℤ) ≤ 31 := by decide
    have hmem := clamp_mem hrange
      (roundHalfEven (block i / (half.toF32 fitted.d * (fitted.qscales (i / 16)).toInt)))
    unfold IsCode
    omega

theorem q6_code_nearest {block : ℕ → ℚ} {one : GroupFits} {fitted : Q6SuperBlock}
    (h : fitQ6SuperBlock half block one = some fitted) (i : ℕ) {c : ℕ} (hc : c ≤ 63) :
    let a := half.toF32 fitted.d * (fitted.qscales (i / 16)).toInt
    |block i - a * (((fitted.l i).toInt.toNat : ℚ) - 32)| ≤ |block i - a * ((c : ℚ) - 32)| := by
  intro a
  rcases q6_code_cases half h i with ⟨ha, -⟩ | ⟨ha, hcode⟩
  · have hzero : a = 0 := ha
    rw [hzero, zero_mul, zero_mul]
  · have hnat : ((fitted.l i).toInt.toNat : ℤ) =
        clamp (-32) 31 (roundHalfEven (block i / a)) + 32 :=
      (Int.toNat_of_nonneg (q6_isCode half h i).1).trans hcode
    have hlevel : ((fitted.l i).toInt.toNat : ℚ) - 32 =
        (clamp (-32) 31 (roundHalfEven (block i / a)) : ℤ) := by
      rw [← Int.cast_natCast, hnat]
      push_cast
      ring
    have hother : (c : ℚ) - 32 = ((c - 32 : ℤ) : ℚ) := by
      push_cast
      ring
    have hlo : (-32 : ℤ) ≤ c - 32 := by omega
    have hhi : (c : ℤ) - 32 ≤ 31 := by omega
    have hnearest := affine_nearest (x := block i) (b := 0) ha hlo hhi
    rwa [add_zero, sub_zero, sub_zero, ← hlevel, ← hother] at hnearest

end Signed

section Best

/-- One super-block is appended; it decodes to the values of the codes, and every code is the best
of its range under the header that is stored. -/
def StoresBest (blockBytes nmax : ℕ) (decode : List UInt8 → Except QuantError (List ℚ))
    (value : List UInt8 → ℕ → ℕ → ℚ) (block : ℕ → ℚ) (code : ℕ → ℕ) (out encoded : List UInt8) :
    Prop :=
  ∃ bytes, encoded = out ++ bytes ∧ bytes.length = blockBytes ∧
    decode bytes = .ok (table 256 fun i => value bytes i (code i)) ∧
    ∀ i < 256, code i ≤ nmax ∧
      ∀ c ≤ nmax, |block i - value bytes i (code i)| ≤ |block i - value bytes i c|

variable (half : Half) (block : ℕ → ℚ) (out : List UInt8)

theorem q4K_storesBest (one : SubBlockFits Q4_K_FIT.nmax) (qp : Option QpQuants) :
    StoresBest Q4_K_BLOCK_BYTES 15 (dequantQ4K half) (qkValue half) block
      (fun i => ((fitQkSuperBlock half Q4_K_FIT block one qp).l i).toNat) out
      (encodeBlockQ4K half block one qp out) := by
  have hle := code_le half Q4_K_FIT block one qp (by decide)
  have hpacked := length_packed half Q4_K_FIT block one qp
  have hnearest := code_nearest half Q4_K_FIT block one qp (by decide)
  unfold encodeBlockQ4K
  generalize fitQkSuperBlock half Q4_K_FIT block one qp = fitted at *
  dsimp only at *
  have hlength : (toLeBytes fitted.d ++ toLeBytes fitted.dmin ++ fitted.packed ++
      q4KNibbles fitted.l).length = Q4_K_BLOCK_BYTES := by
    simp [hpacked, q4KNibbles, Q4_K_SCALE_BYTES, Q4_K_BLOCK_BYTES, List.range_succ]
  refine ⟨toLeBytes fitted.d ++ toLeBytes fitted.dmin ++ fitted.packed ++ q4KNibbles fitted.l,
    by simp only [List.append_assoc], hlength, ?_, ?_⟩
  · rw [dequantQ4K, dequant_one (by decide) _ hlength, dequantBlockQ4K_encoded half
      (byteAt_header fitted.d fitted.dmin hpacked) fun i => Nat.lt_succ_of_le (hle i)]
  · intro i _
    refine ⟨hle i, fun c hc => ?_⟩
    rw [qkValue_header half _ _ hpacked, qkValue_header half _ _ hpacked]
    exact hnearest i c hc

theorem q5K_storesBest (one : SubBlockFits Q5_K_FIT.nmax) (qp : Option QpQuants) :
    StoresBest Q5_K_BLOCK_BYTES 31 (dequantQ5K half) (qkValue half) block
      (fun i => ((fitQkSuperBlock half Q5_K_FIT block one qp).l i).toNat) out
      (encodeBlockQ5K half block one qp out) := by
  have hle := code_le half Q5_K_FIT block one qp (by decide)
  have hpacked := length_packed half Q5_K_FIT block one qp
  have hnearest := code_nearest half Q5_K_FIT block one qp (by decide)
  unfold encodeBlockQ5K
  generalize fitQkSuperBlock half Q5_K_FIT block one qp = fitted at *
  dsimp only at *
  let planes := q5KHighBits fitted.l ++ q5KNibbles fitted.l
  let bytes := toLeBytes fitted.d ++ toLeBytes fitted.dmin ++ fitted.packed ++ planes
  have hhighBits : (q5KHighBits fitted.l).length = 32 := length_table _ _
  have hnibbles : (q5KNibbles fitted.l).length = 128 := length_rows 4 32 _
  have hlength : bytes.length = Q5_K_BLOCK_BYTES := by
    simp [bytes, planes, hpacked, hhighBits, hnibbles, Q4_K_SCALE_BYTES, Q5_K_BLOCK_BYTES]
  have hplanes : ∀ i, byteAt bytes (16 + i) = byteAt planes i :=
    byteAt_header fitted.d fitted.dmin hpacked
  refine ⟨bytes, by simp only [bytes, planes, List.append_assoc], hlength, ?_, ?_⟩
  · rw [dequantQ5K, dequant_one (by decide) _ hlength]
    congr 1
    apply dequantBlockQ5K_encoded half
    · intro i hi
      rw [hplanes, byteAt_append_left (by omega)]
    · intro i
      have hindex : 48 + i = 16 + ((q5KHighBits fitted.l).length + i) := by omega
      rw [hindex, hplanes, byteAt_append_right]
    · exact fun i => Nat.lt_succ_of_le (hle i)
  · intro i _
    refine ⟨hle i, fun c hc => ?_⟩
    rw [qkValue_header half _ _ hpacked, qkValue_header half _ _ hpacked]
    exact hnearest i c hc

/-- The codes a signed block holds; a block next to zero holds zeros. -/
def q6Codes (one : GroupFits) : ℕ → Int8 :=
  match fitQ6SuperBlock half block one with
  | none => fun _ => 0
  | some fitted => fitted.l

theorem byteAt_zeros (n i : ℕ) : byteAt (List.replicate n 0) i = 0 := by
  simp only [byteAt, List.getD, List.getElem?_replicate]
  split <;> rfl

theorem q6_zeros_storesBest :
    StoresBest Q6_K_BLOCK_BYTES 63 (dequantQ6K half) (q6Value half) block (fun _ => 0) out
      (out ++ List.replicate Q6_K_BLOCK_BYTES 0) := by
  have hvalue : ∀ i c, q6Value half (List.replicate Q6_K_BLOCK_BYTES 0) i c = 0 := by
    intro i c
    have hd : fromLeBytes (((List.replicate Q6_K_BLOCK_BYTES (0 : UInt8)).drop 208).take 2) = 0 :=
      rfl
    rw [q6Value, hd, half.zero, zero_mul, zero_mul]
  have hlow : ∀ i < 128, byteAt (q6KLow fun _ => 0) i = 0 := by
    have hzeros : q6KLow (fun _ => 0) = List.replicate 128 0 := rfl
    intro i _
    rw [hzeros, byteAt_zeros]
  have hhigh : ∀ i < 64, byteAt (q6KHigh fun _ => 0) i = 0 := by
    have hzeros : q6KHigh (fun _ => 0) = List.replicate 64 0 := rfl
    intro i _
    rw [hzeros, byteAt_zeros]
  refine ⟨_, rfl, List.length_replicate, ?_, ?_⟩
  · rw [dequantQ6K, dequant_one (by decide) _ List.length_replicate]
    congr 1
    apply dequantBlockQ6K_encoded half (l := fun _ => 0)
    · intro _
      exact ⟨le_rfl, by decide⟩
    · intro i hi
      rw [hlow i hi, byteAt_zeros]
    · intro i hi
      rw [hhigh i hi, byteAt_zeros]
  · intro i _
    refine ⟨Nat.zero_le _, fun c _ => ?_⟩
    rw [hvalue, hvalue]

theorem q6K_storesBest (one : GroupFits) :
    StoresBest Q6_K_BLOCK_BYTES 63 (dequantQ6K half) (q6Value half) block
      (fun i => (q6Codes half block one i).toInt.toNat) out
      (encodeBlockQ6K half block one out) := by
  unfold encodeBlockQ6K q6Codes
  cases hfit : fitQ6SuperBlock half block one with
  | none => exact q6_zeros_storesBest half block out
  | some fitted =>
    dsimp only
    let low := q6KLow fitted.l
    let high := q6KHigh fitted.l
    let scales := table 16 fun j => (fitted.qscales j).toUInt8
    let bytes := low ++ (high ++ (scales ++ toLeBytes fitted.d))
    have hlow : low.length = 128 := length_q6KLow _
    have hhigh : high.length = 64 := length_q6KHigh _
    have hscales : scales.length = 16 := length_table _ _
    have hlength : bytes.length = Q6_K_BLOCK_BYTES := by
      simp [bytes, hlow, hhigh, hscales, Q6_K_BLOCK_BYTES]
    have hbyte : ∀ i,
        byteAt bytes (128 + i) = byteAt (high ++ (scales ++ toLeBytes fitted.d)) i := by
      intro i
      rw [← hlow, byteAt_append_right]
    have hd : fromLeBytes ((bytes.drop 208).take 2) = fitted.d := by
      have hsplit : bytes = (low ++ high ++ scales) ++ toLeBytes fitted.d := by
        simp only [bytes, List.append_assoc]
      have hprefix : (low ++ high ++ scales).length = 208 := by simp [hlow, hhigh, hscales]
      rw [hsplit, List.drop_left' hprefix, List.take_of_length_le (by simp), fromLeBytes_toLeBytes]
    have hvalue : ∀ i < 256, ∀ c, q6Value half bytes i c =
        half.toF32 fitted.d * (fitted.qscales (i / 16)).toInt * ((c : ℚ) - 32) := by
      intro i hi c
      have hindex : 192 + i / 16 = 128 + (high.length + i / 16) := by omega
      have hscale : byteAt bytes (192 + i / 16) = (fitted.qscales (i / 16)).toUInt8 := by
        rw [hindex, hbyte, byteAt_append_right, byteAt_append_left (by omega)]
        exact getD_table (by omega) _ _
      rw [q6Value, hd, hscale, Int8.toInt8_toUInt8]
    have hdecoded : dequantBlockQ6K half bytes =
        table 256 fun i => q6Value half bytes i (fitted.l i).toInt.toNat := by
      apply dequantBlockQ6K_encoded half (q6_isCode half hfit)
      · intro i hi
        exact byteAt_append_left (Nat.lt_of_lt_of_eq hi hlow.symm)
      · intro i hi
        rw [hbyte, byteAt_append_left (by omega)]
    refine ⟨bytes, by simp only [bytes, low, high, scales, List.append_assoc], hlength, ?_, ?_⟩
    · rw [dequantQ6K, dequant_one (by decide) _ hlength, hdecoded]
    · intro i hi
      have hcode := q6_isCode half hfit i
      refine ⟨?_, fun c hc => ?_⟩
      · have hle := hcode.2
        dsimp only
        omega
      · rw [hvalue i hi, hvalue i hi]
        exact q6_code_nearest half hfit i hc

end Best

end Frink.Quant
