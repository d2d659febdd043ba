import Frink.Gguf.Writer

/-! # Where the writer puts the tensors

The offsets in the header are the running padded lengths, and the data section reaches each of
them when its tensor is written.
-/

namespace Frink.Gguf
open Codec

theorem le_nextMultipleOf {n m : ℕ} (h : 0 < m) : n ≤ nextMultipleOf n m := by
  have hd : n + m - 1 < m * ((n + m - 1) / m + 1) := Nat.lt_mul_div_succ _ h
  rw [Nat.mul_add, Nat.mul_one, Nat.mul_comm] at hd
  rw [nextMultipleOf]
  omega

theorem length_pad {bytes : List UInt8} {alignment : ℕ} (h : 0 < alignment) :
    (pad bytes alignment).length = nextMultipleOf bytes.length alignment := by
  have := le_nextMultipleOf (n := bytes.length) h
  rw [pad, List.length_append, List.length_replicate]
  omega

/-- The descriptors of a plan, read at the offsets that the header records. -/
def planInfos (alignment : ℕ) : List TensorPlan → ℕ → List TensorInfo
  | [], _ => []
  | t :: plan, offset =>
      ⟨t.name, t.shape, t.dtype, .ofNat 64 offset⟩ ::
        planInfos alignment plan (nextMultipleOf (offset + t.byteLen) alignment)

def dataSection (alignment : ℕ) : List (List UInt8) → ℕ → List UInt8
  | [], _ => []
  | bytes :: data, written =>
      let last := written + bytes.length
      let padded := nextMultipleOf last alignment
      bytes ++ List.replicate (padded - last) 0 ++ dataSection alignment data padded

/-- Every tensor has as many bytes as planned. -/
def Sized (plan : List TensorPlan) (data : List (List UInt8)) : Prop :=
  List.Forall₂ (fun t bytes => bytes.length = t.byteLen) plan data

/-- The tensor's bytes stand at its offset in the file. -/
def Placed (file : List UInt8) (dataStart : ℕ) (info : TensorInfo) (bytes : List UInt8) : Prop :=
  dataStart + info.offset.toNat + bytes.length ≤ file.length ∧
    (file.drop (dataStart + info.offset.toNat)).take bytes.length = bytes

namespace GgufWriter

theorem writeTensor_planned {w : GgufWriter} {t : TensorPlan} {plan : List TensorPlan}
    {bytes : List UInt8} (hplan : w.plan.drop w.next = t :: plan) (h : bytes.length = t.byteLen) :
    w.writeTensor t.name bytes =
      .ok { w with
        out := w.out ++ bytes ++ List.replicate
          (nextMultipleOf (w.written + bytes.length) w.alignment - (w.written + bytes.length)) 0
        written := nextMultipleOf (w.written + bytes.length) w.alignment
        next := w.next + 1 } := by
  have ht : w.plan[w.next]? = some t := by
    rw [← Nat.add_zero w.next, ← List.getElem?_drop, hplan]
    rfl
  rw [writeTensor, ht]
  dsimp only
  rw [if_neg (not_not_intro rfl), if_neg (not_not_intro h.symm)]

/-- Written in plan order, the tensors are accepted and make the data section. -/
theorem writeTensors_planned {w : GgufWriter} {plan : List TensorPlan} {data : List (List UInt8)}
    (hplan : w.plan.drop w.next = plan) (h : Sized plan data) :
    ∃ v : GgufWriter, w.writeTensors (plan.zip data) = .ok v ∧ v.plan = w.plan ∧
      v.next = w.next + plan.length ∧ v.out = w.out ++ dataSection w.alignment data w.written := by
  induction h generalizing w with
  | nil => exact ⟨w, rfl, rfl, rfl, (List.append_nil _).symm⟩
  | @cons t bytes plan data hlen _ ih =>
    have hdrop : w.plan.drop (w.next + 1) = plan := by
      rw [← List.drop_drop, hplan]
      rfl
    obtain ⟨v, hv, hvp, hvn, hvo⟩ := ih (w := { w with
      out := w.out ++ bytes ++ List.replicate
        (nextMultipleOf (w.written + bytes.length) w.alignment - (w.written + bytes.length)) 0
      written := nextMultipleOf (w.written + bytes.length) w.alignment
      next := w.next + 1 }) hdrop
    refine ⟨v, ?_, hvp, ?_, ?_⟩
    · rw [List.zip_cons_cons, writeTensors, writeTensor_planned hplan hlen]
      exact hv
    · rw [hvn, List.length_cons]
      show w.next + 1 + plan.length = _
      omega
    · rw [hvo, dataSection]
      simp only [List.append_assoc]

end GgufWriter

/-- A plan whose header was accepted is written with any data of the planned lengths. -/
theorem writeFile_planned {metadata : Metadata} {plan : List TensorPlan}
    {data : List (List UInt8)} {header : List UInt8} {alignment : ℕ}
    (ha : declaredAlignment (metadata.lookup "general.alignment") = .ok alignment)
    (hh : encodeHeader metadata plan = .ok header) (h : Sized plan data) :
    writeFile metadata plan data = .ok (header ++ dataSection alignment data 0) := by
  have hc : GgufWriter.create metadata plan = .ok ⟨header, alignment, plan, 0, 0⟩ := by
    rw [GgufWriter.create, ha, hh]
    rfl
  obtain ⟨v, hv, hvp, hvn, hvo⟩ :=
    GgufWriter.writeTensors_planned (w := ⟨header, alignment, plan, 0, 0⟩) (List.drop_zero ..) h
  have hend : v.plan[v.next]? = none := by
    rw [hvp, hvn, List.getElem?_eq_none_iff]
    exact Nat.le_of_eq (Nat.zero_add plan.length).symm
  calc writeFile metadata plan data = v.finish := by
        rw [writeFile, hc]
        show (GgufWriter.writeTensors _ _ >>= _) = _
        rw [hv]
        rfl
    _ = .ok v.out := by rw [GgufWriter.finish, hend]
    _ = .ok (header ++ dataSection alignment data 0) := by rw [hvo]

/-- Each tensor's bytes stand where its descriptor says. -/
theorem placed_planInfos {alignment dataStart offset : ℕ} {plan : List TensorPlan}
    {data : List (List UInt8)} {front descriptors : List UInt8} (ha : 0 < alignment)
    (hoffset : offset < USIZE_LIMIT) (hfront : front.length = dataStart + offset)
    (hd : writeDescriptors alignment plan offset = .ok descriptors) (h : Sized plan data) :
    List.Forall₂ (Placed (front ++ dataSection alignment data offset) dataStart)
      (planInfos alignment plan offset) data := by
  induction h generalizing offset front descriptors with
  | nil => exact .nil
  | @cons t bytes plan data hlen _ ih =>
    rw [writeDescriptors] at hd
    split at hd
    swap
    · cases hd
    rename_i hfit
    obtain ⟨rest, hrest, -⟩ := bind_eq_ok.mp hd
    have hoff : (BitVec.ofNat 64 offset).toNat = offset := by
      rw [BitVec.toNat_ofNat]
      exact Nat.mod_eq_of_lt hoffset
    constructor
    · rw [Placed, hoff, dataSection, ← hfront]
      constructor
      · simp only [List.length_append]
        omega
      · rw [List.drop_left, List.append_assoc, List.take_left]
    · have hle := le_nextMultipleOf (n := offset + bytes.length) ha
      rw [← hlen] at hrest hfit
      have hpadded : (front ++ (bytes ++ List.replicate
          (nextMultipleOf (offset + bytes.length) alignment - (offset + bytes.length)) 0)).length =
          dataStart + nextMultipleOf (offset + bytes.length) alignment := by
        simp only [List.length_append, List.length_replicate]
        omega
      have hnext := ih hfit.2 hpadded hrest
      rw [List.append_assoc] at hnext
      rw [← hlen]
      exact hnext

end Frink.Gguf
