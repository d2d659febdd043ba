import Mathlib
import Frink.Gguf.Cuts
import Frink.Gguf.RoundTrip

/-! # What the planner prices and the writer writes

Every shard is priced with the source's alignment. The writer pads with the
alignment in the shard's own metadata, which only the first shard has: the others
are padded to the default.
-/

namespace Frink.Gguf

open Codec Guarded

variable {source : GgufFile} {metadata : Metadata} {alignment count no nTensors : ℕ}
  {tensors : List TensorPlan} {bytesOf : String → Except GgufError (List UInt8)}

section Padding

theorem dvd_nextMultipleOf (n m : ℕ) : m ∣ nextMultipleOf n m := Nat.dvd_mul_left m _

theorem nextMultipleOf_le {n m k : ℕ} (hm : 0 < m) (hk : n ≤ k) (hd : m ∣ k) :
    nextMultipleOf n m ≤ k := by
  obtain ⟨c, rfl⟩ := hd
  rw [nextMultipleOf, Nat.mul_comm m c]
  apply Nat.mul_le_mul_right
  rw [← Nat.lt_succ_iff, Nat.div_lt_iff_lt_mul hm, Nat.succ_mul, Nat.mul_comm c m]
  omega

theorem nextMultipleOf_add {a n m : ℕ} (hm : 0 < m) (hd : m ∣ a) :
    nextMultipleOf (a + n) m = a + nextMultipleOf n m := by
  obtain ⟨c, rfl⟩ := hd
  have hsplit : m * c + n + m - 1 = m * c + (n + m - 1) := by omega
  rw [nextMultipleOf, nextMultipleOf, hsplit, Nat.mul_add_div hm, Nat.add_mul, Nat.mul_comm c m]

/-- A coarser alignment pads at least as far. -/
theorem nextMultipleOf_mono {n m k : ℕ} (hm : 0 < m) (hk : 0 < k) (hd : m ∣ k) :
    nextMultipleOf n m ≤ nextMultipleOf n k :=
  nextMultipleOf_le hm (le_nextMultipleOf hk) (hd.trans (dvd_nextMultipleOf n k))

theorem isPowerOfTwo_eq {n : ℕ} (h : isPowerOfTwo n = true) : ∃ k, n = 2 ^ k := by
  rw [isPowerOfTwo, Bool.and_eq_true, bne_iff_ne, beq_iff_eq] at h
  exact Nat.ne_zero_and_sub_one_eq_zero_iff_isPowerOfTwo.mp h

/-- Of two alignments one divides the other. -/
theorem alignment_dvd {a b : ℕ} (ha : isPowerOfTwo a = true) (hb : isPowerOfTwo b = true) :
    a ∣ b ∨ b ∣ a := by
  obtain ⟨k, rfl⟩ := isPowerOfTwo_eq ha
  obtain ⟨l, rfl⟩ := isPowerOfTwo_eq hb
  rcases Nat.le_total k l with h | h
  · exact Or.inl (Nat.pow_dvd_pow 2 h)
  · exact Or.inr (Nat.pow_dvd_pow 2 h)

theorem eq_of_sum_eq {xs : List TensorPlan} {f g : TensorPlan → ℕ} (hle : ∀ t, f t ≤ g t)
    (h : (xs.map f).sum = (xs.map g).sum) : ∀ t ∈ xs, f t = g t := by
  induction xs with
  | nil => simp
  | cons t xs ih =>
    simp only [List.map_cons, List.sum_cons] at h
    have hrest : (xs.map f).sum ≤ (xs.map g).sum := List.sum_le_sum fun u _ => hle u
    have hone := hle t
    intro u hu
    rcases List.mem_cons.mp hu with rfl | hu
    · omega
    · exact ih (by omega) u hu

/-- Two alignments pad a list to one length exactly when they pad each tensor alike. -/
theorem paddedSum_eq_iff {a b : ℕ} (ha : isPowerOfTwo a = true) (hb : isPowerOfTwo b = true) :
    paddedSum a tensors = paddedSum b tensors ↔
      ∀ t ∈ tensors, paddedLen a t = paddedLen b t := by
  constructor
  · intro h
    rcases alignment_dvd ha hb with hd | hd
    · exact eq_of_sum_eq
        (fun t => nextMultipleOf_mono (isPowerOfTwo_pos ha) (isPowerOfTwo_pos hb) hd) h
    · intro t ht
      exact (eq_of_sum_eq
        (fun t => nextMultipleOf_mono (isPowerOfTwo_pos hb) (isPowerOfTwo_pos ha) hd) h.symm t
          ht).symm
  · intro h
    exact congrArg List.sum (List.map_congr_left h)

theorem length_dataSection {data : List (List UInt8)} {written : ℕ} (ha : 0 < alignment)
    (hd : alignment ∣ written) :
    (dataSection alignment data written).length =
      (data.map fun bytes => nextMultipleOf bytes.length alignment).sum := by
  induction data generalizing written with
  | nil => rfl
  | cons bytes data ih =>
    have hle := le_nextMultipleOf (n := bytes.length) ha
    rw [dataSection, List.length_append, List.length_append, List.length_replicate,
      nextMultipleOf_add ha hd, ih (Nat.dvd_add hd (dvd_nextMultipleOf _ _)), List.map_cons,
      List.sum_cons]
    omega

end Padding

section Metadata

theorem lookup_toBTreeMap (metadata : Metadata) (key : String) :
    (toBTreeMap metadata).lookup key = metadata.lookup key :=
  List.perm_dlookup key (toBTreeMap metadata).nodupKeys (List.perm_insertionSort _ _)

/-- A shard has the source's other keys if it is the first, and none if it is not. -/
theorem lookup_shardMetadata {key : String} (hno : key ≠ SPLIT_NO_KEY)
    (hcount : key ≠ SPLIT_COUNT_KEY) (htensors : key ≠ SPLIT_TENSORS_COUNT_KEY) :
    (shardMetadata metadata no count nTensors).lookup key =
      if no = 0 then metadata.lookup key else none := by
  rw [shardMetadata, lookup_toBTreeMap]
  simp only [insertKeys, splitKeys, List.foldl_cons, List.foldl_nil]
  rw [AList.lookup_insert_ne htensors, AList.lookup_insert_ne hcount, AList.lookup_insert_ne hno]
  split <;> rfl

/-- The alignment that a shard is written with. -/
theorem declaredAlignment_shard (no count nTensors : ℕ)
    (ha : declaredAlignment (metadata.lookup "general.alignment") = .ok alignment) :
    declaredAlignment ((shardMetadata metadata no count nTensors).lookup "general.alignment") =
      .ok (if no = 0 then alignment else DEFAULT_ALIGNMENT) := by
  rw [lookup_shardMetadata (by decide) (by decide) (by decide)]
  split
  · exact ha
  · rfl

end Metadata

section Write

/-- The bytes found under the planned names, each as long as planned. -/
abbrev Found (bytesOf : String → Except GgufError (List UInt8)) (tensors : List TensorPlan)
    (data : List (List UInt8)) : Prop :=
  List.Forall₂ (fun t bytes => bytesOf t.name = .ok bytes ∧ bytes.length = t.byteLen) tensors data

theorem Found.sized {data : List (List UInt8)} (h : Found bytesOf tensors data) :
    Sized tensors data := h.imp fun _ _ hb => hb.2

theorem Found.congr {bytesOf' : String → Except GgufError (List UInt8)} {data : List (List UInt8)}
    (h : Found bytesOf tensors data) (heq : ∀ t ∈ tensors, bytesOf' t.name = bytesOf t.name) :
    Found bytesOf' tensors data := by
  induction h with
  | nil => exact .nil
  | cons hb _ ih =>
    obtain ⟨hhere, hrest⟩ := List.forall_mem_cons.mp heq
    exact .cons ⟨hhere.trans hb.1, hb.2⟩ (ih hrest)

theorem writeNamed_found {data : List (List UInt8)} (w : GgufWriter)
    (h : Found bytesOf tensors data) :
    writeNamed bytesOf w tensors = (w.writeTensors (tensors.zip data)).mapError .write := by
  induction h generalizing w with
  | nil => rfl
  | @cons t bytes tensors data hb _ ih =>
    rw [writeNamed, List.zip_cons_cons, GgufWriter.writeTensors, hb.1]
    show ((w.writeTensor t.name bytes).mapError SplitError.write >>= _) = _
    cases hw : w.writeTensor t.name bytes with
    | error e => rfl
    | ok w' => exact ih w'

theorem writeNamed_ok {w v : GgufWriter} (hplan : w.plan.drop w.next = tensors)
    (h : writeNamed bytesOf w tensors = .ok v) : ∃ data, Found bytesOf tensors data := by
  induction tensors generalizing w with
  | nil => exact ⟨[], .nil⟩
  | cons t tensors ih =>
    obtain ⟨bytes, hb, h⟩ := bind_eq_ok.mp h
    obtain ⟨w', hw, h⟩ := bind_eq_ok.mp h
    have hw := mapError_eq_ok.mp hw
    have ht : w.plan[w.next]? = some t := by
      rw [← Nat.add_zero w.next, ← List.getElem?_drop, hplan]
      rfl
    have hdrop : w.plan.drop (w.next + 1) = tensors := by
      rw [← List.drop_drop, hplan]
      rfl
    rw [GgufWriter.writeTensor, ht] at hw
    dsimp only at hw
    split at hw
    · cases hw
    split at hw
    · cases hw
    rename_i hlen
    cases hw
    obtain ⟨data, hdata⟩ := ih hdrop h
    exact ⟨bytes :: data, .cons ⟨mapError_eq_ok.mp hb, (not_not.mp hlen).symm⟩ hdata⟩

/-- Tensors that are found are written after their header, each padded. -/
theorem writeFileFrom_found {data : List (List UInt8)} {header : List UInt8}
    (ha : declaredAlignment (metadata.lookup "general.alignment") = .ok alignment)
    (hh : encodeHeader metadata tensors = .ok header) (h : Found bytesOf tensors data) :
    writeFileFrom bytesOf metadata tensors = .ok (header ++ dataSection alignment data 0) := by
  have hfile := writeFile_planned ha hh h.sized
  rw [writeFile] at hfile
  obtain ⟨w, hw, hfile⟩ := bind_eq_ok.mp hfile
  obtain ⟨v, hv, hfile⟩ := bind_eq_ok.mp hfile
  rw [writeFileFrom, hw]
  show (writeNamed bytesOf w tensors >>= fun w => w.finish.mapError .write) = _
  rw [writeNamed_found w h, hv]
  show v.finish.mapError SplitError.write = _
  rw [hfile]
  rfl

/-- What is written was found. -/
theorem writeFileFrom_ok {out header : List UInt8}
    (ha : declaredAlignment (metadata.lookup "general.alignment") = .ok alignment)
    (hh : encodeHeader metadata tensors = .ok header)
    (h : writeFileFrom bytesOf metadata tensors = .ok out) :
    ∃ data, Found bytesOf tensors data ∧ out = header ++ dataSection alignment data 0 := by
  have hwritten := h
  obtain ⟨w, hw, h⟩ := bind_eq_ok.mp h
  obtain ⟨v, hv, -⟩ := bind_eq_ok.mp h
  have hw := mapError_eq_ok.mp hw
  rw [GgufWriter.create, ha, hh] at hw
  have hplan : w.plan.drop w.next = tensors := by
    cases hw
    rfl
  obtain ⟨data, hdata⟩ := writeNamed_ok hplan hv
  refine ⟨data, hdata, ?_⟩
  rw [writeFileFrom_found ha hh hdata] at hwritten
  exact (Except.ok.inj hwritten).symm

theorem length_found {data : List (List UInt8)} (ha : 0 < alignment)
    (h : Found bytesOf tensors data) :
    (dataSection alignment data 0).length = paddedSum alignment tensors := by
  rw [length_dataSection ha (Nat.dvd_zero alignment)]
  induction h with
  | nil => rfl
  | @cons t bytes tensors data hb _ ih =>
    rw [List.map_cons, List.sum_cons, ih, hb.2]
    rfl

end Write

end Frink.Gguf
