import Frink.Gguf.Split
import Frink.Gguf.Layout

/-! # Where the planner cuts

The shards of a plan hold the tensors in order, none but the first is empty, and
each keeps to the limit. What the first holds is known from the options and the
sizes alone.
-/

namespace Frink.Gguf

open Codec Guarded

variable {mode : SplitMode} {alignment i : ℕ} {g g' : Groups} {t : TensorPlan}
  {done ts : List TensorPlan}

/-- The bytes a tensor takes with its padding. -/
def paddedLen (alignment : ℕ) (t : TensorPlan) : ℕ := nextMultipleOf t.byteLen alignment

def paddedSum (alignment : ℕ) (ts : List TensorPlan) : ℕ := (ts.map (paddedLen alignment)).sum

/-- What a tensor does to the open shard. -/
theorem placeTensor_ok (h : placeTensor mode alignment g i t = .ok g') :
    (boundary mode i (saturatingAdd g.current (paddedLen alignment t)) = true ∧ g.last ≠ [] ∧
        g' = ⟨g.closed ++ [g.last], [t], paddedLen alignment t⟩) ∨
      (boundary mode i (saturatingAdd g.current (paddedLen alignment t)) = false ∧
        g' = ⟨g.closed, g.last ++ [t], saturatingAdd g.current (paddedLen alignment t)⟩) := by
  unfold placeTensor at h
  obtain ⟨padded, hp, h⟩ := bind_eq_ok.mp h
  obtain ⟨-, rfl⟩ := fitU64_eq_ok.mp hp
  dsimp only at h
  split at h
  · rename_i hb
    split at h
    · cases h
    · rename_i hne
      cases h
      exact Or.inl ⟨hb, hne, rfl⟩
  · rename_i hb
    cases h
    exact Or.inr ⟨Bool.eq_false_iff.mpr hb, rfl⟩

/-- What placing one tensor preserves, placing them all preserves. -/
theorem placeTensors_keeps {P : List TensorPlan → Groups → Prop}
    (hstep : ∀ done g t g', P done g → placeTensor mode alignment g done.length t = .ok g' →
      P (done ++ [t]) g')
    (hg : P done g) (h : placeTensors mode alignment done.length g ts = .ok g') :
    P (done ++ ts) g' := by
  induction ts generalizing done g with
  | nil =>
    cases h
    rwa [List.append_nil]
  | cons t ts ih =>
    obtain ⟨g₁, h₁, h⟩ := bind_eq_ok.mp h
    have hlen : done.length + 1 = (done ++ [t]).length := by simp
    rw [hlen] at h
    have hall := ih (hstep done g t g₁ hg h₁) h
    rwa [List.append_assoc, List.singleton_append] at hall

/-- The shards hold what was placed, in order, and only the first may be empty. -/
structure InOrder (done : List TensorPlan) (g : Groups) : Prop where

  flatten : g.toList.flatten = done
  closed : ∀ group ∈ g.closed.tail, group ≠ []
  last : done ≠ [] → g.last ≠ []

theorem InOrder.place (h : InOrder done g)
    (hp : placeTensor mode alignment g i t = .ok g') : InOrder (done ++ [t]) g' := by
  have hflat := h.flatten
  unfold Groups.toList at hflat
  obtain ⟨-, hlast, rfl⟩ | ⟨-, rfl⟩ := placeTensor_ok hp
  · refine ⟨?_, ?_, by simp⟩
    · simp [Groups.toList, ← hflat]
    · intro group hmem
      dsimp only at hmem
      cases hc : g.closed with
      | nil => simp [hc] at hmem
      | cons first rest =>
        rw [hc, List.cons_append, List.tail_cons, List.mem_append, List.mem_singleton] at hmem
        rcases hmem with hmem | rfl
        · exact h.closed group (by rwa [hc])
        · exact hlast
  · refine ⟨?_, h.closed, by simp⟩
    simp [Groups.toList, ← hflat]

theorem InOrder.start (opts : SplitOptions) : InOrder [] (.start opts) := by
  refine ⟨?_, ?_, by simp⟩
  · unfold Groups.start Groups.toList
    split <;> rfl
  · unfold Groups.start
    split <;> simp

/-- Only the first shard may be empty, unless there is nothing to place. -/
theorem InOrder.tail_ne (h : InOrder done g) (hne : done ≠ []) :
    ∀ group ∈ g.toList.tail, group ≠ [] := by
  intro group hmem
  unfold Groups.toList at hmem
  cases hc : g.closed with
  | nil => simp [hc] at hmem
  | cons first rest =>
    rw [hc, List.cons_append, List.tail_cons, List.mem_append, List.mem_singleton] at hmem
    rcases hmem with hmem | rfl
    · exact h.closed group (by rwa [hc])
    · exact h.last hne

/-- A shard within its limit: a number of tensors, or padded bytes counted up to 64 bits. -/
def Limited (mode : SplitMode) (alignment : ℕ) (ts : List TensorPlan) : Prop :=
  match mode with
  | .maxTensors n => ts.length ≤ n
  | .maxBytes max => min (paddedSum alignment ts) (U64_LIMIT - 1) ≤ max ∨
      ∃ t, ts = [t] ∧ max < paddedLen alignment t

/-- How full the open shard is. -/
def Filled (mode : SplitMode) (alignment : ℕ) (done : List TensorPlan) (g : Groups) : Prop :=
  match mode with
  | .maxTensors n => g.last.length = if done = [] then 0 else (done.length - 1) % n + 1
  | .maxBytes _ => g.current = min (paddedSum alignment g.last) (U64_LIMIT - 1)

structure Keeping (mode : SplitMode) (alignment : ℕ) (done : List TensorPlan) (g : Groups) :
    Prop where

  limited : ∀ group ∈ g.toList, Limited mode alignment group
  filled : Filled mode alignment done g

theorem saturatingAdd_min (a b : ℕ) :
    saturatingAdd (min a (U64_LIMIT - 1)) b = min (a + b) (U64_LIMIT - 1) := by
  unfold saturatingAdd
  omega

@[simp] theorem paddedSum_append (ts : List TensorPlan) (t : TensorPlan) :
    paddedSum alignment (ts ++ [t]) = paddedSum alignment ts + paddedLen alignment t := by
  simp [paddedSum]

theorem mod_add_one_of_not_dvd {k n : ℕ} (hn : 0 < n) (hk : 0 < k) (h : k % n ≠ 0) :
    (k - 1) % n + 1 = k % n := by
  obtain ⟨m, rfl⟩ := Nat.exists_eq_add_of_lt hk
  simp only [Nat.zero_add, Nat.add_sub_cancel] at h ⊢
  rw [Nat.add_mod] at h ⊢
  have hlt := Nat.mod_lt m hn
  by_cases h1 : n = 1
  · subst h1
    exact absurd (Nat.mod_one _) h
  · rw [Nat.mod_eq_of_lt (by omega : 1 < n)] at h ⊢
    by_cases hfull : m % n + 1 = n
    · rw [hfull, Nat.mod_self] at h
      exact absurd rfl h
    · exact (Nat.mod_eq_of_lt (by omega)).symm

def ModePos : SplitMode → Prop
  | .maxTensors n => 0 < n
  | .maxBytes _ => True

theorem Keeping.place (hm : ModePos mode) (h : Keeping mode alignment done g)
    (hp : placeTensor mode alignment g done.length t = .ok g') :
    Keeping mode alignment (done ++ [t]) g' := by
  have hclosed : ∀ group ∈ g.closed, Limited mode alignment group := fun group hg =>
    h.limited group (List.mem_append_left _ hg)
  have hlast : Limited mode alignment g.last :=
    h.limited g.last (List.mem_append_right _ (List.mem_singleton_self _))
  have hfill := h.filled
  suffices hnew : Limited mode alignment g'.last ∧ Filled mode alignment (done ++ [t]) g' ∧
      ∀ group ∈ g'.closed, Limited mode alignment group by
    refine ⟨?_, hnew.2.1⟩
    intro group hmem
    rcases List.mem_append.mp hmem with hmem | hmem
    · exact hnew.2.2 group hmem
    · rw [List.mem_singleton.mp hmem]
      exact hnew.1
  obtain ⟨hb, -, rfl⟩ | ⟨hb, rfl⟩ := placeTensor_ok hp
  · have hclosed' : ∀ group ∈ g.closed ++ [g.last], Limited mode alignment group := by
      intro group hmem
      rcases List.mem_append.mp hmem with hmem | hmem
      · exact hclosed group hmem
      · rw [List.mem_singleton.mp hmem]
        exact hlast
    refine ⟨?_, ?_, hclosed'⟩
    · cases mode with
      | maxTensors n => exact hm
      | maxBytes max =>
        by_cases hfit : paddedLen alignment t ≤ max
        · left
          simp only [paddedSum, List.map_cons, List.map_nil, List.sum_cons, List.sum_nil]
          omega
        · exact Or.inr ⟨t, rfl, by omega⟩
    · cases mode with
      | maxTensors n =>
        simp only [boundary, Bool.and_eq_true, decide_eq_true_eq, beq_iff_eq] at hb
        simp [Filled, hb.2]
      | maxBytes max =>
        have hpad : paddedLen alignment t < U64_LIMIT := by
          unfold placeTensor at hp
          obtain ⟨padded, hfit, -⟩ := bind_eq_ok.mp hp
          obtain ⟨hlt, -⟩ := fitU64_eq_ok.mp hfit
          exact hlt
        simp only [Filled, paddedSum, List.map_cons, List.map_nil, List.sum_cons, List.sum_nil]
        omega
  · cases mode with
    | maxTensors n =>
      simp only [boundary, Bool.and_eq_false_iff, decide_eq_false_iff_not, beq_eq_false_iff_ne,
        Nat.not_lt, Nat.le_zero] at hb
      have hlen : g.last.length = done.length % n := by
        simp only [Filled] at hfill
        rw [hfill]
        split
        · rename_i hnil
          simp [hnil]
        · rename_i hnil
          have hpos := List.length_pos_of_ne_nil hnil
          exact mod_add_one_of_not_dvd hm hpos (hb.resolve_left (by omega))
      have hlt := Nat.mod_lt done.length hm
      refine ⟨?_, ?_, hclosed⟩
      · simp only [Limited, List.length_append, List.length_singleton]
        omega
      · simp [Filled, hlen]
    | maxBytes max =>
      simp only [boundary, decide_eq_false_iff_not, Nat.not_lt] at hb
      simp only [Filled] at hfill
      rw [hfill, saturatingAdd_min] at hb
      refine ⟨?_, ?_, hclosed⟩
      · left
        rwa [paddedSum_append]
      · rw [Filled, paddedSum_append, hfill, saturatingAdd_min]

theorem Keeping.start (opts : SplitOptions) : Keeping opts.mode alignment [] (.start opts) := by
  have hempty : Limited opts.mode alignment [] := by
    unfold Limited
    split
    · exact Nat.zero_le _
    · left
      exact Nat.zero_le _
  constructor
  · intro group hmem
    unfold Groups.start Groups.toList at hmem
    split at hmem
    · rcases List.mem_cons.mp hmem with rfl | hmem
      · exact hempty
      · rwa [List.mem_singleton.mp hmem]
    · rwa [List.mem_singleton.mp hmem]
  · unfold Filled Groups.start
    split
    · rfl
    · rfl

section First

/-- How many tensors follow the padded bytes `used` before the limit is passed. -/
def fitting (max alignment : ℕ) : ℕ → List TensorPlan → ℕ
  | _, [] => 0
  | used, t :: ts =>
      if saturatingAdd used (paddedLen alignment t) ≤ max then
        fitting max alignment (saturatingAdd used (paddedLen alignment t)) ts + 1
      else 0

/-- How many tensors the first shard takes. -/
def firstShare (opts : SplitOptions) (alignment : ℕ) (ts : List TensorPlan) : ℕ :=
  if opts.noTensorFirstSplit then 0
  else
    match opts.mode with
    | .maxTensors n => n
    | .maxBytes max => fitting max alignment 0 ts

/-- A closed shard stays as it is. -/
theorem closed_prefix (h : placeTensors mode alignment i g ts = .ok g') : g.closed <+: g'.closed := by
  induction ts generalizing i g with
  | nil =>
    cases h
    exact List.prefix_refl _
  | cons t ts ih =>
    obtain ⟨g₁, h₁, h⟩ := bind_eq_ok.mp h
    have hrest := ih h
    obtain ⟨-, -, rfl⟩ | ⟨-, rfl⟩ := placeTensor_ok h₁
    · exact (List.prefix_append _ _).trans hrest
    · exact hrest

theorem head_of_closed {first : List TensorPlan} (h : placeTensors mode alignment i g ts = .ok g')
    (hc : g.closed.head? = some first) : g'.toList.head? = some first := by
  obtain ⟨rest, hrest⟩ := closed_prefix h
  unfold Groups.toList
  rw [← hrest]
  cases hg : g.closed with
  | nil => simp [hg] at hc
  | cons head tail =>
    rw [hg] at hc
    exact hc

/-- While no shard is closed, the first takes as many tensors as the limit leaves. -/
theorem head_maxTensors {n : ℕ} (h : placeTensors (.maxTensors n) alignment i g ts = .ok g')
    (hi : i ≤ n) (hn : 0 < n) (hc : g.closed = []) :
    g'.toList.head? = some (g.last ++ ts.take (n - i)) := by
  induction ts generalizing i g with
  | nil =>
    cases h
    simp [Groups.toList, hc]
  | cons t ts ih =>
    obtain ⟨g₁, h₁, h⟩ := bind_eq_ok.mp h
    obtain ⟨hb, -, rfl⟩ | ⟨hb, rfl⟩ := placeTensor_ok h₁
    · simp only [boundary, Bool.and_eq_true, decide_eq_true_eq, beq_iff_eq] at hb
      have hin : i = n := by
        have := Nat.le_of_dvd hb.1 (Nat.dvd_of_mod_eq_zero hb.2)
        omega
      subst hin
      have hfirst : (g.closed ++ [g.last]).head? = some g.last := by simp [hc]
      rw [head_of_closed h hfirst]
      simp
    · have hlt : i < n := by
        by_contra hge
        have hin : i = n := by omega
        subst hin
        simp [boundary, hn] at hb
      rw [ih h (by omega) hc]
      have hsub : n - i = n - (i + 1) + 1 := by omega
      simp [hsub]

theorem head_maxBytes {max : ℕ} (h : placeTensors (.maxBytes max) alignment i g ts = .ok g')
    (hc : g.closed = []) :
    g'.toList.head? = some (g.last ++ ts.take (fitting max alignment g.current ts)) := by
  induction ts generalizing i g with
  | nil =>
    cases h
    simp [Groups.toList, hc]
  | cons t ts ih =>
    obtain ⟨g₁, h₁, h⟩ := bind_eq_ok.mp h
    obtain ⟨hb, -, rfl⟩ | ⟨hb, rfl⟩ := placeTensor_ok h₁
    · simp only [boundary, decide_eq_true_eq] at hb
      have hfirst : (g.closed ++ [g.last]).head? = some g.last := by simp [hc]
      rw [head_of_closed h hfirst, fitting, if_neg (by omega)]
      simp
    · simp only [boundary, decide_eq_false_iff_not, Nat.not_lt] at hb
      rw [ih h hc, fitting, if_pos hb]
      simp

theorem head_start {opts : SplitOptions} (hm : ModePos opts.mode)
    (h : placeTensors opts.mode alignment 0 (.start opts) ts = .ok g) :
    g.toList.head? = some (ts.take (firstShare opts alignment ts)) := by
  unfold firstShare
  obtain ⟨mode, skip⟩ := opts
  cases skip with
  | true =>
    rw [head_of_closed h rfl]
    rfl
  | false =>
    cases mode with
    | maxTensors n => exact head_maxTensors h (Nat.zero_le n) hm rfl
    | maxBytes max => exact head_maxBytes h rfl

end First

end Frink.Gguf
