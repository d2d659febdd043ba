import Frink.Library.Keyed
import Frink.Paged.Admission
import Frink.Paged.Rows

/-! # Requests over one memory

The requests of a deployment without a sliding window, over one store: each is admitted over a
prefix the tree holds, runs forward passes that write its layers one row at a time, may be
forked between two passes and ends by dropping its lease. The tree takes and gives up holds on
written pages. Rows of different requests interleave freely.
-/

/-! ## Forking and dropping a lease

A fork shares the groups whose positions are all written, takes a fresh group for each of the
others and copies the part-written one; a dropped lease gives back every group it holds.
-/

namespace Frink.Paged

/-- Why a fork could not be taken. -/
inductive ForkRefused
  | slidingWindow
  | storeExhausted
  deriving DecidableEq

/-- One holder fewer for each group. -/
def releaseAll : List PageGroup → SharedPagedKv → Option SharedPagedKv
  | [], store => some store
  | g :: groups, store => do
      let (_, store) ← store.releaseGroup g
      releaseAll groups store

/-- One holder more for each group of a table, up to its first hole: the groups before a hole
keep the hold they were given. -/
def retainShared :
    List (Option PageGroup) → SharedPagedKv → Option (Option (List PageGroup) × SharedPagedKv)
  | [], store => some (some [], store)
  | none :: _, store => some (none, store)
  | some g :: slots, store => do
      let store ← store.retainGroup g
      let (rest, store) ← retainShared slots store
      some (rest.map fun groups => g :: groups, store)

/-- Each cache on the blocks that `groups` have in its layer. -/
def retableAll (store : SharedPagedKv) (groups : List PageGroup) (caches : List PagedKvCache) :
    Option (List PagedKvCache) :=
  caches.zipIdx.mapM fun (c, layer) => do
    let table ← groups.mapM fun g => do
      let blocks ← store.groupBlocks g
      blocks[layer]?
    c.retable table

namespace PagedLease

variable {α : Type} (l : PagedLease)

/-- The length a fork goes by, which is the first layer's. -/
def seqLen : ℕ := (l.caches.head?.map PagedKvCache.seqLen).getD 0

/-- Copy the part-written group into the first fresh one, if there is one. -/
def copyTail (blockSize : ℕ) (fresh : List PageGroup) (m : PagedMemory α) :
    Option (PagedMemory α) :=
  if l.seqLen % blockSize = 0 then some m
  else
    match l.groups[l.seqLen / blockSize]? with
    | some (some tail) => do
        let first ← fresh.head?
        m.copyGroup tail first
    | _ => some m

/-- A second sequence at this one's state; `none` where the code panics. -/
def fork (m : PagedMemory α) : Option (Except ForkRefused PagedLease × PagedMemory α) :=
  if l.window.isSome then some (.error .slidingWindow, m)
  else do
    let blockSize ← m.kv.blockSize
    let shared := l.seqLen / blockSize
    if l.groups.length < shared then some (.error .slidingWindow, m)
    else do
      let freshNeeded := l.groups.length - shared
      let (fresh, kv) := gather freshNeeded m.kv []
      if fresh.length < freshNeeded then do
        let kv ← releaseAll fresh kv
        some (.error .storeExhausted, { m with kv := kv })
      else do
        let (kept, kv) ← retainShared (l.groups.take shared) kv
        match kept with
        | none => do
            let kv ← releaseAll fresh kv
            some (.error .slidingWindow, { m with kv := kv })
        | some kept => do
            let m ← l.copyTail blockSize fresh { m with kv := kv }
            let caches ← retableAll m.kv (kept ++ fresh) l.caches
            some (.ok ⟨caches, (kept ++ fresh).map some, [], none, false, l.salt, none⟩, m)

/-- Give every group back; the tree's lock is the tree's. -/
def drop (store : SharedPagedKv) : Option SharedPagedKv := releaseAll l.held store

end PagedLease

section Counting

variable {s s' : SharedPagedKv} {P : ℕ} {groups : List PageGroup}

/-- What holders gained or lost leaves of a store: every group that still has one keeps its
blocks. -/
structure Recounted (s s' : SharedPagedKv) (P : ℕ) : Prop where
  kept : ∀ g, 0 < s.groupRefs g → 0 < s'.groupRefs g → s'.groupBlocks g = s.groupBlocks g
  layers : s'.layers.length = s.layers.length
  pool : ∀ i < s.layers.length, (s'.pool i).Perm (s.pool i)
  backed : s'.Backed P

theorem Recounted.refl (h : s.Backed P) : Recounted s s P :=
  ⟨fun _ _ _ => rfl, rfl, fun _ _ => List.Perm.refl _, h⟩

/-- Two changes in a row, where what lives through both lives in between. -/
theorem Recounted.trans {s₁ : SharedPagedKv} (h : Recounted s s₁ P) (h' : Recounted s₁ s' P)
    (hlive : ∀ g, 0 < s.groupRefs g → 0 < s'.groupRefs g → 0 < s₁.groupRefs g) :
    Recounted s s' P where
  kept g hg hg' := (h'.kept g (hlive g hg hg') hg').trans (h.kept g hg (hlive g hg hg'))
  layers := h'.layers.trans h.layers
  pool i hi := (h'.pool i (h.layers ▸ hi)).trans (h.pool i hi)
  backed := h'.backed

theorem Gained.recounted {fresh : List PageGroup} (h : Gained s fresh s' P) : Recounted s s' P :=
  ⟨fun g hg _ => h.kept g hg, h.layers, h.pool, h.backed⟩

theorem retainShared_spec (h : s.Backed P) (hlive : ∀ g ∈ groups, 0 < s.groupRefs g) :
    ∃ s', retainShared (groups.map some) s = some (some groups, s') ∧
      (∀ g, s'.groupRefs g = s.groupRefs g + groups.count g) ∧ Recounted s s' P := by
  induction groups generalizing s with
  | nil => exact ⟨s, rfl, fun _ => rfl, .refl h⟩
  | cons g groups ih =>
    obtain ⟨s₁, he, hr, hb, hl, hp, hs⟩ :=
      SharedPagedKv.retainGroup_backed h (hlive g List.mem_cons_self)
    have hge : ∀ g', s.groupRefs g' ≤ s₁.groupRefs g' := by
      intro g'
      rw [hr]
      rcases eq_or_ne g' g with rfl | hne
      · rw [Function.update_self]
        exact Nat.le_succ _
      · rw [Function.update_of_ne hne]
    obtain ⟨s', he', hr', hrec⟩ := ih hs fun g' hg' =>
      (hlive g' (List.mem_cons_of_mem g hg')).trans_le (hge g')
    have hfirst : Recounted s s₁ P :=
      ⟨fun g' _ _ => congrFun hb g', congrArg List.length hl, fun i _ => hp ▸ List.Perm.refl _, hs⟩
    refine ⟨s', ?_, fun g' => ?_, hfirst.trans hrec fun g' hg' _ => hg'.trans_le (hge g')⟩
    · simp only [List.map_cons, retainShared, he, Option.bind_eq_bind, Option.bind_some, he',
        Option.map_some]
    · rw [hr', hr, List.count_cons]
      rcases eq_or_ne g' g with rfl | hne
      · rw [Function.update_self, beq_self_eq_true, if_pos rfl]
        omega
      · rw [Function.update_of_ne hne, if_neg (by simpa using hne.symm), Nat.add_zero]

theorem releaseAll_spec (h : s.Backed P) (hle : ∀ g, groups.count g ≤ s.groupRefs g) :
    ∃ s', releaseAll groups s = some s' ∧
      (∀ g, s'.groupRefs g = s.groupRefs g - groups.count g) ∧ Recounted s s' P := by
  induction groups generalizing s with
  | nil => exact ⟨s, rfl, fun _ => rfl, .refl h⟩
  | cons g groups ih =>
    have hlive : 0 < s.groupRefs g := by
      have := hle g
      rw [List.count_cons_self] at this
      omega
    obtain ⟨last, s₁, he, hr, hb, hl, hp, hs⟩ := SharedPagedKv.releaseGroup_backed h hlive
    have hcount : ∀ g', s₁.groupRefs g' - groups.count g' =
        s.groupRefs g' - (g :: groups).count g' ∧ groups.count g' ≤ s₁.groupRefs g' := by
      intro g'
      have hg' := hle g'
      rw [List.count_cons] at hg' ⊢
      rcases eq_or_ne g' g with rfl | hne
      · rw [beq_self_eq_true, if_pos rfl] at hg' ⊢
        rw [hr, Function.update_self]
        omega
      · rw [if_neg (by simpa using hne.symm)] at hg' ⊢
        rw [hr, Function.update_of_ne hne]
        omega
    obtain ⟨s', he', hr', hrec⟩ := ih hs fun g' => (hcount g').2
    have hfirst : Recounted s s₁ P := ⟨fun g' _ => hb g', hl, hp, hs⟩
    refine ⟨s', ?_, fun g' => (hr' g').trans (hcount g').1, hfirst.trans hrec fun g' _ hg' => ?_⟩
    · simp only [releaseAll, he, Option.bind_eq_bind, Option.bind_some, he']
    · rw [hr'] at hg'
      omega

end Counting

section Retabling

theorem mapM_getElem? {β γ : Type} {f : β → Option γ} {xs : List β} {ys : List γ}
    (h : xs.mapM f = some ys) (i : ℕ) : ys[i]? = xs[i]?.bind f := by
  induction xs generalizing ys i with
  | nil =>
    obtain rfl : [] = ys := Option.some.inj h
    rfl
  | cons x xs ih =>
    rw [List.mapM_cons] at h
    obtain ⟨y, hy, h⟩ := Option.bind_eq_some_iff.mp h
    obtain ⟨zs, hz, h⟩ := Option.bind_eq_some_iff.mp h
    obtain rfl : y :: zs = ys := Option.some.inj h
    cases i with
    | zero => exact hy.symm
    | succ i => exact ih hz i

theorem mapM_length {β γ : Type} {f : β → Option γ} {xs : List β} {ys : List γ}
    (h : xs.mapM f = some ys) : ys.length = xs.length := by
  induction xs generalizing ys with
  | nil =>
    obtain rfl : [] = ys := Option.some.inj h
    rfl
  | cons x xs ih =>
    rw [List.mapM_cons] at h
    obtain ⟨y, -, h⟩ := Option.bind_eq_some_iff.mp h
    obtain ⟨zs, hz, h⟩ := Option.bind_eq_some_iff.mp h
    obtain rfl : y :: zs = ys := Option.some.inj h
    exact congrArg (· + 1) (ih hz)

variable {store : SharedPagedKv} {groups : List PageGroup} {caches caches' : List PagedKvCache}

/-- Each cache keeps its length and names the groups' blocks of its layer, and nothing else. -/
theorem retableAll_spec (h : retableAll store groups caches = some caches') :
    caches'.length = caches.length ∧
      ∀ (layer : ℕ) (c' : PagedKvCache), caches'[layer]? = some c' → ∃ c, caches[layer]? = some c ∧
        c'.seqLen = c.seqLen ∧ c.blockTable.length ≤ groups.length ∧
        c'.blockTable.length = groups.length ∧
        ∀ a : ℕ, c'.blockTable[a]? =
          groups[a]?.bind fun g => (store.groupBlocks g).bind fun blocks => blocks[layer]? := by
  refine ⟨?_, fun layer c' hc' => ?_⟩
  · rw [mapM_length h, List.length_zipIdx]
  · rw [mapM_getElem? h, List.getElem?_zipIdx] at hc'
    obtain ⟨⟨c, i⟩, hci, hc'⟩ := Option.bind_eq_some_iff.mp hc'
    obtain ⟨c₁, hc, heq⟩ := Option.map_eq_some_iff.mp hci
    obtain ⟨rfl, rfl⟩ := Prod.mk.inj heq
    obtain ⟨table, htable, hre⟩ := Option.bind_eq_some_iff.mp hc'
    unfold PagedKvCache.retable at hre
    split at hre
    swap
    · cases hre
    rename_i hlen
    obtain rfl := Option.some.inj hre
    rw [Nat.zero_add] at htable
    refine ⟨c₁, hc, rfl, ?_, mapM_length htable, mapM_getElem? htable⟩
    rwa [← mapM_length htable]

end Retabling

end Frink.Paged

namespace Frink.Paged
open Radix

variable {α : Type}

/-- One request: its lease and the position its forward passes have been asked to reach. -/
structure Sequence where
  lease : PagedLease
  pos : ℕ

/-- `running` has an entry for every request ever admitted or forked, `none` once dropped;
`cached` is what the tree holds. -/
structure Serving (α : Type) where
  memory : PagedMemory α
  running : List (Option Sequence)
  cached : List PageGroup

inductive Act (α : Type)
  | acquire (groups : List PageGroup) (node : Option Handle) (config : PagedKvConfig)
      (promptLen maxSeqLen : ℕ) (salt : Option ℕ)
  | publish (i : ℕ) (pages : List ℕ)
  | evict (group : PageGroup)
  | forward (i n : ℕ)
  | reserve (i layer n : ℕ)
  | push (i layer : ℕ) (k v : List α)
  | fork (i : ℕ)
  | drop (i : ℕ)

/-- No forward pass is under way: every layer that keeps rows is at the position. -/
def Sequence.AtRest (q : Sequence) (m : PagedMemory α) : Prop :=
  ∀ p ∈ q.lease.caches.zip m.rows, p.2.Keeps → p.1.seqLen = q.pos

instance (q : Sequence) (m : PagedMemory α) : Decidable (q.AtRest m) :=
  inferInstanceAs (Decidable (∀ p ∈ _, _ → _))

namespace PagedLease

variable (l : PagedLease)

/-- Take blocks for `n` more positions of one layer. -/
def reserveAt (layer n : ℕ) (kv : SharedPagedKv) : Option (PagedLease × SharedPagedKv) := do
  let c ← l.caches[layer]?
  let s ← kv.layers[layer]?
  let (c, s) ← c.reserve s n
  some ({ l with caches := l.caches.set layer c }, { kv with layers := kv.layers.set layer s })

/-- Append one position's rows in one layer. -/
def pushAt (layer : ℕ) (k v : List α) (m : PagedMemory α) :
    Option (PagedLease × PagedMemory α) := do
  let c ← l.caches[layer]?
  let s ← m.kv.layers[layer]?
  let r ← m.rows[layer]?
  let (c, s, r) ← c.pushRows s r k v
  some ({ l with caches := l.caches.set layer c },
    ⟨{ m.kv with layers := m.kv.layers.set layer s }, m.rows.set layer r⟩)

end PagedLease

namespace Serving

variable (σ : Serving α)

/-- The request at an index, if it is still running. -/
def sequence (i : ℕ) : Option Sequence := σ.running[i]?.join

/-- A deployment that has served nothing: one width for K and one for V in each layer. -/
def start (zero : α) (blockSize totalBlocks : ℕ) (widths : List (ℕ × ℕ)) : Option (Serving α) := do
  let kv ← SharedPagedKv.new widths.length blockSize totalBlocks
  some ⟨⟨kv, widths.map fun w => .zeroed zero blockSize totalBlocks w.1 w.2⟩, [], []⟩

/-- Admit a request without a window over pages the tree holds. -/
def acquirePagedCaches (groups : List PageGroup) (node : Option Handle) (config : PagedKvConfig)
    (promptLen maxSeqLen : ℕ) (salt : Option ℕ) : Option (Serving α) := do
  let blockSize ← σ.memory.kv.blockSize
  if ∀ g ∈ groups, g ∈ σ.cached then do
    let (_, kv) ← retainShared (groups.map some) σ.memory.kv
    let cachedLen := groups.length * blockSize
    let (lease, kv) ← admissionPass ⟨kv.layers.length, none⟩ config promptLen maxSeqLen salt
      ⟨cachedLen, node, groups⟩ kv
    some { σ with
      memory := { σ.memory with kv := kv }
      running := σ.running ++ [some ⟨lease, cachedLen⟩] }
  else none

/-- The tree takes a hold on pages of a request that are written to their end. -/
def publish (i : ℕ) (pages : List ℕ) : Option (Serving α) := do
  let q ← σ.sequence i
  let blockSize ← σ.memory.kv.blockSize
  if q.AtRest σ.memory ∧ ∀ a ∈ pages, (a + 1) * blockSize ≤ q.pos then do
    let groups ← pages.mapM fun a => q.lease.groups[a]?.join
    let (_, kv) ← retainShared (groups.map some) σ.memory.kv
    some { σ with memory := { σ.memory with kv := kv }, cached := groups ++ σ.cached }
  else none

/-- The tree gives up one hold. -/
def evict (group : PageGroup) : Option (Serving α) :=
  if group ∈ σ.cached then do
    let (_, kv) ← σ.memory.kv.releaseGroup group
    some { σ with memory := { σ.memory with kv := kv }, cached := σ.cached.erase group }
  else none

/-- Start a pass over `n` more positions. -/
def forward (i n : ℕ) : Option (Serving α) := do
  let q ← σ.sequence i
  if q.AtRest σ.memory then
    some { σ with running := σ.running.set i (some { q with pos := q.pos + n }) }
  else none

def reserve (i layer n : ℕ) : Option (Serving α) := do
  let q ← σ.sequence i
  let (lease, kv) ← q.lease.reserveAt layer n σ.memory.kv
  some { σ with
    memory := { σ.memory with kv := kv }
    running := σ.running.set i (some { q with lease := lease }) }

/-- One row of the pass under way. -/
def push (i layer : ℕ) (k v : List α) : Option (Serving α) := do
  let q ← σ.sequence i
  let c ← q.lease.caches[layer]?
  if c.seqLen < q.pos then do
    let (lease, memory) ← q.lease.pushAt layer k v σ.memory
    some { σ with
      memory := memory
      running := σ.running.set i (some { q with lease := lease }) }
  else none

/-- Fork a request between two passes; a refusal leaves the requests as they are. -/
def fork (i : ℕ) : Option (Serving α) := do
  let q ← σ.sequence i
  if q.AtRest σ.memory then do
    let (result, memory) ← q.lease.fork σ.memory
    match result with
    | .ok lease => some { σ with
        memory := memory
        running := σ.running ++ [some { q with lease := lease }] }
    | .error _ => some { σ with memory := memory }
  else none

def drop (i : ℕ) : Option (Serving α) := do
  let q ← σ.sequence i
  let kv ← q.lease.drop σ.memory.kv
  some { σ with memory := { σ.memory with kv := kv }, running := σ.running.set i none }

/-- One act; `none` where it is not enabled or the code panics. -/
def step : Act α → Option (Serving α)
  | .acquire groups node config promptLen maxSeqLen salt =>
      σ.acquirePagedCaches groups node config promptLen maxSeqLen salt
  | .publish i pages => σ.publish i pages
  | .evict group => σ.evict group
  | .forward i n => σ.forward i n
  | .reserve i layer n => σ.reserve i layer n
  | .push i layer k v => σ.push i layer k v
  | .fork i => σ.fork i
  | .drop i => σ.drop i

def run : List (Act α) → Serving α → Option (Serving α)
  | [], σ => some σ
  | act :: acts, σ => do
      let σ ← σ.step act
      run acts σ

end Serving

end Frink.Paged
