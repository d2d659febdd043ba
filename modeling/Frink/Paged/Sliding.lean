import Mathlib
import Frink.Paged.Admission

/-! # A sliding lease sustains itself

Between decode steps a sliding lease has holes only between the tree's prefix and what the
slide released. The release stays behind the window and lags by no more than the admission
bound, so a recycled page is at hand whenever the tables have to grow.
-/

namespace Frink.Paged
open Radix

section Recycle

variable {gs : List (Option PageGroup)} {lo hi : ℕ}

theorem getElem?_recycled (hlo : lo ≤ hi) (hhi : hi ≤ gs.length) (i : ℕ) :
    (gs.take lo ++ List.replicate (hi - lo) none ++ gs.drop hi)[i]? =
      if lo ≤ i ∧ i < hi then some none else gs[i]? := by
  have htake : (gs.take lo).length = lo := by
    rw [List.length_take]
    omega
  have hleft : (gs.take lo ++ List.replicate (hi - lo) none).length = hi := by
    rw [List.length_append, htake, List.length_replicate]
    omega
  rw [List.getElem?_append, hleft, List.getElem?_append, htake, List.getElem?_take,
    List.getElem?_replicate, List.getElem?_drop]
  split_ifs
  all_goals first | rfl | omega | skip
  congr 1
  omega

/-- Recycling a full span empties its slots and keeps every group. -/
theorem recycle_spec (hlo : lo ≤ hi) (hhi : hi ≤ gs.length)
    (hfull : ∀ i, lo ≤ i → i < hi → gs[i]? ≠ some none) :
    ∃ gs' taken, recycle gs lo hi = some (gs', taken) ∧ gs'.length = gs.length ∧
      (∀ i, gs'[i]? = if lo ≤ i ∧ i < hi then some none else gs[i]?) ∧
      (gs'.reduceOption ++ taken).Perm gs.reduceOption ∧ taken.length = hi - lo := by
  have hmid : ((gs.drop lo).take (hi - lo)).length = hi - lo := by
    rw [List.length_take, List.length_drop]
    omega
  have hsplit : gs = gs.take lo ++ ((gs.drop lo).take (hi - lo) ++ gs.drop hi) := by
    have hd : gs.drop hi = (gs.drop lo).drop (hi - lo) := by
      rw [List.drop_drop, Nat.add_sub_cancel' hlo]
    rw [hd, List.take_append_drop, List.take_append_drop]
  refine ⟨_, _, if_pos ⟨hlo, hhi⟩, ?_, getElem?_recycled hlo hhi, ?_, ?_⟩
  · rw [List.length_append, List.length_append, List.length_take, List.length_replicate,
      List.length_drop]
    omega
  · conv_rhs => rw [hsplit]
    rw [List.reduceOption_append, List.reduceOption_append, List.reduceOption_replicate_none,
      List.append_nil, List.reduceOption_append, List.reduceOption_append, List.append_assoc]
    exact List.perm_append_comm.append_left _
  · have hall : ∀ x ∈ (gs.drop lo).take (hi - lo), x.isSome := by
      intro x hx
      obtain ⟨i, hi', rfl⟩ := List.mem_iff_getElem.mp hx
      rw [hmid] at hi'
      rw [List.getElem_take, List.getElem_drop]
      have hf := hfull (lo + i) (by omega) (by omega)
      rw [List.getElem?_eq_getElem (by omega)] at hf
      exact Option.isSome_iff_ne_none.mpr fun hn => hf (congrArg some hn)
    rw [List.reduceOption_length_eq_iff.mpr hall, hmid]

end Recycle

/-- The fixed figures of a sliding lease: what admission gave it and which blocks back it. -/
structure SlidingPlan where
  policy : WindowPolicy
  promptLen : ℕ
  locked : ℕ
  admitted : List PageGroup
  blocks : PageGroup → List ℕ

namespace SlidingPlan

variable (p : SlidingPlan)

/-- The blocks of one layer a table of groups names. -/
def Names (table : List ℕ) (groups : List (Option PageGroup)) (layer : ℕ) : Prop :=
  table.length = groups.length ∧
    ∀ (j : ℕ) (g : PageGroup), groups[j]? = some (some g) → table[j]? = (p.blocks g)[layer]?

/-- The store still backs every group of the lease with the blocks it was admitted with. -/
structure Serves (st : SharedPagedKv) : Prop where
  block_size : st.blockSize = some p.policy.pageSize
  backed : ∀ g ∈ p.admitted, st.groupBlocks g = some (p.blocks g)

/-- The holes of the lease lie between the tree's prefix and the release, and every group
admitted is in the table or spare. -/
structure Tracked (l : PagedLease) (w : WindowSlide) : Prop where
  window : l.window = some w
  policy : w.policy = p.policy
  locked : w.lockedPrefix = p.locked
  conserved : l.held.Perm p.admitted
  hole_iff : ∀ i, l.groups[i]? = some none ↔
    p.locked / p.policy.pageSize ≤ i ∧ i < w.released / p.policy.pageSize
  holes : l.groups.reduceOption.length +
    (w.released / p.policy.pageSize - p.locked / p.policy.pageSize) = l.groups.length
  adopted : ∀ i < p.locked / p.policy.pageSize, l.groups[i]? = p.admitted[i]?.map some
  aligned : p.policy.pageSize ∣ w.released
  admitted_le : p.admitted.length ≤ l.groups.length
  width : ∀ g ∈ p.admitted, (p.blocks g).length = l.caches.length
  tables : ∀ i c, l.caches[i]? = some c → p.Names c.blockTable l.groups i

/-- After `decodeStep` steps the release is behind the window and not far behind. -/
structure Paced (w : WindowSlide) (next : ℕ) : Prop where
  next_eq : next = p.promptLen + w.decodeStep
  behind : w.released = 0 ∨
    w.released + p.policy.slidingWindow + p.policy.pageSize + 2 ≤ next
  lag : next ≤ max (max w.released p.locked) p.promptLen +
    (2 * p.policy.slidingWindow + SWA_RETAIN_GAP + 2 * p.policy.pageSize + 1) +
      w.decodeStep % p.policy.evictionInterval

/-- The figures admission answers for. -/
structure Sized (maxSeqLen : ℕ) : Prop where
  page_pos : 0 < p.policy.pageSize
  interval_pos : 0 < p.policy.evictionInterval
  aligned : p.policy.pageSize ∣ p.locked
  locked_le : p.locked ≤ p.promptLen
  hold : min (p.promptLen + slideHoldBound p.policy.slidingWindow p.policy) maxSeqLen ≤
    p.admitted.length * p.policy.pageSize

end SlidingPlan

namespace PagedLease
open SlidingPlan

variable {p : SlidingPlan} {l l' : PagedLease} {w : WindowSlide} {pos maxSeqLen : ℕ}
  {st : SharedPagedKv}

theorem observeSampled_tracked (h : p.Tracked l w) (token position : ℕ) (finished : Bool) :
    ∃ a, p.Tracked (l.observeSampled token position finished) { w with anchor := a } := by
  refine ⟨w.anchor.observe (token % 2 ^ 32) w.anchorToken position finished, ?_⟩
  exact { h with window := by rw [observeSampled, h.window]; rfl }

theorem div_max (a b c : ℕ) : max a b / c = max (a / c) (b / c) := by
  rcases le_total a b with h | h
  · rw [max_eq_right h, max_eq_right (Nat.div_le_div_right h)]
  · rw [max_eq_left h, max_eq_left (Nat.div_le_div_right h)]

theorem succ_mod_of_ne_zero {n e : ℕ} (he : 0 < e) (h : (n + 1) % e ≠ 0) :
    (n + 1) % e = n % e + 1 := by
  have hlt := Nat.mod_lt n he
  rcases Nat.lt_or_ge (n % e + 1) e with hs | hs
  · rw [Nat.add_mod_eq_add_mod_right 1 (Nat.mod_mod n e).symm, Nat.mod_eq_of_lt hs]
  · refine absurd ?_ h
    rw [Nat.add_mod_eq_add_mod_right 1 (Nat.mod_mod n e).symm,
      show n % e + 1 = e from le_antisymm hlt hs, Nat.mod_self]

/-- The slide recycles pages behind the window only, and catches up when its turn comes. -/
theorem slide_spec (hp : p.Sized maxSeqLen) (h : p.Tracked l w) (hpc : p.Paced w pos)
    (hreach : pos ≤ l.groups.length * p.policy.pageSize) :
    ∃ l' w', l.slide pos p.policy.pageSize = some l' ∧ p.Tracked l' w' ∧ p.Paced w' (pos + 1) ∧
      l'.groups.length = l.groups.length := by
  obtain ⟨hnext, hbehind, hlag⟩ := hpc
  unfold slide
  rw [h.window]
  dsimp only
  cases hd : decodeSlide ⟨pos, w.released, w.lockedPrefix, w.decodeStep + 1⟩ w.anchor.anchorLen
      w.policy (w.decodeStep + 1) with
  | none =>
    rw [h.policy] at hd
    have hmod := succ_mod_of_ne_zero hp.interval_pos (decodeSlide_none (Nat.le_add_left 1 _) hd)
    refine ⟨_, { w with decodeStep := w.decodeStep + 1 }, rfl, { h with window := rfl }, ?_, rfl⟩
    refine ⟨by rw [hnext]; rfl, hbehind.imp_right fun hb => by dsimp only; omega, ?_⟩
    dsimp only
    rw [hmod]
    omega
  | some d =>
    rw [h.policy] at hd
    obtain ⟨hmod, hstart, hle, haligned, hbeh, hlag'⟩ := decodeSlide_spec hp.page_pos hd
    dsimp only at hmod hstart hle haligned hbeh hlag' ⊢
    rw [h.locked] at hstart
    obtain ⟨a, ha⟩ : ∃ a, (if d.dropAnchor = true then
        ({ w with decodeStep := w.decodeStep + 1, anchor := w.anchor.clear } : WindowSlide)
        else { w with decodeStep := w.decodeStep + 1 }) =
        { w with decodeStep := w.decodeStep + 1, anchor := a } := by
      split
      · exact ⟨_, rfl⟩
      · exact ⟨w.anchor, rfl⟩
    rw [ha]
    by_cases hfree : d.freesNothing
    · rw [if_pos hfree]
      refine ⟨_, { w with decodeStep := w.decodeStep + 1, anchor := a }, rfl,
        { h with window := rfl }, ⟨by rw [hnext]; rfl, hbehind.imp_right fun hb => ?_, ?_⟩, rfl⟩
      · dsimp only
        omega
      · have hto : d.freeTo = max w.released p.locked :=
          hstart ▸ le_antisymm hfree hle
        dsimp only
        rw [hmod]
        omega
    · have hlt : d.freeFrom < d.freeTo := not_le.mp hfree
      have hto := haligned hlt
      have hbeh := hbeh hlt
      have hfrom : d.freeFrom / p.policy.pageSize =
          max (w.released / p.policy.pageSize) (p.locked / p.policy.pageSize) := by
        rw [hstart, div_max]
      have hlen : d.freeTo / p.policy.pageSize ≤ l.groups.length := by
        apply Nat.div_le_of_le_mul
        rw [Nat.mul_comm]
        omega
      have hmono := Nat.div_le_div_right hle (c := p.policy.pageSize)
      have hlock : p.locked / p.policy.pageSize ≤ d.freeTo / p.policy.pageSize :=
        (le_max_right _ _).trans (hfrom ▸ hmono)
      obtain ⟨gs, taken, hre, hgl, hget, hperm, htl⟩ := recycle_spec hmono hlen (by
        intro i hi _ hn
        have hi' := (h.hole_iff i).mp hn
        rw [hfrom] at hi
        exact absurd ((le_max_left _ _).trans hi) (not_le.mpr hi'.2))
      have hcount := hperm.length_eq
      rw [List.length_append] at hcount
      rw [if_neg hfree]
      simp only [hre, Option.bind_eq_bind, Option.bind_some]
      refine ⟨_, { w with decodeStep := w.decodeStep + 1, anchor := a, released := d.freeTo }, rfl,
        ?_, ⟨by rw [hnext]; rfl, .inr (by dsimp only; omega), ?_⟩, hgl⟩
      · have hholes := h.holes
        refine { h with
          window := rfl, conserved := ?_, hole_iff := ?_, holes := ?_, adopted := ?_,
          aligned := hto, admitted_le := ?_, tables := ?_ }
        · refine List.Perm.trans ?_ h.conserved
          rw [held, held]
          dsimp only
          refine List.Perm.trans ?_ (hperm.append_right l.spare)
          rw [List.append_assoc]
          exact List.perm_append_comm.append_left _
        · intro i
          dsimp only
          rw [hget i]
          have hi := h.hole_iff i
          split_ifs with hin
          · exact iff_of_true rfl ⟨(le_max_right _ _).trans (hfrom ▸ hin.1), hin.2⟩
          · rw [hi]
            omega
        · dsimp only
          omega
        · intro i hi
          dsimp only
          rw [hget i, if_neg (by omega)]
          exact h.adopted i hi
        · exact hgl ▸ h.admitted_le
        · intro i c hc
          obtain ⟨hl, hn⟩ := h.tables i c hc
          refine ⟨hl.trans hgl.symm, fun j g hg => hn j g ?_⟩
          dsimp only at hg
          rw [hget j] at hg
          split_ifs at hg
          · cases hg
          · exact hg
      · dsimp only
        rw [hmod]
        omega

theorem getElem?_appendBlocks (cs : List PagedKvCache) (bs : List ℕ) (i : ℕ) :
    (appendBlocks cs bs)[i]? = cs[i]?.map fun c => bs[i]?.elim c c.appendBlock := by
  induction cs generalizing bs i with
  | nil => simp [appendBlocks]
  | cons c cs ih =>
    cases bs with
    | nil => simp [appendBlocks]
    | cons b bs =>
      cases i with
      | zero => rfl
      | succ i => exact ih bs i

theorem length_appendBlocks (cs : List PagedKvCache) (bs : List ℕ) :
    (appendBlocks cs bs).length = cs.length := by
  induction cs generalizing bs with
  | nil => rfl
  | cons c cs ih =>
    cases bs with
    | nil => rfl
    | cons b bs => exact congrArg (· + 1) (ih bs)

/-- When the tables end before the cursor, the slide has left a page to install. -/
theorem spare_ne_nil (hp : p.Sized maxSeqLen) (h : p.Tracked l w) (hpc : p.Paced w (pos + 1))
    (hmax : pos < maxSeqLen) (hend : l.groups.length * p.policy.pageSize ≤ pos) :
    l.spare ≠ [] := by
  intro hs
  obtain ⟨K, hK⟩ := hp.aligned
  obtain ⟨R, hR⟩ := h.aligned
  have hn := h.conserved.length_eq
  have hholes := h.holes
  have hle := Nat.mul_le_mul_right p.policy.pageSize h.admitted_le
  rw [held, hs, List.append_nil] at hn
  rw [hn, hR, hK, Nat.mul_div_cancel_left _ hp.page_pos, Nat.mul_div_cancel_left _ hp.page_pos]
    at hholes
  have hlen : l.groups.length * p.policy.pageSize = p.admitted.length * p.policy.pageSize +
      (p.policy.pageSize * R - p.policy.pageSize * K) := by
    rw [← hholes, Nat.add_mul, Nat.sub_mul, Nat.mul_comm R, Nat.mul_comm K]
  have hmod := Nat.mod_lt w.decodeStep hp.interval_pos
  have hlag := hpc.lag
  have hhold := hp.hold
  have hlock := hp.locked_le
  rw [hR, hK] at hlag
  rw [hK] at hlock
  unfold slideHoldBound at hhold
  omega

/-- Reaching the next page takes a recycled one, when the tables end before the cursor. -/
theorem extendTo_of_spare (hp : p.Sized maxSeqLen) (h : p.Tracked l w) (hs : p.Serves st)
    (hreach : pos ≤ l.groups.length * p.policy.pageSize) (hlock : p.locked ≤ pos)
    (hspare : l.groups.length * p.policy.pageSize ≤ pos → l.spare ≠ []) :
    ∃ l', l.extendTo pos p.policy.pageSize st = some (l', st) ∧ p.Tracked l' w ∧
      pos + 1 ≤ l'.groups.length * p.policy.pageSize := by
  have hle : pos / p.policy.pageSize ≤ l.groups.length := by
    apply Nat.div_le_of_le_mul
    rw [Nat.mul_comm]
    exact hreach
  unfold extendTo
  rcases hle.lt_or_eq with hlt | heq
  · rw [Nat.sub_eq_zero_of_le hlt]
    exact ⟨l, rfl, h, (Nat.div_lt_iff_lt_mul hp.page_pos).mp hlt⟩
  · have hend : l.groups.length * p.policy.pageSize ≤ pos := by
      rw [← heq]
      exact Nat.div_mul_le_self _ _
    obtain ⟨g, hg⟩ := Option.ne_none_iff_exists'.mp
      (fun hn => hspare hend (List.getLast?_eq_none_iff.mp hn))
    obtain ⟨ys, hys⟩ := List.getLast?_eq_some_iff.mp hg
    have hmem : g ∈ p.admitted := by
      apply h.conserved.subset
      rw [held, hys]
      simp
    have hwidth := h.width g hmem
    have hdrop : l.spare.dropLast = ys := by rw [hys, List.dropLast_concat]
    rw [heq, Nat.add_sub_cancel_left]
    simp only [install, takePage, hg, SharedPagedKv.groupBlocks]
    have hb := hs.backed g hmem
    rw [SharedPagedKv.groupBlocks] at hb
    simp only [hb, hdrop, Option.bind_eq_bind, Option.bind_some]
    refine ⟨_, rfl, ?_, ?_⟩
    · have hlast : l.groups[l.groups.length]? = none := List.getElem?_eq_none le_rfl
      have hget : ∀ i, i ≠ l.groups.length → (l.groups ++ [some g])[i]? = l.groups[i]? := by
        intro i hi
        rcases Nat.lt_or_gt_of_ne hi with hi | hi
        · exact List.getElem?_append_left hi
        · rw [List.getElem?_eq_none (by simp; omega), List.getElem?_eq_none hi.le]
      have hholes := h.holes
      refine { h with
        conserved := ?_, hole_iff := ?_, holes := ?_, adopted := ?_, admitted_le := ?_,
        width := ?_, tables := ?_ }
      · refine List.Perm.trans ?_ h.conserved
        rw [held, held, hys]
        simp only [List.reduceOption_append, List.reduceOption_singleton, Option.toList_some,
          List.append_assoc]
        exact List.perm_append_comm.append_left _
      · intro i
        rw [← h.hole_iff i]
        rcases eq_or_ne i l.groups.length with rfl | hi
        · simp
        · rw [hget i hi]
      · simp only [List.reduceOption_append, List.reduceOption_singleton, Option.toList_some,
          List.length_append, List.length_singleton]
        omega
      · intro i hi
        have hlen := (Nat.div_le_div_right hlock).trans hle
        rw [hget i (by omega)]
        exact h.adopted i hi
      · rw [List.length_append]
        exact h.admitted_le.trans (Nat.le_add_right _ _)
      · intro g' hg'
        rw [length_appendBlocks]
        exact h.width g' hg'
      · intro i c hc
        rw [getElem?_appendBlocks] at hc
        obtain ⟨c', hc', rfl⟩ := Option.map_eq_some_iff.mp hc
        obtain ⟨hlen, hnames⟩ := h.tables i c' hc'
        have hi : i < (p.blocks g).length := by
          rw [hwidth]
          exact (List.getElem?_eq_some_iff.mp hc').1
        rw [List.getElem?_eq_getElem hi]
        refine ⟨by simp [PagedKvCache.appendBlock, hlen], fun j g' hj => ?_⟩
        rcases eq_or_ne j l.groups.length with rfl | hj'
        · simp only [List.getElem?_concat_length, Option.some.injEq] at hj
          subst hj
          rw [List.getElem?_eq_getElem hi]
          simp [PagedKvCache.appendBlock, ← hlen]
        · rw [hget j hj'] at hj
          have hjlt : j < c'.blockTable.length := by
            rw [hlen]
            exact (List.getElem?_eq_some_iff.mp hj).1
          simp only [Option.elim, PagedKvCache.appendBlock]
          rw [List.getElem?_append_left hjlt]
          exact hnames j g' hj
    · rw [List.length_append, List.length_singleton, Nat.add_mul, Nat.one_mul, ← heq]
      have := Nat.lt_div_mul_add hp.page_pos (a := pos)
      omega

theorem extendTo_spec (hp : p.Sized maxSeqLen) (h : p.Tracked l w) (hpc : p.Paced w (pos + 1))
    (hs : p.Serves st) (hreach : pos ≤ l.groups.length * p.policy.pageSize)
    (hlock : p.locked ≤ pos) (hmax : pos < maxSeqLen) :
    ∃ l', l.extendTo pos p.policy.pageSize st = some (l', st) ∧ p.Tracked l' w ∧
      pos + 1 ≤ l'.groups.length * p.policy.pageSize :=
  extendTo_of_spare hp h hs hreach hlock (spare_ne_nil hp h hpc hmax)

/-- One decode step keeps the invariant and takes nothing from the store. -/
theorem beforeStep_spec (hp : p.Sized maxSeqLen) (h : p.Tracked l w) (hpc : p.Paced w pos)
    (hs : p.Serves st) (hreach : pos ≤ l.groups.length * p.policy.pageSize)
    (hmax : pos < maxSeqLen) (token position : ℕ) (finished : Bool) :
    ∃ l' w', (l.observeSampled token position finished).beforeStep pos st = some (l', st) ∧
      p.Tracked l' w' ∧ p.Paced w' (pos + 1) ∧ pos + 1 ≤ l'.groups.length * p.policy.pageSize := by
  obtain ⟨a, ho⟩ := observeSampled_tracked h token position finished
  have hpc' : p.Paced { w with anchor := a } pos := ⟨hpc.next_eq, hpc.behind, hpc.lag⟩
  obtain ⟨l₁, w₁, hslide, ht, hpc₁, hlen⟩ := slide_spec hp ho hpc' hreach
  obtain ⟨l₂, hext, ht₂, hreach₂⟩ := extendTo_spec hp ht hpc₁ hs
    (by rw [hlen]; exact hreach) (hp.locked_le.trans (hpc.next_eq ▸ Nat.le_add_right _ _)) hmax
  refine ⟨l₂, w₁, ?_, ht₂, hpc₁, hreach₂⟩
  unfold beforeStep
  rw [ho.window]
  simp only [hs.block_size, Option.bind_eq_bind, Option.bind_some, hslide]
  exact hext

end PagedLease

section Decoding

/-- Other requests may have moved the store, but nothing the lease holds. -/
def StillBacks (store st : SharedPagedKv) (lease : PagedLease) : Prop :=
  st.blockSize = store.blockSize ∧ ∀ g ∈ lease.held, st.groupBlocks g = store.groupBlocks g

/-- The lease after `n` decode steps, each preceded by a sampled token. -/
inductive Decodes (store : SharedPagedKv) (lease : PagedLease) (promptLen : ℕ) :
    ℕ → PagedLease → Prop
  | start : Decodes store lease promptLen 0 lease
  | step {n token position : ℕ} {finished : Bool} {l l' : PagedLease} {st st' : SharedPagedKv} :
      Decodes store lease promptLen n l → StillBacks store st lease →
      (l.observeSampled token position finished).beforeStep (promptLen + n) st = some (l', st') →
      Decodes store lease promptLen (n + 1) l'

/-- What a step at `position` leaves of a lease that was admitted over `adopted`: every
page the window reads, at its own index and no other, the tree's pages, every group it was
admitted with, and tables that name the groups' blocks. -/
structure SafeAt (store : SharedPagedKv) (lease : PagedLease) (adopted : List PageGroup)
    (window blockSize position : ℕ) (l : PagedLease) : Prop where
  owned : ∀ q ≤ position, position < q + window → ∃ g, l.groups[q / blockSize]? = some (some g)
  single : ∀ (i j : ℕ) (g : PageGroup), l.groups[i]? = some (some g) →
    l.groups[j]? = some (some g) → i = j
  adopted_kept : ∀ (i : ℕ) (g : PageGroup), adopted[i]? = some g →
    l.groups[i]? = some (some g) ∧ g ∉ l.spare
  conserved : l.held.Perm lease.held
  tables : l.TablesMatchGroups
  named : ∀ (i j : ℕ) (c : PagedKvCache) (g : PageGroup), l.caches[i]? = some c →
    l.groups[j]? = some (some g) → c.blockTable[j]? = (store.groupBlocks g).bind (·[i]?)

variable {p : SlidingPlan} {store st : SharedPagedKv} {lease l : PagedLease} {w : WindowSlide}
  {P W total n pos promptLen maxSeqLen : ℕ} {decoder : Decoder} {config : PagedKvConfig}
  {salt : Option ℕ} {adoption : Adoption}

theorem reduceOption_nodup_index {gs : List (Option PageGroup)} (h : gs.reduceOption.Nodup)
    {i j : ℕ} {g : PageGroup} (hi : gs[i]? = some (some g)) (hj : gs[j]? = some (some g)) :
    i = j := by
  induction gs generalizing i j with
  | nil => simp at hi
  | cons x gs ih =>
    cases x with
    | none =>
      rw [List.reduceOption_cons_of_none] at h
      cases i with
      | zero => simp at hi
      | succ i =>
        cases j with
        | zero => simp at hj
        | succ j => exact congrArg (· + 1) (ih h (by simpa using hi) (by simpa using hj))
    | some y =>
      rw [List.reduceOption_cons_of_some, List.nodup_cons] at h
      have hmem : ∀ {k : ℕ}, gs[k]? = some (some g) → g ∈ gs.reduceOption := fun hk =>
        List.reduceOption_mem_iff.mpr (List.mem_of_getElem? hk)
      cases i with
      | zero =>
        cases j with
        | zero => rfl
        | succ j =>
          obtain rfl : y = g := by simpa using hi
          exact absurd (hmem (by simpa using hj)) h.1
      | succ i =>
        cases j with
        | zero =>
          obtain rfl : y = g := by simpa using hj
          exact absurd (hmem (by simpa using hi)) h.1
        | succ j => exact congrArg (· + 1) (ih h.2 (by simpa using hi) (by simpa using hj))

/-- The invariant after a step is what the claim about the window asks for. -/
theorem SlidingPlan.Tracked.safeAt (h : p.Tracked l w) (hp : p.Sized maxSeqLen)
    (hpc : p.Paced w (pos + 1)) (hreach : pos + 1 ≤ l.groups.length * p.policy.pageSize)
    (hn : p.admitted.Nodup) (hheld : lease.held = p.admitted) {adopted : List PageGroup}
    (hadopted : adopted = p.admitted.take (p.locked / p.policy.pageSize))
    (hblocks : ∀ g ∈ p.admitted, store.groupBlocks g = some (p.blocks g)) :
    SafeAt store lease adopted p.policy.slidingWindow p.policy.pageSize pos l := by
  have hnodup : l.held.Nodup := h.conserved.nodup_iff.mpr hn
  rw [PagedLease.held, List.nodup_append] at hnodup
  refine ⟨fun q hq hqw => ?_, fun i j g hi hj => reduceOption_nodup_index hnodup.1 hi hj,
    fun i g hi => ?_, hheld ▸ h.conserved, fun c hc => ?_, fun i j c g hc hg => ?_⟩
  · have hlt : q / p.policy.pageSize < l.groups.length :=
      (Nat.div_lt_iff_lt_mul hp.page_pos).mpr (by omega)
    obtain ⟨x, hx⟩ : ∃ x, l.groups[q / p.policy.pageSize]? = some x :=
      ⟨_, List.getElem?_eq_getElem hlt⟩
    cases x with
    | some g => exact ⟨g, hx⟩
    | none =>
      obtain ⟨_, hr⟩ := (h.hole_iff _).mp hx
      have hlow : w.released ≤ q := by
        have := hpc.behind
        omega
      exact absurd (Nat.div_le_div_right hlow) (not_le.mpr hr)
  · rw [hadopted, List.getElem?_take] at hi
    split at hi
    · rename_i hlt
      have hg : l.groups[i]? = some (some g) := by rw [h.adopted i hlt, hi]; rfl
      refine ⟨hg, fun hm => hnodup.2.2 g ?_ g hm rfl⟩
      exact List.reduceOption_mem_iff.mpr (List.mem_of_getElem? hg)
    · cases hi
  · obtain ⟨i, hi⟩ := List.mem_iff_getElem?.mp hc
    exact (h.tables i c hi).1
  · have hmem : g ∈ p.admitted := by
      apply h.conserved.subset
      exact List.mem_append_left _ (List.reduceOption_mem_iff.mpr (List.mem_of_getElem? hg))
    rw [(h.tables i c hc).2 j g hg, hblocks g hmem]
    rfl

theorem hold_le_groupsNeeded (hP : 0 < P) (window : Option WindowPolicy) :
    pagedHoldPositions maxSeqLen promptLen P window ≤
      pagedGroupsNeeded maxSeqLen promptLen P window * P := by
  have hle := Nat.mul_le_mul_right P
    (le_max_left ((pagedHoldPositions maxSeqLen promptLen P window + P - 1) / P) 1)
  refine le_trans ?_ hle
  have := Nat.lt_div_mul_add hP (a := pagedHoldPositions maxSeqLen promptLen P window + P - 1)
  omega

theorem reduceOption_map_some (xs : List PageGroup) : (xs.map some).reduceOption = xs := by
  rw [List.reduceOption, List.filterMap_map]
  exact List.filterMap_some

theorem held_map_some (xs : List PageGroup) : (xs.map some).reduceOption ++ [] = xs := by
  rw [List.append_nil, reduceOption_map_some]

/-- The plan of an admitted lease, whose invariant holds before its first decode step at
`base`, for steps up to `limit`. -/
theorem plan_of_admission {base limit : ℕ} {s : SharedPagedKv} (hs : s.Sound P total) (hP : 0 < P)
    (hl : decoder.nLayers = s.layers.length) (hw : decoder.uniformSlidingWindow = some W)
    (hn : adoption.groups.Nodup) (hlive : ∀ g ∈ adoption.groups, 0 < s.groupRefs g)
    (hcached : adoption.cachedLen = adoption.groups.length * P)
    (hle : adoption.cachedLen ≤ base)
    (hneed : ∀ policy, pagedWindowPolicy decoder config P = some policy →
      min (base + slideHoldBound policy.slidingWindow policy) limit ≤
        pagedGroupsNeeded maxSeqLen promptLen P (some policy) * P)
    (hbase : base ≤ pagedGroupsNeeded maxSeqLen promptLen P
      (pagedWindowPolicy decoder config P) * P)
    (hq : admissionPass decoder config promptLen maxSeqLen salt adoption s = some (lease, store)) :
    ∃ (p : SlidingPlan) (w : WindowSlide), p.policy.slidingWindow = W ∧ p.policy.pageSize = P ∧
      p.promptLen = base ∧ p.Sized limit ∧ p.Tracked lease w ∧ p.Paced w base ∧
      base ≤ lease.groups.length * P ∧ p.admitted.Nodup ∧ lease.held = p.admitted ∧
      adoption.groups = p.admitted.take (p.locked / P) ∧ store.blockSize = some P ∧
      ∀ g ∈ p.admitted, store.groupBlocks g = some (p.blocks g) := by
  obtain ⟨fresh, hlen, hg, hlive', rfl⟩ := admissionPass_spec hs hl hlive hP hcached hq
  have hlock : adoption.cachedLen / P = adoption.groups.length := by
    rw [hcached, Nat.mul_div_cancel _ hP]
  have hback : ∀ g ∈ adoption.groups ++ fresh,
      store.groupBlocks g = some ((store.groupBlocks g).getD []) ∧
        ((store.groupBlocks g).getD []).length = decoder.nLayers := by
    intro g hm
    obtain ⟨bs, hbs⟩ := Option.isSome_iff_exists.mp
      (hg.sound.groupBlocks_isSome_iff.mpr (hlive' g hm))
    rw [hbs]
    exact ⟨rfl, (hg.sound.groups.width_eq g bs hbs).trans (hg.layers.trans hl.symm)⟩
  have hpol : pagedWindowPolicy decoder config P =
      some ((WindowPolicy.new W P).withEvictionInterval config.slideInterval) := by
    rw [pagedWindowPolicy, hw]
    rfl
  have hN : pagedGroupsNeeded maxSeqLen promptLen P (pagedWindowPolicy decoder config P) ≤
      (adoption.groups ++ fresh).length := by
    rw [List.length_append, hlen, groupsToGather]
    omega
  have hhold := (hneed _ hpol).trans (hpol ▸ Nat.mul_le_mul_right P hN)
  refine ⟨⟨(WindowPolicy.new W P).withEvictionInterval config.slideInterval, base,
    adoption.cachedLen, adoption.groups ++ fresh, fun g => (store.groupBlocks g).getD []⟩,
    ⟨(WindowPolicy.new W P).withEvictionInterval config.slideInterval, 0, adoption.cachedLen, 0,
      .new, config.anchorToken⟩, rfl, rfl, rfl, ?_, ?_, ?_, ?_, ?_, held_map_some _, ?_,
    hg.sound.blockSize_eq, fun g hm => (hback g hm).1⟩
  · exact ⟨hP, lt_of_lt_of_le Nat.one_pos (le_max_right _ _), hcached ▸ Nat.dvd_mul_left _ _, hle,
      hhold⟩
  · refine ⟨?_, rfl, rfl, List.Perm.of_eq (held_map_some _), fun i => ?_, ?_, fun i _ => ?_,
      Nat.dvd_zero _, ?_, fun g hm => ?_, fun i c hc => ?_⟩
    · rw [makeWindow, hpol]
      rfl
    · rw [List.getElem?_map, Nat.zero_div]
      constructor
      · intro h
        obtain ⟨g, _, hg⟩ := Option.map_eq_some_iff.mp h
        cases hg
      · exact fun h => absurd h.2 (Nat.not_lt_zero i)
    · dsimp only
      rw [Nat.zero_div, Nat.zero_sub, Nat.add_zero, reduceOption_map_some, List.length_map]
    · exact List.getElem?_map ..
    · rw [List.length_map]
    · rw [List.length_map, List.length_range]
      exact (hback g hm).2
    · obtain ⟨layer, hlayer, rfl⟩ := Option.map_eq_some_iff.mp (List.getElem?_map .. ▸ hc)
      obtain ⟨hi, rfl⟩ := List.getElem?_eq_some_iff.mp hlayer
      rw [List.length_range] at hi
      refine ⟨by simp [tableOf], fun j g hj => ?_⟩
      obtain ⟨g', hg', heq⟩ := Option.map_eq_some_iff.mp (List.getElem?_map .. ▸ hj)
      obtain rfl : g' = g := Option.some.inj heq
      have hwidth := (hback g' (List.mem_of_getElem? hg')).2
      simp only [tableOf, List.getElem?_map, hg', Option.map_some, List.getElem_range]
      rw [List.getD_eq_getElem?_getD, List.getElem?_eq_getElem (by rw [hwidth]; exact hi)]
      rfl
  · exact ⟨rfl, .inl rfl, by dsimp only; omega⟩
  · rw [List.length_map]
    exact hbase.trans (Nat.mul_le_mul_right P hN)
  · refine List.nodup_append.mpr ⟨hn, hg.nodup, ?_⟩
    rintro g hm g' hm' rfl
    have := hg.free g hm'
    have := hlive g hm
    omega
  · dsimp only
    rw [hlock, List.take_left]

/-- The plan of a prompt with a token left to run. -/
theorem plan_of_prompt {s : SharedPagedKv} (hs : s.Sound P total) (hP : 0 < P)
    (hl : decoder.nLayers = s.layers.length) (hw : decoder.uniformSlidingWindow = some W)
    (hn : adoption.groups.Nodup) (hlive : ∀ g ∈ adoption.groups, 0 < s.groupRefs g)
    (hcached : adoption.cachedLen = adoption.groups.length * P)
    (hlt : adoption.cachedLen < promptLen) (hmax : promptLen ≤ maxSeqLen)
    (hq : admissionPass decoder config promptLen maxSeqLen salt adoption s = some (lease, store)) :
    ∃ (p : SlidingPlan) (w : WindowSlide), p.policy.slidingWindow = W ∧ p.policy.pageSize = P ∧
      p.promptLen = promptLen ∧ p.Sized maxSeqLen ∧ p.Tracked lease w ∧ p.Paced w promptLen ∧
      promptLen ≤ lease.groups.length * P ∧ p.admitted.Nodup ∧ lease.held = p.admitted ∧
      adoption.groups = p.admitted.take (p.locked / P) ∧ store.blockSize = some P ∧
      ∀ g ∈ p.admitted, store.groupBlocks g = some (p.blocks g) := by
  have hhold : ∀ window, pagedHoldPositions maxSeqLen promptLen P window ≤
      pagedGroupsNeeded maxSeqLen promptLen P window * P := hold_le_groupsNeeded hP
  apply plan_of_admission hs hP hl hw hn hlive hcached hlt.le _ _ hq
  · intro policy _
    have hle := hhold (some policy)
    unfold pagedHoldPositions at hle
    dsimp only at hle
    omega
  · apply le_trans _ (hhold _)
    unfold pagedHoldPositions
    split
    · exact hmax
    · apply le_min _ hmax
      omega

/-- A decode run of a sliding lease keeps its invariant. -/
theorem Decodes.tracked {l₀ : PagedLease} {w₀ : WindowSlide} (hp : p.Sized maxSeqLen)
    (h₀ : p.Tracked l₀ w₀) (hpc₀ : p.Paced w₀ p.promptLen)
    (hreach₀ : p.promptLen ≤ l₀.groups.length * p.policy.pageSize)
    (hserves : ∀ st, StillBacks store st l₀ → p.Serves st)
    (hd : Decodes store l₀ p.promptLen n l) (hmax : p.promptLen + n ≤ maxSeqLen) :
    ∃ w, p.Tracked l w ∧ p.Paced w (p.promptLen + n) ∧
      p.promptLen + n ≤ l.groups.length * p.policy.pageSize := by
  induction hd with
  | start => exact ⟨w₀, h₀, hpc₀, hreach₀⟩
  | @step n token position finished l l' st st' _ hst he ih =>
    obtain ⟨w, ht, hpc, hreach⟩ := ih (by omega)
    obtain ⟨l'', w', he', ht', hpc', hreach'⟩ := PagedLease.beforeStep_spec hp ht hpc
      (hserves st hst) hreach (by omega) token position finished
    rw [he', Option.some.injEq, Prod.mk.injEq] at he
    obtain ⟨rfl, rfl⟩ := he
    exact ⟨w', ht', hpc', hreach'⟩

end Decoding

end Frink.Paged
