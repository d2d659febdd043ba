import Frink.Paged.Forward
import Frink.Paged.Sliding

/-! # Every write has its page

The writes of one request, from the first row of its prompt to the last token it feeds back,
against a store that other requests move in between. Admission counts the prompt and the
budget, while a prompt without tokens runs a substitute for one: the last write then falls
past the reservation when the budget ends on a page and no page was recycled by then.
-/

namespace Frink.Paged
open Radix

/-- Who runs the request: its own loop or the shared batch. -/
inductive DecodePath
  | alone
  | batched
  deriving DecidableEq

/-- One write of a request: a chunk of its prompt, the substitute token of an empty prompt,
or a sampled token fed back. -/
inductive Write
  | chunk (n : ℕ)
  | bootstrap
  | feed (token : ℕ)

namespace Write

def rows : Write → ℕ
  | chunk n => n
  | bootstrap => 1
  | feed _ => 1

/-- What a write at `pos` does before its forward. -/
def prepare (pos : ℕ) : Write → PagedLease → SharedPagedKv → Option (PagedLease × SharedPagedKv)
  | chunk _, l, store => some (l, store)
  | bootstrap, l, store => l.beforeStep pos store
  | feed token, l, store => (l.observeSampled token (pos + 1) false).beforeStep pos store

def forward (path : DecodePath) :
    Write → PagedLease → SharedPagedKv → Option (PagedLease × SharedPagedKv)
  | chunk n, l, store => l.forwardBatchPaged n store
  | bootstrap, l, store => l.forwardTokenPaged store
  | feed _, l, store =>
      match path with
      | .alone => l.forwardTokenPaged store
      | .batched => l.forwardMultiSeqKv store

end Write

/-- The rows a prompt is run as: an empty one runs one synthetic token. -/
def promptRows (promptLen : ℕ) : ℕ := max promptLen 1

/-- What a request may write next at `pos`. The batch runs the synthetic token as a chunk, the
private loop as a step; both feed back every sampled token, the last one included. -/
inductive WritesNext (path : DecodePath) (promptLen maxTokens pos : ℕ) : Write → Prop
  | chunk {n : ℕ} : (promptLen = 0 → path = .batched) → pos + n ≤ promptRows promptLen →
      WritesNext path promptLen maxTokens pos (.chunk n)
  | bootstrap : promptLen = 0 → path = .alone → pos = 0 →
      WritesNext path promptLen maxTokens pos .bootstrap
  | feed {token : ℕ} : promptRows promptLen ≤ pos → pos < promptRows promptLen + maxTokens →
      WritesNext path promptLen maxTokens pos (.feed token)

/-- Other requests may have taken and given back any block but the lease's. -/
structure Undisturbed (store st : SharedPagedKv) (lease : PagedLease) : Prop where
  page_sizes : st.layers.map PagedKvStore.blockSize = store.layers.map PagedKvStore.blockSize
  blocks : ∀ g ∈ lease.held, st.groupBlocks g = store.groupBlocks g

/-- A request that has written up to a position, from where admission left it. -/
inductive Writing (path : DecodePath) (store : SharedPagedKv) (lease : PagedLease)
    (promptLen maxTokens cachedLen : ℕ) : ℕ → PagedLease → Prop
  | start : Writing path store lease promptLen maxTokens cachedLen cachedLen lease
  | step {pos : ℕ} {write : Write} {l l₁ l₂ : PagedLease} {st st₁ st₂ : SharedPagedKv} :
      Writing path store lease promptLen maxTokens cachedLen pos l →
      Undisturbed store st lease → WritesNext path promptLen maxTokens pos write →
      write.prepare pos l st = some (l₁, st₁) → write.forward path l₁ st₁ = some (l₂, st₂) →
      Writing path store lease promptLen maxTokens cachedLen (pos + write.rows) l₂

/-- Every write finds its blocks in the lease: the forward succeeds and takes none from the
layers. -/
def Reserved (path : DecodePath) (store : SharedPagedKv) (lease : PagedLease)
    (promptLen maxTokens cachedLen : ℕ) : Prop :=
  ∀ (pos : ℕ) (l : PagedLease) (st : SharedPagedKv) (write : Write),
    Writing path store lease promptLen maxTokens cachedLen pos l → Undisturbed store st lease →
    WritesNext path promptLen maxTokens pos write →
    ∃ l₁ st₁ l₂, write.prepare pos l st = some (l₁, st₁) ∧ write.forward path l₁ st₁ = some (l₂, st₁)

namespace PagedLease

variable {l l' : PagedLease} {st st' : SharedPagedKv} {pos P n m : ℕ}

/-- What a step before the forward leaves of the tables' lengths. -/
structure Extends (l l' : PagedLease) (m : ℕ) : Prop where
  seq_len : ∀ pos, (∀ c ∈ l.caches, c.seqLen = pos) → ∀ c ∈ l'.caches, c.seqLen = pos
  layers : l'.caches.length = l.caches.length
  groups : l'.groups.length ≤ max l.groups.length m

theorem appendBlocks_seqLen {caches : List PagedKvCache} {blocks : List ℕ}
    (h : ∀ c ∈ caches, c.seqLen = pos) : ∀ c ∈ appendBlocks caches blocks, c.seqLen = pos := by
  intro c hc
  obtain ⟨i, hi⟩ := List.mem_iff_getElem?.mp hc
  rw [getElem?_appendBlocks] at hi
  obtain ⟨c', hc', rfl⟩ := Option.map_eq_some_iff.mp hi
  have hseq := h c' (List.mem_of_getElem? hc')
  cases blocks[i]? with
  | none => exact hseq
  | some b => exact hseq

theorem takePage_frame {g : PageGroup} (h : l.takePage st = some (g, l', st')) :
    l'.caches = l.caches ∧ l'.groups = l.groups ∧ l'.window = l.window := by
  unfold takePage at h
  split at h
  · obtain ⟨-, rfl, -⟩ := Prod.mk.inj (Option.some.inj h) |>.imp id Prod.mk.inj
    exact ⟨rfl, rfl, rfl⟩
  · obtain ⟨r, -, hr⟩ := Option.bind_eq_some_iff.mp h
    obtain ⟨-, rfl, -⟩ := Prod.mk.inj (Option.some.inj hr) |>.imp id Prod.mk.inj
    exact ⟨rfl, rfl, rfl⟩

theorem install_extends (h : install n l st = some (l', st')) :
    l.Extends l' (l.groups.length + n) := by
  induction n generalizing l st with
  | zero =>
    obtain ⟨rfl, -⟩ := Prod.mk.inj (Option.some.inj h)
    exact ⟨fun _ h => h, rfl, le_max_left _ _⟩
  | succ n ih =>
    unfold install at h
    split at h
    · obtain ⟨rfl, -⟩ := Prod.mk.inj (Option.some.inj h)
      exact ⟨fun _ h => h, rfl, le_max_left _ _⟩
    · rename_i g l₁ st₁ ht
      obtain ⟨hcaches, hgroups, -⟩ := takePage_frame ht
      obtain ⟨blocks, -, h⟩ := Option.bind_eq_some_iff.mp h
      have hi := ih h
      refine ⟨fun pos hseq => ?_, ?_, ?_⟩
      · apply hi.seq_len pos
        exact appendBlocks_seqLen (hcaches ▸ hseq)
      · rw [hi.layers, length_appendBlocks, hcaches]
      · have hle := hi.groups
        simp only [List.length_append, List.length_singleton, hgroups] at hle
        omega

theorem slide_frame (h : l.slide pos P = some l') :
    l'.caches = l.caches ∧ l'.groups.length = l.groups.length := by
  unfold slide at h
  split at h
  · obtain rfl := Option.some.inj h
    exact ⟨rfl, rfl⟩
  dsimp only at h
  split at h
  · obtain rfl := Option.some.inj h
    exact ⟨rfl, rfl⟩
  split at h
  · obtain rfl := Option.some.inj h
    exact ⟨rfl, rfl⟩
  obtain ⟨⟨groups, taken⟩, hr, h⟩ := Option.bind_eq_some_iff.mp h
  obtain rfl := Option.some.inj h
  unfold recycle at hr
  split at hr
  · obtain ⟨rfl, -⟩ := Prod.mk.inj (Option.some.inj hr)
    refine ⟨rfl, ?_⟩
    simp only [List.length_append, List.length_take, List.length_replicate, List.length_drop]
    omega
  · cases hr

theorem beforeStep_extends (hst : st.blockSize = some P)
    (h : l.beforeStep pos st = some (l', st')) : l.Extends l' (pos / P + 1) := by
  unfold beforeStep at h
  split at h
  · obtain ⟨rfl, -⟩ := Prod.mk.inj (Option.some.inj h)
    exact ⟨fun _ h => h, rfl, le_max_left _ _⟩
  simp only [hst, Option.bind_eq_bind, Option.bind_some] at h
  obtain ⟨l₁, hs, h⟩ := Option.bind_eq_some_iff.mp h
  obtain ⟨hcaches, hgroups⟩ := slide_frame hs
  have hi := install_extends h
  refine ⟨fun pos hseq => hi.seq_len pos (hcaches ▸ hseq), hcaches ▸ hi.layers, ?_⟩
  have hle := hi.groups
  omega

end PagedLease

section Runs

variable {path : DecodePath} {store st st₁ : SharedPagedKv} {lease l l₁ : PagedLease}
  {promptLen maxTokens cachedLen pos P limit : ℕ} {write : Write}

theorem Undisturbed.refl (store : SharedPagedKv) (lease : PagedLease) :
    Undisturbed store store lease := ⟨rfl, fun _ _ => rfl⟩

theorem Undisturbed.fits (h : Undisturbed store st lease) (hf : Fits lease store P) :
    Fits lease st P := by
  have hlen := congrArg List.length h.page_sizes
  rw [List.length_map, List.length_map] at hlen
  refine ⟨hf.layers.trans hlen.symm, ?_, ?_⟩
  · exact List.ne_nil_of_length_pos (hlen ▸ List.length_pos_of_ne_nil hf.nonempty)
  · intro s hs
    have hmem : s.blockSize ∈ store.layers.map PagedKvStore.blockSize :=
      h.page_sizes ▸ List.mem_map_of_mem hs
    obtain ⟨s', hs', heq⟩ := List.mem_map.mp hmem
    exact heq ▸ hf.block_size s' hs'

theorem Fits.blockSize_eq (h : Fits l st P) : st.blockSize = some P := by
  rcases st with ⟨_ | ⟨s, layers⟩, groups⟩
  · exact absurd rfl h.nonempty
  · exact congrArg some (h.block_size s List.mem_cons_self)

theorem Fits.of_length (h : Fits lease st P) (hl : l.caches.length = lease.caches.length) :
    Fits l st P := ⟨hl.trans h.layers, h.nonempty, h.block_size⟩

theorem length_advance (n : ℕ) : (l.advance n).caches.length = l.caches.length :=
  List.length_map _

/-- A write whose rows fit the tables is made in place. -/
theorem forward_within (hP : 0 < P) (h : l.WrittenTo pos) (hf : Fits l st P)
    (hreach : pos + write.rows ≤ l.groups.length * P) :
    write.forward path l st = some (l.advance write.rows, st) := by
  cases write with
  | chunk n => exact PagedLease.forwardBatchPaged_within hP h hf hreach
  | bootstrap => exact PagedLease.forwardBatchPaged_within hP h hf hreach
  | feed token =>
    cases path with
    | alone => exact PagedLease.forwardBatchPaged_within hP h hf hreach
    | batched => exact PagedLease.forwardMultiSeqKv_within hP h hf hreach

/-- What one write needs of an invariant of the lease: the step before the forward reaches
the rows from what the lease holds, and the invariant holds again past them. -/
def Sustains (path : DecodePath) (store : SharedPagedKv) (lease : PagedLease)
    (promptLen maxTokens P limit : ℕ) (inv : ℕ → PagedLease → Prop) : Prop :=
  ∀ (pos : ℕ) (l : PagedLease) (st : SharedPagedKv) (write : Write), inv pos l →
    Undisturbed store st lease → WritesNext path promptLen maxTokens pos write →
    pos + write.rows ≤ limit →
    ∃ l₁, write.prepare pos l st = some (l₁, st) ∧ l₁.WrittenTo pos ∧
      l₁.caches.length = lease.caches.length ∧ pos + write.rows ≤ l₁.groups.length * P ∧
      inv (pos + write.rows) (l₁.advance write.rows)

variable {inv : ℕ → PagedLease → Prop}

theorem Sustains.step (hi : Sustains path store lease promptLen maxTokens P limit inv)
    (hP : 0 < P) (hf : Fits lease store P) (h : inv pos l) (hst : Undisturbed store st lease)
    (hw : WritesNext path promptLen maxTokens pos write) (hle : pos + write.rows ≤ limit) :
    ∃ l₁, write.prepare pos l st = some (l₁, st) ∧
      write.forward path l₁ st = some (l₁.advance write.rows, st) ∧
      inv (pos + write.rows) (l₁.advance write.rows) := by
  obtain ⟨l₁, hprep, hwritten, hlen, hreach, hinv⟩ := hi pos l st write h hst hw hle
  exact ⟨l₁, hprep, forward_within hP hwritten ((hst.fits hf).of_length hlen) hreach, hinv⟩

/-- The invariant holds along every run, as far as it is sustained. -/
theorem Writing.invariant (h : Writing path store lease promptLen maxTokens cachedLen pos l)
    (hi : Sustains path store lease promptLen maxTokens P limit inv) (hP : 0 < P)
    (hf : Fits lease store P) (h₀ : inv cachedLen lease) (hle : pos ≤ limit) : inv pos l := by
  induction h with
  | start => exact h₀
  | @step pos write l l₁ l₂ st st₁ st₂ _ hst hw hprep hfwd ih =>
    obtain ⟨l', hprep', hfwd', hinv⟩ := hi.step hP hf (ih (by omega)) hst hw hle
    rw [hprep, Option.some.injEq, Prod.mk.injEq] at hprep'
    obtain ⟨rfl, rfl⟩ := hprep'
    rw [hfwd, Option.some.injEq, Prod.mk.injEq] at hfwd'
    obtain ⟨rfl, -⟩ := hfwd'
    exact hinv

theorem WritesNext.rows_le (h : WritesNext path promptLen maxTokens pos write) :
    pos + write.rows ≤ promptRows promptLen + maxTokens := by
  cases h with
  | chunk _ hle => exact hle.trans (Nat.le_add_right _ _)
  | bootstrap _ _ hpos =>
    have := le_max_right promptLen 1
    simp only [promptRows, Write.rows]
    omega
  | feed _ hlt => exact hlt

/-- An invariant sustained to the end makes every write reserved. -/
theorem Sustains.reserved
    (hi : Sustains path store lease promptLen maxTokens P (promptRows promptLen + maxTokens) inv)
    (hP : 0 < P) (hf : Fits lease store P) (h₀ : inv cachedLen lease) :
    Reserved path store lease promptLen maxTokens cachedLen := by
  intro pos l st write hrun hst hw
  have hle := hw.rows_le
  obtain ⟨l₁, hprep, hfwd, -⟩ :=
    hi.step hP hf (hrun.invariant hi hP hf h₀ (by omega)) hst hw hle
  exact ⟨l₁, st, _, hprep, hfwd⟩

end Runs

section Unwindowed

/-- Without a window the lease keeps the groups it was admitted with. -/
structure Whole (groups layers pos : ℕ) (l : PagedLease) : Prop where
  window : l.window = none
  groups : l.groups.length = groups
  layers : l.caches.length = layers
  written : l.WrittenTo pos

variable {path : DecodePath} {store : SharedPagedKv} {lease : PagedLease}
  {promptLen maxTokens P limit groups : ℕ}

theorem whole_sustains (hlimit : limit ≤ groups * P) :
    Sustains path store lease promptLen maxTokens P limit (Whole groups lease.caches.length) := by
  intro pos l st write h _ _ hle
  have hstep : ∀ l' : PagedLease, Whole groups lease.caches.length pos l' →
      l'.beforeStep pos st = some (l', st) := by
    intro l' h'
    simp [PagedLease.beforeStep, h'.window]
  have hkeep : ∀ (l' : PagedLease) (n : ℕ), Whole groups lease.caches.length pos l' →
      Whole groups lease.caches.length (pos + n) (l'.advance n) := by
    intro l' n h'
    exact ⟨h'.window, h'.groups, (length_advance n).trans h'.layers, h'.written.advance n⟩
  have hsame : ∀ l' : PagedLease, Whole groups lease.caches.length pos l' →
      write.prepare pos l st = some (l', st) →
      ∃ l₁, write.prepare pos l st = some (l₁, st) ∧ l₁.WrittenTo pos ∧
        l₁.caches.length = lease.caches.length ∧ pos + write.rows ≤ l₁.groups.length * P ∧
        Whole groups lease.caches.length (pos + write.rows) (l₁.advance write.rows) := by
    intro l' h' hprep
    exact ⟨l', hprep, h'.written, h'.layers, h'.groups ▸ hle.trans hlimit, hkeep l' _ h'⟩
  cases write with
  | chunk n => exact hsame l h rfl
  | bootstrap => exact hsame l h (hstep l h)
  | feed token =>
    have hobserved : Whole groups lease.caches.length pos (l.observeSampled token (pos + 1) false) :=
      ⟨by simp [PagedLease.observeSampled, h.window], h.groups, h.layers, h.written.seq_len,
        h.written.tables⟩
    exact hsame _ hobserved (hstep _ hobserved)

end Unwindowed

section Windowed

/-- The position a sliding request counts its steps from: the end of its prompt, unless the
private loop steps the substitute token. -/
def decodeBase (path : DecodePath) (promptLen : ℕ) : ℕ :=
  if promptLen = 0 ∧ path = .alone then 0 else promptRows promptLen

/-- A sliding lease on its plan, written up to `pos` and no longer than it has to be. -/
structure Sliding (p : SlidingPlan) (layers pos : ℕ) (l : PagedLease) : Prop where
  tracked : ∃ w, p.Tracked l w ∧ p.Paced w (max pos p.promptLen)
  reach : max pos p.promptLen ≤ l.groups.length * p.policy.pageSize
  tight : l.groups.length ≤
    max p.admitted.length ((pos + p.policy.pageSize - 1) / p.policy.pageSize)
  layers : l.caches.length = layers
  seq_len : ∀ c ∈ l.caches, c.seqLen = pos

variable {p : SlidingPlan} {path : DecodePath} {store st : SharedPagedKv}
  {lease l : PagedLease} {w : WindowSlide} {promptLen maxTokens pos limit layers : ℕ}

theorem SlidingPlan.Tracked.tablesMatch (h : p.Tracked l w) : l.TablesMatchGroups := by
  intro c hc
  obtain ⟨i, hi⟩ := List.mem_iff_getElem?.mp hc
  exact (h.tables i c hi).1

theorem SlidingPlan.Tracked.advance (h : p.Tracked l w) (n : ℕ) : p.Tracked (l.advance n) w := by
  refine { h with width := ?_, tables := ?_ }
  · intro g hg
    exact (h.width g hg).trans (length_advance n).symm
  · intro i c hc
    obtain ⟨c', hc', rfl⟩ := Option.map_eq_some_iff.mp (List.getElem?_map .. ▸ hc)
    exact h.tables i c' hc'

theorem Sliding.written (h : Sliding p layers pos l) : l.WrittenTo pos := by
  obtain ⟨w, ht, -⟩ := h.tracked
  exact ⟨h.seq_len, ht.tablesMatch⟩

theorem observeSampled_finished (l : PagedLease) : l.observeSampled 0 0 true = l := by
  rcases l with ⟨caches, groups, spare, adopted, radix, salt, _ | w⟩
  · rfl
  · simp [PagedLease.observeSampled, AnchorState.observe]

/-- One step of a sliding lease: the window slides, the page is there, and the row is
written. -/
theorem Sliding.step (hp : p.Sized limit) (h : Sliding p layers pos l) (hs : p.Serves st)
    (hbase : p.promptLen ≤ pos) (hlt : pos < limit) (token position : ℕ) (finished : Bool) :
    ∃ l₁, (l.observeSampled token position finished).beforeStep pos st = some (l₁, st) ∧
      l₁.WrittenTo pos ∧ l₁.caches.length = layers ∧
      pos + 1 ≤ l₁.groups.length * p.policy.pageSize ∧
      Sliding p layers (pos + 1) (l₁.advance 1) := by
  obtain ⟨⟨w, ht, hpc⟩, hreach, htight, hlayers, hseq⟩ := h
  rw [max_eq_left hbase] at hpc hreach
  obtain ⟨l₁, w₁, hstep, ht₁, hpc₁, hreach₁⟩ :=
    PagedLease.beforeStep_spec hp ht hpc hs hreach hlt token position finished
  have hext := PagedLease.beforeStep_extends hs.block_size hstep
  have hwritten : l₁.WrittenTo pos := ⟨hext.seq_len pos hseq, ht₁.tablesMatch⟩
  have hlen : l₁.caches.length = layers := hext.layers.trans hlayers
  refine ⟨l₁, hstep, hwritten, hlen, hreach₁, ?_⟩
  constructor
  · rw [max_eq_left (hbase.trans (Nat.le_succ pos))]
    exact ⟨w₁, ht₁.advance 1, hpc₁⟩
  · rw [max_eq_left (hbase.trans (Nat.le_succ pos))]
    exact hreach₁
  · have hle : l₁.groups.length ≤ max l.groups.length (pos / p.policy.pageSize + 1) := hext.groups
    have hmono : (pos + p.policy.pageSize - 1) / p.policy.pageSize ≤
        pos / p.policy.pageSize + 1 := by
      rw [← Nat.add_div_right pos hp.page_pos]
      exact Nat.div_le_div_right (Nat.sub_le _ _)
    rw [Nat.add_right_comm, Nat.add_sub_cancel, Nat.add_div_right pos hp.page_pos]
    change l₁.groups.length ≤ _
    omega
  · exact (length_advance 1).trans hlen
  · exact (hwritten.advance 1).seq_len

theorem sliding_sustains (hp : p.Sized limit) (hbase : p.promptLen = decodeBase path promptLen)
    (hserves : ∀ st, Undisturbed store st lease → p.Serves st) :
    Sustains path store lease promptLen maxTokens p.policy.pageSize limit
      (Sliding p lease.caches.length) := by
  intro pos l st write h hst hw hle
  cases hw with
  | @chunk n hpath hrows =>
    have hb : p.promptLen = promptRows promptLen := by
      rw [hbase, decodeBase, if_neg]
      rintro ⟨h0, rfl⟩
      exact absurd (hpath h0) DecodePath.noConfusion
    have hmax : max (pos + n) p.promptLen = max pos p.promptLen := by omega
    obtain ⟨w, ht, hpc⟩ := h.tracked
    refine ⟨l, rfl, h.written, h.layers, ?_, ?_⟩
    · refine le_trans ?_ h.reach
      rw [hb]
      exact hrows.trans (le_max_right _ _)
    · constructor
      · exact ⟨w, ht.advance n, hmax ▸ hpc⟩
      · exact hmax ▸ h.reach
      · have hdiv : (pos + p.policy.pageSize - 1) / p.policy.pageSize ≤
            (pos + n + p.policy.pageSize - 1) / p.policy.pageSize := by
          apply Nat.div_le_div_right
          omega
        have htight := h.tight
        change l.groups.length ≤ max _ ((pos + n + _ - 1) / _)
        omega
      · exact (length_advance n).trans h.layers
      · exact (h.written.advance n).seq_len
  | bootstrap h0 halone hpos =>
    have hb : p.promptLen ≤ pos := by
      rw [hbase, decodeBase, if_pos ⟨h0, halone⟩]
      exact Nat.zero_le pos
    have hstep := h.step hp (hserves st hst) hb hle 0 0 true
    rwa [observeSampled_finished] at hstep
  | @feed token hfrom hto =>
    have hb : p.promptLen ≤ pos := by
      refine le_trans ?_ hfrom
      rw [hbase, decodeBase]
      split
      · exact Nat.zero_le _
      · exact le_rfl
    exact h.step hp (hserves st hst) hb hle token (pos + 1) false

/-- The slide of a step, with what the rest of the step needs of it. -/
theorem Sliding.slides (hp : p.Sized limit) (h : Sliding p layers pos l)
    (hbase : p.promptLen ≤ pos) (token position : ℕ) (finished : Bool) :
    ∃ l' w', (l.observeSampled token position finished).slide pos p.policy.pageSize = some l' ∧
      p.Tracked l' w' ∧ l'.groups.length = l.groups.length ∧ l'.WrittenTo pos ∧
      l'.caches.length = layers ∧ l'.window = some w' := by
  obtain ⟨⟨w, ht, hpc⟩, hreach, -, hlayers, hseq⟩ := h
  rw [max_eq_left hbase] at hpc hreach
  obtain ⟨a, ho⟩ := PagedLease.observeSampled_tracked ht token position finished
  have hpc' : p.Paced { w with anchor := a } pos := ⟨hpc.next_eq, hpc.behind, hpc.lag⟩
  obtain ⟨l', w', hslide, ht', -, hlen⟩ := PagedLease.slide_spec hp ho hpc' hreach
  obtain ⟨hcaches, -⟩ := PagedLease.slide_frame hslide
  refine ⟨l', w', hslide, ht', hlen, ⟨?_, ht'.tablesMatch⟩, ?_, ht'.window⟩
  · rw [hcaches]
    exact hseq
  · rw [hcaches]
    exact hlayers

theorem beforeStep_of_slide {l' : PagedLease} {P : ℕ} (hst : st.blockSize = some P)
    (hw : l.slides) (h : l.slide pos P = some l') : l.beforeStep pos st = l'.extendTo pos P st := by
  obtain ⟨w, hw⟩ := Option.isSome_iff_exists.mp hw
  simp [PagedLease.beforeStep, hw, hst, h]

theorem install_nothing {n : ℕ} (h : l.spare = []) (hst : st.acquireGroup = none) :
    PagedLease.install n l st = some (l, st) := by
  cases n with
  | zero => rfl
  | succ n => simp [PagedLease.install, PagedLease.takePage, h, hst]

end Windowed

section Sizes

variable {window : Option WindowPolicy} {policy : WindowPolicy} {path : DecodePath}
  {promptLen maxTokens P : ℕ}

theorem page_le_needed : P ≤ pagedGroupsNeeded (promptLen + maxTokens) promptLen P window * P := by
  apply Nat.le_mul_of_pos_left
  exact lt_of_lt_of_le Nat.one_pos (le_max_right _ _)

/-- A budget that does not end on a page leaves room on its last one. -/
theorem budget_lt {N : ℕ} (hN : P ∣ N) (hM : ¬P ∣ maxTokens) (hle : maxTokens ≤ N) :
    maxTokens < N := by
  apply lt_of_le_of_ne hle
  rintro rfl
  exact hM hN

theorem rows_le_needed (hP : 0 < P) (h : promptLen ≠ 0 ∨ ¬P ∣ maxTokens) :
    promptRows promptLen + maxTokens ≤
      pagedGroupsNeeded (promptLen + maxTokens) promptLen P none * P := by
  have hhold : pagedHoldPositions (promptLen + maxTokens) promptLen P none ≤
      pagedGroupsNeeded (promptLen + maxTokens) promptLen P none * P := hold_le_groupsNeeded hP none
  have hN := Nat.dvd_mul_left P (pagedGroupsNeeded (promptLen + maxTokens) promptLen P none)
  unfold pagedHoldPositions at hhold
  dsimp only at hhold
  unfold promptRows
  rcases h with h | h
  · omega
  · have hlt := budget_lt hN h (by omega)
    omega

theorem hold_le_needed (hP : 0 < P) (h : promptLen ≠ 0 ∨ ¬P ∣ maxTokens) :
    min (decodeBase path promptLen + slideHoldBound policy.slidingWindow policy)
        (promptRows promptLen + maxTokens) ≤
      pagedGroupsNeeded (promptLen + maxTokens) promptLen P (some policy) * P := by
  have hhold : pagedHoldPositions (promptLen + maxTokens) promptLen P (some policy) ≤
      pagedGroupsNeeded (promptLen + maxTokens) promptLen P (some policy) * P :=
    hold_le_groupsNeeded hP (some policy)
  have hN := Nat.dvd_mul_left P (pagedGroupsNeeded (promptLen + maxTokens) promptLen P (some policy))
  unfold pagedHoldPositions at hhold
  dsimp only at hhold
  have hbase : decodeBase path promptLen ≤ promptRows promptLen := by
    unfold decodeBase
    split
    · exact Nat.zero_le _
    · exact le_rfl
  unfold promptRows at hbase ⊢
  rcases h with h | h
  · omega
  · rcases lt_or_ge (pagedGroupsNeeded (promptLen + maxTokens) promptLen P (some policy) * P)
      maxTokens with hlt | hge
    · omega
    · have hlt := budget_lt hN h hge
      omega

theorem decodeBase_le_one : decodeBase path 0 ≤ 1 := by
  unfold decodeBase
  split
  · exact Nat.zero_le 1
  · exact le_rfl

theorem hold_le_budget (hP : 0 < P) :
    min (decodeBase path 0 + slideHoldBound policy.slidingWindow policy) maxTokens ≤
      pagedGroupsNeeded (0 + maxTokens) 0 P (some policy) * P := by
  have hhold : pagedHoldPositions (0 + maxTokens) 0 P (some policy) ≤
      pagedGroupsNeeded (0 + maxTokens) 0 P (some policy) * P :=
    hold_le_groupsNeeded hP (some policy)
  have hbase : decodeBase path 0 ≤ 1 := decodeBase_le_one
  unfold pagedHoldPositions at hhold
  dsimp only at hhold
  omega

theorem base_le_needed (hP : 0 < P) : decodeBase path promptLen ≤
    pagedGroupsNeeded (promptLen + maxTokens) promptLen P window * P := by
  have hpage : P ≤ pagedGroupsNeeded (promptLen + maxTokens) promptLen P window * P := page_le_needed
  have hprompt : promptLen ≤ pagedHoldPositions (promptLen + maxTokens) promptLen P window := by
    unfold pagedHoldPositions
    split
    · exact Nat.le_add_right _ _
    · apply le_min
      · omega
      · exact Nat.le_add_right _ _
  have hhold := hprompt.trans (hold_le_groupsNeeded hP window)
  unfold decodeBase promptRows
  split
  · exact Nat.zero_le _
  · omega

/-- An empty prompt whose budget ends on a page gets no page past its budget. -/
theorem needed_le_budget (hP : 0 < P) (hM : 1 ≤ maxTokens) (hdvd : P ∣ maxTokens) :
    pagedGroupsNeeded (0 + maxTokens) 0 P window * P ≤ maxTokens := by
  obtain ⟨k, rfl⟩ := hdvd
  have hk : 1 ≤ k := Nat.pos_of_mul_pos_left hM
  have hhold : pagedHoldPositions (0 + P * k) 0 P window ≤ P * k := by
    rw [Nat.zero_add]
    unfold pagedHoldPositions
    split
    · exact le_rfl
    · exact min_le_right _ _
  have hdiv : (pagedHoldPositions (0 + P * k) 0 P window + P - 1) / P ≤ k := by
    rw [← Nat.lt_succ_iff, Nat.div_lt_iff_lt_mul hP, Nat.succ_mul, Nat.mul_comm k]
    omega
  exact (Nat.mul_le_mul_right P (max_le hdiv hk)).trans (Nat.mul_comm k P).le

end Sizes

section Admitted

variable {path : DecodePath} {s store : SharedPagedKv} {lease : PagedLease} {P total : ℕ}
  {promptLen maxTokens : ℕ} {decoder : Decoder} {config : PagedKvConfig} {salt : Option ℕ}
  {adoption : Adoption}

/-- Where admission leaves the tables of a lease. -/
theorem admission_tables (hs : s.Sound P total) (hP : 0 < P)
    (hl : decoder.nLayers = s.layers.length) (hlive : ∀ g ∈ adoption.groups, 0 < s.groupRefs g)
    (hcached : adoption.cachedLen = adoption.groups.length * P)
    (hq : admissionPass decoder config promptLen (promptLen + maxTokens) salt adoption s =
      some (lease, store)) :
    Fits lease store P ∧ lease.WrittenTo adoption.cachedLen ∧
      lease.groups.length = max (pagedGroupsNeeded (promptLen + maxTokens) promptLen P
        (pagedWindowPolicy decoder config P)) adoption.groups.length ∧
      lease.window = makeWindow decoder config P adoption.cachedLen := by
  obtain ⟨fresh, hlen, hg, -, rfl⟩ := admissionPass_spec hs hl hlive hP hcached hq
  have hlayers : decoder.nLayers = store.layers.length := hl.trans hg.layers.symm
  refine ⟨⟨?_, hg.sound.layers_ne, hg.sound.block_size⟩, ⟨?_, ?_⟩, ?_, rfl⟩
  · simp [hlayers]
  · intro c hc
    obtain ⟨layer, -, rfl⟩ := List.mem_map.mp hc
    rfl
  · intro c hc
    obtain ⟨layer, -, rfl⟩ := List.mem_map.mp hc
    simp [tableOf]
  · rw [List.length_map, List.length_append, hlen, groupsToGather]
    omega

/-- The plan of a sliding lease, on which its writes are counted from the decode base. -/
theorem sliding_admitted (path : DecodePath) (limit : ℕ) {W : ℕ} (hs : s.Sound P total) (hP : 0 < P)
    (hl : decoder.nLayers = s.layers.length) (hw : decoder.uniformSlidingWindow = some W)
    (hn : adoption.groups.Nodup) (hlive : ∀ g ∈ adoption.groups, 0 < s.groupRefs g)
    (hcached : adoption.cachedLen = adoption.groups.length * P)
    (hback : adoption.cachedLen ≤ promptLen - 1)
    (hq : admissionPass decoder config promptLen (promptLen + maxTokens) salt adoption s =
      some (lease, store))
    (hneed : ∀ policy : WindowPolicy,
      min (decodeBase path promptLen + slideHoldBound policy.slidingWindow policy) limit ≤
        pagedGroupsNeeded (promptLen + maxTokens) promptLen P (some policy) * P) :
    ∃ p : SlidingPlan, p.policy.pageSize = P ∧ p.promptLen = decodeBase path promptLen ∧
      p.Sized limit ∧ p.admitted.length = lease.groups.length ∧
      (∀ st, Undisturbed store st lease → p.Serves st) ∧
      Sliding p lease.caches.length adoption.cachedLen lease := by
  have hle : adoption.cachedLen ≤ decodeBase path promptLen := by
    unfold decodeBase promptRows
    split
    · omega
    · omega
  obtain ⟨p, w, -, rfl, hpb, hp, ht, hpc, hreach, -, hheld, -, -, hblocks⟩ :=
    plan_of_admission hs hP hl hw hn hlive hcached hle (fun policy _ => hneed policy)
      (base_le_needed hP) hq
  obtain ⟨hfits, hwritten, -, -⟩ := admission_tables hs hP hl hlive hcached hq
  have hadmitted : p.admitted.length = lease.groups.length := by
    obtain ⟨fresh, -, -, -, rfl⟩ := admissionPass_spec hs hl hlive hP hcached hq
    rw [← hheld, PagedLease.held, held_map_some, List.length_map]
  refine ⟨p, rfl, hpb, hp, hadmitted, ?_, ?_⟩
  · intro st hst
    refine ⟨(hst.fits hfits).blockSize_eq, ?_⟩
    intro g hg
    exact (hst.blocks g (hheld ▸ hg)).trans (hblocks g hg)
  · rw [← hpb] at hle hpc hreach
    constructor
    · exact ⟨w, ht, (max_eq_right hle).symm ▸ hpc⟩
    · exact (max_eq_right hle).symm ▸ hreach
    · exact hadmitted ▸ le_max_left _ _
    · rfl
    · exact hwritten.seq_len

/-- A prompt with tokens, or a budget that ends inside a page, is reserved whole. -/
theorem reserved_of_covered (hs : s.Sound P total) (hP : 0 < P)
    (hl : decoder.nLayers = s.layers.length) (hn : adoption.groups.Nodup)
    (hlive : ∀ g ∈ adoption.groups, 0 < s.groupRefs g)
    (hcached : adoption.cachedLen = adoption.groups.length * P)
    (hback : adoption.cachedLen ≤ promptLen - 1)
    (hq : admissionPass decoder config promptLen (promptLen + maxTokens) salt adoption s =
      some (lease, store)) (h : promptLen ≠ 0 ∨ ¬P ∣ maxTokens) :
    Reserved path store lease promptLen maxTokens adoption.cachedLen := by
  obtain ⟨hfits, hwritten, hgroups, hwindow⟩ := admission_tables hs hP hl hlive hcached hq
  cases hw : decoder.uniformSlidingWindow with
  | none =>
    have hpol : pagedWindowPolicy decoder config P = none := by rw [pagedWindowPolicy, hw]; rfl
    rw [hpol] at hgroups
    apply (whole_sustains ?_).reserved hP hfits ⟨?_, rfl, rfl, hwritten⟩
    · rw [hgroups]
      exact (rows_le_needed hP h).trans (Nat.mul_le_mul_right P (le_max_left _ _))
    · rw [hwindow, makeWindow, hpol]
      rfl
  | some W =>
    obtain ⟨p, rfl, hpb, hp, -, hserves, hinv⟩ := sliding_admitted path _ hs hP hl hw hn hlive
      hcached hback hq fun policy => hold_le_needed hP h
    exact (sliding_sustains hp hpb hserves).reserved hP hfits hinv

/-- A store whose layers have no free block left, its groups as they are. -/
def drained (store : SharedPagedKv) : SharedPagedKv :=
  { store with layers := store.layers.map fun s => { s with freeBlockIds := [] } }

theorem undisturbed_drained : Undisturbed store (drained store) lease := by
  constructor
  · simp [drained]
  · intro g _
    rfl

theorem acquireGroup_drained (h : store.layers ≠ []) : (drained store).acquireGroup = none := by
  obtain ⟨s, layers, hs⟩ := List.exists_cons_of_ne_nil h
  simp [drained, SharedPagedKv.acquireGroup, hs, PagedKvStore.freeBlockCount]

/-- A token fed back past the tables has nowhere to go once the store is drained. -/
theorem feed_beyond {token pos : ℕ} {l : PagedLease} (hP : 0 < P) (hf : Fits lease store P)
    (h : l.WrittenTo pos) (hl : l.caches.length = lease.caches.length)
    (hend : l.groups.length * P ≤ pos) :
    (Write.feed token).forward path l (drained store) = none := by
  have hfits : Fits l (drained store) P :=
    (undisturbed_drained.fits hf).of_length hl
  have hfree : ∀ s ∈ (drained store).layers, s.freeBlockIds = [] := by
    intro s hs
    obtain ⟨s', -, rfl⟩ := List.mem_map.mp hs
    rfl
  cases path with
  | alone => exact PagedLease.forwardTokenPaged_beyond hP h hfits hend hfree
  | batched => exact PagedLease.forwardMultiSeqKv_beyond hP h hfits hend hfree

/-- A reserved request reaches every position of its budget. -/
theorem Reserved.reaches (h : Reserved path store lease 0 maxTokens 0) {pos : ℕ} (hpos : 1 ≤ pos)
    (hle : pos ≤ 1 + maxTokens) : ∃ l, Writing path store lease 0 maxTokens 0 pos l := by
  induction pos, hpos using Nat.le_induction with
  | base =>
    cases path with
    | alone =>
      have hw : WritesNext .alone 0 maxTokens 0 .bootstrap := .bootstrap rfl rfl rfl
      obtain ⟨l₁, st₁, l₂, hprep, hfwd⟩ := h 0 lease store _ .start (.refl _ _) hw
      exact ⟨l₂, .step .start (.refl _ _) hw hprep hfwd⟩
    | batched =>
      have hw : WritesNext .batched 0 maxTokens 0 (.chunk 1) := .chunk (fun _ => rfl) le_rfl
      obtain ⟨l₁, st₁, l₂, hprep, hfwd⟩ := h 0 lease store _ .start (.refl _ _) hw
      exact ⟨l₂, .step .start (.refl _ _) hw hprep hfwd⟩
  | succ pos hpos ih =>
    obtain ⟨l, hrun⟩ := ih (by omega)
    have hw : WritesNext path 0 maxTokens pos (.feed 0) := .feed hpos hle
    obtain ⟨l₁, st₁, l₂, hprep, hfwd⟩ := h pos l store _ hrun (.refl _ _) hw
    exact ⟨l₂, .step hrun (.refl _ _) hw hprep hfwd⟩

/-- The slide before the last token of an empty prompt's budget leaves a recycled page,
however the request came there. -/
def RecyclesByEnd (path : DecodePath) (store : SharedPagedKv) (lease : PagedLease)
    (maxTokens blockSize : ℕ) : Prop :=
  ∀ (l : PagedLease) (token : ℕ), Writing path store lease 0 maxTokens 0 maxTokens l →
    ∃ l', (l.observeSampled token (maxTokens + 1) false).slide maxTokens blockSize = some l' ∧
      l'.spare ≠ []

theorem last_feed (hM : 1 ≤ maxTokens) (token : ℕ) :
    WritesNext path 0 maxTokens maxTokens (.feed token) :=
  .feed hM (Nat.lt_one_add_iff.mpr le_rfl)

/-- Without a window the last token of such a budget has no block. -/
theorem not_reserved_whole {groups : ℕ} (hP : 0 < P) (hf : Fits lease store P)
    (h₀ : Whole groups lease.caches.length 0 lease) (hM : 1 ≤ maxTokens)
    (hgroups : groups * P = maxTokens) : ¬Reserved path store lease 0 maxTokens 0 := by
  intro hr
  obtain ⟨l, hrun⟩ := hr.reaches hM (Nat.le_add_left _ _)
  have h := hrun.invariant (whole_sustains hgroups.ge) hP hf h₀ le_rfl
  obtain ⟨l₁, st₁, l₂, hprep, hfwd⟩ := hr maxTokens l (drained store) (.feed 0) hrun
    undisturbed_drained (last_feed hM 0)
  have hstep : (Write.feed 0).prepare maxTokens l (drained store) =
      some (l.observeSampled 0 (maxTokens + 1) false, drained store) := by
    simp [Write.prepare, PagedLease.beforeStep, PagedLease.observeSampled, h.window]
  rw [hstep, Option.some.injEq, Prod.mk.injEq] at hprep
  obtain ⟨rfl, rfl⟩ := hprep
  have hwritten : (l.observeSampled 0 (maxTokens + 1) false).WrittenTo maxTokens :=
    ⟨h.written.seq_len, h.written.tables⟩
  rw [feed_beyond hP hf hwritten h.layers (h.groups ▸ hgroups.le)] at hfwd
  cases hfwd

section LastToken

variable {p : SlidingPlan} {l : PagedLease}

/-- Before the last token of an empty prompt's budget the tables end at the cursor. -/
theorem Sliding.ends {layers : ℕ} (hp : p.Sized maxTokens)
    (h : Sliding p layers maxTokens l) (hdvd : p.policy.pageSize ∣ maxTokens)
    (hexact : p.admitted.length * p.policy.pageSize ≤ maxTokens) :
    l.groups.length * p.policy.pageSize ≤ maxTokens := by
  obtain ⟨k, rfl⟩ := hdvd
  have hdiv : (p.policy.pageSize * k + p.policy.pageSize - 1) / p.policy.pageSize ≤ k := by
    rw [← Nat.lt_succ_iff, Nat.div_lt_iff_lt_mul hp.page_pos, Nat.succ_mul, Nat.mul_comm k]
    have := hp.page_pos
    omega
  have hadmitted : p.admitted.length ≤ k :=
    Nat.le_of_mul_le_mul_right (hexact.trans (Nat.mul_comm _ _).le) hp.page_pos
  rw [Nat.mul_comm _ k]
  exact Nat.mul_le_mul_right _ (h.tight.trans (max_le hadmitted hdiv))

/-- Without a recycled page at hand the last token of the budget has no block. -/
theorem recycles_of_reserved (hP : p.policy.pageSize = P) (hp : p.Sized maxTokens)
    (hb : p.promptLen = decodeBase path 0) (hf : Fits lease store P)
    (hserves : ∀ st, Undisturbed store st lease → p.Serves st)
    (h₀ : Sliding p lease.caches.length 0 lease) (hM : 1 ≤ maxTokens)
    (hdvd : P ∣ maxTokens) (hexact : p.admitted.length * P ≤ maxTokens)
    (hr : Reserved path store lease 0 maxTokens 0) : RecyclesByEnd path store lease maxTokens P := by
  subst hP
  intro l token hrun
  have h := hrun.invariant (sliding_sustains hp hb hserves) hp.page_pos hf h₀ le_rfl
  have hle : p.promptLen ≤ maxTokens := hb ▸ decodeBase_le_one.trans hM
  obtain ⟨l', w', hslide, ht, hlen, hwritten, hlayers, -⟩ :=
    h.slides hp hle token (maxTokens + 1) false
  refine ⟨l', hslide, fun hspare => ?_⟩
  obtain ⟨l₁, st₁, l₂, hprep, hfwd⟩ := hr maxTokens l (drained store) (.feed token) hrun
    undisturbed_drained (last_feed hM token)
  have hsize := (undisturbed_drained.fits hf).blockSize_eq
  obtain ⟨w, hw, -⟩ := h.tracked
  have hslides : (l.observeSampled token (maxTokens + 1) false).slides := by
    simp [PagedLease.slides, PagedLease.observeSampled, hw.window]
  rw [Write.prepare, beforeStep_of_slide hsize hslides hslide, PagedLease.extendTo,
    install_nothing hspare (acquireGroup_drained hf.nonempty), Option.some.injEq,
    Prod.mk.injEq] at hprep
  obtain ⟨rfl, rfl⟩ := hprep
  rw [feed_beyond hp.page_pos hf hwritten hlayers (hlen ▸ h.ends hp hdvd hexact)] at hfwd
  cases hfwd

/-- With a recycled page at hand the last token of the budget is written as well. -/
theorem reserved_of_recycles (hP : p.policy.pageSize = P) (hp : p.Sized maxTokens)
    (hb : p.promptLen = decodeBase path 0) (hf : Fits lease store P)
    (hserves : ∀ st, Undisturbed store st lease → p.Serves st)
    (h₀ : Sliding p lease.caches.length 0 lease) (hM : 1 ≤ maxTokens)
    (hr : RecyclesByEnd path store lease maxTokens P) : Reserved path store lease 0 maxTokens 0 := by
  subst hP
  intro pos l st write hrun hst hw
  have hi : Sustains path store lease 0 maxTokens p.policy.pageSize maxTokens
      (Sliding p lease.caches.length) := sliding_sustains hp hb hserves
  rcases le_or_gt (pos + write.rows) maxTokens with hle | hlast
  · have hinv := hrun.invariant hi hp.page_pos hf h₀ (by omega)
    obtain ⟨l₁, hprep, hfwd, -⟩ := hi.step hp.page_pos hf hinv hst hw hle
    exact ⟨l₁, st, _, hprep, hfwd⟩
  cases hw with
  | chunk _ hrows =>
    simp only [Write.rows, promptRows] at hlast hrows
    omega
  | bootstrap _ _ hpos =>
    simp only [Write.rows] at hlast
    omega
  | @feed token _ hto =>
    obtain rfl : pos = maxTokens := by
      simp only [Write.rows, promptRows] at hlast hto
      omega
    have h := hrun.invariant hi hp.page_pos hf h₀ le_rfl
    have hbase : p.promptLen ≤ pos := hb ▸ decodeBase_le_one.trans hM
    obtain ⟨l', w', hslide, ht, hlen, hwritten, hlayers, -⟩ := h.slides hp hbase token (pos + 1) false
    obtain ⟨l'', hslide', hspare⟩ := hr l token hrun
    obtain rfl : l' = l'' := Option.some.inj (hslide.symm.trans hslide')
    have hreach : pos ≤ l'.groups.length * p.policy.pageSize := by
      rw [hlen]
      exact (le_max_left _ _).trans h.reach
    obtain ⟨l₁, hext, ht₁, hreach₁⟩ := PagedLease.extendTo_of_spare hp ht (hserves st hst) hreach
      (hp.locked_le.trans hbase) fun _ => hspare
    have hsize := (hserves st hst).block_size
    obtain ⟨w, hw, -⟩ := h.tracked
    have hslides : (l.observeSampled token (pos + 1) false).slides := by
      simp [PagedLease.slides, PagedLease.observeSampled, hw.window]
    have hprep : (Write.feed token).prepare pos l st = some (l₁, st) := by
      rw [Write.prepare, beforeStep_of_slide hsize hslides hslide]
      exact hext
    have hframe := PagedLease.install_extends hext
    have hwritten₁ : l₁.WrittenTo pos := ⟨hframe.seq_len pos hwritten.seq_len, ht₁.tablesMatch⟩
    have hfits := (hst.fits hf).of_length (hframe.layers.trans hlayers)
    exact ⟨l₁, st, _, hprep, forward_within hp.page_pos hwritten₁ hfits hreach₁⟩

end LastToken

end Admitted

end Frink.Paged
