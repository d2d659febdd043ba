import Mathlib
import Frink.Library.Overlap
import Frink.Library.Recency
import Frink.Speculative.Target

/-! # The prefix cache

Snapshots of what was processed, searched for the longest prefix they share with a new token
sequence. A hit hands back the shared part alone, and a store at capacity drops the snapshot
that was used the longest ago.
-/

namespace Frink.Kv

open Overlap Recency Speculative

namespace KvCache

variable {α β : Type}

/-- A clone is a new holder, which may evict. -/
def clone (c : KvCache α β) : KvCache α β := { c with evictionForbidden := false }

end KvCache

/-- A stored snapshot with the logits that predict the token after it. -/
structure StoredPrefix (K α β : Type) where

  salt : Option ℕ

  tokens : List ℕ

  kvCaches : List (KvCache α β)

  pendingLogits : List K

  lastUsed : ℕ

structure PrefixCache (K α β : Type) where

  entries : List (StoredPrefix K α β)

  maxEntries : ℕ

  hitsPositionsReused : ℕ

  hitsCount : ℕ

  missesCount : ℕ

  refusedWindowed : ℕ

  clock : ℕ

structure PrefixMatch (K α β : Type) where

  matchedLen : ℕ

  kvCaches : Option (List (KvCache α β))

  pendingLogits : Option (List K)

variable {K α β : Type}

def commonPrefixLen (a b : List ℕ) : ℕ := ((a.zip b).takeWhile fun p => p.1 == p.2).length

/-- Whether an entry can be handed back for a query that shares its first `matchedLen` tokens;
a caller without logits backs off one more to recompute them. -/
def reusableAt (entry : StoredPrefix K α β) (matchedLen queryLen : ℕ) : Bool :=
  let backsOff := matchedLen = queryLen ∧ matchedLen < entry.tokens.length
  let target := if backsOff then matchedLen - 1 else matchedLen
  entry.kvCaches.all fun c => c.canTruncateTo target

/-- One entry of the search: the best match so far and how many were refused. -/
def consider (tokens : List ℕ) (salt : Option ℕ) (s : Option (ℕ × ℕ) × ℕ)
    (p : StoredPrefix K α β × ℕ) : Option (ℕ × ℕ) × ℕ :=
  if p.1.salt ≠ salt then s
  else
    let common := commonPrefixLen p.1.tokens tokens
    if common = 0 ∨ s.1.any (fun best => common ≤ best.1) then s
    else if !reusableAt p.1 common tokens.length then (s.1, s.2 + 1)
    else (some (common, p.2), s.2)

/-- `truncate` on a clone of every cache. -/
def truncateClones (n : ℕ) : List (KvCache α β) → Option (List (KvCache α β))
  | [] => some []
  | cache :: caches => do
      let cache ← cache.clone.truncate n
      let caches ← truncateClones n caches
      return cache :: caches

namespace PrefixCache

def new (maxEntries : ℕ) : PrefixCache K α β := ⟨[], maxEntries, 0, 0, 0, 0, 0⟩

variable (c : PrefixCache K α β)

def clear : PrefixCache K α β := { c with entries := [] }

def bestMatch (tokens : List ℕ) (salt : Option ℕ) : Option (ℕ × ℕ) × ℕ :=
  c.entries.zipIdx.foldl (consider tokens salt) (none, c.refusedWindowed)

/-- `none` where the code panics. -/
def findLongestPrefixSalted (tokens : List ℕ) (salt : Option ℕ) :
    Option (PrefixCache K α β × PrefixMatch K α β) :=
  let (best, refused) := c.bestMatch tokens salt
  match best with
  | some (matchedLen, index) => do
      let entry ← c.entries[index]?
      let kvCaches ← truncateClones matchedLen entry.kvCaches
      let pendingLogits :=
        if matchedLen = entry.tokens.length then some entry.pendingLogits else none
      return ({ c with
          entries := c.entries.set index { entry with lastUsed := c.clock + 1 }
          hitsCount := c.hitsCount + 1
          hitsPositionsReused := c.hitsPositionsReused + matchedLen
          refusedWindowed := refused
          clock := c.clock + 1 },
        ⟨matchedLen, some kvCaches, pendingLogits⟩)
  | none =>
      some ({ c with missesCount := c.missesCount + 1, refusedWindowed := refused },
        ⟨0, none, none⟩)

/-- The entry that was used the longest ago. -/
def coldest : Option ℕ :=
  (c.entries.zipIdx.argmin fun p => toLex (p.1.lastUsed, p.2)).map Prod.snd

/-- The entries a store leaves in place. -/
def evicted : List (StoredPrefix K α β) :=
  if c.maxEntries ≤ c.entries.length then
    match c.coldest with
    | some coldest => c.entries.eraseIdx coldest
    | none => c.entries
  else c.entries

def storeSalted (tokens : List ℕ) (kvCaches : List (KvCache α β)) (pendingLogits : List K)
    (salt : Option ℕ) : PrefixCache K α β :=
  if kvCaches.any (·.recurrent) then c
  else
    { c with
      entries := c.evicted ++ [⟨salt, tokens, kvCaches, pendingLogits, c.clock + 1⟩]
      clock := c.clock + 1 }

end PrefixCache

/-- The cache holds the end of a sequence's rows, and where it has no window all of them. -/
structure Resident (kRow : List ℕ → α) (vRow : List ℕ → β) (tokens : List ℕ) (c : KvCache α β) :
    Prop where

  positions : c.positions = tokens.length

  rows_le : c.rows ≤ c.positions

  whole : c.window = none → c.rows = c.positions

  attention : c.recurrent = false

  k_eq : c.k = ((grown [] tokens).map kRow).drop (c.positions - c.rows)

  v_eq : c.v = ((grown [] tokens).map vRow).drop (c.positions - c.rows)

section Truncation

variable {kRow : List ℕ → α} {vRow : List ℕ → β} {tokens : List ℕ} {c d : KvCache α β} {n m : ℕ}

namespace KvCache

@[simp] theorem canTruncateTo_clone : c.clone.canTruncateTo n = c.canTruncateTo n := rfl

theorem canTruncateTo_windowless (hw : c.window = none) (hr : c.recurrent = false) :
    c.canTruncateTo n = true ↔ n ≤ c.positions := by
  simp [canTruncateTo, hw, hr]

/-- One position less to go back is no harder. -/
theorem canTruncateTo_succ (hr : c.recurrent = false) (hn : n + 1 ≤ c.positions)
    (h : c.canTruncateTo n = true) : c.canTruncateTo (n + 1) = true := by
  cases hw : c.window with
  | none =>
    rw [canTruncateTo_windowless hw hr]
    exact hn
  | some w =>
    have hneeded : w.rowsNeededAt (n + 1) ≤ w.rowsNeededAt n + 1 := by
      unfold KvWindow.rowsNeededAt
      omega
    obtain ⟨_, hrows, hleft⟩ := (canTruncateTo_iff hw hr).mp h
    exact (canTruncateTo_iff hw hr).mpr ⟨hn, by omega, by omega⟩

/-- A cache that could go back one position further still can once it went back. -/
theorem canTruncateTo_truncate (hr : c.recurrent = false) (h : c.canTruncateTo n = true) (hd : c.truncate (n + 1) = some d) :
    d.canTruncateTo n = true := by
  obtain ⟨hcan, hpos, hwin, hrec, hkept, _, _⟩ := truncate_spec hr hd
  cases hw : c.window with
  | none =>
    rw [canTruncateTo_windowless (hwin.trans hw) hrec, hpos]
    omega
  | some w =>
    have hle := ((canTruncateTo_iff hw hr).mp hcan).1
    obtain ⟨_, hback, hleft⟩ := (canTruncateTo_iff hw hr).mp h
    rw [canTruncateTo_iff (hwin.trans hw) hrec, hpos, hkept]
    exact ⟨by omega, by omega, by omega⟩

end KvCache

namespace Resident

theorem clone (h : Resident kRow vRow tokens c) : Resident kRow vRow tokens c.clone :=
  ⟨h.positions, h.rows_le, h.whole, h.attention, h.k_eq, h.v_eq⟩

/-- What is left after a truncate is resident for the shorter sequence. -/
theorem truncate (h : Resident kRow vRow tokens c) (hn : n ≤ tokens.length)
    (hcan : c.canTruncateTo n = true) :
    ∃ d, c.truncate n = some d ∧ Resident kRow vRow (tokens.take n) d := by
  have hsome : ∃ d, c.truncate n = some d := ⟨_, if_pos hcan⟩
  obtain ⟨d, hd⟩ := hsome
  obtain ⟨_, hpos, hwin, hrec, hkept, hk, hv⟩ := KvCache.truncate_spec h.attention hd
  have hrows := h.rows_le
  have hlen := h.positions
  have hwindow : c.rows < c.positions → c.positions - n ≤ c.rows := by
    intro hlt
    cases hw : c.window with
    | none =>
      have := h.whole hw
      omega
    | some w => exact ((KvCache.canTruncateTo_iff hw h.attention).mp hcan).2.1
  have hskip : n - (c.rows - (c.positions - n)) = c.positions - c.rows := by omega
  have hend : c.positions - c.rows + (c.rows - (c.positions - n)) = n := by omega
  refine ⟨d, hd, ?_, ?_, ?_, hrec, ?_, ?_⟩
  · rw [hpos, List.length_take, min_eq_left hn]
  · omega
  · intro hw
    have := h.whole (hwin.symm.trans hw)
    omega
  · rw [hkept, hpos, hskip, hk, h.k_eq, List.take_drop, hend, ← take_grown, List.map_take]
  · rw [hkept, hpos, hskip, hv, h.v_eq, List.take_drop, hend, ← take_grown, List.map_take]

end Resident

/-- The clones of resident caches are cut to the shared length. -/
theorem truncateClones_spec {kRow : ℕ → List ℕ → α} {vRow : ℕ → List ℕ → β}
    {kvCaches : List (KvCache α β)} (hn : n ≤ tokens.length)
    (h : ∀ l c, kvCaches[l]? = some c → Resident (kRow l) (vRow l) tokens c)
    (hcan : ∀ c ∈ kvCaches, c.canTruncateTo n = true) :
    ∃ ds, truncateClones n kvCaches = some ds ∧ ds.length = kvCaches.length ∧
      ∀ l d, ds[l]? = some d → Resident (kRow l) (vRow l) (tokens.take n) d ∧
        ∃ c, kvCaches[l]? = some c ∧ c.clone.truncate n = some d := by
  induction kvCaches generalizing kRow vRow with
  | nil => exact ⟨[], rfl, rfl, nofun⟩
  | cons c kvCaches ih =>
    obtain ⟨d, hd, hres⟩ := (h 0 c rfl).clone.truncate hn (hcan c (by simp))
    have hrest : ∀ l c, kvCaches[l]? = some c → Resident (kRow (l + 1)) (vRow (l + 1)) tokens c :=
      fun l c hc => h (l + 1) c hc
    obtain ⟨ds, hds, hlen, hall⟩ := ih hrest fun c hc => hcan c (by simp [hc])
    refine ⟨d :: ds, ?_, by simp [hlen], ?_⟩
    · simp [truncateClones, hd, hds]
    · rintro (_ | l) x hx
      · obtain rfl := Option.some.inj hx
        exact ⟨hres, c, rfl, hd⟩
      · exact hall l x hx

end Truncation

theorem commonPrefixLen_eq (a b : List ℕ) : commonPrefixLen a b = common a b :=
  length_takeWhile_zip

theorem commonPrefixLen_le (a b : List ℕ) :
    commonPrefixLen a b ≤ a.length ∧ commonPrefixLen a b ≤ b.length := by
  rw [commonPrefixLen_eq]
  obtain ⟨ha, hb, _⟩ := le_common_iff.mp (Nat.le_refl (common a b))
  exact ⟨ha, hb⟩

theorem take_commonPrefixLen (a b : List ℕ) :
    a.take (commonPrefixLen a b) = b.take (commonPrefixLen a b) := by
  rw [commonPrefixLen_eq]
  exact take_common

section Search

variable {tokens : List ℕ} {salt : Option ℕ} {c : PrefixCache K α β}

/-- An entry that may serve the query with what they share. -/
def Serves (tokens : List ℕ) (salt : Option ℕ) (e : StoredPrefix K α β) : Prop :=
  e.salt = salt ∧ reusableAt e (commonPrefixLen e.tokens tokens) tokens.length = true

/-- The length of the best match so far. -/
def bestLen (best : Option (ℕ × ℕ)) : ℕ := best.elim 0 Prod.fst

theorem any_le_iff (best : Option (ℕ × ℕ)) {n : ℕ} (hn : n ≠ 0) :
    (best.any fun b => n ≤ b.1) = true ↔ n ≤ bestLen best := by
  cases best with
  | none => simp [bestLen, hn]
  | some b => simp [bestLen]

/-- The best match of the search so far is kept, or is what one more entry shares where that is
more; no entry that serves is passed over for less. -/
theorem consider_spec (tokens : List ℕ) (salt : Option ℕ) (s : Option (ℕ × ℕ) × ℕ) (p : StoredPrefix K α β × ℕ) :
    ((consider tokens salt s p).1 = s.1 ∨
      Serves tokens salt p.1 ∧ 0 < commonPrefixLen p.1.tokens tokens ∧
        (consider tokens salt s p).1 = some (commonPrefixLen p.1.tokens tokens, p.2)) ∧
    bestLen s.1 ≤ bestLen (consider tokens salt s p).1 ∧
    (Serves tokens salt p.1 →
      commonPrefixLen p.1.tokens tokens ≤ bestLen (consider tokens salt s p).1) := by
  unfold consider
  by_cases hsalt : p.1.salt = salt
  · rw [if_neg (not_not.mpr hsalt)]
    dsimp only
    by_cases hzero : commonPrefixLen p.1.tokens tokens = 0
    · rw [if_pos (.inl hzero)]
      exact ⟨.inl rfl, le_rfl, fun _ => by omega⟩
    · by_cases hless : commonPrefixLen p.1.tokens tokens ≤ bestLen s.1
      · rw [if_pos (.inr ((any_le_iff s.1 hzero).mpr hless))]
        exact ⟨.inl rfl, le_rfl, fun _ => hless⟩
      · rw [if_neg]
        · by_cases hreuse : reusableAt p.1 (commonPrefixLen p.1.tokens tokens) tokens.length = true
          · rw [if_neg (by simp [hreuse])]
            have hbest : bestLen (some (commonPrefixLen p.1.tokens tokens, p.2)) =
              commonPrefixLen p.1.tokens tokens := rfl
            refine ⟨.inr ⟨⟨hsalt, hreuse⟩, by omega, rfl⟩, ?_, fun _ => ?_⟩
            · rw [hbest]
              omega
            · rw [hbest]
          · rw [if_pos (by simp [hreuse])]
            exact ⟨.inl rfl, le_rfl, fun h => absurd h.2 hreuse⟩
        · rintro (h | h)
          · exact hzero h
          · exact hless ((any_le_iff s.1 hzero).mp h)
  · rw [if_pos hsalt]
    exact ⟨.inl rfl, le_rfl, fun h => absurd h.1 hsalt⟩

theorem foldl_consider_spec (tokens : List ℕ) (salt : Option ℕ) (s : Option (ℕ × ℕ) × ℕ)
    (ps : List (StoredPrefix K α β × ℕ)) :
    ((ps.foldl (consider tokens salt) s).1 = s.1 ∨
      ∃ p ∈ ps, Serves tokens salt p.1 ∧ 0 < commonPrefixLen p.1.tokens tokens ∧
        (ps.foldl (consider tokens salt) s).1 = some (commonPrefixLen p.1.tokens tokens, p.2)) ∧
    bestLen s.1 ≤ bestLen (ps.foldl (consider tokens salt) s).1 ∧
    ∀ p ∈ ps, Serves tokens salt p.1 →
      commonPrefixLen p.1.tokens tokens ≤ bestLen (ps.foldl (consider tokens salt) s).1 := by
  induction ps generalizing s with
  | nil => exact ⟨.inl rfl, le_rfl, nofun⟩
  | cons p ps ih =>
    obtain ⟨hfrom, hgrow, hserved⟩ := consider_spec tokens salt s p
    obtain ⟨hlast, hgrow', hserved'⟩ := ih (consider tokens salt s p)
    rw [List.foldl_cons]
    refine ⟨?_, hgrow.trans hgrow', ?_⟩
    · rcases hlast with hlast | ⟨q, hq, h⟩
      · rcases hfrom with hfrom | ⟨hserves, hpos, hp⟩
        · exact .inl (hlast.trans hfrom)
        · exact .inr ⟨p, by simp, hserves, hpos, hlast.trans hp⟩
      · exact .inr ⟨q, by simp [hq], h⟩
    · intro q hq hserves
      rcases List.mem_cons.mp hq with rfl | hq
      · exact (hserved hserves).trans hgrow'
      · exact hserved' q hq hserves

/-- The search ends with the longest match that an entry serves, or with none. -/
theorem bestMatch_spec (c : PrefixCache K α β) (tokens : List ℕ) (salt : Option ℕ) :
    (∀ e ∈ c.entries, Serves tokens salt e →
      commonPrefixLen e.tokens tokens ≤ bestLen (c.bestMatch tokens salt).1) ∧
    ((c.bestMatch tokens salt).1 = none ∨
      ∃ i e, c.entries[i]? = some e ∧ Serves tokens salt e ∧ 0 < commonPrefixLen e.tokens tokens ∧
        (c.bestMatch tokens salt).1 = some (commonPrefixLen e.tokens tokens, i)) := by
  obtain ⟨hfrom, _, hserved⟩ := foldl_consider_spec tokens salt (none, c.refusedWindowed)
    c.entries.zipIdx
  constructor
  · intro e he hserves
    obtain ⟨i, hi⟩ := List.mem_iff_getElem?.mp he
    exact hserved (e, i) (List.mem_zipIdx_iff_getElem?.mpr hi) hserves
  · rcases hfrom with hnone | ⟨p, hp, hserves, hpos, hbest⟩
    · exact .inl hnone
    · exact .inr ⟨p.2, p.1, List.mem_zipIdx_iff_getElem?.mp hp, hserves, hpos, hbest⟩

/-- The coldest entry has the least stamp. -/
theorem coldest_spec (h : c.entries ≠ []) :
    ∃ j e, c.coldest = some j ∧ c.entries[j]? = some e ∧
      ∀ e' ∈ c.entries, e.lastUsed ≤ e'.lastUsed := by
  unfold PrefixCache.coldest
  cases hmin : c.entries.zipIdx.argmin fun p => toLex (p.1.lastUsed, p.2) with
  | none =>
    rw [List.argmin_eq_none] at hmin
    simp [h] at hmin
  | some p =>
    refine ⟨p.2, p.1, rfl, List.mem_zipIdx_iff_getElem?.mp (List.argmin_mem hmin), ?_⟩
    intro e he
    obtain ⟨i, hi⟩ := List.mem_iff_getElem?.mp he
    have hmem : (e, i) ∈ c.entries.zipIdx := List.mem_zipIdx_iff_getElem?.mpr hi
    have hle := List.le_of_mem_argmin hmem hmin
    rw [Prod.Lex.toLex_le_toLex] at hle
    rcases hle with hlt | ⟨heq, _⟩
    · exact hlt.le
    · exact heq.le

end Search

inductive Op (K α β : Type) where

  | store (tokens : List ℕ) (kvCaches : List (KvCache α β)) (pendingLogits : List K)
      (salt : Option ℕ)

  | find (tokens : List ℕ) (salt : Option ℕ)

  | clear

namespace Op

/-- A stored snapshot's caches hold its tokens; one with a recurrent state is refused. -/
def Sound (kRow : ℕ → List ℕ → α) (vRow : ℕ → List ℕ → β) : Op K α β → Prop
  | store tokens kvCaches _ _ => kvCaches.any (·.recurrent) = false →
      ∀ l cache, kvCaches[l]? = some cache → Resident (kRow l) (vRow l) tokens cache
  | _ => True

/-- A snapshot is not stored where there is to be none. -/
def Fits (maxEntries : ℕ) : Op K α β → Prop
  | store _ kvCaches _ _ => kvCaches.any (·.recurrent) = false → 0 < maxEntries
  | _ => True

end Op

namespace PrefixCache

/-- `none` where the code panics. -/
def apply (c : PrefixCache K α β) : Op K α β → Option (PrefixCache K α β)
  | .store tokens kvCaches pendingLogits salt =>
      some (c.storeSalted tokens kvCaches pendingLogits salt)
  | .find tokens salt => (c.findLongestPrefixSalted tokens salt).map Prod.fst
  | .clear => some c.clear

/-- When each entry was last hit or stored, after one more operation at `now`. -/
def usedAfter (c : PrefixCache K α β) (times : List ℕ) (now : ℕ) : Op K α β → List ℕ
  | .store _ kvCaches _ _ =>
      if kvCaches.any (·.recurrent) then times
      else (if c.maxEntries ≤ c.entries.length then
          match c.coldest with
          | some j => times.eraseIdx j
          | none => times
        else times) ++ [now]
  | .find tokens salt =>
      match (c.bestMatch tokens salt).1 with
      | some (_, i) => times.set i now
      | none => times
  | .clear => []

end PrefixCache

section Runs

variable (kRow : ℕ → List ℕ → α) (vRow : ℕ → List ℕ → β)

/-- A run, with the numbers of the operations at which the entries were last used. -/
inductive Run (maxEntries : ℕ) : List (Op K α β) → PrefixCache K α β → List ℕ → Prop

  | new : Run maxEntries [] (.new maxEntries) []

  | step {ops : List (Op K α β)} {c c' : PrefixCache K α β} {times : List ℕ} {op : Op K α β} :
      Run maxEntries ops c times → op.Sound kRow vRow → c.apply op = some c' →
        Run maxEntries (ops ++ [op]) c' (c.usedAfter times (ops.length + 1) op)

/-- What a lookup hands back. -/
structure Served (c : PrefixCache K α β) (tokens : List ℕ) (salt : Option ℕ)
    (m : PrefixMatch K α β) : Prop where

  longest : ∀ e ∈ c.entries, Serves tokens salt e →
    commonPrefixLen e.tokens tokens ≤ m.matchedLen

  exact : (m.matchedLen = 0 ∧ m.kvCaches = none ∧ m.pendingLogits = none) ∨
    ∃ e ∈ c.entries, Serves tokens salt e ∧ commonPrefixLen e.tokens tokens = m.matchedLen ∧
      m.pendingLogits = (if m.matchedLen = e.tokens.length then some e.pendingLogits else none) ∧
      ∃ caches, m.kvCaches = some caches ∧ caches.length = e.kvCaches.length ∧
        ∀ l cache, caches[l]? = some cache →
          Resident (kRow l) (vRow l) (tokens.take m.matchedLen) cache ∧
            cache.positions = m.matchedLen ∧
              (m.matchedLen = tokens.length → m.pendingLogits = none →
                cache.canTruncateTo (m.matchedLen - 1) = true)

/-- The lookups and the evictions of a state are exact. -/
structure Exact (maxEntries : ℕ) (c : PrefixCache K α β) (times : List ℕ) : Prop where

  bounded : c.entries.length ≤ maxEntries

  served : ∀ tokens salt, ∃ c' m, c.findLongestPrefixSalted tokens salt = some (c', m) ∧
    Served kRow vRow c tokens salt m

  evicts : c.entries ≠ [] → maxEntries ≤ c.entries.length →
    ∃ j, c.evicted = c.entries.eraseIdx j ∧ j < c.entries.length ∧
      ∀ i a b, i ≠ j → times[j]? = some a → times[i]? = some b → a < b

/-- What every operation keeps. -/
structure Sound (maxEntries now : ℕ) (c : PrefixCache K α β) (times : List ℕ) : Prop where

  maxEntries_eq : c.maxEntries = maxEntries

  resident : ∀ e ∈ c.entries, ∀ l cache, e.kvCaches[l]? = some cache →
    Resident (kRow l) (vRow l) e.tokens cache

  marked : Marked c.clock now (c.entries.map StoredPrefix.lastUsed) times

end Runs

section Steps

variable {kRow : ℕ → List ℕ → α} {vRow : ℕ → List ℕ → β} {maxEntries now : ℕ}
  {c c' : PrefixCache K α β} {times : List ℕ} {tokens : List ℕ} {salt : Option ℕ}

theorem reusableAt_spec {e : StoredPrefix K α β} {n queryLen : ℕ} (hpos : 0 < n)
    (hres : ∀ cache ∈ e.kvCaches, cache.recurrent = false ∧ n ≤ cache.positions)
    (h : reusableAt e n queryLen = true) :
    ∀ cache ∈ e.kvCaches, cache.canTruncateTo n = true ∧
      (n = queryLen → n < e.tokens.length → cache.canTruncateTo (n - 1) = true) := by
  intro cache hcache
  obtain ⟨hrec, hle⟩ := hres cache hcache
  unfold reusableAt at h
  have hall := List.all_eq_true.mp h cache hcache
  by_cases hback : n = queryLen ∧ n < e.tokens.length
  · rw [if_pos hback] at hall
    have hsucc := KvCache.canTruncateTo_succ hrec (by omega) hall
    rw [Nat.sub_add_cancel hpos] at hsucc
    exact ⟨hsucc, fun _ _ => hall⟩
  · rw [if_neg hback] at hall
    exact ⟨hall, fun hq hlt => absurd ⟨hq, hlt⟩ hback⟩

/-- What an entry that serves the query hands back. -/
theorem serve_spec {e : StoredPrefix K α β} {tokens : List ℕ} {salt : Option ℕ}
    (hres : ∀ l cache, e.kvCaches[l]? = some cache → Resident (kRow l) (vRow l) e.tokens cache)
    (hserves : Serves tokens salt e) (hpos : 0 < commonPrefixLen e.tokens tokens) :
    ∃ caches, truncateClones (commonPrefixLen e.tokens tokens) e.kvCaches = some caches ∧
      caches.length = e.kvCaches.length ∧ ∀ l cache, caches[l]? = some cache →
        Resident (kRow l) (vRow l) (tokens.take (commonPrefixLen e.tokens tokens)) cache ∧
          (commonPrefixLen e.tokens tokens = tokens.length →
            commonPrefixLen e.tokens tokens < e.tokens.length →
              cache.canTruncateTo (commonPrefixLen e.tokens tokens - 1) = true) := by
  obtain ⟨hle, _⟩ := commonPrefixLen_le e.tokens tokens
  have hall := reusableAt_spec hpos (fun cache hcache => by
    obtain ⟨l, hl⟩ := List.mem_iff_getElem?.mp hcache
    have hr := hres l cache hl
    exact ⟨hr.attention, hr.positions ▸ hle⟩) hserves.2
  obtain ⟨caches, hcaches, hlen, hcut⟩ := truncateClones_spec hle hres fun c hc => (hall c hc).1
  refine ⟨caches, hcaches, hlen, fun l cache hl => ?_⟩
  obtain ⟨hresident, source, hsource, htruncate⟩ := hcut l cache hl
  rw [take_commonPrefixLen] at hresident
  refine ⟨hresident, fun hquery hlt => ?_⟩
  have hback := (hall source (List.mem_of_getElem? hsource)).2 hquery hlt
  refine KvCache.canTruncateTo_truncate (hres l source hsource).clone.attention hback ?_
  rw [Nat.sub_add_cancel hpos]
  exact htruncate

/-- A lookup hits the entry with the longest match, or misses. -/
theorem find_spec (h : Sound kRow vRow maxEntries now c times) (tokens : List ℕ)
    (salt : Option ℕ) :
    ∃ c' m, c.findLongestPrefixSalted tokens salt = some (c', m) ∧
      Served kRow vRow c tokens salt m ∧
        Sound kRow vRow maxEntries (now + 1) c' (c.usedAfter times (now + 1) (.find tokens salt)) ∧
          c'.entries.length = c.entries.length := by
  obtain ⟨hlongest, hbest⟩ := bestMatch_spec c tokens salt
  have hused : c.usedAfter times (now + 1) (.find tokens salt) =
      match (c.bestMatch tokens salt).1 with
      | some (_, i) => times.set i (now + 1)
      | none => times := rfl
  rw [hused]
  unfold PrefixCache.findLongestPrefixSalted
  generalize c.bestMatch tokens salt = found at hlongest hbest hused ⊢
  obtain ⟨best, refused⟩ := found
  dsimp only at hlongest hbest ⊢
  rcases hbest with rfl | ⟨i, e, he, hserves, hpos, rfl⟩
  · refine ⟨_, _, rfl, ⟨hlongest, .inl ⟨rfl, rfl, rfl⟩⟩, ?_, rfl⟩
    exact ⟨h.maxEntries_eq, h.resident, h.marked.tick⟩
  · obtain ⟨caches, hcaches, hlen, hall⟩ :=
      serve_spec (h.resident e (List.mem_of_getElem? he)) hserves hpos
    dsimp only
    refine ⟨_, _, by rw [he, Option.bind_eq_bind, Option.bind_some, hcaches]; rfl, ⟨hlongest, .inr ?_⟩, ?_, ?_⟩
    · refine ⟨e, List.mem_of_getElem? he, hserves, rfl, rfl, caches, rfl, hlen, ?_⟩
      intro l cache hl
      obtain ⟨hresident, hback⟩ := hall l cache hl
      refine ⟨hresident, ?_, fun hquery hlogits => hback hquery ?_⟩
      · rw [hresident.positions, List.length_take]
        exact min_eq_left (commonPrefixLen_le e.tokens tokens).2
      · have hle := (commonPrefixLen_le e.tokens tokens).1
        have hne : commonPrefixLen e.tokens tokens ≠ e.tokens.length := by
          intro heq
          rw [if_pos heq] at hlogits
          cases hlogits
        omega
    · refine ⟨h.maxEntries_eq, ?_, ?_⟩
      · intro e' he'
        rcases List.mem_or_eq_of_mem_set he' with he' | rfl
        · exact h.resident e' he'
        · exact h.resident e (List.mem_of_getElem? he)
      · rw [List.map_set]
        exact h.marked.touch i
    · exact List.length_set

theorem evicted_spec (h : Sound kRow vRow maxEntries now c times) (hne : c.entries ≠ [])
    (hfull : maxEntries ≤ c.entries.length) :
    ∃ j, c.coldest = some j ∧ c.evicted = c.entries.eraseIdx j ∧ j < c.entries.length ∧
      ∀ i a b, i ≠ j → times[j]? = some a → times[i]? = some b → a < b := by
  obtain ⟨j, e, hcoldest, hj, hleast⟩ := coldest_spec hne
  refine ⟨j, hcoldest, ?_, (List.getElem?_eq_some_iff.mp hj).1, ?_⟩
  · rw [PrefixCache.evicted, h.maxEntries_eq, if_pos hfull, hcoldest]
  · intro i a b hij ha hb
    have hstamp : (c.entries.map StoredPrefix.lastUsed)[j]? = some e.lastUsed := by
      rw [List.getElem?_map, hj]
      rfl
    refine h.marked.oldest hstamp ?_ hij ha hb
    intro t ht
    obtain ⟨e', he', rfl⟩ := List.mem_map.mp ht
    exact hleast e' he'

theorem store_spec (h : Sound kRow vRow maxEntries now c times) (tokens : List ℕ)
    (kvCaches : List (KvCache α β)) (logits : List K) (salt : Option ℕ)
    (hsound : Op.Sound kRow vRow (.store tokens kvCaches logits salt)) :
    Sound kRow vRow maxEntries (now + 1) (c.storeSalted tokens kvCaches logits salt)
      (c.usedAfter times (now + 1) (.store tokens kvCaches logits salt)) := by
  unfold PrefixCache.storeSalted PrefixCache.usedAfter
  by_cases hrec : kvCaches.any (·.recurrent) = true
  · dsimp only
    rw [if_pos hrec, if_pos hrec]
    exact ⟨h.maxEntries_eq, h.resident, h.marked.tick⟩
  · dsimp only
    rw [if_neg hrec, if_neg hrec]
    have hleft : Marked c.clock now (c.evicted.map StoredPrefix.lastUsed)
        (if c.maxEntries ≤ c.entries.length then
          match c.coldest with
          | some j => times.eraseIdx j
          | none => times
        else times) := by
      unfold PrefixCache.evicted
      split
      · cases c.coldest with
        | none => exact h.marked
        | some j =>
          have herased := h.marked.eraseIdx j
          rwa [List.eraseIdx_map] at herased
      · exact h.marked
    refine ⟨h.maxEntries_eq, ?_, ?_⟩
    · intro e he
      rcases List.mem_append.mp he with he | he
      · apply h.resident e
        unfold PrefixCache.evicted at he
        split at he
        · split at he
          · exact List.mem_of_mem_eraseIdx he
          · exact he
        · exact he
      · obtain rfl := List.mem_singleton.mp he
        exact hsound (by simpa using hrec)
    · rw [List.map_append, List.map_singleton]
      exact hleft.push

theorem length_evicted (h : Sound kRow vRow maxEntries now c times)
    (hlen : c.entries.length ≤ maxEntries) (hpos : 0 < maxEntries) :
    c.evicted.length < maxEntries := by
  by_cases hfull : maxEntries ≤ c.entries.length
  · have hne : c.entries ≠ [] := by
      rintro hnil
      rw [hnil, List.length_nil] at hfull
      omega
    obtain ⟨j, _, herased, hj, _⟩ := evicted_spec h hne hfull
    rw [herased, List.length_eraseIdx_of_lt hj]
    omega
  · rw [PrefixCache.evicted, h.maxEntries_eq, if_neg hfull]
    omega

/-- One operation, which never panics on a sound state. -/
theorem apply_spec (h : Sound kRow vRow maxEntries now c times) {op : Op K α β}
    (hsound : op.Sound kRow vRow) (hop : c.apply op = some c') :
    Sound kRow vRow maxEntries (now + 1) c' (c.usedAfter times (now + 1) op) ∧
      (c.entries.length ≤ maxEntries → op.Fits maxEntries → c'.entries.length ≤ maxEntries) := by
  cases op with
  | store tokens kvCaches logits salt =>
    obtain rfl : c.storeSalted tokens kvCaches logits salt = c' := Option.some.inj hop
    refine ⟨store_spec h tokens kvCaches logits salt hsound, fun hlen hfits => ?_⟩
    unfold PrefixCache.storeSalted
    by_cases hrec : kvCaches.any (·.recurrent) = true
    · rwa [if_pos hrec]
    · have := length_evicted h hlen (hfits (by simpa using hrec))
      rw [if_neg hrec]
      simp only [List.length_append, List.length_singleton]
      omega
  | find tokens salt =>
    obtain ⟨d, m, hfind, _, hkept, hlen⟩ := find_spec h tokens salt
    rw [PrefixCache.apply, hfind] at hop
    obtain rfl : d = c' := Option.some.inj hop
    exact ⟨hkept, fun hle _ => hlen.trans_le hle⟩
  | clear =>
    obtain rfl : c.clear = c' := Option.some.inj hop
    refine ⟨⟨h.maxEntries_eq, nofun, h.marked.clear.tick⟩, fun _ _ => Nat.zero_le _⟩

theorem Run.sound {ops : List (Op K α β)} (h : Run kRow vRow maxEntries ops c times) :
    Sound kRow vRow maxEntries ops.length c times ∧
      ((∀ op ∈ ops, op.Fits maxEntries) → c.entries.length ≤ maxEntries) := by
  induction h with
  | new => exact ⟨⟨rfl, nofun, .nil⟩, fun _ => Nat.zero_le _⟩
  | step _ hsound hop ih =>
    obtain ⟨hkept, hlen⟩ := apply_spec ih.1 hsound hop
    refine ⟨by rwa [List.length_append], fun hfits => hlen (ih.2 fun op hop => ?_) ?_⟩
    · exact hfits op (by simp [hop])
    · exact hfits _ (by simp)

/-- In every run that stores nothing where there is to be nothing, lookups are served exactly,
the bound is kept, and what goes is what was used the longest ago. -/
theorem prefix_cache_exact {ops : List (Op K α β)} (h : Run kRow vRow maxEntries ops c times)
    (hfits : ∀ op ∈ ops, op.Fits maxEntries) : Exact kRow vRow maxEntries c times := by
  obtain ⟨hsound, hlen⟩ := h.sound
  refine ⟨hlen hfits, fun tokens salt => ?_, fun hne hfull => ?_⟩
  · obtain ⟨c', m, hfind, hserved, _⟩ := find_spec hsound tokens salt
    exact ⟨c', m, hfind, hserved⟩
  · obtain ⟨j, _, h⟩ := evicted_spec hsound hne hfull
    exact ⟨j, h⟩

/-- A snapshot of one token in one layer. -/
def oneToken : Op ℕ ℕ ℕ := .store [7] [KvCache.new.push 1 2] [0] none

theorem oneToken_run (maxEntries : ℕ) :
    ∃ c, c.entries.length = 1 ∧
      Run (fun _ _ => 1) (fun _ _ => 2) maxEntries [oneToken] c [1] := by
  have hsound : oneToken.Sound (fun _ _ => 1) (fun _ _ => 2) := by
    rintro _ (_ | l) cache hcache
    · obtain rfl := Option.some.inj hcache
      exact ⟨rfl, Nat.le_refl _, fun _ => rfl, rfl, rfl, rfl⟩
    · cases hcache
  have hevicted : (PrefixCache.new maxEntries : PrefixCache ℕ ℕ ℕ).evicted = [] := by
    simp [PrefixCache.evicted, PrefixCache.new, PrefixCache.coldest]
  have htimes : (PrefixCache.new maxEntries : PrefixCache ℕ ℕ ℕ).usedAfter [] 1 oneToken =
      [1] := by
    simp [PrefixCache.usedAfter, PrefixCache.new, PrefixCache.coldest, oneToken, KvCache.new,
      KvCache.push]
  have hnew : Run (fun _ _ => 1) (fun _ _ => 2) maxEntries []
    (.new maxEntries : PrefixCache ℕ ℕ ℕ) [] := .new
  have hrun := hnew.step hsound rfl
  rw [List.nil_append, List.length_nil, Nat.zero_add, htimes] at hrun
  refine ⟨_, ?_, hrun⟩
  simp [PrefixCache.storeSalted, hevicted, KvCache.new, KvCache.push]

/-- A cache with room for one entry. -/
theorem prefix_cache_exact_one :
    ∃ c, Exact (fun _ _ => 1) (fun _ _ => 2) 1 (c : PrefixCache ℕ ℕ ℕ) [1] := by
  obtain ⟨c, _, hrun⟩ := oneToken_run 1
  refine ⟨c, prefix_cache_exact hrun ?_⟩
  intro op hop
  obtain rfl := List.mem_singleton.mp hop
  intro _
  exact Nat.one_pos

/-- A cache with room for none holds the one entry it was given. -/
theorem prefix_cache_exceeded :
    ∃ c, Run (fun _ _ => 1) (fun _ _ => 2) 0 [oneToken] c [1] ∧
      ¬Exact (fun _ _ => 1) (fun _ _ => 2) 0 c [1] := by
  obtain ⟨c, hlen, hrun⟩ := oneToken_run 0
  refine ⟨c, hrun, fun h => ?_⟩
  have := h.bounded
  omega

end Steps

end Frink.Kv
