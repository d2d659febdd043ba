import Frink.Weights.RepackCache

/-! # Served under the right identity

Two identities in use that agree in their address are of one mapping, because the weak reference of
an entry keeps its control block. What a call returns is therefore the packing of its own bytes,
whatever was mapped, unmapped and cached before, and the cache is always within its budget.
-/

namespace Frink.Weights.Repack

open Keyed

variable {pack : Format → Bytes → ℕ → ℕ → Bytes} {budget : ℕ} {mappings mappings' : List Mapping}

def Entry.size (entry : Entry) : ℕ := entry.packed.length

/-- A packing that is what its key and its identity say. -/
def Entry.Honest (pack : Format → Bytes → ℕ → ℕ → Bytes) (mappings : List Mapping)
    (x : RepackKey × Entry) : Prop :=
  ∃ m, mappings[x.2.id.map.mapping]? = some m ∧
    x.2.id = .of x.2.id.map.mapping m x.2.id.offset ∧
    x.1 = x.2.id.key x.1.format x.1.rows x.1.cols ∧
    x.2.packed = pack x.1.format (m.bytes.drop x.2.id.offset) x.1.rows x.1.cols

namespace Cache

variable {cache : Cache} {key : RepackKey} {id : MapId} {packed : Bytes} {size fuel : ℕ}

/-- The bytes are those of the entries, within the budget, and every entry is honest. -/
structure Sound (pack : Format → Bytes → ℕ → ℕ → Bytes) (budget : ℕ) (mappings : List Mapping)
    (cache : Cache) : Prop where

  functional : Functional cache.entries

  resident : cache.residentBytes = total Entry.size cache.entries

  within : cache.residentBytes ≤ budget

  honest : ∀ x ∈ cache.entries, Entry.Honest pack mappings x

theorem Sound.evict (h : cache.Sound pack budget mappings) (key : RepackKey) :
    (cache.evict key).Sound pack budget mappings ∧ (cache.evict key).entries = erase key cache.entries := by
  unfold Cache.evict
  cases hlookup : cache.entries.lookup key with
  | none => exact ⟨h, (erase_of_not_mem (not_mem_of_lookup hlookup)).symm⟩
  | some entry =>
    have hresident := h.resident
    have hwithin := h.within
    have htotal := total_erase Entry.size h.functional (mem_of_lookup hlookup)
    refine ⟨⟨h.functional.erase key, ?_, ?_, ?_⟩, rfl⟩
    · dsimp only [Entry.size] at htotal ⊢
      omega
    · dsimp only
      omega
    · rintro x hx
      exact h.honest x (mem_erase.mp hx).1

theorem Sound.makeRoom (h : cache.Sound pack budget mappings) (size fuel : ℕ) :
    (makeRoom budget size fuel cache).Sound pack budget mappings ∧
      ∀ x ∈ (makeRoom budget size fuel cache).entries, x ∈ cache.entries := by
  induction fuel generalizing cache with
  | zero => exact ⟨h, fun x hx => hx⟩
  | succ fuel ih =>
    unfold Cache.makeRoom
    split
    · exact ⟨h, fun x hx => hx⟩
    · split
      · exact ⟨h, fun x hx => hx⟩
      · rename_i victim _
        obtain ⟨hsound, hentries⟩ := h.evict victim
        obtain ⟨hsound, hsub⟩ := ih hsound
        refine ⟨hsound, fun x hx => ?_⟩
        have hx := hsub x hx
        rw [hentries] at hx
        exact (mem_erase.mp hx).1

/-- What a look-up leaves: entries of before, some used anew, and on a miss none under the key. -/
theorem Sound.takeHit (h : cache.Sound pack budget mappings) (key : RepackKey) (id : MapId) :
    (cache.takeHit mappings key id).2.Sound pack budget mappings ∧
      (∀ x ∈ (cache.takeHit mappings key id).2.entries,
        ∃ y ∈ cache.entries, x.2.id = y.2.id) ∧
      (∀ hit, (cache.takeHit mappings key id).1 = some hit →
        ∃ entry, (key, entry) ∈ cache.entries ∧ entry.id.sameMap mappings id = true ∧
          hit = entry.packed) ∧
      ((cache.takeHit mappings key id).1 = none →
        key ∉ (cache.takeHit mappings key id).2.entries.map Prod.fst) := by
  unfold Cache.takeHit
  cases hlookup : cache.entries.lookup key with
  | none => exact ⟨h, fun x hx => ⟨x, hx, rfl⟩, nofun, fun _ => not_mem_of_lookup hlookup⟩
  | some entry =>
    have hentry := mem_of_lookup hlookup
    dsimp only
    split
    · rename_i hsame
      have hmem : ∀ x ∈ modify key (Entry.use (cache.clock + 1)) cache.entries,
          ∃ y ∈ cache.entries, x.1 = y.1 ∧ x.2.id = y.2.id ∧
            x.2.packed = y.2.packed := by
        rintro ⟨k, e⟩ hx
        rcases mem_modify.mp hx with ⟨hx, -⟩ | ⟨rfl, e', he', rfl⟩
        · exact ⟨(k, e), hx, rfl, rfl, rfl⟩
        · exact ⟨(k, e'), he', rfl, rfl, rfl⟩
      have htotal : total Entry.size (modify key (Entry.use (cache.clock + 1)) cache.entries) =
          total Entry.size cache.entries :=
        @total_modify_same _ _ _ Entry.size (Entry.use (cache.clock + 1)) (fun _ => rfl) key _
      refine ⟨⟨h.functional.modify key _, h.resident.trans htotal.symm, h.within, ?_⟩, ?_, ?_, nofun⟩
      · rintro x hx
        obtain ⟨y, hy, hkey, hid, hpacked⟩ := hmem x hx
        obtain ⟨m, hm, hof, hk, hp⟩ := h.honest y hy
        exact ⟨m, by rw [hid, hm], by rw [hid]; exact hof, by rw [hid, hkey]; exact hk,
          by rw [hid, hkey, hpacked]; exact hp⟩
      · rintro x hx
        obtain ⟨y, hy, -, hid, -⟩ := hmem x hx
        exact ⟨y, hy, hid⟩
      · rintro hit hhit
        exact ⟨entry, hentry, hsame, (Option.some.inj hhit).symm⟩
    · obtain ⟨hsound, hentries⟩ := h.evict key
      refine ⟨hsound, ?_, nofun, fun _ => ?_⟩
      · rintro x hx
        rw [hentries] at hx
        exact ⟨x, (mem_erase.mp hx).1, rfl⟩
      · dsimp only
        rw [hentries]
        rintro hmem
        obtain ⟨x, hx, hkey⟩ := List.mem_map.mp hmem
        exact (mem_erase.mp hx).2 hkey

/-- An honest packing whose key is free may be offered. -/
theorem Sound.insertWithinBudget (h : cache.Sound pack budget mappings)
    (hkey : key ∉ cache.entries.map Prod.fst)
    (hhonest : ∀ lastUsed, Entry.Honest pack mappings (key, ⟨id, packed, lastUsed⟩)) :
    (cache.insertWithinBudget budget key id packed).Sound pack budget mappings ∧
      ∀ x ∈ (cache.insertWithinBudget budget key id packed).entries,
        x ∈ cache.entries ∨ x.2.id = id := by
  obtain ⟨hsound, hsub⟩ := h.makeRoom packed.length (cache.entries.length + 1)
  unfold Cache.insertWithinBudget
  dsimp only
  generalize Cache.makeRoom budget packed.length (cache.entries.length + 1) cache = after at *
  split
  · exact ⟨h, fun x hx => .inl hx⟩
  · split
    · exact ⟨hsound, fun x hx => .inl (hsub x hx)⟩
    · have hresident := hsound.resident
      have hfree : key ∉ after.entries.map Prod.fst := by
        rintro hmem
        obtain ⟨x, hx, rfl⟩ := List.mem_map.mp hmem
        exact hkey (List.mem_map_of_mem (hsub x hx))
      refine ⟨⟨hsound.functional.insert key _, ?_, ?_, ?_⟩, ?_⟩
      · simp only [total_insert, erase_of_not_mem hfree]
        dsimp only [Entry.size] at hresident ⊢
        omega
      · dsimp only
        omega
      · rintro x hx
        rcases mem_insert.mp hx with rfl | ⟨hx, -⟩
        · exact hhonest _
        · exact hsound.honest x hx
      · rintro x hx
        rcases mem_insert.mp hx with rfl | ⟨hx, -⟩
        · exact .inr rfl
        · exact .inl (hsub x hx)

end Cache

/-- What was mapped stays where it was, with its bytes. -/
def Extends (mappings mappings' : List Mapping) : Prop :=
  ∀ (i : ℕ) (m : Mapping), mappings[i]? = some m →
    ∃ m', mappings'[i]? = some m' ∧ m'.address = m.address ∧ m'.bytes = m.bytes

theorem Entry.Honest.extend (h : Extends mappings mappings') {x : RepackKey × Entry}
    (hx : Entry.Honest pack mappings x) : Entry.Honest pack mappings' x := by
  obtain ⟨m, hm, hid, hkey, hpacked⟩ := hx
  obtain ⟨m', hm', haddress, hbytes⟩ := h _ m hm
  refine ⟨m', hm', ?_, hkey, by rw [hbytes, hpacked]⟩
  rw [hid, MapId.of, MapId.of, haddress]

theorem Cache.Sound.extend (h : Extends mappings mappings') {cache : Cache}
    (hcache : cache.Sound pack budget mappings) : cache.Sound pack budget mappings' :=
  { hcache with honest := fun x hx => (hcache.honest x hx).extend h }

/-- A call has the identity of its bytes, and their packing wherever it has one. -/
structure Call.Sound (pack : Format → Bytes → ℕ → ℕ → Bytes) (mappings : List Mapping)
    (c : Call) : Prop where

  id : c.id = c.request.data.mapId mappings

  known : ∀ i offset, c.request.data = .mapped i offset → ∃ m, mappings[i]? = some m

  result : ∀ bytes, c.phase = .packed bytes ∨ c.phase = .done bytes →
    bytes = c.request.repack pack mappings

theorem Call.Sound.extend (h : Extends mappings mappings') {c : Call}
    (hc : c.Sound pack mappings) : c.Sound pack mappings' := by
  obtain ⟨⟨format, data, rows, cols⟩, id, phase⟩ := c
  cases data with
  | owned bytes => exact ⟨hc.id, nofun, hc.result⟩
  | shared bytes => exact ⟨hc.id, nofun, hc.result⟩
  | mapped i offset =>
    obtain ⟨m, hm⟩ := hc.known i offset rfl
    obtain ⟨m', hm', haddress, hbytes⟩ := h i m hm
    have hid := hc.id
    have hresult := hc.result
    simp only [Request.repack, WeightBytes.bytes, WeightBytes.mapId, hm] at hid hresult
    constructor
    case id => simpa only [WeightBytes.mapId, hm', Option.map_some, MapId.of, haddress] using hid
    case known =>
      rintro _ _ ⟨⟩
      exact ⟨m', hm'⟩
    case result =>
      simpa only [Request.repack, WeightBytes.bytes, hm', Option.elim_some, hbytes] using hresult

/-- The identity of a call on mapped bytes, and what it packs. -/
theorem Call.Sound.mapped {c : Call} (hc : c.Sound pack mappings) {id : MapId}
    (hid : c.id = some id) :
    ∃ i m offset, c.request.data = .mapped i offset ∧ mappings[i]? = some m ∧ id = .of i m offset ∧
      c.request.repack pack mappings =
        pack c.request.format (m.bytes.drop offset) c.request.rows c.request.cols := by
  obtain ⟨⟨format, data, rows, cols⟩, _, phase⟩ := c
  obtain rfl : _ = some id := hid
  have hsome := hc.id
  cases data with
  | owned bytes => cases hsome
  | shared bytes => cases hsome
  | mapped i offset =>
    obtain ⟨m, hm⟩ := hc.known i offset rfl
    simp only [WeightBytes.mapId, hm] at hsome
    refine ⟨i, m, offset, rfl, hm, Option.some.inj hsome, ?_⟩
    simp only [Request.repack, WeightBytes.bytes, hm, Option.elim_some]

namespace System

variable {s s' : System} {c : Call} {i j : ℕ} {m m' : Mapping}

/-- What holds in every state. An address whose control block is in use is not given out again. -/
structure Sound (pack : Format → Bytes → ℕ → ℕ → Bytes) (budget : ℕ) (s : System) : Prop where

  cache : s.cache.Sound pack budget s.mappings

  calls : ∀ c ∈ s.calls, c.Sound pack s.mappings

  latest : ∀ i j m m', s.mappings[i]? = some m → s.mappings[j]? = some m' →
    m.address = m'.address → i < j → ¬ s.Kept i

/-- Two control blocks in use are at different addresses. -/
theorem Sound.unique (h : s.Sound pack budget) (hi : s.Kept i) (hj : s.Kept j)
    (hm : s.mappings[i]? = some m) (hm' : s.mappings[j]? = some m')
    (haddress : m.address = m'.address) : i = j := by
  rcases Nat.lt_trichotomy i j with hlt | heq | hlt
  · exact absurd hi (h.latest i j m m' hm hm' haddress hlt)
  · exact heq
  · exact absurd hj (h.latest j i m' m hm' hm haddress.symm hlt)

/-- A hit is the packing of the call's own bytes. -/
theorem Sound.hit (h : s.Sound pack budget) (hc : c ∈ s.calls)
    (hrunning : ∀ bytes, c.phase ≠ .done bytes) {id : MapId} (hid : c.id = some id)
    {entry : Entry}
    (hentry : (id.key c.request.format c.request.rows c.request.cols, entry) ∈ s.cache.entries)
    (hsame : entry.id.sameMap s.mappings id = true) :
    entry.packed = c.request.repack pack s.mappings := by
  obtain ⟨i, m, offset, hdata, hm, rfl, hrepack⟩ := (h.calls c hc).mapped hid
  obtain ⟨m', hm', hof, -, hpacked⟩ := h.cache.honest _ hentry
  dsimp only at hm' hof hpacked
  rw [hof] at hsame
  obtain ⟨haddress, hoffset, -⟩ := of_decide_eq_true hsame
  dsimp only [MapId.of] at haddress hoffset
  have hi : s.Kept i := .inr (.inr ⟨c, hc, hrunning, offset, hdata⟩)
  have hj : s.Kept entry.id.map.mapping := .inr (.inl ⟨_, hentry, rfl⟩)
  have hij := h.unique hi hj hm hm' haddress.symm
  rw [← hij, hm] at hm'
  obtain rfl := Option.some.inj hm'
  rw [hpacked, hrepack, hoffset]
  rfl

/-- Nothing new is in use. -/
theorem Sound.latest_of (h : s.Sound pack budget)
    (hback : ∀ (k : ℕ) (m' : Mapping), s'.mappings[k]? = some m' →
      ∃ m, s.mappings[k]? = some m ∧ m.address = m'.address)
    (hkept : ∀ k, s'.Kept k → s.Kept k) (i j : ℕ) (m m' : Mapping)
    (hm : s'.mappings[i]? = some m) (hm' : s'.mappings[j]? = some m')
    (haddress : m.address = m'.address) (hlt : i < j) : ¬ s'.Kept i := by
  obtain ⟨n, hn, hnm⟩ := hback i m hm
  obtain ⟨n', hn', hnm'⟩ := hback j m' hm'
  exact fun hi => h.latest i j n n' hn hn' (by rw [hnm, hnm', haddress]) hlt (hkept i hi)

theorem Sound.map (h : s.Sound pack budget) {address : ℕ} (bytes : Bytes)
    (hfree : ∀ i m, s.mappings[i]? = some m → m.address = address → ¬ s.Kept i) :
    Sound pack budget { s with mappings := s.mappings ++ [⟨address, bytes, true⟩] } := by
  have hold : ∀ {k : ℕ} {m : Mapping}, s.mappings[k]? = some m →
      (s.mappings ++ [⟨address, bytes, true⟩])[k]? = some m := by
    intro k m hk
    rw [List.getElem?_append_left (List.getElem?_eq_some_iff.mp hk).1, hk]
  have hextends : Extends s.mappings (s.mappings ++ [⟨address, bytes, true⟩]) :=
    fun k m hk => ⟨m, hold hk, rfl, rfl⟩
  refine ⟨h.cache.extend hextends, fun c hc => (h.calls c hc).extend hextends, ?_⟩
  rintro i j m m' hm hm' haddress hlt
  dsimp only at hm hm'
  have hj : j < s.mappings.length + 1 := by
    simpa using (List.getElem?_eq_some_iff.mp hm').1
  rw [List.getElem?_append_left (by omega)] at hm
  have hkept : ¬ s.Kept i := by
    rcases Nat.lt_or_eq_of_le (Nat.le_of_lt_succ hj) with hj | rfl
    · rw [List.getElem?_append_left hj] at hm'
      exact h.latest i j m m' hm hm' haddress hlt
    · rw [List.getElem?_concat_length] at hm'
      obtain rfl := Option.some.inj hm'
      exact hfree i m hm haddress
  rintro (⟨n, hn, hlive⟩ | hrest)
  · rw [hold hm] at hn
    obtain rfl := Option.some.inj hn
    exact hkept (.inl ⟨m, hm, hlive⟩)
  · exact hkept (.inr hrest)

theorem Sound.unmap (h : s.Sound pack budget) (hm : s.mappings[i]? = some m) :
    Sound pack budget { s with mappings := s.mappings.set i { m with live := false } } := by
  have hlt := (List.getElem?_eq_some_iff.mp hm).1
  have hset : ∀ k, (s.mappings.set i { m with live := false })[k]? =
      if i = k then some { m with live := false } else s.mappings[k]? := by
    intro k
    rw [List.getElem?_set]
    simp [hlt]
  have hextends : Extends s.mappings (s.mappings.set i { m with live := false }) := by
    intro k n hn
    rw [hset]
    split
    · rename_i heq
      subst heq
      rw [hm] at hn
      obtain rfl := Option.some.inj hn
      exact ⟨_, rfl, rfl, rfl⟩
    · exact ⟨n, hn, rfl, rfl⟩
  refine ⟨h.cache.extend hextends, fun c hc => (h.calls c hc).extend hextends, ?_⟩
  apply h.latest_of
  · rintro k n hn
    dsimp only at hn
    rw [hset] at hn
    split at hn
    · rename_i heq
      subst heq
      obtain rfl := Option.some.inj hn
      exact ⟨m, hm, rfl⟩
    · exact ⟨n, hn, rfl⟩
  · rintro k (⟨n, hn, hlive⟩ | hrest)
    · dsimp only at hn
      rw [hset] at hn
      split at hn
      · obtain rfl := Option.some.inj hn
        cases hlive
      · exact .inl ⟨n, hn, hlive⟩
    · exact .inr hrest

theorem Sound.call (h : s.Sound pack budget) {request : Request}
    (hlive : ∀ i offset, request.data = .mapped i offset →
      ∃ m, s.mappings[i]? = some m ∧ m.live = true) :
    Sound pack budget
      { s with calls := s.calls ++ [⟨request, request.data.mapId s.mappings, .lookup⟩] } := by
  refine ⟨h.cache, ?_, h.latest_of (fun k m hm => ⟨m, hm, rfl⟩) ?_⟩
  · rintro c hc
    rcases List.mem_append.mp hc with hc | hc
    · exact h.calls c hc
    · obtain rfl := List.mem_singleton.mp hc
      refine ⟨rfl, fun i offset hdata => ?_, nofun⟩
      obtain ⟨m, hm, -⟩ := hlive i offset hdata
      exact ⟨m, hm⟩
  · rintro k (hlive' | hentry | ⟨c, hc, hborrows⟩)
    · exact .inl hlive'
    · exact .inr (.inl hentry)
    · rcases List.mem_append.mp hc with hc | hc
      · exact .inr (.inr ⟨c, hc, hborrows⟩)
      · obtain rfl := List.mem_singleton.mp hc
        obtain ⟨-, offset, hdata⟩ := hborrows
        exact .inl (hlive k offset hdata)

/-- What one section of a call leaves behind. -/
structure Ran (pack : Format → Bytes → ℕ → ℕ → Bytes) (budget : ℕ) (s : System) (c : Call)
    (r : Call × Cache) : Prop where

  request : r.1.request = c.request

  id : r.1.id = c.id

  finished : ∀ bytes, c.phase = .done bytes → r.1.phase = .done bytes

  result : ∀ bytes, r.1.phase = .packed bytes ∨ r.1.phase = .done bytes →
    bytes = c.request.repack pack s.mappings

  cache : r.2.Sound pack budget s.mappings

  entries : ∀ x ∈ r.2.entries, (∃ y ∈ s.cache.entries, x.2.id = y.2.id) ∨
    c.id = some x.2.id ∧ ∀ bytes, c.phase ≠ .done bytes

  uncached : c.id = none → r.2 = s.cache

/-- What a look-up finds is the packing of the call's own bytes. -/
theorem Sound.takeHit (h : s.Sound pack budget) (hc : c ∈ s.calls)
    (hrunning : ∀ bytes, c.phase ≠ .done bytes) {id : MapId} (hid : c.id = some id) {hit : Bytes}
    (hhit : (s.cache.takeHit s.mappings
      (id.key c.request.format c.request.rows c.request.cols) id).1 = some hit) :
    hit = c.request.repack pack s.mappings := by
  obtain ⟨-, -, hfound, -⟩ :=
    h.cache.takeHit (id.key c.request.format c.request.rows c.request.cols) id
  obtain ⟨entry, hentry, hsame, rfl⟩ := hfound hit hhit
  exact h.hit hc hrunning hid hentry hsame

theorem Sound.ran (h : s.Sound pack budget) (hc : c ∈ s.calls) :
    Ran pack budget s c (c.getOrRepack pack budget s.mappings s.cache) := by
  have hsound := h.calls c hc
  obtain ⟨request, id, phase⟩ := c
  have hsame : ∀ x ∈ s.cache.entries, (∃ y ∈ s.cache.entries, x.2.id = y.2.id) ∨
      id = some x.2.id ∧ ∀ bytes, phase ≠ .done bytes := fun x hx => .inl ⟨x, hx, rfl⟩
  have hown : ∀ {bytes : Bytes} {phase : Phase}, phase = .packed bytes ∨ phase = .done bytes →
      ∀ {own : Bytes}, phase = .packed own ∨ phase = .done own → bytes = own := by
    rintro bytes _ (rfl | rfl) own (h | h) <;> cases h <;> rfl
  cases phase with
  | done bytes => exact ⟨rfl, rfl, fun _ hover => hover, hsound.result, h.cache, hsame, fun _ => rfl⟩
  | packing =>
    exact ⟨rfl, rfl, nofun, fun bytes hbytes => hown hbytes (.inl rfl), h.cache, hsame, fun _ => rfl⟩
  | lookup =>
    cases id with
    | none =>
      exact ⟨rfl, rfl, nofun, fun bytes hbytes => hown hbytes (.inr rfl), h.cache, hsame,
        fun _ => rfl⟩
    | some id =>
      have hhit := fun hit => @Sound.takeHit _ _ _ _ h hc nofun id rfl hit
      obtain ⟨hcache, hentries, -, -⟩ :=
        h.cache.takeHit (id.key request.format request.rows request.cols) id
      unfold Call.getOrRepack
      dsimp only at hhit hcache hentries ⊢
      generalize s.cache.takeHit s.mappings _ id = r at *
      obtain ⟨answer, after⟩ := r
      cases answer with
      | none => exact ⟨rfl, rfl, nofun, nofun, hcache, fun x hx => .inl (hentries x hx), nofun⟩
      | some hit =>
        exact ⟨rfl, rfl, nofun, fun bytes hbytes => hhit hit rfl ▸ hown hbytes (.inr rfl), hcache,
          fun x hx => .inl (hentries x hx), nofun⟩
  | packed bytes =>
    have hbytes := hsound.result bytes (.inl rfl)
    cases id with
    | none =>
      exact ⟨rfl, rfl, nofun, fun _ hdone => hown hdone (.inr rfl) ▸ hbytes, h.cache, hsame,
        fun _ => rfl⟩
    | some id =>
      have hhit := fun hit => @Sound.takeHit _ _ _ _ h hc nofun id rfl hit
      have hhonest : ∀ lastUsed, Entry.Honest pack s.mappings
          (id.key request.format request.rows request.cols, ⟨id, bytes, lastUsed⟩) := by
        obtain ⟨i, m, offset, -, hm, rfl, hrepack⟩ := hsound.mapped rfl
        exact fun _ => ⟨m, hm, rfl, rfl, hbytes.trans hrepack⟩
      obtain ⟨hcache, hentries, -, hmiss⟩ :=
        h.cache.takeHit (id.key request.format request.rows request.cols) id
      unfold Call.getOrRepack
      dsimp only at hhit hcache hentries hmiss ⊢
      generalize s.cache.takeHit s.mappings _ id = r at *
      obtain ⟨answer, after⟩ := r
      cases answer with
      | some hit =>
        exact ⟨rfl, rfl, nofun, fun _ hdone => hhit hit rfl ▸ hown hdone (.inr rfl), hcache,
          fun x hx => .inl (hentries x hx), nofun⟩
      | none =>
        obtain ⟨hinserted, hmem⟩ := hcache.insertWithinBudget (hmiss rfl) hhonest
        refine ⟨rfl, rfl, nofun, fun _ hdone => hown hdone (.inr rfl) ▸ hbytes, hinserted, ?_, nofun⟩
        rintro x hx
        rcases hmem x hx with hx | hx
        · exact .inl (hentries x hx)
        · exact .inr ⟨by rw [hx], nofun⟩

theorem Sound.run (h : s.Sound pack budget) (hi : s.calls[i]? = some c) :
    Sound pack budget
      { s with
        cache := (c.getOrRepack pack budget s.mappings s.cache).2
        calls := s.calls.set i (c.getOrRepack pack budget s.mappings s.cache).1 } := by
  have hc := List.mem_of_getElem? hi
  have hran := h.ran hc
  generalize c.getOrRepack pack budget s.mappings s.cache = r at *
  obtain ⟨c', cache⟩ := r
  obtain ⟨hrequest, hid, hover, hresult, hcache, hentries, -⟩ := hran
  have hold := h.calls c hc
  refine ⟨hcache, ?_, h.latest_of (fun k m hm => ⟨m, hm, rfl⟩) ?_⟩
  · rintro d hd
    rcases List.mem_or_eq_of_mem_set hd with hd | rfl
    · exact h.calls d hd
    · refine ⟨?_, ?_, ?_⟩
      · rw [hid, hrequest]
        exact hold.id
      · rw [hrequest]
        exact hold.known
      · rw [hrequest]
        exact hresult
  · rintro k (hlive | ⟨x, hx, rfl⟩ | ⟨d, hd, hborrows⟩)
    · exact .inl hlive
    · rcases hentries x hx with ⟨y, hy, hxy⟩ | ⟨hxid, hrunning⟩
      · exact .inr (.inl ⟨y, hy, by rw [hxy]⟩)
      · obtain ⟨j, m, offset, hdata, -, hof, -⟩ := hold.mapped hxid
        refine .inr (.inr ⟨c, hc, hrunning, offset, ?_⟩)
        rw [hof]
        exact hdata
    · rcases List.mem_or_eq_of_mem_set hd with hd | rfl
      · exact .inr (.inr ⟨d, hd, hborrows⟩)
      · obtain ⟨hrunning, hdata⟩ := hborrows
        rw [hrequest] at hdata
        exact .inr (.inr ⟨c, hc, fun bytes hdone => hrunning bytes (hover bytes hdone), hdata⟩)

theorem Sound.of_reachable (h : Reachable pack budget s) : s.Sound pack budget := by
  induction h with
  | start => exact ⟨⟨List.nodup_nil, rfl, Nat.zero_le _, nofun⟩, nofun, nofun⟩
  | step _ hstep ih =>
    cases hstep with
    | map address bytes hfree => exact ih.map bytes hfree
    | unmap i m hm _ => exact ih.unmap hm
    | call request hlive => exact ih.call hlive
    | run i c hi => exact ih.run hi

theorem run_of_reachable (h : Reachable pack budget s) (i : ℕ) (hi : s.calls[i]? = some c)
    (heq : { s with
      cache := (c.getOrRepack pack budget s.mappings s.cache).2
      calls := s.calls.set i (c.getOrRepack pack budget s.mappings s.cache).1 } = s') :
    Reachable pack budget s' := heq ▸ .step h (.run i c hi)

end System

end Frink.Weights.Repack
