import Mathlib
import Frink.Prefill.Pass

/-! # Chunks tile a prompt

However passes and prompts are interleaved, the chunks of one prompt follow each other from its
cached prefix on, what they charge adds up to the pages they cover and to one reservation, and a
pass never charges the window beyond what is free and what one request can free for itself.
-/

namespace Frink.Prefill

section Pages

variable {a b page : ℕ}

theorem divCeil_mono (h : a ≤ b) (page : ℕ) : divCeil a page ≤ divCeil b page := by
  apply Nat.div_le_div_right
  omega

theorem divCeil_of_dvd (hpage : 0 < page) (h : page ∣ a) : divCeil a page * page = a := by
  obtain ⟨k, rfl⟩ := h
  have hdiv : (page * k + page - 1) / page = k := by
    rw [Nat.add_sub_assoc hpage, Nat.mul_add_div hpage, Nat.div_eq_of_lt (by omega), Nat.add_zero]
  rw [divCeil, hdiv, Nat.mul_comm]

/-- As many pages are enough as end behind `a`. -/
theorem divCeil_le (hpage : 0 < page) (h : a ≤ b * page) : divCeil a page ≤ b := by
  rw [divCeil, Nat.div_le_iff_le_mul hpage]
  omega

theorem lt_divCeil (hpage : 0 < page) (h : b * page < a) : b < divCeil a page := by
  rw [divCeil, Nat.lt_div_iff_mul_lt hpage]
  omega

end Pages

namespace PrefillPass

variable {pass pass' : PrefillPass} {request : PendingRequest} {capacity : Capacity}
  {computedLen chunkLen cachedLen slot window : ℕ} {chunk : AdmittedChunk} {e : NotAdmitted}

/-- What a bounded chunk does to a pass. -/
structure Bounded (pass : PrefillPass) (request : PendingRequest) (capacity : Capacity)
    (computedLen chunkLen window : ℕ) (r : Except NotAdmitted ℕ × PrefillPass) : Prop where

  refused : ∀ e, r.1 = .error e → r.2 = pass

  frame : r.2 = { pass with reservedSwa := r.2.reservedSwa }

  le : ∀ n, r.1 = .ok n → n ≤ chunkLen

  charge : ∀ n, r.1 = .ok n → r.2.reservedSwa = pass.reservedSwa +
    (divCeil (computedLen + n) pass.geometry.pageSize - divCeil computedLen pass.geometry.pageSize) *
      pass.geometry.pageSize

  aligned : ∀ n, r.1 = .ok n → 0 < n → pass.geometry.pageSize ∣ computedLen →
    pass.geometry.pageSize ∣ computedLen + n ∨ request.promptLen ≤ computedLen + n

  within : ∀ n, r.1 = .ok n → 0 < n → pass.geometry.pageSize ∣ computedLen →
    r.2.reservedSwa ≤ capacity.swaTokens + pass.selfReclaim request computedLen window

theorem windowBoundedChunk_spec (hpage : 0 < pass.geometry.pageSize) :
    Bounded pass request capacity computedLen chunkLen window
      (pass.windowBoundedChunk request computedLen chunkLen window capacity) := by
  unfold windowBoundedChunk
  generalize hreclaim : pass.selfReclaim request computedLen window = reclaim
  generalize hgeometry : pass.geometry.pageSize = page at hpage ⊢
  dsimp only
  generalize hbudget : capacity.swaTokens + reclaim - pass.reservedSwa = budget
  generalize hbounded :
    min chunkLen ((divCeil computedLen page + budget / page) * page - computedLen) = bounded
  generalize haligned : alignDown (computedLen + bounded) page - computedLen = aligned
  have hle : aligned ≤ bounded := by
    have : alignDown (computedLen + bounded) page ≤ computedLen + bounded := Nat.div_mul_le_self _ _
    omega
  split
  · exact ⟨fun _ _ => rfl, rfl, nofun, nofun, nofun, nofun⟩
  · rename_i hlong
    generalize hn : (if 0 < bounded ∧ bounded < request.promptLen - computedLen then aligned
      else bounded) = n
    have hnle : n ≤ bounded := by
      rw [← hn]
      split
      · exact hle
      · exact Nat.le_refl _
    refine ⟨nofun, rfl, ?_, ?_, ?_, ?_⟩
    · rintro _ ⟨⟩
      omega
    · rintro _ ⟨⟩
      rw [hgeometry]
    · rintro _ ⟨⟩ hpos hdvd
      rw [hgeometry] at hdvd ⊢
      split at hn
      · left
        have hdown : computedLen + n = alignDown (computedLen + bounded) page := by omega
        rw [hdown]
        exact Nat.dvd_mul_left _ _
      · right
        omega
    · rintro _ ⟨⟩ hpos hdvd
      rw [hgeometry] at hdvd
      have hstart := divCeil_of_dvd hpage hdvd
      dsimp only
      rw [hreclaim]
      have hend : divCeil (computedLen + n) page ≤ divCeil computedLen page + budget / page := by
        apply divCeil_le hpage
        omega
      have hmore : divCeil computedLen page < divCeil (computedLen + n) page := by
        apply lt_divCeil hpage
        omega
      have hcharge : (divCeil (computedLen + n) page - divCeil computedLen page) * page ≤
          budget / page * page := Nat.mul_le_mul_right _ (by omega)
      have hfloor : budget / page * page ≤ budget := Nat.div_mul_le_self _ _
      have hone : 1 * page ≤ budget / page * page := Nat.mul_le_mul_right _ (by omega)
      omega

/-- A refused chunk leaves no trace. -/
theorem takeChunk_refused (hpage : 0 < pass.geometry.pageSize)
    (h : (pass.takeChunk request cachedLen slot capacity).1 = .error e) :
    (pass.takeChunk request cachedLen slot capacity).2 = pass := by
  unfold takeChunk at h ⊢
  split
  · rfl
  · rename_i hbudget
    rw [if_neg hbudget] at h
    dsimp only at h ⊢
    generalize startOf request cachedLen = start at h ⊢
    generalize min pass.tokenBudget (request.promptLen - start) = chunkLen at h ⊢
    cases hwindow : pass.geometry.slidingWindow with
    | none =>
      rw [boundedChunk, hwindow] at h ⊢
      dsimp only at h ⊢
      split
      · rfl
      · rename_i hpos
        rw [if_neg hpos] at h
        cases h
    | some window =>
      have hspec := @windowBoundedChunk_spec pass request capacity start chunkLen window hpage
      rw [boundedChunk, hwindow] at h ⊢
      dsimp only at h ⊢
      generalize pass.windowBoundedChunk request start chunkLen window capacity = r at hspec h ⊢
      obtain ⟨answer, after⟩ := r
      cases answer with
      | error e' => exact hspec.refused e' rfl
      | ok n =>
        dsimp only at h ⊢
        split
        · rename_i hzero
          subst hzero
          have hcharge := hspec.charge 0 rfl
          have hframe := hspec.frame
          dsimp only at hcharge hframe ⊢
          rw [hframe, hcharge]
          simp
        · rename_i hpos
          rw [if_neg hpos] at h
          cases h

/-- What a chunk is, and what it charges. -/
structure Taken (pass : PrefillPass) (request : PendingRequest) (capacity : Capacity)
    (cachedLen : ℕ) (chunk : AdmittedChunk) (after : PrefillPass) : Prop where

  start : chunk.computedLen = startOf request cachedLen

  pos : 0 < chunk.chunkLen

  le : chunk.computedLen + chunk.chunkLen ≤ request.promptLen

  chunked : chunk.chunked = decide (chunk.computedLen + chunk.chunkLen < request.promptLen)

  admission : chunk.admission.isSome = request.chunk.isNone

  geometry : after.geometry = pass.geometry

  tokens : after.reservedTokens = pass.reservedTokens +
    if request.chunk.isNone then request.promptLen - chunk.computedLen + request.outputLen else 0

  charge : pass.geometry.slidingWindow.isSome → after.reservedSwa = pass.reservedSwa +
    (divCeil (chunk.computedLen + chunk.chunkLen) pass.geometry.pageSize -
      divCeil chunk.computedLen pass.geometry.pageSize) * pass.geometry.pageSize

  aligned : pass.geometry.slidingWindow.isSome → pass.geometry.pageSize ∣ chunk.computedLen →
    pass.geometry.pageSize ∣ chunk.computedLen + chunk.chunkLen ∨
      chunk.computedLen + chunk.chunkLen = request.promptLen

  within : ∀ window, pass.geometry.slidingWindow = some window →
    pass.geometry.pageSize ∣ chunk.computedLen →
    after.reservedSwa ≤ capacity.swaTokens +
      pass.selfReclaim request (startOf request cachedLen) window

theorem takeChunk_taken (hpage : 0 < pass.geometry.pageSize)
    (h : pass.takeChunk request cachedLen slot capacity = (.ok chunk, pass')) :
    Taken pass request capacity cachedLen chunk pass' := by
  unfold takeChunk at h
  split at h
  · cases h
  · rename_i hbudget
    dsimp only at h
    generalize hstart : startOf request cachedLen = start at h
    generalize hlen : min pass.tokenBudget (request.promptLen - start) = chunkLen at h
    cases hwindow : pass.geometry.slidingWindow with
    | none =>
      rw [boundedChunk, hwindow] at h
      dsimp only at h
      split at h
      · cases h
      · rename_i hpos
        cases h
        constructor
        case start => exact hstart.symm
        case pos => exact Nat.pos_of_ne_zero hpos
        case le =>
          dsimp only
          omega
        case chunked =>
          dsimp only
          congr 1
          apply propext
          omega
        case admission => cases request.chunk <;> rfl
        case geometry => rfl
        case tokens => rfl
        all_goals rw [hwindow]; nofun
    | some window =>
      have hspec := @windowBoundedChunk_spec pass request capacity start chunkLen window hpage
      rw [boundedChunk, hwindow] at h
      dsimp only at h
      generalize pass.windowBoundedChunk request start chunkLen window capacity = r at hspec h
      obtain ⟨answer, after⟩ := r
      cases answer with
      | error e' => cases h
      | ok n =>
        have hframe := hspec.frame
        have hle := hspec.le n rfl
        dsimp only at h hframe
        split at h
        · cases h
        · rename_i hpos
          have hpos := Nat.pos_of_ne_zero hpos
          cases h
          constructor
          case start => exact hstart.symm
          case pos => exact hpos
          case le =>
            dsimp only
            omega
          case chunked =>
            dsimp only
            congr 1
            apply propext
            omega
          case admission => cases request.chunk <;> rfl
          case geometry =>
            dsimp only
            rw [hframe]
          case tokens =>
            dsimp only
            rw [hframe]
          case charge => exact fun _ => hspec.charge n rfl
          case aligned =>
            intro _ hdvd
            refine (hspec.aligned n rfl hpos hdvd).imp_right fun hend => ?_
            dsimp only
            omega
          case within =>
            intro w hw hdvd
            rw [hwindow] at hw
            obtain rfl := Option.some.inj hw
            rw [hstart]
            exact hspec.within n rfl hpos hdvd

end PrefillPass

/-- The chunks follow each other from `lo` to `hi`, none of them empty. -/
def Tiles (lo : ℕ) : List Charge → ℕ → Prop
  | [], hi => lo = hi
  | c :: charges, hi => c.chunk.computedLen = lo ∧ 0 < c.chunk.chunkLen ∧
      Tiles (lo + c.chunk.chunkLen) charges hi

theorem Tiles.append {lo hi : ℕ} {charges : List Charge} (h : Tiles lo charges hi) {c : Charge}
    (hc : c.chunk.computedLen = hi) (hpos : 0 < c.chunk.chunkLen) :
    Tiles lo (charges ++ [c]) (hi + c.chunk.chunkLen) := by
  induction charges generalizing lo with
  | nil =>
    obtain rfl : lo = hi := h
    exact ⟨hc, hpos, rfl⟩
  | cons d charges ih =>
    obtain ⟨hd, hdpos, htiles⟩ := h
    exact ⟨hd, hdpos, ih htiles⟩

namespace Progress

variable {geometry : Geometry} {p : Progress}

/-- How far a prompt has got. -/
def reached (p : Progress) : ℕ := PrefillPass.startOf p.request p.cachedLen

/-- What holds of a prompt and its chunks between two calls. -/
structure Tiled (geometry : Geometry) (p : Progress) : Prop where

  tiles : Tiles p.cachedLen p.charges p.reached

  reached_le : p.reached ≤ p.request.promptLen

  cached_le : p.cachedLen ≤ p.reached

  first : p.request.chunk = none ↔ p.charges = []

  chunked : ∀ c ∈ p.charges, c.chunk.chunked =
    decide (c.chunk.computedLen + c.chunk.chunkLen < p.request.promptLen)

  tokens : (p.charges.map Charge.tokens).sum =
    if p.charges = [] then 0 else p.request.promptLen - p.cachedLen + p.request.outputLen

  once : ∀ c charges, p.charges = c :: charges →
    c.chunk.admission.isSome ∧ ∀ d ∈ charges, d.chunk.admission = none ∧ d.tokens = 0

  aligned : geometry.slidingWindow.isSome →
    geometry.pageSize ∣ p.reached ∨ p.reached = p.request.promptLen

  boundaries : geometry.slidingWindow.isSome → ∀ c ∈ p.charges, c.chunk.chunked = true →
    geometry.pageSize ∣ c.chunk.computedLen + c.chunk.chunkLen

  windows : geometry.slidingWindow.isSome → (p.charges.map Charge.window).sum =
    (divCeil p.reached geometry.pageSize - divCeil p.cachedLen geometry.pageSize) *
      geometry.pageSize

theorem Tiled.of_fresh (h : p.Fresh geometry) : p.Tiled geometry := by
  obtain ⟨hchunk, hcharges, hlt, hdvd⟩ := h
  have hreached : p.reached = p.cachedLen := by
    rw [reached, PrefillPass.startOf, hchunk]
    rfl
  constructor
  case tiles =>
    rw [hcharges, hreached]
    rfl
  case aligned =>
    rw [hreached]
    exact fun _ => .inl hdvd
  case first => exact iff_of_true hchunk hcharges
  all_goals simp [hcharges, hreached, hlt.le]

/-- The charge of a chunk, by what the pass had reserved before and has after. -/
def chargeOf (pass after : PrefillPass) (chunk : AdmittedChunk) : Charge :=
  ⟨chunk, after.reservedSwa - pass.reservedSwa, after.reservedTokens - pass.reservedTokens⟩

/-- One more chunk keeps the tiling. -/
theorem Tiled.take {pass after : PrefillPass} {capacity : Capacity} {chunk : AdmittedChunk}
    (h : p.Tiled pass.geometry)
    (htaken : pass.Taken p.request capacity p.cachedLen chunk after)
    (swaEvictedLen lockedPrefixLen : ℕ) :
    Tiled pass.geometry { p with
      request := p.request.advance chunk swaEvictedLen lockedPrefixLen
      charges := p.charges ++ [chargeOf pass after chunk] } := by
  have hstart : chunk.computedLen = p.reached := htaken.start
  have hpos := htaken.pos
  have hle := htaken.le
  have hcached := h.cached_le
  have hdvd : pass.geometry.slidingWindow.isSome → pass.geometry.pageSize ∣ chunk.computedLen := by
    intro hwindow
    rw [hstart]
    apply (h.aligned hwindow).resolve_right
    omega
  have hnew : p.request.chunk.isNone = decide (p.charges = []) := by
    cases hchunk : p.request.chunk with
    | none => simp [h.first.mp hchunk]
    | some st =>
      have hne : p.charges ≠ [] := by
        intro hnil
        rw [h.first.mpr hnil] at hchunk
        cases hchunk
      simp [hne]
  have htokens := htaken.tokens
  constructor
  case tiles =>
    have htiles := h.tiles.append (c := chargeOf pass after chunk) hstart hpos
    rw [← hstart] at htiles
    exact htiles
  case reached_le => exact hle
  case cached_le =>
    change p.cachedLen ≤ chunk.computedLen + chunk.chunkLen
    omega
  case first => exact iff_of_false nofun (by simp)
  case chunked =>
    intro c hc
    rcases List.mem_append.mp hc with hc | hc
    · exact h.chunked c hc
    · rw [List.mem_singleton.mp hc]
      exact htaken.chunked
  case tokens =>
    have hne : p.charges ++ [chargeOf pass after chunk] ≠ [] := by simp
    have hone : ([chargeOf pass after chunk].map Charge.tokens).sum =
        after.reservedTokens - pass.reservedTokens := List.sum_singleton
    rw [List.map_append, List.sum_append, h.tokens, if_neg hne, hone, htokens,
      Nat.add_sub_cancel_left, hnew]
    change _ = p.request.promptLen - p.cachedLen + p.request.outputLen
    by_cases hnil : p.charges = []
    · have hstart : chunk.computedLen = p.cachedLen := by
        rw [htaken.start, PrefillPass.startOf, h.first.mpr hnil]
        rfl
      rw [if_pos hnil, if_pos (decide_eq_true hnil), hstart, Nat.zero_add]
    · rw [if_neg hnil, if_neg (by simpa using hnil), Nat.add_zero]
  case once =>
    intro c charges hc
    have hadmission := htaken.admission
    rw [hnew] at hadmission htokens
    cases hcharges : p.charges with
    | nil =>
      rw [hcharges] at hc hadmission
      obtain ⟨rfl, rfl⟩ := List.cons.inj hc
      exact ⟨hadmission, nofun⟩
    | cons c' charges' =>
      rw [hcharges] at hc
      obtain ⟨rfl, rfl⟩ := List.cons.inj hc
      obtain ⟨hfirst, hrest⟩ := h.once _ _ hcharges
      have hne : ¬ p.charges = [] := by
        rw [hcharges]
        exact List.cons_ne_nil _ _
      rw [decide_eq_false hne] at hadmission htokens
      refine ⟨hfirst, fun d hd => ?_⟩
      rcases List.mem_append.mp hd with hd | hd
      · exact hrest d hd
      · obtain rfl := List.mem_singleton.mp hd
        constructor
        · change chunk.admission = none
          rw [← Option.not_isSome_iff_eq_none, hadmission]
          exact Bool.false_ne_true
        · change after.reservedTokens - pass.reservedTokens = 0
          rw [htokens]
          simp
  case aligned =>
    intro hwindow
    exact htaken.aligned hwindow (hdvd hwindow)
  case boundaries =>
    intro hwindow c hc hmore
    rcases List.mem_append.mp hc with hc | hc
    · exact h.boundaries hwindow c hc hmore
    · obtain rfl := List.mem_singleton.mp hc
      have hmore : chunk.chunked = true := hmore
      rw [htaken.chunked, decide_eq_true_iff] at hmore
      exact (htaken.aligned hwindow (hdvd hwindow)).resolve_right (by omega)
  case windows =>
    intro hwindow
    have hcharge := htaken.charge hwindow
    have hmono := divCeil_mono hcached pass.geometry.pageSize
    have hmono' := divCeil_mono (Nat.le_add_right chunk.computedLen chunk.chunkLen)
      pass.geometry.pageSize
    have hsum := h.windows hwindow
    rw [← hstart] at hmono hsum
    have hone : ([chargeOf pass after chunk].map Charge.window).sum =
        after.reservedSwa - pass.reservedSwa := List.sum_singleton
    rw [List.map_append, List.sum_append, hsum, hone, hcharge, Nat.add_sub_cancel_left, ← Nat.add_mul]
    change _ = (divCeil (chunk.computedLen + chunk.chunkLen) pass.geometry.pageSize -
      divCeil p.cachedLen pass.geometry.pageSize) * pass.geometry.pageSize
    congr 1
    omega

end Progress

namespace System

variable {geometry : Geometry} {s : System}

/-- What holds between two calls. -/
structure Kept (geometry : Geometry) (s : System) : Prop where

  geometry_eq : s.pass.geometry = geometry

  tiled : ∀ p ∈ s.prompts, p.Tiled geometry

  within : geometry.slidingWindow.isSome →
    ∃ r ∈ 0 :: s.reclaims, s.pass.reservedSwa ≤ s.capacity.swaTokens + r

theorem Kept.take (h : s.Kept geometry) (hpage : 0 < geometry.pageSize)
    (i slot swaEvictedLen lockedPrefixLen : ℕ) :
    (s.take i slot swaEvictedLen lockedPrefixLen).Kept geometry := by
  obtain ⟨rfl, htiled, hwithin⟩ := h
  unfold System.take
  split
  · exact ⟨rfl, htiled, hwithin⟩
  · rename_i p hp
    have hold := htiled p (List.mem_of_getElem? hp)
    split
    · rename_i e pass hrefused
      have hsame := @PrefillPass.takeChunk_refused s.pass p.request s.capacity p.cachedLen slot e
        hpage
      rw [hrefused] at hsame
      obtain rfl : pass = s.pass := hsame rfl
      exact ⟨rfl, htiled, hwithin⟩
    · rename_i chunk after htake
      have htaken := PrefillPass.takeChunk_taken hpage htake
      have hnew := hold.take htaken swaEvictedLen lockedPrefixLen
      constructor
      case geometry_eq => exact htaken.geometry
      case tiled =>
        intro q hq
        rcases List.mem_or_eq_of_mem_set hq with hq | rfl
        · exact htiled q hq
        · exact hnew
      case within =>
        intro hwindow
        obtain ⟨window, hw⟩ := Option.isSome_iff_exists.mp hwindow
        have hpos := htaken.pos
        have hle := htaken.le
        have hstart : chunk.computedLen = p.reached := htaken.start
        have hdvd : s.pass.geometry.pageSize ∣ chunk.computedLen := by
          rw [hstart]
          apply (hold.aligned hwindow).resolve_right
          omega
        refine ⟨s.reclaim p, by simp, ?_⟩
        rw [reclaim, hw]
        exact htaken.within window hw hdvd

theorem Kept.of_reachable (hpage : 0 < geometry.pageSize) (h : Reachable geometry s) :
    s.Kept geometry := by
  induction h with
  | start tokenBudget inflightTokens capacity prompts hfresh =>
    exact ⟨rfl, fun p hp => .of_fresh (hfresh p hp), fun _ => ⟨0, by simp, Nat.zero_le _⟩⟩
  | beginPass tokenBudget inflightTokens capacity _ ih =>
    obtain ⟨rfl, htiled, -⟩ := ih
    exact ⟨rfl, htiled, fun _ => ⟨0, by simp, Nat.zero_le _⟩⟩
  | take i slot swaEvictedLen lockedPrefixLen _ ih => exact ih.take hpage i slot _ _

end System

end Frink.Prefill
