import Frink.Sampling.ReasoningBudget

/-! # Blocks of thought

A run of the machine falls into blocks: tokens up to an opener, tokens that spend the
budget, tokens that complete a character, prompt tokens that cannot be forced, and the
forced closer. Openers and closers are read naively off the tokens since the machine last
started over.
-/

namespace Frink.Sampling

/-- A token that was accepted, and what the machine forced there. -/
structure Move where
  token : ℕ
  complete : Bool
  prompt : Bool
  forced : Option ℕ

abbrev tokens (moves : List Move) : List ℕ := moves.map Move.token

def Free (moves : List Move) : Prop := ∀ mv ∈ moves, mv.forced = none

instance (moves : List Move) : Decidable (Free moves) :=
  inferInstanceAs (Decidable (∀ mv ∈ moves, mv.forced = none))

structure Block where

  /-- Up to the opener. -/
  gap : List Move

  spent : List Move

  /-- Behind the last unit of the budget. -/
  tail : List Move

  ignored : List Move
  forcing : List Move

def Block.moves (b : Block) : List Move := b.gap ++ b.spent ++ b.tail ++ b.ignored ++ b.forcing

/-- The last token ends within a character. -/
def Cut (moves : List Move) : Prop := ∃ mv, moves.getLast? = some mv ∧ mv.complete = false

variable (plan : ReasoningBudgetPlan)

/-- The opener is the first since the machine was last outside a block. -/
def Opens (gap : List Move) : Prop := FirstEnd plan.startSeqs (tokens gap)

/-- The whole budget, and no closer in it. -/
def Spends (spent : List Move) : Prop :=
  Quiet plan.endSeqs (tokens spent) ∧ spent.length = plan.budget

/-- Tokens without a closer, up to the first that completes the character the budget ended in. -/
def Finishes (spent tail : List Move) : Prop :=
  tail = [] ∧ ¬ Cut spent ∨
    Cut spent ∧ Quiet plan.endSeqs (tokens tail) ∧ ∃ front last, tail = front ++ [last] ∧
      last.complete = true ∧ ∀ mv ∈ front, mv.complete = false

/-- Generated tokens, each of them forced. -/
def Forced (moves : List Move) : Prop := ∀ mv ∈ moves, mv.prompt = false ∧ mv.forced = some mv.token

inductive Closed : Block → Prop where

  | natural {gap spent : List Move} (opens : Opens plan gap)
      (closes : FirstEnd plan.endSeqs (tokens spent)) (within : spent.length ≤ plan.budget)
      (free : Free (gap ++ spent)) : Closed ⟨gap, spent, [], [], []⟩

  /-- The closer comes while a character is being completed. -/
  | late {gap spent tail : List Move} (opens : Opens plan gap) (spends : Spends plan spent)
      (cut : Cut spent) (closes : FirstEnd plan.endSeqs (tokens tail))
      (unfinished : ∀ mv ∈ tail.dropLast, mv.complete = false)
      (free : Free (gap ++ spent ++ tail)) : Closed ⟨gap, spent, tail, [], []⟩

  | forced {gap spent tail ignored forcing : List Move} (opens : Opens plan gap)
      (spends : Spends plan spent) (finishes : Finishes plan spent tail)
      (free : Free (gap ++ spent ++ tail)) (prompts : ∀ mv ∈ ignored, mv.prompt = true)
      (forces : Forced forcing) (whole : tokens forcing = plan.forced) :
      Closed ⟨gap, spent, tail, ignored, forcing⟩

/-- A block that has not ended, and what the machine does in it. -/
inductive Open (blocks : List Block) : Block → BudgetState → Option ℕ → Prop where

  | outside {gap : List Move} (quiet : Quiet plan.startSeqs (tokens gap)) (free : Free gap) :
      Open blocks ⟨gap, [], [], [], []⟩ (if blocks = [] then .idle else .done) none

  | counting {gap spent : List Move} (opens : Opens plan gap)
      (quiet : Quiet plan.endSeqs (tokens spent)) (within : spent.length < plan.budget)
      (free : Free (gap ++ spent)) : Open blocks ⟨gap, spent, [], [], []⟩ .counting none

  | waiting {gap spent tail : List Move} (opens : Opens plan gap) (spends : Spends plan spent)
      (cut : Cut spent) (quiet : Quiet plan.endSeqs (tokens tail))
      (unfinished : ∀ mv ∈ tail, mv.complete = false) (free : Free (gap ++ spent ++ tail)) :
      Open blocks ⟨gap, spent, tail, [], []⟩ .waitingUtf8 none

  | forcing {gap spent tail ignored forcing : List Move} (opens : Opens plan gap)
      (spends : Spends plan spent) (finishes : Finishes plan spent tail)
      (free : Free (gap ++ spent ++ tail)) (prompts : ∀ mv ∈ ignored, mv.prompt = true)
      (forces : Forced forcing) (part : tokens forcing = plan.forced.take forcing.length)
      (short : forcing.length < plan.forced.length) :
      Open blocks ⟨gap, spent, tail, ignored, forcing⟩ .forcing plan.forced[forcing.length]?

/-- The moves so far are blocks that have ended and one that has not. -/
def Divides (moves : List Move) (m : ReasoningBudget) : Prop :=
  ∃ blocks b, moves = blocks.flatMap Block.moves ++ b.moves ∧ (∀ c ∈ blocks, Closed plan c) ∧
    Open plan blocks b m.state m.forcedToken

/-- The moves of a machine that accepts tokens. -/
def trace (prompt : Bool) : ReasoningBudget → List (ℕ × Bool) → List Move
  | _, [] => []
  | m, (token, complete) :: rest =>
      ⟨token, complete, prompt, m.forcedToken⟩ :: trace prompt (m.accept token complete) rest

def acceptAll (m : ReasoningBudget) (calls : List (ℕ × Bool)) : ReasoningBudget :=
  calls.foldl (fun m call => m.accept call.1 call.2) m

def promptMoves : List Move := trace true (.unfed plan) (plan.prefill.map fun token => (token, true))

def generatedMoves (calls : List (ℕ × Bool)) : List Move := trace false (.new plan) calls

/-- Every generated token is the forced one where there is one. -/
def Obeys (calls : List (ℕ × Bool)) : Prop :=
  ∀ mv ∈ generatedMoves plan calls, mv.forced ≠ none → mv.forced = some mv.token

/-- No prompt token is the one that is being forced. -/
def Spares : Prop := ∀ mv ∈ promptMoves plan, mv.forced ≠ some mv.token

instance (calls : List (ℕ × Bool)) : Decidable (Obeys plan calls) :=
  inferInstanceAs (Decidable (∀ mv ∈ generatedMoves plan calls, _ → _))

instance : Decidable (Spares plan) := inferInstanceAs (Decidable (∀ mv ∈ promptMoves plan, _))

/-- How the machine's fields stand to the block that has not ended. -/
structure Fits (m : ReasoningBudget) (b : Block) : Prop where

  forced : m.forced = plan.forced
  budget : m.budget = plan.budget

  starts : m.startMatcher.Watches plan.startSeqs
    (if m.state = .idle ∨ m.state = .done then tokens b.gap else [])

  ends : ∃ since, m.endMatcher.Watches plan.endSeqs since ∧
    (m.state = .counting → since = tokens b.spent) ∧ (m.state = .waitingUtf8 → since = tokens b.tail)

  remaining : m.state = .counting → m.remaining + b.spent.length = plan.budget
  pos : m.state = .forcing → m.forcePos = b.forcing.length

def emptyBlock : Block := ⟨[], [], [], [], []⟩

/-- One more move leaves the block open or ends it. -/
def After (blocks : List Block) (b : Block) (mv : Move) (m : ReasoningBudget) : Prop :=
  (∃ b', b'.moves = b.moves ++ [mv] ∧ Open plan blocks b' m.state m.forcedToken ∧ Fits plan m b') ∨
    ∃ c, c.moves = b.moves ++ [mv] ∧ Closed plan c ∧ m.state = .done ∧ Fits plan m emptyBlock

section Steps

variable {plan} {m : ReasoningBudget} {blocks : List Block} {gap spent tail ignored forcing : List Move}
  {token : ℕ} {complete prompt : Bool} {mv : Move} {since : List ℕ}

theorem forcedToken_of_ne (h : m.state ≠ .forcing) : m.forcedToken = none := by
  unfold ReasoningBudget.forcedToken
  split
  · rename_i hforcing
    exact absurd hforcing h
  · rfl

theorem forcedToken_of_forcing (h : m.state = .forcing) : m.forcedToken = m.forced[m.forcePos]? := by
  unfold ReasoningBudget.forcedToken
  rw [h]

theorem Free.append {front back : List Move} (h : Free front) (h' : Free back) :
    Free (front ++ back) := by
  intro mv hmv
  rcases List.mem_append.mp hmv with hmv | hmv
  · exact h mv hmv
  · exact h' mv hmv

theorem free_singleton (h : mv.forced = none) : Free [mv] := by
  intro mv' hmv
  rw [List.mem_singleton.mp hmv]
  exact h

theorem cut_concat {moves : List Move} : Cut (moves ++ [mv]) ↔ mv.complete = false := by
  simp [Cut]

theorem not_cut_nil : ¬ Cut [] := by
  rintro ⟨mv, h, -⟩
  cases h

theorem open_of_forcing {n : ℕ} {b : Block} (hstate : m.state = .forcing)
    (hforced : m.forced = plan.forced) (hpos : m.forcePos = n)
    (hopen : Open plan blocks b .forcing plan.forced[n]?) :
    Open plan blocks b m.state m.forcedToken := by
  rwa [forcedToken_of_forcing hstate, hstate, hpos, hforced]

/-- What is forced once the budget is spent and the character is whole. -/
theorem open_forcing (hstate : m.state = .forcing) (hpos : m.forcePos = 0)
    (hforced : m.forced = plan.forced) (hne : plan.forced ≠ []) (opens : Opens plan gap)
    (spends : Spends plan spent) (finishes : Finishes plan spent tail)
    (free : Free (gap ++ spent ++ tail)) :
    Open plan blocks ⟨gap, spent, tail, [], []⟩ m.state m.forcedToken := by
  apply open_of_forcing hstate hforced hpos
  exact .forcing opens spends finishes free nofun nofun rfl (List.length_pos_of_ne_nil hne)

theorem after_outside (hne : plan.forced ≠ []) (quiet : Quiet plan.startSeqs (tokens gap))
    (free : Free gap) (hstate : m.state = if blocks = [] then .idle else .done)
    (hfits : Fits plan m ⟨gap, [], [], [], []⟩) (hmv : mv.forced = none) :
    After plan blocks ⟨gap, [], [], [], []⟩ mv (m.accept mv.token mv.complete) := by
  have hout : m.state = .idle ∨ m.state = .done := by
    rw [hstate]
    split
    · exact .inl rfl
    · exact .inr rfl
  obtain ⟨since, hends, -, -⟩ := hfits.ends
  have hstarts := hfits.starts
  rw [if_pos hout] at hstarts
  obtain ⟨hhit, hwatch⟩ := hstarts.advance mv.token
  have haccept : m.accept mv.token mv.complete =
      if (m.startMatcher.advance mv.token).1.isSome = true then
        { m with startMatcher := (m.startMatcher.advance mv.token).2 }.arm
      else { m with startMatcher := (m.startMatcher.advance mv.token).2 } := by
    unfold ReasoningBudget.accept
    rcases hout with h | h <;> rw [h]
  have hfree : Free (gap ++ [mv]) := free.append (free_singleton hmv)
  have htokens : tokens gap ++ [mv.token] = tokens (gap ++ [mv]) := by simp
  left
  rw [haccept]
  by_cases hopen : (m.startMatcher.advance mv.token).1.isSome = true
  · rw [if_pos hopen] at hwatch ⊢
    have hopens : Opens plan (gap ++ [mv]) := by
      unfold Opens
      rw [← htokens]
      exact quiet.first (hhit.mp hopen)
    refine ⟨⟨gap ++ [mv], [], [], [], []⟩, by simp [Block.moves], ?_⟩
    unfold ReasoningBudget.arm
    dsimp only
    split
    · rename_i hzero
      have hspends : Spends plan [] := ⟨quiet_nil _, by rw [← hfits.budget, hzero]; rfl⟩
      constructor
      · exact open_forcing rfl rfl hfits.forced hne hopens hspends (.inl ⟨rfl, not_cut_nil⟩)
          (by simpa using hfree)
      · exact ⟨hfits.forced, hfits.budget, hwatch, ⟨[], hends.reset, nofun, nofun⟩, nofun,
          fun _ => rfl⟩
    · rename_i hpos
      constructor
      · refine .counting hopens (quiet_nil _) ?_ (by simpa using hfree)
        rw [← hfits.budget]
        exact Nat.pos_of_ne_zero hpos
      · exact ⟨hfits.forced, hfits.budget, hwatch, ⟨[], hends.reset, fun _ => rfl, nofun⟩,
          fun _ => hfits.budget, nofun⟩
  · rw [if_neg hopen] at hwatch ⊢
    rw [htokens] at hwatch
    refine ⟨⟨gap ++ [mv], [], [], [], []⟩, by simp [Block.moves], ?_, ?_⟩
    · have hquiet : Quiet plan.startSeqs (tokens (gap ++ [mv])) := by
        rw [← htokens]
        exact quiet.concat (mt hhit.mpr hopen)
      have hnone : ReasoningBudget.forcedToken
          { m with startMatcher := (m.startMatcher.advance mv.token).2 } = none := by
        apply forcedToken_of_ne
        dsimp only
        rcases hout with h | h <;> rw [h] <;> nofun
      rw [hnone]
      dsimp only
      rw [hstate]
      exact .outside hquiet hfree
    · constructor
      · exact hfits.forced
      · exact hfits.budget
      · dsimp only
        rw [if_pos hout]
        exact hwatch
      · refine ⟨since, hends, ?_, ?_⟩ <;> rcases hout with h | h <;> simp [h]
      · rcases hout with h | h <;> simp [h]
      · rcases hout with h | h <;> simp [h]

/-- A machine that is done fits a block in which nothing has been read. -/
theorem fits_done {b : Block} (hfits : Fits plan m b) (hinside : ¬ (m.state = .idle ∨ m.state = .done))
    {endMatcher : SeqMatcher} (hends : endMatcher.Watches plan.endSeqs since) (pos remaining : ℕ) :
    Fits plan { m with endMatcher, remaining, state := .done, forcePos := pos } emptyBlock := by
  have hstarts := hfits.starts
  rw [if_neg hinside] at hstarts
  exact ⟨hfits.forced, hfits.budget, hstarts, ⟨since, hends, nofun, nofun⟩, nofun, nofun⟩

theorem after_counting (hne : plan.forced ≠ []) (opens : Opens plan gap)
    (quiet : Quiet plan.endSeqs (tokens spent)) (within : spent.length < plan.budget)
    (free : Free (gap ++ spent)) (hstate : m.state = .counting)
    (hfits : Fits plan m ⟨gap, spent, [], [], []⟩) (hmv : mv.forced = none) :
    After plan blocks ⟨gap, spent, [], [], []⟩ mv (m.accept mv.token mv.complete) := by
  obtain ⟨since, hends, hsince, -⟩ := hfits.ends
  obtain rfl := hsince hstate
  obtain ⟨hhit, hwatch⟩ := hends.advance mv.token
  have hinside : ¬ (m.state = .idle ∨ m.state = .done) := by rw [hstate]; nofun
  have hstarts := hfits.starts
  rw [if_neg hinside] at hstarts
  have hremaining := hfits.remaining hstate
  dsimp only at hremaining
  have hfree : Free (gap ++ (spent ++ [mv])) := by
    rw [← List.append_assoc]
    exact free.append (free_singleton hmv)
  have htokens : tokens spent ++ [mv.token] = tokens (spent ++ [mv]) := by simp
  have haccept : m.accept mv.token mv.complete = m.acceptInside mv.token mv.complete := by
    unfold ReasoningBudget.accept
    rw [hstate]
  rw [haccept]
  unfold ReasoningBudget.acceptInside
  by_cases hclose : (m.endMatcher.advance mv.token).1.isSome = true
  · right
    dsimp only
    rw [if_pos hclose]
    rw [if_pos hclose] at hwatch
    refine ⟨⟨gap, spent ++ [mv], [], [], []⟩, by simp [Block.moves], ?_, rfl, ?_⟩
    · refine .natural opens ?_ ?_ hfree
      · rw [← htokens]
        exact quiet.first (hhit.mp hclose)
      · rw [List.length_append]
        exact within
    · exact fits_done hfits hinside hwatch m.forcePos m.remaining
  · left
    dsimp only
    rw [if_neg hclose, hstate, if_neg nofun]
    rw [if_neg hclose, htokens] at hwatch
    have hquiet : Quiet plan.endSeqs (tokens (spent ++ [mv])) := by
      rw [← htokens]
      exact quiet.concat (mt hhit.mpr hclose)
    refine ⟨⟨gap, spent ++ [mv], [], [], []⟩, by simp [Block.moves], ?_⟩
    have hlength : (spent ++ [mv]).length = spent.length + 1 := by simp
    by_cases hzero : m.remaining - 1 = 0
    · rw [if_pos hzero]
      have hspends : Spends plan (spent ++ [mv]) := ⟨hquiet, by omega⟩
      by_cases hwhole : mv.complete = true
      · rw [if_pos hwhole]
        have hnot : ¬ Cut (spent ++ [mv]) := by rw [cut_concat, hwhole]; nofun
        constructor
        · exact open_forcing rfl rfl hfits.forced hne opens hspends (.inl ⟨rfl, hnot⟩)
            (by simpa using hfree)
        · exact ⟨hfits.forced, hfits.budget, hstarts, ⟨[], hwatch.reset, nofun, nofun⟩, nofun,
            fun _ => rfl⟩
      · rw [if_neg hwhole]
        constructor
        · exact .waiting opens hspends (cut_concat.mpr (by simpa using hwhole)) (quiet_nil _) nofun
            (by simpa using hfree)
        · exact ⟨hfits.forced, hfits.budget, hstarts, ⟨[], hwatch.reset, nofun, fun _ => rfl⟩,
            nofun, nofun⟩
    · rw [if_neg hzero]
      constructor
      · exact .counting opens hquiet (by omega) hfree
      · refine ⟨hfits.forced, hfits.budget, hstarts, ⟨_, hwatch, fun _ => rfl, nofun⟩, ?_, nofun⟩
        intro _
        dsimp only
        omega

theorem after_waiting (hne : plan.forced ≠ []) (opens : Opens plan gap) (spends : Spends plan spent)
    (cut : Cut spent) (quiet : Quiet plan.endSeqs (tokens tail))
    (unfinished : ∀ mv ∈ tail, mv.complete = false) (free : Free (gap ++ spent ++ tail))
    (hstate : m.state = .waitingUtf8) (hfits : Fits plan m ⟨gap, spent, tail, [], []⟩)
    (hmv : mv.forced = none) :
    After plan blocks ⟨gap, spent, tail, [], []⟩ mv (m.accept mv.token mv.complete) := by
  obtain ⟨since, hends, -, hsince⟩ := hfits.ends
  obtain rfl := hsince hstate
  obtain ⟨hhit, hwatch⟩ := hends.advance mv.token
  have hinside : ¬ (m.state = .idle ∨ m.state = .done) := by rw [hstate]; nofun
  have hstarts := hfits.starts
  rw [if_neg hinside] at hstarts
  have hfree : Free (gap ++ spent ++ (tail ++ [mv])) := by
    rw [← List.append_assoc]
    exact free.append (free_singleton hmv)
  have htokens : tokens tail ++ [mv.token] = tokens (tail ++ [mv]) := by simp
  have haccept : m.accept mv.token mv.complete = m.acceptInside mv.token mv.complete := by
    unfold ReasoningBudget.accept
    rw [hstate]
  rw [haccept]
  unfold ReasoningBudget.acceptInside
  by_cases hclose : (m.endMatcher.advance mv.token).1.isSome = true
  · right
    dsimp only
    rw [if_pos hclose]
    rw [if_pos hclose] at hwatch
    refine ⟨⟨gap, spent, tail ++ [mv], [], []⟩, by simp [Block.moves], ?_, rfl, ?_⟩
    · refine .late opens spends cut ?_ (by simpa using unfinished) hfree
      rw [← htokens]
      exact quiet.first (hhit.mp hclose)
    · exact fits_done hfits hinside hwatch m.forcePos m.remaining
  · left
    dsimp only
    rw [if_neg hclose, if_pos hstate]
    rw [if_neg hclose, htokens] at hwatch
    have hquiet : Quiet plan.endSeqs (tokens (tail ++ [mv])) := by
      rw [← htokens]
      exact quiet.concat (mt hhit.mpr hclose)
    refine ⟨⟨gap, spent, tail ++ [mv], [], []⟩, by simp [Block.moves], ?_⟩
    by_cases hwhole : mv.complete = true
    · rw [if_pos hwhole]
      have hfinishes : Finishes plan spent (tail ++ [mv]) :=
        .inr ⟨cut, hquiet, tail, mv, rfl, hwhole, unfinished⟩
      constructor
      · exact open_forcing rfl rfl hfits.forced hne opens spends hfinishes hfree
      · exact ⟨hfits.forced, hfits.budget, hstarts, ⟨[], hwatch.reset, nofun, nofun⟩, nofun,
          fun _ => rfl⟩
    · rw [if_neg hwhole]
      constructor
      · have hopen : Open plan blocks ⟨gap, spent, tail ++ [mv], [], []⟩ .waitingUtf8 none := by
          refine .waiting opens spends cut hquiet ?_ hfree
          intro mv' hmem
          rcases List.mem_append.mp hmem with hmem | hmem
          · exact unfinished mv' hmem
          · rw [List.mem_singleton.mp hmem]
            simpa using hwhole
        rw [forcedToken_of_ne (by dsimp only; rw [hstate]; nofun)]
        dsimp only
        rwa [hstate]
      · refine ⟨hfits.forced, hfits.budget, ?_, ⟨_, hwatch, ?_, fun _ => rfl⟩, ?_, ?_⟩
        · rw [if_neg hinside]
          exact hstarts
        · simp [hstate]
        · simp [hstate]
        · simp [hstate]

theorem after_forcing (opens : Opens plan gap) (spends : Spends plan spent)
    (finishes : Finishes plan spent tail) (free : Free (gap ++ spent ++ tail))
    (prompts : ∀ mv ∈ ignored, mv.prompt = true) (forces : Forced forcing)
    (part : tokens forcing = plan.forced.take forcing.length)
    (short : forcing.length < plan.forced.length) (hstate : m.state = .forcing)
    (hfits : Fits plan m ⟨gap, spent, tail, ignored, forcing⟩)
    (hmv : mv.forced = plan.forced[forcing.length]?)
    (hprompt : mv.prompt = true → mv.forced ≠ some mv.token ∧ forcing = [])
    (hobeys : mv.prompt = false → mv.forced ≠ none → mv.forced = some mv.token) :
    After plan blocks ⟨gap, spent, tail, ignored, forcing⟩ mv
      (m.accept mv.token mv.complete) := by
  obtain ⟨since, hends, -, -⟩ := hfits.ends
  obtain ⟨-, hwatch⟩ := hends.advance mv.token
  have hinside : ¬ (m.state = .idle ∨ m.state = .done) := by rw [hstate]; nofun
  have hstarts := hfits.starts
  rw [if_neg hinside] at hstarts
  have hpos : m.forcePos = forcing.length := hfits.pos hstate
  have haccept : m.accept mv.token mv.complete = m.acceptForcing mv.token := by
    unfold ReasoningBudget.accept
    rw [hstate]
  rw [haccept]
  unfold ReasoningBudget.acceptForcing
  dsimp only
  rw [hfits.forced, hpos, ← hmv]
  cases hkind : mv.prompt with
  | true =>
    obtain ⟨hother, rfl⟩ := hprompt hkind
    left
    have hpending : ¬ plan.forced.length ≤ 0 := Nat.not_le.mpr short
    rw [if_neg hother, if_neg hpending]
    refine ⟨⟨gap, spent, tail, ignored ++ [mv], []⟩, by simp [Block.moves], ?_, ?_⟩
    · have hopen : Open plan blocks ⟨gap, spent, tail, ignored ++ [mv], []⟩ .forcing
          plan.forced[([] : List Move).length]? := by
        refine .forcing opens spends finishes free ?_ forces part short
        intro mv' hmem
        rcases List.mem_append.mp hmem with hmem | hmem
        · exact prompts mv' hmem
        · rwa [List.mem_singleton.mp hmem]
      exact open_of_forcing hstate rfl rfl hopen
    · refine ⟨rfl, hfits.budget, ?_, ⟨_, hwatch, ?_, ?_⟩, ?_, fun _ => rfl⟩
      · rw [if_neg hinside]
        exact hstarts
      · simp [hstate]
      · simp [hstate]
      · simp [hstate]
  | false =>
    obtain ⟨t, ht⟩ : ∃ t, plan.forced[forcing.length]? = some t :=
      ⟨_, List.getElem?_eq_getElem short⟩
    rw [ht] at hmv
    have hforced : mv.forced = some mv.token := hobeys hkind (by rw [hmv]; nofun)
    have htoken : t = mv.token := by simpa [hmv] using hforced
    have hforces : Forced (forcing ++ [mv]) := by
      intro mv' hmem
      rcases List.mem_append.mp hmem with hmem | hmem
      · exact forces mv' hmem
      · rw [List.mem_singleton.mp hmem]
        exact ⟨hkind, hforced⟩
    have hpart : tokens (forcing ++ [mv]) = plan.forced.take (forcing ++ [mv]).length := by
      rw [List.length_append, List.length_singleton, List.take_add_one, ht, ← part, htoken]
      simp
    have hlength : (forcing ++ [mv]).length = forcing.length + 1 := by simp
    rw [if_pos hforced]
    by_cases hlast : plan.forced.length ≤ forcing.length + 1
    · right
      rw [if_pos hlast]
      refine ⟨⟨gap, spent, tail, ignored, forcing ++ [mv]⟩, by simp [Block.moves], ?_, rfl, ?_⟩
      · refine .forced opens spends finishes free prompts hforces ?_
        rw [hpart, List.take_of_length_le (by omega)]
      · have hdone := fits_done hfits hinside hwatch (forcing.length + 1) m.remaining
        rw [hfits.forced] at hdone
        exact hdone
    · left
      rw [if_neg hlast]
      refine ⟨⟨gap, spent, tail, ignored, forcing ++ [mv]⟩, by simp [Block.moves], ?_, ?_⟩
      · have hopen : Open plan blocks ⟨gap, spent, tail, ignored, forcing ++ [mv]⟩ .forcing
            plan.forced[(forcing ++ [mv]).length]? :=
          .forcing opens spends finishes free prompts hforces hpart (by omega)
        exact open_of_forcing hstate rfl hlength.symm hopen
      · refine ⟨rfl, hfits.budget, ?_, ⟨_, hwatch, ?_, ?_⟩, ?_, fun _ => hlength.symm⟩
        · rw [if_neg hinside]
          exact hstarts
        · simp [hstate]
        · simp [hstate]
        · simp [hstate]

end Steps

/-- The moves divide into blocks, and the machine fits the last. -/
def Tracks (moves : List Move) (m : ReasoningBudget) : Prop :=
  ∃ blocks b, moves = blocks.flatMap Block.moves ++ b.moves ∧ (∀ c ∈ blocks, Closed plan c) ∧
    Open plan blocks b m.state m.forcedToken ∧ Fits plan m b

section Runs

variable {plan} {m : ReasoningBudget} {moves : List Move} {mv : Move}

theorem tracks_unfed (plan : ReasoningBudgetPlan) : Tracks plan [] (.unfed plan) := by
  refine ⟨[], emptyBlock, rfl, nofun, .outside (quiet_nil _) nofun, rfl, rfl, ?_, ?_, nofun, nofun⟩
  · exact watches_new plan.startSeqs
  · exact ⟨[], watches_new plan.endSeqs, nofun, nofun⟩

theorem Tracks.step (h : Tracks plan moves m) (hne : plan.forced ≠ []) (mv : Move)
    (hmv : mv.forced = m.forcedToken)
    (hprompt : mv.prompt = true → mv.forced ≠ some mv.token ∧ ∀ mv' ∈ moves, mv'.prompt = true)
    (hobeys : mv.prompt = false → mv.forced ≠ none → mv.forced = some mv.token) :
    Tracks plan (moves ++ [mv]) (m.accept mv.token mv.complete) := by
  obtain ⟨blocks, b, rfl, hclosed, hopen, hfits⟩ := h
  have hafter : After plan blocks b mv (m.accept mv.token mv.complete) := by
    generalize hstate : m.state = state at hopen
    generalize htoken : m.forcedToken = token at hopen
    rw [htoken] at hmv
    cases hopen with
    | outside quiet free => exact after_outside hne quiet free hstate hfits hmv
    | counting opens quiet within free =>
      exact after_counting hne opens quiet within free hstate hfits hmv
    | waiting opens spends cut quiet unfinished free =>
      exact after_waiting hne opens spends cut quiet unfinished free hstate hfits hmv
    | @forcing _ _ _ _ forcing opens spends finishes free prompts forces part short =>
      apply after_forcing opens spends finishes free prompts forces part short hstate hfits hmv
        ?_ hobeys
      intro hkind
      obtain ⟨hother, hall⟩ := hprompt hkind
      use hother
      apply List.eq_nil_iff_forall_not_mem.mpr
      intro mv' hmem
      have hgen := (forces mv' hmem).1
      rw [hall mv' (by simp [Block.moves, hmem])] at hgen
      cases hgen
  rcases hafter with ⟨b', hmoves, hopen', hfits'⟩ | ⟨c, hmoves, hc, hdone, hfits'⟩
  · exact ⟨blocks, b', by rw [hmoves, List.append_assoc], hclosed, hopen', hfits'⟩
  · refine ⟨blocks ++ [c], emptyBlock, ?_, ?_, ?_, hfits'⟩
    · have hempty : emptyBlock.moves = [] := rfl
      rw [List.flatMap_append, List.flatMap_singleton, hmoves, hempty, List.append_assoc,
        List.append_nil]
    · intro d hd
      rcases List.mem_append.mp hd with hd | hd
      · exact hclosed d hd
      · rwa [List.mem_singleton.mp hd]
    · have houtside : Open plan (blocks ++ [c]) emptyBlock
          (if blocks ++ [c] = [] then .idle else .done) none := .outside (quiet_nil _) nofun
      rw [if_neg (by simp)] at houtside
      rwa [forcedToken_of_ne (by rw [hdone]; nofun), hdone]

theorem Tracks.prompt (h : Tracks plan moves m) (hne : plan.forced ≠ [])
    (hall : ∀ mv ∈ moves, mv.prompt = true) (calls : List (ℕ × Bool))
    (hspares : ∀ mv ∈ trace true m calls, mv.forced ≠ some mv.token) :
    Tracks plan (moves ++ trace true m calls) (acceptAll m calls) := by
  induction calls generalizing moves m with
  | nil => simpa [trace, acceptAll] using h
  | cons call calls ih =>
    obtain ⟨token, complete⟩ := call
    obtain ⟨hfirst, hrest⟩ := List.forall_mem_cons.mp hspares
    have hstep := h.step hne ⟨token, complete, true, m.forcedToken⟩ rfl
      (fun _ => ⟨hfirst, hall⟩) nofun
    have hall' : ∀ mv ∈ moves ++ [⟨token, complete, true, m.forcedToken⟩], mv.prompt = true := by
      intro mv hmv
      rcases List.mem_append.mp hmv with hmv | hmv
      · exact hall mv hmv
      · rw [List.mem_singleton.mp hmv]
    have hdone := ih hstep hall' hrest
    rwa [List.append_assoc] at hdone

theorem Tracks.generated (h : Tracks plan moves m) (hne : plan.forced ≠ [])
    (calls : List (ℕ × Bool))
    (hobeys : ∀ mv ∈ trace false m calls, mv.forced ≠ none → mv.forced = some mv.token) :
    Tracks plan (moves ++ trace false m calls) (acceptAll m calls) := by
  induction calls generalizing moves m with
  | nil => simpa [trace, acceptAll] using h
  | cons call calls ih =>
    obtain ⟨token, complete⟩ := call
    obtain ⟨hfirst, hrest⟩ := List.forall_mem_cons.mp hobeys
    have hstep := h.step hne ⟨token, complete, false, m.forcedToken⟩ rfl nofun
      (fun _ => hfirst)
    have hdone := ih hstep hrest
    rwa [List.append_assoc] at hdone

theorem new_eq_acceptAll (plan : ReasoningBudgetPlan) :
    ReasoningBudget.new plan =
      acceptAll (.unfed plan) (plan.prefill.map fun token => (token, true)) := by
  rw [acceptAll, List.foldl_map]
  rfl

end Runs

/-- However the prompt and the generated tokens go, they divide into blocks of which each spends
the budget at most, completes a character and is forced to its closer, or is closed by the
model. -/
theorem budget_divides (plan : ReasoningBudgetPlan) (calls : List (ℕ × Bool))
    (hne : plan.forced ≠ []) (hspares : Spares plan) (hobeys : Obeys plan calls) :
    Divides plan (promptMoves plan ++ generatedMoves plan calls) (acceptAll (.new plan) calls) := by
  have hprompt := (tracks_unfed plan).prompt hne nofun _ hspares
  rw [List.nil_append, ← new_eq_acceptAll] at hprompt
  obtain ⟨blocks, b, hmoves, hclosed, hopen, -⟩ := hprompt.generated hne calls hobeys
  exact ⟨blocks, b, hmoves, hclosed, hopen⟩

def onePlan : ReasoningBudgetPlan := ⟨[[9]], [[5], [1, 2]], [5], 1, []⟩

theorem budget_divides_one :
    Divides onePlan (promptMoves onePlan ++ generatedMoves onePlan [(9, true), (3, true), (5, true)])
      (acceptAll (.new onePlan) [(9, true), (3, true), (5, true)]) :=
  budget_divides onePlan _ (by decide) (by decide) (by decide)

/-- A closer that begins with the last token of the budget is missed when that token ends within
a character; prompt tokens behind the opener go unforced past the budget; and one that equals the
forced closer is taken for it. -/
theorem budget_divides_straddles :
    (¬ ∀ (plan : ReasoningBudgetPlan) (front block : List (ℕ × Bool)), plan.forced ≠ [] →
      Free (generatedMoves plan (front ++ block)) →
      FirstEnd plan.startSeqs (front.map Prod.fst) → FirstEnd plan.endSeqs (block.map Prod.fst) →
      (acceptAll (.new plan) (front ++ block)).state = .done) ∧
    (¬ ∀ (plan : ReasoningBudgetPlan) (front block : List ℕ), plan.forced ≠ [] →
      plan.prefill = front ++ block → FirstEnd plan.startSeqs front →
      (ReasoningBudget.new plan).forcedToken = plan.forced.head? → block.length ≤ plan.budget) ∧
    ¬ ∀ (plan : ReasoningBudgetPlan) (front block : List ℕ), plan.forced ≠ [] →
      plan.prefill = front ++ block → FirstEnd plan.startSeqs front → plan.budget = 0 →
      (ReasoningBudget.new plan).forcedToken = plan.forced.head? := by
  refine ⟨?_, ?_, ?_⟩
  · intro h
    have := h onePlan [(9, true)] [(1, false), (2, true)] (by decide) (by decide) (by decide)
      (by decide)
    revert this
    decide
  · intro h
    have := h ⟨[[9]], [[5]], [5], 0, [9, 7]⟩ [9] [7] (by decide) rfl (by decide) (by decide)
    revert this
    decide
  · intro h
    have := h ⟨[[9]], [[5]], [5], 0, [9, 5]⟩ [9] [5] (by decide) rfl (by decide) rfl
    revert this
    decide

end Frink.Sampling
