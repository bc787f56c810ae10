import Etherfold.Fetch.SubRange

/-!
# Fetching a complete range

An answer of exactly the cap looks like a range that holds that many logs, so it
is not believed: the range is halved and fetched again, until the answer comes
back under the count.

* `LogFetcher.suspectResultCount`, `LogFetcher.fetchCompleteRange`: the code.
* `fetchCompleteRange_ok`: **what is returned was answered under the count.**
* `fetchCompleteRange_ends`: the loop ends where no call reaches past its range.
* `complete_range`: **a suspiciously full answer is never taken for complete.**
-/

namespace Etherfold

variable {L : Type}

/-- Where the suspect count comes from. -/
inductive SuspectSource where
  | configured
  | reported
  | default
  deriving DecidableEq, Repr

/-- Why no range was returned. -/
inductive IncompleteRange where
  | fetch (failure : FetchFailure)
  | noFetchProgress (fromBlock toBlockUsed : ℤ)
  | suspectedTruncation (fromBlock : ℤ) (count : ℕ) (source : SuspectSource)
  deriving DecidableEq, Repr

/-- What a log fetcher is built with, and how a provider's error says that it must not be retried. -/
structure LogFetcher where
  configuredSuspectResultCount : Option ℤ
  defaultSuspectResultCount : ℤ
  attempts : ℕ
  retryable : Refusal → Bool

namespace LogFetcher

/-- **The count in force**: configured, else reported by the provider, else the default. -/
def suspectResultCount (l : LogFetcher) (f : RangeLogFetcher) : ℤ × SuspectSource :=
  match l.configuredSuspectResultCount with
  | some count => (count, .configured)
  | none =>
    match f.lowestReportedResultCap with
    | some reported => (reported, .reported)
    | none => (l.defaultSuspectResultCount, .default)

/-- An archive refusal is final; a provider's error says itself whether it is. -/
def isRetryable (l : LogFetcher) : FetchFailure → Bool
  | .archiveRefused _ _ => false
  | .refused refusal => l.retryable refusal

/-- One fetch under the retry policy. The provider may answer each call differently. -/
def withRetries (l : LogFetcher) (ask : ℕ → ℕ → ℤ → ℤ → Except Refusal (List L)) (fromBlock toBlock : ℤ) :
    ℕ → ℕ → RangeLogFetcher → ℕ × RangeLogFetcher × Except FetchFailure (List L × ℤ)
  | left, call, f =>
    match f.getLogs (ask call) f.config.numRetry fromBlock toBlock with
    | (f, .ok answer) => (call + 1, f, .ok answer)
    | (f, .error failure) =>
      match left with
      | 0 => (call + 1, f, .error failure)
      | left + 1 =>
        if l.isRetryable failure then withRetries l ask fromBlock toBlock left (call + 1) f
        else (call + 1, f, .error failure)

/-- **The logs of a range, complete**: at most `fuel` fetches of it. -/
def fetchCompleteRange (l : LogFetcher) (ask : ℕ → ℕ → ℤ → ℤ → Except Refusal (List L)) (fromBlock : ℤ) :
    ℕ → ℕ → RangeLogFetcher → ℤ → Option (RangeLogFetcher × Except IncompleteRange (List L × ℤ))
  | 0, _, _, _ => none
  | fuel + 1, call, f, requestedToBlock =>
    match l.withRetries ask fromBlock requestedToBlock (l.attempts - 1) call f with
    | (_, f, .error failure) => some (f, .error (.fetch failure))
    | (call, f, .ok (events, toBlockUsed)) =>
      if toBlockUsed < fromBlock then some (f, .error (.noFetchProgress fromBlock toBlockUsed))
      else if events.length < (l.suspectResultCount f).1 then some (f, .ok (events, toBlockUsed))
      else if toBlockUsed ≤ fromBlock then
        some (f, .error (.suspectedTruncation fromBlock events.length (l.suspectResultCount f).2))
      else fetchCompleteRange l ask fromBlock fuel call f (fromBlock + (toBlockUsed - fromBlock) / 2)

variable {l : LogFetcher} {ask : ℕ → ℕ → ℤ → ℤ → Except Refusal (List L)} {f f' : RangeLogFetcher}
  {good : RangeLogFetcher → Prop} {fromBlock toBlock toBlockUsed requestedToBlock : ℤ} {left call fuel : ℕ}
  {events : List L}

/-! ### One fetch -/

/-- What each call keeps and answers is kept and answered under the retry policy. -/
theorem withRetries_spec {answers : List L → ℤ → Prop}
    (hkeep : ∀ n f, good f → good (f.getLogs (ask n) f.config.numRetry fromBlock toBlock).1)
    (hok : ∀ n f, good f → ∀ events used, (f.getLogs (ask n) f.config.numRetry fromBlock toBlock).2 = .ok (events, used) →
      answers events used)
    (hgood : good f) : good (l.withRetries ask fromBlock toBlock left call f).2.1 ∧
      ∀ events used, (l.withRetries ask fromBlock toBlock left call f).2.2 = .ok (events, used) → answers events used := by
  induction left generalizing call f with
  | zero =>
    have hk := hkeep call f hgood
    have ha := hok call f hgood
    unfold withRetries
    split
    · rename_i hget
      rw [hget] at hk ha
      exact ⟨hk, ha⟩
    · rename_i hget
      rw [hget] at hk
      exact ⟨hk, fun _ _ h => by cases h⟩
  | succ left ih =>
    have hk := hkeep call f hgood
    have ha := hok call f hgood
    unfold withRetries
    split
    · rename_i hget
      rw [hget] at hk ha
      exact ⟨hk, ha⟩
    · rename_i hget
      rw [hget] at hk
      dsimp only
      split
      · exact ih hk
      · exact ⟨hk, fun _ _ h => by cases h⟩

/-- A call that is answered is not retried. -/
theorem withRetries_answered (h : (f.getLogs (ask call) f.config.numRetry fromBlock toBlock).2 = .ok (events, toBlockUsed)) :
    (l.withRetries ask fromBlock toBlock left call f).2.2 = .ok (events, toBlockUsed) := by
  unfold withRetries
  split
  · rename_i hget
    rw [hget] at h
    exact h
  · rename_i hget
    rw [hget] at h
    cases h

/-- What a call returns is an answer of the provider for the range it says. -/
theorem getLogs_asked {retry n : ℕ}
    (h : (f.getLogs (ask n) retry fromBlock toBlock).2 = .ok (events, toBlockUsed)) :
    ∃ n retry, ask n retry fromBlock toBlockUsed = .ok events := by
  obtain ⟨attempt, hmem, hto, hanswer⟩ := RangeLogFetcher.served_last h
  obtain ⟨left, -, hask⟩ := RangeLogFetcher.attempt_answer hmem
  exact ⟨n, left, by rw [← hto, hask, hanswer]⟩

/-! ### The loop -/

/-- How one turn of the loop goes. -/
theorem fetchCompleteRange_cases {n : ℕ} {g : RangeLogFetcher}
    (h : l.withRetries ask fromBlock requestedToBlock (l.attempts - 1) call f = (n, g, .ok (events, toBlockUsed))) :
    l.fetchCompleteRange ask fromBlock (fuel + 1) call f requestedToBlock =
      if toBlockUsed < fromBlock then some (g, .error (.noFetchProgress fromBlock toBlockUsed))
      else if events.length < (l.suspectResultCount g).1 then some (g, .ok (events, toBlockUsed))
      else if toBlockUsed ≤ fromBlock then
        some (g, .error (.suspectedTruncation fromBlock events.length (l.suspectResultCount g).2))
      else l.fetchCompleteRange ask fromBlock fuel n g (fromBlock + (toBlockUsed - fromBlock) / 2) := by
  rw [fetchCompleteRange, h]

theorem fetchCompleteRange_failed {n : ℕ} {g : RangeLogFetcher} {failure : FetchFailure}
    (h : l.withRetries ask fromBlock requestedToBlock (l.attempts - 1) call f = (n, g, .error failure)) :
    l.fetchCompleteRange ask fromBlock (fuel + 1) call f requestedToBlock = some (g, .error (.fetch failure)) := by
  rw [fetchCompleteRange, h]

/-- **What is returned** is an answer of the provider for a range that is not empty, under the count
in force. -/
theorem fetchCompleteRange_ok
    (h : l.fetchCompleteRange ask fromBlock fuel call f requestedToBlock = some (f', .ok (events, toBlock))) :
    (events.length : ℤ) < (l.suspectResultCount f').1 ∧ fromBlock ≤ toBlock ∧
      ∃ n retry, ask n retry fromBlock toBlock = .ok events := by
  induction fuel generalizing call f requestedToBlock with
  | zero => cases h
  | succ fuel ih =>
    rcases hcall : l.withRetries ask fromBlock requestedToBlock (l.attempts - 1) call f with ⟨n, g, failure | ⟨logs, used⟩⟩
    · rw [fetchCompleteRange_failed hcall] at h
      cases h
    · rw [fetchCompleteRange_cases hcall] at h
      split at h
      · cases h
      rename_i hprogress
      split at h
      · rename_i hcount
        obtain ⟨-, hasked⟩ := @withRetries_spec _ l ask f (fun _ => True) fromBlock requestedToBlock (l.attempts - 1) call
          (fun events used => ∃ n retry, ask n retry fromBlock used = .ok events) (fun _ _ _ => trivial)
          (fun n f _ events used hget => getLogs_asked hget) trivial
        rw [hcall] at hasked
        simp only [Option.some.injEq, Prod.mk.injEq, Except.ok.injEq] at h
        obtain ⟨rfl, rfl, rfl⟩ := h
        exact ⟨hcount, by omega, hasked _ _ rfl⟩
      · split at h
        · cases h
        · exact ih h

/-- A fetcher that no call takes past the range it was given. -/
structure Steady (ask : ℕ → ℕ → ℤ → ℤ → Except Refusal (List L)) (fromBlock : ℤ) (good : RangeLogFetcher → Prop) :
    Prop where
  keeps : ∀ n f limit, good f → fromBlock ≤ limit → good (f.getLogs (ask n) f.config.numRetry fromBlock limit).1
  within : ∀ n f limit, good f → fromBlock ≤ limit → ∀ events used,
    (f.getLogs (ask n) f.config.numRetry fromBlock limit).2 = .ok (events, used) → used ≤ limit

theorem Steady.withRetries (h : Steady ask fromBlock good) (hgood : good f) (hle : fromBlock ≤ toBlock) :
    good (l.withRetries ask fromBlock toBlock left call f).2.1 ∧
      ∀ events used, (l.withRetries ask fromBlock toBlock left call f).2.2 = .ok (events, used) → used ≤ toBlock := by
  apply withRetries_spec
  · exact fun n f hf => h.keeps n f toBlock hf hle
  · exact fun n f hf => h.within n f toBlock hf hle
  · exact hgood

/-- **The loop ends** where no call reaches past its range: each turn halves what was answered. -/
theorem fetchCompleteRange_ends (h : Steady ask fromBlock good) (hgood : good f) (hle : fromBlock ≤ requestedToBlock)
    (hfuel : (requestedToBlock - fromBlock).toNat < fuel) :
    ∃ f' result, l.fetchCompleteRange ask fromBlock fuel call f requestedToBlock = some (f', result) := by
  induction fuel generalizing call f requestedToBlock with
  | zero => omega
  | succ fuel ih =>
    rcases hcall : l.withRetries ask fromBlock requestedToBlock (l.attempts - 1) call f with ⟨n, g, failure | ⟨logs, used⟩⟩
    · exact ⟨g, _, fetchCompleteRange_failed hcall⟩
    · obtain ⟨hkept, hwithin⟩ := @Steady.withRetries _ l ask f good fromBlock requestedToBlock (l.attempts - 1) call h hgood hle
      rw [hcall] at hkept hwithin
      have hused := hwithin logs used rfl
      rw [fetchCompleteRange_cases hcall]
      split
      · exact ⟨_, _, rfl⟩
      split
      · exact ⟨_, _, rfl⟩
      split
      · exact ⟨_, _, rfl⟩
      · exact ih hkept (by omega) (by omega)

/-- **Why nothing is returned**, where every answer reaches a block: a single block that is still
suspect, or a fetch that failed. -/
theorem fetchCompleteRange_error {failure : IncompleteRange} (steady : Steady ask fromBlock good) (hgood : good f)
    (hle : fromBlock ≤ requestedToBlock)
    (hfrom : ∀ n f limit, good f → fromBlock ≤ limit → ∀ events used,
      (f.getLogs (ask n) f.config.numRetry fromBlock limit).2 = .ok (events, used) → fromBlock ≤ used)
    (h : l.fetchCompleteRange ask fromBlock fuel call f requestedToBlock = some (f', .error failure)) :
    (∃ events : List L, failure = .suspectedTruncation fromBlock events.length (l.suspectResultCount f').2 ∧
      (l.suspectResultCount f').1 ≤ events.length ∧ ∃ n retry, ask n retry fromBlock fromBlock = .ok events) ∨
    ∃ refused, failure = .fetch refused := by
  induction fuel generalizing call f requestedToBlock with
  | zero => cases h
  | succ fuel ih =>
    rcases hcall : l.withRetries ask fromBlock requestedToBlock (l.attempts - 1) call f with ⟨n, g, refused | ⟨logs, used⟩⟩
    · rw [fetchCompleteRange_failed hcall] at h
      simp only [Option.some.injEq, Prod.mk.injEq, Except.error.injEq] at h
      exact .inr ⟨refused, h.2.symm⟩
    · obtain ⟨hkept, hwithin⟩ := @Steady.withRetries _ l ask f good fromBlock requestedToBlock (l.attempts - 1) call steady
        hgood hle
      obtain ⟨-, hasked⟩ := @withRetries_spec _ l ask f good fromBlock requestedToBlock (l.attempts - 1) call
        (fun events used => fromBlock ≤ used ∧ ∃ n retry, ask n retry fromBlock used = .ok events)
        (fun n f hf => steady.keeps n f _ hf hle)
        (fun n f hf events used hget => ⟨hfrom n f _ hf hle events used hget, getLogs_asked hget⟩) hgood
      rw [hcall] at hkept hwithin hasked
      have hused := hwithin logs used rfl
      obtain ⟨hlow, hask⟩ := hasked logs used rfl
      rw [fetchCompleteRange_cases hcall, if_neg (by omega)] at h
      split at h
      · cases h
      rename_i hsuspect
      split at h
      · -- nothing left to halve
        rename_i hsingle
        have hblock : used = fromBlock := by omega
        simp only [Option.some.injEq, Prod.mk.injEq, Except.error.injEq] at h
        obtain ⟨rfl, rfl⟩ := h
        exact .inl ⟨logs, rfl, by omega, hblock ▸ hask⟩
      · exact ih hkept (by omega) h

/-! ### Providers -/

/-- The provider answers every request, with as many logs as it likes. -/
def Answers (ask : ℕ → ℕ → ℤ → ℤ → Except Refusal (List L)) : Prop :=
  ∀ n retry fromBlock toBlock, ∃ events, ask n retry fromBlock toBlock = .ok events

/-- The settings leave room for a block. -/
def Roomy (f : RangeLogFetcher) : Prop := 1 ≤ f.config.maxBlocksPerFetch ∧ 1 ≤ f.numBlocksToFetch

theorem Answers.getLogs (h : Answers ask) (n : ℕ) (f : RangeLogFetcher) (retry : ℕ) (fromBlock limit : ℤ) :
    ∃ events, f.getLogs (ask n) retry fromBlock limit =
      (f.widen fromBlock (min limit (fromBlock + f.numBlocksToFetch - 1)) events.length,
        .ok (events, min limit (fromBlock + f.numBlocksToFetch - 1))) := by
  obtain ⟨events, hask⟩ := h n retry fromBlock (min limit (fromBlock + f.numBlocksToFetch - 1))
  exact ⟨events, RangeLogFetcher.getLogs_served hask⟩

theorem Answers.steady (h : Answers ask) (fromBlock : ℤ) : Steady ask fromBlock fun _ => True := by
  refine ⟨fun _ _ _ _ _ => trivial, fun n f limit _ _ events used hok => ?_⟩
  obtain ⟨logs, hget⟩ := h.getLogs n f f.config.numRetry fromBlock limit
  rw [hget] at hok
  simp only [Except.ok.injEq, Prod.mk.injEq] at hok
  omega

/-- Room stays: a fetcher never narrows what it asks for to less than a block. -/
theorem Roomy.widen (h : Roomy f) (toBlock : ℤ) (count : ℕ) : Roomy (f.widen fromBlock toBlock count) := by
  refine ⟨h.1, ?_⟩
  have hmax := h.1
  unfold RangeLogFetcher.widen
  dsimp only
  split
  · split <;> omega
  · split <;> omega
  · exact RangeLogFetcher.one_le_bisect _ _

theorem Answers.roomy (h : Answers ask) (fromBlock : ℤ) : Steady ask fromBlock Roomy := by
  refine ⟨fun n f limit hroom _ => ?_, fun n f limit _ hle => (h.steady fromBlock).within n f limit trivial hle⟩
  obtain ⟨logs, hget⟩ := h.getLogs n f f.config.numRetry fromBlock limit
  rw [hget]
  exact hroom.widen _ _

/-- A provider that answers is never the reason. -/
theorem Answers.not_failed (h : Answers ask) {failure : FetchFailure} :
    l.fetchCompleteRange ask fromBlock fuel call f requestedToBlock ≠ some (f', .error (.fetch failure)) := by
  induction fuel generalizing call f requestedToBlock with
  | zero => simp [fetchCompleteRange]
  | succ fuel ih =>
    obtain ⟨logs, hget⟩ := h.getLogs call f f.config.numRetry fromBlock requestedToBlock
    have hok := @withRetries_answered _ l ask f fromBlock requestedToBlock
      (min requestedToBlock (fromBlock + f.numBlocksToFetch - 1)) (l.attempts - 1) call logs (by rw [hget])
    rcases hcall : l.withRetries ask fromBlock requestedToBlock (l.attempts - 1) call f with ⟨n, g, refused | ⟨events, used⟩⟩
    · rw [hcall] at hok
      cases hok
    · rw [fetchCompleteRange_cases hcall]
      intro heq
      split at heq
      · simp at heq
      split at heq
      · simp at heq
      split at heq
      · simp at heq
      · exact ih heq

/-- A provider whose refusals suggest a part of the refused range, of more than one block. -/
theorem hints_steady (h : ∀ n, RangeLogFetcher.Hints (ask n)) (fromBlock : ℤ) :
    Steady ask fromBlock fun f => f.Configured ∧ 1 ≤ f.numBlocksToFetch := by
  refine ⟨fun n f limit hf hle => ?_, fun n f limit hf hle events used hok => ?_⟩
  · obtain ⟨⟨hconfig, hwidth⟩, -⟩ := @RangeLogFetcher.getLogs_range _ _ (h n) f hf.1 hf.2 f.config.numRetry fromBlock limit hle
    exact ⟨hf.1.of_config hconfig, hwidth⟩
  · obtain ⟨-, hrange⟩ := @RangeLogFetcher.getLogs_range _ _ (h n) f hf.1 hf.2 f.config.numRetry fromBlock limit hle
    exact (hrange events used hok).2.1

/-- **A suspiciously full answer is never taken for complete.** Whatever is returned was answered under
the count in force, for a range that starts where it was asked to. A provider that answers makes the
loop end, and makes it throw only over a single block that is still suspect. So does one that also
refuses, where its suggestions lie in what it refused, or else its refusal is what is thrown. -/
theorem complete_range (l : LogFetcher) (ask : ℕ → ℕ → ℤ → ℤ → Except Refusal (List L)) (f : RangeLogFetcher)
    (fromBlock latestBlock : ℤ) (hle : fromBlock ≤ latestBlock) :
    (∀ fuel f' events toBlock, l.fetchCompleteRange ask fromBlock fuel 0 f latestBlock = some (f', .ok (events, toBlock)) →
      (events.length : ℤ) < (l.suspectResultCount f').1 ∧ fromBlock ≤ toBlock ∧
        ∃ n retry, ask n retry fromBlock toBlock = .ok events) ∧
    (Answers ask →
      (∃ fuel f' result, l.fetchCompleteRange ask fromBlock fuel 0 f latestBlock = some (f', result)) ∧
      (Roomy f → ∀ fuel f' failure, l.fetchCompleteRange ask fromBlock fuel 0 f latestBlock = some (f', .error failure) →
        ∃ events : List L, failure = .suspectedTruncation fromBlock events.length (l.suspectResultCount f').2 ∧
          (l.suspectResultCount f').1 ≤ events.length ∧ ∃ n retry, ask n retry fromBlock fromBlock = .ok events)) ∧
    ((∀ n, RangeLogFetcher.Hints (ask n)) → f.Configured → 1 ≤ f.numBlocksToFetch →
      (∃ fuel f' result, l.fetchCompleteRange ask fromBlock fuel 0 f latestBlock = some (f', result)) ∧
      ∀ fuel f' failure, l.fetchCompleteRange ask fromBlock fuel 0 f latestBlock = some (f', .error failure) →
        (∃ events : List L, failure = .suspectedTruncation fromBlock events.length (l.suspectResultCount f').2 ∧
          (l.suspectResultCount f').1 ≤ events.length ∧ ∃ n retry, ask n retry fromBlock fromBlock = .ok events) ∨
        ∃ refused, failure = .fetch refused) := by
  refine ⟨fun fuel f' events toBlock h => fetchCompleteRange_ok h, fun hanswers => ⟨?_, ?_⟩, fun hhints hconf hwidth => ⟨?_, ?_⟩⟩
  · exact ⟨_, fetchCompleteRange_ends (hanswers.steady fromBlock) trivial hle (Nat.lt_succ_self _)⟩
  · intro hroom fuel f' failure h
    have hlow : ∀ n f limit, Roomy f → fromBlock ≤ limit → ∀ events used,
        (f.getLogs (ask n) f.config.numRetry fromBlock limit).2 = .ok (events, used) → fromBlock ≤ used := by
      intro n f limit hf hlimit events used hok
      obtain ⟨logs, hget⟩ := hanswers.getLogs n f f.config.numRetry fromBlock limit
      have hwidth := hf.2
      rw [hget] at hok
      simp only [Except.ok.injEq, Prod.mk.injEq] at hok
      omega
    rcases fetchCompleteRange_error (hanswers.roomy fromBlock) hroom hle hlow h with hsuspect | ⟨refused, rfl⟩
    · exact hsuspect
    · exact absurd h hanswers.not_failed
  · exact ⟨_, fetchCompleteRange_ends (hints_steady hhints fromBlock) ⟨hconf, hwidth⟩ hle (Nat.lt_succ_self _)⟩
  · intro fuel f' failure h
    have hlow : ∀ n f limit, (RangeLogFetcher.Configured f ∧ 1 ≤ f.numBlocksToFetch) → fromBlock ≤ limit → ∀ events used,
        (f.getLogs (ask n) f.config.numRetry fromBlock limit).2 = .ok (events, used) → fromBlock ≤ used := by
      intro n f limit hf hlimit events used hok
      obtain ⟨-, hrange⟩ := @RangeLogFetcher.getLogs_range _ _ (hhints n) f hf.1 hf.2 f.config.numRetry fromBlock limit hlimit
      exact (hrange events used hok).1
    exact fetchCompleteRange_error (hints_steady hhints fromBlock) ⟨hconf, hwidth⟩ hle hlow h

/-- A node that serves no more than `cap` logs of a range that has one in each block. -/
def capped (cap : ℕ) : ℕ → ℕ → ℤ → ℤ → Except Refusal (List Unit) :=
  fun _ _ fromBlock toBlock => .ok (List.replicate (min cap (toBlock + 1 - fromBlock).toNat) ())

/-- Twenty blocks under a cap of four: a range of three is believed, and a cap of one never is. -/
theorem complete_range_capped :
    (∃ fuel f', fetchCompleteRange ⟨some 4, 10000, 3, fun _ => true⟩ (capped 4) 10 fuel 0 (.new {} none) 29 =
      some (f', .ok ([(), (), ()], 12))) ∧
    (∀ fuel f' failure, fetchCompleteRange ⟨some 1, 10000, 3, fun _ => true⟩ (capped 1) 10 fuel 0 (.new {} none) 29 =
      some (f', .error failure) → failure = .suspectedTruncation 10 1 .configured) := by
  have hanswers : ∀ cap, Answers (capped cap) := fun cap n retry fromBlock toBlock => ⟨_, rfl⟩
  constructor
  · exact ⟨5, _, rfl⟩
  · intro fuel f' failure h
    obtain ⟨-, hthrows, -⟩ := complete_range ⟨some 1, 10000, 3, fun _ => true⟩ (capped 1) (.new {} none) 10 29 (by decide)
    obtain ⟨events, rfl, -, n, retry, hask⟩ := (hthrows (hanswers 1)).2 ⟨by decide, by decide⟩ fuel f' failure h
    have hevents : events = [()] := by simpa [capped] using hask.symm
    rw [hevents]
    rfl

end LogFetcher

end Etherfold
