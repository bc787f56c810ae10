import Etherfold.Fetch.RangeLogFetcher

/-!
# What an adaptive fetch asks for

A fetch asks for a range, and again for another one each time it is refused. A
refusal that names no upper block halves what was asked for; one that does is
taken at its word.

* `attempts`: the ranges asked for, in order, with the fetcher each was asked from.
* `narrow_fits_iff`: **which refusals leave a narrower range.**
* `sub_range_iff`: **when a fetch stays inside what it was asked for** and narrows at
  every refusal.
-/

namespace Etherfold

namespace RangeLogFetcher

variable {L : Type}

/-- One range asked for: the fetcher it was asked from, its end, and the provider's answer. -/
structure Attempt (L : Type) where
  fetcher : RangeLogFetcher
  toBlock : ℤ
  answer : Except Refusal (List L)

/-- **The attempts of one fetch**, in order. -/
def attempts (ask : ℕ → ℤ → ℤ → Except Refusal (List L)) (f : RangeLogFetcher) (retry : ℕ) (fromBlock limit : ℤ) :
    List (Attempt L) :=
  let toBlock := min limit (fromBlock + f.numBlocksToFetch - 1)
  ⟨f, toBlock, ask retry fromBlock toBlock⟩ ::
    match ask retry fromBlock toBlock with
    | .ok _ => []
    | .error err =>
      if err.archiveRefusal then []
      else
        match retry with
        | 0 => []
        | retry + 1 =>
          let f := (f.recordReportedResultCap err.reportedResultCap).narrow fromBlock toBlock err
          attempts ask f retry fromBlock (fromBlock + f.numBlocksToFetch - 1)

/-- **A fetch answers a sub-range of what was asked**: every range asked for is inside it, a
retry is narrower until it is one block wide, and what is served is what the provider
answered for the range it is said to reach. -/
structure SubRange (ask : ℕ → ℤ → ℤ → Except Refusal (List L)) (f : RangeLogFetcher) (retry : ℕ)
    (fromBlock limit : ℤ) : Prop where
  inside : ∀ attempt ∈ f.attempts ask retry fromBlock limit,
    fromBlock ≤ attempt.toBlock ∧ attempt.toBlock ≤ limit
  narrower : (f.attempts ask retry fromBlock limit).IsChain fun refused next =>
    next.toBlock < refused.toBlock ∨ refused.toBlock = fromBlock ∧ next.toBlock = fromBlock
  served : ∀ logs toBlockUsed, (f.getLogs ask retry fromBlock limit).2 = .ok (logs, toBlockUsed) →
    fromBlock ≤ toBlockUsed ∧ toBlockUsed ≤ limit ∧ ∃ left ≤ retry, ask left fromBlock toBlockUsed = .ok logs

/-! ### The attempts and the answer -/

section Attempts

variable {ask : ℕ → ℤ → ℤ → Except Refusal (List L)} {f : RangeLogFetcher} {retry : ℕ} {fromBlock limit : ℤ}

/-- The first range asked for. -/
theorem attempts_head :
    (f.attempts ask retry fromBlock limit).head? =
      some ⟨f, min limit (fromBlock + f.numBlocksToFetch - 1),
        ask retry fromBlock (min limit (fromBlock + f.numBlocksToFetch - 1))⟩ := by
  unfold attempts
  rfl

/-- A fetch that is served or gives up asks once. -/
theorem attempts_once {answer : Except Refusal (List L)}
    (h : ask retry fromBlock (min limit (fromBlock + f.numBlocksToFetch - 1)) = answer)
    (hlast : ∀ err, answer = .error err → err.archiveRefusal ∨ retry = 0) :
    f.attempts ask retry fromBlock limit = [⟨f, min limit (fromBlock + f.numBlocksToFetch - 1), answer⟩] := by
  unfold attempts
  dsimp only
  rw [h]
  cases answer with
  | ok logs => rfl
  | error err =>
    dsimp only
    rcases hlast err rfl with harchive | rfl
    · rw [if_pos harchive]
    · split <;> rfl

/-- A fetch that is refused with attempts left asks again, from what the refusal left, and serves what the
retry serves. -/
theorem attempts_retry {err : Refusal} {toBlock : ℤ} (hto : toBlock = min limit (fromBlock + f.numBlocksToFetch - 1))
    (h : ask (retry + 1) fromBlock toBlock = .error err) (harchive : ¬ err.archiveRefusal) {g : RangeLogFetcher}
    (hg : g = (f.recordReportedResultCap err.reportedResultCap).narrow fromBlock toBlock err) :
    f.attempts ask (retry + 1) fromBlock limit =
        ⟨f, toBlock, .error err⟩ :: g.attempts ask retry fromBlock (fromBlock + g.numBlocksToFetch - 1) ∧
      (f.getLogs ask (retry + 1) fromBlock limit).2 =
        (g.getLogs ask retry fromBlock (fromBlock + g.numBlocksToFetch - 1)).2 := by
  subst hto hg
  constructor
  · rw [attempts]
    dsimp only
    rw [h]
    dsimp only
    rw [if_neg harchive]
  · rw [getLogs]
    dsimp only
    rw [h]
    dsimp only
    rw [if_neg harchive]
    split <;> rename_i heq <;> rw [heq]

/-- A fetch gives up at a first refusal it does not retry. -/
theorem getLogs_given_up {err : Refusal}
    (h : ask retry fromBlock (min limit (fromBlock + f.numBlocksToFetch - 1)) = .error err)
    (hlast : err.archiveRefusal ∨ retry = 0) : ∃ failure, (f.getLogs ask retry fromBlock limit).2 = .error failure := by
  rw [getLogs]
  dsimp only
  rw [h]
  dsimp only
  rcases hlast with harchive | rfl
  · rw [if_pos harchive]
    exact ⟨_, rfl⟩
  · split
    · exact ⟨_, rfl⟩
    · exact ⟨_, rfl⟩

/-- **Every way a fetch goes**: served, given up, or refused and retried. -/
theorem fetch_cases :
    (∃ logs, ask retry fromBlock (min limit (fromBlock + f.numBlocksToFetch - 1)) = .ok logs) ∨
      (∃ err, ask retry fromBlock (min limit (fromBlock + f.numBlocksToFetch - 1)) = .error err ∧
        (err.archiveRefusal ∨ retry = 0)) ∨
      ∃ err left, retry = left + 1 ∧
        ask (left + 1) fromBlock (min limit (fromBlock + f.numBlocksToFetch - 1)) = .error err ∧
        ¬ err.archiveRefusal := by
  cases hask : ask retry fromBlock (min limit (fromBlock + f.numBlocksToFetch - 1)) with
  | ok logs => exact .inl ⟨logs, rfl⟩
  | error err =>
    by_cases harchive : err.archiveRefusal
    · exact .inr (.inl ⟨err, rfl, .inl harchive⟩)
    · cases retry with
      | zero => exact .inr (.inl ⟨err, rfl, .inr rfl⟩)
      | succ left => exact .inr (.inr ⟨err, left, rfl, hask, harchive⟩)

/-- **What is served is the answer to the last attempt.** -/
theorem served_last {logs : List L} {toBlockUsed : ℤ}
    (h : (f.getLogs ask retry fromBlock limit).2 = .ok (logs, toBlockUsed)) :
    ∃ attempt ∈ f.attempts ask retry fromBlock limit, attempt.toBlock = toBlockUsed ∧ attempt.answer = .ok logs := by
  induction retry generalizing f limit with
  | zero =>
    rcases @fetch_cases _ ask f 0 fromBlock limit with ⟨logs', hask⟩ | ⟨err, hask, hlast⟩ | ⟨err, left, heq, -⟩
    · rw [getLogs_served hask] at h
      injection h with h
      injection h with hlogs hto
      rw [attempts_once hask (by rintro err ⟨⟩)]
      exact ⟨_, List.mem_singleton_self _, hto, by rw [hlogs]⟩
    · obtain ⟨failure, hfail⟩ := getLogs_given_up hask hlast
      rw [hfail] at h
      cases h
    · omega
  | succ retry ih =>
    rcases @fetch_cases _ ask f (retry + 1) fromBlock limit with
      ⟨logs', hask⟩ | ⟨err, hask, hlast⟩ | ⟨err, left, heq, hask, harchive⟩
    · rw [getLogs_served hask] at h
      injection h with h
      injection h with hlogs hto
      rw [attempts_once hask (by rintro err ⟨⟩)]
      exact ⟨_, List.mem_singleton_self _, hto, by rw [hlogs]⟩
    · obtain ⟨failure, hfail⟩ := getLogs_given_up hask hlast
      rw [hfail] at h
      cases h
    · obtain rfl : retry = left := by omega
      rw [(attempts_retry rfl hask harchive rfl).2] at h
      obtain ⟨attempt, hmem, hto, hans⟩ := ih h
      rw [(attempts_retry rfl hask harchive rfl).1]
      exact ⟨attempt, List.mem_cons_of_mem _ hmem, hto, hans⟩

/-- Every attempt is answered by the provider, for the range it asks for. -/
theorem attempt_answer {attempt : Attempt L} (h : attempt ∈ f.attempts ask retry fromBlock limit) :
    ∃ left ≤ retry, ask left fromBlock attempt.toBlock = attempt.answer := by
  induction retry generalizing f limit with
  | zero =>
    rcases @fetch_cases _ ask f 0 fromBlock limit with ⟨logs', hask⟩ | ⟨err, hask, hlast⟩ | ⟨err, left, heq, -⟩
    · rw [attempts_once hask (by rintro err ⟨⟩)] at h
      obtain rfl := List.mem_singleton.1 h
      exact ⟨0, le_rfl, hask⟩
    · rw [attempts_once hask (by rintro err ⟨⟩; exact hlast)] at h
      obtain rfl := List.mem_singleton.1 h
      exact ⟨0, le_rfl, hask⟩
    · omega
  | succ retry ih =>
    rcases @fetch_cases _ ask f (retry + 1) fromBlock limit with
      ⟨logs', hask⟩ | ⟨err, hask, hlast⟩ | ⟨err, left, heq, hask, harchive⟩
    · rw [attempts_once hask (by rintro err ⟨⟩)] at h
      obtain rfl := List.mem_singleton.1 h
      exact ⟨retry + 1, le_rfl, hask⟩
    · rw [attempts_once hask (by rintro err ⟨⟩; exact hlast)] at h
      obtain rfl := List.mem_singleton.1 h
      exact ⟨retry + 1, le_rfl, hask⟩
    · obtain rfl : retry = left := by omega
      rw [(attempts_retry rfl hask harchive rfl).1, List.mem_cons] at h
      rcases h with rfl | h
      · exact ⟨retry + 1, le_rfl, hask⟩
      · obtain ⟨left, hle, hans⟩ := ih h
        exact ⟨left, hle.trans (Nat.le_succ _), hans⟩

end Attempts

/-! ### Which refusals leave a narrower range -/

/-- A width fits under a refused range of `span + 1` blocks: it is less than that, or one, or a
ceiling below it leaves less. A ceiling leaves one block below itself, or its middle with the
span that is known to be safe. -/
def Fits (ceiling safe : Option ℤ) (span width : ℤ) : Prop :=
  1 ≤ width ∧ width ≤ max 1 span ∨
    ∃ found, ceiling = some found ∧ found ≠ 0 ∧ found < width ∧
      (found ≤ max 1 span + 1 ∨ ∃ known, safe = some known ∧ known ≠ 0 ∧ (known + found) / 2 ≤ max 1 span)

/-- The ceiling where a refusal also states a cap. -/
def ceilingWith (f : RangeLogFetcher) (err : Refusal) : Option ℤ :=
  match err.statedBlockCap with
  | none => f.foundNumBlockToHigh
  | some cap =>
    if cap < 1 then f.foundNumBlockToHigh
    else some (min (f.foundNumBlockToHigh.getD f.config.maxBlocksPerFetch) cap)

/-- **A refusal leaves a narrower range**: it names no upper block; or one above the first, of
which the percentage fits; or one that is not, and the width it was asked at fits. -/
def Heeds (f : RangeLogFetcher) (fromBlock toBlock : ℤ) (err : Refusal) : Prop :=
  ∀ clue, err.clue = some clue → Fits (f.ceilingWith err) f.safeNumBlock (toBlock - fromBlock)
    (if fromBlock < clue then (clue - fromBlock + 1) * f.config.percentageToReach / 100 else f.numBlocksToFetch)

theorem bisect_eq (known found : ℤ) (h : known ≠ 0) :
    bisect (some known) found = max 1 (min ((known + found) / 2) (found - 1)) := by
  unfold bisect
  split
  · contradiction
  · rename_i heq
    injection heq
    contradiction
  · rename_i safe heq
    injection heq with heq
    subst heq
    congr 2
    omega

theorem bisect_le_iff {safe : Option ℤ} {found span : ℤ} :
    bisect safe found ≤ max 1 span ↔
      found ≤ max 1 span + 1 ∨ ∃ known, safe = some known ∧ known ≠ 0 ∧ (known + found) / 2 ≤ max 1 span := by
  cases safe with
  | none =>
    simp only [bisect, reduceCtorEq, false_and, exists_false, or_false]
    omega
  | some known =>
    by_cases hzero : known = 0
    · subst hzero
      simp only [bisect, Option.some.injEq, exists_eq_left', ne_eq, not_true_eq_false, false_and, or_false]
      omega
    · rw [bisect_eq known found hzero]
      simp only [Option.some.injEq, exists_eq_left', ne_eq, hzero, not_false_eq_true, true_and]
      omega

theorem underCeiling_fits_iff {f : RangeLogFetcher} {width span : ℤ} :
    (1 ≤ f.underCeiling width ∧ f.underCeiling width ≤ max 1 span) ↔
      Fits f.foundNumBlockToHigh f.safeNumBlock span width := by
  unfold underCeiling Fits
  cases hfound : f.foundNumBlockToHigh with
  | none => simp
  | some found =>
    simp only [Option.some.injEq, exists_eq_left']
    by_cases hlower : found ≠ 0 ∧ found < width
    · rw [if_pos hlower, bisect_le_iff]
      have hone := one_le_bisect f.safeNumBlock found
      constructor
      · exact fun h => .inr ⟨hlower.1, hlower.2, h.2⟩
      · rintro (⟨h1, h2⟩ | h)
        · exact ⟨hone, .inl (by omega)⟩
        · exact ⟨hone, h.2.2⟩
    · rw [if_neg hlower]
      constructor
      · exact .inl
      · rintro (h | ⟨hne, hlt, -⟩)
        · exact h
        · exact absurd ⟨hne, hlt⟩ hlower

theorem foundNumBlockToHigh_stated (f : RangeLogFetcher) (err : Refusal) :
    (f.lowerBlockCeilingTo err.statedBlockCap).foundNumBlockToHigh = f.ceilingWith err := by
  unfold lowerBlockCeilingTo ceilingWith
  cases err.statedBlockCap with
  | none => rfl
  | some cap =>
    dsimp only
    split <;> rfl

/-- A span known to be safe is dropped only where the ceiling is not above it, where it would
leave no less. -/
theorem fits_stated {f : RangeLogFetcher} {err : Refusal} {span width : ℤ} :
    Fits (f.ceilingWith err) (f.lowerBlockCeilingTo err.statedBlockCap).safeNumBlock span width ↔
      Fits (f.ceilingWith err) f.safeNumBlock span width := by
  have hsafe : (f.lowerBlockCeilingTo err.statedBlockCap).safeNumBlock = f.safeNumBlock ∨
      (f.lowerBlockCeilingTo err.statedBlockCap).safeNumBlock = none ∧
        ∃ found known, f.ceilingWith err = some found ∧ f.safeNumBlock = some known ∧ found ≤ known := by
    unfold lowerBlockCeilingTo ceilingWith
    cases err.statedBlockCap with
    | none => exact .inl rfl
    | some cap =>
      dsimp only
      split
      · exact .inl rfl
      · cases hknown : f.safeNumBlock with
        | none => exact .inl rfl
        | some known =>
          simp only [Option.any_some, decide_eq_true_eq]
          split
          · rename_i hle
            exact .inr ⟨rfl, _, known, rfl, rfl, hle⟩
          · exact .inl rfl
  rcases hsafe with hsafe | ⟨hnone, found, known, hfound, hknown, hle⟩
  · rw [hsafe]
  · rw [hnone, hfound, hknown]
    unfold Fits
    simp only [Option.some.injEq, exists_eq_left', reduceCtorEq, false_and, exists_false, or_false]
    refine or_congr_right (and_congr_right fun _ => and_congr_right fun _ => ⟨.inl, ?_⟩)
    rintro (h | ⟨-, h⟩)
    · exact h
    · omega

/-- **Which refusals leave a narrower range**, of at least one block. -/
theorem narrow_fits_iff {f : RangeLogFetcher} {fromBlock toBlock : ℤ} {err : Refusal} :
    (1 ≤ (f.narrow fromBlock toBlock err).numBlocksToFetch ∧
      (f.narrow fromBlock toBlock err).numBlocksToFetch ≤ max 1 (toBlock - fromBlock)) ↔
      f.Heeds fromBlock toBlock err := by
  show (1 ≤ (f.learnFrom fromBlock toBlock err).underCeiling (f.widthAfterRefusal fromBlock toBlock err) ∧
    (f.learnFrom fromBlock toBlock err).underCeiling (f.widthAfterRefusal fromBlock toBlock err) ≤ _) ↔ _
  unfold Heeds
  cases hclue : err.clue with
  | none =>
    -- half of what was refused, or one block
    have hwidth : 1 ≤ f.widthAfterRefusal fromBlock toBlock err ∧
        f.widthAfterRefusal fromBlock toBlock err ≤ max 1 (toBlock - fromBlock) := by
      unfold widthAfterRefusal
      rw [hclue]
      dsimp only
      split <;> omega
    have hle := underCeiling_le (f.learnFrom fromBlock toBlock err) (f.widthAfterRefusal fromBlock toBlock err)
    exact iff_of_true ⟨one_le_underCeiling _ hwidth.1, by omega⟩ (by rintro clue ⟨⟩)
  | some clue =>
    have hlearned : f.learnFrom fromBlock toBlock err = f.lowerBlockCeilingTo err.statedBlockCap := by
      unfold learnFrom
      dsimp only
      rw [hclue, if_neg (by simp)]
    have hwidth : f.widthAfterRefusal fromBlock toBlock err =
        if fromBlock < clue then (clue - fromBlock + 1) * f.config.percentageToReach / 100
        else f.numBlocksToFetch := by
      unfold widthAfterRefusal
      rw [hclue]
      dsimp only
      by_cases hlt : fromBlock < clue
      · rw [if_pos hlt, if_pos (by omega)]
      · rw [if_neg hlt, if_neg (by omega)]
    rw [hlearned, hwidth, underCeiling_fits_iff, foundNumBlockToHigh_stated, fits_stated]
    simp only [Option.some.injEq, forall_eq']

/-- What a refusal reports about the number of logs leaves the width as it is. -/
theorem heeds_recorded {f : RangeLogFetcher} {cap : Option ℤ} {fromBlock toBlock : ℤ} {err : Refusal} :
    (f.recordReportedResultCap cap).Heeds fromBlock toBlock err ↔ f.Heeds fromBlock toBlock err := by
  have hsafe : (f.recordReportedResultCap cap).safeNumBlock = f.safeNumBlock := by
    unfold recordReportedResultCap
    split
    · rfl
    · split <;> rfl
  unfold Heeds ceilingWith
  rw [hsafe]
  simp only [recordReportedResultCap_ceiling, recordReportedResultCap_config, recordReportedResultCap_width]

/-! ### A fetch inside what it was asked for -/

section SubRange

variable {ask : ℕ → ℤ → ℤ → Except Refusal (List L)} {f : RangeLogFetcher} {retry : ℕ} {fromBlock limit : ℤ}

/-- Every refusal that is retried leaves a narrower range. -/
def Heeded (ask : ℕ → ℤ → ℤ → Except Refusal (List L)) (f : RangeLogFetcher) (retry : ℕ) (fromBlock limit : ℤ) : Prop :=
  ∀ attempt ∈ (f.attempts ask retry fromBlock limit).dropLast, ∀ err, attempt.answer = .error err →
    attempt.fetcher.Heeds fromBlock attempt.toBlock err

theorem attempts_ne_nil : f.attempts ask retry fromBlock limit ≠ [] := by
  intro h
  have hhead := @attempts_head _ ask f retry fromBlock limit
  rw [h] at hhead
  cases hhead

/-- The ranges asked for are inside the one to fetch, each narrower than the one before. -/
def Narrowing (ask : ℕ → ℤ → ℤ → Except Refusal (List L)) (f : RangeLogFetcher) (retry : ℕ) (fromBlock limit : ℤ) :
    Prop :=
  (∀ attempt ∈ f.attempts ask retry fromBlock limit, fromBlock ≤ attempt.toBlock ∧ attempt.toBlock ≤ limit) ∧
    (f.attempts ask retry fromBlock limit).IsChain fun refused next =>
      next.toBlock < refused.toBlock ∨ refused.toBlock = fromBlock ∧ next.toBlock = fromBlock

/-- A later range reaches no further. -/
theorem toBlock_le_of_chain {first : Attempt L} {rest : List (Attempt L)}
    (h : (first :: rest).IsChain fun refused next =>
      next.toBlock < refused.toBlock ∨ refused.toBlock = fromBlock ∧ next.toBlock = fromBlock) :
    ∀ later ∈ rest, later.toBlock ≤ first.toBlock := by
  induction rest generalizing first with
  | nil => simp
  | cons second rest ih =>
    obtain ⟨hstep, hrest⟩ := List.isChain_cons_cons.1 h
    have hsecond : second.toBlock ≤ first.toBlock := by omega
    intro later hlater
    rcases List.mem_cons.1 hlater with rfl | hlater
    · exact hsecond
    · exact (ih hrest later hlater).trans hsecond

theorem narrowing_once {answer : Except Refusal (List L)} (hle : fromBlock ≤ limit)
    (h : f.attempts ask retry fromBlock limit =
      [⟨f, min limit (fromBlock + f.numBlocksToFetch - 1), answer⟩]) :
    (Narrowing ask f retry fromBlock limit ↔ 1 ≤ f.numBlocksToFetch ∧ Heeded ask f retry fromBlock limit) := by
  unfold Narrowing Heeded
  rw [h]
  simp only [List.mem_singleton, forall_eq, List.isChain_singleton, and_true, List.dropLast_singleton,
    List.not_mem_nil, false_implies, implies_true]
  omega

/-- **The step**: a refusal that is retried has to leave a narrower range, and the rest then
goes the same way. -/
theorem narrowing_retry {err : Refusal} (hle : fromBlock ≤ limit)
    (h : ask (retry + 1) fromBlock (min limit (fromBlock + f.numBlocksToFetch - 1)) = .error err)
    (harchive : ¬ err.archiveRefusal) {g : RangeLogFetcher}
    (hg : g = (f.recordReportedResultCap err.reportedResultCap).narrow fromBlock
      (min limit (fromBlock + f.numBlocksToFetch - 1)) err) :
    (Narrowing ask f (retry + 1) fromBlock limit ↔
      1 ≤ f.numBlocksToFetch ∧
        f.Heeds fromBlock (min limit (fromBlock + f.numBlocksToFetch - 1)) err ∧
        Narrowing ask g retry fromBlock (fromBlock + g.numBlocksToFetch - 1)) := by
  have hattempts := (attempts_retry rfl h harchive hg).1
  have hheeds := @narrow_fits_iff (f.recordReportedResultCap err.reportedResultCap) fromBlock
    (min limit (fromBlock + f.numBlocksToFetch - 1)) err
  rw [← hg, heeds_recorded] at hheeds
  obtain ⟨next, rest, hrest⟩ := List.exists_cons_of_ne_nil
    (@attempts_ne_nil _ ask g retry fromBlock (fromBlock + g.numBlocksToFetch - 1))
  have hnext : next.toBlock = fromBlock + g.numBlocksToFetch - 1 := by
    have hhead := @attempts_head _ ask g retry fromBlock (fromBlock + g.numBlocksToFetch - 1)
    rw [hrest] at hhead
    injection hhead with hhead
    rw [hhead]
    exact min_self _
  rw [← hheeds]
  unfold Narrowing
  rw [hattempts, hrest, List.isChain_cons_cons]
  simp only [List.mem_cons, forall_eq_or_imp, hnext]
  constructor
  · rintro ⟨⟨hfirst, hin, hrestin⟩, hnarrow, hchain⟩
    refine ⟨by omega, by omega, ⟨by omega, fun attempt hattempt => ?_⟩, hchain⟩
    have hlater := toBlock_le_of_chain hchain attempt hattempt
    exact ⟨(hrestin attempt hattempt).1, hlater.trans_eq hnext⟩
  · rintro ⟨hwidth, hfits, ⟨hin, hrestin⟩, hchain⟩
    refine ⟨⟨by omega, by omega, fun attempt hattempt => ?_⟩, by omega, hchain⟩
    have hattempt := hrestin attempt hattempt
    omega

/-- **The run**: a fetch narrows at every refusal exactly where each one that is retried leaves
a narrower range. -/
theorem narrowing_iff (hle : fromBlock ≤ limit) :
    Narrowing ask f retry fromBlock limit ↔ 1 ≤ f.numBlocksToFetch ∧ Heeded ask f retry fromBlock limit := by
  induction retry generalizing f limit with
  | zero =>
    rcases @fetch_cases _ ask f 0 fromBlock limit with ⟨logs, hask⟩ | ⟨err, hask, hlast⟩ | ⟨err, left, heq, -⟩
    · exact narrowing_once hle (attempts_once hask (by rintro err ⟨⟩))
    · exact narrowing_once hle (attempts_once hask (by rintro err ⟨⟩; exact hlast))
    · omega
  | succ retry ih =>
    rcases @fetch_cases _ ask f (retry + 1) fromBlock limit with
      ⟨logs, hask⟩ | ⟨err, hask, hlast⟩ | ⟨err, left, heq, hask, harchive⟩
    · exact narrowing_once hle (attempts_once hask (by rintro err ⟨⟩))
    · exact narrowing_once hle (attempts_once hask (by rintro err ⟨⟩; exact hlast))
    · obtain rfl : retry = left := by omega
      set g := (f.recordReportedResultCap err.reportedResultCap).narrow fromBlock
        (min limit (fromBlock + f.numBlocksToFetch - 1)) err with hg
      have hheeded : Heeded ask f (retry + 1) fromBlock limit ↔
          f.Heeds fromBlock (min limit (fromBlock + f.numBlocksToFetch - 1)) err ∧
            Heeded ask g retry fromBlock (fromBlock + g.numBlocksToFetch - 1) := by
        unfold Heeded
        rw [(attempts_retry rfl hask harchive hg).1, List.dropLast_cons_of_ne_nil attempts_ne_nil]
        simp only [List.mem_cons, forall_eq_or_imp, Except.error.injEq, forall_eq']
      rw [narrowing_retry hle hask harchive hg, hheeded]
      refine and_congr_right fun hwidth => and_congr_right fun hheeds => ?_
      -- what the refusal left is a range
      have hleft := (@narrow_fits_iff (f.recordReportedResultCap err.reportedResultCap) fromBlock
        (min limit (fromBlock + f.numBlocksToFetch - 1)) err).2 (heeds_recorded.2 hheeds)
      rw [← hg] at hleft
      rw [ih (by omega)]
      exact and_iff_right hleft.1

/-- **When a fetch answers a sub-range of what was asked.** The fetcher asks for a block at
least, and every refusal that is retried leaves a narrower range. -/
theorem sub_range_iff (hle : fromBlock ≤ limit) :
    SubRange ask f retry fromBlock limit ↔ 1 ≤ f.numBlocksToFetch ∧ Heeded ask f retry fromBlock limit := by
  rw [← narrowing_iff hle]
  refine ⟨fun h => ⟨h.inside, h.narrower⟩, fun h => ⟨h.1, h.2, fun logs toBlockUsed hok => ?_⟩⟩
  obtain ⟨attempt, hmem, rfl, hans⟩ := served_last hok
  obtain ⟨left, hleft, hask⟩ := attempt_answer hmem
  exact ⟨(h.1 attempt hmem).1, (h.1 attempt hmem).2, left, hleft, hask.trans hans⟩

end SubRange

/-- A provider that refuses the first attempt and has nothing to report afterwards. -/
def refusedOnce (err : Refusal) : ℕ → ℤ → ℤ → Except Refusal (List Unit) :=
  fun retry _ _ => if retry = 3 then .error err else .ok []

/-- A suggestion beyond the end asked for is served past it; one at or below the first block
has the same range asked for again; a share of less than a block, and a width of none, ask
backwards. -/
theorem past_what_was_asked :
    ((new {} none).getLogs (refusedOnce { newToBlock := some 100 }) 3 10 20).2 = .ok ([], 81) ∧
      ((new {} none).attempts (refusedOnce { newToBlock := some 5 }) 3 10 100).map (·.toBlock) = [59, 59] ∧
      ((new { percentageToReach := 40 } none).attempts (refusedOnce { newToBlock := some 11 }) 3 10 20).map
        (·.toBlock) = [20, 9] ∧
      ((new { numBlocksToFetchAtStart := 0 } none).attempts (refusedOnce {}) 0 10 20).map (·.toBlock) = [9] ∧
      ¬ SubRange (refusedOnce { newToBlock := some 100 }) (new {} none) 3 10 20 := by
  refine ⟨rfl, rfl, rfl, rfl, fun h => ?_⟩
  have hused := h.served [] 81 rfl
  omega

/-- A refusal that names no block is halved: of `[10, 20]` the next attempt asks for five. -/
theorem halved :
    SubRange (refusedOnce {}) (new {} none) 3 10 20 ∧
      ((new {} none).attempts (refusedOnce {}) 3 10 20).map (·.toBlock) = [20, 14] := by
  refine ⟨(sub_range_iff (by decide)).2 ⟨by decide, ?_⟩, rfl⟩
  intro attempt hattempt err hans clue hclue
  obtain rfl := List.mem_singleton.1 (show attempt ∈ [_] from hattempt)
  injection hans with hans
  rw [← hans] at hclue
  cases hclue

end RangeLogFetcher

end Etherfold
