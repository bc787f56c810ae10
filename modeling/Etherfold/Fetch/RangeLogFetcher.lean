import Mathlib.Tactic

/-!
# Fetching one range adaptively

`RangeLogFetcher` asks a provider for a range it believes the provider will
serve, narrows it when it is refused, and says how far the answer really got.

* `getLogs_range`: what is served starts where it was asked to and stays inside
  the range asked for.
* `Capped.getLogs`: **a learned ceiling stays**, and bounds every later range.
-/

namespace Etherfold

/-- The adaptive settings. -/
structure LogFetcherConfig where
  numBlocksToFetchAtStart : ℤ := 50
  percentageToReach : ℤ := 80
  maxEventsPerFetch : ℤ := 10000
  maxBlocksPerFetch : ℤ := 100000
  numRetry : ℕ := 3
  deriving DecidableEq, Repr

/-- What an earlier run reported about the provider. -/
structure ProvidedLearnedRange where
  ceiling : Option ℤ := none
  safeSpan : Option ℤ := none
  nextSize : Option ℤ := none
  deriving DecidableEq, Repr

/-- What is read off a provider's refusal: the texts are parsed elsewhere. -/
structure Refusal where
  archiveRefusal : Bool := false
  reportedResultCap : Option ℤ := none
  statedBlockCap : Option ℤ := none
  newToBlock : Option ℤ := none
  rangeTooWide : Bool := false
  deriving DecidableEq, Repr

/-- A suggested end of the range; zero is read as none. -/
def Refusal.clue (err : Refusal) : Option ℤ := err.newToBlock.filter (· ≠ 0)

/-- Why a call gave up. -/
inductive FetchFailure where
  | archiveRefused (fromBlock toBlock : ℤ)
  | refused (refusal : Refusal)
  deriving DecidableEq, Repr

structure RangeLogFetcher where
  config : LogFetcherConfig
  numBlocksToFetch : ℤ
  foundNumBlockToHigh : Option ℤ
  safeNumBlock : Option ℤ
  lowestReportedResultCap : Option ℤ
  deriving DecidableEq, Repr

namespace RangeLogFetcher

variable {L : Type}

/-- The only writer of `foundNumBlockToHigh`. -/
def lowerBlockCeilingTo (f : RangeLogFetcher) (cap : Option ℤ) : RangeLogFetcher :=
  match cap with
  | none => f
  | some cap =>
    if cap < 1 then f
    else
      let found := min (f.foundNumBlockToHigh.getD f.config.maxBlocksPerFetch) cap
      { f with
        foundNumBlockToHigh := some found
        safeNumBlock := if f.safeNumBlock.any (found ≤ ·) then none else f.safeNumBlock }

/-- The only writer of `lowestReportedResultCap`. -/
def recordReportedResultCap (f : RangeLogFetcher) (cap : Option ℤ) : RangeLogFetcher :=
  match cap with
  | none => f
  | some cap =>
    if f.lowestReportedResultCap.any (· ≤ cap) then f else { f with lowestReportedResultCap := some cap }

/-- A configured number that cannot be a count of blocks is ignored. -/
def configuredSpan (value : Option ℤ) : Option ℤ := value.filter (1 ≤ ·)

/-- Start from what a previous run reported. -/
def seedLearnedRange (f : RangeLogFetcher) (seed : ProvidedLearnedRange) : RangeLogFetcher :=
  let f := f.lowerBlockCeilingTo (configuredSpan seed.ceiling)
  let f :=
    match configuredSpan seed.safeSpan with
    | none => f
    | some safeSpan =>
      if f.foundNumBlockToHigh.all (safeSpan < ·) then
        { f with safeNumBlock := some (min safeSpan f.config.maxBlocksPerFetch) }
      else f
  match configuredSpan seed.nextSize with
  | none => f
  | some nextSize => { f with numBlocksToFetch := min nextSize f.config.maxBlocksPerFetch }

/-- The constructor. -/
def new (config : LogFetcherConfig) (learnedRange : Option ProvidedLearnedRange) : RangeLogFetcher :=
  let f : RangeLogFetcher :=
    ⟨config, min config.numBlocksToFetchAtStart config.maxBlocksPerFetch, none, none, none⟩
  match learnedRange with
  | none => f
  | some seed => f.seedLearnedRange seed

/-- A width between the span known safe and the one known refused, never below one. -/
def bisect (safeNumBlock : Option ℤ) (found : ℤ) : ℤ :=
  match safeNumBlock with
  | none | some 0 => max 1 (found - 1)
  | some safe => max 1 (min (safe + (found - safe) / 2) (found - 1))

/-- What a refusal of `[fromBlock, toBlock]` says about the ceiling. -/
def learnFrom (f : RangeLogFetcher) (fromBlock toBlock : ℤ) (err : Refusal) : RangeLogFetcher :=
  let f := f.lowerBlockCeilingTo err.statedBlockCap
  if err.clue = none ∧ err.rangeTooWide then f.lowerBlockCeilingTo (some (toBlock - fromBlock)) else f

/-- The width a refusal of `[fromBlock, toBlock]` suggests: a share of the range it names,
else half of what was refused. -/
def widthAfterRefusal (f : RangeLogFetcher) (fromBlock toBlock : ℤ) (err : Refusal) : ℤ :=
  match err.clue with
  | some toBlockClue =>
    let total := toBlockClue - fromBlock + 1
    if 1 < total then total * f.config.percentageToReach / 100 else f.numBlocksToFetch
  | none =>
    let total := toBlock - fromBlock
    if 1 < total then total / 2 else 1

/-- The width, or one below the ceiling where it is above it. -/
def underCeiling (f : RangeLogFetcher) (width : ℤ) : ℤ :=
  match f.foundNumBlockToHigh with
  | none => width
  | some found => if found ≠ 0 ∧ found < width then bisect f.safeNumBlock found else width

/-- The fetcher of the next attempt after `[fromBlock, toBlock]` was refused. -/
def narrow (f : RangeLogFetcher) (fromBlock toBlock : ℤ) (err : Refusal) : RangeLogFetcher :=
  let learned := f.learnFrom fromBlock toBlock err
  { learned with numBlocksToFetch := learned.underCeiling (f.widthAfterRefusal fromBlock toBlock err) }

/-- The width of the next call after `[fromBlock, toBlock]` was served with `count` logs. -/
def widen (f : RangeLogFetcher) (fromBlock toBlock : ℤ) (count : ℕ) : RangeLogFetcher :=
  let target := max 1 (f.config.maxEventsPerFetch * f.config.percentageToReach / 100)
  let total := toBlock - fromBlock + 1
  let safe := max (f.safeNumBlock.getD 0) total
  { f with
    safeNumBlock := some safe
    numBlocksToFetch :=
      match f.foundNumBlockToHigh with
      | none | some 0 =>
        if count = 0 then f.config.maxBlocksPerFetch
        else min f.config.maxBlocksPerFetch (max 1 (target * total / count))
      | some found => bisect (some safe) found }

/-- **One adaptive fetch.** `ask` is the provider, told how many retries are left; a range
in which no declared event is live is answered without asking, which is one of its
answers. The fetcher keeps what it learned also when the call gives up. -/
def getLogs (ask : ℕ → ℤ → ℤ → Except Refusal (List L)) (f : RangeLogFetcher) (retry : ℕ) (fromBlock limit : ℤ) :
    RangeLogFetcher × Except FetchFailure (List L × ℤ) :=
  let toBlock := min limit (fromBlock + f.numBlocksToFetch - 1)
  match ask retry fromBlock toBlock with
  | .ok logs => (f.widen fromBlock toBlock logs.length, .ok (logs, toBlock))
  | .error err =>
    if err.archiveRefusal then (f, .error (.archiveRefused fromBlock toBlock))
    else
      let f := f.recordReportedResultCap err.reportedResultCap
      match retry with
      | 0 => (f, .error (.refused err))
      | retry + 1 =>
        let f := f.narrow fromBlock toBlock err
        -- the retry's answer passes through the same widening once more
        match getLogs ask f retry fromBlock (fromBlock + f.numBlocksToFetch - 1) with
        | (f, .ok (logs, toBlock)) => (f.widen fromBlock toBlock logs.length, .ok (logs, toBlock))
        | (f, .error e) => (f, .error e)

/-! ### What a call asks for -/

/-- The settings leave room for a range: a share of a range of two blocks is a block. -/
structure Configured (f : RangeLogFetcher) : Prop where
  percentage_ge : 50 ≤ f.config.percentageToReach
  percentage_le : f.config.percentageToReach ≤ 100
  maxBlocks : 1 ≤ f.config.maxBlocksPerFetch

/-- A provider that suggests a range suggests more than one block of the refused one. -/
def Hints (ask : ℕ → ℤ → ℤ → Except Refusal (List L)) : Prop :=
  ∀ retry fromBlock toBlock err, ask retry fromBlock toBlock = .error err →
    ∀ clue, err.newToBlock = some clue → fromBlock < clue ∧ clue ≤ toBlock

/-- A learned ceiling keeps what the fetcher asks for at `w` blocks or less. -/
structure Capped (w : ℤ) (f : RangeLogFetcher) : Prop where
  width : f.numBlocksToFetch ≤ w
  ceiling : ∃ found, f.foundNumBlockToHigh = some found ∧ 1 ≤ found ∧ max 1 (found - 1) ≤ w

theorem bisect_le (safe : Option ℤ) (found : ℤ) : bisect safe found ≤ max 1 (found - 1) := by
  unfold bisect
  split <;> omega

theorem one_le_bisect (safe : Option ℤ) (found : ℤ) : 1 ≤ bisect safe found := by
  unfold bisect
  split <;> omega

@[simp] theorem lowerBlockCeilingTo_config (f : RangeLogFetcher) (cap : Option ℤ) :
    (f.lowerBlockCeilingTo cap).config = f.config := by
  unfold lowerBlockCeilingTo
  split
  · rfl
  · split <;> rfl

@[simp] theorem recordReportedResultCap_config (f : RangeLogFetcher) (cap : Option ℤ) :
    (f.recordReportedResultCap cap).config = f.config := by
  unfold recordReportedResultCap
  split
  · rfl
  · split <;> rfl

@[simp] theorem recordReportedResultCap_width (f : RangeLogFetcher) (cap : Option ℤ) :
    (f.recordReportedResultCap cap).numBlocksToFetch = f.numBlocksToFetch := by
  unfold recordReportedResultCap
  split
  · rfl
  · split <;> rfl

@[simp] theorem recordReportedResultCap_ceiling (f : RangeLogFetcher) (cap : Option ℤ) :
    (f.recordReportedResultCap cap).foundNumBlockToHigh = f.foundNumBlockToHigh := by
  unfold recordReportedResultCap
  split
  · rfl
  · split <;> rfl

@[simp] theorem narrow_config (f : RangeLogFetcher) (fromBlock toBlock : ℤ) (err : Refusal) :
    (f.narrow fromBlock toBlock err).config = f.config := by
  show (f.learnFrom fromBlock toBlock err).config = f.config
  unfold learnFrom
  dsimp only
  split <;> simp

@[simp] theorem widen_config (f : RangeLogFetcher) (fromBlock toBlock : ℤ) (count : ℕ) :
    (f.widen fromBlock toBlock count).config = f.config := rfl

theorem underCeiling_le (f : RangeLogFetcher) (width : ℤ) : f.underCeiling width ≤ max 1 width := by
  unfold underCeiling
  split
  · exact le_max_right _ _
  · rename_i found _
    split
    · have hb := bisect_le f.safeNumBlock found
      omega
    · exact le_max_right _ _

theorem one_le_underCeiling (f : RangeLogFetcher) {width : ℤ} (h : 1 ≤ width) :
    1 ≤ f.underCeiling width := by
  unfold underCeiling
  split
  · exact h
  · split
    · exact one_le_bisect _ _
    · exact h

theorem widthAfterRefusal_range {f : RangeLogFetcher} (h : f.Configured) {fromBlock toBlock : ℤ}
    {err : Refusal} (hhint : ∀ clue, err.newToBlock = some clue → fromBlock < clue ∧ clue ≤ toBlock)
    (hle : fromBlock ≤ toBlock) :
    1 ≤ f.widthAfterRefusal fromBlock toBlock err ∧
      f.widthAfterRefusal fromBlock toBlock err ≤ toBlock + 1 - fromBlock := by
  obtain ⟨hge, hlep, -⟩ := h
  unfold widthAfterRefusal
  dsimp only
  split
  · rename_i clue hclue
    obtain ⟨hlo, hhi⟩ := hhint clue (Option.filter_eq_some_iff.1 hclue).1
    rw [if_pos (by omega)]
    have hshare : (clue - fromBlock + 1) * f.config.percentageToReach ≤ (clue - fromBlock + 1) * 100 :=
      mul_le_mul_of_nonneg_left hlep (by omega)
    have hblock : 2 * 50 ≤ (clue - fromBlock + 1) * f.config.percentageToReach :=
      mul_le_mul (by omega) hge (by omega) (by omega)
    omega
  · split <;> omega

/-- **The next attempt is narrower**: at most what was refused, and at least a block. -/
theorem narrow_width {f : RangeLogFetcher} (h : f.Configured) {fromBlock toBlock : ℤ} {err : Refusal}
    (hhint : ∀ clue, err.newToBlock = some clue → fromBlock < clue ∧ clue ≤ toBlock)
    (hle : fromBlock ≤ toBlock) :
    1 ≤ (f.narrow fromBlock toBlock err).numBlocksToFetch ∧
      (f.narrow fromBlock toBlock err).numBlocksToFetch ≤ toBlock + 1 - fromBlock := by
  obtain ⟨h1, hw⟩ := widthAfterRefusal_range h hhint hle
  exact ⟨one_le_underCeiling _ h1, (underCeiling_le _ _).trans (max_le (h1.trans hw) hw)⟩

theorem widen_width {f : RangeLogFetcher} (h : f.Configured) (fromBlock toBlock : ℤ) (count : ℕ) :
    1 ≤ (f.widen fromBlock toBlock count).numBlocksToFetch := by
  have hmax := h.maxBlocks
  unfold widen
  dsimp only
  split
  · split
    · exact hmax
    · omega
  · split
    · exact hmax
    · omega
  · exact one_le_bisect _ _

/-- A configured fetcher stays one, whatever the provider answers. -/
theorem Configured.of_config {f g : RangeLogFetcher} (h : f.Configured) (hc : g.config = f.config) :
    g.Configured :=
  ⟨hc ▸ h.percentage_ge, hc ▸ h.percentage_le, hc ▸ h.maxBlocks⟩

/-- A first answer is the answer. -/
theorem getLogs_served {ask : ℕ → ℤ → ℤ → Except Refusal (List L)} {f : RangeLogFetcher}
    {retry : ℕ} {fromBlock limit : ℤ} {logs : List L}
    (h : ask retry fromBlock (min limit (fromBlock + f.numBlocksToFetch - 1)) = .ok logs) :
    f.getLogs ask retry fromBlock limit =
      (f.widen fromBlock (min limit (fromBlock + f.numBlocksToFetch - 1)) logs.length,
        .ok (logs, min limit (fromBlock + f.numBlocksToFetch - 1))) := by
  unfold getLogs
  dsimp only
  rw [h]

/-- **What is served** starts where it was asked to and stays inside the range asked for. -/
theorem getLogs_range {ask : ℕ → ℤ → ℤ → Except Refusal (List L)} (hask : Hints ask)
    {f : RangeLogFetcher} (h : f.Configured) (hw : 1 ≤ f.numBlocksToFetch) {retry : ℕ} {fromBlock limit : ℤ}
    (hle : fromBlock ≤ limit) :
    ((f.getLogs ask retry fromBlock limit).1.config = f.config ∧
      1 ≤ (f.getLogs ask retry fromBlock limit).1.numBlocksToFetch) ∧
      ∀ logs toBlock, (f.getLogs ask retry fromBlock limit).2 = .ok (logs, toBlock) →
        fromBlock ≤ toBlock ∧ toBlock ≤ limit ∧ toBlock < fromBlock + f.numBlocksToFetch := by
  induction retry generalizing f limit with
  | zero =>
    unfold getLogs
    dsimp only
    split
    · refine ⟨⟨rfl, widen_width h _ _ _⟩, fun logs toBlock hok => ?_⟩
      cases hok
      omega
    · split
      · exact ⟨⟨rfl, hw⟩, fun _ _ hok => by cases hok⟩
      · exact ⟨⟨by simp, by simpa using hw⟩, fun _ _ hok => by cases hok⟩
  | succ retry ih =>
    unfold getLogs
    dsimp only
    split
    · refine ⟨⟨rfl, widen_width h _ _ _⟩, fun logs toBlock hok => ?_⟩
      cases hok
      omega
    rename_i err herr
    split
    · exact ⟨⟨rfl, hw⟩, fun _ _ hok => by cases hok⟩
    have hrec : (f.recordReportedResultCap err.reportedResultCap).Configured := h.of_config (by simp)
    obtain ⟨hn1, hn2⟩ := narrow_width hrec (hask _ _ _ _ herr) (by omega)
    obtain ⟨⟨hcfg, hw'⟩, hok'⟩ := ih (hrec.of_config (narrow_config _ _ _ _)) hn1
      (Int.le_sub_one_of_lt (lt_add_of_pos_right fromBlock hn1))
    rw [narrow_config, recordReportedResultCap_config] at hcfg
    split
    · rename_i f' logs' to' heq
      rw [heq] at hcfg hok'
      refine ⟨⟨hcfg, widen_width (h.of_config hcfg) _ _ _⟩, fun logs toBlock hok => ?_⟩
      have hr := hok' logs' to' rfl
      cases hok
      omega
    · rename_i f' e heq
      rw [heq] at hcfg hw'
      exact ⟨⟨hcfg, hw'⟩, fun _ _ hok => by cases hok⟩

/-- A ceiling is only ever lowered, and never below one block. -/
theorem lowerBlockCeilingTo_ceiling {f : RangeLogFetcher} {w found : ℤ} (cap : Option ℤ)
    (hf : f.foundNumBlockToHigh = some found) (h1 : 1 ≤ found) (hw : max 1 (found - 1) ≤ w) :
    ∃ found', (f.lowerBlockCeilingTo cap).foundNumBlockToHigh = some found' ∧ 1 ≤ found' ∧
      max 1 (found' - 1) ≤ w := by
  unfold lowerBlockCeilingTo
  split
  · exact ⟨found, hf, h1, hw⟩
  · rename_i cap
    split
    · exact ⟨found, hf, h1, hw⟩
    · refine ⟨min found cap, by simp [hf], by omega, by omega⟩

theorem Capped.recordReportedResultCap {w : ℤ} {f : RangeLogFetcher} (h : f.Capped w) (cap : Option ℤ) :
    (f.recordReportedResultCap cap).Capped w :=
  ⟨by simpa using h.width, by simpa using h.ceiling⟩

theorem Capped.narrow {w : ℤ} {f : RangeLogFetcher} (h : f.Capped w) {fromBlock toBlock : ℤ}
    {err : Refusal} (hwidth : (f.narrow fromBlock toBlock err).numBlocksToFetch ≤ w) :
    (f.narrow fromBlock toBlock err).Capped w := by
  obtain ⟨found, hf, h1, hw⟩ := h.ceiling
  obtain ⟨found', hf', h1', hw'⟩ := lowerBlockCeilingTo_ceiling err.statedBlockCap hf h1 hw
  refine ⟨hwidth, ?_⟩
  show ∃ found, (f.learnFrom fromBlock toBlock err).foundNumBlockToHigh = some found ∧ _
  unfold learnFrom
  dsimp only
  split
  · exact lowerBlockCeilingTo_ceiling _ hf' h1' hw'
  · exact ⟨found', hf', h1', hw'⟩

theorem Capped.widen {w : ℤ} {f : RangeLogFetcher} (h : f.Capped w) (fromBlock toBlock : ℤ) (count : ℕ) :
    (f.widen fromBlock toBlock count).Capped w := by
  obtain ⟨found, hf, h1, hw⟩ := h.ceiling
  refine ⟨?_, found, hf, h1, hw⟩
  unfold RangeLogFetcher.widen
  dsimp only
  rw [hf]
  split
  · contradiction
  · rename_i heq
    injection heq
    omega
  · rename_i heq
    injection heq with heq
    rw [← heq]
    exact (bisect_le _ _).trans hw

/-- **A learned ceiling stays**: the fetcher never asks for more than it leaves. -/
theorem Capped.getLogs {ask : ℕ → ℤ → ℤ → Except Refusal (List L)} (hask : Hints ask) {w : ℤ}
    {f : RangeLogFetcher} (hf : f.Capped w) (h : f.Configured) (hw : 1 ≤ f.numBlocksToFetch)
    {retry : ℕ} {fromBlock limit : ℤ} (hle : fromBlock ≤ limit) :
    (f.getLogs ask retry fromBlock limit).1.Capped w := by
  induction retry generalizing f limit with
  | zero =>
    unfold RangeLogFetcher.getLogs
    dsimp only
    split
    · exact hf.widen _ _ _
    · split
      · exact hf
      · exact hf.recordReportedResultCap _
  | succ retry ih =>
    unfold RangeLogFetcher.getLogs
    dsimp only
    split
    · exact hf.widen _ _ _
    rename_i err herr
    split
    · exact hf
    have hrec : (f.recordReportedResultCap err.reportedResultCap).Configured := h.of_config (by simp)
    obtain ⟨hn1, hn2⟩ := narrow_width hrec (hask _ _ _ _ herr) (by omega)
    have hwidth := hf.width
    have hnarrow := (hf.recordReportedResultCap err.reportedResultCap).narrow
      (show _ ≤ w from hn2.trans (by omega))
    have hcap := ih hnarrow (hrec.of_config (narrow_config _ _ _ _)) hn1
      (Int.le_sub_one_of_lt (lt_add_of_pos_right fromBlock hn1))
    split
    · rename_i f' logs' to' heq
      rw [heq] at hcap
      exact hcap.widen _ _ _
    · rename_i f' e heq
      rw [heq] at hcap
      exact hcap

end RangeLogFetcher

end Etherfold
