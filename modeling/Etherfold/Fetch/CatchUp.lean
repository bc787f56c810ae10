import Etherfold.Engine.Receive
import Etherfold.Fetch.RangeLogFetcher

/-!
# Catching up

One cycle reads where the cursor resumes, fetches as much of the rest as the
fetcher gets served, and stores the cursor of what it derived. The chain here
stands still, so only the cursor moves.

* `cycle_lastToBlock`: what one cycle does to the cursor.
* `catchUp_iff`: **which widths make every cycle advance**, and which let the
  cursor arrive at all.
-/

namespace Etherfold

/-- Why a cycle stores nothing. -/
inductive CycleError where
  | fetch (failure : FetchFailure)
  | descending (error : InvalidBatchError)
  | unexpectedFromBlock (error : UnexpectedFromBlockError)
  deriving DecidableEq, Repr

variable {H D : Type} [DecidableEq H]

/-- What the fetcher answers for a range: the logs and how far they really go. -/
abbrev Answer (H D : Type) := ℕ → ℕ → Except FetchFailure (List (LogEvent H D) × ℕ)

/-- **One cycle**: the cursor after it and the stream it derived. `latestBlock` is the tip the
node reports, `pausedToBlock` the cap while a pause is requested. -/
def fetchLogsFromProvider (defaultFromBlock finality : ℕ) (lastSync : LastSync H D)
    (latestBlock : ℕ) (pausedToBlock : Option ℕ) (getLogEvents : Answer H D) :
    Except CycleError (LastSync H D × List (LogEvent H D)) :=
  let fromBlock := getFromBlock lastSync defaultFromBlock finality
  -- the pause caps the range only: the tip is recorded as the node reports it
  let toBlock := min latestBlock (pausedToBlock.getD latestBlock)
  if toBlock < fromBlock then .ok (lastSync, [])
  else
    match getLogEvents fromBlock toBlock with
    | .error e => .error (.fetch e)
    | .ok (events, toBlock) =>
      match assertAscendingByBlock events with
      | .error e => .error (.descending e)
      | .ok () =>
        match generateStreamToAppend lastSync defaultFromBlock events
            ⟨latestBlock, fromBlock, toBlock, finality⟩ with
        | .error e => .error (.unexpectedFromBlock e)
        | .ok r => .ok (r.newLastSync, r.eventStream)

/-- In this call the fetcher is limited to `width` blocks: the answer covers that many, or all
that is left. -/
def LimitedTo (width : ℕ) (ask : Answer H D) (fromBlock toBlock : ℕ) : Prop :=
  fromBlock ≤ toBlock → ∃ logs,
    ask fromBlock toBlock = .ok (logs, min toBlock (fromBlock + width - 1)) ∧
      assertAscendingByBlock logs = .ok ()

section CatchUp

variable (defaultFromBlock finality : ℕ)

/-- The cursors an indexer can have: any tips, any widths, any pauses. -/
inductive Reachable : LastSync H D → Prop
  | fresh : Reachable .fresh
  | step {c c' : LastSync H D} {tip width : ℕ} {cap : Option ℕ} {ask : Answer H D}
      {stream : List (LogEvent H D)} (hc : Reachable c) (hwidth : 1 ≤ width)
      (hask : LimitedTo width ask (getFromBlock c defaultFromBlock finality) (min tip (cap.getD tip)))
      (h : fetchLogsFromProvider defaultFromBlock finality c tip cap ask = .ok (c', stream)) :
      Reachable c'

/-- The cursor after one cycle; a cycle that fails leaves it. -/
def cycle (tip : ℕ) (ask : Answer H D) (c : LastSync H D) : LastSync H D :=
  match fetchLogsFromProvider defaultFromBlock finality c tip none ask with
  | .ok (c', _) => c'
  | .error _ => c

/-- The cursor after `k` cycles on a chain whose tip stays `tip`. -/
def catchUp (tip : ℕ) (asks : ℕ → Answer H D) (c : LastSync H D) : ℕ → LastSync H D
  | 0 => c
  | k + 1 => cycle defaultFromBlock finality tip (asks k) (catchUp tip asks c k)

variable {defaultFromBlock finality}

/-- What a cycle of a limited fetcher stores. -/
theorem fetchLogsFromProvider_ok {c c' : LastSync H D} {tip width : ℕ} {cap : Option ℕ}
    {ask : Answer H D} {stream : List (LogEvent H D)}
    (hask : LimitedTo width ask (getFromBlock c defaultFromBlock finality) (min tip (cap.getD tip)))
    (h : fetchLogsFromProvider defaultFromBlock finality c tip cap ask = .ok (c', stream)) :
    c' = c ∨ (c'.latestBlock = tip ∧ getFromBlock c defaultFromBlock finality ≤ tip ∧
      c'.lastToBlock = min (min tip (cap.getD tip))
        (getFromBlock c defaultFromBlock finality + width - 1)) := by
  unfold fetchLogsFromProvider at h
  dsimp only at h
  split at h
  · cases h; exact .inl rfl
  rename_i hle
  obtain ⟨logs, hlogs, hasc⟩ := hask (not_lt.1 hle)
  rw [hlogs] at h
  dsimp only at h
  rw [hasc] at h
  dsimp only at h
  split at h
  · cases h
  rename_i r hr
  cases h
  obtain ⟨-, hlatest, hto⟩ := generate_sync hr
  exact .inr ⟨hlatest, by omega, hto⟩

/-- The cursor never claims more than the tip it was derived at. -/
theorem Reachable.lastToBlock_le {c : LastSync H D} (h : Reachable defaultFromBlock finality c) :
    c.lastToBlock ≤ c.latestBlock := by
  induction h with
  | fresh => exact le_rfl
  | step hc hwidth hask h ih =>
    rcases fetchLogsFromProvider_ok hask h with rfl | ⟨hlatest, -, hto⟩
    · exact ih
    · omega

/-- A cycle of a limited fetcher goes through. -/
theorem fetchLogsFromProvider_limited {c : LastSync H D} {tip width : ℕ} {ask : Answer H D}
    (hask : LimitedTo width ask (getFromBlock c defaultFromBlock finality) tip) :
    ∃ c' stream, fetchLogsFromProvider defaultFromBlock finality c tip none ask = .ok (c', stream) ∧
      (tip < getFromBlock c defaultFromBlock finality → c' = c) ∧
      (getFromBlock c defaultFromBlock finality ≤ tip → c'.latestBlock = tip ∧
        c'.lastToBlock = min tip (getFromBlock c defaultFromBlock finality + width - 1)) := by
  unfold fetchLogsFromProvider
  dsimp only
  rw [Option.getD_none, min_self]
  by_cases hle : tip < getFromBlock c defaultFromBlock finality
  · rw [if_pos hle]
    exact ⟨c, [], rfl, fun _ => rfl, fun h => absurd hle (not_lt.2 h)⟩
  rw [if_neg hle]
  obtain ⟨logs, hlogs, hasc⟩ := hask (not_lt.1 hle)
  rw [hlogs]
  dsimp only
  rw [hasc]
  dsimp only
  obtain ⟨r, hr⟩ := (generate_ok_iff c defaultFromBlock logs ⟨tip, getFromBlock c defaultFromBlock finality,
    min tip (getFromBlock c defaultFromBlock finality + width - 1), finality⟩).2 rfl
  rw [hr]
  obtain ⟨-, hlatest, hto⟩ := generate_sync hr
  exact ⟨r.newLastSync, r.eventStream, rfl, fun h => absurd h hle, fun _ => ⟨hlatest, hto⟩⟩

/-- **What one cycle does to the cursor.** -/
theorem cycle_lastToBlock {c : LastSync H D} {tip width : ℕ} {ask : Answer H D}
    (hask : LimitedTo width ask (getFromBlock c defaultFromBlock finality) tip) :
    (tip < getFromBlock c defaultFromBlock finality → cycle defaultFromBlock finality tip ask c = c) ∧
      (getFromBlock c defaultFromBlock finality ≤ tip →
        (cycle defaultFromBlock finality tip ask c).latestBlock = tip ∧
        (cycle defaultFromBlock finality tip ask c).lastToBlock =
          min tip (getFromBlock c defaultFromBlock finality + width - 1)) := by
  obtain ⟨c', stream, hok, hidle, hread⟩ := fetchLogsFromProvider_limited hask
  unfold cycle
  rw [hok]
  exact ⟨hidle, hread⟩

/-- A cycle keeps the cursor reachable. -/
theorem Reachable.next {c : LastSync H D} (h : Reachable defaultFromBlock finality c) {tip width : ℕ}
    {ask : Answer H D} (hwidth : 1 ≤ width)
    (hask : LimitedTo width ask (getFromBlock c defaultFromBlock finality) tip) :
    Reachable defaultFromBlock finality (cycle defaultFromBlock finality tip ask c) := by
  obtain ⟨c', stream, hok, -⟩ := fetchLogsFromProvider_limited hask
  unfold cycle
  rw [hok]
  exact h.step hwidth (by rwa [Option.getD_none, min_self]) hok

/-- **When a cycle advances**: what it may read again is less than what it may read. -/
theorem cycle_rises_iff {c : LastSync H D} {tip width : ℕ} {ask : Answer H D}
    (hask : LimitedTo width ask (getFromBlock c defaultFromBlock finality) tip) (hlt : c.lastToBlock < tip) :
    c.lastToBlock < (cycle defaultFromBlock finality tip ask c).lastToBlock ↔
      getFromBlock c defaultFromBlock finality ≤ tip ∧
        c.lastToBlock + 1 < getFromBlock c defaultFromBlock finality + width := by
  obtain ⟨hidle, hread⟩ := cycle_lastToBlock hask
  by_cases hle : getFromBlock c defaultFromBlock finality ≤ tip
  · rw [(hread hle).2]
    omega
  · rw [hidle (not_le.1 hle)]
    omega

/-- A cycle never leaves the tip behind. -/
theorem cycle_le_tip {c : LastSync H D} {tip width : ℕ} {ask : Answer H D}
    (hask : LimitedTo width ask (getFromBlock c defaultFromBlock finality) tip) (hle : c.lastToBlock ≤ tip) : (cycle defaultFromBlock finality tip ask c).lastToBlock ≤ tip := by
  obtain ⟨hidle, hread⟩ := cycle_lastToBlock hask
  rcases lt_or_ge tip (getFromBlock c defaultFromBlock finality) with h | h
  · rw [hidle h]
    exact hle
  · rw [(hread h).2]
    exact min_le_left _ _

/-! ### Runs on a chain that stands still -/

section Run

variable {tip : ℕ} {widths : ℕ → ℕ} {asks : ℕ → Answer H D} {c : LastSync H D}

variable (defaultFromBlock finality tip widths asks c) in
/-- The widths the fetcher is limited to in the cycles of a run. -/
def Widths : Prop :=
  ∀ k, LimitedTo (widths k) (asks k)
    (getFromBlock (catchUp defaultFromBlock finality tip asks c k) defaultFromBlock finality) tip

variable (defaultFromBlock finality tip asks c) in
/-- Every cycle that starts below the tip advances. -/
def Rises : Prop :=
  ∀ k, (catchUp defaultFromBlock finality tip asks c k).lastToBlock < tip →
    (catchUp defaultFromBlock finality tip asks c k).lastToBlock <
      (catchUp defaultFromBlock finality tip asks c (k + 1)).lastToBlock

variable (defaultFromBlock finality tip asks c) in
/-- The cursor gets to the tip. -/
def Arrives : Prop := ∃ k, (catchUp defaultFromBlock finality tip asks c k).lastToBlock = tip

theorem catchUp_le_tip (hasks : Widths defaultFromBlock finality tip widths asks c) (hle : c.lastToBlock ≤ tip) (k : ℕ) :
    (catchUp defaultFromBlock finality tip asks c k).lastToBlock ≤ tip := by
  induction k with
  | zero => exact hle
  | succ k ih => exact cycle_le_tip (hasks k) ih

theorem catchUp_reachable (hasks : Widths defaultFromBlock finality tip widths asks c) (hw : ∀ k, 1 ≤ widths k)
    (hc : Reachable defaultFromBlock finality c) (k : ℕ) :
    Reachable defaultFromBlock finality (catchUp defaultFromBlock finality tip asks c k) := by
  induction k with
  | zero => exact hc
  | succ k ih => exact ih.next (hw k) (hasks k)

/-- A run that advances from some cycle on, as long as it is below the tip, arrives. -/
theorem arrives_of_rises (hasks : Widths defaultFromBlock finality tip widths asks c) (hle : c.lastToBlock ≤ tip) (j : ℕ)
    (h : ∀ k, j ≤ k → (∀ i, (catchUp defaultFromBlock finality tip asks c i).lastToBlock < tip) →
      (catchUp defaultFromBlock finality tip asks c k).lastToBlock <
        (catchUp defaultFromBlock finality tip asks c (k + 1)).lastToBlock) :
    Arrives defaultFromBlock finality tip asks c := by
  by_contra hnot
  have hlt : ∀ k, (catchUp defaultFromBlock finality tip asks c k).lastToBlock < tip := fun k =>
    lt_of_le_of_ne (catchUp_le_tip hasks hle k) fun heq => hnot ⟨k, heq⟩
  -- each cycle gains a block, so the cursor outruns the tip
  have hgain : ∀ k, k ≤ (catchUp defaultFromBlock finality tip asks c (j + k)).lastToBlock := by
    intro k
    induction k with
    | zero => exact Nat.zero_le _
    | succ k ih =>
      have hstep := h (j + k) (by omega) hlt
      rw [← Nat.add_assoc]
      omega
  have hend := hgain tip
  have := hlt (j + tip)
  omega

/-- After one cycle that reads, the cursor knows the tip. -/
theorem catchUp_latestBlock (hasks : Widths defaultFromBlock finality tip widths asks c) (hd : defaultFromBlock ≤ tip)
    {k : ℕ} (hlt : (catchUp defaultFromBlock finality tip asks c k).lastToBlock < tip) :
    (catchUp defaultFromBlock finality tip asks c (k + 1)).latestBlock = tip := by
  have hfrom := getFromBlock_le (catchUp defaultFromBlock finality tip asks c k) defaultFromBlock finality
  exact ((cycle_lastToBlock (hasks k)).2 (hfrom.trans (by omega))).1

end Run

/-- The fetcher that finds nothing, `width` blocks at a time. -/
def quiet (width : ℕ) : Answer H D := fun fromBlock toBlock =>
  .ok ([], min toBlock (fromBlock + width - 1))

omit [DecidableEq H] in
theorem limitedTo_quiet (width fromBlock toBlock : ℕ) :
    LimitedTo width (quiet width : Answer H D) fromBlock toBlock :=
  fun _ => ⟨[], rfl, rfl⟩

variable (finality) in
/-- A cursor below the tip, as one cycle of a fresh indexer leaves it. -/
theorem reachable_below {tip latest : ℕ} (hd : defaultFromBlock < tip) (hlatest : tip ≤ latest + 1) :
    ∃ c : LastSync H D, Reachable defaultFromBlock finality c ∧ c.lastToBlock = tip - 1 ∧
      c.latestBlock = latest := by
  have hfresh : getFromBlock (LastSync.fresh : LastSync H D) defaultFromBlock finality = defaultFromBlock := rfl
  obtain ⟨hlat, hto⟩ := (cycle_lastToBlock (limitedTo_quiet (tip - defaultFromBlock)
    (getFromBlock (LastSync.fresh : LastSync H D) defaultFromBlock finality) latest)).2 (by omega)
  refine ⟨_, Reachable.fresh.next (by omega) (limitedTo_quiet _ _ _), hto.trans ?_, hlat⟩
  rw [hfresh]
  have hend : defaultFromBlock + (tip - defaultFromBlock) - 1 = tip - 1 := by omega
  rw [hend, min_eq_right (by omega)]

/-- **The cursor stands still**: ranges no wider than the window read only what was read
before. -/
theorem not_arrives_of_narrow {tip width : ℕ} {widths : ℕ → ℕ} {asks : ℕ → Answer H D} {c : LastSync H D}
    (hasks : Widths defaultFromBlock finality tip widths asks c) (hws : ∀ k, widths k ≤ width)
    (hpos : 1 ≤ width) (hnarrow : width ≤ min finality (tip - defaultFromBlock))
    (hlatest : c.latestBlock = tip) (hto : c.lastToBlock = tip - 1) :
    ¬Arrives defaultFromBlock finality tip asks c := by
  have hinv : ∀ k, (catchUp defaultFromBlock finality tip asks c k).latestBlock = tip ∧
      (catchUp defaultFromBlock finality tip asks c k).lastToBlock < tip ∧
      max (tip - finality) defaultFromBlock ≤
        (catchUp defaultFromBlock finality tip asks c k).lastToBlock + 1 := by
    intro k
    induction k with
    | zero =>
      refine ⟨hlatest, ?_, ?_⟩
      · show c.lastToBlock < tip
        omega
      · show _ ≤ c.lastToBlock + 1
        omega
    | succ k ih =>
      obtain ⟨hlat, hlt, hge⟩ := ih
      have hfrom : getFromBlock (catchUp defaultFromBlock finality tip asks c k) defaultFromBlock finality =
          max (tip - finality) defaultFromBlock := by
        unfold getFromBlock
        rw [if_neg (by omega), hlat]
        omega
      have hread := (cycle_lastToBlock (hasks k)).2 (by omega)
      rw [hfrom] at hread
      have hwk := hws k
      refine ⟨hread.1, ?_, ?_⟩
      · exact lt_of_eq_of_lt hread.2 (by omega)
      · exact le_of_le_of_eq (by omega) (congrArg (· + 1) hread.2.symm)
  intro ⟨k, hk⟩
  have hlt := (hinv k).2.1
  omega

variable (defaultFromBlock finality) in
/-- What holds of every run from a reachable cursor whose ranges are never narrower than
`width`, however they adapt. -/
def EveryRun (tip width : ℕ) (P : (ℕ → Answer H D) → LastSync H D → Prop) : Prop :=
  ∀ (widths : ℕ → ℕ) (asks : ℕ → Answer H D) (c : LastSync H D),
    Widths defaultFromBlock finality tip widths asks c → (∀ k, width ≤ widths k) → Reachable defaultFromBlock finality c → c.lastToBlock ≤ tip → P asks c

omit [DecidableEq H] in
/-- A range wider than the window and a block covers something new. -/
theorem wide_new {tip width : ℕ} (hd : defaultFromBlock ≤ tip)
    (hwide : min (finality + 1) (tip - defaultFromBlock) < width) {c : LastSync H D}
    (hc : c.lastToBlock ≤ c.latestBlock) (hlt : c.lastToBlock < tip) :
    getFromBlock c defaultFromBlock finality ≤ tip ∧
      c.lastToBlock + 1 < getFromBlock c defaultFromBlock finality + width := by
  unfold getFromBlock
  split <;> omega

omit [DecidableEq H] in
/-- Where the cursor knows the tip, a range wider than the window covers something new. -/
theorem known_new {tip width : ℕ} (hd : defaultFromBlock ≤ tip)
    (hwide : min finality (tip - defaultFromBlock) < width) {c : LastSync H D}
    (hlatest : c.latestBlock = tip) (hlt : c.lastToBlock < tip) :
    getFromBlock c defaultFromBlock finality ≤ tip ∧
      c.lastToBlock + 1 < getFromBlock c defaultFromBlock finality + width := by
  unfold getFromBlock
  split <;> omega

theorem rises_iff {tip : ℕ} {widths : ℕ → ℕ} {asks : ℕ → Answer H D} {c : LastSync H D}
    (hasks : Widths defaultFromBlock finality tip widths asks c) :
    Rises defaultFromBlock finality tip asks c ↔
      ∀ k, (catchUp defaultFromBlock finality tip asks c k).lastToBlock < tip →
        getFromBlock (catchUp defaultFromBlock finality tip asks c k) defaultFromBlock finality ≤ tip ∧
        (catchUp defaultFromBlock finality tip asks c k).lastToBlock + 1 <
          getFromBlock (catchUp defaultFromBlock finality tip asks c k) defaultFromBlock finality + widths k := by
  refine forall_congr' fun k => ?_
  refine ⟨fun h hlt => ?_, fun h hlt => ?_⟩
  · exact (cycle_rises_iff (hasks k) hlt).1 (h hlt)
  · exact (cycle_rises_iff (hasks k) hlt).2 (h hlt)

/-- Wide ranges advance at every cycle. -/
theorem rises_of_wide {tip width : ℕ}
    (hwide : tip = 0 ∨ defaultFromBlock ≤ tip ∧ min (finality + 1) (tip - defaultFromBlock) < width) :
    EveryRun defaultFromBlock finality tip width fun (asks : ℕ → Answer H D) c =>
      Rises defaultFromBlock finality tip asks c := by
  intro widths asks c hasks hws hc hle
  refine (rises_iff hasks).2 fun k hlt => ?_
  obtain ⟨hd, hwide⟩ := hwide.resolve_left (by omega)
  have hpos : ∀ k, 1 ≤ widths k := fun k => by have := hws k; omega
  exact wide_new hd (hwide.trans_le (hws k)) (catchUp_reachable hasks hpos hc k).lastToBlock_le hlt

/-- Ranges wider than the window arrive. -/
theorem arrives_of_wide {tip width : ℕ}
    (hwide : tip = 0 ∨ defaultFromBlock ≤ tip ∧ min finality (tip - defaultFromBlock) < width) :
    EveryRun defaultFromBlock finality tip width fun (asks : ℕ → Answer H D) c =>
      Arrives defaultFromBlock finality tip asks c := by
  intro widths asks c hasks hws hc hle
  -- the first cycle learns the tip, and every later one advances
  refine arrives_of_rises hasks hle 1 fun k hk hlt => ?_
  obtain ⟨k, rfl⟩ : ∃ j, k = j + 1 := ⟨k - 1, by omega⟩
  have hbelow := hlt (k + 1)
  obtain ⟨hd, hwide⟩ := hwide.resolve_left (by omega)
  have hlatest := catchUp_latestBlock hasks hd (hlt k)
  exact (cycle_rises_iff (hasks _) hbelow).2 (known_new hd (hwide.trans_le (hws _)) hlatest hbelow)

/-- Below the first block of the indexer there is nothing to read. -/
theorem not_arrives_of_early {tip width : ℕ} (htip : tip ≠ 0) (hearly : tip < defaultFromBlock) :
    ¬Arrives defaultFromBlock finality tip (fun _ => quiet width) (LastSync.fresh : LastSync H D) := by
  have hstay : ∀ k, catchUp defaultFromBlock finality tip (fun _ => quiet width) .fresh k =
      (LastSync.fresh : LastSync H D) := by
    intro k
    induction k with
    | zero => rfl
    | succ k ih =>
      show cycle _ _ _ _ (catchUp _ _ _ _ _ k) = _
      rw [ih]
      exact (cycle_lastToBlock (limitedTo_quiet width _ tip)).1 hearly
  intro ⟨k, hk⟩
  rw [hstay k] at hk
  exact htip hk.symm

/-- **Which widths catch up.** With ranges of at least `width` blocks every cycle below the tip
advances, and the cursor arrives, from every reachable cursor, exactly when `width` is more than
what such a cycle can read again: the window and the block above it, or all blocks below the
tip where there are fewer. The cursor arrives, whatever its first cycle does, exactly when
`width` is more than the window. In a single run a cycle advances exactly when its own range is
wider than what its cursor makes it read again. -/
theorem catchUp_iff (tip width : ℕ) (hwidth : 1 ≤ width) :
    (EveryRun defaultFromBlock finality tip width (fun (asks : ℕ → Answer H D) c =>
        Rises defaultFromBlock finality tip asks c ∧ Arrives defaultFromBlock finality tip asks c) ↔
      tip = 0 ∨ defaultFromBlock ≤ tip ∧ min (finality + 1) (tip - defaultFromBlock) < width) ∧
    (EveryRun defaultFromBlock finality tip width (fun (asks : ℕ → Answer H D) c =>
        Arrives defaultFromBlock finality tip asks c) ↔
      tip = 0 ∨ defaultFromBlock ≤ tip ∧ min finality (tip - defaultFromBlock) < width) ∧
    ∀ (widths : ℕ → ℕ) (asks : ℕ → Answer H D) (c : LastSync H D),
      Widths defaultFromBlock finality tip widths asks c → c.lastToBlock ≤ tip →
      (Rises defaultFromBlock finality tip asks c ↔
        ∀ k, (catchUp defaultFromBlock finality tip asks c k).lastToBlock < tip →
          getFromBlock (catchUp defaultFromBlock finality tip asks c k) defaultFromBlock finality ≤ tip ∧
          (catchUp defaultFromBlock finality tip asks c k).lastToBlock + 1 <
            getFromBlock (catchUp defaultFromBlock finality tip asks c k) defaultFromBlock finality + widths k) ∧
      (Rises defaultFromBlock finality tip asks c → Arrives defaultFromBlock finality tip asks c) := by
  have hquiet : ∀ c : LastSync H D,
      Widths defaultFromBlock finality tip (fun _ => width) (fun _ => quiet width) c :=
    fun _ _ => limitedTo_quiet width _ _
  refine ⟨⟨fun h => ?_, fun hwide => ?_⟩, ⟨fun h => ?_, arrives_of_wide⟩, ?_⟩
  · by_contra hnot
    obtain ⟨htip, hnarrow⟩ := not_or.1 hnot
    by_cases hearly : tip < defaultFromBlock
    · exact not_arrives_of_early htip hearly
        (h _ _ _ (hquiet _) (fun _ => le_rfl) .fresh (Nat.zero_le _)).2
    -- a cursor that was at an older tip, one block lower
    obtain ⟨c, hc, hto, hlatest⟩ := reachable_below (H := H) (D := D) finality
      (show defaultFromBlock < tip by omega) (show tip ≤ tip - 1 + 1 by omega)
    have hrises := (h _ _ c (hquiet c) (fun _ => le_rfl) hc (by omega)).1
    have hnew := (rises_iff (hquiet c)).1 hrises 0 (show c.lastToBlock < tip by omega)
    replace hnew : c.lastToBlock + 1 < getFromBlock c defaultFromBlock finality + width := hnew.2
    unfold getFromBlock at hnew
    split at hnew <;> omega
  · intro widths asks c hasks hws hc hle
    refine ⟨rises_of_wide hwide _ _ _ hasks hws hc hle, arrives_of_wide ?_ _ _ _ hasks hws hc hle⟩
    omega
  · by_contra hnot
    obtain ⟨htip, hnarrow⟩ := not_or.1 hnot
    by_cases hearly : tip < defaultFromBlock
    · exact not_arrives_of_early htip hearly (h _ _ _ (hquiet _) (fun _ => le_rfl) .fresh (Nat.zero_le _))
    obtain ⟨c, hc, hto, hlatest⟩ := reachable_below (H := H) (D := D) finality
      (show defaultFromBlock < tip by omega) (show tip ≤ tip + 1 by omega)
    exact not_arrives_of_narrow (hquiet c) (fun _ => le_rfl) hwidth (by omega) hlatest hto
      (h _ _ c (hquiet c) (fun _ => le_rfl) hc (by omega))
  · intro widths asks c hasks hle
    refine ⟨rises_iff hasks, fun hrises => ?_⟩
    exact arrives_of_rises hasks hle 0 fun k _ hlt => hrises k (hlt k)

theorem catchUp_wide : EveryRun 0 2 10 4 fun (asks : ℕ → Answer ℕ Unit) c =>
    Rises 0 2 10 asks c ∧ Arrives 0 2 10 asks c :=
  (catchUp_iff 10 4 (by decide)).1.2 (.inr ⟨by decide, by decide⟩)

/-! ### The adaptive fetcher -/

/-- What a provider answers: the attempts left, and the range. -/
abbrev Provider (H D : Type) := ℕ → ℤ → ℤ → Except Refusal (List (LogEvent H D))

/-- What the fetcher answers while the provider is `ask`. -/
def RangeLogFetcher.answer (f : RangeLogFetcher) (ask : Provider H D) : Answer H D :=
  fun fromBlock toBlock =>
    (f.getLogs ask f.config.numRetry fromBlock toBlock).2.map fun served => (served.1, served.2.toNat)

/-- An indexer between two cycles. -/
structure Generation (H D : Type) where
  lastSync : LastSync H D
  logFetcher : RangeLogFetcher

variable (defaultFromBlock finality) in
/-- One cycle, and what the fetcher learned in it. -/
def Generation.indexMore (tip : ℕ) (ask : Provider H D) (g : Generation H D) : Generation H D where
  lastSync := cycle defaultFromBlock finality tip (g.logFetcher.answer ask) g.lastSync
  logFetcher :=
    let fromBlock := getFromBlock g.lastSync defaultFromBlock finality
    if tip < fromBlock then g.logFetcher
    else (g.logFetcher.getLogs ask g.logFetcher.config.numRetry fromBlock tip).1

variable (defaultFromBlock finality) in
/-- `k` cycles while the tip stays `tip`. -/
def Generation.run (tip : ℕ) (ask : Provider H D) (g : Generation H D) : ℕ → Generation H D
  | 0 => g
  | k + 1 => (Generation.run tip ask g k).indexMore defaultFromBlock finality tip ask

theorem Generation.run_lastSync (tip : ℕ) (ask : Provider H D) (g : Generation H D) (k : ℕ) :
    (g.run defaultFromBlock finality tip ask k).lastSync =
      catchUp defaultFromBlock finality tip
        (fun k => (g.run defaultFromBlock finality tip ask k).logFetcher.answer ask) g.lastSync k := by
  induction k with
  | zero => rfl
  | succ k ih =>
    show cycle _ _ _ _ _ = cycle _ _ _ _ _
    rw [ih]

omit [DecidableEq H] in
/-- What limits a fetcher under a learned ceiling in a cycle the provider answers. -/
theorem RangeLogFetcher.Capped.limited {fetcher : RangeLogFetcher} {fromBlock tip width : ℕ} {ask : Provider H D}
    (hcap : fetcher.Capped width) (hhints : RangeLogFetcher.Hints ask) (hcfg : fetcher.Configured)
    (hpos : 1 ≤ fetcher.numBlocksToFetch)
    (hok : fromBlock ≤ tip → ∃ logs upTo, fetcher.answer ask fromBlock tip = .ok (logs, upTo) ∧
      assertAscendingByBlock logs = .ok ()) :
    ∃ w, (1 ≤ w ∧ w ≤ width) ∧ LimitedTo w (fetcher.answer ask) fromBlock tip := by
  have hw := hcap.width
  by_cases hle : fromBlock ≤ tip
  · obtain ⟨logs, upTo, hans, hasc⟩ := hok hle
    unfold RangeLogFetcher.answer at hans
    cases hserved : (RangeLogFetcher.getLogs ask fetcher fetcher.config.numRetry fromBlock tip).2 with
    | error failure =>
      rw [hserved] at hans
      cases hans
    | ok served =>
      obtain ⟨hge, hle', hlt⟩ := (RangeLogFetcher.getLogs_range hhints hcfg hpos (Int.ofNat_le.2 hle)).2 _ _ hserved
      rw [hserved] at hans
      injection hans with hans
      injection hans with hlogs hlast
      refine ⟨upTo + 1 - fromBlock, by omega, fun _ => ⟨logs, ?_, hasc⟩⟩
      unfold RangeLogFetcher.answer
      rw [hserved]
      show Except.ok (served.1, served.2.toNat) = _
      rw [hlogs, hlast]
      congr 2
      omega
  · exact ⟨1, by omega, fun h => absurd h hle⟩

/-- **A fetcher under a learned ceiling is limited by it** in every cycle the provider answers. -/
theorem Generation.run_widths {tip width : ℕ} {ask : Provider H D} (hhints : RangeLogFetcher.Hints ask)
    {g : Generation H D} (hcfg : g.logFetcher.Configured) (hpos : 1 ≤ g.logFetcher.numBlocksToFetch)
    (hcap : g.logFetcher.Capped width)
    (hok : ∀ (f : RangeLogFetcher) fromBlock toBlock, fromBlock ≤ toBlock → ∃ logs upTo,
      f.answer ask fromBlock toBlock = .ok (logs, upTo) ∧ assertAscendingByBlock logs = .ok ()) :
    ∃ widths : ℕ → ℕ, (∀ k, 1 ≤ widths k ∧ widths k ≤ width) ∧
      Widths defaultFromBlock finality tip widths
        (fun k => (g.run defaultFromBlock finality tip ask k).logFetcher.answer ask) g.lastSync := by
  have hinv : ∀ k, ((g.run defaultFromBlock finality tip ask k).logFetcher.Configured ∧
      1 ≤ (g.run defaultFromBlock finality tip ask k).logFetcher.numBlocksToFetch) ∧
      (g.run defaultFromBlock finality tip ask k).logFetcher.Capped width := by
    intro k
    induction k with
    | zero => exact ⟨⟨hcfg, hpos⟩, hcap⟩
    | succ k ih =>
      obtain ⟨⟨hcfg, hpos⟩, hcap⟩ := ih
      simp only [Generation.run, Generation.indexMore]
      split
      · exact ⟨⟨hcfg, hpos⟩, hcap⟩
      · rename_i hle
        have hrange := Int.ofNat_le.2 (not_lt.1 hle)
        obtain ⟨⟨hc, hp⟩, -⟩ := RangeLogFetcher.getLogs_range hhints hcfg hpos hrange
        exact ⟨⟨hcfg.of_config hc, hp⟩, hcap.getLogs hhints hcfg hpos hrange⟩
  choose widths hws hlim using fun k => (hinv k).2.limited hhints (hinv k).1.1 (hinv k).1.2
    (hok _ (getFromBlock (g.run defaultFromBlock finality tip ask k).lastSync defaultFromBlock finality) tip)
  refine ⟨widths, hws, fun k => ?_⟩
  rw [← g.run_lastSync tip ask k]
  exact hlim k

end CatchUp

/-- A provider with nothing to report. -/
def noLogs : Provider ℕ Unit := fun _ _ _ => .ok []

/-- A fetcher configured with what an earlier run reported: spans of three blocks are refused. -/
def seeded : RangeLogFetcher := .new {} (some { ceiling := some 3, safeSpan := some 2, nextSize := some 2 })

/-- An indexer one block below the tip 10. -/
def nearTip : Generation ℕ Unit := ⟨⟨0, 10, 9, []⟩, seeded⟩

/-- With finality 5 the cursor is set back and never arrives. -/
theorem nearTip_stuck : Reachable 0 5 nearTip.lastSync ∧
    (nearTip.indexMore 0 5 10 noLogs).lastSync.lastToBlock = 6 ∧
    ∀ k, (nearTip.run 0 5 10 noLogs k).lastSync.lastToBlock ≠ 10 := by
  refine ⟨?_, rfl, fun k hk => ?_⟩
  · exact Reachable.fresh.step (show 1 ≤ 10 by decide) (limitedTo_quiet 10 _ _)
      (show fetchLogsFromProvider 0 5 _ 10 none _ = .ok (_, []) from rfl)
  have hcap : seeded.Capped 2 := ⟨by decide, 3, rfl, by decide, by decide⟩
  have hcfg : seeded.Configured := ⟨by decide, by decide, by decide⟩
  obtain ⟨widths, hws, hwidths⟩ : ∃ widths : ℕ → ℕ, (∀ k, 1 ≤ widths k ∧ widths k ≤ 2) ∧
      Widths 0 5 10 widths (fun k => (nearTip.run 0 5 10 noLogs k).logFetcher.answer noLogs)
        nearTip.lastSync :=
    Generation.run_widths (fun _ _ _ _ h => by cases h) hcfg (by decide) hcap
    (fun f fromBlock toBlock hle => by
      refine ⟨[], (min (toBlock : ℤ) (fromBlock + f.numBlocksToFetch - 1)).toNat, ?_, rfl⟩
      unfold RangeLogFetcher.answer
      rw [RangeLogFetcher.getLogs_served rfl]
      rfl)
  refine not_arrives_of_narrow hwidths (fun k => (hws k).2) (by decide) (by decide) rfl rfl ⟨k, ?_⟩
  rw [← nearTip.run_lastSync]
  exact hk

end Etherfold
