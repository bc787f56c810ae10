import Mathlib.Data.Prod.Lex
import Etherfold.Engine.Delivery
import Etherfold.Server.Emissions

/-!
# The canonical view

Standing rows only, in chain order, read page by page. A cursor names the last row it
was served, the block hash of that row, and the table's mark when it was minted.

* `readCanonicalView`, `isStillCanonical`, `forkBlockSince`: the reads of the source.
* `forkBlock`: the block a consumer of a dead cursor is sent back to.
* `rewind_exact_iff`: **when the standing rows below that block are the ones the
  consumer saw**.
-/

namespace Etherfold

variable {K H D : Type}

/-- Where a consumer is. The log index starts below zero, before every log. -/
structure CanonicalPosition where
  blockNumber : ℕ
  logIndex : ℤ
  deriving DecidableEq, Repr

/-- Positions in chain order. -/
def CanonicalPosition.key (p : CanonicalPosition) : ℕ ×ₗ ℤ := toLex (p.blockNumber, p.logIndex)

/-- The position of a log. -/
def LogEvent.key (e : LogEvent H D) : ℕ ×ₗ ℤ := toLex (e.blockNumber, (e.logIndex : ℤ))

/-- Before the first log of block `0`. -/
def canonicalStartPosition : CanonicalPosition := ⟨0, -1⟩

/-- A cursor: a position, the hash of the block it was served from if it was served
anything, and the mark it was minted at. -/
structure CanonicalCursor (H : Type) extends CanonicalPosition where
  blockHash : Option H
  since : ℕ
  deriving DecidableEq, Repr

/-- One page: the entries, the row it ends on and whether more rows follow. -/
structure CanonicalPage (H D : Type) where
  entries : List (LogEvent H D)
  last : Option (CanonicalPosition × H)
  hasMore : Bool
  deriving DecidableEq, Repr

/-- The rows a page is cut from: standing, at or below the gate, strictly after the
position, in chain order. -/
def rowsAfter (rows : List (EmissionRow H D)) (gate : ℕ) (after : CanonicalPosition) :
    List (EmissionRow H D) :=
  (rows.filter fun r => r.alive && decide (r.blockNumber ≤ gate) &&
      (decide (after.blockNumber < r.blockNumber) ||
        decide (r.blockNumber = after.blockNumber) && decide (after.logIndex < r.logIndex))).insertionSort
    fun r r' => r.key ≤ r'.key

/-- **One page of the view.** -/
def readCanonicalView (rows : List (EmissionRow H D)) (gate : ℕ) (after : CanonicalPosition)
    (limit : ℕ) : CanonicalPage H D :=
  let found := (rowsAfter rows gate after).take (limit + 1)
  let page := found.take limit
  { entries := page.map (·.toLogEvent)
    last := page.getLast?.map fun r => (⟨r.blockNumber, r.logIndex⟩, r.blockHash)
    hasMore := decide (limit < found.length) }

/-- The lowest height anything was taken back at since the mark. -/
def forkBlockSince (rows : List (EmissionRow H D)) (since : ℕ) : Option ℕ :=
  ((rows.filter fun r => r.removed && decide (since < r.seq)).map (·.blockNumber)).min?

variable [DecidableEq K] [DecidableEq H]

/-- The row a cursor names still stands. -/
def isStillCanonical (rows : List (EmissionRow H D)) (at_ : CanonicalPosition) (blockHash : H) : Bool :=
  rows.any fun r => decide (r.blockNumber = at_.blockNumber) && decide ((r.logIndex : ℤ) = at_.logIndex) &&
    decide (r.blockHash = blockHash) && r.alive

/-- **The block a consumer of a dead cursor is sent back to.** -/
def forkBlock (rows : List (EmissionRow H D)) (cursor : CanonicalCursor H) : ℕ :=
  (forkBlockSince rows cursor.since).getD cursor.blockNumber

/-! ### The fork block of a later table -/

omit [DecidableEq K] in
/-- The rows numbered above `n` are those of the entries after the first `n`. -/
theorem tableOf_since (es : List (LogEvent H D)) (n : ℕ) :
    ((tableOf es).filter fun r => decide (n < r.seq)).map (·.toLogEvent) = es.drop n := by
  have hseq := tableOf_seq es
  have hlen : (tableOf es).length = es.length := by
    have := congrArg List.length (tableOf_log es)
    rwa [List.length_map] at this
  have hget : ∀ i (hi : i < (tableOf es).length), (tableOf es)[i].seq = i + 1 := by
    intro i hi
    have hmap : ((tableOf es).map (·.seq))[i]? = some (tableOf es)[i].seq := by
      rw [List.getElem?_map, List.getElem?_eq_getElem hi]
      rfl
    rw [hseq, List.getElem?_range' (by omega)] at hmap
    have := Option.some.inj hmap
    omega
  have hlow : ((tableOf es).take n).filter (fun r => decide (n < r.seq)) = [] := by
    rw [List.filter_eq_nil_iff]
    intro r hr
    obtain ⟨i, hi, rfl⟩ := List.getElem_of_mem hr
    rw [List.length_take] at hi
    rw [List.getElem_take, hget i (by omega), decide_eq_true_eq]
    omega
  have hhigh : ((tableOf es).drop n).filter (fun r => decide (n < r.seq)) = (tableOf es).drop n := by
    rw [List.filter_eq_self]
    intro r hr
    obtain ⟨i, hi, rfl⟩ := List.getElem_of_mem hr
    rw [List.length_drop] at hi
    rw [List.getElem_drop, hget (n + i) (by omega), decide_eq_true_eq]
    omega
  conv_lhs => rw [← List.take_append_drop n (tableOf es)]
  rw [List.filter_append, hlow, hhigh, List.nil_append, List.map_drop, tableOf_log]

omit [DecidableEq K] in
/-- The fork search reads the retractions among the entries after the mark. -/
theorem forkBlockSince_tableOf (es : List (LogEvent H D)) (n : ℕ) :
    forkBlockSince (tableOf es) n = (((es.drop n).filter (·.removed)).map (·.blockNumber)).min? := by
  unfold forkBlockSince
  have hsplit : (tableOf es).filter (fun r => r.removed && decide (n < r.seq)) =
      ((tableOf es).filter fun r => decide (n < r.seq)).filter (·.removed) := by
    rw [List.filter_filter]
  rw [hsplit, ← tableOf_since es n, List.filter_map, List.map_map]
  rfl

omit [DecidableEq K] in
/-- A position is still canonical when one of the standing entries is there. -/
theorem isStillCanonical_tableOf (es : List (LogEvent H D)) (p : CanonicalPosition) (x : H) :
    isStillCanonical (tableOf es) p x = true ↔
      ∃ e ∈ standing es, e.key = p.key ∧ e.blockHash = x := by
  unfold isStillCanonical
  rw [← aliveRows_tableOf, List.any_eq_true]
  unfold aliveRows
  simp only [List.mem_map, List.mem_filter, Bool.and_eq_true, decide_eq_true_eq]
  refine ⟨?_, ?_⟩
  · rintro ⟨r, hr, ⟨⟨⟨hn, hi⟩, hh⟩, hal⟩⟩
    refine ⟨_, ⟨r, ⟨hr, hal⟩, rfl⟩, ?_, hh⟩
    unfold LogEvent.key CanonicalPosition.key
    rw [hn, hi]
  · rintro ⟨_, ⟨r, ⟨hr, hal⟩, rfl⟩, hk, hh⟩
    unfold LogEvent.key CanonicalPosition.key at hk
    have hpair := toLex.injective hk
    rw [Prod.mk.injEq] at hpair
    exact ⟨r, hr, ⟨⟨⟨hpair.1, hpair.2⟩, hh⟩, hal⟩⟩

omit [DecidableEq K] in
/-- A row that stood and no longer does was taken back in between. -/
theorem exists_retraction {es es' : List (LogEvent H D)} {p : CanonicalPosition} {x : H}
    (hthen : isStillCanonical (tableOf es) p x = true)
    (hnow : isStillCanonical (tableOf (es ++ es')) p x = false) :
    ∃ e ∈ es', e.removed = true ∧ e.blockHash = x := by
  obtain ⟨e, he, hk, hx⟩ := (isStillCanonical_tableOf es p x).1 hthen
  by_contra hnone
  rw [not_exists] at hnone
  have hstays : e ∈ standing (es ++ es') := by
    refine mem_standing_append he fun e' he' hrem hsame => hnone e' ⟨he', hrem, ?_⟩
    rw [← hsame.1, hx]
  have := (isStillCanonical_tableOf (es ++ es') p x).2 ⟨e, hstays, hk, hx⟩
  rw [this] at hnow
  cases hnow

/-- **A rewind is exact** when, and only when, every log appended since the cursor was
minted lies at or above one taken back since. -/
theorem rewind_exact_iff {numberOf : H → ℕ} {sb : StreamBuilder K} {rs rs' : List (Receipt K H D)}
    {cursor : CanonicalCursor H} (x : H) (run : Accepted sb (rs ++ rs'))
    (hn : ∀ r ∈ rs ++ rs', Numbered numberOf r.batch)
    (hsince : cursor.since = readStreamHighWaterMark (emissionTable (received rs)))
    (hmint : isStillCanonical (emissionTable (received rs)) cursor.toCanonicalPosition x = true)
    (hdead : isStillCanonical (emissionTable (received (rs ++ rs'))) cursor.toCanonicalPosition x = false) :
    liveBelow (emissionTable (received (rs ++ rs')))
        (forkBlock (emissionTable (received (rs ++ rs'))) cursor) =
      liveBelow (emissionTable (received rs))
        (forkBlock (emissionTable (received (rs ++ rs'))) cursor) ↔
    ∀ e ∈ emitted (received rs'), e.removed = false →
      ∃ e' ∈ emitted (received rs'), e'.removed = true ∧ e'.blockNumber ≤ e.blockNumber := by
  have hh : Heights numberOf (emitted (received (rs ++ rs'))) := run.heights hn
  have hcat : emitted (received (rs ++ rs')) = emitted (received rs) ++ emitted (received rs') := by
    simp [received, emitted]
  rw [hcat] at hh
  simp only [emissionTable_eq, hcat] at hsince hmint hdead ⊢
  set es := emitted (received rs)
  set es' := emitted (received rs')
  rw [readStreamHighWaterMark_tableOf] at hsince
  -- the cursor's row fell, so something was taken back
  obtain ⟨e₀, he₀, hrem₀, -⟩ := exists_retraction hmint hdead
  set heights := (es'.filter (·.removed)).map (·.blockNumber) with hheights
  have hmem : ∀ n, n ∈ heights ↔ ∃ e ∈ es', e.removed = true ∧ e.blockNumber = n := by
    intro n
    simp only [hheights, List.mem_map, List.mem_filter, and_assoc]
  have hne : heights ≠ [] := List.ne_nil_of_mem ((hmem _).2 ⟨e₀, he₀, hrem₀, rfl⟩)
  obtain ⟨F, hF⟩ := Option.isSome_iff_exists.1 (List.isSome_min?_iff.2 hne)
  have hfork : forkBlock (tableOf (es ++ es')) cursor = F := by
    unfold forkBlock
    rw [hsince, forkBlockSince_tableOf, List.drop_left, ← hheights, hF]
    rfl
  obtain ⟨hFmem, hFle⟩ := List.min?_eq_some_iff.1 hF
  rw [hfork]
  obtain ⟨news, hlive, hnil⟩ := liveBelow_append hh fun e he hrem => hFle _ ((hmem _).2 ⟨e, he, hrem, rfl⟩)
  rw [hlive, List.append_right_eq_self, hnil]
  refine ⟨fun h e he hrem => ?_, fun h e he hrem => ?_⟩
  · obtain ⟨e', he', hrem', hn'⟩ := (hmem F).1 hFmem
    exact ⟨e', he', hrem', hn' ▸ h e he hrem⟩
  · obtain ⟨e', he', hrem', hle⟩ := h e he hrem
    exact (hFle _ ((hmem _).2 ⟨e', he', hrem', rfl⟩)).trans hle

/-- Two batches: log `5` at height `5`, then a branch that replaces it and carries the
given further logs. -/
def forkAt (below : List (LogEvent ℕ Unit)) : List (Receipt Unit ℕ Unit) :=
  [⟨⟨(), 0, 6, 6, below ++ [⟨105, 5, 0, false, ()⟩]⟩,
      ⟨[⟨5, 5, 0, true, ()⟩] ++ below ++ [⟨105, 5, 0, false, ()⟩],
        ⟨0, 6, 6, below.map (fun e => ⟨e.blockHash, e.blockNumber, [e]⟩) ++
          [⟨105, 5, [⟨105, 5, 0, false, ()⟩]⟩]⟩, some ⟨.contradiction, 5, 5⟩⟩⟩]

/-- The batch before the fork: one log, at height `5`. -/
def beforeFork : List (Receipt Unit ℕ Unit) :=
  [⟨⟨(), 0, 5, 5, [⟨5, 5, 0, false, ()⟩]⟩,
      ⟨[⟨5, 5, 0, false, ()⟩], ⟨0, 5, 5, [⟨5, 5, [⟨5, 5, 0, false, ()⟩]⟩]⟩, none⟩⟩]

/-- A replacement that carries logs at the replaced height only: the rewind is exact. -/
theorem rewind_exact_forkAt :
    liveBelow (emissionTable (received (beforeFork ++ forkAt [])))
        (forkBlock (emissionTable (received (beforeFork ++ forkAt []))) ⟨⟨5, 0⟩, some 5, 1⟩) =
      liveBelow (emissionTable (received beforeFork))
        (forkBlock (emissionTable (received (beforeFork ++ forkAt []))) ⟨⟨5, 0⟩, some 5, 1⟩) := by
  have hn : ∀ r ∈ beforeFork ++ forkAt [], Numbered (· % 100) r.batch := by decide
  have run : Accepted ⟨(), 0, 5⟩ (beforeFork ++ forkAt []) := .receive (.receive .start rfl) rfl
  exact (rewind_exact_iff 5 run hn rfl (by decide) (by decide)).2 (by decide)

/-- **A rewind can point too high.** The replacement branch carries a log at height `3`,
where the old branch had none, and the fork search answers `5`. -/
theorem forkAt_too_high : ∃ (rs rs' : List (Receipt Unit ℕ Unit)) (cursor : CanonicalCursor ℕ),
    Accepted ⟨(), 0, 5⟩ (rs ++ rs') ∧ (∀ r ∈ rs ++ rs', Numbered (· % 100) r.batch) ∧
    cursor.since = readStreamHighWaterMark (emissionTable (received rs)) ∧
    isStillCanonical (emissionTable (received rs)) cursor.toCanonicalPosition 5 = true ∧
    isStillCanonical (emissionTable (received (rs ++ rs'))) cursor.toCanonicalPosition 5 = false ∧
    cursor.blockHash = some 5 ∧
    liveBelow (emissionTable (received (rs ++ rs')))
        (forkBlock (emissionTable (received (rs ++ rs'))) cursor) ≠
      liveBelow (emissionTable (received rs)) (forkBlock (emissionTable (received (rs ++ rs'))) cursor) :=
  ⟨beforeFork, forkAt [⟨103, 3, 0, false, ()⟩], ⟨⟨5, 0⟩, some 5, 1⟩,
    .receive (.receive .start rfl) rfl, by decide, by decide, by decide, by decide, rfl, by decide⟩

end Etherfold
