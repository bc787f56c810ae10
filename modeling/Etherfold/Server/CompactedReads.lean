import Etherfold.Server.Canonical
import Etherfold.Server.Compacted

/-!
# Reads of a compacted table

A stream is appended delta by delta, and calls delete pairs of it in between.

* `OnTable`: the table holds the stream, as far as anyone reads it.
* `TableRun`: a table after any appends of a legal stream and any calls.
* `compacted_reads`: **every canonical read is the read of the table nothing was deleted from**, and
  what is still held is a legal stream with the same standing entries.
* `sweepEmissionPairs`, `sweep_all`: **calls until one reports that it is done leave no dead row
  below the floor**, each but the last dropping what its budget allows.
-/

namespace Etherfold

open Ledger

variable {H D : Type} {numberOf : H → ℕ} {rows rows' : List (EmissionRow H D)}

/-! ### A table over a run -/

section Runs

/-- The canonical view reads live rows only. -/
theorem readCanonicalView_congr (h : aliveRows rows = aliveRows rows') (gate : ℕ) (after : CanonicalPosition) (limit : ℕ) :
    readCanonicalView rows gate after limit = readCanonicalView rows' gate after limit := by
  have hsorted : ∀ rows : List (EmissionRow H D), (rowsAfter rows gate after).map (·.toLogEvent) =
      ((aliveRows rows).filter fun e => decide (e.blockNumber ≤ gate) &&
        (decide (after.blockNumber < e.blockNumber) ||
          decide (e.blockNumber = after.blockNumber) && decide (after.logIndex < e.logIndex))).insertionSort
        fun e e' => e.key ≤ e'.key := by
    intro rows
    unfold rowsAfter aliveRows
    rw [List.map_insertionSort (fun r r' : EmissionRow H D => r.key ≤ r'.key)
      (fun e e' : LogEvent H D => e.key ≤ e'.key) (fun r => r.toLogEvent) _ fun r _ r' _ => Iff.rfl,
      List.filter_map, List.filter_filter]
    refine congrArg (fun l => List.insertionSort _ (List.map _ l)) (List.filter_congr fun r _ => ?_)
    rw [Function.comp_apply, Bool.and_assoc, Bool.and_comm]
  have hpage : ∀ rows : List (EmissionRow H D), readCanonicalView rows gate after limit =
      let found := ((rowsAfter rows gate after).map (·.toLogEvent)).take (limit + 1)
      ⟨found.take limit, (found.take limit).getLast?.map fun e => (⟨e.blockNumber, e.logIndex⟩, e.blockHash),
        decide (limit < found.length)⟩ := by
    intro rows
    unfold readCanonicalView
    simp only [← List.map_take, List.getLast?_map, List.length_map, Option.map_map]
    rfl
  rw [hpage rows, hpage rows', hsorted rows, hsorted rows', h]

variable [DecidableEq H]

theorem isStillCanonical_congr (h : aliveRows rows = aliveRows rows') (at_ : CanonicalPosition) (x : H) :
    isStillCanonical rows at_ x = isStillCanonical rows' at_ x := by
  have hany : ∀ rows : List (EmissionRow H D), isStillCanonical rows at_ x =
      (aliveRows rows).any fun e => decide (e.blockNumber = at_.blockNumber) &&
        decide ((e.logIndex : ℤ) = at_.logIndex) && decide (e.blockHash = x) := by
    intro rows
    unfold isStillCanonical aliveRows
    rw [List.any_map, List.any_filter]
    congr 1
    funext r
    rw [Function.comp_apply, Bool.and_comm]
  rw [hany, hany, h]

/-- **A table the stream `es` was appended to**, whatever calls were made in between. -/
structure OnTable (numberOf : H → ℕ) (es : List (LogEvent H D)) (rows : List (EmissionRow H D)) : Prop where
  orderly : Orderly numberOf rows
  live : aliveRows rows = standing es
  left : standing (rows.map (·.toLogEvent)) = standing es

theorem onTable_nil : OnTable (D := D) numberOf [] [] := ⟨orderly_nil, rfl, rfl⟩

variable {es : List (LogEvent H D)}

/-- **One more entry of the stream.** -/
theorem OnTable.push (h : OnTable numberOf es rows) {e : LogEvent H D} {n : ℕ} (he : e.blockNumber = numberOf e.blockHash)
    (hlegal : Legal ∅ ((es ++ [e]).map LogEvent.op)) (hn : ∀ r ∈ rows, r.seq ≤ n) :
    OnTable numberOf (es ++ [e]) (pushEmission (rows, n) e).1 ∧ ∀ r ∈ (pushEmission (rows, n) e).1, r.seq ≤ n + 1 := by
  rw [List.map_append, legal_append, List.map_singleton] at hlegal
  obtain ⟨-, hlast⟩ := hlegal
  -- what stands of the stream is what is live in the table
  have hheld : e.op.key ∈ held ∅ (es.map LogEvent.op) ↔ ∃ r ∈ rows, r.alive = true ∧ r.toLogEvent.SameLog e := by
    rw [← mem_survivors_key, ← standing_eq_survivors, ← h.live]
    unfold aliveRows
    simp only [List.mem_map, List.mem_filter, LogEvent.op_key, Prod.mk.injEq]
    constructor
    · rintro ⟨_, ⟨r, ⟨hr, halive⟩, rfl⟩, hh, hi⟩
      exact ⟨r, hr, halive, hh, hi⟩
    · rintro ⟨r, hr, halive, hh, hi⟩
      exact ⟨_, ⟨r, ⟨hr, halive⟩, rfl⟩, hh, hi⟩
  have hfits : FitsTable rows e := by
    constructor
    · intro hrem r hr halive hsame
      have hop : e.op = .add e.op.key := by
        unfold LogEvent.op
        rw [hrem]
        rfl
      rw [hop] at hlast
      exact hlast.1 (hheld.2 ⟨r, hr, halive, hsame⟩)
    · intro hrem
      have hop : e.op = .retract e.op.key := by
        unfold LogEvent.op
        rw [hrem]
        rfl
      rw [hop] at hlast
      exact hheld.1 hlast.1
  refine ⟨⟨h.orderly.push he hfits hn, ?_, ?_⟩, fun r hr => ?_⟩
  · rw [aliveRows_push h.orderly.aliveAdded, standing_concat, h.live]
  · have hlog : (pushEmission (rows, n) e).1.map (·.toLogEvent) = rows.map (·.toLogEvent) ++ [e] := by
      unfold pushEmission flagSuperseded
      rw [List.map_append]
      congr 1
      split
      · rw [List.map_map]
        exact List.map_congr_left fun r _ => flag_toLogEvent e r
      · rfl
    rw [hlog, standing_concat, standing_concat, h.left]
  · unfold pushEmission at hr
    obtain hr | hr := List.mem_append.1 hr
    · obtain ⟨r', hr', hseq, -⟩ := mem_flagSuperseded hr
      have hle := hn r' hr'
      omega
    · rw [List.mem_singleton.1 hr]

omit [DecidableEq H] in
/-- No row is numbered above the mark. -/
theorem seq_le_mark {r : EmissionRow H D} (hr : r ∈ rows) : r.seq ≤ readStreamHighWaterMark rows := by
  unfold readStreamHighWaterMark
  induction rows with
  | nil => cases hr
  | cons r' rows ih =>
    rw [List.map_cons, List.foldr_cons]
    obtain rfl | hr := List.mem_cons.1 hr
    · exact le_max_left _ _
    · exact (ih hr).trans (le_max_right _ _)

/-- **A delta of the stream.** -/
theorem OnTable.append (h : OnTable numberOf es rows) {news : List (LogEvent H D)} (hn : Heights numberOf news)
    (hlegal : Legal ∅ ((es ++ news).map LogEvent.op)) : OnTable numberOf (es ++ news) (appendEmissions rows news) := by
  have key : ∀ (news : List (LogEvent H D)), Heights numberOf news → Legal ∅ ((es ++ news).map LogEvent.op) →
      OnTable numberOf (es ++ news) (news.foldl pushEmission (rows, readStreamHighWaterMark rows)).1 ∧
      ∀ r ∈ (news.foldl pushEmission (rows, readStreamHighWaterMark rows)).1,
        r.seq ≤ (news.foldl pushEmission (rows, readStreamHighWaterMark rows)).2 := by
    intro news
    induction news using List.reverseRecOn with
    | nil =>
      intro _ _
      rw [List.append_nil]
      exact ⟨h, fun r hr => seq_le_mark hr⟩
    | append_singleton news e ih =>
      intro hn hlegal
      rw [← List.append_assoc] at hlegal ⊢
      have hbefore : Legal ∅ ((es ++ news).map LogEvent.op) := by
        rw [List.map_append] at hlegal
        exact (legal_append.1 hlegal).1
      obtain ⟨hon, hle⟩ := ih (fun e' he' => hn e' (List.mem_append_left _ he')) hbefore
      rw [List.foldl_append]
      exact hon.push (hn e (by simp)) hlegal hle
  exact (key news hn hlegal).1

end Runs

section Calls

variable [LinearOrder H] {es : List (LogEvent H D)} {query : PairCompactionQuery} {report : PairCompactionReport}

/-- **What a call does on a table in order**: it deletes what it scans. -/
theorem Orderly.call (h : Orderly numberOf rows) (hcall : compactEmissionPairs rows query = .ok (rows', report)) :
    (rows' = rows ∧ report = ⟨none, 0, 0, 0, true⟩) ∨
    ∃ blocks maxPairs, query.compaction = some (.blocks blocks) ∧ query.finality ≤ blocks ∧
      budgetOf query.maxPairs = .ok maxPairs ∧ 0 < maxPairs ∧
      rows' = rows.filter (fun r => r.seq ∉ (candidatesOf rows (query.latestBlock - blocks) maxPairs).map (·.seq)) ∧
      report.rowsDeleted = report.scanned ∧
      report.scanned = (candidatesOf rows (query.latestBlock - blocks) maxPairs).length ∧
      report.complete = decide (report.scanned < maxPairs * 2) := by
  obtain hoff | ⟨blocks, maxPairs, floor, hset, hfin, hbudget, hpos, rfl, hrows', -, hpairs, hdel, hscan, hdone⟩ :=
    compact_cases hcall
  · exact .inl hoff
  · obtain ⟨hseqs, hlen⟩ := h.deleted (query.latestBlock - blocks) maxPairs
    rw [hseqs] at hrows'
    exact .inr ⟨blocks, maxPairs, hset, hfin, hbudget, hpos, hrows', by rw [hdel, hpairs, hlen, hscan], hscan, hdone⟩

/-- **A call.** -/
theorem OnTable.compact (h : OnTable numberOf es rows) (hcall : compactEmissionPairs rows query = .ok (rows', report)) :
    OnTable numberOf es rows' := by
  have hlive := (compact_matched h.orderly.seq_nodup hcall).2.1
  obtain ⟨rfl, -⟩ | ⟨blocks, maxPairs, -, -, -, -, rfl, -⟩ := h.orderly.call hcall
  · exact h
  · have hdrops := (h.orderly.drops (query.latestBlock - blocks) maxPairs).survivors h.orderly.legal
    refine ⟨h.orderly.without _ _, ?_, ?_⟩
    · unfold aliveRows
      rw [hlive]
      exact h.live
    · rw [← survivors_log, hdrops, survivors_log]
      exact h.left

/-- **Appends of a legal stream and calls**, in any order. -/
inductive TableRun (numberOf : H → ℕ) : List (LogEvent H D) → List (EmissionRow H D) → Prop
  | start : TableRun numberOf [] []
  | append {es : List (LogEvent H D)} {rows : List (EmissionRow H D)} (news : List (LogEvent H D)) :
      TableRun numberOf es rows → Heights numberOf news →
      Legal ∅ ((es ++ news).map LogEvent.op) → TableRun numberOf (es ++ news) (appendEmissions rows news)
  | compact {es : List (LogEvent H D)} {rows rows' : List (EmissionRow H D)} {query : PairCompactionQuery}
      {report : PairCompactionReport} : TableRun numberOf es rows →
      compactEmissionPairs rows query = .ok (rows', report) → TableRun numberOf es rows'

theorem TableRun.onTable (run : TableRun numberOf es rows) : OnTable numberOf es rows := by
  induction run with
  | start => exact onTable_nil
  | append news _ hn hlegal ih => exact ih.append hn hlegal
  | compact _ hcall ih => exact ih.compact hcall

/-- **Calls change no canonical read**: whatever a table was appended to it and whatever was called in
between, each page and each check of a cursor is that of the table nothing was deleted from. What
the table still holds is a legal stream with the standing entries of the whole one. -/
theorem compacted_reads (run : TableRun numberOf es rows) :
    (∀ gate after limit, readCanonicalView rows gate after limit = readCanonicalView (tableOf es) gate after limit) ∧
    (∀ at_ x, isStillCanonical rows at_ x = isStillCanonical (tableOf es) at_ x) ∧
    Legal ∅ ((rows.map (·.toLogEvent)).map LogEvent.op) ∧ standing (rows.map (·.toLogEvent)) = standing es := by
  have h := run.onTable
  have halive : aliveRows rows = aliveRows (tableOf es) := by rw [h.live, aliveRows_tableOf]
  refine ⟨fun gate after limit => readCanonicalView_congr halive gate after limit,
    fun at_ x => isStillCanonical_congr halive at_ x, ?_, h.left⟩
  rw [List.map_map]
  exact h.orderly.legal

/-- The call of a query that is in order. -/
theorem compact_ok {blocks maxPairs : ℕ} (rows : List (EmissionRow H D)) (hset : query.compaction = some (.blocks blocks))
    (hfin : query.finality ≤ blocks) (hbudget : budgetOf query.maxPairs = .ok maxPairs) :
    ∃ rows' report, compactEmissionPairs rows query = .ok (rows', report) := by
  unfold compactEmissionPairs resolvePairCompaction
  rw [hset, hbudget]
  simp only [not_lt.2 hfin, if_false]
  exact ⟨_, _, rfl⟩

/-- Three logs taken back, and one that stands. -/
def retractedThrice : List (LogEvent ℕ Unit) :=
  [⟨7, 7, 0, false, ()⟩, ⟨7, 7, 1, false, ()⟩, ⟨7, 7, 0, true, ()⟩, ⟨7, 7, 1, true, ()⟩, ⟨8, 8, 0, false, ()⟩,
    ⟨7, 7, 0, false, ()⟩, ⟨7, 7, 0, true, ()⟩]

theorem tableRun_retractedThrice : TableRun id retractedThrice (tableOf retractedThrice) := by
  have hmark : tableOf retractedThrice = appendEmissions [] retractedThrice := rfl
  rw [hmark]
  refine .append retractedThrice .start (by unfold Heights; decide) ?_
  show Legal ∅ [Op.add ((7 : ℕ), (0 : ℕ)), .add (7, 1), .retract (7, 0), .retract (7, 1), .add (8, 0), .add (7, 0),
    .retract (7, 0)]
  simp [Legal]

theorem compacted_reads_retractedThrice : ∃ rows report,
    compactEmissionPairs (tableOf retractedThrice) ⟨some (.blocks 12), 12, 20, some 1⟩ = .ok (rows, report) ∧
    report.complete = false ∧ (readCanonicalView rows 20 canonicalStartPosition 5).entries = [⟨8, 8, 0, false, ()⟩] := by
  obtain ⟨rows, report, hcall⟩ : ∃ rows report, compactEmissionPairs (tableOf retractedThrice)
      ⟨some (.blocks 12), 12, 20, some 1⟩ = .ok (rows, report) := compact_ok _ rfl (by decide) rfl
  have hdone : (compactEmissionPairs (tableOf retractedThrice) ⟨some (.blocks 12), 12, 20, some 1⟩).map
      (·.2.complete) = .ok false := by decide
  rw [hcall] at hdone
  refine ⟨rows, report, hcall, Except.ok.inj hdone, ?_⟩
  rw [(compacted_reads (tableRun_retractedThrice.compact hcall)).1]
  decide

/-! ### A sweep -/

/-- A host that wants a whole sweep calls until a report says that it is done. -/
def sweepEmissionPairs (rows : List (EmissionRow H D)) (query : PairCompactionQuery) :
    ℕ → Except CompactionError (List (EmissionRow H D) × List PairCompactionReport)
  | 0 => .ok (rows, [])
  | passes + 1 => do
    let (rows', report) ← compactEmissionPairs rows query
    if report.complete then return (rows', [report])
    let (rows'', reports) ← sweepEmissionPairs rows' query passes
    return (rows'', report :: reports)

/-- The dead rows below the floor, counted. -/
theorem length_reclaimableRows (rows : List (EmissionRow H D)) (floor : ℕ) :
    (reclaimableRows rows floor).length = (rows.filter (·.reclaimable floor)).length :=
  (List.perm_insertionSort _ _).length_eq

/-- What a call leaves: the dead rows below the floor less the candidates, and every other row. -/
theorem Orderly.left_over (h : Orderly numberOf rows) (floor maxPairs : ℕ) :
    ((rows.filter fun r => r.seq ∉ (candidatesOf rows floor maxPairs).map (·.seq)).filter (·.reclaimable floor)).length =
      (rows.filter (·.reclaimable floor)).length - maxPairs * 2 ∧
    (rows.filter fun r => r.seq ∉ (candidatesOf rows floor maxPairs).map (·.seq)).filter (!·.reclaimable floor) =
      rows.filter (!·.reclaimable floor) := by
  have hperm := List.perm_insertionSort (fun r r' : EmissionRow H D => r.scanKey ≤ r'.scanKey)
    (rows.filter (·.reclaimable floor))
  constructor
  · -- in the order of the scan the candidates come first
    have hsplit : reclaimableRows rows floor = candidatesOf rows floor maxPairs ++
        (reclaimableRows rows floor).drop (maxPairs * 2) := (List.take_append_drop _ _).symm
    have hseq : ((reclaimableRows rows floor).map (·.seq)).Nodup :=
      (hperm.map _).nodup_iff.2 (h.seq_nodup.sublist (List.filter_sublist.map _))
    rw [hsplit, List.map_append] at hseq
    have hrest : (reclaimableRows rows floor).filter (fun r => r.seq ∉ (candidatesOf rows floor maxPairs).map (·.seq)) =
        (reclaimableRows rows floor).drop (maxPairs * 2) := by
      conv_lhs => rw [hsplit]
      rw [List.filter_append, List.filter_eq_nil_iff.2 fun r hr => ?_, List.nil_append, List.filter_eq_self]
      · intro r hr
        rw [decide_eq_true_eq]
        exact fun hmem => List.disjoint_of_nodup_append hseq hmem (List.mem_map_of_mem hr)
      · simpa using List.mem_map_of_mem (f := fun r : EmissionRow H D => r.seq) hr
    rw [List.filter_filter]
    refine (congrArg List.length (List.filter_congr fun r _ => Bool.and_comm _ _)).trans ?_
    rw [← List.filter_filter, ← (hperm.filter _).length_eq, ← hperm.length_eq]
    show ((reclaimableRows rows floor).filter _).length = (reclaimableRows rows floor).length - maxPairs * 2
    rw [hrest, List.length_drop]
  · rw [List.filter_filter]
    refine List.filter_congr fun r hr => ?_
    cases hrec : r.reclaimable floor with
    | true => rfl
    | false =>
      rw [Bool.not_false, Bool.true_and, decide_eq_true_eq, h.mem_candidates_seq hr]
      intro hmem
      rw [(mem_of_mem_candidatesOf hmem).2] at hrec
      cases hrec

/-- **A sweep deletes every dead row below the floor and no other.** Each call but the last drops what
its budget allows, and the sweep ends after as many calls as the budget goes into the rows. -/
theorem sweep_all {blocks maxPairs passes : ℕ} (run : TableRun numberOf es rows)
    (hset : query.compaction = some (.blocks blocks)) (hfin : query.finality ≤ blocks)
    (hbudget : budgetOf query.maxPairs = .ok maxPairs)
    (hpasses : (rows.filter (·.reclaimable (query.latestBlock - blocks))).length / (maxPairs * 2) < passes) :
    ∃ reports, sweepEmissionPairs rows query passes =
        .ok (rows.filter (!·.reclaimable (query.latestBlock - blocks)), reports) ∧
      reports.length = (rows.filter (·.reclaimable (query.latestBlock - blocks))).length / (maxPairs * 2) + 1 ∧
      (reports.map (·.rowsDeleted)).sum = (rows.filter (·.reclaimable (query.latestBlock - blocks))).length ∧
      ∀ r ∈ reports.dropLast, r.rowsDeleted = maxPairs * 2 := by
  -- by induction on the calls: one call takes the budget off the dead rows
  induction passes generalizing rows with
  | zero => exact absurd hpasses (Nat.not_lt_zero _)
  | succ passes ih =>
    have h := run.onTable.orderly
    obtain ⟨rows', report, hcall⟩ := compact_ok rows hset hfin hbudget
    obtain ⟨-, hreport⟩ | ⟨blocks', maxPairs', hset', -, hbudget', hpos, hrows', hdel, hscan, hdone⟩ := h.call hcall
    · -- a query with a window is not off
      exfalso
      obtain ⟨-, hreport⟩ | ⟨_, _, _, _, _, _, _, _, _, hfloor, _⟩ := compact_cases hcall
      · unfold compactEmissionPairs resolvePairCompaction at hcall
        rw [hset, hbudget] at hcall
        simp only [not_lt.2 hfin, if_false] at hcall
        cases hcall
        cases hreport
      · rw [hreport] at hfloor
        cases hfloor
    rw [hset] at hset'
    cases hset'
    rw [hbudget] at hbudget'
    cases hbudget'
    set floor := query.latestBlock - blocks
    obtain ⟨hcount, hothers⟩ := h.left_over floor maxPairs
    rw [← hrows'] at hcount hothers
    have hcand : (candidatesOf rows floor maxPairs).length =
        min (maxPairs * 2) (rows.filter (·.reclaimable floor)).length := by
      unfold candidatesOf
      rw [List.length_take, length_reclaimableRows]
    set dead := (rows.filter (·.reclaimable floor)).length
    unfold sweepEmissionPairs
    rw [hcall]
    by_cases hlast : dead < maxPairs * 2
    · -- the scan reached the end of the candidates
      have hcomplete : report.complete = true := by
        rw [hdone, hscan, hcand, decide_eq_true_eq]
        omega
      have hnone : rows'.filter (·.reclaimable floor) = [] := List.length_eq_zero_iff.1 (by omega)
      have hleft : rows' = rows.filter (!·.reclaimable floor) := by
        rw [← hothers, eq_comm, List.filter_eq_self]
        intro r hr
        have hno := List.filter_eq_nil_iff.1 hnone r hr
        simpa using hno
      refine ⟨[report], ?_, ?_, ?_, by simp⟩
      · rw [← hleft]
        show (if report.complete = true then Except.ok (rows', [report]) else _) = _
        rw [if_pos hcomplete]
      · rw [Nat.div_eq_of_lt hlast]
        rfl
      · show report.rowsDeleted + 0 = dead
        rw [hdel, hscan, hcand]
        omega
    · have hfull : report.rowsDeleted = maxPairs * 2 := by
        rw [hdel, hscan, hcand]
        omega
      have hmore : report.complete = false := by
        rw [hdone, ← hdel, hfull, decide_eq_false_iff_not]
        omega
      have hquot : dead / (maxPairs * 2) = (dead - maxPairs * 2) / (maxPairs * 2) + 1 :=
        Nat.div_eq_sub_div (by omega) (by omega)
      obtain ⟨reports, hsweep, hlen, hsum, hall⟩ := ih (run.compact hcall) (by
        rw [hquot] at hpasses
        rw [hcount]
        exact Nat.lt_of_succ_lt_succ hpasses)
      refine ⟨report :: reports, ?_, ?_, ?_, fun r hr => ?_⟩
      · show (if report.complete = true then _ else _) = _
        rw [if_neg (by rw [hmore]; exact Bool.false_ne_true), hsweep, hothers]
        rfl
      · rw [List.length_cons, hlen, hcount, hquot]
      · rw [List.map_cons, List.sum_cons, hsum, hcount, hfull]
        omega
      · have hne : reports ≠ [] := List.ne_nil_of_length_pos (by rw [hlen]; exact Nat.succ_pos _)
        rw [List.dropLast_cons_of_ne_nil hne, List.mem_cons] at hr
        obtain rfl | hr := hr
        · exact hfull
        · exact hall r hr

theorem sweep_all_retractedThrice : ∃ reports,
    sweepEmissionPairs (tableOf retractedThrice) ⟨some (.blocks 12), 12, 20, some 1⟩ 4 =
      .ok ([⟨⟨8, 8, 0, false, ()⟩, 5, true⟩], reports) ∧ reports.length = 4 ∧ (reports.map (·.rowsDeleted)).sum = 6 := by
  obtain ⟨reports, hsweep, hlen, hsum, -⟩ := @sweep_all _ _ _ _ _ _ ⟨some (.blocks 12), 12, 20, some 1⟩ 12 1 4
    tableRun_retractedThrice rfl (by decide) rfl (by decide)
  exact ⟨reports, hsweep, hlen, hsum⟩

end Calls

end Etherfold
