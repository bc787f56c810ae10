import Etherfold.Server.StreamSeed

/-!
# The seed of a chain

A receiver appends a delta before its fold runs. Where the fold fails the cursor stays, and the next
batch derives its delta from it again, so that a log may be stored twice.

* `AppendRun`: what a deployment can have appended, folds that failed included.
* `NoneRepeated`: no append whose fold failed carries a log at or below the cut.
* `seed_exact`: **then the seed is the final chain**, whatever was read at a time and whatever was
  taken back; and without failed retractions only then.
-/

namespace Etherfold

open Ledger

variable {P H D : Type} {C : Chain H D} [DecidableEq H]

/-! ### What a deployment appends -/

/-- One append, and whether the fold of its delta went through. -/
structure StoredAppend (C : Chain H D) where
  cycle : Cycle C
  folded : Bool

/-- The cycles whose fold went through: those the cursor has seen. -/
def foldedCycles (as : List (StoredAppend C)) : List (Cycle C) := (as.filter (·.folded)).map (·.cycle)

/-- The stream that some appends leave. -/
def appendedStream (as : List (StoredAppend C)) : StoredStream H D := storedStream (deltas (as.map (·.cycle)))

/-- **The appends of a deployment.** Each derives its delta from the cursor of the last fold that went
through, and the view it reads follows that fold's. -/
inductive AppendRun (d f : ℕ) : List (StoredAppend C) → Prop
  | start : AppendRun d f []
  | append {as : List (StoredAppend C)} {v : View C} {b : ℕ} {r : Appended H D} {folded : Bool} (run : AppendRun d f as)
      (follows : ∀ k ∈ (foldedCycles as).getLast?, Follows f k.view v)
      (from_le : getFromBlock (cursorAfter (deltas (foldedCycles as))) d f ≤ b) (le_tip : b ≤ v.tip)
      (derived : generateStreamToAppend (cursorAfter (deltas (foldedCycles as))) d
        (v.getLogs (getFromBlock (cursorAfter (deltas (foldedCycles as))) d f) b)
        ⟨v.tip, getFromBlock (cursorAfter (deltas (foldedCycles as))) d f, b, f⟩ = .ok r) :
      AppendRun d f (as ++ [⟨⟨v, b, r⟩, folded⟩])

/-- **No append whose fold failed, the last one aside, carries a log at or below the cut.** -/
def NoneRepeated (as : List (StoredAppend C)) (cut : ℕ) : Prop :=
  ∀ a ∈ as.dropLast, a.folded = false → ∀ e ∈ a.cycle.appended.eventStream, cut < e.blockNumber

/-- The logs of a block come in the order of their numbers. -/
def LogsInOrder (C : Chain H D) : Prop := ∀ x, (C.logsOf x).Pairwise fun e e' => e.logIndex < e'.logIndex

variable {d f cut : ℕ} {as init : List (StoredAppend C)} {last : StoredAppend C} {ks : List (Cycle C)}

omit [DecidableEq H] in
theorem foldedCycles_concat (as : List (StoredAppend C)) (a : StoredAppend C) :
    foldedCycles (as ++ [a]) = foldedCycles as ++ if a.folded then [a.cycle] else [] := by
  unfold foldedCycles
  rw [List.filter_append, List.map_append, List.filter_singleton]
  cases a.folded <;> rfl

/-- The folds that went through are a run, and so they are with the last append, whether its fold did
or not. -/
theorem AppendRun.runs (h : AppendRun d f as) : Run d f (foldedCycles as) ∧
    ∀ init last, as = init ++ [last] → Run d f (foldedCycles init ++ [last.cycle]) := by
  induction h with
  | start => exact ⟨.start, fun init last heq => by simp at heq⟩
  | @append as v b r folded run follows from_le le_tip derived ih =>
    have hrun : Run d f (foldedCycles as ++ [⟨v, b, r⟩]) := .cycle ih.1 follows from_le le_tip derived
    refine ⟨?_, fun init last heq => ?_⟩
    · rw [foldedCycles_concat]
      cases folded with
      | true => exact hrun
      | false =>
        rw [if_neg Bool.false_ne_true, List.append_nil]
        exact ih.1
    · obtain ⟨rfl, hlast⟩ := List.append_inj' heq rfl
      rw [List.singleton_inj] at hlast
      rw [← hlast]
      exact hrun

/-- Whatever is appended are entries of blocks, from the start block on. -/
theorem AppendRun.emits (h : AppendRun d f as) : ∀ a ∈ as, ∃ ops : List (Op H),
    a.cycle.appended.eventStream = ops.flatMap C.emit ∧ ∀ o ∈ ops, d ≤ C.numberOf o.key := by
  induction h with
  | start => simp
  | @append as v b r folded run follows from_le le_tip derived ih =>
    intro a ha
    rcases List.mem_append.1 ha with ha | ha
    · exact ih a ha
    · rw [List.mem_singleton] at ha
      obtain ⟨ops, ws, inv⟩ := run_state run.runs.1
      refine ⟨_, by rw [ha]; exact (inv.step rfl follows from_le le_tip derived).1, fun o ho => ?_⟩
      have hd := getFromBlock_ge (cursorAfter (deltas (foldedCycles as))) d f
      have hfrom := (delta_named inv.tracked le_tip o ho).2
      omega

omit [DecidableEq H] in
theorem appendedStream_rows (as : List (StoredAppend C)) :
    (appendedStream as).rows = as.flatMap fun a => a.cycle.appended.eventStream := by
  unfold appendedStream
  rw [storedStream_rows, emitted, deltas, List.map_map, List.flatMap_map]
  rfl

theorem AppendRun.heights (h : AppendRun d f as) :
    ∀ e ∈ (appendedStream as).rows, e.blockNumber = C.numberOf e.blockHash ∧ d ≤ e.blockNumber := by
  intro e he
  rw [appendedStream_rows] at he
  obtain ⟨a, ha, he⟩ := List.mem_flatMap.1 he
  obtain ⟨ops, hops, hfrom⟩ := h.emits a ha
  rw [hops] at he
  obtain ⟨o, ho, he⟩ := List.mem_flatMap.1 he
  rw [Chain.emit_number he, Chain.emit_hash he]
  exact ⟨rfl, hfrom o ho⟩

omit [DecidableEq H] in
theorem appendedStream_concat (as : List (StoredAppend C)) (a : StoredAppend C) :
    appendedStream (as ++ [a]) = (appendedStream as).append a.cycle.appended := by
  unfold appendedStream storedStream
  rw [List.map_append, List.map_singleton, deltas_concat, List.foldl_append]
  rfl

/-- The stream is claimed from the start block, up to where the last append read. -/
theorem AppendRun.coverage (h : AppendRun d f as) : ∀ last ∈ as.getLast?, ∃ coverage,
    (appendedStream as).coverage = some coverage ∧ coverage.startBlock = d ∧
      coverage.lastToBlock = last.cycle.toBlock := by
  induction h with
  | start => simp
  | @append as v b r folded run follows from_le le_tip derived ih =>
    intro last hlast
    rw [List.getLast?_concat, Option.mem_some_iff] at hlast
    obtain ⟨hfrom, -, hto⟩ := generate_sync derived
    rw [appendedStream_concat, ← hlast]
    refine ⟨_, rfl, ?_, hto⟩
    show ((appendedStream as).coverage.map (·.startBlock)).getD r.newLastSync.lastFromBlock = d
    rcases as.eq_nil_or_concat with rfl | ⟨as, a, rfl⟩
    · rw [show (appendedStream ([] : List (StoredAppend C))).coverage = none from rfl, Option.map_none, Option.getD_none, hfrom]
      rfl
    · rw [List.concat_eq_append] at ih ⊢
      obtain ⟨coverage, hcoverage, hstart, -⟩ := ih a (by simp)
      rw [hcoverage, Option.map_some, Option.getD_some, hstart]

/-! ### What stays of the stream -/

omit [DecidableEq H] in
/-- Where no failed fold left an entry, the entries are those of the folds that went through. -/
theorem folded_rows {p : LogEvent H D → Bool}
    (h : ∀ a ∈ as, a.folded = false → ∀ e ∈ a.cycle.appended.eventStream, p e = false) :
    (as.flatMap fun a => a.cycle.appended.eventStream).filter p = (emitted (deltas (foldedCycles as))).filter p := by
  induction as with
  | nil => rfl
  | cons a as ih =>
    have hrest := ih fun a' ha' => h a' (List.mem_cons_of_mem _ ha')
    rw [List.flatMap_cons, List.filter_append, hrest]
    cases hfolded : a.folded with
    | true =>
      have hcons : foldedCycles (a :: as) = a.cycle :: foldedCycles as := by
        unfold foldedCycles
        rw [List.filter_cons, hfolded]
        rfl
      rw [hcons, ← List.filter_append]
      rfl
    | false =>
      have hcons : foldedCycles (a :: as) = foldedCycles as := by
        unfold foldedCycles
        rw [List.filter_cons, hfolded]
        rfl
      have hnone : a.cycle.appended.eventStream.filter p = [] := by
        rw [List.filter_eq_nil_iff]
        intro e he
        rw [h a List.mem_cons_self hfolded e he]
        exact Bool.false_ne_true
      rw [hcons, hnone, List.nil_append]

variable {parent : H → H}

/-- What stays of a run up to the cut is the chain. -/
theorem RunState.stays {ops : List (Op H)} {ws : List H} {k : Cycle C} (inv : RunState d f ks ops ws)
    (hgrounded : Grounded C parent d ops) (hk : k ∈ ks.getLast?) (hlink : k.view.Linked parent) (hcut : cut ≤ k.toBlock) :
    cancel LogEvent.op ((emitted (deltas ks)).filter fun e => decide (e.blockNumber ≤ cut)) =
      (k.view.getLogs d cut).map fun e => (e, true) := by
  have hheight : ∀ e ∈ ops.flatMap C.emit, e.blockNumber = C.numberOf e.blockHash := by
    intro e he
    obtain ⟨o, -, he⟩ := List.mem_flatMap.1 he
    rw [Chain.emit_number he, Chain.emit_hash he]
  have hlegal : Legal ∅ ((ops.flatMap C.emit).map LogEvent.op) := by
    have hexpand := legal_expand C.logKeys_apart C.logKeys_nodup inv.legal
    rwa [parts_empty, ← Chain.map_op_emit] at hexpand
  have hlogs : ∀ y, ∀ e ∈ C.logsOf y, decide (e.blockNumber ≤ cut) = decide (C.numberOf y ≤ cut) := by
    intro y e he
    rw [C.log_number y e he]
  have hall := cancel_heights (s := ⟨none, ops.flatMap C.emit⟩) hheight 0 cut
  simp only [Nat.zero_le, decide_true, Bool.true_and] at hall
  rw [inv.stream, hall, cancel_legal hlegal, survivors_emit, List.filter_map, View.getLogs_eq,
    ← standing_eq inv hgrounded hk hlink hcut, ← filter_logs hlogs]
  rfl

theorem AppendRun.le_tip (h : AppendRun d f (init ++ [last])) : last.cycle.toBlock ≤ last.cycle.view.tip := by
  obtain ⟨ops, ws, inv⟩ := run_state (h.runs.2 init last rfl)
  exact (inv.cursor last.cycle (by simp)).2.2.2

/-- What stays of the folds that went through, and of the last append. -/
theorem AppendRun.folds_stay (h : AppendRun d f (init ++ [last]))
    (hlink : ∀ a ∈ init ++ [last], a.cycle.view.Linked parent) (hcut : cut ≤ last.cycle.toBlock) :
    cancel LogEvent.op ((emitted (deltas (foldedCycles init ++ [last.cycle]))).filter fun e => decide (e.blockNumber ≤ cut)) =
      (last.cycle.view.getLogs d cut).map fun e => (e, true) := by
  have hlinks : ∀ k ∈ foldedCycles init ++ [last.cycle], k.view.Linked parent := by
    intro k hk
    rcases List.mem_append.1 hk with hk | hk
    · obtain ⟨a, ha, rfl⟩ := List.mem_map.1 hk
      exact hlink a (List.mem_append_left _ (List.mem_filter.1 ha).1)
    · rw [List.mem_singleton] at hk
      exact hk ▸ hlink last (by simp)
  obtain ⟨ops, ws, inv, hgrounded⟩ := run_grounded (h.runs.2 init last rfl) hlinks
  exact inv.stays hgrounded (by simp) (hlink last (by simp)) hcut

/-- **What stays of the stream up to the cut is the chain.** -/
theorem AppendRun.stays (h : AppendRun d f (init ++ [last])) (hnone : NoneRepeated (init ++ [last]) cut)
    (hlink : ∀ a ∈ init ++ [last], a.cycle.view.Linked parent) (hcut : cut ≤ last.cycle.toBlock) :
    (cancel LogEvent.op (appendedStream (init ++ [last])).rows).filter (fun q => decide (q.1.blockNumber ≤ cut)) =
      (last.cycle.view.getLogs d cut).map fun e => (e, true) := by
  -- the entries up to the cut are those of a run
  have hrows : (appendedStream (init ++ [last])).rows.filter (fun e => decide (e.blockNumber ≤ cut)) =
      (emitted (deltas (foldedCycles init ++ [last.cycle]))).filter fun e => decide (e.blockNumber ≤ cut) := by
    rw [appendedStream_rows, List.flatMap_append, List.filter_append, folded_rows, deltas_concat,
      emitted_concat, List.filter_append, List.flatMap_singleton]
    intro a ha hfolded e he
    rw [decide_eq_false_iff_not]
    have := hnone a (by rwa [List.dropLast_concat]) hfolded e he
    omega
  have hall := cancel_heights (fun e he => (h.heights e he).1) 0 cut
  simp only [Nat.zero_le, decide_true, Bool.true_and] at hall
  rw [← hall, hrows]
  exact h.folds_stay hlink hcut

/-! ### The seed -/

omit [DecidableEq H] in
/-- The logs of a view come in order. -/
theorem getLogs_ordered {v : View C} (hlogs : LogsInOrder C) {a b : ℕ} (hb : b ≤ v.tip) :
    (v.getLogs a b).Pairwise fun e e' =>
      e.blockNumber < e'.blockNumber ∨
        e.blockNumber = e'.blockNumber ∧ e.blockHash = e'.blockHash ∧ e.logIndex < e'.logIndex := by
  rw [View.getLogs_eq, List.pairwise_flatMap]
  constructor
  · intro x _
    apply (hlogs x).imp_of_mem
    intro e e' he he' hlt
    rw [C.log_number x e he, C.log_number x e' he', C.log_hash x e he, C.log_hash x e' he']
    exact .inr ⟨rfl, rfl, hlt⟩
  · apply (View.bearing_sorted hb).imp
    intro x y hlt e he e' he'
    rw [C.log_number x e he, C.log_number y e' he']
    exact .inl hlt

omit [DecidableEq H] in
theorem mem_getLogs_log {v : View C} {a b : ℕ} (hb : b ≤ v.tip) {e : LogEvent H D} (he : e ∈ v.getLogs a b) :
    a ≤ e.blockNumber ∧ e.blockNumber ≤ b ∧ e.blockNumber = C.numberOf e.blockHash ∧ e.removed = false := by
  rw [View.getLogs_eq] at he
  obtain ⟨x, hx, he⟩ := List.mem_flatMap.1 he
  obtain ⟨-, hge, hle⟩ := (View.mem_bearing hb).1 hx
  rw [C.log_number x e he, C.log_hash x e he]
  exact ⟨hge, hle, rfl, C.log_live x e he⟩

/-- **The seed is the final chain and nothing else**: the logs of the view between the start block and
the cut, each once, none taken back, in order, so that an install finds no contradiction in it. -/
structure SeedExact (seed : StreamSeed P H D) (v : View C) (d cut : ℕ) : Prop where
  covers : seed.coverage = ⟨d, cut⟩
  events : seed.eventStream = (v.getLogs d cut).map LogEvent.stored
  coherent : Coherent seed
  admitted : incoherenceOf seed = none

theorem seedExact_of_events {v : View C} {seed : StreamSeed P H D} (hlogs : LogsInOrder C) (hcut : cut ≤ v.tip)
    (hcovers : seed.coverage = ⟨d, cut⟩) (hevents : seed.eventStream = (v.getLogs d cut).map LogEvent.stored) :
    SeedExact seed v d cut := by
  have hcoherent : Coherent seed := by
    constructor
    · intro e he
      rw [hevents] at he
      obtain ⟨log, -, rfl⟩ := List.mem_map.1 he
      exact ⟨rfl, rfl, rfl⟩
    · intro e he
      rw [hevents] at he
      obtain ⟨log, hlog, rfl⟩ := List.mem_map.1 he
      obtain ⟨hge, hle, -⟩ := mem_getLogs_log hcut hlog
      rw [hcovers]
      simp only [LogEvent.stored, SeedEvent.number, Option.getD_some]
      omega
    · intro e he
      rw [hevents] at he
      obtain ⟨log, hlog, rfl⟩ := List.mem_map.1 he
      exact (mem_getLogs_log hcut hlog).2.2.2
    · rw [hevents, List.pairwise_map]
      apply (getLogs_ordered hlogs hcut).imp
      intro e e' hlt
      simp only [LogEvent.stored, SeedEvent.number, Option.getD_some, Option.some.injEq]
      rcases hlt with hlt | ⟨hnumber, hhash, hindex⟩
      · left
        omega
      · exact .inr ⟨by omega, hhash, by omega⟩
  refine ⟨hcovers, hevents, hcoherent, incoherenceOf_none hcoherent ?_ ?_⟩
  · rw [hcovers]
    exact Int.natCast_nonneg d
  · intro e he e' he' hhash
    rw [hevents] at he he'
    obtain ⟨log, hlog, rfl⟩ := List.mem_map.1 he
    obtain ⟨log', hlog', rfl⟩ := List.mem_map.1 he'
    have hsame : log.blockHash = log'.blockHash := by simpa [LogEvent.stored] using hhash
    simp only [LogEvent.stored, SeedEvent.number, Option.getD_some]
    rw [(mem_getLogs_log hcut hlog).2.2.1, (mem_getLogs_log hcut hlog').2.2.1, hsame]

section Produce

variable {digestOf : List Text → UsedStreamConfig P → Text} {configHashOf : UsedStreamConfig P → Text}
  {sourceHashes : List SourceHashEntry} {stream producer : Text} {streamConfig : UsedStreamConfig P} {tip readBudget : ℕ}

/-- **A seed is produced**: its events are the entries up to the cut, less what is taken back. -/
theorem AppendRun.produces (h : AppendRun d f (init ++ [last])) (hcut : cut ≤ last.cycle.toBlock)
    (hrecorded : sourceHashes.any (·.streamHash.isNone) = false)
    (hstream : streamDigestOfSourceHashes digestOf sourceHashes streamConfig = stream) : ∃ seed events,
      produceStreamSeed digestOf configHashOf (appendedStream (init ++ [last])) sourceHashes stream producer streamConfig
        tip cut readBudget = .ok seed ∧
      seed.coverage = ⟨d, cut⟩ ∧ seed.eventStream = ((cancel LogEvent.op events).map Prod.fst).map LogEvent.stored ∧
      events.Perm ((appendedStream (init ++ [last])).rows.filter fun e => decide (e.blockNumber ≤ cut)) ∧
      ((((cancel LogEvent.op (appendedStream (init ++ [last])).rows).filter fun q =>
          decide (q.1.blockNumber ≤ cut)).Pairwise fun q q' => q.1.blockNumber ≤ q'.1.blockNumber) →
        cancel LogEvent.op events =
          (cancel LogEvent.op (appendedStream (init ++ [last])).rows).filter fun q => decide (q.1.blockNumber ≤ cut)) := by
  obtain ⟨coverage, hcoverage, hstart, hto⟩ := h.coverage last (by simp)
  obtain ⟨events, hread, hperm, hcancel⟩ := @readStoredStreamUpTo_ok _ _ _ C _ _ cut readBudget d hcoverage
    hstart.le (by omega)
  have hfrom : ∀ e ∈ (appendedStream (init ++ [last])).rows, decide (d ≤ e.blockNumber) = true :=
    fun e he => decide_eq_true (h.heights e he).2
  have hrows : (appendedStream (init ++ [last])).rows.filter (fun e => decide (d ≤ e.blockNumber) && decide (e.blockNumber ≤ cut)) =
      (appendedStream (init ++ [last])).rows.filter fun e => decide (e.blockNumber ≤ cut) := by
    apply List.filter_congr
    intro e he
    rw [hfrom e he, Bool.true_and]
  have hstays : (cancel LogEvent.op (appendedStream (init ++ [last])).rows).filter (fun q =>
        decide (d ≤ q.1.blockNumber) && decide (q.1.blockNumber ≤ cut)) =
      (cancel LogEvent.op (appendedStream (init ++ [last])).rows).filter fun q => decide (q.1.blockNumber ≤ cut) := by
    apply List.filter_congr
    intro q hq
    rw [hfrom q.1 (mem_cancel hq), Bool.true_and]
  rw [hrows] at hperm
  rw [hstays] at hcancel
  have hproduced : ∃ seed, produceStreamSeed digestOf configHashOf (appendedStream (init ++ [last])) sourceHashes stream
      producer streamConfig tip cut readBudget = .ok seed ∧ seed.coverage = ⟨d, cut⟩ ∧
        seed.eventStream = (dropRetractedPairs events).map LogEvent.stored := by
    unfold produceStreamSeed
    rw [hcoverage]
    dsimp only
    rw [if_neg (by omega), if_neg (by rw [hrecorded]; exact Bool.false_ne_true), if_neg (not_not.2 hstream), hstart, hread]
    exact ⟨_, rfl, rfl, rfl⟩
  obtain ⟨seed, hseed, hcovers, hevents⟩ := hproduced
  refine ⟨seed, events, hseed, hcovers, ?_, hperm, hcancel fun e he => (h.heights e he).1⟩
  rw [hevents, dropRetractedPairs_eq]

/-- **Where no failed fold left a log below the cut the seed is the final chain.** -/
theorem AppendRun.exact (h : AppendRun d f (init ++ [last])) (hlogs : LogsInOrder C)
    (hlink : ∀ a ∈ init ++ [last], a.cycle.view.Linked parent) (hcut : cut ≤ last.cycle.toBlock)
    (hrecorded : sourceHashes.any (·.streamHash.isNone) = false)
    (hstream : streamDigestOfSourceHashes digestOf sourceHashes streamConfig = stream)
    (hnone : NoneRepeated (init ++ [last]) cut) : ∃ seed,
      produceStreamSeed digestOf configHashOf (appendedStream (init ++ [last])) sourceHashes stream producer streamConfig
        tip cut readBudget = .ok seed ∧ SeedExact seed last.cycle.view d cut := by
  obtain ⟨seed, events, hseed, hcovers, hevents, -, hcancel⟩ := @AppendRun.produces P _ _ _ _ _ _ _ _ _ digestOf configHashOf
    sourceHashes stream producer streamConfig tip readBudget h hcut hrecorded hstream
  have htip := h.le_tip
  rw [h.stays hnone hlink hcut] at hcancel
  refine ⟨seed, hseed, seedExact_of_events hlogs (by omega) hcovers ?_⟩
  rw [hevents, hcancel, List.map_map, List.map_map]
  · rfl
  · rw [List.pairwise_map]
    apply (getLogs_ordered hlogs (by omega)).imp
    intro e e' hlt
    rcases hlt with hlt | ⟨heq, -⟩
    · exact hlt.le
    · exact heq.le

omit [DecidableEq H] in
theorem stored_injective : Function.Injective (LogEvent.stored : LogEvent H D → SeedEvent H D) := by
  intro e e' h
  obtain ⟨hash, number, index, removed, data⟩ := e
  obtain ⟨hash', number', index', removed', data'⟩ := e'
  simp only [LogEvent.stored, SeedEvent.mk.injEq, Option.some.injEq, Nat.cast_inj] at h
  simp only [LogEvent.mk.injEq]
  tauto

/-- The entries that failed folds left. -/
def failedRows (as : List (StoredAppend C)) : List (LogEvent H D) :=
  (as.filter (!·.folded)).flatMap fun a => a.cycle.appended.eventStream

omit [DecidableEq H] in
/-- The stream is what the folds took, and what failed folds left. -/
theorem rows_perm (init : List (StoredAppend C)) (last : StoredAppend C) : (appendedStream (init ++ [last])).rows.Perm
    (emitted (deltas (foldedCycles init ++ [last.cycle])) ++ failedRows init) := by
  have hinit : (init.flatMap fun a => a.cycle.appended.eventStream).Perm
      (emitted (deltas (foldedCycles init)) ++ failedRows init) := by
    have hsplit := (List.filter_append_perm (fun a : StoredAppend C => a.folded) init).symm.flatMap_right
      fun a => a.cycle.appended.eventStream
    rw [List.flatMap_append] at hsplit
    have hfolded : emitted (deltas (foldedCycles init)) =
        (init.filter (·.folded)).flatMap fun a => a.cycle.appended.eventStream := by
      unfold emitted deltas foldedCycles
      rw [List.map_map, List.flatMap_map]
      rfl
    rw [hfolded]
    exact hsplit
  rw [appendedStream_rows, List.flatMap_append, List.flatMap_singleton, deltas_concat, emitted_concat, List.append_assoc]
  refine (hinit.append_right _).trans ?_
  rw [List.append_assoc]
  exact List.perm_append_comm.append_left _

/-- **Where failed folds left additions only, a seed that is the final chain has none of them.** -/
theorem AppendRun.none_of_exact (h : AppendRun d f (init ++ [last]))
    (hlink : ∀ a ∈ init ++ [last], a.cycle.view.Linked parent) (hcut : cut ≤ last.cycle.toBlock)
    (hrecorded : sourceHashes.any (·.streamHash.isNone) = false)
    (hstream : streamDigestOfSourceHashes digestOf sourceHashes streamConfig = stream)
    (hadds : ∀ a ∈ init, a.folded = false → ∀ e ∈ a.cycle.appended.eventStream, e.blockNumber ≤ cut → e.removed = false)
    {seed : StreamSeed P H D}
    (hseed : produceStreamSeed digestOf configHashOf (appendedStream (init ++ [last])) sourceHashes stream producer
      streamConfig tip cut readBudget = .ok seed)
    (hexact : SeedExact seed last.cycle.view d cut) : NoneRepeated (init ++ [last]) cut := by
  obtain ⟨seed', events, hseed', -, hevents, hperm, -⟩ := @AppendRun.produces P _ _ _ _ _ _ _ _ _ digestOf configHashOf
    sourceHashes stream producer streamConfig tip readBudget h hcut hrecorded hstream
  obtain rfl : seed = seed' := by rwa [hseed, Except.ok.injEq] at hseed'
  have hkept : (cancel LogEvent.op events).map Prod.fst = last.cycle.view.getLogs d cut := by
    rw [hexact.events] at hevents
    exact (List.map_injective_iff.2 stored_injective hevents).symm
  -- the stream counts for each log as the chain does, and so does the run
  have hnet : ∀ x, net x (((appendedStream (init ++ [last])).rows.filter fun e => decide (e.blockNumber ≤ cut)).map LogEvent.op) =
      net x ((last.cycle.view.getLogs d cut).map LogEvent.op) := by
    intro x
    rw [← net_perm (hperm.map LogEvent.op), ← net_cancel, ← hkept, List.map_map]
    rfl
  have hrun : ∀ x, net x (((emitted (deltas (foldedCycles init ++ [last.cycle]))).filter fun e =>
        decide (e.blockNumber ≤ cut)).map LogEvent.op) = net x ((last.cycle.view.getLogs d cut).map LogEvent.op) := by
    intro x
    rw [← net_cancel, h.folds_stay hlink hcut, List.map_map]
    rfl
  have hzero : ∀ x, net x (((failedRows init).filter fun e => decide (e.blockNumber ≤ cut)).map LogEvent.op) = 0 := by
    intro x
    have hsplit := net_perm (x := x) (((rows_perm init last).filter fun e => decide (e.blockNumber ≤ cut)).map LogEvent.op)
    rw [List.filter_append, List.map_append, net_append, hnet, hrun] at hsplit
    omega
  intro a ha hfolded e he
  rw [List.dropLast_concat] at ha
  by_contra hle
  have hop : ∀ e' : LogEvent H D, e'.removed = false → e'.op = .add e'.op.key := by
    intro e' he'
    unfold LogEvent.op
    rw [he']
    rfl
  have hin : e ∈ (failedRows init).filter fun e => decide (e.blockNumber ≤ cut) :=
    List.mem_filter.2 ⟨List.mem_flatMap.2 ⟨a, List.mem_filter.2 ⟨ha, by simp [hfolded]⟩, he⟩, decide_eq_true (by omega)⟩
  have hpos : 0 < net e.op.key (((failedRows init).filter fun e => decide (e.blockNumber ≤ cut)).map LogEvent.op) := by
    apply net_pos
    · intro o ho
      obtain ⟨e', he', rfl⟩ := List.mem_map.1 ho
      obtain ⟨he', hcut'⟩ := List.mem_filter.1 he'
      obtain ⟨a', ha', he'⟩ := List.mem_flatMap.1 he'
      obtain ⟨ha', hfolded'⟩ := List.mem_filter.1 ha'
      exact hop e' (hadds a' ha' (by simpa using hfolded') e' he' (of_decide_eq_true hcut'))
    · rw [← hop e (hadds a ha hfolded e he (by omega))]
      exact List.mem_map.2 ⟨e, hin, rfl⟩
  rw [hzero] at hpos
  exact lt_irrefl _ hpos

omit [DecidableEq H] in
/-- Views that agree on a range have the same logs there. -/
theorem getLogs_congr {v v' : View C} {a b : ℕ} (h : ∀ n, a ≤ n → n ≤ b → v'.hashAt n = v.hashAt n) :
    v'.getLogs a b = v.getLogs a b := by
  unfold View.getLogs
  rw [List.flatMap_def, List.flatMap_def]
  congr 1
  apply List.map_congr_left
  intro n hn
  rw [List.mem_range'_1] at hn
  rw [h n hn.1 (by omega)]

/-- **The published seed.** Where no fold that failed after its append left a log at or below the cut,
the seed is the final chain and nothing else, whatever was taken back and however it is read, and two
such deployments of one chain publish the same events. Where failed folds took nothing back, the seed
is the final chain only then. -/
theorem seed_exact (h : AppendRun d f (init ++ [last])) (hlogs : LogsInOrder C)
    (hlink : ∀ a ∈ init ++ [last], a.cycle.view.Linked parent) (hcut : cut ≤ last.cycle.toBlock - f)
    (hrecorded : sourceHashes.any (·.streamHash.isNone) = false)
    (hstream : streamDigestOfSourceHashes digestOf sourceHashes streamConfig = stream) :
    (NoneRepeated (init ++ [last]) cut →
      (∃ seed, produceStreamSeed digestOf configHashOf (appendedStream (init ++ [last])) sourceHashes stream producer
        streamConfig tip cut readBudget = .ok seed ∧ SeedExact seed last.cycle.view d cut) ∧
      ∀ (init' : List (StoredAppend C)) (last' : StoredAppend C) (producer' : Text) (tip' readBudget' : ℕ) (seed seed' : StreamSeed P H D),
        AppendRun d f (init' ++ [last']) → (∀ a ∈ init' ++ [last'], a.cycle.view.Linked parent) →
        cut ≤ last'.cycle.toBlock - f → NoneRepeated (init' ++ [last']) cut →
        (∀ n, d ≤ n → n ≤ cut → last'.cycle.view.hashAt n = last.cycle.view.hashAt n) →
        produceStreamSeed digestOf configHashOf (appendedStream (init ++ [last])) sourceHashes stream producer
          streamConfig tip cut readBudget = .ok seed →
        produceStreamSeed digestOf configHashOf (appendedStream (init' ++ [last'])) sourceHashes stream producer'
          streamConfig tip' cut readBudget' = .ok seed' →
        seed'.eventStream = seed.eventStream) ∧
    ((∀ a ∈ init, a.folded = false → ∀ e ∈ a.cycle.appended.eventStream, e.blockNumber ≤ cut → e.removed = false) →
      ∀ seed, produceStreamSeed digestOf configHashOf (appendedStream (init ++ [last])) sourceHashes stream producer
        streamConfig tip cut readBudget = .ok seed → SeedExact seed last.cycle.view d cut → NoneRepeated (init ++ [last]) cut) := by
  constructor
  · intro hnone
    obtain ⟨exact, hproduced, hexact⟩ := @AppendRun.exact P _ _ _ _ _ _ _ _ _ _ digestOf configHashOf sourceHashes stream
      producer streamConfig tip readBudget h hlogs hlink (by omega) hrecorded hstream hnone
    refine ⟨⟨exact, hproduced, hexact⟩, ?_⟩
    intro init' last' producer' tip' readBudget' seed seed' h' hlink' hcut' hnone' hsame hseed hseed'
    obtain ⟨exact', hproduced', hexact'⟩ := @AppendRun.exact P _ _ _ _ _ _ _ _ _ _ digestOf configHashOf sourceHashes stream
      producer' streamConfig tip' readBudget' h' hlogs hlink' (by omega) hrecorded hstream hnone'
    rw [hproduced, Except.ok.injEq] at hseed
    rw [hproduced', Except.ok.injEq] at hseed'
    rw [← hseed, ← hseed', hexact.events, hexact'.events, getLogs_congr hsame]
  · intro hadds seed hseed hexact
    exact h.none_of_exact hlink (by omega) hrecorded hstream hadds hseed hexact

end Produce

/-! ### A delta that is appended twice -/

/-- Blocks with one log each: a chain, a fork above block `3`, and block `3` alone. -/
abbrev forkChain : Chain ℕ Unit := .oneLog (· % 100) fun x => decide (x ∈ [1, 4, 5, 104, 107])

/-- The block below. -/
def parentOf (x : ℕ) : ℕ := if x = 104 then 3 else x - 1

def mainView : View forkChain := ⟨5, id, by decide⟩

def forkView : View forkChain := ⟨7, fun n => if 4 ≤ n then 100 + n else n, by decide⟩

/-- The batch that is derived again where its fold fails. -/
def mainBatch (folded : Bool) : StoredAppend forkChain :=
  ⟨⟨mainView, 5, ⟨[⟨1, 1, 0, false, ()⟩, ⟨4, 4, 0, false, ()⟩, ⟨5, 5, 0, false, ()⟩],
    ⟨0, 5, 5, [⟨4, 4, [⟨4, 4, 0, false, ()⟩]⟩, ⟨5, 5, [⟨5, 5, 0, false, ()⟩]⟩]⟩, none⟩⟩, folded⟩

/-- The batch above the fork, whose fold fails and which is then derived again. -/
def forkRetry (folded : Bool) : StoredAppend forkChain :=
  ⟨⟨forkView, 7, ⟨[⟨107, 7, 0, false, ()⟩], ⟨5, 7, 7, [⟨107, 7, [⟨107, 7, 0, false, ()⟩]⟩]⟩, none⟩⟩, folded⟩

/-- A reorg below the cut, and an append above it whose fold failed. -/
def forkAppends : List (StoredAppend forkChain) :=
  [mainBatch true,
    ⟨⟨forkView, 5, ⟨[⟨4, 4, 0, true, ()⟩, ⟨5, 5, 0, true, ()⟩, ⟨104, 4, 0, false, ()⟩], ⟨3, 7, 5, []⟩,
      some ⟨.contradiction, 4, 4⟩⟩⟩, true⟩,
    forkRetry false]

theorem forkView_follows : Follows 2 mainView forkView := by
  refine ⟨by decide, fun n hn => ?_⟩
  have hlow : n + 2 < 5 := hn
  simp only [forkView, mainView, id]
  rw [if_neg (by omega)]

theorem forkAppends_run : AppendRun 0 2 (forkAppends ++ [forkRetry true]) := by
  have h1 : AppendRun 0 2 (forkAppends.take 1) := .append .start (by simp [foldedCycles]) (by decide) (by decide) (by rfl)
  have h2 : AppendRun 0 2 (forkAppends.take 2) := by
    refine .append h1 ?_ (by decide) (by decide) (by rfl)
    intro k hk
    obtain rfl : _ = k := by simpa [forkAppends, mainBatch, foldedCycles] using hk
    exact forkView_follows
  have hsame : Follows 2 forkView forkView := ⟨le_rfl, fun n _ => rfl⟩
  have h3 : AppendRun 0 2 forkAppends := by
    refine .append h2 ?_ (by decide) (by decide) (by rfl)
    intro k hk
    obtain rfl : _ = k := by simpa [forkAppends, mainBatch, foldedCycles] using hk
    exact hsame
  refine .append h3 ?_ (by decide) (by decide) (by rfl)
  intro k hk
  obtain rfl : _ = k := by simpa [forkAppends, forkRetry, foldedCycles] using hk
  exact hsame

theorem forkViews_linked : mainView.Linked parentOf ∧ forkView.Linked parentOf := by
  constructor <;> unfold View.Linked <;> decide

/-- The digest the appends are filed under, and the seed of some appends. -/
def plainStream : Text := streamDigestOfSourceHashes plainDigest (sourceHashesOf plainSource) ⟨2, ()⟩

def plainProduce (as : List (StoredAppend forkChain)) (tip cut readBudget : ℕ) :
    Except PublicationRefusal (StreamSeed Unit ℕ Unit) :=
  produceStreamSeed plainDigest (fun _ => [7]) (appendedStream as) (sourceHashesOf plainSource) plainStream [] ⟨2, ()⟩
    tip cut readBudget

theorem forkChain_inOrder : LogsInOrder forkChain := by
  intro x
  unfold forkChain Chain.oneLog
  dsimp only
  split <;> simp

theorem seed_exact_forked : ∃ seed, plainProduce (forkAppends ++ [forkRetry true]) 7 5 1 = .ok seed ∧
    seed.eventStream = [⟨some 1, some 0, some 1, false, ()⟩, ⟨some 4, some 0, some 104, false, ()⟩] ∧
      incoherenceOf seed = none := by
  have hlinked : ∀ a ∈ forkAppends ++ [forkRetry true], a.cycle.view.Linked parentOf := by
    intro a ha
    simp only [forkAppends, forkRetry, mainBatch, List.mem_append, List.mem_cons, List.not_mem_nil, or_false] at ha
    rcases ha with (rfl | rfl | rfl) | rfl
    · exact forkViews_linked.1
    · exact forkViews_linked.2
    · exact forkViews_linked.2
    · exact forkViews_linked.2
  have hnone : NoneRepeated (forkAppends ++ [forkRetry true]) 5 := by
    unfold NoneRepeated
    decide
  have hrecorded : (sourceHashesOf plainSource).any (·.streamHash.isNone) = false := by decide
  obtain ⟨⟨seed, hseed, hexact⟩, -⟩ := (seed_exact forkAppends_run forkChain_inOrder hlinked (by decide) hrecorded rfl).1 hnone
  exact ⟨seed, hseed, hexact.events.trans (by decide), hexact.admitted⟩

/-- A batch whose fold failed is stored twice, and so are its logs in the seed, which an install
refuses. -/
theorem seed_repeated : AppendRun 0 2 ([mainBatch false] ++ [mainBatch true]) ∧ mainView.Linked parentOf ∧
    mainView.getLogs 0 3 = [⟨1, 1, 0, false, ()⟩] ∧
    ∃ seed, plainProduce ([mainBatch false] ++ [mainBatch true]) 5 3 10 = .ok seed ∧
      seed.eventStream = [⟨some 1, some 0, some 1, false, ()⟩, ⟨some 1, some 0, some 1, false, ()⟩] ∧
      incoherenceOf seed = some (.duplicate 1 0) := by
  refine ⟨?_, forkViews_linked.1, by decide, ?_⟩
  · have h1 : AppendRun 0 2 ([] ++ [mainBatch false]) := .append .start (by simp [foldedCycles]) (by decide) (by decide) (by rfl)
    exact .append h1 (by simp [foldedCycles, mainBatch]) (by decide) (by decide) (by rfl)
  · have hread : readStoredStreamUpTo (appendedStream ([mainBatch false] ++ [mainBatch true])) 3 10 0 =
        .ok [⟨1, 1, 0, false, ()⟩, ⟨1, 1, 0, false, ()⟩] := by
      unfold readStoredStreamUpTo
      decide
    have hcoverage : (appendedStream ([mainBatch false] ++ [mainBatch true])).coverage = some ⟨0, 5, 0, 5⟩ := rfl
    have hseed : plainProduce ([mainBatch false] ++ [mainBatch true]) 5 3 10 = .ok
        ⟨[], 5, ⟨2, ()⟩, none, plainStream, ⟨0, 3⟩, ⟨sourceHashesOf plainSource, [7], []⟩,
          [⟨some 1, some 0, some 1, false, ()⟩, ⟨some 1, some 0, some 1, false, ()⟩]⟩ := by
      unfold plainProduce produceStreamSeed
      rw [hcoverage]
      dsimp only
      rw [if_neg (by decide), if_neg (by decide), if_neg (by decide), hread]
      rfl
    exact ⟨_, hseed, rfl, by decide⟩

end Etherfold
