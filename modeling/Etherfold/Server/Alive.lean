import Etherfold.Engine.Delivery
import Etherfold.Server.Emissions

/-!
# The alive flag and the coverage claim

One batch is one write: its rows, the flags of what they take back, and the claim how far
the stream reaches. A database holds the streams of several indexers side by side.

* `coverageUpsertOf`, `EmissionStore.append`: the write of the source.
* `AliveExact`: the rows that stand are one for each log whose last entry adds it.
* `alive_current`: **when they are**, and that numbers and claim are right in any case.
-/

namespace Etherfold

open Ledger

/-- How far a stream reaches, and under which filter. -/
structure EmissionCoverage (S : Type) where
  source : S
  config : String
  latestBlock : ℕ
  lastFromBlock : ℕ
  lastToBlock : ℕ
  deriving DecidableEq, Repr

/-- The claim as it is stored; the start block is written once. -/
structure StoredEmissionCoverage (S : Type) extends EmissionCoverage S where
  startBlock : ℕ
  deriving DecidableEq, Repr

/-- The rows and the claim of one indexer's stream. -/
structure EmissionStore (S H D : Type) where
  rows : List (EmissionRow H D)
  coverage : Option (StoredEmissionCoverage S)

/-- One append: where to, how far the stream reaches then, and what the fold concluded. -/
structure EmissionAppend (A S H D : Type) where
  key : A
  coverage : EmissionCoverage S
  emissions : List (LogEvent H D)

variable {A K S H D : Type}

/-- The claim, upserted. A first claim starts where its batch does. -/
def coverageUpsertOf (stored : Option (StoredEmissionCoverage S)) (coverage : EmissionCoverage S) :
    StoredEmissionCoverage S :=
  match stored with
  | none => ⟨coverage, coverage.lastFromBlock⟩
  | some row => ⟨coverage, row.startBlock⟩

variable [DecidableEq H]

/-- **One write**: the claim and the rows. -/
def EmissionStore.append (stream : EmissionStore S H D) (coverage : EmissionCoverage S)
    (emissions : List (LogEvent H D)) : EmissionStore S H D :=
  ⟨appendEmissions stream.rows emissions, some (coverageUpsertOf stream.coverage coverage)⟩

/-- A database: a stream for each pair of an indexer and a stream digest. -/
abbrev EmissionDb (A S H D : Type) := A → EmissionStore S H D

def EmissionDb.empty : EmissionDb A S H D := fun _ => ⟨[], none⟩

/-- What the receiver hands over of a batch it derived. -/
def storeStream (key : A) (source : S) (config : String) (δ : Appended H D) : EmissionAppend A S H D :=
  ⟨key, ⟨source, config, δ.newLastSync.latestBlock, δ.newLastSync.lastFromBlock, δ.newLastSync.lastToBlock⟩,
    δ.eventStream⟩

variable [DecidableEq A]

/-- Every statement of a write is bound to its pair. -/
def EmissionDb.append (db : EmissionDb A S H D) (write : EmissionAppend A S H D) : EmissionDb A S H D :=
  Function.update db write.key ((db write.key).append write.coverage write.emissions)

/-- The database after the batches of any number of receivers. -/
def dbAfter (identity : A → S × String) (log : List (A × Receipt K H D)) : EmissionDb A S H D :=
  log.foldl (fun db p => db.append
    (storeStream p.1 (identity p.1).1 (identity p.1).2 p.2.appended)) EmissionDb.empty

/-- The batches of one receiver. -/
def receiptsOf (a : A) (log : List (A × Receipt K H D)) : List (Receipt K H D) :=
  log.filterMap fun p => if p.1 = a then some p.2 else none

/-! ### One stream of the database -/

omit [DecidableEq H] in
theorem receiptsOf_concat (a : A) (log : List (A × Receipt K H D)) (p : A × Receipt K H D) :
    receiptsOf a (log ++ [p]) = receiptsOf a log ++ if p.1 = a then [p.2] else [] := by
  unfold receiptsOf
  rw [List.filterMap_append]
  congr 1
  by_cases h : p.1 = a <;> simp [h]

/-- The claim after some batches. -/
def coverageAfter (source : S) (config : String) (rs : List (Receipt K H D)) : Option (StoredEmissionCoverage S) :=
  rs.getLast?.bind fun last => rs.head?.map fun first =>
    ⟨⟨source, config, last.appended.newLastSync.latestBlock, last.appended.newLastSync.lastFromBlock,
      last.appended.newLastSync.lastToBlock⟩, first.appended.newLastSync.lastFromBlock⟩

omit [DecidableEq H] in
theorem coverageAfter_concat (source : S) (config : String) (rs : List (Receipt K H D)) (r : Receipt K H D) :
    coverageAfter source config (rs ++ [r]) = some (coverageUpsertOf (coverageAfter source config rs)
      ⟨source, config, r.appended.newLastSync.latestBlock, r.appended.newLastSync.lastFromBlock,
        r.appended.newLastSync.lastToBlock⟩) := by
  unfold coverageAfter coverageUpsertOf
  rw [List.getLast?_concat]
  cases rs with
  | nil => rfl
  | cons first rest =>
    have hlast : (first :: rest).getLast? = some ((first :: rest).getLast (List.cons_ne_nil _ _)) :=
      List.getLast?_eq_some_getLast _
    rw [hlast]
    rfl

/-- **A stream holds the rows of its own batches**, whatever else is written. -/
theorem dbAfter_stream (identity : A → S × String) (log : List (A × Receipt K H D)) (a : A) :
    dbAfter identity log a = ⟨tableOf (emitted (received (receiptsOf a log))),
      coverageAfter (identity a).1 (identity a).2 (receiptsOf a log)⟩ := by
  induction log using List.reverseRecOn with
  | nil => rfl
  | append_singleton log p ih =>
    have hstep : dbAfter identity (log ++ [p]) = (dbAfter identity log).append
        (storeStream p.1 (identity p.1).1 (identity p.1).2 p.2.appended) := by
      unfold dbAfter
      rw [List.foldl_append]
      rfl
    rw [hstep, receiptsOf_concat]
    unfold EmissionDb.append storeStream
    dsimp only
    by_cases ha : p.1 = a
    · subst ha
      rw [Function.update_self, if_pos rfl, ih, received_concat, emitted_concat, coverageAfter_concat]
      unfold EmissionStore.append
      rw [appendEmissions_tableOf]
    · rw [Function.update_of_ne (Ne.symm ha), if_neg ha, List.append_nil, ih]

/-! ### The rows that stand -/

/-- The last entry of a log adds it. -/
def lastAdded (es : List (LogEvent H D)) (x : H) (i : ℕ) : Bool :=
  ((es.filter fun e => e.blockHash = x && e.logIndex = i).getLast?.map (!·.removed)).getD false

/-- **One row stands for each log whose last entry adds it**, and no other. -/
def AliveExact (es : List (LogEvent H D)) (rows : List (EmissionRow H D)) : Prop :=
  ∀ x i, (rows.filter fun r => r.alive && (r.blockHash = x && r.logIndex = i)).length =
    if lastAdded es x i then 1 else 0

omit [DecidableEq A] [DecidableEq H] in
theorem sameLog_comm {e e' : LogEvent H D} : e.SameLog e' ↔ e'.SameLog e := by
  unfold LogEvent.SameLog
  rw [eq_comm, @eq_comm _ e.logIndex]

omit [DecidableEq A] in
/-- A log stands when its last entry adds it. -/
theorem stands_iff (es : List (LogEvent H D)) (x : H) (i : ℕ) :
    (∃ s ∈ standing es, s.blockHash = x ∧ s.logIndex = i) ↔ lastAdded es x i = true := by
  induction es using List.reverseRecOn with
  | nil => simp [standing, lastAdded]
  | append_singleton es e ih =>
    by_cases hlog : e.blockHash = x ∧ e.logIndex = i
    · have hlast : lastAdded (es ++ [e]) x i = !e.removed := by
        unfold lastAdded
        rw [List.filter_append, List.filter_cons_of_pos (by simp [hlog]), List.filter_nil, List.getLast?_concat]
        rfl
      rw [hlast, standing_concat]
      cases hrem : e.removed with
      | false =>
        refine ⟨fun _ => rfl, fun _ => ⟨e, mem_standStep.2 (.inr ⟨hrem, rfl⟩), hlog⟩⟩
      | true =>
        refine ⟨fun h => ?_, fun h => (by cases h)⟩
        obtain ⟨s, hs, hsx, hsi⟩ := h
        rcases mem_standStep.1 hs with ⟨-, hnot⟩ | ⟨hlive, -⟩
        · exact absurd ⟨hsx.trans hlog.1.symm, hsi.trans hlog.2.symm⟩ (hnot hrem)
        · rw [hrem] at hlive
          cases hlive
    · have hlast : lastAdded (es ++ [e]) x i = lastAdded es x i := by
        unfold lastAdded
        rw [List.filter_append, List.filter_cons_of_neg (by simpa using hlog), List.filter_nil, List.append_nil]
      rw [hlast, ← ih, standing_concat]
      constructor
      · intro h
        obtain ⟨s, hs, hsx, hsi⟩ := h
        rcases mem_standStep.1 hs with ⟨hs, -⟩ | ⟨-, rfl⟩
        · exact ⟨s, hs, hsx, hsi⟩
        · exact absurd ⟨hsx, hsi⟩ hlog
      · intro h
        obtain ⟨s, hs, hsx, hsi⟩ := h
        refine ⟨s, mem_standStep.2 (.inl ⟨hs, fun _ hsame => hlog ?_⟩), hsx, hsi⟩
        exact ⟨hsame.1.symm.trans hsx, hsame.2.symm.trans hsi⟩

omit [DecidableEq A] in
/-- No two entries of one log, counted. -/
theorem pairwise_iff_count {l : List (LogEvent H D)} : l.Pairwise (fun e e' => ¬e.SameLog e') ↔
    ∀ x i, (l.filter fun e => e.blockHash = x && e.logIndex = i).length ≤ 1 := by
  induction l with
  | nil => simp
  | cons e l ih =>
    rw [List.pairwise_cons, ih]
    constructor
    · intro h x i
      by_cases hlog : e.blockHash = x ∧ e.logIndex = i
      · have hnone : l.filter (fun e => e.blockHash = x && e.logIndex = i) = [] := by
          rw [List.filter_eq_nil_iff]
          intro e' he' heq
          rw [Bool.and_eq_true, decide_eq_true_eq, decide_eq_true_eq] at heq
          exact h.1 e' he' ⟨hlog.1.trans heq.1.symm, hlog.2.trans heq.2.symm⟩
        rw [List.filter_cons_of_pos (by simp [hlog]), hnone]
        rfl
      · rw [List.filter_cons_of_neg (by simpa using hlog)]
        exact h.2 x i
    · intro h
      refine ⟨fun e' he' hsame => ?_, fun x i => ?_⟩
      · have hcount := h e.blockHash e.logIndex
        rw [List.filter_cons_of_pos (by simp), List.length_cons] at hcount
        have hpos : 0 < (l.filter fun e' => e'.blockHash = e.blockHash && e'.logIndex = e.logIndex).length :=
          List.length_pos_of_mem (List.mem_filter.2 ⟨he', by simp [hsame.1.symm, hsame.2.symm]⟩)
        omega
      · have hcount := h x i
        rw [List.filter_cons] at hcount
        split at hcount
        · rw [List.length_cons] at hcount
          omega
        · exact hcount

omit [DecidableEq A] in
/-- **The rows of a stream stand as they should** when no log stands twice. -/
theorem aliveExact_iff (es : List (LogEvent H D)) :
    AliveExact es (tableOf es) ↔ (standing es).Pairwise fun e e' => ¬e.SameLog e' := by
  have hcount : ∀ x i, ((tableOf es).filter fun r => r.alive && (r.blockHash = x && r.logIndex = i)).length =
      ((standing es).filter fun e => e.blockHash = x && e.logIndex = i).length := by
    intro x i
    rw [← aliveRows_tableOf]
    unfold aliveRows
    rw [List.filter_map, List.length_map, List.filter_filter]
    congr 1
    refine List.filter_congr fun r _ => ?_
    rw [Bool.and_comm]
    rfl
  have hpos : ∀ x i, 0 < ((standing es).filter fun e => e.blockHash = x && e.logIndex = i).length ↔
      lastAdded es x i = true := by
    intro x i
    rw [← stands_iff, List.length_pos_iff_exists_mem]
    simp only [List.mem_filter, Bool.and_eq_true, decide_eq_true_eq]
  rw [pairwise_iff_count]
  unfold AliveExact
  refine forall_congr' fun x => forall_congr' fun i => ?_
  rw [hcount]
  have hp := hpos x i
  split
  · rename_i hlast
    have := hp.2 hlast
    omega
  · rename_i hlast
    have := mt hp.1 hlast
    omega

/-! ### One batch -/

omit [DecidableEq A] in
/-- What retractions leave standing. -/
theorem standing_append_removed {es rs : List (LogEvent H D)} (h : ∀ e ∈ rs, e.removed = true) :
    standing (es ++ rs) = (standing es).filter fun s => ¬∃ t ∈ rs, s.SameLog t := by
  induction rs using List.reverseRecOn with
  | nil => simp
  | append_singleton rs e ih =>
    have hrem := h e (by simp)
    rw [← List.append_assoc, standing_concat, ih fun e' he' => h e' (List.mem_append_left _ he')]
    unfold standStep
    rw [if_pos hrem, List.filter_filter]
    refine List.filter_congr fun s _ => ?_
    rw [Bool.eq_iff_iff, Bool.and_eq_true, decide_eq_true_eq, decide_eq_true_eq, decide_eq_true_eq]
    constructor
    · intro hs hmem
      obtain ⟨t, ht, hsame⟩ := hmem
      rcases List.mem_append.1 ht with ht | ht
      · exact hs.2 ⟨t, ht, hsame⟩
      · exact hs.1 (List.mem_singleton.1 ht ▸ hsame)
    · intro hs
      refine ⟨fun hsame => hs ⟨e, by simp, hsame⟩, fun hmem => hs ?_⟩
      obtain ⟨t, ht, hsame⟩ := hmem
      exact ⟨t, List.mem_append_left _ ht, hsame⟩

omit [DecidableEq A] in
/-- Additions stand after what stood. -/
theorem standing_append_live {es rs : List (LogEvent H D)} (h : ∀ e ∈ rs, e.removed = false) :
    standing (es ++ rs) = standing es ++ rs := by
  induction rs using List.reverseRecOn with
  | nil => simp
  | append_singleton rs e ih =>
    have hlive := h e (by simp)
    rw [← List.append_assoc, standing_concat, ih fun e' he' => h e' (List.mem_append_left _ he')]
    unfold standStep
    rw [if_neg (by simp [hlive]), List.append_assoc]

omit [DecidableEq A] in
/-- **No log comes to stand twice** when what is added anew was taken back first. -/
theorem pairwise_standing_iff {es taken added : List (LogEvent H D)} (htaken : ∀ e ∈ taken, e.removed = true)
    (hadded : ∀ e ∈ added, e.removed = false) (hdistinct : added.Pairwise fun e e' => ¬e.SameLog e')
    (h : (standing es).Pairwise fun e e' => ¬e.SameLog e') :
    ((standing (es ++ (taken ++ added))).Pairwise fun e e' => ¬e.SameLog e') ↔
      ∀ e ∈ added, ∀ s ∈ standing es, s.SameLog e → ∃ t ∈ taken, t.SameLog e := by
  rw [← List.append_assoc, standing_append_live hadded, standing_append_removed htaken, List.pairwise_append]
  constructor
  · intro hpair e he s hs hsame
    by_contra hnot
    refine hpair.2.2 s (List.mem_filter.2 ⟨hs, decide_eq_true fun hmem => hnot ?_⟩) e he hsame
    obtain ⟨t, ht, hst⟩ := hmem
    exact ⟨t, ht, hst.1.symm.trans hsame.1, hst.2.symm.trans hsame.2⟩
  · intro hback
    refine ⟨h.filter _, hdistinct, fun s hs e he hsame => ?_⟩
    obtain ⟨hs, hkept⟩ := List.mem_filter.1 hs
    obtain ⟨t, ht, hte⟩ := hback e he s hs hsame
    exact of_decide_eq_true hkept ⟨t, ht, hsame.1.trans hte.1.symm, hsame.2.trans hte.2.symm⟩

/-- No log of a payload comes twice. -/
def Distinct (logs : List (LogEvent H D)) : Prop := logs.Pairwise fun e e' => ¬e.SameLog e'

instance (logs : List (LogEvent H D)) : Decidable (Distinct logs) := inferInstanceAs (Decidable (List.Pairwise _ _))

/-- Every standing log a batch reads again is still in the window: itself, or its block, which
the batch leaves standing. -/
def Relisted [DecidableEq K] (sb : StreamBuilder K) (c : LastSync H D) (before : List (LogEvent H D))
    (batch : WireBatch K H D) : Prop :=
  ∀ e ∈ batch.logs, (∃ s ∈ standing before, s.SameLog e) →
    (∃ w ∈ c.unconfirmedBlocks, ∃ t ∈ w.events, t.SameLog e) ∨
      e.blockHash ∈ (retainedBlocks c batch.logs (sb.newSync batch)).map (·.hash)

section Step

variable [DecidableEq K] {numberOf : H → ℕ} {sb : StreamBuilder K} {c : LastSync H D} {batch : WireBatch K H D}
  {r : Appended H D} {before : List (LogEvent H D)}

omit [DecidableEq A] [DecidableEq K] in
theorem freshBlocks_distinct (hlive : ∀ e ∈ batch.logs, e.removed = false) (hd : Distinct batch.logs)
    (c : LastSync H D) (o : NewSync) : Distinct ((freshBlocks c batch.logs o).flatMap (·.events)) := by
  have hperm := (groupLogsPerBlock_perm batch.logs hlive).2
  have hall : ((groupLogsPerBlock batch.logs).flatMap (·.events)).Pairwise fun e e' => ¬e.SameLog e' :=
    (hperm.pairwise_iff fun {e e'} hne hsame => hne (sameLog_comm.1 hsame)).2 hd
  have hsub : ((freshBlocks c batch.logs o).flatMap (·.events)).Sublist
      ((groupLogsPerBlock batch.logs).flatMap (·.events)) := by
    unfold freshBlocks
    exact List.Sublist.flatMap List.filter_sublist _
  exact hall.sublist hsub

omit [DecidableEq A] in
/-- **One batch keeps the flag right** exactly when the window lists what it reads again. -/
theorem alive_step (hok : WindowOk numberOf c) (hnum : Numbered numberOf batch) (hd : Distinct batch.logs)
    (h : sb.receive c batch = .ok r) (hone : (standing before).Pairwise fun e e' => ¬e.SameLog e') :
    ((standing (before ++ r.eventStream)).Pairwise fun e e' => ¬e.SameLog e') ↔ Relisted sb c before batch := by
  obtain ⟨hwf, -⟩ := receive_ok h
  obtain ⟨reorged, hsplit, -⟩ := receive_delta hok hnum h
  have htaken : ∀ e ∈ reorged.flatMap (·.events.map LogEvent.retracted), e.removed = true := by
    intro e he
    obtain ⟨w, -, he⟩ := List.mem_flatMap.1 he
    obtain ⟨e', -, rfl⟩ := List.mem_map.1 he
    rfl
  have hadded : ∀ e ∈ (freshBlocks c batch.logs (sb.newSync batch)).flatMap (·.events), e.removed = false := by
    intro e he
    obtain ⟨g, hg, he⟩ := List.mem_flatMap.1 he
    exact ((hsplit.fresh_ok g hg).2.1 e he).1.2
  have hback : ∀ e : LogEvent H D, (∃ t ∈ reorged.flatMap (·.events.map LogEvent.retracted), t.SameLog e) ↔
      ∃ w ∈ reorged, ∃ t ∈ w.events, t.SameLog e := by
    intro e
    constructor
    · intro hmem
      obtain ⟨t, ht, hsame⟩ := hmem
      obtain ⟨w, hw, ht⟩ := List.mem_flatMap.1 ht
      obtain ⟨t', ht', rfl⟩ := List.mem_map.1 ht
      exact ⟨w, hw, t', ht', hsame⟩
    · intro hmem
      obtain ⟨w, hw, t, ht, hsame⟩ := hmem
      exact ⟨t.retracted, List.mem_flatMap.2 ⟨w, hw, List.mem_map.2 ⟨t, ht, rfl⟩⟩, hsame⟩
  rw [hsplit.stream, pairwise_standing_iff htaken hadded (freshBlocks_distinct hwf.live hd c _) hone]
  constructor
  · intro hnew e he hstands
    obtain ⟨s, hs, hsame⟩ := hstands
    by_cases hret : e.blockHash ∈ (retainedBlocks c batch.logs (sb.newSync batch)).map (·.hash)
    · exact .inr hret
    -- the log is added again, so it was taken back
    obtain ⟨g, hg, heg⟩ := hsplit.complete e he hret
    obtain ⟨w, hw, t, ht, hte⟩ := (hback e).1 (hnew e (List.mem_flatMap.2 ⟨g, hg, heg⟩) s hs hsame)
    refine .inl ⟨w, ?_, t, ht, hte⟩
    rw [hsplit.window]
    exact List.mem_append_right _ hw
  · intro hlisted e he s hs hsame
    obtain ⟨g, hg, heg⟩ := List.mem_flatMap.1 he
    obtain ⟨⟨hhash, -⟩, hlog⟩ := (hsplit.fresh_ok g hg).2.1 e heg
    have hnew := hsplit.fresh_new g hg
    rw [← hhash] at hnew
    rw [hback]
    rcases hlisted e hlog ⟨s, hs, hsame⟩ with ⟨w, hw, t, ht, hte⟩ | hret
    · refine ⟨w, ?_, t, ht, hte⟩
      rw [hsplit.window] at hw
      rcases List.mem_append.1 hw with hkept | hw
      · -- a block left standing is not added again
        have hwhash : w.hash = e.blockHash := by
          have hmem : w ∈ c.unconfirmedBlocks := by
            rw [hsplit.window]
            exact List.mem_append_left _ hkept
          rw [← ((hok w hmem).2.1 t ht).1]
          exact hte.1
        exact absurd (List.mem_map.2 ⟨w, hkept, hwhash⟩) hnew
      · exact hw
    · exact absurd hret hnew

/-- Every standing log is of an applied block, and listed with its block. -/
structure LogsListed (c : LastSync H D) (es : List (LogEvent H D)) : Prop where
  live : ∀ s ∈ standing es, s.blockHash ∈ liveBlocks es
  listed : ∀ w ∈ c.unconfirmedBlocks, ∀ s ∈ standing es, s.blockHash = w.hash → ∃ t ∈ w.events, t.SameLog s

omit [DecidableEq A] in
theorem LogsListed.relisted (hl : LogsListed c before) (hcov : Covered c before batch) :
    Relisted sb c before batch := by
  intro e he hstands
  obtain ⟨s, hs, hsame⟩ := hstands
  have hlive := hl.live s hs
  rw [hsame.1] at hlive
  obtain ⟨w, hw, hhash⟩ := List.mem_map.1 (hcov e he hlive)
  obtain ⟨t, ht, hts⟩ := hl.listed w hw s hs (hsame.1.trans hhash.symm)
  exact .inl ⟨w, hw, t, ht, hts.1.trans hsame.1, hts.2.trans hsame.2⟩

omit [DecidableEq A] in
/-- **The window goes on listing the logs that stand.** -/
theorem LogsListed.receive (hl : LogsListed c before) (hok : WindowOk numberOf c) (hnum : Numbered numberOf batch)
    (hcov : Covered c before batch) (h : sb.receive c batch = .ok r) :
    LogsListed r.newLastSync (before ++ r.eventStream) := by
  obtain ⟨hwf, -⟩ := receive_ok h
  obtain ⟨reorged, hsplit, hnext⟩ := receive_delta hok hnum h
  obtain ⟨-, -, hlive⟩ := hsplit.halves before hok
  set retained := retainedBlocks c batch.logs (sb.newSync batch) with hretained
  set fresh := freshBlocks c batch.logs (sb.newSync batch) with hfresh
  have hmem : ∀ w, w ∈ retained ∨ w ∈ reorged → w ∈ c.unconfirmedBlocks := by
    intro w hw
    rw [hsplit.window]
    exact List.mem_append.2 hw
  have htaken : ∀ e ∈ reorged.flatMap (·.events.map LogEvent.retracted), e.removed = true := by
    intro e he
    obtain ⟨w, -, he⟩ := List.mem_flatMap.1 he
    obtain ⟨e', -, rfl⟩ := List.mem_map.1 he
    rfl
  have hadded : ∀ e ∈ fresh.flatMap (·.events), e.removed = false := by
    intro e he
    obtain ⟨g, hg, he⟩ := List.mem_flatMap.1 he
    exact ((hsplit.fresh_ok g hg).2.1 e he).1.2
  -- what stands after the batch stood before and its block was not taken back, or is added
  have hstands : ∀ s ∈ standing (before ++ r.eventStream),
      (s ∈ standing before ∧ s.blockHash ∉ reorged.map (·.hash)) ∨ ∃ g ∈ fresh, s ∈ g.events := by
    intro s hs
    rw [hsplit.stream, ← List.append_assoc, standing_append_live hadded, standing_append_removed htaken,
      List.mem_append] at hs
    rcases hs with hs | hs
    · obtain ⟨hs, hkept⟩ := List.mem_filter.1 hs
      refine .inl ⟨hs, fun hre => of_decide_eq_true hkept ?_⟩
      obtain ⟨w, hw, hhash⟩ := List.mem_map.1 hre
      obtain ⟨t, ht, hts⟩ := hl.listed w (hmem w (.inr hw)) s hs hhash.symm
      exact ⟨t.retracted, List.mem_flatMap.2 ⟨w, hw, List.mem_map.2 ⟨t, ht, rfl⟩⟩, sameLog_comm.1 hts⟩
    · obtain ⟨g, hg, hs⟩ := List.mem_flatMap.1 hs
      exact .inr ⟨g, hg, hs⟩
  refine ⟨fun s hs => ?_, fun w hw s hs hhash => ?_⟩
  · rw [hlive]
    rcases hstands s hs with ⟨hs, hkept⟩ | ⟨g, hg, hs⟩
    · exact .inl ⟨hl.live s hs, hkept⟩
    · rw [((hsplit.fresh_ok g hg).2.1 s hs).1.1]
      exact .inr (List.mem_map_of_mem hg)
  · rcases (hnext w).1 hw with ⟨hw, -⟩ | ⟨hw, -⟩
    · rcases hstands s hs with ⟨hs, -⟩ | ⟨g, hg, hs⟩
      · exact hl.listed w (hmem w (.inl hw)) s hs hhash
      · refine absurd ?_ (hsplit.fresh_new g hg)
        rw [← ((hsplit.fresh_ok g hg).2.1 s hs).1.1, hhash]
        exact List.mem_map_of_mem hw
    · obtain ⟨hne, hall, -⟩ := hsplit.fresh_ok w hw
      obtain ⟨e, he⟩ := List.exists_mem_of_ne_nil _ hne
      obtain ⟨⟨hehash, -⟩, hlog⟩ := hall e he
      rcases hstands s hs with ⟨hs, hkept⟩ | ⟨g, hg, hsg⟩
      · -- an applied block that is read again is listed, and was neither kept nor taken back
        have happlied := hl.live s hs
        rw [hhash, ← hehash] at happlied
        have hlisted := hcov e hlog happlied
        rw [hsplit.window, List.map_append, List.mem_append, hehash] at hlisted
        rcases hlisted with hret | hre
        · exact absurd hret (hsplit.fresh_new w hw)
        · exact absurd (hhash ▸ hre) hkept
      · -- a payload has one group for a hash
        have hnodup := (groupLogsPerBlock_perm batch.logs hwf.live).1
        have hgw : g = w := by
          rw [hfresh] at hg hw
          refine List.inj_on_of_nodup_map hnodup (List.mem_of_mem_filter hg) (List.mem_of_mem_filter hw) ?_
          rw [← ((hsplit.fresh_ok g hg).2.1 s hsg).1.1, hhash]
        exact ⟨s, hgw ▸ hsg, rfl, rfl⟩

end Step

/-! ### Every sequence of batches -/

section Sequence

variable [DecidableEq K] {numberOf : H → ℕ} {sb : StreamBuilder K}

omit [DecidableEq A] in
theorem Accepted.logsListed {rs : List (Receipt K H D)} (run : Accepted sb rs)
    (hn : ∀ r ∈ rs, Numbered numberOf r.batch)
    (hcov : ∀ pre r, pre ++ [r] <+: rs → Covered (cursorAfter (received pre)) (emitted (received pre)) r.batch) :
    LogsListed (cursorAfter (received rs)) (emitted (received rs)) := by
  induction run with
  | start => exact ⟨fun s hs => (by cases hs), fun w hw => (by cases hw)⟩
  | @receive rs batch a run ok ih =>
    have hn' : ∀ r ∈ rs, Numbered numberOf r.batch := fun r hr => hn r (List.mem_append_left _ hr)
    have hlisted := ih hn' fun pre r hpre => hcov pre r (hpre.trans (List.prefix_append _ _))
    rw [received_concat, cursorAfter_concat, emitted_concat]
    exact hlisted.receive (run.windowOk hn') (hn ⟨batch, a⟩ (by simp)) (hcov rs ⟨batch, a⟩ (List.prefix_refl _)) ok

omit [DecidableEq A] in
/-- The first batch of a run and the last, with the numbers the claim keeps of them. -/
theorem Accepted.sync {rs : List (Receipt K H D)} (run : Accepted sb rs) {r : Receipt K H D} (hr : r ∈ rs) :
    r.appended.newLastSync.lastFromBlock = r.batch.fromBlock ∧
      r.appended.newLastSync.latestBlock = r.batch.latestBlock ∧
        r.appended.newLastSync.lastToBlock = r.batch.toBlock := by
  induction run with
  | start => cases hr
  | @receive rs batch a run ok ih =>
    rcases List.mem_append.1 hr with hr | hr
    · exact ih hr
    · rw [List.mem_singleton.1 hr]
      exact generate_sync (receive_ok ok).2

/-- **The alive flag is the current stream** exactly when, at each batch, the window still
lists every standing log the batch reads again; and it does while the reported tips do not
fall. The numbers never repeat, and the claim is the last batch's, with the first one's
start, in any case. -/
theorem alive_current (identity : A → S × String) {log : List (A × Receipt K H D)} {a : A}
    (run : Accepted sb (receiptsOf a log)) (hn : ∀ r ∈ receiptsOf a log, Numbered numberOf r.batch)
    (hd : ∀ r ∈ receiptsOf a log, Distinct r.batch.logs) :
    ((∀ pre, pre <+: log →
        AliveExact (emitted (received (receiptsOf a pre))) (dbAfter identity pre a).rows) ↔
      ∀ pre r, pre ++ [r] <+: receiptsOf a log →
        Relisted sb (cursorAfter (received pre)) (emitted (received pre)) r.batch) ∧
    ((receiptsOf a log).IsChain (fun r s => r.batch.latestBlock ≤ s.batch.latestBlock) →
      ∀ pre r, pre ++ [r] <+: receiptsOf a log →
        Relisted sb (cursorAfter (received pre)) (emitted (received pre)) r.batch) ∧
    (∀ pre, pre <+: log →
      ((dbAfter identity pre a).rows.map (·.seq)).Pairwise (· < ·) ∧
      (dbAfter identity pre a).rows.map (·.seq) <+: (dbAfter identity log a).rows.map (·.seq) ∧
      (dbAfter identity pre a).rows.map (·.toLogEvent) = emitted (received (receiptsOf a pre)) ∧
      readStreamHighWaterMark (dbAfter identity pre a).rows = (emitted (received (receiptsOf a pre))).length) ∧
    (dbAfter identity log a).coverage =
      (receiptsOf a log).getLast?.bind fun last => (receiptsOf a log).head?.map fun first =>
        ⟨⟨(identity a).1, (identity a).2, last.batch.latestBlock, last.batch.fromBlock, last.batch.toBlock⟩,
          first.batch.fromBlock⟩ := by
  have hbegin : ∀ pre, pre <+: log → receiptsOf a pre <+: receiptsOf a log := fun pre hpre =>
    hpre.filterMap _
  have hsub : ∀ pre r, pre ++ [r] <+: receiptsOf a log →
      (∀ s ∈ pre, Numbered numberOf s.batch) ∧ Numbered numberOf r.batch ∧ Distinct r.batch.logs := by
    intro pre r hpre
    have hr : r ∈ receiptsOf a log := hpre.subset (by simp)
    exact ⟨fun s hs => hn s (hpre.subset (List.mem_append_left _ hs)), hn r hr, hd r hr⟩
  have hstep : ∀ pre r, pre ++ [r] <+: receiptsOf a log →
      ((standing (emitted (received pre))).Pairwise fun e e' => ¬e.SameLog e') →
      (((standing (emitted (received (pre ++ [r])))).Pairwise fun e e' => ¬e.SameLog e') ↔
        Relisted sb (cursorAfter (received pre)) (emitted (received pre)) r.batch) := by
    intro pre r hpre hone
    obtain ⟨hrun, hok⟩ := run.step hpre
    obtain ⟨hnpre, hnr, hdr⟩ := hsub pre r hpre
    rw [received_concat, emitted_concat]
    exact alive_step (hrun.windowOk hnpre) hnr hdr hok hone
  refine ⟨?_, fun htips => ?_, fun pre hpre => ?_, ?_⟩
  · have hexact : (∀ pre, pre <+: log →
        AliveExact (emitted (received (receiptsOf a pre))) (dbAfter identity pre a).rows) ↔
        ∀ pre, pre <+: receiptsOf a log → (standing (emitted (received pre))).Pairwise fun e e' => ¬e.SameLog e' := by
      simp only [dbAfter_stream, aliveExact_iff]
      constructor
      · intro h pre hpre
        obtain ⟨pre', hpre', rfl⟩ := List.prefix_filterMap_iff.1 hpre
        exact h pre' hpre'
      · intro h pre hpre
        exact h _ (hbegin pre hpre)
    rw [hexact]
    constructor
    · intro h pre r hpre
      exact (hstep pre r hpre (h pre ((List.prefix_append _ _).trans hpre))).1 (h _ hpre)
    · intro h pre hpre
      induction pre using List.reverseRecOn with
      | nil => exact List.Pairwise.nil
      | append_singleton pre r ih =>
        exact (hstep pre r hpre (ih ((List.prefix_append _ _).trans hpre))).2 (h pre r hpre)
  · have hcov := (accepted_once run hn).2 htips
    intro pre r hpre
    obtain ⟨hrun, -⟩ := run.step hpre
    obtain ⟨hnpre, -, -⟩ := hsub pre r hpre
    refine (hrun.logsListed hnpre fun pre' r' hpre' => hcov pre' r' ?_).relisted (hcov pre r hpre)
    exact hpre'.trans ((List.prefix_append _ _).trans hpre)
  · simp only [dbAfter_stream]
    refine ⟨?_, ?_, tableOf_log _, readStreamHighWaterMark_tableOf _⟩
    · rw [tableOf_seq]
      exact List.pairwise_lt_range'
    · obtain ⟨rest, hrest⟩ := hbegin pre hpre
      rw [tableOf_seq, tableOf_seq, ← hrest]
      unfold received emitted
      rw [List.map_append, List.flatMap_append, List.length_append, ← List.range'_append_1]
      exact List.prefix_append _ _
  · rw [dbAfter_stream]
    unfold coverageAfter
    cases hlog : receiptsOf a log with
    | nil => rfl
    | cons first rest =>
      rw [hlog] at run
      obtain ⟨hffrom, -, -⟩ := run.sync (r := first) List.mem_cons_self
      have hlast : (first :: rest).getLast? = some ((first :: rest).getLast (List.cons_ne_nil _ _)) :=
        List.getLast?_eq_some_getLast _
      obtain ⟨hfrom, hlatest, hto⟩ := run.sync (List.getLast_mem (List.cons_ne_nil first rest))
      rw [hlast]
      dsimp only [Option.bind, List.head?, Option.map]
      rw [hffrom, hfrom, hlatest, hto]

end Sequence

/-- Two indexers of one source, written in turn. -/
def twoIndexers : List (ℕ × Receipt Unit ℕ Unit) := risingTips.flatMap fun r => [(0, r), (1, r)]

/-- The filter of both. -/
def oneFilter : ℕ → Unit × String := fun _ => ((), "")

theorem alive_current_twoIndexers : Accepted ⟨(), 0, 3⟩ (receiptsOf 1 twoIndexers) ∧
    ∀ pre, pre <+: twoIndexers →
      AliveExact (emitted (received (receiptsOf 1 pre))) (dbAfter oneFilter pre 1).rows := by
  have run : Accepted ⟨(), 0, 3⟩ (receiptsOf 1 twoIndexers) := accepted_risingTips
  have hn : ∀ r ∈ receiptsOf 1 twoIndexers, Numbered (· % 100) r.batch := by decide
  have hd : ∀ r ∈ receiptsOf 1 twoIndexers, Distinct r.batch.logs := by decide
  obtain ⟨hiff, htips, -⟩ := alive_current oneFilter run hn hd
  exact ⟨run, hiff.2 (htips (by decide))⟩

/-- A block read again under a lower tip stands in two rows. -/
theorem fallingTips_alive : Accepted ⟨(), 0, 1⟩ fallingTips ∧
    (∀ r ∈ fallingTips, Numbered (· % 100) r.batch ∧ Distinct r.batch.logs) ∧
    aliveRows (dbAfter oneFilter (fallingTips.map ((0, ·))) 0).rows = [⟨3, 3, 0, false, ()⟩, ⟨3, 3, 0, false, ()⟩] ∧
    ¬∀ pre, pre <+: fallingTips.map ((0, ·)) →
      AliveExact (emitted (received (receiptsOf 0 pre))) (dbAfter oneFilter pre 0).rows := by
  refine ⟨.receive (.receive (.receive .start rfl) rfl) rfl, by decide, rfl, fun h => ?_⟩
  have htwo := h _ (List.prefix_refl _) 3 0
  revert htwo
  decide

end Etherfold
