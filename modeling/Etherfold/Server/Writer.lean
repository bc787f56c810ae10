import Etherfold.Engine.Mirror
import Etherfold.Server.Alive

/-!
# The stream writer

A writer keeps no cursor. It reads the claim and the tail of its own rows, walks the window out
of them, derives the delta and appends it.

* `readStreamCursor`, `StreamWriter.receive`: the source's reads and writes.
* `Writes`: a writer's calls, each over what the ones before stored.
* `cursor_read`: the cursor read back has the numbers of the one carried, and the rebuilt window.
* `writer_iff`: **when a writer derives the deltas of a live cursor**.
-/

namespace Etherfold

open Ledger

/-- A stream's own position: the claim's numbers and the rows its window is walked out of. -/
structure StreamCursorRead (H D : Type) where
  latestBlock : ℕ
  lastFromBlock : ℕ
  lastToBlock : ℕ
  tail : List (LogEvent H D)

/-- What a writer is built with. -/
structure StreamWriter (K S : Type) where
  context : K
  defaultFromBlock : ℕ
  finality : ℕ
  sourceHashes : S
  config : String

/-- Why a writer stores nothing. -/
inductive StreamWriterError (K : Type) where
  | ingestion (error : IngestionError K)
  | streamHole (lastToBlock nextFromBlock : ℕ)
  deriving DecidableEq, Repr

variable {K S H D : Type}

/-- The rows at or above a height, in the order they were numbered. -/
def readStoredStream (rows : List (EmissionRow H D)) (fromBlock : ℕ) : List (LogEvent H D) :=
  ((rows.filter fun r => fromBlock ≤ r.blockNumber).insertionSort (·.seq ≤ ·.seq)).map (·.toLogEvent)

/-- **Where a stream ends**, or nothing where none is claimed. -/
def readStreamCursor (stream : EmissionStore S H D) (finality : ℕ) : Option (StreamCursorRead H D) :=
  stream.coverage.map fun coverage =>
    ⟨coverage.latestBlock, coverage.lastFromBlock, coverage.lastToBlock,
      readStoredStream stream.rows (coverage.lastToBlock - finality)⟩

variable [DecidableEq K] [DecidableEq H]

/-- The stored position as a cursor. -/
def StreamWriter.lastSyncOf (writer : StreamWriter K S) : Option (StreamCursorRead H D) → LastSync H D
  | none => ⟨0, 0, 0, []⟩
  | some stored =>
    { lastFromBlock := stored.lastFromBlock
      latestBlock := stored.latestBlock
      lastToBlock := stored.lastToBlock
      unconfirmedBlocks := windowOfStoredStream stored.tail stored.lastToBlock writer.finality }

/-- One append, or the refusal to punch a hole. -/
def StreamWriter.storeStream (writer : StreamWriter K S) (stream : EmissionStore S H D)
    (stored : Option (StreamCursorRead H D)) (appended : Appended H D) :
    Except (StreamWriterError K) (EmissionStore S H D) :=
  match stored.filter fun stored => stored.lastToBlock + 1 < appended.newLastSync.lastFromBlock with
  | some stored => .error (.streamHole stored.lastToBlock appended.newLastSync.lastFromBlock)
  | none =>
    .ok (stream.append ⟨writer.sourceHashes, writer.config, appended.newLastSync.latestBlock,
      appended.newLastSync.lastFromBlock, appended.newLastSync.lastToBlock⟩ appended.eventStream)

/-- **One batch**: refused, or its delta and the stream with the delta appended. -/
def StreamWriter.receive (writer : StreamWriter K S) (stream : EmissionStore S H D) (batch : WireBatch K H D) :
    Except (StreamWriterError K) (Appended H D × EmissionStore S H D) :=
  if batch.context ≠ writer.context then
    .error (.ingestion (.contextMismatch writer.context batch.context))
  else
    match assertWellFormed batch with
    | .error e => .error (.ingestion (.invalidBatch e))
    | .ok () =>
      let stored := readStreamCursor stream writer.finality
      match generateStreamToAppend (writer.lastSyncOf stored) writer.defaultFromBlock batch.logs
          ⟨batch.latestBlock, batch.fromBlock, batch.toBlock, writer.finality⟩ with
      | .error e => .error (.ingestion (.unexpectedFromBlock e))
      | .ok appended => (writer.storeStream stream stored appended).map fun stream => (appended, stream)

/-- Where the next batch must start, read from the stream. -/
def StreamWriter.expectedFromBlock (writer : StreamWriter K S) (stream : EmissionStore S H D) : ℕ :=
  getFromBlock (writer.lastSyncOf (readStreamCursor stream writer.finality)) writer.defaultFromBlock writer.finality

/-- **The batches a writer accepts**, and the stream they leave. -/
inductive Writes (writer : StreamWriter K S) : List (Receipt K H D) → EmissionStore S H D → Prop
  | start : Writes writer [] ⟨[], none⟩
  | receive {rs : List (Receipt K H D)} {stream stream' : EmissionStore S H D} {batch : WireBatch K H D}
      {a : Appended H D} (run : Writes writer rs stream) (ok : writer.receive stream batch = .ok (a, stream')) :
      Writes writer (rs ++ [⟨batch, a⟩]) stream'

/-- The receiver that indexes what a writer writes, and carries its cursor. -/
def StreamWriter.builder (writer : StreamWriter K S) : StreamBuilder K :=
  ⟨writer.context, writer.defaultFromBlock, writer.finality⟩

/-! ### The stream read back -/

omit [DecidableEq K] in
/-- The rows come back as they were emitted. -/
theorem readStoredStream_tableOf (es : List (LogEvent H D)) (n : ℕ) :
    readStoredStream (tableOf es) n = es.filter fun e => n ≤ e.blockNumber := by
  have hseq : (tableOf es).Pairwise fun r r' => r.seq ≤ r'.seq := by
    have hle : ((tableOf es).map (·.seq)).Pairwise (· ≤ ·) := by
      rw [tableOf_seq]
      exact List.pairwise_le_range'
    exact List.pairwise_map.1 hle
  unfold readStoredStream
  rw [List.Pairwise.insertionSort_eq (hseq.filter _), ← tableOf_log es, List.filter_map, tableOf_log]
  rfl

/-- The cursor carried, with the window the stream gives. -/
def readBack (finality : ℕ) (deltas : List (Appended H D)) : LastSync H D :=
  { cursorAfter deltas with
    unconfirmedBlocks := rebuiltWindow (emitted deltas) (cursorAfter deltas).lastToBlock finality }

section Writer

variable {writer : StreamWriter K S} {rs ws : List (Receipt K H D)} {stream stream' : EmissionStore S H D}
  {batch : WireBatch K H D} {a : Appended H D}

/-- A writer derives as a receiver with the cursor read back, and appends what it derives. -/
theorem StreamWriter.receive_ok (h : writer.receive stream batch = .ok (a, stream')) :
    writer.builder.receive (writer.lastSyncOf (readStreamCursor stream writer.finality)) batch = .ok a ∧
      stream' = stream.append ⟨writer.sourceHashes, writer.config, a.newLastSync.latestBlock,
        a.newLastSync.lastFromBlock, a.newLastSync.lastToBlock⟩ a.eventStream := by
  unfold StreamWriter.receive at h
  unfold StreamBuilder.receive StreamWriter.builder
  dsimp only
  split at h
  · cases h
  rename_i hcontext
  rw [if_neg hcontext]
  cases hwf : assertWellFormed batch with
  | error e =>
    rw [hwf] at h
    cases h
  | ok _ =>
    rw [hwf] at h
    dsimp only at h ⊢
    revert h
    cases hgen : generateStreamToAppend (writer.lastSyncOf (readStreamCursor stream writer.finality))
        writer.defaultFromBlock batch.logs _ with
    | error e =>
      intro h
      cases h
    | ok appended =>
      intro h
      unfold StreamWriter.storeStream at h
      dsimp only at h
      split at h
      · cases h
      · obtain ⟨rfl, rfl⟩ := Prod.mk.inj (Except.ok.inj h)
        exact ⟨rfl, rfl⟩

/-- A writer refuses nothing such a receiver accepts, unless the batch would leave a hole. -/
theorem StreamWriter.receive_of
    (h : writer.builder.receive (writer.lastSyncOf (readStreamCursor stream writer.finality)) batch = .ok a)
    (hole : ∀ stored ∈ readStreamCursor stream writer.finality, batch.fromBlock ≤ stored.lastToBlock + 1) :
    ∃ stream', writer.receive stream batch = .ok (a, stream') := by
  have hlast := (generate_sync (Etherfold.receive_ok h).2).1
  unfold StreamBuilder.receive StreamWriter.builder at h
  dsimp only at h
  split at h
  · cases h
  rename_i hcontext
  split at h
  · cases h
  rename_i hwf
  split at h
  · cases h
  rename_i appended hgen
  obtain rfl := Except.ok.inj h
  unfold StreamWriter.receive
  rw [if_neg hcontext, hwf]
  dsimp only
  rw [hgen]
  dsimp only
  have hnone : (readStreamCursor stream writer.finality).filter
      (fun stored => stored.lastToBlock + 1 < appended.newLastSync.lastFromBlock) = none := by
    rw [Option.filter_eq_none_iff]
    intro stored hstored
    have hfrom := hole stored hstored
    rw [hlast, decide_eq_true_eq, not_lt]
    exact hfrom
  unfold StreamWriter.storeStream
  rw [hnone]
  exact ⟨_, rfl⟩

/-- **What a writer reads back**: the rows of its deltas, and the cursor after them with the rebuilt window. -/
theorem Writes.cursor_read (run : Writes writer rs stream) : stream.rows = tableOf (emitted (received rs)) ∧
    writer.lastSyncOf (readStreamCursor stream writer.finality) = readBack writer.finality (received rs) := by
  induction run with
  | start => exact ⟨rfl, rfl⟩
  | @receive rs stream stream' batch a run ok ih =>
    obtain ⟨-, rfl⟩ := StreamWriter.receive_ok ok
    have hrows : (stream.append ⟨writer.sourceHashes, writer.config, a.newLastSync.latestBlock,
        a.newLastSync.lastFromBlock, a.newLastSync.lastToBlock⟩ a.eventStream).rows =
          tableOf (emitted (received (rs ++ [⟨batch, a⟩]))) := by
      unfold EmissionStore.append
      rw [ih.1, appendEmissions_tableOf, received_concat, emitted_concat]
    refine ⟨hrows, ?_⟩
    unfold readStreamCursor
    rw [hrows]
    unfold readBack rebuiltWindow EmissionStore.append
    rw [received_concat, cursorAfter_concat]
    dsimp only
    rw [Option.map_some]
    unfold StreamWriter.lastSyncOf
    dsimp only
    have hclaim : (coverageUpsertOf stream.coverage ⟨writer.sourceHashes, writer.config, a.newLastSync.latestBlock,
        a.newLastSync.lastFromBlock, a.newLastSync.lastToBlock⟩).toEmissionCoverage = ⟨writer.sourceHashes,
          writer.config, a.newLastSync.latestBlock, a.newLastSync.lastFromBlock, a.newLastSync.lastToBlock⟩ := by
      unfold coverageUpsertOf
      split
      · rfl
      · rfl
    rw [hclaim, readStoredStream_tableOf]

theorem Writes.step {pre : List (Receipt K H D)} {r : Receipt K H D} (run : Writes writer rs stream)
    (hpre : pre ++ [r] <+: rs) : ∃ stream, Writes writer pre stream ∧
      writer.builder.receive (readBack writer.finality (received pre)) r.batch = .ok r.appended := by
  induction run with
  | start => simp at hpre
  | @receive rs stream stream' batch a run ok ih =>
    rcases List.prefix_concat_iff.1 hpre with heq | hpre
    · obtain ⟨rfl, hr⟩ := List.append_inj' heq rfl
      obtain rfl : r = ⟨batch, a⟩ := by simpa using hr
      exact ⟨stream, run, run.cursor_read.2 ▸ (StreamWriter.receive_ok ok).1⟩
    · exact ih hpre

/-- A claim reaches the first block there is. -/
theorem Writes.claim (run : Writes writer rs stream) {stored : StreamCursorRead H D}
    (h : stored ∈ readStreamCursor stream writer.finality) : writer.defaultFromBlock ≤ stored.lastToBlock := by
  cases run with
  | start => cases h
  | @receive rs stream stream' batch a run ok =>
    have hread := (Writes.receive run ok).cursor_read.2
    rw [Option.mem_def.1 h, received_concat] at hread
    obtain ⟨hwf, hgen⟩ := Etherfold.receive_ok (StreamWriter.receive_ok ok).1
    have hto : stored.lastToBlock = batch.toBlock := by
      have hlast : stored.lastToBlock = (cursorAfter (received rs ++ [a])).lastToBlock :=
        congrArg LastSync.lastToBlock hread
      rw [hlast, cursorAfter_concat, (generate_sync hgen).2.2]
    have hfrom : batch.fromBlock = getFromBlock _ writer.defaultFromBlock writer.finality :=
      (generate_ok_iff _ _ _ _).1 ⟨a, hgen⟩
    have hge := getFromBlock_ge (writer.lastSyncOf (readStreamCursor stream writer.finality))
      writer.defaultFromBlock writer.finality
    have hle := hwf.from_le_to
    omega

/-- No batch a writer expects leaves a hole. -/
theorem Writes.no_hole (run : Writes writer rs stream)
    (ok : writer.builder.receive (readBack writer.finality (received rs)) batch = .ok a) :
    ∀ stored ∈ readStreamCursor stream writer.finality, batch.fromBlock ≤ stored.lastToBlock + 1 := by
  intro stored hstored
  have hclaim := run.claim hstored
  have hread := run.cursor_read.2
  rw [Option.mem_def.1 hstored] at hread
  have hlast : stored.lastToBlock = (readBack writer.finality (received rs)).lastToBlock :=
    congrArg LastSync.lastToBlock hread
  have hfrom : batch.fromBlock = getFromBlock _ writer.defaultFromBlock writer.finality :=
    (generate_ok_iff _ _ _ _).1 ⟨a, (Etherfold.receive_ok ok).2⟩
  have hle := getFromBlock_le (readBack writer.finality (received rs)) writer.defaultFromBlock writer.finality
  rw [← hfrom, ← hlast] at hle
  omega

/-- The cursors carried have their batches' numbers. -/
def Synced (rs : List (Receipt K H D)) : Prop :=
  ∀ r ∈ rs, r.appended.newLastSync.latestBlock = r.batch.latestBlock ∧
    r.appended.newLastSync.lastToBlock = r.batch.toBlock

theorem Writes.synced (run : Writes writer rs stream) : Synced rs := by
  induction run with
  | start => exact fun r hr => absurd hr List.not_mem_nil
  | @receive rs stream stream' batch a run ok ih =>
    intro r hr
    rcases List.mem_append.1 hr with hr | hr
    · exact ih r hr
    · rw [List.mem_singleton.1 hr]
      exact (generate_sync (Etherfold.receive_ok (StreamWriter.receive_ok ok).1).2).2

omit [DecidableEq K] [DecidableEq H] in
/-- Receivers that took the same batches expect the same next one. -/
theorem cursor_numbers (h : Synced rs) (h' : Synced ws) (hb : ws.map (·.batch) = rs.map (·.batch)) :
    (cursorAfter (received ws)).latestBlock = (cursorAfter (received rs)).latestBlock ∧
      (cursorAfter (received ws)).lastToBlock = (cursorAfter (received rs)).lastToBlock := by
  rcases rs.eq_nil_or_concat with rfl | ⟨rs, r, rfl⟩
  · rw [List.map_nil, List.map_eq_nil_iff] at hb
    rw [hb]
    exact ⟨rfl, rfl⟩
  · rcases ws.eq_nil_or_concat with rfl | ⟨ws, w, rfl⟩
    · simp at hb
    · rw [List.concat_eq_append] at *
      rw [List.concat_eq_append] at *
      rw [List.map_append, List.map_append] at hb
      have hsame : w.batch = r.batch := by simpa using (List.append_inj' hb rfl).2
      have hr := h r (List.mem_append_right _ (List.mem_singleton_self r))
      have hw := h' w (List.mem_append_right _ (List.mem_singleton_self w))
      rw [received_concat, received_concat, cursorAfter_concat, cursorAfter_concat, hr.1, hr.2, hw.1, hw.2, hsame]
      exact ⟨rfl, rfl⟩

end Writer

/-! ### The two windows over a run -/

section Run

variable {numberOf : H → ℕ} {writer : StreamWriter K S} {rs ws : List (Receipt K H D)} {stream : EmissionStore S H D}

/-- A live cursor stays in step with its stream while nothing else is in reach. -/
theorem Accepted.mirrored {sb : StreamBuilder K} (run : Accepted sb rs) (hn : ∀ r ∈ rs, Numbered numberOf r.batch)
    (hone : ∀ r ∈ rs, OneBranch r.batch) (hreach : ∀ pre r, pre ++ [r] <+: rs →
      OutOfReach sb.finality (cursorAfter (received pre)) (emitted (received pre)) r.batch) :
    ∃ gs, Mirrored numberOf sb.finality (cursorAfter (received rs)) (emitted (received rs)) gs := by
  induction run with
  | start => exact ⟨[], Mirrored.start numberOf _⟩
  | @receive rs batch a run ok ih =>
    obtain ⟨gs, hm⟩ := ih (fun r hr => hn r (List.mem_append_left _ hr))
      (fun r hr => hone r (List.mem_append_left _ hr))
      fun pre r hpre => hreach pre r (hpre.trans (List.prefix_append _ _))
    rw [received_concat, cursorAfter_concat, emitted_concat]
    exact hm.receive (hn ⟨batch, a⟩ (by simp)) (hone ⟨batch, a⟩ (by simp))
      (hreach rs ⟨batch, a⟩ (List.prefix_refl _)) ok

/-- The cursor of a writer's last call stays in step in any case: the rebuilt window lists what stands. -/
theorem Writes.mirrored (run : Writes writer rs stream) (hn : ∀ r ∈ rs, Numbered numberOf r.batch)
    (hone : ∀ r ∈ rs, OneBranch r.batch) :
    ∃ gs, Mirrored numberOf writer.finality (cursorAfter (received rs)) (emitted (received rs)) gs := by
  induction run with
  | start => exact ⟨[], Mirrored.start numberOf _⟩
  | @receive rs stream stream' batch a run ok ih =>
    obtain ⟨gs, hm⟩ := ih (fun r hr => hn r (List.mem_append_left _ hr))
      fun r hr => hone r (List.mem_append_left _ hr)
    have hok := (StreamWriter.receive_ok ok).1
    rw [run.cursor_read.2] at hok
    rw [received_concat, cursorAfter_concat, emitted_concat]
    exact @Mirrored.receive K H D _ _ numberOf writer.builder _ _ _ _ _ hm.rebuilt (hn ⟨batch, a⟩ (by simp))
      (hone ⟨batch, a⟩ (by simp)) hm.rebuilt_outOfReach hok

theorem Accepted.synced {sb : StreamBuilder K} (run : Accepted sb rs) : Synced rs :=
  fun _ hr => (run.sync hr).2

/-- A writer accepts the batches a live receiver accepts. -/
theorem Accepted.writes (S : Type) {writer : StreamWriter K S} (run : Accepted writer.builder rs) :
    ∃ (ws : List (Receipt K H D)) (stream : EmissionStore S H D), Writes writer ws stream ∧
      ws.map (·.batch) = rs.map (·.batch) := by
  induction run with
  | start => exact ⟨[], _, .start, rfl⟩
  | @receive rs batch a run ok ih =>
    obtain ⟨ws, stream, wrun, hb⟩ := ih
    obtain ⟨hlatest, hto⟩ := cursor_numbers run.synced wrun.synced hb
    have hcongr : ∃ a', writer.builder.receive (readBack writer.finality (received ws)) batch = .ok a' :=
      receive_congr hlatest hto ok
    obtain ⟨a', ha'⟩ := hcongr
    have hread := wrun.cursor_read.2
    obtain ⟨stream', hok⟩ := StreamWriter.receive_of (hread ▸ ha') (wrun.no_hole ha')
    refine ⟨_, stream', .receive wrun hok, ?_⟩
    rw [List.map_append, List.map_append, hb]
    rfl

/-- **The two streams are the same** exactly when nothing that only the stream lists is in reach. -/
theorem streams_iff (run : Accepted writer.builder rs) (hn : ∀ r ∈ rs, Numbered numberOf r.batch)
    (hone : ∀ r ∈ rs, OneBranch r.batch) (wrun : Writes writer ws stream)
    (hb : ws.map (·.batch) = rs.map (·.batch)) :
    ws.map (·.appended.eventStream) = rs.map (·.appended.eventStream) ↔ ∀ pre r, pre ++ [r] <+: rs →
      OutOfReach writer.finality (cursorAfter (received pre)) (emitted (received pre)) r.batch := by
  induction run generalizing ws stream with
  | start =>
    rw [List.map_nil, List.map_eq_nil_iff] at hb
    rw [hb]
    exact iff_of_true rfl fun pre r hpre => by simp at hpre
  | @receive rs batch a run ok ih =>
    cases wrun with
    | start => simp at hb
    | @receive ws stream stream' batch' a' wrun wok =>
      rw [List.map_append, List.map_append] at hb ⊢
      obtain ⟨hbs, hlast⟩ := List.append_inj' hb rfl
      obtain rfl : batch' = batch := by simpa using hlast
      have hn' : ∀ r ∈ rs, Numbered numberOf r.batch := fun r hr => hn r (List.mem_append_left _ hr)
      have hone' : ∀ r ∈ rs, OneBranch r.batch := fun r hr => hone r (List.mem_append_left _ hr)
      have hmem : (⟨batch', a⟩ : Receipt K H D) ∈ rs ++ [⟨batch', a⟩] :=
        List.mem_append_right _ (List.mem_singleton_self _)
      have hbefore := ih hn' hone' wrun hbs
      -- the streams agreed so far, so the stream read back is the live cursor's
      have hstep : ws.map (·.appended.eventStream) = rs.map (·.appended.eventStream) →
          (a'.eventStream = a.eventStream ↔
            OutOfReach writer.finality (cursorAfter (received rs)) (emitted (received rs)) batch') := by
        intro hsame
        obtain ⟨gs, hm⟩ := run.mirrored hn' hone' (hbefore.1 hsame)
        obtain ⟨hlatest, hto⟩ := cursor_numbers run.synced wrun.synced hbs
        have hes : emitted (received ws) = emitted (received rs) := by
          unfold emitted received
          rw [List.flatMap_def, List.flatMap_def, List.map_map, List.map_map]
          exact congrArg List.flatten hsame
        have hok := (StreamWriter.receive_ok wok).1
        rw [wrun.cursor_read.2] at hok
        have hwindow : (readBack writer.finality (received ws)).unconfirmedBlocks =
            rebuiltWindow (emitted (received rs)) (cursorAfter (received rs)).lastToBlock writer.builder.finality := by
          rw [← hes, ← hto]
          rfl
        exact delta_iff hm (hn _ hmem) hwindow ok hok
      have hsplit : ws.map (·.appended.eventStream) ++ [a'.eventStream] =
          rs.map (·.appended.eventStream) ++ [a.eventStream] ↔
            ws.map (·.appended.eventStream) = rs.map (·.appended.eventStream) ∧ a'.eventStream = a.eventStream := by
        refine ⟨fun h => ?_, fun h => by rw [h.1, h.2]⟩
        obtain ⟨h1, h2⟩ := List.append_inj' h rfl
        exact ⟨h1, List.singleton_inj.1 h2⟩
      refine hsplit.trans ⟨fun h pre r hpre => ?_, fun h => ?_⟩
      · rcases List.prefix_concat_iff.1 hpre with heq | hpre
        · obtain ⟨rfl, hr⟩ := List.append_inj' heq rfl
          obtain rfl : r = ⟨batch', a⟩ := by simpa using hr
          exact (hstep h.1).1 h.2
        · exact hbefore.1 h.1 pre r hpre
      · have hsame := hbefore.2 fun pre r hpre => h pre r (hpre.trans (List.prefix_append _ _))
        exact ⟨hsame, (hstep hsame).2 (h rs ⟨batch', a⟩ (List.prefix_refl _))⟩

/-- Nothing is in reach while the reported tips do not fall: every applied block from the resume point on is
listed. -/
theorem Accepted.outOfReach {sb : StreamBuilder K} (run : Accepted sb rs) (hn : ∀ r ∈ rs, Numbered numberOf r.batch)
    (hone : ∀ r ∈ rs, OneBranch r.batch)
    (htips : rs.IsChain fun r s => r.batch.latestBlock ≤ s.batch.latestBlock) : ∀ pre r, pre ++ [r] <+: rs →
      OutOfReach sb.finality (cursorAfter (received pre)) (emitted (received pre)) r.batch := by
  induction run with
  | start => exact fun pre r hpre => by simp at hpre
  | @receive rs batch a run ok ih =>
    have hn' : ∀ r ∈ rs, Numbered numberOf r.batch := fun r hr => hn r (List.mem_append_left _ hr)
    have hone' : ∀ r ∈ rs, OneBranch r.batch := fun r hr => hone r (List.mem_append_left _ hr)
    have hchain := (List.isChain_append.1 htips).1
    have hbefore := ih hn' hone' hchain
    intro pre r hpre
    rcases List.prefix_concat_iff.1 hpre with heq | hpre
    · obtain ⟨rfl, hr⟩ := List.append_inj' heq rfl
      obtain rfl : r = ⟨batch, a⟩ := by simpa using hr
      obtain ⟨gs, hm⟩ := run.mirrored hn' hone' hbefore
      have hreaches := run.reaches hn' hchain
      have hfrom : batch.fromBlock = getFromBlock _ sb.defaultFromBlock sb.finality :=
        (generate_ok_iff _ _ _ _).1 ⟨a, (receive_ok ok).2⟩
      intro b hb hrecent hnot
      refine .inl ?_
      by_contra hge
      rw [not_lt, hfrom, (hm.block_ok hb).2.2] at hge
      have hlive : b.hash ∈ liveBlocks (emitted (received pre)) := by
        rw [hm.mem_liveBlocks, hm.stands.1 hb]
        rfl
      obtain ⟨w, hw, hwb⟩ := List.mem_map.1 (hreaches _ hlive hge)
      have hstand := hm.listed w hw
      rw [hwb, hm.stands.1 hb] at hstand
      exact hnot (Option.some.inj hstand ▸ hw)
    · exact hbefore pre r hpre

/-- **A writer accepts the batches of a live receiver and expects the same next one.** Its stream is the live
one exactly when, at each batch, no standing block that only the stream lists is in the batch's reach; the cursor
of its own last call derives what it appends under the same condition; and no such block is in reach while the
reported tips do not fall. -/
theorem writer_iff {writer : StreamWriter K S} (run : Accepted writer.builder rs)
    (hn : ∀ r ∈ rs, Numbered numberOf r.batch) (hone : ∀ r ∈ rs, OneBranch r.batch) :
    ∃ (ws : List (Receipt K H D)) (stream : EmissionStore S H D), Writes writer ws stream ∧
      ws.map (·.batch) = rs.map (·.batch) ∧
      writer.expectedFromBlock stream =
        getFromBlock (cursorAfter (received rs)) writer.defaultFromBlock writer.finality ∧
      (ws.map (·.appended.eventStream) = rs.map (·.appended.eventStream) ↔ ∀ pre r, pre ++ [r] <+: rs →
        OutOfReach writer.finality (cursorAfter (received pre)) (emitted (received pre)) r.batch) ∧
      (∀ pre w, pre ++ [w] <+: ws → ∃ r, writer.builder.receive (cursorAfter (received pre)) w.batch = .ok r ∧
        (w.appended.eventStream = r.eventStream ↔
          OutOfReach writer.finality (cursorAfter (received pre)) (emitted (received pre)) w.batch)) ∧
      (rs.IsChain (fun r s => r.batch.latestBlock ≤ s.batch.latestBlock) → ∀ pre r, pre ++ [r] <+: rs →
        OutOfReach writer.finality (cursorAfter (received pre)) (emitted (received pre)) r.batch) := by
  obtain ⟨ws, stream, wrun, hb⟩ := run.writes S
  obtain ⟨hlatest, hto⟩ := cursor_numbers run.synced wrun.synced hb
  have hmem : ∀ w ∈ ws, ∃ r ∈ rs, r.batch = w.batch := by
    intro w hw
    have hin : w.batch ∈ rs.map (·.batch) := hb ▸ List.mem_map_of_mem hw
    exact List.mem_map.1 hin
  refine ⟨ws, stream, wrun, hb, ?_, streams_iff run hn hone wrun hb, ?_, run.outOfReach hn hone⟩
  · unfold StreamWriter.expectedFromBlock getFromBlock
    rw [wrun.cursor_read.2, ← hlatest, ← hto]
    rfl
  · intro pre w hpre
    have hsub : ∀ v ∈ pre ++ [w], Numbered numberOf v.batch ∧ OneBranch v.batch := by
      intro v hv
      obtain ⟨r, hr, heq⟩ := hmem v (hpre.subset hv)
      rw [← heq]
      exact ⟨hn r hr, hone r hr⟩
    obtain ⟨streamBefore, hrun, hok⟩ := wrun.step hpre
    obtain ⟨gs, hm⟩ := hrun.mirrored (fun v hv => (hsub v (List.mem_append_left _ hv)).1)
      fun v hv => (hsub v (List.mem_append_left _ hv)).2
    have hlatest' : (cursorAfter (received pre)).latestBlock = (readBack writer.finality (received pre)).latestBlock := rfl
    have hto' : (cursorAfter (received pre)).lastToBlock = (readBack writer.finality (received pre)).lastToBlock := rfl
    obtain ⟨r, hr⟩ := receive_congr hlatest' hto' hok
    have hwindow : (readBack writer.finality (received pre)).unconfirmedBlocks =
        rebuiltWindow (emitted (received pre)) (cursorAfter (received pre)).lastToBlock writer.builder.finality := rfl
    exact ⟨r, hr, delta_iff hm (hsub w (List.mem_append_right _ (List.mem_singleton_self w))).1 hwindow hr hok⟩

end Run

/-- The writer of the batches with rising tips, and of those with a falling one. -/
def writerAt (finality : ℕ) : StreamWriter Unit Unit := ⟨(), 0, finality, (), ""⟩

theorem writer_risingTips : ∃ (ws : List (Receipt Unit ℕ Unit)) (stream : EmissionStore Unit ℕ Unit),
    Writes (writerAt 3) ws stream ∧
      ws.map (·.appended.eventStream) = risingTips.map (·.appended.eventStream) := by
  have hn : ∀ r ∈ risingTips, Numbered (· % 100) r.batch := by decide
  have hone : ∀ r ∈ risingTips, OneBranch r.batch := by decide
  have run : Accepted (writerAt 3).builder risingTips := accepted_risingTips
  obtain ⟨ws, stream, wrun, -, -, hiff, -, htips⟩ := writer_iff run hn hone
  exact ⟨ws, stream, wrun, hiff.2 (htips (by decide))⟩

/-- What a writer derives of the batches with a falling tip: block `3`, which the live cursor has dropped, is
still in its window. -/
def fallingWrites : List (Receipt Unit ℕ Unit) :=
  [⟨⟨(), 0, 5, 5, [⟨3, 3, 0, false, ()⟩]⟩, ⟨[⟨3, 3, 0, false, ()⟩], ⟨0, 5, 5, []⟩, none⟩⟩,
    ⟨⟨(), 4, 4, 4, []⟩, ⟨[], ⟨4, 4, 4, []⟩, none⟩⟩,
    ⟨⟨(), 3, 4, 4, [⟨3, 3, 0, false, ()⟩]⟩,
      ⟨[], ⟨3, 4, 4, [⟨3, 3, [⟨3, 3, 0, false, ()⟩]⟩]⟩, none⟩⟩]

/-- The stream they leave, from batch to batch. -/
def fallingStore (latestBlock lastFromBlock lastToBlock : ℕ) : EmissionStore Unit ℕ Unit :=
  ⟨[⟨⟨3, 3, 0, false, ()⟩, 1, true⟩], some ⟨⟨(), "", latestBlock, lastFromBlock, lastToBlock⟩, 0⟩⟩

theorem writes_fallingTips : Writes (writerAt 1) fallingWrites (fallingStore 4 3 4) := by
  have h1 : Writes (writerAt 1) (fallingWrites.take 1) (fallingStore 5 0 5) := .receive .start rfl
  have h2 : Writes (writerAt 1) (fallingWrites.take 2) (fallingStore 4 4 4) := .receive h1 rfl
  exact .receive h2 rfl

/-- **Under a lower tip the rebuilt window hides a block that the carried one delivers again.** -/
theorem fallingTips_writer : Accepted (writerAt 1).builder fallingTips ∧
    (∀ r ∈ fallingTips, Numbered (· % 100) r.batch ∧ OneBranch r.batch) ∧
    (∃ stream, Writes (writerAt 1) fallingWrites stream) ∧
    fallingWrites.map (·.batch) = fallingTips.map (·.batch) ∧
    fallingWrites.map (·.appended.eventStream) ≠ fallingTips.map (·.appended.eventStream) ∧
    (∃ r, (writerAt 1).builder.receive (cursorAfter (received (fallingWrites.take 2)))
      ⟨(), 3, 4, 4, [⟨3, 3, 0, false, ()⟩]⟩ = .ok r ∧ r.eventStream = [⟨3, 3, 0, false, ()⟩]) := by
  refine ⟨.receive (.receive (.receive .start rfl) rfl) rfl, by decide,
    ⟨_, writes_fallingTips⟩, rfl, by decide, ⟨_, rfl, rfl⟩⟩

end Etherfold
