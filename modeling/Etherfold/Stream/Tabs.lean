import Etherfold.Stream.Segments

/-!
# Several tabs on one stream

A save and a clear are one commit each, whichever tab makes them. A read is two:
the cursor record, then the segments. What was committed in between shows in the
second and not in the first.

* `runStream`: the subtree after some commits, and the saves accepted since the last clear.
* `Subtree.Holds`: what the subtree keeps of them, and the blocks they cover.
* `runStream_holds`: **every run keeps what was accepted, without a hole**.
* `fetchFrom_sound_iff`: **a read reports no damage exactly when it counts the segments the
  cursor was written with**.
-/

namespace Etherfold

variable {H D : Type}

/-- What a tab commits to the subtree. -/
inductive StreamCommit (H D : Type) where
  | saveNewEvents (lastSync : StoredLastSync) (eventStream : List (SeedEvent H D))
  | clear

/-- A save that was accepted. -/
structure AcceptedSave (H D : Type) where
  lastSync : StoredLastSync
  eventStream : List (SeedEvent H D)

/-- One commit: the subtree after it, and the saves accepted since the last clear. -/
def commitStream (state : Subtree H D × List (AcceptedSave H D)) :
    StreamCommit H D → Subtree H D × List (AcceptedSave H D)
  | .saveNewEvents lastSync eventStream =>
    let (declined, t) := state.1.saveNewEvents lastSync eventStream
    (t, if declined then state.2 else state.2 ++ [⟨lastSync, eventStream⟩])
  | .clear => (Subtree.empty, [])

/-- A run of the tabs, from nothing stored. -/
def runStream (commits : List (StreamCommit H D)) : Subtree H D × List (AcceptedSave H D) :=
  commits.foldl commitStream (Subtree.empty, [])

namespace Subtree

/-- **A read that spans other commits**: the cursor of one subtree, the segments of a later one. -/
def fetchAcross (t later : Subtree H D) (fromBlock : ℤ) : StreamRead H D :=
  fetchFrom ⟨t.cursor, later.segments⟩ fromBlock

/-- The batches that were stored, one segment each; a save without events stores none. -/
def batchesOf (accepted : List (AcceptedSave H D)) : List (List (SeedEvent H D)) :=
  (accepted.map (·.eventStream)).filter fun batch => !batch.isEmpty

/-- Every block in between lies in the range of an accepted save. -/
def Covers (accepted : List (AcceptedSave H D)) (startBlock lastToBlock : ℤ) : Prop :=
  ∀ block, startBlock ≤ block → block ≤ lastToBlock →
    ∃ save ∈ accepted, save.lastSync.lastFromBlock ≤ block ∧ block ≤ save.lastSync.lastToBlock

/-- What a subtree keeps of the accepted saves: nothing of none, or their batches under a cursor
that claims only what they cover. -/
def Holds (t : Subtree H D) (accepted : List (AcceptedSave H D)) : Prop :=
  (accepted = [] ∧ t = empty) ∨
    ∃ startBlock lastSync, t.Keeps (batchesOf accepted) startBlock lastSync ∧
      Covers accepted startBlock lastSync.lastToBlock

theorem batchesOf_append (accepted more : List (AcceptedSave H D)) :
    batchesOf (accepted ++ more) = batchesOf accepted ++ batchesOf more := by
  unfold batchesOf
  rw [List.map_append, List.filter_append]

theorem batchesOf_quiet (lastSync : StoredLastSync) : batchesOf [⟨lastSync, ([] : List (SeedEvent H D))⟩] = [] := by
  simp [batchesOf]

theorem batchesOf_single (lastSync : StoredLastSync) {batch : List (SeedEvent H D)} (h : batch ≠ []) :
    batchesOf [⟨lastSync, batch⟩] = [batch] := by
  simp [batchesOf, h]

theorem flatten_batchesOf (accepted : List (AcceptedSave H D)) :
    (batchesOf accepted).flatten = accepted.flatMap (·.eventStream) := by
  unfold batchesOf
  rw [List.flatten_filter_not_isEmpty, List.flatMap_def]

/-- A save that leaves no hole covers on. -/
theorem Covers.save {accepted : List (AcceptedSave H D)} {startBlock lastToBlock : ℤ}
    (h : Covers accepted startBlock lastToBlock) {save : AcceptedSave H D}
    (hnext : save.lastSync.lastFromBlock ≤ lastToBlock + 1) :
    Covers (accepted ++ [save]) startBlock save.lastSync.lastToBlock := by
  intro block hstart hto
  by_cases hfrom : save.lastSync.lastFromBlock ≤ block
  · exact ⟨save, List.mem_append_right _ (List.mem_singleton_self save), hfrom, hto⟩
  · -- below the batch the old cursor had come by
    obtain ⟨old, hold, hrange⟩ := h block hstart (by omega)
    exact ⟨old, List.mem_append_left _ hold, hrange⟩

theorem covers_first (save : AcceptedSave H D) :
    Covers [save] save.lastSync.lastFromBlock save.lastSync.lastToBlock :=
  fun _ hstart hto => ⟨save, List.mem_singleton_self save, hstart, hto⟩

section Save

variable {t : Subtree H D} {batches : List (List (SeedEvent H D))} {startBlock : ℤ} {lastSync next : StoredLastSync}

theorem Keeps.carryForward (h : t.Keeps batches startBlock lastSync) (next : StoredLastSync) :
    Subtree.carryForward t.cursor next =
      if next.lastFromBlock > lastSync.lastToBlock + 1 then none else some (startBlock, batches.length) := by
  rw [h.cursor]
  rfl

/-- A save without events moves the cursor alone. -/
theorem Keeps.quiet (h : t.Keeps batches startBlock lastSync) (hnext : next.lastFromBlock ≤ lastSync.lastToBlock + 1) :
    (t.saveNewEvents next []).1 = false ∧ (t.saveNewEvents next []).2.Keeps batches startBlock next := by
  have hcarry := h.carryForward next
  rw [if_neg (by omega)] at hcarry
  unfold saveNewEvents writeCursorOnly
  simp only [List.isEmpty_nil, if_true, hcarry, Option.map_some, Option.isNone_some]
  exact ⟨trivial, rfl, h.segments⟩

/-- A batch above what is stored is declined, and nothing is written. -/
theorem Keeps.declined (h : t.Keeps batches startBlock lastSync) (hnext : lastSync.lastToBlock + 1 < next.lastFromBlock)
    (batch : List (SeedEvent H D)) : t.saveNewEvents next batch = (true, t) := by
  have hcarry := h.carryForward next
  rw [if_pos (by omega)] at hcarry
  unfold saveNewEvents writeCursorOnly commitSegmentWithCursor
  simp only [hcarry, Option.map_none, Option.isNone_none]
  split <;> rfl

end Save

/-- **One commit keeps what was accepted.** -/
theorem Holds.commit {state : Subtree H D × List (AcceptedSave H D)} (h : state.1.Holds state.2)
    (commit : StreamCommit H D) : (commitStream state commit).1.Holds (commitStream state commit).2 := by
  cases commit with
  | clear => exact .inl ⟨rfl, rfl⟩
  | saveNewEvents lastSync batch =>
    obtain ⟨t, accepted⟩ := state
    unfold commitStream
    dsimp only at h ⊢
    rcases h with ⟨rfl, rfl⟩ | ⟨startBlock, before, hkeeps, hcovers⟩
    · -- the first save of the subtree
      by_cases hbatch : batch = []
      · subst hbatch
        obtain ⟨hok, hkeeps⟩ := keeps_quiet lastSync
        rw [hok]
        exact .inr ⟨_, lastSync, by rw [if_neg (by simp), List.nil_append, batchesOf_quiet]; exact hkeeps, covers_first _⟩
      · obtain ⟨hok, hkeeps⟩ := keeps_first lastSync hbatch
        rw [hok]
        exact .inr ⟨_, lastSync, by rw [if_neg (by simp), List.nil_append, batchesOf_single _ hbatch]; exact hkeeps,
          covers_first _⟩
    · by_cases hnext : lastSync.lastFromBlock ≤ before.lastToBlock + 1
      · have hon := @Covers.save _ _ _ _ _ hcovers ⟨lastSync, batch⟩ hnext
        by_cases hbatch : batch = []
        · subst hbatch
          obtain ⟨hok, hkept⟩ := hkeeps.quiet hnext
          rw [hok]
          refine .inr ⟨startBlock, lastSync, ?_, hon⟩
          rw [if_neg (by simp), batchesOf_append, batchesOf_quiet, List.append_nil]
          exact hkept
        · obtain ⟨hok, hkept⟩ := hkeeps.save hbatch hnext
          rw [hok]
          refine .inr ⟨startBlock, lastSync, ?_, hon⟩
          rw [if_neg (by simp), batchesOf_append, batchesOf_single _ hbatch]
          exact hkept
      · rw [hkeeps.declined (by omega) batch]
        exact .inr ⟨startBlock, before, hkeeps, hcovers⟩

/-- **Every run keeps what was accepted**, and its cursor claims no block that was never saved. -/
theorem runStream_holds (commits : List (StreamCommit H D)) : (runStream commits).1.Holds (runStream commits).2 := by
  induction commits using List.reverseRecOn with
  | nil => exact .inl ⟨rfl, rfl⟩
  | append_singleton commits commit ih =>
    unfold runStream
    rw [List.foldl_append]
    exact ih.commit commit

/-! ### A read that spans commits -/

section Fetch

variable {t later : Subtree H D} {accepted accepted' : List (AcceptedSave H D)}

theorem Holds.segments (h : t.Holds accepted) : t.segments = numbered 0 (batchesOf accepted) := by
  rcases h with ⟨rfl, rfl⟩ | ⟨startBlock, lastSync, hkeeps, -⟩
  · rfl
  · exact hkeeps.segments

/-- The cursor counts the segments it was written with. -/
theorem Holds.cursor (h : t.Holds accepted) : (t.cursor = none ∧ t.segments = []) ∨
    ∃ cursor, t.cursor = some cursor ∧ cursor.nextOrdinal = t.segments.length ∧
      Covers accepted cursor.startBlock cursor.lastToBlock := by
  rcases h with ⟨rfl, rfl⟩ | ⟨startBlock, lastSync, hkeeps, hcovers⟩
  · exact .inl ⟨rfl, rfl⟩
  · refine .inr ⟨_, hkeeps.cursor, ?_, hcovers⟩
    rw [hkeeps.segments, length_numbered]
    rfl

/-- **A read across commits is damaged exactly when the segments were counted anew**, and what it
streams is what the later subtree holds. -/
theorem Holds.fetchAcross (h : t.Holds accepted) (h' : later.Holds accepted') (fromBlock : ℤ) :
    ((∃ reason, t.fetchAcross later fromBlock = .inconsistent reason) ↔ t.segments.length ≠ later.segments.length) ∧
      ∀ eventStream lastSync, t.fetchAcross later fromBlock = .stream eventStream lastSync →
        eventStream = (accepted'.flatMap (·.eventStream)).filter (·.since fromBlock) := by
  have hread := readSegments_numbered 0 (batchesOf accepted')
  rw [← h'.segments, flatten_batchesOf] at hread
  unfold Subtree.fetchAcross fetchFrom
  rcases h.cursor with ⟨hcursor, hempty⟩ | ⟨cursor, hcursor, hcount, -⟩
  · -- no cursor was stored: any segment read afterwards looks orphaned
    rw [hcursor, hempty]
    dsimp only
    by_cases hlater : later.segments = []
    · rw [if_pos hlater, hlater]
      simp
    · rw [if_neg hlater]
      refine ⟨⟨fun _ heq => hlater (List.length_eq_zero_iff.1 heq.symm), fun _ => ⟨_, rfl⟩⟩, fun _ _ heq => by cases heq⟩
  · rw [hcursor, ← hcount]
    dsimp only
    rw [hread]
    dsimp only
    by_cases hsame : later.segments.length ≠ cursor.nextOrdinal
    · rw [if_pos hsame]
      exact ⟨⟨fun _ => hsame.symm, fun _ => ⟨_, rfl⟩⟩, fun _ _ heq => by cases heq⟩
    · rw [if_neg hsame]
      split
      · exact ⟨⟨fun ⟨_, heq⟩ => (by cases heq), fun hne => absurd hne.symm hsame⟩, fun _ _ heq => by cases heq⟩
      · refine ⟨⟨fun ⟨_, heq⟩ => (by cases heq), fun hne => absurd hne.symm hsame⟩, fun eventStream lastSync heq => ?_⟩
        injection heq with heq
        exact heq.symm

end Fetch

end Subtree

/-- **What a read promises** that began after some commits and ended after some more: it finds no
damage, and what it streams was accepted since the last clear, as of one moment of the read. -/
structure ReadsBack (before between : List (StreamCommit H D)) (fromBlock : ℤ) : Prop where
  undamaged : ∀ reason,
    (runStream before).1.fetchAcross (runStream (before ++ between)).1 fromBlock ≠ .inconsistent reason
  accepted : ∀ eventStream lastSync,
    (runStream before).1.fetchAcross (runStream (before ++ between)).1 fromBlock = .stream eventStream lastSync →
      ∃ done rest, between = done ++ rest ∧
        eventStream = ((runStream (before ++ done)).2.flatMap (·.eventStream)).filter (·.since fromBlock)

/-- Every block the cursor claims was saved. -/
def NoHole (commits : List (StreamCommit H D)) : Prop :=
  ∀ cursor, (runStream commits).1.cursor = some cursor →
    Subtree.Covers (runStream commits).2 cursor.startBlock cursor.lastToBlock

/-- **No run leaves a hole.** -/
theorem noHole (commits : List (StreamCommit H D)) : NoHole commits := by
  intro cursor hcursor
  rcases (Subtree.runStream_holds commits).cursor with ⟨hnone, -⟩ | ⟨stored, hstored, -, hcovers⟩
  · rw [hnone] at hcursor
    cases hcursor
  · rw [hstored] at hcursor
    injection hcursor with hcursor
    rw [← hcursor]
    exact hcovers

/-- **A read is right exactly when as many segments are stored at its second step as at its
first**, whatever the tabs commit before it and during it. -/
theorem fetchFrom_sound_iff (before between : List (StreamCommit H D)) (fromBlock : ℤ) :
    (ReadsBack before between fromBlock ∧ NoHole before ∧ NoHole (before ++ between)) ↔
      (runStream before).1.segments.length = (runStream (before ++ between)).1.segments.length := by
  obtain ⟨hdamage, hstream⟩ := (Subtree.runStream_holds before).fetchAcross
    (Subtree.runStream_holds (before ++ between)) fromBlock
  constructor
  · rintro ⟨hreads, -⟩
    by_contra hne
    obtain ⟨reason, hreason⟩ := hdamage.2 hne
    exact hreads.undamaged reason hreason
  · intro heq
    refine ⟨⟨fun reason hreason => hdamage.1 ⟨reason, hreason⟩ heq, fun eventStream lastSync h => ?_⟩, noHole before,
      noHole _⟩
    exact ⟨between, [], (List.append_nil between).symm, hstream eventStream lastSync h⟩

/-- A batch of one event. -/
def savedBatch (fromBlock toBlock : ℤ) : StreamCommit ℕ Unit :=
  .saveNewEvents ⟨⟨[], [], []⟩, toBlock, fromBlock, toBlock⟩ [⟨some fromBlock, some 0, some 1, false, ()⟩]

/-- Another tab appends between the two steps of a read, and the stream reads as damaged. -/
theorem appended_reads_inconsistent :
    (runStream [savedBatch 1 5]).1.fetchAcross (runStream [savedBatch 1 5, savedBatch 6 9]).1 1 =
        .inconsistent (.miscounted 1 2) ∧
      ¬∀ (before between : List (StreamCommit ℕ Unit)) (fromBlock : ℤ), ReadsBack before between fromBlock := by
  have hread : (runStream [savedBatch 1 5]).1.fetchAcross (runStream [savedBatch 1 5, savedBatch 6 9]).1 1 =
      .inconsistent (.miscounted 1 2) := by decide
  exact ⟨hread, fun hall => (hall [savedBatch 1 5] [savedBatch 6 9] 1).undamaged _ hread⟩

end Etherfold
