import Etherfold.Stream.Identity

/-!
# The segmented stream keeper

A stream is kept as one segment per save under an ordinal, beside one cursor record. A save that
would leave a hole is declined, and a read reports what it finds.

* `Subtree.saveNewEvents`, `Subtree.fetchFrom`: the two calls, over the reference port.
* `Subtree.Keeps`: a subtree that holds some saves.
* `Keeps.save`, `Keeps.fetch`: **a contiguous save is kept, and a read returns what was kept**.
-/

namespace Etherfold

variable {H D : Type}

/-- A stored event. What a document lacks, or holds under another type, is none. -/
structure SeedEvent (H D : Type) where
  blockNumber : Option ℤ
  logIndex : Option ℤ
  blockHash : Option H
  removed : Bool
  data : D
  deriving DecidableEq, Repr

/-- A cursor without its window. -/
structure StoredLastSync where
  context : ContextIdentifier
  latestBlock : ℤ
  lastFromBlock : ℤ
  lastToBlock : ℤ
  deriving DecidableEq, Repr

/-- The cursor record: two numbers of the keeper's own beside the cursor. -/
structure StreamCursorRecord extends StoredLastSync where
  startBlock : ℤ
  nextOrdinal : ℕ
  deriving DecidableEq, Repr

/-- A stream's subtree. A segment that does not parse is none. -/
structure Subtree (H D : Type) where
  cursor : Option StreamCursorRecord
  segments : List (ℕ × Option (List (SeedEvent H D)))
  deriving DecidableEq, Repr

/-- What one commit writes. -/
structure SegmentCommit (H D : Type) where
  ordinal : ℕ
  segment : List (SeedEvent H D)
  cursor : StreamCursorRecord

/-- How a subtree is damaged. -/
inductive StreamDamage where
  | noCursor (segments : ℕ)
  | gap (ordinal : ℕ)
  | unparsed (ordinal : ℕ)
  | miscounted (claimed stored : ℕ)
  deriving DecidableEq, Repr

/-- What a read answers. -/
inductive StreamRead (H D : Type) where
  | absent
  | inconsistent (reason : StreamDamage)
  | doesNotReachBack (startBlock : ℤ)
  | stream (eventStream : List (SeedEvent H D)) (lastSync : StoredLastSync)
  deriving DecidableEq, Repr

/-- The block comes at or after this one; an absent number compares false. -/
def SeedEvent.since (fromBlock : ℤ) (e : SeedEvent H D) : Bool := e.blockNumber.any (fromBlock ≤ ·)

namespace Subtree

def empty : Subtree H D := ⟨none, []⟩

/-- A segment under its ordinal, in ordinal order. -/
def putSegment (segments : List (ℕ × Option (List (SeedEvent H D)))) (ordinal : ℕ) (segment : List (SeedEvent H D)) :
    List (ℕ × Option (List (SeedEvent H D))) :=
  segments.filter (·.1 < ordinal) ++ [(ordinal, some segment)] ++ segments.filter (ordinal < ·.1)

/-- A segment and the cursor, together, decided on the stored cursor. -/
def commitSegmentWithCursor (t : Subtree H D) (allocate : Option StreamCursorRecord → Option (SegmentCommit H D)) :
    Subtree H D :=
  match allocate t.cursor with
  | some commit => ⟨some commit.cursor, putSegment t.segments commit.ordinal commit.segment⟩
  | none => t

def writeCursorOnly (t : Subtree H D) (next : Option StreamCursorRecord → Option StreamCursorRecord) : Subtree H D :=
  match next t.cursor with
  | some cursor => { t with cursor := some cursor }
  | none => t

/-- The start block and the ordinal a save goes on with, unless the batch would leave a hole. -/
def carryForward (current : Option StreamCursorRecord) (lastSync : StoredLastSync) : Option (ℤ × ℕ) :=
  match current with
  | none => some (lastSync.lastFromBlock, 0)
  | some cursor =>
    if lastSync.lastFromBlock > cursor.lastToBlock + 1 then none else some (cursor.startBlock, cursor.nextOrdinal)

def cursorRecord (lastSync : StoredLastSync) (startBlock : ℤ) (nextOrdinal : ℕ) : StreamCursorRecord :=
  { lastSync with startBlock := startBlock, nextOrdinal := nextOrdinal }

/-- **Save a batch**; answers whether it was declined. -/
def saveNewEvents (t : Subtree H D) (lastSync : StoredLastSync) (eventStream : List (SeedEvent H D)) : Bool × Subtree H D :=
  let declined := (carryForward t.cursor lastSync).isNone
  if eventStream.isEmpty then
    (declined, t.writeCursorOnly fun current =>
      (carryForward current lastSync).map fun carried => cursorRecord lastSync carried.1 carried.2)
  else
    (declined, t.commitSegmentWithCursor fun current =>
      (carryForward current lastSync).map fun carried =>
        ⟨carried.2, eventStream, cursorRecord lastSync carried.1 (carried.2 + 1)⟩)

/-- The events of the segments, which are numbered from this ordinal on. -/
def readSegments : ℕ → List (ℕ × Option (List (SeedEvent H D))) → Except StreamDamage (List (SeedEvent H D))
  | _, [] => .ok []
  | ordinal, (stored, value) :: rest =>
    if stored ≠ ordinal then .error (.gap ordinal)
    else
      match value with
      | none => .error (.unparsed ordinal)
      | some events => (readSegments (ordinal + 1) rest).map (events ++ ·)

/-- **Read a stream** from a block; nothing is repaired. -/
def fetchFrom (t : Subtree H D) (fromBlock : ℤ) : StreamRead H D :=
  match t.cursor with
  | none => if t.segments = [] then .absent else .inconsistent (.noCursor t.segments.length)
  | some cursor =>
    match readSegments 0 t.segments with
    | .error reason => .inconsistent reason
    | .ok eventStream =>
      if t.segments.length ≠ cursor.nextOrdinal then .inconsistent (.miscounted cursor.nextOrdinal t.segments.length)
      else if cursor.startBlock > fromBlock then .doesNotReachBack cursor.startBlock
      else .stream (eventStream.filter (·.since fromBlock)) cursor.toStoredLastSync

/-! ### What a subtree keeps -/

/-- Batches as segments, from an ordinal on. -/
def numbered : ℕ → List (List (SeedEvent H D)) → List (ℕ × Option (List (SeedEvent H D)))
  | _, [] => []
  | ordinal, batch :: rest => (ordinal, some batch) :: numbered (ordinal + 1) rest

/-- The subtree holds these batches, from this start block up to this cursor. -/
structure Keeps (t : Subtree H D) (batches : List (List (SeedEvent H D))) (startBlock : ℤ) (lastSync : StoredLastSync) :
    Prop where
  cursor : t.cursor = some (cursorRecord lastSync startBlock batches.length)
  segments : t.segments = numbered 0 batches

theorem length_numbered (ordinal : ℕ) (batches : List (List (SeedEvent H D))) :
    (numbered ordinal batches).length = batches.length := by
  induction batches generalizing ordinal with
  | nil => rfl
  | cons batch rest ih =>
    unfold numbered
    rw [List.length_cons, List.length_cons, ih]

theorem ordinal_numbered {ordinal : ℕ} {batches : List (List (SeedEvent H D))}
    {segment : ℕ × Option (List (SeedEvent H D))} (h : segment ∈ numbered ordinal batches) :
    ordinal ≤ segment.1 ∧ segment.1 < ordinal + batches.length := by
  induction batches generalizing ordinal with
  | nil => cases h
  | cons batch rest ih =>
    unfold numbered at h
    rw [List.length_cons]
    rcases List.mem_cons.1 h with rfl | h
    · exact ⟨le_rfl, by dsimp only; omega⟩
    · have hrest := ih h
      omega

theorem numbered_concat (ordinal : ℕ) (batches : List (List (SeedEvent H D))) (batch : List (SeedEvent H D)) :
    numbered ordinal (batches ++ [batch]) = numbered ordinal batches ++ [(ordinal + batches.length, some batch)] := by
  induction batches generalizing ordinal with
  | nil => rfl
  | cons first rest ih =>
    rw [List.cons_append]
    unfold numbered
    rw [ih, List.cons_append, List.length_cons, show ordinal + 1 + rest.length = ordinal + (rest.length + 1) by omega]

/-- The next ordinal is put at the end. -/
theorem putSegment_numbered (batches : List (List (SeedEvent H D))) (batch : List (SeedEvent H D)) :
    putSegment (numbered 0 batches) batches.length batch = numbered 0 (batches ++ [batch]) := by
  have hbelow : (numbered 0 batches).filter (·.1 < batches.length) = numbered 0 batches := by
    rw [List.filter_eq_self]
    intro segment hsegment
    have hlt := (ordinal_numbered hsegment).2
    rw [decide_eq_true_eq]
    omega
  have habove : (numbered 0 batches).filter (batches.length < ·.1) = [] := by
    rw [List.filter_eq_nil_iff]
    intro segment hsegment
    have hlt := (ordinal_numbered hsegment).2
    rw [decide_eq_true_eq]
    omega
  unfold putSegment
  rw [hbelow, habove, List.append_nil, numbered_concat, Nat.zero_add]

theorem readSegments_numbered (ordinal : ℕ) (batches : List (List (SeedEvent H D))) :
    readSegments ordinal (numbered ordinal batches) = .ok batches.flatten := by
  induction batches generalizing ordinal with
  | nil => rfl
  | cons batch rest ih =>
    unfold numbered readSegments
    rw [if_neg (by simp), ih]
    rfl

section Keeps

variable {t : Subtree H D} {batches : List (List (SeedEvent H D))} {batch : List (SeedEvent H D)} {startBlock : ℤ}
  {lastSync next : StoredLastSync}

/-- The first save of a subtree. -/
theorem keeps_first (next : StoredLastSync) (hbatch : batch ≠ []) :
    ((empty : Subtree H D).saveNewEvents next batch).1 = false ∧
      ((empty : Subtree H D).saveNewEvents next batch).2.Keeps [batch] next.lastFromBlock next := by
  have hnonempty : batch.isEmpty = false := by simpa using hbatch
  unfold saveNewEvents
  rw [hnonempty]
  exact ⟨rfl, rfl, rfl⟩

/-- A first save without events moves the cursor alone. -/
theorem keeps_quiet (next : StoredLastSync) :
    ((empty : Subtree H D).saveNewEvents next []).1 = false ∧
      ((empty : Subtree H D).saveNewEvents next []).2.Keeps [] next.lastFromBlock next :=
  ⟨rfl, rfl, rfl⟩

/-- **A save that continues what is kept is kept.** -/
theorem Keeps.save (h : t.Keeps batches startBlock lastSync) (hbatch : batch ≠ [])
    (hnext : next.lastFromBlock ≤ lastSync.lastToBlock + 1) :
    (t.saveNewEvents next batch).1 = false ∧ (t.saveNewEvents next batch).2.Keeps (batches ++ [batch]) startBlock next := by
  have hnonempty : batch.isEmpty = false := by simpa using hbatch
  have hcarry : carryForward t.cursor next = some (startBlock, batches.length) := by
    rw [h.cursor]
    unfold carryForward
    dsimp only
    rw [if_neg]
    · rfl
    · show ¬next.lastFromBlock > lastSync.lastToBlock + 1
      omega
  unfold saveNewEvents
  rw [hnonempty, hcarry]
  refine ⟨rfl, ?_⟩
  have hcommit : t.commitSegmentWithCursor (fun current => (carryForward current next).map fun carried =>
      ⟨carried.2, batch, cursorRecord next carried.1 (carried.2 + 1)⟩) =
        ⟨some (cursorRecord next startBlock (batches.length + 1)), putSegment t.segments batches.length batch⟩ := by
    unfold commitSegmentWithCursor
    dsimp only
    rw [hcarry]
    rfl
  simp only [Bool.false_eq_true, if_false]
  rw [hcommit]
  constructor
  · rw [List.length_append, List.length_singleton]
  · show putSegment t.segments batches.length batch = _
    rw [h.segments, putSegment_numbered]

/-- **A read returns what is kept**, from any block at or above the start. -/
theorem Keeps.fetch (h : t.Keeps batches startBlock lastSync) {fromBlock : ℤ} (hfrom : startBlock ≤ fromBlock) :
    t.fetchFrom fromBlock = .stream (batches.flatten.filter (·.since fromBlock)) lastSync := by
  unfold fetchFrom
  rw [h.cursor, h.segments, readSegments_numbered, length_numbered]
  dsimp only
  rw [if_neg (by simp [cursorRecord]), if_neg (by simpa [cursorRecord] using hfrom)]
  rfl

end Keeps

end Subtree

end Etherfold
