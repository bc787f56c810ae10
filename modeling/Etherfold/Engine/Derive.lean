import Etherfold.Engine.Stream

/-!
# Deriving a delta from a fetch

`generateStreamToAppend` compares a complete re-read of a block range with the
unconfirmed window: the first window block the range contradicts is where the
chain forked, it and every later window block are retracted, and a re-read block
is new unless the part of the window that survived holds it.
-/

namespace Etherfold

variable {H D : Type}

/-- What a batch says about the range it covers. -/
structure NewSync where
  newLatestBlock : ℕ
  newLastFromBlock : ℕ
  newLastToBlock : ℕ
  finality : ℕ
  deriving DecidableEq, Repr

/-- How a reorg was concluded: another hash at the height, or no block there. -/
inductive ReorgCause where
  | contradiction
  | absence
  deriving DecidableEq, Repr

structure ReorgDetection (H : Type) where
  cause : ReorgCause
  blockNumber : ℕ
  blockHash : H
  deriving DecidableEq, Repr

/-- The refusal that tells a sender where to resume. -/
structure UnexpectedFromBlockError where
  expected : ℕ
  received : ℕ
  deriving DecidableEq, Repr

/-- A derived delta, the cursor after it and the reorg it concluded. -/
structure Appended (H D : Type) where
  eventStream : List (LogEvent H D)
  newLastSync : LastSync H D
  reorg : Option (ReorgDetection H)
  deriving DecidableEq, Repr

/-- Everything a sequence of deltas emitted, in order. -/
def emitted (deltas : List (Appended H D)) : List (LogEvent H D) := deltas.flatMap (·.eventStream)

/-- The cursor a sequence of deltas leaves. -/
def cursorAfter (deltas : List (Appended H D)) : LastSync H D :=
  (deltas.getLast?.map (·.newLastSync)).getD .fresh

@[simp] theorem emitted_nil : emitted ([] : List (Appended H D)) = [] := rfl

@[simp] theorem emitted_concat (deltas : List (Appended H D)) (r : Appended H D) :
    emitted (deltas ++ [r]) = emitted deltas ++ r.eventStream := by
  simp [emitted]

@[simp] theorem cursorAfter_nil : cursorAfter ([] : List (Appended H D)) = .fresh := rfl

@[simp] theorem cursorAfter_concat (deltas : List (Appended H D)) (r : Appended H D) :
    cursorAfter (deltas ++ [r]) = r.newLastSync := by
  simp [cursorAfter]

variable [DecidableEq H]

/-- The hash a payload carries at a height; the last block of that height wins. -/
def newHashAt (blocks : List (EventBlock H D)) (number : ℕ) : Option H :=
  (blocks.reverse.find? (·.number = number)).map (·.hash)

/-- The re-read covers this window block and does not carry it. -/
def contradicted (blocks : List (EventBlock H D)) (o : NewSync) (b : EventBlock H D) : Bool :=
  decide (o.newLastFromBlock ≤ b.number) && decide (b.number ≤ o.newLastToBlock) &&
    decide (newHashAt blocks b.number ≠ some b.hash)

/-- The log, taken back. -/
def LogEvent.retracted (e : LogEvent H D) : LogEvent H D := { e with removed := true }

/-- The window holds this block, by height and hash. -/
def windowHas (retained : List (EventBlock H D)) (b : EventBlock H D) : Bool :=
  retained.any fun r => r.number = b.number && r.hash = b.hash

/-- Windows and payloads are kept ascending; equal heights keep their order. -/
def sortBlocks (blocks : List (EventBlock H D)) : List (EventBlock H D) :=
  blocks.insertionSort (·.number ≤ ·.number)

/-- **The delta of a fetch**, or the refusal of one that does not start where the
cursor resumes. -/
def generateStreamToAppend (lastSync : LastSync H D) (defaultFromBlock : ℕ)
    (newEvents : List (LogEvent H D)) (o : NewSync) :
    Except UnexpectedFromBlockError (Appended H D) :=
  let expectedFromBlock := getFromBlock lastSync defaultFromBlock o.finality
  if o.newLastFromBlock ≠ expectedFromBlock then
    .error ⟨expectedFromBlock, o.newLastFromBlock⟩
  else
    let blocks := groupLogsPerBlock newEvents
    -- the walk stops at the first contradicted block and takes back all after it,
    -- also those the re-read did not cover
    let retained := lastSync.unconfirmedBlocks.takeWhile (!contradicted blocks o ·)
    let reorged := lastSync.unconfirmedBlocks.dropWhile (!contradicted blocks o ·)
    let fresh := blocks.filter fun b => !b.events.isEmpty && !windowHas retained b
    .ok
      { eventStream := reorged.flatMap (·.events.map LogEvent.retracted) ++ fresh.flatMap (·.events)
        newLastSync :=
          { lastFromBlock := o.newLastFromBlock
            latestBlock := o.newLatestBlock
            lastToBlock := o.newLastToBlock
            unconfirmedBlocks := sortBlocks
              (retained.filter (fun b => o.newLastToBlock - b.number ≤ o.finality) ++
                fresh.filter fun b => o.newLatestBlock - b.number ≤ o.finality) }
        reorg := reorged.head?.map fun b =>
          ⟨if newHashAt blocks b.number = none then .absence else .contradiction, b.number, b.hash⟩ }

/-- A batch that starts where the cursor resumes is accepted, and only such a one. -/
theorem generate_ok_iff (c : LastSync H D) (d : ℕ) (es : List (LogEvent H D)) (o : NewSync) :
    (∃ r, generateStreamToAppend c d es o = .ok r) ↔
      o.newLastFromBlock = getFromBlock c d o.finality := by
  unfold generateStreamToAppend
  by_cases h : o.newLastFromBlock = getFromBlock c d o.finality <;> simp [h]

/-- The three numbers of the new cursor are the batch's. -/
theorem generate_sync {c : LastSync H D} {d : ℕ} {es : List (LogEvent H D)} {o : NewSync}
    {r : Appended H D} (h : generateStreamToAppend c d es o = .ok r) :
    r.newLastSync.lastFromBlock = o.newLastFromBlock ∧ r.newLastSync.latestBlock = o.newLatestBlock ∧
      r.newLastSync.lastToBlock = o.newLastToBlock := by
  unfold generateStreamToAppend at h
  dsimp only at h
  split at h
  · cases h
  · cases h; exact ⟨rfl, rfl, rfl⟩

end Etherfold
