import Etherfold.Ledger.Basic
import Etherfold.Engine.Derive

/-!
# Receiving batches

`StreamBuilder.receive` checks a batch and derives its delta. Nothing on the way
looks at how the reported tip moves.

* `assertWellFormed`, `receive`: the checks, in the order the source makes them.
* `receive_ok`: what a batch that is taken passed, and the delta it is taken as.
-/

namespace Etherfold

open Ledger

/-- One request: a contiguous range, the logs in it and the tip its sender saw. -/
structure WireBatch (K H D : Type) where
  context : K
  fromBlock : ℕ
  toBlock : ℕ
  latestBlock : ℕ
  logs : List (LogEvent H D)
  deriving DecidableEq, Repr

/-- Why an envelope is refused, with the numbers its message names. -/
inductive InvalidBatchError where
  | rangeReversed (toBlock fromBlock : ℕ)
  | aboveTip (toBlock latestBlock : ℕ)
  | descending (current previous : ℕ)
  | outsideRange (blockNumber fromBlock toBlock : ℕ)
  | markedRemoved (blockNumber : ℕ)
  deriving DecidableEq, Repr

/-- Why a batch is refused. -/
inductive IngestionError (K : Type) where
  | contextMismatch (expected received : K)
  | invalidBatch (error : InvalidBatchError)
  | unexpectedFromBlock (error : UnexpectedFromBlockError)
  deriving DecidableEq, Repr

/-- What a receiver indexes and how. -/
structure StreamBuilder (K : Type) where
  context : K
  defaultFromBlock : ℕ
  finality : ℕ
  deriving DecidableEq, Repr

variable {K H D : Type}

/-- Logs must ascend by block. -/
def assertAscendingByBlock : List (LogEvent H D) → Except InvalidBatchError Unit
  | previous :: current :: logs =>
    if current.blockNumber < previous.blockNumber then
      .error (.descending current.blockNumber previous.blockNumber)
    else assertAscendingByBlock (current :: logs)
  | _ => .ok ()

/-- Every log lies in the range the batch claims, and none is marked removed. -/
def assertLogsInRange (batch : WireBatch K H D) : List (LogEvent H D) → Except InvalidBatchError Unit
  | [] => .ok ()
  | log :: logs =>
    if log.blockNumber < batch.fromBlock ∨ batch.toBlock < log.blockNumber then
      .error (.outsideRange log.blockNumber batch.fromBlock batch.toBlock)
    else if log.removed then .error (.markedRemoved log.blockNumber)
    else assertLogsInRange batch logs

/-- The envelope checks. The source also checks that the numbers are whole and not
negative, which they are here by type. -/
def assertWellFormed (batch : WireBatch K H D) : Except InvalidBatchError Unit :=
  if batch.toBlock < batch.fromBlock then .error (.rangeReversed batch.toBlock batch.fromBlock)
  else if batch.latestBlock < batch.toBlock then .error (.aboveTip batch.toBlock batch.latestBlock)
  else
    match assertAscendingByBlock batch.logs with
    | .error e => .error e
    | .ok () => assertLogsInRange batch batch.logs

variable [DecidableEq K] [DecidableEq H]

/-- **One batch**: refused, or its delta and the cursor after it. The stream append and
the fold that follow are taken to succeed. -/
def StreamBuilder.receive (sb : StreamBuilder K) (lastSync : LastSync H D) (batch : WireBatch K H D) :
    Except (IngestionError K) (Appended H D) :=
  if batch.context ≠ sb.context then .error (.contextMismatch sb.context batch.context)
  else
    match assertWellFormed batch with
    | .error e => .error (.invalidBatch e)
    | .ok () =>
      match generateStreamToAppend lastSync sb.defaultFromBlock batch.logs
          ⟨batch.latestBlock, batch.fromBlock, batch.toBlock, sb.finality⟩ with
      | .error e => .error (.unexpectedFromBlock e)
      | .ok appended => .ok appended

/-! ### What an accepted batch is -/

/-- What the envelope checks establish. -/
structure WireBatch.WellFormed (batch : WireBatch K H D) : Prop where
  from_le_to : batch.fromBlock ≤ batch.toBlock
  to_le_tip : batch.toBlock ≤ batch.latestBlock
  inRange : ∀ e ∈ batch.logs, batch.fromBlock ≤ e.blockNumber ∧ e.blockNumber ≤ batch.toBlock
  live : ∀ e ∈ batch.logs, e.removed = false

omit [DecidableEq K] [DecidableEq H] in
theorem assertLogsInRange_ok {batch : WireBatch K H D} {logs : List (LogEvent H D)}
    (h : assertLogsInRange batch logs = .ok ()) : ∀ e ∈ logs,
      (batch.fromBlock ≤ e.blockNumber ∧ e.blockNumber ≤ batch.toBlock) ∧ e.removed = false := by
  induction logs with
  | nil => simp
  | cons log logs ih =>
    intro e he
    unfold assertLogsInRange at h
    split at h
    · cases h
    · rename_i hrange
      split at h
      · cases h
      · rename_i hlive
        rcases List.mem_cons.1 he with rfl | he
        · exact ⟨by omega, by simpa using hlive⟩
        · exact ih h e he

omit [DecidableEq K] [DecidableEq H] in
theorem assertWellFormed_ok {batch : WireBatch K H D} (h : assertWellFormed batch = .ok ()) :
    batch.WellFormed := by
  unfold assertWellFormed at h
  split at h
  · cases h
  split at h
  · cases h
  rename_i hfrom htip
  split at h
  · cases h
  have hlogs := assertLogsInRange_ok h
  exact ⟨by omega, by omega, fun e he => (hlogs e he).1, fun e he => (hlogs e he).2⟩

/-- An accepted batch is well formed, and its delta is the one the engine derives. -/
theorem receive_ok {sb : StreamBuilder K} {c : LastSync H D} {batch : WireBatch K H D}
    {r : Appended H D} (h : sb.receive c batch = .ok r) :
    batch.WellFormed ∧ generateStreamToAppend c sb.defaultFromBlock batch.logs
      ⟨batch.latestBlock, batch.fromBlock, batch.toBlock, sb.finality⟩ = .ok r := by
  unfold StreamBuilder.receive at h
  split at h
  · cases h
  split at h
  · cases h
  rename_i hwf
  refine ⟨assertWellFormed_ok hwf, ?_⟩
  split at h
  · cases h
  · rename_i hgen
    cases h
    exact hgen

end Etherfold
