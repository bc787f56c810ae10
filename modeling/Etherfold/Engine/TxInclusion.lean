import Etherfold.Ledger.Keyed
import Etherfold.Engine.Stream

/-!
# Whether the state accounts for a transaction

`checkTxInclusion` answers from a cursor alone: the unconfirmed window holds whole blocks with
their logs, and every log names its transaction.

* `indexWindow`: the transactions the window holds.
* `verdictFor`, `checkTxInclusion`: one verdict for a query, and one for each transaction asked about.
* `mem_indexWindow`, `indexWindow_isSome`: **a transaction is found just when the window lists a log of it**.
* `included_iff`, `absent_only`: what the status rests on.
-/

namespace Etherfold

variable {H D Tx : Type}

/-- A transaction, and the height a caller's node reports for it. -/
structure TxInclusionQuery (Tx : Type) where
  txHash : Tx
  minedAtBlock : Option ℕ
  deriving DecidableEq, Repr

inductive TxInclusionStatus where
  | included
  | absent
  | unknown
  deriving DecidableEq, Repr

/-- How a verdict was reached. -/
inductive TxInclusionBasis where
  | windowHit
  | windowMiss
  | aheadOfCursor
  | belowWindow
  | windowNotCovering
  | notSynced
  deriving DecidableEq, Repr

/-- A verdict; a hit says where the indexer processed the transaction. -/
structure TxInclusionVerdict (H : Type) where
  status : TxInclusionStatus
  basis : TxInclusionBasis
  blockNumber : Option ℕ := none
  blockHash : Option H := none
  deriving DecidableEq, Repr

/-- The block the window lists a transaction in. -/
structure ProcessedAt (H : Type) where
  blockNumber : ℕ
  blockHash : H
  deriving DecidableEq, Repr

/-- How transactions are named: by the hash a log carries, compared in lower case. -/
structure TxNaming (H D Tx : Type) where
  transactionHash : LogEvent H D → Tx
  toLowerCase : Tx → Tx

namespace TxNaming

variable [DecidableEq Tx] (naming : TxNaming H D Tx)

/-- The log is of the transaction. -/
def Of (txHash : Tx) (event : LogEvent H D) : Prop :=
  naming.toLowerCase (naming.transactionHash event) = naming.toLowerCase txHash

instance (txHash : Tx) (event : LogEvent H D) : Decidable (naming.Of txHash event) :=
  inferInstanceAs (Decidable (_ = _))

/-- The logs of the window, each under the name of its transaction. A retraction is skipped. -/
def windowRows (window : List (EventBlock H D)) : List (Tx × ProcessedAt H) :=
  window.flatMap fun block =>
    (block.events.filter (!·.removed)).map fun event =>
      (naming.toLowerCase (naming.transactionHash event), ⟨block.number, block.hash⟩)

/-- **The transactions the unconfirmed window holds**; the last block that lists one wins. -/
def indexWindow (lastSync : LastSync H D) : Keyed Tx (ProcessedAt H) :=
  Keyed.empty.putAll (naming.windowRows lastSync.unconfirmedBlocks)

/-- **The verdict on one query.** -/
def verdictFor (query : TxInclusionQuery Tx) (processed : Keyed Tx (ProcessedAt H)) (lastToBlock windowFloor : ℕ) :
    TxInclusionVerdict H :=
  match processed.get (naming.toLowerCase query.txHash) with
  | some hit =>
    -- the window is published before the cursor is walked through it
    if lastToBlock < hit.blockNumber then { status := .absent, basis := .aheadOfCursor }
    else { status := .included, basis := .windowHit, blockNumber := some hit.blockNumber, blockHash := some hit.blockHash }
  | none =>
    if query.minedAtBlock.any (lastToBlock < ·) then { status := .absent, basis := .aheadOfCursor }
    else if query.minedAtBlock.any (· < windowFloor) then { status := .included, basis := .belowWindow }
    else if lastToBlock < windowFloor then { status := .unknown, basis := .windowNotCovering }
    else { status := .absent, basis := .windowMiss }

/-- **The verdicts**, under the transaction hashes as given. The floor of the window is measured
from the tip; a negative one is above no height, and neither is zero. -/
def checkTxInclusion (lastSync : Option (LastSync H D)) (queries : List (TxInclusionQuery Tx)) (finality : ℕ) :
    Keyed Tx (TxInclusionVerdict H) :=
  match lastSync with
  | none => Keyed.empty.putAll (queries.map fun query => (query.txHash, { status := .unknown, basis := .notSynced }))
  | some lastSync =>
    let windowFloor := lastSync.latestBlock - finality
    let processed := naming.indexWindow lastSync
    Keyed.empty.putAll (queries.map fun query =>
      (query.txHash, naming.verdictFor query processed lastSync.lastToBlock windowFloor))

/-! ### What a verdict rests on -/

variable {naming} {lastSync : LastSync H D} {query : TxInclusionQuery Tx} {processed : Keyed Tx (ProcessedAt H)}
  {lastToBlock windowFloor : ℕ} {hit : ProcessedAt H} {txHash : Tx}

theorem get_empty {κ ν : Type} [DecidableEq κ] (k : κ) : (Keyed.empty : Keyed κ ν).get k = none := rfl

/-- What the index finds is listed in the window. -/
theorem mem_indexWindow (h : (naming.indexWindow lastSync).get (naming.toLowerCase txHash) = some hit) :
    ∃ block ∈ lastSync.unconfirmedBlocks, hit = ⟨block.number, block.hash⟩ ∧
      ∃ event ∈ block.events, event.removed = false ∧ naming.Of txHash event := by
  rcases Keyed.get_putAll_some h with hnone | hmem
  · rw [get_empty] at hnone
    cases hnone
  · obtain ⟨block, hblock, hrow⟩ := List.mem_flatMap.1 hmem
    obtain ⟨event, hevent, heq⟩ := List.mem_map.1 hrow
    obtain ⟨hmem, hlive⟩ := List.mem_filter.1 hevent
    rw [Prod.mk.injEq] at heq
    exact ⟨block, hblock, heq.2.symm, event, hmem, by simpa using hlive, heq.1⟩

/-- What the window lists is found. -/
theorem indexWindow_isSome {block : EventBlock H D} (hblock : block ∈ lastSync.unconfirmedBlocks)
    {event : LogEvent H D} (hevent : event ∈ block.events) (hlive : event.removed = false)
    (hof : naming.Of txHash event) :
    ((naming.indexWindow lastSync).get (naming.toLowerCase txHash)).isSome = true := by
  apply Keyed.get_putAll_isSome
  right
  unfold windowRows
  rw [List.map_flatMap, List.mem_flatMap]
  refine ⟨block, hblock, ?_⟩
  rw [List.map_map, List.mem_map]
  exact ⟨event, List.mem_filter.2 ⟨hevent, by simp [hlive]⟩, hof⟩

/-- A verdict of the record is the one of some query for the transaction. -/
theorem get_checkTxInclusion {queries : List (TxInclusionQuery Tx)} {finality : ℕ} {verdict : TxInclusionVerdict H}
    (h : (naming.checkTxInclusion (some lastSync) queries finality).get txHash = some verdict) :
    ∃ query ∈ queries, query.txHash = txHash ∧ verdict =
      naming.verdictFor query (naming.indexWindow lastSync) lastSync.lastToBlock (lastSync.latestBlock - finality) := by
  rcases Keyed.get_putAll_some h with hnone | hmem
  · rw [get_empty] at hnone
    cases hnone
  · obtain ⟨query, hquery, heq⟩ := List.mem_map.1 hmem
    rw [Prod.mk.injEq] at heq
    exact ⟨query, hquery, heq.1, heq.2.symm⟩

/-- Of a transaction not mined below the floor, only a hit behind the cursor says that it is
included. -/
theorem included_iff (hmined : ∀ number ∈ query.minedAtBlock, windowFloor ≤ number) :
    (naming.verdictFor query processed lastToBlock windowFloor).status = .included ↔
      ∃ hit ∈ processed.get (naming.toLowerCase query.txHash), hit.blockNumber ≤ lastToBlock := by
  have hbelow : query.minedAtBlock.any (· < windowFloor) = false := by
    cases hq : query.minedAtBlock with
    | none => rfl
    | some number =>
      have := hmined number hq
      simpa using this
  unfold verdictFor
  rw [hbelow]
  split
  · rename_i hit hget
    simp only [hget, Option.mem_def, Option.some.injEq, exists_eq_left']
    split <;> simp <;> omega
  · rename_i hget
    simp only [hget, Option.mem_def, reduceCtorEq, false_and, exists_false, iff_false]
    split
    · simp
    · simp only [if_false]
      split <;> simp

/-- A transaction is told absent only where no hit is behind the cursor. -/
theorem absent_only (h : (naming.verdictFor query processed lastToBlock windowFloor).status = .absent) :
    ∀ hit ∈ processed.get (naming.toLowerCase query.txHash), lastToBlock < hit.blockNumber := by
  intro hit hget
  rw [Option.mem_def] at hget
  unfold verdictFor at h
  rw [hget] at h
  by_contra hle
  simp only [hle, if_false] at h
  cases h

/-- A window hit is a hit behind the cursor. -/
theorem windowHit_behind (h : (naming.verdictFor query processed lastToBlock windowFloor).basis = .windowHit) :
    ∃ hit ∈ processed.get (naming.toLowerCase query.txHash), hit.blockNumber ≤ lastToBlock := by
  unfold verdictFor at h
  split at h
  · rename_i hit hget
    refine ⟨hit, hget, ?_⟩
    split at h
    · cases h
    · omega
  · split at h
    · cases h
    · split at h
      · cases h
      · split at h <;> cases h

end TxNaming

end Etherfold
