import Etherfold.Sqlite.Statements

/-!
# The versioned store

`VersionedStateStore` keeps its state in the tables and reaches them through transactions
that are lists of statements. Each opens with the writer's claim until one of them has
landed, and closes by reading the token back.

* `planBatches`: how blocks are packed into transactions.
* `VersionedStateStore.sendGuarded`: one transaction.
* `applyBlock`, `applyBlocks`, `revertTo`, `prune`: the calls that write.
* `getCurrent`, `getAsOf`, `listCurrent`, `listAsOf`: the calls that read.
-/

namespace Etherfold

open Versions Transaction

/-- What one request may carry. -/
structure BatchBounds where
  maxStatementsPerBatch : ℕ
  maxBytesPerBatch : ℕ
  maxRowsPerStatement : ℕ
  deriving DecidableEq, Repr

/-- The batches packed so far, and the one being packed with its size. -/
structure Packing (S : Type) where
  batches : List (List S)
  current : List S
  currentSize : ℕ

/-- One group more. A group that is too large by itself is a batch of its own. -/
def Packing.add {S : Type} (estimateSize : S → ℕ) (bounds : BatchBounds) (p : Packing S) (group : List S) :
    Packing S :=
  let groupSize := (group.map estimateSize).sum
  if group.isEmpty then p
  else if !p.current.isEmpty && (bounds.maxStatementsPerBatch < p.current.length + group.length ||
      bounds.maxBytesPerBatch < p.currentSize + groupSize) then
    ⟨p.batches ++ [p.current], group, groupSize⟩
  else ⟨p.batches, p.current ++ group, p.currentSize + groupSize⟩

/-- **Pack groups of statements into batches**, never splitting a group. -/
def planBatches {S : Type} (estimateSize : S → ℕ) (bounds : BatchBounds) (groups : List (List S)) : List (List S) :=
  let p := groups.foldl (Packing.add estimateSize bounds) ⟨[], [], 0⟩
  if p.current.isEmpty then p.batches else p.batches ++ [p.current]

/-- Why a call is refused. -/
inductive SqlError (H : Type) where
  | violation (violation : UniqueViolation H)
  | entity (error : EntityError)
  | refused (error : StoreWriteRefusedError H)
  | mustAscend (previous current : ℕ)
  | invalidBudget (maxVersions : ℤ)
  | writerChanged
  deriving DecidableEq, Repr

/-- The store: its tables, its claim, and how it was configured. What a statement is estimated
at is a function of its text and arguments. -/
structure VersionedStateStore (X H C : Type) where
  db : Database X H C
  token : String
  claimed : Bool
  bounds : BatchBounds
  estimateSize : Statement X H C → ℕ
  provided : Retention
  finalityDepth : Option ℕ

variable {X H C : Type} [DecidableEq H]

/-- Two blocks of a sequence that do not ascend. -/
def descent : List (BlockUpdate X H) → Option (ℕ × ℕ)
  | previous :: current :: rest =>
    if current.block.number ≤ previous.block.number then some (previous.block.number, current.block.number)
    else descent (current :: rest)
  | _ => none

/-- The height the first statement of a batch answered. -/
def tipOf (results : List (SQLResult H)) : Option ℕ :=
  match results.head? with
  | some (.block block) => block.map (·.number)
  | _ => none

/-- The token the last statement of a batch answered. -/
def heldOf (results : List (SQLResult H)) : Option String :=
  match results.getLast? with
  | some (.token token) => token
  | _ => none

/-- Empty tables. -/
def Database.empty : Database X H C :=
  ⟨[], fun _ => none, fun _ => none, none, none, none, fun _ => ⟨[], 1⟩⟩

namespace VersionedStateStore

/-- The constructor, over tables as a migration creates them. -/
def new (setting : Option RetentionSetting) (finalityDepth : Option ℕ) (bounds : BatchBounds)
    (estimateSize : Statement X H C → ℕ) (token : String) : Except RetentionError (VersionedStateStore X H C) :=
  match resolveRetention setting finalityDepth with
  | .error e => .error e
  | .ok provided => .ok ⟨.empty, token, false, bounds, estimateSize, provided, finalityDepth⟩

/-- This writer's guard. -/
def guard (t : VersionedStateStore X H C) : StatementGuard := ⟨t.token, none⟩

/-- The claim, until one has landed. -/
def claim (t : VersionedStateStore X H C) : List (Statement X H C) := if t.claimed then [] else [.claimWriter t.token]

/-- **One transaction**: the claim, the statements, and the token read back. -/
def sendGuarded (t : VersionedStateStore X H C) (statements : List (Statement X H C)) :
    Except (SqlError H) (List (SQLResult H)) × VersionedStateStore X H C :=
  match commit Statement.execute (t.claim ++ statements ++ [.heldWriter]) t.db with
  | (.error violation, db) => (.error (.violation violation), { t with db := db })
  | (.ok results, db) =>
    if heldOf results = some t.token then
      (.ok ((results.drop t.claim.length).dropLast), { t with db := db, claimed := true })
    else (.error .writerChanged, { t with db := db })

/-- **Apply one block.** The tip that is read first is the one the guard judged by. -/
def applyBlock (declarations : List NormalizedEntity) (t : VersionedStateStore X H C) (call : AppliedCall X H C) :
    Except (SqlError H) Unit × VersionedStateStore X H C :=
  match applyBlockStatements declarations call t.token with
  | .error e => (.error (.entity e), t)
  | .ok statements =>
    match t.sendGuarded (.latestBlock :: statements) with
    | (.error e, t) => (.error e, t)
    | (.ok results, t) =>
      match (tipOf results).filter (call.block.number ≤ ·) with
      | some tip => (.error (.refused (.blockNotAboveTip call.block.number tip)), t)
      | none => (.ok (), t)

/-- One transaction after another, up to one that fails. -/
def sendAll (t : VersionedStateStore X H C) : List (List (Statement X H C)) →
    Except (SqlError H) Unit × VersionedStateStore X H C
  | [] => (.ok (), t)
  | batch :: batches =>
    match t.sendGuarded batch with
    | (.error e, t) => (.error e, t)
    | (.ok _, t) => sendAll t batches

/-- The bounds with room for the claim and the token read back. -/
def guardedBounds (t : VersionedStateStore X H C) : BatchBounds :=
  { t.bounds with maxStatementsPerBatch := max 1 (t.bounds.maxStatementsPerBatch - 2) }

/-- **Apply several blocks.** The lowest goes first and alone, with the tip read. -/
def applyBlocks (declarations : List NormalizedEntity) (t : VersionedStateStore X H C)
    (updates : List (BlockUpdate X H)) : Except (SqlError H) Unit × VersionedStateStore X H C :=
  match updates with
  | [] => (.ok (), t)
  | lowest :: rest =>
    match descent updates with
    | some (previous, current) => (.error (.mustAscend previous current), t)
    | none =>
      match (lowest :: rest).mapM fun update => applyBlockStatements declarations (update.call C) t.token with
      | .error e => (.error (.entity e), t)
      | .ok groups =>
        let batches := planBatches t.estimateSize t.guardedBounds groups.tail
        match t.sendGuarded (.latestBlock :: groups.headD []) with
        | (.error e, t) => (.error e, t)
        | (.ok results, t) =>
          match (tipOf results).filter (lowest.block.number ≤ ·) with
          | some tip => (.error (.refused (.blockNotAboveTip lowest.block.number tip)), t)
          | none => t.sendAll batches

/-- **Roll back** in one transaction. -/
def revertTo (declarations : List NormalizedEntity) (t : VersionedStateStore X H C) (keepUpTo : ℤ) :
    Except (SqlError H) Unit × VersionedStateStore X H C :=
  match t.sendGuarded (revertToStatements declarations keepUpTo t.guard) with
  | (.error e, t) => (.error e, t)
  | (.ok _, t) => (.ok (), t)

/-- Move a cursor with no block behind it. -/
def writeCursor (t : VersionedStateStore X H C) (key : String) (value : C) :
    Except (SqlError H) Unit × VersionedStateStore X H C :=
  match t.sendGuarded [.writeCursor key value t.guard] with
  | (.error e, t) => (.error e, t)
  | (.ok _, t) => (.ok (), t)

/-- How many rows the next statement of a prune may name: one fewer than the bound, and no more
than the budget has left. -/
def pruneLimit (t : VersionedStateStore X H C) (maxVersions : Option ℕ) (deleted : ℕ) : ℕ :=
  let rows := max 1 (t.bounds.maxRowsPerStatement - 1)
  match maxVersions with
  | none => rows
  | some budget => min rows (budget - deleted)

/-- Delete what is out of reach in one table, statement by statement, until nothing is found or
the budget is spent. Each pass deletes at least one row, so there are no more of them than rows. -/
def drain (floor : ℕ) (maxVersions : Option ℕ) (entity : String) :
    ℕ → VersionedStateStore X H C → ℕ → Except (SqlError H) ℕ × VersionedStateStore X H C
  | 0, t, deleted => (.ok deleted, t)
  | passes + 1, t, deleted =>
    if maxVersions.any (· ≤ deleted) then (.ok deleted, t)
    else
      let found := prunableVersions (t.db.tables entity) floor (t.pruneLimit maxVersions deleted)
      if found.isEmpty then (.ok deleted, t)
      else
        match t.sendGuarded [.dropVersions entity found t.guard] with
        | (.error e, t) => (.error e, t)
        | (.ok _, t) => drain floor maxVersions entity passes t (deleted + found.length)

/-- Table after table. -/
def drainAll (floor : ℕ) (maxVersions : Option ℕ) :
    List NormalizedEntity → VersionedStateStore X H C → ℕ → Except (SqlError H) ℕ × VersionedStateStore X H C
  | [], t, deleted => (.ok deleted, t)
  | entity :: entities, t, deleted =>
    match drain floor maxVersions entity.name ((t.db.tables entity.name).rows.length + 1) t deleted with
    | (.error e, t) => (.error e, t)
    | (.ok deleted, t) => drainAll floor maxVersions entities t deleted

/-- Some version is out of reach. -/
def hasPrunableVersions (declarations : List NormalizedEntity) (t : VersionedStateStore X H C) (floor : ℕ) : Bool :=
  declarations.any fun entity => !(prunableVersions (t.db.tables entity.name) floor 1).isEmpty

/-- **Delete the versions the retention does not cover.** -/
def prune (declarations : List NormalizedEntity) (t : VersionedStateStore X H C) (maxVersions : Option ℕ) :
    Except (SqlError H) PruneReport × VersionedStateStore X H C :=
  match t.sendGuarded [.latestBlock] with
  | (.error e, t) => (.error e, t)
  | (.ok results, t) =>
    let tip := tipOf results
    match tip.bind fun tip => retentionFloor t.provided tip t.finalityDepth with
    | none => (.ok ⟨tip, none, 0, true⟩, t)
    | some floor =>
      match drainAll floor maxVersions declarations t 0 with
      | (.error e, t) => (.error e, t)
      | (.ok deleted, t) =>
        match t.sendGuarded [.writeRetentionEnforcement floor t.guard] with
        | (.error e, t) => (.error e, t)
        | (.ok _, t) =>
          (.ok ⟨tip, some floor, deleted,
            maxVersions.all (deleted < ·) || !t.hasPrunableVersions declarations floor⟩, t)

/-! ### Reads -/

/-- The tip a retention is measured back from. -/
def tip (t : VersionedStateStore X H C) : Option ℕ := t.db.latest.map (·.number)

/-- One row, the first that matches. -/
def selectRow (declarations : List NormalizedEntity) (t : VersionedStateStore X H C) (entity : String) (id : EntityId)
    (matching : Version (Record X) → Bool) : Except EntityError (Option (Record X)) := do
  let declaration ← mustGet declarations entity
  let ids ← idValues declaration.name declaration.id id
  match (t.db.tables declaration.name).rows.find? fun row => row.id = ids && matching row.version with
  | none => .ok none
  | some row => (decodeFieldValues declaration row.record).map some

/-- The rows under a prefix, in the order of their ids. It reads one row more than the limit. -/
def selectRows (declarations : List NormalizedEntity) (t : VersionedStateStore X H C) (entity : String)
    (idPrefix : EntityId) (limit : ℤ) (matching : Version (Record X) → Bool) :
    Except EntityError (Listing X) := do
  let declaration ← mustGet declarations entity
  let values ← prefixValues declaration idPrefix
  assertListingLimit declaration limit
  let rows := (t.db.tables declaration.name).rows.filter fun row => hasIdPrefix row.id values && matching row.version
  let sorted := rows.insertionSort fun a b => compareIds a.id b.id ≤ 0
  let records ← (sorted.take (limit.toNat + 1)).mapM fun row => decodeFieldValues declaration row.record
  pure (boundedListing records limit.toNat)

def getCurrent (declarations : List NormalizedEntity) (t : VersionedStateStore X H C) (entity : String)
    (id : EntityId) : Except EntityError (Option (Record X)) :=
  t.selectRow declarations entity id (·.upper.isNone)

def listCurrent (declarations : List NormalizedEntity) (t : VersionedStateStore X H C) (entity : String)
    (idPrefix : EntityId) (limit : ℤ) : Except EntityError (Listing X) :=
  t.selectRows declarations entity idPrefix limit (·.upper.isNone)

/-- One entity at a height. The entity is looked up before the height is refused. -/
def getAsOf (declarations : List NormalizedEntity) (t : VersionedStateStore X H C) (entity : String) (id : EntityId)
    (height : ℤ) : Except ReadError (Option (Record X)) := do
  let _ ← (mustGet declarations entity).mapError .entity
  assertRetained t.provided height t.tip
  (t.selectRow declarations entity id (·.openAt height)).mapError .entity

def listAsOf (declarations : List NormalizedEntity) (t : VersionedStateStore X H C) (entity : String)
    (idPrefix : EntityId) (height : ℤ) (limit : ℤ) : Except ReadError (Listing X) := do
  let _ ← (mustGet declarations entity).mapError .entity
  assertRetained t.provided height t.tip
  (t.selectRows declarations entity idPrefix limit (·.openAt height)).mapError .entity

end VersionedStateStore

end Etherfold
