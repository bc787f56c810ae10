import Etherfold.Indexed.Keys
import Etherfold.Store.AsOf
import Etherfold.Store.WriterCalls

/-!
# The indexed store

`IndexedDBStateStore` keeps the live rows and the versions of every row in two object stores of
one database, next to the blocks, the cursors and the records of the seam. A call is one
transaction; one that aborts leaves the database as it was.

* `IndexedDB.applyMutation`: the live version is closed, and another opened over it.
* `applyBlock`, `revertTo`, `prune`, `writeCursor`: the calls that write.
* `getCurrent`, `getAsOf`, `listCurrent`, `listAsOf`: the calls that read.
-/

namespace Etherfold

open Versions

/-- The live version of one business key. -/
structure CurrentRecord (V : Type) where
  values : V
  lower : ℕ
  deriving DecidableEq, Repr

/-- The version a live record is. -/
def CurrentRecord.version {V : Type} (record : CurrentRecord V) : Version V := ⟨record.values, record.lower, none⟩

/-- The object stores. A version's record is the version. -/
structure IndexedDB (X H C : Type) where
  current : ObjectStore Key (CurrentRecord (Record X))
  versions : ObjectStore Key (Version (Record X))
  blocks : ObjectStore ℕ (BlockPointer H)
  cursors : String → Option C
  writer : Option String
  revertSequence : Option ℕ
  retentionEnforcement : Option ℕ

/-- Why a call is refused. -/
inductive IndexedError (H : Type) where
  | entity (error : EntityError)
  | refused (error : StoreWriteRefusedError H)
  | invalidBudget (maxVersions : ℤ)
  | writerChanged
  deriving DecidableEq, Repr

/-- The store: its database, its claim, and how it was configured. -/
structure IndexedDBStateStore (X H C : Type) where
  db : IndexedDB X H C
  token : String
  claimed : Bool
  provided : Retention
  finalityDepth : Option ℕ

variable {X H C : Type}

namespace IndexedDB

def empty : IndexedDB X H C := ⟨.empty, .empty, .empty, fun _ => none, none, none, none⟩

/-- The last key of the blocks. -/
def tip (db : IndexedDB X H C) : Option ℕ := db.blocks.entries.getLast?.map (·.1)

/-- **One mutation of block `number`.** -/
def applyMutation (number : ℕ) (db : IndexedDB X H C) (m : Mutation EntityKey (Record X)) : IndexedDB X H C :=
  let key := rowKey m.key
  let previous := db.current.get key
  -- the range is half open: what was live is readable up to the block below
  let versions := match previous with
    | none => db.versions
    | some live => db.versions.put (versionKey key live.lower) ⟨live.values, live.lower, some number⟩
  match m.values with
  | some values => { db with
      current := db.current.put key ⟨values, number⟩
      versions := versions.put (versionKey key number) ⟨values, number, none⟩ }
  | none => { db with
      current := if previous.isSome then db.current.delete key else db.current
      versions := versions }

/-- The checks of a block, in the transaction that writes it. -/
def assertRecordable [DecidableEq H] (db : IndexedDB X H C) (block : BlockPointer H) :
    Except (StoreWriteRefusedError H) Unit :=
  if (db.blocks.get block.number).isSome then .error (.blockAlreadyRecorded block.number)
  else
    match db.blocks.entries.find? (·.2.hash = block.hash) with
    | some recorded => .error (.blockHashAlreadyRecorded block.hash recorded.1)
    | none =>
      match db.tip.filter (block.number ≤ ·) with
      | some tip => .error (.blockNotAboveTip block.number tip)
      | none => .ok ()

/-- What a block writes. -/
def writeBlock (block : BlockPointer H) (planned : List (Mutation EntityKey (Record X)))
    (cursor : Option (String × C)) (db : IndexedDB X H C) : IndexedDB X H C :=
  let db := planned.foldl (applyMutation block.number) db
  { db with
    blocks := db.blocks.put block.number block
    cursors := match cursor with
      | none => db.cursors
      | some (key, value) => Function.update db.cursors key (some value) }

/-- Drop what was opened above the fork, and the live rows of it. -/
def dropOpened (keepUpTo : ℤ) (db : IndexedDB X H C) : IndexedDB X H C :=
  let opened := (db.versions.index fun version => some version.lower).filter fun e => keepUpTo < (e.1 : ℤ)
  { db with
    current := opened.foldl (fun current e => current.delete (rowOfVersionKey e.2.1)) db.current
    versions := opened.foldl (fun versions e => versions.delete e.2.1) db.versions }

/-- Open again what was closed above the fork, and put it back among the live rows. -/
def reopenClosed (keepUpTo : ℤ) (db : IndexedDB X H C) : IndexedDB X H C :=
  let closed := (db.versions.index (·.upper)).filter fun e => keepUpTo < (e.1 : ℤ)
  { db with
    versions := closed.foldl (fun versions e => versions.put e.2.1 { e.2.2 with upper := none }) db.versions
    current := closed.foldl (fun current e => current.put (rowOfVersionKey e.2.1) ⟨e.2.2.values, e.2.2.lower⟩)
      db.current }

/-- Delete closed versions at or below a floor, the oldest first, as far as the budget goes. -/
def pruneVersions (floor : ℕ) (maxVersions : Option ℕ) (db : IndexedDB X H C) : IndexedDB X H C × ℕ :=
  let closed := (db.versions.index (·.upper)).filter (·.1 ≤ floor)
  let walked := ObjectStore.walk (fun (versions, deleted) e =>
    ((versions.delete e.2.1, deleted + 1), maxVersions.any (· ≤ deleted + 1))) closed (db.versions, 0)
  ({ db with versions := walked.1 }, walked.2)

end IndexedDB

namespace IndexedDBStateStore

/-- The constructor, over a database just created. -/
def new (setting : Option RetentionSetting) (finalityDepth : Option ℕ) (token : String) :
    Except RetentionError (IndexedDBStateStore X H C) :=
  match resolveRetention setting finalityDepth with
  | .error e => .error e
  | .ok provided => .ok ⟨.empty, token, false, provided, finalityDepth⟩

/-- Claim the database, until a claim has been committed; from then on, check it. -/
def claimOrCheck (t : IndexedDBStateStore X H C) : Except (IndexedError H) (IndexedDB X H C) :=
  if !t.claimed then .ok { t.db with writer := some t.token }
  else if t.db.writer = some t.token then .ok t.db
  else .error .writerChanged

/-- **One transaction**, committed whole or aborted. -/
def transaction {α : Type} (t : IndexedDBStateStore X H C)
    (body : IndexedDB X H C → Except (IndexedError H) (α × IndexedDB X H C)) :
    Except (IndexedError H) α × IndexedDBStateStore X H C :=
  match t.claimOrCheck with
  | .error e => (.error e, t)
  | .ok db =>
    match body db with
    | .error e => (.error e, t)
    | .ok (a, db) => (.ok a, { t with db := db, claimed := true })

/-- **Apply one block.** Its mutations are resolved before the transaction is opened. -/
def applyBlock [DecidableEq H] (declarations : List NormalizedEntity) (t : IndexedDBStateStore X H C)
    (call : AppliedCall X H C) : Except (IndexedError H) Unit × IndexedDBStateStore X H C :=
  match call.mutations.mapM (plan declarations) with
  | .error e => (.error (.entity e), t)
  | .ok planned => t.transaction fun db =>
    match db.assertRecordable call.block with
    | .error e => .error (.refused e)
    | .ok _ => .ok ((), db.writeBlock call.block planned call.cursor)

/-- Move a cursor with no block behind it. -/
def writeCursor (t : IndexedDBStateStore X H C) (key : String) (value : C) :
    Except (IndexedError H) Unit × IndexedDBStateStore X H C :=
  t.transaction fun db => .ok ((), { db with cursors := Function.update db.cursors key (some value) })

/-- **Roll back**: drop what was opened above the fork, open again what was closed above it. -/
def revertTo (t : IndexedDBStateStore X H C) (keepUpTo : ℤ) :
    Except (IndexedError H) Unit × IndexedDBStateStore X H C :=
  t.transaction fun db =>
    let db := (db.dropOpened keepUpTo).reopenClosed keepUpTo
    .ok ((), { db with
      blocks := db.blocks.filter fun e => (e.1 : ℤ) ≤ keepUpTo
      revertSequence := some (db.revertSequence.getD 0 + 1) })

/-- **Delete the versions the retention does not cover.** -/
def prune (t : IndexedDBStateStore X H C) (maxVersions : Option ℤ) :
    Except (IndexedError H) PruneReport × IndexedDBStateStore X H C :=
  match pruneBudget maxVersions with
  | .error maxVersions => (.error (.invalidBudget maxVersions), t)
  | .ok budget => t.transaction fun db =>
    match db.tip.bind fun tip => retentionFloor t.provided tip t.finalityDepth with
    | none => .ok (⟨db.tip, none, 0, true⟩, db)
    | some floor =>
      let (pruned, deleted) := db.pruneVersions floor budget
      -- with a budget, whether anything is left is looked up
      let complete := budget.all (deleted < ·) || !(pruned.versions.index (·.upper)).any (·.1 ≤ floor)
      .ok (⟨db.tip, some floor, deleted, complete⟩, { pruned with retentionEnforcement := some floor })

/-! ### Reads -/

/-- One entity at the tip. -/
def getCurrent (declarations : List NormalizedEntity) (t : IndexedDBStateStore X H C) (entity : String)
    (id : EntityId) : Except EntityError (Option (Record X)) := do
  let declaration ← mustGet declarations entity
  let key ← entityKey declaration id
  match t.db.current.get (rowKey key) with
  | none => .ok none
  | some record => (readVersion declaration record.version).map some

/-- One entity at a height: the newest version that had opened by then, unless it had closed. -/
def getAsOf (declarations : List NormalizedEntity) (t : IndexedDBStateStore X H C) (entity : String) (id : EntityId)
    (height : ℤ) : Except ReadError (Option (Record X)) := do
  let declaration ← (mustGet declarations entity).mapError .entity
  assertRetained t.provided height t.db.tip
  let key ← (entityKey declaration id).mapError .entity
  match (t.db.versions.range (asOfRange (rowKey key) height)).getLast? with
  | none => .ok none
  | some (_, version) =>
    if version.upper.any fun upper => (upper : ℤ) ≤ height then .ok none
    else ((readVersion declaration version).map some).mapError .entity

/-- The children of an id prefix at the tip. One row more than the limit is read. -/
def listCurrent (declarations : List NormalizedEntity) (t : IndexedDBStateStore X H C) (entity : String)
    (idPrefix : EntityId) (limit : ℤ) : Except EntityError (Listing X) := do
  let declaration ← mustGet declarations entity
  let values ← prefixValues declaration idPrefix
  assertListingLimit declaration limit
  let records := t.db.current.range (startingWith (rowKey ⟨declaration.name, values⟩))
  let rows ← (records.take (limit.toNat + 1)).mapM fun e => readVersion declaration e.2.version
  pure (boundedListing rows limit.toNat)

/-- The children of an id prefix at a height. -/
def listAsOf (declarations : List NormalizedEntity) (t : IndexedDBStateStore X H C) (entity : String)
    (idPrefix : EntityId) (height : ℤ) (limit : ℤ) : Except ReadError (Listing X) := do
  let declaration ← (mustGet declarations entity).mapError .entity
  let values ← (prefixValues declaration idPrefix).mapError .entity
  (assertListingLimit declaration limit).mapError .entity
  assertRetained t.provided height t.db.tip
  let versions := t.db.versions.range (startingWith (rowKey ⟨declaration.name, values⟩))
  let standing := versions.filter fun e => e.2.openAt height
  let rows ← ((standing.take (limit.toNat + 1)).mapM fun e => readVersion declaration e.2).mapError .entity
  pure (boundedListing rows limit.toNat)

end IndexedDBStateStore

end Etherfold
