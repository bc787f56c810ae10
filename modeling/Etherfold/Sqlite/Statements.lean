import Etherfold.Ledger.Transaction
import Etherfold.Store.AsOf
import Etherfold.Store.WriterCalls

/-!
# The statements of the versioned store

One table an entity holds the versions of its rows, next to the blocks, the cursors, the
seam's records and the writer's token. What a call does is a list of statements prepared
beforehand, and every one that writes carries the guard.

* `Statement.execute`: what a statement does, and the unique index it may run into.
* `applyBlockStatements`, `revertToStatements`: the statements of a call.
-/

namespace Etherfold

open Versions

/-- One version of a row: its surrogate identity, the values of its id columns, every declared
column, and the heights it stands at. -/
structure VersionRow (X : Type) where
  rowid : ℕ
  id : List Text
  columns : Record X
  lower : ℕ
  upper : Option ℕ
  deriving DecidableEq, Repr

/-- The table of an entity, in the order of its row ids, and the next of them. -/
structure EntityTable (X : Type) where
  rows : List (VersionRow X)
  nextRowid : ℕ
  deriving DecidableEq, Repr

/-- The seam's records that are reached by calls; the others have a column of their own below. -/
inductive SeamRecordKey where
  | snapshotOrigin
  | writerClaim
  deriving DecidableEq, Repr

/-- The tables of one namespace. The engine gives a bound value back as it was bound. -/
structure Database (X H C : Type) where
  blocks : List (BlockPointer H)
  cursor : String → Option C
  records : SeamRecordKey → Option String
  revertSequence : Option ℕ
  retentionEnforcement : Option ℕ
  writer : Option String
  tables : String → EntityTable X

/-- The predicate a writing statement is subject to: the token is this writer's, and nothing
is recorded above a height. -/
structure StatementGuard where
  token : String
  aboveTip : Option ℕ
  deriving DecidableEq, Repr

inductive Statement (X H C : Type) where
  | claimWriter (token : String)
  | heldWriter
  | latestBlock
  | insertBlock (block : BlockPointer H) (guard : StatementGuard)
  | closeVersion (entity : String) (id : List Text) (number : ℕ) (guard : StatementGuard)
  | openVersion (entity : String) (id : List Text) (columns : Record X) (number : ℕ) (guard : StatementGuard)
  | writeCursor (key : String) (value : C) (guard : StatementGuard)
  | clearCursor (key : String) (guard : StatementGuard)
  | writeSeamRecord (key : SeamRecordKey) (value : String) (guard : StatementGuard)
  | clearSeamRecord (key : SeamRecordKey) (guard : StatementGuard)
  | dropOpenedAbove (entity : String) (keepUpTo : ℤ) (guard : StatementGuard)
  | reopenClosedAbove (entity : String) (keepUpTo : ℤ) (guard : StatementGuard)
  | dropBlocksAbove (keepUpTo : ℤ) (guard : StatementGuard)
  | bumpRevertSequence (guard : StatementGuard)
  | dropVersions (entity : String) (rowids : List ℕ) (guard : StatementGuard)
  | writeRetentionEnforcement (floor : ℕ) (guard : StatementGuard)

/-- A unique index a statement ran into. -/
inductive UniqueViolation (H : Type) where
  | blockNumber (number : ℕ)
  | blockHash (hash : H)
  | openVersion (entity : String)
  deriving DecidableEq, Repr

/-- What a statement answers. -/
inductive SQLResult (H : Type) where
  | nothing
  | token (token : Option String)
  | block (block : Option (BlockPointer H))
  deriving DecidableEq, Repr

variable {X H C : Type}

namespace VersionRow

/-- The version a row is. -/
def version (row : VersionRow X) : Version (Record X) := ⟨row.columns, row.lower, row.upper⟩

/-- All the columns of a row, as a read selects them. -/
def record (row : VersionRow X) : Record X :=
  ("_rowid", .number row.rowid) :: (row.columns ++ versionColumns row.version)

end VersionRow

/-- The ids of the live versions; the partial index holds them. -/
def EntityTable.openIds (table : EntityTable X) : List (List Text) :=
  (table.rows.filter (·.upper.isNone)).map (·.id)

namespace Database

/-- The highest recorded block. -/
def latest (db : Database X H C) : Option (BlockPointer H) :=
  (db.blocks.insertionSort fun a b => b.number ≤ a.number).head?

/-- Put other rows into a table. -/
def setRows (db : Database X H C) (entity : String) (rows : List (VersionRow X)) : Database X H C :=
  { db with tables := Function.update db.tables entity { db.tables entity with rows := rows } }

/-- What a write to a table leaves, if the partial index takes it. -/
def checkOpen (db : Database X H C) (entity : String) : Except (UniqueViolation H) (Database X H C) :=
  if (db.tables entity).openIds.Nodup then .ok db else .error (.openVersion entity)

end Database

/-- A table with no token row has no holder. -/
def StatementGuard.holds (guard : StatementGuard) (db : Database X H C) : Bool :=
  db.writer.getD "" = guard.token && guard.aboveTip.all fun height => !db.blocks.any (height < ·.number)

namespace Statement

/-- The guard of a statement that writes. -/
def guard : Statement X H C → Option StatementGuard
  | .insertBlock _ guard | .closeVersion _ _ _ guard | .openVersion _ _ _ _ guard | .writeCursor _ _ guard
  | .clearCursor _ guard | .writeSeamRecord _ _ guard | .clearSeamRecord _ guard | .dropOpenedAbove _ _ guard
  | .reopenClosedAbove _ _ guard | .dropBlocksAbove _ guard
  | .bumpRevertSequence guard | .dropVersions _ _ guard | .writeRetentionEnforcement _ guard => some guard
  | .claimWriter _ | .heldWriter | .latestBlock => none

variable [DecidableEq H]

/-- What a statement does where its guard holds. -/
def effect (db : Database X H C) : Statement X H C → Except (UniqueViolation H) (Database X H C)
  | .claimWriter token => .ok { db with writer := some token }
  | .heldWriter | .latestBlock => .ok db
  | .insertBlock block _ =>
    if db.blocks.any (·.number = block.number) then .error (.blockNumber block.number)
    else if db.blocks.any (·.hash = block.hash) then .error (.blockHash block.hash)
    else .ok { db with blocks := db.blocks ++ [block] }
  | .closeVersion entity id number _ =>
    (db.setRows entity ((db.tables entity).rows.map fun row =>
      if row.id = id && row.upper.isNone then { row with upper := some number } else row)).checkOpen entity
  | .openVersion entity id columns number _ =>
    let table := db.tables entity
    Database.checkOpen { db with
      tables := Function.update db.tables entity
        ⟨table.rows ++ [⟨table.nextRowid, id, columns, number, none⟩], table.nextRowid + 1⟩ } entity
  | .writeCursor key value _ => .ok { db with cursor := Function.update db.cursor key (some value) }
  | .clearCursor key _ => .ok { db with cursor := Function.update db.cursor key none }
  | .writeSeamRecord key value _ => .ok { db with records := Function.update db.records key (some value) }
  | .clearSeamRecord key _ => .ok { db with records := Function.update db.records key none }
  | .dropOpenedAbove entity keepUpTo _ =>
    (db.setRows entity ((db.tables entity).rows.filter fun row => (row.lower : ℤ) ≤ keepUpTo)).checkOpen entity
  | .reopenClosedAbove entity keepUpTo _ =>
    (db.setRows entity ((db.tables entity).rows.map fun row =>
      if row.upper.any fun x : ℕ => keepUpTo < (x : ℤ) then { row with upper := none } else row)).checkOpen entity
  | .dropBlocksAbove keepUpTo _ => .ok { db with blocks := db.blocks.filter fun b => (b.number : ℤ) ≤ keepUpTo }
  | .bumpRevertSequence _ => .ok { db with revertSequence := some (db.revertSequence.getD 0 + 1) }
  | .dropVersions entity rowids _ =>
    (db.setRows entity ((db.tables entity).rows.filter (·.rowid ∉ rowids))).checkOpen entity
  | .writeRetentionEnforcement floor _ => .ok { db with retentionEnforcement := some floor }

/-- **Execute a statement.** One whose guard does not hold matches no row. -/
def execute (statement : Statement X H C) (db : Database X H C) :
    Except (UniqueViolation H) (SQLResult H × Database X H C) :=
  match statement with
  | .heldWriter => .ok (.token db.writer, db)
  | .latestBlock => .ok (.block db.latest, db)
  | statement =>
    if statement.guard.all (·.holds db) then
      match statement.effect db with
      | .ok db => .ok (.nothing, db)
      | .error violation => .error violation
    else .ok (.nothing, db)

end Statement

/-! ### The statements of a call -/

/-- The statements of one mutation: close the live version, and open the new one. -/
def mutationStatements (declarations : List NormalizedEntity) (number : ℕ) (guard : StatementGuard) :
    EntityMutation X → Except EntityError (List (Statement X H C))
  | .upsert entity id values => do
    let declaration ← mustGet declarations entity
    let ids ← idValues declaration.name declaration.id id
    let stored ← encodeFieldValues declaration values
    pure [.closeVersion declaration.name ids number guard,
      .openVersion declaration.name ids (storedRow declaration ids stored) number guard]
  | .delete entity id => do
    let declaration ← mustGet declarations entity
    let ids ← idValues declaration.name declaration.id id
    pure [.closeVersion declaration.name ids number guard]

/-- **The statements that apply one block**: the block first and the cursor last. Every one
carries the tip guard as well as the writer's. -/
def applyBlockStatements (declarations : List NormalizedEntity) (call : AppliedCall X H C) (token : String) :
    Except EntityError (List (Statement X H C)) := do
  let guard : StatementGuard := ⟨token, some call.block.number⟩
  let groups ← call.mutations.mapM (mutationStatements declarations call.block.number guard)
  let cursor := match call.cursor with
    | none => []
    | some (key, value) => [.writeCursor key value guard]
  pure (.insertBlock call.block guard :: groups.flatten ++ cursor)

/-- **The statements that roll back**: for each entity what was opened above goes first, and
then what was closed above is open again. -/
def revertToStatements (declarations : List NormalizedEntity) (keepUpTo : ℤ) (guard : StatementGuard) :
    List (Statement X H C) :=
  declarations.flatMap (fun entity =>
    [.dropOpenedAbove entity.name keepUpTo guard, .reopenClosedAbove entity.name keepUpTo guard]) ++
    [.dropBlocksAbove keepUpTo guard, .bumpRevertSequence guard]

/-- The next versions the floor puts out of reach, at most `limit` of them, by row id. -/
def prunableVersions (table : EntityTable X) (floor limit : ℕ) : List ℕ :=
  (((table.rows.filter fun row => row.upper.any (· ≤ floor)).insertionSort
    fun a b => a.upper.getD 0 ≤ b.upper.getD 0).take limit).map (·.rowid)

end Etherfold
