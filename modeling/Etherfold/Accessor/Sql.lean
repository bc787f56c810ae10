import Etherfold.Accessor.Indexed
import Etherfold.Sqlite.Runs

/-!
# The accessor of the versioned store

A planned query becomes a `SELECT` over the entity's table, under the validity predicate of the tip
or of a height. What follows is the statement and what the engine makes of it: a comparison with a
null column is null, texts compare byte by byte, nulls go first ascending and last descending.

* `whereOf`, `SqlExpr.eval`: the predicate as SQL, and its three-valued value.
* `findStatement`, `childrenStatement`: the rows a statement answers.
* `VersionedStateStore.find`, `VersionedStateStore.children`: the reads. The retention is checked
  first, and a page of parents may take several statements.
-/

namespace Etherfold

open Versions

variable {X H C : Type}

/-- A predicate in SQL. -/
inductive SqlExpr where
  | const (value : Bool)
  | conj (parts : List SqlExpr)
  | disj (parts : List SqlExpr)
  | compare (column : String) (op : ComparisonOperator) (arg : StoredOperand)
  | isIn (column : String) (args : List StoredOperand)
  | isNull (column : String) (isNull : Bool)

mutual

/-- **A planned predicate as SQL.** -/
def whereOf : PlannedWhere → SqlExpr
  | .and [] => .const true
  | .or [] => .const false
  | .and (part :: parts) => .conj (whereParts (part :: parts))
  | .or (part :: parts) => .disj (whereParts (part :: parts))
  | .compare column op operand => .compare column op operand
  | .isIn column operands => .isIn column operands
  | .isNull column isNull => .isNull column isNull

def whereParts : List PlannedWhere → List SqlExpr
  | [] => []
  | part :: parts => whereOf part :: whereParts parts

end

mutual

/-- The values a predicate binds. -/
def SqlExpr.args : SqlExpr → List StoredOperand
  | .const _ | .isNull _ _ => []
  | .conj parts | .disj parts => argsOfParts parts
  | .compare _ _ arg => [arg]
  | .isIn _ args => args

def argsOfParts : List SqlExpr → List StoredOperand
  | [] => []
  | part :: parts => part.args ++ argsOfParts parts

end

section Values

variable (real : X → Option ℚ)

/-- A bound value as the engine keeps it. What is no number the engine knows is null. -/
def sqlValue : FieldValue X → Option StoredOperand
  | .bigint value => some (.number value)
  | value => storedForm real value

/-- The order of the storage classes: numbers, texts, blobs. -/
def StoredOperand.rank : StoredOperand → ℤ
  | .number _ => 0
  | .text _ => 1
  | .bytes _ => 2

/-- Two values that are not null, texts under `BINARY`. -/
def sqlCompare : StoredOperand → StoredOperand → ℤ
  | .text a, .text b => compareBytes (encode a) (encode b)
  | .number a, .number b => if a < b then -1 else if b < a then 1 else 0
  | .bytes a, .bytes b => compareBytes a b
  | a, b => a.rank - b.rank

/-- `AND`: false where one is, null where another is. -/
def sqlAnd : Option Bool → Option Bool → Option Bool
  | some false, _ | _, some false => some false
  | some true, some true => some true
  | _, _ => none

/-- `OR`: true where one is, null where another is. -/
def sqlOr : Option Bool → Option Bool → Option Bool
  | some true, _ | _, some true => some true
  | some false, some false => some false
  | _, _ => none

mutual

/-- **The value of a predicate**: true, false, or null. -/
def SqlExpr.eval (row : Record X) : SqlExpr → Option Bool
  | .const value => some value
  | .conj parts => evalAll row parts
  | .disj parts => evalAny row parts
  | .compare column op arg => (sqlValue real (row.field column)).map fun value => op.holds (sqlCompare value arg)
  | .isIn column args => (sqlValue real (row.field column)).map fun value => args.any (sqlCompare value · = 0)
  | .isNull column isNull => some ((sqlValue real (row.field column)).isNone == isNull)

def evalAll (row : Record X) : List SqlExpr → Option Bool
  | [] => some true
  | part :: parts => sqlAnd (part.eval row) (evalAll row parts)

def evalAny (row : Record X) : List SqlExpr → Option Bool
  | [] => some false
  | part :: parts => sqlOr (part.eval row) (evalAny row parts)

end

/-- A row is selected where the predicate is true. -/
def selects (selected : Option PlannedWhere) (row : Record X) : Bool :=
  selected.all fun planned => (whereOf planned).eval real row = some true

/-- An `ORDER BY` term: nulls first ascending, last descending. -/
def sqlOrderTerm (a b : FieldValue X) (direction : OrderDirection) : ℤ :=
  let ascending := match sqlValue real a, sqlValue real b with
    | none, none => 0
    | none, some _ => -1
    | some _, none => 1
    | some a, some b => sqlCompare a b
  match direction with
  | .asc => ascending
  | .desc => -ascending

/-- The first term that differs decides. -/
def sqlTies (a b : Record X) : List String → ℤ
  | [] => 0
  | column :: columns =>
    let tie := sqlOrderTerm real (a.field column) (b.field column) .asc
    if tie ≠ 0 then tie else sqlTies a b columns

/-- **The planned order as SQL.** -/
def sqlOrder (entity : NormalizedEntity) (orderBy : Option PlannedOrder) (a b : Record X) : ℤ :=
  let ordered := match orderBy with
    | none => 0
    | some order => sqlOrderTerm real (a.field order.column) (b.field order.column) order.direction
  if ordered ≠ 0 then ordered else sqlTies real a b entity.id

/-- The validity predicate, of the tip or of a height. -/
def valid (height : Option ℤ) (row : VersionRow X) : Bool :=
  match height with
  | none => row.upper.isNone
  | some height => row.version.openAt height

/-- **The rows of a `find`**, one more than the limit. -/
def findStatement (planned : PlannedSelection) (db : Database X H C) : List (Record X) :=
  let rows := ((db.tables planned.entity.name).rows.filter fun row =>
    valid planned.height row && selects real planned.selected row.columns).map (·.columns)
  (rows.insertionSort fun a b => sqlOrder real planned.entity planned.orderBy a b ≤ 0).take (planned.limit + 1)

/-- **The rows of a `children`**: each child is ranked within its parent, and what ranks past one
more than the limit is left out. The parents come in the order of their keys. -/
def childrenStatement (planned : PlannedChildren) (keys : List (List Text)) (db : Database X H C) :
    List (Record X) :=
  let rows := ((db.tables planned.entity.name).rows.filter fun row =>
    valid planned.height row && keys.any (fun key => parentKey planned.parent row.columns = key.map some) &&
      selects real planned.selected row.columns).map (·.columns)
  let ranked := fun key => ((rows.filter fun row => parentKey planned.parent row = key).insertionSort
    fun a b => sqlOrder real planned.entity planned.orderBy a b ≤ 0).take (planned.limit + 1)
  let partitions := (rows.map (parentKey planned.parent)).dedup.insertionSort fun a b =>
    Lex.compare (fun x y : Option Text => compareBytes (x.elim [] encode) (y.elim [] encode)) a b ≤ 0
  partitions.flatMap ranked

/-- Answer the rows of a statement. -/
def sqlPage (entity : NormalizedEntity) (rows : List (Record X)) (limit : ℕ) : Except AccessorError (Listing X) := do
  let answered ← rows.mapM (answeredRow entity)
  pure (boundedListing answered limit)

end Values

/-- How many values a children statement binds beside the keys. -/
def paramsOf (planned : PlannedSelection) : ℕ :=
  (if planned.height.isSome then 2 else 0) + (planned.selected.elim 0 fun planned => (whereOf planned).args.length) + 1

/-- How many parents one statement names. -/
def parentsPerStatement (maxParams : ℕ) (planned : PlannedChildren) : ℕ :=
  max 1 ((maxParams - paramsOf planned.toPlannedSelection) / planned.parent.id.length)

/-- The keys in runs of `n`, the last of them shorter. -/
def chunksOf (n : ℕ) : ℕ → List (List Text) → List (List (List Text))
  | 0, _ => []
  | passes + 1, keys => if keys = [] then [] else keys.take n :: chunksOf n passes (keys.drop n)

/-- The keys of the statements of a `children`. -/
def statementKeys (maxParams : ℕ) (planned : PlannedChildren) : List (List (List Text)) :=
  chunksOf (parentsPerStatement maxParams planned) planned.distinctParents.length planned.distinctParents

/-- The start of what storage still holds: by the handle's retention, or by the floor a prune
recorded, whichever is higher. -/
def retainedFrom (provided : Retention) (finalityDepth tip recorded : Option ℕ) : Option ℕ :=
  match tip.bind fun tip => retentionFloor provided tip finalityDepth with
  | none => recorded
  | some configured => some (max configured (recorded.getD 0))

/-- **Refuse a height storage does not hold**: the handle's own retention first. -/
def assertStorageRetains (provided : Retention) (finalityDepth tip recorded : Option ℕ) (height : ℤ) :
    Except ReadError Unit := do
  assertRetained provided height tip
  match (retainedFrom provided finalityDepth tip recorded).filter fun fromBlock : ℕ => height < (fromBlock : ℤ) with
  | some fromBlock => .error (.blockNotRetained height (some ⟨fromBlock, max fromBlock (tip.getD fromBlock)⟩) .outsideWindow
      provided)
  | none => .ok ()

namespace VersionedStateStore

variable (d : AccessorDeclarations) (real : X → Option ℚ) (t : VersionedStateStore X H C)

/-- The check of an as-of read; a read at the tip asks for none. -/
def assertHeight (height : Option ℤ) : Except AccessorError Unit :=
  match height with
  | none => .ok ()
  | some height =>
    (assertStorageRetains t.provided t.finalityDepth t.tip t.db.retentionEnforcement height).mapError .retention

/-- **The rows of one entity that match**, in order, at most `limit`. -/
def find (query : FindQuery) : Except AccessorError (Listing X) := do
  let planned ← (planFind d query).mapError .plan
  t.assertHeight planned.height
  sqlPage planned.entity (findStatement real planned t.db) planned.limit

/-- The pages of a `children`, from the rows of its statements. -/
def childrenPages (planned : PlannedChildren) (rows : List (Record X)) : Except AccessorError (List (Listing X)) :=
  planned.parents.mapM fun key =>
    sqlPage planned.entity (rows.filter fun row => parentKey planned.parent row = key.map some) planned.limit

/-- **The children of each of a page of parents**, at most `limit` of each. -/
def children (query : ChildrenQuery) : Except AccessorError (List (Listing X)) := do
  let planned ← (planChildren d query).mapError .plan
  t.assertHeight planned.height
  childrenPages planned
    ((statementKeys t.bounds.maxRowsPerStatement planned).flatMap fun keys => childrenStatement real planned keys t.db)

end VersionedStateStore

end Etherfold
