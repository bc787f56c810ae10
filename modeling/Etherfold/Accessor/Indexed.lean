import Etherfold.Accessor.Plan
import Etherfold.Indexed.Runs

/-!
# The accessor of the indexed store

It has no query planner: it scans the live rows and, as of a block, what was closed since, keeps
what matches, sorts and cuts. It examines a bounded number of rows and refuses past the bound.

* `matchesWhere`, `rowOrder`: a planned predicate and order, evaluated in memory.
* `scanCurrent`, `scanDelta`: the two scans.
* `IndexedDBStateStore.find`, `IndexedDBStateStore.children`: the reads. The retention is checked
  in one transaction, and the rows are read in another.
-/

namespace Etherfold

open Versions

variable {X H C : Type}

/-- Why a scan is refused. -/
inductive ScanRefusal where
  | tip (entity : String) (height : Option ℤ)
  | children (entity parent : String) (key : List Text)
  | delta (entity : String) (height : ℤ)
  deriving DecidableEq, Repr

/-- Why a read of the accessor is refused. -/
inductive AccessorError where
  | plan (error : PlanError)
  | retention (error : ReadError)
  | rowsExaminedBound (bound : ℕ) (refusal : ScanRefusal)
  | cannotCompare
  | entity (error : EntityError)
  deriving DecidableEq, Repr

/-- The items a fallible test keeps. -/
def keepM {α ε : Type} (p : α → Except ε Bool) : List α → Except ε (List α)
  | [] => .ok []
  | a :: rest => do
    let kept ← p a
    let rest ← keepM p rest
    pure (if kept then a :: rest else rest)

def FieldValue.isNull : FieldValue X → Bool
  | .null => true
  | _ => false

section Values

-- the values no rule of the store looks into that are numbers
variable (real : X → Option ℚ)

/-- A stored value as an operand is stored, where it is of a kind that compares. -/
def storedForm : FieldValue X → Option StoredOperand
  | .text text => some (.text text)
  | .number value => some (.number value)
  | .bytes bytes => some (.bytes bytes)
  | .other value => (real value).map .number
  | .null | .bigint _ => none

/-- Two operands of one kind. -/
def compareOperands : StoredOperand → StoredOperand → Option ℤ
  | .text a, .text b => some (compareUtf8 a b)
  | .number a, .number b => some (if a < b then -1 else if b < a then 1 else 0)
  | .bytes a, .bytes b => some (compareBytes a b)
  | _, _ => none

/-- **Two stored values that are not null.** Two kinds that meet here are a defect, and thrown. -/
def compareStored (a : FieldValue X) (b : Option StoredOperand) : Except AccessorError ℤ :=
  match (storedForm real a).bind fun a => b.bind (compareOperands a) with
  | some compared => .ok compared
  | none => .error .cannotCompare

def ComparisonOperator.holds (op : ComparisonOperator) (compared : ℤ) : Bool :=
  match op with
  | .eq => compared = 0
  | .ne => compared ≠ 0
  | .lt => compared < 0
  | .lte => compared ≤ 0
  | .gt => 0 < compared
  | .gte => 0 ≤ compared

/-- The first operand that is equal decides. -/
def isAnyOf (value : FieldValue X) : List StoredOperand → Except AccessorError Bool
  | [] => .ok false
  | operand :: operands => do
    if (← compareStored real value (some operand)) = 0 then pure true else isAnyOf value operands

mutual

/-- **Whether a stored row matches.** A null field matches no comparison. -/
def matchesWhere (row : Record X) : PlannedWhere → Except AccessorError Bool
  | .and parts => matchesAll row parts
  | .or parts => matchesAny row parts
  | .isNull column isNull => .ok (if (row.field column).isNull then isNull else !isNull)
  | .isIn column operands => if (row.field column).isNull then .ok false else isAnyOf real (row.field column) operands
  | .compare column op operand =>
    if (row.field column).isNull then .ok false
    else (compareStored real (row.field column) (some operand)).map op.holds

def matchesAll (row : Record X) : List PlannedWhere → Except AccessorError Bool
  | [] => .ok true
  | part :: parts => do if ← matchesWhere row part then matchesAll row parts else pure false

def matchesAny (row : Record X) : List PlannedWhere → Except AccessorError Bool
  | [] => .ok false
  | part :: parts => do if ← matchesWhere row part then pure true else matchesAny row parts

end

/-- No predicate matches every row. -/
def matchesSelected (selected : Option PlannedWhere) (row : Record X) : Except AccessorError Bool :=
  match selected with
  | none => .ok true
  | some planned => matchesWhere real row planned

/-- Null is the smallest value. -/
def compareOrdered (a b : FieldValue X) (direction : OrderDirection) : Except AccessorError ℤ := do
  let ascending ←
    if a.isNull then pure (if b.isNull then 0 else -1)
    else if b.isNull then pure 1
    else compareStored real a (storedForm real b)
  pure (match direction with
    | .asc => ascending
    | .desc => -ascending)

/-- The first id column that differs decides. -/
def compareTies (a b : Record X) : List String → Except AccessorError ℤ
  | [] => .ok 0
  | column :: columns => do
    let tie ← compareStored real (a.field column) (storedForm real (b.field column))
    if tie ≠ 0 then pure tie else compareTies a b columns

/-- **The planned order**, and the declared id among rows that tie. -/
def rowOrder (entity : NormalizedEntity) (orderBy : Option PlannedOrder) (a b : Record X) : Except AccessorError ℤ := do
  let ordered ← match orderBy with
    | none => pure 0
    | some order => compareOrdered real (a.field order.column) (b.field order.column) order.direction
  if ordered ≠ 0 then pure ordered else compareTies real a b entity.id

/-- Two rows come in this order. -/
def inOrder (entity : NormalizedEntity) (orderBy : Option PlannedOrder) (a b : Record X) : Bool :=
  match rowOrder real entity orderBy a b with
  | .ok compared => compared ≤ 0
  | .error _ => true

/-- The rows in order. A sort compares every two kinds it is given, so rows that do not compare
throw, whichever way it goes. -/
def sortRows (entity : NormalizedEntity) (orderBy : Option PlannedOrder) (rows : List (Record X)) :
    Except AccessorError (List (Record X)) :=
  if rows.Pairwise fun a b => (rowOrder real entity orderBy a b).isOk = true then
    .ok (rows.insertionSort fun a b => inOrder real entity orderBy a b = true)
  else .error .cannotCompare

/-- A stored row as the accessor answers it: the declared columns only, decoded. -/
def answeredRow (entity : NormalizedEntity) (stored : Record X) : Except AccessorError (Record X) :=
  (decodeFieldValues entity ((entity.id ++ entity.fields.map (·.1)).map fun column =>
    (column, stored.field column))).mapError .entity

/-- Sort, cut to the limit, and answer. -/
def pageOf (entity : NormalizedEntity) (rows : List (Record X)) (orderBy : Option PlannedOrder) (limit : ℕ) :
    Except AccessorError (Listing X) := do
  let sorted ← sortRows real entity orderBy rows
  let answered ← (sorted.take (limit + 1)).mapM (answeredRow entity)
  pure (boundedListing answered limit)

end Values

/-- The key of the parent a child's row belongs to. An id column holds a text. -/
def parentKey (parent : NormalizedEntity) (row : Record X) : List (Option Text) :=
  parent.id.map fun column =>
    match row.field column with
    | .text text => some text
    | _ => none

namespace IndexedDB

variable (real : X → Option ℚ) (bound : ℕ) (db : IndexedDB X H C)

/-- **The live rows under a key** that match and, as of a block, were live by then. -/
def scanCurrent (entity : NormalizedEntity) (key : List Text) (selected : Option PlannedWhere) (height : Option ℤ)
    (refusal : ScanRefusal) : Except AccessorError (List (Record X)) := do
  let rows := db.current.range (startingWith (rowKey ⟨entity.name, key⟩))
  let matched ← keepM (fun e => if height.all ((e.2.lower : ℤ) ≤ ·) then matchesSelected real selected e.2.values
    else pure false) (rows.take bound)
  if bound < rows.length then .error (.rowsExaminedBound bound refusal) else pure (matched.map (·.2.values))

/-- **What was live at a height and was closed since**, by the height it was closed at. The closed
versions of every entity count. -/
def scanDelta (entity : NormalizedEntity) (height : ℤ) (selected : Option PlannedWhere) :
    Except AccessorError (List (Record X)) := do
  let closed := (db.versions.index (·.upper)).filter (height < ·.1)
  let matched ← keepM (fun e =>
    if e.2.1.head? = some (.string entity.name) ∧ (e.2.2.lower : ℤ) ≤ height then matchesSelected real selected e.2.2.values
    else pure false) (closed.take bound)
  if bound < closed.length then .error (.rowsExaminedBound bound (.delta entity.name height))
  else pure (matched.map (·.2.2.values))

/-- The scans of a `find`, in one transaction. -/
def findRows (planned : PlannedSelection) : Except AccessorError (List (Record X)) := do
  let live ← db.scanCurrent real bound planned.entity [] planned.selected planned.height
    (.tip planned.entity.name planned.height)
  match planned.height with
  | none => pure live
  | some height =>
    let delta ← db.scanDelta real bound planned.entity height planned.selected
    pure (live ++ delta)

/-- The scans of a `children`, in one transaction: the live rows of each parent in its turn, and
what was closed since for all of them. -/
def childrenRows (planned : PlannedChildren) : Except AccessorError (List Text → List (Record X)) := do
  let live ← planned.distinctParents.mapM fun key => do
    let rows ← db.scanCurrent real bound planned.entity key planned.selected planned.height
      (.children planned.entity.name planned.parent.name key)
    pure (key, rows)
  let delta ← match planned.height with
    | none => pure []
    | some height => db.scanDelta real bound planned.entity height planned.selected
  pure fun key => (live.lookup key).getD [] ++
    delta.filter fun row => parentKey planned.parent row = key.map some

/-- A `find`, once it may be answered. -/
def find (planned : PlannedSelection) : Except AccessorError (Listing X) := do
  let rows ← db.findRows real bound planned
  pageOf real planned.entity rows planned.orderBy planned.limit

/-- A `children`, once it may be answered: a page a parent, in the order given. -/
def children (planned : PlannedChildren) : Except AccessorError (List (Listing X)) :=
  if planned.parents = [] then .ok []
  else do
    let rows ← db.childrenRows real bound planned
    planned.parents.mapM fun key => pageOf real planned.entity (rows key) planned.orderBy planned.limit

end IndexedDB

/-- Refuse a height the retention does not cover; a read at the tip asks for none. -/
def assertHeight (retention : Retention) (height : Option ℤ) (tip : Option ℕ) : Except AccessorError Unit :=
  match height with
  | none => .ok ()
  | some height => (assertRetained retention height tip).mapError .retention

namespace IndexedDBStateStore

variable (d : AccessorDeclarations) (real : X → Option ℚ) (bound : ℕ) (t : IndexedDBStateStore X H C)

/-- **The rows of one entity that match**, in order, at most `limit`. -/
def find (query : FindQuery) : Except AccessorError (Listing X) := do
  let planned ← (planFind d query).mapError .plan
  assertHeight t.provided planned.height t.db.tip
  t.db.find real bound planned

/-- **The children of each of a page of parents**, at most `limit` of each. -/
def children (query : ChildrenQuery) : Except AccessorError (List (Listing X)) := do
  let planned ← (planChildren d query).mapError .plan
  assertHeight t.provided planned.height t.db.tip
  t.db.children real bound planned

end IndexedDBStateStore

end Etherfold
