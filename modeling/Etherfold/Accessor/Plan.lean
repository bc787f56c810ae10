import Mathlib.Data.Rat.Defs
import Etherfold.Store.Declaration
import Etherfold.Store.Reads

/-!
# The planner of the accessor

A query is checked and translated once, for every backend: fields are resolved against the
declaration, operands are put in the form the backend stores, and a comparison with null is
folded to one that matches nothing.

* `Where`, `Operand`: what a caller asks.
* `PlannedWhere`, `StoredOperand`: what a backend answers.
* `planFind`, `planChildren`: the planner.
-/

namespace Etherfold

/-- The storage class of a plain field. -/
inductive StorageClass where
  | text
  | integer
  | real
  | blob
  deriving DecidableEq, Repr

/-- The declarations as the accessor reads them: the entities, the storage class of a plain field
of one, and the relation a child declares. A number is spelled as the runtime spells it. -/
structure AccessorDeclarations where
  entities : List NormalizedEntity
  storage : String → String → StorageClass
  parent : String → Option EntityRelation
  spell : ℚ → Text

/-- A value a predicate compares a field with. A number that is not finite is among the others. -/
inductive Operand where
  | null
  | text (text : Text)
  | number (value : ℚ)
  | bigint (value : ℤ)
  | bytes (bytes : List UInt8)
  | other
  deriving DecidableEq, Repr

/-- An operand as the backend stores it. -/
inductive StoredOperand where
  | text (text : Text)
  | number (value : ℚ)
  | bytes (bytes : List UInt8)
  deriving DecidableEq, Repr

inductive ComparisonOperator where
  | eq
  | ne
  | lt
  | lte
  | gt
  | gte
  deriving DecidableEq, Repr

inductive OrderDirection where
  | asc
  | desc
  deriving DecidableEq, Repr

/-- A predicate: a comparison, or a combination of predicates. -/
inductive Where where
  | and (parts : List Where)
  | or (parts : List Where)
  | compare (field : String) (op : ComparisonOperator) (value : Operand)
  | isIn (field : String) (values : List Operand)
  | isNull (field : String) (value : Bool)

/-- A planned predicate. An `or` of nothing matches nothing, an `and` of nothing everything. -/
inductive PlannedWhere where
  | and (parts : List PlannedWhere)
  | or (parts : List PlannedWhere)
  | compare (column : String) (op : ComparisonOperator) (operand : StoredOperand)
  | isIn (column : String) (operands : List StoredOperand)
  | isNull (column : String) (isNull : Bool)

structure OrderBy where
  field : String
  direction : Option OrderDirection
  deriving DecidableEq, Repr

structure PlannedOrder where
  column : String
  direction : OrderDirection
  deriving DecidableEq, Repr

/-- What both reads have in common. -/
structure Selection where
  selected : Option Where
  orderBy : Option OrderBy
  limit : ℤ
  height : Option ℤ

structure FindQuery extends Selection where
  entity : String

structure ChildrenQuery extends Selection where
  entity : String
  relation : String
  parents : List EntityId

structure PlannedSelection where
  entity : NormalizedEntity
  selected : Option PlannedWhere
  orderBy : Option PlannedOrder
  limit : ℕ
  height : Option ℤ

/-- A planned `children`: the selection over the child, and the parents it is for. -/
structure PlannedChildren extends PlannedSelection where
  parent : NormalizedEntity
  relation : String
  parents : List (List Text)
  distinctParents : List (List Text)

/-- What a column is: an id column, or a declared field. -/
inductive ColumnKind where
  | id
  | field (declared : FieldDeclaration)
  deriving DecidableEq, Repr

/-- Why a query is refused before any backend runs it. -/
inductive PlanError where
  | entity (error : EntityError)
  | noRelation (parent relation : String) (declared : List (String × String))
  | invalidLimit (entity : String) (limit : ℤ)
  | invalidBlockNumber (requested : ℤ)
  | undeclaredColumn (entity column : String)
  | operandRefused (entity column : String) (operand : Operand) (holds : ColumnKind) (reason : Option SemanticError)
  deriving DecidableEq, Repr

variable (d : AccessorDeclarations)

def columnKind (entity : NormalizedEntity) (column : String) : Except PlanError ColumnKind :=
  if column ∈ entity.id then .ok .id
  else
    match entity.fields.lookup column with
    | some declared => .ok (.field declared)
    | none => .error (.undeclaredColumn entity.name column)

def planOrder (entity : NormalizedEntity) (orderBy : OrderBy) : Except PlanError PlannedOrder := do
  let _ ← columnKind entity orderBy.field
  pure ⟨orderBy.field, orderBy.direction.getD .asc⟩

/-- **An operand as the column stores it**, or a refusal. -/
def storedOperand (entity : NormalizedEntity) (column : String) (kind : ColumnKind) (value : Operand) :
    Except PlanError StoredOperand :=
  let refuse := fun reason => Except.error (PlanError.operandRefused entity.name column value kind reason)
  match kind with
  | .id =>
    match value with
    | .text text => .ok (.text text)
    | .number value => .ok (.text (d.spell value))
    | _ => refuse none
  | .field .u256 =>
    match value with
    | .bigint value =>
      match u256Encode (.bigint value : FieldValue Empty) with
      | .ok (.bytes bytes) => .ok (.bytes bytes)
      | .ok _ => refuse none
      | .error reason => refuse (some reason)
    | _ => refuse (some .notABigint)
  | .field (.enum _) =>
    match value with
    | .text text => .ok (.text text)
    | _ => refuse none
  | .field .storage =>
    match d.storage entity.name column, value with
    | .text, .text text => .ok (.text text)
    | .integer, .number value | .real, .number value => .ok (.number value)
    | .blob, .bytes bytes => .ok (.bytes bytes)
    | _, _ => refuse none

mutual

/-- **The planned predicate.** -/
def planWhere (entity : NormalizedEntity) : Where → Except PlanError PlannedWhere
  | .and parts => (planParts entity parts).map .and
  | .or parts => (planParts entity parts).map .or
  | .isNull field value => do
    let _ ← columnKind entity field
    pure (.isNull field value)
  | .isIn field values => do
    let kind ← columnKind entity field
    let operands ← (values.filter (· ≠ .null)).mapM (storedOperand d entity field kind)
    pure (if operands = [] then .or [] else .isIn field operands)
  | .compare field op value => do
    let kind ← columnKind entity field
    if value = .null then pure (.or [])
    else
      let operand ← storedOperand d entity field kind value
      pure (.compare field op operand)

def planParts (entity : NormalizedEntity) : List Where → Except PlanError (List PlannedWhere)
  | [] => .ok []
  | part :: parts => do
    let planned ← planWhere entity part
    let rest ← planParts entity parts
    pure (planned :: rest)

end

def planSelection (entity : NormalizedEntity) (query : Selection) : Except PlanError PlannedSelection :=
  if query.limit < 1 then .error (.invalidLimit entity.name query.limit)
  else
    match query.height.filter (· < 0) with
    | some requested => .error (.invalidBlockNumber requested)
    | none => do
      let selected ← query.selected.mapM (planWhere d entity)
      let orderBy ← query.orderBy.mapM (planOrder entity)
      pure ⟨entity, selected, orderBy, query.limit.toNat, query.height⟩

/-- **Check and plan a `find`.** -/
def planFind (query : FindQuery) : Except PlanError PlannedSelection := do
  let entity ← (mustGet d.entities query.entity).mapError .entity
  planSelection d entity query.toSelection

/-- **Check and plan a `children`.** The keys are the parent's declared id columns; a parent named
twice is read once. -/
def planChildren (query : ChildrenQuery) : Except PlanError PlannedChildren := do
  let parent ← (mustGet d.entities query.entity).mapError .entity
  let ofParent := d.entities.filter fun candidate => (d.parent candidate.name).any (·.entity = parent.name)
  match ofParent.find? fun candidate => (d.parent candidate.name).any (·.collection = query.relation) with
  | none => .error (.noRelation parent.name query.relation
      (ofParent.filterMap fun one => (d.parent one.name).map fun relation => (relation.collection, one.name)))
  | some child =>
    let parents ← (query.parents.mapM (idValues parent.name parent.id)).mapError .entity
    let selection ← planSelection d child query.toSelection
    pure { selection with
      parent := parent
      relation := query.relation
      parents := parents
      distinctParents := parents.reverse.dedup.reverse }

variable {d : AccessorDeclarations}

theorem height_planSelection {entity : NormalizedEntity} {query : Selection} {planned : PlannedSelection}
    (h : planSelection d entity query = .ok planned) : planned.height = query.height := by
  unfold planSelection at h
  split at h
  · cases h
  split at h
  · cases h
  obtain ⟨selected, -, h⟩ := bind_eq_ok.1 h
  obtain ⟨orderBy, -, h⟩ := bind_eq_ok.1 h
  cases h
  rfl

/-- A planned `find` is for the height asked for. -/
theorem height_planFind {query : FindQuery} {planned : PlannedSelection} (h : planFind d query = .ok planned) :
    planned.height = query.height := by
  obtain ⟨entity, -, h⟩ := bind_eq_ok.1 h
  exact height_planSelection h

/-- And so is a planned `children`. -/
theorem height_planChildren {query : ChildrenQuery} {planned : PlannedChildren} (h : planChildren d query = .ok planned) :
    planned.height = query.height := by
  obtain ⟨parent, -, h⟩ := bind_eq_ok.1 h
  dsimp only at h
  split at h
  · cases h
  obtain ⟨parents, -, h⟩ := bind_eq_ok.1 h
  obtain ⟨selection, hselection, h⟩ := bind_eq_ok.1 h
  cases h
  exact height_planSelection hselection

end Etherfold
