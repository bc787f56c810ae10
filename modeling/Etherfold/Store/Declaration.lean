import Etherfold.Indexed.Text

/-!
# Declarations

What an author declares is checked once, for every backend. A name is an ASCII letter and then
letters, digits and underscores; two names that differ only in case are one name; a child's id is
its parent's whole id and at least one column of its own.

* `normalizeEntities_fold`: **no two entities share a name**, in any case.
* `codeUnits_identifier`: the code units of a name are ASCII, and none of them is a NUL.
-/

namespace Etherfold

/-! ### Names -/

/-- What a name is for, where a refusal says so. -/
inductive Naming where
  | entity
  | idColumn (entity : String)
  | field (entity : String)
  | parent (entity : String)
  | collection (entity : String)
  deriving DecidableEq, Repr

/-- Why a declaration is refused, with the names its message carries. -/
inductive DeclarationError where
  | reserved (what : Naming) (name : String)
  | invalid (what : Naming) (name : String)
  | noIdColumn (entity : String)
  | idAndField (entity field : String)
  | unknownType (entity field : String) (type : Option String)
  | unknownShape (entity field : String)
  | enumStorage (entity field storage : String)
  | enumEmpty (entity field : String)
  | enumValue (entity field value : String)
  | enumTwice (entity field value : String)
  | unknownSemanticType (entity field type : String)
  | semanticStorage (entity field type storage : String)
  | columnTwice (entity column : String)
  | columnsInCase (entity declared clashing : String)
  | collectionTaken (entity parent collection : String)
  | declaredTwice (entity : String)
  | namesInCase (declared clashing : String)
  | unknownParent (child parent : String) (declared : List String)
  | notLeading (child : String) (id : List String) (parent : String) (parentId : List String)
  | noOwnColumn (child parent : String) (parentId : List String)
  | collectionColumn (child parent collection clash : String)
  | collectionTwice (sibling child parent collection : String)
  deriving DecidableEq, Repr

def isReserved (name : String) : Bool := name.toList.head? = some '_'

/-- The names a declaration may use. The letters and digits are those of ASCII. -/
def isIdentifier (name : String) : Bool :=
  match name.toList with
  | [] => false
  | first :: rest => first.isAlpha && rest.all fun c => c.isAlphanum || c = '_'

/-- The form two names are compared in. -/
def fold (name : String) : List Char := name.toList.map Char.toLower

def assertIdentifier (what : Naming) (name : String) : Except DeclarationError Unit :=
  if isReserved name then .error (.reserved what name)
  else if isIdentifier name then .ok ()
  else .error (.invalid what name)

/-! ### One declaration -/

/-- A field as it is declared: a storage class, a set of texts, a semantic type beside a storage
class, or an object of another shape. -/
inductive DeclaredField where
  | storage (type : String)
  | enum (storage : String) (values : List String)
  | semantic (storage type : String)
  | notDeclared
  | otherShape
  deriving DecidableEq, Repr

/-- What a child declares of its parent: the entity, and the name of the collection there. -/
structure EntityRelation where
  entity : String
  collection : String
  deriving DecidableEq, Repr

/-- What an author writes. A single id column is a list of one, and the members of `fields` are
in the order of the object's. -/
structure EntityDeclaration where
  name : String
  id : List String
  fields : List (String × DeclaredField)
  parent : Option EntityRelation
  deriving DecidableEq, Repr

/-- A declaration after validation, with the relation beside the columns. -/
structure DeclaredEntity extends NormalizedEntity where
  parent : Option EntityRelation
  identifiers : ∀ declared ∈ name :: (id ++ fields.map (·.1)), isIdentifier declared = true

def fieldTypes : List String := ["text", "integer", "real", "blob"]

/-- A legal value of an enum: a name, but for three words and the introspection namespace. -/
def isEnumValue (value : String) : Bool :=
  match value.toList with
  | [] => false
  | first :: rest =>
    (first.isAlpha || first = '_') && rest.all (fun c => c.isAlphanum || c = '_') &&
      !(["true", "false", "null"].contains value) && !(first = '_' && rest.head? = some '_')

/-- The values of an enum, each legal and each once. -/
def assertValues (name field : String) : List String → List String → Except DeclarationError Unit
  | _, [] => .ok ()
  | seen, value :: rest =>
    if isEnumValue value = false then .error (.enumValue name field value)
    else if value ∈ seen then .error (.enumTwice name field value)
    else assertValues name field (seen ++ [value]) rest

/-- One field's declaration. The registry of semantic types holds `u256`, stored in a blob. -/
def fieldOf (name field : String) : DeclaredField → Except DeclarationError FieldDeclaration
  | .storage type => if type ∈ fieldTypes then .ok .storage else .error (.unknownType name field (some type))
  | .enum storage values =>
    if storage ≠ "text" then .error (.enumStorage name field storage)
    else if values = [] then .error (.enumEmpty name field)
    else (assertValues name field [] values).map fun _ => .enum (values.map codeUnits)
  | .semantic storage type =>
    if type ≠ "u256" then .error (.unknownSemanticType name field type)
    else if storage ≠ "blob" then .error (.semanticStorage name field type storage)
    else .ok .u256
  | .notDeclared => .error (.unknownType name field none)
  | .otherShape => .error (.unknownShape name field)

def declaredField (name : String) (id : List String) (field : String × DeclaredField) :
    Except DeclarationError (String × FieldDeclaration) := do
  assertIdentifier (.field name) field.1
  if field.1 ∈ id then .error (.idAndField name field.1)
  else (fieldOf name field.1 field.2).map fun declared => (field.1, declared)

/-- The columns of one row, no two of them one name. -/
def assertColumns (name : String) : List String → List String → Except DeclarationError Unit
  | _, [] => .ok ()
  | columns, column :: rest =>
    match columns.find? fun declared => fold declared = fold column with
    | some declared =>
      if declared = column then .error (.columnTwice name column)
      else .error (.columnsInCase name declared column)
    | none => assertColumns name (columns ++ [column]) rest

/-- The names every entity's read surface has. -/
def readSurfaceNames : List String :=
  ["getCurrent", "getAsOf", "listCurrent", "listAsOf", "queryCurrent", "queryAsOf"]

def relationOf (name : String) : Option EntityRelation → Except DeclarationError Unit
  | none => .ok ()
  | some parent => do
    assertIdentifier (.parent name) parent.entity
    assertIdentifier (.collection name) parent.collection
    if readSurfaceNames.any fun read => fold read = fold parent.collection then
      .error (.collectionTaken name parent.entity parent.collection)
    else .ok ()

/-- The fields of a declaration that passes every check of its own. -/
def checkedFields (declaration : EntityDeclaration) : Except DeclarationError (List (String × FieldDeclaration)) := do
  assertIdentifier .entity declaration.name
  if declaration.id = [] then .error (.noIdColumn declaration.name)
  else
    declaration.id.forM (assertIdentifier (.idColumn declaration.name))
    let fields ← declaration.fields.mapM (declaredField declaration.name declaration.id)
    assertColumns declaration.name [] (declaration.id ++ fields.map (·.1))
    relationOf declaration.name declaration.parent
    return fields

theorem assertIdentifier_ok {what : Naming} {name : String} (h : assertIdentifier what name = .ok ()) :
    isIdentifier name = true := by
  unfold assertIdentifier at h
  split at h
  · cases h
  split at h
  · assumption
  · cases h

theorem isReserved_identifier {name : String} (h : isIdentifier name = true) : isReserved name = false := by
  unfold isIdentifier at h
  unfold isReserved
  cases hname : name.toList with
  | nil => simp
  | cons first rest =>
    rw [hname] at h
    dsimp only at h
    rw [Bool.and_eq_true] at h
    have hfirst : first ≠ '_' := by
      intro heq
      rw [heq] at h
      exact absurd h.1 (by decide)
    simp [hfirst]

theorem forM_ok {α ε : Type} {f : α → Except ε Unit} {l : List α} (h : l.forM f = .ok ⟨⟩) :
    ∀ a ∈ l, f a = .ok () := by
  induction l with
  | nil => simp
  | cons first l ih =>
    obtain ⟨⟨⟩, hfirst, hrest⟩ := bind_eq_ok.1 (show (f first >>= fun _ => l.forM f) = .ok ⟨⟩ from h)
    intro a ha
    rcases List.mem_cons.1 ha with rfl | ha
    · exact hfirst
    · exact ih hrest a ha

theorem declaredField_ok {name : String} {id : List String} {field : String × DeclaredField}
    {declared : String × FieldDeclaration} (h : declaredField name id field = .ok declared) :
    isIdentifier declared.1 = true ∧ fieldOf name field.1 field.2 = .ok declared.2 ∧ declared.1 = field.1 := by
  unfold declaredField at h
  obtain ⟨⟨⟩, hname, h⟩ := bind_eq_ok.1 h
  split at h
  · cases h
  cases hfield : fieldOf name field.1 field.2 with
  | error e => rw [hfield] at h; cases h
  | ok type =>
    rw [hfield] at h
    cases h
    exact ⟨assertIdentifier_ok hname, rfl, rfl⟩

/-- Columns are accepted exactly when no two of them fold to one form. -/
theorem assertColumns_ok {name : String} {columns rest : List String} (hnodup : (columns.map fold).Nodup) :
    assertColumns name columns rest = .ok () ↔ ((columns ++ rest).map fold).Nodup := by
  induction rest generalizing columns with
  | nil => simpa [assertColumns] using hnodup
  | cons column rest ih =>
    have hsplit : columns ++ column :: rest = columns ++ [column] ++ rest := by simp
    unfold assertColumns
    cases hfind : columns.find? fun declared => fold declared = fold column with
    | some declared =>
      have hmem : fold column ∈ columns.map fold := by
        have hfold : fold declared = fold column := by simpa using List.find?_some hfind
        exact hfold ▸ List.mem_map_of_mem (List.mem_of_find?_eq_some hfind)
      have hno : ¬((columns ++ column :: rest).map fold).Nodup := by
        intro h
        rw [List.map_append, List.nodup_append] at h
        exact h.2.2 _ hmem _ (by simp) rfl
      dsimp only
      split
      · exact iff_of_false (by simp) hno
      · exact iff_of_false (by simp) hno
    | none =>
      have hnot : fold column ∉ columns.map fold := by
        intro h
        obtain ⟨declared, hdeclared, hfold⟩ := List.mem_map.1 h
        have := List.find?_eq_none.1 hfind declared hdeclared
        simp [hfold] at this
      have hnext : ((columns ++ [column]).map fold).Nodup := by
        rw [List.map_append, List.nodup_append]
        refine ⟨hnodup, by simp, ?_⟩
        intro a ha b hb heq
        obtain rfl : b = fold column := by simpa using hb
        exact hnot (heq ▸ ha)
      dsimp only
      rw [ih hnext, hsplit]

/-- What the checks of one declaration establish. -/
theorem checkedFields_ok {declaration : EntityDeclaration} {fields : List (String × FieldDeclaration)}
    (h : checkedFields declaration = .ok fields) :
    declaration.id ≠ [] ∧ ((declaration.id ++ fields.map (·.1)).map fold).Nodup ∧
      ∀ declared ∈ declaration.name :: (declaration.id ++ fields.map (·.1)), isIdentifier declared = true := by
  unfold checkedFields at h
  obtain ⟨⟨⟩, hname, h⟩ := bind_eq_ok.1 h
  split at h
  · cases h
  rename_i hid
  obtain ⟨⟨⟩, hcolumns, h⟩ := bind_eq_ok.1 h
  obtain ⟨fields', hfields, h⟩ := bind_eq_ok.1 h
  obtain ⟨⟨⟩, hfold, h⟩ := bind_eq_ok.1 h
  obtain ⟨⟨⟩, -, h⟩ := bind_eq_ok.1 h
  cases h
  refine ⟨hid, by simpa using (assertColumns_ok (by simp)).1 hfold, ?_⟩
  intro declared hdeclared
  rcases List.mem_cons.1 hdeclared with rfl | hdeclared
  · exact assertIdentifier_ok hname
  rcases List.mem_append.1 hdeclared with hdeclared | hdeclared
  · exact assertIdentifier_ok (forM_ok hcolumns _ hdeclared)
  · obtain ⟨field, hfield, rfl⟩ := List.mem_map.1 hdeclared
    obtain ⟨source, -, hsource⟩ := mem_of_mapM_ok hfields hfield
    exact (declaredField_ok hsource).1

/-- **A declaration, validated.** Its columns are known to be names, and no two of them one. -/
def normalizeEntity (declaration : EntityDeclaration) : Except DeclarationError DeclaredEntity :=
  match h : checkedFields declaration with
  | .error e => .error e
  | .ok fields => .ok {
      name := declaration.name
      id := declaration.id
      fields := fields
      parent := declaration.parent
      id_ne := (checkedFields_ok h).1
      columns_nodup := (checkedFields_ok h).2.1.of_map _
      unreserved := fun column hcolumn =>
        of_decide_eq_false (isReserved_identifier ((checkedFields_ok h).2.2 column (List.mem_cons_of_mem _ hcolumn)))
      identifiers := (checkedFields_ok h).2.2 }

/-! ### A set of declarations -/

/-- The declarations one after the other, with those before them. -/
def normalizeFrom : List DeclaredEntity → List EntityDeclaration → Except DeclarationError (List DeclaredEntity)
  | entities, [] => .ok entities
  | entities, declaration :: rest => do
    let entity ← normalizeEntity declaration
    if entities.any fun declared => declared.name = entity.name then .error (.declaredTwice entity.name)
    else
      match entities.find? fun declared => fold declared.name = fold entity.name with
      | some declared => .error (.namesInCase declared.name entity.name)
      | none => normalizeFrom (entities ++ [entity]) rest

/-- A collection already named: its parent, the name, folded, and the child that named it. -/
structure NamedCollection where
  parent : String
  collection : List Char
  child : String

/-- One relation against the ids of both declarations it joins. -/
def assertRelation (entities : List DeclaredEntity) (named : List NamedCollection) (child : DeclaredEntity) :
    Except DeclarationError (List NamedCollection) :=
  match child.parent with
  | none => .ok named
  | some relation =>
    match entities.find? (·.name = relation.entity) with
    | none => .error (.unknownParent child.name relation.entity (entities.map (·.name)))
    | some parent =>
      if child.id.take parent.id.length ≠ parent.id then .error (.notLeading child.name child.id parent.name parent.id)
      else if child.id.length = parent.id.length then .error (.noOwnColumn child.name parent.name parent.id)
      else
        match (parent.id ++ parent.fields.map (·.1)).find? fun column => fold column = fold relation.collection with
        | some clash => .error (.collectionColumn child.name parent.name relation.collection clash)
        | none =>
          match named.find? fun other => other.parent = parent.name ∧ other.collection = fold relation.collection with
          | some sibling => .error (.collectionTwice sibling.child child.name parent.name relation.collection)
          | none => .ok (named ++ [⟨parent.name, fold relation.collection, child.name⟩])

def assertRelations (entities : List DeclaredEntity) : Except DeclarationError Unit :=
  (entities.foldlM (assertRelation entities) []).map fun _ => ()

/-- **The declarations of one store.** -/
def normalizeEntities (declarations : List EntityDeclaration) : Except DeclarationError (List DeclaredEntity) := do
  let entities ← normalizeFrom [] declarations
  assertRelations entities
  return entities

theorem normalizeFrom_fold {declarations : List EntityDeclaration} {before entities : List DeclaredEntity}
    (hbefore : (before.map fun e => fold e.name).Nodup) (h : normalizeFrom before declarations = .ok entities) :
    (entities.map fun e => fold e.name).Nodup := by
  induction declarations generalizing before with
  | nil =>
    cases h
    exact hbefore
  | cons declaration rest ih =>
    unfold normalizeFrom at h
    obtain ⟨entity, -, h⟩ := bind_eq_ok.1 h
    split at h
    · cases h
    split at h
    · cases h
    · rename_i hfind
      apply ih _ h
      rw [List.map_append, List.nodup_append]
      refine ⟨hbefore, by simp, ?_⟩
      intro a ha b hb heq
      obtain ⟨declared, hdeclared, rfl⟩ := List.mem_map.1 ha
      obtain rfl : b = fold entity.name := by simpa using hb
      have := List.find?_eq_none.1 hfind declared hdeclared
      simp [heq] at this

/-- **No two entities share a name**, in any case. -/
theorem normalizeEntities_fold {declarations : List EntityDeclaration} {entities : List DeclaredEntity}
    (h : normalizeEntities declarations = .ok entities) : (entities.map fun e => fold e.name).Nodup := by
  unfold normalizeEntities at h
  obtain ⟨entities', hfrom, h⟩ := bind_eq_ok.1 h
  obtain ⟨⟨⟩, -, h⟩ := bind_eq_ok.1 h
  cases h
  exact normalizeFrom_fold (by simp) hfrom

/-- An entity is known by its name. -/
theorem eq_of_name {declarations : List EntityDeclaration} {entities : List DeclaredEntity}
    (h : normalizeEntities declarations = .ok entities) {entity entity' : DeclaredEntity} (hmem : entity ∈ entities)
    (hmem' : entity' ∈ entities) (hname : entity.name = entity'.name) : entity = entity' :=
  List.inj_on_of_nodup_map (normalizeEntities_fold h) hmem hmem' (congrArg fold hname)

/-! ### The code units of a name -/

theorem toNat_alphanum {c : Char} (h : (c.isAlphanum || c = '_') = true) : 0 < c.toNat ∧ c.toNat < 128 := by
  have hchar : c.val.toNat = c.toNat := rfl
  have halphanum : c.isAlphanum = ((decide (65 ≤ c.val ∧ c.val ≤ 90) ||
      decide (97 ≤ c.val) && decide (c.val ≤ 122)) || decide (48 ≤ c.val) && decide (c.val ≤ 57)) := rfl
  simp only [halphanum, Bool.or_eq_true, Bool.and_eq_true, decide_eq_true_eq, UInt32.le_iff_toNat_le] at h
  rcases h with ((h | h) | h) | rfl
  · exact ⟨by have := h.1; simp at this; omega, by have := h.2; simp at this; omega⟩
  · exact ⟨by have := h.1; simp at this; omega, by have := h.2; simp at this; omega⟩
  · exact ⟨by have := h.1; simp at this; omega, by have := h.2; simp at this; omega⟩
  · decide

/-- **The code units of a name are ASCII, and none of them is a NUL.** -/
theorem codeUnits_identifier {name : String} (h : isIdentifier name = true) :
    ∀ unit ∈ codeUnits name, 0 < unit.toNat ∧ unit.toNat < 128 := by
  have hchars : ∀ c ∈ name.toList, 0 < c.toNat ∧ c.toNat < 128 := by
    unfold isIdentifier at h
    cases hname : name.toList with
    | nil => simp
    | cons first rest =>
      rw [hname] at h
      dsimp only at h
      rw [Bool.and_eq_true, List.all_eq_true] at h
      intro c hc
      rcases List.mem_cons.1 hc with rfl | hc
      · exact toNat_alphanum (by simp [Char.isAlphanum, h.1])
      · exact toNat_alphanum (h.2 c hc)
  intro unit hunit
  obtain ⟨c, hc, hunit⟩ := List.mem_flatMap.1 hunit
  obtain ⟨hpos, hlt⟩ := hchars c hc
  unfold utf16 at hunit
  dsimp only at hunit
  rw [if_pos (by omega), List.mem_singleton] at hunit
  rw [hunit, toNat_unit (by omega)]
  exact ⟨hpos, hlt⟩

end Etherfold
