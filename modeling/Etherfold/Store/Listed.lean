import Etherfold.Store.Image
import Etherfold.Store.Staging

/-!
# Reading back what was listed

A handler hands over plain objects: an id with its columns, and the fields it lists. The store
looks the declared names up in them, and a name the object does not carry is looked up in the
object every object inherits from. Seven names a declaration may use are found there.

* `written_eq_listed_iff`: **when an upsert stores what was listed**.
* `image_seen`: over a run of such calls the store holds the listed rows.
* `reads_back_iff`: every read, of the store and of its read surface.
-/

namespace Etherfold

open Versions

variable {X H C : Type}

/-! ### Plain objects -/

/-- The own members of a plain object; `none` is a member that is undefined. -/
abbrev JsObject (X : Type) := List (String × Option (FieldValue X))

/-- What every object inherits under a name that may be declared. The others begin with an
underscore, and no declared name does. -/
def inheritedMembers : List String :=
  ["constructor", "hasOwnProperty", "isPrototypeOf", "propertyIsEnumerable", "toLocaleString", "toString", "valueOf"]

namespace JsObject

/-- The object by its own members. Undefined and null are one to every reader here. -/
def own (object : JsObject X) : Record X := object.map fun member => (member.1, member.2.getD .null)

/-- The object as `object[name]` finds its members: an own one first, then an inherited one. -/
def members (inherited : String → X) (object : JsObject X) : Record X :=
  object.own ++ inheritedMembers.map fun name => (name, .other (inherited name))

/-- Every one of these names that every object inherits is a member of the object's own. -/
def Carries (object : JsObject X) (names : List String) : Prop :=
  ∀ name ∈ names, name ∈ inheritedMembers → name ∈ object.map (·.1)

theorem lookup_own_eq_none {object : JsObject X} {name : String} :
    object.own.lookup name = none ↔ name ∉ object.map (·.1) := by
  rw [List.lookup_eq_none_iff]
  unfold own
  simp only [List.mem_map, bne_iff_ne]
  constructor
  · rintro h ⟨member, hmember, rfl⟩
    exact h (member.1, member.2.getD .null) ⟨member, hmember, rfl⟩ rfl
  · rintro h p ⟨member, hmember, rfl⟩ rfl
    exact h ⟨member, hmember, rfl⟩

theorem field_own_of_notMem {object : JsObject X} {name : String} (h : name ∉ object.map (·.1)) :
    object.own.field name = .null := by
  unfold Record.field
  rw [lookup_own_eq_none.2 h]
  rfl

theorem field_members_of_mem (inherited : String → X) {object : JsObject X} {name : String}
    (h : name ∈ object.map (·.1)) : (object.members inherited).field name = object.own.field name := by
  unfold Record.field members
  rw [List.lookup_append]
  cases hown : object.own.lookup name with
  | none => exact absurd h (lookup_own_eq_none.1 hown)
  | some value => rfl

/-- **A name the object does not carry is found where every object inherits from.** -/
theorem field_members_inherited {inherited : String → X} {object : JsObject X} {name : String}
    (h : name ∉ object.map (·.1)) (hname : name ∈ inheritedMembers) :
    (object.members inherited).field name = .other (inherited name) := by
  have hlookup : ∀ names : List String, name ∈ names →
      (names.map fun n => (n, (.other (inherited n) : FieldValue X))).lookup name = some (.other (inherited name)) := by
    intro names hmem
    induction names with
    | nil => simp at hmem
    | cons first names ih =>
      rw [List.map_cons, List.lookup_cons]
      by_cases heq : name = first
      · simp [heq]
      · rw [beq_false_of_ne heq]
        exact ih ((List.mem_cons.1 hmem).resolve_left heq)
  unfold Record.field members
  rw [List.lookup_append, lookup_own_eq_none.2 h, Option.none_or, hlookup _ hname]
  rfl

theorem field_members_of_notMem {inherited : String → X} {object : JsObject X} {name : String}
    (hname : name ∉ inheritedMembers) : (object.members inherited).field name = object.own.field name := by
  unfold Record.field members
  have hnone : (inheritedMembers.map fun n => (n, (.other (inherited n) : FieldValue X))).lookup name = none := by
    rw [List.lookup_eq_none_iff]
    simp only [List.mem_map, bne_iff_ne]
    rintro p ⟨n, hn, rfl⟩ rfl
    exact hname hn
  rw [List.lookup_append, hnone, Option.or_none]

/-- An object that carries the names reads them as its own members say. -/
theorem Carries.field {object : JsObject X} {names : List String} (h : object.Carries names) (inherited : String → X)
    {name : String} (hname : name ∈ names) :
    (object.members inherited).field name = object.own.field name := by
  by_cases hmem : name ∈ inheritedMembers
  · exact field_members_of_mem inherited (h name hname hmem)
  · exact field_members_of_notMem hmem

end JsObject

/-! ### Ids -/

/-- The text of an id column, `String` of its value. One that is null has none. -/
def columnText (string : FieldValue X → Text) (id : Record X) (column : String) : Option Text :=
  match id.field column with
  | .null => none
  | value => some (string value)

/-- The text a key takes; one with a NUL in it is none. -/
def idText (string : FieldValue X → Text) (id : Record X) (column : String) : Option Text :=
  (columnText string id column).filter fun text => 0 ∉ text

/-- The columns of an id object, each with its text, as the store's functions look them up. -/
def spellId (string : FieldValue X → Text) (columns : List String) (id : Record X) : EntityId :=
  columns.filterMap fun column => (columnText string id column).map fun text => (column, text)

theorem lookup_spellId (string : FieldValue X → Text) (id : Record X) {columns : List String} {column : String} :
    (spellId string columns id).lookup column = if column ∈ columns then columnText string id column else none := by
  unfold spellId
  induction columns with
  | nil => rfl
  | cons first columns ih =>
    by_cases heq : column = first
    · subst heq
      cases htext : columnText string id column with
      | none =>
        have hnone : (if column ∈ columns then columnText string id column else none) = none := by
          rw [htext, ite_self]
        simp [htext, ih]
      | some text => simp [htext]
    · have hmem : column ∈ first :: columns ↔ column ∈ columns := by simp [heq]
      simp only [hmem]
      rw [← ih]
      cases htext : columnText string id first with
      | none => simp [htext]
      | some text => simp [htext, List.lookup_cons, beq_false_of_ne heq]

theorem idValue_spellId {string : FieldValue X → Text} {id : Record X} {entity : String} {columns : List String}
    {column : String} (h : column ∈ columns) {text : Text} :
    idValue entity (spellId string columns id) column = .ok text ↔ idText string id column = some text := by
  unfold idValue idText
  rw [lookup_spellId, if_pos h]
  cases columnText string id column with
  | none => simp
  | some text =>
    dsimp only
    rw [Option.filter_some]
    by_cases hnul : 0 ∈ text
    · simp [hnul]
    · simp [hnul]

/-- **The key of an id object**, column by column. -/
theorem idValues_spellId {string : FieldValue X → Text} {id : Record X} {entity : String} {columns : List String}
    {ids : List Text} : idValues entity columns (spellId string columns id) = .ok ids ↔
      columns.mapM (idText string id) = some ids := by
  unfold idValues
  rw [mapM_eq_ok, mapM_eq_some_iff, List.forall₂_iff_zip, List.forall₂_iff_zip]
  refine and_congr_right fun _ => ⟨fun h column text hzip => ?_, fun h column text hzip => ?_⟩
  · exact (idValue_spellId (List.of_mem_zip hzip).1).1 (h hzip)
  · exact (idValue_spellId (List.of_mem_zip hzip).1).2 (h hzip)

/-! ### Rows -/

/-- One row as its declaration describes it: the id columns, then every declared field. -/
def declaredRow (entity : NormalizedEntity) (raw : Record X) : Record X :=
  (entity.id ++ entity.fields.map (·.1)).map fun column => (column, raw.field column)

/-- What a version of a key reads as: decoded, then described by the declaration. -/
def readRow (declarations : List NormalizedEntity) (key : EntityKey) (stored : Record X) : Record X :=
  match mustGet declarations key.entity with
  | .error _ => []
  | .ok entity =>
    match decodeFieldValues entity stored with
    | .error _ => []
    | .ok row => declaredRow entity row

/-- The values a declaration admits. Null is admitted by each. -/
def FieldDeclaration.admits : FieldDeclaration → FieldValue X → Bool
  | .storage, _ => true
  | _, .null => true
  | .enum allowed, .text text => text ∈ allowed
  | .u256, .bigint value => 0 ≤ value && value ≤ 2 ^ 256 - 1
  | _, _ => false

theorem field_of_mem {row extra : Record X} (hnodup : (row.map (·.1)).Nodup) {column : String × FieldValue X}
    (h : column ∈ row) : Record.field (row ++ extra) column.1 = column.2 := by
  obtain ⟨before, behind, rfl⟩ := List.append_of_mem h
  have hapart : ∀ p ∈ before, (column.1 != p.1) = true := by
    intro p hp
    rw [List.map_append, List.nodup_append] at hnodup
    rw [bne_iff_ne]
    exact fun heq => hnodup.2.2 p.1 (List.mem_map_of_mem hp) column.1 (by simp) heq.symm
  have hlookup : (before ++ column :: behind ++ extra).lookup column.1 = some column.2 :=
    List.lookup_eq_some_iff.2 ⟨before, behind ++ extra, by simp, hapart⟩
  unfold Record.field
  rw [hlookup]
  rfl

theorem names_stagedRow {entity : NormalizedEntity} {ids : List Text} (hlen : ids.length = entity.id.length)
    (values : Record X) : (stagedRow entity ids values).map (·.1) = entity.id ++ entity.fields.map (·.1) := by
  have hids : (idColumns (X := X) entity ids).map (·.1) = entity.id := by
    unfold idColumns
    exact List.map_fst_zip (by simp [hlen])
  unfold stagedRow
  rw [List.map_append, hids, List.map_map]
  rfl

/-- **A complete row is its own description**, whatever columns stand behind it. -/
theorem declaredRow_stagedRow {entity : NormalizedEntity} {ids : List Text} (hlen : ids.length = entity.id.length)
    (values extra : Record X) : declaredRow entity (stagedRow entity ids values ++ extra) = stagedRow entity ids values := by
  have hnames := names_stagedRow hlen values
  have hnodup : ((stagedRow entity ids values).map (·.1)).Nodup := by
    rw [hnames]
    exact entity.columns_nodup
  unfold declaredRow
  rw [← hnames, List.map_map]
  conv_rhs => rw [← List.map_id (stagedRow entity ids values)]
  apply List.map_congr_left
  intro column hcolumn
  exact Prod.ext rfl (field_of_mem hnodup hcolumn)

theorem admits_of_assertEnum (entity : String) (values : Record X) (field : String × FieldDeclaration) :
    (∃ stored, assertEnum entity values field = .ok () ∧ encodeField entity values field = .ok stored) ↔
      field.2.admits (values.field field.1) = true := by
  obtain ⟨name, declared⟩ := field
  unfold assertEnum encodeField FieldDeclaration.admits
  dsimp only
  cases declared with
  | storage => simp
  | enum allowed =>
    dsimp only
    cases values.field name with
    | text text =>
      by_cases hmem : text ∈ allowed
      · simp [hmem]
      · simp [hmem]
    | _ => simp
  | u256 =>
    dsimp only
    cases values.field name with
    | bigint value =>
      unfold u256Encode
      dsimp only
      by_cases hneg : value < 0
      · simp [hneg]
      have hpos : 0 ≤ value := by omega
      by_cases hwide : 2 ^ 256 - 1 < value
      · have hno : ¬value ≤ 2 ^ 256 - 1 := by omega
        rw [if_neg hneg, if_pos hwide, decide_eq_false hno, Bool.and_false]
        simp
      · have hfits : value ≤ 2 ^ 256 - 1 := by omega
        rw [if_neg hneg, if_neg hwide, decide_eq_true hpos, decide_eq_true hfits]
        simp
    | null => simp
    | _ => simp [u256Encode]

/-- **The fields are stored** exactly when each is admitted by its declaration. -/
theorem encodeFieldValues_isOk {entity : NormalizedEntity} {values : Record X} :
    (∃ stored, encodeFieldValues entity values = .ok stored) ↔
      entity.fields.all (fun field => field.2.admits (values.field field.1)) = true := by
  have hfields : ∀ fields : List (String × FieldDeclaration),
      ((fields.forM (assertEnum entity.name values) = .ok ⟨⟩) ∧
        ∃ stored, fields.mapM (encodeField entity.name values) = .ok stored) ↔
      fields.all (fun field => field.2.admits (values.field field.1)) = true := by
    intro fields
    induction fields with
    | nil => simp [pure, Except.pure]
    | cons field fields ih =>
      have hfield := admits_of_assertEnum entity.name values field
      have hforM : (field :: fields).forM (assertEnum entity.name values) =
          (assertEnum entity.name values field >>= fun _ => fields.forM (assertEnum entity.name values)) := rfl
      rw [List.all_cons, Bool.and_eq_true, ← ih, ← hfield, hforM, List.mapM_cons]
      simp only [bind_eq_ok]
      constructor
      · rintro ⟨⟨⟨⟩, hcheck, hrest⟩, stored, first, hfirst, tail, htail, -⟩
        exact ⟨⟨first, hcheck, hfirst⟩, hrest, tail, htail⟩
      · rintro ⟨⟨first, hcheck, hfirst⟩, hrest, tail, htail⟩
        exact ⟨⟨⟨⟩, hcheck, hrest⟩, first :: tail, first, hfirst, tail, htail, rfl⟩
  rw [← hfields]
  unfold encodeFieldValues
  simp only [bind_eq_ok]
  constructor
  · rintro ⟨stored, ⟨⟩, hcheck, hstored⟩
    exact ⟨hcheck, stored, hstored⟩
  · rintro ⟨hcheck, stored, hstored⟩
    exact ⟨stored, ⟨⟩, hcheck, hstored⟩

theorem readRow_storedRow {declarations : List NormalizedEntity} {entity : NormalizedEntity} {ids : List Text}
    {values stored : Record X} (hget : mustGet declarations entity.name = .ok entity)
    (hlen : ids.length = entity.id.length) (hencode : encodeFieldValues entity values = .ok stored) :
    readRow declarations ⟨entity.name, ids⟩ (storedRow entity ids stored) = stagedRow entity ids values := by
  have hdecode := @decode_encode X entity values stored [] ids hencode (by simp)
  have hdeclared := declaredRow_stagedRow hlen values []
  rw [List.append_nil, List.append_nil] at hdecode
  rw [List.append_nil] at hdeclared
  unfold readRow
  dsimp only
  rw [hget]
  dsimp only
  rw [hdecode]
  exact hdeclared

/-! ### Mutations -/

/-- A mutation with the objects a handler hands over. -/
inductive ObjectMutation (X : Type) where
  | upsert (entity : String) (id values : JsObject X)
  | delete (entity : String) (id : JsObject X)
  deriving DecidableEq, Repr

def idColumnsOf (declarations : List NormalizedEntity) (entity : String) : List String :=
  match mustGet declarations entity with
  | .ok declaration => declaration.id
  | .error _ => []

/-- An id the store refuses: a column its lookup finds nothing for, or a text with a NUL in it. -/
def Unreadable (inherited : String → X) (string : FieldValue X → Text) (entity : NormalizedEntity) (id : JsObject X) :
    Prop :=
  ∃ column ∈ entity.id, idText string (id.members inherited) column = none

/-- A value a declared field does not admit. -/
def Inadmissible (entity : NormalizedEntity) (values : Record X) : Prop :=
  ∃ field ∈ entity.fields, field.2.admits (values.field field.1) = false

namespace ObjectMutation

/-- The mutation as the store looks the declared names up in it. -/
def seen (inherited : String → X) (string : FieldValue X → Text) (declarations : List NormalizedEntity) :
    ObjectMutation X → EntityMutation X
  | .upsert entity id values => .upsert entity
      (spellId string (idColumnsOf declarations entity) (id.members inherited)) (values.members inherited)
  | .delete entity id => .delete entity (spellId string (idColumnsOf declarations entity) (id.members inherited))

/-- What a mutation writes, its row as it will be read; none when it is refused. -/
def written (inherited : String → X) (string : FieldValue X → Text) (declarations : List NormalizedEntity)
    (mutation : ObjectMutation X) : Option (Mutation EntityKey (Record X)) :=
  (plan declarations (mutation.seen inherited string declarations)).toOption.map
    (Mutation.image (readRow declarations))

/-- What a mutation asks for when its objects are read by `look`: a text an id column, and for an
upsert the value of every declared field, each one its declaration admits. -/
def asked (string : FieldValue X → Text) (declarations : List NormalizedEntity) (look : JsObject X → Record X) :
    ObjectMutation X → Option (Mutation EntityKey (Record X))
  | .upsert entity id values => do
    let declaration ← (mustGet declarations entity).toOption
    let ids ← declaration.id.mapM (idText string (look id))
    if declaration.fields.all fun field => field.2.admits ((look values).field field.1) then
      some (.upsert ⟨entity, ids⟩ (stagedRow declaration ids (look values)))
    else none
  | .delete entity id => do
    let declaration ← (mustGet declarations entity).toOption
    let ids ← declaration.id.mapM (idText string (look id))
    some (.delete ⟨entity, ids⟩)

/-- What a mutation lists: its objects read by their own members. -/
def listed (string : FieldValue X → Text) (declarations : List NormalizedEntity) (mutation : ObjectMutation X) :
    Option (Mutation EntityKey (Record X)) :=
  mutation.asked string declarations JsObject.own

/-- When no inherited member decides what becomes of a mutation: the store refuses its id; or
its objects carry the inherited names that are declared, the values unless one they list is not
admitted; or its id does not and a value the store finds is not admitted. -/
def Plain (inherited : String → X) (string : FieldValue X → Text) (declarations : List NormalizedEntity) :
    ObjectMutation X → Prop
  | .upsert entity id values => ∀ declaration, mustGet declarations entity = .ok declaration →
      Unreadable inherited string declaration id ∨
      (id.Carries declaration.id ∧ (values.Carries (declaration.fields.map (·.1)) ∨ Inadmissible declaration values.own)) ∨
      (¬id.Carries declaration.id ∧ Inadmissible declaration (values.members inherited))
  | .delete entity id => ∀ declaration, mustGet declarations entity = .ok declaration →
      Unreadable inherited string declaration id ∨ id.Carries declaration.id

end ObjectMutation

section Mutations

variable {inherited : String → X} {string : FieldValue X → Text} {declarations : List NormalizedEntity}

theorem toOption_eq_some {ε α : Type} {x : Except ε α} {a : α} : x.toOption = some a ↔ x = .ok a := by
  cases x with
  | error e => simp [Except.toOption]
  | ok b => simp [Except.toOption]

theorem entityKey_spellId {declaration : NormalizedEntity} {entity : String} {id : Record X} {key : EntityKey}
    (hget : mustGet declarations entity = .ok declaration) :
    entityKey declaration (spellId string (idColumnsOf declarations entity) id) = .ok key ↔
      ∃ ids, declaration.id.mapM (idText string id) = some ids ∧ key = ⟨entity, ids⟩ := by
  have hcolumns : idColumnsOf declarations entity = declaration.id := by
    unfold idColumnsOf
    rw [hget]
  rw [hcolumns, entityKey_ok]
  simp only [idValues_spellId, mustGet_name hget]

theorem length_idTexts {declaration : NormalizedEntity} {id : Record X} {ids : List Text}
    (h : declaration.id.mapM (idText string id) = some ids) : ids.length = declaration.id.length :=
  (mapM_eq_some_iff.1 h).length_eq.symm

/-- **What the store writes** is what the mutation asks for by the store's lookups. -/
theorem written_eq_asked (mutation : ObjectMutation X) :
    mutation.written inherited string declarations =
      mutation.asked string declarations (JsObject.members inherited) := by
  apply Option.ext
  intro planned
  unfold ObjectMutation.written
  rw [Option.map_eq_some_iff]
  simp only [toOption_eq_some]
  cases mutation with
  | upsert entity id values =>
    unfold ObjectMutation.seen ObjectMutation.asked
    simp only [plan_upsert, bind, Option.bind_eq_some_iff, toOption_eq_some]
    constructor
    · rintro ⟨raw, ⟨declaration, hget, key, hkey, stored, hencode, rfl⟩, rfl⟩
      obtain ⟨ids, hids, rfl⟩ := (entityKey_spellId hget).1 hkey
      refine ⟨declaration, hget, ids, hids, ?_⟩
      have hname := mustGet_name hget
      subst hname
      rw [if_pos (encodeFieldValues_isOk.1 ⟨stored, hencode⟩)]
      have hrow := readRow_storedRow hget (length_idTexts hids) hencode
      have hupsert := congrArg (Mutation.upsert (EntityKey.mk declaration.name ids)) hrow.symm
      exact congrArg some hupsert
    · rintro ⟨declaration, hget, ids, hids, hplanned⟩
      have hname := mustGet_name hget
      subst hname
      split at hplanned
      · rename_i hadmits
        obtain ⟨stored, hencode⟩ := encodeFieldValues_isOk.2 hadmits
        refine ⟨_, ⟨declaration, hget, ⟨declaration.name, ids⟩, (entityKey_spellId hget).2 ⟨ids, hids, rfl⟩, stored,
          hencode, rfl⟩, ?_⟩
        have hrow := readRow_storedRow hget (length_idTexts hids) hencode
        have hupsert := congrArg (Mutation.upsert (EntityKey.mk declaration.name ids)) hrow
        exact hupsert.trans (Option.some.inj hplanned)
      · simp at hplanned
  | delete entity id =>
    unfold ObjectMutation.seen ObjectMutation.asked
    simp only [plan_delete, bind, Option.bind_eq_some_iff, toOption_eq_some]
    constructor
    · rintro ⟨raw, ⟨declaration, hget, key, hkey, rfl⟩, rfl⟩
      obtain ⟨ids, hids, rfl⟩ := (entityKey_spellId hget).1 hkey
      exact ⟨declaration, hget, ids, hids, rfl⟩
    · rintro ⟨declaration, hget, ids, hids, hplanned⟩
      refine ⟨_, ⟨declaration, hget, ⟨entity, ids⟩, (entityKey_spellId hget).2 ⟨ids, hids, rfl⟩, rfl⟩, ?_⟩
      exact Option.some.inj hplanned

/-! ### Ids read by their own members -/

theorem idText_own_of_notMem {id : JsObject X} {column : String} (h : column ∉ id.map (·.1)) :
    idText string id.own column = none := by
  unfold idText columnText
  rw [JsObject.field_own_of_notMem h]
  rfl

theorem idText_congr {id id' : Record X} {column : String} (h : id.field column = id'.field column) :
    idText string id column = idText string id' column := by
  unfold idText columnText
  rw [h]

theorem carries_of_idTexts {id : JsObject X} {columns : List String} {ids : List Text}
    (h : columns.mapM (idText string id.own) = some ids) : id.Carries columns := by
  intro column hcolumn _
  by_contra hnot
  have hnone : columns.mapM (idText string id.own) = none :=
    mapM_eq_none_iff.2 ⟨column, hcolumn, idText_own_of_notMem hnot⟩
  simp [hnone] at h

theorem idTexts_congr (inherited : String → X) (string : FieldValue X → Text) {id : JsObject X} {columns : List String}
    (h : id.Carries columns) :
    columns.mapM (idText string (id.members inherited)) = columns.mapM (idText string id.own) := by
  apply Option.ext
  intro ids
  rw [mapM_eq_some_iff, mapM_eq_some_iff, List.forall₂_iff_zip, List.forall₂_iff_zip]
  have hsame : ∀ column ∈ columns, idText string (id.members inherited) column = idText string id.own column :=
    fun column hcolumn => idText_congr (h.field inherited hcolumn)
  refine and_congr_right fun _ => ⟨fun hall column text hzip => ?_, fun hall column text hzip => ?_⟩
  · rw [← hsame column (List.of_mem_zip hzip).1]
    exact hall hzip
  · rw [hsame column (List.of_mem_zip hzip).1]
    exact hall hzip

/-- A column the store finds nothing for is none of the object's own. -/
theorem idTexts_of_unreadable {entity : NormalizedEntity} {id : JsObject X} (h : Unreadable inherited string entity id) :
    entity.id.mapM (idText string (id.members inherited)) = none ∧ entity.id.mapM (idText string id.own) = none := by
  obtain ⟨column, hcolumn, hnone⟩ := h
  refine ⟨mapM_eq_none_iff.2 ⟨column, hcolumn, hnone⟩, mapM_eq_none_iff.2 ⟨column, hcolumn, ?_⟩⟩
  by_cases hmem : column ∈ id.map (·.1)
  · rw [← idText_congr (JsObject.field_members_of_mem inherited hmem)]
    exact hnone
  · exact idText_own_of_notMem hmem

/-- **When an id is the one its own members name.** -/
theorem idTexts_eq_iff {entity : NormalizedEntity} {id : JsObject X} :
    entity.id.mapM (idText string (id.members inherited)) = entity.id.mapM (idText string id.own) ↔
      Unreadable inherited string entity id ∨ id.Carries entity.id := by
  constructor
  · intro hsame
    cases hids : entity.id.mapM (idText string (id.members inherited)) with
    | none => exact .inl (mapM_eq_none_iff.1 hids)
    | some ids =>
      rw [hids] at hsame
      exact .inr (carries_of_idTexts hsame.symm)
  · rintro (hnone | hcarries)
    · obtain ⟨hmembers, hown⟩ := idTexts_of_unreadable hnone
      rw [hmembers, hown]
    · exact idTexts_congr inherited string hcarries

theorem asked_none_of_idTexts {look : JsObject X → Record X} {entity : String} {id : JsObject X}
    {declaration : NormalizedEntity} (hget : mustGet declarations entity = .ok declaration)
    (hnone : declaration.id.mapM (idText string (look id)) = none) (values : JsObject X) :
    (ObjectMutation.upsert entity id values).asked string declarations look = none := by
  simp [ObjectMutation.asked, hget, Except.toOption, hnone]

theorem asked_none_of_inadmissible {look : JsObject X → Record X} {entity : String} {values : JsObject X}
    {declaration : NormalizedEntity} (hget : mustGet declarations entity = .ok declaration)
    (hnot : Inadmissible declaration (look values)) (id : JsObject X) :
    (ObjectMutation.upsert entity id values).asked string declarations look = none := by
  have hall : declaration.fields.all (fun field => field.2.admits ((look values).field field.1)) = false := by
    obtain ⟨field, hfield, hadmits⟩ := hnot
    exact List.all_eq_false.2 ⟨field, hfield, by simp [hadmits]⟩
  simp [ObjectMutation.asked, hget, Except.toOption, hall]

theorem asked_upsert {look : JsObject X → Record X} {entity : String} {id values : JsObject X}
    {declaration : NormalizedEntity} (hget : mustGet declarations entity = .ok declaration) {ids : List Text}
    (hids : declaration.id.mapM (idText string (look id)) = some ids) (hadmits : ¬Inadmissible declaration (look values)) :
    (ObjectMutation.upsert entity id values).asked string declarations look =
      some (.upsert ⟨entity, ids⟩ (stagedRow declaration ids (look values))) := by
  have hall : declaration.fields.all (fun field => field.2.admits ((look values).field field.1)) = true := by
    rw [List.all_eq_true]
    intro field hfield
    by_contra hnot
    exact hadmits ⟨field, hfield, by simpa using hnot⟩
  simp [ObjectMutation.asked, hget, Except.toOption, hids, hall]

theorem inadmissible_congr (inherited : String → X) {entity : NormalizedEntity} {values : JsObject X}
    (h : values.Carries (entity.fields.map (·.1))) :
    Inadmissible entity (values.members inherited) ↔ Inadmissible entity values.own := by
  unfold Inadmissible
  have hsame : ∀ field ∈ entity.fields, (values.members inherited).field field.1 = values.own.field field.1 :=
    fun field hfield => h.field inherited (List.mem_map_of_mem hfield)
  refine exists_congr fun field => and_congr_right fun hfield => ?_
  rw [hsame field hfield]

theorem stagedRow_congr {entity : NormalizedEntity} (ids : List Text) {values values' : Record X} :
    stagedRow entity ids values = stagedRow entity ids values' ↔
      ∀ field ∈ entity.fields, values.field field.1 = values'.field field.1 := by
  unfold stagedRow
  rw [List.append_cancel_left_eq, List.map_inj_left]
  refine forall₂_congr fun field _ => ?_
  simp

/-- A value the object lists is the one the store finds. -/
theorem inadmissible_of_own (inherited : String → X) {entity : NormalizedEntity} {values : JsObject X}
    (h : Inadmissible entity values.own) :
    Inadmissible entity (values.members inherited) := by
  obtain ⟨field, hfield, hadmits⟩ := h
  refine ⟨field, hfield, ?_⟩
  have hmem : field.1 ∈ values.map (·.1) := by
    by_contra hnot
    rw [JsObject.field_own_of_notMem hnot] at hadmits
    cases hdeclared : field.2 <;> simp [hdeclared, FieldDeclaration.admits] at hadmits
  rw [JsObject.field_members_of_mem inherited hmem]
  exact hadmits

/-- An upsert whose id is its own writes what it lists exactly when its values carry what they
inherit, or list one that is not admitted. -/
theorem asked_eq_iff_of_ids {entity : String} {id values : JsObject X} {declaration : NormalizedEntity}
    (hget : mustGet declarations entity = .ok declaration) {ids : List Text}
    (hmembers : declaration.id.mapM (idText string (id.members inherited)) = some ids)
    (hown : declaration.id.mapM (idText string id.own) = some ids) :
    (ObjectMutation.upsert entity id values).asked string declarations (JsObject.members inherited) =
        (ObjectMutation.upsert entity id values).asked string declarations JsObject.own ↔
      values.Carries (declaration.fields.map (·.1)) ∨ Inadmissible declaration values.own := by
  by_cases hbad : Inadmissible declaration values.own
  · have hbad' := inadmissible_of_own inherited hbad
    rw [asked_none_of_inadmissible hget hbad id, asked_none_of_inadmissible hget hbad' id]
    simp [hbad]
  rw [asked_upsert hget hown hbad]
  simp only [hbad, or_false]
  constructor
  · intro hsame name hname hinherited
    by_contra hnot
    by_cases hbad' : Inadmissible declaration (values.members inherited)
    · rw [asked_none_of_inadmissible hget hbad' id] at hsame
      simp at hsame
    · rw [asked_upsert hget hmembers hbad'] at hsame
      have hrow := (Mutation.upsert.inj (Option.some.inj hsame)).2
      obtain ⟨field, hfield, rfl⟩ := List.mem_map.1 hname
      have hvalue := (stagedRow_congr ids).1 hrow field hfield
      -- the row would hold what every object inherits
      rw [JsObject.field_members_inherited hnot hinherited, JsObject.field_own_of_notMem hnot] at hvalue
      simp at hvalue
  · intro hcarries
    have hok := fun h => hbad ((inadmissible_congr inherited hcarries).1 h)
    have hrow := (stagedRow_congr ids).2 fun field hfield => hcarries.field inherited (List.mem_map_of_mem hfield)
    rw [asked_upsert hget hmembers hok, hrow]

/-- **When a mutation writes what was listed.** -/
theorem written_eq_listed_iff (mutation : ObjectMutation X) :
    mutation.written inherited string declarations = mutation.listed string declarations ↔
      mutation.Plain inherited string declarations := by
  rw [written_eq_asked]
  unfold ObjectMutation.listed
  cases mutation with
  | upsert entity id values =>
    simp only [ObjectMutation.Plain]
    cases hget : mustGet declarations entity with
    | error error =>
      have hnone : ∀ look : JsObject X → Record X,
          (ObjectMutation.upsert entity id values).asked string declarations look = none := by
        intro look
        simp [ObjectMutation.asked, hget, Except.toOption]
      simp [hnone]
    | ok declaration =>
      simp only [Except.ok.injEq, forall_eq']
      by_cases hunreadable : Unreadable inherited string declaration id
      · obtain ⟨hmembers, hown⟩ := idTexts_of_unreadable hunreadable
        rw [asked_none_of_idTexts hget hmembers, asked_none_of_idTexts hget hown]
        simp [hunreadable]
      obtain ⟨ids, hids⟩ := Option.ne_none_iff_exists'.1 fun hnone => hunreadable (mapM_eq_none_iff.1 hnone)
      by_cases hcarries : id.Carries declaration.id
      · have hown := (idTexts_congr inherited string hcarries).symm.trans hids
        rw [asked_eq_iff_of_ids hget hids hown]
        simp [hunreadable, hcarries]
      · have hown : declaration.id.mapM (idText string id.own) = none := by
          cases hown : declaration.id.mapM (idText string id.own) with
          | none => rfl
          | some ids => exact absurd (carries_of_idTexts hown) hcarries
        rw [asked_none_of_idTexts hget hown]
        simp only [hunreadable, hcarries, false_and, false_or, not_false_eq_true, true_and]
        constructor
        · intro hnone
          by_contra hok
          rw [asked_upsert hget hids hok] at hnone
          simp at hnone
        · intro hbad
          exact asked_none_of_inadmissible hget hbad id
  | delete entity id =>
    simp only [ObjectMutation.Plain, ObjectMutation.asked]
    cases hget : mustGet declarations entity with
    | error error => simp [Except.toOption]
    | ok declaration =>
      simp only [Except.ok.injEq, forall_eq', ← idTexts_eq_iff]
      constructor
      · intro hsame
        cases hmembers : declaration.id.mapM (idText string (id.members inherited)) <;>
          cases hown : declaration.id.mapM (idText string id.own) <;>
          simp_all [Except.toOption]
      · intro hsame
        simp [Except.toOption, hsame]

end Mutations

/-! ### Runs -/

/-- A block with the objects of its mutations. -/
structure ObjectBlock (X H C : Type) where
  block : BlockPointer H
  mutations : List (ObjectMutation X)
  cursor : Option (String × C)

/-- What a caller asks of the store. -/
inductive ObjectCall (X H C : Type) where
  | applyBlock (call : ObjectBlock X H C)
  | revertTo (keepUpTo : ℤ)
  | writeCursor (key : String) (value : C)
  | prune (maxVersions : Option ℕ)

namespace ObjectCall

/-- The call as the store looks the declared names up in it. -/
def seen (inherited : String → X) (string : FieldValue X → Text) (declarations : List NormalizedEntity) :
    ObjectCall X H C → RetainedCall X H C
  | .applyBlock call => .call (.applyBlock
      ⟨call.block, call.mutations.map (ObjectMutation.seen inherited string declarations), call.cursor⟩)
  | .revertTo keepUpTo => .call (.revertTo keepUpTo)
  | .writeCursor key value => .call (.writeCursor key value)
  | .prune maxVersions => .prune maxVersions

/-- The call over rows as they were listed; none when it lists something that is refused. -/
def listed (string : FieldValue X → Text) (declarations : List NormalizedEntity) :
    ObjectCall X H C → Option (StoreOp EntityKey (Record X) H C)
  | .applyBlock call => (call.mutations.mapM (ObjectMutation.listed string declarations)).map fun planned =>
      .applyBlock call.block planned call.cursor
  | .revertTo keepUpTo => some (.revertTo keepUpTo)
  | .writeCursor key value => some (.writeCursor key value)
  | .prune maxVersions => some (.prune maxVersions)

/-- Every mutation of the call is plain. -/
def Plain (inherited : String → X) (string : FieldValue X → Text) (declarations : List NormalizedEntity) :
    ObjectCall X H C → Prop
  | .applyBlock call => ∀ mutation ∈ call.mutations, mutation.Plain inherited string declarations
  | _ => True

end ObjectCall

section Runs

variable [DecidableEq H]

/-- The store of listed rows after one call. -/
def performListed (string : FieldValue X → Text) (declarations : List NormalizedEntity) (u : EntityStore X H C)
    (call : ObjectCall X H C) : EntityStore X H C :=
  match call.listed string declarations with
  | none => u
  | some op => MemoryStateStore.perform u op

/-- A store that holds every row as it was listed. -/
def runListed (string : FieldValue X → Text) (declarations : List NormalizedEntity) (u : EntityStore X H C)
    (calls : List (ObjectCall X H C)) : EntityStore X H C :=
  calls.foldl (performListed string declarations) u

variable {inherited : String → X} {string : FieldValue X → Text} {declarations : List NormalizedEntity}

omit [DecidableEq H] in
/-- A block is written when each of its mutations is. -/
theorem mapM_written {mutations : List (ObjectMutation X)} {planned : List (Mutation EntityKey (Record X))} :
    mutations.mapM (ObjectMutation.written inherited string declarations) = some planned ↔
      ∃ raws, (mutations.map (ObjectMutation.seen inherited string declarations)).mapM (plan declarations) = .ok raws ∧
        planned = raws.map (Mutation.image (readRow declarations)) := by
  have hone : ∀ mutation : ObjectMutation X, ∀ m, mutation.written inherited string declarations = some m ↔
      ∃ raw, plan declarations (mutation.seen inherited string declarations) = .ok raw ∧
        raw.image (readRow declarations) = m := by
    intro mutation m
    unfold ObjectMutation.written
    rw [Option.map_eq_some_iff]
    simp only [toOption_eq_some]
  simp only [mapM_eq_some_iff, mapM_eq_ok, List.forall₂_map_left_iff]
  constructor
  · intro h
    induction h with
    | nil => exact ⟨[], .nil, rfl⟩
    | cons hm _ ih =>
      obtain ⟨raws, hraws, rfl⟩ := ih
      obtain ⟨raw, hraw, rfl⟩ := (hone _ _).1 hm
      exact ⟨raw :: raws, .cons hraw hraws, rfl⟩
  · rintro ⟨raws, hraws, rfl⟩
    rw [List.forall₂_map_right_iff]
    exact hraws.imp fun mutation raw hraw => (hone _ _).2 ⟨raw, hraw, rfl⟩

omit [DecidableEq H] in
theorem mapM_listed {mutations : List (ObjectMutation X)}
    (h : ∀ mutation ∈ mutations, mutation.Plain inherited string declarations) :
    mutations.mapM (ObjectMutation.listed string declarations) =
      mutations.mapM (ObjectMutation.written inherited string declarations) := by
  induction mutations with
  | nil => rfl
  | cons mutation mutations ih =>
    have hfirst := (written_eq_listed_iff mutation).2 (h mutation List.mem_cons_self)
    rw [List.mapM_cons, List.mapM_cons, hfirst, ih fun m hm => h m (List.mem_cons_of_mem _ hm)]

/-- **One plain call** does to the rows as they read what it does to the rows as they were listed. -/
theorem image_performRetained (s : EntityStore X H C) {call : ObjectCall X H C}
    (h : call.Plain inherited string declarations) :
    (EntityStore.performRetained declarations s (call.seen inherited string declarations)).image (readRow declarations) =
      performListed string declarations (s.image (readRow declarations)) call := by
  cases call with
  | revertTo keepUpTo => exact MemoryStateStore.image_revertTo s keepUpTo
  | writeCursor key value => rfl
  | prune maxVersions => exact MemoryStateStore.image_prune s maxVersions
  | applyBlock call =>
    unfold performListed ObjectCall.listed
    dsimp only
    rw [mapM_listed h]
    rcases EntityStore.applyBlock_cases declarations
        ⟨call.block, call.mutations.map (ObjectMutation.seen inherited string declarations), call.cursor⟩ s with
      ⟨error, hrun⟩ | ⟨raws, s', hplan, happly, hrun⟩
    · have hsame : EntityStore.performRetained declarations s
          ((ObjectCall.applyBlock call).seen inherited string declarations) = s := congrArg Prod.snd hrun
      rw [hsame]
      cases hwritten : call.mutations.mapM (ObjectMutation.written inherited string declarations) with
      | none => rfl
      | some planned =>
        obtain ⟨raws, hplan, rfl⟩ := mapM_written.1 hwritten
        cases happly : MemoryStateStore.applyBlock s call.block raws call.cursor with
        | error refusal =>
          simp [MemoryStateStore.perform, MemoryStateStore.image_applyBlock, happly, Except.map]
        | ok s' =>
          -- what the store would write it does not refuse
          have haccepted := @EntityStore.applyBlock_of_accepted _ _ _ _ declarations
            ⟨call.block, call.mutations.map (ObjectMutation.seen inherited string declarations), call.cursor⟩ _ _ _
            hplan happly
          rw [hrun] at haccepted
          cases haccepted
    · have hstep : EntityStore.performRetained declarations s
          ((ObjectCall.applyBlock call).seen inherited string declarations) = s' := congrArg Prod.snd hrun
      rw [hstep, mapM_written.2 ⟨raws, hplan, rfl⟩]
      have hlisted := MemoryStateStore.image_applyBlock (g := readRow declarations) s call.block raws call.cursor
      dsimp only at happly
      rw [happly] at hlisted
      simp [MemoryStateStore.perform, hlisted, Except.map]

/-- **Over plain calls the store holds the listed rows.** -/
theorem image_seen (s : EntityStore X H C) {calls : List (ObjectCall X H C)}
    (h : ∀ call ∈ calls, call.Plain inherited string declarations) :
    (EntityStore.runRetained declarations s (calls.map (ObjectCall.seen inherited string declarations))).image
        (readRow declarations) = runListed string declarations (s.image (readRow declarations)) calls := by
  induction calls generalizing s with
  | nil => rfl
  | cons call calls ih =>
    have hstep := image_performRetained s (h call List.mem_cons_self)
    have hrest := ih (EntityStore.performRetained declarations s (call.seen inherited string declarations))
      fun c hc => h c (List.mem_cons_of_mem _ hc)
    unfold EntityStore.runRetained runListed at hrest ⊢
    rw [List.map_cons, List.foldl_cons, List.foldl_cons, hrest, hstep]

end Runs

/-! ### Reads -/

namespace ReadSurface

variable (inherited : String → X) (string : FieldValue X → Text) (declarations : List NormalizedEntity)

/-- An id object as a read of the store looks its columns up. -/
def seenId (entity : NormalizedEntity) (id : JsObject X) : EntityId :=
  spellId string (idColumnsOf declarations entity.name) (id.members inherited)

/-- The row of an entity at the tip, as its declaration describes it. -/
def getCurrent (s : EntityStore X H C) (entity : NormalizedEntity) (id : JsObject X) :
    Except EntityError (Option (Record X)) :=
  (EntityStore.getCurrent declarations s entity.name (seenId inherited string declarations entity id)).map
    (Option.map (declaredRow entity))

def getAsOf (s : EntityStore X H C) (entity : NormalizedEntity) (id : JsObject X) (height : ℤ) :
    Except ReadError (Option (Record X)) :=
  (EntityStore.getAsOf declarations s entity.name (seenId inherited string declarations entity id) height).map
    (Option.map (declaredRow entity))

/-- A listing as the declaration of its entity describes it. -/
def listing (entity : NormalizedEntity) (found : Listing X) : Listing X :=
  ⟨found.rows.map (declaredRow entity), found.truncated⟩

def listCurrent (s : EntityStore X H C) (entity : NormalizedEntity) (idPrefix : EntityId) (limit : ℤ) :
    Except EntityError (Listing X) :=
  (EntityStore.listCurrent declarations s entity.name idPrefix limit).map (listing entity)

def listAsOf (s : EntityStore X H C) (entity : NormalizedEntity) (idPrefix : EntityId) (height limit : ℤ) :
    Except ReadError (Listing X) :=
  (EntityStore.listAsOf declarations s entity.name idPrefix height limit).map (listing entity)

/-- The prefix that selects the children of one parent: its whole key. -/
def parentPrefix (parent : NormalizedEntity) (id : JsObject X) : Except EntityError EntityId :=
  (idValues parent.name parent.id (spellId string parent.id (id.members inherited))).map fun values =>
    parent.id.zip values

end ReadSurface

/-- A version as a read of the store answers it: its row, and the heights it stands at. -/
def versionedRow (v : Version (Record X)) : Record X := v.values ++ versionColumns v

/-- What a read of one entity finds among listed rows; none when the id is refused. -/
def listedRead (string : FieldValue X → Text) (u : EntityStore X H C) (entity : NormalizedEntity) (id : JsObject X)
    (matching : Version (Record X) → Bool) : Option (Option (Version (Record X))) :=
  (entity.id.mapM (idText string id.own)).map fun ids => (versionsOf u.rows ⟨entity.name, ids⟩).find? matching

/-- What a listing finds among listed rows. -/
def listedPage (u : EntityStore X H C) (entity : NormalizedEntity) (idPrefix : EntityId) (limit : ℤ)
    (matching : Version (Record X) → Bool) : Except EntityError (List (Version (Record X))) := do
  let values ← prefixValues entity idPrefix
  assertListingLimit entity limit
  let sorted := (EntityStore.found u.rows entity.name values matching).insertionSort fun a b => compareIds a.1 b.1 ≤ 0
  pure ((sorted.take (limit.toNat + 1)).map (·.2))

/-- The reads by id answer what was listed under that id, or refuse it: those of the store, with
the heights of the version; those of the surface, as declared; and the key of a parent. -/
structure ReadsListed (inherited : String → X) (string : FieldValue X → Text) (declarations : List NormalizedEntity)
    (s u : EntityStore X H C) (entity : NormalizedEntity) (id : JsObject X) : Prop where
  current : (EntityStore.getCurrent declarations s entity.name
      (ReadSurface.seenId inherited string declarations entity id)).toOption =
    (listedRead string u entity id (·.upper.isNone)).map (Option.map versionedRow)
  asOf : ∀ height, (EntityStore.getAsOf declarations s entity.name
      (ReadSurface.seenId inherited string declarations entity id) height).toOption =
    (assertRetained s.provided height s.tip).toOption.bind fun _ =>
      (listedRead string u entity id (·.openAt height)).map (Option.map versionedRow)
  surfaceCurrent : (ReadSurface.getCurrent inherited string declarations s entity id).toOption =
    (listedRead string u entity id (·.upper.isNone)).map (Option.map (·.values))
  surfaceAsOf : ∀ height, (ReadSurface.getAsOf inherited string declarations s entity id height).toOption =
    (assertRetained s.provided height s.tip).toOption.bind fun _ =>
      (listedRead string u entity id (·.openAt height)).map (Option.map (·.values))
  parent : (ReadSurface.parentPrefix inherited string entity id).toOption =
    (entity.id.mapM (idText string id.own)).map fun ids => entity.id.zip ids

/-- The listings answer what was listed under their prefix. -/
structure ListsListed (declarations : List NormalizedEntity) (s u : EntityStore X H C) (entity : NormalizedEntity)
    (idPrefix : EntityId) (limit : ℤ) : Prop where
  current : EntityStore.listCurrent declarations s entity.name idPrefix limit =
    (listedPage u entity idPrefix limit (·.upper.isNone)).map fun vs =>
      boundedListing (vs.map versionedRow) limit.toNat
  asOf : ∀ height, EntityStore.listAsOf declarations s entity.name idPrefix height limit = do
    assertRetained s.provided height s.tip
    ((listedPage u entity idPrefix limit (·.openAt height)).mapError .entity).map fun vs =>
      boundedListing (vs.map versionedRow) limit.toNat
  surfaceCurrent : ReadSurface.listCurrent declarations s entity idPrefix limit =
    (listedPage u entity idPrefix limit (·.upper.isNone)).map fun vs =>
      boundedListing (vs.map (·.values)) limit.toNat
  surfaceAsOf : ∀ height, ReadSurface.listAsOf declarations s entity idPrefix height limit = do
    assertRetained s.provided height s.tip
    ((listedPage u entity idPrefix limit (·.openAt height)).mapError .entity).map fun vs =>
      boundedListing (vs.map (·.values)) limit.toNat

/-- Every version held is the complete row of a mutation that resolved to its key. -/
def Held (declarations : List NormalizedEntity) (s : EntityStore X H C) : Prop :=
  ∀ key, ∀ v ∈ versionsOf s.rows key, ∃ declaration id values stored,
    EntityStore.Canonical declarations key v declaration id values stored

section Reads

variable {inherited : String → X} {string : FieldValue X → Text} {declarations : List NormalizedEntity}
  {s : EntityStore X H C} {entity : NormalizedEntity}

/-- **What a version reads as**, and what its declaration makes of that. -/
theorem Held.readVersion (h : Held declarations s) (hget : mustGet declarations entity.name = .ok entity)
    {ids : List Text} {v : Version (Record X)} (hv : v ∈ versionsOf s.rows ⟨entity.name, ids⟩) :
    Etherfold.readVersion entity v = .ok (versionedRow (v.image (readRow declarations ⟨entity.name, ids⟩))) ∧
      declaredRow entity (versionedRow (v.image (readRow declarations ⟨entity.name, ids⟩))) =
        readRow declarations ⟨entity.name, ids⟩ v.values := by
  obtain ⟨declaration, id, values, stored, hcanonical⟩ := h _ v hv
  have hdeclared := hcanonical.declared
  rw [hget] at hdeclared
  cases hdeclared
  have hlen : ids.length = entity.id.length := by
    obtain ⟨ids', hids, hkey⟩ := entityKey_ok.1 hcanonical.keyed
    cases hkey
    exact (mapM_eq_ok.1 hids).length_eq.symm
  have hrow : readRow declarations ⟨entity.name, ids⟩ v.values = stagedRow entity ids values := by
    rw [hcanonical.values]
    exact readRow_storedRow hget hlen hcanonical.encoded
  have hversion : versionedRow (v.image (readRow declarations ⟨entity.name, ids⟩)) =
      stagedRow entity ids values ++ versionColumns v := by
    unfold versionedRow
    rw [Version.image_values, hrow]
    rfl
  rw [hversion, hrow]
  have hread := @MutationContext.readVersion_canonical _ entity ⟨entity.name, ids⟩ _ _ _ hcanonical.encoded
    hcanonical.values
  exact ⟨hread, declaredRow_stagedRow hlen values _⟩

/-- What a read of one entity finds among the rows as they read, by the store's lookups. -/
def seenRead (inherited : String → X) (string : FieldValue X → Text) (declarations : List NormalizedEntity)
    (s : EntityStore X H C) (entity : NormalizedEntity) (id : JsObject X)
    (matching : Version (Record X) → Bool) : Option (Option (Version (Record X))) :=
  (entity.id.mapM (idText string (id.members inherited))).map fun ids =>
    (versionsOf (s.image (readRow declarations)).rows ⟨entity.name, ids⟩).find? matching

theorem toOption_map {ε α β : Type} (x : Except ε α) (f : α → β) : (x.map f).toOption = x.toOption.map f := by
  cases x <;> rfl

theorem toOption_idValues {name : String} {columns : List String} {id : Record X} :
    (idValues name columns (spellId string columns id)).toOption = columns.mapM (idText string id) := by
  apply Option.ext
  intro ids
  rw [toOption_eq_some, idValues_spellId]

/-- **A read of one entity** answers the rows as they read. -/
theorem Held.read (h : Held declarations s) (inherited : String → X) (string : FieldValue X → Text)
    (hget : mustGet declarations entity.name = .ok entity) (id : JsObject X)
    (matching : Version (Record X) → Bool) (hmatching : ∀ f (v : Version (Record X)), matching (v.image f) = matching v) :
    (EntityStore.read declarations s entity.name (ReadSurface.seenId inherited string declarations entity id)
        matching).toOption =
      (seenRead inherited string declarations s entity id matching).map (Option.map versionedRow) := by
  unfold seenRead ReadSurface.seenId
  cases hids : entity.id.mapM (idText string (id.members inherited)) with
  | none =>
    cases hkey : entityKey entity (spellId string (idColumnsOf declarations entity.name) (id.members inherited)) with
    | ok key =>
      obtain ⟨ids, hsome, -⟩ := (entityKey_spellId hget).1 hkey
      simp [hids] at hsome
    | error error =>
      unfold EntityStore.read
      simp [hget, hkey, bind, Except.bind, Except.toOption]
  | some ids =>
    have hkey := (entityKey_spellId hget).2 ⟨ids, hids, rfl⟩
    have hrows : (s.image (readRow declarations)).rows = s.rows.map (Row.image (readRow declarations)) := rfl
    rw [EntityStore.read_eq hget hkey, hrows, Option.map_some, find?_image s.rows _ (hmatching _)]
    cases hfound : (versionsOf s.rows ⟨entity.name, ids⟩).find? matching with
    | none => rfl
    | some v =>
      have hread := (h.readVersion hget (List.mem_of_find?_eq_some hfound)).1
      simp [hread, Except.map, Except.toOption]

/-- What the declaration makes of a row that was read. -/
theorem Held.declared (h : Held declarations s) (inherited : String → X) (string : FieldValue X → Text)
    (hget : mustGet declarations entity.name = .ok entity) (id : JsObject X)
    (matching : Version (Record X) → Bool) (hmatching : ∀ f (v : Version (Record X)), matching (v.image f) = matching v) :
    ((seenRead inherited string declarations s entity id matching).map (Option.map versionedRow)).map
        (Option.map (declaredRow entity)) =
      (seenRead inherited string declarations s entity id matching).map (Option.map (·.values)) := by
  unfold seenRead
  cases entity.id.mapM (idText string (id.members inherited)) with
  | none => rfl
  | some ids =>
    have hrows : (s.image (readRow declarations)).rows = s.rows.map (Row.image (readRow declarations)) := rfl
    rw [Option.map_some, hrows, find?_image s.rows _ (hmatching _)]
    cases hfound : (versionsOf s.rows ⟨entity.name, ids⟩).find? matching with
    | none => rfl
    | some v =>
      have hread := (h.readVersion hget (List.mem_of_find?_eq_some hfound)).2
      simp [hread]

theorem toOption_getAsOf (id : EntityId) (height : ℤ) : (EntityStore.getAsOf declarations s entity.name id height).toOption =
    (assertRetained s.provided height s.tip).toOption.bind fun _ =>
      (EntityStore.read declarations s entity.name id (·.openAt height)).toOption := by
  unfold EntityStore.getAsOf
  cases assertRetained s.provided height s.tip with
  | error error => rfl
  | ok _ =>
    cases hread : EntityStore.read declarations s entity.name id (·.openAt height) with
    | error error => simp [bind, Except.bind, Except.mapError, Except.toOption]
    | ok row => simp [bind, Except.bind, Except.mapError, Except.toOption]

/-- **When the reads of an id answer what was listed.** -/
theorem Held.readsListed_iff (h : Held declarations s) (hget : mustGet declarations entity.name = .ok entity)
    (id : JsObject X) :
    ReadsListed inherited string declarations s (s.image (readRow declarations)) entity id ↔
      Unreadable inherited string entity id ∨ id.Carries entity.id := by
  rw [← idTexts_eq_iff]
  have hcurrent := h.read inherited string hget id (fun v => v.upper.isNone) fun f v => rfl
  constructor
  · intro hreads
    rw [idTexts_eq_iff]
    -- an id the store reads is one its own members name
    have hanswer := hreads.current
    unfold EntityStore.getCurrent at hanswer
    rw [hcurrent] at hanswer
    unfold seenRead listedRead at hanswer
    cases hids : entity.id.mapM (idText string (id.members inherited)) with
    | none => exact .inl (mapM_eq_none_iff.1 hids)
    | some ids =>
      cases hown : entity.id.mapM (idText string id.own) with
      | none => simp [hids, hown] at hanswer
      | some ids' => exact .inr (carries_of_idTexts hown)
  · intro hsame
    have hfound : ∀ matching, seenRead inherited string declarations s entity id matching =
        listedRead string (s.image (readRow declarations)) entity id matching := by
      intro matching
      unfold seenRead listedRead
      rw [hsame]
    have hheight := fun height : ℤ => h.read inherited string hget id (fun v => v.openAt height) fun f v => rfl
    have hdeclared := h.declared inherited string hget id (fun v => v.upper.isNone) fun f v => rfl
    have hdeclaredAt := fun height : ℤ => h.declared inherited string hget id (fun v => v.openAt height) fun f v => rfl
    refine ⟨?_, fun height => ?_, ?_, fun height => ?_, ?_⟩
    · rw [← hfound]
      exact hcurrent
    · rw [toOption_getAsOf, ← hfound, hheight]
    · unfold ReadSurface.getCurrent EntityStore.getCurrent
      rw [toOption_map, hcurrent, hdeclared, hfound]
    · unfold ReadSurface.getAsOf
      rw [toOption_map, toOption_getAsOf, hheight, ← hfound, ← hdeclaredAt]
      cases (assertRetained s.provided height s.tip).toOption <;> rfl
    · unfold ReadSurface.parentPrefix
      rw [toOption_map, toOption_idValues, hsame]

/-! ### Listings -/

theorem found_image (declarations : List NormalizedEntity) (rows : List (Row EntityKey (Record X))) (name : String)
    (values : List Text) (matching : Version (Record X) → Bool)
    (hmatching : ∀ f (v : Version (Record X)), matching (v.image f) = matching v) :
    EntityStore.found (rows.map (Row.image (readRow declarations))) name values matching =
      (EntityStore.found rows name values matching).map fun p =>
        (p.1, p.2.image (readRow declarations ⟨name, p.1⟩)) := by
  unfold EntityStore.found
  rw [List.filterMap_map, List.map_filterMap]
  congr 1
  funext row
  have hkey : (Row.image (readRow declarations) row).key = row.key := rfl
  have hversions : (Row.image (readRow declarations) row).versions.find? matching =
      (row.versions.find? matching).map (Version.image (readRow declarations row.key)) := by
    have hsame : matching ∘ Version.image (readRow declarations row.key) = matching :=
      funext fun v => hmatching _ v
    unfold Row.image
    rw [List.find?_map, hsame]
  dsimp only [Function.comp]
  rw [hversions, hkey]
  split
  · rename_i hcond
    rw [Bool.and_eq_true, decide_eq_true_eq] at hcond
    have hrow : readRow declarations row.key = readRow (X := X) declarations ⟨name, row.key.id⟩ := by rw [← hcond.1]
    cases row.versions.find? matching with
    | none => rfl
    | some v => rw [Option.map_some, Option.map_some, Option.map_some, Option.map_some, hrow]
  · rfl

/-- What a listing finds among the rows as they read. -/
theorem sorted_found_image (declarations : List NormalizedEntity) (rows : List (Row EntityKey (Record X))) (name : String)
    (values : List Text) (matching : Version (Record X) → Bool)
    (hmatching : ∀ f (v : Version (Record X)), matching (v.image f) = matching v) :
    (EntityStore.found (rows.map (Row.image (readRow declarations))) name values matching).insertionSort
        (fun a b => compareIds a.1 b.1 ≤ 0) =
      ((EntityStore.found rows name values matching).insertionSort fun a b => compareIds a.1 b.1 ≤ 0).map fun p =>
        (p.1, p.2.image (readRow declarations ⟨name, p.1⟩)) := by
  rw [found_image declarations rows name values matching hmatching]
  exact (List.map_insertionSort (fun a b : List Text × Version (Record X) => compareIds a.1 b.1 ≤ 0)
    (fun a b : List Text × Version (Record X) => compareIds a.1 b.1 ≤ 0)
    (fun p => (p.1, p.2.image (readRow declarations ⟨name, p.1⟩))) _ fun a _ b _ => Iff.rfl).symm

/-- **A listing answers the rows as they read**, and its declaration makes each of them what it holds. -/
theorem Held.page (h : Held declarations s) (hnodup : KeysNodup s.rows)
    (hget : mustGet declarations entity.name = .ok entity) (idPrefix : EntityId) (limit : ℤ)
    (matching : Version (Record X) → Bool) (hmatching : ∀ f (v : Version (Record X)), matching (v.image f) = matching v) :
    EntityStore.scan declarations s entity.name idPrefix limit matching =
        (listedPage (s.image (readRow declarations)) entity idPrefix limit matching).map (fun vs =>
          boundedListing (vs.map versionedRow) limit.toNat) ∧
      ∀ vs, listedPage (s.image (readRow declarations)) entity idPrefix limit matching = .ok vs →
        ∀ w ∈ vs, declaredRow entity (versionedRow w) = w.values := by
  have hrows : (s.image (readRow declarations)).rows = s.rows.map (Row.image (readRow declarations)) := rfl
  have hsorted := fun values => sorted_found_image declarations s.rows entity.name values matching hmatching
  have hheld : ∀ values n, ∀ p ∈ ((EntityStore.found s.rows entity.name values matching).insertionSort
      fun a b => compareIds a.1 b.1 ≤ 0).take n, p.2 ∈ versionsOf s.rows ⟨entity.name, p.1⟩ := by
    intro values n p hp
    have hmem := (List.mem_insertionSort _).1 (List.mem_of_mem_take hp)
    exact List.mem_of_find?_eq_some ((EntityStore.mem_found hnodup).1 hmem).2
  have hscan : EntityStore.scan declarations s entity.name idPrefix limit matching =
      (prefixValues entity idPrefix >>= fun values => assertListingLimit entity limit >>= fun _ =>
        (((EntityStore.found s.rows entity.name values matching).insertionSort fun a b =>
          compareIds a.1 b.1 ≤ 0).take (limit.toNat + 1)).mapM (fun row => Etherfold.readVersion entity row.2) >>=
            fun rows => pure (boundedListing rows limit.toNat)) := by
    unfold EntityStore.scan
    rw [hget]
    rfl
  rw [hscan]
  unfold listedPage
  rw [hrows]
  simp only [hsorted]
  cases hvalues : prefixValues entity idPrefix with
  | error error => exact ⟨rfl, fun vs hvs => by cases hvs⟩
  | ok values =>
    cases hlimit : assertListingLimit entity limit with
    | error error =>
      refine ⟨by simp [bind, Except.bind, Except.map], fun vs hvs => ?_⟩
      simp [bind, Except.bind] at hvs
    | ok _ =>
      generalize htaken : ((EntityStore.found s.rows entity.name values matching).insertionSort
        fun a b => compareIds a.1 b.1 ≤ 0) = sorted
      have hmem := hheld values (limit.toNat + 1)
      rw [htaken] at hmem
      have hread : (sorted.take (limit.toNat + 1)).mapM (fun row => Etherfold.readVersion entity row.2) =
          .ok ((sorted.take (limit.toNat + 1)).map fun p =>
            versionedRow (p.2.image (readRow declarations ⟨entity.name, p.1⟩))) := by
        rw [mapM_eq_ok, List.forall₂_map_right_iff, List.forall₂_same]
        exact fun p hp => (h.readVersion hget (hmem p hp)).1
      constructor
      · simp [bind, Except.bind, Except.map, pure, Except.pure, htaken, hread, ← List.map_take, Function.comp_def]
      · intro vs hvs w hw
        simp only [bind, Except.bind, pure, Except.pure, htaken, Except.ok.injEq] at hvs
        subst hvs
        rw [← List.map_take, List.map_map] at hw
        obtain ⟨p, hp, rfl⟩ := List.mem_map.1 hw
        exact (h.readVersion hget (hmem p hp)).2

theorem surface_listing {found : Except EntityError (List (Version (Record X)))} {limit : ℕ}
    (h : ∀ vs, found = .ok vs → ∀ w ∈ vs, declaredRow entity (versionedRow w) = w.values) :
    (found.map fun vs => boundedListing (vs.map versionedRow) limit).map (ReadSurface.listing entity) =
      found.map fun vs => boundedListing (vs.map (·.values)) limit := by
  cases found with
  | error error => rfl
  | ok vs =>
    have hrows : (vs.map versionedRow).map (declaredRow entity) = vs.map (·.values) := by
      rw [List.map_map]
      exact List.map_congr_left fun w hw => h vs rfl w hw
    unfold ReadSurface.listing boundedListing Except.map
    dsimp only
    rw [List.map_take, hrows, List.length_map, List.length_map]

theorem listAsOf_bind (idPrefix : EntityId) (height limit : ℤ) :
    EntityStore.listAsOf declarations s entity.name idPrefix height limit =
      (assertRetained s.provided height s.tip >>= fun _ =>
        (EntityStore.scan declarations s entity.name idPrefix limit (·.openAt height)).mapError .entity) := rfl

/-- **The listings answer what was listed.** -/
theorem Held.listsListed (h : Held declarations s) (hnodup : KeysNodup s.rows)
    (hget : mustGet declarations entity.name = .ok entity) (idPrefix : EntityId) (limit : ℤ) :
    ListsListed declarations s (s.image (readRow declarations)) entity idPrefix limit := by
  obtain ⟨hcurrent, hrows⟩ := h.page hnodup hget idPrefix limit (fun v => v.upper.isNone) fun f v => rfl
  have hat := fun height : ℤ => h.page hnodup hget idPrefix limit (fun v => v.openAt height) fun f v => rfl
  refine ⟨hcurrent, fun height => ?_, ?_, fun height => ?_⟩
  · rw [listAsOf_bind, (hat height).1]
    cases listedPage (s.image (readRow declarations)) entity idPrefix limit (·.openAt height) <;> rfl
  · unfold ReadSurface.listCurrent EntityStore.listCurrent
    rw [hcurrent, surface_listing hrows]
  · unfold ReadSurface.listAsOf
    rw [listAsOf_bind, (hat height).1]
    cases assertRetained s.provided height s.tip with
    | error error => rfl
    | ok _ =>
      have hsurface := @surface_listing _ entity _ limit.toNat (hat height).2
      cases hpage : listedPage (s.image (readRow declarations)) entity idPrefix limit (·.openAt height) with
      | error error => rfl
      | ok vs =>
        rw [hpage] at hsurface
        exact congrArg (Except.mapError ReadError.entity) hsurface

end Reads

section Main

variable [DecidableEq H]

/-- Every version of a run is the row of a mutation that resolved. -/
theorem held_runRetained (declarations : List NormalizedEntity) {setting : Option RetentionSetting}
    {finalityDepth : Option ℕ} {s₀ : EntityStore X H C} (hnew : MemoryStateStore.new setting finalityDepth = .ok s₀)
    (calls : List (RetainedCall X H C)) : Held declarations (EntityStore.runRetained declarations s₀ calls) := by
  intro key v hv
  obtain ⟨kept, applied, htracks⟩ := EntityStore.tracks_fullHistory declarations calls
  have hshadow := @EntityStore.shadow_runRetained _ _ _ _ declarations _ _ _ hnew calls
  exact htracks.canonical ((hshadow.sublist key).subset hv)

/-- **When a whole-row write reads back as it was listed.** A mutation writes what it lists exactly
when no inherited member decides what becomes of it. Over blocks of such mutations, reverts and
prunes, every listing answers the rows as they were listed, and so do the reads of an id exactly
when the store refuses it or it carries the inherited names its entity declares. -/
theorem reads_back_iff (inherited : String → X) (string : FieldValue X → Text) (declarations : List NormalizedEntity)
    {setting : Option RetentionSetting} {finalityDepth : Option ℕ} {s₀ : EntityStore X H C}
    (hnew : MemoryStateStore.new setting finalityDepth = .ok s₀) :
    (∀ mutation : ObjectMutation X, mutation.written inherited string declarations =
      mutation.listed string declarations ↔ mutation.Plain inherited string declarations) ∧
    ∀ calls : List (ObjectCall X H C), (∀ call ∈ calls, call.Plain inherited string declarations) →
      ∀ entity, mustGet declarations entity.name = .ok entity →
        (∀ id, ReadsListed inherited string declarations
            (EntityStore.runRetained declarations s₀ (calls.map (ObjectCall.seen inherited string declarations)))
            (runListed string declarations s₀ calls) entity id ↔
          Unreadable inherited string entity id ∨ id.Carries entity.id) ∧
        ∀ idPrefix limit, ListsListed declarations
          (EntityStore.runRetained declarations s₀ (calls.map (ObjectCall.seen inherited string declarations)))
          (runListed string declarations s₀ calls) entity idPrefix limit := by
  refine ⟨written_eq_listed_iff, fun calls hplain entity hget => ?_⟩
  have hheld := held_runRetained declarations hnew (calls.map (ObjectCall.seen inherited string declarations))
  have hnodup := (@EntityStore.shadow_runRetained _ _ _ _ declarations _ _ _ hnew
    (calls.map (ObjectCall.seen inherited string declarations))).nodup
  have hnil : s₀.image (readRow declarations) = s₀ := by
    unfold MemoryStateStore.new at hnew
    split at hnew
    · cases hnew
    · cases hnew
      rfl
  have himage := image_seen s₀ hplain
  rw [hnil] at himage
  rw [← himage]
  exact ⟨hheld.readsListed_iff hget, hheld.listsListed hnodup hget⟩

end Main

/-- An entity with a field every object inherits a member for. -/
def badge : NormalizedEntity :=
  ⟨"badge", ["id"], [("constructor", .storage), ("owner", .storage)], coin.id_ne, by decide, by decide⟩

/-- An entity whose id column every object inherits a member for. -/
def family : NormalizedEntity := ⟨"family", ["constructor"], [], by decide, by decide, by decide⟩

/-- What the members of this example are as text: a function begins with its keyword. -/
def memberText : FieldValue Unit → Text
  | .text text => text
  | _ => [102, 117, 110, 99, 116, 105, 111, 110]

/-- A badge is written with its constructor listed, written again with both fields listed, and
the second block is reverted. -/
def badgeCalls : List (ObjectCall Unit ℕ Unit) :=
  [.applyBlock ⟨⟨1, 1⟩, [.upsert "badge" [("id", some (.text [65]))] [("constructor", some (.number 7)), ("owner", none)]],
      none⟩,
    .applyBlock ⟨⟨2, 2⟩, [.upsert "badge" [("id", some (.text [65]))] [("constructor", none), ("owner", some (.number 9))]],
      none⟩,
    .revertTo 1, .prune none]

theorem reads_back_badgeCalls : ReadsListed (fun _ => ()) memberText [badge, family]
    (EntityStore.runRetained [badge, family] emptyStore
      (badgeCalls.map (ObjectCall.seen (fun _ => ()) memberText [badge, family])))
    (runListed memberText [badge, family] emptyStore badgeCalls) badge [("id", some (.text [65]))] := by
  have hnew : MemoryStateStore.new none none = .ok emptyStore := rfl
  have hid : ∀ name ∈ ["id"], name ∉ inheritedMembers := by decide
  have hplain : ∀ values : JsObject Unit, values.map (·.1) = ["constructor", "owner"] →
      (ObjectMutation.upsert "badge" [("id", some (.text [65]))] values).Plain (fun _ => ()) memberText [badge, family] := by
    intro values hnames declaration hget
    cases hget
    refine .inr (.inl ⟨fun name hname hinherited => absurd hinherited (hid name hname), .inl fun name hname _ => ?_⟩)
    rw [hnames]
    exact hname
  have hcalls : ∀ call ∈ badgeCalls, call.Plain (fun _ => ()) memberText [badge, family] := by
    intro call hcall
    unfold badgeCalls at hcall
    simp only [List.mem_cons, List.not_mem_nil, or_false] at hcall
    rcases hcall with rfl | rfl | rfl | rfl
    · intro mutation hmutation
      rw [List.mem_singleton.1 hmutation]
      exact hplain _ rfl
    · intro mutation hmutation
      rw [List.mem_singleton.1 hmutation]
      exact hplain _ rfl
    · trivial
    · trivial
  obtain ⟨hid', -⟩ := (reads_back_iff (fun _ => ()) memberText [badge, family] hnew).2 badgeCalls hcalls badge rfl
  exact (hid' _).2 (.inr fun name hname hinherited => absurd hinherited (hid name hname))

/-- A badge written without its constructor reads one back, and a family written without an id
is written. -/
theorem unlisted_constructor : ReadSurface.getCurrent (fun _ => ()) memberText [badge, family]
      (EntityStore.runRetained [badge, family] emptyStore ([ObjectCall.applyBlock ⟨⟨1, 1⟩,
        [.upsert "badge" [("id", some (.text [65]))] [("owner", some (.number 9))], .upsert "family" [] []], none⟩].map
          (ObjectCall.seen (fun _ => ()) memberText [badge, family]))) badge [("id", some (.text [65]))] =
    .ok (some [("id", .text [65]), ("constructor", .other ()), ("owner", .number 9)]) ∧
    ReadSurface.getCurrent (fun _ => ()) memberText [badge, family]
      (EntityStore.runRetained [badge, family] emptyStore ([ObjectCall.applyBlock ⟨⟨1, 1⟩,
        [.upsert "badge" [("id", some (.text [65]))] [("owner", some (.number 9))], .upsert "family" [] []], none⟩].map
          (ObjectCall.seen (fun _ => ()) memberText [badge, family]))) family [] =
    .ok (some [("constructor", .text [102, 117, 110, 99, 116, 105, 111, 110])]) := by
  decide

end Etherfold
