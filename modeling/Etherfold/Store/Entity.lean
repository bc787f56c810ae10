import Mathlib.Data.List.Basic
import Mathlib.Data.List.Forall2
import Mathlib.Tactic

/-!
# Entities

A declaration names an entity, the columns of its id and its fields. A business key is
the entity and the values of the id columns; a row is the id columns and every declared
field. A value of a semantic field is stored encoded and decoded where it is read.

* `decodeBytes_encodeBytes`: bytes read back as the number they were written from.
* `decode_encode`: **a row reads back as it was written**.
-/

namespace Etherfold

/-- A text, as its UTF-16 code units. -/
abbrev Text := List UInt16

instance Text.lawfulBEq : LawfulBEq Text := inferInstance

instance Text.lawfulBEqOption : LawfulBEq (Option Text) := inferInstance

/-- A value of a column; `X` is whatever no rule of the store looks into. -/
inductive FieldValue (X : Type) where
  | null
  | text (text : Text)
  | number (value : ℤ)
  | bigint (value : ℤ)
  | bytes (bytes : List UInt8)
  | other (value : X)
  deriving DecidableEq, Repr

/-- What a declaration says of a field: a bare storage class, a set of texts, or an unsigned
256-bit number stored as bytes. -/
inductive FieldDeclaration where
  | storage
  | enum (values : List Text)
  | u256
  deriving DecidableEq, Repr

/-- The columns of one row, each at most once. -/
abbrev Record (X : Type) := List (String × FieldValue X)

/-- An id as a caller spells it: columns and the texts of their values. -/
abbrev EntityId := List (String × Text)

/-- A declaration after validation: the id columns and the fields are one namespace, and no
name begins with an underscore. -/
structure NormalizedEntity where
  name : String
  id : List String
  fields : List (String × FieldDeclaration)
  id_ne : id ≠ []
  columns_nodup : (id ++ fields.map (·.1)).Nodup
  unreserved : ∀ column ∈ id ++ fields.map (·.1), column.toList.head? ≠ some '_'

/-- A business key: the entity and the values of its id columns, in declared order. -/
structure EntityKey where
  entity : String
  id : List Text
  deriving DecidableEq, Repr

/-- Why a semantic type refuses a value. -/
inductive SemanticError where
  | notABigint
  | negative (value : ℤ)
  | tooWide (value : ℤ)
  | notCanonical
  deriving DecidableEq, Repr

/-- Why a call is refused, with the names its message carries. -/
inductive EntityError where
  | unknownEntity (name : String) (declared : List String)
  | requiresIdColumn (entity column : String)
  | nulInIdColumn (entity column : String) (text : Text)
  | notInEnum (entity field : String) (allowed : List Text)
  | notAdmitted (entity field : String) (reason : SemanticError)
  | invalidPrefix (entity : String) (id named : List String)
  | invalidLimit (entity : String) (limit : ℤ)
  deriving DecidableEq, Repr

variable {X : Type}

/-- A declared column of a row; one that is absent is null. -/
def Record.field (values : Record X) (field : String) : FieldValue X := (values.lookup field).getD .null

def mustGet (declarations : List NormalizedEntity) (name : String) : Except EntityError NormalizedEntity :=
  match declarations.find? (·.name = name) with
  | some entity => .ok entity
  | none => .error (.unknownEntity name (declarations.map (·.name)))

/-- One id column. A text with a NUL in it is refused, because a NUL joins the parts of a key. -/
def idValue (entity : String) (id : EntityId) (column : String) : Except EntityError Text :=
  match id.lookup column with
  | none => .error (.requiresIdColumn entity column)
  | some text => if 0 ∈ text then .error (.nulInIdColumn entity column text) else .ok text

/-- The business key in declared column order. -/
def idValues (entity : String) (columns : List String) (id : EntityId) : Except EntityError (List Text) :=
  columns.mapM (idValue entity id)

def entityKey (entity : NormalizedEntity) (id : EntityId) : Except EntityError EntityKey :=
  (idValues entity.name entity.id id).map fun ids => ⟨entity.name, ids⟩

theorem mustGet_name {declarations : List NormalizedEntity} {name : String} {entity : NormalizedEntity}
    (h : mustGet declarations name = .ok entity) : entity.name = name := by
  unfold mustGet at h
  split at h
  · rename_i hfind
    cases h
    simpa using List.find?_some hfind
  · cases h

theorem entityKey_ok {entity : NormalizedEntity} {id : EntityId} {key : EntityKey} :
    entityKey entity id = .ok key ↔
      ∃ ids, idValues entity.name entity.id id = .ok ids ∧ key = ⟨entity.name, ids⟩ := by
  unfold entityKey
  cases idValues entity.name entity.id id with
  | error e => exact ⟨fun h => (by cases h), fun h => (by obtain ⟨ids, hids, -⟩ := h; cases hids)⟩
  | ok ids =>
    refine ⟨fun h => (by cases h; exact ⟨ids, rfl, rfl⟩), fun h => ?_⟩
    obtain ⟨ids', hids, rfl⟩ := h
    cases hids
    rfl

/-! ### The u256 encoding -/

/-- `width` bytes, big end first. -/
def encodeBytes : ℕ → ℕ → List UInt8
  | 0, _ => []
  | width + 1, value => encodeBytes width (value / 256) ++ [UInt8.ofNat value]

def decodeBytes (bytes : List UInt8) : ℕ := bytes.foldl (fun value byte => value * 256 + byte.toNat) 0

/-- The bytes of a 256-bit number. -/
abbrev u256Bytes : ℕ := 32

def u256Encode : FieldValue X → Except SemanticError (FieldValue X)
  | .bigint value =>
    if value < 0 then .error (.negative value)
    else if 2 ^ 256 - 1 < value then .error (.tooWide value)
    else .ok (.bytes (encodeBytes u256Bytes value.toNat))
  | _ => .error .notABigint

def u256Decode : FieldValue X → Except SemanticError (FieldValue X)
  | .bytes bytes => if bytes.length = u256Bytes then .ok (.bigint (decodeBytes bytes)) else .error .notCanonical
  | _ => .error .notCanonical

@[simp] theorem length_encodeBytes (width value : ℕ) : (encodeBytes width value).length = width := by
  induction width generalizing value with
  | zero => rfl
  | succ width ih => rw [encodeBytes, List.length_append, ih, List.length_singleton]

/-- Bytes read back as the number they were written from, as far as they are wide enough. -/
theorem decodeBytes_encodeBytes (width value : ℕ) : decodeBytes (encodeBytes width value) = value % 256 ^ width := by
  induction width generalizing value with
  | zero => simp [encodeBytes, decodeBytes, Nat.mod_one]
  | succ width ih =>
    have hfold : decodeBytes (encodeBytes (width + 1) value) =
        decodeBytes (encodeBytes width (value / 256)) * 256 + (UInt8.ofNat value).toNat := by
      unfold decodeBytes
      rw [encodeBytes, List.foldl_append]
      rfl
    have hbyte : (UInt8.ofNat value).toNat = value % 256 := UInt8.toNat_ofNat'
    rw [hfold, ih, hbyte, pow_succ, Nat.mul_comm (256 ^ width), Nat.mod_mul, Nat.mul_comm, Nat.add_comm]

theorem u256Decode_bytes {bytes : List UInt8} (h : bytes.length = u256Bytes) :
    u256Decode (.bytes bytes : FieldValue X) = .ok (.bigint (decodeBytes bytes)) :=
  if_pos h

theorem u256Decode_encode {value stored : FieldValue X} (h : u256Encode value = .ok stored) :
    u256Decode stored = .ok value ∧ stored ≠ .null := by
  cases value with
  | bigint value =>
    unfold u256Encode at h
    dsimp only at h
    split at h
    · cases h
    rename_i hneg
    split at h
    · cases h
    rename_i hwide
    have hlen := length_encodeBytes u256Bytes value.toNat
    have hread := decodeBytes_encodeBytes u256Bytes value.toNat
    have hpow : (256 : ℕ) ^ u256Bytes = 2 ^ 256 := by norm_num
    rw [hpow, Nat.mod_eq_of_lt (by omega)] at hread
    generalize encodeBytes u256Bytes value.toNat = bytes at h hlen hread
    cases h
    rw [u256Decode_bytes hlen, hread, Int.toNat_of_nonneg (by omega)]
    exact ⟨rfl, by simp⟩
  | _ => cases h

/-! ### Writing and reading the fields -/

/-- The texts an enum field may hold. -/
def assertEnum (entity : String) (values : Record X) : String × FieldDeclaration → Except EntityError Unit
  | (field, .enum allowed) =>
    match values.field field with
    | .null => .ok ()
    | .text text => if text ∈ allowed then .ok () else .error (.notInEnum entity field allowed)
    | _ => .error (.notInEnum entity field allowed)
  | _ => .ok ()

/-- The stored form of a field. -/
def encodeField (entity : String) (values : Record X) :
    String × FieldDeclaration → Except EntityError (String × FieldValue X)
  | (field, .u256) =>
    match values.field field with
    | .null => .ok (field, .null)
    | value =>
      match u256Encode value with
      | .ok stored => .ok (field, stored)
      | .error reason => .error (.notAdmitted entity field reason)
  | (field, _) => .ok (field, values.field field)

/-- The declared fields as they are stored; a value no declaration admits is refused. -/
def encodeFieldValues (entity : NormalizedEntity) (values : Record X) : Except EntityError (Record X) := do
  entity.fields.forM (assertEnum entity.name values)
  entity.fields.mapM (encodeField entity.name values)

/-- The value a stored column means. -/
def decodeColumn (entity : NormalizedEntity) (column : String × FieldValue X) :
    Except EntityError (String × FieldValue X) :=
  match entity.fields.lookup column.1 with
  | some .u256 =>
    match column.2 with
    | .null => .ok column
    | stored =>
      match u256Decode stored with
      | .ok value => .ok (column.1, value)
      | .error reason => .error (.notAdmitted entity.name column.1 reason)
  | _ => .ok column

/-- A row as it is read. -/
def decodeFieldValues (entity : NormalizedEntity) (row : Record X) : Except EntityError (Record X) :=
  row.mapM (decodeColumn entity)

/-- The id columns of a row. -/
def idColumns (entity : NormalizedEntity) (id : List Text) : Record X :=
  entity.id.zip (id.map .text)

/-- The complete row an upsert stores. -/
def storedRow (entity : NormalizedEntity) (id : List Text) (stored : Record X) : Record X :=
  idColumns entity id ++ stored

/-- The complete row an upsert means: every declared field, one not listed null. -/
def stagedRow (entity : NormalizedEntity) (id : List Text) (values : Record X) : Record X :=
  idColumns entity id ++ entity.fields.map fun (field, _) => (field, values.field field)

/-- What a sequence of two calls answers. -/
theorem bind_eq_ok {ε α β : Type} {x : Except ε α} {f : α → Except ε β} {r : β} :
    (x >>= f) = .ok r ↔ ∃ a, x = .ok a ∧ f a = .ok r := by
  cases x with
  | error e => exact ⟨fun h => (by cases h), fun h => (by obtain ⟨a, ha, -⟩ := h; cases ha)⟩
  | ok a => exact ⟨fun h => ⟨a, rfl, h⟩, fun h => (by obtain ⟨b, hb, hr⟩ := h; cases hb; exact hr)⟩

theorem map_eq_ok {ε α β : Type} {x : Except ε α} {f : α → β} {r : β} :
    x.map f = .ok r ↔ ∃ a, x = .ok a ∧ f a = r := by
  cases x <;> simp [Except.map]

/-- Naming the error changes no answer. -/
theorem mapError_eq_ok {ε ε' α : Type} {x : Except ε α} {f : ε → ε'} {a : α} : x.mapError f = .ok a ↔ x = .ok a := by
  cases x with
  | error e => exact ⟨fun h => (by cases h), fun h => (by cases h)⟩
  | ok b => exact ⟨fun h => (by cases h; rfl), fun h => (by cases h; rfl)⟩

/-- A call that is accepted item by item answers item by item. -/
theorem mapM_eq_ok {ε α β : Type} {f : α → Except ε β} {l : List α} {r : List β} :
    l.mapM f = .ok r ↔ List.Forall₂ (fun a b => f a = .ok b) l r := by
  induction l generalizing r with
  | nil =>
    rw [List.mapM_nil]
    refine ⟨fun h => (by cases h; exact .nil), fun h => (by cases h; rfl)⟩
  | cons a l ih =>
    rw [List.mapM_cons]
    cases ha : f a with
    | error e =>
      refine ⟨fun h => (by cases h), fun h => ?_⟩
      cases h with
      | cons hab _ => rw [ha] at hab; cases hab
    | ok b =>
      cases hl : l.mapM f with
      | error e =>
        refine ⟨fun h => (by rw [show (Except.ok b >>= fun x => Except.error e >>= fun xs => pure (x :: xs)) =
          (Except.error e : Except ε (List β)) from rfl] at h; cases h), fun h => ?_⟩
        cases h with
        | cons _ htail => rw [ih.2 htail] at hl; cases hl
      | ok bs =>
        have hrest := ih.1 hl
        refine ⟨fun h => ?_, fun h => ?_⟩
        · cases h
          exact .cons ha hrest
        · cases h with
          | cons hab htail =>
            rw [ha] at hab
            rw [ih.2 htail] at hl
            cases hab
            cases hl
            rfl

theorem mapM_congr {ε α β : Type} {f g : α → Except ε β} {l : List α} (h : ∀ a ∈ l, f a = g a) :
    l.mapM f = l.mapM g := by
  induction l with
  | nil => rfl
  | cons a l ih =>
    rw [List.mapM_cons, List.mapM_cons, h a List.mem_cons_self, ih fun b hb => h b (List.mem_cons_of_mem _ hb)]

theorem mapM_eq_some_iff {α β : Type} {f : α → Option β} {values : List α} {images : List β} :
    values.mapM f = some images ↔ List.Forall₂ (fun v image => f v = some image) values images := by
  induction values generalizing images with
  | nil =>
    rw [List.mapM_nil, List.forall₂_nil_left_iff]
    exact Option.some_inj.trans eq_comm
  | cons v values ih =>
    rw [List.mapM_cons, List.forall₂_cons_left_iff]
    constructor
    · intro h
      obtain ⟨image, hv, h⟩ := Option.bind_eq_some_iff.1 h
      obtain ⟨images', hvalues, h⟩ := Option.bind_eq_some_iff.1 h
      injection h with h
      exact ⟨image, images', hv, ih.1 hvalues, h.symm⟩
    · rintro ⟨image, images', hv, hvalues, rfl⟩
      exact Option.bind_eq_some_iff.2 ⟨image, hv, Option.bind_eq_some_iff.2 ⟨images', ih.2 hvalues, rfl⟩⟩

/-- What a list is mapped to comes from something in it. -/
theorem exists_source {α β : Type} {P : α → β → Prop} {values : List α} {images : List β} (h : List.Forall₂ P values images)
    {image : β} (himage : image ∈ images) : ∃ v ∈ values, P v image := by
  induction h with
  | nil => exact absurd himage List.not_mem_nil
  | @cons v first values images hv _ ih =>
    rcases List.mem_cons.1 himage with rfl | himage
    · exact ⟨v, List.mem_cons_self, hv⟩
    · obtain ⟨w, hw, hP⟩ := ih himage
      exact ⟨w, List.mem_cons_of_mem _ hw, hP⟩

theorem mapM_eq_none_iff {α β : Type} {f : α → Option β} {values : List α} :
    values.mapM f = none ↔ ∃ v ∈ values, f v = none := by
  induction values with
  | nil => simp
  | cons v values ih =>
    rw [List.mapM_cons]
    cases hv : f v with
    | none => simp [hv]
    | some image =>
      cases hvalues : values.mapM f with
      | none => simpa [hv, hvalues] using ih
      | some images => simpa [hv, hvalues] using ih

theorem mem_of_mapM_ok {ε α β : Type} {f : α → Except ε β} {l : List α} {r : List β} (h : l.mapM f = .ok r)
    {b : β} (hb : b ∈ r) : ∃ a ∈ l, f a = .ok b :=
  exists_source (mapM_eq_ok.1 h) hb

theorem mapM_append_ok {ε α β : Type} {f : α → Except ε β} {l l' : List α} {r r' : List β}
    (h : l.mapM f = .ok r) (h' : l'.mapM f = .ok r') : (l ++ l').mapM f = .ok (r ++ r') :=
  mapM_eq_ok.2 (List.rel_append (mapM_eq_ok.1 h) (mapM_eq_ok.1 h'))

theorem mapM_ok_self {ε α : Type} {f : α → Except ε α} {l : List α} (h : ∀ a ∈ l, f a = .ok a) :
    l.mapM f = .ok l :=
  mapM_eq_ok.2 (List.forall₂_same.2 h)

theorem lookup_field {entity : NormalizedEntity} {field : String} {declared : FieldDeclaration}
    (h : (field, declared) ∈ entity.fields) : entity.fields.lookup field = some declared := by
  have hnodup : (entity.fields.map (·.1)).Nodup := (List.nodup_append.1 entity.columns_nodup).2.1
  revert h hnodup
  induction entity.fields with
  | nil => intro h; cases h
  | cons head tail ih =>
    intro h hnodup
    rw [List.map_cons, List.nodup_cons] at hnodup
    rcases List.mem_cons.1 h with rfl | htail
    · simp
    · have hne : field ≠ head.1 := fun heq => hnodup.1 (List.mem_map.2 ⟨_, htail, heq⟩)
      rw [List.lookup_cons, beq_false_of_ne hne]
      exact ih htail hnodup.2

/-- A column that is no declared field reads as it is stored. -/
theorem decodeColumn_of_notMem {entity : NormalizedEntity} {column : String × FieldValue X}
    (h : column.1 ∉ entity.fields.map (·.1)) : decodeColumn entity column = .ok column := by
  have hnone : entity.fields.lookup column.1 = none := by
    rw [List.lookup_eq_none_iff]
    intro p hp
    rw [bne_iff_ne]
    intro heq
    exact h (heq ▸ List.mem_map_of_mem hp)
  unfold decodeColumn
  rw [hnone]

theorem decode_encodeField {entity : NormalizedEntity} {values : Record X} {field : String × FieldDeclaration}
    (hfield : field ∈ entity.fields) {stored : String × FieldValue X}
    (h : encodeField entity.name values field = .ok stored) :
    decodeColumn entity stored = .ok (field.1, values.field field.1) := by
  obtain ⟨name, declared⟩ := field
  have hlookup := lookup_field hfield
  cases declared with
  | storage =>
    cases h
    show decodeColumn entity (name, values.field name) = _
    unfold decodeColumn
    rw [hlookup]
  | enum allowed =>
    cases h
    show decodeColumn entity (name, values.field name) = _
    unfold decodeColumn
    rw [hlookup]
  | u256 =>
    unfold encodeField at h
    dsimp only at h ⊢
    generalize values.field name = value at h
    split at h
    · cases h
      unfold decodeColumn
      rw [hlookup]
    · split at h
      · rename_i hencode
        cases h
        obtain ⟨hdecode, hne⟩ := u256Decode_encode hencode
        unfold decodeColumn
        rw [hlookup]
        dsimp only
        split
        · exact absurd rfl hne
        · rw [hdecode]
      · cases h

/-- **A row reads back as it was written**, with any columns behind it that are not the
entity's fields. -/
theorem decode_encode {entity : NormalizedEntity} {values stored extra : Record X} {id : List Text}
    (h : encodeFieldValues entity values = .ok stored)
    (hextra : ∀ column ∈ extra, column.1 ∉ entity.fields.map (·.1)) :
    decodeFieldValues entity (storedRow entity id stored ++ extra) =
      .ok (stagedRow entity id values ++ extra) := by
  have hencode : entity.fields.mapM (encodeField entity.name values) = .ok stored := by
    unfold encodeFieldValues at h
    cases hcheck : entity.fields.forM (assertEnum entity.name values) with
    | error e => rw [hcheck] at h; cases h
    | ok _ => rw [hcheck] at h; exact h
  have hdisjoint := List.nodup_append.1 entity.columns_nodup
  unfold decodeFieldValues storedRow stagedRow
  refine mapM_append_ok (mapM_append_ok ?_ ?_) ?_
  · apply mapM_ok_self
    intro column hcolumn
    apply decodeColumn_of_notMem
    intro hfield
    have hid : column.1 ∈ entity.id := (List.of_mem_zip hcolumn).1
    exact hdisjoint.2.2 _ hid _ hfield rfl
  · rw [mapM_eq_ok, List.forall₂_map_right_iff]
    obtain ⟨hlen, hpairs⟩ := List.forall₂_iff_zip.1 (mapM_eq_ok.1 hencode)
    refine List.Forall₂.flip (List.forall₂_iff_zip.2 ⟨hlen, fun {field column} hzip => ?_⟩)
    exact decode_encodeField (List.of_mem_zip hzip).1 (hpairs hzip)
  · apply mapM_ok_self
    intro column hcolumn
    exact decodeColumn_of_notMem (hextra column hcolumn)

end Etherfold
