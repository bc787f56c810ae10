import Etherfold.Store.Declaration
import Etherfold.Store.Listed

/-!
# Rows keyed by one text

The stores that keep rows in a map key them by one text: the name of the entity and the texts of
its id columns, joined by a NUL. No name holds a NUL and no accepted text does, so the joined text
splits in one way. An id column is looked up in the id object, and one that the object does not
carry may be found where every object inherits from.

* `entityKey_eq_iff`: **keys are equal** exactly when the entities are and the texts are.
* `refused_iff`, `refusesExactly_iff`: which ids are refused.
-/

namespace Etherfold

/-- Texts without the separator are known from what they are joined to. -/
theorem intercalate_inj {α : Type*} [DecidableEq α] {separator : α} {parts parts' : List (List α)} (hne : parts ≠ [])
    (hne' : parts' ≠ []) (h : ∀ part ∈ parts, separator ∉ part) (h' : ∀ part ∈ parts', separator ∉ part) :
    [separator].intercalate parts = [separator].intercalate parts' ↔ parts = parts' := by
  refine ⟨fun heq => ?_, fun heq => by rw [heq]⟩
  have hsplit := congrArg (List.splitOn separator) heq
  rwa [List.splitOn_intercalate separator h hne, List.splitOn_intercalate separator h' hne'] at hsplit

namespace Flat

variable {X : Type} (inherited : String → X) (string : FieldValue X → Text)

/-- What an id column of the declared names is joined with. -/
def separator : UInt16 := 0

/-- `id?.[column]`. -/
def member (id : Option (JsObject X)) (column : String) : FieldValue X :=
  match id with
  | none => .null
  | some object => (object.members inherited).field column

/-- One id column of an id object. -/
def idValue (entity : String) (id : Option (JsObject X)) (column : String) : Except EntityError Text :=
  match member inherited id column with
  | .null => .error (.requiresIdColumn entity column)
  | value =>
    if separator ∈ string value then .error (.nulInIdColumn entity column (string value)) else .ok (string value)

/-- The texts of the id columns, in declared order. -/
def idValues (entity : NormalizedEntity) (id : Option (JsObject X)) : Except EntityError (List Text) :=
  entity.id.mapM (idValue inherited string entity.name id)

/-- **One text for one row.** -/
def entityKey (entity : NormalizedEntity) (id : Option (JsObject X)) : Except EntityError Text :=
  (idValues inherited string entity id).map fun ids => [separator].intercalate (codeUnits entity.name :: ids)

/-- The string forms of the declared id columns. -/
def columnTexts (entity : NormalizedEntity) (id : Option (JsObject X)) : List Text :=
  entity.id.map fun column => string (member inherited id column)

variable {inherited string}

theorem idValue_ok {entity : String} {id : Option (JsObject X)} {column : String} {text : Text} :
    idValue inherited string entity id column = .ok text ↔
      member inherited id column ≠ .null ∧ separator ∉ string (member inherited id column) ∧
        text = string (member inherited id column) := by
  unfold idValue
  generalize member inherited id column = value
  cases value with
  | null => simp
  | _ =>
    dsimp only
    split
    · rename_i hsep
      simp [hsep]
    · rename_i hsep
      simp [hsep, eq_comm]

/-- What an accepted id answers. -/
theorem idValues_ok {entity : NormalizedEntity} {id : Option (JsObject X)} {ids : List Text} :
    idValues inherited string entity id = .ok ids ↔
      (∀ column ∈ entity.id, member inherited id column ≠ .null ∧ separator ∉ string (member inherited id column)) ∧
        ids = columnTexts inherited string entity id := by
  unfold idValues columnTexts
  rw [mapM_eq_ok]
  simp only [idValue_ok]
  induction entity.id generalizing ids with
  | nil =>
    rw [List.forall₂_nil_left_iff]
    simp
  | cons column columns ih =>
    rw [List.forall₂_cons_left_iff]
    constructor
    · rintro ⟨text, texts, ⟨hnull, hsep, rfl⟩, htexts, rfl⟩
      obtain ⟨hcolumns, rfl⟩ := ih.1 htexts
      refine ⟨fun name hname => ?_, rfl⟩
      rcases List.mem_cons.1 hname with rfl | hname
      · exact ⟨hnull, hsep⟩
      · exact hcolumns name hname
    · rintro ⟨hcolumns, rfl⟩
      obtain ⟨hnull, hsep⟩ := hcolumns column List.mem_cons_self
      exact ⟨_, _, ⟨hnull, hsep, rfl⟩, ih.2 ⟨fun name hname => hcolumns name (List.mem_cons_of_mem _ hname), rfl⟩, rfl⟩

theorem entityKey_ok {entity : NormalizedEntity} {id : Option (JsObject X)} {key : Text} :
    entityKey inherited string entity id = .ok key ↔ ∃ ids, idValues inherited string entity id = .ok ids ∧
      key = [separator].intercalate (codeUnits entity.name :: ids) := by
  unfold entityKey
  cases idValues inherited string entity id with
  | error e => simp [Except.map]
  | ok ids => simp [Except.map, eq_comm]

theorem separator_notMem_name {entity : DeclaredEntity} : separator ∉ codeUnits entity.name := by
  intro hmem
  have hpos := (codeUnits_identifier (entity.identifiers entity.name List.mem_cons_self) _ hmem).1
  exact absurd hpos (by decide)

/-- The parts of a key, none of which holds the separator. -/
theorem separator_notMem_parts {entity : DeclaredEntity} {id : Option (JsObject X)} {ids : List Text}
    (h : idValues inherited string entity.toNormalizedEntity id = .ok ids) :
    ∀ part ∈ codeUnits entity.name :: ids, separator ∉ part := by
  obtain ⟨hcolumns, rfl⟩ := idValues_ok.1 h
  intro part hpart
  rcases List.mem_cons.1 hpart with rfl | hpart
  · exact separator_notMem_name
  · obtain ⟨column, hcolumn, rfl⟩ := List.mem_map.1 hpart
    exact (hcolumns column hcolumn).2

/-- **Keys are equal** exactly when the entities are and the texts of their id columns are. -/
theorem entityKey_eq_iff {declarations : List EntityDeclaration} {entities : List DeclaredEntity}
    (h : normalizeEntities declarations = .ok entities) {entity entity' : DeclaredEntity} (hmem : entity ∈ entities)
    (hmem' : entity' ∈ entities) {id id' : Option (JsObject X)} {key key' : Text}
    (hkey : entityKey inherited string entity.toNormalizedEntity id = .ok key)
    (hkey' : entityKey inherited string entity'.toNormalizedEntity id' = .ok key') :
    key = key' ↔ entity = entity' ∧
      columnTexts inherited string entity.toNormalizedEntity id =
        columnTexts inherited string entity'.toNormalizedEntity id' := by
  obtain ⟨ids, hids, rfl⟩ := entityKey_ok.1 hkey
  obtain ⟨ids', hids', rfl⟩ := entityKey_ok.1 hkey'
  rw [intercalate_inj (by simp) (by simp) (separator_notMem_parts hids) (separator_notMem_parts hids'), List.cons.injEq]
  obtain ⟨-, rfl⟩ := idValues_ok.1 hids
  obtain ⟨-, rfl⟩ := idValues_ok.1 hids'
  refine and_congr_left fun _ => ⟨fun hname => ?_, fun heq => by rw [heq]⟩
  exact eq_of_name h hmem hmem' (codeUnits_injective hname)

/-! ### Which ids are refused -/

/-- The id has no value for a column. -/
def Misses (id : Option (JsObject X)) (column : String) : Prop := ∀ object ∈ id, object.own.field column = .null

/-- The id's value for a column is spelt with the separator. -/
def Separated (string : FieldValue X → Text) (id : Option (JsObject X)) (column : String) : Prop :=
  ∃ object ∈ id, object.own.field column ≠ .null ∧ separator ∈ string (object.own.field column)

/-- The id does not carry a column that every object inherits a member for. -/
def Inherits (id : Option (JsObject X)) (column : String) : Prop :=
  ∃ object ∈ id, column ∈ inheritedMembers ∧ column ∉ object.map (·.1)

/-- An inherited member is a function, whose text is its source. -/
def Native (inherited : String → X) (string : FieldValue X → Text) : Prop :=
  ∀ name ∈ inheritedMembers, separator ∉ string (.other (inherited name))

theorem misses_of_inherits {id : Option (JsObject X)} {column : String} (h : Inherits id column) :
    Misses id column := by
  obtain ⟨object, rfl, -, hnot⟩ := h
  intro object' hobject
  obtain rfl : object = object' := by simpa using hobject
  exact JsObject.field_own_of_notMem hnot

theorem member_eq_own {object : JsObject X} {column : String} (h : ¬Inherits (some object) column) :
    member inherited (some object) column = object.own.field column := by
  unfold member
  by_cases hcarried : column ∈ object.map (·.1)
  · exact JsObject.field_members_of_mem inherited hcarried
  · have hname : column ∉ inheritedMembers := fun hname => h ⟨object, rfl, hname, hcarried⟩
    exact JsObject.field_members_of_notMem hname

theorem member_of_inherits {id : Option (JsObject X)} {column : String} (h : Inherits id column) :
    member inherited id column = .other (inherited column) := by
  obtain ⟨object, rfl, hname, hnot⟩ := h
  exact JsObject.field_members_inherited hnot hname

/-- A column is refused when its own value says so, and nothing stands in for it. -/
theorem column_refused_iff (hnative : Native inherited string) {id : Option (JsObject X)} {column : String} :
    ¬(member inherited id column ≠ .null ∧ separator ∉ string (member inherited id column)) ↔
      (Misses id column ∧ ¬Inherits id column) ∨ Separated string id column := by
  by_cases hinherits : Inherits id column
  · have hname : column ∈ inheritedMembers := by
      obtain ⟨-, -, hname, -⟩ := hinherits
      exact hname
    have hmisses := misses_of_inherits hinherits
    have hclear : ¬Separated string id column := by
      rintro ⟨object, hobject, hne, -⟩
      exact hne (hmisses object hobject)
    rw [member_of_inherits hinherits]
    simp [hinherits, hclear, hnative column hname]
  · cases id with
    | none => simp [member, Misses, Inherits]
    | some object =>
      rw [member_eq_own hinherits]
      by_cases hnull : object.own.field column = .null
      · simp [Misses, hinherits, hnull]
      · simp [Misses, Separated, hinherits, hnull]

/-- **Which ids are refused.** -/
theorem refused_iff (hnative : Native inherited string) {entity : NormalizedEntity} {id : Option (JsObject X)} :
    (∃ e, idValues inherited string entity id = .error e) ↔
      ∃ column ∈ entity.id, (Misses id column ∧ ¬Inherits id column) ∨ Separated string id column := by
  have haccepted : (∃ ids, idValues inherited string entity id = .ok ids) ↔
      ∀ column ∈ entity.id, member inherited id column ≠ .null ∧ separator ∉ string (member inherited id column) := by
    simp only [idValues_ok]
    exact ⟨fun ⟨_, h, _⟩ => h, fun h => ⟨_, h, rfl⟩⟩
  have hrefused : (∃ e, idValues inherited string entity id = .error e) ↔
      ¬∃ ids, idValues inherited string entity id = .ok ids := by
    cases idValues inherited string entity id with
    | error e => simp
    | ok ids => simp
  rw [hrefused, haccepted, not_forall]
  simp only [Classical.not_imp, column_refused_iff hnative]

/-- The ids that miss a declared column, or spell one with the separator, are the ones refused. -/
def RefusesExactly (inherited : String → X) (string : FieldValue X → Text) (entity : NormalizedEntity)
    (id : Option (JsObject X)) : Prop :=
  (∃ e, idValues inherited string entity id = .error e) ↔
    ∃ column ∈ entity.id, Misses id column ∨ Separated string id column

theorem refusesExactly_iff (hnative : Native inherited string) {entity : NormalizedEntity} {id : Option (JsObject X)} :
    RefusesExactly inherited string entity id ↔ (∀ column ∈ entity.id, ¬Inherits id column) ∨
      ∃ column ∈ entity.id, (Misses id column ∧ ¬Inherits id column) ∨ Separated string id column := by
  unfold RefusesExactly
  rw [refused_iff hnative]
  constructor
  · intro h
    by_cases hplain : ∀ column ∈ entity.id, ¬Inherits id column
    · exact .inl hplain
    · -- a column is inherited, so the id misses one
      push Not at hplain
      obtain ⟨column, hcolumn, hinherits⟩ := hplain
      exact .inr (h.2 ⟨column, hcolumn, .inl (misses_of_inherits hinherits)⟩)
  · intro h
    constructor
    · rintro ⟨column, hcolumn, ⟨hmisses, -⟩ | hseparated⟩
      · exact ⟨column, hcolumn, .inl hmisses⟩
      · exact ⟨column, hcolumn, .inr hseparated⟩
    · rintro ⟨column, hcolumn, hmisses | hseparated⟩
      · rcases h with hplain | hrefused
        · exact ⟨column, hcolumn, .inl ⟨hmisses, hplain column hcolumn⟩⟩
        · exact hrefused
      · exact ⟨column, hcolumn, .inr hseparated⟩

/-- **Keys tell rows apart**, and an id is refused exactly when it misses a declared column or
spells one with the separator, unless a column it does not carry is inherited. -/
theorem keys_sound_iff {declarations : List EntityDeclaration} {entities : List DeclaredEntity}
    (h : normalizeEntities declarations = .ok entities) (hnative : Native inherited string) :
    (∀ entity ∈ entities, ∀ entity' ∈ entities, ∀ (id id' : Option (JsObject X)) (key key' : Text),
      entityKey inherited string entity.toNormalizedEntity id = .ok key →
      entityKey inherited string entity'.toNormalizedEntity id' = .ok key' →
      (key = key' ↔ entity = entity' ∧
        columnTexts inherited string entity.toNormalizedEntity id =
          columnTexts inherited string entity'.toNormalizedEntity id')) ∧
    ∀ entity ∈ entities, ∀ id : Option (JsObject X),
      RefusesExactly inherited string entity.toNormalizedEntity id ↔ (∀ column ∈ entity.id, ¬Inherits id column) ∨
        ∃ column ∈ entity.id, (Misses id column ∧ ¬Inherits id column) ∨ Separated string id column := by
  constructor
  · intro entity hmem entity' hmem' id id' key key' hkey hkey'
    exact entityKey_eq_iff h hmem hmem' hkey hkey'
  · intro entity _ id
    exact refusesExactly_iff hnative

/-! ### A declaration with an inherited name -/

/-- The source of an inherited member. -/
def functionSource (name : String) : String := "function " ++ name ++ "() { [native code] }"

/-- The string form of a value, as far as an id holds it. -/
def stringOf : FieldValue String → Text
  | .null => codeUnits "null"
  | .text text => text
  | .number value => codeUnits (toString value)
  | .bigint value => codeUnits (toString value)
  | .bytes _ => codeUnits "[object Uint8Array]"
  | .other source => codeUnits source

def tokenDeclaration : EntityDeclaration := ⟨"token", ["toString"], [("owner", .storage "text")], none⟩

theorem native_functionSource : Native functionSource stringOf := by
  unfold Native
  decide

theorem normalize_token : ∃ entity, normalizeEntities [tokenDeclaration] = .ok [entity] ∧ entity.id = ["toString"] :=
  ⟨_, rfl, rfl⟩

/-- The number and the text `7` name one row, `8` another, and an id that carries its column is refused
where it should be. -/
theorem keys_sound_token : ∃ entity, normalizeEntities [tokenDeclaration] = .ok [entity] ∧
    RefusesExactly functionSource stringOf entity.toNormalizedEntity (some [("toString", some (.text (codeUnits "7")))]) ∧
    ∃ key key', entityKey functionSource stringOf entity.toNormalizedEntity
        (some [("toString", some (.text (codeUnits "7")))]) = .ok key ∧
      entityKey functionSource stringOf entity.toNormalizedEntity (some [("toString", some (.number 7))]) = .ok key ∧
      entityKey functionSource stringOf entity.toNormalizedEntity (some [("toString", some (.number 8))]) = .ok key' ∧
      key ≠ key' := by
  obtain ⟨entity, hentity, hid⟩ := normalize_token
  obtain ⟨hkeys, hrefuses⟩ := @keys_sound_iff String functionSource stringOf _ _ hentity native_functionSource
  refine ⟨entity, hentity, (hrefuses _ List.mem_cons_self _).2 (.inl ?_), ?_⟩
  · rintro column hcolumn ⟨object, hobject, -, hnot⟩
    rw [hid] at hcolumn
    obtain rfl := Option.mem_some_iff.1 hobject
    exact hnot hcolumn
  · cases hentity
    have hseven := hkeys _ List.mem_cons_self _ List.mem_cons_self (some [("toString", some (.text (codeUnits "7")))])
      (some [("toString", some (.number 7))]) _ _ rfl rfl
    have height := hkeys _ List.mem_cons_self _ List.mem_cons_self (some [("toString", some (.text (codeUnits "7")))])
      (some [("toString", some (.number 8))]) _ _ rfl rfl
    exact ⟨_, _, rfl, congrArg _ (hseven.2 ⟨rfl, rfl⟩).symm, rfl, fun heq => absurd (height.1 heq).2 (by decide)⟩

/-- An id that carries nothing is accepted where the id column is `toString`. -/
theorem empty_id_accepted : ¬∀ (declarations : List EntityDeclaration) (entities : List DeclaredEntity),
    normalizeEntities declarations = .ok entities → ∀ entity ∈ entities, ∀ id : Option (JsObject String),
      RefusesExactly functionSource stringOf entity.toNormalizedEntity id := by
  intro hall
  obtain ⟨entity, hentity, hid⟩ := normalize_token
  have hempty := hall _ _ hentity entity List.mem_cons_self (some [])
  have hcolumn : "toString" ∈ entity.id := by simp [hid]
  have hrefused := hempty.2 ⟨_, hcolumn, .inl fun object hobject => by cases hobject; rfl⟩
  obtain ⟨column, hcolumn, ⟨-, hcarried⟩ | ⟨object, hobject, hvalue, -⟩⟩ := (refused_iff native_functionSource).1 hrefused
  · rw [hid, List.mem_singleton] at hcolumn
    subst hcolumn
    exact hcarried ⟨[], rfl, by decide, by simp⟩
  · cases hobject
    exact hvalue rfl

end Flat

end Etherfold
