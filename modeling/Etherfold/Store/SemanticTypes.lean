import Etherfold.Indexed.Text
import Etherfold.Store.Listed

/-!
# Semantic types

An unsigned 256-bit number is stored as 32 bytes, big end first. The encoder fills the bytes from
the back and stops once nothing is left; the decoder reads them from the front. The fields of a
row are encoded into a copy of the object that was handed over, and decoded into another.

* `U256.encode_eq`, `U256.decode_eq`: the two loops are `u256Encode` and `u256Decode`.
* `U256.compare_encode`: **the order of the bytes is the order of the numbers**.
* `eachSemantic_spec`: what a pass over the semantic fields does to a copy.
* `u256_sound`: bytes are the number, in order, and rows read back as they were written.
-/

namespace Etherfold

variable {X : Type}

/-! ### Bytes and numbers -/

theorem decodeBytes_cons (byte : UInt8) (bytes : List UInt8) :
    decodeBytes (byte :: bytes) = byte.toNat * 256 ^ bytes.length + decodeBytes bytes := by
  have hfold : ∀ (bytes : List UInt8) (start : ℕ), bytes.foldl (fun value byte => value * 256 + byte.toNat) start =
      start * 256 ^ bytes.length + decodeBytes bytes := by
    intro bytes
    induction bytes with
    | nil => simp [decodeBytes]
    | cons first bytes ih =>
      intro start
      unfold decodeBytes
      rw [List.foldl_cons, List.foldl_cons, ih, ih (0 * 256 + first.toNat), List.length_cons, pow_succ]
      ring
  unfold decodeBytes
  rw [List.foldl_cons, hfold]
  unfold decodeBytes
  ring

theorem decodeBytes_lt (bytes : List UInt8) : decodeBytes bytes < 256 ^ bytes.length := by
  induction bytes with
  | nil => simp [decodeBytes]
  | cons byte bytes ih =>
    have hbyte := byte.toNat_lt
    rw [decodeBytes_cons, List.length_cons, pow_succ]
    have hle : (byte.toNat + 1) * 256 ^ bytes.length ≤ 256 * 256 ^ bytes.length :=
      Nat.mul_le_mul_right _ (by omega)
    rw [Nat.add_mul] at hle
    omega

/-- **Bytes are what their number is written as.** -/
theorem encodeBytes_decodeBytes (bytes : List UInt8) : encodeBytes bytes.length (decodeBytes bytes) = bytes := by
  induction bytes using List.reverseRecOn with
  | nil => rfl
  | append_singleton bytes byte ih =>
    have hread : decodeBytes (bytes ++ [byte]) = decodeBytes bytes * 256 + byte.toNat := by
      unfold decodeBytes
      rw [List.foldl_append]
      rfl
    have hbyte := byte.toNat_lt
    have hdiv : (decodeBytes bytes * 256 + byte.toNat) / 256 = decodeBytes bytes := by omega
    have hlast : UInt8.ofNat (decodeBytes bytes * 256 + byte.toNat) = byte := by
      apply UInt8.toNat_inj.1
      rw [UInt8.toNat_ofNat']
      omega
    rw [List.length_append, List.length_singleton, encodeBytes, hread, hdiv, ih, hlast]

/-- **Bytes of one width are ordered as their numbers are.** -/
theorem compareBytes_sign {bytes bytes' : List UInt8} (h : bytes.length = bytes'.length) :
    (compareBytes bytes bytes').sign = ((decodeBytes bytes : ℤ) - decodeBytes bytes').sign := by
  induction bytes generalizing bytes' with
  | nil =>
    obtain rfl : bytes' = [] := List.length_eq_zero_iff.1 h.symm
    rfl
  | cons byte bytes ih =>
    cases bytes' with
    | nil => simp at h
    | cons byte' bytes' =>
      have hlen : bytes.length = bytes'.length := by simpa using h
      have hlt := decodeBytes_lt bytes
      have hlt' := decodeBytes_lt bytes'
      rw [decodeBytes_cons, decodeBytes_cons]
      rw [hlen] at hlt ⊢
      unfold compareBytes Lex.compare
      split
      · rename_i heq
        have hbyte : byte.toNat = byte'.toNat := by omega
        rw [hbyte]
        have hrest := ih hlen
        unfold compareBytes at hrest
        rw [hrest]
        congr 1
        push_cast
        ring
      · rename_i hne
        -- the first byte that differs outweighs all that follow
        rcases Int.lt_or_gt_of_ne hne with hbelow | habove
        · have hstep : (byte.toNat + 1) * 256 ^ bytes'.length ≤ byte'.toNat * 256 ^ bytes'.length :=
            Nat.mul_le_mul_right _ (by omega)
          rw [Nat.add_mul] at hstep
          rw [Int.sign_eq_neg_one_of_neg hbelow, Int.sign_eq_neg_one_of_neg]
          omega
        · have hstep : (byte'.toNat + 1) * 256 ^ bytes'.length ≤ byte.toNat * 256 ^ bytes'.length :=
            Nat.mul_le_mul_right _ (by omega)
          rw [Nat.add_mul] at hstep
          rw [Int.sign_eq_one_of_pos habove, Int.sign_eq_one_of_pos]
          omega

/-! ### The registry's one type -/

namespace U256

/-- The bytes below `index`, from the back, until the rest is zero. -/
def fill : ℕ → ℕ → List UInt8 → List UInt8
  | 0, _, bytes => bytes
  | index + 1, rest, bytes =>
    if 0 < rest then fill index (rest >>> 8) (bytes.set index (UInt8.ofNat (rest &&& 0xff))) else bytes

def encode : FieldValue X → Except SemanticError (FieldValue X)
  | .bigint value =>
    if value < 0 then .error (.negative value)
    else if 2 ^ 256 - 1 < value then .error (.tooWide value)
    else .ok (.bytes (fill u256Bytes value.toNat (List.replicate u256Bytes 0)))
  | _ => .error .notABigint

def decode : FieldValue X → Except SemanticError (FieldValue X)
  | .bytes bytes =>
    if bytes.length = u256Bytes then .ok (.bigint (bytes.foldl (fun value byte => (value <<< 8) ||| byte.toNat) 0 : ℕ))
    else .error .notCanonical
  | _ => .error .notCanonical

theorem encodeBytes_zero (width : ℕ) : encodeBytes width 0 = List.replicate width 0 := by
  induction width with
  | zero => rfl
  | succ width ih =>
    rw [encodeBytes, Nat.zero_div, ih, List.replicate_succ']
    rfl

/-- The loop writes the low bytes of the rest, and stopping early leaves zeros. -/
theorem fill_eq (index rest : ℕ) (behind : List UInt8) :
    fill index rest (List.replicate index 0 ++ behind) = encodeBytes index rest ++ behind := by
  induction index generalizing rest behind with
  | zero => rfl
  | succ index ih =>
    unfold fill
    split
    · have hset : (List.replicate (index + 1) (0 : UInt8) ++ behind).set index (UInt8.ofNat (rest &&& 0xff)) =
          List.replicate index 0 ++ UInt8.ofNat rest :: behind := by
        have hbyte : UInt8.ofNat (rest &&& 0xff) = UInt8.ofNat rest := by
          apply UInt8.toNat_inj.1
          rw [UInt8.toNat_ofNat', UInt8.toNat_ofNat', show 0xff = 2 ^ 8 - 1 from rfl, Nat.and_two_pow_sub_one_eq_mod]
          omega
        rw [hbyte, List.replicate_succ', List.append_assoc, List.set_append_right _ _ (by simp)]
        simp
      rw [hset, ih, Nat.shiftRight_eq_div_pow, encodeBytes, List.append_assoc]
      rfl
    · obtain rfl : rest = 0 := by omega
      rw [encodeBytes_zero]

theorem read_eq (bytes : List UInt8) :
    bytes.foldl (fun value byte => (value <<< 8) ||| byte.toNat) 0 = decodeBytes bytes := by
  have hstep : (fun (value : ℕ) (byte : UInt8) => (value <<< 8) ||| byte.toNat) =
      fun value byte => value * 256 + byte.toNat := by
    funext value byte
    rw [← Nat.shiftLeft_add_eq_or_of_lt byte.toNat_lt, Nat.shiftLeft_eq]
  rw [hstep]
  rfl

theorem encode_eq : (encode : FieldValue X → _) = u256Encode := by
  funext value
  cases value with
  | bigint value =>
    have hfill := fill_eq u256Bytes value.toNat []
    rw [List.append_nil, List.append_nil] at hfill
    unfold encode u256Encode
    dsimp only
    rw [hfill]
  | _ => rfl

theorem decode_eq : (decode : FieldValue X → _) = u256Decode := by
  funext value
  cases value with
  | bytes bytes =>
    unfold decode u256Decode
    dsimp only
    rw [read_eq]
  | _ => rfl

/-- What is encoded: a number of 256 bits. -/
theorem encode_ok {value : ℤ} {stored : FieldValue X} :
    encode (.bigint value) = .ok stored ↔
      (0 ≤ value ∧ value < 2 ^ 256) ∧ stored = .bytes (encodeBytes u256Bytes value.toNat) := by
  rw [encode_eq]
  unfold u256Encode
  dsimp only
  split
  · simp; omega
  split
  · simp; omega
  · rw [Except.ok.injEq]
    exact ⟨fun h => ⟨⟨by omega, by omega⟩, h.symm⟩, fun h => h.2.symm⟩

theorem decodeBytes_encode {value : ℤ} (h : 0 ≤ value ∧ value < 2 ^ 256) :
    (decodeBytes (encodeBytes u256Bytes value.toNat) : ℤ) = value := by
  have hpow : (256 : ℕ) ^ u256Bytes = 2 ^ 256 := by norm_num
  rw [decodeBytes_encodeBytes, hpow, Nat.mod_eq_of_lt (by omega)]
  omega

/-- **The order of the bytes is the order of the numbers.** -/
theorem compare_encode {a b : ℤ} (ha : 0 ≤ a ∧ a < 2 ^ 256) (hb : 0 ≤ b ∧ b < 2 ^ 256) :
    (compareBytes (encodeBytes u256Bytes a.toNat) (encodeBytes u256Bytes b.toNat)).sign = (a - b).sign := by
  rw [compareBytes_sign (by rw [length_encodeBytes, length_encodeBytes]), decodeBytes_encode ha, decodeBytes_encode hb]

/-- **Thirty-two bytes are the encoding of their number.** -/
theorem encode_decode {bytes : List UInt8} (h : bytes.length = u256Bytes) :
    ∃ value : ℤ, decode (.bytes bytes : FieldValue X) = .ok (.bigint value) ∧
      encode (.bigint value : FieldValue X) = .ok (.bytes bytes) := by
  have hlt := decodeBytes_lt bytes
  have hpow : (256 : ℕ) ^ u256Bytes = 2 ^ 256 := by norm_num
  have hback := encodeBytes_decodeBytes bytes
  rw [h, hpow] at hlt
  rw [h] at hback
  refine ⟨decodeBytes bytes, by rw [decode_eq, u256Decode_bytes h], encode_ok.2 ⟨⟨by omega, by omega⟩, ?_⟩⟩
  rw [Int.toNat_natCast, hback]

end U256

/-! ### Objects -/

namespace JsObject

/-- `object[name] = value`, where the member was or behind the others. -/
def assign : JsObject X → String → FieldValue X → JsObject X
  | [], name, value => [(name, some value)]
  | member :: rest, name, value =>
    if member.1 = name then (name, some value) :: rest else member :: assign rest name value

theorem lookup_assign (object : JsObject X) (name other : String) (value : FieldValue X) :
    (object.assign name value).lookup other = if other = name then some (some value) else object.lookup other := by
  induction object with
  | nil =>
    unfold assign
    by_cases h : other = name
    · simp [h]
    · rw [List.lookup_cons, beq_false_of_ne h, if_neg h]
  | cons member rest ih =>
    unfold assign
    by_cases hmember : member.1 = name
    · rw [if_pos hmember, List.lookup_cons, List.lookup_cons, hmember]
      by_cases h : other = name
      · simp [h]
      · rw [beq_false_of_ne h, if_neg h]
    · rw [if_neg hmember, List.lookup_cons, List.lookup_cons, ih]
      by_cases h : other = member.1
      · have hne : other ≠ name := fun heq => hmember (h.symm.trans heq)
        simp [h, hmember]
      · rw [beq_false_of_ne h]

theorem lookup_own (object : JsObject X) (name : String) :
    object.own.lookup name = (object.lookup name).map (·.getD .null) := by
  unfold own
  induction object with
  | nil => rfl
  | cons member rest ih =>
    rw [List.map_cons, List.lookup_cons, List.lookup_cons]
    by_cases heq : name = member.1
    · simp [heq]
    · rw [beq_false_of_ne heq]
      exact ih

/-- **What `object[name]` is**: the object's own member, else an inherited one, else undefined. -/
theorem field_members (inherited : String → X) (object : JsObject X) (name : String) :
    (object.members inherited).field name = match object.lookup name with
      | some value => value.getD .null
      | none => if name ∈ inheritedMembers then .other (inherited name) else .null := by
  have hkeys : object.own.lookup name = none ↔ name ∉ object.map (·.1) := lookup_own_eq_none
  rw [lookup_own, Option.map_eq_none_iff] at hkeys
  cases hlookup : object.lookup name with
  | some value =>
    have hmem : name ∈ object.map (·.1) := by
      by_contra hnot
      rw [hkeys.2 hnot] at hlookup
      cases hlookup
    rw [field_members_of_mem inherited hmem]
    unfold Record.field
    rw [lookup_own, hlookup]
    rfl
  | none =>
    have hnot := hkeys.1 hlookup
    dsimp only
    split
    · rename_i hname
      exact field_members_inherited hnot hname
    · rename_i hname
      rw [field_members_of_notMem hname, field_own_of_notMem hnot]

/-- A value no object inherits is a member of the object's own. -/
theorem lookup_of_field {inherited : String → X} {object : JsObject X} {name : String} {value : FieldValue X}
    (hnull : value ≠ .null) (hother : ∀ x, value ≠ .other x) (h : (object.members inherited).field name = value) :
    object.lookup name = some (some value) := by
  rw [field_members] at h
  cases hlookup : object.lookup name with
  | none =>
    rw [hlookup] at h
    dsimp only at h
    split at h
    · exact absurd h.symm (hother _)
    · exact absurd h.symm hnull
  | some member =>
    rw [hlookup] at h
    cases member with
    | none => exact absurd h.symm hnull
    | some held =>
      obtain rfl : held = value := h
      rfl

end JsObject

/-- The plain objects there are, by address. -/
abbrev Objects (X : Type) := List (JsObject X)

namespace Objects

/-- `object[name]` of the object at an address. -/
def look (inherited : String → X) (objects : Objects X) (address : ℕ) (name : String) : FieldValue X :=
  ((objects[address]?.getD []).members inherited).field name

def assign (objects : Objects X) (address : ℕ) (name : String) (value : FieldValue X) : Objects X :=
  objects.modify address fun object => object.assign name value

/-- A new object with the own members of another, and its address. -/
def copy (objects : Objects X) (address : ℕ) : Objects X × ℕ :=
  (objects ++ [objects[address]?.getD []], objects.length)

end Objects

/-! ### Encoding and decoding the fields -/

/-- The fields whose type is not their storage class alone. -/
def semanticFieldsOf (entity : NormalizedEntity) : List String :=
  entity.fields.filterMap fun field => if field.2 = .u256 then some field.1 else none

/-- One field's value, converted and put in the copy. Null and what is not listed stay as they are. -/
def convertInto {ε : Type} (convert : String → FieldValue X → Except ε (FieldValue X)) (address : ℕ)
    (objects : Objects X) (field : String) : FieldValue X → Except ε (Objects X)
  | .null => .ok objects
  | value => (convert field value).map (objects.assign address field)

/-- A pass over the semantic fields. -/
def eachSemantic {ε : Type} (read : Objects X → String → FieldValue X)
    (convert : String → FieldValue X → Except ε (FieldValue X)) (address : ℕ) (fields : List String)
    (objects : Objects X) : Except ε (Objects X) :=
  fields.foldlM (fun objects field => convertInto convert address objects field (read objects field)) objects

namespace Objects

/-- The values an upsert stores, in a copy of the object that was handed over. The error of a
semantic type is named after the field. -/
def encodeFieldValues (inherited : String → X) (entity : NormalizedEntity) (objects : Objects X) (values : ℕ) :
    Except EntityError (Objects X × ℕ) := do
  entity.fields.forM (assertEnum entity.name ((objects[values]?.getD []).members inherited))
  if semanticFieldsOf entity = [] then return (objects, values)
  else
    let (copied, stored) := objects.copy values
    let encoded ← eachSemantic (fun objects => objects.look inherited values)
      (fun field value => (U256.encode value).mapError (.notAdmitted entity.name field)) stored
      (semanticFieldsOf entity) copied
    return (encoded, stored)

/-- Bytes, in whatever wrapper a driver hands them back. -/
def asBytes (view : X → Option (List UInt8)) : FieldValue X → FieldValue X
  | .other value => match view value with
    | some bytes => .bytes bytes
    | none => .other value
  | value => value

/-- A row as it is read, in a copy of the object the storage handed over. -/
def decodeFieldValues (inherited : String → X) (view : X → Option (List UInt8)) (entity : NormalizedEntity)
    (objects : Objects X) (row : ℕ) : Except SemanticError (Objects X × ℕ) :=
  if semanticFieldsOf entity = [] then .ok (objects, row)
  else
    let (copied, decoded) := objects.copy row
    (eachSemantic (fun objects => objects.look inherited row) (fun _ value => U256.decode (asBytes view value)) decoded
      (semanticFieldsOf entity) copied).map fun objects => (objects, decoded)

end Objects

theorem nodup_semanticFieldsOf (entity : NormalizedEntity) : (semanticFieldsOf entity).Nodup := by
  have hnodup : (entity.fields.map (·.1)).Nodup := (List.nodup_append.1 entity.columns_nodup).2.1
  refine hnodup.sublist ?_
  unfold semanticFieldsOf
  induction entity.fields with
  | nil => simp
  | cons field fields ih =>
    rw [List.map_cons]
    by_cases hfield : field.2 = .u256
    · rw [List.filterMap_cons_some (b := field.1) (by simp [hfield])]
      exact ih.cons_cons _
    · rw [List.filterMap_cons_none (by simp [hfield])]
      exact ih.cons _

/-- What a pass leaves in the copy: a field the source holds as null is as it was, another one is
converted, and no other member is touched. -/
structure Converted {ε : Type} (read : String → FieldValue X) (convert : String → FieldValue X → Except ε (FieldValue X))
    (fields : List String) (before behind : JsObject X) : Prop where
  field : ∀ field ∈ fields, (read field = .null ∧ behind.lookup field = before.lookup field) ∨
    read field ≠ .null ∧ ∃ value, convert field (read field) = .ok value ∧ behind.lookup field = some (some value)
  other : ∀ name ∉ fields, behind.lookup name = before.lookup name

section Pass

variable {ε : Type} {convert : String → FieldValue X → Except ε (FieldValue X)} {objects : Objects X}
  {read : Objects X → String → FieldValue X} {source : String → FieldValue X}

theorem assign_last (objects : Objects X) (object : JsObject X) (name : String) (value : FieldValue X) :
    (objects ++ [object]).assign objects.length name value = objects ++ [object.assign name value] := by
  unfold Objects.assign
  apply List.ext_getElem?
  intro n
  rw [List.getElem?_modify]
  by_cases hn : n < objects.length
  · have hne : objects.length ≠ n := by omega
    rw [List.getElem?_append_left hn, List.getElem?_append_left hn]
    simp [hne]
  · rw [List.getElem?_append_right (by omega), List.getElem?_append_right (by omega)]
    by_cases heq : objects.length = n
    · simp [heq]
    · have hnone : ∀ object : JsObject X, ([object] : List (JsObject X))[n - objects.length]? = none := by
        intro object
        apply List.getElem?_eq_none
        simp
        omega
      rw [hnone, hnone]
      rfl

theorem convertInto_of_ne (address : ℕ) (objects : Objects X) (field : String) {value : FieldValue X}
    (h : value ≠ .null) :
    convertInto convert address objects field value = (convert field value).map (objects.assign address field) := by
  cases value with
  | null => exact absurd rfl h
  | _ => rfl

/-- **A pass touches the copy only**, and there the semantic fields only. -/
theorem eachSemantic_spec {fields : List String} {object : JsObject X} (hnodup : fields.Nodup)
    (hread : ∀ object, read (objects ++ [object]) = source) {objects' : Objects X}
    (h : eachSemantic read convert objects.length fields (objects ++ [object]) = .ok objects') :
    ∃ object', objects' = objects ++ [object'] ∧ Converted source convert fields object object' := by
  unfold eachSemantic at h
  induction fields generalizing object with
  | nil =>
    cases h
    exact ⟨object, rfl, by simp, fun _ _ => rfl⟩
  | cons field fields ih =>
    rw [List.nodup_cons] at hnodup
    rw [List.foldlM_cons] at h
    obtain ⟨next, hnext, hrest⟩ := bind_eq_ok.1 h
    rw [hread] at hnext
    have hstep : ∃ object₁, next = objects ++ [object₁] ∧ Converted source convert [field] object object₁ := by
      by_cases hnull : source field = .null
      · rw [hnull] at hnext
        cases hnext
        exact ⟨object, rfl, by simp [hnull], fun _ _ => rfl⟩
      · rw [convertInto_of_ne _ _ _ hnull] at hnext
        cases hvalue : convert field (source field) with
        | error e => rw [hvalue] at hnext; cases hnext
        | ok value =>
          rw [hvalue] at hnext
          cases hnext
          refine ⟨_, assign_last objects object field value, ?_, ?_⟩
          · intro name hname
            obtain rfl := List.mem_singleton.1 hname
            exact .inr ⟨hnull, value, hvalue, by rw [JsObject.lookup_assign, if_pos rfl]⟩
          · intro name hname
            rw [JsObject.lookup_assign, if_neg (by simpa using hname)]
    obtain ⟨object₁, rfl, hfield⟩ := hstep
    obtain ⟨object', rfl, hfields⟩ := ih hnodup.2 hrest
    refine ⟨object', rfl, ?_, ?_⟩
    · intro name hname
      rcases List.mem_cons.1 hname with heq | hname
      · rw [hfields.other name (heq ▸ hnodup.1)]
        exact hfield.field name (heq ▸ List.mem_cons_self)
      · have hne : name ≠ field := fun heq => hnodup.1 (heq ▸ hname)
        rw [← hfield.other name (by simpa using hne)]
        exact hfields.field name hname
    · intro name hname
      rw [List.mem_cons, not_or] at hname
      rw [hfields.other name hname.2, hfield.other name (by simpa using hname.1)]

/-- A pass goes through when every value it meets converts. -/
theorem eachSemantic_ok {fields : List String} {object : JsObject X}
    (hread : ∀ object, read (objects ++ [object]) = source)
    (h : ∀ field ∈ fields, source field = .null ∨ ∃ value, convert field (source field) = .ok value) :
    ∃ objects', eachSemantic read convert objects.length fields (objects ++ [object]) = .ok objects' := by
  unfold eachSemantic
  induction fields generalizing object with
  | nil => exact ⟨_, rfl⟩
  | cons field fields ih =>
    rw [List.foldlM_cons, hread]
    have hrest := fun object => @ih object fun name hname => h name (List.mem_cons_of_mem _ hname)
    by_cases hnull : source field = .null
    · rw [hnull]
      exact hrest object
    · obtain ⟨value, hvalue⟩ := (h field List.mem_cons_self).resolve_left hnull
      rw [convertInto_of_ne _ _ _ hnull, hvalue]
      show ∃ objects', fields.foldlM _ ((objects ++ [object]).assign objects.length field value) = _
      rw [assign_last]
      exact hrest _

end Pass

/-! ### Rows -/

section Rows

variable {inherited : String → X} {view : X → Option (List UInt8)} {entity : NormalizedEntity}
  {objects objects' : Objects X} {source address : ℕ} {object : JsObject X}

/-- What a call leaves: every object there was is as it was, and at the address it answers stands
the object's copy, its semantic fields converted. -/
structure Copies {ε : Type} (inherited : String → X) (convert : String → FieldValue X → Except ε (FieldValue X))
    (entity : NormalizedEntity) (objects : Objects X) (object : JsObject X) (objects' : Objects X) (address : ℕ) :
    Prop where
  kept : ∀ a < objects.length, objects'[a]? = objects[a]?
  copied : ∃ object', objects'[address]? = some object' ∧
    Converted (fun field => (object.members inherited).field field) convert (semanticFieldsOf entity) object object'

theorem look_append (hobject : objects[source]? = some object) (copy : JsObject X) :
    (fun name => Objects.look inherited (objects ++ [copy]) source name) =
      fun name => (object.members inherited).field name := by
  have hlt : source < objects.length := (List.getElem?_eq_some_iff.1 hobject).1
  funext name
  unfold Objects.look
  rw [List.getElem?_append_left hlt, hobject]
  rfl

/-- A pass over a copy of an object. -/
theorem copies_of_pass {ε : Type} {convert : String → FieldValue X → Except ε (FieldValue X)}
    (hobject : objects[source]? = some object)
    (h : eachSemantic (fun objects => objects.look inherited source) convert objects.length (semanticFieldsOf entity)
      (objects ++ [object]) = .ok objects') :
    Copies inherited convert entity objects object objects' objects.length := by
  obtain ⟨object', rfl, hconverted⟩ := eachSemantic_spec (nodup_semanticFieldsOf entity) (look_append hobject) h
  exact ⟨fun a ha => List.getElem?_append_left ha, object', List.getElem?_concat_length, hconverted⟩

theorem copies_self {ε : Type} {convert : String → FieldValue X → Except ε (FieldValue X)}
    (hfields : semanticFieldsOf entity = []) (hobject : objects[source]? = some object) :
    Copies inherited convert entity objects object objects source :=
  ⟨fun _ _ => rfl, object, hobject, by simp [hfields], fun _ _ => rfl⟩

theorem encodeFieldValues_copies (hobject : objects[source]? = some object)
    (h : objects.encodeFieldValues inherited entity source = .ok (objects', address)) :
    Copies inherited (fun _ => U256.encode) entity objects object objects' address := by
  unfold Objects.encodeFieldValues at h
  obtain ⟨⟨⟩, -, h⟩ := bind_eq_ok.1 h
  split at h
  · rename_i hfields
    cases h
    exact copies_self hfields hobject
  · rw [Objects.copy, hobject] at h
    obtain ⟨encoded, hencoded, h⟩ := bind_eq_ok.1 h
    cases h
    have hcopies := copies_of_pass hobject hencoded
    refine ⟨hcopies.kept, ?_⟩
    obtain ⟨object', hobject', hconverted⟩ := hcopies.copied
    refine ⟨object', hobject', fun field hfield => ?_, hconverted.other⟩
    simpa only [mapError_eq_ok] using hconverted.field field hfield

theorem decodeFieldValues_copies (hobject : objects[source]? = some object)
    (hdecodes : ∀ field ∈ semanticFieldsOf entity, (object.members inherited).field field = .null ∨
      ∃ value, U256.decode (Objects.asBytes view ((object.members inherited).field field)) = .ok value) :
    ∃ objects' address, objects.decodeFieldValues inherited view entity source = .ok (objects', address) ∧
      Copies inherited (fun _ value => U256.decode (Objects.asBytes view value)) entity objects object objects' address := by
  unfold Objects.decodeFieldValues
  split
  · rename_i hfields
    exact ⟨objects, source, rfl, copies_self hfields hobject⟩
  · have hgoes : ∃ objects', eachSemantic (fun objects => objects.look inherited source)
        (fun _ value => U256.decode (Objects.asBytes view value)) objects.length (semanticFieldsOf entity)
        (objects ++ [object]) = .ok objects' :=
      eachSemantic_ok (look_append hobject) hdecodes
    obtain ⟨objects', hpass⟩ := hgoes
    rw [Objects.copy, hobject]
    refine ⟨objects', objects.length, ?_, copies_of_pass hobject hpass⟩
    show (eachSemantic _ _ _ _ (objects ++ [object])).map _ = _
    rw [hpass]
    rfl

/-- What is encoded is a number, and reads back. -/
theorem encode_cases {value stored : FieldValue X} (h : U256.encode value = .ok stored) :
    (∃ number, value = .bigint number) ∧ (∃ bytes, stored = .bytes bytes) ∧ U256.decode stored = .ok value := by
  have hdecode : U256.decode stored = .ok value := by
    rw [U256.encode_eq] at h
    rw [U256.decode_eq]
    exact (u256Decode_encode h).1
  cases value with
  | bigint number => exact ⟨⟨number, rfl⟩, ⟨_, (U256.encode_ok.1 h).2⟩, hdecode⟩
  | _ => cases h

/-- A field of the stored copy: null or not listed where it was so, else the bytes of the number
the caller's object holds. -/
theorem stored_field {stored : JsObject X}
    (h : Converted (fun field => (object.members inherited).field field) (fun _ => U256.encode)
      (semanticFieldsOf entity) object stored) {field : String} (hfield : field ∈ semanticFieldsOf entity) :
    ((object.members inherited).field field = .null ∧ stored.lookup field = object.lookup field) ∨
      ∃ number bytes, object.lookup field = some (some (.bigint number)) ∧
        stored.lookup field = some (some (.bytes bytes)) ∧
        U256.decode (.bytes bytes : FieldValue X) = .ok (.bigint number) := by
  rcases h.field field hfield with hnull | ⟨hne, value, hvalue, hstored⟩
  · exact .inl hnull
  · obtain ⟨⟨number, hnumber⟩, ⟨bytes, rfl⟩, hdecode⟩ := encode_cases hvalue
    have hown := JsObject.lookup_of_field hne (by simp [hnumber]) rfl
    rw [hnumber] at hown hdecode
    exact .inr ⟨number, bytes, hown, hstored, hdecode⟩

/-- A row that holds what was stored, in whatever wrapper, reads as what was written. -/
theorem reads_row {objects₁ : Objects X} {row : ℕ} {rowObject stored : JsObject X}
    (hencoded : Converted (fun field => (object.members inherited).field field) (fun _ => U256.encode)
      (semanticFieldsOf entity) object stored) (hrow : objects₁[row]? = some rowObject)
    (hholds : ∀ field ∈ semanticFieldsOf entity,
      Objects.asBytes view ((rowObject.members inherited).field field) = (stored.members inherited).field field) :
    ∃ objects₂ address decoded, objects₁.decodeFieldValues inherited view entity row = .ok (objects₂, address) ∧
      (∀ a < objects₁.length, objects₂[a]? = objects₁[a]?) ∧ objects₂[address]? = some decoded ∧
      (∀ field ∈ semanticFieldsOf entity,
        (decoded.members inherited).field field = (object.members inherited).field field) ∧
      ∀ name ∉ semanticFieldsOf entity, decoded.lookup name = rowObject.lookup name := by
  have hfield : ∀ field ∈ semanticFieldsOf entity,
      ((rowObject.members inherited).field field = .null ∧ (object.members inherited).field field = .null) ∨
      (rowObject.members inherited).field field ≠ .null ∧
        U256.decode (Objects.asBytes view ((rowObject.members inherited).field field)) =
          .ok ((object.members inherited).field field) := by
    intro field hmem
    have hheld := hholds field hmem
    rcases stored_field hencoded hmem with ⟨hnull, hlookup⟩ | ⟨number, bytes, hown, hbytes, hdecode⟩
    · left
      rw [JsObject.field_members inherited stored, hlookup, ← JsObject.field_members, hnull] at hheld
      refine ⟨?_, hnull⟩
      revert hheld
      generalize (rowObject.members inherited).field field = value
      cases value with
      | other x =>
        unfold Objects.asBytes
        cases hview : view x <;> simp [hview]
      | _ => simp [Objects.asBytes]
    · right
      rw [JsObject.field_members inherited stored, hbytes] at hheld
      rw [JsObject.field_members inherited object, hown, hheld]
      refine ⟨?_, hdecode⟩
      intro hnull
      rw [hnull] at hheld
      cases hheld
  have hdecodes : ∀ field ∈ semanticFieldsOf entity, (rowObject.members inherited).field field = .null ∨
      ∃ value, U256.decode (Objects.asBytes view ((rowObject.members inherited).field field)) = .ok value :=
    fun field hmem => (hfield field hmem).imp (·.1) fun h => ⟨_, h.2⟩
  obtain ⟨objects₂, address, hdecode, hkept, decoded, hdecoded, hconverted⟩ := decodeFieldValues_copies hrow hdecodes
  refine ⟨objects₂, address, decoded, hdecode, hkept, hdecoded, fun field hmem => ?_, hconverted.other⟩
  rcases hconverted.field field hmem with ⟨hnull, hlookup⟩ | ⟨hne, value, hvalue, hlookup⟩
  · rcases hfield field hmem with ⟨-, hwritten⟩ | ⟨hne, -⟩
    · rw [JsObject.field_members inherited decoded, hlookup, ← JsObject.field_members, hnull, hwritten]
    · exact absurd hnull hne
  · rcases hfield field hmem with ⟨hnull, -⟩ | ⟨-, hread⟩
    · exact absurd hnull hne
    · rw [hread] at hvalue
      cases hvalue
      rw [JsObject.field_members inherited decoded, hlookup]
      rfl

/-- The stored copy itself reads as the object that was handed over, member for member. -/
theorem reads_stored {objects₁ : Objects X} {row : ℕ} {stored : JsObject X}
    (hencoded : Converted (fun field => (object.members inherited).field field) (fun _ => U256.encode)
      (semanticFieldsOf entity) object stored) (hrow : objects₁[row]? = some stored) :
    ∃ objects₂ address decoded, objects₁.decodeFieldValues inherited view entity row = .ok (objects₂, address) ∧
      (∀ a < objects₁.length, objects₂[a]? = objects₁[a]?) ∧ objects₂[address]? = some decoded ∧
      ∀ name, decoded.lookup name = object.lookup name := by
  have hdecodes : ∀ field ∈ semanticFieldsOf entity, (stored.members inherited).field field = .null ∨
      ∃ value, U256.decode (Objects.asBytes view ((stored.members inherited).field field)) = .ok value := by
    intro field hmem
    rcases stored_field hencoded hmem with ⟨hnull, hlookup⟩ | ⟨number, bytes, -, hbytes, hdecode⟩
    · left
      rw [JsObject.field_members, hlookup, ← JsObject.field_members, hnull]
    · right
      rw [JsObject.field_members, hbytes]
      exact ⟨_, hdecode⟩
  obtain ⟨objects₂, address, hdecode, hkept, decoded, hdecoded, hconverted⟩ := decodeFieldValues_copies hrow hdecodes
  refine ⟨objects₂, address, decoded, hdecode, hkept, hdecoded, fun name => ?_⟩
  by_cases hmem : name ∈ semanticFieldsOf entity
  · rcases stored_field hencoded hmem with ⟨hnull, hlookup⟩ | ⟨number, bytes, hown, hbytes, hback⟩
    · rcases hconverted.field name hmem with ⟨-, hsame⟩ | ⟨hne, -⟩
      · rw [hsame, hlookup]
      · rw [JsObject.field_members, hlookup, ← JsObject.field_members] at hne
        exact absurd hnull hne
    · have hread : (stored.members inherited).field name = .bytes bytes := by
        rw [JsObject.field_members, hbytes]
        rfl
      rcases hconverted.field name hmem with ⟨hnull, -⟩ | ⟨-, value, hvalue, hlookup⟩
      · rw [hread] at hnull
        cases hnull
      · rw [hread] at hvalue
        obtain rfl : FieldValue.bigint number = value := Except.ok.inj (hback.symm.trans hvalue)
        rw [hlookup, hown]
  · rw [hconverted.other name hmem, hencoded.other name hmem]

end Rows

/-- A row of an entity reads back as it was written: the call leaves the objects there were, the
copy differs in the semantic fields only; the copy reads as the caller's object, member for
member; and a row that holds the stored columns, in whatever wrapper and beside whatever others,
reads with each semantic field as written and every other column as it is. -/
def RowsReadBack (inherited : String → X) (view : X → Option (List UInt8)) (entity : NormalizedEntity) : Prop :=
  ∀ (objects : Objects X) (values : ℕ) (object : JsObject X), objects[values]? = some object →
    ∀ objects₁ address, objects.encodeFieldValues inherited entity values = .ok (objects₁, address) →
      (∀ a < objects.length, objects₁[a]? = objects[a]?) ∧
      ∃ stored, objects₁[address]? = some stored ∧
        (∀ name ∉ semanticFieldsOf entity, stored.lookup name = object.lookup name) ∧
        (∃ objects₂ read decoded, objects₁.decodeFieldValues inherited view entity address = .ok (objects₂, read) ∧
          (∀ a < objects₁.length, objects₂[a]? = objects₁[a]?) ∧ objects₂[read]? = some decoded ∧
          ∀ name, decoded.lookup name = object.lookup name) ∧
        ∀ (heap : Objects X) (row : ℕ) (rowObject : JsObject X), heap[row]? = some rowObject →
          (∀ field ∈ semanticFieldsOf entity,
            Objects.asBytes view ((rowObject.members inherited).field field) = (stored.members inherited).field field) →
          ∃ heap' read decoded, heap.decodeFieldValues inherited view entity row = .ok (heap', read) ∧
            (∀ a < heap.length, heap'[a]? = heap[a]?) ∧ heap'[read]? = some decoded ∧
            (∀ field ∈ semanticFieldsOf entity,
              (decoded.members inherited).field field = (object.members inherited).field field) ∧
            ∀ name ∉ semanticFieldsOf entity, decoded.lookup name = rowObject.lookup name

theorem rows_read_back (inherited : String → X) (view : X → Option (List UInt8)) (entity : NormalizedEntity) :
    RowsReadBack inherited view entity := by
  intro objects values object hobject objects₁ address h
  obtain ⟨hkept, stored, hstored, hconverted⟩ := encodeFieldValues_copies hobject h
  refine ⟨hkept, stored, hstored, hconverted.other, reads_stored hconverted hstored, ?_⟩
  intro heap row rowObject hrow hholds
  exact reads_row hconverted hrow hholds

/-- **Bytes are the number, in order, and rows read back as they were written.** -/
theorem u256_sound (inherited : String → X) (view : X → Option (List UInt8)) :
    (∀ a : ℤ, 0 ≤ a ∧ a < 2 ^ 256 → ∃ bytes, U256.encode (.bigint a : FieldValue X) = .ok (.bytes bytes) ∧
      bytes.length = u256Bytes ∧ U256.decode (.bytes bytes : FieldValue X) = .ok (.bigint a)) ∧
    (∀ (a b : ℤ) (bytes bytes' : List UInt8), U256.encode (.bigint a : FieldValue X) = .ok (.bytes bytes) →
      U256.encode (.bigint b : FieldValue X) = .ok (.bytes bytes') → (compareBytes bytes bytes').sign = (a - b).sign) ∧
    (∀ a : ℤ, ¬(0 ≤ a ∧ a < 2 ^ 256) → ∃ e, U256.encode (.bigint a : FieldValue X) = .error e) ∧
    (∀ bytes : List UInt8, bytes.length = u256Bytes → ∃ value : ℤ,
      U256.decode (.bytes bytes : FieldValue X) = .ok (.bigint value) ∧
        U256.encode (.bigint value : FieldValue X) = .ok (.bytes bytes)) ∧
    ∀ entity : NormalizedEntity, RowsReadBack inherited view entity := by
  refine ⟨?_, ?_, ?_, ?_, rows_read_back inherited view⟩
  · intro a ha
    have hencode : U256.encode (.bigint a : FieldValue X) = .ok (.bytes (encodeBytes u256Bytes a.toNat)) :=
      U256.encode_ok.2 ⟨ha, rfl⟩
    exact ⟨_, hencode, length_encodeBytes _ _, (encode_cases hencode).2.2⟩
  · intro a b bytes bytes' ha hb
    obtain ⟨harange, habytes⟩ := U256.encode_ok.1 ha
    obtain ⟨hbrange, hbbytes⟩ := U256.encode_ok.1 hb
    injection habytes with habytes
    injection hbbytes with hbbytes
    rw [habytes, hbbytes]
    exact U256.compare_encode harange hbrange
  · intro a ha
    cases h : U256.encode (.bigint a : FieldValue X) with
    | error e => exact ⟨e, rfl⟩
    | ok stored => exact absurd (U256.encode_ok.1 h).1 ha
  · intro bytes hlength
    exact U256.encode_decode hlength

/-! ### A row with one number -/

/-- An entity with a number of 256 bits and a plain column. -/
def balanceEntity : NormalizedEntity where
  name := "balance"
  id := ["owner"]
  fields := [("amount", .u256), ("note", .storage)]
  id_ne := by simp
  columns_nodup := by decide
  unreserved := by decide

theorem u256_sound_balance : ∃ stored decoded : JsObject Unit,
    stored.lookup "note" = some (some (.text [104])) ∧ decoded.lookup "amount" = some (some (.bigint 258)) := by
  have hencode : Objects.encodeFieldValues (fun _ => ()) balanceEntity
      [[("amount", some (.bigint 258)), ("note", some (.text [104]))]] 0 = .ok (_, _) := rfl
  obtain ⟨-, stored, -, hothers, ⟨-, -, decoded, -, -, -, hsame⟩, -⟩ :=
    (u256_sound (fun _ => ()) fun _ => none).2.2.2.2 balanceEntity _ 0 _ rfl _ _ hencode
  exact ⟨stored, decoded, hothers "note" (by decide), hsame "amount"⟩

end Etherfold
