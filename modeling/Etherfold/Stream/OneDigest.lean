import Mathlib
import Etherfold.Stream.StreamConfig

/-!
# What equal digests mean

The bytes of a config are those of its members by key, whatever the order they were written in.
Two resolved configs with the same bytes are the same config, but for what the bytes do not keep:
white space inside a text, and whether a slot holds a big integer or the text that spells it.

* `canonicalForm_congr`: the order of keys and `undefined` members are of no account.
* `canonicalForm_roundTrip`: nor is a trip through JSON.
* `canonicalForm_value_iff`: **which resolved configs have the same bytes**.
* `digests_identify`: **where equal digests mean equal configs**.
-/

namespace Etherfold

variable {N : Type}

/-! ### Values up to the order of their keys -/

mutual

/-- A value whose members are in the order of their keys, without the `undefined` ones. -/
def JsValue.tidy : JsValue N → JsValue N
  | .array items => .array (tidyItems items)
  | .object members => .object ((tidyMembers members).insertionSort fun a b => textLe a.1 b.1)
  | value => value

def tidyItems : List (JsValue N) → List (JsValue N)
  | [] => []
  | item :: items => item.tidy :: tidyItems items

def tidyMembers : List (String × JsValue N) → List (String × JsValue N)
  | [] => []
  | (_, .undefined) :: members => tidyMembers members
  | (key, value) :: members => (key, value.tidy) :: tidyMembers members

end

/-- **Equal up to the order of keys and `undefined` members.** -/
def SameValue (value value' : JsValue N) : Prop := value.tidy = value'.tidy

mutual

/-- Objects as the arrays of their members, where they stand. -/
def JsValue.paired : JsValue N → Json N
  | .undefined => .null
  | .null => .null
  | .boolean value => .boolean value
  | .number value => .number value
  | .bigint value => .string (toString value ++ "n")
  | .string value => .string value
  | .array items => .array (pairedItems items)
  | .object members => .array (pairedMembers members)

def pairedItems : List (JsValue N) → List (Json N)
  | [] => []
  | item :: items => item.paired :: pairedItems items

def pairedMembers : List (String × JsValue N) → List (Json N)
  | [] => []
  | (key, value) :: members => .array [.string key, value.paired] :: pairedMembers members

end

theorem pairedMembers_eq (members : List (String × JsValue N)) :
    pairedMembers members = members.map fun member => .array [.string member.1, member.2.paired] := by
  induction members with
  | nil => rw [pairedMembers, List.map_nil]
  | cons member members ih => rw [pairedMembers, List.map_cons, ih]

theorem tidyItems_eq (items : List (JsValue N)) : tidyItems items = items.map JsValue.tidy := by
  induction items with
  | nil => rw [tidyItems, List.map_nil]
  | cons item items ih => rw [tidyItems, List.map_cons, ih]

mutual

/-- What is printed of a value is printed of it with its members in order. -/
theorem normalizeAsArray_eq : ∀ value : JsValue N, normalizeAsArray value = value.tidy.paired
  | .undefined | .null | .boolean _ | .number _ | .bigint _ | .string _ => by
    simp only [normalizeAsArray, JsValue.tidy, JsValue.paired]
  | .array items => by
    rw [normalizeAsArray, JsValue.tidy, JsValue.paired, normalizeItems_tidy items]
  | .object members => by
    have hsort := List.map_insertionSort (fun a b : String × JsValue N => textLe a.1 b.1 = true)
      (fun a b : String × Json N => textLe a.1 b.1 = true) (fun member => (member.1, member.2.paired))
      (tidyMembers members) (fun _ _ _ _ => Iff.rfl)
    rw [normalizeAsArray, JsValue.tidy, JsValue.paired, normalizeMembers_tidy members, ← hsort, pairedMembers_eq,
      List.map_map]
    rfl

theorem normalizeItems_tidy : ∀ items : List (JsValue N), normalizeItems items = pairedItems (tidyItems items)
  | [] => by rw [normalizeItems, tidyItems, pairedItems]
  | item :: items => by
    rw [normalizeItems, tidyItems, pairedItems, normalizeAsArray_eq item, normalizeItems_tidy items]

theorem normalizeMembers_tidy : ∀ members : List (String × JsValue N),
    normalizeMembers members = (tidyMembers members).map fun member => (member.1, member.2.paired)
  | [] => by rw [normalizeMembers, tidyMembers, List.map_nil]
  | (key, value) :: members => by
    have hrest := normalizeMembers_tidy members
    have hvalue := normalizeAsArray_eq value
    cases value with
    | undefined => rw [normalizeMembers, tidyMembers, hrest]
    | _ => simp [normalizeMembers, tidyMembers, hrest, hvalue]

end

/-! ### A trip through JSON -/

mutual

/-- What is read back of what is printed of a value: none where a big integer would be printed, or
nothing is. -/
def JsValue.roundTrip : JsValue N → Option (JsValue N)
  | .undefined => none
  | .bigint _ => none
  | .array items => (roundTripItems items).map .array
  | .object members => (roundTripMembers members).map .object
  | value => some value

def roundTripItems : List (JsValue N) → Option (List (JsValue N))
  | [] => some []
  | .undefined :: items => (roundTripItems items).map (.null :: ·)
  | item :: items => item.roundTrip.bind fun item => (roundTripItems items).map (item :: ·)

def roundTripMembers : List (String × JsValue N) → Option (List (String × JsValue N))
  | [] => some []
  | (_, .undefined) :: members => roundTripMembers members
  | (key, value) :: members => value.roundTrip.bind fun value => (roundTripMembers members).map ((key, value) :: ·)

end

mutual

/-- No big integer anywhere in a value. -/
def JsValue.BigintFree : JsValue N → Prop
  | .bigint _ => False
  | .array items => BigintFreeItems items
  | .object members => BigintFreeMembers members
  | _ => True

def BigintFreeItems : List (JsValue N) → Prop
  | [] => True
  | item :: items => item.BigintFree ∧ BigintFreeItems items

def BigintFreeMembers : List (String × JsValue N) → Prop
  | [] => True
  | (_, value) :: members => value.BigintFree ∧ BigintFreeMembers members

end

theorem roundTrip_ne_undefined {value read : JsValue N} (h : value.roundTrip = some read) : read ≠ .undefined := by
  rintro rfl
  cases value <;> simp [JsValue.roundTrip] at h

theorem normalizeMembers_cons {key : String} {value : JsValue N} (h : value ≠ .undefined)
    (members : List (String × JsValue N)) :
    normalizeMembers ((key, value) :: members) = (key, normalizeAsArray value) :: normalizeMembers members := by
  cases value with
  | undefined => exact absurd rfl h
  | _ => simp only [normalizeMembers]

mutual

/-- What is read back is printed the same. -/
theorem normalizeAsArray_roundTrip : ∀ {value read : JsValue N}, value.roundTrip = some read →
    normalizeAsArray read = normalizeAsArray value
  | .undefined, _, h | .bigint _, _, h => by simp [JsValue.roundTrip] at h
  | .null, _, h | .boolean _, _, h | .number _, _, h | .string _, _, h => by
    simp only [JsValue.roundTrip, Option.some.injEq] at h
    rw [h]
  | .array items, _, h => by
    rw [JsValue.roundTrip] at h
    obtain ⟨items', hitems, rfl⟩ := Option.map_eq_some_iff.1 h
    rw [normalizeAsArray, normalizeAsArray, normalizeItems_roundTrip hitems]
  | .object members, _, h => by
    rw [JsValue.roundTrip] at h
    obtain ⟨members', hmembers, rfl⟩ := Option.map_eq_some_iff.1 h
    rw [normalizeAsArray, normalizeAsArray, normalizeMembers_roundTrip hmembers]

theorem normalizeItems_roundTrip : ∀ {items read : List (JsValue N)}, roundTripItems items = some read →
    normalizeItems read = normalizeItems items
  | [], _, h => by
    rw [roundTripItems, Option.some.injEq] at h
    rw [← h]
  | item :: items, read, h => by
    cases item with
    | undefined =>
      rw [roundTripItems] at h
      obtain ⟨items', hitems, rfl⟩ := Option.map_eq_some_iff.1 h
      simp only [normalizeItems, normalizeAsArray, normalizeItems_roundTrip hitems]
    | _ =>
      simp only [roundTripItems] at h
      obtain ⟨item', hitem, h⟩ := Option.bind_eq_some_iff.1 h
      obtain ⟨items', hitems, rfl⟩ := Option.map_eq_some_iff.1 h
      simp only [normalizeItems, normalizeAsArray_roundTrip hitem, normalizeItems_roundTrip hitems]

theorem normalizeMembers_roundTrip : ∀ {members read : List (String × JsValue N)},
    roundTripMembers members = some read → normalizeMembers read = normalizeMembers members
  | [], _, h => by
    rw [roundTripMembers, Option.some.injEq] at h
    rw [← h]
  | (key, value) :: members, read, h => by
    cases value with
    | undefined =>
      rw [roundTripMembers] at h
      rw [normalizeMembers_roundTrip h, normalizeMembers]
    | _ =>
      simp only [roundTripMembers] at h
      obtain ⟨value', hvalue, h⟩ := Option.bind_eq_some_iff.1 h
      obtain ⟨members', hmembers, rfl⟩ := Option.map_eq_some_iff.1 h
      rw [normalizeMembers_cons (roundTrip_ne_undefined hvalue), normalizeAsArray_roundTrip hvalue,
        normalizeMembers_roundTrip hmembers, normalizeMembers_cons (by simp)]

end

mutual

/-- A value without big integers is read back, unless nothing is printed of it. -/
theorem exists_roundTrip : ∀ {value : JsValue N}, value.BigintFree → value ≠ .undefined →
    ∃ read, value.roundTrip = some read
  | .undefined, _, hne => absurd rfl hne
  | .bigint _, h, _ => by
    rw [JsValue.BigintFree] at h
    exact h.elim
  | .null, _, _ | .boolean _, _, _ | .number _, _, _ | .string _, _, _ => ⟨_, by simp only [JsValue.roundTrip]; rfl⟩
  | .array items, h, _ => by
    rw [JsValue.BigintFree] at h
    obtain ⟨read, hread⟩ := exists_roundTripItems h
    exact ⟨.array read, by rw [JsValue.roundTrip, hread]; rfl⟩
  | .object members, h, _ => by
    rw [JsValue.BigintFree] at h
    obtain ⟨read, hread⟩ := exists_roundTripMembers h
    exact ⟨.object read, by rw [JsValue.roundTrip, hread]; rfl⟩

theorem exists_roundTripItems : ∀ {items : List (JsValue N)}, BigintFreeItems items →
    ∃ read, roundTripItems items = some read
  | [], _ => ⟨[], by rw [roundTripItems]⟩
  | item :: items, h => by
    rw [BigintFreeItems] at h
    obtain ⟨read, hread⟩ := exists_roundTripItems h.2
    have hitem := exists_roundTrip h.1
    cases item with
    | undefined => exact ⟨.null :: read, by rw [roundTripItems, hread]; rfl⟩
    | _ =>
      obtain ⟨first, hfirst⟩ := hitem (by simp)
      exact ⟨first :: read, by simp only [roundTripItems, hfirst, hread]; rfl⟩

theorem exists_roundTripMembers : ∀ {members : List (String × JsValue N)}, BigintFreeMembers members →
    ∃ read, roundTripMembers members = some read
  | [], _ => ⟨[], by rw [roundTripMembers]⟩
  | (key, value) :: members, h => by
    rw [BigintFreeMembers] at h
    obtain ⟨read, hread⟩ := exists_roundTripMembers h.2
    have hvalue := exists_roundTrip h.1
    cases value with
    | undefined => exact ⟨read, by rw [roundTripMembers, hread]⟩
    | _ =>
      obtain ⟨first, hfirst⟩ := hvalue (by simp)
      exact ⟨(key, first) :: read, by simp only [roundTripMembers, hfirst, hread]; rfl⟩

end

section Bytes

-- how the runtime spells a number
variable {numeral : N → List Char}

/-- Values that print alike have the same bytes, unless one is a text and the other is not. -/
theorem canonicalForm_of_printed {value value' : JsValue N} (h : normalizeAsArray value = normalizeAsArray value')
    (htext : ∀ text, value = .string text ↔ value' = .string text) :
    canonicalForm numeral value = canonicalForm numeral value' := by
  have hform : ∀ value : JsValue N, (∀ text, value ≠ .string text) → canonicalForm numeral value =
      String.ofList (((normalizeAsArray value).stringify numeral).filter (!isWhiteSpace ·)) := by
    intro value hvalue
    cases value with
    | string text => exact absurd rfl (hvalue text)
    | _ => rfl
  by_cases hstring : ∃ text, value = .string text
  · obtain ⟨text, rfl⟩ := hstring
    rw [(htext text).1 rfl]
  · have hvalue : ∀ text, value ≠ .string text := fun text heq => hstring ⟨text, heq⟩
    rw [hform value hvalue, hform value' fun text heq => hvalue text ((htext text).2 heq), h]

/-- **The order of keys and `undefined` members are of no account.** -/
theorem canonicalForm_congr {value value' : JsValue N} (h : SameValue value value') :
    canonicalForm numeral value = canonicalForm numeral value' := by
  have htidy : ∀ (value : JsValue N) (text : String), value.tidy = .string text ↔ value = .string text := by
    intro value text
    cases value <;> simp [JsValue.tidy]
  unfold SameValue at h
  apply canonicalForm_of_printed
  · rw [normalizeAsArray_eq, normalizeAsArray_eq, h]
  · intro text
    rw [← htidy value, ← htidy value', h]

/-- **A trip through JSON changes no bytes.** -/
theorem canonicalForm_roundTrip {value read : JsValue N} (h : value.roundTrip = some read) :
    canonicalForm numeral read = canonicalForm numeral value := by
  refine canonicalForm_of_printed (normalizeAsArray_roundTrip h) fun text => ?_
  cases value with
  | undefined => simp [JsValue.roundTrip] at h
  | bigint n => simp [JsValue.roundTrip] at h
  | array items =>
    rw [JsValue.roundTrip] at h
    obtain ⟨items', -, rfl⟩ := Option.map_eq_some_iff.1 h
    simp
  | object members =>
    rw [JsValue.roundTrip] at h
    obtain ⟨members', -, rfl⟩ := Option.map_eq_some_iff.1 h
    simp
  | _ =>
    simp only [JsValue.roundTrip, Option.some.injEq] at h
    rw [h]

end Bytes

/-! ### What a slot holds -/

/-- A slot of an argument filter: no constraint, a value, or a list of values, which may nest. -/
inductive SlotValue (N : Type) where
  | null
  | boolean (value : Bool)
  | number (value : N)
  | bigint (value : ℤ)
  | string (value : String)
  | array (items : List (SlotValue N))

mutual

def SlotValue.toValue : SlotValue N → JsValue N
  | .null => .null
  | .boolean value => .boolean value
  | .number value => .number value
  | .bigint value => .bigint value
  | .string value => .string value
  | .array items => .array (valuesOf items)

def valuesOf : List (SlotValue N) → List (JsValue N)
  | [] => []
  | item :: items => item.toValue :: valuesOf items

end

mutual

/-- **Slots the bytes do not tell apart**: texts that differ in white space, and a big integer and
the text that spells it. -/
def SlotValue.Spelt : SlotValue N → SlotValue N → Prop
  | .null, .null => True
  | .boolean value, .boolean value' => value = value'
  | .number value, .number value' => value = value'
  | .bigint value, .bigint value' => value = value'
  | .string value, .string value' => solidText value = solidText value'
  | .bigint value, .string text => solidText text = toString value ++ "n"
  | .string text, .bigint value => solidText text = toString value ++ "n"
  | .array items, .array items' => SpeltItems items items'
  | _, _ => False

def SpeltItems : List (SlotValue N) → List (SlotValue N) → Prop
  | [], [] => True
  | item :: items, item' :: items' => item.Spelt item' ∧ SpeltItems items items'
  | _, _ => False

end

theorem speltItems_iff {items items' : List (SlotValue N)} :
    SpeltItems items items' ↔ List.Forall₂ SlotValue.Spelt items items' := by
  induction items generalizing items' with
  | nil => cases items' <;> simp [SpeltItems]
  | cons item items ih => cases items' <;> simp [SpeltItems, ih]

/-- A text without white space is left as it is. -/
theorem solidText_of_all {text : String} (h : ∀ c ∈ text.toList, isWhiteSpace c = false) : solidText text = text := by
  unfold solidText
  rw [List.filter_eq_self.2 fun c hc => by simp [isSolid, h c hc], String.ofList_toList]

theorem solidText_bigint (value : ℤ) : solidText (toString value ++ "n") = toString value ++ "n" := by
  apply solidText_of_all
  have hdigit : ∀ n : ℕ, ∀ c ∈ (Nat.repr n).toList, isWhiteSpace c = false := by
    intro n c hc
    unfold Nat.repr at hc
    rw [String.toList_ofList] at hc
    apply isWhiteSpace_numeric
    simp [isNumeric, Nat.isDigit_of_mem_toDigits (by decide) (by decide) hc]
  intro c hc
  rw [String.toList_append, List.mem_append] at hc
  rcases hc with hc | hc
  · cases value with
    | ofNat n => exact hdigit n c hc
    | negSucc n =>
      have hc : c ∈ ("-" ++ Nat.repr (n + 1)).toList := hc
      rw [String.toList_append, List.mem_append] at hc
      rcases hc with hc | hc
      · obtain rfl : c = '-' := by simpa using hc
        decide
      · exact hdigit (n + 1) c hc
  · obtain rfl : c = 'n' := by simpa using hc
    decide

theorem bigint_inj {value value' : ℤ} (h : toString value ++ "n" = toString value' ++ "n") : value = value' := by
  have htext : Int.repr value = Int.repr value' := String.append_left_inj "n" |>.1 h
  exact Int.repr_inj.1 htext

mutual

/-- **Which slots have the same bytes.** -/
theorem solid_toValue_iff : ∀ {value value' : SlotValue N},
    value.toValue.paired.solid = value'.toValue.paired.solid ↔ value.Spelt value'
  | .array items, value' => by
    cases value' with
    | array items' =>
      simp only [SlotValue.toValue, JsValue.paired, Json.solid, Json.array.injEq, SlotValue.Spelt, solid_valuesOf_iff]
    | _ => simp [SlotValue.toValue, JsValue.paired, Json.solid, SlotValue.Spelt]
  | .bigint value, value' => by
    cases value' with
    | bigint value' =>
      simp only [SlotValue.toValue, JsValue.paired, Json.solid, Json.string.injEq, SlotValue.Spelt, solidText_bigint]
      exact ⟨bigint_inj, fun h => by rw [h]⟩
    | string text =>
      simp only [SlotValue.toValue, JsValue.paired, Json.solid, Json.string.injEq, SlotValue.Spelt, solidText_bigint]
      exact eq_comm
    | _ => simp [SlotValue.toValue, JsValue.paired, Json.solid, SlotValue.Spelt]
  | .string text, value' => by
    cases value' with
    | bigint value =>
      simp only [SlotValue.toValue, JsValue.paired, Json.solid, Json.string.injEq, SlotValue.Spelt, solidText_bigint]
    | _ => simp [SlotValue.toValue, JsValue.paired, Json.solid, SlotValue.Spelt]
  | .null, value' | .boolean _, value' | .number _, value' => by
    cases value' <;> simp [SlotValue.toValue, JsValue.paired, Json.solid, SlotValue.Spelt]

theorem solid_valuesOf_iff : ∀ {items items' : List (SlotValue N)},
    solidItems (pairedItems (valuesOf items)) = solidItems (pairedItems (valuesOf items')) ↔ SpeltItems items items'
  | [], items' => by
    cases items' <;> simp [valuesOf, pairedItems, solidItems, SpeltItems]
  | item :: items, items' => by
    cases items' with
    | nil => simp [valuesOf, pairedItems, solidItems, SpeltItems]
    | cons item' items' =>
      simp only [valuesOf, pairedItems, solidItems, List.cons.injEq, SpeltItems, solid_toValue_iff, solid_valuesOf_iff]

end

/-! ### Configs over slots of any value -/

/-- A rule as it is written. -/
structure WrittenRule (N : Type) where
  event : String
  contracts : Option (List String)
  entries : List (List (SlotValue N))

structure WrittenParse (N : Type) where
  parseAllEventsIrrespectiveOfAddresses : Option Bool
  filters : Option (List (WrittenRule N))

/-- A config as it is provided. -/
structure WrittenConfig (N : Type) where
  finality : Option N
  parse : Option (WrittenParse N)

/-- A config as it is used. -/
structure ResolvedConfig (N : Type) where
  finality : N
  parse : Option (WrittenParse N)

def entryOf (entry : List (SlotValue N)) : JsValue N := .array (valuesOf entry)

/-- A rule as a value, its members by key. -/
def WrittenRule.value (rule : WrittenRule N) : JsValue N :=
  .object ((rule.contracts.map fun contracts => ("contracts", .array (contracts.map .string))).toList ++
    [("event", .string rule.event), ("match", .array (rule.entries.map entryOf))])

def WrittenParse.value (parse : WrittenParse N) : JsValue N :=
  .object ((parse.filters.map fun filters => ("filters", .array (filters.map WrittenRule.value))).toList ++
    (parse.parseAllEventsIrrespectiveOfAddresses.map fun parseAll =>
      ("parseAllEventsIrrespectiveOfAddresses", .boolean parseAll)).toList)

def ResolvedConfig.value (config : ResolvedConfig N) : JsValue N :=
  .object ([("finality", .number config.finality)] ++
    (config.parse.map fun parse => ("parse", parse.value)).toList)

section Resolve

-- how the runtime spells a number, what `normalizeAddress` answers, and what a list holds once each, sorted
variable (numeral : N → List Char) (normalizeAddress : String → Option String)
  (uniqueSorted : List (SlotValue N) → List (SlotValue N))

def SlotValue.isNull : SlotValue N → Bool
  | .null => true
  | _ => false

namespace WrittenConfig

/-- One entry without its trailing wildcards, the lists in its slots sorted and without repeats. -/
def canonicalArgumentFilter (entry : List (SlotValue N)) : List (SlotValue N) :=
  (entry.rdropWhile SlotValue.isNull).map fun slot =>
    match slot with
    | .array items => .array (uniqueSorted items)
    | slot => slot

/-- The values of a list once each, by their bytes. -/
def dedupeSorted {α : Type} (value : α → JsValue N) (values : List α) : List α :=
  Distinct.dedupeSorted (fun v => canonicalForm numeral (value v)) textOrder values

/-- One rule: `none` where an address is refused. -/
def canonicalRule (rule : WrittenRule N) : Option (WrittenRule N) :=
  let entries := dedupeSorted numeral entryOf (rule.entries.map (canonicalArgumentFilter uniqueSorted))
  match rule.contracts with
  | none => some ⟨rule.event, none, entries⟩
  | some contracts => (contracts.mapM normalizeAddress).map fun addresses =>
      ⟨rule.event, some (Distinct.dedupeSorted id textOrder addresses), entries⟩

def canonicalFilterRules (rules : List (WrittenRule N)) : Option (List (WrittenRule N)) :=
  (rules.mapM (canonicalRule numeral normalizeAddress uniqueSorted)).map (dedupeSorted numeral WrittenRule.value)

def resolveParseConfig (parse : Option (WrittenParse N)) : Option (Option (WrittenParse N)) :=
  match parse with
  | none => some none
  | some parse =>
    match parse.filters with
    | none => some (some parse)
    | some [] => some (some { parse with filters := none })
    | some rules =>
      (canonicalFilterRules numeral normalizeAddress uniqueSorted rules).map fun rules =>
        some { parse with filters := some rules }

/-- **The config as it is used**, over slots of any value. -/
def resolveStreamConfig [OfNat N 17] (stream : WrittenConfig N) : Option (ResolvedConfig N) :=
  (resolveParseConfig numeral normalizeAddress uniqueSorted stream.parse).map fun parse =>
    ⟨stream.finality.getD 17, parse⟩

end WrittenConfig

end Resolve

/-- **Configs the bytes do not tell apart.** -/
structure SpeltRule (rule rule' : WrittenRule N) : Prop where
  event : solidText rule.event = solidText rule'.event
  contracts : Option.Rel (List.Forall₂ fun address address' => solidText address = solidText address')
    rule.contracts rule'.contracts
  entries : List.Forall₂ (List.Forall₂ SlotValue.Spelt) rule.entries rule'.entries

structure SpeltParse (parse parse' : WrittenParse N) : Prop where
  flag : parse.parseAllEventsIrrespectiveOfAddresses = parse'.parseAllEventsIrrespectiveOfAddresses
  filters : Option.Rel (List.Forall₂ SpeltRule) parse.filters parse'.filters

structure ResolvedConfig.Spelt (config config' : ResolvedConfig N) : Prop where
  finality : config.finality = config'.finality
  parse : Option.Rel SpeltParse config.parse config'.parse

/-! ### What the bytes of a config tell -/

mutual

theorem tidy_toValue : ∀ value : SlotValue N, value.toValue.tidy = value.toValue
  | .null | .boolean _ | .number _ | .bigint _ | .string _ => by simp only [SlotValue.toValue, JsValue.tidy]
  | .array items => by rw [SlotValue.toValue, JsValue.tidy, tidy_valuesOf items]

theorem tidy_valuesOf : ∀ items : List (SlotValue N), tidyItems (valuesOf items) = valuesOf items
  | [] => by rw [valuesOf, tidyItems]
  | item :: items => by rw [valuesOf, tidyItems, tidy_toValue item, tidy_valuesOf items]

end

/-- A list of values whose members are in order. -/
theorem tidyItems_map {α : Type} {f : α → JsValue N} (h : ∀ a, (f a).tidy = f a) (values : List α) :
    tidyItems (values.map f) = values.map f := by
  rw [tidyItems_eq, List.map_map]
  exact List.map_congr_left fun a _ => h a

theorem tidy_string (text : String) : (JsValue.string text : JsValue N).tidy = .string text := by simp only [JsValue.tidy]

theorem tidy_entryOf (entry : List (SlotValue N)) : (entryOf entry).tidy = entryOf entry := by
  rw [entryOf, JsValue.tidy, tidy_valuesOf]

theorem tidyMembers_cons {key : String} {value : JsValue N} (h : value ≠ .undefined)
    (members : List (String × JsValue N)) :
    tidyMembers ((key, value) :: members) = (key, value.tidy) :: tidyMembers members := by
  cases value with
  | undefined => exact absurd rfl h
  | _ => simp only [tidyMembers]

/-- The members of a rule stand in the order of their keys. -/
theorem WrittenRule.tidy_value (rule : WrittenRule N) : rule.value.tidy = rule.value := by
  have hce : textLe "contracts" "event" = true := by decide
  have hem : textLe "event" "match" = true := by decide
  obtain ⟨event, contracts, entries⟩ := rule
  cases contracts <;>
    simp [WrittenRule.value, JsValue.tidy, tidyMembers, tidyItems_map tidy_entryOf, tidyItems_map tidy_string, hce, hem]

theorem WrittenParse.tidy_value (parse : WrittenParse N) : parse.value.tidy = parse.value := by
  have hfp : textLe "filters" "parseAllEventsIrrespectiveOfAddresses" = true := by decide
  obtain ⟨parseAll, filters⟩ := parse
  cases filters <;> cases parseAll <;>
    simp [WrittenParse.value, JsValue.tidy, tidyMembers, tidyItems_map WrittenRule.tidy_value, hfp]

theorem ResolvedConfig.tidy_value (config : ResolvedConfig N) : config.value.tidy = config.value := by
  have hfp : textLe "finality" "parse" = true := by decide
  obtain ⟨finality, parse⟩ := config
  cases parse with
  | none => simp [ResolvedConfig.value, JsValue.tidy, tidyMembers]
  | some parse =>
    have hparse := parse.tidy_value
    unfold WrittenParse.value at hparse
    simp [ResolvedConfig.value, WrittenParse.value, JsValue.tidy, tidyMembers, hfp] at hparse ⊢
    exact hparse

mutual

theorem toValue_injective : ∀ {value value' : SlotValue N}, value.toValue = value'.toValue → value = value'
  | .array items, value', h => by
    cases value' <;> simp only [SlotValue.toValue, JsValue.array.injEq, reduceCtorEq] at h
    rw [valuesOf_injective h]
  | .null, value', h | .boolean _, value', h | .number _, value', h | .bigint _, value', h | .string _, value', h => by
    cases value' <;> simp_all [SlotValue.toValue]

theorem valuesOf_injective : ∀ {items items' : List (SlotValue N)}, valuesOf items = valuesOf items' → items = items'
  | [], items', h => by
    cases items' with
    | nil => rfl
    | cons item' items' => simp [valuesOf] at h
  | item :: items, items', h => by
    cases items' with
    | nil => simp [valuesOf] at h
    | cons item' items' =>
      simp only [valuesOf, List.cons.injEq] at h
      rw [toValue_injective h.1, valuesOf_injective h.2]

end

theorem WrittenRule.value_injective : Function.Injective (WrittenRule.value (N := N)) := by
  have hentry : Function.Injective (entryOf (N := N)) := by
    intro entry entry' h
    rw [entryOf, entryOf, JsValue.array.injEq] at h
    exact valuesOf_injective h
  have hstring : Function.Injective (JsValue.string (N := N)) := fun a b h => JsValue.string.inj h
  rintro ⟨event, contracts, entries⟩ ⟨event', contracts', entries'⟩ h
  cases contracts <;> cases contracts' <;>
    simp_all [WrittenRule.value, (List.map_injective_iff.2 hentry).eq_iff, (List.map_injective_iff.2 hstring).eq_iff]

theorem WrittenParse.value_injective : Function.Injective (WrittenParse.value (N := N)) := by
  rintro ⟨parseAll, filters⟩ ⟨parseAll', filters'⟩ h
  cases filters <;> cases filters' <;> cases parseAll <;> cases parseAll' <;>
    simp_all [WrittenParse.value, (List.map_injective_iff.2 WrittenRule.value_injective).eq_iff]

/-- Configs whose values are the same are the same. -/
theorem ResolvedConfig.sameValue_iff {config config' : ResolvedConfig N} :
    SameValue config.value config'.value ↔ config = config' := by
  unfold SameValue
  rw [config.tidy_value, config'.tidy_value]
  refine ⟨fun h => ?_, fun h => by rw [h]⟩
  obtain ⟨finality, parse⟩ := config
  obtain ⟨finality', parse'⟩ := config'
  cases parse <;> cases parse' <;> simp_all [ResolvedConfig.value, WrittenParse.value_injective.eq_iff]

/-- Lists whose values have the same bytes one by one. -/
theorem solidItems_map_iff {α : Type} {f : α → JsValue N} {R : α → α → Prop}
    (h : ∀ a b, (f a).paired.solid = (f b).paired.solid ↔ R a b) {values values' : List α} :
    solidItems (pairedItems (values.map f)) = solidItems (pairedItems (values'.map f)) ↔ List.Forall₂ R values values' := by
  induction values generalizing values' with
  | nil => cases values' <;> simp [pairedItems, solidItems]
  | cons value values ih =>
    cases values' with
    | nil => simp [pairedItems, solidItems]
    | cons value' values' => simp [pairedItems, solidItems, h, ih]

theorem entryOf_solid_iff (entry entry' : List (SlotValue N)) :
    (entryOf entry).paired.solid = (entryOf entry').paired.solid ↔ List.Forall₂ SlotValue.Spelt entry entry' := by
  simp only [entryOf, JsValue.paired, Json.solid, Json.array.injEq, solid_valuesOf_iff, speltItems_iff]

theorem WrittenRule.solid_iff (rule rule' : WrittenRule N) :
    rule.value.paired.solid = rule'.value.paired.solid ↔ SpeltRule rule rule' := by
  have hstring : ∀ a b : String, (JsValue.string a : JsValue N).paired.solid = (JsValue.string b).paired.solid ↔
      solidText a = solidText b := by simp [JsValue.paired, Json.solid]
  obtain ⟨event, contracts, entries⟩ := rule
  obtain ⟨event', contracts', entries'⟩ := rule'
  have hspelt : SpeltRule ⟨event, contracts, entries⟩ ⟨event', contracts', entries'⟩ ↔
      solidText event = solidText event' ∧ Option.Rel (List.Forall₂ fun a b => solidText a = solidText b) contracts contracts' ∧
        List.Forall₂ (List.Forall₂ SlotValue.Spelt) entries entries' :=
    ⟨fun h => ⟨h.event, h.contracts, h.entries⟩, fun h => ⟨h.1, h.2.1, h.2.2⟩⟩
  rw [hspelt]
  cases contracts <;> cases contracts' <;>
    simp [WrittenRule.value, JsValue.paired, pairedMembers, Json.solid, solidItems,
      solidItems_map_iff entryOf_solid_iff, solidItems_map_iff hstring]
  tauto

theorem WrittenParse.solid_iff (parse parse' : WrittenParse N) :
    parse.value.paired.solid = parse'.value.paired.solid ↔ SpeltParse parse parse' := by
  obtain ⟨parseAll, filters⟩ := parse
  obtain ⟨parseAll', filters'⟩ := parse'
  have hspelt : SpeltParse ⟨parseAll, filters⟩ ⟨parseAll', filters'⟩ ↔
      Option.Rel (List.Forall₂ SpeltRule) filters filters' ∧ parseAll = parseAll' :=
    ⟨fun h => ⟨h.filters, h.flag⟩, fun h => ⟨h.2, h.1⟩⟩
  rw [hspelt]
  cases filters <;> cases filters' <;> cases parseAll <;> cases parseAll' <;>
    simp [WrittenParse.value, JsValue.paired, pairedMembers, Json.solid, solidItems,
      solidItems_map_iff WrittenRule.solid_iff]

theorem ResolvedConfig.solid_iff (config config' : ResolvedConfig N) :
    config.value.paired.solid = config'.value.paired.solid ↔ config.Spelt config' := by
  obtain ⟨finality, parse⟩ := config
  obtain ⟨finality', parse'⟩ := config'
  have hspelt : ResolvedConfig.Spelt ⟨finality, parse⟩ ⟨finality', parse'⟩ ↔
      finality = finality' ∧ Option.Rel SpeltParse parse parse' :=
    ⟨fun h => ⟨h.finality, h.parse⟩, fun h => ⟨h.1, h.2⟩⟩
  rw [hspelt]
  cases parse <;> cases parse' <;>
    simp [ResolvedConfig.value, JsValue.paired, pairedMembers, Json.solid, solidItems, WrittenParse.solid_iff]

/-- **Which configs have the same bytes.** -/
theorem canonicalForm_value_iff {numeral : N → List Char} (hnumeral : Spells numeral) {config config' : ResolvedConfig N} :
    canonicalForm numeral config.value = canonicalForm numeral config'.value ↔ config.Spelt config' := by
  have hobject : ∀ (config : ResolvedConfig N) (text : String), config.value ≠ .string text := by
    intro config text
    simp [ResolvedConfig.value]
  rw [canonicalForm_eq_iff hnumeral (hobject config) (hobject config'), normalizeAsArray_eq, normalizeAsArray_eq,
    config.tidy_value, config'.tidy_value, ResolvedConfig.solid_iff]

/-! ### The digest -/

section Digest

variable (numeral : N → List Char) (sha256 : String → String)

/-- The digest over the stream hashes of a source's entries, each once and sorted, and a config. -/
def streamDigestOfStreamHashes (streamHashes : List (Option String)) (streamConfig : JsValue N) : String :=
  let filter := Distinct.dedupeSorted id textOrder (streamHashes.filterMap id)
  sha256 (canonicalForm numeral (.object [("rule", .string "etherfold/stream/1"),
    ("filter", .array (filter.map .string)), ("config", streamConfig)]))

variable {numeral sha256}

/-- What is digested, its members by key. -/
theorem solid_preimage (rule : String) (filter : List (JsValue N)) (config : ResolvedConfig N) :
    (JsValue.object [("rule", .string rule), ("filter", .array filter), ("config", config.value)]).tidy.paired.solid =
      .array [.array [.string (solidText "config"), config.value.paired.solid],
        .array [.string (solidText "filter"), (JsValue.array filter).tidy.paired.solid],
        .array [.string (solidText "rule"), .string (solidText rule)]] := by
  have hfc : textLe "filter" "config" = false := by decide
  have hrc : textLe "rule" "config" = false := by decide
  have hrf : textLe "rule" "filter" = false := by decide
  have hdefined : config.value ≠ .undefined := by simp [ResolvedConfig.value]
  simp [JsValue.tidy, tidyMembers, tidyMembers_cons hdefined, config.tidy_value, JsValue.paired, pairedMembers,
    Json.solid, solidItems, List.orderedInsert, hfc, hrc, hrf]

/-- Under one digest stand configs with the same bytes. -/
theorem canonicalForm_of_digest (hnumeral : Spells numeral) (hsha : Function.Injective sha256)
    {hashes hashes' : List (Option String)} {config config' : ResolvedConfig N}
    (h : streamDigestOfStreamHashes numeral sha256 hashes config.value =
      streamDigestOfStreamHashes numeral sha256 hashes' config'.value) :
    canonicalForm numeral config.value = canonicalForm numeral config'.value := by
  have hbytes := hsha h
  rw [canonicalForm_eq_iff hnumeral (by simp) (by simp), normalizeAsArray_eq, normalizeAsArray_eq, solid_preimage,
    solid_preimage] at hbytes
  rw [canonicalForm_value_iff hnumeral, ← ResolvedConfig.solid_iff]
  simp only [Json.array.injEq, List.cons.injEq] at hbytes
  exact hbytes.1.2.1

/-- Configs that are spelt alike have one digest over one source. -/
theorem ResolvedConfig.Spelt.digest_eq (hnumeral : Spells numeral) {config config' : ResolvedConfig N}
    (h : config.Spelt config') (hashes : List (Option String)) :
    streamDigestOfStreamHashes numeral sha256 hashes config.value =
      streamDigestOfStreamHashes numeral sha256 hashes config'.value := by
  apply congrArg sha256
  rw [canonicalForm_eq_iff hnumeral (by simp) (by simp), normalizeAsArray_eq, normalizeAsArray_eq, solid_preimage,
    solid_preimage, (config.solid_iff config').2 h]

end Digest

/-! ### The plans of a config -/

/-- A slot as a plan is made of it. -/
def SlotValue.slot : SlotValue N → Slot (SlotValue N)
  | .null => .wildcard
  | .array items => .anyOf items
  | value => .topic value

def WrittenRule.rule (rule : WrittenRule N) : FilterRule (SlotValue N) :=
  ⟨rule.event, rule.contracts, rule.entries.map (List.map SlotValue.slot)⟩

/-- The rules of a config. -/
def ResolvedConfig.rules (config : ResolvedConfig N) : List (FilterRule (SlotValue N)) :=
  ((config.parse.bind (·.filters)).getD []).map WrittenRule.rule

/-- **Two configs that differ, but in nothing the bytes keep**: at no place by more than white space
inside a text, or a big integer where the other has the text that spells it. -/
def ResolvedConfig.OnlySpelling (config config' : ResolvedConfig N) : Prop := config.Spelt config' ∧ config ≠ config'

/-- **Where equal digests mean equal configs.** Of two configs as they are used, over slots of any
value: equal bytes mean equal up to the order of keys and `undefined` members, equal digests of any
two sources mean the same plan over every source, and equal values have equal bytes, also after a
trip through JSON, exactly where the two do not differ in their spelling only. -/
theorem digests_identify [OfNat N 17] {numeral : N → List Char} (hnumeral : Spells numeral) {sha256 : String → String}
    (hsha : Function.Injective sha256) (normalizeAddress : String → Option String)
    (uniqueSorted : List (SlotValue N) → List (SlotValue N)) (stream stream' : WrittenConfig N) :
    ∀ config ∈ WrittenConfig.resolveStreamConfig numeral normalizeAddress uniqueSorted stream,
    ∀ config' ∈ WrittenConfig.resolveStreamConfig numeral normalizeAddress uniqueSorted stream',
      ((∀ value value', SameValue value config.value → SameValue value' config'.value →
          canonicalForm numeral value = canonicalForm numeral value' → SameValue value value') ∧
        (∀ hashes hashes', streamDigestOfStreamHashes numeral sha256 hashes config.value =
            streamDigestOfStreamHashes numeral sha256 hashes' config'.value →
          ∀ (A : Type) [DecidableEq A] [DecidableEq (SlotValue N)] (s : Selectors (SlotValue N))
            (addressOf : String → Option A) (declarations : List (SourceDeclaration A)),
            resolveFilterRules s addressOf config.rules declarations =
              resolveFilterRules s addressOf config'.rules declarations) ∧
        (∀ value value' : JsValue N, SameValue value value' → canonicalForm numeral value = canonicalForm numeral value') ∧
        ∀ value : JsValue N, value.BigintFree → value ≠ .undefined → ∃ read, value.roundTrip = some read ∧
          canonicalForm numeral read = canonicalForm numeral value) ↔
      ¬config.OnlySpelling config' := by
  intro config _ config' _
  constructor
  · rintro ⟨hbytes, -⟩ ⟨hspelt, hne⟩
    have hsame := hbytes config.value config'.value rfl rfl ((canonicalForm_value_iff hnumeral).2 hspelt)
    exact hne (ResolvedConfig.sameValue_iff.1 hsame)
  · intro hspelling
    -- configs with the same bytes are spelt alike, and so are one config
    have hone : canonicalForm numeral config.value = canonicalForm numeral config'.value → config = config' := by
      intro hbytes
      by_contra hne
      exact hspelling ⟨(canonicalForm_value_iff hnumeral).1 hbytes, hne⟩
    refine ⟨fun value value' hvalue hvalue' hbytes => ?_, fun hashes hashes' hdigest => ?_, fun _ _ => canonicalForm_congr, ?_⟩
    · rw [canonicalForm_congr hvalue, canonicalForm_congr hvalue'] at hbytes
      unfold SameValue at hvalue hvalue' ⊢
      rw [hvalue, hvalue', hone hbytes]
    · rw [hone (canonicalForm_of_digest hnumeral hsha hdigest)]
      intros
      rfl
    · intro value hfree hdefined
      obtain ⟨read, hread⟩ := exists_roundTrip hfree hdefined
      exact ⟨read, hread, canonicalForm_roundTrip hread⟩

/-- Numbers as they are spelt in decimal. -/
def decimal (n : ℕ) : List Char := (Nat.repr n).toList

theorem spells_decimal : Spells decimal where
  numeric n c hc := by
    unfold decimal Nat.repr at hc
    rw [String.toList_ofList] at hc
    simp [isNumeric, Nat.isDigit_of_mem_toDigits (by decide) (by decide) hc]
  ne_nil n h := by
    unfold decimal at h
    have hempty : Nat.repr n = "" := String.toList_inj.1 h
    exact Nat.repr_ne_empty hempty
  inj n n' h := Nat.repr_inj.1 (String.toList_inj.1 h)

/-- One rule about one event, which takes one topic. -/
def eventConfig (event : String) : WrittenConfig ℕ :=
  ⟨none, some ⟨none, some [⟨event, none, [[.string "0x0a"]]⟩]⟩⟩

/-- The same, resolved. -/
def eventResolved (event : String) : ResolvedConfig ℕ :=
  ⟨17, some ⟨none, some [⟨event, none, [[.string "0x0a"]]⟩]⟩⟩

theorem eventConfig_resolved (event : String) :
    WrittenConfig.resolveStreamConfig decimal some id (eventConfig event) = some (eventResolved event) := rfl

/-- Selectors that are the names of events. -/
def slotByName : Selectors (SlotValue ℕ) where
  toEventSignature := (·.name)
  toEventSelector e := .string e.name
  signature_congr _ _ h _ := h
  selector_iff _ _ := by simp

/-- A source with one event of one indexed argument. -/
def fooDeclared : List (SourceDeclaration String) :=
  [⟨none, ⟨"Foo", [.mk none "address" (some true) none none], none, none, none⟩⟩]

theorem digests_identify_events :
    (∀ value value', SameValue value (eventResolved "Foo").value → SameValue value' (eventResolved "Bar").value →
      canonicalForm decimal value = canonicalForm decimal value' → SameValue value value') ∧
    ∀ hashes hashes', streamDigestOfStreamHashes decimal id hashes (eventResolved "Foo").value ≠
      streamDigestOfStreamHashes decimal id hashes' (eventResolved "Bar").value := by
  have hspelling : ¬(eventResolved "Foo").OnlySpelling (eventResolved "Bar") := by
    rintro ⟨hspelt, -⟩
    cases hspelt.parse with
    | some hparse =>
      cases hparse.filters with
      | some hrules =>
        cases hrules with
        | cons hrule _ => exact absurd hrule.event (by decide)
  have hclaim := (digests_identify spells_decimal Function.injective_id some id (eventConfig "Foo") (eventConfig "Bar")
    (eventResolved "Foo") (eventConfig_resolved "Foo") (eventResolved "Bar") (eventConfig_resolved "Bar")).2 hspelling
  refine ⟨hclaim.1, fun hashes hashes' hdigest => ?_⟩
  have hbytes := canonicalForm_of_digest spells_decimal Function.injective_id hdigest
  have hsame := ResolvedConfig.sameValue_iff.1 (hclaim.1 _ _ rfl rfl hbytes)
  simp [eventResolved] at hsame

/-- Names that differ in a space are spelt alike. -/
theorem blank_spelt : (eventResolved "F oo").Spelt (eventResolved "Foo") := by
  refine ⟨rfl, .some ⟨rfl, .some (.cons ⟨by decide, .none, ?_⟩ .nil)⟩⟩
  exact .cons (.cons (by simp [SlotValue.Spelt]) .nil) .nil

/-- **A name with a space has the bytes and the digest of the name without it.** A source of the second
plans the second config and refuses the first. -/
theorem blank_adopts :
    WrittenConfig.resolveStreamConfig decimal some id (eventConfig "F oo") = some (eventResolved "F oo") ∧
      WrittenConfig.resolveStreamConfig decimal some id (eventConfig "Foo") = some (eventResolved "Foo") ∧
      canonicalForm decimal (eventResolved "F oo").value = canonicalForm decimal (eventResolved "Foo").value ∧
      ¬SameValue (eventResolved "F oo").value (eventResolved "Foo").value ∧
      (∀ (sha256 : String → String) hashes, streamDigestOfStreamHashes decimal sha256 hashes (eventResolved "F oo").value =
        streamDigestOfStreamHashes decimal sha256 hashes (eventResolved "Foo").value) ∧
      ∀ [DecidableEq (SlotValue ℕ)],
        (resolveFilterRules slotByName some (eventResolved "F oo").rules fooDeclared).isOk = false ∧
          (resolveFilterRules slotByName some (eventResolved "Foo").rules fooDeclared).isOk = true := by
  refine ⟨rfl, rfl, (canonicalForm_value_iff spells_decimal).2 blank_spelt, ?_,
    fun sha256 hashes => blank_spelt.digest_eq spells_decimal hashes, ?_⟩
  · rw [ResolvedConfig.sameValue_iff]
    simp [eventResolved]
  · intro _
    constructor
    · simp [resolveFilterRules, eventResolved, ResolvedConfig.rules, WrittenRule.rule, fooDeclared, reachesOf,
        assertConstrains, SlotValue.slot, wanted, isSignature, AbiEvent.isAnonymous]
      rfl
    · have hreach : reachOf slotByName fooDeclared fooDeclared
          ⟨"Foo", none, [[.topic (.string "0x0a")]]⟩ (.string "Foo") =
            .ok ⟨.string "Foo", none, [[.topic (.string "0x0a")]]⟩ := by
        unfold reachOf
        simp [fooDeclared, topic0Of, AbiEvent.isAnonymous, slotByName]
        rfl
      have hreaches : reachesOf slotByName some fooDeclared ⟨"Foo", none, [[.topic (.string "0x0a")]]⟩ =
          .ok [⟨.string "Foo", none, [[.topic (.string "0x0a")]]⟩] := by
        show [SlotValue.string "Foo"].mapM (reachOf slotByName fooDeclared fooDeclared
          ⟨"Foo", none, [[.topic (.string "0x0a")]]⟩) = _
        rw [List.mapM_cons, hreach]
        rfl
      show (([⟨"Foo", none, [[.topic (.string "0x0a")]]⟩].mapM (reachesOf slotByName some fooDeclared)) >>= _).isOk = true
      rw [List.mapM_cons, hreaches]
      rfl

end Etherfold
