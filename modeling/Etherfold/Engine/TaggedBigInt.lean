import Etherfold.Indexed.Text
import Mathlib.Data.Nat.Digits.Lemmas

/-!
# Big integers in JSON

JSON has no big integers, so one is written as an object with a single reserved member, the
spelling of the number, and what is read of that shape is a big integer again. The writer goes
from the top down over what it finds; the reader goes from the bottom up over what it has read.

* `readBigInt_bigintText`: a number is read back from its spelling.
* `revive_stringify_iff`: **a value reads back as it was written**, without its undefined members,
  exactly when nothing in it looks like a tag.
* `cursor_reads_back_iff`: persisted cursors and batches on the wire.
-/

namespace Etherfold

/-! ### The spelling of a big integer -/

/-- The character of a digit. -/
def digitUnit (d : ℕ) : UInt16 := UInt16.ofNat (48 + d)

def decimalText (n : ℕ) : Text := if n = 0 then [48] else (Nat.digits 10 n).reverse.map digitUnit

/-- `n.toString()`. -/
def bigintText : ℤ → Text
  | .ofNat n => decimalText n
  | .negSucc n => 45 :: decimalText (n + 1)

/-- The value of a digit or a letter, below the base. -/
def digitOf (base : ℕ) (unit : UInt16) : Option ℕ :=
  let n := unit.toNat
  let value : Option ℕ :=
    if 48 ≤ n ∧ n ≤ 57 then some (n - 48)
    else if 97 ≤ n ∧ n ≤ 122 then some (n - 87)
    else if 65 ≤ n ∧ n ≤ 90 then some (n - 55)
    else none
  value.filter (· < base)

/-- At least one digit. -/
def readDigits (base : ℕ) (digits : Text) : Option ℕ :=
  if digits = [] then none else (digits.mapM (digitOf base)).map fun values => Nat.ofDigits base values.reverse

/-- White space and line ends, as a numeric literal may be surrounded by. -/
def isStrWhiteSpace (unit : UInt16) : Bool :=
  let n := unit.toNat
  (9 ≤ n && n ≤ 13) || n == 0x20 || n == 0xa0 || n == 0x1680 || (0x2000 ≤ n && n ≤ 0x200a) || n == 0x2028 ||
    n == 0x2029 || n == 0x202f || n == 0x205f || n == 0x3000 || n == 0xfeff

def trimText (text : Text) : Text :=
  ((text.dropWhile isStrWhiteSpace).reverse.dropWhile isStrWhiteSpace).reverse

/-- **`BigInt(text)`**, none where it throws. An empty text is zero; a prefix names another base,
and only a decimal has a sign. -/
def readBigInt (text : Text) : Option ℤ :=
  let literal := trimText text
  if literal = [] then some 0
  else if literal.take 2 = [48, 120] ∨ literal.take 2 = [48, 88] then (readDigits 16 (literal.drop 2)).map Int.ofNat
  else if literal.take 2 = [48, 111] ∨ literal.take 2 = [48, 79] then (readDigits 8 (literal.drop 2)).map Int.ofNat
  else if literal.take 2 = [48, 98] ∨ literal.take 2 = [48, 66] then (readDigits 2 (literal.drop 2)).map Int.ofNat
  else if literal.head? = some 45 then (readDigits 10 literal.tail).map fun n => -(n : ℤ)
  else if literal.head? = some 43 then (readDigits 10 literal.tail).map Int.ofNat
  else (readDigits 10 literal).map Int.ofNat

theorem digitUnit_toNat {d : ℕ} (h : d < 10) : (digitUnit d).toNat = 48 + d := toNat_unit (by omega)

theorem digitOf_digitUnit {d : ℕ} (h : d < 10) : digitOf 10 (digitUnit d) = some d := by
  unfold digitOf
  rw [digitUnit_toNat h]
  dsimp only
  rw [if_pos (by omega), Option.filter_some, if_pos (by simpa using by omega)]
  congr 1
  omega

/-- A decimal is one or more digits. -/
theorem decimalText_digits (n : ℕ) : ∃ digits : List ℕ, digits ≠ [] ∧ (∀ d ∈ digits, d < 10) ∧
    decimalText n = digits.map digitUnit ∧ Nat.ofDigits 10 digits.reverse = n := by
  unfold decimalText
  split
  · rename_i hzero
    subst hzero
    exact ⟨[0], by simp, by simp, rfl, rfl⟩
  · rename_i hne
    refine ⟨(Nat.digits 10 n).reverse, ?_, ?_, rfl, ?_⟩
    · rw [ne_eq, List.reverse_eq_nil_iff]
      exact Nat.digits_ne_nil_iff_ne_zero.2 hne
    · intro d hd
      exact Nat.digits_lt_base (by omega) (List.mem_reverse.1 hd)
    · rw [List.reverse_reverse, Nat.ofDigits_digits]

theorem readDigits_decimalText (n : ℕ) : readDigits 10 (decimalText n) = some n := by
  obtain ⟨digits, hne, hlt, htext, hvalue⟩ := decimalText_digits n
  have hread : (digits.map digitUnit).mapM (digitOf 10) = some digits := by
    rw [mapM_eq_some_iff, List.forall₂_map_left_iff, List.forall₂_same]
    exact fun d hd => digitOf_digitUnit (hlt d hd)
  unfold readDigits
  rw [htext, if_neg (by simpa using hne), hread, Option.map_some, hvalue]

/-- A text of digits, or of a sign and digits, holds no white space. -/
theorem trimText_of_solid {text : Text} (h : ∀ unit ∈ text, isStrWhiteSpace unit = false) : trimText text = text := by
  have hdrop : ∀ l : Text, (∀ unit ∈ l, isStrWhiteSpace unit = false) → l.dropWhile isStrWhiteSpace = l := by
    intro l hl
    cases l with
    | nil => rfl
    | cons u l => exact List.dropWhile_cons_of_neg (by simp [hl u List.mem_cons_self])
  unfold trimText
  rw [hdrop text h, hdrop _ fun unit hunit => h unit (List.mem_reverse.1 hunit), List.reverse_reverse]

theorem digitUnit_solid {d : ℕ} (h : d < 10) : isStrWhiteSpace (digitUnit d) = false := by
  unfold isStrWhiteSpace
  rw [digitUnit_toNat h]
  simp
  omega

/-- **A number is read back from its spelling.** -/
theorem readBigInt_bigintText (n : ℤ) : readBigInt (bigintText n) = some n := by
  have hdecimal : ∀ n : ℕ, readBigInt (decimalText n) = some (n : ℤ) ∧
      readBigInt (45 :: decimalText n) = some (-(n : ℤ)) := by
    intro n
    have hread := readDigits_decimalText n
    obtain ⟨digits, hne, hlt, htext, -⟩ := decimalText_digits n
    have hsolid : ∀ unit ∈ decimalText n, isStrWhiteSpace unit = false ∧ 48 ≤ unit.toNat ∧ unit.toNat < 58 := by
      intro unit hunit
      rw [htext] at hunit
      obtain ⟨d, hd, rfl⟩ := List.mem_map.1 hunit
      have hten := hlt d hd
      refine ⟨digitUnit_solid hten, ?_⟩
      rw [digitUnit_toNat hten]
      omega
    have htextne : decimalText n ≠ [] := by
      rw [htext]
      simpa using hne
    -- neither a prefix of another base nor a sign is a digit
    have hsecond : ∀ (first p : UInt16), 58 ≤ p.toNat → (decimalText n).take 2 ≠ [first, p] := by
      intro first p hp heq
      have hmem : p ∈ decimalText n := List.mem_of_mem_take (heq ▸ List.mem_cons_of_mem _ List.mem_cons_self)
      have := (hsolid p hmem).2.2
      omega
    have hsign : ∀ sign : UInt16, sign.toNat < 48 → (decimalText n).head? ≠ some sign := by
      intro sign hlow heq
      have := (hsolid sign (List.mem_of_mem_head? heq)).2.1
      omega
    have htake : (45 :: decimalText n).take 2 = 45 :: (decimalText n).take 1 := rfl
    constructor
    · unfold readBigInt
      rw [trimText_of_solid fun unit hunit => (hsolid unit hunit).1]
      dsimp only
      rw [if_neg htextne, if_neg (by simp [hsecond]), if_neg (by simp [hsecond]), if_neg (by simp [hsecond]),
        if_neg (hsign 45 (by decide)), if_neg (hsign 43 (by decide)), hread]
      rfl
    · unfold readBigInt
      have hminus : ∀ unit ∈ (45 : UInt16) :: decimalText n, isStrWhiteSpace unit = false := by
        intro unit hunit
        rcases List.mem_cons.1 hunit with rfl | hunit
        · decide
        · exact (hsolid unit hunit).1
      rw [trimText_of_solid hminus]
      dsimp only
      rw [htake, if_neg (by simp), if_neg (by simp), if_neg (by simp), if_neg (by simp), if_pos (by simp),
        List.tail_cons, hread]
      rfl
  cases n with
  | ofNat n => exact (hdecimal n).1
  | negSucc n =>
    have hread := (hdecimal (n + 1)).2
    have hneg : -((n + 1 : ℕ) : ℤ) = Int.negSucc n := by omega
    rwa [hneg] at hread

namespace Persisted

/-! ### Values with big integers -/

/-- A value the engine keeps or ships. The numbers are the finite ones, and the members of an
object are in the order of the object's. -/
inductive Datum (N : Type) where
  | undefined
  | null
  | boolean (value : Bool)
  | number (value : N)
  | bigint (value : ℤ)
  | string (text : Text)
  | array (items : List (Datum N))
  | object (members : List (Text × Datum N))

variable {N : Type}

/-- The reserved member. -/
def bigintTag : Text := codeUnits "__bigint__"

/-- A big integer on its way out; everything else is as it is. -/
def taggedBnReplacer : Datum N → Datum N
  | .bigint value => .object [(bigintTag, .string (bigintText value))]
  | value => value

/-- What was read of an object, on its way in: one whose only member is the tag with a text is the
big integer the text spells. None is where the spelling throws. -/
def taggedBnReviver : Datum N → Option (Datum N)
  | .object [(name, .string text)] =>
    if name = bigintTag then (readBigInt text).map .bigint else some (.object [(name, .string text)])
  | value => some value

mutual

/-- `JSON.stringify(value, taggedBnReplacer)`, as the JSON its text spells. A member that is
undefined is left out, and an undefined item is null. -/
def stringify : Datum N → JsonValue N
  | .undefined => .null
  | .null => .null
  | .boolean value => .boolean value
  | .number value => .number value
  | .bigint value => .object [(bigintTag, .string (bigintText value))]
  | .string text => .string text
  | .array items => .array (stringifyItems items)
  | .object members => .object (stringifyMembers members)

def stringifyItems : List (Datum N) → List (JsonValue N)
  | [] => []
  | item :: rest => stringify item :: stringifyItems rest

def stringifyMembers : List (Text × Datum N) → List (Text × JsonValue N)
  | [] => []
  | (_, .undefined) :: rest => stringifyMembers rest
  | (name, value) :: rest => (name, stringify value) :: stringifyMembers rest

end

mutual

/-- `JSON.parse(text, taggedBnReviver)`, of the JSON the text spells. -/
def revive : JsonValue N → Option (Datum N)
  | .null => taggedBnReviver .null
  | .boolean value => taggedBnReviver (.boolean value)
  | .number value => taggedBnReviver (.number value)
  | .string text => taggedBnReviver (.string text)
  | .array items => (reviveItems items).bind fun items => taggedBnReviver (.array items)
  | .object members => (reviveMembers members).bind fun members => taggedBnReviver (.object members)

def reviveItems : List (JsonValue N) → Option (List (Datum N))
  | [] => some []
  | item :: rest => (revive item).bind fun item => (reviveItems rest).map (item :: ·)

def reviveMembers : List (Text × JsonValue N) → Option (List (Text × Datum N))
  | [] => some []
  | (name, value) :: rest => (revive value).bind fun value => (reviveMembers rest).map ((name, value) :: ·)

end

/-- What is written of a value is what the replacer makes of it. -/
theorem stringify_taggedBnReplacer (value : Datum N) : stringify (taggedBnReplacer value) = stringify value := by
  cases value <;> simp [taggedBnReplacer, stringify, stringifyMembers]

mutual

/-- The value without its undefined members. -/
def Datum.defined : Datum N → Datum N
  | .array items => .array (definedItems items)
  | .object members => .object (definedMembers members)
  | value => value

def definedItems : List (Datum N) → List (Datum N)
  | [] => []
  | item :: rest => item.defined :: definedItems rest

def definedMembers : List (Text × Datum N) → List (Text × Datum N)
  | [] => []
  | (_, .undefined) :: rest => definedMembers rest
  | (name, value) :: rest => (name, value.defined) :: definedMembers rest

end

/-- An object of the data whose only defined member is the reserved one, with a text. -/
def LooksTagged (members : List (Text × Datum N)) : Prop :=
  ∃ text, definedMembers members = [(bigintTag, .string text)]

mutual

/-- No object in the value looks like a tag. -/
def Datum.Clean : Datum N → Prop
  | .array items => CleanItems items
  | .object members => ¬LooksTagged members ∧ CleanMembers members
  | _ => True

def CleanItems : List (Datum N) → Prop
  | [] => True
  | item :: rest => item.Clean ∧ CleanItems rest

def CleanMembers : List (Text × Datum N) → Prop
  | [] => True
  | (_, value) :: rest => value.Clean ∧ CleanMembers rest

end

mutual

/-- A value, all the items of its arrays values. -/
def Datum.Dense : Datum N → Prop
  | .undefined => False
  | .array items => DenseItems items
  | .object members => DenseMembers members
  | _ => True

def DenseItems : List (Datum N) → Prop
  | [] => True
  | item :: rest => item.Dense ∧ DenseItems rest

def DenseMembers : List (Text × Datum N) → Prop
  | [] => True
  | (_, .undefined) :: rest => DenseMembers rest
  | (_, value) :: rest => value.Dense ∧ DenseMembers rest

end

/-! ### Reading back -/

/-- Where a tag is read the answer is no object. -/
theorem taggedBnReviver_object (members : List (Text × Datum N)) :
    taggedBnReviver (.object members) = some (.object members) ∨
      (∃ text, members = [(bigintTag, .string text)]) ∧
        ∀ members' : List (Text × Datum N), taggedBnReviver (.object members) ≠ some (.object members') := by
  unfold taggedBnReviver
  split
  · rename_i name text heq
    injection heq with heq
    split
    · rename_i htag
      right
      refine ⟨⟨text, by rw [heq, htag]⟩, ?_⟩
      cases readBigInt text <;> simp
    · exact .inl (by rw [heq])
  · exact .inl rfl

theorem taggedBnReviver_tag (text : Text) :
    taggedBnReviver (.object [(bigintTag, .string text)] : Datum N) = (readBigInt text).map .bigint := by
  simp only [taggedBnReviver, if_true]

/-- **What is read of an object is the object**, exactly when its members are read back and it
does not look like a tag. -/
theorem revive_object_iff {written : List (Text × JsonValue N)} {members : List (Text × Datum N)} :
    revive (.object written) = some (.object members) ↔
      reviveMembers written = some members ∧ ¬∃ text, members = [(bigintTag, .string text)] := by
  rw [revive, Option.bind_eq_some_iff]
  constructor
  · rintro ⟨read, hread, hrevive⟩
    rcases taggedBnReviver_object read with hself | ⟨-, hnever⟩
    · rw [hself] at hrevive
      injection hrevive with hrevive
      injection hrevive with hrevive
      subst hrevive
      refine ⟨hread, ?_⟩
      rintro ⟨text, rfl⟩
      rw [taggedBnReviver_tag] at hself
      cases hvalue : readBigInt text with
      | none => rw [hvalue] at hself; cases hself
      | some value => rw [hvalue] at hself; cases hself
    · exact absurd hrevive (hnever members)
  · rintro ⟨hread, hplain⟩
    refine ⟨members, hread, ?_⟩
    rcases taggedBnReviver_object members with hself | ⟨htag, -⟩
    · exact hself
    · exact absurd htag hplain

theorem revive_array_iff {written : List (JsonValue N)} {items : List (Datum N)} :
    revive (.array written) = some (.array items) ↔ reviveItems written = some items := by
  rw [revive, Option.bind_eq_some_iff]
  constructor
  · rintro ⟨read, hread, hrevive⟩
    cases hrevive
    exact hread
  · exact fun h => ⟨items, h, rfl⟩

theorem revive_tag (value : ℤ) :
    revive (.object [(bigintTag, .string (bigintText value))] : JsonValue N) = some (.bigint value) := by
  have htext : revive (.string (bigintText value) : JsonValue N) = some (.string (bigintText value)) := rfl
  rw [revive, reviveMembers, htext, Option.bind_some, reviveMembers, Option.map_some, Option.bind_some,
    taggedBnReviver_tag, readBigInt_bigintText]
  rfl

theorem stringifyMembers_cons {name : Text} {value : Datum N} (h : value ≠ .undefined) (rest : List (Text × Datum N)) :
    stringifyMembers ((name, value) :: rest) = (name, stringify value) :: stringifyMembers rest := by
  cases value with
  | undefined => exact absurd rfl h
  | _ => rw [stringifyMembers]; simp

theorem definedMembers_cons {name : Text} {value : Datum N} (h : value ≠ .undefined) (rest : List (Text × Datum N)) :
    definedMembers ((name, value) :: rest) = (name, value.defined) :: definedMembers rest := by
  cases value with
  | undefined => exact absurd rfl h
  | _ => rw [definedMembers]; simp

mutual

/-- **A value reads back as it was written**, without its undefined members, exactly when nothing
in it looks like a tag. -/
theorem revive_stringify_iff : ∀ {value : Datum N}, value.Dense →
    (revive (stringify value) = some value.defined ↔ value.Clean)
  | .undefined, h => by simp [Datum.Dense] at h
  | .null, _ => by simp [stringify, revive, taggedBnReviver, Datum.defined, Datum.Clean]
  | .boolean _, _ => by simp [stringify, revive, taggedBnReviver, Datum.defined, Datum.Clean]
  | .number _, _ => by simp [stringify, revive, taggedBnReviver, Datum.defined, Datum.Clean]
  | .string _, _ => by simp [stringify, revive, taggedBnReviver, Datum.defined, Datum.Clean]
  | .bigint value, _ => by
    rw [stringify, revive_tag]
    simp [Datum.defined, Datum.Clean]
  | .array items, h => by
    rw [Datum.Dense] at h
    rw [stringify, Datum.defined, revive_array_iff, reviveItems_stringify_iff h, Datum.Clean]
  | .object members, h => by
    rw [Datum.Dense] at h
    rw [stringify, Datum.defined, revive_object_iff, reviveMembers_stringify_iff h, Datum.Clean, LooksTagged, and_comm]

theorem reviveItems_stringify_iff : ∀ {items : List (Datum N)}, DenseItems items →
    (reviveItems (stringifyItems items) = some (definedItems items) ↔ CleanItems items)
  | [], _ => by simp [stringifyItems, reviveItems, definedItems, CleanItems]
  | item :: rest, h => by
    rw [DenseItems] at h
    rw [stringifyItems, reviveItems, definedItems, CleanItems, ← revive_stringify_iff h.1,
      ← reviveItems_stringify_iff h.2]
    simp [Option.bind_eq_some_iff]

theorem reviveMembers_stringify_iff : ∀ {members : List (Text × Datum N)}, DenseMembers members →
    (reviveMembers (stringifyMembers members) = some (definedMembers members) ↔ CleanMembers members)
  | [], _ => by simp [stringifyMembers, reviveMembers, definedMembers, CleanMembers]
  | (name, value) :: rest, h => by
    by_cases hundefined : value = .undefined
    · subst hundefined
      rw [DenseMembers] at h
      rw [stringifyMembers, definedMembers, CleanMembers, reviveMembers_stringify_iff h]
      simp [Datum.Clean]
    · have hboth : value.Dense ∧ DenseMembers rest := by
        cases value with
        | undefined => exact absurd rfl hundefined
        | _ => rw [DenseMembers] at h <;> simp_all
      rw [stringifyMembers_cons hundefined, definedMembers_cons hundefined, reviveMembers, CleanMembers,
        ← revive_stringify_iff hboth.1, ← reviveMembers_stringify_iff hboth.2]
      simp [Option.bind_eq_some_iff]

end

/-! ### Cursors and batches -/

/-- JSON texts: printed, and parsed or refused. -/
structure JsonText (N : Type) where
  print : JsonValue N → Text
  parse : Text → Option (JsonValue N)

/-- The text of a value parses to what it spells. -/
def JsonText.RoundTrips (j : JsonText N) (value : Datum N) : Prop :=
  j.parse (j.print (stringify value)) = some (stringify value)

/-- A block of the reorg-eligible window, with its decoded events. -/
structure EventBlock (N : Type) where
  number : N
  hash : Text
  events : List (Datum N)

/-- A sync cursor. -/
structure LastSync (N : Type) where
  context : Datum N
  latestBlock : N
  lastFromBlock : N
  lastToBlock : N
  unconfirmedBlocks : List (EventBlock N)

/-- A batch on the wire. -/
structure WireBatch (N : Type) where
  context : Datum N
  fromBlock : N
  toBlock : N
  latestBlock : N
  logs : List (Datum N)

def EventBlock.toDatum (block : EventBlock N) : Datum N :=
  .object [(codeUnits "number", .number block.number), (codeUnits "hash", .string block.hash),
    (codeUnits "events", .array block.events)]

def LastSync.toDatum (lastSync : LastSync N) : Datum N :=
  .object [(codeUnits "context", lastSync.context), (codeUnits "latestBlock", .number lastSync.latestBlock),
    (codeUnits "lastFromBlock", .number lastSync.lastFromBlock), (codeUnits "lastToBlock", .number lastSync.lastToBlock),
    (codeUnits "unconfirmedBlocks", .array (lastSync.unconfirmedBlocks.map EventBlock.toDatum))]

def WireBatch.toDatum (batch : WireBatch N) : Datum N :=
  .object [(codeUnits "context", batch.context), (codeUnits "fromBlock", .number batch.fromBlock),
    (codeUnits "toBlock", .number batch.toBlock), (codeUnits "latestBlock", .number batch.latestBlock),
    (codeUnits "logs", .array batch.logs)]

/-- The identity and the events are values, and nothing they hold is an undefined item. -/
structure LastSync.Dense (lastSync : LastSync N) : Prop where
  context : lastSync.context.Dense
  events : ∀ block ∈ lastSync.unconfirmedBlocks, ∀ event ∈ block.events, event.Dense

structure WireBatch.Dense (batch : WireBatch N) : Prop where
  context : batch.context.Dense
  logs : ∀ log ∈ batch.logs, log.Dense

/-- Nothing in the identity or in an event looks like a tag. -/
def LastSync.Clean (lastSync : LastSync N) : Prop :=
  lastSync.context.Clean ∧ ∀ block ∈ lastSync.unconfirmedBlocks, ∀ event ∈ block.events, event.Clean

def WireBatch.Clean (batch : WireBatch N) : Prop := batch.context.Clean ∧ ∀ log ∈ batch.logs, log.Clean

def serializeLastSync (j : JsonText N) (lastSync : LastSync N) : Text := j.print (stringify lastSync.toDatum)

/-- What a cursor reads as; none where the read throws. -/
def deserializeLastSync (j : JsonText N) (text : Text) : Option (Datum N) := (j.parse text).bind revive

/-- A stored text that does not parse is taken for never synced. -/
def parseStoredCursor (j : JsonText N) (stored : Option Text) : Option (Datum N) := stored.bind (deserializeLastSync j)

def serializeWireBatch (j : JsonText N) (batch : WireBatch N) : Text := j.print (stringify batch.toDatum)

def parseWireBatch (j : JsonText N) (text : Text) : Option (Datum N) := (j.parse text).bind revive

/-- A cursor reads back as it was written, up to undefined members, and is not taken for none. -/
def LastSync.ReadsBack (j : JsonText N) (lastSync : LastSync N) : Prop :=
  deserializeLastSync j (serializeLastSync j lastSync) = some lastSync.toDatum.defined ∧
    parseStoredCursor j (some (serializeLastSync j lastSync)) ≠ none

def WireBatch.ReadsBack (j : JsonText N) (batch : WireBatch N) : Prop :=
  parseWireBatch j (serializeWireBatch j batch) = some batch.toDatum.defined

theorem denseItems_iff {items : List (Datum N)} : DenseItems items ↔ ∀ item ∈ items, item.Dense := by
  induction items with
  | nil => simp [DenseItems]
  | cons item rest ih => simp [DenseItems, ih]

theorem cleanItems_iff {items : List (Datum N)} : CleanItems items ↔ ∀ item ∈ items, item.Clean := by
  induction items with
  | nil => simp [CleanItems]
  | cons item rest ih => simp [CleanItems, ih]

/-- An object with two defined members does not look like a tag. -/
theorem not_looksTagged {members : List (Text × Datum N)} (h : 2 ≤ (definedMembers members).length) :
    ¬LooksTagged members := by
  rintro ⟨text, htext⟩
  rw [htext] at h
  simp at h

theorem denseMembers_cons {name : Text} {value : Datum N} {rest : List (Text × Datum N)} (h : value.Dense)
    (hrest : DenseMembers rest) : DenseMembers ((name, value) :: rest) := by
  cases value with
  | undefined => simp [Datum.Dense] at h
  | _ => rw [DenseMembers] <;> simp_all

theorem ne_undefined {value : Datum N} (h : value.Dense) : value ≠ .undefined := by
  rintro rfl
  simp [Datum.Dense] at h

theorem EventBlock.dense {block : EventBlock N} (h : ∀ event ∈ block.events, event.Dense) : block.toDatum.Dense := by
  unfold EventBlock.toDatum
  simp only [Datum.Dense, DenseMembers, and_true, true_and]
  exact denseItems_iff.2 h

theorem EventBlock.clean_iff {block : EventBlock N} : block.toDatum.Clean ↔ ∀ event ∈ block.events, event.Clean := by
  unfold EventBlock.toDatum
  have hplain : ¬LooksTagged [(codeUnits "number", Datum.number block.number), (codeUnits "hash", .string block.hash),
      (codeUnits "events", .array block.events)] :=
    not_looksTagged (by simp [definedMembers])
  simp only [Datum.Clean, CleanMembers, hplain, not_false_eq_true, and_true, true_and]
  exact cleanItems_iff

theorem LastSync.dense_toDatum {lastSync : LastSync N} (h : lastSync.Dense) : lastSync.toDatum.Dense := by
  have hblocks : DenseItems (lastSync.unconfirmedBlocks.map EventBlock.toDatum) := by
    rw [denseItems_iff]
    intro item hitem
    obtain ⟨block, hblock, rfl⟩ := List.mem_map.1 hitem
    exact EventBlock.dense (h.events block hblock)
  unfold LastSync.toDatum
  rw [Datum.Dense]
  apply denseMembers_cons h.context
  simp only [DenseMembers, Datum.Dense, and_true, true_and]
  exact hblocks

/-- A record with a context and another member is no tag. -/
theorem not_looksTagged_context {context : Datum N} (hcontext : context.Dense) {rest : List (Text × Datum N)}
    (hrest : 1 ≤ (definedMembers rest).length) : ¬LooksTagged ((codeUnits "context", context) :: rest) := by
  apply not_looksTagged
  rw [definedMembers_cons (ne_undefined hcontext), List.length_cons]
  omega

theorem LastSync.clean_toDatum {lastSync : LastSync N} (h : lastSync.Dense) :
    lastSync.toDatum.Clean ↔ lastSync.Clean := by
  unfold LastSync.toDatum LastSync.Clean
  rw [Datum.Clean, and_iff_right (not_looksTagged_context h.context (by simp [definedMembers]))]
  simp only [CleanMembers, Datum.Clean, true_and, and_true]
  rw [cleanItems_iff]
  simp only [List.forall_mem_map, EventBlock.clean_iff]

theorem WireBatch.dense_toDatum {batch : WireBatch N} (h : batch.Dense) : batch.toDatum.Dense := by
  unfold WireBatch.toDatum
  rw [Datum.Dense]
  apply denseMembers_cons h.context
  simp only [DenseMembers, Datum.Dense, and_true, true_and]
  exact denseItems_iff.2 h.logs

theorem WireBatch.clean_toDatum {batch : WireBatch N} (h : batch.Dense) : batch.toDatum.Clean ↔ batch.Clean := by
  unfold WireBatch.toDatum WireBatch.Clean
  rw [Datum.Clean, and_iff_right (not_looksTagged_context h.context (by simp [definedMembers]))]
  simp only [CleanMembers, Datum.Clean, true_and, and_true]
  rw [cleanItems_iff]

/-- **Persisted cursors and batches read back as they were written** exactly when nothing in their
events looks like a tag. -/
theorem cursor_reads_back_iff (j : JsonText N) :
    (∀ lastSync : LastSync N, lastSync.Dense → j.RoundTrips lastSync.toDatum →
      (lastSync.ReadsBack j ↔ lastSync.Clean)) ∧
    ∀ batch : WireBatch N, batch.Dense → j.RoundTrips batch.toDatum → (batch.ReadsBack j ↔ batch.Clean) := by
  constructor
  · intro lastSync hdense hround
    have hread : deserializeLastSync j (serializeLastSync j lastSync) = revive (stringify lastSync.toDatum) := by
      unfold deserializeLastSync serializeLastSync
      rw [hround, Option.bind_some]
    unfold LastSync.ReadsBack
    rw [← LastSync.clean_toDatum hdense, ← revive_stringify_iff (LastSync.dense_toDatum hdense), hread]
    refine and_iff_left_of_imp fun h => ?_
    unfold parseStoredCursor
    rw [Option.bind_some, hread, h]
    simp
  · intro batch hdense hround
    unfold WireBatch.ReadsBack parseWireBatch serializeWireBatch
    rw [hround, Option.bind_some, revive_stringify_iff (WireBatch.dense_toDatum hdense), WireBatch.clean_toDatum hdense]

/-! ### An event whose one argument has the reserved name -/

/-- A cursor over one block with one event, with the arguments given. -/
def oneEvent (args : List (Text × Datum ℕ)) : LastSync ℕ :=
  ⟨.object [(codeUnits "config", .string (codeUnits "h"))], 7, 0, 7,
    [⟨7, codeUnits "a", [.object [(codeUnits "eventName", .string (codeUnits "E")), (codeUnits "args", .object args)]]⟩]⟩

mutual

/-- The JSON text of a value whose texts need no escapes. -/
def jsonText : JsonValue ℕ → Text
  | .null => codeUnits "null"
  | .boolean value => codeUnits (toString value)
  | .number value => codeUnits (toString value)
  | .string text => 34 :: text ++ [34]
  | .array items => 91 :: jsonItems items ++ [93]
  | .object members => 123 :: jsonMembers members ++ [125]

def jsonItems : List (JsonValue ℕ) → Text
  | [] => []
  | [item] => jsonText item
  | item :: rest => jsonText item ++ 44 :: jsonItems rest

def jsonMembers : List (Text × JsonValue ℕ) → Text
  | [] => []
  | [(name, value)] => 34 :: name ++ 34 :: 58 :: jsonText value
  | (name, value) :: rest => 34 :: name ++ 34 :: 58 :: jsonText value ++ 44 :: jsonMembers rest

end

/-- JSON on the texts of two values; any other text is refused. -/
def jsonOf (a b : Datum ℕ) : JsonText ℕ where
  print := jsonText
  parse text := [stringify a, stringify b].find? fun value => jsonText value = text

theorem jsonOf_first (a b : Datum ℕ) : (jsonOf a b).RoundTrips a := by simp [JsonText.RoundTrips, jsonOf]

theorem jsonOf_second {a b : Datum ℕ} (h : jsonText (stringify a) ≠ jsonText (stringify b)) :
    (jsonOf a b).RoundTrips b := by
  simp [JsonText.RoundTrips, jsonOf, h]

/-- A transfer of five, and a text under the reserved name. -/
def transferred : LastSync ℕ := oneEvent [(codeUnits "amount", .bigint 5)]

def greeted : LastSync ℕ := oneEvent [(bigintTag, .string (codeUnits "hi"))]

/-- JSON on what is stored of these two. -/
def cursorJson : JsonText ℕ := jsonOf transferred.toDatum greeted.toDatum

example : serializeLastSync cursorJson greeted = codeUnits
    ("\x7b\"context\":\x7b\"config\":\"h\"\x7d,\"latestBlock\":7,\"lastFromBlock\":0,\"lastToBlock\":7," ++
      "\"unconfirmedBlocks\":[\x7b\"number\":7,\"hash\":\"a\",\"events\":[\x7b\"eventName\":\"E\"," ++
      "\"args\":\x7b\"__bigint__\":\"hi\"\x7d\x7d]\x7d]\x7d") := by
  decide +kernel

theorem cursorJson_greeted : cursorJson.RoundTrips greeted.toDatum := jsonOf_second (by decide +kernel)

theorem cursor_reads_back_amount : transferred.ReadsBack cursorJson := by
  refine ((cursor_reads_back_iff _).1 _ ⟨?_, ?_⟩ (jsonOf_first _ _)).2 ⟨?_, ?_⟩
  · simp [transferred, oneEvent, Datum.Dense, DenseMembers]
  · simp [transferred, oneEvent, Datum.Dense, DenseMembers]
  · simp [transferred, oneEvent, Datum.Clean, CleanMembers, LooksTagged, definedMembers, Datum.defined,
      codeUnits_injective.eq_iff, bigintTag]
  · simp [transferred, oneEvent, Datum.Clean, CleanMembers, LooksTagged, definedMembers, Datum.defined,
      codeUnits_injective.eq_iff, bigintTag]

/-- A text under the reserved name that spells no number: however JSON prints and parses it, the cursor
is taken for none. -/
theorem tagged_argument_lost : ∃ lastSync : LastSync ℕ, lastSync.Dense ∧
    (∃ j : JsonText ℕ, j.RoundTrips lastSync.toDatum) ∧ ∀ j : JsonText ℕ, j.RoundTrips lastSync.toDatum →
      parseStoredCursor j (some (serializeLastSync j lastSync)) = none ∧ ¬lastSync.ReadsBack j := by
  refine ⟨greeted, ⟨?_, ?_⟩, ⟨cursorJson, cursorJson_greeted⟩, fun j hround => ?_⟩
  · simp [greeted, oneEvent, Datum.Dense, DenseMembers]
  · simp [greeted, oneEvent, Datum.Dense, DenseMembers]
  · have hlost : parseStoredCursor j (some (serializeLastSync j greeted)) = none := by
      unfold parseStoredCursor deserializeLastSync serializeLastSync
      rw [Option.bind_some, hround]
      rfl
    exact ⟨hlost, fun h => h.2 hlost⟩

end Persisted

end Etherfold
