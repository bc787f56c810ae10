import Etherfold.Generation.Registry
import Etherfold.Indexed.Text

/-!
# The bytes a digest is taken over

An object becomes the array of its members, in the order of their keys; a big integer is spelt
as a text; what this leaves is printed, and white space is deleted from what was printed, also
where it stood inside a text.

* `stringify_inj`: what is printed can be read back.
* `filter_stringify`: deleting white space from the print is deleting it from the texts.
* `canonicalForm_eq_iff`: **which values have the same bytes**.
-/

namespace Etherfold

/-- Texts are ordered by their code units. -/
def textLe (a b : String) : Bool := compareText (codeUnits a) (codeUnits b) ≤ 0

/-- A value as a digest takes it. The numbers are the finite ones. -/
inductive JsValue (N : Type) where
  | undefined
  | null
  | boolean (value : Bool)
  | number (value : N)
  | bigint (value : ℤ)
  | string (value : String)
  | array (items : List (JsValue N))
  | object (members : List (String × JsValue N))

/-- What is printed. -/
inductive Json (N : Type) where
  | null
  | boolean (value : Bool)
  | number (value : N)
  | string (value : String)
  | array (items : List (Json N))

variable {N : Type}

mutual

/-- **Objects as the arrays of their members**, by key. An `undefined` member is none, and a big
integer is replaced by its spelling. -/
def normalizeAsArray : JsValue N → Json N
  | .undefined => .null
  | .null => .null
  | .boolean value => .boolean value
  | .number value => .number value
  | .bigint value => .string (toString value ++ "n")
  | .string value => .string value
  | .array items => .array (normalizeItems items)
  | .object members =>
    .array (((normalizeMembers members).insertionSort fun a b => textLe a.1 b.1).map
      fun member => .array [.string member.1, member.2])

def normalizeItems : List (JsValue N) → List (Json N)
  | [] => []
  | item :: items => normalizeAsArray item :: normalizeItems items

def normalizeMembers : List (String × JsValue N) → List (String × Json N)
  | [] => []
  | (_, .undefined) :: members => normalizeMembers members
  | (key, value) :: members => (key, normalizeAsArray value) :: normalizeMembers members

end

/-! ### Printing -/

def hexDigit (n : ℕ) : Char := if n < 10 then Char.ofNat (48 + n) else Char.ofNat (87 + n)

/-- A character between quotes. -/
def quoteChar (c : Char) : List Char :=
  if c.toNat = 34 then ['\\', c]
  else if c.toNat = 92 then ['\\', c]
  else if c.toNat = 8 then ['\\', 'b']
  else if c.toNat = 12 then ['\\', 'f']
  else if c.toNat = 10 then ['\\', 'n']
  else if c.toNat = 13 then ['\\', 'r']
  else if c.toNat = 9 then ['\\', 't']
  else if c.toNat < 32 then ['\\', 'u', '0', '0', hexDigit (c.toNat / 16), hexDigit (c.toNat % 16)]
  else [c]

def quoteMark : Char := Char.ofNat 34

def quote (text : List Char) : List Char := quoteMark :: text.flatMap quoteChar ++ [quoteMark]

section Stringify

-- how the runtime spells a number
variable (numeral : N → List Char)

mutual

/-- A value as it is printed, without white space between its parts. -/
def Json.stringify : Json N → List Char
  | .null => "null".toList
  | .boolean value => if value then "true".toList else "false".toList
  | .number value => numeral value
  | .string value => quote value.toList
  | .array items => '[' :: stringifyItems items

def stringifyItems : List (Json N) → List Char
  | [] => [']']
  | item :: items => item.stringify ++ stringifyRest items

def stringifyRest : List (Json N) → List Char
  | [] => [']']
  | item :: items => ',' :: (item.stringify ++ stringifyRest items)

end

/-- What a pattern calls white space. -/
def isWhiteSpace (c : Char) : Bool :=
  let n := c.toNat
  (9 ≤ n && n ≤ 13) || n = 32 || n = 160 || n = 0x1680 || (0x2000 ≤ n && n ≤ 0x200a) || n = 0x2028 || n = 0x2029 ||
    n = 0x202f || n = 0x205f || n = 0x3000 || n = 0xfeff

/-- **The bytes of a value.** A text passes as it is. -/
def canonicalForm : JsValue N → String
  | .string value => value
  | value => String.ofList (((normalizeAsArray value).stringify numeral).filter (!isWhiteSpace ·))

end Stringify

/-- A character that deleting white space from the print leaves: a tab or a line feed is printed as an
escape. -/
def isSolid (c : Char) : Bool := c.toNat < 32 || !isWhiteSpace c

def solidText (text : String) : String := String.ofList (text.toList.filter isSolid)

mutual

/-- A value without the white space of its texts. -/
def Json.solid : Json N → Json N
  | .null => .null
  | .boolean value => .boolean value
  | .number value => .number value
  | .string value => .string (solidText value)
  | .array items => .array (solidItems items)

def solidItems : List (Json N) → List (Json N)
  | [] => []
  | item :: items => item.solid :: solidItems items

end

/-! ### Reading back a text -/

/-- The value of a digit. -/
def hexValue (d : Char) : ℕ := if d.toNat < 58 then d.toNat - 48 else d.toNat - 87

theorem hexValue_hexDigit : ∀ n < 16, hexValue (hexDigit n) = n := by decide

/-- The first character of a text between quotes, and what follows it. -/
def readChar : List Char → Char × List Char
  | '\\' :: 'u' :: _ :: _ :: a :: b :: rest => (Char.ofNat (hexValue a * 16 + hexValue b), rest)
  | '\\' :: 'b' :: rest => (Char.ofNat 8, rest)
  | '\\' :: 'f' :: rest => (Char.ofNat 12, rest)
  | '\\' :: 'n' :: rest => (Char.ofNat 10, rest)
  | '\\' :: 'r' :: rest => (Char.ofNat 13, rest)
  | '\\' :: 't' :: rest => (Char.ofNat 9, rest)
  | '\\' :: c :: rest => (c, rest)
  | c :: rest => (c, rest)
  | [] => (Char.ofNat 0, [])

theorem char_eq_ofNat {c : Char} {n : ℕ} (h : c.toNat = n) : c = Char.ofNat n := by
  rw [← h, Char.ofNat_toNat]

/-- What a character is printed as tells it. -/
theorem readChar_quoteChar (c : Char) (rest : List Char) : readChar (quoteChar c ++ rest) = (c, rest) := by
  unfold quoteChar
  split_ifs with h1 h2 h3 h4 h5 h6 h7 h8
  · obtain rfl := char_eq_ofNat h1
    rfl
  · obtain rfl := char_eq_ofNat h2
    rfl
  · obtain rfl := char_eq_ofNat h3
    rfl
  · obtain rfl := char_eq_ofNat h4
    rfl
  · obtain rfl := char_eq_ofNat h5
    rfl
  · obtain rfl := char_eq_ofNat h6
    rfl
  · obtain rfl := char_eq_ofNat h7
    rfl
  · show (Char.ofNat (hexValue (hexDigit (c.toNat / 16)) * 16 + hexValue (hexDigit (c.toNat % 16))), rest) = _
    rw [hexValue_hexDigit _ (by omega), hexValue_hexDigit _ (by omega), Nat.div_add_mod', Char.ofNat_toNat]
  · have hslash : c ≠ '\\' := by
      rintro rfl
      exact h2 rfl
    rw [List.singleton_append]
    unfold readChar
    split <;> simp_all

/-- No character is printed as one that starts with a quote. -/
theorem head_quoteChar (c : Char) : ∃ d rest, quoteChar c = d :: rest ∧ d ≠ quoteMark := by
  unfold quoteChar
  split_ifs with h1
  any_goals exact ⟨'\\', _, rfl, by decide⟩
  refine ⟨c, [], rfl, ?_⟩
  rintro rfl
  exact h1 rfl

/-- **A quoted text can be read back**, whatever follows it. -/
theorem quote_inj {text text' rest rest' : List Char}
    (h : quote text ++ rest = quote text' ++ rest') : text = text' ∧ rest = rest' := by
  unfold quote at h
  simp only [List.cons_append, List.cons.injEq, true_and, List.append_assoc, List.nil_append] at h
  induction text generalizing text' with
  | nil =>
    cases text' with
    | nil => exact ⟨rfl, by simpa using h⟩
    | cons c' text' =>
      obtain ⟨d, tail, hd, hne⟩ := head_quoteChar c'
      rw [List.flatMap_cons, hd, List.flatMap_nil, List.nil_append, List.cons_append, List.cons_append] at h
      injection h with h
      exact absurd h.symm hne
  | cons c text ih =>
    cases text' with
    | nil =>
      obtain ⟨d, tail, hd, hne⟩ := head_quoteChar c
      rw [List.flatMap_cons, hd, List.flatMap_nil, List.nil_append, List.cons_append, List.cons_append] at h
      injection h with h
      exact absurd h hne
    | cons c' text' =>
      rw [List.flatMap_cons, List.flatMap_cons, List.append_assoc, List.append_assoc] at h
      have hread := congrArg readChar h
      rw [readChar_quoteChar, readChar_quoteChar] at hread
      injection hread with hc hrest
      obtain ⟨htext, hrest⟩ := ih hrest
      exact ⟨by rw [hc, htext], hrest⟩

/-! ### Reading back a value -/

section Stringify

variable {numeral : N → List Char}

/-- A character of a spelt number. -/
def isNumeric (c : Char) : Bool := c.isDigit || c = '-' || c = '+' || c = '.' || c = 'e'

/-- How a number is spelt tells it. -/
structure Spells (numeral : N → List Char) : Prop where
  numeric : ∀ n, ∀ c ∈ numeral n, isNumeric c = true
  ne_nil : ∀ n, numeral n ≠ []
  inj : Function.Injective numeral

/-- What follows a value inside an array, or nothing. -/
def EndsValue (rest : List Char) : Prop := ∀ c ∈ rest.head?, isNumeric c = false

theorem endsValue_cons {c : Char} {rest : List Char} (h : isNumeric c = false) : EndsValue (c :: rest) := by
  rintro d hd
  injection hd with hd
  rw [← hd]
  exact h

theorem numeral_inj (hnumeral : Spells numeral) {n n' : N} {rest rest' : List Char} (hrest : EndsValue rest)
    (hrest' : EndsValue rest') (h : numeral n ++ rest = numeral n' ++ rest') : n = n' ∧ rest = rest' := by
  have htake : ∀ (n : N) (rest : List Char), EndsValue rest → (numeral n ++ rest).takeWhile isNumeric = numeral n := by
    intro n rest hrest
    rw [List.takeWhile_append_of_pos (hnumeral.numeric n)]
    cases rest with
    | nil => simp
    | cons c rest => rw [List.takeWhile_cons_of_neg (by rw [hrest c rfl]; decide), List.append_nil]
  have hn : numeral n = numeral n' := by rw [← htake n rest hrest, h, htake n' rest' hrest']
  refine ⟨hnumeral.inj hn, ?_⟩
  rw [hn] at h
  exact List.append_cancel_left h

/-- What kind of value a print is of. -/
def Json.kind : Json N → ℕ
  | .null => 0
  | .boolean value => if value then 1 else 2
  | .number _ => 3
  | .string _ => 4
  | .array _ => 5

/-- The kind is told by the first character. -/
def kindOf (c : Char) : ℕ :=
  if c = 'n' then 0 else if c = 't' then 1 else if c = 'f' then 2 else if c = quoteMark then 4
  else if c = '[' then 5 else if c = ']' then 6 else 3

theorem head_stringify (hnumeral : Spells numeral) (j : Json N) :
    ∃ c tail, j.stringify numeral = c :: tail ∧ kindOf c = j.kind := by
  cases j with
  | null => exact ⟨'n', ['u', 'l', 'l'], by rw [Json.stringify]; rfl, rfl⟩
  | boolean value =>
    cases value with
    | false => exact ⟨'f', ['a', 'l', 's', 'e'], by rw [Json.stringify]; rfl, rfl⟩
    | true => exact ⟨'t', ['r', 'u', 'e'], by rw [Json.stringify]; rfl, rfl⟩
  | number n =>
    obtain ⟨c, tail, hc⟩ := List.exists_cons_of_ne_nil (hnumeral.ne_nil n)
    have hnumeric := hnumeral.numeric n c (by rw [hc]; exact List.mem_cons_self)
    refine ⟨c, tail, by rw [Json.stringify, hc], ?_⟩
    have hne : ∀ d, isNumeric d = false → c ≠ d := by
      rintro d hd rfl
      rw [hnumeric] at hd
      cases hd
    unfold kindOf
    rw [if_neg (hne _ (by decide)), if_neg (hne _ (by decide)), if_neg (hne _ (by decide)), if_neg (hne _ (by decide)),
      if_neg (hne _ (by decide)), if_neg (hne _ (by decide))]
    rfl
  | string value => exact ⟨quoteMark, _, by rw [Json.stringify]; rfl, rfl⟩
  | array items => exact ⟨'[', _, by rw [Json.stringify], rfl⟩

theorem kind_of_stringify (hnumeral : Spells numeral) {j j' : Json N} {rest rest' : List Char}
    (h : j.stringify numeral ++ rest = j'.stringify numeral ++ rest') : j.kind = j'.kind := by
  obtain ⟨c, tail, hj, hc⟩ := head_stringify hnumeral j
  obtain ⟨c', tail', hj', hc'⟩ := head_stringify hnumeral j'
  rw [hj, hj', List.cons_append, List.cons_append] at h
  injection h with h
  rw [← hc, ← hc', h]

/-- No value is printed as what ends an array. -/
theorem stringify_ne_end (hnumeral : Spells numeral) (j : Json N) {tail rest : List Char} :
    j.stringify numeral ++ tail ≠ ']' :: rest := by
  intro h
  obtain ⟨c, printed, hj, hc⟩ := head_stringify hnumeral j
  rw [hj, List.cons_append] at h
  injection h with h
  rw [h] at hc
  cases j with
  | boolean value => cases value <;> cases hc
  | _ => cases hc

theorem endsValue_stringifyRest (items : List (Json N)) (rest : List Char) :
    EndsValue (stringifyRest numeral items ++ rest) := by
  cases items with
  | nil => exact endsValue_cons (by decide)
  | cons item items => exact endsValue_cons (by decide)

mutual

/-- **What is printed can be read back.** -/
theorem stringify_inj (hnumeral : Spells numeral) : ∀ (j j' : Json N) {rest rest' : List Char},
    EndsValue rest → EndsValue rest' → j.stringify numeral ++ rest = j'.stringify numeral ++ rest' →
      j = j' ∧ rest = rest'
  | .null, j', rest, rest', _, _, h => by
    have hkind := kind_of_stringify hnumeral h
    cases j' with
    | null => exact ⟨rfl, List.append_cancel_left h⟩
    | boolean value => cases value <;> cases hkind
    | _ => cases hkind
  | .boolean value, j', rest, rest', _, _, h => by
    have hkind := kind_of_stringify hnumeral h
    cases j' with
    | boolean value' =>
      obtain rfl : value = value' := by cases value <;> cases value' <;> first | rfl | cases hkind
      exact ⟨rfl, List.append_cancel_left h⟩
    | _ => cases value <;> cases hkind
  | .number n, j', rest, rest', hrest, hrest', h => by
    have hkind := kind_of_stringify hnumeral h
    cases j' with
    | number n' =>
      rw [Json.stringify, Json.stringify] at h
      obtain ⟨rfl, hrest⟩ := numeral_inj hnumeral hrest hrest' h
      exact ⟨rfl, hrest⟩
    | boolean value => cases value <;> cases hkind
    | _ => cases hkind
  | .string text, j', rest, rest', _, _, h => by
    have hkind := kind_of_stringify hnumeral h
    cases j' with
    | string text' =>
      rw [Json.stringify, Json.stringify] at h
      obtain ⟨htext, hrest⟩ := quote_inj h
      exact ⟨by rw [String.toList_injective htext], hrest⟩
    | boolean value => cases value <;> cases hkind
    | _ => cases hkind
  | .array items, j', rest, rest', _, _, h => by
    have hkind := kind_of_stringify hnumeral h
    cases j' with
    | array items' =>
      rw [Json.stringify, Json.stringify, List.cons_append, List.cons_append] at h
      injection h with _ h
      obtain ⟨hitems, hrest⟩ := stringifyItems_inj hnumeral items items' h
      exact ⟨by rw [hitems], hrest⟩
    | boolean value => cases value <;> cases hkind
    | _ => cases hkind

theorem stringifyItems_inj (hnumeral : Spells numeral) : ∀ (items items' : List (Json N)) {rest rest' : List Char},
    stringifyItems numeral items ++ rest = stringifyItems numeral items' ++ rest' → items = items' ∧ rest = rest'
  | [], [], rest, rest', h => ⟨rfl, List.append_cancel_left h⟩
  | [], item' :: items', rest, rest', h => by
    rw [stringifyItems, stringifyItems, List.append_assoc] at h
    exact absurd h.symm (stringify_ne_end hnumeral item')
  | item :: items, [], rest, rest', h => by
    rw [stringifyItems, stringifyItems, List.append_assoc] at h
    exact absurd h (stringify_ne_end hnumeral item)
  | item :: items, item' :: items', rest, rest', h => by
    rw [stringifyItems, stringifyItems, List.append_assoc, List.append_assoc] at h
    obtain ⟨hitem, htail⟩ :=
      stringify_inj hnumeral item item' (endsValue_stringifyRest _ _) (endsValue_stringifyRest _ _) h
    obtain ⟨hitems, hrest⟩ := stringifyRest_inj hnumeral items items' htail
    exact ⟨by rw [hitem, hitems], hrest⟩

theorem stringifyRest_inj (hnumeral : Spells numeral) : ∀ (items items' : List (Json N)) {rest rest' : List Char},
    stringifyRest numeral items ++ rest = stringifyRest numeral items' ++ rest' → items = items' ∧ rest = rest'
  | [], [], rest, rest', h => ⟨rfl, List.append_cancel_left h⟩
  | [], item' :: items', rest, rest', h => by
    injection h with h
    cases h
  | item :: items, [], rest, rest', h => by
    injection h with h
    cases h
  | item :: items, item' :: items', rest, rest', h => by
    rw [stringifyRest, stringifyRest, List.cons_append, List.cons_append, List.append_assoc, List.append_assoc] at h
    injection h with _ h
    obtain ⟨hitem, htail⟩ :=
      stringify_inj hnumeral item item' (endsValue_stringifyRest _ _) (endsValue_stringifyRest _ _) h
    obtain ⟨hitems, hrest⟩ := stringifyRest_inj hnumeral items items' htail
    exact ⟨by rw [hitem, hitems], hrest⟩

end

/-! ### Deleting white space -/

theorem isWhiteSpace_hexDigit : ∀ n < 16, isWhiteSpace (hexDigit n) = false := by decide

theorem isWhiteSpace_numeric {c : Char} (h : isNumeric c = true) : isWhiteSpace c = false := by
  simp only [isNumeric, Bool.or_eq_true, decide_eq_true_eq] at h
  rcases h with (((h | rfl) | rfl) | rfl) | rfl
  · have hdigit : 48 ≤ c.toNat ∧ c.toNat ≤ 57 := by
      simp only [Char.isDigit, ge_iff_le, Bool.and_eq_true, decide_eq_true_eq, UInt32.le_iff_toNat_le] at h
      exact h
    simp only [isWhiteSpace, Bool.or_eq_false_iff, Bool.and_eq_false_iff, decide_eq_false_iff_not]
    omega
  all_goals rfl

theorem solid_of_all {l : List Char} (h : (l.all fun d => !isWhiteSpace d) = true) :
    ∀ d ∈ l, isWhiteSpace d = false := by
  intro d hd
  have hall := List.all_eq_true.1 h d hd
  rw [Bool.not_eq_true'] at hall
  exact hall

/-- An escape has no white space, and any other character is printed as it is. -/
theorem quoteChar_cases (c : Char) :
    (isSolid c = true ∧ ∀ d ∈ quoteChar c, isWhiteSpace d = false) ∨
      quoteChar c = [c] ∧ isSolid c = !isWhiteSpace c := by
  unfold quoteChar
  split_ifs with h1 h2 h3 h4 h5 h6 h7 h8
  · obtain rfl := char_eq_ofNat h1
    exact .inl ⟨by decide, solid_of_all (by decide)⟩
  · obtain rfl := char_eq_ofNat h2
    exact .inl ⟨by decide, solid_of_all (by decide)⟩
  · obtain rfl := char_eq_ofNat h3
    exact .inl ⟨by decide, solid_of_all (by decide)⟩
  · obtain rfl := char_eq_ofNat h4
    exact .inl ⟨by decide, solid_of_all (by decide)⟩
  · obtain rfl := char_eq_ofNat h5
    exact .inl ⟨by decide, solid_of_all (by decide)⟩
  · obtain rfl := char_eq_ofNat h6
    exact .inl ⟨by decide, solid_of_all (by decide)⟩
  · obtain rfl := char_eq_ofNat h7
    exact .inl ⟨by decide, solid_of_all (by decide)⟩
  · refine .inl ⟨by simp [isSolid, h8], ?_⟩
    have hhigh := isWhiteSpace_hexDigit (c.toNat / 16) (by omega)
    have hlow := isWhiteSpace_hexDigit (c.toNat % 16) (by omega)
    simp only [List.forall_mem_cons, hhigh, hlow, List.not_mem_nil, IsEmpty.forall_iff, implies_true, and_true]
    decide
  · exact .inr ⟨rfl, by simp [isSolid, h8]⟩

theorem filter_quoteChar (c : Char) :
    (quoteChar c).filter (!isWhiteSpace ·) = if isSolid c then quoteChar c else [] := by
  rcases quoteChar_cases c with ⟨hsolid, hprinted⟩ | ⟨hprinted, hsolid⟩
  · rw [hsolid, if_pos rfl, List.filter_eq_self]
    intro d hd
    rw [hprinted d hd]
    rfl
  · rw [hprinted, hsolid, List.filter_singleton]
    cases isWhiteSpace c <;> rfl

theorem filter_quote (text : List Char) :
    (quote text).filter (!isWhiteSpace ·) = quote (text.filter isSolid) := by
  have hmark : isWhiteSpace quoteMark = false := by decide
  have htext : (text.flatMap quoteChar).filter (!isWhiteSpace ·) = (text.filter isSolid).flatMap quoteChar := by
    induction text with
    | nil => rfl
    | cons c text ih =>
      rw [List.flatMap_cons, List.filter_append, ih, filter_quoteChar, List.filter_cons]
      split <;> simp
  unfold quote
  rw [List.filter_append, List.filter_cons_of_pos (by rw [hmark]; rfl), htext,
    List.filter_cons_of_pos (by rw [hmark]; rfl), List.filter_nil]

mutual

/-- **Deleting white space from the print is deleting it from the texts.** -/
theorem filter_stringify (hnumeral : Spells numeral) : ∀ j : Json N,
    (j.stringify numeral).filter (!isWhiteSpace ·) = j.solid.stringify numeral
  | .null => by rw [Json.solid, Json.stringify]; rfl
  | .boolean value => by cases value <;> rw [Json.solid, Json.stringify] <;> rfl
  | .number n => by
    rw [Json.solid, Json.stringify, List.filter_eq_self]
    intro c hc
    rw [isWhiteSpace_numeric (hnumeral.numeric n c hc)]
    rfl
  | .string text => by
    rw [Json.solid, Json.stringify, Json.stringify, filter_quote, solidText, String.toList_ofList]
  | .array items => by
    rw [Json.solid, Json.stringify, Json.stringify, List.filter_cons_of_pos (by decide), filter_stringifyItems hnumeral]

theorem filter_stringifyItems (hnumeral : Spells numeral) : ∀ items : List (Json N),
    (stringifyItems numeral items).filter (!isWhiteSpace ·) = stringifyItems numeral (solidItems items)
  | [] => by rw [solidItems, stringifyItems]; rfl
  | item :: items => by
    rw [solidItems, stringifyItems, stringifyItems, List.filter_append, filter_stringify hnumeral,
      filter_stringifyRest hnumeral]

theorem filter_stringifyRest (hnumeral : Spells numeral) : ∀ items : List (Json N),
    (stringifyRest numeral items).filter (!isWhiteSpace ·) = stringifyRest numeral (solidItems items)
  | [] => by rw [solidItems, stringifyRest]; rfl
  | item :: items => by
    rw [solidItems, stringifyRest, stringifyRest, List.filter_cons_of_pos (by decide), List.filter_append,
      filter_stringify hnumeral, filter_stringifyRest hnumeral]

end

/-- **Which values have the same bytes**: those that print alike without the white space of their
texts. -/
theorem canonicalForm_eq_iff (hnumeral : Spells numeral) {value value' : JsValue N}
    (h : ∀ text, value ≠ .string text) (h' : ∀ text, value' ≠ .string text) :
    canonicalForm numeral value = canonicalForm numeral value' ↔
      (normalizeAsArray value).solid = (normalizeAsArray value').solid := by
  have hform : ∀ value : JsValue N, (∀ text, value ≠ .string text) →
      canonicalForm numeral value = String.ofList ((normalizeAsArray value).solid.stringify numeral) := by
    intro value hvalue
    rw [← filter_stringify hnumeral]
    cases value with
    | string text => exact absurd rfl (hvalue text)
    | _ => rfl
  rw [hform value h, hform value' h', String.ofList_inj]
  constructor
  · intro heq
    have hend : EndsValue [] := by rintro c ⟨⟩
    exact (stringify_inj hnumeral _ _ hend hend (by rw [heq])).1
  · intro heq
    rw [heq]

end Stringify

end Etherfold
