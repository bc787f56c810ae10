import Etherfold.Ledger.Code
import Etherfold.Store.Reads
import Mathlib.Data.Char

/-!
# Texts and their UTF-8 bytes

A text is UTF-16 code units. An encoder reads it as characters, a half of a pair that stands
alone as the replacement character, and spells each as one to four bytes.

* `ascends_utf8`, `ascends_utf16`: **a greater character is spelt greater**, in bytes and in
  ranked code units.
* `byteOrder_lt_iff`, `encode_inj`: **texts whose pairs are whole** are ordered as their bytes
  are, and have bytes of their own.
-/

namespace Etherfold

def isHighSurrogate (u : UInt16) : Bool := 0xd800 ≤ u && u ≤ 0xdbff

def isLowSurrogate (u : UInt16) : Bool := 0xdc00 ≤ u && u ≤ 0xdfff

/-- No half of a pair stands alone. -/
def isWellFormed : Text → Bool
  | [] => true
  | [u] => !(isHighSurrogate u || isLowSurrogate u)
  | u :: v :: rest =>
    if isHighSurrogate u && isLowSurrogate v then isWellFormed rest
    else !(isHighSurrogate u || isLowSurrogate u) && isWellFormed (v :: rest)

/-- A code unit that is no part of a pair. -/
def singleUnit (u : UInt16) : Char :=
  if isHighSurrogate u || isLowSurrogate u then Char.ofNat 0xfffd else Char.ofNat u.toNat

/-- The character of a pair. -/
def surrogatePair (u v : UInt16) : Char := Char.ofNat (0x10000 + (u.toNat - 0xd800) * 0x400 + (v.toNat - 0xdc00))

/-- The characters of a text. -/
def characters : Text → List Char
  | [] => []
  | [u] => [singleUnit u]
  | u :: v :: rest =>
    if isHighSurrogate u && isLowSurrogate v then surrogatePair u v :: characters rest
    else singleUnit u :: characters (v :: rest)

/-- One character in UTF-8. -/
def utf8 (c : Char) : List UInt8 :=
  let n := c.toNat
  if n < 0x80 then [UInt8.ofNat n]
  else if n < 0x800 then [UInt8.ofNat (0xc0 + n / 64), UInt8.ofNat (0x80 + n % 64)]
  else if n < 0x10000 then
    [UInt8.ofNat (0xe0 + n / 4096), UInt8.ofNat (0x80 + n / 64 % 64), UInt8.ofNat (0x80 + n % 64)]
  else
    [UInt8.ofNat (0xf0 + n / 262144), UInt8.ofNat (0x80 + n / 4096 % 64), UInt8.ofNat (0x80 + n / 64 % 64),
      UInt8.ofNat (0x80 + n % 64)]

/-- One character in UTF-16. -/
def utf16 (c : Char) : List UInt16 :=
  let n := c.toNat
  if n < 0x10000 then [UInt16.ofNat n]
  else [UInt16.ofNat (0xd800 + (n - 0x10000) / 0x400), UInt16.ofNat (0xdc00 + (n - 0x10000) % 0x400)]

/-- **The bytes of a text**, as a `TextEncoder` gives them. -/
def encode (text : Text) : List UInt8 := (characters text).flatMap utf8

/-- Byte by byte, then the length. -/
def compareBytes (a b : List UInt8) : ℤ := Lex.compare (fun x y => (x.toNat : ℤ) - y.toNat) a b

theorem agrees_compareBytes : Lex.Agrees compareBytes (List.map fun b : UInt8 => (b.toNat : ℤ)) := by
  have hbyte : Lex.Agrees (fun x y : UInt8 => (x.toNat : ℤ) - y.toNat) fun b => (b.toNat : ℤ) :=
    ⟨fun x y => by omega, fun x y => by omega⟩
  exact hbyte.compare

/-! ### The order of characters -/

theorem toNat_bounds (c : Char) : c.toNat < 0x110000 ∧ ¬(0xd800 ≤ c.toNat ∧ c.toNat ≤ 0xdfff) := by
  have hvalid := c.valid
  unfold UInt32.isValidChar Nat.isValidChar at hvalid
  have hn : c.toNat = c.val.toNat := rfl
  omega

theorem char_lt_iff (a b : Char) : a < b ↔ a.toNat < b.toNat := Iff.rfl

/-- The bytes of a character, as numbers. -/
def byteDigits (c : Char) : List ℤ := (utf8 c).map fun b => (b.toNat : ℤ)

/-- The code units of a character, as they are ranked. -/
def unitRanks (c : Char) : List ℤ := (utf16 c).map codePointRank

theorem toNat_byte {n : ℕ} (h : n < 256) : (UInt8.ofNat n).toNat = n := by
  simp [Nat.mod_eq_of_lt h]

theorem byteDigits_eq (c : Char) : byteDigits c =
    if c.toNat < 0x80 then [(c.toNat : ℤ)]
    else if c.toNat < 0x800 then [((0xc0 + c.toNat / 64 : ℕ) : ℤ), ((0x80 + c.toNat % 64 : ℕ) : ℤ)]
    else if c.toNat < 0x10000 then
      [((0xe0 + c.toNat / 4096 : ℕ) : ℤ), ((0x80 + c.toNat / 64 % 64 : ℕ) : ℤ), ((0x80 + c.toNat % 64 : ℕ) : ℤ)]
    else
      [((0xf0 + c.toNat / 262144 : ℕ) : ℤ), ((0x80 + c.toNat / 4096 % 64 : ℕ) : ℤ),
        ((0x80 + c.toNat / 64 % 64 : ℕ) : ℤ), ((0x80 + c.toNat % 64 : ℕ) : ℤ)] := by
  have hc := toNat_bounds c
  unfold byteDigits utf8
  dsimp only
  split
  · rw [List.map_cons, List.map_nil, toNat_byte (by omega)]
  split
  · simp only [List.map_cons, List.map_nil]
    rw [toNat_byte (by omega), toNat_byte (by omega)]
  split
  · simp only [List.map_cons, List.map_nil]
    rw [toNat_byte (by omega), toNat_byte (by omega), toNat_byte (by omega)]
  · simp only [List.map_cons, List.map_nil]
    rw [toNat_byte (by omega), toNat_byte (by omega), toNat_byte (by omega), toNat_byte (by omega)]

/-- Lists that differ at the front. -/
theorem exists_split_zero {x y : ℤ} (s t : List ℤ) (h : x < y) :
    ∃ p x' y' s' t', x :: s = p ++ x' :: s' ∧ y :: t = p ++ y' :: t' ∧ x' < y' := ⟨[], x, y, s, t, rfl, rfl, h⟩

/-- Lists that have the first item in common. -/
theorem exists_split_succ {x y : ℤ} {s t : List ℤ} (hxy : x = y)
    (h : ∃ p x' y' s' t', s = p ++ x' :: s' ∧ t = p ++ y' :: t' ∧ x' < y') :
    ∃ p x' y' s' t', x :: s = p ++ x' :: s' ∧ y :: t = p ++ y' :: t' ∧ x' < y' := by
  obtain ⟨p, x', y', s', t', hs, ht, hlt⟩ := h
  exact ⟨x :: p, x', y', s', t', by rw [hs]; rfl, by rw [ht, hxy]; rfl, hlt⟩

/-- **A greater character has greater bytes.** -/
theorem ascends_utf8 : Code.Ascends byteDigits := by
  intro a b hab
  rw [char_lt_iff] at hab
  have hb := toNat_bounds b
  rw [byteDigits_eq, byteDigits_eq]
  generalize a.toNat = m at hab
  generalize b.toNat = n at hab hb
  -- the longer a character is spelt, the greater its first byte
  split_ifs
  all_goals try omega
  all_goals try exact exists_split_zero _ _ (by omega)
  · by_cases h1 : m / 64 = n / 64
    · exact exists_split_succ (by omega) (exists_split_zero _ _ (by omega))
    · exact exists_split_zero _ _ (by omega)
  · by_cases h1 : m / 4096 = n / 4096
    · by_cases h2 : m / 64 = n / 64
      · exact exists_split_succ (by omega) (exists_split_succ (by omega) (exists_split_zero _ _ (by omega)))
      · exact exists_split_succ (by omega) (exists_split_zero _ _ (by omega))
    · exact exists_split_zero _ _ (by omega)
  · by_cases h1 : m / 262144 = n / 262144
    · by_cases h2 : m / 4096 = n / 4096
      · by_cases h3 : m / 64 = n / 64
        · exact exists_split_succ (by omega) (exists_split_succ (by omega) (exists_split_succ (by omega)
            (exists_split_zero _ _ (by omega))))
        · exact exists_split_succ (by omega) (exists_split_succ (by omega) (exists_split_zero _ _ (by omega)))
      · exact exists_split_succ (by omega) (exists_split_zero _ _ (by omega))
    · exact exists_split_zero _ _ (by omega)

theorem toNat_unit {n : ℕ} (h : n < 65536) : (UInt16.ofNat n).toNat = n := by
  simp [Nat.mod_eq_of_lt h]

theorem codePointRank_ofNat {n : ℕ} (h : n < 65536) :
    codePointRank (UInt16.ofNat n) = if 0xd800 ≤ n ∧ n ≤ 0xdfff then (n : ℤ) + 0x10000 else n := by
  unfold codePointRank
  simp only [UInt16.le_iff_toNat_le, toNat_unit h]
  rfl

theorem unitRanks_eq (c : Char) : unitRanks c =
    if c.toNat < 0x10000 then [(c.toNat : ℤ)]
    else [((0xd800 + (c.toNat - 0x10000) / 0x400 : ℕ) : ℤ) + 0x10000,
      ((0xdc00 + (c.toNat - 0x10000) % 0x400 : ℕ) : ℤ) + 0x10000] := by
  have hc := toNat_bounds c
  unfold unitRanks utf16
  dsimp only
  split
  · rw [List.map_cons, List.map_nil, codePointRank_ofNat (by omega), if_neg (by omega)]
  · simp only [List.map_cons, List.map_nil]
    rw [codePointRank_ofNat (by omega), codePointRank_ofNat (by omega), if_pos (by omega), if_pos (by omega)]

/-- **A greater character has greater code units**, as they are ranked. -/
theorem ascends_utf16 : Code.Ascends unitRanks := by
  intro a b hab
  rw [char_lt_iff] at hab
  rw [unitRanks_eq, unitRanks_eq]
  generalize a.toNat = m at hab
  generalize b.toNat = n at hab
  split_ifs
  · exact exists_split_zero _ _ (by omega)
  · exact exists_split_zero _ _ (by omega)
  · omega
  · by_cases h1 : (m - 0x10000) / 0x400 = (n - 0x10000) / 0x400
    · exact exists_split_succ (by omega) (exists_split_zero _ _ (by omega))
    · exact exists_split_zero _ _ (by omega)

theorem byteDigits_ne_nil (c : Char) : byteDigits c ≠ [] := by
  rw [byteDigits_eq]
  split_ifs <;> simp

theorem unitRanks_ne_nil (c : Char) : unitRanks c ≠ [] := by
  rw [unitRanks_eq]
  split_ifs <;> exact List.cons_ne_nil _ _

/-! ### The characters of a well-formed text -/

theorem toNat_ofNat {n : ℕ} (h : n < 0x110000) (hs : ¬(0xd800 ≤ n ∧ n ≤ 0xdfff)) : (Char.ofNat n).toNat = n := by
  have hvalid : n.isValidChar := by
    unfold Nat.isValidChar
    omega
  show (Char.ofNat n).val.toNat = n
  unfold Char.ofNat
  rw [dif_pos hvalid]
  rfl

theorem isHighSurrogate_iff {u : UInt16} : isHighSurrogate u = true ↔ 0xd800 ≤ u.toNat ∧ u.toNat ≤ 0xdbff := by
  unfold isHighSurrogate
  simp only [UInt16.le_iff_toNat_le, Bool.and_eq_true, decide_eq_true_eq]
  rfl

theorem isLowSurrogate_iff {u : UInt16} : isLowSurrogate u = true ↔ 0xdc00 ≤ u.toNat ∧ u.toNat ≤ 0xdfff := by
  unfold isLowSurrogate
  simp only [UInt16.le_iff_toNat_le, Bool.and_eq_true, decide_eq_true_eq]
  rfl

theorem utf16_singleUnit {u : UInt16} (h : (isHighSurrogate u || isLowSurrogate u) = false) :
    utf16 (singleUnit u) = [u] := by
  have hlt := UInt16.toNat_lt u
  have hnot : ¬(0xd800 ≤ u.toNat ∧ u.toNat ≤ 0xdfff) := by
    rw [Bool.or_eq_false_iff] at h
    have hhigh := isHighSurrogate_iff.not.1 (Bool.not_eq_true _ ▸ h.1)
    have hlow := isLowSurrogate_iff.not.1 (Bool.not_eq_true _ ▸ h.2)
    omega
  have hchar : singleUnit u = Char.ofNat u.toNat := if_neg (by simp [h])
  unfold utf16
  rw [hchar, toNat_ofNat (by omega) hnot]
  dsimp only
  rw [if_pos (by omega), UInt16.ofNat_toNat]

theorem utf16_surrogatePair {u v : UInt16} (h : (isHighSurrogate u && isLowSurrogate v) = true) :
    utf16 (surrogatePair u v) = [u, v] := by
  rw [Bool.and_eq_true, isHighSurrogate_iff, isLowSurrogate_iff] at h
  have hu : u.toNat < 65536 := UInt16.toNat_lt u
  have hhigh : UInt16.ofNat (0xd800 + (0x10000 + (u.toNat - 0xd800) * 0x400 + (v.toNat - 0xdc00) - 0x10000) / 0x400) =
      u := by
    apply UInt16.toNat_inj.1
    rw [toNat_unit (by omega)]
    omega
  have hlow : UInt16.ofNat (0xdc00 + (0x10000 + (u.toNat - 0xd800) * 0x400 + (v.toNat - 0xdc00) - 0x10000) % 0x400) =
      v := by
    apply UInt16.toNat_inj.1
    rw [toNat_unit (by omega)]
    omega
  unfold utf16 surrogatePair
  rw [toNat_ofNat (by omega) (by omega)]
  dsimp only
  rw [if_neg (by omega), hhigh, hlow]

/-- **A well-formed text is what its characters spell.** -/
theorem utf16_characters {text : Text} (h : isWellFormed text = true) : (characters text).flatMap utf16 = text := by
  induction text using characters.induct with
  | case1 => rfl
  | case2 u =>
    have hu : (isHighSurrogate u || isLowSurrogate u) = false := by simpa [isWellFormed] using h
    simp [characters, utf16_singleUnit hu]
  | case3 u v rest hpair ih =>
    unfold isWellFormed at h
    rw [if_pos hpair] at h
    unfold characters
    rw [if_pos hpair, List.flatMap_cons, utf16_surrogatePair hpair, ih h]
    rfl
  | case4 u v rest hpair ih =>
    unfold isWellFormed at h
    rw [if_neg hpair, Bool.and_eq_true] at h
    unfold characters
    rw [if_neg hpair, List.flatMap_cons, utf16_singleUnit (by simpa using h.1), ih h.2]
    rfl

/-- The bytes of a text, as numbers. -/
def byteOrder (text : Text) : List ℤ := (encode text).map fun b => (b.toNat : ℤ)

theorem byteOrder_eq (text : Text) : byteOrder text = Code.spell byteDigits (characters text) := by
  unfold byteOrder encode Code.spell
  exact List.map_flatMap

theorem ranks_eq {text : Text} (h : isWellFormed text = true) :
    text.map codePointRank = Code.spell unitRanks (characters text) := by
  conv_lhs => rw [← utf16_characters h]
  exact List.map_flatMap

/-- **Well-formed texts are ordered as their bytes are.** -/
theorem byteOrder_lt_iff {a b : Text} (ha : isWellFormed a = true) (hb : isWellFormed b = true) :
    byteOrder a < byteOrder b ↔ a.map codePointRank < b.map codePointRank := by
  rw [byteOrder_eq, byteOrder_eq, ranks_eq ha, ranks_eq hb,
    (Code.strictMono_spell byteDigits_ne_nil ascends_utf8).lt_iff_lt,
    (Code.strictMono_spell unitRanks_ne_nil ascends_utf16).lt_iff_lt]

/-- **Well-formed texts have bytes of their own.** -/
theorem byteOrder_inj {a b : Text} (ha : isWellFormed a = true) (hb : isWellFormed b = true)
    (h : byteOrder a = byteOrder b) : a = b := by
  rw [byteOrder_eq, byteOrder_eq] at h
  rw [← utf16_characters ha, ← utf16_characters hb, (Code.strictMono_spell byteDigits_ne_nil ascends_utf8).injective h]

theorem encode_inj {a b : Text} (ha : isWellFormed a = true) (hb : isWellFormed b = true)
    (h : encode a = encode b) : a = b := by
  apply byteOrder_inj ha hb
  unfold byteOrder
  rw [h]

/-- The code units of a text written in characters. -/
def codeUnits (text : String) : Text := text.toList.flatMap utf16

theorem codeUnits_injective : Function.Injective codeUnits := by
  intro a b h
  have hmap := congrArg (List.map codePointRank) h
  unfold codeUnits at hmap
  rw [List.map_flatMap, List.map_flatMap] at hmap
  exact String.toList_injective ((Code.strictMono_spell unitRanks_ne_nil ascends_utf16).injective hmap)

/-- A value of JSON. -/
inductive JsonValue (N : Type) where
  | null
  | boolean (value : Bool)
  | number (value : N)
  | string (text : Text)
  | array (items : List (JsonValue N))
  | object (members : List (Text × JsonValue N))

/-- Two halves of a pair that stand alone are one to the encoder. -/
example : encode [0xd800] = encode [0xd801] := by decide

end Etherfold
