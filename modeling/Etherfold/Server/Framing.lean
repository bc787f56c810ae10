import Etherfold.Indexed.Text
import Etherfold.Ledger.Word

/-!
# The framing of a feed cursor

A payload is scrambled with a keystream seeded by its own checksum, the checksum is put in front
of it, and the bytes are spelt in an alphabet of sixty-four characters, six bits each, the last
group as it comes.

* `fnv1a32_unsigned`: a checksum is an unsigned word.
* `xorWithKeystream_involutive`: **scrambling twice is nothing**.
* `base64urlDecode_encode`: **bytes are read back from their spelling**.
-/

namespace Etherfold

open Word

/-! ### The checksum -/

/-- FNV-1a over the payload. -/
def fnv1a32 (bytes : List UInt8) : ℤ :=
  ushiftRight (bytes.foldl (fun hash b => ushiftRight (imul (Word.xor hash b.toNat) 0x01000193) 0) 0x811c9dc5) 0

theorem fnv1a32_unsigned (bytes : List UInt8) : fnv1a32 bytes = ((word (fnv1a32 bytes)).toNat : ℤ) :=
  ofWord_ushiftRight _ 0

/-! ### The keystream -/

def scrambleSeed : ℤ := 0x9e3779b9

/-- One turn of the generator. -/
def xorshift32 (state : ℤ) : ℤ :=
  let state := Word.xor state (ushiftRight (shiftLeft state 13) 0)
  let state := ushiftRight state 0
  let state := Word.xor state (ushiftRight state 17)
  let state := Word.xor state (ushiftRight (shiftLeft state 5) 0)
  ushiftRight state 0

def xorFrom : ℤ → List UInt8 → List UInt8
  | _, [] => []
  | state, b :: rest =>
    let state := xorshift32 state
    byte (Word.xor b.toNat (Word.and state 0xff)) :: xorFrom state rest

/-- A state that is zero would stay so. -/
def startState (seed : ℤ) : ℤ :=
  let state := ushiftRight (Word.xor seed scrambleSeed) 0
  if state = 0 then 1 else state

def xorWithKeystream (bytes : List UInt8) (seed : ℤ) : List UInt8 := xorFrom (startState seed) bytes

@[simp] theorem length_xorFrom (state : ℤ) (bytes : List UInt8) : (xorFrom state bytes).length = bytes.length := by
  induction bytes generalizing state with
  | nil => rfl
  | cons b rest ih => simp [xorFrom, ih]

/-- The states do not depend on the bytes, so the second pass masks with what the first did. -/
theorem xorFrom_involutive (state : ℤ) (bytes : List UInt8) : xorFrom state (xorFrom state bytes) = bytes := by
  induction bytes generalizing state with
  | nil => rfl
  | cons b rest ih =>
    rw [xorFrom, xorFrom, ih, byte_xor, byte_xor, xor_xor_cancel]

/-- **Scrambling twice is nothing.** -/
theorem xorWithKeystream_involutive (bytes : List UInt8) (seed : ℤ) :
    xorWithKeystream (xorWithKeystream bytes seed) seed = bytes :=
  xorFrom_involutive _ _

/-! ### The alphabet -/

/-- The letters, the digits, and two signs a query string leaves alone. -/
def alphabet : List UInt16 :=
  codeUnits "ABCDEFGHIJKLMNOPQRSTUVWXYZabcdefghijklmnopqrstuvwxyz0123456789-_"

/-- `ALPHABET[n]`. -/
def letter (n : ℕ) : UInt16 := alphabet.getD n 0

/-- `ALPHABET.indexOf(character)`, none where it is negative. -/
def sextet (character : UInt16) : Option ℕ := alphabet.idxOf? character

def base64urlEncode : List UInt8 → Text
  | [] => []
  | [b0] => [letter (b0.toNat >>> 2), letter ((b0.toNat &&& 3) <<< 4)]
  | [b0, b1] =>
    [letter (b0.toNat >>> 2), letter (((b0.toNat &&& 3) <<< 4) ||| (b1.toNat >>> 4)), letter ((b1.toNat &&& 15) <<< 2)]
  | b0 :: b1 :: b2 :: rest =>
    letter (b0.toNat >>> 2) :: letter (((b0.toNat &&& 3) <<< 4) ||| (b1.toNat >>> 4)) ::
      letter (((b1.toNat &&& 15) <<< 2) ||| (b2.toNat >>> 6)) :: letter (b2.toNat &&& 63) :: base64urlEncode rest

/-- The bytes of the groups. A lone sextet is six bits with nothing to join. -/
def bytesOfSextets : List ℕ → Option (List UInt8)
  | [] => some []
  | [_] => none
  | [s0, s1] => some [UInt8.ofNat (((s0 <<< 2) ||| (s1 >>> 4)) &&& 0xff)]
  | [s0, s1, s2] =>
    some [UInt8.ofNat (((s0 <<< 2) ||| (s1 >>> 4)) &&& 0xff), UInt8.ofNat (((s1 <<< 4) ||| (s2 >>> 2)) &&& 0xff)]
  | s0 :: s1 :: s2 :: s3 :: rest =>
    (bytesOfSextets rest).map fun bytes =>
      UInt8.ofNat (((s0 <<< 2) ||| (s1 >>> 4)) &&& 0xff) :: UInt8.ofNat (((s1 <<< 4) ||| (s2 >>> 2)) &&& 0xff) ::
        UInt8.ofNat (((s2 <<< 6) ||| s3) &&& 0xff) :: bytes

def base64urlDecode (text : Text) : Option (List UInt8) :=
  if text = [] then none else (text.mapM sextet).bind bytesOfSextets

theorem sextet_letter : ∀ n < 64, sextet (letter n) = some n := by decide

/-- Joining bits that do not meet is adding them. -/
theorem shiftLeft_or {a b n : ℕ} (h : b < 2 ^ n) : (a <<< n) ||| b = a * 2 ^ n + b := by
  rw [← Nat.shiftLeft_add_eq_or_of_lt h, Nat.shiftLeft_eq]

theorem mask_two (a : ℕ) : a &&& 3 = a % 4 := Nat.and_two_pow_sub_one_eq_mod a 2

theorem mask_four (a : ℕ) : a &&& 15 = a % 16 := Nat.and_two_pow_sub_one_eq_mod a 4

theorem mask_six (a : ℕ) : a &&& 63 = a % 64 := Nat.and_two_pow_sub_one_eq_mod a 6

theorem mask_eight (a : ℕ) : a &&& 0xff = a % 256 := Nat.and_two_pow_sub_one_eq_mod a 8

/-- A byte from its high six and its low two bits. -/
theorem byte_of_parts {b : UInt8} {n : ℕ} (h : n % 256 = b.toNat) : UInt8.ofNat (n &&& 0xff) = b := by
  apply UInt8.toNat_inj.1
  rw [UInt8.toNat_ofNat', mask_eight]
  omega

/-- The sextets of three bytes. -/
def group (b0 b1 b2 : ℕ) : List ℕ := [b0 / 4, b0 % 4 * 16 + b1 / 16, b1 % 16 * 4 + b2 / 64, b2 % 64]

theorem group_eq (b0 b1 b2 : UInt8) :
    [b0.toNat >>> 2, ((b0.toNat &&& 3) <<< 4) ||| (b1.toNat >>> 4), ((b1.toNat &&& 15) <<< 2) ||| (b2.toNat >>> 6),
      b2.toNat &&& 63] = group b0.toNat b1.toNat b2.toNat := by
  have h1 := b1.toNat_lt
  have h2 := b2.toNat_lt
  rw [shiftLeft_or (by rw [Nat.shiftRight_eq_div_pow]; omega), shiftLeft_or (by rw [Nat.shiftRight_eq_div_pow]; omega),
    mask_two, mask_four, mask_six]
  simp only [Nat.shiftRight_eq_div_pow]
  rfl

theorem group_lt (b0 b1 b2 : UInt8) : ∀ s ∈ group b0.toNat b1.toNat b2.toNat, s < 64 := by
  have h0 := b0.toNat_lt
  have h1 := b1.toNat_lt
  have h2 := b2.toNat_lt
  unfold group
  simp only [List.mem_cons, List.not_mem_nil, or_false]
  rintro s (rfl | rfl | rfl | rfl) <;> omega

/-- The first byte of a group. -/
theorem first_byte (b0 b1 : UInt8) :
    UInt8.ofNat ((((b0.toNat / 4) <<< 2) ||| ((b0.toNat % 4 * 16 + b1.toNat / 16) >>> 4)) &&& 0xff) = b0 := by
  have h0 := b0.toNat_lt
  have h1 := b1.toNat_lt
  apply byte_of_parts
  rw [shiftLeft_or (by rw [Nat.shiftRight_eq_div_pow]; omega), Nat.shiftRight_eq_div_pow]
  omega

/-- The second byte of a group. -/
theorem second_byte (b0 b1 b2 : UInt8) :
    UInt8.ofNat ((((b0.toNat % 4 * 16 + b1.toNat / 16) <<< 4) ||| ((b1.toNat % 16 * 4 + b2.toNat / 64) >>> 2)) &&& 0xff) =
      b1 := by
  have h1 := b1.toNat_lt
  have h2 := b2.toNat_lt
  apply byte_of_parts
  rw [shiftLeft_or (by rw [Nat.shiftRight_eq_div_pow]; omega), Nat.shiftRight_eq_div_pow]
  omega

/-- The third byte of a group. -/
theorem third_byte (b1 b2 : UInt8) :
    UInt8.ofNat ((((b1.toNat % 16 * 4 + b2.toNat / 64) <<< 6) ||| (b2.toNat % 64)) &&& 0xff) = b2 := by
  have h2 := b2.toNat_lt
  apply byte_of_parts
  rw [shiftLeft_or (by omega)]
  omega

/-- The sextets of a byte sequence; the last group is cut where the bytes end. -/
def sextets : List UInt8 → List ℕ
  | [] => []
  | [b0] => (group b0.toNat 0 0).take 2
  | [b0, b1] => (group b0.toNat b1.toNat 0).take 3
  | b0 :: b1 :: b2 :: rest => group b0.toNat b1.toNat b2.toNat ++ sextets rest

theorem base64urlEncode_eq (bytes : List UInt8) : base64urlEncode bytes = (sextets bytes).map letter := by
  induction bytes using base64urlEncode.induct with
  | case1 => rfl
  | case2 b0 =>
    have hgroup := congrArg (List.map letter ∘ List.take 2) (group_eq b0 0 0)
    simpa [base64urlEncode, sextets] using hgroup
  | case3 b0 b1 =>
    have hgroup := congrArg (List.map letter ∘ List.take 3) (group_eq b0 b1 0)
    simpa [base64urlEncode, sextets] using hgroup
  | case4 b0 b1 b2 rest ih =>
    unfold base64urlEncode sextets
    rw [List.map_append, ← group_eq, ih]
    rfl

theorem sextets_lt (bytes : List UInt8) : ∀ s ∈ sextets bytes, s < 64 := by
  induction bytes using sextets.induct with
  | case1 => simp [sextets]
  | case2 b0 => exact fun s hs => group_lt b0 0 0 s (List.mem_of_mem_take hs)
  | case3 b0 b1 => exact fun s hs => group_lt b0 b1 0 s (List.mem_of_mem_take hs)
  | case4 b0 b1 b2 rest ih =>
    intro s hs
    rcases List.mem_append.1 hs with hs | hs
    · exact group_lt b0 b1 b2 s hs
    · exact ih s hs

/-- **The sextets of a sequence give it back**, whatever its last group is. -/
theorem bytesOfSextets_sextets (bytes : List UInt8) : bytesOfSextets (sextets bytes) = some bytes := by
  induction bytes using sextets.induct with
  | case1 => rfl
  | case2 b0 =>
    have hfirst := first_byte b0 0
    show some [_] = _
    exact congrArg (fun b => some [b]) hfirst
  | case3 b0 b1 =>
    have hfirst := first_byte b0 b1
    have hsecond := second_byte b0 b1 0
    show some [_, _] = _
    exact congrArg₂ (fun b b' => some [b, b']) hfirst hsecond
  | case4 b0 b1 b2 rest ih =>
    show (bytesOfSextets (sextets rest)).map _ = _
    rw [ih, Option.map_some, first_byte, second_byte, third_byte]

/-- **Bytes are read back from their spelling.** -/
theorem base64urlDecode_encode {bytes : List UInt8} (h : bytes ≠ []) :
    base64urlDecode (base64urlEncode bytes) = some bytes := by
  have hne : base64urlEncode bytes ≠ [] := by
    cases bytes with
    | nil => exact absurd rfl h
    | cons b0 rest =>
      cases rest with
      | nil => simp [base64urlEncode]
      | cons b1 rest =>
        cases rest with
        | nil => simp [base64urlEncode]
        | cons b2 rest => simp [base64urlEncode]
  have hletters : ((sextets bytes).map letter).mapM sextet = some (sextets bytes) := by
    have hlt := sextets_lt bytes
    generalize sextets bytes = l at hlt
    induction l with
    | nil => rfl
    | cons s l ih =>
      rw [List.map_cons, List.mapM_cons, sextet_letter s (hlt s List.mem_cons_self),
        ih fun t ht => hlt t (List.mem_cons_of_mem _ ht)]
      rfl
  unfold base64urlDecode
  rw [if_neg hne, base64urlEncode_eq, hletters, Option.bind_some, bytesOfSextets_sextets]

/-- One byte, two and three. -/
example : base64urlEncode [0x66, 0x6f, 0x6f, 0x62] = codeUnits "Zm9vYg" := by decide

end Etherfold
