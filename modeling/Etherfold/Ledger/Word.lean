import Mathlib.Data.BitVec
import Mathlib.Tactic

/-!
# Bitwise operators on numbers

An operator takes its operands modulo `2 ^ 32` and answers a signed number; the unsigned shift
answers an unsigned one. So what is computed is the same 32 bits, read in one way or the other.

* `word_xor`, `word_shiftLeft`, …: **an operator acts on the words**, however they are read.
* `ofWord_ushiftRight`: an unsigned number is its word.
* `joinBytes_splitBytes`: a word is read back from its four bytes.
-/

namespace Word

/-- The 32 bits of a number. -/
def word (x : ℤ) : BitVec 32 := BitVec.ofInt 32 x

def xor (x y : ℤ) : ℤ := (word x ^^^ word y).toInt

def and (x y : ℤ) : ℤ := (word x &&& word y).toInt

def or (x y : ℤ) : ℤ := (word x ||| word y).toInt

def shiftLeft (x : ℤ) (n : ℕ) : ℤ := (word x <<< n).toInt

/-- The unsigned shift, which reads its answer unsigned. -/
def ushiftRight (x : ℤ) (n : ℕ) : ℤ := ((word x >>> n).toNat : ℤ)

/-- The product, modulo `2 ^ 32`. -/
def imul (x y : ℤ) : ℤ := (word x * word y).toInt

/-- A number as an array of bytes stores it. -/
def byte (x : ℤ) : UInt8 := ⟨BitVec.ofInt 8 x⟩

@[simp] theorem word_toInt (w : BitVec 32) : word w.toInt = w := BitVec.ofInt_toInt

@[simp] theorem word_toNat (w : BitVec 32) : word (w.toNat : ℤ) = w := by
  unfold word
  rw [BitVec.ofInt_natCast, BitVec.ofNat_toNat, BitVec.setWidth_eq]

@[simp] theorem word_xor (x y : ℤ) : word (xor x y) = word x ^^^ word y := word_toInt _

@[simp] theorem word_and (x y : ℤ) : word (and x y) = word x &&& word y := word_toInt _

@[simp] theorem word_or (x y : ℤ) : word (or x y) = word x ||| word y := word_toInt _

@[simp] theorem word_shiftLeft (x : ℤ) (n : ℕ) : word (shiftLeft x n) = word x <<< n := word_toInt _

@[simp] theorem word_ushiftRight (x : ℤ) (n : ℕ) : word (ushiftRight x n) = word x >>> n := word_toNat _

/-- **An unsigned number is its word.** -/
theorem ofWord_ushiftRight (x : ℤ) (n : ℕ) : ushiftRight x n = ((word (ushiftRight x n)).toNat : ℤ) := by
  rw [word_ushiftRight]
  rfl

/-- The byte of a number is the low byte of its word. -/
theorem byte_eq (x : ℤ) : (byte x).toBitVec = (word x).setWidth 8 := by
  apply BitVec.eq_of_toNat_eq
  unfold byte word
  rw [BitVec.toNat_setWidth, BitVec.toNat_ofInt, BitVec.toNat_ofInt]
  omega

theorem word_byte (b : UInt8) : word (b.toNat : ℤ) = b.toBitVec.setWidth 32 := by
  unfold word
  apply BitVec.eq_of_toNat_eq
  have hbyte := b.toNat_lt
  rw [BitVec.ofInt_natCast, BitVec.toNat_ofNat, BitVec.toNat_setWidth]
  rfl

/-- **Bytes are masked byte by byte.** -/
theorem byte_xor (b : UInt8) (x : ℤ) : byte (xor (b.toNat : ℤ) x) = b ^^^ byte x := by
  apply UInt8.toBitVec_inj.1
  rw [UInt8.toBitVec_xor, byte_eq, byte_eq, word_xor, BitVec.setWidth_xor, word_byte]
  congr 1
  simp

theorem xor_xor_cancel (b mask : UInt8) : b ^^^ mask ^^^ mask = b := by
  rw [UInt8.xor_assoc, UInt8.xor_self, UInt8.xor_zero]

/-- The four bytes of a word, big end first. -/
def splitBytes (x : ℤ) : List UInt8 :=
  [byte (and (ushiftRight x 24) 0xff), byte (and (ushiftRight x 16) 0xff), byte (and (ushiftRight x 8) 0xff),
    byte (and x 0xff)]

/-- The unsigned number four bytes are, big end first. -/
def joinBytes (b0 b1 b2 b3 : UInt8) : ℤ :=
  ushiftRight (or (or (or (shiftLeft (b0.toNat : ℤ) 24) (shiftLeft (b1.toNat : ℤ) 16)) (shiftLeft (b2.toNat : ℤ) 8))
    (b3.toNat : ℤ)) 0

/-- **A word is read back from its four bytes**, whatever its top bit. -/
theorem joinBytes_splitBytes {x : ℤ} (h : x = ((word x).toNat : ℤ)) :
    joinBytes (byte (and (ushiftRight x 24) 0xff)) (byte (and (ushiftRight x 16) 0xff))
      (byte (and (ushiftRight x 8) 0xff)) (byte (and x 0xff)) = x := by
  have hword : ∀ (w : BitVec 32),
      ((((w >>> 24 &&& 0xff#32).setWidth 8).setWidth 32 <<< 24 |||
        ((w >>> 16 &&& 0xff#32).setWidth 8).setWidth 32 <<< 16) |||
        ((w >>> 8 &&& 0xff#32).setWidth 8).setWidth 32 <<< 8) ||| ((w &&& 0xff#32).setWidth 8).setWidth 32 = w := by
    intro w
    apply BitVec.eq_of_getLsbD_eq
    intro i hi
    interval_cases i <;> simp
  have hjoin : word (joinBytes (byte (and (ushiftRight x 24) 0xff)) (byte (and (ushiftRight x 16) 0xff))
      (byte (and (ushiftRight x 8) 0xff)) (byte (and x 0xff))) = word x := by
    unfold joinBytes
    have hmask : word 0xff = 0xff#32 := by decide
    simp only [word_ushiftRight, word_or, word_shiftLeft, word_byte, byte_eq, word_and, hmask, BitVec.ushiftRight_zero]
    exact hword (word x)
  conv_rhs => rw [h, ← hjoin]
  exact ofWord_ushiftRight _ 0

end Word
