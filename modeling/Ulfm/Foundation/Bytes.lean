import Mathlib.Data.List.Basic
import Mathlib.Tactic.Ring

/-!
# Machine words in memory

The bytes of a machine word, lowest first, and the reading of words back from a
buffer.
-/

namespace Ulfm

open List

/-- The `k` lowest bytes of a number. -/
def encodeLE : ℕ → ℕ → List UInt8
  | 0, _ => []
  | k + 1, n => UInt8.ofNat n :: encodeLE k (n / 256)

def decodeLE : List UInt8 → ℕ
  | [] => 0
  | b :: bs => b.toNat + 256 * decodeLE bs

@[simp] theorem length_encodeLE (k n : ℕ) : (encodeLE k n).length = k := by
  induction k generalizing n with
  | zero => rfl
  | succ k ih => simp [encodeLE, ih]

theorem decodeLE_encodeLE (k n : ℕ) : decodeLE (encodeLE k n) = n % 256 ^ k := by
  induction k generalizing n with
  | zero => simp [encodeLE, decodeLE, Nat.mod_one]
  | succ k ih =>
    simp only [encodeLE, decodeLE, ih, UInt8.toNat_ofNat']
    have h : n % 256 ^ (k + 1) = n % 256 + 256 * (n / 256 % 256 ^ k) := by
      rw [pow_succ', Nat.mod_mul]
    exact h.symm

theorem decodeLE_lt (bs : List UInt8) : decodeLE bs < 256 ^ bs.length := by
  induction bs with
  | nil => exact Nat.one_pos
  | cons b bs ih =>
    have hb := b.toNat_lt
    rw [decodeLE, length_cons, pow_succ]
    omega

section Words

variable {w : ℕ} {rest : List UInt8}

def wordBytes (x : BitVec w) : List UInt8 := encodeLE (w / 8) x.toNat

/-- The first word of a buffer and what follows it. -/
def readWord (w : ℕ) (bs : List UInt8) : BitVec w × List UInt8 :=
  (BitVec.ofNat w (decodeLE (bs.take (w / 8))), bs.drop (w / 8))

@[simp] theorem length_wordBytes (x : BitVec w) : (wordBytes x).length = w / 8 :=
  length_encodeLE _ _

theorem readWord_wordBytes (hw : 8 ∣ w) (x : BitVec w) :
    readWord w (wordBytes x ++ rest) = (x, rest) := by
  have htake : (wordBytes x ++ rest).take (w / 8) = wordBytes x := take_left' (length_wordBytes x)
  have hdrop : (wordBytes x ++ rest).drop (w / 8) = rest := drop_left' (length_wordBytes x)
  have hpow : 256 ^ (w / 8) = 2 ^ w := by
    rw [show 256 = 2 ^ 8 from rfl, ← pow_mul, Nat.mul_div_cancel' hw]
  have hx : decodeLE (wordBytes x) = x.toNat := by
    rw [wordBytes, decodeLE_encodeLE, hpow, Nat.mod_eq_of_lt x.isLt]
  rw [readWord, htake, hdrop, hx, BitVec.ofNat_toNat, BitVec.setWidth_eq]

@[simp] theorem readWord_wordBytes_16 (x : BitVec 16) :
    readWord 16 (wordBytes x ++ rest) = (x, rest) := readWord_wordBytes (by decide) x

@[simp] theorem readWord_wordBytes_32 (x : BitVec 32) :
    readWord 32 (wordBytes x ++ rest) = (x, rest) := readWord_wordBytes (by decide) x

@[simp] theorem readWord_wordBytes_64 (x : BitVec 64) :
    readWord 64 (wordBytes x ++ rest) = (x, rest) := readWord_wordBytes (by decide) x

/-- The memory image of an array of words. -/
def arrayBytes (xs : List (BitVec w)) : List UInt8 := xs.flatMap wordBytes

/-- The first `n` words of a buffer. -/
def readArray (w : ℕ) : ℕ → List UInt8 → List (BitVec w)
  | 0, _ => []
  | n + 1, bs => (readWord w bs).1 :: readArray w n (readWord w bs).2

theorem length_arrayBytes (xs : List (BitVec w)) : (arrayBytes xs).length = w / 8 * xs.length := by
  induction xs with
  | nil => rfl
  | cons x xs ih =>
    have h : arrayBytes (x :: xs) = wordBytes x ++ arrayBytes xs := rfl
    rw [h, length_append, ih, length_wordBytes, length_cons]
    ring

theorem readArray_arrayBytes (hw : 8 ∣ w) (xs : List (BitVec w)) :
    readArray w xs.length (arrayBytes xs ++ rest) = xs := by
  induction xs with
  | nil => rfl
  | cons x xs ih =>
    have h : arrayBytes (x :: xs) ++ rest = wordBytes x ++ (arrayBytes xs ++ rest) := by
      simp [arrayBytes]
    simp only [length_cons, readArray, h, readWord_wordBytes hw, ih]

end Words

end Ulfm
