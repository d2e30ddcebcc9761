import Ulfm.Foundation.CarryBit
import Ulfm.Foundation.Scan
import Ulfm.Foundation.Trace

/-!
# The bitmap

`opal_bitmap` keeps bits in an array of bytes that grows when a bit beyond it is set.
What the memory allocator answers is a parameter of every call that may grow the array.
-/

namespace Ulfm.Opal

open List

/-- `SIZE_OF_CHAR`. -/
def sizeOfChar : ℕ := 8

inductive Code
  | success
  | errBadParam
  | errOutOfResource
deriving DecidableEq

structure Bitmap where
  /-- `none` is `NULL`. -/
  bitmap : Option (List UInt8)
  arraySize : ℕ
  maxSize : ℤ

namespace Bitmap

def bytes (bm : Bitmap) : List UInt8 := bm.bitmap.getD []

/-- `1 << offset`. -/
def mask (offset : ℕ) : UInt8 := 1 <<< UInt8.ofNat offset

/-- `opal_bitmap_construct`. -/
def construct : Bitmap where
  bitmap := none
  arraySize := 0
  maxSize := 2 ^ 31 - 1

def actualSize (size : ℤ) : ℤ := size.tdiv sizeOfChar + if size.tmod sizeOfChar = 0 then 0 else 1

/-- `opal_bitmap_set_max_size`. -/
def setMaxSize (bm : Bitmap) (maxSize : ℤ) : Bitmap := { bm with maxSize := actualSize maxSize }

/-- `opal_bitmap_init`; `none` is an error. -/
def init (bm : Bitmap) (size : ℤ) (granted : Bool) : Option Bitmap :=
  if size ≤ 0 ∨ bm.maxSize < size then none
  else if granted = false then none
  else
    some { bm with
      arraySize := (actualSize size).toNat
      bitmap := some (replicate (actualSize size).toNat 0) }

/-- The size of the array that a bit beyond it needs. -/
def newSize (bm : Bitmap) (index : ℕ) : ℕ := (index / bm.arraySize + 1) * bm.arraySize

/-- The array is expanded if that is required; `false` is `OPAL_ERR_OUT_OF_RESOURCE`. -/
def reach (bm : Bitmap) (index : ℕ) (granted : Bool) : Bitmap × Bool :=
  if bm.arraySize ≤ index then
    -- what `realloc` answers replaces the array, also when it is `NULL`
    if granted = false then ({ bm with bitmap := none }, false)
    else
      ({ bm with
        bitmap := some (bm.bytes ++ replicate (bm.newSize index - bm.arraySize) 0)
        arraySize := bm.newSize index }, true)
  else (bm, true)

def update (bm : Bitmap) (index : ℕ) (f : UInt8 → UInt8) : Bitmap :=
  { bm with bitmap := bm.bitmap.map (List.modify · index f) }

/-- `opal_bitmap_set_bit`. -/
def setBit (bm : Bitmap) (bit : ℤ) (granted : Bool) : Bitmap × Code :=
  if bit < 0 ∨ bm.maxSize < bit then (bm, .errBadParam)
  else
    let index := bit.toNat / sizeOfChar
    let offset := bit.toNat % sizeOfChar
    match bm.reach index granted with
    | (bm, false) => (bm, .errOutOfResource)
    | (bm, true) => (bm.update index (· ||| mask offset), .success)

/-- A bit that `opal_bitmap_clear_bit` and `opal_bitmap_is_set_bit` refuse. -/
def outOfRange (bm : Bitmap) (bit : ℤ) : Bool :=
  bit < 0 ∨ bm.arraySize * sizeOfChar ≤ bit ∨ bm.arraySize ≤ bit.toNat / sizeOfChar

/-- `opal_bitmap_clear_bit`. -/
def clearBit (bm : Bitmap) (bit : ℤ) : Bitmap × Code :=
  if bm.outOfRange bit then (bm, .errBadParam)
  else
    let index := bit.toNat / sizeOfChar
    let offset := bit.toNat % sizeOfChar
    (bm.update index (· &&& ~~~mask offset), .success)

/-- `opal_bitmap_is_set_bit`. -/
def isSetBit (bm : Bitmap) (bit : ℤ) : Bool :=
  if bm.outOfRange bit then false
  else
    let index := bit.toNat / sizeOfChar
    let offset := bit.toNat % sizeOfChar
    bm.bytes.getD index 0 &&& mask offset ≠ 0

/-- `opal_bitmap_clear_all_bits`. -/
def clearAllBits (bm : Bitmap) : Bitmap :=
  { bm with bitmap := bm.bitmap.map fun _ => replicate bm.arraySize 0 }

/-- `opal_bitmap_set_all_bits`. -/
def setAllBits (bm : Bitmap) : Bitmap :=
  { bm with bitmap := bm.bitmap.map fun _ => replicate bm.arraySize 0xff }

/-- `opal_bitmap_find_and_set_first_unset_bit`, with the position it stores. -/
def findAndSetFirstUnsetBit (bm : Bitmap) (granted : Bool) : Bitmap × Code × ℕ :=
  match scanFrom (· != 0xff) bm.bytes 0 with
  | none =>
    let position := bm.arraySize * sizeOfChar
    let (bm, code) := bm.setBit position granted
    (bm, code, position)
  | some i =>
    let position := trailingOnes (bm.bytes.getD i 0).toNat
    (bm.update i fun x => x ||| (x + 1), .success, position + i * sizeOfChar)

/-- `opal_bitmap_bitwise_and_inplace` and its like, with the operation on bytes. -/
def bitwiseInplace (f : UInt8 → UInt8 → UInt8) (dest right : Bitmap) : Bitmap × Code :=
  if dest.arraySize ≠ right.arraySize then (dest, .errBadParam)
  else
    ({ dest with bitmap := dest.bitmap.map (mapIdx fun i x => f x (right.bytes.getD i 0)) },
      .success)

def bitwiseAndInplace : Bitmap → Bitmap → Bitmap × Code := bitwiseInplace (· &&& ·)

def bitwiseOrInplace : Bitmap → Bitmap → Bitmap × Code := bitwiseInplace (· ||| ·)

def bitwiseXorInplace : Bitmap → Bitmap → Bitmap × Code := bitwiseInplace (· ^^^ ·)

end Bitmap

end Ulfm.Opal
