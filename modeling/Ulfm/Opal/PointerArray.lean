import Ulfm.Foundation.Scan
import Ulfm.Foundation.Trace
import Mathlib.Algebra.Order.Ring.Int

/-!
# The pointer array

`opal_pointer_array` keeps pointers under small indices in a table that grows.
What the memory allocator answers is a parameter of every call that may grow the
table. An entry that is written past the end of the table is not in the table.
-/

namespace Ulfm.Opal

open List Option

/-- `INT_MAX`. -/
def intMax : ℤ := 2 ^ 31 - 1

/-- `OMPI_FORTRAN_HANDLE_MAX`, where an `INTEGER` is not smaller than an `int`. -/
def ompiFortranHandleMax : ℤ := intMax

/-- What an `int` keeps of a result. -/
def toInt (x : ℤ) : ℤ := (x + 2 ^ 31) % 2 ^ 32 - 2 ^ 31

def tableInit : ℤ := 1

def tableGrow : ℤ := 2

structure PointerArray (α : Type) where
  lowestFree : ℕ
  highestTaken : ℤ
  numberFree : ℤ
  maxSize : ℤ
  blockSize : ℤ
  /-- `addr` is not `NULL`. -/
  allocated : Bool
  addr : List (Option α)
  /-- `addr` is memory that has been given back. -/
  freed : Bool

namespace PointerArray

variable {α : Type}

def size (table : PointerArray α) : ℕ := table.addr.length

/-- `opal_pointer_array_construct`. -/
def construct : PointerArray α where
  lowestFree := 0
  highestTaken := -1
  numberFree := 0
  maxSize := intMax
  blockSize := 0
  allocated := false
  addr := []
  freed := false

/-- `opal_pointer_array_init`; `none` is an error. -/
def init (array : PointerArray α) (initialAllocation maxSize blockSize : ℤ) (granted : Bool) :
    Option (PointerArray α) :=
  if maxSize < blockSize then none
  else
    let numBytes := if 0 < initialAllocation then initialAllocation else blockSize
    -- a negative number is more than there is of memory when it is a `size_t`
    if numBytes < 0 ∨ granted = false then none
    else
      some { array with
        maxSize := maxSize
        blockSize := blockSize
        numberFree := numBytes
        allocated := true
        addr := replicate numBytes.toNat none }

/-- The table with `newSize` entries. -/
def resize (table : PointerArray α) (newSize : ℕ) : PointerArray α :=
  { table with
    numberFree := table.numberFree + (newSize - table.size)
    allocated := true
    addr := table.addr.take newSize ++ replicate (newSize - table.size) none }

/-- `grow_table`; an error is `false`, with the table that it leaves. -/
def growTable (table : PointerArray α) (soft hard : ℤ) (granted : Bool) :
    Except (PointerArray α) (PointerArray α) :=
  if table.maxSize < soft ∧ table.maxSize < hard then .error table
  else
    let newSize := if table.maxSize < soft then hard else soft
    if table.maxSize ≤ newSize then .error table
    -- `realloc` refuses a negative number as well; `NULL` for nothing has given `addr` back
    else if newSize < 0 ∨ granted = false then
      .error { table with freed := table.freed || decide (newSize = 0) }
    else .ok (table.resize newSize.toNat)

/-- `for (i = from; i < size; i++) if (NULL == addr[i])`. -/
def nextFree (addr : List (Option α)) (i : ℕ) : Option ℕ := scanFrom isNone addr i

/-- `for (h--; h > 0 && addr[h] == NULL; h--)`. -/
def lowerTaken (addr : List (Option α)) : ℕ → ℤ
  | 0 => -1
  | 1 => 0
  | h + 2 => if EntryMeets isNone addr (h + 1) then lowerTaken addr (h + 1) else h + 1

/-- `opal_pointer_array_add` once there is room. -/
def place (table : PointerArray α) (ptr : Option α) : PointerArray α :=
  let index := table.lowestFree
  let addr := table.addr.set index ptr
  { table with
    addr := addr
    highestTaken := if table.highestTaken < index then index else table.highestTaken
    numberFree := table.numberFree - 1
    lowestFree :=
      if 0 < table.numberFree - 1 then (nextFree addr (index + 1)).getD index
      else table.size }

/-- `opal_pointer_array_add`, with the index it returns. -/
def add (table : PointerArray α) (ptr : Option α) (granted : Bool) : PointerArray α × Option ℕ :=
  let grown :=
    if table.numberFree = 0 then
      table.growTable (if table.allocated then toInt (table.size * tableGrow) else tableInit)
        ompiFortranHandleMax granted
    else .ok table
  match grown with
  | .error table => (table, none)
  | .ok table => (table.place ptr, some table.lowestFree)

/-- The table is expanded if that is required to set a specific index. -/
def reach (table : PointerArray α) (index : ℕ) (granted : Bool) :
    Except (PointerArray α) (PointerArray α) :=
  if table.size ≤ index then
    table.growTable (toInt ((index / 2 + 1) * tableGrow)) index granted
  else .ok table

/-- `opal_pointer_array_set_item` once there is room. -/
def store (table : PointerArray α) (index : ℕ) (value : Option α) : PointerArray α :=
  match value with
  | none =>
    { table with
      lowestFree := if index < table.lowestFree then index else table.lowestFree
      numberFree :=
        if EntryMeets isNone table.addr index then table.numberFree else table.numberFree + 1
      highestTaken :=
        if (index : ℤ) = table.highestTaken then lowerTaken table.addr index
        else table.highestTaken
      addr := table.addr.set index none }
  | some p =>
    { table with
      numberFree :=
        if EntryMeets isNone table.addr index then table.numberFree - 1 else table.numberFree
      lowestFree :=
        if index = table.lowestFree then (nextFree table.addr (index + 1)).getD table.size
        else table.lowestFree
      highestTaken := if table.highestTaken < index then index else table.highestTaken
      addr := table.addr.set index (some p) }

/-- `opal_pointer_array_set_item`. -/
def setItem (table : PointerArray α) (index : ℕ) (value : Option α) (granted : Bool) :
    PointerArray α × Bool :=
  match table.reach index granted with
  | .error table => (table, false)
  | .ok table => (table.store index value, true)

/-- `opal_pointer_array_test_and_set_item` once the entry is known to be free. -/
def reserve (table : PointerArray α) (index : ℕ) (value : Option α) : PointerArray α :=
  let addr := table.addr.set index value
  { table with
    addr := addr
    numberFree := table.numberFree - 1
    lowestFree :=
      if index = table.lowestFree then (nextFree addr index).getD table.size
      else table.lowestFree
    highestTaken :=
      if value.isNone ∧ (index : ℤ) = table.highestTaken then lowerTaken addr index
      else if value.isSome ∧ table.highestTaken < index then index
      else table.highestTaken }

/-- `opal_pointer_array_test_and_set_item`. -/
def testAndSetItem (table : PointerArray α) (index : ℕ) (value : Option α) (granted : Bool) :
    PointerArray α × Bool :=
  if EntryMeets isSome table.addr index then (table, false)
  else
    match table.reach index granted with
    | .error table => (table, false)
    | .ok table => (table.reserve index value, true)

/-- `opal_pointer_array_set_size`. -/
def setSize (table : PointerArray α) (newSize : ℤ) (granted : Bool) : PointerArray α × Bool :=
  if table.size < newSize then
    match table.growTable newSize newSize granted with
    | .error table => (table, false)
    | .ok table => (table, true)
  else (table, true)

/-- `opal_pointer_array_get_item`. -/
def getItem (table : PointerArray α) (index : ℕ) : Option α :=
  if table.size ≤ index then none else table.addr[index]?.join

end PointerArray

end Ulfm.Opal
