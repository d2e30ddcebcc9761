import Ulfm.Foundation.Bytes
import Ulfm.Foundation.Tape

/-!
# The data storage service: buffers

A buffer is a block of memory with a write and a read offset. Packing extends
the block when it has to and appends bytes; unpacking takes bytes from the read
offset on. In a fully described buffer every item carries tags of its type.
-/

namespace Ulfm.Dss

/-- `opal_data_type_t`. -/
abbrev DataType := UInt8

namespace DataType

def undef : DataType := 0
def byte : DataType := 1
def bool : DataType := 2
def string : DataType := 3
def size : DataType := 4
def pid : DataType := 5
def int : DataType := 6
def int8 : DataType := 7
def int16 : DataType := 8
def int32 : DataType := 9
def int64 : DataType := 10
def uint : DataType := 11
def uint8 : DataType := 12
def uint16 : DataType := 13
def uint32 : DataType := 14
def uint64 : DataType := 15
def byteObject : DataType := 16
def dataType : DataType := 17
def null : DataType := 18
def dataValue : DataType := 19

end DataType

/-- The sizes the integer types of a build can have. -/
inductive Width
  | one
  | two
  | four
  | eight
  deriving DecidableEq

namespace Width

def bytes : Width → ℕ
  | one => 1
  | two => 2
  | four => 4
  | eight => 8

def signed : Width → DataType
  | one => .int8
  | two => .int16
  | four => .int32
  | eight => .int64

def unsigned : Width → DataType
  | one => .uint8
  | two => .uint16
  | four => .uint32
  | eight => .uint64

end Width

/-- One element of an array that is packed or unpacked. Integers of every kind
are their bit patterns; the last three constructors are pointers to data
values. -/
inductive Value
  | word (bits : ℕ)
  | string (chars : Option (List UInt8))
  | object (bytes : List UInt8)
  | nullValue
  | undefValue
  | value (type : DataType) (data : Value)
  deriving DecidableEq

def Value.bits : Value → ℕ
  | .word n => n
  | _ => 0

/-- What the build, the parameters and the allocator fix: `junk` stands for the
contents of memory that nobody has written. -/
structure Env where
  sizeofBool : Width
  sizeofInt : Width
  sizeofSize : Width
  sizeofPid : Width
  initialSize : ℕ
  thresholdSize : ℕ
  initial_pos : 0 < initialSize
  threshold_pos : 0 < thresholdSize
  fill : UInt8
  junk : Value

inductive Status
  | success
  | buffer
  | packFailure
  | packMismatch
  | unpackFailure
  | unpackInadequateSpace
  | unpackReadPastEndOfBuffer
  | unknownDataType
  | notFound
  | outOfResource
  /-- A size that the `int32_t` it is kept in cannot hold. -/
  | sizeOverflow
  deriving DecidableEq

/-- `opal_buffer_t`, with the pointers as offsets from `base_ptr`. -/
structure Buffer where
  type : UInt8
  basePtr : Option (List UInt8)
  packPtr : ℕ
  unpackPtr : ℕ
  bytesAllocated : ℕ
  bytesUsed : ℕ
  deriving DecidableEq

/-- `OPAL_DSS_BUFFER_FULLY_DESC`. -/
def bufferFullyDesc : UInt8 := 1

namespace Buffer

def construct (type : UInt8) : Buffer :=
  { type := type, basePtr := none, packPtr := 0, unpackPtr := 0,
    bytesAllocated := 0, bytesUsed := 0 }

def fullyDesc (b : Buffer) : Bool := b.type == bufferFullyDesc

/-- The memory block; an unallocated buffer has none. -/
def memory (b : Buffer) : List UInt8 := b.basePtr.getD []

end Buffer

/-- `while (to_alloc < required) to_alloc <<= 1`. -/
def doubleUntil (required : ℕ) : ℕ → ℕ → ℕ
  | 0, toAlloc => toAlloc
  | fuel + 1, toAlloc =>
    if toAlloc < required then doubleUntil required fuel (2 * toAlloc) else toAlloc

variable (env : Env)

def toAlloc (required allocated : ℕ) : ℕ :=
  if required ≥ env.thresholdSize then
    (required + env.thresholdSize - 1) / env.thresholdSize * env.thresholdSize
  else
    doubleUntil required required (if allocated = 0 then env.initialSize else allocated)

def realloc (mem : List UInt8) (n : ℕ) : List UInt8 :=
  mem.take n ++ List.replicate (n - mem.length) env.fill

def bufferExtend (bytesToAdd : ℕ) (b : Buffer) : Buffer :=
  if b.bytesAllocated - b.bytesUsed ≥ bytesToAdd then
    b
  else
    let n := toAlloc env (b.bytesUsed + bytesToAdd) b.bytesAllocated
    match b.basePtr with
    | some mem => { b with basePtr := some (realloc env mem n), bytesAllocated := n }
    | none =>
      { b with
        basePtr := some (List.replicate n env.fill), packPtr := 0, unpackPtr := 0,
        bytesAllocated := n, bytesUsed := 0 }

/-- `memcpy` to an offset of a block. -/
def memcpy (mem : List UInt8) (dst : ℕ) (bs : List UInt8) : List UInt8 :=
  mem.take dst ++ bs ++ mem.drop (dst + bs.length)

/-- The functions work on one buffer and return a status that is not success as
an error; the buffer stays as it was left. -/
abbrev Action := EStateM Status Buffer

/-- The body all the plain pack functions share: extend, copy, move the
pointers. -/
def store (bs : List UInt8) : Action Unit := do
  let b ← get
  let b := bufferExtend env bs.length b
  set b
  match b.basePtr with
  | none => throw .outOfResource
  | some mem =>
    set { b with
      basePtr := some (memcpy mem b.packPtr bs), packPtr := b.packPtr + bs.length,
      bytesUsed := b.bytesUsed + bs.length }

def tooSmall (b : Buffer) (bytesReqd : ℕ) : Bool :=
  if b.packPtr < b.unpackPtr then true else b.packPtr - b.unpackPtr < bytesReqd

/-- The body all the plain unpack functions share: check, copy, move the
pointer. -/
def fetch (n : ℕ) : Action (List UInt8) := do
  let b ← get
  if tooSmall b n then
    throw .unpackReadPastEndOfBuffer
  else
    set { b with unpackPtr := b.unpackPtr + n }
    return (b.memory.drop b.unpackPtr).take n

def encodeBE (k n : ℕ) : List UInt8 := (encodeLE k n).reverse

def decodeBE (bs : List UInt8) : ℕ := decodeLE bs.reverse

/-- A 32-bit pattern as the `size_t` it is converted to. -/
def int32ToSize (n : ℕ) : ℕ := if n < 2 ^ 31 then n else n + (2 ^ 64 - 2 ^ 32)

/-- `opal_dss_store_data_type`. -/
def storeDataType (t : DataType) : Action Unit := store env [t]

/-- `opal_dss_get_data_type`. -/
def getDataType : Action DataType := do
  let bs ← fetch 1
  return bs.headD 0

def isFullyDesc : Action Bool := do
  let b ← get
  return b.fullyDesc

end Ulfm.Dss
