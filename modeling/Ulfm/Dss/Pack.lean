import Ulfm.Dss.Definitions

/-!
# The data storage service: packing and unpacking

The registered types with their pack and unpack functions. A system type is
packed as the integer type of its size, with a tag that says which one; a data
value is packed as its type and the value of that type.
-/

namespace Ulfm.Dss

/-- The functions a type is registered with. -/
inductive TypeFn
  | null
  | byte
  | int16
  | int32
  | int64
  | bool
  | int
  | sizet
  | pid
  | string
  | dataType
  | dataValue
  | byteObject
  deriving DecidableEq

/-- `opal_dss_types` as `opal_dss_open` fills it. The two statistics types, which
hold floating point, are left out. -/
def opalDssTypes (t : DataType) : Option TypeFn :=
  if t = .null then some .null
  else if t = .byte ∨ t = .int8 ∨ t = .uint8 then some .byte
  else if t = .bool then some .bool
  else if t = .int ∨ t = .uint then some .int
  else if t = .int16 ∨ t = .uint16 then some .int16
  else if t = .int32 ∨ t = .uint32 then some .int32
  else if t = .int64 ∨ t = .uint64 then some .int64
  else if t = .size then some .sizet
  else if t = .pid then some .pid
  else if t = .string then some .string
  else if t = .dataType then some .dataType
  else if t = .dataValue then some .dataValue
  else if t = .byteObject then some .byteObject
  else none

variable (env : Env)

section Pack

/-- `opal_dss_pack_byte`, `_int16`, `_int32` and `_int64`. -/
def packWords (k : ℕ) (vals : List Value) : Action Unit :=
  store env (vals.flatMap fun v => encodeBE k v.bits)

def packNull (vals : List Value) : Action Unit := store env (List.replicate vals.length 0)

/-- The body of the loop of `opal_dss_pack_string`. -/
def packString : Value → Action Unit
  | .string (some chars) => do
      store env (encodeBE 4 (chars.length + 1))
      store env (chars ++ [0])
  | _ => store env (encodeBE 4 0)

/-- The body of the loop of `opal_dss_pack_byte_object`. -/
def packByteObject : Value → Action Unit
  | .object bytes => do
      store env (encodeBE 4 bytes.length)
      if 0 < bytes.length then store env bytes
  | _ => store env (encodeBE 4 0)

/-- The pack functions that call no other type's function. -/
def packPlain (vals : List Value) : TypeFn → Action Unit
  | .null => packNull env vals
  | .byte => packWords env 1 vals
  | .int16 => packWords env 2 vals
  | .int32 => packWords env 4 vals
  | .int64 => packWords env 8 vals
  | .string => each (packString env) vals
  | .byteObject => each (packByteObject env) vals
  | _ => throw .packFailure

def packBuffer (t : DataType) (packFn : TypeFn → Action Unit) : Action Unit := do
  if ← isFullyDesc then storeDataType env t
  match opalDssTypes t with
  | none => throw .packFailure
  | some f => packFn f

/-- `opal_dss_pack_bool`, `_int`, `_sizet` and `_pid`: `real` is the type of the
same size. -/
def packSystem (real : DataType) (vals : List Value) : Action Unit := do
  if !(← isFullyDesc) then storeDataType env real
  packBuffer env real (packPlain env vals)

/-- The pack functions of all types but data values. -/
def packSimple (vals : List Value) : TypeFn → Action Unit
  | .bool => packSystem env env.sizeofBool.unsigned vals
  | .int => packSystem env env.sizeofInt.signed vals
  | .sizet => packSystem env env.sizeofSize.unsigned vals
  | .pid => packSystem env env.sizeofPid.unsigned vals
  | .dataType => packBuffer env .uint8 (packPlain env vals)
  | f => packPlain env vals f

/-- The body of the loop of `opal_dss_pack_data_value`. -/
def packDataValue : Value → Action Unit
  | .undefValue => storeDataType env .undef
  | .value t d => do
      storeDataType env t
      if t = .undef then
        pure ()
      else
        match opalDssTypes t with
        | none => throw .packFailure
        | some _ =>
          packBuffer env t fun
            | .dataValue => packDataValue d
            | f => packSimple env [d] f
  | _ => storeDataType env .null

def packFn (vals : List Value) : TypeFn → Action Unit
  | .dataValue => each (packDataValue env) vals
  | f => packSimple env vals f

/-- `opal_dss_pack`. -/
def pack (t : DataType) (vals : List Value) : Action Unit := do
  if ← isFullyDesc then storeDataType env .int32
  store env (encodeBE 4 vals.length)
  packBuffer env t (packFn env vals)

end Pack

section Unpack

def decodeWords (k : ℕ) : ℕ → List UInt8 → List Value
  | 0, _ => []
  | n + 1, bs => .word (decodeBE (bs.take k)) :: decodeWords k n (bs.drop k)

/-- `opal_dss_unpack_byte`, `_int16`, `_int32` and `_int64`; `num` is the bit
pattern of the count and `slots` the array unpacked into. -/
def unpackWords (k num : ℕ) (slots : List Value) : Action (List Value) := do
  let bs ← fetch (int32ToSize num * k)
  return decodeWords k slots.length bs

/-- A single `int32_t`. -/
def unpackInt32 : Action ℕ := do
  let bs ← fetch 4
  return decodeBE bs

def unpackString (_ : Value) : Action Value := do
  let len ← unpackInt32
  if len = 0 then
    return .string none
  else
    let bs ← fetch (int32ToSize len)
    return .string (some (bs.takeWhile (· ≠ 0)))

def unpackByteObject (_ : Value) : Action Value := do
  let size ← unpackInt32
  if 0 < size ∧ size < 2 ^ 31 then
    let bs ← fetch (int32ToSize size)
    return .object bs
  else
    return .object []

/-- The unpack functions that call no other type's function. -/
def unpackPlain (num : ℕ) (slots : List Value) : TypeFn → Action (List Value)
  | .null => unpackWords 1 num slots
  | .byte => unpackWords 1 num slots
  | .int16 => unpackWords 2 num slots
  | .int32 => unpackWords 4 num slots
  | .int64 => unpackWords 8 num slots
  | .string => collect unpackString slots
  | .byteObject => collect unpackByteObject slots
  | _ => throw .unpackFailure

def unpackBuffer {α : Type} (t : DataType) (unpackFn : TypeFn → Action α) : Action α := do
  if ← isFullyDesc then
    let localType ← getDataType
    if t ≠ localType then throw .packMismatch
  match opalDssTypes t with
  | none => throw .unpackFailure
  | some f => unpackFn f

/-- `opal_dss_peek_type`: the copy of the buffer is the one that is read. -/
def peekType : Action DataType := fun b =>
  if !b.fullyDesc then
    .error .unknownDataType b
  else if b.unpackPtr ≥ b.bytesUsed then
    .error .unpackReadPastEndOfBuffer b
  else
    match getDataType b with
    | .ok t _ => .ok t b
    | .error e _ => .error e b

/-- The integer types of `UNPACK_SIZE_MISMATCH`, with their sizes. -/
def remoteWidth (t : DataType) : Option (Bool × Width) :=
  if t = .uint8 then some (false, .one)
  else if t = .int8 then some (true, .one)
  else if t = .uint16 then some (false, .two)
  else if t = .int16 then some (true, .two)
  else if t = .uint32 then some (false, .four)
  else if t = .int32 then some (true, .four)
  else if t = .uint64 then some (false, .eight)
  else if t = .int64 then some (true, .eight)
  else none

/-- The conversion of an integer of one size to one of another. -/
def convert (isSigned : Bool) (source target : Width) (n : ℕ) : ℕ :=
  if isSigned ∧ 2 ^ (8 * source.bytes - 1) ≤ n then
    (2 ^ 64 - 2 ^ (8 * source.bytes) + n) % 2 ^ (8 * target.bytes)
  else
    n % 2 ^ (8 * target.bytes)

def unpackSizeMismatch (cast : Bool → Width → ℕ → ℕ) (remote : DataType) (num : ℕ)
    (slots : List Value) : Action (List Value) :=
  match remoteWidth remote with
  | none => throw .notFound
  | some (isSigned, w) => do
      let tmp ← unpackBuffer remote (unpackPlain num slots)
      return tmp.map fun v => .word (cast isSigned w v.bits)

/-- `opal_dss_unpack_bool`, `_int`, `_sizet` and `_pid`. -/
def unpackSystem (real : DataType) (cast : Bool → Width → ℕ → ℕ) (num : ℕ)
    (slots : List Value) : Action (List Value) := do
  let remote ← (if ← isFullyDesc then peekType else getDataType)
  if remote = real then
    unpackBuffer real (unpackPlain num slots)
  else
    unpackSizeMismatch cast remote num slots

/-- The unpack functions of all types but data values. -/
def unpackSimple (num : ℕ) (slots : List Value) : TypeFn → Action (List Value)
  | .bool =>
    unpackSystem env.sizeofBool.unsigned (fun _ _ n => if n = 0 then 0 else 1) num slots
  | .int =>
    unpackSystem env.sizeofInt.signed (fun s w n => convert s w env.sizeofInt n) num slots
  | .sizet =>
    unpackSystem env.sizeofSize.unsigned (fun s w n => convert s w env.sizeofSize n) num slots
  | .pid =>
    unpackSystem env.sizeofPid.unsigned (fun s w n => convert s w env.sizeofPid n) num slots
  | .dataType => unpackBuffer .uint8 (unpackPlain num slots)
  | f => unpackPlain num slots f

/-- The body of the loop of `opal_dss_unpack_data_value` on one slot of the
destination. The value inside a value is unpacked to memory fresh from `malloc`.
Every level reads a tag, so the bytes left bound the nesting. -/
def unpackDataValue : ℕ → Value → Action Value
  | 0, _ => throw .unpackReadPastEndOfBuffer
  | fuel + 1, slot => do
      let dt ← getDataType
      if dt = .null then
        return slot
      else if dt = .undef then
        return .undefValue
      else
        match opalDssTypes dt with
        | none => throw .unknownDataType
        | some _ =>
          let data ← unpackBuffer dt fun
            | .dataValue => unpackDataValue fuel env.junk
            | f => do
                let ds ← unpackSimple env 1 [env.junk] f
                return ds.headD env.junk
          return .value dt data

def unpackFn (num : ℕ) (slots : List Value) : TypeFn → Action (List Value)
  | .dataValue => do
      let b ← get
      collect (unpackDataValue env (b.packPtr - b.unpackPtr + 1)) slots
  | f => unpackSimple env num slots f

/-- `opal_dss_unpack` to the slots of an array: the status, the array and, in
its length, the count. -/
def unpack (t : DataType) (slots : List Value) : Action (Status × List Value) := do
  if slots.length = 0 then throw .unpackInadequateSpace
  if ← isFullyDesc then
    let localType ← getDataType
    if localType ≠ .int32 then throw .unpackFailure
  let num ← unpackInt32
  if num < 2 ^ 31 ∧ slots.length < num then
    let vals ← unpackBuffer t (unpackFn env slots.length slots)
    return (.unpackInadequateSpace, vals)
  else
    let vals ← unpackBuffer t
      (unpackFn env num (slots.take (if num < 2 ^ 31 then num else 0)))
    return (.success, vals)

/-- `opal_dss_peek`. -/
def peek : Action (DataType × ℕ) := fun b =>
  if b.unpackPtr ≥ b.bytesUsed then
    .error .unpackReadPastEndOfBuffer b
  else if !b.fullyDesc then
    .error .unknownDataType b
  else
    let read : Action (DataType × ℕ) := do
      let localType ← getDataType
      if localType ≠ .int32 then throw .unpackFailure
      let num ← unpackInt32
      let t ← getDataType
      return (t, num)
    match read b with
    | .ok a _ => .ok a b
    | .error e _ => .error e b

end Unpack

end Ulfm.Dss
