import Ulfm.Dss.Pack

/-!
# The data storage service: what an unpack call reads

The unpack functions once more, on a buffer loaded with any bytes, with the counts and lengths
as the signed numbers they are, and with a log of the accesses a call makes: the bytes it copies
out of the payload, and the requests it refuses because too little is left. The values go to
memory of the caller or of `malloc`, which succeeds, and are left out; so are the writes there,
into the arrays `node` and `cmd` of an `opal_pstats_t` for example, and how deep data values nest.
-/

namespace Ulfm.Dss

namespace Scan

inductive Access where
  | read (offset : ℤ) (length : ℕ)
  | refused (length : ℕ)
  deriving DecidableEq

/-- Why a call ends early: with a status, or with `strlen` beyond the end of a string that has
been copied, or on `NULL`. -/
inductive Halt where
  | status (rc : Status)
  | stray
  deriving DecidableEq

/-- `opal_buffer_t`, with the pointers as offsets from `base_ptr`. `pack_ptr` is where the
`bytes_used` bytes end. -/
structure Loaded where
  type : UInt8
  payload : List UInt8
  packPtr : ℤ
  unpackPtr : ℤ
  log : List Access
  deriving DecidableEq

/-- `opal_dss_load`: the last byte of the payload is the type of the buffer. Of an empty payload
it is the byte before it. -/
def load (before : UInt8) (payload : List UInt8) : Loaded :=
  { type := payload.getLast?.getD before, payload := payload, packPtr := payload.length - 1,
    unpackPtr := 0, log := [] }

namespace Loaded

def fullyDesc (s : Loaded) : Bool := s.type == bufferFullyDesc

/-- `opal_dss_too_small` -/
def tooSmall (s : Loaded) (bytesReqd : ℕ) : Bool :=
  s.packPtr < s.unpackPtr || (s.packPtr - s.unpackPtr).toNat < bytesReqd

end Loaded

end Scan

abbrev Scan := EStateM Scan.Halt Scan.Loaded

namespace Scan

/-- The conversion to `size_t`. -/
def sizeT (n : ℤ) : ℕ := (n % 2 ^ 64).toNat

/-- The `int32_t` of four bytes in network order. -/
def int32 (bs : List UInt8) : ℤ :=
  if decodeBE bs < 2 ^ 31 then decodeBE bs else decodeBE bs - 2 ^ 32

def fail {α : Type} (rc : Status) : Scan α := throw (.status rc)

def check (bytesReqd : ℕ) : Scan Unit := do
  let s ← get
  if s.tooSmall bytesReqd then
    set { s with log := .refused bytesReqd :: s.log }
    fail .unpackReadPastEndOfBuffer

/-- `memcpy` from `unpack_ptr`, which then moves. -/
def take (length : ℕ) (moved : ℤ) : Scan (List UInt8) := do
  let s ← get
  set { s with unpackPtr := s.unpackPtr + moved, log := .read s.unpackPtr length :: s.log }
  return (s.payload.drop s.unpackPtr.toNat).take length

def times (n : ℕ) (x : Scan Unit) : Scan Unit :=
  match n with
  | 0 => pure ()
  | n + 1 => do
      x
      times n x

/-- `opal_dss_unpack_byte` and `opal_dss_unpack_null` -/
def unpackByte (num : ℤ) : Scan (List UInt8) := do
  check (sizeT num)
  take (sizeT num) num

/-- `opal_dss_unpack_int16`, `_int32` and `_int64`, for words of `k` bytes. -/
def unpackWords (k : ℕ) (num : ℤ) : Scan Unit := do
  check (sizeT num * k % 2 ^ 64)
  times num.toNat (discard (take k k))

/-- `opal_dss_unpack_int32` of a single number. -/
def unpackInt32 : Scan ℤ := do
  check (sizeT 1 * 4 % 2 ^ 64)
  let bs ← take 4 4
  return int32 bs

/-- `opal_dss_get_data_type` -/
def getDataType : Scan DataType := do
  let bs ← unpackByte 1
  return bs.headD 0

/-- The reads of a copy of the buffer leave the pointer where it is. -/
def onCopy {α : Type} (x : Scan α) : Scan α := fun s =>
  match x s with
  | .ok a s' => .ok a { s with log := s'.log }
  | .error e s' => .error e { s with log := s'.log }

/-- `opal_dss_peek_type` -/
def peekType : Scan DataType := do
  let s ← get
  if !s.fullyDesc then fail .unknownDataType
  else if s.packPtr ≤ s.unpackPtr then fail .unpackReadPastEndOfBuffer
  else onCopy getDataType

/-- In a fully described buffer the tag of the type comes first. -/
def expectTag {α : Type} (t : DataType) (rc : Status) (x : Scan α) : Scan α := do
  let s ← get
  if s.fullyDesc then
    let localType ← getDataType
    if t ≠ localType then fail rc
  x

/-- `opal_dss_unpack_buffer` up to the function of the type. -/
def tagged {α : Type} (t : DataType) (x : Scan α) : Scan α := expectTag t .packMismatch x

/-- The body of the loop of `opal_dss_unpack_string`. -/
def unpackString : Scan (Option (List UInt8)) := do
  let len ← unpackInt32
  if len = 0 then
    return none
  else
    let bs ← unpackByte len
    return some bs

/-- The body of the loop of `opal_dss_unpack_byte_object`. -/
def unpackByteObject : Scan Unit := do
  let size ← unpackInt32
  if 0 < size then discard (unpackByte size)

/-- The unpack functions that call no other type's function. -/
def unpackPlain (num : ℤ) : TypeFn → Scan Unit
  | .null => discard (unpackByte num)
  | .byte => discard (unpackByte num)
  | .int16 => unpackWords 2 num
  | .int32 => unpackWords 4 num
  | .int64 => unpackWords 8 num
  | .string => times num.toNat (discard unpackString)
  | .byteObject => times num.toNat unpackByteObject
  | _ => fail .unpackFailure

/-- `opal_dss_unpack_buffer`, for a type whose function calls no other type's. -/
def unpackBufferPlain (t : DataType) (num : ℤ) : Scan Unit :=
  tagged t (match opalDssTypes t with
    | none => fail .unpackFailure
    | some f => unpackPlain num f)

/-- `opal_dss_unpack_bool`, `_int`, `_sizet` and `_pid`: `real` is the type of the same size. -/
def unpackSystem (real : DataType) (num : ℤ) : Scan Unit := do
  let s ← get
  let remote ← (if s.fullyDesc then peekType else getDataType)
  if remote = real then unpackBufferPlain real num
  else
    match remoteWidth remote with
    | none => fail .notFound
    | some _ => unpackBufferPlain remote num

variable (env : Env)

/-- The unpack functions of all types but data values and the statistics types. -/
def unpackSimple (num : ℤ) : TypeFn → Scan Unit
  | .bool => unpackSystem env.sizeofBool.unsigned num
  | .int => unpackSystem env.sizeofInt.signed num
  | .sizet => unpackSystem env.sizeofSize.unsigned num
  | .pid => unpackSystem env.sizeofPid.unsigned num
  | .dataType => unpackBufferPlain .uint8 num
  | f => unpackPlain num f

/-- `strlen` of a string that has been unpacked. -/
def strlen (cptr : Option (List UInt8)) : Scan Unit :=
  match cptr with
  | none => throw .stray
  | some bs => if 0 ∈ bs then pure () else throw .stray

inductive Field where
  | string
  | int32
  | int16
  | byte
  | pid
  deriving DecidableEq

def Field.unpack : Field → Scan Unit
  | .string => do
      let cptr ← tagged .string unpackString
      strlen cptr
  | .int32 => tagged .int32 (unpackWords 4 1)
  | .int16 => tagged .int16 (unpackWords 2 1)
  | .byte => tagged .byte (discard (unpackByte 1))
  | .pid => tagged .pid (unpackSystem env.sizeofPid.unsigned 1)

/-- `opal_dss_unpack_float` -/
def floatFields : List Field := [.int32, .int32]

/-- `opal_dss_unpack_pstat`: `node`, `rank`, `pid`, `cmd`, `state`, `time`, `priority`,
`num_threads`, `vsize`, `rss`, `peak_vsize`, `processor` and `sample_time`. -/
def pstatFields : List Field :=
  [.string, .int32, .pid, .string, .byte, .int32, .int32, .int32, .int16] ++ floatFields ++
    floatFields ++ floatFields ++ [.int16, .int32, .int32]

/-- `opal_dss_unpack_node_stat`: eleven numbers and `sample_time`. -/
def nodeStatFields : List Field := (List.replicate 11 floatFields).flatten ++ [.int32, .int32]

def unpackFields : List Field → Scan Unit
  | [] => pure ()
  | f :: fields => do
      f.unpack env
      unpackFields fields

/-- The functions a type is registered with, the two statistics types among them. -/
inductive Fn where
  | simple (f : TypeFn)
  | pstat
  | nodeStat
  deriving DecidableEq

/-- `opal_dss_types` as `opal_dss_open` fills it. -/
def types (t : DataType) : Option Fn :=
  if t = 20 then some .pstat
  else if t = 21 then some .nodeStat
  else (opalDssTypes t).map .simple

/-- The unpack function of a type for a single value, with the one of data values given. -/
def unpackOne (dataValue : Scan Unit) : Fn → Scan Unit
  | .simple .dataValue => dataValue
  | .simple f => unpackSimple env 1 f
  | .pstat => unpackFields env pstatFields
  | .nodeStat => unpackFields env nodeStatFields

/-- The body of the loop of `opal_dss_unpack_data_value`. Every level reads a tag, so the bytes
left bound the nesting. -/
def unpackDataValue : ℕ → Scan Unit
  | 0 => fail .unpackReadPastEndOfBuffer
  | fuel + 1 => do
      let dt ← getDataType
      if dt = .null then pure ()
      else if dt = .undef then pure ()
      else
        match types dt with
        | none => fail .unknownDataType
        | some f => tagged dt (unpackOne env (unpackDataValue fuel) f)

def unpackFn (num : ℤ) : Fn → Scan Unit
  | .simple .dataValue => do
      let s ← get
      times num.toNat (unpackDataValue env ((s.packPtr - s.unpackPtr).toNat + 1))
  | .simple f => unpackSimple env num f
  | .pstat => times num.toNat (unpackFields env pstatFields)
  | .nodeStat => times num.toNat (unpackFields env nodeStatFields)

/-- `opal_dss_unpack_buffer` -/
def unpackBuffer (t : DataType) (num : ℤ) : Scan Unit :=
  tagged t (match types t with
    | none => fail .unpackFailure
    | some f => unpackFn env num f)

/-- `opal_dss_unpack` after the tag of the number of values. -/
def unpackCounted (t : DataType) (room : ℕ) : Scan (Status × ℤ) := do
  let localNum ← unpackInt32
  if room < localNum then
    unpackBuffer env t room
    return (.unpackInadequateSpace, room)
  else
    unpackBuffer env t localNum
    return (.success, localNum)

/-- `opal_dss_unpack`, with room for `room` values: the status and `*num_vals`, which is 0 where
the status is thrown. -/
def unpack (t : DataType) (room : ℕ) : Scan (Status × ℤ) :=
  if room = 0 then fail .unpackInadequateSpace
  else expectTag .int32 .unpackFailure (unpackCounted env t room)

/-- What `opal_dss_peek` reads from the copy of the buffer. -/
def peekItem : Scan (DataType × ℤ) := do
  let localType ← getDataType
  if DataType.int32 ≠ localType then fail .unpackFailure
  else
    let numVals ← unpackInt32
    let t ← getDataType
    return (t, numVals)

/-- `opal_dss_peek`: the type and the number of values of the next item. -/
def peek : Scan (DataType × ℤ) := do
  let s ← get
  if s.packPtr ≤ s.unpackPtr then fail .unpackReadPastEndOfBuffer
  else if !s.fullyDesc then fail .unknownDataType
  else onCopy peekItem

inductive Call where
  | unpack (t : DataType) (room : ℕ)
  | peek
  deriving DecidableEq

/-- What a call comes back with: the number of values, a status, or not at all. -/
inductive Reply where
  | success (numVals : ℤ)
  | failed (rc : Status)
  | stray
  deriving DecidableEq

def exec (s : Loaded) (c : Call) : Reply × Loaded :=
  match c with
  | .unpack t room =>
    match unpack env t room { s with log := [] } with
    | .ok (rc, numVals) s' => (if rc = .success then .success numVals else .failed rc, s')
    | .error (.status rc) s' => (.failed rc, s')
    | .error .stray s' => (.stray, s')
  | .peek =>
    match peek { s with log := [] } with
    | .ok (_, numVals) s' => (.success numVals, s')
    | .error (.status rc) s' => (.failed rc, s')
    | .error .stray s' => (.stray, s')

def step (s : Loaded) (c : Call) : Loaded := (exec env s c).2

end Scan

end Ulfm.Dss
