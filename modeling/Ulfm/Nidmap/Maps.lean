import Ulfm.Foundation.Slots
import Mathlib.Algebra.Order.Ring.Int

/-!
# The maps of nodes and processes

The launcher encodes its pool of nodes and its table of jobs, and everyone else decodes them into
`orte_nidmap` and `orte_jobmap`, in which it looks up where a process runs. A buffer is the sequence
of what `opal_dss.pack` put in. What `malloc` finds in the memory is a parameter, and so is what the
decoder has in its maps before.
-/

namespace Ulfm.Nidmap

abbrev Vpid := ℕ

abbrev JobId := ℕ

abbrev Name := List Char

/-- `ORTE_VPID_INVALID`. -/
def vpidInvalid : Vpid := 2 ^ 32 - 1

/-- `orte_node_t`. -/
structure Node where
  name : Name
  index : ℤ
  /-- `daemon->name.vpid`, if the node has a daemon. -/
  daemon : Option Vpid
  oversubscribed : Bool
deriving DecidableEq

/-- `orte_proc_t`. -/
structure Proc where
  node : Node
  localRank : UInt16
  nodeRank : UInt16
  bindIdx : ℕ
deriving DecidableEq

/-- `orte_job_map_t`. -/
structure JobMap where
  bindLevel : ℕ
deriving DecidableEq

/-- `orte_job_t`. -/
structure Job where
  jobid : JobId
  numProcs : ℕ
  map : Option JobMap
  procs : List (Option Proc)
deriving DecidableEq

/-- `opal_pointer_array_get_item`. -/
def getItem {α : Type} (table : List (Option α)) (i : ℤ) : Option α :=
  if i < 0 then none else table[i.toNat]?.join

/-- One call of `opal_dss.pack`. -/
inductive Packed
  | int32 (vals : List ℤ)
  | string (vals : List Name)
  | vpid (vals : List Vpid)
  | uint8 (vals : List UInt8)
  | jobid (vals : List JobId)
  | level (vals : List ℕ)
  | localRank (vals : List UInt16)
  | nodeRank (vals : List UInt16)
  | uint (vals : List ℕ)
deriving DecidableEq

abbrev Buffer := List Packed

inductive Status
  | success
  | unpackInadequateSpace
  | unpackReadPastEnd
  | unpackFailure
deriving DecidableEq

namespace Packed

def int32? : Packed → Option (List ℤ) | int32 vals => some vals | _ => none

def string? : Packed → Option (List Name) | string vals => some vals | _ => none

def vpid? : Packed → Option (List Vpid) | vpid vals => some vals | _ => none

def uint8? : Packed → Option (List UInt8) | uint8 vals => some vals | _ => none

def jobid? : Packed → Option (List JobId) | jobid vals => some vals | _ => none

def level? : Packed → Option (List ℕ) | level vals => some vals | _ => none

def localRank? : Packed → Option (List UInt16) | localRank vals => some vals | _ => none

def nodeRank? : Packed → Option (List UInt16) | nodeRank vals => some vals | _ => none

def uint? : Packed → Option (List ℕ) | uint vals => some vals | _ => none

end Packed

/-- `opal_dss.unpack` into room for `n` values that has `before` in it. -/
def unpack {α : Type} (pick : Packed → Option (List α)) (before : ℕ → α) (n : ℕ) :
    Buffer → Except Status (List α × Buffer)
  | buf =>
    if n = 0 then .error .unpackInadequateSpace
    else
      match buf with
      | [] => .error .unpackReadPastEnd
      | item :: rest =>
        match pick item with
        | none => .error .unpackFailure
        | some vals =>
          if n < vals.length then .error .unpackInadequateSpace
          else .ok (vals ++ ((List.range n).map before).drop vals.length, rest)

/-- What is in the memory that `malloc` returns, for the arrays of both encoders. -/
structure Memory where
  vpids : ℕ → Vpid
  oversub : ℕ → UInt8
  nodes : JobId → ℕ → ℤ
  lrank : JobId → ℕ → UInt16
  nrank : JobId → ℕ → UInt16
  bindIdx : JobId → ℕ → ℕ

/-- What an encoder returns, and whether it stored outside of its arrays. -/
structure Encoded where
  buf : Buffer
  overrun : Bool
deriving DecidableEq

section NodeMap

/-- The name without the part from the first dot on, unless full names are kept. -/
def nodeName (keepFqdn : Bool) (node : Node) : Name :=
  if keepFqdn then node.name else node.name.takeWhile (· ≠ '.')

/-- The arrays `vpids` and `oversub`. -/
structure Flags where
  vpids : Block Vpid
  oversub : Block UInt8

def Flags.store (flags : Flags) (node : Node) (i : ℕ) : Flags :=
  match node.daemon with
  -- some nodes may not have daemons on them
  | none => { flags with vpids := flags.vpids.put i vpidInvalid }
  | some vpid =>
    { vpids := flags.vpids.put i vpid
      oversub := flags.oversub.put i (if node.oversubscribed then 1 else 0) }

def Flags.fill : List (Option Node) → ℕ → Flags → Flags
  | [], _, flags => flags
  | none :: pool, i, flags => fill pool (i + 1) flags
  | some node :: pool, i, flags => fill pool (i + 1) (flags.store node i)

/-- `orte_util_encode_nodemap`. -/
def encodeNodemap (keepFqdn : Bool) (mem : Memory) (pool : List (Option Node)) : Encoded :=
  let numNodes := pool.countP Option.isSome
  let names := pool.reduceOption.map fun node => Packed.string [nodeName keepFqdn node]
  let flags := Flags.fill pool 0
    { vpids := Block.malloc mem.vpids numNodes
      oversub := Block.malloc mem.oversub numNodes }
  { buf := Packed.int32 [numNodes] :: names ++
      [Packed.vpid flags.vpids.cells, Packed.uint8 flags.oversub.cells]
    overrun := flags.vpids.overrun || flags.oversub.overrun }

/-- `orte_nid_t`. -/
structure Nid where
  name : Option Name
  daemon : Vpid
  oversubscribed : Bool
deriving DecidableEq

/-- `OBJ_NEW(orte_nid_t)`. -/
def Nid.new : Nid := ⟨none, vpidInvalid, false⟩

/-- `opal_pointer_array_set_size`. -/
def setSize {α : Type} (n : ℕ) (table : List (Option α)) : List (Option α) :=
  table ++ List.replicate (n - table.length) none

/-- The loop that unpacks the names of the nodes from `i` on. -/
def unpackNames : ℕ → ℕ → Buffer → List (Option Nid) → Except Status Buffer × List (Option Nid)
  | 0, _, buf, nidmap => (.ok buf, nidmap)
  | n + 1, i, buf, nidmap =>
    match unpack Packed.string? (fun _ => []) 1 buf with
    | .error e => (.error e, nidmap.set i (some Nid.new))
    | .ok (names, buf) =>
      unpackNames n (i + 1) buf (nidmap.set i (some { Nid.new with name := names.head? }))

/-- The loop that transfers the vpids and the flags to the nodes from `i` on. -/
def transferFlags : List Vpid → List UInt8 → ℕ → List (Option Nid) → List (Option Nid)
  | vpid :: vpids, flag :: oversub, i, nidmap =>
    transferFlags vpids oversub (i + 1)
      (nidmap.modify i (Option.map fun nid =>
        { nid with daemon := vpid, oversubscribed := flag ≠ 0 }))
  | _, _, _, nidmap => nidmap

/-- `orte_util_decode_nodemap`. -/
def decodeNodemap (mem : Memory) (buf : Buffer) (nidmap : List (Option Nid)) :
    Status × List (Option Nid) :=
  let nidmap := nidmap.map fun _ => none
  match unpack Packed.int32? (fun _ => 0) 1 buf with
  | .error e => (e, nidmap)
  | .ok (count, buf) =>
    let numNodes := (count.headD 0).toNat
    match unpackNames numNodes 0 buf (setSize numNodes nidmap) with
    | (.error e, nidmap) => (e, nidmap)
    | (.ok buf, nidmap) =>
      match unpack Packed.vpid? mem.vpids numNodes buf with
      | .error e => (e, nidmap)
      | .ok (vpids, buf) =>
        match unpack Packed.uint8? mem.oversub numNodes buf with
        | .error e => (e, nidmap)
        | .ok (oversub, _) => (.success, transferFlags vpids oversub 0 nidmap)

end NodeMap

section ProcessMap

structure Arrays where
  nodes : Block ℤ
  lrank : Block UInt16
  nrank : Block UInt16
  bindIdx : Block ℕ

def Arrays.malloc (mem : Memory) (job : Job) : Arrays where
  nodes := Block.malloc (mem.nodes job.jobid) job.numProcs
  lrank := Block.malloc (mem.lrank job.jobid) job.numProcs
  nrank := Block.malloc (mem.nrank job.jobid) job.numProcs
  bindIdx := Block.malloc (mem.bindIdx job.jobid) job.numProcs

def Arrays.store (arrays : Arrays) (proc : Proc) (k : ℕ) : Arrays where
  nodes := arrays.nodes.put k proc.node.index
  lrank := arrays.lrank.put k proc.localRank
  nrank := arrays.nrank.put k proc.nodeRank
  bindIdx := arrays.bindIdx.put k proc.bindIdx

def Arrays.fill (numProcs : ℕ) : List (Option Proc) → ℕ → Arrays → Arrays
  | [], _, arrays => arrays
  | none :: procs, k, arrays => fill numProcs procs k arrays
  | some proc :: procs, k, arrays =>
    if numProcs ≤ k then arrays else fill numProcs procs (k + 1) (arrays.store proc k)

def Arrays.overrun (arrays : Arrays) : Bool :=
  arrays.nodes.overrun || arrays.lrank.overrun || arrays.nrank.overrun || arrays.bindIdx.overrun

/-- What `orte_util_encode_pidmap` packs for one job. -/
def encodeJob (mem : Memory) (job : Job) (map : JobMap) : Encoded :=
  let arrays := Arrays.fill job.numProcs job.procs 0 (Arrays.malloc mem job)
  { buf := [.jobid [job.jobid], .vpid [job.numProcs], .level [map.bindLevel],
      .int32 arrays.nodes.cells, .localRank arrays.lrank.cells, .nodeRank arrays.nrank.cells,
      .uint arrays.bindIdx.cells]
    overrun := arrays.overrun }

def encodeJobs (mem : Memory) : List (Option Job) → Encoded
  | [] => ⟨[], false⟩
  | none :: jobs => encodeJobs mem jobs
  | some job :: jobs =>
    match job.map with
    -- a tool
    | none => encodeJobs mem jobs
    | some map =>
      { buf := (encodeJob mem job map).buf ++ (encodeJobs mem jobs).buf
        overrun := (encodeJob mem job map).overrun || (encodeJobs mem jobs).overrun }

/-- `orte_util_encode_pidmap`. -/
def encodePidmap (mem : Memory) (jobs : List (Option Job)) : Encoded := encodeJobs mem (jobs.drop 1)

/-- `orte_pmap_t`. -/
structure Pmap where
  node : ℤ
  localRank : UInt16
  nodeRank : UInt16
deriving DecidableEq

/-- `orte_jmap_t`. -/
structure Jmap where
  job : JobId
  bindLevel : ℕ
  numProcs : ℕ
  pmap : List (Option Pmap)
deriving DecidableEq

/-- Whether a job is in the table already. -/
def alreadyPresent (jobid : JobId) (jobmap : List (Option Jmap)) : Bool :=
  jobmap.any fun slot => slot.any fun jmap => jmap.job = jobid

/-- The new contents of the first entry for the job; its table keeps its size. -/
def refresh (jmap : Jmap) : List (Option Jmap) → List (Option Jmap)
  | [] => []
  | none :: jobmap => none :: refresh jmap jobmap
  | some old :: jobmap =>
    if old.job = jmap.job then
      some { jmap with pmap := setSize old.pmap.length jmap.pmap } :: jobmap
    else some old :: refresh jmap jobmap

/-- `opal_pointer_array_add`, into the first slot that is free. -/
def addJmap (jmap : Jmap) : List (Option Jmap) → List (Option Jmap)
  | [] => [some jmap]
  | none :: jobmap => some jmap :: jobmap
  | some old :: jobmap => some old :: addJmap jmap jobmap

def storeJmap (jobmap : List (Option Jmap)) (jmap : Jmap) : List (Option Jmap) :=
  if alreadyPresent jmap.job jobmap then refresh jmap jobmap else addJmap jmap jobmap

structure JobArrays where
  job : JobId
  level : ℕ
  numProcs : ℕ
  nodes : List ℤ
  localRank : List UInt16
  nodeRank : List UInt16
  bindIdx : List ℕ
deriving DecidableEq

/-- The part of a cycle of `orte_util_decode_pidmap` that unpacks, after the id of the job. -/
def unpackArrays (mem : Memory) (jobid : JobId) (buf : Buffer) :
    Except Status (JobArrays × Buffer) := do
  let (count, buf) ← unpack Packed.vpid? (fun _ => 0) 1 buf
  let numProcs := count.headD 0
  let (level, buf) ← unpack Packed.level? (fun _ => 0) 1 buf
  let (nodes, buf) ← unpack Packed.int32? (mem.nodes jobid) numProcs buf
  let (localRank, buf) ← unpack Packed.localRank? (mem.lrank jobid) numProcs buf
  let (nodeRank, buf) ← unpack Packed.nodeRank? (mem.nrank jobid) numProcs buf
  let (bindIdx, buf) ← unpack Packed.uint? (mem.bindIdx jobid) numProcs buf
  return (⟨jobid, level.headD 0, numProcs, nodes, localRank, nodeRank, bindIdx⟩, buf)

def JobArrays.jmap (arrays : JobArrays) : Jmap where
  job := arrays.job
  bindLevel := arrays.level
  numProcs := arrays.numProcs
  pmap := (arrays.nodes.zip (arrays.localRank.zip arrays.nodeRank)).map
    fun (node, lrank, nrank) => some (Pmap.mk node lrank nrank)

def decodeJob (mem : Memory) (jobid : JobId) (buf : Buffer) : Except Status (Jmap × Buffer) := do
  let (arrays, buf) ← unpackArrays mem jobid buf
  return (arrays.jmap, buf)

/-- The cycles of `orte_util_decode_pidmap`. -/
def decodeCycles (mem : Memory) : ℕ → Buffer → List (Option Jmap) → Status × List (Option Jmap)
  | 0, _, jobmap => (.success, jobmap)
  | fuel + 1, buf, jobmap =>
    match unpack Packed.jobid? (fun _ => 0) 1 buf with
    -- the end of the buffer is no error
    | .error .unpackReadPastEnd => (.success, jobmap)
    | .error e => (e, jobmap)
    | .ok (jobid, buf) =>
      match decodeJob mem (jobid.headD 0) buf with
      | .error e => (e, jobmap)
      | .ok (jmap, buf) => decodeCycles mem fuel buf (storeJmap jobmap jmap)

/-- `orte_util_decode_pidmap`; every cycle takes items from the buffer. -/
def decodePidmap (mem : Memory) (buf : Buffer) (jobmap : List (Option Jmap)) :
    Status × List (Option Jmap) :=
  decodeCycles mem (buf.length + 1) buf jobmap

/-- `orte_util_lookup_jmap`. -/
def lookupJmap (jobmap : List (Option Jmap)) (job : JobId) : Option Jmap :=
  jobmap.reduceOption.find? fun jmap => jmap.job = job

/-- `orte_util_lookup_pmap`. -/
def lookupPmap (jobmap : List (Option Jmap)) (job : JobId) (vpid : Vpid) : Option Pmap :=
  (lookupJmap jobmap job).bind fun jmap => getItem jmap.pmap vpid

end ProcessMap

end Ulfm.Nidmap
