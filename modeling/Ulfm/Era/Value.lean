import Mathlib.Data.Int.Notation
import Ulfm.Era.Tree.Definitions
import Ulfm.Foundation.Reduction

/-!
# Agreement values

The value that travels through the tree, the record that a process keeps of an
agreement, and the three functions that combine contributions:
`eraMergeNewDeadList`, `eraCombineAgreementValues` and `eraUpdateReturnValue`.
-/

namespace Ulfm

/-- `MPI_SUCCESS`. -/
def mpiSuccess : ℤ := 0

/-- `MPI_ERR_PROC_FAILED`. -/
def mpiErrProcFailed : ℤ := 54

/-- `era_value_t` with its header. The number of bytes and of newly dead ranks is
the length of the lists. -/
structure EraValue where
  ret : ℤ
  minAid : ℕ
  maxAid : ℕ
  operand : ℤ
  dtCount : ℕ
  datatype : ℤ
  bytes : List UInt8
  newDeadArray : List ℕ
deriving DecidableEq

/-- `era_proc_status_t` without its flag. -/
inductive EraStatus
  | notContributed
  | gathering
  | broadcasting
  | completed
deriving DecidableEq

/-- `era_agreement_info_t`. The flag `OP_NOT_DEFINED` of the status is a field of
its own, `comm` says whether the communicator is attached, and an empty `acked`
is the null pointer. -/
structure AgreementInfo where
  currentValue : EraValue
  status : EraStatus
  opNotDefined : Bool
  comm : Bool
  acked : List ℕ
  gatheredInfo : List ℕ
  waitingResFrom : List ℕ
  earlyRequesters : List ℕ
  waitingDownFrom : Option ℕ
deriving DecidableEq

/-- What a process knows when it handles an agreement: its rank, the size of the
communicator, the ranks it knows to have failed, the number of failed processes
it knows outside the communicator, and the reduction `ompi_op_reduce`. -/
structure EraEnv where
  me : ℕ
  size : ℕ
  failed : List ℕ
  failedElsewhere : ℕ
  reduce : ℤ → ℤ → List UInt8 → List UInt8 → List UInt8

/-- The reduction for `MPI_BAND`: bitwise conjunction of two buffers. -/
def bandBytes (_ _ : ℤ) (a b : List UInt8) : List UInt8 := List.zipWith (· &&& ·) a b

theorem bandBytes_semilatticeOn (o t : ℤ) (L : ℕ) :
    SemilatticeOn (fun b : List UInt8 => b.length = L) (bandBytes o t) where
  closed a b ha hb := by simp [bandBytes, ha, hb]
  comm a b _ _ := List.zipWith_comm_of_comm UInt8.and_comm
  assoc a b c ha hb hc := by
    refine List.ext_getElem (by simp [bandBytes]) fun i h1 h2 => ?_
    simp [bandBytes, UInt8.and_assoc]
  idem a _ := by
    refine List.ext_getElem (by simp [bandBytes]) fun i h1 h2 => ?_
    simp [bandBytes]

/-- `era_create_agreement_info`: the header of the first message seen, with room
for the lists that `eraCombineAgreementValues` fills in. -/
def eraCreateAgreementInfo (header : EraValue) : AgreementInfo where
  currentValue := { header with bytes := [] }
  status := .notContributed
  opNotDefined := true
  comm := false
  acked := []
  gatheredInfo := []
  waitingResFrom := []
  earlyRequesters := []
  waitingDownFrom := none

namespace AgreementInfo

variable (ci : AgreementInfo)

def setRet (r : ℤ) : AgreementInfo := { ci with currentValue := { ci.currentValue with ret := r } }

def setNewDead (l : List ℕ) : AgreementInfo :=
  { ci with currentValue := { ci.currentValue with newDeadArray := l } }

end AgreementInfo

/-- The merge of two increasing lists; the first argument bounds the room, the
number of cells of both lists. -/
def mergeLoop : ℕ → List ℕ → List ℕ → List ℕ
  | 0, _, _ => []
  | _ + 1, [], src => src
  | _ + 1, dst, [] => dst
  | k + 1, d :: dst, s :: src =>
    if d = s then d :: mergeLoop k dst src
    else if d < s then d :: mergeLoop k dst (s :: src)
    else s :: mergeLoop k (d :: dst) src

/-- `era_merge_new_dead_list`: the list is replaced only when it grows. -/
def eraMergeNewDeadList (ci : AgreementInfo) (src : List ℕ) : AgreementInfo :=
  let dst := ci.currentValue.newDeadArray
  let merge := mergeLoop (dst.length + src.length) dst src
  if dst.length < merge.length then ci.setNewDead merge else ci

/-- `era_combine_agreement_values`. -/
def eraCombineAgreementValues (env : EraEnv) (ni : AgreementInfo) (value : EraValue) :
    AgreementInfo :=
  let cur := ni.currentValue
  let ni :=
    if ni.opNotDefined then
      { ni with
        opNotDefined := false
        currentValue :=
          { cur with
            operand := value.operand
            dtCount := value.dtCount
            datatype := value.datatype
            bytes := value.bytes
            ret := value.ret
            minAid := value.minAid
            maxAid := value.maxAid } }
    else
      { ni with
        currentValue :=
          { cur with
            bytes :=
              if 0 < cur.dtCount then env.reduce cur.operand cur.datatype value.bytes cur.bytes
              else cur.bytes
            ret := if cur.ret < value.ret then value.ret else cur.ret
            minAid := if cur.minAid < value.minAid then value.minAid else cur.minAid
            maxAid := if value.maxAid < cur.maxAid then value.maxAid else cur.maxAid } }
  eraMergeNewDeadList ni value.newDeadArray

/-- `era_update_return_value`. A list compares the acknowledged failures of a
contribution, of a child or of the process itself, with the reference; `none`,
the `-1` of the source, is the final check against the failures that the process
knows of. A failed comparison drops the reference. -/
def eraUpdateReturnValue (env : EraEnv) (ci : AgreementInfo) (acked : Option (List ℕ)) :
    AgreementInfo :=
  if ci.currentValue.ret = mpiErrProcFailed then ci
  else
    match acked with
    | some acked =>
      if ci.acked = [] then { ci with acked := acked }
      else if acked.length ≠ ci.acked.length then
        { ci.setRet mpiErrProcFailed with acked := [] }
      else if acked ≠ ci.acked then { ci.setRet mpiErrProcFailed with acked := [] }
      else ci
    | none =>
      if ci.acked.length < env.failed.length + env.failedElsewhere then
        if env.failed.length ≠ ci.acked.length then
          { ci.setRet mpiErrProcFailed with acked := [] }
        else ci
      else ci

end Ulfm
