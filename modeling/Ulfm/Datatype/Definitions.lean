import Mathlib.Algebra.Order.Ring.Int
import Mathlib.Data.List.Basic

/-!
# Datatype descriptions

The datatypes of the OPAL layer: `opal_datatype_add`, which appends copies of one
datatype to the description of another, and `opal_datatype_commit`, which runs
`opal_datatype_optimize_short` over the description. A step that C leaves
undefined (an overflow of `ptrdiff_t`, a write behind an array) gives `none`.
-/

namespace Ulfm.Ddt

section Types

/-- The ids of the OPAL layer, markers included. -/
inductive TypeId
  | loop
  | endLoop
  | lb
  | ub
  | int1
  | int2
  | int4
  | int8
  | int16
  | uint1
  | uint2
  | uint4
  | uint8
  | uint16
  | float2
  | float4
  | float8
  | float12
  | float16
  | complex8
  | complex16
  | complex32
  | bool
  | wchar
  | unavailable
  deriving DecidableEq

/-- The real type of the two parts of a complex type. -/
def TypeId.part : TypeId → Option TypeId
  | .complex8 => some .float4
  | .complex16 => some .float8
  | .complex32 => some .float16
  | _ => none

/-- What configure finds out about the basic types. A type that is not available
has size zero. -/
structure Platform where
  size : TypeId → ℕ
  align : TypeId → ℕ
  uint1_size : size .uint1 = 1
  complex_size : ∀ t u, t.part = some u → size t = 0 ∨ size t = 2 * size u
  size_lt : ∀ t, size t < 2 ^ 31

structure Flags where
  unavailable : Bool := false
  predefined : Bool := false
  commited : Bool := false
  contiguous : Bool := false
  noGaps : Bool := false
  userLb : Bool := false
  userUb : Bool := false
  data : Bool := false
  deriving DecidableEq

/-- `OPAL_DATATYPE_FLAG_BASIC`. -/
def Flags.basic : Flags where
  predefined := true
  contiguous := true
  noGaps := true
  data := true
  commited := true

/-- `ddt_elem_desc`. -/
structure Elem where
  flags : Flags
  type : TypeId
  count : ℕ
  extent : ℤ
  disp : ℤ
  deriving DecidableEq

/-- `ddt_loop_desc`. -/
structure Loop where
  flags : Flags
  loops : ℕ
  items : ℕ
  extent : ℤ
  deriving DecidableEq

/-- `ddt_endloop_desc`. -/
structure EndLoop where
  flags : Flags
  items : ℕ
  size : ℕ
  firstElemDisp : ℤ
  deriving DecidableEq

/-- `dt_elem_desc`. -/
inductive Entry
  | elem (e : Elem)
  | loop (l : Loop)
  | endLoop (e : EndLoop)
  deriving DecidableEq

/-- `opal_datatype_t`; `desc` holds the used entries of the description, which has
room for `descLength`, `loops` is `btypes[OPAL_DATATYPE_LOOP]`, and `elements` is the
sum of `btypes` over the types with data, which is only ever read as that sum. -/
structure Datatype where
  flags : Flags
  id : TypeId
  size : ℕ
  trueLb : ℤ
  trueUb : ℤ
  lb : ℤ
  ub : ℤ
  align : ℕ
  nbElems : ℕ
  desc : List Entry
  descLength : ℕ
  optDesc : List Entry
  loops : ℕ
  elements : ℕ
  deriving DecidableEq

def longMax : ℤ := 2 ^ 63 - 1

def longMin : ℤ := -2 ^ 63

/-- `opal_datatype_create`. -/
def opalDatatypeCreate (expectedSize : ℕ) : Datatype where
  flags := { contiguous := true }
  id := .loop
  size := 0
  trueLb := longMax
  trueUb := longMin
  lb := longMax
  ub := longMin
  align := 1
  nbElems := 0
  desc := []
  descLength := expectedSize + 1
  optDesc := []
  loops := 0
  elements := 0

/-- An object without data: the markers, the types that are not available, and
`MPI_DATATYPE_NULL`. -/
def emptyDatatype (id : TypeId) (unavailable : Bool) : Datatype where
  flags := { predefined := true, unavailable := unavailable }
  id := id
  size := 0
  trueLb := 0
  trueUb := 0
  lb := 0
  ub := 0
  align := 0
  nbElems := 1
  desc := []
  descLength := 0
  optDesc := []
  loops := 0
  elements := 0

/-- `btypes` of a basic type: a complex type counts as its two parts. -/
def TypeId.nbElems (t : TypeId) : ℕ := if t.part = none then 1 else 2

/-- The entry that `opal_datatype_init` gives a basic type. -/
def basicElem (p : Platform) (t : TypeId) : Entry :=
  let part := t.part.getD t
  .elem
    { flags := { Flags.basic with commited := false }, type := part, count := t.nbElems
      extent := p.size part, disp := 0 }

/-- `opal_datatype_basicDatatypes`. -/
def basicDatatype (p : Platform) (t : TypeId) : Datatype :=
  match t with
  | .loop | .endLoop | .lb | .ub => emptyDatatype t false
  | _ =>
    if p.size t = 0 then emptyDatatype t true
    else
      { flags := Flags.basic
        id := t
        size := p.size t
        trueLb := 0
        trueUb := p.size t
        lb := 0
        ub := p.size t
        align := p.align t
        nbElems := t.nbElems
        desc := [basicElem p t]
        descLength := 1
        optDesc := [basicElem p t]
        loops := 0
        elements := t.nbElems }

end Types

section Add

/-- The marker `OPAL_DATATYPE_LB` is added. -/
def Datatype.addLb (base : Datatype) (disp : ℤ) : Datatype :=
  let lb := if base.flags.userLb then min base.lb disp else disp
  { base with
    lb := lb
    flags := { base.flags with
      userLb := true
      noGaps := base.flags.noGaps && decide (base.ub - lb = base.size) } }

/-- The marker `OPAL_DATATYPE_UB` is added. -/
def Datatype.addUb (base : Datatype) (disp : ℤ) : Datatype :=
  let ub := if base.flags.userUb then max base.ub disp else disp
  { base with
    ub := ub
    flags := { base.flags with
      userUb := true
      noGaps := base.flags.noGaps && decide (ub - base.lb = base.size) } }

/-- `OPAL_DATATYPE_COMPUTE_REQUIRED_ENTRIES`. -/
def placeNeeded (t : Datatype) (count : ℕ) (extent : ℤ) : Option ℕ :=
  if t.flags.predefined then some (if extent = t.size then 1 else 3)
  else if count ≠ 1 then
    if t.desc.length < 2 ^ 32 - 1 - 2 then some (t.desc.length + 2) else none
  else some t.desc.length

/-- The displacement of the last of `count` copies. -/
def upperDisp (count : ℕ) (disp extent : ℤ) : ℤ := disp + extent * ((count : ℤ) - 1)

/-- `OPAL_DATATYPE_LB_UB_CONT`. -/
def lbUbCont (count : ℕ) (disp oldLb oldUb oldExtent : ℤ) : ℤ × ℤ :=
  if count = 0 then (oldLb + disp, oldUb + disp)
  else
    let upper := upperDisp count disp oldExtent
    if disp < upper then (disp + oldLb, upper + oldUb) else (upper + oldLb, disp + oldUb)

/-- The bounds of the copies: lower and upper, without and with the gaps. -/
structure Bounds where
  lb : ℤ
  ub : ℤ
  trueLb : ℤ
  trueUb : ℤ
  deriving DecidableEq

def addedBounds (t : Datatype) (count : ℕ) (disp extent : ℤ) : Bounds :=
  let (lb, ub) := lbUbCont count disp t.lb t.ub extent
  let trueLb := lb - (t.lb - t.trueLb)
  let trueUb := ub - (t.ub - t.trueUb)
  if trueLb > trueUb then ⟨lb, ub, trueUb, trueLb⟩ else ⟨lb, ub, trueLb, trueUb⟩

def isPtrdiff (x : ℤ) : Prop := longMin ≤ x ∧ x ≤ longMax

instance (x : ℤ) : Decidable (isPtrdiff x) := by
  unfold isPtrdiff
  infer_instance

/-- No signed overflow on the way to the bounds. -/
def Bounds.Representable (b : Bounds) (count : ℕ) (disp extent : ℤ) : Prop :=
  isPtrdiff (upperDisp count disp extent) ∧ isPtrdiff b.lb ∧ isPtrdiff b.ub ∧
    isPtrdiff b.trueLb ∧ isPtrdiff b.trueUb

instance (b : Bounds) (count : ℕ) (disp extent : ℤ) :
    Decidable (b.Representable count disp extent) := by
  unfold Bounds.Representable
  infer_instance

/-- The upper bound with its epsilon, unless the user has set it. -/
def paddedUb (userUb : Bool) (lb ub : ℤ) (align : ℕ) : ℤ :=
  let epsilon := (ub - lb).tmod align
  if userUb = false ∧ epsilon ≠ 0 then ub + (align - epsilon) else ub

/-- The bounds, the alignment and the flags of `base` once the copies belong to it. -/
def Datatype.enclose (base t : Datatype) (b : Bounds) : Datatype :=
  let lb :=
    if t.flags.userLb ≠ base.flags.userLb then
      if base.flags.userLb then base.lb else b.lb
    else min base.lb b.lb
  let ub :=
    if base.flags.userUb ≠ t.flags.userUb then
      if base.flags.userUb then base.ub else b.ub
    else max base.ub b.ub
  let align := max base.align t.align
  let flags := { base.flags with
    userLb := base.flags.userLb || t.flags.userLb
    userUb := base.flags.userUb || t.flags.userUb
    data := true }
  { base with lb := lb, ub := paddedUb flags.userUb lb ub align, align := align, flags := flags }

def Entry.shift (disp : ℤ) : Entry → Entry
  | .elem e => .elem (if e.flags.data then { e with disp := e.disp + disp } else e)
  | .loop l => .loop l
  | .endLoop e => .endLoop { e with firstElemDisp := e.firstElemDisp + disp }

/-- The displacement of the entry that `GET_FIRST_NON_LOOP` finds. -/
def firstNonLoop : List Entry → ℤ
  | .loop _ :: rest => firstNonLoop rest
  | .elem e :: _ => e.disp
  | .endLoop e :: _ => e.firstElemDisp
  | [] => 0

def createLoopStart (count items : ℕ) (extent : ℤ) (flags : Flags) : Entry :=
  .loop ⟨{ flags with data := false }, count, items, extent⟩

def createLoopEnd (items : ℕ) (firstItemDisp : ℤ) (size : ℕ) (flags : Flags) : Entry :=
  .endLoop ⟨{ flags with data := false }, items, size, firstItemDisp⟩

/-- The entries for copies of a predefined type. -/
def predefinedEntries (t : Datatype) (count : ℕ) (disp extent : ℤ) : List Entry :=
  if extent ≠ t.size ∧ count > 1 then
    let flags := { t.flags with commited := false, contiguous := false, noGaps := false }
    [createLoopStart count 2 extent flags,
      .elem ⟨{ flags with contiguous := true }, t.id, 1, t.size, disp⟩,
      createLoopEnd 2 disp t.size flags]
  else [.elem ⟨{ t.flags with commited := false }, t.id, count, extent, disp⟩]

/-- The entries for copies of a description. -/
def copiedEntries (t : Datatype) (count : ℕ) (disp extent : ℤ) : List Entry :=
  let entries := t.desc.map (Entry.shift disp)
  if count = 1 then entries
  else
    let flags := { t.flags with commited := false }
    createLoopStart count (t.desc.length + 1) extent flags :: entries ++
      [createLoopEnd (t.desc.length + 1) (firstNonLoop entries) t.size flags]

/-- The one element of a description that copies simply extend. -/
def mergeable (t : Datatype) (extent : ℤ) : Option Elem :=
  match t.desc with
  | [.elem e] => if extent = t.ub - t.lb ∧ extent = e.extent then some e else none
  | _ => none

def isBasic (t : Datatype) : Bool := t.flags.predefined && t.flags.data

def newEntries (t : Datatype) (count : ℕ) (disp extent : ℤ) : List Entry :=
  if isBasic t then predefinedEntries t count disp extent
  else
    match mergeable t extent with
    | some e => [.elem { e with count := e.count * count % 2 ^ 32, disp := e.disp + disp }]
    | none => copiedEntries t count disp extent

/-- `btypes[OPAL_DATATYPE_LOOP]` after the copies. -/
def newLoops (base t : Datatype) (count : ℕ) (extent : ℤ) : ℕ :=
  if isBasic t then if extent ≠ t.size ∧ count > 1 then 1 else base.loops
  else
    match mergeable t extent with
    | some _ => (base.loops + t.loops) % 2 ^ 32
    | none => (base.loops + t.loops + if count ≠ 1 then 2 else 0) % 2 ^ 32

/-- The elements of the copies, as `btypes` counts them. -/
def newElements (base t : Datatype) (count : ℕ) : ℕ :=
  (base.elements + count * if isBasic t then 1 else t.elements) % 2 ^ 32

/-- The room for entries, in steps of `DT_INCREASE_STACK`. -/
def newDescLength (base : Datatype) (place : ℕ) : ℕ :=
  let newLength := base.desc.length + place
  if newLength > base.descLength then (newLength / 8 + 1) * 8 else base.descLength

def Datatype.append (base t : Datatype) (count place : ℕ) (disp extent : ℤ) (b : Bounds) :
    Datatype :=
  let size : ℕ := (base.size + count * t.size) % 2 ^ 64
  let oldTrueUb := if base.nbElems = 0 then disp else base.trueUb
  let contiguous := base.flags.contiguous && t.flags.contiguous &&
    decide (disp + t.trueLb = oldTrueUb) && (decide ((t.size : ℤ) = extent) || decide (count < 2))
  { base with
    size := size
    trueLb := if size ≠ 0 then min b.trueLb base.trueLb else b.trueLb
    trueUb := if size ≠ 0 then max b.trueUb base.trueUb else b.trueUb
    desc := base.desc ++ newEntries t count disp extent
    descLength := newDescLength base place
    loops := newLoops base t count extent
    elements := newElements base t count
    flags := { base.flags with
      contiguous := contiguous
      noGaps := contiguous && decide ((size : ℤ) = base.ub - base.lb) }
    nbElems := (base.nbElems + count * t.nbElems) % 2 ^ 32 }

/-- `opal_datatype_add`. The size is not cast to `OPAL_PTRDIFF_TYPE`, which below 2^63 changes
nothing. -/
def opalDatatypeAdd (base t : Datatype) (count : ℕ) (disp extent : ℤ) : Option Datatype :=
  let extent := if extent = -1 then t.ub - t.lb else extent
  if t.id = .lb then some (base.addLb disp)
  else if t.id = .ub then some (base.addUb disp)
  else
    match placeNeeded t count extent with
    | none => none
    | some place =>
      let b := addedBounds t count disp extent
      if ¬b.Representable count disp extent then none
      else
        let base := base.enclose t b
        if count = 0 ∨ t.size = 0 then some base
        else some (base.append t count place disp extent b)

end Add

section Optimize

/-- The conversion to `int32_t`. -/
def int32 (x : ℤ) : ℤ := x.bmod (2 ^ 32)

/-- The conversion to `uint32_t`. -/
def uint32 (x : ℤ) : ℕ := (x % 2 ^ 32).toNat

/-- How a length is kept while it grows, and how it is stored as a count. -/
structure Words where
  length : ℤ → ℤ
  count : ℤ → ℕ

/-- The words of the code: `last_length` is an `int32_t`, a count a `uint32_t`. -/
def Words.machine : Words := ⟨int32, uint32⟩

variable (w : Words)

/-- The run that is pending: `last_type`, `last_length`, `last_disp` and
`last_extent`. -/
structure Run where
  type : TypeId
  length : ℤ
  disp : ℤ
  extent : ℤ
  deriving DecidableEq

/-- `CREATE_ELEM`. -/
def createElem (type : TypeId) (flags : Flags) (count disp extent : ℤ) : Entry :=
  .elem ⟨{ flags with data := true }, type, w.count count, extent, disp⟩

def Run.element (r : Run) : Entry := createElem w r.type Flags.basic r.length r.disp r.extent

/-- What stands at `disp` follows the run. -/
def Run.continuity (p : Platform) (r : Run) (disp : ℤ) : Prop :=
  r.disp + r.length * p.size r.type = disp

instance (p : Platform) (r : Run) (disp : ℤ) : Decidable (r.continuity p disp) := by
  unfold Run.continuity
  infer_instance

/-- A pending run is put into the description. -/
def Run.flush (r : Run) : List Entry × Run :=
  if r.length ≠ 0 then ([r.element w], { r with disp := r.disp + r.length, length := 0 })
  else ([], r)

def elemStep (p : Platform) (totalDisp : ℤ) (e : Elem) (r : Run) : List Entry × Run :=
  if e.flags.contiguous ∧ r.continuity p (totalDisp + e.disp) ∧
      e.extent = int32 (p.size e.type) then
    if e.type = r.type then
      ([], { r with length := w.length (r.length + e.count), extent := e.extent })
    else if r.length = 0 then
      ([], { r with type := e.type, length := w.length e.count, extent := e.extent })
    else
      ([], { r with
        length := w.length (r.length * p.size r.type + e.count * p.size e.type)
        type := .uint1, extent := 1 })
  else
    (if r.length ≠ 0 then [r.element w] else [],
      ⟨e.type, w.length e.count, totalDisp + e.disp, e.extent⟩)

/-- A loop whose copies follow each other without a gap joins the run. -/
def wholeLoop (p : Platform) (disp : ℤ) (l : Loop) (e : EndLoop) (r : Run) : List Entry × Run :=
  let (out, r) :=
    if r.continuity p disp then ([], r)
    else (if r.length ≠ 0 then [r.element w] else [], { r with length := 0, disp := disp })
  (out, ⟨.uint1, w.length (r.length * p.size r.type + l.loops * e.size), r.disp, 1⟩)

/-- The loop that stands for copies of one contiguous block. -/
def blockLoop (counter loopDisp : ℤ) (l : Loop) (e : EndLoop) : List Entry :=
  [createLoopStart (w.count counter) 2 l.extent l.flags,
    createElem w .uint1 Flags.basic e.size loopDisp 1,
    createLoopEnd 2 e.firstElemDisp e.size e.flags]

/-- A loop over one contiguous block: the first copy may join the run. -/
def gapLoop (p : Platform) (totalDisp loopDisp : ℤ) (l : Loop) (e : EndLoop) (r : Run) :
    List Entry × Run :=
  if r.length ≠ 0 then
    let joins := r.continuity p (totalDisp + loopDisp)
    let counter : ℤ := if joins then (l.loops : ℤ) - 1 else l.loops
    let r :=
      if joins then
        { r with
          length := w.length (w.length (r.length * p.size r.type) + e.size), type := .uint1,
          extent := 1 }
      else r
    (r.element w :: blockLoop w counter loopDisp l e,
      { r with disp := r.disp + r.length, length := 0, type := .loop })
  else (blockLoop w l.loops loopDisp l e, r)

def openLoop (r : Run) : List Entry × Run :=
  if r.length ≠ 0 then ((r.flush w).1, { (r.flush w).2 with type := .loop }) else ([], r)

/-- The copies of the one element of a loop, one by one. -/
def unrolled (e : Elem) (extent : ℤ) : ℕ → ℤ → List Entry
  | 0, _ => []
  | n + 1, disp =>
    createElem w e.type e.flags e.count disp e.extent :: unrolled e extent n (disp + extent)

/-- A loop with one element that needs no loop. -/
def smallLoop (p : Platform) (l : Loop) (e : Elem) : Option (List Entry) :=
  if l.items = 2 then
    if e.count = 1 ∧ e.extent = p.size e.type then
      some [createElem w e.type { e.flags with contiguous := false } l.loops e.disp l.extent]
    else if l.loops < 3 then some (unrolled w e l.extent l.loops e.disp)
    else none
  else none

/-- `dt_stack_t`, as far as the pass uses it. -/
structure Frame where
  index : ℤ
  disp : ℤ
  deriving DecidableEq

/-- The variables of `opal_datatype_optimize_short`; `stack` has the top first. -/
structure OptState where
  pos : ℕ
  stack : List Frame
  out : List Entry
  run : Run
  totalDisp : ℤ
  deriving DecidableEq

/-- `pStartLoop->items` is set at the end of the loop. -/
def setItems (items : ℕ) : Entry → Entry
  | .loop l => .loop { l with items := items }
  | e => e

def elemAt (entries : List Entry) (i : ℕ) : Option Elem :=
  match entries[i]? with
  | some (.elem e) => some e
  | _ => none

def endLoopAt (entries : List Entry) (i : ℕ) : Option EndLoop :=
  match entries[i]? with
  | some (.endLoop e) => some e
  | _ => none

def closeStep (e : EndLoop) (s : OptState) : Option OptState :=
  match s.stack with
  | [] => none
  | frame :: rest =>
    let out := s.out ++ (s.run.flush w).1
    let items := (out.length - frame.index + 1).toNat
    let out := out ++ [createLoopEnd items e.firstElemDisp e.size e.flags]
    if rest = [] then
      some { s with pos := s.pos + 1, stack := [], out := out, run := (s.run.flush w).2 }
    else
      some { s with
        pos := s.pos + 1
        stack := rest
        out := out.modify (frame.index - 1).toNat (setItems items)
        run := (s.run.flush w).2
        totalDisp := frame.disp }

/-- The start of a loop; the stack has room for `capacity` frames. -/
def loopStep (p : Platform) (desc : List Entry) (capacity : ℕ) (l : Loop) (s : OptState) :
    Option OptState :=
  match endLoopAt desc (s.pos + l.items), s.stack with
  | some e, frame :: _ =>
    let loopDisp := firstNonLoop (desc.drop s.pos)
    if l.flags.contiguous then
      let (out, run) :=
        if l.extent = e.size then wholeLoop w p (s.totalDisp + loopDisp) l e s.run
        else gapLoop w p s.totalDisp loopDisp l e s.run
      some { s with
        pos := s.pos + l.items + 1, out := s.out ++ out, run := run, totalDisp := frame.disp }
    else
      let (out, run) := openLoop w s.run
      match (elemAt desc (s.pos + 1)).bind (smallLoop w p l) with
      | some small =>
        some { s with
          pos := s.pos + l.items + 1, out := s.out ++ out ++ small, run := run
          totalDisp := frame.disp }
      | none =>
        let out := s.out ++ out ++ [createLoopStart l.loops l.items l.extent l.flags]
        if s.stack.length < capacity then
          some { s with
            pos := s.pos + 1, out := out, run := run
            stack := ⟨out.length, s.totalDisp⟩ :: s.stack }
        else none
  | _, _ => none

/-- One turn of the loop of `opal_datatype_optimize_short`. -/
def optStep (p : Platform) (desc : List Entry) (capacity : ℕ) (s : OptState) : Option OptState :=
  match desc[s.pos]? with
  | none => none
  | some (.endLoop e) => closeStep w e s
  | some (.loop l) => loopStep w p desc capacity l s
  | some (.elem e) =>
    if e.flags.data then
      let (out, run) := elemStep w p s.totalDisp e s.run
      some { s with pos := s.pos + 1, out := s.out ++ out, run := run }
    else some s

def optRun (p : Platform) (desc : List Entry) (capacity : ℕ) : ℕ → OptState → Option OptState
  | 0, _ => none
  | fuel + 1, s =>
    if s.stack = [] then some s
    else
      match optStep w p desc capacity s with
      | none => none
      | some s => optRun p desc capacity fuel s

def optInit : OptState where
  pos := 0
  stack := [⟨-1, 0⟩]
  out := []
  run := ⟨.uint1, 0, 0, 1⟩
  totalDisp := 0

/-- The fake end of loop that a commit puts behind the description. -/
def fakeEnd (t : Datatype) : Entry :=
  .endLoop ⟨{}, t.desc.length, t.size, if t.size ≠ 0 then firstNonLoop t.desc else 0⟩

/-- The pass with lengths in `w`: each turn of the loop passes an entry. -/
def optimizeShort (p : Platform) (t : Datatype) : Option (List Entry) :=
  match optRun w p (t.desc ++ [fakeEnd t]) (t.loops + 2) (t.desc.length + 2) optInit with
  | none => none
  | some s => some (s.out ++ if s.run.length ≠ 0 then [s.run.element w] else []).dropLast

/-- `opal_datatype_optimize_short`. -/
def opalDatatypeOptimizeShort (p : Platform) (t : Datatype) : Option (List Entry) :=
  optimizeShort .machine p t

/-- `opal_datatype_commit`. -/
def opalDatatypeCommit (p : Platform) (t : Datatype) : Option Datatype :=
  if t.flags.commited then some t
  else if t.desc.length < t.descLength then
    let t := { t with flags := { t.flags with commited := true } }
    if t.desc = [] then some { t with optDesc := [] }
    else
      match opalDatatypeOptimizeShort p t with
      | none => none
      | some opt => some { t with optDesc := opt }
  else none

end Optimize

end Ulfm.Ddt
