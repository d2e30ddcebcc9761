import Ulfm.Foundation.Zipper
import Mathlib.Algebra.Order.Ring.Int

/-!
# The sequence tracker

`ompi_seq_tracker_t` keeps the sequence ids that have been seen as a list of ranges of
32-bit ids, and a pointer to the range the last operation ended at. A search begins there
and walks the list in one direction only.
-/

namespace Ulfm

namespace Seq

/-- `ompi_seq_tracker_range_t` -/
structure Range where
  seqIdHigh : UInt32
  seqIdLow : UInt32
deriving DecidableEq

/-- `direction`: 1 is next, -1 is previous. -/
inductive Direction where
  | none
  | next
  | prev
deriving DecidableEq

/-- `ompi_seq_tracker_t`: the list `seq_ids`, seen from `seq_ids_current`. The constructor
leaves the current item at the sentinel of the empty list; every insertion moves it to a
range, and a search to a range or nowhere. -/
abbrev Tracker := Option (Zipper Range)

/-- `seq_ids` -/
def Tracker.seqIds : Tracker → List Range
  | none => []
  | some current => current.toList

def Range.Holds (r : Range) (seqId : UInt32) : Prop := seqId ≤ r.seqIdHigh ∧ r.seqIdLow ≤ seqId

instance (r : Range) (seqId : UInt32) : Decidable (r.Holds seqId) :=
  inferInstanceAs (Decidable (_ ∧ _))

/-- The walk of `ompi_seq_tracker_check_duplicate` from `item`, `none` where it returns
false. -/
def checkFrom (seqId : UInt32) (direction : Direction) (item : Zipper Range) :
    Option (Zipper Range) :=
  if item.focus.Holds seqId then
    some item
  else if item.focus.seqIdHigh < seqId ∧ direction ≠ .prev then
    match h : item.next with
    | none => none
    | some next => checkFrom seqId .next next
  else if seqId < item.focus.seqIdLow ∧ direction ≠ .next then
    match h : item.prev with
    | none => none
    | some prev => checkFrom seqId .prev prev
  else
    none
termination_by
  match direction with
  | .none => item.before.length + item.after.length + 1
  | .next => item.after.length
  | .prev => item.before.length
decreasing_by
  · have hlt := Zipper.length_after_of_next h
    cases direction <;> simp_all <;> omega
  · have hlt := Zipper.length_before_of_prev h
    cases direction <;> simp_all <;> omega

/-- `ompi_seq_tracker_check_duplicate` -/
def Tracker.checkDuplicate (t : Tracker) (seqId : UInt32) : Bool × Tracker :=
  match t with
  | none => (false, t)
  | some current =>
    match checkFrom seqId .none current with
    | none => (false, t)
    | some item => (true, some item)

/-- `seq_id` follows the range of `item`: the range grows up to it, or to the end of the
next range where that begins right after. -/
def growHigh (seqId : UInt32) (item : Zipper Range) : Zipper Range :=
  match item.after with
  | nextItem :: after =>
    if nextItem.seqIdLow = seqId + 1 then
      ⟨item.before, { item.focus with seqIdHigh := nextItem.seqIdHigh }, after⟩
    else
      { item with focus := { item.focus with seqIdHigh := seqId } }
  | [] => { item with focus := { item.focus with seqIdHigh := seqId } }

/-- `seq_id` comes right before the range of `item`: the range grows down to it, or to the
beginning of the previous range where that ends right before. -/
def growLow (seqId : UInt32) (item : Zipper Range) : Zipper Range :=
  match item.before with
  | prevItem :: before =>
    if prevItem.seqIdHigh = seqId - 1 then
      ⟨before, { item.focus with seqIdLow := prevItem.seqIdLow }, item.after⟩
    else
      { item with focus := { item.focus with seqIdLow := seqId } }
  | [] => { item with focus := { item.focus with seqIdLow := seqId } }

/-- The walk of `ompi_seq_tracker_insert` from `item`: the list with the cursor where the
insertion leaves it, `none` where it returns without a change. -/
def insertFrom (seqId : UInt32) (direction : Direction) (item : Zipper Range) :
    Option (Zipper Range) :=
  if item.focus.Holds seqId then
    some item
  else if item.focus.seqIdHigh + 1 = seqId then
    some (growHigh seqId item)
  else if item.focus.seqIdLow - 1 = seqId then
    some (growLow seqId item)
  else if item.focus.seqIdHigh < seqId then
    if direction = .prev then
      -- one item too far back: the new item goes right behind this one
      some ⟨item.focus :: item.before, ⟨seqId, seqId⟩, item.after⟩
    else
      match h : item.next with
      | none => some ⟨item.focus :: item.before, ⟨seqId, seqId⟩, []⟩
      | some next => insertFrom seqId .next next
  else if seqId < item.focus.seqIdLow then
    if direction = .next then
      -- one item too far on: the new item goes right before this one
      some ⟨item.before, ⟨seqId, seqId⟩, item.focus :: item.after⟩
    else
      match h : item.prev with
      | none => some ⟨[], ⟨seqId, seqId⟩, item.focus :: item.after⟩
      | some prev => insertFrom seqId .prev prev
  else
    none
termination_by
  match direction with
  | .none => item.before.length + item.after.length + 1
  | .next => item.after.length
  | .prev => item.before.length
decreasing_by
  · have hlt := Zipper.length_after_of_next h
    cases direction <;> simp_all <;> omega
  · have hlt := Zipper.length_before_of_prev h
    cases direction <;> simp_all <;> omega

/-- `ompi_seq_tracker_insert` -/
def Tracker.insert (t : Tracker) (seqId : UInt32) : Tracker :=
  match t with
  | none => some ⟨[], ⟨seqId, seqId⟩, []⟩
  | some current => some ((insertFrom seqId .none current).getD current)

inductive Call where
  | insert (seqId : UInt32)
  | checkDuplicate (seqId : UInt32)
deriving DecidableEq

def Tracker.step (t : Tracker) : Call → Tracker
  | .insert seqId => t.insert seqId
  | .checkDuplicate seqId => (t.checkDuplicate seqId).2

/-- The tracker after a sequence of calls on a new one. -/
def reached (calls : List Call) : Tracker := calls.foldl Tracker.step none

end Seq

end Ulfm
