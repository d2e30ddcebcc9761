import Ulfm.Datatype.Definitions
import Ulfm.Foundation.Stride

/-!
# Building a datatype

A datatype is built from the basic ones by creating, adding, resizing and
committing. `Built` follows such a construction and carries the type map along: the
displacements of the bytes in the order in which they are traversed. Its parameter
`P` is a condition on every call of `opal_datatype_add`.
-/

namespace Ulfm.Ddt

section Calls

/-- `opal_datatype_resize`. -/
def opalDatatypeResize (t : Datatype) (lb extent : ℤ) : Option Datatype :=
  if isPtrdiff (lb + extent) then
    some { t with
      lb := lb
      ub := lb + extent
      flags := { t.flags with noGaps := decide (extent = t.size) && t.flags.contiguous } }
  else none

/-- The arguments of `opal_datatype_add`, besides the datatype that it extends. -/
structure AddCall where
  added : Datatype
  count : ℕ
  disp : ℤ
  extent : ℤ
  deriving DecidableEq

namespace AddCall

def stride (c : AddCall) : ℤ := if c.extent = -1 then c.added.ub - c.added.lb else c.extent

def bounds (c : AddCall) : Bounds := addedBounds c.added c.count c.disp c.stride

/-- The entry is one of the markers for a bound. -/
def isMarker (c : AddCall) : Prop := c.added.id = .lb ∨ c.added.id = .ub

instance (c : AddCall) : Decidable c.isMarker := by
  unfold isMarker
  infer_instance

def run (base : Datatype) (c : AddCall) : Option Datatype :=
  opalDatatypeAdd base c.added c.count c.disp c.extent

def isVoid (c : AddCall) : Prop := c.count = 0 ∨ c.added.size = 0

instance (c : AddCall) : Decidable c.isVoid := by
  unfold isVoid
  infer_instance

/-- The base once the copies lie within its bounds. -/
def enclosed (base : Datatype) (c : AddCall) : Datatype := base.enclose c.added c.bounds

end AddCall

/-- All that a call of `opal_datatype_add` can do. -/
inductive AddCall.Effect (base : Datatype) (c : AddCall) (d : Datatype) : Prop
  | lb (hid : c.added.id = .lb) (hd : d = base.addLb c.disp)
  | ub (hid : c.added.id = .ub) (hd : d = base.addUb c.disp)
  | void (hid : ¬c.isMarker) (hvoid : c.isVoid) (hd : d = c.enclosed base)
  | data (hid : ¬c.isMarker) (hvoid : ¬c.isVoid) (place : ℕ)
      (hbounds : c.bounds.Representable c.count c.disp c.stride)
      (hd : d = (c.enclosed base).append c.added c.count place c.disp c.stride c.bounds)

/-- The branch of `opal_datatype_add` for an entry that is no marker. -/
def AddCall.entered (base : Datatype) (c : AddCall) : Option Datatype :=
  match placeNeeded c.added c.count c.stride with
  | none => none
  | some place =>
    if ¬c.bounds.Representable c.count c.disp c.stride then none
    else if c.isVoid then some (c.enclosed base)
    else some ((c.enclosed base).append c.added c.count place c.disp c.stride c.bounds)

theorem AddCall.effect {base d : Datatype} {c : AddCall} (h : c.run base = some d) :
    c.Effect base d := by
  rw [run, opalDatatypeAdd] at h
  dsimp only at h
  by_cases hlb : c.added.id = .lb
  · rw [if_pos hlb] at h
    exact .lb hlb (Option.some.inj h).symm
  rw [if_neg hlb] at h
  by_cases hub : c.added.id = .ub
  · rw [if_pos hub] at h
    exact .ub hub (Option.some.inj h).symm
  rw [if_neg hub] at h
  have hid : ¬c.isMarker := fun hm => hm.elim hlb hub
  change c.entered base = some d at h
  rw [entered] at h
  cases hplace : placeNeeded c.added c.count c.stride with
  | none =>
    rw [hplace] at h
    cases h
  | some place =>
    rw [hplace] at h
    dsimp only at h
    by_cases hbounds : c.bounds.Representable c.count c.disp c.stride
    · rw [if_neg (not_not_intro hbounds)] at h
      by_cases hvoid : c.isVoid
      · rw [if_pos hvoid] at h
        exact .void hid hvoid (Option.some.inj h).symm
      · rw [if_neg hvoid] at h
        exact .data hid hvoid place hbounds (Option.some.inj h).symm
    · rw [if_pos hbounds] at h
      cases h

end Calls

section Basic

variable (p : Platform) (t : TypeId)

def blockDatatype : Datatype where
  flags := Flags.basic
  id := t
  size := p.size t
  trueLb := 0
  trueUb := p.size t
  lb := 0
  ub := p.size t
  align := p.align t
  nbElems := t.nbElems
  desc := [basicElem p t]
  descLength := 1
  optDesc := [basicElem p t]
  loops := 0
  elements := t.nbElems

theorem basicDatatype_cases : (∃ unavailable, basicDatatype p t = emptyDatatype t unavailable) ∨
      (t ≠ .lb ∧ t ≠ .ub ∧ p.size t ≠ 0 ∧ basicDatatype p t = blockDatatype p t) := by
  by_cases hsize : p.size t = 0
  · apply Or.inl
    cases t <;> first
      | exact ⟨false, rfl⟩
      | exact ⟨true, if_pos hsize⟩
  · cases t <;> first
      | exact Or.inl ⟨false, rfl⟩
      | exact Or.inr ⟨nofun, nofun, hsize, if_neg hsize⟩

end Basic

section Built

/-- A datatype and its type map. The static datatypes are never extended. -/
inductive Built (p : Platform) (P : Datatype → AddCall → Prop) : Datatype → List ℤ → Prop
  | basic (t : TypeId) : Built p P (basicDatatype p t) (consecutive 0 (basicDatatype p t).size)
  | create (expectedSize : ℕ) : Built p P (opalDatatypeCreate expectedSize) []
  | add {base d : Datatype} {m m' : List ℤ} (c : AddCall) (hbase : Built p P base m)
      (hown : base.flags.predefined = false) (hadded : Built p P c.added m')
      (hcount : c.count < 2 ^ 32) (hcall : P base c) (hrun : c.run base = some d) :
      Built p P d (m ++ repeated c.count c.stride (m'.map (· + c.disp)))
  | resize {t d : Datatype} {m : List ℤ} (lb extent : ℤ) (ht : Built p P t m)
      (hrun : opalDatatypeResize t lb extent = some d) : Built p P d m
  | commit {t d : Datatype} {m : List ℤ} (ht : Built p P t m)
      (hrun : opalDatatypeCommit p t = some d) : Built p P d m

theorem opalDatatypeCommit_eq {p : Platform} {t d : Datatype}
    (h : opalDatatypeCommit p t = some d) :
    d = { t with flags := { t.flags with commited := true }, optDesc := d.optDesc } := by
  rw [opalDatatypeCommit] at h
  by_cases hcommited : t.flags.commited = true
  · rw [if_pos hcommited] at h
    cases h
    rw [← hcommited]
  rw [if_neg hcommited] at h
  by_cases hroom : t.desc.length < t.descLength
  · rw [if_pos hroom] at h
    dsimp only at h
    by_cases hdesc : t.desc = []
    · rw [if_pos hdesc] at h
      cases h
      rfl
    · rw [if_neg hdesc] at h
      cases hopt : opalDatatypeOptimizeShort p
          { t with flags := { t.flags with commited := true } } with
      | none =>
        rw [hopt] at h
        cases h
      | some opt =>
        rw [hopt] at h
        cases h
        rfl
  · rw [if_neg hroom] at h
    cases h

theorem opalDatatypeResize_eq {t d : Datatype} {lb extent : ℤ}
    (h : opalDatatypeResize t lb extent = some d) :
    d = { t with
      lb := lb
      ub := lb + extent
      flags := { t.flags with noGaps := decide (extent = t.size) && t.flags.contiguous } } := by
  rw [opalDatatypeResize] at h
  by_cases hbound : isPtrdiff (lb + extent)
  · rw [if_pos hbound] at h
    exact (Option.some.inj h).symm
  · rw [if_neg hbound] at h
    cases h

end Built

end Ulfm.Ddt
