import Ulfm.Datatype.Build
import Ulfm.Datatype.Counted

/-!
# The summary fields of a datatype

`opal_datatype_add` keeps the size, the true bounds and the flags of a datatype as it
grows. They say what they should about the type map as long as no entry without data
moves the bounds of a datatype without gaps, and no counter wraps around.
-/

namespace Ulfm.Ddt

open List Bool

section Meaning

/-- What the summary fields say about the type map `m`. -/
structure Summary (d : Datatype) (m : List ℤ) : Prop where
  size : d.size = m.length
  trueLb : m ≠ [] → IsLeast {x | x ∈ m} d.trueLb
  trueUb : m ≠ [] → IsGreatest {x | x ∈ m} (d.trueUb - 1)
  contiguous : d.flags.contiguous = true → m = consecutive d.trueLb d.size
  noGaps : d.flags.contiguous = true → d.flags.noGaps = true → d.ub - d.lb = d.size
  instances : d.flags.contiguous = true → d.flags.noGaps = true → ∀ count,
    repeated count (d.ub - d.lb) m = consecutive d.trueLb (count * d.size)

/-- The call does not run into one of the defects: an entry without data returns before
the flags are computed anew, and `nbElems` and `size` may wrap around. -/
structure KeepsSummary (base : Datatype) (c : AddCall) : Prop where
  bounds : ¬c.isMarker → c.isVoid → base.flags.noGaps = true →
    (c.enclosed base).ub - (c.enclosed base).lb = base.ub - base.lb
  nbElems : ¬c.isMarker → ¬c.isVoid → base.size ≠ 0 → base.nbElems = 0 →
    base.flags.contiguous = true → c.added.flags.contiguous = true → c.added.trueLb = 0 →
    ((c.added.size : ℤ) = c.stride ∨ c.count < 2) → c.disp = base.trueUb
  size : ¬c.isMarker → ¬c.isVoid → base.size + c.count * c.added.size < 2 ^ 64

end Meaning

section Bounds

variable {m m' : List ℤ} {c : AddCall}

theorem AddCall.bounds_true (hcount : c.count ≠ 0) (hlb : IsLeast {x | x ∈ m'} c.added.trueLb)
    (hub : IsGreatest {x | x ∈ m'} (c.added.trueUb - 1)) :
    IsLeast {x | x ∈ repeated c.count c.stride (m'.map (· + c.disp))} c.bounds.trueLb ∧
      IsGreatest {x | x ∈ repeated c.count c.stride (m'.map (· + c.disp))}
        (c.bounds.trueUb - 1) := by
  have hpos : 0 < c.count := Nat.pos_of_ne_zero hcount
  have horder : c.added.trueLb ≤ c.added.trueUb - 1 := hlb.2 hub.1
  have hbounds : c.bounds.trueLb
        = c.added.trueLb + c.disp + min 0 (c.stride * ((c.count : ℤ) - 1)) ∧
      c.bounds.trueUb = c.added.trueUb + c.disp + max 0 (c.stride * ((c.count : ℤ) - 1)) := by
    rw [bounds, addedBounds, lbUbCont, if_neg hcount, upperDisp]
    dsimp only
    by_cases hlt : c.disp < c.disp + c.stride * ((c.count : ℤ) - 1)
    · rw [if_pos hlt]
      dsimp only
      rw [if_neg (by omega)]
      dsimp only
      omega
    · rw [if_neg hlt]
      dsimp only
      rw [if_neg (by omega)]
      dsimp only
      omega
  constructor
  · rw [hbounds.1]
    exact isLeast_repeated hpos (isLeast_shift hlb c.disp)
  · have hlast : c.bounds.trueUb - 1
        = c.added.trueUb - 1 + c.disp + max 0 (c.stride * ((c.count : ℤ) - 1)) := by omega
    rw [hlast]
    exact isGreatest_repeated hpos (isGreatest_shift hub c.disp)

theorem isLeast_append {a b : ℤ} (h : IsLeast {x | x ∈ m} a) (h' : IsLeast {x | x ∈ m'} b) :
    IsLeast {x | x ∈ m ++ m'} (min a b) := by
  rw [setOf_mem_append]
  exact h.union h'

theorem isGreatest_append {a b : ℤ} (h : IsGreatest {x | x ∈ m} a)
    (h' : IsGreatest {x | x ∈ m'} b) : IsGreatest {x | x ∈ m ++ m'} (max a b) := by
  rw [setOf_mem_append]
  exact h.union h'

theorem isLeast_consecutive {a : ℤ} {n : ℕ} (hn : n ≠ 0) : IsLeast {x | x ∈ consecutive a n} a := by
  constructor
  · apply mem_consecutive.mpr
    omega
  · intro x hx
    exact (mem_consecutive.mp hx).1

theorem isGreatest_consecutive {a : ℤ} {n : ℕ} (hn : n ≠ 0) :
    IsGreatest {x | x ∈ consecutive a n} (a + n - 1) := by
  constructor
  · apply mem_consecutive.mpr
    omega
  · intro x hx
    have hlt := (mem_consecutive.mp hx).2
    omega

end Bounds

section Invariant

/-- The summary fields, and what the construction relies on besides. -/
structure Kept (d : Datatype) (m : List ℤ) : Prop where
  size : d.size = m.length
  trueLb : m ≠ [] → IsLeast {x | x ∈ m} d.trueLb
  trueUb : m ≠ [] → IsGreatest {x | x ∈ m} (d.trueUb - 1)
  contiguous : d.flags.contiguous = true → m = consecutive d.trueLb d.size
  noGaps : d.flags.noGaps = true → d.ub - d.lb = d.size
  own : d.flags.predefined = false → d.id = .loop
  marker : d.id = .lb ∨ d.id = .ub → m = []
  fresh : d.flags.predefined = false → m = [] →
    d.trueLb = longMax ∧ d.trueUb = longMin ∧ d.nbElems = 0

variable {d : Datatype} {m : List ℤ}

theorem Kept.summary (h : Kept d m) : Summary d m where
  size := h.size
  trueLb := h.trueLb
  trueUb := h.trueUb
  contiguous := h.contiguous
  noGaps := fun _ hgaps => h.noGaps hgaps
  instances := by
    intro hcontiguous hgaps count
    rw [h.noGaps hgaps]
    conv_lhs => rw [h.contiguous hcontiguous]
    exact repeated_consecutive count d.trueLb d.size

theorem Kept.size_eq_zero (h : Kept d m) : d.size = 0 ↔ m = [] := by
  rw [h.size, length_eq_zero_iff]

theorem kept_empty (id : TypeId) (unavailable : Bool) : Kept (emptyDatatype id unavailable) [] where
  size := rfl
  trueLb := fun h => absurd rfl h
  trueUb := fun h => absurd rfl h
  contiguous := fun h => nomatch h
  noGaps := fun h => nomatch h
  own := fun h => nomatch h
  marker := fun _ => rfl
  fresh := fun h => nomatch h

theorem kept_block {p : Platform} {t : TypeId} (hsize : p.size t ≠ 0) (hid : t ≠ .lb ∧ t ≠ .ub) :
    Kept (blockDatatype p t) (consecutive 0 (p.size t)) where
  size := (length_consecutive 0 _).symm
  trueLb := fun _ => isLeast_consecutive hsize
  trueUb := by
    intro _
    have hgreatest := isGreatest_consecutive (a := 0) hsize
    rwa [zero_add] at hgreatest
  contiguous := fun _ => rfl
  noGaps := fun _ => sub_zero _
  own := fun h => nomatch h
  marker := fun h => h.elim (absurd · hid.1) (absurd · hid.2)
  fresh := fun h => nomatch h

theorem kept_basic (p : Platform) (t : TypeId) :
    Kept (basicDatatype p t) (consecutive 0 (basicDatatype p t).size) := by
  rcases basicDatatype_cases p t with ⟨unavailable, hempty⟩ | ⟨hlb, hub, hsize, hblock⟩
  · rw [hempty]
    exact kept_empty t unavailable
  · rw [hblock]
    exact kept_block hsize ⟨hlb, hub⟩

theorem kept_create (expectedSize : ℕ) : Kept (opalDatatypeCreate expectedSize) [] where
  size := rfl
  trueLb := fun h => absurd rfl h
  trueUb := fun h => absurd rfl h
  contiguous := fun _ => rfl
  noGaps := fun h => nomatch h
  own := fun _ => rfl
  marker := fun _ => rfl
  fresh := fun _ _ => ⟨rfl, rfl, rfl⟩

end Invariant

section Steps

variable {base d : Datatype} {m m' : List ℤ} {c : AddCall}

theorem Kept.addLb (h : Kept base m) (disp : ℤ) : Kept (base.addLb disp) m where
  size := h.size
  trueLb := h.trueLb
  trueUb := h.trueUb
  contiguous := h.contiguous
  noGaps := fun hgaps => of_decide_eq_true (and_eq_true_iff.mp hgaps).2
  own := h.own
  marker := h.marker
  fresh := h.fresh

theorem Kept.addUb (h : Kept base m) (disp : ℤ) : Kept (base.addUb disp) m where
  size := h.size
  trueLb := h.trueLb
  trueUb := h.trueUb
  contiguous := h.contiguous
  noGaps := fun hgaps => of_decide_eq_true (and_eq_true_iff.mp hgaps).2
  own := h.own
  marker := h.marker
  fresh := h.fresh

theorem Kept.enclosed (h : Kept base m) (hbounds : base.flags.noGaps = true →
      (c.enclosed base).ub - (c.enclosed base).lb = base.ub - base.lb) :
    Kept (c.enclosed base) m where
  size := h.size
  trueLb := h.trueLb
  trueUb := h.trueUb
  contiguous := h.contiguous
  noGaps := fun hgaps => (hbounds hgaps).trans (h.noGaps hgaps)
  own := h.own
  marker := h.marker
  fresh := h.fresh

section

variable (h : Kept base m) (hadded : Kept c.added m') (hcall : KeepsSummary base c)
include h hadded hcall

theorem Kept.append_contiguous (hid : ¬c.isMarker) (hvoid : ¬c.isVoid)
    (hbase : base.flags.contiguous = true)
    (hnew : c.added.flags.contiguous = true)
    (hdisp : c.disp + c.added.trueLb = if base.nbElems = 0 then c.disp else base.trueUb)
    (hstride : (c.added.size : ℤ) = c.stride ∨ c.count < 2) :
    ∃ a, m ++ repeated c.count c.stride (m'.map (· + c.disp))
      = consecutive a (base.size + c.count * c.added.size) := by
  have hcount : c.count ≠ 0 := fun h0 => hvoid (.inl h0)
  have hcopies : repeated c.count c.stride (m'.map (· + c.disp))
      = consecutive (c.added.trueLb + c.disp) (c.count * c.added.size) := by
    rw [hadded.contiguous hnew, map_consecutive]
    rcases hstride with hstride | hone
    · rw [← hstride, repeated_consecutive]
    · have hone : c.count = 1 := by omega
      rw [hone, repeated_one, Nat.one_mul]
  rw [hcopies]
  by_cases hm : m = []
  · refine ⟨c.added.trueLb + c.disp, ?_⟩
    rw [h.size_eq_zero.mpr hm, hm, nil_append, Nat.zero_add]
  · have hsize : base.size ≠ 0 := fun h0 => hm (h.size_eq_zero.mp h0)
    have htrueUb : base.trueUb = base.trueLb + base.size := by
      have hub := h.trueUb hm
      rw [h.contiguous hbase] at hub
      have heq := hub.unique (isGreatest_consecutive hsize)
      omega
    have hstart : c.added.trueLb + c.disp = base.trueLb + base.size := by
      by_cases hcounter : base.nbElems = 0
      · rw [if_pos hcounter] at hdisp
        have hzero : c.added.trueLb = 0 := by omega
        have hub := hcall.nbElems hid hvoid hsize hcounter hbase hnew hzero hstride
        omega
      · rw [if_neg hcounter] at hdisp
        omega
    refine ⟨base.trueLb, ?_⟩
    conv_lhs => rw [h.contiguous hbase]
    rw [hstart, ← consecutive_add]

theorem Kept.append
    (hid : ¬c.isMarker) (hvoid : ¬c.isVoid) (hown : base.flags.predefined = false) {place : ℕ}
    (hbounds : c.bounds.Representable c.count c.disp c.stride)
    (hd : d = (c.enclosed base).append c.added c.count place c.disp c.stride c.bounds) :
    Kept d (m ++ repeated c.count c.stride (m'.map (· + c.disp))) := by
  have hcount : c.count ≠ 0 := fun h0 => hvoid (.inl h0)
  have hm' : m' ≠ [] := fun hnil => hvoid (.inr (hadded.size_eq_zero.mpr hnil))
  have hwrap := hcall.size hid hvoid
  have hpos : base.size + c.count * c.added.size ≠ 0 := by
    have hmul := Nat.mul_ne_zero hcount fun h0 => hvoid (.inr h0)
    omega
  have hsize : d.size = base.size + c.count * c.added.size := by
    rw [hd]
    exact Nat.mod_eq_of_lt hwrap
  have hlength : (m ++ repeated c.count c.stride (m'.map (· + c.disp))).length
      = base.size + c.count * c.added.size := by
    rw [length_append, length_repeated, length_map, ← h.size, ← hadded.size]
  have hne : m ++ repeated c.count c.stride (m'.map (· + c.disp)) ≠ [] := by
    intro hnil
    rw [hnil, length_nil] at hlength
    exact hpos hlength.symm
  obtain ⟨hleast, hgreatest⟩ := AddCall.bounds_true hcount (hadded.trueLb hm') (hadded.trueUb hm')
  have hmod : (base.size + c.count * c.added.size) % 2 ^ 64 ≠ 0 := by
    rwa [Nat.mod_eq_of_lt hwrap]
  have htrueLb : d.trueLb = min c.bounds.trueLb base.trueLb := by
    rw [hd]
    exact if_pos hmod
  have htrueUb : d.trueUb = max c.bounds.trueUb base.trueUb := by
    rw [hd]
    exact if_pos hmod
  have hlb : IsLeast {x | x ∈ m ++ repeated c.count c.stride (m'.map (· + c.disp))} d.trueLb := by
    by_cases hm : m = []
    · have hfresh := (h.fresh hown hm).1
      have hmax : c.bounds.trueLb ≤ longMax := hbounds.2.2.2.1.2
      rw [htrueLb, hfresh, min_eq_left hmax, hm, nil_append]
      exact hleast
    · rw [htrueLb, min_comm]
      exact isLeast_append (h.trueLb hm) hleast
  have hub : IsGreatest {x | x ∈ m ++ repeated c.count c.stride (m'.map (· + c.disp))}
      (d.trueUb - 1) := by
    by_cases hm : m = []
    · have hfresh := (h.fresh hown hm).2.1
      have hmin : longMin ≤ c.bounds.trueUb := hbounds.2.2.2.2.1
      rw [htrueUb, hfresh, max_eq_left hmin, hm, nil_append]
      exact hgreatest
    · have hmax : max c.bounds.trueUb base.trueUb - 1
          = max (base.trueUb - 1) (c.bounds.trueUb - 1) := by omega
      rw [htrueUb, hmax]
      exact isGreatest_append (h.trueUb hm) hgreatest
  refine ⟨by rw [hsize, hlength], fun _ => hlb, fun _ => hub, ?_, ?_, ?_, ?_, ?_⟩
  · intro hcontiguous
    have hflags : (((c.enclosed base).flags.contiguous && c.added.flags.contiguous &&
          decide (c.disp + c.added.trueLb = if base.nbElems = 0 then c.disp else base.trueUb)) &&
        (decide ((c.added.size : ℤ) = c.stride) || decide (c.count < 2))) = true := by
      rw [hd] at hcontiguous
      exact hcontiguous
    simp only [and_eq_true, or_eq_true, decide_eq_true_eq] at hflags
    obtain ⟨⟨⟨hbase, hnew⟩, hdisp⟩, hstride⟩ := hflags
    obtain ⟨a, hblock⟩ := h.append_contiguous hadded hcall hid hvoid hbase hnew hdisp hstride
    have ha : d.trueLb = a := by
      rw [hblock] at hlb
      exact hlb.unique (isLeast_consecutive hpos)
    rw [hblock, ha, hsize]
  · intro hgaps
    have hflags : (d.flags.contiguous && decide ((d.size : ℤ) = d.ub - d.lb)) = true := by
      rw [hd] at hgaps ⊢
      exact hgaps
    exact (of_decide_eq_true (and_eq_true_iff.mp hflags).2).symm
  · intro _
    rw [hd]
    exact h.own hown
  · intro hmarker
    have hloop : d.id = .loop := by
      rw [hd]
      exact h.own hown
    rw [hloop] at hmarker
    exact hmarker.elim nofun nofun
  · intro _ hnil
    exact absurd hnil hne

theorem Kept.add (hown : base.flags.predefined = false) (hrun : c.run base = some d) :
    Kept d (m ++ repeated c.count c.stride (m'.map (· + c.disp))) := by
  have hmarked : c.isMarker → m ++ repeated c.count c.stride (m'.map (· + c.disp)) = m := by
    intro hmarker
    rw [hadded.marker hmarker, map_nil, repeated_nil, List.append_nil]
  cases AddCall.effect hrun with
  | lb hid hd =>
    rw [hmarked (.inl hid), hd]
    exact h.addLb c.disp
  | ub hid hd =>
    rw [hmarked (.inr hid), hd]
    exact h.addUb c.disp
  | void hid hvoid hd =>
    have hnothing : repeated c.count c.stride (m'.map (· + c.disp)) = [] := by
      rcases hvoid with hcount | hsize
      · rw [hcount, repeated]
      · rw [hadded.size_eq_zero.mp hsize, map_nil, repeated_nil]
    rw [hnothing, List.append_nil, hd]
    exact h.enclosed fun hgaps => hcall.bounds hid hvoid hgaps
  | data hid hvoid place hbounds hd => exact h.append hadded hcall hid hvoid hown hbounds hd

end

theorem Kept.resize {t : Datatype} (h : Kept t m) {lb extent : ℤ}
    (hrun : opalDatatypeResize t lb extent = some d) : Kept d m := by
  rw [opalDatatypeResize_eq hrun]
  refine ⟨h.size, h.trueLb, h.trueUb, h.contiguous, ?_, h.own, h.marker, h.fresh⟩
  intro hgaps
  have hextent : extent = (t.size : ℤ) := of_decide_eq_true (and_eq_true_iff.mp hgaps).1
  change lb + extent - lb = (t.size : ℤ)
  omega

theorem Kept.commit {p : Platform} {t : Datatype} (h : Kept t m)
    (hrun : opalDatatypeCommit p t = some d) : Kept d m := by
  rw [opalDatatypeCommit_eq hrun]
  exact ⟨h.size, h.trueLb, h.trueUb, h.contiguous, h.noGaps, h.own, h.marker, h.fresh⟩

theorem Built.kept {p : Platform} (h : Built p KeepsSummary d m) : Kept d m := by
  induction h with
  | basic t => exact kept_basic p t
  | create expectedSize => exact kept_create expectedSize
  | add c _ hown _ _ hcall hrun ih ihAdded => exact ih.add ihAdded hcall hown hrun
  | resize lb extent _ hrun ih => exact ih.resize hrun
  | commit _ hrun ih => exact ih.commit hrun

/-- The summary fields are right in every construction without a defective call. -/
theorem Built.summary_holds {p : Platform} (h : Built p KeepsSummary d m) : Summary d m :=
  h.kept.summary

end Steps

section Instances

variable {p : Platform} {P : Datatype → AddCall → Prop}

theorem built_one {d : Datatype} {t : TypeId} {c : AddCall} (expectedSize : ℕ)
    (hadded : c.added = basicDatatype p t) (hcount : c.count < 2 ^ 32)
    (hcall : P (opalDatatypeCreate expectedSize) c)
    (hrun : c.run (opalDatatypeCreate expectedSize) = some d) :
    Built p P d (repeated c.count c.stride
      ((consecutive 0 (basicDatatype p t).size).map (· + c.disp))) := by
  have hbasic : Built p P c.added (consecutive 0 (basicDatatype p t).size) := by
    rw [hadded]
    exact .basic t
  exact .add c (.create expectedSize) rfl hbasic hcount hcall hrun

def intCall (count : ℕ) (disp : ℤ) : AddCall := ⟨basicDatatype lp64 .int4, count, disp, -1⟩

/-- An `int`, and then no `int` far away. -/
def intAndNothing : Option Datatype :=
  ((intCall 1 0).run (opalDatatypeCreate 2)).bind (intCall 0 100).run

/-- A datatype of 4 bytes with the flag for no gaps has an extent of 104. -/
theorem intAndNothing_not_summary :
    ∃ d m, intAndNothing = some d ∧ Built lp64 (fun _ _ => True) d m ∧
      d.flags.contiguous = true ∧ d.flags.noGaps = true ∧ d.size = 4 ∧ d.ub - d.lb = 104 ∧
      ¬Summary d m := by
  have hone : Built lp64 (fun _ _ => True) _ _ :=
    built_one (c := intCall 1 0) (t := .int4) 2 rfl (by decide) trivial rfl
  have hboth : Built lp64 (fun _ _ => True) _ _ :=
    .add (intCall 0 100) hone rfl (.basic .int4) (by decide) trivial rfl
  refine ⟨_, _, rfl, hboth, rfl, rfl, rfl, rfl, ?_⟩
  intro h
  have hextent := h.noGaps rfl rfl
  revert hextent
  decide

/-- An `int`, and a second one right behind it. -/
theorem twoInts_summary :
    ∃ d m, ((intCall 1 0).run (opalDatatypeCreate 2)).bind (intCall 1 4).run = some d ∧
      Summary d m ∧ m = consecutive 0 8 ∧ d.flags.noGaps = true := by
  have hfirst : KeepsSummary (opalDatatypeCreate 2) (intCall 1 0) := by
    constructor
    · exact fun _ _ h => nomatch h
    · exact fun _ _ h => absurd rfl h
    · exact fun _ _ => by decide
  have hone : Built lp64 KeepsSummary _ _ :=
    built_one (c := intCall 1 0) (t := .int4) 2 rfl (by decide) hfirst rfl
  refine ⟨_, _, rfl, Built.summary_holds (p := lp64) (.add (intCall 1 4) hone rfl (.basic .int4)
    (by decide) ?_ rfl), by decide, rfl⟩
  constructor
  · exact fun _ hvoid => absurd hvoid (by decide)
  · exact fun _ _ _ h => absurd h (by decide)
  · exact fun _ _ => by decide

end Instances

end Ulfm.Ddt
