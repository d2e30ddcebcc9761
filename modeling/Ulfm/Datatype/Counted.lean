import Ulfm.Datatype.Build
import Ulfm.Datatype.ElementCount

/-!
# Which datatypes are counted right

The counts are right for a datatype if and only if the elements that the walk reads
again behind its first complete loop have the sizes of the elements that stand there.
This is shown of every datatype that is built without a counter that wraps around.
-/

namespace Ulfm.Ddt

open List Option Nest Lasso Nat

section Lp64

/-- A platform with 32 bit `int` and 64 bit `long`. -/
def lp64 : Platform where
  size
    | .int1 | .uint1 | .bool => 1
    | .int2 | .uint2 => 2
    | .int4 | .uint4 | .float4 | .wchar => 4
    | .int8 | .uint8 | .float8 | .complex8 => 8
    | .float16 | .complex16 => 16
    | .complex32 => 32
    | _ => 0
  align
    | .int2 | .uint2 => 2
    | .int4 | .uint4 | .float4 | .wchar | .complex8 => 4
    | .int8 | .uint8 | .float8 | .complex16 => 8
    | .float16 | .complex32 => 16
    | _ => 1
  uint1_size := rfl
  complex_size := by
    intro t u h
    cases t <;> cases h <;> exact Or.inr rfl
  size_lt := by
    intro t
    cases t <;> decide

end Lp64

section Meaning

variable (p : Platform) (t : Datatype) (n : Nest)

/-- The call wraps neither the size nor the count of an element around. -/
structure KeepsCounts (base : Datatype) (c : AddCall) : Prop where
  size : ¬c.isMarker → ¬c.isVoid → base.size + c.count * c.added.size < 2 ^ 64
  count : ¬c.isMarker → ¬c.isVoid → isBasic c.added = false →
    ∀ e, mergeable c.added c.stride = some e → e.count * c.count < 2 ^ 32

/-- The summary fields of `t` fit a description with proper loops. -/
structure Describes : Prop where
  desc : t.desc = n.flatten
  proper : n.Proper p
  size : t.size = (n.sizes p).sum
  elements : t.elements = (n.sizes p).length % 2 ^ 32

/-- The sizes of the basic elements of the repeated type map. -/
def Nest.typeMap : Lasso ℕ := Lasso.ofList (n.sizes p)

/-- The number of the first elements that have `bytes` bytes, or `-1`. -/
def IsCount (s : Lasso ℕ) (bytes : ℕ) (r : ℤ) : Prop :=
  (∃ k : ℕ, s.sumFirst k = bytes ∧ r = k) ∨ ((∀ k, s.sumFirst k ≠ bytes) ∧ r = -1)

/-- The two functions count the elements of `t`, for every number of bytes that
`opal_datatype_get_element_count` supports (it asserts that there are no more than in
`t`), and undo each other. -/
structure CountsElements : Prop where
  count : ∀ bytes ≤ t.size, ∃ fuel r,
    getElementCount p t fuel bytes = some r ∧ IsCount (n.typeMap p) bytes r
  length : ∀ k < 2 ^ 32, ∃ fuel, setElementCount p t fuel k = some ((n.typeMap p).sumFirst k)
  inverse : ∀ k < 2 ^ 32, ∀ bytes ≤ t.size, (∃ fuel, setElementCount p t fuel k = some bytes) ↔
      ∃ fuel, getElementCount p t fuel bytes = some (k : ℤ)

/-- There are elements, an `int32_t` can count them, and what the walk reads are their
sizes. -/
structure RereadsAlike : Prop where
  sizes_ne : n.sizes p ≠ []
  length_lt : (n.sizes p).length < 2 ^ 31
  alike : (n.reading p).first (n.sizes p).length = n.sizes p

end Meaning

section Walks

variable {p : Platform} {t : Datatype} {n : Nest}

theorem Nest.sizes_lt (n : Nest) : ∀ x ∈ n.sizes p, x < 2 ^ 31 := by
  induction n with
  | nil => exact fun _ h => absurd h not_mem_nil
  | elem e rest ih =>
    intro x hx
    rw [sizes, mem_append] at hx
    rcases hx with hx | hx
    · rw [eq_of_mem_replicate hx]
      exact p.size_lt e.type
    · exact ih x hx
  | loop l body e rest ihBody ih =>
    intro x hx
    rw [sizes, mem_append, mem_flatten] at hx
    rcases hx with ⟨xs, hxs, hx⟩ | hx
    · rw [eq_of_mem_replicate hxs] at hx
      exact ihBody x hx
    · exact ih x hx

theorem Nest.Proper.typeMap_positive (h : n.Proper p) (hne : n.sizes p ≠ []) :
    (n.typeMap p).Positive :=
  ⟨hne, fun _ hx => absurd hx not_mem_nil, h.sizes_pos⟩

theorem Nest.sumFirst_typeMap (hne : n.sizes p ≠ []) {k : ℕ} (hk : k ≤ (n.sizes p).length) :
    (n.typeMap p).sumFirst k = ((n.sizes p).take k).sum := by
  rw [typeMap, sumFirst, first_ofList hne hk]

theorem Nest.sumFirst_typeMap_length (hne : n.sizes p ≠ []) :
    (n.typeMap p).sumFirst (n.sizes p).length = (n.sizes p).sum := by
  rw [sumFirst_typeMap hne (Nat.le_refl _), take_length]

section

variable (h : Describes p t n) (hne : n.sizes p ≠ [])
include h hne

theorem Describes.visits :
    ∃ j c, Visits p (t.desc ++ [fakeEnd t]) walkStart ((n.reading p).unrolled j) c ∧
      (n.sizes p).length ≤ ((n.reading p).unrolled j).length ∧
      t.size ≤ ((n.reading p).unrolled j).sum := by
  have hdesc : (t.desc ++ [fakeEnd t]).drop 0 = n.flatten ++ [fakeEnd t] := by
    rw [drop_zero, h.desc]
  have hpositive := h.proper.reading_positive hne
  cases hs : n.reread p [] none with
  | none =>
    have hreading : (n.reading p).unrolled 1 = n.sizes p := by
      rw [reading, hs, getD_none, Lasso.unrolled, ofList, replicate_one,
        flatten_singleton, nil_append]
    refine ⟨1, ⟨0 + n.flatten.length, [⟨-1, 1⟩]⟩, ?_, ?_, ?_⟩
    · rw [hreading]
      exact visits_plain h.proper hs hdesc
    · rw [hreading]
    · rw [hreading, h.size]
  | some s =>
    have hreading : n.reading p = s := by rw [reading, hs, getD_some]
    have hstart : Visits p (t.desc ++ [fakeEnd t])
        ⟨((LoopFrame.mk (-1) 1).index + 1).toNat, [⟨-1, 1⟩]⟩ [] ⟨0, [⟨-1, 1⟩]⟩ := .refl _
    obtain ⟨c, hstem, hcycle⟩ := visits_reread h.proper
      (fun _ h => absurd h (Option.not_mem_none _)) hs hdesc hstart hstart
    refine ⟨max (n.sizes p).length t.size, c, ?_, ?_, ?_⟩
    · rw [hreading]
      exact hstem.trans (hcycle.turns _)
    · exact (Nat.le_max_left _ _).trans (le_length_unrolled hpositive.cycle_ne _)
    · exact (Nat.le_max_right _ _).trans (hpositive.le_sum_unrolled _)

theorem Describes.getElementCount_reading {bytes : ℕ} (hbytes : bytes ≤ t.size) :
    ∃ fuel r, getElementCount p t fuel bytes = some r ∧
      ((∃ k, (n.reading p).sumFirst k = bytes ∧ r = int32 (k : ℤ)) ∨
        ((∀ k ≤ (n.sizes p).length, (n.reading p).sumFirst k ≠ bytes) ∧ r = -1)) := by
  have hpositive := h.proper.reading_positive hne
  obtain ⟨j, c, hvisits, hlen, hsum⟩ := h.visits hne
  have hread : (n.reading p).unrolled j ≠ [] := by
    intro hnil
    rw [hnil, length_nil, le_zero] at hlen
    exact hne (length_eq_zero_iff.mp hlen)
  have hfirst : ∀ k ≤ ((n.reading p).unrolled j).length,
      (((n.reading p).unrolled j).take k).sum = (n.reading p).sumFirst k := by
    intro k hk
    rw [take_unrolled hpositive.cycle_ne hk, sumFirst]
  obtain ⟨fuel, r, hrun, hr⟩ :=
    hvisits.counts (hpositive.unrolled_pos j) hread (hbytes.trans hsum) 0
  refine ⟨fuel, r, hrun, ?_⟩
  rcases hr with ⟨k, hk, hkb, hr⟩ | ⟨hnone, hr⟩
  · refine .inl ⟨k, ?_, ?_⟩
    · rw [← hfirst k hk, hkb]
    · rw [hr, Nat.zero_add]
  · refine .inr ⟨fun k hk hkb => ?_, hr⟩
    have hkj : k ≤ ((n.reading p).unrolled j).length := hk.trans hlen
    exact hnone k hkj (by rw [hfirst k hkj, hkb])

theorem Describes.setElementCountFrom_reading {k : ℕ} (hk : k ≤ (n.sizes p).length) (length : ℕ) :
    ∃ fuel, setElementCountFrom p (t.desc ++ [fakeEnd t]) fuel walkStart k length
      = some (length + (n.reading p).sumFirst k) := by
  have hpositive := h.proper.reading_positive hne
  obtain ⟨j, c, hvisits, hlen, _⟩ := h.visits hne
  have hread : (n.reading p).unrolled j ≠ [] := by
    intro hnil
    rw [hnil, length_nil, le_zero] at hlen
    exact hne (length_eq_zero_iff.mp hlen)
  obtain ⟨fuel, hrun⟩ := hvisits.measures hread (hk.trans hlen) length
  refine ⟨fuel, ?_⟩
  rw [hrun, take_unrolled hpositive.cycle_ne (hk.trans hlen), sumFirst]

end

theorem getElementCount_unique {fuel fuel' bytes : ℕ} {r r' : ℤ}
    (h : getElementCount p t fuel bytes = some r) (h' : getElementCount p t fuel' bytes = some r') :
    r = r' := by
  have hmax := getElementCountFrom_mono h (Nat.le_max_left fuel fuel')
  have hmax' := getElementCountFrom_mono h' (Nat.le_max_right fuel fuel')
  rw [hmax] at hmax'
  exact Option.some.inj hmax'

theorem setElementCount_unique {fuel fuel' k b b' : ℕ}
    (h : setElementCount p t fuel k = some b) (h' : setElementCount p t fuel' k = some b') :
    b = b' := by
  rw [setElementCount] at h h'
  by_cases helements : t.elements = 0
  · rw [if_pos helements] at h
    cases h
  rw [if_neg helements] at h h'
  dsimp only at h h'
  by_cases hwhole : k % t.elements = 0
  · rw [if_pos hwhole] at h h'
    exact Option.some.inj (h.symm.trans h')
  · rw [if_neg hwhole] at h h'
    have hmax := setElementCountFrom_mono h (Nat.le_max_left fuel fuel')
    have hmax' := setElementCountFrom_mono h' (Nat.le_max_right fuel fuel')
    rw [hmax] at hmax'
    exact Option.some.inj hmax'

end Walks

section Alike

variable {p : Platform} {t : Datatype} {n : Nest}

theorem int32_of_lt {k : ℕ} (hk : k < 2 ^ 31) : int32 (k : ℤ) = k := by
  rw [int32, Int.bmod_eq_of_le] <;> omega

theorem int32_emod (x : ℤ) : int32 x % 2 ^ 32 = x % 2 ^ 32 := by
  have hmod : x.bmod (2 ^ 32) % ((2 ^ 32 : ℕ) : ℤ) = x % ((2 ^ 32 : ℕ) : ℤ) := Int.bmod_emod
  exact_mod_cast hmod

theorem eq_of_int32_eq {j k : ℕ} (h : int32 (j : ℤ) = ((k + 1 : ℕ) : ℤ)) (hkj : k < j)
    (hj : j - k < 2 ^ 31) : j = k + 1 := by
  have hcongr : (j : ℤ) % 2 ^ 32 = ((k + 1 : ℕ) : ℤ) % 2 ^ 32 := by rw [← h, int32_emod]
  omega

theorem RereadsAlike.sumFirst_eq (h : RereadsAlike p n) (hproper : n.Proper p) {k : ℕ}
    (hk : k ≤ (n.sizes p).length) : (n.reading p).sumFirst k = (n.typeMap p).sumFirst k := by
  have hwhole : (n.reading p).first (n.sizes p).length
      = (n.typeMap p).first (n.sizes p).length := by
    rw [h.alike, typeMap, first_ofList h.sizes_ne (Nat.le_refl _), take_length]
  have hcycle := (hproper.reading_positive h.sizes_ne).cycle_ne
  rw [sumFirst, sumFirst, first_mono_eq hcycle h.sizes_ne hwhole hk]

theorem RereadsAlike.count (h : RereadsAlike p n) (ht : Describes p t n) {bytes : ℕ}
    (hbytes : bytes ≤ t.size) :
    ∃ fuel r, getElementCount p t fuel bytes = some r ∧ IsCount (n.typeMap p) bytes r := by
  have hreading := ht.proper.reading_positive h.sizes_ne
  have hmap := ht.proper.typeMap_positive h.sizes_ne
  have hsize : (n.typeMap p).sumFirst (n.sizes p).length = t.size := by
    rw [sumFirst_typeMap_length h.sizes_ne, ht.size]
  obtain ⟨fuel, r, hrun, hr⟩ := ht.getElementCount_reading h.sizes_ne hbytes
  refine ⟨fuel, r, hrun, ?_⟩
  rcases hr with ⟨k, hk, hr⟩ | ⟨hnone, hr⟩
  · have hle : k ≤ (n.sizes p).length := by
      rw [← hreading.sumFirst_strictMono.le_iff_le, hk,
        h.sumFirst_eq ht.proper (Nat.le_refl _), hsize]
      exact hbytes
    refine .inl ⟨k, ?_, ?_⟩
    · rw [← h.sumFirst_eq ht.proper hle, hk]
    · rw [hr, int32_of_lt (Nat.lt_of_le_of_lt hle h.length_lt)]
  · refine .inr ⟨fun k hk => ?_, hr⟩
    have hle : k ≤ (n.sizes p).length := by
      rw [← hmap.sumFirst_strictMono.le_iff_le, hk, hsize]
      exact hbytes
    exact hnone k hle (by rw [h.sumFirst_eq ht.proper hle, hk])

theorem Nest.sumFirst_typeMap_split (hne : n.sizes p ≠ []) (k : ℕ) :
    (n.typeMap p).sumFirst k = (n.sizes p).sum * (k / (n.sizes p).length)
      + ((n.sizes p).take (k % (n.sizes p).length)).sum := by
  have hlen : 0 < (n.sizes p).length := length_pos_iff.mpr hne
  have hr : k % (n.sizes p).length ≤ (n.sizes p).length := (mod_lt k hlen).le
  conv_lhs => rw [← div_add_mod' k (n.sizes p).length]
  rw [typeMap, sumFirst, first_ofList_add hne _ _ hr, sum_append_nat, sum_flatten,
    map_replicate, sum_replicate, Nat.nsmul_eq_mul, Nat.mul_comm]

theorem RereadsAlike.length (h : RereadsAlike p n) (ht : Describes p t n) (k : ℕ) :
    ∃ fuel, setElementCount p t fuel k = some ((n.typeMap p).sumFirst k) := by
  have hlen : 0 < (n.sizes p).length := length_pos_iff.mpr h.sizes_ne
  have helements : t.elements = (n.sizes p).length := by
    rw [ht.elements, mod_eq_of_lt (h.length_lt.trans (by decide))]
  have hsplit := sumFirst_typeMap_split h.sizes_ne k
  have hr : k % (n.sizes p).length ≤ (n.sizes p).length := (mod_lt k hlen).le
  obtain ⟨fuel, hrun⟩ :=
    ht.setElementCountFrom_reading h.sizes_ne hr (t.size * (k / (n.sizes p).length))
  refine ⟨fuel, ?_⟩
  rw [setElementCount, helements, if_neg hlen.ne']
  dsimp only
  by_cases hwhole : k % (n.sizes p).length = 0
  · rw [if_pos hwhole, hsplit, hwhole, take_zero, sum_nil, Nat.add_zero, ht.size]
  · rw [if_neg hwhole, hrun, h.sumFirst_eq ht.proper hr, sumFirst_typeMap h.sizes_ne hr,
      hsplit, ht.size]

theorem RereadsAlike.inverse (h : RereadsAlike p n) (ht : Describes p t n) (k : ℕ) {bytes : ℕ}
    (hbytes : bytes ≤ t.size) :
    (∃ fuel, setElementCount p t fuel k = some bytes) ↔
      ∃ fuel, getElementCount p t fuel bytes = some (k : ℤ) := by
  have hmap := ht.proper.typeMap_positive h.sizes_ne
  obtain ⟨sfuel, hset⟩ := h.length ht k
  obtain ⟨gfuel, r, hget, hr⟩ := h.count ht hbytes
  constructor
  · rintro ⟨fuel, hrun⟩
    have hk : (n.typeMap p).sumFirst k = bytes := setElementCount_unique hset hrun
    rcases hr with ⟨j, hj, hr⟩ | ⟨hnone, _⟩
    · have hjk : j = k := hmap.sumFirst_strictMono.injective (hj.trans hk.symm)
      exact ⟨gfuel, by rw [hget, hr, hjk]⟩
    · exact absurd hk (hnone k)
  · rintro ⟨fuel, hrun⟩
    have hrk : r = k := getElementCount_unique hget hrun
    rcases hr with ⟨j, hj, hr⟩ | ⟨_, hr⟩
    · have hjk : j = k := by omega
      exact ⟨sfuel, by rw [hset, ← hj, hjk]⟩
    · omega

theorem CountsElements.sumFirst_eq (h : CountsElements p t n) (ht : Describes p t n)
    (hne : n.sizes p ≠ []) {k : ℕ} (hk : k ≤ (n.sizes p).length) :
    (n.reading p).sumFirst k = (n.typeMap p).sumFirst k := by
  have hreading := ht.proper.reading_positive hne
  have hmap := ht.proper.typeMap_positive hne
  have hsize : (n.typeMap p).sumFirst (n.sizes p).length = t.size := by
    rw [sumFirst_typeMap_length hne, ht.size]
  induction k with
  | zero => rfl
  | succ k ih =>
    have hprev := ih (le_of_succ_le hk)
    have hbytes : (n.typeMap p).sumFirst (k + 1) ≤ t.size := by
      rw [← hsize]
      exact hmap.sumFirst_strictMono.monotone hk
    have hstep := hmap.sumFirst_lt_succ k
    have hbound : (n.typeMap p).sumFirst (k + 1) < (n.typeMap p).sumFirst k + 2 ^ 31 :=
      sumFirst_succ_lt hmap.cycle_ne (fun _ hx => absurd hx not_mem_nil) n.sizes_lt k
    obtain ⟨fuel, r, hget, hr⟩ := h.count _ hbytes
    obtain ⟨fuel', r', hget', hr'⟩ := ht.getElementCount_reading hne hbytes
    have hrr : r = r' := getElementCount_unique hget hget'
    have hright : r = ((k + 1 : ℕ) : ℤ) := by
      rcases hr with ⟨j, hj, hr⟩ | ⟨hnone, _⟩
      · rw [hr, hmap.sumFirst_strictMono.injective hj]
      · exact absurd rfl (hnone (k + 1))
    rcases hr' with ⟨j, hj, hr'⟩ | ⟨_, hr'⟩
    · -- `j` and `k + 1` agree modulo `2 ^ 32`, and `j` cannot be larger
      have hmod : int32 (j : ℤ) = ((k + 1 : ℕ) : ℤ) := by rw [← hr', ← hrr, hright]
      have hkj : k < j := by
        rw [← hreading.sumFirst_strictMono.lt_iff_lt, hj, hprev]
        exact hstep
      have hjsum := hreading.sumFirst_add_le k (j - k)
      rw [Nat.add_sub_cancel' hkj.le, hj, hprev] at hjsum
      have hnear : j - k < 2 ^ 31 := Nat.lt_of_add_lt_add_left (Nat.lt_of_le_of_lt hjsum hbound)
      have hj1 : j = k + 1 := eq_of_int32_eq hmod hkj hnear
      rw [← hj1, hj, hj1]
    · omega

theorem CountsElements.rereadsAlike (h : CountsElements p t n) (ht : Describes p t n) :
    RereadsAlike p n := by
  have hne : n.sizes p ≠ [] := by
    intro hnil
    obtain ⟨fuel, hset⟩ := h.length 0 (by decide)
    have helements : t.elements = 0 := by rw [ht.elements, hnil, length_nil, zero_mod]
    rw [setElementCount, if_pos helements] at hset
    cases hset
  have hreading := ht.proper.reading_positive hne
  have hmap := ht.proper.typeMap_positive hne
  refine ⟨hne, ?_, ?_⟩
  · have hsize : (n.typeMap p).sumFirst (n.sizes p).length = t.size := by
      rw [sumFirst_typeMap_length hne, ht.size]
    obtain ⟨fuel, r, hget, hr⟩ := h.count t.size (Nat.le_refl _)
    obtain ⟨fuel', r', hget', hr'⟩ := ht.getElementCount_reading hne (Nat.le_refl _)
    have hrr : r = r' := getElementCount_unique hget hget'
    have hright : r = ((n.sizes p).length : ℤ) := by
      rcases hr with ⟨j, hj, hr⟩ | ⟨hnone, _⟩
      · rw [hr, hmap.sumFirst_strictMono.injective (hj.trans hsize.symm)]
      · exact absurd hsize (hnone _)
    have hlt : r' < 2 ^ 31 := by
      rcases hr' with ⟨j, _, hr'⟩ | ⟨_, hr'⟩
      · rw [hr', int32]
        exact Int.bmod_lt (by decide)
      · omega
    omega
  · have hfirst := first_eq_of_sumFirst_eq hreading.cycle_ne hmap.cycle_ne
      (fun k hk => h.sumFirst_eq ht hne (k := k) hk)
    rw [hfirst, typeMap, first_ofList hne (Nat.le_refl _), take_length]

theorem Describes.rereads_iff (ht : Describes p t n) :
    CountsElements p t n ↔ RereadsAlike p n := by
  constructor
  · exact fun h => h.rereadsAlike ht
  · intro h
    exact ⟨fun bytes hbytes => h.count ht hbytes, fun k _ => h.length ht k,
      fun k _ bytes hbytes => h.inverse ht k hbytes⟩

end Alike

section Descriptions

variable {p : Platform} {xs ys : List Entry} {sizes sizes' : List ℕ}

/-- The entries are a description with proper loops of elements of these sizes. -/
def Gives (p : Platform) (xs : List Entry) (sizes : List ℕ) : Prop :=
  ∃ n : Nest, n.flatten = xs ∧ n.Proper p ∧ n.sizes p = sizes

theorem gives_nil : Gives p [] [] := ⟨.nil, rfl, trivial, rfl⟩

theorem gives_elem {e : Elem} (hdata : e.flags.data = true) (hsize : 0 < p.size e.type) :
    Gives p [.elem e] (e.sizes p) :=
  ⟨.elem e .nil, rfl, ⟨hdata, hsize, trivial⟩, List.append_nil _⟩

theorem Gives.append (hx : Gives p xs sizes) (hy : Gives p ys sizes') :
    Gives p (xs ++ ys) (sizes ++ sizes') := by
  obtain ⟨n, rfl, hproper, rfl⟩ := hx
  obtain ⟨n', rfl, hproper', rfl⟩ := hy
  induction n with
  | nil => exact ⟨n', rfl, hproper', rfl⟩
  | elem e rest ih =>
    obtain ⟨n, hflatten, hn, hsizes⟩ := ih hproper.2.2
    refine ⟨.elem e n, ?_, ⟨hproper.1, hproper.2.1, hn⟩, ?_⟩
    · rw [Nest.flatten, hflatten, Nest.flatten, cons_append]
    · rw [Nest.sizes, hsizes, Nest.sizes, List.append_assoc]
  | loop l body e rest _ ih =>
    obtain ⟨hloops, hlt, hbody, hproperBody, hrest⟩ := hproper
    obtain ⟨n, hflatten, hn, hsizes⟩ := ih hrest
    refine ⟨.loop l body e n, ?_, ⟨hloops, hlt, hbody, hproperBody, hn⟩, ?_⟩
    · rw [Nest.flatten, hflatten, Nest.flatten, cons_append, List.append_assoc, cons_append]
    · rw [Nest.sizes, hsizes, Nest.sizes, List.append_assoc]

theorem Gives.loop (h : Gives p xs sizes) (hne : sizes ≠ []) {l : Loop} (hpos : 0 < l.loops)
    (hlt : l.loops < 2 ^ 32) (e : EndLoop) :
    Gives p (.loop l :: (xs ++ [.endLoop e])) (replicate l.loops sizes).flatten := by
  obtain ⟨n, rfl, hproper, rfl⟩ := h
  exact ⟨.loop l n e .nil, rfl, ⟨hpos, hlt, hne, hproper, trivial⟩, List.append_nil _⟩

theorem Gives.shift (h : Gives p xs sizes) (disp : ℤ) :
    Gives p (xs.map (Entry.shift disp)) sizes := by
  obtain ⟨n, rfl, hproper, rfl⟩ := h
  induction n with
  | nil => exact gives_nil
  | elem e rest ih =>
    have helem : Gives p [Entry.shift disp (.elem e)] (e.sizes p) := by
      rw [Entry.shift, if_pos hproper.1]
      exact gives_elem hproper.1 hproper.2.1
    exact helem.append (ih hproper.2.2)
  | loop l body e rest ihBody ih =>
    obtain ⟨hloops, hlt, hbody, hproperBody, hrest⟩ := hproper
    have hloop := (ihBody hproperBody).loop hbody hloops hlt
      { e with firstElemDisp := e.firstElemDisp + disp }
    have hall := hloop.append (ih hrest)
    rw [Nest.flatten, map_cons, map_append, map_cons]
    rwa [cons_append, List.append_assoc, singleton_append] at hall

/-- The fields of a datatype fit the sizes of its elements. -/
structure Signed (p : Platform) (t : Datatype) (sizes : List ℕ) : Prop where
  gives : Gives p t.desc sizes
  size : t.size = sizes.sum
  elements : t.elements = sizes.length % 2 ^ 32
  basic : isBasic t = true → t.size = p.size t.id

/-- The sizes of the elements of `count` copies. -/
def copiedSizes (p : Platform) (t : Datatype) (sizes : List ℕ) (count : ℕ) : List ℕ :=
  if isBasic t then replicate count (p.size t.id) else (replicate count sizes).flatten

variable {base t d : Datatype} {count : ℕ} {disp extent : ℤ} {m : List ℤ} {c : AddCall}

theorem Signed.sum_copied (h : Signed p t sizes) :
    (copiedSizes p t sizes count).sum = count * t.size := by
  rw [copiedSizes]
  by_cases hbasic : isBasic t = true
  · rw [if_pos hbasic, sum_replicate, Nat.nsmul_eq_mul,
      h.basic hbasic]
  · rw [if_neg hbasic, sum_flatten, map_replicate, sum_replicate, Nat.nsmul_eq_mul, h.size]

theorem Signed.newEntries (h : Signed p t sizes) (hpos : 0 < count) (hlt : count < 2 ^ 32)
    (hsize : t.size ≠ 0) (hmerge : isBasic t = false →
      ∀ e, mergeable t extent = some e → e.count * count < 2 ^ 32) :
    Gives p (newEntries t count disp extent) (copiedSizes p t sizes count) := by
  rw [Ddt.newEntries, copiedSizes]
  by_cases hbasic : isBasic t = true
  · have hdata : t.flags.data = true := (Bool.and_eq_true_iff.mp hbasic).2
    have htype : 0 < p.size t.id := by
      rw [← h.basic hbasic]
      exact Nat.pos_of_ne_zero hsize
    rw [if_pos hbasic, if_pos hbasic, predefinedEntries]
    by_cases hgap : extent ≠ t.size ∧ count > 1
    · rw [if_pos hgap]
      have hloop := (gives_elem (p := p)
        (e := ⟨{ t.flags with commited := false, noGaps := false, contiguous := true }, t.id, 1,
          t.size, disp⟩) hdata htype).loop (cons_ne_nil _ _)
        (l := ⟨{ t.flags with
          commited := false, contiguous := false, noGaps := false, data := false }, count, 2,
          extent⟩) hpos hlt
        ⟨{ t.flags with
          commited := false, contiguous := false, noGaps := false, data := false }, 2, t.size,
          disp⟩
      rw [Elem.sizes, replicate_one, flatten_replicate_singleton] at hloop
      exact hloop
    · rw [if_neg hgap]
      exact gives_elem hdata htype
  · rw [if_neg hbasic, if_neg hbasic]
    have hne : sizes ≠ [] := by
      rintro rfl
      exact hsize h.size
    cases hmergeable : mergeable t extent with
    | some e =>
      have hcount := hmerge (Bool.eq_false_iff.mpr hbasic) e hmergeable
      have hdesc : t.desc = [.elem e] := by
        rw [mergeable] at hmergeable
        split at hmergeable
        · next e' hdesc =>
          split_ifs at hmergeable
          cases hmergeable
          exact hdesc
        · cases hmergeable
      obtain ⟨n, hflatten, hproper, hsizes⟩ := h.gives
      rw [hdesc] at hflatten
      cases n with
      | nil | loop l body e rest => cases hflatten
      | elem e' rest =>
        obtain ⟨helem, hrest⟩ := List.cons.inj hflatten
        obtain rfl : e' = e := Entry.elem.inj helem
        have hrestNil : rest = .nil := by
          cases rest with
          | nil => rfl
          | elem e rest | loop l body e rest => cases hrest
        have hcopies : (replicate count sizes).flatten =
            replicate (e'.count * count) (p.size e'.type) := by
          rw [← hsizes, hrestNil, Nest.sizes, Nest.sizes, List.append_nil, Elem.sizes,
            flatten_replicate_replicate, Nat.mul_comm]
        rw [hcopies]
        dsimp only
        rw [Nat.mod_eq_of_lt hcount]
        exact gives_elem hproper.1 hproper.2.1
    | none =>
      dsimp only
      rw [copiedEntries]
      by_cases hone : count = 1
      · rw [if_pos hone, hone, replicate_one, flatten_singleton]
        exact h.gives.shift disp
      · rw [if_neg hone]
        exact (h.gives.shift disp).loop hne hpos hlt _

theorem Signed.append (h : Signed p base sizes) (hadded : Signed p c.added sizes')
    (hcall : KeepsCounts base c) (hid : ¬c.isMarker) (hvoid : ¬c.isVoid) (hcount : c.count < 2 ^ 32)
    (hown : base.flags.predefined = false) {place : ℕ}
    (hd : d = (c.enclosed base).append c.added c.count place c.disp c.stride c.bounds) :
    Signed p d (sizes ++ copiedSizes p c.added sizes' c.count) := by
  have hne : c.count ≠ 0 ∧ c.added.size ≠ 0 := not_or.mp hvoid
  have hsize : d.size = (base.size + c.count * c.added.size) % 2 ^ 64 := by
    rw [hd]
    rfl
  have helements : d.elements = newElements base c.added c.count := by
    rw [hd]
    rfl
  refine ⟨?_, ?_, ?_, ?_⟩
  · have hdesc : d.desc = base.desc ++ Ddt.newEntries c.added c.count c.disp c.stride := by
      rw [hd]
      rfl
    rw [hdesc]
    exact h.gives.append (hadded.newEntries (Nat.pos_of_ne_zero hne.1) hcount hne.2
      (hcall.count hid hvoid))
  · rw [hsize, Nat.mod_eq_of_lt (hcall.size hid hvoid), sum_append_nat, hadded.sum_copied, h.size]
  · rw [helements, newElements, length_append, copiedSizes, h.elements]
    by_cases hbasic : isBasic c.added = true
    · rw [if_pos hbasic, if_pos hbasic, length_replicate, Nat.mul_one, Nat.mod_add_mod]
    · rw [if_neg hbasic, if_neg hbasic, length_flatten, map_replicate, sum_replicate,
        Nat.nsmul_eq_mul, hadded.elements, Nat.mod_add_mod, Nat.add_mod, Nat.mul_mod_mod,
        ← Nat.add_mod]
  · intro hbasic
    have hpredefined : d.flags.predefined = base.flags.predefined := by
      rw [hd]
      rfl
    rw [isBasic, hpredefined, hown] at hbasic
    cases hbasic

theorem signed_block {t : TypeId} (hsize : p.size t ≠ 0) :
    Signed p (blockDatatype p t) (replicate t.nbElems (p.size (t.part.getD t))) := by
  have hpart : 0 < p.size (t.part.getD t) ∧ t.nbElems * p.size (t.part.getD t) = p.size t := by
    rw [TypeId.nbElems]
    cases hpart : t.part with
    | none =>
      rw [if_pos rfl, Nat.one_mul]
      exact ⟨Nat.pos_of_ne_zero hsize, rfl⟩
    | some u =>
      have htwice := (p.complex_size t u hpart).resolve_left hsize
      rw [if_neg (Option.some_ne_none u), getD_some, htwice]
      omega
  refine ⟨gives_elem rfl hpart.1, ?_, ?_, fun _ => rfl⟩
  · rw [sum_replicate, Nat.nsmul_eq_mul, hpart.2]
    rfl
  · have hlt : t.nbElems < 2 ^ 32 := by
      rw [TypeId.nbElems]
      split_ifs <;> decide
    rw [length_replicate, Nat.mod_eq_of_lt hlt]
    rfl

theorem Built.signed (h : Built p KeepsCounts d m) : ∃ sizes, Signed p d sizes := by
  induction h with
  | basic t =>
    rcases basicDatatype_cases p t with ⟨unavailable, hempty⟩ | ⟨_, _, hsize, hblock⟩
    · rw [hempty]
      exact ⟨[], gives_nil, rfl, rfl, nofun⟩
    · rw [hblock]
      exact ⟨_, signed_block hsize⟩
  | create expectedSize => exact ⟨[], gives_nil, rfl, rfl, nofun⟩
  | @add base d _ _ c _ hown _ hcount hcall hrun ih ihAdded =>
    obtain ⟨sizes, hbase⟩ := ih
    obtain ⟨sizes', hadded⟩ := ihAdded
    have hbasic : ∀ {b : Bool} {P : Prop}, (base.flags.predefined && b) = true → P := by
      intro b P hbasic
      rw [hown] at hbasic
      cases hbasic
    cases AddCall.effect hrun with
    | lb hid hd | ub hid hd | void hid hvoid hd =>
      rw [hd]
      exact ⟨sizes, hbase.gives, hbase.size, hbase.elements, hbasic⟩
    | data hid hvoid place hbounds hd =>
      exact ⟨_, hbase.append hadded hcall hid hvoid hcount hown hd⟩
  | resize lb extent _ hrun ih =>
    obtain ⟨sizes, ht⟩ := ih
    rw [opalDatatypeResize_eq hrun]
    exact ⟨sizes, ht.gives, ht.size, ht.elements, ht.basic⟩
  | commit _ hrun ih =>
    obtain ⟨sizes, ht⟩ := ih
    rw [opalDatatypeCommit_eq hrun]
    exact ⟨sizes, ht.gives, ht.size, ht.elements, ht.basic⟩

/-- A datatype has a description with proper loops, and its elements are counted right
if and only if the walk reads the right sizes. -/
theorem Built.counts_iff (h : Built p KeepsCounts t m) : (∃ n, Describes p t n) ∧
    ∀ n, Describes p t n → (CountsElements p t n ↔ RereadsAlike p n) := by
  refine ⟨?_, fun n hn => hn.rereads_iff⟩
  obtain ⟨sizes, ⟨n, hflatten, hproper, hsizes⟩, hsize, helements, _⟩ := h.signed
  exact ⟨n, hflatten.symm, hproper, by rw [hsize, hsizes], by rw [helements, hsizes]⟩

end Descriptions

section Instances

variable {p : Platform} {n : Nest}

theorem rereadsAlike_of_loop {l : Loop} {body : Nest} {e : EndLoop}
    (hplain : body.reread p [] (some l.loops) = none)
    (hne : (Nest.loop l body e .nil).sizes p ≠ [])
    (hlen : ((Nest.loop l body e .nil).sizes p).length < 2 ^ 31) :
    RereadsAlike p (.loop l body e .nil) := by
  have hreading : (Nest.loop l body e .nil).reading p
      = ⟨(Nest.loop l body e .nil).sizes p, (Nest.loop l body e .nil).sizes p⟩ := by
    rw [reading, reread, getD_none, hplain]
    dsimp only
    rw [getD_some, nil_append, sizes, sizes, List.append_nil]
  refine ⟨hne, hlen, ?_⟩
  rw [hreading, first_stem hne (Nat.le_refl _), take_length]

/-- Two `int` with a gap between them. -/
def gappedPair : Option Datatype :=
  opalDatatypeAdd (opalDatatypeCreate 3) (basicDatatype lp64 .int4) 2 0 8

/-- The description of `gappedPair` before `rest`. -/
def gappedPairNest (rest : Nest) : Nest :=
  .loop ⟨{ predefined := true }, 2, 2, 8⟩
    (.elem ⟨{ predefined := true, contiguous := true, data := true }, .int4, 1, 4, 0⟩ .nil)
    ⟨{ predefined := true }, 2, 4, 0⟩ rest

/-- `gappedPair` is built without a counter that wraps around. -/
theorem built_gappedPair {P : Datatype → AddCall → Prop}
    (hcall : P (opalDatatypeCreate 3) ⟨basicDatatype lp64 .int4, 2, 0, 8⟩) :
    ∃ t m, gappedPair = some t ∧ Built lp64 P t m :=
  ⟨_, _, rfl, .add ⟨basicDatatype lp64 .int4, 2, 0, 8⟩ (.create 3) rfl (.basic .int4)
    (by decide) hcall rfl⟩

theorem gappedPair_counts :
    ∃ t, gappedPair = some t ∧ CountsElements lp64 t (gappedPairNest .nil) := by
  obtain ⟨t, m, ht, hbuilt⟩ := built_gappedPair (P := KeepsCounts)
    ⟨fun _ _ => by decide, fun _ _ h => nomatch h⟩
  refine ⟨t, ht, ?_⟩
  obtain rfl := Option.some.inj ht
  have hproper : (gappedPairNest .nil).Proper lp64 := by
    refine ⟨by decide, by decide, by decide, ⟨rfl, by decide, trivial⟩, trivial⟩
  apply ((Built.counts_iff hbuilt).2 _ ⟨rfl, hproper, rfl, rfl⟩).mpr
  exact rereadsAlike_of_loop rfl (by decide) (by decide)

/-- Two `int` with a gap between them, and a `char`. -/
def pairAndChar : Option Datatype :=
  gappedPair.bind fun pair =>
    (opalDatatypeAdd (opalDatatypeCreate 5) pair 1 0 (-1)).bind fun t =>
      opalDatatypeAdd t (basicDatatype lp64 .int1) 1 12 (-1)

def pairAndCharNest : Nest :=
  gappedPairNest
    (.elem
      ⟨{ predefined := true, contiguous := true, noGaps := true, data := true }, .int1, 1, 1, 12⟩
      .nil)

/-- The nine bytes of the three elements are not counted as three. -/
theorem pairAndChar_not_counts : ∃ t m, pairAndChar = some t ∧ Built lp64 KeepsCounts t m ∧
      Describes lp64 t pairAndCharNest ∧ (pairAndCharNest.typeMap lp64).sumFirst 3 = t.size ∧
      getElementCount lp64 t 20 t.size = some (-1) ∧ ¬CountsElements lp64 t pairAndCharNest := by
  obtain ⟨pair, m, hpair, hbuilt⟩ := built_gappedPair (P := KeepsCounts)
    ⟨fun _ _ => by decide, fun _ _ h => nomatch h⟩
  obtain rfl := Option.some.inj hpair
  have hstruct : Built lp64 KeepsCounts _ _ := .add ⟨_, 1, 0, -1⟩ (.create 5) rfl hbuilt (by decide)
    ⟨fun _ _ => by decide, fun _ _ _ _ h => nomatch h⟩ rfl
  have hall : Built lp64 KeepsCounts _ _ := .add ⟨basicDatatype lp64 .int1, 1, 12, -1⟩ hstruct rfl
    (.basic .int1) (by decide) ⟨fun _ _ => by decide, fun _ _ h => nomatch h⟩ rfl
  have hproper : pairAndCharNest.Proper lp64 := by
    refine ⟨by decide, by decide, by decide, ⟨rfl, by decide, trivial⟩, rfl, by decide, trivial⟩
  refine ⟨_, _, rfl, hall, ⟨rfl, hproper, rfl, rfl⟩, rfl, rfl, ?_⟩
  intro h
  obtain ⟨fuel, r, hget, hr⟩ := h.count 9 (by decide)
  have hminus : r = -1 := @getElementCount_unique lp64 _ fuel 20 9 r (-1) hget rfl
  rcases hr with ⟨k, _, hk⟩ | ⟨hnone, _⟩
  · omega
  · exact hnone 3 rfl

end Instances

end Ulfm.Ddt
