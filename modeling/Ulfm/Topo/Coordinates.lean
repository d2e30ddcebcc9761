import Mathlib.Data.List.Zip
import Ulfm.Topo.Cartesian

/-!
# Coordinates, ranks and shifts

The three functions compute with the same digits. A shift has a result for every process
as long as no coordinate that is displaced leaves the range of an `int`.
-/

namespace Ulfm

open List Option Nat Int

namespace Topo

section Ranks

variable {dims cs : List ℕ} {rank d : ℕ}

theorem coordsLoop_eq (hds : ∀ d ∈ dims, 0 < d) (rank : ℕ) :
    coordsLoop dims dims.prod rank = mixedDigits dims rank := by
  induction dims generalizing rank with
  | nil => rfl
  | cons d ds ih =>
    have hpos : 0 < d := hds d mem_cons_self
    have hdiv : (d :: ds).prod / d = ds.prod := by
      rw [prod_cons, Nat.mul_div_cancel_left _ hpos]
    simp only [coordsLoop, mixedDigits, hdiv]
    rw [ih fun d hd => hds d (mem_cons_of_mem _ hd)]

theorem cartCoords_eq (hds : ∀ d ∈ dims, 0 < d) (rank : ℕ) :
    cartCoords dims.prod dims rank dims.length = mixedDigits dims rank := by
  rw [cartCoords, take_length]
  exact coordsLoop_eq hds rank

theorem corrected_eq (hd : 0 < d) (ord : ℤ) :
    (if ord.tmod d < 0 then ord.tmod d + d else ord.tmod d) = ord % d := by
  have hpos : (0 : ℤ) < d := natCast_pos.2 hd
  have hnonneg := emod_nonneg ord hpos.ne'
  have hlt := emod_lt_of_pos ord hpos
  rw [tmod_eq_emod]
  simp only [natAbs_natCast]
  split_ifs <;> omega

theorem normalise_eq (hd : 0 < d) (ord : ℤ) : normalise d ord = ord % d := by
  unfold normalise
  by_cases hout : ord < 0 ∨ (d : ℤ) ≤ ord
  · rw [if_pos hout, corrected_eq hd]
  · obtain ⟨hneg, hge⟩ := not_or.1 hout
    rw [if_neg hout, emod_eq_of_lt (not_lt.1 hneg) (not_le.1 hge)]

def residues (dims : List ℕ) (coords : List ℤ) : List ℕ :=
  zipWith (fun (d : ℕ) (c : ℤ) => (c % (d : ℤ)).toNat) dims coords

theorem digits_residues (hds : ∀ d ∈ dims, 0 < d) {coords : List ℤ}
    (hlength : coords.length = dims.length) : Digits dims (residues dims coords) := by
  induction dims generalizing coords with
  | nil => exact .nil
  | cons d ds ih =>
    cases coords with
    | nil => exact nomatch hlength
    | cons c coords =>
      have hpos : (0 : ℤ) < d := natCast_pos.2 (hds d mem_cons_self)
      refine .cons ?_ (ih (fun d hd => hds d (mem_cons_of_mem _ hd))
        (succ_inj.1 hlength))
      have hlt := emod_lt_of_pos c hpos
      change (c % (d : ℤ)).toNat < d
      omega

theorem residues_natCast (h : Digits dims cs) : residues dims (cs.map (Nat.cast : ℕ → ℤ)) = cs := by
  induction h with
  | nil => rfl
  | @cons c d cs ds hc _ ih =>
    rw [map_cons, residues, zipWith_cons_cons, ← natCast_mod, toNat_natCast, mod_eq_of_lt hc]
    exact congrArg _ ih

/-- One round of the loop of `cartRank`. -/
def rankStep (d : ℕ × ℤ) (acc : ℤ × ℤ) : ℤ × ℤ := (acc.1 + acc.2 * normalise d.1 d.2, acc.2 * d.1)

theorem cartRank_eq (hds : ∀ d ∈ dims, 0 < d) {coords : List ℤ}
    (hlength : coords.length = dims.length) :
    cartRank dims coords = mixedValue dims (residues dims coords) := by
  have hfold : (dims.zip coords).foldr rankStep (0, 1) =
      ((mixedValue dims (residues dims coords) : ℤ), (dims.prod : ℤ)) := by
    induction dims generalizing coords with
    | nil => rfl
    | cons d ds ih =>
      cases coords with
      | nil => cases hlength
      | cons c coords =>
        have hpos : 0 < d := hds d mem_cons_self
        have hnonneg := emod_nonneg c (natCast_pos.2 hpos).ne'
        have hresidues : residues (d :: ds) (c :: coords) =
            (c % (d : ℤ)).toNat :: residues ds coords := rfl
        rw [zip_cons_cons, foldr_cons, ih (fun d hd =>
          hds d (mem_cons_of_mem _ hd)) (succ_inj.1 hlength), hresidues, mixedValue,
          prod_cons, rankStep]
        simp only [normalise_eq hpos, Nat.cast_add, Nat.cast_mul, toNat_of_nonneg hnonneg]
        rw [Int.mul_comm, Int.add_comm, Int.mul_comm (d : ℤ)]
  exact congrArg Prod.fst hfold

end Ranks

section Shift

variable {dims : List ℕ} {periods : List Bool} {rank direction c d : ℕ} {period : Bool} {disp : ℤ}

/-- The coordinates of a process, as `int`s. -/
def coordsOf (dims : List ℕ) (rank : ℕ) : List ℤ :=
  (cartCoords dims.prod dims rank dims.length).map Nat.cast

/-- The coordinates are those of one rank, and the rank that of one list of coordinates. -/
def CoordsInverse (dims : List ℕ) : Prop :=
  (∀ rank, rank < dims.prod → Digits dims (cartCoords dims.prod dims rank dims.length) ∧
      cartRank dims (coordsOf dims rank) = rank) ∧
  ∀ coords, Digits dims coords → ∃ rank, rank < dims.prod ∧
    cartRank dims (coords.map Nat.cast) = rank ∧ cartCoords dims.prod dims rank dims.length = coords

/-- Coordinates that are out of range count as their residues. -/
def RankReduces (dims : List ℕ) : Prop :=
  ∀ coords : List ℤ, coords.length = dims.length → Digits dims (residues dims coords) ∧
      cartRank dims coords = cartRank dims ((residues dims coords).map Nat.cast)

/-- The process whose coordinate in one direction differs by `disp`. -/
def neighbour (dims : List ℕ) (periods : List Bool) (rank direction : ℕ) (disp : ℤ) : ℤ :=
  let dim := dims.getD direction 0
  let moved := (coordsOf dims rank).getD direction 0 + disp
  if (moved < 0 ∨ dim ≤ moved) ∧ periods.getD direction false = false then mpiProcNull
  else cartRank dims ((coordsOf dims rank).set direction (moved % dim))

/-- A shift names the neighbours of every process, and is undone by the opposite one. -/
def ShiftsTo (dims : List ℕ) (periods : List Bool) (direction : ℕ) (disp : ℤ) : Prop :=
  ∀ rank, rank < dims.prod → ∃ source dest,
    cartShift dims.prod dims periods rank direction disp = some (source, dest) ∧
      source = neighbour dims periods rank direction (-disp) ∧
      dest = neighbour dims periods rank direction disp ∧
      ∀ q : ℕ, dest = q → ∃ dest',
        cartShift dims.prod dims periods q direction disp = some ((rank : ℤ), dest')

section

variable (hds : ∀ d ∈ dims, 0 < d)
include hds

theorem coordsInverse : CoordsInverse dims := by
  constructor
  · intro rank hrank
    have hdigits := digits_mixedDigits hds hrank
    have hlength : (coordsOf dims rank).length = dims.length := by
      rw [coordsOf, cartCoords_eq hds, length_map, hdigits.length_eq]
    rw [cartRank_eq hds hlength, coordsOf, cartCoords_eq hds, residues_natCast hdigits,
      mixedValue_mixedDigits hrank hds]
    exact ⟨hdigits, rfl⟩
  · intro coords hdigits
    have hlength : (coords.map (Nat.cast : ℕ → ℤ)).length = dims.length := by
      rw [length_map, hdigits.length_eq]
    refine ⟨mixedValue dims coords, mixedValue_lt hdigits, ?_, ?_⟩
    · rw [cartRank_eq hds hlength, residues_natCast hdigits]
    · rw [cartCoords_eq hds, mixedDigits_mixedValue hdigits]

theorem rankReduces : RankReduces dims := by
  intro coords hlength
  have hdigits := digits_residues hds hlength
  have hlength' : ((residues dims coords).map (Nat.cast : ℕ → ℤ)).length = dims.length := by
    rw [length_map, hdigits.length_eq]
  refine ⟨hdigits, ?_⟩
  rw [cartRank_eq hds hlength, cartRank_eq hds hlength', residues_natCast hdigits]

/-- One round of the loop of a shift. -/
def shiftStep (s : Direction) (d : ℕ × Bool) : Direction :=
  ⟨d.1, d.2, s.ord % s.factor, s.factor / d.1⟩

/-- What the loop of a shift leaves: the radix and the period of the direction, and the
remainder and the product that the coordinate is got from. -/
theorem shiftLoop_eq (hd : dims[direction]? = some d)
    (hperiod : periods[direction]? = some period) (rank : ℕ) :
    shiftLoop dims.prod dims periods rank direction =
      ⟨d, period, rank % (dims.drop direction).prod, (dims.drop (direction + 1)).prod⟩ := by
  have hloop : ∀ (s : Direction), s.factor = dims.prod →
      ((dims.zip periods).take (direction + 1)).foldl shiftStep s =
      ⟨d, period, s.ord % (dims.drop direction).prod, (dims.drop (direction + 1)).prod⟩ := by
    induction dims generalizing periods direction with
    | nil => cases hd
    | cons e ds ih =>
      intro s hs
      have hpos : 0 < e := hds e mem_cons_self
      have hdiv : s.factor / e = ds.prod := by
        rw [hs, prod_cons, Nat.mul_div_cancel_left _ hpos]
      cases periods with
      | nil => cases hperiod
      | cons p ps =>
        rw [zip_cons_cons, take_succ_cons, foldl_cons]
        cases direction with
        | zero =>
          obtain rfl := Option.some.inj hd
          obtain rfl := Option.some.inj hperiod
          rw [take_zero, foldl_nil]
          change (⟨e, p, s.ord % s.factor, s.factor / e⟩ : Direction) = _
          rw [hdiv, hs]
          rfl
        | succ direction =>
          rw [ih (fun d hd => hds d (mem_cons_of_mem _ hd)) hd hperiod _ hdiv]
          simp only [drop_succ_cons, shiftStep]
          rw [hs, mod_mod_of_dvd]
          exact (prod_drop_dvd ds direction).trans (Dvd.intro_left e rfl)
  exact hloop ⟨0, false, rank, dims.prod⟩ rfl

theorem coordsOf_eq (rank : ℕ) : coordsOf dims rank = (mixedDigits dims rank).map Nat.cast := by
  rw [coordsOf, cartCoords_eq hds]

theorem cartRank_set (hd : dims[direction]? = some d)
    (hrank : rank < dims.prod) (hc : (mixedDigits dims rank)[direction]? = some c) {m : ℕ}
    (hm : m < d) :
    cartRank dims ((coordsOf dims rank).set direction m) =
      mixedValue dims ((mixedDigits dims rank).set direction m) ∧
    (mixedValue dims ((mixedDigits dims rank).set direction m) : ℤ) =
      rank + (m - c) * (dims.drop (direction + 1)).prod := by
  have hdigits := digits_mixedDigits hds hrank
  have hset := hdigits.set hd hm
  constructor
  · have hmap : (coordsOf dims rank).set direction (m : ℤ) =
        ((mixedDigits dims rank).set direction m).map Nat.cast := by
      rw [coordsOf_eq hds, map_set]
    rw [hmap, cartRank_eq hds (by rw [length_map, hset.length_eq]), residues_natCast hset]
  · have hvalue := mixedValue_set hdigits hc m
    rw [mixedValue_mixedDigits hrank hds] at hvalue
    have hcast := congrArg (Nat.cast : ℕ → ℤ) hvalue
    push_cast at hcast
    rw [Int.sub_mul]
    omega

end

section

variable (hds : ∀ d ∈ dims, 0 < d) (hd : dims[direction]? = some d)
  (hperiod : periods[direction]? = some period)
include hds hd hperiod

theorem neighbour_eq (hc : (mixedDigits dims rank)[direction]? = some c) (disp : ℤ) :
    neighbour dims periods rank direction disp =
      if ((c : ℤ) + disp < 0 ∨ (d : ℤ) ≤ c + disp) ∧ period = false then mpiProcNull
      else cartRank dims ((coordsOf dims rank).set direction (((c : ℤ) + disp) % d)) := by
  unfold neighbour
  simp only [getD_eq_getElem?_getD, coordsOf_eq hds, getElem?_map, hd, hperiod, hc,
    getD_some, map_some]

theorem displaced_eq (hrank : rank < dims.prod)
    (hc : (mixedDigits dims rank)[direction]? = some c) (ord : ℕ) (disp : ℤ) :
    displaced ⟨d, period, ord, (dims.drop (direction + 1)).prod⟩ rank c (c + disp) =
      neighbour dims periods rank direction disp := by
  have hpos : 0 < d := hds d (mem_of_getElem? hd)
  rw [neighbour_eq hds hd hperiod hc]
  unfold displaced
  simp only [corrected_eq hpos]
  split_ifs with hout
  · rfl
  · obtain ⟨m, hm⟩ := eq_ofNat_of_zero_le
      (emod_nonneg ((c : ℤ) + disp) (natCast_pos.2 hpos).ne')
    have hlt := emod_lt_of_pos ((c : ℤ) + disp) (natCast_pos.2 hpos)
    rw [hm] at hlt ⊢
    obtain ⟨hrankset, hvalue⟩ := cartRank_set hds hd hrank hc (Int.ofNat_lt.1 hlt)
    exact (hrankset.trans hvalue).symm

end

theorem intResult_eq_some {x y : ℤ} :
    intResult x = some y ↔ (-2 ^ 31 ≤ x ∧ x < 2 ^ 31) ∧ x = y := by
  unfold intResult
  split_ifs with h
  · rw [Option.some.injEq]
    exact (and_iff_right h).symm
  · exact iff_of_false nofun fun hr => h hr.1

section

variable (hds : ∀ d ∈ dims, 0 < d) (hd : dims[direction]? = some d)
  (hperiod : periods[direction]? = some period) (hrank : rank < dims.prod)
  (hc : (mixedDigits dims rank)[direction]? = some c)
include hds hd hperiod hrank hc

theorem cartShift_eq_some_iff (hdisp : disp ≠ 0) {source dest : ℤ} :
    cartShift dims.prod dims periods rank direction disp = some (source, dest) ↔
      (-2 ^ 31 ≤ c - disp ∧ c - disp < 2 ^ 31) ∧ (-2 ^ 31 ≤ c + disp ∧ c + disp < 2 ^ 31) ∧
        source = neighbour dims periods rank direction (-disp) ∧
        dest = neighbour dims periods rank direction disp := by
  have hlt := (List.getElem?_eq_some_iff.1 hd).1
  have hdigit := getElem?_mixedDigits hrank hds hlt
  rw [hc] at hdigit
  have hsource := displaced_eq hds hd hperiod hrank hc (rank % (dims.drop direction).prod) (-disp)
  have hdest := displaced_eq hds hd hperiod hrank hc (rank % (dims.drop direction).prod) disp
  rw [← Int.sub_eq_add_neg] at hsource
  unfold cartShift
  rw [if_neg hdisp, shiftLoop_eq hds hd hperiod rank]
  simp only [← Option.some.inj hdigit, bind_eq_bind, bind_eq_some_iff, intResult_eq_some]
  constructor
  · rintro ⟨_, ⟨hsub, rfl⟩, _, ⟨hadd, rfl⟩, hresult⟩
    rw [hsource, hdest, Option.some.injEq, Prod.mk.injEq] at hresult
    exact ⟨hsub, hadd, hresult.1.symm, hresult.2.symm⟩
  · rintro ⟨hsub, hadd, rfl, rfl⟩
    refine ⟨_, ⟨hsub, rfl⟩, _, ⟨hadd, rfl⟩, ?_⟩
    rw [hsource, hdest]

theorem neighbour_eq_of_residue {m : ℕ} (hm : m < d) (hres : ((c : ℤ) + disp) % d = m)
    (hin : period = false → 0 ≤ (c : ℤ) + disp ∧ (c : ℤ) + disp < d) :
    neighbour dims periods rank direction disp =
      mixedValue dims ((mixedDigits dims rank).set direction m) := by
  rw [neighbour_eq hds hd hperiod hc, if_neg, hres]
  · exact (cartRank_set hds hd hrank hc hm).1
  · rintro ⟨hout, hfalse⟩
    have := hin hfalse
    omega

theorem neighbour_back {q : ℕ} (hq : neighbour dims periods rank direction disp = q) :
    ∃ m : ℕ, m < d ∧ q < dims.prod ∧ (mixedDigits dims q)[direction]? = some m ∧
      neighbour dims periods q direction (-disp) = rank := by
  have hdpos : (0 : ℤ) < d := natCast_pos.2 (hds d (mem_of_getElem? hd))
  have hdigits := digits_mixedDigits hds hrank
  have hcd := Digits.getElem?_lt hdigits hc hd
  have hin : period = false → 0 ≤ (c : ℤ) + disp ∧ (c : ℤ) + disp < d := by
    intro hfalse
    rw [neighbour_eq hds hd hperiod hc] at hq
    by_contra hout
    rw [if_pos ⟨by omega, hfalse⟩] at hq
    exact nomatch hq
  obtain ⟨m, hres⟩ := eq_ofNat_of_zero_le (emod_nonneg ((c : ℤ) + disp) hdpos.ne')
  have hm : m < d := by
    have hlt := emod_lt_of_pos ((c : ℤ) + disp) hdpos
    rw [hres] at hlt
    exact Int.ofNat_lt.1 hlt
  have hset := Digits.set hdigits hd hm
  rw [neighbour_eq_of_residue hds hd hperiod hrank hc hm hres hin] at hq
  obtain rfl := ofNat_inj.1 hq
  have hqdigits := mixedDigits_mixedValue hset
  have hclt := (List.getElem?_eq_some_iff.1 hc).1
  have hqm : (mixedDigits dims (mixedValue dims ((mixedDigits dims rank).set direction m)))[
      direction]? = some m := by
    rw [hqdigits, getElem?_set_self hclt]
  have hback : ((m : ℤ) + -disp) % d = c := by
    rw [← hres, emod_add_emod, Int.add_neg_cancel_right]
    exact emod_eq_of_lt (natCast_nonneg c) (Int.ofNat_lt.2 hcd)
  have hin' : period = false → 0 ≤ (m : ℤ) + -disp ∧ (m : ℤ) + -disp < d := by
    intro hfalse
    obtain ⟨hge, hlt⟩ := hin hfalse
    rw [emod_eq_of_lt hge hlt] at hres
    omega
  refine ⟨m, hm, mixedValue_lt hset, hqm, ?_⟩
  rw [neighbour_eq_of_residue hds hd hperiod (mixedValue_lt hset) hqm hcd hback hin', hqdigits,
    set_set]
  obtain ⟨hin, hget⟩ := List.getElem?_eq_some_iff.1 hc
  rw [← hget, set_getElem_self hin, mixedValue_mixedDigits hrank hds]

end

theorem cartShift_zero (size rank direction : ℕ) :
    cartShift size dims periods rank direction 0 = some ((rank : ℤ), (rank : ℤ)) := if_pos rfl

section

variable (hds : ∀ d ∈ dims, 0 < d) (hd : dims[direction]? = some d)
include hds hd

theorem neighbour_zero (hperiod : periods[direction]? = some period) (hrank : rank < dims.prod)
    (hc : (mixedDigits dims rank)[direction]? = some c) :
    neighbour dims periods rank direction 0 = rank := by
  have hcd := Digits.getElem?_lt (digits_mixedDigits hds hrank) hc hd
  have hres : ((c : ℤ) + 0) % d = c := by
    rw [Int.add_zero]
    exact emod_eq_of_lt (natCast_nonneg c) (Int.ofNat_lt.2 hcd)
  rw [neighbour_eq_of_residue hds hd hperiod hrank hc hcd hres fun _ => by omega]
  obtain ⟨hin, hget⟩ := List.getElem?_eq_some_iff.1 hc
  rw [← hget, set_getElem_self hin, mixedValue_mixedDigits hrank hds]

theorem shiftsTo_of_bounded (hperiod : periods[direction]? = some period) (hdisp : disp ≠ 0)
    (hbound : (d : ℤ) + |disp| ≤ 2 ^ 31) : ShiftsTo dims periods direction disp := by
  have hlt := (List.getElem?_eq_some_iff.1 hd).1
  have hrange : ∀ c : ℕ, c < d → (-2 ^ 31 ≤ (c : ℤ) - disp ∧ (c : ℤ) - disp < 2 ^ 31) ∧
        (-2 ^ 31 ≤ (c : ℤ) + disp ∧ (c : ℤ) + disp < 2 ^ 31) := by
    intro c hc
    have hle := le_abs_self disp
    have hneg := neg_abs_le disp
    omega
  intro rank hrank
  have hc := getElem?_mixedDigits hrank hds hlt
  obtain ⟨hsub, hadd⟩ := hrange _ (Digits.getElem?_lt (digits_mixedDigits hds hrank) hc hd)
  refine ⟨_, _, (cartShift_eq_some_iff hds hd hperiod hrank hc hdisp).2 ⟨hsub, hadd, rfl, rfl⟩,
    rfl, rfl, fun q hq => ?_⟩
  obtain ⟨m, hm, hqrank, hqm, hback⟩ := neighbour_back hds hd hperiod hrank hc hq
  obtain ⟨hsub', hadd'⟩ := hrange m hm
  exact ⟨_, (cartShift_eq_some_iff hds hd hperiod hqrank hqm hdisp).2
    ⟨hsub', hadd', hback.symm, rfl⟩⟩

theorem exists_last :
    ∃ rank, rank < dims.prod ∧ (mixedDigits dims rank)[direction]? = some (d - 1) := by
  have hdigits : Digits dims (dims.map (· - 1)) := by
    rw [Digits, forall₂_map_left_iff]
    exact forall₂_same.2 fun d hd => sub_lt (hds d hd) Nat.one_pos
  refine ⟨mixedValue dims (dims.map (· - 1)), mixedValue_lt hdigits, ?_⟩
  rw [mixedDigits_mixedValue hdigits, getElem?_map, hd]
  rfl

end

/-- On a communicator with a grid, coordinates and ranks are inverse to each other and
coordinates that are out of range are reduced. A shift leads to the neighbours of every process
if and only if it is one by nothing or the displacement and the extent of the direction are
together at most `INT_MAX + 1`. -/
theorem cartesian_iff (dims : List ℕ) (periods : List Bool) (hds : ∀ d ∈ dims, 0 < d)
    (hd : dims[direction]? = some d) (hperiod : periods[direction]? = some period) (disp : ℤ) :
    (CoordsInverse dims ∧ RankReduces dims ∧ ShiftsTo dims periods direction disp) ↔
      disp = 0 ∨ (d : ℤ) + |disp| ≤ 2 ^ 31 := by
  have hlt := (List.getElem?_eq_some_iff.1 hd).1
  constructor
  · rintro ⟨-, -, hshifts⟩
    by_cases hdisp : disp = 0
    · exact .inl hdisp
    · obtain ⟨rank, hrank, hc⟩ := exists_last hds hd
      obtain ⟨source, dest, hshift, -⟩ := hshifts rank hrank
      obtain ⟨hsub, hadd, -⟩ := (cartShift_eq_some_iff hds hd hperiod hrank hc hdisp).1 hshift
      have hpos : 0 < d := hds d (mem_of_getElem? hd)
      have hcast : ((d - 1 : ℕ) : ℤ) = d - 1 := by omega
      rw [hcast] at hsub hadd
      obtain habs | habs := abs_choice disp
      · rw [habs]
        omega
      · rw [habs]
        omega
  · intro hdisp
    refine ⟨coordsInverse hds, rankReduces hds, ?_⟩
    by_cases hzero : disp = 0
    · subst hzero
      intro rank hrank
      have hc := getElem?_mixedDigits hrank hds hlt
      have hself := neighbour_zero hds hd hperiod hrank hc
      refine ⟨rank, rank, cartShift_zero _ _ _, ?_, hself.symm, fun q hq => ⟨q, ?_⟩⟩
      · rw [neg_zero, hself]
      · rw [ofNat_inj.1 hq]
        exact cartShift_zero _ _ _
    · exact shiftsTo_of_bounded hds hd hperiod hzero (hdisp.resolve_left hzero)

/-- A ring of three processes and a displacement by `INT_MAX`. -/
theorem cartShift_overflows : ¬∀ (dims : List ℕ) (periods : List Bool) (direction : ℕ) (disp : ℤ),
      (∀ d ∈ dims, 0 < d) → periods.length = dims.length → direction < dims.length →
        -2 ^ 31 ≤ disp ∧ disp < 2 ^ 31 → ShiftsTo dims periods direction disp := by
  intro h
  obtain ⟨source, dest, hshift, -⟩ := h [3] [true] 0 (2 ^ 31 - 1) (by decide) rfl (by decide)
    (by decide) 1 (by decide)
  have hnone : cartShift [3].prod [3] [true] 1 0 (2 ^ 31 - 1) = none := by decide
  exact nomatch hnone.symm.trans hshift

theorem cartesian_iff_grid :
    (CoordsInverse [2, 3] ∧ RankReduces [2, 3] ∧ ShiftsTo [2, 3] [false, true] 1 (-4)) ↔
      (-4 : ℤ) = 0 ∨ ((3 : ℕ) : ℤ) + |(-4)| ≤ 2 ^ 31 :=
  cartesian_iff [2, 3] [false, true] (by decide) rfl rfl (-4)

end Shift

end Topo

end Ulfm
