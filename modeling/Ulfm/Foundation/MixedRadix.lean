import Mathlib.Algebra.BigOperators.Group.List.Basic
import Mathlib.Algebra.Order.Ring.Nat
import Mathlib.Algebra.Order.BigOperators.GroupWithZero.List

/-!
# Mixed radix numbers

A number below the product of a list of radices is the list of its digits, the most
significant first. A digit of a given place is got from the number by the product of
the radices behind that place, and changing one digit shifts the number by a multiple
of that product.
-/

namespace Ulfm

open List Nat

section MixedRadix

variable {ds cs : List ℕ} {r i c : ℕ}

def mixedDigits : List ℕ → ℕ → List ℕ
  | [], _ => []
  | _ :: ds, r => r / ds.prod :: mixedDigits ds (r % ds.prod)

def mixedValue : List ℕ → List ℕ → ℕ
  | _ :: ds, c :: cs => c * ds.prod + mixedValue ds cs
  | _, _ => 0

abbrev Digits (ds cs : List ℕ) : Prop := List.Forall₂ (· < ·) cs ds

theorem digits_mixedDigits (hds : ∀ d ∈ ds, 0 < d) (hr : r < ds.prod) :
    Digits ds (mixedDigits ds r) := by
  induction ds generalizing r with
  | nil => exact .nil
  | cons d ds ih =>
    have hpos : 0 < ds.prod := prod_pos fun d hd => hds d (mem_cons_of_mem _ hd)
    rw [prod_cons] at hr
    refine .cons (Nat.div_lt_of_lt_mul (by rwa [Nat.mul_comm])) ?_
    exact ih (fun d hd => hds d (mem_cons_of_mem _ hd)) (mod_lt r hpos)

theorem mixedValue_lt (h : Digits ds cs) : mixedValue ds cs < ds.prod := by
  induction h with
  | nil => exact Nat.one_pos
  | @cons c d cs ds hc _ ih =>
    rw [mixedValue, prod_cons]
    calc c * ds.prod + mixedValue ds cs < c * ds.prod + ds.prod := Nat.add_lt_add_left ih _
      _ = (c + 1) * ds.prod := (succ_mul c ds.prod).symm
      _ ≤ d * ds.prod := Nat.mul_le_mul_right _ hc

theorem mixedValue_mixedDigits (hr : r < ds.prod) (hds : ∀ d ∈ ds, 0 < d) :
    mixedValue ds (mixedDigits ds r) = r := by
  induction ds generalizing r with
  | nil => exact (lt_one_iff.1 hr).symm
  | cons d ds ih =>
    have hpos : 0 < ds.prod := prod_pos fun d hd => hds d (mem_cons_of_mem _ hd)
    rw [mixedDigits, mixedValue, ih (mod_lt r hpos) fun d hd =>
      hds d (mem_cons_of_mem _ hd)]
    exact div_add_mod' r ds.prod

theorem mixedDigits_mixedValue (h : Digits ds cs) : mixedDigits ds (mixedValue ds cs) = cs := by
  induction h with
  | nil => rfl
  | @cons c d cs ds hc h ih =>
    have hlt := mixedValue_lt h
    have hpos : 0 < ds.prod := (Nat.zero_le _).trans_lt hlt
    rw [mixedValue, mixedDigits, Nat.mul_comm c, mul_add_div hpos, div_eq_of_lt hlt,
      Nat.add_zero, mul_add_mod, mod_eq_of_lt hlt, ih]

theorem prod_drop_dvd (ds : List ℕ) (i : ℕ) : (ds.drop i).prod ∣ ds.prod :=
  ⟨(ds.take i).prod, by rw [Nat.mul_comm, prod_take_mul_prod_drop]⟩

theorem getElem?_mixedDigits (hr : r < ds.prod) (hds : ∀ d ∈ ds, 0 < d) (hi : i < ds.length) :
    (mixedDigits ds r)[i]? = some (r % (ds.drop i).prod / (ds.drop (i + 1)).prod) := by
  induction ds generalizing r i with
  | nil => exact absurd hi (Nat.not_lt_zero i)
  | cons d ds ih =>
    have hpos : 0 < ds.prod := prod_pos fun d hd => hds d (mem_cons_of_mem _ hd)
    rw [mixedDigits]
    cases i with
    | zero =>
      rw [getElem?_cons_zero, drop_zero, mod_eq_of_lt hr, drop_succ_cons, drop_zero]
    | succ i =>
      rw [getElem?_cons_succ, ih (mod_lt r hpos) (fun d hd =>
        hds d (mem_cons_of_mem _ hd)) (lt_of_succ_lt_succ hi),
        mod_mod_of_dvd r (prod_drop_dvd ds i)]
      rfl

theorem Digits.getElem?_lt {d : ℕ} (h : Digits ds cs) (hc : cs[i]? = some c)
    (hd : ds[i]? = some d) : c < d := by
  induction h generalizing i with
  | nil => exact nomatch hc
  | cons hlt _ ih =>
    cases i with
    | zero =>
      obtain rfl := Option.some.inj hc
      obtain rfl := Option.some.inj hd
      exact hlt
    | succ i => exact ih hc hd

theorem Digits.set {d : ℕ} (h : Digits ds cs) (hd : ds[i]? = some d) (hlt : c < d) :
    Digits ds (cs.set i c) := by
  induction h generalizing i with
  | nil => exact .nil
  | cons hlt₀ h ih =>
    cases i with
    | zero =>
      obtain rfl := Option.some.inj hd
      exact .cons hlt h
    | succ i => exact .cons hlt₀ (ih hd)

theorem mixedValue_set (h : Digits ds cs) (hc : cs[i]? = some c) (c' : ℕ) :
    mixedValue ds (cs.set i c') + c * (ds.drop (i + 1)).prod =
      mixedValue ds cs + c' * (ds.drop (i + 1)).prod := by
  induction h generalizing i with
  | nil => exact nomatch hc
  | @cons c₀ d cs ds _ _ ih =>
    cases i with
    | zero =>
      obtain rfl := Option.some.inj hc
      rw [set_cons_zero, mixedValue, mixedValue, drop_succ_cons, drop_zero]
      omega
    | succ i =>
      have hrest := ih (i := i) hc
      rw [set_cons_succ, mixedValue, mixedValue, drop_succ_cons]
      omega

end MixedRadix

end Ulfm
