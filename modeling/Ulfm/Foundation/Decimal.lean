import Mathlib.Data.List.Basic
import Mathlib.Algebra.Order.Ring.Nat

/-!
# Numbers with leading zeros

A number in decimal, with zeros in front up to a length. A text of digits is the number that it
stands for, written with as many digits.
-/

namespace Ulfm

open List Nat

section Decimal

variable {ds es : List Char} {k n : ℕ}

/-- The number that a text of digits stands for. -/
def numeral (ds : List Char) : ℕ := Nat.ofDigitChars 10 ds 0

def padded (k n : ℕ) : List Char :=
  replicate (k - (Nat.toDigits 10 n).length) '0' ++ Nat.toDigits 10 n

theorem numeral_cons (c : Char) (ds : List Char) :
    numeral (c :: ds) = 10 ^ ds.length * (c.toNat - '0'.toNat) + numeral ds := by
  rw [numeral, ofDigitChars_cons, ofDigitChars_eq_ofDigitChars_zero, numeral,
    Nat.mul_zero, Nat.zero_add]

theorem digit_value {c : Char} (h : c.isDigit = true) : 48 ≤ c.toNat ∧ c.toNat < 58 := by
  have hc := Char.isDigit_iff_toNat.1 h
  exact ⟨hc.1, lt_succ_of_le hc.2⟩

theorem numeral_lt (h : ∀ c ∈ ds, c.isDigit = true) : numeral ds < 10 ^ ds.length := by
  induction ds with
  | nil => exact Nat.one_pos
  | cons c ds ih =>
    have hlt := ih fun x hx => h x (mem_cons_of_mem _ hx)
    have hc := digit_value (h c mem_cons_self)
    have hdigit : c.toNat - '0'.toNat ≤ 9 := by
      change c.toNat - 48 ≤ 9
      omega
    calc numeral (c :: ds) = 10 ^ ds.length * (c.toNat - '0'.toNat) + numeral ds :=
          numeral_cons c ds
      _ < 10 ^ ds.length * 9 + 10 ^ ds.length :=
          Nat.add_lt_add_of_le_of_lt (Nat.mul_le_mul_left _ hdigit) hlt
      _ = 10 ^ (ds.length + 1) := by rw [Nat.pow_succ]; omega

theorem eq_of_numeral (hds : ∀ c ∈ ds, c.isDigit = true) (hes : ∀ c ∈ es, c.isDigit = true)
    (hlen : ds.length = es.length) (h : numeral ds = numeral es) : ds = es := by
  induction ds generalizing es with
  | nil => exact (eq_nil_of_length_eq_zero hlen.symm).symm
  | cons c ds ih =>
    cases es with
    | nil => exact nomatch hlen
    | cons e es =>
      have hlen' : ds.length = es.length := succ.inj hlen
      have hds' : ∀ x ∈ ds, x.isDigit = true := fun x hx => hds x (mem_cons_of_mem _ hx)
      have hes' : ∀ x ∈ es, x.isDigit = true := fun x hx => hes x (mem_cons_of_mem _ hx)
      have hd := numeral_lt hds'
      have he := numeral_lt hes'
      rw [numeral_cons, numeral_cons, hlen'] at h
      rw [hlen'] at hd
      have hhead : c.toNat - '0'.toNat = e.toNat - '0'.toNat := by
        have hdiv := congrArg (· / 10 ^ es.length) h
        simpa only [mul_add_div (Nat.pow_pos (succ_pos 9)), div_eq_of_lt hd,
          div_eq_of_lt he, Nat.add_zero] using hdiv
      have hc := digit_value (hds c mem_cons_self)
      have hE := digit_value (hes e mem_cons_self)
      have hchar : c = e := by
        apply Char.toNat_inj.1
        change c.toNat - 48 = e.toNat - 48 at hhead
        omega
      rw [hhead] at h
      rw [hchar, ih hds' hes' hlen' (Nat.add_left_cancel h)]

theorem isDigit_toDigits {c : Char} (h : c ∈ Nat.toDigits 10 n) : c.isDigit = true :=
  isDigit_of_mem_toDigits (succ_pos 9) (Nat.le_refl 10) h

theorem numeral_toDigits (n : ℕ) : numeral (Nat.toDigits 10 n) = n := ofDigitChars_ten_toDigits

theorem isDigit_padded {c : Char} (h : c ∈ padded k n) : c.isDigit = true := by
  rcases mem_append.1 h with h | h
  · rw [eq_of_mem_replicate h]
    rfl
  · exact isDigit_toDigits h

theorem numeral_padded (k n : ℕ) : numeral (padded k n) = n := by
  rw [numeral, padded, ofDigitChars_append, ofDigitChars_replicate_zero, Nat.mul_zero]
  exact ofDigitChars_ten_toDigits

theorem length_toDigits_le (hk : 0 < k) : (Nat.toDigits 10 n).length ≤ k ↔ n < 10 ^ k :=
  length_toDigits_le_iff (by decide) hk

theorem length_padded (hk : 0 < k) (h : n < 10 ^ k) : (padded k n).length = k := by
  have hle := (length_toDigits_le hk).2 h
  rw [padded, length_append, length_replicate]
  omega

theorem padded_numeral (hds : ∀ c ∈ ds, c.isDigit = true) (hne : ds ≠ []) :
    padded ds.length (numeral ds) = ds := by
  apply eq_of_numeral (fun c hc => isDigit_padded hc) hds
  · exact length_padded (length_pos_iff.2 hne) (numeral_lt hds)
  · exact numeral_padded _ _

theorem toDigits_numeral_iff (hds : ∀ c ∈ ds, c.isDigit = true) (hne : ds ≠ []) :
    Nat.toDigits 10 (numeral ds) = ds ↔ ds = ['0'] ∨ ds.head? ≠ some '0' := by
  have hle : (toDigits 10 (numeral ds)).length ≤ ds.length :=
    (length_toDigits_le (length_pos_iff.2 hne)).2 (numeral_lt hds)
  cases ds with
  | nil => exact absurd rfl hne
  | cons c ds =>
    have hds' : ∀ x ∈ ds, x.isDigit = true := fun x hx => hds x (mem_cons_of_mem _ hx)
    constructor
    · intro h
      by_cases hc : c = '0'
      · left
        subst hc
        -- a zero in front makes the number shorter
        cases ds with
        | nil => rfl
        | cons e es =>
          have hsmall : numeral ('0' :: e :: es) < 10 ^ (e :: es).length := by
            rw [numeral_cons, Nat.sub_self, Nat.mul_zero, Nat.zero_add]
            exact numeral_lt hds'
          have hlen := (length_toDigits_le (succ_pos _)).2 hsmall
          rw [h] at hlen
          exact absurd hlen (not_succ_le_self _)
      · exact .inr fun hhead => hc (Option.some.inj hhead)
    · intro h
      apply eq_of_numeral (fun c hc => isDigit_toDigits hc) hds
      · apply Nat.le_antisymm hle
        by_contra hlt
        rcases h with h | h
        · obtain ⟨rfl, rfl⟩ := List.cons.inj h
          exact hlt (length_toDigits_pos)
        · have hpos : 0 < ds.length := by
            apply Nat.pos_of_ne_zero
            intro hzero
            rw [length_cons, hzero] at hlt
            exact hlt length_toDigits_pos
          have hsmall : numeral (c :: ds) < 10 ^ ds.length := by
            rw [← length_toDigits_le hpos]
            rw [length_cons] at hlt
            omega
          have hc := digit_value (hds c mem_cons_self)
          have hpow : 0 < 10 ^ ds.length := Nat.pow_pos (succ_pos 9)
          rw [numeral_cons] at hsmall
          have hzero : c.toNat - '0'.toNat = 0 := by
            by_contra hne'
            have := Nat.mul_le_mul_left (10 ^ ds.length) (one_le_iff_ne_zero.2 hne')
            omega
          apply h
          have hchar : c = '0' := by
            apply Char.toNat_inj.1
            change c.toNat - 48 = 0 at hzero
            change c.toNat = 48
            omega
          rw [hchar]
          rfl
      · exact numeral_toDigits _

end Decimal

end Ulfm
