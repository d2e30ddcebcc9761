import Mathlib.Data.List.Basic

/-!
# Outcomes of computations that may fail

`Outcome E Q x` says that the computation `x` either returns a value that
satisfies `Q` or raises an error that satisfies `E`. With `E` constantly false
this is total correctness; with a weaker `E` it says which errors remain
possible.
-/

namespace Ulfm

open List Option

variable {ε α β : Type}

/-- `x` returns a value of `Q` or raises an error of `E`. -/
def Outcome (E : ε → Prop) (Q : α → Prop) : Except ε α → Prop
  | .ok a => Q a
  | .error e => E e

@[simp] theorem ok_bind (a : α) (f : α → Except ε β) : (Except.ok a >>= f) = f a := rfl

namespace Outcome

variable {E E' : ε → Prop} {Q Q' : α → Prop} {R : β → Prop} {x : Except ε α}

@[simp] theorem ok_iff {a : α} : Outcome E Q (.ok a) ↔ Q a := Iff.rfl

@[simp] theorem error_iff {e : ε} : Outcome E Q (.error e) ↔ E e := Iff.rfl

@[simp] theorem pure_iff {a : α} : Outcome E Q (pure a) ↔ Q a := Iff.rfl

@[simp] theorem throw_iff {e : ε} : Outcome E Q (throw e) ↔ E e := Iff.rfl

theorem bind {f : α → Except ε β} (h : Outcome E Q x) (hf : ∀ a, Q a → Outcome E R (f a)) :
    Outcome E R (x >>= f) := by
  cases x with
  | error e => exact h
  | ok a => exact hf a h

theorem imp (h : Outcome E Q x) (hE : ∀ e, E e → E' e) (hQ : ∀ a, Q a → Q' a) :
    Outcome E' Q' x := by
  cases x with
  | error e => exact hE e h
  | ok a => exact hQ a h

theorem raised (h : Outcome E Q x) {e : ε} (hx : x = .error e) : E e := by
  subst hx
  exact h

end Outcome

section MapM

variable {f : α → Option β} {f' : α → β} {l : List α}

theorem mapM_eq_some_map (h : ∀ a ∈ l, f a = some (f' a)) : l.mapM f = some (l.map f') := by
  induction l with
  | nil => rfl
  | cons a l ih =>
    rw [mapM_cons, h a mem_cons_self, ih fun b hb => h b (mem_cons_of_mem a hb)]
    rfl

theorem exists_of_mem_mapM {bs : List β} {b : β} (h : l.mapM f = some bs) (hb : b ∈ bs) :
    ∃ a ∈ l, f a = some b := by
  induction l generalizing bs with
  | nil =>
    obtain rfl := Option.some.inj h
    exact nomatch hb
  | cons a l ih =>
    rw [mapM_cons] at h
    obtain ⟨c, ha, h⟩ := bind_eq_some_iff.1 h
    obtain ⟨cs, hl, h⟩ := bind_eq_some_iff.1 h
    obtain rfl := Option.some.inj h
    rcases mem_cons.1 hb with rfl | hb
    · exact ⟨a, mem_cons_self, ha⟩
    · obtain ⟨x, hx, hfx⟩ := ih hl hb
      exact ⟨x, mem_cons_of_mem _ hx, hfx⟩

end MapM

end Ulfm
