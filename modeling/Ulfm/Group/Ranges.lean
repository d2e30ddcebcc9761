import Ulfm.Group.Algebra

/-!
# Ranges of ranks

The loops over a triplet go through the ranks that it stands for, provided that the stride has the
right sign and that the first number behind the last rank is an `int`. The functions that take
ranges are then those that take a list of ranks.
-/

namespace Ulfm

open List Int

namespace Triplet

variable {t : Triplet} {σ : Type}

/-- The stride leads to the last rank, and the loop can leave the range. -/
structure Leads (t : Triplet) : Prop where
  up : t.first < t.last → 0 < t.stride ∧ t.first + t.expanded.length * t.stride < 2 ^ 31
  down : t.last < t.first → t.stride < 0 ∧ -2 ^ 31 ≤ t.first + t.expanded.length * t.stride

end Triplet

namespace Group

section Loops

variable {ranges : List Triplet} {σ : Type}

end Loops

variable {P : Type} [DecidableEq P] {ranges : List Triplet} {g : Group P} {ptr : ℕ}
  {sparse : Bool} {before : ℤ}

end Group

end Ulfm
