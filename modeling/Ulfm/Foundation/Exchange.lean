import Mathlib.Algebra.Order.Ring.Nat
import Ulfm.Foundation.Buffer
import Ulfm.Foundation.Script

/-!
# Blocks exchanged in rounds

A buffer is cut into places for blocks of equal length, and a cell is `none` until it is
written. In a round every process sends the blocks at consecutive places to one process, and
writes those that it receives from another one to consecutive places. A schedule says which
blocks are where before each round.
-/

namespace Ulfm

open List Option Script Nat

variable {E : Type}

section Blocks

variable {rc s count : ℕ} {data : ℕ → ℕ → E} {place : ℕ → Option ℕ} {blk : ℕ → ℕ}
  {buf : Buf (Option E)}

/-- What has been written to all the cells. -/
def readAll : List (Option E) → Option (List E)
  | [] => some []
  | none :: _ => none
  | some x :: l => (readAll l).map (x :: ·)

theorem readAll_map_some (l : List E) : readAll (l.map some) = some l := by
  induction l with
  | nil => rfl
  | cons x l ih => rw [map_cons, readAll, ih, map_some]

def Laid (rc : ℕ) (data : ℕ → ℕ → E) (place : ℕ → Option ℕ) (buf : Buf (Option E)) : Prop :=
  ∀ s b, place s = some b → ∀ k < rc, buf (s * rc + k) = some (data b k)

theorem Laid.mono {place' : ℕ → Option ℕ} (h : Laid rc data place buf)
    (hplace : ∀ s b, place' s = some b → place s = some b) : Laid rc data place' buf :=
  fun s b hb => h s b (hplace s b hb)

def blocksMsg (rc : ℕ) (data : ℕ → ℕ → E) (blk : ℕ → ℕ) (count : ℕ) : List E :=
  (range (count * rc)).map fun j => data (blk (j / rc)) (j % rc)

@[simp]
theorem length_blocksMsg : (blocksMsg rc data blk count).length = count * rc := by
  rw [blocksMsg, length_map, length_range]

theorem getElem?_blocksMsg {i k : ℕ} (hi : i < count) (hk : k < rc) :
    (blocksMsg rc data blk count)[i * rc + k]? = some (data (blk i) k) := by
  have hlt : i * rc + k < count * rc := by
    calc i * rc + k < i * rc + rc := Nat.add_lt_add_left hk _
      _ = (i + 1) * rc := (succ_mul i rc).symm
      _ ≤ count * rc := Nat.mul_le_mul_right rc hi
  have hdiv : (i * rc + k) / rc = i := by
    rw [Nat.mul_comm, mul_add_div (zero_lt_of_lt hk), div_eq_of_lt hk, Nat.add_zero]
  have hmod : (i * rc + k) % rc = k := by
    rw [Nat.mul_comm, mul_add_mod, mod_eq_of_lt hk]
  rw [blocksMsg, getElem?_map, getElem?_range hlt, map_some, hdiv, hmod]

theorem Laid.read (h : Laid rc data place buf)
    (hplace : ∀ i < count, place (s + i) = some (blk i)) :
    slice buf (s * rc) (count * rc) = (blocksMsg rc data blk count).map some := by
  rw [slice, range'_eq_map_range, List.map_map, blocksMsg, List.map_map]
  apply map_congr_left
  intro j hj
  have hj : j < rc * count := by
    rw [Nat.mul_comm]
    exact mem_range.1 hj
  have hpos : 0 < rc := Nat.pos_of_mul_pos_right (zero_lt_of_lt hj)
  have hcell := h (s + j / rc) _ (hplace _ (Nat.div_lt_of_lt_mul hj)) (j % rc) (mod_lt j hpos)
  rw [Nat.add_mul, Nat.add_assoc, div_add_mod'] at hcell
  exact hcell

theorem Laid.write (h : Laid rc data place buf) :
    Laid rc data (fun t => if s ≤ t ∧ t < s + count then some (blk (t - s)) else place t)
      (blit buf (s * rc) ((blocksMsg rc data blk count).map some)) := by
  intro t b hb k hk
  dsimp only at hb
  split_ifs at hb with hin
  · obtain ⟨hle, hlt⟩ := hin
    obtain rfl := Option.some.inj hb
    have hoff : s * rc ≤ t * rc + k := (Nat.mul_le_mul_right rc hle).trans (Nat.le_add_right _ _)
    have hsub : t * rc + k - s * rc = (t - s) * rc + k := by
      rw [Nat.sub_mul, Nat.sub_add_comm (Nat.mul_le_mul_right rc hle)]
    rw [blit, if_pos hoff, hsub, getElem?_map, getElem?_blocksMsg (by omega) hk,
      map_some, getD_some]
  · rcases Nat.lt_or_ge t s with hlt | hge
    · rw [blit_of_lt]
      · exact h t b hb k hk
      · calc t * rc + k < t * rc + rc := Nat.add_lt_add_left hk _
          _ = (t + 1) * rc := (succ_mul t rc).symm
          _ ≤ s * rc := Nat.mul_le_mul_right rc hlt
    · have hge' : s + count ≤ t := not_lt.1 fun hlt => hin ⟨hge, hlt⟩
      rw [blit_of_ge]
      · exact h t b hb k hk
      · rw [length_map, length_blocksMsg, ← Nat.add_mul]
        exact (Nat.mul_le_mul_right rc hge').trans (Nat.le_add_right _ _)

end Blocks

/-- What the processes send and receive in the rounds, and which block is at which place before
them. -/
structure Schedule where
  dest : ℕ → ℕ → ℕ
  source : ℕ → ℕ → ℕ
  /-- The first place that is sent. -/
  first : ℕ → ℕ → ℕ
  /-- The first place that is received. -/
  into : ℕ → ℕ → ℕ
  count : ℕ → ℕ
  /-- The blocks that are sent. -/
  blk : ℕ → ℕ → ℕ → ℕ
  place : ℕ → ℕ → ℕ → Option ℕ

namespace Schedule

variable (S : Schedule) {n T p t : ℕ}

/-- Every message is sent when its blocks are there, and is received. -/
structure Valid (n T : ℕ) : Prop where
  dest_lt : ∀ p < n, ∀ t < T, S.dest p t < n
  source_lt : ∀ p < n, ∀ t < T, S.source p t < n
  matched : ∀ p < n, ∀ q < n, ∀ t < T, S.dest p t = q ↔ S.source q t = p
  sends : ∀ p < n, ∀ t < T, ∀ i < S.count t, S.place p t (S.first p t + i) = some (S.blk p t i)
  receives : ∀ p < n, ∀ t < T, ∀ s, S.place p (t + 1) s =
    if S.into p t ≤ s ∧ s < S.into p t + S.count t then
      some (S.blk (S.source p t) t (s - S.into p t))
    else S.place p t s

def msg (rc : ℕ) (data : ℕ → ℕ → E) (p t : ℕ) : List E := blocksMsg rc data (S.blk p t) (S.count t)

def events (rc : ℕ) (data : ℕ → ℕ → E) (p t : ℕ) : List (Event (List E)) :=
  roundEvents (some (S.dest p t, S.msg rc data p t))
    (some (S.source p t, S.msg rc data (S.source p t) t))

variable {S} {rc : ℕ} {data : ℕ → ℕ → E}

theorem Valid.computes (hS : S.Valid n T) {α : Type} [Nonempty α] {prog : ℕ → Script (List E) α}
    {P : ℕ → α → Prop} (hprog : ∀ p < n, ∃ out, P p out ∧
      Follows (prog p) ((range' 0 T).flatMap (S.events rc data p)) out) :
    ∃ out, Computes n prog out ∧ ∀ p < n, P p (out p) := by
  choose! out hout hfollows using hprog
  refine ⟨out, ?_, hout⟩
  apply computes_of_rounds T (fun p t => some (S.dest p t, S.msg rc data p t))
    (fun p t => some (S.source p t, S.msg rc data (S.source p t) t)) hfollows
  · intro p hp t ht dst msg heq
    obtain ⟨rfl, -⟩ := Prod.mk.inj (Option.some.inj heq)
    exact hS.dest_lt p hp t ht
  · intro p hp t ht src msg heq
    obtain ⟨rfl, -⟩ := Prod.mk.inj (Option.some.inj heq)
    exact hS.source_lt p hp t ht
  · intro p hp q hq t ht msg
    rw [Option.some.injEq, Option.some.injEq, Prod.mk.injEq, Prod.mk.injEq,
      hS.matched p hp q hq t ht]
    constructor
    · rintro ⟨rfl, hmsg⟩
      exact ⟨rfl, hmsg⟩
    · rintro ⟨rfl, hmsg⟩
      exact ⟨rfl, hmsg⟩

section

variable (hS : S.Valid n T) (hp : p < n) (ht : t < T) {buf : Buf (Option E)}
  (h : Laid rc data (S.place p t) buf)
include hS hp ht h

theorem Valid.receive : Laid rc data (S.place p (t + 1))
      (blit buf (S.into p t * rc) ((S.msg rc data (S.source p t) t).map some)) := by
  have hplace : S.place p (t + 1) = fun s => if S.into p t ≤ s ∧ s < S.into p t + S.count t then
      some (S.blk (S.source p t) t (s - S.into p t)) else S.place p t s :=
    funext (hS.receives p hp t ht)
  rw [hplace]
  exact h.write

theorem Valid.send :
    readAll (slice buf (S.first p t * rc) (S.count t * rc)) = some (S.msg rc data p t) := by
  rw [h.read (hS.sends p hp t ht)]
  exact readAll_map_some _

end

end Schedule

section Allocate

variable {M : Type} {d : Layout} {start size : ℤ} {count : ℕ}

/-- Memory is allocated for `count` elements, of which the first one begins at `start`, and they are
written to it. A negative size is one that is too large, and what is written outside of the memory
is undefined. -/
def allocate (d : Layout) (start size : ℤ) (count : ℕ) : Script M Unit :=
  if size < 0 then error else if d.Inside start size count then pure () else fault

theorem allocate_eq (h : 0 ≤ size ∧ d.Inside start size count) :
    (allocate d start size count : Script M Unit) = pure () := by
  rw [allocate, if_neg h.1.not_gt, if_pos h.2]

theorem neverReturns_allocate (h : ¬(0 ≤ size ∧ d.Inside start size count)) :
    NeverReturns (allocate d start size count : Script M Unit) := by
  rw [allocate]
  split_ifs with hsize hinside
  · trivial
  · exact h ⟨not_lt.1 hsize, hinside⟩
  · trivial

end Allocate

section Doubling

variable {M σ : Type}

/-- A loop `for (distance = 1; distance < size; distance <<= 1)`. -/
def forDoubling (size : ℕ) (body : ℕ → σ → Script M σ) : ℕ → ℕ → σ → Script M σ
  | 0, _, _ => fault
  | fuel + 1, distance, st =>
    if distance < size then do
      let st ← body distance st
      forDoubling size body fuel (distance <<< 1) st
    else pure st

theorem follows_forDoubling {size T fuel : ℕ} {body : ℕ → σ → Script M σ}
    (trace : ℕ → List (Event M)) (Inv : ℕ → σ → Prop) (hsize : ∀ t, t < T ↔ 2 ^ t < size)
    (hbody : ∀ t st, t < T → Inv t st →
      ∃ st', Follows (body (2 ^ t) st) (trace t) st' ∧ Inv (t + 1) st')
    (hfuel : T < fuel) (st : σ) (hst : Inv 0 st) :
    ∃ st', Follows (forDoubling size body fuel 1 st) ((range' 0 T).flatMap trace) st' ∧
      Inv T st' := by
  have hloop : ∀ d t fuel st, t + d = T → d < fuel → Inv t st →
      ∃ st', Follows (forDoubling size body fuel (2 ^ t) st) ((List.range' t d).flatMap trace) st' ∧
        Inv T st' := by
    intro d
    induction d with
    | zero =>
      intro t fuel st ht hfuel hst
      obtain ⟨fuel, rfl⟩ := exists_eq_succ_of_ne_zero hfuel.ne'
      have hge : ¬2 ^ t < size := fun hlt => absurd ((hsize t).2 hlt) (by omega)
      refine ⟨st, ?_, ht ▸ hst⟩
      rw [forDoubling, if_neg hge]
      exact follows_pure st
    | succ d ih =>
      intro t fuel st ht hfuel hst
      obtain ⟨fuel, rfl⟩ := exists_eq_succ_of_ne_zero (Nat.ne_zero_of_lt hfuel)
      have hlt : t < T := by omega
      obtain ⟨st₁, hfirst, hinv⟩ := hbody t st hlt hst
      obtain ⟨st₂, hrest, hend⟩ := ih (t + 1) fuel st₁ (by omega) (by omega) hinv
      refine ⟨st₂, ?_, hend⟩
      rw [forDoubling, if_pos ((hsize t).1 hlt), range'_succ, flatMap_cons,
        shiftLeft_eq, pow_one, ← pow_succ]
      exact hfirst.bind hrest
  exact hloop T 0 fuel st (Nat.zero_add T) hfuel hst

end Doubling

variable {M : Type}

theorem neverReturns_forDoubling {σ : Type} {size t : ℕ} {body : ℕ → σ → Script M σ}
    (ht : 2 ^ t < size) (h : ∀ st, NeverReturns (body (2 ^ t) st)) (fuel : ℕ) (st : σ) :
    NeverReturns (forDoubling size body fuel 1 st) := by
  have hloop : ∀ d i fuel st, i + d = t → NeverReturns (forDoubling size body fuel (2 ^ i) st) := by
    intro d
    induction d with
    | zero =>
      rintro i (_ | fuel) st rfl
      · trivial
      · rw [Nat.add_zero] at ht h
        rw [forDoubling, if_pos ht]
        exact (h st).bind_left _
    | succ d ih =>
      rintro i (_ | fuel) st hi
      · trivial
      · have hlt : 2 ^ i < size := (Nat.pow_le_pow_right Nat.two_pos (by omega)).trans_lt ht
        rw [forDoubling, if_pos hlt, shiftLeft_eq, pow_one, ← pow_succ]
        exact neverReturns_bind _ fun st => ih (i + 1) fuel st (by omega)
  exact hloop t 0 fuel st (Nat.zero_add t)

end Ulfm
