import Ulfm.Foundation.RankTree

/-!
# Consensus on a repairable tree

The protocol behind a tree agreement with crashes. Every process gathers the
contributions of its children and passes them up; the root decides and the
decision travels down. A process repairs the tree for the failures it knows
about, so processes work on different trees, and a process that becomes the root
asks its children for a decision that may already exist.

The state keeps the history of the messages rather than the messages in flight:
`up c w S` says that `c` once sent the contributions of `S` to `w`. What a move
may do is restricted only by what the mover knows, never by the order in which
the messages arrive.

* `Cover` is the part of the invariant that gives validity: a root decides only
  when the contributions of all survivors have reached it.
* `Agree` adds what gives agreement, for the runs in which no process accepts a
  decision of a process it knows to have failed.
-/

namespace Ulfm

open List Function Option Finset Relation RankTree

/-- The state of the protocol for one agreement. `dead` lists the crashed
processes in the order of the crashes. -/
structure ConsensusState (V : Type*) where
  dead : List ℕ
  failed : ℕ → Set ℕ
  acc : ℕ → Finset ℕ
  heard : ℕ → Set ℕ
  up : ℕ → ℕ → Finset ℕ → Prop
  ask : ℕ → ℕ → Prop
  down : ℕ → ℕ → V → Prop
  dec : ℕ → Option V
  settled : V → Set ℕ → Finset ℕ → Prop

namespace ConsensusState

variable {V : Type*}

/-- Nothing has happened, except that the processes of `dead` are known by all
to have failed. -/
def init (dead : List ℕ) : ConsensusState V where
  dead := dead
  failed _ := {q | q ∈ dead}
  acc _ := ∅
  heard _ := ∅
  up _ _ _ := False
  ask _ _ := False
  down _ _ _ := False
  dec _ := none
  settled _ _ _ := False

/-- The processes that crashed while `p` was alive. -/
def deadBefore (dead : List ℕ) (p : ℕ) : List ℕ := dead.takeWhile (· ≠ p)

/-- The moves of the protocol. `void` holds of the values that a process may
make up as an answer without having decided; with `strict`, no value is made up
and no decision of a process known to have failed is accepted. -/
inductive Move (T : RankTree) (void : V → Prop) (strict : Prop) :
    ConsensusState V → ConsensusState V → Prop
  | crash {s} (p : ℕ) (hp : p ∉ s.dead) : Move T void strict s { s with dead := s.dead ++ [p] }
  | notify {s} (p q : ℕ) (hp : p ∉ s.dead) (hq : q ∈ s.dead) : Move T void strict s
        { s with failed := update s.failed p (insert q (s.failed p)) }
  | join {s} (p : ℕ) (hp : p ∉ s.dead) (hm : p ∈ T.mem) : Move T void strict s
        { s with acc := update s.acc p (insert p (s.acc p)) }
  | hear {s} (p c : ℕ) (S : Finset ℕ) (hp : p ∉ s.dead) (hup : s.up c p S) : Move T void strict s
        { s with
          acc := update s.acc p (S ∪ s.acc p)
          heard := update s.heard p (insert c (s.heard p)) }
  | sendUp {s} (p w : ℕ) (hp : p ∉ s.dead) (hm : p ∈ T.mem) (hdec : s.dec p = none)
      (hacc : p ∈ s.acc p) (hpar : T.IsParent (s.failed p) p w) (hw : w ≠ p)
      (hkids : (∃ w' S, s.up p w' S) ∨ ∀ c, T.IsChild (s.failed p) p c → c ∈ s.heard p) :
      Move T void strict s { s with up := fun c w' S => s.up c w' S ∨ c = p ∧ w' = w ∧ S = s.acc p }
  | sendAsk {s} (x h : ℕ) (hx : x ∉ s.dead) (hm : x ∈ T.mem)
      (hroot : T.IsRoot (s.failed x) x) (hh : T.IsChild (s.failed x) x h) :
      Move T void strict s { s with ask := fun x' h' => s.ask x' h' ∨ x' = x ∧ h' = h }
  | settle {s} (x : ℕ) (v : V) (hx : x ∉ s.dead) (hm : x ∈ T.mem) (hdec : s.dec x = none)
      (hacc : x ∈ s.acc x) (hroot : T.IsRoot (s.failed x) x)
      (hkids : ∀ c, T.IsChild (s.failed x) x c → c ∈ s.heard x) :
      Move T void strict s { s with
          dec := update s.dec x (some v)
          settled := fun v' A S =>
            s.settled v' A S ∨ v' = v ∧ A = {q | q ∈ T.mem ∧ q ∉ s.dead} ∧ S = s.acc x }
  | sendDown {s} (h y : ℕ) (v : V) (hh : h ∉ s.dead) (hv : s.dec h = some v)
      (hy : T.IsChild (s.failed h) h y ∨ (∃ S, s.up y h S) ∨ s.ask y h) :
      Move T void strict s
        { s with down := fun h' y' v' => s.down h' y' v' ∨ h' = h ∧ y' = y ∧ v' = v }
  | makeUp {s} (h y : ℕ) (v : V) (hs : ¬ strict) (hv : void v) : Move T void strict s
        { s with down := fun h' y' v' => s.down h' y' v' ∨ h' = h ∧ y' = y ∧ v' = v }
  | accept {s} (y h : ℕ) (v : V) (hy : y ∉ s.dead) (hdec : s.dec y = none)
      (hdown : s.down h y v) (hlate : strict → h ∉ s.failed y) :
      Move T void strict s { s with dec := update s.dec y (some v) }

/-! ### Crash order -/

variable {T : RankTree} {void : V → Prop} {strict : Prop} {s s' : ConsensusState V}

theorem deadBefore_subset (dead : List ℕ) (p : ℕ) : deadBefore dead p ⊆ dead :=
  (takeWhile_sublist _).subset

theorem deadBefore_asymm {dead : List ℕ} {p q : ℕ} (h : p ∈ deadBefore dead q) :
    q ∉ deadBefore dead p :=
  not_mem_takeWhile_ne_symm h

theorem deadBefore_eq_dead {dead : List ℕ} {p : ℕ} (hp : p ∉ dead) : deadBefore dead p = dead := by
  have h := @takeWhile_ne_append_of_notMem _ _ dead [] p hp
  simpa [deadBefore] using h

theorem mem_deadBefore_append {dead : List ℕ} {p q r : ℕ} (h : q ∈ deadBefore dead p) :
    q ∈ deadBefore (dead ++ [r]) p := by
  rw [deadBefore] at h ⊢
  by_cases hp : p ∈ dead
  · rwa [takeWhile_ne_append_of_mem hp]
  · rw [takeWhile_ne_append_of_notMem hp]
    exact mem_append_left _ ((takeWhile_sublist _).subset h)

theorem dec_update {dec : ℕ → Option V} {p q : ℕ} {u v : V} (hq : dec q = none)
    (hv : dec p = some v) : update dec q (some u) p = some v := by
  have hpq : p ≠ q := by
    rintro rfl
    simp [hq] at hv
  rw [update_of_ne hpq, hv]

theorem Move.dec_eq_some (h : Move T void strict s s') {p : ℕ} {v : V}
    (hv : s.dec p = some v) : s'.dec p = some v := by
  cases h with
  | settle x v' hx hm hdec hacc hroot hkids | accept y r v' hy hdec hdown hlate =>
    exact dec_update hdec hv
  | crash | notify | join | hear | sendUp | sendAsk | sendDown | makeUp => exact hv

theorem dec_eq_some_of_moves {p : ℕ} {v : V} (h : ReflTransGen (Move T void strict) s s')
    (hv : s.dec p = some v) : s'.dec p = some v := by
  induction h with
  | refl => exact hv
  | tail _ hstep ih => exact hstep.dec_eq_some ih

/-! ### Validity -/

/-- What holds whichever decisions are accepted. -/
structure Cover (T : RankTree) (void : V → Prop) (s : ConsensusState V) : Prop where
  failed : ∀ p ∈ T.mem, ∀ q ∈ s.failed p, q ∈ deadBefore s.dead p
  up_parent : ∀ c w S, s.up c w S → w ∈ T.above c ∧ w ≠ c ∧ ∀ x ∈ T.before c w, x ∈ s.failed c
  up_mem : ∀ c w S, s.up c w S → c ∈ T.mem
  up_acc : ∀ c w S, s.up c w S → S ⊆ s.acc c
  up_cover : ∀ c w S, s.up c w S → ∀ q ∈ T.mem, q ∉ s.dead → T.Under c q → q ∈ S
  up_link : ∀ w z S, s.up w z S → ∀ q ∈ T.mem, q ∉ s.dead → w ∈ T.ancestors q →
    ∃ c S', s.up c w S' ∧ w ∈ T.ancestors c ∧ T.Under c q
  heard : ∀ p, ∀ c ∈ s.heard p, ∃ S, s.up c p S ∧ S ⊆ s.acc p
  acc_mem : ∀ p, s.acc p ⊆ T.mem
  settled : ∀ v A S, s.settled v A S → A ⊆ S ∧ S ⊆ T.mem
  dec : ∀ y v, s.dec y = some v → void v ∨ ∃ A S, s.settled v A S
  down : ∀ h y v, s.down h y v → void v ∨ s.dec h = some v

theorem cover_init {dead : List ℕ} (h : ∀ q ∈ dead, q ∉ T.mem) : Cover T void (init dead) where
  failed p hp q hq := by
    change q ∈ deadBefore dead p
    rw [deadBefore_eq_dead fun hd => h p hd hp]
    exact hq
  up_parent _ _ _ h := h.elim
  up_mem _ _ _ h := h.elim
  up_acc _ _ _ h := h.elim
  up_cover _ _ _ h := h.elim
  up_link _ _ _ h := h.elim
  heard _ _ h := h.elim
  acc_mem _ := by simp [init]
  settled _ _ _ h := h.elim
  dec _ _ h := by simp [init] at h
  down _ _ _ h := h.elim

namespace Cover

section

variable (h : Cover T void s)
include h

theorem failed_dead {p q : ℕ} (hp : p ∈ T.mem) (hq : q ∈ s.failed p) : q ∈ s.dead :=
  deadBefore_subset s.dead p (h.failed p hp q hq)

/-- A process whose children have all been heard, or that has passed its
contributions up before, holds the contributions of all survivors below it. -/
theorem mem_acc {p q : ℕ} (hm : p ∈ T.mem) (hp : p ∉ s.dead) (hacc : p ∈ s.acc p)
    (hkids : (∃ w' S, s.up p w' S) ∨ ∀ c, T.IsChild (s.failed p) p c → c ∈ s.heard p)
    (hq : q ∈ T.mem) (hqd : q ∉ s.dead) (hu : T.Under p q) : q ∈ s.acc p := by
  rcases hkids with ⟨w', S, hup⟩ | hkids
  · exact h.up_acc _ _ _ hup (h.up_cover _ _ _ hup q hq hqd hu)
  · rcases hu with rfl | hu
    · exact hacc
    · obtain ⟨c, hc, -, hcq⟩ := exists_child_of_ancestor (D := s.failed p) hq
        (fun e => hqd (h.failed_dead hm e)) hu (fun e => hp (h.failed_dead hm e))
      obtain ⟨S, hup, hS⟩ := h.heard p c (hkids c hc)
      exact hS (h.up_cover _ _ _ hup q hq hqd hcq)

theorem mem_acc_of_isRoot {x q : ℕ} (hm : x ∈ T.mem)
    (hacc : x ∈ s.acc x) (hroot : T.IsRoot (s.failed x) x)
    (hkids : ∀ c, T.IsChild (s.failed x) x c → c ∈ s.heard x)
    (hq : q ∈ T.mem) (hqd : q ∉ s.dead) : q ∈ s.acc x := by
  by_cases hqx : q = x
  · exact hqx ▸ hacc
  · obtain ⟨c, hc, hcq⟩ := exists_child_of_isRoot hroot hm hq
      (fun e => hqd (h.failed_dead hm e)) hqx
    obtain ⟨S, hup, hS⟩ := h.heard x c (hkids c hc)
    exact hS (h.up_cover _ _ _ hup q hq hqd hcq)

theorem crash (p : ℕ) : Cover T void { s with dead := s.dead ++ [p] } where
  failed r hr q hq := mem_deadBefore_append (h.failed r hr q hq)
  up_parent := h.up_parent
  up_mem := h.up_mem
  up_acc := h.up_acc
  up_cover c w S hup q hq hqd := h.up_cover c w S hup q hq (by simp at hqd; exact hqd.1)
  up_link w z S hup q hq hqd := h.up_link w z S hup q hq (by simp at hqd; exact hqd.1)
  heard := h.heard
  acc_mem := h.acc_mem
  settled := h.settled
  dec := h.dec
  down := h.down

theorem notify {p q : ℕ} (hp : p ∉ s.dead) (hq : q ∈ s.dead) : Cover T void
      { s with failed := update s.failed p (insert q (s.failed p)) } where
  failed r hr x hx := by
    by_cases hrp : r = p
    · subst hrp
      simp only [update_self] at hx
      rcases hx with rfl | hx
      · exact (deadBefore_eq_dead hp).symm ▸ hq
      · exact h.failed r hr x hx
    · simp only [update_of_ne hrp] at hx
      exact h.failed r hr x hx
  up_parent c w S hup := by
    obtain ⟨h1, h2, h3⟩ := h.up_parent c w S hup
    refine ⟨h1, h2, fun x hx => ?_⟩
    by_cases hcp : c = p
    · subst hcp
      simp only [update_self]
      exact .inr (h3 x hx)
    · simp only [update_of_ne hcp]
      exact h3 x hx
  up_mem := h.up_mem
  up_acc := h.up_acc
  up_cover := h.up_cover
  up_link := h.up_link
  heard := h.heard
  acc_mem := h.acc_mem
  settled := h.settled
  dec := h.dec
  down := h.down

theorem grow {p : ℕ} {S' : Finset ℕ} (hS' : s.acc p ⊆ S')
    (hmem : S' ⊆ T.mem) : Cover T void { s with acc := Function.update s.acc p S' } := by
  have hle : ∀ r, s.acc r ⊆ update s.acc p S' r := by
    intro r
    by_cases hr : r = p
    · subst hr
      simpa only [update_self]
    · simp only [update_of_ne hr, Finset.Subset.refl]
  exact
    { failed := h.failed
      up_parent := h.up_parent
      up_mem := h.up_mem
      up_acc := fun c w S hup => (h.up_acc c w S hup).trans (hle c)
      up_cover := h.up_cover
      up_link := h.up_link
      heard := fun r c hc => by
        obtain ⟨S, hup, hS⟩ := h.heard r c hc
        exact ⟨S, hup, hS.trans (hle r)⟩
      acc_mem := fun r => by
        by_cases hr : r = p
        · subst hr
          simpa using hmem
        · simpa [update_of_ne hr] using h.acc_mem r
      settled := h.settled
      dec := h.dec
      down := h.down }

theorem hear {p c : ℕ} {S : Finset ℕ} (hup : s.up c p S) : Cover T void { s with
        acc := update s.acc p (S ∪ s.acc p)
        heard := update s.heard p (insert c (s.heard p)) } := by
  have hsub : S ∪ s.acc p ⊆ T.mem :=
    union_subset ((h.up_acc c p S hup).trans (h.acc_mem c)) (h.acc_mem p)
  have hg := h.grow subset_union_right hsub
  refine { hg with heard := fun r d hd => ?_ }
  by_cases hr : r = p
  · subst hr
    simp only [update_self] at hd
    rcases hd with rfl | hd
    · exact ⟨S, hup, by simp⟩
    · obtain ⟨S', hup', hS'⟩ := h.heard r d hd
      exact ⟨S', hup', by simpa using hS'.trans subset_union_right⟩
  · simp only [update_of_ne hr] at hd
    exact hg.heard r d hd

theorem sendUp {p w : ℕ} (hp : p ∉ s.dead) (hm : p ∈ T.mem)
    (hacc : p ∈ s.acc p) (hpar : T.IsParent (s.failed p) p w) (hw : w ≠ p)
    (hkids : (∃ w' S, s.up p w' S) ∨ ∀ c, T.IsChild (s.failed p) p c → c ∈ s.heard p) :
    Cover T void { s with up := fun c w' S => s.up c w' S ∨ c = p ∧ w' = w ∧ S = s.acc p } where
  failed := h.failed
  up_parent c w' S hup := by
    rcases hup with hup | ⟨rfl, rfl, rfl⟩
    · exact h.up_parent c w' S hup
    · exact ⟨hpar.mem, hw, hpar.skip⟩
  up_mem c w' S hup := by
    rcases hup with hup | ⟨rfl, rfl, rfl⟩
    · exact h.up_mem c w' S hup
    · exact hm
  up_acc c w' S hup := by
    rcases hup with hup | ⟨rfl, rfl, rfl⟩
    · exact h.up_acc c w' S hup
    · exact Finset.Subset.refl _
  up_cover c w' S hup q hq hqd hu := by
    rcases hup with hup | ⟨rfl, rfl, rfl⟩
    · exact h.up_cover c w' S hup q hq hqd hu
    · exact h.mem_acc hm hp hacc hkids hq hqd hu
  up_link w' z S hup q hq hqd hwq := by
    have old : ∀ z S, s.up w' z S → ∃ c S', (s.up c w' S' ∨ c = p ∧ w' = w ∧ S' = s.acc p) ∧
        w' ∈ T.ancestors c ∧ T.Under c q := by
      intro z S hup
      obtain ⟨c, S', h1, h2, h3⟩ := h.up_link w' z S hup q hq hqd hwq
      exact ⟨c, S', .inl h1, h2, h3⟩
    rcases hup with hup | ⟨rfl, rfl, rfl⟩
    · exact old z S hup
    · rcases hkids with ⟨z', S', hup'⟩ | hkids
      · exact old z' S' hup'
      · obtain ⟨c, hc, hpc, hcq⟩ := exists_child_of_ancestor (D := s.failed w') hq
          (fun e => hqd (h.failed_dead hm e)) hwq (fun e => hp (h.failed_dead hm e))
        obtain ⟨S', hup', -⟩ := h.heard w' c (hkids c hc)
        exact ⟨c, S', .inl hup', hpc, hcq⟩
  heard r c hc := by
    obtain ⟨S, hup, hS⟩ := h.heard r c hc
    exact ⟨S, .inl hup, hS⟩
  acc_mem := h.acc_mem
  settled := h.settled
  dec := h.dec
  down := h.down

theorem settle {x : ℕ} (v : V) (hm : x ∈ T.mem) (hdec : s.dec x = none)
    (hacc : x ∈ s.acc x) (hroot : T.IsRoot (s.failed x) x)
    (hkids : ∀ c, T.IsChild (s.failed x) x c → c ∈ s.heard x) :
    Cover T void { s with
        dec := update s.dec x (some v)
        settled := fun v' A S =>
          s.settled v' A S ∨ v' = v ∧ A = {q | q ∈ T.mem ∧ q ∉ s.dead} ∧ S = s.acc x } where
  failed := h.failed
  up_parent := h.up_parent
  up_mem := h.up_mem
  up_acc := h.up_acc
  up_cover := h.up_cover
  up_link := h.up_link
  heard := h.heard
  acc_mem := h.acc_mem
  settled v' A S hs := by
    rcases hs with hs | ⟨rfl, rfl, rfl⟩
    · exact h.settled v' A S hs
    · exact ⟨fun q hq => h.mem_acc_of_isRoot hm hacc hroot hkids hq.1 hq.2, h.acc_mem x⟩
  dec y v' hy := by
    by_cases hyx : y = x
    · subst hyx
      obtain rfl : v = v' := by simpa using hy
      exact .inr ⟨_, _, .inr ⟨rfl, rfl, rfl⟩⟩
    · simp only [update_of_ne hyx] at hy
      exact (h.dec y v' hy).imp_right fun ⟨A, S, hs⟩ => ⟨A, S, .inl hs⟩
  down r y v' hd := (h.down r y v' hd).imp_right (dec_update hdec)

theorem send {r y : ℕ} {v : V} (hv : void v ∨ s.dec r = some v) : Cover T void
      { s with down := fun h' y' v' => s.down h' y' v' ∨ h' = r ∧ y' = y ∧ v' = v } :=
  { h with
    down := fun r' y' v' hd => by
      rcases hd with hd | ⟨rfl, rfl, rfl⟩
      · exact h.down r' y' v' hd
      · exact hv }

theorem accept {r y : ℕ} {v : V} (hdec : s.dec y = none) (hd : s.down r y v) :
    Cover T void { s with dec := update s.dec y (some v) } :=
  { h with
    dec := fun z v' hz => by
      by_cases hzy : z = y
      · subst hzy
        obtain rfl : v = v' := by simpa using hz
        exact (h.down r z v hd).elim .inl (h.dec r v)
      · simp only [update_of_ne hzy] at hz
        exact h.dec z v' hz
    down := fun r' y' v' hd' => (h.down r' y' v' hd').imp_right (dec_update hdec) }

theorem move (hm : Move T void strict s s') : Cover T void s' := by
  cases hm with
  | crash p hp => exact h.crash p
  | notify p q hp hq => exact h.notify hp hq
  | join p hp hpm =>
    exact h.grow (Finset.subset_insert _ _)
      (insert_subset hpm (h.acc_mem p))
  | hear p c S hp hup => exact h.hear hup
  | sendUp p w hp hpm hdec hacc hpar hw hkids => exact h.sendUp hp hpm hacc hpar hw hkids
  | sendAsk x q hx hxm hroot hq => exact { h with }
  | settle x v hx hxm hdec hacc hroot hkids => exact h.settle v hxm hdec hacc hroot hkids
  | sendDown r y v hr hv hy => exact h.send (.inr hv)
  | makeUp r y v hs hv => exact h.send (.inl hv)
  | accept y r v hy hdec hd hlate => exact h.accept hdec hd

theorem moves (hm : ReflTransGen (Move T void strict) s s') : Cover T void s' := by
  induction hm with
  | refl => exact h
  | tail _ hstep ih => exact ih.move hstep

end

end Cover

/-! ### Agreement -/

/-- `h` is a process that `y` turns to once what comes before it has crashed;
these crashes happened while `h` was alive. -/
structure Leads (T : RankTree) (dead : List ℕ) (h y : ℕ) : Prop where
  mem : h ∈ T.above y
  ne : h ≠ y
  skip : ∀ x ∈ T.before y h, x ∈ deadBefore dead h

/-- What holds in addition when no process accepts a decision of a process it
knows to have failed. -/
structure Agree (T : RankTree) (s : ConsensusState V) : Prop where
  down_from : ∀ h y v, s.down h y v →
    y ∈ T.mem ∧ s.dec h = some v ∧ (Leads T s.dead h y ∨ s.ask y h)
  ask_root : ∀ x h, s.ask x h → x ∈ T.mem ∧ ∀ z ∈ T.mem, z < x → z ∈ s.failed x
  ask_child : ∀ x h, s.ask x h → h ∈ T.mem ∧ h ≠ x ∧ x ∈ T.above h ∧
    ∀ z ∈ T.before h x, z ∈ s.failed x
  dec_from : ∀ y v, s.dec y = some v → y ∈ T.mem ∧ ((∀ z ∈ T.mem, z < y → z ∈ s.failed y) ∨
      ∃ h, s.dec h ≠ none ∧ Leads T s.dead h y ∧ ∀ w S, s.up y w S → h ∉ T.before y w)
  one : ∃ v : Option V, (∀ p, p ∉ s.dead → s.dec p ≠ none → s.dec p = v) ∧
    ∀ h y u, s.down h y u → y ∉ s.dead → h ∉ s.failed y → some u = v

theorem agree_init {dead : List ℕ} : Agree T (init dead : ConsensusState V) where
  down_from _ _ _ h := h.elim
  ask_root _ _ h := h.elim
  ask_child _ _ h := h.elim
  dec_from _ _ h := by simp [init] at h
  one := ⟨none, fun _ _ h => (h rfl).elim, fun _ _ _ h => h.elim⟩

/-- `y` has passed its contributions up along a chain that ends at `x`; `w` is
the first process of the chain. -/
inductive Linked (T : RankTree) (s : ConsensusState V) (x : ℕ) : ℕ → ℕ → Prop
  | top {y : ℕ} {S : Finset ℕ} (h : s.up y x S) : Linked T s x y x
  | step {y w z : ℕ} {S : Finset ℕ} (hw : Linked T s x w z) (h : s.up y w S)
      (ha : w ∈ T.ancestors y) : Linked T s x y w

namespace Linked

variable {x y w : ℕ}

theorem up (h : Linked T s x y w) : ∃ S, s.up y w S := by
  cases h with
  | top h | step _ h _ => exact ⟨_, h⟩

theorem lt (hc : Cover T void s) (h : Linked T s x y w) : x < y := by
  induction h with
  | top h =>
    obtain ⟨hm, hne, -⟩ := hc.up_parent _ _ _ h
    exact lt_of_le_of_ne (above_le hm) hne
  | step _ _ ha ih => exact lt_trans ih (ancestors_lt ha)

/-- While the end `x` of the chain is alive and undecided, no process of the
chain has decided, and every decided process that could have sent its decision
to `y` is one that `y` knew to have failed when it turned to `w`. -/
theorem undecided (hc : Cover T void s) (ha : Agree T s) (hx : x ∉ s.dead)
    (hxm : x ∈ T.mem) (hdec : s.dec x = none) (h : Linked T s x y w) :
    s.dec y = none ∧ ∀ h, s.dec h ≠ none → Leads T s.dead h y → h ∈ T.before y w := by
  have hlow : ∀ {y w}, Linked T s x y w → y ∈ T.mem → ¬ ∀ z ∈ T.mem, z < y → z ∈ s.failed y := by
    intro y w hl hym hz
    exact hx (hc.failed_dead hym (hz x hxm (hl.lt hc)))
  -- the second half for the chain implies the first
  have hnone : ∀ {y w}, Linked T s x y w →
      (∀ h, s.dec h ≠ none → Leads T s.dead h y → h ∈ T.before y w) → s.dec y = none := by
    intro y w hl hlead
    cases hv : s.dec y with
    | none => rfl
    | some v =>
      obtain ⟨hym, hroot | ⟨h, hh, hle, hup⟩⟩ := ha.dec_from y v hv
      · exact absurd hroot (hlow hl hym)
      · obtain ⟨S, hS⟩ := hl.up
        exact absurd (hlead h hh hle) (hup w S hS)
  suffices hlead : ∀ h, s.dec h ≠ none → Leads T s.dead h y → h ∈ T.before y w from
    ⟨hnone h hlead, hlead⟩
  induction h with
  | top hup =>
    intro h hh hle
    rcases before_or hle.mem (hc.up_parent _ _ _ hup).1 with hb | hb | hb
    · exact hb
    · exact absurd hdec (hb ▸ hh)
    · exact absurd (deadBefore_subset s.dead h (hle.skip x hb)) hx
  | @step y w z S hw hup hanc ih =>
    intro h hh hle
    have hwnone := hnone hw ih
    rcases before_or hle.mem (hc.up_parent _ _ _ hup).1 with hb | hb | hb
    · exact hb
    · exact absurd hwnone (hb ▸ hh)
    · -- `w` crashed before `h` turned to `y`
      have hwh : w ∈ deadBefore s.dead h := hle.skip w hb
      obtain ⟨S', hup'⟩ := hw.up
      have hwm := hc.up_mem _ _ _ hup'
      exfalso
      by_cases hhw : h ∈ T.above w
      · have hne : h ≠ w := fun e => hh (e ▸ hwnone)
        have hb' := ih h hh ⟨hhw, hne, fun z hz =>
          hle.skip z (before_subset_of_ancestor hanc hhw hb hz)⟩
        have hhd : h ∈ deadBefore s.dead w :=
          hc.failed w hwm h ((hc.up_parent _ _ _ hup').2.2 h hb')
        exact deadBefore_asymm hwh hhd
      · have hxw : x ∈ T.above w := mem_above.2 (.inr ⟨hxm, (hw.lt hc).le⟩)
        have hxb := above_subset_before hanc hhw hb hxw
        exact hx (deadBefore_subset s.dead h (hle.skip x hxb))

end Linked

theorem exists_linked (hc : Cover T void s) {x q : ℕ} (hm : x ∈ T.mem)
    (hroot : T.IsRoot (s.failed x) x)
    (hkids : ∀ c, T.IsChild (s.failed x) x c → c ∈ s.heard x)
    (hq : q ∈ T.mem) (hqd : q ∉ s.dead) (hne : q ≠ x) : ∃ w, Linked T s x q w := by
  obtain ⟨c, hcx, hcq⟩ := exists_child_of_isRoot hroot hm hq
    (fun e => hqd (hc.failed_dead hm e)) hne
  obtain ⟨S, hup, -⟩ := hc.heard x c (hkids c hcx)
  -- walk down from `c` to `q`; the distance `q - c` decreases
  have key : ∀ n c w, q - c ≤ n → Linked T s x c w → T.Under c q → ∃ w, Linked T s x q w := by
    intro n
    induction n with
    | zero =>
      intro c w hn hl hu
      have hcq := hu.le
      obtain rfl : c = q := by omega
      exact ⟨w, hl⟩
    | succ n ih =>
      intro c w hn hl hu
      rcases hu with rfl | hu
      · exact ⟨w, hl⟩
      · obtain ⟨S, hS⟩ := hl.up
        obtain ⟨c', S', hup', hcc', hu'⟩ := hc.up_link c w S hS q hq hqd hu
        have hlt := ancestors_lt hcc'
        have hle := hu'.le
        exact ih c' c (by omega) (Linked.step hl hup' hcc') hu'
  exact key _ c x le_rfl (Linked.top hup) hcq

namespace Agree

theorem crash (h : Agree T s) {p : ℕ} : Agree T { s with dead := s.dead ++ [p] } := by
  have hlead : ∀ h y, Leads T s.dead h y → Leads T (s.dead ++ [p]) h y :=
    fun _ _ hl => ⟨hl.mem, hl.ne, fun x hx => mem_deadBefore_append (hl.skip x hx)⟩
  exact
    { down_from := fun r y v hd => by
        obtain ⟨hy, hv, hl⟩ := h.down_from r y v hd
        exact ⟨hy, hv, hl.imp_left (hlead r y)⟩
      ask_root := h.ask_root
      ask_child := h.ask_child
      dec_from := fun y v hv => by
        obtain ⟨hy, hl⟩ := h.dec_from y v hv
        exact ⟨hy, hl.imp_right fun ⟨r, hr, hle, hup⟩ => ⟨r, hr, hlead r y hle, hup⟩⟩
      one := by
        obtain ⟨v, h1, h2⟩ := h.one
        refine ⟨v, fun q hq => h1 q fun e => hq (by simp [e]), fun r y u hd hy =>
          h2 r y u hd fun e => hy (by simp [e])⟩ }

theorem notify (h : Agree T s) {p q : ℕ} :
    Agree T { s with failed := Function.update s.failed p (insert q (s.failed p)) } := by
  have hsub : ∀ r, s.failed r ⊆ update s.failed p (insert q (s.failed p)) r := by
    intro r
    by_cases hr : r = p
    · subst hr
      simp
    · simp [update_of_ne hr]
  exact
    { down_from := h.down_from
      ask_root := fun x r ha => by
        obtain ⟨hx, hlow⟩ := h.ask_root x r ha
        exact ⟨hx, fun z hz hlt => hsub x (hlow z hz hlt)⟩
      ask_child := fun x r ha => by
        obtain ⟨h1, h2, h3, h4⟩ := h.ask_child x r ha
        exact ⟨h1, h2, h3, fun z hz => hsub x (h4 z hz)⟩
      dec_from := fun y v hv => by
        obtain ⟨hy, hl⟩ := h.dec_from y v hv
        exact ⟨hy, hl.imp_left fun hz z hzm hlt => hsub y (hz z hzm hlt)⟩
      one := by
        obtain ⟨v, h1, h2⟩ := h.one
        exact ⟨v, h1, fun r y u hd hy hr => h2 r y u hd hy fun e => hr (hsub y e)⟩ }

theorem sendUp (h : Agree T s) {p w : ℕ} {S₀ : Finset ℕ} (hdec : s.dec p = none) :
    Agree T { s with up := fun c w' S => s.up c w' S ∨ c = p ∧ w' = w ∧ S = S₀ } :=
  { h with
    dec_from := fun y v hv => by
      obtain ⟨hy, hl⟩ := h.dec_from y v hv
      refine ⟨hy, hl.imp_right fun ⟨r, hr, hle, hup⟩ => ⟨r, hr, hle, ?_⟩⟩
      rintro w' S (hS | ⟨rfl, -, -⟩)
      · exact hup w' S hS
      · exact absurd hv (by simp [hdec]) }

theorem sendAsk (h : Agree T s) {x r : ℕ} (hm : x ∈ T.mem)
    (hroot : T.IsRoot (s.failed x) x) (hr : T.IsChild (s.failed x) x r) :
    Agree T { s with ask := fun x' h' => s.ask x' h' ∨ x' = x ∧ h' = r } :=
  { h with
    down_from := fun r' y v hd => by
      obtain ⟨hy, hv, hl⟩ := h.down_from r' y v hd
      exact ⟨hy, hv, hl.imp_right .inl⟩
    ask_root := by
      rintro x' r' (ha | ⟨rfl, rfl⟩)
      · exact h.ask_root x' r' ha
      · exact ⟨hm, fun z hz hlt => hroot.mem_of_lt hm hz hlt⟩
    ask_child := by
      rintro x' r' (ha | ⟨rfl, rfl⟩)
      · exact h.ask_child x' r' ha
      · exact ⟨hr.member, hr.ne, hr.parent.mem, hr.parent.skip⟩ }

section

variable (hc : Cover T void s) (h : Agree T s)
include hc h

theorem settle {x : ℕ} (v : V) (hx : x ∉ s.dead)
    (hm : x ∈ T.mem) (hdec : s.dec x = none) (hroot : T.IsRoot (s.failed x) x)
    (hkids : ∀ c, T.IsChild (s.failed x) x c → c ∈ s.heard x)
    {settled' : V → Set ℕ → Finset ℕ → Prop} :
    Agree T { s with
      dec := Function.update s.dec x (some v)
      settled := settled' } := by
  have hkeep : ∀ r u, s.dec r = some u → update s.dec x (some v) r = some u :=
    fun r u => dec_update hdec
  -- every other survivor is linked to `x`, hence undecided
  have hlink : ∀ q ∈ T.mem, q ∉ s.dead → q ≠ x → s.dec q = none ∧
      ∃ w S, s.up q w S ∧ ∀ r, s.dec r ≠ none → Leads T s.dead r q → r ∈ T.before q w := by
    intro q hq hqd hne
    obtain ⟨w, hw⟩ := exists_linked hc hm hroot hkids hq hqd hne
    obtain ⟨S, hS⟩ := hw.up
    obtain ⟨h1, h2⟩ := hw.undecided hc h hx hm hdec
    exact ⟨h1, w, S, hS, h2⟩
  exact
    { down_from := fun r y u hd => by
        obtain ⟨hy, hv, hl⟩ := h.down_from r y u hd
        exact ⟨hy, hkeep r u hv, hl⟩
      ask_root := h.ask_root
      ask_child := h.ask_child
      dec_from := fun y u hu => by
        by_cases hyx : y = x
        · subst hyx
          exact ⟨hm, .inl fun z hz hlt => hroot.mem_of_lt hm hz hlt⟩
        · simp only [update_of_ne hyx] at hu
          obtain ⟨hy, hl⟩ := h.dec_from y u hu
          refine ⟨hy, hl.imp_right fun ⟨r, hr, hle, hup⟩ => ⟨r, ?_, hle, hup⟩⟩
          obtain ⟨u', hu'⟩ := ne_none_iff_exists'.1 hr
          simp [hkeep r u' hu']
      one := by
        refine ⟨some v, fun p hp hpd => ?_, fun r y u hd hy hr => ?_⟩
        · by_cases hpx : p = x
          · subst hpx
            simp
          · simp only [update_of_ne hpx] at hpd ⊢
            obtain ⟨u, hu⟩ := ne_none_iff_exists'.1 hpd
            exact absurd (hlink p (h.dec_from p u hu).1 hp hpx).1 hpd
        · exfalso
          obtain ⟨hym, hv, hl⟩ := h.down_from r y u hd
          have hrd : s.dec r ≠ none := by simp [hv]
          by_cases hyx : y = x
          · subst hyx
            rcases hl with hl | hl
            · exact hr (hroot.before_mem hm hl.mem hl.ne)
            · -- the asked child is still a child, so it has been heard
              obtain ⟨hrm, hne, hmem, hskip⟩ := h.ask_child y r hl
              have hchild : T.IsChild (s.failed y) y r := ⟨hrm, hr, hne, hmem, hroot.alive, hskip⟩
              obtain ⟨S, hup, -⟩ := hc.heard y r (hkids r hchild)
              exact hrd ((Linked.top hup).undecided hc h hx hm hdec).1
          · rcases hl with hl | hl
            · obtain ⟨-, w, S, hup, hlead⟩ := hlink y hym hy hyx
              exact hr ((hc.up_parent _ _ _ hup).2.2 r (hlead r hrd hl))
            · obtain ⟨-, hlow⟩ := h.ask_root y r hl
              have hxy : ¬ x < y := fun hlt => hx (hc.failed_dead hym (hlow x hm hlt))
              have hyx' : y < x := by omega
              exact hy (hc.failed_dead hm (hroot.mem_of_lt hm hym hyx')) }

theorem sendDown {r y : ℕ} {v : V} (hr : r ∉ s.dead) (hv : s.dec r = some v)
    (hy : T.IsChild (s.failed r) r y ∨ (∃ S, s.up y r S) ∨ s.ask y r) :
    Agree T { s with down := fun h' y' v' => s.down h' y' v' ∨ h' = r ∧ y' = y ∧ v' = v } := by
  have hrm := (h.dec_from r v hv).1
  have hfrom : y ∈ T.mem ∧ (Leads T s.dead r y ∨ s.ask y r) := by
    rcases hy with hy | ⟨S, hup⟩ | hy
    · exact ⟨hy.member, .inl ⟨hy.parent.mem, hy.ne.symm, fun x hx =>
        hc.failed r hrm x (hy.parent.skip x hx)⟩⟩
    · obtain ⟨h1, h2, h3⟩ := hc.up_parent _ _ _ hup
      have hym := hc.up_mem _ _ _ hup
      refine ⟨hym, .inl ⟨h1, h2, fun x hx => ?_⟩⟩
      rw [deadBefore_eq_dead hr]
      exact hc.failed_dead hym (h3 x hx)
    · exact ⟨(h.ask_root y r hy).1, .inr hy⟩
  exact
    { h with
      down_from := by
        rintro r' y' v' (hd | ⟨rfl, rfl, rfl⟩)
        · exact h.down_from r' y' v' hd
        · exact ⟨hfrom.1, hv, hfrom.2⟩
      one := by
        obtain ⟨v', h1, h2⟩ := h.one
        refine ⟨v', h1, ?_⟩
        rintro r' y' u (hd | ⟨rfl, rfl, rfl⟩) hyd hrf
        · exact h2 r' y' u hd hyd hrf
        · rw [← hv]
          exact h1 r' hr (by simp [hv]) }

theorem accept {r y : ℕ} {v : V} (hy : y ∉ s.dead)
    (hdec : s.dec y = none) (hd : s.down r y v) (hr : r ∉ s.failed y) :
    Agree T { s with dec := Function.update s.dec y (some v) } := by
  have hkeep : ∀ q u, s.dec q = some u → update s.dec y (some v) q = some u :=
    fun q u => dec_update hdec
  have hne : ∀ q, s.dec q ≠ none → update s.dec y (some v) q ≠ none := by
    intro q hq
    obtain ⟨u, hu⟩ := ne_none_iff_exists'.1 hq
    simp [hkeep q u hu]
  exact
    { h with
      down_from := fun r' y' u hd' => by
        obtain ⟨h1, h2, h3⟩ := h.down_from r' y' u hd'
        exact ⟨h1, hkeep r' u h2, h3⟩
      dec_from := fun q u hq => by
        by_cases hqy : q = y
        · subst hqy
          obtain ⟨hym, hv, hl⟩ := h.down_from r q v hd
          refine ⟨hym, ?_⟩
          rcases hl with hl | hl
          · exact .inr ⟨r, hne r (by simp [hv]), hl, fun w S hup hb =>
              hr ((hc.up_parent _ _ _ hup).2.2 r hb)⟩
          · exact .inl (h.ask_root q r hl).2
        · simp only [update_of_ne hqy] at hq
          obtain ⟨h1, h2⟩ := h.dec_from q u hq
          exact ⟨h1, h2.imp_right fun ⟨r', hr', hle, hup⟩ => ⟨r', hne r' hr', hle, hup⟩⟩
      one := by
        obtain ⟨v', h1, h2⟩ := h.one
        refine ⟨v', fun p hp hpd => ?_, h2⟩
        by_cases hpy : p = y
        · subst hpy
          simpa using h2 r p v hd hy hr
        · simp only [update_of_ne hpy] at hpd ⊢
          exact h1 p hp hpd }

theorem move (hm : Move T void True s s') : Agree T s' := by
  cases hm with
  | crash p hp => exact h.crash
  | notify p q hp hq => exact h.notify
  | join p hp hpm | hear p c S hp hup => exact { h with }
  | sendUp p w hp hpm hdec hacc hpar hw hkids => exact h.sendUp hdec
  | sendAsk x q hx hxm hroot hq => exact h.sendAsk hxm hroot hq
  | settle x v hx hxm hdec hacc hroot hkids => exact Agree.settle hc h v hx hxm hdec hroot hkids
  | sendDown r y v hr hv hy => exact Agree.sendDown hc h hr hv hy
  | makeUp r y v hs hv => exact absurd trivial hs
  | accept y r v hy hdec hd hlate => exact Agree.accept hc h hy hdec hd (hlate trivial)

theorem moves (hm : ReflTransGen (Move T void True) s s') : Agree T s' := by
  induction hm with
  | refl => exact h
  | tail hpre hstep ih => exact Agree.move (hc.moves hpre) ih hstep

end

theorem dec_eq (h : Agree T s) {p q : ℕ} {u v : V} (hp : p ∉ s.dead) (hq : q ∉ s.dead)
    (hu : s.dec p = some u) (hv : s.dec q = some v) : u = v := by
  obtain ⟨o, h1, -⟩ := h.one
  have hpo := h1 p hp (by simp [hu])
  have hqo := h1 q hq (by simp [hv])
  rw [hu] at hpo
  rw [hv, ← hpo] at hqo
  exact (Option.some.inj hqo).symm

theorem down_eq (h : Agree T s) {p q : ℕ} {u v : V} (hp : p ∉ s.dead)
    (hu : s.dec p = some u) (hd : s.down q p v) (hq : q ∉ s.failed p) : u = v := by
  obtain ⟨o, h1, h2⟩ := h.one
  have hpo := h1 p hp (by simp [hu])
  have hqo := h2 q p v hd hp hq
  rw [hu, ← hqo] at hpo
  exact Option.some.inj hpo

end Agree

end ConsensusState

end Ulfm
