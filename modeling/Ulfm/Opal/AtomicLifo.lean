import Ulfm.Foundation.Trace

/-!
# The atomic LIFO

`opal_atomic_lifo_push` and `opal_atomic_lifo_pop` in a multithreaded build. Every step of
a thread is one access to the memory that the threads share, and the steps of different
threads come in any order. The field `item_free` of an item is the lock of `pop`: it is 1
while the item is not in the list, or a thread is at work on it.
-/

namespace Ulfm.Lifo

open Function List

variable {T I : Type} [DecidableEq T] [DecidableEq I]

inductive Ptr (I : Type) where
  | null
  | ghost
  | item (i : I)
  deriving DecidableEq

/-- Where a thread is, with what it has read. -/
inductive Pc (I : Type) where
  | idle
  | pushRead (i : I)
  | pushStore (i : I) (head : Ptr I)
  | pushExpect (i : I)
  | pushCas (i : I) (next : Ptr I)
  | pushFree (i : I)
  | pushReturn (i : I)
  | popRead
  | popLock (i : I)
  | popNext (i : I)
  | popCas (i : I) (next : Ptr I)
  | popUnlock (i : I)
  | popClear (i : I)

/-- What an operation does to the list, at the time when it does it. -/
inductive Op (I : Type) where
  | push (i : I)
  | pop (i : I)
  | popEmpty

structure World (T I : Type) where
  head : Ptr I
  next : I → Ptr I
  itemFree : I → Bool
  pc : T → Pc I
  /-- The item is in the hands of the callers. -/
  loose : I → Bool
  /-- The operations so far, the newest first. -/
  history : List (Op I)

/-- The list and the items after `opal_atomic_lifo_construct` and `opal_list_item_construct`. -/
def World.init : World T I :=
  ⟨.ghost, fun _ => .null, fun _ => true, fun _ => .idle, fun _ => true, []⟩

inductive Event (T I : Type) where
  | push (t : T) (i : I)
  | pop (t : T)
  | run (t : T)

/-- A thread that is not in a call begins one, and pushes only what the callers have. -/
def Event.Allowed (w : World T I) : Event T I → Prop
  | .push t i => w.pc t = .idle ∧ w.loose i = true
  | .pop t => w.pc t = .idle
  | .run _ => True

namespace World

variable (w : World T I) (t : T)

def goto (pc : Pc I) : World T I := { w with pc := Function.update w.pc t pc }

/-- `opal_atomic_cmpset_32(&item->item_free, 1, 0)` -/
def release (i : I) : World T I := { w with itemFree := Function.update w.itemFree i false }

/-- The next access of a thread. -/
def run : World T I :=
  match w.pc t with
  | .idle => w
  | .pushRead i => w.goto t (.pushStore i w.head)
  | .pushStore i head => { w with next := Function.update w.next i head }.goto t (.pushExpect i)
  | .pushExpect i => w.goto t (.pushCas i (w.next i))
  | .pushCas i next =>
    if w.head = next then
      { w with head := .item i, history := .push i :: w.history }.goto t (.pushFree i)
    else w.goto t (.pushRead i)
  | .pushFree i => (w.release i).goto t (.pushReturn i)
  | .pushReturn _ => w.goto t .idle
  | .popRead =>
    match w.head with
    | .ghost => { w with history := .popEmpty :: w.history }.goto t .idle
    | .item i => w.goto t (.popLock i)
    -- the thread would follow the pointer
    | .null => w
  | .popLock i =>
    if w.itemFree i = false then
      { w with itemFree := Function.update w.itemFree i true }.goto t (.popNext i)
    else w.goto t .popRead
  | .popNext i => w.goto t (.popCas i (w.next i))
  | .popCas i next =>
    if w.head = .item i then
      { w with head := next, history := .pop i :: w.history }.goto t (.popClear i)
    else w.goto t (.popUnlock i)
  | .popUnlock i => (w.release i).goto t .popRead
  | .popClear i =>
    { w with
      next := Function.update w.next i .null
      loose := Function.update w.loose i true }.goto t .idle

def step : Event T I → World T I
  | .push t i => { w with loose := Function.update w.loose i false }.goto t (.pushRead i)
  | .pop t => w.goto t .popRead
  | .run t => w.run t

end World

section Invariant

/-- What a stack does. -/
def Op.apply : List I → Op I → Option (List I)
  | l, .push i => some (i :: l)
  | j :: l, .pop i => if i = j then some l else none
  | [], .popEmpty => some []
  | _, _ => none

/-- The stack after the operations of a history. -/
def replay (history : List (Op I)) : Option (List I) :=
  history.foldr (fun op l => l.bind fun l => op.apply l) (some [])

def Linked (next : I → Ptr I) : Ptr I → List I → Prop
  | p, [] => p = .ghost
  | p, i :: l => p = .item i ∧ Linked next (next i) l

/-- The item that a thread is at work on, and whether it is in the list. -/
def Pc.claim : Pc I → Option (I × Bool)
  | .pushRead i | .pushStore i _ | .pushExpect i | .pushCas i _ | .popClear i => some (i, false)
  | .pushFree i | .popNext i | .popCas i _ | .popUnlock i => some (i, true)
  | _ => none

def Pc.expects : Pc I → Option (I × Ptr I)
  | .pushCas i next | .popCas i next => some (i, next)
  | _ => none

/-- The list is a stack, and each item is in the hands of the callers, in the list, or with
the one thread that is at work on it. -/
structure Inv (w : World T I) (l : List I) : Prop where
  replay : replay w.history = some l
  linked : Linked w.next w.head l
  nodup : l.Nodup
  free : ∀ i, w.itemFree i = false → i ∈ l
  claimed : ∀ t i b, (w.pc t).claim = some (i, b) →
    w.itemFree i = true ∧ (i ∈ l ↔ b = true) ∧ w.loose i = false
  unique : ∀ t u i b c, (w.pc t).claim = some (i, b) → (w.pc u).claim = some (i, c) → t = u
  expects : ∀ t i p, (w.pc t).expects = some (i, p) → w.next i = p
  loose : ∀ i, w.loose i = true → i ∉ l
  kept : ∀ i, w.loose i = true ∨ i ∈ l ∨ ∃ t, (w.pc t).claim = some (i, false)

variable {w w' : World T I} {l l' : List I} {t : T} {i : I} {pc : Pc I}

omit [DecidableEq I] in
theorem Linked.congr {next next' : I → Ptr I} {p : Ptr I} (h : Linked next p l)
    (hnext : ∀ i ∈ l, next' i = next i) : Linked next' p l := by
  induction l generalizing p with
  | nil => exact h
  | cons i l ih =>
    refine ⟨h.1, ?_⟩
    rw [hnext i mem_cons_self]
    exact ih h.2 fun j hj => hnext j (mem_cons_of_mem i hj)

theorem Linked.update {next : I → Ptr I} {p q : Ptr I} (h : Linked next p l) (hi : i ∉ l) :
    Linked (Function.update next i q) p l :=
  h.congr fun _ hj => update_of_ne (ne_of_mem_of_not_mem hj hi) _ _

omit [DecidableEq I] in
theorem Pc.claim_of_expects {p : Ptr I} (h : pc.expects = some (i, p)) :
    ∃ b, pc.claim = some (i, b) := by
  cases pc <;> simp_all [expects, claim]

omit [DecidableEq T] in
theorem Inv.init : Inv (World.init : World T I) [] := by
  constructor <;> simp [World.init, Lifo.replay, Linked, Pc.claim, Pc.expects]

/-- A thread goes on with the item that it has, or with none. -/
theorem Inv.goto (h : Inv w l) (hclaim : pc.claim = (w.pc t).claim)
    (hexpects : ∀ i p, pc.expects = some (i, p) → w.next i = p) : Inv (w.goto t pc) l := by
  have hself : (w.goto t pc).pc t = pc := update_self ..
  have hne : ∀ u, u ≠ t → (w.goto t pc).pc u = w.pc u := fun u hu => update_of_ne hu ..
  have hclaims : ∀ u, ((w.goto t pc).pc u).claim = (w.pc u).claim := by
    intro u
    by_cases hu : u = t
    · rw [hu, hself, hclaim]
    · rw [hne u hu]
  refine { h with claimed := ?_, unique := ?_, expects := ?_, kept := ?_ }
  · intro u i b hu
    exact h.claimed u i b (hclaims u ▸ hu)
  · intro u v i b c hu hv
    exact h.unique u v i b c (hclaims u ▸ hu) (hclaims v ▸ hv)
  · intro u i p hu
    by_cases hut : u = t
    · rw [hut, hself] at hu
      exact hexpects i p hu
    · rw [hne u hut] at hu
      exact h.expects u i p hu
  · intro i
    exact (h.kept i).imp_right (Or.imp_right fun ⟨u, hu⟩ => ⟨u, (hclaims u).trans hu⟩)

/-- A thread does something to an item that no other thread is at work on. -/
theorem Inv.handle (h : Inv w l) (hpc : w'.pc = Function.update w.pc t pc)
    (halone : ∀ u b, u ≠ t → (w.pc u).claim ≠ some (i, b))
    (hbefore : ∀ j b, (w.pc t).claim = some (j, b) → j = i)
    (hother : ∀ j, j ≠ i → w'.itemFree j = w.itemFree j ∧ w'.next j = w.next j ∧
      w'.loose j = w.loose j ∧ (j ∈ l' ↔ j ∈ l))
    (hreplay : Lifo.replay w'.history = some l') (hlinked : Linked w'.next w'.head l')
    (hnodup : l'.Nodup) (hfree : w'.itemFree i = false → i ∈ l')
    (hclaim : ∀ j b, pc.claim = some (j, b) →
      j = i ∧ w'.itemFree i = true ∧ (i ∈ l' ↔ b = true) ∧ w'.loose i = false)
    (hexpects : pc.expects = none) (hloose : w'.loose i = true → i ∉ l')
    (hkept : w'.loose i = true ∨ i ∈ l' ∨ pc.claim = some (i, false)) : Inv w' l' := by
  have hself : w'.pc t = pc := by rw [hpc, update_self]
  have hne : ∀ u, u ≠ t → w'.pc u = w.pc u := fun u hu => by rw [hpc, update_of_ne hu]
  -- a claim is the new one of `t`, or an old one on another item
  have hclaims : ∀ u j b, (w'.pc u).claim = some (j, b) → u = t ∧ j = i ∧ pc.claim = some (j, b) ∨
        u ≠ t ∧ j ≠ i ∧ (w.pc u).claim = some (j, b) := by
    intro u j b hu
    by_cases hut : u = t
    · rw [hut, hself] at hu
      exact .inl ⟨hut, (hclaim j b hu).1, hu⟩
    · rw [hne u hut] at hu
      exact .inr ⟨hut, fun hji => halone u b hut (hji ▸ hu), hu⟩
  refine ⟨hreplay, hlinked, hnodup, fun j hj => ?free, fun u j b hu => ?claimed,
    fun u v j b c hu hv => ?unique, fun u j p hu => ?expects, fun j hj => ?loose,
    fun j => ?kept⟩
  case free =>
    by_cases hji : j = i
    · exact hji ▸ hfree (hji ▸ hj)
    · obtain ⟨hold, -, -, hmem⟩ := hother j hji
      exact hmem.2 (h.free j (hold ▸ hj))
  case claimed =>
    obtain ⟨-, rfl, hnew⟩ | ⟨-, hji, hold⟩ := hclaims u j b hu
    · exact (hclaim j b hnew).2
    · obtain ⟨hfree', -, hloose', hmem⟩ := hother j hji
      rw [hfree', hloose', hmem]
      exact h.claimed u j b hold
  case unique =>
    obtain ⟨rfl, rfl, -⟩ | ⟨-, hji, hold⟩ := hclaims u j b hu
    · obtain ⟨rfl, -⟩ | ⟨-, hji, -⟩ := hclaims v j c hv
      · rfl
      · exact absurd rfl hji
    · obtain ⟨-, hji', -⟩ | ⟨-, -, hold'⟩ := hclaims v j c hv
      · exact absurd hji' hji
      · exact h.unique u v j b c hold hold'
  case expects =>
    obtain ⟨b, hb⟩ := Pc.claim_of_expects hu
    obtain ⟨rfl, -⟩ | ⟨hut, hji, -⟩ := hclaims u j b hb
    · rw [hself, hexpects] at hu
      cases hu
    · rw [hne u hut] at hu
      exact (hother j hji).2.1.trans (h.expects u j p hu)
  case loose =>
    by_cases hji : j = i
    · exact hji ▸ hloose (hji ▸ hj)
    · obtain ⟨-, -, hold, hmem⟩ := hother j hji
      exact fun hin => h.loose j (hold ▸ hj) (hmem.1 hin)
  case kept =>
    by_cases hji : j = i
    · rw [hji]
      exact hkept.imp_right (Or.imp_right fun hc => ⟨t, by rwa [hself]⟩)
    · obtain ⟨-, -, hold, hmem⟩ := hother j hji
      rw [hold, hmem]
      refine (h.kept j).imp_right (Or.imp_right fun ⟨u, hu⟩ => ⟨u, ?_⟩)
      by_cases hut : u = t
      · exact absurd (hbefore j false (hut ▸ hu)) hji
      · rwa [hne u hut]

/-- An item of the list is given back to the other threads. -/
theorem Inv.release (h : Inv w l) (ht : (w.pc t).claim = some (i, true)) (hpc : pc.claim = none)
    (hexpects : pc.expects = none) :
    Inv ((w.release i).goto t pc) l := by
  have hi : i ∈ l := (h.claimed t i true ht).2.1.2 rfl
  refine h.handle (i := i) rfl (fun u b hu hheld => hu (h.unique u t i b true hheld ht))
    (fun j b hj => ?_) (fun j hj => ?_) h.replay h.linked h.nodup (fun _ => hi)
    (fun j b hc => ?_) hexpects (fun hl => ?_) (.inr (.inl hi))
  · rw [ht] at hj
    cases hj
    rfl
  · exact ⟨update_of_ne hj .., rfl, rfl, Iff.rfl⟩
  · rw [hpc] at hc
    cases hc
  · exact absurd hi (h.loose i hl)

/-- A thread goes on with the item that it alone has. -/
theorem Inv.keep (h : Inv w l) {b c : Bool} (ht : (w.pc t).claim = some (i, b))
    (hpc : w'.pc = Function.update w.pc t pc) (hclaim : pc.claim = some (i, c))
    (hexpects : pc.expects = none) (hfree : w'.itemFree = w.itemFree)
    (hloose : w'.loose = w.loose) (hnext : ∀ j, j ≠ i → w'.next j = w.next j)
    (hother : ∀ j, j ≠ i → (j ∈ l' ↔ j ∈ l)) (hi : i ∈ l' ↔ c = true)
    (hreplay : Lifo.replay w'.history = some l') (hlinked : Linked w'.next w'.head l')
    (hnodup : l'.Nodup) : Inv w' l' := by
  obtain ⟨hlocked, -, hheld⟩ := h.claimed t i b ht
  refine h.handle (i := i) hpc (fun u d hu hd => hu (h.unique u t i d b hd ht))
    (fun j d hj => ?_) (fun j hj => ?_) hreplay hlinked hnodup (fun hf => ?_)
    (fun j d hd => ?_) hexpects (fun hl => ?_) ?_
  · rw [ht] at hj
    cases hj
    rfl
  · exact ⟨by rw [hfree], hnext j hj, by rw [hloose], hother j hj⟩
  · rw [hfree, hlocked] at hf
    cases hf
  · rw [hclaim] at hd
    cases hd
    rw [hfree, hloose]
    exact ⟨rfl, hlocked, hi, hheld⟩
  · rw [hloose, hheld] at hl
    cases hl
  · cases c with
    | false => exact .inr (.inr hclaim)
    | true => exact .inr (.inl (hi.2 rfl))

theorem Inv.pushCas (h : Inv w l) {next : Ptr I} (hpc : w.pc t = .pushCas i next)
    (hhead : w.head = next) :
    Inv ({ w with head := .item i, history := .push i :: w.history }.goto t (.pushFree i))
      (i :: l) := by
  have ht : (w.pc t).claim = some (i, false) := by rw [hpc, Pc.claim]
  have hi : i ∉ l := fun hi => Bool.noConfusion ((h.claimed t i false ht).2.1.1 hi)
  have hnext : w.next i = next := h.expects t i next (by rw [hpc, Pc.expects])
  refine h.keep ht rfl rfl rfl rfl rfl (fun _ _ => rfl) (fun j hj => ?_) ?_ ?_ ⟨rfl, ?_⟩
    (nodup_cons.2 ⟨hi, h.nodup⟩)
  · rw [mem_cons, or_iff_right hj]
  · exact iff_of_true mem_cons_self rfl
  · change (Lifo.replay w.history).bind _ = _
    rw [h.replay]
    rfl
  · change Linked w.next (w.next i) l
    rw [hnext, ← hhead]
    exact h.linked

theorem Inv.popCas (h : Inv w l) {next : Ptr I} (hpc : w.pc t = .popCas i next)
    (hhead : w.head = .item i) :
    ∃ rest, Inv ({ w with head := next, history := .pop i :: w.history }.goto t (.popClear i))
      rest := by
  have ht : (w.pc t).claim = some (i, true) := by rw [hpc, Pc.claim]
  have hi : i ∈ l := (h.claimed t i true ht).2.1.2 rfl
  have hnext : w.next i = next := h.expects t i next (by rw [hpc, Pc.expects])
  cases l with
  | nil => cases hi
  | cons j rest =>
    obtain ⟨hj, hrest⟩ := h.linked
    obtain rfl : i = j := Ptr.item.inj (hhead.symm.trans hj)
    obtain ⟨hnot, hnodup⟩ := nodup_cons.1 h.nodup
    refine ⟨rest, h.keep ht rfl rfl rfl rfl rfl (fun _ _ => rfl) (fun j hj => ?_) ?_ ?_
      (hnext ▸ hrest) hnodup⟩
    · rw [mem_cons, or_iff_right hj]
    · exact iff_of_false hnot Bool.noConfusion
    · change (Lifo.replay w.history).bind _ = _
      rw [h.replay]
      exact if_pos rfl

theorem Inv.popEmpty (h : Inv w l) (hpc : w.pc t = .popRead) (hhead : w.head = .ghost) :
    Inv ({ w with history := .popEmpty :: w.history }.goto t .idle) l := by
  have hnil : l = [] := by
    cases l with
    | nil => rfl
    | cons i l => cases hhead.symm.trans h.linked.1
  subst hnil
  have hidle : Inv (w.goto t .idle) [] :=
    h.goto (by rw [hpc]; rfl) (fun _ _ hp => by cases hp)
  refine { hidle with replay := ?_ }
  change (Lifo.replay w.history).bind _ = _
  rw [h.replay]
  rfl

theorem Inv.popLock (h : Inv w l) (hpc : w.pc t = .popLock i) (hfree : w.itemFree i = false) :
    Inv ({ w with itemFree := Function.update w.itemFree i true }.goto t (.popNext i)) l := by
  have hi : i ∈ l := h.free i hfree
  have hnone : ∀ u b, (w.pc u).claim ≠ some (i, b) := fun u b hu =>
    Bool.noConfusion (hfree.symm.trans (h.claimed u i b hu).1)
  refine h.handle (i := i) rfl (fun u b _ => hnone u b) (fun j b hj => ?_) (fun j hj => ?_)
    h.replay h.linked h.nodup (fun _ => hi) (fun j b hc => ?_) rfl (h.loose i)
    (.inr (.inl hi))
  · rw [hpc] at hj
    cases hj
  · exact ⟨update_of_ne hj .., rfl, rfl, Iff.rfl⟩
  · cases hc
    refine ⟨rfl, update_self .., iff_of_true hi rfl, ?_⟩
    exact Bool.eq_false_iff.2 fun hl => h.loose i hl hi

theorem Inv.popClear (h : Inv w l) (hpc : w.pc t = .popClear i) :
    Inv ({ w with
      next := Function.update w.next i .null
      loose := Function.update w.loose i true }.goto t .idle) l := by
  have ht : (w.pc t).claim = some (i, false) := by rw [hpc, Pc.claim]
  obtain ⟨hlocked, hmem, -⟩ := h.claimed t i false ht
  have hi : i ∉ l := fun hi => Bool.noConfusion (hmem.1 hi)
  refine h.handle (i := i) rfl (fun u b hu hb => hu (h.unique u t i b false hb ht))
    (fun j b hj => ?_) (fun j hj => ?_) h.replay (h.linked.update hi) h.nodup (h.free i)
    (fun _ _ hc => by cases hc) rfl (fun _ => hi) (.inl (update_self ..))
  · rw [ht] at hj
    cases hj
    rfl
  · exact ⟨rfl, update_of_ne hj .., update_of_ne hj .., Iff.rfl⟩

theorem Inv.run (h : Inv w l) (t : T) : ∃ l', Inv (w.run t) l' := by
  have hgoto : ∀ pc' pc, w.pc t = pc' → pc.claim = pc'.claim → pc.expects = none →
      ∃ l', Inv (w.goto t pc) l' := fun pc' pc hpc hclaim hexpects =>
    ⟨l, h.goto (by rw [hclaim, hpc]) fun _ _ hp => by cases hexpects.symm.trans hp⟩
  rw [World.run]
  cases hpc : w.pc t with
  | idle => exact ⟨l, h⟩
  | pushRead i | pushReturn i => exact hgoto _ _ hpc rfl rfl
  | pushStore i head =>
    have ht : (w.pc t).claim = some (i, false) := by rw [hpc, Pc.claim]
    have hmem := (h.claimed t i false ht).2.1
    exact ⟨l, h.keep ht rfl rfl rfl rfl rfl (fun j hj => update_of_ne hj ..)
      (fun _ _ => Iff.rfl) hmem h.replay (h.linked.update fun hi => by cases hmem.1 hi) h.nodup⟩
  | pushExpect i | popNext i =>
    refine ⟨l, h.goto (by rw [hpc]; rfl) fun j p hp => ?_⟩
    cases hp
    rfl
  | pushCas i next =>
    dsimp only
    split_ifs with hhead
    · exact ⟨i :: l, h.pushCas hpc hhead⟩
    · exact hgoto _ _ hpc rfl rfl
  | pushFree i | popUnlock i =>
    exact ⟨l, h.release (by rw [hpc]; rfl) rfl rfl⟩
  | popRead =>
    dsimp only
    split
    · next hhead => exact ⟨l, h.popEmpty hpc hhead⟩
    · exact hgoto _ _ hpc rfl rfl
    · exact ⟨l, h⟩
  | popLock i =>
    dsimp only
    split_ifs with hfree
    · exact ⟨l, h.popLock hpc hfree⟩
    · exact hgoto _ _ hpc rfl rfl
  | popCas i next =>
    dsimp only
    split_ifs with hhead
    · exact h.popCas hpc hhead
    · exact hgoto _ _ hpc rfl rfl
  | popClear i => exact ⟨l, h.popClear hpc⟩

theorem Inv.step (h : Inv w l) {e : Event T I} (hallowed : e.Allowed w) :
    ∃ l', Inv (w.step e) l' := by
  cases e with
  | push t i =>
    obtain ⟨hpc, hloose⟩ := hallowed
    have hi := h.loose i hloose
    have hnone : ∀ u b, (w.pc u).claim ≠ some (i, b) := fun u b hu =>
      Bool.noConfusion (hloose.symm.trans (h.claimed u i b hu).2.2)
    refine ⟨l, h.handle (i := i) rfl (fun u b _ => hnone u b) (fun j b hj => ?_)
      (fun j hj => ?_) h.replay h.linked h.nodup (h.free i) (fun j b hc => ?_) rfl
      (fun _ => hi) (.inr (.inr rfl))⟩
    · rw [hpc] at hj
      cases hj
    · exact ⟨rfl, rfl, update_of_ne hj .., Iff.rfl⟩
    · cases hc
      refine ⟨rfl, ?_, iff_of_false hi Bool.noConfusion, update_self ..⟩
      exact Bool.not_eq_false _ ▸ fun hf => hi (h.free i hf)
  | pop t =>
    have hpc : w.pc t = .idle := hallowed
    exact ⟨l, h.goto (by rw [hpc]; rfl) (fun _ _ hp => by cases hp)⟩
  | run t => exact h.run t

end Invariant

section Runs

/-- In every order of the steps of the threads the operations, at the time when they take
effect, are those of a stack, whose items are the list that the pointers make from the
head on. An item of the list is not with the callers, no two threads are at work on the
same item, and no item is lost. -/
theorem lifo_linearizable {events : List (Event T I)}
    (hrun : Along World.step (fun w e => e.Allowed w) World.init events) :
    ∃ l, Inv (events.foldl World.step (World.init : World T I)) l :=
  hrun.invariant (I := fun w => ∃ l, Inv w l) (fun _ _ ⟨_, hw⟩ he => hw.step he) ⟨[], Inv.init⟩

/-- Two threads push at a time, and the second one has to try again. -/
def race : List (Event Bool Bool) :=
  [.push false false, .push true true, .run false, .run true, .run false, .run true, .run false,
    .run true, .run false, .run true]

theorem lifo_linearizable_race : ∃ l, Inv (race.foldl World.step World.init) l :=
  lifo_linearizable ⟨⟨rfl, rfl⟩, ⟨rfl, rfl⟩, trivial, trivial, trivial, trivial, trivial, trivial,
    trivial, trivial, trivial⟩

end Runs

end Ulfm.Lifo
