import Ulfm.Datatype.OptShape
import Ulfm.Datatype.Counted

/-!
# The stack of open loops

Packing, unpacking, positioning, raw access and copying walk over a description with a
stack of the loops that are open. The walk is modelled with the amount of data that
fits left open: an element may be completed or not, and a contiguous loop may be passed
as a whole or entered. The stack stays within what is reserved as long as no call of
`opal_datatype_add` resets the counter of loops below the depth of the description.
-/

namespace Ulfm.Ddt

open List Nesting Entry

section Walks

/-- One step of a walk over `desc`. The copy passes every contiguous loop as a whole; the
functions of the convertor enter one (`enters`) that they cannot finish at once. -/
inductive Walks (enters : Bool) (desc : List Entry) : Cursor → Cursor → Prop
  | data {pos : ℕ} {stack : List LoopFrame} {e : Elem} (hget : desc[pos]? = some (.elem e)) :
      Walks enters desc ⟨pos, stack⟩ ⟨pos + 1, stack⟩
  | again {pos : ℕ} {top : LoopFrame} {below : List LoopFrame} {e : EndLoop}
      (hget : desc[pos]? = some (.endLoop e)) (hcount : decremented top.count ≠ 0) :
      Walks enters desc ⟨pos, top :: below⟩
        ⟨(top.index + 1).toNat, { top with count := decremented top.count } :: below⟩
  | leave {pos : ℕ} {top frame : LoopFrame} {below : List LoopFrame} {e : EndLoop}
      (hget : desc[pos]? = some (.endLoop e)) (hcount : decremented top.count = 0) :
      Walks enters desc ⟨pos, top :: frame :: below⟩ ⟨pos + 1, frame :: below⟩
  | skip {pos : ℕ} {stack : List LoopFrame} {l : Loop} (hget : desc[pos]? = some (.loop l))
      (hflag : l.isContiguous) : Walks enters desc ⟨pos, stack⟩ ⟨pos + l.items + 1, stack⟩
  | enter {pos left : ℕ} {stack : List LoopFrame} {l : Loop}
      (hget : desc[pos]? = some (.loop l)) (hflag : ¬l.isContiguous ∨ enters = true)
      (hleft : left ≤ l.loops) : Walks enters desc ⟨pos, stack⟩ ⟨pos + 1, ⟨pos, left⟩ :: stack⟩
  -- the convertor is set to another position: whole datatypes are passed, or it starts anew
  | whole {pos : ℕ} {stack stack' : List LoopFrame}
      (hsame : stack'.map LoopFrame.index = stack.map LoopFrame.index) :
      Walks enters desc ⟨pos, stack⟩ ⟨pos, stack'⟩
  | restart {c : Cursor} (count : ℕ) : Walks enters desc c ⟨0, [⟨-1, count⟩]⟩

/-- A place that a walk over `count` datatypes comes to. -/
def Comes (enters : Bool) (desc : List Entry) (count : ℕ) (c : Cursor) : Prop :=
  Relation.ReflTransGen (Walks enters desc) ⟨0, [⟨-1, count⟩]⟩ c

/-- Where a frame of the stack goes on, the level is that of the frames below it. -/
def Framed (desc : List Entry) : List LoopFrame → Prop
  | [] => True
  | frame :: below =>
    level Entry.move (desc.take (frame.index + 1).toNat) = below.length ∧ Framed desc below

/-- The stack has a frame for each loop that is open. -/
structure Stacked (desc : List Entry) (c : Cursor) : Prop where
  length : (c.stack.length : ℤ) = level Entry.move (desc.take c.pos) + 1
  framed : Framed desc c.stack

variable {desc : List Entry} {enters : Bool} {c c' : Cursor}

theorem stacked_start (desc : List Entry) (count : ℕ) : Stacked desc ⟨0, [⟨-1, count⟩]⟩ where
  length := rfl
  framed := ⟨rfl, trivial⟩

theorem Framed.congr {stack stack' : List LoopFrame}
    (hsame : stack'.map LoopFrame.index = stack.map LoopFrame.index) (h : Framed desc stack) :
    Framed desc stack' := by
  induction stack generalizing stack' with
  | nil =>
    rw [map_nil, map_eq_nil_iff] at hsame
    rw [hsame]
    trivial
  | cons frame below ih =>
    cases stack' with
    | nil => trivial
    | cons frame' below' =>
      rw [map_cons, map_cons] at hsame
      obtain ⟨hindex, hbelow⟩ := List.cons.inj hsame
      have hlen : below'.length = below.length := by
        have hmap := congrArg List.length hbelow
        rwa [length_map, length_map] at hmap
      refine ⟨?_, ih hbelow h.2⟩
      rw [hindex, hlen]
      exact h.1

theorem Stacked.step (h : Stacked desc c) (hdesc : Balanced Loop.isContiguous desc)
    (hstep : Walks enters desc c c') : Stacked desc c' := by
  obtain ⟨hlen, hframed⟩ := h
  cases hstep with
  | data hget =>
    have hnext := level_next hget
    rw [move, add_zero] at hnext
    refine ⟨?_, hframed⟩
    dsimp only
    rw [hnext]
    exact hlen
  | again hget hcount =>
    refine ⟨?_, hframed.1, hframed.2⟩
    dsimp only
    rw [hframed.1, length_cons]
    push_cast
    rfl
  | leave hget hcount =>
    have hnext := level_next hget
    refine ⟨?_, hframed.2⟩
    dsimp only at hlen ⊢
    rw [length_cons] at hlen
    rw [hnext, move]
    push_cast at hlen ⊢
    omega
  | skip hget hflag =>
    refine ⟨?_, hframed⟩
    dsimp only
    rw [level_behind_loop hdesc hget hflag]
    exact hlen
  | @enter pos left stack l hget hflag hleft =>
    have hnext := level_next hget
    have hindex : ((pos : ℤ) + 1).toNat = pos + 1 := by omega
    dsimp only at hlen
    refine ⟨?_, ?_, hframed⟩
    · dsimp only
      rw [hnext, move, length_cons]
      push_cast
      omega
    · rw [hindex, hnext, move, hlen]
  | whole hsame =>
    refine ⟨?_, hframed.congr hsame⟩
    have hmap := congrArg List.length hsame
    rw [length_map, length_map] at hmap
    dsimp only
    rw [hmap]
    exact hlen
  | restart count => exact stacked_start desc count

theorem Stacked.length_le (h : Stacked desc c) : (c.stack.length : ℤ) ≤ deep desc + 1 := by
  have hlevel := level_take_le move desc c.pos
  rw [h.length, deep]
  omega

theorem Comes.stacked {count : ℕ} (h : Comes enters desc count c)
    (hdesc : Balanced Loop.isContiguous desc) : Stacked desc c := by
  induction h with
  | refl => exact stacked_start desc count
  | tail _ hstep ih => exact ih.step hdesc hstep

theorem stacked_openLoops (loops : ℕ) {xs : List Entry} (h : Stacked desc c)
    (hdesc : desc.drop c.pos = xs) : Stacked desc (openLoops loops xs c) := by
  induction xs generalizing c with
  | nil => exact h
  | cons x xs ih =>
    obtain ⟨hget, hdrop⟩ := getElem?_of_drop hdesc
    cases x with
    | elem e => exact h
    | endLoop e => exact h
    | loop l =>
      obtain ⟨hlen, hframed⟩ := h
      have hnext := level_next hget
      have hindex : ((c.pos : ℤ) + 1).toNat = c.pos + 1 := by omega
      refine ih ⟨?_, ?_, hframed⟩ hdrop
      · dsimp only
        rw [hnext, move, length_cons]
        push_cast
        omega
      · rw [hindex, hnext, move, hlen]

theorem Stacked.visit (h : Stacked desc c) (hvisit : visit desc c = .move c') :
    Stacked desc c' := by
  have hstacked := h
  obtain ⟨hlen, hframed⟩ := h
  obtain ⟨pos, stack⟩ := c
  rw [Ddt.visit] at hvisit
  dsimp only at hvisit hlen hframed
  cases hget : desc[pos]? with
  | none =>
    rw [hget] at hvisit
    cases hvisit
  | some x =>
    rw [hget] at hvisit
    have hnext := level_next hget
    cases x with
    | elem e =>
      dsimp only at hvisit
      by_cases hdata : e.flags.data = true
      · rw [if_pos hdata] at hvisit
        cases hvisit
      · rw [if_neg hdata] at hvisit
        cases hvisit
        exact ⟨hlen, hframed⟩
    | loop l =>
      cases hvisit
      exact stacked_openLoops l.loops hstacked rfl
    | endLoop e =>
      cases stack with
      | nil => cases hvisit
      | cons top below =>
        dsimp only at hvisit
        by_cases hcount : decremented top.count = 0
        · rw [if_pos hcount] at hvisit
          cases below with
          | nil => cases hvisit
          | cons frame below =>
            cases hvisit
            refine ⟨?_, hframed.2⟩
            dsimp only
            rw [hframed.2.1, length_cons]
            push_cast
            rfl
        · rw [if_neg hcount] at hvisit
          cases hvisit
          refine ⟨?_, hframed.1, hframed.2⟩
          dsimp only
          rw [hframed.1, length_cons]
          push_cast
          rfl

theorem Stacked.visit_data (h : Stacked desc c) {e : Elem}
    (hvisit : Ddt.visit desc c = .data e c') :
    Stacked desc c' := by
  obtain ⟨hlen, hframed⟩ := h
  obtain ⟨pos, stack⟩ := c
  rw [Ddt.visit] at hvisit
  dsimp only at hvisit hlen hframed
  cases hget : desc[pos]? with
  | none =>
    rw [hget] at hvisit
    cases hvisit
  | some x =>
    rw [hget] at hvisit
    have hnext := level_next hget
    cases x with
    | elem e' =>
      dsimp only at hvisit
      by_cases hdata : e'.flags.data = true
      · rw [if_pos hdata] at hvisit
        cases hvisit
        rw [move, add_zero] at hnext
        refine ⟨?_, hframed⟩
        dsimp only
        rw [hnext]
        exact hlen
      · rw [if_neg hdata] at hvisit
        cases hvisit
    | loop l => cases hvisit
    | endLoop e' =>
      cases stack with
      | nil => cases hvisit
      | cons top below =>
        dsimp only at hvisit
        by_cases hcount : decremented top.count = 0
        · rw [if_pos hcount] at hvisit
          cases below with
          | nil | cons frame below => cases hvisit
        · rw [if_neg hcount] at hvisit
          cases hvisit

theorem Visits.stacked {p : Platform} {es : List ℕ} (h : Visits p desc c es c')
    (hc : Stacked desc c) : Stacked desc c' := by
  induction h with
  | refl c => exact hc
  | move hvisit _ ih => exact ih (hc.visit hvisit)
  | data hvisit _ ih => exact ih (hc.visit_data hvisit)

end Walks

section Reserves

/-- The frames of a convertor that is prepared for `t`: `static_stack`, or a stack from
`malloc`. -/
def convertorReserve (t : Datatype) : ℕ :=
  let required := (t.loops + 1) % 2 ^ 32
  if required > 5 then required else 5

/-- The frames that `opal_datatype_copy_content_same_ddt` reserves. -/
def copyReserve (t : Datatype) : ℕ := (t.loops + 1) % 2 ^ 32

/-- The frames that the optimizing pass and the counting functions reserve. -/
def passReserve (t : Datatype) : ℕ := (t.loops + 2) % 2 ^ 32

/-- The descriptions of `t`, with the end that is put behind them. -/
def descriptions (t : Datatype) : List (List Entry) :=
  [t.desc ++ [fakeEnd t], t.optDesc ++ [fakeEnd t]]

/-- One turn of the loop of the optimizing pass, which ends with an empty stack. -/
def passStep (p : Platform) (t : Datatype) (s s' : OptState) : Prop :=
  s.stack ≠ [] ∧ optStep .machine p (t.desc ++ [fakeEnd t]) (passReserve t) s = some s'

/-- Every walk over a description of `t` stays within the frames that are reserved. A
convertor that stops saves its position in one frame more. -/
structure StackFits (p : Platform) (t : Datatype) : Prop where
  convertor : ∀ desc ∈ descriptions t, ∀ count c, Comes true desc count c →
    c.stack.length + 1 ≤ convertorReserve t
  copy : ∀ desc ∈ descriptions t, ∀ count c, Comes false desc count c →
    c.stack.length ≤ copyReserve t
  optimize : ∀ s, Relation.ReflTransGen (passStep p t) optInit s →
    s.stack.length + 1 ≤ passReserve t
  counts : ∀ es c, Visits p (t.desc ++ [fakeEnd t]) walkStart es c → c.stack.length ≤ passReserve t

variable {p : Platform} {P : Datatype → AddCall → Prop} {t d : Datatype} {m : List ℤ}

theorem Built.optDesc_written (h : Built p KeepsLoops t m) :
    Written (deep t.desc) [] 0 t.optDesc := by
  induction h with
  | basic t =>
    rcases basicDatatype_cases p t with ⟨unavailable, hempty⟩ | ⟨_, _, _, hblock⟩
    · rw [hempty]
      exact ⟨rfl, le_refl 0, trivial, fun _ hf => nomatch hf⟩
    · rw [hblock]
      exact ⟨rfl, le_refl 0, trivial, fun _ hf => nomatch hf⟩
  | create expectedSize => exact ⟨rfl, le_refl 0, trivial, fun _ hf => nomatch hf⟩
  | @add base d m m' c hbase _ _ _ _ hrun ih _ =>
    cases AddCall.effect hrun with
    | lb hid hd | ub hid hd | void hid hvoid hd =>
      rw [hd]
      exact ih
    | data hid hvoid place hbounds hd =>
      have hdesc : d.desc = base.desc ++ newEntries c.added c.count c.disp c.stride := by
        rw [hd]
        rfl
      have hopt : d.optDesc = base.optDesc := by
        rw [hd]
        rfl
      rw [hopt, hdesc, deep_append hbase.covered.bracketed.level]
      exact ⟨ih.level, ih.deep_le.trans (le_max_left _ _), ih.balanced, ih.frames⟩
  | resize lb extent _ hrun ih =>
    rw [opalDatatypeResize_eq hrun]
    exact ih
  | @commit t d m ht hrun ih =>
    have hdesc : d.desc = t.desc := by rw [opalDatatypeCommit_eq hrun]
    rw [hdesc]
    rw [opalDatatypeCommit] at hrun
    by_cases hcommited : t.flags.commited = true
    · rw [if_pos hcommited] at hrun
      cases hrun
      exact ih
    rw [if_neg hcommited] at hrun
    by_cases hroom : t.desc.length < t.descLength
    · rw [if_pos hroom] at hrun
      dsimp only at hrun
      by_cases hnil : t.desc = []
      · rw [if_pos hnil] at hrun
        cases hrun
        exact ⟨rfl, deep_nonneg t.desc, trivial, fun _ hf => nomatch hf⟩
      · rw [if_neg hnil] at hrun
        cases hopt : opalDatatypeOptimizeShort p
            { t with flags := { t.flags with commited := true } } with
        | none =>
          rw [hopt] at hrun
          cases hrun
        | some opt =>
          rw [hopt] at hrun
          cases hrun
          exact Bracketed.optimized (t := { t with flags := { t.flags with commited := true } })
            ht.covered.bracketed hopt
    · rw [if_neg hroom] at hrun
      cases hrun

theorem Built.descriptions_shape (h : Built p KeepsLoops t m) :
    ∀ desc ∈ descriptions t, Balanced Loop.isContiguous desc ∧ deep desc ≤ deep t.desc := by
  have hclose : ∀ xs : List Entry, level move xs = 0 → deep (xs ++ [fakeEnd t]) = deep xs := by
    intro xs hxs
    rw [deep_append hxs]
    exact max_eq_left (deep_nonneg xs)
  have hcovered := h.covered
  have hopt := h.optDesc_written
  intro desc hdesc
  rw [descriptions, mem_cons, mem_singleton] at hdesc
  rcases hdesc with rfl | rfl
  · refine ⟨balanced_append (hcovered.bracketed.balanced.imp fun _ _ => trivial) trivial, ?_⟩
    rw [hclose _ hcovered.bracketed.level]
  · refine ⟨balanced_append hopt.balanced trivial, ?_⟩
    rw [hclose _ hopt.level]
    exact hopt.deep_le

theorem Covered.passing (h : Covered t) {s : OptState}
    (hs : Relation.ReflTransGen (passStep p t) optInit s) :
    Passing (t.desc ++ [fakeEnd t]) (deep t.desc) s ∨ Passed (deep t.desc) s := by
  have hclose := h.bracketed.close
  induction hs with
  | refl => exact .inl (passing_start _ _ (deep_nonneg t.desc))
  | tail _ hstep ih =>
    rcases ih with ih | ih
    · exact ih.step hclose.2 hclose.1 hstep.2
    · exact absurd ih.stack hstep.1

/-- The stack suffices for every datatype that is built without a call that resets the
counter of loops too low. -/
theorem Built.stack_fits (h : Built p KeepsLoops t m) : StackFits p t := by
  have hcovered := h.covered
  have hshape := h.descriptions_shape
  obtain ⟨hbracketed, hdeep, hspare, hlt⟩ := hcovered
  have hpass : passReserve t = t.loops + 2 := Nat.mod_eq_of_lt hlt
  have hcopy : (t.loops + 1) % 2 ^ 32 = t.loops + 1 := Nat.mod_eq_of_lt (by omega)
  constructor
  · intro desc hdesc count c hc
    obtain ⟨hbalanced, hle⟩ := hshape desc hdesc
    have hstack := (hc.stacked hbalanced).length_le
    rw [convertorReserve, hcopy]
    by_cases hrequired : t.loops + 1 > 5
    · rw [if_pos hrequired]
      omega
    · rw [if_neg hrequired]
      omega
  · intro desc hdesc count c hc
    obtain ⟨hbalanced, hle⟩ := hshape desc hdesc
    have hstack := (hc.stacked hbalanced).length_le
    rw [copyReserve, hcopy]
    omega
  · intro s hs
    rw [hpass]
    rcases h.covered.passing hs with hpassing | hpassed
    · have hlevel := hpassing.written.lvl_le
      have hstack := hpassing.stack
      omega
    · rw [hpassed.stack, length_nil]
      omega
  · intro es c hc
    have hstack := (hc.stacked (stacked_start _ 1)).length_le
    rw [hbracketed.close.2] at hstack
    rw [hpass]
    omega

end Reserves

section Instances

/-- The datatype of a call, behind those that are added before. -/
def addTo (t : Option Datatype) (added : Option Datatype) (count : ℕ) (disp extent : ℤ) :
    Option Datatype :=
  t.bind fun t => added.bind fun added => (AddCall.mk added count disp extent).run t

def int4 : Option Datatype := some (basicDatatype lp64 .int4)

/-- An `int` and a `char` with a gap between them. -/
def intChar : Option Datatype :=
  addTo (addTo (some (opalDatatypeCreate 2)) int4 1 0 (-1))
    (some (basicDatatype lp64 .int1)) 1 8 (-1)

/-- Two loops around `intChar`. -/
def twoLoops : Option Datatype :=
  addTo (some (opalDatatypeCreate 5))
    (addTo (some (opalDatatypeCreate 4)) intChar 2 0 16) 2 0 64

/-- Two `int` with a gap follow the two loops. -/
def resetLoops : Option Datatype := (addTo twoLoops int4 2 200 8).bind (opalDatatypeCommit lp64)

theorem keepsLoops_of_not_gapped {base : Datatype} {c : AddCall}
    (hgap : ¬gapped c.added c.count c.stride) (hcounter : base.loops + c.added.loops + 4 < 2 ^ 32) :
    KeepsLoops base c :=
  ⟨fun _ _ h => absurd h hgap, fun _ _ _ => hcounter⟩

theorem twoLoops_fits : ∃ t, twoLoops = some t ∧ deep t.desc = 2 ∧ StackFits lp64 t := by
  have hint : Built lp64 KeepsLoops _ _ :=
    .add ⟨basicDatatype lp64 .int4, 1, 0, -1⟩ (.create 2) rfl (.basic .int4) (by decide)
      (keepsLoops_of_not_gapped (by decide) (by decide)) rfl
  have hpair : Built lp64 KeepsLoops _ _ :=
    .add ⟨basicDatatype lp64 .int1, 1, 8, -1⟩ hint rfl (.basic .int1) (by decide)
      (keepsLoops_of_not_gapped (by decide) (by decide)) rfl
  have hinner : Built lp64 KeepsLoops _ _ :=
    .add ⟨_, 2, 0, 16⟩ (.create 4) rfl hpair (by decide)
      (keepsLoops_of_not_gapped (by decide) (by decide)) rfl
  have houter : Built lp64 KeepsLoops _ _ :=
    .add ⟨_, 2, 0, 64⟩ (.create 5) rfl hinner (by decide)
      (keepsLoops_of_not_gapped (by decide) (by decide)) rfl
  exact ⟨_, rfl, rfl, houter.stack_fits⟩

theorem comes_two {desc : List Entry} {l l' : Loop} (h0 : desc[0]? = some (.loop l))
    (h1 : desc[1]? = some (.loop l')) (hl : l.flags.contiguous = false)
    (hl' : l'.flags.contiguous = false) : ∃ c, Comes false desc 1 c ∧ c.stack.length = 3 := by
  have hfirst : ¬l.isContiguous := by
    rw [Loop.isContiguous, hl]
    exact Bool.false_ne_true
  have hsecond : ¬l'.isContiguous := by
    rw [Loop.isContiguous, hl']
    exact Bool.false_ne_true
  have houter : Comes false desc 1 ⟨1, [⟨0, l.loops⟩, ⟨-1, 1⟩]⟩ :=
    Relation.ReflTransGen.single (.enter h0 (.inl hfirst) (Nat.le_refl _))
  exact ⟨_, houter.tail (.enter h1 (.inl hsecond) (Nat.le_refl _)), rfl⟩

theorem not_fits_of_comes {p : Platform} {t : Datatype} {count : ℕ}
    (hcomes : ∃ c, Comes false (t.optDesc ++ [fakeEnd t]) count c ∧ c.stack.length = 3)
    (hreserve : copyReserve t = 2) : ¬StackFits p t := by
  intro hfits
  obtain ⟨c, hc, hlen⟩ := hcomes
  have hle := hfits.copy _ (mem_cons_of_mem _ mem_cons_self) count c hc
  rw [hlen, hreserve] at hle
  exact absurd hle (by decide)

/-- The copy of `resetLoops` has three frames in use where two are reserved. -/
theorem resetLoops_not_fits :
    ∃ t m, resetLoops = some t ∧ Built lp64 (fun _ _ => True) t m ∧ copyReserve t = 2 ∧
      (∃ c, Comes false (t.optDesc ++ [fakeEnd t]) 1 c ∧ c.stack.length = 3) ∧
      ¬StackFits lp64 t := by
  have hint : Built lp64 (fun _ _ => True) _ _ :=
    .add ⟨basicDatatype lp64 .int4, 1, 0, -1⟩ (.create 2) rfl (.basic .int4) (by decide) trivial rfl
  have hpair : Built lp64 (fun _ _ => True) _ _ :=
    .add ⟨basicDatatype lp64 .int1, 1, 8, -1⟩ hint rfl (.basic .int1) (by decide) trivial rfl
  have hinner : Built lp64 (fun _ _ => True) _ _ :=
    .add ⟨_, 2, 0, 16⟩ (.create 4) rfl hpair (by decide) trivial rfl
  have houter : Built lp64 (fun _ _ => True) _ _ :=
    .add ⟨_, 2, 0, 64⟩ (.create 5) rfl hinner (by decide) trivial rfl
  have hreset : Built lp64 (fun _ _ => True) _ _ :=
    .add ⟨basicDatatype lp64 .int4, 2, 200, 8⟩ houter rfl (.basic .int4) (by decide) trivial rfl
  have hbuilt : Built lp64 (fun _ _ => True) _ _ := .commit hreset rfl
  exact ⟨_, _, rfl, hbuilt, rfl, comes_two rfl rfl rfl rfl,
    not_fits_of_comes (comes_two rfl rfl rfl rfl) rfl⟩

end Instances

end Ulfm.Ddt
