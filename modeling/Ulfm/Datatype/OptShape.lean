import Ulfm.Datatype.Shape

/-!
# The nesting of an optimized description

`opal_datatype_optimize_short` keeps the brackets of a description: the optimized one is
not nested deeper, the loops that it marks as contiguous say where their end is, and its
own stack has one frame for each loop that is open.
-/

namespace Ulfm.Ddt

open List Option Nesting Entry

section Plain

/-- The loop is contiguous but for a gap, and its copies are packed without a look at its
body. -/
def Loop.isContiguous (l : Loop) : Prop := l.flags.contiguous = true

def Plain (xs : List Entry) : Prop := ∀ x ∈ xs, ∃ e, x = .elem e

theorem plain_nil : Plain [] := fun _ h => absurd h not_mem_nil

theorem plain_elem (e : Elem) : Plain [.elem e] := by
  intro x hx
  exact ⟨e, mem_singleton.mp hx⟩

theorem Plain.append {xs ys : List Entry} (hx : Plain xs) (hy : Plain ys) : Plain (xs ++ ys) := by
  intro x h
  exact (mem_append.mp h).elim (hx x) (hy x)

theorem plain_ite {P : Prop} [Decidable P] {xs ys : List Entry} (hx : Plain xs) (hy : Plain ys) :
    Plain (if P then xs else ys) := by
  by_cases h : P
  · rwa [if_pos h]
  · rwa [if_neg h]

/-- What is put into the optimized description behind `out` while `out` is at `level`: it
closes what it opens and is at most `rise` high. -/
structure Piece (rise : ℤ) (xs : List Entry) : Prop where
  level : level Entry.move xs = 0
  deep_le : deep xs ≤ rise
  balanced : Balanced Loop.isContiguous xs

theorem Plain.piece {xs : List Entry} (h : Plain xs) : Piece 0 xs := by
  induction xs with
  | nil => exact ⟨rfl, le_refl 0, trivial⟩
  | cons x xs ih =>
    obtain ⟨e, rfl⟩ := h x mem_cons_self
    obtain ⟨hlevel, hdeep, hbalanced⟩ := ih fun y hy => h y (mem_cons_of_mem _ hy)
    refine ⟨?_, ?_, hbalanced⟩
    · rw [level_cons, hlevel]
      rfl
    · rw [deep] at hdeep ⊢
      rw [height, move]
      omega

variable {r : ℤ} {xs ys : List Entry}

theorem Piece.append (hx : Piece r xs) (hy : Piece r ys) : Piece r (xs ++ ys) where
  level := by rw [level_append, hx.level, hy.level, add_zero]
  deep_le := by
    rw [deep_append hx.level]
    exact max_le hx.deep_le hy.deep_le
  balanced := balanced_append hx.balanced hy.balanced

theorem Piece.mono {s : ℤ} (h : Piece r xs) (hrs : r ≤ s) : Piece s xs :=
  ⟨h.level, h.deep_le.trans hrs, h.balanced⟩

end Plain

section Pieces

variable {w : Words} {p : Platform}

theorem Run.plain_flush (w : Words) (r : Run) : Plain (r.flush w).1 := by
  rw [Run.flush]
  by_cases h : r.length ≠ 0
  · rw [if_pos h]
    exact plain_elem _
  · rw [if_neg h]
    exact plain_nil

theorem plain_elemStep (totalDisp : ℤ) (e : Elem) (r : Run) :
    Plain (elemStep w p totalDisp e r).1 := by
  rw [elemStep]
  by_cases hjoin : e.flags.contiguous ∧ r.continuity p (totalDisp + e.disp) ∧
      e.extent = int32 (p.size e.type)
  · rw [if_pos hjoin]
    by_cases htype : e.type = r.type
    · rw [if_pos htype]
      exact plain_nil
    · rw [if_neg htype]
      by_cases hlength : r.length = 0
      · rw [if_pos hlength]
        exact plain_nil
      · rw [if_neg hlength]
        exact plain_nil
  · rw [if_neg hjoin]
    exact plain_ite (plain_elem _) plain_nil

theorem plain_wholeLoop (disp : ℤ) (l : Loop) (e : EndLoop) (r : Run) :
    Plain (wholeLoop w p disp l e r).1 := by
  rw [wholeLoop]
  by_cases hjoin : r.continuity p disp
  · rw [if_pos hjoin]
    exact plain_nil
  · rw [if_neg hjoin]
    exact plain_ite (plain_elem _) plain_nil

theorem plain_openLoop (w : Words) (r : Run) : Plain (openLoop w r).1 := by
  rw [openLoop]
  by_cases h : r.length ≠ 0
  · rw [if_pos h]
    exact r.plain_flush w
  · rw [if_neg h]
    exact plain_nil

theorem plain_unrolled (e : Elem) (extent : ℤ) (n : ℕ) (disp : ℤ) :
    Plain (unrolled w e extent n disp) := by
  induction n generalizing disp with
  | zero => exact plain_nil
  | succ n ih => exact (plain_elem _).append (ih (disp + extent))

theorem plain_smallLoop {l : Loop} {e : Elem} {xs : List Entry} (h : smallLoop w p l e = some xs) :
    Plain xs := by
  rw [smallLoop] at h
  by_cases hitems : l.items = 2
  · rw [if_pos hitems] at h
    by_cases hone : e.count = 1 ∧ e.extent = p.size e.type
    · rw [if_pos hone] at h
      cases h
      exact plain_elem _
    · rw [if_neg hone] at h
      by_cases hfew : l.loops < 3
      · rw [if_pos hfew] at h
        cases h
        exact plain_unrolled e l.extent l.loops e.disp
      · rw [if_neg hfew] at h
        cases h
  · rw [if_neg hitems] at h
    cases h

theorem piece_blockLoop (counter loopDisp : ℤ) (l : Loop) (e : EndLoop) :
    Piece 1 (blockLoop w counter loopDisp l e) :=
  ⟨rfl, le_refl 1, fun _ => ⟨Nat.le_refl 2, rfl⟩, trivial⟩

theorem piece_gapLoop (totalDisp loopDisp : ℤ) (l : Loop) (e : EndLoop) (r : Run) :
    Piece 1 (gapLoop w p totalDisp loopDisp l e r).1 := by
  rw [gapLoop]
  by_cases h : r.length ≠ 0
  · rw [if_pos h]
    exact ((plain_elem _).piece.mono (by decide)).append (piece_blockLoop _ _ _ _)
  · rw [if_neg h]
    exact piece_blockLoop _ _ _ _

end Pieces

section Items

theorem move_setItems (items : ℕ) (x : Entry) : (setItems items x).move = x.move := by
  cases x <;> rfl

theorem moves_modify (xs : List Entry) (i items : ℕ) :
    (xs.modify i (setItems items)).map Entry.move = xs.map Entry.move := by
  induction xs generalizing i with
  | nil => cases i <;> rfl
  | cons x xs ih =>
    cases i with
    | zero => rw [modify_zero_cons, map_cons, map_cons, move_setItems]
    | succ i => rw [modify_succ_cons, map_cons, map_cons, ih]

theorem balanced_modify {xs : List Entry} (h : Balanced Loop.isContiguous xs) {i : ℕ} {l : Loop}
    (hget : xs[i]? = some (.loop l)) (hl : l.flags.contiguous = false) (items : ℕ) :
    Balanced Loop.isContiguous (xs.modify i (setItems items)) := by
  induction xs generalizing i with
  | nil => cases hget
  | cons x xs ih =>
    cases i with
    | zero =>
      rw [getElem?_cons_zero] at hget
      cases hget
      rw [modify_zero_cons]
      refine ⟨fun hflag => ?_, h.2⟩
      rw [Loop.isContiguous, hl] at hflag
      cases hflag
    | succ i =>
      rw [getElem?_cons_succ] at hget
      rw [modify_succ_cons]
      cases x with
      | elem e | endLoop e => exact ih h hget
      | loop k =>
        refine ⟨fun hflag => ?_, ih h.2 hget⟩
        obtain ⟨hlen, hlevel⟩ := h.1 hflag
        have hmoves : ((xs.modify i (setItems items)).take k.items).map move
            = (xs.take k.items).map move := by
          rw [map_take, moves_modify, map_take]
        rw [length_modify, level_congr move hmoves]
        exact ⟨hlen, hlevel⟩

end Items

section Pass

/-- The optimized description `out` as far as it is written: it is at level `lvl`, nowhere
higher than `D`, and the frames stand for loops that are not contiguous. -/
structure Written (D : ℤ) (frames : List Frame) (lvl : ℤ) (out : List Entry) : Prop where
  level : level Entry.move out = lvl
  deep_le : deep out ≤ D
  balanced : Balanced Loop.isContiguous out
  frames : ∀ frame ∈ frames, ∃ l,
    out[(frame.index - 1).toNat]? = some (.loop l) ∧ l.flags.contiguous = false

variable {D lvl rise : ℤ} {frames : List Frame} {out xs : List Entry}

section

variable (h : Written D frames lvl out)
include h

theorem frames_append (xs : List Entry) : ∀ frame ∈ frames, ∃ l,
      (out ++ xs)[(frame.index - 1).toNat]? = some (.loop l) ∧ l.flags.contiguous = false := by
  intro frame hframe
  obtain ⟨l, hget, hl⟩ := h.frames frame hframe
  refine ⟨l, ?_, hl⟩
  rw [getElem?_append_left (List.getElem?_eq_some_iff.mp hget).1, hget]

theorem Written.lvl_le : lvl ≤ D := by
  have htake := level_take_le move out out.length
  rw [take_length, h.level] at htake
  exact htake.trans h.deep_le

theorem Written.piece (hxs : Piece rise xs) (hrise : lvl + rise ≤ D) :
    Written D frames lvl (out ++ xs) where
  level := by rw [level_append, hxs.level, add_zero, h.level]
  deep_le := by
    rw [deep, height_append, h.level]
    have hout := h.deep_le
    have hdeep := hxs.deep_le
    rw [deep] at hout hdeep
    omega
  balanced := balanced_append h.balanced hxs.balanced
  frames := frames_append h xs

theorem Written.plain (hxs : Plain xs) : Written D frames lvl (out ++ xs) :=
  h.piece hxs.piece (by rw [add_zero]; exact h.lvl_le)

theorem Written.close (e : EndLoop) : Written D frames (lvl - 1) (out ++ [.endLoop e]) where
  level := by
    rw [level_append, h.level]
    rfl
  deep_le := by
    have hend : height move [Entry.endLoop e] = 0 := rfl
    rw [deep, height_append, h.level, hend, add_zero]
    exact max_le h.deep_le h.lvl_le
  balanced := balanced_append h.balanced trivial
  frames := frames_append h _

theorem Written.open {l : Loop} (hl : l.flags.contiguous = false) (hlvl : lvl + 1 ≤ D) (disp : ℤ) :
    Written D (⟨(out ++ [Entry.loop l]).length, disp⟩ :: frames) (lvl + 1) (out ++ [.loop l]) where
  level := by
    rw [level_append, h.level]
    rfl
  deep_le := by
    have hstart : height move [Entry.loop l] = 1 := rfl
    rw [deep, height_append, h.level, hstart]
    exact max_le h.deep_le hlvl
  balanced := by
    refine balanced_append h.balanced ⟨fun hflag => ?_, trivial⟩
    rw [Loop.isContiguous, hl] at hflag
    cases hflag
  frames := by
    intro frame hframe
    rcases mem_cons.mp hframe with rfl | hframe
    · refine ⟨l, ?_, hl⟩
      have hindex : (((out ++ [Entry.loop l]).length : ℤ) - 1).toNat = out.length := by
        rw [length_append, length_singleton]
        omega
      rw [hindex, getElem?_append_right (Nat.le_refl _), Nat.sub_self, getElem?_cons_zero]
    · exact frames_append h _ frame hframe

end

theorem getElem?_modify_loop {i j items : ℕ} {l : Loop} (hget : xs[i]? = some (.loop l)) :
    ∃ k, (xs.modify j (setItems items))[i]? = some (.loop k) ∧ k.flags = l.flags := by
  rw [getElem?_modify, hget]
  by_cases hij : j = i
  · refine ⟨{ l with items := items }, ?_, rfl⟩
    rw [Option.map_eq_map, map_some, if_pos hij]
    rfl
  · refine ⟨l, ?_, rfl⟩
    rw [Option.map_eq_map, map_some, if_neg hij]

theorem Written.setItems (h : Written D frames lvl out) {frame : Frame} (hframe : frame ∈ frames)
    (items : ℕ) :
    Written D frames lvl (out.modify (frame.index - 1).toNat (setItems items)) where
  level := by rw [level_congr move (moves_modify out _ items), h.level]
  deep_le := by
    rw [deep, height_congr move (moves_modify out _ items)]
    exact h.deep_le
  balanced := by
    obtain ⟨l, hget, hl⟩ := h.frames frame hframe
    exact balanced_modify h.balanced hget hl items
  frames := by
    intro f hf
    obtain ⟨l, hget, hl⟩ := h.frames f hf
    obtain ⟨k, hk, hflags⟩ := getElem?_modify_loop hget
    exact ⟨k, hk, by rw [hflags, hl]⟩

theorem Written.mono (h : Written D frames lvl out) {frames' : List Frame}
    (hsub : ∀ f ∈ frames', f ∈ frames) : Written D frames' lvl out :=
  ⟨h.level, h.deep_le, h.balanced, fun f hf => h.frames f (hsub f hf)⟩

/-- The pass is at an entry of the description `desc`, whose deepest nesting is `D`. -/
structure Passing (desc : List Entry) (D : ℤ) (s : OptState) : Prop where
  stack_ne : s.stack ≠ []
  stack : (s.stack.length : ℤ) = level Entry.move (desc.take s.pos) + 1
  written : Written D s.stack.dropLast (Nesting.level Entry.move (desc.take s.pos)) s.out

structure Passed (D : ℤ) (s : OptState) : Prop where
  stack : s.stack = []
  length : s.run.length = 0
  out : ∃ o e, s.out = o ++ [Entry.endLoop e] ∧ Written D [] 0 o

variable {w : Words} {p : Platform} {desc : List Entry} {capacity : ℕ} {s s' : OptState}

theorem flush_length (r : Run) : (r.flush w).2.length = 0 := by
  rw [Run.flush]
  by_cases h : r.length ≠ 0
  · rw [if_pos h]
  · rw [if_neg h]
    exact not_not.mp h

theorem Passing.close (h : Passing desc D s) {e : EndLoop}
    (hget : desc[s.pos]? = some (.endLoop e)) (hstep : closeStep w e s = some s') :
    Passing desc D s' ∨ Passed D s' := by
  have hnext := level_next hget
  have hflushed := h.written.plain (s.run.plain_flush w)
  rw [closeStep] at hstep
  cases hstack : s.stack with
  | nil => exact absurd hstack h.stack_ne
  | cons frame rest =>
    rw [hstack] at hstep
    dsimp only at hstep
    have hlen := h.stack
    rw [hstack, length_cons] at hlen
    push_cast at hlen
    by_cases hrest : rest = []
    · rw [if_pos hrest] at hstep
      cases hstep
      rw [hrest, length_nil] at hlen
      have hzero : level move (desc.take s.pos) = 0 := by
        push_cast at hlen
        omega
      rw [hzero] at hflushed
      exact .inr ⟨rfl, flush_length s.run, _, _, rfl, hflushed.mono fun f hf => nomatch hf⟩
    · rw [if_neg hrest] at hstep
      cases hstep
      have hdrop : s.stack.dropLast = frame :: rest.dropLast := by
        rw [hstack, dropLast_cons_of_ne_nil hrest]
      rw [hdrop] at hflushed
      have hclosed := fun end' => (hflushed.close end').setItems mem_cons_self
        ((s.out ++ (s.run.flush w).1).length - frame.index + 1).toNat
      refine .inl ⟨hrest, ?_, ?_⟩
      · change (rest.length : ℤ) = level move (desc.take (s.pos + 1)) + 1
        rw [hnext, move]
        omega
      · change Written D rest.dropLast (level move (desc.take (s.pos + 1))) _
        rw [hnext]
        exact (hclosed _).mono fun f hf => mem_cons_of_mem _ hf

section

variable (h : Passing desc D s) (hD : deep desc = D) (hdesc : Balanced (fun _ => True) desc)
include h hD hdesc

theorem Passing.loop {l : Loop} (hget : desc[s.pos]? = some (.loop l))
    (hstep : loopStep w p desc capacity l s = some s') : Passing desc D s' := by
  have hnext := level_next hget
  have hroom : level move (desc.take s.pos) + 1 ≤ D := by
    have htake := level_take_le move desc (s.pos + 1)
    rwa [hnext, move, ← deep, hD] at htake
  have hskip := level_behind_loop hdesc hget trivial
  have hstack := h.stack
  have hwritten := h.written
  rw [loopStep] at hstep
  cases hend : endLoopAt desc (s.pos + l.items) with
  | none =>
    rw [hend] at hstep
    cases hstep
  | some e =>
    cases hframes : s.stack with
    | nil => exact absurd hframes h.stack_ne
    | cons frame below =>
      rw [hend, hframes] at hstep
      dsimp only at hstep
      rw [hframes] at hstack hwritten
      by_cases hcontiguous : l.flags.contiguous = true
      · rw [if_pos hcontiguous] at hstep
        cases hstep
        refine ⟨cons_ne_nil _ _, ?_, ?_⟩
        · rw [hskip]
          exact hstack
        · rw [hskip]
          by_cases hwhole : l.extent = e.size
          · rw [if_pos hwhole]
            exact hwritten.plain (plain_wholeLoop _ _ _ _)
          · rw [if_neg hwhole]
            exact hwritten.piece (piece_gapLoop _ _ _ _ _) hroom
      · rw [if_neg hcontiguous] at hstep
        have hopened := hwritten.plain (plain_openLoop w s.run)
        cases hsmall : (elemAt desc (s.pos + 1)).bind (smallLoop w p l) with
        | some small =>
          rw [hsmall] at hstep
          cases hstep
          obtain ⟨elem, _, hloop⟩ := bind_eq_some_iff.mp hsmall
          refine ⟨cons_ne_nil _ _, ?_, ?_⟩
          · rw [hskip]
            exact hstack
          · rw [hskip]
            exact hopened.plain (plain_smallLoop hloop)
        | none =>
          rw [hsmall] at hstep
          dsimp only at hstep
          by_cases hcapacity : (frame :: below).length < capacity
          · rw [if_pos hcapacity] at hstep
            cases hstep
            have hflag : l.flags.contiguous = false := Bool.eq_false_iff.mpr hcontiguous
            refine ⟨cons_ne_nil _ _, ?_, ?_⟩
            · rw [hnext, length_cons]
              push_cast
              rw [hstack]
              rfl
            · rw [hnext, dropLast_cons_of_ne_nil (cons_ne_nil _ _)]
              have hkept : ({ l.flags with data := false } : Flags).contiguous = false := hflag
              exact hopened.open (l := ⟨_, l.loops, l.items, l.extent⟩) hkept hroom s.totalDisp
          · rw [if_neg hcapacity] at hstep
            cases hstep

theorem Passing.step (hstep : optStep w p desc capacity s = some s') :
    Passing desc D s' ∨ Passed D s' := by
  rw [optStep] at hstep
  cases hget : desc[s.pos]? with
  | none =>
    rw [hget] at hstep
    cases hstep
  | some x =>
    rw [hget] at hstep
    cases x with
    | endLoop e => exact h.close hget hstep
    | loop l => exact .inl (h.loop hD hdesc hget hstep)
    | elem e =>
      dsimp only at hstep
      by_cases hdata : e.flags.data = true
      · rw [if_pos hdata] at hstep
        cases hstep
        have hnext := level_next hget
        rw [move, add_zero] at hnext
        refine .inl ⟨h.stack_ne, ?_, ?_⟩
        · rw [hnext]
          exact h.stack
        · rw [hnext]
          exact h.written.plain (plain_elemStep _ _ _)
      · rw [if_neg hdata] at hstep
        cases hstep
        exact .inl h

theorem Passing.run {fuel : ℕ}
    (hrun : optRun w p desc capacity fuel s = some s') : Passed D s' := by
  induction fuel generalizing s with
  | zero => cases hrun
  | succ fuel ih =>
    rw [optRun, if_neg h.stack_ne] at hrun
    cases hstep : optStep w p desc capacity s with
    | none =>
      rw [hstep] at hrun
      cases hrun
    | some next =>
      rw [hstep] at hrun
      dsimp only at hrun
      rcases h.step hD hdesc hstep with hnext | hnext
      · exact ih hnext hrun
      · cases fuel with
        | zero => cases hrun
        | succ fuel =>
          rw [optRun, if_pos hnext.stack] at hrun
          cases hrun
          exact hnext

end

end Pass

section Result

variable {p : Platform} {t : Datatype} {opt : List Entry}

theorem Bracketed.close (h : Bracketed t.desc) :
    Balanced (fun _ => True) (t.desc ++ [fakeEnd t]) ∧
      deep (t.desc ++ [fakeEnd t]) = deep t.desc := by
  constructor
  · exact balanced_append h.balanced trivial
  · rw [deep_append h.level]
    exact max_eq_left (deep_nonneg t.desc)

theorem passing_start (desc : List Entry) (D : ℤ) (hD : 0 ≤ D) : Passing desc D optInit where
  stack_ne := cons_ne_nil _ _
  stack := rfl
  written := ⟨rfl, hD, trivial, fun _ hf => nomatch hf⟩

theorem Bracketed.optimized (h : Bracketed t.desc)
    (hopt : opalDatatypeOptimizeShort p t = some opt) : Written (deep t.desc) [] 0 opt := by
  rw [opalDatatypeOptimizeShort, optimizeShort] at hopt
  cases hrun :
      optRun .machine p (t.desc ++ [fakeEnd t]) (t.loops + 2) (t.desc.length + 2) optInit with
  | none =>
    rw [hrun] at hopt
    cases hopt
  | some s =>
    rw [hrun] at hopt
    dsimp only at hopt
    have hpassed : Passed (deep t.desc) s :=
      (passing_start _ _ (deep_nonneg t.desc)).run h.close.2 h.close.1 hrun
    obtain ⟨o, e, hout, hwritten⟩ := hpassed.out
    rw [hpassed.length, hout, if_neg (not_not_intro rfl), List.append_nil, dropLast_concat] at hopt
    cases hopt
    exact hwritten

end Result

end Ulfm.Ddt
