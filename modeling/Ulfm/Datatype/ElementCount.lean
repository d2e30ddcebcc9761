import Ulfm.Datatype.Definitions
import Ulfm.Foundation.Lasso
import Ulfm.Foundation.Stride

/-!
# Counting basic elements

`opal_datatype_get_element_count` and `opal_datatype_set_element_count` walk over the
nested description with a stack of loops. After the last turn of a loop the walk goes
on with the first entry of the enclosing loop, where the pack functions go on with the
entry behind the loop. Loops that start together all get the count of the first one.
-/

namespace Ulfm.Ddt

open List

/-- The entries of a description, each loop with its body. -/
inductive Nest
  | nil
  | elem (e : Elem) (rest : Nest)
  | loop (l : Loop) (body : Nest) (e : EndLoop) (rest : Nest)
  deriving DecidableEq

namespace Nest

def flatten : Nest → List Entry
  | .nil => []
  | .elem e rest => .elem e :: rest.flatten
  | .loop l body e rest => .loop l :: (body.flatten ++ .endLoop e :: rest.flatten)

end Nest

section Walk

/-- `dt_stack_t`, as far as the walk uses it. -/
structure LoopFrame where
  index : ℤ
  count : ℕ
  deriving DecidableEq

/-- `pos_desc` and the stack, the top first. How many frames the caller reserves is not
modelled here. -/
structure Cursor where
  pos : ℕ
  stack : List LoopFrame
  deriving DecidableEq

inductive Visit
  | completed
  | move (c : Cursor)
  | data (e : Elem) (c : Cursor)
  | undefined
  deriving DecidableEq

/-- `--count` of a `size_t`. -/
def decremented (count : ℕ) : ℕ := (count + (2 ^ 64 - 1)) % 2 ^ 64

/-- The `do`-`while` over the loops that start here: `loop` is the first of them
throughout. -/
def openLoops (loops : ℕ) : List Entry → Cursor → Cursor
  | .loop _ :: desc, c => openLoops loops desc ⟨c.pos + 1, ⟨c.pos, loops⟩ :: c.stack⟩
  | _, c => c

def visit (desc : List Entry) (c : Cursor) : Visit :=
  match desc[c.pos]?, c.stack with
  | some (.endLoop _), top :: below =>
    if decremented top.count = 0 then
      match below with
      | [] => .completed
      -- the entry behind the loop would be at `c.pos + 1`
      | frame :: _ => .move ⟨(frame.index + 1).toNat, below⟩
    else
      .move ⟨(top.index + 1).toNat, { top with count := decremented top.count } :: below⟩
  | some (.loop l), _ => .move (openLoops l.loops (desc.drop c.pos) c)
  | some (.elem e), stack => if e.flags.data then .data e ⟨c.pos + 1, stack⟩ else .move c
  | _, _ => .undefined

def walkStart : Cursor := ⟨0, [⟨-1, 1⟩]⟩

/-- The loop of `opal_datatype_get_element_count`; sums in an `int32_t` wrap around. -/
def getElementCountFrom (p : Platform) (desc : List Entry) : ℕ → Cursor → ℤ → ℕ → Option ℤ
  | 0, _, _, _ => none
  | fuel + 1, c, nbElems, iSize =>
    match visit desc c with
    | .undefined => none
    | .completed => some nbElems
    | .move c => getElementCountFrom p desc fuel c nbElems iSize
    | .data e c =>
      let localSize := e.count * p.size e.type
      if localSize ≥ iSize then
        let localSize := iSize / p.size e.type
        let nbElems := int32 (nbElems + int32 localSize)
        some (if iSize - localSize * p.size e.type = 0 then nbElems else -1)
      else getElementCountFrom p desc fuel c (int32 (nbElems + e.count)) (iSize - localSize)

/-- `opal_datatype_get_element_count`. -/
def getElementCount (p : Platform) (t : Datatype) (fuel iSize : ℕ) : Option ℤ :=
  getElementCountFrom p (t.desc ++ [fakeEnd t]) fuel walkStart 0 iSize

/-- The loop of `opal_datatype_set_element_count`. -/
def setElementCountFrom (p : Platform) (desc : List Entry) : ℕ → Cursor → ℕ → ℕ → Option ℕ
  | 0, _, _, _ => none
  | fuel + 1, c, count, length =>
    match visit desc c with
    | .undefined => none
    | .completed => some length
    | .move c => setElementCountFrom p desc fuel c count length
    | .data e c =>
      if e.count ≥ count then some (length + count * p.size e.type)
      else
        setElementCountFrom p desc fuel c (count - e.count) (length + e.count * p.size e.type)

/-- `opal_datatype_set_element_count`: the length it stores. -/
def setElementCount (p : Platform) (t : Datatype) (fuel count : ℕ) : Option ℕ :=
  if t.elements = 0 then none
  else
    let length := t.size * (count / t.elements)
    if count % t.elements = 0 then some length
    else setElementCountFrom p (t.desc ++ [fakeEnd t]) fuel walkStart (count % t.elements) length

end Walk

section Sizes

def Elem.sizes (p : Platform) (e : Elem) : List ℕ := replicate e.count (p.size e.type)

def Nest.sizes (p : Platform) : Nest → List ℕ
  | .nil => []
  | .elem e rest => e.sizes p ++ rest.sizes p
  | .loop l body _ rest => (replicate l.loops (body.sizes p)).flatten ++ rest.sizes p

/-- What the walk reads once it has read `before` since the start of the loop it is in,
or nothing if the description has no loop: behind the first loop that it completes it
starts again with the enclosing one. `opening` is the count of the first of the loops
that start here. -/
def Nest.reread (p : Platform) (before : List ℕ) (opening : Option ℕ) : Nest → Option (Lasso ℕ)
  | .nil => none
  | .elem e rest => rest.reread p (before ++ e.sizes p) none
  | .loop l body _ _ =>
    match body.reread p [] (some (opening.getD l.loops)) with
    | none =>
      some ⟨before ++ (replicate (opening.getD l.loops) (body.sizes p)).flatten,
        before ++ (replicate l.loops (body.sizes p)).flatten⟩
    | some s => some ⟨before ++ s.stem, s.cycle⟩

/-- The sizes in the order in which the walk reads them. -/
def Nest.reading (p : Platform) (n : Nest) : Lasso ℕ :=
  (n.reread p [] none).getD (Lasso.ofList (n.sizes p))

/-- Elements have data, loops are run and have elements. -/
def Nest.Proper (p : Platform) : Nest → Prop
  | .nil => True
  | .elem e rest => e.flags.data = true ∧ 0 < p.size e.type ∧ rest.Proper p
  | .loop l body _ rest =>
    0 < l.loops ∧ l.loops < 2 ^ 32 ∧ body.sizes p ≠ [] ∧ body.Proper p ∧ rest.Proper p

variable {p : Platform} {n : Nest}

theorem Nest.Proper.sizes_pos (h : n.Proper p) : ∀ x ∈ n.sizes p, 0 < x := by
  induction n with
  | nil => simp [sizes]
  | elem e rest ih =>
    intro x hx
    rw [sizes, mem_append] at hx
    rcases hx with hx | hx
    · rw [eq_of_mem_replicate hx]
      exact h.2.1
    · exact ih h.2.2 x hx
  | loop l body e rest ihBody ih =>
    intro x hx
    rw [sizes, mem_append, mem_flatten] at hx
    rcases hx with ⟨xs, hxs, hx⟩ | hx
    · rw [eq_of_mem_replicate hxs] at hx
      exact ihBody h.2.2.2.1 x hx
    · exact ih h.2.2.2.2 x hx

theorem copies_ne_nil {k : ℕ} {l : List ℕ} (hk : 0 < k) (hl : l ≠ []) :
    (replicate k l).flatten ≠ [] := by
  obtain ⟨k, rfl⟩ : ∃ j, k = j + 1 := ⟨k - 1, by omega⟩
  rw [replicate_succ, flatten_cons]
  exact append_ne_nil_of_left_ne_nil hl _

theorem copies_pos {k : ℕ} {l : List ℕ} (hl : ∀ x ∈ l, 0 < x) :
    ∀ x ∈ (replicate k l).flatten, 0 < x := by
  intro x hx
  obtain ⟨xs, hxs, hx⟩ := mem_flatten.mp hx
  rw [eq_of_mem_replicate hxs] at hx
  exact hl x hx

theorem Nest.Proper.reread_positive (h : n.Proper p) {before : List ℕ}
    (hbefore : ∀ x ∈ before, 0 < x) {opening : Option ℕ} {s : Lasso ℕ}
    (hs : n.reread p before opening = some s) : s.Positive := by
  induction n generalizing before opening s with
  | nil => cases hs
  | elem e rest ih =>
    have helem : ∀ x ∈ e.sizes p, 0 < x := by
      intro x hx
      rw [eq_of_mem_replicate hx]
      exact h.2.1
    apply ih h.2.2 _ hs
    intro x hx
    exact (mem_append.mp hx).elim (hbefore x) (helem x)
  | loop l body e rest ihBody _ =>
    obtain ⟨hloops, _, hbody, hproper, _⟩ := h
    rw [reread] at hs
    cases hreread : body.reread p [] (some (opening.getD l.loops)) with
    | none =>
      rw [hreread] at hs
      cases hs
      refine ⟨append_ne_nil_of_right_ne_nil _ (copies_ne_nil hloops hbody), ?_, ?_⟩
      · intro x hx
        exact (mem_append.mp hx).elim (hbefore x) (copies_pos hproper.sizes_pos x)
      · intro x hx
        exact (mem_append.mp hx).elim (hbefore x) (copies_pos hproper.sizes_pos x)
    | some s' =>
      rw [hreread] at hs
      cases hs
      have hpos := ihBody hproper (fun _ hx => absurd hx not_mem_nil) hreread
      refine ⟨hpos.cycle_ne, ?_, hpos.cycle_pos⟩
      intro x hx
      exact (mem_append.mp hx).elim (hbefore x) (hpos.stem_pos x)

theorem Nest.Proper.reading_positive (h : n.Proper p) (hn : n.sizes p ≠ []) :
    (n.reading p).Positive := by
  rw [reading]
  cases hs : n.reread p [] none with
  | none => exact ⟨hn, fun _ hx => absurd hx not_mem_nil, h.sizes_pos⟩
  | some s => exact h.reread_positive (fun _ hx => absurd hx not_mem_nil) hs

end Sizes

section Visits

/-- The walk gets from one place to another and reads elements of these sizes. -/
inductive Visits (p : Platform) (desc : List Entry) : Cursor → List ℕ → Cursor → Prop
  | refl (c : Cursor) : Visits p desc c [] c
  | move {c c' c'' : Cursor} {es : List ℕ} (hvisit : visit desc c = .move c')
      (h : Visits p desc c' es c'') : Visits p desc c es c''
  | data {c c' c'' : Cursor} {e : Elem} {es : List ℕ} (hvisit : visit desc c = .data e c')
      (h : Visits p desc c' es c'') : Visits p desc c (e.sizes p ++ es) c''

variable {p : Platform} {desc : List Entry} {c c' c'' : Cursor} {es es' : List ℕ}

theorem Visits.trans (h : Visits p desc c es c') (h' : Visits p desc c' es' c'') :
    Visits p desc c (es ++ es') c'' := by
  induction h with
  | refl c => exact h'
  | move hvisit _ ih => exact .move hvisit (ih h')
  | data hvisit _ ih =>
    rw [List.append_assoc]
    exact .data hvisit (ih h')

theorem Visits.turns (h : Visits p desc c es c) (k : ℕ) :
    Visits p desc c (replicate k es).flatten c := by
  induction k with
  | zero => exact .refl c
  | succ k ih =>
    rw [replicate_succ, flatten_cons]
    exact h.trans ih

theorem getElem?_of_drop {α : Type*} {l t : List α} {i : ℕ} {x : α} (h : l.drop i = x :: t) :
    l[i]? = some x ∧ l.drop (i + 1) = t := by
  constructor
  · rw [← Nat.add_zero i, ← getElem?_drop, h, getElem?_cons_zero]
  · rw [← drop_drop, h, drop_succ_cons, drop_zero]

theorem decremented_succ {count : ℕ} (h : count < 2 ^ 64) : decremented (count + 1) = count := by
  rw [decremented]
  omega

variable {n : Nest} {pos : ℕ} {B : List Entry} {stack : List LoopFrame} {opening : Option ℕ}

theorem visits_plain (hn : n.Proper p) {before : List ℕ} (hplain : n.reread p before opening = none)
    (hdesc : desc.drop pos = n.flatten ++ B) :
    Visits p desc ⟨pos, stack⟩ (n.sizes p) ⟨pos + n.flatten.length, stack⟩ := by
  induction n generalizing pos before opening with
  | nil => exact .refl _
  | elem e rest ih =>
    obtain ⟨hget, hdrop⟩ := getElem?_of_drop hdesc
    have hvisit : visit desc ⟨pos, stack⟩ = .data e ⟨pos + 1, stack⟩ := by
      rw [visit, hget]
      exact if_pos hn.1
    have hrest := ih hn.2.2 hplain hdrop
    rw [Nest.flatten, length_cons, Nat.add_comm rest.flatten.length, ← Nat.add_assoc]
    exact .data hvisit hrest
  | loop l body e rest _ _ =>
    rw [Nest.reread] at hplain
    cases hreread : body.reread p [] (some (opening.getD l.loops)) with
    | none | some s =>
      rw [hreread] at hplain
      cases hplain

theorem visits_loop {body : Nest} {e : EndLoop} {top : LoopFrame} (hbody : body.Proper p)
    (hplain : body.reread p [] opening = none)
    (hdesc : desc.drop (pos + 1) = body.flatten ++ Entry.endLoop e :: B) {count : ℕ}
    (hpos : 0 < count) (hlt : count < 2 ^ 32) :
    Visits p desc ⟨pos + 1, ⟨pos, count⟩ :: top :: stack⟩
      (replicate count (body.sizes p)).flatten ⟨(top.index + 1).toNat, top :: stack⟩ := by
  have hend : desc[pos + 1 + body.flatten.length]? = some (.endLoop e) := by
    rw [← getElem?_drop, hdesc, getElem?_append_right (Nat.le_refl _), Nat.sub_self,
      getElem?_cons_zero]
  have hindex : ((pos : ℤ) + 1).toNat = pos + 1 := by omega
  induction count with
  | zero => omega
  | succ count ih =>
    rw [replicate_succ, flatten_cons]
    refine (visits_plain hbody hplain hdesc).trans ?_
    have hdecr : decremented (count + 1) = count := decremented_succ (by omega)
    by_cases hzero : count = 0
    · subst hzero
      apply Visits.move _ (Visits.refl _)
      rw [visit, hend]
      exact if_pos hdecr
    · refine Visits.move ?_ (ih (by omega) (by omega))
      rw [visit, hend]
      dsimp only
      rw [hdecr, if_neg hzero, hindex]

/-- No loop starts where a description has none. -/
theorem openLoops_plain {before : List ℕ} (hplain : n.reread p before opening = none) (loops : ℕ)
    {e : EndLoop} (c : Cursor) :
    openLoops loops (n.flatten ++ Entry.endLoop e :: B) c = c := by
  cases n with
  | nil => rfl
  | elem e rest => rfl
  | loop l body e rest =>
    rw [Nest.reread] at hplain
    cases hreread : body.reread p [] (some (opening.getD l.loops)) with
    | none | some s =>
      rw [hreread] at hplain
      cases hplain

/-- Where the walk is once it has opened the loops that start at `pos`, if it opens any. -/
def opened (desc : List Entry) (pos : ℕ) (stack : List LoopFrame) : Option ℕ → Cursor
  | none => ⟨pos, stack⟩
  | some loops => openLoops loops (desc.drop pos) ⟨pos, stack⟩

theorem visits_reread (hn : n.Proper p) {before : List ℕ} {s : Lasso ℕ}
    (hopening : ∀ loops ∈ opening, 0 < loops ∧ loops < 2 ^ 32)
    (hs : n.reread p before opening = some s) (hdesc : desc.drop pos = n.flatten ++ B)
    {top : LoopFrame} (hbefore : Visits p desc c before (opened desc pos (top :: stack) opening))
    (hagain : Visits p desc ⟨(top.index + 1).toNat, top :: stack⟩ before ⟨pos, top :: stack⟩) :
    ∃ c', Visits p desc c s.stem c' ∧ Visits p desc c' s.cycle c' := by
  induction n generalizing pos before opening s stack top B c with
  | nil => cases hs
  | elem e rest ih =>
    obtain ⟨hget, hdrop⟩ := getElem?_of_drop hdesc
    have hvisit : visit desc ⟨pos, top :: stack⟩ = .data e ⟨pos + 1, top :: stack⟩ := by
      rw [visit, hget]
      exact if_pos hn.1
    have helem : Visits p desc ⟨pos, top :: stack⟩ (e.sizes p) ⟨pos + 1, top :: stack⟩ := by
      have hdata := Visits.data hvisit (Visits.refl (p := p) _)
      rwa [List.append_nil] at hdata
    have hhere : opened desc pos (top :: stack) opening = ⟨pos, top :: stack⟩ := by
      cases opening with
      | none => rfl
      | some loops =>
        rw [opened, hdesc]
        rfl
    rw [hhere] at hbefore
    exact ih hn.2.2 (fun _ h => absurd h (Option.not_mem_none _)) hs hdrop (hbefore.trans helem)
      (hagain.trans helem)
  | loop l body e rest ihBody _ =>
    obtain ⟨hloops, hlt, _, hbody, _⟩ := hn
    rw [Nest.flatten, cons_append, List.append_assoc, cons_append] at hdesc
    obtain ⟨hget, hdrop⟩ := getElem?_of_drop hdesc
    have hindex : ((pos : ℤ) + 1).toNat = pos + 1 := by omega
    have hcount : 0 < opening.getD l.loops ∧ opening.getD l.loops < 2 ^ 32 := by
      cases opening with
      | none => exact ⟨hloops, hlt⟩
      | some loops => exact hopening loops rfl
    have hopen : visit desc ⟨pos, top :: stack⟩ =
        .move (opened desc (pos + 1) (⟨pos, l.loops⟩ :: top :: stack) (some l.loops)) := by
      rw [visit, hget, opened, hdrop]
      dsimp only
      rw [hdesc]
      rfl
    have hstart : Visits p desc c before (opened desc (pos + 1)
        (⟨pos, opening.getD l.loops⟩ :: top :: stack) (some (opening.getD l.loops))) := by
      cases opening with
      | none =>
        have hmove := hbefore.trans (.move hopen (.refl _))
        rwa [List.append_nil] at hmove
      | some loops =>
        rw [opened, hdesc] at hbefore
        rw [opened, hdrop]
        exact hbefore
    rw [Nest.reread] at hs
    cases hreread : body.reread p [] (some (opening.getD l.loops)) with
    | none =>
      rw [hreread] at hs
      cases hs
      rw [opened, hdrop, openLoops_plain hreread] at hstart hopen
      exact ⟨_, hstart.trans (visits_loop hbody hreread hdrop hcount.1 hcount.2),
        hagain.trans (.move hopen (visits_loop hbody hreread hdrop hloops hlt))⟩
    | some s' =>
      rw [hreread] at hs
      cases hs
      have hbodyStart : Visits p desc
          ⟨((LoopFrame.mk pos (opening.getD l.loops)).index + 1).toNat,
            ⟨pos, opening.getD l.loops⟩ :: top :: stack⟩ []
          ⟨pos + 1, ⟨pos, opening.getD l.loops⟩ :: top :: stack⟩ := by
        rw [hindex]
        exact .refl _
      have hin : ∀ loops ∈ some (opening.getD l.loops), 0 < loops ∧ loops < 2 ^ 32 := by
        rintro loops ⟨⟩
        exact hcount
      obtain ⟨c', hstem, hcycle⟩ := ihBody hbody hin hreread hdrop (.refl _) hbodyStart
      exact ⟨c', hstart.trans hstem, hcycle⟩

end Visits

section Runs

variable {p : Platform} {desc : List Entry} {c c' : Cursor} {es : List ℕ}

/-- The count that is right for `n` bytes of these elements, behind `m` others; `-1` if
no number of elements has that size. -/
def Counted (es : List ℕ) (n m : ℕ) (r : ℤ) : Prop :=
  (∃ k ≤ es.length, (es.take k).sum = n ∧ r = int32 ((m + k : ℕ) : ℤ)) ∨
    ((∀ k ≤ es.length, (es.take k).sum ≠ n) ∧ r = -1)

theorem int32_add (a b : ℤ) : int32 (int32 a + b) = int32 (a + b) := by
  rw [int32, int32, int32, Int.bmod_add_bmod]

theorem sum_take_sizes (e : Elem) {k : ℕ} (hk : k ≤ e.count) :
    ((e.sizes p ++ es).take k).sum = k * p.size e.type := by
  have hlen : k ≤ (e.sizes p).length := by rwa [Elem.sizes, length_replicate]
  rw [take_append_of_le_length hlen, Elem.sizes, take_replicate, Nat.min_eq_left hk,
    sum_replicate, Nat.nsmul_eq_mul]

theorem sum_take_sizes_add (e : Elem) (k : ℕ) :
    ((e.sizes p ++ es).take (e.count + k)).sum = e.count * p.size e.type + (es.take k).sum := by
  have hlen : (e.sizes p).length = e.count := length_replicate
  rw [← hlen, take_length_add_append, sum_append, hlen, Elem.sizes, sum_replicate, Nat.nsmul_eq_mul]

theorem counted_here (e : Elem) {n : ℕ} (hn : n ≤ e.count * p.size e.type) (m : ℕ) :
    Counted (e.sizes p ++ es) n m (if n - n / p.size e.type * p.size e.type = 0 then
        int32 (int32 m + int32 ((n / p.size e.type : ℕ) : ℤ)) else -1) := by
  have hq : n / p.size e.type ≤ e.count := Nat.div_le_of_le_mul (by rwa [Nat.mul_comm])
  have hlen : e.count ≤ (e.sizes p ++ es).length := by
    rw [length_append, Elem.sizes, length_replicate]
    exact Nat.le_add_right _ _
  by_cases hrest : n - n / p.size e.type * p.size e.type = 0
  · rw [if_pos hrest]
    refine .inl ⟨n / p.size e.type, hq.trans hlen, ?_, ?_⟩
    · rw [sum_take_sizes e hq]
      have hle := Nat.div_mul_le_self n (p.size e.type)
      omega
    · rw [int32_add, add_comm, int32_add]
      push_cast
      rw [add_comm]
  · rw [if_neg hrest]
    refine .inr ⟨fun k hk hsum => ?_, rfl⟩
    rcases Nat.le_total k e.count with hkc | hkc
    · -- inside the entry the partial sums are multiples of its size
      rw [sum_take_sizes e hkc] at hsum
      apply hrest
      rcases Nat.eq_zero_or_pos (p.size e.type) with hz | hpos
      · rw [hz, Nat.mul_zero] at hsum
        omega
      · rw [← hsum, Nat.mul_div_cancel _ hpos, Nat.sub_self]
    · obtain ⟨j, rfl⟩ := Nat.exists_eq_add_of_le hkc
      rw [sum_take_sizes_add] at hsum
      have hend : n = e.count * p.size e.type := by omega
      rcases Nat.eq_zero_or_pos (p.size e.type) with hz | hpos
      · rw [hz, Nat.mul_zero] at hend
        omega
      · apply hrest
        rw [hend, Nat.mul_div_cancel _ hpos, Nat.sub_self]

theorem counted_behind (e : Elem) {n m : ℕ} {r : ℤ} (hn : e.count * p.size e.type < n)
    (h : Counted es (n - e.count * p.size e.type) (m + e.count) r) :
    Counted (e.sizes p ++ es) n m r := by
  have hlen : (e.sizes p ++ es).length = e.count + es.length := by
    rw [length_append, Elem.sizes, length_replicate]
  rcases h with ⟨k, hk, hsum, hr⟩ | ⟨hnone, hr⟩
  · refine .inl ⟨e.count + k, by omega, ?_, ?_⟩
    · rw [sum_take_sizes_add, hsum]
      omega
    · rw [hr, Nat.add_assoc]
  · refine .inr ⟨fun k hk hsum => ?_, hr⟩
    rcases Nat.le_total k e.count with hkc | hkc
    · rw [sum_take_sizes e hkc] at hsum
      have hle := Nat.mul_le_mul_right (p.size e.type) hkc
      omega
    · obtain ⟨j, rfl⟩ := Nat.exists_eq_add_of_le hkc
      rw [sum_take_sizes_add] at hsum
      exact hnone j (by omega) (by omega)

theorem Visits.counts (h : Visits p desc c es c') (hes : ∀ x ∈ es, 0 < x) (hne : es ≠ []) {n : ℕ}
    (hn : n ≤ es.sum) (m : ℕ) :
    ∃ fuel r, getElementCountFrom p desc fuel c (int32 m) n = some r ∧ Counted es n m r := by
  induction h generalizing n m with
  | refl c => exact absurd rfl hne
  | move hvisit _ ih =>
    obtain ⟨fuel, r, hrun, hr⟩ := ih hes hne hn m
    refine ⟨fuel + 1, r, ?_, hr⟩
    rw [getElementCountFrom, hvisit]
    exact hrun
  | @data c c' c'' e es hvisit _ ih =>
    have hsum : (e.sizes p ++ es).sum = e.count * p.size e.type + es.sum := by
      rw [sum_append, Elem.sizes, sum_replicate, Nat.nsmul_eq_mul]
    have hpos : ∀ x ∈ es, 0 < x := fun x hx => hes x (mem_append_right _ hx)
    by_cases hhere : n ≤ e.count * p.size e.type
    · refine ⟨1, _, ?_, counted_here e hhere m⟩
      rw [getElementCountFrom, hvisit]
      dsimp only
      rw [if_pos hhere]
    · have hrest : n - e.count * p.size e.type ≤ es.sum := by omega
      have hesne : es ≠ [] := by
        rintro rfl
        rw [sum_nil] at hsum
        omega
      obtain ⟨fuel, r, hrun, hr⟩ := ih hpos hesne hrest (m + e.count)
      refine ⟨fuel + 1, r, ?_, counted_behind e (by omega) hr⟩
      rw [getElementCountFrom, hvisit]
      dsimp only
      rw [if_neg hhere, int32_add, ← hrun]
      push_cast
      rfl

theorem Visits.measures (h : Visits p desc c es c') (hne : es ≠ []) {k : ℕ} (hk : k ≤ es.length)
    (length : ℕ) :
    ∃ fuel, setElementCountFrom p desc fuel c k length = some (length + (es.take k).sum) := by
  induction h generalizing k length with
  | refl c => exact absurd rfl hne
  | move hvisit _ ih =>
    obtain ⟨fuel, hrun⟩ := ih hne hk length
    refine ⟨fuel + 1, ?_⟩
    rw [setElementCountFrom, hvisit]
    exact hrun
  | @data c c' c'' e es hvisit _ ih =>
    have hlen : (e.sizes p ++ es).length = e.count + es.length := by
      rw [length_append, Elem.sizes, length_replicate]
    by_cases hhere : k ≤ e.count
    · refine ⟨1, ?_⟩
      rw [setElementCountFrom, hvisit]
      dsimp only
      rw [if_pos hhere, sum_take_sizes e hhere]
    · have hesne : es ≠ [] := by
        rintro rfl
        rw [length_nil] at hlen
        omega
      obtain ⟨j, rfl⟩ := Nat.exists_eq_add_of_le (Nat.le_of_not_le hhere)
      obtain ⟨fuel, hrun⟩ := ih hesne (k := j) (by omega) (length + e.count * p.size e.type)
      refine ⟨fuel + 1, ?_⟩
      rw [setElementCountFrom, hvisit]
      dsimp only
      rw [if_neg hhere, sum_take_sizes_add, ← Nat.add_assoc, ← hrun, Nat.add_sub_cancel_left]

theorem getElementCountFrom_mono {nbElems r : ℤ} {fuel fuel' n : ℕ}
    (h : getElementCountFrom p desc fuel c nbElems n = some r) (hfuel : fuel ≤ fuel') :
    getElementCountFrom p desc fuel' c nbElems n = some r := by
  induction fuel generalizing fuel' c nbElems n with
  | zero => cases h
  | succ fuel ih =>
    obtain ⟨fuel', rfl⟩ : ∃ k, fuel' = k + 1 := ⟨fuel' - 1, by omega⟩
    have hle : fuel ≤ fuel' := Nat.le_of_succ_le_succ hfuel
    rw [getElementCountFrom] at h ⊢
    cases hvisit : visit desc c with
    | undefined | completed => rwa [hvisit] at h
    | move c' =>
      rw [hvisit] at h
      exact ih h hle
    | data e c' =>
      rw [hvisit] at h
      dsimp only at h ⊢
      by_cases hhere : e.count * p.size e.type ≥ n
      · rwa [if_pos hhere] at h ⊢
      · rw [if_neg hhere] at h ⊢
        exact ih h hle

theorem setElementCountFrom_mono {fuel fuel' k length r : ℕ}
    (h : setElementCountFrom p desc fuel c k length = some r) (hfuel : fuel ≤ fuel') :
    setElementCountFrom p desc fuel' c k length = some r := by
  induction fuel generalizing fuel' c k length with
  | zero => cases h
  | succ fuel ih =>
    obtain ⟨fuel', rfl⟩ : ∃ j, fuel' = j + 1 := ⟨fuel' - 1, by omega⟩
    have hle : fuel ≤ fuel' := Nat.le_of_succ_le_succ hfuel
    rw [setElementCountFrom] at h ⊢
    cases hvisit : visit desc c with
    | undefined | completed => rwa [hvisit] at h
    | move c' =>
      rw [hvisit] at h
      exact ih h hle
    | data e c' =>
      rw [hvisit] at h
      dsimp only at h ⊢
      by_cases hhere : e.count ≥ k
      · rwa [if_pos hhere] at h ⊢
      · rw [if_neg hhere] at h ⊢
        exact ih h hle

end Runs

end Ulfm.Ddt
