import Mathlib.Data.List.Forall2

/-!
# Writing to a tape and reading it back

A tape is a state with a list of symbols written so far and a position up to
which they have been read. A writer appends symbols and a reader moves the
position over them; both may depend on a mode of the tape that neither changes.
`Mirror` says that what a writer leaves on the tape is what a reader turns back
into a given value.
-/

namespace Ulfm

open List

structure Tape (σ B M : Type) where
  Good : σ → Prop
  mode : σ → M
  written : σ → List B
  position : σ → ℕ
  advance : ℕ → σ → σ
  advance_zero : ∀ s, advance 0 s = s
  advance_advance : ∀ m n s, advance n (advance m s) = advance (m + n) s
  mode_advance : ∀ n s, mode (advance n s) = mode s
  written_advance : ∀ n s, written (advance n s) = written s
  position_advance : ∀ n s, position (advance n s) = position s + n
  good_advance : ∀ n s, Good s → position s + n ≤ (written s).length → Good (advance n s)

variable {σ B M ε α β : Type}

/-- The same writer for every element of a list, in order. -/
def each (f : α → EStateM ε σ Unit) : List α → EStateM ε σ Unit
  | [] => pure ()
  | a :: as => do
      f a
      each f as

/-- The same reader for every element of a list, with the results in order. -/
def collect (f : α → EStateM ε σ β) : List α → EStateM ε σ (List β)
  | [] => pure []
  | a :: as => do
      let b ← f a
      let bs ← collect f as
      return b :: bs

theorem bind_of_ok {x : EStateM ε σ α} {f : α → EStateM ε σ β} {s s' : σ} {a : α}
    (h : x s = .ok a s') : (x >>= f) s = f a s' := by
  change EStateM.bind x f s = f a s'
  rw [EStateM.bind, h]

namespace Tape

variable (T : Tape σ B M)

/-- What has been written and not yet read. -/
def unread (s : σ) : List B := (T.written s).drop (T.position s)

theorem unread_advance (n : ℕ) (s : σ) : T.unread (T.advance n s) = (T.unread s).drop n := by
  rw [unread, unread, T.written_advance, T.position_advance, drop_drop]

/-- A tape that differs from another by the symbols appended to it. -/
structure Extends (s s' : σ) (bs : List B) : Prop where
  good : T.Good s'
  mode : T.mode s' = T.mode s
  position : T.position s' = T.position s
  written : T.written s' = T.written s ++ bs

/-- In the given mode the action appends these symbols. -/
def Writes (m : M) (w : EStateM ε σ Unit) (bs : List B) : Prop :=
  ∀ s, T.Good s → T.mode s = m → ∃ s', w s = .ok () s' ∧ T.Extends s s' bs

/-- In the given mode the action turns these symbols into the value and moves
past them. -/
def Reads (m : M) (r : EStateM ε σ α) (bs : List B) (a : α) : Prop :=
  ∀ s rest, T.Good s → T.mode s = m → T.unread s = bs ++ rest → r s = .ok a (T.advance bs.length s)

variable {T} {m : M} {bs cs : List B}

theorem Extends.trans {s s' s'' : σ} (h : T.Extends s s' bs) (h' : T.Extends s' s'' cs) :
    T.Extends s s'' (bs ++ cs) where
  good := h'.good
  mode := h'.mode.trans h.mode
  position := h'.position.trans h.position
  written := by rw [h'.written, h.written, append_assoc]

theorem Extends.refl {s : σ} (h : T.Good s) : T.Extends s s [] := ⟨h, rfl, rfl, (append_nil _).symm⟩

theorem good_of_unread {s : σ} {rest : List B} (hs : T.Good s) (h : T.unread s = bs ++ rest) :
    T.Good (T.advance bs.length s) := by
  cases bs with
  | nil =>
    rw [length_nil, T.advance_zero]
    exact hs
  | cons b bs =>
    apply T.good_advance _ _ hs
    have hlen := congrArg length h
    rw [unread, length_drop, length_append, length_cons] at hlen
    rw [length_cons]
    omega

theorem Writes.pure : T.Writes m (pure () : EStateM ε σ Unit) [] := by
  intro s hs _
  exact ⟨s, rfl, Extends.refl hs⟩

theorem Writes.bind {w : EStateM ε σ Unit} {w' : Unit → EStateM ε σ Unit}
    (h : T.Writes m w bs) (h' : T.Writes m (w' ()) cs) : T.Writes m (w >>= w') (bs ++ cs) := by
  intro s hs hm
  obtain ⟨s₁, hw, h₁⟩ := h s hs hm
  obtain ⟨s₂, hw', h₂⟩ := h' s₁ h₁.good (h₁.mode.trans hm)
  exact ⟨s₂, by rw [bind_of_ok hw, hw'], h₁.trans h₂⟩

theorem Writes.unique {w : EStateM ε σ Unit} (h : T.Writes m w bs) (h' : T.Writes m w cs)
    {s : σ} (hs : T.Good s) (hm : T.mode s = m) : bs = cs := by
  obtain ⟨s₁, hw, h₁⟩ := h s hs hm
  obtain ⟨s₂, hw', h₂⟩ := h' s hs hm
  rw [hw] at hw'
  cases hw'
  exact append_cancel_left (h₁.written.symm.trans h₂.written)

theorem Reads.pure (a : α) : T.Reads m (pure a : EStateM ε σ α) [] a := by
  intro s rest _ _ _
  change EStateM.Result.ok a s = _
  rw [length_nil, T.advance_zero]

theorem Reads.bind {r : EStateM ε σ α} {f : α → EStateM ε σ β} {a : α} {b : β}
    (h : T.Reads m r bs a) (h' : T.Reads m (f a) cs b) : T.Reads m (r >>= f) (bs ++ cs) b := by
  intro s rest hs hm hu
  have hu₁ : T.unread s = bs ++ (cs ++ rest) := by rw [hu, append_assoc]
  have hr := h s (cs ++ rest) hs hm hu₁
  have hu₂ : T.unread (T.advance bs.length s) = cs ++ rest := by
    rw [T.unread_advance, hu₁, drop_left]
  have hf := h' _ rest (good_of_unread hs hu₁) ((T.mode_advance _ _).trans hm) hu₂
  rw [bind_of_ok hr, hf, T.advance_advance, length_append]

theorem Reads.congr {r r' : EStateM ε σ α} {a : α} (h : T.Reads m r bs a)
    (hr : ∀ s, T.mode s = m → r' s = r s) : T.Reads m r' bs a := by
  intro s rest hs hm hu
  rw [hr s hm]
  exact h s rest hs hm hu

theorem Writes.congr {w w' : EStateM ε σ Unit} (h : T.Writes m w bs)
    (hw : ∀ s, T.mode s = m → w' s = w s) : T.Writes m w' bs := by
  intro s hs hm
  rw [hw s hm]
  exact h s hs hm

variable (T m)

/-- What the writer leaves on the tape is what the reader turns into `a`. -/
def Mirror (w : EStateM ε σ Unit) (r : EStateM ε σ α) (a : α) : Prop :=
  ∃ bs, T.Writes m w bs ∧ T.Reads m r bs a

variable {T m}

theorem Mirror.nil (a : α) :
    T.Mirror m (Pure.pure () : EStateM ε σ Unit) (Pure.pure a : EStateM ε σ α) a :=
  ⟨[], Writes.pure, Reads.pure a⟩

theorem Mirror.bind {w : EStateM ε σ Unit} {w' : Unit → EStateM ε σ Unit}
    {r : EStateM ε σ α} {f : α → EStateM ε σ β} {a : α} {b : β}
    (h : T.Mirror m w r a) (h' : T.Mirror m (w' ()) (f a) b) :
    T.Mirror m (w >>= w') (r >>= f) b := by
  obtain ⟨bs, hw, hr⟩ := h
  obtain ⟨cs, hw', hr'⟩ := h'
  exact ⟨bs ++ cs, hw.bind hw', hr.bind hr'⟩

theorem Mirror.andThen {w : EStateM ε σ Unit} {r : EStateM ε σ α} {f : α → EStateM ε σ β}
    {a : α} {b : β} (h : T.Mirror m w r a) (hf : T.Reads m (f a) [] b) :
    T.Mirror m w (r >>= f) b := by
  obtain ⟨bs, hw, hr⟩ := h
  refine ⟨bs, hw, ?_⟩
  have h := hr.bind hf
  rwa [append_nil] at h

theorem Mirror.map {w : EStateM ε σ Unit} {r : EStateM ε σ α} {a : α} (h : T.Mirror m w r a)
    (f : α → β) : T.Mirror m w (r >>= fun x => Pure.pure (f x)) (f a) :=
  h.andThen (Reads.pure (f a))

theorem Mirror.forall₂ {γ : Type} {w : α → EStateM ε σ Unit} {r : γ → EStateM ε σ α}
    {as : List α} {slots : List γ}
    (h : List.Forall₂ (fun a c => T.Mirror m (w a) (r c) a) as slots) :
    T.Mirror m (each w as) (collect r slots) as := by
  induction h with
  | nil => exact Mirror.nil []
  | cons ha _ ih => exact ha.bind (ih.map _)

end Tape

end Ulfm
