import Ulfm.Dss.Scan

/-!
# Reading a loaded buffer

`Spec d x S R` says of an action on a buffer loaded in the mode `d`: it reads inside the payload
only; where it succeeds it refuses nothing and moves over bytes that are in the relation `R` with
its value; where it goes astray the unread bytes are in `S`.
-/

namespace Ulfm.Dss

open List

namespace Scan

variable {α β : Type}

/-- A pointer that is not before the payload, which has its header and fits in an `int32_t`. -/
structure Loaded.Good (s : Loaded) : Prop where
  unpackPtr_nonneg : 0 ≤ s.unpackPtr
  packPtr_lt : s.packPtr < s.payload.length
  length_lt : s.payload.length < 2 ^ 31

namespace Loaded

def unread (s : Loaded) : List UInt8 :=
  (s.payload.drop s.unpackPtr.toNat).take (s.packPtr - s.unpackPtr).toNat

end Loaded

/-- A read inside the payload before the header. -/
def Inside (packPtr : ℤ) : Access → Prop
  | .read offset length => 0 ≤ offset ∧ offset + length ≤ packPtr
  | .refused _ => False

/-- A read inside the payload before the header, or none. -/
def Attempted (packPtr : ℤ) : Access → Prop
  | .read offset length => 0 ≤ offset ∧ offset + length ≤ packPtr
  | .refused _ => True

/-- What an action may do to the buffer, its accesses being of a kind. -/
structure Moves (P : ℤ → Access → Prop) (s s' : Loaded) : Prop where
  type : s'.type = s.type
  payload : s'.payload = s.payload
  packPtr : s'.packPtr = s.packPtr
  le : s.unpackPtr ≤ s'.unpackPtr
  moved : s'.unpackPtr = s.unpackPtr ∨ s'.unpackPtr ≤ s.packPtr
  log : ∃ new, s'.log = new ++ s.log ∧ ∀ a ∈ new, P s.packPtr a

namespace Moves

variable {P Q : ℤ → Access → Prop} {s s' s'' : Loaded}

theorem refl (s : Loaded) : Moves P s s := ⟨rfl, rfl, rfl, le_rfl, .inl rfl, [], rfl, nofun⟩

theorem imp (h : Moves P s s') (hPQ : ∀ p a, P p a → Q p a) : Moves Q s s' := by
  obtain ⟨new, hlog, hnew⟩ := h.log
  exact ⟨h.type, h.payload, h.packPtr, h.le, h.moved, new, hlog, fun a ha => hPQ _ a (hnew a ha)⟩

theorem trans (h : Moves P s s') (h' : Moves P s' s'') : Moves P s s'' := by
  obtain ⟨new, hlog, hnew⟩ := h.log
  obtain ⟨new', hlog', hnew'⟩ := h'.log
  have hmoved := h.moved
  have hmoved' := h'.moved
  have hle := h.le
  have hpack := h.packPtr
  refine ⟨h'.type.trans h.type, h'.payload.trans h.payload, h'.packPtr.trans h.packPtr,
    h.le.trans h'.le, by omega, new' ++ new, by rw [hlog', hlog, List.append_assoc], ?_⟩
  intro a ha
  rcases mem_append.1 ha with ha | ha
  · exact hpack ▸ hnew' a ha
  · exact hnew a ha

theorem good (h : Moves P s s') (hs : s.Good) : s'.Good := by
  have hle := h.le
  have hpos := hs.unpackPtr_nonneg
  refine ⟨by omega, ?_, ?_⟩
  · rw [h.packPtr, h.payload]
    exact hs.packPtr_lt
  · rw [h.payload]
    exact hs.length_lt

theorem fullyDesc (h : Moves P s s') : s'.fullyDesc = s.fullyDesc := by
  rw [Loaded.fullyDesc, Loaded.fullyDesc, h.type]

end Moves

theorem Inside.attempted (p : ℤ) (a : Access) (h : Inside p a) : Attempted p a := by
  cases a with
  | read offset length => exact h
  | refused length => exact trivial

/-- The outcome of an action from a state. -/
def Fits (s : Loaded) (S : List UInt8 → Prop) (R : α → List UInt8 → Prop) :
    EStateM.Result Halt Loaded α → Prop
  | .ok a s' => Moves Inside s s' ∧ ∃ bs, s.unread = bs ++ s'.unread ∧ R a bs
  | .error (.status _) s' => Moves Attempted s s'
  | .error .stray s' => Moves Attempted s s' ∧ S s.unread

def Spec (d : Bool) (x : Scan α) (S : List UInt8 → Prop) (R : α → List UInt8 → Prop) : Prop :=
  ∀ s : Loaded, s.Good → s.fullyDesc = d → Fits s S R (x s)

namespace Spec

variable {d : Bool} {x x' : Scan α} {S S' : List UInt8 → Prop} {R R' : α → List UInt8 → Prop}

theorem imp (h : Spec d x S R) (hS : ∀ u, S u → S' u) (hR : ∀ a bs, R a bs → R' a bs) :
    Spec d x S' R' := by
  intro s hs hd
  have hfits := h s hs hd
  revert hfits
  cases x s with
  | ok a s' => exact fun ⟨hmoves, bs, hunread, hr⟩ => ⟨hmoves, bs, hunread, hR a bs hr⟩
  | error e s' =>
    cases e with
    | status rc => exact id
    | stray => exact fun ⟨hmoves, hs⟩ => ⟨hmoves, hS _ hs⟩

theorem congr (h : Spec d x S R) (hx : ∀ s : Loaded, s.fullyDesc = d → x' s = x s) :
    Spec d x' S R := by
  intro s hs hd
  rw [hx s hd]
  exact h s hs hd

theorem pure {a : α} (h : R a []) : Spec d (pure a) S R := fun s _ _ => ⟨Moves.refl s, [], rfl, h⟩

theorem fail (rc : Status) : Spec d (Scan.fail rc : Scan α) S R := fun s _ _ => Moves.refl s

theorem stray (h : ∀ u, S u) : Spec d (throw .stray : Scan α) S R :=
  fun s _ _ => ⟨Moves.refl s, h _⟩

theorem bind {y : α → Scan β} {T : α → List UInt8 → Prop} {Q : α → β → List UInt8 → Prop}
    {S' : List UInt8 → Prop} {Q' : β → List UInt8 → Prop}
    (hx : Spec d x S R) (hy : ∀ a bs, R a bs → Spec d (y a) (T a) (Q a)) (hS : ∀ u, S u → S' u)
    (hT : ∀ a bs rest, R a bs → T a rest → S' (bs ++ rest))
    (hQ : ∀ a bs b bs', R a bs → Q a b bs' → Q' b (bs ++ bs')) :
    Spec d (x >>= y) S' Q' := by
  intro s hs hd
  have hfits := hx s hs hd
  change Fits s S' Q' (EStateM.bind x y s)
  rw [EStateM.bind]
  revert hfits
  cases x s with
  | error e s' =>
    cases e with
    | status rc => exact id
    | stray => exact fun ⟨hmoves, hs⟩ => ⟨hmoves, hS _ hs⟩
  | ok a s' =>
    intro ⟨hmoves, bs, hunread, hr⟩
    have hfits' := hy a bs hr s' (hmoves.good hs) (hmoves.fullyDesc.trans hd)
    revert hfits'
    change Fits s' (T a) (Q a) (y a s') → Fits s S' Q' (y a s')
    cases y a s' with
    | error e s'' =>
      cases e with
      | status rc => exact fun hmoves' => (hmoves.imp Inside.attempted).trans hmoves'
      | stray =>
        intro ⟨hmoves', ht⟩
        exact ⟨(hmoves.imp Inside.attempted).trans hmoves', hunread ▸ hT a bs _ hr ht⟩
    | ok b s'' =>
      intro ⟨hmoves', bs', hunread', hq⟩
      exact ⟨hmoves.trans hmoves', bs ++ bs', by rw [hunread, hunread', List.append_assoc],
        hQ a bs b bs' hr hq⟩

end Spec

abbrev Sober (d : Bool) (x : Scan α) (R : α → List UInt8 → Prop) : Prop :=
  Spec d x (fun _ => False) R

theorem Spec.then {d : Bool} {x : Scan α} {y : α → Scan β} {R : α → List UInt8 → Prop}
    {Q : α → β → List UInt8 → Prop} {Q' : β → List UInt8 → Prop} (hx : Sober d x R)
    (hy : ∀ a bs, R a bs → Sober d (y a) (Q a))
    (hQ : ∀ a bs b bs', R a bs → Q a b bs' → Q' b (bs ++ bs')) : Sober d (x >>= y) Q' :=
  hx.bind hy (fun _ h => h) (fun _ _ _ _ h => h) hQ

section Primitives

variable {d : Bool} {s : Loaded}

theorem sizeT_mul_of_neg {num : ℤ} {k : ℕ} (hnum : -2 ^ 31 ≤ num ∧ num < 0)
    (hk : k = 1 ∨ k = 2 ∨ k = 4 ∨ k = 8) : 2 ^ 63 ≤ sizeT num * k % 2 ^ 64 := by
  have hcast : (sizeT num : ℤ) = num + 2 ^ 64 := by
    rw [sizeT]
    omega
  generalize sizeT num = size at hcast
  rcases hk with rfl | rfl | rfl | rfl <;> omega

theorem sizeT_mul_of_nonneg {num : ℤ} {k : ℕ} (hnum : 0 ≤ num ∧ num < 2 ^ 31)
    (hk : k = 1 ∨ k = 2 ∨ k = 4 ∨ k = 8) :
    sizeT num = num.toNat ∧ sizeT num * k % 2 ^ 64 = k * num.toNat := by
  have hcast : sizeT num = num.toNat := by
    rw [sizeT, Int.emod_eq_of_lt (by omega) (by omega)]
  refine ⟨hcast, ?_⟩
  rw [hcast]
  rcases hk with rfl | rfl | rfl | rfl <;> omega

theorem le_of_not_tooSmall (hs : s.Good) {num : ℤ} {k : ℕ} (hnum : -2 ^ 31 ≤ num ∧ num < 2 ^ 31)
    (hk : k = 1 ∨ k = 2 ∨ k = 4 ∨ k = 8) (h : ¬ s.tooSmall (sizeT num * k % 2 ^ 64) = true) :
    0 ≤ num ∧ sizeT num = num.toNat ∧ (k * num.toNat : ℕ) ≤ s.packPtr - s.unpackPtr := by
  obtain ⟨hpos, hpack, hlength⟩ := hs
  rw [Bool.not_eq_true, Loaded.tooSmall, Bool.or_eq_false_iff, decide_eq_false_iff_not,
    decide_eq_false_iff_not] at h
  obtain ⟨hle, hsize⟩ := h
  by_cases hneg : num < 0
  · have hlarge := sizeT_mul_of_neg ⟨hnum.1, hneg⟩ hk
    omega
  · obtain ⟨hcast, hmul⟩ := sizeT_mul_of_nonneg ⟨by omega, hnum.2⟩ hk
    rw [hmul] at hsize
    exact ⟨by omega, hcast, by omega⟩

theorem unread_eq_append (hs : s.Good) {n : ℕ} {s' : Loaded} (hn : n ≤ s.packPtr - s.unpackPtr)
    (hpayload : s'.payload = s.payload) (hpack : s'.packPtr = s.packPtr)
    (hptr : s'.unpackPtr = s.unpackPtr + n) :
    s.unread = (s.payload.drop s.unpackPtr.toNat).take n ++ s'.unread ∧
      ((s.payload.drop s.unpackPtr.toNat).take n).length = n := by
  obtain ⟨hpos, hlt, -⟩ := hs
  constructor
  · have hsum : (s.packPtr - s.unpackPtr).toNat = n + (s.packPtr - s'.unpackPtr).toNat := by
      omega
    have hdrop : s'.unpackPtr.toNat = s.unpackPtr.toNat + n := by omega
    rw [Loaded.unread, Loaded.unread, hpayload, hpack, hsum, hdrop, take_add, drop_drop]
  · rw [length_take, length_drop]
    omega

theorem moves_read (hs : s.Good) {n : ℕ} (hn : n ≤ s.packPtr - s.unpackPtr) : Moves Inside s
      { s with unpackPtr := s.unpackPtr + n, log := .read s.unpackPtr n :: s.log } := by
  have hpos := hs.unpackPtr_nonneg
  refine ⟨rfl, rfl, rfl, by dsimp only; omega, by dsimp only; omega, [.read s.unpackPtr n], rfl, ?_⟩
  intro a ha
  rw [mem_singleton.1 ha]
  exact ⟨hpos, by omega⟩

theorem moves_refused (s : Loaded) (n : ℕ) :
    Moves Attempted s { s with log := .refused n :: s.log } := by
  refine ⟨rfl, rfl, rfl, le_rfl, .inl rfl, [.refused n], rfl, ?_⟩
  intro a ha
  rw [mem_singleton.1 ha]
  exact trivial

theorem check_bind (n : ℕ) (x : Scan α) (s : Loaded) : (check n >>= fun _ => x) s =
      if s.tooSmall n then
        .error (.status .unpackReadPastEndOfBuffer) { s with log := .refused n :: s.log }
      else x s := by
  change EStateM.bind (check n) (fun _ => x) s = _
  cases h : s.tooSmall n with
  | true =>
    have hcheck : check n s =
        .error (.status .unpackReadPastEndOfBuffer) { s with log := .refused n :: s.log } := by
      change (if s.tooSmall n then _ else _ : Scan Unit) s = _
      rw [h]
      rfl
    rw [EStateM.bind, hcheck]
    rfl
  | false =>
    have hcheck : check n s = .ok () s := by
      change (if s.tooSmall n then _ else _ : Scan Unit) s = _
      rw [h]
      rfl
    rw [EStateM.bind, hcheck]
    rfl

theorem unpackByte_spec {num : ℤ} (hnum : -2 ^ 31 ≤ num ∧ num < 2 ^ 31) :
    Sober d (unpackByte num) fun a bs => 0 ≤ num ∧ bs.length = num.toNat ∧ a = bs := by
  intro s hs _
  rw [unpackByte, check_bind]
  split
  next => exact moves_refused s _
  next h =>
    have hmod : sizeT num * 1 % 2 ^ 64 = sizeT num := by
      rw [sizeT]
      omega
    obtain ⟨hnonneg, hsize, hle⟩ := @le_of_not_tooSmall s hs num 1 hnum (by omega)
      (by rwa [hmod])
    have hnat : (num.toNat : ℤ) = num := Int.toNat_of_nonneg hnonneg
    have hn : (num.toNat : ℤ) ≤ s.packPtr - s.unpackPtr := by omega
    have hmoves := moves_read hs hn
    obtain ⟨hunread, hlength⟩ := @unread_eq_append s hs num.toNat
      { s with unpackPtr := s.unpackPtr + num.toNat, log := .read s.unpackPtr num.toNat :: s.log }
      hn rfl rfl rfl
    rw [hnat] at hmoves hunread
    rw [hsize]
    exact ⟨hmoves, _, hunread, hnonneg, hlength, rfl⟩

theorem times_take {k n : ℕ} (hs : s.Good) (hn : (k * n : ℕ) ≤ s.packPtr - s.unpackPtr) :
    ∃ s', times n (discard (take k k)) s = .ok () s' ∧ Moves Inside s s' ∧
      ∃ bs, s.unread = bs ++ s'.unread ∧ bs.length = k * n := by
  induction n generalizing s with
  | zero => exact ⟨s, rfl, Moves.refl s, [], rfl, rfl⟩
  | succ n ih =>
    rw [Nat.mul_succ] at hn
    have hmoves := moves_read hs (n := k) (by omega)
    obtain ⟨hunread, hlength⟩ := @unread_eq_append s hs k
      { s with unpackPtr := s.unpackPtr + k, log := .read s.unpackPtr k :: s.log }
      (by omega) rfl rfl rfl
    obtain ⟨s', htimes, hmoves', bs, hunread', hlength'⟩ :=
      ih (hmoves.good hs) (by dsimp only; omega)
    refine ⟨s', htimes, hmoves.trans hmoves',
      (s.payload.drop s.unpackPtr.toNat).take k ++ bs, ?_, ?_⟩
    · rw [hunread, hunread', List.append_assoc]
    · rw [length_append, hlength, hlength', Nat.mul_succ, Nat.add_comm]

theorem unpackWords_spec {k : ℕ} {num : ℤ} (hnum : -2 ^ 31 ≤ num ∧ num < 2 ^ 31)
    (hk : k = 1 ∨ k = 2 ∨ k = 4 ∨ k = 8) :
    Sober d (unpackWords k num) fun _ bs => 0 ≤ num ∧ bs.length = k * num.toNat := by
  intro s hs _
  rw [unpackWords, check_bind]
  split
  next => exact moves_refused s _
  next h =>
    obtain ⟨hnonneg, -, hle⟩ := le_of_not_tooSmall hs hnum hk h
    obtain ⟨s', htimes, hmoves, bs, hunread, hlength⟩ := times_take hs hle
    rw [htimes]
    exact ⟨hmoves, bs, hunread, hnonneg, hlength⟩

theorem unpackInt32_spec : Sober d unpackInt32 fun num bs => bs.length = 4 ∧ num = int32 bs := by
  intro s hs _
  rw [unpackInt32, check_bind]
  split
  next => exact moves_refused s _
  next h =>
    have hle := (@le_of_not_tooSmall s hs 1 4 (by omega) (by omega) h).2.2
    have hn : ((4 : ℕ) : ℤ) ≤ s.packPtr - s.unpackPtr := by simpa using hle
    obtain ⟨hunread, hlength⟩ := @unread_eq_append s hs 4
      { s with unpackPtr := s.unpackPtr + 4, log := .read s.unpackPtr 4 :: s.log } hn rfl rfl rfl
    exact ⟨moves_read hs hn, _, hunread, hlength, rfl⟩

theorem getDataType_spec : Sober d getDataType fun t bs => bs = [t] := by
  apply Spec.then (Q := fun bs t bs' => t = bs.headD 0 ∧ bs' = []) (unpackByte_spec (by omega))
  · exact fun _ _ _ => Spec.pure ⟨rfl, rfl⟩
  · rintro a bs t bs' ⟨-, hlength, rfl⟩ ⟨rfl, rfl⟩
    obtain ⟨b, rfl⟩ := length_eq_one_iff.1 hlength
    rfl

theorem onCopy_spec {x : Scan α} {R : α → List UInt8 → Prop} (hx : Sober d x R) (hs : s.Good)
    (hd : s.fullyDesc = d) :
    match onCopy x s with
    | .ok a s' => Moves Inside s s' ∧ s'.unpackPtr = s.unpackPtr ∧
        ∃ bs rest, s.unread = bs ++ rest ∧ R a bs
    | .error (.status _) s' => Moves Attempted s s' ∧ s'.unpackPtr = s.unpackPtr
    | .error .stray _ => False := by
  have hfits := hx s hs hd
  rw [onCopy]
  revert hfits
  cases x s with
  | ok a s' =>
    intro ⟨hmoves, bs, hunread, hr⟩
    exact ⟨⟨rfl, rfl, rfl, le_rfl, .inl rfl, hmoves.log⟩, rfl, bs, _, hunread, hr⟩
  | error e s' =>
    cases e with
    | status rc => exact fun hmoves => ⟨⟨rfl, rfl, rfl, le_rfl, .inl rfl, hmoves.log⟩, rfl⟩
    | stray => exact fun ⟨_, h⟩ => h

theorem unread_congr {s' : Loaded} {P : ℤ → Access → Prop} (h : Moves P s s')
    (hptr : s'.unpackPtr = s.unpackPtr) : s'.unread = s.unread := by
  rw [Loaded.unread, Loaded.unread, h.payload, h.packPtr, hptr]

theorem peekType_spec : Sober d peekType fun _ bs => bs = [] := by
  intro s hs hd
  change Fits s _ _ ((if !s.fullyDesc then fail .unknownDataType
    else if s.packPtr ≤ s.unpackPtr then fail .unpackReadPastEndOfBuffer
    else onCopy getDataType : Scan DataType) s)
  split
  next => exact Moves.refl s
  next =>
    split
    next => exact Moves.refl s
    next =>
      have hcopy := onCopy_spec getDataType_spec hs hd
      revert hcopy
      cases onCopy getDataType s with
      | ok t s' =>
        intro ⟨hmoves, hptr, _⟩
        exact ⟨hmoves, [], (unread_congr hmoves hptr).symm, rfl⟩
      | error e s' =>
        cases e with
        | status rc => exact fun h => h.1
        | stray => exact False.elim

end Primitives

end Scan

end Ulfm.Dss
