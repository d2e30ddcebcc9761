import Ulfm.Dss.Payload
import Ulfm.Dss.Shapes
import Ulfm.Foundation.Trace

/-!
# Calls on a payload that nobody has checked

Whatever the payload is, a call reads inside it, and it fails where too little is left. What it
does not guard against is a negative number of values of a type whose unpack function is a loop,
and a string without a terminator in a process statistic.
-/

namespace Ulfm.Dss

open List

namespace Scan

/-- The bytes begin with the number of values of an item. -/
def Declares (d : Bool) (u : List UInt8) (num : ℤ) (rest : List UInt8) : Prop :=
  ∃ c, u = tagOf d .int32 ++ (c ++ rest) ∧ c.length = 4 ∧ num = int32 c

section Unpack

variable {d : Bool} (env : Env) (t : DataType) (room : ℕ)

theorem unpackBuffer_spec {num : ℤ} (hnum : -2 ^ 31 ≤ num ∧ num < 2 ^ 31) :
    Spec d (unpackBuffer env t num) (fun u => ∃ f rest, types t = some f ∧ u = tagOf d t ++ rest ∧
        GoesAstray d (replicate num.toNat f.shape).flatten rest)
      fun _ bs => ∃ f rest, types t = some f ∧ bs = tagOf d t ++ rest ∧
        (num < 0 → f.loops = true) := by
  rw [unpackBuffer]
  cases hf : types t with
  | none =>
    apply (tagged_spec (S := fun _ => False) (R := fun _ _ => False) (Spec.fail _)).imp
    · exact fun _ ⟨_, _, h⟩ => h.elim
    · exact fun _ _ ⟨_, _, h⟩ => h.elim
  | some f =>
    apply (tagged_spec (unpackFn_spec env hnum f)).imp
    · exact fun u ⟨rest, hu, h⟩ => ⟨f, rest, rfl, hu, h⟩
    · exact fun _ bs ⟨rest, hbs, h⟩ => ⟨f, rest, rfl, hbs, h⟩

theorem counted_spec : Spec d (unpackCounted env t room)
      (fun u => ∃ c f rest, u = c ++ (tagOf d t ++ rest) ∧ c.length = 4 ∧ types t = some f ∧
        GoesAstray d (List.replicate (min (int32 c) room).toNat f.shape).flatten rest)
      fun a bs => a.1 = .success → a.2 ≤ room ∧ ∃ c f rest, bs = c ++ (tagOf d t ++ rest) ∧
        c.length = 4 ∧ a.2 = int32 c ∧ types t = some f ∧ (a.2 < 0 → f.loops = true) := by
  have hreturn : ∀ {num : ℤ} {a : Status × ℤ}, -2 ^ 31 ≤ num ∧ num < 2 ^ 31 →
      Spec d (unpackBuffer env t num >>= fun _ => pure a)
        (fun u => ∃ f rest, types t = some f ∧ u = tagOf d t ++ rest ∧
          GoesAstray d (replicate num.toNat f.shape).flatten rest)
        fun b bs => b = a ∧ ∃ f rest, types t = some f ∧ bs = tagOf d t ++ rest ∧
          (num < 0 → f.loops = true) := by
    intro num a hnum
    apply Spec.bind (T := fun _ _ => False) (Q := fun _ b bs => b = a ∧ bs = [])
      (unpackBuffer_spec env t hnum) fun _ _ _ => Spec.pure ⟨rfl, rfl⟩
    · exact fun _ h => h
    · exact fun _ _ _ _ h => h.elim
    · rintro _ bs b bs' h ⟨rfl, rfl⟩
      rw [append_nil]
      exact ⟨rfl, h⟩
  apply Spec.bind (T := fun (localNum : ℤ) u => ∃ f rest, types t = some f ∧ u = tagOf d t ++ rest ∧
      GoesAstray d (replicate (min localNum room).toNat f.shape).flatten rest)
    (Q := fun (localNum : ℤ) a bs => a.1 = .success → a.2 = localNum ∧ localNum ≤ room ∧
      ∃ f rest, types t = some f ∧ bs = tagOf d t ++ rest ∧ (localNum < 0 → f.loops = true))
    unpackInt32_spec
  · rintro localNum c ⟨hlength, rfl⟩
    have hbounds := int32_bounds hlength
    by_cases hroom : room < int32 c
    · rw [if_pos hroom, min_eq_right (le_of_lt hroom)]
      apply (hreturn ⟨by omega, by omega⟩).imp (fun _ h => h)
      rintro a bs ⟨rfl, -⟩ ⟨⟩
    · rw [if_neg hroom, min_eq_left (by omega)]
      apply (hreturn hbounds).imp (fun _ h => h)
      rintro a bs ⟨rfl, h⟩ -
      exact ⟨rfl, by omega, h⟩
  · exact fun _ h => h.elim
  · rintro localNum c u ⟨hlength, rfl⟩ ⟨f, rest, hf, rfl, h⟩
    exact ⟨c, f, rest, rfl, hlength, hf, h⟩
  · rintro localNum c a bs ⟨hlength, rfl⟩ h hsuccess
    obtain ⟨hnum, hroom, f, rest, hf, rfl, hneg⟩ := h hsuccess
    rw [hnum]
    exact ⟨hroom, c, f, rest, rfl, hlength, rfl, hf, hneg⟩

theorem unpack_spec (hroom : room ≠ 0) : Spec d (unpack env t room)
      (fun u => ∃ num f rest, Declares d u num (tagOf d t ++ rest) ∧ types t = some f ∧
        GoesAstray d (replicate (min num room).toNat f.shape).flatten rest)
      fun a bs => a.1 = .success → a.2 ≤ room ∧ ∃ f rest,
        Declares d bs a.2 (tagOf d t ++ rest) ∧ types t = some f ∧ (a.2 < 0 → f.loops = true) := by
  rw [unpack, if_neg hroom]
  apply (expectTag_spec (counted_spec env t room)).imp
  · rintro u ⟨_, rfl, c, f, rest, rfl, hlength, hf, h⟩
    exact ⟨int32 c, f, rest, ⟨c, rfl, hlength, rfl⟩, hf, h⟩
  · rintro a bs ⟨_, rfl, h⟩ hsuccess
    obtain ⟨hle, c, f, rest, rfl, hlength, hnum, hf, hneg⟩ := h hsuccess
    exact ⟨hle, f, rest, ⟨c, rfl, hlength, hnum⟩, hf, hneg⟩

end Unpack

section Peek

theorem peekItem_spec : Sober true peekItem fun a bs => Declares true bs a.2 [a.1] := by
  apply Spec.then (Q := fun localType a bs => DataType.int32 = localType ∧
    ∃ c, bs = c ++ [a.1] ∧ c.length = 4 ∧ a.2 = int32 c) getDataType_spec
  · intro localType _ _
    split
    next => exact Spec.fail _
    next h =>
      apply Spec.then (Q := fun (numVals : ℤ) a bs => a.2 = numVals ∧ bs = [a.1])
        unpackInt32_spec
      · intro numVals _ _
        apply Spec.then (Q := fun t a bs => a = (t, numVals) ∧ bs = []) getDataType_spec
        · exact fun _ _ _ => Spec.pure ⟨rfl, rfl⟩
        · rintro t bs a bs' rfl ⟨rfl, rfl⟩
          exact ⟨rfl, rfl⟩
      · rintro numVals c a bs ⟨hlength, rfl⟩ ⟨hnum, rfl⟩
        exact ⟨not_not.1 h, c, rfl, hlength, hnum⟩
  · rintro localType bs a bs' rfl ⟨rfl, c, rfl, hlength, hnum⟩
    exact ⟨c, rfl, hlength, hnum⟩

end Peek

section Calls

variable (env : Env)

/-- The number of values a call may report. -/
def Call.Allows (num : ℤ) : Call → Prop
  | .unpack _ room => 0 ≤ num ∧ num ≤ room
  | .peek => 0 ≤ num

/-- A call reads inside the payload, moves the pointer no further than the end of the packed
bytes, reports a number of values for which there is room, and fails where it is refused
bytes. -/
structure Safe (s : Loaded) (c : Call) : Prop where
  inside : ∀ (offset : ℤ) (length : ℕ), .read offset length ∈ (exec env s c).2.log →
    0 ≤ offset ∧ offset + length ≤ s.payload.length
  not_stray : (exec env s c).1 ≠ .stray
  moved : (exec env s c).2.unpackPtr = s.unpackPtr ∨ (exec env s c).2.unpackPtr ≤ s.packPtr
  allowed : ∀ num, (exec env s c).1 = .success num → c.Allows num
  fails : ∀ length, .refused length ∈ (exec env s c).2.log → ∃ rc, (exec env s c).1 = .failed rc

/-- What the bytes ahead of a call must not be: a negative number of values, where the unpack
function of the type is a loop or the call is a peek, or the strings of process statistics
without a terminator, as far as the call reads them. -/
def Guarded (s : Loaded) : Call → Prop
  | .unpack t room => room = 0 ∨ ∀ num f rest,
      Declares s.fullyDesc s.unread num (tagOf s.fullyDesc t ++ rest) → types t = some f →
        (num < 0 → f.loops = false) ∧ ¬ GoesAstray s.fullyDesc
          (replicate (min num room).toNat f.shape).flatten rest
  | .peek => s.fullyDesc = true → ∀ num t rest, Declares true s.unread num (t :: rest) → 0 ≤ num

theorem Loaded.Good.clear {s : Loaded} (hs : s.Good) : Loaded.Good { s with log := [] } :=
  ⟨hs.unpackPtr_nonneg, hs.packPtr_lt, hs.length_lt⟩

variable {env} {s s' : Loaded} {c : Call}

theorem read_inside {P : ℤ → Access → Prop} (hs : s.Good) (h : Moves P { s with log := [] } s')
    (hP : ∀ p a, P p a → Attempted p a) {offset : ℤ} {length : ℕ}
    (hmem : .read offset length ∈ s'.log) : 0 ≤ offset ∧ offset + length ≤ s.payload.length := by
  obtain ⟨new, hlog, hnew⟩ := h.log
  rw [hlog, append_nil] at hmem
  obtain ⟨hpos, hle⟩ := hP _ _ (hnew _ hmem)
  have hlt := hs.packPtr_lt
  exact ⟨hpos, by dsimp only at hle; omega⟩

theorem Safe.of_failed (rc : Status) (hs : s.Good) (hexec : exec env s c = (.failed rc, s'))
    (h : Moves Attempted { s with log := [] } s') : Safe env s c := by
  refine ⟨?_, ?_, ?_, ?_, ?_⟩
  · intro offset length hmem
    rw [hexec] at hmem
    exact read_inside hs h (fun _ _ h => h) hmem
  · rw [hexec]
    exact nofun
  · rw [hexec]
    exact h.moved
  · intro num hnum
    rw [hexec] at hnum
    cases hnum
  · intro length _
    rw [hexec]
    exact ⟨rc, rfl⟩

theorem Safe.of_success (num : ℤ) (hs : s.Good) (hexec : exec env s c = (.success num, s'))
    (h : Moves Inside { s with log := [] } s') (hnum : c.Allows num) : Safe env s c := by
  refine ⟨?_, ?_, ?_, ?_, ?_⟩
  · intro offset length hmem
    rw [hexec] at hmem
    exact read_inside hs h Inside.attempted hmem
  · rw [hexec]
    exact nofun
  · rw [hexec]
    exact h.moved
  · intro num' hnum'
    rw [hexec] at hnum'
    cases hnum'
    exact hnum
  · intro length hmem
    obtain ⟨new, hlog, hnew⟩ := h.log
    rw [hexec, hlog, append_nil] at hmem
    exact (hnew _ hmem).elim

theorem unpack_safe {t : DataType} {room : ℕ} (hs : s.Good) (h : Guarded s (.unpack t room)) :
    Safe env s (.unpack t room) := by
  by_cases hroom : room = 0
  · subst hroom
    exact Safe.of_failed .unpackInadequateSpace hs rfl (Moves.refl _)
  · have hguard := h.resolve_left hroom
    have hfits := @unpack_spec s.fullyDesc env t room hroom _ hs.clear rfl
    have hunread : Loaded.unread { s with log := [] } = s.unread := rfl
    cases hrun : unpack env t room { s with log := [] } with
    | ok a s' =>
      obtain ⟨rc, num⟩ := a
      rw [hrun] at hfits
      obtain ⟨hmoves, bs, hbs, hsuccess⟩ := hfits
      by_cases hrc : rc = .success
      · obtain ⟨hle, f, rest, ⟨c, rfl, hlength, hnum⟩, hf, hneg⟩ := hsuccess hrc
        apply Safe.of_success num hs (by simp [exec, hrun, hrc]) hmoves
        refine ⟨?_, hle⟩
        by_contra hlt
        have hdeclares : Declares s.fullyDesc s.unread num
            (tagOf s.fullyDesc t ++ (rest ++ s'.unread)) :=
          ⟨c, by rw [← hunread, hbs]; simp [append_assoc], hlength, hnum⟩
        have hloops := (hguard num f _ hdeclares hf).1 (by omega)
        rw [hneg (by dsimp only; omega)] at hloops
        cases hloops
      · exact Safe.of_failed rc hs (by simp [exec, hrun, hrc]) (hmoves.imp Inside.attempted)
    | error e s' =>
      rw [hrun] at hfits
      cases e with
      | status rc => exact Safe.of_failed rc hs (by simp [exec, hrun]) hfits
      | stray =>
        obtain ⟨-, num, f, rest, hdeclares, hf, hastray⟩ := hfits
        exact absurd hastray (hguard num f rest hdeclares hf).2

theorem peek_cases (s : Loaded) : (∃ rc, peek s = .error (.status rc) s) ∨
      s.fullyDesc = true ∧ peek s = onCopy peekItem s := by
  have hpeek : peek s = (if s.packPtr ≤ s.unpackPtr then fail .unpackReadPastEndOfBuffer
      else if !s.fullyDesc then fail .unknownDataType
      else onCopy peekItem : Scan (DataType × ℤ)) s := rfl
  rw [hpeek]
  split
  next => exact .inl ⟨_, rfl⟩
  next =>
    split
    next => exact .inl ⟨_, rfl⟩
    next hdesc => exact .inr ⟨by simpa using hdesc, rfl⟩

theorem peek_safe (hs : s.Good) (h : Guarded s .peek) : Safe env s .peek := by
  rcases peek_cases { s with log := [] } with ⟨rc, hrun⟩ | ⟨hdesc, hrun⟩
  · exact Safe.of_failed rc hs (by simp [exec, hrun]) (Moves.refl _)
  · have hcopy := onCopy_spec peekItem_spec hs.clear hdesc
    rw [← hrun] at hcopy
    cases hpeek : peek { s with log := [] } with
    | ok a s' =>
      rw [hpeek] at hcopy
      obtain ⟨hmoves, -, bs, rest, hunread, c, rfl, hlength, hnum⟩ := hcopy
      apply Safe.of_success a.2 hs (by simp [exec, hpeek]) hmoves
      apply h hdesc a.2 a.1 rest
      refine ⟨c, ?_, hlength, hnum⟩
      change Loaded.unread { s with log := [] } = _
      rw [hunread]
      simp [append_assoc]
    | error e s' =>
      rw [hpeek] at hcopy
      cases e with
      | status rc => exact Safe.of_failed rc hs (by simp [exec, hpeek]) hcopy.1
      | stray => exact hcopy.elim

theorem safe_of_guarded (hs : s.Good) (h : Guarded s c) : Safe env s c := by
  cases c with
  | unpack t room => exact unpack_safe hs h
  | peek => exact peek_safe hs h

theorem Fits.good_of_error {α : Type} {S : List UInt8 → Prop} {R : α → List UInt8 → Prop}
    {e : Halt} (hs : s.Good) (h : Fits s S R (.error e s')) : s'.Good := by
  cases e with
  | status rc => exact Moves.good h hs
  | stray => exact h.1.good hs

theorem good_step (hs : s.Good) (c : Call) : (step env s c).Good := by
  rw [step]
  cases c with
  | unpack t room =>
    by_cases hroom : room = 0
    · subst hroom
      exact hs.clear
    · have hfits := @unpack_spec s.fullyDesc env t room hroom _ hs.clear rfl
      rw [exec]
      cases hrun : unpack env t room { s with log := [] } with
      | ok a s' =>
        rw [hrun] at hfits
        exact hfits.1.good hs.clear
      | error e s' =>
        rw [hrun] at hfits
        have hgood := Fits.good_of_error hs.clear hfits
        cases e <;> exact hgood
  | peek =>
    rw [exec]
    rcases peek_cases { s with log := [] } with ⟨rc, hrun⟩ | ⟨hdesc, hrun⟩
    · rw [hrun]
      exact hs.clear
    · have hcopy := onCopy_spec peekItem_spec hs.clear hdesc
      rw [← hrun] at hcopy
      cases hpeek : peek { s with log := [] } with
      | ok a s' =>
        rw [hpeek] at hcopy
        exact hcopy.1.good hs.clear
      | error e s' =>
        rw [hpeek] at hcopy
        cases e with
        | status rc => exact hcopy.1.good hs.clear
        | stray => exact hcopy.elim

/-- The bytes given to `opal_dss_load`: their number is an `int32_t`. -/
abbrev Payload := { bs : List UInt8 // bs.length < 2 ^ 31 }

theorem good_load (before : UInt8) (payload : Payload) : (load before payload.1).Good := by
  refine ⟨le_rfl, ?_, payload.2⟩
  change ((payload.1.length : ℤ) - 1) < payload.1.length
  omega

/-- Every call of a run on any payload is safe, where what is ahead of each call is guarded
against. -/
theorem calls_safe (env : Env) (before : UInt8) (payload : Payload) (calls : List Call)
    (h : Along (step env) Guarded (load before payload.1) calls) :
    Along (step env) (Safe env) (load before payload.1) calls :=
  h.of_invariant (I := Loaded.Good) (fun _ c hs _ => good_step hs c)
    (fun _ _ hs h => safe_of_guarded hs h) (good_load before payload)

/-- A string and a null string, with room for three. -/
theorem twoStrings_safe : Along (step env64) (Safe env64)
    (load 0 [0, 0, 0, 2, 0, 0, 0, 2, 65, 0, 0, 0, 0, 0, 0]) [.unpack .string 3] := by
  apply calls_safe env64 0 ⟨[0, 0, 0, 2, 0, 0, 0, 2, 65, 0, 0, 0, 0, 0, 0], by decide⟩
  refine ⟨.inr ?_, trivial⟩
  rintro num f rest ⟨c, hunread, hlength, rfl⟩ hf
  change [0, 0, 0, 2, 0, 0, 0, 2, 65, 0, 0, 0, 0, 0] = c ++ rest at hunread
  have hc : c = [0, 0, 0, 2] := by
    have htake : (c ++ rest).take 4 = c := take_left' hlength
    rw [← hunread] at htake
    exact htake.symm
  subst hc
  cases hf
  refine ⟨by decide, not_goesAstray ?_ ?_⟩
  · decide
  · decide

/-- Four bytes that declare a negative number of strings: the call succeeds with that number. -/
theorem negativeCount_not_safe : ¬ ∀ (env : Env) (before : UInt8) (payload : Payload)
    (calls : List Call), Along (step env) (Safe env) (load before payload.1) calls := by
  intro hall
  have hsafe := (hall env64 0 ⟨[255, 255, 255, 255, 0], by decide⟩ [.unpack .string 1]).1
  have hreply : (exec env64 (load 0 [255, 255, 255, 255, 0]) (.unpack .string 1)).1 =
      .success (-1) := by decide
  have hallowed := hsafe.allowed (-1) hreply
  exact absurd hallowed.1 (by decide)

end Calls

end Scan

end Ulfm.Dss
