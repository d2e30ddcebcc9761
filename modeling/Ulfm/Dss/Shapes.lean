import Ulfm.Dss.Reading

/-!
# The shapes of the values in a buffer

A value is a sequence of pieces, and a data value is a tag with the pieces of the value of that
type. A call on a statistics type goes astray where it comes to a string without a terminator.
-/

namespace Ulfm.Dss

open List Option DataType

namespace Scan

/-- A piece of a value: some bytes, the tag of a type in a fully described buffer, a string, a
string that `strlen` runs over, a byte object, an integer of a remote size, a data value. -/
inductive Piece where
  | raw (k : ℕ)
  | tag (t : DataType)
  | string
  | cstring
  | object
  | system
  | value
  deriving DecidableEq

/-- The tag of a type in a fully described buffer. -/
def tagOf (d : Bool) (t : DataType) : List UInt8 := if d then [t] else []

def IsString (bs content : List UInt8) : Prop :=
  ∃ c, bs = c ++ content ∧ c.length = 4 ∧ int32 c = content.length

/-- The bytes of a piece; of a data value the ones without a value in them. -/
def Piece.Is (d : Bool) : Piece → List UInt8 → Prop
  | .raw k, bs => bs.length = k
  | .tag t, bs => bs = tagOf d t
  | .string, bs => ∃ content, IsString bs content
  | .cstring, bs => ∃ content, IsString bs content ∧ 0 ∈ content
  | .object, bs => ∃ c content, bs = c ++ content ∧ c.length = 4 ∧ max 0 (int32 c) = content.length
  | .system, bs => ∃ remote isSigned w content, bs = remote :: content ∧
      remoteWidth remote = some (isSigned, w) ∧ content.length = w.bytes
  | .value, bs => bs = [DataType.null] ∨ bs = [DataType.undef]

def Field.pieces : Field → List Piece
  | .string => [.tag .string, .cstring]
  | .int32 => [.tag .int32, .raw 4]
  | .int16 => [.tag .int16, .raw 2]
  | .byte => [.tag .byte, .raw 1]
  | .pid => [.tag .pid, .system]

def Fn.shape : Fn → List Piece
  | .simple .null => [.raw 1]
  | .simple .byte => [.raw 1]
  | .simple .int16 => [.raw 2]
  | .simple .int32 => [.raw 4]
  | .simple .int64 => [.raw 8]
  | .simple .bool => [.system]
  | .simple .int => [.system]
  | .simple .sizet => [.system]
  | .simple .pid => [.system]
  | .simple .string => [.string]
  | .simple .dataType => [.tag .uint8, .raw 1]
  | .simple .dataValue => [.value]
  | .simple .byteObject => [.object]
  | .pstat => pstatFields.flatMap Field.pieces
  | .nodeStat => nodeStatFields.flatMap Field.pieces

/-- The bytes are read as the first of these pieces, and the others remain. -/
inductive Reads (d : Bool) : List Piece → List UInt8 → List Piece → Prop
  | done (ps : List Piece) : Reads d ps [] ps
  | piece {p : Piece} {bs rest : List UInt8} {ps qs : List Piece} :
      p.Is d bs → Reads d ps rest qs → Reads d (p :: ps) (bs ++ rest) qs
  | value {t : DataType} {f : Fn} {rest : List UInt8} {ps qs : List Piece} :
      types t = some f → Reads d (f.shape ++ ps) rest qs →
        Reads d (.value :: ps) (t :: (tagOf d t ++ rest)) qs

/-- The bytes come, as these pieces, to a string for `strlen` that has no terminator. -/
def GoesAstray (d : Bool) (ps : List Piece) (u : List UInt8) : Prop :=
  ∃ bs qs str content rest, Reads d ps bs (.cstring :: qs) ∧ IsString str content ∧
    0 ∉ content ∧ u = bs ++ (str ++ rest)

section Reads

variable {d : Bool} {ps qs rs : List Piece} {bs bs' u : List UInt8}

theorem Reads.append (h : Reads d ps bs qs) (rs : List Piece) :
    Reads d (ps ++ rs) bs (qs ++ rs) := by
  induction h with
  | done ps => exact Reads.done _
  | piece hp _ ih => exact Reads.piece hp ih
  | value ht _ ih =>
    apply Reads.value ht
    change Reads d (_ ++ (_ ++ rs)) _ _
    rwa [← append_assoc]

theorem Reads.trans (h : Reads d ps bs qs) (h' : Reads d qs bs' rs) :
    Reads d ps (bs ++ bs') rs := by
  induction h with
  | done ps => exact h'
  | piece hp _ ih =>
    rw [append_assoc]
    exact Reads.piece hp (ih h')
  | value ht _ ih =>
    rw [cons_append, append_assoc]
    exact Reads.value ht (ih h')

theorem Reads.one {p : Piece} (h : p.Is d bs) : Reads d [p] bs [] := by
  have hreads := Reads.piece h (Reads.done [])
  rwa [append_nil] at hreads

theorem Reads.then (h : Reads d ps bs []) (h' : Reads d qs bs' []) :
    Reads d (ps ++ qs) (bs ++ bs') [] :=
  (h.append qs).trans h'

theorem GoesAstray.append (h : GoesAstray d ps u) (qs : List Piece) :
    GoesAstray d (ps ++ qs) u := by
  obtain ⟨bs, rs, str, content, rest, hreads, hstring, hzero, rfl⟩ := h
  exact ⟨bs, rs ++ qs, str, content, rest, hreads.append qs, hstring, hzero, rfl⟩

theorem GoesAstray.after (h : Reads d ps bs []) (h' : GoesAstray d qs u) :
    GoesAstray d (ps ++ qs) (bs ++ u) := by
  obtain ⟨bs', rs, str, content, rest, hreads, hstring, hzero, rfl⟩ := h'
  exact ⟨bs ++ bs', rs, str, content, rest, (h.append qs).trans hreads, hstring, hzero,
    (append_assoc ..).symm⟩

theorem Reads.suffix (h : Reads d ps bs qs) (hps : .value ∉ ps) : qs <:+ ps := by
  induction h with
  | done ps => exact suffix_rfl
  | @piece p bs rest ps qs hp _ ih =>
    have hrest : .value ∉ ps := fun hmem => hps (mem_cons_of_mem p hmem)
    exact (ih hrest).trans (suffix_cons p ps)
  | value ht _ ih => exact absurd mem_cons_self hps

theorem not_goesAstray (hvalue : .value ∉ ps) (hstring : .cstring ∉ ps) : ¬ GoesAstray d ps u := by
  rintro ⟨bs, qs, str, content, rest, hreads, -⟩
  exact hstring ((hreads.suffix hvalue).subset mem_cons_self)

end Reads

/-- The action reads these pieces, unless it goes astray at one of them. -/
def Parses {α : Type} (d : Bool) (x : Scan α) (ps : List Piece) : Prop :=
  Spec d x (GoesAstray d ps) fun _ bs => Reads d ps bs []

section Parses

variable {α β : Type} {d : Bool} {x : Scan α} {ps qs : List Piece}

theorem Parses.bind {y : α → Scan β} (hx : Parses d x ps) (hy : ∀ a, Parses d (y a) qs) :
    Parses d (x >>= y) (ps ++ qs) := by
  apply Spec.bind hx (fun a _ _ => hy a)
  · exact fun u h => h.append qs
  · exact fun a bs rest h h' => GoesAstray.after h h'
  · exact fun a bs b bs' h h' => h.then h'

theorem Parses.times {y : Scan Unit} (hy : Parses d y ps) (n : ℕ) :
    Parses d (times n y) (replicate n ps).flatten := by
  induction n with
  | zero => exact Spec.pure (Reads.done [])
  | succ n ih =>
    rw [replicate_succ, flatten_cons]
    exact Parses.bind hy fun _ => ih

theorem Spec.parses {R : α → List UInt8 → Prop} (hx : Sober d x R)
    (h : ∀ a bs, R a bs → Reads d ps bs []) : Parses d x ps :=
  hx.imp (fun _ h => h.elim) h

section

variable {S : List UInt8 → Prop} {R : α → List UInt8 → Prop} {t : DataType}

theorem expectTag_spec {rc : Status} (hx : Spec d x S R) :
    Spec d (expectTag t rc x) (fun u => ∃ rest, u = tagOf d t ++ rest ∧ S rest)
      fun a bs => ∃ rest, bs = tagOf d t ++ rest ∧ R a rest := by
  cases d with
  | false =>
    apply (hx.imp (fun u h => ⟨u, rfl, h⟩) fun a bs h => ⟨bs, rfl, h⟩).congr
    intro s hs
    change (if s.fullyDesc then _ else _ : Scan α) s = _
    rw [hs]
    rfl
  | true =>
    have hthen : Spec true (getDataType >>= fun localType =>
        if t ≠ localType then fail rc else x)
        (fun u => ∃ rest, u = tagOf true t ++ rest ∧ S rest)
        fun a bs => ∃ rest, bs = tagOf true t ++ rest ∧ R a rest := by
      apply Spec.bind (T := fun localType u => t = localType ∧ S u)
        (Q := fun localType a bs => t = localType ∧ R a bs) getDataType_spec
      · intro localType _ _
        split
        next => exact Spec.fail _
        next heq =>
          have heq := not_not.1 heq
          exact hx.imp (fun u h => ⟨heq, h⟩) fun a bs h => ⟨heq, h⟩
      · exact fun u h => h.elim
      · rintro localType bs rest rfl ⟨rfl, h⟩
        exact ⟨rest, rfl, h⟩
      · rintro localType bs a bs' rfl ⟨rfl, h⟩
        exact ⟨bs', rfl, h⟩
    apply hthen.congr
    intro s hs
    change (if s.fullyDesc then _ else _ : Scan α) s = _
    rw [hs]
    change EStateM.bind getDataType _ s = EStateM.bind getDataType _ s
    rw [EStateM.bind, EStateM.bind]
    cases getDataType s with
    | error e s' => rfl
    | ok localType s' =>
      by_cases heq : t = localType
      · simp [heq]
      · simp [heq, fail]
        rfl

theorem tagged_spec (hx : Spec d x S R) :
    Spec d (tagged t x) (fun u => ∃ rest, u = tagOf d t ++ rest ∧ S rest)
      fun a bs => ∃ rest, bs = tagOf d t ++ rest ∧ R a rest :=
  expectTag_spec hx

end

theorem parses_tagged {t : DataType} (hx : Parses d x ps) :
    Parses d (tagged t x) (.tag t :: ps) := by
  apply (tagged_spec hx).imp
  · rintro u ⟨rest, rfl, h⟩
    exact GoesAstray.after (Reads.one (p := .tag t) rfl) h
  · rintro a bs ⟨rest, rfl, h⟩
    exact Reads.then (Reads.one (p := .tag t) rfl) h

end Parses

section Simple

variable {d : Bool} {num : ℤ} {t : DataType}

theorem discard_spec {α : Type} {x : Scan α} {S R : List UInt8 → Prop}
    (hx : Spec d x S fun _ bs => R bs) : Spec d (discard x) S fun _ bs => R bs := by
  intro s hs hd
  have hfits := hx s hs hd
  change Fits s S _ (EStateM.map (Function.const α ()) x s)
  rw [EStateM.map]
  revert hfits
  cases x s with
  | ok a s' => exact id
  | error e s' =>
    cases e with
    | status rc | stray => exact id

theorem decodeBE_lt {bs : List UInt8} (h : bs.length = 4) : decodeBE bs < 2 ^ 32 := by
  have hlt := decodeLE_lt bs.reverse
  rw [length_reverse, h] at hlt
  exact hlt

theorem int32_bounds {bs : List UInt8} (h : bs.length = 4) :
    -2 ^ 31 ≤ int32 bs ∧ int32 bs < 2 ^ 31 := by
  have hlt := decodeBE_lt h
  rw [int32]
  split <;> omega

theorem unpackString_spec : Sober d unpackString fun cptr bs =>
    ∃ content, IsString bs content ∧ cptr = if content = [] then none else some content := by
  apply Spec.then (Q := fun (len : ℤ) cptr content => len = content.length ∧
    cptr = if content = [] then none else some content) unpackInt32_spec
  · rintro len bs ⟨hlength, rfl⟩
    by_cases hzero : int32 bs = 0
    · rw [if_pos hzero]
      exact Spec.pure ⟨hzero, rfl⟩
    · rw [if_neg hzero]
      apply Spec.then (Q := fun content cptr bs => cptr = some content ∧ bs = [])
        (unpackByte_spec (int32_bounds hlength)) (fun _ _ _ => Spec.pure ⟨rfl, rfl⟩)
      rintro content bs' cptr bs'' ⟨hnonneg, hcount, rfl⟩ ⟨rfl, rfl⟩
      rw [append_nil]
      have hne : content ≠ [] := by
        rintro rfl
        rw [length_nil] at hcount
        omega
      exact ⟨by omega, (if_neg hne).symm⟩
  · rintro len c cptr content ⟨hlength, rfl⟩ ⟨hlen, rfl⟩
    exact ⟨content, ⟨c, rfl, hlength, hlen⟩, rfl⟩

theorem unpackByteObject_spec : Sober d unpackByteObject fun _ bs => Piece.Is d .object bs := by
  apply Spec.then (Q := fun (size : ℤ) _ content => max 0 size = content.length) unpackInt32_spec
  · rintro size bs ⟨hlength, rfl⟩
    by_cases hpos : 0 < int32 bs
    · rw [if_pos hpos]
      apply discard_spec
      apply (unpackByte_spec (int32_bounds hlength)).imp (fun _ h => h)
      rintro _ content ⟨hnonneg, hcount, -⟩
      omega
    · rw [if_neg hpos]
      exact Spec.pure (by rw [length_nil]; omega)
  · rintro size c _ content ⟨hlength, rfl⟩ hsize
    exact ⟨c, content, rfl, hlength, hsize⟩

/-- The types whose function is a loop that unpacks one value after the other. -/
def Fn.loops : Fn → Bool
  | .simple .string => true
  | .simple .byteObject => true
  | .simple .dataValue => true
  | .pstat => true
  | .nodeStat => true
  | _ => false

theorem times_sober {x : Scan Unit} {R : List UInt8 → Prop} (hx : Sober d x fun _ bs => R bs)
    (n : ℕ) : Sober d (times n x) fun _ bs => (n = 1 → R bs) ∧ (n = 0 → bs = []) := by
  induction n with
  | zero => exact Spec.pure ⟨nofun, fun _ => rfl⟩
  | succ n ih =>
    apply Spec.then hx fun _ _ _ => ih
    rintro _ bs _ bs' h ⟨-, hzero⟩
    refine ⟨fun hn => ?_, nofun⟩
    rw [hzero (by omega), append_nil]
    exact h

theorem unpackPlain_spec (hnum : -2 ^ 31 ≤ num ∧ num < 2 ^ 31) (f : TypeFn) :
    Sober d (unpackPlain num f) fun _ bs => (num < 0 → (Fn.simple f).loops = true) ∧
        (num = 1 → Reads d (Fn.simple f).shape bs []) := by
  have hbyte : Sober d (discard (unpackByte num)) fun _ bs =>
      0 ≤ num ∧ bs.length = num.toNat := by
    apply discard_spec
    exact (unpackByte_spec hnum).imp (fun _ h => h) fun _ _ h => ⟨h.1, h.2.1⟩
  have hraw : ∀ {k : ℕ} {bs : List UInt8}, 0 ≤ num ∧ bs.length = k * num.toNat → num = 1 →
      Reads d [.raw k] bs [] := by
    rintro k bs ⟨-, hlength⟩ rfl
    apply Reads.one
    change bs.length = k
    simpa using hlength
  have hword : ∀ {k : ℕ}, k = 1 ∨ k = 2 ∨ k = 4 ∨ k = 8 → Sober d (unpackWords k num) fun _ bs =>
      (num < 0 → False) ∧ (num = 1 → Reads d [.raw k] bs []) := by
    intro k hk
    exact (unpackWords_spec hnum hk).imp (fun _ h => h) fun _ _ h => ⟨by omega, hraw h⟩
  have hone : Sober d (discard (unpackByte num)) fun _ bs =>
      (num < 0 → False) ∧ (num = 1 → Reads d [.raw 1] bs []) :=
    hbyte.imp (fun _ h => h) fun _ _ h => ⟨by omega, hraw (by omega)⟩
  have hmono : ∀ {x : Scan Unit} {k : ℕ} {b : Bool}, (Sober d x fun _ bs =>
      (num < 0 → False) ∧ (num = 1 → Reads d [.raw k] bs [])) → Sober d x fun _ bs =>
      (num < 0 → b = true) ∧ (num = 1 → Reads d [.raw k] bs []) :=
    fun h => h.imp (fun _ h => h) fun _ _ h => ⟨fun hneg => (h.1 hneg).elim, h.2⟩
  have hloop : ∀ {x : Scan Unit} {p : Piece}, (Sober d x fun _ bs => p.Is d bs) →
      Sober d (times num.toNat x) fun _ bs =>
        (num < 0 → true = true) ∧ (num = 1 → Reads d [p] bs []) := by
    intro x p hx
    apply (times_sober hx num.toNat).imp (fun _ h => h)
    intro _ bs h
    exact ⟨fun _ => rfl, fun hnum => Reads.one (h.1 (by omega))⟩
  cases f with
  | null | byte => exact hmono hone
  | int16 | int32 | int64 => exact hmono (hword (by omega))
  | string =>
    apply hloop
    apply discard_spec
    exact unpackString_spec.imp (fun _ h => h) fun _ _ ⟨content, h, _⟩ => ⟨content, h⟩
  | byteObject => exact hloop unpackByteObject_spec
  | bool | int | sizet | pid | dataType | dataValue => exact Spec.fail _

theorem fn_of_remoteWidth {isSigned : Bool} {w : Width} (h : remoteWidth t = some (isSigned, w)) :
    ∃ f, opalDssTypes t = some f ∧ (Fn.simple f).shape = [.raw w.bytes] ∧
      (Fn.simple f).loops = false := by
  rw [remoteWidth] at h
  split_ifs at h with h₁ h₂ h₃ h₄ h₅ h₆ h₇ h₈ <;> cases h <;>
    simp_all [opalDssTypes, uint8, int8, uint16, int16, uint32, DataType.int32, uint64, int64, null,
      byte, DataType.bool, int, uint, Fn.shape, Fn.loops, Width.bytes]

theorem Reads.raw_length {k : ℕ} {bs : List UInt8} (h : Reads d [.raw k] bs []) :
    bs.length = k := by
  cases h with
  | piece hp hrest =>
    cases hrest
    rw [append_nil]
    exact hp

theorem unpackBufferPlain_spec {isSigned : Bool} {w : Width}
    (h : remoteWidth t = some (isSigned, w)) (hnum : -2 ^ 31 ≤ num ∧ num < 2 ^ 31) :
    Sober d (unpackBufferPlain t num) fun _ bs => 0 ≤ num ∧
      (num = 1 → ∃ content, bs = tagOf d t ++ content ∧ content.length = w.bytes) := by
  obtain ⟨f, hf, hshape, hloops⟩ := fn_of_remoteWidth h
  rw [unpackBufferPlain, hf]
  apply (tagged_spec (unpackPlain_spec hnum f)).imp
  · exact fun _ ⟨_, _, h⟩ => h
  · rintro _ bs ⟨content, rfl, hneg, hone⟩
    refine ⟨?_, fun hnum => ⟨content, rfl, ?_⟩⟩
    · by_contra hlt
      rw [hloops] at hneg
      exact absurd (hneg (by omega)) (by decide)
    · rw [hshape] at hone
      exact (hone hnum).raw_length

/-- What `unpackSystem` reads once it has the type. -/
def unpackRemote (real : DataType) (num : ℤ) (remote : DataType) : Scan Unit :=
  if remote = real then unpackBufferPlain real num
  else
    match remoteWidth remote with
    | none => fail .notFound
    | some _ => unpackBufferPlain remote num

theorem unpackSystem_spec {real : DataType} (hreal : (remoteWidth real).isSome)
    (hnum : -2 ^ 31 ≤ num ∧ num < 2 ^ 31) :
    Sober d (unpackSystem real num) fun _ bs => 0 ≤ num ∧ (num = 1 → Piece.Is d .system bs) := by
  have hrest : ∀ remote, Sober d (unpackRemote real num remote) fun _ bs => 0 ≤ num ∧
      (num = 1 → ∃ isSigned w content, remoteWidth remote = some (isSigned, w) ∧
        bs = tagOf d remote ++ content ∧ content.length = w.bytes) := by
    intro remote
    rw [unpackRemote]
    by_cases heq : remote = real
    · rw [if_pos heq, heq]
      obtain ⟨⟨isSigned, w⟩, hw⟩ := isSome_iff_exists.1 hreal
      apply (unpackBufferPlain_spec hw hnum).imp (fun _ h => h)
      rintro _ bs ⟨hpos, hone⟩
      exact ⟨hpos, fun hnum => ⟨isSigned, w, (hone hnum).choose, hw, (hone hnum).choose_spec⟩⟩
    · rw [if_neg heq]
      cases hw : remoteWidth remote with
      | none => exact Spec.fail _
      | some w =>
        obtain ⟨isSigned, w⟩ := w
        apply (unpackBufferPlain_spec hw hnum).imp (fun _ h => h)
        rintro _ bs ⟨hpos, hone⟩
        exact ⟨hpos, fun hnum =>
          ⟨isSigned, w, (hone hnum).choose, rfl, (hone hnum).choose_spec⟩⟩
  have hthen : ∀ (stored : Scan DataType) (front : DataType → List UInt8),
      (Sober d stored fun remote bs => bs = front remote) →
      (∀ remote content, front remote ++ (tagOf d remote ++ content) = remote :: content) →
      Sober d (stored >>= unpackRemote real num) fun _ bs =>
        0 ≤ num ∧ (num = 1 → Piece.Is d .system bs) := by
    intro stored front hstored hfront
    apply Spec.then hstored fun remote _ _ => hrest remote
    rintro remote bs _ bs' rfl ⟨hpos, hone⟩
    refine ⟨hpos, fun hnum => ?_⟩
    obtain ⟨isSigned, w, content, hw, hbs, hlength⟩ := hone hnum
    exact ⟨remote, isSigned, w, content, by rw [hbs, hfront], hw, hlength⟩
  cases d with
  | false =>
    apply (hthen getDataType (fun t => [t]) getDataType_spec fun _ _ => rfl).congr
    intro s hs
    change ((if s.fullyDesc then peekType else getDataType) >>= _ : Scan Unit) s = _
    rw [hs]
    rfl
  | true =>
    apply (hthen peekType (fun _ => []) peekType_spec fun _ _ => rfl).congr
    intro s hs
    change ((if s.fullyDesc then peekType else getDataType) >>= _ : Scan Unit) s = _
    rw [hs]
    rfl

theorem remoteWidth_unsigned (w : Width) : (remoteWidth w.unsigned).isSome := by
  cases w <;> decide

theorem remoteWidth_signed (w : Width) : (remoteWidth w.signed).isSome := by
  cases w <;> decide

variable (env : Env)

theorem unpackSimple_spec (hnum : -2 ^ 31 ≤ num ∧ num < 2 ^ 31) (f : TypeFn) (hf : f ≠ .dataValue) :
    Sober d (unpackSimple env num f) fun _ bs => (num < 0 → (Fn.simple f).loops = true) ∧
        (num = 1 → Reads d (Fn.simple f).shape bs []) := by
  have hsystem : ∀ {real : DataType}, (remoteWidth real).isSome →
      Sober d (unpackSystem real num) fun _ bs =>
        (num < 0 → false = true) ∧ (num = 1 → Reads d [.system] bs []) := by
    intro real hreal
    apply (unpackSystem_spec hreal hnum).imp (fun _ h => h)
    exact fun _ bs ⟨hpos, hone⟩ => ⟨by omega, fun hnum => Reads.one (hone hnum)⟩
  cases f with
  | bool | sizet | pid => exact hsystem (remoteWidth_unsigned _)
  | int => exact hsystem (remoteWidth_signed _)
  | dataType =>
    have hw : remoteWidth .uint8 = some (false, .one) := by decide
    apply (unpackBufferPlain_spec hw hnum).imp (fun _ h => h)
    rintro _ bs ⟨hpos, hone⟩
    refine ⟨by omega, fun hnum => ?_⟩
    obtain ⟨content, rfl, hlength⟩ := hone hnum
    exact Reads.then (Reads.one (p := .tag .uint8) rfl) (Reads.one (p := .raw 1) hlength)
  | dataValue => exact absurd rfl hf
  | null => exact unpackPlain_spec hnum .null
  | byte => exact unpackPlain_spec hnum .byte
  | int16 => exact unpackPlain_spec hnum .int16
  | int32 => exact unpackPlain_spec hnum .int32
  | int64 => exact unpackPlain_spec hnum .int64
  | string => exact unpackPlain_spec hnum .string
  | byteObject => exact unpackPlain_spec hnum .byteObject

end Simple

section Nested

variable {d : Bool} (env : Env)

theorem strlen_spec (cptr : Option (List UInt8)) :
    Spec d (strlen cptr) (fun _ => ∀ content, cptr = some content → 0 ∉ content)
      fun _ bs => bs = [] ∧ ∃ content, cptr = some content ∧ 0 ∈ content := by
  cases cptr with
  | none => exact Spec.stray fun _ => nofun
  | some content =>
    rw [strlen]
    split
    next h => exact Spec.pure ⟨rfl, content, rfl, h⟩
    next h =>
      apply Spec.stray
      rintro _ _ ⟨⟩
      exact h

theorem cstring_astray {cptr : Option (List UInt8)} {bs content : List UInt8}
    (hstring : IsString bs content) (hcptr : cptr = if content = [] then none else some content)
    (hzero : ∀ content, cptr = some content → 0 ∉ content) (rest : List UInt8) :
    GoesAstray d [.cstring] (bs ++ rest) := by
  refine ⟨[], [], bs, content, rest, Reads.done _, hstring, ?_, rfl⟩
  intro hmem
  rw [if_neg (ne_nil_of_mem hmem)] at hcptr
  exact hzero content hcptr hmem

theorem cstring_reads {cptr : Option (List UInt8)} {bs content content' : List UInt8}
    (hstring : IsString bs content) (hcptr : cptr = if content = [] then none else some content)
    (hsome : cptr = some content') (hzero : 0 ∈ content') : Reads d [.cstring] bs [] := by
  apply Reads.one
  refine ⟨content, hstring, ?_⟩
  rw [hcptr] at hsome
  split at hsome
  next => cases hsome
  next =>
    cases hsome
    exact hzero

theorem field_parses (f : Field) : Parses d (f.unpack env) f.pieces := by
  have hone : -2 ^ 31 ≤ (1 : ℤ) ∧ (1 : ℤ) < 2 ^ 31 := by omega
  have hwords : ∀ {k : ℕ}, k = 1 ∨ k = 2 ∨ k = 4 ∨ k = 8 → Parses d (unpackWords k 1) [.raw k] := by
    intro k hk
    apply (unpackWords_spec hone hk).parses
    rintro _ bs ⟨-, hlength⟩
    apply Reads.one
    change bs.length = k
    simpa using hlength
  cases f with
  | string =>
    apply Spec.bind (tagged_spec unpackString_spec) fun cptr _ _ => strlen_spec cptr
    · exact fun _ ⟨_, _, h⟩ => h.elim
    · rintro cptr bs rest ⟨str, rfl, content, hstring, hcptr⟩ hzero
      rw [append_assoc]
      exact GoesAstray.after (Reads.one (p := .tag .string) rfl)
        (cstring_astray hstring hcptr hzero rest)
    · rintro cptr bs _ bs' ⟨str, rfl, content, hstring, hcptr⟩ ⟨rfl, content', hsome, hzero⟩
      rw [append_nil]
      exact Reads.then (Reads.one (p := .tag .string) rfl)
        (cstring_reads hstring hcptr hsome hzero)
  | int32 | int16 => exact parses_tagged (hwords (by omega))
  | byte =>
    apply parses_tagged
    apply (discard_spec ((unpackByte_spec hone).imp (fun _ h => h)
      fun _ _ h => h.2.1)).parses
    exact fun _ bs hlength => Reads.one (p := .raw 1) hlength
  | pid =>
    apply parses_tagged
    apply (unpackSystem_spec (remoteWidth_unsigned _) hone).parses
    exact fun _ bs h => Reads.one (p := .system) (h.2 rfl)

theorem unpackFields_parses (fields : List Field) :
    Parses d (unpackFields env fields) (fields.flatMap Field.pieces) := by
  induction fields with
  | nil => exact Spec.pure (Reads.done [])
  | cons f fields ih =>
    rw [flatMap_cons]
    exact (field_parses env f).bind fun _ => ih

theorem unpackOne_parses {dataValue : Scan Unit} (h : Parses d dataValue [.value]) (f : Fn) :
    Parses d (unpackOne env dataValue f) f.shape := by
  cases f with
  | pstat => exact unpackFields_parses env pstatFields
  | nodeStat => exact unpackFields_parses env nodeStatFields
  | simple f =>
    by_cases hf : f = .dataValue
    · subst hf
      exact h
    · have hsimple : Parses d (unpackSimple env 1 f) (Fn.simple f).shape :=
        (unpackSimple_spec env (by omega) f hf).parses fun _ _ h => h.2 rfl
      cases f with
      | dataValue => exact absurd rfl hf
      | _ => exact hsimple

theorem nested_spec {dataValue : Scan Unit} (h : Parses d dataValue [.value]) (dt : DataType) :
    Spec d (if dt = .null then pure () else if dt = .undef then pure () else
          match types dt with
          | none => fail .unknownDataType
          | some f => tagged dt (unpackOne env dataValue f))
      (fun u => ∃ f rest, types dt = some f ∧ u = tagOf d dt ++ rest ∧ GoesAstray d f.shape rest)
      fun _ bs => bs = [] ∧ (dt = .null ∨ dt = .undef) ∨
        ∃ f rest, types dt = some f ∧ bs = tagOf d dt ++ rest ∧ Reads d f.shape rest [] := by
  by_cases hnull : dt = .null
  · rw [if_pos hnull]
    exact Spec.pure (.inl ⟨rfl, .inl hnull⟩)
  · rw [if_neg hnull]
    by_cases hundef : dt = .undef
    · rw [if_pos hundef]
      exact Spec.pure (.inl ⟨rfl, .inr hundef⟩)
    · rw [if_neg hundef]
      cases hf : types dt with
      | none => exact Spec.fail _
      | some f =>
        apply (tagged_spec (unpackOne_parses env h f)).imp
        · exact fun u ⟨rest, hu, h⟩ => ⟨f, rest, rfl, hu, h⟩
        · exact fun _ bs ⟨rest, hbs, h⟩ => .inr ⟨f, rest, rfl, hbs, h⟩

theorem unpackDataValue_parses (fuel : ℕ) : Parses d (unpackDataValue env fuel) [.value] := by
  induction fuel with
  | zero => exact Spec.fail _
  | succ fuel ih =>
    apply Spec.bind getDataType_spec fun dt _ _ => nested_spec env ih dt
    · exact fun _ h => h.elim
    · rintro dt bs u rfl ⟨f, rest, hf, rfl, bs, qs, str, content, tail, hreads, hstring, hzero, rfl⟩
      refine ⟨dt :: (tagOf d dt ++ bs), qs, str, content, tail, ?_, hstring, hzero, by simp⟩
      apply Reads.value hf
      rwa [append_nil]
    · rintro dt bs _ bs' rfl (⟨rfl, hdt⟩ | ⟨f, rest, hf, rfl, hreads⟩)
      · apply Reads.one
        rcases hdt with rfl | rfl
        · exact .inl rfl
        · exact .inr rfl
      · apply Reads.value hf
        rwa [append_nil]

theorem unpackFn_spec {num : ℤ} (hnum : -2 ^ 31 ≤ num ∧ num < 2 ^ 31) (f : Fn) :
    Spec d (unpackFn env num f) (GoesAstray d (List.replicate num.toNat f.shape).flatten)
      fun _ _ => num < 0 → f.loops = true := by
  have hloop : ∀ {x : Scan Unit} {ps : List Piece}, Parses d x ps →
      Spec d (times num.toNat x) (GoesAstray d (replicate num.toNat ps).flatten)
        fun _ _ => num < 0 → true = true :=
    fun h => (h.times num.toNat).imp (fun _ h => h) fun _ _ _ _ => rfl
  cases f with
  | pstat => exact hloop (unpackFields_parses env pstatFields)
  | nodeStat => exact hloop (unpackFields_parses env nodeStatFields)
  | simple f =>
    by_cases hf : f = .dataValue
    · subst hf
      intro s hs hd
      exact hloop (unpackDataValue_parses env _) s hs hd
    · have hsimple : Spec d (unpackSimple env num f)
          (GoesAstray d (replicate num.toNat (Fn.simple f).shape).flatten)
          fun _ _ => num < 0 → (Fn.simple f).loops = true :=
        (unpackSimple_spec env hnum f hf).imp (fun _ h => h.elim) fun _ _ h => h.1
      cases f with
      | dataValue => exact absurd rfl hf
      | _ => exact hsimple

end Nested

end Scan

end Ulfm.Dss
