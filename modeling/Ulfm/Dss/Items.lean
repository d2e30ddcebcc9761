import Ulfm.Dss.RoundTrip

/-!
# The data storage service: items of a buffer

An item is what one call of `opal_dss_pack` writes: a count and that many values
of one type. Unpacking it with its type and count gives the values back, where
no data value in it is `NULL` below the top or of type `OPAL_NULL`.
-/

namespace Ulfm.Dss

open List Buffer Tape.Reads

variable (env : Env) (m : UInt8) {vals slots : List Value}

section Types

/-- The values the plain pack functions are for. -/
def PlainFits : TypeFn → Value → Prop
  | .null, v => v = .word 0
  | .byte, v => v.IsWord 1
  | .int16, v => v.IsWord 2
  | .int32, v => v.IsWord 4
  | .int64, v => v.IsWord 8
  | .string, v => v.IsString
  | .byteObject, v => v.IsObject
  | _, _ => False

def SimpleFits : TypeFn → Value → Prop
  | .bool, v => v.IsWord env.sizeofBool.bytes
  | .int, v => v.IsWord env.sizeofInt.bytes
  | .sizet, v => v.IsWord env.sizeofSize.bytes
  | .pid, v => v.IsWord env.sizeofPid.bytes
  | .dataType, v => v.IsWord 1
  | f, v => PlainFits f v

def Value.Fits : Value → TypeFn → Prop
  | .nullValue, f => f = .dataValue
  | .undefValue, f => f = .dataValue
  | .value t d, f =>
    f = .dataValue ∧
      match opalDssTypes t with
      | none => False
      | some g => d.Fits g
  | v, f => SimpleFits env f v

/-- A data value with no `NULL` in it and nothing of type `OPAL_NULL`. -/
def Value.Solid : Value → Prop
  | .nullValue => False
  | .value t d => t ≠ .null ∧ d.Solid
  | _ => True

/-- A `NULL` at the top leaves the slot it is unpacked to alone. -/
def Restores (v slot : Value) : Prop := v.Solid ∨ (v = .nullValue ∧ slot = .nullValue)

theorem fn_word (w : Width) : ∃ f, opalDssTypes w.unsigned = some f ∧
    opalDssTypes w.signed = some f ∧ ∀ v : Value, v.IsWord w.bytes → PlainFits f v := by
  cases w with
  | one => exact ⟨.byte, by decide, by decide, fun _ h => h⟩
  | two => exact ⟨.int16, by decide, by decide, fun _ h => h⟩
  | four => exact ⟨.int32, by decide, by decide, fun _ h => h⟩
  | eight => exact ⟨.int64, by decide, by decide, fun _ h => h⟩

theorem simpleFits_of_fits {v : Value} {f : TypeFn} (h : v.Fits env f) (hf : f ≠ .dataValue) :
    SimpleFits env f v := by
  cases v with
  | word | string | object => exact h
  | nullValue | undefValue => exact absurd h hf
  | value => exact absurd h.1 hf

end Types

section Described

variable {m}

theorem isFullyDesc_bind {α : Type} (f : Bool → Action α) (b : Buffer) :
    (isFullyDesc >>= f) b = f b.fullyDesc b := rfl

theorem fullyDesc_of_mode {b : Buffer} (hm : m = bufferFullyDesc) (h : bufferTape.mode b = m) :
    b.fullyDesc = true := by
  have htype : b.type = bufferFullyDesc := h.trans hm
  rw [fullyDesc, htype, beq_self_eq_true]

theorem not_fullyDesc_of_mode {b : Buffer} (hm : m ≠ bufferFullyDesc)
    (h : bufferTape.mode b = m) : b.fullyDesc = false := by
  rw [fullyDesc, beq_eq_false_iff_ne]
  exact fun htype => hm (h.symm.trans htype)

variable {α : Type} {t : DataType} {f : TypeFn} {pf : TypeFn → Action Unit} {uf : TypeFn → Action α}
  {a : α}

variable (m t) in
/-- The tag that precedes a value in a fully described buffer. -/
def tag : List UInt8 := if m = bufferFullyDesc then [t] else []

theorem tag_of_described (hm : m = bufferFullyDesc) : tag m t = [t] := if_pos hm

theorem tag_of_not_described (hm : m ≠ bufferFullyDesc) : tag m t = [] := if_neg hm

theorem tagged_writes {w : Action Unit} {cs : List UInt8} (h : bufferTape.Writes m w cs) :
    bufferTape.Writes m
      (isFullyDesc >>= fun desc => if desc then storeDataType env t >>= fun _ => w else w)
      (tag m t ++ cs) := by
  by_cases hm : m = bufferFullyDesc
  · have hpack : bufferTape.Writes m (storeDataType env t >>= fun _ => w) ([t] ++ cs) :=
      (storeDataType_writes env m t).bind h
    rw [tag_of_described hm]
    refine hpack.congr fun b hb => ?_
    rw [isFullyDesc_bind, fullyDesc_of_mode hm hb]
    rfl
  · rw [tag_of_not_described hm]
    refine h.congr fun b hb => ?_
    rw [isFullyDesc_bind, not_fullyDesc_of_mode hm hb]
    rfl

theorem tagged_reads {r : Action α} {e : Status} {p : DataType → Prop} [DecidablePred p]
    {cs : List UInt8} (hp : ¬p t) (h : bufferTape.Reads m r cs a) :
    bufferTape.Reads m (isFullyDesc >>= fun desc =>
        if desc then getDataType >>= fun t' => if p t' then throw e else r else r)
      (tag m t ++ cs) a := by
  by_cases hm : m = bufferFullyDesc
  · have hunpack : bufferTape.Reads m
        (getDataType >>= fun t' => if p t' then throw e else r) ([t] ++ cs) a := by
      apply (getDataType_reads m t).bind
      rwa [if_neg hp]
    rw [tag_of_described hm]
    refine hunpack.congr fun b hb => ?_
    rw [isFullyDesc_bind, fullyDesc_of_mode hm hb]
    rfl
  · rw [tag_of_not_described hm]
    refine h.congr fun b hb => ?_
    rw [isFullyDesc_bind, not_fullyDesc_of_mode hm hb]
    rfl

theorem packBuffer_writes {cs : List UInt8} (ht : opalDssTypes t = some f)
    (h : bufferTape.Writes m (pf f) cs) :
    bufferTape.Writes m (packBuffer env t pf) (tag m t ++ cs) := by
  refine (tagged_writes env h).congr fun b _ => ?_
  rw [packBuffer, ht]

theorem unpackBuffer_reads {cs : List UInt8} (ht : opalDssTypes t = some f)
    (h : bufferTape.Reads m (uf f) cs a) :
    bufferTape.Reads m (unpackBuffer t uf) (tag m t ++ cs) a := by
  refine (tagged_reads (p := fun t' => t ≠ t') (e := .packMismatch) (not_not_intro rfl)
    h).congr fun b _ => ?_
  rw [unpackBuffer, ht]
  rfl

theorem buffer_mirror (ht : opalDssTypes t = some f) (h : bufferTape.Mirror m (pf f) (uf f) a) :
    bufferTape.Mirror m (packBuffer env t pf) (unpackBuffer t uf) a := by
  obtain ⟨cs, hw, hr⟩ := h
  exact ⟨tag m t ++ cs, packBuffer_writes env ht hw, unpackBuffer_reads ht hr⟩

theorem unpackPtr_lt {b : Buffer} {bs : List UInt8}
    (hu : bufferTape.unread b = t :: bs) : b.unpackPtr < b.bytesUsed := by
  have hlen := congrArg length hu
  have hunread : bufferTape.unread b = (b.memory.take b.bytesUsed).drop b.unpackPtr := rfl
  rw [hunread, length_drop, length_take, length_cons] at hlen
  omega

theorem peekType_eq {b : Buffer} {bs : List UInt8} (hb : b.Valid) (hdesc : b.fullyDesc = true)
    (hu : bufferTape.unread b = t :: bs) : peekType b = .ok t b := by
  have hlt := unpackPtr_lt hu
  rw [peekType, hdesc, Bool.not_true, if_neg Bool.false_ne_true, if_neg (by omega),
    getDataType_reads b.type t b bs hb rfl hu]

theorem system_mirror {cast : Bool → Width → ℕ → ℕ} {num : ℕ} (ht : opalDssTypes t = some f)
    (h : bufferTape.Mirror m (packPlain env vals f) (unpackPlain num slots f) vals) :
    bufferTape.Mirror m (packSystem env t vals) (unpackSystem t cast num slots) vals := by
  obtain ⟨cs, hw, hr⟩ := h
  have hpack := packBuffer_writes env ht hw
  have hunpack := unpackBuffer_reads ht hr
  by_cases hm : m = bufferFullyDesc
  · refine ⟨_, hpack.congr fun b hb => ?_, ?_⟩
    · rw [packSystem, isFullyDesc_bind, fullyDesc_of_mode hm hb]
      rfl
    · intro b rest hb hmode hu
      have hdesc := fullyDesc_of_mode hm hmode
      have hfirst : bufferTape.unread b = t :: (cs ++ rest) := by
        rw [hu, tag_of_described hm]
        rfl
      rw [← hunpack b rest hb hmode hu, unpackSystem, isFullyDesc_bind, hdesc, if_pos rfl,
        bind_of_ok (peekType_eq hb hdesc hfirst), if_pos rfl]
  · have hstore : bufferTape.Writes m
        (storeDataType env t >>= fun _ => packBuffer env t (packPlain env vals)) _ :=
      (storeDataType_writes env m t).bind hpack
    have hget : bufferTape.Reads m
        (getDataType >>= fun remote =>
          if remote = t then unpackBuffer t (unpackPlain num slots)
          else unpackSizeMismatch cast remote num slots) ([t] ++ (tag m t ++ cs)) vals := by
      apply (getDataType_reads m t).bind
      rwa [if_pos rfl]
    refine ⟨_, hstore.congr fun b hb => ?_, hget.congr fun b hb => ?_⟩
    · rw [packSystem, isFullyDesc_bind, not_fullyDesc_of_mode hm hb]
      rfl
    · rw [unpackSystem, isFullyDesc_bind, not_fullyDesc_of_mode hm hb]
      rfl

end Described

section Values

variable {f : TypeFn}

theorem forall₂_slots {R : Value → Prop} {Q : Value → Value → Prop}
    (hlen : slots.length = vals.length)
    (h : ∀ v ∈ vals, R v) (hQ : ∀ v slot, R v → Q v slot) : List.Forall₂ Q vals slots := by
  rw [forall₂_iff_get]
  refine ⟨hlen.symm, fun i hi _ => ?_⟩
  exact hQ _ _ (h _ (get_mem vals ⟨i, hi⟩))

theorem plain_mirror (hr : Room vals slots) (h : ∀ v ∈ vals, PlainFits f v) :
    bufferTape.Mirror m (packPlain env vals f) (unpackPlain vals.length slots f) vals := by
  have hfirst : ∃ v, v ∈ vals := exists_mem_of_ne_nil vals hr.ne_nil
  obtain ⟨v, hv⟩ := hfirst
  cases f with
  | null => exact null_mirror env m hr h
  | byte | int16 | int32 | int64 => exact words_mirror env m (by decide) hr h
  | string =>
    exact Tape.Mirror.forall₂ (forall₂_slots hr.length_eq h fun _ slot hv =>
      string_mirror env m hv slot)
  | byteObject =>
    exact Tape.Mirror.forall₂ (forall₂_slots hr.length_eq h fun _ slot hv =>
      object_mirror env m hv slot)
  | bool | int | sizet | pid | dataType | dataValue => exact (h v hv).elim

theorem simple_mirror (hr : Room vals slots) (h : ∀ v ∈ vals, SimpleFits env f v) :
    bufferTape.Mirror m (packSimple env vals f) (unpackSimple env vals.length slots f) vals := by
  cases f with
  | bool =>
    obtain ⟨g, ht, -, hg⟩ := fn_word env.sizeofBool
    exact system_mirror env ht (plain_mirror env m hr fun v hv => hg v (h v hv))
  | int =>
    obtain ⟨g, -, ht, hg⟩ := fn_word env.sizeofInt
    exact system_mirror env ht (plain_mirror env m hr fun v hv => hg v (h v hv))
  | sizet =>
    obtain ⟨g, ht, -, hg⟩ := fn_word env.sizeofSize
    exact system_mirror env ht (plain_mirror env m hr fun v hv => hg v (h v hv))
  | pid =>
    obtain ⟨g, ht, -, hg⟩ := fn_word env.sizeofPid
    exact system_mirror env ht (plain_mirror env m hr fun v hv => hg v (h v hv))
  | dataType =>
    have ht : opalDssTypes .uint8 = some .byte := by decide
    exact buffer_mirror env ht (plain_mirror env m hr h)
  | null => exact plain_mirror env m (f := .null) hr h
  | byte => exact plain_mirror env m (f := .byte) hr h
  | int16 => exact plain_mirror env m (f := .int16) hr h
  | int32 => exact plain_mirror env m (f := .int32) hr h
  | int64 => exact plain_mirror env m (f := .int64) hr h
  | string => exact plain_mirror env m (f := .string) hr h
  | dataValue => exact plain_mirror env m (f := .dataValue) hr h
  | byteObject => exact plain_mirror env m (f := .byteObject) hr h

theorem single_room (v slot : Value) : Room [v] [slot] where
  ne_nil := cons_ne_nil _ _
  lt := by simp
  length_eq := rfl

def Value.depth : Value → ℕ
  | .value _ d => d.depth + 1
  | .nullValue => 1
  | .undefValue => 1
  | _ => 0

/-- One data value, its bytes, and the fuel that reads them. -/
structure CodedValue (v slot : Value) (bs : List UInt8) : Prop where
  depth_le : v.depth ≤ bs.length
  writes : bufferTape.Writes m (packDataValue env v) bs
  reads : ∀ fuel, v.depth ≤ fuel → bufferTape.Reads m (unpackDataValue env fuel slot) bs v

theorem fuel_succ {n fuel : ℕ} (h : n + 1 ≤ fuel) : ∃ k, fuel = k + 1 := ⟨fuel - 1, by omega⟩

theorem codedValue_undef (slot : Value) : CodedValue env m .undefValue slot [DataType.undef] where
  depth_le := Nat.le_refl 1
  writes := storeDataType_writes env m .undef
  reads fuel hfuel := by
    obtain ⟨fuel, rfl⟩ := fuel_succ hfuel
    apply (getDataType_reads m .undef).bind
    exact pure _

theorem codedValue_null : CodedValue env m .nullValue .nullValue [DataType.null] where
  depth_le := Nat.le_refl 1
  writes := storeDataType_writes env m .null
  reads fuel hfuel := by
    obtain ⟨fuel, rfl⟩ := fuel_succ hfuel
    apply (getDataType_reads m .null).bind
    exact pure _

theorem ne_undef_of_registered {t : DataType} (ht : opalDssTypes t = some f) : t ≠ .undef := by
  rintro rfl
  cases ht

theorem codedValue_value {t : DataType} {d : Value} (slot : Value) (ht : opalDssTypes t = some f)
    (hnull : t ≠ .null) {cs : List UInt8} (hlen : d.depth ≤ cs.length)
    (hw : bufferTape.Writes m (packBuffer env t fun
      | .dataValue => packDataValue env d
      | f => packSimple env [d] f) cs)
    (hr : ∀ fuel, d.depth ≤ fuel → bufferTape.Reads m (unpackBuffer t fun
      | .dataValue => unpackDataValue env fuel env.junk
      | f => do
          let ds ← unpackSimple env 1 [env.junk] f
          return ds.headD env.junk) cs d) :
    CodedValue env m (.value t d) slot (t :: cs) where
  depth_le := Nat.succ_le_succ hlen
  writes := by
    rw [packDataValue]
    apply (storeDataType_writes env m t).bind
    rw [if_neg (ne_undef_of_registered ht), ht]
    exact hw
  reads fuel hfuel := by
    obtain ⟨fuel, rfl⟩ := fuel_succ hfuel
    rw [unpackDataValue]
    apply (getDataType_reads m t).bind
    rw [if_neg hnull, if_neg (ne_undef_of_registered ht), ht]
    have h := (hr fuel (Nat.le_of_succ_le_succ hfuel)).bind
      (f := fun data => pure (Value.value t data)) (Tape.Reads.pure _)
    rwa [append_nil] at h

theorem depth_of_fits {v : Value} (h : v.Fits env f) (hf : f ≠ .dataValue) : v.depth = 0 := by
  cases v with
  | word | string | object => rfl
  | nullValue | undefValue => exact absurd h hf
  | value => exact absurd h.1 hf

theorem match_of_ne {α : Type} {x : α} {y : TypeFn → α} : ∀ f : TypeFn, f ≠ .dataValue →
      (match f with
        | .dataValue => x
        | f => y f) = y f := by
  intro f hf
  cases f <;> first | rfl | exact absurd rfl hf

theorem dataValue_coded {v : Value} (h : v.Fits env .dataValue) (hs : v.Solid) (slot : Value) :
    ∃ bs, CodedValue env m v slot bs := by
  induction v generalizing slot with
  | word | string | object => exact h.elim
  | nullValue => exact hs.elim
  | undefValue => exact ⟨_, codedValue_undef env m slot⟩
  | value t d ih =>
    obtain ⟨hnull, hd⟩ := hs
    obtain ⟨-, hfits⟩ := h
    cases ht : opalDssTypes t with
    | none =>
      rw [ht] at hfits
      exact hfits.elim
    | some f =>
      rw [ht] at hfits
      by_cases hf : f = .dataValue
      · subst hf
        obtain ⟨cs, hcs⟩ := ih hfits hd env.junk
        have hlen : d.depth ≤ (tag m t ++ cs).length := by
          rw [length_append]
          exact hcs.depth_le.trans (Nat.le_add_left _ _)
        exact ⟨_, codedValue_value env m slot ht hnull hlen
          (packBuffer_writes env ht hcs.writes)
          fun fuel hfuel => unpackBuffer_reads ht (hcs.reads fuel hfuel)⟩
      · have hsimple := simpleFits_of_fits env hfits hf
        obtain ⟨cs, hw, hr⟩ := simple_mirror env m (single_room d env.junk)
          (forall_mem_singleton.2 hsimple)
        have hlen : d.depth ≤ (tag m t ++ cs).length := by
          rw [depth_of_fits env hfits hf]
          exact Nat.zero_le _
        refine ⟨_, codedValue_value env m slot ht hnull hlen (packBuffer_writes env ht ?_)
          fun fuel _ => unpackBuffer_reads ht ?_⟩
        · rw [match_of_ne f hf]
          exact hw
        · rw [match_of_ne f hf]
          have hhead := hr.bind (f := fun ds => pure (ds.headD env.junk)) (Tape.Reads.pure _)
          rwa [append_nil] at hhead

theorem coded_of_restores {v slot : Value} (h : v.Fits env .dataValue) (hr : Restores v slot) :
    ∃ bs, CodedValue env m v slot bs := by
  rcases hr with hs | ⟨rfl, rfl⟩
  · exact dataValue_coded env m h hs slot
  · exact ⟨_, codedValue_null env m⟩

theorem dataValues_coded (hfits : ∀ v ∈ vals, v.Fits env .dataValue)
    (h : List.Forall₂ Restores vals slots) :
    ∃ bs, (∀ v ∈ vals, v.depth ≤ bs.length) ∧
      bufferTape.Writes m (each (packDataValue env) vals) bs ∧
      ∀ fuel, (∀ v ∈ vals, v.depth ≤ fuel) →
        bufferTape.Reads m (collect (unpackDataValue env fuel) slots) bs vals := by
  induction h with
  | nil => exact ⟨[], by simp, Tape.Writes.pure, fun _ _ => Tape.Reads.pure []⟩
  | @cons v slot vals slots hv _ ih =>
    obtain ⟨bs, hbs⟩ := coded_of_restores env m (hfits v mem_cons_self) hv
    obtain ⟨cs, hlen, hw, hr⟩ := ih fun w hw => hfits w (mem_cons_of_mem _ hw)
    refine ⟨bs ++ cs, ?_, hbs.writes.bind hw, fun fuel hfuel => ?_⟩
    · intro w hw
      rw [length_append]
      rcases mem_cons.1 hw with rfl | hw
      · exact hbs.depth_le.trans (Nat.le_add_right _ _)
      · exact (hlen w hw).trans (Nat.le_add_left _ _)
    · apply (hbs.reads fuel (hfuel v mem_cons_self)).bind
      have htail := (hr fuel fun w hw => hfuel w (mem_cons_of_mem _ hw)).bind
        (f := fun ws => pure (v :: ws)) (Tape.Reads.pure _)
      rwa [append_nil] at htail

theorem fn_mirror (hr : Room vals slots) (hfits : ∀ v ∈ vals, v.Fits env f)
    (hres : List.Forall₂ Restores vals slots) :
    bufferTape.Mirror m (packFn env vals f) (unpackFn env vals.length slots f) vals := by
  by_cases hf : f = .dataValue
  · subst hf
    obtain ⟨bs, hlen, hw, hread⟩ := dataValues_coded env m hfits hres
    refine ⟨bs, hw, fun b rest hb hm hu => ?_⟩
    -- the bytes left in the buffer are fuel enough: they include these bytes
    refine hread (b.packPtr - b.unpackPtr + 1) (fun v hv => (hlen v hv).trans ?_) b rest hb hm hu
    have hunread : bufferTape.unread b = (b.memory.take b.bytesUsed).drop b.unpackPtr := rfl
    have hcount := congrArg length hu
    rw [hunread, length_drop, length_take, length_append] at hcount
    have hpack := hb.packPtr_eq
    omega
  · have hsimple := simple_mirror env m hr fun v hv => simpleFits_of_fits env (hfits v hv) hf
    rw [packFn, unpackFn]
    · exact hsimple
    · exact hf
    · exact hf

end Values

section Items

/-- What one call of `opal_dss_pack` puts into a buffer. -/
structure Item where
  type : DataType
  values : List Value

/-- The values are of the type and their count fits its `int32_t`. -/
structure Item.Typed (item : Item) : Prop where
  fits : ∃ f, opalDssTypes item.type = some f ∧ ∀ v ∈ item.values, v.Fits env f
  lt : item.values.length < 2 ^ 31

/-- The items that come back: there is something to unpack, and no data value
holds a `NULL` or something of type `OPAL_NULL`. -/
structure Item.Sound (item : Item) : Prop where
  ne_nil : item.values ≠ []
  solid : ∀ v ∈ item.values, v.Solid ∨ v = .nullValue

structure Item.Coded (item : Item) (bs : List UInt8) : Prop where
  lt : item.values.length < 2 ^ 31
  writes : bufferTape.Writes m (pack env item.type item.values) bs
  reads : ∀ slots, List.Forall₂ Restores item.values slots →
    bufferTape.Reads m (unpack env item.type slots) bs (.success, item.values)
  header : ∃ cs, bs = tag m .int32 ++ (encodeBE 4 item.values.length ++ (tag m item.type ++ cs))

variable {m} {t : DataType} {f : TypeFn}

theorem pack_writes {cs : List UInt8} (ht : opalDssTypes t = some f)
    (h : bufferTape.Writes m (packFn env vals f) cs) :
    bufferTape.Writes m (pack env t vals)
      (tag m .int32 ++ (encodeBE 4 vals.length ++ (tag m t ++ cs))) := by
  have hcount : bufferTape.Writes m
      (store env (encodeBE 4 vals.length) >>= fun _ => packBuffer env t (packFn env vals)) _ :=
    (store_writes env m (encodeBE_ne_nil (by decide))).bind (packBuffer_writes env ht h)
  refine (tagged_writes env hcount).congr fun b _ => ?_
  rw [pack]

theorem unpack_reads {cs : List UInt8} (ht : opalDssTypes t = some f) (hr : Room vals slots)
    (h : bufferTape.Reads m (unpackFn env vals.length slots f) cs vals) :
    bufferTape.Reads m (unpack env t slots)
      (tag m .int32 ++ (encodeBE 4 vals.length ++ (tag m t ++ cs))) (.success, vals) := by
  have hvals : bufferTape.Reads m
      (unpackBuffer t (unpackFn env vals.length slots) >>= fun vals => pure (Status.success, vals))
      (tag m t ++ cs) (.success, vals) := by
    have hread := (unpackBuffer_reads ht h).bind
      (f := fun vals => pure (Status.success, vals)) (Tape.Reads.pure _)
    rwa [append_nil] at hread
  have hnum : bufferTape.Reads m
      (unpackInt32 >>= fun num =>
        if num < 2 ^ 31 ∧ slots.length < num then
          unpackBuffer t (unpackFn env slots.length slots) >>= fun vals =>
            pure (Status.unpackInadequateSpace, vals)
        else
          unpackBuffer t (unpackFn env num (slots.take (if num < 2 ^ 31 then num else 0))) >>=
            fun vals => pure (Status.success, vals))
      (encodeBE 4 vals.length ++ (tag m t ++ cs)) (.success, vals) := by
    apply (unpackInt32_reads m hr.lt).bind
    have henough : ¬(vals.length < 2 ^ 31 ∧ slots.length < vals.length) := by
      rw [hr.length_eq]
      omega
    rw [if_neg henough, if_pos hr.lt, take_of_length_le hr.length_eq.le]
    exact hvals
  have hslots : slots.length ≠ 0 := by
    rw [hr.length_eq, ne_eq, length_eq_zero_iff]
    exact hr.ne_nil
  refine (tagged_reads (p := fun t' => t' ≠ .int32) (e := .unpackFailure) (not_not_intro rfl)
    hnum).congr fun b _ => ?_
  rw [unpack, if_neg hslots]
  rfl

theorem room_of_restores (hne : vals ≠ []) (hlt : vals.length < 2 ^ 31)
    (h : List.Forall₂ Restores vals slots) : Room vals slots :=
  ⟨hne, hlt, h.length_eq.symm⟩

variable (m) in
theorem item_coded {item : Item} (ht : item.Typed env) (hs : item.Sound) :
    ∃ bs, item.Coded env m bs := by
  obtain ⟨⟨f, hf, hfits⟩, hlt⟩ := ht
  have hmirror : ∀ slots, List.Forall₂ Restores item.values slots → ∃ cs,
      bufferTape.Writes m (packFn env item.values f) cs ∧
      bufferTape.Reads m (unpackFn env item.values.length slots f) cs item.values :=
    fun slots h => fn_mirror env m (room_of_restores hs.ne_nil hlt h) hfits h
  have hself : List.Forall₂ Restores item.values item.values := by
    rw [forall₂_same]
    exact fun v hv => (hs.solid v hv).imp_right fun h => ⟨h, h⟩
  obtain ⟨cs, hw, -⟩ := hmirror _ hself
  refine ⟨_, hlt, pack_writes env hf hw, fun slots h => ?_, cs, rfl⟩
  -- the bytes do not depend on where they are going to be unpacked
  obtain ⟨cs', hw', hr⟩ := hmirror slots h
  have heq : cs = cs' := hw.unique hw' (valid_construct m) rfl
  subst heq
  exact unpack_reads env hf (room_of_restores hs.ne_nil hlt h) hr

theorem peek_eq {item : Item} {bs rest : List UInt8} {b : Buffer} (hb : b.Valid)
    (hdesc : b.type = bufferFullyDesc) (h : item.Coded env b.type bs)
    (hu : bufferTape.unread b = bs ++ rest) :
    peek b = .ok (item.type, item.values.length) b := by
  obtain ⟨cs, rfl⟩ := h.header
  rw [tag_of_described hdesc, tag_of_described hdesc] at hu
  have hread : bufferTape.Reads b.type (do
      let localType ← getDataType
      if localType ≠ .int32 then throw Status.unpackFailure
      let num ← unpackInt32
      let t ← getDataType
      return (t, num)) ([DataType.int32] ++ (encodeBE 4 item.values.length ++ ([item.type] ++ [])))
      (item.type, item.values.length) := by
    apply (getDataType_reads _ _).bind
    apply (unpackInt32_reads _ h.lt).bind
    apply (getDataType_reads _ _).bind
    exact pure _
  have hfirst : bufferTape.unread b
      = [DataType.int32] ++ (encodeBE 4 item.values.length ++ ([item.type] ++ [])) ++
        (cs ++ rest) := by
    rw [hu]
    simp
  have hlt : b.unpackPtr < b.bytesUsed := unpackPtr_lt hfirst
  have hfully : b.fullyDesc = true := by rw [fullyDesc, hdesc, beq_self_eq_true]
  rw [peek, if_neg (by omega), hfully, Bool.not_true, if_neg Bool.false_ne_true]
  simp only [hread b _ hb rfl hfirst]

theorem Item.Coded.ne_nil {item : Item} {bs : List UInt8} (h : item.Coded env m bs) : bs ≠ [] := by
  obtain ⟨cs, rfl⟩ := h.header
  rw [← length_pos_iff, length_append, length_append, length_encodeBE]
  omega

theorem peek_state (b : Buffer) : (∃ a, peek b = .ok a b) ∨ ∃ e, peek b = .error e b := by
  unfold peek
  split
  · exact .inr ⟨_, rfl⟩
  · split
    · exact .inr ⟨_, rfl⟩
    · dsimp only
      split
      · exact .inl ⟨_, rfl⟩
      · exact .inr ⟨_, rfl⟩

end Items

end Ulfm.Dss
