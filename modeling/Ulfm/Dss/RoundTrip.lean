import Ulfm.Dss.Pack

/-!
# The data storage service: what is packed is what is unpacked

The pack and unpack functions of every type mirror each other on a buffer, in
both buffer types and however the buffer grows.
-/

namespace Ulfm.Dss

open Buffer Nat

variable (env : Env)

section Buffers

/-- The offsets of a buffer fit each other and its memory. -/
structure Buffer.Valid (b : Buffer) : Prop where
  packPtr_eq : b.packPtr = b.bytesUsed
  unpackPtr_le : b.unpackPtr ≤ b.bytesUsed
  used_le : b.bytesUsed ≤ b.bytesAllocated
  allocated_le : b.bytesAllocated ≤ b.memory.length

theorem Buffer.valid_construct (type : UInt8) : (Buffer.construct type).Valid :=
  ⟨rfl, Nat.le_refl 0, Nat.le_refl 0, Nat.le_refl 0⟩

def bufferTape : Tape Buffer UInt8 UInt8 where
  Good := Buffer.Valid
  mode b := b.type
  written b := b.memory.take b.bytesUsed
  position b := b.unpackPtr
  advance n b := { b with unpackPtr := b.unpackPtr + n }
  advance_zero _ := rfl
  advance_advance m n b := by simp [Nat.add_assoc]
  mode_advance _ _ := rfl
  written_advance _ _ := rfl
  position_advance _ _ := rfl
  good_advance n b h hn :=
    { packPtr_eq := h.packPtr_eq
      unpackPtr_le := by
        have hlen := List.length_take_le b.bytesUsed b.memory
        exact hn.trans hlen
      used_le := h.used_le
      allocated_le := h.allocated_le }

theorem le_doubleUntil (required : ℕ) :
    ∀ fuel n, 0 < n → required ≤ fuel + n → required ≤ doubleUntil required fuel n := by
  intro fuel
  induction fuel with
  | zero =>
    intro n _ h
    simpa [doubleUntil] using h
  | succ fuel ih =>
    intro n hn h
    rw [doubleUntil]
    split
    · exact ih (2 * n) (by omega) (by omega)
    · omega

theorem le_toAlloc (required allocated : ℕ) : required ≤ toAlloc env required allocated := by
  have ht := env.threshold_pos
  have hi := env.initial_pos
  unfold toAlloc
  split
  · have hdiv := div_add_mod (required + env.thresholdSize - 1) env.thresholdSize
    have hmod := mod_lt (required + env.thresholdSize - 1) ht
    rw [Nat.mul_comm] at hdiv
    omega
  · apply le_doubleUntil
    · split <;> omega
    · omega

theorem bufferExtend_spec {b : Buffer} (hb : b.Valid) (n : ℕ) :
    bufferTape.Extends b (bufferExtend env n b) [] ∧
      b.bytesUsed + n ≤ (bufferExtend env n b).bytesAllocated ∧
      (bufferExtend env n b).bytesUsed = b.bytesUsed ∧
      (0 < n → (bufferExtend env n b).basePtr.isSome) := by
  have hused := hb.used_le
  have halloc := hb.allocated_le
  have hunpack := hb.unpackPtr_le
  unfold bufferExtend
  split
  · refine ⟨Tape.Extends.refl hb, by omega, rfl, fun hn => ?_⟩
    cases hbase : b.basePtr with
    | some mem => rfl
    | none =>
      have hmem : b.memory.length = 0 := by simp [memory, hbase]
      omega
  · have hroom := le_toAlloc env (b.bytesUsed + n) b.bytesAllocated
    generalize toAlloc env (b.bytesUsed + n) b.bytesAllocated = size at hroom
    cases hbase : b.basePtr with
    | none =>
      have hmem : b.memory.length = 0 := by simp [memory, hbase]
      have hzero : b.bytesUsed = 0 := by omega
      refine ⟨⟨⟨?_, ?_, ?_, ?_⟩, rfl, ?_, ?_⟩, by simpa using hroom, hzero.symm, fun _ => rfl⟩
      · rfl
      · exact Nat.le_refl 0
      · exact Nat.zero_le _
      · simp [memory]
      · change 0 = b.unpackPtr
        omega
      · simp [bufferTape, hzero]
    | some mem =>
      have hmem : b.memory = mem := by simp [memory, hbase]
      rw [hmem] at halloc
      refine ⟨⟨⟨?_, ?_, ?_, ?_⟩, rfl, rfl, ?_⟩, by simpa using hroom, rfl, fun _ => rfl⟩
      · exact hb.packPtr_eq
      · exact hunpack
      · change b.bytesUsed ≤ size
        omega
      · simp only [memory, Option.getD_some, realloc, List.length_append,
          List.length_take, List.length_replicate]
        omega
      · simp only [bufferTape, memory, hbase, Option.getD_some, realloc, List.append_nil]
        rw [List.take_append_of_le_length (by rw [List.length_take]; omega),
          List.take_take, Nat.min_eq_left (by omega)]

theorem take_memcpy {mem bs : List UInt8} {dst : ℕ} (h : dst ≤ mem.length) :
    (memcpy mem dst bs).take (dst + bs.length) = mem.take dst ++ bs := by
  have hlen : (mem.take dst ++ bs).length = dst + bs.length := by
    rw [List.length_append, List.length_take, Nat.min_eq_left h]
  rw [memcpy, ← hlen, List.take_left]

theorem length_memcpy {mem bs : List UInt8} {dst : ℕ} (h : dst + bs.length ≤ mem.length) :
    (memcpy mem dst bs).length = mem.length := by
  simp only [memcpy, List.length_append, List.length_take, List.length_drop]
  omega

theorem get_ok (b : Buffer) : EStateM.get b = (.ok b b : EStateM.Result Status Buffer Buffer) := rfl

theorem set_ok (b b' : Buffer) :
    EStateM.set b' b = (.ok ⟨⟩ b' : EStateM.Result Status Buffer PUnit) := rfl

theorem store_eq {b b' : Buffer} {bs mem : List UInt8} (hb' : bufferExtend env bs.length b = b')
    (hmem : b'.basePtr = some mem) :
    store env bs b = .ok () { b' with
        basePtr := some (memcpy mem b'.packPtr bs), packPtr := b'.packPtr + bs.length,
        bytesUsed := b'.bytesUsed + bs.length } := by
  obtain ⟨type, base, packPtr, unpackPtr, allocated, used⟩ := b'
  cases hmem
  simp only [store, bind, EStateM.bind, get, getThe, MonadStateOf.get, get_ok, set, set_ok, hb']

theorem store_writes (m : UInt8) {bs : List UInt8} (hbs : bs ≠ []) :
    bufferTape.Writes m (store env bs) bs := by
  intro b hb _
  obtain ⟨hext, hroom, hused, hsome⟩ := bufferExtend_spec env hb bs.length
  obtain ⟨mem, hmem⟩ := Option.isSome_iff_exists.1 (hsome (List.length_pos_iff.2 hbs))
  have hv := hext.good
  generalize hb' : bufferExtend env bs.length b = b' at hext hroom hused hmem hv
  have hmemory : b'.memory = mem := by simp [memory, hmem]
  have halloc := hv.allocated_le
  have hpack := hv.packPtr_eq
  have hfits : b'.packPtr + bs.length ≤ mem.length := by
    rw [← hmemory]
    omega
  refine ⟨_, store_eq env hb' hmem, ?_⟩
  refine ⟨⟨?_, ?_, ?_, ?_⟩, hext.mode, hext.position, ?_⟩
  · change b'.packPtr + bs.length = b'.bytesUsed + bs.length
    rw [hpack]
  · exact hv.unpackPtr_le.trans (Nat.le_add_right _ _)
  · change b'.bytesUsed + bs.length ≤ b'.bytesAllocated
    rwa [hused]
  · change b'.bytesAllocated ≤ (memcpy mem b'.packPtr bs).length
    rw [length_memcpy hfits, ← hmemory]
    exact halloc
  · have hold := hext.written
    rw [List.append_nil] at hold
    rw [← hold]
    change (memcpy mem b'.packPtr bs).take (b'.bytesUsed + bs.length)
      = b'.memory.take b'.bytesUsed ++ bs
    rw [← hpack, take_memcpy (by omega), hmemory]

theorem fetch_eq {b : Buffer} {n : ℕ} (h : tooSmall b n = false) :
    fetch n b = .ok ((b.memory.drop b.unpackPtr).take n)
      { b with unpackPtr := b.unpackPtr + n } := by
  simp only [fetch, bind, EStateM.bind, get, getThe, MonadStateOf.get, get_ok, set,
    set_ok, h, Bool.false_eq_true, if_false, pure, EStateM.pure]

theorem fetch_reads (m : UInt8) (bs : List UInt8) : bufferTape.Reads m (fetch bs.length) bs bs := by
  intro b rest hb _ hu
  have hpack := hb.packPtr_eq
  have hunread : (b.memory.take b.bytesUsed).drop b.unpackPtr = bs ++ rest := hu
  have hlen := congrArg List.length hunread
  rw [List.length_drop, List.length_take, List.length_append] at hlen
  have halloc := hb.allocated_le
  have hused := hb.used_le
  have hle := hb.unpackPtr_le
  have hsmall : tooSmall b bs.length = false := by
    simp only [tooSmall]
    rw [if_neg (by omega), decide_eq_false (by omega)]
  have htake : (b.memory.drop b.unpackPtr).take bs.length = bs := by
    rw [List.drop_take] at hunread
    have htwo := congrArg (List.take bs.length) hunread
    rw [List.take_take, List.take_left, Nat.min_eq_left (by omega)] at htwo
    exact htwo
  rw [fetch_eq hsmall, htake]
  rfl

end Buffers

section Words

@[simp] theorem length_encodeBE (k n : ℕ) : (encodeBE k n).length = k := by
  rw [encodeBE, List.length_reverse, length_encodeLE]

theorem decodeBE_encodeBE {k n : ℕ} (h : n < 256 ^ k) : decodeBE (encodeBE k n) = n := by
  rw [decodeBE, encodeBE, List.reverse_reverse, decodeLE_encodeLE, mod_eq_of_lt h]

theorem encodeBE_ne_nil {k n : ℕ} (hk : 0 < k) : encodeBE k n ≠ [] := by
  rw [← List.length_pos_iff, length_encodeBE]
  exact hk

/-- A word of `k` bytes. -/
def Value.IsWord (k : ℕ) : Value → Prop
  | .word n => n < 256 ^ k
  | _ => False

theorem decodeWords_flatMap {k : ℕ} {vals : List Value} (h : ∀ v ∈ vals, v.IsWord k) :
    decodeWords k vals.length (vals.flatMap fun v => encodeBE k v.bits) = vals := by
  induction vals with
  | nil => rfl
  | cons v vals ih =>
    have hv := h v List.mem_cons_self
    cases v with
    | word n =>
      have hn : n < 256 ^ k := hv
      rw [List.flatMap_cons, List.length_cons, decodeWords,
        List.take_left' (length_encodeBE k _), List.drop_left' (length_encodeBE k _),
        ih fun w hw => h w (List.mem_cons_of_mem _ hw)]
      rw [Value.bits, decodeBE_encodeBE hn]
    | string | object | nullValue | undefValue | value => exact hv.elim

theorem length_flatMap_encodeBE (k : ℕ) (vals : List Value) :
    (vals.flatMap fun v => encodeBE k v.bits).length = vals.length * k := by
  induction vals with
  | nil => simp
  | cons v vals ih =>
    rw [List.flatMap_cons, List.length_append, length_encodeBE, ih, List.length_cons,
      succ_mul, Nat.add_comm]

theorem int32ToSize_of_lt {n : ℕ} (h : n < 2 ^ 31) : int32ToSize n = n := if_pos h

end Words

section Plain

variable (m : UInt8) {vals slots : List Value}

/-- The array unpacked into has the count of the values, which fits its
`int32_t`. -/
structure Room (vals slots : List Value) : Prop where
  ne_nil : vals ≠ []
  lt : vals.length < 2 ^ 31
  length_eq : slots.length = vals.length

theorem words_mirror {k : ℕ} (hk : 0 < k) (hr : Room vals slots) (h : ∀ v ∈ vals, v.IsWord k) :
    bufferTape.Mirror m (packWords env k vals) (unpackWords k vals.length slots) vals := by
  refine ⟨vals.flatMap fun v : Value => encodeBE k v.bits, store_writes env m ?_, ?_⟩
  · rw [← List.length_pos_iff, length_flatMap_encodeBE]
    exact Nat.mul_pos (List.length_pos_iff.2 hr.ne_nil) hk
  · rw [unpackWords, int32ToSize_of_lt hr.lt, ← length_flatMap_encodeBE k vals, hr.length_eq]
    have hread := (fetch_reads m (vals.flatMap fun v : Value => encodeBE k v.bits)).bind
      (f := fun bs => pure (decodeWords k vals.length bs)) (Tape.Reads.pure _)
    rwa [List.append_nil, decodeWords_flatMap h] at hread

theorem null_mirror (hr : Room vals slots) (h : ∀ v ∈ vals, v = .word 0) :
    bufferTape.Mirror m (packNull env vals) (unpackWords 1 vals.length slots) vals := by
  have hzero : (vals.flatMap fun v => encodeBE 1 v.bits) = List.replicate vals.length 0 := by
    clear hr
    induction vals with
    | nil => rfl
    | cons v vals ih =>
      rw [List.flatMap_cons, ih fun w hw => h w (List.mem_cons_of_mem _ hw), h v List.mem_cons_self]
      rfl
  have hword : ∀ v ∈ vals, v.IsWord 1 := by
    intro v hv
    rw [h v hv]
    exact Nat.one_pos.trans (by decide)
  have hmirror := words_mirror env m Nat.one_pos hr hword
  rw [packWords, hzero] at hmirror
  exact hmirror

theorem unpackInt32_reads {n : ℕ} (h : n < 2 ^ 31) :
    bufferTape.Reads m unpackInt32 (encodeBE 4 n) n := by
  have hread := (fetch_reads m (encodeBE 4 n)).bind (f := fun bs => pure (decodeBE bs))
    (Tape.Reads.pure _)
  rwa [List.append_nil, length_encodeBE, decodeBE_encodeBE (by omega)] at hread

theorem int32_mirror {n : ℕ} (h : n < 2 ^ 31) :
    bufferTape.Mirror m (store env (encodeBE 4 n)) unpackInt32 n :=
  ⟨encodeBE 4 n, store_writes env m (encodeBE_ne_nil (by decide)), unpackInt32_reads m h⟩

theorem storeDataType_writes (t : DataType) : bufferTape.Writes m (storeDataType env t) [t] :=
  store_writes env m (List.cons_ne_nil _ _)

theorem getDataType_reads (t : DataType) : bufferTape.Reads m getDataType [t] t := by
  have h := (fetch_reads m [t]).bind (f := fun bs => pure (bs.headD 0)) (Tape.Reads.pure t)
  exact h

theorem bytes_mirror {bs : List UInt8} (hne : bs ≠ []) (hlt : bs.length < 2 ^ 31) :
    bufferTape.Mirror m (store env bs) (fetch (int32ToSize bs.length)) bs := by
  rw [int32ToSize_of_lt hlt]
  exact ⟨bs, store_writes env m hne, fetch_reads m bs⟩

/-- The strings that `opal_dss_pack_string` can write: no NUL before the end. -/
def Value.IsString : Value → Prop
  | .string none => True
  | .string (some chars) => 0 ∉ chars ∧ chars.length + 1 < 2 ^ 31
  | _ => False

def Value.IsObject : Value → Prop
  | .object bytes => bytes.length < 2 ^ 31
  | _ => False

theorem takeWhile_chars {chars : List UInt8} (h : 0 ∉ chars) :
    (chars ++ [0]).takeWhile (· ≠ 0) = chars := by
  rw [List.takeWhile_append_of_pos]
  · simp
  · intro c hc
    rw [decide_eq_true_iff]
    rintro rfl
    exact h hc

theorem string_mirror {v : Value} (h : v.IsString) (slot : Value) :
    bufferTape.Mirror m (packString env v) (unpackString slot) v := by
  cases v with
  | word | object | nullValue | undefValue | value => exact h.elim
  | string chars =>
    cases chars with
    | none =>
      have hlen := int32_mirror env m (n := 0) (by decide)
      apply hlen.andThen
      exact Tape.Reads.pure _
    | some chars =>
      obtain ⟨hnul, hlen⟩ := h
      have hbytes : (chars ++ [0]).length = chars.length + 1 := by simp
      have hstore := bytes_mirror env m (List.append_ne_nil_of_right_ne_nil chars
        (List.cons_ne_nil 0 []))
        (by rwa [hbytes])
      rw [hbytes] at hstore
      refine (int32_mirror env m hlen).bind ?_
      rw [if_neg (succ_ne_zero _)]
      have hmap := hstore.map fun bs => Value.string (some (bs.takeWhile (· ≠ 0)))
      rwa [takeWhile_chars hnul] at hmap

theorem object_mirror {v : Value} (h : v.IsObject) (slot : Value) :
    bufferTape.Mirror m (packByteObject env v) (unpackByteObject slot) v := by
  cases v with
  | word | string | nullValue | undefValue | value => exact h.elim
  | object bytes =>
    have hlen : bytes.length < 2 ^ 31 := h
    refine (int32_mirror env m hlen).bind ?_
    by_cases hzero : bytes = []
    · subst hzero
      exact Tape.Mirror.nil _
    · have hpos : 0 < bytes.length := List.length_pos_iff.2 hzero
      rw [if_pos hpos, if_pos ⟨hpos, hlen⟩]
      exact (bytes_mirror env m hzero hlen).map Value.object

end Plain

end Ulfm.Dss
