import Ulfm.Dss.Items

/-!
# The data storage service: runs over several buffers

Buffers are packed and unpacked, their payload is copied from one to another or
unloaded from one and loaded into another. Along every such run each buffer is a
queue of items: what is unpacked is what was packed, in order.
-/

namespace Ulfm.Dss

open List Function Buffer

variable (env : Env)

section Payload

/-- A size kept in an `int32_t`. -/
def int32Size (n : ℕ) : Except Status ℕ := if n < 2 ^ 31 then .ok n else .error .sizeOverflow

/-- `opal_dss_unload`: the payload and its size, and the buffer it leaves. -/
def unload (b : Buffer) : Except Status ((Option (List UInt8) × ℕ) × Buffer) :=
  if b.basePtr = none ∨ b.bytesUsed = 0 then
    .ok ((none, 0), b)
  else
    let b := bufferExtend env 1 b
    let payload := memcpy b.memory b.packPtr [b.type]
    match int32Size (b.bytesUsed + 1) with
    | .error e => .error e
    | .ok bytesUsed => .ok ((some payload, bytesUsed), Buffer.construct b.type)

/-- `opal_dss_load`: the type of the buffer is the last byte of the payload. -/
def load (payload : Option (List UInt8)) (bytesUsed : ℕ) (b : Buffer) : Buffer :=
  match payload with
  | none => b
  | some mem =>
    { type := mem.getD (bytesUsed - 1) 0, basePtr := some mem, packPtr := bytesUsed - 1,
      unpackPtr := 0, bytesAllocated := bytesUsed - 1, bytesUsed := bytesUsed - 1 }

/-- `opal_dss_copy_payload`: the destination afterwards. -/
def copyPayload (dest src : Buffer) : Except Status Buffer :=
  if dest.bytesUsed ≠ 0 ∧ dest.type ≠ src.type then
    .error .buffer
  else
    let dest := { dest with type := src.type }
    match int32Size (src.bytesUsed - src.unpackPtr) with
    | .error e => .error e
    | .ok bytesLeft =>
      if bytesLeft = 0 then
        .ok dest
      else
        match store env ((src.memory.drop src.unpackPtr).take bytesLeft) dest with
        | .ok _ dest => .ok dest
        | .error e _ => .error e

end Payload

section Runs

inductive Op
  | pack (i : ℕ) (item : Item)
  | unpack (i : ℕ) (type : DataType) (slots : List Value)
  | peek (i : ℕ)
  | copyPayload (dest src : ℕ)
  | reload (dest src : ℕ)

abbrev Buffers := ℕ → Buffer

/-- The buffers after a call that returns success; `reload` unloads one buffer
and loads the payload into another. -/
def Op.exec (m : Buffers) : Op → Except Status Buffers
  | .pack i item =>
    match Dss.pack env item.type item.values (m i) with
    | .ok _ b => .ok (update m i b)
    | .error e _ => .error e
  | .unpack i t slots =>
    match Dss.unpack env t slots (m i) with
    | .ok (.success, _) b => .ok (update m i b)
    | .ok (e, _) _ => .error e
    | .error e _ => .error e
  | .peek _ => .ok m
  | .copyPayload d s =>
    match Dss.copyPayload env (m d) (m s) with
    | .ok b => .ok (update m d b)
    | .error e => .error e
  | .reload d s =>
    match unload env (m s) with
    | .ok ((payload, bytesUsed), b) =>
      let m := update m s b
      .ok (update m d (load payload bytesUsed (m d)))
    | .error e => .error e

/-- What a buffer is for: a queue of items, with those already unpacked. -/
structure Queue where
  done : List Item
  todo : List Item

namespace Queue

def empty : Queue := ⟨[], []⟩

def push (q : Queue) (items : List Item) : Queue := ⟨q.done, q.todo ++ items⟩

def pop (q : Queue) : Queue := ⟨q.done ++ q.todo.take 1, q.todo.drop 1⟩

/-- Unloading gives the whole payload, what was unpacked included. -/
def rewind (q : Queue) : Queue := ⟨[], q.done ++ q.todo⟩

end Queue

abbrev Queues := ℕ → Queue

/-- The queues after a call. Nothing is unloaded from an empty buffer, and
nothing then loaded. -/
def Op.record (q : Queues) : Op → Queues
  | .pack i item => update q i ((q i).push [item])
  | .unpack i _ _ => update q i (q i).pop
  | .peek _ => q
  | .copyPayload d s => update q d ((q d).push (q s).todo)
  | .reload d s =>
    if (q s).done = [] ∧ (q s).todo = [] then q
    else update (update q s .empty) d (q s).rewind

variable (P : Item → Prop) (R : Value → Value → Prop)

/-- Only items of `P` are packed, and an item is unpacked with its own type and
count, to slots related to its values by `R`. -/
def Op.Proper (q : Queues) : Op → Prop
  | .pack _ item => P item
  | .unpack i t slots =>
    ∃ item rest, (q i).todo = item :: rest ∧ t = item.type ∧ List.Forall₂ R item.values slots
  | _ => True

/-- The states of a process that starts with empty buffers of any types. -/
inductive Reaches : Buffers → Queues → Prop
  | start (types : ℕ → UInt8) : Reaches (fun i => Buffer.construct (types i)) fun _ => Queue.empty
  | step {m m' : Buffers} {q : Queues} {op : Op} :
      Reaches m q → op.Proper P R q → op.exec env m = .ok m' → Reaches m' (op.record q)

/-- One item after the other, with success every time. -/
def unpackAll : List (DataType × List Value) → Action (List (List Value)) :=
  collect fun call => do
    let (status, vals) ← unpack env call.1 call.2
    if status ≠ .success then throw status
    return vals

/-- In every state of a run: items of `P` can be packed; the queue of a buffer
comes back item by item; a copy between buffers of one type appends what the
source has not unpacked; and peeking changes nothing and, in the buffer types of `D`, tells the type
and the count of the next item. -/
structure Faithful (D : UInt8 → Prop) : Prop where
  pack_ok : ∀ m q, Reaches env P R m q → ∀ i item, P item →
    ∃ b, pack env item.type item.values (m i) = .ok () b
  round_trip : ∀ m q, Reaches env P R m q → ∀ i dests,
    List.Forall₂ (fun item slots => List.Forall₂ R item.values slots) (q i).todo dests →
    ∃ b, unpackAll env (((q i).todo.map Item.type).zip dests) (m i)
      = .ok ((q i).todo.map Item.values) b
  copy_ok : ∀ m q, Reaches env P R m q → ∀ d s,
    (m d).bytesUsed = 0 ∨ (m d).type = (m s).type → (bufferTape.unread (m s)).length < 2 ^ 31 →
    ∃ b, copyPayload env (m d) (m s) = .ok b
  copy_appends : ∀ m q, Reaches env P R m q → ∀ d s b, copyPayload env (m d) (m s) = .ok b →
    bufferTape.written b = bufferTape.written (m d) ++ bufferTape.unread (m s) ∧
      b.unpackPtr = (m d).unpackPtr
  peek_next : ∀ m q, Reaches env P R m q → ∀ i,
    ((∃ a, peek (m i) = .ok a (m i)) ∨ ∃ e, peek (m i) = .error e (m i)) ∧
    ∀ item rest, (q i).todo = item :: rest → D (m i).type →
      peek (m i) = .ok (item.type, item.values.length) (m i)

end Runs

section Invariant

variable {env} {P : Item → Prop} {R : Value → Value → Prop}

variable (env) in
/-- The bytes of a buffer are those of the items of its queue. -/
structure Holds (b : Buffer) (q : Queue) : Prop where
  valid : b.Valid
  coded : ∃ done todo : List (List UInt8), bufferTape.written b = done.flatten ++ todo.flatten ∧
    b.unpackPtr = done.flatten.length ∧
    List.Forall₂ (Item.Coded env b.type) q.done done ∧
    List.Forall₂ (Item.Coded env b.type) q.todo todo

theorem holds_construct (type : UInt8) : Holds env (Buffer.construct type) .empty where
  valid := valid_construct type
  coded := ⟨[], [], rfl, rfl, .nil, .nil⟩

theorem unread_of_coded {b : Buffer} {done todo : List (List UInt8)}
    (hw : bufferTape.written b = done.flatten ++ todo.flatten)
    (hp : b.unpackPtr = done.flatten.length) : bufferTape.unread b = todo.flatten := by
  have hpos : bufferTape.position b = done.flatten.length := hp
  rw [Tape.unread, hpos, hw, drop_left]

theorem length_written {b : Buffer} (hb : b.Valid) :
    (bufferTape.written b).length = b.bytesUsed := by
  have hwritten : bufferTape.written b = b.memory.take b.bytesUsed := rfl
  have hused := hb.used_le
  have halloc := hb.allocated_le
  rw [hwritten, length_take]
  omega

theorem eq_nil_of_flatten {t : UInt8} {items : List Item} {bss : List (List UInt8)}
    (h : List.Forall₂ (Item.Coded env t) items bss) (hnil : bss.flatten = []) : items = [] := by
  cases h with
  | nil => rfl
  | cons hitem _ =>
    rw [flatten_cons, append_eq_nil_iff] at hnil
    exact absurd hnil.1 hitem.ne_nil

theorem Holds.empty_iff {b : Buffer} {q : Queue} (h : Holds env b q) :
    b.bytesUsed = 0 ↔ q.done = [] ∧ q.todo = [] := by
  obtain ⟨done, todo, hw, -, hdone, htodo⟩ := h.coded
  have hlen := length_written h.valid
  rw [hw, length_append] at hlen
  constructor
  · intro hzero
    exact ⟨eq_nil_of_flatten hdone (eq_nil_of_length_eq_zero (by omega)),
      eq_nil_of_flatten htodo (eq_nil_of_length_eq_zero (by omega))⟩
  · rintro ⟨hd, ht⟩
    rw [hd] at hdone
    rw [ht] at htodo
    cases hdone
    cases htodo
    simpa using hlen.symm

theorem Holds.push {b b' : Buffer} {q : Queue} {items : List Item} {bss : List (List UInt8)}
    (h : Holds env b q) (hext : bufferTape.Extends b b' bss.flatten)
    (hcoded : List.Forall₂ (Item.Coded env b.type) items bss) :
    Holds env b' (q.push items) := by
  obtain ⟨done, todo, hw, hp, hdone, htodo⟩ := h.coded
  have htype : b'.type = b.type := hext.mode
  refine ⟨hext.good, done, todo ++ bss, ?_, hext.position.trans hp, ?_, ?_⟩
  · rw [hext.written, hw, flatten_append, List.append_assoc]
  · rw [htype]
    exact hdone
  · rw [htype]
    exact rel_append htodo hcoded

theorem Holds.pack {b : Buffer} {q : Queue} {item : Item} (h : Holds env b q)
    (ht : item.Typed env) (hs : item.Sound) :
    ∃ b', pack env item.type item.values b = .ok () b' ∧ Holds env b' (q.push [item]) := by
  obtain ⟨bs, hbs⟩ := item_coded env b.type ht hs
  obtain ⟨b', hpack, hext⟩ := hbs.writes b h.valid rfl
  have hone : bufferTape.Extends b b' [bs].flatten := by rwa [flatten_singleton]
  exact ⟨b', hpack, h.push hone (.cons hbs .nil)⟩

theorem Holds.unpack {b : Buffer} {q : Queue} {item : Item} {rest : List Item}
    {slots : List Value} (h : Holds env b q) (hq : q.todo = item :: rest)
    (hr : List.Forall₂ Restores item.values slots) :
    ∃ b', unpack env item.type slots b = .ok (.success, item.values) b' ∧ Holds env b' q.pop := by
  obtain ⟨done, todo, hw, hp, hdone, htodo⟩ := h.coded
  have hu := unread_of_coded hw hp
  rw [hq] at htodo
  cases htodo with
  | @cons _ bs _ bss hitem hrest =>
    have hread := hitem.reads slots hr b bss.flatten h.valid rfl hu
    refine ⟨_, hread, Tape.good_of_unread h.valid hu, done ++ [bs], bss, ?_, ?_, ?_, ?_⟩
    · rw [bufferTape.written_advance, hw]
      simp
    · change b.unpackPtr + bs.length = _
      rw [hp]
      simp
    · rw [Queue.pop, hq]
      exact rel_append hdone (.cons hitem .nil)
    · rw [Queue.pop, hq]
      exact hrest

theorem unread_eq (b : Buffer) :
    (b.memory.drop b.unpackPtr).take (b.bytesUsed - b.unpackPtr) = bufferTape.unread b := by
  have hunread : bufferTape.unread b = (b.memory.take b.bytesUsed).drop b.unpackPtr := rfl
  rw [hunread, drop_take]

theorem length_unread {b : Buffer} (hb : b.Valid) :
    (bufferTape.unread b).length = b.bytesUsed - b.unpackPtr := by
  have hpos : bufferTape.position b = b.unpackPtr := rfl
  rw [Tape.unread, length_drop, length_written hb, hpos]

theorem copyPayload_eq {d s : Buffer} (hd : d.Valid) (hs : s.Valid)
    (htype : d.bytesUsed = 0 ∨ d.type = s.type) (hlt : (bufferTape.unread s).length < 2 ^ 31) :
    ∃ b, copyPayload env d s = .ok b ∧
      bufferTape.Extends { d with type := s.type } b (bufferTape.unread s) := by
  have hv : bufferTape.Good { d with type := s.type } :=
    ⟨hd.packPtr_eq, hd.unpackPtr_le, hd.used_le, hd.allocated_le⟩
  rw [length_unread hs] at hlt
  unfold copyPayload
  rw [if_neg (by tauto), int32Size, if_pos hlt]
  dsimp only
  split
  · next hzero =>
      have hnil : bufferTape.unread s = [] :=
        eq_nil_of_length_eq_zero ((length_unread hs).trans hzero)
      rw [hnil]
      exact ⟨_, rfl, Tape.Extends.refl hv⟩
  · next hpos =>
      have hne : bufferTape.unread s ≠ [] := by
        rw [← length_pos_iff, length_unread hs]
        omega
      obtain ⟨b, hstore, hext⟩ := store_writes env s.type hne _ hv rfl
      rw [unread_eq s, hstore]
      exact ⟨b, rfl, hext⟩

theorem copyPayload_ok {d s b : Buffer} (hs : s.Valid) (h : copyPayload env d s = .ok b) :
    (d.bytesUsed = 0 ∨ d.type = s.type) ∧ (bufferTape.unread s).length < 2 ^ 31 := by
  rw [length_unread hs]
  unfold copyPayload at h
  split at h
  · cases h
  · next htype =>
      refine ⟨by tauto, ?_⟩
      by_contra hlt
      rw [int32Size, if_neg hlt] at h
      cases h

theorem Holds.retype {d : Buffer} {q : Queue} {t : UInt8} (h : Holds env d q)
    (ht : d.bytesUsed = 0 ∨ d.type = t) : Holds env { d with type := t } q := by
  rcases ht with hzero | rfl
  · obtain ⟨hdone, htodo⟩ := h.empty_iff.1 hzero
    have hv := h.valid
    refine ⟨⟨hv.packPtr_eq, hv.unpackPtr_le, hv.used_le, hv.allocated_le⟩, [], [], ?_, ?_, ?_, ?_⟩
    · change d.memory.take d.bytesUsed = []
      rw [hzero, take_zero]
    · have hle := hv.unpackPtr_le
      change d.unpackPtr = 0
      omega
    · rw [hdone]
      exact .nil
    · rw [htodo]
      exact .nil
  · exact h

theorem Holds.copyPayload {d s b : Buffer} {qd qs : Queue} (hd : Holds env d qd)
    (hs : Holds env s qs) (h : copyPayload env d s = .ok b) :
    Holds env b (qd.push qs.todo) := by
  obtain ⟨htype, hlt⟩ := copyPayload_ok hs.valid h
  obtain ⟨b', hcopy, hext⟩ := copyPayload_eq hd.valid hs.valid htype hlt
  rw [h] at hcopy
  cases hcopy
  obtain ⟨done, todo, hw, hp, -, htodo⟩ := hs.coded
  rw [unread_of_coded hw hp] at hext
  exact (hd.retype htype).push hext htodo

theorem getD_memcpy {mem : List UInt8} {dst : ℕ} (x : UInt8) (h : dst ≤ mem.length) :
    (memcpy mem dst [x]).getD dst 0 = x := by
  have hlen : (mem.take dst).length = dst := by rw [length_take, Nat.min_eq_left h]
  rw [memcpy, List.append_assoc, getD_eq_getElem?_getD,
    getElem?_append_right hlen.le, hlen, Nat.sub_self]
  rfl

theorem take_memcpy_self {mem bs : List UInt8} {dst : ℕ} (h : dst ≤ mem.length) :
    (memcpy mem dst bs).take dst = mem.take dst := by
  have hlen : (mem.take dst).length = dst := by rw [length_take, Nat.min_eq_left h]
  rw [memcpy, List.append_assoc, take_left' hlen]

theorem Holds.reload {s b : Buffer} {q : Queue} {payload : Option (List UInt8)} {n : ℕ}
    (h : Holds env s q) (hne : s.bytesUsed ≠ 0) (hun : unload env s = .ok ((payload, n), b)) :
    b = Buffer.construct s.type ∧ ∀ d, Holds env (load payload n d) q.rewind := by
  have hv := h.valid
  have hbase : s.basePtr ≠ none := by
    intro hnone
    have hmem : s.memory.length = 0 := by simp [memory, hnone]
    have hused := hv.used_le
    have halloc := hv.allocated_le
    omega
  obtain ⟨hext, hroom, hused, -⟩ := bufferExtend_spec env hv 1
  have htype : (bufferExtend env 1 s).type = s.type := hext.mode
  have hgood := hext.good
  unfold unload at hun
  rw [if_neg (by tauto)] at hun
  dsimp only at hun
  generalize hb' : bufferExtend env 1 s = b' at hun hext hroom hused htype hgood
  have hpack := hgood.packPtr_eq
  have halloc := hgood.allocated_le
  unfold int32Size at hun
  split at hun
  · cases hun
  · next hsize =>
      split at hsize
      · cases hsize
        cases hun
        have hfits : b'.packPtr + 1 ≤ b'.memory.length := by omega
        have hold : b'.memory.take b'.bytesUsed = bufferTape.written s := by
          have hwritten := hext.written
          rwa [List.append_nil] at hwritten
        refine ⟨by rw [htype], fun d => ?_⟩
        have hload : load (some (memcpy b'.memory b'.packPtr [b'.type])) (b'.bytesUsed + 1) d
            = { type := s.type, basePtr := some (memcpy b'.memory b'.packPtr [b'.type]),
                packPtr := b'.bytesUsed, unpackPtr := 0, bytesAllocated := b'.bytesUsed,
                bytesUsed := b'.bytesUsed } := by
          rw [load, Nat.add_sub_cancel, ← hpack, getD_memcpy _ (by omega), htype]
        rw [hload]
        obtain ⟨done, todo, hw, hp, hdone, htodo⟩ := h.coded
        refine ⟨⟨rfl, Nat.zero_le _, Nat.le_refl _, ?_⟩, [], done ++ todo, ?_, rfl, .nil,
          rel_append hdone htodo⟩
        · change b'.bytesUsed ≤ (memcpy b'.memory b'.packPtr [b'.type]).length
          rw [length_memcpy (by simpa using hfits)]
          omega
        · change (memcpy b'.memory b'.packPtr [b'.type]).take b'.bytesUsed = _
          rw [← hpack, take_memcpy_self (by omega), hpack, hold, hw, flatten_append]
          rfl
      · cases hsize

theorem holds_update {m : Buffers} {q : Queues} {j : ℕ} {b : Buffer} {p : Queue}
    (h : ∀ i, Holds env (m i) (q i)) (hb : Holds env b p) (i : ℕ) :
    Holds env (update m j b i) (update q j p i) := by
  by_cases hi : i = j
  · subst hi
    rwa [update_self, update_self]
  · rw [update_of_ne hi, update_of_ne hi]
    exact h i

theorem Reaches.holds {m : Buffers} {q : Queues}
    (h : Reaches env (fun item => item.Typed env ∧ item.Sound) Restores m q) :
    ∀ i, Holds env (m i) (q i) := by
  induction h with
  | start types => exact fun i => holds_construct (types i)
  | @step m m' q op _ hproper hexec ih =>
    intro i
    cases op with
    | pack j item =>
      obtain ⟨b, hpack, hb⟩ := (ih j).pack hproper.1 hproper.2
      simp only [Op.exec, hpack] at hexec
      cases hexec
      exact holds_update ih hb i
    | unpack j t slots =>
      obtain ⟨item, rest, hq, rfl, hr⟩ := hproper
      obtain ⟨b, hun, hb⟩ := (ih j).unpack hq hr
      simp only [Op.exec, hun] at hexec
      cases hexec
      exact holds_update ih hb i
    | peek j =>
      cases hexec
      exact ih i
    | copyPayload d s =>
      simp only [Op.exec] at hexec
      split at hexec
      · next b hcopy =>
          cases hexec
          exact holds_update ih ((ih d).copyPayload (ih s) hcopy) i
      · cases hexec
    | reload d s =>
      simp only [Op.exec] at hexec
      split at hexec
      · next payload n b hun =>
          cases hexec
          by_cases hzero : (m s).bytesUsed = 0
          · have hempty : unload env (m s) = .ok ((none, 0), m s) := by
              rw [unload, if_pos (.inr hzero)]
            rw [hempty] at hun
            cases hun
            rw [Op.record, if_pos ((ih s).empty_iff.1 hzero), load, update_eq_self, update_eq_self]
            exact ih i
          · obtain ⟨rfl, hload⟩ := (ih s).reload hzero hun
            rw [Op.record, if_neg (mt (ih s).empty_iff.2 hzero)]
            exact holds_update (fun k => holds_update ih (holds_construct _) k) (hload _) i
      · cases hexec

theorem Holds.unpackAll {b : Buffer} {q : Queue} {dests : List (List Value)} (h : Holds env b q)
    (hd : List.Forall₂ (fun item slots => List.Forall₂ Restores item.values slots) q.todo dests) :
    ∃ b', unpackAll env ((q.todo.map Item.type).zip dests) b = .ok (q.todo.map Item.values) b' := by
  obtain ⟨done, todo⟩ := q
  dsimp only at hd
  induction hd generalizing b done with
  | nil => exact ⟨b, rfl⟩
  | @cons item slots todo dests hr _ ih =>
    obtain ⟨b₁, hun, hb₁⟩ := h.unpack rfl hr
    obtain ⟨b₂, hall⟩ := ih (done ++ [item]) hb₁
    refine ⟨b₂, ?_⟩
    have hcall : (do
        let (status, vals) ← Dss.unpack env item.type slots
        if status ≠ .success then throw status
        return vals : Action (List Value)) b = .ok item.values b₁ := by
      rw [bind_of_ok hun]
      rfl
    rw [Dss.unpackAll] at hall ⊢
    rw [map_cons, zip_cons_cons, collect, bind_of_ok hcall, bind_of_ok hall]
    rfl

end Invariant

/-- Along every run whose items have something to unpack and no `NULL` inside a
data value, the buffers are the queues they are meant to be. -/
theorem dss_round_trip :
    Faithful env (fun item => item.Typed env ∧ item.Sound) Restores (· = bufferFullyDesc) where
  pack_ok m q h i item hitem := by
    obtain ⟨b, hpack, -⟩ := (h.holds i).pack hitem.1 hitem.2
    exact ⟨b, hpack⟩
  round_trip m q h i dests hd := (h.holds i).unpackAll hd
  copy_ok m q h d s htype hlt := by
    obtain ⟨b, hcopy, -⟩ := copyPayload_eq (h.holds d).valid (h.holds s).valid htype hlt
    exact ⟨b, hcopy⟩
  copy_appends m q h d s b hcopy := by
    obtain ⟨htype, hlt⟩ := copyPayload_ok (h.holds s).valid hcopy
    obtain ⟨b', hb', hext⟩ := copyPayload_eq (h.holds d).valid (h.holds s).valid htype hlt
    rw [hcopy] at hb'
    cases hb'
    exact ⟨hext.written, hext.position⟩
  peek_next m q h i := by
    refine ⟨peek_state (m i), fun item rest hq hdesc => ?_⟩
    obtain ⟨done, todo, hw, hp, -, htodo⟩ := (h.holds i).coded
    have hu := unread_of_coded hw hp
    rw [hq] at htodo
    cases htodo with
    | cons hitem _ => exact peek_eq env (h.holds i).valid hdesc hitem hu

/-- A build for a 64-bit machine, with the default parameters. -/
def env64 : Env where
  sizeofBool := .one
  sizeofInt := .four
  sizeofSize := .eight
  sizeofPid := .four
  initialSize := 128
  thresholdSize := 1024
  initial_pos := by decide
  threshold_pos := by decide
  fill := 0
  junk := .undefValue

/-- An item of no values is packed, and cannot be unpacked with its count. -/
theorem not_faithful_zero_count :
    ¬Faithful env64 (Item.Typed env64) (fun _ _ => True) fun _ => True := by
  intro h
  have hitem : Item.Typed env64 ⟨.int32, []⟩ := ⟨⟨.int32, by decide, by simp⟩, by decide⟩
  obtain ⟨b, hpack⟩ : ∃ b, pack env64 .int32 [] (construct 0) = .ok () b := ⟨_, rfl⟩
  have hexec : (Op.pack 0 ⟨.int32, []⟩).exec env64 (fun _ => construct 0)
      = .ok (update (fun _ => construct 0) 0 b) := by
    simp only [Op.exec, hpack]
  have hproper : (Op.pack 0 ⟨.int32, []⟩).Proper (Item.Typed env64) (fun _ _ => True)
      (fun _ => Queue.empty) := hitem
  have hreach := Reaches.step (.start fun _ => 0) hproper hexec
  obtain ⟨b', hun⟩ := h.round_trip _ _ hreach 0 [[]] (.cons .nil .nil)
  cases hun

end Ulfm.Dss
