import Ulfm.Era.Framing.RoundTrip

/-!
# Fragments in any order

The receiver keeps one buffer for each sender and sequence number. Fragments of
several messages may come in any order; what is dispatched is each message once,
exactly when the lengths are kept and no two fragmented messages share a buffer.
-/

namespace Ulfm

open List Function Option EraFrag Sent

variable {dtSize : BitVec 32 → BitVec 64}

/-! ### One fragment -/

section Fragment

variable {table : IncompleteTable} {key : BitVec 64 × BitVec 64} {f : EraFrag}
  {src : ProcName} {seqnum : BitVec 64} {wire : List UInt8} {rest rest' : List (Piece UInt8)}

theorem eraCbFn_whole (hlen : f.msgLen = f.fragLen) (hoff : f.fragOffset = 0) :
    eraCbFn dtSize table f = (dispatchMsg dtSize f.bytes).map (table, ·) := by
  rw [eraCbFn, if_pos hlen, if_pos hoff]

/-- The buffer under `key` has received all of `wire` but the pieces of `rest`. -/
def Holds (table : IncompleteTable) (key : BitVec 64 × BitVec 64) (wire : List UInt8)
    (rest : List (Piece UInt8)) : Prop :=
  Received wire rest (pendingMsg table key wire.length).bytes
    (pendingMsg table key wire.length).bytesReceived

theorem holds_of_none (hnone : table key = none) (h : Consecutive wire 0 rest) :
    Holds table key wire rest := by
  simp only [Holds, pendingMsg, hnone, getD_none]
  exact Received.start h

theorem Holds.update_of_ne {key' : BitVec 64 × BitVec 64} {x : Option IncompleteMsg}
    (h : Holds table key wire rest) (hne : key ≠ key') :
    Holds (update table key' x) key wire rest := by
  simpa only [Holds, pendingMsg, Function.update_of_ne hne] using h

theorem Holds.write (hlen : wire.length < 2 ^ 32) (hf : f.Of src seqnum wire.length)
    (hpiece : f.piece.Of wire) (h : Holds table f.key wire rest)
    (hperm : rest.Perm (f.piece :: rest')) :
    ∃ msg : IncompleteMsg,
      writePiece (pendingMsg table f.key wire.length).bytes f.piece = some msg.bytes ∧
      ((pendingMsg table f.key wire.length).bytesReceived + f.fragLen) % 2 ^ 32 =
        msg.bytesReceived ∧
      Received wire rest' msg.bytes msg.bytesReceived := by
  obtain ⟨bytes, hwrite, hrec⟩ := Received.write h hpiece hperm
  rw [hf.piece_length] at hrec
  have hcount := hrec.count
  exact ⟨⟨_, bytes⟩, hwrite, Nat.mod_eq_of_lt (by omega), hrec⟩

theorem eraCbFn_more (dtSize : BitVec 32 → BitVec 64) (hlen : wire.length < 2 ^ 32)
    (hf : f.Of src seqnum wire.length)
    (hsplit : f.fragLen ≠ wire.length) (hpiece : f.piece.Of wire)
    (h : Holds table f.key wire rest) (hperm : rest.Perm (f.piece :: rest'))
    {p : Piece UInt8} (hp : p ∈ rest') (hpof : p.Of wire) :
    ∃ msg, eraCbFn dtSize table f = some (update table f.key (some msg), []) ∧
      Holds (update table f.key (some msg)) f.key wire rest' := by
  obtain ⟨msg, hwrite, hcount, hrec⟩ := h.write hlen hf hpiece hperm
  have hne : ¬ f.msgLen = f.fragLen := by rw [hf.msgLen]; exact hsplit.symm
  have hlt : ¬ msg.bytesReceived = wire.length := (hrec.count_lt hp hpof).ne
  refine ⟨msg, ?_, ?_⟩
  · rw [eraCbFn, if_neg hne]
    simp only [hf.msgLen, hwrite, hcount, if_neg hlt]
  · simpa only [Holds, pendingMsg, update_self, getD_some] using hrec

theorem eraCbFn_last (hlen : wire.length < 2 ^ 32) (hf : f.Of src seqnum wire.length)
    (hsplit : f.fragLen ≠ wire.length) (hpiece : f.piece.Of wire)
    (h : Holds table f.key wire rest) (hperm : rest.Perm [f.piece]) :
    eraCbFn dtSize table f = (dispatchMsg dtSize wire).map (update table f.key none, ·) := by
  obtain ⟨msg, hwrite, hcount, hrec⟩ := h.write hlen hf hpiece hperm
  have hne : ¬ f.msgLen = f.fragLen := by rw [hf.msgLen]; exact hsplit.symm
  have hread : readBuffer msg.bytes wire.length = some wire := by
    rw [hrec.eq_map, readBuffer_map_some]
  rw [eraCbFn, if_neg hne]
  simp only [hf.msgLen, hwrite, hcount, hrec.count_eq, if_true, hread]

end Fragment

/-! ### Sequences of fragments -/

theorem receive_append (table : IncompleteTable) (fs gs : List EraFrag) :
    receive dtSize table (fs ++ gs) = (receive dtSize table fs).bind fun (table, out) =>
        (receive dtSize table gs).map fun (table, out') => (table, out ++ out') := by
  induction fs generalizing table with
  | nil => simp [receive]
  | cons f fs ih =>
    simp only [cons_append, receive]
    cases eraCbFn dtSize table f with
    | none => rfl
    | some r =>
      simp only [ih]
      cases receive dtSize r.1 fs with
      | none => rfl
      | some r' => simp [comp_def, List.append_assoc]

/-- A message of which fragments are still to come. -/
structure Flight where
  src : ProcName
  seqnum : BitVec 64
  wire : List UInt8
  rest : List EraFrag
  out : Incoming

namespace Flight

def key (e : Flight) : BitVec 64 × BitVec 64 := (orteUtilHashName e.src, e.seqnum)

/-- The message comes in several fragments. -/
def Split (e : Flight) : Prop := ∀ f ∈ e.rest, f.fragLen ≠ e.wire.length

def Whole (e : Flight) : Prop :=
  ∃ f, e.rest = [f] ∧ f.fragLen = e.wire.length ∧ f.fragOffset = 0 ∧ f.bytes = e.wire

/-- The receiver is ready for the fragments to come. -/
structure Ok (dtSize : BitVec 32 → BitVec 64) (table : IncompleteTable) (e : Flight) : Prop where
  nonempty : e.rest ≠ []
  dispatch : dispatchMsg dtSize e.wire = some [e.out]
  bound : e.wire.length < 2 ^ 32
  of : ∀ f ∈ e.rest, f.Of e.src e.seqnum e.wire.length
  pieces : ∀ f ∈ e.rest, f.piece.Of e.wire
  state : e.Whole ∨ e.Split ∧ Holds table e.key e.wire (e.rest.map EraFrag.piece)

def Apart (e e' : Flight) : Prop := e.Split → e'.Split → e.key ≠ e'.key

variable {table : IncompleteTable} {e : Flight} {f : EraFrag}

theorem Ok.key_eq (h : e.Ok dtSize table) (hf : f ∈ e.rest) : f.key = e.key := by
  rw [EraFrag.key, key, (h.of f hf).src, (h.of f hf).seqnum]

theorem Ok.update (h : e.Ok dtSize table) {k : BitVec 64 × BitVec 64} {x : Option IncompleteMsg}
    (hk : e.Split → e.key ≠ k) : e.Ok dtSize (update table k x) := by
  refine ⟨h.nonempty, h.dispatch, h.bound, h.of, h.pieces, ?_⟩
  obtain hw | ⟨hs, hh⟩ := h.state
  · exact .inl hw
  · exact .inr ⟨hs, hh.update_of_ne (hk hs)⟩

theorem Ok.forall_update {todo : List Flight} (h : ∀ e' ∈ todo, e'.Ok dtSize table)
    (hs : e.Split) (ha : ∀ e' ∈ todo, e.Apart e') {x : Option IncompleteMsg} :
    ∀ e' ∈ todo, e'.Ok dtSize (Function.update table e.key x) :=
  fun e' he' => (h e' he').update fun hs' => (ha e' he' hs hs').symm

theorem Ok.step {todo : List Flight} (h : e.Ok dtSize table)
    (htodo : ∀ e' ∈ todo, e'.Ok dtSize table) (ha : ∀ e' ∈ todo, e.Apart e')
    {rest' : List EraFrag} (hperm : e.rest.Perm (f :: rest')) :
    (rest' = [] ∧ ∃ table', eraCbFn dtSize table f = some (table', [e.out]) ∧
      ∀ e' ∈ todo, e'.Ok dtSize table') ∨
    (e.Split ∧ ∃ table', eraCbFn dtSize table f = some (table', []) ∧
      ({ e with rest := rest' } : Flight).Ok dtSize table' ∧
      ∀ e' ∈ todo, e'.Ok dtSize table') := by
  have hf : f ∈ e.rest := hperm.mem_iff.2 (by simp)
  have hsub : ∀ g ∈ rest', g ∈ e.rest := fun g hg => hperm.mem_iff.2 (by simp [hg])
  have hkey := h.key_eq hf
  have hof := h.of f hf
  obtain ⟨g, hg, hlen, hoff, hbytes⟩ | ⟨hs, hh⟩ := h.state
  · have hnil : [g].Perm (f :: rest') := hg ▸ hperm
    obtain ⟨rfl, rfl⟩ : g = f ∧ rest' = [] := by simpa using hnil
    refine .inl ⟨rfl, table, ?_, htodo⟩
    rw [eraCbFn_whole (hof.msgLen.trans hlen.symm) hoff, hbytes, h.dispatch]
    rfl
  · have hpieces : (e.rest.map EraFrag.piece).Perm (f.piece :: rest'.map EraFrag.piece) := by
      simpa using hperm.map EraFrag.piece
    rw [← hkey] at hh
    cases rest' with
    | nil =>
      refine .inl ⟨rfl, Function.update table f.key none, ?_, ?_⟩
      · rw [eraCbFn_last h.bound hof (hs f hf) (h.pieces f hf) hh hpieces, h.dispatch]
        rfl
      · rw [hkey]
        exact Ok.forall_update htodo hs ha
    | cons g rest' =>
      have hg : g ∈ e.rest := hsub g (by simp)
      obtain ⟨msg, hcb, hh'⟩ := eraCbFn_more dtSize h.bound hof (hs f hf)
        (h.pieces f hf) hh hpieces (by simp) (h.pieces g hg)
      refine .inr ⟨hs, _, hcb, ?_, ?_⟩
      · rw [hkey] at hh' ⊢
        exact ⟨by simp, h.dispatch, h.bound, fun q hq => h.of q (hsub q hq),
          fun q hq => h.pieces q (hsub q hq),
          .inr ⟨fun q hq => hs q (hsub q hq), hh'⟩⟩
      · rw [hkey]
        exact Ok.forall_update htodo hs ha

theorem apart_symm : Std.Symm Apart := ⟨fun _ _ h hs hs' => (h hs' hs).symm⟩

theorem receive_perm {todo : List Flight} {fs : List EraFrag}
    (hok : ∀ e ∈ todo, e.Ok dtSize table) (ha : todo.Pairwise Apart)
    (hperm : fs.Perm (todo.flatMap Flight.rest)) :
    ∃ table' out, receive dtSize table fs = some (table', out) ∧
      out.Perm (todo.map Flight.out) := by
  induction fs generalizing todo table with
  | nil =>
    have hnil : todo = [] := by
      refine eq_nil_iff_forall_not_mem.2 fun e he => (hok e he).nonempty ?_
      exact flatMap_eq_nil_iff.1 (nil_perm.1 hperm) e he
    subst hnil
    exact ⟨table, [], rfl, List.Perm.refl _⟩
  | cons f fs ih =>
    -- the message of the fragment, and the fragment in the message, come first
    have hf : f ∈ todo.flatMap Flight.rest := hperm.mem_iff.1 (by simp)
    obtain ⟨e, he, hfe⟩ := mem_flatMap.1 hf
    obtain ⟨todo', htodo⟩ : ∃ todo', todo.Perm (e :: todo') := by
      obtain ⟨l, r, rfl⟩ := append_of_mem he
      exact ⟨l ++ r, perm_middle⟩
    obtain ⟨rest', hrest⟩ : ∃ rest', e.rest.Perm (f :: rest') := by
      obtain ⟨l, r, hlr⟩ := append_of_mem hfe
      exact ⟨l ++ r, hlr ▸ perm_middle⟩
    have hfs : fs.Perm (rest' ++ todo'.flatMap Flight.rest) := by
      have hall : (f :: fs).Perm (f :: (rest' ++ todo'.flatMap Flight.rest)) :=
        calc
          (f :: fs).Perm (todo.flatMap Flight.rest) := hperm
          _ |>.Perm ((e :: todo').flatMap Flight.rest) := htodo.flatMap_right _
          _ |>.Perm (f :: rest' ++ todo'.flatMap Flight.rest) := hrest.append_right _
      exact hall.cons_inv
    have hpair := (List.Perm.pairwise_iff (fun h => apart_symm.symm _ _ h) htodo).1 ha
    obtain ⟨hae, ha'⟩ := pairwise_cons.1 hpair
    have hok' : ∀ e' ∈ todo', e'.Ok dtSize table :=
      fun e' he' => hok e' (htodo.mem_iff.2 (by simp [he']))
    have hout : (todo.map Flight.out).Perm (e.out :: todo'.map Flight.out) := by
      simpa using htodo.map Flight.out
    obtain ⟨rfl, table', hcb, hnext⟩ | ⟨hs, table', hcb, hnext, hnext'⟩ :=
      (hok e he).step hok' hae hrest
    · obtain ⟨t, out, hrec, hp⟩ := ih hnext ha' hfs
      refine ⟨t, e.out :: out, ?_, (hp.cons e.out).trans hout.symm⟩
      simp [receive, hcb, hrec]
    · have hflat : fs.Perm
          ((({ e with rest := rest' } : Flight) :: todo').flatMap Flight.rest) := hfs
      obtain ⟨t, out, hrec, hp⟩ := ih (forall_mem_cons.2 ⟨hnext, hnext'⟩)
        (pairwise_cons.2 ⟨fun e' he' _ hs' => hae e' he' hs hs', ha'⟩) hflat
      refine ⟨t, out, ?_, hp.trans hout.symm⟩
      simp [receive, hcb, hrec]

end Flight

/-! ### Several messages -/

def noMessages : IncompleteTable := fun _ => none

/-- The fragments of a message; the sender never gets stuck. -/
def Sent.fragList (s : Sent dtSize) : List EraFrag := s.frags.getD []

/-- Every message is sent, and whatever the order of the fragments, the receiver
dispatches each message once, as it was sent. -/
def Delivers (dtSize : BitVec 32 → BitVec 64) (msgs : List (Sent dtSize)) : Prop :=
  (∀ s ∈ msgs, s.frags.isSome) ∧ ∀ fs : List EraFrag, fs.Perm (msgs.flatMap Sent.fragList) →
      ∃ table out, receive dtSize noMessages fs = some (table, out) ∧
        out.Perm (msgs.map fun s => s.msg.incoming)

/-- Two fragmented messages of one sender carry the same sequence number. -/
def Sent.Collides (s t : Sent dtSize) : Prop :=
  s.Fragmented ∧ t.Fragmented ∧ s.msg.src = t.msg.src ∧ s.msgSeqnum = t.msgSeqnum

namespace Sent

variable (s : Sent dtSize)

theorem framed_fragList : s.Framed s.fragList := by
  obtain ⟨fs, hfs, hframed⟩ := s.exists_frags
  rwa [fragList, hfs]

theorem frags_isSome : s.frags.isSome := by
  obtain ⟨fs, hfs, -⟩ := s.exists_frags
  rw [hfs]
  rfl

variable {s}

theorem toSend_eq (h : s.msg.msgSize < 2 ^ 32) : s.toSend = s.msg.msgSize := Nat.mod_eq_of_lt h

theorem msgSize_pos : 0 < s.msg.msgSize := by
  simp only [Outgoing.msgSize, sizeofMsgHeader]
  omega

theorem wire_eq (h : s.msg.msgSize < 2 ^ 32) : s.wire = s.msg.wire := by
  rw [wire, toSend_eq h, ← s.msg.length_wire, take_length]

variable (s)

def flight : Flight where
  src := s.msg.src
  seqnum := s.msgSeqnum
  wire := s.wire
  rest := s.fragList
  out := s.msg.incoming

variable {s}

theorem flight_ok (h : s.msg.msgSize < 2 ^ 32) : s.flight.Ok dtSize noMessages := by
  have hf := s.framed_fragList
  have hpos : 0 < s.toSend := by rw [toSend_eq h]; exact msgSize_pos
  have hlen := s.length_wire
  constructor
  · intro hnil
    have hzero : 0 = s.wire.length := by
      have hp := hf.pieces
      rwa [show s.fragList = [] from hnil] at hp
    omega
  · change dispatchMsg dtSize s.wire = some [s.msg.incoming]
    rw [wire_eq h, dispatchMsg_wire]
  · exact hlen ▸ s.toSend_lt
  · intro f hfm
    have hof := hf.of f hfm
    rwa [← hlen] at hof
  · exact fun f hfm => hf.pieces.of_mem (List.mem_map_of_mem hfm)
  · by_cases hfrag : s.Fragmented
    · refine .inr ⟨fun f hfm => ?_, holds_of_none rfl hf.pieces⟩
      have hlt := hf.split hfrag f hfm
      rw [← hlen] at hlt
      exact hlt.ne
    · obtain ⟨f, hfs, hfl, hoff, hbytes⟩ := hf.whole hpos hfrag
      exact .inl ⟨f, hfs, hfl.trans hlen.symm, hoff, hbytes⟩

theorem fragmented_of_split (h : s.msg.msgSize < 2 ^ 32) (hs : s.flight.Split) : s.Fragmented := by
  by_contra hfrag
  have hpos : 0 < s.toSend := by rw [toSend_eq h]; exact msgSize_pos
  obtain ⟨f, hfs, hfl, -⟩ := s.framed_fragList.whole hpos hfrag
  have hmem : f ∈ s.flight.rest := by
    change f ∈ s.fragList
    simp [hfs]
  exact hs f hmem (hfl.trans s.length_wire.symm)

end Sent

variable {msgs : List (Sent dtSize)}

theorem flatMap_flight (msgs : List (Sent dtSize)) :
    (msgs.map Sent.flight).flatMap Flight.rest = msgs.flatMap Sent.fragList := by
  rw [flatMap_map]
  rfl

theorem delivers_of_short (hshort : ∀ s ∈ msgs, s.msg.msgSize < 2 ^ 32)
    (happart : msgs.Pairwise fun s t => ¬ s.Collides t) : Delivers dtSize msgs := by
  refine ⟨fun s _ => s.frags_isSome, fun fs hfs => ?_⟩
  rw [← flatMap_flight] at hfs
  have hok : ∀ e ∈ msgs.map flight, e.Ok dtSize noMessages := by
    intro e he
    obtain ⟨s, hs, rfl⟩ := List.mem_map.1 he
    exact flight_ok (hshort s hs)
  have ha : (msgs.map flight).Pairwise Flight.Apart := by
    rw [pairwise_map]
    refine happart.imp_of_mem fun {s t} hs ht hst hsplit hsplit' hkey => hst ?_
    obtain ⟨hhash, hseq⟩ := Prod.mk.injEq _ _ _ _ ▸ hkey
    exact ⟨fragmented_of_split (hshort s hs) hsplit,
      fragmented_of_split (hshort t ht) hsplit', orteUtilHashName_injective hhash, hseq⟩
  obtain ⟨table, out, hrec, hp⟩ := Flight.receive_perm hok ha hfs
  refine ⟨table, out, hrec, ?_⟩
  rwa [List.map_map] at hp

/-! ### One message after the other -/

theorem receive_rest {src : ProcName} {seqnum : BitVec 64} {wire : List UInt8}
    {table : IncompleteTable} {fs : List EraFrag} (hlen : wire.length < 2 ^ 32)
    (hof : ∀ f ∈ fs, f.Of src seqnum wire.length) (hsplit : ∀ f ∈ fs, f.fragLen ≠ wire.length)
    (hpieces : ∀ f ∈ fs, f.piece.Of wire) (hne : fs ≠ [])
    (h : Holds table (orteUtilHashName src, seqnum) wire (fs.map EraFrag.piece)) :
    receive dtSize table fs = (dispatchMsg dtSize wire).map
      (update table (orteUtilHashName src, seqnum) none, ·) := by
  induction fs generalizing table with
  | nil => exact absurd rfl hne
  | cons f fs ih =>
    have hf := hof f (by simp)
    have hkey : f.key = (orteUtilHashName src, seqnum) := by
      rw [key, hf.src, hf.seqnum]
    rw [← hkey] at h ih ⊢
    cases fs with
    | nil =>
      rw [receive, eraCbFn_last hlen hf (hsplit f (by simp)) (hpieces f (by simp)) h
        (List.Perm.refl _)]
      cases dispatchMsg dtSize wire with
      | none => rfl
      | some out => simp [receive]
    | cons g fs =>
      obtain ⟨msg, hcb, hh⟩ := eraCbFn_more dtSize hlen hf (hsplit f (by simp))
        (hpieces f (by simp)) h (List.Perm.refl _) (by simp) (hpieces g (by simp))
      have hrec := ih (fun q hq => hof q (by simp_all)) (fun q hq => hsplit q (by simp_all))
        (fun q hq => hpieces q (by simp_all)) (by simp) hh
      rw [receive, hcb]
      simp only [hrec, update_idem, nil_append]
      cases dispatchMsg dtSize wire with
      | none => rfl
      | some out => rfl

theorem update_noMessages (key : BitVec 64 × BitVec 64) :
    update noMessages key none = noMessages := update_eq_self key noMessages

theorem Sent.receive_fragList (s : Sent dtSize) (hpos : 0 < s.toSend) :
    receive dtSize noMessages s.fragList = (dispatchMsg dtSize s.wire).map (noMessages, ·) := by
  have hf := s.framed_fragList
  have hlen := s.length_wire
  by_cases hfrag : s.Fragmented
  · have hne : s.fragList ≠ [] := by
      intro hnil
      have hp := hf.pieces
      rw [hnil] at hp
      have hzero : 0 = s.wire.length := hp
      omega
    have hh : Holds noMessages (orteUtilHashName s.msg.src, s.msgSeqnum) s.wire
        (s.fragList.map piece) := holds_of_none rfl hf.pieces
    rw [receive_rest (hlen ▸ s.toSend_lt) (hlen ▸ hf.of)
      (fun f hfm => hlen ▸ (hf.split hfrag f hfm).ne)
      (fun f hfm => hf.pieces.of_mem (List.mem_map_of_mem hfm)) hne hh, update_noMessages]
  · obtain ⟨f, hfs, hfl, hoff, hbytes⟩ := hf.whole hpos hfrag
    have hof := hf.of f (by simp [hfs])
    rw [hfs, receive, eraCbFn_whole (hof.msgLen.trans hfl.symm) hoff, hbytes]
    cases dispatchMsg dtSize s.wire with
    | none => rfl
    | some out => simp [receive]

theorem Sent.fragList_eq_nil {s : Sent dtSize} (h : s.toSend = 0) : s.fragList = [] := by
  have hf := s.framed_fragList
  cases hfs : s.fragList with
  | nil => rfl
  | cons f fs =>
    rw [hfs] at hf
    have hbound := hf.pieces.2.1.bound
    have hpos := hf.pieces.2.1.nonempty
    rw [s.length_wire, h] at hbound
    simp only [Piece.stop] at hbound
    omega

theorem receive_flatMap (hshort : ∀ s ∈ msgs, s.msg.msgSize < 2 ^ 32) :
    receive dtSize noMessages (msgs.flatMap Sent.fragList) =
      some (noMessages, msgs.map fun s => s.msg.incoming) := by
  induction msgs with
  | nil => rfl
  | cons s msgs ih =>
    have hs := hshort s (by simp)
    have hpos : 0 < s.toSend := by rw [toSend_eq hs]; exact msgSize_pos
    rw [flatMap_cons, receive_append, s.receive_fragList hpos, wire_eq hs, dispatchMsg_wire]
    simp [ih fun t ht => hshort t (by simp [ht])]

theorem length_receive_flatMap {table : IncompleteTable} {out : List Incoming}
    (h : receive dtSize noMessages (msgs.flatMap Sent.fragList) = some (table, out)) :
    out.length ≤ msgs.length ∧ (out.length = msgs.length → ∀ s ∈ msgs, s.msg.msgSize < 2 ^ 32) := by
  induction msgs generalizing table out with
  | nil =>
    simp [receive] at h
    simp [← h.2]
  | cons s msgs ih =>
    rw [flatMap_cons, receive_append] at h
    by_cases hs : s.msg.msgSize < 2 ^ 32
    · have hpos : 0 < s.toSend := by rw [toSend_eq hs]; exact msgSize_pos
      rw [s.receive_fragList hpos, wire_eq hs, dispatchMsg_wire] at h
      cases hrec : receive dtSize noMessages (msgs.flatMap fragList) with
      | none => simp [hrec] at h
      | some r =>
        obtain ⟨table', out'⟩ := r
        obtain ⟨hle, hall⟩ := ih hrec
        simp only [hrec, map_some, bind_some, Option.some.injEq, Prod.mk.injEq] at h
        obtain ⟨-, rfl⟩ := h
        refine ⟨by simpa using hle, fun heq => forall_mem_cons.2 ⟨hs, hall ?_⟩⟩
        simpa using heq
    · by_cases hpos : 0 < s.toSend
      · have hlt : s.toSend < s.msg.msgSize := lt_of_lt_of_le s.toSend_lt (Nat.le_of_not_lt hs)
        rw [s.receive_fragList hpos, wire, dispatchMsg_take _ hlt] at h
        simp at h
      · rw [fragList_eq_nil (Nat.eq_zero_of_not_pos hpos)] at h
        cases hrec : receive dtSize noMessages (msgs.flatMap fragList) with
        | none => simp [receive, hrec] at h
        | some r =>
          obtain ⟨table', out'⟩ := r
          obtain ⟨hle, -⟩ := ih hrec
          simp only [receive, hrec, map_some, bind_some, Option.some.injEq,
            Prod.mk.injEq, nil_append] at h
          obtain ⟨-, rfl⟩ := h
          rw [length_cons]
          exact ⟨by omega, fun heq => by omega⟩

/-! ### Two messages in one buffer -/

section Collision

variable {table : IncompleteTable} {src : ProcName} {seqnum : BitVec 64} {len n : ℕ}

theorem eraCbFn_unfinished (dtSize : BitVec 32 → BitVec 64) {f : EraFrag}
    (hf : f.Of src seqnum len) (hsplit : f.fragLen ≠ len)
    (hbelow : WrittenBelow (pendingMsg table f.key len).bytes n)
    (hcount : ((pendingMsg table f.key len).bytesReceived + f.fragLen) % 2 ^ 32 = len →
      max n f.piece.stop < len) :
    eraCbFn dtSize table f = none ∨
      ∃ msg, eraCbFn dtSize table f = some (update table f.key (some msg), []) ∧
        msg.bytesReceived = ((pendingMsg table f.key len).bytesReceived + f.fragLen) % 2 ^ 32 ∧
        WrittenBelow msg.bytes (max n f.piece.stop) := by
  have hne : ¬ f.msgLen = f.fragLen := by rw [hf.msgLen]; exact hsplit.symm
  rw [eraCbFn, if_neg hne]
  simp only [hf.msgLen]
  cases hwrite : writePiece (pendingMsg table f.key len).bytes f.piece with
  | none => exact .inl rfl
  | some bytes =>
    have hbytes := hbelow.write hwrite
    by_cases heq : ((pendingMsg table f.key len).bytesReceived + f.fragLen) % 2 ^ 32 = len
    · left
      simp only [if_pos heq, hbytes.readBuffer (hcount heq)]
    · simp only [if_neg heq]
      exact .inr ⟨_, rfl, rfl, hbytes⟩

/-- The last fragments of a message when the buffer holds `d` bytes too many: it
is never complete when the count is right. -/
theorem receive_surplus (dtSize : BitVec 32 → BitVec 64) {wire : List UInt8}
    {fs : List EraFrag} {start d : ℕ} {msg : IncompleteMsg}
    (hof : ∀ f ∈ fs, f.Of src seqnum wire.length) (hsplit : ∀ f ∈ fs, f.fragLen ≠ wire.length)
    (hcons : Consecutive wire start (fs.map EraFrag.piece))
    (hmsg : table (orteUtilHashName src, seqnum) = some msg)
    (hcount : msg.bytesReceived = (start + d) % 2 ^ 32) (hbelow : WrittenBelow msg.bytes n)
    (hd : 0 < d) (hd' : d < 2 ^ 32)
    (hn : d < wire.length → start < wire.length → n < wire.length) :
    receive dtSize table fs = none ∨ ∃ table' msg', receive dtSize table fs = some (table', []) ∧
        table' (orteUtilHashName src, seqnum) = some msg' ∧
        msg'.bytesReceived = (wire.length + d) % 2 ^ 32 ∧
        WrittenBelow msg'.bytes (max n wire.length) := by
  induction fs generalizing table msg start n with
  | nil =>
    obtain rfl : start = wire.length := hcons
    exact .inr ⟨table, msg, rfl, hmsg, hcount, hbelow.mono (le_max_left _ _)⟩
  | cons f fs ih =>
    obtain ⟨hstart, hpiece, hrest⟩ := hcons
    have hf := hof f (by simp)
    have hkey : f.key = (orteUtilHashName src, seqnum) := by
      rw [key, hf.src, hf.seqnum]
    have hpend : pendingMsg table f.key wire.length = msg := by
      rw [pendingMsg, hkey, hmsg]
      rfl
    have hstop : f.piece.stop = start + f.fragLen := by
      rw [Piece.stop, hf.piece_length]
      exact congrArg (· + f.fragLen) hstart
    have hbound := hpiece.bound
    have hpos := hpiece.nonempty
    rw [hf.piece_length] at hpos
    have hsum : (msg.bytesReceived + f.fragLen) % 2 ^ 32 = (f.piece.stop + d) % 2 ^ 32 := by
      rw [hcount, hstop]
      omega
    have hunf := eraCbFn_unfinished dtSize hf (hsplit f (by simp))
      (hpend ▸ hbelow) (fun heq => by
        rw [hpend, hsum] at heq
        have hexact : f.piece.stop + d = wire.length := by omega
        have hbelow := hn (by omega) (by omega)
        omega)
    rw [hpend, hsum] at hunf
    obtain hnone | ⟨msg', hcb, hcount', hbelow'⟩ := hunf
    · exact .inl (by rw [receive, hnone])
    · have hmsg' : update table f.key (some msg') (orteUtilHashName src, seqnum) =
          some msg' := by rw [hkey, update_self]
      obtain hrec | ⟨table', msg'', hrec, hm, hc, hb⟩ := ih (fun q hq => hof q (by simp [hq]))
        (fun q hq => hsplit q (by simp [hq])) hrest hmsg' hcount' hbelow'
        (fun h₁ h₂ => max_lt (hn h₁ (by omega)) h₂)
      · exact .inl (by rw [receive, hcb]; simp [hrec])
      · refine .inr ⟨table', msg'', by rw [receive, hcb]; simp [hrec], hm, hc, hb.mono ?_⟩
        omega

theorem Sent.Collides.receive {s t : Sent dtSize} (h : s.Collides t) (hs : 0 < s.toSend)
    (ht : 0 < t.toSend) :
    ∃ fs : List EraFrag, fs.Perm (s.fragList ++ t.fragList) ∧ (receive dtSize noMessages fs = none ∨
        ∃ table, receive dtSize noMessages fs = some (table, [])) := by
  obtain ⟨hsf, htf, hsrc, hseq⟩ := h
  have hsl := s.length_wire
  have htl := t.length_wire
  have hslt := s.toSend_lt
  have htlt := t.toSend_lt
  have hsframed := s.framed_fragList
  have htframed := t.framed_fragList
  have hsof : ∀ f ∈ s.fragList, f.Of s.msg.src s.msgSeqnum s.wire.length := hsl ▸ hsframed.of
  have htof : ∀ f ∈ t.fragList, f.Of s.msg.src s.msgSeqnum t.wire.length :=
    htl ▸ hsrc ▸ hseq ▸ htframed.of
  have hssplit : ∀ f ∈ s.fragList, f.fragLen ≠ s.wire.length :=
    fun f hf => hsl ▸ (hsframed.split hsf f hf).ne
  have htsplit : ∀ f ∈ t.fragList, f.fragLen ≠ t.wire.length :=
    fun f hf => htl ▸ (htframed.split htf f hf).ne
  have hpieces := hsframed.pieces
  cases hfs : s.fragList with
  | nil =>
    rw [hfs] at hpieces
    have hzero : 0 = s.wire.length := hpieces
    omega
  | cons f fs =>
    rw [hfs] at hpieces hsof hssplit
    obtain ⟨hoff, hpiece, hrest⟩ := hpieces
    refine ⟨f :: (t.fragList ++ fs), perm_append_comm.cons f, ?_⟩
    have hf := hsof f (by simp)
    have hkey : f.key = (orteUtilHashName s.msg.src, s.msgSeqnum) := by
      rw [key, hf.src, hf.seqnum]
    have hstop : f.piece.stop = f.fragLen := by
      rw [Piece.stop, hf.piece_length, show f.piece.offset = 0 from hoff, Nat.zero_add]
    have hpos := hpiece.nonempty
    rw [hf.piece_length] at hpos
    have hbound := hpiece.bound
    have hnew : pendingMsg noMessages f.key s.wire.length =
        { bytesReceived := 0, bytes := blank s.wire.length } := rfl
    have hlt : f.fragLen % 2 ^ 32 = f.fragLen := Nat.mod_eq_of_lt (by omega)
    -- the first fragment
    have hfirst := eraCbFn_unfinished dtSize (n := 0) hf (hssplit f (by simp))
      (by rw [hnew]; exact writtenBelow_blank _) (fun heq => by
        rw [hnew, Nat.zero_add, hlt] at heq
        exact absurd heq (hssplit f (by simp)))
    rw [hnew, Nat.zero_add, hlt, Nat.zero_max, hstop] at hfirst
    obtain hnone | ⟨msg, hcb, hcount, hbelow⟩ := hfirst
    · exact .inl (by rw [Ulfm.receive, hnone])
    have hmsg : update noMessages f.key (some msg)
        (orteUtilHashName s.msg.src, s.msgSeqnum) = some msg := by
      rw [hkey, update_self]
    have hrec : Ulfm.receive dtSize noMessages (f :: (t.fragList ++ fs)) =
        (Ulfm.receive dtSize (update noMessages f.key (some msg))
          (t.fragList ++ fs)) := by
      rw [Ulfm.receive, hcb]
      simp
    rw [hrec, receive_append]
    -- the other message
    obtain hnone | ⟨table, msg', hother, hmsg', hcount', hbelow'⟩ :=
      receive_surplus dtSize (d := f.fragLen) htof htsplit
        htframed.pieces hmsg (by rw [hcount, Nat.zero_add, hlt]) hbelow hpos (by omega)
        (fun h _ => h)
    · exact .inl (by rw [hnone]; rfl)
    rw [hother]
    -- the rest of the first message
    obtain hnone | ⟨table', msg'', hlast, -⟩ :=
      receive_surplus dtSize (d := t.wire.length)
        (fun q hq => hsof q (by simp [hq])) (fun q hq => hssplit q (by simp [hq])) hrest hmsg'
        (by rw [hcount', hstop, Nat.add_comm]) hbelow' (by omega) (by omega)
        (fun h₁ h₂ => by omega)
    · exact .inl (by simp [hnone])
    · exact .inr ⟨table', by simp [hlast]⟩

end Collision

/-! ### When messages are delivered -/

theorem Delivers.short (h : Delivers dtSize msgs) : ∀ s ∈ msgs, s.msg.msgSize < 2 ^ 32 := by
  obtain ⟨table, out, hrec, hperm⟩ := h.2 _ (List.Perm.refl _)
  exact (length_receive_flatMap hrec).2 (by rw [hperm.length_eq, length_map])

theorem Delivers.apart (h : Delivers dtSize msgs) : msgs.Pairwise fun s t => ¬ s.Collides t := by
  rw [pairwise_iff_forall_sublist]
  intro s t hsub hcol
  obtain ⟨others, hmsgs⟩ := hsub.exists_perm_append
  have hshort : ∀ r ∈ s :: t :: others, r.msg.msgSize < 2 ^ 32 :=
    fun r hr => h.short r (hmsgs.mem_iff.2 hr)
  have hpos : ∀ r ∈ s :: t :: others, 0 < r.toSend := by
    intro r hr
    rw [toSend_eq (hshort r hr)]
    exact msgSize_pos
  obtain ⟨fs, hfs, hbad⟩ := hcol.receive (hpos s (by simp)) (hpos t (by simp))
  have hperm : (others.flatMap fragList ++ fs).Perm (msgs.flatMap fragList) :=
    calc
      (others.flatMap fragList ++ fs).Perm (fs ++ others.flatMap fragList) := perm_append_comm
      _ |>.Perm ((s.fragList ++ t.fragList) ++ others.flatMap fragList) := hfs.append_right _
      _ |>.Perm ((s :: t :: others).flatMap fragList) := by
        simp [List.append_assoc]
      _ |>.Perm (msgs.flatMap fragList) := (hmsgs.flatMap_right _).symm
  obtain ⟨table, out, hrec, hout⟩ := h.2 _ hperm
  rw [receive_append, receive_flatMap fun r hr => hshort r (by simp [hr])] at hrec
  obtain hnone | ⟨table', hempty⟩ := hbad
  · simp [hnone] at hrec
  · simp only [hempty, bind_some, map_some, Option.some.injEq, Prod.mk.injEq] at hrec
    have hlen := hout.length_eq
    simp only [← hrec.2, List.append_nil, length_map, hmsgs.length_eq, length_append,
      length_cons] at hlen
    omega

/-- Messages are delivered exactly when all of them are shorter than `2 ^ 32` bytes
and no two of them collide. -/
theorem delivers_iff (msgs : List (Sent dtSize)) : Delivers dtSize msgs ↔
      (∀ s ∈ msgs, s.msg.msgSize < 2 ^ 32) ∧ msgs.Pairwise fun s t => ¬ s.Collides t :=
  ⟨fun h => ⟨h.short, h.apart⟩, fun ⟨hshort, hapart⟩ => delivers_of_short hshort hapart⟩

theorem allocates_min {size : ℕ} (h : fragHeaderSize < size) : Allocates (min size) :=
  fun _ hn => ⟨lt_min h hn, min_le_right _ _⟩

/-- A contribution of `2 ^ 30` integers. -/
def longContribution : Outgoing fun _ => 4 where
  src := { jobid := 1, vpid := 1 }
  rank := 1
  agreementId := 1
  type := .up
  valueHeader :=
    { ret := 0, minAid := 65535, maxAid := 0, operand := 6, dtCount := 1073741824,
      datatype := 39, nbNewDead := 0 }
  bytes := replicate (2 ^ 32) 0
  newDeadArray := []
  nbAckFailed := 0
  ackFailed := []
  length_bytes := length_replicate
  newDead_nonneg := by decide
  length_newDeadArray := by decide
  ackFailed_nonneg := by decide
  length_ackFailed := by decide
  ackFailed_up _ := rfl

/-- The message with this contribution, in segments of 4096 bytes. -/
def longMessage : Sent fun _ => 4 where
  msg := longContribution
  msgSeqnum := 1
  segLen := min 4096
  allocates := allocates_min (by decide)

/-- Its length does not fit into an `unsigned int`, and it is not delivered. -/
theorem longMessage_not_delivered :
    longMessage.msg.msgSize = 2 ^ 32 + 56 ∧ ¬ Delivers (fun _ => 4) [longMessage] := by
  have hsize : longMessage.msg.msgSize = 2 ^ 32 + 56 := by decide +kernel
  refine ⟨hsize, fun hdel => ?_⟩
  have hlt := hdel.short longMessage (by simp)
  rw [hsize] at hlt
  exact absurd hlt (by decide)

end Ulfm
