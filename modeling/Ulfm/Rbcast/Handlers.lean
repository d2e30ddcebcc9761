import Ulfm.Rbcast.Neighbours

/-!
# What the handlers of a process do to one broadcast

A broadcast is identified by its message: the context id and epoch of the
communicator, and what is broadcast. Each handler runs at most one callback, on the
communicator that stands under the context id of the message. The callback has an
effect only the first time, and then the message is sent on.
-/

namespace Ulfm

open Option

namespace Rbcast

variable {groups : CommGroups ProcName} {tok : Msg} {s s' : Proc} {p : ProcName} {comm : Comm}

/-- What a communicator keeps for its lifetime. -/
def Comm.identity (comm : Comm) : Comm :=
  { comm with anySourceEnabled := true, collRevoked := false, commRevoked := false }

theorem identity_revokeLocal (comm : Comm) : comm.revokeLocal.1.identity = comm.identity := by
  rw [Comm.revokeLocal]
  split_ifs
  · rfl
  · rfl

theorem eq_of_identity_eq {comm comm' : Comm} (h : comm'.identity = comm.identity) :
    comm'.toCommGroups = comm.toCommGroups ∧ comm'.rank = comm.rank ∧
      comm'.contextId = comm.contextId ∧ comm'.epoch = comm.epoch := by
  cases comm
  cases comm'
  simpa [Comm.identity] using h

theorem bmgPeers_of_identity_eq {comm comm' : Comm} (h : comm'.identity = comm.identity) :
    comm'.bmgPeers = comm.bmgPeers := by
  obtain ⟨hgroups, hrank, -, -⟩ := eq_of_identity_eq h
  simp only [Comm.bmgPeers, Comm.me, hgroups, hrank]

/-- The callback for the message has had its effect. -/
def Proc.hasTaken (s : Proc) (tok : Msg) : Bool :=
  match tok.type with
  | .revoke => (s.comms tok.cid).any (·.commRevoked)
  | .failurePropagate proc => !s.active proc

/-- What a handler may do: the communicators stay what they are, the message that it
sends is for a communicator of the table, and it sends `tok` exactly when the callback
of `tok` has its effect. -/
structure Respects (tok : Msg) (s s' : Proc) (out : Option (Comm × Msg)) : Prop where
  table : ∀ cid, (s'.comms cid).map Comm.identity = (s.comms cid).map Comm.identity
  sends : ∀ comm msg, out = some (comm, msg) → s.comms msg.cid = some comm ∧
    comm.contextId = msg.cid ∧ comm.epoch = msg.epoch ∧
    ∀ proc, msg.type = .failurePropagate proc → msg.cid = 0
  takes : ∀ comm, s.comms tok.cid = some comm → comm.epoch = tok.epoch →
    ((∃ comm, out = some (comm, tok)) ∧ s.hasTaken tok = false ∧ s'.hasTaken tok = true) ∨
      ((∀ comm, out ≠ some (comm, tok)) ∧ s'.hasTaken tok = s.hasTaken tok)

theorem respects_none (tok : Msg) (s : Proc) : Respects tok s s none where
  table _ := rfl
  sends _ _ h := nomatch h
  takes _ _ _ := .inr ⟨fun _ h => (nomatch h), rfl⟩

theorem Respects.exists_slot {out : Option (Comm × Msg)} (h : Respects tok s s' out)
    {cid : ℕ} {comm' : Comm} (hcomm : s'.comms cid = some comm') :
    ∃ comm, s.comms cid = some comm ∧ comm'.identity = comm.identity := by
  have htable := h.table cid
  rw [hcomm, map_some, eq_comm, map_eq_some_iff] at htable
  obtain ⟨comm, hs, heq⟩ := htable
  exact ⟨comm, hs, heq.symm⟩

theorem Respects.slot_some {out : Option (Comm × Msg)} (h : Respects tok s s' out)
    {cid : ℕ} {comm : Comm} (hcomm : s.comms cid = some comm) :
    ∃ comm', s'.comms cid = some comm' ∧ comm'.identity = comm.identity := by
  have htable := h.table cid
  rwa [hcomm, map_some, map_eq_some_iff] at htable

section Callback

variable {cid : ℕ} {msg : Msg}

theorem callback_table (hcomm : s.comms cid = some comm) (type : MsgType) (cid' : ℕ) :
    ((s.callback cid comm type).1.comms cid').map Comm.identity =
      (s.comms cid').map Comm.identity := by
  cases type with
  | revoke =>
    by_cases hcid : cid' = cid
    · subst hcid
      simp [Proc.callback, hcomm, identity_revokeLocal]
    · simp [Proc.callback, Function.update_of_ne hcid]
  | failurePropagate proc =>
    simp only [Proc.callback, Proc.markFailed]
    split_ifs
    · rfl
    · rfl

theorem callback_takes (hcomm : s.comms tok.cid = some comm) :
    (s.callback tok.cid comm tok.type).2 = !s.hasTaken tok ∧
      (s.callback tok.cid comm tok.type).1.hasTaken tok = true := by
  obtain ⟨cid, epoch, type⟩ := tok
  cases type with
  | revoke =>
    simp only [Proc.callback, Proc.hasTaken, Comm.revokeLocal] at hcomm ⊢
    rw [hcomm]
    cases h : comm.commRevoked <;> simp [h]
  | failurePropagate proc =>
    simp only [Proc.callback, Proc.hasTaken, Proc.markFailed]
    cases h : s.active proc <;> simp [h]

theorem callback_other (htok : ∀ proc, tok.type = .failurePropagate proc → tok.cid = 0)
    {own : Comm} (hown : s.comms tok.cid = some own) (hepoch : own.epoch = tok.epoch)
    (hcomm : s.comms msg.cid = some comm) (hmsg : comm.epoch = msg.epoch)
    (hzero : ∀ proc, msg.type = .failurePropagate proc → msg.cid = 0) (hne : msg ≠ tok) :
    (s.callback msg.cid comm msg.type).1.hasTaken tok = s.hasTaken tok := by
  -- one communicator has one epoch
  have hsame : msg.cid = tok.cid → msg.type ≠ tok.type := by
    intro hcid htype
    rw [hcid, hown, some_inj] at hcomm
    subst hcomm
    refine hne ?_
    cases msg
    cases tok
    simp_all
  cases htype : tok.type with
  | revoke =>
    cases hmtype : msg.type with
    | revoke =>
      have hcid : tok.cid ≠ msg.cid := fun heq => hsame heq.symm (hmtype.trans htype.symm)
      simp [Proc.callback, Proc.hasTaken, htype, Function.update_of_ne hcid]
    | failurePropagate proc =>
      simp only [Proc.callback, Proc.hasTaken, Proc.markFailed, htype]
      split_ifs
      · rfl
      · rfl
  | failurePropagate proc =>
    cases hmtype : msg.type with
    | revoke => simp [Proc.callback, Proc.hasTaken, htype]
    | failurePropagate proc' =>
      have hproc : proc ≠ proc' := by
        rintro rfl
        exact hsame ((hzero proc hmtype).trans (htok proc htype).symm)
          (hmtype.trans htype.symm)
      simp only [Proc.callback, Proc.hasTaken, Proc.markFailed, htype]
      split_ifs
      · simp [Function.update_of_ne hproc]
      · rfl

theorem respects_callback (htok : ∀ proc, tok.type = .failurePropagate proc → tok.cid = 0)
    (msg : Msg) (hcomm : s.comms msg.cid = some comm) (hcid : comm.contextId = msg.cid)
    (hmsg : comm.epoch = msg.epoch)
    (hzero : ∀ proc, msg.type = .failurePropagate proc → msg.cid = 0) :
    Respects tok s (s.callback msg.cid comm msg.type).1
      (if (s.callback msg.cid comm msg.type).2 then some (comm, msg) else none) where
  table := callback_table hcomm msg.type
  sends comm' msg' h := by
    split_ifs at h
    obtain ⟨rfl, rfl⟩ := Prod.mk.inj (Option.some.inj h)
    exact ⟨hcomm, hcid, hmsg, hzero⟩
  takes own hown hepoch := by
    by_cases heq : msg = tok
    · subst heq
      obtain ⟨heffect, htaken⟩ := callback_takes hcomm
      rw [heffect, htaken]
      cases h : s.hasTaken msg with
      | false => exact .inl ⟨⟨comm, rfl⟩, rfl, rfl⟩
      | true => exact .inr ⟨fun _ h => (nomatch h), rfl⟩
    · refine .inr ⟨fun comm' h => ?_, callback_other htok hown hepoch hcomm hmsg hzero heq⟩
      split_ifs at h
      exact heq (Prod.mk.inj (Option.some.inj h)).2

end Callback

section Handlers

variable (htok : ∀ proc, tok.type = .failurePropagate proc → tok.cid = 0)

include htok

theorem respects_recvCb {msg : Msg}
    (hzero : ∀ proc, msg.type = .failurePropagate proc → msg.cid = 0) :
    Respects tok s (s.recvCb msg).1 (s.recvCb msg).2 := by
  rw [Proc.recvCb]
  cases hcomm : s.comms msg.cid with
  | none => exact respects_none tok s
  | some comm =>
    simp only
    split_ifs with hcid hepoch heffect
    · exact respects_none tok s
    · exact respects_none tok s
    all_goals
      have h := respects_callback htok msg hcomm (not_not.mp hcid).symm (not_not.mp hepoch) hzero
      simpa [heffect] using h

omit htok in
theorem hasTaken_recvCb (hcomm : s.comms tok.cid = some comm) (hcid : comm.contextId = tok.cid)
    (hepoch : comm.epoch = tok.epoch) : (s.recvCb tok).1.hasTaken tok = true := by
  rw [Proc.recvCb, hcomm]
  simp only [hcid, hepoch, ne_eq, not_true_eq_false, if_false]
  exact (callback_takes hcomm).2

theorem respects_revoke (cid : ℕ) : Respects tok s (s.revoke cid).1 (s.revoke cid).2 := by
  rw [Proc.revoke]
  cases hcomm : s.comms cid with
  | none => exact respects_none tok s
  | some comm =>
    simp only
    split_ifs with hcid heffect
    · exact respects_none tok s
    all_goals
      have hcid := not_not.mp hcid
      subst hcid
      have h := respects_callback htok ⟨comm.contextId, comm.epoch, .revoke⟩ hcomm rfl rfl
        (fun proc h => nomatch h)
      simpa [heffect] using h

theorem respects_failurePropagate (hworld : ∀ comm, s.comms 0 = some comm → comm.contextId = 0)
    (proc : ProcName) :
    Respects tok s (s.failurePropagate proc).1 (s.failurePropagate proc).2 := by
  rw [Proc.failurePropagate]
  cases hcomm : s.comms 0 with
  | none =>
    have hcomms : (s.markFailed proc).1.comms = s.comms := by
      rw [Proc.markFailed]
      split_ifs
      · rfl
      · rfl
    refine ⟨fun cid => by rw [hcomms], fun _ _ h => (nomatch h), fun comm htokcomm _ => ?_⟩
    refine .inr ⟨fun _ h => (nomatch h), ?_⟩
    cases htype : tok.type with
    | revoke => simp [Proc.hasTaken, htype, hcomms]
    | failurePropagate proc' =>
      rw [htok proc' htype, hcomm] at htokcomm
      cases htokcomm
  | some world =>
    have hcid := hworld world hcomm
    simp only [hcid]
    exact respects_callback htok ⟨0, world.epoch, .failurePropagate proc⟩ hcomm hcid rfl
      (fun _ _ => rfl)

end Handlers

end Rbcast

end Ulfm
