import Ulfm.Nidmap.RoundTrip

/-!
# The locality of processes

An application process marks in `orte_util_decode_pidmap` how near the processes of every job are.
Its own vpid is an index into the arrays of every job and decides in every job which entry is the
process itself.
-/

namespace Ulfm.Nidmap

open List

section Decode

/-- `bind_level` and `bind_idx`. -/
structure Binding where
  level : ℕ
  idx : ℕ
deriving DecidableEq

/-- `pmap->locality`: `OPAL_PROC_ALL_LOCAL`, what `opal_hwloc_base_get_relative_locality` gives for
two bindings (with `OPAL_PROC_ON_NODE`, and never all bits), or `OPAL_PROC_NON_LOCAL`. -/
inductive Locality
  | allLocal
  | relative (mine theirs : Binding)
  | nonLocal
deriving DecidableEq

/-- `OPAL_PROC_ON_NODE` is set. -/
def Locality.onNode (locality : Locality) : Prop := locality ≠ .nonLocal

/-- `ORTE_PROC_MY_NAME`. -/
structure ProcName where
  jobid : JobId
  vpid : Vpid
deriving DecidableEq

def setLocality (me : ProcName) (myNode : ℤ) (mine : Binding) (arrays : JobArrays) :
    List Locality :=
  (arrays.nodes.zip arrays.bindIdx).mapIdx fun i (node, idx) =>
    -- this is me
    if me.vpid = i then .allLocal
    else if node = myNode then .relative mine ⟨arrays.level, idx⟩
    else .nonLocal

/-- The cycles of an application process: its binding at the end, and the localities that are
stored. `none` is an error, or a read behind the end of an array. -/
def localityCycles (mem : Memory) (me : ProcName) :
    ℕ → Buffer → Binding → Option (Binding × List (JobId × List Locality))
  | 0, _, _ => none
  | fuel + 1, buf, mine =>
    match unpack Packed.jobid? (fun _ => 0) 1 buf with
    | .error .unpackReadPastEnd => some (mine, [])
    | .error _ => none
    | .ok (jobid, buf) =>
      match unpackArrays mem (jobid.headD 0) buf with
      | .error _ => none
      | .ok (arrays, buf) => do
          let idx ← arrays.bindIdx[me.vpid]?
          let myNode ← arrays.nodes[me.vpid]?
          let mine := ⟨arrays.level, idx⟩
          let (last, stored) ← localityCycles mem me fuel buf mine
          return (last, (arrays.job, setLocality me myNode mine arrays) :: stored)

end Decode

section Map

structure ProcEntry where
  node : ℤ
  localRank : UInt16
  nodeRank : UInt16
  bindIdx : ℕ
deriving DecidableEq

structure JobEntry where
  job : JobId
  level : ℕ
  procs : List ProcEntry
deriving DecidableEq

def JobEntry.buf (e : JobEntry) : Buffer :=
  [.jobid [e.job], .vpid [e.procs.length], .level [e.level], .int32 (e.procs.map ProcEntry.node),
    .localRank (e.procs.map ProcEntry.localRank), .nodeRank (e.procs.map ProcEntry.nodeRank),
    .uint (e.procs.map ProcEntry.bindIdx)]

/-- A map of processes and the process that decodes it. -/
structure ProcessMap where
  jobs : List JobEntry
  distinct : (jobs.map JobEntry.job).Nodup
  nonempty : ∀ e ∈ jobs, e.procs ≠ []
  vpid : Vpid
  mine : JobEntry
  mine_mem : mine ∈ jobs
  inside : vpid < mine.procs.length

namespace ProcessMap

variable {m : ProcessMap} {mem : Memory} {before : Binding} {e : JobEntry} {es : List JobEntry}

def me (m : ProcessMap) : ProcName := ⟨m.mine.job, m.vpid⟩

/-- The entry of the process that decodes. -/
def self (m : ProcessMap) : ProcEntry := m.mine.procs.get ⟨m.vpid, m.inside⟩

def buf (m : ProcessMap) : Buffer := m.jobs.flatMap JobEntry.buf

def decode (m : ProcessMap) (mem : Memory) (before : Binding) :
    Option (Binding × List (JobId × List Locality)) :=
  localityCycles mem m.me (m.buf.length + 1) m.buf before

/-- No read is outside, the binding is the process's own, and the entries are marked by
the nodes. -/
def Marks (m : ProcessMap) (mem : Memory) (before : Binding) : Prop :=
  ∃ stored, m.decode mem before = some (⟨m.mine.level, m.self.bindIdx⟩, stored) ∧
    ∀ (k : ℕ) (e : JobEntry), m.jobs[k]? = some e → ∃ localities,
      stored[k]? = some (e.job, localities) ∧ localities.length = e.procs.length ∧
        ∀ (i : ℕ) (p : ProcEntry) (l : Locality), e.procs[i]? = some p → localities[i]? = some l →
          (l = .allLocal → e.job = m.me.jobid ∧ i = m.me.vpid) ∧
            (¬ (e.job = m.me.jobid ∧ i = m.me.vpid) → (l.onNode ↔ p.node = m.self.node))

/-- The localities of a job for the process with the vpid. -/
def marksOf (me : ProcName) (e : JobEntry) (mine : ProcEntry) : List Locality :=
  (e.procs.map fun p => (p.node, p.bindIdx)).mapIdx fun i (node, idx) =>
    if me.vpid = i then .allLocal
    else if node = mine.node then .relative ⟨e.level, mine.bindIdx⟩ ⟨e.level, idx⟩
    else .nonLocal

theorem unpackArrays_buf {rest : Buffer} (h : e.procs ≠ []) :
    unpackArrays mem e.job (e.buf.tail ++ rest) =
      .ok (⟨e.job, e.level, e.procs.length, e.procs.map ProcEntry.node,
        e.procs.map ProcEntry.localRank, e.procs.map ProcEntry.nodeRank,
        e.procs.map ProcEntry.bindIdx⟩, rest) := by
  have hn : e.procs.length ≠ 0 := fun hzero => h (eq_nil_of_length_eq_zero hzero)
  unfold unpackArrays JobEntry.buf
  rw [tail_cons]
  simp only [cons_append, nil_append]
  rw [unpack_bind rfl Nat.one_ne_zero rfl]
  dsimp only [headD_cons]
  rw [unpack_bind rfl Nat.one_ne_zero rfl, unpack_bind rfl hn (length_map _),
    unpack_bind rfl hn (length_map _), unpack_bind rfl hn (length_map _),
    unpack_bind rfl hn (length_map _)]
  rfl

theorem localityCycles_cons {me : ProcName} {fuel : ℕ} {rest : Buffer} (h : e.procs ≠ []) :
    localityCycles mem me (fuel + 1) (e.buf ++ rest) before = e.procs[me.vpid]?.bind fun mine =>
        (localityCycles mem me fuel rest ⟨e.level, mine.bindIdx⟩).map fun r =>
          (r.1, (e.job, marksOf me e mine) :: r.2) := by
  have hjobid : unpack Packed.jobid? (fun _ => 0) 1 (e.buf ++ rest) =
      .ok ([e.job], e.buf.tail ++ rest) := unpack_cons rfl Nat.one_ne_zero rfl
  rw [localityCycles, hjobid]
  dsimp only [headD_cons]
  rw [unpackArrays_buf h]
  dsimp only
  rw [getElem?_map, getElem?_map]
  cases e.procs[me.vpid]? with
  | none => rfl
  | some mine =>
    change (localityCycles mem me fuel rest ⟨e.level, mine.bindIdx⟩ >>= _) = _
    rw [Option.bind_some]
    unfold setLocality marksOf
    rw [zip_map']
    cases localityCycles mem me fuel rest ⟨e.level, mine.bindIdx⟩ with
    | none => rfl
    | some r => rfl

theorem stored_of_localityCycles {me : ProcName} {fuel k : ℕ} {last : Binding}
    {stored : List (JobId × List Locality)} (hne : ∀ e ∈ es, e.procs ≠ [])
    (h : localityCycles mem me fuel (es.flatMap JobEntry.buf) before = some (last, stored))
    (hk : es[k]? = some e) :
    ∃ mine, e.procs[me.vpid]? = some mine ∧ stored[k]? = some (e.job, marksOf me e mine) := by
  induction es generalizing fuel before stored k with
  | nil => exact nomatch hk
  | cons e' es ih =>
    cases fuel with
    | zero => exact nomatch h
    | succ fuel =>
      rw [flatMap_cons, localityCycles_cons (hne e' mem_cons_self)] at h
      obtain ⟨mine, hmine, h⟩ := Option.bind_eq_some_iff.1 h
      obtain ⟨r, hr, h⟩ := Option.map_eq_some_iff.1 h
      obtain ⟨rlast, rstored⟩ := r
      obtain ⟨rfl, rfl⟩ := Prod.mk.inj h
      cases k with
      | zero =>
        obtain rfl : e' = e := Option.some.inj hk
        exact ⟨mine, hmine, rfl⟩
      | succ k =>
        rw [getElem?_cons_succ] at hk ⊢
        exact ih (fun x hx => hne x (mem_cons_of_mem _ hx)) hr hk

theorem getElem?_marksOf {me : ProcName} {mine : ProcEntry} {i : ℕ} :
    (marksOf me e mine)[i]? = e.procs[i]?.map fun p => if me.vpid = i then .allLocal
      else if p.node = mine.node then .relative ⟨e.level, mine.bindIdx⟩ ⟨e.level, p.bindIdx⟩
      else .nonLocal := by
  rw [marksOf, getElem?_mapIdx, getElem?_map, Option.map_map]
  rfl

/-- The map is marked as it should be exactly if it has no other job. -/
theorem marks_iff (m : ProcessMap) (mem : Memory) (before : Binding) :
    m.Marks mem before ↔ ∀ e ∈ m.jobs, e.job = m.me.jobid := by
  have hself : m.mine.procs[m.me.vpid]? = some m.self := getElem?_eq_getElem m.inside
  constructor
  · rintro ⟨stored, hdecode, hmarks⟩ e he
    obtain ⟨k, hk⟩ := mem_iff_getElem?.1 he
    obtain ⟨mine, hmine, hstored⟩ := stored_of_localityCycles m.nonempty hdecode hk
    obtain ⟨localities, hlocalities, -, hentry⟩ := hmarks k e hk
    obtain rfl : marksOf m.me e mine = localities :=
      congrArg Prod.snd (Option.some.inj (hstored.symm.trans hlocalities))
    have hmark : (marksOf m.me e mine)[m.me.vpid]? = some .allLocal := by
      rw [getElem?_marksOf, hmine, Option.map_some, if_pos rfl]
    exact ((hentry _ mine _ hmine hmark).1 rfl).1
  · intro h
    -- the jobs have different ids
    have hjobs : m.jobs = [m.mine] := by
      have hdistinct := m.distinct
      have hmem := m.mine_mem
      match hm : m.jobs, hmem with
      | [e], hmem => rw [mem_singleton.1 hmem]
      | e :: e' :: es, _ =>
        rw [hm] at hdistinct h
        have hsame : e.job = e'.job :=
          (h e mem_cons_self).trans (h e' (mem_cons_of_mem _ mem_cons_self)).symm
        rw [map_cons, map_cons, hsame] at hdistinct
        exact absurd mem_cons_self (nodup_cons.1 hdistinct).1
    refine ⟨[(m.mine.job, marksOf m.me m.mine m.self)], ?_, ?_⟩
    · unfold decode buf
      rw [hjobs, flatMap_singleton]
      have hcycle := @localityCycles_cons mem before m.mine m.me m.mine.buf.length []
        (m.nonempty _ m.mine_mem)
      rw [List.append_nil, hself] at hcycle
      rw [hcycle]
      rfl
    · intro k e hk
      rw [hjobs] at hk
      cases k with
      | succ k => exact nomatch hk
      | zero =>
        obtain rfl : m.mine = e := Option.some.inj hk
        refine ⟨_, rfl, by rw [marksOf, length_mapIdx, length_map], ?_⟩
        intro i p l hp hl
        rw [getElem?_marksOf, hp] at hl
        rw [Option.map_some] at hl
        obtain rfl := Option.some.inj hl
        by_cases hi : m.me.vpid = i
        · rw [if_pos hi]
          exact ⟨fun _ => ⟨rfl, hi.symm⟩, fun hother => absurd ⟨rfl, hi.symm⟩ hother⟩
        · rw [if_neg hi]
          by_cases hnode : p.node = m.self.node
          · rw [if_pos hnode]
            exact ⟨nofun, fun _ => iff_of_true nofun hnode⟩
          · rw [if_neg hnode]
            exact ⟨nofun, fun _ => iff_of_false (fun hon => hon rfl) hnode⟩

/-- A job and one that was spawned, with one process each. -/
def spawned : ProcessMap where
  jobs := [⟨1, 0, [⟨0, 0, 0, 0⟩]⟩, ⟨2, 0, [⟨1, 0, 0, 0⟩]⟩]
  distinct := by decide
  nonempty := by decide
  vpid := 0
  mine := ⟨1, 0, [⟨0, 0, 0, 0⟩]⟩
  mine_mem := mem_cons_self
  inside := Nat.one_pos

theorem spawned_not_marked :
    ¬ ∀ (m : ProcessMap) (mem : Memory) (before : Binding), m.Marks mem before := by
  intro h
  let mem : Memory := ⟨fun _ => 0, fun _ => 0, fun _ _ => 0, fun _ _ => 0, fun _ _ => 0,
    fun _ _ => 0⟩
  obtain ⟨stored, hdecode, hmarks⟩ := h spawned mem ⟨0, 0⟩
  have hstored : spawned.decode mem ⟨0, 0⟩ =
      some (⟨0, 0⟩, [(1, [.allLocal]), (2, [.allLocal])]) := by decide
  obtain rfl := congrArg Prod.snd (Option.some.inj (hstored.symm.trans hdecode))
  obtain ⟨localities, hlocalities, -, hentry⟩ := hmarks 1 _ rfl
  obtain rfl := congrArg Prod.snd (Option.some.inj hlocalities)
  exact absurd ((hentry 0 _ _ rfl rfl).1 rfl).1 (by decide)

end ProcessMap

end Map

end Ulfm.Nidmap
