import Ulfm.Nidmap.Maps
import Mathlib.Data.List.Nodup
import Mathlib.Data.List.TakeWhile

/-!
# What the maps of nodes and processes lead to

Both encoders count the entries of a table and store by the index of the slot, or the other way
round, so the maps are right only without gaps: no empty slot before a node of the pool or before a
process of a job.
-/

namespace Ulfm.Nidmap

open List Option Flags Block Packed Nat

/-- The pool and the jobs, with every process on a node of the pool. -/
structure Tables where
  pool : List (Option Node)
  jobs : List (Option Job)
  /-- A node has the index of its slot. -/
  placed : ∀ job, some job ∈ jobs.drop 1 → ∀ proc, some proc ∈ job.procs →
    getItem pool proc.node.index = some proc.node
  distinct : ((jobs.drop 1).reduceOption.map Job.jobid).Nodup

/-- The entry for a process leads to its ranks and to the node that hosts it. -/
structure Leads (nidmap : List (Option Nid)) (jobmap : List (Option Jmap)) (jobid : JobId)
    (vpid : Vpid) (proc : Proc) : Prop where
  entry : ∃ pmap, lookupPmap jobmap jobid vpid = some pmap ∧
    pmap.localRank = proc.localRank ∧ pmap.nodeRank = proc.nodeRank ∧
    getItem nidmap pmap.node = some
      { name := some proc.node.name
        daemon := proc.node.daemon.getD vpidInvalid
        oversubscribed := proc.node.oversubscribed }

/-- Whatever is in the memory and in the maps before, the encoders stay inside of their arrays, and
after decoding the entry for every process is right. The job in the first slot is that of the
daemons. -/
def Restores (keepFqdn : Bool) (t : Tables) : Prop :=
  ∀ (mem : Memory) (nidmap : List (Option Nid)) (jobmap : List (Option Jmap)),
    (encodeNodemap keepFqdn mem t.pool).overrun = false ∧
    (encodePidmap mem t.jobs).overrun = false ∧
    ∀ job, some job ∈ t.jobs.drop 1 → ∀ vpid proc, job.procs[vpid]? = some (some proc) →
      Leads (decodeNodemap mem (encodeNodemap keepFqdn mem t.pool).buf nidmap).2
        (decodePidmap mem (encodePidmap mem t.jobs).buf jobmap).2 job.jobid vpid proc

/-- No gap in the pool, and the processes of every job fill its first slots. -/
structure Dense (keepFqdn : Bool) (t : Tables) : Prop where
  pool : LeftJustified t.pool
  procs : ∀ job, some job ∈ t.jobs.drop 1 → LeftJustified job.procs
  counted : ∀ job, some job ∈ t.jobs.drop 1 → job.procs.reduceOption.length ≤ job.numProcs
  mapped : ∀ job, some job ∈ t.jobs.drop 1 → job.procs.reduceOption ≠ [] → job.map.isSome
  /-- No job that the decoder gives up at comes before one with a process. -/
  started : ∀ (i j : ℕ) (job job' : Job), i < j → (t.jobs.drop 1)[i]? = some (some job) →
    (t.jobs.drop 1)[j]? = some (some job') → job.map.isSome → job'.procs.reduceOption ≠ [] →
    job.numProcs ≠ 0
  hosted : ∀ job, some job ∈ t.jobs.drop 1 → ∀ proc, some proc ∈ job.procs →
    proc.node.daemon.isSome ∧ (keepFqdn = true ∨ '.' ∉ proc.node.name)

section Unpack

variable {α : Type} {pick : Packed → Option (List α)} {before : ℕ → α} {item : Packed}
  {vals : List α} {rest : Buffer} {n : ℕ}

theorem unpack_cons (hpick : pick item = some vals) (hn : n ≠ 0) (hlen : vals.length = n) :
    unpack pick before n (item :: rest) = .ok (vals, rest) := by
  subst hlen
  have hdrop : ((List.range vals.length).map before).drop vals.length = [] := by
    apply drop_eq_nil_of_le
    rw [length_map, length_range]
  simp only [unpack, if_neg hn, hpick, if_neg (Nat.lt_irrefl vals.length)]
  rw [hdrop, List.append_nil]

theorem unpack_bind {β : Type} {f : List α × Buffer → Except Status β}
    (hpick : pick item = some vals) (hn : n ≠ 0) (hlen : vals.length = n) :
    (unpack pick before n (item :: rest) >>= f) = f (vals, rest) := by
  rw [unpack_cons hpick hn hlen]
  rfl

end Unpack

section Flags

variable {flags : Flags} {pool : List (Option Node)} {i : ℕ}

theorem fill_vpids : (Flags.fill pool i flags).vpids =
      Block.scatter (fun node => some (node.daemon.getD vpidInvalid)) pool i flags.vpids := by
  induction pool generalizing i flags with
  | nil => rfl
  | cons slot pool ih =>
    cases slot with
    | none => exact ih
    | some node =>
      rw [fill, ih, scatter, store, bind_some]
      cases node.daemon with
      | none => rfl
      | some vpid => rfl

theorem fill_oversub : (Flags.fill pool i flags).oversub =
      Block.scatter (fun node => node.daemon.map fun _ => if node.oversubscribed then 1 else 0)
        pool i flags.oversub := by
  induction pool generalizing i flags with
  | nil => rfl
  | cons slot pool ih =>
    cases slot with
    | none => exact ih
    | some node =>
      rw [fill, ih, scatter, store, bind_some]
      cases node.daemon with
      | none => rfl
      | some vpid => rfl

end Flags

section Nodes

variable {keepFqdn : Bool} {mem : Memory} {pool : List (Option Node)}

/-- The arrays that `encodeNodemap` fills. -/
def flagsOf (mem : Memory) (pool : List (Option Node)) : Flags :=
  Flags.fill pool 0
    { vpids := Block.malloc mem.vpids pool.reduceOption.length
      oversub := Block.malloc mem.oversub pool.reduceOption.length }

theorem countP_isSome : pool.countP isSome = pool.reduceOption.length := by
  rw [countP_eq_length_filter, reduceOption_length_eq]

theorem encodeNodemap_eq : encodeNodemap keepFqdn mem pool =
      { buf := Packed.int32 [(pool.reduceOption.length : ℤ)] ::
          (pool.reduceOption.map fun node => Packed.string [nodeName keepFqdn node]) ++
          [Packed.vpid (flagsOf mem pool).vpids.cells,
            Packed.uint8 (flagsOf mem pool).oversub.cells]
        overrun := (flagsOf mem pool).vpids.overrun || (flagsOf mem pool).oversub.overrun } := by
  rw [encodeNodemap, countP_isSome]
  rfl

theorem encodeNodemap_inside :
    (encodeNodemap keepFqdn mem pool).overrun = false ↔ LeftJustified pool := by
  rw [encodeNodemap_eq, Bool.or_eq_false_iff, ← Bool.not_eq_true, ← Bool.not_eq_true, flagsOf,
    fill_vpids, fill_oversub, Block.overrun_scatter, Block.overrun_scatter, leftJustified_iff]
  simp only [Block.length_malloc, Nat.zero_add, Block.overrun_malloc, Bool.false_eq_true, false_or]
  constructor
  · rintro ⟨h, -⟩ i node hnode
    by_contra hle
    exact h ⟨i, node, hnode, rfl, Nat.le_of_not_lt hle⟩
  · intro h
    constructor
    · rintro ⟨i, node, hnode, -, hle⟩
      exact Nat.not_lt_of_le hle (h i node hnode)
    · rintro ⟨i, node, hnode, -, hle⟩
      exact Nat.not_lt_of_le hle (h i node hnode)

section

variable {vpids : List Vpid} {oversub : List UInt8} {i k : ℕ} {nidmap : List (Option Nid)}

theorem transferFlags_below (hk : k < i) :
    (transferFlags vpids oversub i nidmap)[k]? = nidmap[k]? := by
  induction vpids generalizing oversub i nidmap with
  | nil => rfl
  | cons vpid vpids ih =>
    cases oversub with
    | nil => rfl
    | cons flag oversub =>
      rw [transferFlags, ih (lt_succ_of_lt hk), getElem?_modify_ne]
      exact Nat.ne_of_gt hk

theorem transferFlags_at {vpid : Vpid} {flag : UInt8} {nid : Nid}
    (hvpid : vpids[k]? = some vpid) (hflag : oversub[k]? = some flag)
    (hnid : nidmap[i + k]? = some (some nid)) :
    (transferFlags vpids oversub i nidmap)[i + k]? =
      some (some { nid with daemon := vpid, oversubscribed := flag ≠ 0 }) := by
  induction vpids generalizing oversub i k nidmap with
  | nil => exact nomatch hvpid
  | cons v vpids ih =>
    cases oversub with
    | nil => exact nomatch hflag
    | cons f oversub =>
      rw [transferFlags]
      cases k with
      | zero =>
        obtain rfl : v = vpid := Option.some.inj hvpid
        obtain rfl : f = flag := Option.some.inj hflag
        rw [Nat.add_zero] at hnid
        apply (transferFlags_below (lt_succ_self i)).trans
        rw [getElem?_modify_eq, hnid]
        rfl
      | succ k =>
        have hsucc : i + (k + 1) = i + 1 + k := by omega
        rw [hsucc]
        apply ih hvpid hflag
        rw [getElem?_modify_ne, ← hsucc]
        · exact hnid
        · omega

end

theorem unpackNames_spec {names : List Name} {rest : Buffer} {i : ℕ} {nidmap : List (Option Nid)}
    (hroom : i + names.length ≤ nidmap.length) :
    ∃ named, unpackNames names.length i
        ((names.map fun name => Packed.string [name]) ++ rest) nidmap = (.ok rest, named) ∧
      (∀ k < i, named[k]? = nidmap[k]?) ∧
      ∀ k name, names[k]? = some name →
        named[i + k]? = some (some { Nid.new with name := some name }) := by
  induction names generalizing i nidmap with
  | nil =>
    refine ⟨nidmap, rfl, fun k _ => rfl, ?_⟩
    intro k name hname
    exact nomatch hname
  | cons name names ih =>
    rw [length_cons] at hroom
    obtain ⟨named, hrun, hbelow, hat⟩ :=
      @ih (i + 1) (nidmap.set i (some { Nid.new with name := some name })) (by
        rw [length_set]
        omega)
    have hunpack : unpack string? (fun _ => []) 1
        (Packed.string [name] :: ((names.map fun name => Packed.string [name]) ++ rest)) =
        .ok ([name], (names.map fun name => Packed.string [name]) ++ rest) :=
      unpack_cons rfl Nat.one_ne_zero rfl
    refine ⟨named, ?_, ?_, ?_⟩
    · rw [length_cons, map_cons, cons_append, unpackNames, hunpack]
      exact hrun
    · intro k hk
      rw [hbelow k (lt_succ_of_lt hk), getElem?_set_ne (Nat.ne_of_gt hk)]
    · intro k name' hname
      cases k with
      | zero =>
        obtain rfl : name = name' := Option.some.inj hname
        have hlt : i < nidmap.length := by omega
        exact (hbelow i (lt_succ_self i)).trans (getElem?_set_self hlt)
      | succ k =>
        have hsucc : i + (k + 1) = i + 1 + k := by omega
        rw [hsucc]
        exact hat k name' hname

theorem length_setSize {α : Type} {n : ℕ} {table : List (Option α)} :
    n ≤ (setSize n table).length := by
  rw [setSize, length_append, length_replicate]
  omega

variable {nidmap : List (Option Nid)} {i : ℕ} {node : Node}

section

variable (h : LeftJustified pool) (hnode : pool[i]? = some (some node))
include h hnode

theorem flagsOf_vpids :
    (flagsOf mem pool).vpids.cells[i]? = some (node.daemon.getD vpidInvalid) := by
  have hlt : i < pool.reduceOption.length := leftJustified_iff.1 h i node hnode
  rw [flagsOf, fill_vpids, getElem?_scatter, if_pos (Nat.zero_le i), Nat.sub_zero, hnode]
  · rfl
  · rwa [length_malloc]

theorem flagsOf_oversub : (flagsOf mem pool).oversub.cells[i]? =
      some (if node.daemon.isSome then (if node.oversubscribed then 1 else 0)
        else mem.oversub i) := by
  have hlt : i < pool.reduceOption.length := leftJustified_iff.1 h i node hnode
  rw [flagsOf, fill_oversub, getElem?_scatter, if_pos (Nat.zero_le i), Nat.sub_zero, hnode,
    getElem?_malloc hlt]
  · cases hd : node.daemon with
    | none | some vpid => simp [hd]
  · rwa [length_malloc]

/-- Without gaps in the pool a slot of `orte_nidmap` describes the node of the same slot. The flag
of a node without a daemon is what was in the memory. -/
theorem decodeNodemap_at :
    (decodeNodemap mem (encodeNodemap keepFqdn mem pool).buf nidmap).2[i]? = some (some
      { name := some (nodeName keepFqdn node)
        daemon := node.daemon.getD vpidInvalid
        oversubscribed := if node.daemon.isSome then node.oversubscribed
          else mem.oversub i ≠ 0 }) := by
  have hlt : i < pool.reduceOption.length := leftJustified_iff.1 h i node hnode
  have hne : pool.reduceOption.length ≠ 0 := Nat.ne_of_gt (Nat.lt_of_le_of_lt (Nat.zero_le i) hlt)
  have hget : pool.reduceOption[i]? = some node := by rw [h.getElem?_eq, hnode]; rfl
  obtain ⟨named, hrun, -, hat⟩ := @unpackNames_spec
    (pool.reduceOption.map (nodeName keepFqdn))
    [Packed.vpid (flagsOf mem pool).vpids.cells, Packed.uint8 (flagsOf mem pool).oversub.cells] 0
    (setSize pool.reduceOption.length (nidmap.map fun _ => none))
    (by rw [Nat.zero_add, length_map]; exact length_setSize)
  rw [length_map, List.map_map] at hrun
  have hcount : ∀ rest : Buffer, unpack int32? (fun _ => 0) 1
      (Packed.int32 [(pool.reduceOption.length : ℤ)] :: rest) =
      .ok ([(pool.reduceOption.length : ℤ)], rest) :=
    fun rest => unpack_cons rfl Nat.one_ne_zero rfl
  have hvpids : ∀ rest : Buffer, unpack vpid? mem.vpids pool.reduceOption.length
      (Packed.vpid (flagsOf mem pool).vpids.cells :: rest) =
      .ok ((flagsOf mem pool).vpids.cells, rest) := by
    intro rest
    apply unpack_cons rfl hne
    rw [flagsOf, fill_vpids, length_scatter, length_malloc]
  have hoversub : ∀ rest : Buffer, unpack uint8? mem.oversub pool.reduceOption.length
      (Packed.uint8 (flagsOf mem pool).oversub.cells :: rest) =
      .ok ((flagsOf mem pool).oversub.cells, rest) := by
    intro rest
    apply unpack_cons rfl hne
    rw [flagsOf, fill_oversub, length_scatter, length_malloc]
  have hrun' : unpackNames pool.reduceOption.length 0
      ((pool.reduceOption.map fun node => Packed.string [nodeName keepFqdn node]) ++
        [Packed.vpid (flagsOf mem pool).vpids.cells, Packed.uint8 (flagsOf mem pool).oversub.cells])
      (setSize pool.reduceOption.length (nidmap.map fun _ => none)) = (.ok
        [Packed.vpid (flagsOf mem pool).vpids.cells,
          Packed.uint8 (flagsOf mem pool).oversub.cells], named) := hrun
  have hnamed : named[0 + i]? =
      some (some { Nid.new with name := some (nodeName keepFqdn node) }) :=
    hat i _ (by rw [getElem?_map, hget]; rfl)
  have hflags := transferFlags_at (@flagsOf_vpids mem _ _ _ h hnode)
    (@flagsOf_oversub mem _ _ _ h hnode) hnamed
  rw [Nat.zero_add] at hflags
  rw [encodeNodemap_eq, decodeNodemap]
  simp only [cons_append, hcount, headD_cons, Int.toNat_natCast, hrun', hvpids, hoversub]
  rw [hflags]
  cases node.daemon with
  | none => rfl
  | some vpid => cases node.oversubscribed <;> rfl

end

end Nodes

section Arrays

variable {arrays : Arrays} {procs : List (Option Proc)} {n k : ℕ} {mem : Memory} {job : Job}
  {map : JobMap}

theorem fill_eq : Arrays.fill n procs k arrays =
    { nodes := arrays.nodes.gather (fun proc => proc.node.index) n procs k
      lrank := arrays.lrank.gather Proc.localRank n procs k
      nrank := arrays.nrank.gather Proc.nodeRank n procs k
      bindIdx := arrays.bindIdx.gather Proc.bindIdx n procs k } := by
  induction procs generalizing k arrays with
  | nil => rfl
  | cons slot procs ih =>
    cases slot with
    | none => exact ih
    | some proc =>
      rw [Arrays.fill]
      simp only [gather]
      by_cases h : n ≤ k
      · simp only [if_pos h]
      · simp only [if_neg h]
        exact ih

/-- The arrays that `encodePidmap` fills for one job. -/
def arraysOf (mem : Memory) (job : Job) : Arrays :=
  Arrays.fill job.numProcs job.procs 0 (Arrays.malloc mem job)

theorem encodeJob_inside : (encodeJob mem job map).overrun = false := by
  change (Arrays.fill _ _ _ _).overrun = false
  rw [fill_eq, Arrays.overrun]
  simp [overrun_gather, Arrays.malloc]

theorem encodeJobs_inside (jobs : List (Option Job)) : (encodeJobs mem jobs).overrun = false := by
  induction jobs with
  | nil => rfl
  | cons slot jobs ih =>
    cases slot with
    | none => exact ih
    | some job =>
      rw [encodeJobs]
      cases job.map with
      | none => exact ih
      | some map =>
        change ((encodeJob mem job map).overrun || (encodeJobs mem jobs).overrun) = false
        rw [encodeJob_inside, ih, Bool.or_false]

/-- What the decoder makes of what was packed for one job. -/
def jmapOf (mem : Memory) (job : Job) (map : JobMap) : Jmap where
  job := job.jobid
  bindLevel := map.bindLevel
  numProcs := job.numProcs
  pmap := ((arraysOf mem job).nodes.cells.zip
    ((arraysOf mem job).lrank.cells.zip (arraysOf mem job).nrank.cells)).map
      fun (node, lrank, nrank) => some (Pmap.mk node lrank nrank)

theorem encodeJob_buf : (encodeJob mem job map).buf =
    Packed.jobid [job.jobid] :: [.vpid [job.numProcs], .level [map.bindLevel],
      .int32 (arraysOf mem job).nodes.cells, .localRank (arraysOf mem job).lrank.cells,
      .nodeRank (arraysOf mem job).nrank.cells, .uint (arraysOf mem job).bindIdx.cells] := rfl

theorem length_arraysOf : (arraysOf mem job).nodes.cells.length = job.numProcs ∧
    (arraysOf mem job).lrank.cells.length = job.numProcs ∧
    (arraysOf mem job).nrank.cells.length = job.numProcs ∧
    (arraysOf mem job).bindIdx.cells.length = job.numProcs := by
  rw [arraysOf, fill_eq]
  simp [Arrays.malloc]

theorem decodeJob_eq {rest : Buffer} (hn : job.numProcs ≠ 0) :
    decodeJob mem job.jobid ((encodeJob mem job map).buf.tail ++ rest) =
      .ok (jmapOf mem job map, rest) := by
  obtain ⟨hnodes, hlrank, hnrank, hbind⟩ := @length_arraysOf mem job
  rw [encodeJob_buf, tail_cons, decodeJob, unpackArrays]
  simp only [cons_append, nil_append]
  rw [unpack_bind rfl Nat.one_ne_zero rfl]
  dsimp only [headD_cons]
  rw [unpack_bind rfl Nat.one_ne_zero rfl, unpack_bind rfl hn hnodes, unpack_bind rfl hn hlrank,
    unpack_bind rfl hn hnrank, unpack_bind rfl hn hbind]
  rfl

theorem decodeJob_zero {rest : Buffer} (hn : job.numProcs = 0) :
    decodeJob mem job.jobid ((encodeJob mem job map).buf.tail ++ rest) =
      .error .unpackInadequateSpace := by
  rw [encodeJob_buf, tail_cons, decodeJob, unpackArrays]
  simp only [cons_append, nil_append]
  rw [unpack_bind rfl Nat.one_ne_zero rfl]
  dsimp only [headD_cons]
  rw [unpack_bind rfl Nat.one_ne_zero rfl, hn]
  rfl

theorem getElem?_gathered {β : Type} {f : Proc → β} {before : ℕ → β} {i : ℕ} (hlt : i < n) :
    ((Block.malloc before n).gather f n procs 0).cells[i]? =
      some ((procs.reduceOption[i]?.map f).getD (before i)) := by
  rw [getElem?_gather (length_malloc _ _) hlt, if_pos (Nat.zero_le i),
    Nat.sub_zero, getElem?_malloc hlt, or_some]

theorem getItem_jmapOf {vpid : Vpid} (hlt : vpid < job.numProcs) :
    getItem (jmapOf mem job map).pmap vpid = some ((job.procs.reduceOption[vpid]?.map fun proc =>
        Pmap.mk proc.node.index proc.localRank proc.nodeRank).getD
          ⟨mem.nodes job.jobid vpid, mem.lrank job.jobid vpid, mem.nrank job.jobid vpid⟩) := by
  have hcell : ((arraysOf mem job).nodes.cells.zip
      ((arraysOf mem job).lrank.cells.zip (arraysOf mem job).nrank.cells))[vpid]? = some
        ((job.procs.reduceOption[vpid]?.map fun proc => proc.node.index).getD
          (mem.nodes job.jobid vpid),
        (job.procs.reduceOption[vpid]?.map Proc.localRank).getD (mem.lrank job.jobid vpid),
        (job.procs.reduceOption[vpid]?.map Proc.nodeRank).getD (mem.nrank job.jobid vpid)) := by
    rw [arraysOf, fill_eq, getElem?_zip_eq_some, getElem?_zip_eq_some]
    exact ⟨getElem?_gathered hlt, getElem?_gathered hlt, getElem?_gathered hlt⟩
  have hneg : ¬ ((vpid : ℕ) : ℤ) < 0 := by omega
  rw [getItem, if_neg hneg, Int.toNat_natCast, jmapOf, getElem?_map, hcell]
  cases job.procs.reduceOption[vpid]? with
  | none => rfl
  | some proc => rfl

theorem getItem_jmapOf_of_le {vpid : Vpid} (hle : job.numProcs ≤ vpid) :
    getItem (jmapOf mem job map).pmap vpid = none := by
  have hneg : ¬ ((vpid : ℕ) : ℤ) < 0 := by omega
  have hnone : (jmapOf mem job map).pmap[vpid]? = none := by
    apply getElem?_eq_none
    rw [jmapOf, length_map, length_zip, length_arraysOf.1]
    exact Nat.le_trans (Nat.min_le_left _ _) hle
  rw [getItem, if_neg hneg, Int.toNat_natCast, hnone]
  rfl

end Arrays

section Jobs

variable {mem : Memory} {jobs : List (Option Job)} {job : Job} {map : JobMap}

def sent (jobs : List (Option Job)) : List (Job × JobMap) :=
  jobs.reduceOption.filterMap fun job => job.map.map fun map => (job, map)

theorem encodeJobs_buf (jobs : List (Option Job)) :
    (encodeJobs mem jobs).buf = (sent jobs).flatMap fun e => (encodeJob mem e.1 e.2).buf := by
  induction jobs with
  | nil => rfl
  | cons slot jobs ih =>
    cases slot with
    | none => exact ih
    | some job =>
      rw [encodeJobs, sent, reduceOption_cons_of_some, filterMap_cons]
      cases job.map with
      | none => exact ih
      | some map => exact congrArg ((encodeJob mem job map).buf ++ ·) ih

def received (jobs : List (Option Job)) : List (Job × JobMap) :=
  (sent jobs).takeWhile fun e => e.1.numProcs ≠ 0

theorem decodeCycles_eq {js : List (Job × JobMap)} {fuel : ℕ} {jobmap : List (Option Jmap)}
    (hfuel : js.length < fuel) :
    (decodeCycles mem fuel (js.flatMap fun e => (encodeJob mem e.1 e.2).buf) jobmap).2 =
      ((js.takeWhile fun e => e.1.numProcs ≠ 0).map fun e => jmapOf mem e.1 e.2).foldl
        storeJmap jobmap := by
  induction js generalizing fuel jobmap with
  | nil =>
    obtain ⟨fuel, rfl⟩ := exists_eq_succ_of_ne_zero (Nat.ne_of_gt hfuel)
    rfl
  | cons e js ih =>
    obtain ⟨job, map⟩ := e
    obtain ⟨fuel, rfl⟩ := exists_eq_succ_of_ne_zero (Nat.ne_of_gt (zero_lt_of_lt hfuel))
    have hjobid : ∀ rest : Buffer, unpack jobid? (fun _ => 0) 1
        ((encodeJob mem job map).buf ++ rest) =
        .ok ([job.jobid], (encodeJob mem job map).buf.tail ++ rest) := by
      intro rest
      rw [encodeJob_buf]
      exact unpack_cons rfl Nat.one_ne_zero rfl
    rw [flatMap_cons, decodeCycles, hjobid, takeWhile_cons]
    by_cases hn : job.numProcs = 0
    · simp only [headD_cons, decodeJob_zero hn, hn]
      rfl
    · simp only [headD_cons, decodeJob_eq hn]
      rw [ih (lt_of_succ_lt_succ hfuel), if_pos (decide_eq_true hn)]
      rfl

theorem decodePidmap_eq {jobmap : List (Option Jmap)} :
    (decodePidmap mem (encodePidmap mem jobs).buf jobmap).2 =
      ((received (jobs.drop 1)).map fun e => jmapOf mem e.1 e.2).foldl storeJmap jobmap := by
  rw [decodePidmap, encodePidmap, encodeJobs_buf]
  apply decodeCycles_eq
  have hlen : ∀ js : List (Job × JobMap),
      js.length ≤ (js.flatMap fun e => (encodeJob mem e.1 e.2).buf).length := by
    intro js
    induction js with
    | nil => exact Nat.le_refl _
    | cons e js ih =>
      rw [flatMap_cons, length_append, length_cons, encodeJob_buf]
      rw [length_cons]
      omega
  exact lt_succ_of_le (hlen _)

theorem mem_received {jobs : List (Option Job)} :
    (job, map) ∈ received jobs ↔ ∃ j : ℕ, jobs[j]? = some (some job) ∧ job.map = some map ∧
      job.numProcs ≠ 0 ∧ ∀ i < j, ∀ before, jobs[i]? = some (some before) → before.map.isSome →
        before.numProcs ≠ 0 := by
  induction jobs with
  | nil =>
    constructor
    · intro h
      exact nomatch h
    · rintro ⟨j, hj, -⟩
      exact nomatch hj
  | cons slot jobs ih =>
    -- what is ahead of a slot that stops nothing
    have hahead : (∀ head, slot = some head → head.map.isSome → head.numProcs ≠ 0) →
        (∀ head, slot = some head → head.map = some map → head ≠ job) →
        ((job, map) ∈ received jobs ↔ ∃ j : ℕ, (slot :: jobs)[j]? = some (some job) ∧
          job.map = some map ∧ job.numProcs ≠ 0 ∧ ∀ i < j, ∀ before,
            (slot :: jobs)[i]? = some (some before) → before.map.isSome → before.numProcs ≠ 0) := by
      intro hpass hother
      rw [ih]
      constructor
      · rintro ⟨j, hj, hmap, hn, hbefore⟩
        refine ⟨j + 1, hj, hmap, hn, ?_⟩
        intro i hi before hget
        cases i with
        | zero => exact hpass before (Option.some.inj hget)
        | succ i => exact hbefore i (lt_of_succ_lt_succ hi) before hget
      · rintro ⟨j, hj, hmap, hn, hbefore⟩
        cases j with
        | zero => exact absurd rfl (hother job (Option.some.inj hj) hmap)
        | succ j =>
          refine ⟨j, hj, hmap, hn, ?_⟩
          intro i hi before hget
          exact hbefore (i + 1) (succ_lt_succ hi) before hget
    cases slot with
    | none => exact hahead (fun _ h => nomatch h) fun _ h => nomatch h
    | some head =>
      cases hmap : head.map with
      | none =>
        have hrec : received (some head :: jobs) = received jobs := by
          rw [received, sent, reduceOption_cons_of_some, filterMap_cons, hmap]
          rfl
        rw [hrec]
        apply hahead
        · intro x hx h
          rw [← Option.some.inj hx, hmap] at h
          exact nomatch h
        · intro x hx h
          rw [← Option.some.inj hx, hmap] at h
          exact nomatch h
      | some m =>
        have hrec : received (some head :: jobs) =
            if head.numProcs = 0 then [] else (head, m) :: received jobs := by
          rw [received, sent, reduceOption_cons_of_some, filterMap_cons, hmap]
          change List.takeWhile _ ((head, m) :: sent jobs) = _
          rw [takeWhile_cons]
          by_cases hn : head.numProcs = 0
          · simp [hn]
          · simp [hn, received]
        rw [hrec]
        by_cases hn : head.numProcs = 0
        · rw [if_pos hn]
          constructor
          · intro h
            exact nomatch h
          · rintro ⟨j, hj, -, hne, hbefore⟩
            cases j with
            | zero =>
              obtain rfl : head = job := Option.some.inj (Option.some.inj hj)
              exact absurd hn hne
            | succ j => exact absurd hn (hbefore 0 (succ_pos j) head rfl (by rw [hmap]; rfl))
        · rw [if_neg hn, mem_cons]
          by_cases hhead : head = job ∧ m = map
          · obtain ⟨rfl, rfl⟩ := hhead
            refine iff_of_true (.inl rfl) ⟨0, rfl, hmap, hn, ?_⟩
            intro i hi
            exact absurd hi (Nat.not_lt_zero i)
          · have hne : (job, map) ≠ (head, m) := by
              intro h
              exact hhead ⟨congrArg Prod.fst h.symm, congrArg Prod.snd h.symm⟩
            rw [or_iff_right hne]
            apply hahead
            · intro x hx _
              exact Option.some.inj hx ▸ hn
            · intro x hx h hjob
              obtain rfl := Option.some.inj hx
              exact hhead ⟨hjob, Option.some.inj (hmap.symm.trans h)⟩

end Jobs

section Lookups

variable {jobmap : List (Option Jmap)} {jmap : Jmap} {jobid : JobId} {vpid : Vpid}

theorem getItem_setSize {α : Type} {n : ℕ} {table : List (Option α)} (i : ℤ) :
    getItem (setSize n table) i = getItem table i := by
  unfold getItem
  split_ifs
  · rfl
  · rw [setSize]
    by_cases hi : i.toNat < table.length
    · rw [getElem?_append_left hi]
    · rw [getElem?_append_right (Nat.le_of_not_lt hi), getElem?_replicate,
        getElem?_eq_none (Nat.le_of_not_lt hi)]
      split_ifs
      · rfl
      · rfl

theorem lookupJmap_none : lookupJmap (none :: jobmap) jobid = lookupJmap jobmap jobid := by
  rw [lookupJmap, reduceOption_cons_of_none]
  rfl

theorem lookupJmap_some : lookupJmap (some jmap :: jobmap) jobid =
    if jmap.job = jobid then some jmap else lookupJmap jobmap jobid := by
  rw [lookupJmap, reduceOption_cons_of_some, find?_cons]
  by_cases h : jmap.job = jobid
  · simp [h]
  · simp [h, lookupJmap]

theorem lookup_refresh (h : alreadyPresent jmap.job jobmap = true) :
    lookupPmap (refresh jmap jobmap) jobid vpid =
      if jobid = jmap.job then getItem jmap.pmap vpid else lookupPmap jobmap jobid vpid := by
  induction jobmap with
  | nil => exact nomatch h
  | cons slot jobmap ih =>
    cases slot with
    | none =>
      rw [refresh, lookupPmap, lookupPmap, lookupJmap_none, lookupJmap_none]
      exact ih h
    | some old =>
      rw [refresh]
      by_cases hold : old.job = jmap.job
      · rw [if_pos hold, lookupPmap, lookupPmap, lookupJmap_some, lookupJmap_some, hold]
        by_cases hid : jmap.job = jobid
        · rw [if_pos hid, if_pos hid.symm]
          exact getItem_setSize _
        · rw [if_neg hid, if_neg (Ne.symm hid), if_neg hid]
      · have htail : alreadyPresent jmap.job jobmap = true := by
          simpa [alreadyPresent, hold] using h
        rw [if_neg hold, lookupPmap, lookupPmap, lookupJmap_some, lookupJmap_some]
        by_cases hid : old.job = jobid
        · rw [if_pos hid, if_pos hid, if_neg]
          rintro rfl
          exact hold hid
        · rw [if_neg hid, if_neg hid]
          exact ih htail

theorem lookup_addJmap (h : alreadyPresent jmap.job jobmap = false) :
    lookupPmap (addJmap jmap jobmap) jobid vpid =
      if jobid = jmap.job then getItem jmap.pmap vpid else lookupPmap jobmap jobid vpid := by
  induction jobmap with
  | nil =>
    rw [addJmap, lookupPmap, lookupJmap_some]
    by_cases hid : jmap.job = jobid
    · rw [if_pos hid, if_pos hid.symm]
      rfl
    · rw [if_neg hid, if_neg (Ne.symm hid)]
      rfl
  | cons slot jobmap ih =>
    cases slot with
    | none =>
      rw [addJmap, lookupPmap, lookupPmap, lookupJmap_some, lookupJmap_none]
      by_cases hid : jmap.job = jobid
      · rw [if_pos hid, if_pos hid.symm]
        rfl
      · rw [if_neg hid, if_neg (Ne.symm hid)]
    | some old =>
      have hboth : old.job ≠ jmap.job ∧ alreadyPresent jmap.job jobmap = false := by
        simpa [alreadyPresent] using h
      rw [addJmap, lookupPmap, lookupPmap, lookupJmap_some, lookupJmap_some]
      by_cases hid : old.job = jobid
      · rw [if_pos hid, if_pos hid, if_neg]
        rintro rfl
        exact hboth.1 hid
      · rw [if_neg hid, if_neg hid]
        exact ih hboth.2

theorem lookup_storeJmap : lookupPmap (storeJmap jobmap jmap) jobid vpid =
      if jobid = jmap.job then getItem jmap.pmap vpid else lookupPmap jobmap jobid vpid := by
  rw [storeJmap]
  by_cases h : alreadyPresent jmap.job jobmap = true
  · rw [if_pos h]
    exact lookup_refresh h
  · rw [if_neg h]
    exact lookup_addJmap (Bool.eq_false_iff.2 h)

theorem lookup_foldl_of_notMem {stored : List Jmap} (h : ∀ jmap ∈ stored, jmap.job ≠ jobid) :
    lookupPmap (stored.foldl storeJmap jobmap) jobid vpid = lookupPmap jobmap jobid vpid := by
  induction stored generalizing jobmap with
  | nil => rfl
  | cons jmap stored ih =>
    rw [foldl_cons, ih fun x hx => h x (mem_cons_of_mem _ hx), lookup_storeJmap,
      if_neg (Ne.symm (h jmap mem_cons_self))]

theorem lookup_foldl_of_mem {stored : List Jmap} (hnodup : (stored.map Jmap.job).Nodup)
    (h : jmap ∈ stored) :
    lookupPmap (stored.foldl storeJmap jobmap) jmap.job vpid = getItem jmap.pmap vpid := by
  induction stored generalizing jobmap with
  | nil => exact nomatch h
  | cons x stored ih =>
    rw [map_cons, nodup_cons] at hnodup
    rw [foldl_cons]
    rcases mem_cons.1 h with rfl | h
    · rw [lookup_foldl_of_notMem, lookup_storeJmap, if_pos rfl]
      intro y hy heq
      exact hnodup.1 (heq ▸ List.mem_map_of_mem hy)
    · exact ih hnodup.2 h

end Lookups

namespace Tables

variable {t : Tables} {mem : Memory} {keepFqdn : Bool} {nidmap : List (Option Nid)}
  {jobmap : List (Option Jmap)} {job : Job} {map : JobMap} {vpid : Vpid} {proc : Proc}

theorem received_sublist (jobs : List (Option Job)) :
    ((received jobs).map fun e => e.1.jobid).Sublist (jobs.reduceOption.map Job.jobid) := by
  have hsent : ∀ js : List Job,
      ((js.filterMap fun job => job.map.map fun map => (job, map)).map fun e => e.1.jobid).Sublist
        (js.map Job.jobid) := by
    intro js
    induction js with
    | nil => exact List.Sublist.slnil
    | cons job js ih =>
      rw [filterMap_cons]
      cases job.map with
      | none => exact ih.cons _
      | some map => exact ih.cons_cons _
  exact ((takeWhile_sublist _).map _).trans (hsent _)

theorem lookup_received (h : (job, map) ∈ received (t.jobs.drop 1)) :
    lookupPmap (decodePidmap mem (encodePidmap mem t.jobs).buf jobmap).2 job.jobid vpid =
      getItem (jmapOf mem job map).pmap vpid := by
  have hnodup :
      (((received (t.jobs.drop 1)).map fun e => jmapOf mem e.1 e.2).map Jmap.job).Nodup := by
    rw [List.map_map]
    exact (received_sublist _).nodup t.distinct
  rw [decodePidmap_eq]
  exact @lookup_foldl_of_mem jobmap (jmapOf mem job map) vpid _ hnodup
    (List.mem_map.2 ⟨(job, map), h, rfl⟩)

theorem lookup_of_notMem (hjob : some job ∈ t.jobs.drop 1)
    (h : ∀ map, (job, map) ∉ received (t.jobs.drop 1)) :
    lookupPmap (decodePidmap mem (encodePidmap mem t.jobs).buf jobmap).2 job.jobid vpid =
      lookupPmap jobmap job.jobid vpid := by
  rw [decodePidmap_eq]
  apply lookup_foldl_of_notMem
  intro jmap hjmap heq
  obtain ⟨⟨other, m⟩, hother, rfl⟩ := List.mem_map.1 hjmap
  obtain ⟨j, hj, -⟩ := mem_received.1 hother
  have hsame : other = job := by
    apply inj_on_of_nodup_map t.distinct _ _ heq
    · exact reduceOption_mem_iff.2 (mem_of_getElem? hj)
    · exact reduceOption_mem_iff.2 hjob
  exact h m (hsame ▸ hother)

theorem slot_unique {i j : ℕ} (hi : (t.jobs.drop 1)[i]? = some (some job))
    (hj : (t.jobs.drop 1)[j]? = some (some job)) : i = j := by
  have hpair := pairwise_filterMap.1 (pairwise_map.1 t.distinct)
  rw [pairwise_iff_getElem] at hpair
  obtain ⟨hil, hi⟩ := List.getElem?_eq_some_iff.1 hi
  obtain ⟨hjl, hj⟩ := List.getElem?_eq_some_iff.1 hj
  rcases Nat.lt_trichotomy i j with h | h | h
  · exact absurd rfl (hpair i j hil hjl h job hi job hj)
  · exact h
  · exact absurd rfl (hpair j i hjl hil h job hj job hi)

theorem getItem_natCast {α : Type} {table : List (Option α)} (i : ℕ) :
    getItem table (i : ℤ) = table[i]?.join := by
  have hneg : ¬ (i : ℤ) < 0 := by omega
  rw [getItem, if_neg hneg, Int.toNat_natCast]

theorem slot_of_placed {α : Type} {table : List (Option α)} {i : ℤ} {a : α}
    (h : getItem table i = some a) : ∃ k : ℕ, i = k ∧ table[k]? = some (some a) := by
  unfold getItem at h
  split_ifs at h with hneg
  exact ⟨i.toNat, by omega, join_eq_some_iff.1 h⟩

theorem leads_of_dense (h : Dense keepFqdn t) (hjob : some job ∈ t.jobs.drop 1)
    (hproc : job.procs[vpid]? = some (some proc)) :
    Leads (decodeNodemap mem (encodeNodemap keepFqdn mem t.pool).buf nidmap).2
      (decodePidmap mem (encodePidmap mem t.jobs).buf jobmap).2 job.jobid vpid proc := by
  have hmem : some proc ∈ job.procs := mem_of_getElem? hproc
  have hne : job.procs.reduceOption ≠ [] := ne_nil_of_mem (reduceOption_mem_iff.2 hmem)
  have hget : job.procs.reduceOption[vpid]? = some proc := by
    rw [(h.procs job hjob).getElem?_eq, hproc]
    rfl
  have hlt : vpid < job.numProcs :=
    Nat.lt_of_lt_of_le (List.getElem?_eq_some_iff.1 hget).1 (h.counted job hjob)
  obtain ⟨map, hmap⟩ := isSome_iff_exists.1 (h.mapped job hjob hne)
  obtain ⟨j, hj⟩ := mem_iff_getElem?.1 hjob
  have hreceived : (job, map) ∈ received (t.jobs.drop 1) :=
    mem_received.2 ⟨j, hj, hmap, Nat.ne_of_gt (zero_lt_of_lt hlt), fun i hi before hb hm =>
      h.started i j before job hi hb hj hm hne⟩
  obtain ⟨k, hk, hnode⟩ := slot_of_placed (t.placed job hjob proc hmem)
  obtain ⟨hdaemon, hname⟩ := h.hosted job hjob proc hmem
  have hfull : nodeName keepFqdn proc.node = proc.node.name := by
    rw [nodeName]
    rcases hname with hkeep | hdot
    · rw [if_pos hkeep]
    · split_ifs
      · rfl
      · rw [takeWhile_eq_self_iff]
        intro c hc
        exact decide_eq_true fun heq => hdot (heq ▸ hc)
  refine ⟨⟨⟨proc.node.index, proc.localRank, proc.nodeRank⟩, ?_, rfl, rfl, ?_⟩⟩
  · rw [lookup_received hreceived, getItem_jmapOf hlt, hget]
    rfl
  · change getItem _ proc.node.index = _
    rw [hk, getItem_natCast, decodeNodemap_at h.pool hnode, hfull, if_pos hdaemon]
    rfl

/-- The memory that shows what is not stored: no node has the index `-1`. -/
def poison (flag : UInt8) : Memory where
  vpids _ := 0
  oversub _ := flag
  nodes _ _ := -1
  lrank _ _ := 0
  nrank _ _ := 0
  bindIdx _ _ := 0

theorem inside_of_leads {flag : UInt8} {nids : List (Option Nid)} (hjob : some job ∈ t.jobs.drop 1)
    (h : Leads nids (decodePidmap (poison flag) (encodePidmap (poison flag) t.jobs).buf []).2
      job.jobid vpid proc) :
    ∃ map, (job, map) ∈ received (t.jobs.drop 1) ∧ vpid < job.numProcs ∧
      vpid < job.procs.reduceOption.length := by
  obtain ⟨pmap, hlookup, -, -, hnid⟩ := h.entry
  by_cases hreceived : ∃ map, (job, map) ∈ received (t.jobs.drop 1)
  · obtain ⟨map, hmap⟩ := hreceived
    rw [lookup_received hmap] at hlookup
    have hlt : vpid < job.numProcs := by
      by_contra hle
      rw [getItem_jmapOf_of_le (Nat.le_of_not_lt hle)] at hlookup
      exact nomatch hlookup
    refine ⟨map, hmap, hlt, ?_⟩
    by_contra hle
    rw [getItem_jmapOf hlt, getElem?_eq_none (Nat.le_of_not_lt hle)] at hlookup
    rw [← Option.some.inj hlookup] at hnid
    exact nomatch hnid
  · rw [lookup_of_notMem hjob (not_exists.1 hreceived)] at hlookup
    exact nomatch hlookup

/-- The maps lead every process to its node exactly if the tables have no gaps: the stores by the
index of the slot and those by the count agree then. -/
theorem restores_iff (keepFqdn : Bool) (t : Tables) : Restores keepFqdn t ↔ Dense keepFqdn t := by
  constructor
  · intro h
    have hpool : LeftJustified t.pool := encodeNodemap_inside.1 (h (poison 0) [] []).1
    have hinside : ∀ job, some job ∈ t.jobs.drop 1 → ∀ vpid proc,
        job.procs[vpid]? = some (some proc) → ∃ map, (job, map) ∈ received (t.jobs.drop 1) ∧
          vpid < job.numProcs ∧ vpid < job.procs.reduceOption.length :=
      fun job hjob vpid proc hproc =>
        inside_of_leads hjob ((h (poison 0) [] []).2.2 job hjob vpid proc hproc)
    have hprocs : ∀ job, some job ∈ t.jobs.drop 1 → LeftJustified job.procs := by
      intro job hjob
      apply leftJustified_iff.2
      intro vpid proc hproc
      obtain ⟨-, -, -, hlt⟩ := hinside job hjob vpid proc hproc
      exact hlt
    have hsome : ∀ job : Job, job.procs.reduceOption ≠ [] →
        ∃ (vpid : ℕ) (proc : Proc), job.procs[vpid]? = some (some proc) := by
      intro job hne
      obtain ⟨proc, hproc⟩ := exists_mem_of_ne_nil _ hne
      obtain ⟨vpid, hvpid⟩ := mem_iff_getElem?.1 (reduceOption_mem_iff.1 hproc)
      exact ⟨vpid, proc, hvpid⟩
    constructor
    · exact hpool
    · exact hprocs
    · intro job hjob
      by_contra hlt
      obtain ⟨proc, hproc⟩ : ∃ proc, job.procs.reduceOption[job.numProcs]? = some proc :=
        ⟨_, getElem?_eq_getElem (Nat.lt_of_not_le hlt)⟩
      rw [(hprocs job hjob).getElem?_eq] at hproc
      obtain ⟨-, -, hself, -⟩ := hinside job hjob _ proc (join_eq_some_iff.1 hproc)
      exact Nat.lt_irrefl _ hself
    · intro job hjob hne
      obtain ⟨vpid, proc, hproc⟩ := hsome job hne
      obtain ⟨map, hreceived, -⟩ := hinside job hjob vpid proc hproc
      obtain ⟨-, -, hmap, -⟩ := mem_received.1 hreceived
      rw [hmap]
      rfl
    · intro i j job job' hij hi hj hmap hne
      obtain ⟨vpid, proc, hproc⟩ := hsome job' hne
      obtain ⟨map, hreceived, -⟩ := hinside job' (mem_of_getElem? hj) vpid proc hproc
      obtain ⟨k, hk, -, -, hbefore⟩ := mem_received.1 hreceived
      obtain rfl := slot_unique hk hj
      exact hbefore i hij job hi hmap
    · intro job hjob proc hmem
      obtain ⟨vpid, hproc⟩ := mem_iff_getElem?.1 hmem
      -- the memory has the other flag
      let mem := poison (if proc.node.oversubscribed then 0 else 1)
      obtain ⟨pmap, hlookup, -, -, hnid⟩ := ((h mem [] []).2.2 job hjob vpid proc hproc).entry
      obtain ⟨map, hreceived, hlt, -⟩ := hinside job hjob vpid proc hproc
      have hget : job.procs.reduceOption[vpid]? = some proc := by
        rw [(hprocs job hjob).getElem?_eq, hproc]
        rfl
      rw [lookup_received hreceived, getItem_jmapOf hlt, hget] at hlookup
      obtain ⟨k, hk, hnode⟩ := slot_of_placed (t.placed job hjob proc hmem)
      rw [← Option.some.inj hlookup] at hnid
      change getItem _ proc.node.index = _ at hnid
      rw [hk, getItem_natCast, decodeNodemap_at hpool hnode] at hnid
      have hsame := Option.some.inj hnid
      constructor
      · cases hd : proc.node.daemon with
        | some daemon => rfl
        | none =>
          have hflag := congrArg Nid.oversubscribed hsame
          rw [hd] at hflag
          cases ho : proc.node.oversubscribed with
          | false | true => simp [mem, poison, ho] at hflag
      · have hname := Option.some.inj (congrArg Nid.name hsame)
        rw [nodeName] at hname
        split_ifs at hname with hkeep
        · exact .inl hkeep
        · right
          intro hdot
          have := takeWhile_eq_self_iff.1 hname '.' hdot
          simp at this
  · intro h mem nidmap jobmap
    refine ⟨encodeNodemap_inside.2 h.pool, encodeJobs_inside _, ?_⟩
    intro job hjob vpid proc hproc
    exact leads_of_dense h hjob hproc

/-- The head node, an empty slot and a node with the only process. -/
def gappedPool : Tables where
  pool := [some ⟨['h'], 0, some 0, false⟩, none, some ⟨['n'], 2, some 1, false⟩]
  jobs := [none, some
    { jobid := 1, numProcs := 1, map := some ⟨0⟩
      procs := [some ⟨⟨['n'], 2, some 1, false⟩, 0, 0, 0⟩] }]
  placed := by
    intro job hjob proc hproc
    obtain rfl := Option.some.inj (mem_singleton.1 hjob)
    obtain rfl := Option.some.inj (mem_singleton.1 hproc)
    decide
  distinct := by decide

/-- The vpid of the last daemon is stored behind the array, and process 0 is sent to a slot of
`orte_nidmap` that is not there. -/
theorem gappedPool_not_restored : ¬ ∀ keepFqdn t, Restores keepFqdn t := by
  intro h
  have hover : (encodeNodemap true (poison 0) gappedPool.pool).overrun = true := by decide
  rw [(h true gappedPool (poison 0) [] []).1] at hover
  cases hover

end Tables

end Ulfm.Nidmap
