import Ulfm.Foundation.TreeRouting

/-!
# Routes of the daemons

The tree components of the routed framework look up routes alike. What is left to them is the search
for the daemon that hosts the target.
-/

namespace Ulfm

open List

namespace Routed

/-- `orte_process_name_t`. -/
structure Name where
  jobid : ℕ
  vpid : ℕ
  epoch : ℕ
deriving DecidableEq

/-- `UINT32_MAX`, which is the invalid value of all the fields. -/
def invalid : ℕ := 2 ^ 32 - 1

def wildcard : ℕ := 2 ^ 32 - 2

/-- `ORTE_JOB_FAMILY`. -/
def jobFamily (jobid : ℕ) : ℕ := (jobid >>> 16) &&& 0x0000ffff

/-- `opal_dss.compare` of two names gives `OPAL_EQUAL`. -/
def SameField (a b : ℕ) : Prop := a = wildcard ∨ b = wildcard ∨ a = b

instance (a b : ℕ) : Decidable (SameField a b) := inferInstanceAs (Decidable (_ ∨ _ ∨ _))

def SameName (a b : Name) : Prop :=
  SameField a.jobid b.jobid ∧ SameField a.vpid b.vpid ∧ SameField a.epoch b.epoch

instance (a b : Name) : Decidable (SameName a b) := inferInstanceAs (Decidable (_ ∧ _ ∧ _))

inductive Role where
  | app
  | tool
  | daemon
  | hnp
deriving DecidableEq

structure Local where
  routingIsEnabled : Bool
  role : Role
  myName : Name
  myDaemon : Name
  myHnp : Name
  myParent : Name
  hnpDirect : Bool
  staticPorts : Bool
  jobfams : List (ℕ × Name)
  procGetDaemon : Name → Option ℕ
  procGetEpoch : Name → ℕ

/-- A route that is known at once, or a daemon that has to be searched for. -/
inductive Lookup where
  | found (route : Option Name)
  | search (daemon : Name)
deriving DecidableEq

namespace Local

variable (l : Local)

/-- The part of `get_route` that does not depend on the tree. `ORTE_NAME_INVALID` is `none`. The
comparison of an unsigned epoch with `0` never fails. -/
def lookup (target : Name) : Lookup :=
  if !l.routingIsEnabled then .found (some target)
  else if target.jobid = invalid ∨ target.vpid = invalid ∨ target.epoch = invalid then .found none
  else if SameName l.myName target then .found (some target)
  else
    match l.role with
    | .app => .found (some l.myDaemon)
    | .tool =>
      if jobFamily target.jobid = jobFamily l.myName.jobid then .found (some target)
      else .found (some { l.myDaemon with jobid := target.jobid &&& 0xffff0000, vpid := 0 })
    | role =>
      if jobFamily target.jobid ≠ jobFamily l.myName.jobid then
        if role = .daemon then .found (some l.myHnp)
        else .found ((l.jobfams.find? (·.1 = jobFamily target.jobid)).map (·.2))
      else if l.myHnp = target then
        .found (some (if !l.hnpDirect || l.staticPorts then l.myParent else l.myHnp))
      else
        match l.procGetDaemon target with
        | none => .found none
        | some vpid =>
          if l.myName.vpid = vpid then .found (some target)
          else .search ⟨l.myName.jobid, vpid, l.myDaemon.epoch⟩

def withVpid (daemon : Name) (vpid : ℕ) : Name :=
  ⟨daemon.jobid, vpid, l.procGetEpoch { daemon with vpid := vpid }⟩

end Local

/-- `orte_routed_tree_t`: a child and the daemons below it. -/
structure Child where
  vpid : ℕ
  relatives : List ℕ
deriving DecidableEq

/-- The search of `get_route` in the tree. -/
def Local.searchTree (l : Local) (daemon : Name) : List Child → Name
  | [] => l.withVpid daemon l.myParent.vpid
  | child :: rest =>
    if child.vpid = daemon.vpid then daemon
    else if daemon.vpid ∈ child.relatives then l.withVpid daemon child.vpid
    else searchTree l daemon rest

theorem Local.searchTree_cases (l : Local) (daemon : Name) (cs : List Child) :
    (∃ c ∈ cs, (c.vpid = daemon.vpid ∨ daemon.vpid ∈ c.relatives) ∧
      (l.searchTree daemon cs).vpid = c.vpid) ∨
    ((∀ c ∈ cs, c.vpid ≠ daemon.vpid ∧ daemon.vpid ∉ c.relatives) ∧
      (l.searchTree daemon cs).vpid = l.myParent.vpid) := by
  induction cs with
  | nil => exact .inr ⟨fun c hc => absurd hc not_mem_nil, rfl⟩
  | cons child rest ih =>
    rw [searchTree]
    by_cases heq : child.vpid = daemon.vpid
    · rw [if_pos heq]
      exact .inl ⟨child, mem_cons_self, .inl heq, heq.symm⟩
    · rw [if_neg heq]
      by_cases hmem : daemon.vpid ∈ child.relatives
      · rw [if_pos hmem]
        exact .inl ⟨child, mem_cons_self, .inr hmem, rfl⟩
      · rw [if_neg hmem]
        rcases ih with ⟨c, hc, hcases, hvpid⟩ | ⟨hnone, hvpid⟩
        · exact .inl ⟨c, mem_cons_of_mem _ hc, hcases, hvpid⟩
        · exact .inr ⟨forall_mem_cons.2 ⟨⟨heq, hmem⟩, hnone⟩, hvpid⟩

structure IsJob (n jobid : ℕ) (loc : ℕ → Local) : Prop where
  enabled : ∀ v < n, (loc v).routingIsEnabled = true
  role_zero : (loc 0).role = .hnp
  role : ∀ v < n, v ≠ 0 → (loc v).role = .daemon
  jobid_eq : ∀ v < n, (loc v).myName.jobid = jobid
  vpid_eq : ∀ v < n, (loc v).myName.vpid = v
  hnp_eq : ∀ v < n, (loc v).myHnp.jobid = jobid ∧ (loc v).myHnp.vpid = 0
  hnp_self : (loc 0).myHnp = (loc 0).myName
  jobid_ne : jobid ≠ wildcard
  le_wildcard : n ≤ wildcard

/-- A process of the job family that is hosted by the daemon `d`. A daemon is hosted by itself. -/
structure Hosted (n jobid : ℕ) (loc : ℕ → Local) (target : Name) (d : ℕ) : Prop where
  lt : d < n
  valid : target.jobid ≠ invalid ∧ target.vpid ≠ invalid ∧ target.epoch ≠ invalid
  single : target.jobid ≠ wildcard ∧ target.vpid ≠ wildcard
  family : jobFamily target.jobid = jobFamily jobid
  daemon : ∀ v < n, (loc v).procGetDaemon target = some d
  self : target.jobid = jobid → target.vpid = d

section Job

variable {n jobid d v : ℕ} {loc : ℕ → Local} {target : Name}

theorem IsJob.lookup_eq (h : IsJob n jobid loc) (ht : Hosted n jobid loc target d) (hv : v < n) :
    (loc v).lookup target = if v = d then .found (some target) else if (loc v).myHnp = target then
        .found (some (if !(loc v).hnpDirect || (loc v).staticPorts then (loc v).myParent
          else (loc v).myHnp))
      else .search ⟨jobid, d, (loc v).myDaemon.epoch⟩ := by
  have hfield {a b : ℕ} (ha : a ≠ wildcard) (hb : b ≠ wildcard) : SameField a b ↔ a = b := by
    rw [SameField]
    tauto
  have hsame : SameName (loc v).myName target → v = d := by
    rintro ⟨hjobid, hvpid, -⟩
    have hlt : v ≠ wildcard := (hv.trans_le h.le_wildcard).ne
    rw [h.jobid_eq v hv, hfield h.jobid_ne ht.single.1] at hjobid
    rw [h.vpid_eq v hv, hfield hlt ht.single.2] at hvpid
    rw [hvpid, ht.self hjobid.symm]
  have hhnp : (loc v).myHnp = target → v = d → SameName (loc v).myName target := by
    rintro rfl rfl
    have hzero : v = 0 := by rw [← ht.self (h.hnp_eq v hv).1, (h.hnp_eq v hv).2]
    subst hzero
    rw [h.hnp_self]
    exact ⟨.inr (.inr rfl), .inr (.inr rfl), .inr (.inr rfl)⟩
  have hvalid : ¬(target.jobid = invalid ∨ target.vpid = invalid ∨ target.epoch = invalid) := by
    obtain ⟨h₁, h₂, h₃⟩ := ht.valid
    rintro (h | h | h)
    · exact h₁ h
    · exact h₂ h
    · exact h₃ h
  have hrole : (loc v).role = .daemon ∨ (loc v).role = .hnp := by
    by_cases hzero : v = 0
    · rw [hzero]
      exact .inr h.role_zero
    · exact .inl (h.role v hv hzero)
  have hrest : (loc v).lookup target = if SameName (loc v).myName target then .found (some target)
      else if (loc v).myHnp = target then
        .found (some (if !(loc v).hnpDirect || (loc v).staticPorts then (loc v).myParent
          else (loc v).myHnp))
      else if v = d then .found (some target)
      else .search ⟨jobid, d, (loc v).myDaemon.epoch⟩ := by
    rcases hrole with hrole | hrole
    all_goals
      simp only [Local.lookup, h.enabled v hv, hrole, hvalid, ht.family, h.jobid_eq v hv,
        h.vpid_eq v hv, ht.daemon v hv, Bool.not_true, ne_eq, not_true, if_false,
        Bool.false_eq_true]
  rw [hrest]
  by_cases hvd : v = d
  · rw [if_pos hvd, if_pos hvd]
    by_cases hname : SameName (loc v).myName target
    · rw [if_pos hname]
    · rw [if_neg hname, if_neg (fun heq => hname (hhnp heq hvd))]
  · rw [if_neg (fun hs => hvd (hsame hs)), if_neg hvd, if_neg hvd]

end Job

end Routed

end Ulfm
