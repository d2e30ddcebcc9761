import Ulfm.Foundation.Buckets
import Ulfm.Opal.HashTable
import Ulfm.Tuned.Binomial

/-!
# The hash table as a finite map

The nodes of the table, bucket by bucket, are an association list without repetitions. Every
operation changes it as an operation of a finite map does, and the iteration goes through it
in order.
-/

namespace Ulfm.Opal

open List Option Function Nat

namespace HashTable

variable {κ ν : Type} [DecidableEq κ] {kind : KeyKind κ} {ht ht' : HashTable κ ν} {key k : κ}
  {value v : ν} {list : List (HashNode κ ν)} {node : HashNode κ ν} {i b : ℕ}

def entries (ht : HashTable κ ν) : List (HashNode κ ν) := ht.table.flatten

section Search

theorem search_eq_some (h : search list key = some i) :
    ∃ node l₁ l₂, node.key = key ∧ list[i]? = some node ∧ list = l₁ ++ node :: l₂ ∧
      (∀ f, list.modify i f = l₁ ++ f node :: l₂) ∧ list.eraseIdx i = l₁ ++ l₂ := by
  obtain ⟨-, ⟨node, hget, hkey⟩, -⟩ := scanFrom_eq_some_iff.1 h
  obtain ⟨l₁, l₂, hlist, -, hmodify, herase⟩ := exists_split hget
  exact ⟨node, l₁, l₂, of_decide_eq_true hkey, hget, hlist, hmodify, herase⟩

theorem search_eq_none (h : search list key = none) : ∀ node ∈ list, node.key ≠ key := by
  intro node hnode hkey
  obtain ⟨i, hi⟩ := mem_iff_getElem?.1 hnode
  exact scanFrom_eq_none_iff.1 h i (Nat.zero_le i) ⟨node, hi, decide_eq_true hkey⟩

end Search

/-- Nodes stand in the bucket of their key, keys and addresses are not repeated, and nodes are
counted. -/
structure Filed (kind : KeyKind κ) (ht : HashTable κ ν) : Prop where
  mask : ht.mask.toNat + 1 = ht.table.length
  bucket : ∀ b list, ht.table[b]? = some list → ∀ node ∈ list, ht.index kind node.key = b
  keys : (ht.entries.map (·.key)).Nodup
  addrs : ((ht.entries ++ ht.nodes).map (·.addr)).Nodup
  size : ht.size = ht.entries.length

/-- What an association list holds under a key. -/
def Holds (list : List (HashNode κ ν)) (key : κ) (value : ν) : Prop :=
  ∃ node ∈ list, node.key = key ∧ node.value = value

theorem holds_middle {before after : List (HashNode κ ν)} (hkey : node.key = key)
    (hother : ∀ n ∈ before ++ after, n.key ≠ key) :
    Holds (before ++ node :: after) k v ↔
      if k = key then some node.value = some v else Holds (before ++ after) k v := by
  unfold Holds
  simp only [mem_append, mem_cons] at hother ⊢
  split_ifs with hk
  · rw [Option.some.injEq]
    constructor
    · rintro ⟨n, hn | rfl | hn, hkey', hvalue⟩
      · exact absurd (hkey'.trans hk) (hother n (.inl hn))
      · exact hvalue
      · exact absurd (hkey'.trans hk) (hother n (.inr hn))
    · intro hvalue
      exact ⟨node, .inr (.inl rfl), hkey.trans hk.symm, hvalue⟩
  · constructor
    · rintro ⟨n, hn | rfl | hn, hkey', hvalue⟩
      · exact ⟨n, .inl hn, hkey', hvalue⟩
      · exact absurd (hkey'.symm.trans hkey) hk
      · exact ⟨n, .inr hn, hkey', hvalue⟩
    · rintro ⟨n, hn | hn, hkey', hvalue⟩
      · exact ⟨n, .inl hn, hkey', hvalue⟩
      · exact ⟨n, .inr (.inr hn), hkey', hvalue⟩

omit [DecidableEq κ] in
theorem not_holds (hother : ∀ n ∈ list, n.key ≠ key) : ¬Holds list key v := by
  rintro ⟨n, hn, hkey, -⟩
  exact hother n hn hkey

section

variable (h : Filed kind ht)
include h

omit [DecidableEq κ] in
theorem Filed.index_lt (key : κ) : ht.index kind key < ht.table.length := by
  have hle := UInt64.le_iff_toNat_le.1 (kind.bucket_le ht.mask key)
  have hmask := h.mask
  unfold index
  omega

omit [DecidableEq κ] in
theorem Filed.split (key : κ) : ∃ list before after, ht.table[ht.index kind key]? = some list ∧
      ht.table.getD (ht.index kind key) [] = list ∧
      ht.entries = before ++ list ++ after ∧
      (∀ f, (ht.table.modify (ht.index kind key) f).flatten = before ++ f list ++ after) ∧
      ∀ node ∈ before ++ after, node.key ≠ key := by
  have hget := getElem?_eq_getElem (h.index_lt key)
  obtain ⟨l₁, l₂, htable, hlength, hmodify, -⟩ := exists_split hget
  have hother : ∀ b list, ht.table[b]? = some list → b ≠ ht.index kind key →
      ∀ node ∈ list, node.key ≠ key := by
    intro b list hb hne node hnode hkey
    exact hne (hkey ▸ (h.bucket b list hb node hnode).symm)
  refine ⟨_, l₁.flatten, l₂.flatten, hget, ?_, ?_, fun f => ?_, fun node hnode => ?_⟩
  · rw [getD_eq_getElem?_getD, hget]
    rfl
  · unfold entries
    conv_lhs => rw [htable]
    rw [flatten_append, flatten_cons, append_assoc]
  · rw [hmodify, flatten_append, flatten_cons, append_assoc]
  · rw [mem_append] at hnode
    obtain hnode | hnode := hnode
    · obtain ⟨list, hlist, hnode⟩ := mem_flatten.1 hnode
      obtain ⟨b, hb⟩ := mem_iff_getElem?.1 hlist
      have hlt := (List.getElem?_eq_some_iff.1 hb).1
      apply hother b list _ (hlength ▸ hlt).ne node hnode
      rw [htable, getElem?_append_left hlt, hb]
    · obtain ⟨list, hlist, hnode⟩ := mem_flatten.1 hnode
      obtain ⟨b, hb⟩ := mem_iff_getElem?.1 hlist
      apply hother (l₁.length + (b + 1)) list _ (by omega) node hnode
      rw [htable, getElem?_append_right (Nat.le_add_right _ _), Nat.add_sub_cancel_left,
        getElem?_cons_succ, hb]

omit [DecidableEq κ] in
theorem Filed.bucket_modify {f : List (HashNode κ ν) → List (HashNode κ ν)}
    (hf : ∀ node ∈ f (ht.table.getD (ht.index kind key) []),
      node ∈ ht.table.getD (ht.index kind key) [] ∨ node.key = key) :
    ∀ b list, (ht.table.modify (ht.index kind key) f)[b]? = some list →
      ∀ node ∈ list, ht.index kind node.key = b := by
  obtain ⟨list, hlist⟩ : ∃ list, ht.table[ht.index kind key]? = some list :=
    ⟨_, getElem?_eq_getElem (h.index_lt key)⟩
  rw [getD_eq_getElem?_getD, hlist, getD_some] at hf
  intro b list' hb node hnode
  by_cases hne : ht.index kind key = b
  · subst hne
    rw [getElem?_modify_eq, hlist] at hb
    obtain rfl := Option.some.inj hb
    obtain hold | hnew := hf node hnode
    · exact h.bucket _ list hlist node hold
    · exact congrArg _ hnew
  · rw [getElem?_modify_ne _ _ hne] at hb
    exact h.bucket b list' hb node hnode

theorem Filed.found (hsearch : search (ht.table.getD (ht.index kind key) []) key = some i) :
    ∃ node before after, node.key = key ∧ ht.entries = before ++ node :: after ∧
      (∀ n ∈ before ++ after, n.key ≠ key) ∧ ht.getValue kind key = some node.value ∧
      (∀ f, (ht.table.modify (ht.index kind key) (List.modify · i f)).flatten =
        before ++ f node :: after) ∧
      (ht.table.modify (ht.index kind key) (eraseIdx · i)).flatten = before ++ after ∧
      (ht.table.getD (ht.index kind key) [])[i]? = some node := by
  obtain ⟨list, before, after, hget, hgetD, hentries, hmodify, hother⟩ := h.split key
  rw [hgetD] at hsearch
  obtain ⟨node, l₁, l₂, hkey, hi, hlist, hmodify', herase⟩ := search_eq_some hsearch
  have hsplit : ht.entries = (before ++ l₁) ++ node :: (l₂ ++ after) := by
    rw [hentries, hlist]
    simp only [append_assoc, cons_append]
  refine ⟨node, before ++ l₁, l₂ ++ after, hkey, hsplit, ?_, ?_, fun f => ?_, ?_, ?_⟩
  · have hnodup := h.keys
    rw [hsplit, map_append, map_cons, nodup_middle, nodup_cons, ← map_append, hkey] at hnodup
    intro n hn hkey'
    exact hnodup.1 (hkey' ▸ List.mem_map_of_mem hn)
  · unfold getValue
    simp only
    rw [hgetD, hsearch, bind_some, hi]
    rfl
  · rw [hmodify, hmodify']
    simp only [append_assoc, cons_append]
  · rw [hmodify, herase]
    simp only [append_assoc]
  · rw [hgetD, hi]

theorem Filed.absent (hsearch : search (ht.table.getD (ht.index kind key) []) key = none) :
    ∃ before after, ht.entries = before ++ after ∧ (∀ n ∈ ht.entries, n.key ≠ key) ∧
      ht.getValue kind key = none ∧
      ∀ node, (ht.table.modify (ht.index kind key) (· ++ [node])).flatten =
        before ++ node :: after := by
  obtain ⟨list, before, after, hget, hgetD, hentries, hmodify, hother⟩ := h.split key
  rw [hgetD] at hsearch
  refine ⟨before ++ list, after, hentries, fun n hn => ?_, ?_, fun node => ?_⟩
  · rw [hentries, append_assoc, mem_append, mem_append] at hn
    obtain hn | hn | hn := hn
    · exact hother n (mem_append_left _ hn)
    · exact search_eq_none hsearch n hn
    · exact hother n (mem_append_right _ hn)
  · unfold getValue
    simp only
    rw [hgetD, hsearch]
    rfl
  · rw [hmodify]
    simp only [append_assoc, singleton_append]

theorem Filed.getValue_eq_some_iff :
    ht.getValue kind key = some value ↔ Holds ht.entries key value := by
  cases hsearch : search (ht.table.getD (ht.index kind key) []) key with
  | none =>
    obtain ⟨before, after, -, hnone, hget, -⟩ := h.absent hsearch
    rw [hget]
    exact iff_of_false nofun (not_holds hnone)
  | some i =>
    obtain ⟨node, before, after, hkey, hentries, hother, hget, -⟩ := h.found hsearch
    rw [hget, hentries, holds_middle hkey hother, if_pos rfl]

end

section Iteration

omit [DecidableEq κ] in
theorem getFirstKey_eq (ht : HashTable κ ν) : ht.getFirstKey = ht.entries.head? :=
  firstEntry_eq ht.table 0

omit [DecidableEq κ] in
theorem listNext_eq {l₁ l₂ : List (HashNode κ ν)}
    (hnodup : ((l₁ ++ node :: l₂).map (·.addr)).Nodup) :
    listNext (l₁ ++ node :: l₂) node = l₂.head? := by
  have hscan : scanFrom (fun n => decide (n.addr = node.addr)) (l₁ ++ node :: l₂) 0 =
      some l₁.length := by
    apply scanFrom_eq_some_iff.2
    refine ⟨Nat.zero_le _, ⟨node, ?_, decide_eq_true rfl⟩, fun k _ hk => ?_⟩
    · rw [getElem?_append_right le_rfl, Nat.sub_self, getElem?_cons_zero]
    · rintro ⟨n, hn, haddr⟩
      rw [getElem?_append_left hk] at hn
      rw [map_append, map_cons, nodup_middle, nodup_cons, ← of_decide_eq_true haddr] at hnodup
      exact hnodup.1 (mem_append_left _ (List.mem_map_of_mem (mem_of_getElem? hn)))
  rw [listNext, hscan, bind_some, getElem?_append_right (le_succ _),
    succ_sub le_rfl, Nat.sub_self, getElem?_cons_succ, head?_eq_getElem?]

omit [DecidableEq κ] in
theorem Filed.getNextKey_eq (h : Filed kind ht) {before after : List (HashNode κ ν)}
    (hentries : ht.entries = before ++ node :: after) :
    ht.getNextKey kind node = after.head? := by
  obtain ⟨list, hget⟩ : ∃ list, ht.table[ht.index kind node.key]? = some list :=
    ⟨_, getElem?_eq_getElem (h.index_lt node.key)⟩
  obtain ⟨T₁, T₂, htable, hlength, -, -⟩ := exists_split hget
  have hmem : node ∈ list := by
    obtain ⟨list', hlist', hnode⟩ := mem_flatten.1 (hentries ▸
      mem_append_right before mem_cons_self : node ∈ ht.entries)
    obtain ⟨b, hb⟩ := mem_iff_getElem?.1 hlist'
    rw [h.bucket b list' hb node hnode, hb] at hget
    exact Option.some.inj hget ▸ hnode
  obtain ⟨l₁, l₂, rfl⟩ := append_of_mem hmem
  have hentries' : ht.entries = (T₁.flatten ++ l₁) ++ node :: (l₂ ++ T₂.flatten) := by
    unfold entries
    rw [htable, flatten_append, flatten_cons]
    simp only [append_assoc, cons_append]
  have haddrs : (ht.entries.map (·.addr)).Nodup := by
    have hall := h.addrs
    rw [map_append] at hall
    exact hall.of_append_left
  have hafter : after = l₂ ++ T₂.flatten := by
    have hnodup : (before ++ node :: after).Nodup := hentries ▸ haddrs.of_map
    rw [nodup_middle, nodup_cons, mem_append, not_or] at hnodup
    have hsame := hentries.symm.trans hentries'
    exact ((append_cons_inj_of_notMem hnodup.1.1 hnodup.1.2).1 hsame).2.2
  have hlist : ((l₁ ++ node :: l₂).map (·.addr)).Nodup := by
    rw [entries, htable, flatten_append, flatten_cons, map_append, map_append] at haddrs
    exact haddrs.of_append_right.of_append_left
  have hgetD : ht.table.getD (ht.index kind node.key) [] = l₁ ++ node :: l₂ := by
    rw [getD_eq_getElem?_getD, hget]
    rfl
  have hrest : ht.firstFrom (ht.index kind node.key + 1) = T₂.flatten.head? := by
    have hdrop : ht.table.drop (T₁.length + 1) = T₂ := by
      rw [htable, drop_append]
      simp
    rw [firstFrom, firstEntry_eq, ← hlength, hdrop]
  unfold getNextKey
  simp only
  rw [hgetD, listNext_eq hlist, hrest, hafter, head?_append, orElse_eq_orElse, orElse_eq_or]

omit [DecidableEq κ] in
theorem Filed.iterate_eq (h : Filed kind ht) {before after : List (HashNode κ ν)}
    (hentries : ht.entries = before ++ after) {fuel : ℕ} (hfuel : after.length < fuel) :
    ht.iterate kind fuel after.head? = some after := by
  induction after generalizing before fuel with
  | nil =>
    cases fuel with
    | zero => exact absurd hfuel (Nat.not_lt_zero _)
    | succ fuel => rfl
  | cons node after ih =>
    cases fuel with
    | zero => exact absurd hfuel (Nat.not_lt_zero _)
    | succ fuel =>
      have hshift : ht.entries = (before ++ [node]) ++ after := by
        rw [hentries, append_assoc, singleton_append]
      rw [head?_cons, iterate, h.getNextKey_eq hentries, ih hshift (lt_of_succ_lt_succ hfuel)]
      rfl

end Iteration

section Calls

inductive Call (κ ν : Type)
  | setValue (key : κ) (value : ν) (allocated : Option ℕ) (keyGranted : Bool)
  | getValue (key : κ)
  | removeValue (key : κ)

inductive Answer (ν : Type)
  | success
  | found (value : ν)
  | errNotFound
  | errOutOfResource
  /-- The program is stopped by a write through a null pointer. -/
  | stopped

variable {c : Call κ ν} {calls : List (Call κ ν)}

def step (kind : KeyKind κ) (ht : HashTable κ ν) : Call κ ν → HashTable κ ν
  | .setValue key value allocated keyGranted =>
    (ht.setValue kind key value allocated keyGranted).elim ht (·.1)
  | .getValue _ => ht
  | .removeValue key => (ht.removeValue kind key).1

def answer (kind : KeyKind κ) (ht : HashTable κ ν) : Call κ ν → Answer ν
  | .setValue key value allocated keyGranted =>
    match ht.setValue kind key value allocated keyGranted with
    | none => .stopped
    | some (_, true) => .success
    | some (_, false) => .errOutOfResource
  | .getValue key =>
    match ht.getValue kind key with
    | some value => .found value
    | none => .errNotFound
  | .removeValue key => if (ht.removeValue kind key).2 then .success else .errNotFound

/-- A node that is allocated is not one that is in use. -/
def Possible (ht : HashTable κ ν) : Call κ ν → Prop
  | .setValue _ _ allocated _ =>
    ∀ addr ∈ allocated, addr ∉ (ht.entries ++ ht.nodes).map (·.addr)
  | .getValue _ | .removeValue _ => True

instance (ht : HashTable κ ν) : ∀ c, Decidable (Possible ht c)
  | .setValue _ _ allocated _ => inferInstanceAs
      (Decidable (∀ addr ∈ allocated, addr ∉ (ht.entries ++ ht.nodes).map (·.addr)))
  | .getValue _ | .removeValue _ => isTrue trivial

/-- A new key that takes memory has got a node, and no memory for its copy. -/
def KeyRefused (kind : KeyKind κ) (ht : HashTable κ ν) : Call κ ν → Prop
  | .setValue key _ allocated keyGranted => ht.getValue kind key = none ∧
      (ht.nodes ≠ [] ∨ allocated ≠ none) ∧ 0 < kind.keySize key ∧ keyGranted = false
  | .getValue _ | .removeValue _ => False

instance (kind : KeyKind κ) (ht : HashTable κ ν) : ∀ c, Decidable (KeyRefused kind ht c)
  | .setValue key _ allocated keyGranted => inferInstanceAs
      (Decidable (ht.getValue kind key = none ∧
        (ht.nodes ≠ [] ∨ allocated ≠ none) ∧ 0 < kind.keySize key ∧ keyGranted = false))
  | .getValue _ | .removeValue _ => isFalse id

/-- What a finite map does at a call. Only memory for a key that is new may be refused. -/
inductive MapStep : (κ → Option ν) → Call κ ν → Answer ν → (κ → Option ν) → Prop
  | set (m : κ → Option ν) (key : κ) (value : ν) (allocated : Option ℕ) (keyGranted : Bool) :
      MapStep m (.setValue key value allocated keyGranted) .success (update m key (some value))
  | refused (m : κ → Option ν) (key : κ) (value : ν) (keyGranted : Bool) (hnew : m key = none) :
      MapStep m (.setValue key value none keyGranted) .errOutOfResource m
  | found (m : κ → Option ν) (key : κ) (value : ν) (hkey : m key = some value) :
      MapStep m (.getValue key) (.found value) m
  | notFound (m : κ → Option ν) (key : κ) (hkey : m key = none) :
      MapStep m (.getValue key) .errNotFound m
  | remove (m : κ → Option ν) (key : κ) (value : ν) (hkey : m key = some value) :
      MapStep m (.removeValue key) .success (update m key none)
  | removeNone (m : κ → Option ν) (key : κ) (hkey : m key = none) :
      MapStep m (.removeValue key) .errNotFound m

theorem Filed.getValue_eq_update (h : Filed kind ht) (h' : Filed kind ht') {value : Option ν}
    (hiff : ∀ k v, Holds ht'.entries k v ↔
      if k = key then value = some v else Holds ht.entries k v) :
    ht'.getValue kind = Function.update (ht.getValue kind) key value := by
  funext k
  apply Option.ext
  intro v
  rw [h'.getValue_eq_some_iff, hiff]
  by_cases hk : k = key
  · rw [if_pos hk, hk, update_self]
  · rw [if_neg hk, update_of_ne hk, h.getValue_eq_some_iff]

theorem Filed.setValue_found (h : Filed kind ht) (value : ν) (allocated : Option ℕ)
    (keyGranted : Bool) (hsearch : search (ht.table.getD (ht.index kind key) []) key = some i) :
    ∃ ht', ht.setValue kind key value allocated keyGranted = some (ht', true) ∧ Filed kind ht' ∧
      ht'.getValue kind = update (ht.getValue kind) key (some value) := by
  obtain ⟨node, before, after, hkey, hentries, hother, -, hmodify, -, hget⟩ := h.found hsearch
  have heq : ht.setValue kind key value allocated keyGranted = some ({ ht with
        table := ht.table.modify (ht.index kind key)
          (List.modify · i ({ · with value := value })) }, true) := by
    unfold setValue
    simp only [hsearch]
  generalize hht : ({ ht with
    table := ht.table.modify (ht.index kind key)
      (List.modify · i ({ · with value := value })) } : HashTable κ ν) = ht' at heq
  have hentries' : ht'.entries = before ++ { node with value := value } :: after := by
    rw [← hht]
    exact hmodify _
  have hfiled : Filed kind ht' := by
    refine ⟨?_, ?_, ?_, ?_, ?_⟩
    · rw [← hht, length_modify]
      exact h.mask
    · rw [← hht]
      apply h.bucket_modify
      intro n hn
      obtain hold | rfl := mem_modify_cases hget hn
      · exact .inl hold
      · exact .inr hkey
    · have hkeys := h.keys
      rw [hentries] at hkeys
      rw [hentries']
      simpa only [map_append, map_cons] using hkeys
    · have haddrs := h.addrs
      rw [hentries] at haddrs
      rw [hentries', ← hht]
      simpa only [map_append, map_cons] using haddrs
    · have hsize := h.size
      rw [hentries] at hsize
      rw [hentries', ← hht]
      simpa only [length_append, length_cons] using hsize
  refine ⟨ht', heq, hfiled, h.getValue_eq_update hfiled fun k v => ?_⟩
  have hkey' : ({ node with value := value } : HashNode κ ν).key = key := hkey
  rw [hentries', hentries, holds_middle hkey' hother, holds_middle hkey hother]
  split_ifs
  · exact Iff.rfl
  · exact Iff.rfl

theorem Filed.setValue_absent (h : Filed kind ht) (value : ν) {allocated : Option ℕ} {addr : ℕ}
    {keyGranted : Bool} (hsearch : search (ht.table.getD (ht.index kind key) []) key = none)
    (haddr : (ht.nodes.head?.map (·.addr) <|> allocated) = some addr)
    (hfresh : ∀ addr ∈ allocated, addr ∉ (ht.entries ++ ht.nodes).map (·.addr))
    (hgranted : ¬(0 < kind.keySize key ∧ keyGranted = false)) :
    ∃ ht', ht.setValue kind key value allocated keyGranted = some (ht', true) ∧ Filed kind ht' ∧
      ht'.getValue kind = update (ht.getValue kind) key (some value) := by
  obtain ⟨before, after, hentries, hnone, -, hmodify⟩ := h.absent hsearch
  have heq : ht.setValue kind key value allocated keyGranted = some ({ ht with
        nodes := ht.nodes.tail
        table := ht.table.modify (ht.index kind key) (· ++ [⟨addr, key, value⟩])
        size := ht.size + 1 }, true) := by
    unfold setValue
    simp only [hsearch, haddr]
    exact if_neg hgranted
  generalize hht : ({ ht with
    nodes := ht.nodes.tail
    table := ht.table.modify (ht.index kind key) (· ++ [⟨addr, key, value⟩])
    size := ht.size + 1 } : HashTable κ ν) = ht' at heq
  have hentries' : ht'.entries = before ++ ⟨addr, key, value⟩ :: after := by
    rw [← hht]
    exact hmodify _
  rw [hentries] at hnone
  have hfiled : Filed kind ht' := by
    refine ⟨?_, ?_, ?_, ?_, ?_⟩
    · rw [← hht, length_modify]
      exact h.mask
    · rw [← hht]
      apply h.bucket_modify
      intro n hn
      rw [mem_append, mem_singleton] at hn
      obtain hold | rfl := hn
      · exact .inl hold
      · exact .inr rfl
    · have hkeys := h.keys
      rw [hentries] at hkeys
      rw [hentries', map_append, map_cons, nodup_middle, nodup_cons, ← map_append]
      refine ⟨?_, hkeys⟩
      intro hmem
      obtain ⟨n, hn, hkey⟩ := List.mem_map.1 hmem
      exact hnone n hn hkey
    · have haddrs := h.addrs
      rw [hentries] at haddrs hfresh
      rw [hentries', ← hht]
      cases hnodes : ht.nodes with
      | nil =>
        rw [hnodes] at haddr haddrs hfresh
        simp only [append_nil, tail_nil, map_append, map_cons] at haddrs hfresh ⊢
        rw [nodup_middle, nodup_cons]
        exact ⟨hfresh addr haddr, haddrs⟩
      | cons n nodes =>
        rw [hnodes] at haddr haddrs
        have haddr : n.addr = addr := Option.some.inj haddr
        simp only [tail_cons, map_append, map_cons, append_assoc, cons_append] at haddrs ⊢
        rw [← append_assoc, nodup_middle, append_assoc, haddr] at haddrs
        rw [nodup_middle]
        exact haddrs
    · have hsize := h.size
      rw [hentries] at hsize
      rw [hentries', ← hht]
      simp only [length_append, length_cons] at hsize ⊢
      omega
  refine ⟨ht', heq, hfiled, h.getValue_eq_update hfiled fun k v => ?_⟩
  rw [hentries', hentries]
  exact holds_middle rfl hnone

theorem Filed.removeValue_found (h : Filed kind ht)
    (hsearch : search (ht.table.getD (ht.index kind key) []) key = some i) :
    (ht.removeValue kind key).2 = true ∧ Filed kind (ht.removeValue kind key).1 ∧
      (ht.removeValue kind key).1.getValue kind = update (ht.getValue kind) key none := by
  obtain ⟨node, before, after, hkey, hentries, hother, -, -, herase, hget⟩ := h.found hsearch
  have heq : ht.removeValue kind key = ({ ht with
        table := ht.table.modify (ht.index kind key) (eraseIdx · i)
        nodes := ht.nodes ++ [{ node with key := kind.released node.key }]
        size := ht.size - 1 }, true) := by
    unfold removeValue
    simp only [hsearch, hget]
    rfl
  generalize hht : ({ ht with
    table := ht.table.modify (ht.index kind key) (eraseIdx · i)
    nodes := ht.nodes ++ [{ node with key := kind.released node.key }]
    size := ht.size - 1 } : HashTable κ ν) = ht' at heq
  have hentries' : ht'.entries = before ++ after := by
    rw [← hht]
    exact herase
  have hfiled : Filed kind ht' := by
    refine ⟨?_, ?_, ?_, ?_, ?_⟩
    · rw [← hht, length_modify]
      exact h.mask
    · rw [← hht]
      apply h.bucket_modify
      intro n hn
      exact .inl (mem_of_mem_eraseIdx hn)
    · have hkeys := h.keys
      rw [hentries, map_append, map_cons, nodup_middle, nodup_cons, ← map_append] at hkeys
      rw [hentries']
      exact hkeys.2
    · have haddrs := h.addrs
      rw [hentries] at haddrs
      rw [hentries', ← hht]
      simp only [map_append, map_cons, map_nil, append_assoc, cons_append] at haddrs ⊢
      rw [nodup_middle] at haddrs
      rw [← append_assoc, ← append_assoc, nodup_middle, append_nil, append_assoc]
      exact haddrs
    · have hsize := h.size
      rw [hentries] at hsize
      rw [hentries', ← hht]
      simp only [length_append, length_cons] at hsize ⊢
      omega
  rw [heq]
  refine ⟨rfl, hfiled, h.getValue_eq_update hfiled fun k v => ?_⟩
  rw [hentries', hentries, holds_middle hkey hother]
  split_ifs with hk
  · exact iff_of_false (hk ▸ not_holds hother) nofun
  · exact Iff.rfl

theorem setValue_refused {allocated : Option ℕ} {keyGranted : Bool}
    (hsearch : search (ht.table.getD (ht.index kind key) []) key = none)
    (haddr : (ht.nodes.head?.map (·.addr) <|> allocated) = none) :
    ht.setValue kind key value allocated keyGranted = some (ht, false) := by
  unfold setValue
  simp only [hsearch, haddr]

theorem setValue_stopped {allocated : Option ℕ} {addr : ℕ} {keyGranted : Bool}
    (hsearch : search (ht.table.getD (ht.index kind key) []) key = none)
    (haddr : (ht.nodes.head?.map (·.addr) <|> allocated) = some addr)
    (hrefused : 0 < kind.keySize key ∧ keyGranted = false) :
    ht.setValue kind key value allocated keyGranted = none := by
  unfold setValue
  simp only [hsearch, haddr]
  exact if_pos hrefused

omit [DecidableEq κ] in
theorem addr_eq_none_iff {nodes : List (HashNode κ ν)} {allocated : Option ℕ} :
    (nodes.head?.map (·.addr) <|> allocated) = none ↔ nodes = [] ∧ allocated = none := by
  cases nodes with
  | nil => exact (and_iff_right rfl).symm
  | cons node nodes => exact iff_of_false nofun nofun

theorem removeValue_absent (hsearch : search (ht.table.getD (ht.index kind key) []) key = none) :
    ht.removeValue kind key = (ht, false) := by
  unfold removeValue
  simp only [hsearch]

theorem Filed.step (h : Filed kind ht) (hc : Possible ht c) : Filed kind (ht.step kind c) ∧
      (MapStep (ht.getValue kind) c (ht.answer kind c) ((ht.step kind c).getValue kind) ↔
        ¬KeyRefused kind ht c) := by
  cases c with
  | setValue key value allocated keyGranted =>
    unfold HashTable.step answer KeyRefused
    cases hsearch : search (ht.table.getD (ht.index kind key) []) key with
    | some i =>
      obtain ⟨node, -, -, -, -, -, hget, -⟩ := h.found hsearch
      obtain ⟨ht', heq, hfiled, hmap⟩ := h.setValue_found value allocated keyGranted hsearch
      simp only [heq, Option.elim_some, hmap, hget]
      exact ⟨hfiled, iff_of_true (.set _ key value allocated keyGranted) nofun⟩
    | none =>
      obtain ⟨-, -, -, -, hnew, -⟩ := h.absent hsearch
      cases haddr : (ht.nodes.head?.map (·.addr) <|> allocated) with
      | some addr =>
        by_cases hrefused : 0 < kind.keySize key ∧ keyGranted = false
        · have hnode : ht.nodes ≠ [] ∨ allocated ≠ none := by
            by_contra hnone
            rw [not_or, not_not, not_not] at hnone
            rw [addr_eq_none_iff.2 hnone] at haddr
            exact nomatch haddr
          simp only [setValue_stopped hsearch haddr hrefused, Option.elim_none]
          exact ⟨h, iff_of_false nofun (not_not_intro ⟨hnew, hnode, hrefused⟩)⟩
        · obtain ⟨ht', heq, hfiled, hmap⟩ := h.setValue_absent value hsearch haddr hc hrefused
          simp only [heq, Option.elim_some, hmap]
          exact ⟨hfiled, iff_of_true (.set _ key value allocated keyGranted)
            fun hno => hrefused hno.2.2⟩
      | none =>
        obtain ⟨hnodes, rfl⟩ := addr_eq_none_iff.1 haddr
        simp only [setValue_refused hsearch haddr, Option.elim_some]
        exact ⟨h, iff_of_true (.refused _ key value keyGranted hnew)
          fun hno => hno.2.1.elim (· hnodes) (· rfl)⟩
  | getValue key =>
    refine ⟨h, iff_of_true ?_ id⟩
    change MapStep (ht.getValue kind) _ (match ht.getValue kind key with
      | some value => .found value
      | none => .errNotFound) (ht.getValue kind)
    cases hkey : ht.getValue kind key with
    | none => exact .notFound _ key hkey
    | some value => exact .found _ key value hkey
  | removeValue key =>
    change Filed kind (ht.removeValue kind key).1 ∧ (MapStep (ht.getValue kind) _
        (if (ht.removeValue kind key).2 then .success else .errNotFound)
        ((ht.removeValue kind key).1.getValue kind) ↔ ¬False)
    cases hsearch : search (ht.table.getD (ht.index kind key) []) key with
    | some i =>
      obtain ⟨node, -, -, -, -, -, hkey, -⟩ := h.found hsearch
      obtain ⟨hanswer, hfiled, hmap⟩ := h.removeValue_found hsearch
      rw [hanswer, hmap]
      exact ⟨hfiled, iff_of_true (.remove _ key node.value hkey) id⟩
    | none =>
      obtain ⟨before, after, -, -, hnone, -⟩ := h.absent hsearch
      rw [removeValue_absent hsearch]
      exact ⟨h, iff_of_true (.removeNone _ key hnone) id⟩

omit [DecidableEq κ] in
theorem init_cases {tableSize : ℕ} {granted : Bool}
    (hinit : (construct : HashTable κ ν).init tableSize granted = some ht) :
    ht.table = replicate (nextPowerOfTwo tableSize) [] ∧ ht.entries = [] ∧ ht.nodes = [] ∧
      ht.size = 0 ∧ ht.mask = UInt64.ofNat (nextPowerOfTwo tableSize - 1) := by
  unfold init at hinit
  split_ifs at hinit with hgranted
  obtain rfl := Option.some.inj hinit
  exact ⟨rfl, flatten_replicate_nil, rfl, rfl, rfl⟩

omit [DecidableEq κ] in
theorem filed_init {tableSize : ℕ} {granted : Bool} (hint : nextPowerOfTwo tableSize < 2 ^ 31)
    (hinit : (construct : HashTable κ ν).init tableSize granted = some ht) : Filed kind ht := by
  obtain ⟨htable, hentries, hnodes, hsize, hmask⟩ := init_cases hinit
  have hpos : 0 < nextPowerOfTwo tableSize := by
    rw [nextPowerOfTwo_eq]
    exact Nat.two_pow_pos _
  refine ⟨?_, fun b list hb node hnode => ?_, ?_, ?_, ?_⟩
  · rw [htable, hmask, length_replicate, UInt64.toNat_ofNat', mod_eq_of_lt (by omega)]
    exact Nat.sub_add_cancel hpos
  · rw [htable] at hb
    rw [eq_of_mem_replicate (mem_of_getElem? hb)] at hnode
    exact nomatch hnode
  · rw [hentries]
    exact nodup_nil
  · rw [hentries, hnodes]
    exact nodup_nil
  · rw [hentries, hsize]
    rfl

/-- The table counts the keys that it holds. -/
def Counted (kind : KeyKind κ) (ht : HashTable κ ν) : Prop :=
  ∃ keys : Finset κ, (∀ key, key ∈ keys ↔ ht.getValue kind key ≠ none) ∧ ht.size = keys.card

/-- The iteration ends, and visits every key that the table holds once, with its value. -/
def Visited (kind : KeyKind κ) (ht : HashTable κ ν) : Prop :=
  ∃ visited, ht.iterate kind (ht.size + 1) ht.getFirstKey = some visited ∧
    (visited.map (·.key)).Nodup ∧
    ∀ key value, ht.getValue kind key = some value ↔
      ∃ node ∈ visited, node.key = key ∧ node.value = value

theorem Filed.counted (h : Filed kind ht) : Counted kind ht := by
  refine ⟨(ht.entries.map (·.key)).toFinset, fun key => ?_, ?_⟩
  · rw [List.mem_toFinset, List.mem_map, ne_none_iff_exists']
    constructor
    · rintro ⟨node, hnode, hkey⟩
      exact ⟨node.value, h.getValue_eq_some_iff.2 ⟨node, hnode, hkey, rfl⟩⟩
    · rintro ⟨value, hvalue⟩
      obtain ⟨node, hnode, hkey, -⟩ := h.getValue_eq_some_iff.1 hvalue
      exact ⟨node, hnode, hkey⟩
  · rw [toFinset_card_of_nodup h.keys, length_map]
    exact h.size

theorem Filed.visited (h : Filed kind ht) : Visited kind ht := by
  refine ⟨ht.entries, ?_, h.keys, fun key value => h.getValue_eq_some_iff⟩
  have hall : ht.entries = [] ++ ht.entries := rfl
  rw [getFirstKey_eq]
  apply h.iterate_eq hall
  rw [h.size]
  exact lt_succ_self _

/-- Every call of the run is one of a finite map, and the table that is left counts its keys
and is iterated over. -/
def Behaves (kind : KeyKind κ) (ht : HashTable κ ν) (calls : List (Call κ ν)) : Prop :=
  Along (step kind) (fun ht c =>
      MapStep (ht.getValue kind) c (ht.answer kind c) ((ht.step kind c).getValue kind)) ht calls ∧
    Counted kind (calls.foldl (step kind) ht) ∧ Visited kind (calls.foldl (step kind) ht)

/-- A table that has been initialised is empty, and behaves as a finite map in the runs of calls
in which no new key is refused the memory for its copy, and in no others. -/
theorem hashTable_finite_map_iff (kind : KeyKind κ) (tableSize : ℕ) {granted : Bool}
    (hint : nextPowerOfTwo tableSize < 2 ^ 31)
    (hinit : (construct : HashTable κ ν).init tableSize granted = some ht)
    (hrun : Along (step kind) Possible ht calls) :
    ht.getValue kind = (fun _ => none) ∧
      (Behaves kind ht calls ↔ Along (step kind) (fun ht c => ¬KeyRefused kind ht c) ht calls) := by
  have hfiled : Filed kind ht := filed_init hint hinit
  have hend : Filed kind (calls.foldl (step kind) ht) :=
    Along.invariant (fun _ _ h hc => (h.step hc).1) hfiled hrun
  constructor
  · funext key
    obtain ⟨-, hentries, -⟩ := init_cases hinit
    apply eq_none_iff_forall_ne_some.2
    intro value hvalue
    rw [hfiled.getValue_eq_some_iff, hentries] at hvalue
    exact not_holds (fun _ hnode => absurd hnode not_mem_nil) hvalue
  · unfold Behaves
    rw [and_iff_left ⟨hend.counted, hend.visited⟩]
    exact Along.iff_of_invariant (fun _ _ h hc _ => (h.step hc).1) (fun _ _ h hc => (h.step hc).2)
      hfiled hrun

def four : HashTable (List UInt8) ℕ where
  table := [[], [], [], []]
  nodes := []
  size := 0
  mask := 3

/-- Two keys of one bucket, of which one is removed and its node used for another. -/
def reusing : List (Call (List UInt8) ℕ) :=
  [.setValue [1] 10 (some 100) true, .setValue [5] 50 (some 101) true, .removeValue [1],
    .setValue [9] 90 none true, .getValue [9], .setValue [9] 91 none false]

theorem hashTable_finite_map_reusing : Behaves .ptr four reusing :=
  (hashTable_finite_map_iff .ptr 2 (by decide)
    (rfl : (construct : HashTable (List UInt8) ℕ).init 2 true = some four) (by decide)).2.2
    (by decide)

/-- The table has a node for the key `[1]`, and no memory for the copy of the key. -/
theorem not_finite_map_keyRefused :
    (construct : HashTable (List UInt8) ℕ).init 2 true = some four ∧
      ¬Behaves .ptr four [.setValue [1] 10 (some 100) false] := ⟨rfl, fun h => nomatch h.1.1⟩

end Calls

end HashTable

end Ulfm.Opal
