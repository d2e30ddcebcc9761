import Ulfm.Foundation.Scan
import Ulfm.Foundation.Trace
import Ulfm.Tuned.Topology

/-!
# The hash table

`opal_hash_table` chains its nodes in buckets. The operations on the three kinds of
keys differ in the bucket of a key and in what becomes of the key of a node that is
removed, and are one definition here. Nodes that have been removed are kept and used
again. A node is known by its address; what the memory allocator answers is a parameter
of the calls that may need a new one or a copy of a key.
-/

namespace Ulfm.Opal

/-- What the operations on one kind of keys do with a key. -/
structure KeyKind (κ : Type) where
  /-- The bucket of a key, for the mask of the table. -/
  bucket : UInt64 → κ → UInt64
  /-- What becomes of the key of a node that is removed. -/
  released : κ → κ
  /-- The bytes that a new node allocates for a copy of its key. -/
  keySize : κ → ℕ
  bucket_le : ∀ mask key, bucket mask key ≤ mask

structure HashNode (κ ν : Type) where
  addr : ℕ
  key : κ
  value : ν
deriving DecidableEq

structure HashTable (κ ν : Type) where
  table : List (List (HashNode κ ν))
  /-- The nodes that can be used again. -/
  nodes : List (HashNode κ ν)
  size : ℕ
  mask : UInt64

namespace KeyKind

theorem and_le_right (x mask : UInt64) : x &&& mask ≤ mask := by
  rw [UInt64.le_iff_toNat_le, UInt64.toNat_and]
  exact Nat.and_le_right

def uint32 : KeyKind UInt32 where
  bucket mask key := key.toUInt64 &&& mask
  released := id
  keySize _ := 0
  bucket_le mask key := and_le_right key.toUInt64 mask

def uint64 : KeyKind UInt64 where
  bucket mask key := key &&& mask
  released := id
  keySize _ := 0
  bucket_le mask key := and_le_right key mask

def hashMultiplier : UInt64 := 31

/-- `opal_hash_value`. -/
def hashValue (mask : UInt64) (key : List UInt8) : UInt32 :=
  let h := key.foldl (fun h p => hashMultiplier * h + p.toUInt64) 0
  (h &&& mask).toUInt32

/-- Byte strings. Two of them are the same when their lengths and their bytes are. -/
def ptr : KeyKind (List UInt8) where
  bucket mask key := (hashValue mask key).toUInt64
  released _ := []
  keySize := List.length
  bucket_le mask key := by
    simp only [hashValue, UInt64.le_iff_toNat_le, UInt32.toNat_toUInt64, UInt64.toNat_toUInt32,
      UInt64.toNat_and]
    exact Nat.le_trans (Nat.mod_le _ _) Nat.and_le_right

end KeyKind

namespace HashTable

variable {κ ν : Type}

/-- `opal_hash_table_construct`. -/
def construct : HashTable κ ν where
  table := []
  nodes := []
  size := 0
  mask := 0

/-- `opal_hash_table_init`; `none` is an error. -/
def init (ht : HashTable κ ν) (tableSize : ℕ) (granted : Bool) : Option (HashTable κ ν) :=
  let power2 := nextPowerOfTwo tableSize
  if granted = false then none
  else
    some { ht with
      mask := UInt64.ofNat (power2 - 1)
      table := ht.table ++ List.replicate (power2 - ht.table.length) [] }

variable [DecidableEq κ] (kind : KeyKind κ)

def index (ht : HashTable κ ν) (key : κ) : ℕ := (kind.bucket ht.mask key).toNat

/-- The loop over a bucket that looks for a key. -/
def search (list : List (HashNode κ ν)) (key : κ) : Option ℕ :=
  scanFrom (fun node => decide (node.key = key)) list 0

/-- `opal_hash_table_get_value_*`; `none` is `OPAL_ERR_NOT_FOUND`. -/
def getValue (ht : HashTable κ ν) (key : κ) : Option ν :=
  let list := ht.table.getD (ht.index kind key) []
  (search list key).bind fun i => list[i]?.map (·.value)

/-- `opal_hash_table_set_value_*`; `false` is `OPAL_ERR_OUT_OF_RESOURCE`, and `none` a write
through a null pointer. -/
def setValue (ht : HashTable κ ν) (key : κ) (value : ν) (allocated : Option ℕ)
    (keyGranted : Bool) : Option (HashTable κ ν × Bool) :=
  let b := ht.index kind key
  match search (ht.table.getD b []) key with
  | some i =>
    some ({ ht with table := ht.table.modify b (List.modify · i ({ · with value := value })) },
      true)
  | none =>
    match ht.nodes.head?.map (·.addr) <|> allocated with
    | none => some (ht, false)
    | some addr =>
      -- `hn_key` is not checked before the key is copied to it
      if 0 < kind.keySize key ∧ keyGranted = false then none
      else
        some ({ ht with
          nodes := ht.nodes.tail
          table := ht.table.modify b (· ++ [⟨addr, key, value⟩])
          size := ht.size + 1 }, true)

/-- `opal_hash_table_remove_value_*`; `false` is `OPAL_ERR_NOT_FOUND`. -/
def removeValue (ht : HashTable κ ν) (key : κ) : HashTable κ ν × Bool :=
  let b := ht.index kind key
  match search (ht.table.getD b []) key with
  | none => (ht, false)
  | some i =>
    ({ ht with
      table := ht.table.modify b (List.eraseIdx · i)
      nodes := ht.nodes ++ ((ht.table.getD b [])[i]?.map fun node =>
        { node with key := kind.released node.key }).toList
      size := ht.size - 1 }, true)

/-- The first node of the buckets from `i` on that are not empty. -/
def firstFrom (ht : HashTable κ ν) (i : ℕ) : Option (HashNode κ ν) :=
  (scanFrom (fun list => !list.isEmpty) ht.table i).bind fun j => (ht.table.getD j []).head?

/-- `opal_hash_table_get_first_key_*`; `none` is an error. -/
def getFirstKey (ht : HashTable κ ν) : Option (HashNode κ ν) := ht.firstFrom 0

def listNext (list : List (HashNode κ ν)) (node : HashNode κ ν) : Option (HashNode κ ν) :=
  (scanFrom (fun n => decide (n.addr = node.addr)) list 0).bind fun i => list[i + 1]?

/-- `opal_hash_table_get_next_key_*`; `none` is an error. -/
def getNextKey (ht : HashTable κ ν) (node : HashNode κ ν) : Option (HashNode κ ν) :=
  let b := ht.index kind node.key
  listNext (ht.table.getD b []) node <|> ht.firstFrom (b + 1)

/-- The loop of a caller over all keys; `none` when it has not ended after `fuel` rounds. -/
def iterate (ht : HashTable κ ν) : ℕ → Option (HashNode κ ν) → Option (List (HashNode κ ν))
  | 0, _ => none
  | _ + 1, none => some []
  | fuel + 1, some node => (iterate ht fuel (ht.getNextKey kind node)).map (node :: ·)

end HashTable

end Ulfm.Opal
