import Mathlib.Algebra.Order.BigOperators.Group.List
import Ulfm.Foundation.Buffer
import Ulfm.Foundation.Bytes

/-!
# The basic allocator

The basic allocator keeps the free pieces of its memory in a list sorted by address. A block is
cut from the first piece that is large enough, or from a new segment, and starts with a header
that holds its size. The memory is counted address by address: free pieces and live blocks cover
what was obtained.
-/

namespace Ulfm.BasicAllocator

open List

/-- `mca_allocator_basic_segment_t`: a piece of memory. -/
structure Segment where
  segAddr : ℕ
  segSize : ℕ
deriving DecidableEq

namespace Segment

def segEnd (s : Segment) : ℕ := s.segAddr + s.segSize

/-- One at the addresses of the segment. -/
def hit (s : Segment) (x : ℕ) : ℕ := if s.segAddr ≤ x ∧ x < s.segEnd then 1 else 0

end Segment

open Segment

/-- How many of the segments an address lies in. -/
def cover (l : List Segment) (x : ℕ) : ℕ := (l.map (hit · x)).sum

/-- The list is sorted by address and no two of its segments are adjacent. -/
def Sorted (l : List Segment) : Prop := l.Pairwise fun s t => s.segEnd < t.segAddr

/-- `sizeof(size_t)`, the size of a block's header. -/
def header : ℕ := 8

/-- The size of the block for a request: with the header, up to the next multiple of its size. -/
def blockSize (size : ℕ) : ℕ :=
  let size := (size + header) % 2 ^ 64
  (size + (header - size % header)) % 2 ^ 64

/-- What the allocator meets in one call: the segment that `seg_alloc` returns, and whether the
free list gives a descriptor for the rest of it and for a piece that is freed. -/
structure Env where
  segment : Option Segment
  descriptor : Bool
  freed : Bool

/-- `mca_allocator_basic_module_t` with the memory, and all segments that `seg_alloc` gave. -/
structure Basic where
  segList : List Segment
  obtained : List Segment
  mem : Buf UInt8

/-- The search of `mca_allocator_basic_alloc`: the first segment that is large enough is split or
taken whole. -/
def takeFit (size : ℕ) : List Segment → Option (ℕ × List Segment)
  | [] => none
  | seg :: rest =>
    if size < seg.segSize then
      some (seg.segAddr, ⟨seg.segAddr + size, seg.segSize - size⟩ :: rest)
    else if seg.segSize = size then some (seg.segAddr, rest)
    else (takeFit size rest).map fun found => (found.1, seg :: found.2)

/-- `mca_allocator_basic_combine_next`. -/
def combineNext (seg : Segment) : List Segment → List Segment
  | [] => [seg]
  | next :: rest =>
    if seg.segEnd = next.segAddr then ⟨seg.segAddr, next.segSize + seg.segSize⟩ :: rest
    else seg :: next :: rest

/-- `mca_allocator_basic_combine_prev`, with the segments before from the last one. -/
def combinePrev (seg : Segment) (rest : List Segment) : List Segment → List Segment
  | [] => seg :: rest
  | prev :: before =>
    if prev.segEnd = seg.segAddr then
      before.reverse ++ ⟨prev.segAddr, prev.segSize + seg.segSize⟩ :: rest
    else before.reverse ++ prev :: seg :: rest

/-- The loop of `mca_allocator_basic_free`. -/
def freeLoop (descriptor : Bool) (new : Segment) (before : List Segment) :
    List Segment → List Segment
  | [] => before.reverse ++ if descriptor then [new] else []
  | seg :: rest =>
    if seg.segAddr < new.segAddr then
      if seg.segEnd = new.segAddr then
        before.reverse ++ combineNext ⟨seg.segAddr, seg.segSize + new.segSize⟩ rest
      else freeLoop descriptor new (seg :: before) rest
    else if new.segEnd = seg.segAddr then
      combinePrev ⟨new.segAddr, seg.segSize + new.segSize⟩ rest before
    else before.reverse ++ if descriptor then new :: seg :: rest else seg :: rest

namespace Basic

/-- The size in the header before a pointer. -/
def sizeAt (m : Basic) (ptr : ℕ) : ℕ := decodeLE (slice m.mem (ptr - header) header)

/-- The block at an address: its header is written. -/
def cut (m : Basic) (addr size : ℕ) : Basic × Option ℕ :=
  ({ m with mem := blit m.mem addr (encodeLE header size) }, some (addr + header))

/-- `mca_allocator_basic_alloc`. -/
def alloc (m : Basic) (request : ℕ) (env : Env) : Basic × Option ℕ :=
  let size := blockSize request
  match takeFit size m.segList with
  | some (addr, segList) => { m with segList }.cut addr size
  | none =>
    match env.segment with
    | none => (m, none)
    | some seg =>
      let m := { m with obtained := seg :: m.obtained }
      if size < seg.segSize then
        let rest : Segment := ⟨seg.segAddr + size, seg.segSize - size⟩
        if env.descriptor then { m with segList := m.segList ++ [rest] }.cut seg.segAddr size
        else (m, none)
      else m.cut seg.segAddr size

/-- `mca_allocator_basic_free`. -/
def free (m : Basic) (ptr : ℕ) (env : Env) : Basic :=
  { m with segList := freeLoop env.freed ⟨ptr - header, m.sizeAt ptr⟩ [] m.segList }

/-- `memcpy`. -/
def memcpy (m : Basic) (dest src n : ℕ) : Basic :=
  { m with mem := blit m.mem dest (slice m.mem src n) }

/-- `mca_allocator_basic_realloc`, with the number of bytes it copies. -/
def realloc (m : Basic) (ptr size : ℕ) (env : Env) : Basic × Option ℕ × ℕ :=
  let allocSize := m.sizeAt ptr
  if size ≤ allocSize then (m, some ptr, 0)
  else match m.alloc size env with
    | (m, none) => (m, none, 0)
    | (m, some addr) => ((m.memcpy addr ptr allocSize).free ptr env, some addr, allocSize)

end Basic

/-- A block that was handed out, and the size last requested for it. -/
structure Block extends Segment where
  requested : ℕ
deriving DecidableEq

def Block.ptr (b : Block) : ℕ := b.segAddr + header

/-- The allocator and the live blocks. -/
structure World where
  basic : Basic
  live : List Block

inductive Call where
  | alloc (size : ℕ) (env : Env)
  | realloc (b : Block) (size : ℕ) (env : Env)
  | free (b : Block) (env : Env)
  | write (b : Block) (off : ℕ) (bytes : List UInt8)

namespace World

/-- The segments of the live blocks. -/
def blocks (w : World) : List Segment := w.live.map Block.toSegment

/-- The block at a pointer that a call returned. -/
def handOut (basic : Basic) (size : ℕ) (live : List Block) (ptr : ℕ) : World :=
  ⟨basic, ⟨⟨ptr - header, basic.sizeAt ptr⟩, size⟩ :: live⟩

def apply (w : World) : Call → World
  | .alloc size env =>
    match w.basic.alloc size env with
    | (basic, none) => { w with basic }
    | (basic, some ptr) => handOut basic size w.live ptr
  | .realloc b size env =>
    match w.basic.realloc b.ptr size env with
    | (basic, none, _) => { w with basic }
    | (basic, some ptr, _) => handOut basic size (w.live.erase b) ptr
  | .free b env => ⟨w.basic.free b.ptr env, w.live.erase b⟩
  | .write b off bytes =>
    { w with basic := { w.basic with mem := blit w.basic.mem (b.ptr + off) bytes } }

/-- `seg_alloc` returns a segment at least as large as asked for, apart from the earlier ones. -/
def Promised (w : World) (size : ℕ) (env : Env) : Prop :=
  ∀ seg ∈ env.segment, blockSize size ≤ seg.segSize ∧ ∀ x, hit seg x + cover w.basic.obtained x ≤ 1

/-- The calls of a correct user: pointers to live blocks, and writes to what was requested. -/
def Allowed (w : World) : Call → Prop
  | .alloc size env => w.Promised size env
  | .realloc b size env => b ∈ w.live ∧ w.Promised size env
  | .free b _ => b ∈ w.live
  | .write b off bytes => b ∈ w.live ∧ off + bytes.length ≤ b.requested

/-- The size with header and padding is a `size_t`, and the rest of a new segment is listed: it
has a descriptor and lies above the free segments. -/
def Fits (w : World) (size : ℕ) (env : Env) : Prop :=
  size + 2 * header < 2 ^ 64 ∧
    (takeFit (blockSize size) w.basic.segList = none → ∀ seg ∈ env.segment,
      blockSize size < seg.segSize →
        env.descriptor = true ∧ ∀ s ∈ w.basic.segList, s.segAddr < seg.segAddr)

/-- The size asked of a reallocation leaves room for the header, or is larger than the block. -/
def Meets (w : World) : Call → Prop
  | .alloc size env => w.Fits size env
  | .realloc b size env =>
    size + header ≤ b.segSize ∨ b.segSize < size ∧ w.Fits size env ∧ env.freed = true
  | .free _ env => env.freed = true
  | .write .. => True

/-- The worlds of the runs whose calls all satisfy a condition. -/
inductive Reach (cond : World → Call → Prop) : World → Prop
  | init (mem : Buf UInt8) : Reach cond ⟨⟨[], [], mem⟩, []⟩
  | call {w : World} {c : Call} : Reach cond w → w.Allowed c → cond w c → Reach cond (w.apply c)

/-- Free segments and live blocks partition the memory obtained, every block has room for what
was requested and its size in its header, and the free list is sorted without neighbours. -/
structure Sound (w : World) : Prop where
  partition : ∀ x, cover w.basic.segList x + cover w.blocks x = cover w.basic.obtained x
  disjoint : ∀ x, cover w.basic.obtained x ≤ 1
  room : ∀ b ∈ w.live, b.requested + header ≤ b.segSize
  sizes : ∀ b ∈ w.live, w.basic.sizeAt b.ptr = b.segSize
  sorted : Sorted w.basic.segList
  pos : ∀ s ∈ w.basic.segList, 0 < s.segSize

/-- A reallocation preserves the old contents. -/
def Preserved (w : World) (b : Block) (size : ℕ) (env : Env) : Prop :=
  ∀ ptr ∈ (w.basic.realloc b.ptr size env).2.1, ∀ i < b.requested,
    (w.basic.realloc b.ptr size env).1.mem (ptr + i) = w.basic.mem (b.ptr + i)

/-- The bytes that a reallocation copies lie in the old block. -/
def CopiesOnly (w : World) (b : Block) (size : ℕ) (env : Env) : Prop :=
  (w.basic.realloc b.ptr size env).2.2 + header ≤ b.segSize

end World

section Cover

variable {s t : Segment} {l l' : List Segment} {a k n x : ℕ}

@[simp] theorem cover_nil : cover [] x = 0 := rfl

@[simp] theorem cover_cons : cover (s :: l) x = hit s x + cover l x := sum_cons

@[simp] theorem cover_append : cover (l ++ l') x = cover l x + cover l' x := by
  rw [cover, map_append, sum_append]
  rfl

theorem cover_perm (h : l.Perm l') : cover l x = cover l' x := (h.map _).sum_eq

theorem hit_split (h : k ≤ n) : hit ⟨a, n⟩ x = hit ⟨a, k⟩ x + hit ⟨a + k, n - k⟩ x := by
  simp only [hit, segEnd]
  grind

theorem hit_join (h : s.segEnd = t.segAddr) (hn : n = s.segSize + t.segSize) :
    hit ⟨s.segAddr, n⟩ x = hit s x + hit t x := by
  simp only [hit, segEnd] at *
  grind

theorem hit_le_cover (h : s ∈ l) : hit s x ≤ cover l x :=
  single_le_sum (fun _ _ => Nat.zero_le _) _ (mem_map_of_mem h)

/-- Segments that no address lies in twice are apart. -/
theorem apart_of_hit (hs : 0 < s.segSize) (ht : 0 < t.segSize) (h : ∀ x, hit s x + hit t x ≤ 1) :
    s.segEnd ≤ t.segAddr ∨ t.segEnd ≤ s.segAddr := by
  by_contra hcon
  have hmax := h (max s.segAddr t.segAddr)
  rw [hit, hit, if_pos (by simp only [segEnd] at *; omega),
    if_pos (by simp only [segEnd] at *; omega)]
    at hmax
  omega

end Cover

theorem blockSize_lt (size : ℕ) : blockSize size < 256 ^ header := Nat.mod_lt _ (by decide)

theorem lt_blockSize {size : ℕ} (h : size + 2 * header < 2 ^ 64) :
    size + header < blockSize size := by
  simp only [blockSize, header] at *
  omega

/-- A fit takes from one segment of the list and leaves what is behind the block. -/
theorem takeFit_eq_some {size addr : ℕ} {l l' : List Segment}
    (h : takeFit size l = some (addr, l')) :
    ∃ before seg rest after, l = before ++ seg :: after ∧ l' = before ++ rest ++ after ∧
      addr = seg.segAddr ∧ size ≤ seg.segSize ∧
      (rest = [] ∧ seg.segSize = size ∨
        size < seg.segSize ∧ rest = [⟨seg.segAddr + size, seg.segSize - size⟩]) := by
  induction l generalizing l' with
  | nil => cases h
  | cons seg l ih =>
    rw [takeFit] at h
    split_ifs at h with hlt heq
    · cases h
      exact ⟨[], seg, [_], l, rfl, rfl, rfl, hlt.le, .inr ⟨hlt, rfl⟩⟩
    · cases h
      exact ⟨[], seg, [], l, rfl, rfl, rfl, heq.ge, .inl ⟨rfl, heq⟩⟩
    · obtain ⟨⟨addr', l''⟩, hfound, hpair⟩ := Option.map_eq_some_iff.1 h
      cases hpair
      obtain ⟨before, s, rest, after, rfl, rfl, hs⟩ := ih hfound
      exact ⟨seg :: before, s, rest, after, rfl, rfl, hs⟩

theorem takeFit_spec {size addr : ℕ} {l l' : List Segment}
    (h : takeFit size l = some (addr, l')) (hl : Sorted l) (hpos : ∀ s ∈ l, 0 < s.segSize) :
    (∀ x, cover l x = hit ⟨addr, size⟩ x + cover l' x) ∧ Sorted l' ∧ ∀ s ∈ l', 0 < s.segSize := by
  obtain ⟨before, seg, rest, after, rfl, rfl, rfl, hle, hrest⟩ := takeFit_eq_some h
  rw [Sorted, pairwise_append, pairwise_cons] at hl
  obtain ⟨hbefore, ⟨hseg, hafter⟩, hcross⟩ := hl
  have hsplit : ∀ x, hit seg x = hit ⟨seg.segAddr, size⟩ x + cover rest x := by
    intro x
    rcases hrest with ⟨rfl, rfl⟩ | ⟨-, rfl⟩
    · rfl
    · exact hit_split hle
  have hin : ∀ t ∈ rest, seg.segAddr ≤ t.segAddr ∧ t.segEnd = seg.segEnd ∧ 0 < t.segSize := by
    rintro t ht
    rcases hrest with ⟨rfl, -⟩ | ⟨hlt, rfl⟩
    · cases ht
    · cases mem_singleton.1 ht
      refine ⟨Nat.le_add_right _ _, ?_, Nat.sub_pos_of_lt hlt⟩
      change seg.segAddr + size + (seg.segSize - size) = seg.segAddr + seg.segSize
      omega
  refine ⟨fun x => ?_, ?_, ?_⟩
  · rw [cover_append, cover_cons, hsplit, cover_append, cover_append]
    omega
  · rw [Sorted, append_assoc, pairwise_append, pairwise_append]
    refine ⟨hbefore, ⟨?_, hafter, fun t ht u hu => (hin t ht).2.1 ▸ hseg u hu⟩, fun s hs t ht => ?_⟩
    · rcases hrest with ⟨rfl, -⟩ | ⟨-, rfl⟩
      · exact .nil
      · exact pairwise_singleton _ _
    · rcases mem_append.1 ht with ht | ht
      · exact (hcross s hs seg mem_cons_self).trans_le (hin t ht).1
      · exact hcross s hs t (mem_cons_of_mem _ ht)
  · intro t ht
    rcases mem_append.1 ht with ht | ht
    · rcases mem_append.1 ht with ht | ht
      · exact hpos t (mem_append_left _ ht)
      · exact (hin t ht).2.2
    · exact hpos t (mem_append_right _ (mem_cons_of_mem _ ht))

/-- The loop puts one segment in the place of those that the freed one is adjacent to. -/
theorem freeLoop_split {new : Segment} {before l : List Segment}
    (hsorted : Sorted (before.reverse ++ l)) (hbefore : ∀ p ∈ before, p.segEnd < new.segAddr)
    (hpos : ∀ s ∈ l, 0 < s.segSize)
    (hapart : ∀ s ∈ l, s.segEnd ≤ new.segAddr ∨ new.segEnd ≤ s.segAddr) :
    ∃ left merged right s, before.reverse ++ l = left ++ merged ++ right ∧
      freeLoop true new before l = left ++ s :: right ∧
      (∀ x, hit s x = cover merged x + hit new x) ∧ new.segSize ≤ s.segSize ∧
      (∀ p ∈ left, p.segEnd < s.segAddr) ∧ ∀ p ∈ right, s.segEnd < p.segAddr := by
  induction l generalizing before with
  | nil =>
    refine ⟨before.reverse, [], [], new, by simp, by simp [freeLoop], fun x => by simp, le_rfl,
      fun p hp => hbefore p (mem_reverse.1 hp), fun p hp => by cases hp⟩
  | cons seg rest ih =>
    obtain ⟨-, hrest, hcross⟩ := pairwise_append.1 hsorted
    obtain ⟨hseg, hrest⟩ := pairwise_cons.1 hrest
    have hleft : ∀ p ∈ before.reverse, p.segEnd < seg.segAddr := fun p hp =>
      hcross p hp seg mem_cons_self
    have hnew : ∀ p ∈ before.reverse, p.segEnd < new.segAddr := fun p hp =>
      hbefore p (mem_reverse.1 hp)
    have hside := hapart seg mem_cons_self
    have hpositive := hpos seg mem_cons_self
    have hend : seg.segEnd = seg.segAddr + seg.segSize := rfl
    have hnewEnd : new.segEnd = new.segAddr + new.segSize := rfl
    rw [freeLoop, if_pos (rfl : true = true)]
    split_ifs with hlt hgrow hmerge
    · have hjoin : ∀ x, hit ⟨seg.segAddr, seg.segSize + new.segSize⟩ x = hit seg x + hit new x :=
        fun x => hit_join hgrow rfl
      have hgrown : (⟨seg.segAddr, seg.segSize + new.segSize⟩ : Segment).segEnd = new.segEnd := by
        change seg.segAddr + (seg.segSize + new.segSize) = _
        omega
      cases rest with
      | nil =>
        exact ⟨before.reverse, [seg], [], _, by simp, rfl, fun x => by simp [hjoin],
          Nat.le_add_left _ _, hleft, fun p hp => by cases hp⟩
      | cons next rest =>
        rw [combineNext, hgrown]
        have hnext := hapart next (mem_cons_of_mem _ mem_cons_self)
        have hbelow := hseg next mem_cons_self
        obtain ⟨hrest, -⟩ := pairwise_cons.1 hrest
        have hnextEnd : next.segEnd = next.segAddr + next.segSize := rfl
        split_ifs with hcombine
        · refine ⟨before.reverse, [seg, next], rest, _, by simp, rfl, fun x => ?_, ?_, hleft,
            fun p hp => ?_⟩
          · rw [hit_join (hgrown.trans hcombine) (Nat.add_comm _ _), hjoin]
            simp only [cover_cons, cover_nil]
            omega
          · change new.segSize ≤ next.segSize + (seg.segSize + new.segSize)
            omega
          · have hp := hrest p hp
            change seg.segAddr + (next.segSize + (seg.segSize + new.segSize)) < _
            omega
        · refine ⟨before.reverse, [seg], next :: rest, _, by simp, rfl,
            fun x => by simp [hjoin], Nat.le_add_left _ _, hleft, fun p hp => ?_⟩
          rw [hgrown]
          have hp : next.segAddr ≤ p.segAddr := by
            rcases mem_cons.1 hp with rfl | hp
            · rfl
            · exact (Nat.le_add_right _ _).trans (hrest p hp).le
          omega
    · have hstep := @ih (seg :: before) (by simpa using hsorted)
        (by
          intro p hp
          rcases mem_cons.1 hp with rfl | hp
          · omega
          · exact hbefore p hp)
        (fun s hs => hpos s (mem_cons_of_mem _ hs))
        fun s hs => hapart s (mem_cons_of_mem _ hs)
      rwa [reverse_cons, append_assoc, singleton_append] at hstep
    · refine ⟨before.reverse, [seg], rest, ⟨new.segAddr, seg.segSize + new.segSize⟩, by simp, ?_,
        fun x => ?_, Nat.le_add_left _ _, hnew, fun p hp => ?_⟩
      · cases before with
        | nil => rfl
        | cons prev before =>
          rw [combinePrev, if_neg (hbefore prev mem_cons_self).ne]
          simp
      · rw [hit_join hmerge (Nat.add_comm _ _)]
        simp only [cover_cons, cover_nil]
        omega
      · have hp := hseg p hp
        change new.segAddr + (seg.segSize + new.segSize) < _
        omega
    · refine ⟨before.reverse, [], seg :: rest, new, by simp, rfl, fun x => by simp, le_rfl, hnew,
        fun p hp => ?_⟩
      rcases mem_cons.1 hp with rfl | hp
      · omega
      · have hp := hseg p hp
        omega

theorem freeLoop_spec {new : Segment} {l : List Segment} (hl : Sorted l)
    (hpos : ∀ s ∈ l, 0 < s.segSize) (hnew : 0 < new.segSize)
    (hapart : ∀ s ∈ l, s.segEnd ≤ new.segAddr ∨ new.segEnd ≤ s.segAddr) :
    (∀ x, cover (freeLoop true new [] l) x = cover l x + hit new x) ∧
      Sorted (freeLoop true new [] l) ∧ ∀ s ∈ freeLoop true new [] l, 0 < s.segSize := by
  obtain ⟨left, merged, right, s, hsplit, heq, hhit, hsize, hleft, hright⟩ :=
    @freeLoop_split new [] l hl (fun p hp => by cases hp) hpos hapart
  rw [reverse_nil, nil_append] at hsplit
  subst hsplit
  obtain ⟨hlm, hr, hcross⟩ := pairwise_append.1 hl
  rw [heq]
  refine ⟨fun x => ?_, ?_, fun t ht => ?_⟩
  · simp only [cover_append, cover_cons, hhit]
    omega
  · refine pairwise_append.2 ⟨(pairwise_append.1 hlm).1,
      pairwise_cons.2 ⟨hright, hr⟩, fun p hp t ht => ?_⟩
    rcases mem_cons.1 ht with rfl | ht
    · exact hleft p hp
    · exact hcross p (mem_append_left _ hp) t ht
  · rcases mem_append.1 ht with ht | ht
    · exact hpos t (mem_append_left _ (mem_append_left _ ht))
    · rcases mem_cons.1 ht with rfl | ht
      · exact hnew.trans_le hsize
      · exact hpos t (mem_append_right _ ht)

namespace Basic

variable {m m' : Basic} {addr n : ℕ}

theorem sizeAt_congr (h : ∀ j, addr ≤ j → j < addr + header → m.mem j = m'.mem j) :
    m.sizeAt (addr + header) = m'.sizeAt (addr + header) := by
  rw [sizeAt, sizeAt, Nat.add_sub_cancel, slice_congr h]

theorem sizeAt_cut (h : n < 256 ^ header) : (m.cut addr n).1.sizeAt (addr + header) = n := by
  have hread := @slice_blit _ m.mem addr (encodeLE header n)
  rw [length_encodeLE] at hread
  rw [sizeAt, Nat.add_sub_cancel, cut, hread, decodeLE_encodeLE, Nat.mod_eq_of_lt h]

end Basic

namespace World

variable {w : World} {m : Basic} {live rest : List Block} {b c : Block} {size : ℕ} {env : Env}

namespace Sound

theorem perm (h : Sound ⟨m, live⟩) (hp : live.Perm rest) : Sound ⟨m, rest⟩ where
  partition x := by
    rw [← h.partition x]
    exact congrArg _ (cover_perm (hp.symm.map _))
  disjoint := h.disjoint
  room b hb := h.room b (hp.mem_iff.2 hb)
  sizes b hb := h.sizes b (hp.mem_iff.2 hb)
  sorted := h.sorted
  pos := h.pos

theorem ptr_le (h : Sound w) (hb : b ∈ w.live) : b.ptr + b.requested ≤ b.segEnd := by
  have hroom := h.room b hb
  simp only [Block.ptr, segEnd]
  omega

theorem size_pos (h : Sound w) (hb : b ∈ w.live) : 0 < b.segSize :=
  (Nat.lt_of_lt_of_le (by decide) (Nat.le_add_left header _)).trans_le (h.room b hb)

theorem partition_cons (h : Sound ⟨m, b :: rest⟩) (x : ℕ) :
    cover m.segList x + (hit b.toSegment x + cover (rest.map Block.toSegment) x) =
      cover m.obtained x := by
  have hx := h.partition x
  rwa [blocks, map_cons, cover_cons] at hx

/-- A live block is apart from the other ones. -/
theorem apart (h : Sound ⟨m, b :: rest⟩) (hc : c ∈ rest) :
    b.segEnd ≤ c.segAddr ∨ c.segEnd ≤ b.segAddr := by
  refine apart_of_hit (h.size_pos mem_cons_self)
    (h.size_pos (mem_cons_of_mem _ hc)) fun x => ?_
  have hpart := h.partition_cons x
  have hle := hit_le_cover (x := x) (mem_map_of_mem (f := Block.toSegment) hc)
  have hone : cover m.obtained x ≤ 1 := h.disjoint x
  omega

theorem apart_free (h : Sound ⟨m, b :: rest⟩) {s : Segment} (hs : s ∈ m.segList) :
    s.segEnd ≤ b.segAddr ∨ b.segEnd ≤ s.segAddr := by
  refine apart_of_hit (h.pos s hs) (h.size_pos mem_cons_self) fun x => ?_
  have hpart := h.partition_cons x
  have hle := hit_le_cover (x := x) hs
  have hone : cover m.obtained x ≤ 1 := h.disjoint x
  omega

theorem handOut_eq (h : Sound ⟨m, b :: live⟩) :
    World.handOut m b.requested live b.ptr = ⟨m, b :: live⟩ := by
  have hsize : m.sizeAt b.ptr = b.segSize := h.sizes b mem_cons_self
  rw [World.handOut, hsize, Block.ptr, Nat.add_sub_cancel]

theorem handOut (h : Sound ⟨m, b :: live⟩) : Sound (World.handOut m b.requested live b.ptr) := by
  rw [h.handOut_eq]
  exact h

/-- A block is cut from memory that no live block lies in. -/
theorem cut {addr : ℕ} (h : w.Sound) (hmem : m.mem = w.basic.mem)
    (hsize : size + 2 * header < 2 ^ 64)
    (hpart : ∀ x, cover m.segList x + hit ⟨addr, blockSize size⟩ x + cover w.blocks x =
      cover m.obtained x)
    (hdisjoint : ∀ x, cover m.obtained x ≤ 1) (hsorted : Sorted m.segList)
    (hpos : ∀ s ∈ m.segList, 0 < s.segSize) :
    Sound ⟨(m.cut addr (blockSize size)).1, ⟨⟨addr, blockSize size⟩, size⟩ :: w.live⟩ := by
  have hlt := lt_blockSize hsize
  refine ⟨fun x => ?_, hdisjoint, fun b hb => ?_, fun b hb => ?_, hsorted, hpos⟩
  · have hx := hpart x
    rw [blocks, map_cons, cover_cons, ← Nat.add_assoc]
    exact hx
  · rcases mem_cons.1 hb with rfl | hb
    · exact hlt.le
    · exact h.room b hb
  · rcases mem_cons.1 hb with rfl | hb
    · exact Basic.sizeAt_cut (blockSize_lt size)
    · have hside : addr + blockSize size ≤ b.segAddr ∨ b.segEnd ≤ addr := by
        refine apart_of_hit (s := ⟨addr, blockSize size⟩) (Nat.zero_lt_of_lt hlt) (h.size_pos hb)
          fun x => ?_
        have hx := hpart x
        have hone := hdisjoint x
        have hle := hit_le_cover (x := x) (mem_map_of_mem (f := Block.toSegment) hb)
        rw [blocks] at hx
        omega
      have hroom := h.room b hb
      have hend : b.segEnd = b.segAddr + b.segSize := rfl
      rw [← h.sizes b hb]
      refine Basic.sizeAt_congr fun j h₁ h₂ => ?_
      change blit m.mem addr _ j = _
      rw [hmem]
      rcases hside with hside | hside
      · exact blit_of_ge (by rw [length_encodeLE]; omega)
      · exact blit_of_lt (by omega)

/-- An allocation returns `NULL` and changes nothing, or cuts a block. -/
theorem alloc (h : w.Sound) (hpromised : w.Promised size env) (hfits : w.Fits size env) :
    w.basic.alloc size env = (w.basic, none) ∨
      ∃ m b, w.basic.alloc size env = (m, some b.ptr) ∧ b.requested = size ∧
        m.mem = blit w.basic.mem b.segAddr (encodeLE header (blockSize size)) ∧
        Sound ⟨m, b :: w.live⟩ := by
  obtain ⟨hsize, hrest⟩ := hfits
  rw [Basic.alloc]
  cases hfit : takeFit (blockSize size) w.basic.segList with
  | some found =>
    obtain ⟨addr, segList⟩ := found
    obtain ⟨hcover, hsorted, hpos⟩ := takeFit_spec hfit h.sorted h.pos
    refine .inr ⟨_, ⟨⟨addr, _⟩, _⟩, rfl, rfl, rfl,
      h.cut rfl hsize (fun x => ?_) h.disjoint hsorted hpos⟩
    have hx := h.partition x
    have hx' := hcover x
    dsimp only
    omega
  | none =>
    cases henv : env.segment with
    | none => exact .inl rfl
    | some seg =>
      obtain ⟨hle, hdisjoint⟩ := hpromised seg henv
      dsimp only
      have hobtained : ∀ x, cover (seg :: w.basic.obtained) x ≤ 1 := fun x => by
        rw [cover_cons]
        exact hdisjoint x
      have hpart : ∀ x, cover (seg :: w.basic.obtained) x =
          hit seg x + (cover w.basic.segList x + cover w.blocks x) := fun x => by
        rw [cover_cons, h.partition]
      split_ifs with hlt hdescriptor
      · have habove := (hrest hfit seg henv hlt).2
        refine .inr ⟨_, ⟨⟨seg.segAddr, blockSize size⟩, size⟩, rfl, rfl, rfl,
          h.cut (m := ⟨_, seg :: _, _⟩) rfl hsize (fun x => ?_) hobtained ?_ fun s hs => ?_⟩
        · have hsplit : hit seg x = hit ⟨seg.segAddr, blockSize size⟩ x +
              hit ⟨seg.segAddr + blockSize size, seg.segSize - blockSize size⟩ x := hit_split hle
          rw [hpart]
          simp only [cover_append, cover_cons, cover_nil]
          omega
        · refine pairwise_append.2 ⟨h.sorted, pairwise_singleton _ _, fun s hs t ht => ?_⟩
          have hpos := lt_blockSize hsize
          have hside : s.segEnd ≤ seg.segAddr ∨ seg.segEnd ≤ s.segAddr := by
            refine apart_of_hit (h.pos s hs) (by omega) fun x => ?_
            have hone := hobtained x
            have hs := hit_le_cover (x := x) hs
            rw [hpart] at hone
            omega
          have hs := habove s hs
          cases mem_singleton.1 ht
          simp only [segEnd] at *
          omega
        · rcases mem_append.1 hs with hs | hs
          · exact h.pos s hs
          · cases mem_singleton.1 hs
            exact Nat.sub_pos_of_lt hlt
      · exact absurd (hrest hfit seg henv hlt).1 hdescriptor
      · obtain heq : seg.segSize = blockSize size := by omega
        refine .inr ⟨_, ⟨⟨seg.segAddr, blockSize size⟩, size⟩, rfl, rfl, rfl,
          h.cut (m := ⟨_, seg :: _, _⟩) rfl hsize (fun x => ?_) hobtained h.sorted h.pos⟩
        rw [hpart, ← heq]
        change cover w.basic.segList x + hit seg x + cover w.blocks x = _
        omega

/-- Bytes are written to what was requested of a live block. -/
theorem write {off : ℕ} {bytes : List UInt8} (h : Sound ⟨m, b :: rest⟩)
    (hlen : off + bytes.length ≤ b.requested) :
    Sound ⟨{ m with mem := blit m.mem (b.ptr + off) bytes }, b :: rest⟩ := by
  refine ⟨h.partition, h.disjoint, h.room, fun c hc => ?_, h.sorted, h.pos⟩
  have hend := h.ptr_le mem_cons_self
  have hc' := h.ptr_le hc
  have hptr : b.ptr = b.segAddr + header := rfl
  have hcptr : c.ptr = c.segAddr + header := rfl
  rw [← h.sizes c hc]
  refine Basic.sizeAt_congr fun j h₁ h₂ => ?_
  rcases mem_cons.1 hc with rfl | hc
  · exact blit_of_lt (by omega)
  · rcases h.apart hc with hside | hside
    · exact blit_of_ge (by omega)
    · exact blit_of_lt (by omega)

theorem free (h : Sound ⟨m, b :: rest⟩) (henv : env.freed = true) :
    Sound ⟨m.free b.ptr env, rest⟩ := by
  have hsize : m.sizeAt b.ptr = b.segSize := h.sizes b mem_cons_self
  have hfree : m.free b.ptr env = { m with segList := freeLoop true b.toSegment [] m.segList } := by
    rw [Basic.free, henv, hsize, Block.ptr, Nat.add_sub_cancel]
  obtain ⟨hcover, hsorted, hpos⟩ := @freeLoop_spec b.toSegment m.segList h.sorted h.pos
    (h.size_pos mem_cons_self) fun s hs => h.apart_free hs
  rw [hfree]
  refine ⟨fun x => ?_, h.disjoint, fun c hc => h.room c (mem_cons_of_mem _ hc),
    fun c hc => h.sizes c (mem_cons_of_mem _ hc), hsorted, hpos⟩
  have hx := h.partition_cons x
  change cover (freeLoop true b.toSegment [] m.segList) x + cover (rest.map Block.toSegment) x =
    cover m.obtained x
  rw [hcover]
  omega

theorem request (h : Sound ⟨m, b :: rest⟩) (hroom : size + header ≤ b.segSize) :
    Sound ⟨m, { b with requested := size } :: rest⟩ := by
  refine ⟨h.partition, h.disjoint, fun c hc => ?_, fun c hc => ?_, h.sorted, h.pos⟩
  · rcases mem_cons.1 hc with rfl | hc
    · exact hroom
    · exact h.room c (mem_cons_of_mem _ hc)
  · rcases mem_cons.1 hc with rfl | hc
    · exact h.sizes b mem_cons_self
    · exact h.sizes c (mem_cons_of_mem _ hc)

/-- A block that moves is copied to the new one and freed. -/
theorem move (h : Sound ⟨m, c :: w.live⟩) (hb : b ∈ w.live) (hlt : b.segSize < c.requested)
    (hfreed : env.freed = true) :
    Sound ⟨(m.memcpy c.ptr b.ptr b.segSize).free b.ptr env, c :: w.live.erase b⟩ := by
  have hlen : 0 + (slice m.mem b.ptr b.segSize).length ≤ c.requested := by
    rw [length_slice, Nat.zero_add]
    exact hlt.le
  have hcopied : Sound ⟨m.memcpy c.ptr b.ptr b.segSize, c :: w.live⟩ := h.write hlen
  exact (hcopied.perm (((perm_cons_erase hb).cons _).trans (.swap _ _ _))).free hfreed

theorem realloc (h : w.Sound) (hb : b ∈ w.live) (hpromised : w.Promised size env)
    (hmeets : w.Meets (.realloc b size env)) :
    Sound (w.apply (.realloc b size env)) ∧ w.Preserved b size env ∧
      (w.CopiesOnly b size env ↔ ∀ ptr ∈ (w.basic.realloc b.ptr size env).2.1, ptr = b.ptr) := by
  have hsize := h.sizes b hb
  have hroom := h.room b hb
  have hheader : 0 + header ≤ b.segSize := by omega
  rcases hmeets with hin | ⟨hlt, hfits, hfreed⟩
  · have hstep : w.basic.realloc b.ptr size env = (w.basic, some b.ptr, 0) := by
      rw [Basic.realloc, hsize]
      exact if_pos (by omega)
    have hlive := (h.perm (perm_cons_erase hb)).request hin
    rw [apply, Preserved, CopiesOnly, hstep]
    refine ⟨?_, fun ptr hptr i _ => ?_, iff_of_true hheader fun ptr hptr => ?_⟩
    · exact hlive.handOut
    · cases hptr
      rfl
    · cases hptr
      rfl
  · have hstep : w.basic.realloc b.ptr size env =
        match w.basic.alloc size env with
        | (m, none) => (m, none, 0)
        | (m, some addr) =>
          ((m.memcpy addr b.ptr b.segSize).free b.ptr env, some addr, b.segSize) := by
      rw [Basic.realloc, hsize]
      exact if_neg (by omega)
    rcases h.alloc hpromised hfits with heq | ⟨m, c, heq, rfl, hmem, hnew⟩
    · rw [heq] at hstep
      replace hstep : w.basic.realloc b.ptr size env = (w.basic, none, 0) := hstep
      rw [apply, Preserved, CopiesOnly, hstep]
      exact ⟨h, fun ptr hptr => (by cases hptr), iff_of_true hheader fun ptr hptr => by cases hptr⟩
    · rw [heq] at hstep
      replace hstep : w.basic.realloc b.ptr c.requested env =
        ((m.memcpy c.ptr b.ptr b.segSize).free b.ptr env, some c.ptr, b.segSize) := hstep
      have hmove := hnew.move hb hlt hfreed
      have hpos := hnew.size_pos (mem_cons_of_mem _ hb)
      have hend : b.segEnd = b.segAddr + b.segSize := rfl
      have hptr : b.ptr = b.segAddr + header := rfl
      rw [apply, Preserved, CopiesOnly, hstep]
      refine ⟨?_, fun ptr hptr i hi => ?_, iff_of_false ?_ fun hptr => ?_⟩
      · exact hmove.handOut
      · cases hptr
        have hread : (slice m.mem b.ptr b.segSize)[i]? = some (m.mem (b.ptr + i)) := by
          have hread := getElem?_slice (b := m.mem) (Nat.le_add_right b.ptr i)
            (show b.ptr + i < b.ptr + b.segSize by omega)
          rwa [Nat.add_sub_cancel_left] at hread
        change blit m.mem c.ptr (slice m.mem b.ptr b.segSize) (c.ptr + i) = _
        rw [blit, if_pos (Nat.le_add_right _ _), Nat.add_sub_cancel_left, hread, Option.getD_some,
          hmem]
        rcases hnew.apart hb with hside | hside
        · refine blit_of_ge ?_
          have hroom := hnew.ptr_le mem_cons_self
          have hcptr : c.ptr = c.segAddr + header := rfl
          rw [length_encodeLE]
          omega
        · exact blit_of_lt (by omega)
      · exact (Nat.lt_add_of_pos_right (by decide)).not_ge
      · have hsame : c.segAddr = b.segAddr := Nat.add_right_cancel (hptr _ rfl)
        have hcpos := hnew.size_pos mem_cons_self
        have hcend : c.segEnd = c.segAddr + c.segSize := rfl
        have hside := hnew.apart hb
        omega

/-- Every call keeps the allocator sound. -/
theorem call (h : w.Sound) {call : Call} (hallowed : w.Allowed call) (hmeets : w.Meets call) :
    Sound (w.apply call) := by
  cases call with
  | alloc size env =>
    rcases h.alloc hallowed hmeets with heq | ⟨m, b, heq, rfl, -, hnew⟩
    · rw [apply, heq]
      exact h
    · rw [apply, heq]
      exact hnew.handOut
  | realloc b size env => exact (h.realloc hallowed.1 hallowed.2 hmeets).1
  | free b env => exact (h.perm (perm_cons_erase hallowed)).free hmeets
  | write b off bytes =>
    have hperm := perm_cons_erase hallowed.1
    exact ((h.perm hperm).write hallowed.2).perm hperm.symm

end Sound

/-- The allocator is sound after every run, reallocations preserve the contents, and copy bytes
of the old block only exactly when the block does not move. -/
theorem sound_of_reach (h : Reach Meets w) :
    w.Sound ∧ ∀ b ∈ w.live, ∀ size env, w.Promised size env → w.Meets (.realloc b size env) →
      w.Preserved b size env ∧ (w.CopiesOnly b size env ↔
          ∀ ptr ∈ (w.basic.realloc b.ptr size env).2.1, ptr = b.ptr) := by
  have hsound : w.Sound := by
    induction h with
    | init mem => exact ⟨fun _ => rfl, fun _ => Nat.zero_le _, by simp, by simp, .nil, by simp⟩
    | call _ hallowed hmeets ih => exact ih.call hallowed hmeets
  exact ⟨hsound, fun b hb size env hpromised hmeets => (hsound.realloc hb hpromised hmeets).2⟩

/-- A block for five bytes, cut from a segment of 64. -/
def allocated : World := apply ⟨⟨[], [], fun _ => 0⟩, []⟩ (.alloc 5 ⟨some ⟨4096, 64⟩, true, true⟩)

theorem reach_allocated (cond : World → Call → Prop)
    (h : cond ⟨⟨[], [], fun _ => 0⟩, []⟩ (.alloc 5 ⟨some ⟨4096, 64⟩, true, true⟩)) :
    Reach cond allocated := by
  refine .call (.init _) (fun seg hseg => ?_) h
  cases hseg
  refine ⟨by decide, fun x => ?_⟩
  rw [hit, cover_nil]
  split_ifs <;> decide

/-- A second block follows the first one; the first moves to a new segment when 17 bytes are asked
for, and the second is freed between the two pieces that are left. -/
def movedRun : List Call :=
  [.alloc 20 ⟨none, true, true⟩, .realloc ⟨⟨4096, 16⟩, 5⟩ 17 ⟨some ⟨8192, 32⟩, true, true⟩,
    .free ⟨⟨4112, 32⟩, 20⟩ ⟨none, true, true⟩]

theorem moved_sound : (movedRun.foldl apply allocated).Sound ∧
    (movedRun.foldl apply allocated).basic.segList = [⟨4096, 64⟩] ∧
    (movedRun.foldl apply allocated).blocks = [⟨8192, 32⟩] := by
  have hallocated : Reach Meets allocated := by
    refine reach_allocated Meets ⟨by decide, fun _ _ _ _ => ⟨rfl, fun s hs => ?_⟩⟩
    cases hs
  have hsecond : Reach Meets (allocated.apply (.alloc 20 ⟨none, true, true⟩)) :=
    hallocated.call (fun _ h => nomatch h) ⟨by decide, fun _ _ h => nomatch h⟩
  have hmoved := hsecond.call (c := .realloc ⟨⟨4096, 16⟩, 5⟩ 17 ⟨some ⟨8192, 32⟩, true, true⟩)
    ⟨by decide, fun seg hseg => ?_⟩ (.inr ⟨by decide, ⟨by decide, fun _ seg hseg hlt => ?_⟩, rfl⟩)
  · have hlive : ⟨⟨4112, 32⟩, 20⟩ ∈ ((movedRun.take 2).foldl apply allocated).live := by decide
    have hfreed := hmoved.call (c := .free ⟨⟨4112, 32⟩, 20⟩ ⟨none, true, true⟩) hlive rfl
    exact ⟨(sound_of_reach hfreed).1, rfl, rfl⟩
  · cases hseg
    refine ⟨by decide, fun x => ?_⟩
    change hit ⟨8192, 32⟩ x + (hit ⟨4096, 64⟩ x + 0) ≤ 1
    grind [hit, segEnd]
  · cases hseg
    exact absurd hlt (by decide)

/-- Sixteen bytes are asked for, as many as the block has with its header. -/
theorem not_sound : ¬ ∀ w, Reach (fun _ _ => True) w → w.Sound := by
  intro h
  have hgrown : Reach (fun _ _ => True)
      (allocated.apply (.realloc ⟨⟨4096, 16⟩, 5⟩ 16 ⟨none, true, true⟩)) := by
    refine .call (reach_allocated _ trivial) ⟨by decide, fun seg hseg => ?_⟩ trivial
    cases hseg
  have hroom := (h _ hgrown).room ⟨⟨4096, 16⟩, 16⟩ (by decide)
  exact absurd hroom (by decide)

end World

end Ulfm.BasicAllocator
