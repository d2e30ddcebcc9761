import Mathlib.Data.List.Basic

/-!
# The additive checksum

`opal_uicsum_partial` adds up the words of a buffer. The word that is begun at the end of a
buffer counts at once, padded with zeros, and is carried to the next call, which adds what
its bytes change. The order of the bytes in a word is the parameter `word`.
-/

namespace Ulfm.Opal

open List

abbrev Bytes := List (BitVec 8)

/-- `*lastPartialInt`, as it is in memory, and `*lastPartialLength`. -/
structure LastPartial where
  int : Bytes
  length : Nat

def LastPartial.zero : LastPartial := ⟨replicate 4 0, 0⟩

/-- `memcpy((char *)&temp + start, src, n)` for the `n` bytes of `src`. -/
def fillInt (temp : Bytes) (start : Nat) (src : Bytes) : Bytes :=
  temp.take start ++ src ++ temp.drop (start + src.length)

section Checksum

variable (word : Bytes → BitVec 32)

/-- The sum of the whole words of a buffer, and the bytes after them. The loops read a word
where it is, or by `memcpy`. -/
def wholeWords : Bytes → BitVec 32 × Bytes
  | a :: b :: c :: d :: src =>
    let (csum, rest) := wholeWords src
    (word [a, b, c, d] + csum, rest)
  | src => (0, src)

/-- The last block of the function, for the bytes that are left. -/
def csumLeft (csum : BitVec 32) (src : Bytes) (last : LastPartial) : BitVec 32 × LastPartial :=
  if src.length = 0 then (csum, last)
  else if last.length ≠ 0 then
    if 4 - last.length ≤ src.length then
      let temp := fillInt last.int last.length (src.take (4 - last.length))
      let src := src.drop (4 - last.length)
      let next := fillInt (replicate 4 0) 0 src
      (csum + (word temp - word last.int) + word next, ⟨next, src.length⟩)
    else
      let temp := fillInt last.int last.length src
      (csum + (word temp - word last.int), ⟨temp, last.length + src.length⟩)
  else
    let temp := fillInt last.int 0 src
    (csum + word temp, ⟨temp, src.length⟩)

def intAligned (v : Nat) : Bool := v % 4 = 0

def uicsumPartial (source : Nat) (src : Bytes) (last : LastPartial) : BitVec 32 × LastPartial :=
  if last.length ≠ 0 then
    if 4 - last.length ≤ src.length then
      let temp := fillInt last.int last.length (src.take (4 - last.length))
      let (csum, rest) := wholeWords word (src.drop (4 - last.length))
      csumLeft word (word temp - word last.int + csum) rest .zero
    else
      let temp := fillInt last.int last.length src
      (word temp - word last.int, ⟨temp, last.length + src.length⟩)
  else
    let (csum, rest) := wholeWords word src
    -- an aligned source of whole words returns before the last block
    if intAligned source ∧ intAligned src.length then (csum, .zero)
    else csumLeft word csum rest .zero

/-- The sum of what the calls return for the pieces of a stream, each at its address. -/
def csumPieces (last : LastPartial) : List (Nat × Bytes) → BitVec 32
  | [] => 0
  | (source, src) :: pieces =>
    let (csum, last) := uicsumPartial word source src last
    csum + csumPieces last pieces

/-- The bytes of the word that the end of a stream has begun. -/
def begun (src : Bytes) : Bytes := (wholeWords word src).2

def padded (src : Bytes) : Bytes := src ++ replicate (4 - src.length) 0

/-- The sum of the words of a stream; a word that is only begun is padded with zeros. -/
def streamSum (src : Bytes) : BitVec 32 :=
  (wholeWords word src).1 + if begun word src = [] then 0 else word (padded (begun word src))

/-- What a call leaves is the word that the stream has begun. -/
structure Carries (last : LastPartial) (begun : Bytes) : Prop where
  lt : begun.length < 4
  length : last.length = begun.length
  int : last.int = padded begun

variable {src stream : Bytes} {last : LastPartial}

theorem carries_zero : Carries .zero [] := ⟨Nat.zero_lt_succ 3, rfl, rfl⟩

theorem wholeWords_append (src more : Bytes) : wholeWords word (src ++ more) =
    ((wholeWords word src).1 + (wholeWords word (begun word src ++ more)).1,
      begun word (begun word src ++ more)) := by
  fun_induction wholeWords word src with
  | case1 a b c d src csum rest hsrc ih =>
    have hbegun : begun word (a :: b :: c :: d :: src) = begun word src := by
      rw [begun, wholeWords, hsrc, begun, hsrc]
    rw [cons_append, cons_append, cons_append, cons_append, wholeWords, ih, hbegun, hsrc,
      BitVec.add_assoc]
  | case2 src hshort =>
    have hbegun : begun word src = src := by
      rw [begun, wholeWords]
      exact hshort
    rw [hbegun]
    exact Prod.ext (BitVec.zero_add _).symm rfl

theorem length_begun (src : Bytes) : (begun word src).length = src.length % 4 := by
  fun_induction wholeWords word src with
  | case1 a b c d src csum rest hsrc ih =>
    have hbegun : begun word (a :: b :: c :: d :: src) = begun word src := by
      rw [begun, wholeWords, hsrc, begun, hsrc]
    rw [hbegun, ih]
    exact (Nat.add_mod_right src.length 4).symm
  | case2 src hshort =>
    rcases src with _ | ⟨a, _ | ⟨b, _ | ⟨c, _ | ⟨d, src⟩⟩⟩⟩
    · rfl
    · rfl
    · rfl
    · rfl
    · exact absurd rfl (hshort a b c d src)

theorem wholeWords_short (hlt : src.length < 4) : wholeWords word src = (0, src) := by
  rcases src with _ | ⟨a, _ | ⟨b, _ | ⟨c, _ | ⟨d, src⟩⟩⟩⟩
  · rfl
  · rfl
  · rfl
  · rfl
  · simp at hlt
    omega

theorem streamSum_word {temp : Bytes} (htemp : temp.length = 4) (src : Bytes) :
    streamSum word (temp ++ src) = word temp + streamSum word src ∧
      begun word (temp ++ src) = begun word src := by
  rcases temp with _ | ⟨a, _ | ⟨b, _ | ⟨c, _ | ⟨d, _ | ⟨e, temp⟩⟩⟩⟩⟩
  · cases htemp
  · cases htemp
  · cases htemp
  · cases htemp
  · exact ⟨BitVec.add_assoc .., rfl⟩
  · cases htemp

theorem streamSum_append (src more : Bytes) : streamSum word (src ++ more) =
      (wholeWords word src).1 + streamSum word (begun word src ++ more) ∧
    begun word (src ++ more) = begun word (begun word src ++ more) := by
  have hbegun : begun word (src ++ more) = begun word (begun word src ++ more) := by
    rw [begun, wholeWords_append]
  refine ⟨?_, hbegun⟩
  rw [streamSum, hbegun, wholeWords_append, BitVec.add_assoc, streamSum]

theorem streamSum_short (hlt : src.length < 4) :
    streamSum word src = if src = [] then 0 else word (padded src) := by
  rw [streamSum, begun, wholeWords_short word hlt]
  exact BitVec.zero_add _

theorem fillInt_carries (h : Carries last stream) (src : Bytes)
    (hle : stream.length + src.length ≤ 4) :
    fillInt last.int last.length src = padded (stream ++ src) := by
  rw [fillInt, h.length, h.int, padded, take_left, drop_append, drop_eq_nil_of_le (by omega),
    nil_append, drop_replicate, padded, length_append]
  congr 2
  omega

theorem csumLeft_spec (csum : BitVec 32) (hlt : src.length < 4) :
    (csumLeft word csum src .zero).1 = csum + streamSum word src ∧
      Carries (csumLeft word csum src .zero).2 src := by
  rw [csumLeft, streamSum_short word hlt]
  by_cases hsrc : src = []
  · rw [hsrc]
    exact ⟨(BitVec.add_zero csum).symm, carries_zero⟩
  · have hint := fillInt_carries carries_zero src (by simpa using Nat.le_of_lt hlt)
    rw [if_neg fun h => hsrc (length_eq_zero_iff.1 h), if_neg fun h => h rfl, if_neg hsrc]
    exact ⟨congrArg (csum + word ·) hint, hlt, rfl, hint⟩

/-- One call adds what the buffer adds to the sum of the stream, wherever the buffer is. -/
theorem uicsumPartial_spec (h : Carries last stream) (source : Nat) (src : Bytes) :
    streamSum word stream + (uicsumPartial word source src last).1 =
        streamSum word (stream ++ src) ∧
      Carries (uicsumPartial word source src last).2 (begun word (stream ++ src)) := by
  have hlt := h.lt
  have hrest : ∀ rest, streamSum word rest =
      (wholeWords word rest).1 + streamSum word (begun word rest) := by
    intro rest
    simpa using (streamSum_append word rest []).1
  have hleft := fun csum rest => csumLeft_spec word csum (show (begun word rest).length < 4 by
    rw [length_begun]; exact Nat.mod_lt _ (by decide))
  rw [uicsumPartial, h.length, streamSum_short word hlt]
  by_cases hstream : stream = []
  · rw [if_pos hstream, if_neg fun h => h (length_eq_zero_iff.2 hstream), hstream, nil_append]
    dsimp only
    split_ifs with haligned
    · have hnil : begun word src = [] := by
        rw [← length_eq_zero_iff, length_begun]
        exact of_decide_eq_true haligned.2
      rw [streamSum, if_pos hnil, hnil]
      exact ⟨BitVec.add_comm .., carries_zero⟩
    · refine ⟨?_, (hleft _ src).2⟩
      rw [hrest src]
      exact (BitVec.zero_add _).trans (hleft _ src).1
  · have hpos := length_pos_iff.2 hstream
    rw [if_neg hstream, if_pos (Nat.ne_of_gt hpos), ← h.int]
    split_ifs with hle
    · have htake : (src.take (4 - stream.length)).length = 4 - stream.length :=
        length_take_of_le hle
      have hint := fillInt_carries h (src.take (4 - stream.length)) (by omega)
      have hsrc : src = src.take (4 - stream.length) ++ src.drop (4 - stream.length) :=
        (take_append_drop ..).symm
      generalize src.take (4 - stream.length) = first, src.drop (4 - stream.length) = rest
        at htake hint hsrc ⊢
      have htemp : (stream ++ first).length = 4 := by rw [length_append, htake]; omega
      rw [h.length, padded, htemp, Nat.sub_self, replicate_zero, append_nil] at hint
      obtain ⟨hwords, hbegun⟩ := streamSum_word word htemp rest
      rw [hsrc, ← append_assoc, hint, hwords, hbegun, hrest rest]
      refine ⟨(congrArg _ (hleft _ rest).1).trans ?_, (hleft _ rest).2⟩
      rw [BitVec.add_assoc, ← BitVec.add_assoc, BitVec.add_comm (word last.int),
        BitVec.sub_add_cancel]
    · have hshort : (stream ++ src).length < 4 := by rw [length_append]; omega
      have hint := fillInt_carries h src (by omega)
      rw [h.length] at hint
      rw [begun, wholeWords_short word hshort, streamSum_short word hshort,
        if_neg (by simp [hstream]), hint]
      exact ⟨by rw [BitVec.add_comm, BitVec.sub_add_cancel], hshort, length_append.symm, rfl⟩

/-- The checksum does not depend on how the stream is cut into pieces, nor on where in
memory the pieces are. -/
theorem uicsum_of_pieces (word : Bytes → BitVec 32) (pieces : List (Nat × Bytes)) :
    csumPieces word .zero pieces = streamSum word (pieces.flatMap (·.2)) := by
  have hrun : ∀ {last stream}, Carries last stream → streamSum word stream +
      csumPieces word last pieces = streamSum word (stream ++ pieces.flatMap (·.2)) := by
    induction pieces with
    | nil =>
      intro last stream _
      rw [csumPieces, flatMap_nil, append_nil]
      exact BitVec.add_zero _
    | cons piece pieces ih =>
      intro last stream h
      obtain ⟨hsum, hcarries⟩ := uicsumPartial_spec word h piece.1 piece.2
      have hbegun := (streamSum_append word (stream ++ piece.2) []).1
      rw [append_nil, append_nil] at hbegun
      rw [csumPieces, ← BitVec.add_assoc, hsum, flatMap_cons, ← append_assoc,
        (streamSum_append word (stream ++ piece.2) _).1, ← ih hcarries, hbegun, BitVec.add_assoc]
  exact (BitVec.zero_add _).symm.trans (hrun carries_zero)

end Checksum

end Ulfm.Opal
