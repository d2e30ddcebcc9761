import Ulfm.Foundation.Exchange
import Ulfm.Tuned.Folding

/-!
# Recursive doubling

The processes with a new rank exchange their data with the process whose new rank differs in one
bit. The reduction keeps the order of the ranks.
-/

namespace Ulfm

open Script FoldMessages List Nat

variable {E : Type}

/-- The arguments of the algorithms for `MPI_Allreduce`, at a process. -/
structure AllreduceArgs (E : Type) where
  op : E → E → E
  rank : ℕ
  size : ℕ
  count : ℕ
  /-- Of the datatype. -/
  layout : Layout
  /-- None for `MPI_IN_PLACE`. -/
  sbuf : Option (Buf E)
  rbuf : Buf E
  /-- What is in memory that is allocated and not yet written. -/
  garbage : Buf E

/-- The buffers of recursive doubling, and whether they are swapped: then `tmpsend` is the receive
buffer, otherwise `tmprecv` is. -/
structure DoublingState (E : Type) where
  tmpsend : Buf E
  tmprecv : Buf E
  swapped : Bool

namespace AllreduceArgs

variable (a : AllreduceArgs E)

/-- The receive buffer with the own data, which are there already for `MPI_IN_PLACE`. -/
def copiedRbuf : Buf E :=
  match a.sbuf with
  | none => a.rbuf
  | some sbuf => blit a.rbuf 0 (slice sbuf 0 a.count)

/-- A message is received into `tmprecv`. -/
def waitTmp (src : ℕ) (st : DoublingState E) : Script (List E) (DoublingState E) := do
  let msg ← waitFor src
  if a.count < msg.length then error else pure { st with tmprecv := blit st.tmprecv 0 msg }

/-- `tmpsend = tmprecv op tmpsend`. -/
def reduceTmp (st : DoublingState E) : DoublingState E :=
  { st with tmpsend := opReduce a.op (slice st.tmprecv 0 a.count) st.tmpsend 0 }

/-- The even extra ranks send their data to the odd ones. The result has the new rank. -/
def foldIn (extraRanks : ℕ) (st : DoublingState E) : Script (List E) (Option ℕ × DoublingState E) :=
  if a.rank < 2 * extraRanks then
    if a.rank % 2 = 0 then do
      sendTo (a.rank + 1) (slice st.tmpsend 0 a.count)
      pure (none, st)
    else do
      postFor (a.rank - 1)
      let st ← a.waitTmp (a.rank - 1) st
      pure (some (a.rank >>> 1), a.reduceTmp st)
  else pure (some (a.rank - extraRanks), st)

/-- The exchange with a process. The one with the lower rank swaps its buffers, so that its data
stay on the left. -/
def exchangeWith (remote : ℕ) (st : DoublingState E) : Script (List E) (DoublingState E) := do
  postFor remote
  sendTo remote (slice st.tmpsend 0 a.count)
  let st ← a.waitTmp remote st
  if a.rank < remote then
    pure ⟨opReduce a.op (slice st.tmpsend 0 a.count) st.tmprecv 0, st.tmpsend, !st.swapped⟩
  else pure (a.reduceTmp st)

def doublingLoop (adjsize extraRanks newrank : ℕ) :
    ℕ → ℕ → DoublingState E → Script (List E) (DoublingState E)
  | 0, _, _ => fault
  | fuel + 1, distance, st =>
    if distance < adjsize then do
      let st ← a.exchangeWith (remoteRank extraRanks (newrank ^^^ distance)) st
      doublingLoop adjsize extraRanks newrank fuel (distance <<< 1) st
    else pure st

def foldOut (extraRanks : ℕ) (st : DoublingState E) : Script (List E) (DoublingState E) :=
  if a.rank < 2 * extraRanks then
    if a.rank % 2 = 0 then do
      let msg ← recvFrom (a.rank + 1)
      if a.count < msg.length then error
      else
        let rbuf := if st.swapped then st.tmpsend else st.tmprecv
        pure { st with tmpsend := blit rbuf 0 msg, swapped := true }
    else do
      sendTo (a.rank - 1) (slice st.tmpsend 0 a.count)
      pure st
  else pure st

/-- The result is copied into the receive buffer. -/
def copyResult (st : DoublingState E) : Buf E :=
  if st.swapped then st.tmpsend else blit st.tmprecv 0 (slice st.tmpsend 0 a.count)

/-- `ompi_coll_tuned_allreduce_intra_recursivedoubling`. It returns the receive buffer. -/
def allreduceIntraRecursivedoubling : Script (List E) (Buf E) :=
  if a.size = 1 then pure a.copiedRbuf
  else do
    allocate a.layout 0 (a.layout.bytes a.count) a.count
    -- `opal_next_poweroftwo` computes with an `int`
    if 2 ^ 31 ≤ nextPowerOfTwo a.size then fault
    else do
      let inplacebuf := blit a.garbage 0 (slice (a.sbuf.getD a.rbuf) 0 a.count)
      let adjsize := nextPowerOfTwo a.size >>> 1
      let extraRanks := a.size - adjsize
      let (newrank, st) ← a.foldIn extraRanks ⟨inplacebuf, a.rbuf, false⟩
      let st ← (match newrank with
        | none => pure st
        | some newrank => a.doublingLoop adjsize extraRanks newrank (adjsize + 1) 1 st)
      let st ← a.foldOut extraRanks st
      pure (a.copyResult st)

end AllreduceArgs

section Doubled

variable {op : E → E → E} {data : ℕ → Buf E} {e k i j : ℕ}

/-- The reduction of the data of the processes whose new ranks differ from `i` in the lowest `k`
bits only. -/
def doubled (op : E → E → E) (data : ℕ → Buf E) (e k i : ℕ) : Buf E := fun j =>
  opRange op (fun rank => data rank j) (firstRank e (i / 2 ^ k * 2 ^ k))
    (remoteRank e (i / 2 ^ k * 2 ^ k + 2 ^ k - 1) - firstRank e (i / 2 ^ k * 2 ^ k))

theorem doubled_zero_of_lt (hi : i < e) :
    doubled op data e 0 i j = op (data (2 * i) j) (data (2 * i + 1) j) := by
  have hfirst : firstRank e i = 2 * i := by
    rw [firstRank]
    omega
  rw [doubled, pow_zero, Nat.div_one, Nat.mul_one, Nat.add_sub_cancel, hfirst,
    remoteRank_of_lt hi, Nat.add_sub_cancel_left]
  rfl

theorem doubled_zero_of_ge (hi : e ≤ i) : doubled op data e 0 i j = data (i + e) j := by
  have hfirst : firstRank e i = i + e := by rw [firstRank, min_eq_right hi]
  rw [doubled, pow_zero, Nat.div_one, Nat.mul_one, Nat.add_sub_cancel, hfirst, remoteRank,
    if_neg hi.not_gt, Nat.sub_self]
  rfl

theorem doubled_of_even (hassoc : ∀ a b c, op (op a b) c = op a (op b c)) (h : Even (i / 2 ^ k)) :
    doubled op data e (k + 1) i j = op (doubled op data e k i j)
      (doubled op data e k (i ^^^ 2 ^ k) j) := by
  obtain ⟨c, hc⟩ := h
  have hpos : 0 < 2 ^ k := Nat.two_pow_pos k
  have hpeer : (i ^^^ 2 ^ k) / 2 ^ k = i / 2 ^ k + 1 := by
    rw [xor_two_pow_of_even ⟨c, hc⟩, add_div_right _ hpos]
  have hhalf : i / 2 ^ (k + 1) = c := by
    rw [pow_succ, ← Nat.div_div_eq_div_mul, hc]
    omega
  have hstart : i / 2 ^ (k + 1) * 2 ^ (k + 1) = i / 2 ^ k * 2 ^ k := by
    rw [hhalf, hc, pow_succ', ← Nat.mul_assoc, Nat.mul_two]
  set b := i / 2 ^ k * 2 ^ k with hb
  have hnext : (i / 2 ^ k + 1) * 2 ^ k = b + 2 ^ k := succ_mul _ _
  have hfirst : firstRank e (b + 2 ^ k) = remoteRank e (b + 2 ^ k - 1) + 1 := by
    rw [← firstRank_succ, Nat.sub_add_cancel (by omega)]
  have hend : b + 2 ^ (k + 1) - 1 = b + 2 ^ k + 2 ^ k - 1 := by
    rw [pow_succ]
    omega
  rw [doubled, doubled, doubled, hpeer, hnext, hstart, ← hb, hend, hfirst]
  refine (opRange_split hassoc _ ?_ ?_).symm
  · exact (firstRank_mono (by omega)).trans firstRank_le
  · exact remoteRank_lt_iff.2 (by omega)

theorem doubled_of_odd (hassoc : ∀ a b c, op (op a b) c = op a (op b c)) (h : Odd (i / 2 ^ k)) :
    doubled op data e (k + 1) i j = op (doubled op data e k (i ^^^ 2 ^ k) j)
      (doubled op data e k i j) := by
  have hxor := xor_two_pow_of_odd h
  have hdiv : i / 2 ^ k = (i ^^^ 2 ^ k) / 2 ^ k + 1 := by
    conv_lhs => rw [← hxor, add_div_right _ (Nat.two_pow_pos k)]
  have heven : Even ((i ^^^ 2 ^ k) / 2 ^ k) := by
    rw [hdiv, Nat.odd_add_one, not_odd_iff_even] at h
    exact h
  have hsame : i / 2 ^ (k + 1) = (i ^^^ 2 ^ k) / 2 ^ (k + 1) := by
    rw [pow_succ, ← Nat.div_div_eq_div_mul, ← Nat.div_div_eq_div_mul, hdiv]
    obtain ⟨c, hc⟩ := heven
    omega
  have hback : i ^^^ 2 ^ k ^^^ 2 ^ k = i := by rw [Nat.xor_assoc, Nat.xor_self, xor_zero]
  have hstep : doubled op data e (k + 1) (i ^^^ 2 ^ k) j =
      op (doubled op data e k (i ^^^ 2 ^ k) j) (doubled op data e k (i ^^^ 2 ^ k ^^^ 2 ^ k) j) :=
    doubled_of_even hassoc heven
  rw [hback] at hstep
  rw [← hstep, doubled, doubled, hsame]

theorem doubled_last {n L : ℕ} (h : Folded n L e) (hi : i < 2 ^ L) :
    doubled op data e L i j = opRange op (fun rank => data rank j) 0 (n - 1) := by
  have hzero : firstRank e 0 = 0 := by rw [firstRank, Nat.zero_min]
  have hlast : remoteRank e (2 ^ L - 1) = n - 1 := by
    have hsucc := firstRank_succ (e := e) (i := 2 ^ L - 1)
    rw [Nat.sub_add_cancel (Nat.two_pow_pos L), h.firstRank_two_pow] at hsucc
    omega
  rw [doubled, div_eq_of_lt hi, Nat.zero_mul, Nat.zero_add, hzero, hlast, Nat.sub_zero]

end Doubled

namespace AllreduceArgs

variable {a : AllreduceArgs E} {data : ℕ → Buf E} {n L e k i : ℕ} {st : DoublingState E}

/-- What a process with a new rank has before the stage `k`. -/
def Doubled (a : AllreduceArgs E) (data : ℕ → Buf E) (e i k : ℕ) (st : DoublingState E) : Prop :=
  ∀ j < a.count, st.tmpsend j = doubled a.op data e k i j

theorem follows_waitTmp {src : ℕ} {x : Buf E} :
    Follows (a.waitTmp src st) [.recv src (slice x 0 a.count)]
      { st with tmprecv := blit st.tmprecv 0 (slice x 0 a.count) } := by
  rw [waitTmp]
  refine follows_waitFor.bind_pure ?_
  rw [length_slice, if_neg (lt_irrefl _)]
  exact follows_pure _

theorem reduceTmp_tmpsend {x : Buf E} {j : ℕ} (hj : j < a.count) :
    (a.reduceTmp { st with tmprecv := blit st.tmprecv 0 (slice x 0 a.count) }).tmpsend j =
      a.op (x j) (st.tmpsend j) := by
  have hread : slice (blit st.tmprecv 0 (slice x 0 a.count)) 0 a.count = slice x 0 a.count :=
    slice_congr fun j h₁ h₂ => blit_slice h₁ h₂
  simp only [reduceTmp, hread]
  exact opReduce_slice (Nat.zero_le j) (by omega)

def doublingMessages (op : E → E → E) (data : ℕ → Buf E) (e count : ℕ) (result : Buf E) :
    FoldMessages (List E) where
  inMsg i := slice (data (2 * i)) 0 count
  bit k := k
  stage k i := some (slice (doubled op data e k i) 0 count)
  outMsg _ := some (slice result 0 count)

section

variable (h : Doubled a data e i k st) (hrank : a.rank = remoteRank e i)
  (hassoc : ∀ x y z, a.op (a.op x y) z = a.op x (a.op y z)) (result : Buf E)
include h hrank hassoc result

theorem Doubled.exchangeWith : ∃ st', Follows (a.exchangeWith (remoteRank e (i ^^^ 2 ^ k)) st)
      ((doublingMessages a.op data e a.count result).stageEvents e i k) st' ∧
      Doubled a data e i (k + 1) st' := by
  set x := doubled a.op data e k (i ^^^ 2 ^ k) with hx
  have hsend : slice st.tmpsend 0 a.count = slice (doubled a.op data e k i) 0 a.count :=
    slice_congr fun j _ hj => h j (by omega)
  have hlt : a.rank < remoteRank e (i ^^^ 2 ^ k) ↔ Even (i / 2 ^ k) := by
    rw [hrank, remoteRank_lt_iff]
    rcases even_or_odd (i / 2 ^ k) with heven | hodd
    · rw [xor_two_pow_of_even heven]
      exact iff_of_true (Nat.lt_add_of_pos_right (Nat.two_pow_pos k)) heven
    · have hle : i ^^^ 2 ^ k ≤ i := (Nat.le_add_right _ _).trans (xor_two_pow_of_odd hodd).le
      exact iff_of_false hle.not_gt (not_even_iff_odd.2 hodd)
  have hfollows {st' : DoublingState E} (hf : Follows
      (if a.rank < remoteRank e (i ^^^ 2 ^ k) then
        pure ⟨opReduce a.op (slice st.tmpsend 0 a.count)
          (blit st.tmprecv 0 (slice x 0 a.count)) 0, st.tmpsend, !st.swapped⟩
        else pure (a.reduceTmp { st with tmprecv := blit st.tmprecv 0 (slice x 0 a.count) }) :
        Script (List E) (DoublingState E)) [] st') :
      Follows (a.exchangeWith (remoteRank e (i ^^^ 2 ^ k)) st)
        ((doublingMessages a.op data e a.count result).stageEvents e i k) st' := by
    rw [AllreduceArgs.exchangeWith, hsend]
    refine follows_postFor.bind_cons (follows_sendTo.bind_cons ?_)
    exact follows_waitTmp.bind_pure hf
  by_cases heven : Even (i / 2 ^ k)
  · rw [if_pos (hlt.2 heven)] at hfollows
    refine ⟨_, hfollows (follows_pure _), fun j hj => ?_⟩
    rw [doubled_of_even hassoc heven, ← hx]
    dsimp only
    rw [opReduce_slice (Nat.zero_le j) (by omega), blit_slice (Nat.zero_le j) (by omega), h j hj]
  · rw [if_neg (hlt.not.2 heven)] at hfollows
    refine ⟨_, hfollows (follows_pure _), fun j hj => ?_⟩
    rw [doubled_of_odd hassoc (not_even_iff_odd.1 heven), reduceTmp_tmpsend hj, h j hj]

theorem Doubled.doublingLoop {d fuel : ℕ} (hd : k + d = L) (hfuel : d < fuel) :
    ∃ st', Follows (a.doublingLoop (2 ^ L) e i fuel (2 ^ k) st)
      ((range' k d).flatMap ((doublingMessages a.op data e a.count result).stageEvents e i))
      st' ∧ Doubled a data e i L st' := by
  induction d generalizing k st fuel with
  | zero =>
    obtain ⟨fuel, rfl⟩ : ∃ f, fuel = f + 1 := ⟨fuel - 1, by omega⟩
    obtain rfl : k = L := by omega
    rw [AllreduceArgs.doublingLoop, if_neg (lt_irrefl _)]
    exact ⟨st, follows_pure st, h⟩
  | succ d ih =>
    obtain ⟨fuel, rfl⟩ : ∃ f, fuel = f + 1 := ⟨fuel - 1, by omega⟩
    obtain ⟨st₁, hfirst, hdoubled⟩ := h.exchangeWith hrank hassoc result
    obtain ⟨st₂, hrest, hend⟩ := ih hdoubled (by omega) (show d < fuel by omega)
    refine ⟨st₂, ?_, hend⟩
    have hlt : 2 ^ k < 2 ^ L := Nat.pow_lt_pow_right Nat.one_lt_two (by omega)
    rw [AllreduceArgs.doublingLoop, if_pos hlt, shiftLeft_eq, pow_one, ← pow_succ,
      List.range'_succ, List.flatMap_cons]
    exact hfirst.bind hrest

end

theorem follows_foldIn (hrank : a.rank = remoteRank e i)
    (hst : ∀ j < a.count, st.tmpsend j = data a.rank j) (result : Buf E) :
    ∃ st', Follows (a.foldIn e st)
      ((doublingMessages a.op data e a.count result).inEvents e i) (some i, st') ∧
      Doubled a data e i 0 st' := by
  rw [foldIn, inEvents]
  by_cases hi : i < e
  · have hodd : a.rank = 2 * i + 1 := by rw [hrank, remoteRank_of_lt hi]
    have hnew : a.rank >>> 1 = i := by
      rw [shiftRight_one]
      omega
    rw [if_pos (by omega), if_neg (by omega), if_pos hi, hnew, hodd, Nat.add_sub_cancel]
    refine ⟨_, follows_postFor.bind_cons (follows_waitTmp.bind_pure (follows_pure _)),
      fun j hj => ?_⟩
    rw [doubled_zero_of_lt hi, reduceTmp_tmpsend hj, hst j hj, hodd]
  · have heq : a.rank = i + e := by rw [hrank, remoteRank, if_neg hi]
    rw [if_neg (by omega), if_neg hi, heq, Nat.add_sub_cancel]
    refine ⟨st, follows_pure _, fun j hj => ?_⟩
    rw [doubled_zero_of_ge (by omega), hst j hj, heq]

theorem follows_foldOut {result : Buf E} (hrank : a.rank = remoteRank e i)
    (hst : ∀ j < a.count, st.tmpsend j = result j) :
    Follows (a.foldOut e st) ((doublingMessages a.op data e a.count result).outEvents e i) st := by
  rw [foldOut, outEvents]
  by_cases hi : i < e
  · have hodd : a.rank = 2 * i + 1 := by rw [hrank, remoteRank_of_lt hi]
    have hsend : slice st.tmpsend 0 a.count = slice result 0 a.count :=
      slice_congr fun j _ hj => hst j (by omega)
    rw [if_pos (by omega), if_neg (by omega), if_pos hi, hodd, Nat.add_sub_cancel, hsend]
    exact follows_sendTo.bind_pure (follows_pure st)
  · have heq : a.rank = i + e := by rw [hrank, remoteRank, if_neg hi]
    rw [if_neg (by omega), if_neg hi]
    exact follows_pure st

theorem copyResult_eq {result : Buf E} (hst : ∀ j < a.count, st.tmpsend j = result j) {j : ℕ}
    (hj : j < a.count) : a.copyResult st j = result j := by
  rw [copyResult]
  split_ifs
  · exact hst j hj
  · rw [blit_slice (Nat.zero_le j) (by omega), hst j hj]

theorem follows_foldIn_even (hi : i < e) (hrank : a.rank = 2 * i) :
    Follows (a.foldIn e st) [.send (2 * i + 1) (slice st.tmpsend 0 a.count)] (none, st) := by
  rw [foldIn, if_pos (by omega), if_pos (by omega), hrank]
  exact follows_sendTo.bind_pure (follows_pure _)

theorem follows_foldOut_even {result : Buf E} (hi : i < e) (hrank : a.rank = 2 * i)
    (hst : st.swapped = false) :
    Follows (a.foldOut e st) (roundEvents none (some (2 * i + 1, slice result 0 a.count)))
      { st with tmpsend := blit st.tmprecv 0 (slice result 0 a.count), swapped := true } := by
  rw [foldOut, if_pos (by omega), if_pos (by omega), hrank, hst]
  refine follows_recvFrom.bind_pure ?_
  rw [length_slice, if_neg (lt_irrefl _)]
  exact follows_pure _

theorem follows_recursivedoubling_even (hi : i < e) (hrank : a.rank = 2 * i)
    (hsize : a.size ≠ 1) (hfits : a.layout.FitsUnshifted a.count)
    (hint : nextPowerOfTwo a.size < 2 ^ 31) (he : e = a.size - nextPowerOfTwo a.size >>> 1)
    (hdata : a.sbuf.getD a.rbuf = data a.rank) (result : Buf E) :
    ∃ out, Follows a.allreduceIntraRecursivedoubling
      (.send (2 * i + 1) (slice (data (2 * i)) 0 a.count) ::
        roundEvents none (some (2 * i + 1, slice result 0 a.count))) out ∧
      ∀ j < a.count, out j = result j := by
  have hsend : slice (blit a.garbage 0 (slice (a.sbuf.getD a.rbuf) 0 a.count)) 0 a.count =
      slice (data (2 * i)) 0 a.count := by
    rw [hdata, hrank]
    exact slice_congr fun j h₁ h₂ => blit_slice h₁ h₂
  refine ⟨blit a.rbuf 0 (slice result 0 a.count), ?_,
    fun j hj => blit_slice (Nat.zero_le j) (by omega)⟩
  rw [allreduceIntraRecursivedoubling, if_neg hsize, if_neg hint.not_ge,
    allocate_eq (Layout.fitsUnshifted_iff.1 hfits), pure_bind]
  simp only [← he]
  rw [← hsend]
  refine (follows_foldIn_even hi hrank).bind_cons ((follows_pure _).bind ?_)
  exact (follows_foldOut_even hi hrank rfl).bind_pure (follows_pure _)

theorem follows_recursivedoubling_new (h : Folded a.size L e) (hi : i < 2 ^ L)
    (hrank : a.rank = remoteRank e i) (hsize : a.size ≠ 1)
    (hfits : a.layout.FitsUnshifted a.count) (hint : nextPowerOfTwo a.size < 2 ^ 31)
    (hL : nextPowerOfTwo a.size >>> 1 = 2 ^ L) (hdata : a.sbuf.getD a.rbuf = data a.rank)
    (hassoc : ∀ x y z, a.op (a.op x y) z = a.op x (a.op y z)) {result : Buf E}
    (hresult : result = fun j => opRange a.op (fun rank => data rank j) 0 (a.size - 1)) :
    ∃ out, Follows a.allreduceIntraRecursivedoubling
      ((doublingMessages a.op data e a.count result).inEvents e i ++ (range' 0 L).flatMap
          ((doublingMessages a.op data e a.count result).stageEvents e i) ++
        (doublingMessages a.op data e a.count result).outEvents e i) out ∧
      ∀ j < a.count, out j = result j := by
  have hextra : a.size - 2 ^ L = e := by
    have := h.size_eq
    omega
  have hstart : ∀ j < a.count, blit a.garbage 0 (slice (a.sbuf.getD a.rbuf) 0 a.count) j =
      data a.rank j := fun j hj => by
    rw [hdata]
    exact blit_slice (Nat.zero_le j) (by omega)
  obtain ⟨st₁, hin, hdoubled⟩ : ∃ st₁, Follows (a.foldIn e
      ⟨blit a.garbage 0 (slice (a.sbuf.getD a.rbuf) 0 a.count), a.rbuf, false⟩)
      ((doublingMessages a.op data e a.count result).inEvents e i) (some i, st₁) ∧
        Doubled a data e i 0 st₁ := follows_foldIn hrank hstart result
  obtain ⟨st₂, hloop, hend⟩ := hdoubled.doublingLoop hrank hassoc result (Nat.zero_add L)
    (show L < 2 ^ L + 1 from lt_succ_of_lt Nat.lt_two_pow_self)
  have hst : ∀ j < a.count, st₂.tmpsend j = result j := fun j hj => by
    rw [hend j hj, doubled_last h hi, hresult]
  refine ⟨a.copyResult st₂, ?_, fun j hj => copyResult_eq hst hj⟩
  rw [allreduceIntraRecursivedoubling, if_neg hsize, if_neg hint.not_ge,
    allocate_eq (Layout.fitsUnshifted_iff.1 hfits), pure_bind]
  simp only [hL, hextra, List.append_assoc]
  exact hin.bind (hloop.bind ((follows_foldOut hrank hst).bind_pure (follows_pure _)))

end AllreduceArgs

end Ulfm
