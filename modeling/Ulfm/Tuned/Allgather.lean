import Ulfm.Foundation.Exchange
import Ulfm.Tuned.Binomial
import Ulfm.Tuned.Ring

/-!
# Gathering the blocks of all the processes

The algorithms of `coll_tuned_allgather.c`. A cell of the receive buffer is `none` until
something has been received or copied into it, and sending such a cell is a fault. The library
for the data takes a count as an `int32_t`. A message or a copy of a negative count, and an
`int` that overflows, is a fault as well.
-/

namespace Ulfm

open Script List

/-- `INT_MAX`. -/
def intMax : ℕ := 2 ^ 31 - 1

/-- A count that has been converted to an `int32_t`. -/
def int32Count (count : ℕ) : ℤ :=
  if count % 2 ^ 32 < 2 ^ 31 then (count % 2 ^ 32 : ℕ) else (count % 2 ^ 32 : ℕ) - 2 ^ 32

/-- The loop of `ompi_datatype_copy_content_same_ddt`. It passes on what is left of the count,
instead of the length of a piece. -/
def copyContentLoop {α : Type} (src : Buf α → Buf α) (soff doff : ℕ) :
    ℕ → ℕ → Buf α → Option (ℤ × Buf α)
  | _, 0, dst => some (0, dst)
  | 0, _ + 1, _ => none
  | fuel + 1, count + 1, dst =>
    let length := min intMax (count + 1)
    let rcount := int32Count (count + 1)
    if rcount < 0 then none
    else if rcount = 0 then some (1, dst)
    else copyContentLoop src soff doff fuel (count + 1 - length)
      (blit dst doff (slice (src dst) soff rcount.toNat))

/-- `ompi_datatype_copy_content_same_ddt`, with the code that it returns. The source is in the
same memory if `src` is the identity. -/
def copyContentSameDdt {α : Type} (src : Buf α → Buf α) (soff doff count : ℕ) (dst : Buf α) :
    Option (ℤ × Buf α) := copyContentLoop src soff doff count count dst

variable {E : Type}

/-- `ompi_coll_tuned_sendrecv` on parts of one buffer. -/
def tunedSendrecv (rank dest source soff scount roff rcount : ℕ) (buf : Buf (Option E)) :
    Script (List E) (Buf (Option E)) :=
  if int32Count scount < 0 ∨ int32Count rcount < 0 then fault
  else
    let scount := (int32Count scount).toNat
    let rcount := (int32Count rcount).toNat
    if dest = rank ∧ source = rank then pure (blit buf roff (slice buf soff (min scount rcount)))
    else do
      postFor source
      match readAll (slice buf soff scount) with
      | none => fault
      | some msg => do
          sendTo dest msg
          let msg ← waitFor source
          if rcount < msg.length then error else pure (blit buf roff (msg.map some))

/-- The arguments of the algorithms for `MPI_Allgather`, at a process. -/
structure AllgatherArgs (E : Type) where
  rank : ℕ
  size : ℕ
  rcount : ℕ
  /-- Of the datatype of the receive buffer. -/
  layout : Layout
  /-- None for `MPI_IN_PLACE`. -/
  sbuf : Option (List E)
  rbuf : Buf (Option E)

/-- The variables of the loop of the neighbour exchange. -/
structure NeighborState (E : Type) where
  recvDataFrom : Bool → ℕ
  sendDataFrom : ℕ
  rbuf : Buf (Option E)

namespace AllgatherArgs

variable (a : AllgatherArgs E)

/-- The receive buffer with the own data at the own block. -/
def ownBlock : Buf (Option E) :=
  match a.sbuf with
  | none => a.rbuf
  | some sbuf => blit a.rbuf (a.rank * a.rcount) (sbuf.map some)

/-- The receive buffer with the own data at the block 0. -/
def firstBlock : Option (Buf (Option E)) :=
  match a.sbuf with
  | some sbuf => some (blit a.rbuf 0 (sbuf.map some))
  | none =>
    if a.rank ≠ 0 then
      (copyContentSameDdt id (a.rank * a.rcount) 0 a.rcount a.rbuf).map (·.2)
    else some a.rbuf

/-- A step of the communication of `ompi_coll_tuned_allgather_intra_bruck`. -/
def bruckStep (distance : ℕ) (rbuf : Buf (Option E)) : Script (List E) (Buf (Option E)) :=
  if 2 ^ 31 ≤ a.rank + distance ∨ 2 ^ 31 ≤ a.rank + a.size - distance then fault
  else do
    let recvfrom := (a.rank + distance) % a.size
    let sendto := (a.rank + a.size - distance) % a.size
    let blockcount := if distance ≤ a.size >>> 1 then distance else a.size - distance
    if 2 ^ 31 ≤ blockcount * a.rcount then fault
    else do
      let rbuf ← tunedSendrecv a.rank sendto recvfrom 0 (blockcount * a.rcount)
        (distance * a.rcount) (blockcount * a.rcount) rbuf
      if 2 ^ 31 ≤ distance <<< 1 then fault else pure rbuf

/-- The copies of the finalization of `ompi_coll_tuned_allgather_intra_bruck`. A code that is
positive is no error here. -/
def bruckShift (rbuf : Buf (Option E)) : Option (Buf (Option E)) := do
  let (_, shiftBuf) ← copyContentSameDdt (fun _ => rbuf) 0 0 ((a.size - a.rank) * a.rcount)
    fun _ => none
  let (_, rbuf) ← copyContentSameDdt id ((a.size - a.rank) * a.rcount) 0 (a.rank * a.rcount) rbuf
  let (_, rbuf) ← copyContentSameDdt (fun _ => shiftBuf) 0 (a.rank * a.rcount)
    ((a.size - a.rank) * a.rcount) rbuf
  some rbuf

/-- `ompi_coll_tuned_allgather_intra_bruck`. It returns the receive buffer. -/
def allgatherIntraBruck : Script (List E) (Buf (Option E)) :=
  match a.firstBlock with
  | none => fault
  | some rbuf => do
      let rbuf ← forDoubling a.size a.bruckStep (a.size + 1) 1 rbuf
      if a.rank ≠ 0 then do
        let count := (a.size - a.rank) * a.rcount
        allocate a.layout (-a.layout.lb) (a.layout.trueLb + a.layout.bytes count) count
        match a.bruckShift rbuf with
        | none => fault
        | some rbuf => pure rbuf
      else pure rbuf

/-- A step of `ompi_coll_tuned_allgather_intra_recursivedoubling`, with the
`sendblocklocation`. -/
def doublingStep (distance : ℕ) (st : ℕ × Buf (Option E)) :
    Script (List E) (ℕ × Buf (Option E)) := do
  let (sendblocklocation, rbuf) := st
  let remote := a.rank ^^^ distance
  if a.rank < remote then do
    let rbuf ← tunedSendrecv a.rank remote remote (sendblocklocation * a.rcount)
      (distance * a.rcount) ((sendblocklocation + distance) * a.rcount) (distance * a.rcount) rbuf
    pure (sendblocklocation, rbuf)
  else do
    let rbuf ← tunedSendrecv a.rank remote remote (sendblocklocation * a.rcount)
      (distance * a.rcount) ((sendblocklocation - distance) * a.rcount) (distance * a.rcount) rbuf
    pure (sendblocklocation - distance, rbuf)

/-- `ompi_coll_tuned_allgather_intra_recursivedoubling`. It returns the receive buffer. -/
def allgatherIntraRecursivedoubling : Script (List E) (Buf (Option E)) :=
  -- `opal_next_poweroftwo` computes with an `int`
  if 2 ^ 31 ≤ nextPowerOfTwo a.size then fault
  else if nextPowerOfTwo a.size >>> 1 ≠ a.size then a.allgatherIntraBruck
  else do
    let (_, rbuf) ← forDoubling a.size a.doublingStep (a.size + 1) 1 (a.rank, a.ownBlock)
    pure rbuf

/-- A step of `ompi_coll_tuned_allgather_intra_ring`. -/
def ringStep (rbuf : Buf (Option E)) (i : ℕ) : Script (List E) (Buf (Option E)) :=
  let recvdatafrom := (a.rank + a.size - i - 1) % a.size
  let senddatafrom := (a.rank + a.size - i) % a.size
  tunedSendrecv a.rank (sendToRight a.rank a.size) (recvFromLeft a.rank a.size)
    (senddatafrom * a.rcount) a.rcount (recvdatafrom * a.rcount) a.rcount rbuf

/-- `ompi_coll_tuned_allgather_intra_ring`. It returns the receive buffer. -/
def allgatherIntraRing : Script (List E) (Buf (Option E)) :=
  -- `rank - i + size`, an `int`
  if 1 < a.size ∧ 2 ^ 31 ≤ a.rank + a.size then fault
  else (range' 0 (a.size - 1)).foldlM a.ringStep a.ownBlock

def goesUp (parity : Bool) : Bool := (a.rank % 2 == 0) != parity

/-- The neighbour in the steps of a parity. -/
def neighbor (parity : Bool) : ℕ :=
  if a.goesUp parity then (a.rank + 1) % a.size else (a.rank + a.size - 1) % a.size

/-- `recv_data_from + offset_at_step + size`. The offset is `2` or `-2`. -/
def nextData (parity : Bool) (dataFrom : ℕ) : ℕ :=
  if a.goesUp parity then dataFrom + 2 + a.size else dataFrom + a.size - 2

/-- A step of `ompi_coll_tuned_allgather_intra_neighborexchange` behind the first one. -/
def neighborStep (st : NeighborState E) (i : ℕ) : Script (List E) (NeighborState E) :=
  let parity := i % 2 == 1
  if 2 ^ 31 ≤ a.nextData parity (st.recvDataFrom parity) then fault
  else do
    let dataFrom := a.nextData parity (st.recvDataFrom parity) % a.size
    let rbuf ← tunedSendrecv a.rank (a.neighbor parity) (a.neighbor parity)
      (st.sendDataFrom * a.rcount) (2 * a.rcount) (dataFrom * a.rcount) (2 * a.rcount) st.rbuf
    pure ⟨Function.update st.recvDataFrom parity dataFrom, dataFrom, rbuf⟩

/-- `ompi_coll_tuned_allgather_intra_neighborexchange`. It returns the receive buffer. -/
def allgatherIntraNeighborexchange : Script (List E) (Buf (Option E)) :=
  if a.size % 2 ≠ 0 then a.allgatherIntraRing
  else if 2 ^ 31 ≤ a.rank + a.size - 1 then fault
  else do
    let rbuf ← tunedSendrecv a.rank (a.neighbor false) (a.neighbor false) (a.rank * a.rcount)
      a.rcount (a.neighbor false * a.rcount) a.rcount a.ownBlock
    let dataFrom := if a.rank % 2 = 0 then a.rank else a.neighbor false
    let st ← (range' 1 (a.size / 2 - 1)).foldlM a.neighborStep
      ⟨fun _ => dataFrom, dataFrom, rbuf⟩
    pure st.rbuf

end AllgatherArgs

end Ulfm
