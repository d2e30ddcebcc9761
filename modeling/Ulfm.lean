import Ulfm.Era.Agreement.ReturnValue
import Ulfm.Era.Framing.Delivery
import Ulfm.Failure.ActiveCount
import Ulfm.Failure.Acknowledgement
import Ulfm.Pml.SequenceHole
import Ulfm.Pml.ContextReuse
import Ulfm.Cid.Unique
import Ulfm.Eta.Agreement
import Ulfm.Eta.Uniform
import Ulfm.Request.Verdict
import Ulfm.Era.Agreement.Flush
import Ulfm.Era.Inter
import Ulfm.Tuned.Spanning
import Ulfm.Tuned.Allreduce
import Ulfm.Tuned.BarrierSynchronised
import Ulfm.Routed.Debruijn
import Ulfm.Routed.Radix
import Ulfm.Routed.BinomialRoutes
import Ulfm.Pml.SendCompletion
import Ulfm.Era.Tree.Confluence
import Ulfm.Era.AckedCache
import Ulfm.Rbcast.Flooding
import Ulfm.Pml.Coverage
import Ulfm.Osc.PostWaitEpoch
import Ulfm.Osc.FenceEpoch
import Ulfm.Cid.Arrays
import Ulfm.Cid.Exhaustion
import Ulfm.Pml.Replay
import Ulfm.Request.Balance
import Ulfm.Request.Consumed
import Ulfm.Pml.Deferred
import Ulfm.Pml.RecvAccounting
import Ulfm.Opal.ArrayBooks
import Ulfm.Opal.BitmapSet
import Ulfm.Opal.HashMap
import Ulfm.Topo.SubGrid
import Ulfm.Tuned.AllgatherAgree
import Ulfm.Group.SetAlgebra
import Ulfm.Class.Tracked
import Ulfm.Topo.Dims
import Ulfm.Dss.Guarded
import Ulfm.Datatype.Summary
import Ulfm.Datatype.LoopStack
import Ulfm.Era.AgreedRanks
import Ulfm.Nidmap.RegexRoundTrip
import Ulfm.Nidmap.Locality
import Ulfm.Opal.Argv
import Ulfm.Class.Tree
import Ulfm.Allocator.Basic
import Ulfm.Opal.AtomicLifo
import Ulfm.Opal.Checksum
