import MKernel.Core.System
import MKernel.Core.Noted
import MKernel.Core.History
import MKernel.Core.Ring
import MKernel.Core.WorkQueue
import MKernel.Internode.Types
import MKernel.Internode.Fifo
import MKernel.Internode.D2HFifo.Ring
import MKernel.Internode.D2HFifo.Invariant
import MKernel.Internode.D2HFifo.Delivery
import MKernel.Internode.D2HFifo.Refinement
import MKernel.Internode.Handshake
import MKernel.Internode.Efa.Requests
import MKernel.Internode.Efa.Proxy
import MKernel.Internode.Efa.Gate
import MKernel.Internode.Efa.Order
import MKernel.Internode.Efa.Accounting
import MKernel.Internode.Efa.Drain
import MKernel.Internode.Efa.Notify
import MKernel.Internode.Efa.Barrier
import MKernel.Internode.Efa.Nic
import MKernel.Internode.Efa.Posts
import MKernel.Internode.Efa.SendQueue
import MKernel.Internode.Efa.Staging
import MKernel.Internode.Efa.Progress
import MKernel.Internode.Efa.Network
import MKernel.Internode.Cx7.Requests
import MKernel.Internode.Cx7.Proxy
import MKernel.Internode.Cx7.Gate
import MKernel.Internode.Cx7.Flow
import MKernel.Internode.Cx7.Order
import MKernel.Internode.Cx7.Accounting
import MKernel.Internode.Cx7.Chains
import MKernel.Internode.Cx7.Templates
import MKernel.Internode.Cx7.Gather
import MKernel.Internode.Cx7.SendQueue
import MKernel.Internode.InFlight
import MKernel.Internode.SlotReturn
import MKernel.Internode.Cx7.Barrier
import MKernel.Internode.Pausing
import MKernel.Internode.Cx7.Session
import MKernel.Internode.Cx7.Routing
import MKernel.Core.Tally
import MKernel.Dist.Barrier
import MKernel.Dist.SendRing
import MKernel.Dist.WaitInter
import MKernel.GemmAr.Publication
import MKernel.Core.Strided
import MKernel.GemmAr.Chunks
import MKernel.GemmAr.ChunkBarrier
import MKernel.GemmAr.IterEnd
import MKernel.Internode.StageBarrier
import MKernel.Internode.EpochTransition
import MKernel.Internode.Efa.Frame
import MKernel.Internode.Session
import MKernel.Internode.Efa.Quiesce
import MKernel.Internode.Efa.Epochs
import MKernel.Internode.Cx7.Quiesce
import MKernel.Internode.Quiescence
import MKernel.Internode.Environment
import MKernel.Internode.Cx7.Pairing
import MKernel.Internode.Efa.Session
import MKernel.Internode.Efa.Rails
import MKernel.Internode.Partition
import MKernel.Core.Numbered
import MKernel.Core.Family
import MKernel.Internode.Efa.Slots
import MKernel.Internode.Efa.ArrivalQueues
import MKernel.Internode.Cx7.Failures
import MKernel.Internode.Cx7.StageBarrier
import MKernel.DispatchGemm.Dispatch
import MKernel.Core.Carried
import MKernel.DispatchGemm.Walk
import MKernel.DispatchGemm.Routing
import MKernel.DispatchGemm.FirstPass
import MKernel.Internode.Cx7.Snapshot
import MKernel.Internode.Cx7.Forward
import MKernel.Core.Spread
import MKernel.Core.Lockstep
import MKernel.Core.Links
import MKernel.Core.Copying
import MKernel.GemmAr.Decode
import MKernel.GemmAr.Capacity
import MKernel.Core.Ballot
import MKernel.Internode.Arrivals
import MKernel.Internode.Bootstrap
import MKernel.GemmAr.RoundTrip
import MKernel.Core.MachineInt
import MKernel.Core.PowerOfTwo
import MKernel.Core.Regions
import MKernel.GemmAr.Scratch
import MKernel.GemmAr.ScratchUse
import MKernel.Core.Custody
import MKernel.GemmAr.DynamicReduce
import MKernel.GemmAr.EarlyAccum
import MKernel.GemmAr.EarlyDirect
import MKernel.GemmAr.EarlyAgrees
import MKernel.GemmAr.ReduceOnce
import MKernel.Internode.Peers
import MKernel.GemmRs.Geometry
import MKernel.GemmRs.Capacity
import MKernel.GemmRs.PeerAccum
import MKernel.GemmRs.PeerAccumOnce
import MKernel.GemmRs.PeerAccumStages
import MKernel.GemmRs.Tasks
import MKernel.GemmRs.ComputeTile
import MKernel.GemmRs.Accumulate
import MKernel.GemmRs.Handoff
import MKernel.GemmRs.HandoffOnce
import MKernel.GemmRs.HandoffEnds
import MKernel.Core.Outbox
import MKernel.GemmRs.Transmit
import MKernel.RingAttention.Stages
import MKernel.RingAttention.ZeroCopy
import MKernel.RingAttention.Rotation
import MKernel.Core.LogWeights
import MKernel.RingAttention.OnlineSoftmax
import MKernel.RingAttention.Addresses
import MKernel.Core.Swizzle
import MKernel.Core.Scatter
import MKernel.Core.WarpFold
import MKernel.Kittens.SharedTile
import MKernel.Kittens.RegisterTile
import MKernel.Kittens.RegisterVector
import MKernel.RingAttention.WarpSoftmax
import MKernel.AgGemm.Ring
import MKernel.AgGemm.Posts
import MKernel.AgGemm.Gather
import MKernel.AgGemm.Completion
import MKernel.AgGemm.Signals
import MKernel.Core.Wire
import MKernel.AgGemm.ProxyForward
import MKernel.AgGemm.ProxyPosts
import MKernel.AgGemm.ProxyRing
import MKernel.AgGemm.IterEnd
import MKernel.Core.Turns
import MKernel.AgGemm.CounterBarriers
import MKernel.Internode.Efa.Receives
import MKernel.Internode.Efa.Notification
import MKernel.LocalBroker.Exchange
import MKernel.LocalBroker.Attach
import MKernel.Internode.Efa.PeerTable
import MKernel.Core.TileOrder
import MKernel.GemmAr.TaskOrder
import MKernel.AgGemm.TaskOrder
import MKernel.Core.ThreadBlock
import MKernel.Core.Tickets
import MKernel.GemmAr.ReduceThreads
import MKernel.GemmAr.SlowThreads
import MKernel.GemmAr.UniformRounds
