import MoeJit.Core.CalendarScheduler
import MoeJit.Core.DefaultSimulator
import MoeJit.Core.HeapScheduler
import MoeJit.Core.TimeUnits
import MoeJit.Internet.TcpTxLoss
import MoeJit.Moe.CollectiveOrder
import MoeJit.Moe.DistributedLeak
import MoeJit.Moe.MatchedFlows
import MoeJit.Moe.NetJIT
import MoeJit.Mpi.AllReduce
import MoeJit.Mpi.Collectives
import MoeJit.Mpi.ReduceScatter
import MoeJit.Mpi.RingAllReduce
import MoeJit.Mpi.LogicalOperators
import MoeJit.Coroutine.Operation
import MoeJit.Coroutine.SocketFifo
import MoeJit.Coroutine.LoopbackAccounts
import MoeJit.Mpi.DumpiAlignment
import MoeJit.Mpi.DumpiTermination
import MoeJit.Mpi.Framing
import MoeJit.Mpi.BatchTraces
import MoeJit.Topology.ActiveFlows
import MoeJit.Topology.PredictionWindows
import MoeJit.Topology.DragonflyTraffic
import MoeJit.Network.ByteTagList
import MoeJit.Network.PacketSerialization
import MoeJit.Network.PacketTagList
import MoeJit.Internet.TcpHeaderRoundTrip
import MoeJit.Network.PbbPacket
import MoeJit.SixLowPan.HeaderChain
import MoeJit.Moe.CentralizedStagger
import MoeJit.Moe.DistributedArbitration
import MoeJit.Moe.ReservedDemand
import MoeJit.Moe.DistributedPhases
import MoeJit.TrafficControl.Draining
import MoeJit.Olsr.NewestTc
import MoeJit.Olsr.HnaRoutes
import MoeJit.NixVectorRouting.Delivery
import MoeJit.Moe.TraceScaling
import MoeJit.Moe.JobQueue
import MoeJit.Topology.DemandTermination
import MoeJit.Topology.AnnealingRuns
import MoeJit.Internet.TcpRxWindow
import MoeJit.Internet.TcpRxStream
import MoeJit.Internet.Ipv4FragmentTimeouts
import MoeJit.Internet.TcpNextSeg
import MoeJit.Wifi.Teardown
import MoeJit.Lte.Grants
import MoeJit.Lte.Bookkeeping
import MoeJit.Wifi.MacRxMiddle
