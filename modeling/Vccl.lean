import Vccl.P2p.Channels
import Vccl.Topo.SetPaths
import Vccl.Topo.Trees
import Vccl.WorkFifo.Poll
import Vccl.Net.Slots
import Vccl.Net.Socket
import Vccl.Plan.Load
import Vccl.Plan.Cbd
import Vccl.Proxy.Aggregation
import Vccl.Psm.Lifetime
import Vccl.Psm.ZeroCopy
import Vccl.Psm.ConnFifo
import Vccl.Psm.NetFinish
import Vccl.Rollback.CatchUp
import Vccl.Rollback.Delivery
import Vccl.Rollback.Entries
import Vccl.Failover.Keys
import Vccl.Failover.Pieces
import Vccl.Failover.Refresh
import Vccl.Register.Refs
import Vccl.Mr.Order
import Vccl.Pat.AllGather
import Vccl.Net.Shared
import Vccl.Group.Reclaim
import Vccl.Bootstrap.Rendezvous
import Vccl.Bootstrap.AllGather
import Vccl.Transport.Setup
import Vccl.Ib.Waiting
import Vccl.Ib.Backup
import Vccl.Ib.Domains
import Vccl.Ib.WrCounters
import Vccl.Ib.Gid
import Vccl.Net.Pools
import Vccl.Ras.Collective
import Vccl.Ras.PeersUpdate
import Vccl.Ras.Frames
import Vccl.Ras.SkipMissing
import Vccl.Comm.Split
import Vccl.Net.Plugin
