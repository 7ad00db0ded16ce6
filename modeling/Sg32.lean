import Sg32.Foundation.Panic
import Sg32.Foundation.Bytes
import Sg32.Foundation.GaussJordan
import Sg32.Foundation.CauchyCode
import Sg32.Foundation.MerkleFold
import Sg32.Foundation.MerkleBinding
import Sg32.Foundation.NewestWins
import Sg32.Foundation.Collector
import Sg32.Foundation.CheckedStore
import Sg32.Foundation.JavaScript
import Sg32.Foundation.InverseTable
import Sg32.Foundation.Reactor
import Sg32.Foundation.Codec
import Sg32.Gf256
import Sg32.ReedSolomon
import Sg32.MatrixInversion
import Sg32.ErasureCode
import Sg32.FecBatch
import Sg32.ShredHeader
import Sg32.Shred
import Sg32.ShredLayout
import Sg32.ShredSections
import Sg32.ShredFields
import Sg32.ShredBatch
import Sg32.BatchShapes
import Sg32.ErasureWire
import Sg32.Gossip.ShortVec
import Sg32.Gossip.Protocol
import Sg32.Gossip.SlowPath
import Sg32.Gossip.ContactInfo
import Sg32.Gossip.SocketCache
import Sg32.Gossip.PingPong
import Sg32.Gossip.Crds
import Sg32.Gossip.Prune
import Sg32.Gossip.CrdsFilter
import Sg32.Gossip.BloomBudget
import Sg32.Gossip.PullRequest
import Sg32.Gossip.Loop
import Sg32.Gossip.LoopTraffic
import Sg32.Gossip.Startup
import Sg32.Gossip.Standalone
import Sg32.Deshredder
import Sg32.EntryStream
import Sg32.AcceptedTransactions
import Sg32.DeshreddedPrefix
import Sg32.MerkleProver
import Sg32.MerkleSoundness
import Sg32.RingBuffer
import Sg32.RingBufferRuns
import Sg32.RingBufferWindow
import Sg32.FlatFileStore
import Sg32.StoreRestart
import Sg32.ProcessShred
import Sg32.Pipeline
import Sg32.EncodedSet
import Sg32.SetBatches
import Sg32.DefaultDims
import Sg32.UsedUpRows
import Sg32.AgreedBlock
import Sg32.ArrivalOrder
import Sg32.RpcServer
import Sg32.GetProof
import Sg32.ServedTransactions
import Sg32.Publication
import Sg32.HotCold
import Sg32.LatestSlot
import Sg32.Recoveries
import Sg32.SlotCell
import Sg32.Repair
import Sg32.RepairResponses
import Sg32.NodeLoop
import Sg32.RepairTraffic
import Sg32.RepairedBlocks
import Sg32.OpenBatches
import Sg32.PublishedOnce
import Sg32.RpcResponses
import Sg32.NodeSystem
import Sg32.EndToEnd
import Sg32.Restarts
import Sg32.Sdk.MerkleVerifier
import Sg32.Sdk.Client
import Sg32.Sdk.HonestAnswers
