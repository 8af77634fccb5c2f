import Citrusleaf.Lib.Runs
import Citrusleaf.Lib.Base64
import Citrusleaf.Lib.Checked
import Citrusleaf.Lib.Bytes
import Citrusleaf.Text
import Citrusleaf.Partition
import Citrusleaf.PartitionCounts
import Citrusleaf.PartitionOwnership
import Citrusleaf.Replicas
import Citrusleaf.ReplicasReply
import Citrusleaf.Generation
import Citrusleaf.GenerationRuns
import Citrusleaf.Tend
import Citrusleaf.TendLifetime
import Citrusleaf.Cluster
import Citrusleaf.Shash
import Citrusleaf.GroupBy
import Citrusleaf.WriteParameters
import Citrusleaf.Object
import Citrusleaf.PutIndex
import Citrusleaf.PutIndexRuns
import Citrusleaf.Proto
import Citrusleaf.Parse
import Citrusleaf.ParseBounds
import Citrusleaf.Compile
import Citrusleaf.CompileLayout
import Citrusleaf.RequestRoundTrip
import Citrusleaf.Digest
import Citrusleaf.Increment
import Citrusleaf.BatchCompile
import Citrusleaf.GetManyDigest
import Citrusleaf.RequestLayout
import Citrusleaf.RequestSize
import Citrusleaf.Lib.Slots
import Citrusleaf.Ownership
import Citrusleaf.Stream
import Citrusleaf.StreamMessages
import Citrusleaf.StreamFrames
import Citrusleaf.StreamBounds
import Citrusleaf.StreamErrors
import Citrusleaf.Lib.Cells
import Citrusleaf.Lib.Ring
import Citrusleaf.CfQueue
import Citrusleaf.Fifo
import Citrusleaf.CfQueueFifo
import Citrusleaf.ShashTable
import Citrusleaf.ShashMap
import Citrusleaf.ShashMapRuns
import Citrusleaf.Lib.Workers
import Citrusleaf.Lib.Tickets
import Citrusleaf.BatchCollect
import Citrusleaf.BatchCollectRuns
import Citrusleaf.IndexQuery
import Citrusleaf.IndexQueryRuns
import Citrusleaf.PacketCompression
import Citrusleaf.PacketCompressionRoundTrip
import Citrusleaf.AsyncPool
import Citrusleaf.SocketRead
import Citrusleaf.AsyncReceive
import Citrusleaf.AsyncAccounting
import Citrusleaf.AsyncFraming
import Citrusleaf.AsyncSubmit
import Citrusleaf.ClientRestart
import Citrusleaf.BatchStart
import Citrusleaf.Lib.Links
import Citrusleaf.CfLl
import Citrusleaf.ClusterDestroyRuns
import Citrusleaf.ScanNode
import Citrusleaf.Lib.Ledger
import Citrusleaf.SocketDisposal
import Citrusleaf.CfQueueThreads
import Citrusleaf.ClRequest
import Citrusleaf.PartitionBounds
import Citrusleaf.ShmNodes
import Citrusleaf.DateHour
import Citrusleaf.IndexKeys
import Citrusleaf.PhpArithmetic
import Citrusleaf.CfVector
import Citrusleaf.CfVectorList
import Citrusleaf.CfLlCalls
import Citrusleaf.CfLlList
import Citrusleaf.WireInt
import Citrusleaf.ParseSearch
import Citrusleaf.CfQueueReach
import Citrusleaf.CfQueueSweep
import Citrusleaf.FullMonte
import Citrusleaf.FullMonteRuns
import Citrusleaf.FullMonteCodes
import Citrusleaf.AsyncMonte
import Citrusleaf.AsyncMonteBooks
import Citrusleaf.ShashLocks
import Citrusleaf.CfVectorCompact
import Citrusleaf.NodeInfo
import Citrusleaf.InfoReply
import Citrusleaf.CompressionCheck
import Citrusleaf.ClusterGet
import Citrusleaf.ClusterUrl
import Citrusleaf.ReplicasSegments
import Citrusleaf.ShmReplicas
import Citrusleaf.PhpBase64
import Citrusleaf.ReplicasBitmap
import Citrusleaf.RollupKeys
import Citrusleaf.IndexBlobs
import Citrusleaf.CopyBins
import Citrusleaf.SocketTransfers
import Citrusleaf.SocketTransfersExact
import Citrusleaf.NodeSocketsRuns
import Citrusleaf.DiscoveryComplete
import Citrusleaf.IndexedClicks
import Citrusleaf.TendDestroy
import Citrusleaf.ShmUpdater
import Citrusleaf.PhpPutGetFinds
import Citrusleaf.BatchThreads
import Citrusleaf.AsyncThreads
import Citrusleaf.Routing
