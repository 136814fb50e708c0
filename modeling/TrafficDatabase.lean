import TrafficDatabase.Library.Bytes
import TrafficDatabase.Library.BlockRing
import TrafficDatabase.Library.TransitionSystem
import TrafficDatabase.Library.Residue
import TrafficDatabase.Library.SortedMerge
import TrafficDatabase.Library.RegularExpression
import TrafficDatabase.Data.DataBlockBuffer
import TrafficDatabase.Data.IndexBlockBuffer
import TrafficDatabase.Data.PacketAggregator
import TrafficDatabase.Data.DPDKReader
import TrafficDatabase.Data.PacketLayout
import TrafficDatabase.DataPath.Config
import TrafficDatabase.DataPath.HandOut
import TrafficDatabase.DataPath.System
import TrafficDatabase.DataPath.Threads
import TrafficDatabase.DataPath.Refinement
import TrafficDatabase.DataPath.LateWrites
import TrafficDatabase.DataPath.PacketRanges
import TrafficDatabase.DataPath.Progress
import TrafficDatabase.IndexPath.System
import TrafficDatabase.DataPath.DumpOnce
import TrafficDatabase.DataPath.BackPatch
import TrafficDatabase.Storage.Store
import TrafficDatabase.Storage.Querier
import TrafficDatabase.Storage.RoundTrip
import TrafficDatabase.Storage.FlowChain
import TrafficDatabase.Index.BitMap
import TrafficDatabase.Index.PrefixBloomFilter
import TrafficDatabase.Index.MemoryPool
import TrafficDatabase.IndexPath.PointerRingBuffer
import TrafficDatabase.Index.IndexBuffer
import TrafficDatabase.Library.BinarySearch
import TrafficDatabase.Storage.DiskAgent
import TrafficDatabase.Storage.IndexLookup
import TrafficDatabase.Storage.IndexPlacement
import TrafficDatabase.Index.Operations
import TrafficDatabase.Query.Tokens
import TrafficDatabase.Query.Grammar
import TrafficDatabase.Query.Search
import TrafficDatabase.Query.Evaluation
import TrafficDatabase.IndexPath.SortedRuns
import TrafficDatabase.Index.ColumnOwnership
import TrafficDatabase.Index.NoFalseNegatives
import TrafficDatabase.Data.RingSort
import TrafficDatabase.Data.BlockOwnership
import TrafficDatabase.Index.AllocationLog
import TrafficDatabase.Index.PoolHistory
import TrafficDatabase.Index.PoolLength
import TrafficDatabase.Storage.PublishedRuns
import TrafficDatabase.Index.SkipList
import TrafficDatabase.Index.ConcurrentInsert
import TrafficDatabase.DataPath.Drain
import TrafficDatabase.DataPath.Shutdown
import TrafficDatabase.Index.KeptNodes
import TrafficDatabase.Index.SlotTurns
import TrafficDatabase.Index.BitMapCalls
import TrafficDatabase.Index.IPv6Keys
import TrafficDatabase.Index.PrefixQueries
import TrafficDatabase.Index.BloomRegions
import TrafficDatabase.Storage.RecordSearch
import TrafficDatabase.Library.Worklist
import TrafficDatabase.Storage.ChainReading
import TrafficDatabase.Data.BlockTimes
import TrafficDatabase.DataPath.TimeRanges
import TrafficDatabase.Index.Generators
import TrafficDatabase.Index.PoolRecords
import TrafficDatabase.Index.InsertHistory
import TrafficDatabase.Storage.PersistedContent
import TrafficDatabase.Query.Splitting
import TrafficDatabase.Query.Brackets
import TrafficDatabase.Storage.DiskRegion
import TrafficDatabase.Storage.DiskLayout
import TrafficDatabase.Storage.PrefixLookup
import TrafficDatabase.Index.SequentialInsert
import TrafficDatabase.Index.SkipListQueries
import TrafficDatabase.Query.WrittenValues
import TrafficDatabase.Query.EvaluatedAsWritten
import TrafficDatabase.IndexPath.SignalRing
import TrafficDatabase.Index.ZOrderCode
import TrafficDatabase.Index.ZOrderTree
import TrafficDatabase.Index.RectangleQueries
import TrafficDatabase.Data.Compressor
import TrafficDatabase.Flosis.AggBuffer
import TrafficDatabase.Index.TrieTree
import TrafficDatabase.Flosis.PointerRingPool
import TrafficDatabase.Flosis.WBuffer
import TrafficDatabase.Flosis.FlowBuffer
import TrafficDatabase.Flosis.FlowEngine
import TrafficDatabase.DataPath.PacketCounts
import TrafficDatabase.Library.BackedRing
import TrafficDatabase.Storage.IndexStore
import TrafficDatabase.Index.PersistGate
import TrafficDatabase.Experiment.CaptureStore
import TrafficDatabase.Experiment.IndexFill
import TrafficDatabase.Experiment.QueryOffsets
import TrafficDatabase.Experiment.QueryCounts
import TrafficDatabase.Storage.QueryRun
