import Midge.Lib.Bytes
import Midge.Lib.CasObject
import Midge.Lib.Exec
import Midge.Lib.Interleave
import Midge.Lib.Intervals
import Midge.Lib.KWayMerge
import Midge.Lib.Keyed
import Midge.Lib.Newest
import Midge.Lib.Run
import Midge.Lib.SortedMap
import Midge.Lib.UnionFind
import Midge.Lib.Update
import Midge.Types
import Midge.Resolve
import Midge.Sst
import Midge.Metadata.Moves
import Midge.Metadata.MovesSpec
import Midge.Metadata.Manifest
import Midge.Metadata.ManifestSpec
import Midge.Metadata.EditSpec
import Midge.Compaction.Merge
import Midge.Compaction.Overlap
import Midge.Compaction.Streams
import Midge.Compaction.Partition
import Midge.Compaction.PartitionSpec
import Midge.Compaction.PartitionInvariant
import Midge.Compaction.MergeOutputs
import Midge.Compaction.FragmentOutputs
import Midge.Compaction.Resolution
import Midge.Compaction.Layout
import Midge.Compaction.LayoutSpec
import Midge.Compaction.LayoutTiling
import Midge.Compaction.LayoutComponents
import Midge.Compaction.Execute
import Midge.Compaction.ExecuteSpec
import Midge.Compaction.History
import Midge.Compaction.Strategy
import Midge.Compaction.StrategySpec
import Midge.Compaction.SpanClosure
import Midge.Compaction.SpanLeast
import Midge.Compaction.L0Batch
import Midge.Compaction.LevelOrder
import Midge.Compaction.OutputLayout
import Midge.Codec
import Midge.Metadata.Framing
import Midge.Read.State
import Midge.Read.View
import Midge.Read.PointRead
import Midge.Read.ViewCache
import Midge.Read.TombstoneIndex
import Midge.Read.RangeCover
import Midge.Read.Versions
import Midge.Read.Scan
import Midge.Read.ScanStreams
import Midge.Read.ScanMerge
import Midge.Read.ScanSpec
import Midge.Wal.Link
import Midge.Wal.Catalog
import Midge.Wal.Segment
import Midge.Wal.Publish
import Midge.Wal.CatalogSpec
import Midge.Wal.Ledger
import Midge.Wal.Planner
import Midge.Wal.LedgerSpec
import Midge.Wal.PlannerSpec
import Midge.Wal.LedgerStore
import Midge.Wal.LedgerStoreSpec
import Midge.Wal.SalvageSpec
import Midge.Wal.Sequence
import Midge.Wal.SequenceSpec
import Midge.Commit.Apply
import Midge.Commit.Validate
import Midge.Commit.Reads
import Midge.Commit.Applied
import Midge.Commit.ValidateSpec
import Midge.Cloud.Generation
import Midge.Cloud.MetadataPointer
import Midge.Cloud.MetadataPointerSpec
import Midge.Cloud.Lease
import Midge.Cloud.LeaseSpec
import Midge.Cloud.LeaseRuns
import Midge.Cloud.LeaseOperations
import Midge.Cloud.SstNames
import Midge.Cloud.SstNamesSpec
import Midge.Cloud.SstNamesRuns
import Midge.Runtime.Frontiers
