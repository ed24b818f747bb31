import Vectorlink.Stepwise.Program
import Vectorlink.Stepwise.Observer
import Vectorlink.Versioned.Lineage
import Vectorlink.Versioned.Dataset
import Vectorlink.Kernel
import Vectorlink.Layeridx
import Vectorlink.Store.Schema
import Vectorlink.Store.Delta
import Vectorlink.Store.Commit
import Vectorlink.Store.Retag
import Vectorlink.Store.RetagRun
import Vectorlink.Store.RetagMoves
import Vectorlink.Store.RetagSweep
import Vectorlink.Store.Compaction
import Vectorlink.Store.CompactionBranches
import Vectorlink.Store.CompactionLoss
import Vectorlink.Service.Resolve
import Vectorlink.Store.CompactionReaders
import Vectorlink.Store.CompactionHistory
import Vectorlink.Embed
import Vectorlink.EmbedCache
import Vectorlink.EmbedCached
import Vectorlink.Ingest
import Vectorlink.ChunkText
import Vectorlink.Resolve
import Vectorlink.ResolveStages
import Vectorlink.ResolveExact
import Vectorlink.ResolvePartition
import Vectorlink.IngestExact
import Vectorlink.IngestAccount
import Vectorlink.IngestCollect
import Vectorlink.Store.Domain
import Vectorlink.Service.Pipeline
import Vectorlink.Service.PipelineRun
import Vectorlink.Service.PushSpec
import Vectorlink.Store.LastIndexed
import Vectorlink.Service.PushRuns
import Vectorlink.Service.Reindex
import Vectorlink.Text.Bytes
import Vectorlink.Layeridx.CommitTag
import Vectorlink.Text.Form
import Vectorlink.Store.DomainPath
import Vectorlink.Service.Assign
import Vectorlink.Concurrent.Runs
import Vectorlink.Concurrent.LockTable
import Vectorlink.Service.Requests
import Vectorlink.Service.RequestLocks
import Vectorlink.Service.RequestTokens
import Vectorlink.Service.RequestReservations
import Vectorlink.Service.RequestLeftovers
import Vectorlink.Store.DeletedDomain
import Vectorlink.Store.Branch
import Vectorlink.Service.Erasure
import Vectorlink.Service.PushWalk
import Vectorlink.Store.Search
import Vectorlink.Ranking.Nearest
import Vectorlink.Ranking.Pages
import Vectorlink.Ranking.Least
import Vectorlink.Store.SearchDocuments
import Vectorlink.Store.SearchRanking
import Vectorlink.Store.SearchPages
import Vectorlink.Store.FairFusion
import Vectorlink.Store.MixedHits
import Vectorlink.Store.CrossNeighbours
import Vectorlink.Store.CrossExact
import Vectorlink.Store.CrossAnn
import Vectorlink.Store.Duplicates
import Vectorlink.Store.DuplicateScope
import Vectorlink.Store.DocWrites
import Vectorlink.Service.Similar
import Vectorlink.Service.Fork
import Vectorlink.Store.CompactionLast
import Vectorlink.Service.DurableIndex
import Vectorlink.Text.Utf8
import Vectorlink.Http.PushBody
import Vectorlink.IngestCount
import Vectorlink.Http.PushTasks
import Vectorlink.Http.IncompletePush
import Vectorlink.Service.BranchReset
import Vectorlink.Http.BodyChunks
import Vectorlink.Service.PushCompletes
import Vectorlink.IngestText
import Vectorlink.Service.AbandonedPush
import Vectorlink.Service.PushAccounts
import Vectorlink.Service.PipelinesAgree
import Vectorlink.Service.OfflineLoad
import Vectorlink.Service.LoadRun
import Vectorlink.Service.LoadAsPush
import Vectorlink.Stepwise.Messages
import Vectorlink.Service.Progress
import Vectorlink.IngestLooks
import Vectorlink.Service.ProgressSent
import Vectorlink.Service.ProgressProtocol
import Vectorlink.Positional.Deltas
import Vectorlink.Positional.Greedy
import Vectorlink.Store.Rollup
import Vectorlink.Store.RollupPartitions
import Vectorlink.Store.Boundaries
import Vectorlink.Store.IndexDirs
import Vectorlink.Store.IndexPruning
import Vectorlink.Files.Directory
import Vectorlink.Stepwise.Fallible
import Vectorlink.Store.IndexHiding
import Vectorlink.Store.IndexHidingUndone
import Vectorlink.Service.Candidates
import Vectorlink.Service.CandidateDistances
import Vectorlink.Store.DatasetCache
import Vectorlink.Store.Statistics
import Vectorlink.Store.StatisticsCached
import Vectorlink.Text.Offsets
import Vectorlink.Store.Suggest
import Vectorlink.Store.SuggestHighlight
import Vectorlink.Store.SuggestCompletions
import Vectorlink.Store.SuggestFilters
import Vectorlink.Ranking.Recency
import Vectorlink.Store.DatasetCacheRecency
import Vectorlink.Ranking.Oldest
import Vectorlink.Store.Tasks
import Vectorlink.Concurrent.Gauge
import Vectorlink.Service.PendingChunks
import Vectorlink.Store.EmbeddingScans
import Vectorlink.Service.Embeddings
import Vectorlink.Files.Overwrite
import Vectorlink.Config.DomainSettings
import Vectorlink.Config.Providers
import Vectorlink.Config.ParamsLock
import Vectorlink.Config.Credentials
import Vectorlink.IngestVectors
import Vectorlink.EmbedShared
import Vectorlink.PrimeCache
import Vectorlink.Store.StartupCleanup
import Vectorlink.Service.SettledBranch
import Vectorlink.Service.ForkRuns
import Vectorlink.Versioned.Contents
import Vectorlink.Service.RowContents
import Vectorlink.Service.EmbeddingSpace
import Vectorlink.Service.Deployment
import Vectorlink.Columnar.Batches
import Vectorlink.Store.RowBatches
import Vectorlink.Service.SnapshotReads
import Vectorlink.Store.IndexSegments
import Vectorlink.Service.IndexingRuns
import Vectorlink.Service.SegmentGrowth
import Vectorlink.Service.StoredVectors
import Vectorlink.Service.Duplicates
import Vectorlink.Versioned.Growth
import Vectorlink.Service.ReadEndpoints
import Vectorlink.Service.CatchUp
import Vectorlink.Service.Acknowledged
