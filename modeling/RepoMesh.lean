import RepoMesh.Guard
import RepoMesh.Discover
import RepoMesh.Fingerprint
import RepoMesh.Chunk
import RepoMesh.Fallible
import RepoMesh.Indexer
import RepoMesh.FileEntry
import RepoMesh.IndexSteps
import RepoMesh.IndexHistory
import RepoMesh.IndexRefines
import RepoMesh.Skipping
import RepoMesh.CleanPass
import RepoMesh.RecordedDigests
import RepoMesh.Convergence
import RepoMesh.Incremental
import RepoMesh.Cancellation
import RepoMesh.WatchHistory
import RepoMesh.AutoSubmit
import RepoMesh.SlidingWindows
import RepoMesh.ChunkSpans
import RepoMesh.ChunkIds
import RepoMesh.LineRows
import RepoMesh.ChunkText
import RepoMesh.DeclaredLines
import RepoMesh.IndexKeeps
import RepoMesh.Links
import RepoMesh.RowsMatch
import RepoMesh.FailedFile
import RepoMesh.ReadBytes
import RepoMesh.Answer
import RepoMesh.CitationLabels
import RepoMesh.Evidence
import RepoMesh.Ranking
import RepoMesh.Retrieval
import RepoMesh.RankFusion
import RepoMesh.Fusion
import RepoMesh.Authority
import RepoMesh.ProgressCount
import RepoMesh.UniqueColumn
import RepoMesh.Submission
import RepoMesh.Chains
import RepoMesh.RetryChains
import RepoMesh.FirstClaim
import RepoMesh.Registry
import RepoMesh.WorkerCounters
import RepoMesh.Fleet
import RepoMesh.Sessions
import RepoMesh.LegacyImport
import RepoMesh.Registration
import RepoMesh.LeaseEnd
import RepoMesh.Renewal
import RepoMesh.AttemptRows
import RepoMesh.Backoff
import RepoMesh.TableSums
import RepoMesh.Insertions
import RepoMesh.Overtaking
import RepoMesh.AttemptEnds
import RepoMesh.Metrics
import RepoMesh.Settling
import RepoMesh.Paging
import RepoMesh.JobList
import RepoMesh.TriggeredIndex
import RepoMesh.FullText
import RepoMesh.MatchQuery
import RepoMesh.Best
import RepoMesh.EmbeddedSearch
import RepoMesh.WatchList
import RepoMesh.Deployment
import RepoMesh.SharedIndex
import RepoMesh.Completion
import RepoMesh.JobHistory
import RepoMesh.Watcher
import RepoMesh.Scanning
