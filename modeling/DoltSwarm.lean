import DoltSwarm.Lib.FinMap
import DoltSwarm.Lib.Closure
import DoltSwarm.Lib.Enumeration
import DoltSwarm.Lib.MergeRing
import DoltSwarm.Lib.Pruning
import DoltSwarm.Lib.SerialEdits
import DoltSwarm.Lib.Runs
import DoltSwarm.Lib.Separated
import DoltSwarm.Lib.Batches
import DoltSwarm.Protocol.Hlc
import DoltSwarm.Protocol.Types
import DoltSwarm.Protocol.Identity
import DoltSwarm.Protocol.Content
import DoltSwarm.Protocol.Clock
import DoltSwarm.Protocol.Projection
import DoltSwarm.Protocol.Lineage
import DoltSwarm.Protocol.Sync
import DoltSwarm.Protocol.Step
import DoltSwarm.Protocol.Transitions
import DoltSwarm.Protocol.Frames
import DoltSwarm.Protocol.Ledger
import DoltSwarm.Protocol.CommitGraph
import DoltSwarm.Protocol.FinalizedLayer
import DoltSwarm.Protocol.FinalizedMerge
import DoltSwarm.Protocol.LowestAncestor
import DoltSwarm.Protocol.Convergence
import DoltSwarm.Protocol.FixedPoint
import DoltSwarm.Protocol.Parking
import DoltSwarm.Protocol.Readiness
import DoltSwarm.Protocol.Delivery
import DoltSwarm.Protocol.Replay
import DoltSwarm.Protocol.Sentinels
import DoltSwarm.Protocol.LineageOrder
import DoltSwarm.Protocol.RingSync
import DoltSwarm.Protocol.Healing
import DoltSwarm.Protocol.Retention
import DoltSwarm.Protocol.Subsumption
import DoltSwarm.Protocol.Frontier
import DoltSwarm.Protocol.History
import DoltSwarm.Protocol.Observation
import DoltSwarm.Protocol.CanonicalHistory
import DoltSwarm.Protocol.FinalizedConflicts
import DoltSwarm.Protocol.ConflictLedger
import DoltSwarm.Protocol.BoundedClosure
import DoltSwarm.Protocol.SeenFrontier
import DoltSwarm.Protocol.Compaction
import DoltSwarm.Protocol.GarbageCollection
import DoltSwarm.Protocol.HeadClasses
import DoltSwarm.Protocol.Competition
import DoltSwarm.Protocol.Stalls
import DoltSwarm.Protocol.CollectionOrder
import DoltSwarm.Protocol.SerialContent
import DoltSwarm.Protocol.OwnRoot
import DoltSwarm.Lib.Dag
import DoltSwarm.Lib.Traversal
import DoltSwarm.Lib.Json
import DoltSwarm.Lib.JsonStrings
import DoltSwarm.Lib.SqlLiteral
import DoltSwarm.Core.Timestamp
import DoltSwarm.Core.Commit
import DoltSwarm.Core.MetadataText
import DoltSwarm.Core.MetadataStatement
import DoltSwarm.Core.Collect
import DoltSwarm.Core.CanonicalCollection
import DoltSwarm.Core.Reconciler
import DoltSwarm.Core.ReplayMoves
import DoltSwarm.Core.ReplayReach
import DoltSwarm.Core.ReplayLoss
import DoltSwarm.Core.Index
import DoltSwarm.Core.IndexRebuild
import DoltSwarm.Core.FinalizedHistory
import DoltSwarm.Core.Determinism
import DoltSwarm.Core.Node
import DoltSwarm.Core.FailedReplay
import DoltSwarm.Core.SyncMoves
import DoltSwarm.Core.Stability
import DoltSwarm.Core.BaseDiscipline
import DoltSwarm.Core.Clock
import DoltSwarm.Core.ModelClock
import DoltSwarm.Core.Admission
import DoltSwarm.Core.Interference
import DoltSwarm.Core.SyncLoss
import DoltSwarm.Core.KnownHistory
import DoltSwarm.Core.Provenance
import DoltSwarm.Core.TimestampOrders
import DoltSwarm.Core.SwarmURL
import DoltSwarm.Core.ChunkStore
import DoltSwarm.Core.Presence
import DoltSwarm.Core.ChunkDelivery
import DoltSwarm.Core.AdDelivery
import DoltSwarm.Core.EventLoop
import DoltSwarm.Core.FileTransfer
import DoltSwarm.Core.Peers
