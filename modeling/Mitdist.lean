import Mitdist.TransitionSystem
import Mitdist.LeaderSafety
import Mitdist.RaftInstance
import Mitdist.Persistence
import Mitdist.RaftIndices
import Mitdist.ApplyStream
import Mitdist.RaftSafety
import Mitdist.RaftServers
import Mitdist.MatchIndex
import Mitdist.CommitRule
import Mitdist.CommitSafety
import Mitdist.StateMachineSafety
import Mitdist.ApplyService
import Mitdist.KvLinearizable
import Mitdist.LeaderAppendOnly
import Mitdist.LogRepair
import Mitdist.Compaction
import Mitdist.KvSnapshots
import Mitdist.ConcurrentClerk
import Mitdist.TaskReissue
import Mitdist.MapOutputReads
import Mitdist.CommitStep
import Mitdist.LogBackoff
import Mitdist.StaleAppends
import Mitdist.SnapshotCounters
import Mitdist.RetriedRequests
import Mitdist.Rendezvous
import Mitdist.ReusedIndex
import Mitdist.ReplyOrder
import Mitdist.SnapshotFeed
import Mitdist.KvClusterRuns
import Mitdist.WordCount
import Mitdist.MrProgress
import Mitdist.CommittedLog
import Mitdist.Votes
import Mitdist.MajorityCommits
import Mitdist.RecordedLog
