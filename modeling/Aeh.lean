import Aeh.Acceptance
import Aeh.Agreement
import Aeh.Analyze
import Aeh.Approvals
import Aeh.Attempts
import Aeh.Backoff
import Aeh.BaseCommit
import Aeh.Browsing
import Aeh.Capacity
import Aeh.Clocks
import Aeh.CommandDeadline
import Aeh.CommandOutput
import Aeh.Coverage
import Aeh.DiffPolicy
import Aeh.Enforced
import Aeh.Fleet
import Aeh.Frozen
import Aeh.Isolated
import Aeh.KeepLease
import Aeh.Lease
import Aeh.Lib.Lock
import Aeh.Lib.Machine
import Aeh.Lib.Table
import Aeh.Lifecycle
import Aeh.Paging
import Aeh.Paths
import Aeh.Preservation
import Aeh.Progress
import Aeh.Queue
import Aeh.Redaction
import Aeh.Reproduction
import Aeh.Resync
import Aeh.Review
import Aeh.RunOne
import Aeh.SyncServices
import Aeh.Timeline
import Aeh.Unavailable
import Aeh.ValidatedDiff
import Aeh.Verdict
import Aeh.Workers
import Aeh.Worktree
