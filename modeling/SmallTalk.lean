import SmallTalk.Canonical.Documents
import SmallTalk.Canonical.Keys
import SmallTalk.Catalog.ArchiveClosed
import SmallTalk.Checkpoint.Dating
import SmallTalk.Checkpoint.Manifests
import SmallTalk.Checkpoint.Pages
import SmallTalk.Checkpoint.PeriodSums
import SmallTalk.Checkpoint.TrimRuns
import SmallTalk.Delivery.Transports
import SmallTalk.Digest.Exact
import SmallTalk.Fleet.Removal
import SmallTalk.Mission.Due
import SmallTalk.Mission.Reviewers
import SmallTalk.Mission.Variables
import SmallTalk.Operations.Projected
import SmallTalk.Ownership.Fencing
import SmallTalk.Principal.SignedFields
import SmallTalk.Principal.Trimmed
import SmallTalk.Projection.DeferralRuns
import SmallTalk.Queue.Selection
import SmallTalk.Replication.Compact
import SmallTalk.Replication.Counts
import SmallTalk.Replication.HealNarrowing
import SmallTalk.Replication.SnapshotRuns
import SmallTalk.Replication.Sync
import SmallTalk.Resources.Base64
import SmallTalk.Resources.CatchUpRuns
import SmallTalk.Resources.Flush
