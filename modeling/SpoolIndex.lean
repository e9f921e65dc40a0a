import SpoolIndex.Main
import SpoolIndex.Operation.Laws
import SpoolIndex.Store.Laws
import SpoolIndex.Proofs.Key.Rendering
import SpoolIndex.Proofs.Slice
import SpoolIndex.Proofs.Store.Growth
import SpoolIndex.Proofs.Allocation
import SpoolIndex.Proofs.Allocation.Tiling
import SpoolIndex.Proofs.Allocation.Starts
import SpoolIndex.Proofs.Operation.Contract
import SpoolIndex.Proofs.Operation.Paths
import SpoolIndex.Proofs.Store.Page
import SpoolIndex.Proofs.View.Rows
import SpoolIndex.Proofs.View.Maintenance
import SpoolIndex.Proofs.Browse.Calls
import SpoolIndex.Proofs.View.Recording
import SpoolIndex.Proofs.View.Deletion
import SpoolIndex.Proofs.View.Request
import SpoolIndex.Proofs.Interleaving.Steps
import SpoolIndex.Proofs.Interleaving.Records
import SpoolIndex.Proofs.Interleaving.Settled
import SpoolIndex.Proofs.Interleaving.Overtaken
import SpoolIndex.Proofs.Interleaving.SettleWindow
import SpoolIndex.Proofs.Interleaving.Faults
import SpoolIndex.Proofs.Interleaving.Register
import SpoolIndex.Proofs.Browse.Places
import SpoolIndex.Proofs.Browse.Scan
import SpoolIndex.Proofs.Browse.Pull
import SpoolIndex.Proofs.Browse.Outage
import SpoolIndex.Proofs.Browse.Drain
import SpoolIndex.Proofs.Browse.PartialFailure
import SpoolIndex.Proofs.Installation.Runs
import SpoolIndex.Proofs.Installation.Polls
import SpoolIndex.Proofs.Installation.Records
import SpoolIndex.Proofs.Installation.History
import SpoolIndex.Proofs.Installation.Exactness
import SpoolIndex.Proofs.Installation.Lapses
import SpoolIndex.Proofs.Installation.Retries
import SpoolIndex.Proofs.Database.Rows
import SpoolIndex.Proofs.Database.Interchange
import SpoolIndex.Proofs.Operation.Transcripts
import SpoolIndex.Proofs.Operation.Hosting
import SpoolIndex.Proofs.View.Writing
import SpoolIndex.Proofs.View.HandOff
import SpoolIndex.Proofs.Operation.Confinement
import SpoolIndex.Proofs.View.Confinement
import SpoolIndex.Proofs.Installation.Isolation
import SpoolIndex.Proofs.Operation.Failures
import SpoolIndex.Proofs.Browse.Search
import SpoolIndex.Proofs.Browse.Watermark
import SpoolIndex.Proofs.Operation.Serving
import SpoolIndex.Proofs.View.Rerecording
import SpoolIndex.Proofs.View.Unindexed
import SpoolIndex.Proofs.Operation.Faltering
import SpoolIndex.Proofs.Operation.Spans
import SpoolIndex.Proofs.Browse.Faltering
import SpoolIndex.Proofs.View.Upkeep
import SpoolIndex.Proofs.View.BulkDeletion
import SpoolIndex.Proofs.View.FailFast
import SpoolIndex.Proofs.Installation.Clearing
import SpoolIndex.Proofs.Store.Retry
import SpoolIndex.Proofs.View.Paging
import SpoolIndex.Proofs.View.Schedule
import SpoolIndex.Proofs.Browse.ScanCuts
import SpoolIndex.Proofs.Browse.Cuts
import SpoolIndex.Proofs.View.SkipAndContinue
import SpoolIndex.Proofs.Store.Backoff
import SpoolIndex.Proofs.Key.Order
import SpoolIndex.Proofs.Installation.Replies
import SpoolIndex.Proofs.Browse.Detailed
import SpoolIndex.Proofs.Operation.Counters
import SpoolIndex.Proofs.View.Deeds
import SpoolIndex.Proofs.Browse.Deeds
import SpoolIndex.Proofs.View.Counters
import SpoolIndex.Proofs.View.DerivedSlice
import SpoolIndex.Proofs.Browse.Enumeration
import SpoolIndex.Proofs.View.SliceCalls
import SpoolIndex.Proofs.Interleaving.SliceBounds
import SpoolIndex.Proofs.Text.Digits
import SpoolIndex.Proofs.Time.Date
import SpoolIndex.Proofs.Time.Instant
import SpoolIndex.Proofs.Time.Rfc3339
import SpoolIndex.Proofs.Json.Tokens
import SpoolIndex.Proofs.Json.Values
import SpoolIndex.Proofs.Json.Records
import SpoolIndex.Proofs.Partition
