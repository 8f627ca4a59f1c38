import NellDB.Data.Bytes
import NellDB.Data.Champion
import NellDB.Data.Watermark
import NellDB.Data.Framing
import NellDB.Data.BufferedWriter
import NellDB.Data.FailingWriter
import NellDB.Data.Chunks
import NellDB.Data.WorkerPool
import NellDB.Data.Relay
import NellDB.Data.RelayInvariant
import NellDB.Data.Utf8
import NellDB.Data.Iteration
import NellDB.Data.Slice
import NellDB.Data.Interleaving
import NellDB.Clock
import NellDB.Record
import NellDB.Record.Format
import NellDB.Store.Conflict
import NellDB.Store.Memory
import NellDB.Store.Convergence
import NellDB.Store.Index
import NellDB.Store.Merge
import NellDB.Store.Vector
import NellDB.Store.Changes
import NellDB.Store.IndexedDB
import NellDB.LogStore.Append
import NellDB.LogStore.Journal
import NellDB.LogStore.Replay
import NellDB.LogStore.Scan
import NellDB.LogStore.Recovery
import NellDB.LogStore.Sessions
import NellDB.LogStore.Monotone
import NellDB.LogStore.Isolation
import NellDB.LogStore.Compact
import NellDB.LogStore.Faults
import NellDB.LogStore.Coherence
import NellDB.LogStore.Compaction
import NellDB.LogStore.Archive
import NellDB.LogStore.Catalogue
import NellDB.LogStore.Survival
import NellDB.Store.Causality
import NellDB.Server.Check
import NellDB.Server.Push
import NellDB.Server.Reconcile
import NellDB.Server.Mesh
import NellDB.Server.Agreement
import NellDB.Server.Wire
import NellDB.Server.Respond
import NellDB.Sdk.Rev
import NellDB.Sdk.Doc
import NellDB.Sdk.DocDB
import NellDB.Sdk.Commit
import NellDB.Sdk.Stamps
import NellDB.Sdk.Revisions
import NellDB.Sdk.Readback
import NellDB.Sdk.Views
import NellDB.Sdk.Replicate
import NellDB.Sdk.Soundness
import NellDB.Sdk.Pull
import NellDB.Sdk.Sync
import NellDB.Sdk.Idempotence
import NellDB.Sdk.Writers
import NellDB.Sdk.Internal
import NellDB.Sdk.LiveWS
import NellDB.Sdk.Provenance
import NellDB.Sdk.Gossip
import NellDB.Server.Binary
import NellDB.Server.Broadcast
import NellDB.Server.Pages
import NellDB.Server.Auth
import NellDB.Sdk.Transport
import NellDB.Data.Sorting
import NellDB.Sdk.Scans
import NellDB.Data.Paging
import NellDB.Sdk.DocPages
import NellDB.Data.Channel
import NellDB.Sdk.Feed
import NellDB.Sdk.History
import NellDB.Sdk.Restart
import NellDB.Data.TokenBucket
import NellDB.Server.RateLimit
import NellDB.Data.Atoi
import NellDB.Sdk.Generations
import NellDB.Store.VectorFormat
import NellDB.Data.RelayRounds
import NellDB.Sdk.Convergence
import NellDB.Sdk.Hub
import NellDB.Server.Peers
import NellDB.Server.AntiEntropy
import NellDB.Sdk.Live
import NellDB.Sdk.Sessions
import NellDB.Server.Handler
import NellDB.Sdk.SignedSync
import NellDB.Server.Registry
import NellDB.Sdk.Destroy
import NellDB.Sdk.LiveAgreement
import NellDB.LogStore.Crash
import NellDB.Server.Resubmit
import NellDB.LogStore.Backing
import NellDB.Server.LogBacked
import NellDB.Store.Overlap
