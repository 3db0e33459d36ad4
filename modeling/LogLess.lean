import LogLess.Lib.Runs
import LogLess.Lib.Frames
import LogLess.Lib.Text
import LogLess.Lib.Utf8
import LogLess.Lib.Lists
import LogLess.Lib.Decimal
import LogLess.Lib.Assoc
import LogLess.Lib.Civil
import LogLess.Model
import LogLess.Config
import LogLess.Partition
import LogLess.Queue
import LogLess.Wal.Writer
import LogLess.Wal.Postcard
import LogLess.Wal.Split
import LogLess.Wal.Recovery
import LogLess.Hec.Ack
import LogLess.Agent.Process
import LogLess.Agent.Accounting
import LogLess.Agent.Hec
import LogLess.Outbound.Spool
import LogLess.Outbound.Delivery
import LogLess.Tail.Tailer
import LogLess.Tail.Lines
import LogLess.Store.Catalog
import LogLess.Store.Merge
import LogLess.Store.MergeRuns
import LogLess.Store.ExactlyOnce
import LogLess.Drain.Restore
import LogLess.Drain.Stability
import LogLess.Auth.Admit
import LogLess.Lib.Json
import LogLess.Peer.Frame
import LogLess.Peer.Network
import LogLess.Store.Schema
import LogLess.Store.Compact
import LogLess.Store.CompactExact
import LogLess.Store.Maintain
import LogLess.Store.Scan
import LogLess.Lib.Rollup
import LogLess.S3.Candidates
import LogLess.S3.Isolation
import LogLess.Forward.Dispatch
import LogLess.Forward.Conserve
import LogLess.Sentry.Envelope
import LogLess.Sentry.Proxy
import LogLess.Agent.Tailing
import LogLess.Policy.Document
import LogLess.Policy.Impact
import LogLess.Relief.Pass
import LogLess.Policy.Confirm
import LogLess.Agent.Outstanding
import LogLess.Ring.Budget
import LogLess.Drain.Shapes
import LogLess.Lib.Tally
import LogLess.Store.Dictionary
import LogLess.Store.DictionaryRuns
import LogLess.Lib.Rewriting
import LogLess.Store.Migrate
import LogLess.Store.MigrateExact
import LogLess.Restore.Derive
import LogLess.Restore.Exact
import LogLess.Restore.Finish
import LogLess.Buckets
import LogLess.Lib.Glob
import LogLess.PartitionCodec
import LogLess.Policy.Journal
import LogLess.Policy.Service
import LogLess.Relief.Horizon
import LogLess.Tail.Glob
import LogLess.Forward.Feed
import LogLess.Parts.Local
import LogLess.Parts.Sweep
import LogLess.Parts.SweepExact
import LogLess.Peer.Acks
import LogLess.Peer.Dedupe
import LogLess.Sync.Planner
import LogLess.Auth.Jwt
import LogLess.Auth.Sessions
import LogLess.Http
import LogLess.Lib.LineLog
import LogLess.Parts.StateLogs
import LogLess.Policy.Follow
import LogLess.S3.Binding
import LogLess.Auth.Locks
import LogLess.Auth.Refresh
import LogLess.Hec.Query
import LogLess.Lib.Varint
import LogLess.Otlp.Proto
import LogLess.Sentry.Exact
import LogLess.Sentry.Limits
import LogLess.Sentry.Replay
import LogLess.Sync.Token
import LogLess.Auth.Base64Url
import LogLess.Forward.Payload
import LogLess.Listeners
import LogLess.S3.Dates
import LogLess.Sync.Novelty
import LogLess.Otlp.Flow
import LogLess.Store.Registry
import LogLess.Lib.Reads
import LogLess.Httpd.Grammar
import LogLess.Otlp.Agreement
