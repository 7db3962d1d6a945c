import Gylo.Lib.Runs
import Gylo.Lib.Outputs
import Gylo.Lib.Reach
import Gylo.Lib.Listing
import Gylo.Lib.Taking
import Gylo.Lib.Packing
import Gylo.Lib.Unpacking
import Gylo.Lib.Utf8
import Gylo.Lib.Framing
import Gylo.Lib.Lines
import Gylo.Lib.Dags
import Gylo.Lib.Values
import Gylo.Lib.SortedSets
import Gylo.Lib.Keyspace
import Gylo.Store.Schema
import Gylo.Store.Statements
import Gylo.Store.Effects
import Gylo.Store.Lifecycle
import Gylo.Store.Reports
import Gylo.Store.Dependencies
import Gylo.Store.Stranding
import Gylo.Store.Notifications
import Gylo.Store.Retention
import Gylo.Store.Reclaim
import Gylo.Store.Admission
import Gylo.Store.Fencing
import Gylo.Store.FetchCall
import Gylo.Store.Leasing
import Gylo.Store.Unique
import Gylo.Store.DeadLetters
import Gylo.Store.Passes
import Gylo.Store.Ordering
import Gylo.Store.Ledgers
import Gylo.Store.Batches
import Gylo.Store.Pruning
import Gylo.Store.Holding
import Gylo.Store.Progress
import Gylo.Store.Backoff
import Gylo.Wire.Protocol
import Gylo.Wire.Decoder
import Gylo.Wire.Canonical
import Gylo.Wire.Chunking
import Gylo.Wire.Child
import Gylo.Wire.Completion
import Gylo.Wire.Reporting
import Gylo.Child.Serve
import Gylo.Child.Steps
import Gylo.Client.Adapters
import Gylo.Client.Enqueue
import Gylo.Client.Calls
import Gylo.Client.Leasing
import Gylo.Client.Nodes
import Gylo.Client.Atomicity
import Gylo.Client.Keys
import Gylo.Client.Composition
import Gylo.Client.Objects
import Gylo.Worker.Flush
import Gylo.Worker.Isolation
import Gylo.Worker.Schedules
import Gylo.Worker.Expressions
import Gylo.Worker.Ticks
import Gylo.Worker.Deploys
import Gylo.Worker.Recovery
import Gylo.Worker.Replay
import Gylo.Worker.StepValues
import Gylo.Worker.Session
import Gylo.Worker.Moves
import Gylo.Worker.Issued
import Gylo.Worker.Reader
import Gylo.Worker.Acks
import Gylo.Worker.Renewal
import Gylo.Worker.HandBack
import Gylo.Worker.Concurrency
import Gylo.Worker.Backpressure
import Gylo.Worker.Shutdown
import Gylo.Worker.LastWords
import Gylo.Worker.Supervision
import Gylo.Worker.Heartbeat
import Gylo.Worker.Fleet
import Gylo.Worker.Wakeups
import Gylo.Worker.Delivery
import Gylo.Worker.Custody
import Gylo.Worker.Roundtrip
import Gylo.Redis.Backend
import Gylo.Redis.Workers
import Gylo.Redis.Ownership
import Gylo.Redis.Attempts
import Gylo.Redis.Claim
import Gylo.Redis.Levels
import Gylo.Redis.Keys
import Gylo.Redis.Server
import Gylo.Redis.Namespaces
import Gylo.Redis.Sharing
