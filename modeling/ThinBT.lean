import ThinBT.Util.SortedSet
import ThinBT.Util.SortedMap
import ThinBT.Util.Lists
import ThinBT.Util.Actions
import ThinBT.Util.Bytes
import ThinBT.Util.Bitset
import ThinBT.Util.Machine
import ThinBT.Util.Simulation
import ThinBT.Util.Codec
import ThinBT.Util.Supply
import ThinBT.Util.Strings
import ThinBT.Util.Json
import ThinBT.Util.Ring
import ThinBT.Util.Fifo
import ThinBT.Common.Platform
import ThinBT.Common.Numbers
import ThinBT.Seed.TSeed
import ThinBT.Seed.Format
import ThinBT.Seed.Theorems.RoundTrip
import ThinBT.Cdc.FastCDC
import ThinBT.Cli.Make
import ThinBT.Common.TrackerUrl
import ThinBT.Common.Theorems.TrackerUrl
import ThinBT.Cli.Tbt
import ThinBT.Ipc.Server
import ThinBT.Ipc.Theorems.Commands
import ThinBT.Seed.Theorems.InfoHash
import ThinBT.Seed.Theorems.Partition
import ThinBT.Cdc.Theorems.Locality
import ThinBT.Cdc.Theorems.Chunks
import ThinBT.Cdc.Theorems.Tiling
import ThinBT.Cdc.Theorems.ContentCuts
import ThinBT.Cdc.Theorems.CutPoints
import ThinBT.Storage.SegmentWriter
import ThinBT.Storage.Segments
import ThinBT.Storage.Theorems.Segments
import ThinBT.Scheduler.State
import ThinBT.Scheduler.Operations
import ThinBT.Assembler.ChunkAssembler
import ThinBT.Assembler.Threads
import ThinBT.Assembler.Theorems.Interleaving
import ThinBT.Scheduler.Theorems.PeerSlot
import ThinBT.Scheduler.Theorems.Apply
import ThinBT.Scheduler.Theorems.Guard
import ThinBT.Scheduler.Theorems.Methods
import ThinBT.Scheduler.Theorems.Outcome
import ThinBT.Scheduler.Theorems.Runs
import ThinBT.Scheduler.Theorems.Missing
import ThinBT.Scheduler.Theorems.Rebalance
import ThinBT.Scheduler.Theorems.Requests
import ThinBT.Scheduler.Theorems.Pipeline
import ThinBT.Scheduler.Theorems.Redundancy
import ThinBT.Scheduler.Theorems.Callbacks
import ThinBT.Scheduler.Theorems.Views
import ThinBT.Scheduler.Theorems.Active
import ThinBT.Scheduler.Theorems.Counters
import ThinBT.Scheduler.Theorems.Replicas
import ThinBT.Scheduler.Theorems.Refill
import ThinBT.Scheduler.Theorems.Offers
import ThinBT.Scheduler.Theorems.WorkConserving
import ThinBT.Scheduler.Theorems.Liveness
import ThinBT.Queue.ReaderWriterQueue
import ThinBT.Queue.Theorems.Blocks
import ThinBT.Queue.Theorems.Spsc
import ThinBT.Queue.Theorems.Calls
import ThinBT.Queue.Theorems.Ends
import ThinBT.Session.Protocol
import ThinBT.Task.State
import ThinBT.Task.Theorems.Steps
import ThinBT.Task.Theorems.Layout
import ThinBT.Task.Update
import ThinBT.Task.Theorems.Reuse
import ThinBT.Task.Theorems.Start
import ThinBT.Task.Theorems.Resume
import ThinBT.Task.Theorems.Ledger
import ThinBT.Task.Theorems.Recovery
import ThinBT.Task.Theorems.Agreement
import ThinBT.Task.Theorems.Downloads
import ThinBT.Task.Verification
import ThinBT.Task.Theorems.Uninterrupted
import ThinBT.Task.Theorems.Verified
import ThinBT.Task.Theorems.Verification
import ThinBT.Task.Pool
import ThinBT.Task.Theorems.Pool
import ThinBT.Task.Theorems.Reusable
import ThinBT.Task.Manager
import ThinBT.Task.Theorems.Failures
import ThinBT.Task.Theorems.Progress
import ThinBT.Session.PeerSession
import ThinBT.Session.Wire
import ThinBT.Session.Socket
import ThinBT.Session.WriteSide
import ThinBT.Session.Theorems.Log
import ThinBT.Session.Theorems.Pieces
import ThinBT.Task.Theorems.Measured
import ThinBT.Task.Theorems.Sound
import ThinBT.Task.Theorems.Overruns
import ThinBT.Task.Theorems.Liveness
import ThinBT.Task.Theorems.Completion
import ThinBT.Task.Theorems.Containment
import ThinBT.Session.Theorems.Transfer
import ThinBT.Session.Theorems.Streams
import ThinBT.Session.Theorems.Writers
import ThinBT.Session.Theorems.Sendfile
import ThinBT.Session.Theorems.Serving
import ThinBT.Session.Theorems.Decoding
import ThinBT.Node.State
import ThinBT.Node.Choke
import ThinBT.Node.Theorems.Sessions
import ThinBT.Node.Theorems.Guard
import ThinBT.Node.Theorems.Wired
import ThinBT.Node.Theorems.Handshake
import ThinBT.Node.Theorems.Timeouts
import ThinBT.Node.Theorems.Traffic
import ThinBT.Node.Theorems.Flags
import ThinBT.Node.Theorems.Records
import ThinBT.Node.Theorems.Disclosure
import ThinBT.Node.Theorems.Acceptance
import ThinBT.Node.Theorems.Acts
import ThinBT.Node.Theorems.Trusted
import ThinBT.Node.Theorems.Slots
import ThinBT.Node.Theorems.Choke
import ThinBT.Node.PeerManager
import ThinBT.Node.Theorems.Addresses
import ThinBT.Node.Gossip
import ThinBT.Node.Theorems.Gossip
import ThinBT.Swarm.State
import ThinBT.Swarm.Theorems.Fifo
import ThinBT.Swarm.Theorems.Acceptance
import ThinBT.Swarm.Theorems.Flags
import ThinBT.Swarm.Theorems.Knowledge
import ThinBT.Swarm.Theorems.Safety
import ThinBT.Swarm.Theorems.Overruns
import ThinBT.Swarm.Bytes
import ThinBT.Swarm.Theorems.Sockets
import ThinBT.Swarm.Theorems.Bytes
import ThinBT.Swarm.Theorems.Distribution
import ThinBT.Swarm.Theorems.Restart
import ThinBT.Tracker.Server
import ThinBT.Tracker.Theorems.Membership
import ThinBT.Tracker.Acceptor
import ThinBT.Tracker.Theorems.Requests
import ThinBT.Tracker.Client
import ThinBT.Tracker.Theorems.Chains
import ThinBT.Common.Inet
import ThinBT.Tracker.Exchange
import ThinBT.Tracker.Theorems.Exchange
