import Zerohop.Lib.Machine
import Zerohop.Lib.Word
import Zerohop.Lib.Bytes
import Zerohop.Lib.Cuts
import Zerohop.Lib.BinarySearch
import Zerohop.Lib.Comparison
import Zerohop.Lib.LastWriter
import Zerohop.Lib.Parties
import Zerohop.Lib.Channel
import Zerohop.Lib.Groups
import Zerohop.Lib.Window
import Zerohop.Lib.Expiry
import Zerohop.Buffer.Ring
import Zerohop.Buffer.Broadcast
import Zerohop.Buffer.Interleaved
import Zerohop.Buffer.Claims
import Zerohop.Buffer.Progress
import Zerohop.Buffer.Consumers
import Zerohop.Queue.Lockless
import Zerohop.Queue.Ring
import Zerohop.Queue.Batches
import Zerohop.Queue.Interleaved
import Zerohop.Queue.Lengths
import Zerohop.Queue.Fifo
import Zerohop.Queue.Drain
import Zerohop.Queue.Baseline
import Zerohop.Err
import Zerohop.Store.Transaction
import Zerohop.Store.Builder
import Zerohop.Store.Writer
import Zerohop.Store.ReadBack
import Zerohop.Store.Tables
import Zerohop.Store.Grouping
import Zerohop.Store.Wire
import Zerohop.Store.RoundTrip
import Zerohop.Store.Accessors
import Zerohop.Store.Format
import Zerohop.Store.Stream
import Zerohop.Store.ResultCodec
import Zerohop.Store.Edge
import Zerohop.Store.Account
import Zerohop.Store.Token
import Zerohop.Read.Notifier
import Zerohop.Shard.Pipeline
import Zerohop.Shard.Delivery
import Zerohop.Shard.Completion
import Zerohop.Shard.Order
import Zerohop.Shard.Backlog
import Zerohop.Quic.Request
import Zerohop.Quic.Refusal
import Zerohop.Quic.Pending
import Zerohop.Quic.Forward
import Zerohop.Quic.Leaders
import Zerohop.Quic.Serve
import Zerohop.Quic.Survival
import Zerohop.Quic.Lifecycle
import Zerohop.Quic.Journal
import Zerohop.Quic.Ledger
import Zerohop.Quic.Backoff
import Zerohop.Quic.Shutdown
import Zerohop.Quic.Waiting
import Zerohop.Relay.Capacity
import Zerohop.Relay.Cancel
