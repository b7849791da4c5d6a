import LlingrDemux.Shared.Counting
import LlingrDemux.Shared.KeyedFold
import LlingrDemux.Shared.System
import LlingrDemux.Shared.Lane
import LlingrDemux.Shared.SortCompact
import LlingrDemux.Offset.WorkItem
import LlingrDemux.Offset.Tracker
import LlingrDemux.Offset.Committer
import LlingrDemux.Offset.SortedBuffer
import LlingrDemux.Offset.TrackerSpec
import LlingrDemux.Offset.Retired
import LlingrDemux.Offset.Projection
import LlingrDemux.Offset.Backlog
import LlingrDemux.Offset.Drain
import LlingrDemux.Offset.Preserved
import LlingrDemux.Offset.DrainHandshake
import LlingrDemux.Offset.Evidence
import LlingrDemux.Offset.Stream
import LlingrDemux.Offset.Exactness
import LlingrDemux.Offset.StepSystem
import LlingrDemux.Offset.LedgerInvariant
import LlingrDemux.Offset.OpenTracker
import LlingrDemux.Offset.Safety
import LlingrDemux.Offset.Threaded
import LlingrDemux.Offset.Progress
import LlingrDemux.Offset.StreamExact
import LlingrDemux.Subscription.Rebalance
import LlingrDemux.Subscription.Assign
import LlingrDemux.Subscription.Epochs
import LlingrDemux.Subscription.EpochIsolation
import LlingrDemux.Pipeline.Fnv
import LlingrDemux.Pipeline.Worker
import LlingrDemux.Pipeline.Demux
import LlingrDemux.Pipeline.DemuxSystem
import LlingrDemux.Pipeline.WorkerPlace
import LlingrDemux.Pipeline.Layout
import LlingrDemux.Pipeline.Placement
import LlingrDemux.Pipeline.Dispatching
import LlingrDemux.Pipeline.Placed
import LlingrDemux.Pipeline.KeyLane
import LlingrDemux.Pipeline.KeyOrder
import LlingrDemux.Pipeline.Prev
import LlingrDemux.Pipeline.Tokens
import LlingrDemux.Pipeline.WorkerDrain
import LlingrDemux.Offset.Accounting
import LlingrDemux.Offset.DeferredFlag
import LlingrDemux.Offset.RejectedCommit
import LlingrDemux.Offset.WatermarkTime
import LlingrDemux.Offset.Independence
import LlingrDemux.Consumer.Shutdown
import LlingrDemux.Offset.Promotion
import LlingrDemux.Pipeline.LifeCycle
import LlingrDemux.Shared.Election
import LlingrDemux.Consumer.Notify
import LlingrDemux.Consumer.CallbackOnce
import LlingrDemux.Consumer.Emergency
import LlingrDemux.Offset.RingBuffer
import LlingrDemux.Collector.Sink
import LlingrDemux.Offset.Carried
import LlingrDemux.Collector.DeadLetters
import LlingrDemux.Offset.RingHistory
import LlingrDemux.Offset.Capacity
import LlingrDemux.Snapshot.Throughput
import LlingrDemux.Config.Accepted
import LlingrDemux.Pipeline.PrevChain
import LlingrDemux.Snapshot.PreCommits
import LlingrDemux.Collector.Conservation
import LlingrDemux.Collector.Recycling
import LlingrDemux.Consumer.RateLimit
import LlingrDemux.Engine.Delivery
import LlingrDemux.Bandwidth.Aggregator
import LlingrDemux.Pipeline.Settling
import LlingrDemux.Pipeline.Wakeups
import LlingrDemux.Subscription.Polling
import LlingrDemux.Subscription.QuietDrain
import LlingrDemux.Consumer.RateConformance
import LlingrDemux.Offset.Locking
import LlingrDemux.Snapshot.Recorder
import LlingrDemux.Engine.ExactlyOnce
import LlingrDemux.Consumer.Subscribing
import LlingrDemux.Consumer.Exits
import LlingrDemux.Consumer.ExitsCover
