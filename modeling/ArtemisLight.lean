import ArtemisLight.Lib.Trace
import ArtemisLight.Persistence.Writer.Effects
import ArtemisLight.Persistence.Equiv.Restart
import ArtemisLight.Persistence.Writer.Equiv.Stored
import ArtemisLight.Persistence.Record
import ArtemisLight.Persistence.Scripted
import ArtemisLight.Persistence.Equiv.GapFree
import ArtemisLight.Persistence.Writer.Equiv.Healthy
import ArtemisLight.Persistence.Equiv.Overlap
import ArtemisLight.Persistence.Equiv.DeepReorg
import ArtemisLight.Executors.Equiv.Bid
import ArtemisLight.Executors.Equiv.Sweep
import ArtemisLight.Persistence.Writer.Equiv.Delivery
import ArtemisLight.Persistence.Writer.Equiv.Coupled
import ArtemisLight.Persistence.Writer.Equiv.Delayed
import ArtemisLight.Persistence.Writer.Equiv.Retract
import ArtemisLight.Persistence.Equiv.SliceLoop
import ArtemisLight.Persistence.Equiv.Snapshot
import ArtemisLight.Persistence.Sql.Equiv.Migration
import ArtemisLight.Serving.Equiv.Paging
import ArtemisLight.Persistence.Equiv.Freeze
import ArtemisLight.Persistence.Equiv.Naming
import ArtemisLight.Executors.Equiv.Budget
import ArtemisLight.ExecutorExt.Equiv.RateLimit
import ArtemisLight.ExecutorExt.Equiv.Stack
import ArtemisLight.ExecutorExt.Equiv.CircuitBreaker
import ArtemisLight.Engine.Equiv.Driver
import ArtemisLight.Collectors.Equiv.BlockCollector
import ArtemisLight.Persistence.Sql.Equiv.Replay
import ArtemisLight.Persistence.Sql.Equiv.Archive
import ArtemisLight.Persistence.Equiv.ReplayOnce
import ArtemisLight.Persistence.Equiv.ExactlyOnce
import ArtemisLight.Persistence.Sql.Equiv.Chunks
import ArtemisLight.Serving.Equiv.Bounds
import ArtemisLight.Persistence.Equiv.Semilattice
import ArtemisLight.Persistence.Equiv.Segments
import ArtemisLight.Persistence.Writer.Equiv.Sound
import ArtemisLight.Persistence.Writer.Equiv.Aligned
import ArtemisLight.Persistence.Equiv.ShallowReorg
import ArtemisLight.Collectors.Equiv.EventCollector
import ArtemisLight.Engine.Equiv.Lifecycle
import ArtemisLight.Collectors.Equiv.Feedback
import ArtemisLight.Collectors.Equiv.MempoolCollector
import ArtemisLight.CollectorExt.Equiv.Composite
import ArtemisLight.StrategyExt.Equiv.Adapters
import ArtemisLight.StrategyExt.Equiv.Cooldown
