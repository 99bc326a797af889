import Pixy.Found.Runs
import Pixy.Found.Permits
import Pixy.Found.Process
import Pixy.Found.HeapOrder
import Pixy.Found.Ring
import Pixy.Found.Rings
import Pixy.Found.CLayout
import Pixy.Found.Bytes
import Pixy.Found.Smear
import Pixy.Sched.Scheduler
import Pixy.Sched.Accounting
import Pixy.Sched.Lifecycle
import Pixy.Sched.Awake
import Pixy.Sched.Order
import Pixy.Sched.FiberMemory
import Pixy.Sched.Linked
import Pixy.Sched.LinkedRefines
import Pixy.Sync.Semaphore
import Pixy.Sync.WakeUp
import Pixy.Sync.FirstCome
import Pixy.Sync.Guard
import Pixy.Sync.Event
import Pixy.Sync.Trigger
import Pixy.Store.Vector
import Pixy.Store.ByteVector
import Pixy.Store.ZeroedGrowth
import Pixy.Store.Heap
import Pixy.Store.Sift
import Pixy.Store.HeapRuns
import Pixy.Store.FullHeap
import Pixy.Store.CheckedHeap
import Pixy.Store.HeapRange
import Pixy.Store.Segments
import Pixy.Store.SegmentRuns
import Pixy.Store.SegmentRefines
import Pixy.Store.ListItem
import Pixy.Store.ItemMemory
import Pixy.Store.ListSort
import Pixy.Store.ListSorted
import Pixy.Mem.MemoryPool
import Pixy.Mem.Slots
import Pixy.Mem.Blocks
import Pixy.Mem.Lists
import Pixy.Mem.Calls
import Pixy.Mem.PoolRuns
import Pixy.Mem.Finalize
import Pixy.Pool.ThreadPool
import Pixy.Pool.Places
import Pixy.Pool.Idle
import Pixy.Pool.Once
import Pixy.Pool.Signals
import Pixy.Pool.Drain
import Pixy.Pool.Fifo
import Pixy.Pool.Pthread
import Pixy.Poll.Async
import Pixy.Poll.IOPoller
import Pixy.Poll.Registered
import Pixy.Poll.Shape
import Pixy.Poll.Watching
import Pixy.Poll.Flush
import Pixy.Poll.LazyEpoll
import Pixy.Poll.Contents
import Pixy.Poll.Delivery
import Pixy.Poll.Alike
import Pixy.Poll.Unchanged
import Pixy.Poll.AnyOrder
import Pixy.Loop.Timer
import Pixy.Loop.TimerHeap
import Pixy.Loop.Timeouts
import Pixy.Loop.WaitTime
import Pixy.Loop.Runtime
import Pixy.Loop.Fibers
import Pixy.Loop.Context
import Pixy.Loop.Sources
import Pixy.Loop.Log
import Pixy.Loop.Invariant
import Pixy.Loop.FiberSteps
import Pixy.Loop.LoopSteps
import Pixy.Loop.Reach
import Pixy.Loop.Completion
import Pixy.Loop.TimeOut
import Pixy.Loop.Components
import Pixy.Loop.Shared
import Pixy.Loop.Works
import Pixy.Loop.Course
import Pixy.Loop.Reasons
import Pixy.Loop.Shutdown
import Pixy.Loop.HeapRuntime
import Pixy.Loop.FailedWait
import Pixy.Loop.Batch
import Pixy.Loop.Stranded
import Pixy.Loop.Stale
import Pixy.Retry.Wait
import Pixy.Retry.Calls
import Pixy.Retry.Deadlines
import Pixy.Retry.Errno
