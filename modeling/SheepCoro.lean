import SheepCoro.Lib.Machine
import SheepCoro.Lib.History
import SheepCoro.Lib.Chain
import SheepCoro.Lib.Drain
import SheepCoro.Lib.Count
import SheepCoro.Lib.Ring
import SheepCoro.Lib.Fifo
import SheepCoro.Lib.Pool
import SheepCoro.Lib.Update
import SheepCoro.Lib.Owner
import SheepCoro.Lib.Places
import SheepCoro.Lib.Tickets
import SheepCoro.WaitGroup
import SheepCoro.WaitGroup.Rounds
import SheepCoro.Event.Model
import SheepCoro.Event.HandOff
import SheepCoro.Event.Latch
import SheepCoro.Container
import SheepCoro.Event.Value
import SheepCoro.Task
import SheepCoro.Timer
import SheepCoro.FixedFds.Pool
import SheepCoro.FixedFds.Connector
import SheepCoro.Broadcast
import SheepCoro.Engine.Model
import SheepCoro.Engine.Forest
import SheepCoro.Engine.Stacks
import SheepCoro.Engine.Frames
import SheepCoro.Engine.Reclaim
import SheepCoro.Scheduler.Model
import SheepCoro.Scheduler.Accounts
import SheepCoro.Scheduler.Shutdown
import SheepCoro.Scheduler.Token
import SheepCoro.Scheduler.Whereabouts
import SheepCoro.Scheduler.Overflow
import SheepCoro.Scheduler.Affinity
import SheepCoro.Sync.Model
import SheepCoro.Sync.Lists
import SheepCoro.Sync.Invariant
import SheepCoro.Sync.Exclusion
import SheepCoro.Sync.Frame
import SheepCoro.Sync.Order
import SheepCoro.Sync.Notify
import SheepCoro.Sync.Monitor
import SheepCoro.Sync.OneList
import SheepCoro.Sync.Guard
import SheepCoro.Channel.Buffer
import SheepCoro.Channel.Refinement
import SheepCoro.Channel.Model
import SheepCoro.Channel.Fifo
import SheepCoro.Channel.Close
import SheepCoro.Channel.Ended
import SheepCoro.Channel.Served
import SheepCoro.Waits.Model
import SheepCoro.Waits.Exact
import SheepCoro.Waits.Primitives
import SheepCoro.Sync.Unlock
import SheepCoro.Context.Model
import SheepCoro.Context.Ledger
import SheepCoro.Context.Wakeup
import SheepCoro.Context.Standalone
import SheepCoro.Context.Outstanding
import SheepCoro.Context.Drain
import SheepCoro.Context.Batch
import SheepCoro.Scheduler.Lifecycle
import SheepCoro.TaskQueue.Index
import SheepCoro.TaskQueue.Model
import SheepCoro.TaskQueue.Slots
import SheepCoro.TaskQueue.Tickets
import SheepCoro.TaskQueue.Progress
import SheepCoro.TaskQueue.Order
import SheepCoro.Io.Model
import SheepCoro.Io.Awaiters
import SheepCoro.Io.Alive
import SheepCoro.Io.Delivery
import SheepCoro.Lib.Tree
import SheepCoro.Calls.Body
import SheepCoro.Calls.Machine
import SheepCoro.Calls.Heap
import SheepCoro.Calls.Meaning
import SheepCoro.Calls.Agree
import SheepCoro.Calls.Return
import SheepCoro.Lib.Guarded
import SheepCoro.Lib.Simulation
import SheepCoro.Spin.Model
import SheepCoro.Spin.Graft
import SheepCoro.Spin.Refine
import SheepCoro.Spin.Atomic
import SheepCoro.Spin.Progress
import SheepCoro.Channel.Sections
import SheepCoro.Channel.Passage
import SheepCoro.Lib.RoundRobin
import SheepCoro.Scheduler.Dispatch
