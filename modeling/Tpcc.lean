import Tpcc.Transition.System
import Tpcc.Futures.SharedState
import Tpcc.Futures.OneShot
import Tpcc.Futures.Chain
import Tpcc.Futures.Token
import Tpcc.Futures.Fold
import Tpcc.Futures.Subscriber
import Tpcc.Futures.Flatten
import Tpcc.Futures.Flattening
import Tpcc.Combine.Inputs
import Tpcc.Combine.All
import Tpcc.Combine.FirstOf
import Tpcc.Executors.Strand
import Tpcc.Executors.BlockingQueue
import Tpcc.Transition.Total
import Tpcc.Executors.StaticThreadPool
import Tpcc.Locks.Mutex
import Tpcc.Locks.TicketLock
import Tpcc.Tinyfibers.Scheduler
import Tpcc.Tinyfibers.Invariant
import Tpcc.Tinyfibers.Operations
import Tpcc.Tinyfibers.JoinHandle
import Tpcc.Tinyfibers.Future
import Tpcc.Futures.Placement
import Tpcc.Combine.Reentry
import Tpcc.Combine.StaysOut
import Tpcc.Combine.Deadlock
import Tpcc.Condvar.ConditionVariable
import Tpcc.Condvar.CyclicBarrier
import Tpcc.Condvar.Semaphore
import Tpcc.Condvar.BlockingQueue
import Tpcc.Fibers.Coroutine
import Tpcc.Fibers.Fiber
import Tpcc.Executors.PriorityExecutor
import Tpcc.Futures.TimeKeeper
import Tpcc.Tinyfibers.Join
import Tpcc.Net.Socket
import Tpcc.Net.Connect
import Tpcc.Executors.ManualExecutor
import Tpcc.Locks.Philosopher
import Tpcc.Tinyfibers.WaitQueue
import Tpcc.Tinyfibers.Yield
import Tpcc.Net.EchoServer
import Tpcc.Executors.LockFreeStack
import Tpcc.Executors.WorkersHandler
import Tpcc.Transition.Refinement
import Tpcc.Transition.Section
import Tpcc.Fibers.Spinlock
import Tpcc.Locks.Sections
import Tpcc.Intro.Guarded
import Tpcc.Machine.Memory
import Tpcc.Machine.Tso
import Tpcc.Locks.TASSpinLock
import Tpcc.Intro.Jump
import Tpcc.Support.Pool
import Tpcc.Fibers.ThreadPool
import Tpcc.Locks.TrickyLock
import Tpcc.Tinyfibers.Frame
import Tpcc.Tinyfibers.Stacks
