import Nsqueue.Index
import Nsqueue.Fifo
import Nsqueue.Schedule
import Nsqueue.Queue
import Nsqueue.Ops
import Nsqueue.Threads.Step
import Nsqueue.Threads.Invariant
import Nsqueue.Threads.Linearizable
import Nsqueue.Threads.Idle
import Nsqueue.Capacity
import Nsqueue.Threads.Solo
import Nsqueue.Threads.Progress
import Nsqueue.Threads.LockFree
import Nsqueue.Clients.Transfer
import Nsqueue.Clients.Stress
import Nsqueue.Clients.Bench
import Nsqueue.Mutex.Step
import Nsqueue.Mutex.Safety
