import HThread.Semaphore
import HThread.Rwlock
import HThread.Vthreads.Identity
import HThread.Interleave.Custody
import HThread.Interleave.Handshake
import HThread.Vthreads.Stacks
import HThread.Worker
import HThread.Cond.Condvar
import HThread.Cond.HandOff
import HThread.Cond.Waiting
import HThread.Cond.Waking
import HThread.Interleave.Chain
import HThread.Interleave.SpinLock
import HThread.Join.Vthread
import HThread.Join.Effects
import HThread.Join.HandOff
import HThread.Join.Finish
import HThread.Barrier.Barrier
import HThread.Barrier.Rounds
import HThread.Barrier.Phases
import HThread.Barrier.Spare
import HThread.Barrier.Spinning
import HThread.Tthreads.CoreId
import HThread.Cond.Broadcast
import HThread.Cond.Lockfree
import HThread.Vthreads.Specific
import HThread.Tthreads.Quota
import HThread.Semaphore.Trywait
import HThread.Join.Posts
import HThread.Rwlock.Balance
import HThread.Join.Calls
import HThread.Join.Registers
import HThread.Join.Books
import HThread.Join.Accounts
import HThread.Join.Results
import HThread.Join.Delivery
import HThread.Backoff
import HThread.SpinLock
import HThread.Semaphore.Binary
import HThread.Hsem
import HThread.Hsem.Wakeups
import HThread.ConcurrentSet
import HThread.Interleave.Histories
import HThread.NodeStack
import HThread.Interleave.Refinement
import HThread.Interleave.Fifo
import HThread.Interleave.Permits
import HThread.Interleave.Tickets
import HThread.RunQueue.Producer
import HThread.RunQueue.Draws
import HThread.RunQueue.Storage
import HThread.RunQueue.SubQueue
import HThread.RunQueue.LightweightSemaphore
import HThread.RunQueue.VsQueue
import HThread.RunQueue.Elements
import HThread.RunQueue.Lanes
import HThread.RunQueue.Alone
import HThread.Interleave.Coroutines
import HThread.X86.Memory
import HThread.X86.Machine
import HThread.X86.Footprint
import HThread.Fcontext.Code
import HThread.Fcontext.Jump
import HThread.Fcontext.Make
import HThread.Fcontext.Workers
import HThread.Fcontext.Switches
import HThread.Fcontext.Turns
import HThread.Interleave.Pool
import HThread.RunQueue.FreeList
import HThread.RunQueue.BlockPool
import HThread.Interleave.Directory
import HThread.Interleave.Probing
import HThread.Interleave.Rations
import HThread.RunQueue.ProducerHash
import HThread.RunQueue.ProducerLookup
