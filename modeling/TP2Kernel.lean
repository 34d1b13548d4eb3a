import TP2Kernel.Words
import TP2Kernel.Tiling
import TP2Kernel.Runs
import TP2Kernel.Links
import TP2Kernel.Dyadic
import TP2Kernel.RingBuffer
import TP2Kernel.CMemory
import TP2Kernel.Numerals
import TP2Kernel.HeapClient
import TP2Kernel.FreeList
import TP2Kernel.FreeListRun
import TP2Kernel.FreeListHistory
import TP2Kernel.FreeListCalls
import TP2Kernel.FreeListRepeats
import TP2Kernel.ArgCopy
import TP2Kernel.Buddy
import TP2Kernel.BuddyRun
import TP2Kernel.BuddyHistory
import TP2Kernel.BuddyCalls
import TP2Kernel.Paths
import TP2Kernel.Process
import TP2Kernel.ReadyQueue
import TP2Kernel.Scheduler
import TP2Kernel.InitialStack
import TP2Kernel.SchedulerCore
import TP2Kernel.Kernel
import TP2Kernel.Semaphore
import TP2Kernel.Pipe
import TP2Kernel.Calls
import TP2Kernel.Wakes
import TP2Kernel.ReadyQueueRun
import TP2Kernel.Lives
import TP2Kernel.Zombies
import TP2Kernel.EndPoints
import TP2Kernel.PipeEnds
import TP2Kernel.KillResidue
import TP2Kernel.PipeAccounting
import TP2Kernel.PipeHolders
import TP2Kernel.System
import TP2Kernel.Parking
import TP2Kernel.Tokens
import TP2Kernel.SemaphoreSafety
import TP2Kernel.WaitQueues
import TP2Kernel.SemaphoreAccounting
import TP2Kernel.SemaphoreOrder
import TP2Kernel.SemaphoreBytes
import TP2Kernel.SemaphoreQueues
import TP2Kernel.SemaphoreNames
import TP2Kernel.SemaphoreRefinement
import TP2Kernel.Moves
import TP2Kernel.Dispatch
import TP2Kernel.Aging
import TP2Kernel.TickDecision
import TP2Kernel.RoundRobin
import TP2Kernel.ExitNotice
import TP2Kernel.StackOwnership
import TP2Kernel.ExitStatus
import TP2Kernel.WaitRounds
import TP2Kernel.Foreground
import TP2Kernel.PipeSemaphores
import TP2Kernel.PipeFifo
import TP2Kernel.PipeCounters
import TP2Kernel.PipeWatch
import TP2Kernel.PipeWatchSteps
import TP2Kernel.PipeWakeup
import TP2Kernel.Pipeline
import TP2Kernel.Format
import TP2Kernel.Filters
import TP2Kernel.Listing
import TP2Kernel.Tokenizer
import TP2Kernel.Screen
import TP2Kernel.Memcpy
import TP2Kernel.ModuleLoader
import TP2Kernel.SavedRsp
import TP2Kernel.Interrupts
import TP2Kernel.ContextSwitch
import TP2Kernel.Resume
