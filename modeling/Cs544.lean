import Cs544.Library.Runs
import Cs544.Library.Extents
import Cs544.Library.Rounding
import Cs544.Library.Ring
import Cs544.Library.Chain
import Cs544.Library.Scatter
import Cs544.Library.Tokens
import Cs544.Library.Permits
import Cs544.Library.Selection
import Cs544.Library.Pieces
import Cs544.Library.Oracle
import Cs544.Library.Buffer
import Cs544.Library.BucketQueue
import Cs544.Library.Links
import Cs544.Library.Paths
import Cs544.Slob.Layout
import Cs544.Slob.Page
import Cs544.Slob.FreeList
import Cs544.Slob.PageOps
import Cs544.Slob.PageInvariant
import Cs544.Slob.Alloc
import Cs544.Slob.Search
import Cs544.Slob.Fragmentation
import Cs544.Slob.HeapInvariant
import Cs544.Slob.HeapRuns
import Cs544.Slob.Kmalloc
import Cs544.Slob.KmallocRuns
import Cs544.Slob.Canonical
import Cs544.Sstf.Scheduler
import Cs544.Sstf.Elevator
import Cs544.Sstf.Starvation
import Cs544.Sstf.Conservation
import Cs544.Sstf.Drain
import Cs544.Sched.Policy
import Cs544.Sched.Fork
import Cs544.Sched.RoundRobin
import Cs544.Sched.Completion
import Cs544.Sched.RtBandwidth
import Cs544.Sched.RtBandwidthInvariant
import Cs544.Sched.RtThrottling
import Cs544.Sched.RtQueue
import Cs544.Sched.RtQueueInvariant
import Cs544.Sched.ReadyLists
import Cs544.Sched.RtQueueRuns
import Cs544.Sched.PushPull
import Cs544.Ramdsk.Transfer
import Cs544.Ramdsk.ReadAfterWrite
import Cs544.Ramdsk.Request
import Cs544.Ramdsk.Completion
import Cs544.Ramdsk.LifeCycle
import Cs544.Ramdsk.Capacity
import Cs544.Ramdsk.Segmentation
import Cs544.Concur.Dinners
import Cs544.Concur.DinnersInvariant
import Cs544.Concur.DinnersSafety
import Cs544.Concur.DinnersRefinement
import Cs544.Concur.Philosophers
import Cs544.Concur.PhilosophersFairness
import Cs544.Concur.PhilosophersDeadlock
import Cs544.Concur.BoundedBuffer
import Cs544.Concur.BoundedBufferSafety
import Cs544.Concur.Barbershop
import Cs544.Concur.SharedResource
import Cs544.Concur.RandomRange
import Cs544.Fuzzer.SyscallDef
import Cs544.Fuzzer.Sandbox
import Cs544.Fuzzer.FdPool
import Cs544.Fuzzer.GenPath
import Cs544.Fuzzer.PathBytes
import Cs544.Fuzzer.ProcTable
import Cs544.Fuzzer.Supervisor
import Cs544.Fuzzer.CrashNotice
import Cs544.Fuzzer.WorkerIdentity
import Cs544.Fuzzer.PidFiles
import Cs544.Fuzzer.TableBound
