import OhMyOs.Boot.Loader
import OhMyOs.Fs.CurrentDirectory
import OhMyOs.Fs.Directories
import OhMyOs.Fs.DirectoryRemoval
import OhMyOs.Graphic.Gpu
import OhMyOs.Include.Bitops
import OhMyOs.Include.Constants
import OhMyOs.Include.IntrusiveList
import OhMyOs.Include.IntrusiveListRuns
import OhMyOs.Include.Log2
import OhMyOs.Include.Memory
import OhMyOs.Kernel.CpuEntry
import OhMyOs.Kernel.CpuStart
import OhMyOs.Kernel.DebugSymbols
import OhMyOs.Kernel.Descriptors
import OhMyOs.Kernel.InterruptDispatch
import OhMyOs.Kernel.KeyboardInput
import OhMyOs.Kernel.KeyboardLocks
import OhMyOs.Kernel.Locks
import OhMyOs.Kernel.MpTable
import OhMyOs.Kernel.TimeArithmetic
import OhMyOs.Kernel.Timer
import OhMyOs.Kernel.TimerClock
import OhMyOs.Kernel.TrapFrames
import OhMyOs.Lib.AccessLog
import OhMyOs.Lib.Bitfields
import OhMyOs.Lib.Blocks
import OhMyOs.Lib.Buddy
import OhMyOs.Lib.Circular
import OhMyOs.Lib.Digits
import OhMyOs.Lib.Dyadic
import OhMyOs.Lib.LastWriter
import OhMyOs.Lib.LinkedTree
import OhMyOs.Lib.LockOrder
import OhMyOs.Lib.Outcome
import OhMyOs.Lib.Ownership
import OhMyOs.Lib.RedBlack
import OhMyOs.Lib.Ring
import OhMyOs.Lib.RingStores
import OhMyOs.Lib.Rounds
import OhMyOs.Lib.Runs
import OhMyOs.Lib.SlotStack
import OhMyOs.Lib.Stores
import OhMyOs.Lib.Tiling
import OhMyOs.Lib.Words
import OhMyOs.Libs.ByteFifo
import OhMyOs.Libs.ByteFifoShared
import OhMyOs.Libs.DecimalText
import OhMyOs.Libs.GrowableQueue
import OhMyOs.Libs.GrowableQueueRuns
import OhMyOs.Libs.GrowableString
import OhMyOs.Libs.GrowableStringBounds
import OhMyOs.Libs.GrowableStringContents
import OhMyOs.Libs.GrowableStringFrees
import OhMyOs.Libs.HexText
import OhMyOs.Libs.RedBlackTree
import OhMyOs.Libs.RedBlackTreeCalls
import OhMyOs.Libs.RedBlackTreeFixup
import OhMyOs.Libs.RedBlackTreeHeight
import OhMyOs.Libs.RedBlackTreeInsert
import OhMyOs.Libs.RedBlackTreeMap
import OhMyOs.Libs.RedBlackTreeOps
import OhMyOs.Libs.RedBlackTreeReads
import OhMyOs.Libs.RedBlackTreeRemove
import OhMyOs.Libs.RedBlackTreeRuns
import OhMyOs.Libs.Spinlock
import OhMyOs.Libs.StringSplit
import OhMyOs.Libs.StringSplitRuns
import OhMyOs.Libs.Vector
import OhMyOs.Libs.VectorRuns
import OhMyOs.Mm.EarlyHeap
import OhMyOs.Mm.EarlyHeapRuns
import OhMyOs.Mm.Kmalloc
import OhMyOs.Mm.KmallocSizes
import OhMyOs.Mm.MemoryHandover
import OhMyOs.Mm.MemoryInit
import OhMyOs.Mm.MemorySlots
import OhMyOs.Mm.MergeLoops
import OhMyOs.Mm.PageAllocator
import OhMyOs.Mm.PageExact
import OhMyOs.Mm.PageMapCover
import OhMyOs.Mm.PageRuns
import OhMyOs.Mm.PageSafety
import OhMyOs.Mm.PageTable
import OhMyOs.Mm.PagingSwitch
import OhMyOs.Mm.Slab
import OhMyOs.Mm.SlabAccounting
import OhMyOs.Mm.SlabCounts
import OhMyOs.Mm.SlabRuns
import OhMyOs.Mm.SlabSafety
import OhMyOs.Mm.StartPaging
import OhMyOs.Mm.Vmalloc
import OhMyOs.Mm.VmallocAlloc
import OhMyOs.Mm.VmallocExact
import OhMyOs.Mm.VmallocFrees
import OhMyOs.Mm.VmallocPages
import OhMyOs.Mm.VmallocRuns
import OhMyOs.Mm.VmallocSafety
import OhMyOs.Schedule.Scheduler
import OhMyOs.Schedule.SchedulerLocks
import OhMyOs.Schedule.SchedulerRuns
import OhMyOs.Schedule.Sleep
import OhMyOs.Schedule.ThreadCreation
import OhMyOs.Schedule.ThreadLabels
import OhMyOs.Schedule.ThreadStart
import OhMyOs.Schedule.TimerWalk
import OhMyOs.Schedule.VirtualCpus
