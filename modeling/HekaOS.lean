import HekaOS.TransitionSystem
import HekaOS.MachineWord
import HekaOS.PointerChain
import HekaOS.CyclicOrder
import HekaOS.KernelMemory
import HekaOS.ByteMemory
import HekaOS.KmemDynAlloc
import HekaOS.KmemHeapBlocks
import HekaOS.KmemHeapEdits
import HekaOS.KmemHeapCoalescing
import HekaOS.KmemHeapInvariant
import HekaOS.Kmalloc
import HekaOS.KmallocPages
import HekaOS.KmallocShape
import HekaOS.KmallocInvariant
import HekaOS.TaskModel
import HekaOS.Signal
import HekaOS.Task
import HekaOS.TaskLinks
import HekaOS.SignalDispatch
import HekaOS.Sched
import HekaOS.Syscall
import HekaOS.RingBuffer
import HekaOS.TaskInput
import HekaOS.KernelSteps
import HekaOS.TaskBirth
import HekaOS.SyscallCases
import HekaOS.KernelFrames
import HekaOS.SyscallTrace
import HekaOS.StrayStores
import HekaOS.ZombieFinality
import HekaOS.TaskTree
import HekaOS.TaskFamily
import HekaOS.DanglingPointers
import HekaOS.TaskForest
import HekaOS.UserPointers
import HekaOS.WaitMachine
import HekaOS.ReapSteps
import HekaOS.LostWakeUp
import HekaOS.BitMasks
import HekaOS.PendingSignals
import HekaOS.JobControl
import HekaOS.CpuRuns
import HekaOS.TaskFields
import HekaOS.ExitTree
import HekaOS.DispatchOrder
import HekaOS.HaltedReturn
import HekaOS.RunningTask
import HekaOS.RoundRobin
import HekaOS.QuantumAccounting
import HekaOS.FaultKill
import HekaOS.ReapedChild
import HekaOS.SignalFrames
import HekaOS.ReturnFrames
import HekaOS.AddressMap
import HekaOS.PidLedger
import HekaOS.PidExhaustion
import HekaOS.PidCapacity
import HekaOS.KmallocZone
import HekaOS.WordBitmap
import HekaOS.FirstFit
import HekaOS.PhysPageFrame
import HekaOS.PhysAllocator
import HekaOS.FrameSearches
import HekaOS.PageWalk
import HekaOS.UserMappings
import HekaOS.KernelTriples
import HekaOS.HeapRequests
import HekaOS.HeapGrowth
import HekaOS.HeapFreeOrder
import HekaOS.DoubleFree
import HekaOS.Paging
import HekaOS.PagingEntries
import HekaOS.PagingOps
import HekaOS.FrameOwnership
import HekaOS.ScratchPages
import HekaOS.PageCalls
import HekaOS.ProcessSpaces
import HekaOS.DirectorySetup
import HekaOS.FrameExclusivity
import HekaOS.KernelCoherence
import HekaOS.FrameEffects
import HekaOS.ForkCopy
import HekaOS.ForkPrivacy
import HekaOS.PageEffects
import HekaOS.PageMapping
import HekaOS.Teardown
import HekaOS.UserImage
import HekaOS.ImageContents
import HekaOS.KernelMappings
import HekaOS.Rollback
import HekaOS.Vmalloc
import HekaOS.VmallocRegions
import HekaOS.VmallocInvariant
import HekaOS.VmallocAddresses
import HekaOS.TaskMemory
import HekaOS.Furnish
import HekaOS.PoolPages
import HekaOS.MemoryCalls
import HekaOS.SpawnAnswers
import HekaOS.SystemRuns
import HekaOS.Refusals
import HekaOS.FirstTasks
import HekaOS.SpawnReturns
import HekaOS.LastFrames
import HekaOS.FirstUser
import HekaOS.FailedCreators
import HekaOS.Reaping
import HekaOS.Vga
import HekaOS.VgaRows
import HekaOS.VgaTerminal
import HekaOS.VgaScrollback
import HekaOS.TerminalCells
import HekaOS.ShellLine
import HekaOS.LogRing
import HekaOS.KernelLog
import HekaOS.TaskLog
import HekaOS.Numerals
import HekaOS.ShellNumbers
import HekaOS.NumberOutput
import HekaOS.Printk
import HekaOS.PrintkOutput
import HekaOS.StackCpu
import HekaOS.TrapStubs
import HekaOS.KernelStacks
import HekaOS.StackBounds
import HekaOS.Preemption
import HekaOS.Resumption
import HekaOS.BoundedWaiting
import HekaOS.ShellCommands
import HekaOS.Painting
import HekaOS.Eyeproc
import HekaOS.EyeprocPages
import HekaOS.TerminalView
import HekaOS.ShellSession
import HekaOS.CommandDesk
import HekaOS.KeyboardRuns
import HekaOS.SessionRuns
