import LtMicros.Lib.Outcome
import LtMicros.Lib.Chain
import LtMicros.Lib.Tiling
import LtMicros.Lib.Blocks
import LtMicros.Lib.Run
import LtMicros.Lib.Bytes
import LtMicros.Lib.Words
import LtMicros.Lib.Frames
import LtMicros.Lib.FrameBytes
import LtMicros.Lib.Cache
import LtMicros.Lib.Owners
import LtMicros.Kernel
import LtMicros.Pmm
import LtMicros.Vmm
import LtMicros.PagePool
import LtMicros.PagePoolLists
import LtMicros.PagePoolRuns
import LtMicros.PagePoolServes
import LtMicros.PmmRuns
import LtMicros.Vad
import LtMicros.VadPartition
import LtMicros.VadSplit
import LtMicros.VadCalls
import LtMicros.VadReserve
import LtMicros.VadRuns
import LtMicros.VadChoice
import LtMicros.Heap
import LtMicros.HeapTiling
import LtMicros.HeapFree
import LtMicros.KernelTables
import LtMicros.HeapSearch
import LtMicros.HeapSbrk
import LtMicros.HeapAllocate
import LtMicros.ProcessHeap
import LtMicros.Process
import LtMicros.OutOfMemory
import LtMicros.Thread
import LtMicros.Scheduler
import LtMicros.SchedulerDecision
import LtMicros.Event
import LtMicros.EventRuns
import LtMicros.EventWakeups
import LtMicros.SchedulerRounds
import LtMicros.TimeSlices
import LtMicros.DataFrames
import LtMicros.IpcBuffer
import LtMicros.IpcPages
import LtMicros.IpcStream
import LtMicros.IpcReads
import LtMicros.IpcSupply
import LtMicros.IpcDelivery
import LtMicros.IpcFailure
import LtMicros.Ipc
import LtMicros.IpcAuthority
import LtMicros.IpcLocks
import LtMicros.IpcWakeup
import LtMicros.IpcRegistry
import LtMicros.Syscalls
import LtMicros.Cpu
import LtMicros.ThreadResume
import LtMicros.UserHeap
import LtMicros.UserHeapBlocks
import LtMicros.UserHeapAllocate
import LtMicros.UserHeapRuns
import LtMicros.FsService
import LtMicros.FsShare
import LtMicros.FsConnect
import LtMicros.PageTables
import LtMicros.AddressSpace
import LtMicros.Spaces
import LtMicros.VmmInit
import LtMicros.ProcessDirectory
import LtMicros.TableSteps
import LtMicros.World
import LtMicros.WorldRuns
import LtMicros.Supply
import LtMicros.Isolation
import LtMicros.PageMapping
import LtMicros.Tlb
import LtMicros.KernelHalf
import LtMicros.UserMappings
import LtMicros.ProcessMemory
import LtMicros.KernelRuns
import LtMicros.Overlay
import LtMicros.VadPages
import LtMicros.VadFailure
import LtMicros.VadShare
import LtMicros.VadAtAddress
import LtMicros.VadGrants
import LtMicros.VadOvershoot
import LtMicros.Populate
import LtMicros.LazyPages
import LtMicros.PoolPages
import LtMicros.FrameOwners
import LtMicros.FrameRuns
import LtMicros.UserBuffers
import LtMicros.ProcessBytes
import LtMicros.ReservedBytes
import LtMicros.ReservedSupply
import LtMicros.Elf
import LtMicros.ElfLoading
import LtMicros.Ata
import LtMicros.Ext2
import LtMicros.Ext2Mount
import LtMicros.Ext2Inode
import LtMicros.Ext2Blocks
import LtMicros.Ext2File
import LtMicros.Ext2Content
import LtMicros.AtaExact
import LtMicros.AtaWrite
import LtMicros.FsRequests
import LtMicros.UserStrings
import LtMicros.FsFile
import LtMicros.FsDirectory
import LtMicros.FsCache
import LtMicros.FsTree
import LtMicros.FsPath
import LtMicros.FsResolve
import LtMicros.FsMessages
import LtMicros.AtaBalance
import LtMicros.HeapRuns
import LtMicros.HeapZero
import LtMicros.HeapAligned
import LtMicros.Malloc
import LtMicros.MallocGrowth
import LtMicros.MallocRefused
import LtMicros.Lib.Interning
import LtMicros.HandleManager
import LtMicros.LtDbgCom
import LtMicros.LtDbgRequests
import LtMicros.LtDbg
import LtMicros.LtDbgMemory
import LtMicros.LtDbgAnswers
import LtMicros.LtDbgBalance
import LtMicros.LtDbgStack
import LtMicros.LinkedList
import LtMicros.LinkedListQueue
import LtMicros.LinkedListWalks
import LtMicros.StringOrder
import LtMicros.PrintInt
import LtMicros.Screen
import LtMicros.ThreadNeighbors
import LtMicros.SpinLock
import LtMicros.Format
import LtMicros.FormatText
import LtMicros.ScreenSection
import LtMicros.Isr
import LtMicros.SyscallStubs
import LtMicros.ThreadCreation
import LtMicros.FsClient
import LtMicros.ClockTurns
import LtMicros.PrivateMemory
