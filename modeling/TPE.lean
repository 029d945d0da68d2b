import TPE.Library.Runs
import TPE.Library.RingBuffer
import TPE.Library.RoundTable
import TPE.Kernel.CircularBuffer
import TPE.Kernel.Strings
import TPE.Kernel.State
import TPE.Kernel.MemoryAllocator
import TPE.Kernel.Process
import TPE.Kernel.ProcessManager
import TPE.Library.Walk
import TPE.Library.NameTable
import TPE.Library.HandoverLock
import TPE.Library.WaitQueue
import TPE.Kernel.SchedulerRing
import TPE.Kernel.SchedulerRuns
import TPE.Kernel.QueueADT
import TPE.Kernel.KernelMutex
import TPE.Kernel.MutexProtocol
import TPE.Kernel.MutexClose
import TPE.Kernel.CondVariable
import TPE.Kernel.Fifo
import TPE.Kernel.NameTables
import TPE.Kernel.FifoDescriptors
import TPE.Kernel.FifoProtocol
import TPE.Kernel.CondProtocol
import TPE.Kernel.Timer
import TPE.Kernel.SleepProtocol
import TPE.Library.Pool
import TPE.Kernel.AllocatorRuns
import TPE.Library.Slots
import TPE.Kernel.ProcessTable
import TPE.Library.Lineage
import TPE.Kernel.Foreground
import TPE.Kernel.SysExec
import TPE.Kernel.DataPages
import TPE.Kernel.PageOwners
import TPE.Library.Calls
import TPE.Kernel.NestedCalls
import TPE.Kernel.CalmCalls
import TPE.Kernel.CallRuns
import TPE.Kernel.CallDepth
import TPE.Kernel.InterruptCalls
import TPE.Kernel.Superlock
import TPE.Library.Tickets
import TPE.Kernel.Waiters
import TPE.Kernel.WaiterPages
import TPE.Kernel.WaiterSteps
import TPE.Kernel.WaiterRuns
import TPE.Kernel.Philosophers
import TPE.Kernel.PhilosopherRuns
import TPE.Kernel.KeyboardDriver
import TPE.Kernel.KeyboardDecode
import TPE.Kernel.KeyboardReads
import TPE.Kernel.ProducerConsumer
import TPE.Library.ByteMemory
import TPE.Kernel.Executer
import TPE.Library.Sharing
import TPE.Kernel.FifoDelivery
import TPE.Kernel.HandOvers
import TPE.Kernel.FifoCalls
import TPE.Library.Depot
import TPE.Kernel.FifoOrder
import TPE.Kernel.FifoResults
import TPE.Kernel.IpcLeaks
import TPE.Kernel.ShiftKeys
import TPE.Kernel.KilledProcesses
import TPE.Kernel.SharedReads
import TPE.Kernel.Descriptors
import TPE.Kernel.AllocatorExits
import TPE.Kernel.ArgumentPage
import TPE.Kernel.Stdio
import TPE.Kernel.LineInput
import TPE.Library.Records
import TPE.Toolchain.ModulePacker
import TPE.Kernel.ModuleLoader
import TPE.Library.Squeeze
import TPE.Kernel.Ctype
import TPE.Kernel.LineReader
import TPE.Library.SharedFlags
import TPE.Kernel.FdBitmap
import TPE.Kernel.NumberText
import TPE.Library.WriteLog
import TPE.Kernel.ProcessInfo
import TPE.Library.Terminal
import TPE.Kernel.VideoDriver
import TPE.Kernel.Memcpy
import TPE.Kernel.TextConsole
import TPE.Kernel.Shell
import TPE.Kernel.FifoOpening
import TPE.Kernel.QuantumCredit
import TPE.Kernel.SleepTicks
import TPE.Kernel.KeyboardQueue
import TPE.Kernel.Enumeration
import TPE.Kernel.QueueRuns
import TPE.Kernel.FormattedText
import TPE.Kernel.MachineRuns
import TPE.Kernel.StackPages
import TPE.Kernel.SyscallHandler
import TPE.Library.Turns
import TPE.Kernel.BoundedWaiting
import TPE.Kernel.ShellSession
import TPE.Kernel.ConsoleOutput
import TPE.Library.Parcels
import TPE.Kernel.FifoStream
import TPE.Library.Congruential
import TPE.Kernel.Random
import TPE.Bootloader.Bmfs
import TPE.Bootloader.BmfsAllocation
import TPE.Bootloader.BmfsFiles
import TPE.Bootloader.BmfsRuns
