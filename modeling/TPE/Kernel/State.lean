import TPE.Kernel.CircularBuffer
import TPE.Kernel.Strings

/-!
# The kernel's state

The static variables of the C files and the structures that live on pages of
the data-page allocator.  A page is used for one purpose at a time, so every
kind of structure has a memory of its own, indexed by the address of its page:
`processes`, `nodes`, `queues`, `readRequests` and `sleepNodes`.  A page that
is handed out again still holds what was in it, and so do these memories.

A queue is read at the level of `queueADT`: `queues q` lists the nodes from
`first` to `last` of the queue whose header is at `q`, each with its own page.

The defaults of `Kernel` are the values the variables have before any code
runs.
-/

namespace TPE

/-- An address.  -/
abbrev Addr := Nat

/-- `NULL` -/
abbrev null : Addr := 0

/-! ## Constants -/

/-- `MAX_PROCESSES` -/
abbrev maxProcesses : Nat := 128

/-- `MAX_DATA_PAGES` -/
abbrev maxDataPages : Nat := 64

/-- `MAX_FDS` -/
abbrev maxFds : Nat := 64

/-- `MAX_MUTEXES` -/
abbrev maxMutexes : Nat := 128

/-- `MAX_COND_VAR` -/
abbrev maxCondVar : Nat := 128

/-- `MAX_FIFOS` -/
abbrev maxFifos : Nat := 128

/-- `NOT_OPEN_ERROR` and `FIFO_NOT_OPEN_ERROR` -/
abbrev notOpenError : Int := -1

/-- `MAX_MUTEX_OPEN_ERROR`, `MAX_COND_OPEN_ERROR` and `MAX_FIFOS_OPEN_ERROR` -/
abbrev maxOpenError : Int := -2

/-- `QUANTUM` -/
abbrev quantum : Int := 1

/-! ## Enumerations -/

/-- The values of `status`. -/
inductive Status where
  | running
  | ready
  | blocked
  | blockedRead
  | delete
  | blockedForeground
deriving DecidableEq, Repr

/-- `LOCKED` and `UNLOCKED` -/
inductive Lock where
  | locked
  | unlocked
deriving DecidableEq, Repr

/-- `OPEN` and `CLOSED` -/
inductive SlotState where
  | opened
  | closed
deriving DecidableEq, Repr

/-! ## Structures -/

/-- `struct c_process` -/
structure Process where
  st : Status
  name : CString
  entryPoint : Nat
  rsp : Nat
  stackPage : Addr
  nDataPage : Nat
  /-- `data_page[MAX_DATA_PAGES]` -/
  dataPage : Nat → Addr
  pid : Nat
  ppid : Nat
  /-- A bit map. -/
  openFds : BitVec 64

/-- `struct c_node`, a node of the scheduler's ring. -/
structure ListNode where
  quantum : Int
  p : Addr
  next : Addr
deriving DecidableEq

/-- `struct node` of `queueADT.c`, with the page it is on. -/
structure QueueNode where
  page : Addr
  elem : Addr
deriving DecidableEq, Repr

/-- `mutex` -/
structure Mutex where
  name : CString
  locked : Lock
  state : SlotState
  /-- The header of the queue of waiting processes. -/
  processQueue : Addr
deriving DecidableEq

/-- `cond_variable` -/
structure CondVariable where
  name : CString
  state : SlotState
  /-- The key of the mutex that guards the queue. -/
  lockQueue : Int
  processQueue : Addr
deriving DecidableEq

/-- `fifo` -/
structure Fifo where
  name : CString
  cBuffer : CircularBuffer
  state : SlotState
  fifoMutexKey : Int
  readQueue : Addr

/-- `read_request`.  The pointer `f` into `open_fifos` is given by its index. -/
structure ReadRequest where
  bytes : Int
  bytesRead : Int
  buffer : Addr
  f : Int
  readerP : Addr
deriving DecidableEq

/-- `struct c_sleep_process` -/
structure SleepProcess where
  p : Addr
  ticks : Nat
  next : Addr
deriving DecidableEq

/-- The free data pages, as page numbers.  The entries from `currentIndex` on
are free. -/
structure PageStack where
  pagesStack : Nat → UInt8
  /-- The entry to pop next. -/
  currentIndex : UInt8

/-! ## The state -/

/-- The empty string. -/
def CString.nil : CString := ⟨[], by simp⟩

/-- A page of zeros read as a process. -/
def Process.zero : Process where
  st := .running
  name := .nil
  entryPoint := 0
  rsp := 0
  stackPage := 0
  nDataPage := 0
  dataPage := fun _ => null
  pid := 0
  ppid := 0
  openFds := 0

/-- The memory that holds the process structures. -/
abbrev Procs := Addr → Process

/-- The variables of the kernel. -/
structure Kernel where
  -- memoryAllocator.c
  pages : PageStack := ⟨fun _ => 0, 0⟩
  memoryMutexKey : Int := -1
  stackPagesStack : Nat → Addr := fun _ => 0
  currentStackIndex : Nat := 0
  stackMemoryMutexKey : Int := -1
  -- process.c
  processes : Procs := fun _ => .zero
  processTable : Nat → Addr := fun _ => null
  foreground : Addr := null
  nProcesses : Nat := 0
  tableMutexKey : Int := -1
  -- processManager.c
  nodes : Addr → ListNode := fun _ => ⟨0, null, null⟩
  current : Addr := null
  prev : Addr := null
  superlock : Lock := .unlocked
  -- queueADT.c
  queues : Addr → List QueueNode := fun _ => []
  -- kernelMutex.c
  openMutexes : Int → Mutex := fun _ => ⟨.nil, .locked, .closed, null⟩
  -- condVariable.c
  openConds : Int → CondVariable := fun _ => ⟨.nil, .closed, 0, null⟩
  condArrayLock : Int := 0
  -- fifo.c
  openFifos : Int → Fifo := fun _ => ⟨.nil, .create fun _ => 0, .closed, 0, null⟩
  fifoArrayLock : Int := 0
  readRequests : Addr → ReadRequest := fun _ => ⟨0, 0, null, 0, null⟩
  -- timer.c
  sleepNodes : Addr → SleepProcess := fun _ => ⟨null, 0, null⟩
  sleepingProcesses : Addr := null
  -- the memory of the processes, where reads from a fifo put their bytes
  memory : Addr → UInt8 := fun _ => 0

namespace Kernel

/-- `is_open` of `kernelMutex.c` -/
def mutexIsOpen (k : Kernel) (key : Int) : Prop :=
  0 ≤ key ∧ key < maxMutexes ∧ (k.openMutexes key).state = .opened

instance (k : Kernel) (key : Int) : Decidable (k.mutexIsOpen key) :=
  inferInstanceAs (Decidable (_ ∧ _ ∧ _))

/-- `get_current_process` -/
def getCurrentProcess (k : Kernel) : Addr := (k.nodes k.current).p

end Kernel

end TPE
