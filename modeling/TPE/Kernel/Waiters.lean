import TPE.Library.Tickets
import TPE.Kernel.CalmCalls
import TPE.Kernel.CondVariable
import TPE.Kernel.Fifo
import TPE.Kernel.Foreground
import TPE.Kernel.PageOwners
import TPE.Kernel.SchedulerRuns

/-!
# Processes that wait and processes that are killed

A process waits in the queue of a mutex, of a condition variable or of a fifo,
or in the list of sleeping processes.  Each of them refers to the process by
the address of its structure.  `sys_kill` marks a process for deletion wherever
it is, and the scheduler destroys it when it passes over its node.

The steps are the statements that touch these structures, the processes and
the pages.  The running process does any of them at any time, so the runs are
those of the kernel's functions, with a switch possible behind every statement,
and others.  The tests of `is_open`, the superlock and the mutexes around the
sections are left out: they only exclude runs.
-/

namespace TPE

open Function

/-- The structures with a queue. -/
inductive QueuePlace where
  | mutex (key : Int)
  | cond (key : Int)
  | fifo (key : Int)
deriving DecidableEq

/-- Where a process waits. -/
inductive WaitPlace where
  | queue (w : QueuePlace)
  /-- The list of sleeping processes. -/
  | sleeping
deriving DecidableEq

namespace Kernel

/-- The header of the queue. -/
def header (k : Kernel) : QueuePlace → Addr
  | .mutex key => (k.openMutexes key).processQueue
  | .cond key => (k.openConds key).processQueue
  | .fifo key => (k.openFifos key).readQueue

/-- The process that an entry refers to: itself, `reader_p` or `p`. -/
def owner (k : Kernel) : WaitPlace → Addr → Addr
  | .queue (.mutex _), e => e
  | .queue (.cond _), e => e
  | .queue (.fifo _), r => (k.readRequests r).readerP
  | .sleeping, a => k.sleeper a

/-- `state = CLOSED` -/
def closeSlot (k : Kernel) : QueuePlace → Kernel
  | .mutex key => k.writeMutex key fun m => { m with state := .closed }
  | .cond key => k.writeCond key fun v => { v with state := .closed }
  | .fifo key => k.writeFifo key fun f => { f with state := .closed }

/-- The nodes of the list of sleeping processes. -/
inductive SleepListed (k : Kernel) : Addr → Prop where
  | head : k.sleepingProcesses ≠ null → SleepListed k k.sleepingProcesses
  | next {a : Addr} : SleepListed k a → k.sleepNext a ≠ null → SleepListed k (k.sleepNext a)

/-- The nodes whose processes `timer_handler` wakes up, from the node `a` behind
`prev` on. -/
def timerWoken : Nat → Kernel → Addr → Addr → List Addr
  | 0, _, _, _ => []
  | fuel + 1, k, prev, a =>
      if a = null then []
      else if ((k.tickNode a).sleepNodes a).ticks = 0 then
        let k := k.wokenUp prev a
        a :: timerWoken fuel (k.storePage a) prev (k.sleepNext a)
      else timerWoken fuel (k.tickNode a) a ((k.tickNode a).sleepNext a)

/-- The kernel, and what the processes have in their local variables. -/
structure WaitRun where
  k : Kernel
  /-- The processes that were created and not yet destroyed. -/
  live : List Addr
  /-- The pages from `sys_malloc` that found no entry in a full array. -/
  spare : List (Addr × Addr)
  /-- The nodes of the ring and the pages of the rest of the kernel. -/
  held : List Addr
  /-- The queues that were created and not yet destroyed. -/
  built : QueuePlace → Bool
  /-- How far a process is with its place, and its entry there. -/
  stage : Addr → Stage (WaitPlace × Addr)
  /-- The entries a process has taken and not yet unblocked. -/
  hands : Addr → List (WaitPlace × Addr)
  /-- The process's read request. -/
  request : Addr → Option Addr
  /-- The node of a process in `sleep`, until it is in the list. -/
  sleepNode : Addr → Option Addr

/-- What can happen in one step. -/
inductive WaitAction where
  /-- The scheduler dispatches the process of a node. -/
  | dispatch (node : Addr)
  /-- `sys_exec` -/
  | exec (rip : Nat) (name : CString)
  /-- `set_next_current` passes over the node of a process marked for deletion. -/
  | reap (node prev : Addr)
  /-- `end_process`, up to its call of `set_next_current`. -/
  | exit
  | kill (pid : Nat)
  /-- The foreground goes to a process. -/
  | foreground (p : Addr)
  /-- The status of a process changes in `sys_read`, or by the keyboard. -/
  | status (call : StatusCall) (p : Addr)
  | malloc
  | free (address : Addr)
  /-- The rest of the kernel takes a page. -/
  | getPage
  /-- The rest of the kernel gives a page back. -/
  | givePage (a : Addr)
  | mutexOpen (name : CString)
  | condOpen (name : CString)
  | fifoOpen (name : CString)
  /-- The word of a mutex is written. -/
  | word (key : Int) (l : Lock)
  /-- `state = CLOSED` -/
  | close (w : QueuePlace)
  | destroyQueue (w : QueuePlace)
  /-- The running process queues itself, or its read request. -/
  | enqueue (w : QueuePlace)
  /-- The running process takes an entry from a queue. -/
  | dequeue (w : QueuePlace)
  /-- `unblock_process`, of what was taken last. -/
  | wake
  /-- `mutex_unlock` goes on to the next entry. -/
  | skip
  /-- `block_process`, of the process of the entry. -/
  | block
  /-- The running process gets behind its `yield_process`. -/
  | resume
  /-- `create_read_request` -/
  | request (key : Int) (buf : Addr) (bytes : Int)
  | tryRead (r : Addr)
  /-- `write_circular_buffer` -/
  | write (key : Int) (source : Nat → UInt8) (bytes : Int)
  /-- `store_page` of the read request. -/
  | collect
  /-- `fifo_read` returns without it. -/
  | abandon
  /-- `create_sleep_process` -/
  | createSleep (ticks : Nat)
  /-- The first statement of `add_sleep_process`. -/
  | link
  /-- The second statement of `add_sleep_process`. -/
  | headSleep
  /-- `timer_handler` -/
  | tick (fuel : Nat)

namespace WaitRun

/-- The running process. -/
abbrev cur (s : WaitRun) : Addr := s.k.getCurrentProcess

/-- The running process has been created and not been destroyed. -/
abbrev Running (s : WaitRun) : Prop := s.cur ∈ s.live

/-- What the running process puts into a queue. -/
def entry (s : WaitRun) : QueuePlace → Option Addr
  | .fifo _ => s.request s.cur
  | _ => some s.cur

/-- The queues behind a `mutex_open`. -/
def builtMutex (s : WaitRun) (name : CString) : QueuePlace → Bool :=
  match s.k.mutexSearch name with
  | .closed i => update s.built (.mutex i) true
  | _ => s.built

/-- The state without the process `p`. -/
def without (s : WaitRun) (p : Addr) : WaitRun :=
  { s with live := s.live.erase p, spare := s.spare.filter fun e => e.1 ≠ p }

/-- The statements of the running process. -/
def statement (s : WaitRun) : WaitAction → Option WaitRun
  | .exit =>
      match s.stage s.cur with
      | .out => some { s.without s.cur with k := s.k.unlinked }
      | _ => none
  | .kill pid => some { s with k := (s.k.sysKill pid).2 }
  | .malloc => s.k.sysMalloc.map fun (page, k) =>
      { s with
        k
        spare := if page ≠ 0 ∧ (s.k.processes s.cur).Full then (s.cur, page) :: s.spare
          else s.spare }
  | .free address =>
      some { s with k := (s.k.sysFree address).2, spare := s.spare.erase (s.cur, address) }
  | .mutexOpen name => (s.k.mutexOpen name).map fun (_, k) =>
      { s with k, built := s.builtMutex name }
  | .condOpen name =>
      match s.k.condSearch name with
      | .closed i => (s.k.createNewCond i name).map fun k =>
          { s with k, built := update (s.builtMutex (condLockName i)) (.cond i) true }
      | _ => some s
  | .fifoOpen name => (s.k.fifoOpen name).map fun (_, k) =>
      match s.k.fifoSearch name with
      | .closed i => { s with k, built := update (s.builtMutex name) (.fifo i) true }
      | _ => { s with k }
  | .word key l => some { s with k := s.k.writeMutex key fun m => { m with locked := l } }
  | .close w => some { s with k := s.k.closeSlot w }
  | .destroyQueue w => (s.k.destroyQueue (s.k.header w)).map fun k =>
      { s with k, built := update s.built w false }
  | .enqueue w =>
      match s.stage s.cur with
      | .out => (s.entry w).bind fun e => (s.k.enqueue (s.k.header w) e).map fun k =>
          { s with k, stage := update s.stage s.cur (.registered (.queue w, e)) }
      | _ => none
  | .dequeue w =>
      if s.k.isEmpty (s.k.header w) then none
      else (s.k.dequeue (s.k.header w)).map fun (e, k) =>
        { s with k, hands := update s.hands s.cur ((.queue w, e) :: s.hands s.cur) }
  | .wake =>
      match s.hands s.cur with
      | (w, e) :: rest =>
          let processes := Procs.unblockProcess s.k.processes (s.k.owner w e)
          some { s with k := { s.k with processes }, hands := update s.hands s.cur rest }
      | [] => none
  | .skip =>
      match s.hands s.cur with
      | (w, e) :: rest =>
          if Procs.isDeleteProcess s.k.processes (s.k.owner w e) then
            some { s with hands := update s.hands s.cur rest }
          else none
      | [] => none
  | .block =>
      match s.stage s.cur with
      | .registered x =>
          let processes := Procs.blockProcess s.k.processes (s.k.owner x.1 x.2)
          some { s with
            k := { s.k with processes }
            stage := update s.stage s.cur (.waiting x) }
      | _ => none
  | .resume =>
      match s.stage s.cur with
      | .waiting _ =>
          if s.k.processes.isBlockedProcess s.cur then none
          else some { s with stage := update s.stage s.cur .out }
      | _ => none
  | .request key buf bytes =>
      if s.request s.cur = none then
        (s.k.createReadRequest key buf bytes).map fun (r, k) =>
          { s with k, request := update s.request s.cur (some r) }
      else none
  | .tryRead r => (s.k.tryRead r).map fun (_, k) => { s with k }
  | .write key source bytes =>
      match (s.k.openFifos key).cBuffer.write source bytes with
      | .ok t => some { s with k := s.k.writeFifo key fun f => { f with cBuffer := t.cbuf } }
      | .error _ => none
  | .collect =>
      match s.request s.cur, s.stage s.cur with
      | some r, .out =>
          some { s with k := s.k.storePage r, request := update s.request s.cur none }
      | _, _ => none
  | .abandon =>
      match s.stage s.cur with
      | .out => some { s with request := update s.request s.cur none }
      | _ => none
  | .createSleep ticks =>
      if s.sleepNode s.cur = none then
        (s.k.createSleepProcess ticks).map fun (a, k) =>
          { s with k, sleepNode := update s.sleepNode s.cur (some a) }
      else none
  | .link => (s.sleepNode s.cur).map fun a => { s with k := s.k.linkSleepProcess a }
  | .headSleep =>
      match s.sleepNode s.cur, s.stage s.cur with
      | some a, .out =>
          some { s with
            k := s.k.headSleepProcess a
            sleepNode := update s.sleepNode s.cur none
            stage := update s.stage s.cur (.registered (.sleeping, a)) }
      | _, _ => none
  | _ => none

end WaitRun

/-- The node that a `sys_exec` has linked in. -/
def newNode (k k' : Kernel) : Addr := if k.current = null then k'.current else k'.next k'.current

/-- What a new process is in. -/
def WaitRun.withNew (s : WaitRun) (p : Addr) : WaitRun :=
  { s with
    live := p :: s.live
    stage := update s.stage p .out
    hands := update s.hands p []
    request := update s.request p none
    sleepNode := update s.sleepNode p none }

/-- Processes that wait, kill and are killed, from the initialised allocator on. -/
def waitSystem : System WaitRun WaitAction where
  init s := s.k.pages = PageStack.initializeMemoryAllocator ⟨fun _ => 0, 0⟩ ∧
    (∀ i, s.k.processTable i = null) ∧ s.k.nProcesses = 0 ∧ s.k.sleepingProcesses = null ∧
    s.live = [] ∧ s.spare = [] ∧ s.held = [] ∧ ∀ w, s.built w = false
  next
    | s, .dispatch node =>
        if s.k.procOf node ∈ s.live ∧ s.k.Dispatchable node then
          some { s with k := { s.k with current := node } }
        else none
    | s, .exec rip name =>
        -- the first process is created by nobody
        if s.Running ∨ s.live = [] then
          (s.k.sysExec rip name).map fun (p, k) =>
            { s.withNew p with k, held := s.k.newNode k :: s.held }
        else none
    | s, .reap node prev =>
        if node ∈ s.held ∧ s.k.procOf node ∈ s.live ∧ s.k.Doomed node then
          some { s.without (s.k.procOf node) with
            k := passDoomed { s.k with current := node, prev }
            held := s.held.erase node }
        else none
    | s, .foreground p => some { s with k := s.k.setForegroundForceProcess p }
    | s, .status call p =>
        match call, s.stage p with
        | .blockRead, .out => if p = s.cur then some { s with k := s.k.applyStatus call p } else none
        | .blockForeground, .out =>
            if p = s.cur then some { s with k := s.k.applyStatus call p } else none
        | .unblockRead, _ => some { s with k := s.k.applyStatus call p }
        | .unblockForeground, _ => some { s with k := s.k.applyStatus call p }
        | _, _ => none
    | s, .getPage => s.k.getPage.map fun (a, k) => { s with k, held := a :: s.held }
    | s, .givePage a =>
        if a ∈ s.held then some { s with k := s.k.storePage a, held := s.held.erase a } else none
    | s, .tick fuel => (timerHandler fuel s.k).map fun k => { s with k }
    | s, a => if s.Running then s.statement a else none

end Kernel

end TPE
