import TPE.Library.Calls
import TPE.Kernel.KernelMutex
import TPE.Kernel.Timer

/-!
# Calls of the allocator and the mutexes inside each other

The allocator guards its pages with a mutex, and `mutex_lock` of a taken mutex
gets a page for the node of the waiting process.  So `mutex_lock` calls
`enqueue`, which calls `get_page`, which calls `mutex_lock`, and `mutex_unlock`
calls `dequeue`, which calls `store_page`, which calls both.

Here each of these functions is the sequence of steps it takes, with its calls.
A step is logged with the state behind it, in which a timer tick may arrive.
`callsAt` bounds how deep the calls are nested.

A call that reaches `yield_process` parks there.  The rest of it, behind the
yield, is not part of the trace.
-/

namespace TPE

open Function

namespace Kernel

/-- The steps of a call. -/
inductive CallStep where
  /-- `set_superlock` or `unset_superlock`, or the exchange in `next_process`. -/
  | superlock
  | write
  /-- `mutex_lock` finds the mutex taken and queues the process. -/
  | queue (p : Addr)
  /-- `mutex_lock` blocks the process. -/
  | block (p : Addr)
  | yield

/-- A call in the kernel. -/
abbrev KernelCall := Call Kernel CallStep

open Call

/-- The two calls through which all others are nested. -/
structure MutexCalls where
  mutexLock : Int → KernelCall Int
  mutexUnlock : Int → KernelCall Int

/-- `set_superlock` -/
def setSuperlock : KernelCall PUnit := act .superlock fun k => { k with superlock := .locked }

/-- `unset_superlock` -/
def unsetSuperlock : KernelCall PUnit := act .superlock fun k => { k with superlock := .unlocked }

variable (c : MutexCalls)

/-! ## The allocator -/

/-- `get_page` -/
def getPageCall : KernelCall Addr := do
  let k ← read
  let _ ← c.mutexLock k.memoryMutexKey
  let k ← read
  match k.pages.getPage with
  | some (page, pages) =>
      act .write fun k => { k with pages }
      let _ ← c.mutexUnlock k.memoryMutexKey
      pure page
  | none =>
      let _ ← c.mutexLock k.memoryMutexKey
      pure null

/-- `store_page` -/
def storePageCall (address : Addr) : KernelCall Nat := do
  let k ← read
  let _ ← c.mutexLock k.memoryMutexKey
  let k ← read
  act .write fun k => k.storePage address
  let _ ← c.mutexUnlock k.memoryMutexKey
  pure k.pages.storePageReturns

/-- `store_stack_page` -/
def storeStackPageCall (address : Addr) : KernelCall Nat := do
  let k ← read
  let _ ← c.mutexLock k.stackMemoryMutexKey
  let k ← read
  act .write fun k => k.storeStackPage address
  let _ ← c.mutexUnlock k.stackMemoryMutexKey
  pure k.storeStackPageReturns

/-! ## Queues -/

/-- `enqueue` -/
def enqueueCall (q elem : Addr) : KernelCall PUnit :=
  if q = null then pure ⟨⟩
  else do
    let page ← getPageCall c
    act .write fun k => k.setQueue q (k.queues q ++ [⟨page, elem⟩])

/-- `dequeue` -/
def dequeueCall (q : Addr) : KernelCall Addr := do
  let k ← read
  if k.isEmpty q then pure null
  else
    match k.queues q with
    | [] => pure null
    | f :: rest =>
        act .write fun k => k.setQueue q rest
        let _ ← storePageCall c f.page
        pure f.elem

/-- The loop of `mutex_unlock`. -/
def dequeueWaiterCall : Nat → Addr → KernelCall Addr
  | 0, _ => cut
  | rounds + 1, q => do
      let p ← dequeueCall c q
      let k ← read
      if k.processes.isDeleteProcess p then dequeueWaiterCall rounds q else pure p

/-! ## Mutexes -/

/-- `mutex_lock` between its `set_superlock` and its `unset_superlock`: whether
the process has to wait. -/
def lockSection (key : Int) : KernelCall Bool := do
  let k ← read
  let m := k.openMutexes key
  let p := k.getCurrentProcess
  act .write fun k => k.writeMutex key fun m => { m with locked := .locked }
  if m.locked = .locked then
    act (.queue p) id
    enqueueCall c m.processQueue p
    act (.block p) fun k => { k with processes := Procs.blockProcess k.processes p }
    pure true
  else pure false

/-- `mutex_lock` -/
def mutexLockBody (key : Int) : KernelCall Int := do
  let k ← read
  if k.mutexIsOpen key then
    setSuperlock
    let waits ← lockSection c key
    unsetSuperlock
    if waits then
      act .yield id
      park
    else pure 1
  else pure notOpenError

/-- `mutex_unlock` behind its loop -/
def handMutexOver (key : Int) (p : Addr) : KernelCall PUnit := do
  act .write fun k => k.writeMutex key fun m => { m with locked := .unlocked }
  if p ≠ null then
    act .write fun k => { k with processes := Procs.unblockProcess k.processes p }
    act .write fun k => k.writeMutex key fun m => { m with locked := .locked }
  else pure ⟨⟩

/-- `mutex_unlock` between its `set_superlock` and its `unset_superlock` -/
def unlockSection (key : Int) : KernelCall PUnit := do
  let k ← read
  let q := (k.openMutexes key).processQueue
  let p ← dequeueWaiterCall c ((k.queues q).length + 1) q
  handMutexOver key p

/-- `mutex_unlock` -/
def mutexUnlockBody (key : Int) : KernelCall Int := do
  let k ← read
  if k.mutexIsOpen key then
    setSuperlock
    unlockSection c key
    unsetSuperlock
    pure 1
  else pure notOpenError

/-- `mutex_lock` and `mutex_unlock` with at most `depth` calls of them inside each
other. -/
def callsAt : Nat → MutexCalls
  | 0 => ⟨fun _ => cut, fun _ => cut⟩
  | depth + 1 => ⟨mutexLockBody (callsAt depth), mutexUnlockBody (callsAt depth)⟩

/-! ## Processes -/

/-- The loop of `free_data_pages` from index `i` on. -/
def freeDataPagesCall (p : Addr) : Nat → Nat → KernelCall PUnit
  | 0, _ => pure ⟨⟩
  | rounds + 1, i => do
      let k ← read
      if 0 < (k.processes p).nDataPage then
        if (k.processes p).dataPage i ≠ null then
          let _ ← storePageCall c ((k.processes p).dataPage i)
          act .write fun k => k.writeProcess p fun c => { c with nDataPage := c.nDataPage - 1 }
          freeDataPagesCall p rounds (i + 1)
        else freeDataPagesCall p rounds (i + 1)
      else pure ⟨⟩

/-- `destroy_process` -/
def destroyProcessCall (p : Addr) : KernelCall PUnit :=
  if p ≠ null then do
    let k ← read
    let _ ← c.mutexLock k.tableMutexKey
    act .write fun k => { k with nProcesses := (k.nProcesses + 2 ^ 64 - 1) % 2 ^ 64 }
    freeDataPagesCall c p maxDataPages 0
    act .write fun k =>
      if k.foreground = p then k.setForegroundProcess (k.processTable (k.processes p).ppid) else k
    act .write fun k => { k with processTable := update k.processTable (k.processes p).pid null }
    let k ← read
    let _ ← c.mutexUnlock k.tableMutexKey
    let k ← read
    let _ ← storeStackPageCall c (k.processes p).stackPage
    let _ ← storePageCall c p
    pure ⟨⟩
  else pure ⟨⟩

/-! ## The scheduler -/

/-- `set_next_current`, with the processes it destroys. -/
def setNextCurrentCall : Nat → KernelCall (List Addr)
  | 0 => cut
  | fuel + 1 => do
      let k ← read
      let p := k.procOf k.current
      if k.processes.isBlockedProcess p ∨ k.processes.isDeleteProcess p then
        let next := k.next k.current
        if k.processes.isDeleteProcess p then
          act .write fun k => k.link k.prev next
          destroyProcessCall c p
          let k ← read
          let _ ← storePageCall c k.current
          act .write fun k => { k with current := next }
          let ps ← setNextCurrentCall fuel
          pure (p :: ps)
        else
          act .write fun k => { k with prev := k.current, current := next }
          setNextCurrentCall fuel
      else pure []

/-- `next_process(current_rsp)`: its return value, whether it got past its tests,
and the processes it destroyed. -/
def nextProcessCall (fuel : Nat) (currentRsp : Nat) : KernelCall (Nat × Bool × List Addr) := do
  let k ← read
  if k.current = null then pure (currentRsp, false, [])
  else
    act .write unassignQuantum
    let k ← read
    if 0 < (k.nodes k.current).quantum then pure (currentRsp, false, [])
    else
      setSuperlock
      if k.superlock = .locked then pure (currentRsp, false, [])
      else
        act .write fun k => k.writeNode k.current fun n => { n with quantum := quantum }
        act .write fun k => k.setRspProcess (k.procOf k.current) currentRsp
        act .write fun k => { k with prev := k.current, current := k.next k.current }
        let destroyed ← setNextCurrentCall c fuel
        unsetSuperlock
        let k ← read
        pure (k.getRspProcess (k.procOf k.current), true, destroyed)

/-- `end_process` between its `set_superlock` and its `unset_superlock` -/
def endSection (fuel : Nat) : KernelCall (List Addr) := do
  let k ← read
  destroyProcessCall c (k.procOf k.current)
  act .write fun k => k.link k.prev (k.next k.current)
  act .write fun k => { k with current := k.next k.current }
  setNextCurrentCall c fuel

/-- `end_process`, up to where it loads the stack pointer of the next process. -/
def endProcessCall (fuel : Nat) : KernelCall (List Addr) := do
  setSuperlock
  let k ← read
  let destroyed ← endSection c fuel
  unsetSuperlock
  let _ ← storePageCall c k.current
  act .write assignQuantum
  pure (k.procOf k.current :: destroyed)

/-! ## The timer -/

/-- The loop of `timer_handler`, from the node `a` behind `prev` on. -/
def timerLoopCall : Nat → Addr → Addr → KernelCall PUnit
  | 0, _, _ => cut
  | fuel + 1, prev, a =>
      if a = null then pure ⟨⟩
      else do
        act .write fun k => k.writeSleep a fun n => { n with ticks := countDown n.ticks }
        let k ← read
        if (k.sleepNodes a).ticks = 0 then
          act .write fun k => k.unlinkSleepProcess prev a
          act .write fun k =>
            { k with processes := Procs.unblockProcess k.processes (k.sleeper a) }
          let k ← read
          let _ ← storePageCall c a
          timerLoopCall fuel prev (k.sleepNext a)
        else timerLoopCall fuel a (k.sleepNext a)

/-- `timer_handler` -/
def timerHandlerCall (fuel : Nat) : KernelCall PUnit := do
  let k ← read
  timerLoopCall c fuel null k.sleepingProcesses

/-- The handler of the timer interrupt: the sleeping processes, then the scheduler. -/
def irq0Call (fuel : Nat) (currentRsp : Nat) : KernelCall (Nat × Bool × List Addr) := do
  timerHandlerCall c fuel
  nextProcessCall c fuel currentRsp

/-- `sleep(milliseconds)` -/
def sleepCall (milliseconds : Nat) : KernelCall Int :=
  if waitTicks milliseconds = 0 then pure 0
  else do
    act .write assignQuantum
    let a ← getPageCall c
    act .write fun k => k.writeSleep a fun n =>
      { n with ticks := waitTicks milliseconds, p := k.getCurrentProcess }
    act .write fun k => k.linkSleepProcess a
    act .write fun k => k.headSleepProcess a
    let k ← read
    act (.block (k.sleeper a)) fun k =>
      { k with processes := Procs.blockProcess k.processes (k.sleeper a) }
    act .yield id
    park

/-! ## Free mutexes -/

/-- The mutex is not open yet, or free and wanted by nobody. -/
def MutexFree (k : Kernel) (key : Int) : Prop :=
  ¬k.mutexIsOpen key ∨
    (k.openMutexes key).locked = .unlocked ∧ k.isEmpty (k.openMutexes key).processQueue

instance (k : Kernel) (key : Int) : Decidable (k.MutexFree key) :=
  inferInstanceAs (Decidable (_ ∨ _ ∧ _))

/-! ## Deeper nesting -/

/-- The second calls do what the first do, unless these are cut. -/
structure MutexCalls.Extends (c c' : MutexCalls) : Prop where
  mutexLock : ∀ key, Call.Extends (c.mutexLock key) (c'.mutexLock key)
  mutexUnlock : ∀ key, Call.Extends (c.mutexUnlock key) (c'.mutexUnlock key)

namespace MutexCalls.Extends

variable {c} {c' : MutexCalls}

theorem getPageCall (h : c.Extends c') : Call.Extends (getPageCall c) (getPageCall c') := by
  refine .bind (.refl _) fun k => .bind (h.mutexLock _) fun _ => .bind (.refl _) fun k => ?_
  split
  · exact .bind (.refl _) fun _ => .bind (h.mutexUnlock _) fun _ => .refl _
  · exact .bind (h.mutexLock _) fun _ => .refl _

theorem storePageCall (h : c.Extends c') (address : Addr) :
    Call.Extends (storePageCall c address) (storePageCall c' address) :=
  .bind (.refl _) fun _ => .bind (h.mutexLock _) fun _ => .bind (.refl _) fun _ =>
    .bind (.refl _) fun _ => .bind (h.mutexUnlock _) fun _ => .refl _

theorem dequeueWaiterCall (h : c.Extends c') (rounds : Nat) (q : Addr) :
    Call.Extends (dequeueWaiterCall c rounds q) (dequeueWaiterCall c' rounds q) := by
  induction rounds with
  | zero => exact .refl _
  | succ rounds ih =>
      refine .bind (.bind (.refl _) fun k => ?_) fun p => .bind (.refl _) fun k => ?_
      · split
        · exact .refl _
        · split
          · exact .refl _
          · exact .bind (.refl _) fun _ => .bind (h.storePageCall _) fun _ => .refl _
      · split
        · exact ih
        · exact .refl _

theorem mutexLockBody (h : c.Extends c') (key : Int) :
    Call.Extends (mutexLockBody c key) (mutexLockBody c' key) := by
  refine .bind (.refl _) fun k => ?_
  split
  · refine .bind (.refl _) fun _ => .bind (.bind (.refl _) fun k => .bind (.refl _) fun _ => ?_)
      fun _ => .refl _
    split
    · refine .bind (.refl _) fun _ => .bind ?_ fun _ => .refl _
      unfold enqueueCall
      split
      · exact .refl _
      · exact .bind h.getPageCall fun _ => .refl _
    · exact .refl _
  · exact .refl _

theorem mutexUnlockBody (h : c.Extends c') (key : Int) :
    Call.Extends (mutexUnlockBody c key) (mutexUnlockBody c' key) := by
  refine .bind (.refl _) fun k => ?_
  split
  · exact .bind (.refl _) fun _ => .bind (.bind (.refl _) fun k =>
      .bind (h.dequeueWaiterCall _ _) fun _ => .refl _) fun _ => .refl _
  · exact .refl _

end MutexCalls.Extends

/-- A larger bound changes nothing for a call that comes to an end. -/
theorem callsAt_extends (depth : Nat) : (callsAt depth).Extends (callsAt (depth + 1)) := by
  induction depth with
  | zero => exact ⟨fun _ => .cut _, fun _ => .cut _⟩
  | succ depth ih => exact ⟨ih.mutexLockBody, ih.mutexUnlockBody⟩

end Kernel

end TPE
