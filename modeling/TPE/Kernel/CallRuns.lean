import TPE.Library.Runs
import TPE.Kernel.NestedCalls

/-!
# Runs with interrupted calls

The kernel from its boot on, with processes that make system calls.  A call runs
to its end, or to its yield, or up to some step behind which a timer tick comes.

The rest of an interrupted call is not part of the runs: a process that was
interrupted inside a call does not take another step.  So the runs reach states
of the kernel, and not all of them.
-/

namespace TPE

/-- The string with the characters of `s`. -/
def CString.ofString (s : String) : CString where
  bytes := (s.toList.map fun c => UInt8.ofNat c.toNat).filter (· ≠ 0)
  noNul := by simp

namespace Kernel

open Call

/-! ## The boot -/

/-- `main` and `init` up to the `_sti` of `init`. -/
def boot : Option Kernel := do
  let k := initializeStackMemoryAllocator
    { pages := PageStack.initializeMemoryAllocator ⟨fun _ => 0, 0⟩ }
  let (key, k) ← k.mutexOpen (.ofString "__COND_ARRAY_LOCK__")
  let (key', k) ← { k with condArrayLock := key }.mutexOpen (.ofString "__FIFO_ARRAY_MUTEX__")
  let (_, k) ← { k with fifoArrayLock := key' }.sysExec 0 (.ofString "init")
  let (key, k) ← k.mutexOpen (.ofString "__MEMORY_MUTEX__")
  let (key', k) ← { k with memoryMutexKey := key }.mutexOpen (.ofString "__STACK_MEMORY_MUTEX__")
  let (key, k) ← { k with stackMemoryMutexKey := key' }.mutexOpen
    (.ofString "__PROCESS_TABLE_MUTEX__")
  some { k with tableMutexKey := key }

/-! ## The runs -/

/-- The kernel, with the processes that are inside a call. -/
structure CallRun where
  k : Kernel
  inside : List Addr

/-- The calls of the processes. -/
inductive UserCall where
  | lock (key : Int)
  | unlock (key : Int)
  | getPage
  | storePage (address : Addr)
  | sleep (milliseconds : Nat)

/-- The steps of a call. -/
def UserCall.call (c : MutexCalls) : UserCall → KernelCall PUnit
  | .lock key => do
      let _ ← c.mutexLock key
      pure ⟨⟩
  | .unlock key => do
      let _ ← c.mutexUnlock key
      pure ⟨⟩
  | .getPage => do
      let _ ← getPageCall c
      pure ⟨⟩
  | .storePage address => do
      let _ ← storePageCall c address
      pure ⟨⟩
  | .sleep milliseconds => do
      let _ ← sleepCall c milliseconds
      pure ⟨⟩

/-- What can happen.  `depth` and `fuel` bound the calls. -/
inductive CallAction where
  /-- `sys_exec` of the running process, uninterrupted. -/
  | exec (rip : Nat) (name : CString)
  /-- A call of the running process, to its end or to its yield. -/
  | run (u : UserCall) (depth fuel : Nat)
  /-- A call of the running process, up to its step `i`. -/
  | enter (u : UserCall) (depth i : Nat)
  /-- A timer tick. -/
  | tick (depth fuel currentRsp : Nat)

/-- The kernel with its processes, from the boot on. -/
def callSystem : System CallRun CallAction where
  init s := boot = some s.k ∧ s.inside = []
  next
    | s, .exec rip name =>
        if s.k.getCurrentProcess ∉ s.inside ∧ s.k.MutexFree s.k.memoryMutexKey ∧
            s.k.MutexFree s.k.stackMemoryMutexKey ∧ s.k.MutexFree s.k.tableMutexKey then
          (s.k.sysExec rip name).map fun (_, k) => { s with k }
        else none
    | s, .run u depth fuel =>
        if s.k.getCurrentProcess ∈ s.inside then none
        else
          let r := u.call (callsAt depth) s.k
          match r.ending with
          | .returned _ => some { s with k := r.state }
          | .parked =>
              -- the process yields
              (nextProcessCall (callsAt depth) fuel 0 r.state.yieldQuantum).result.map fun (_, k) =>
                ⟨k, s.k.getCurrentProcess :: s.inside⟩
          | .cut => none
    | s, .enter u depth i =>
        if s.k.getCurrentProcess ∈ s.inside then none
        else ((u.call (callsAt depth) s.k).log[i]?).map fun (_, k) =>
          ⟨k, s.k.getCurrentProcess :: s.inside⟩
    | s, .tick depth fuel currentRsp =>
        (irq0Call (callsAt depth) fuel currentRsp s.k).result.map fun (_, k) => { s with k }

theorem boot_isSome : boot.isSome := by decide +kernel

/-- The state after the boot. -/
def booted : CallRun := ⟨boot.get boot_isSome, []⟩

theorem init_booted : callSystem.init booted := ⟨(Option.some_get boot_isSome).symm, rfl⟩

/-- `init` starts the shell, and the shell starts a program. -/
def twoPrograms : List CallAction :=
  [.exec 0 (.ofString "shell"), .tick 2 5 0, .exec 0 (.ofString "program")]

end Kernel

end TPE
