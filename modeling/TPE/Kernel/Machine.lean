import TPE.Library.Processors
import TPE.Kernel.ContextSwitch
import TPE.Kernel.StackPages

/-!
# The machine

The machine runs the processes of the scheduler's ring.  Its state has the
registers, the memory of the stacks and the kernel with its ring.  The running
process computes on its own stack, and an interrupt saves its context there.
The C code of a handler runs on the same stack, below the saved context, and may
leave anything in that part of the stack and in the registers.

`contextOf` reads the context of a process: of the running one it is in the
processor, of the others it was saved on their stacks.
-/

namespace TPE

open Function WordStack Kernel

/-- A context, and the bytes on the stack. -/
structure Context where
  cpu : Cpu
  stack : List UInt8

/-- What the C code of a handler leaves in the registers and on the stack below
the saved context. -/
structure Leftover where
  regs : Regs
  mem : Nat → UInt8

/-- The processor, the memory and the scheduler with the living processes. -/
structure Machine where
  sched : Sched
  cpu : Cpu
  mem : Nat → UInt8

namespace Machine

/-- The running process. -/
def running (s : Machine) : Addr := s.sched.k.getCurrentProcess

/-- The address behind the stack of the process `p`. -/
def stackEnd (s : Machine) (p : Addr) : Nat := s.sched.k.stackPageOf p

/-- The lowest address of the stack of the process `p`. -/
def stackStart (s : Machine) (p : Addr) : Nat := s.stackEnd p - stackPageSize

/-- The bytes from `a` up to `b`. -/
def bytes (mem : Nat → UInt8) (a b : Nat) : List UInt8 := (List.range' a (b - a)).map mem

/-- Overwrite the bytes from `a` up to `b`. -/
def scribble (mem new : Nat → UInt8) (a b : Nat) : Nat → UInt8 :=
  fun i => if a ≤ i ∧ i < b then new i else mem i

/-- The processor's registers when the process `p` runs next, or runs now. -/
def cpuOf (s : Machine) (p : Addr) : Cpu :=
  if p = s.running then s.cpu else changeProcess s.cpu.regs s.mem (s.sched.k.rspOf p)

theorem cpuOf_running {s : Machine} {p : Addr} (h : p = s.running) : s.cpuOf p = s.cpu := if_pos h

theorem cpuOf_of_ne {s : Machine} {p : Addr} (h : p ≠ s.running) :
    s.cpuOf p = changeProcess s.cpu.regs s.mem (s.sched.k.rspOf p) := if_neg h

/-- The context of the process `p`. -/
def contextOf (s : Machine) (p : Addr) : Context :=
  ⟨s.cpuOf p, bytes s.mem (s.cpuOf p).rsp.toNat (s.stackEnd p)⟩

/-- What the processes see. -/
def view (s : Machine) : Processors Addr Context :=
  ⟨s.running, fun p => if p ∈ s.sched.live then some (s.contextOf p) else none⟩

theorem context_of_live {s : Machine} {p : Addr} (h : p ∈ s.sched.live) :
    s.view.context p = some (s.contextOf p) := if_pos h

theorem context_of_dead {s : Machine} {p : Addr} (h : p ∉ s.sched.live) :
    s.view.context p = none := if_neg h

/-! ## Steps -/

/-- The stack pointer `rsp` is on the stack of the running process, with room
for a saved context. -/
def Room (s : Machine) (rsp : Nat) : Prop :=
  s.stackStart s.running + frameSize + 15 ≤ rsp ∧ rsp ≤ s.stackEnd s.running

instance (s : Machine) (rsp : Nat) : Decidable (s.Room rsp) := inferInstanceAs (Decidable (_ ∧ _))

/-- The memory when a handler is about to resume a process: the context of the
running process is saved, and the C code has used the stack below it. -/
def handlerMem (s : Machine) (left : Leftover) : Nat → UInt8 :=
  scribble (saveContext s.cpu s.mem).mem left.mem (s.stackStart s.running) (saveContext s.cpu s.mem).sp

/-- What happens to the machine.  The calls that walk the ring come with the fuel
of their loop. -/
inductive Action where
  /-- The running process computes: it comes to `cpu` and writes its stack. -/
  | compute (cpu : Cpu) (mem : Nat → UInt8)
  /-- `_irq00Handler`.  `timer_handler` unblocks the processes `woken`. -/
  | tick (woken : List Addr) (fuel : Nat) (left : Leftover)
  /-- `yield_process` and the interrupt it raises, `_yield_interrupt`. -/
  | yield (fuel : Nat) (left : Leftover)
  /-- The other handlers, `irqHandlerMaster`.  They change the status of processes. -/
  | irq (calls : List (StatusCall × Addr)) (left : Leftover)
  /-- The running process changes the status of a process. -/
  | status (call : StatusCall) (p : Addr)
  /-- The running process creates a process. -/
  | exec (rip params : BitVec 64) (name : CString)
  /-- `end_process` -/
  | finish (fuel : Nat) (left : Leftover)

/-- The status of processes is changed, one after the other. -/
def applyCalls (k : Kernel) (calls : List (StatusCall × Addr)) : Kernel :=
  calls.foldl (fun k c => k.applyStatus c.1 c.2) k

/-- `next_process`, and the process it returns the stack pointer of is resumed. -/
def dispatch (s : Machine) (k : Kernel) (fuel : Nat) (left : Leftover) : Option Machine :=
  (k.nextProcess fuel (saveContext s.cpu s.mem).sp).map fun d =>
    { sched := ⟨d.k, s.sched.live.diff d.destroyed⟩
      cpu := changeProcess left.regs (s.handlerMem left) d.rsp
      mem := s.handlerMem left }

/-- One step.  `n0` is the node of `init`, which is never blocked or marked for
deletion, and `p0` its process, which does not end. -/
def next (n0 p0 : Addr) (s : Machine) : Action → Option Machine
  | .compute cpu mem =>
      if s.Room cpu.rsp.toNat then
        some { s with
          cpu
          mem := scribble s.mem mem (s.stackStart s.running) (s.stackEnd s.running) }
      else none
  | .tick woken fuel left =>
      s.dispatch (applyCalls s.sched.k (woken.map fun p => (.unblock, p))) fuel left
  | .yield fuel left => s.dispatch s.sched.k.yieldQuantum fuel left
  | .irq calls left =>
      if ∀ n ≤ calls.length, (applyCalls s.sched.k (calls.take n)).Dispatchable n0 then
        some
          { sched := ⟨applyCalls s.sched.k calls, s.sched.live⟩
            cpu := changeProcess left.regs (s.handlerMem left) (saveContext s.cpu s.mem).sp
            mem := s.handlerMem left }
      else none
  | .status call p =>
      if (s.sched.k.applyStatus call p).Dispatchable n0 then
        some { s with sched := ⟨s.sched.k.applyStatus call p, s.sched.live⟩ }
      else none
  | .exec rip params name =>
      (s.sched.k.sysExec rip.toNat name).map fun (p, k) =>
        { s with
          sched := ⟨k, p :: s.sched.live⟩
          mem := writeFrame s.mem rip.toNat (k.stackPageOf p) params.toNat }
  | .finish fuel left =>
      if s.running ≠ p0 then
        (s.sched.k.endProcess fuel).map fun (ps, k) =>
          let mem := scribble s.mem left.mem (s.stackStart s.running) (s.stackEnd s.running)
          { sched := ⟨k, s.sched.live.diff ps⟩
            cpu := changeProcess left.regs mem (k.getRspProcess k.getCurrentProcess)
            mem }
      else none

/-- The machine, started with the process `p0` of `init`, whose pid is 0, on the
node `n0`. -/
def machine (n0 p0 : Addr) : System Machine Action where
  init s := ∃ (k : Kernel) (rip params : BitVec 64) (name : CString) (regs : Regs)
      (mem : Nat → UInt8), k.Started ∧
    k.sysExec rip.toNat name = some (p0, s.sched.k) ∧ s.sched.k.current = n0 ∧
    (s.sched.k.processes p0).pid = 0 ∧ s.sched.live = [p0] ∧
    s.mem = writeFrame mem rip.toNat (s.sched.k.stackPageOf p0) params.toNat ∧
    -- `exec_process` changes to the process at once
    s.cpu = changeProcess regs s.mem (s.sched.k.rspOf p0)
  next := next n0 p0

/-- What the processes see of a step. -/
def event (s : Machine) : Action → Machine → Processors.Event Addr Context
  | .compute cpu mem, _ => .compute ⟨cpu, bytes mem cpu.rsp.toNat (s.stackEnd s.running)⟩
  | .tick _ _ _, t | .yield _ _, t | .finish _ _, t =>
      .switch t.running (s.sched.live.filter fun p => p ∉ t.sched.live)
  | .irq _ _, _ | .status _ _, _ => .idle
  | .exec rip params _, t =>
      let p := t.sched.live.headD null
      -- the word `base` is on the stack
      .spawn p ⟨Cpu.start rip params (t.stackEnd p), List.replicate 8 0⟩

/-! ## Memories -/

variable {mem mem' new : Nat → UInt8} {a b i : Nat}

theorem scribble_outside (h : i < a ∨ b ≤ i) : scribble mem new a b i = mem i :=
  if_neg (by omega)

theorem scribble_inside (h : a ≤ i ∧ i < b) : scribble mem new a b i = new i := if_pos h

theorem bytes_congr (h : ∀ i, a ≤ i → i < b → mem' i = mem i) : bytes mem' a b = bytes mem a b := by
  refine List.map_congr_left fun i hi => ?_
  obtain ⟨hge, hlt⟩ := List.mem_range'_1.mp hi
  exact h i hge (by omega)

/-! ## Parked processes -/

/-- The context `c` is saved at `rsp` on the stack that ends at `page`. -/
structure Parked (mem : Nat → UInt8) (rsp page : Nat) (c : Cpu) : Prop where
  saved : WordsAt mem rsp c.frame
  above : page - stackPageSize ≤ rsp
  below : rsp + frameSize ≤ c.rsp.toNat
  room : page - stackPageSize + frameSize + 15 ≤ c.rsp.toNat
  end_le : c.rsp.toNat ≤ page

variable {rsp page : Nat} {c : Cpu} {left : Regs}

/-- Where the stacks are. -/
theorem stackPage_between (h : page ∈ stackPages) : stackPageSize ≤ page ∧ page < 2 ^ 32 := by
  obtain ⟨i, hi, rfl⟩ := mem_stackPages.mp h
  have hmax : maxProcesses = 128 := rfl
  have hbase : stackAddress = 0x601000 := rfl
  have hsize : stackPageSize = 0x100000 := rfl
  unfold stackPage
  rw [hbase, hsize]
  omega

/-- Two stacks do not meet. -/
theorem stackPages_apart (ha : a ∈ stackPages) (hb : b ∈ stackPages) (hne : a ≠ b) :
    a ≤ b - stackPageSize ∨ b ≤ a - stackPageSize := by
  obtain ⟨i, -, rfl⟩ := mem_stackPages.mp ha
  obtain ⟨j, -, rfl⟩ := mem_stackPages.mp hb
  exact stackPage_apart fun hij => hne (congrArg stackPage hij)

/-! ## New stacks -/

/-- The stack pointer of a new process is at the word `base`. -/
theorem start_rsp (rip params : BitVec 64) (hpage : page ∈ stackPages) :
    (Cpu.start rip params page).rsp.toNat = page - 8 := by
  have hlt := (stackPage_between hpage).2
  rw [Cpu.start, BitVec.toNat_ofNat]
  exact Nat.mod_eq_of_lt (by omega)

/-- The frame of a new process is on its stack and on no other one. -/
theorem writeFrame_other {rip params : BitVec 64} {other i : Nat} (hpage : page ∈ stackPages)
    (hother : other ∈ stackPages) (hne : other ≠ page) (hge : other - stackPageSize ≤ i)
    (hlt : i < other) : writeFrame mem rip.toNat page params.toNat i = mem i := by
  obtain ⟨hle, hlt'⟩ := stackPage_between hpage
  have hsize : stackPageSize = 0x100000 := rfl
  have hlt64 : page < 2 ^ 64 := by omega
  obtain ⟨-, -, hout⟩ := writeFrame_spec mem rip params (by omega) hlt64
  have hapart := stackPages_apart hother hpage hne
  exact hout i (by omega)

namespace Parked

theorem congr (h : Parked mem rsp page c)
    (hsame : ∀ i, page - stackPageSize ≤ i → i < page → mem' i = mem i) :
    Parked mem' rsp page c := by
  refine { h with saved := h.saved.congr fun i hge hlt => ?_ }
  have hlen := length_frame c
  have hbelow := h.below
  have hend := h.end_le
  exact hsame i (h.above.trans hge) (by omega)

/-- A parked process is resumed in its context. -/
theorem resume (h : Parked mem rsp page c) (hpage : page ∈ stackPages) :
    changeProcess left mem rsp = c := by
  have hbelow := h.below
  have hend := h.end_le
  have hlt := (stackPage_between hpage).2
  exact changeProcess_eq (by omega) h.saved

/-- An interrupt parks the running process. -/
theorem of_interrupt (hroom : page - stackPageSize + frameSize + 15 ≤ c.rsp.toNat)
    (hend : c.rsp.toNat ≤ page) :
    Parked (saveContext c mem).mem (saveContext c mem).sp page c := by
  have hmod := Nat.mod_lt c.rsp.toNat (show 0 < 16 by decide)
  obtain ⟨hsp, hat, -⟩ := saveContext_spec c mem (by omega)
  have hsize : frameSize = 176 := rfl
  exact ⟨hat, by omega, by omega, hroom, hend⟩

/-- A new process is parked at its start. -/
theorem of_writeFrame {rip params : BitVec 64} (hpage : page ∈ stackPages) :
    Parked (writeFrame mem rip.toNat page params.toNat) (fillStack page) page
      (Cpu.start rip params page) := by
  obtain ⟨hle, hlt⟩ := stackPage_between hpage
  have hsize : stackPageSize = 0x100000 := rfl
  have hframe : frameSize = 176 := rfl
  have hrsp := start_rsp rip params hpage
  have hlt64 : page < 2 ^ 64 := by omega
  obtain ⟨hat, -⟩ := writeFrame_spec mem rip params (by omega) hlt64
  have hfill := fillStack_eq (by omega) hlt64
  refine ⟨hat, ?_, ?_, ?_, ?_⟩
  all_goals omega

end Parked

end Machine

end TPE
