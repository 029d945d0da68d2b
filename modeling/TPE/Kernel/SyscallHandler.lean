import TPE.Kernel.MachineRuns

/-!
# The system-call handler

`_syscallHandler` is the handler of `int 80h`.  It saves every register but
`rax`, moves the number of the call and its first argument to where C expects
them and calls `syscallDispatcher`, which leaves its result in `rax`.

The handler runs on the stack of the process that called it.  The system call
may yield, block or be interrupted, so other processes may run and end before
it returns.  None of them can see, `syscall_transparent` says.
-/

namespace TPE

open Function WordStack Kernel

/-! ## The table of system calls -/

/-- The functions in the table `syscalls`. -/
inductive Service where
  | sysReadWr | sysWriteWr | sysTimeWr | sysPaint | sysWaitWr | sysScreenResWr | sysTextSpaceWr
  | sysMallocWr | sysFreeWr | sysDataAddressWr | sysSetCharColor | sysSetBgColor | sysExecWr
  | sysEndWr | sysYieldWr | sysMutexOpWr | sysMutexClWr | sysMutexLockWr | sysMutexUnlockWr
  | sysSetForegroundWr | sysFifoOpWr | sysFifoClWr | sysKillWr | sysPidWr | sysPpidWr
  | sysProcessInfoWr | sysCondOpenWr | sysCondWaitWr | sysCondSignalWr | sysCondBroadcastWr
  | sysCondCloseWr | sysGetPidsWr | sysGetCondsInfoWr | sysGetMutexesInfoWr | sysGetFifosInfoWr
deriving DecidableEq, Repr

/-- The functions in the order of the table. -/
def services : List Service :=
  [.sysReadWr, .sysWriteWr, .sysTimeWr, .sysPaint, .sysWaitWr, .sysScreenResWr, .sysTextSpaceWr,
    .sysMallocWr, .sysFreeWr, .sysDataAddressWr, .sysSetCharColor, .sysSetBgColor, .sysExecWr,
    .sysEndWr, .sysYieldWr, .sysMutexOpWr, .sysMutexClWr, .sysMutexLockWr, .sysMutexUnlockWr,
    .sysSetForegroundWr, .sysFifoOpWr, .sysFifoClWr, .sysKillWr, .sysPidWr, .sysPpidWr,
    .sysProcessInfoWr, .sysCondOpenWr, .sysCondWaitWr, .sysCondSignalWr, .sysCondBroadcastWr,
    .sysCondCloseWr, .sysGetPidsWr, .sysGetCondsInfoWr, .sysGetMutexesInfoWr, .sysGetFifosInfoWr]

/-- `syscalls`.  The first three entries are 0. -/
def syscalls : List (Option Service) := [none, none, none] ++ services.map some

/-- A call of a table entry with its three arguments.  The entry `none` is a call
of the address 0. -/
structure TableCall where
  entry : Option Service
  args : Nat × Nat × Nat
deriving DecidableEq

/-- `syscallDispatcher` calls an entry of the table, or returns 0 without a call. -/
def syscallDispatcher (rax rbx rdx rcx : Nat) : Option TableCall :=
  if rax < syscalls.length ∧ 3 ≤ rax then
    some ⟨(syscalls[rax]?).join, rbx, rcx, rdx⟩
  else none

/-- Whatever is in the registers, no entry that is 0 is called. -/
theorem syscallDispatcher_entry {rax rbx rdx rcx : Nat} {call : TableCall}
    (h : syscallDispatcher rax rbx rdx rcx = some call) :
    ∃ f, call.entry = some f ∧ services[rax - 3]? = some f := by
  obtain ⟨⟨hlt, hge⟩, he⟩ := Option.ite_none_right_eq_some.mp h
  cases he
  have hlen : syscalls.length = 3 + services.length := rfl
  have hin : rax - 3 < services.length := by omega
  refine ⟨services[rax - 3], ?_, List.getElem?_eq_getElem hin⟩
  have hentry : syscalls[rax]? = (services[rax - 3]?).map some := by
    rw [syscalls, List.getElem?_append_right hge, List.getElem?_map]
    rfl
  show (syscalls[rax]?).join = _
  rw [hentry, List.getElem?_eq_getElem hin]
  rfl

/-! ## The handler -/

/-- The pushes of `pushState_notRax`, in their order. -/
def pushStateNotRaxRegs : List Reg :=
  [.rbx, .rcx, .rdx, .rbp, .rdi, .rsi, .r8, .r9, .r10, .r11, .r12, .r13, .r14, .r15, .fs, .gs]

/-- The pops of `popState_notRax`, in their order. -/
def popStateNotRaxRegs : List Reg :=
  [.gs, .fs, .r15, .r14, .r13, .r12, .r11, .r10, .r9, .r8, .rsi, .rdi, .rbp, .rdx, .rcx, .rbx]

theorem popStateNotRaxRegs_eq : popStateNotRaxRegs = pushStateNotRaxRegs.reverse := rfl

theorem mem_popStateNotRaxRegs (r : Reg) : r ∈ popStateNotRaxRegs ↔ r ≠ .rax := by
  cases r <;> decide

/-- The stack when `_syscallHandler` calls `syscallDispatcher`. -/
def enterSyscall (c : Cpu) (mem : Nat → UInt8) : Stack :=
  saveRegs pushStateNotRaxRegs c.regs (enterInterrupt c mem)

/-- The registers then: the first two parameters are moved to `rdi` and `rsi`, the
other two are in `rdx` and `rcx` already. -/
def syscallRegs (regs : Regs) : Regs :=
  update (update regs .rdi (regs .rax)) .rsi (regs .rbx)

/-- The parameters that `syscallDispatcher` finds in the registers. -/
def dispatcherArgs (regs : Regs) : Nat × Nat × Nat × Nat :=
  ((regs .rdi).toNat, (regs .rsi).toNat, (regs .rdx).toNat, (regs .rcx).toNat)

/-- The end of `_syscallHandler`: `popState_notRax` and `iretq`. -/
def leaveSyscall (left : Regs) (mem : Nat → UInt8) (rsp : Nat) : Cpu :=
  let (regs, s) := restoreRegs popStateNotRaxRegs left ⟨mem, rsp⟩
  iretq regs s

/-- The call that a process makes with the registers `regs`. -/
def syscallOf (regs : Regs) : Option TableCall :=
  let (rax, rbx, rdx, rcx) := dispatcherArgs (syscallRegs regs)
  syscallDispatcher rax rbx rdx rcx

/-- The table entry with the number in `rax` gets `rbx`, `rcx` and `rdx`. -/
theorem syscallOf_eq (regs : Regs) : syscallOf regs =
    syscallDispatcher (regs .rax).toNat (regs .rbx).toNat (regs .rdx).toNat (regs .rcx).toNat :=
  rfl

variable {c : Cpu} {left : Regs} {mem : Nat → UInt8} {sp : Nat}

/-- The bytes that the handler saves. -/
abbrev callSize : Nat := 168

theorem enterSyscall_spec (c : Cpu) (mem : Nat → UInt8) (hroom : callSize + 15 ≤ c.rsp.toNat) :
    (enterSyscall c mem).sp = c.rsp.toNat - c.rsp.toNat % 16 - callSize ∧
    WordsAt (enterSyscall c mem).mem (enterSyscall c mem).sp
      (regWords c.regs popStateNotRaxRegs ++ c.hardwareWords.reverse) ∧
    ∀ b, b < (enterSyscall c mem).sp ∨ c.rsp.toNat ≤ b → (enterSyscall c mem).mem b = mem b := by
  have hlen : 8 * pushStateNotRaxRegs.length + 40 = callSize := rfl
  obtain ⟨hsp, hat, hout⟩ := saveRegs_interrupt pushStateNotRaxRegs c mem (by omega)
  rw [hlen] at hsp hat hout
  have hsp' : (enterSyscall c mem).sp = c.rsp.toNat - c.rsp.toNat % 16 - callSize := hsp
  rw [hsp', popStateNotRaxRegs_eq]
  exact ⟨rfl, hat, hout⟩

/-- The handler restores everything but `rax`. -/
theorem leaveSyscall_eq (hlt : sp + callSize < 2 ^ 64)
    (hat : WordsAt mem sp (regWords c.regs popStateNotRaxRegs ++ c.hardwareWords.reverse)) :
    leaveSyscall left mem sp = { c with regs := update c.regs .rax (left .rax) } := by
  have hlen : 8 * popStateNotRaxRegs.length + 40 = callSize := rfl
  have hall : (fun r => if r ∈ popStateNotRaxRegs then c.regs r else left r) =
      update c.regs .rax (left .rax) := by
    funext r
    simp only [mem_popStateNotRaxRegs]
    by_cases hr : r = .rax
    · subst hr
      rw [if_neg (not_not_intro rfl), update_self]
    · rw [if_pos hr, update_of_ne hr]
  refine (iretq_restoreRegs (by omega) hat).trans ?_
  rw [hall]

/-! ## A call among other processes -/

namespace Machine

variable {n0 p0 p : Addr} {s t u : Machine} {a b : Nat} {mem' : Nat → UInt8}

theorem bytes_drop (n : Nat) : (bytes mem a b).drop n = bytes mem (a + n) b := by
  have hlen : b - a - n = b - (a + n) := by omega
  rw [bytes, ← List.map_drop, List.drop_range', hlen, Nat.mul_one, bytes]

theorem bytes_inj (h : bytes mem' a b = bytes mem a b) {i : Nat} (hge : a ≤ i) (hlt : i < b) :
    mem' i = mem i := by
  refine List.map_inj_left.mp h i (List.mem_range'_1.mpr ⟨hge, ?_⟩)
  omega

theorem length_bytes : (bytes mem a b).length = b - a := by
  rw [bytes, List.length_map, List.length_range']

/-- The process `p` is alive and in a system call whose saved context is at `sp`: the C
code uses the stack below. -/
def InCall (p : Addr) (sp : Nat) (s : Machine) (a : Action) : Prop :=
  p ∈ s.sched.live ∧ ∀ cpu mem, s.running = p → a = .compute cpu mem →
    cpu.rsp.toNat ≤ sp ∧ ∀ i, sp ≤ i → i < s.stackEnd p → mem i = s.mem i

/-- During a system call the stack from `sp` up stays as it is. -/
theorem stack_kept (hu : (machine n0 p0).Reach u) (hp : u.running = p)
    (hsp : u.cpu.rsp.toNat = sp) (hrun : (machineFrom n0 p0 u).ReachBy (InCall p sp) t)
    (ht : t.running = p) :
    t.cpu.rsp.toNat ≤ sp ∧ bytes t.mem sp (t.stackEnd p) = bytes u.mem sp (u.stackEnd p) := by
  -- what the running process sees of its own stack
  have hself : ∀ {x : Machine} {c : Context}, x.running = p → x.view.context p = some c →
      c = ⟨x.cpu, bytes x.mem x.cpu.rsp.toNat (x.stackEnd p)⟩ := by
    intro x c hx hc
    obtain ⟨-, he⟩ := Option.ite_none_right_eq_some.mp hc
    rw [contextOf, cpuOf_running hx.symm] at he
    exact (Option.some.inj he).symm
  have hdrop : ∀ (x : Machine), x.cpu.rsp.toNat ≤ sp →
      (bytes x.mem x.cpu.rsp.toNat (x.stackEnd p)).drop (sp - x.cpu.rsp.toNat) =
        bytes x.mem sp (x.stackEnd p) := by
    intro x hle
    rw [bytes_drop, Nat.add_sub_cancel' hle]
  have hinv : ∀ c, t.view.context p = some c → c.cpu.rsp.toNat ≤ sp ∧
      c.stack.drop (sp - c.cpu.rsp.toNat) = bytes u.mem sp (u.stackEnd p) := by
    refine (machine_shares n0 p0).context_invariant hu (fun c hc => ?_)
      (hrun.mono fun x a hcall => ⟨?_, fun v c c' hn hrunning he hc hP => ?_⟩)
    · rw [hself hp hc]
      exact ⟨hsp.le, hdrop u hsp.le⟩
    · rw [context_of_live hcall.1]
      rfl
    · obtain ⟨cpu, mem, ha, hc'⟩ := event_compute he
      have hx : x.running = p := hrunning
      obtain ⟨hle, hsame⟩ := hcall.2 cpu mem hx ha
      rw [hself hx hc] at hP
      obtain ⟨hle', hold⟩ := hP
      rw [hc', hx]
      refine ⟨hle, ?_⟩
      show (bytes mem cpu.rsp.toNat (x.stackEnd p)).drop (sp - cpu.rsp.toNat) = _
      rw [bytes_drop, Nat.add_sub_cancel' hle, ← hold, hdrop x hle']
      exact bytes_congr hsame
  have hlive : p ∈ t.sched.live :=
    ht ▸ (machineInv_of_reach (reach_of_from hu hrun)).running_live
  obtain ⟨hle, hstack⟩ := hinv _ (context_of_live hlive)
  rw [hself ht (context_of_live hlive)] at hle hstack
  exact ⟨hle, (hdrop t hle).symm.trans hstack⟩

/-- A system call is transparent.  The handler saved the registers of the running
process, and the C code runs below them, together with any other processes and
interrupts.  When the handler returns, the process has all its registers, its
flags and its stack as before, but for the result in `rax`. -/
theorem syscall_transparent {cpu : Cpu} (hs : (machine n0 p0).Reach s) (hp : s.running = p)
    (henter : (machine n0 p0).next s (.compute cpu (enterSyscall s.cpu s.mem).mem) = some u)
    (hsp : cpu.rsp.toNat = (enterSyscall s.cpu s.mem).sp)
    (hrun : (machineFrom n0 p0 u).ReachBy (InCall p (enterSyscall s.cpu s.mem).sp) t)
    (ht : t.running = p) :
    leaveSyscall t.cpu.regs t.mem (enterSyscall s.cpu s.mem).sp =
        { s.cpu with regs := update s.cpu.regs .rax (t.cpu.regs .rax) } ∧
      bytes t.mem s.cpu.rsp.toNat (t.stackEnd p) = bytes s.mem s.cpu.rsp.toNat (s.stackEnd p) := by
  have hinv := machineInv_of_reach hs
  have hreach := hs.next henter
  obtain ⟨-, hu⟩ := Option.ite_none_right_eq_some.mp henter
  have hu := (Option.some.inj hu).symm
  have hurun : u.running = p := by
    rw [hu]
    exact hp
  have hucpu : u.cpu.rsp.toNat = (enterSyscall s.cpu s.mem).sp := by rw [hu, hsp]
  have huend : u.stackEnd p = s.stackEnd p := by rw [hu]; rfl
  obtain ⟨hle, hkept⟩ := stack_kept hreach hurun hucpu hrun ht
  -- where the saved context is
  obtain ⟨hlow, hhigh⟩ := hinv.room
  rw [hp] at hlow hhigh
  have hsize : callSize = 168 := rfl
  have hframe : frameSize = 176 := rfl
  have hmod := Nat.mod_lt s.cpu.rsp.toNat (show 0 < 16 by decide)
  obtain ⟨hpos, hat, hout⟩ := enterSyscall_spec s.cpu s.mem (by omega)
  have hend : t.stackEnd p = s.stackEnd p := by
    have hlen := congrArg List.length hkept
    rw [length_bytes, length_bytes, huend] at hlen
    omega
  rw [huend, hend] at hkept
  have hmem : ∀ i, (enterSyscall s.cpu s.mem).sp ≤ i → i < s.stackEnd p →
      t.mem i = (enterSyscall s.cpu s.mem).mem i := by
    intro i hge hlt
    have hstart : s.stackStart p ≤ i := by omega
    have humem : u.mem = scribble s.mem (enterSyscall s.cpu s.mem).mem (s.stackStart p)
        (s.stackEnd p) := by rw [hu, hp]
    rw [bytes_inj hkept hge hlt, humem, scribble_inside ⟨hstart, hlt⟩]
  have hwords : 8 * (regWords s.cpu.regs popStateNotRaxRegs ++
      s.cpu.hardwareWords.reverse).length = callSize := by
    rw [List.length_append, length_regWords]
    rfl
  constructor
  · refine leaveSyscall_eq ?_ (hat.congr fun i hge hlt => hmem i hge ?_)
    · have hlt := s.cpu.rsp.isLt
      omega
    · rw [hwords] at hlt
      omega
  · rw [hend]
    refine bytes_congr fun i hge hlt => ?_
    rw [hmem i (by omega) hlt, hout i (Or.inr hge)]

/-! ## A run -/

/-- `init` in a system call. -/
def callCpu : Cpu :=
  { created.cpu with rsp := BitVec.ofNat 64 (enterSyscall created.cpu created.mem).sp }

/-- `init` calls the kernel. -/
def enterCall : Action := .compute callCpu (enterSyscall created.cpu created.mem).mem

theorem some_called : (firstSystem.next created enterCall).isSome := by decide +kernel

/-- `init` has called the kernel. -/
def called : Machine := (firstSystem.next created enterCall).get some_called

theorem next_called : firstSystem.next created enterCall = some called :=
  (Option.some_get some_called).symm

theorem some_away : (firstSystem.next called bareTick).isSome := by decide +kernel

/-- A tick comes, and the other process runs. -/
def away : Machine := (firstSystem.next called bareTick).get some_away

theorem next_away : firstSystem.next called bareTick = some away :=
  (Option.some_get some_away).symm

theorem some_back : (firstSystem.next away bareTick).isSome := by decide +kernel

/-- Another tick comes, and `init` is in its call again. -/
def back : Machine := (firstSystem.next away bareTick).get some_back

theorem next_back : firstSystem.next away bareTick = some back :=
  (Option.some_get some_back).symm

theorem inCall_bareTick (h : p ∈ s.sched.live) (sp : Nat) : InCall p sp s bareTick := by
  refine ⟨h, fun cpu mem _ he => ?_⟩
  cases he

theorem live_called : created.running ∈ called.sched.live := by decide +kernel

theorem live_away : created.running ∈ away.sched.live := by decide +kernel

theorem running_back : back.running = created.running := by decide +kernel

theorem rsp_callCpu : callCpu.rsp.toNat = (enterSyscall created.cpu created.mem).sp := by
  decide +kernel

theorem syscall_transparent_back :
    leaveSyscall back.cpu.regs back.mem (enterSyscall created.cpu created.mem).sp =
        { created.cpu with regs := update created.cpu.regs .rax (back.cpu.regs .rax) } ∧
      bytes back.mem created.cpu.rsp.toNat (back.stackEnd created.running) =
        bytes created.mem created.cpu.rsp.toNat (created.stackEnd created.running) :=
  syscall_transparent (reach_first.next next_created) rfl next_called rsp_callCpu
    (from_step (from_step from_self (inCall_bareTick live_called _) next_away)
      (inCall_bareTick live_away _) next_back) running_back

end Machine

end TPE
