import TPE.Kernel.Machine

/-!
# The processes share one processor

Between two steps every process but the running one is parked: its context is
saved on its own stack.  No other process writes there, so a handler that
resumes a process finds the context it saved.

Seen through `contextOf` the machine is a processor for each process
(`processes_share_processor`).  So a process that does not run keeps its
registers, its flags and its stack (`context_kept`), and a new process starts
as `fill_stack` says (`process_starts`).
-/

namespace TPE

open Function WordStack Kernel

namespace Machine

variable {mem mem' m : Nat → UInt8} {a b i rsp page : Nat} {c : Cpu} {left : Regs}

/-! ## The invariant -/

variable {n0 p0 p : Addr} {s t : Machine}

/-- The ring and the stacks are in order, the running process has room on its
stack and every other process is parked on its own. -/
structure MachineInv (n0 p0 : Addr) (s : Machine) : Prop where
  scheduled : StackInv n0 p0 s.sched
  room : s.Room s.cpu.rsp.toNat
  parked : ∀ p ∈ s.sched.live, p ≠ s.running →
    ∃ c, Parked s.mem (s.sched.k.rspOf p) (s.stackEnd p) c

namespace MachineInv

theorem running_live (h : MachineInv n0 p0 s) : s.running ∈ s.sched.live :=
  h.scheduled.1.running_mem.1

/-- Nobody else's stack meets the stack of the running process. -/
theorem apart (h : MachineInv n0 p0 s) (hp : p ∈ s.sched.live) (hne : p ≠ s.running) :
    s.stackEnd p ≤ s.stackStart s.running ∨ s.stackEnd s.running ≤ s.stackStart p := by
  refine stackPages_apart (h.scheduled.2.mem hp) (h.scheduled.2.mem h.running_live) fun he => ?_
  exact hne (h.scheduled.2.inj hp h.running_live he)

/-- The context of a process that does not run is where it is parked. -/
theorem cpuOf_parked (h : MachineInv n0 p0 s) (hp : p ∈ s.sched.live) (hne : p ≠ s.running) :
    Parked s.mem (s.sched.k.rspOf p) (s.stackEnd p) (s.cpuOf p) := by
  obtain ⟨c, hc⟩ := h.parked p hp hne
  have hcpu : s.cpuOf p = c := by
    rw [cpuOf_of_ne hne]
    exact hc.resume (h.scheduled.2.mem hp)
  rwa [hcpu]

/-- The stack pointer of a process is on its stack. -/
theorem start_le (h : MachineInv n0 p0 s) (hp : p ∈ s.sched.live) :
    s.stackEnd p - stackPageSize ≤ (s.cpuOf p).rsp.toNat := by
  by_cases hrun : p = s.running
  · have hroom := h.room.1
    unfold stackStart at hroom
    rw [cpuOf_running hrun, hrun]
    omega
  · have hroom := (h.cpuOf_parked hp hrun).room
    omega

/-- A write to the stack of the running process does not reach the other processes. -/
theorem parked_of_outside (h : MachineInv n0 p0 s) (hp : p ∈ s.sched.live) (hne : p ≠ s.running)
    (hsame : ∀ i, i < s.stackStart s.running ∨ s.stackEnd s.running ≤ i → mem' i = s.mem i) :
    Parked mem' (s.sched.k.rspOf p) (s.stackEnd p) (s.cpuOf p) ∧
      bytes mem' (s.cpuOf p).rsp.toNat (s.stackEnd p) = (s.contextOf p).stack := by
  have hpark := h.cpuOf_parked hp hne
  have happart := h.apart hp hne
  have hsame' : ∀ i, s.stackEnd p - stackPageSize ≤ i → i < s.stackEnd p → mem' i = s.mem i := by
    intro i hge hlt
    refine hsame i ?_
    have hstart : s.stackStart p = s.stackEnd p - stackPageSize := rfl
    omega
  refine ⟨hpark.congr hsame', bytes_congr fun i hge hlt => hsame' i ?_ hlt⟩
  have hroom := hpark.room
  omega

/-- When a handler is about to resume a process, every process is parked in its
context, the running one below its stack pointer. -/
theorem parked_handler (h : MachineInv n0 p0 s) (left : Leftover) (hp : p ∈ s.sched.live) :
    Parked (s.handlerMem left)
      (update s.sched.k.rspOf s.running (saveContext s.cpu s.mem).sp p) (s.stackEnd p)
      (s.cpuOf p) ∧
    bytes (s.handlerMem left) (s.cpuOf p).rsp.toNat (s.stackEnd p) = (s.contextOf p).stack := by
  obtain ⟨hlow, hhigh⟩ := h.room
  have hsize : frameSize = 176 := rfl
  have hmod := Nat.mod_lt s.cpu.rsp.toNat (show 0 < 16 by decide)
  obtain ⟨hsp, -, hout⟩ := saveContext_spec s.cpu s.mem (by omega)
  by_cases hrun : p = s.running
  · have hcpu := cpuOf_running hrun
    rw [hcpu, hrun, update_self]
    have hpark : Parked (saveContext s.cpu s.mem).mem (saveContext s.cpu s.mem).sp
        (s.stackEnd s.running) s.cpu := .of_interrupt hlow hhigh
    constructor
    · refine { hpark with saved := hpark.saved.congr fun i hge _ => ?_ }
      exact scribble_outside (Or.inr hge)
    · have hstack : (s.contextOf s.running).stack =
          bytes s.mem s.cpu.rsp.toNat (s.stackEnd s.running) := by
        rw [contextOf, cpuOf_running rfl]
      rw [hstack]
      refine bytes_congr fun i hge _ => ?_
      rw [handlerMem, scribble_outside (Or.inr (by omega)), hout i (Or.inr hge)]
  · rw [update_of_ne hrun]
    refine h.parked_of_outside hp hrun fun i hi => ?_
    rw [handlerMem, scribble_outside (by omega), hout i (by omega)]

end MachineInv

/-- When every living process is parked as it was in `s`, and the one that is to
run is resumed, the processes have the contexts they had in `s`. -/
theorem resumed (rsp' : Addr → Nat) {sched : Sched} (hstacks : StackInv n0 p0 sched)
    (hend : ∀ p ∈ sched.live, sched.k.stackPageOf p = s.stackEnd p)
    (hpark : ∀ p ∈ sched.live, Parked mem' (rsp' p) (s.stackEnd p) (s.cpuOf p) ∧
      bytes mem' (s.cpuOf p).rsp.toNat (s.stackEnd p) = (s.contextOf p).stack)
    (hrsp : ∀ p ∈ sched.live, p ≠ sched.k.getCurrentProcess → sched.k.rspOf p = rsp' p)
    (ht : t = ⟨sched, changeProcess left mem' (rsp' sched.k.getCurrentProcess), mem'⟩) :
    MachineInv n0 p0 t ∧ ∀ p ∈ sched.live, t.contextOf p = s.contextOf p := by
  subst ht
  have hlive : sched.k.getCurrentProcess ∈ sched.live := hstacks.1.running_mem.1
  have hmem : ∀ p ∈ sched.live, s.stackEnd p ∈ stackPages := by
    intro p hp
    rw [← hend p hp]
    exact hstacks.2.mem hp
  have hrun : changeProcess left mem' (rsp' sched.k.getCurrentProcess) =
      s.cpuOf sched.k.getCurrentProcess :=
    (hpark _ hlive).1.resume (hmem _ hlive)
  rw [hrun]
  refine ⟨⟨hstacks, ?_, fun p hp hne => ⟨s.cpuOf p, ?_⟩⟩, fun p hp => ?_⟩
  · obtain ⟨-, -, -, hroom, hle⟩ := (hpark _ hlive).1
    rw [← hend _ hlive] at hroom hle
    exact ⟨hroom, hle⟩
  · rw [hrsp p hp hne, stackEnd, hend p hp]
    exact (hpark p hp).1
  · have hcpuOf : cpuOf ⟨sched, s.cpuOf sched.k.getCurrentProcess, mem'⟩ p = s.cpuOf p := by
      by_cases hne : p = sched.k.getCurrentProcess
      · exact (cpuOf_running hne).trans (congrArg s.cpuOf hne.symm)
      · refine (cpuOf_of_ne hne).trans ?_
        rw [hrsp p hp hne]
        exact (hpark p hp).1.resume (hmem p hp)
    rw [contextOf, hcpuOf, stackEnd, hend p hp, (hpark p hp).2]
    rfl

/-! ## One step -/

variable {k k' : Kernel} {fuel : Nat} {ps live : List Addr}

/-- Changes of status leave the stacks and the running process alone. -/
theorem applyCalls_spec (calls : List (StatusCall × Addr)) (h : StackInv n0 p0 ⟨k, live⟩)
    (hready : ∀ n ≤ calls.length, (applyCalls k (calls.take n)).Dispatchable n0) :
    StackInv n0 p0 ⟨applyCalls k calls, live⟩ ∧ Reaped k [] (applyCalls k calls) ∧
      (applyCalls k calls).getCurrentProcess = k.getCurrentProcess := by
  induction calls generalizing k with
  | nil => exact ⟨h, .of_eq rfl rfl rfl, rfl⟩
  | cons c calls ih =>
      have hfirst : (k.applyStatus c.1 c.2).Dispatchable n0 := by
        have hone := hready 1 (Nat.succ_le_succ (Nat.zero_le _))
        exact hone
      obtain ⟨hinv, hr, hcur⟩ := ih (h.applyStatus hfirst) fun n hn =>
        hready (n + 1) (Nat.succ_le_succ hn)
      exact ⟨hinv, (reaped_applyStatus k c.1 c.2).trans hr, hcur⟩

/-- Waking processes does not block `init`. -/
theorem dispatchable_unblock {q a : Addr} (h : k.Dispatchable a) :
    (k.applyStatus .unblock q).Dispatchable a := by
  obtain ⟨hblocked, hdelete⟩ := h
  unfold Dispatchable at *
  show ¬(k.processes.unblockProcess q).isBlockedProcess (k.procOf a) ∧
    ¬(k.processes.unblockProcess q).isDeleteProcess (k.procOf a)
  unfold Procs.isDeleteProcess Procs.isBlockedProcess at *
  rw [Procs.unblockProcess_delete_iff]
  refine ⟨fun hb => ?_, hdelete⟩
  by_cases hq : k.procOf a = q
  · unfold Procs.unblockProcess at hb
    split at hb
    next hgo =>
      rw [← hq] at hb hgo
      rw [Procs.setSt_st_self] at hb
      have hready := hb hgo.1
      simp at hready
    next => exact hblocked hb
  · rw [Procs.unblockProcess_of_ne hq] at hb
    exact hblocked hb

theorem dispatchable_wake {a : Addr} (woken : List Addr) (h : k.Dispatchable a) :
    (applyCalls k (woken.map fun p => (.unblock, p))).Dispatchable a := by
  induction woken generalizing k with
  | nil => exact h
  | cons q woken ih => exact ih (dispatchable_unblock h)

/-- When contexts are kept, the processes see a change of the running process
and the end of others. -/
theorem step_switch (hrun : t.running ∈ t.sched.live)
    (hsub : ∀ p ∈ t.sched.live, p ∈ s.sched.live)
    (hkeep : ∀ p ∈ t.sched.live, t.contextOf p = s.contextOf p) :
    Processors.step s.view
      (.switch t.running (s.sched.live.filter fun p => p ∉ t.sched.live)) = some t.view := by
  rw [Processors.step, if_pos]
  · refine congrArg some (Processors.ext rfl (funext fun p => ?_))
    simp only [view, List.mem_filter, decide_eq_true_eq]
    by_cases hp : p ∈ t.sched.live
    · rw [if_neg (fun hgone => hgone.2 hp), if_pos (hsub p hp), if_pos hp, hkeep p hp]
    · rw [if_neg hp]
      split
      next => rfl
      next hnot => exact if_neg fun hs => hnot ⟨hs, hp⟩
  · simp [view, hrun, hsub _ hrun]

/-- When nothing changes for the processes. -/
theorem step_idle (hrun : t.running = s.running) (hlive : t.sched.live = s.sched.live)
    (hkeep : ∀ p ∈ t.sched.live, t.contextOf p = s.contextOf p) :
    Processors.step s.view .idle = some t.view := by
  refine congrArg some (Processors.ext hrun.symm (funext fun p => ?_))
  simp only [view, ← hlive]
  split
  next hp => rw [hkeep p hp]
  next => rfl

namespace MachineInv

/-- A tick or a yield. -/
theorem dispatch (h : MachineInv n0 p0 s) (hk : StackInv n0 p0 ⟨k, s.sched.live⟩)
    (hrun : k.getCurrentProcess = s.running) (hr : Reaped s.sched.k [] k) {left : Leftover}
    (hd : s.dispatch k fuel left = some t) :
    MachineInv n0 p0 t ∧ (∀ p ∈ t.sched.live, p ∈ s.sched.live) ∧
      ∀ p ∈ t.sched.live, t.contextOf p = s.contextOf p := by
  obtain ⟨d, hnext, rfl⟩ := Option.map_eq_some_iff.mp hd
  have hstacks := (hk.nextProcess hnext).2
  obtain ⟨hpage, hcpu, hrsp⟩ := hk.nextProcess_rsp hnext
  rw [hrun, hr.rspOf] at hcpu hrsp
  have hsub : ∀ p ∈ s.sched.live.diff d.destroyed, p ∈ s.sched.live := fun p hp =>
    List.diff_subset _ _ hp
  have hend : ∀ p, d.k.stackPageOf p = s.stackEnd p := congrFun (hpage.trans hr.stackPageOf)
  obtain ⟨hinv, hkeep⟩ := resumed (update s.sched.k.rspOf s.running (saveContext s.cpu s.mem).sp)
    hstacks (fun p _ => hend p)
    (fun p hp => h.parked_handler left (hsub p hp)) (fun p _ => hrsp p) rfl
  rw [← hcpu] at hinv hkeep
  exact ⟨hinv, hsub, hkeep⟩

/-- `_irq00Handler` -/
theorem tick (h : MachineInv n0 p0 s) {woken : List Addr} {left : Leftover}
    (hd : s.dispatch (applyCalls s.sched.k (woken.map fun p => (.unblock, p))) fuel left = some t) :
    MachineInv n0 p0 t ∧ (∀ p ∈ t.sched.live, p ∈ s.sched.live) ∧
      ∀ p ∈ t.sched.live, t.contextOf p = s.contextOf p := by
  obtain ⟨hk, hr, hcur⟩ := applyCalls_spec (woken.map fun p => (.unblock, p)) h.scheduled fun n _ => by
    rw [← List.map_take]
    exact dispatchable_wake _ h.scheduled.ready
  exact h.dispatch hk hcur hr hd

theorem yield (h : MachineInv n0 p0 s) {left : Leftover}
    (hd : s.dispatch s.sched.k.yieldQuantum fuel left = some t) :
    MachineInv n0 p0 t ∧ (∀ p ∈ t.sched.live, p ∈ s.sched.live) ∧
      ∀ p ∈ t.sched.live, t.contextOf p = s.contextOf p := by
  have hcur : s.sched.k.yieldQuantum.getCurrentProcess = s.running :=
    congrFun s.sched.k.procOf_yieldQuantum s.sched.k.current
  exact h.dispatch h.scheduled.yieldQuantum hcur (reaped_yieldQuantum s.sched.k) hd

/-- The other handlers resume the process they interrupted. -/
theorem irq (h : MachineInv n0 p0 s) {calls : List (StatusCall × Addr)} {left : Leftover}
    (hready : ∀ n ≤ calls.length, (applyCalls s.sched.k (calls.take n)).Dispatchable n0)
    (ht : t =
      { sched := ⟨applyCalls s.sched.k calls, s.sched.live⟩
        cpu := changeProcess left.regs (s.handlerMem left) (saveContext s.cpu s.mem).sp
        mem := s.handlerMem left }) :
    MachineInv n0 p0 t ∧ t.running = s.running ∧ ∀ p ∈ t.sched.live, t.contextOf p = s.contextOf p := by
  obtain ⟨hk, hr, hcur⟩ := applyCalls_spec calls h.scheduled hready
  subst ht
  have hrun : (applyCalls s.sched.k calls).getCurrentProcess = s.running := hcur
  have hrsp : ∀ p, p ≠ (applyCalls s.sched.k calls).getCurrentProcess →
      (applyCalls s.sched.k calls).rspOf p =
        update s.sched.k.rspOf s.running (saveContext s.cpu s.mem).sp p := by
    intro p hp
    rw [hrun] at hp
    rw [update_of_ne hp, hr.rspOf]
  obtain ⟨hinv, hkeep⟩ := resumed (update s.sched.k.rspOf s.running (saveContext s.cpu s.mem).sp)
    hk (fun p _ => congrFun hr.stackPageOf p)
    (fun p hp => h.parked_handler left hp) (fun p _ => hrsp p) rfl
  rw [hrun, update_self] at hinv hkeep
  exact ⟨hinv, hrun, hkeep⟩

/-- The running process ends, and its stack is not needed any more. -/
theorem finish (h : MachineInv n0 p0 s) (hne : s.running ≠ p0) {left : Leftover}
    (hd : s.sched.k.endProcess fuel = some (ps, k'))
    (hmem : ∀ i, i < s.stackStart s.running ∨ s.stackEnd s.running ≤ i → mem' i = s.mem i)
    (ht : t =
      { sched := ⟨k', s.sched.live.diff ps⟩
        cpu := changeProcess left.regs mem' (k'.getRspProcess k'.getCurrentProcess)
        mem := mem' }) :
    MachineInv n0 p0 t ∧ (∀ p ∈ t.sched.live, p ∈ s.sched.live) ∧
      ∀ p ∈ t.sched.live, t.contextOf p = s.contextOf p := by
  obtain ⟨hperm, hstacks⟩ := h.scheduled.endProcess hne hd
  obtain ⟨hrunning, hnull⟩ := hstacks.1.running_mem
  have hsub : ∀ p ∈ s.sched.live.diff ps, p ∈ s.sched.live := fun p hp => List.diff_subset _ _ hp
  have hgone : s.running ∈ ps := by
    obtain ⟨⟨ps', k₁⟩, -, he⟩ := Option.map_eq_some_iff.mp hd
    cases he
    exact List.mem_cons_self
  have hother : ∀ p ∈ s.sched.live.diff ps, p ≠ s.running := by
    rintro p hp rfl
    have hnodup := hperm.nodup_iff.mpr h.scheduled.nodup_live
    exact (List.nodup_append.mp hnodup).2.2 _ hgone _ hp rfl
  have hr := reaped_endProcess ((h.scheduled.1.running_mem).2 _ h.running_live) hd
  have hcpu : k'.getRspProcess k'.getCurrentProcess = s.sched.k.rspOf k'.getCurrentProcess := by
    rw [getRspProcess, if_pos (hnull _ hrunning), ← hr.rspOf]
    rfl
  rw [hcpu] at ht
  obtain ⟨hinv, hkeep⟩ := resumed s.sched.k.rspOf hstacks (fun p _ => congrFun hr.stackPageOf p)
    (fun p hp => h.parked_of_outside (hsub p hp) (hother p hp) hmem)
    (fun p _ _ => congrFun hr.rspOf p) ht
  subst ht
  exact ⟨hinv, hsub, hkeep⟩

/-- The running process computes, and the others do not see it. -/
theorem compute (h : MachineInv n0 p0 s) {cpu : Cpu} (hroom : s.Room cpu.rsp.toNat)
    (hin : ∀ i, s.stackStart s.running ≤ i → i < s.stackEnd s.running → mem' i = m i)
    (hout : ∀ i, i < s.stackStart s.running ∨ s.stackEnd s.running ≤ i → mem' i = s.mem i)
    (ht : t = ⟨s.sched, cpu, mem'⟩) :
    MachineInv n0 p0 t ∧
      t.contextOf s.running = ⟨cpu, bytes m cpu.rsp.toNat (s.stackEnd s.running)⟩ ∧
      ∀ p ∈ s.sched.live, p ≠ s.running → t.contextOf p = s.contextOf p := by
  subst ht
  refine ⟨⟨h.scheduled, hroom, fun p hp hne => ⟨s.cpuOf p, ?_⟩⟩, ?_, fun p hp hne => ?_⟩
  · exact (h.parked_of_outside hp hne hout).1
  · have hlow := hroom.1
    have hstack : bytes mem' cpu.rsp.toNat (s.stackEnd s.running) =
        bytes m cpu.rsp.toNat (s.stackEnd s.running) :=
      bytes_congr fun i hge hlt => hin i (by omega) hlt
    have hcpu : cpuOf ⟨s.sched, cpu, mem'⟩ s.running = cpu := cpuOf_running rfl
    rw [contextOf, hcpu]
    exact congrArg (Context.mk cpu) hstack
  · obtain ⟨hpark, hstack⟩ := h.parked_of_outside hp hne hout
    have hcpu : cpuOf ⟨s.sched, cpu, mem'⟩ p = s.cpuOf p :=
      (cpuOf_of_ne (s := ⟨s.sched, cpu, mem'⟩) hne).trans (hpark.resume (h.scheduled.2.mem hp))
    rw [contextOf, hcpu]
    exact congrArg (Context.mk (s.cpuOf p)) hstack

/-- The kernel changes, but neither a stack nor the running process. -/
theorem silent (h : MachineInv n0 p0 s) (hk : StackInv n0 p0 ⟨k, s.sched.live⟩)
    (hrun : k.getCurrentProcess = s.running) (hr : Reaped s.sched.k [] k)
    (ht : t = ⟨⟨k, s.sched.live⟩, s.cpu, s.mem⟩) :
    MachineInv n0 p0 t ∧ ∀ p, t.contextOf p = s.contextOf p := by
  have htrun : t.running = s.running := by
    subst ht
    exact hrun
  have hend : ∀ p, t.stackEnd p = s.stackEnd p := by
    subst ht
    exact congrFun hr.stackPageOf
  have hrsp : ∀ p, t.sched.k.rspOf p = s.sched.k.rspOf p := by
    subst ht
    exact congrFun hr.rspOf
  have hcpu : t.cpu = s.cpu := by rw [ht]
  have hmem : t.mem = s.mem := by rw [ht]
  have hcpuOf : ∀ p, t.cpuOf p = s.cpuOf p := by
    intro p
    rw [cpuOf, cpuOf, htrun, hcpu, hmem, hrsp]
  constructor
  · refine ⟨by rw [ht]; exact hk, ?_, fun p hp hne => ?_⟩
    · have hroom := h.room
      unfold Room stackStart at hroom ⊢
      rw [hend, htrun, hcpu]
      exact hroom
    · rw [htrun] at hne
      rw [hmem, hrsp, hend]
      exact h.parked p (by rw [ht] at hp; exact hp) hne
  · intro p
    rw [contextOf, hcpuOf, hend, hmem, contextOf]

end MachineInv

/-- The word `base` of a new stack. -/
theorem bytes_base {rip params : BitVec 64} (hpage : page ∈ stackPages) :
    bytes (writeFrame mem rip.toNat page params.toNat) (page - 8) page = List.replicate 8 0 := by
  obtain ⟨hle, hlt⟩ := stackPage_between hpage
  have hsize : stackPageSize = 0x100000 := rfl
  have hlt64 : page < 2 ^ 64 := by omega
  obtain ⟨-, hload, -⟩ := writeFrame_spec mem rip params (by omega) hlt64
  have hlen : page - (page - 8) = 8 := by omega
  refine List.eq_replicate_iff.mpr ⟨?_, fun x hx => ?_⟩
  · rw [bytes, List.length_map, List.length_range', hlen]
  · obtain ⟨i, hi, rfl⟩ := List.mem_map.mp hx
    obtain ⟨hge, hlt'⟩ := List.mem_range'_1.mp hi
    have hbyte : UInt8.ofNat (ByteMemory.load (writeFrame mem rip.toNat page params.toNat)
        (page - 8) 8 / 256 ^ (i - (page - 8))) =
          writeFrame mem rip.toNat page params.toNat (page - 8 + (i - (page - 8))) :=
      ByteMemory.load_byte (by omega)
    rw [hload, Nat.zero_div, Nat.add_sub_cancel' hge] at hbyte
    exact hbyte.symm

namespace MachineInv

/-- The running process creates a process, which is parked at its start. -/
theorem exec (h : MachineInv n0 p0 s) {rip params : BitVec 64} {name : CString}
    (hd : s.sched.k.sysExec rip.toNat name = some (p, k'))
    (ht : t = ⟨⟨k', p :: s.sched.live⟩, s.cpu,
      writeFrame s.mem rip.toNat (k'.stackPageOf p) params.toNat⟩) :
    MachineInv n0 p0 t ∧ t.running = s.running ∧ p ∉ s.sched.live ∧
      t.contextOf p = ⟨Cpu.start rip params (t.stackEnd p), List.replicate 8 0⟩ ∧
      ∀ q ∈ s.sched.live, t.contextOf q = s.contextOf q := by
  obtain ⟨hfresh, -, (page : Nat), htakes, hmem, hown, hnew⟩ := h.scheduled.exec hd
  have hsched : StackInv n0 p0 ⟨k', p :: s.sched.live⟩ := ⟨h.scheduled.1.exec hd, hnew⟩
  have hpage : k'.stackPageOf p = page := by rw [htakes.stackPageOf, update_self]
  obtain ⟨mem', hmem'⟩ : ∃ m, m = writeFrame s.mem rip.toNat page params.toNat := ⟨_, rfl⟩
  rw [hpage, ← hmem'] at ht
  have hrun : t.running = s.running := by
    rw [ht]
    exact h.scheduled.exec_current hd
  have hcpu : t.cpu = s.cpu := by rw [ht]
  have htmem : t.mem = mem' := by rw [ht]
  have hne : ∀ q ∈ s.sched.live, q ≠ p := by
    rintro q hq rfl
    exact hfresh hq
  have hend : ∀ q ∈ s.sched.live, t.stackEnd q = s.stackEnd q := by
    intro q hq
    rw [ht]
    exact (congrFun htakes.stackPageOf q).trans (update_of_ne (hne q hq) _ _)
  have hrsp : ∀ q ∈ s.sched.live, t.sched.k.rspOf q = s.sched.k.rspOf q := by
    intro q hq
    rw [ht]
    exact (congrFun htakes.rspOf q).trans (update_of_ne (hne q hq) _ _)
  -- the frame is on the new stack
  have hsame : ∀ q ∈ s.sched.live, ∀ i, s.stackEnd q - stackPageSize ≤ i → i < s.stackEnd q →
      mem' i = s.mem i := by
    intro q hq i hge hlt
    have hpages : s.stackEnd q ≠ page := by
      rintro rfl
      exact hown (List.mem_map_of_mem hq)
    rw [hmem']
    exact writeFrame_other hmem (h.scheduled.2.mem hq) hpages hge hlt
  have hparked : ∀ q ∈ s.sched.live, q ≠ s.running →
      Parked mem' (s.sched.k.rspOf q) (s.stackEnd q) (s.cpuOf q) := fun q hq hq' =>
    (h.cpuOf_parked hq hq').congr (hsame q hq)
  have hstart : Parked mem' (fillStack page) page (Cpu.start rip params page) := by
    rw [hmem']
    exact .of_writeFrame hmem
  have hcpuOf : ∀ q ∈ s.sched.live, t.cpuOf q = s.cpuOf q := by
    intro q hq
    by_cases hq' : q = s.running
    · rw [cpuOf_running (hq'.trans hrun.symm), cpuOf_running hq', hcpu]
    · rw [cpuOf_of_ne (fun he => hq' (he.trans hrun)), htmem, hrsp q hq]
      exact (hparked q hq hq').resume (h.scheduled.2.mem hq)
  have hendp : t.stackEnd p = page := by
    rw [ht]
    exact hpage
  have hfill : t.sched.k.rspOf p = fillStack page := by
    rw [ht]
    exact (congrFun htakes.rspOf p).trans (update_self _ _ _)
  have hcpup : t.cpuOf p = Cpu.start rip params page := by
    have hp : p ≠ t.running := fun he => hfresh (he.trans hrun ▸ h.running_live)
    rw [cpuOf_of_ne hp, htmem, hfill]
    exact hstart.resume hmem
  refine ⟨⟨by rw [ht]; exact hsched, ?_, fun q hq hq' => ?_⟩, hrun, hfresh, ?_, fun q hq => ?_⟩
  · have hroom := h.room
    unfold Room stackStart at hroom ⊢
    rw [hrun, hend _ h.running_live, hcpu]
    exact hroom
  · have hcases : q = p ∨ q ∈ s.sched.live := by
      rw [ht] at hq
      exact List.mem_cons.mp hq
    rcases hcases with rfl | hq
    · rw [htmem, hfill, hendp]
      exact ⟨_, hstart⟩
    · rw [htmem, hrsp q hq, hend q hq]
      exact ⟨_, hparked q hq (hrun ▸ hq')⟩
  · rw [contextOf, hcpup, hendp, htmem, hmem', start_rsp rip params hmem, bytes_base hmem]
  · have hlow := h.start_le hq
    have hstack : bytes mem' (s.cpuOf q).rsp.toNat (s.stackEnd q) = (s.contextOf q).stack :=
      bytes_congr fun i hge hlt => hsame q hq i (hlow.trans hge) hlt
    rw [contextOf, hcpuOf q hq, hend q hq, htmem, hstack]
    rfl

end MachineInv

/-! ## Runs -/

theorem machineInv_of_init (h : (machine n0 p0).init s) : MachineInv n0 p0 s := by
  obtain ⟨k, rip, params, name, regs, mem, hstart, hexec, hcur, hpid, hlive, hmem, hcpu⟩ := h
  obtain ⟨(page : Nat), htakes, hpage, hstacks⟩ := hstart.sysExec_stacks hexec
  have hsched : StackInv n0 p0 s.sched := stackInv_of_init ⟨k, rip.toNat, name, hstart, hexec, hcur,
    hpid, hlive⟩
  have hrun : s.running = p0 := by
    have hrunning := hsched.1.running_mem.1
    rw [hlive] at hrunning
    exact List.mem_singleton.mp hrunning
  have hend : s.sched.k.stackPageOf p0 = page := by rw [htakes.stackPageOf, update_self]
  have hrsp : s.sched.k.rspOf p0 = fillStack page := by rw [htakes.rspOf, update_self]
  have hstart : Parked s.mem (fillStack page) page (Cpu.start rip params page) := by
    rw [hmem, hend]
    exact .of_writeFrame hpage
  refine ⟨hsched, ?_, fun p hp hne => ?_⟩
  · rw [hrsp, hstart.resume hpage] at hcpu
    have hroom := hstart.room
    have hle := hstart.end_le
    unfold Room stackStart stackEnd
    rw [hrun, hend, hcpu]
    exact ⟨hroom, hle⟩
  · rw [hlive] at hp
    exact absurd ((List.mem_singleton.mp hp).trans hrun.symm) hne

/-- What the processes see of a step is an event of the machine in which each has
a processor of its own. -/
theorem MachineInv.next {a : Action} (h : MachineInv n0 p0 s)
    (hn : (machine n0 p0).next s a = some t) :
    MachineInv n0 p0 t ∧ Processors.step s.view (event s a t) = some t.view := by
  cases a with
  | compute cpu mem =>
      obtain ⟨hroom, ht⟩ := Option.ite_none_right_eq_some.mp hn
      have ht := (Option.some.inj ht).symm
      obtain ⟨hinv, hself, hother⟩ := h.compute (m := mem) hroom
        (fun i hge hlt => scribble_inside ⟨hge, hlt⟩) (fun i hi => scribble_outside hi) ht
      refine ⟨hinv, ?_⟩
      have hlive : t.sched.live = s.sched.live := by rw [ht]
      have hself' : t.view.context s.running = some (t.contextOf s.running) :=
        context_of_live (hlive ▸ h.running_live)
      rw [event, ← hself, Processors.step, if_pos (by simp [view, h.running_live])]
      refine congrArg some (Processors.ext (by rw [ht]; rfl) (funext fun p => ?_))
      show update s.view.context s.running (some (t.contextOf s.running)) p = t.view.context p
      by_cases hp : p = s.running
      · rw [hp, update_self, hself']
      · rw [update_of_ne hp]
        by_cases hmem : p ∈ s.sched.live
        · rw [context_of_live hmem, context_of_live (hlive ▸ hmem), hother p hmem hp]
        · rw [context_of_dead hmem, context_of_dead (hlive ▸ hmem)]
  | tick woken fuel left =>
      obtain ⟨hinv, hsub, hkeep⟩ := h.tick hn
      exact ⟨hinv, step_switch hinv.running_live hsub hkeep⟩
  | yield fuel left =>
      obtain ⟨hinv, hsub, hkeep⟩ := h.yield hn
      exact ⟨hinv, step_switch hinv.running_live hsub hkeep⟩
  | irq calls left =>
      obtain ⟨hready, ht⟩ := Option.ite_none_right_eq_some.mp hn
      have ht := (Option.some.inj ht).symm
      obtain ⟨hinv, hrun, hkeep⟩ := h.irq hready ht
      exact ⟨hinv, step_idle hrun (by rw [ht]) hkeep⟩
  | status call p =>
      obtain ⟨hready, ht⟩ := Option.ite_none_right_eq_some.mp hn
      have ht := (Option.some.inj ht).symm
      obtain ⟨hinv, hkeep⟩ := h.silent (h.scheduled.applyStatus hready) rfl
        (reaped_applyStatus s.sched.k call p) ht
      exact ⟨hinv, step_idle (by rw [ht]; rfl) (by rw [ht]) fun p _ => hkeep p⟩
  | exec rip params name =>
      obtain ⟨⟨p, k'⟩, hd, ht⟩ := Option.map_eq_some_iff.mp hn
      have ht := ht.symm
      obtain ⟨hinv, hrun, hfresh, hself, hother⟩ := h.exec hd ht
      have hlive : t.sched.live = p :: s.sched.live := by rw [ht]
      have hhead : t.sched.live.headD null = p := by rw [hlive, List.headD_cons]
      refine ⟨hinv, ?_⟩
      rw [event, hhead, ← hself, Processors.step, if_pos (by simp [view, hfresh])]
      refine congrArg some (Processors.ext hrun.symm (funext fun q => ?_))
      show update s.view.context p (some (t.contextOf p)) q = t.view.context q
      have hiff : q ∈ t.sched.live ↔ q = p ∨ q ∈ s.sched.live := by rw [hlive, List.mem_cons]
      by_cases hq : q = p
      · rw [hq, update_self, context_of_live (hlive ▸ List.mem_cons_self)]
      · rw [update_of_ne hq]
        by_cases hmem : q ∈ s.sched.live
        · rw [context_of_live hmem, context_of_live (hiff.mpr (Or.inr hmem)), hother q hmem]
        · rw [context_of_dead hmem, context_of_dead fun hm => (hiff.mp hm).elim hq hmem]
  | finish fuel left =>
      obtain ⟨hne, hd⟩ := Option.ite_none_right_eq_some.mp hn
      obtain ⟨⟨ps, k'⟩, hd, ht⟩ := Option.map_eq_some_iff.mp hd
      obtain ⟨hinv, hsub, hkeep⟩ := h.finish hne hd (fun i hi => scribble_outside hi) ht.symm
      exact ⟨hinv, step_switch hinv.running_live hsub hkeep⟩

theorem machineInv_of_reach (h : (machine n0 p0).Reach s) : MachineInv n0 p0 s :=
  h.invariant (fun _ => machineInv_of_init) fun _ _ _ hi _ hn => (hi.next hn).1

/-- The machine shares its processor. -/
theorem machine_shares (n0 p0 : Addr) : Processors.Shares (machine n0 p0) view event :=
  fun _ _ _ hs hn => ((machineInv_of_reach hs).next hn).2

/-- Every step of every run is, for the processes, a step of a machine on which
each of them has a processor and a stack of its own. -/
theorem processes_share_processor {a : Action} (hs : (machine n0 p0).Reach s)
    (hn : (machine n0 p0).next s a = some t) :
    Processors.step s.view (event s a t) = some t.view :=
  machine_shares n0 p0 hs hn

/-- While it is alive, `p` does not compute: it waits, it is interrupted, or it
calls the kernel. -/
def Rests (p : Addr) (s : Machine) (a : Action) : Prop :=
  p ∈ s.sched.live ∧ (s.running = p → ∀ cpu mem, a ≠ .compute cpu mem)

/-- The runs of the machine that start in `s`. -/
def machineFrom (n0 p0 : Addr) (s : Machine) : System Machine Action :=
  { machine n0 p0 with init := fun u => u = s }

theorem from_self {G : Machine → Action → Prop} : (machineFrom n0 p0 s).ReachBy G s := .init rfl

theorem from_step {G : Machine → Action → Prop} {u : Machine} {a : Action}
    (h : (machineFrom n0 p0 s).ReachBy G t) (hg : G t a)
    (hn : (machine n0 p0).next t a = some u) : (machineFrom n0 p0 s).ReachBy G u := .step h hg hn

theorem reach_of_from {G : Machine → Action → Prop} (hs : (machine n0 p0).Reach s)
    (h : (machineFrom n0 p0 s).ReachBy G t) : (machine n0 p0).Reach t := by
  refine h.invariant ?_ fun _ _ _ hu _ hn => hu.next hn
  rintro u rfl
  exact hs

theorem event_compute {a : Action} {c : Context} (h : event s a t = .compute c) :
    ∃ cpu mem, a = .compute cpu mem ∧
      c = ⟨cpu, bytes mem cpu.rsp.toNat (s.stackEnd s.running)⟩ := by
  cases a with
  | compute cpu mem =>
      cases h
      exact ⟨cpu, mem, rfl, rfl⟩
  | tick woken fuel left => cases h
  | yield fuel left => cases h
  | irq calls left => cases h
  | status call p => cases h
  | exec rip params name => cases h
  | finish fuel left => cases h

theorem contextOf_rests (hs : (machine n0 p0).Reach s)
    (hrun : (machineFrom n0 p0 s).ReachBy (Rests p) t) (hp : p ∈ t.sched.live) :
    t.contextOf p = s.contextOf p := by
  have hquiet : System.ReachBy { machine n0 p0 with init := fun u => u = s } (fun u a =>
      (u.view.context p).isSome ∧ (u.view.running = p → ∀ v c,
        (machine n0 p0).next u a = some v → event u a v ≠ .compute c)) t := by
    refine hrun.mono fun u a hrests => ⟨?_, fun hrunning v c _ he => ?_⟩
    · rw [context_of_live hrests.1]
      rfl
    · obtain ⟨cpu, mem, ha, -⟩ := event_compute he
      exact hrests.2 hrunning cpu mem ha
  have hkeep := (machine_shares n0 p0).context_eq hs hquiet (by rw [context_of_live hp]; rfl)
  rw [context_of_live hp] at hkeep
  by_cases hlive : p ∈ s.sched.live
  · rw [context_of_live hlive] at hkeep
    exact Option.some.inj hkeep
  · rw [context_of_dead hlive] at hkeep
    cases hkeep

/-- A process that rests keeps its registers, its flags and its stack, whatever
the other processes and the interrupts do.  When it runs again, the processor is
as it left it. -/
theorem context_kept (hs : (machine n0 p0).Reach s)
    (hrun : (machineFrom n0 p0 s).ReachBy (Rests p) t) (hp : p ∈ t.sched.live) :
    t.contextOf p = s.contextOf p ∧ (s.running = p → t.running = p → t.cpu = s.cpu) := by
  have hkeep := contextOf_rests hs hrun hp
  refine ⟨hkeep, fun hs' ht' => ?_⟩
  have hcpu : t.cpuOf p = s.cpuOf p := congrArg Context.cpu hkeep
  rwa [cpuOf_running hs'.symm, cpuOf_running ht'.symm] at hcpu

/-- Whenever a process runs for the first time, it is at its entry point with its
parameter in `rdi`, interrupts are enabled, and its stack is its own and empty but
for the word `base`. -/
theorem process_starts {u : Machine} {rip params : BitVec 64} {name : CString}
    (hs : (machine n0 p0).Reach s) (hexec : (machine n0 p0).next s (.exec rip params name) = some u)
    (hp : p = u.sched.live.headD null) (hrun : (machineFrom n0 p0 u).ReachBy (Rests p) t)
    (ht : t.running = p) :
    t.cpu = Cpu.start rip params (u.stackEnd p) ∧
      bytes t.mem t.cpu.rsp.toNat (t.stackEnd p) = List.replicate 8 0 ∧
      u.stackEnd p ∈ stackPages ∧ ∀ q ∈ u.sched.live, u.stackEnd q = u.stackEnd p → q = p := by
  have hreach : (machine n0 p0).Reach u := hs.next hexec
  have hu := machineInv_of_reach hreach
  obtain ⟨⟨p', k'⟩, hd, he⟩ := Option.map_eq_some_iff.mp hexec
  obtain ⟨-, -, -, hself, -⟩ := (machineInv_of_reach hs).exec hd he.symm
  have hlive : u.sched.live = p' :: s.sched.live := by rw [← he]
  obtain rfl : p = p' := by rw [hp, hlive, List.headD_cons]
  have hmem : p ∈ u.sched.live := by
    rw [hlive]
    exact List.mem_cons_self
  have htlive : p ∈ t.sched.live :=
    ht ▸ (machineInv_of_reach (reach_of_from hreach hrun)).running_live
  have hkeep := contextOf_rests hreach hrun htlive
  rw [hself, contextOf, cpuOf_running ht.symm] at hkeep
  injection hkeep with hcpu hstack
  refine ⟨hcpu, hstack, hu.scheduled.2.mem hmem, fun q hq hend => ?_⟩
  exact hu.scheduled.2.inj hq hmem hend

/-! ## A run -/

/-- The memory with the frame of `init`. -/
def firstMem : Nat → UInt8 :=
  writeFrame (fun _ => 0) initEntry.toNat (firstStarted.2.stackPageOf firstStarted.1)
    (0 : BitVec 64).toNat

/-- `init` runs. -/
def firstMachine : Machine where
  sched := ⟨firstStarted.2, [firstStarted.1]⟩
  cpu := changeProcess (newRegs 0) firstMem (firstStarted.2.rspOf firstStarted.1)
  mem := firstMem

/-- The machine of `firstMachine`. -/
abbrev firstSystem : System Machine Action := machine firstStarted.2.current firstStarted.1

theorem init_firstMachine : firstSystem.init firstMachine := by
  refine ⟨startKernel, initEntry, 0, .nil, newRegs 0, fun _ => 0, started_startKernel,
    (Option.some_get sysExec_startKernel).symm, rfl, ?_, rfl, ?_, ?_⟩
  · decide +kernel
  · simp only [firstMachine, firstMem]
  · simp only [firstMachine]

/-- A tick that wakes nobody. -/
def bareTick : Action := .tick [] 2 ⟨newRegs 0, fun _ => 0⟩

theorem some_created : (firstSystem.next firstMachine (.exec 0x500000 7 .nil)).isSome := by
  decide +kernel

/-- `init` has created a process and still runs. -/
def created : Machine := (firstSystem.next firstMachine (.exec 0x500000 7 .nil)).get some_created

theorem next_created : firstSystem.next firstMachine (.exec 0x500000 7 .nil) = some created :=
  (Option.some_get some_created).symm

theorem some_switched : (firstSystem.next created bareTick).isSome := by decide +kernel

/-- After a tick the new process runs. -/
def switched : Machine := (firstSystem.next created bareTick).get some_switched

theorem next_switched : firstSystem.next created bareTick = some switched :=
  (Option.some_get some_switched).symm

theorem some_returned : (firstSystem.next switched bareTick).isSome := by decide +kernel

/-- After another tick `init` runs again. -/
def returned : Machine := (firstSystem.next switched bareTick).get some_returned

theorem next_returned : firstSystem.next switched bareTick = some returned :=
  (Option.some_get some_returned).symm

theorem reach_first : firstSystem.Reach firstMachine := .start init_firstMachine

theorem processes_share_processor_switched :
    Processors.step created.view (event created bareTick switched) = some switched.view :=
  processes_share_processor (reach_first.next next_created) next_switched

theorem rests_bareTick (h : p ∈ s.sched.live) : Rests p s bareTick := by
  refine ⟨h, fun _ cpu mem he => ?_⟩
  cases he

theorem live_created : firstStarted.1 ∈ created.sched.live := by decide +kernel

theorem live_switched : firstStarted.1 ∈ switched.sched.live := by decide +kernel

theorem live_returned : firstStarted.1 ∈ returned.sched.live := by decide +kernel

theorem reach_returned : (machineFrom firstStarted.2.current firstStarted.1 created).ReachBy
    (Rests firstStarted.1) returned :=
  from_step (from_step from_self (rests_bareTick live_created) next_switched)
    (rests_bareTick live_switched) next_returned

theorem context_kept_returned : returned.contextOf firstStarted.1 = created.contextOf firstStarted.1 ∧
    (created.running = firstStarted.1 → returned.running = firstStarted.1 →
      returned.cpu = created.cpu) :=
  context_kept (reach_first.next next_created) reach_returned live_returned

/-- `init` runs in `created` and in `returned`. -/
example : created.running = firstStarted.1 ∧ returned.running = firstStarted.1 := by
  decide +kernel

theorem head_created : switched.running = created.sched.live.headD null := by decide +kernel

theorem live_running : switched.running ∈ created.sched.live := by decide +kernel

theorem reach_switched : (machineFrom firstStarted.2.current firstStarted.1 created).ReachBy
    (Rests switched.running) switched :=
  from_step from_self (rests_bareTick live_running) next_switched

theorem process_starts_switched :
    switched.cpu = Cpu.start 0x500000 7 (created.stackEnd switched.running) ∧
    bytes switched.mem switched.cpu.rsp.toNat (switched.stackEnd switched.running) =
      List.replicate 8 0 ∧
    created.stackEnd switched.running ∈ stackPages ∧
    ∀ q ∈ created.sched.live, created.stackEnd q = created.stackEnd switched.running →
      q = switched.running :=
  process_starts reach_first next_created head_created reach_switched rfl

end Machine

end TPE
