import TPE.Kernel.InterruptCalls

/-!
# What the superlock covers

`mutex_lock`, `mutex_unlock` and `end_process` set the superlock, so that no tick
takes the processor away, and clear it at their end.  The superlock is a flag and
does not count: a call inside that locks or unlocks a mutex clears it as well,
and the rest of the section is not covered.
-/

namespace TPE

open Function

namespace Kernel

open Call

variable {k k' : Kernel} {key : Int} {p : Addr}

/-! ## Covered sections -/

/-- `next_process` goes on with the running process. -/
def NoSwitch (k : Kernel) : Prop :=
  ∀ (c : MutexCalls) (fuel currentRsp : Nat), ∃ k',
    Returns calm (nextProcessCall c fuel currentRsp) k (currentRsp, false, []) k' ∧
      k'.current = k.current

/-- No sleeping process wakes up with the next tick. -/
def NoneDue (k : Kernel) : Prop :=
  ∃ l, k.SleepList k.sleepingProcesses l ∧ ∀ a ∈ l, ¬k.Due a

/-- A timer tick goes on with the running process. -/
def NoSwitchOnTick (k : Kernel) : Prop :=
  ∀ (c : MutexCalls) (fuel currentRsp : Nat) r k',
    Returns anyhow (irq0Call c fuel currentRsp) k r k' → r.2.1 = false ∧ k'.current = k.current

/-- From the `set_superlock` in front of the section to its end the superlock is
set, `next_process` does not switch, and no tick that wakes nobody up does. -/
def Atomic {α : Type} (section' : Nat → KernelCall α) (k : Kernel) : Prop :=
  ∀ depth, ∀ x ∈ (section' depth { k with superlock := .locked }).log,
    x.2.superlock = .locked ∧ x.2.NoSwitch ∧ (x.2.NoneDue → x.2.NoSwitchOnTick)

theorem noSwitch_of_held (h : k.superlock = .locked) : k.NoSwitch := by
  intro c fuel currentRsp
  unfold nextProcessCall
  by_cases hnull : k.current = null
  · refine ⟨k, .bind (.read k) ?_, rfl⟩
    rw [if_pos hnull]
    exact .pure _ _
  · by_cases hquantum : 0 < (k.unassignQuantum.nodes k.unassignQuantum.current).quantum
    · refine ⟨k.unassignQuantum, .bind (.read k) ?_, rfl⟩
      rw [if_neg hnull]
      refine .bind (.act trivial) (.bind (.read _) ?_)
      rw [if_pos hquantum]
      exact .pure _ _
    · refine ⟨{ k.unassignQuantum with superlock := .locked }, .bind (.read k) ?_, rfl⟩
      rw [if_neg hnull]
      refine .bind (.act trivial) (.bind (.read _) ?_)
      rw [if_neg hquantum]
      refine .bind (.act trivial) ?_
      rw [if_pos (by exact h)]
      exact .pure _ _

/-- A loop of `timer_handler` that wakes nobody up counts the ticks down. -/
theorem timerLoop_notDue (c : MutexCalls) {fuel : Nat} {prev a : Addr} {l : List Addr}
    (hlist : k.SleepList a l) (hnone : ∀ b ∈ l, ¬k.Due b)
    (h : Returns anyhow (timerLoopCall c fuel prev a) k ⟨⟩ k') :
    ∃ sleepNodes, k' = { k with sleepNodes } := by
  induction fuel generalizing k prev a l with
  | zero => cases h.ending
  | succ fuel ih =>
      unfold timerLoopCall at h
      by_cases ha : a = null
      · rw [if_pos ha] at h
        obtain ⟨-, rfl⟩ := (Returns.pure (P := anyhow) (⟨⟩ : PUnit) k).unique h
        exact ⟨_, rfl⟩
      · rw [if_neg ha] at h
        cases l with
        | nil => exact absurd hlist.1 ha
        | cons x l =>
            obtain ⟨⟨rfl, hwalk⟩, hnull⟩ := id hlist
            obtain ⟨-, h⟩ := h.of_act
            have h := h.of_read
            have hdue := hnone a List.mem_cons_self
            rw [if_neg (by exact fun he => hdue (tickNode_due.mp he))] at h
            have hrest : SleepList (k.tickNode a) ((k.tickNode a).sleepNext a) l := by
              refine ⟨?_, fun hm => hnull (List.mem_cons_of_mem _ hm)⟩
              rw [sleepNext_tickNode]
              exact hwalk
            have hnotMem : a ∉ l := (List.nodup_cons.mp (hlist.1.nodup hlist.2)).1
            obtain ⟨sleepNodes, rfl⟩ := ih hrest (fun b hb hb' => by
              have hne : b ≠ a := fun he => hnotMem (he ▸ hb)
              exact hnone b (List.mem_cons_of_mem _ hb) ((due_tickNode hne).mp hb')) h
            exact ⟨sleepNodes, rfl⟩

theorem noSwitchOnTick_of_held (h : k.superlock = .locked) (hnone : k.NoneDue) :
    k.NoSwitchOnTick := by
  intro c fuel currentRsp r k' hr
  obtain ⟨l, hlist, hnone⟩ := hnone
  obtain ⟨_, k₁, htimer, hnext⟩ := hr.of_bind
  obtain ⟨sleepNodes, rfl⟩ := timerLoop_notDue c hlist hnone htimer.of_read
  obtain ⟨k₂, hsame, hcurrent⟩ := noSwitch_of_held (k := { k with sleepNodes }) h c fuel currentRsp
  obtain ⟨rfl, rfl⟩ := hsame.unique hnext
  exact ⟨rfl, hcurrent⟩

variable {α : Type} {c : Nat → KernelCall α}

theorem Atomic.of_held
    (h : ∀ depth, ∀ x ∈ (c depth { k with superlock := .locked }).log, x.2.superlock = .locked) :
    Atomic c k :=
  fun depth x hx => ⟨h depth x hx, noSwitch_of_held (h depth x hx),
    noSwitchOnTick_of_held (h depth x hx)⟩

/-- The superlock is not set. -/
abbrev unheld (_ : CallStep) (k : Kernel) : Prop := k.superlock = .unlocked

theorem Atomic.not_logs (h : Atomic c k) (depth : Nat) :
    ¬Logs unheld (c depth) { k with superlock := .locked } := by
  rintro ⟨x, hx, hfree⟩
  have hheld := (h depth x hx).1
  rw [hfree] at hheld
  cases hheld

/-! ## Where a section loses the superlock -/

/-- A `mutex_lock` that gets to its own end clears the superlock. -/
theorem mutexLock_unheld {c : MutexCalls} {b : Bool} (hopen : k.mutexIsOpen key)
    (h : Returns anyhow (lockSection c key) { k with superlock := .locked } b k') :
    Logs unheld (mutexLockBody c key) k := by
  refine .right (.read (P := anyhow) k) ?_
  rw [if_pos hopen]
  exact .right (.act (P := anyhow) trivial) (.right h (.left (.act rfl)))

/-- A taken mutex without a queue: the process is blocked and not queued. -/
theorem lockSection_noQueue {c : MutexCalls} {P : CallStep → Kernel → Prop}
    (hP : ∀ e k, held e k → P e k) (htaken : (k.openMutexes key).locked = .locked)
    (hnull : (k.openMutexes key).processQueue = null) :
    ∃ k', Returns P (lockSection c key) { k with superlock := .locked } true k' := by
  refine ⟨{ k with
    superlock := .locked, processes := Procs.blockProcess k.processes k.getCurrentProcess },
    .bind (.read _) (.bind (a := ⟨⟩) (t := { k with superlock := .locked }) ?_ ?_)⟩
  · have hwrite := Returns.act (P := P) (e := CallStep.write)
      (g := fun k : Kernel => k.writeMutex key fun m => { m with locked := .locked })
      (s := { k with superlock := .locked }) (hP _ _ rfl)
    rw [writeMutex_taken htaken] at hwrite
    exact hwrite
  · have hqueue : Returns P (enqueueCall c (k.openMutexes key).processQueue k.getCurrentProcess)
        { k with superlock := .locked } ⟨⟩ { k with superlock := .locked } := by
      unfold enqueueCall
      rw [if_pos hnull]
      exact .pure _ _
    rw [if_pos (by exact htaken)]
    exact .bind (.act (hP _ _ rfl)) (.bind hqueue (.bind (.act (hP _ _ rfl)) (.pure _ _)))

/-- A lock of the allocator's mutex clears the superlock, unless it never ends. -/
theorem memoryLock_unheld (depth : Nat) (hopen : k.mutexIsOpen k.memoryMutexKey)
    (hnot : ¬k.MemoryTaken) :
    Logs unheld ((callsAt (depth + 1)).mutexLock k.memoryMutexKey) k := by
  cases hword : (k.openMutexes k.memoryMutexKey).locked with
  | unlocked =>
      exact mutexLock_unheld hopen
        (lockSection_notTaken (k := { k with superlock := .locked }) hword trivial)
  | locked =>
      have hnull : (k.openMutexes k.memoryMutexKey).processQueue = null := by
        by_contra hq
        exact hnot ⟨hopen, hword, hq⟩
      obtain ⟨k', hsection⟩ := lockSection_noQueue (c := callsAt depth) (fun _ _ _ => trivial)
        hword hnull
      exact mutexLock_unheld hopen hsection

/-! ## `mutex_lock` -/

/-- The section of `mutex_lock` is covered: it calls nothing, or nothing in it ends. -/
def LockCovered (k : Kernel) (key : Int) : Prop :=
  (k.openMutexes key).locked = .unlocked ∨ (k.openMutexes key).processQueue = null ∨ k.MemoryTaken

/-- The queueing gets a page, and that clears the superlock. -/
theorem lockSection_unheld (depth : Nat) (hopen : k.mutexIsOpen k.memoryMutexKey)
    (hnot : ¬k.LockCovered key) :
    Logs unheld (lockSection (callsAt (depth + 1)) key) { k with superlock := .locked } := by
  obtain ⟨hword, hnot⟩ := not_or.mp hnot
  obtain ⟨hq, hmemory⟩ := not_or.mp hnot
  have htaken : (k.openMutexes key).locked = .locked := by
    cases he : (k.openMutexes key).locked with
    | locked => rfl
    | unlocked => exact absurd he hword
  refine .right (.read (P := anyhow) _) (.right (.act (P := anyhow) trivial) ?_)
  rw [writeMutex_taken htaken, if_pos (by exact htaken)]
  refine .right (.act (P := anyhow) trivial) (.left ?_)
  unfold enqueueCall
  rw [if_neg (by exact hq)]
  refine .left (.right (.read (P := anyhow) _) (.left ?_))
  exact memoryLock_unheld depth (k := { k with superlock := .locked }) hopen
    fun h => hmemory (h.setSuperlock k.superlock)

theorem lockSection_held (depth : Nat) (h : k.LockCovered key) :
    ∀ x ∈ (lockSection (callsAt depth) key { k with superlock := .locked }).log,
      x.2.superlock = .locked := by
  by_cases hword : (k.openMutexes key).locked = .unlocked
  · exact (lockSection_notTaken (P := held) (k := { k with superlock := .locked }) hword rfl).log
  · have htaken : (k.openMutexes key).locked = .locked := by
      cases he : (k.openMutexes key).locked with
      | locked => rfl
      | unlocked => exact absurd he hword
    by_cases hq : (k.openMutexes key).processQueue = null
    · obtain ⟨k', hsection⟩ := lockSection_noQueue (c := callsAt depth) (fun _ _ hheld => hheld)
        htaken hq
      exact hsection.log
    · have hmemory := (h.resolve_left hword).resolve_left hq
      exact (lockSection_cut (fun _ _ hheld => hheld) htaken hq
        ((hmemory.setSuperlock .locked).getPage depth)).log

theorem lockSection_atomic_iff (hopen : k.mutexIsOpen k.memoryMutexKey) :
    Atomic (fun depth => lockSection (callsAt depth) key) k ↔ k.LockCovered key := by
  constructor
  · intro h
    by_contra hnot
    exact h.not_logs 1 (lockSection_unheld 0 hopen hnot)
  · exact fun h => .of_held fun depth => lockSection_held depth h

/-! ## `mutex_unlock` -/

/-- The section of `mutex_unlock` is covered: nobody waits, or nothing in it ends. -/
def UnlockCovered (k : Kernel) (key : Int) : Prop :=
  k.isEmpty (k.openMutexes key).processQueue ∨ k.MemoryTaken

/-- The page of the node goes back, and that clears the superlock. -/
theorem unlockSection_unheld (depth : Nat) (hopen : k.mutexIsOpen k.memoryMutexKey)
    (hnot : ¬k.UnlockCovered key) :
    Logs unheld (unlockSection (callsAt (depth + 1)) key) { k with superlock := .locked } := by
  obtain ⟨hsome, hmemory⟩ := not_or.mp hnot
  have hdequeue : Logs unheld (dequeueCall (callsAt (depth + 1)) (k.openMutexes key).processQueue)
      { k with superlock := .locked } := by
    refine .right (.read (P := anyhow) _) ?_
    rw [if_neg (by exact hsome)]
    cases hq : k.queues (k.openMutexes key).processQueue with
    | nil => exact absurd (Or.inr hq) hsome
    | cons f rest =>
        simp only
        refine .right (.act (P := anyhow) trivial) (.left (.right (.read (P := anyhow) _) (.left ?_)))
        exact memoryLock_unheld depth
          (k := setQueue { k with superlock := .locked } (k.openMutexes key).processQueue rest)
          hopen fun h => hmemory ⟨h.opened, h.taken, h.header⟩
  exact .right (.read (P := anyhow) _) (.left (.left hdequeue))

theorem unlockSection_held (depth : Nat) (h : k.UnlockCovered key) :
    ∀ x ∈ (unlockSection (callsAt depth) key { k with superlock := .locked }).log,
      x.2.superlock = .locked := by
  by_cases hempty : k.isEmpty (k.openMutexes key).processQueue
  · exact (unlockSection_nobody (P := held) (k := { k with superlock := .locked }) hempty rfl).log
  · have hmemory := h.resolve_left hempty
    refine (unlockSection_cut (fun _ _ hheld => hheld) hempty fun page => ?_).log
    have htaken : MemoryTaken (setQueue { k with superlock := .locked }
        (k.openMutexes key).processQueue
        (k.queues (k.openMutexes key).processQueue).tail) :=
      ⟨hmemory.opened, hmemory.taken, hmemory.header⟩
    exact htaken.storePage depth page

theorem unlockSection_atomic_iff (hopen : k.mutexIsOpen k.memoryMutexKey) :
    Atomic (fun depth => unlockSection (callsAt depth) key) k ↔ k.UnlockCovered key := by
  constructor
  · intro h
    by_contra hnot
    exact h.not_logs 1 (unlockSection_unheld 0 hopen hnot)
  · exact fun h => .of_held fun depth => unlockSection_held depth h

/-! ## `end_process` -/

/-- The section of `end_process` is covered: it never gets past the lock of the table. -/
def EndCovered (k : Kernel) : Prop :=
  (k.openMutexes k.tableMutexKey).locked = .locked ∧
    (k.openMutexes k.tableMutexKey).processQueue ≠ null ∧ k.MemoryTaken

/-- A lock clears the superlock, unless it never ends. -/
theorem mutexLock_logs_unheld (depth : Nat) (hmemory : k.mutexIsOpen k.memoryMutexKey)
    (hopen : k.mutexIsOpen key)
    (hnot : ¬((k.openMutexes key).locked = .locked ∧ (k.openMutexes key).processQueue ≠ null ∧
      k.MemoryTaken)) :
    Logs unheld ((callsAt (depth + 2)).mutexLock key) k := by
  cases hword : (k.openMutexes key).locked with
  | unlocked =>
      exact mutexLock_unheld hopen
        (lockSection_notTaken (k := { k with superlock := .locked }) hword trivial)
  | locked =>
      by_cases hq : (k.openMutexes key).processQueue = null
      · obtain ⟨k', hsection⟩ := lockSection_noQueue (c := callsAt (depth + 1))
          (fun _ _ _ => trivial) hword hq
        exact mutexLock_unheld hopen hsection
      · have hcovered : ¬k.LockCovered key := by
          rintro (hfree | hnull | htaken)
          · rw [hword] at hfree
            cases hfree
          · exact hq hnull
          · exact hnot ⟨hword, hq, htaken⟩
        refine .right (.read (P := anyhow) k) ?_
        rw [if_pos hopen]
        exact .right (.act (P := anyhow) trivial) (.left (lockSection_unheld depth hmemory hcovered))

theorem endSection_atomic_iff (hmemory : k.mutexIsOpen k.memoryMutexKey)
    (htable : k.mutexIsOpen k.tableMutexKey) (hp : k.procOf k.current ≠ null) (fuel : Nat) :
    Atomic (fun depth => endSection (callsAt depth) fuel) k ↔ k.EndCovered := by
  constructor
  · intro h
    by_contra hnot
    refine h.not_logs 2 (.right (.read (P := anyhow) _) (.left ?_))
    unfold destroyProcessCall
    rw [if_pos (by exact hp)]
    refine .right (.read (P := anyhow) _) (.left ?_)
    exact mutexLock_logs_unheld 0 (k := { k with superlock := .locked }) hmemory htable
      fun h => hnot ⟨h.1, h.2.1, h.2.2.setSuperlock k.superlock⟩
  · rintro ⟨hword, hq, htaken⟩
    refine .of_held fun depth => ?_
    have hlock : Cuts held ((callsAt depth).mutexLock k.tableMutexKey)
        { k with superlock := .locked } := by
      cases depth with
      | zero => exact .cut _
      | succ depth =>
          exact mutexLock_cut (k := { k with superlock := .locked }) (fun _ _ hheld => hheld)
            htable hword hq ((htaken.setSuperlock .locked).getPage depth)
    have hsection : Cuts held (endSection (callsAt depth) fuel) { k with superlock := .locked } := by
      refine .right (.read _) (.left ?_)
      unfold destroyProcessCall
      rw [if_pos (by exact hp)]
      exact .right (.read _) (.left hlock)
    exact hsection.log

/-! ## All three -/

/-- With the allocator's mutex open, the sections are covered by the superlock
exactly as `LockCovered`, `UnlockCovered` and `EndCovered` say. -/
theorem superlock_sections (hmemory : k.mutexIsOpen k.memoryMutexKey) :
    (∀ key, k.mutexIsOpen key →
      (Atomic (fun depth => lockSection (callsAt depth) key) k ↔ k.LockCovered key) ∧
      (Atomic (fun depth => unlockSection (callsAt depth) key) k ↔ k.UnlockCovered key)) ∧
    (k.mutexIsOpen k.tableMutexKey → k.procOf k.current ≠ null →
      ∀ fuel, Atomic (fun depth => endSection (callsAt depth) fuel) k ↔ k.EndCovered) :=
  ⟨fun _ _ => ⟨lockSection_atomic_iff hmemory, unlockSection_atomic_iff hmemory⟩,
    fun htable hp fuel => endSection_atomic_iff hmemory htable hp fuel⟩

theorem superlock_sections_booted :
    (∀ key, booted.k.mutexIsOpen key →
      (Atomic (fun depth => lockSection (callsAt depth) key) booted.k ↔
        booted.k.LockCovered key) ∧
      (Atomic (fun depth => unlockSection (callsAt depth) key) booted.k ↔
        booted.k.UnlockCovered key)) ∧
    (booted.k.mutexIsOpen booted.k.tableMutexKey → booted.k.procOf booted.k.current ≠ null →
      ∀ fuel, Atomic (fun depth => endSection (callsAt depth) fuel) booted.k ↔
        booted.k.EndCovered) :=
  superlock_sections (by decide +kernel)

/-- The shell holds a mutex, and the program wants it. -/
theorem queueing_loses_superlock : ¬∀ s, callSystem.Reach s →
    s.k.mutexIsOpen s.k.memoryMutexKey → ∀ key, s.k.mutexIsOpen key →
      Atomic (fun depth => lockSection (callsAt depth) key) s.k := by
  intro hall
  obtain ⟨s, hs, hheld⟩ := System.exists_reach_of_execute init_booted
    (twoPrograms ++ [.run (.lock 0) 2 5, .tick 2 5 0])
    (fun s => s.k.mutexIsOpen s.k.memoryMutexKey ∧ s.k.mutexIsOpen 0 ∧
      (s.k.openMutexes 0).locked = .locked ∧ (s.k.openMutexes 0).processQueue ≠ null ∧
      (s.k.openMutexes s.k.memoryMutexKey).locked = .unlocked) (by decide +kernel)
  obtain ⟨hmemory, hopen, htaken, hq, hfree⟩ := of_decide_eq_true hheld
  have hcovered := (lockSection_atomic_iff hmemory).mp (hall s hs hmemory 0 hopen)
  rcases hcovered with hword | hnull | hmemoryTaken
  · rw [htaken] at hword
    cases hword
  · exact hq hnull
  · have hword := hmemoryTaken.taken
    rw [hfree] at hword
    cases hword

end Kernel

end TPE
