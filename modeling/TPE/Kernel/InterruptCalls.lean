import TPE.Library.Walk
import TPE.Kernel.CallDepth

/-!
# Calls from interrupts

`timer_handler` gives back the nodes of the sleeping processes it wakes, and
`next_process` destroys the processes it finds marked for deletion.  Both give
pages back, so both lock mutexes, for the process that was interrupted.  They
stay out of the blocking branch as long as no other process was interrupted
inside a section of one of these mutexes.
-/

namespace TPE

open Function

namespace Kernel

open Call

variable {k k' : Kernel} {key : Int} {p a prev : Addr}

/-! ## Taken mutexes -/

/-- The mutex is open and taken. -/
def Taken (k : Kernel) (key : Int) : Prop :=
  k.mutexIsOpen key ∧ (k.openMutexes key).locked = .locked

/-- The mutex with the key `key` is still taken, and the keys are those of `k₀`. -/
structure StillTaken (k₀ : Kernel) (key : Int) (k : Kernel) : Prop where
  taken : k.Taken key
  memory : k.memoryMutexKey = k₀.memoryMutexKey
  stack : k.stackMemoryMutexKey = k₀.stackMemoryMutexKey
  table : k.tableMutexKey = k₀.tableMutexKey

variable {k₀ : Kernel}

/-- Everything else may change. -/
theorem StillTaken.congr (h : StillTaken k₀ key k) (hm : k'.openMutexes key = k.openMutexes key)
    (hmemory : k'.memoryMutexKey = k.memoryMutexKey)
    (hstack : k'.stackMemoryMutexKey = k.stackMemoryMutexKey)
    (htable : k'.tableMutexKey = k.tableMutexKey) : StillTaken k₀ key k' := by
  refine ⟨?_, hmemory.trans h.memory, hstack.trans h.stack, htable.trans h.table⟩
  have htaken := h.taken
  unfold Taken mutexIsOpen at *
  rw [hm]
  exact htaken

/-- A write of another mutex. -/
theorem StillTaken.writeMutex (h : StillTaken k₀ key k) {i : Int} (hi : key ≠ i)
    (f : Mutex → Mutex) : StillTaken k₀ key (k.writeMutex i f) :=
  h.congr (update_of_ne hi _ _) rfl rfl rfl

/-- A step that leaves the mutexes alone. -/
theorem StillTaken.act {e : CallStep} {f : Kernel → Kernel}
    (hf : ∀ k, ((f k).openMutexes, (f k).memoryMutexKey, (f k).stackMemoryMutexKey,
      (f k).tableMutexKey) =
        (k.openMutexes, k.memoryMutexKey, k.stackMemoryMutexKey, k.tableMutexKey)) :
    Keeps calm (StillTaken k₀ key) (act e f) := by
  refine .act fun k h => ?_
  have he := hf k
  simp only [Prod.mk.injEq] at he
  exact h.congr (congrFun he.1 key) he.2.1 he.2.2.1 he.2.2.2

/-- `mutex_lock` of a taken mutex enters the blocking branch. -/
theorem mutexLock_never (depth : Nat) :
    Never calm (StillTaken k₀ key) ((callsAt depth).mutexLock key) := by
  cases depth with
  | zero => exact .cut
  | succ depth =>
      refine .read fun k h => ?_
      rw [if_pos h.taken.1]
      refine .right (StillTaken.act fun _ => rfl)
        fun _ => .left ?_
      refine .read fun k h => ?_
      simp only
      rw [if_pos h.taken.2]
      intro s r t _ hr
      obtain ⟨_, _, -, hr⟩ := hr.of_bind
      obtain ⟨_, _, hqueue, -⟩ := hr.of_bind
      exact hqueue.log _ (List.mem_singleton_self _)

/-- `mutex_lock` of another mutex. -/
theorem mutexLock_keeps (depth : Nat) (i : Int) :
    Keeps calm (StillTaken k₀ key) ((callsAt depth).mutexLock i) := by
  by_cases hi : key = i
  · subst hi
    exact (mutexLock_never depth).keeps
  · cases depth with
    | zero => exact Never.keeps .cut
    | succ depth =>
        refine .read fun k _ => ?_
        split
        · refine .bind (StillTaken.act fun _ => rfl)
            fun _ => .bind ?_ fun waits => .bind
              (StillTaken.act fun _ => rfl) fun _ => ?_
          · refine .read fun k _ => .bind (.act fun k h => h.writeMutex hi _) fun _ => ?_
            split
            · exact Never.keeps (.left (.act fun k hcalm => hcalm))
            · exact .pure _
          · split
            · exact Never.keeps (.left (.act fun k hcalm => hcalm))
            · exact .pure _
        · exact .pure _

/-- `store_page`, if `mutex_unlock` at the same depth keeps the mutex taken. -/
theorem storePage_keeps_of {depth : Nat}
    (hunlock : ∀ i, i ≠ key → Keeps calm (StillTaken k₀ key) ((callsAt depth).mutexUnlock i))
    (address : Addr) : Keeps calm (StillTaken k₀ key) (storePageCall (callsAt depth) address) := by
  refine .read fun k h => ?_
  by_cases hi : k.memoryMutexKey = key
  · rw [hi]
    exact Never.keeps (.left (mutexLock_never depth))
  · refine .bind (mutexLock_keeps depth _) fun _ => .read fun k h' => ?_
    refine .bind (StillTaken.act fun _ => rfl)
      fun _ => .bind (hunlock _ ?_) fun _ => .pure _
    rw [h'.memory, ← h.memory]
    exact hi

/-- `mutex_unlock` of another mutex. -/
theorem mutexUnlock_keeps (depth : Nat) {i : Int} (hi : i ≠ key) :
    Keeps calm (StillTaken k₀ key) ((callsAt depth).mutexUnlock i) := by
  induction depth generalizing i with
  | zero => exact Never.keeps .cut
  | succ depth ih =>
      have hdequeue : ∀ q, Keeps calm (StillTaken k₀ key) (dequeueCall (callsAt depth) q) := by
        refine fun q => .read fun k _ => ?_
        split
        · exact .pure _
        · split
          · exact .pure _
          · exact .bind (StillTaken.act fun _ => rfl)
              fun _ => .bind (storePage_keeps_of (fun i hi => ih hi) _) fun _ => .pure _
      have hloop : ∀ rounds q,
          Keeps calm (StillTaken k₀ key) (dequeueWaiterCall (callsAt depth) rounds q) := by
        intro rounds q
        induction rounds with
        | zero => exact Never.keeps .cut
        | succ rounds ih =>
            refine .bind (hdequeue q) fun p => .read fun k _ => ?_
            split
            · exact ih
            · exact .pure _
      have hhand : ∀ p, Keeps calm (StillTaken k₀ key) (handMutexOver i p) := by
        refine fun p => .bind (.act fun k h => h.writeMutex (Ne.symm hi) _) fun _ => ?_
        split
        · exact .bind (StillTaken.act fun _ => rfl)
            fun _ => .act fun k h => h.writeMutex (Ne.symm hi) _
        · exact .pure _
      refine .read fun k _ => ?_
      split
      · refine .bind (StillTaken.act fun _ => rfl)
          fun _ => .bind (.read fun k _ => .bind (hloop _ _) hhand) fun _ => .bind
            (StillTaken.act fun _ => rfl)
            fun _ => .pure _
      · exact .pure _

theorem storePage_keeps (depth : Nat) (address : Addr) :
    Keeps calm (StillTaken k₀ key) (storePageCall (callsAt depth) address) :=
  storePage_keeps_of (fun _ hi => mutexUnlock_keeps depth hi) address

theorem storePage_never (depth : Nat) (address : Addr) (hi : k₀.memoryMutexKey = key) :
    Never calm (StillTaken k₀ key) (storePageCall (callsAt depth) address) := by
  refine .read fun k h => .left ?_
  rw [h.memory, hi]
  exact mutexLock_never depth

theorem storeStackPage_never (depth : Nat) (address : Addr) (hi : k₀.stackMemoryMutexKey = key) :
    Never calm (StillTaken k₀ key) (storeStackPageCall (callsAt depth) address) := by
  refine .read fun k h => .left ?_
  rw [h.stack, hi]
  exact mutexLock_never depth

theorem storeStackPage_keeps (depth : Nat) (address : Addr) :
    Keeps calm (StillTaken k₀ key) (storeStackPageCall (callsAt depth) address) := by
  refine .read fun k h => ?_
  by_cases hi : k.stackMemoryMutexKey = key
  · rw [hi]
    exact Never.keeps (.left (mutexLock_never depth))
  · refine .bind (mutexLock_keeps depth _) fun _ => .read fun k h' => ?_
    refine .bind (StillTaken.act fun _ => rfl)
      fun _ => .bind (mutexUnlock_keeps depth ?_) fun _ => .pure _
    rw [h'.stack, ← h.stack]
    exact hi

theorem freeDataPages_keeps (depth : Nat) (p : Addr) (rounds i : Nat) :
    Keeps calm (StillTaken k₀ key) (freeDataPagesCall (callsAt depth) p rounds i) := by
  induction rounds generalizing i with
  | zero => exact .pure _
  | succ rounds ih =>
      refine .read fun k _ => ?_
      split
      · split
        · exact .bind (storePage_keeps depth _) fun _ => .bind
            (StillTaken.act fun _ => rfl)
            fun _ => ih _
        · exact ih _
      · exact .pure _

/-- One of the mutexes that `destroy_process` locks is taken. -/
def ReapTaken (k : Kernel) (key : Int) : Prop :=
  k.Taken key ∧ (key = k.tableMutexKey ∨ key = k.stackMemoryMutexKey ∨ key = k.memoryMutexKey)

/-- `destroy_process` locks all three mutexes. -/
theorem destroyProcess_never (depth : Nat) (hp : p ≠ null)
    (hkey : key = k₀.tableMutexKey ∨ key = k₀.stackMemoryMutexKey ∨ key = k₀.memoryMutexKey) :
    Never calm (StillTaken k₀ key) (destroyProcessCall (callsAt depth) p) := by
  unfold destroyProcessCall
  rw [if_pos hp]
  refine .read fun k h => ?_
  by_cases htable : k₀.tableMutexKey = key
  · rw [h.table, htable]
    exact .left (mutexLock_never depth)
  · refine .right (mutexLock_keeps depth _) fun _ => .right
      (StillTaken.act fun _ => rfl)
      fun _ => .right (freeDataPages_keeps depth p _ _) fun _ => .right ?_ fun _ => .right
        (StillTaken.act fun _ => rfl)
        fun _ => .read fun k h => .right ?_ fun _ => .read fun k h => ?_
    · refine .act fun k h => ?_
      obtain ⟨foreground, processes, he⟩ := handForeground_eq k p
      have he' := he k.superlock k.openMutexes
      exact he' ▸ h.congr rfl rfl rfl rfl
    · apply mutexUnlock_keeps
      rw [h.table]
      exact htable
    · by_cases hstack : k₀.stackMemoryMutexKey = key
      · exact .left (storeStackPage_never depth _ hstack)
      · have hmemory : k₀.memoryMutexKey = key := by
          rcases hkey with hkey | hkey | hkey
          · exact absurd hkey.symm htable
          · exact absurd hkey.symm hstack
          · exact hkey.symm
        exact .right (storeStackPage_keeps depth _) fun _ => .left (storePage_never depth p hmemory)

/-! ## The scheduler -/

/-- If the walk meets a process to destroy, it waits for a taken mutex. -/
theorem setNextCurrent_never (depth fuel : Nat) (h : StillTaken k₀ key k)
    (hkey : key = k₀.tableMutexKey ∨ key = k₀.stackMemoryMutexKey ∨ key = k₀.memoryMutexKey)
    (hreaps : k.WalkReaps) {ps : List Addr} :
    ¬Returns calm (setNextCurrentCall (callsAt depth) fuel) k ps k' := by
  obtain ⟨l, a, hwalk, hl, hdoomed⟩ := hreaps
  induction l generalizing k fuel ps with
  | nil =>
      intro hr
      have hcur : k.current = a := hwalk
      subst hcur
      cases fuel with
      | zero => cases hr.ending
      | succ fuel =>
          have hr := hr.of_read
          simp only at hr
          have hdel : k.processes.isDeleteProcess (k.procOf k.current) := hdoomed
          rw [if_pos (Or.inr hdel), if_pos hdel] at hr
          obtain ⟨-, hr⟩ := hr.of_act
          have hlinked : StillTaken k₀ key (k.link k.prev (k.next k.current)) :=
            h.congr rfl rfl rfl rfl
          exact Never.left (destroyProcess_never depth hdoomed.1 hkey) _ _ _ hlinked hr
  | cons x l ih =>
      intro hr
      obtain ⟨rfl, hwalk⟩ := hwalk
      have hblocked := hl _ List.mem_cons_self
      cases fuel with
      | zero => cases hr.ending
      | succ fuel =>
          have hr := hr.of_read
          simp only at hr
          have hdel : ¬k.processes.isDeleteProcess (k.procOf k.current) := fun hdel =>
            not_blocked_of_delete hdel hblocked
          rw [if_pos (Or.inl hblocked), if_neg hdel] at hr
          obtain ⟨-, hr⟩ := hr.of_act
          exact ih (k := { k with prev := k.current, current := k.next k.current }) fuel
            (h.congr rfl rfl rfl rfl) hwalk (fun y hy => hl y (List.mem_cons_of_mem _ hy))
            hdoomed hr

/-- `next_process` completes without waiting for anything. -/
def NextQuiet (k : Kernel) (currentRsp : Nat) : Prop :=
  ∃ depth fuel r k', Returns calm (nextProcessCall (callsAt depth) fuel currentRsp) k r k'

theorem nextProcess_never {currentRsp : Nat} (htaken : k.ReapTaken key) (hreaps : k.Reaps) :
    ¬k.NextQuiet currentRsp := by
  rintro ⟨depth, fuel, r, k', hr⟩
  obtain ⟨⟨hnull, hquantum, hlock⟩, hwalk⟩ := hreaps
  have hr := hr.of_read
  rw [if_neg hnull] at hr
  obtain ⟨-, hr⟩ := hr.of_act
  have hr := hr.of_read
  rw [if_neg (by exact hquantum)] at hr
  obtain ⟨-, hr⟩ := hr.of_act
  have hlock' : ¬k.unassignQuantum.superlock = .locked := by
    intro he
    have he' : k.superlock = .locked := he
    rw [hlock] at he'
    cases he'
  rw [if_neg hlock'] at hr
  obtain ⟨-, hr⟩ := hr.of_act
  obtain ⟨-, hr⟩ := hr.of_act
  obtain ⟨-, hr⟩ := hr.of_act
  obtain ⟨ps, k₁, hreturns, -⟩ := hr.of_bind
  have hstart : Returns calm (setNextCurrentCall (callsAt depth) fuel) (k.walkStart currentRsp)
      ps k₁ := hreturns
  have htaken' : StillTaken k key (k.walkStart currentRsp) := by
    obtain ⟨processes, he, -⟩ := k.walkStart_eq currentRsp
    rw [he]
    exact StillTaken.congr ⟨htaken.1, rfl, rfl, rfl⟩ rfl rfl rfl rfl
  exact setNextCurrent_never depth fuel htaken' htaken.2
    ((k.walkReaps_walkStart currentRsp).mpr hwalk) hstart

/-! ## The timer -/

/-- The links from `a` on make the list `l`, which ends in `NULL`. -/
def SleepList (k : Kernel) (a : Addr) (l : List Addr) : Prop :=
  Walk k.sleepNext a l null ∧ null ∉ l

/-- The process of the sleep node `a` wakes up with the next tick. -/
def Due (k : Kernel) (a : Addr) : Prop := countDown (k.sleepNodes a).ticks = 0

instance (k : Kernel) (a : Addr) : Decidable (k.Due a) := inferInstanceAs (Decidable (_ = _))

/-- `timer_handler` completes without waiting for anything. -/
def TimerQuiet (k : Kernel) : Prop :=
  ∃ depth fuel k', Returns calm (timerHandlerCall (callsAt depth) fuel) k ⟨⟩ k'

/-- `store_page` waits for the allocator's mutex if it is not free. -/
theorem storePage_busy (hbusy : ¬k.MemoryFree) (depth : Nat) {address r : Nat} :
    ¬Returns calm (storePageCall (callsAt depth) address) k r k' := by
  intro hr
  have hopen : k.mutexIsOpen k.memoryMutexKey := by
    by_contra hclosed
    exact hbusy (Or.inl hclosed)
  by_cases hheader : (k.openMutexes k.memoryMutexKey).processQueue = null
  · have htaken : (k.openMutexes k.memoryMutexKey).locked = .locked := by
      cases hword : (k.openMutexes k.memoryMutexKey).locked with
      | locked => rfl
      | unlocked => exact absurd (Or.inr ⟨hword, Or.inl hheader⟩) hbusy
    have hnever : Never calm (StillTaken k k.memoryMutexKey)
        (storePageCall (callsAt depth) address) := storePage_never depth address rfl
    exact hnever k r k' ⟨⟨hopen, htaken⟩, rfl, rfl, rfl⟩ hr
  · exact (MemoryBusy.storePage ⟨hopen, hheader, hbusy⟩ depth address).not_returns hr

/-- A link from `prev` to `b` is not on a list from `b` to `NULL`. -/
theorem notMem_of_linked {next : Addr → Addr} {b : Addr} {l : List Addr} (hprev : next prev = b)
    (hwalk : Walk next b l null) (hnull : null ∉ l) : prev ∉ l := by
  intro hm
  obtain ⟨l₁, l₂, rfl⟩ := List.append_of_mem hm
  obtain ⟨c, -, rfl, hwalk₂⟩ := Walk.append_iff.mp hwalk
  rw [hprev] at hwalk₂
  have hnull₂ : null ∉ l₂ := fun hm =>
    hnull (List.mem_append_right _ (List.mem_cons_of_mem _ hm))
  have hlen := congrArg List.length (hwalk.unique hwalk₂ hnull hnull₂)
  simp only [List.length_append, List.length_cons] at hlen
  omega

/-- The list behind an unlinked node was there before. -/
theorem sleepList_of_unlinked {l : List Addr}
    (h : SleepList (k.unlinkSleepProcess prev a) (k.sleepNext a) l) :
    SleepList k (k.sleepNext a) l := by
  obtain ⟨hwalk, hnull⟩ := h
  refine ⟨?_, hnull⟩
  unfold unlinkSleepProcess at hwalk
  split at hwalk
  · exact hwalk
  · rw [sleepNext_writeSleep] at hwalk
    have hprev : prev ∉ l := notMem_of_linked (update_self _ _ _) hwalk hnull
    refine hwalk.congr fun x hx => ?_
    have hne : x ≠ prev := fun he => hprev (he ▸ hx)
    exact (update_of_ne hne _ _).symm

theorem tickNode_due : ((k.tickNode a).sleepNodes a).ticks = 0 ↔ k.Due a := by
  rw [tickNode_self]
  rfl

theorem due_tickNode {b : Addr} (hb : b ≠ a) : (k.tickNode a).Due b ↔ k.Due b := by
  have hnode : (k.tickNode a).sleepNodes b = k.sleepNodes b := update_of_ne hb _ _
  unfold Due
  rw [hnode]

theorem memoryFree_wokenUp : (k.wokenUp prev a).MemoryFree ↔ k.MemoryFree := by
  obtain ⟨_, _, _, he⟩ := k.wokenUp_eq prev a
  rw [he]
  exact ⟨fun h => h.congr rfl rfl rfl, fun h => h.congr rfl rfl rfl⟩

/-- What a quiet loop of `timer_handler` says about the list. -/
theorem sleepList_of_quiet {depth fuel : Nat}
    (h : Returns calm (timerLoopCall (callsAt depth) fuel prev a) k ⟨⟩ k') :
    ∃ l, k.SleepList a l ∧ ((∀ b ∈ l, ¬k.Due b) ∨ k.MemoryFree) := by
  induction fuel generalizing k prev a with
  | zero => cases h.ending
  | succ fuel ih =>
      unfold timerLoopCall at h
      by_cases ha : a = null
      · exact ⟨[], ⟨ha, List.not_mem_nil⟩, .inl fun _ hb => nomatch hb⟩
      · rw [if_neg ha] at h
        obtain ⟨-, h⟩ := h.of_act
        have h := h.of_read
        have hnull : ∀ {l : List Addr}, null ∉ l → null ∉ a :: l := fun hl hm =>
          (List.mem_cons.mp hm).elim (fun he => ha he.symm) hl
        by_cases hdue : k.Due a
        · rw [if_pos (by exact tickNode_due.mpr hdue)] at h
          obtain ⟨-, h⟩ := h.of_act
          obtain ⟨-, h⟩ := h.of_act
          have h := h.of_read
          obtain ⟨r, k₁, hstore, h⟩ := h.of_bind
          have hstore : Returns calm (storePageCall (callsAt depth) a) (k.wokenUp prev a) r k₁ :=
            hstore
          have hfree : (k.wokenUp prev a).MemoryFree := by
            by_contra hbusy
            exact storePage_busy hbusy depth hstore
          cases depth with
          | zero =>
              obtain ⟨_, _, hlock, -⟩ := hstore.of_read.of_bind
              cases hlock.ending
          | succ depth =>
              obtain ⟨_, hcalm⟩ := storePage_calm depth hfree a
              obtain ⟨_, ⟨superlock, rfl⟩, hcalm⟩ := hcalm _ ⟨(k.wokenUp prev a).superlock, rfl⟩
              obtain ⟨-, rfl⟩ := hstore.unique hcalm
              obtain ⟨l, hlist, -⟩ := ih h
              have hlist : SleepList ((k.tickNode a).unlinkSleepProcess prev a)
                  ((k.tickNode a).sleepNext a) l := by
                rw [← sleepNext_unlinked _ prev]
                exact hlist
              obtain ⟨hwalk, hl⟩ := sleepList_of_unlinked hlist
              rw [sleepNext_tickNode] at hwalk
              exact ⟨a :: l, ⟨⟨rfl, hwalk⟩, hnull hl⟩, .inr (memoryFree_wokenUp.mp hfree)⟩
        · rw [if_neg (by exact fun he => hdue (tickNode_due.mp he))] at h
          obtain ⟨l, ⟨hwalk, hl⟩, hor⟩ := ih h
          have hwalk : Walk k.sleepNext (k.sleepNext a) l null := by
            have hnext := sleepNext_tickNode k a
            rw [← hnext]
            exact hwalk
          have hlist : k.SleepList a (a :: l) := ⟨⟨rfl, hwalk⟩, hnull hl⟩
          refine ⟨a :: l, hlist, hor.imp (fun hor b hb => ?_) fun hfree => hfree⟩
          rcases List.mem_cons.mp hb with rfl | hb
          · exact hdue
          · have hne : b ≠ a := fun he =>
              (List.nodup_cons.mp (hlist.1.nodup hlist.2)).1 (he ▸ hb)
            exact fun hb' => hor b hb ((due_tickNode hne).mpr hb')

/-- The list behind a node is there after the node was unlinked. -/
theorem sleepList_unlinked {l : List Addr} (hlist : SleepList k (k.sleepNext a) l)
    (hprev : prev ∉ l) : SleepList (k.unlinkSleepProcess prev a) (k.sleepNext a) l := by
  refine ⟨?_, hlist.2⟩
  unfold unlinkSleepProcess
  split
  · exact hlist.1
  · rw [sleepNext_writeSleep]
    exact hlist.1.write hprev

/-- A list whose nodes are not due, or which finds the allocator's mutex free,
makes a quiet loop. -/
theorem quiet_of_sleepList {l : List Addr} (hlist : k.SleepList a l) (hprev : prev ∉ l)
    (hor : (∀ b ∈ l, ¬k.Due b) ∨ k.MemoryFree) :
    ∃ k', Returns calm (timerLoopCall (callsAt 1) (l.length + 1) prev a) k ⟨⟩ k' := by
  induction l generalizing k prev a with
  | nil =>
      refine ⟨k, ?_⟩
      have ha : a = null := hlist.1
      unfold timerLoopCall
      rw [if_pos ha]
      exact .pure _ _
  | cons x l ih =>
      obtain ⟨⟨rfl, hwalk⟩, hnull⟩ := id hlist
      have ha : a ≠ null := fun he => hnull (List.mem_cons.mpr (.inl he.symm))
      have hrest : SleepList (k.tickNode a) ((k.tickNode a).sleepNext a) l := by
        refine ⟨?_, fun hm => hnull (List.mem_cons_of_mem _ hm)⟩
        rw [sleepNext_tickNode]
        exact hwalk
      have hnotMem : a ∉ l := (List.nodup_cons.mp (hlist.1.nodup hlist.2)).1
      unfold timerLoopCall
      rw [if_neg ha]
      by_cases hdue : k.Due a
      · have hfree := hor.resolve_left fun hnone => hnone a List.mem_cons_self hdue
        have hwoken : (k.wokenUp prev a).MemoryFree := memoryFree_wokenUp.mpr hfree
        obtain ⟨_, hcalm⟩ := storePage_calm 0 hwoken a
        obtain ⟨_, ⟨superlock, rfl⟩, hcalm⟩ := hcalm _ ⟨(k.wokenUp prev a).superlock, rfl⟩
        have hlist' : SleepList { (k.wokenUp prev a).storePage a with superlock }
            ((k.wokenUp prev a).sleepNext a) l := by
          have hunlinked := sleepList_unlinked hrest
            fun hm => hprev (List.mem_cons_of_mem _ hm)
          rw [← sleepNext_unlinked _ prev] at hunlinked
          exact hunlinked
        have hfree' : MemoryFree { (k.wokenUp prev a).storePage a with superlock } :=
          hwoken.congr rfl rfl rfl
        obtain ⟨k', hloop⟩ := ih hlist' (fun hm => hprev (List.mem_cons_of_mem _ hm)) (.inr hfree')
        refine ⟨k', .bind (.act trivial) (.bind (.read _) ?_)⟩
        rw [if_pos (by exact tickNode_due.mpr hdue)]
        exact .bind (.act trivial) (.bind (.act trivial) (.bind (.read _) (.bind hcalm hloop)))
      · obtain ⟨k', hloop⟩ := ih hrest hnotMem (hor.imp (fun hnone b hb hb' => by
          have hne : b ≠ a := fun he => hnotMem (he ▸ hb)
          exact hnone b (List.mem_cons_of_mem _ hb) ((due_tickNode hne).mp hb'))
          fun hfree => hfree.congr rfl rfl rfl)
        refine ⟨k', .bind (.act trivial) (.bind (.read _) ?_)⟩
        rw [if_neg (by exact fun he => hdue (tickNode_due.mp he))]
        exact hloop

/-- A tick passes the timer quietly exactly if nobody is due or the allocator's
mutex is free. -/
theorem timerQuiet_iff : k.TimerQuiet ↔
    ∃ l, k.SleepList k.sleepingProcesses l ∧ ((∀ a ∈ l, ¬k.Due a) ∨ k.MemoryFree) := by
  constructor
  · rintro ⟨depth, fuel, k', hr⟩
    exact sleepList_of_quiet hr.of_read
  · rintro ⟨l, hlist, hor⟩
    obtain ⟨k', hloop⟩ := quiet_of_sleepList hlist hlist.2 hor
    exact ⟨1, l.length + 1, k', .bind (.read k) hloop⟩

/-! ## Both -/

/-- The walk of `next_process` comes to a process it can dispatch. -/
def WalkEnds (k : Kernel) (currentRsp : Nat) : Prop :=
  ∃ fuel, (k.nextProcess fuel currentRsp).isSome

theorem nextQuiet_of_ready {currentRsp : Nat} (hends : k.WalkEnds currentRsp)
    (h : ¬k.Reaps ∨ k.ReapReady) : k.NextQuiet currentRsp := by
  obtain ⟨fuel, hsome⟩ := hends
  obtain ⟨d, hd⟩ := Option.isSome_iff_exists.mp hsome
  exact ⟨1, fuel, _, _, nextProcess_calm 0 fuel h.symm hd⟩

/-- The first process of the list is due, and somebody is inside the allocator. -/
theorem not_quiet_of_due (hnull : k.sleepingProcesses ≠ null) (hdue : k.Due k.sleepingProcesses)
    (hbusy : ¬k.MemoryFree) : ¬k.TimerQuiet := by
  intro hquiet
  obtain ⟨l, ⟨hwalk, -⟩, hor⟩ := timerQuiet_iff.mp hquiet
  cases l with
  | nil => exact hnull hwalk
  | cons a l =>
      obtain ⟨he, -⟩ := hwalk
      rcases hor with hnone | hfree
      · exact hnone a List.mem_cons_self (he ▸ hdue)
      · exact hbusy hfree

end Kernel

end TPE
