import TPE.Kernel.KeyboardReads
import TPE.Kernel.KilledProcesses

/-!
# Many readers of the keyboard

`sys_read` of the standard input by any number of processes, while the foreground
moves between them.

A process asks once whether it is in the foreground, before its loop, and whoever
finds that it is not blocks itself in a second statement.  The foreground may
move before the loop is over, and it may come to the process between its question
and its block.
-/

namespace TPE

open Function

/-! ## The foreground over a step -/

namespace Kernel

variable {k k' k'' : Kernel} {p q : Addr} {left left' : Addr → Prop}

/-- What happens to the foreground when the processes `left` leave.  It is taken
from nobody else, and nobody else stops waiting for it without getting it. -/
structure HandsOn (left : Addr → Prop) (k k' : Kernel) : Prop where
  from_left : k'.foreground = k.foreground ∨ left k.foreground
  woken : ∀ q, (k.processes q).st = .blockedForeground →
    (k'.processes q).st = .blockedForeground ∨ q = k'.foreground ∨ left q
  waits : ∀ q, (k'.processes q).st = .blockedForeground →
    (k.processes q).st = .blockedForeground
  delete : ∀ q, (k'.processes q).st = .delete ↔ (k.processes q).st = .delete
  awake : (k.processes k.foreground).st ≠ .blockedForeground →
    (k'.processes k'.foreground).st ≠ .blockedForeground

namespace HandsOn

theorem of_same (hfg : k'.foreground = k.foreground)
    (hst : ∀ q, (k'.processes q).st = (k.processes q).st) : HandsOn left k k' where
  from_left := Or.inl hfg
  woken q h := Or.inl (by rwa [hst])
  waits q h := by rwa [← hst]
  delete q := by rw [hst]
  awake h := by rwa [hfg, hst]

theorem mono (h : HandsOn left k k') (hle : ∀ q, left q → left' q) : HandsOn left' k k' where
  from_left := h.from_left.imp_right (hle _)
  woken q hq := (h.woken q hq).imp_right (Or.imp_right (hle q))
  waits := h.waits
  delete := h.delete
  awake := h.awake

theorem trans (h : HandsOn left k k') (h' : HandsOn left k' k'') : HandsOn left k k'' where
  from_left := by
    rcases h.from_left with hfg | hleft
    · rw [← hfg]
      exact h'.from_left
    · exact Or.inr hleft
  woken q hq := by
    rcases h.woken q hq with hwaits | rfl | hleft
    · exact h'.woken q hwaits
    · exact Or.inr (h'.from_left.imp_left Eq.symm)
    · exact Or.inr (Or.inr hleft)
  waits q hq := h.waits q (h'.waits q hq)
  delete q := (h'.delete q).trans (h.delete q)
  awake hst := h'.awake (h.awake hst)

/-- A step that goes on from where neither the foreground nor a process has changed. -/
theorem from_same (h : HandsOn left k' k'') (hfg : k'.foreground = k.foreground)
    (hprocs : k'.processes = k.processes) : HandsOn left k k'' :=
  (of_same hfg fun q => by rw [hprocs]).trans h

/-- A step after which neither the foreground nor a process changes. -/
theorem to_same (h : HandsOn left k k') (hfg : k''.foreground = k'.foreground)
    (hprocs : k''.processes = k'.processes) : HandsOn left k k'' :=
  h.trans (of_same hfg fun q => by rw [hprocs])

end HandsOn

/-- The escape key takes the foreground from the process that has it, if it gives
it to another one. -/
theorem handsOn_setForegroundForceProcess (k : Kernel) (p : Addr) :
    HandsOn (fun q => q = k.foreground ∧ (k.setForegroundForceProcess p).foreground ≠ k.foreground)
      k (k.setForegroundForceProcess p) := by
  have hfg := (setForegroundForceProcess_spec k p).2
  by_cases hgo : p ≠ null ∧ (k.processes p).pid ≠ 0
  · have hprocs : (k.setForegroundForceProcess p).processes =
        Procs.unblockForegroundProcess k.processes p := by
      rw [setForegroundForceProcess, if_pos hgo]
    have hself : (Procs.unblockForegroundProcess k.processes p p).st ≠ .blockedForeground := by
      rw [Procs.unblockForegroundProcess]
      split
      next =>
        rw [Procs.setSt_st_self]
        decide
      next hwaits => exact fun h => hwaits ⟨hgo.1, h⟩
    rw [if_pos hgo] at hfg
    refine ⟨?_, fun q hq => ?_, fun q hq => ?_, delete_setForegroundForceProcess k p, fun _ => ?_⟩
    · by_cases hsame : (k.setForegroundForceProcess p).foreground = k.foreground
      · exact Or.inl hsame
      · exact Or.inr ⟨rfl, hsame⟩
    · rw [hprocs, hfg]
      by_cases hqp : q = p
      · exact Or.inr (Or.inl hqp)
      · refine Or.inl ?_
        rw [Procs.unblockForegroundProcess]
        split
        · rwa [Procs.setSt_of_ne hqp]
        · exact hq
    · rw [hprocs] at hq
      rcases Procs.MayUnblock.unblockForegroundProcess k.processes p q with hsame | ⟨hwaits, -⟩
      · rwa [← hsame]
      · exact hwaits
    · rw [hfg, hprocs]
      exact hself
  · rw [setForegroundForceProcess, if_neg hgo]
    exact .of_same rfl fun _ => rfl

/-- It wakes up nobody but the process that has the foreground then. -/
theorem waits_setForegroundForceProcess (hst : (k.processes q).st = .blockedForeground)
    (hfg : q ≠ (k.setForegroundForceProcess p).foreground) :
    ((k.setForegroundForceProcess p).processes q).st = .blockedForeground := by
  unfold setForegroundForceProcess at hfg ⊢
  split at hfg
  next hgo =>
    rw [if_pos hgo]
    show (Procs.unblockForegroundProcess k.processes p q).st = _
    rw [Procs.unblockForegroundProcess]
    split
    · rwa [Procs.setSt_of_ne hfg]
    · exact hst
  next hgo =>
    rw [if_neg hgo]
    exact hst

/-- The running process hands the foreground on. -/
theorem handsOn_setForegroundProcess (k : Kernel) (p : Addr) :
    HandsOn (fun q => q = k.foreground ∧ q = k.getCurrentProcess) k (k.setForegroundProcess p) := by
  unfold setForegroundProcess
  split
  next hcur =>
    refine (handsOn_setForegroundForceProcess k p).mono ?_
    rintro q ⟨rfl, -⟩
    exact ⟨rfl, hcur⟩
  next => exact .of_same rfl fun _ => rfl

/-- A process that is destroyed loses the foreground. -/
theorem handsOn_destroyProcess (k : Kernel) (p : Addr) :
    HandsOn (· = p) k (k.destroyProcess p) := by
  by_cases hp : p = null
  · rw [destroyProcess, if_neg (not_not.mpr hp)]
    exact .of_same rfl fun _ => rfl
  · obtain ⟨n, hn⟩ : ∃ n, n = (k.nProcesses + 2 ^ 64 - 1) % 2 ^ 64 := ⟨_, rfl⟩
    obtain ⟨pages, procs, foreground, processes, hdata, hfg, he⟩ := destroyProcess_parts k hp hn
    have hprocs : ∀ q, (procs q).st = (k.processes q).st := by
      intro q
      have hsame := (freeDataPagesFrom_same (p := p)
        (k := { k with nProcesses := n, openMutexes := k.openMutexes }) maxDataPages 0 q).2
      rw [hdata] at hsame
      exact hsame
    have hfreed : HandsOn (· = p) k { k with nProcesses := n, pages, processes := procs } :=
      .of_same rfl hprocs
    have hhand : HandsOn (· = p) { k with nProcesses := n, pages, processes := procs }
        { k with nProcesses := n, pages, foreground, processes } := by
      have hfg' := hfg k.superlock k.openMutexes
      split at hfg'
      next hloses =>
        have hforce := handsOn_setForegroundProcess
          { k with nProcesses := n, pages, processes := procs } (k.processTable (procs p).ppid)
        rw [hfg'] at hforce
        exact hforce.mono fun q hq => hq.1.trans hloses
      next =>
        have hprocesses : procs = processes := congrArg Kernel.processes hfg'
        have hforeground : k.foreground = foreground := congrArg Kernel.foreground hfg'
        exact .of_same hforeground.symm fun q => by rw [hprocesses]
    rw [he]
    exact hfreed.trans (hhand.trans (.of_same rfl fun _ => rfl))

/-- The scheduler takes the foreground from the processes it destroys only. -/
theorem setNextCurrent_handsOn {fuel : Nat} {ps : List Addr}
    (h : k.setNextCurrent fuel = some (ps, k')) : HandsOn (· ∈ ps) k k' := by
  induction fuel generalizing k ps with
  | zero => cases h
  | succ fuel ih =>
      rw [setNextCurrent] at h
      simp only at h
      split at h
      next =>
        split at h
        next =>
          obtain ⟨⟨ps', k₁⟩, hrest, he⟩ := Option.map_eq_some_iff.mp h
          cases he
          have hlink : HandsOn (· ∈ k.procOf k.current :: ps') k (k.link k.prev (k.next k.current)) :=
            .of_same rfl fun _ => rfl
          have hdestroy : HandsOn (· ∈ k.procOf k.current :: ps') (k.link k.prev (k.next k.current))
              _ :=
            (handsOn_destroyProcess (k.link k.prev (k.next k.current)) (k.procOf k.current)).mono
              fun q hq => List.mem_cons.mpr (Or.inl hq)
          have hwalk : HandsOn (· ∈ k.procOf k.current :: ps') _ k₁ :=
            (ih hrest).mono fun q hq => List.mem_cons_of_mem _ hq
          exact hlink.trans (hdestroy.trans (hwalk.from_same rfl rfl))
        next =>
          exact (ih (k := { k with prev := k.current, current := k.next k.current }) h).from_same
            rfl rfl
      next =>
        cases h
        exact .of_same rfl fun _ => rfl

theorem foreground_setRspProcess (k : Kernel) (p : Addr) (rsp : Nat) :
    (k.setRspProcess p rsp).foreground = k.foreground := by
  unfold setRspProcess
  split
  · rfl
  · rfl

theorem nextProcess_handsOn {fuel currentRsp : Nat} {d : Dispatch}
    (h : nextProcess fuel k currentRsp = some d) : HandsOn (· ∈ d.destroyed) k d.k := by
  unfold nextProcess at h
  simp only at h
  split at h
  next =>
    cases h
    exact .of_same rfl fun _ => rfl
  next =>
    split at h
    next =>
      cases h
      exact .of_same rfl fun _ => rfl
    next =>
      split at h
      next =>
        cases h
        exact .of_same rfl fun _ => rfl
      next =>
        obtain ⟨⟨ps, k₁⟩, hwalk, he⟩ := Option.map_eq_some_iff.mp h
        cases he
        refine HandsOn.trans (.of_same ?_ fun q => ?_) ((setNextCurrent_handsOn hwalk).trans
          (.of_same rfl fun _ => rfl))
        · exact foreground_setRspProcess _ _ _
        · exact delete_setRspProcess _ _ _ _

/-- `end_process` takes it from the running process, too. -/
theorem endProcess_handsOn {fuel : Nat} {ps : List Addr} (h : k.endProcess fuel = some (ps, k')) :
    HandsOn (· ∈ ps) k k' := by
  obtain ⟨⟨ps₁, k₁⟩, hwalk, he⟩ := Option.map_eq_some_iff.mp h
  cases he
  have hlock : HandsOn (· ∈ k.getCurrentProcess :: ps₁) k { k with superlock := .locked } :=
    .of_same rfl fun _ => rfl
  have hdestroy : HandsOn (· ∈ k.getCurrentProcess :: ps₁) { k with superlock := .locked } _ :=
    (handsOn_destroyProcess { k with superlock := .locked } k.getCurrentProcess).mono
      fun q hq => List.mem_cons.mpr (Or.inl hq)
  have hrest : HandsOn (· ∈ k.getCurrentProcess :: ps₁) _ k₁ :=
    (setNextCurrent_handsOn hwalk).mono fun q hq => List.mem_cons_of_mem _ hq
  exact (hlock.trans (hdestroy.trans (hrest.from_same rfl rfl))).to_same rfl rfl

/-- What `store_scancode` does.  Only the escape key takes the foreground from a
process that stays. -/
theorem handsOn_keyEffect (k : Kernel) (effect : KeyEffect) :
    HandsOn (fun q => q = k.foreground ∧ (k.keyEffect effect).foreground ≠ k.foreground)
      k (k.keyEffect effect) := by
  cases effect with
  | nothing => exact .of_same rfl fun _ => rfl
  | escape => exact handsOn_setForegroundForceProcess k _
  | wake =>
      have hst : ∀ q, ((k.keyEffect .wake).processes q).st = (k.processes q).st ∨
          (k.processes q).st = .blockedRead ∧ ((k.keyEffect .wake).processes q).st = .ready := by
        intro q
        simp only [keyEffect, Procs.unblockReadProcess]
        split
        next hreads =>
          by_cases hq : q = k.foreground
          · subst hq
            rw [Procs.unblockProcess]
            split
            · exact Or.inr ⟨hreads, Procs.setSt_st_self _ _ _⟩
            · exact Or.inl rfl
          · rw [Procs.unblockProcess_of_ne hq]
            exact Or.inl rfl
        next => exact Or.inl rfl
      have hwaits : ∀ q, ((k.keyEffect .wake).processes q).st = .blockedForeground ↔
          (k.processes q).st = .blockedForeground := by
        intro q
        rcases hst q with hsame | ⟨hreads, hready⟩
        · rw [hsame]
        · simp [hreads, hready]
      refine ⟨Or.inl rfl, fun q hq => Or.inl ((hwaits q).mpr hq), fun q => (hwaits q).mp,
        fun q => ?_, fun hq => mt (hwaits k.foreground).mp hq⟩
      rcases hst q with hsame | ⟨hreads, hready⟩
      · rw [hsame]
      · simp [hreads, hready]

theorem waits_keyEffect {effect : KeyEffect} (hst : (k.processes q).st = .blockedForeground)
    (hfg : q ≠ (k.keyEffect effect).foreground) :
    ((k.keyEffect effect).processes q).st = .blockedForeground := by
  cases effect with
  | nothing => exact hst
  | escape => exact waits_setForegroundForceProcess hst hfg
  | wake =>
      simp only [keyEffect, Procs.unblockReadProcess]
      split
      next => rwa [Procs.unblockProcess_of_ne (p := k.foreground) hfg]
      next => exact hst

theorem getCurrentProcess_setForegroundForceProcess (k : Kernel) (p : Addr) :
    (k.setForegroundForceProcess p).getCurrentProcess = k.getCurrentProcess := by
  unfold setForegroundForceProcess
  split
  · rfl
  · rfl

theorem getCurrentProcess_setForegroundProcess (k : Kernel) (p : Addr) :
    (k.setForegroundProcess p).getCurrentProcess = k.getCurrentProcess := by
  unfold setForegroundProcess
  split
  · exact getCurrentProcess_setForegroundForceProcess k p
  · rfl

theorem getCurrentProcess_keyEffect (k : Kernel) (effect : KeyEffect) :
    (k.keyEffect effect).getCurrentProcess = k.getCurrentProcess := by
  cases effect with
  | nothing => rfl
  | wake => rfl
  | escape => exact getCurrentProcess_setForegroundForceProcess k _

/-- A call of `next_process` that does not get past its tests. -/
theorem nextProcess_current {fuel currentRsp : Nat} {d : Dispatch}
    (h : nextProcess fuel k currentRsp = some d) (hswitched : d.switched = false) :
    d.k.getCurrentProcess = k.getCurrentProcess := by
  have hquantum : k.unassignQuantum.getCurrentProcess = k.getCurrentProcess :=
    congrFun k.procOf_unassignQuantum k.current
  unfold nextProcess at h
  simp only at h
  split at h
  next =>
    cases h
    rfl
  next =>
    split at h
    next =>
      cases h
      exact hquantum
    next =>
      split at h
      next =>
        cases h
        exact hquantum
      next =>
        obtain ⟨⟨ps, k₁⟩, -, he⟩ := Option.map_eq_some_iff.mp h
        cases he
        cases hswitched

end Kernel

/-! ## The readers -/

/-- The variables of the driver.  Two readers inside of `get_char` may count one
key down twice, so `buff_size` may be negative. -/
structure KeyQueue where
  buffer : Nat → Int
  retIndex : Nat
  storeIndex : Nat
  /-- `buff_size` -/
  size : Int
  flags : KeyFlags

namespace KeyQueue

/-- `if (store_index == BUFFSIZE) store_index = 0` -/
def wrapStore (kb : KeyQueue) : KeyQueue :=
  if kb.storeIndex = buffSize then { kb with storeIndex := 0 } else kb

/-- `store_scancode` -/
def storeScancode (kb : KeyQueue) (code : UInt8) : KeyEffect × KeyQueue :=
  let k := getKey code
  if kb.size = buffSize then (.nothing, kb)
  else if k = escape then (.escape, kb)
  else if 0 < k ∧ k < topCharCode then
    let (special, flags) := kb.flags.processKeyScanCode k
    if special then (.nothing, { kb with flags }.wrapStore)
    else (.wake, { kb with
      flags
      size := kb.size + 1
      buffer := update kb.buffer kb.storeIndex k
      storeIndex := kb.storeIndex + 1 }.wrapStore)
  else if k < 0 then
    (.nothing, { kb with flags := (kb.flags.processKeyScanCode (k + topCharCode)).2 }.wrapStore)
  else (.nothing, kb.wrapStore)

/-- `if (ret_index == BUFFSIZE) ret_index = 0` -/
def wrapRet (kb : KeyQueue) : KeyQueue :=
  if kb.retIndex = buffSize then { kb with retIndex := 0 } else kb

end KeyQueue

/-- A call of `sys_read`. -/
structure StdinCall where
  point : ReadPoint
  /-- `buffer` -/
  buffer : Nat → Int
  bytes : Nat
  i : Nat

/-- The kernel, the driver, the processes and what each of them reads. -/
structure ReadersRun where
  k : Kernel
  kb : KeyQueue
  call : Addr → StdinCall
  /-- The processes that were not destroyed. -/
  live : List Addr

/-- What can happen in one step.  Only processes that do not read right now make
the calls with which they end, kill and hand the foreground on. -/
inductive ReadersAction where
  /-- The keyboard interrupt. -/
  | interrupt (code : UInt8)
  | nextProcess (fuel currentRsp : Nat)
  | endProcess (fuel : Nat)
  | setForeground (p : Addr)
  | kill (p : Addr)
  /-- The running process calls `sys_read`. -/
  | call (bytes : Nat)
  /-- The running process does the next statement of its call. -/
  | advance

namespace ReadersRun

/-- `store_scancode` -/
def interrupt (s : ReadersRun) (code : UInt8) : ReadersRun :=
  let (effect, kb) := s.kb.storeScancode code
  { s with kb, k := s.k.keyEffect effect }

/-- The call of `p` goes on at `point`. -/
def goto (s : ReadersRun) (p : Addr) (point : ReadPoint) : ReadersRun :=
  { s with call := update s.call p { s.call p with point } }

/-- The next statement of the process `p` in `sys_read`. -/
def advance (s : ReadersRun) (p : Addr) : Option ReadersRun :=
  let c := s.call p
  match c.point with
  | .idle => none
  | .entered => some (s.goto p (if p ≠ s.k.foreground then .blockingForeground else .looping))
  | .blockingForeground =>
      some ({ s with
        k := { s.k with processes := Procs.blockForegroundProcess s.k.processes p } }.goto p
          .yieldingForeground)
  | .yieldingForeground =>
      if s.k.processes.isBlockedProcess p then none else some (s.goto p .looping)
  | .looping => some (s.goto p (if c.i < c.bytes then .testing else .idle))
  | .testing => some (s.goto p (if s.kb.size = 0 then .gotten (-1) else .taking))
  | .taking =>
      some ({ s with kb := { s.kb with retIndex := s.kb.retIndex + 1 } }.goto p
        (.counting (s.kb.buffer s.kb.retIndex)))
  | .counting key =>
      some ({ s with kb := { s.kb with size := s.kb.size - 1 } }.goto p (.wrapping key))
  | .wrapping key => some ({ s with kb := s.kb.wrapRet }.goto p (.choosing key))
  | .choosing key => some (s.goto p (.gotten (s.kb.flags.chooseKeyboard key)))
  | .gotten k =>
      some (if k ≠ -1 then
        { s with
          call := update s.call p
            { c with buffer := update c.buffer c.i k, i := (c.i + 1) % 2 ^ 32, point := .looping } }
      else s.goto p .enabling)
  | .enabling => some (s.goto p .blocking)
  | .blocking =>
      some ({ s with
        k := { s.k with processes := Procs.blockReadProcess s.k.processes p } }.goto p .yielding)
  | .yielding => if s.k.processes.isBlockedProcess p then none else some (s.goto p .looping)

/-- The running process is alive and not inside of `sys_read`. -/
def RunsFree (s : ReadersRun) : Prop :=
  s.k.getCurrentProcess ∈ s.live ∧ (s.call s.k.getCurrentProcess).point = .idle

instance (s : ReadersRun) : Decidable s.RunsFree := inferInstanceAs (Decidable (_ ∧ _))

end ReadersRun

/-- Any number of processes, at the start none of them in `sys_read`. -/
def readersSystem : System ReadersRun ReadersAction where
  init s := null ∉ s.live ∧ (∀ p, (s.call p).point = .idle) ∧
    (s.k.processes s.k.foreground).st ≠ .blockedForeground
  next
    | s, .interrupt code => some (s.interrupt code)
    | s, .nextProcess fuel currentRsp =>
        (Kernel.nextProcess fuel s.k currentRsp).map fun d =>
          { s with k := d.k, live := s.live.filter (· ∉ d.destroyed) }
    | s, .endProcess fuel =>
        if s.RunsFree then
          (s.k.endProcess fuel).map fun (destroyed, k) =>
            { s with k, live := s.live.filter (· ∉ destroyed) }
        else none
    | s, .setForeground p =>
        if s.RunsFree then some { s with k := s.k.setForegroundProcess p } else none
    | s, .kill p =>
        if s.RunsFree then
          some { s with k := { s.k with processes := Procs.killProcess s.k.processes p } }
        else none
    | s, .call bytes =>
        if s.RunsFree then
          let p := s.k.getCurrentProcess
          some { s with call := update s.call p { s.call p with point := .entered, bytes, i := 0 } }
        else none
    | s, .advance =>
        if s.k.getCurrentProcess ∈ s.live then s.advance s.k.getCurrentProcess else none

/-- The process got past the test of the foreground. -/
def ReadPoint.Admitted : ReadPoint → Prop
  | .idle => False
  | .entered => False
  | .blockingForeground => False
  | _ => True

instance : DecidablePred ReadPoint.Admitted
  | .idle | .entered | .blockingForeground => isFalse id
  | .yieldingForeground | .looping | .testing | .taking | .counting _ | .wrapping _ | .choosing _
  | .gotten _ | .enabling | .blocking | .yielding => isTrue trivial

namespace ReadersRun

variable {s t : ReadersRun} {a : ReadersAction} {p q : Addr} {left : Addr → Prop}

/-- The statements of `sys_read` write the call and the status of the process. -/
theorem advance_spec (h : s.advance p = some t) :
    t.live = s.live ∧ (∀ q, q ≠ p → t.call q = s.call q) ∧
      (t.k = s.k ∧ (s.call p).point ≠ .blockingForeground ∨
        (s.call p).point = .blockingForeground ∧ (t.call p).point = .yieldingForeground ∧
          t.k = { s.k with processes := Procs.blockForegroundProcess s.k.processes p } ∨
        (s.call p).point = .blocking ∧
          t.k = { s.k with processes := Procs.blockReadProcess s.k.processes p }) := by
  have hgoto : ∀ (u : ReadersRun) point q, q ≠ p → (u.goto p point).call q = u.call q :=
    fun u point q hq => update_of_ne hq _ _
  cases hpt : (s.call p).point with
  | idle => simp [advance, hpt] at h
  | blockingForeground =>
      simp only [advance, hpt, Option.some.injEq] at h
      subst h
      exact ⟨rfl, hgoto _ _, Or.inr (Or.inl ⟨rfl, by simp [goto], rfl⟩)⟩
  | blocking =>
      simp only [advance, hpt, Option.some.injEq] at h
      subst h
      exact ⟨rfl, hgoto _ _, Or.inr (Or.inr ⟨rfl, rfl⟩)⟩
  | yieldingForeground | yielding =>
      simp only [advance, hpt] at h
      split at h
      next => cases h
      next =>
        cases h
        exact ⟨rfl, hgoto _ _, Or.inl ⟨rfl, by simp⟩⟩
  | gotten c =>
      simp only [advance, hpt, Option.some.injEq] at h
      subst h
      split
      next => exact ⟨rfl, fun q hq => update_of_ne hq _ _, Or.inl ⟨rfl, by simp⟩⟩
      next => exact ⟨rfl, hgoto _ _, Or.inl ⟨rfl, by simp⟩⟩
  | _ =>
      simp only [advance, hpt, Option.some.injEq] at h
      subst h
      exact ⟨rfl, hgoto _ _, Or.inl ⟨rfl, by simp⟩⟩

/-- Who is past the test of the foreground after a statement. -/
theorem advance_admitted (h : s.advance p = some t) (ht : (t.call p).point.Admitted) :
    (s.call p).point = .entered ∧ p = s.k.foreground ∨
      (s.call p).point = .blockingForeground ∨
      (s.call p).point.Admitted ∧ ((s.call p).point = .yieldingForeground →
        (s.k.processes p).st ≠ .blockedForeground) := by
  cases hpt : (s.call p).point with
  | idle => simp [advance, hpt] at h
  | entered =>
      simp only [advance, hpt, Option.some.injEq] at h
      subst h
      refine Or.inl ⟨rfl, by_contra fun hfg => ?_⟩
      simp [goto, hfg, ReadPoint.Admitted] at ht
  | blockingForeground => exact Or.inr (Or.inl rfl)
  | yieldingForeground =>
      simp only [advance, hpt] at h
      split at h
      next => cases h
      next hblocked =>
        exact Or.inr (Or.inr ⟨trivial, fun _ hst => hblocked fun _ => Or.inr (Or.inr hst)⟩)
  | _ => exact Or.inr (Or.inr ⟨trivial, by simp⟩)

/-! ## Nobody in the foreground waits for it -/

/-- The process in the foreground is not parked until it gets it. -/
def ForegroundAwake (s : ReadersRun) : Prop :=
  (s.k.processes s.k.foreground).st ≠ .blockedForeground

/-- A process that found that it is not in the foreground blocks itself while that
is still true. -/
def BlocksOthers (s : ReadersRun) : ReadersAction → Prop
  | .advance => (s.call s.k.getCurrentProcess).point = .blockingForeground →
      s.k.getCurrentProcess ≠ s.k.foreground
  | _ => True

instance (s : ReadersRun) : DecidablePred (BlocksOthers s)
  | .advance => inferInstanceAs (Decidable (_ → _))
  | .interrupt _ | .nextProcess _ _ | .endProcess _ | .setForeground _ | .kill _ | .call _ =>
      inferInstanceAs (Decidable True)

/-- A statement parks the process in the foreground exactly if it is the block of
that process. -/
theorem ForegroundAwake.advance_iff (h : s.ForegroundAwake) (hp : p ≠ null)
    (ha : s.advance p = some t) :
    t.ForegroundAwake ↔ ((s.call p).point = .blockingForeground → p ≠ s.k.foreground) := by
  obtain ⟨-, -, ⟨hk, hpt⟩ | ⟨hpt, -, hk⟩ | ⟨hpt, hk⟩⟩ := advance_spec ha
  · rw [ForegroundAwake, hk]
    exact iff_of_true h fun he => absurd he hpt
  · rw [ForegroundAwake, hk]
    show (Procs.blockForegroundProcess s.k.processes p s.k.foreground).st ≠ _ ↔ _
    rw [Procs.blockForegroundProcess, if_pos hp]
    by_cases hfg : p = s.k.foreground
    · rw [← hfg, Procs.setSt_st_self]
      simp [hpt]
    · rw [Procs.setSt_of_ne (Ne.symm hfg)]
      exact iff_of_true h fun _ => hfg
  · rw [ForegroundAwake, hk]
    show (Procs.blockReadProcess s.k.processes p s.k.foreground).st ≠ _ ↔ _
    refine iff_of_true ?_ fun he => by simp [hpt] at he
    by_cases hfg : s.k.foreground = p
    · rw [Procs.blockReadProcess, hfg, Procs.setSt_st_self]
      decide
    · rw [Procs.blockReadProcess, Procs.setSt_of_ne hfg]
      exact h

theorem killProcess_st (procs : Procs) (p q : Addr) :
    (procs.killProcess p q).st = (procs q).st ∨ (procs.killProcess p q).st = .delete := by
  rw [Procs.killProcess]
  split
  · by_cases hq : q = p
    · subst hq
      exact Or.inr (Procs.setSt_st_self _ _ _)
    · rw [Procs.setSt_of_ne hq]
      exact Or.inl rfl
  · exact Or.inl rfl

/-- The process in the foreground stays awake over exactly the steps that meet the
guard. -/
theorem ForegroundAwake.next_iff (h : s.ForegroundAwake) (hnull : null ∉ s.live)
    (hn : readersSystem.next s a = some t) : t.ForegroundAwake ↔ BlocksOthers s a := by
  cases a with
  | interrupt code =>
      cases hn
      exact iff_of_true ((Kernel.handsOn_keyEffect s.k _).awake h) trivial
  | nextProcess fuel currentRsp =>
      obtain ⟨d, hd, he⟩ := Option.map_eq_some_iff.mp hn
      cases he
      exact iff_of_true ((Kernel.nextProcess_handsOn hd).awake h) trivial
  | endProcess fuel =>
      simp only [readersSystem] at hn
      split at hn
      next =>
        obtain ⟨⟨gone, k⟩, hd, he⟩ := Option.map_eq_some_iff.mp hn
        cases he
        exact iff_of_true ((Kernel.endProcess_handsOn hd).awake h) trivial
      next => cases hn
  | setForeground p =>
      simp only [readersSystem] at hn
      split at hn
      next =>
        cases hn
        exact iff_of_true ((Kernel.handsOn_setForegroundProcess s.k p).awake h) trivial
      next => cases hn
  | kill p =>
      simp only [readersSystem] at hn
      split at hn
      next =>
        cases hn
        refine iff_of_true ?_ trivial
        show (Procs.killProcess s.k.processes p s.k.foreground).st ≠ .blockedForeground
        rcases killProcess_st s.k.processes p s.k.foreground with hst | hst
        · rw [hst]
          exact h
        · simp [hst]
      next => cases hn
  | call bytes =>
      simp only [readersSystem] at hn
      split at hn
      next =>
        cases hn
        exact iff_of_true h trivial
      next => cases hn
  | advance =>
      simp only [readersSystem] at hn
      split at hn
      next hlive => exact h.advance_iff (fun he => hnull (he ▸ hlive)) hn
      next => cases hn

theorem live_of_next (hn : readersSystem.next s a = some t) : ∀ p ∈ t.live, p ∈ s.live := by
  cases a with
  | interrupt code =>
      cases hn
      exact fun _ => id
  | nextProcess fuel currentRsp =>
      obtain ⟨d, -, he⟩ := Option.map_eq_some_iff.mp hn
      cases he
      exact fun p => List.mem_of_mem_filter
  | endProcess fuel =>
      simp only [readersSystem] at hn
      split at hn
      next =>
        obtain ⟨⟨gone, k⟩, -, he⟩ := Option.map_eq_some_iff.mp hn
        cases he
        exact fun p => List.mem_of_mem_filter
      next => cases hn
  | advance =>
      simp only [readersSystem] at hn
      split at hn
      next =>
        rw [(advance_spec hn).1]
        exact fun _ => id
      next => cases hn
  | _ =>
      simp only [readersSystem] at hn
      split at hn
      next =>
        cases hn
        exact fun _ => id
      next => cases hn

/-! ## Only the foreground reads -/

/-- The process is past the test of the foreground, not waiting for it, and may
still run. -/
def MayRead (s : ReadersRun) (p : Addr) : Prop :=
  p ∈ s.live ∧ (s.call p).point.Admitted ∧
    ((s.call p).point = .yieldingForeground → (s.k.processes p).st ≠ .blockedForeground) ∧
    (p = s.k.getCurrentProcess ∨ (s.k.processes p).st ≠ .delete)

instance (s : ReadersRun) : DecidablePred s.MayRead := fun _ =>
  inferInstanceAs (Decidable (_ ∧ _ ∧ (_ → _) ∧ (_ ∨ _)))

/-- Whoever may read is in the foreground. -/
def ReadersInForeground (s : ReadersRun) : Prop := ∀ p, s.MayRead p → p = s.k.foreground

/-- The running process is inside of `get_char`, about to take a key or to count
one down. -/
def RemovesKey (s : ReadersRun) : Prop :=
  s.k.getCurrentProcess ∈ s.live ∧
    ((s.call s.k.getCurrentProcess).point = .taking ∨
      ∃ key, (s.call s.k.getCurrentProcess).point = .counting key)

/-- The process that the escape key gives the foreground to. -/
def heir (s : ReadersRun) : Addr := s.k.getProcessByPid (s.k.ppidProcess s.k.foreground)

/-- A scancode is the escape key, is read, and there is another process to give
the foreground to. -/
def EscapeMoves (s : ReadersRun) (code : UInt8) : Prop :=
  s.kb.size ≠ buffSize ∧ getKey code = escape ∧ s.heir ≠ null ∧ (s.k.processes s.heir).pid ≠ 0 ∧
    s.heir ≠ s.k.foreground

/-- The escape key takes the foreground from no process that still reads. -/
def EscapesIdle (s : ReadersRun) : ReadersAction → Prop
  | .interrupt code => s.EscapeMoves code → ¬s.MayRead s.k.foreground
  | _ => True

instance (s : ReadersRun) (code : UInt8) : Decidable (s.EscapeMoves code) :=
  inferInstanceAs (Decidable (_ ∧ _ ∧ _ ∧ _ ∧ _))

instance (s : ReadersRun) : DecidablePred (EscapesIdle s)
  | .interrupt code => inferInstanceAs (Decidable (s.EscapeMoves code → ¬s.MayRead s.k.foreground))
  | .nextProcess _ _ | .endProcess _ | .setForeground _ | .kill _ | .call _ | .advance =>
      inferInstanceAs (Decidable True)

theorem effect_eq_escape (kb : KeyQueue) (code : UInt8) :
    (kb.storeScancode code).1 = .escape ↔ kb.size ≠ buffSize ∧ getKey code = escape := by
  unfold KeyQueue.storeScancode
  simp only
  split
  next hfull => simp [hfull]
  next hroom =>
    split
    next hesc => exact iff_of_true rfl ⟨hroom, hesc⟩
    next hesc =>
      simp only [hesc, and_false, iff_false]
      repeat' split
      all_goals simp

theorem escapeMoves_iff (s : ReadersRun) (code : UInt8) :
    s.EscapeMoves code ↔ (s.interrupt code).k.foreground ≠ s.k.foreground := by
  have heffect := effect_eq_escape s.kb code
  show _ ↔ (s.k.keyEffect (s.kb.storeScancode code).1).foreground ≠ _
  cases he : (s.kb.storeScancode code).1 with
  | escape =>
      have hgo := heffect.mp he
      have hfg := (Kernel.setForegroundForceProcess_spec s.k s.heir).2
      show _ ↔ (s.k.setForegroundForceProcess s.heir).foreground ≠ _
      rw [hfg]
      split
      next hheir =>
        exact ⟨fun hm => hm.2.2.2.2, fun hne => ⟨hgo.1, hgo.2, hheir.1, hheir.2, hne⟩⟩
      next hheir =>
        refine iff_of_false (fun hm => hheir ⟨hm.2.2.1, hm.2.2.2.1⟩) (by simp)
  | nothing =>
      rw [he] at heffect
      exact iff_of_false (fun hm => by simpa using heffect.mpr ⟨hm.1, hm.2.1⟩) (fun hm => hm rfl)
  | wake =>
      rw [he] at heffect
      exact iff_of_false (fun hm => by simpa using heffect.mpr ⟨hm.1, hm.2.1⟩) (fun hm => hm rfl)

/-- A process that may read after a step might before it, too. -/
theorem MayRead.back (ht : t.MayRead p) (hlive : ∀ p ∈ t.live, p ∈ s.live)
    (hcall : t.call p = s.call p)
    (hwaits : (s.k.processes p).st = .blockedForeground →
      (t.k.processes p).st = .blockedForeground)
    (hdelete : (t.k.processes p).st = .delete ↔ (s.k.processes p).st = .delete)
    (hcur : t.k.getCurrentProcess = s.k.getCurrentProcess ∨
      (t.k.processes t.k.getCurrentProcess).st ≠ .delete) : s.MayRead p := by
  obtain ⟨hmem, hadmitted, hwoken, hruns⟩ := ht
  rw [hcall] at hadmitted hwoken
  refine ⟨hlive p hmem, hadmitted, fun hpt => mt hwaits (hwoken hpt), ?_⟩
  rcases hruns with rfl | hst
  · rcases hcur with hsame | hst
    · exact Or.inl hsame
    · exact Or.inr (mt hdelete.mpr hst)
  · exact Or.inr (mt hdelete.mpr hst)

/-- A step that hands the foreground on from processes that do not read after it. -/
theorem ReadersInForeground.handsOn (h : s.ReadersInForeground) (hh : Kernel.HandsOn left s.k t.k)
    (hlive : ∀ p ∈ t.live, p ∈ s.live) (hcall : t.call = s.call)
    (hcur : t.k.getCurrentProcess = s.k.getCurrentProcess ∨
      (t.k.processes t.k.getCurrentProcess).st ≠ .delete)
    (hleft : ∀ p, left p → ¬t.MayRead p) : t.ReadersInForeground := by
  intro p hp
  by_cases hwoken : (s.k.processes p).st = .blockedForeground ∧
      (t.k.processes p).st ≠ .blockedForeground
  · rcases hh.woken p hwoken.1 with hst | hfg | hl
    · exact absurd hst hwoken.2
    · exact hfg
    · exact absurd hp (hleft p hl)
  · have hold : s.MayRead p := hp.back hlive (congrFun hcall p)
      (fun hst => by_contra fun hne => hwoken ⟨hst, hne⟩) (hh.delete p) hcur
    have hfg := h p hold
    rcases hh.from_left with hsame | hl
    · exact hfg.trans hsame.symm
    · exact absurd hp (hleft p (hfg ▸ hl))

/-- The keyboard interrupt keeps the readers in the foreground exactly if it meets
the guard. -/
theorem ReadersInForeground.interrupt_iff (h : s.ReadersInForeground) (code : UInt8) :
    (s.interrupt code).ReadersInForeground ↔ EscapesIdle s (.interrupt code) := by
  have hh := Kernel.handsOn_keyEffect s.k (s.kb.storeScancode code).1
  have hcur : (s.interrupt code).k.getCurrentProcess = s.k.getCurrentProcess :=
    Kernel.getCurrentProcess_keyEffect s.k _
  constructor
  · intro ht hmoves hreads
    have hgone := (escapeMoves_iff s code).mp hmoves
    refine hgone (ht s.k.foreground ?_).symm
    obtain ⟨hmem, hadmitted, hwoken, hruns⟩ := hreads
    refine ⟨hmem, hadmitted, fun hpt => mt (hh.waits _) (hwoken hpt), ?_⟩
    rw [hcur]
    exact hruns.imp_right (mt (hh.delete _).mp)
  · intro hguard
    refine h.handsOn hh (fun _ => id) rfl (Or.inl hcur) ?_
    rintro p ⟨rfl, hgone⟩ hp
    have hmoves := (escapeMoves_iff s code).mpr hgone
    refine hguard hmoves (hp.back (fun _ => id) rfl (fun hst => ?_) (hh.delete _) (Or.inl hcur))
    exact Kernel.waits_keyEffect hst (Ne.symm hgone)

/-- A statement of `sys_read` lets only the process in the foreground on. -/
theorem ReadersInForeground.advance (h : s.ReadersInForeground) (hp : p ≠ null)
    (hlive : p ∈ s.live) (hcur : p = s.k.getCurrentProcess) (ha : s.advance p = some t) :
    t.ReadersInForeground := by
  obtain ⟨hsame, hothers, hk⟩ := advance_spec ha
  have hst : ∀ q, q ≠ p → (t.k.processes q).st = (s.k.processes q).st := by
    intro q hq
    rcases hk with ⟨hk, -⟩ | ⟨-, -, hk⟩ | ⟨-, hk⟩
    · rw [hk]
    · rw [hk]
      show (Procs.blockForegroundProcess s.k.processes p q).st = _
      rw [Procs.blockForegroundProcess, if_pos hp, Procs.setSt_of_ne hq]
    · rw [hk]
      show (Procs.blockReadProcess s.k.processes p q).st = _
      rw [Procs.blockReadProcess, Procs.setSt_of_ne hq]
  have hkept : t.k.foreground = s.k.foreground ∧
      t.k.getCurrentProcess = s.k.getCurrentProcess := by
    rcases hk with ⟨hk, -⟩ | ⟨-, -, hk⟩ | ⟨-, hk⟩
    · rw [hk]
      exact ⟨rfl, rfl⟩
    · rw [hk]
      exact ⟨rfl, rfl⟩
    · rw [hk]
      exact ⟨rfl, rfl⟩
  intro q hq
  rw [hkept.1]
  by_cases hqp : q = p
  · subst hqp
    rcases advance_admitted ha hq.2.1 with ⟨-, hfg⟩ | hpt | ⟨hadmitted, hwoken⟩
    · exact hfg
    · -- it has just blocked itself
      rcases hk with ⟨-, hne⟩ | ⟨-, hpt', hk⟩ | ⟨hpt', -⟩
      · exact absurd hpt hne
      · refine absurd ?_ (hq.2.2.1 hpt')
        rw [hk]
        show (Procs.blockForegroundProcess s.k.processes q q).st = _
        rw [Procs.blockForegroundProcess, if_pos hp, Procs.setSt_st_self]
      · rw [hpt] at hpt'
        cases hpt'
    · exact h q ⟨hlive, hadmitted, hwoken, Or.inl hcur⟩
  · refine h q (hq.back (fun r hr => hsame ▸ hr) (hothers q hqp) ?_ ?_ (Or.inl hkept.2))
    · rw [hst q hqp]
      exact id
    · rw [hst q hqp]

/-- The process that makes a call does not read. -/
theorem RunsFree.not_mayRead (h : s.RunsFree) (hcall : t.call = s.call) :
    ¬t.MayRead s.k.getCurrentProcess := by
  intro hreads
  have hadmitted := hreads.2.1
  rw [hcall, h.2] at hadmitted
  exact hadmitted

/-- A process is killed by one that does not read. -/
theorem ReadersInForeground.kill (h : s.ReadersInForeground) (hfree : s.RunsFree) (p : Addr) :
    ReadersInForeground { s with
      k := { s.k with processes := Procs.killProcess s.k.processes p } } := by
  intro q hq
  have hcur : q ≠ s.k.getCurrentProcess := by
    rintro rfl
    exact hfree.not_mayRead (t := { s with
      k := { s.k with processes := Procs.killProcess s.k.processes p } }) rfl hq
  have halive : (Procs.killProcess s.k.processes p q).st ≠ .delete := hq.2.2.2.resolve_left hcur
  have hst := (killProcess_st s.k.processes p q).resolve_right halive
  refine h q ⟨hq.1, hq.2.1, fun hpt => ?_, Or.inr ?_⟩
  · rw [← hst]
    exact hq.2.2.1 hpt
  · rwa [← hst]

/-- The readers stay in the foreground over exactly the steps that meet the guard. -/
theorem ReadersInForeground.next_iff (h : s.ReadersInForeground) (hnull : null ∉ s.live)
    (hn : readersSystem.next s a = some t) : t.ReadersInForeground ↔ EscapesIdle s a := by
  have hlive := live_of_next hn
  cases a with
  | interrupt code =>
      cases hn
      exact h.interrupt_iff code
  | nextProcess fuel currentRsp =>
      obtain ⟨d, hd, he⟩ := Option.map_eq_some_iff.mp hn
      cases he
      refine iff_of_true (h.handsOn (Kernel.nextProcess_handsOn hd) hlive rfl ?_ ?_) trivial
      · cases hs : d.switched with
        | true => exact Or.inr ((Kernel.nextProcess_delete hd).2 hs)
        | false => exact Or.inl (Kernel.nextProcess_current hd hs)
      · intro p hp hreads
        simpa [hp] using hreads.1
  | endProcess fuel =>
      simp only [readersSystem] at hn
      split at hn
      next =>
        obtain ⟨⟨gone, k⟩, hd, he⟩ := Option.map_eq_some_iff.mp hn
        cases he
        refine iff_of_true (h.handsOn (Kernel.endProcess_handsOn hd) hlive rfl
          (Or.inr (Kernel.endProcess_delete hd).2) ?_) trivial
        intro p hp hreads
        simpa [hp] using hreads.1
      next => cases hn
  | setForeground p =>
      simp only [readersSystem] at hn
      split at hn
      next hfree =>
        cases hn
        refine iff_of_true (h.handsOn (Kernel.handsOn_setForegroundProcess s.k p) hlive rfl
          (Or.inl ?_) ?_) trivial
        · exact Kernel.getCurrentProcess_setForegroundProcess s.k p
        · rintro q ⟨-, rfl⟩
          exact hfree.not_mayRead rfl
      next => cases hn
  | kill p =>
      simp only [readersSystem] at hn
      split at hn
      next hfree =>
        cases hn
        exact iff_of_true (h.kill hfree p) trivial
      next => cases hn
  | call bytes =>
      simp only [readersSystem] at hn
      split at hn
      next =>
        cases hn
        refine iff_of_true (fun q hq => ?_) trivial
        by_cases hcur : q = s.k.getCurrentProcess
        · have hadmitted := hq.2.1
          rw [hcur] at hadmitted
          simp [ReadPoint.Admitted] at hadmitted
        · exact h q (hq.back hlive (update_of_ne hcur _ _) id Iff.rfl (Or.inl rfl))
      next => cases hn
  | advance =>
      simp only [readersSystem] at hn
      split at hn
      next hmem =>
        exact iff_of_true (h.advance (fun he => hnull (he ▸ hmem)) hmem rfl hn) trivial
      next => cases hn

/-! ## What holds in every run -/

/-- What holds at the start and is kept by the guarded steps of processes that are
not null holds in every guarded run. -/
theorem of_reachBy {G : ReadersRun → ReadersAction → Prop} {I : ReadersRun → Prop}
    (start : ∀ s, readersSystem.init s → I s)
    (kept : ∀ s a t, I s → null ∉ s.live → G s a → readersSystem.next s a = some t → I t)
    (h : readersSystem.ReachBy G s) : I s ∧ null ∉ s.live := by
  refine h.invariant (I := fun s => I s ∧ null ∉ s.live) (fun s hs => ⟨start s hs, hs.1⟩) ?_
  intro s a t hi hg hn
  exact ⟨kept s a t hi.1 hi.2 hg hn, fun hmem => hi.2 (live_of_next hn null hmem)⟩

/-- As long as nobody blocks itself for the foreground while it has it, the process
in the foreground is not parked.  A step after which it is parked is such a block. -/
theorem foreground_awake (h : readersSystem.ReachBy BlocksOthers s) :
    s.ForegroundAwake ∧
      ∀ a t, readersSystem.next s a = some t → (t.ForegroundAwake ↔ BlocksOthers s a) := by
  have hinv : s.ForegroundAwake ∧ null ∉ s.live := by
    refine of_reachBy (fun _ hs => hs.2.2) ?_ h
    intro s a t hi hnull hg hn
    exact (hi.next_iff hnull hn).mpr hg
  exact ⟨hinv.1, fun a t hn => hinv.1.next_iff hinv.2 hn⟩

/-- The first of two processes is in the foreground, and the child of the second. -/
def twoReaders : ReadersRun where
  k := { Kernel.twoProcesses with
    processes := fun p =>
      { Process.zero with st := .ready, pid := p / 10 + 1, ppid := if p = 10 then 3 else 0 }
    processTable := update (update (fun _ => null) 2 10) 3 20
    foreground := 10 }
  kb := ⟨fun _ => 0, 0, 0, 0, .start⟩
  call _ := ⟨.idle, fun _ => 0, 0, 0⟩
  live := [10, 20]

theorem init_twoReaders : readersSystem.init twoReaders :=
  ⟨by decide, fun _ => rfl, by decide⟩

/-- The second process asks for the foreground and waits, and then gets it. -/
def parkedInTime : Option ReadersRun :=
  readersSystem.executeBy (fun s a => decide (BlocksOthers s a)) twoReaders
    [.nextProcess 2 0, .call 1, .advance, .advance, .nextProcess 2 0, .setForeground 20,
      .nextProcess 2 0, .advance, .advance]

theorem foreground_awake_parked : (parkedInTime.get (by decide +kernel)).ForegroundAwake :=
  (foreground_awake ((System.ReachBy.init init_twoReaders).execute (fun _ _ => of_decide_eq_true)
    (Option.some_get _).symm)).1

/-- The second process gets the foreground between its question and its block. -/
theorem foreground_parked : ¬∀ s, readersSystem.Reach s → s.ForegroundAwake := by
  intro hall
  obtain ⟨s, hs, hf⟩ := System.exists_reach_of_execute init_twoReaders
    [.nextProcess 2 0, .call 1, .advance, .interrupt 1, .advance]
    (fun s => decide ((s.k.processes s.k.foreground).st = .blockedForeground)) (by decide +kernel)
  exact hall s hs (of_decide_eq_true hf)

/-- As long as the escape key takes the foreground from no process that still
reads, only the process in the foreground may read, and whoever removes a key is
that process.  A step that lets another process read is such a press of the key. -/
theorem keys_for_foreground (h : readersSystem.ReachBy EscapesIdle s) :
    (s.RemovesKey → s.k.getCurrentProcess = s.k.foreground) ∧ s.ReadersInForeground ∧
      ∀ a t, readersSystem.next s a = some t → (t.ReadersInForeground ↔ EscapesIdle s a) := by
  have hinv : s.ReadersInForeground ∧ null ∉ s.live := by
    refine of_reachBy (fun s hs p hp => ?_) ?_ h
    · have hadmitted := hp.2.1
      rw [hs.2.1 p] at hadmitted
      exact hadmitted.elim
    · intro s a t hi hnull hg hn
      exact (hi.next_iff hnull hn).mpr hg
  refine ⟨fun hremoves => hinv.1 _ ⟨hremoves.1, ?_, ?_, Or.inl rfl⟩, hinv.1,
    fun a t hn => hinv.1.next_iff hinv.2 hn⟩
  · rcases hremoves.2 with hpt | ⟨key, hpt⟩
    · rw [hpt]
      trivial
    · rw [hpt]
      trivial
  · rcases hremoves.2 with hpt | ⟨key, hpt⟩
    · simp [hpt]
    · simp [hpt]

/-- A key is pressed and read, and then the escape key. -/
def readThenEscaped : Option ReadersRun :=
  readersSystem.executeBy (fun s a => decide (EscapesIdle s a)) twoReaders
    (.interrupt 30 :: .call 1 :: List.replicate 9 .advance ++ [.interrupt 1, .nextProcess 2 0])

theorem keys_for_foreground_readThenEscaped :
    (readThenEscaped.get (by decide +kernel)).ReadersInForeground :=
  (keys_for_foreground ((System.ReachBy.init init_twoReaders).execute (fun _ _ => of_decide_eq_true)
    (Option.some_get _).symm)).2.1

/-- A key wakes the process in the foreground up, the escape key gives the
foreground to the other one, and the first process takes the key. -/
theorem key_taken_behind : ¬∀ s, readersSystem.Reach s →
    s.RemovesKey → s.k.getCurrentProcess = s.k.foreground := by
  intro hall
  obtain ⟨s, hs, hf⟩ := System.exists_reach_of_execute init_twoReaders
    (.call 1 :: List.replicate 6 .advance ++ [.nextProcess 2 0, .interrupt 30, .interrupt 1,
      .nextProcess 2 0, .advance, .advance, .advance])
    (fun s => decide (s.k.getCurrentProcess ∈ s.live) &&
      decide ((s.call s.k.getCurrentProcess).point = .taking) &&
      decide (s.k.getCurrentProcess ≠ s.k.foreground)) (by decide +kernel)
  simp only [Bool.and_eq_true, decide_eq_true_eq] at hf
  exact hf.2 (hall s hs ⟨hf.1.1, Or.inl hf.1.2⟩)

end ReadersRun

end TPE
