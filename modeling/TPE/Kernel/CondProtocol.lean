import TPE.Library.WaitQueue
import TPE.Kernel.CondVariable
import TPE.Kernel.MutexProtocol

/-!
# One condition variable and its processes

Any number of processes use one condition variable with one mutex.  The steps
on the mutex are those of `MutexProtocol`.  A section under the mutex of the
variable itself is one step, and a switch is possible between any two
statements of `cond_wait` and of `cond_signal`.

A process that waits gives the mutex back, queues itself and blocks itself, in
three statements.  A signal between the first two finds nobody, and one between
the last two wakes up a process that is not blocked yet.  `WakesBlocked` rules
both out.
-/

namespace TPE

open Function

namespace Kernel

/-- The next statement of a process in `cond_wait` or `cond_signal`. -/
inductive CondPoint where
  /-- It is in neither. -/
  | out
  /-- `sync_enqueue`, after `mutex_unlock(lock_key)` -/
  | released
  /-- `block_process` -/
  | queued
  /-- `yield_process` -/
  | yielding
  /-- `mutex_lock(lock_key)` -/
  | returning
  /-- `unblock_process`, of the process that `cond_signal` took off the queue. -/
  | signalling (p : Addr)
deriving DecidableEq

namespace CondPoint

/-- In `cond_wait`. -/
def inWait : CondPoint → Prop
  | .released => True
  | .queued => True
  | .yielding => True
  | .returning => True
  | _ => False

/-- How far the process `p` is with its place in the queue. -/
def stage (p : Addr) : CondPoint → Stage Addr
  | .queued => .registered p
  | .yielding => .waiting p
  | _ => .out

theorem inWait_of_stage {p : Addr} {pt : CondPoint} (h : pt.stage p ≠ .out) : pt.inWait := by
  cases pt <;> trivial

/-- The ticket of a process is the process itself. -/
theorem ticket_eq {p q : Addr} {pt : CondPoint} (h : (pt.stage p).ticket = some q) : q = p := by
  cases pt <;> cases h <;> rfl

end CondPoint

/-- The mutex and its processes, with the points of the processes in `cond_wait`
and `cond_signal`. -/
structure CondRun where
  m : MutexRun
  point : Addr → CondPoint

namespace CondRun

/-- The processes in the variable's queue, first to last. -/
def waiters (s : CondRun) (key : Int) : List Addr :=
  s.m.k.elems (s.m.k.openConds key).processQueue

/-- The running process goes to `pt`. -/
def goto (s : CondRun) (k : Kernel) (pt : CondPoint) : CondRun where
  m := { s.m with k }
  point := update s.point s.m.k.getCurrentProcess pt

/-- The running process is in no call. -/
def Free (s : CondRun) : Prop :=
  s.point s.m.k.getCurrentProcess = .out ∧ ¬(s.m.point s.m.k.getCurrentProcess).inLock

instance (s : CondRun) : Decidable s.Free := inferInstanceAs (Decidable (_ ∧ _))

@[simp] theorem goto_point_self (s : CondRun) (k : Kernel) (pt : CondPoint) :
    (s.goto k pt).point s.m.k.getCurrentProcess = pt := update_self _ _ _

theorem goto_point_of_ne {s : CondRun} {k : Kernel} {pt : CondPoint} {p : Addr}
    (hp : p ≠ s.m.k.getCurrentProcess) : (s.goto k pt).point p = s.point p := update_of_ne hp _ _

theorem goto_stage (s : CondRun) (k : Kernel) (pt : CondPoint) :
    (fun p => ((s.goto k pt).point p).stage p) =
      update (fun p => (s.point p).stage p) s.m.k.getCurrentProcess
        (pt.stage s.m.k.getCurrentProcess) := by
  funext p
  by_cases hp : p = s.m.k.getCurrentProcess
  · rw [hp, update_self, goto_point_self]
  · rw [update_of_ne hp, goto_point_of_ne hp]

theorem goto_idle {s : CondRun} {k : Kernel} {pt : CondPoint}
    (h : ∀ p, (s.point p).inWait → s.m.point p = .idle)
    (hpt : pt.inWait → (s.point s.m.k.getCurrentProcess).inWait) (p : Addr)
    (hp : ((s.goto k pt).point p).inWait) : s.m.point p = .idle := by
  refine h p ?_
  by_cases hcur : p = s.m.k.getCurrentProcess
  · rw [hcur, goto_point_self] at hp
    rw [hcur]
    exact hpt hp
  · rwa [goto_point_of_ne hcur] at hp

theorem goto_whole {s : CondRun} {k : Kernel} {pt : CondPoint}
    (h : ∀ p w, s.point p ≠ .signalling w) (hpt : ∀ w, pt ≠ .signalling w) (p w : Addr) :
    (s.goto k pt).point p ≠ .signalling w := by
  by_cases hcur : p = s.m.k.getCurrentProcess
  · rw [hcur, goto_point_self]
    exact hpt w
  · rw [goto_point_of_ne hcur]
    exact h p w

/-- The process has given the mutex back in `cond_wait`, and no signal and no
broadcast has woken it up since. -/
def Waits (s : CondRun) (p : Addr) : Prop :=
  s.point p = .released ∨ s.point p = .queued ∨
    s.point p = .yielding ∧ s.m.k.processes.isBlockedProcess p

end CondRun

/-- What can happen in one step. -/
inductive CondAction where
  /-- A step of the mutex and the kernel, by a process outside these calls. -/
  | mutex (a : MutexAction)
  /-- The running process calls `cond_wait`, up to its `mutex_unlock`. -/
  | wait
  /-- The running process does the next statement of its call. -/
  | advance
  /-- The running process calls `cond_signal`, and is not interrupted in it. -/
  | signal
  /-- The running process calls `cond_signal`, up to its `unblock_process`. -/
  | take
  /-- The running process calls `cond_broadcast`. -/
  | broadcast

/-- The next statement of the running process. -/
def condAdvance (key lockKey : Int) (s : CondRun) : Option CondRun :=
  let p := s.m.k.getCurrentProcess
  match s.point p with
  | .out => none
  | .released => (s.m.k.syncEnqueue key p).map fun k => s.goto k .queued
  | .queued =>
      let processes := Procs.blockProcess s.m.k.processes p
      some (s.goto { s.m.k with processes } .yielding)
  | .yielding =>
      if s.m.k.processes.isBlockedProcess p then none else some (s.goto s.m.k .returning)
  | .returning =>
      ((mutexSystem lockKey).next s.m .lock).map fun m => ⟨m, update s.point p .out⟩
  | .signalling w =>
      let processes := Procs.unblockProcess s.m.k.processes w
      some (s.goto { s.m.k with processes } .out)

/-- Processes that use the variable with the key `key` and the mutex with the
key `lockKey`.  A process waits only when it has the mutex. -/
def condSystem (key lockKey : Int) : System CondRun CondAction where
  init s := ∃ (m : MutexRun) (name : CString) (i : Nat), (mutexSystem lockKey).init m ∧
    m.k.condSearch name = .closed i ∧ m.k.condOpen name = some (key, s.m.k) ∧
    s.m = { m with k := s.m.k } ∧ ∀ p, s.point p = .out
  next
    | s, .mutex a =>
        if ∀ p ∈ a.subject s.m, s.point p = .out then
          ((mutexSystem lockKey).next s.m a).map fun m => { s with m }
        else none
    | s, .wait =>
        if s.point s.m.k.getCurrentProcess = .out ∧ s.m.k.condIsOpen key then
          ((mutexSystem lockKey).next s.m .unlock).map fun m =>
            ⟨m, update s.point s.m.k.getCurrentProcess .released⟩
        else none
    | s, .advance => condAdvance key lockKey s
    | s, .signal =>
        if s.Free then
          (s.m.k.condSignal key).map fun (_, k) => { s with m := { s.m with k } }
        else none
    | s, .take =>
        if s.Free ∧ s.m.k.condIsOpen key then
          (s.m.k.syncDequeue key).map fun (p, k) =>
            if p = null then { s with m := { s.m with k } } else s.goto k (.signalling p)
        else none
    | s, .broadcast =>
        if s.Free then
          (s.m.k.condBroadcast key).map fun (_, k) => { s with m := { s.m with k } }
        else none

/-- Who is woken up is blocked, and who waits is in the queue.  A signal takes a
process past its block, and finds the queue empty only when nobody is about to
queue itself.  A broadcast comes when nobody is between the release of the
mutex and the block.  A signal that takes a process is not interrupted. -/
def WakesBlocked (key : Int) (s : CondRun) : CondAction → Prop
  | .signal =>
      match s.waiters key with
      | [] => ∀ p, s.point p ≠ .released
      | w :: _ => s.point w ≠ .queued
  | .take => s.waiters key = [] ∧ ∀ p, s.point p ≠ .released
  | .broadcast => ∀ p, s.point p ≠ .released ∧ s.point p ≠ .queued
  | _ => True

/-! ## The invariant -/

/-- The pages of the variable's queue. -/
def condPages (k : Kernel) (key : Int) : List Addr :=
  (k.openConds key).processQueue :: (k.queues (k.openConds key).processQueue).map QueueNode.page

/-- The waiting processes as processes with a ticket, which is the process. -/
def CondRun.view (s : CondRun) (key : Int) : WaitState Addr Addr where
  tickets := {p | p ∈ s.waiters key}
  blocked := s.m.k.processes.isBlockedProcess
  stage p := (s.point p).stage p

/-- The invariant of the guarded runs. -/
structure CondInv (key lockKey : Int) (s : CondRun) : Prop where
  opened : s.m.k.condIsOpen key
  nodup : (s.m.k.condPages key).Nodup
  waitersNodup : (s.waiters key).Nodup
  noNull : null ∉ s.waiters key
  mutex : ∃ holder, MutexInv s.m lockKey {a | a ∈ s.m.k.condPages key} holder
  idle : ∀ p, (s.point p).inWait → s.m.point p = .idle
  /-- No signal was interrupted. -/
  whole : ∀ p w, s.point p ≠ .signalling w
  wait : WaitInv (s.view key)

variable {key lockKey : Int} {s t : CondRun} {k : Kernel}

namespace CondInv

/-- A step on the mutex by a process that waits for nothing. -/
theorem mutexStep {a : MutexAction} {m : MutexRun} {point : Addr → CondPoint}
    (h : CondInv key lockKey s) (hn : (mutexSystem lockKey).next s.m a = some m)
    (hsubject : ∀ p ∈ a.subject s.m, (s.point p).stage p = .out)
    (hstage : ∀ p, (point p).stage p = (s.point p).stage p)
    (hidle : ∀ p, (point p).inWait → m.point p = .idle)
    (hwhole : ∀ p w, point p ≠ .signalling w) : CondInv key lockKey ⟨m, point⟩ := by
  obtain ⟨hopen, hnodup, hwaiters, hno, ⟨holder, hm⟩, hout, -, hw⟩ := h
  obtain ⟨hm', hframe⟩ := hm.next hn
  have hqueue : m.k.queues (s.m.k.openConds key).processQueue =
      s.m.k.queues (s.m.k.openConds key).processQueue := hframe.queues _ List.mem_cons_self
  have hpages : m.k.condPages key = s.m.k.condPages key := by
    rw [condPages, hframe.conds, hqueue]
    rfl
  have hsame : CondRun.waiters ⟨m, point⟩ key = s.waiters key := by
    rw [CondRun.waiters, hframe.conds, elems, hqueue]
    rfl
  refine ⟨?_, ?_, ?_, ?_, ?_, hidle, hwhole, ?_⟩
  · rw [condIsOpen, hframe.conds]
    exact hopen
  · rw [hpages]
    exact hnodup
  · rw [hsame]
    exact hwaiters
  · rw [hsame]
    exact hno
  · rw [hpages]
    exact hm'
  · have hblocked : ∀ p, (s.point p).stage p ≠ .out →
        (m.k.processes.isBlockedProcess p ↔ s.m.k.processes.isBlockedProcess p) := by
      intro p hp
      refine (hframe.idle p (hout p (CondPoint.inWait_of_stage hp)) fun hs => ?_).2
      exact hp (hsubject p hs)
    refine (hw.reblock hblocked).of_eq (WaitState.ext ?_ rfl (funext hstage))
    simp only [CondRun.view, hsame]

/-! ## One step -/

/-- The queue of the variable is not that of the mutex. -/
theorem queue_ne (h : CondInv key lockKey s) :
    (s.m.k.openMutexes lockKey).processQueue ≠ (s.m.k.openConds key).processQueue := by
  obtain ⟨holder, hm⟩ := h.mutex
  intro he
  refine hm.ready.apart (s.m.k.openConds key).processQueue List.mem_cons_self ?_
  rw [← he]
  exact List.mem_cons_self

theorem header (h : CondInv key lockKey s) : (s.m.k.openConds key).processQueue ≠ null := by
  obtain ⟨holder, hm⟩ := h.mutex
  exact (hm.ready.pages.isPage _ (Or.inr List.mem_cons_self)).ne_null

/-- `sync_enqueue` -/
theorem enqueue (h : CondInv key lockKey s)
    (hp : s.point s.m.k.getCurrentProcess = .released)
    (hr : s.m.k.syncEnqueue key s.m.k.getCurrentProcess = some k) :
    CondInv key lockKey (s.goto k .queued) := by
  set p := s.m.k.getCurrentProcess with hpdef
  obtain ⟨page, pages, hget, rfl⟩ := enqueue_spec h.header hr
  have hqueue := h.queue_ne
  obtain ⟨hopen, hnodup, hwaiters, hno, ⟨holder, hm⟩, hidle, hwhole, hw⟩ := h
  obtain ⟨hfresh, -, hused⟩ := hm.ready.pages.getPage hget
  rw [Set.mem_ofPred_eq, not_or] at hfresh
  have hpages : condPages { s.m.k with
      pages
      queues := update s.m.k.queues (s.m.k.openConds key).processQueue
        (s.m.k.queues (s.m.k.openConds key).processQueue ++ [⟨page, p⟩]) } key =
      s.m.k.condPages key ++ [page] := by
    simp only [condPages, update_self, List.map_append, List.map_cons, List.map_nil,
      List.cons_append]
  have hnew : (s.goto { s.m.k with
      pages
      queues := update s.m.k.queues (s.m.k.openConds key).processQueue
        (s.m.k.queues (s.m.k.openConds key).processQueue ++ [⟨page, p⟩]) } .queued).waiters key =
      s.waiters key ++ [p] := by
    simp only [CondRun.waiters, CondRun.goto, elems, update_self, List.map_append, List.map_cons,
      List.map_nil]
  have hstage : (s.point p).stage p = .out := by
    rw [hp]
    rfl
  have hnone : ∀ q, ((s.point q).stage q).ticket ≠ some p := by
    intro q hq
    obtain rfl := CondPoint.ticket_eq hq
    rw [hstage] at hq
    cases hq
  have hp' : p ∉ s.waiters key := by
    intro hmem
    obtain ⟨q, hq⟩ := hw.owner p hmem
    exact hnone q hq
  refine ⟨hopen, ?_, ?_, ?_, ⟨holder, ?_⟩, CondRun.goto_idle hidle fun _ => hp ▸ trivial,
    CondRun.goto_whole hwhole (fun _ hpt => by cases hpt), ?_⟩
  · refine (congrArg List.Nodup hpages).mpr (List.nodup_append.mpr
      ⟨hnodup, List.nodup_singleton _, fun a ha b hb he => ?_⟩)
    rw [he, List.mem_singleton.mp hb] at ha
    exact hfresh.2 ha
  · rw [hnew]
    refine List.nodup_append.mpr ⟨hwaiters, List.nodup_singleton _, fun a ha b hb he => ?_⟩
    rw [he, List.mem_singleton.mp hb] at ha
    exact hp' ha
  · rw [hnew, List.mem_append, not_or]
    exact ⟨hno, fun hmem => hm.ready.running (List.mem_singleton.mp hmem).symm⟩
  · refine hm.elsewhere rfl rfl (update_of_ne hqueue _ _) ?_ ?_ hm.ready.alive fun _ _ => Iff.rfl
    · refine hused.mono ?_
      rintro a (ha | ha)
      · exact Or.inr (Or.inl ha)
      · rcases List.mem_append.mp (hpages ▸ ha) with ha | ha
        · exact Or.inr (Or.inr ha)
        · exact Or.inl (List.mem_singleton.mp ha)
    · intro a ha hmem
      rcases List.mem_append.mp (hpages ▸ ha) with ha | ha
      · exact hm.ready.apart a ha hmem
      · rw [List.mem_singleton.mp ha] at hmem
        exact hfresh.1 hmem
  · refine (hw.register hstage hnone).of_eq (WaitState.ext ?_ rfl ?_)
    · ext a
      simp only [CondRun.view, hnew, List.mem_append, List.mem_singleton, Set.mem_ofPred_eq,
        Set.mem_insert_iff]
      exact or_comm
    · exact CondRun.goto_stage _ _ _

/-- The process blocks itself. -/
theorem block (h : CondInv key lockKey s) (hp : s.point s.m.k.getCurrentProcess = .queued) :
    CondInv key lockKey (s.goto { s.m.k with
      processes := Procs.blockProcess s.m.k.processes s.m.k.getCurrentProcess } .yielding) := by
  obtain ⟨hopen, hnodup, hwaiters, hno, ⟨holder, hm⟩, hidle, hwhole, hw⟩ := h
  have hblocked := Procs.isBlockedProcess_block hm.ready.running (hm.ready.alive _)
  refine ⟨hopen, hnodup, hwaiters, hno, ⟨holder, ?_⟩, CondRun.goto_idle hidle fun _ => hp ▸ trivial,
    CondRun.goto_whole hwhole (fun _ hpt => nomatch hpt), ?_⟩
  · refine hm.elsewhere rfl rfl rfl hm.ready.pages hm.ready.apart
      (fun q hq => hm.ready.alive q (Procs.blockProcess_delete_iff.mp hq)) fun q hq => ?_
    have hne : q ≠ s.m.k.getCurrentProcess := by
      rintro rfl
      have hout := hidle _ (hp ▸ trivial : (s.point s.m.k.getCurrentProcess).inWait)
      rcases hq with hq | hq <;> cases hout.symm.trans hq
    rw [hblocked, update_of_ne hne]
  · have hstage : (s.point s.m.k.getCurrentProcess).stage s.m.k.getCurrentProcess =
        .registered s.m.k.getCurrentProcess := by
      rw [hp]
      rfl
    exact (hw.block hstage).of_eq (WaitState.ext rfl hblocked (CondRun.goto_stage _ _ _))

/-- The process returns from its yield. -/
theorem resume (h : CondInv key lockKey s) (hp : s.point s.m.k.getCurrentProcess = .yielding)
    (hb : ¬s.m.k.processes.isBlockedProcess s.m.k.getCurrentProcess) :
    CondInv key lockKey (s.goto s.m.k .returning) := by
  obtain ⟨hopen, hnodup, hwaiters, hno, hmutex, hidle, hwhole, hw⟩ := h
  refine ⟨hopen, hnodup, hwaiters, hno, hmutex, CondRun.goto_idle hidle fun _ => hp ▸ trivial,
    CondRun.goto_whole hwhole (fun _ hpt => nomatch hpt), ?_⟩
  have hstage : (s.point s.m.k.getCurrentProcess).stage s.m.k.getCurrentProcess =
      .waiting s.m.k.getCurrentProcess := by
    rw [hp]
    rfl
  exact (hw.resume hstage hb).of_eq (WaitState.ext rfl rfl (CondRun.goto_stage _ _ _))

/-- A process past its block is taken off the queue and woken up. -/
theorem serve (h : CondInv key lockKey s) {f : QueueNode} {rest : List QueueNode}
    (hq : s.m.k.queues (s.m.k.openConds key).processQueue = f :: rest)
    (hp : s.point f.elem = .yielding) :
    CondInv key lockKey { s with m := { s.m with k := { s.m.k with
      queues := update s.m.k.queues (s.m.k.openConds key).processQueue rest
      pages := s.m.k.pages.storePage f.page
      processes := Procs.unblockProcess s.m.k.processes f.elem } } } := by
  have hqueue := h.queue_ne
  obtain ⟨hopen, hnodup, hwaiters, hno, ⟨holder, hm⟩, hidle, hwhole, hw⟩ := h
  have hold : s.m.k.condPages key =
      (s.m.k.openConds key).processQueue :: f.page :: rest.map QueueNode.page := by
    rw [condPages, hq]
    rfl
  have hwold : s.waiters key = f.elem :: rest.map QueueNode.elem := by
    rw [CondRun.waiters, elems, hq]
    rfl
  have hpages : condPages { s.m.k with
      queues := update s.m.k.queues (s.m.k.openConds key).processQueue rest
      pages := s.m.k.pages.storePage f.page
      processes := Procs.unblockProcess s.m.k.processes f.elem } key =
      (s.m.k.openConds key).processQueue :: rest.map QueueNode.page := by
    simp only [condPages, update_self]
  have hnew : CondRun.waiters { s with m := { s.m with k := { s.m.k with
      queues := update s.m.k.queues (s.m.k.openConds key).processQueue rest
      pages := s.m.k.pages.storePage f.page
      processes := Procs.unblockProcess s.m.k.processes f.elem } } } key =
      rest.map QueueNode.elem := by
    simp only [CondRun.waiters, elems, update_self]
  have hsub : ∀ a ∈ (s.m.k.openConds key).processQueue :: rest.map QueueNode.page,
      a ∈ s.m.k.condPages key := by
    intro a ha
    rw [hold]
    rcases List.mem_cons.mp ha with rfl | ha
    · exact List.mem_cons_self
    · exact List.mem_cons_of_mem _ (List.mem_cons_of_mem _ ha)
  have hfmem : f.page ∈ s.m.k.condPages key := by
    rw [hold]
    exact List.mem_cons_of_mem _ List.mem_cons_self
  rw [hold, List.nodup_cons, List.nodup_cons, List.mem_cons, not_or] at hnodup
  rw [hwold, List.nodup_cons] at hwaiters
  obtain ⟨⟨hqf, hqrest⟩, hfrest, hrest⟩ := hnodup
  have hfidle : s.m.point f.elem = .idle := hidle _ (hp ▸ trivial)
  rw [hwold, List.mem_cons, not_or] at hno
  have hnull : f.elem ≠ null := Ne.symm hno.1
  have hblocked := Procs.isBlockedProcess_unblock hnull (hm.ready.alive _)
  refine ⟨hopen, ?_, ?_, ?_, ⟨holder, ?_⟩, hidle, hwhole, ?_⟩
  · exact (congrArg List.Nodup hpages).mpr (List.nodup_cons.mpr ⟨hqrest, hrest⟩)
  · rw [hnew]
    exact hwaiters.2
  · rw [hnew]
    exact hno.2
  · refine hm.elsewhere rfl rfl (update_of_ne hqueue _ _) ?_ (fun a ha hmem => ?_)
      (fun q hdel => hm.ready.alive q (Procs.unblockProcess_delete_iff.mp hdel)) fun q hin => ?_
    · refine (hm.ready.pages.storePage (Or.inr hfmem)).mono ?_
      rintro a (ha | ha)
      · refine ⟨Or.inl ha, ?_⟩
        rintro rfl
        exact hm.ready.apart _ hfmem ha
      · have ha' := hpages ▸ ha
        refine ⟨Or.inr (hsub a ha'), ?_⟩
        rintro rfl
        rcases List.mem_cons.mp ha' with ha' | ha'
        · exact hqf ha'.symm
        · exact hfrest ha'
    · exact hm.ready.apart a (hsub a (hpages ▸ ha)) hmem
    · have hne : q ≠ f.elem := by
        rintro rfl
        rcases hin with hin | hin <;> cases hfidle.symm.trans hin
      rw [hblocked, update_of_ne hne]
  · have hstage : (s.point f.elem).stage f.elem = .waiting f.elem := by
      rw [hp]
      rfl
    refine (hw.wake hstage).of_eq (WaitState.ext ?_ hblocked rfl)
    ext a
    simp only [CondRun.view, hnew, hwold, List.mem_cons, Set.mem_ofPred_eq]
    constructor
    · intro ha
      refine ⟨Or.inr ha, ?_⟩
      rintro rfl
      exact hwaiters.1 ha
    · rintro ⟨ha | ha, hne⟩
      · exact absurd ha hne
      · exact ha

/-- The process at the head of the queue is before or past its block. -/
theorem head_point (h : CondInv key lockKey s) {p : Addr} {rest : List Addr}
    (hq : s.waiters key = p :: rest) : s.point p = .queued ∨ s.point p = .yielding := by
  obtain ⟨q, hp⟩ := h.wait.owner p (by
    simp only [CondRun.view, hq]
    exact List.mem_cons_self)
  obtain rfl := CondPoint.ticket_eq hp
  cases hpt : s.point p <;> simp only [CondRun.view, hpt] at hp <;> cases hp
  · exact Or.inl rfl
  · exact Or.inr rfl

/-- `cond_broadcast`, when every process in the queue is past its block. -/
theorem releaseWaiters {fuel : Nat} (h : CondInv key lockKey s)
    (hpast : ∀ p, s.point p ≠ .queued)
    (hr : s.m.k.releaseWaiters fuel (s.m.k.openConds key).processQueue = some k) :
    CondInv key lockKey { s with m := { s.m with k } } ∧ k.openConds = s.m.k.openConds ∧
      k.elems (s.m.k.openConds key).processQueue = [] := by
  induction fuel generalizing s with
  | zero => cases hr
  | succ fuel ih =>
      rw [Kernel.releaseWaiters] at hr
      split at hr
      next hempty =>
        cases hr
        refine ⟨h, rfl, ?_⟩
        rw [elems, hempty.resolve_left h.header]
        rfl
      next hne =>
        obtain ⟨⟨p, k₁⟩, hdeq, hr⟩ := Option.bind_eq_some_iff.mp hr
        obtain ⟨hnull, hcons⟩ := not_or.mp hne
        obtain ⟨f, rest, hf⟩ := List.exists_cons_of_ne_nil hcons
        obtain ⟨rfl, rfl⟩ := dequeue_cons hnull hf hdeq
        have hhead := h.head_point (congrArg (List.map QueueNode.elem) hf)
        have hrest := ih (h.serve hf (hhead.resolve_left (hpast _))) hpast hr
        exact hrest

/-- `cond_signal`, when the head of the queue is past its block. -/
theorem signal {n : Int} (h : CondInv key lockKey s) (hg : WakesBlocked key s .signal)
    (hr : s.m.k.condSignal key = some (n, k)) :
    CondInv key lockKey { s with m := { s.m with k } } ∧
      (s.waiters key = [] ∨ ∃ p ∈ s.waiters key, s.point p = .yielding ∧
        ¬k.processes.isBlockedProcess p) := by
  rw [condSignal, if_pos h.opened] at hr
  obtain ⟨⟨p, k₁⟩, hdeq, he⟩ := Option.map_eq_some_iff.mp hr
  unfold syncDequeue at hdeq
  simp only at hdeq
  split at hdeq
  next hempty =>
    cases hdeq
    cases he
    refine ⟨h, Or.inl ?_⟩
    rw [CondRun.waiters, elems, hempty.resolve_left h.header]
    rfl
  next hne =>
    obtain ⟨hnull, hcons⟩ := not_or.mp hne
    obtain ⟨f, rest, hf⟩ := List.exists_cons_of_ne_nil hcons
    obtain ⟨rfl, rfl⟩ := dequeue_cons hnull hf hdeq
    have hwait : s.waiters key = f.elem :: rest.map QueueNode.elem :=
      congrArg (List.map QueueNode.elem) hf
    have hpast : s.point f.elem ≠ .queued := by
      simp only [WakesBlocked, hwait] at hg
      exact hg
    have hyield := (h.head_point hwait).resolve_left hpast
    have hmem : f.elem ∈ s.waiters key := by
      rw [hwait]
      exact List.mem_cons_self
    have hne : f.elem ≠ null := fun he => h.noNull (he ▸ hmem)
    simp only [hne, ne_eq, not_false_eq_true, if_true, Prod.mk.injEq] at he
    obtain ⟨-, rfl⟩ := he
    obtain ⟨holder, hm⟩ := h.mutex
    refine ⟨h.serve hf hyield, Or.inr ⟨f.elem, hmem, hyield, ?_⟩⟩
    show ¬(s.m.k.processes.unblockProcess f.elem).isBlockedProcess f.elem
    rw [Procs.isBlockedProcess_unblock hne (hm.ready.alive _), update_self]
    exact fun hf => hf

/-- A process in `cond_wait` does not use the mutex, whatever another one does with it. -/
theorem idle_next {a : MutexAction} {m : MutexRun} (h : CondInv key lockKey s)
    (hn : (mutexSystem lockKey).next s.m a = some m) {p : Addr} (hp : (s.point p).inWait)
    (hsubject : a.subject s.m ≠ some p) : m.point p = .idle := by
  obtain ⟨holder, hm⟩ := h.mutex
  exact ((hm.next hn).2.idle p (h.idle p hp) hsubject).1

/-- A step of the mutex by a process outside the calls. -/
theorem outside {a : MutexAction} {m : MutexRun} (h : CondInv key lockKey s)
    (hsubject : ∀ p ∈ a.subject s.m, s.point p = .out)
    (hn : (mutexSystem lockKey).next s.m a = some m) : CondInv key lockKey { s with m } := by
  refine h.mutexStep hn (fun p hp => ?_) (fun _ => rfl) (fun p hp => ?_) h.whole
  · rw [hsubject p hp]
    rfl
  · refine h.idle_next hn hp fun hs => ?_
    have hout := hsubject p hs
    have hin : (s.point p).inWait := hp
    rw [hout] at hin
    exact hin

/-- A process goes from a point where it waits for nothing to another such point,
with a step on the mutex. -/
theorem cross {a : MutexAction} {m : MutexRun} {pt : CondPoint} (h : CondInv key lockKey s)
    (hn : (mutexSystem lockKey).next s.m a = some m)
    (ha : a.subject s.m = some s.m.k.getCurrentProcess)
    (hold : (s.point s.m.k.getCurrentProcess).stage s.m.k.getCurrentProcess = .out)
    (hnew : pt.stage s.m.k.getCurrentProcess = .out)
    (hidle : pt.inWait → m.point s.m.k.getCurrentProcess = .idle)
    (hwhole : ∀ w, pt ≠ .signalling w) :
    CondInv key lockKey ⟨m, update s.point s.m.k.getCurrentProcess pt⟩ := by
  refine h.mutexStep hn (fun p hp => ?_) (fun p => ?_) (fun p hp => ?_) fun p w => ?_
  · rw [ha] at hp
    cases hp
    exact hold
  · by_cases hcur : p = s.m.k.getCurrentProcess
    · rw [hcur, update_self, hold, hnew]
    · rw [update_of_ne hcur]
  · by_cases hcur : p = s.m.k.getCurrentProcess
    · rw [hcur, update_self] at hp
      rw [hcur]
      exact hidle hp
    · rw [update_of_ne hcur] at hp
      refine h.idle_next hn hp fun hs => hcur ?_
      exact Option.some.inj (hs.symm.trans ha)
  · by_cases hcur : p = s.m.k.getCurrentProcess
    · rw [hcur, update_self]
      exact hwhole w
    · rw [update_of_ne hcur]
      exact h.whole p w

/-- `cond_wait` up to its `mutex_unlock`. -/
theorem unlock {m : MutexRun} (h : CondInv key lockKey s)
    (hp : s.point s.m.k.getCurrentProcess = .out)
    (hn : (mutexSystem lockKey).next s.m .unlock = some m) :
    CondInv key lockKey ⟨m, update s.point s.m.k.getCurrentProcess .released⟩ := by
  refine h.cross hn rfl (by rw [hp]; rfl) rfl (fun _ => ?_) fun w => nofun
  simp only [mutexSystem] at hn
  split at hn
  next =>
    obtain ⟨⟨r, k⟩, -, rfl⟩ := Option.map_eq_some_iff.mp hn
    exact update_self _ _ _
  next => cases hn

/-- The next statement of the running process. -/
theorem advance (h : CondInv key lockKey s) (ha : condAdvance key lockKey s = some t) :
    CondInv key lockKey t := by
  unfold condAdvance at ha
  cases hp : s.point s.m.k.getCurrentProcess with
  | out => simp only [hp, reduceCtorEq] at ha
  | released =>
      simp only [hp] at ha
      obtain ⟨k, hr, rfl⟩ := Option.map_eq_some_iff.mp ha
      exact h.enqueue hp hr
  | queued =>
      simp only [hp, Option.some.injEq] at ha
      exact ha ▸ h.block hp
  | yielding =>
      simp only [hp] at ha
      split at ha
      next => cases ha
      next hb =>
        cases ha
        exact h.resume hp hb
  | returning =>
      simp only [hp] at ha
      obtain ⟨m, hn, rfl⟩ := Option.map_eq_some_iff.mp ha
      exact h.cross hn rfl (by rw [hp]; rfl) rfl (fun hin => nomatch hin) fun w => nofun
  | signalling w => exact absurd hp (h.whole _ w)

/-- `cond_broadcast` wakes up everybody who waits. -/
theorem broadcast {n : Int} (h : CondInv key lockKey s) (hg : WakesBlocked key s .broadcast)
    (hr : s.m.k.condBroadcast key = some (n, k)) :
    CondInv key lockKey { s with m := { s.m with k } } ∧
      CondRun.waiters { s with m := { s.m with k } } key = [] := by
  rw [condBroadcast, if_pos h.opened] at hr
  obtain ⟨k₁, hrel, he⟩ := Option.map_eq_some_iff.mp hr
  cases he
  obtain ⟨h', hconds, hempty⟩ := h.releaseWaiters (fun p => (hg p).2) hrel
  refine ⟨h', ?_⟩
  simp only [CondRun.waiters, hconds]
  exact hempty

/-- Every guarded step keeps the invariant. -/
theorem next {a : CondAction} (h : CondInv key lockKey s) (hg : WakesBlocked key s a)
    (hn : (condSystem key lockKey).next s a = some t) : CondInv key lockKey t := by
  cases a with
  | mutex a =>
      simp only [condSystem] at hn
      split at hn
      next hsubject =>
        obtain ⟨m, hm, rfl⟩ := Option.map_eq_some_iff.mp hn
        exact h.outside hsubject hm
      next => cases hn
  | wait =>
      simp only [condSystem] at hn
      split at hn
      next hp =>
        obtain ⟨m, hm, rfl⟩ := Option.map_eq_some_iff.mp hn
        exact h.unlock hp.1 hm
      next => cases hn
  | advance => exact h.advance hn
  | signal =>
      simp only [condSystem] at hn
      split at hn
      next =>
        obtain ⟨⟨n, k⟩, hr, rfl⟩ := Option.map_eq_some_iff.mp hn
        exact (h.signal hg hr).1
      next => cases hn
  | take =>
      simp only [condSystem] at hn
      split at hn
      next =>
        obtain ⟨⟨p, k⟩, hr, rfl⟩ := Option.map_eq_some_iff.mp hn
        -- the queue is empty, so nobody is taken
        have hempty : s.m.k.isEmpty (s.m.k.openConds key).processQueue :=
          Or.inr (List.map_eq_nil_iff.mp hg.1)
        rw [syncDequeue, if_pos hempty] at hr
        cases hr
        exact h
      next => cases hn
  | broadcast =>
      simp only [condSystem] at hn
      split at hn
      next =>
        obtain ⟨⟨n, k⟩, hr, rfl⟩ := Option.map_eq_some_iff.mp hn
        exact (h.broadcast hg hr).1
      next => cases hn

theorem of_init (h : (condSystem key lockKey).init s) : CondInv key lockKey s := by
  obtain ⟨m, name, i, hm, hsearch, ho, hs, hout⟩ := h
  have hi : i < maxCondVar := by simpa using (scanFrom_closed hsearch).1
  unfold condOpen at ho
  rw [hsearch] at ho
  obtain ⟨k, hnew, he⟩ := Option.map_eq_some_iff.mp ho
  obtain ⟨⟨lock, k₁⟩, hlock, hnew⟩ := Option.bind_eq_some_iff.mp hnew
  obtain ⟨⟨q, k₂⟩, hq, hk⟩ := Option.map_eq_some_iff.mp hnew
  obtain ⟨pages, hget, rfl⟩ := createQueue_spec hq
  have hm₁ : MutexInv { m with k := k₁ } lockKey ∅ none := (mutexInv_of_init hm).openName hlock
  obtain ⟨hfresh, hpage, hused⟩ := hm₁.ready.pages.getPage hget
  rw [Set.mem_ofPred_eq, not_or] at hfresh
  have hk' := hk.trans (Prod.mk.inj he).2
  obtain rfl : (i : Int) = key := (Prod.mk.inj he).1
  have hcond : s.m.k.openConds i = ⟨name, .opened, lock, q⟩ := by
    rw [← hk']
    exact update_self _ _ _
  have hempty : s.m.k.queues q = [] := by
    rw [← hk']
    exact update_self _ _ _
  have hpages : s.m.k.condPages i = [q] := by
    rw [condPages, hcond, hempty, List.map_nil]
  have hwaiters : s.waiters i = [] := by
    rw [CondRun.waiters, hcond, elems, hempty, List.map_nil]
  have hidle : ∀ p, s.m.point p = .idle := by
    obtain ⟨-, -, -, -, -, -, -, -, hidle⟩ := hm
    rw [hs]
    exact hidle
  refine ⟨⟨by omega, by omega, ?_⟩, ?_, ?_, ?_, ⟨none, ?_⟩, fun p _ => hidle p, fun p w => ?_,
    WaitInv.start (fun p => ?_) ?_⟩
  · rw [hcond]
  · rw [hpages]
    exact List.nodup_singleton q
  · rw [hwaiters]
    exact List.nodup_nil
  · rw [hwaiters]
    exact List.not_mem_nil
  · have hset : {a | a ∈ s.m.k.condPages i} = ({q} : Set Addr) := by
      rw [hpages]
      ext a
      exact List.mem_singleton
    rw [hset, hs, ← hk']
    refine hm₁.elsewhere rfl rfl (update_of_ne ?_ _ _) ?_ ?_ hm₁.ready.alive fun _ _ => Iff.rfl
    · rintro rfl
      exact hfresh.1 List.mem_cons_self
    · refine hused.mono ?_
      rintro a (ha | ha)
      · exact Or.inr (Or.inl ha)
      · exact Or.inl ha
    · rintro a rfl
      exact hfresh.1
  · rw [hout p]
    intro hpt
    cases hpt
  · simp only [CondRun.view, hout]
    rfl
  · simp only [CondRun.view, hwaiters, List.not_mem_nil]
    rfl

theorem of_reachBy (h : (condSystem key lockKey).ReachBy (WakesBlocked key) s) :
    CondInv key lockKey s :=
  h.invariant (fun _ hs => of_init hs) fun _ _ _ hi hg hn => hi.next hg hn

/-- Who waits is in the queue, or is about to queue itself. -/
theorem mem_of_waits (h : CondInv key lockKey s) {p : Addr} (hp : s.Waits p) :
    s.point p = .released ∨ p ∈ s.waiters key := by
  rcases hp with hp | hp | ⟨hp, hb⟩
  · exact Or.inl hp
  · refine Or.inr (h.wait.registered p p ?_)
    simp only [CondRun.view, hp]
    rfl
  · refine Or.inr (h.wait.ticket_mem (p := p) ?_ hb)
    simp only [CondRun.view, hp]
    rfl

end CondInv

/-! ## What holds in every state -/

/-- No wake-up is lost. -/
structure CondOk (key lockKey : Int) (s : CondRun) : Prop where
  /-- Who is blocked in `cond_wait` is in the queue. -/
  queued : ∀ p, s.point p = .yielding → s.m.k.processes.isBlockedProcess p → p ∈ s.waiters key
  /-- No signal finds the queue empty while somebody waits. -/
  nonempty : ∀ a t, a = .signal ∨ a = .take → WakesBlocked key s a →
    (condSystem key lockKey).next s a = some t → (∃ p, s.Waits p) → s.waiters key ≠ []
  /-- A signal wakes up somebody who waits. -/
  signal : ∀ t, WakesBlocked key s .signal → (condSystem key lockKey).next s .signal = some t →
    (∃ p, s.Waits p) → ∃ p, s.Waits p ∧ ¬t.m.k.processes.isBlockedProcess p
  /-- A broadcast wakes up everybody who waits. -/
  broadcast : ∀ t, WakesBlocked key s .broadcast →
    (condSystem key lockKey).next s .broadcast = some t → ∀ p, s.Waits p →
    t.point p = .yielding ∧ ¬t.m.k.processes.isBlockedProcess p

theorem condOpen_mutexOpened : (mutexOpened.k.condOpen .nil).isSome := by decide +kernel

/-- Two processes, a mutex and a condition variable. -/
def condOpened : CondRun where
  m := { mutexOpened with k := ((mutexOpened.k.condOpen .nil).get condOpen_mutexOpened).2 }
  point _ := .out

theorem init_condOpened : (condSystem 0 0).init condOpened := by
  refine ⟨mutexOpened, .nil, 0, init_mutexOpened, by decide +kernel, ?_, rfl, fun _ => rfl⟩
  rw [← Option.some_get condOpen_mutexOpened]
  exact congrArg some (Prod.ext (by decide +kernel) rfl)

/-- A test for the guard: a signal finds a process past its block. -/
def signalsBlocked (s : CondRun) : CondAction → Bool
  | .signal =>
      match s.waiters 0 with
      | [] => false
      | w :: _ => s.point w ≠ .queued
  | .take => false
  | .broadcast => false
  | _ => true

theorem wakesBlocked_of_signalsBlocked (s : CondRun) (a : CondAction) (h : signalsBlocked s a) :
    WakesBlocked 0 s a := by
  cases a with
  | signal =>
      simp only [signalsBlocked] at h
      cases hw : s.waiters 0 with
      | nil =>
          rw [hw] at h
          cases h
      | cons w rest =>
          rw [hw] at h
          simp only [WakesBlocked, hw]
          exact of_decide_eq_true h
  | take => cases h
  | broadcast => cases h
  | _ => trivial

/-- The first process waits, the second one wakes it up, and the first one takes
the mutex again and waits once more. -/
def waitedTwice : Option CondRun :=
  (condSystem 0 0).executeBy signalsBlocked condOpened
    [.mutex .lock, .wait, .advance, .advance, .mutex (.dispatch 2), .signal,
      .mutex (.dispatch 1), .advance, .advance, .wait, .advance, .advance, .mutex (.dispatch 2)]

end Kernel

end TPE
