import TPE.Library.HandoverLock
import TPE.Library.Runs
import TPE.Kernel.KernelMutex

/-!
# One mutex and its processes

Any number of processes lock and unlock one mutex in any order.  The calls are
those of `KernelMutex`, made by the running process, and a process that yields
in `mutex_lock` returns from it when it is not blocked any more.

`view` reads a lock that is handed over out of the kernel.  Every step of the
kernel is a step of that lock or leaves it alone.
-/

namespace TPE

open Function

namespace Kernel

/-- The kernel with the points of the processes, and when each of them was last queued. -/
structure MutexRun where
  k : Kernel
  point : Addr → Point
  arrived : Addr → Nat
  clock : Nat

namespace MutexRun

/-- The processes in the mutex's queue, first to last. -/
def waiters (s : MutexRun) (key : Int) : List Addr := s.k.elems (s.k.openMutexes key).processQueue

/-- The process is blocked inside `mutex_lock`. -/
def BlockedInLock (s : MutexRun) (p : Addr) : Prop :=
  (s.point p).inLock ∧ s.k.processes.isBlockedProcess p

/-- The process holds the mutex: it is between the return of `mutex_lock` and
`mutex_unlock`, or it was woken up in `mutex_lock` and has not returned yet. -/
def Holds (s : MutexRun) (p : Addr) : Prop :=
  (s.point p).inSection ∨ s.point p = .waiting ∧ ¬s.k.processes.isBlockedProcess p

/-- The lock that the mutex is. -/
def view (s : MutexRun) (key : Int) : LockState Addr where
  locked := (s.k.openMutexes key).locked = .locked
  queue := s.waiters key
  blocked := s.k.processes.isBlockedProcess
  point := s.point
  arrived := s.arrived
  clock := s.clock

end MutexRun

/-! ## The system -/

/-- The steps of the processes and of the kernel around them. -/
inductive MutexAction where
  /-- The scheduler dispatches the process of a node. -/
  | dispatch (node : Addr)
  /-- The running process calls `mutex_lock`. -/
  | lock
  /-- The running process returns from the yield in `mutex_lock`. -/
  | resume
  /-- The running process calls `mutex_unlock`. -/
  | unlock
  /-- The running process calls `mutex_open`, with any name. -/
  | openName (name : CString)
  /-- The status of a process outside `mutex_lock` changes for some other reason. -/
  | status (call : StatusCall) (p : Addr)

/-- The process that an action is about. -/
def MutexAction.subject (s : MutexRun) : MutexAction → Option Addr
  | .dispatch _ => none
  | .status _ p => some p
  | _ => some s.k.getCurrentProcess

/-- Processes that lock and unlock the mutex with the key `key`.  Only the process
in its section unlocks it, none is killed and the mutex is not closed. -/
def mutexSystem (key : Int) : System MutexRun MutexAction where
  init s := ∃ (k : Kernel) (name : CString) (i : Nat),
    k.mutexSearch name = .closed i ∧ k.mutexOpen name = some (key, s.k) ∧ k.pages.PagesOk ∅ ∧
    (∀ p, (s.k.processes p).st ≠ .delete) ∧ s.k.getCurrentProcess ≠ null ∧ ∀ p, s.point p = .idle
  next
    | s, .dispatch node =>
        if s.k.Dispatchable node then some { s with k := { s.k with current := node } } else none
    | s, .lock =>
        let p := s.k.getCurrentProcess
        if (s.point p).inLock then none
        else (s.k.mutexLock key).map fun r =>
          if r.yields then
            { k := r.k
              point := update s.point p (if s.point p = .critical then .relocking else .waiting)
              arrived := update s.arrived p s.clock
              clock := s.clock + 1 }
          else { s with k := r.k, point := update s.point p .critical }
    | s, .resume =>
        let p := s.k.getCurrentProcess
        if (s.point p).inLock ∧ ¬s.k.processes.isBlockedProcess p then
          some { s with point := update s.point p .critical }
        else none
    | s, .unlock =>
        let p := s.k.getCurrentProcess
        if s.point p = .critical then
          (s.k.mutexUnlock key).map fun (_, k) => { s with k, point := update s.point p .idle }
        else none
    | s, .openName name => (s.k.mutexOpen name).map fun (_, k) => { s with k }
    | s, .status call p =>
        if (s.point p).inLock ∨ call = .kill then none
        else some { s with k := s.k.applyStatus call p }

/-! ## The invariant -/

/-- The pages of the mutex's queue. -/
def mutexPages (k : Kernel) (key : Int) : List Addr :=
  (k.openMutexes key).processQueue ::
    (k.queues (k.openMutexes key).processQueue).map QueueNode.page

/-- The mutex is open, the pages of its queue are handed out, and no process is
marked for deletion.  `others` are pages that somebody else was handed. -/
structure MutexReady (k : Kernel) (key : Int) (others : Set Addr) : Prop where
  opened : k.mutexIsOpen key
  header : (k.openMutexes key).processQueue ≠ null
  nodup : (k.mutexPages key).Nodup
  apart : ∀ a ∈ others, a ∉ k.mutexPages key
  pages : k.pages.PagesOk {a | a ∈ k.mutexPages key ∨ a ∈ others}
  noNull : null ∉ k.elems (k.openMutexes key).processQueue
  running : k.getCurrentProcess ≠ null
  alive : ∀ p, (k.processes p).st ≠ .delete

/-- The invariant of the runs. -/
structure MutexInv (s : MutexRun) (key : Int) (others : Set Addr) (holder : Option Addr) :
    Prop where
  ready : s.k.MutexReady key others
  lock : LockInv (s.view key) holder

variable {key : Int} {s t : MutexRun} {others : Set Addr} {holder : Option Addr}

theorem mutexInv_of_init (h : (mutexSystem key).init s) : MutexInv s key ∅ none := by
  obtain ⟨k, name, i, hsearch, hopen, hpages, halive, hrun, hidle⟩ := h
  obtain ⟨rfl, q, pages, hget, hk⟩ := mutexOpen_spec hsearch hopen
  obtain ⟨-, hpage, hpages'⟩ := hpages.getPage hget
  have hi : i < maxMutexes := by simpa using (scanFrom_closed hsearch).1
  have hm : s.k.openMutexes i = ⟨name, .unlocked, .opened, q⟩ := by
    rw [hk]
    exact update_self _ _ _
  have hq : s.k.queues q = [] := by
    rw [hk]
    exact update_self _ _ _
  have hused : s.k.mutexPages i = [q] := by
    rw [mutexPages, hm, hq, List.map_nil]
  refine ⟨⟨⟨by omega, by omega, ?_⟩, ?_, ?_, fun a ha => absurd ha (Set.notMem_empty a), ?_, ?_,
    hrun, halive⟩, ?_⟩
  · rw [hm]
  · rw [hm]
    exact hpage.ne_null
  · rw [hused]
    exact List.nodup_singleton q
  · rw [hused, hk]
    refine hpages'.mono fun a ha => ?_
    rcases ha with ha | ha
    · exact Or.inl (List.mem_singleton.mp ha)
    · exact absurd ha (Set.notMem_empty a)
  · rw [hm, elems, hq]
    exact List.not_mem_nil
  · apply LockInv.idle hidle
    · show s.k.elems (s.k.openMutexes i).processQueue = []
      rw [hm, elems, hq]
      rfl
    · show ¬(s.k.openMutexes i).locked = .locked
      rw [hm]
      exact fun h => nomatch h

/-! ## One step -/

theorem MutexInv.dispatch {node : Addr} (h : MutexInv s key others holder)
    (hready : s.k.Dispatchable node) :
    MutexInv { s with k := { s.k with current := node } } key others holder where
  ready := { h.ready with running := fun hnull => hready.1 fun hne => absurd hnull hne }
  lock := h.lock

theorem MutexInv.resume (h : MutexInv s key others holder)
    (hin : (s.point s.k.getCurrentProcess).inLock)
    (hblocked : ¬s.k.processes.isBlockedProcess s.k.getCurrentProcess) :
    MutexInv { s with point := update s.point s.k.getCurrentProcess .critical } key others holder where
  ready := h.ready
  lock := h.lock.resume hin hblocked

/-- A write to the word leaves the queue of the mutex alone. -/
theorem MutexReady.setLocked {k : Kernel} (h : k.MutexReady key others) (word : Lock) :
    MutexReady { k with
      superlock := .unlocked
      openMutexes := update k.openMutexes key { k.openMutexes key with locked := word } }
      key others := by
  have hm : update k.openMutexes key { k.openMutexes key with locked := word } key =
    { k.openMutexes key with locked := word } := update_self _ _ _
  obtain ⟨hopen, hheader, hfresh, hapart, hpages, hnull, hrun, halive⟩ := h
  refine ⟨⟨hopen.1, hopen.2.1, ?_⟩, ?_, ?_, ?_, ?_, ?_, hrun, halive⟩
  all_goals simp only [mutexPages, hm]
  · exact hopen.2.2
  · exact hheader
  · exact hfresh
  · exact hapart
  · exact hpages
  · exact hnull

theorem MutexInv.lock_unlocked (h : MutexInv s key others holder)
    (hfree : (s.k.openMutexes key).locked = .unlocked) :
    MutexInv { s with
      k := { s.k with
        superlock := .unlocked
        openMutexes := update s.k.openMutexes key { s.k.openMutexes key with locked := .locked } }
      point := update s.point s.k.getCurrentProcess .critical } key others
      (some s.k.getCurrentProcess) := by
  have hm : update s.k.openMutexes key { s.k.openMutexes key with locked := .locked } key =
    { s.k.openMutexes key with locked := .locked } := update_self _ _ _
  constructor
  · exact h.ready.setLocked .locked
  · have hnext := h.lock.acquire (p := s.k.getCurrentProcess) fun hlocked => by
      cases hfree.symm.trans hlocked
    refine hnext.of_eq (LockState.ext ?_ ?_ rfl rfl rfl rfl)
    · exact eq_true (congrArg Mutex.locked hm)
    · simp only [MutexRun.view, MutexRun.waiters, hm]
      rfl

theorem MutexInv.lock_locked (h : MutexInv s key others holder)
    (htaken : (s.k.openMutexes key).locked = .locked)
    (hout : ¬(s.point s.k.getCurrentProcess).inLock) {page : Addr} {pages : PageStack}
    (hget : s.k.pages.getPage = some (page, pages)) :
    MutexInv {
      k := { s.k with
        superlock := .unlocked
        pages
        queues := update s.k.queues (s.k.openMutexes key).processQueue
          (s.k.queues (s.k.openMutexes key).processQueue ++ [⟨page, s.k.getCurrentProcess⟩])
        processes := Procs.blockProcess s.k.processes s.k.getCurrentProcess }
      point := update s.point s.k.getCurrentProcess
        (if s.point s.k.getCurrentProcess = .critical then .relocking else .waiting)
      arrived := update s.arrived s.k.getCurrentProcess s.clock
      clock := s.clock + 1 } key others holder := by
  obtain ⟨hopen, hheader, hfresh, hapart, hpages, hnull, hrun, halive⟩ := h.ready
  obtain ⟨hpage, -, hpages'⟩ := hpages.getPage hget
  rw [Set.mem_ofPred_eq, not_or] at hpage
  have hused : mutexPages { s.k with
      superlock := .unlocked
      pages
      queues := update s.k.queues (s.k.openMutexes key).processQueue
        (s.k.queues (s.k.openMutexes key).processQueue ++ [⟨page, s.k.getCurrentProcess⟩])
      processes := Procs.blockProcess s.k.processes s.k.getCurrentProcess } key =
      s.k.mutexPages key ++ [page] := by
    simp only [mutexPages, update_self, List.map_append, List.map_cons, List.map_nil,
      List.cons_append]
  constructor
  · refine ⟨hopen, hheader, ?_, fun a ha hm => ?_, ?_, ?_, hrun, fun q hq => ?_⟩
    · rw [hused]
      refine List.nodup_append.mpr ⟨hfresh, List.nodup_singleton _, fun a ha b hb he => ?_⟩
      rw [he, List.mem_singleton.mp hb] at ha
      exact hpage.1 ha
    · rw [hused] at hm
      rcases List.mem_append.mp hm with hm | hm
      · exact hapart a ha hm
      · rw [List.mem_singleton.mp hm] at ha
        exact hpage.2 ha
    · rw [hused]
      refine hpages'.mono ?_
      rintro a (ha | ha)
      · rcases List.mem_append.mp ha with ha | ha
        · exact Or.inr (Or.inl ha)
        · exact Or.inl (List.mem_singleton.mp ha)
      · exact Or.inr (Or.inr ha)
    · simp only [elems, update_self, List.map_append, List.mem_append, not_or]
      exact ⟨hnull, fun hm => hrun (List.mem_singleton.mp hm).symm⟩
    · exact halive q (Procs.blockProcess_delete_iff.mp hq)
  · have hnext := h.lock.wait (p := s.k.getCurrentProcess) hout htaken
    refine hnext.of_eq (LockState.ext rfl ?_ ?_ rfl rfl rfl)
    · simp only [MutexRun.view, MutexRun.waiters, elems, update_self, List.map_append]
      rfl
    · exact Procs.isBlockedProcess_block hrun (halive _)

theorem MutexInv.unlock_nil (h : MutexInv s key others holder)
    (hcrit : s.point s.k.getCurrentProcess = .critical)
    (hq : s.k.queues (s.k.openMutexes key).processQueue = []) :
    MutexInv { s with
      k := { s.k with
        superlock := .unlocked
        openMutexes := update s.k.openMutexes key { s.k.openMutexes key with locked := .unlocked } }
      point := update s.point s.k.getCurrentProcess .idle } key others none := by
  have hm : update s.k.openMutexes key { s.k.openMutexes key with locked := .unlocked } key =
    { s.k.openMutexes key with locked := .unlocked } := update_self _ _ _
  constructor
  · exact h.ready.setLocked .unlocked
  · have hnext := h.lock.release (p := s.k.getCurrentProcess) hcrit (congrArg (List.map _) hq)
    refine hnext.of_eq (LockState.ext ?_ ?_ rfl rfl rfl rfl)
    · refine eq_false fun hlocked => ?_
      cases (congrArg Mutex.locked hm).symm.trans hlocked
    · simp only [MutexRun.view, MutexRun.waiters, hm]
      rfl

theorem MutexInv.unlock_cons (h : MutexInv s key others holder)
    (hcrit : s.point s.k.getCurrentProcess = .critical) {f : QueueNode} {rest : List QueueNode}
    (hq : s.k.queues (s.k.openMutexes key).processQueue = f :: rest) :
    MutexInv { s with
      k := { s.k with
        superlock := .unlocked
        queues := update s.k.queues (s.k.openMutexes key).processQueue rest
        pages := s.k.pages.storePage f.page
        processes := Procs.unblockProcess s.k.processes f.elem }
      point := update s.point s.k.getCurrentProcess .idle } key others (some f.elem) := by
  obtain ⟨hopen, hheader, hfresh, hapart, hpages, hnull, hrun, halive⟩ := h.ready
  have hold : s.k.mutexPages key =
      (s.k.openMutexes key).processQueue :: f.page :: rest.map QueueNode.page := by
    rw [mutexPages, hq]
    rfl
  have hf_used : f.page ∈ s.k.mutexPages key := by
    rw [hold]
    exact List.mem_cons_of_mem _ List.mem_cons_self
  have hsub : ∀ a ∈ (s.k.openMutexes key).processQueue :: rest.map QueueNode.page,
      a ∈ s.k.mutexPages key := by
    intro a ha
    rw [hold]
    rcases List.mem_cons.mp ha with rfl | ha
    · exact List.mem_cons_self
    · exact List.mem_cons_of_mem _ (List.mem_cons_of_mem _ ha)
  rw [hold, List.nodup_cons, List.nodup_cons, List.mem_cons, not_or] at hfresh
  have hused : mutexPages { s.k with
      superlock := .unlocked
      queues := update s.k.queues (s.k.openMutexes key).processQueue rest
      pages := s.k.pages.storePage f.page
      processes := Procs.unblockProcess s.k.processes f.elem } key =
      (s.k.openMutexes key).processQueue :: rest.map QueueNode.page := by
    simp only [mutexPages, update_self]
  have hf : f.elem ≠ null := by
    intro he
    apply hnull
    rw [elems, hq, ← he]
    exact List.mem_cons_self
  constructor
  · refine ⟨hopen, hheader, ?_, fun a ha hm => ?_, ?_, ?_, hrun, fun q hdel => ?_⟩
    · rw [hused]
      exact List.nodup_cons.mpr ⟨hfresh.1.2, hfresh.2.2⟩
    · rw [hused] at hm
      exact hapart a ha (hsub a hm)
    · rw [hused]
      refine (hpages.storePage (Or.inl hf_used)).mono ?_
      rintro a (ha | ha)
      · refine ⟨Or.inl (hsub a ha), ?_⟩
        rintro rfl
        rcases List.mem_cons.mp ha with ha | ha
        · exact hfresh.1.1 ha.symm
        · exact hfresh.2.1 ha
      · refine ⟨Or.inr ha, ?_⟩
        rintro rfl
        exact hapart _ ha hf_used
    · simp only [elems, update_self]
      intro hm
      apply hnull
      rw [elems, hq]
      exact List.mem_cons_of_mem _ hm
    · exact halive q (Procs.unblockProcess_delete_iff.mp hdel)
  · have hwaiters : (s.view key).queue = f.elem :: rest.map QueueNode.elem :=
      congrArg (List.map _) hq
    have hnext := h.lock.handover (p := s.k.getCurrentProcess) hcrit hwaiters
    refine hnext.of_eq (LockState.ext rfl ?_ ?_ rfl rfl rfl)
    · simp only [MutexRun.view, MutexRun.waiters, elems, update_self]
    · exact Procs.isBlockedProcess_unblock hf (halive _)

/-- Another mutex may be opened.  Its queue is on a fresh page. -/
theorem MutexInv.openName {name : CString} {r : Int} {k : Kernel} (h : MutexInv s key others holder)
    (hr : s.k.mutexOpen name = some (r, k)) : MutexInv { s with k } key others holder := by
  cases hsearch : s.k.mutexSearch name with
  | found i =>
      simp only [mutexOpen, hsearch, Option.some.injEq, Prod.mk.injEq] at hr
      obtain ⟨-, rfl⟩ := hr
      exact h
  | full =>
      simp only [mutexOpen, hsearch, Option.some.injEq, Prod.mk.injEq] at hr
      obtain ⟨-, rfl⟩ := hr
      exact h
  | closed i =>
      obtain ⟨-, q, pages, hget, rfl⟩ := mutexOpen_spec hsearch hr
      obtain ⟨hopen, hheader, hfresh, hapart, hpages, hnull, hrun, halive⟩ := h.ready
      obtain ⟨hq, -, hpages'⟩ := hpages.getPage hget
      rw [Set.mem_ofPred_eq, not_or] at hq
      have hkey : key ≠ i := by
        rintro rfl
        simpa [hopen] using (scanFrom_closed hsearch).2
      have hqne : (s.k.openMutexes key).processQueue ≠ q := by
        rintro rfl
        exact hq.1 List.mem_cons_self
      have hm : update s.k.openMutexes i ⟨name, .unlocked, .opened, q⟩ key = s.k.openMutexes key :=
        update_of_ne hkey _ _
      have hqs : update s.k.queues q [] (s.k.openMutexes key).processQueue =
          s.k.queues (s.k.openMutexes key).processQueue := update_of_ne hqne _ _
      constructor
      · refine ⟨⟨hopen.1, hopen.2.1, ?_⟩, ?_, ?_, ?_, ?_, ?_, hrun, halive⟩
        all_goals simp only [mutexPages, elems, hm, hqs]
        · exact hopen.2.2
        · exact hheader
        · exact hfresh
        · exact hapart
        · exact hpages'.mono fun a ha => Or.inr ha
        · exact hnull
      · refine h.lock.of_eq (LockState.ext ?_ ?_ rfl rfl rfl rfl)
        · simp only [MutexRun.view, hm]
        · simp only [MutexRun.view, MutexRun.waiters, elems, hm, hqs]

theorem MutexInv.status {call : StatusCall} {p : Addr} (h : MutexInv s key others holder)
    (hout : ¬(s.point p).inLock) (hcall : call ≠ .kill) :
    MutexInv { s with k := s.k.applyStatus call p } key others holder := by
  obtain ⟨st, he, hst⟩ := call.apply_eq s.k.processes p
  have hprocs : (s.k.applyStatus call p).processes = s.k.processes.setSt p st := he
  constructor
  · refine { h.ready with alive := fun q => ?_ }
    rw [hprocs]
    by_cases hq : q = p
    · subst hq
      rw [Procs.setSt_st_self]
      exact hst hcall (h.ready.alive q)
    · rw [Procs.setSt_of_ne hq]
      exact h.ready.alive q
  · refine (h.lock.outside (p := p) ((s.k.processes.setSt p st).isBlockedProcess p) hout).of_eq
      (LockState.ext rfl rfl ?_ rfl rfl rfl)
    funext q
    show (s.k.applyStatus call p).processes.isBlockedProcess q = _
    rw [hprocs]
    by_cases hq : q = p
    · subst hq
      simp only [update_self]
    · simp only [update_of_ne hq]
      unfold Procs.isBlockedProcess
      rw [Procs.setSt_of_ne hq]
      rfl

/-- The process in its section is the holder, and the word is set. -/
theorem MutexInv.locked_of_critical (h : MutexInv s key others holder) {p : Addr}
    (hcrit : s.point p = .critical) : (s.k.openMutexes key).locked = .locked :=
  h.lock.locked_iff.mpr ⟨p, Or.inl (Or.inl hcrit)⟩

/-- An unlock with a process `p` at the head of the queue. -/
theorem MutexInv.unlock_eq (h : MutexInv s key others holder)
    (hcrit : s.point s.k.getCurrentProcess = .critical) {f : QueueNode} {rest : List QueueNode}
    (hq : s.k.queues (s.k.openMutexes key).processQueue = f :: rest) {r : Int} {k : Kernel}
    (hr : s.k.mutexUnlock key = some (r, k)) :
    k = { s.k with
      superlock := .unlocked
      queues := update s.k.queues (s.k.openMutexes key).processQueue rest
      pages := s.k.pages.storePage f.page
      processes := Procs.unblockProcess s.k.processes f.elem } := by
  have hf : f.elem ≠ null := by
    intro he
    apply h.ready.noNull
    rw [elems, hq, ← he]
    exact List.mem_cons_self
  exact (mutexUnlock_cons h.ready.opened (h.locked_of_critical hcrit) h.ready.header hq hf
    (h.ready.alive _) hr).2

/-- The system next to the mutex: what it may use of the kernel stays as it is. -/
structure MutexFrame (others : Set Addr) (s : MutexRun) (a : MutexAction) (t : MutexRun) :
    Prop where
  conds : t.k.openConds = s.k.openConds
  queues : ∀ q ∈ others, t.k.queues q = s.k.queues q
  /-- A process that does not use the mutex is left alone by the others. -/
  idle : ∀ p, s.point p = .idle → a.subject s ≠ some p →
    t.point p = .idle ∧ (t.k.processes.isBlockedProcess p ↔ s.k.processes.isBlockedProcess p)

/-- A step of the running process. -/
theorem MutexFrame.of_running {a : MutexAction} {pt : Point}
    (ha : a.subject s = some s.k.getCurrentProcess) (hconds : t.k.openConds = s.k.openConds)
    (hqueues : ∀ q ∈ others, t.k.queues q = s.k.queues q)
    (hpoint : t.point = update s.point s.k.getCurrentProcess pt)
    (hprocs : ∀ p, s.point p = .idle → p ≠ s.k.getCurrentProcess →
      t.k.processes p = s.k.processes p) : MutexFrame others s a t := by
  refine ⟨hconds, hqueues, fun p hp hsubject => ?_⟩
  have hne : p ≠ s.k.getCurrentProcess := by
    rintro rfl
    exact hsubject ha
  refine ⟨?_, ?_⟩
  · rw [hpoint, update_of_ne hne]
    exact hp
  · unfold Procs.isBlockedProcess
    rw [hprocs p hp hne]

/-- What others do next to the mutex keeps its invariant. -/
theorem MutexInv.elsewhere {others' : Set Addr} {k : Kernel} (h : MutexInv s key others holder)
    (hcurrent : k.getCurrentProcess = s.k.getCurrentProcess)
    (hmutexes : k.openMutexes = s.k.openMutexes)
    (hqueue : k.queues (s.k.openMutexes key).processQueue =
      s.k.queues (s.k.openMutexes key).processQueue)
    (hpages : k.pages.PagesOk {a | a ∈ s.k.mutexPages key ∨ a ∈ others'})
    (hapart : ∀ a ∈ others', a ∉ s.k.mutexPages key)
    (halive : ∀ p, (k.processes p).st ≠ .delete)
    (hblocked : ∀ p, (s.point p).inLock →
      (k.processes.isBlockedProcess p ↔ s.k.processes.isBlockedProcess p)) :
    MutexInv { s with k } key others' holder := by
  have hsame : k.mutexPages key = s.k.mutexPages key := by
    rw [mutexPages, hmutexes, hqueue]
    rfl
  have helems : k.elems (k.openMutexes key).processQueue =
      s.k.elems (s.k.openMutexes key).processQueue := by
    rw [elems, hmutexes, hqueue]
    rfl
  obtain ⟨hopen, hheader, hfresh, -, -, hnull, hrun, -⟩ := h.ready
  constructor
  · refine ⟨?_, ?_, ?_, ?_, ?_, ?_, ?_, halive⟩
    · rw [mutexIsOpen, hmutexes]
      exact hopen
    · rw [hmutexes]
      exact hheader
    · rw [hsame]
      exact hfresh
    · rw [hsame]
      exact hapart
    · rw [hsame]
      exact hpages
    · rw [helems]
      exact hnull
    · rw [hcurrent]
      exact hrun
  · refine (h.lock.reblock hblocked).of_eq (LockState.ext ?_ helems rfl rfl rfl rfl)
    simp only [MutexRun.view, hmutexes]

/-- Every step keeps the invariant, and what is next to the mutex. -/
theorem MutexInv.next {a : MutexAction} (h : MutexInv s key others holder)
    (hn : (mutexSystem key).next s a = some t) :
    (∃ holder', MutexInv t key others holder') ∧ MutexFrame others s a t := by
  have hheader : ∀ q ∈ others, q ≠ (s.k.openMutexes key).processQueue := by
    rintro q hq rfl
    exact h.ready.apart _ hq List.mem_cons_self
  cases a with
  | dispatch node =>
      simp only [mutexSystem] at hn
      split at hn
      next hready =>
        cases hn
        exact ⟨⟨_, h.dispatch hready⟩, rfl, fun _ _ => rfl, fun p hp _ => ⟨hp, Iff.rfl⟩⟩
      next => cases hn
  | lock =>
      simp only [mutexSystem] at hn
      split at hn
      next => cases hn
      next hout =>
        obtain ⟨r, hr, rfl⟩ := Option.map_eq_some_iff.mp hn
        cases hword : (s.k.openMutexes key).locked with
        | unlocked =>
            rw [mutexLock_unlocked h.ready.opened hword] at hr
            cases hr
            exact ⟨⟨_, h.lock_unlocked hword⟩,
              .of_running rfl rfl (fun _ _ => rfl) rfl fun _ _ _ => rfl⟩
        | locked =>
            obtain ⟨page, pages, hget, rfl⟩ :=
              mutexLock_locked h.ready.opened hword h.ready.header hr
            exact ⟨⟨_, h.lock_locked hword hout hget⟩,
              .of_running rfl rfl (fun q hq => update_of_ne (hheader q hq) _ _) rfl
                fun p _ hne => Procs.blockProcess_of_ne hne⟩
  | resume =>
      simp only [mutexSystem] at hn
      split at hn
      next hin =>
        cases hn
        exact ⟨⟨_, h.resume hin.1 hin.2⟩, .of_running rfl rfl (fun _ _ => rfl) rfl fun _ _ _ => rfl⟩
      next => cases hn
  | unlock =>
      simp only [mutexSystem] at hn
      split at hn
      next hcrit =>
        obtain ⟨⟨r, k⟩, hr, rfl⟩ := Option.map_eq_some_iff.mp hn
        cases hq : s.k.queues (s.k.openMutexes key).processQueue with
        | nil =>
            rw [mutexUnlock_nil h.ready.opened hq] at hr
            cases hr
            exact ⟨⟨_, h.unlock_nil hcrit hq⟩, .of_running rfl rfl (fun _ _ => rfl) rfl fun _ _ _ => rfl⟩
        | cons f rest =>
            obtain rfl := h.unlock_eq hcrit hq hr
            refine ⟨⟨_, h.unlock_cons hcrit hq⟩,
              .of_running rfl rfl (fun q hq => update_of_ne (hheader q hq) _ _) rfl
                fun p hp hne => Procs.unblockProcess_of_ne ?_⟩
            -- the process at the head of the queue is in `mutex_lock`
            rintro rfl
            have hmem : f.elem ∈ s.waiters key := by
              rw [MutexRun.waiters, elems, hq]
              exact List.mem_cons_self
            rcases (h.lock.queued _ hmem).1 with hin | hin
            · cases hp.symm.trans hin
            · cases hp.symm.trans hin
      next => cases hn
  | openName name =>
      obtain ⟨⟨r, k⟩, hr, rfl⟩ := Option.map_eq_some_iff.mp hn
      refine ⟨⟨_, h.openName hr⟩, ?_⟩
      cases hsearch : s.k.mutexSearch name with
      | closed i =>
          obtain ⟨-, q', pages, hget, rfl⟩ := mutexOpen_spec hsearch hr
          have hfresh := (h.ready.pages.getPage hget).1
          refine ⟨rfl, fun q hq => update_of_ne ?_ _ _, fun p hp _ => ⟨hp, Iff.rfl⟩⟩
          rintro rfl
          exact hfresh (Or.inr hq)
      | _ =>
          simp only [mutexOpen, hsearch, Option.some.injEq, Prod.mk.injEq] at hr
          obtain ⟨-, rfl⟩ := hr
          exact ⟨rfl, fun _ _ => rfl, fun p hp _ => ⟨hp, Iff.rfl⟩⟩
  | status call p =>
      simp only [mutexSystem] at hn
      split at hn
      next => cases hn
      next hout =>
        cases hn
        rw [not_or] at hout
        refine ⟨⟨_, h.status hout.1 hout.2⟩, rfl, fun _ _ => rfl, fun q hq hne => ⟨hq, ?_⟩⟩
        obtain ⟨st, he, -⟩ := call.apply_eq s.k.processes p
        have hqp : q ≠ p := by
          rintro rfl
          exact hne rfl
        have hsame : (s.k.applyStatus call p).processes q = s.k.processes q := by
          rw [applyStatus, he]
          exact Procs.setSt_of_ne hqp
        show (s.k.applyStatus call p).processes.isBlockedProcess q ↔ _
        unfold Procs.isBlockedProcess
        rw [hsame]

theorem mutexInv_of_reach (h : (mutexSystem key).Reach s) :
    ∃ holder, MutexInv s key ∅ holder := by
  refine h.invariant (I := fun s => ∃ holder, MutexInv s key ∅ holder)
    (fun s hs => ⟨none, mutexInv_of_init hs⟩) ?_
  rintro s a t ⟨holder, hi⟩ - hn
  exact (hi.next hn).1

/-! ## What holds in every state -/

/-- One process at most has the mutex, and the queue and the word agree with that. -/
structure MutexOk (s : MutexRun) (key : Int) : Prop where
  exclusion : ∀ p q, (s.point p).inSection → (s.point q).inSection → p = q
  holder_unique : ∀ p q, s.Holds p → s.Holds q → p = q
  locked_iff : (s.k.openMutexes key).locked = .locked ↔ ∃ p, s.Holds p
  mem_waiters_iff : ∀ p, p ∈ s.waiters key ↔ s.BlockedInLock p
  nodup : (s.waiters key).Nodup
  /-- The queue is in the order of arrival. -/
  arrival : (s.waiters key).Pairwise fun p q => s.arrived p < s.arrived q
  unlocked_idle : (s.k.openMutexes key).locked = .unlocked → ∀ p, ¬(s.point p).inLock
  /-- An unlock hands the mutex over to the head of the queue. -/
  handover : ∀ p rest t, s.waiters key = p :: rest → (mutexSystem key).next s .unlock = some t →
    (t.k.openMutexes key).locked = .locked ∧ t.waiters key = rest ∧ ¬s.Holds p ∧ t.Holds p

theorem mutexOpen_twoProcesses : (twoProcesses.mutexOpen .nil).isSome := by decide +kernel

/-- The two processes after a mutex was opened. -/
def mutexOpened : MutexRun where
  k := ((twoProcesses.mutexOpen .nil).get mutexOpen_twoProcesses).2
  point _ := .idle
  arrived _ := 0
  clock := 0

theorem init_mutexOpened : (mutexSystem 0).init mutexOpened := by
  refine ⟨twoProcesses, .nil, 0, by decide +kernel, ?_, PageStack.initial_pagesOk, ?_,
    by decide +kernel, fun _ => rfl⟩
  · rw [← Option.some_get mutexOpen_twoProcesses]
    exact congrArg some (Prod.ext (by decide +kernel) rfl)
  · intro p
    show (Process.zero).st ≠ .delete
    decide

/-- The first process takes the mutex, the second one waits for it. -/
def mutexContended : Option MutexRun :=
  (mutexSystem 0).execute mutexOpened [.lock, .dispatch 2, .lock, .dispatch 1]

end Kernel

end TPE
