import TPE.Kernel.MutexProtocol

/-!
# A mutex that is closed while processes wait for it

`mutex_close` wakes up all processes in the mutex's queue.  Each of them was
stopped at the yield in `mutex_lock`, behind which there is only the return of
`1`: neither the state of the mutex nor its holder is tested again.

The run up to the call of `mutex_close` is one of `mutexSystem`.  What follows
is a run of a second system, which records what `mutex_lock` returns to the
processes that were in it.
-/

namespace TPE

open Function

namespace Kernel

variable {k k' : Kernel} {key : Int} {p q : Addr}

/-! ## The woken processes -/

/-- What `mutex_lock` returns behind its yield. -/
def returnAfterYield : Int := 1

theorem returns_of_yields {r : LockResult} (h : k.mutexLock key = some r) (hy : r.yields = true) :
    r.returns = returnAfterYield := by
  unfold mutexLock at h
  split at h
  · simp only at h
    split at h
    · obtain ⟨k₁, -, rfl⟩ := Option.map_eq_some_iff.mp h
      rfl
    · cases h
      cases hy
  · cases h
    cases hy

/-- The loop of `mutex_close` leaves no process of the queue blocked.  It writes
the queues, the free pages and the statuses. -/
theorem releaseWaiters_spec {fuel : Nat} (h : k.releaseWaiters fuel q = some k') :
    (∃ pages queues processes, k' = { k with pages, queues, processes }) ∧
    (∀ p, ¬k.processes.isBlockedProcess p → ¬k'.processes.isBlockedProcess p) ∧
    (∀ p, (k'.processes p).st = .delete ↔ (k.processes p).st = .delete) ∧
    (q ≠ null → null ∉ k.elems q → (∀ p, (k.processes p).st ≠ .delete) →
      ∀ p ∈ k.elems q, ¬k'.processes.isBlockedProcess p) := by
  induction fuel generalizing k with
  | zero => cases h
  | succ fuel ih =>
      rw [releaseWaiters] at h
      split at h
      next hempty =>
        cases h
        refine ⟨⟨_, _, _, rfl⟩, fun _ hp => hp, fun _ => Iff.rfl, fun hq _ _ p hp => ?_⟩
        rcases hempty with hnull | hnil
        · exact absurd hnull hq
        · rw [elems, hnil] at hp
          cases hp
      next hcons =>
        obtain ⟨⟨f, k₁⟩, hd, h⟩ := Option.bind_eq_some_iff.mp h
        have hq : q ≠ null := fun he => hcons (Or.inl he)
        obtain ⟨n, rest, hqs⟩ := List.exists_cons_of_ne_nil fun he => hcons (Or.inr he)
        obtain ⟨rfl, rfl⟩ := dequeue_cons hq hqs hd
        obtain ⟨⟨pages, queues, processes, rfl⟩, hkeep, hdelete, hwake⟩ := ih h
        have hrest : ∀ p, ¬k.processes.isBlockedProcess p →
            ¬(Procs.unblockProcess k.processes n.elem).isBlockedProcess p := by
          intro p hp
          by_cases hpn : p = n.elem
          · subst hpn
            unfold Procs.unblockProcess
            split
            next hgo =>
              intro hb
              rcases hb hgo.1 with hb | hb | hb <;> simp at hb
            next => exact hp
          · unfold Procs.isBlockedProcess
            rw [Procs.unblockProcess_of_ne hpn]
            exact hp
        refine ⟨⟨_, _, _, rfl⟩, fun p hp => hkeep p (hrest p hp), fun p => ?_, ?_⟩
        · exact (hdelete p).trans Procs.unblockProcess_delete_iff
        · intro hq' hnull halive p hp
          rw [elems, hqs, List.map_cons] at hnull hp
          rw [List.mem_cons, not_or] at hnull
          rcases List.mem_cons.mp hp with rfl | hp
          · apply hkeep
            rw [Procs.isBlockedProcess_unblock (Ne.symm hnull.1) (halive _), update_self]
            exact fun hf => hf
          · refine hwake hq' ?_ (fun p hdel => ?_) p ?_
            · simpa only [elems, update_self] using hnull.2
            · exact halive p (Procs.unblockProcess_delete_iff.mp hdel)
            · simpa only [elems, update_self] using hp

/-- After `mutex_close` no process of the queue is blocked. -/
theorem mutexClose_spec {r : Int} (hopen : k.mutexIsOpen key)
    (hq : (k.openMutexes key).processQueue ≠ null)
    (hnull : null ∉ k.elems (k.openMutexes key).processQueue)
    (halive : ∀ p, (k.processes p).st ≠ .delete) (h : k.mutexClose key = some (r, k')) :
    k'.nodes = k.nodes ∧ (∀ p, (k'.processes p).st ≠ .delete) ∧
    ∀ p ∈ k.elems (k.openMutexes key).processQueue, ¬k'.processes.isBlockedProcess p := by
  unfold mutexClose at h
  rw [if_pos hopen] at h
  obtain ⟨k₁, hrel, h⟩ := Option.bind_eq_some_iff.mp h
  obtain ⟨k₂, hdestroy, he⟩ := Option.map_eq_some_iff.mp h
  obtain ⟨⟨pages, queues, processes, rfl⟩, -, hdelete, hwake⟩ := releaseWaiters_spec hrel
  obtain ⟨pages', queues', rfl⟩ := destroyQueue_eq hdestroy
  cases he
  exact ⟨rfl, fun p hdel => halive p ((hdelete p).mp hdel), hwake hq hnull halive⟩

/-! ## Every process in the lock has a node -/

/-- A step writes no node, and moves no process but the running one. -/
theorem mutexNext_nodes {s t : MutexRun} {a : MutexAction}
    (hn : (mutexSystem key).next s a = some t) :
    t.k.nodes = s.k.nodes ∧ ∀ p, p ≠ s.k.getCurrentProcess → t.point p = s.point p := by
  cases a with
  | dispatch node =>
      simp only [mutexSystem] at hn
      split at hn
      next =>
        cases hn
        exact ⟨rfl, fun _ _ => rfl⟩
      next => cases hn
  | lock =>
      simp only [mutexSystem] at hn
      split at hn
      next => cases hn
      next =>
        obtain ⟨r, hr, rfl⟩ := Option.map_eq_some_iff.mp hn
        obtain ⟨superlock, mutexes, pages, queues, processes, hk⟩ := mutexLock_eq hr
        have hnodes : r.k.nodes = s.k.nodes := by rw [hk]
        split
        · exact ⟨hnodes, fun p hp => update_of_ne hp _ _⟩
        · exact ⟨hnodes, fun p hp => update_of_ne hp _ _⟩
  | resume =>
      simp only [mutexSystem] at hn
      split at hn
      next =>
        cases hn
        exact ⟨rfl, fun p hp => update_of_ne hp _ _⟩
      next => cases hn
  | unlock =>
      simp only [mutexSystem] at hn
      split at hn
      next =>
        obtain ⟨⟨r, k⟩, hr, rfl⟩ := Option.map_eq_some_iff.mp hn
        obtain ⟨superlock, mutexes, pages, queues, processes, rfl⟩ := mutexUnlock_eq hr
        exact ⟨rfl, fun p hp => update_of_ne hp _ _⟩
      next => cases hn
  | openName name =>
      obtain ⟨⟨r, k⟩, hr, rfl⟩ := Option.map_eq_some_iff.mp hn
      obtain ⟨pages, queues, mutexes, rfl⟩ := mutexOpen_eq hr
      exact ⟨rfl, fun _ _ => rfl⟩
  | status call p =>
      simp only [mutexSystem] at hn
      split at hn
      next => cases hn
      next =>
        cases hn
        exact ⟨rfl, fun _ _ => rfl⟩

/-- A process that has called has a node, at which it can be dispatched again. -/
theorem exists_node {s : MutexRun} (h : (mutexSystem key).Reach s) :
    ∀ p, s.point p ≠ .idle → ∃ node, s.k.procOf node = p := by
  refine h.invariant (I := fun s => ∀ p, s.point p ≠ .idle → ∃ node, s.k.procOf node = p) ?_ ?_
  · rintro s ⟨k, name, i, -, -, -, -, -, hidle⟩ p hp
    exact absurd (hidle p) hp
  · intro s a t hi _ hn p hp
    obtain ⟨hnodes, hpoint⟩ := mutexNext_nodes hn
    have hsame : t.k.procOf = s.k.procOf := by
      funext node
      rw [procOf, procOf, hnodes]
    rw [hsame]
    by_cases hc : p = s.k.getCurrentProcess
    · exact ⟨s.k.current, hc.symm⟩
    · rw [hpoint p hc] at hp
      exact hi p hp

/-! ## Runs after the close -/

/-- The kernel after the close, with the points of the processes with respect to
the mutex that was closed, and what `mutex_lock` has returned to those that were
in it. -/
structure ClosedRun where
  k : Kernel
  point : Addr → Point
  returned : Addr → Option Int

/-- The steps after the close. -/
inductive ClosedAction where
  /-- The scheduler dispatches the process of a node. -/
  | dispatch (node : Addr)
  /-- The running process returns from the yield in `mutex_lock`. -/
  | resume
  /-- The running process leaves its section and calls `mutex_unlock`. -/
  | unlock
  /-- The running process calls `mutex_lock` with the same key. -/
  | lock
  /-- The running process calls `mutex_open`, with any name. -/
  | openName (name : CString)
  /-- The status of a process outside the call changes for some other reason. -/
  | status (call : StatusCall) (p : Addr)

/-- Runs that start with the state in which `mutex_close` returns.  A mutex that
is opened later may get the same key.  The points are not about that one. -/
def closedSystem (key : Int) (start : ClosedRun) : System ClosedRun ClosedAction where
  init s := s = start
  next
    | s, .dispatch node =>
        if s.k.Dispatchable node then some { s with k := { s.k with current := node } } else none
    | s, .resume =>
        let p := s.k.getCurrentProcess
        if (s.point p).inLock ∧ ¬s.k.processes.isBlockedProcess p then
          some { s with
            point := update s.point p .critical
            returned := update s.returned p (some returnAfterYield) }
        else none
    | s, .unlock =>
        let p := s.k.getCurrentProcess
        if s.point p = .critical then
          (s.k.mutexUnlock key).map fun (_, k) => { s with k, point := update s.point p .idle }
        else none
    | s, .lock =>
        if (s.point s.k.getCurrentProcess).inLock then none
        else (s.k.mutexLock key).map fun r => { s with k := r.k }
    | s, .openName name => (s.k.mutexOpen name).map fun (_, k) => { s with k }
    | s, .status call p =>
        if (s.point p).inLock ∨ call = .kill then none
        else some { s with k := s.k.applyStatus call p }

/-- `mutex_lock` returns `1` to a process that was in it only if the process has
the mutex, and two processes are not in their sections. -/
structure KeepsOut (s : MutexRun) (t : ClosedRun) : Prop where
  returned : ∀ p, (s.point p).inLock → t.returned p = some 1 → s.Holds p
  exclusion : ∀ p q, (t.point p).inSection → (t.point q).inSection → p = q

/-- No step after the close brings a process into the lock or to a section which
was in neither. -/
theorem closed_point {s t : ClosedRun} (h : (closedSystem key s).Reach t) :
    ∀ p, t.point p ≠ .idle → s.point p ≠ .idle := by
  refine h.invariant (I := fun t => ∀ p, t.point p ≠ .idle → s.point p ≠ .idle) ?_ ?_
  · rintro t rfl p hp
    exact hp
  · intro t a u hi _ hn p hp
    cases a with
    | dispatch node =>
        simp only [closedSystem] at hn
        split at hn
        next =>
          cases hn
          exact hi p hp
        next => cases hn
    | resume =>
        simp only [closedSystem] at hn
        split at hn
        next hin =>
          cases hn
          by_cases hc : p = t.k.getCurrentProcess
          · subst hc
            exact hi _ (Point.ne_idle_of_inLock hin.1)
          · simp only [update_of_ne hc] at hp
            exact hi p hp
        next => cases hn
    | unlock =>
        simp only [closedSystem] at hn
        split at hn
        next =>
          obtain ⟨⟨r, k⟩, -, rfl⟩ := Option.map_eq_some_iff.mp hn
          by_cases hc : p = t.k.getCurrentProcess
          · subst hc
            simp only [update_self, ne_eq, not_true_eq_false] at hp
          · simp only [update_of_ne hc] at hp
            exact hi p hp
        next => cases hn
    | lock =>
        simp only [closedSystem] at hn
        split at hn
        next => cases hn
        next =>
          obtain ⟨r, -, rfl⟩ := Option.map_eq_some_iff.mp hn
          exact hi p hp
    | openName name =>
        obtain ⟨⟨r, k⟩, -, rfl⟩ := Option.map_eq_some_iff.mp hn
        exact hi p hp
    | status call q =>
        simp only [closedSystem] at hn
        split at hn
        next => cases hn
        next =>
          cases hn
          exact hi p hp

/-- A process in a section or in `mutex_lock` holds the mutex if all that wait do. -/
theorem MutexInv.holds_of_not_idle {s : MutexRun} {others : Set Addr} {holder : Option Addr}
    (h : MutexInv s key others holder) (hwait : ∀ p ∈ s.waiters key, s.Holds p)
    (hp : s.point p ≠ .idle) : s.Holds p := by
  by_cases hq : p ∈ s.waiters key
  · exact hwait p hq
  · cases hpt : s.point p with
    | idle => exact absurd hpt hp
    | waiting => exact Or.inr (h.lock.woken p (Or.inl hpt) hq)
    | critical => exact Or.inl (Or.inl hpt)
    | relocking => exact Or.inl (Or.inr hpt)

/-- After the close of a mutex nobody is let in exactly if no process waited for it
but the holder itself, in a second call. -/
theorem mutex_close_waiters {s : MutexRun} (h : (mutexSystem key).Reach s) {r : Int}
    (hclose : s.k.mutexClose key = some (r, k)) :
    (∀ t, (closedSystem key ⟨k, s.point, fun _ => none⟩).Reach t → KeepsOut s t) ↔
      ∀ p ∈ s.waiters key, s.Holds p := by
  obtain ⟨holder, hi⟩ := mutexInv_of_reach h
  constructor
  · intro hall p hp
    obtain ⟨hnodes, halive, hwoken⟩ :=
      mutexClose_spec hi.ready.opened hi.ready.header hi.ready.noNull hi.ready.alive hclose
    have hin : (s.point p).inLock := (hi.lock.queued p hp).1
    obtain ⟨node, hnode⟩ := exists_node h p (Point.ne_idle_of_inLock hin)
    have hproc : k.procOf node = p := by
      rw [← hnode, procOf, procOf, hnodes]
    have hready : k.Dispatchable node := by
      rw [Dispatchable, hproc]
      exact ⟨hwoken p hp, fun hdel => halive p hdel.2⟩
    -- the process is dispatched and returns
    have hdispatched : (closedSystem key ⟨k, s.point, fun _ => none⟩).Reach
        ⟨{ k with current := node }, s.point, fun _ => none⟩ :=
      System.Reach.next (a := .dispatch node) (System.Reach.start rfl) (if_pos hready)
    have hreturned : (closedSystem key ⟨k, s.point, fun _ => none⟩).Reach
        ⟨{ k with current := node }, update s.point (k.procOf node) .critical,
          update (fun _ => none) (k.procOf node) (some returnAfterYield)⟩ := by
      refine hdispatched.next (a := .resume) (if_pos ⟨?_, hready.1⟩)
      show (s.point (k.procOf node)).inLock
      rw [hproc]
      exact hin
    rw [hproc] at hreturned
    apply (hall _ hreturned).returned p hin
    show update (fun _ => none) p (some returnAfterYield) p = some 1
    rw [update_self]
    rfl
  · intro hwait t ht
    have hidle := closed_point ht
    constructor
    · intro p hin _
      exact hi.holds_of_not_idle hwait (Point.ne_idle_of_inLock hin)
    · intro p q hp hq
      have hholds : ∀ p, (t.point p).inSection → s.Holds p := fun p hp =>
        hi.holds_of_not_idle hwait (hidle p (Point.ne_idle_of_inSection hp))
      exact hi.lock.holder_unique (hholds p hp) (hholds q hq)

theorem mutexContended_isSome : mutexContended.isSome := by decide +kernel

theorem mutexClose_contended :
    ((mutexContended.get mutexContended_isSome).k.mutexClose 0).isSome := by
  decide +kernel

theorem reach_mutexContended :
    (mutexSystem 0).Reach (mutexContended.get mutexContended_isSome) :=
  (System.Reach.start init_mutexOpened).execute (Option.some_get _).symm

theorem not_inLock_contended :
    ¬((mutexContended.get mutexContended_isSome).point
      (mutexContended.get mutexContended_isSome).k.getCurrentProcess).inLock := by
  decide +kernel

/-- The state in which the holder has closed the mutex. -/
def mutexClosed : ClosedRun where
  k := (((mutexContended.get mutexContended_isSome).k.mutexClose 0).get mutexClose_contended).2
  point := (mutexContended.get mutexContended_isSome).point
  returned _ := none

/-- The mutex with a holder and a waiting process is closed. -/
theorem mutex_close_waiters_contended :
    (∀ t, (closedSystem 0 mutexClosed).Reach t →
        KeepsOut (mutexContended.get mutexContended_isSome) t) ↔
      ∀ p ∈ (mutexContended.get mutexContended_isSome).waiters 0,
        (mutexContended.get mutexContended_isSome).Holds p :=
  mutex_close_waiters reach_mutexContended (Option.some_get mutexClose_contended).symm

/-- The waiting process is dispatched, returns with `1` and is in its section
together with the holder. -/
theorem closed_mutex_lets_in :
    ¬∀ s r k, (mutexSystem 0).Reach s → ¬(s.point s.k.getCurrentProcess).inLock →
      s.k.mutexClose 0 = some (r, k) →
      ∀ t, (closedSystem 0 ⟨k, s.point, fun _ => none⟩).Reach t → KeepsOut s t := by
  intro claim
  have hkeeps := claim _ _ _ reach_mutexContended not_inLock_contended
    (Option.some_get mutexClose_contended).symm
  obtain ⟨t, ht, hf⟩ := System.exists_reach_of_execute (M := closedSystem 0 mutexClosed) rfl
    [.dispatch 2, .resume]
    (fun t => decide (t.point 10 = .critical) && decide (t.point 20 = .critical))
    (by decide +kernel)
  simp only [Bool.and_eq_true, decide_eq_true_eq] at hf
  have := (hkeeps t ht).exclusion 10 20 (Or.inl hf.1) (Or.inl hf.2)
  cases this

end Kernel

end TPE
