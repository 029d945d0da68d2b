import TPE.Library.NameTable
import TPE.Kernel.ProcessManager
import TPE.Kernel.QueueADT

/-!
# Mutexes

`kernelMutex.c`: a mutex is a word that an exchange sets, and a queue of the
processes that found it set.  The functions are taken as one step each, and
`mutex_lock` up to its yield.  They act for the running process.

An unlock with a waiting process leaves the word set: the mutex goes over to
the process it takes from the queue.
-/

namespace TPE

open Function

namespace Kernel

/-- Write the mutex with the key `key`. -/
def writeMutex (k : Kernel) (key : Int) (f : Mutex → Mutex) : Kernel :=
  { k with openMutexes := update k.openMutexes key (f (k.openMutexes key)) }

/-! ## Open and close -/

/-- The loop of `mutex_open`. -/
def mutexSearch (k : Kernel) (name : CString) : Scan :=
  scanFrom (fun i => k.mutexIsOpen i) (fun i => name.strcmp (k.openMutexes i).name = 0) maxMutexes 0

/-- `mutex_open`, with `create_new_mutex` -/
def mutexOpen (k : Kernel) (name : CString) : Option (Int × Kernel) :=
  match k.mutexSearch name with
  | .found i => some (i, k)
  | .full => some (maxOpenError, k)
  | .closed i =>
      k.createQueue.map fun (q, k) =>
        (i, k.writeMutex i fun _ =>
          { name, processQueue := q, state := .opened, locked := .unlocked })

/-- The loop of `mutex_close`. -/
def releaseWaiters : Nat → Kernel → Addr → Option Kernel
  | 0, _, _ => none
  | fuel + 1, k, q =>
      if k.isEmpty q then some k
      else (k.dequeue q).bind fun (p, k) =>
        releaseWaiters fuel { k with processes := Procs.unblockProcess k.processes p } q

/-- `mutex_close` -/
def mutexClose (k : Kernel) (key : Int) : Option (Int × Kernel) :=
  if k.mutexIsOpen key then
    let q := (k.openMutexes key).processQueue
    (releaseWaiters ((k.queues q).length + 1) k q).bind fun k =>
      ((k.writeMutex key fun m => { m with state := .closed }).destroyQueue q).map fun k => (1, k)
  else some (notOpenError, k)

/-! ## Lock and unlock -/

/-- What `mutex_lock` has done when it returns or gets to its yield. -/
structure LockResult where
  /-- The return value. -/
  returns : Int
  /-- The process was queued and blocked, and yields. -/
  yields : Bool
  k : Kernel

/-- `mutex_lock(key)` -/
def mutexLock (k : Kernel) (key : Int) : Option LockResult :=
  if k.mutexIsOpen key then
    let p := k.getCurrentProcess
    let m := k.openMutexes key
    -- `_unlocked` exchanges the word with `LOCKED`
    let k := { k with superlock := .locked }.writeMutex key fun m => { m with locked := .locked }
    if m.locked = .locked then
      (k.enqueue m.processQueue p).map fun k =>
        ⟨1, true, { k with
          processes := Procs.blockProcess k.processes p, superlock := .unlocked }⟩
    else some ⟨1, false, { k with superlock := .unlocked }⟩
  else some ⟨notOpenError, false, k⟩

/-- The loop of `mutex_unlock`: take processes from the queue up to one that is
not marked for deletion, or `NULL`. -/
def dequeueWaiter : Nat → Kernel → Addr → Option (Addr × Kernel)
  | 0, _, _ => none
  | fuel + 1, k, q =>
      (k.dequeue q).bind fun (p, k) =>
        if k.processes.isDeleteProcess p then dequeueWaiter fuel k q else some (p, k)

/-- `mutex_unlock(key)` -/
def mutexUnlock (k : Kernel) (key : Int) : Option (Int × Kernel) :=
  if k.mutexIsOpen key then
    let q := (k.openMutexes key).processQueue
    (dequeueWaiter ((k.queues q).length + 1) { k with superlock := .locked } q).map fun (p, k) =>
      let k := k.writeMutex key fun m => { m with locked := .unlocked }
      let k :=
        if p ≠ null then
          { k with processes := Procs.unblockProcess k.processes p }.writeMutex key
            fun m => { m with locked := .locked }
        else k
      (1, { k with superlock := .unlocked })
  else some (notOpenError, k)

/-! ## What the calls do -/

variable {k k' : Kernel} {key : Int} {l : Lock}

/-- Setting the word of a mutex to what it is changes nothing. -/
theorem writeMutex_eq_self (h : (k.openMutexes key).locked = l) :
    k.writeMutex key (fun m => { m with locked := l }) = k := by
  subst h
  exact congrArg (fun ms => { k with openMutexes := ms }) (update_eq_self key k.openMutexes)

theorem mutexOpen_spec {name : CString} {i : Nat} (hs : k.mutexSearch name = .closed i) {r : Int}
    (h : k.mutexOpen name = some (r, k')) :
    r = i ∧ ∃ q pages, k.pages.getPage = some (q, pages) ∧
      k' = { k with
        pages
        queues := update k.queues q []
        openMutexes := update k.openMutexes i ⟨name, .unlocked, .opened, q⟩ } := by
  unfold mutexOpen at h
  rw [hs] at h
  obtain ⟨⟨q, k₁⟩, hq, he⟩ := Option.map_eq_some_iff.mp h
  obtain ⟨pages, hpages, rfl⟩ := createQueue_spec hq
  cases he
  exact ⟨rfl, q, pages, hpages, rfl⟩

/-- A lock of a free mutex takes it. -/
theorem mutexLock_unlocked (hopen : k.mutexIsOpen key)
    (hfree : (k.openMutexes key).locked = .unlocked) :
    k.mutexLock key = some ⟨1, false, { k with
      superlock := .unlocked
      openMutexes := update k.openMutexes key { k.openMutexes key with locked := .locked } }⟩ := by
  unfold mutexLock
  rw [if_pos hopen]
  simp only [hfree]
  rfl

/-- A lock of a taken mutex queues the process, blocks it and yields. -/
theorem mutexLock_locked (hopen : k.mutexIsOpen key)
    (htaken : (k.openMutexes key).locked = .locked)
    (hq : (k.openMutexes key).processQueue ≠ null) {r : LockResult}
    (h : k.mutexLock key = some r) :
    ∃ page pages, k.pages.getPage = some (page, pages) ∧
      r = ⟨1, true, { k with
        superlock := .unlocked
        pages
        queues := update k.queues (k.openMutexes key).processQueue
          (k.queues (k.openMutexes key).processQueue ++ [⟨page, k.getCurrentProcess⟩])
        processes := Procs.blockProcess k.processes k.getCurrentProcess }⟩ := by
  unfold mutexLock at h
  rw [if_pos hopen, writeMutex_eq_self (by exact htaken)] at h
  simp only [htaken, if_true] at h
  obtain ⟨k₁, henq, rfl⟩ := Option.map_eq_some_iff.mp h
  obtain ⟨page, pages, hpages, rfl⟩ := enqueue_spec hq henq
  exact ⟨page, pages, hpages, rfl⟩

/-- An unlock with an empty queue frees the mutex. -/
theorem mutexUnlock_nil (hopen : k.mutexIsOpen key)
    (hq : k.queues (k.openMutexes key).processQueue = []) :
    k.mutexUnlock key = some (1, { k with
      superlock := .unlocked
      openMutexes := update k.openMutexes key { k.openMutexes key with locked := .unlocked } }) := by
  unfold mutexUnlock
  rw [if_pos hopen]
  simp only [hq, List.length_nil, dequeueWaiter]
  rw [dequeue_nil (by exact hq)]
  rfl

/-- An unlock with a live process at the head of the queue hands the mutex over:
the word stays set and the process is made ready. -/
theorem mutexUnlock_cons {f : QueueNode} {rest : List QueueNode} (hopen : k.mutexIsOpen key)
    (htaken : (k.openMutexes key).locked = .locked)
    (hnull : (k.openMutexes key).processQueue ≠ null)
    (hq : k.queues (k.openMutexes key).processQueue = f :: rest) (hf : f.elem ≠ null)
    (hlive : (k.processes f.elem).st ≠ .delete) {r : Int} (h : k.mutexUnlock key = some (r, k')) :
    r = 1 ∧ k' = { k with
      superlock := .unlocked
      queues := update k.queues (k.openMutexes key).processQueue rest
      pages := k.pages.storePage f.page
      processes := Procs.unblockProcess k.processes f.elem } := by
  unfold mutexUnlock at h
  rw [if_pos hopen] at h
  simp only [hq, List.length_cons, dequeueWaiter] at h
  obtain ⟨⟨p, k₁⟩, hd, he⟩ := Option.map_eq_some_iff.mp h
  obtain ⟨⟨p', k₂⟩, hd, hb⟩ := Option.bind_eq_some_iff.mp hd
  obtain ⟨rfl, rfl⟩ := dequeue_cons hnull (by exact hq) hd
  rw [if_neg (fun hdel => hlive hdel.2)] at hb
  cases hb
  simp only [hf, ne_eq, not_false_eq_true, if_true, writeMutex, update_self, update_idem] at he
  cases he
  refine ⟨rfl, ?_⟩
  -- the word was cleared and set again
  have hword : update k.openMutexes key { k.openMutexes key with locked := .locked } =
      k.openMutexes := by
    rw [← htaken]
    exact update_eq_self key k.openMutexes
  exact congrArg (fun ms => { k with
    superlock := .unlocked
    queues := update k.queues (k.openMutexes key).processQueue rest
    pages := k.pages.storePage f.page
    processes := Procs.unblockProcess k.processes f.elem
    openMutexes := ms }) hword

/-! ## What the calls leave alone -/

/-- `mutex_open` writes the mutexes, the queues and the free pages. -/
theorem mutexOpen_eq {name : CString} {r : Int} (h : k.mutexOpen name = some (r, k')) :
    ∃ pages queues openMutexes, k' = { k with pages, queues, openMutexes } := by
  unfold mutexOpen at h
  split at h
  · cases h
    exact ⟨_, _, _, rfl⟩
  · cases h
    exact ⟨_, _, _, rfl⟩
  · obtain ⟨⟨q, k₁⟩, hq, he⟩ := Option.map_eq_some_iff.mp h
    obtain ⟨pages, -, rfl⟩ := createQueue_spec hq
    cases he
    exact ⟨_, _, _, rfl⟩

/-- `mutex_lock` writes these variables. -/
theorem mutexLock_eq {r : LockResult} (h : k.mutexLock key = some r) :
    ∃ superlock openMutexes pages queues processes,
      r.k = { k with superlock, openMutexes, pages, queues, processes } := by
  unfold mutexLock at h
  split at h
  · simp only at h
    split at h
    · obtain ⟨k₁, henq, rfl⟩ := Option.map_eq_some_iff.mp h
      obtain ⟨pages, queues, rfl⟩ := enqueue_eq henq
      exact ⟨_, _, _, _, _, rfl⟩
    · cases h
      exact ⟨_, _, _, _, _, rfl⟩
  · cases h
    exact ⟨_, _, _, _, _, rfl⟩

theorem dequeueWaiter_eq {fuel : Nat} {q p : Addr}
    (h : k.dequeueWaiter fuel q = some (p, k')) :
    ∃ pages queues, k' = { k with pages, queues } := by
  induction fuel generalizing k with
  | zero => cases h
  | succ fuel ih =>
      obtain ⟨⟨p', k₁⟩, hd, h⟩ := Option.bind_eq_some_iff.mp h
      obtain ⟨pages, queues, rfl⟩ := dequeue_eq hd
      simp only at h
      split at h
      · obtain ⟨pages', queues', rfl⟩ := ih h
        exact ⟨_, _, rfl⟩
      · cases h
        exact ⟨_, _, rfl⟩

/-- `mutex_unlock` writes these variables. -/
theorem mutexUnlock_eq {r : Int} (h : k.mutexUnlock key = some (r, k')) :
    ∃ superlock openMutexes pages queues processes,
      k' = { k with superlock, openMutexes, pages, queues, processes } := by
  unfold mutexUnlock at h
  split at h
  · obtain ⟨⟨p, k₁⟩, hd, he⟩ := Option.map_eq_some_iff.mp h
    obtain ⟨pages, queues, rfl⟩ := dequeueWaiter_eq hd
    simp only at he
    split at he
    · cases he
      exact ⟨_, _, _, _, _, rfl⟩
    · cases he
      exact ⟨_, _, _, _, _, rfl⟩
  · cases h
    exact ⟨_, _, _, _, _, rfl⟩

end Kernel

end TPE
