import TPE.Kernel.NestedCalls

/-!
# Calls that find the mutexes free

The functions of the allocator, of the queues and of the scheduler are taken as
one step each elsewhere.  That is what they amount to when the mutexes they take
are free: then no call inside them finds a mutex taken, and nothing waits.

A nested `mutex_lock` or `mutex_unlock` writes the superlock all the same, so a
call is one step up to the superlock.
-/

namespace TPE

open Function

namespace Kernel

open Call

/-! ## Steps -/

/-- A step that neither makes the process wait nor gives the processor away. -/
def CallStep.Calm : CallStep → Prop
  | .superlock => True
  | .write => True
  | _ => False

abbrev calm (e : CallStep) (_ : Kernel) : Prop := e.Calm

/-- No demand on the steps. -/
abbrev anyhow (_ : CallStep) (_ : Kernel) : Prop := True

/-- The kernel up to the superlock. -/
def UpToSuperlock (k k₁ : Kernel) : Prop := ∃ superlock, k₁ = { k with superlock }

/-- The call is one step from `k` to `k'`, and the process waits for nothing. -/
abbrev CalmStep {α : Type} (c : KernelCall α) (k : Kernel) (a : α) (k' : Kernel) : Prop :=
  Realizes UpToSuperlock calm c k a k'

/-- The kernel after the word of a mutex was written, if the mutex is open. -/
def setWord (k : Kernel) (key : Int) (l : Lock) : Kernel :=
  if k.mutexIsOpen key then k.writeMutex key fun m => { m with locked := l } else k

variable {c : MutexCalls} {k k' : Kernel} {key : Int} {q p page : Addr}

/-- A step that does not look at the superlock. -/
theorem CalmStep.write {f : Kernel → Kernel}
    (hf : ∀ superlock, f { k with superlock } = { f k with superlock }) :
    CalmStep (act .write f) k ⟨⟩ (f k) := by
  refine .act ?_
  rintro k₁ ⟨superlock, rfl⟩
  exact ⟨⟨superlock, hf superlock⟩, trivial⟩

theorem lockSection_notTaken {P : CallStep → Kernel → Prop}
    (hfree : (k.openMutexes key).locked = .unlocked)
    (hp : P .write (k.writeMutex key fun m => { m with locked := .locked })) :
    Returns P (lockSection c key) k false
      (k.writeMutex key fun m => { m with locked := .locked }) := by
  unfold lockSection
  refine .bind (.read k) (.bind (.act hp) ?_)
  rw [if_neg (by rw [hfree]; decide)]
  exact .pure _ _

/-- `mutex_lock` of a mutex that is not taken calls nothing. -/
theorem mutexLock_notTaken (depth : Nat)
    (hfree : k.mutexIsOpen key → (k.openMutexes key).locked = .unlocked) :
    ∃ r, CalmStep ((callsAt (depth + 1)).mutexLock key) k r (k.setWord key .locked) := by
  by_cases hopen : k.mutexIsOpen key
  · refine ⟨1, ?_⟩
    rintro k₁ ⟨superlock, rfl⟩
    have hs : Returns calm (lockSection (callsAt depth) key) { k with superlock := .locked } false _ :=
      lockSection_notTaken (hfree hopen) trivial
    rw [setWord, if_pos hopen]
    refine ⟨_, ⟨.unlocked, rfl⟩, .bind (.read _) ?_⟩
    rw [if_pos (by exact hopen)]
    exact .bind (.act trivial) (.bind hs (.bind (.act trivial) (.pure _ _)))
  · refine ⟨notOpenError, ?_⟩
    rintro k₁ ⟨superlock, rfl⟩
    rw [setWord, if_neg hopen]
    refine ⟨_, ⟨superlock, rfl⟩, .bind (.read _) ?_⟩
    rw [if_neg (by exact hopen)]
    exact .pure _ _

theorem dequeue_empty {P : CallStep → Kernel → Prop} (hempty : k.isEmpty q) :
    Returns P (dequeueCall c q) k null k := by
  unfold dequeueCall
  refine .bind (.read k) ?_
  rw [if_pos hempty]
  exact .pure _ _

theorem dequeueWaiter_empty {P : CallStep → Kernel → Prop} {rounds : Nat} (hempty : k.isEmpty q) :
    Returns P (dequeueWaiterCall c (rounds + 1) q) k null k := by
  unfold dequeueWaiterCall
  refine .bind (dequeue_empty hempty) (.bind (.read k) ?_)
  rw [if_neg fun hdel => hdel.1 rfl]
  exact .pure _ _

theorem unlockSection_nobody {P : CallStep → Kernel → Prop}
    (hempty : k.isEmpty (k.openMutexes key).processQueue)
    (hp : P .write (k.writeMutex key fun m => { m with locked := .unlocked })) :
    Returns P (unlockSection c key) k ⟨⟩
      (k.writeMutex key fun m => { m with locked := .unlocked }) := by
  unfold unlockSection
  refine .bind (.read k) (.bind (dequeueWaiter_empty hempty) (.bind (.act hp) ?_))
  rw [if_neg fun hne => hne rfl]
  exact .pure _ _

/-- `mutex_unlock` of a mutex that nobody waits for. -/
theorem mutexUnlock_nobody (depth : Nat)
    (hempty : k.mutexIsOpen key → k.isEmpty (k.openMutexes key).processQueue) :
    ∃ r, CalmStep ((callsAt (depth + 1)).mutexUnlock key) k r (k.setWord key .unlocked) := by
  by_cases hopen : k.mutexIsOpen key
  · refine ⟨1, ?_⟩
    rintro k₁ ⟨superlock, rfl⟩
    have hs : Returns calm (unlockSection (callsAt depth) key) { k with superlock := .locked } ⟨⟩ _ :=
      unlockSection_nobody (hempty hopen) trivial
    rw [setWord, if_pos hopen]
    refine ⟨_, ⟨.unlocked, rfl⟩, .bind (.read _) ?_⟩
    rw [if_pos (by exact hopen)]
    exact .bind (.act trivial) (.bind hs (.bind (.act trivial) (.pure _ _)))
  · refine ⟨notOpenError, ?_⟩
    rintro k₁ ⟨superlock, rfl⟩
    rw [setWord, if_neg hopen]
    refine ⟨_, ⟨superlock, rfl⟩, .bind (.read _) ?_⟩
    rw [if_neg (by exact hopen)]
    exact .pure _ _

/-- The word of a free mutex is cleared again. -/
theorem setWord_unlocked (hfree : k.MutexFree key)
    (hm : k'.openMutexes = (k.setWord key .locked).openMutexes) :
    k'.setWord key .unlocked = { k' with openMutexes := k.openMutexes } := by
  unfold setWord at *
  by_cases hopen : k.mutexIsOpen key
  · rw [if_pos hopen] at hm
    have hword : (k.openMutexes key).locked = .unlocked := by
      rcases hfree with hclosed | hfree
      · exact absurd hopen hclosed
      · exact hfree.1
    have hopen' : k'.mutexIsOpen key := by
      refine ⟨hopen.1, hopen.2.1, ?_⟩
      rw [hm]
      simp only [writeMutex, update_self]
      exact hopen.2.2
    rw [if_pos hopen', writeMutex, hm]
    simp only [writeMutex, update_self, update_idem]
    have hsame : update k.openMutexes key { k.openMutexes key with locked := .unlocked } =
        k.openMutexes := by
      rw [← hword]
      exact update_eq_self key k.openMutexes
    rw [hsame]
  · rw [if_neg hopen] at hm
    have hclosed : ¬k'.mutexIsOpen key := by
      unfold mutexIsOpen
      rw [hm]
      exact hopen
    rw [if_neg hclosed, ← hm]

/-- Setting a word writes the mutexes. -/
theorem setWord_eq (k : Kernel) (key : Int) (l : Lock) :
    ∃ openMutexes, k.setWord key l = { k with openMutexes } ∧
      ∀ i, (openMutexes i).processQueue = (k.openMutexes i).processQueue ∧
        (openMutexes i).state = (k.openMutexes i).state ∧
        (i ≠ key → openMutexes i = k.openMutexes i) := by
  unfold setWord
  split
  · refine ⟨_, rfl, fun i => ?_⟩
    by_cases hi : i = key
    · subst hi
      simp
    · simp [hi]
  · exact ⟨_, rfl, fun i => ⟨rfl, rfl, fun _ => rfl⟩⟩

/-- The end of a section of a free mutex. -/
theorem mutexUnlock_restores (depth : Nat) (k k' : Kernel) (key : Int) (hfree : k.MutexFree key)
    (hm : k'.openMutexes = (k.setWord key .locked).openMutexes) (hq : k'.queues = k.queues) :
    ∃ r, CalmStep ((callsAt (depth + 1)).mutexUnlock key) k' r
      { k' with openMutexes := k.openMutexes } := by
  rw [← setWord_unlocked hfree hm]
  apply mutexUnlock_nobody
  intro hopen
  obtain ⟨mutexes, he, hsame⟩ := setWord_eq k key .locked
  rw [he] at hm
  rcases hfree with hclosed | hfree
  · refine absurd ⟨hopen.1, hopen.2.1, ?_⟩ hclosed
    have hstate := hopen.2.2
    rw [hm, (hsame key).2.1] at hstate
    exact hstate
  · unfold isEmpty
    rw [hm, hq, (hsame key).1]
    exact hfree.2

/-- The mutex of a free section is not taken. -/
theorem MutexFree.notTaken (hfree : k.MutexFree key) :
    k.mutexIsOpen key → (k.openMutexes key).locked = .unlocked := by
  intro hopen
  rcases hfree with hclosed | hfree
  · exact absurd hopen hclosed
  · exact hfree.1

/-- `store_page` while the allocator's mutex is free. -/
theorem storePage_calm_returns (depth : Nat) (hfree : k.MemoryFree) (address : Addr) :
    CalmStep (storePageCall (callsAt (depth + 1)) address) k k.pages.storePageReturns
      (k.storePage address) := by
  obtain ⟨_, hlock⟩ := mutexLock_notTaken depth (MutexFree.notTaken hfree)
  obtain ⟨mutexes, he, -⟩ := setWord_eq k k.memoryMutexKey .locked
  obtain ⟨_, hunlock⟩ := mutexUnlock_restores depth k
    { k.storePage address with openMutexes := mutexes } _ hfree (by rw [he]) rfl
  rw [he] at hlock
  refine .read (b := k.pages.storePageReturns) ?_
  rintro k₁ ⟨superlock, rfl⟩
  refine .bind hlock (.read (b := k.pages.storePageReturns) ?_)
  rintro k₂ ⟨superlock', rfl⟩
  exact .bind (CalmStep.write fun _ => rfl) (.bind hunlock (.pure _ _))

theorem storePage_calm (depth : Nat) (hfree : k.MemoryFree) (address : Addr) :
    ∃ r, CalmStep (storePageCall (callsAt (depth + 1)) address) k r (k.storePage address) :=
  ⟨_, storePage_calm_returns depth hfree address⟩

/-- `get_page` while the allocator's mutex is free and a page is left. -/
theorem getPage_calm (depth : Nat) (hfree : k.MemoryFree) {pages : PageStack}
    (hget : k.pages.getPage = some (page, pages)) :
    CalmStep (getPageCall (callsAt (depth + 1))) k page { k with pages } := by
  obtain ⟨_, hlock⟩ := mutexLock_notTaken depth (MutexFree.notTaken hfree)
  obtain ⟨mutexes, he, -⟩ := setWord_eq k k.memoryMutexKey .locked
  obtain ⟨_, hunlock⟩ := mutexUnlock_restores depth k
    { k with pages, openMutexes := mutexes } _ hfree (by rw [he]) rfl
  rw [he] at hlock
  refine .read ?_
  rintro k₁ ⟨superlock, rfl⟩
  refine .bind hlock (.read ?_)
  rintro k₂ ⟨superlock', rfl⟩
  simp only [hget]
  exact .bind (CalmStep.write fun _ => rfl) (.bind hunlock (.pure _ _))

/-- `store_stack_page` while its mutex is free. -/
theorem storeStackPage_calm_returns (depth : Nat) (hfree : k.MutexFree k.stackMemoryMutexKey)
    (address : Addr) :
    CalmStep (storeStackPageCall (callsAt (depth + 1)) address) k k.storeStackPageReturns
      (k.storeStackPage address) := by
  obtain ⟨_, hlock⟩ := mutexLock_notTaken depth (MutexFree.notTaken hfree)
  obtain ⟨mutexes, he, -⟩ := setWord_eq k k.stackMemoryMutexKey .locked
  obtain ⟨_, hunlock⟩ := mutexUnlock_restores depth k
    { k.storeStackPage address with openMutexes := mutexes } _ hfree (by rw [he]) rfl
  rw [he] at hlock
  refine .read (b := k.storeStackPageReturns) ?_
  rintro k₁ ⟨superlock, rfl⟩
  refine .bind hlock (.read (b := k.storeStackPageReturns) ?_)
  rintro k₂ ⟨superlock', rfl⟩
  exact .bind (CalmStep.write fun _ => rfl) (.bind hunlock (.pure _ _))

theorem storeStackPage_calm (depth : Nat) (hfree : k.MutexFree k.stackMemoryMutexKey)
    (address : Addr) :
    ∃ r, CalmStep (storeStackPageCall (callsAt (depth + 1)) address) k r
      (k.storeStackPage address) :=
  ⟨_, storeStackPage_calm_returns depth hfree address⟩

/-! ## Queues and mutexes -/

/-- `enqueue` is one step where the model of it as one step has a result. -/
theorem enqueue_calm (depth : Nat) (h : k.enqueue q p = some k') :
    CalmStep (enqueueCall (callsAt (depth + 1)) q p) k ⟨⟩ k' := by
  unfold enqueue at h
  unfold enqueueCall
  by_cases hq : q = null
  · rw [if_pos hq] at h ⊢
    cases h
    exact .pure _ _
  · rw [if_neg hq] at h ⊢
    by_cases hfree : k.MemoryFree
    · rw [if_pos hfree] at h
      obtain ⟨⟨page, k₁⟩, hget, he⟩ := Option.map_eq_some_iff.mp h
      obtain ⟨pages, hpages, rfl⟩ := getPage_eq_some hget
      cases he
      exact .bind (getPage_calm depth hfree hpages) (CalmStep.write fun _ => rfl)
    · rw [if_neg hfree] at h
      cases h

theorem dequeue_calm (depth : Nat) (h : k.dequeue q = some (p, k')) :
    CalmStep (dequeueCall (callsAt (depth + 1)) q) k p k' := by
  unfold dequeue at h
  unfold dequeueCall
  refine .read ?_
  rintro k₁ ⟨superlock, rfl⟩
  by_cases hq : q = null
  · rw [if_pos hq] at h
    rw [if_pos (by exact Or.inl hq)]
    cases h
    exact .pure _ _
  · rw [if_neg hq] at h
    cases hnodes : k.queues q with
    | nil =>
        rw [hnodes] at h
        rw [if_pos (by exact Or.inr hnodes)]
        cases h
        exact .pure _ _
    | cons f rest =>
        rw [hnodes] at h
        have hsome : ¬k.isEmpty q := by
          rintro (hnull | hnil)
          · exact hq hnull
          · rw [hnodes] at hnil
            cases hnil
        rw [if_neg (by exact hsome)]
        simp only at h ⊢
        by_cases hfree : (k.setQueue q rest).MemoryFree
        · rw [if_pos hfree] at h
          cases h
          obtain ⟨_, hstore⟩ := storePage_calm depth hfree f.page
          exact .bind (CalmStep.write fun _ => rfl) (.bind hstore (.pure _ _))
        · rw [if_neg hfree] at h
          cases h

theorem dequeueWaiter_calm (depth : Nat) {rounds : Nat} (h : k.dequeueWaiter rounds q = some (p, k')) :
    CalmStep (dequeueWaiterCall (callsAt (depth + 1)) rounds q) k p k' := by
  induction rounds generalizing k with
  | zero => cases h
  | succ rounds ih =>
      obtain ⟨⟨p₁, k₁⟩, hdequeue, h⟩ := Option.bind_eq_some_iff.mp h
      refine .bind (dequeue_calm depth hdequeue) (.read ?_)
      rintro k₂ ⟨superlock, rfl⟩
      simp only at h
      by_cases hdel : k₁.processes.isDeleteProcess p₁
      · rw [if_pos hdel] at h
        rw [if_pos (by exact hdel)]
        exact ih h
      · rw [if_neg hdel] at h
        rw [if_neg (by exact hdel)]
        cases h
        exact .pure _ _

/-- The kernel after the mutex went over to `p`, or was freed if `p` is `NULL`. -/
def handedOver (k : Kernel) (key : Int) (p : Addr) : Kernel :=
  let k := k.writeMutex key fun m => { m with locked := .unlocked }
  if p ≠ null then
    { k with processes := Procs.unblockProcess k.processes p }.writeMutex key
      fun m => { m with locked := .locked }
  else k

theorem handedOver_superlock (k : Kernel) (key : Int) (p : Addr) (superlock : Lock) :
    handedOver { k with superlock } key p = { k.handedOver key p with superlock } := by
  unfold handedOver
  by_cases hp : p ≠ null
  · rw [if_pos hp, if_pos hp]
    rfl
  · rw [if_neg hp, if_neg hp]
    rfl

theorem handMutexOver_returns (k : Kernel) (key : Int) (p : Addr) :
    Returns calm (handMutexOver key p) k ⟨⟩ (k.handedOver key p) := by
  unfold handMutexOver handedOver
  refine .bind (.act trivial) ?_
  by_cases hp : p ≠ null
  · rw [if_pos hp, if_pos hp]
    exact .bind (.act trivial) (.act trivial)
  · rw [if_neg hp, if_neg hp]
    exact .pure _ _

/-- `mutex_unlock` is one step where the model of it as one step has a result. -/
theorem mutexUnlock_calm (depth : Nat) {r : Int} (h : k.mutexUnlock key = some (r, k')) :
    Returns calm ((callsAt (depth + 2)).mutexUnlock key) k r k' := by
  unfold mutexUnlock at h
  refine .bind (.read k) ?_
  by_cases hopen : k.mutexIsOpen key
  · rw [if_pos hopen] at h ⊢
    obtain ⟨⟨p, k₁⟩, hdequeue, he⟩ := Option.map_eq_some_iff.mp h
    obtain ⟨_, ⟨superlock, rfl⟩, hreturns⟩ :=
      dequeueWaiter_calm depth hdequeue { k with superlock := .locked } ⟨_, rfl⟩
    have hsection : Returns calm (unlockSection (callsAt (depth + 1)) key)
        { k with superlock := .locked } ⟨⟩ { k₁.handedOver key p with superlock } := by
      rw [← handedOver_superlock]
      exact .bind (.read _) (.bind hreturns (handMutexOver_returns _ key p))
    cases he
    exact .bind (.act trivial) (.bind hsection (.bind (.act trivial) (.pure _ _)))
  · rw [if_neg hopen] at h ⊢
    cases h
    exact .pure _ _

/-- What `mutex_lock` does is what the model of it as one step says: it returns,
or it yields with the process queued and blocked. -/
theorem mutexLock_calm (depth : Nat) {r : LockResult} (h : k.mutexLock key = some r) :
    (r.yields = false → Returns calm ((callsAt (depth + 2)).mutexLock key) k r.returns r.k) ∧
      (r.yields = true → Parks anyhow ((callsAt (depth + 2)).mutexLock key) k r.k) := by
  unfold mutexLock at h
  by_cases hopen : k.mutexIsOpen key
  · rw [if_pos hopen] at h
    simp only at h
    by_cases htaken : (k.openMutexes key).locked = .locked
    · rw [if_pos htaken] at h
      obtain ⟨k₁, henqueue, rfl⟩ := Option.map_eq_some_iff.mp h
      obtain ⟨_, ⟨superlock, rfl⟩, hreturns⟩ := enqueue_calm depth henqueue _ ⟨.locked, rfl⟩
      refine ⟨fun hyields => ?_, fun _ => ?_⟩
      · cases hyields
      · have hsection : Returns anyhow (lockSection (callsAt (depth + 1)) key)
            { k with superlock := .locked } true
            { k₁ with
              superlock, processes := Procs.blockProcess k₁.processes k.getCurrentProcess } := by
          refine .bind (.read _) (.bind (.act trivial) ?_)
          rw [if_pos (by exact htaken)]
          exact .bind (.act trivial) (.bind (hreturns.mono fun _ _ _ => trivial)
            (.bind (.act trivial) (.pure _ _)))
        refine .right (.read k) ?_
        rw [if_pos hopen]
        exact .right (.act trivial) (.right hsection (.right (.act trivial)
          (.right (.act trivial) (.park _))))
    · rw [if_neg htaken] at h
      cases h
      refine ⟨fun _ => ?_, fun hyields => ?_⟩
      · have hfree : (k.openMutexes key).locked = .unlocked := by
          cases hword : (k.openMutexes key).locked with
          | locked => exact absurd hword htaken
          | unlocked => rfl
        have hsection : Returns calm (lockSection (callsAt (depth + 1)) key)
            { k with superlock := .locked } false _ := lockSection_notTaken hfree trivial
        refine .bind (.read k) ?_
        rw [if_pos hopen]
        exact .bind (.act trivial) (.bind hsection (.bind (.act trivial) (.pure _ _)))
      · cases hyields
  · rw [if_neg hopen] at h
    cases h
    refine ⟨fun _ => ?_, fun hyields => ?_⟩
    · refine .bind (.read k) ?_
      rw [if_neg hopen]
      exact .pure _ _
    · cases hyields

/-! ## Processes and the scheduler -/

theorem freeDataPages_calm (depth : Nat) (p : Addr) (rounds i : Nat) (hfree : k.MemoryFree) :
    CalmStep (freeDataPagesCall (callsAt (depth + 1)) p rounds i) k ⟨⟩
      (freeDataPagesFrom p rounds i k) := by
  induction rounds generalizing k i with
  | zero => exact .pure _ _
  | succ rounds ih =>
      unfold freeDataPagesCall freeDataPagesFrom
      refine .read ?_
      rintro k₁ ⟨superlock, rfl⟩
      by_cases hleft : 0 < (k.processes p).nDataPage
      · rw [if_pos hleft, if_pos hleft]
        by_cases hpage : (k.processes p).dataPage i ≠ null
        · rw [if_pos hpage, if_pos hpage]
          obtain ⟨_, hstore⟩ := storePage_calm depth hfree ((k.processes p).dataPage i)
          exact .bind hstore (.bind (CalmStep.write fun _ => rfl) (ih (i + 1) hfree))
        · rw [if_neg hpage, if_neg hpage]
          exact ih (i + 1) hfree
      · rw [if_neg hleft, if_neg hleft]
        exact .pure _ _

/-- What `destroy_process` takes besides the table's mutex is free, and no mutex
is two of them. -/
structure ReapReady (k : Kernel) : Prop where
  memory : k.MemoryFree
  stack : k.MutexFree k.stackMemoryMutexKey
  table : k.MutexFree k.tableMutexKey
  apart : k.mutexIsOpen k.tableMutexKey → k.tableMutexKey ≠ k.memoryMutexKey

/-- A mutex is free or not by its own structure and the queues. -/
theorem MutexFree.congr (hfree : k.MutexFree key) (hm : k'.openMutexes key = k.openMutexes key)
    (hq : k'.queues = k.queues) : k'.MutexFree key := by
  unfold MutexFree mutexIsOpen isEmpty at *
  rw [hm, hq]
  exact hfree

/-- The mutex of the allocator stays free while the table is locked. -/
theorem ReapReady.memory_locked (h : k.ReapReady) :
    (k.setWord k.tableMutexKey .locked).MemoryFree := by
  by_cases hopen : k.mutexIsOpen k.tableMutexKey
  · obtain ⟨mutexes, he, hsame⟩ := setWord_eq k k.tableMutexKey .locked
    rw [he]
    exact MutexFree.congr h.memory ((hsame _).2.2 (Ne.symm (h.apart hopen))) rfl
  · rw [setWord, if_neg hopen]
    exact h.memory

/-- Freeing the data pages writes the free pages and the process, and does not
look at the mutexes. -/
theorem freeDataPagesFrom_eq (k : Kernel) (p : Addr) (rounds i : Nat) :
    ∃ pages processes, ∀ nProcesses openMutexes,
      freeDataPagesFrom p rounds i { k with nProcesses, openMutexes } =
        { k with nProcesses, openMutexes, pages, processes } := by
  induction rounds generalizing k i with
  | zero => exact ⟨k.pages, k.processes, fun _ _ => rfl⟩
  | succ rounds ih =>
      unfold freeDataPagesFrom
      by_cases hleft : 0 < (k.processes p).nDataPage
      · by_cases hpage : (k.processes p).dataPage i ≠ null
        · obtain ⟨pages, processes, h⟩ := ih ((k.storePage ((k.processes p).dataPage i)).writeProcess
            p fun c => { c with nDataPage := c.nDataPage - 1 }) (i + 1)
          refine ⟨pages, processes, fun nProcesses openMutexes => ?_⟩
          rw [if_pos hleft, if_pos hpage]
          exact h nProcesses openMutexes
        · obtain ⟨pages, processes, h⟩ := ih k (i + 1)
          refine ⟨pages, processes, fun nProcesses openMutexes => ?_⟩
          rw [if_pos hleft, if_neg hpage]
          exact h nProcesses openMutexes
      · refine ⟨k.pages, k.processes, fun nProcesses openMutexes => ?_⟩
        rw [if_neg hleft]

/-- How `destroy_process` hands the foreground on. -/
theorem handForeground_eq (k : Kernel) (p : Addr) :
    ∃ foreground processes, ∀ superlock openMutexes,
      (if k.foreground = p then
          setForegroundProcess { k with superlock, openMutexes }
            (k.processTable (k.processes p).ppid)
        else { k with superlock, openMutexes }) =
        { k with superlock, openMutexes, foreground, processes } := by
  by_cases hfg : k.foreground = p
  · by_cases hcur : k.foreground = k.getCurrentProcess
    · by_cases hpid : k.processTable (k.processes p).ppid ≠ null ∧
          (k.processes (k.processTable (k.processes p).ppid)).pid ≠ 0
      · refine ⟨k.processTable (k.processes p).ppid,
          Procs.unblockForegroundProcess k.processes (k.processTable (k.processes p).ppid),
          fun superlock openMutexes => ?_⟩
        rw [if_pos hfg, setForegroundProcess, if_pos (by exact hcur), setForegroundForceProcess,
          if_pos (by exact hpid)]
      · refine ⟨k.foreground, k.processes, fun superlock openMutexes => ?_⟩
        rw [if_pos hfg, setForegroundProcess, if_pos (by exact hcur), setForegroundForceProcess,
          if_neg (by exact hpid)]
    · refine ⟨k.foreground, k.processes, fun superlock openMutexes => ?_⟩
      rw [if_pos hfg, setForegroundProcess, if_neg (by exact hcur)]
  · refine ⟨k.foreground, k.processes, fun superlock openMutexes => ?_⟩
    rw [if_neg hfg]

/-- What `destroy_process` writes, with the kernel before it gives the stack page
back.  It does not look at the mutexes until then. -/
theorem destroyProcess_parts (k : Kernel) {p : Addr} (hp : p ≠ null) {n : Nat}
    (hn : n = (k.nProcesses + 2 ^ 64 - 1) % 2 ^ 64) :
    ∃ pages procs foreground processes,
      (∀ openMutexes, freeDataPagesFrom p maxDataPages 0 { k with nProcesses := n, openMutexes } =
        { k with nProcesses := n, openMutexes, pages, processes := procs }) ∧
      (∀ superlock openMutexes,
        (if k.foreground = p then
            setForegroundProcess
              { k with nProcesses := n, superlock, openMutexes, pages, processes := procs }
              (k.processTable (procs p).ppid)
          else { k with nProcesses := n, superlock, openMutexes, pages, processes := procs }) =
          { k with nProcesses := n, superlock, openMutexes, pages, foreground, processes }) ∧
      k.destroyProcess p = (storeStackPage { k with
        nProcesses := n, pages, foreground, processes
        processTable := update k.processTable (processes p).pid null }
          (processes p).stackPage).storePage p := by
  obtain ⟨pages, procs, hdata⟩ := freeDataPagesFrom_eq k p maxDataPages 0
  obtain ⟨foreground, processes, hfg⟩ :=
    handForeground_eq { k with nProcesses := n, pages, processes := procs } p
  refine ⟨pages, procs, foreground, processes, hdata n, hfg, ?_⟩
  have hfg' := hfg k.superlock k.openMutexes
  have hdata' := hdata n k.openMutexes
  unfold destroyProcess freeDataPages
  rw [if_pos hp, ← hn]
  simp only
  rw [hdata']
  exact congrArg (fun k : Kernel => (storeStackPage { k with
    processTable := update k.processTable (k.processes p).pid null }
      (k.processes p).stackPage).storePage p) hfg'

/-- `destroy_process` while the mutexes it takes are free. -/
theorem destroyProcess_calm (depth : Nat) (p : Addr) (hready : k.ReapReady) :
    CalmStep (destroyProcessCall (callsAt (depth + 1)) p) k ⟨⟩ (k.destroyProcess p) := by
  unfold destroyProcessCall
  by_cases hp : p ≠ null
  · rw [if_pos hp]
    obtain ⟨_, hlock⟩ := mutexLock_notTaken depth (MutexFree.notTaken hready.table)
    have hmemory := hready.memory_locked
    obtain ⟨mutexes, he, -⟩ := setWord_eq k k.tableMutexKey .locked
    obtain ⟨n, hn⟩ : ∃ n, n = (k.nProcesses + 2 ^ 64 - 1) % 2 ^ 64 := ⟨_, rfl⟩
    obtain ⟨pages, procs, foreground, processes, hdata, hfg, hdestroy⟩ :=
      destroyProcess_parts k hp hn
    obtain ⟨_, hunlock⟩ := mutexUnlock_restores depth k
      { k with
        nProcesses := n, pages, foreground, processes, openMutexes := mutexes
        processTable := update k.processTable (processes p).pid null }
      _ hready.table (by rw [he]) rfl
    rw [he] at hlock hmemory
    have hcount : CalmStep
        (act .write fun k => { k with nProcesses := (k.nProcesses + 2 ^ 64 - 1) % 2 ^ 64 })
        { k with openMutexes := mutexes } ⟨⟩ { k with openMutexes := mutexes, nProcesses := n } := by
      rw [hn]
      exact CalmStep.write fun _ => rfl
    have hmemory' : MemoryFree { k with openMutexes := mutexes, nProcesses := n } :=
      hmemory.congr rfl rfl rfl
    have hfree := freeDataPages_calm depth p maxDataPages 0 hmemory'
    rw [hdata] at hfree
    have hhand : CalmStep
        (act .write fun k =>
          if k.foreground = p then k.setForegroundProcess (k.processTable (k.processes p).ppid)
          else k)
        { k with openMutexes := mutexes, nProcesses := n, pages, processes := procs } ⟨⟩
        { k with openMutexes := mutexes, nProcesses := n, pages, processes, foreground } := by
      refine .act ?_
      rintro k₁ ⟨superlock, rfl⟩
      exact ⟨⟨superlock, hfg superlock mutexes⟩, trivial⟩
    have hstack : MutexFree { k with
        nProcesses := n, pages, foreground, processes
        processTable := update k.processTable (processes p).pid null } k.stackMemoryMutexKey :=
      hready.stack.congr rfl rfl
    obtain ⟨_, hstack⟩ := storeStackPage_calm depth hstack (processes p).stackPage
    have hmemory'' : MemoryFree (storeStackPage { k with
        nProcesses := n, pages, foreground, processes
        processTable := update k.processTable (processes p).pid null } (processes p).stackPage) :=
      hready.memory.congr rfl rfl rfl
    obtain ⟨_, hstore⟩ := storePage_calm depth hmemory'' p
    rw [hdestroy]
    refine .read ?_
    rintro k₁ ⟨superlock, rfl⟩
    refine .bind hlock (.bind hcount (.bind hfree (.bind hhand (.bind (CalmStep.write fun _ => rfl)
      (.read ?_)))))
    rintro k₂ ⟨superlock', rfl⟩
    refine .bind hunlock (.read ?_)
    rintro k₃ ⟨superlock'', rfl⟩
    exact .bind hstack (.bind hstore (.pure _ _))
  · rw [if_neg hp, destroyProcess, if_neg hp]
    exact .pure _ _

theorem ReapReady.congr (hready : k.ReapReady) (hm : k'.openMutexes = k.openMutexes)
    (hq : k'.queues = k.queues) (hmemory : k'.memoryMutexKey = k.memoryMutexKey)
    (hstack : k'.stackMemoryMutexKey = k.stackMemoryMutexKey)
    (htable : k'.tableMutexKey = k.tableMutexKey) : k'.ReapReady := by
  refine ⟨hready.memory.congr hmemory hm hq, ?_, ?_, ?_⟩
  · rw [hstack]
    exact hready.stack.congr (congrFun hm _) hq
  · rw [htable]
    exact hready.table.congr (congrFun hm _) hq
  · unfold mutexIsOpen
    rw [hm, htable, hmemory]
    exact hready.apart

/-- `destroy_process` leaves the mutexes as they are. -/
theorem ReapReady.destroyProcess (hready : k.ReapReady) (p : Addr) :
    (k.destroyProcess p).ReapReady := by
  by_cases hp : p = null
  · rw [Kernel.destroyProcess, if_neg fun hne => hne hp]
    exact hready
  · obtain ⟨n, hn⟩ : ∃ n, n = (k.nProcesses + 2 ^ 64 - 1) % 2 ^ 64 := ⟨_, rfl⟩
    obtain ⟨pages, procs, foreground, processes, -, -, hdestroy⟩ := destroyProcess_parts k hp hn
    rw [hdestroy]
    exact hready.congr rfl rfl rfl rfl rfl

/-- The walk of `set_next_current` meets a process to destroy before it meets one
to dispatch. -/
def WalkReaps (k : Kernel) : Prop :=
  ∃ l a, Walk k.next k.current l a ∧ (∀ x ∈ l, k.processes.isBlockedProcess (k.procOf x)) ∧
    k.Doomed a

/-- A process that is marked for deletion is not blocked. -/
theorem not_blocked_of_delete {procs : Procs} (h : procs.isDeleteProcess p) :
    ¬procs.isBlockedProcess p := by
  intro hblocked
  rcases hblocked h.1 with hst | hst | hst <;> rw [h.2] at hst <;> cases hst

/-- `set_next_current` as one step, if it finds the mutexes free or has nothing to
destroy. -/
theorem setNextCurrent_calm (depth fuel : Nat) {ps : List Addr}
    (hready : k.ReapReady ∨ ¬k.WalkReaps) (h : k.setNextCurrent fuel = some (ps, k')) :
    CalmStep (setNextCurrentCall (callsAt (depth + 1)) fuel) k ps k' := by
  induction fuel generalizing k ps with
  | zero => cases h
  | succ fuel ih =>
      unfold setNextCurrent at h
      unfold setNextCurrentCall
      refine .read ?_
      rintro k₁ ⟨superlock, rfl⟩
      simp only at h ⊢
      by_cases hstop : k.processes.isBlockedProcess (k.procOf k.current) ∨
          k.processes.isDeleteProcess (k.procOf k.current)
      · rw [if_pos hstop] at h
        rw [if_pos (by exact hstop)]
        by_cases hdel : k.processes.isDeleteProcess (k.procOf k.current)
        · rw [if_pos hdel] at h
          rw [if_pos (by exact hdel)]
          have hready := hready.resolve_right fun hreaps =>
            hreaps ⟨[], k.current, rfl, (fun _ hx => nomatch hx), hdel⟩
          obtain ⟨⟨ps', k₂⟩, hrest, he⟩ := Option.map_eq_some_iff.mp h
          cases he
          have hlinked : (k.link k.prev (k.next k.current)).ReapReady :=
            hready.congr rfl rfl rfl rfl rfl
          have hdestroyed := hlinked.destroyProcess (k.procOf k.current)
          refine .bind (CalmStep.write fun _ => rfl)
            (.bind (destroyProcess_calm depth _ hlinked) (.read ?_))
          rintro k₃ ⟨superlock', rfl⟩
          obtain ⟨_, hstore⟩ := storePage_calm depth hdestroyed.memory
            ((k.link k.prev (k.next k.current)).destroyProcess (k.procOf k.current)).current
          refine .bind hstore (.bind (CalmStep.write fun _ => rfl) (.bind (ih ?_ hrest) (.pure _ _)))
          exact .inl (hdestroyed.congr rfl rfl rfl rfl rfl)
        · rw [if_neg hdel] at h
          rw [if_neg (by exact hdel)]
          have hblocked := hstop.resolve_right hdel
          refine .bind (CalmStep.write fun _ => rfl) (ih ?_ h)
          rcases hready with hready | hreaps
          · exact .inl (hready.congr rfl rfl rfl rfl rfl)
          · refine .inr fun ⟨l, a, hwalk, hl, hdoomed⟩ => hreaps ⟨k.current :: l, a, ⟨rfl, hwalk⟩, ?_, hdoomed⟩
            intro x hx
            rcases List.mem_cons.mp hx with rfl | hx
            · exact hblocked
            · exact hl x hx
      · rw [if_neg hstop] at h
        rw [if_neg (by exact hstop)]
        cases h
        exact .pure _ _

/-- `next_process` gets past its three tests. -/
def Preempts (k : Kernel) : Prop :=
  k.current ≠ null ∧ ¬0 < (k.unassignQuantum.nodes k.current).quantum ∧ k.superlock = .unlocked

/-- `next_process` destroys a process. -/
def Reaps (k : Kernel) : Prop :=
  k.Preempts ∧ WalkReaps { k with current := k.next k.current }

/-- The kernel with the quantum of the running process used up and renewed. -/
def renewQuantum (k : Kernel) : Kernel :=
  writeNode { k.unassignQuantum with superlock := .locked } k.current fun n =>
    { n with quantum := quantum }

theorem next_renewQuantum (k : Kernel) : k.renewQuantum.next = k.next := by
  refine (next_writeQuantum _ _ fun _ => quantum).trans ?_
  exact k.next_unassignQuantum

theorem procOf_renewQuantum (k : Kernel) : k.renewQuantum.procOf = k.procOf := by
  refine (procOf_writeQuantum _ _ fun _ => quantum).trans ?_
  exact k.procOf_unassignQuantum

/-- A write of the stack pointer of a process. -/
theorem setRspProcess_eq (k : Kernel) (p : Addr) (rsp : Nat) :
    ∃ processes, (∀ superlock, setRspProcess { k with superlock } p rsp =
      { k with superlock, processes }) ∧ ∀ q, (processes q).st = (k.processes q).st := by
  by_cases hp : p ≠ null
  · refine ⟨update k.processes p { k.processes p with rsp }, fun superlock => ?_, fun q => ?_⟩
    · rw [setRspProcess, if_pos hp]
      rfl
    · by_cases hq : q = p
      · subst hq
        rw [update_self]
      · rw [update_of_ne hq]
  · refine ⟨k.processes, fun superlock => ?_, fun q => rfl⟩
    rw [setRspProcess, if_neg hp]

/-- The state in which `next_process` starts its walk. -/
def walkStart (k : Kernel) (currentRsp : Nat) : Kernel :=
  let k := k.renewQuantum.setRspProcess (k.renewQuantum.procOf k.current) currentRsp
  { k with prev := k.current, current := k.next k.current }

/-- The walk starts behind the running process, with its status and links as before. -/
theorem walkStart_eq (k : Kernel) (currentRsp : Nat) :
    ∃ processes, k.walkStart currentRsp =
        { k.renewQuantum with processes, prev := k.current, current := k.next k.current } ∧
      ∀ q, (processes q).st = (k.processes q).st := by
  obtain ⟨processes, he, hst⟩ :=
    setRspProcess_eq k.renewQuantum (k.renewQuantum.procOf k.current) currentRsp
  refine ⟨processes, ?_, hst⟩
  have he' : k.renewQuantum.setRspProcess (k.renewQuantum.procOf k.current) currentRsp =
      { k.renewQuantum with processes } := he k.renewQuantum.superlock
  rw [walkStart, he']
  have hnext : next { k.renewQuantum with processes } = k.next := next_renewQuantum k
  rw [hnext]
  rfl

/-- The walk reaps only if `next_process` does. -/
theorem walkReaps_walkStart (k : Kernel) (currentRsp : Nat) :
    (k.walkStart currentRsp).WalkReaps ↔ WalkReaps { k with current := k.next k.current } := by
  obtain ⟨processes, he, hst⟩ := k.walkStart_eq currentRsp
  rw [he]
  unfold WalkReaps Doomed Procs.isDeleteProcess Procs.isBlockedProcess
  simp only [hst]
  have hnext : next { k.renewQuantum with
      processes, prev := k.current, current := k.next k.current } = k.next := next_renewQuantum k
  have hproc : procOf { k.renewQuantum with
      processes, prev := k.current, current := k.next k.current } = k.procOf :=
    procOf_renewQuantum k
  rw [hnext, hproc]
  rfl

/-- `next_process` as one step, if it finds the mutexes free or has nothing to
destroy. -/
theorem nextProcess_calm (depth fuel : Nat) {currentRsp : Nat} {d : Dispatch}
    (hready : k.ReapReady ∨ ¬k.Reaps) (h : k.nextProcess fuel currentRsp = some d) :
    Returns calm (nextProcessCall (callsAt (depth + 1)) fuel currentRsp) k
      (d.rsp, d.switched, d.destroyed) d.k := by
  unfold nextProcess at h
  unfold nextProcessCall
  refine .bind (.read k) ?_
  by_cases hnull : k.current = null
  · rw [if_pos hnull] at h ⊢
    cases h
    exact .pure _ _
  · rw [if_neg hnull] at h ⊢
    refine .bind (.act trivial) (.bind (.read _) ?_)
    simp only at h
    by_cases hquantum : 0 < (k.unassignQuantum.nodes k.unassignQuantum.current).quantum
    · rw [if_pos hquantum] at h ⊢
      cases h
      exact .pure _ _
    · rw [if_neg hquantum] at h ⊢
      refine .bind (.act trivial) ?_
      by_cases hlock : k.unassignQuantum.superlock = .locked
      · rw [if_pos hlock] at h ⊢
        cases h
        have hsame : { k.unassignQuantum with superlock := .locked } = k.unassignQuantum := by
          rw [← hlock]
        rw [hsame]
        exact .pure _ _
      · rw [if_neg hlock] at h ⊢
        obtain ⟨⟨ps, k₂⟩, hwalk, he⟩ := Option.map_eq_some_iff.mp h
        cases he
        have hwalk' : (k.walkStart currentRsp).setNextCurrent fuel = some (ps, k₂) := hwalk
        have hstart : (k.walkStart currentRsp).ReapReady ∨ ¬(k.walkStart currentRsp).WalkReaps := by
          rcases hready with hready | hreaps
          · obtain ⟨processes, he, -⟩ := k.walkStart_eq currentRsp
            rw [he]
            exact .inl (hready.congr rfl rfl rfl rfl rfl)
          · refine .inr fun hwalkReaps => hreaps ⟨⟨hnull, hquantum, ?_⟩, ?_⟩
            · cases hsuper : k.superlock with
              | locked => exact absurd hsuper hlock
              | unlocked => rfl
            · exact (k.walkReaps_walkStart currentRsp).mp hwalkReaps
        obtain ⟨k₃, ⟨superlock, rfl⟩, hreturns⟩ :=
          setNextCurrent_calm depth fuel hstart hwalk' (k.walkStart currentRsp) ⟨_, rfl⟩
        exact .bind (.act trivial) (.bind (.act trivial) (.bind (.act trivial)
          (.bind hreturns (.bind (.act trivial) (.bind (.read _) (.pure _ _))))))

end Kernel

end TPE
