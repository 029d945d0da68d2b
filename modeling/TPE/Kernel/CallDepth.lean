import TPE.Kernel.CalmCalls
import TPE.Kernel.CallRuns

/-!
# How deep the calls go

`mutex_lock` of a taken mutex calls `get_page`, and `get_page` locks the mutex
of the allocator.  If that one is taken as well, its `mutex_lock` calls
`get_page` again, and so on: every level finds the mutex taken, and none gets to
its `block_process`.  `mutex_unlock` gets there through `store_page`.

The calls come to an end exactly if they need no page, or if the allocator's
mutex is free for the one they need.
-/

namespace TPE

open Function

namespace Kernel

open Call

variable {k k' : Kernel} {key : Int} {q p page : Addr}

/-! ## Calls without an end -/

/-- The superlock is set. -/
abbrev held (_ : CallStep) (k : Kernel) : Prop := k.superlock = .locked

/-- The mutex of the allocator is taken, and a process that finds it taken needs
a page. -/
structure MemoryTaken (k : Kernel) : Prop where
  opened : k.mutexIsOpen k.memoryMutexKey
  taken : (k.openMutexes k.memoryMutexKey).locked = .locked
  header : (k.openMutexes k.memoryMutexKey).processQueue ≠ null

theorem MemoryTaken.setSuperlock (h : k.MemoryTaken) (superlock : Lock) :
    MemoryTaken { k with superlock } := ⟨h.opened, h.taken, h.header⟩

/-- The word of a taken mutex is written as it is. -/
theorem writeMutex_taken (htaken : (k.openMutexes key).locked = .locked) :
    (writeMutex { k with superlock := .locked } key fun m => { m with locked := .locked }) =
      { k with superlock := .locked } :=
  writeMutex_eq_self (by exact htaken)

/-- A lock of a taken mutex is cut in `get_page`. -/
theorem lockSection_cut {c : MutexCalls} {P : CallStep → Kernel → Prop}
    (hP : ∀ e k, held e k → P e k) (htaken : (k.openMutexes key).locked = .locked)
    (hq : (k.openMutexes key).processQueue ≠ null)
    (hget : Cuts P (getPageCall c) { k with superlock := .locked }) :
    Cuts P (lockSection c key) { k with superlock := .locked } := by
  refine .right (.read _) (.right (.act ?_) ?_)
  · rw [writeMutex_taken htaken]
    exact hP _ _ rfl
  · rw [writeMutex_taken htaken, if_pos (by exact htaken)]
    refine .right (.act (hP _ _ rfl)) (.left ?_)
    unfold enqueueCall
    rw [if_neg (by exact hq)]
    exact .left hget

theorem mutexLock_cut {c : MutexCalls} {P : CallStep → Kernel → Prop}
    (hP : ∀ e k, held e k → P e k) (hopen : k.mutexIsOpen key)
    (htaken : (k.openMutexes key).locked = .locked)
    (hq : (k.openMutexes key).processQueue ≠ null)
    (hget : Cuts P (getPageCall c) { k with superlock := .locked }) :
    Cuts P (mutexLockBody c key) k := by
  refine .right (.read k) ?_
  rw [if_pos hopen]
  exact .right (.act (hP _ _ rfl)) (.left (lockSection_cut hP htaken hq hget))

/-- While the allocator's mutex is taken, a lock of it is cut for every bound. -/
theorem MemoryTaken.mutexLock (h : k.MemoryTaken) (depth : Nat) :
    Cuts held ((callsAt depth).mutexLock k.memoryMutexKey) k := by
  induction depth generalizing k with
  | zero => exact .cut k
  | succ depth ih =>
      apply mutexLock_cut (fun _ _ hheld => hheld) h.opened h.taken h.header
      exact .right (.read _) (.left (ih (h.setSuperlock .locked)))

theorem MemoryTaken.getPage (h : k.MemoryTaken) (depth : Nat) :
    Cuts held (getPageCall (callsAt depth)) k :=
  .right (.read k) (.left (h.mutexLock depth))

theorem MemoryTaken.storePage (h : k.MemoryTaken) (depth : Nat) (address : Addr) :
    Cuts held (storePageCall (callsAt depth) address) k :=
  .right (.read k) (.left (h.mutexLock depth))

/-- An unlock with somebody in the queue is cut in `store_page`. -/
theorem unlockSection_cut {c : MutexCalls} {P : CallStep → Kernel → Prop}
    (hP : ∀ e k, held e k → P e k) (hsome : ¬k.isEmpty (k.openMutexes key).processQueue)
    (hstore : ∀ page, Cuts P (storePageCall c page)
      (setQueue { k with superlock := .locked } (k.openMutexes key).processQueue
        (k.queues (k.openMutexes key).processQueue).tail)) :
    Cuts P (unlockSection c key) { k with superlock := .locked } := by
  have hdequeue : Cuts P (dequeueCall c (k.openMutexes key).processQueue)
      { k with superlock := .locked } := by
    refine .right (.read _) ?_
    rw [if_neg (by exact hsome)]
    cases hq : k.queues (k.openMutexes key).processQueue with
    | nil => exact absurd (Or.inr hq) hsome
    | cons f rest =>
        rw [hq] at hstore
        simp only
        exact .right (.act (hP _ _ rfl)) (.left (hstore f.page))
  exact .right (.read _) (.left (.left hdequeue))

theorem mutexUnlock_cut {c : MutexCalls} (hopen : k.mutexIsOpen key)
    (hsome : ¬k.isEmpty (k.openMutexes key).processQueue)
    (hstore : ∀ page, Cuts anyhow (storePageCall c page)
      (setQueue { k with superlock := .locked } (k.openMutexes key).processQueue
        (k.queues (k.openMutexes key).processQueue).tail)) :
    Cuts anyhow (mutexUnlockBody c key) k := by
  refine .right (.read k) ?_
  rw [if_pos hopen]
  exact .right (.act trivial)
    (.left (unlockSection_cut (fun _ _ _ => trivial) hsome hstore))

theorem memoryTaken_setWord (hopen : k.mutexIsOpen k.memoryMutexKey)
    (hheader : (k.openMutexes k.memoryMutexKey).processQueue ≠ null) :
    (k.setWord k.memoryMutexKey .locked).MemoryTaken := by
  rw [setWord, if_pos hopen]
  refine ⟨⟨hopen.1, hopen.2.1, ?_⟩, ?_, ?_⟩
  · simp only [writeMutex, update_self]
    exact hopen.2.2
  · simp only [writeMutex, update_self]
  · simp only [writeMutex, update_self]
    exact hheader

/-- With somebody in the queue of the allocator's mutex, its holder does not get
out of `mutex_unlock`. -/
theorem MemoryTaken.mutexUnlock (h : k.MemoryTaken)
    (hsome : k.queues (k.openMutexes k.memoryMutexKey).processQueue ≠ []) (depth : Nat) :
    Cuts anyhow ((callsAt depth).mutexUnlock k.memoryMutexKey) k := by
  cases depth with
  | zero => exact .cut k
  | succ depth =>
      refine mutexUnlock_cut h.opened (fun hempty => ?_) fun page => ?_
      · rcases hempty with hnull | hnil
        · exact h.header hnull
        · exact hsome hnil
      · have htaken : MemoryTaken (setQueue { k with superlock := .locked }
            (k.openMutexes k.memoryMutexKey).processQueue
            (k.queues (k.openMutexes k.memoryMutexKey).processQueue).tail) :=
          ⟨h.opened, h.taken, h.header⟩
        exact (htaken.storePage depth page).mono fun _ _ _ => trivial

/-- The allocator's mutex is open and does not let a call through. -/
structure MemoryBusy (k : Kernel) : Prop where
  opened : k.mutexIsOpen k.memoryMutexKey
  header : (k.openMutexes k.memoryMutexKey).processQueue ≠ null
  busy : ¬k.MemoryFree

theorem MemoryBusy.taken_or (h : k.MemoryBusy) :
    k.MemoryTaken ∨ (k.openMutexes k.memoryMutexKey).locked = .unlocked ∧
      k.queues (k.openMutexes k.memoryMutexKey).processQueue ≠ [] := by
  cases hword : (k.openMutexes k.memoryMutexKey).locked with
  | locked => exact .inl ⟨h.opened, hword, h.header⟩
  | unlocked => exact .inr ⟨rfl, fun hnil => h.busy (Or.inr ⟨hword, Or.inr hnil⟩)⟩

/-- Behind a lock of the allocator's mutex that was not taken. -/
theorem cut_behind_lock {α : Type} (depth : Nat) {f : Int → KernelCall α}
    (hopen : k.mutexIsOpen k.memoryMutexKey)
    (hheader : (k.openMutexes k.memoryMutexKey).processQueue ≠ null)
    (hfree : (k.openMutexes k.memoryMutexKey).locked = .unlocked)
    (h : ∀ r superlock openMutexes, MemoryTaken { k with superlock, openMutexes } →
      (openMutexes k.memoryMutexKey).processQueue =
        (k.openMutexes k.memoryMutexKey).processQueue →
      Cuts anyhow (f r) { k with superlock, openMutexes }) :
    Cuts anyhow ((callsAt depth).mutexLock k.memoryMutexKey >>= f) k := by
  cases depth with
  | zero => exact .left (.cut k)
  | succ depth =>
      obtain ⟨r, hlock⟩ := mutexLock_notTaken depth fun _ => hfree
      obtain ⟨mutexes, he, hsame⟩ := setWord_eq k k.memoryMutexKey .locked
      have htaken := memoryTaken_setWord hopen hheader
      rw [he] at hlock htaken
      obtain ⟨_, ⟨superlock, rfl⟩, hreturns⟩ := hlock k ⟨k.superlock, rfl⟩
      exact .right (hreturns.mono fun _ _ _ => trivial)
        (h r superlock mutexes (htaken.setSuperlock superlock) (hsame _).1)

theorem MemoryBusy.storePage (h : k.MemoryBusy) (depth : Nat) (address : Addr) :
    Cuts anyhow (storePageCall (callsAt depth) address) k := by
  rcases h.taken_or with htaken | ⟨hfree, hsome⟩
  · exact (htaken.storePage depth address).mono fun _ _ _ => trivial
  · refine .right (.read k) (cut_behind_lock depth h.opened h.header hfree ?_)
    intro r superlock openMutexes htaken hqueue
    refine .right (.read _) (.right (.act trivial) (.left ?_))
    have hstored : MemoryTaken (Kernel.storePage { k with superlock, openMutexes } address) :=
      ⟨htaken.opened, htaken.taken, htaken.header⟩
    apply hstored.mutexUnlock
    show k.queues (openMutexes k.memoryMutexKey).processQueue ≠ []
    rw [hqueue]
    exact hsome

theorem getPage_cut (hopen : k.mutexIsOpen k.memoryMutexKey)
    (hheader : (k.openMutexes k.memoryMutexKey).processQueue ≠ null)
    (hbusy : ¬k.MemoryFree ∨ k.pages.getPage = none) (depth : Nat) :
    Cuts anyhow (getPageCall (callsAt depth)) k := by
  cases hword : (k.openMutexes k.memoryMutexKey).locked with
  | locked =>
      exact (MemoryTaken.getPage ⟨hopen, hword, hheader⟩ depth).mono fun _ _ _ => trivial
  | unlocked =>
      refine .right (.read k) (cut_behind_lock depth hopen hheader hword ?_)
      intro r superlock openMutexes htaken hqueue
      refine .right (.read _) ?_
      cases hget : k.pages.getPage with
      | none =>
          simp only
          exact .left ((htaken.mutexLock depth).mono fun _ _ _ => trivial)
      | some found =>
          obtain ⟨page, pages⟩ := found
          simp only
          have hgot : MemoryTaken { k with superlock, openMutexes, pages } :=
            ⟨htaken.opened, htaken.taken, htaken.header⟩
          refine .right (.act trivial) (.left (hgot.mutexUnlock ?_ depth))
          show k.queues (openMutexes k.memoryMutexKey).processQueue ≠ []
          rw [hqueue]
          intro hnil
          rcases hbusy with hbusy | hnone
          · exact hbusy (Or.inr ⟨hword, Or.inr hnil⟩)
          · rw [hget] at hnone
            cases hnone

/-! ## Calls with an end -/

/-- The calls inside `mutex_lock` come to an end. -/
def LockEnds (k : Kernel) (key : Int) : Prop :=
  (k.openMutexes key).locked = .unlocked ∨ (k.openMutexes key).processQueue = null ∨
    (k.openMutexes k.memoryMutexKey).processQueue = null ∨
    k.MemoryFree ∧ k.pages.getPage ≠ none

instance (k : Kernel) (key : Int) : Decidable (k.LockEnds key) :=
  inferInstanceAs (Decidable (_ ∨ _ ∨ _ ∨ _ ∧ _))

/-- The calls inside `mutex_unlock` come to an end. -/
def UnlockEnds (k : Kernel) (key : Int) : Prop :=
  k.isEmpty (k.openMutexes key).processQueue ∨
    (k.openMutexes k.memoryMutexKey).processQueue = null ∨
    (k.setQueue (k.openMutexes key).processQueue
      (k.queues (k.openMutexes key).processQueue).tail).MemoryFree

theorem mutexLock_some (hopen : k.mutexIsOpen key)
    (h : (k.openMutexes key).locked = .unlocked ∨ (k.openMutexes key).processQueue = null ∨
      k.MemoryFree ∧ k.pages.getPage ≠ none) : ∃ r, k.mutexLock key = some r := by
  unfold mutexLock
  rw [if_pos hopen]
  simp only
  by_cases htaken : (k.openMutexes key).locked = .locked
  · rw [if_pos htaken, writeMutex_eq_self (by exact htaken)]
    rcases h with hfree | hnull | ⟨hfree, hpage⟩
    · rw [hfree] at htaken
      cases htaken
    · rw [enqueue, if_pos hnull]
      exact ⟨_, rfl⟩
    · unfold enqueue
      split
      · exact ⟨_, rfl⟩
      · rw [if_pos (by exact hfree), getPage]
        cases hget : k.pages.getPage with
        | none => exact absurd hget hpage
        | some found =>
            exact ⟨_, rfl⟩
  · rw [if_neg htaken]
    exact ⟨_, rfl⟩

theorem mutexLock_terminates {r : LockResult} (h : k.mutexLock key = some r) :
    Terminates (fun depth => (callsAt depth).mutexLock key) k := by
  obtain ⟨hreturns, hparks⟩ := mutexLock_calm 0 h
  cases hyields : r.yields with
  | false => exact (hreturns hyields).terminates (c := fun depth => (callsAt depth).mutexLock key) 2
  | true => exact (hparks hyields).terminates (c := fun depth => (callsAt depth).mutexLock key) 2

/-- A lock of a taken mutex that has no queue parks. -/
theorem mutexLock_parks (depth : Nat) (hopen : k.mutexIsOpen key)
    (htaken : (k.openMutexes key).locked = .locked)
    (hnull : (k.openMutexes key).processQueue = null) :
    ∃ k', Parks anyhow ((callsAt (depth + 2)).mutexLock key) k k' := by
  obtain ⟨r, hr⟩ := mutexLock_some hopen (Or.inr (Or.inl hnull))
  refine ⟨r.k, (mutexLock_calm depth hr).2 ?_⟩
  unfold mutexLock at hr
  rw [if_pos hopen] at hr
  simp only [htaken, if_true] at hr
  obtain ⟨k₁, -, rfl⟩ := Option.map_eq_some_iff.mp hr
  rfl

/-- If the allocator's mutex has no queue, a call that finds it taken parks. -/
theorem getPage_parks (depth : Nat) (hopen : k.mutexIsOpen k.memoryMutexKey)
    (hnull : (k.openMutexes k.memoryMutexKey).processQueue = null)
    (hbusy : ¬(k.MemoryFree ∧ k.pages.getPage ≠ none)) :
    ∃ k', Parks anyhow (getPageCall (callsAt (depth + 2))) k k' := by
  cases hword : (k.openMutexes k.memoryMutexKey).locked with
  | locked =>
      obtain ⟨k', hparks⟩ := mutexLock_parks depth hopen hword hnull
      exact ⟨k', .right (.read k) (.left hparks)⟩
  | unlocked =>
      have hnone : k.pages.getPage = none := by
        by_contra hpage
        exact hbusy ⟨Or.inr ⟨hword, Or.inl hnull⟩, hpage⟩
      obtain ⟨r, hlock⟩ := mutexLock_notTaken (depth + 1) fun _ => hword
      obtain ⟨_, ⟨superlock, rfl⟩, hreturns⟩ := hlock k ⟨k.superlock, rfl⟩
      rw [setWord, if_pos hopen] at hreturns
      -- the mutex was just taken, and `get_page` locks it once more
      have hparks : ∃ k', Parks anyhow ((callsAt (depth + 2)).mutexLock k.memoryMutexKey)
          { k.writeMutex k.memoryMutexKey fun m => { m with locked := .locked } with superlock }
            k' := by
        apply mutexLock_parks
        · refine ⟨hopen.1, hopen.2.1, ?_⟩
          simp only [writeMutex, update_self]
          exact hopen.2.2
        · simp only [writeMutex, update_self]
        · simp only [writeMutex, update_self]
          exact hnull
      obtain ⟨k', hparks⟩ := hparks
      refine ⟨k', .right (.read k) (.right (hreturns.mono fun _ _ _ => trivial)
        (.right (.read _) ?_))⟩
      have hnone' : (k.writeMutex k.memoryMutexKey
          fun m => { m with locked := .locked }).pages.getPage = none := hnone
      simp only [hnone']
      exact .left hparks

/-- A lock of a taken mutex parks where `get_page` does. -/
theorem mutexLock_parks_inside {c : MutexCalls} (hopen : k.mutexIsOpen key)
    (htaken : (k.openMutexes key).locked = .locked)
    (hq : (k.openMutexes key).processQueue ≠ null)
    (hget : Parks anyhow (getPageCall c) { k with superlock := .locked } k') :
    Parks anyhow (mutexLockBody c key) k k' := by
  have hsection : Parks anyhow (lockSection c key) { k with superlock := .locked } k' := by
    refine .right (.read _) (.right (.act trivial) ?_)
    rw [writeMutex_taken htaken, if_pos (by exact htaken)]
    refine .right (.act trivial) (.left ?_)
    unfold enqueueCall
    rw [if_neg (by exact hq)]
    exact .left hget
  refine .right (.read k) ?_
  rw [if_pos hopen]
  exact .right (.act trivial) (.left hsection)

theorem mutexLock_terminates_iff (hmemory : k.mutexIsOpen k.memoryMutexKey)
    (hopen : k.mutexIsOpen key) :
    Terminates (fun depth => (callsAt depth).mutexLock key) k ↔ k.LockEnds key := by
  by_cases hsome : (k.openMutexes key).locked = .unlocked ∨
      (k.openMutexes key).processQueue = null ∨ k.MemoryFree ∧ k.pages.getPage ≠ none
  · obtain ⟨r, hr⟩ := mutexLock_some hopen hsome
    refine iff_of_true (mutexLock_terminates hr) ?_
    rcases hsome with hword | hq | hfree
    · exact .inl hword
    · exact .inr (.inl hq)
    · exact .inr (.inr (.inr hfree))
  · obtain ⟨hword, hsome⟩ := not_or.mp hsome
    obtain ⟨hq, hbusy⟩ := not_or.mp hsome
    have htaken : (k.openMutexes key).locked = .locked := by
      cases he : (k.openMutexes key).locked with
      | locked => rfl
      | unlocked => exact absurd he hword
    by_cases hheader : (k.openMutexes k.memoryMutexKey).processQueue = null
    · refine iff_of_true ?_ (Or.inr (Or.inr (Or.inl hheader)))
      obtain ⟨k', hparks⟩ := getPage_parks 0 (k := { k with superlock := .locked })
        hmemory hheader hbusy
      exact (mutexLock_parks_inside (c := callsAt 2) hopen htaken hq hparks).terminates
        (c := fun depth => (callsAt depth).mutexLock key) 3
    · refine iff_of_false (Cuts.not_terminates (P := anyhow) fun depth => ?_) ?_
      · cases depth with
        | zero => exact .cut k
        | succ depth =>
            apply mutexLock_cut (fun _ _ _ => trivial) hopen htaken hq
            apply getPage_cut (k := { k with superlock := .locked }) hmemory hheader
            by_cases hfree : k.MemoryFree
            · refine .inr ?_
              by_contra hpage
              exact hbusy ⟨hfree, hpage⟩
            · exact .inl hfree
      · rintro (hword' | hq' | hheader' | hfree)
        · exact hword hword'
        · exact hq hq'
        · exact hheader hheader'
        · exact hbusy hfree

theorem dequeueWaiter_null {rounds : Nat} (h : k.dequeue q = some (null, k')) :
    k.dequeueWaiter (rounds + 1) q = some (null, k') := by
  rw [dequeueWaiter, h]
  simp only [Option.bind_some]
  rw [if_neg fun hdel => hdel.1 rfl]

theorem dequeueWaiter_some {nodes : List QueueNode} (hq : k.queues q = nodes)
    (h : k.DequeueReturns q) : ∃ r, k.dequeueWaiter (nodes.length + 1) q = some r := by
  induction nodes generalizing k with
  | nil => exact ⟨_, dequeueWaiter_null (dequeue_nil hq)⟩
  | cons f rest ih =>
      by_cases hnull : q = null
      · exact ⟨_, dequeueWaiter_null (if_pos hnull)⟩
      · have hfree := h.free hnull hq
        rw [List.length_cons, dequeueWaiter, dequeue_of_cons hnull hq, if_pos hfree]
        simp only [Option.bind_some]
        split
        · exact ih (update_self _ _ _) (DequeueReturns.next hfree rfl rfl rfl)
        · exact ⟨_, rfl⟩

/-- An unlock with somebody in the queue parks where `store_page` does. -/
theorem mutexUnlock_parks {c : MutexCalls} (hopen : k.mutexIsOpen key)
    (hsome : ¬k.isEmpty (k.openMutexes key).processQueue)
    (hstore : ∀ page, Parks anyhow (storePageCall c page)
      (setQueue { k with superlock := .locked } (k.openMutexes key).processQueue
        (k.queues (k.openMutexes key).processQueue).tail) k') :
    Parks anyhow (mutexUnlockBody c key) k k' := by
  have hdequeue : Parks anyhow (dequeueCall c (k.openMutexes key).processQueue)
      { k with superlock := .locked } k' := by
    refine .right (.read _) ?_
    rw [if_neg (by exact hsome)]
    cases hq : k.queues (k.openMutexes key).processQueue with
    | nil => exact absurd (Or.inr hq) hsome
    | cons f rest =>
        rw [hq] at hstore
        simp only
        exact .right (.act trivial) (.left (hstore f.page))
  refine .right (.read k) ?_
  rw [if_pos hopen]
  refine .right (.act trivial) (.left (.right (.read _) (.left ?_)))
  exact .left hdequeue

theorem mutexUnlock_terminates_iff (hmemory : k.mutexIsOpen k.memoryMutexKey)
    (hopen : k.mutexIsOpen key) :
    Terminates (fun depth => (callsAt depth).mutexUnlock key) k ↔ k.UnlockEnds key := by
  by_cases hsome : k.isEmpty (k.openMutexes key).processQueue ∨
      (k.setQueue (k.openMutexes key).processQueue
        (k.queues (k.openMutexes key).processQueue).tail).MemoryFree
  · have hends : k.UnlockEnds key := by
      rcases hsome with hempty | hfree
      · exact .inl hempty
      · exact .inr (.inr hfree)
    obtain ⟨⟨p, k₁⟩, hdequeue⟩ := dequeueWaiter_some
      (k := { k with superlock := .locked }) rfl hsome
    have hunlock : ∃ r, k.mutexUnlock key = some r := by
      rw [mutexUnlock, if_pos hopen]
      simp only
      rw [hdequeue]
      exact ⟨_, rfl⟩
    obtain ⟨⟨r, k₂⟩, hr⟩ := hunlock
    exact iff_of_true ((mutexUnlock_calm 0 hr).terminates
      (c := fun depth => (callsAt depth).mutexUnlock key) 2) hends
  · obtain ⟨hempty, hbusy⟩ := not_or.mp hsome
    by_cases hheader : (k.openMutexes k.memoryMutexKey).processQueue = null
    · refine iff_of_true ?_ (Or.inr (Or.inl hheader))
      have htaken : (k.openMutexes k.memoryMutexKey).locked = .locked := by
        cases hword : (k.openMutexes k.memoryMutexKey).locked with
        | locked => rfl
        | unlocked => exact absurd (Or.inr ⟨hword, Or.inl hheader⟩) hbusy
      obtain ⟨k', hparks⟩ := mutexLock_parks 0 (k := setQueue { k with superlock := .locked }
        (k.openMutexes key).processQueue (k.queues (k.openMutexes key).processQueue).tail)
        hmemory htaken hheader
      have hunlock : Parks anyhow (mutexUnlockBody (callsAt 2) key) k k' :=
        mutexUnlock_parks hopen hempty fun page => .right (.read _) (.left hparks)
      exact hunlock.terminates (c := fun depth => (callsAt depth).mutexUnlock key) 3
    · refine iff_of_false (Cuts.not_terminates (P := anyhow) fun depth => ?_) ?_
      · cases depth with
        | zero => exact .cut k
        | succ depth =>
            refine mutexUnlock_cut hopen hempty fun page => ?_
            have hbusy' : MemoryBusy (setQueue { k with superlock := .locked }
                (k.openMutexes key).processQueue
                (k.queues (k.openMutexes key).processQueue).tail) := ⟨hmemory, hheader, hbusy⟩
            exact hbusy'.storePage depth page
      · rintro (hempty' | hheader' | hfree)
        · exact hempty hempty'
        · exact hheader hheader'
        · exact hbusy hfree

/-- The call returns 1 or reaches a yield. -/
def ReturnsOrYields (r : Trace Kernel CallStep Int) : Prop :=
  r.ending = .returned 1 ∨ r.ending = .parked

theorem ReturnsOrYields.not_cut {r : Trace Kernel CallStep Int} (h : ReturnsOrYields r) :
    r.ending ≠ .cut := by
  rcases h with he | he
  · rw [he]
    exact nofun
  · rw [he]
    exact nofun

/-- How a call on an open mutex can end. -/
def EndsOnOpen (e : Ending Int) : Prop := e = .returned 1 ∨ e = .parked ∨ e = .cut

theorem mutexLock_ending {c : MutexCalls} (hopen : k.mutexIsOpen key) :
    EndsOnOpen (mutexLockBody c key k).ending := by
  unfold mutexLockBody
  rw [read_bind, if_pos hopen]
  have parked : EndsOnOpen .parked := .inr (.inl rfl)
  have cut : EndsOnOpen .cut := .inr (.inr rfl)
  refine ending_bind parked cut (fun _ s => ?_) _ _
  refine ending_bind parked cut (fun waits s => ?_) _ _
  refine ending_bind parked cut (fun _ s => ?_) _ _
  cases waits with
  | true => exact .inr (.inl rfl)
  | false => exact .inl rfl

theorem mutexUnlock_ending {c : MutexCalls} (hopen : k.mutexIsOpen key) :
    EndsOnOpen (mutexUnlockBody c key k).ending := by
  unfold mutexUnlockBody
  rw [read_bind, if_pos hopen]
  have parked : EndsOnOpen .parked := .inr (.inl rfl)
  have cut : EndsOnOpen .cut := .inr (.inr rfl)
  refine ending_bind parked cut (fun _ s => ?_) _ _
  refine ending_bind parked cut (fun _ s => ?_) _ _
  exact .inl rfl

/-- A call on an open mutex that is not cut returns 1 or yields. -/
theorem terminates_iff_of_open {c : Nat → KernelCall Int} (hzero : (c 0 k).ending = .cut)
    (hends : ∀ depth, EndsOnOpen (c (depth + 1) k).ending) :
    (∃ depth, ReturnsOrYields (c depth k)) ↔ Terminates c k := by
  constructor
  · rintro ⟨depth, hends⟩
    exact ⟨depth, hends.not_cut⟩
  · rintro ⟨depth, hne⟩
    cases depth with
    | zero => exact absurd hzero hne
    | succ depth =>
        rcases hends depth with he | he | he
        · exact ⟨depth + 1, .inl he⟩
        · exact ⟨depth + 1, .inr he⟩
        · exact absurd he hne

theorem mutexLock_ends_iff (hmemory : k.mutexIsOpen k.memoryMutexKey)
    (hopen : k.mutexIsOpen key) :
    (∃ depth, ReturnsOrYields ((callsAt depth).mutexLock key k)) ↔ k.LockEnds key :=
  (terminates_iff_of_open rfl fun _ => mutexLock_ending hopen).trans
    (mutexLock_terminates_iff hmemory hopen)

theorem mutexUnlock_ends_iff (hmemory : k.mutexIsOpen k.memoryMutexKey)
    (hopen : k.mutexIsOpen key) :
    (∃ depth, ReturnsOrYields ((callsAt depth).mutexUnlock key k)) ↔ k.UnlockEnds key :=
  (terminates_iff_of_open rfl fun _ => mutexUnlock_ending hopen).trans
    (mutexUnlock_terminates_iff hmemory hopen)

/-- A call that ends does the same for every larger bound. -/
theorem mutexLock_stable {depth : Nat}
    (h : ReturnsOrYields ((callsAt depth).mutexLock key k)) (more : Nat) :
    (callsAt (depth + more)).mutexLock key k = (callsAt depth).mutexLock key k :=
  stable_of_extends (c := fun depth => (callsAt depth).mutexLock key)
    (fun depth => (callsAt_extends depth).mutexLock key) h.not_cut more

theorem mutexUnlock_stable {depth : Nat}
    (h : ReturnsOrYields ((callsAt depth).mutexUnlock key k)) (more : Nat) :
    (callsAt (depth + more)).mutexUnlock key k = (callsAt depth).mutexUnlock key k :=
  stable_of_extends (c := fun depth => (callsAt depth).mutexUnlock key)
    (fun depth => (callsAt_extends depth).mutexUnlock key) h.not_cut more

/-- With the allocator's mutex open, a `mutex_lock` or `mutex_unlock` makes finitely
many calls before it returns or yields exactly as `LockEnds` and `UnlockEnds` say. -/
theorem nested_calls_end (hmemory : k.mutexIsOpen k.memoryMutexKey) (hopen : k.mutexIsOpen key) :
    ((∃ depth, ReturnsOrYields ((callsAt depth).mutexLock key k)) ↔ k.LockEnds key) ∧
      ((∃ depth, ReturnsOrYields ((callsAt depth).mutexUnlock key k)) ↔ k.UnlockEnds key) :=
  ⟨mutexLock_ends_iff hmemory hopen, mutexUnlock_ends_iff hmemory hopen⟩

theorem nested_calls_end_booted :
    ((∃ depth, ReturnsOrYields ((callsAt depth).mutexLock 0 booted.k)) ↔ booted.k.LockEnds 0) ∧
      ((∃ depth, ReturnsOrYields ((callsAt depth).mutexUnlock 0 booted.k)) ↔
        booted.k.UnlockEnds 0) :=
  nested_calls_end (by decide +kernel) (by decide +kernel)

/-- The shell is interrupted inside `get_page`, and the program wants a page. -/
theorem lock_of_memory_mutex_nests : ¬∀ s, callSystem.Reach s →
    s.k.mutexIsOpen s.k.memoryMutexKey → ∀ key, s.k.mutexIsOpen key →
      ∃ depth, ReturnsOrYields ((callsAt depth).mutexLock key s.k) := by
  intro hall
  obtain ⟨s, hs, hheld⟩ := System.exists_reach_of_execute init_booted
    (twoPrograms ++ [.enter .getPage 2 2, .tick 2 5 0])
    (fun s => s.k.mutexIsOpen s.k.memoryMutexKey ∧ ¬s.k.LockEnds s.k.memoryMutexKey)
    (by decide +kernel)
  obtain ⟨hopen, hnot⟩ := of_decide_eq_true hheld
  exact hnot ((mutexLock_ends_iff hopen hopen).mp (hall s hs hopen _ hopen))

end Kernel

end TPE
