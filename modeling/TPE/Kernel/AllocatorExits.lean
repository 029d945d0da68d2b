import TPE.Kernel.CallDepth

/-!
# The ways out of the allocators

`get_page`, `store_page`, `get_stack_page` and `store_stack_page` each take a
mutex and have two exits, and each exit should give it back.

The exit of `get_page` without a page calls `mutex_lock` once more.  The process
holds the mutex, so it waits for itself there and never returns.
-/

namespace TPE

open Function

namespace Kernel

open Call

/-- `get_stack_page` -/
def getStackPageCall (c : MutexCalls) : KernelCall Addr := do
  let k ← read
  let _ ← c.mutexLock k.stackMemoryMutexKey
  let k ← read
  if k.currentStackIndex < maxProcesses then
    act .write fun k => { k with currentStackIndex := k.currentStackIndex + 1 }
    let _ ← c.mutexUnlock k.stackMemoryMutexKey
    pure (k.stackPagesStack k.currentStackIndex)
  else
    let _ ← c.mutexUnlock k.stackMemoryMutexKey
    pure null

variable {k k' t : Kernel} {key : Int} {c : MutexCalls}

/-- `get_stack_page` while its mutex is free. -/
theorem getStackPage_calm (depth : Nat) (hfree : k.MutexFree k.stackMemoryMutexKey) :
    CalmStep (getStackPageCall (callsAt (depth + 1))) k k.getStackPage.1 k.getStackPage.2 := by
  obtain ⟨_, hlock⟩ := mutexLock_notTaken depth (MutexFree.notTaken hfree)
  obtain ⟨mutexes, he, -⟩ := setWord_eq k k.stackMemoryMutexKey .locked
  rw [he] at hlock
  refine .read ?_
  rintro k₁ ⟨superlock, rfl⟩
  refine .bind hlock (.read ?_)
  rintro k₂ ⟨superlock', rfl⟩
  unfold getStackPage
  by_cases hlt : k.currentStackIndex < maxProcesses
  · obtain ⟨_, hunlock⟩ := mutexUnlock_restores depth k
      { k with currentStackIndex := k.currentStackIndex + 1, openMutexes := mutexes } _ hfree
      (by rw [he]) rfl
    rw [if_pos hlt, if_pos (by exact hlt)]
    exact .bind (CalmStep.write fun _ => rfl) (.bind hunlock (.pure _ _))
  · obtain ⟨_, hunlock⟩ := mutexUnlock_restores depth k { k with openMutexes := mutexes } _ hfree
      (by rw [he]) rfl
    rw [if_neg hlt, if_neg (by exact hlt)]
    exact .bind hunlock (.pure _ _)

/-! ## The mutex is given back -/

/-- The mutex is open, not taken, and nobody waits for it. -/
def OpenFree (k : Kernel) (key : Int) : Prop :=
  k.mutexIsOpen key ∧ (k.openMutexes key).locked = .unlocked ∧
    k.isEmpty (k.openMutexes key).processQueue

instance (k : Kernel) (key : Int) : Decidable (k.OpenFree key) :=
  inferInstanceAs (Decidable (_ ∧ _ ∧ _))

/-- Neither the stacks of free pages nor their indices have changed. -/
structure SamePages (k k' : Kernel) : Prop where
  pages : k'.pages = k.pages
  stackPages : k'.stackPagesStack = k.stackPagesStack
  stackIndex : k'.currentStackIndex = k.currentStackIndex

/-- The call returns with the mutex free.  If it has to fail, it returns 0 and
leaves the pages as they are. -/
def Releases (c : MutexCalls → KernelCall Nat) (key : Int) (fails : Prop) (k : Kernel) : Prop :=
  ∃ depth a k', Returns anyhow (c (callsAt depth)) k a k' ∧
    (k'.openMutexes key).locked = .unlocked ∧ (fails → a = 0 ∧ SamePages k k')

/-- A call that finds the mutex free and amounts to one step. -/
theorem Releases.of_calm {c : MutexCalls → KernelCall Nat} {fails : Prop} {a : Nat} {depth : Nat}
    (hfree : (k.openMutexes key).locked = .unlocked) (h : CalmStep (c (callsAt depth)) k a k')
    (hm : k'.openMutexes = k.openMutexes) (hfails : fails → a = 0 ∧ SamePages k k') :
    Releases c key fails k := by
  obtain ⟨_, ⟨superlock, rfl⟩, hreturns⟩ := h k ⟨k.superlock, rfl⟩
  refine ⟨depth, a, _, hreturns.mono fun _ _ _ => trivial, ?_, fun hf => ?_⟩
  · show (k'.openMutexes key).locked = .unlocked
    rw [hm]
    exact hfree
  · obtain ⟨ha, hsame⟩ := hfails hf
    exact ⟨ha, hsame.pages, hsame.stackPages, hsame.stackIndex⟩

theorem storePage_releases (hfree : k.OpenFree k.memoryMutexKey) (address : Addr) :
    Releases (storePageCall · address) k.memoryMutexKey (¬0 < k.pages.currentIndex) k := by
  refine .of_calm hfree.2.1 (storePage_calm_returns 0 (Or.inr hfree.2) address) rfl fun hfull => ?_
  rw [PageStack.storePageReturns, if_neg hfull]
  exact ⟨rfl, PageStack.storePage_full hfull, rfl, rfl⟩

theorem getStackPage_releases (hfree : k.OpenFree k.stackMemoryMutexKey) :
    Releases getStackPageCall k.stackMemoryMutexKey (¬k.currentStackIndex < maxProcesses) k := by
  refine .of_calm hfree.2.1 (getStackPage_calm 0 (Or.inr hfree.2)) ?_ fun hnone => ?_
  · unfold getStackPage
    split
    · rfl
    · rfl
  · rw [getStackPage, if_neg hnone]
    exact ⟨rfl, rfl, rfl, rfl⟩

theorem storeStackPage_releases (hfree : k.OpenFree k.stackMemoryMutexKey) (address : Addr) :
    Releases (storeStackPageCall · address) k.stackMemoryMutexKey (¬0 < k.currentStackIndex) k := by
  refine .of_calm hfree.2.1 (storeStackPage_calm_returns 0 (Or.inr hfree.2) address) rfl
    fun hfull => ?_
  rw [storeStackPageReturns, if_neg hfull]
  refine ⟨rfl, rfl, if_neg hfull, ?_⟩
  show k.currentStackIndex - 1 = k.currentStackIndex
  omega

/-! ## The exit without a page -/

/-- `mutex_lock` of a taken mutex does not return. -/
theorem mutexLock_taken_waits (hopen : k.mutexIsOpen key)
    (htaken : (k.openMutexes key).locked = .locked) {r : Int} :
    ¬Returns anyhow (mutexLockBody c key) k r t := by
  intro h
  have h := h.of_read
  rw [if_pos hopen] at h
  obtain ⟨waits, u, hsection, h⟩ := h.of_act.2.of_bind
  -- the section says that the process has to wait
  have hsection := hsection.of_read.of_act.2
  rw [if_pos (by exact htaken)] at hsection
  obtain ⟨_, v, -, hsection⟩ := hsection.of_act.2.of_bind
  obtain ⟨rfl, -⟩ := (Returns.pure (P := anyhow) true _).unique hsection.of_act.2
  have h := h.of_act.2
  rw [if_pos rfl] at h
  obtain ⟨-, hpark⟩ := h.of_act
  cases hpark.ending

/-- `get_page` does not return when no page is left. -/
theorem getPage_waits (hfree : k.OpenFree k.memoryMutexKey)
    (hnone : ¬k.pages.currentIndex < stackSize) (depth : Nat) {a : Addr} :
    ¬Returns anyhow (getPageCall (callsAt depth)) k a t := by
  intro h
  obtain ⟨r, u, hlock, h⟩ := h.of_read.of_bind
  cases depth with
  | zero => cases hlock.ending
  | succ depth =>
      obtain ⟨r', hcalm⟩ := mutexLock_notTaken depth fun _ => hfree.2.1
      obtain ⟨_, ⟨superlock, rfl⟩, hreturns⟩ := hcalm k ⟨k.superlock, rfl⟩
      obtain ⟨-, rfl⟩ := hreturns.unique hlock
      rw [setWord, if_pos hfree.1] at h
      have h := h.of_read
      have hget : (k.writeMutex k.memoryMutexKey
          fun m => { m with locked := .locked }).pages.getPage = none := by
        show k.pages.getPage = none
        rw [PageStack.getPage, if_neg hnone]
      simp only [hget] at h
      obtain ⟨_, _, hagain, -⟩ := h.of_bind
      refine mutexLock_taken_waits ⟨hfree.1.1, hfree.1.2.1, ?_⟩ ?_ hagain
      · simp only [writeMutex, update_self]
        exact hfree.1.2.2
      · simp only [writeMutex, update_self]

theorem getPage_releases_iff (hfree : k.OpenFree k.memoryMutexKey) :
    Releases getPageCall k.memoryMutexKey (¬k.pages.currentIndex < stackSize) k ↔
      k.pages.currentIndex < stackSize := by
  constructor
  · rintro ⟨depth, a, t, hreturns, -, -⟩
    by_contra hnone
    exact getPage_waits hfree hnone depth hreturns
  · intro hlt
    have hget : k.pages.getPage = some (pageAddr (k.pages.pagesStack k.pages.currentIndex.toNat),
        { k.pages with currentIndex := k.pages.currentIndex + 1 }) := by
      rw [PageStack.getPage, if_pos hlt]
    exact .of_calm hfree.2.1 (getPage_calm 0 (Or.inr hfree.2) hget) rfl fun hnone => absurd hlt hnone

/-- With their mutexes open and free, all exits of the allocators give them back,
except that `get_page` does not return when no page is left. -/
theorem allocators_release (k : Kernel) :
    (k.OpenFree k.memoryMutexKey →
      (Releases getPageCall k.memoryMutexKey (¬k.pages.currentIndex < stackSize) k ↔
        k.pages.currentIndex < stackSize) ∧
      ∀ address, Releases (storePageCall · address) k.memoryMutexKey
        (¬0 < k.pages.currentIndex) k) ∧
    (k.OpenFree k.stackMemoryMutexKey →
      Releases getStackPageCall k.stackMemoryMutexKey (¬k.currentStackIndex < maxProcesses) k ∧
      ∀ address, Releases (storeStackPageCall · address) k.stackMemoryMutexKey
        (¬0 < k.currentStackIndex) k) :=
  ⟨fun hfree => ⟨getPage_releases_iff hfree, storePage_releases hfree⟩,
    fun hfree => ⟨getStackPage_releases hfree, storeStackPage_releases hfree⟩⟩

theorem allocators_release_booted :
    (Releases getPageCall booted.k.memoryMutexKey (¬booted.k.pages.currentIndex < stackSize)
      booted.k ↔ booted.k.pages.currentIndex < stackSize) ∧
    Releases getStackPageCall booted.k.stackMemoryMutexKey
      (¬booted.k.currentStackIndex < maxProcesses) booted.k :=
  ⟨((allocators_release booted.k).1 (by decide +kernel)).1,
    ((allocators_release booted.k).2 (by decide +kernel)).1⟩

/-- All pages are handed out. -/
def exhausted : Kernel := { booted.k with pages := { booted.k.pages with currentIndex := stackSize } }

theorem getPage_keeps_mutex : ¬∀ k : Kernel, k.OpenFree k.memoryMutexKey →
    Releases getPageCall k.memoryMutexKey (¬k.pages.currentIndex < stackSize) k := by
  intro hall
  have hfree : exhausted.OpenFree exhausted.memoryMutexKey := by decide +kernel
  obtain ⟨depth, a, t, hreturns, -, -⟩ := hall exhausted hfree
  exact getPage_waits hfree (by decide) depth hreturns

end Kernel

end TPE
