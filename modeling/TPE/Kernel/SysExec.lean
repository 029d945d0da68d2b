import TPE.Kernel.AllocatorRuns
import TPE.Kernel.ProcessManager

/-!
# When `sys_exec` runs out of something

`sys_exec` takes a page for the process, a stack page, a slot of the process
table and a page for the node of the ring, in this order.  It tests none of
them: without a page `get_page` does not return, as its mutex is open from boot
on, and without a stack page or a slot the process is made all the same.
-/

namespace TPE

namespace Kernel

variable {k k' : Kernel} {p : Addr} {rip : Nat} {name : CString}

/-- What `exec_process` returns for the new process `p`, an `int`. -/
def execPid (k : Kernel) (p : Addr) : Int := int32 (k.pidProcess p)

/-- Something that `sys_exec` takes is not there. -/
def Missing (k : Kernel) : Prop :=
  k.pages.free.length < 2 ∨ k.getStackPage.1 = 0 ∨
    ∀ i, i < maxProcesses → k.processTable i ≠ null

/-- The processes, the ring and the allocators are as before, up to the order of
the free pages. -/
structure Unchanged (k k' : Kernel) : Prop where
  processTable : k'.processTable = k.processTable
  nProcesses : k'.nProcesses = k.nProcesses
  current : k'.current = k.current
  prev : k'.prev = k.prev
  ring : ∀ n, k'.next^[n] k.current = k.next^[n] k.current
  procs : ∀ n, k'.procOf (k.next^[n] k.current) = k.procOf (k.next^[n] k.current)
  foreground : k'.foreground = k.foreground
  pages : k'.pages.free.Perm k.pages.free
  stackPages : k'.freeStackPages.Perm k.freeStackPages

/-- If something is missing, `sys_exec` returns an error and changes nothing. -/
def AllOrNothing (k : Kernel) (rip : Nat) (name : CString) : Prop :=
  k.Missing → ∃ p k', k.sysExec rip name = some (p, k') ∧ k'.execPid p = -1 ∧ Unchanged k k'

/-- A call that returns has taken two pages. -/
theorem sysExec_free (h : k.sysExec rip name = some (p, k')) :
    ∃ a, k.pages.free = p :: a :: k'.pages.free := by
  obtain ⟨⟨q, k₁⟩, hcreate, hadd⟩ := Option.bind_eq_some_iff.mp h
  obtain ⟨k₂, hadd, he⟩ := Option.map_eq_some_iff.mp hadd
  cases he
  obtain ⟨a, ha⟩ := addProcess_spec hadd
  refine ⟨a, ?_⟩
  rw [PageStack.free_of_getPage (createProcess_spec hcreate).getPage,
    PageStack.free_of_getPage ha.getPage]

/-- A call that returns has changed the allocator. -/
theorem sysExec_changes (h : k.sysExec rip name = some (p, k')) : ¬Unchanged k k' := by
  intro hsame
  obtain ⟨a, hfree⟩ := sysExec_free h
  have hlen := hsame.pages.length_eq
  rw [hfree] at hlen
  simp only [List.length_cons] at hlen
  omega

/-- Process creation is all-or-nothing only as long as nothing is missing. -/
theorem exec_all_or_nothing (k : Kernel) (rip : Nat) (name : CString) :
    k.AllOrNothing rip name ↔ ¬k.Missing := by
  constructor
  · intro h hmissing
    obtain ⟨p, k', hexec, -, hsame⟩ := h hmissing
    exact sysExec_changes hexec hsame
  · intro hall hmissing
    exact absurd hmissing hall

/-- Without two free pages the call does not return at all. -/
theorem sysExec_eq_none (h : k.pages.free.length < 2) : k.sysExec rip name = none := by
  cases hexec : k.sysExec rip name with
  | none => rfl
  | some r =>
      obtain ⟨p, k'⟩ := r
      obtain ⟨a, hfree⟩ := sysExec_free hexec
      rw [hfree] at h
      simp only [List.length_cons] at h
      omega

/-- A kernel with one free page left, whose allocator has its mutex. -/
def onePageLeft : Kernel where
  pages := { PageStack.initializeMemoryAllocator ⟨fun _ => 0, 0⟩ with currentIndex := 254 }
  memoryMutexKey := 0
  openMutexes := fun _ => ⟨.nil, .unlocked, .opened, pageAddr 1⟩

theorem one_page_not_nothing : ¬onePageLeft.AllOrNothing 0 .nil := by
  intro h
  obtain ⟨p, k', hexec, -⟩ := h (Or.inl (by decide +kernel))
  rw [sysExec_eq_none (by decide +kernel)] at hexec
  cases hexec

end Kernel

end TPE
