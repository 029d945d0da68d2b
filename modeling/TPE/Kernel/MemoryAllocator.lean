import Mathlib.Data.List.Nodup
import Mathlib.Data.Set.Insert
import TPE.Kernel.State

/-!
# The data-page allocator

`memoryAllocator.c` keeps the numbers of the free data pages on a stack of
`STACK_SIZE` bytes.  `get_page` pops a number, `store_page` pushes the number
of the page it is given.

Here both are taken as one step each: their mutex is free when they start and
free again when they return.  `get_page` on an empty stack locks the mutex it
already holds and never returns, so it has no result then.

`PagesOk used` is what the callers of the allocator rely on: no page of `used`
is free.  A page handed out joins `used`, and a page given back leaves it.
-/

namespace TPE

open Function

/-- `PAGE_SIZE` -/
abbrev pageSize : Nat := 0x1000

/-- `DATA_ADDRESS` -/
abbrev dataAddress : Nat := 0x500000

/-- `STACK_SIZE`, the largest `page_index_t`. -/
abbrev stackSize : UInt8 := 255

/-- `MEMORY_PAGES_END` -/
abbrev memoryPagesEnd : Nat := (stackSize.toNat + 1) * pageSize + dataAddress

/-- `STACK_PAGE_SIZE` -/
abbrev stackPageSize : Nat := 0x100000

/-- `STACK_ADDRESS` -/
abbrev stackAddress : Nat := memoryPagesEnd + pageSize

/-- The address of the page with the number `i`. -/
def pageAddr (i : UInt8) : Addr := i.toNat * pageSize + dataAddress

/-- `(address - DATA_ADDRESS) / PAGE_SIZE`, in `uint64_t` and then cut to a
`page_index_t`. -/
def pageIndex (address : Addr) : UInt8 :=
  UInt8.ofNat ((address + 2 ^ 64 - dataAddress) % 2 ^ 64 / pageSize)

/-- The address of a data page. -/
def IsPage (a : Addr) : Prop := ∃ i, a = pageAddr i

@[simp] theorem pageIndex_pageAddr (i : UInt8) : pageIndex (pageAddr i) = i := by
  have hi := i.toNat_lt
  have hq : (pageAddr i + 2 ^ 64 - dataAddress) % 2 ^ 64 / pageSize = i.toNat := by
    unfold pageAddr dataAddress pageSize
    omega
  rw [pageIndex, hq, UInt8.ofNat_toNat]

theorem pageAddr_inj {i j : UInt8} (h : pageAddr i = pageAddr j) : i = j := by
  rw [← pageIndex_pageAddr i, h, pageIndex_pageAddr]

theorem pageAddr_pageIndex {a : Addr} (h : IsPage a) : pageAddr (pageIndex a) = a := by
  obtain ⟨i, rfl⟩ := h
  rw [pageIndex_pageAddr]

theorem IsPage.ne_null {a : Addr} (h : IsPage a) : a ≠ null := by
  obtain ⟨i, rfl⟩ := h
  exact Nat.ne_of_gt (Nat.lt_of_lt_of_le (by decide) (Nat.le_add_left dataAddress _))

namespace PageStack

/-! ## The operations -/

/-- `initialize_memory_allocator` -/
def initializeMemoryAllocator (s : PageStack) : PageStack :=
  { s with pagesStack := fun i => if i < stackSize.toNat - 1 then UInt8.ofNat (i + 1)
                                  else s.pagesStack i }

/-- `get_page` -/
def getPage (s : PageStack) : Option (Addr × PageStack) :=
  if s.currentIndex < stackSize then
    some (pageAddr (s.pagesStack s.currentIndex.toNat),
      { s with currentIndex := s.currentIndex + 1 })
  else none

/-- `store_page` -/
def storePage (s : PageStack) (address : Addr) : PageStack :=
  if 0 < s.currentIndex then
    { pagesStack := update s.pagesStack (s.currentIndex - 1).toNat (pageIndex address)
      currentIndex := s.currentIndex - 1 }
  else s

/-- What `store_page` returns. -/
def storePageReturns (s : PageStack) : Nat := if 0 < s.currentIndex then 1 else 0

/-! ## The free pages -/

/-- The free pages, in the order in which they are handed out. -/
def free (s : PageStack) : List Addr :=
  (List.range' s.currentIndex.toNat (stackSize.toNat - s.currentIndex.toNat)).map
    fun i => pageAddr (s.pagesStack i)

theorem free_of_getPage {s s' : PageStack} {a : Addr} (h : s.getPage = some (a, s')) :
    s.free = a :: s'.free := by
  unfold getPage at h
  split at h
  next hlt =>
    cases h
    have hlt' : s.currentIndex.toNat < 255 := UInt8.lt_iff_toNat_lt.mp hlt
    have hsucc : (s.currentIndex + 1).toNat = s.currentIndex.toNat + 1 := by
      rw [UInt8.toNat_add, UInt8.toNat_one]
      omega
    have hsize : stackSize.toNat = 255 := rfl
    simp only [free, hsucc, hsize]
    rw [show 255 - s.currentIndex.toNat = 255 - (s.currentIndex.toNat + 1) + 1 by omega,
      List.range'_succ, List.map_cons]
  next => cases h

/-- A page that is given back is the next to be handed out. -/
theorem free_storePage {s : PageStack} {a : Addr} (ha : IsPage a) (hpos : 0 < s.currentIndex) :
    (s.storePage a).free = a :: s.free := by
  have hpos' : 0 < s.currentIndex.toNat := UInt8.lt_iff_toNat_lt.mp hpos
  have hlt := s.currentIndex.toNat_lt
  have hpred : (s.currentIndex - 1).toNat = s.currentIndex.toNat - 1 :=
    UInt8.toNat_sub_of_le _ _ (UInt8.le_iff_toNat_le.mpr hpos')
  have hsize : stackSize.toNat = 255 := rfl
  simp only [storePage, if_pos hpos, free, hpred, hsize]
  rw [show 255 - (s.currentIndex.toNat - 1) = 255 - s.currentIndex.toNat + 1 by omega,
    List.range'_succ, List.map_cons, update_self, pageAddr_pageIndex ha,
    show s.currentIndex.toNat - 1 + 1 = s.currentIndex.toNat by omega]
  refine congrArg (a :: ·) (List.map_congr_left ?_)
  intro i hi
  have hge := (List.mem_range'_1.mp hi).1
  rw [update_of_ne (by omega)]

theorem storePage_full {s : PageStack} {a : Addr} (h : ¬0 < s.currentIndex) :
    s.storePage a = s := if_neg h

/-! ## What callers rely on -/

/-- The pages of `used` are handed out: they are data pages and not free. -/
structure PagesOk (s : PageStack) (used : Set Addr) : Prop where
  nodup : s.free.Nodup
  isPage : ∀ a ∈ used, IsPage a
  notFree : ∀ a ∈ used, a ∉ s.free

theorem PagesOk.mono {s : PageStack} {used used' : Set Addr} (h : s.PagesOk used)
    (le : ∀ a ∈ used', a ∈ used) : s.PagesOk used' :=
  ⟨h.nodup, fun a ha => h.isPage a (le a ha), fun a ha => h.notFree a (le a ha)⟩

theorem isPage_of_mem_free {s : PageStack} {a : Addr} (h : a ∈ s.free) : IsPage a := by
  obtain ⟨i, -, rfl⟩ := List.mem_map.mp h
  exact ⟨_, rfl⟩

/-- A page that is handed out is a data page not in use before. -/
theorem PagesOk.getPage {s s' : PageStack} {used : Set Addr} {a : Addr} (h : s.PagesOk used)
    (hget : s.getPage = some (a, s')) :
    a ∉ used ∧ IsPage a ∧ s'.PagesOk (insert a used) := by
  have hfree := free_of_getPage hget
  have hmem : a ∈ s.free := by
    rw [hfree]
    exact List.mem_cons_self
  have hnodup := h.nodup
  rw [hfree, List.nodup_cons] at hnodup
  refine ⟨fun ha => h.notFree a ha hmem, isPage_of_mem_free hmem, hnodup.2, ?_, ?_⟩
  · rintro b (rfl | hb)
    · exact isPage_of_mem_free hmem
    · exact h.isPage b hb
  · rintro b (rfl | hb)
    · exact hnodup.1
    · intro hb'
      apply h.notFree b hb
      rw [hfree]
      exact List.mem_cons_of_mem _ hb'

/-- A used page that is given back is not used any more. -/
theorem PagesOk.storePage {s : PageStack} {used : Set Addr} {a : Addr} (h : s.PagesOk used)
    (ha : a ∈ used) : (s.storePage a).PagesOk {b ∈ used | b ≠ a} := by
  by_cases hpos : 0 < s.currentIndex
  · have hfree := free_storePage (h.isPage a ha) hpos
    refine ⟨?_, fun b hb => h.isPage b hb.1, ?_⟩
    · rw [hfree, List.nodup_cons]
      exact ⟨h.notFree a ha, h.nodup⟩
    · rintro b ⟨hb, hne⟩
      rw [hfree, List.mem_cons, not_or]
      exact ⟨hne, h.notFree b hb⟩
  · rw [storePage_full hpos]
    exact h.mono fun b hb => hb.1

/-- Before the first call every page is free. -/
theorem initial_pagesOk :
    (initializeMemoryAllocator ⟨fun _ => 0, 0⟩).PagesOk ∅ := by
  refine ⟨?_, fun a ha => absurd ha (Set.notMem_empty a), fun a ha => absurd ha (Set.notMem_empty a)⟩
  refine List.Nodup.map_on ?_ List.nodup_range'
  intro i hi j hj he
  have hi' := (List.mem_range'_1.mp hi).2
  have hj' := (List.mem_range'_1.mp hj).2
  have hsize : stackSize.toNat = 255 := rfl
  have hzero : (0 : UInt8).toNat = 0 := rfl
  simp only [initializeMemoryAllocator, hsize, hzero] at hi' hj' he
  have hidx := congrArg UInt8.toNat (pageAddr_inj he)
  split at hidx <;> split at hidx <;> simp only [UInt8.toNat_ofNat', hzero] at hidx <;> omega

end PageStack

namespace Kernel

/-- `get_page` -/
def getPage (k : Kernel) : Option (Addr × Kernel) :=
  k.pages.getPage.map fun (a, pages) => (a, { k with pages })

/-- `store_page` -/
def storePage (k : Kernel) (address : Addr) : Kernel :=
  { k with pages := k.pages.storePage address }

theorem getPage_eq_some {k k' : Kernel} {a : Addr} (h : k.getPage = some (a, k')) :
    ∃ pages, k.pages.getPage = some (a, pages) ∧ k' = { k with pages } := by
  obtain ⟨⟨b, pages⟩, hp, he⟩ := Option.map_eq_some_iff.mp h
  cases he
  exact ⟨pages, hp, rfl⟩

/-! ## Stack pages -/

/-- `initialize_stack_memory_allocator`.  A stack grows down, so the address of
its page is the one behind it. -/
def initializeStackMemoryAllocator (k : Kernel) : Kernel :=
  { k with stackPagesStack := fun i =>
      if i < maxProcesses then (i + 1) * stackPageSize + stackAddress else k.stackPagesStack i }

/-- `get_stack_page` -/
def getStackPage (k : Kernel) : Addr × Kernel :=
  if k.currentStackIndex < maxProcesses then
    (k.stackPagesStack k.currentStackIndex, { k with currentStackIndex := k.currentStackIndex + 1 })
  else (0, k)

/-- `store_stack_page` -/
def storeStackPage (k : Kernel) (address : Addr) : Kernel :=
  { k with
    stackPagesStack :=
      if 0 < k.currentStackIndex then update k.stackPagesStack (k.currentStackIndex - 1) address
      else k.stackPagesStack
    currentStackIndex := k.currentStackIndex - 1 }

/-- What `store_stack_page` returns. -/
def storeStackPageReturns (k : Kernel) : Nat := if 0 < k.currentStackIndex then 1 else 0

/-- What `get_stack_page` writes: the index. -/
theorem getStackPage_eq (k : Kernel) :
    ∃ page index, k.getStackPage = (page, { k with currentStackIndex := index }) := by
  unfold getStackPage
  split
  · exact ⟨_, _, rfl⟩
  · exact ⟨_, _, rfl⟩

end Kernel

end TPE
