import TPE.Library.Pool
import TPE.Library.Runs
import TPE.Kernel.MemoryAllocator

/-!
# Runs of the allocators

Both allocators, from their initialisation on and driven by any calls that give
back only pages that are handed out.  A state also carries those pages.

Each allocator is a pool: its stack lists the free pages, in the order in which
they are handed out.  The stack of the data pages ends with an entry that the
initialisation leaves 0, and 0 is the number of the page at `DATA_ADDRESS`.
-/

namespace TPE

open Function

/-! ## The pages -/

/-- The address of the data page with the number `i`. -/
def dataPage (i : Nat) : Nat := i * pageSize + dataAddress

/-- The address behind the stack page with the number `i`. -/
def stackPage (i : Nat) : Nat := (i + 1) * stackPageSize + stackAddress

/-- The data pages, with the reserved one. -/
def dataPages : List Addr := (List.range stackSize.toNat).map dataPage

/-- The stack pages. -/
def stackPages : List Addr := (List.range maxProcesses).map stackPage

theorem dataPage_inj {i j : Nat} (h : dataPage i = dataPage j) : i = j := by
  unfold dataPage pageSize at h
  omega

theorem stackPage_inj {i j : Nat} (h : stackPage i = stackPage j) : i = j := by
  have hmul : (i + 1) * stackPageSize = (j + 1) * stackPageSize := Nat.add_right_cancel h
  unfold stackPageSize at hmul
  omega

/-- A data page is aligned and ends in front of `MEMORY_PAGES_END`. -/
theorem dataPage_bounds {i : Nat} (h : i < stackSize.toNat) :
    dataPage i % pageSize = 0 ∧ dataAddress ≤ dataPage i ∧
      dataPage i + pageSize ≤ memoryPagesEnd := by
  have hcount : stackSize.toNat = 255 := rfl
  unfold dataPage memoryPagesEnd pageSize dataAddress
  omega

/-- A stack is behind the data pages. -/
theorem stackPage_bounds (i : Nat) :
    memoryPagesEnd < stackPage i - stackPageSize ∧ 0 < stackPage i := by
  unfold stackPage stackPageSize stackAddress pageSize
  omega

/-- Two stacks do not overlap. -/
theorem stackPage_apart {i j : Nat} (h : i ≠ j) :
    stackPage i ≤ stackPage j - stackPageSize ∨ stackPage j ≤ stackPage i - stackPageSize := by
  unfold stackPage stackPageSize
  omega

theorem mem_dataPages {a : Addr} : a ∈ dataPages ↔ ∃ i, i < stackSize.toNat ∧ dataPage i = a := by
  simp only [dataPages, List.mem_map, List.mem_range]

theorem mem_stackPages {a : Addr} : a ∈ stackPages ↔ ∃ i, i < maxProcesses ∧ stackPage i = a := by
  simp only [stackPages, List.mem_map, List.mem_range]

theorem nodup_dataPages : dataPages.Nodup := by
  exact List.nodup_range.map fun _ _ he => dataPage_inj he

theorem nodup_stackPages : stackPages.Nodup := by
  exact List.nodup_range.map fun _ _ he => stackPage_inj he

theorem pageAddr_eq (i : UInt8) : pageAddr i = dataPage i.toNat := rfl

theorem isPage_of_mem_dataPages {a : Addr} (h : a ∈ dataPages) : IsPage a := by
  obtain ⟨i, hi, rfl⟩ := mem_dataPages.mp h
  have hcount : stackSize.toNat = 255 := rfl
  have hto : (UInt8.ofNat i).toNat = i := by
    rw [UInt8.toNat_ofNat']
    omega
  refine ⟨UInt8.ofNat i, ?_⟩
  rw [pageAddr_eq, hto]

namespace PageStack

/-- The entries of `pages_stack` from `current_index` on. -/
def entries (s : PageStack) : List UInt8 :=
  (List.range' s.currentIndex.toNat (stackSize.toNat - s.currentIndex.toNat)).map s.pagesStack

theorem free_eq (s : PageStack) : s.free = s.entries.map pageAddr := by
  simp [free, entries]

theorem nodup_entries {s : PageStack} (h : s.free.Nodup) : s.entries.Nodup := by
  rw [free_eq] at h
  exact h.of_map

theorem mem_free_pageAddr {s : PageStack} {i : UInt8} : pageAddr i ∈ s.free ↔ i ∈ s.entries := by
  rw [free_eq, List.mem_map]
  constructor
  · rintro ⟨j, hj, he⟩
    rwa [← pageAddr_inj he]
  · intro hi
    exact ⟨i, hi, rfl⟩

/-- `current_index` counts the pages that are not on the stack. -/
theorem length_free {s : PageStack} (h : s.currentIndex ≤ stackSize) :
    s.free.length + s.currentIndex.toNat = stackSize.toNat := by
  have hle := UInt8.le_iff_toNat_le.mp h
  simp only [free, List.length_map, List.length_range']
  omega

end PageStack

namespace Kernel

/-- The free stack pages, in the order in which they are handed out. -/
def freeStackPages (k : Kernel) : List Addr :=
  (List.range' k.currentStackIndex (maxProcesses - k.currentStackIndex)).map k.stackPagesStack

theorem freeStackPages_of_getStackPage {k : Kernel} (h : k.currentStackIndex < maxProcesses) :
    k.freeStackPages = k.getStackPage.1 :: k.getStackPage.2.freeStackPages := by
  rw [getStackPage, if_pos h]
  simp only [freeStackPages]
  rw [show maxProcesses - k.currentStackIndex = maxProcesses - (k.currentStackIndex + 1) + 1 by omega,
    List.range'_succ, List.map_cons]

/-- A stack page that is given back is the next to be handed out. -/
theorem freeStackPages_storeStackPage {k : Kernel} {a : Addr} (hpos : 0 < k.currentStackIndex)
    (hle : k.currentStackIndex ≤ maxProcesses) :
    (k.storeStackPage a).freeStackPages = a :: k.freeStackPages := by
  simp only [storeStackPage, if_pos hpos, freeStackPages]
  rw [show maxProcesses - (k.currentStackIndex - 1) = maxProcesses - k.currentStackIndex + 1 by omega,
    List.range'_succ, List.map_cons, update_self,
    show k.currentStackIndex - 1 + 1 = k.currentStackIndex by omega]
  refine congrArg (a :: ·) (List.map_congr_left ?_)
  intro i hi
  have hge := (List.mem_range'_1.mp hi).1
  rw [update_of_ne (by omega)]

theorem length_freeStackPages (k : Kernel) :
    k.freeStackPages.length = maxProcesses - k.currentStackIndex := by
  simp [freeStackPages]

end Kernel

/-! ## Runs -/

/-- The kernel and the pages that are handed out. -/
structure AllocRun where
  k : Kernel
  pages : List Addr
  stackPages : List Addr

/-- The calls of the allocators. -/
inductive AllocAction where
  | getPage
  | storePage (address : Addr)
  | getStackPage
  | storeStackPage (address : Addr)

/-- The allocators after their initialisation.  Only what is handed out is given
back, and `get_stack_page` hands out nothing when it returns 0. -/
def allocSystem : System AllocRun AllocAction where
  init s := ∃ k : Kernel, k.pages = ⟨fun _ => 0, 0⟩ ∧ k.currentStackIndex = 0 ∧
    s = ⟨{ k.initializeStackMemoryAllocator with pages := k.pages.initializeMemoryAllocator }, [], []⟩
  next
    | s, .getPage => s.k.getPage.map fun (a, k) => { s with k, pages := a :: s.pages }
    | s, .storePage address =>
        if address ∈ s.pages then
          some { s with k := s.k.storePage address, pages := s.pages.erase address }
        else none
    | s, .getStackPage =>
        let (a, k) := s.k.getStackPage
        some { s with k, stackPages := if a = 0 then s.stackPages else a :: s.stackPages }
    | s, .storeStackPage address =>
        if address ∈ s.stackPages then
          some { s with k := s.k.storeStackPage address, stackPages := s.stackPages.erase address }
        else none

/-- Both allocators are pools, and their indices stay within bounds. -/
structure AllocInv (s : AllocRun) : Prop where
  pages : Pool.Conserves dataPages ⟨s.k.pages.free, s.pages⟩
  index : s.k.pages.currentIndex ≤ stackSize
  stackPages : Pool.Conserves TPE.stackPages ⟨s.k.freeStackPages, s.stackPages⟩
  stackIndex : s.k.currentStackIndex ≤ maxProcesses

namespace AllocInv

variable {s t : AllocRun} {a : Addr} {k : Kernel}

theorem free_initial : (PageStack.initializeMemoryAllocator ⟨fun _ => 0, 0⟩).free =
    dataPages.tail ++ [dataAddress] := by decide +kernel

/-- At the start no data page is handed out. -/
theorem conserves_initial : Pool.Conserves dataPages
    ⟨(PageStack.initializeMemoryAllocator ⟨fun _ => 0, 0⟩).free, []⟩ := by
  have hcons : dataPages = dataAddress :: dataPages.tail := by decide +kernel
  have hmove : (dataPages.tail ++ [dataAddress]).Perm dataPages :=
    (List.perm_append_singleton _ _).trans (List.Perm.of_eq hcons.symm)
  rw [free_initial]
  simpa [Pool.Conserves] using hmove

theorem of_init (h : allocSystem.init s) : AllocInv s := by
  obtain ⟨k, hpages, hindex, rfl⟩ := h
  constructor
  · show Pool.Conserves dataPages ⟨k.pages.initializeMemoryAllocator.free, []⟩
    rw [hpages]
    exact conserves_initial
  · show k.pages.currentIndex ≤ stackSize
    rw [hpages]
    decide
  · have hfree : k.initializeStackMemoryAllocator.freeStackPages = TPE.stackPages := by
      simp only [Kernel.freeStackPages, Kernel.initializeStackMemoryAllocator, hindex, Nat.sub_zero,
        TPE.stackPages, List.range_eq_range']
      refine List.map_congr_left ?_
      intro i hi
      rw [if_pos (by simpa using hi)]
      rfl
    show Pool.Conserves TPE.stackPages ⟨k.initializeStackMemoryAllocator.freeStackPages, []⟩
    rw [hfree]
    exact .start
  · show k.currentStackIndex ≤ maxProcesses
    rw [hindex]
    exact Nat.zero_le _

/-- `current_index` is the number of data pages handed out. -/
theorem index_eq (h : AllocInv s) : s.k.pages.currentIndex.toNat = s.pages.length := by
  have hcount := h.pages.length_eq
  have hfree := PageStack.length_free h.index
  have hall : dataPages.length = stackSize.toNat := by simp [dataPages]
  omega

theorem stackIndex_eq (h : AllocInv s) : s.k.currentStackIndex = s.stackPages.length := by
  have hcount := h.stackPages.length_eq
  have hfree := s.k.length_freeStackPages
  have hall : TPE.stackPages.length = maxProcesses := by simp [TPE.stackPages]
  have hle := h.stackIndex
  omega

theorem index_pos (h : AllocInv s) (ha : a ∈ s.pages) : 0 < s.k.pages.currentIndex := by
  have hlen := List.length_pos_of_mem ha
  rw [UInt8.lt_iff_toNat_lt, h.index_eq]
  exact hlen

theorem stackIndex_pos (h : AllocInv s) (ha : a ∈ s.stackPages) : 0 < s.k.currentStackIndex := by
  rw [h.stackIndex_eq]
  exact List.length_pos_of_mem ha

theorem getPage (h : AllocInv s) (hget : s.k.getPage = some (a, k)) :
    AllocInv { s with k, pages := a :: s.pages } := by
  obtain ⟨pages, hp, rfl⟩ := Kernel.getPage_eq_some hget
  have hfree := PageStack.free_of_getPage hp
  have hpool := h.pages
  rw [hfree] at hpool
  refine ⟨hpool.take, ?_, h.stackPages, h.stackIndex⟩
  unfold PageStack.getPage at hp
  split at hp
  next hlt =>
    cases hp
    have hlt' : s.k.pages.currentIndex.toNat < 255 := UInt8.lt_iff_toNat_lt.mp hlt
    have hsize : stackSize.toNat = 255 := rfl
    simp only [UInt8.le_iff_toNat_le, UInt8.toNat_add, UInt8.toNat_one, hsize]
    omega
  next => cases hp

theorem storePage (h : AllocInv s) (ha : a ∈ s.pages) :
    AllocInv { s with k := s.k.storePage a, pages := s.pages.erase a } := by
  have hpos := h.index_pos ha
  have hpage := isPage_of_mem_dataPages (h.pages.mem_all ha)
  refine ⟨?_, ?_, h.stackPages, h.stackIndex⟩
  · show Pool.Conserves dataPages ⟨(s.k.pages.storePage a).free, s.pages.erase a⟩
    rw [PageStack.free_storePage hpage hpos]
    exact h.pages.give ha
  · have hle := UInt8.le_iff_toNat_le.mp h.index
    have hone : (1 : UInt8) ≤ s.k.pages.currentIndex := UInt8.le_iff_toNat_le.mpr
      (UInt8.lt_iff_toNat_lt.mp hpos)
    simp only [Kernel.storePage, PageStack.storePage, if_pos hpos, UInt8.le_iff_toNat_le,
      UInt8.toNat_sub_of_le _ _ hone]
    omega

theorem getStackPage (h : AllocInv s) :
    AllocInv { s with
      k := s.k.getStackPage.2
      stackPages := if s.k.getStackPage.1 = 0 then s.stackPages
        else s.k.getStackPage.1 :: s.stackPages } := by
  by_cases hlt : s.k.currentStackIndex < maxProcesses
  · have hfree := Kernel.freeStackPages_of_getStackPage hlt
    have hpool := h.stackPages
    rw [hfree] at hpool
    have hmem : s.k.getStackPage.1 ∈ TPE.stackPages := hpool.take.mem_all List.mem_cons_self
    have hne : s.k.getStackPage.1 ≠ 0 := by
      obtain ⟨i, -, he⟩ := mem_stackPages.mp hmem
      rw [← he]
      exact (stackPage_bounds i).2.ne'
    have hk : s.k.getStackPage.2 = { s.k with currentStackIndex := s.k.currentStackIndex + 1 } := by
      rw [Kernel.getStackPage, if_pos hlt]
    rw [if_neg hne]
    refine ⟨?_, ?_, hpool.take, ?_⟩
    · rw [hk]
      exact h.pages
    · rw [hk]
      exact h.index
    · rw [hk]
      exact hlt
  · have he : s.k.getStackPage = (0, s.k) := if_neg hlt
    rw [he, if_pos rfl]
    exact h

theorem storeStackPage (h : AllocInv s) (ha : a ∈ s.stackPages) :
    AllocInv { s with k := s.k.storeStackPage a, stackPages := s.stackPages.erase a } := by
  refine ⟨h.pages, h.index, ?_, ?_⟩
  · rw [Kernel.freeStackPages_storeStackPage (h.stackIndex_pos ha) h.stackIndex]
    exact h.stackPages.give ha
  · exact (Nat.sub_le _ _).trans h.stackIndex

/-- Every call keeps the invariant. -/
theorem next {c : AllocAction} (h : AllocInv s) (hn : allocSystem.next s c = some t) :
    AllocInv t := by
  cases c with
  | getPage =>
      obtain ⟨⟨a, k⟩, hget, rfl⟩ := Option.map_eq_some_iff.mp hn
      exact h.getPage hget
  | storePage address =>
      simp only [allocSystem] at hn
      split at hn
      next ha =>
        cases hn
        exact h.storePage ha
      next => cases hn
  | getStackPage =>
      cases hn
      exact h.getStackPage
  | storeStackPage address =>
      simp only [allocSystem] at hn
      split at hn
      next ha =>
        cases hn
        exact h.storeStackPage ha
      next => cases hn

theorem of_reach (h : allocSystem.Reach s) : AllocInv s := by
  exact h.invariant (fun _ hs => of_init hs) fun _ _ _ hi _ hn => hi.next hn

end AllocInv

/-! ## What holds in every run -/

/-- What the callers of the allocators can rely on. -/
structure AllocOk (s : AllocRun) : Prop where
  /-- A page that is handed out is aligned, in bounds and nobody else's. -/
  getPage : ∀ a k, s.k.getPage = some (a, k) →
    a % pageSize = 0 ∧ dataAddress ≤ a ∧ a + pageSize ≤ memoryPagesEnd ∧ a ∉ s.pages
  handed : s.pages.Nodup
  entries : s.k.pages.entries.Nodup
  /-- The entries are the pages that are not handed out. -/
  free : ∀ i, i ∈ s.k.pages.entries ↔ i < stackSize ∧ pageAddr i ∉ s.pages
  index : s.k.pages.currentIndex.toNat = s.pages.length
  /-- No index wraps around, and `store_page` does not fail. -/
  noWrap : s.pages.length ≤ stackSize.toNat
  storePage : ∀ a ∈ s.pages, s.k.pages.storePageReturns = 1
  getStackPage : s.k.currentStackIndex < maxProcesses →
    s.k.getStackPage.1 ∈ stackPages ∧ s.k.getStackPage.1 ∉ s.stackPages
  handedStack : s.stackPages.Nodup
  stackEntries : s.k.freeStackPages.Nodup
  freeStack : ∀ a, a ∈ s.k.freeStackPages ↔ a ∈ stackPages ∧ a ∉ s.stackPages
  stackIndex : s.k.currentStackIndex = s.stackPages.length
  noWrapStack : s.stackPages.length ≤ maxProcesses
  storeStackPage : ∀ a ∈ s.stackPages, s.k.storeStackPageReturns = 1
  /-- The stacks that end at two stack pages do not overlap. -/
  apart : ∀ a ∈ s.stackPages, ∀ b ∈ s.stackPages, a ≠ b →
    a ≤ b - stackPageSize ∨ b ≤ a - stackPageSize
  /-- No stack reaches into the data pages. -/
  apartPages : ∀ a ∈ s.stackPages, ∀ b ∈ s.pages, b + pageSize ≤ a - stackPageSize

/-- The allocators conserve their pages, in every state any run reaches. -/
theorem allocator_conserves {s : AllocRun} (h : allocSystem.Reach s) : AllocOk s := by
  have hinv := AllocInv.of_reach h
  have hdata : ∀ a ∈ s.pages, a ∈ dataPages := fun a ha => hinv.pages.mem_all ha
  have hstack : ∀ a ∈ s.stackPages, a ∈ stackPages := fun a ha => hinv.stackPages.mem_all ha
  have hpages := hinv.pages.nodup_handed nodup_dataPages
  have hstacks := hinv.stackPages.nodup_handed nodup_stackPages
  constructor
  case getPage =>
    intro a k hget
    have hnext := hinv.getPage hget
    obtain ⟨i, hi, rfl⟩ := mem_dataPages.mp (hnext.pages.mem_all List.mem_cons_self)
    have hbounds := dataPage_bounds hi
    have hfresh := hnext.pages.nodup_handed nodup_dataPages
    exact ⟨hbounds.1, hbounds.2.1, hbounds.2.2, (List.nodup_cons.mp hfresh).1⟩
  case handed => exact hpages
  case entries => exact PageStack.nodup_entries (hinv.pages.nodup_free nodup_dataPages)
  case free =>
    intro i
    rw [← PageStack.mem_free_pageAddr, hinv.pages.mem_free_iff nodup_dataPages, mem_dataPages]
    refine and_congr_left fun _ => ?_
    constructor
    · rintro ⟨j, hj, he⟩
      have hi : j = i.toNat := dataPage_inj he
      exact UInt8.lt_iff_toNat_lt.mpr (hi ▸ hj)
    · intro hi
      exact ⟨i.toNat, UInt8.lt_iff_toNat_lt.mp hi, rfl⟩
  case index => exact hinv.index_eq
  case noWrap =>
    rw [← hinv.index_eq]
    exact UInt8.le_iff_toNat_le.mp hinv.index
  case storePage =>
    intro a ha
    exact if_pos (hinv.index_pos ha)
  case getStackPage =>
    intro hlt
    have hfree := Kernel.freeStackPages_of_getStackPage hlt
    have hmem : s.k.getStackPage.1 ∈ s.k.freeStackPages := hfree ▸ List.mem_cons_self
    exact (hinv.stackPages.mem_free_iff nodup_stackPages).mp hmem
  case handedStack => exact hstacks
  case stackEntries => exact hinv.stackPages.nodup_free nodup_stackPages
  case freeStack =>
    intro a
    exact hinv.stackPages.mem_free_iff nodup_stackPages
  case stackIndex => exact hinv.stackIndex_eq
  case noWrapStack => exact hinv.stackIndex_eq ▸ hinv.stackIndex
  case storeStackPage =>
    intro a ha
    exact if_pos (hinv.stackIndex_pos ha)
  case apart =>
    intro a ha b hb hne
    obtain ⟨i, -, rfl⟩ := mem_stackPages.mp (hstack a ha)
    obtain ⟨j, -, rfl⟩ := mem_stackPages.mp (hstack b hb)
    exact stackPage_apart fun he => hne (congrArg stackPage he)
  case apartPages =>
    intro a ha b hb
    obtain ⟨i, -, rfl⟩ := mem_stackPages.mp (hstack a ha)
    obtain ⟨j, hj, rfl⟩ := mem_dataPages.mp (hdata b hb)
    exact (dataPage_bounds hj).2.2.trans (stackPage_bounds i).1.le

/-- The allocators after their initialisation. -/
def allocStarted : AllocRun where
  k := { ({} : Kernel).initializeStackMemoryAllocator with
    pages := PageStack.initializeMemoryAllocator ⟨fun _ => 0, 0⟩ }
  pages := []
  stackPages := []

theorem init_allocStarted : allocSystem.init allocStarted := by
  exact ⟨{}, rfl, rfl, rfl⟩

/-- Two pages are handed out and the first of them is given back. -/
def pageReturned : Option AllocRun :=
  allocSystem.execute allocStarted
    [.getPage, .getStackPage, .getPage, .storePage (dataPage 1), .getPage]

theorem allocator_conserves_returned : AllocOk (pageReturned.get (by decide +kernel)) := by
  exact allocator_conserves ((System.Reach.start init_allocStarted).execute
    (Option.some_get _).symm)

/-! ## The reserved page -/

/-- `get_page` is not called when all pages but one are handed out. -/
def LeavesOne (s : AllocRun) : AllocAction → Prop
  | .getPage => s.pages.length + 1 < stackSize.toNat
  | _ => True

/-- The page at `DATA_ADDRESS` is the last of the free ones. -/
structure ReservedInv (s : AllocRun) : Prop where
  alloc : AllocInv s
  last : s.k.pages.free.getLast? = some dataAddress

namespace ReservedInv

variable {s t : AllocRun} {a : Addr} {k : Kernel}

theorem of_init (h : allocSystem.init s) : ReservedInv s := by
  refine ⟨.of_init h, ?_⟩
  obtain ⟨k, hpages, -, rfl⟩ := h
  show k.pages.initializeMemoryAllocator.free.getLast? = _
  rw [hpages, AllocInv.free_initial]
  exact List.getLast?_concat

theorem length_eq (h : ReservedInv s) :
    s.k.pages.free.length + s.pages.length = stackSize.toNat := by
  rw [h.alloc.pages.length_eq]
  simp [dataPages]

/-- The page that `get_page` returns is the last one exactly if no other is free. -/
theorem getPage_eq_iff (h : ReservedInv s) (hget : s.k.getPage = some (a, k)) :
    a ≠ dataAddress ↔ s.pages.length + 1 < stackSize.toNat := by
  obtain ⟨pages, hp, rfl⟩ := Kernel.getPage_eq_some hget
  have hfree := PageStack.free_of_getPage hp
  have hlast := h.last
  have hlen := h.length_eq
  have hnodup := h.alloc.pages.nodup_free nodup_dataPages
  rw [hfree] at hlast hlen hnodup
  cases hrest : pages.free with
  | nil =>
      rw [hrest] at hlast hlen
      have ha : a = dataAddress := by simpa using hlast
      have hfull : ¬s.pages.length + 1 < stackSize.toNat := by
        simp only [List.length_singleton] at hlen
        omega
      exact iff_of_false (fun hne => hne ha) hfull
  | cons b rest =>
      rw [hrest] at hlast hlen hnodup
      have hmem : dataAddress ∈ b :: rest := by
        rw [List.getLast?_cons_cons] at hlast
        exact List.mem_of_getLast? hlast
      have hne : a ≠ dataAddress := by
        rintro rfl
        exact (List.nodup_cons.mp hnodup).1 hmem
      have hroom : s.pages.length + 1 < stackSize.toNat := by
        simp only [List.length_cons] at hlen
        omega
      exact iff_of_true hne hroom

/-- Every call keeps the reserved page last, as long as one page is left. -/
theorem next {c : AllocAction} (h : ReservedInv s) (hg : LeavesOne s c)
    (hn : allocSystem.next s c = some t) : ReservedInv t := by
  refine ⟨h.alloc.next hn, ?_⟩
  cases c with
  | getPage =>
      obtain ⟨⟨a, k⟩, hget, rfl⟩ := Option.map_eq_some_iff.mp hn
      have hne := (h.getPage_eq_iff hget).mpr hg
      obtain ⟨pages, hp, rfl⟩ := Kernel.getPage_eq_some hget
      have hfree := PageStack.free_of_getPage hp
      have hlast := h.last
      rw [hfree] at hlast
      show pages.free.getLast? = _
      cases hrest : pages.free with
      | nil =>
          rw [hrest] at hlast
          have ha : a = dataAddress := by simpa using hlast
          exact absurd ha hne
      | cons b rest =>
          rwa [hrest, List.getLast?_cons_cons] at hlast
  | storePage address =>
      simp only [allocSystem] at hn
      split at hn
      next ha =>
        cases hn
        have hpos := h.alloc.index_pos ha
        have hpage := isPage_of_mem_dataPages (h.alloc.pages.mem_all ha)
        have hlast := h.last
        show (s.k.pages.storePage address).free.getLast? = _
        rw [PageStack.free_storePage hpage hpos]
        cases hfree : s.k.pages.free with
        | nil =>
            rw [hfree] at hlast
            cases hlast
        | cons b rest =>
            rw [List.getLast?_cons_cons]
            rwa [hfree] at hlast
      next => cases hn
  | getStackPage =>
      cases hn
      obtain ⟨page, index, he⟩ := s.k.getStackPage_eq
      show s.k.getStackPage.2.pages.free.getLast? = _
      rw [he]
      exact h.last
  | storeStackPage address =>
      simp only [allocSystem] at hn
      split at hn
      next ha =>
        cases hn
        exact h.last
      next => cases hn

end ReservedInv

/-- While `get_page` always leaves a page, it does not return `DATA_ADDRESS`.  It
does so the first time it leaves none. -/
theorem first_page_reserved {s : AllocRun} (h : allocSystem.ReachBy LeavesOne s) {a : Addr}
    {k : Kernel} (hget : s.k.getPage = some (a, k)) :
    a ≠ dataAddress ↔ s.pages.length + 1 < stackSize.toNat := by
  have hinv : ReservedInv s :=
    h.invariant (fun _ hs => .of_init hs) fun _ _ _ hi hg hn => hi.next hg hn
  exact hinv.getPage_eq_iff hget

theorem getPage_allocStarted : allocStarted.k.getPage.isSome := by decide +kernel

theorem first_page_reserved_start : (allocStarted.k.getPage.get getPage_allocStarted).1 ≠ dataAddress ↔
    allocStarted.pages.length + 1 < stackSize.toNat := by
  exact first_page_reserved (.init init_allocStarted) (Option.some_get getPage_allocStarted).symm

/-- The last free page is the reserved one. -/
theorem first_page_allocated :
    ¬∀ s, allocSystem.Reach s → ∀ a k, s.k.getPage = some (a, k) → a ≠ dataAddress := by
  intro hall
  obtain ⟨s, hs, hlast⟩ := System.exists_reach_of_execute init_allocStarted
    (List.replicate 254 .getPage)
    (fun s => (s.k.getPage.map Prod.fst) = some dataAddress) (by decide +kernel)
  obtain ⟨⟨a, k⟩, hget, ha⟩ := Option.map_eq_some_iff.mp (of_decide_eq_true hlast)
  exact hall s hs a k hget ha

end TPE
