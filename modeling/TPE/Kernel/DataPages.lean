import TPE.Library.Runs
import TPE.Library.Slots
import TPE.Kernel.AllocatorRuns
import TPE.Kernel.ProcessManager

/-!
# The data pages of a process

A process gets data pages from `sys_malloc` and gives them back to `sys_free`.
Its structure records them in an array with a counter.

Both searches of the array look for an address, and `NULL` is the mark of an
empty entry.  `sys_free(0)` finds an empty entry and counts it down, and a
`sys_malloc` that gets no page counts an entry up that stays empty.
-/

namespace TPE

open Function

namespace Process

/-- The pages recorded in the process, in the order of the array. -/
def recorded (c : Process) : List Addr :=
  (occupied maxDataPages null c.dataPage).map c.dataPage

/-- `add_data_page` -/
def addDataPage (c : Process) (page : Addr) : Process :=
  match (List.range maxDataPages).find? fun i => c.dataPage i = null with
  | some i =>
      { c with
        nDataPage := (c.nDataPage + 1) % 2 ^ 64
        dataPage := update c.dataPage i page }
  | none => c

/-- `remove_data_page` -/
def removeDataPage (c : Process) (page : Addr) : Process :=
  match (List.range maxDataPages).find? fun i => c.dataPage i = page with
  | some i =>
      { c with
        nDataPage := (c.nDataPage + 2 ^ 64 - 1) % 2 ^ 64
        dataPage := update c.dataPage i null }
  | none => c

/-- What `data_pages_process` writes to `page_array`. -/
def dataPagesProcess (c : Process) : List Addr :=
  collectFrom null c.dataPage maxDataPages 0 (int32 c.nDataPage) ++ [null]

/-- No entry of the array is empty. -/
def Full (c : Process) : Prop := ∀ i, i < maxDataPages → c.dataPage i ≠ null

instance (c : Process) : Decidable c.Full :=
  inferInstanceAs (Decidable (∀ i, i < maxDataPages → _))

/-- The counter counts the recorded pages. -/
def Counted (c : Process) : Prop := c.nDataPage = c.recorded.length

variable {c : Process} {page : Addr}

theorem length_recorded (c : Process) :
    c.recorded.length = (occupied maxDataPages null c.dataPage).length := by
  simp [recorded]

theorem length_recorded_le (c : Process) : c.recorded.length ≤ maxDataPages := by
  rw [length_recorded]
  exact length_occupied_le

/-- The first entry that holds `page`. -/
theorem find_dataPage {i : Nat}
    (h : (List.range maxDataPages).find? (fun i => c.dataPage i = page) = some i) :
    i < maxDataPages ∧ c.dataPage i = page := by
  have hmem := List.mem_of_find?_eq_some h
  have heq := List.find?_some h
  exact ⟨List.mem_range.mp hmem, of_decide_eq_true heq⟩

theorem not_find_dataPage
    (h : (List.range maxDataPages).find? (fun i => c.dataPage i = page) = none) :
    ∀ i, i < maxDataPages → c.dataPage i ≠ page := by
  intro i hi he
  exact List.find?_eq_none.mp h i (List.mem_range.mpr hi) (decide_eq_true he)

/-- A page is added to the first empty entry, or not at all. -/
theorem addDataPage_cases (c : Process) (page : Addr) :
    (∃ i, i < maxDataPages ∧ c.dataPage i = null ∧
      c.addDataPage page = { c with
        nDataPage := (c.nDataPage + 1) % 2 ^ 64
        dataPage := update c.dataPage i page }) ∨ c.Full ∧ c.addDataPage page = c := by
  unfold addDataPage
  split
  next i hfind =>
    obtain ⟨hi, hempty⟩ := find_dataPage hfind
    exact Or.inl ⟨i, hi, hempty, rfl⟩
  next hfind => exact Or.inr ⟨not_find_dataPage hfind, rfl⟩

/-- A page is removed from the first entry that holds it, or from none. -/
theorem removeDataPage_cases (c : Process) (page : Addr) :
    (∃ i, i < maxDataPages ∧ c.dataPage i = page ∧
      c.removeDataPage page = { c with
        nDataPage := (c.nDataPage + 2 ^ 64 - 1) % 2 ^ 64
        dataPage := update c.dataPage i null }) ∨
    (∀ i, i < maxDataPages → c.dataPage i ≠ page) ∧ c.removeDataPage page = c := by
  unfold removeDataPage
  split
  next i hfind =>
    obtain ⟨hi, hpage⟩ := find_dataPage hfind
    exact Or.inl ⟨i, hi, hpage, rfl⟩
  next hfind => exact Or.inr ⟨not_find_dataPage hfind, rfl⟩

/-- Adding a page keeps the counter right unless `NULL` is put into an empty entry. -/
theorem counted_addDataPage (h : c.Counted) : (c.addDataPage page).Counted ↔ page ≠ null ∨ c.Full := by
  have hle := c.length_recorded_le
  have hmax : maxDataPages = 64 := rfl
  rcases c.addDataPage_cases page with ⟨i, hi, hempty, he⟩ | ⟨hfull, he⟩
  · rw [he]
    unfold Counted at *
    rw [length_recorded] at *
    have hlen := length_occupied_update null c.dataPage hi page
    have hroom : ¬c.Full := fun hfull => hfull i hi hempty
    rw [if_neg (by simp [hempty])] at hlen
    simp only [or_iff_left hroom]
    by_cases hpage : page = null
    · rw [if_neg (by simp [hpage])] at hlen
      refine iff_of_false ?_ (by simp [hpage])
      omega
    · rw [if_pos hpage] at hlen
      refine iff_of_true ?_ hpage
      omega
  · rw [he]
    exact iff_of_true h (Or.inr hfull)

/-- Removing a page keeps the counter right unless `NULL` is found in an empty entry. -/
theorem counted_removeDataPage (h : c.Counted) :
    (c.removeDataPage page).Counted ↔ page ≠ null ∨ c.Full := by
  have hle := c.length_recorded_le
  have hmax : maxDataPages = 64 := rfl
  rcases c.removeDataPage_cases page with ⟨i, hi, hpage, he⟩ | ⟨hnot, he⟩
  · rw [he]
    unfold Counted at *
    rw [length_recorded] at *
    have hlen := length_occupied_update null c.dataPage hi null
    rw [if_neg (by simp : ¬null ≠ null), hpage] at hlen
    simp only
    by_cases hnull : page = null
    · have hroom : ¬c.Full := fun hfull => hfull i hi (hpage.trans hnull)
      rw [if_neg (by simp [hnull])] at hlen
      refine iff_of_false ?_ (by simp [hnull, hroom])
      omega
    · rw [if_pos hnull] at hlen
      refine iff_of_true ?_ (Or.inl hnull)
      omega
  · rw [he]
    refine iff_of_true h ?_
    by_cases hnull : page = null
    · subst hnull
      exact Or.inr hnot
    · exact Or.inl hnull

/-- With the right counter every recorded page is listed. -/
theorem Counted.dataPagesProcess_eq (h : c.Counted) :
    c.dataPagesProcess = c.recorded ++ [null] := by
  have hle := c.length_recorded_le
  have hmax : maxDataPages = 64 := rfl
  have hcount : int32 c.nDataPage = (occupied maxDataPages null c.dataPage).length := by
    rw [h, ← length_recorded]
    exact int32_of_range (by omega) (by omega)
  rw [dataPagesProcess, hcount, collectFrom_occupied, recorded]

end Process

namespace Kernel

variable {k k' : Kernel} {p : Addr}

/-! ## Destruction -/

/-- With the right counter the loop of `free_data_pages` gives back every
recorded page it has left, each once. -/
theorem freeDataPagesFrom_pages (rounds i : Nat) {slots : List Nat}
    (hslots : slots = (List.range' i rounds).filter fun i => (k.processes p).dataPage i ≠ null)
    (hcount : (k.processes p).nDataPage = slots.length) :
    (freeDataPagesFrom p rounds i k).pages =
      (slots.map (k.processes p).dataPage).foldl PageStack.storePage k.pages ∧
    ((freeDataPagesFrom p rounds i k).processes p).nDataPage = 0 := by
  induction rounds generalizing i k slots with
  | zero =>
      subst hslots
      exact ⟨rfl, hcount⟩
  | succ rounds ih =>
      rw [List.range'_succ, List.filter_cons] at hslots
      rw [freeDataPagesFrom]
      by_cases hocc : (k.processes p).dataPage i ≠ null
      · rw [if_pos (by simpa using hocc)] at hslots
        have hpos : 0 < (k.processes p).nDataPage := by
          rw [hcount, hslots]
          exact Nat.succ_pos _
        rw [if_pos hpos, if_pos hocc]
        let k₁ := (k.storePage ((k.processes p).dataPage i)).writeProcess p fun c =>
          { c with nDataPage := c.nDataPage - 1 }
        have hself : k₁.processes p =
            { k.processes p with nDataPage := (k.processes p).nDataPage - 1 } := update_self _ _ _
        have hrest := ih (k := k₁) (i + 1) rfl (by
          rw [hself]
          simp only
          rw [hcount, hslots]
          simp)
        rw [hself] at hrest
        subst hslots
        exact hrest
      · rw [if_neg (by simpa using hocc)] at hslots
        have hrest := ih (i + 1) hslots hcount
        split
        · exact hrest
        next hzero =>
          have hnil : slots = [] := List.length_eq_zero_iff.mp (by omega)
          subst hnil
          exact ⟨rfl, by omega⟩

/-- What `free_data_pages` does when the counter is right. -/
theorem freeDataPages_eq (h : (k.processes p).Counted) :
    (k.freeDataPages p).pages = (k.processes p).recorded.foldl PageStack.storePage k.pages ∧
    ((k.freeDataPages p).processes p).nDataPage = 0 := by
  rw [Process.Counted, Process.length_recorded] at h
  exact freeDataPagesFrom_pages maxDataPages 0 (by rw [occupied, List.range_eq_range']) h

/-! ## The system calls -/

/-- `get_page`, with what it does when no page is free: it locks its mutex once
more, and returns 0 only as long as the mutex is not open. -/
def getPageOrNull (k : Kernel) : Option (Addr × Kernel) :=
  match k.getPage with
  | some (page, k) => some (page, k)
  | none => if k.mutexIsOpen k.memoryMutexKey then none else some (0, k)

/-- `sys_malloc` -/
def sysMalloc (k : Kernel) : Option (Addr × Kernel) :=
  k.getPageOrNull.map fun (page, k) =>
    (page, k.writeProcess k.getCurrentProcess fun c => c.addDataPage page)

/-- `sys_free(address)`, with its return value -/
def sysFree (k : Kernel) (address : Addr) : Nat × Kernel :=
  let k := k.writeProcess k.getCurrentProcess fun c => c.removeDataPage address
  (k.pages.storePageReturns, k.storePage address)

theorem getPageOrNull_spec {page : Addr} (h : k.getPageOrNull = some (page, k')) :
    k.getPage = some (page, k') ∨ page = 0 ∧ k' = k ∧ k.getPage = none := by
  unfold getPageOrNull at h
  split at h
  next page₁ k₁ hget =>
    cases h
    exact Or.inl hget
  next hget =>
    split at h
    next => cases h
    next =>
      cases h
      exact Or.inr ⟨rfl, rfl, hget⟩

/-- What `sys_malloc` does to the process that calls it. -/
theorem sysMalloc_spec {page : Addr} (h : k.sysMalloc = some (page, k')) :
    k'.processes = update k.processes k.getCurrentProcess
      ((k.processes k.getCurrentProcess).addDataPage page) ∧
    k'.getCurrentProcess = k.getCurrentProcess ∧
    (k.pages.getPage = some (page, k'.pages) ∨ page = 0 ∧ k'.pages = k.pages ∧ k.getPage = none) := by
  obtain ⟨⟨page₁, k₁⟩, hget, he⟩ := Option.map_eq_some_iff.mp h
  cases he
  rcases getPageOrNull_spec hget with hget | ⟨rfl, rfl, hnone⟩
  · obtain ⟨pages, hpages, rfl⟩ := getPage_eq_some hget
    exact ⟨rfl, rfl, Or.inl hpages⟩
  · exact ⟨rfl, rfl, Or.inr ⟨rfl, rfl, hnone⟩⟩

/-! ## Runs of one process -/

/-- The calls of a process. -/
inductive DataAction where
  | malloc
  | free (address : Addr)

/-- The running process from its creation on, with no page recorded. -/
def dataSystem : System Kernel DataAction where
  init k := (k.processes k.getCurrentProcess).nDataPage = 0 ∧
    ∀ i, (k.processes k.getCurrentProcess).dataPage i = null
  next
    | k, .malloc => k.sysMalloc.map Prod.snd
    | k, .free address => some (k.sysFree address).2

/-- No entry of the array is written or read as a page although it is empty: a
page is handed out, and not `NULL` is given back, or the array is full. -/
def KeepsCount (k : Kernel) : DataAction → Prop
  | .malloc => k.getPage.isSome ∨ (k.processes k.getCurrentProcess).Full
  | .free address => address ≠ null ∨ (k.processes k.getCurrentProcess).Full

/-- The process's pages are counted, and so they are listed and given back. -/
structure DataOk (k : Kernel) : Prop where
  counted : (k.processes k.getCurrentProcess).Counted
  /-- The counter is far from wrapping around. -/
  noWrap : (k.processes k.getCurrentProcess).nDataPage ≤ maxDataPages
  listed : (k.processes k.getCurrentProcess).dataPagesProcess =
    (k.processes k.getCurrentProcess).recorded ++ [null]
  /-- Destruction gives back every recorded page, each once. -/
  freed : (k.freeDataPages k.getCurrentProcess).pages =
    (k.processes k.getCurrentProcess).recorded.foldl PageStack.storePage k.pages

theorem dataOk_of_counted (h : (k.processes k.getCurrentProcess).Counted) : DataOk k where
  counted := h
  noWrap := h ▸ Process.length_recorded_le _
  listed := h.dataPagesProcess_eq
  freed := (freeDataPages_eq h).1

/-- A call keeps the counter right exactly if it meets the guard. -/
theorem counted_next {a : DataAction} (h : (k.processes k.getCurrentProcess).Counted)
    (hn : dataSystem.next k a = some k') :
    (k'.processes k'.getCurrentProcess).Counted ↔ KeepsCount k a := by
  cases a with
  | malloc =>
      obtain ⟨⟨page, k₁⟩, hmalloc, rfl⟩ := Option.map_eq_some_iff.mp hn
      obtain ⟨hprocs, hcur, hpages⟩ := sysMalloc_spec hmalloc
      simp only
      rw [hcur, hprocs, update_self, Process.counted_addDataPage h]
      refine or_congr_left ?_
      rcases hpages with hget | ⟨rfl, -, hnone⟩
      · have hpage : page ≠ null := (PageStack.isPage_of_mem_free
          (PageStack.free_of_getPage hget ▸ List.mem_cons_self)).ne_null
        refine iff_of_true hpage ?_
        simp [getPage, hget]
      · simp [hnone]
  | free address =>
      cases hn
      show ((update k.processes k.getCurrentProcess
        ((k.processes k.getCurrentProcess).removeDataPage address)) k.getCurrentProcess).Counted ↔ _
      rw [update_self]
      exact Process.counted_removeDataPage h

/-- A process with no page recorded. -/
theorem init_twoProcesses_data : dataSystem.init twoProcesses := by
  exact ⟨rfl, fun _ => rfl⟩

/-- A test for the guard. -/
def keepsCount (k : Kernel) : DataAction → Bool
  | .malloc => k.getPage.isSome
  | .free address => address ≠ null

theorem keepsCount_of_test (k : Kernel) (a : DataAction) (h : keepsCount k a) : KeepsCount k a := by
  cases a with
  | malloc => exact Or.inl h
  | free address => exact Or.inl (of_decide_eq_true h)

/-- Two pages are taken and the first is given back. -/
def pageFreed : Option Kernel :=
  dataSystem.executeBy keepsCount twoProcesses [.malloc, .malloc, .free (pageAddr 1)]

end Kernel

end TPE
