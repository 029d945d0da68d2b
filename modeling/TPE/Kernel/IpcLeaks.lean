import TPE.Kernel.CondVariable
import TPE.Kernel.FifoCalls

/-!
# What open and close leave behind

A mutex owns the page of its queue.  A condition variable and a fifo own one
too, and a mutex, which they open by name.

`cond_close` closes the mutex of its variable.  If another mutex had the name
before, that one is closed.  `fifo_close` does not close the fifo's mutex: its
page and its slot are gone, unless a mutex of the name was there before.  And a
fifo in a slot from 64 on has no descriptor, so `fifo_close` finds it closed.

`fifo_read` takes a page for its request and one for the node in the queue.  If
the second test finds the fifo closed, it returns without giving the first one
back.
-/

namespace TPE

open Function

namespace Kernel

variable {k k' : Kernel} {key : Int} {q : Addr}

/-! ## Open and close -/

/-- The other state has the same free pages and the same open slots. -/
structure Restores (k k' : Kernel) : Prop where
  pages : ∀ a, a ∈ k'.pages.free ↔ a ∈ k.pages.free
  mutexes : ∀ i, (k'.openMutexes i).state = .opened ↔ (k.openMutexes i).state = .opened
  conds : ∀ i, (k'.openConds i).state = .opened ↔ (k.openConds i).state = .opened
  fifos : ∀ i, (k'.openFifos i).state = .opened ↔ (k.openFifos i).state = .opened

/-- The object can be opened, and closing it right afterwards restores the state. -/
def RoundTrip (k : Kernel) (opening : Option (Int × Kernel))
    (close : Kernel → Int → Option (Int × Kernel)) : Prop :=
  ∃ i k₁ r k₂, opening = some (i, k₁) ∧ close k₁ i = some (r, k₂) ∧ Restores k k₂

/-- The allocator is free and has the pages for two queues. -/
structure FreeResources (k : Kernel) : Prop where
  memory : k.MemoryFree
  pages : 2 ≤ k.pages.free.length

theorem currentIndex_of_free {s : PageStack} (h : s.free ≠ []) : s.currentIndex < stackSize := by
  rw [UInt8.lt_iff_toNat_lt]
  by_contra hle
  refine h ?_
  unfold PageStack.free
  rw [Nat.sub_eq_zero_of_le (Nat.not_lt.mp hle)]
  rfl

theorem getPage_of_free {s : PageStack} (h : s.free ≠ []) : ∃ a s', s.getPage = some (a, s') := by
  exact ⟨_, _, if_pos (currentIndex_of_free h)⟩

/-- A page that was just taken can be given back. -/
theorem index_of_getPage {s s' : PageStack} {a : Addr} (h : s.getPage = some (a, s')) :
    0 < s'.currentIndex ∧ IsPage a := by
  constructor
  · unfold PageStack.getPage at h
    split at h
    next hlt =>
      cases h
      rw [UInt8.lt_iff_toNat_lt] at hlt ⊢
      have hsize : stackSize.toNat = 255 := rfl
      have hone : (1 : UInt8).toNat = 1 := rfl
      have hzero : (0 : UInt8).toNat = 0 := rfl
      rw [UInt8.toNat_add, hone, hzero]
      omega
    next => cases h
  · have hmem : a ∈ s.free := by
      rw [PageStack.free_of_getPage h]
      exact List.mem_cons_self
    exact PageStack.isPage_of_mem_free hmem

/-! ## Queues -/

/-- A queue that is empty does not keep the allocator from returning. -/
theorem MemoryFree.emptied (h : k.MemoryFree) (q : Addr) (pages : PageStack) :
    MemoryFree { k with pages, queues := update k.queues q [] } := by
  rcases h with hclosed | ⟨hword, hnull | hnil⟩
  · exact .inl hclosed
  · exact .inr ⟨hword, .inl hnull⟩
  · refine .inr ⟨hword, .inr ?_⟩
    show update k.queues q [] _ = []
    by_cases he : (k.openMutexes k.memoryMutexKey).processQueue = q
    · rw [he, update_self]
    · rw [update_of_ne he]
      exact hnil

theorem createQueue_free (h : k.MemoryFree) (hpages : k.pages.free ≠ []) :
    ∃ q pages, k.pages.getPage = some (q, pages) ∧
      k.createQueue = some (q, { k with pages, queues := update k.queues q [] }) := by
  obtain ⟨q, pages, hget⟩ := getPage_of_free hpages
  refine ⟨q, pages, hget, ?_⟩
  rw [createQueue, if_pos h, getPage, hget]
  rfl

/-- The queue of an object that nobody waits for is given back. -/
theorem destroyQueue_empty (hempty : k.isEmpty q) (hfree : k.MemoryFree) :
    k.destroyQueue q = some (k.storePage q) := by
  rw [destroyQueue_isEmpty hempty, if_pos hfree]

/-! ## Mutexes -/

/-- A mutex with an empty queue does not keep the allocator from returning, nor
does a closed one. -/
theorem MemoryFree.writeMutex (h : k.MemoryFree) (key : Int) (f : Mutex → Mutex)
    (hf : (f (k.openMutexes key)).state = .closed ∨
      (f (k.openMutexes key)).locked = .unlocked ∧
        k.isEmpty (f (k.openMutexes key)).processQueue) :
    (k.writeMutex key f).MemoryFree := by
  by_cases hkey : key = k.memoryMutexKey
  · subst hkey
    rcases hf with hclosed | ⟨hword, hempty⟩
    · refine .inl fun hopen => ?_
      have hstate := hopen.2.2
      simp only [Kernel.writeMutex, update_self, hclosed] at hstate
      cases hstate
    · refine .inr ?_
      simp only [Kernel.writeMutex, update_self]
      exact ⟨hword, hempty⟩
  · have hother : (k.writeMutex key f).openMutexes k.memoryMutexKey =
        k.openMutexes k.memoryMutexKey := update_of_ne (Ne.symm hkey) _ _
    unfold MemoryFree mutexIsOpen isEmpty at *
    rw [show (k.writeMutex key f).memoryMutexKey = k.memoryMutexKey from rfl, hother]
    exact h

/-- `mutex_open` with a new name. -/
theorem mutexOpen_fresh {name : CString} {i : Nat} (hs : k.mutexSearch name = .closed i)
    (h : k.MemoryFree) (hpages : k.pages.free ≠ []) :
    ∃ q pages, k.pages.getPage = some (q, pages) ∧
      k.mutexOpen name = some ((i : Int), { k with
        pages
        queues := update k.queues q []
        openMutexes := update k.openMutexes i ⟨name, .unlocked, .opened, q⟩ }) ∧
      MemoryFree { k with
        pages
        queues := update k.queues q []
        openMutexes := update k.openMutexes i ⟨name, .unlocked, .opened, q⟩ } := by
  obtain ⟨q, pages, hget, hcreate⟩ := createQueue_free h hpages
  refine ⟨q, pages, hget, ?_, ?_⟩
  · unfold mutexOpen
    rw [hs]
    simp only [hcreate]
    rfl
  · refine (h.emptied q pages).writeMutex i (fun _ => ⟨name, .unlocked, .opened, q⟩)
      (Or.inr ⟨rfl, Or.inr ?_⟩)
    exact update_self _ _ _

/-- `mutex_close` of a mutex nobody waits for. -/
theorem mutexClose_empty (hopen : k.mutexIsOpen key) (h : k.MemoryFree)
    (hempty : k.isEmpty (k.openMutexes key).processQueue) :
    k.mutexClose key = some (1, (k.writeMutex key fun m => { m with state := .closed }).storePage
      (k.openMutexes key).processQueue) := by
  rw [mutexClose, if_pos hopen]
  simp only [releaseWaiters, if_pos hempty, Option.bind_some]
  rw [destroyQueue_empty (by exact hempty) (h.writeMutex key _ (Or.inl rfl))]
  rfl

theorem mutexSearch_closed {name : CString} {i : Nat} (hs : k.mutexSearch name = .closed i) :
    i < maxMutexes ∧ (k.openMutexes i).state ≠ .opened := by
  obtain ⟨hlt, hclosed⟩ := scanFrom_closed hs
  have hlt' : i < maxMutexes := by omega
  refine ⟨hlt', fun hopen => ?_⟩
  have hnot : ¬k.mutexIsOpen i := by simpa using hclosed
  exact hnot ⟨by omega, by exact_mod_cast hlt', hopen⟩

theorem mutexSearch_found {name : CString} {i : Nat} (hs : k.mutexSearch name = .found i) :
    k.mutexIsOpen i := by
  simpa using (scanFrom_found hs).2

/-- A page that was taken is given back on top of the others. -/
theorem free_of_given_back {s s' t : PageStack} {a : Addr} (hget : s.getPage = some (a, s'))
    (ht : t.free = s'.free) (hindex : t.currentIndex = s'.currentIndex) :
    (t.storePage a).free = s.free ∧ (t.storePage a).currentIndex = s.currentIndex := by
  obtain ⟨hpos, hpage⟩ := index_of_getPage hget
  constructor
  · rw [PageStack.free_storePage hpage (hindex ▸ hpos), ht, PageStack.free_of_getPage hget]
  · rw [PageStack.storePage, if_pos (hindex ▸ hpos)]
    unfold PageStack.getPage at hget
    split at hget
    next =>
      cases hget
      simp only [hindex]
      exact UInt8.add_sub_cancel _ _
    next => cases hget

/-- A slot that was closed is closed again. -/
theorem update_state_iff {α : Type} {table : Int → α} {i : Int} {x y : α} (state : α → SlotState)
    (hold : state (table i) ≠ .opened) (hy : state y = .closed) (j : Int) :
    state (update (update table i x) i y j) = .opened ↔ state (table j) = .opened := by
  rw [update_idem]
  by_cases hj : j = i
  · subst hj
    simp only [update_self, hy, hold, iff_false]
    exact fun hc => nomatch hc
  · rw [update_of_ne hj]

/-- A mutex is given back whole. -/
theorem mutex_roundTrip {name : CString} {i : Nat} (hfree : k.FreeResources)
    (hs : k.mutexSearch name = .closed i) :
    k.RoundTrip (k.mutexOpen name) mutexClose := by
  obtain ⟨hlt, hclosed⟩ := mutexSearch_closed hs
  obtain ⟨q, pages, hget, hopening, hmemory⟩ := mutexOpen_fresh hs hfree.memory
    (List.ne_nil_of_length_pos (by have := hfree.pages; omega))
  refine ⟨_, _, _, _, hopening, mutexClose_empty ⟨by omega, by exact_mod_cast hlt, ?_⟩ hmemory ?_,
    ?_⟩
  · simp only [update_self]
  · refine Or.inr ?_
    simp only [update_self]
  · constructor
    · intro a
      simp only [writeMutex, storePage, update_self]
      rw [(free_of_given_back hget rfl rfl).1]
    · intro j
      exact update_state_iff Mutex.state hclosed rfl j
    · exact fun _ => Iff.rfl
    · exact fun _ => Iff.rfl

/-! ## Condition variables -/

theorem condSearch_closed {name : CString} {i : Nat} (hs : k.condSearch name = .closed i) :
    i < maxCondVar ∧ (k.openConds i).state ≠ .opened := by
  obtain ⟨hlt, hclosed⟩ := scanFrom_closed hs
  exact ⟨by omega, by simpa using hclosed⟩

/-- `cond_close` of a variable nobody waits for. -/
theorem condClose_empty (hopen : k.condIsOpen key) (h : k.MemoryFree)
    (hempty : k.isEmpty (k.openConds key).processQueue) :
    k.condClose key =
      ((k.storePage (k.openConds key).processQueue).mutexClose (k.openConds key).lockQueue).map
        fun (_, k) => (1, k.writeCond key fun v => { v with state := .closed }) := by
  rw [condClose, if_pos hopen, condBroadcast, if_pos hopen]
  simp only [releaseWaiters, if_pos hempty, Option.map_some, Option.bind_some]
  rw [destroyQueue_empty hempty h]
  rfl

/-- A closed mutex stays closed. -/
theorem mutexClose_closes {r : Int} (hopen : k.mutexIsOpen key)
    (h : k.mutexClose key = some (r, k')) : (k'.openMutexes key).state = .closed := by
  rw [mutexClose, if_pos hopen] at h
  obtain ⟨k₁, -, h⟩ := Option.bind_eq_some_iff.mp h
  obtain ⟨k₂, hdestroy, he⟩ := Option.map_eq_some_iff.mp h
  cases he
  obtain ⟨pages, queues, rfl⟩ := destroyQueue_eq hdestroy
  simp only [writeMutex, update_self]

/-- `cond_open` of a new name, after the variable's mutex was opened. -/
theorem condOpen_fresh {name : CString} {i : Nat} {lock : Int} (hs : k.condSearch name = .closed i)
    (hlock : k.mutexOpen (condLockName i) = some (lock, k')) (h : k'.MemoryFree)
    (hpages : k'.pages.free ≠ []) :
    ∃ q pages, k'.pages.getPage = some (q, pages) ∧
      k.condOpen name = some ((i : Int), { k' with
        pages
        queues := update k'.queues q []
        openConds := update k'.openConds i ⟨name, .opened, lock, q⟩ }) ∧
      MemoryFree { k' with
        pages
        queues := update k'.queues q []
        openConds := update k'.openConds i ⟨name, .opened, lock, q⟩ } := by
  obtain ⟨q, pages, hget, hcreate⟩ := createQueue_free h hpages
  refine ⟨q, pages, hget, ?_, h.emptied q pages⟩
  unfold condOpen
  rw [hs]
  simp only [createNewCond, hlock, Option.bind_some, hcreate]
  rfl

/-- A condition variable is given back whole, if no mutex had the name of its
mutex before. -/
theorem cond_roundTrip_iff {name : CString} {i : Nat} (hfree : k.FreeResources)
    (hs : k.condSearch name = .closed i) :
    k.RoundTrip (k.condOpen name) condClose ↔
      ∀ j, k.mutexSearch (condLockName i) ≠ .found j := by
  obtain ⟨hlt, hclosed⟩ := condSearch_closed hs
  have hlen := hfree.pages
  have hne : k.pages.free ≠ [] := List.ne_nil_of_length_pos (by omega)
  have hkey : (0 : Int) ≤ i ∧ (i : Int) < maxCondVar := ⟨by omega, by exact_mod_cast hlt⟩
  cases hm : k.mutexSearch (condLockName i) with
  | found j =>
      -- the close takes the mutex that was there before
      refine iff_of_false ?_ fun h => h j rfl
      have hlock : k.mutexOpen (condLockName i) = some ((j : Int), k) := by
        unfold mutexOpen
        rw [hm]
      obtain ⟨q, pages, hget, hopening, hmemory⟩ := condOpen_fresh hs hlock hfree.memory hne
      rintro ⟨i', k₁, r, k₂, ho, hc, hr⟩
      rw [hopening] at ho
      cases ho
      rw [condClose_empty ⟨hkey.1, hkey.2, by simp only [update_self]⟩ hmemory
        (Or.inr (by simp only [update_self]))] at hc
      obtain ⟨⟨r', k₃⟩, hmutex, he⟩ := Option.map_eq_some_iff.mp hc
      cases he
      have hopen := mutexSearch_found hm
      simp only [update_self] at hmutex
      have hstate := mutexClose_closes (by exact hopen) hmutex
      have hback := (hr.mutexes j).mpr hopen.2.2
      simp only [writeCond] at hback
      rw [hstate] at hback
      cases hback
  | closed j =>
      refine iff_of_true ?_ fun j' he => by cases he
      obtain ⟨hjlt, hjclosed⟩ := mutexSearch_closed hm
      obtain ⟨m, pages₁, hget₁, hlock, hmemory₁⟩ := mutexOpen_fresh hm hfree.memory hne
      have hlen₁ := congrArg List.length (PageStack.free_of_getPage hget₁)
      rw [List.length_cons] at hlen₁
      obtain ⟨q, pages, hget, hopening, hmemory⟩ := condOpen_fresh hs hlock hmemory₁
        (List.ne_nil_of_length_pos (by show 0 < pages₁.free.length; omega))
      have hstill : update (update k.queues m []) q [] m = [] := by
        by_cases he : m = q
        · rw [he, update_self]
        · rw [update_of_ne he, update_self]
      refine ⟨_, _, ?result, ?after, hopening, ?close, ?restores⟩
      case close =>
        rw [condClose_empty ⟨hkey.1, hkey.2, by simp only [update_self]⟩ hmemory
          (Or.inr (by simp only [update_self]))]
        simp only [update_self]
        rw [mutexClose_empty
          ⟨by omega, by exact_mod_cast hjlt, by simp only [storePage, update_self]⟩
          (by exact hmemory)
          (Or.inr (by simp only [storePage, update_self, hstill]))]
        rfl
      case restores =>
        obtain ⟨hfree₂, hindex₂⟩ := free_of_given_back hget rfl rfl
        constructor
        · intro a
          simp only [writeCond, writeMutex, storePage, update_self]
          rw [(free_of_given_back hget₁ hfree₂ hindex₂).1]
        · intro l
          exact update_state_iff Mutex.state hjclosed rfl l
        · intro l
          exact update_state_iff CondVariable.state hclosed rfl l
        · exact fun _ => Iff.rfl
  | full =>
      refine iff_of_true ?_ fun j' he => by cases he
      have hlock : k.mutexOpen (condLockName i) = some (maxOpenError, k) := by
        unfold mutexOpen
        rw [hm]
      obtain ⟨q, pages, hget, hopening, hmemory⟩ := condOpen_fresh hs hlock hfree.memory hne
      refine ⟨_, _, ?failed, ?left, hopening, ?closing, ?same⟩
      case closing =>
        rw [condClose_empty ⟨hkey.1, hkey.2, by simp only [update_self]⟩ hmemory
          (Or.inr (by simp only [update_self]))]
        simp only [update_self]
        rw [mutexClose, if_neg (by rintro ⟨h0, -⟩; exact absurd h0 (by decide))]
        rfl
      case same =>
        constructor
        · intro a
          simp only [writeCond, storePage, update_self]
          rw [(free_of_given_back hget rfl rfl).1]
        · exact fun _ => Iff.rfl
        · intro l
          exact update_state_iff CondVariable.state hclosed rfl l
        · exact fun _ => Iff.rfl

/-! ## Fifos -/

theorem fifoSearch_closed {name : CString} {i : Nat} (hs : k.fifoSearch name = .closed i) :
    i < maxFifos ∧ (k.openFifos i).state ≠ .opened := by
  obtain ⟨hlt, hclosed⟩ := scanFrom_closed hs
  exact ⟨by omega, by simpa using hclosed⟩

/-- The opener of a fifo has its descriptor if the slot has one. -/
theorem fileIsOpen_opener {p : Addr} {i : Nat} :
    (k.setFileOpen p i).fileIsOpen p i ↔ i < maxFds := by
  rw [fileIsOpen_setFileOpen]
  constructor
  · rintro (⟨hlt, -⟩ | ⟨-, hlt, -⟩) <;> exact_mod_cast hlt
  · intro hlt
    exact Or.inr ⟨rfl, by exact_mod_cast hlt, by exact_mod_cast hlt, rfl⟩

/-- `fifo_close` of a fifo nobody waits for. -/
theorem fifoClose_empty (hopen : k.fifoIsOpen key) (h : k.MemoryFree)
    (hempty : k.isEmpty (k.readQueueOf key)) :
    k.fifoClose key = some (1, (k.storePage (k.readQueueOf key)).writeFifo key
      fun f => { f with state := .closed }) := by
  rw [fifoClose, if_pos hopen]
  simp only [releaseReaders, if_pos hempty, Option.bind_some]
  rw [destroyQueue_empty hempty h]
  rfl

/-- The kernel after `fifo_open` of a new name, with the mutex already open. -/
def fifoAdded (k : Kernel) (i : Nat) (name : CString) (lock : Int) (q : Addr)
    (pages : PageStack) : Kernel :=
  ({ k with pages, queues := update k.queues q [] }.writeFifo i fun _ =>
    { name, state := .opened, cBuffer := .create fun _ => 0, fifoMutexKey := lock,
      readQueue := q }).setFileOpen k.getCurrentProcess i

theorem fifoOpen_fresh {name : CString} {i : Nat} {lock : Int} (hs : k.fifoSearch name = .closed i)
    (hlock : k.mutexOpen name = some (lock, k')) (h : k'.MemoryFree)
    (hpages : k'.pages.free ≠ []) :
    ∃ q pages, k'.pages.getPage = some (q, pages) ∧
      k.fifoOpen name = some ((i : Int), k'.fifoAdded i name lock q pages) := by
  obtain ⟨q, pages, hget, hcreate⟩ := createQueue_free h hpages
  refine ⟨q, pages, hget, ?_⟩
  unfold fifoOpen
  rw [hs]
  simp only [hlock, Option.bind_some, hcreate]
  rfl

section Added

variable {name : CString} {i : Nat} {lock : Int} {pages : PageStack}

theorem fifoAdded_eq (k : Kernel) (i : Nat) (name : CString) (lock : Int) (q : Addr)
    (pages : PageStack) : ∃ processes, k.fifoAdded i name lock q pages = { k with
      pages
      queues := update k.queues q []
      openFifos := update k.openFifos i ⟨name, .create fun _ => 0, .opened, lock, q⟩
      processes } :=
  setFileOpen_eq _ _ _

theorem fifoAdded_isOpen_iff (hlt : i < maxFifos) :
    (k.fifoAdded i name lock q pages).fifoIsOpen i ↔ i < maxFds := by
  have hcurrent : (k.fifoAdded i name lock q pages).getCurrentProcess = k.getCurrentProcess := by
    obtain ⟨processes, he⟩ := fifoAdded_eq k i name lock q pages
    rw [he]
    rfl
  have hstate : ((k.fifoAdded i name lock q pages).openFifos i).state = .opened := by
    obtain ⟨processes, he⟩ := fifoAdded_eq k i name lock q pages
    rw [he]
    simp only [update_self]
  unfold fifoIsOpen
  rw [hcurrent, hstate, fifoAdded, fileIsOpen_opener]
  constructor
  · exact fun h => h.2.2
  · exact fun h => ⟨by exact_mod_cast hlt, rfl, h⟩

/-- A new fifo is given back whole if it can be closed at all. -/
theorem fifoAdded_closed (name : CString) (lock : Int) (hlt : i < maxFds) (hlt' : i < maxFifos)
    (hclosed : (k.openFifos i).state ≠ .opened) (h : k.MemoryFree)
    (hget : k.pages.getPage = some (q, pages)) :
    ∃ k', (k.fifoAdded i name lock q pages).fifoClose i = some (1, k') ∧ Restores k k' := by
  have hisOpen : (k.fifoAdded i name lock q pages).fifoIsOpen i :=
    (fifoAdded_isOpen_iff hlt').mpr hlt
  obtain ⟨processes, he⟩ := fifoAdded_eq k i name lock q pages
  rw [he] at hisOpen ⊢
  refine ⟨_, fifoClose_empty hisOpen (by exact h.emptied q pages) (Or.inr ?_), ?_⟩
  · simp only [readQueueOf, update_self]
  · constructor
    · intro a
      simp only [writeFifo, storePage, readQueueOf, update_self]
      rw [(free_of_given_back hget rfl rfl).1]
    · exact fun _ => Iff.rfl
    · exact fun _ => Iff.rfl
    · intro j
      exact update_state_iff Fifo.state hclosed rfl j

end Added

theorem releaseReaders_openMutexes {fuel : Nat} (h : k.releaseReaders fuel q = some k') :
    k'.openMutexes = k.openMutexes := by
  induction fuel generalizing k with
  | zero => cases h
  | succ fuel ih =>
      rw [releaseReaders] at h
      split at h
      next =>
        cases h
        rfl
      next =>
        obtain ⟨⟨r, k₁⟩, hd, h⟩ := Option.bind_eq_some_iff.mp h
        obtain ⟨pages, queues, rfl⟩ := dequeue_eq hd
        have hrest := ih h
        exact hrest

/-- `fifo_close` leaves the mutexes alone. -/
theorem fifoClose_openMutexes {r : Int} (h : k.fifoClose key = some (r, k')) :
    k'.openMutexes = k.openMutexes := by
  unfold fifoClose at h
  split at h
  · obtain ⟨k₁, hrel, h⟩ := Option.bind_eq_some_iff.mp h
    obtain ⟨k₂, hdestroy, he⟩ := Option.map_eq_some_iff.mp h
    cases he
    obtain ⟨pages, queues, rfl⟩ := destroyQueue_eq hdestroy
    have hsame := releaseReaders_openMutexes hrel
    exact hsame
  · cases h
    rfl

/-- A fifo is given back whole, if a mutex had its name before or there was no
slot for one, and if its own slot has a descriptor. -/
theorem fifo_roundTrip_iff {name : CString} {i : Nat} (hfree : k.FreeResources)
    (hs : k.fifoSearch name = .closed i) :
    k.RoundTrip (k.fifoOpen name) fifoClose ↔
      (∀ j, k.mutexSearch name ≠ .closed j) ∧ i < maxFds := by
  obtain ⟨hlt, hclosed⟩ := fifoSearch_closed hs
  have hlen := hfree.pages
  have hne : k.pages.free ≠ [] := List.ne_nil_of_length_pos (by omega)
  by_cases hm : ∃ j, k.mutexSearch name = .closed j
  · -- the fifo's mutex stays
    obtain ⟨j, hm⟩ := hm
    refine iff_of_false ?_ fun h => h.1 j hm
    obtain ⟨hjlt, hjclosed⟩ := mutexSearch_closed hm
    obtain ⟨m, pages₁, hget₁, hlock, hmemory₁⟩ := mutexOpen_fresh hm hfree.memory hne
    have hlen₁ := congrArg List.length (PageStack.free_of_getPage hget₁)
    rw [List.length_cons] at hlen₁
    obtain ⟨q, pages, hget, hopening⟩ := fifoOpen_fresh hs hlock hmemory₁
      (List.ne_nil_of_length_pos (by show 0 < pages₁.free.length; omega))
    rintro ⟨i', k₁, r, k₂, ho, hc, hr⟩
    rw [hopening] at ho
    cases ho
    obtain ⟨processes, he⟩ := fifoAdded_eq { k with
      pages := pages₁
      queues := update k.queues m []
      openMutexes := update k.openMutexes j ⟨name, .unlocked, .opened, m⟩ } i name j q pages
    rw [he] at hc
    refine hjclosed ((hr.mutexes j).mp ?_)
    rw [fifoClose_openMutexes hc]
    simp only [update_self]
  · have hlock : ∃ lock, k.mutexOpen name = some (lock, k) := by
      unfold mutexOpen
      cases hm' : k.mutexSearch name with
      | found j => exact ⟨_, rfl⟩
      | closed j => exact absurd ⟨j, hm'⟩ hm
      | full => exact ⟨_, rfl⟩
    obtain ⟨lock, hlock⟩ := hlock
    obtain ⟨q, pages, hget, hopening⟩ := fifoOpen_fresh hs hlock hfree.memory hne
    constructor
    · rintro ⟨i', k₁, r, k₂, ho, hc, hr⟩
      rw [hopening] at ho
      cases ho
      refine ⟨fun j hj => hm ⟨j, hj⟩, ?_⟩
      by_contra hge
      -- without a descriptor the close is refused
      rw [fifoClose, if_neg fun hisOpen => hge ((fifoAdded_isOpen_iff hlt).mp hisOpen)] at hc
      cases hc
      obtain ⟨processes, he⟩ := fifoAdded_eq k i name lock q pages
      refine hclosed ((hr.fifos i).mp ?_)
      rw [he]
      simp only [update_self]
    · rintro ⟨-, hfd⟩
      obtain ⟨k₂, hc, hr⟩ := fifoAdded_closed name lock hfd hlt hclosed hfree.memory hget
      exact ⟨_, _, _, _, hopening, hc, hr⟩

/-! ## Calls of `fifo_read` -/

/-- The calls on a fifo, with the owner of each page that is handed out. -/
structure LeakRun where
  run : FifoRun
  own : Addr → Option FifoUse

/-- `fifoCallSystem` with the ledger of the allocator. -/
def leakSystem (key : Int) : System LeakRun FifoAction where
  init s := ∃ (k : Kernel) (name : CString) (i : Nat),
    k.fifoSearch name = .closed i ∧ k.fifoOpen name = some (key, s.run.k) ∧
    k.pages.OwnedBy (fun _ => (none : Option FifoUse)) ∧
    (∀ p, (s.run.k.processes p).st ≠ .delete) ∧ s.run.k.getCurrentProcess ≠ null ∧
    (∀ p, s.run.point p = .idle) ∧
    s.own = PageStack.ledger .kernel (fun _ => none) k.pages s.run.k.pages
  next s a := ((fifoCallSystem key).next s.run a).map fun t =>
    ⟨t, PageStack.ledger (useOf s.run a) s.own s.run.k.pages t.k.pages⟩

/-- A process that is in no call has given back the pages of its calls. -/
def CallsSettled (s : LeakRun) : Prop :=
  ∀ p, s.run.point p = .idle → ∀ a, s.own a ≠ some (.node p) ∧ s.own a ≠ some (.request p)

/-- The second test of `fifo_read` finds the fifo open. -/
def TestsOpen (key : Int) (s : LeakRun) (a : FifoAction) : Prop :=
  a = .advance → ∀ r waited, s.run.point s.run.k.getCurrentProcess = .testing r waited →
    s.run.k.fifoIsOpen key

/-- Every page of a request belongs to a call that has not returned. -/
structure LeakInv (key : Int) (s : LeakRun) : Prop where
  calls : CallsInv key s.own s.run
  counts : CountsOk s.run
  held : ∀ a p, s.own a = some (.request p) → (s.run.point p).request = some a

theorem LeakInv.settled {s : LeakRun} (h : LeakInv key s) : CallsSettled s := by
  intro p hp a
  refine ⟨h.calls.noNode_of_idle hp a, fun ha => ?_⟩
  have hreq := h.held a p ha
  rw [hp] at hreq
  cases hreq

/-- The statement of a call keeps the request, takes it, or ends the call. -/
theorem fifoAdvance_request {p r : Addr} {pt pt' : FifoPoint}
    (ha : fifoAdvance key k p pt = some (pt', k')) (hr : pt.request = some r) :
    pt'.request = some r ∨ (∃ waited, pt = .testing r waited ∧ ¬k.fifoIsOpen key) ∨
      ∃ waited, pt = .collecting r waited ∧ k' = k.storePage r := by
  cases pt with
  | idle => cases hr
  | entered buf bytes pos => cases hr
  | requested r' =>
      cases hr
      obtain ⟨⟨b, k₁⟩, -, he⟩ := Option.map_eq_some_iff.mp ha
      cases b <;> cases he <;> exact Or.inl rfl
  | queued r' =>
      cases hr
      cases ha
      exact Or.inl rfl
  | yielding r' =>
      cases hr
      simp only [fifoAdvance] at ha
      split at ha
      · cases ha
      · cases ha
        exact Or.inl rfl
  | testing r' waited =>
      cases hr
      simp only [fifoAdvance] at ha
      split at ha
      next =>
        cases ha
        exact Or.inl rfl
      next hclosed =>
        exact Or.inr (Or.inl ⟨waited, rfl, hclosed⟩)
  | collecting r' waited =>
      cases hr
      cases ha
      exact Or.inr (Or.inr ⟨waited, rfl, rfl⟩)
  | writing source bytes => cases hr

/-- A page that goes back to the allocator, or stays with the call. -/
theorem held_next {s t : FifoRun} {own : Addr → Option FifoUse} {a : FifoAction} {b p : Addr}
    (h : CallsInv key own s) (hheld : ∀ b p, own b = some (.request p) →
      (s.point p).request = some b) (hstep : FifoStep key s a t)
    (htests : a = .advance → ∀ r waited, s.point s.k.getCurrentProcess = .testing r waited →
      s.k.fifoIsOpen key)
    (hb : PageStack.ledger (useOf s a) own s.k.pages t.k.pages b = some (.request p)) :
    (t.point p).request = some b := by
  unfold PageStack.ledger at hb
  split at hb
  next => cases hb
  next hnot =>
    split at hb
    next hfree =>
      -- the page was taken in this step
      have huse : useOf s a = .request p := Option.some.inj hb
      cases hstep with
      | @advance pt k ha =>
          cases hp : s.point s.k.getCurrentProcess with
          | entered buf bytes pos =>
              simp only [useOf, hp] at huse
              cases huse
              rw [hp] at ha
              obtain ⟨⟨r, k₁⟩, hr, he⟩ := Option.map_eq_some_iff.mp ha
              cases he
              have hget := (h.createRequest hp hr).1
              rw [PageStack.free_of_getPage hget] at hfree
              have hbr : b = r := (List.mem_cons.mp hfree).resolve_right hnot
              simp only [update_self, hbr]
              rfl
          | _ =>
              simp only [useOf, hp] at huse
              cases huse
      | _ => cases huse
    next =>
      have hreq := hheld b p hb
      cases hstep with
      | read hp =>
          have hne : p ≠ s.k.getCurrentProcess := by
            rintro rfl
            rw [hp] at hreq
            cases hreq
          simpa only [update_of_ne hne] using hreq
      | write hp =>
          have hne : p ≠ s.k.getCurrentProcess := by
            rintro rfl
            rw [hp] at hreq
            cases hreq
          simpa only [update_of_ne hne] using hreq
      | @advance pt k ha =>
          by_cases hne : p = s.k.getCurrentProcess
          · subst hne
            simp only [update_self]
            rcases fifoAdvance_request ha hreq with hkept | ⟨waited, hp, hclosed⟩ |
              ⟨waited, hp, hk⟩
            · exact hkept
            · exact absurd (htests rfl b waited hp) hclosed
            · refine absurd ?_ hnot
              rw [hk]
              have hfree := h.pages.free_storePage (a := b) (by rw [hb]; simp)
              simp only [Kernel.storePage, hfree]
              exact List.mem_cons_self
          · simpa only [update_of_ne hne] using hreq
      | _ => exact hreq

theorem LeakInv.next {s t : LeakRun} {a : FifoAction} (h : LeakInv key s)
    (hguard : TestsOpen key s a) (hn : (leakSystem key).next s a = some t) : LeakInv key t := by
  obtain ⟨run, hrun, rfl⟩ := Option.map_eq_some_iff.mp hn
  obtain ⟨hcalls, hcounts⟩ := h.calls.next h.counts hrun
  exact ⟨hcalls, hcounts, fun b p hb =>
    held_next h.calls h.held (fifoStep_of_next hrun) hguard hb⟩

theorem leakInv_of_reachBy {s : LeakRun} (h : (leakSystem key).ReachBy (TestsOpen key) s) :
    LeakInv key s := by
  refine h.invariant (fun s hs => ?_) fun s a t hi hg hn => hi.next hg hn
  obtain ⟨k, name, i, hsearch, hopen, hpages, halive, hrun, hidle, hown⟩ := hs
  refine ⟨?_, fun p source bytes hp => ?_, fun a p ha => ?_⟩
  · rw [hown]
    exact callsInv_of_open hsearch hopen hpages halive hrun hidle
  · rw [hidle] at hp
    cases hp
  · rw [hown] at ha
    unfold PageStack.ledger at ha
    split at ha
    · cases ha
    · split at ha <;> cases ha

/-- A call that finds the fifo closed returns with the page of its request. -/
theorem not_settled_of_closed {s t : LeakRun} {r : Addr} {waited : Bool} (h : LeakInv key s)
    (hp : s.run.point s.run.k.getCurrentProcess = .testing r waited)
    (hclosed : ¬s.run.k.fifoIsOpen key) (hn : (leakSystem key).next s .advance = some t) :
    ¬CallsSettled t := by
  obtain ⟨run, hrun, rfl⟩ := Option.map_eq_some_iff.mp hn
  have hown := (h.calls.request s.run.k.getCurrentProcess r (by rw [hp]; rfl)).1
  cases fifoStep_of_next hrun with
  | advance ha =>
      rw [hp] at ha
      simp only [fifoAdvance, if_neg hclosed] at ha
      cases ha
      intro hsettled
      refine (hsettled s.run.k.getCurrentProcess (update_self _ _ _) r).2 ?_
      simp only [PageStack.ledger_self h.calls.pages]
      exact hown

/-! ## Everything together -/

/-- What is given back.  Mutexes are given back whole.  A condition variable is
if no mutex had the name of its mutex, and a fifo if a mutex had its name or
there was no slot for one, and if its slot has a descriptor.  In a run in which
the second test of `fifo_read` always finds the fifo open every call that
returned has given its pages back, and the first test that finds it closed ends
that. -/
theorem givesBack_iff (key : Int) :
    (∀ (k : Kernel) (name : CString) (i : Nat), k.FreeResources →
      (k.mutexSearch name = .closed i → k.RoundTrip (k.mutexOpen name) mutexClose) ∧
      (k.condSearch name = .closed i → (k.RoundTrip (k.condOpen name) condClose ↔
        ∀ j, k.mutexSearch (condLockName i) ≠ .found j)) ∧
      (k.fifoSearch name = .closed i → (k.RoundTrip (k.fifoOpen name) fifoClose ↔
        (∀ j, k.mutexSearch name ≠ .closed j) ∧ i < maxFds))) ∧
    ∀ s, (leakSystem key).ReachBy (TestsOpen key) s → CallsSettled s ∧
      ∀ a t, (leakSystem key).next s a = some t → (CallsSettled t ↔ TestsOpen key s a) := by
  refine ⟨fun k name i hfree => ⟨mutex_roundTrip hfree, cond_roundTrip_iff hfree,
    fifo_roundTrip_iff hfree⟩, fun s hs => ?_⟩
  have hi := leakInv_of_reachBy hs
  refine ⟨hi.settled, fun a t hn => ⟨fun hsettled ha r waited hp => ?_,
    fun hguard => (hi.next hguard hn).settled⟩⟩
  subst ha
  by_contra hclosed
  exact not_settled_of_closed hi hp hclosed hn hsettled

theorem freeResources_twoProcesses : twoProcesses.FreeResources :=
  ⟨by decide +kernel, by decide +kernel⟩

/-- The first process opened a fifo, and no call has a page. -/
def leakStarted : LeakRun where
  run := fifoOpened
  own := PageStack.ledger .kernel (fun _ => none) twoProcesses.pages fifoOpened.k.pages

theorem init_leakStarted : (leakSystem 0).init leakStarted :=
  ⟨twoProcesses, .nil, 0, by decide +kernel, fifoOpened_open, ownedBy_twoProcesses,
    fifoOpened_alive, by decide +kernel, fun _ => rfl, rfl⟩

/-- A test for the guard. -/
def testsOpen (key : Int) (s : LeakRun) : FifoAction → Bool
  | .advance =>
      match s.run.point s.run.k.getCurrentProcess with
      | .testing _ _ => s.run.k.fifoIsOpen key
      | _ => true
  | _ => true

theorem testsOpen_of_testsOpen (s : LeakRun) (a : FifoAction) (h : testsOpen key s a) :
    TestsOpen key s a := by
  rintro rfl r waited hp
  simpa only [testsOpen, hp, decide_eq_true_eq] using h

/-- The first process writes three bytes and reads them. -/
def readBack : Option LeakRun :=
  (leakSystem 0).executeBy (testsOpen 0) leakStarted
    [.write (fun _ => 0) 3, .advance, .read 100 5, .advance, .advance, .advance, .advance]

/-- A mutex and a condition variable are given back and a fifo is not, and the
pages of a read that found bytes are. -/
theorem givesBack_iff_twoProcesses :
    twoProcesses.RoundTrip (twoProcesses.mutexOpen .nil) mutexClose ∧
    twoProcesses.RoundTrip (twoProcesses.condOpen .nil) condClose ∧
    ¬twoProcesses.RoundTrip (twoProcesses.fifoOpen .nil) fifoClose ∧
    CallsSettled (readBack.get (by decide +kernel)) := by
  have hsearch : twoProcesses.mutexSearch .nil = .closed 0 := by decide +kernel
  obtain ⟨hmutex, hcond, hfifo⟩ := (givesBack_iff 0).1 twoProcesses .nil 0 freeResources_twoProcesses
  refine ⟨hmutex hsearch, (hcond (by decide +kernel)).mpr fun j hj => ?_,
    fun hback => ((hfifo (by decide +kernel)).mp hback).1 0 hsearch, ?_⟩
  · have hname : twoProcesses.mutexSearch (condLockName 0) = .closed 0 := by decide +kernel
    rw [hname] at hj
    cases hj
  · exact ((givesBack_iff 0).2 _ ((System.ReachBy.init init_leakStarted).execute
      testsOpen_of_testsOpen (Option.some_get _).symm)).1

/-- The process is outside the calls. -/
def FifoPoint.isIdle : FifoPoint → Bool
  | .idle => true
  | _ => false

theorem FifoPoint.eq_idle_of_isIdle {pt : FifoPoint} (h : pt.isIdle) : pt = .idle := by
  cases pt with
  | idle => rfl
  | _ => cases h

/-- `fifo_close` leaves the mutex of the fifo open.  The first process queues a
request and blocks itself, the second one closes the fifo, and the first one
returns with the page of its request. -/
theorem ipc_leaks :
    twoProcesses.FreeResources ∧
    ¬twoProcesses.RoundTrip (twoProcesses.fifoOpen .nil) fifoClose ∧
    ¬∀ s, (leakSystem 0).Reach s → CallsSettled s := by
  refine ⟨freeResources_twoProcesses, fun hback => ?_, fun hall => ?_⟩
  · exact ((fifo_roundTrip_iff (i := 0) freeResources_twoProcesses (by decide +kernel)).mp hback).1 0
      (by decide +kernel)
  · obtain ⟨t, ht, hf⟩ := System.exists_reach_of_execute init_leakStarted
      [.read 100 5, .advance, .advance, .advance, .dispatch 2, .openName .nil, .close, .dispatch 1,
        .advance, .advance]
      (fun t => (t.run.point 10).isIdle && t.own (pageAddr 3) == some (.request 10))
      (by decide +kernel)
    rw [Bool.and_eq_true, beq_iff_eq] at hf
    obtain ⟨hidle, hown⟩ := hf
    exact (hall t ht 10 (FifoPoint.eq_idle_of_isIdle hidle) _).2 hown

end Kernel

end TPE
