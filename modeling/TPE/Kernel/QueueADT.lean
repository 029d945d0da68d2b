import TPE.Kernel.MemoryAllocator

/-!
# Queues

`queueADT.c` keeps a queue as a header page with pointers to the first and the
last of its nodes, each of which is on a page of its own.

The operations take and give back pages, and the allocator guards its pages
with a mutex.  When that mutex is taken the caller waits for it in a queue,
for which it needs a page: the call never returns, and the operation has no
result.  `MemoryFree` says that the allocator's calls return at once.
-/

namespace TPE

open Function

namespace Kernel

/-- `is_empty` -/
def isEmpty (k : Kernel) (q : Addr) : Prop := q = null ∨ k.queues q = []

instance (k : Kernel) (q : Addr) : Decidable (k.isEmpty q) := inferInstanceAs (Decidable (_ ∨ _))

/-- The mutex of the allocator is not open yet, or free and wanted by nobody. -/
def MemoryFree (k : Kernel) : Prop :=
  ¬k.mutexIsOpen k.memoryMutexKey ∨
    (k.openMutexes k.memoryMutexKey).locked = .unlocked ∧
      k.isEmpty (k.openMutexes k.memoryMutexKey).processQueue

instance (k : Kernel) : Decidable k.MemoryFree := inferInstanceAs (Decidable (_ ∨ _ ∧ _))

/-- Write the queue whose header is at `q`. -/
def setQueue (k : Kernel) (q : Addr) (nodes : List QueueNode) : Kernel :=
  { k with queues := update k.queues q nodes }

/-- The processes or other elements in the queue at `q`, first to last. -/
def elems (k : Kernel) (q : Addr) : List Addr := (k.queues q).map QueueNode.elem

/-- `create_queue` -/
def createQueue (k : Kernel) : Option (Addr × Kernel) :=
  if k.MemoryFree then k.getPage.map fun (q, k) => (q, k.setQueue q []) else none

/-- `enqueue` -/
def enqueue (k : Kernel) (q : Addr) (elem : Addr) : Option Kernel :=
  if q = null then some k
  else if k.MemoryFree then
    k.getPage.map fun (page, k) => k.setQueue q (k.queues q ++ [⟨page, elem⟩])
  else none

/-- `peek` -/
def peek (k : Kernel) (q : Addr) : Addr :=
  if k.isEmpty q then null else ((k.queues q).head?.map QueueNode.elem).getD null

/-- `dequeue` -/
def dequeue (k : Kernel) (q : Addr) : Option (Addr × Kernel) :=
  if q = null then some (null, k)
  else
    match k.queues q with
    | [] => some (null, k)
    | f :: rest =>
        let k := k.setQueue q rest
        if k.MemoryFree then some (f.elem, k.storePage f.page) else none

/-- The loop of `destroy_queue`. -/
def emptyQueue : Nat → Kernel → Addr → Option Kernel
  | 0, _, _ => none
  | fuel + 1, k, q =>
      if k.isEmpty q then some k else (k.dequeue q).bind fun (_, k) => emptyQueue fuel k q

/-- `destroy_queue` -/
def destroyQueue (k : Kernel) (q : Addr) : Option Kernel :=
  (emptyQueue ((k.queues q).length + 1) k q).bind fun k =>
    if k.MemoryFree then some (k.storePage q) else none

/-! ## What the operations do -/

variable {k k' : Kernel} {q p : Addr}

theorem createQueue_spec (h : k.createQueue = some (q, k')) :
    ∃ pages, k.pages.getPage = some (q, pages) ∧
      k' = { k with pages, queues := update k.queues q [] } := by
  unfold createQueue at h
  split at h
  next =>
    obtain ⟨⟨q', k₁⟩, hget, he⟩ := Option.map_eq_some_iff.mp h
    obtain ⟨pages, hpages, rfl⟩ := getPage_eq_some hget
    cases he
    exact ⟨pages, hpages, rfl⟩
  next => cases h

theorem enqueue_spec (hq : q ≠ null) (h : k.enqueue q p = some k') :
    ∃ page pages, k.pages.getPage = some (page, pages) ∧
      k' = { k with pages, queues := update k.queues q (k.queues q ++ [⟨page, p⟩]) } := by
  unfold enqueue at h
  rw [if_neg hq] at h
  split at h
  next =>
    obtain ⟨⟨page, k₁⟩, hget, he⟩ := Option.map_eq_some_iff.mp h
    obtain ⟨pages, hpages, rfl⟩ := getPage_eq_some hget
    cases he
    exact ⟨page, pages, hpages, rfl⟩
  next => cases h

theorem not_isEmpty_cons {f : QueueNode} {rest : List QueueNode} (hq : q ≠ null)
    (hf : k.queues q = f :: rest) : ¬k.isEmpty q := by
  rintro (he | he)
  · exact hq he
  · rw [hf] at he
    cases he

theorem peek_cons {f : QueueNode} {rest : List QueueNode} (hq : q ≠ null)
    (hf : k.queues q = f :: rest) : k.peek q = f.elem := by
  rw [peek, if_neg (not_isEmpty_cons hq hf), hf]
  rfl

theorem dequeue_nil (h : k.queues q = []) : k.dequeue q = some (null, k) := by
  unfold dequeue
  split
  · rfl
  · rw [h]

theorem dequeue_cons {f : QueueNode} {rest : List QueueNode} (hq : q ≠ null)
    (hf : k.queues q = f :: rest) (h : k.dequeue q = some (p, k')) :
    p = f.elem ∧
      k' = { k with queues := update k.queues q rest, pages := k.pages.storePage f.page } := by
  unfold dequeue at h
  rw [if_neg hq, hf] at h
  simp only at h
  split at h
  next =>
    cases h
    exact ⟨rfl, rfl⟩
  next => cases h

/-! ## When `dequeue` returns -/

/-- Whether the allocator is free depends on its mutex and the queues. -/
theorem MemoryFree.congr (hfree : k.MemoryFree) (hkey : k'.memoryMutexKey = k.memoryMutexKey)
    (hm : k'.openMutexes = k.openMutexes) (hq : k'.queues = k.queues) : k'.MemoryFree := by
  unfold MemoryFree mutexIsOpen isEmpty at *
  rw [hkey, hm, hq]
  exact hfree

/-- The allocator's mutex stays free when the queue gets shorter. -/
theorem memoryFree_shorter {rest : List QueueNode} (hfree : (k.setQueue q rest).MemoryFree) :
    rest = [] ∨ (k.setQueue q rest.tail).MemoryFree := by
  rcases hfree with hclosed | ⟨hword, hnull | hnil⟩
  · exact .inr (.inl hclosed)
  · exact .inr (.inr ⟨hword, .inl hnull⟩)
  · by_cases hq : (k.openMutexes k.memoryMutexKey).processQueue = q
    · refine .inl ?_
      have hnil' : update k.queues q rest (k.openMutexes k.memoryMutexKey).processQueue = [] := hnil
      rw [hq, update_self] at hnil'
      exact hnil'
    · refine .inr (.inr ⟨hword, .inr ?_⟩)
      have hnil' : update k.queues q rest (k.openMutexes k.memoryMutexKey).processQueue = [] := hnil
      rw [update_of_ne hq] at hnil'
      exact (update_of_ne hq _ _).trans hnil'

/-- A `dequeue` from the queue at `q` does not wait for the allocator. -/
def DequeueReturns (k : Kernel) (q : Addr) : Prop :=
  k.isEmpty q ∨ (k.setQueue q (k.queues q).tail).MemoryFree

instance (k : Kernel) (q : Addr) : Decidable (k.DequeueReturns q) :=
  inferInstanceAs (Decidable (_ ∨ _))

theorem DequeueReturns.free {f : QueueNode} {rest : List QueueNode} (h : k.DequeueReturns q)
    (hq : q ≠ null) (hf : k.queues q = f :: rest) : (k.setQueue q rest).MemoryFree := by
  rcases h with (hnull | hnil) | hfree
  · exact absurd hnull hq
  · rw [hf] at hnil
    cases hnil
  · rw [hf] at hfree
    exact hfree

/-- A `dequeue` from a queue with a first node. -/
theorem dequeue_of_cons {f : QueueNode} {rest : List QueueNode} (hq : q ≠ null)
    (hf : k.queues q = f :: rest) : k.dequeue q =
      if (k.setQueue q rest).MemoryFree then
        some (f.elem, (k.setQueue q rest).storePage f.page)
      else none := by
  rw [dequeue, if_neg hq, hf]

/-- The next `dequeue` does not wait either. -/
theorem DequeueReturns.next {rest : List QueueNode} (hfree : (k.setQueue q rest).MemoryFree)
    (hkey : k'.memoryMutexKey = k.memoryMutexKey) (hm : k'.openMutexes = k.openMutexes)
    (hqueues : k'.queues = update k.queues q rest) : k'.DequeueReturns q := by
  have hrest : k'.queues q = rest := by rw [hqueues, update_self]
  rcases memoryFree_shorter hfree with hnil | hshorter
  · exact .inl (.inr (hrest.trans hnil))
  · refine .inr (hshorter.congr hkey hm ?_)
    simp only [setQueue, hqueues, update_self, update_idem]

theorem dequeueReturns_of_some {r : Addr × Kernel} (h : k.dequeue q = some r) :
    k.DequeueReturns q := by
  by_cases hq : q = null
  · exact .inl (.inl hq)
  · cases hf : k.queues q with
    | nil => exact .inl (.inr hf)
    | cons f rest =>
        rw [dequeue_of_cons hq hf] at h
        split at h
        next hfree =>
          refine .inr ?_
          rw [hf]
          exact hfree
        next => cases h

/-! ## What the operations leave alone -/

/-- `enqueue` writes the queues and the free pages. -/
theorem enqueue_eq (h : k.enqueue q p = some k') :
    ∃ pages queues, k' = { k with pages, queues } := by
  unfold enqueue at h
  split at h
  · cases h
    exact ⟨_, _, rfl⟩
  · split at h
    · obtain ⟨⟨page, k₁⟩, hget, he⟩ := Option.map_eq_some_iff.mp h
      obtain ⟨pages, -, rfl⟩ := getPage_eq_some hget
      cases he
      exact ⟨_, _, rfl⟩
    · cases h

/-- `dequeue` writes the queues and the free pages. -/
theorem dequeue_eq (h : k.dequeue q = some (p, k')) :
    ∃ pages queues, k' = { k with pages, queues } := by
  unfold dequeue at h
  split at h
  · cases h
    exact ⟨_, _, rfl⟩
  · split at h
    · cases h
      exact ⟨_, _, rfl⟩
    · simp only at h
      split at h
      · cases h
        exact ⟨_, _, rfl⟩
      · cases h

theorem emptyQueue_eq {fuel : Nat} (h : k.emptyQueue fuel q = some k') :
    ∃ pages queues, k' = { k with pages, queues } := by
  induction fuel generalizing k with
  | zero => cases h
  | succ fuel ih =>
      rw [emptyQueue] at h
      split at h
      · cases h
        exact ⟨_, _, rfl⟩
      · obtain ⟨⟨p, k₁⟩, hd, h⟩ := Option.bind_eq_some_iff.mp h
        obtain ⟨pages, queues, rfl⟩ := dequeue_eq hd
        obtain ⟨pages', queues', rfl⟩ := ih h
        exact ⟨_, _, rfl⟩

/-- `destroy_queue` gives back the header of an empty queue. -/
theorem destroyQueue_isEmpty (hempty : k.isEmpty q) :
    k.destroyQueue q = if k.MemoryFree then some (k.storePage q) else none := by
  rw [destroyQueue, emptyQueue, if_pos hempty]
  rfl

/-- `destroy_queue` writes the queues and the free pages. -/
theorem destroyQueue_eq (h : k.destroyQueue q = some k') :
    ∃ pages queues, k' = { k with pages, queues } := by
  obtain ⟨k₁, he, h⟩ := Option.bind_eq_some_iff.mp h
  obtain ⟨pages, queues, rfl⟩ := emptyQueue_eq he
  split at h
  · cases h
    exact ⟨_, _, rfl⟩
  · cases h

end Kernel

end TPE
