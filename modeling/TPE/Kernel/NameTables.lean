import TPE.Library.Runs
import TPE.Kernel.CondVariable
import TPE.Kernel.Fifo

/-!
# The tables of mutexes, condition variables and fifos

Each `open` scans its table for the name and stops at the first closed slot.  A
close leaves a hole, and behind the hole a name is not found any more: the next
open of it makes a second object under the same name.

Opening a condition variable or a fifo opens a mutex too, and closing a
condition variable closes its mutex, so the three tables are taken together.
-/

namespace TPE

open Function

namespace Kernel

/-! ## The tables -/

/-- The table of mutexes. -/
def mutexTable (k : Kernel) : NameTable CString where
  opened i := (k.openMutexes i).state = .opened
  name i := (k.openMutexes i).name

/-- The table of condition variables. -/
def condTable (k : Kernel) : NameTable CString where
  opened i := (k.openConds i).state = .opened
  name i := (k.openConds i).name

/-- The table of fifos. -/
def fifoTable (k : Kernel) : NameTable CString where
  opened i := (k.openFifos i).state = .opened
  name i := (k.openFifos i).name

/-- The names of the condition variables are as long as `strcmp` can compare. -/
def NamesFit (k : Kernel) : Prop :=
  ∀ i, k.condTable.opened i → (k.condTable.name i).strLen < CString.uintMax

/-- The longest name a slot has room for, with its terminator. -/
abbrev nameLen : Nat := 64

variable {k k' : Kernel} {name : CString}

theorem lt_uintMax (h : name.strLen < nameLen) : name.strLen < CString.uintMax :=
  Nat.lt_trans h (by decide)

theorem mutexSearch_eq (h : name.strLen < CString.uintMax) :
    k.mutexSearch name = k.mutexTable.scan maxMutexes name := by
  refine scanFrom_congr (fun i hi => ?_) fun i _ => ?_
  · exact decide_eq_decide.mpr ⟨fun ho => ho.2.2, fun ho => ⟨by omega, by omega, ho⟩⟩
  · rw [decide_eq_decide, CString.strcmp_eq_zero_iff h]
    exact eq_comm

theorem condSearch_eq (h : k.NamesFit) :
    k.condSearch name = k.condTable.scan maxCondVar name := by
  refine scanFrom_congr (fun i _ => rfl) fun i hi => ?_
  rw [decide_eq_decide]
  exact CString.strcmp_eq_zero_iff (h i hi)

theorem fifoSearch_eq (h : name.strLen < CString.uintMax) :
    k.fifoSearch name = k.fifoTable.scan maxFifos name := by
  refine scanFrom_congr (fun i _ => rfl) fun i _ => ?_
  rw [decide_eq_decide, CString.strcmp_eq_zero_iff h]
  exact eq_comm

/-! ## What the calls leave alone -/

/-- The tables are the same. -/
structure SameTables (k k' : Kernel) : Prop where
  mutexes : k'.openMutexes = k.openMutexes
  conds : k'.openConds = k.openConds
  fifos : k'.openFifos = k.openFifos

namespace SameTables

theorem refl (k : Kernel) : SameTables k k := ⟨rfl, rfl, rfl⟩

theorem trans {k₁ k₂ k₃ : Kernel} (h : SameTables k₁ k₂) (h' : SameTables k₂ k₃) :
    SameTables k₁ k₃ :=
  ⟨h'.mutexes.trans h.mutexes, h'.conds.trans h.conds, h'.fifos.trans h.fifos⟩

theorem createQueue {q : Addr} (h : k.createQueue = some (q, k')) : SameTables k k' := by
  obtain ⟨pages, -, rfl⟩ := createQueue_spec h
  exact ⟨rfl, rfl, rfl⟩

theorem dequeue {q p : Addr} (h : k.dequeue q = some (p, k')) : SameTables k k' := by
  unfold Kernel.dequeue at h
  split at h
  · cases h
    exact .refl _
  · split at h
    · cases h
      exact .refl _
    · simp only at h
      split at h
      · cases h
        exact ⟨rfl, rfl, rfl⟩
      · cases h

theorem destroyQueue {q : Addr} (h : k.destroyQueue q = some k') : SameTables k k' := by
  have hempty : ∀ fuel {k k' : Kernel}, emptyQueue fuel k q = some k' → SameTables k k' := by
    intro fuel
    induction fuel with
    | zero => exact fun h => nomatch h
    | succ fuel ih =>
        intro k k' h
        rw [emptyQueue] at h
        split at h
        · cases h
          exact .refl _
        · obtain ⟨⟨p, k₁⟩, hd, he⟩ := Option.bind_eq_some_iff.mp h
          exact (dequeue hd).trans (ih he)
  obtain ⟨k₁, he, hs⟩ := Option.bind_eq_some_iff.mp h
  split at hs
  · cases hs
    exact (hempty _ he).trans ⟨rfl, rfl, rfl⟩
  · cases hs

theorem releaseWaiters {q : Addr} (fuel : Nat) :
    ∀ {k k' : Kernel}, Kernel.releaseWaiters fuel k q = some k' → SameTables k k' := by
  induction fuel with
  | zero => exact fun h => nomatch h
  | succ fuel ih =>
      intro k k' h
      rw [Kernel.releaseWaiters] at h
      split at h
      · cases h
        exact .refl _
      · obtain ⟨⟨p, k₁⟩, hd, he⟩ := Option.bind_eq_some_iff.mp h
        have hrest := ih he
        exact (dequeue hd).trans ⟨hrest.mutexes, hrest.conds, hrest.fifos⟩

theorem releaseReaders {q : Addr} (fuel : Nat) :
    ∀ {k k' : Kernel}, Kernel.releaseReaders fuel k q = some k' → SameTables k k' := by
  induction fuel with
  | zero => exact fun h => nomatch h
  | succ fuel ih =>
      intro k k' h
      rw [Kernel.releaseReaders] at h
      split at h
      · cases h
        exact .refl _
      · obtain ⟨⟨p, k₁⟩, hd, he⟩ := Option.bind_eq_some_iff.mp h
        have hrest := ih he
        exact (dequeue hd).trans ⟨hrest.mutexes, hrest.conds, hrest.fifos⟩

theorem mutexTable_eq (h : SameTables k k') : k'.mutexTable = k.mutexTable := by
  unfold mutexTable
  rw [h.mutexes]

theorem condTable_eq (h : SameTables k k') : k'.condTable = k.condTable := by
  unfold condTable
  rw [h.conds]

theorem fifoTable_eq (h : SameTables k k') : k'.fifoTable = k.fifoTable := by
  unfold fifoTable
  rw [h.fifos]

end SameTables

/-! ## What the calls do to the tables -/

/-- What an `open` returns when its scan stops there. -/
def keyOf : Scan → Int
  | .found i => i
  | .closed i => i
  | .full => maxOpenError

/-- A slot of a table, read through `g`. -/
theorem natCast_update {α β : Type} (f : Int → α) (g : α → β) (i : Nat) (a : α) :
    (fun j : Nat => g (update f (i : Int) a j)) = update (fun j : Nat => g (f j)) i (g a) := by
  funext j
  by_cases hj : j = i
  · subst hj
    rw [update_self, update_self]
  · have hne : (j : Int) ≠ i := by omega
    rw [update_of_ne hj, update_of_ne hne]

/-- The table afterwards: the slot where the scan stopped for being closed is opened. -/
def opening (t : NameTable CString) (s : Scan) (name : CString) : NameTable CString :=
  match s with
  | .closed i => t.openSlot i name
  | _ => t

theorem mutexTable_write (k : Kernel) (i : Nat) (m : Mutex) (hm : m.state = .opened) :
    mutexTable { k with openMutexes := update k.openMutexes i m } =
      k.mutexTable.openSlot i m.name := by
  unfold mutexTable NameTable.openSlot
  simp only [natCast_update k.openMutexes (fun m => decide (m.state = .opened)),
    natCast_update k.openMutexes Mutex.name, hm, decide_true]

theorem condTable_write (k : Kernel) (i : Nat) (v : CondVariable) (hv : v.state = .opened) :
    condTable { k with openConds := update k.openConds i v } = k.condTable.openSlot i v.name := by
  unfold condTable NameTable.openSlot
  simp only [natCast_update k.openConds (fun v => decide (v.state = .opened)),
    natCast_update k.openConds CondVariable.name, hv, decide_true]

theorem fifoTable_write (k : Kernel) (i : Nat) (f : Fifo) (hf : f.state = .opened) :
    fifoTable { k with openFifos := update k.openFifos i f } = k.fifoTable.openSlot i f.name := by
  unfold fifoTable NameTable.openSlot
  simp only [natCast_update k.openFifos (fun f => decide (f.state = .opened)),
    natCast_update k.openFifos Fifo.name, hf, decide_true]

/-- `mutex_open` returns where its scan stops, and opens the slot if it is closed. -/
theorem mutexOpen_tables {r : Int} (h : k.mutexOpen name = some (r, k')) :
    r = keyOf (k.mutexSearch name) ∧ k'.condTable = k.condTable ∧ k'.fifoTable = k.fifoTable ∧
      k'.mutexTable = opening k.mutexTable (k.mutexSearch name) name := by
  cases hs : k.mutexSearch name with
  | found i =>
      simp only [mutexOpen, hs, Option.some.injEq, Prod.mk.injEq] at h
      obtain ⟨rfl, rfl⟩ := h
      exact ⟨rfl, rfl, rfl, rfl⟩
  | full =>
      simp only [mutexOpen, hs, Option.some.injEq, Prod.mk.injEq] at h
      obtain ⟨rfl, rfl⟩ := h
      exact ⟨rfl, rfl, rfl, rfl⟩
  | closed i =>
      obtain ⟨rfl, q, pages, -, rfl⟩ := mutexOpen_spec hs h
      exact ⟨rfl, rfl, rfl, mutexTable_write k i _ rfl⟩

/-- `cond_open`, and the `mutex_open` in it. -/
theorem condOpen_tables {r : Int} (h : k.condOpen name = some (r, k')) :
    r = keyOf (k.condSearch name) ∧ k'.fifoTable = k.fifoTable ∧
      k'.condTable = opening k.condTable (k.condSearch name) name ∧
      k'.mutexTable = match k.condSearch name with
        | .closed i => opening k.mutexTable (k.mutexSearch (condLockName i)) (condLockName i)
        | _ => k.mutexTable := by
  cases hs : k.condSearch name with
  | found i =>
      simp only [condOpen, hs, Option.some.injEq, Prod.mk.injEq] at h
      obtain ⟨rfl, rfl⟩ := h
      exact ⟨rfl, rfl, rfl, rfl⟩
  | full =>
      simp only [condOpen, hs, Option.some.injEq, Prod.mk.injEq] at h
      obtain ⟨rfl, rfl⟩ := h
      exact ⟨rfl, rfl, rfl, rfl⟩
  | closed i =>
      simp only [condOpen, hs] at h
      obtain ⟨k₃, hnew, he⟩ := Option.map_eq_some_iff.mp h
      obtain ⟨⟨lock, k₁⟩, hlock, hq⟩ := Option.bind_eq_some_iff.mp hnew
      obtain ⟨⟨q, k₂⟩, hcreate, rfl⟩ := Option.map_eq_some_iff.mp hq
      cases he
      obtain ⟨-, hconds, hfifos, htable⟩ := mutexOpen_tables hlock
      have hsame := SameTables.createQueue hcreate
      refine ⟨rfl, hsame.fifoTable_eq.trans hfifos, ?_, ?_⟩
      · refine (condTable_write k₂ i _ rfl).trans ?_
        rw [hsame.condTable_eq, hconds]
        rfl
      · exact hsame.mutexTable_eq.trans htable

theorem setFileOpen_tables (k : Kernel) (p : Addr) (fd : Int) :
    SameTables k (k.setFileOpen p fd) := by
  unfold setFileOpen
  split
  · exact .refl k
  · exact ⟨rfl, rfl, rfl⟩

/-- `fifo_open`, and the `mutex_open` in it. -/
theorem fifoOpen_tables {r : Int} (h : k.fifoOpen name = some (r, k')) :
    r = keyOf (k.fifoSearch name) ∧ k'.condTable = k.condTable ∧
      k'.fifoTable = opening k.fifoTable (k.fifoSearch name) name ∧
      k'.mutexTable = match k.fifoSearch name with
        | .closed _ => opening k.mutexTable (k.mutexSearch name) name
        | _ => k.mutexTable := by
  cases hs : k.fifoSearch name with
  | found i =>
      simp only [fifoOpen, hs, Option.some.injEq, Prod.mk.injEq] at h
      obtain ⟨rfl, rfl⟩ := h
      have hsame := setFileOpen_tables k k.getCurrentProcess i
      exact ⟨rfl, hsame.condTable_eq, hsame.fifoTable_eq, hsame.mutexTable_eq⟩
  | full =>
      simp only [fifoOpen, hs, Option.some.injEq, Prod.mk.injEq] at h
      obtain ⟨rfl, rfl⟩ := h
      exact ⟨rfl, rfl, rfl, rfl⟩
  | closed i =>
      simp only [fifoOpen, hs] at h
      obtain ⟨⟨lock, k₁⟩, hlock, hq⟩ := Option.bind_eq_some_iff.mp h
      obtain ⟨⟨q, k₂⟩, hcreate, he⟩ := Option.map_eq_some_iff.mp hq
      obtain ⟨rfl, rfl⟩ := Prod.mk.inj he
      obtain ⟨-, hconds, hfifos, htable⟩ := mutexOpen_tables hlock
      have hsame := SameTables.createQueue hcreate
      set k₃ : Kernel := k₂.writeFifo i _
      have hopen := setFileOpen_tables k₃ k₃.getCurrentProcess i
      have hk₃ : k₃.condTable = k₂.condTable := rfl
      refine ⟨rfl, (hopen.condTable_eq.trans hk₃).trans (hsame.condTable_eq.trans hconds), ?_, ?_⟩
      · refine hopen.fifoTable_eq.trans ((fifoTable_write k₂ i _ rfl).trans ?_)
        rw [hsame.fifoTable_eq, hfifos]
        rfl
      · have hwrite : k₃.mutexTable = k₂.mutexTable := rfl
        exact (hopen.mutexTable_eq.trans hwrite).trans (hsame.mutexTable_eq.trans htable)

/-- A call that opens no slot and keeps the names of the open ones. -/
structure Shrinks (k k' : Kernel) : Prop where
  mutexes : ∀ i, k'.mutexTable.opened i →
    k.mutexTable.opened i ∧ k'.mutexTable.name i = k.mutexTable.name i
  conds : ∀ i, k'.condTable.opened i →
    k.condTable.opened i ∧ k'.condTable.name i = k.condTable.name i
  fifos : ∀ i, k'.fifoTable.opened i →
    k.fifoTable.opened i ∧ k'.fifoTable.name i = k.fifoTable.name i

theorem SameTables.shrinks (h : SameTables k k') : Shrinks k k' := by
  refine ⟨?_, ?_, ?_⟩
  · rw [h.mutexTable_eq]
    exact fun i hi => ⟨hi, rfl⟩
  · rw [h.condTable_eq]
    exact fun i hi => ⟨hi, rfl⟩
  · rw [h.fifoTable_eq]
    exact fun i hi => ⟨hi, rfl⟩

namespace Shrinks

theorem trans {k₁ k₂ k₃ : Kernel} (h : Shrinks k₁ k₂) (h' : Shrinks k₂ k₃) : Shrinks k₁ k₃ := by
  refine ⟨fun i hi => ?_, fun i hi => ?_, fun i hi => ?_⟩
  · obtain ⟨h₂, hn₂⟩ := h'.mutexes i hi
    exact ⟨(h.mutexes i h₂).1, hn₂.trans (h.mutexes i h₂).2⟩
  · obtain ⟨h₂, hn₂⟩ := h'.conds i hi
    exact ⟨(h.conds i h₂).1, hn₂.trans (h.conds i h₂).2⟩
  · obtain ⟨h₂, hn₂⟩ := h'.fifos i hi
    exact ⟨(h.fifos i h₂).1, hn₂.trans (h.fifos i h₂).2⟩

/-- A slot that is open after another one was closed. -/
theorem of_closed {α : Type} (f : Int → α) (state : α → SlotState) (name : α → CString) {key : Int}
    {a : α} (ha : state a = .closed) {i : Int}
    (hi : decide (state (update f key a i) = .opened) = true) :
    decide (state (f i) = .opened) = true ∧ name (update f key a i) = name (f i) := by
  have hi' := of_decide_eq_true hi
  by_cases hkey : i = key
  · rw [hkey, update_self, ha] at hi'
    cases hi'
  · rw [update_of_ne hkey] at hi' ⊢
    exact ⟨decide_eq_true hi', rfl⟩

theorem closeMutexSlot (k : Kernel) (key : Int) :
    Shrinks k (k.writeMutex key fun m => { m with state := .closed }) :=
  ⟨fun _ hi => of_closed k.openMutexes Mutex.state Mutex.name rfl hi, fun _ hi => ⟨hi, rfl⟩,
    fun _ hi => ⟨hi, rfl⟩⟩

theorem closeCondSlot (k : Kernel) (key : Int) :
    Shrinks k (k.writeCond key fun v => { v with state := .closed }) :=
  ⟨fun _ hi => ⟨hi, rfl⟩, fun _ hi => of_closed k.openConds CondVariable.state CondVariable.name rfl hi,
    fun _ hi => ⟨hi, rfl⟩⟩

theorem closeFifoSlot (k : Kernel) (key : Int) :
    Shrinks k (k.writeFifo key fun f => { f with state := .closed }) :=
  ⟨fun _ hi => ⟨hi, rfl⟩, fun _ hi => ⟨hi, rfl⟩,
    fun _ hi => of_closed k.openFifos Fifo.state Fifo.name rfl hi⟩

theorem mutexClose {key r : Int} (h : k.mutexClose key = some (r, k')) : Shrinks k k' := by
  unfold Kernel.mutexClose at h
  split at h
  · obtain ⟨k₁, hrel, hd⟩ := Option.bind_eq_some_iff.mp h
    obtain ⟨k₂, hd, he⟩ := Option.map_eq_some_iff.mp hd
    cases he
    exact (SameTables.releaseWaiters _ hrel).shrinks.trans
      ((closeMutexSlot k₁ key).trans (SameTables.destroyQueue hd).shrinks)
  · cases h
    exact (SameTables.refl k).shrinks

theorem condClose {key r : Int} (h : k.condClose key = some (r, k')) : Shrinks k k' := by
  unfold Kernel.condClose at h
  split at h
  next hopen =>
    obtain ⟨⟨r₁, k₁⟩, hb, hrest⟩ := Option.bind_eq_some_iff.mp h
    obtain ⟨k₂, hd, hrest⟩ := Option.bind_eq_some_iff.mp hrest
    obtain ⟨⟨r₃, k₃⟩, hm, he⟩ := Option.map_eq_some_iff.mp hrest
    cases he
    unfold Kernel.condBroadcast at hb
    rw [if_pos hopen] at hb
    obtain ⟨k₁', hrel, he⟩ := Option.map_eq_some_iff.mp hb
    cases he
    exact (SameTables.releaseWaiters _ hrel).shrinks.trans ((SameTables.destroyQueue hd).shrinks.trans
      ((mutexClose hm).trans (closeCondSlot k₃ key)))
  next =>
    cases h
    exact (SameTables.refl k).shrinks

theorem fifoClose {key r : Int} (h : k.fifoClose key = some (r, k')) : Shrinks k k' := by
  unfold Kernel.fifoClose at h
  split at h
  · obtain ⟨k₁, hrel, hd⟩ := Option.bind_eq_some_iff.mp h
    obtain ⟨k₂, hdestroy, he⟩ := Option.map_eq_some_iff.mp hd
    cases he
    exact (SameTables.releaseReaders _ hrel).shrinks.trans
      ((SameTables.destroyQueue hdestroy).shrinks.trans (closeFifoSlot k₂ key))
  · cases h
    exact (SameTables.refl k).shrinks

end Shrinks

/-! ## Runs -/

/-- The calls that open and close. -/
inductive TableCall where
  | mutexOpen (name : CString)
  | mutexClose (key : Int)
  | condOpen (name : CString)
  | condClose (key : Int)
  | fifoOpen (name : CString)
  | fifoClose (key : Int)
  /-- Another process runs. -/
  | dispatch (node : Addr)

/-- The calls, made in any order by any processes from boot on.  Names have room
in their slots. -/
def tableSystem : System Kernel TableCall where
  init k := ∀ i : Int, (k.openMutexes i).state = .closed ∧ (k.openConds i).state = .closed ∧
    (k.openFifos i).state = .closed
  next
    | k, .mutexOpen name =>
        if name.strLen < nameLen then (k.mutexOpen name).map Prod.snd else none
    | k, .mutexClose key => (k.mutexClose key).map Prod.snd
    | k, .condOpen name =>
        if name.strLen < nameLen then (k.condOpen name).map Prod.snd else none
    | k, .condClose key => (k.condClose key).map Prod.snd
    | k, .fifoOpen name =>
        if name.strLen < nameLen then (k.fifoOpen name).map Prod.snd else none
    | k, .fifoClose key => (k.fifoClose key).map Prod.snd
    | k, .dispatch node => some { k with current := node }

/-- No table the call scans has a closed slot before an open one with the name. -/
def FindsNoHole (k : Kernel) : TableCall → Prop
  | .mutexOpen name => k.mutexTable.NoHole maxMutexes name
  | .condOpen name => k.condTable.NoHole maxCondVar name ∧
      ∀ i, k.condSearch name = .closed i → k.mutexTable.NoHole maxMutexes (condLockName i)
  | .fifoOpen name => k.fifoTable.NoHole maxFifos name ∧
      ∀ i, k.fifoSearch name = .closed i → k.mutexTable.NoHole maxMutexes name
  | _ => True

/-- No two open slots of a table carry one name. -/
structure TablesInv (k : Kernel) : Prop where
  mutexes : k.mutexTable.Distinct maxMutexes
  conds : k.condTable.Distinct maxCondVar
  fifos : k.fifoTable.Distinct maxFifos
  names : k.NamesFit

theorem TablesInv.shrinks (h : TablesInv k) (hs : Shrinks k k') : TablesInv k' := by
  refine ⟨h.mutexes.mono hs.mutexes, h.conds.mono hs.conds, h.fifos.mono hs.fifos, fun i hi => ?_⟩
  obtain ⟨hold, hname⟩ := hs.conds i hi
  rw [hname]
  exact h.names i hold

/-- An open without a hole keeps a table's names distinct. -/
theorem opening_distinct {t : NameTable CString} {size : Nat} (hd : t.Distinct size)
    (hole : t.NoHole size name) {s : Scan} (hs : s = t.scan size name) :
    (opening t s name).Distinct size := by
  cases hcase : s with
  | closed i => exact hd.openSlot hole (hs.symm.trans hcase)
  | found i => exact hd
  | full => exact hd

theorem condLockName_lt (i : Nat) : (condLockName i).strLen < CString.uintMax := by
  have hlen : ∀ rounds value, (itoa rounds value).length ≤ rounds + 1 := by
    intro rounds
    induction rounds with
    | zero => exact fun value => Nat.le_refl _
    | succ rounds ih =>
        intro value
        rw [itoa]
        split
        · simp
        · rw [List.length_append, List.length_singleton]
          exact Nat.succ_le_succ (ih _)
  have hident : condLockIdentifier.length = 19 := rfl
  have := hlen 2 i
  unfold CString.strLen condLockName CString.uintMax
  rw [List.length_append, hident]
  omega

/-- The names still fit when a slot is opened under a name that fits. -/
theorem opening_names {t : NameTable CString} (ht : ∀ i, t.opened i → (t.name i).strLen < CString.uintMax)
    (hname : name.strLen < CString.uintMax) (s : Scan) :
    ∀ i, (opening t s name).opened i → ((opening t s name).name i).strLen < CString.uintMax := by
  cases s with
  | found j => exact ht
  | full => exact ht
  | closed j =>
      intro i hi
      simp only [opening, NameTable.openSlot] at hi ⊢
      by_cases hij : i = j
      · rw [hij, update_self]
        exact hname
      · rw [update_of_ne hij] at hi ⊢
        exact ht i hi

theorem TablesInv.mutexOpen {r : Int} (h : TablesInv k) (hname : name.strLen < CString.uintMax)
    (hole : k.mutexTable.NoHole maxMutexes name) (ho : k.mutexOpen name = some (r, k')) :
    TablesInv k' := by
  obtain ⟨-, hconds, hfifos, htable⟩ := mutexOpen_tables ho
  refine ⟨?_, ?_, ?_, ?_⟩
  · rw [htable]
    exact opening_distinct h.mutexes hole (mutexSearch_eq hname)
  · rw [hconds]
    exact h.conds
  · rw [hfifos]
    exact h.fifos
  · unfold NamesFit
    rw [hconds]
    exact h.names

theorem TablesInv.condOpen {r : Int} (h : TablesInv k) (hname : name.strLen < CString.uintMax)
    (hole : k.condTable.NoHole maxCondVar name)
    (hole' : ∀ i, k.condSearch name = .closed i → k.mutexTable.NoHole maxMutexes (condLockName i))
    (ho : k.condOpen name = some (r, k')) : TablesInv k' := by
  obtain ⟨-, hfifos, hconds, htable⟩ := condOpen_tables ho
  refine ⟨?_, ?_, ?_, ?_⟩
  · rw [htable]
    cases hs : k.condSearch name with
    | found i => exact h.mutexes
    | full => exact h.mutexes
    | closed i =>
        exact opening_distinct h.mutexes (hole' i hs) (mutexSearch_eq (condLockName_lt i))
  · rw [hconds]
    exact opening_distinct h.conds hole (condSearch_eq h.names)
  · rw [hfifos]
    exact h.fifos
  · unfold NamesFit
    rw [hconds]
    exact opening_names h.names hname _

theorem TablesInv.fifoOpen {r : Int} (h : TablesInv k) (hname : name.strLen < CString.uintMax)
    (hole : k.fifoTable.NoHole maxFifos name)
    (hole' : ∀ i, k.fifoSearch name = .closed i → k.mutexTable.NoHole maxMutexes name)
    (ho : k.fifoOpen name = some (r, k')) : TablesInv k' := by
  obtain ⟨-, hconds, hfifos, htable⟩ := fifoOpen_tables ho
  refine ⟨?_, ?_, ?_, ?_⟩
  · rw [htable]
    cases hs : k.fifoSearch name with
    | found i => exact h.mutexes
    | full => exact h.mutexes
    | closed i => exact opening_distinct h.mutexes (hole' i hs) (mutexSearch_eq hname)
  · rw [hconds]
    exact h.conds
  · rw [hfifos]
    exact opening_distinct h.fifos hole (fifoSearch_eq hname)
  · unfold NamesFit
    rw [hconds]
    exact h.names

/-- One call keeps the names distinct. -/
theorem TablesInv.next {c : TableCall} (h : TablesInv k) (hole : k.FindsNoHole c)
    (hn : tableSystem.next k c = some k') : TablesInv k' := by
  cases c with
  | mutexOpen name =>
      simp only [tableSystem] at hn
      split at hn
      next hname =>
        obtain ⟨⟨r, k₁⟩, ho, rfl⟩ := Option.map_eq_some_iff.mp hn
        exact h.mutexOpen (lt_uintMax hname) hole ho
      next => cases hn
  | mutexClose key =>
      obtain ⟨⟨r, k₁⟩, ho, rfl⟩ := Option.map_eq_some_iff.mp hn
      exact h.shrinks (.mutexClose ho)
  | condOpen name =>
      simp only [tableSystem] at hn
      split at hn
      next hname =>
        obtain ⟨⟨r, k₁⟩, ho, rfl⟩ := Option.map_eq_some_iff.mp hn
        exact h.condOpen (lt_uintMax hname) hole.1 hole.2 ho
      next => cases hn
  | condClose key =>
      obtain ⟨⟨r, k₁⟩, ho, rfl⟩ := Option.map_eq_some_iff.mp hn
      exact h.shrinks (.condClose ho)
  | fifoOpen name =>
      simp only [tableSystem] at hn
      split at hn
      next hname =>
        obtain ⟨⟨r, k₁⟩, ho, rfl⟩ := Option.map_eq_some_iff.mp hn
        exact h.fifoOpen (lt_uintMax hname) hole.1 hole.2 ho
      next => cases hn
  | fifoClose key =>
      obtain ⟨⟨r, k₁⟩, ho, rfl⟩ := Option.map_eq_some_iff.mp hn
      exact h.shrinks (.fifoClose ho)
  | dispatch node =>
      cases hn
      exact ⟨h.mutexes, h.conds, h.fifos, h.names⟩

theorem TablesInv.init (h : tableSystem.init k) : TablesInv k := by
  have hm : ∀ i, ¬k.mutexTable.opened i := fun i hi => by
    cases (h i).1.symm.trans (of_decide_eq_true hi)
  have hc : ∀ i, ¬k.condTable.opened i := fun i hi => by
    cases (h i).2.1.symm.trans (of_decide_eq_true hi)
  have hf : ∀ i, ¬k.fifoTable.opened i := fun i hi => by
    cases (h i).2.2.symm.trans (of_decide_eq_true hi)
  exact ⟨fun i _ _ _ hi => absurd hi (hm i), fun i _ _ _ hi => absurd hi (hc i),
    fun i _ _ _ hi => absurd hi (hf i), fun i hi => absurd hi (hc i)⟩

/-! ## What the tables promise -/

/-- The open slots of a table are found: `open` returns the key of every open
slot with the name. -/
def Finds (t : NameTable CString) (size : Nat) (run : CString → Option (Int × Kernel))
    (name : CString) : Prop :=
  ∀ i : Nat, i < size → t.opened i → t.name i = name → ∃ k, run name = some ((i : Int), k)

/-- An `open` that returns where its scan stops finds an open slot exactly when
the scan does. -/
theorem finds_iff {t : NameTable CString} {size : Nat} {run : CString → Option (Int × Kernel)}
    (hd : t.Distinct size)
    (hrun : ∀ r k, run name = some (r, k) → r = keyOf (t.scan size name))
    (hfound : ∀ i, t.scan size name = .found i → (run name).isSome) :
    Finds t size run name ↔ t.NoHole size name := by
  rw [← NameTable.scan_eq_found_iff hd]
  refine forall_congr' fun i => ?_
  refine imp_congr_right fun hi => imp_congr_right fun hopen => imp_congr_right fun hname => ?_
  constructor
  · rintro ⟨k, hk⟩
    have hkey := hrun _ _ hk
    cases hs : t.scan size name with
    | found j =>
        rw [hs] at hkey
        rw [show j = i from (Int.ofNat.inj hkey).symm]
    | closed j =>
        rw [hs] at hkey
        rw [show i = j from Int.ofNat.inj hkey] at hopen
        exact absurd hopen (NameTable.scan_closed hs).2.1
    | full =>
        rw [hs] at hkey
        have hmax : keyOf .full = -2 := rfl
        omega
  · intro hs
    obtain ⟨⟨r, k⟩, hk⟩ := Option.isSome_iff_exists.mp (hfound i hs)
    refine ⟨k, ?_⟩
    rw [hk, hrun r k hk, hs]
    rfl

/-- No two open slots of a table carry one name, and each kind of `open` finds
the open slots with a name exactly when no closed slot comes before one. -/
structure TablesOk (k : Kernel) : Prop where
  mutexes : k.mutexTable.Distinct maxMutexes
  conds : k.condTable.Distinct maxCondVar
  fifos : k.fifoTable.Distinct maxFifos
  mutexOpen_finds : ∀ name : CString, name.strLen < nameLen →
    (Finds k.mutexTable maxMutexes k.mutexOpen name ↔ k.mutexTable.NoHole maxMutexes name)
  condOpen_finds : ∀ name : CString, name.strLen < nameLen →
    (Finds k.condTable maxCondVar k.condOpen name ↔ k.condTable.NoHole maxCondVar name)
  fifoOpen_finds : ∀ name : CString, name.strLen < nameLen →
    (Finds k.fifoTable maxFifos k.fifoOpen name ↔ k.fifoTable.NoHole maxFifos name)

/-- The tables, in every state reached by calls whose scans meet no hole. -/
theorem tables_distinct (h : tableSystem.ReachBy FindsNoHole k) : TablesOk k := by
  have hinv : TablesInv k := h.invariant (fun _ => TablesInv.init) fun _ _ _ hi hg hn => hi.next hg hn
  refine ⟨hinv.mutexes, hinv.conds, hinv.fifos, fun name hname => ?_, fun name hname => ?_,
    fun name hname => ?_⟩
  · have hs := mutexSearch_eq (k := k) (lt_uintMax hname)
    refine finds_iff hinv.mutexes (fun r k' hr => ?_) fun i hi => ?_
    · rw [← hs]
      exact (mutexOpen_tables hr).1
    · rw [← hs] at hi
      simp only [mutexOpen, hi, Option.isSome_some]
  · have hs : k.condSearch name = k.condTable.scan maxCondVar name := condSearch_eq hinv.names
    refine finds_iff hinv.conds (fun r k' hr => ?_) fun i hi => ?_
    · rw [← hs]
      exact (condOpen_tables hr).1
    · rw [← hs] at hi
      simp only [condOpen, hi, Option.isSome_some]
  · have hs := fifoSearch_eq (k := k) (lt_uintMax hname)
    refine finds_iff hinv.fifos (fun r k' hr => ?_) fun i hi => ?_
    · rw [← hs]
      exact (fifoOpen_tables hr).1
    · rw [← hs] at hi
      simp only [fifoOpen, hi, Option.isSome_some]

/-- The kernel before the first `open`. -/
def noTables : Kernel where
  pages := PageStack.initializeMemoryAllocator ⟨fun _ => 0, 0⟩

/-- The names `"a"` and `"b"`. -/
def nameA : CString := ⟨[97], by decide⟩
def nameB : CString := ⟨[98], by decide⟩

theorem init_noTables : tableSystem.init noTables := fun _ => ⟨rfl, rfl, rfl⟩

theorem next_noTables : (tableSystem.next noTables (.fifoOpen nameA)).isSome := by decide +kernel

/-- The tables after a fifo, and with it a mutex, was opened. -/
theorem tables_distinct_fifo :
    TablesOk ((tableSystem.next noTables (.fifoOpen nameA)).get next_noTables) := by
  refine tables_distinct (.step (.init init_noTables) ?_ (Option.some_get next_noTables).symm)
  have hclosed : ∀ i, decide (SlotState.closed = .opened) = true → i ∈ ([] : List Nat) :=
    fun i hi => by cases of_decide_eq_true hi
  exact ⟨fun i j _ _ hj => absurd (hclosed j hj) List.not_mem_nil,
    fun _ _ i j _ _ hj => absurd (hclosed j hj) List.not_mem_nil⟩

/-- Two open mutexes carry the name `"b"`. -/
def twoMutexes (k : Kernel) : Bool :=
  k.mutexTable.opened 0 && k.mutexTable.opened 1 && k.mutexTable.name 0 = k.mutexTable.name 1

/-- `"a"` and `"b"` are opened, `"a"` is closed, and the next open of `"b"` makes
a second mutex of that name. -/
theorem hole_splits_mutex :
    ¬∀ k, tableSystem.Reach k →
      (k.mutexTable.Distinct maxMutexes ∧ k.condTable.Distinct maxCondVar ∧
        k.fifoTable.Distinct maxFifos) ∧
      ∀ name : CString, name.strLen < nameLen →
        Finds k.mutexTable maxMutexes k.mutexOpen name ∧
        Finds k.condTable maxCondVar k.condOpen name ∧
        Finds k.fifoTable maxFifos k.fifoOpen name := by
  intro claim
  obtain ⟨k, hreach, htwo⟩ := System.exists_reach_of_execute init_noTables
    [.mutexOpen nameA, .mutexOpen nameB, .mutexClose 0, .mutexOpen nameB] twoMutexes
    (by decide +kernel)
  simp only [twoMutexes, Bool.and_eq_true, decide_eq_true_eq] at htwo
  obtain ⟨⟨h0, h1⟩, hname⟩ := htwo
  have := (claim k hreach).1.1 0 1 (by decide) (by decide) h0 h1 hname
  cases this

end Kernel

end TPE
