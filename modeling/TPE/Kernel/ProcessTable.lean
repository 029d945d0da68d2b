import TPE.Library.Runs
import TPE.Library.Slots
import TPE.Kernel.AllocatorRuns
import TPE.Kernel.Process

/-!
# The process table

Any sequence of process creations and destructions, from the empty table on.  A
state also carries the processes that were created and not yet destroyed.

`create_process` drops the result of `insert_process`.  When no slot is empty
the new process is not in the table, and its pid is what its page held.
-/

namespace TPE

open Function

namespace Kernel

/-! ## Enumeration -/

/-- `get_current_pids`: its return value and what it writes to `pid_array`. -/
def getCurrentPids (k : Kernel) : Int × List Int :=
  let found := collectFrom null k.processTable maxProcesses 0 (int32 k.nProcesses)
  (found.length, (found.map fun p => int32 (k.pidProcess p)) ++ [-1])

variable {k k' : Kernel} {p : Addr} {rip : Nat} {name : CString}

/-! ## What creation and destruction do to the table -/

/-- A created process is in an empty slot, or in none if all are occupied. -/
theorem createProcess_table (h : k.createProcess rip name = some (p, k')) :
    (∃ i, i < maxProcesses ∧ k.processTable i = null ∧
      k'.processTable = update k.processTable i p ∧ (k'.processes p).pid = i ∧
      k'.nProcesses = (k.nProcesses + 1) % 2 ^ 64) ∨
    ((∀ i, i < maxProcesses → k.processTable i ≠ null) ∧ k'.processTable = k.processTable ∧
      k'.nProcesses = k.nProcesses) := by
  obtain ⟨pages, index, page, -, rfl⟩ := createProcess_eq h
  simp only [initProcess]
  unfold insertProcess
  split
  next i hfind =>
    have hslot := List.find?_some hfind
    have hmem := List.mem_of_find?_eq_some hfind
    left
    refine ⟨i, List.mem_range.mp hmem, of_decide_eq_true hslot, ?_, ?_, ?_⟩
    all_goals
      split
      · simp [writeProcess]
      · simp [writeProcess]
  next hfind =>
    right
    refine ⟨fun i hi => ?_, ?_, ?_⟩
    · have hfull := List.find?_eq_none.mp hfind i (List.mem_range.mpr hi)
      exact fun he => hfull (decide_eq_true he)
    all_goals
      split
      · rfl
      · rfl

/-- A destroyed process's slot is emptied. -/
theorem destroyProcess_table (hp : p ≠ null) (hdata : (k.processes p).nDataPage = 0) :
    (k.destroyProcess p).processTable = update k.processTable (k.processes p).pid null ∧
    (k.destroyProcess p).nProcesses = (k.nProcesses + 2 ^ 64 - 1) % 2 ^ 64 := by
  have hfree : freeDataPages { k with nProcesses := (k.nProcesses + 2 ^ 64 - 1) % 2 ^ 64 } p =
      { k with nProcesses := (k.nProcesses + 2 ^ 64 - 1) % 2 ^ 64 } := freeDataPages_of_zero hdata
  obtain ⟨fg, procs, hs, he⟩ := destroyProcess_eq hp hfree.symm
  rw [he]
  exact ⟨congrArg (fun i => update k.processTable i null) (hs.pid_eq p), rfl⟩

/-! ## The table and the processes -/

/-- The table holds the processes `live`, and they are counted. -/
structure TableInv (k : Kernel) (live : List Addr) : Prop where
  slots : SlotsOk maxProcesses null k.processTable (fun p => (k.processes p).pid) live
  count : k.nProcesses = live.length

namespace TableInv

variable {live : List Addr}

theorem create (h : TableInv k live) (hc : Created k p k')
    (hcreate : k.createProcess rip name = some (p, k')) (hp : p ∉ live) (hne : p ≠ null)
    {i : Nat} (hi : i < maxProcesses) (hfree : k.processTable i = null) :
    TableInv k' (p :: live) := by
  have hothers : ∀ q ∈ live, (k'.processes q).pid = (k.processes q).pid := by
    intro q hq
    have hqp : q ≠ p := by
      rintro rfl
      exact hp hq
    rw [hc.others q hqp]
  rcases createProcess_table hcreate with ⟨j, hj, hempty, htable, hpid, hn⟩ | ⟨hfull, -, -⟩
  · constructor
    · rw [htable]
      exact h.slots.insert hj hempty hp hne hpid hothers
    · have hlen := h.slots.length_le
      have hmax : maxProcesses = 128 := rfl
      rw [hn, h.count, List.length_cons]
      omega
  · exact absurd hfree (hfull i hi)

theorem destroy (h : TableInv k live) (hp : p ∈ live) (hdata : (k.processes p).nDataPage = 0) :
    TableInv (k.destroyProcess p) (live.erase p) := by
  have hne : p ≠ null := fun he => h.slots.noEmpty (he ▸ hp)
  have hd := destroyProcess_spec hne hdata
  obtain ⟨htable, hn⟩ := destroyProcess_table hne hdata
  constructor
  · rw [htable]
    exact h.slots.clear hp fun q _ => hd.procs.pid_eq q
  · have hpos := List.length_pos_of_mem hp
    have hlen := h.slots.length_le
    have hmax : maxProcesses = 128 := rfl
    rw [hn, h.count, List.length_erase_of_mem hp]
    omega

theorem getCurrentPids_eq (h : TableInv k live) :
    k.getCurrentPids = (((occupied maxProcesses null k.processTable).length : Int),
      (occupied maxProcesses null k.processTable).map Int.ofNat ++ [-1]) := by
  have hcount : int32 k.nProcesses = (occupied maxProcesses null k.processTable).length := by
    have hlen := h.slots.length_le
    have hmax : maxProcesses = 128 := rfl
    rw [h.count, h.slots.length_occupied]
    exact int32_of_range (by omega) (by omega)
  have hpids : (occupied maxProcesses null k.processTable).map
      ((fun p => int32 (k.pidProcess p)) ∘ k.processTable) =
      (occupied maxProcesses null k.processTable).map Int.ofNat := by
    refine List.map_congr_left ?_
    intro i hi
    obtain ⟨hlt, hocc⟩ := mem_occupied.mp hi
    have hmax : maxProcesses = 128 := rfl
    have hpid : k.pidProcess (k.processTable i) = i :=
      (if_pos hocc).trans (h.slots.slot i hlt hocc).2
    rw [Function.comp_apply, hpid]
    exact int32_of_range (by omega) (by omega)
  rw [getCurrentPids, hcount, collectFrom_occupied, List.map_map, hpids]
  simp only [List.length_map]

end TableInv

/-! ## Runs -/

/-- The kernel and the processes that were created and not yet destroyed. -/
structure TableRun where
  k : Kernel
  live : List Addr

inductive TableAction where
  | create (rip : Nat) (name : CString)
  | destroy (p : Addr)

/-- Creations and destructions, from the empty table and the initialised
allocator on. -/
def processTableSystem : System TableRun TableAction where
  init s := (∀ i, s.k.processTable i = null) ∧ s.k.nProcesses = 0 ∧
    s.k.pages = PageStack.initializeMemoryAllocator ⟨fun _ => 0, 0⟩ ∧ s.live = []
  next
    | s, .create rip name => (s.k.createProcess rip name).map fun (p, k) => ⟨k, p :: s.live⟩
    | s, .destroy p => if p ∈ s.live then some ⟨s.k.destroyProcess p, s.live.erase p⟩ else none

/-- A process is created only when a slot is empty. -/
def FindsSlot (s : TableRun) : TableAction → Prop
  | .create _ _ => ∃ i, i < maxProcesses ∧ s.k.processTable i = null
  | _ => True

/-- The invariant of the runs.  The processes are on pages of their own and have
no data pages. -/
structure TableRunInv (s : TableRun) : Prop where
  pages : s.k.pages.PagesOk {p | p ∈ s.live}
  noData : ∀ p ∈ s.live, (s.k.processes p).nDataPage = 0
  table : s.k.TableInv s.live

namespace TableRunInv

variable {s t : TableRun}

theorem of_init (h : processTableSystem.init s) : TableRunInv s := by
  obtain ⟨htable, hn, hpages, hlive⟩ := h
  constructor
  · rw [hpages, hlive]
    exact PageStack.initial_pagesOk.mono fun a ha => absurd ha List.not_mem_nil
  · simp [hlive]
  · rw [hlive]
    exact ⟨.start fun i _ => htable i, hn⟩

/-- The page of a created process is handed out for it. -/
theorem created_fresh (h : TableRunInv s) (hcreate : s.k.createProcess rip name = some (p, k')) :
    p ∉ s.live ∧ p ≠ null ∧ k'.pages.PagesOk {q | q ∈ p :: s.live} := by
  have hc := createProcess_spec hcreate
  obtain ⟨hfresh, hpage, hpages⟩ := h.pages.getPage hc.getPage
  refine ⟨hfresh, hpage.ne_null, hpages.mono ?_⟩
  intro q hq
  rcases List.mem_cons.mp hq with rfl | hq
  · exact Set.mem_insert _ _
  · exact Set.mem_insert_of_mem _ hq

theorem create (h : TableRunInv s) (hcreate : s.k.createProcess rip name = some (p, k')) {i : Nat}
    (hi : i < maxProcesses) (hfree : s.k.processTable i = null) :
    TableRunInv ⟨k', p :: s.live⟩ := by
  have hc := createProcess_spec hcreate
  obtain ⟨hp, hne, hpages⟩ := h.created_fresh hcreate
  refine ⟨hpages, fun q hq => ?_, h.table.create hc hcreate hp hne hi hfree⟩
  rcases List.mem_cons.mp hq with rfl | hold
  · exact hc.noData
  · have hqp : q ≠ p := by
      rintro rfl
      exact hp hold
    show (k'.processes q).nDataPage = 0
    rw [hc.others q hqp]
    exact h.noData q hold

theorem destroy (h : TableRunInv s) (hp : p ∈ s.live) :
    TableRunInv ⟨s.k.destroyProcess p, s.live.erase p⟩ := by
  have hdata := h.noData p hp
  have hne : p ≠ null := fun he => h.table.slots.noEmpty (he ▸ hp)
  have hd := destroyProcess_spec hne hdata
  refine ⟨?_, fun q hq => ?_, h.table.destroy hp hdata⟩
  · show (s.k.destroyProcess p).pages.PagesOk _
    rw [hd.pages]
    refine (h.pages.storePage (by exact hp)).mono ?_
    intro q hq
    obtain ⟨hqp, hq⟩ := h.table.slots.nodup.mem_erase_iff.mp hq
    exact ⟨hq, hqp⟩
  · show ((s.k.destroyProcess p).processes q).nDataPage = 0
    rw [hd.procs.nDataPage_eq]
    exact h.noData q (List.mem_of_mem_erase hq)

/-- Every call that meets the guard keeps the invariant. -/
theorem next {a : TableAction} (h : TableRunInv s) (hg : FindsSlot s a)
    (hn : processTableSystem.next s a = some t) : TableRunInv t := by
  cases a with
  | create rip name =>
      obtain ⟨⟨p, k⟩, hcreate, rfl⟩ := Option.map_eq_some_iff.mp hn
      obtain ⟨i, hi, hfree⟩ := hg
      exact h.create hcreate hi hfree
  | destroy p =>
      simp only [processTableSystem] at hn
      split at hn
      next hp =>
        cases hn
        exact h.destroy hp
      next => cases hn

theorem of_reachBy (h : processTableSystem.ReachBy FindsSlot s) : TableRunInv s := by
  exact h.invariant (fun _ hs => of_init hs) fun _ _ _ hi hg hn => hi.next hg hn

end TableRunInv

/-! ## What holds in every run -/

/-- The table and the processes that were created and not yet destroyed. -/
structure TableOk (s : TableRun) : Prop where
  pid : ∀ i, i < maxProcesses → s.k.processTable i ≠ null →
    (s.k.processes (s.k.processTable i)).pid = i
  /-- The occupied slots are those of the processes. -/
  slots : ∀ p, p ∈ s.live ↔ p ≠ null ∧ ∃ i, i < maxProcesses ∧ s.k.processTable i = p
  count : s.k.nProcesses = (occupied maxProcesses null s.k.processTable).length
  /-- The pids are listed in their order. -/
  pids : s.k.getCurrentPids = (((occupied maxProcesses null s.k.processTable).length : Int),
    (occupied maxProcesses null s.k.processTable).map Int.ofNat ++ [-1])
  sorted : (occupied maxProcesses null s.k.processTable).Pairwise (· < ·)
  listed : ∀ i, i ∈ occupied maxProcesses null s.k.processTable ↔
    ∃ p ∈ s.live, (s.k.processes p).pid = i
  /-- Destroying a process empties nobody else's slot. -/
  destroy : ∀ p ∈ s.live, ∀ q ∈ s.live, q ≠ p →
    (s.k.destroyProcess p).processTable (s.k.processes q).pid = q
  distinct : ∀ p ∈ s.live, ∀ q ∈ s.live, (s.k.processes p).pid = (s.k.processes q).pid → p = q

theorem TableRunInv.tableOk {s : TableRun} (h : TableRunInv s) : TableOk s := by
  have hslots := h.table.slots
  constructor
  case pid =>
    intro i hi hocc
    exact (hslots.slot i hi hocc).2
  case slots =>
    intro p
    exact hslots.mem_iff
  case count => rw [h.table.count, hslots.length_occupied]
  case pids => exact h.table.getCurrentPids_eq
  case sorted => exact occupied_sorted
  case listed =>
    intro i
    rw [mem_occupied]
    constructor
    · rintro ⟨hi, hocc⟩
      exact ⟨_, hslots.slot i hi hocc⟩
    · rintro ⟨p, hp, rfl⟩
      obtain ⟨hlt, hself⟩ := hslots.entry p hp
      refine ⟨hlt, fun he => ?_⟩
      rw [hself] at he
      exact hslots.noEmpty (he ▸ hp)
  case destroy =>
    intro p hp q hq hne
    have hnull : p ≠ null := fun he => hslots.noEmpty (he ▸ hp)
    rw [(destroyProcess_table hnull (h.noData p hp)).1]
    exact hslots.entry_of_clear hp hq hne
  case distinct =>
    intro p hp q hq he
    exact hslots.number_inj hp hq he

/-- A process that is created while no slot is empty is not in the table. -/
theorem TableRunInv.not_tableOk {s : TableRun} (h : TableRunInv s)
    (hcreate : s.k.createProcess rip name = some (p, k'))
    (hfull : ∀ i, i < maxProcesses → s.k.processTable i ≠ null) : ¬TableOk ⟨k', p :: s.live⟩ := by
  intro hok
  rcases createProcess_table hcreate with ⟨i, hi, hempty, -⟩ | ⟨-, htable, -⟩
  · exact hfull i hi hempty
  · obtain ⟨hne, i, hi, hself⟩ := (hok.slots p).mp List.mem_cons_self
    have hself' : s.k.processTable i = p := by
      rw [← hself]
      exact congrFun htable.symm i
    have hmem := (h.table.slots.slot i hi (hfull i hi)).1
    rw [hself'] at hmem
    exact (h.created_fresh hcreate).1 hmem

/-- The process table, in every run whose creations find an empty slot.  The next
creation keeps it right exactly if it finds one too. -/
theorem process_table {s : TableRun} (h : processTableSystem.ReachBy FindsSlot s) :
    TableOk s ∧ ∀ rip name p k', s.k.createProcess rip name = some (p, k') →
      (TableOk ⟨k', p :: s.live⟩ ↔ FindsSlot s (.create rip name)) := by
  have hinv := TableRunInv.of_reachBy h
  refine ⟨hinv.tableOk, fun rip name p k' hcreate => ?_⟩
  constructor
  · intro hok
    by_contra hnone
    refine hinv.not_tableOk hcreate (fun i hi he => ?_) hok
    exact hnone ⟨i, hi, he⟩
  · rintro ⟨i, hi, hfree⟩
    exact (hinv.create hcreate hi hfree).tableOk

/-- The empty table. -/
def tableStarted : TableRun where
  k := { pages := PageStack.initializeMemoryAllocator ⟨fun _ => 0, 0⟩ }
  live := []

theorem init_tableStarted : processTableSystem.init tableStarted := by
  exact ⟨fun _ => rfl, rfl, rfl, rfl⟩

instance (s : TableRun) (a : TableAction) : Decidable (FindsSlot s a) :=
  match a with
  | .create _ _ => decidable_of_iff (∃ i ∈ List.range maxProcesses, s.k.processTable i = null)
      (by simp [FindsSlot])
  | .destroy _ => isTrue trivial

/-- Two processes are created, the first is destroyed, and a third takes its slot. -/
def slotReused : Option TableRun :=
  processTableSystem.executeBy (fun s a => decide (FindsSlot s a)) tableStarted
    [.create 0 .nil, .create 0 .nil, .destroy (pageAddr 1), .create 0 .nil]

theorem process_table_reused :
    TableOk (slotReused.get (by decide +kernel)) ∧ ∀ rip name p k',
      (slotReused.get (by decide +kernel)).k.createProcess rip name = some (p, k') →
      (TableOk ⟨k', p :: (slotReused.get (by decide +kernel)).live⟩ ↔
        FindsSlot (slotReused.get (by decide +kernel)) (.create rip name)) := by
  exact process_table ((System.ReachBy.init init_tableStarted).execute
    (fun _ _ hg => of_decide_eq_true hg) (Option.some_get _).symm)

/-! ## A full table -/

/-- As long as there is a free page, a process can be created, on the next page. -/
theorem createProcess_isSome (h : k.pages.currentIndex < stackSize) (rip : Nat) (name : CString) :
    ∃ p k', k.createProcess rip name = some (p, k') ∧
      k'.pages.currentIndex = k.pages.currentIndex + 1 := by
  have hget : k.getPage = some (pageAddr (k.pages.pagesStack k.pages.currentIndex.toNat),
      { k with pages := { k.pages with currentIndex := k.pages.currentIndex + 1 } }) := by
    rw [getPage, PageStack.getPage, if_pos h]
    rfl
  cases hcreate : k.createProcess rip name with
  | none =>
      rw [createProcess, hget] at hcreate
      cases hcreate
  | some r =>
      obtain ⟨p, k'⟩ := r
      have hpages := (createProcess_spec hcreate).getPage
      rw [PageStack.getPage, if_pos h] at hpages
      refine ⟨p, k', rfl, ?_⟩
      exact (congrArg (fun r => r.2.currentIndex) (Option.some.inj hpages)).symm

/-- The table can be filled up to its last slot. -/
theorem exists_reachBy_length (n : Nat) (hn : n ≤ maxProcesses) :
    ∃ s, processTableSystem.ReachBy FindsSlot s ∧ s.live.length = n ∧ s.k.pages.currentIndex.toNat = n := by
  induction n with
  | zero => exact ⟨tableStarted, .init init_tableStarted, rfl, rfl⟩
  | succ n ih =>
      obtain ⟨s, hs, hlen, hindex⟩ := ih (by omega)
      have hmax : maxProcesses = 128 := rfl
      have hsize : stackSize.toNat = 255 := rfl
      have hlt : s.k.pages.currentIndex < stackSize := by
        rw [UInt8.lt_iff_toNat_lt]
        omega
      obtain ⟨p, k', hcreate, hnext⟩ := createProcess_isSome hlt 0 .nil
      have hfree := (TableRunInv.of_reachBy hs).table.slots.exists_empty (by omega)
      refine ⟨⟨k', p :: s.live⟩, .step (a := .create 0 .nil) hs hfree ?_, ?_, ?_⟩
      · simp [processTableSystem, hcreate]
      · simp [hlen]
      · show k'.pages.currentIndex.toNat = n + 1
        rw [hnext, UInt8.toNat_add, UInt8.toNat_one]
        omega

/-- The process created after the table is full is not in it. -/
theorem full_table_breaks : ¬∀ s, processTableSystem.Reach s → TableOk s := by
  intro hall
  obtain ⟨s, hs, hlen, hindex⟩ := exists_reachBy_length maxProcesses le_rfl
  have hinv := TableRunInv.of_reachBy hs
  have hlt : s.k.pages.currentIndex < stackSize := by
    rw [UInt8.lt_iff_toNat_lt, hindex]
    decide
  obtain ⟨p, k', hcreate, -⟩ := createProcess_isSome hlt 0 .nil
  have hfull : ∀ i, i < maxProcesses → s.k.processTable i ≠ null := by
    intro i hi hempty
    have hlonger := (hinv.create hcreate hi hempty).table.slots.length_le
    rw [List.length_cons] at hlonger
    omega
  refine hinv.not_tableOk hcreate hfull (hall _ ?_)
  exact hs.reach.next (a := .create 0 .nil) (by simp [processTableSystem, hcreate])

end Kernel

end TPE
