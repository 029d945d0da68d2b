import TPE.Kernel.DataPages
import TPE.Kernel.ProcessTable

/-!
# Enumeration into arrays

`get_current_pids` and `data_pages_process` copy a table with empty entries into an array of
the caller and put a mark behind the last entry.  `ps` passes an array of `MAX_PROCESSES`
elements, and `process_info` has one of `MAX_DATA_PAGES` elements, as many as the tables have.
So there is an element for the mark exactly if an entry of the table is empty.
-/

namespace TPE

namespace Kernel

/-- `get_current_pids` with the writes to `pid_array`. -/
def getCurrentPidsInto (k : Kernel) : Int × List (Int × Nat) :=
  let found := collectInto null k.processTable (fun p => int32 (k.pidProcess p)) maxProcesses 0 0
    (int32 k.nProcesses)
  (found.2, found.1 ++ [(-1, found.2)])

/-- The pids of the processes in the table, in the order of their slots. -/
def tablePids (k : Kernel) : List Int :=
  (occupied maxProcesses null k.processTable).map fun i => int32 (k.pidProcess (k.processTable i))

/-- The array gets the list that `getCurrentPids` returns. -/
theorem getCurrentPidsInto_eq (k : Kernel) :
    k.getCurrentPidsInto = (k.getCurrentPids.1, k.getCurrentPids.2.zipIdx) := by
  simp only [getCurrentPidsInto, getCurrentPids]
  rw [collectInto_stop, collectInto_eq, Nat.zero_add]

end Kernel

namespace Process

/-- `data_pages_process` with the writes to `page_array`. -/
def dataPagesProcessInto (c : Process) : List (Addr × Nat) :=
  let found := collectInto null c.dataPage id maxDataPages 0 0 (int32 c.nDataPage)
  found.1 ++ [(null, found.2)]

/-- The array gets the list of `dataPagesProcess`. -/
theorem dataPagesProcessInto_eq (c : Process) :
    c.dataPagesProcessInto = c.dataPagesProcess.zipIdx := by
  simp only [dataPagesProcessInto, dataPagesProcess]
  rw [collectInto_stop, List.map_id]

end Process

/-- An enumeration that may stop early fills the array exactly if it did not and an entry of
the table is empty. -/
theorem fills_iff {α : Type*} {n : Nat} {table : Nat → Addr} {value : Addr → α} {stop : α}
    {left : Int} {found entries : List α}
    (hfound : found = (collectFrom null table n 0 left).map value)
    (hentries : entries = ((occupied n null table).map table).map value) :
    Fills n (found ++ [stop]).zipIdx entries stop ↔
      (∃ i, i < n ∧ table i = null) ∧ (occupied n null table).length ≤ left.toNat := by
  rw [collectFrom_take] at hfound
  rw [fills_zipIdx_iff, hfound, hentries, ← length_occupied_lt_iff]
  constructor
  · rintro ⟨hall, hlt⟩
    rw [hall, List.length_map, List.length_map] at hlt
    have hlength := congrArg List.length hall
    simp only [List.length_map, List.length_take] at hlength
    exact ⟨hlt, by omega⟩
  · rintro ⟨hlt, hcount⟩
    rw [List.take_of_length_le hcount, List.length_map, List.length_map]
    exact ⟨rfl, hlt⟩

/-- Both functions report every occupied entry once and in order, and stay inside of the array,
exactly if an entry of the table is empty and the counter does not stop them early. -/
theorem enumerations_fill (k : Kernel) (c : Process) :
    (Fills maxProcesses k.getCurrentPidsInto.2 k.tablePids (-1) ↔
      (∃ i, i < maxProcesses ∧ k.processTable i = null) ∧
        (occupied maxProcesses null k.processTable).length ≤ (int32 k.nProcesses).toNat) ∧
    (Fills maxDataPages c.dataPagesProcessInto c.recorded null ↔
      (∃ i, i < maxDataPages ∧ c.dataPage i = null) ∧
        (occupied maxDataPages null c.dataPage).length ≤ (int32 c.nDataPage).toNat) := by
  constructor
  · have hpids : k.tablePids = ((occupied maxProcesses null k.processTable).map
        k.processTable).map fun p => int32 (k.pidProcess p) := by
      simp only [Kernel.tablePids, List.map_map, Function.comp_def]
    simp only [Kernel.getCurrentPidsInto_eq, hpids, Kernel.getCurrentPids]
    exact fills_iff rfl rfl
  · rw [Process.dataPagesProcessInto_eq]
    exact fills_iff (List.map_id _).symm (List.map_id _).symm

/-- A table without an empty entry, for the processes and for the pages of a process. -/
def fullTables : Kernel × Process :=
  ({ processTable := fun i => i + 1, nProcesses := 128 },
    { Process.zero with dataPage := fun i => i + 1, nDataPage := 64 })

/-- The counters are right, and both marks go behind the arrays. -/
theorem fullTables_overflow :
    (fullTables.1.nProcesses = (occupied maxProcesses null fullTables.1.processTable).length ∧
      ((-1, maxProcesses) ∈ fullTables.1.getCurrentPidsInto.2) ∧
      ¬Fills maxProcesses fullTables.1.getCurrentPidsInto.2 fullTables.1.tablePids (-1)) ∧
    fullTables.2.Counted ∧ (null, maxDataPages) ∈ fullTables.2.dataPagesProcessInto ∧
      ¬Fills maxDataPages fullTables.2.dataPagesProcessInto fullTables.2.recorded null := by
  have hpids : (-1, maxProcesses) ∈ fullTables.1.getCurrentPidsInto.2 := by decide +kernel
  have hpages : (null, maxDataPages) ∈ fullTables.2.dataPagesProcessInto := by decide +kernel
  refine ⟨⟨by decide +kernel, hpids, fun h => ?_⟩, ?_, hpages, fun h => ?_⟩
  · exact absurd (h.inside _ hpids) (Nat.lt_irrefl _)
  · unfold Process.Counted
    decide +kernel
  · exact absurd (h.inside _ hpages) (Nat.lt_irrefl _)

end TPE
