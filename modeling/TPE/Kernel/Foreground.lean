import TPE.Library.Lineage
import TPE.Kernel.ProcessManager
import TPE.Kernel.ProcessTable

/-!
# The foreground

One process at a time has the keyboard and the screen.  It is handed on by the
process itself, by the escape key, and by `destroy_process` when the process in
the foreground is destroyed.

All three go through pids.  A process keeps the pid of its parent, which is
looked up in the process table when it is needed.  By then the slot may be
empty, or another process may be in it, and the foreground is not given to
`init`, so `destroy_process` may leave it with the process it destroys.
-/

namespace TPE

open Function

namespace Kernel

/-! ## The calls -/

/-- `INIT` and `SHELL` -/
abbrev initPid : Nat := 0
abbrev shellPid : Nat := 1

/-- `ppid_process` -/
def ppidProcess (k : Kernel) (p : Addr) : Nat :=
  if p ≠ null then (k.processes p).ppid else 2 ^ 64 - 1

/-- `sys_set_foreground` -/
def sysSetForeground (k : Kernel) (pid : Nat) : Nat × Kernel :=
  let p := k.getProcessByPid pid
  if p = null then (0, k) else (1, k.setForegroundProcess p)

/-- `sys_kill` -/
def sysKill (k : Kernel) (pid : Nat) : Nat × Kernel :=
  if pid ≠ initPid ∧ pid ≠ shellPid then
    let p := k.getProcessByPid pid
    (if p ≠ null then 1 else 0, { k with processes := Procs.killProcess k.processes p })
  else (0, k)

/-- `store_scancode`, for the escape key. -/
def storeEscape (k : Kernel) : Kernel :=
  k.setForegroundForceProcess (k.getProcessByPid (k.ppidProcess k.foreground))

variable {k k' : Kernel} {p q : Addr} {rip : Nat} {name : CString}

/-! ## What they do -/

/-- The second kernel has the same processes in the same slots. -/
structure SameTable (k k' : Kernel) : Prop where
  pages : k'.pages = k.pages
  table : k'.processTable = k.processTable
  count : k'.nProcesses = k.nProcesses
  pid : ∀ p, (k'.processes p).pid = (k.processes p).pid
  ppid : ∀ p, (k'.processes p).ppid = (k.processes p).ppid
  noData : ∀ p, (k'.processes p).nDataPage = (k.processes p).nDataPage

theorem SameTable.refl (k : Kernel) : SameTable k k :=
  ⟨rfl, rfl, rfl, fun _ => rfl, fun _ => rfl, fun _ => rfl⟩

/-- The foreground goes to `p`, unless that is nobody or `init`. -/
theorem setForegroundForceProcess_spec (k : Kernel) (p : Addr) :
    SameTable k (k.setForegroundForceProcess p) ∧
    (k.setForegroundForceProcess p).foreground =
      if p ≠ null ∧ (k.processes p).pid ≠ 0 then p else k.foreground := by
  unfold setForegroundForceProcess
  split
  next hgo =>
    have hs := Procs.MayUnblock.unblockForegroundProcess k.processes p
    exact ⟨⟨rfl, rfl, rfl, hs.pid_eq, hs.ppid_eq, hs.nDataPage_eq⟩, rfl⟩
  next => exact ⟨.refl k, rfl⟩

/-- A process found by its pid is the one in the table. -/
theorem getProcessByPid_eq (k : Kernel) (pid : Nat) :
    k.getProcessByPid pid = null ∨
      pid < maxProcesses ∧ k.processTable pid = k.getProcessByPid pid ∧
        k.getProcessByPid pid ≠ null := by
  unfold getProcessByPid
  split
  next hfound => exact Or.inr ⟨hfound.1, rfl, hfound.2.1⟩
  next => exact Or.inl rfl

/-- Only the process in the foreground hands it on. -/
theorem setForegroundProcess_same (k : Kernel) (p : Addr) :
    SameTable k (k.setForegroundProcess p) ∧
    (k.setForegroundProcess p).foreground =
      if k.foreground = k.getCurrentProcess ∧ p ≠ null ∧ (k.processes p).pid ≠ 0 then p
      else k.foreground := by
  unfold setForegroundProcess
  split
  next hfg =>
    obtain ⟨hsame, hto⟩ := setForegroundForceProcess_spec k p
    refine ⟨hsame, hto.trans ?_⟩
    simp only [hfg, true_and]
  next hfg => exact ⟨.refl k, by simp [hfg]⟩

/-- The number of processes does not matter. -/
theorem foreground_setForegroundProcess (k : Kernel) (n : Nat) (p : Addr) :
    (setForegroundProcess { k with nProcesses := n } p).foreground =
      if k.foreground = k.getCurrentProcess ∧ p ≠ null ∧ (k.processes p).pid ≠ 0 then p
      else k.foreground :=
  (setForegroundProcess_same { k with nProcesses := n } p).2

theorem sysKill_same (k : Kernel) (pid : Nat) :
    SameTable k (k.sysKill pid).2 ∧ (k.sysKill pid).2.foreground = k.foreground := by
  unfold sysKill
  split
  next =>
    unfold Procs.killProcess
    simp only
    split
    next =>
      refine ⟨⟨rfl, rfl, rfl, fun q => ?_, fun q => ?_, fun q => ?_⟩, trivial⟩
      all_goals
        by_cases hq : q = k.getProcessByPid pid
        · subst hq
          simp [Procs.setSt]
        · simp only [Procs.setSt_of_ne hq]
    next => exact ⟨.refl k, trivial⟩
  next => exact ⟨.refl k, rfl⟩

/-- Who has the foreground after the running process is destroyed.  The parent is
looked up before the slot is emptied. -/
theorem destroyProcess_foreground (hp : p ≠ null) (hdata : (k.processes p).nDataPage = 0)
    (hcur : k.getCurrentProcess = p) :
    (k.destroyProcess p).foreground =
      if k.foreground = p ∧ k.processTable (k.processes p).ppid ≠ null ∧
          (k.processes (k.processTable (k.processes p).ppid)).pid ≠ 0 then
        k.processTable (k.processes p).ppid
      else k.foreground := by
  unfold destroyProcess
  rw [if_pos hp]
  simp only
  rw [freeDataPages_of_zero (by exact hdata)]
  split
  next hfg =>
    have hfg' : k.foreground = p := hfg
    refine (foreground_setForegroundProcess k _ _).trans ?_
    rw [hcur, hfg']
  next hfg =>
    have hfg' : ¬k.foreground = p := hfg
    rw [if_neg fun he => hfg' he.1]
    rfl

/-- A created process is in the first empty slot. -/
theorem createProcess_first (h : k.createProcess rip name = some (p, k')) {i : Nat}
    (hi : i < maxProcesses) (hfree : k.processTable i = null)
    (hocc : ∀ j, j < i → k.processTable j ≠ null) : (k'.processes p).pid = i := by
  obtain ⟨pages, index, page, -, rfl⟩ := createProcess_eq h
  simp only [initProcess]
  have hfind : (List.range maxProcesses).find? (fun i => decide (k.processTable i = null)) =
      some i := by
    rw [List.find?_range_eq_some]
    exact ⟨by simpa using hfree, List.mem_range.mpr hi, fun j hj => by simpa using hocc j hj⟩
  unfold insertProcess
  split
  next j hj =>
    obtain rfl : i = j := Option.some.inj (hfind.symm.trans hj)
    split
    · simp [writeProcess]
    · simp [writeProcess]
  next hnone => exact absurd (hfind.symm.trans hnone) (by simp)

/-- Whose child a created process is, and who has the foreground. -/
theorem createProcess_family (h : k.createProcess rip name = some (p, k')) :
    ((k'.processes p).pid ≠ 0 → k'.foreground = k.foreground ∧
      (k.getCurrentProcess ≠ null → k.getCurrentProcess ≠ p →
        (k'.processes p).ppid = (k.processes k.getCurrentProcess).pid)) ∧
    ((k'.processes p).pid = 0 → k'.foreground = p) := by
  obtain ⟨pages, index, page, -, rfl⟩ := createProcess_eq h
  simp only [initProcess]
  unfold insertProcess
  split
  all_goals
    split
    next hpid =>
      refine ⟨fun _ => ⟨rfl, fun hcur hne => ?_⟩, fun hzero => absurd hzero ?_⟩
      · simp only [writeProcess, update_self, update_idem]
        rw [pidProcess, if_pos (by exact hcur)]
        exact congrArg Process.pid (update_of_ne hne _ _)
      · simpa [writeProcess] using hpid
    next hpid =>
      refine ⟨fun hnz => absurd ?_ hnz, fun _ => rfl⟩
      simpa [writeProcess] using hpid

/-! ## Runs -/

/-- The kernel, the processes that were created and not yet destroyed, and whose
child each of them is. -/
structure FgRun where
  k : Kernel
  live : List Addr
  serial : Addr → Nat
  parent : Nat → Nat
  clock : Nat

/-- Who descends from whom, and the pids. -/
def FgRun.lineage (s : FgRun) : Lineage Addr where
  number p := (s.k.processes p).pid
  parentNumber p := (s.k.processes p).ppid
  serial := s.serial
  parent := s.parent
  clock := s.clock

/-- What can happen in one step. -/
inductive FgAction where
  /-- The scheduler gets to a node, to dispatch or to destroy its process. -/
  | walk (node : Addr)
  /-- The running process creates one. -/
  | exec (rip : Nat) (name : CString)
  | kill (pid : Nat)
  | setForeground (pid : Nat)
  /-- The escape key is pressed. -/
  | escape
  /-- The process of the current node is destroyed: it was killed before, or it
  ends itself.  `init` does neither. -/
  | destroy

/-- Runs from where `init` has put the shell in the foreground. -/
def foregroundSystem : System FgRun FgAction where
  init s := ∃ (k₀ k₁ k₂ : Kernel) (rip rip' : Nat) (name name' : CString) (init shell node : Addr),
    (∀ i, k₀.processTable i = null) ∧ k₀.nProcesses = 0 ∧
    k₀.pages = PageStack.initializeMemoryAllocator ⟨fun _ => 0, 0⟩ ∧
    k₀.createProcess rip name = some (init, k₁) ∧ k₁.procOf node = init ∧
    createProcess { k₁ with current := node } rip' name' = some (shell, k₂) ∧
    s.k = k₂.setForegroundProcess (k₂.getProcessByPid shellPid) ∧
    s.live = [shell, init] ∧ s.serial init = 0 ∧ s.serial shell = 1 ∧ (∀ n, s.parent n = 0) ∧
    s.clock = 2
  next
    | s, .walk node =>
        if s.k.procOf node ∈ s.live then some { s with k := { s.k with current := node } } else none
    | s, .exec rip name =>
        if s.k.getCurrentProcess ∈ s.live then
          (s.k.createProcess rip name).map fun (p, k) =>
            { k
              live := p :: s.live
              serial := update s.serial p s.clock
              parent := update s.parent s.clock (s.serial s.k.getCurrentProcess)
              clock := s.clock + 1 }
        else none
    | s, .kill pid =>
        if s.k.getCurrentProcess ∈ s.live then some { s with k := (s.k.sysKill pid).2 } else none
    | s, .setForeground pid =>
        if s.k.getCurrentProcess ∈ s.live then some { s with k := (s.k.sysSetForeground pid).2 }
        else none
    | s, .escape => some { s with k := s.k.storeEscape }
    | s, .destroy =>
        let p := s.k.getCurrentProcess
        if p ∈ s.live ∧ (s.k.processes p).pid ≠ initPid then
          some { s with k := s.k.destroyProcess p, live := s.live.erase p }
        else none

/-- The process `q` is the parent of `p`. -/
def FgRun.Parent (s : FgRun) (q p : Addr) : Prop :=
  q ∈ s.live ∧ s.serial q = s.parent (s.serial p)

/-- A process is created only when a slot is empty, and the process in the
foreground is destroyed only while its own parent is there, and is not `init`. -/
def KeepsHeir (s : FgRun) : FgAction → Prop
  | .exec _ _ => ∃ i, i < maxProcesses ∧ s.k.processTable i = null
  | .destroy => s.k.foreground = s.k.getCurrentProcess →
      ∃ q, s.Parent q s.k.foreground ∧ (s.k.processes q).pid ≠ initPid
  | _ => True

/-- The process in the foreground is in the table and not destroyed. -/
structure FgOk (s : FgRun) : Prop where
  live : s.k.foreground ∈ s.live
  notNull : s.k.foreground ≠ null
  slot : s.k.processTable (s.k.processes s.k.foreground).pid = s.k.foreground

/-- The foreground is all right after a step.  If the process that had it was
destroyed, its parent has it now, or another ancestor if there is no parent. -/
structure HandsOver (s t : FgRun) : Prop where
  ok : FgOk t
  heir : s.k.foreground ∉ t.live → s.Parent t.k.foreground s.k.foreground ∨
    (∀ q, ¬s.Parent q s.k.foreground) ∧
      s.lineage.Ancestor (s.serial t.k.foreground) (s.serial s.k.foreground)

/-- The invariant of the runs. -/
structure FgInv (s : FgRun) (init : Addr) : Prop where
  table : TableRunInv ⟨s.k, s.live⟩
  foreground : s.k.foreground ∈ s.live
  lineage : s.lineage.Ok s.live init
  pidInit : (s.k.processes init).pid = 0
  ppidLt : ∀ p ∈ s.live, p ≠ init → (s.k.processes p).ppid < maxProcesses

namespace FgInv

variable {s t : FgRun} {init : Addr}

theorem fgOk (h : FgInv s init) : FgOk s := by
  have hslots := h.table.table.slots
  refine ⟨h.foreground, ?_, (hslots.entry _ h.foreground).2⟩
  intro hnull
  exact hslots.noEmpty (hnull ▸ h.foreground)

/-- A live process other than `init` has another pid. -/
theorem ne_init (h : FgInv s init) (hpid : (s.k.processes p).pid ≠ 0) : p ≠ init := by
  rintro rfl
  exact hpid h.pidInit

end FgInv

theorem TableRunInv.congr {live : List Addr} (h : TableRunInv ⟨k, live⟩) (hs : SameTable k k') :
    TableRunInv ⟨k', live⟩ := by
  constructor
  · show k'.pages.PagesOk _
    rw [hs.pages]
    exact h.pages
  · intro p hp
    show (k'.processes p).nDataPage = 0
    rw [hs.noData]
    exact h.noData p hp
  · constructor
    · show SlotsOk _ _ k'.processTable (fun p => (k'.processes p).pid) _
      rw [hs.table, funext hs.pid]
      exact h.table.slots
    · show k'.nProcesses = _
      rw [hs.count]
      exact h.table.count

namespace FgInv

variable {s t : FgRun} {init : Addr}

/-- Calls that leave the processes in their slots and put a live one in the
foreground. -/
theorem same (h : FgInv s init) (hs : SameTable s.k k') (hfg : k'.foreground ∈ s.live) :
    FgInv { s with k := k' } init where
  table := h.table.congr hs
  foreground := hfg
  lineage := h.lineage.congr (fun p _ => hs.pid p) (fun p _ => hs.ppid p) rfl rfl rfl
  pidInit := (hs.pid init).trans h.pidInit
  ppidLt p hp hne := by
    rw [hs.ppid p]
    exact h.ppidLt p hp hne

theorem getProcessByPid_mem (h : FgInv s init) {pid : Nat}
    (hne : s.k.getProcessByPid pid ≠ null) : s.k.getProcessByPid pid ∈ s.live := by
  rcases getProcessByPid_eq s.k pid with hnull | ⟨hlt, hslot, -⟩
  · exact absurd hnull hne
  · rw [← hslot] at hne ⊢
    exact (h.table.table.slots.slot pid hlt hne).1

theorem setForegroundProcess (h : FgInv s init) (pid : Nat) :
    FgInv { s with k := s.k.setForegroundProcess (s.k.getProcessByPid pid) } init := by
  obtain ⟨hsame, hfg⟩ := setForegroundProcess_same s.k (s.k.getProcessByPid pid)
  apply h.same hsame
  rw [hfg]
  split
  next hgo => exact h.getProcessByPid_mem hgo.2.1
  next => exact h.foreground

theorem storeEscape (h : FgInv s init) : FgInv { s with k := s.k.storeEscape } init := by
  obtain ⟨hsame, hfg⟩ := setForegroundForceProcess_spec s.k
    (s.k.getProcessByPid (s.k.ppidProcess s.k.foreground))
  apply h.same hsame
  rw [hfg]
  split
  next hgo => exact h.getProcessByPid_mem hgo.1
  next => exact h.foreground

/-- A process is created in an empty slot. -/
theorem exec (h : FgInv s init) (hcur : s.k.getCurrentProcess ∈ s.live)
    (hcreate : s.k.createProcess rip name = some (p, k')) {i : Nat} (hi : i < maxProcesses)
    (hfree : s.k.processTable i = null) :
    FgInv
      { k := k'
        live := p :: s.live
        serial := update s.serial p s.clock
        parent := update s.parent s.clock (s.serial s.k.getCurrentProcess)
        clock := s.clock + 1 } init := by
  have hslots := h.table.table.slots
  obtain ⟨hp, hne, -⟩ := h.table.created_fresh hcreate
  have hother : ∀ q ∈ s.live, q ≠ p := by
    rintro q hq rfl
    exact hp hq
  have hkeep : ∀ q ∈ s.live, k'.processes q = s.k.processes q :=
    fun q hq => (createProcess_spec hcreate).others q (hother q hq)
  have hnew : ∀ q ∈ s.live, (s.k.processes q).pid ≠ (k'.processes p).pid := by
    rcases createProcess_table hcreate with ⟨j, hj, hempty, -, hpid, -⟩ | ⟨hfull, -, -⟩
    · intro q hq he
      have hslot := (hslots.entry q hq).2
      rw [he, hpid, hempty] at hslot
      exact hslots.noEmpty (hslot ▸ hq)
    · exact absurd hfree (hfull i hi)
  have hpid : (k'.processes p).pid ≠ 0 := by
    rw [← h.pidInit]
    exact (hnew init h.lineage.rootLive).symm
  have hcurNull : s.k.getCurrentProcess ≠ null := fun he => hslots.noEmpty (he ▸ hcur)
  obtain ⟨hfg, hchild⟩ := (createProcess_family hcreate).1 hpid
  have hppid := hchild hcurNull (hother _ hcur)
  refine ⟨h.table.create hcreate hi hfree, ?_, ?_, ?_, fun q hq hroot => ?_⟩
  · show k'.foreground ∈ p :: s.live
    rw [hfg]
    exact List.mem_cons_of_mem p h.foreground
  · exact h.lineage.born hcur hp (fun q hq => congrArg Process.pid (hkeep q hq))
      (fun q hq => congrArg Process.ppid (hkeep q hq)) hnew hppid
  · rw [hkeep init h.lineage.rootLive]
    exact h.pidInit
  · rcases List.mem_cons.mp hq with rfl | hold
    · show (k'.processes q).ppid < maxProcesses
      rw [hppid]
      exact (hslots.entry _ hcur).1
    · show (k'.processes q).ppid < maxProcesses
      rw [hkeep q hold]
      exact h.ppidLt q hold hroot

/-- The parent of a process that still lives is in the slot the process looks up. -/
theorem slot_of_parent (h : FgInv s init) (hp : p ∈ s.live) (hne : p ≠ init) (hq : s.Parent q p) :
    s.k.processTable (s.k.processes p).ppid = q := by
  have hnum : (s.k.processes q).pid = (s.k.processes p).ppid :=
    h.lineage.sameSerial p hp hne q hq.1 hq.2
  rw [← hnum]
  exact (h.table.table.slots.entry q hq.1).2

/-- The process in the foreground is destroyed while its parent is there. -/
theorem destroy (h : FgInv s init) (hp : s.k.getCurrentProcess ∈ s.live)
    (hpid : (s.k.processes s.k.getCurrentProcess).pid ≠ 0) (hg : KeepsHeir s .destroy) :
    FgInv { s with
      k := s.k.destroyProcess s.k.getCurrentProcess
      live := s.live.erase s.k.getCurrentProcess } init ∧
    (s.k.foreground ∉ s.live.erase s.k.getCurrentProcess →
      s.Parent (s.k.destroyProcess s.k.getCurrentProcess).foreground s.k.foreground) := by
  have hslots := h.table.table.slots
  have hne := h.ne_init hpid
  have hdata := h.table.noData _ hp
  have hnull : s.k.getCurrentProcess ≠ null := fun he => hslots.noEmpty (he ▸ hp)
  have hmem : ∀ q, q ∈ s.live.erase s.k.getCurrentProcess ↔
      q ≠ s.k.getCurrentProcess ∧ q ∈ s.live := fun q => hslots.nodup.mem_erase_iff
  have hd := destroyProcess_spec hnull hdata
  have hlineage : (FgRun.lineage { s with
      k := s.k.destroyProcess s.k.getCurrentProcess
      live := s.live.erase s.k.getCurrentProcess }).Ok
      (s.live.erase s.k.getCurrentProcess) init := by
    refine Lineage.Ok.congr (h.lineage.die (fun q hq => List.mem_of_mem_erase hq) ?_)
      (fun q _ => hd.procs.pid_eq q) (fun q _ => hd.procs.ppid_eq q) rfl rfl rfl
    exact (hmem init).mpr ⟨hne.symm, h.lineage.rootLive⟩
  have hinit : ((s.k.destroyProcess s.k.getCurrentProcess).processes init).pid = 0 :=
    (hd.procs.pid_eq init).trans h.pidInit
  have hppid : ∀ q ∈ s.live.erase s.k.getCurrentProcess, q ≠ init →
      ((s.k.destroyProcess s.k.getCurrentProcess).processes q).ppid < maxProcesses := by
    intro q hq hroot
    rw [hd.procs.ppid_eq q]
    exact h.ppidLt q (List.mem_of_mem_erase hq) hroot
  have hfg := destroyProcess_foreground hnull hdata rfl
  by_cases hcur : s.k.foreground = s.k.getCurrentProcess
  · obtain ⟨q, hparent, hq⟩ := hg hcur
    have hslot := h.slot_of_parent (hcur ▸ hp) (hcur ▸ hne) hparent
    rw [hcur] at hslot
    have hheir : (s.k.destroyProcess s.k.getCurrentProcess).foreground = q := by
      rw [hfg, hslot, if_pos]
      refine ⟨hcur, ?_, hq⟩
      rintro rfl
      exact hslots.noEmpty hparent.1
    have hqp : q ≠ s.k.getCurrentProcess := by
      rintro rfl
      have hnum := h.lineage.sameSerial _ hp hne _ hp (hcur ▸ hparent.2)
      exact h.lineage.notSelf _ hp hne hnum.symm
    refine ⟨⟨h.table.destroy hp, ?_, hlineage, hinit, hppid⟩, fun _ => ?_⟩
    · show (s.k.destroyProcess s.k.getCurrentProcess).foreground ∈ _
      rw [hheir]
      exact (hmem q).mpr ⟨hqp, hparent.1⟩
    · rw [hheir]
      exact hparent
  · have hsame : (s.k.destroyProcess s.k.getCurrentProcess).foreground = s.k.foreground := by
      rw [hfg, if_neg fun he => hcur he.1]
    have hstays := (hmem s.k.foreground).mpr ⟨hcur, h.foreground⟩
    refine ⟨⟨h.table.destroy hp, ?_, hlineage, hinit, hppid⟩, fun hgone => absurd hstays hgone⟩
    show (s.k.destroyProcess s.k.getCurrentProcess).foreground ∈ _
    rw [hsame]
    exact hstays

/-- Nobody else is a right heir. -/
theorem keepsHeir_of_handsOver (h : FgInv s init) (hp : s.k.getCurrentProcess ∈ s.live)
    (hpid : (s.k.processes s.k.getCurrentProcess).pid ≠ 0)
    (ht : HandsOver s { s with
      k := s.k.destroyProcess s.k.getCurrentProcess
      live := s.live.erase s.k.getCurrentProcess }) : KeepsHeir s .destroy := by
  intro hcur
  have hslots := h.table.table.slots
  have hne := h.ne_init hpid
  have hnull : s.k.getCurrentProcess ≠ null := fun he => hslots.noEmpty (he ▸ hp)
  have hlive : (s.k.destroyProcess s.k.getCurrentProcess).foreground ≠ s.k.getCurrentProcess :=
    (hslots.nodup.mem_erase_iff.mp ht.ok.live).1
  have hfg := destroyProcess_foreground hnull (h.table.noData _ hp) rfl
  -- it was handed to the process in the parent's slot
  split at hfg
  next hgo =>
    obtain ⟨hmem, hnum⟩ := hslots.slot _ (h.ppidLt _ hp hne) hgo.2.1
    rw [← hfg] at hmem hnum
    have hgone : s.k.foreground ∉ s.live.erase s.k.getCurrentProcess := by
      rw [hcur]
      exact hslots.nodup.not_mem_erase
    refine ⟨(s.k.destroyProcess s.k.getCurrentProcess).foreground, ?_, ?_⟩
    · rcases ht.heir hgone with hparent | ⟨-, hancestor⟩
      · exact hparent
      · refine ⟨hmem, ?_⟩
        rw [hcur] at hancestor ⊢
        exact h.lineage.parent_of_ancestor hp hne hmem hnum hancestor
    · rw [hfg]
      exact hgo.2.2
  next => exact absurd (hfg.trans hcur) hlive

/-- `init` has started the shell and put it in the foreground. -/
theorem of_init (h : foregroundSystem.init s) : ∃ init, FgInv s init := by
  obtain ⟨k₀, k₁, k₂, rip, rip', name, name', init, shell, node, htable, hn, hpages, hinit, hnode,
    hshell, hk, hlive, hserial, hserial', hparent, hclock⟩ := h
  have hempty : TableRunInv ⟨k₀, []⟩ := TableRunInv.of_init ⟨htable, hn, hpages, rfl⟩
  -- `init` gets the slot 0
  obtain ⟨-, hinitNull, -⟩ := hempty.created_fresh hinit
  have hpid₀ := createProcess_first hinit (i := 0) (by decide) (htable 0) fun j hj => absurd hj (by omega)
  have hone : TableRunInv ⟨k₁, [init]⟩ := hempty.create hinit (i := 0) (by decide) (htable 0)
  have hfg₁ : k₁.foreground = init := (createProcess_family hinit).2 hpid₀
  -- the shell gets the slot 1
  have hone' : TableRunInv ⟨{ k₁ with current := node }, [init]⟩ :=
    hone.congr ⟨rfl, rfl, rfl, fun _ => rfl, fun _ => rfl, fun _ => rfl⟩
  have hslots := hone'.table.slots
  have hslot₀ : k₁.processTable 0 = init := by
    have hself := (hslots.entry init List.mem_cons_self).2
    simp only [hpid₀] at hself
    exact hself
  have hfree : ({ k₁ with current := node } : Kernel).processTable 1 = null := by
    by_contra hocc
    obtain ⟨hmem, hpid⟩ := hslots.slot 1 (by decide) hocc
    rw [List.mem_singleton.mp hmem] at hpid
    exact absurd (hpid₀.symm.trans hpid) (by decide)
  have hpid₁ : (k₂.processes shell).pid = 1 := by
    refine createProcess_first hshell (by decide) hfree ?_
    intro j hj he
    obtain rfl : j = 0 := by omega
    exact hinitNull (hslot₀.symm.trans he)
  obtain ⟨hshellFresh, hshellNull, -⟩ := hone'.created_fresh hshell
  have htwo : TableRunInv ⟨k₂, [shell, init]⟩ := hone'.create hshell (by decide) hfree
  have hc := createProcess_spec hshell
  have hne : init ≠ shell := fun he => hshellFresh (List.mem_singleton.mpr he.symm)
  have hpidInit : (k₂.processes init).pid = 0 := by
    rw [hc.others init hne]
    exact hpid₀
  have hcur : k₂.getCurrentProcess = init := by
    rw [getCurrentProcess, hc.nodes, hc.current]
    exact hnode
  obtain ⟨hfg₂, hchild⟩ := (createProcess_family hshell).1 (by rw [hpid₁]; decide)
  have hppid : (k₂.processes shell).ppid = 0 := by
    refine (hchild ?_ ?_).trans ?_
    · exact fun he => hinitNull (hnode.symm.trans he)
    · exact fun he => hne (hnode.symm.trans he)
    · rw [show getCurrentProcess { k₁ with current := node } = init from hnode]
      exact hpid₀
  -- and is put in the foreground
  have hfound : k₂.getProcessByPid shellPid = shell := by
    have hself := (htwo.table.slots.entry shell List.mem_cons_self).2
    simp only [hpid₁] at hself
    unfold getProcessByPid
    rw [if_pos]
    · exact hself
    · rw [hself]
      refine ⟨by decide, hshellNull, fun hdel => ?_⟩
      have hst := hdel.2
      rw [hc.ready] at hst
      cases hst
  obtain ⟨hsame, hfg⟩ := setForegroundProcess_same k₂ (k₂.getProcessByPid shellPid)
  rw [hfound] at hsame hfg
  rw [if_pos] at hfg
  · rw [hfound] at hk
    refine ⟨init, ?_, ?_, ?_, ?_, ?_⟩
    · rw [hk, hlive]
      exact htwo.congr hsame
    · rw [hk, hlive, hfg]
      exact List.mem_cons_self
    · rw [hlive]
      refine Lineage.Ok.pair ?_ ?_ hserial hserial' hparent hclock
      · show (s.k.processes shell).pid ≠ (s.k.processes init).pid
        rw [hk, hsame.pid, hsame.pid, hpid₁, hpidInit]
        decide
      · show (s.k.processes shell).ppid = (s.k.processes init).pid
        rw [hk, hsame.ppid, hsame.pid, hppid, hpidInit]
    · rw [hk, hsame.pid, hpidInit]
    · intro p hp hroot
      rw [hlive] at hp
      rcases List.mem_cons.mp hp with rfl | hp
      · rw [hk, hsame.ppid, hppid]
        decide
      · exact absurd (List.mem_singleton.mp hp) hroot
  · refine ⟨?_, hshellNull, ?_⟩
    · rw [hcur]
      exact hfg₂.trans hfg₁
    · rw [hpid₁]
      decide

/-- Every step that meets the guard keeps the invariant and hands the foreground
over as it should. -/
theorem next {a : FgAction} (h : FgInv s init) (hg : KeepsHeir s a)
    (hn : foregroundSystem.next s a = some t) : FgInv t init ∧ HandsOver s t := by
  have hstays : ∀ {t : FgRun}, FgInv t init → s.k.foreground ∈ t.live → HandsOver s t :=
    fun ht hmem => ⟨ht.fgOk, fun hgone => absurd hmem hgone⟩
  cases a with
  | walk node =>
      simp only [foregroundSystem] at hn
      split at hn
      next =>
        cases hn
        have ht : FgInv { s with k := { s.k with current := node } } init := h.same
          ⟨rfl, rfl, rfl, fun _ => rfl, fun _ => rfl, fun _ => rfl⟩ h.foreground
        exact ⟨ht, hstays ht h.foreground⟩
      next => cases hn
  | exec rip name =>
      simp only [foregroundSystem] at hn
      split at hn
      next hcur =>
        obtain ⟨⟨p, k⟩, hcreate, rfl⟩ := Option.map_eq_some_iff.mp hn
        obtain ⟨i, hi, hfree⟩ := hg
        have ht := h.exec hcur hcreate hi hfree
        exact ⟨ht, hstays ht (List.mem_cons_of_mem p h.foreground)⟩
      next => cases hn
  | kill pid =>
      simp only [foregroundSystem] at hn
      split at hn
      next =>
        cases hn
        obtain ⟨hsame, hfg⟩ := sysKill_same s.k pid
        have ht := h.same hsame (hfg ▸ h.foreground)
        exact ⟨ht, hstays ht h.foreground⟩
      next => cases hn
  | setForeground pid =>
      simp only [foregroundSystem] at hn
      split at hn
      next =>
        cases hn
        have ht : FgInv { s with k := (s.k.sysSetForeground pid).2 } init := by
          unfold sysSetForeground
          simp only
          split
          next => exact h
          next => exact h.setForegroundProcess pid
        exact ⟨ht, hstays ht h.foreground⟩
      next => cases hn
  | escape =>
      cases hn
      exact ⟨h.storeEscape, hstays h.storeEscape h.foreground⟩
  | destroy =>
      simp only [foregroundSystem] at hn
      split at hn
      next hp =>
        cases hn
        obtain ⟨ht, hheir⟩ := h.destroy hp.1 hp.2 hg
        exact ⟨ht, ht.fgOk, fun hgone => Or.inl (hheir hgone)⟩
      next => cases hn

end FgInv

/-- The foreground process is in the table and not destroyed, in every run whose
steps meet the guard, and its parent has the foreground after it.  A destruction
that does not meet the guard breaks that. -/
theorem foreground_alive {s : FgRun} (h : foregroundSystem.ReachBy KeepsHeir s) :
    FgOk s ∧ ∀ a t, foregroundSystem.next s a = some t →
      (KeepsHeir s a → HandsOver s t) ∧ (a = .destroy → HandsOver s t → KeepsHeir s a) := by
  obtain ⟨init, hinv⟩ : ∃ init, FgInv s init := by
    refine h.invariant (I := fun s => ∃ init, FgInv s init) (fun _ hs => FgInv.of_init hs) ?_
    rintro s a t ⟨init, hi⟩ hg hn
    exact ⟨init, (hi.next hg hn).1⟩
  refine ⟨hinv.fgOk, fun a t hn => ⟨fun hg => (hinv.next hg hn).2, ?_⟩⟩
  rintro rfl ht
  simp only [foregroundSystem] at hn
  split at hn
  next hp =>
    cases hn
    exact hinv.keepsHeir_of_handsOver hp.1 hp.2 ht
  next => cases hn

instance (s : FgRun) (a : FgAction) : Decidable (KeepsHeir s a) :=
  match a with
  | .exec _ _ => decidable_of_iff (∃ i ∈ List.range maxProcesses, s.k.processTable i = null)
      (by simp [KeepsHeir])
  | .destroy => decidable_of_iff (s.k.foreground = s.k.getCurrentProcess →
      ∃ q ∈ s.live, s.serial q = s.parent (s.serial s.k.foreground) ∧
        (s.k.processes q).pid ≠ initPid) (by simp [KeepsHeir, FgRun.Parent, and_assoc])
  | .walk _ => isTrue trivial
  | .kill _ => isTrue trivial
  | .setForeground _ => isTrue trivial
  | .escape => isTrue trivial

theorem eq_some_of_fst {r : Option (Addr × Kernel)} (h : r.isSome) (hp : (r.get h).1 = p) :
    r = some (p, (r.get h).2) := by
  subst hp
  exact (Option.some_get h).symm

/-- Every process has the node at its own address. -/
def fgBooted : Kernel where
  pages := PageStack.initializeMemoryAllocator ⟨fun _ => 0, 0⟩
  nodes a := ⟨0, a, null⟩

theorem createProcess_fgBooted : (fgBooted.createProcess 0 .nil).isSome := by decide +kernel

/-- The kernel when `init` runs. -/
def fgInit : Kernel :=
  { ((fgBooted.createProcess 0 .nil).get createProcess_fgBooted).2 with current := pageAddr 1 }

theorem createProcess_fgInit : (fgInit.createProcess 0 .nil).isSome := by decide +kernel

/-- The kernel when `init` has created the shell. -/
def fgShell : Kernel := ((fgInit.createProcess 0 .nil).get createProcess_fgInit).2

/-- The shell has the foreground. -/
def fgStarted : FgRun where
  k := fgShell.setForegroundProcess (fgShell.getProcessByPid shellPid)
  live := [pageAddr 2, pageAddr 1]
  serial p := if p = pageAddr 1 then 0 else 1
  parent _ := 0
  clock := 2

theorem init_fgStarted : foregroundSystem.init fgStarted := by
  refine ⟨fgBooted, ((fgBooted.createProcess 0 .nil).get createProcess_fgBooted).2, fgShell, 0, 0,
    .nil, .nil, pageAddr 1, pageAddr 2, pageAddr 1, fun _ => rfl, rfl, rfl, ?_, by decide +kernel, ?_,
    rfl, rfl, by decide, by decide, fun _ => rfl, rfl⟩
  · exact eq_some_of_fst createProcess_fgBooted (by decide +kernel)
  · exact eq_some_of_fst createProcess_fgInit (by decide +kernel)

/-- The shell starts a process in the foreground, which ends. -/
def childEnded : Option FgRun :=
  foregroundSystem.executeBy (fun s a => decide (KeepsHeir s a)) fgStarted
    [.walk (pageAddr 2), .exec 0 .nil, .setForeground 2, .walk (pageAddr 3), .setForeground 1, .destroy]

theorem foreground_alive_ended :
    FgOk (childEnded.get (by decide +kernel)) ∧ ∀ a t,
      foregroundSystem.next (childEnded.get (by decide +kernel)) a = some t →
        (KeepsHeir (childEnded.get (by decide +kernel)) a →
          HandsOver (childEnded.get (by decide +kernel)) t) ∧
        (a = .destroy → HandsOver (childEnded.get (by decide +kernel)) t →
          KeepsHeir (childEnded.get (by decide +kernel)) a) :=
  foreground_alive ((System.ReachBy.init init_fgStarted).execute
    (fun _ _ hg => of_decide_eq_true hg) (Option.some_get _).symm)

/-- A process in the foreground starts another one there and ends.  When that one
ends too, its parent's slot is empty and it stays the foreground process. -/
theorem foreground_dangles : ¬∀ s, foregroundSystem.Reach s → FgOk s := by
  intro hall
  obtain ⟨s, hs, hgone⟩ := System.exists_reach_of_execute init_fgStarted
    [.walk (pageAddr 2), .exec 0 .nil, .setForeground 2, .walk (pageAddr 3), .exec 0 .nil,
      .setForeground 3, .setForeground 1, .destroy, .walk (pageAddr 4), .setForeground 2, .destroy]
    (fun s => decide (s.k.foreground ∉ s.live)) (by decide +kernel)
  exact of_decide_eq_true hgone (hall s hs).live

end Kernel

end TPE
