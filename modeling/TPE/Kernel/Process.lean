import TPE.Kernel.MemoryAllocator

/-!
# Processes

`process.c`: the status of a process, the process table, and how a process is
created and destroyed.

The functions that only write a process structure act on the memory of these
structures, `Procs`.  `NULL` is tested where the source tests it.
-/

namespace TPE

open Function

namespace Procs

/-! ## The status of a process -/

/-- `p->st = st` -/
def setSt (procs : Procs) (p : Addr) (st : Status) : Procs :=
  update procs p { procs p with st }

/-- `is_blocked_process` -/
def isBlockedProcess (procs : Procs) (p : Addr) : Prop :=
  p ≠ null → (procs p).st = .blocked ∨ (procs p).st = .blockedRead ∨
    (procs p).st = .blockedForeground

instance (procs : Procs) (p : Addr) : Decidable (procs.isBlockedProcess p) :=
  inferInstanceAs (Decidable (_ → _ ∨ _ ∨ _))

/-- `is_delete_process` -/
def isDeleteProcess (procs : Procs) (p : Addr) : Prop := p ≠ null ∧ (procs p).st = .delete

instance (procs : Procs) (p : Addr) : Decidable (procs.isDeleteProcess p) :=
  inferInstanceAs (Decidable (_ ∧ _))

/-- `block_process` -/
def blockProcess (procs : Procs) (p : Addr) : Procs :=
  if p ≠ null ∧ (procs p).st ≠ .delete then procs.setSt p .blocked else procs

/-- `unblock_process` -/
def unblockProcess (procs : Procs) (p : Addr) : Procs :=
  if p ≠ null ∧ (procs p).st ≠ .delete then procs.setSt p .ready else procs

/-- `kill_process` -/
def killProcess (procs : Procs) (p : Addr) : Procs :=
  if p ≠ null ∧ (procs p).pid ≠ 1 ∧ (procs p).pid ≠ 0 then procs.setSt p .delete else procs

/-- `unblock_read_process` -/
def unblockReadProcess (procs : Procs) (p : Addr) : Procs :=
  if (procs p).st = .blockedRead then procs.unblockProcess p else procs

/-- `block_read_process` -/
def blockReadProcess (procs : Procs) (p : Addr) : Procs := procs.setSt p .blockedRead

/-- `block_foreground_process` -/
def blockForegroundProcess (procs : Procs) (p : Addr) : Procs :=
  if p ≠ null then procs.setSt p .blockedForeground else procs

/-- `unblock_foreground_process` -/
def unblockForegroundProcess (procs : Procs) (p : Addr) : Procs :=
  if p ≠ null ∧ (procs p).st = .blockedForeground then procs.setSt p .ready else procs

@[simp] theorem setSt_st_self (procs : Procs) (p : Addr) (st : Status) :
    (procs.setSt p st p).st = st := by
  simp [setSt]

theorem setSt_of_ne {procs : Procs} {p q : Addr} {st : Status} (h : q ≠ p) :
    procs.setSt p st q = procs q := by
  simp [setSt, h]

theorem blockProcess_of_ne {procs : Procs} {p q : Addr} (h : q ≠ p) :
    procs.blockProcess p q = procs q := by
  unfold blockProcess
  split
  · exact setSt_of_ne h
  · rfl

theorem unblockProcess_of_ne {procs : Procs} {p q : Addr} (h : q ≠ p) :
    procs.unblockProcess p q = procs q := by
  unfold unblockProcess
  split
  · exact setSt_of_ne h
  · rfl

theorem blockProcess_st_self {procs : Procs} {p : Addr} (hp : p ≠ null)
    (hst : (procs p).st ≠ .delete) : (procs.blockProcess p p).st = .blocked := by
  simp [blockProcess, hp, hst]

theorem unblockProcess_st_self {procs : Procs} {p : Addr} (hp : p ≠ null)
    (hst : (procs p).st ≠ .delete) : (procs.unblockProcess p p).st = .ready := by
  simp [unblockProcess, hp, hst]

theorem openFds_unblockProcess (procs : Procs) (p q : Addr) :
    (procs.unblockProcess p q).openFds = (procs q).openFds := by
  unfold unblockProcess
  split
  · by_cases h : q = p
    · subst h
      simp [setSt]
    · rw [setSt_of_ne h]
  · rfl

theorem isBlockedProcess_block {procs : Procs} {p : Addr} (hp : p ≠ null)
    (hst : (procs p).st ≠ .delete) :
    (procs.blockProcess p).isBlockedProcess = update procs.isBlockedProcess p True := by
  funext q
  by_cases hq : q = p
  · subst hq
    rw [update_self]
    exact eq_true fun _ => Or.inl (blockProcess_st_self hp hst)
  · rw [update_of_ne hq]
    unfold isBlockedProcess
    rw [blockProcess_of_ne hq]

theorem isBlockedProcess_unblock {procs : Procs} {p : Addr} (hp : p ≠ null)
    (hst : (procs p).st ≠ .delete) :
    (procs.unblockProcess p).isBlockedProcess = update procs.isBlockedProcess p False := by
  funext q
  by_cases hq : q = p
  · subst hq
    rw [update_self]
    refine eq_false fun h => ?_
    have hready := unblockProcess_st_self hp hst
    rcases h hp with h | h | h <;> rw [hready] at h <;> cases h
  · rw [update_of_ne hq]
    unfold isBlockedProcess
    rw [unblockProcess_of_ne hq]

/-- Neither a block nor an unblock revokes a kill, and neither kills. -/
theorem blockProcess_delete_iff {procs : Procs} {p q : Addr} :
    (procs.blockProcess p q).st = .delete ↔ (procs q).st = .delete := by
  by_cases h : q = p
  · subst h
    unfold blockProcess
    split
    next hgo => simp [hgo.2]
    next => rfl
  · rw [blockProcess_of_ne h]

theorem unblockProcess_delete_iff {procs : Procs} {p q : Addr} :
    (procs.unblockProcess p q).st = .delete ↔ (procs q).st = .delete := by
  by_cases h : q = p
  · subst h
    unfold unblockProcess
    split
    next hgo => simp [hgo.2]
    next => rfl
  · rw [unblockProcess_of_ne h]

/-- The second memory differs from the first at most in processes that waited
for the foreground and are ready now. -/
def MayUnblock (procs procs' : Procs) : Prop :=
  ∀ q, procs' q = procs q ∨
    (procs q).st = .blockedForeground ∧ procs' q = { procs q with st := .ready }

namespace MayUnblock

theorem refl (procs : Procs) : MayUnblock procs procs := fun _ => Or.inl rfl

theorem trans {procs procs' procs'' : Procs} (h : MayUnblock procs procs')
    (h' : MayUnblock procs' procs'') : MayUnblock procs procs'' := by
  intro q
  rcases h q with hq | ⟨hst, hq⟩
  · rcases h' q with hq' | ⟨hst', hq'⟩
    · exact Or.inl (hq'.trans hq)
    · rw [hq] at hst' hq'
      exact Or.inr ⟨hst', hq'⟩
  · rcases h' q with hq' | ⟨hst', -⟩
    · exact Or.inr ⟨hst, hq'.trans hq⟩
    · rw [hq] at hst'
      cases hst'

theorem isDeleteProcess_iff {procs procs' : Procs} (h : MayUnblock procs procs') (q : Addr) :
    procs'.isDeleteProcess q ↔ procs.isDeleteProcess q := by
  unfold isDeleteProcess
  rcases h q with hq | ⟨hst, hq⟩
  · rw [hq]
  · simp [hq, hst]

theorem not_isBlockedProcess {procs procs' : Procs} (h : MayUnblock procs procs') {q : Addr}
    (hq : ¬procs.isBlockedProcess q) : ¬procs'.isBlockedProcess q := by
  unfold isBlockedProcess at *
  rcases h q with he | ⟨hst, -⟩
  · rwa [he]
  · exact absurd (fun _ => Or.inr (Or.inr hst)) hq

theorem rsp_eq {procs procs' : Procs} (h : MayUnblock procs procs') (q : Addr) :
    (procs' q).rsp = (procs q).rsp := by
  rcases h q with hq | ⟨-, hq⟩ <;> rw [hq]

theorem nDataPage_eq {procs procs' : Procs} (h : MayUnblock procs procs') (q : Addr) :
    (procs' q).nDataPage = (procs q).nDataPage := by
  rcases h q with hq | ⟨-, hq⟩ <;> rw [hq]

theorem pid_eq {procs procs' : Procs} (h : MayUnblock procs procs') (q : Addr) :
    (procs' q).pid = (procs q).pid := by
  rcases h q with hq | ⟨-, hq⟩ <;> rw [hq]

theorem ppid_eq {procs procs' : Procs} (h : MayUnblock procs procs') (q : Addr) :
    (procs' q).ppid = (procs q).ppid := by
  rcases h q with hq | ⟨-, hq⟩ <;> rw [hq]

theorem dataPage_eq {procs procs' : Procs} (h : MayUnblock procs procs') (q : Addr) :
    (procs' q).dataPage = (procs q).dataPage := by
  rcases h q with hq | ⟨-, hq⟩ <;> rw [hq]

theorem unblockForegroundProcess (procs : Procs) (p : Addr) :
    MayUnblock procs (procs.unblockForegroundProcess p) := by
  intro q
  unfold Procs.unblockForegroundProcess
  split
  next hgo =>
    by_cases hq : q = p
    · subst hq
      exact Or.inr ⟨hgo.2, by simp [setSt]⟩
    · exact Or.inl (setSt_of_ne hq)
  next => exact Or.inl rfl

end MayUnblock

end Procs

/-! ## Changes of status -/

/-- The functions that change the status of a process. -/
inductive StatusCall where
  | block
  | unblock
  | kill
  | blockRead
  | unblockRead
  | blockForeground
  | unblockForeground
deriving DecidableEq, Repr

def StatusCall.apply : StatusCall → Procs → Addr → Procs
  | .block, procs, p => procs.blockProcess p
  | .unblock, procs, p => procs.unblockProcess p
  | .kill, procs, p => procs.killProcess p
  | .blockRead, procs, p => procs.blockReadProcess p
  | .unblockRead, procs, p => procs.unblockReadProcess p
  | .blockForeground, procs, p => procs.blockForegroundProcess p
  | .unblockForeground, procs, p => procs.unblockForegroundProcess p

/-- A call writes the status of its process at most, and only `kill_process`
marks it for deletion. -/
theorem StatusCall.apply_eq (call : StatusCall) (procs : Procs) (p : Addr) :
    ∃ st, call.apply procs p = procs.setSt p st ∧
      (call ≠ .kill → (procs p).st ≠ .delete → st ≠ .delete) := by
  have hsame : procs = procs.setSt p (procs p).st := (update_eq_self p procs).symm
  cases call with
  | blockRead => exact ⟨_, rfl, fun _ _ => by decide⟩
  | _ =>
      simp only [apply, Procs.blockProcess, Procs.unblockProcess, Procs.killProcess,
        Procs.unblockReadProcess, Procs.blockForegroundProcess, Procs.unblockForegroundProcess]
      repeat' split
      all_goals first
        | exact ⟨_, hsame, fun _ h => h⟩
        | exact ⟨_, rfl, fun h => absurd rfl h⟩
        | exact ⟨_, rfl, fun _ _ => by decide⟩

namespace Kernel

/-- Change the status of a process. -/
def applyStatus (k : Kernel) (call : StatusCall) (p : Addr) : Kernel :=
  { k with processes := call.apply k.processes p }

/-- Write the structure of the process at `p`. -/
def writeProcess (k : Kernel) (p : Addr) (f : Process → Process) : Kernel :=
  { k with processes := update k.processes p (f (k.processes p)) }

/-! ## The foreground -/

/-- `set_foreground_force_process` -/
def setForegroundForceProcess (k : Kernel) (p : Addr) : Kernel :=
  if p ≠ null ∧ (k.processes p).pid ≠ 0 then
    { k with foreground := p, processes := Procs.unblockForegroundProcess k.processes p }
  else k

/-- `set_foreground_process` -/
def setForegroundProcess (k : Kernel) (p : Addr) : Kernel :=
  if k.foreground = k.getCurrentProcess then k.setForegroundForceProcess p else k

/-! ## The process table -/

/-- `insert_process`: the pid, or -1 if the table is full. -/
def insertProcess (k : Kernel) (p : Addr) : Int × Kernel :=
  match (List.range maxProcesses).find? fun i => k.processTable i = null with
  | some i =>
      let k := { k with nProcesses := (k.nProcesses + 1) % 2 ^ 64 }
      let k := k.writeProcess p fun c => { c with pid := i }
      (i, { k with processTable := update k.processTable i p })
  | none => (-1, k)

/-- `get_process_by_pid` -/
def getProcessByPid (k : Kernel) (pid : Nat) : Addr :=
  if pid < maxProcesses ∧ k.processTable pid ≠ null ∧
      ¬Procs.isDeleteProcess k.processes (k.processTable pid) then
    k.processTable pid
  else null

/-- `pid_process` -/
def pidProcess (k : Kernel) (p : Addr) : Nat := if p ≠ null then (k.processes p).pid else 2 ^ 64 - 1

/-- `get_rsp_process` -/
def getRspProcess (k : Kernel) (p : Addr) : Nat := if p ≠ null then (k.processes p).rsp else 2 ^ 64 - 1

/-- `set_rsp_process` -/
def setRspProcess (k : Kernel) (p : Addr) (rsp : Nat) : Kernel :=
  if p ≠ null then k.writeProcess p fun c => { c with rsp } else k

/-! ## Creation -/

/-- `fill_stack` returns the address of a `StackFrame` (23 words) below the end
of the stack page.  What it writes there is the subject of `writeFrame`. -/
def fillStack (stackPage : Addr) : Nat := (stackPage + 2 ^ 64 - 23 * 8) % 2 ^ 64

/-- `create_process(rip, params, name)` -/
def createProcess (k : Kernel) (rip : Nat) (name : CString) : Option (Addr × Kernel) :=
  k.getPage.map fun (p, k) =>
    let (stackPage, k) := k.getStackPage
    let k := k.writeProcess p fun c =>
      { c with
        name
        stackPage
        entryPoint := rip
        st := .ready
        rsp := fillStack stackPage
        dataPage := fun _ => null
        nDataPage := 0 }
    let k := (k.insertProcess p).2
    let k :=
      if (k.processes p).pid ≠ 0 then
        k.writeProcess p fun c => { c with ppid := k.pidProcess k.getCurrentProcess }
      else { k with foreground := p }
    (p, k.writeProcess p fun c => { c with openFds := 0 })

/-! ## Destruction -/

/-- The loop of `free_data_pages` from index `i` on. -/
def freeDataPagesFrom (p : Addr) : Nat → Nat → Kernel → Kernel
  | 0, _, k => k
  | rounds + 1, i, k =>
      if 0 < (k.processes p).nDataPage then
        if (k.processes p).dataPage i ≠ null then
          let k := k.storePage ((k.processes p).dataPage i)
          freeDataPagesFrom p rounds (i + 1)
            (k.writeProcess p fun c => { c with nDataPage := c.nDataPage - 1 })
        else freeDataPagesFrom p rounds (i + 1) k
      else k

/-- `free_data_pages` -/
def freeDataPages (k : Kernel) (p : Addr) : Kernel := freeDataPagesFrom p maxDataPages 0 k

/-- `destroy_process` -/
def destroyProcess (k : Kernel) (p : Addr) : Kernel :=
  if p ≠ null then
    let k := { k with nProcesses := (k.nProcesses + 2 ^ 64 - 1) % 2 ^ 64 }
    let k := k.freeDataPages p
    let k :=
      if k.foreground = p then k.setForegroundProcess (k.processTable (k.processes p).ppid) else k
    let k := { k with processTable := update k.processTable (k.processes p).pid null }
    let k := k.storeStackPage (k.processes p).stackPage
    k.storePage p
  else k

/-! ## What creation does -/

/-- A process is created on a page that is handed out.  The other processes and
the scheduler are left alone. -/
structure Created (k : Kernel) (p : Addr) (k' : Kernel) : Prop where
  getPage : k.pages.getPage = some (p, k'.pages)
  ready : (k'.processes p).st = .ready
  noData : (k'.processes p).nDataPage = 0
  others : ∀ q, q ≠ p → k'.processes q = k.processes q
  nodes : k'.nodes = k.nodes
  current : k'.current = k.current
  prev : k'.prev = k.prev
  superlock : k'.superlock = k.superlock

/-- What `insert_process` writes: the table and the pid. -/
theorem insertProcess_eq (k : Kernel) (p : Addr) :
    ∃ n pid table, (k.insertProcess p).2 =
      { k.writeProcess p fun c => { c with pid } with nProcesses := n, processTable := table } := by
  unfold insertProcess
  split
  · exact ⟨_, _, _, rfl⟩
  · refine ⟨k.nProcesses, (k.processes p).pid, k.processTable, ?_⟩
    rw [writeProcess, update_eq_self]

/-- What `create_process` writes behind its calls of `get_page` and `get_stack_page`. -/
def initProcess (k : Kernel) (p stackPage : Addr) (rip : Nat) (name : CString) : Kernel :=
  let k := k.writeProcess p fun c =>
    { c with
      name
      stackPage
      entryPoint := rip
      st := .ready
      rsp := fillStack stackPage
      dataPage := fun _ => null
      nDataPage := 0 }
  let k := (k.insertProcess p).2
  let k :=
    if (k.processes p).pid ≠ 0 then
      k.writeProcess p fun c => { c with ppid := k.pidProcess k.getCurrentProcess }
    else { k with foreground := p }
  k.writeProcess p fun c => { c with openFds := 0 }

theorem createProcess_eq {k k' : Kernel} {rip : Nat} {name : CString} {p : Addr}
    (h : k.createProcess rip name = some (p, k')) :
    ∃ pages currentStackIndex stackPage, k.pages.getPage = some (p, pages) ∧
      k' = initProcess { k with pages, currentStackIndex } p stackPage rip name := by
  obtain ⟨⟨q, k₁⟩, hget, he⟩ := Option.map_eq_some_iff.mp h
  obtain ⟨pages, hpages, rfl⟩ := getPage_eq_some hget
  obtain ⟨stackPage, index, hstack⟩ := getStackPage_eq { k with pages }
  simp only [hstack, Prod.mk.injEq] at he
  obtain ⟨rfl, rfl⟩ := he
  exact ⟨pages, index, stackPage, hpages, rfl⟩

theorem createProcess_spec {k k' : Kernel} {rip : Nat} {name : CString} {p : Addr}
    (h : k.createProcess rip name = some (p, k')) : Created k p k' := by
  obtain ⟨pages, index, page, hpages, rfl⟩ := createProcess_eq h
  obtain ⟨n, pid, table, hins⟩ := insertProcess_eq
    (writeProcess { k with pages, currentStackIndex := index } p fun c =>
      { c with
        name
        stackPage := page
        entryPoint := rip
        st := .ready
        rsp := fillStack page
        dataPage := fun _ => null
        nDataPage := 0 }) p
  simp only [initProcess]
  rw [hins]
  split
  · refine ⟨hpages, ?_, ?_, fun r hr => ?_, rfl, rfl, rfl, rfl⟩
    · simp [writeProcess]
    · simp [writeProcess]
    · simp [writeProcess, hr]
  · refine ⟨hpages, ?_, ?_, fun r hr => ?_, rfl, rfl, rfl, rfl⟩
    · simp [writeProcess]
    · simp [writeProcess]
    · simp [writeProcess, hr]

/-! ## What destruction leaves alone -/

theorem freeDataPages_of_zero {k : Kernel} {p : Addr} (h : (k.processes p).nDataPage = 0) :
    k.freeDataPages p = k := by
  unfold freeDataPages maxDataPages freeDataPagesFrom
  rw [if_neg (by omega)]

theorem setForegroundProcess_spec (k : Kernel) (p : Addr) :
    ∃ fg procs, k.setForegroundProcess p = { k with foreground := fg, processes := procs } ∧
      Procs.MayUnblock k.processes procs := by
  unfold setForegroundProcess setForegroundForceProcess
  split
  · split
    · exact ⟨_, _, rfl, .unblockForegroundProcess _ _⟩
    · exact ⟨_, _, rfl, .refl _⟩
  · exact ⟨_, _, rfl, .refl _⟩

/-- What `destroy_process` writes behind its call of `free_data_pages`. -/
theorem destroyProcess_eq {k k₁ : Kernel} {p : Addr} (hp : p ≠ null)
    (hfree : k₁ = freeDataPages { k with nProcesses := (k.nProcesses + 2 ^ 64 - 1) % 2 ^ 64 } p) :
    ∃ foreground processes, Procs.MayUnblock k₁.processes processes ∧
      k.destroyProcess p = (storeStackPage { k₁ with
        foreground, processes
        processTable := update k₁.processTable (processes p).pid null }
          (processes p).stackPage).storePage p := by
  subst hfree
  unfold destroyProcess
  rw [if_pos hp]
  simp only
  split
  next =>
    obtain ⟨foreground, processes, he, hs⟩ := setForegroundProcess_spec
      (freeDataPages { k with nProcesses := (k.nProcesses + 2 ^ 64 - 1) % 2 ^ 64 } p) _
    rw [he]
    exact ⟨foreground, processes, hs, rfl⟩
  next => exact ⟨_, _, .refl _, rfl⟩

/-- What destroying a process without data pages does: its page is given back,
and to the other processes it does no more than `MayUnblock` says. -/
structure Destroyed (k : Kernel) (p : Addr) (k' : Kernel) : Prop where
  pages : k'.pages = k.pages.storePage p
  procs : Procs.MayUnblock k.processes k'.processes
  nodes : k'.nodes = k.nodes
  current : k'.current = k.current
  prev : k'.prev = k.prev
  superlock : k'.superlock = k.superlock

theorem destroyProcess_spec {k : Kernel} {p : Addr} (hp : p ≠ null)
    (hdata : (k.processes p).nDataPage = 0) : Destroyed k p (k.destroyProcess p) := by
  have hfree : freeDataPages { k with nProcesses := (k.nProcesses + 2 ^ 64 - 1) % 2 ^ 64 } p =
      { k with nProcesses := (k.nProcesses + 2 ^ 64 - 1) % 2 ^ 64 } := freeDataPages_of_zero hdata
  obtain ⟨fg, procs, hs, he⟩ := destroyProcess_eq hp hfree.symm
  rw [he]
  exact ⟨rfl, hs, rfl, rfl, rfl, rfl⟩

end Kernel

end TPE
