import TPE.Kernel.Waiters

/-!
# The pages of waiting processes

The headers and the nodes of the queues, the read requests and the nodes of
sleeping processes are on pages of the allocator, as are the processes
themselves.  Each page is used for one of these at a time, so a step on one
structure does not change another one.
-/

namespace TPE

open Function

namespace Kernel

/-- What the kernel has a page for, if not for a process or its data. -/
inductive PageUse where
  | header (w : QueuePlace)
  | node (w : QueuePlace)
  /-- It is a read request of the process `p`. -/
  | request (p : Addr)
  | sleepNode
  | held
deriving DecidableEq

variable {k k' : Kernel} {live : List Addr} {spare : List (Addr × Addr)}
  {use : Addr → Option PageUse} {u v : PageUse} {a b p q : Addr}

/-! ## Processes and their pages -/

/-- The second kernel has the same pages and the same processes in the same slots. -/
structure SameAccounts (k k' : Kernel) : Prop where
  pages : k'.pages = k.pages
  table : k'.processTable = k.processTable
  count : k'.nProcesses = k.nProcesses
  pid : ∀ p, (k'.processes p).pid = (k.processes p).pid
  dataPage : ∀ p, (k'.processes p).dataPage = (k.processes p).dataPage

theorem SameAccounts.of_processes (hpages : k'.pages = k.pages)
    (htable : k'.processTable = k.processTable) (hcount : k'.nProcesses = k.nProcesses)
    (hprocs : k'.processes = k.processes) : SameAccounts k k' :=
  ⟨hpages, htable, hcount, fun p => by rw [hprocs], fun p => by rw [hprocs]⟩

/-- A change of status changes neither pids nor data pages. -/
theorem SameAccounts.applyStatus (k : Kernel) (call : StatusCall) (p : Addr) :
    SameAccounts k (k.applyStatus call p) := by
  obtain ⟨st, he, -⟩ := call.apply_eq k.processes p
  have hst : ∀ q, (k.applyStatus call p).processes q = { k.processes q with
      st := ((k.applyStatus call p).processes q).st } := by
    intro q
    show call.apply k.processes p q = { k.processes q with st := (call.apply k.processes p q).st }
    rw [he]
    by_cases hq : q = p
    · subst hq
      simp [Procs.setSt]
    · rw [Procs.setSt_of_ne hq]
  exact ⟨rfl, rfl, rfl, fun q => by rw [hst], fun q => by rw [hst]⟩

theorem TableInv.congr (h : k.TableInv live) (htable : k'.processTable = k.processTable)
    (hcount : k'.nProcesses = k.nProcesses)
    (hpid : ∀ p, (k'.processes p).pid = (k.processes p).pid) : k'.TableInv live := by
  constructor
  · rw [htable, funext hpid]
    exact h.slots
  · rw [hcount]
    exact h.count

theorem OwnInv.congr {own : Addr → Option PageOwner} {others : List Addr}
    (h : OwnInv own ⟨k, live, spare, others⟩) (hpages : k'.pages = k.pages)
    (hdata : ∀ p, (k'.processes p).dataPage = (k.processes p).dataPage) :
    OwnInv own ⟨k', live, spare, others⟩ := by
  refine ⟨?_, h.process, ?_, h.spare, h.others, h.nodupLive, h.nodupSpare, h.nodupOthers⟩
  · show k'.pages.OwnedBy own
    rw [hpages]
    exact h.pages
  · intro p hp i hi hocc
    have hocc' : (k'.processes p).dataPage i ≠ null := hocc
    show own ((k'.processes p).dataPage i) = _
    rw [hdata] at hocc' ⊢
    exact h.data p hp i hi hocc'

theorem addDataPage_same (c : Process) (page : Addr) :
    (c.addDataPage page).pid = c.pid ∧ (c.addDataPage page).st = c.st := by
  unfold Process.addDataPage
  split
  · exact ⟨rfl, rfl⟩
  · exact ⟨rfl, rfl⟩

theorem removeDataPage_same (c : Process) (page : Addr) :
    (c.removeDataPage page).pid = c.pid ∧ (c.removeDataPage page).st = c.st := by
  unfold Process.removeDataPage
  split
  · exact ⟨rfl, rfl⟩
  · exact ⟨rfl, rfl⟩

/-- `sys_malloc` leaves the pids, the table and the statuses alone. -/
theorem sysMalloc_same {page : Addr} (h : k.sysMalloc = some (page, k')) :
    k'.processTable = k.processTable ∧ k'.nProcesses = k.nProcesses ∧
      ∀ q, (k'.processes q).pid = (k.processes q).pid ∧
        (k'.processes q).st = (k.processes q).st := by
  obtain ⟨hprocs, -, -⟩ := sysMalloc_spec h
  have hsame : ∀ q, (k'.processes q).pid = (k.processes q).pid ∧
      (k'.processes q).st = (k.processes q).st := by
    intro q
    rw [hprocs]
    by_cases hq : q = k.getCurrentProcess
    · rw [hq, update_self]
      exact addDataPage_same _ _
    · rw [update_of_ne hq]
      exact ⟨rfl, rfl⟩
  obtain ⟨⟨page₁, k₁⟩, hget, he⟩ := Option.map_eq_some_iff.mp h
  cases he
  rcases getPageOrNull_spec hget with hget | ⟨-, rfl, -⟩
  · obtain ⟨pages, -, rfl⟩ := getPage_eq_some hget
    exact ⟨rfl, rfl, hsame⟩
  · exact ⟨rfl, rfl, hsame⟩

theorem sysFree_same (k : Kernel) (address q : Addr) :
    ((k.sysFree address).2.processes q).pid = (k.processes q).pid ∧
      ((k.sysFree address).2.processes q).st = (k.processes q).st := by
  show (update k.processes k.getCurrentProcess _ q).pid = _ ∧
    (update k.processes k.getCurrentProcess _ q).st = _
  by_cases hq : q = k.getCurrentProcess
  · rw [hq, update_self]
    exact removeDataPage_same _ _
  · rw [update_of_ne hq]
    exact ⟨rfl, rfl⟩

theorem freeDataPagesFrom_same (rounds i : Nat) (q : Addr) :
    ((freeDataPagesFrom p rounds i k).processes q).pid = (k.processes q).pid ∧
      ((freeDataPagesFrom p rounds i k).processes q).st = (k.processes q).st := by
  induction rounds generalizing k i with
  | zero => exact ⟨rfl, rfl⟩
  | succ rounds ih =>
      rw [freeDataPagesFrom]
      split
      next =>
        split
        next =>
          obtain ⟨hpid, hst⟩ := ih (k := (k.storePage ((k.processes p).dataPage i)).writeProcess p
            fun c => { c with nDataPage := c.nDataPage - 1 }) (i + 1)
          have hself : ∀ q, (update k.processes p
              { k.processes p with nDataPage := (k.processes p).nDataPage - 1 } q).pid =
                (k.processes q).pid ∧
              (update k.processes p
              { k.processes p with nDataPage := (k.processes p).nDataPage - 1 } q).st =
                (k.processes q).st := by
            intro q
            by_cases hq : q = p
            · rw [hq, update_self]
              exact ⟨rfl, rfl⟩
            · rw [update_of_ne hq]
              exact ⟨rfl, rfl⟩
          exact ⟨hpid.trans (hself q).1, hst.trans (hself q).2⟩
        next => exact ih (i + 1)
      next => exact ⟨rfl, rfl⟩

/-- What `destroy_process` writes, for any process.  At most a process that waits
for the foreground gets another status. -/
theorem destroyProcess_writes (hp : p ≠ null) :
    ∃ nProcesses pages foreground processes processTable stackPagesStack currentStackIndex,
      k.destroyProcess p = { k with
        nProcesses, pages, foreground, processes, processTable, stackPagesStack,
        currentStackIndex } ∧
      nProcesses = (k.nProcesses + 2 ^ 64 - 1) % 2 ^ 64 ∧
      processTable = update k.processTable (k.processes p).pid null ∧
      ∀ q, (processes q).pid = (k.processes q).pid ∧
        ((processes q).st = (k.processes q).st ∨
          (k.processes q).st = .blockedForeground ∧ (processes q).st = .ready) := by
  obtain ⟨n, hn⟩ : ∃ n, n = (k.nProcesses + 2 ^ 64 - 1) % 2 ^ 64 := ⟨_, rfl⟩
  obtain ⟨pages, procs, foreground, processes, hdata, hfg, hdestroy⟩ := destroyProcess_parts k hp hn
  have hprocs : ∀ q, (procs q).pid = (k.processes q).pid ∧ (procs q).st = (k.processes q).st := by
    intro q
    have hsame := freeDataPagesFrom_same (p := p)
      (k := { k with nProcesses := n, openMutexes := k.openMutexes }) maxDataPages 0 q
    rw [hdata] at hsame
    exact hsame
  have hmay : procs.MayUnblock processes := by
    have hfg' := hfg k.superlock k.openMutexes
    split at hfg'
    next =>
      obtain ⟨fg, procs', he, hs⟩ := setForegroundProcess_spec
        { k with nProcesses := n, pages, processes := procs } (k.processTable (procs p).ppid)
      obtain rfl : procs' = processes := congrArg Kernel.processes (he.symm.trans hfg')
      exact hs
    next =>
      obtain rfl : procs = processes := congrArg Kernel.processes hfg'
      exact .refl _
  refine ⟨n, _, foreground, processes, _, _, _, hdestroy, hn, ?_, fun q => ?_⟩
  · exact congrArg (fun i => update k.processTable i null)
      ((hmay.pid_eq p).trans (hprocs p).1)
  · refine ⟨(hmay.pid_eq q).trans (hprocs q).1, ?_⟩
    rcases hmay q with hq | ⟨hst, hq⟩
    · rw [hq]
      exact Or.inl (hprocs q).2
    · rw [hq, ← (hprocs q).2]
      exact Or.inr ⟨hst, rfl⟩

/-- Every page in use has one owner, and the processes are in the table. -/
structure Accounted (use : Addr → Option PageUse) (k : Kernel) (live : List Addr)
    (spare : List (Addr × Addr)) : Prop where
  pages : ∃ own others, OwnInv own ⟨k, live, spare, others⟩ ∧ ∀ a, use a ≠ none → a ∈ others
  table : k.TableInv live

namespace Accounted

theorem congr (h : Accounted use k live spare) (hs : SameAccounts k k') :
    Accounted use k' live spare := by
  obtain ⟨own, others, hown, huse⟩ := h.pages
  exact ⟨⟨own, others, hown.congr hs.pages hs.dataPage, huse⟩,
    h.table.congr hs.table hs.count hs.pid⟩

theorem nodup (h : Accounted use k live spare) : live.Nodup := by
  obtain ⟨own, others, hown, -⟩ := h.pages
  exact hown.nodupLive

theorem ne_null (h : Accounted use k live spare) (ha : use a = some u) : a ≠ null := by
  obtain ⟨own, others, hown, huse⟩ := h.pages
  have hother := hown.others a (huse a (by rw [ha]; simp))
  exact hown.pages.ne_null (by rw [hother]; simp)

theorem live_ne_null (h : Accounted use k live spare) (hp : p ∈ live) : p ≠ null := by
  obtain ⟨own, others, hown, -⟩ := h.pages
  exact hown.pages.ne_null (by rw [hown.process p hp]; simp)

/-- A page that is handed out was in use for nothing. -/
theorem getPage (h : Accounted use k live spare) (hget : k.getPage = some (a, k'))
    (u : PageUse) :
    use a = none ∧ a ∉ live ∧ Accounted (update use a (some u)) k' live spare := by
  obtain ⟨own, others, hown, huse⟩ := h.pages
  have hnew := hown.take hget
  have hfresh := (List.nodup_cons.mp hnew.nodupOthers).1
  have hnone : use a = none := by
    by_contra hne
    exact hfresh (huse a hne)
  have hlive : a ∉ live := by
    intro ha
    have hprocess := hnew.process a ha
    rw [update_self] at hprocess
    cases hprocess
  refine ⟨hnone, hlive, ⟨_, _, hnew, fun b hb => ?_⟩, ?_⟩
  · by_cases hba : b = a
    · exact hba ▸ List.mem_cons_self
    · rw [update_of_ne hba] at hb
      exact List.mem_cons_of_mem _ (huse b hb)
  · obtain ⟨pages, -, rfl⟩ := getPage_eq_some hget
    exact h.table.congr rfl rfl fun _ => rfl

/-- A page that is in use is given back. -/
theorem storePage (h : Accounted use k live spare) (ha : use a ≠ none) :
    Accounted (update use a none) (k.storePage a) live spare := by
  obtain ⟨own, others, hown, huse⟩ := h.pages
  refine ⟨⟨_, _, hown.give (huse a ha), fun b hb => ?_⟩, h.table.congr rfl rfl fun _ => rfl⟩
  by_cases hba : b = a
  · subst hba
    simp at hb
  · rw [update_of_ne hba] at hb
    exact (List.mem_erase_of_ne hba).mpr (huse b hb)

/-- A process is created on a page that was in use for nothing. -/
theorem create (h : Accounted use k live spare) {rip : Nat} {name : CString}
    (hcreate : k.createProcess rip name = some (p, k')) {i : Nat} (hi : i < maxProcesses)
    (hfree : k.processTable i = null) :
    use p = none ∧ p ∉ live ∧ Accounted use k' (p :: live) spare := by
  obtain ⟨own, others, hown, huse⟩ := h.pages
  have hnew := hown.create hcreate
  have hfresh := (List.nodup_cons.mp hnew.nodupLive).1
  have hp : p ≠ null := hnew.pages.ne_null (by simp)
  refine ⟨?_, hfresh, ⟨_, _, hnew, huse⟩,
    h.table.create (createProcess_spec hcreate) hcreate hfresh hp hi hfree⟩
  by_contra hne
  have hother := hnew.others p (huse p hne)
  rw [hnew.process p List.mem_cons_self] at hother
  cases hother

/-- A destroyed process gives its pages back and leaves the table. -/
theorem destroy (h : Accounted use k live spare) (hp : p ∈ live) :
    Accounted use (k.destroyProcess p) (live.erase p) (spare.filter fun e => e.1 ≠ p) := by
  obtain ⟨own, others, hown, huse⟩ := h.pages
  obtain ⟨own', hnew⟩ := hown.destroy hp
  refine ⟨⟨own', others, hnew, huse⟩, ?_⟩
  obtain ⟨n, pages, foreground, processes, table, stackPages, index, he, hn, htable, hsame⟩ :=
    destroyProcess_writes (k := k) (h.live_ne_null hp)
  rw [he]
  constructor
  · show SlotsOk _ _ table (fun p => (processes p).pid) _
    rw [htable]
    exact h.table.slots.clear hp fun q _ => (hsame q).1
  · have hpos := List.length_pos_of_mem hp
    have hlen := h.table.slots.length_le
    have hmax : maxProcesses = 128 := rfl
    show n = _
    rw [hn, h.table.count, List.length_erase_of_mem hp]
    omega

theorem malloc (h : Accounted use k live spare) {page : Addr}
    (hmalloc : k.sysMalloc = some (page, k')) :
    Accounted use k' live (if page ≠ 0 ∧ (k.processes k.getCurrentProcess).Full then
      (k.getCurrentProcess, page) :: spare else spare) := by
  obtain ⟨own, others, hown, huse⟩ := h.pages
  obtain ⟨own', hnew⟩ := hown.malloc hmalloc
  obtain ⟨htable, hcount, hsame⟩ := sysMalloc_same hmalloc
  exact ⟨⟨own', others, hnew, huse⟩, h.table.congr htable hcount fun q => (hsame q).1⟩

theorem free (h : Accounted use k live spare) (hrun : k.getCurrentProcess ∈ live) {address : Addr}
    (ho : Owns ⟨k, live, spare, []⟩ address) :
    Accounted use (k.sysFree address).2 live (spare.erase (k.getCurrentProcess, address)) := by
  obtain ⟨own, others, hown, huse⟩ := h.pages
  exact ⟨⟨_, others, hown.free hrun ho, huse⟩,
    h.table.congr rfl rfl fun q => (sysFree_same k address q).1⟩

end Accounted

/-! ## The invariant -/

/-- The entries at a place.  `l` is the list of sleeping processes. -/
def WaitRun.left (s : WaitRun) (l : List Addr) : WaitPlace → List Addr
  | .queue w => if s.built w then s.k.elems (s.k.header w) else []
  | .sleeping => l

/-- The entries as tickets of the processes. -/
def WaitRun.tickets (s : WaitRun) (l : List Addr) : Tickets Addr WaitPlace Addr where
  live := {p | p ∈ s.live}
  doomed p := (s.k.processes p).st = .delete
  parked p := (s.k.processes p).st = .blocked
  stage := s.stage
  left := s.left l
  hands := s.hands
  owner := s.k.owner

/-- The queues and the list of sleeping processes are on pages of their own. -/
structure Places (use : Addr → Option PageUse) (built : QueuePlace → Bool) (l : List Addr)
    (k : Kernel) : Prop where
  header : ∀ w, built w → use (k.header w) = some (.header w)
  node : ∀ w, built w → ∀ n ∈ k.queues (k.header w), use n.page = some (.node w)
  nodup : ∀ w, built w → ((k.queues (k.header w)).map QueueNode.page).Nodup
  walk : Walk k.sleepNext k.sleepingProcesses l null
  sleeper : ∀ a ∈ l, use a = some .sleepNode

/-- What the processes have in their local variables is theirs. -/
structure Locals (use : Addr → Option PageUse) (l : List Addr) (s : WaitRun) : Prop where
  request : ∀ p ∈ s.live, ∀ r, s.request p = some r →
    use r = some (.request p) ∧ (s.k.readRequests r).readerP = p
  sleepNode : ∀ p ∈ s.live, ∀ a, s.sleepNode p = some a →
    use a = some .sleepNode ∧ s.k.sleeper a = p ∧ a ∉ l
  entry : ∀ p ∈ s.live, ∀ key r, (s.stage p).ticket = some (.queue (.fifo key), r) →
    s.request p = some r
  hands : ∀ p ∈ s.live, ∀ x ∈ s.hands p, ∃ w, x.1 = .queue w

/-- Every entry is one of a process that is there and waits for it. -/
structure WaitInv (use : Addr → Option PageUse) (l : List Addr) (s : WaitRun) : Prop where
  accounted : Accounted use s.k s.live s.spare
  held : ∀ a ∈ s.held, use a = some .held
  nodupHeld : s.held.Nodup
  places : Places use s.built l s.k
  locals : Locals use l s
  tickets : (s.tickets l).Inv

/-- The second kernel has the same queues and the same list of sleeping processes. -/
structure SameWaits (k k' : Kernel) : Prop where
  header : k'.header = k.header
  queues : k'.queues = k.queues
  reader : ∀ r, (k'.readRequests r).readerP = (k.readRequests r).readerP
  sleeper : k'.sleeper = k.sleeper
  sleepNext : k'.sleepNext = k.sleepNext
  first : k'.sleepingProcesses = k.sleepingProcesses

/-- Whom the entries refer to is in the read requests and the nodes of sleeping processes. -/
theorem owner_congr (hreader : ∀ r, (k'.readRequests r).readerP = (k.readRequests r).readerP)
    (hsleeper : k'.sleeper = k.sleeper) : k'.owner = k.owner := by
  funext w e
  cases w with
  | sleeping => exact congrFun hsleeper e
  | queue w =>
      cases w with
      | fifo key => exact hreader e
      | _ => rfl

theorem SameWaits.owner (h : SameWaits k k') : k'.owner = k.owner :=
  owner_congr h.reader h.sleeper

theorem SameWaits.left {s : WaitRun} (h : SameWaits s.k k') (l : List Addr) :
    WaitRun.left { s with k := k' } l = s.left l := by
  funext w
  cases w with
  | sleeping => rfl
  | queue w =>
      show (if s.built w then k'.elems (k'.header w) else []) = _
      unfold elems
      rw [h.queues, h.header]
      rfl

theorem Places.congr {built : QueuePlace → Bool} {l : List Addr} (h : Places use built l k)
    (hs : SameWaits k k') : Places use built l k' := by
  obtain ⟨hheader, hnode, hnodup, hwalk, hsleeper⟩ := h
  refine ⟨?_, ?_, ?_, ?_, hsleeper⟩
  · rw [hs.header]
    exact hheader
  · rw [hs.header, hs.queues]
    exact hnode
  · rw [hs.header, hs.queues]
    exact hnodup
  · rw [hs.sleepNext, hs.first]
    exact hwalk

namespace WaitInv

variable {s : WaitRun} {l : List Addr} {w : QueuePlace} {nodes : List QueueNode}

/-- The kernel changes outside the structures, and processes go on or go away. -/
theorem move (h : WaitInv use l s) (hs : SameWaits s.k k') (hacc : Accounted use k' live spare)
    (hlive : ∀ p ∈ live, p ∈ s.live) {stage : Addr → Stage (WaitPlace × Addr)}
    {hands : Addr → List (WaitPlace × Addr)}
    (hentry : ∀ p ∈ live, ∀ key r, (stage p).ticket = some (.queue (.fifo key), r) →
      s.request p = some r)
    (hhands : ∀ p ∈ live, ∀ x ∈ hands p, ∃ w, x.1 = .queue w)
    (ht : (WaitRun.tickets { s with k := k', live, spare, stage, hands } l).Inv) :
    WaitInv use l { s with k := k', live, spare, stage, hands } := by
  refine ⟨hacc, h.held, h.nodupHeld, h.places.congr hs, ?_, ht⟩
  refine ⟨fun p hp r hr => ?_, fun p hp a ha => ?_, hentry, hhands⟩
  · show _ ∧ (k'.readRequests r).readerP = p
    rw [hs.reader]
    exact h.locals.request p (hlive p hp) r hr
  · show _ ∧ k'.sleeper a = p ∧ _
    rw [hs.sleeper]
    exact h.locals.sleepNode p (hlive p hp) a ha

/-- The tickets after such a change. -/
theorem tickets_eq (hs : SameWaits s.k k') (live : List Addr) (spare : List (Addr × Addr))
    (stage : Addr → Stage (WaitPlace × Addr)) (hands : Addr → List (WaitPlace × Addr)) :
    WaitRun.tickets { s with k := k', live, spare, stage, hands } l = { s.tickets l with
      live := {p | p ∈ live}
      doomed := fun p => (k'.processes p).st = .delete
      parked := fun p => (k'.processes p).st = .blocked
      stage
      hands } := by
  have hleft : WaitRun.left { s with k := k', live, spare, stage, hands } l = s.left l :=
    hs.left l
  unfold WaitRun.tickets
  rw [hleft, hs.owner]

/-- The kernel changes outside the structures, and who waits goes on to wait. -/
theorem frame (h : WaitInv use l s) (hs : SameWaits s.k k') (hacc : Accounted use k' live spare)
    (hlive : ∀ p ∈ live, p ∈ s.live)
    (hkeep : ∀ p ∈ s.live, (∃ w e, (s.tickets l).Pending w e ∧ s.k.owner w e = p) →
      (s.k.processes p).st ≠ .delete → p ∈ live ∧ (k'.processes p).st ≠ .delete ∧
        ((s.k.processes p).st = .blocked → (k'.processes p).st = .blocked)) :
    WaitInv use l { s with k := k', live, spare } := by
  refine h.move hs hacc hlive (fun p hp => h.locals.entry p (hlive p hp))
    (fun p hp => h.locals.hands p (hlive p hp)) ?_
  rw [tickets_eq hs]
  refine h.tickets.fewer ⟨fun _ => List.Sublist.refl _, fun _ _ => List.Sublist.refl _,
    fun q hq _ => hlive q hq⟩ fun w e hp haw => ?_
  have hold : (s.tickets l).Pending w e := hp.imp id fun ⟨q, hq, hx⟩ => ⟨q, hlive q hq, hx⟩
  obtain ⟨hmem, halive, hblocked⟩ := hkeep _ haw.live ⟨w, e, hold, rfl⟩ haw.notDoomed
  exact ⟨hmem, halive, haw.stage.imp_right fun hw => ⟨hw.1, hblocked hw.2⟩⟩

/-! ### Pages -/

/-- A page is handed out, for the use `u`. -/
theorem getPage (h : WaitInv use l s) (hget : s.k.getPage = some (a, k')) (u : PageUse) :
    use a = none ∧ a ∉ s.live ∧ WaitInv (update use a (some u)) l { s with k := k' } := by
  obtain ⟨hnone, hlive, hacc⟩ := h.accounted.getPage hget u
  have hkeep : ∀ {b v}, use b = some v → update use a (some u) b = some v := by
    intro b v hb
    rw [update_of_ne, hb]
    rintro rfl
    rw [hnone] at hb
    cases hb
  obtain ⟨pages, -, rfl⟩ := getPage_eq_some hget
  refine ⟨hnone, hlive, hacc, fun b hb => hkeep (h.held b hb), h.nodupHeld, ?_, ?_, h.tickets⟩
  · exact ⟨fun w hw => hkeep (h.places.header w hw), fun w hw n hn => hkeep (h.places.node w hw n hn),
      h.places.nodup, h.places.walk, fun b hb => hkeep (h.places.sleeper b hb)⟩
  · refine ⟨fun p hp r hr => ?_, fun p hp b hb => ?_, h.locals.entry, h.locals.hands⟩
    · exact ⟨hkeep (h.locals.request p hp r hr).1, (h.locals.request p hp r hr).2⟩
    · exact ⟨hkeep (h.locals.sleepNode p hp b hb).1, (h.locals.sleepNode p hp b hb).2⟩

/-- Nothing of the structures is on the page any more. -/
structure Unused (s : WaitRun) (l : List Addr) (a : Addr) : Prop where
  held : a ∉ s.held
  header : ∀ w, s.built w → s.k.header w ≠ a
  node : ∀ w, s.built w → ∀ n ∈ s.k.queues (s.k.header w), n.page ≠ a
  sleeper : a ∉ l
  request : ∀ p ∈ s.live, s.request p ≠ some a
  sleepNode : ∀ p ∈ s.live, s.sleepNode p ≠ some a

/-- A page with nothing on it is given back. -/
theorem storePage (h : WaitInv use l s) (ha : use a = some u) (hun : Unused s l a) :
    WaitInv (update use a none) l { s with k := s.k.storePage a } := by
  have hkeep : ∀ {b : Addr} {v : PageUse}, b ≠ a → use b = some v →
      update use a none b = some v := by
    intro b v hne hb
    rw [update_of_ne hne, hb]
  refine ⟨h.accounted.storePage (by rw [ha]; simp), fun b hb => ?_, h.nodupHeld, ?_, ?_, h.tickets⟩
  · refine hkeep ?_ (h.held b hb)
    rintro rfl
    exact hun.held hb
  · refine ⟨fun w hw => hkeep (hun.header w hw) (h.places.header w hw),
      fun w hw n hn => hkeep (hun.node w hw n hn) (h.places.node w hw n hn), h.places.nodup,
      h.places.walk, fun b hb => hkeep ?_ (h.places.sleeper b hb)⟩
    rintro rfl
    exact hun.sleeper hb
  · refine ⟨fun p hp r hr => ?_, fun p hp b hb => ?_, h.locals.entry, h.locals.hands⟩
    · refine ⟨hkeep ?_ (h.locals.request p hp r hr).1, (h.locals.request p hp r hr).2⟩
      rintro rfl
      exact hun.request p hp hr
    · refine ⟨hkeep ?_ (h.locals.sleepNode p hp b hb).1, (h.locals.sleepNode p hp b hb).2⟩
      rintro rfl
      exact hun.sleepNode p hp hb

/-- A page is unused if it is not where pages of its use are. -/
theorem unused (h : WaitInv use l s) (ha : use a = some u) (hheld : u = .held → a ∉ s.held)
    (hheader : ∀ w, u = .header w → s.built w → s.k.header w ≠ a)
    (hnode : ∀ w, u = .node w → s.built w → ∀ n ∈ s.k.queues (s.k.header w), n.page ≠ a)
    (hsleeper : u = .sleepNode → a ∉ l ∧ ∀ p ∈ s.live, s.sleepNode p ≠ some a)
    (hrequest : ∀ p, u = .request p → s.request p ≠ some a) : Unused s l a := by
  have hu : ∀ {b v}, use b = some v → b = a → u = v := by
    rintro b v hb rfl
    rw [ha] at hb
    exact Option.some.inj hb
  refine ⟨fun hm => ?_, fun w hw he => ?_, fun w hw n hn he => ?_, fun hm => ?_, fun p hp hr => ?_,
    fun p hp hb => ?_⟩
  · exact hheld (hu (h.held a hm) rfl) hm
  · exact hheader w (hu (h.places.header w hw) he) hw he
  · exact hnode w (hu (h.places.node w hw n hn) he) hw n hn he
  · exact (hsleeper (hu (h.places.sleeper a hm) rfl)).1 hm
  · exact hrequest p (hu (h.locals.request p hp a hr).1 rfl) hr
  · exact (hsleeper (hu (h.locals.sleepNode p hp a hb).1 rfl)).2 p hp hb

/-! ### Queues -/

theorem header_inj (h : WaitInv use l s) {w w' : QueuePlace} (hw : s.built w) (hw' : s.built w')
    (he : s.k.header w = s.k.header w') : w = w' := by
  have hheader := h.places.header w hw
  rw [he, h.places.header w' hw'] at hheader
  cases hheader
  rfl

/-- The entries after a write of one queue. -/
theorem left_setQueue (h : WaitInv use l s) (hw : s.built w) (nodes : List QueueNode) :
    WaitRun.left { s with k := s.k.setQueue (s.k.header w) nodes } l =
      update (s.left l) (.queue w) (nodes.map QueueNode.elem) := by
  funext v
  cases v with
  | sleeping => rfl
  | queue v =>
      show (if s.built v then (update s.k.queues (s.k.header w) nodes (s.k.header v)).map _
        else []) = _
      by_cases hv : v = w
      · subst hv
        rw [if_pos hw, update_self, update_self]
      · have hne : WaitPlace.queue v ≠ .queue w := fun he => hv (by cases he; rfl)
        rw [update_of_ne hne]
        by_cases hbuilt : s.built v
        · have hheader : s.k.header v ≠ s.k.header w := fun he => hv (h.header_inj hbuilt hw he)
          rw [if_pos hbuilt, update_of_ne hheader]
          exact (if_pos hbuilt).symm
        · rw [if_neg hbuilt]
          exact (if_neg hbuilt).symm

/-- One queue is written, with nodes on pages of its own. -/
theorem setQueue (h : WaitInv use l s) (hw : s.built w)
    (hnode : ∀ n ∈ nodes, use n.page = some (.node w)) (hnodup : (nodes.map QueueNode.page).Nodup)
    (stage : Addr → Stage (WaitPlace × Addr)) (hands : Addr → List (WaitPlace × Addr))
    (hentry : ∀ p ∈ s.live, ∀ key r, (stage p).ticket = some (.queue (.fifo key), r) →
      s.request p = some r)
    (hhands : ∀ p ∈ s.live, ∀ x ∈ hands p, ∃ w, x.1 = .queue w)
    (ht : Tickets.Inv { s.tickets l with
      left := update (s.left l) (.queue w) (nodes.map QueueNode.elem), stage, hands }) :
    WaitInv use l { s with k := s.k.setQueue (s.k.header w) nodes, stage, hands } := by
  have hqueue : ∀ v, s.built v → v = w ∧ update s.k.queues (s.k.header w) nodes (s.k.header v) = nodes ∨
      update s.k.queues (s.k.header w) nodes (s.k.header v) = s.k.queues (s.k.header v) := by
    intro v hv
    by_cases hvw : v = w
    · subst hvw
      exact Or.inl ⟨rfl, update_self _ _ _⟩
    · exact Or.inr (update_of_ne (fun he => hvw (h.header_inj hv hw he)) _ _)
  refine ⟨h.accounted.congr (.of_processes rfl rfl rfl rfl), h.held, h.nodupHeld, ?_,
    ⟨h.locals.request, h.locals.sleepNode, hentry, hhands⟩, ?_⟩
  · refine ⟨h.places.header, fun v hv n hn => ?_, fun v hv => ?_, h.places.walk, h.places.sleeper⟩
    · have hn' : n ∈ update s.k.queues (s.k.header w) nodes (s.k.header v) := hn
      rcases hqueue v hv with ⟨rfl, he⟩ | he
      · rw [he] at hn'
        exact hnode n hn'
      · rw [he] at hn'
        exact h.places.node v hv n hn'
    · show ((update s.k.queues (s.k.header w) nodes (s.k.header v)).map _).Nodup
      rcases hqueue v hv with ⟨-, he⟩ | he
      · rw [he]
        exact hnodup
      · rw [he]
        exact h.places.nodup v hv
  · have hleft := h.left_setQueue hw nodes
    have hsame : WaitRun.tickets
        { s with k := s.k.setQueue (s.k.header w) nodes, stage, hands } l = { s.tickets l with
          left := update (s.left l) (.queue w) (nodes.map QueueNode.elem), stage, hands } :=
      congrArg (fun left => { s.tickets l with left, stage, hands }) hleft
    rw [hsame]
    exact ht

end WaitInv

end Kernel

end TPE
