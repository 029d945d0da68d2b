import TPE.Kernel.WaiterSteps

/-!
# Runs in which nobody who waits is killed

Reaping a process frees its page and leaves the queues alone.  As long as
`sys_kill` spares the processes that an entry refers to, an entry is always one
of a process that is in the table and waits there.

A process that is killed while it waits is destroyed, and its entry stays.
-/

namespace TPE

open Function

namespace Kernel

variable {k k' : Kernel} {s t : WaitRun} {use : Addr → Option PageUse} {l : List Addr}
  {w : QueuePlace} {a e p q node prev : Addr} {rip : Nat} {name : CString}

/-! ## Creation and destruction -/

/-- What `create_process` writes. -/
theorem createProcess_writes (h : k.createProcess rip name = some (p, k')) :
    ∃ pages currentStackIndex processes nProcesses processTable foreground,
      k' = { k with
        pages, currentStackIndex, processes, nProcesses, processTable, foreground } := by
  obtain ⟨pages, index, page, -, rfl⟩ := createProcess_eq h
  simp only [initProcess]
  unfold insertProcess
  split
  · split
    · exact ⟨_, _, _, _, _, _, rfl⟩
    · exact ⟨_, _, _, _, _, _, rfl⟩
  · split
    · exact ⟨_, _, _, _, _, _, rfl⟩
    · exact ⟨_, _, _, _, _, _, rfl⟩

/-- What `add_process` writes. -/
theorem addProcess_writes (h : k.addProcess p = some k') :
    ∃ a pages nodes current prev superlock, k.getPage = some (a, { k with pages }) ∧
      k' = { k with pages, nodes, current, prev, superlock } := by
  obtain ⟨⟨a, k₁⟩, hget, he⟩ := Option.map_eq_some_iff.mp h
  obtain ⟨pages, -, rfl⟩ := getPage_eq_some hget
  simp only at he
  split at he
  · cases he
    exact ⟨_, _, _, _, _, _, hget, rfl⟩
  · cases he
    exact ⟨_, _, _, _, _, _, hget, rfl⟩

/-- The new node is on the page that `add_process` gets. -/
theorem newNode_eq {k₁ : Kernel} (h : k.addProcess p = some k')
    (hget : k.getPage = some (a, k₁)) :
    k.newNode k' = a := by
  obtain ⟨b, hb⟩ := addProcess_spec h
  obtain ⟨pages, hpages, -⟩ := getPage_eq_some hget
  obtain rfl : b = a := by
    have hsame := hb.getPage.symm.trans hpages
    exact congrArg Prod.fst (Option.some.inj hsame)
  unfold newNode
  split
  next hnull => rw [hb.current, if_pos hnull]
  next hnull => rw [hb.next, hb.current, if_neg hnull, if_neg hnull, update_self]

/-- What `sys_malloc` writes. -/
theorem sysMalloc_writes (h : k.sysMalloc = some (a, k')) :
    ∃ pages processes, k' = { k with pages, processes } := by
  obtain ⟨⟨page, k₁⟩, hget, he⟩ := Option.map_eq_some_iff.mp h
  cases he
  rcases getPageOrNull_spec hget with hget | ⟨-, rfl, -⟩
  · obtain ⟨pages, -, rfl⟩ := getPage_eq_some hget
    exact ⟨_, _, rfl⟩
  · exact ⟨_, _, rfl⟩

namespace WaitInv

/-- The rest of the kernel has other pages. -/
theorem withHeld (h : WaitInv use l s) {held : List Addr} (huse : ∀ a ∈ held, use a = some .held)
    (hnodup : held.Nodup) : WaitInv use l { s with held } :=
  ⟨h.accounted, huse, hnodup, h.places, ⟨h.locals.request, h.locals.sleepNode, h.locals.entry,
    h.locals.hands⟩, h.tickets⟩

/-- The rest of the kernel takes a page. -/
theorem take (h : WaitInv use l s) (hget : s.k.getPage = some (a, k')) :
    ∃ use', WaitInv use' l { s with k := k', held := a :: s.held } := by
  obtain ⟨hfree, -, h'⟩ := h.getPage hget .held
  have hfresh : a ∉ s.held := by
    intro hm
    rw [h.held a hm] at hfree
    cases hfree
  refine ⟨_, h'.withHeld (fun b hb => ?_) (List.nodup_cons.mpr ⟨hfresh, h.nodupHeld⟩)⟩
  rcases List.mem_cons.mp hb with rfl | hb
  · exact update_self _ _ _
  · exact h'.held b hb

/-- The rest of the kernel gives a page back. -/
theorem give (h : WaitInv use l s) (ha : a ∈ s.held) :
    ∃ use', WaitInv use' l { s with k := s.k.storePage a, held := s.held.erase a } := by
  have h' := h.withHeld (fun b hb => h.held b (List.mem_of_mem_erase hb)) (h.nodupHeld.erase a)
  have huse := h.held a ha
  exact ⟨_, h'.storePage huse (h'.unused huse (fun _ => h.nodupHeld.not_mem_erase) nofun nofun
    nofun nofun)⟩

/-- `create_process` -/
theorem createProcess (h : WaitInv use l s) (hcreate : s.k.createProcess rip name = some (p, k'))
    {i : Nat} (hi : i < maxProcesses) (hfree : s.k.processTable i = null) :
    WaitInv use l { s.withNew p with k := k' } := by
  obtain ⟨-, hnew, hacc⟩ := h.accounted.create hcreate hi hfree
  have hothers := (createProcess_spec hcreate).others
  obtain ⟨pages, index, procs, n, table, fg, rfl⟩ := createProcess_writes hcreate
  have hne : ∀ q ∈ s.live, q ≠ p := by
    rintro q hq rfl
    exact hnew hq
  have hlocal : ∀ {β : Type} (f : Addr → β) (b : β) {q : Addr}, q ∈ s.live →
      update f p b q = f q := fun f b q hq => update_of_ne (hne q hq) _ _
  have hlive : ∀ {q : Addr}, q ∈ p :: s.live → q = p ∨ q ∈ s.live := List.mem_cons.mp
  refine ⟨hacc, h.held, h.nodupHeld, h.places.congr ⟨rfl, rfl, fun _ => rfl, rfl, rfl, rfl⟩,
    ⟨fun q hq r hr => ?_, fun q hq b hb => ?_, fun q hq key r hr => ?_, fun q hq x hx => ?_⟩, ?_⟩
  · have hr' : update s.request p none q = some r := hr
    rcases hlive hq with rfl | hq
    · simp at hr'
    · rw [hlocal _ _ hq] at hr'
      exact h.locals.request q hq r hr'
  · have hb' : update s.sleepNode p none q = some b := hb
    rcases hlive hq with rfl | hq
    · simp at hb'
    · rw [hlocal _ _ hq] at hb'
      exact h.locals.sleepNode q hq b hb'
  · have hr' : (update s.stage p .out q).ticket = some (.queue (.fifo key), r) := hr
    show update s.request p none q = some r
    rcases hlive hq with rfl | hq
    · rw [update_self] at hr'
      cases hr'
    · rw [hlocal _ _ hq] at hr' ⊢
      exact h.locals.entry q hq key r hr'
  · have hx' : x ∈ update s.hands p [] q := hx
    rcases hlive hq with rfl | hq
    · simp at hx'
    · rw [hlocal _ _ hq] at hx'
      exact h.locals.hands q hq x hx'
  · refine h.tickets.fewer ⟨fun _ => List.Sublist.refl _, fun q hq => ?_, fun q hq hx => ?_⟩
      fun v u _ haw => ?_
    · show (update s.hands p [] q).Sublist _
      rcases hlive hq with rfl | hq
      · rw [update_self]
        exact List.nil_sublist _
      · rw [hlocal _ _ hq]
        exact List.Sublist.refl _
    · have hx' : update s.hands p [] q ≠ [] := hx
      rcases hlive hq with rfl | hq
      · simp at hx'
      · exact hq
    · have hown := hne _ haw.live
      have hst : procs (s.k.owner v u) = s.k.processes (s.k.owner v u) := hothers _ hown
      constructor
      · exact List.mem_cons_of_mem p haw.live
      · show (procs (s.k.owner v u)).st ≠ .delete
        rw [hst]
        exact haw.notDoomed
      · show update s.stage p .out (s.k.owner v u) = _ ∨ update s.stage p .out (s.k.owner v u) = _ ∧
          (procs (s.k.owner v u)).st = .blocked
        rw [hlocal _ _ (show s.k.owner v u ∈ s.live from haw.live), hst]
        exact haw.stage

/-- `sys_exec` -/
theorem exec (h : WaitInv use l s) (hexec : s.k.sysExec rip name = some (p, k'))
    {i : Nat} (hi : i < maxProcesses) (hfree : s.k.processTable i = null) :
    ∃ use', WaitInv use' l
      { s.withNew p with k := k', held := s.k.newNode k' :: s.held } := by
  obtain ⟨⟨q, k₁⟩, hcreate, hadd⟩ := Option.bind_eq_some_iff.mp hexec
  obtain ⟨k₂, hadd, he⟩ := Option.map_eq_some_iff.mp hadd
  cases he
  have h' := h.createProcess hcreate hi hfree
  have hcurrent : k₁.current = s.k.current := (createProcess_spec hcreate).current
  obtain ⟨a, pages, nodes, current, prev, superlock, hget, he⟩ := addProcess_writes hadd
  have hnode : s.k.newNode k' = a := by
    rw [← newNode_eq hadd hget, newNode, newNode, hcurrent]
  obtain ⟨use', h''⟩ := h'.take hget
  rw [hnode, he]
  exact ⟨use', h''.same ⟨rfl, rfl, fun _ => rfl, rfl, rfl, rfl⟩ (.of_processes rfl rfl rfl rfl)
    fun _ => rfl⟩

/-- `destroy_process`, of a process that no entry refers to. -/
theorem destroy (h : WaitInv use l s) (hp : p ∈ s.live)
    (hunref : ∀ v u, (s.tickets l).Pending v u → s.k.owner v u ≠ p) :
    WaitInv use l { s.without p with k := s.k.destroyProcess p } := by
  have hacc := h.accounted.destroy hp
  obtain ⟨n, pages, fg, procs, table, stack, index, he, -, -, hsame⟩ :=
    destroyProcess_writes (k := s.k) (h.accounted.live_ne_null hp)
  rw [he] at hacc ⊢
  refine h.frame ⟨rfl, rfl, fun _ => rfl, rfl, rfl, rfl⟩ hacc (fun _ => List.mem_of_mem_erase) ?_
  rintro q hq ⟨v, u, hpending, rfl⟩ halive
  refine ⟨(List.mem_erase_of_ne (hunref v u hpending)).mpr hq, ?_⟩
  show (procs (s.k.owner v u)).st ≠ .delete ∧
    (_ → (procs (s.k.owner v u)).st = .blocked)
  rcases (hsame (s.k.owner v u)).2 with hst | ⟨hwas, hst⟩
  · rw [hst]
    exact ⟨halive, id⟩
  · rw [hst, hwas]
    exact ⟨by simp, by simp⟩

/-- `set_next_current` passes over the node of a process marked for deletion. -/
theorem reap (h : WaitInv use l s) (hnode : node ∈ s.held) (hlive : s.k.procOf node ∈ s.live)
    (hdoomed : s.k.Doomed node) :
    ∃ use', WaitInv use' l { s.without (s.k.procOf node) with
      k := passDoomed { s.k with current := node, prev }
      held := s.held.erase node } := by
  let k₁ := link { s.k with current := node, prev } prev (s.k.next node)
  have h₁ : WaitInv use l { s with k := k₁ } :=
    h.same ⟨rfl, rfl, fun _ => rfl, rfl, rfl, rfl⟩ (.of_processes rfl rfl rfl rfl) fun _ => rfl
  have h₂ := h₁.destroy hlive fun v u hpending => h.tickets.owner_notDoomed hdoomed.2 hpending
  have hcurrent : (k₁.destroyProcess (s.k.procOf node)).current = node := by
    obtain ⟨n, pages, fg, procs, table, stack, index, he, -⟩ :=
      destroyProcess_writes (k := k₁) (h.accounted.live_ne_null hlive)
    rw [he]
    rfl
  obtain ⟨use', h₃⟩ := h₂.give hnode
  refine ⟨use', ?_⟩
  have hpass : passDoomed { s.k with current := node, prev } =
      { (k₁.destroyProcess (s.k.procOf node)).storePage node with current := s.k.next node } := by
    show { Kernel.storePage (k₁.destroyProcess (s.k.procOf node))
      (k₁.destroyProcess (s.k.procOf node)).current with current := s.k.next node } = _
    rw [hcurrent]
  rw [hpass]
  exact h₃.same ⟨rfl, rfl, fun _ => rfl, rfl, rfl, rfl⟩ (.of_processes rfl rfl rfl rfl) fun _ => rfl

/-- `end_process`, up to its call of `set_next_current`. -/
theorem exit (h : WaitInv use l s) (hrun : s.Running) (hstage : s.stage s.cur = .out) :
    WaitInv use l { s.without s.cur with k := s.k.unlinked } := by
  have h₁ : WaitInv use l { s with k := { s.k with superlock := .locked } } :=
    h.same ⟨rfl, rfl, fun _ => rfl, rfl, rfl, rfl⟩ (.of_processes rfl rfl rfl rfl) fun _ => rfl
  have hout : ((s.tickets l).stage s.cur).ticket = none := by
    show (s.stage s.cur).ticket = none
    rw [hstage]
    rfl
  have h₂ := h₁.destroy hrun fun v u hpending => h.tickets.owner_ne hout hpending
  obtain ⟨k₁, hk₁⟩ : ∃ k₁, k₁ = Kernel.destroyProcess { s.k with superlock := .locked } s.cur :=
    ⟨_, rfl⟩
  have h₃ : WaitInv use l { s.without s.cur with k := k₁ } := by
    rw [hk₁]
    exact h₂
  rw [unlinked_eq hk₁]
  exact h₃.same ⟨rfl, rfl, fun _ => rfl, rfl, rfl, rfl⟩ (.of_processes rfl rfl rfl rfl) fun _ => rfl

/-- `sys_malloc` -/
theorem malloc (h : WaitInv use l s) (hm : s.k.sysMalloc = some (a, k')) :
    WaitInv use l { s with
      k := k'
      spare := if a ≠ 0 ∧ (s.k.processes s.cur).Full then (s.cur, a) :: s.spare else s.spare } := by
  have hacc := h.accounted.malloc hm
  obtain ⟨-, -, hsame⟩ := sysMalloc_same hm
  obtain ⟨pages, procs, rfl⟩ := sysMalloc_writes hm
  refine h.frame ⟨rfl, rfl, fun _ => rfl, rfl, rfl, rfl⟩ hacc (fun _ hp => hp)
    fun p hp _ halive => ⟨hp, ?_⟩
  rw [(hsame p).2]
  exact ⟨halive, id⟩

/-- `sys_free`, of a page of the running process. -/
theorem free (h : WaitInv use l s) (hrun : s.Running)
    (ho : Owns ⟨s.k, s.live, s.spare, []⟩ a) :
    WaitInv use l { s with k := (s.k.sysFree a).2, spare := s.spare.erase (s.cur, a) } := by
  refine h.frame ⟨rfl, rfl, fun _ => rfl, rfl, rfl, rfl⟩ (h.accounted.free hrun ho)
    (fun _ hp => hp) fun p hp _ halive => ⟨hp, ?_⟩
  rw [(sysFree_same s.k a p).2]
  exact ⟨halive, id⟩

end WaitInv

/-! ## Writes that leave the headers alone -/

theorem header_writeMutex (k : Kernel) (key : Int) {f : Mutex → Mutex}
    (hf : ∀ m, (f m).processQueue = m.processQueue) : (k.writeMutex key f).header = k.header := by
  funext w
  cases w with
  | mutex key' =>
      show (update k.openMutexes key _ key').processQueue = _
      by_cases hkey : key' = key
      · subst hkey
        rw [update_self, hf]
        rfl
      · rw [update_of_ne hkey]
        rfl
  | _ => rfl

theorem header_writeCond (k : Kernel) (key : Int) {f : CondVariable → CondVariable}
    (hf : ∀ v, (f v).processQueue = v.processQueue) : (k.writeCond key f).header = k.header := by
  funext w
  cases w with
  | cond key' =>
      show (update k.openConds key _ key').processQueue = _
      by_cases hkey : key' = key
      · subst hkey
        rw [update_self, hf]
        rfl
      · rw [update_of_ne hkey]
        rfl
  | _ => rfl

theorem header_writeFifo (k : Kernel) (key : Int) {f : Fifo → Fifo}
    (hf : ∀ c, (f c).readQueue = c.readQueue) : (k.writeFifo key f).header = k.header := by
  funext w
  cases w with
  | fifo key' =>
      show (update k.openFifos key _ key').readQueue = _
      by_cases hkey : key' = key
      · subst hkey
        rw [update_self, hf]
        rfl
      · rw [update_of_ne hkey]
        rfl
  | _ => rfl

namespace WaitInv

theorem writeMutex (h : WaitInv use l s) (key : Int) {f : Mutex → Mutex}
    (hf : ∀ m, (f m).processQueue = m.processQueue) :
    WaitInv use l { s with k := s.k.writeMutex key f } :=
  h.same ⟨header_writeMutex _ _ hf, rfl, fun _ => rfl, rfl, rfl, rfl⟩ (.of_processes rfl rfl rfl rfl)
    fun _ => rfl

theorem writeFifo (h : WaitInv use l s) (key : Int) {f : Fifo → Fifo}
    (hf : ∀ c, (f c).readQueue = c.readQueue) :
    WaitInv use l { s with k := s.k.writeFifo key f } :=
  h.same ⟨header_writeFifo _ _ hf, rfl, fun _ => rfl, rfl, rfl, rfl⟩ (.of_processes rfl rfl rfl rfl)
    fun _ => rfl

/-- `state = CLOSED` -/
theorem closeSlot (h : WaitInv use l s) (w : QueuePlace) :
    WaitInv use l { s with k := s.k.closeSlot w } := by
  cases w with
  | mutex key => exact h.writeMutex key (f := fun m => { m with state := .closed }) fun _ => rfl
  | cond key =>
      have hheader := header_writeCond s.k key (f := fun v => { v with state := .closed }) fun _ => rfl
      exact h.same ⟨hheader, rfl, fun _ => rfl, rfl, rfl, rfl⟩ (.of_processes rfl rfl rfl rfl)
        fun _ => rfl
  | fifo key => exact h.writeFifo key (f := fun c => { c with state := .closed }) fun _ => rfl

/-- `try_read` writes a buffer, the number of bytes read and the reader's memory. -/
theorem tryRead (h : WaitInv use l s) {r : Addr} {served : Bool}
    (ht : s.k.tryRead r = some (served, k')) : WaitInv use l { s with k := k' } := by
  unfold Kernel.tryRead at ht
  simp only at ht
  split at ht
  next =>
    split at ht
    next t hread =>
      cases ht
      have h' := h.writeFifo (s.k.readRequests r).f (f := fun c => { c with cBuffer := t.cbuf })
        fun _ => rfl
      refine h'.same ⟨rfl, rfl, fun r' => ?_, rfl, rfl, rfl⟩ (.of_processes rfl rfl rfl rfl)
        fun _ => rfl
      show (update s.k.readRequests r _ r').readerP = _
      by_cases hr : r' = r
      · rw [hr, update_self]
      · rw [update_of_ne hr]
        rfl
    next => cases ht
  next =>
    cases ht
    exact h

end WaitInv

/-! ## The guard -/

namespace WaitRun

/-- The entry is in a queue, or it is a node of the list of sleeping processes. -/
def Refers (s : WaitRun) : WaitPlace → Addr → Prop
  | .queue w, e => s.built w ∧ e ∈ s.k.elems (s.k.header w)
  | .sleeping, a => s.k.SleepListed a

/-- An entry refers to the process, or an entry that was taken to wake it up. -/
def Referenced (s : WaitRun) (p : Addr) : Prop :=
  (∃ v e, s.Refers v e ∧ s.k.owner v e = p) ∨
    ∃ q ∈ s.live, ∃ x ∈ s.hands q, s.k.owner x.1 x.2 = p

end WaitRun

/-- Nobody is killed who waits, and nobody who was killed begins to wait.  The
calls find what they need: a queue that is not destroyed, a slot of the process
table, mutexes that are free for a destruction, the caller's own page for
`sys_free`, and a node to link to that is still in the list. -/
def SparesWaiters (s : WaitRun) : WaitAction → Prop
  | .kill pid => pid ≠ initPid → pid ≠ shellPid → ¬s.Referenced (s.k.getProcessByPid pid)
  | .exec _ _ => ∃ i, i < maxProcesses ∧ s.k.processTable i = null
  | .reap _ _ => s.k.ReapReady
  | .exit => s.k.ReapReady
  | .free address => Owns ⟨s.k, s.live, s.spare, []⟩ address
  | .enqueue w => s.built w ∧ (s.k.processes s.cur).st ≠ .delete
  | .dequeue w => s.built w
  | .destroyQueue w => s.built w
  | .headSleep => (s.k.processes s.cur).st ≠ .delete ∧ ∀ a, s.sleepNode s.cur = some a →
      s.k.sleepNext a = null ∨ s.k.SleepListed (s.k.sleepNext a)
  | _ => True

namespace WaitInv

/-- The pending entries are those that refer to a process. -/
theorem pending_iff (h : WaitInv use l s) {v : WaitPlace} :
    (s.tickets l).Pending v e ↔ s.Refers v e ∨ ∃ q ∈ s.live, (v, e) ∈ s.hands q := by
  have hleft : e ∈ s.left l v ↔ s.Refers v e := by
    cases v with
    | sleeping => exact h.sleepListed_iff.symm
    | queue w =>
        show e ∈ (if s.built w then s.k.elems (s.k.header w) else []) ↔ _ ∧ _
        by_cases hw : s.built w
        · simp [hw]
        · simp [hw]
  exact or_congr_left hleft

theorem referenced_of_pending (h : WaitInv use l s) {v : WaitPlace}
    (hp : (s.tickets l).Pending v e) : s.Referenced (s.k.owner v e) := by
  rcases h.pending_iff.mp hp with hr | ⟨q, hq, hx⟩
  · exact Or.inl ⟨v, e, hr, rfl⟩
  · exact Or.inr ⟨q, hq, (v, e), hx, rfl⟩

/-- `sys_kill`, of a process that no entry refers to. -/
theorem kill (h : WaitInv use l s) {pid : Nat}
    (hg : pid ≠ initPid → pid ≠ shellPid → ¬s.Referenced (s.k.getProcessByPid pid)) :
    WaitInv use l { s with k := (s.k.sysKill pid).2 } := by
  unfold sysKill
  split
  next hpid =>
    refine h.status .kill (s.k.getProcessByPid pid) fun v e hpending he => ?_
    exact hg hpid.1 hpid.2 (he ▸ h.referenced_of_pending hpending)
  next => exact h

/-- The statements of the running process. -/
theorem statement (h : WaitInv use l s) (hrun : s.Running) {a : WaitAction}
    (hg : SparesWaiters s a) (hn : s.statement a = some t) : ∃ use' l', WaitInv use' l' t := by
  cases a with
  | exit =>
      simp only [WaitRun.statement] at hn
      split at hn
      next hstage =>
        cases hn
        exact ⟨use, l, h.exit hrun hstage⟩
      next => cases hn
  | kill pid =>
      cases hn
      exact ⟨use, l, h.kill hg⟩
  | malloc =>
      obtain ⟨⟨page, k⟩, hm, he⟩ := Option.map_eq_some_iff.mp hn
      cases he
      exact ⟨use, l, h.malloc hm⟩
  | free address =>
      cases hn
      exact ⟨use, l, h.free hrun hg⟩
  | mutexOpen name =>
      obtain ⟨⟨r, k⟩, hopen, he⟩ := Option.map_eq_some_iff.mp hn
      cases he
      obtain ⟨use', h'⟩ := h.mutexOpen hopen
      exact ⟨use', l, h'⟩
  | condOpen name =>
      simp only [WaitRun.statement] at hn
      split at hn
      next i hs =>
        obtain ⟨k, hc, he⟩ := Option.map_eq_some_iff.mp hn
        cases he
        obtain ⟨use', h'⟩ := h.createNewCond hc
        exact ⟨use', l, h'⟩
      next =>
        cases hn
        exact ⟨use, l, h⟩
  | fifoOpen name =>
      obtain ⟨⟨r, k⟩, hopen, he⟩ := Option.map_eq_some_iff.mp hn
      cases he
      obtain ⟨use', h'⟩ := h.fifoOpen hopen
      exact ⟨use', l, h'⟩
  | word key lock =>
      cases hn
      exact ⟨use, l, h.writeMutex key (f := fun m => { m with locked := lock }) fun _ => rfl⟩
  | close w =>
      cases hn
      exact ⟨use, l, h.closeSlot w⟩
  | destroyQueue w =>
      obtain ⟨k, hd, he⟩ := Option.map_eq_some_iff.mp hn
      cases he
      obtain ⟨use', h'⟩ := h.destroyQueue hg hd
      exact ⟨use', l, h'⟩
  | enqueue w =>
      simp only [WaitRun.statement] at hn
      split at hn
      next hstage =>
        obtain ⟨e, hentry, hn⟩ := Option.bind_eq_some_iff.mp hn
        obtain ⟨k, henq, he⟩ := Option.map_eq_some_iff.mp hn
        cases he
        obtain ⟨use', h'⟩ := h.enqueue hg.1 hrun hg.2 hstage hentry henq
        exact ⟨use', l, h'⟩
      next => cases hn
  | dequeue w =>
      simp only [WaitRun.statement] at hn
      split at hn
      next => cases hn
      next hne =>
        obtain ⟨⟨e, k⟩, hd, he⟩ := Option.map_eq_some_iff.mp hn
        cases he
        obtain ⟨use', h'⟩ := h.dequeue hg hrun hne hd
        exact ⟨use', l, h'⟩
  | wake =>
      simp only [WaitRun.statement] at hn
      split at hn
      next w e rest hhands =>
        cases hn
        exact ⟨use, l, h.wake hrun hhands⟩
      next => cases hn
  | skip =>
      simp only [WaitRun.statement] at hn
      split at hn
      next w e rest hhands =>
        split at hn
        next =>
          cases hn
          exact ⟨use, l, h.skip hrun hhands⟩
        next => cases hn
      next => cases hn
  | block =>
      simp only [WaitRun.statement] at hn
      split at hn
      next x hstage =>
        cases hn
        exact ⟨use, l, h.block hrun hstage⟩
      next => cases hn
  | resume =>
      simp only [WaitRun.statement] at hn
      split at hn
      next x hstage =>
        split at hn
        next => cases hn
        next hgo =>
          cases hn
          exact ⟨use, l, h.resume hstage hgo⟩
      next => cases hn
  | request key buf bytes =>
      simp only [WaitRun.statement] at hn
      split at hn
      next hnone =>
        obtain ⟨⟨r, k⟩, hc, he⟩ := Option.map_eq_some_iff.mp hn
        cases he
        obtain ⟨use', h'⟩ := h.createReadRequest hnone hc
        exact ⟨use', l, h'⟩
      next => cases hn
  | tryRead r =>
      obtain ⟨⟨served, k⟩, ht, he⟩ := Option.map_eq_some_iff.mp hn
      cases he
      exact ⟨use, l, h.tryRead ht⟩
  | write key source bytes =>
      simp only [WaitRun.statement] at hn
      split at hn
      next c hc =>
        cases hn
        exact ⟨use, l, h.writeFifo key (f := fun f => { f with cBuffer := c.cbuf }) fun _ => rfl⟩
      next => cases hn
  | collect =>
      simp only [WaitRun.statement] at hn
      split at hn
      next r hr hstage =>
        cases hn
        obtain ⟨use', h'⟩ := h.collect hrun hstage hr
        exact ⟨use', l, h'⟩
      next => cases hn
  | abandon =>
      simp only [WaitRun.statement] at hn
      split at hn
      next hstage =>
        cases hn
        exact ⟨use, l, h.abandon hstage⟩
      next => cases hn
  | createSleep ticks =>
      simp only [WaitRun.statement] at hn
      split at hn
      next =>
        obtain ⟨⟨a, k⟩, hc, he⟩ := Option.map_eq_some_iff.mp hn
        cases he
        obtain ⟨use', h'⟩ := h.createSleepProcess hc
        exact ⟨use', l, h'⟩
      next => cases hn
  | link =>
      obtain ⟨a, ha, he⟩ := Option.map_eq_some_iff.mp hn
      cases he
      exact ⟨use, l, h.linkSleepProcess hrun ha⟩
  | headSleep =>
      simp only [WaitRun.statement] at hn
      split at hn
      next a ha hstage =>
        cases hn
        obtain ⟨l', h'⟩ := h.headSleepProcess hrun hg.1 hstage ha (hg.2 a ha)
        exact ⟨use, l', h'⟩
      next => cases hn
  | _ => cases hn

/-- Every step that meets the guard keeps the invariant. -/
theorem next (h : WaitInv use l s) {a : WaitAction} (hg : SparesWaiters s a)
    (hn : waitSystem.next s a = some t) : ∃ use' l', WaitInv use' l' t := by
  cases a with
  | dispatch node =>
      simp only [waitSystem] at hn
      split at hn
      next =>
        cases hn
        exact ⟨use, l, h.same ⟨rfl, rfl, fun _ => rfl, rfl, rfl, rfl⟩
          (.of_processes rfl rfl rfl rfl) fun _ => rfl⟩
      next => cases hn
  | exec rip name =>
      simp only [waitSystem] at hn
      split at hn
      next =>
        obtain ⟨⟨p, k⟩, hexec, he⟩ := Option.map_eq_some_iff.mp hn
        cases he
        obtain ⟨i, hi, hfree⟩ := hg
        obtain ⟨use', h'⟩ := h.exec hexec hi hfree
        exact ⟨use', l, h'⟩
      next => cases hn
  | reap node prev =>
      simp only [waitSystem] at hn
      split at hn
      next hnode =>
        cases hn
        obtain ⟨use', h'⟩ := h.reap hnode.1 hnode.2.1 hnode.2.2
        exact ⟨use', l, h'⟩
      next => cases hn
  | foreground p =>
      cases hn
      unfold setForegroundForceProcess
      split
      next => exact ⟨use, l, h.mayUnblock (.unblockForegroundProcess _ _)⟩
      next => exact ⟨use, l, h⟩
  | status call p =>
      simp only [waitSystem] at hn
      have hout : s.stage p = .out → ∀ w e, (s.tickets l).Pending w e → s.k.owner w e ≠ p :=
        fun hstage w e hpending => by
          refine h.tickets.owner_ne ?_ hpending
          show (s.stage p).ticket = none
          rw [hstage]
          rfl
      split at hn
      next hstage =>
        split at hn
        next =>
          cases hn
          exact ⟨use, l, h.status .blockRead p (hout hstage)⟩
        next => cases hn
      next hstage =>
        split at hn
        next =>
          cases hn
          exact ⟨use, l, h.status .blockForeground p (hout hstage)⟩
        next => cases hn
      next =>
        cases hn
        exact ⟨use, l, h.unblockRead p⟩
      next =>
        cases hn
        exact ⟨use, l, h.mayUnblock (.unblockForegroundProcess _ _)⟩
      next => cases hn
  | getPage =>
      obtain ⟨⟨a, k⟩, hget, he⟩ := Option.map_eq_some_iff.mp hn
      cases he
      obtain ⟨use', h'⟩ := h.take hget
      exact ⟨use', l, h'⟩
  | givePage a =>
      simp only [waitSystem] at hn
      split at hn
      next ha =>
        cases hn
        obtain ⟨use', h'⟩ := h.give ha
        exact ⟨use', l, h'⟩
      next => cases hn
  | tick fuel =>
      obtain ⟨k, htick, he⟩ := Option.map_eq_some_iff.mp hn
      cases he
      exact h.timerHandler htick
  | _ =>
      simp only [waitSystem] at hn
      split at hn
      next hrun => exact h.statement hrun hg hn
      next => cases hn

theorem of_init (h : waitSystem.init s) : WaitInv (fun _ => none) [] s := by
  obtain ⟨hpages, htable, hcount, hsleeping, hlive, hspare, hheld, hbuilt⟩ := h
  have hown : OwnInv (fun _ => none) ⟨s.k, s.live, s.spare, []⟩ :=
    OwnInv.of_init ⟨hpages, hlive, hspare, rfl⟩
  have hnone : ∀ w, s.left [] w = [] := by
    intro w
    cases w with
    | sleeping => rfl
    | queue w => exact if_neg (by simp [hbuilt])
  refine ⟨⟨⟨_, [], hown, by simp⟩, ?_⟩, by simp [hheld], by simp [hheld], ?_, ?_, ?_⟩
  · rw [hlive]
    exact ⟨.start fun i _ => htable i, hcount⟩
  · exact ⟨by simp [hbuilt], by simp [hbuilt], by simp [hbuilt], hsleeping, by simp⟩
  · constructor
    all_goals simp [hlive]
  · have hleft : ∀ w, (s.tickets []).left w = [] := hnone
    have hlive' : ∀ q, q ∉ (s.tickets []).live := by
      intro q hq
      have hq' : q ∈ s.live := hq
      rw [hlive] at hq'
      cases hq'
    refine ⟨?_, fun w => ?_, fun q hq => absurd hq (hlive' q), fun q hq => absurd hq (hlive' q),
      fun p hp => absurd hp (hlive' p)⟩
    · rintro w e (he | ⟨q, hq, -⟩)
      · rw [hleft] at he
        cases he
      · exact absurd hq (hlive' q)
    · rw [hleft]
      exact List.nodup_nil

theorem of_reachBy (h : waitSystem.ReachBy SparesWaiters s) : ∃ use l, WaitInv use l s :=
  h.invariant (I := fun s => ∃ use l, WaitInv use l s) (fun _ hs => ⟨_, _, of_init hs⟩)
    fun _ _ _ ⟨_, _, hi⟩ hg hn => hi.next hg hn

end WaitInv

/-! ## What holds in every run -/

/-- The process of the entry is in the table and waits with it. -/
structure WaitRun.Waits (s : WaitRun) (v : WaitPlace) (e : Addr) : Prop where
  live : s.k.owner v e ∈ s.live
  slot : (s.k.processes (s.k.owner v e)).pid < maxProcesses
  table : s.k.processTable (s.k.processes (s.k.owner v e)).pid = s.k.owner v e
  stage : s.stage (s.k.owner v e) = .registered (v, e) ∨
    s.stage (s.k.owner v e) = .waiting (v, e) ∧ (s.k.processes (s.k.owner v e)).st = .blocked

/-- No waiter dangles. -/
structure WaitersOk (s : WaitRun) : Prop where
  /-- Nothing refers to a process that was destroyed. -/
  gone : ∀ p, p ∉ s.live → ¬s.Referenced p
  refers : ∀ v e, s.Refers v e → s.Waits v e
  /-- `unblock_process` is applied to what was taken from a queue. -/
  taken : ∀ q ∈ s.live, ∀ x ∈ s.hands q, s.Waits x.1 x.2
  /-- `timer_handler` applies it to the processes of these nodes. -/
  tick : ∀ fuel, ∀ a ∈ timerWoken fuel s.k null s.k.sleepingProcesses, s.Waits .sleeping a

/-- A pending entry is one of a process in the table. -/
theorem WaitInv.waits (h : WaitInv use l s) {v : WaitPlace} (hp : (s.tickets l).Pending v e) :
    s.Waits v e := by
  have haw := h.tickets.awaited v e hp
  obtain ⟨hslot, htable⟩ := h.accounted.table.slots.entry _ haw.live
  exact ⟨haw.live, hslot, htable, haw.stage⟩

/-- As long as nobody is killed who waits, no waiter dangles. -/
theorem no_dangling_waiters (h : waitSystem.ReachBy SparesWaiters s) : WaitersOk s := by
  obtain ⟨use, l, hi⟩ := WaitInv.of_reachBy h
  have hrefers : ∀ v e, s.Refers v e → s.Waits v e := fun v e hr =>
    hi.waits (hi.pending_iff.mpr (Or.inl hr))
  have htaken : ∀ q ∈ s.live, ∀ x ∈ s.hands q, s.Waits x.1 x.2 := fun q hq x hx =>
    hi.waits (Or.inr ⟨q, hq, hx⟩)
  refine ⟨fun p hp hr => ?_, hrefers, htaken, fun fuel a ha => ?_⟩
  · rcases hr with ⟨v, e, hr, rfl⟩ | ⟨q, hq, x, hx, rfl⟩
    · exact hp (hrefers v e hr).live
    · exact hp (htaken q hq x hx).live
  · have hmem := WaitInv.timerWoken_subset fuel hi.places.walk hi.null_notMem hi.null_notMem ha
    exact hrefers .sleeping a (hi.sleepListed_iff.mpr hmem)

/-- Nothing has happened yet. -/
def waitStarted : WaitRun where
  k := { pages := PageStack.initializeMemoryAllocator ⟨fun _ => 0, 0⟩ }
  live := []
  spare := []
  held := []
  built _ := false
  stage _ := .out
  hands _ := []
  request _ := none
  sleepNode _ := none

theorem init_waitStarted : waitSystem.init waitStarted :=
  ⟨rfl, fun _ => rfl, rfl, rfl, rfl, rfl, rfl, fun _ => rfl⟩

/-- A process waits for a mutex that another one holds. -/
def oneWaits : List WaitAction :=
  [.exec 0 .nil, .exec 0 .nil, .exec 0 .nil, .mutexOpen .nil, .word 0 .locked,
    .dispatch (pageAddr 6), .enqueue (.mutex 0), .block, .dispatch (pageAddr 4)]

/-- A test for the guard, for steps that kill nobody. -/
def sparesWaiters (s : WaitRun) : WaitAction → Bool
  | .exec _ _ => decide (s.k.processTable 127 = null)
  | .reap _ _ => decide (s.k.MemoryFree ∧ s.k.MutexFree s.k.stackMemoryMutexKey ∧
      s.k.MutexFree s.k.tableMutexKey ∧ ¬s.k.mutexIsOpen s.k.tableMutexKey)
  | .enqueue w => decide (s.built w ∧ (s.k.processes s.cur).st ≠ .delete)
  | .dequeue w => s.built w
  | .dispatch _ => true
  | .mutexOpen _ => true
  | .word _ _ => true
  | .block => true
  | .wake => true
  | .resume => true
  | _ => false

theorem sparesWaiters_of {a : WaitAction} (h : sparesWaiters s a) : SparesWaiters s a := by
  cases a with
  | exec rip name => exact ⟨127, by decide, of_decide_eq_true h⟩
  | reap node prev =>
      obtain ⟨hmemory, hstack, htable, hclosed⟩ := of_decide_eq_true h
      exact ⟨hmemory, hstack, htable, fun hopen => absurd hopen hclosed⟩
  | enqueue w =>
      have hready : s.built w ∧ (s.k.processes s.cur).st ≠ .delete := of_decide_eq_true h
      exact hready
  | dequeue w => exact h
  | dispatch => trivial
  | mutexOpen => trivial
  | word => trivial
  | block => trivial
  | wake => trivial
  | resume => trivial
  | _ => cases h

/-- The process gets the mutex and goes on. -/
def oneWoken : Option WaitRun :=
  waitSystem.executeBy sparesWaiters waitStarted (oneWaits ++
    [.dequeue (.mutex 0), .wake, .dispatch (pageAddr 6), .resume, .dispatch (pageAddr 4)])

theorem oneWoken_isSome : oneWoken.isSome := by decide +kernel

/-- Then it is killed. -/
def oneKilled : Option WaitRun := waitSystem.next (oneWoken.get oneWoken_isSome) (.kill 2)

theorem oneKilled_isSome : oneKilled.isSome := by decide +kernel

/-- Its page is handed out again for another process. -/
def pageReused : Option WaitRun :=
  waitSystem.executeBy sparesWaiters (oneKilled.get oneKilled_isSome)
    [.reap (pageAddr 6) (pageAddr 4), .exec 0 .nil]

/-- A process that waits for nothing is referred to by nothing. -/
theorem WaitInv.not_referenced (h : WaitInv use l s) (hp : (s.stage p).ticket = none) :
    ¬s.Referenced p := by
  rintro (⟨v, e, hr, he⟩ | ⟨q, hq, x, hx, he⟩)
  · exact h.tickets.owner_ne hp (h.pending_iff.mpr (Or.inl hr)) he
  · exact h.tickets.owner_ne hp (Or.inr ⟨q, hq, hx⟩) he

theorem reach_oneKilled : waitSystem.ReachBy SparesWaiters (oneKilled.get oneKilled_isSome) := by
  have hwoken : waitSystem.ReachBy SparesWaiters (oneWoken.get oneWoken_isSome) :=
    (System.ReachBy.init init_waitStarted).execute (fun _ _ => sparesWaiters_of)
      (Option.some_get _).symm
  obtain ⟨use, l, hi⟩ := WaitInv.of_reachBy hwoken
  have hg : SparesWaiters (oneWoken.get oneWoken_isSome) (.kill 2) :=
    fun _ _ => hi.not_referenced (by decide +kernel)
  exact hwoken.step hg (Option.some_get oneKilled_isSome).symm

theorem no_dangling_waiters_killed : WaitersOk (pageReused.get (by decide +kernel)) :=
  no_dangling_waiters (reach_oneKilled.execute (fun _ _ => sparesWaiters_of)
    (Option.some_get _).symm)

/-- The process is killed and reaped while it waits, and stays in the queue. -/
theorem killed_waiter_dangles : ¬∀ s, waitSystem.Reach s → WaitersOk s := by
  intro hall
  obtain ⟨s, hs, hleft⟩ := System.exists_reach_of_execute init_waitStarted
    (oneWaits ++ [.kill 2, .reap (pageAddr 6) (pageAddr 4)])
    (fun s => decide (pageAddr 5 ∉ s.live ∧ s.built (.mutex 0) ∧
      pageAddr 5 ∈ s.k.elems (s.k.header (.mutex 0)))) (by decide +kernel)
  obtain ⟨hgone, hbuilt, hmem⟩ := of_decide_eq_true hleft
  exact (hall s hs).gone _ hgone (Or.inl ⟨.queue (.mutex 0), _, ⟨hbuilt, hmem⟩, rfl⟩)

end Kernel

end TPE
