import TPE.Kernel.AllocatorRuns
import TPE.Kernel.SchedulerRuns

/-!
# Who owns a stack page

`create_process` takes a stack page and `destroy_process` gives it back.  The
scheduler destroys processes only while it walks the ring, so the stack pages
are followed along its runs: the free ones and those of the living processes
are together all stack pages.

`get_stack_page` returns 0 when it has no page left, and `create_process` does
not test for that.  It never happens: a process takes two data pages, one for
its structure and one for its node, so the data pages run out first.
-/

namespace TPE

open Function

namespace Kernel

/-- The stack page of the process `p`. -/
def stackPageOf (k : Kernel) (p : Addr) : Addr := (k.processes p).stackPage

/-- The saved stack pointer of the process `p`. -/
def rspOf (k : Kernel) (p : Addr) : Nat := (k.processes p).rsp

variable {k k' : Kernel} {n0 p0 p : Addr} {fuel rsp : Nat} {ps live : List Addr}

/-! ## What destroying processes does -/

/-- The processes `ps` were destroyed one after the other: their stack pages are
free, and every process structure still has its stack page and its stack pointer. -/
structure Reaped (k : Kernel) (ps : List Addr) (k' : Kernel) : Prop where
  stackPageOf : k'.stackPageOf = k.stackPageOf
  rspOf : k'.rspOf = k.rspOf
  index : k'.currentStackIndex = k.currentStackIndex - ps.length
  free : ps.length ≤ k.currentStackIndex → k.currentStackIndex ≤ maxProcesses →
    k'.freeStackPages = (ps.map k.stackPageOf).reverse ++ k.freeStackPages

/-- Two states with the same processes and stack pages. -/
theorem Reaped.of_eq (hprocs : k'.processes = k.processes)
    (hindex : k'.currentStackIndex = k.currentStackIndex)
    (hstack : k'.stackPagesStack = k.stackPagesStack) : Reaped k [] k' := by
  refine ⟨?_, ?_, hindex, fun _ _ => ?_⟩
  · funext q
    rw [Kernel.stackPageOf, hprocs, Kernel.stackPageOf]
  · funext q
    rw [Kernel.rspOf, hprocs, Kernel.rspOf]
  · rw [freeStackPages, hindex, hstack]
    rfl

theorem Reaped.trans {k'' : Kernel} {qs : List Addr} (h : Reaped k ps k') (h' : Reaped k' qs k'') :
    Reaped k (ps ++ qs) k'' := by
  refine ⟨h'.stackPageOf.trans h.stackPageOf, h'.rspOf.trans h.rspOf, ?_, fun hlen hmax => ?_⟩
  · rw [h'.index, h.index, List.length_append]
    omega
  · rw [List.length_append] at hlen
    have hfirst := h.free (by omega) hmax
    have hindex := h.index
    rw [h'.free (by omega) (by omega), hfirst, h.stackPageOf, List.map_append, List.reverse_append,
      List.append_assoc]

theorem reaped_freeDataPagesFrom (p : Addr) (rounds i : Nat) (k : Kernel) :
    Reaped k [] (freeDataPagesFrom p rounds i k) := by
  induction rounds generalizing i k with
  | zero => exact .of_eq rfl rfl rfl
  | succ rounds ih =>
      rw [freeDataPagesFrom]
      split
      · split
        · let k₁ := (k.storePage ((k.processes p).dataPage i)).writeProcess p fun c =>
            { c with nDataPage := c.nDataPage - 1 }
          have hfirst : Reaped k [] k₁ := by
            refine ⟨?_, ?_, rfl, fun _ _ => rfl⟩
            all_goals
              funext q
              by_cases hq : q = p
              · subst hq
                exact congrArg _ (update_self _ _ _)
              · exact congrArg _ (update_of_ne hq _ _)
          exact hfirst.trans (ih (i + 1) k₁)
        · exact ih _ _
      · exact .of_eq rfl rfl rfl

/-- The stack page of `p` is given back. -/
theorem reaped_storeStackPage (k : Kernel) (p : Addr) :
    Reaped k [p] (k.storeStackPage (k.stackPageOf p)) :=
  ⟨rfl, rfl, rfl, fun hlen hmax => freeStackPages_storeStackPage hlen hmax⟩

theorem reaped_destroyProcess (hp : p ≠ null) : Reaped k [p] (k.destroyProcess p) := by
  obtain ⟨k₀, hcount⟩ : ∃ k₀ : Kernel,
      k₀ = { k with nProcesses := (k.nProcesses + 2 ^ 64 - 1) % 2 ^ 64 } := ⟨_, rfl⟩
  obtain ⟨k₁, hfree⟩ : ∃ k₁, k₁ = k₀.freeDataPages p := ⟨_, rfl⟩
  obtain ⟨foreground, processes, hs, he⟩ := destroyProcess_eq hp (hcount ▸ hfree)
  have hfirst : Reaped k [] k₁ := by
    have hcounted : Reaped k [] k₀ := by
      rw [hcount]
      exact .of_eq rfl rfl rfl
    rw [hfree]
    exact hcounted.trans (reaped_freeDataPagesFrom p maxDataPages 0 k₀)
  let k₂ : Kernel := { k₁ with
    foreground, processes, processTable := update k₁.processTable (processes p).pid null }
  have hstack : ∀ q, (processes q).stackPage = (k₁.processes q).stackPage := by
    intro q
    rcases hs q with hq | ⟨-, hq⟩ <;> rw [hq]
  have hsecond : Reaped k₁ [] k₂ := ⟨funext hstack, funext hs.rsp_eq, rfl, fun _ _ => rfl⟩
  have hthird : Reaped k₂ [p] (k₂.storeStackPage (k₂.stackPageOf p)) := reaped_storeStackPage k₂ p
  have hlast : Reaped (k₂.storeStackPage (k₂.stackPageOf p)) [] (k.destroyProcess p) := by
    rw [he]
    exact .of_eq rfl rfl rfl
  exact (hfirst.trans hsecond).trans (hthird.trans hlast)

theorem reaped_setNextCurrent (h : setNextCurrent fuel k = some (ps, k')) : Reaped k ps k' := by
  induction fuel generalizing k ps with
  | zero => cases h
  | succ fuel ih =>
      rw [setNextCurrent] at h
      simp only at h
      split at h
      next =>
        split at h
        next hdel =>
          obtain ⟨⟨ps', k₁⟩, hrest, he⟩ := Option.map_eq_some_iff.mp h
          cases he
          let k₂ := k.link k.prev (k.next k.current)
          have hlink : Reaped k [] k₂ := .of_eq rfl rfl rfl
          have hdestroy : Reaped k₂ [k.procOf k.current] (k₂.destroyProcess (k.procOf k.current)) :=
            reaped_destroyProcess hdel.1
          have hfree : Reaped (k₂.destroyProcess (k.procOf k.current)) [] k.passDoomed :=
            .of_eq rfl rfl rfl
          have hpass : Reaped k [k.procOf k.current] k.passDoomed :=
            hlink.trans (hdestroy.trans hfree)
          exact hpass.trans (ih hrest)
        next =>
          have hpass : Reaped k [] k.passBlocked := .of_eq rfl rfl rfl
          exact hpass.trans (ih h)
      next =>
        cases h
        exact .of_eq rfl rfl rfl

/-- The process that loses the processor gets its stack pointer written. -/
theorem departed_stacks (rsp : Nat) (hp : k.procOf k.current ≠ null) :
    (k.departed rsp).stackPageOf = k.stackPageOf ∧
    (k.departed rsp).rspOf = update k.rspOf (k.procOf k.current) rsp ∧
    (k.departed rsp).currentStackIndex = k.currentStackIndex ∧
    (k.departed rsp).freeStackPages = k.freeStackPages := by
  let k₁ : Kernel := { k.unassignQuantum with superlock := .locked }
  let k₂ : Kernel := k₁.writeNode k₁.current fun n => { n with quantum := quantum }
  have hsame : k₂.procOf = k.procOf := by
    refine (procOf_writeQuantum k₁ k₁.current fun _ => quantum).trans ?_
    exact k.procOf_unassignQuantum
  have hcur : k₂.procOf k₂.current = k.procOf k.current := congrFun hsame k.current
  have hset : k₂.setRspProcess (k₂.procOf k₂.current) rsp =
      k₂.writeProcess (k.procOf k.current) fun c => { c with rsp } := by
    rw [hcur]
    exact if_pos hp
  have hproc : (k.departed rsp).processes =
      update k.processes (k.procOf k.current) { k.processes (k.procOf k.current) with rsp } :=
    congrArg Kernel.processes hset
  have hindex := congrArg Kernel.currentStackIndex hset
  have hfree := congrArg Kernel.freeStackPages hset
  refine ⟨?_, ?_, hindex, hfree⟩
  · funext q
    rw [Kernel.stackPageOf, hproc, Kernel.stackPageOf]
    by_cases hq : q = k.procOf k.current
    · rw [hq, update_self]
    · rw [update_of_ne hq]
  · funext q
    rw [Kernel.rspOf, hproc]
    by_cases hq : q = k.procOf k.current
    · rw [hq, update_self, update_self]
    · rw [update_of_ne hq, update_of_ne hq]
      rfl

/-! ## What the calls of the scheduler do -/

/-- Either the running process goes on, or processes were destroyed after it got
its stack pointer written. -/
theorem nextProcess_stacks {d : Dispatch} (hcur : k.current ≠ null)
    (hlock : k.superlock = .unlocked) (h : k.nextProcess fuel rsp = some d) :
    d = ⟨rsp, false, [], k.unassignQuantum⟩ ∨
    (d.rsp = d.k.getRspProcess d.k.getCurrentProcess ∧
      Reaped (k.departed rsp) d.destroyed d.k) := by
  rw [nextProcess_eq hcur hlock] at h
  split at h
  next =>
    exact Or.inl (Option.some.inj h).symm
  next =>
    obtain ⟨⟨ps, k₁⟩, hset, he⟩ := Option.map_eq_some_iff.mp h
    cases he
    have hunlock : Reaped k₁ [] { k₁ with superlock := .unlocked } := .of_eq rfl rfl rfl
    have hreaped := (reaped_setNextCurrent hset).trans hunlock
    rw [List.append_nil] at hreaped
    exact Or.inr ⟨rfl, hreaped⟩

theorem reaped_unassignQuantum (k : Kernel) : Reaped k [] k.unassignQuantum := .of_eq rfl rfl rfl

theorem reaped_yieldQuantum (k : Kernel) : Reaped k [] k.yieldQuantum := .of_eq rfl rfl rfl

theorem reaped_endProcess (hp : k.procOf k.current ≠ null) (h : k.endProcess fuel = some (ps, k')) :
    Reaped k ps k' := by
  rw [endProcess_eq] at h
  obtain ⟨⟨ps', k₁⟩, hset, he⟩ := Option.map_eq_some_iff.mp h
  cases he
  let k₀ : Kernel := { k with superlock := .locked }
  have hlock : Reaped k [] k₀ := .of_eq rfl rfl rfl
  have hdestroy : Reaped k₀ [k.procOf k.current] (k₀.destroyProcess (k.procOf k.current)) :=
    reaped_destroyProcess hp
  have hunlink : Reaped (k₀.destroyProcess (k.procOf k.current)) [] k.unlinked := by
    rw [unlinked_eq rfl]
    exact .of_eq rfl rfl rfl
  have hwalk := reaped_setNextCurrent hset
  have hstore : Reaped k₁ [] (assignQuantum { k₁ with
      superlock := .unlocked, pages := k₁.pages.storePage k.current }) := .of_eq rfl rfl rfl
  have hend := (hlock.trans (hdestroy.trans hunlink)).trans (hwalk.trans hstore)
  simp only [List.nil_append, List.append_nil, List.singleton_append] at hend
  exact hend

theorem reaped_applyStatus (k : Kernel) (call : StatusCall) (q : Addr) :
    Reaped k [] (k.applyStatus call q) := by
  obtain ⟨st, he, -⟩ := call.apply_eq k.processes q
  have hprocs : (k.applyStatus call q).processes = k.processes.setSt q st := he
  refine ⟨?_, ?_, rfl, fun _ _ => rfl⟩
  · funext r
    rw [Kernel.stackPageOf, hprocs, Kernel.stackPageOf]
    by_cases hr : r = q
    · subst hr
      simp [Procs.setSt]
    · rw [Procs.setSt_of_ne hr]
  · funext r
    rw [Kernel.rspOf, hprocs, Kernel.rspOf]
    by_cases hr : r = q
    · subst hr
      simp [Procs.setSt]
    · rw [Procs.setSt_of_ne hr]

/-! ## What `sys_exec` does -/

theorem initProcess_stacks (k : Kernel) (p stackPage : Addr) (rip : Nat) (name : CString) :
    (initProcess k p stackPage rip name).stackPageOf = update k.stackPageOf p stackPage ∧
    (initProcess k p stackPage rip name).rspOf = update k.rspOf p (fillStack stackPage) ∧
    (initProcess k p stackPage rip name).currentStackIndex = k.currentStackIndex ∧
    (initProcess k p stackPage rip name).freeStackPages = k.freeStackPages := by
  obtain ⟨n, pid, table, hins⟩ := insertProcess_eq
    (k.writeProcess p fun c =>
      { c with
        name
        stackPage
        entryPoint := rip
        st := .ready
        rsp := fillStack stackPage
        dataPage := fun _ => null
        nDataPage := 0 }) p
  simp only [initProcess]
  rw [hins]
  split
  all_goals
    refine ⟨funext fun q => ?_, funext fun q => ?_, rfl, rfl⟩
    all_goals
      by_cases hq : q = p
      · subst hq
        simp [Kernel.stackPageOf, Kernel.rspOf, writeProcess]
      · simp [Kernel.stackPageOf, Kernel.rspOf, writeProcess, hq]

theorem reaped_addProcess (h : k.addProcess p = some k') : Reaped k [] k' := by
  obtain ⟨⟨a, k₁⟩, hget, he⟩ := Option.map_eq_some_iff.mp h
  obtain ⟨pages, -, rfl⟩ := getPage_eq_some hget
  simp only at he
  split at he
  all_goals
    cases he
    exact .of_eq rfl rfl rfl

/-- The new process gets the next free stack page. -/
structure TakesStack (k : Kernel) (p page : Addr) (k' : Kernel) : Prop where
  stackPageOf : k'.stackPageOf = update k.stackPageOf p page
  rspOf : k'.rspOf = update k.rspOf p (fillStack page)
  index : k'.currentStackIndex = k.currentStackIndex + 1
  free : k.freeStackPages = page :: k'.freeStackPages

theorem sysExec_stacks {rip : Nat} {name : CString} (h : k.sysExec rip name = some (p, k'))
    (hlt : k.currentStackIndex < maxProcesses) : ∃ page, TakesStack k p page k' := by
  obtain ⟨⟨q, k₁⟩, hcreate, hadd⟩ := Option.bind_eq_some_iff.mp h
  obtain ⟨k₂, hadd, he⟩ := Option.map_eq_some_iff.mp hadd
  cases he
  have hnode := reaped_addProcess hadd
  obtain ⟨⟨q, k₃⟩, hget, he⟩ := Option.map_eq_some_iff.mp hcreate
  obtain ⟨pages, -, rfl⟩ := getPage_eq_some hget
  have hstack : getStackPage { k with pages } = (k.stackPagesStack k.currentStackIndex,
      { k with pages, currentStackIndex := k.currentStackIndex + 1 }) := if_pos hlt
  simp only [hstack, Prod.mk.injEq] at he
  obtain ⟨rfl, hinit⟩ := he
  let k₄ : Kernel := { k with pages, currentStackIndex := k.currentStackIndex + 1 }
  have hinit : initProcess k₄ q (k.stackPagesStack k.currentStackIndex) rip name = k₁ := hinit
  obtain ⟨hpage, hrsp, hindex, hfree⟩ :=
    initProcess_stacks k₄ q (k.stackPagesStack k.currentStackIndex) rip name
  rw [hinit] at hpage hrsp hindex hfree
  have hnext := freeStackPages_of_getStackPage (k := k) hlt
  rw [getStackPage, if_pos hlt] at hnext
  refine ⟨_, hnode.stackPageOf.trans hpage, hnode.rspOf.trans hrsp, hnode.index.trans hindex, ?_⟩
  have hle : k₁.currentStackIndex ≤ maxProcesses := hindex ▸ hlt
  rw [hnext, hnode.free (Nat.zero_le _) hle, hfree]
  rfl

/-! ## The invariant -/

/-- The free stack pages and those of the living processes are all stack pages. -/
structure Stacks (k : Kernel) (live : List Addr) : Prop where
  pool : Pool.Conserves stackPages ⟨k.freeStackPages, live.map k.stackPageOf⟩
  index : k.currentStackIndex ≤ maxProcesses

namespace Stacks

variable {live' : List Addr}

/-- The index counts the living processes. -/
theorem index_eq (h : k.Stacks live) : k.currentStackIndex = live.length := by
  have hlen := h.pool.length_eq
  have hfree := k.length_freeStackPages
  have hall : stackPages.length = maxProcesses := by simp [stackPages]
  have hle := h.index
  rw [List.length_map] at hlen
  omega

theorem mem (h : k.Stacks live) (hp : p ∈ live) : k.stackPageOf p ∈ stackPages :=
  h.pool.mem_all (List.mem_map_of_mem hp)

/-- Two living processes do not have the same stack page. -/
theorem inj (h : k.Stacks live) {q : Addr} (hp : p ∈ live) (hq : q ∈ live)
    (he : k.stackPageOf p = k.stackPageOf q) : p = q :=
  List.inj_on_of_nodup_map (h.pool.nodup_handed nodup_stackPages) hp hq he

/-- The processes `ps` of `live` are destroyed, and `live'` are left. -/
theorem reap (h : k.Stacks live) (hr : Reaped k ps k') (hperm : (ps ++ live').Perm live) :
    k'.Stacks live' := by
  have hlen := hperm.length_eq
  have hindex := h.index_eq
  have hmax := h.index
  rw [List.length_append] at hlen
  refine ⟨?_, ?_⟩
  · rw [hr.free (by omega) hmax, hr.stackPageOf]
    refine List.Perm.trans ?_ h.pool
    have hmap : (ps.map k.stackPageOf ++ live'.map k.stackPageOf).Perm (live.map k.stackPageOf) := by
      rw [← List.map_append]
      exact hperm.map _
    have hreverse : ((ps.map k.stackPageOf).reverse ++ k.freeStackPages).Perm
        (k.freeStackPages ++ ps.map k.stackPageOf) :=
      ((List.reverse_perm _).append_right _).trans List.perm_append_comm
    refine (hreverse.append_right _).trans ?_
    rw [List.append_assoc]
    exact hmap.append_left _
  · rw [hr.index]
    omega

/-- A new process gets a stack page that no living process has. -/
theorem takes (h : k.Stacks live) {page : Addr} (ht : TakesStack k p page k') (hp : p ∉ live)
    (hlt : live.length < maxProcesses) :
    page ∈ stackPages ∧ page ∉ live.map k.stackPageOf ∧ k'.Stacks (p :: live) := by
  have hpool := h.pool
  rw [ht.free] at hpool
  have hold : live.map k'.stackPageOf = live.map k.stackPageOf := by
    refine List.map_congr_left fun q hq => ?_
    rw [ht.stackPageOf, update_of_ne]
    rintro rfl
    exact hp hq
  have hnew : k'.stackPageOf p = page := by rw [ht.stackPageOf, update_self]
  have htake := hpool.take
  refine ⟨htake.mem_all List.mem_cons_self,
    hpool.fresh nodup_stackPages List.mem_cons_self, ⟨?_, ?_⟩⟩
  · rw [List.map_cons, hnew, hold]
    exact htake
  · rw [ht.index, h.index_eq]
    exact hlt

end Stacks

/-! ## Data pages run out first -/

theorem length_le_of_isPage {l : List Addr} (hnodup : l.Nodup) (hpage : ∀ a ∈ l, IsPage a) :
    l.length ≤ 256 := by
  have hsub : l ⊆ (List.range 256).map dataPage := by
    intro a ha
    obtain ⟨i, rfl⟩ := hpage a ha
    rw [pageAddr_eq]
    exact List.mem_map_of_mem (List.mem_range.mpr i.toNat_lt)
  have hle := (List.subperm_of_subset hnodup hsub).length_le
  simpa using hle

/-- While there is a data page for a further process, fewer processes live than
there are stack pages. -/
theorem RingInv.length_lt {held pre suf : List Addr} (h : k.RingInv n0 p0 held pre suf)
    {pages : PageStack} (hget : k.pages.getPage = some (p, pages)) :
    (pre ++ k.current :: suf).length < maxProcesses := by
  obtain ⟨hfresh, hpage, -⟩ := h.owned.pages.getPage hget
  have hnodup : (p :: k.ringPages (pre ++ k.current :: suf)).Nodup := by
    refine List.nodup_cons.mpr ⟨fun hm => hfresh (List.mem_append_right _ hm), ?_⟩
    exact (List.nodup_append.mp h.owned.nodup).2.1
  have hle := length_le_of_isPage hnodup (by
    intro a ha
    rcases List.mem_cons.mp ha with rfl | ha
    · exact hpage
    · exact h.owned.pages.isPage a (List.mem_append_right _ ha))
  have hmax : maxProcesses = 128 := rfl
  simp only [ringPages, List.length_cons, List.length_append, List.length_map] at hle ⊢
  omega

/-! ## Runs -/

/-- The processes that a walk destroys are in the ring. -/
theorem Moved.subperm {kept passed rest destroyed ring : List Addr}
    (h : Moved k n0 kept passed rest destroyed k') (hring : passed.Sublist ring)
    (hlive : (ring.map k.procOf).Perm live) : destroyed.Subperm live := by
  rw [h.destroyed]
  have hsub : ((passed.filter fun a => k.Doomed a).map k.procOf).Sublist (ring.map k.procOf) :=
    (List.filter_sublist.trans hring).map k.procOf
  exact hsub.subperm.trans hlive.subperm

/-- What is left of the living processes. -/
theorem perm_diff_of_subperm (h : ps.Subperm live) : (ps ++ live.diff ps).Perm live :=
  List.subperm_append_diff_self_of_count_le fun x _ => h.count_le x

theorem RingInv.nextProcess_subperm {pre suf : List Addr} {d : Dispatch}
    (h : k.RingInv n0 p0 [] pre suf) (hlive : ((pre ++ k.current :: suf).map k.procOf).Perm live)
    (hd : k.nextProcess fuel rsp = some d) : d.destroyed.Subperm live := by
  rcases h.nextProcess_spec rsp with hstay | ⟨passed, rest, d', hsuf, hrun, -, hsw, -⟩
  · rw [hstay] at hd
    cases hd
    exact List.nil_subperm
  · rw [hrun] at hd
    split at hd
    next =>
      cases hd
      refine hsw.moved.subperm ?_ hlive
      rw [hsuf]
      refine List.Sublist.trans ?_ (List.sublist_append_right _ _)
      exact (List.sublist_append_left passed rest).cons _
    next => cases hd

theorem RingInv.endProcess_subperm {pre suf : List Addr} (h : k.RingInv n0 p0 [] pre suf)
    (hne : k.current ≠ n0) (hlive : ((pre ++ k.current :: suf).map k.procOf).Perm live)
    (hd : k.endProcess fuel = some (ps, k')) : ps.Subperm live := by
  obtain ⟨passed, rest, ps', k₁, hsuf, hrun, hmoved, -⟩ := h.endProcess_spec hne
  rw [hrun] at hd
  split at hd
  next =>
    cases hd
    have hall : (k.procOf k.current :: ps').Sublist ((k.current :: suf).map k.procOf) := by
      rw [List.map_cons, hmoved.destroyed, hsuf]
      refine List.Sublist.cons_cons _ (List.Sublist.map _ ?_)
      exact List.filter_sublist.trans (List.sublist_append_left passed rest)
    refine (hall.trans ?_).subperm.trans hlive.subperm
    exact (List.sublist_append_right _ _).map _
  next => cases hd

/-- The kernel before the first process is created, with all stack pages free. -/
structure Started (k : Kernel) : Prop extends k.Booted where
  stackIndex : k.currentStackIndex = 0
  stackPages : ∀ i < maxProcesses, k.stackPagesStack i = stackPage i

theorem Started.stacks (h : k.Started) : k.Stacks [] := by
  have hfree : k.freeStackPages = TPE.stackPages := by
    rw [freeStackPages, h.stackIndex, Nat.sub_zero, TPE.stackPages, List.range_eq_range']
    refine List.map_congr_left fun i hi => h.stackPages i ?_
    simpa using hi
  refine ⟨?_, ?_⟩
  · rw [hfree]
    exact .start
  · rw [h.stackIndex]
    exact Nat.zero_le _

/-- The scheduler, started with all stack pages free. -/
def stackSystem (n0 p0 : Addr) : System Sched RingAction where
  init s := ∃ (k : Kernel) (rip : Nat) (name : CString), k.Started ∧
    k.sysExec rip name = some (p0, s.k) ∧ s.k.current = n0 ∧ (s.k.processes p0).pid = 0 ∧
    s.live = [p0]
  next := (ringSystem n0 p0).next

/-- The running process is alive, and no living process is `NULL`. -/
theorem SchedInv.running_mem {s : Sched} (h : SchedInv n0 p0 s) :
    s.k.getCurrentProcess ∈ s.live ∧ ∀ p ∈ s.live, p ≠ null := by
  obtain ⟨pre, suf, hinv, hlive⟩ := h
  refine ⟨hlive.mem_iff.mp (List.mem_map_of_mem hinv.current_mem), fun p hp => ?_⟩
  obtain ⟨a, ha, rfl⟩ := List.mem_map.mp (hlive.mem_iff.mpr hp)
  exact hinv.owned.procOf_ne_null ha

/-- The ring is in order, and so are the stack pages. -/
def StackInv (n0 p0 : Addr) (s : Sched) : Prop := SchedInv n0 p0 s ∧ s.k.Stacks s.live

/-- The first process gets the first stack page. -/
theorem Started.sysExec_stacks (h : k.Started) {rip : Nat} {name : CString}
    (hexec : k.sysExec rip name = some (p0, k')) :
    ∃ page, TakesStack k p0 page k' ∧ page ∈ TPE.stackPages ∧ k'.Stacks [p0] := by
  have hzero : 0 < maxProcesses := by decide
  obtain ⟨page, htakes⟩ := Kernel.sysExec_stacks hexec (h.stackIndex ▸ hzero)
  obtain ⟨hpage, -, hstacks⟩ := h.stacks.takes htakes List.not_mem_nil hzero
  exact ⟨page, htakes, hpage, hstacks⟩

theorem stackInv_of_init {s : Sched} (h : (stackSystem n0 p0).init s) : StackInv n0 p0 s := by
  obtain ⟨k, rip, name, hstart, hexec, hcur, hpid, hlive⟩ := h
  obtain ⟨page, -, -, hstacks⟩ := hstart.sysExec_stacks hexec
  have hring : (ringSystem n0 p0).init s := ⟨k, rip, name, hstart.toBooted, hexec, hcur, hpid, hlive⟩
  exact ⟨schedInv_of_reach (.start hring), hlive ▸ hstacks⟩

namespace StackInv

variable {s : Sched}

theorem ready (h : StackInv n0 p0 s) : s.k.Dispatchable n0 := by
  obtain ⟨⟨pre, suf, hinv, -⟩, -⟩ := h
  exact hinv.ready

theorem nodup_live (h : StackInv n0 p0 s) : s.live.Nodup := by
  obtain ⟨⟨pre, suf, hinv, hlive⟩, -⟩ := h
  exact hlive.nodup_iff.mp hinv.owned.nodup_procs

/-- The process that `sys_exec` creates gets a stack page of its own. -/
theorem exec (h : StackInv n0 p0 s) {rip : Nat} {name : CString}
    (hd : s.k.sysExec rip name = some (p, k')) :
    p ∉ s.live ∧ s.live.length < maxProcesses ∧ ∃ page, TakesStack s.k p page k' ∧
      page ∈ stackPages ∧ page ∉ s.live.map s.k.stackPageOf ∧ k'.Stacks (p :: s.live) := by
  obtain ⟨⟨pre, suf, hinv, hlive⟩, hstacks⟩ := h
  obtain ⟨-, hp, -⟩ := hinv.sysExec_spec hd
  have hfresh : p ∉ s.live := fun hm => hp (hlive.mem_iff.mpr hm)
  have hlt : s.live.length < maxProcesses := by
    obtain ⟨⟨q, k₁⟩, hcreate, -⟩ := Option.bind_eq_some_iff.mp hd
    obtain ⟨pages, -, -, hget, -⟩ := createProcess_eq hcreate
    have hlen := hinv.length_lt hget
    rwa [← List.length_map (f := s.k.procOf), hlive.length_eq] at hlen
  obtain ⟨page, htakes⟩ := sysExec_stacks hd (hstacks.index_eq ▸ hlt)
  obtain ⟨hmem, hown, hnew⟩ := hstacks.takes htakes hfresh hlt
  exact ⟨hfresh, hlt, page, htakes, hmem, hown, hnew⟩

/-- The process that creates another one goes on. -/
theorem exec_current (h : StackInv n0 p0 s) {rip : Nat} {name : CString}
    (hd : s.k.sysExec rip name = some (p, k')) : k'.getCurrentProcess = s.k.getCurrentProcess := by
  obtain ⟨⟨pre, suf, hinv, -⟩, -⟩ := h
  obtain ⟨hcur, -, a, hproc, ha, -⟩ := hinv.sysExec_spec hd
  have hne : s.k.current ≠ a := by
    rintro rfl
    exact ha hinv.current_mem
  show k'.procOf k'.current = s.k.procOf s.k.current
  rw [hproc, hcur, update_of_ne hne]

/-- A tick or a yield. -/
theorem nextProcess {k : Kernel} {d : Dispatch} (h : StackInv n0 p0 ⟨k, live⟩)
    (hd : k.nextProcess fuel rsp = some d) :
    (d.destroyed ++ live.diff d.destroyed).Perm live ∧
      StackInv n0 p0 ⟨d.k, live.diff d.destroyed⟩ := by
  obtain ⟨⟨pre, suf, hinv, hlive⟩, hstacks⟩ := h
  have hperm := perm_diff_of_subperm (hinv.nextProcess_subperm hlive hd)
  refine ⟨hperm, schedInv_nextProcess hinv hlive hd, ?_⟩
  rcases nextProcess_stacks hinv.current_ne_null hinv.unlocked hd with rfl | ⟨-, hr⟩
  · exact hstacks.reap (reaped_unassignQuantum k) hperm
  · obtain ⟨hpage, -, hindex, hfree⟩ :=
      departed_stacks rsp (hinv.owned.procOf_ne_null hinv.current_mem)
    have hdeparted : (k.departed rsp).Stacks live := by
      refine ⟨?_, hindex ▸ hstacks.index⟩
      rw [hfree, hpage]
      exact hstacks.pool
    exact hdeparted.reap hr hperm

/-- Which stack pointer `next_process` returns: that of the process it chose, after
the running process got the stack pointer `rsp`. -/
theorem nextProcess_rsp {k : Kernel} {d : Dispatch} (h : StackInv n0 p0 ⟨k, live⟩)
    (hd : k.nextProcess fuel rsp = some d) :
    d.k.stackPageOf = k.stackPageOf ∧
    d.rsp = update k.rspOf k.getCurrentProcess rsp d.k.getCurrentProcess ∧
    ∀ p, p ≠ d.k.getCurrentProcess → d.k.rspOf p = update k.rspOf k.getCurrentProcess rsp p := by
  have hnew := (h.nextProcess hd).2
  obtain ⟨⟨pre, suf, hinv, -⟩, -⟩ := h
  rcases nextProcess_stacks hinv.current_ne_null hinv.unlocked hd with rfl | ⟨hrsp, hr⟩
  · have hsame : k.unassignQuantum.getCurrentProcess = k.getCurrentProcess :=
      congrFun k.procOf_unassignQuantum k.current
    refine ⟨rfl, ?_, fun p hp => ?_⟩
    · show rsp = update k.rspOf k.getCurrentProcess rsp k.unassignQuantum.getCurrentProcess
      rw [hsame, update_self]
    · change p ≠ k.unassignQuantum.getCurrentProcess at hp
      rw [hsame] at hp
      rw [update_of_ne hp]
      rfl
  · obtain ⟨hpage, hsaved, -, -⟩ :=
      departed_stacks rsp (hinv.owned.procOf_ne_null hinv.current_mem)
    have hall : d.k.rspOf = update k.rspOf k.getCurrentProcess rsp := hr.rspOf.trans hsaved
    refine ⟨hr.stackPageOf.trans hpage, ?_, fun p _ => congrFun hall p⟩
    obtain ⟨hmem, hnull⟩ := hnew.1.running_mem
    rw [hrsp, getRspProcess, if_pos (hnull _ hmem)]
    exact congrFun hall _

theorem yieldQuantum {k : Kernel} (h : StackInv n0 p0 ⟨k, live⟩) :
    StackInv n0 p0 ⟨k.yieldQuantum, live⟩ := by
  obtain ⟨⟨pre, suf, hinv, hlive⟩, hstacks⟩ := h
  obtain ⟨-, hproc, hyield⟩ := hinv.yieldQuantum
  have hlive' : ((pre ++ k.yieldQuantum.current :: suf).map k.yieldQuantum.procOf).Perm live := by
    rw [hproc]
    exact hlive
  exact ⟨⟨pre, suf, hyield, hlive'⟩, hstacks.reap (reaped_yieldQuantum k) (.refl live)⟩

theorem endProcess (h : StackInv n0 p0 s) (hne : s.k.procOf s.k.current ≠ p0)
    (hd : s.k.endProcess fuel = some (ps, k')) :
    (ps ++ s.live.diff ps).Perm s.live ∧ StackInv n0 p0 ⟨k', s.live.diff ps⟩ := by
  have hsched := h.1.finish hne hd
  obtain ⟨⟨pre, suf, hinv, hlive⟩, hstacks⟩ := h
  have hcur : s.k.current ≠ n0 := fun he => hne (he ▸ hinv.init)
  have hperm := perm_diff_of_subperm (hinv.endProcess_subperm hcur hlive hd)
  have hreaped := reaped_endProcess (hinv.owned.procOf_ne_null hinv.current_mem) hd
  exact ⟨hperm, hsched, hstacks.reap hreaped hperm⟩

theorem applyStatus (h : StackInv n0 p0 s) {call : StatusCall} {q : Addr}
    (hready : (s.k.applyStatus call q).Dispatchable n0) :
    StackInv n0 p0 ⟨s.k.applyStatus call q, s.live⟩ :=
  ⟨h.1.status hready, h.2.reap (reaped_applyStatus s.k call q) (.refl s.live)⟩

/-- Every step keeps the ring and the stack pages. -/
theorem next {t : Sched} {a : RingAction} (h : StackInv n0 p0 s)
    (hn : (stackSystem n0 p0).next s a = some t) : StackInv n0 p0 t := by
  cases a with
  | exec rip name =>
      obtain ⟨⟨p, k⟩, hd, rfl⟩ := Option.map_eq_some_iff.mp hn
      obtain ⟨-, -, page, -, -, -, hstacks⟩ := h.exec hd
      exact ⟨h.1.exec hd, hstacks⟩
  | tick fuel rsp =>
      obtain ⟨d, hd, rfl⟩ := Option.map_eq_some_iff.mp hn
      exact (h.nextProcess hd).2
  | yield fuel rsp =>
      obtain ⟨d, hd, rfl⟩ := Option.map_eq_some_iff.mp hn
      exact (h.yieldQuantum.nextProcess hd).2
  | finish fuel =>
      simp only [stackSystem, ringSystem] at hn
      split at hn
      next hne =>
        obtain ⟨⟨ps, k⟩, hd, rfl⟩ := Option.map_eq_some_iff.mp hn
        exact (h.endProcess hne hd).2
      next => cases hn
  | status call p =>
      simp only [stackSystem, ringSystem] at hn
      split at hn
      next hready =>
        cases hn
        exact h.applyStatus hready
      next => cases hn

end StackInv

theorem stackInv_of_reach {s : Sched} (h : (stackSystem n0 p0).Reach s) : StackInv n0 p0 s :=
  h.invariant (fun _ => stackInv_of_init) fun _ _ _ hi _ hn => hi.next hn

/-- The stack pages of a state: nothing is lost, no stack is shared, and a
process that is created gets a stack. -/
structure StacksOk (s : Sched) : Prop where
  conserved : Pool.Conserves stackPages ⟨s.k.freeStackPages, s.live.map s.k.stackPageOf⟩
  private_stack : ∀ p ∈ s.live, ∀ q ∈ s.live, s.k.stackPageOf p = s.k.stackPageOf q → p = q
  exec : ∀ rip name p k', s.k.sysExec rip name = some (p, k') →
    k'.stackPageOf p ∈ stackPages ∧ k'.stackPageOf p ∉ s.live.map s.k.stackPageOf

/-- In every state any run reaches, every process has a stack page to itself, and
`create_process` never goes without one. -/
theorem stack_pages {s : Sched} (h : (stackSystem n0 p0).Reach s) : StacksOk s := by
  have hinv := stackInv_of_reach h
  refine ⟨hinv.2.pool, fun p hp q hq => hinv.2.inj hp hq, fun rip name p k' hd => ?_⟩
  obtain ⟨-, -, page, htakes, hmem, hown, -⟩ := hinv.exec hd
  have hpage : k'.stackPageOf p = page := by rw [htakes.stackPageOf, update_self]
  rw [hpage]
  exact ⟨hmem, hown⟩

/-- The kernel with all pages free. -/
def startKernel : Kernel := bootKernel.initializeStackMemoryAllocator

theorem started_startKernel : startKernel.Started :=
  ⟨⟨rfl, PageStack.initial_pagesOk⟩, rfl, fun _ hi => if_pos hi⟩

/-- The entry point of the first process. -/
def initEntry : BitVec 64 := 0x400000

theorem sysExec_startKernel : (startKernel.sysExec initEntry.toNat .nil).isSome := by
  decide +kernel

/-- The first process and the kernel after it was created. -/
def firstStarted : Addr × Kernel :=
  (startKernel.sysExec initEntry.toNat .nil).get sysExec_startKernel

/-- The scheduler of `firstStarted`. -/
abbrev firstStacks : System Sched RingAction := stackSystem firstStarted.2.current firstStarted.1

theorem init_firstStacks : firstStacks.init ⟨firstStarted.2, [firstStarted.1]⟩ :=
  ⟨startKernel, initEntry.toNat, .nil, started_startKernel,
    (Option.some_get sysExec_startKernel).symm, rfl, by decide +kernel, rfl⟩

/-- The first process creates two, of which the second is killed, and yields. -/
def stackReaped : Option Sched :=
  firstStacks.execute ⟨firstStarted.2, [firstStarted.1]⟩
    [.exec 0 .nil, .exec 0 .nil, .status .kill (pageAddr 5), .yield 2 0]

/-- The stack of a process that was killed and passed over is free again. -/
theorem stack_pages_reaped : StacksOk (stackReaped.get (by decide +kernel)) :=
  stack_pages ((System.Reach.start init_firstStacks).execute (Option.some_get _).symm)

end Kernel

end TPE
