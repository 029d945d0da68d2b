import TPE.Kernel.WaiterPages

/-!
# The statements of processes that wait

What each statement does to the queues, the list of sleeping processes, the
processes and the pages, and that it keeps the entries those of processes that
wait.  A step that leaves out a page it does not give back is no exception: the
page stays in use for nothing.
-/

namespace TPE

open Function

namespace Kernel

variable {k k' : Kernel} {s : WaitRun} {use : Addr → Option PageUse} {l : List Addr}
  {w : QueuePlace} {a e p q : Addr}

namespace WaitInv

/-! ## Changes elsewhere -/

/-- The kernel changes outside the structures, and no status changes. -/
theorem same (h : WaitInv use l s) (hs : SameWaits s.k k') (ha : SameAccounts s.k k')
    (hst : ∀ p, (k'.processes p).st = (s.k.processes p).st) : WaitInv use l { s with k := k' } := by
  refine h.frame hs (h.accounted.congr ha) (fun _ hp => hp) fun p hp _ halive => ⟨hp, ?_, ?_⟩
  · rwa [hst]
  · rw [hst]
    exact id

/-- Only processes change, and who waits goes on to wait. -/
theorem statuses (h : WaitInv use l s) {procs : Procs} (fg : Addr)
    (ha : SameAccounts s.k { s.k with processes := procs, foreground := fg })
    (hkeep : ∀ p, (∃ w e, (s.tickets l).Pending w e ∧ s.k.owner w e = p) →
      (s.k.processes p).st ≠ .delete →
        (procs p).st ≠ .delete ∧ ((s.k.processes p).st = .blocked → (procs p).st = .blocked)) :
    WaitInv use l { s with k := { s.k with processes := procs, foreground := fg } } :=
  h.frame ⟨rfl, rfl, fun _ => rfl, rfl, rfl, rfl⟩ (h.accounted.congr ha) (fun _ hp => hp)
    fun p hp hown halive => ⟨hp, hkeep p hown halive⟩

/-- A process whose status changes is not one that waits. -/
theorem status (h : WaitInv use l s) (call : StatusCall) (p : Addr)
    (hp : ∀ w e, (s.tickets l).Pending w e → s.k.owner w e ≠ p) :
    WaitInv use l { s with k := s.k.applyStatus call p } := by
  refine h.statuses s.k.foreground (.applyStatus s.k call p) ?_
  rintro q ⟨w, e, hpending, rfl⟩ halive
  obtain ⟨st, he, -⟩ := call.apply_eq s.k.processes p
  have hother : call.apply s.k.processes p (s.k.owner w e) = s.k.processes (s.k.owner w e) := by
    rw [he, Procs.setSt_of_ne (hp w e hpending)]
  rw [hother]
  exact ⟨halive, id⟩

/-- Processes that waited for the foreground go on. -/
theorem mayUnblock (h : WaitInv use l s) {procs : Procs} {fg : Addr}
    (hm : s.k.processes.MayUnblock procs) :
    WaitInv use l { s with k := { s.k with processes := procs, foreground := fg } } := by
  refine h.statuses fg ⟨rfl, rfl, rfl, hm.pid_eq, hm.dataPage_eq⟩ fun p _ halive => ?_
  rcases hm p with hp | ⟨hst, hp⟩
  · rw [hp]
    exact ⟨halive, id⟩
  · rw [hp, hst]
    exact ⟨by simp, by simp⟩

/-- A process in `sys_read` goes on. -/
theorem unblockRead (h : WaitInv use l s) (p : Addr) :
    WaitInv use l { s with k := s.k.applyStatus .unblockRead p } := by
  refine h.statuses s.k.foreground (.applyStatus s.k .unblockRead p) fun q _ halive => ?_
  show (s.k.processes.unblockReadProcess p q).st ≠ _ ∧
    (_ → (s.k.processes.unblockReadProcess p q).st = _)
  unfold Procs.unblockReadProcess
  split
  next hst =>
    by_cases hq : q = p
    · subst hq
      refine ⟨fun hdel => halive (Procs.unblockProcess_delete_iff.mp hdel), fun hb => ?_⟩
      rw [hst] at hb
      cases hb
    · rw [Procs.unblockProcess_of_ne hq]
      exact ⟨halive, id⟩
  next => exact ⟨halive, id⟩

/-! ## Queues -/

/-- What the running process puts into a queue refers to the running process. -/
theorem owner_entry (h : WaitInv use l s) (hrun : s.Running) (he : s.entry w = some e) :
    s.k.owner (.queue w) e = s.cur := by
  cases w with
  | fifo key => exact (h.locals.request s.cur hrun e he).2
  | _ => exact (Option.some.inj he).symm

/-- The running process queues its entry. -/
theorem enqueue (h : WaitInv use l s) (hw : s.built w) (hrun : s.Running)
    (halive : (s.k.processes s.cur).st ≠ .delete) (hstage : s.stage s.cur = .out)
    (he : s.entry w = some e) (henq : s.k.enqueue (s.k.header w) e = some k') :
    ∃ use', WaitInv use' l
      { s with k := k', stage := update s.stage s.cur (.registered (.queue w, e)) } := by
  obtain ⟨page, pages, hpages, rfl⟩ :=
    enqueue_spec (h.accounted.ne_null (h.places.header w hw)) henq
  have hget : s.k.getPage = some (page, { s.k with pages }) := by
    rw [Kernel.getPage, hpages]
    rfl
  obtain ⟨hnone, -, h'⟩ := h.getPage hget (.node w)
  have hleft : s.left l (.queue w) = s.k.elems (s.k.header w) := if_pos hw
  have hnew : ((s.k.queues (s.k.header w) ++ [QueueNode.mk page e]).map QueueNode.elem).Perm
      (e :: s.left l (.queue w)) := by
    rw [List.map_append, hleft]
    exact List.perm_append_singleton e _
  have ht := h.tickets.register hrun halive hstage (h.owner_entry hrun he) hnew
  refine ⟨_, h'.setQueue hw (fun n hn => ?_) ?_ _ s.hands (fun p hp key r hr => ?_)
    h.locals.hands ht⟩
  · rcases List.mem_append.mp hn with hold | hnew
    · exact h'.places.node w hw n hold
    · rw [List.mem_singleton.mp hnew]
      exact update_self _ _ _
  · rw [List.map_append]
    refine List.nodup_append.mpr ⟨h.places.nodup w hw, List.nodup_singleton _, ?_⟩
    intro a ha b hb hab
    obtain ⟨n, hn, rfl⟩ := List.mem_map.mp ha
    have hpage : n.page = page := hab.trans (List.mem_singleton.mp hb)
    have huse := h.places.node w hw n hn
    rw [hpage, hnone] at huse
    cases huse
  · by_cases hp' : p = s.cur
    · subst hp'
      rw [update_self] at hr
      cases hr
      exact he
    · rw [update_of_ne hp'] at hr
      exact h.locals.entry p hp key r hr

/-- The first node of a queue is taken out. -/
theorem unlinkFirst (h : WaitInv use l s) (hw : s.built w) {f : QueueNode}
    {rest : List QueueNode} (hq : s.k.queues (s.k.header w) = f :: rest)
    (hands : Addr → List (WaitPlace × Addr))
    (hhands : ∀ p ∈ s.live, ∀ x ∈ hands p, ∃ w, x.1 = .queue w)
    (ht : Tickets.Inv { s.tickets l with
      left := update (s.left l) (.queue w) (rest.map QueueNode.elem), hands }) :
    WaitInv (update use f.page none) l { s with
      k := { s.k with
        queues := update s.k.queues (s.k.header w) rest
        pages := s.k.pages.storePage f.page }
      hands } := by
  have hnode := h.places.node w hw
  have hnodup := h.places.nodup w hw
  rw [hq, List.map_cons, List.nodup_cons] at hnodup
  rw [hq] at hnode
  have h' := h.setQueue hw (fun n hn => hnode n (List.mem_cons_of_mem _ hn)) hnodup.2 s.stage
    hands h.locals.entry hhands ht
  have huse := hnode f List.mem_cons_self
  refine h'.storePage huse (h'.unused huse nofun nofun ?_ nofun nofun)
  rintro v hv hbuilt n hn hpage
  cases hv
  have hn' : n ∈ update s.k.queues (s.k.header w) rest (s.k.header w) := hn
  rw [update_self] at hn'
  exact hnodup.1 (hpage ▸ List.mem_map_of_mem hn')

/-- The entries of a queue, first to last. -/
theorem left_cons (hw : s.built w) {f : QueueNode} {rest : List QueueNode}
    (hq : s.k.queues (s.k.header w) = f :: rest) :
    (s.tickets l).left (.queue w) = f.elem :: rest.map QueueNode.elem := by
  show (if s.built w then s.k.elems (s.k.header w) else []) = _
  rw [if_pos hw, elems, hq, List.map_cons]

/-- The running process takes an entry. -/
theorem dequeue (h : WaitInv use l s) (hw : s.built w) (hrun : s.Running)
    (hne : ¬s.k.isEmpty (s.k.header w)) (hd : s.k.dequeue (s.k.header w) = some (e, k')) :
    ∃ use', WaitInv use' l
      { s with k := k', hands := update s.hands s.cur ((.queue w, e) :: s.hands s.cur) } := by
  rw [isEmpty, not_or] at hne
  obtain ⟨f, rest, hq⟩ := List.exists_cons_of_ne_nil hne.2
  obtain ⟨rfl, rfl⟩ := dequeue_cons hne.1 hq hd
  have ht := h.tickets.take hrun (left_cons hw hq)
  refine ⟨_, h.unlinkFirst hw hq _ (fun p hp x hx => ?_) ht⟩
  by_cases hp' : p = s.cur
  · subst hp'
    rw [update_self, List.mem_cons] at hx
    rcases hx with rfl | hx
    · exact ⟨w, rfl⟩
    · exact h.locals.hands _ hp x hx
  · rw [update_of_ne hp'] at hx
    exact h.locals.hands p hp x hx

/-- The loop of `destroy_queue` throws the entries away. -/
theorem emptyQueue (h : WaitInv use l s) (hw : s.built w) {fuel : Nat}
    (he : emptyQueue fuel s.k (s.k.header w) = some k') :
    ∃ use', WaitInv use' l { s with k := k' } ∧ k'.header = s.k.header := by
  induction fuel generalizing s use with
  | zero => cases he
  | succ fuel ih =>
      rw [Kernel.emptyQueue] at he
      split at he
      next =>
        cases he
        exact ⟨use, h, rfl⟩
      next hne =>
        obtain ⟨⟨e, k₁⟩, hd, he⟩ := Option.bind_eq_some_iff.mp he
        rw [isEmpty, not_or] at hne
        obtain ⟨f, rest, hq⟩ := List.exists_cons_of_ne_nil hne.2
        obtain ⟨rfl, rfl⟩ := dequeue_cons hne.1 hq hd
        have hcons : s.left l (.queue w) = f.elem :: rest.map QueueNode.elem :=
          left_cons (l := l) hw hq
        have hleft : ∀ v, (update (s.left l) (.queue w) (rest.map QueueNode.elem) v).Sublist
            (s.left l v) := by
          intro v
          by_cases hv : v = .queue w
          · subst hv
            rw [update_self, hcons]
            exact List.sublist_cons_self _ _
          · rw [update_of_ne hv]
        have ht : Tickets.Inv { s.tickets l with
            left := update (s.left l) (.queue w) (rest.map QueueNode.elem) } :=
          h.tickets.fewer ⟨hleft, fun _ _ => List.Sublist.refl _, fun _ hq _ => hq⟩
            fun _ _ _ haw => ⟨haw.live, haw.notDoomed, haw.stage⟩
        have h' := h.unlinkFirst hw hq s.hands h.locals.hands ht
        exact ih (s := { s with k := { s.k with
          queues := update s.k.queues (s.k.header w) rest
          pages := s.k.pages.storePage f.page } }) h' hw he

/-- Queues are not built any more. -/
theorem unbuild (h : WaitInv use l s) (built : QueuePlace → Bool)
    (hsub : ∀ v, built v → s.built v) : WaitInv use l { s with built } := by
  have hp := h.places
  refine ⟨h.accounted, h.held, h.nodupHeld, ⟨fun v hv => hp.header v (hsub v hv),
    fun v hv => hp.node v (hsub v hv), fun v hv => hp.nodup v (hsub v hv), hp.walk, hp.sleeper⟩,
    ⟨h.locals.request, h.locals.sleepNode, h.locals.entry, h.locals.hands⟩, ?_⟩
  refine h.tickets.fewer ⟨fun v => ?_, fun _ _ => List.Sublist.refl _, fun _ hq _ => hq⟩
    fun _ _ _ haw => ⟨haw.live, haw.notDoomed, haw.stage⟩
  cases v with
  | sleeping => exact List.Sublist.refl l
  | queue v =>
      show (if built v then s.k.elems (s.k.header v) else []).Sublist
        (if s.built v then s.k.elems (s.k.header v) else [])
      by_cases hv : built v
      · rw [if_pos hv, if_pos (hsub v hv)]
      · rw [if_neg hv]
        exact List.nil_sublist _

/-- `destroy_queue` -/
theorem destroyQueue (h : WaitInv use l s) (hw : s.built w)
    (hd : s.k.destroyQueue (s.k.header w) = some k') :
    ∃ use', WaitInv use' l { s with k := k', built := update s.built w false } := by
  obtain ⟨k₁, he, hd⟩ := Option.bind_eq_some_iff.mp hd
  obtain ⟨use', h', hheader⟩ := h.emptyQueue hw he
  split at hd
  next =>
    cases hd
    have hsub : ∀ v, update s.built w false v → v ≠ w ∧ s.built v := by
      intro v hv
      by_cases hvw : v = w
      · subst hvw
        simp at hv
      · rw [update_of_ne hvw] at hv
        exact ⟨hvw, hv⟩
    have huse := h'.places.header w hw
    rw [show k₁.header w = s.k.header w from congrFun hheader w] at huse
    have h'' := h'.unbuild (update s.built w false) fun v hv => (hsub v hv).2
    refine ⟨_, h''.storePage huse (h''.unused huse nofun ?_ nofun nofun nofun)⟩
    rintro v hv hbuilt -
    cases hv
    exact (hsub _ hbuilt).1 rfl
  next => cases hd

end WaitInv

/-! ## New queues -/

/-- The place `w` gets a new queue, whose header is on the page `q`. -/
structure Opened (k k' : Kernel) (w : QueuePlace) (q : Addr) : Prop where
  accounts : ∃ pages, k.pages.getPage = some (q, pages) ∧ SameAccounts { k with pages } k'
  st : ∀ p, (k'.processes p).st = (k.processes p).st
  header : k'.header = update k.header w q
  queues : k'.queues = update k.queues q []
  reader : ∀ r, (k'.readRequests r).readerP = (k.readRequests r).readerP
  sleeper : k'.sleeper = k.sleeper
  sleepNext : k'.sleepNext = k.sleepNext
  first : k'.sleepingProcesses = k.sleepingProcesses

/-- `create_new_mutex` -/
theorem opened_mutexOpen {name : CString} {i : Nat} (hs : k.mutexSearch name = .closed i) {r : Int}
    (h : k.mutexOpen name = some (r, k')) : ∃ q, Opened k k' (.mutex i) q := by
  obtain ⟨-, q, pages, hpages, rfl⟩ := mutexOpen_spec hs h
  refine ⟨q, ⟨pages, hpages, .of_processes rfl rfl rfl rfl⟩, fun _ => rfl, ?_, rfl, fun _ => rfl,
    rfl, rfl, rfl⟩
  funext v
  cases v with
  | mutex key =>
      show (update k.openMutexes i _ key).processQueue = _
      by_cases hkey : key = i
      · subst hkey
        rw [update_self, update_self]
      · rw [update_of_ne hkey, update_of_ne (by simpa using hkey)]
        rfl
  | _ => exact (update_of_ne (by simp) _ _).symm

/-- `create_new_cond`, behind the opening of its mutex. -/
theorem opened_writeCond {k₁ : Kernel} (h : k.createQueue = some (q, k₁)) (key : Int)
    {v : CondVariable} (hv : v.processQueue = q) :
    Opened k (k₁.writeCond key fun _ => v) (.cond key) q := by
  obtain ⟨pages, hpages, rfl⟩ := createQueue_spec h
  refine ⟨⟨pages, hpages, .of_processes rfl rfl rfl rfl⟩, fun _ => rfl, ?_, rfl, fun _ => rfl,
    rfl, rfl, rfl⟩
  funext u
  cases u with
  | cond key' =>
      show (update k.openConds key v key').processQueue = _
      by_cases hkey : key' = key
      · subst hkey
        rw [update_self, update_self, hv]
      · rw [update_of_ne hkey, update_of_ne (by simpa using hkey)]
        rfl
  | _ => exact (update_of_ne (by simp) _ _).symm

/-- `create_new_fifo`, behind the opening of its mutex. -/
theorem opened_writeFifo {k₁ : Kernel} (h : k.createQueue = some (q, k₁)) (key : Int)
    {f : Fifo} (hf : f.readQueue = q) :
    Opened k (k₁.writeFifo key fun _ => f) (.fifo key) q := by
  obtain ⟨pages, hpages, rfl⟩ := createQueue_spec h
  refine ⟨⟨pages, hpages, .of_processes rfl rfl rfl rfl⟩, fun _ => rfl, ?_, rfl, fun _ => rfl,
    rfl, rfl, rfl⟩
  funext u
  cases u with
  | fifo key' =>
      show (update k.openFifos key f key').readQueue = _
      by_cases hkey : key' = key
      · subst hkey
        rw [update_self, update_self, hf]
      · rw [update_of_ne hkey, update_of_ne (by simpa using hkey)]
        rfl
  | _ => exact (update_of_ne (by simp) _ _).symm

namespace WaitInv

/-- A place gets a new queue.  What is left in an old one stays in use for nothing. -/
theorem openPlace (h : WaitInv use l s) (ho : Opened s.k k' w q) :
    ∃ use', WaitInv use' l { s with k := k', built := update s.built w true } := by
  obtain ⟨⟨pages, hpages, haccounts⟩, hst, hheader, hqueues, hreader, hsleeper, hnext, hfirst⟩ := ho
  have hget : s.k.getPage = some (q, { s.k with pages }) := by
    rw [Kernel.getPage, hpages]
    rfl
  obtain ⟨hnone, -, h'⟩ := h.getPage hget (.header w)
  have hself : k'.header w = q := by
    rw [hheader, update_self]
  have hold : ∀ v, update s.built w true v → v ≠ w → s.built v ∧ k'.header v = s.k.header v ∧
      k'.queues (k'.header v) = s.k.queues (s.k.header v) := by
    intro v hv hvw
    rw [update_of_ne hvw] at hv
    have hsame : k'.header v = s.k.header v := by
      rw [hheader, update_of_ne hvw]
    refine ⟨hv, hsame, ?_⟩
    rw [hsame, hqueues, update_of_ne]
    intro he
    have huse := h.places.header v hv
    rw [he, hnone] at huse
    cases huse
  have hempty : k'.queues (k'.header w) = [] := by
    rw [hself, hqueues, update_self]
  have hp := h'.places
  refine ⟨_, h'.accounted.congr haccounts, h'.held, h.nodupHeld, ⟨fun v hv => ?_, fun v hv n hn => ?_,
    fun v hv => ?_, ?_, hp.sleeper⟩, ⟨fun p hp r hr => ?_, fun p hp a ha => ?_, h.locals.entry,
    h.locals.hands⟩, ?_⟩
  · by_cases hvw : v = w
    · subst hvw
      show update use q _ (k'.header v) = _
      rw [hself, update_self]
    · obtain ⟨hbuilt, he, -⟩ := hold v hv hvw
      show update use q _ (k'.header v) = _
      rw [he]
      exact hp.header v hbuilt
  · have hn' : n ∈ k'.queues (k'.header v) := hn
    by_cases hvw : v = w
    · subst hvw
      rw [hempty] at hn'
      cases hn'
    · obtain ⟨hbuilt, -, he⟩ := hold v hv hvw
      rw [he] at hn'
      exact hp.node v hbuilt n hn'
  · show ((k'.queues (k'.header v)).map QueueNode.page).Nodup
    by_cases hvw : v = w
    · subst hvw
      rw [hempty]
      exact List.nodup_nil
    · obtain ⟨hbuilt, -, he⟩ := hold v hv hvw
      rw [he]
      exact hp.nodup v hbuilt
  · show Walk k'.sleepNext k'.sleepingProcesses l null
    rw [hnext, hfirst]
    exact hp.walk
  · show _ ∧ (k'.readRequests r).readerP = p
    rw [hreader]
    exact h'.locals.request p hp r hr
  · show _ ∧ k'.sleeper a = p ∧ _
    rw [hsleeper]
    exact h'.locals.sleepNode p hp a ha
  · have hleft : ∀ v, (WaitRun.left { s with k := k', built := update s.built w true } l v).Sublist
        (s.left l v) := by
      intro v
      cases v with
      | sleeping => exact List.Sublist.refl l
      | queue v =>
          show (if update s.built w true v then k'.elems (k'.header v) else []).Sublist
            (if s.built v then s.k.elems (s.k.header v) else [])
          by_cases hv : update s.built w true v
          · rw [if_pos hv]
            by_cases hvw : v = w
            · subst hvw
              rw [elems, hempty]
              exact List.nil_sublist _
            · obtain ⟨hbuilt, -, he⟩ := hold v hv hvw
              rw [if_pos hbuilt, elems, he]
              exact List.Sublist.refl _
          · rw [if_neg hv]
            exact List.nil_sublist _
    refine h.tickets.fewer ⟨hleft, fun _ _ => List.Sublist.refl _, fun _ hq _ => hq⟩
      fun v t _ haw => ?_
    have howner : k'.owner = s.k.owner := owner_congr hreader hsleeper
    constructor
    · show k'.owner v t ∈ s.live
      rw [howner]
      exact haw.live
    · show (k'.processes (k'.owner v t)).st ≠ .delete
      rw [hst, howner]
      exact haw.notDoomed
    · show s.stage (k'.owner v t) = _ ∨ s.stage (k'.owner v t) = _ ∧
        (k'.processes (k'.owner v t)).st = .blocked
      rw [hst, howner]
      exact haw.stage

/-- `mutex_open` -/
theorem mutexOpen (h : WaitInv use l s) {name : CString} {r : Int}
    (hopen : s.k.mutexOpen name = some (r, k')) :
    ∃ use', WaitInv use' l { s with k := k', built := s.builtMutex name } := by
  unfold WaitRun.builtMutex
  cases hs : s.k.mutexSearch name with
  | closed i =>
      obtain ⟨q, ho⟩ := opened_mutexOpen hs hopen
      exact h.openPlace ho
  | _ =>
      unfold Kernel.mutexOpen at hopen
      rw [hs] at hopen
      cases hopen
      exact ⟨use, h⟩

/-- `create_new_cond` -/
theorem createNewCond (h : WaitInv use l s) {i : Nat} {name : CString}
    (hc : s.k.createNewCond i name = some k') :
    ∃ use', WaitInv use' l
      { s with k := k', built := update (s.builtMutex (condLockName i)) (.cond i) true } := by
  obtain ⟨⟨lock, k₁⟩, hopen, hc⟩ := Option.bind_eq_some_iff.mp hc
  obtain ⟨⟨q, k₂⟩, hq, he⟩ := Option.map_eq_some_iff.mp hc
  cases he
  obtain ⟨use₁, h₁⟩ := h.mutexOpen hopen
  exact h₁.openPlace (opened_writeCond hq i rfl)

/-- `set_file_open` -/
theorem setFileOpen (h : WaitInv use l s) (p : Addr) (fd : Int) :
    WaitInv use l { s with k := s.k.setFileOpen p fd } := by
  unfold Kernel.setFileOpen
  split
  · exact h
  · refine h.same ⟨rfl, rfl, fun _ => rfl, rfl, rfl, rfl⟩
      ⟨rfl, rfl, rfl, fun q => ?_, fun q => ?_⟩ fun q => ?_
    all_goals
      by_cases hq : q = p
      · subst hq
        simp [writeProcess]
      · simp [writeProcess, hq]

/-- `fifo_open` -/
theorem fifoOpen (h : WaitInv use l s) {name : CString} {r : Int}
    (hopen : s.k.fifoOpen name = some (r, k')) :
    ∃ use', WaitInv use' l (match s.k.fifoSearch name with
      | .closed i => { s with k := k', built := update (s.builtMutex name) (.fifo i) true }
      | _ => { s with k := k' }) := by
  unfold Kernel.fifoOpen at hopen
  cases hs : s.k.fifoSearch name with
  | found i =>
      rw [hs] at hopen
      cases hopen
      exact ⟨use, h.setFileOpen _ _⟩
  | full =>
      rw [hs] at hopen
      cases hopen
      exact ⟨use, h⟩
  | closed i =>
      rw [hs] at hopen
      obtain ⟨⟨lock, k₁⟩, hm, hopen⟩ := Option.bind_eq_some_iff.mp hopen
      obtain ⟨⟨q, k₂⟩, hq, he⟩ := Option.map_eq_some_iff.mp hopen
      cases he
      obtain ⟨use₁, h₁⟩ := h.mutexOpen hm
      let f : Fifo := ⟨name, .create fun _ => 0, .opened, lock, q⟩
      obtain ⟨use₂, h₂⟩ := h₁.openPlace (opened_writeFifo hq i (show f.readQueue = q from rfl))
      exact ⟨use₂, h₂.setFileOpen _ _⟩

/-! ## Waiting and waking up -/

/-- `block_process` -/
theorem block (h : WaitInv use l s) (hrun : s.Running) {x : WaitPlace × Addr}
    (hstage : s.stage s.cur = .registered x) :
    WaitInv use l { s with
      k := { s.k with processes := Procs.blockProcess s.k.processes (s.k.owner x.1 x.2) }
      stage := update s.stage s.cur (.waiting x) } := by
  obtain ⟨procs, hprocs⟩ : ∃ procs, procs = s.k.processes.blockProcess (s.k.owner x.1 x.2) :=
    ⟨_, rfl⟩
  have hs : SameWaits s.k { s.k with processes := procs } := ⟨rfl, rfl, fun _ => rfl, rfl, rfl, rfl⟩
  have ha : SameAccounts s.k { s.k with processes := procs } :=
    hprocs ▸ .applyStatus s.k .block (s.k.owner x.1 x.2)
  have hdoomed : (fun p => (procs p).st = .delete) = (s.tickets l).doomed :=
    funext fun p => propext (hprocs ▸ Procs.blockProcess_delete_iff)
  have hmore : ∀ p, (s.tickets l).parked p → (procs p).st = .blocked := by
    intro p hp
    have hst : (s.k.processes p).st = .blocked := hp
    rw [hprocs]
    by_cases hown : p = s.k.owner x.1 x.2
    · subst hown
      unfold Procs.blockProcess
      split
      · exact Procs.setSt_st_self _ _ _
      · exact hst
    · rw [Procs.blockProcess_of_ne hown]
      exact hst
  rw [← hprocs]
  refine h.move hs (h.accounted.congr ha) (fun _ hp => hp) (fun p hp key r hr => ?_)
    h.locals.hands ?_
  · by_cases hcur : p = s.cur
    · subst hcur
      rw [update_self] at hr
      refine h.locals.entry _ hp key r ?_
      rw [hstage]
      exact hr
    · rw [update_of_ne hcur] at hr
      exact h.locals.entry p hp key r hr
  · rw [tickets_eq hs, hdoomed]
    refine h.tickets.park hstage hmore fun halive hown => ?_
    have hself : s.k.owner x.1 x.2 = s.cur := hown
    show (procs s.cur).st = .blocked
    rw [hprocs, hself]
    exact Procs.blockProcess_st_self (h.accounted.live_ne_null hrun) halive

/-- The running process is through its `yield_process`. -/
theorem resume (h : WaitInv use l s) {x : WaitPlace × Addr} (hstage : s.stage s.cur = .waiting x)
    (hgo : ¬s.k.processes.isBlockedProcess s.cur) :
    WaitInv use l { s with stage := update s.stage s.cur .out } := by
  have hparked : ¬(s.tickets l).parked s.cur := fun hst => hgo fun _ => Or.inl hst
  refine ⟨h.accounted, h.held, h.nodupHeld, h.places, ⟨h.locals.request, h.locals.sleepNode,
    fun p hp key r hr => ?_, h.locals.hands⟩, h.tickets.resume hstage hparked⟩
  by_cases hcur : p = s.cur
  · subst hcur
    have hr' : (update s.stage s.cur Stage.out s.cur).ticket = some (.queue (.fifo key), r) := hr
    rw [update_self] at hr'
    cases hr'
  · have hr' : (update s.stage s.cur Stage.out p).ticket = some (.queue (.fifo key), r) := hr
    rw [update_of_ne hcur] at hr'
    exact h.locals.entry p hp key r hr'

/-- A process has fewer entries in hand. -/
theorem hands_tail (h : WaitInv use l s) {x : WaitPlace × Addr} {rest : List (WaitPlace × Addr)}
    (hhands : s.hands s.cur = x :: rest) :
    ∀ p ∈ s.live, ∀ y ∈ update s.hands s.cur rest p, ∃ w, y.1 = .queue w := by
  intro p hp y hy
  by_cases hcur : p = s.cur
  · subst hcur
    rw [update_self] at hy
    exact h.locals.hands _ hp y (hhands ▸ List.mem_cons_of_mem _ hy)
  · rw [update_of_ne hcur] at hy
    exact h.locals.hands p hp y hy

/-- `unblock_process`, of the process in hand. -/
theorem wake (h : WaitInv use l s) (hrun : s.Running) {v : WaitPlace}
    {rest : List (WaitPlace × Addr)} (hhands : s.hands s.cur = (v, e) :: rest) :
    WaitInv use l { s with
      k := { s.k with processes := Procs.unblockProcess s.k.processes (s.k.owner v e) }
      hands := update s.hands s.cur rest } := by
  obtain ⟨procs, hprocs⟩ : ∃ procs, procs = s.k.processes.unblockProcess (s.k.owner v e) :=
    ⟨_, rfl⟩
  have hs : SameWaits s.k { s.k with processes := procs } := ⟨rfl, rfl, fun _ => rfl, rfl, rfl, rfl⟩
  have ha : SameAccounts s.k { s.k with processes := procs } :=
    hprocs ▸ .applyStatus s.k .unblock (s.k.owner v e)
  have hdoomed : (fun p => (procs p).st = .delete) = (s.tickets l).doomed :=
    funext fun p => propext (hprocs ▸ Procs.unblockProcess_delete_iff)
  rw [← hprocs]
  refine h.move hs (h.accounted.congr ha) (fun _ hp => hp) h.locals.entry (h.hands_tail hhands) ?_
  rw [tickets_eq hs, hdoomed]
  refine h.tickets.answer hrun hhands fun p hne hp => ?_
  show (procs p).st = .blocked
  rw [hprocs, Procs.unblockProcess_of_ne (show p ≠ s.k.owner v e from hne)]
  exact hp

/-- An entry in hand is thrown away. -/
theorem skip (h : WaitInv use l s) (hrun : s.Running) {v : WaitPlace}
    {rest : List (WaitPlace × Addr)} (hhands : s.hands s.cur = (v, e) :: rest) :
    WaitInv use l { s with hands := update s.hands s.cur rest } :=
  ⟨h.accounted, h.held, h.nodupHeld, h.places, ⟨h.locals.request, h.locals.sleepNode,
    h.locals.entry, h.hands_tail hhands⟩, h.tickets.answer hrun hhands fun _ _ hp => hp⟩

/-! ## Read requests -/

/-- An entry that refers to a page that was free before is no pending one. -/
theorem pending_ne (h : WaitInv use l s) (ha : use a = none) {v : WaitPlace} {t : Addr}
    (hv : v = .sleeping ∨ ∃ key, v = .queue (.fifo key)) (ht : (s.tickets l).Pending v t) :
    t ≠ a := by
  rintro rfl
  rcases hv with rfl | ⟨key, rfl⟩
  · rcases ht with hleft | ⟨q, hq, hx⟩
    · rw [h.places.sleeper t hleft] at ha
      cases ha
    · obtain ⟨w, hw⟩ := h.locals.hands q hq _ hx
      cases hw
  · have haw := h.tickets.awaited _ _ ht
    have hr := h.locals.entry _ haw.live key t haw.ticket
    rw [(h.locals.request _ haw.live t hr).1] at ha
    cases ha

/-- The structure behind entries of one kind changes where no entry refers to it. -/
theorem reowned (h : WaitInv use l s) {k' : Kernel}
    (hprocs : k'.processes = s.k.processes) (hheader : k'.header = s.k.header)
    (hqueues : k'.queues = s.k.queues)
    (howner : ∀ v t, (s.tickets l).Pending v t → k'.owner v t = s.k.owner v t) :
    (WaitRun.tickets { s with k := k' } l).Inv := by
  have hleft : WaitRun.left { s with k := k' } l = s.left l := by
    funext v
    cases v with
    | sleeping => rfl
    | queue v =>
        show (if s.built v then k'.elems (k'.header v) else []) = _
        rw [elems, hqueues, hheader]
        rfl
  have hsub : ∀ v, (WaitRun.left { s with k := k' } l v).Sublist (s.left l v) := by
    intro v
    rw [hleft]
  refine h.tickets.fewer ⟨hsub, fun _ _ => List.Sublist.refl _, fun _ hq _ => hq⟩
    fun v t hp haw => ?_
  have hold : (s.tickets l).Pending v t := 
    hp.imp_left fun ht => (hsub v).subset ht
  have he := howner v t hold
  constructor
  · show k'.owner v t ∈ s.live
    rw [he]
    exact haw.live
  · show (k'.processes (k'.owner v t)).st ≠ .delete
    rw [he, hprocs]
    exact haw.notDoomed
  · show s.stage (k'.owner v t) = _ ∨ s.stage (k'.owner v t) = _ ∧
      (k'.processes (k'.owner v t)).st = .blocked
    rw [he, hprocs]
    exact haw.stage

/-- `create_read_request` -/
theorem createReadRequest (h : WaitInv use l s) {key : Int} {buf r : Addr} {bytes : Int}
    (hnone : s.request s.cur = none) (hc : s.k.createReadRequest key buf bytes = some (r, k')) :
    ∃ use', WaitInv use' l
      { s with k := k', request := update s.request s.cur (some r) } := by
  obtain ⟨⟨r', k₁⟩, hget, he⟩ := Option.map_eq_some_iff.mp hc
  cases he
  obtain ⟨hfree, -, h'⟩ := h.getPage hget (.request s.cur)
  obtain ⟨pages, -, rfl⟩ := getPage_eq_some hget
  have hreader : ∀ r', r' ≠ r → (update s.k.readRequests r
      { s.k.readRequests r with bytes, buffer := buf, f := key, readerP := s.cur } r').readerP =
      (s.k.readRequests r').readerP := fun r' hr' => by rw [update_of_ne hr']
  have hp := h'.places
  refine ⟨_, h'.accounted.congr (.of_processes rfl rfl rfl rfl), h'.held, h.nodupHeld,
    ⟨hp.header, hp.node, hp.nodup, hp.walk, hp.sleeper⟩,
    ⟨fun p hp r' hr => ?_, h'.locals.sleepNode, fun p hp key' r' hr => ?_, h.locals.hands⟩, ?_⟩
  · have hr' : update s.request s.cur (some r) p = some r' := hr
    show _ ∧ (update s.k.readRequests r _ r').readerP = p
    by_cases hcur : p = s.cur
    · subst hcur
      rw [update_self] at hr'
      cases hr'
      rw [update_self, update_self]
      exact ⟨rfl, rfl⟩
    · rw [update_of_ne hcur] at hr'
      obtain ⟨huse, hown⟩ := h.locals.request p hp r' hr'
      have hne : r' ≠ r := by
        rintro rfl
        rw [hfree] at huse
        cases huse
      refine ⟨?_, (hreader r' hne).trans hown⟩
      rw [update_of_ne hne]
      exact huse
  · have hold := h.locals.entry p hp key' r' hr
    show update s.request s.cur (some r) p = some r'
    rw [update_of_ne]
    · exact hold
    · rintro rfl
      rw [hnone] at hold
      cases hold
  · refine h.reowned rfl rfl rfl fun v t ht => ?_
    cases v with
    | sleeping => rfl
    | queue v =>
        cases v with
        | fifo key' => exact hreader t (h.pending_ne hfree (Or.inr ⟨key', rfl⟩) ht)
        | _ => rfl

/-- The running process has no read request any more. -/
theorem abandon (h : WaitInv use l s) (hstage : s.stage s.cur = .out) :
    WaitInv use l { s with request := update s.request s.cur none } := by
  refine ⟨h.accounted, h.held, h.nodupHeld, h.places,
    ⟨fun p hp r hr => ?_, h.locals.sleepNode, fun p hp key r hr => ?_, h.locals.hands⟩, h.tickets⟩
  · have hr' : update s.request s.cur none p = some r := hr
    by_cases hcur : p = s.cur
    · subst hcur
      rw [update_self] at hr'
      cases hr'
    · rw [update_of_ne hcur] at hr'
      exact h.locals.request p hp r hr'
  · show update s.request s.cur none p = some r
    rw [update_of_ne]
    · exact h.locals.entry p hp key r hr
    · rintro rfl
      have hr' : (s.stage s.cur).ticket = some (.queue (.fifo key), r) := hr
      rw [hstage] at hr'
      cases hr'

/-- `store_page` of the read request. -/
theorem collect (h : WaitInv use l s) (hrun : s.Running) (hstage : s.stage s.cur = .out) {r : Addr}
    (hr : s.request s.cur = some r) :
    ∃ use', WaitInv use' l
      { s with k := s.k.storePage r, request := update s.request s.cur none } := by
  have h' := h.abandon hstage
  have huse := (h.locals.request s.cur hrun r hr).1
  refine ⟨_, h'.storePage huse (h'.unused huse nofun nofun nofun nofun fun p hp => ?_)⟩
  cases hp
  show update s.request s.cur none s.cur ≠ some r
  rw [update_self]
  simp

/-! ## Sleeping processes -/

theorem null_notMem (h : WaitInv use l s) : null ∉ l :=
  fun hm => h.accounted.ne_null (h.places.sleeper null hm) rfl

theorem nodup (h : WaitInv use l s) : l.Nodup := h.places.walk.nodup h.null_notMem

/-- The nodes of the list are those that a walk from its head finds. -/
theorem sleepListed_iff (h : WaitInv use l s) : s.k.SleepListed a ↔ a ∈ l := by
  have hwalk := h.places.walk
  constructor
  · intro ha
    induction ha with
    | head hne =>
        cases l with
        | nil => exact absurd hwalk hne
        | cons x l =>
            obtain ⟨rfl, -⟩ := hwalk
            exact List.mem_cons_self
    | next _ hne ih =>
        obtain ⟨l₁, l₂, rfl⟩ := List.append_of_mem ih
        obtain ⟨c, -, rfl, hrest⟩ := Walk.append_iff.mp hwalk
        cases l₂ with
        | nil => exact absurd hrest hne
        | cons x l₂ =>
            obtain ⟨rfl, -⟩ := hrest
            simp
  · have hlisted : ∀ (b : Addr) (rest : List Addr), (b ≠ null → s.k.SleepListed b) →
        Walk s.k.sleepNext b rest null → null ∉ rest → ∀ c ∈ rest, s.k.SleepListed c := by
      intro b rest
      induction rest generalizing b with
      | nil => exact fun _ _ _ c hc => nomatch hc
      | cons x rest ih =>
          rintro hb ⟨rfl, hrest⟩ hnull c hc
          have hx := hb fun he => hnull (he ▸ List.mem_cons_self)
          rcases List.mem_cons.mp hc with rfl | hc
          · exact hx
          · exact ih _ (fun hne => .next hx hne) hrest
              (fun hm => hnull (List.mem_cons_of_mem _ hm)) c hc
    exact hlisted _ l .head hwalk h.null_notMem a

/-- `create_sleep_process` -/
theorem createSleepProcess (h : WaitInv use l s) {ticks : Nat}
    (hc : s.k.createSleepProcess ticks = some (a, k')) :
    ∃ use', WaitInv use' l
      { s with k := k', sleepNode := update s.sleepNode s.cur (some a) } := by
  obtain ⟨⟨a', k₁⟩, hget, he⟩ := Option.map_eq_some_iff.mp hc
  cases he
  obtain ⟨hfree, -, h'⟩ := h.getPage hget .sleepNode
  obtain ⟨pages, -, rfl⟩ := getPage_eq_some hget
  let k₂ := writeSleep { s.k with pages } a fun n => { n with ticks, p := s.cur }
  have hsleeper : k₂.sleeper = update s.k.sleeper a s.cur := sleeper_writeSleep _ _ _
  have hnext : k₂.sleepNext = s.k.sleepNext :=
    (sleepNext_writeSleep _ _ _).trans (update_eq_self a s.k.sleepNext)
  have hp := h'.places
  refine ⟨_, h'.accounted.congr (.of_processes rfl rfl rfl rfl), h'.held, h.nodupHeld,
    ⟨hp.header, hp.node, hp.nodup, ?_, hp.sleeper⟩,
    ⟨h'.locals.request, fun p hp b hb => ?_, h.locals.entry, h.locals.hands⟩, ?_⟩
  · show Walk k₂.sleepNext s.k.sleepingProcesses l null
    rw [hnext]
    exact h.places.walk
  · have hb' : update s.sleepNode s.cur (some a) p = some b := hb
    show _ ∧ k₂.sleeper b = p ∧ _
    rw [hsleeper]
    by_cases hcur : p = s.cur
    · subst hcur
      rw [update_self] at hb'
      cases hb'
      rw [update_self, update_self]
      refine ⟨rfl, rfl, fun hm => ?_⟩
      rw [h.places.sleeper _ hm] at hfree
      cases hfree
    · rw [update_of_ne hcur] at hb'
      obtain ⟨huse, hown, hout⟩ := h.locals.sleepNode p hp b hb'
      have hne : b ≠ a := by
        rintro rfl
        rw [hfree] at huse
        cases huse
      rw [update_of_ne hne, update_of_ne hne]
      exact ⟨huse, hown, hout⟩
  · refine h.reowned rfl rfl rfl fun v t ht => ?_
    cases v with
    | sleeping =>
        show k₂.sleeper t = s.k.sleeper t
        rw [hsleeper, update_of_ne (h.pending_ne hfree (Or.inl rfl) ht)]
    | queue v => cases v <;> rfl

/-- The first statement of `add_sleep_process` writes a node that is not in the list. -/
theorem linkSleepProcess (h : WaitInv use l s) (hrun : s.Running)
    (ha : s.sleepNode s.cur = some a) :
    WaitInv use l { s with k := s.k.linkSleepProcess a } := by
  obtain ⟨-, -, hout⟩ := h.locals.sleepNode s.cur hrun a ha
  have hsleeper : (s.k.linkSleepProcess a).sleeper = s.k.sleeper := sleeper_writeNext _ _ _
  have hnext : (s.k.linkSleepProcess a).sleepNext =
      update s.k.sleepNext a s.k.sleepingProcesses := sleepNext_writeSleep _ _ _
  have hp := h.places
  refine ⟨h.accounted.congr (.of_processes rfl rfl rfl rfl), h.held, h.nodupHeld,
    ⟨hp.header, hp.node, hp.nodup, ?_, hp.sleeper⟩,
    ⟨h.locals.request, ?_, h.locals.entry, h.locals.hands⟩, ?_⟩
  · show Walk (s.k.linkSleepProcess a).sleepNext s.k.sleepingProcesses l null
    rw [hnext]
    exact hp.walk.write hout
  · show ∀ p ∈ s.live, ∀ b, s.sleepNode p = some b →
      _ ∧ (s.k.linkSleepProcess a).sleeper b = p ∧ b ∉ l
    rw [hsleeper]
    exact h.locals.sleepNode
  · have howner : (s.k.linkSleepProcess a).owner = s.k.owner :=
      owner_congr (fun _ => rfl) hsleeper
    exact h.reowned rfl rfl rfl fun v t _ => by rw [howner]

/-- The second statement of `add_sleep_process`.  The nodes that the new head does
not lead to are out of the list. -/
theorem headSleepProcess (h : WaitInv use l s) (hrun : s.Running)
    (halive : (s.k.processes s.cur).st ≠ .delete) (hstage : s.stage s.cur = .out)
    (ha : s.sleepNode s.cur = some a)
    (hnext : s.k.sleepNext a = null ∨ s.k.SleepListed (s.k.sleepNext a)) :
    ∃ l', WaitInv use l' { s with
      k := s.k.headSleepProcess a
      sleepNode := update s.sleepNode s.cur none
      stage := update s.stage s.cur (.registered (.sleeping, a)) } := by
  obtain ⟨huse, hown, hout⟩ := h.locals.sleepNode s.cur hrun a ha
  obtain ⟨l₁, l₂, rfl, hwalk⟩ : ∃ l₁ l₂, l = l₁ ++ l₂ ∧
      Walk s.k.sleepNext (s.k.sleepNext a) l₂ null := by
    rcases hnext with hnull | hlisted
    · exact ⟨l, [], (List.append_nil l).symm, hnull⟩
    · obtain ⟨l₁, l₂, rfl⟩ := List.append_of_mem (h.sleepListed_iff.mp hlisted)
      obtain ⟨c, -, rfl, hrest⟩ := Walk.append_iff.mp h.places.walk
      exact ⟨l₁, _, rfl, rfl, hrest⟩
  have hp := h.places
  refine ⟨a :: l₂, h.accounted.congr (.of_processes rfl rfl rfl rfl), h.held, h.nodupHeld,
    ⟨hp.header, hp.node, hp.nodup, ⟨rfl, hwalk⟩, fun b hb => ?_⟩,
    ⟨h.locals.request, fun p hp b hb => ?_, fun p hp key r hr => ?_, h.locals.hands⟩, ?_⟩
  · rcases List.mem_cons.mp hb with rfl | hb
    · exact huse
    · exact hp.sleeper b (List.mem_append_right _ hb)
  · have hb' : update s.sleepNode s.cur none p = some b := hb
    by_cases hcur : p = s.cur
    · subst hcur
      rw [update_self] at hb'
      cases hb'
    · rw [update_of_ne hcur] at hb'
      obtain ⟨huse', hown', hout'⟩ := h.locals.sleepNode p hp b hb'
      refine ⟨huse', hown', fun hm => ?_⟩
      rcases List.mem_cons.mp hm with rfl | hm
      · exact hcur (hown'.symm.trans hown)
      · exact hout' (List.mem_append_right _ hm)
  · have hr' : (update s.stage s.cur (.registered (.sleeping, a)) p).ticket =
        some (.queue (.fifo key), r) := hr
    by_cases hcur : p = s.cur
    · subst hcur
      rw [update_self] at hr'
      cases hr'
    · rw [update_of_ne hcur] at hr'
      exact h.locals.entry p hp key r hr'
  · have hleft : ∀ v, (update (s.left (l₁ ++ l₂)) .sleeping l₂ v).Sublist
        (s.left (l₁ ++ l₂) v) := by
      intro v
      by_cases hv : v = .sleeping
      · subst hv
        rw [update_self]
        exact List.sublist_append_right l₁ l₂
      · rw [update_of_ne hv]
    have ht : Tickets.Inv { s.tickets (l₁ ++ l₂) with
        left := update (s.left (l₁ ++ l₂)) .sleeping l₂ } :=
      h.tickets.fewer ⟨hleft, fun _ _ => List.Sublist.refl _, fun _ hq _ => hq⟩
        fun _ _ _ haw => ⟨haw.live, haw.notDoomed, haw.stage⟩
    have hnew : (a :: l₂).Perm (a :: update (s.left (l₁ ++ l₂)) .sleeping l₂ .sleeping) := by
      rw [update_self]
    have hreg := ht.register (w := WaitPlace.sleeping) (t := a) hrun halive hstage hown hnew
    have hsame : WaitRun.left { s with
        k := s.k.headSleepProcess a
        sleepNode := update s.sleepNode s.cur none
        stage := update s.stage s.cur (.registered (.sleeping, a)) } (a :: l₂) =
        update (update (s.left (l₁ ++ l₂)) .sleeping l₂) .sleeping (a :: l₂) := by
      rw [update_idem]
      funext v
      cases v with
      | sleeping =>
          rw [update_self]
          rfl
      | queue v =>
          rw [update_of_ne (by simp)]
          rfl
    unfold WaitRun.tickets
    rw [hsame]
    exact hreg

/-! ## The timer -/

section Timer

variable {done rest : List Addr} {prev : Addr}

/-- A node that is due leaves the list, its process is woken up, and its page is given back. -/
theorem expire (h : WaitInv use (done ++ a :: rest) s) (hprev : Behind done prev) :
    WaitInv (update use a none) (done ++ rest)
      { s with k := (s.k.wokenUp prev a).storePage a } := by
  obtain ⟨nodes, head, he, hnode, -⟩ := unlinkSleepProcess_spec (s.k.tickNode a) prev a
  have hwalk := wokenUp_walk h.places.walk h.null_notMem hprev
  have hout : a ∉ done ++ rest := (List.nodup_cons.mp (List.nodup_middle.mp h.nodup)).1
  have hsub : ∀ {b}, b ∈ done ++ rest → b ∈ done ++ a :: rest := fun hb =>
    ((List.sublist_cons_self a rest).append_left done).subset hb
  have hsleeper : ∀ b, (nodes b).p = s.k.sleeper b := fun b =>
    (hnode b).1.trans (congrFun (sleeper_writeTicks s.k a countDown) b)
  obtain ⟨procs, hprocs⟩ : ∃ procs, procs = s.k.processes.unblockProcess (s.k.sleeper a) :=
    ⟨_, rfl⟩
  have hwoken : s.k.wokenUp prev a = { s.k with
      sleepNodes := nodes, sleepingProcesses := head, processes := procs } := by
    unfold wokenUp
    rw [he, hprocs, ← hsleeper a]
    rfl
  rw [hwoken] at hwalk ⊢
  have haccounts : SameAccounts s.k { s.k with processes := procs } :=
    hprocs ▸ .applyStatus s.k .unblock (s.k.sleeper a)
  let t : WaitRun := { s with k := { s.k with
    sleepNodes := nodes, sleepingProcesses := head, processes := procs } }
  have hleft : t.left (done ++ rest) =
      update (s.left (done ++ a :: rest)) .sleeping (done ++ rest) := by
    funext v
    cases v with
    | sleeping =>
        rw [update_self]
        rfl
    | queue v =>
        rw [update_of_ne (by simp)]
        rfl
  have howner : t.k.owner = s.k.owner := owner_congr (fun _ => rfl) (funext hsleeper)
  have hdoomed : (fun p => (procs p).st = .delete) = (s.tickets (done ++ a :: rest)).doomed :=
    funext fun p => propext (hprocs ▸ Procs.unblockProcess_delete_iff)
  have ht : (t.tickets (done ++ rest)).Inv := by
    unfold WaitRun.tickets
    rw [hleft, howner]
    show Tickets.Inv { s.tickets (done ++ a :: rest) with
      doomed := fun p => (procs p).st = .delete
      parked := fun p => (procs p).st = .blocked
      left := update (s.left (done ++ a :: rest)) .sleeping (done ++ rest) }
    rw [hdoomed]
    refine h.tickets.answerLeft rfl fun p hne hp => ?_
    rw [hprocs, Procs.unblockProcess_of_ne (show p ≠ s.k.sleeper a from hne)]
    exact hp
  have hp := h.places
  have h' : WaitInv use (done ++ rest) t := by
    refine ⟨h.accounted.congr ⟨rfl, rfl, rfl, haccounts.pid, haccounts.dataPage⟩, h.held,
      h.nodupHeld, ⟨hp.header, hp.node, hp.nodup, hwalk, fun b hb => hp.sleeper b (hsub hb)⟩,
      ⟨h.locals.request, fun p hp b hb => ?_, h.locals.entry, h.locals.hands⟩, ht⟩
    obtain ⟨huse, hown, hnot⟩ := h.locals.sleepNode p hp b hb
    exact ⟨huse, (hsleeper b).trans hown, fun hm => hnot (hsub hm)⟩
  have ha : a ∈ done ++ a :: rest := List.mem_append_right _ List.mem_cons_self
  have huse := hp.sleeper a ha
  refine h'.storePage huse (h'.unused huse nofun nofun nofun (fun _ => ⟨hout, fun p hp hb => ?_⟩)
    nofun)
  exact (h.locals.sleepNode p hp a hb).2.2 ha

/-- The loop of `timer_handler`, with the nodes `rest` ahead and `done` behind. -/
theorem timerLoop (fuel : Nat) (h : WaitInv use (done ++ rest) s) (hprev : Behind done prev)
    (hwalk : Walk s.k.sleepNext a rest null) (he : timerLoop fuel s.k prev a = some k') :
    ∃ use' l', WaitInv use' l' { s with k := k' } := by
  induction fuel generalizing s use done rest prev a with
  | zero => cases he
  | succ fuel ih =>
      rw [timerLoop_succ] at he
      split at he
      next =>
        cases he
        exact ⟨use, _, h⟩
      next hne =>
        cases rest with
        | nil => exact absurd hwalk hne
        | cons x rest =>
            obtain ⟨rfl, hrest⟩ := hwalk
            split at he
            next =>
              have h' := h.expire hprev
              have hout : prev ∉ rest := hprev.notMem
                (h.nodup.sublist ((List.sublist_cons_self a rest).append_left done))
                fun hm => h.null_notMem (List.mem_append_right _ (List.mem_cons_of_mem _ hm))
              exact ih (s := { s with k := (s.k.wokenUp prev a).storePage a }) h' hprev
                (wokenUp_rest hrest hout) he
            next =>
              have h' : WaitInv use ((done ++ [a]) ++ rest) { s with k := s.k.tickNode a } := by
                rw [List.append_assoc]
                exact h.same ⟨rfl, rfl, fun _ => rfl, sleeper_writeTicks _ _ _,
                  sleepNext_tickNode _ _, rfl⟩ (.of_processes rfl rfl rfl rfl) fun _ => rfl
              refine ih (s := { s with k := s.k.tickNode a }) h' (Or.inr ⟨done, rfl⟩) ?_ he
              show Walk (s.k.tickNode a).sleepNext ((s.k.tickNode a).sleepNext a) rest null
              rw [sleepNext_tickNode]
              exact hrest

/-- `timer_handler` -/
theorem timerHandler (h : WaitInv use l s) {fuel : Nat}
    (he : timerHandler fuel s.k = some k') : ∃ use' l', WaitInv use' l' { s with k := k' } := by
  have h' : WaitInv use ([] ++ l) s := h
  exact h'.timerLoop fuel (Or.inl ⟨rfl, rfl⟩) h.places.walk he

/-- `timer_handler` wakes up the processes of nodes in the list. -/
theorem timerWoken_subset (fuel : Nat) (hwalk : Walk k.sleepNext a rest null)
    (hnull : null ∉ rest) (hprev : prev ∉ rest) : timerWoken fuel k prev a ⊆ rest := by
  induction fuel generalizing k rest prev a with
  | zero => exact List.nil_subset _
  | succ fuel ih =>
      rw [timerWoken]
      split
      next => exact List.nil_subset _
      next hne =>
        cases rest with
        | nil => exact absurd hwalk hne
        | cons x rest =>
            obtain ⟨⟨rfl, hrest⟩, hnodup⟩ := And.intro hwalk (hwalk.nodup hnull)
            have hnull' : null ∉ rest := fun hm => hnull (List.mem_cons_of_mem _ hm)
            have hprev' : prev ∉ rest := fun hm => hprev (List.mem_cons_of_mem _ hm)
            split
            next =>
              exact List.cons_subset_cons a
                (ih (k := (k.wokenUp prev a).storePage a) (wokenUp_rest hrest hprev') hnull' hprev')
            next =>
              have hwalk' : Walk (k.tickNode a).sleepNext ((k.tickNode a).sleepNext a) rest null := by
                rw [sleepNext_tickNode]
                exact hrest
              exact List.subset_cons_of_subset a (ih hwalk' hnull' (List.nodup_cons.mp hnodup).1)

end Timer

end WaitInv

end Kernel

end TPE
