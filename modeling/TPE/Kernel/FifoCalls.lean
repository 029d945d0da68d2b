import TPE.Kernel.FifoDelivery
import TPE.Kernel.FifoDescriptors
import TPE.Kernel.PageOwners

/-!
# The calls on a fifo, in any order

The processes of `fifoSystem` again, now without a guard on their steps: a
writer may serve a request before its reader blocks, and a fifo may be closed
and opened again while others are between two statements of a call.  The counts
of bytes are `int`s.

The invariant says who owns each page that is handed out.  It is enough to know
that the requests in the queue are those of readers that wait for them, that no
two calls share a page, and that the buffer is sound.
-/

namespace TPE

open Function

namespace Kernel

/-- What a page is used for, and by the call of which process. -/
inductive FifoUse where
  /-- Part of an open fifo or mutex. -/
  | kernel
  /-- The node with the request of the reader `p`. -/
  | node (p : Addr)
  /-- The request of the reader `p`. -/
  | request (p : Addr)
deriving DecidableEq

/-- The number of bytes is an `int`. -/
def FifoAction.IsInt : FifoAction → Prop
  | .read _ bytes => bytes < 2 ^ 31
  | .write _ bytes => bytes < 2 ^ 31
  | _ => True

instance (a : FifoAction) : Decidable a.IsInt := by
  cases a <;> simp only [FifoAction.IsInt] <;> infer_instance

/-- `fifoSystem`, with `int`s, on an allocator that holds data pages. -/
def fifoCallSystem (key : Int) : System FifoRun FifoAction where
  init s := ∃ (k : Kernel) (name : CString) (i : Nat),
    k.fifoSearch name = .closed i ∧ k.fifoOpen name = some (key, s.k) ∧
    k.pages.OwnedBy (fun _ => (none : Option FifoUse)) ∧
    (∀ p, (s.k.processes p).st ≠ .delete) ∧ s.k.getCurrentProcess ≠ null ∧ ∀ p, s.point p = .idle
  next s a := if a.IsInt then (fifoSystem key).next s a else none

/-- The reader `p` has queued the request `r` and not been woken up. -/
def Waits (s : FifoRun) (p r : Addr) : Prop :=
  s.point p = .queued r ∨ s.point p = .yielding r ∧ s.k.processes.isBlockedProcess p

/-- Who owns the pages, and what the calls rely on. -/
structure CallsInv (key : Int) (own : Addr → Option FifoUse) (s : FifoRun) : Prop where
  running : s.k.getCurrentProcess ≠ null
  alive : ∀ p, (s.k.processes p).st ≠ .delete
  pages : s.k.pages.OwnedBy own
  header : s.k.readQueueOf key ≠ null ∧
    ((s.k.openFifos key).state = .opened → own (s.k.readQueueOf key) = some .kernel)
  nodup : ((s.k.queues (s.k.readQueueOf key)).map QueueNode.page).Nodup
  nodes : ∀ f ∈ s.k.queues (s.k.readQueueOf key),
    ∃ p, own f.page = some (.node p) ∧ Waits s p f.elem
  waits : ∀ a p, own a = some (.node p) → ∃ r, Waits s p r
  single : ∀ a b p, own a = some (.node p) → own b = some (.node p) → a = b
  request : ∀ p r, (s.point p).request = some r →
    own r = some (.request p) ∧ RequestOf key p (s.k.readRequests r)
  buffer : (s.k.openFifos key).cBuffer.Inv

variable {key : Int} {s t : FifoRun} {k k' : Kernel} {own : Addr → Option FifoUse} {p r : Addr}

/-! ## What the invariant says about the queue -/

theorem Waits.request (h : Waits s p r) : (s.point p).request = some r := by
  rcases h with hp | ⟨hp, -⟩ <;> rw [hp] <;> rfl

/-- A reader waits as long as its point and its status stay the same. -/
theorem Waits.of_eq (h : Waits s p r) (hpoint : t.point p = s.point p)
    (hst : (t.k.processes p).st = (s.k.processes p).st) : Waits t p r := by
  unfold Waits Procs.isBlockedProcess at *
  rw [hpoint, hst]
  exact h

/-- A process outside the calls waits for nothing. -/
theorem Waits.ne_of_idle {q : Addr} (h : Waits s q r) (hp : s.point p = .idle) : q ≠ p := by
  rintro rfl
  have hreq := h.request
  rw [hp] at hreq
  cases hreq

theorem applyStatus_of_ne {call : StatusCall} {q : Addr} (hne : q ≠ p) :
    (k.applyStatus call p).processes q = k.processes q := by
  obtain ⟨st, he, -⟩ := call.apply_eq k.processes p
  exact (congrFun he q).trans (Procs.setSt_of_ne hne)

namespace CallsInv

theorem ne_null (h : CallsInv key own s) {a : Addr} {w : FifoUse} (ha : own a = some w) :
    a ≠ null := by
  exact h.pages.ne_null (by rw [ha]; simp)

/-- A process that does not wait owns no node. -/
theorem noNode (h : CallsInv key own s) (hp : ∀ r, ¬Waits s p r) (a : Addr) :
    own a ≠ some (.node p) := by
  intro ha
  obtain ⟨r, hr⟩ := h.waits a p ha
  exact hp r hr

/-- A request belongs to one reader. -/
theorem reader_unique (h : CallsInv key own s) {q : Addr} (hp : (s.point p).request = some r)
    (hq : (s.point q).request = some r) : p = q := by
  have hr := (h.request p r hp).1.symm.trans (h.request q r hq).1
  cases hr
  rfl

/-- The owner of a node in the queue, and its request. -/
theorem node_request (h : CallsInv key own s) {f : QueueNode}
    (hf : f ∈ s.k.queues (s.k.readQueueOf key)) :
    ∃ p, own f.page = some (.node p) ∧ Waits s p f.elem ∧
      RequestOf key p (s.k.readRequests f.elem) := by
  obtain ⟨p, hown, hp⟩ := h.nodes f hf
  exact ⟨p, hown, hp, (h.request p _ hp.request).2⟩

theorem elems_nodup (h : CallsInv key own s) :
    (s.k.elems (s.k.readQueueOf key)).Nodup := by
  refine List.Nodup.map_on ?_ h.nodup.of_map
  intro f hf g hg he
  obtain ⟨p, hfown, hp⟩ := h.nodes f hf
  obtain ⟨q, hgown, hq⟩ := h.nodes g hg
  obtain rfl := h.reader_unique hp.request (he ▸ hq.request)
  have hpage := h.single _ _ _ hfown hgown
  cases f
  cases g
  simp only at he hpage
  rw [he, hpage]

theorem serviceable (h : CallsInv key own s) : s.k.Serviceable key := by
  refine ⟨h.header.1, h.buffer, h.elems_nodup, ?_⟩
  intro r hr
  obtain ⟨f, hf, rfl⟩ := List.mem_map.mp hr
  obtain ⟨p, -, -, hreq⟩ := h.node_request hf
  exact ⟨hreq.fifo, hreq.pos⟩

/-! ## One step -/

@[simp] theorem pages_setFileOpen {fd : Int} : (k.setFileOpen p fd).pages = k.pages :=
  (setFileOpen_quiet 0 k p fd).pages

/-- What the invariant does not read may change. -/
theorem quiet (h : CallsInv key own s) (hq : Quiet key s.k k')
    (hbuffer : (k'.openFifos key).cBuffer.Inv) : CallsInv key own { s with k := k' } := by
  have hwaits : ∀ p r, Waits s p r → Waits { s with k := k' } p r := by
    intro p r hp
    unfold Waits
    rw [hq.blocked]
    exact hp
  refine ⟨?_, ?_, ?_, ?_, ?_, ?_, ?_, h.single, ?_, hbuffer⟩
  · rw [hq.current]
    exact h.running
  · intro p
    rw [hq.status]
    exact h.alive p
  · rw [hq.pages]
    exact h.pages
  · rw [hq.state, readQueueOf, hq.queue]
    exact h.header
  · rw [readQueueOf, hq.queue, hq.queues]
    exact h.nodup
  · intro f hf
    rw [readQueueOf, hq.queue, hq.queues] at hf
    obtain ⟨p, hown, hp⟩ := h.nodes f hf
    exact ⟨p, hown, hwaits p _ hp⟩
  · intro a p ha
    obtain ⟨r, hr⟩ := h.waits a p ha
    exact ⟨r, hwaits p r hr⟩
  · intro p r hp
    obtain ⟨hown, hname, hne, hfifo, hpos⟩ := h.request p r hp
    obtain ⟨n, hn⟩ := hq.request r
    exact ⟨hown, hn ▸ hname, hne, hn ▸ hfifo, hn ▸ hpos⟩

/-- A process without a node goes on, and keeps its request or has none. -/
theorem goto (h : CallsInv key own s) (pt : FifoPoint) (hno : ∀ a, own a ≠ some (.node p))
    (hrequest : ∀ a, pt.request = some a → (s.point p).request = some a) :
    CallsInv key own { s with point := update s.point p pt } := by
  have hwaits : ∀ a q r, own a = some (.node q) → Waits s q r →
      Waits { s with point := update s.point p pt } q r := by
    intro a q r ha hq
    have hne : q ≠ p := by
      rintro rfl
      exact hno a ha
    unfold Waits
    simp only [update_of_ne hne]
    exact hq
  refine { h with
    nodes := fun f hf => ?_
    waits := fun a q ha => ?_
    request := fun q r hq => ?_ }
  · obtain ⟨q, hown, hq⟩ := h.nodes f hf
    exact ⟨q, hown, hwaits _ q _ hown hq⟩
  · obtain ⟨r, hr⟩ := h.waits a q ha
    exact ⟨r, hwaits a q r ha hr⟩
  · by_cases hqp : q = p
    · subst hqp
      simp only [update_self] at hq
      exact h.request q r (hrequest r hq)
    · simp only [update_of_ne hqp] at hq
      exact h.request q r hq

theorem dispatch {node : Addr} (h : CallsInv key own s) (hready : s.k.Dispatchable node) :
    CallsInv key own { s with k := { s.k with current := node } } :=
  { h with running := fun hnull => hready.1 fun hne => absurd hnull hne }

/-- The status of a process outside the calls changes. -/
theorem status {call : StatusCall} (h : CallsInv key own s) (hp : s.point p = .idle)
    (hcall : call ≠ .kill) : CallsInv key own { s with k := s.k.applyStatus call p } := by
  obtain ⟨st, he, hst⟩ := call.apply_eq s.k.processes p
  have hprocs : (s.k.applyStatus call p).processes = s.k.processes.setSt p st := he
  have hwaits : ∀ q r, Waits s q r → Waits { s with k := s.k.applyStatus call p } q r :=
    fun q r hq => hq.of_eq rfl (congrArg Process.st (applyStatus_of_ne (hq.ne_of_idle hp)))
  refine { h with
    alive := fun q => ?_
    nodes := fun f hf => ?_
    waits := fun a q ha => ?_ }
  · rw [hprocs]
    by_cases hq : q = p
    · rw [hq, Procs.setSt_st_self]
      exact hst hcall (h.alive p)
    · rw [Procs.setSt_of_ne hq]
      exact h.alive q
  · obtain ⟨q, hown, hq⟩ := h.nodes f hf
    exact ⟨q, hown, hwaits q _ hq⟩
  · obtain ⟨r, hr⟩ := h.waits a q ha
    exact ⟨r, hwaits q r hr⟩

/-- A page becomes a queue.  It had no owner, so it is not that of an open fifo. -/
theorem createQueue {q : Addr} (h : CallsInv key own s) (hq : s.k.createQueue = some (q, k')) :
    CallsInv key (update own q (some .kernel)) { s with k := k' } ∧
      s.k.pages.getPage = some (q, k'.pages) := by
  obtain ⟨pages, hget, rfl⟩ := createQueue_spec hq
  obtain ⟨hfresh, hpages⟩ := h.pages.getPage hget .kernel
  have hnode : ∀ a p, update own q (some .kernel) a = some (.node p) → own a = some (.node p) :=
    fun a p ha => (PageStack.owner_of_update ha (by simp)).1
  -- the fifo's own queue is emptied, if the page was once its header, or stays
  have hsub : ∀ f, f ∈ update s.k.queues q [] (s.k.readQueueOf key) →
      f ∈ s.k.queues (s.k.readQueueOf key) := by
    intro f hf
    by_cases he : s.k.readQueueOf key = q
    · rw [he, update_self] at hf
      cases hf
    · rwa [update_of_ne he] at hf
  refine ⟨⟨h.running, h.alive, hpages, ⟨h.header.1, fun hopen => ?_⟩, ?_, fun f hf => ?_,
    fun a p ha => h.waits a p (hnode a p ha),
    fun a b p ha hb => h.single a b p (hnode a p ha) (hnode b p hb), fun p r hp => ?_, h.buffer⟩,
    hget⟩
  · exact PageStack.update_owner_fresh hfresh (h.header.2 hopen)
  · show ((update s.k.queues q [] (s.k.readQueueOf key)).map QueueNode.page).Nodup
    by_cases he : s.k.readQueueOf key = q
    · rw [he, update_self]
      exact List.nodup_nil
    · rw [update_of_ne he]
      exact h.nodup
  · obtain ⟨p, hown, hp⟩ := h.nodes f (hsub f hf)
    exact ⟨p, PageStack.update_owner_fresh hfresh hown, hp⟩
  · obtain ⟨hown, hreq⟩ := h.request p r hp
    exact ⟨PageStack.update_owner_fresh hfresh hown, hreq⟩

/-- The fifo gets the queue `q`. -/
theorem install (h : CallsInv key own s) {f : Fifo} (hown : own f.readQueue = some .kernel)
    (hempty : s.k.queues f.readQueue = []) (hbuffer : f.cBuffer.Inv) :
    CallsInv key own { s with k := s.k.writeFifo key fun _ => f } := by
  have hfifo : (s.k.writeFifo key fun _ => f).openFifos key = f := update_self _ _ _
  have hqueue : (s.k.writeFifo key fun _ => f).queues
      ((s.k.writeFifo key fun _ => f).readQueueOf key) = [] := by
    rw [readQueueOf, hfifo]
    exact hempty
  refine { h with
    header := ?_
    nodup := ?_
    nodes := fun g hg => ?_
    buffer := ?_ }
  · simp only [readQueueOf, hfifo]
    exact ⟨h.ne_null hown, fun _ => hown⟩
  · rw [hqueue]
    exact List.nodup_nil
  · rw [hqueue] at hg
    cases hg
  · simp only [hfifo]
    exact hbuffer

theorem mutexOpen {name : CString} {lock : Int} (h : CallsInv key own s)
    (ho : s.k.mutexOpen name = some (lock, k')) :
    CallsInv key (PageStack.ledger .kernel own s.k.pages k'.pages) { s with k := k' } ∧
      k'.openFifos = s.k.openFifos ∧ ∀ a ∈ k'.pages.free, a ∈ s.k.pages.free := by
  unfold Kernel.mutexOpen at ho
  split at ho
  · cases ho
    rw [PageStack.ledger_self h.pages]
    exact ⟨h, rfl, fun a ha => ha⟩
  · cases ho
    rw [PageStack.ledger_self h.pages]
    exact ⟨h, rfl, fun a ha => ha⟩
  · obtain ⟨⟨q, k₁⟩, hq, he⟩ := Option.map_eq_some_iff.mp ho
    cases he
    obtain ⟨h₁, hget⟩ := h.createQueue hq
    obtain ⟨pages, -, rfl⟩ := createQueue_spec hq
    refine ⟨?_, rfl, fun a ha => ?_⟩
    · have hledger := PageStack.ledger_getPage h.pages hget .kernel
      simp only at hledger
      simp only [writeMutex, hledger]
      exact h₁.quiet ⟨rfl, fun _ => rfl, rfl, rfl, rfl, rfl, fun _ => ⟨_, rfl⟩⟩ h₁.buffer
    · rw [PageStack.free_of_getPage hget]
      exact List.mem_cons_of_mem _ ha

/-- A process gets the descriptor of a fifo. -/
theorem setFileOpen (h : CallsInv key own s) (q : Addr) (fd : Int) :
    CallsInv key own { s with k := s.k.setFileOpen q fd } := by
  refine h.quiet (setFileOpen_quiet _ _ _ _) ?_
  rw [openFifos_setFileOpen]
  exact h.buffer

/-- `fifo_open` opens this fifo again, or another one, or finds one open. -/
theorem openName {name : CString} {i : Int} (h : CallsInv key own s)
    (ho : s.k.fifoOpen name = some (i, k')) :
    CallsInv key (PageStack.ledger .kernel own s.k.pages k'.pages) { s with k := k' } := by
  unfold fifoOpen at ho
  split at ho
  next j hsearch =>
    cases ho
    rw [pages_setFileOpen, PageStack.ledger_self h.pages]
    exact h.setFileOpen _ _
  next =>
    cases ho
    rw [PageStack.ledger_self h.pages]
    exact h
  next j hsearch =>
    obtain ⟨⟨lock, k₁⟩, hlock, ho⟩ := Option.bind_eq_some_iff.mp ho
    obtain ⟨⟨q, k₂⟩, hq, ho⟩ := Option.map_eq_some_iff.mp ho
    cases ho
    obtain ⟨h₁, hfifos, htaken⟩ := h.mutexOpen hlock
    obtain ⟨h₂, hget⟩ := h₁.createQueue hq
    have hledger : update (PageStack.ledger .kernel own s.k.pages k₁.pages) q (some .kernel) =
        PageStack.ledger .kernel own s.k.pages k₂.pages :=
      (PageStack.ledger_getPage h₁.pages hget FifoUse.kernel).symm.trans
        (PageStack.ledger_trans FifoUse.kernel (Or.inl htaken)).symm
    have hqown := update_self (f := PageStack.ledger .kernel own s.k.pages k₁.pages) q
      (some FifoUse.kernel)
    rw [hledger] at h₂ hqown
    have hempty : k₂.queues q = [] := by
      obtain ⟨pages, -, rfl⟩ := createQueue_spec hq
      exact update_self _ _ _
    have h₃ : CallsInv key (PageStack.ledger .kernel own s.k.pages k₂.pages)
        { s with k := k₂.writeFifo j fun _ =>
          ⟨name, .create fun _ => 0, .opened, lock, q⟩ } := by
      by_cases hj : (j : Int) = key
      · subst hj
        exact h₂.install hqown hempty (CircularBuffer.create_inv _)
      · have hother : (k₂.writeFifo j fun _ =>
            ⟨name, .create fun _ => 0, .opened, lock, q⟩).openFifos key = k₂.openFifos key :=
          update_of_ne (Ne.symm hj) _ _
        refine h₂.quiet ⟨rfl, fun _ => rfl, rfl, rfl, ?_, ?_, fun _ => ⟨_, rfl⟩⟩ ?_
        · rw [hother]
        · rw [hother]
        · rw [hother]
          exact h₂.buffer
    rw [pages_setFileOpen]
    exact h₃.setFileOpen _ _

/-- The first node is taken from the queue and given back, and the reader of its
request is made ready. -/
theorem take (h : CallsInv key own s) {f : QueueNode} {rest : List QueueNode}
    (hq : s.k.queues (s.k.readQueueOf key) = f :: rest) :
    own f.page ≠ none ∧
    CallsInv key (update own f.page none) { s with k := { s.k with
      queues := update s.k.queues (s.k.readQueueOf key) rest
      pages := s.k.pages.storePage f.page
      processes := Procs.unblockProcess s.k.processes (s.k.readRequests f.elem).readerP } } := by
  obtain ⟨p, hown, hp, hreq⟩ := h.node_request (f := f) (by rw [hq]; exact List.mem_cons_self)
  rw [hreq.reader]
  have hnodup := h.nodup
  rw [hq, List.map_cons, List.nodup_cons] at hnodup
  have hkeep : ∀ a w, update own f.page none a = some w → own a = some w ∧ a ≠ f.page :=
    fun a w ha => PageStack.owner_of_update ha (by simp)
  -- a reader with another node is another reader
  have hwaits : ∀ a q r, own a = some (.node q) → a ≠ f.page → Waits s q r →
      Waits { s with k := { s.k with
        queues := update s.k.queues (s.k.readQueueOf key) rest
        pages := s.k.pages.storePage f.page
        processes := Procs.unblockProcess s.k.processes p } } q r := by
    intro a q r ha hne hq
    have hqp : q ≠ p := by
      rintro rfl
      exact hne (h.single _ _ _ ha hown)
    rcases hq with hq | ⟨hq, hb⟩
    · exact Or.inl hq
    · refine Or.inr ⟨hq, ?_⟩
      rw [Procs.isBlockedProcess_unblock hreq.reader_ne (h.alive p), update_of_ne hqp]
      exact hb
  have hsome : own f.page ≠ none := by
    rw [hown]
    simp
  refine ⟨hsome, h.running, fun q hdel => h.alive q (Procs.unblockProcess_delete_iff.mp hdel),
    h.pages.storePage hsome, ⟨h.header.1, fun hopen => ?_⟩, ?_, fun g hg => ?_, fun a q ha => ?_,
    fun a b q ha hb => h.single a b q (hkeep a _ ha).1 (hkeep b _ hb).1, fun q r hq' => ?_,
    h.buffer⟩
  · exact PageStack.update_owner_other hown (h.header.2 hopen) (by simp)
  · simp only [readQueueOf, update_self]
    exact hnodup.2
  · simp only [readQueueOf, update_self] at hg
    have hne : g.page ≠ f.page := by
      intro he
      exact hnodup.1 (he ▸ List.mem_map_of_mem hg)
    obtain ⟨q, hgown, hq'⟩ := h.nodes g (by rw [hq]; exact List.mem_cons_of_mem _ hg)
    refine ⟨q, ?_, hwaits _ q _ hgown hne hq'⟩
    rw [update_of_ne hne]
    exact hgown
  · obtain ⟨ha', hne⟩ := hkeep a _ ha
    obtain ⟨r, hr⟩ := h.waits a q ha'
    exact ⟨r, hwaits a q r ha' hne hr⟩
  · obtain ⟨hr, hreq'⟩ := h.request q r hq'
    exact ⟨PageStack.update_owner_other hown hr (by simp), hreq'⟩

/-- `create_read_request` -/
theorem createRequest (h : CallsInv key own s) {buf : Addr} {bytes : Int} {pos : 0 < bytes}
    (hp : s.point s.k.getCurrentProcess = .entered buf bytes pos)
    (hr : s.k.createReadRequest key buf bytes = some (r, k')) :
    s.k.pages.getPage = some (r, k'.pages) ∧
    CallsInv key (update own r (some (.request s.k.getCurrentProcess)))
      ⟨k', update s.point s.k.getCurrentProcess (.requested r)⟩ := by
  obtain ⟨⟨a, k₁⟩, hget, he⟩ := Option.map_eq_some_iff.mp hr
  obtain ⟨pages, hpages, rfl⟩ := getPage_eq_some hget
  cases he
  set p := s.k.getCurrentProcess with hpdef
  obtain ⟨hfresh, hpages'⟩ := h.pages.getPage hpages (.request p)
  have hno : ∀ a, own a ≠ some (.node p) := by
    refine h.noNode fun r' hw => ?_
    have hreq := hw.request
    rw [hp] at hreq
    cases hreq
  have hnode : ∀ a q, update own r (some (.request p)) a = some (.node q) →
      own a = some (.node q) :=
    fun a q ha => (PageStack.owner_of_update ha (by simp)).1
  have hwaits : ∀ a q r', own a = some (.node q) → Waits s q r' →
      Waits ⟨writeRequest { s.k with pages } r fun req =>
        { req with bytes, buffer := buf, f := key, readerP := p },
        update s.point p (.requested r)⟩ q r' := by
    intro a q r' ha hq
    have hqp : q ≠ p := by
      rintro rfl
      exact hno a ha
    unfold Waits
    simp only [update_of_ne hqp]
    exact hq
  refine ⟨hpages, h.running, h.alive, hpages', ⟨h.header.1, fun hopen => ?_⟩, h.nodup,
    fun f hf => ?_, fun a q ha => ?_,
    fun a b q ha hb => h.single a b q (hnode a q ha) (hnode b q hb), fun q r' hq => ?_, h.buffer⟩
  · exact PageStack.update_owner_fresh hfresh (h.header.2 hopen)
  · obtain ⟨q, hown, hq⟩ := h.nodes f hf
    exact ⟨q, PageStack.update_owner_fresh hfresh hown, hwaits _ q _ hown hq⟩
  · obtain ⟨r', hr'⟩ := h.waits a q (hnode a q ha)
    exact ⟨r', hwaits a q r' (hnode a q ha) hr'⟩
  · by_cases hqp : q = p
    · subst hqp
      simp only [update_self] at hq
      cases hq
      simp only [writeRequest, update_self]
      exact ⟨trivial, rfl, h.running, rfl, pos⟩
    · simp only [update_of_ne hqp] at hq
      obtain ⟨hown, hreq⟩ := h.request q r' hq
      have hne : r' ≠ r := by
        rintro rfl
        rw [hfresh] at hown
        cases hown
      simp only [writeRequest, update_of_ne hne]
      exact ⟨hown, hreq⟩

/-- The section of `fifo_read` queues the request. -/
theorem enqueue (h : CallsInv key own s) (hp : s.point s.k.getCurrentProcess = .requested r)
    (henq : s.k.enqueue (s.k.readQueueOf key) r = some k') :
    ∃ page, s.k.pages.getPage = some (page, k'.pages) ∧
    CallsInv key (update own page (some (.node s.k.getCurrentProcess)))
      ⟨k', update s.point s.k.getCurrentProcess (.queued r)⟩ := by
  obtain ⟨page, pages, hget, rfl⟩ := enqueue_spec h.header.1 henq
  set p := s.k.getCurrentProcess with hpdef
  obtain ⟨hfresh, hpages⟩ := h.pages.getPage hget (.node p)
  have hno : ∀ a, own a ≠ some (.node p) := by
    refine h.noNode fun r' hw => ?_
    rcases hw with hw | ⟨hw, -⟩ <;> rw [hp] at hw <;> cases hw
  have hnode : ∀ a q, update own page (some (.node p)) a = some (.node q) →
      a = page ∧ q = p ∨ own a = some (.node q) ∧ q ≠ p := by
    intro a q ha
    by_cases hqp : q = p
    · refine Or.inl ⟨by_contra fun hap => ?_, hqp⟩
      rw [update_of_ne hap, hqp] at ha
      exact hno a ha
    · exact Or.inr ⟨(PageStack.owner_of_update ha (by simpa using hqp)).1, hqp⟩
  have hwaits : ∀ q r', q ≠ p → Waits s q r' →
      Waits ⟨{ s.k with
        pages
        queues := update s.k.queues (s.k.readQueueOf key)
          (s.k.queues (s.k.readQueueOf key) ++ [⟨page, r⟩]) },
        update s.point p (.queued r)⟩ q r' := by
    intro q r' hqp hq
    unfold Waits
    simp only [update_of_ne hqp]
    exact hq
  have hself : Waits ⟨{ s.k with
      pages
      queues := update s.k.queues (s.k.readQueueOf key)
        (s.k.queues (s.k.readQueueOf key) ++ [⟨page, r⟩]) },
      update s.point p (.queued r)⟩ p r := Or.inl (update_self _ _ _)
  refine ⟨page, hget, h.running, h.alive, hpages, ⟨h.header.1, fun hopen => ?_⟩, ?_,
    fun f hf => ?_, fun a q ha => ?_, fun a b q ha hb => ?_, fun q r' hq => ?_, h.buffer⟩
  · exact PageStack.update_owner_fresh hfresh (h.header.2 hopen)
  · simp only [readQueueOf, update_self, List.map_append, List.map_cons, List.map_nil]
    refine List.nodup_append.mpr ⟨h.nodup, List.nodup_singleton _, fun a ha b hb he => ?_⟩
    obtain ⟨f, hf, rfl⟩ := List.mem_map.mp ha
    obtain ⟨q, hown, -⟩ := h.nodes f hf
    rw [he, List.mem_singleton.mp hb, hfresh] at hown
    cases hown
  · simp only [readQueueOf, update_self, List.mem_append, List.mem_singleton] at hf
    rcases hf with hf | rfl
    · obtain ⟨q, hown, hq⟩ := h.nodes f hf
      exact ⟨q, PageStack.update_owner_fresh hfresh hown,
        hwaits q _ (fun hqp => hno f.page (hqp ▸ hown)) hq⟩
    · exact ⟨p, update_self _ _ _, hself⟩
  · rcases hnode a q ha with ⟨-, rfl⟩ | ⟨ha', hqp⟩
    · exact ⟨r, hself⟩
    · obtain ⟨r', hr'⟩ := h.waits a q ha'
      exact ⟨r', hwaits q r' hqp hr'⟩
  · rcases hnode a q ha with ⟨rfl, rfl⟩ | ⟨ha', hqp⟩
    · rcases hnode b _ hb with ⟨rfl, -⟩ | ⟨-, hqp⟩
      · rfl
      · exact absurd rfl hqp
    · rcases hnode b q hb with ⟨-, rfl⟩ | ⟨hb', -⟩
      · exact absurd rfl hqp
      · exact h.single a b q ha' hb'
  · have hold : (s.point q).request = some r' := by
      by_cases hqp : q = p
      · simp only [hqp, update_self] at hq
        cases hq
        rw [hqp, hp]
        rfl
      · simpa only [update_of_ne hqp] using hq
    obtain ⟨hown, hreq⟩ := h.request q r' hold
    exact ⟨PageStack.update_owner_fresh hfresh hown, hreq⟩

/-- The reader blocks itself. -/
theorem block (h : CallsInv key own s) (hp : s.point s.k.getCurrentProcess = .queued r) :
    CallsInv key own ⟨{ s.k with
        processes := Procs.blockProcess s.k.processes (s.k.readRequests r).readerP },
      update s.point s.k.getCurrentProcess (.yielding r)⟩ := by
  set p := s.k.getCurrentProcess with hpdef
  have hrequest : (s.point p).request = some r := by
    rw [hp]
    rfl
  obtain ⟨-, hreader, hnull, -, -⟩ := h.request p r hrequest
  rw [hreader]
  have hblocked := Procs.isBlockedProcess_block hnull (h.alive p)
  have hwaits : ∀ q r', Waits s q r' → Waits ⟨{ s.k with
      processes := Procs.blockProcess s.k.processes p }, update s.point p (.yielding r)⟩ q r' := by
    intro q r' hq
    unfold Waits
    by_cases hqp : q = p
    · have hr' := hq.request
      rw [hqp, hrequest] at hr'
      cases hr'
      simp only [hqp, update_self, hblocked]
      exact Or.inr ⟨trivial, trivial⟩
    · simp only [update_of_ne hqp, hblocked]
      exact hq
  refine { h with
    alive := fun q hdel => h.alive q (Procs.blockProcess_delete_iff.mp hdel)
    nodes := fun f hf => ?_
    waits := fun a q ha => ?_
    request := fun q r' hq => ?_ }
  · obtain ⟨q, hown, hq⟩ := h.nodes f hf
    exact ⟨q, hown, hwaits q _ hq⟩
  · obtain ⟨r', hr'⟩ := h.waits a q ha
    exact ⟨r', hwaits q r' hr'⟩
  · by_cases hqp : q = p
    · simp only [hqp, update_self] at hq
      cases hq
      rw [hqp]
      exact h.request p r hrequest
    · simp only [update_of_ne hqp] at hq
      exact h.request q r' hq

/-- The reader gives the page of its request back. -/
theorem collect {waited : Bool} (h : CallsInv key own s) (hno : ∀ a, own a ≠ some (.node p))
    (hp : s.point p = .collecting r waited) :
    own r ≠ none ∧
    CallsInv key (update own r none) ⟨s.k.storePage r, update s.point p .idle⟩ := by
  have hrequest : (s.point p).request = some r := by
    rw [hp]
    rfl
  have hown := (h.request p r hrequest).1
  have hsome : own r ≠ none := by
    rw [hown]
    simp
  have hidle := h.goto .idle hno fun a ha => nomatch ha
  have hkeep : ∀ a w, w ≠ .request p → own a = some w → update own r none a = some w :=
    fun a w hw ha => PageStack.update_owner_other hown ha hw.symm
  have hback : ∀ a w, update own r none a = some w → own a = some w :=
    fun a w ha => (PageStack.owner_of_update ha (by simp)).1
  refine ⟨hsome, { hidle with
    pages := h.pages.storePage hsome
    header := ⟨h.header.1, fun hopen => hkeep _ _ (by simp) (h.header.2 hopen)⟩
    nodes := fun f hf => ?_
    waits := fun a q ha => hidle.waits a q (hback a _ ha)
    single := fun a b q ha hb => h.single a b q (hback a _ ha) (hback b _ hb)
    request := fun q r' hq => ?_ }⟩
  · obtain ⟨q, hfown, hq⟩ := hidle.nodes f hf
    exact ⟨q, hkeep _ _ (by simp) hfown, hq⟩
  · have hqp : q ≠ p := by
      rintro rfl
      simp only [update_self] at hq
      cases hq
    obtain ⟨hr', hreq⟩ := hidle.request q r' hq
    refine ⟨hkeep _ _ ?_ hr', hreq⟩
    intro he
    cases he
    exact hqp rfl

/-! ## The loops -/

/-- One turn of `send_to_readers`. -/
theorem turn {f : QueueNode} {n : Int} (h : CallsInv key own s) (hturn : Turn key f n s.k k') :
    CallsInv key (PageStack.ledger .kernel own s.k.pages k'.pages) { s with k := k' } ∧
      ∀ a ∈ s.k.pages.free, a ∈ k'.pages.free := by
  have hs := hturn.serviceable h.serviceable
  obtain ⟨-, -, c, rest, memory, hq, hc, -, -, rfl⟩ := hturn
  obtain ⟨hsome, htake⟩ := h.take hq
  refine ⟨?_, fun a ha => ?_⟩
  · rw [PageStack.ledger_storePage h.pages hsome]
    refine htake.quiet ⟨rfl, fun _ => rfl, rfl, rfl, ?_, ?_, fun r => ?_⟩ hs.buffer
    · simp only [update_self]
    · simp only [update_self]
    · by_cases hr : r = f.elem
      · exact ⟨n, by simp only [hr, update_self]⟩
      · exact ⟨_, by simp only [update_of_ne hr]; rfl⟩
  · rw [h.pages.free_storePage hsome]
    exact List.mem_cons_of_mem _ ha

theorem turns {served : List (QueueNode × Int)} (h : CallsInv key own s)
    (hturns : Turns key served s.k k') :
    CallsInv key (PageStack.ledger .kernel own s.k.pages k'.pages) { s with k := k' } ∧
      ∀ a ∈ s.k.pages.free, a ∈ k'.pages.free := by
  generalize hk : s.k = k at hturns
  induction hturns generalizing s own with
  | done k =>
      subst hk
      rw [PageStack.ledger_self h.pages]
      exact ⟨h, fun a ha => ha⟩
  | turn hturn _ ih =>
      subst hk
      obtain ⟨h₁, hfree₁⟩ := h.turn hturn
      obtain ⟨h₂, hfree₂⟩ := ih h₁ rfl
      rw [PageStack.ledger_trans FifoUse.kernel (Or.inr hfree₂)]
      exact ⟨h₂, fun a ha => hfree₂ a (hfree₁ a ha)⟩

/-- The section of `fifo_write`. -/
theorem writeSection {source : Nat → UInt8} {bytes n : Int} (h : CallsInv key own s)
    (hpos : 0 < bytes) (hint : bytes < 2 ^ 31)
    (hw : s.k.writeSection key source bytes = some (n, k')) :
    CallsInv key (PageStack.ledger .kernel own s.k.pages k'.pages) { s with k := k' } := by
  obtain ⟨-, -, c, served, hc, -, -, hturns, -⟩ := writeSection_turns h.serviceable hpos hint hw
  have hfifo : (s.k.withBuffer key c).openFifos key = { s.k.openFifos key with cBuffer := c } :=
    update_self _ _ _
  have hquiet : Quiet key s.k (s.k.withBuffer key c) :=
    ⟨rfl, fun _ => rfl, rfl, rfl, by rw [hfifo], by rw [hfifo], fun _ => ⟨_, rfl⟩⟩
  exact ((h.quiet hquiet (by rw [hfifo]; exact hc)).turns hturns).1

/-- `release_readers` -/
theorem releaseReaders {fuel : Nat} (h : CallsInv key own s)
    (hrel : s.k.releaseReaders fuel (s.k.readQueueOf key) = some k') :
    CallsInv key (PageStack.ledger .kernel own s.k.pages k'.pages) { s with k := k' } ∧
      (∀ a ∈ s.k.pages.free, a ∈ k'.pages.free) ∧ k'.openFifos = s.k.openFifos ∧
      k'.queues (s.k.readQueueOf key) = [] := by
  induction fuel generalizing s own with
  | zero => cases hrel
  | succ fuel ih =>
      rw [Kernel.releaseReaders] at hrel
      split at hrel
      next hempty =>
        cases hrel
        rw [PageStack.ledger_self h.pages]
        exact ⟨h, fun a ha => ha, rfl, hempty.resolve_left h.header.1⟩
      next hne =>
        obtain ⟨⟨r, k₁⟩, hdeq, hrel⟩ := Option.bind_eq_some_iff.mp hrel
        obtain ⟨hnull, hcons⟩ := not_or.mp hne
        obtain ⟨f, rest, hf⟩ := List.exists_cons_of_ne_nil hcons
        obtain ⟨rfl, rfl⟩ := dequeue_cons hnull hf hdeq
        obtain ⟨hsome, htake⟩ := h.take hf
        rw [← PageStack.ledger_storePage h.pages hsome .kernel] at htake
        obtain ⟨h₂, hfree₂, hfifos, hempty⟩ := ih htake hrel
        refine ⟨?_, fun a ha => hfree₂ a ?_, hfifos, hempty⟩
        · rw [PageStack.ledger_trans FifoUse.kernel (Or.inr hfree₂)]
          exact h₂
        · simp only [h.pages.free_storePage hsome]
          exact List.mem_cons_of_mem _ ha

/-- The empty queue is given back, and the fifo is closed. -/
theorem shut (h : CallsInv key own s) (hopen : (s.k.openFifos key).state = .opened)
    (hempty : s.k.queues (s.k.readQueueOf key) = []) :
    CallsInv key (PageStack.ledger .kernel own s.k.pages
      (s.k.pages.storePage (s.k.readQueueOf key)))
      ⟨(s.k.storePage (s.k.readQueueOf key)).writeFifo key fun f => { f with state := .closed },
        s.point⟩ := by
  have hown := h.header.2 hopen
  have hsome : own (s.k.readQueueOf key) ≠ none := by
    rw [hown]
    simp
  have hfifo : ((s.k.storePage (s.k.readQueueOf key)).writeFifo key
      fun f => { f with state := .closed }).openFifos key =
      { s.k.openFifos key with state := .closed } := update_self _ _ _
  have hsame : ((s.k.storePage (s.k.readQueueOf key)).writeFifo key
      fun f => { f with state := .closed }).readQueueOf key = s.k.readQueueOf key :=
    (congrArg Fifo.readQueue hfifo).trans rfl
  have hqueue : ((s.k.storePage (s.k.readQueueOf key)).writeFifo key
      fun f => { f with state := .closed }).queues (((s.k.storePage (s.k.readQueueOf key)).writeFifo
        key fun f => { f with state := .closed }).readQueueOf key) = [] := by
    rw [hsame]
    exact hempty
  have hkeep : ∀ a w, w ≠ FifoUse.kernel → own a = some w →
      update own (s.k.readQueueOf key) none a = some w :=
    fun a w hw ha => PageStack.update_owner_other hown ha hw.symm
  have hback : ∀ a w, update own (s.k.readQueueOf key) none a = some w → own a = some w :=
    fun a w ha => (PageStack.owner_of_update ha (by simp)).1
  rw [PageStack.ledger_storePage h.pages hsome]
  refine { h with
    pages := h.pages.storePage hsome
    header := ?_
    nodup := ?_
    nodes := fun f hf => ?_
    waits := fun a q ha => h.waits a q (hback a _ ha)
    single := fun a b q ha hb => h.single a b q (hback a _ ha) (hback b _ hb)
    request := fun q r hq => ?_
    buffer := ?_ }
  · rw [hsame, hfifo]
    exact ⟨h.header.1, fun hc => nomatch hc⟩
  · rw [hqueue]
    exact List.nodup_nil
  · rw [hqueue] at hf
    cases hf
  · obtain ⟨hr, hreq⟩ := h.request q r hq
    exact ⟨hkeep _ _ (by simp) hr, hreq⟩
  · simp only [hfifo]
    exact h.buffer

/-- `fifo_close` -/
theorem close {n : Int} (h : CallsInv key own s) (hc : s.k.fifoClose key = some (n, k')) :
    CallsInv key (PageStack.ledger .kernel own s.k.pages k'.pages) { s with k := k' } := by
  unfold fifoClose at hc
  split at hc
  next hisOpen =>
    obtain ⟨k₁, hrel, hc⟩ := Option.bind_eq_some_iff.mp hc
    obtain ⟨k₂, hdestroy, hc⟩ := Option.map_eq_some_iff.mp hc
    cases hc
    obtain ⟨h₁, hfree, hfifos, hempty⟩ := h.releaseReaders hrel
    have hopen : (k₁.openFifos key).state = .opened := by
      rw [hfifos]
      exact hisOpen.2.1
    have hsame : (s.k.openFifos key).readQueue = k₁.readQueueOf key := by
      rw [readQueueOf, hfifos]
    rw [readQueueOf, hsame] at hempty
    rw [hsame] at hdestroy
    rw [destroyQueue_isEmpty (Or.inr hempty)] at hdestroy
    obtain ⟨-, hdestroy⟩ := Option.ite_none_right_eq_some.mp hdestroy
    cases hdestroy
    have h₂ := h₁.shut hopen hempty
    have hown : PageStack.ledger .kernel own s.k.pages k₁.pages (k₁.readQueueOf key) ≠ none := by
      rw [h₁.header.2 hopen]
      simp
    have hmore : ∀ a ∈ k₁.pages.free,
        a ∈ (k₁.pages.storePage (k₁.readQueueOf key)).free := by
      intro a ha
      rw [h₁.pages.free_storePage hown]
      exact List.mem_cons_of_mem _ ha
    simp only [writeFifo, Kernel.storePage]
    rw [PageStack.ledger_trans FifoUse.kernel (Or.inr hmore)]
    exact h₂
  next =>
    cases hc
    rw [PageStack.ledger_self h.pages]
    exact h

end CallsInv

/-! ## Every step -/

/-- What the running process takes a page for in the step. -/
def useOf (s : FifoRun) : FifoAction → FifoUse
  | .advance =>
      match s.point s.k.getCurrentProcess with
      | .entered _ _ _ => .request s.k.getCurrentProcess
      | .requested _ => .node s.k.getCurrentProcess
      | _ => .kernel
  | _ => .kernel

namespace CallsInv

/-- The section of `fifo_read`. -/
theorem readSection {b : Bool} (h : CallsInv key own s)
    (hp : s.point s.k.getCurrentProcess = .requested r)
    (hr : s.k.readSection key r = some (b, k')) :
    CallsInv key (PageStack.ledger (.node s.k.getCurrentProcess) own s.k.pages k'.pages)
      ⟨k', update s.point s.k.getCurrentProcess (if b then .testing r false else .queued r)⟩ := by
  obtain ⟨⟨couldRead, k₁⟩, hattempt, hrest⟩ := Option.bind_eq_some_iff.mp hr
  have hrequest : (s.point s.k.getCurrentProcess).request = some r := by
    rw [hp]
    rfl
  have hreq := (h.request _ _ hrequest).2
  have hquiet : Quiet key s.k k₁ ∧ (k₁.openFifos key).cBuffer.Inv := by
    split at hattempt
    next =>
      refine ⟨tryRead_quiet hattempt, ?_⟩
      by_cases hfill : 0 < s.k.fillOf key
      · obtain ⟨c, memory, hc, -, -, htry⟩ := tryRead_spec h.buffer hreq.fifo hreq.pos hfill
        rw [htry] at hattempt
        cases hattempt
        simpa only [update_self] using hc
      · rw [tryRead_empty hreq.fifo (Int.not_lt.mp hfill)] at hattempt
        cases hattempt
        exact h.buffer
    next =>
      cases hattempt
      exact ⟨⟨rfl, fun _ => rfl, rfl, rfl, rfl, rfl, fun _ => ⟨_, rfl⟩⟩, h.buffer⟩
  obtain ⟨hquiet, hbuffer⟩ := hquiet
  have h₁ := h.quiet hquiet hbuffer
  have hp₁ : s.point k₁.getCurrentProcess = .requested r := by
    rw [hquiet.current]
    exact hp
  rw [← hquiet.current, ← hquiet.pages]
  cases couldRead with
  | true =>
      simp only [if_true, Option.some.injEq, Prod.mk.injEq] at hrest
      obtain ⟨rfl, rfl⟩ := hrest
      rw [PageStack.ledger_self h₁.pages]
      refine h₁.goto (.testing r false) (h₁.noNode fun r' hw => ?_) fun a ha => ?_
      · rcases hw with hw | ⟨hw, -⟩ <;> rw [hp₁] at hw <;> cases hw
      · rw [hp₁]
        exact ha
  | false =>
      simp only [Bool.false_eq_true, if_false] at hrest
      obtain ⟨k₂, henq, he⟩ := Option.map_eq_some_iff.mp hrest
      cases he
      have hsame : (s.k.openFifos key).readQueue = k₁.readQueueOf key := hquiet.queue.symm
      rw [hsame] at henq
      obtain ⟨page, hget, h₂⟩ := h₁.enqueue hp₁ henq
      rw [PageStack.ledger_getPage h₁.pages hget]
      exact h₂

/-- The running process is in a call and does its next statement. -/
theorem advance {pt : FifoPoint} (h : CallsInv key own s)
    (hint : ∀ source bytes, s.point s.k.getCurrentProcess = .writing source bytes →
      0 < bytes ∧ bytes < 2 ^ 31)
    (ha : fifoAdvance key s.k s.k.getCurrentProcess (s.point s.k.getCurrentProcess) =
      some (pt, k')) :
    CallsInv key (PageStack.ledger (useOf s .advance) own s.k.pages k'.pages)
      ⟨k', update s.point s.k.getCurrentProcess pt⟩ := by
  have hno : (∀ r, s.point s.k.getCurrentProcess ≠ .queued r) →
      (∀ r, s.point s.k.getCurrentProcess ≠ .yielding r) →
      ∀ a, own a ≠ some (.node s.k.getCurrentProcess) := by
    intro hq hy
    refine h.noNode fun r hw => ?_
    rcases hw with hw | ⟨hw, -⟩
    · exact hq r hw
    · exact hy r hw
  cases hp : s.point s.k.getCurrentProcess with
  | idle =>
      rw [hp] at ha
      cases ha
  | entered buf bytes =>
      rw [hp] at ha
      obtain ⟨⟨r, k₁⟩, hr, he⟩ := Option.map_eq_some_iff.mp ha
      cases he
      obtain ⟨hget, h₁⟩ := h.createRequest hp hr
      simp only [useOf, hp]
      rw [PageStack.ledger_getPage h.pages hget]
      exact h₁
  | requested r =>
      rw [hp] at ha
      obtain ⟨⟨b, k₁⟩, hr, he⟩ := Option.map_eq_some_iff.mp ha
      cases he
      simp only [useOf, hp]
      exact h.readSection hp hr
  | queued r =>
      rw [hp] at ha
      cases ha
      rw [PageStack.ledger_self h.pages]
      exact h.block hp
  | yielding r =>
      rw [hp] at ha
      simp only [fifoAdvance] at ha
      split at ha
      next => cases ha
      next hb =>
        cases ha
        rw [PageStack.ledger_self h.pages]
        refine h.goto _ (h.noNode fun r' hw => ?_) fun a ha => ?_
        · rcases hw with hw | ⟨-, hw⟩
          · rw [hp] at hw
            cases hw
          · exact hb hw
        · rw [hp]
          exact ha
  | testing r waited =>
      rw [hp] at ha
      cases ha
      rw [PageStack.ledger_self h.pages]
      refine h.goto _ (hno (by simp [hp]) (by simp [hp])) fun a ha => ?_
      rw [hp]
      split at ha
      · exact ha
      · cases ha
  | collecting r waited =>
      rw [hp] at ha
      cases ha
      obtain ⟨hsome, h₁⟩ := h.collect (hno (by simp [hp]) (by simp [hp])) hp
      simp only [Kernel.storePage] at h₁ ⊢
      rw [PageStack.ledger_storePage h.pages hsome]
      exact h₁
  | writing source bytes =>
      rw [hp] at ha
      obtain ⟨⟨n, k₁⟩, hw, he⟩ := Option.map_eq_some_iff.mp ha
      cases he
      obtain ⟨hpos, hint⟩ := hint source bytes hp
      simp only [useOf, hp]
      have h₁ := h.writeSection hpos hint hw
      refine h₁.goto .idle (h₁.noNode fun r hwaits => ?_) fun a ha => ?_
      · rcases hwaits with hwaits | ⟨hwaits, -⟩ <;> rw [hp] at hwaits <;> cases hwaits
      · cases ha

end CallsInv

/-- The writers write a positive `int` of bytes. -/
def CountsOk (s : FifoRun) : Prop :=
  ∀ p source bytes, s.point p = .writing source bytes → 0 < bytes ∧ bytes < 2 ^ 31

theorem writing_update {P : Int → Prop} {point : Addr → FifoPoint} {pt : FifoPoint}
    (h : ∀ q source bytes, point q = .writing source bytes → P bytes)
    (hpt : ∀ source bytes, pt = .writing source bytes → P bytes) (p : Addr) :
    ∀ q source bytes, update point p pt q = .writing source bytes → P bytes := by
  intro q source bytes hq
  by_cases hqp : q = p
  · rw [hqp, update_self] at hq
    exact hpt source bytes hq
  · rw [update_of_ne hqp] at hq
    exact h q source bytes hq

theorem CountsOk.update (h : CountsOk s) {pt : FifoPoint}
    (hpt : ∀ source bytes, pt = .writing source bytes → 0 < bytes ∧ bytes < 2 ^ 31) :
    CountsOk ⟨k', update s.point p pt⟩ :=
  writing_update h hpt p

/-- A call goes on to no call of `fifo_write`. -/
theorem fifoAdvance_not_writing {pt pt' : FifoPoint} {source : Nat → UInt8} {bytes : Int}
    (ha : fifoAdvance key k p pt = some (pt', k')) : pt' ≠ .writing source bytes := by
  rintro rfl
  cases pt with
  | idle => cases ha
  | entered buf bytes pos =>
      obtain ⟨x, -, he⟩ := Option.map_eq_some_iff.mp ha
      cases he
  | requested r =>
      obtain ⟨⟨b, k₁⟩, -, he⟩ := Option.map_eq_some_iff.mp ha
      cases b <;> cases he
  | queued r => cases ha
  | yielding r =>
      simp only [fifoAdvance] at ha
      split at ha <;> cases ha
  | testing r waited =>
      simp only [fifoAdvance] at ha
      split at ha <;> cases ha
  | collecting r waited => cases ha
  | writing source bytes =>
      obtain ⟨x, -, he⟩ := Option.map_eq_some_iff.mp ha
      cases he

/-- What one step can do. -/
inductive FifoStep (key : Int) (s : FifoRun) : FifoAction → FifoRun → Prop where
  | dispatch {node : Addr} (ready : s.k.Dispatchable node) :
      FifoStep key s (.dispatch node) { s with k := { s.k with current := node } }
  | openName {name : CString} {i : Int} {k : Kernel} (does : s.k.fifoOpen name = some (i, k)) :
      FifoStep key s (.openName name) { s with k }
  | read {buf : Addr} {bytes : Int} (idle : s.point s.k.getCurrentProcess = .idle)
      (opened : s.k.fifoIsOpen key) (pos : 0 < bytes) (int : bytes < 2 ^ 31) :
      FifoStep key s (.read buf bytes)
        { s with point := update s.point s.k.getCurrentProcess (.entered buf bytes pos) }
  | write {source : Nat → UInt8} {bytes : Int} (idle : s.point s.k.getCurrentProcess = .idle)
      (opened : s.k.fifoIsOpen key) (pos : 0 < bytes) (int : bytes < 2 ^ 31) :
      FifoStep key s (.write source bytes)
        { s with point := update s.point s.k.getCurrentProcess (.writing source bytes) }
  | close {n : Int} {k : Kernel} (idle : s.point s.k.getCurrentProcess = .idle)
      (does : s.k.fifoClose key = some (n, k)) : FifoStep key s .close { s with k }
  | advance {pt : FifoPoint} {k : Kernel}
      (does : fifoAdvance key s.k s.k.getCurrentProcess (s.point s.k.getCurrentProcess) =
        some (pt, k)) :
      FifoStep key s .advance ⟨k, update s.point s.k.getCurrentProcess pt⟩
  | status {call : StatusCall} {p : Addr} (idle : s.point p = .idle) (spares : call ≠ .kill) :
      FifoStep key s (.status call p) { s with k := s.k.applyStatus call p }

theorem fifoStep_of_next {a : FifoAction} (hn : (fifoCallSystem key).next s a = some t) :
    FifoStep key s a t := by
  simp only [fifoCallSystem] at hn
  split at hn
  next hint =>
    cases a with
    | dispatch node =>
        simp only [fifoSystem] at hn
        split at hn
        next hready =>
          cases hn
          exact .dispatch hready
        next => cases hn
    | openName name =>
        obtain ⟨⟨i, k⟩, ho, rfl⟩ := Option.map_eq_some_iff.mp hn
        exact .openName ho
    | read buf bytes =>
        simp only [fifoSystem] at hn
        split at hn
        next hp =>
          split at hn
          next hopen =>
            cases hn
            exact .read hp hopen.1 hopen.2 hint
          next => cases hn
        next => cases hn
    | write source bytes =>
        simp only [fifoSystem] at hn
        split at hn
        next hp =>
          split at hn
          next hopen =>
            cases hn
            exact .write hp hopen.1 hopen.2 hint
          next => cases hn
        next => cases hn
    | close =>
        simp only [fifoSystem] at hn
        split at hn
        next hp =>
          obtain ⟨⟨n, k⟩, hc, rfl⟩ := Option.map_eq_some_iff.mp hn
          exact .close hp hc
        next => cases hn
    | advance =>
        obtain ⟨⟨pt, k⟩, ha, rfl⟩ := Option.map_eq_some_iff.mp hn
        exact .advance ha
    | status call p =>
        simp only [fifoSystem] at hn
        split at hn
        next hp =>
          split at hn
          next => cases hn
          next hcall =>
            cases hn
            exact .status hp hcall
        next => cases hn
  next => cases hn

/-- A process that is in no call owns no node. -/
theorem CallsInv.noNode_of_idle (h : CallsInv key own s) (hp : s.point p = .idle) (a : Addr) :
    own a ≠ some (.node p) := by
  refine h.noNode (fun r hw => ?_) a
  have hreq := hw.request
  rw [hp] at hreq
  cases hreq

/-- Every step keeps the invariant, with the pages as the allocator's ledger has
them. -/
theorem CallsInv.next {a : FifoAction} (h : CallsInv key own s) (hcounts : CountsOk s)
    (hn : (fifoCallSystem key).next s a = some t) :
    CallsInv key (PageStack.ledger (useOf s a) own s.k.pages t.k.pages) t ∧ CountsOk t := by
  cases fifoStep_of_next hn with
  | dispatch hready =>
      rw [PageStack.ledger_self h.pages]
      exact ⟨h.dispatch hready, hcounts⟩
  | openName ho => exact ⟨h.openName ho, hcounts⟩
  | read hp _ pos hint =>
      rw [PageStack.ledger_self h.pages]
      exact ⟨h.goto _ (h.noNode_of_idle hp) (fun a ha => nomatch ha),
        hcounts.update fun _ _ he => nomatch he⟩
  | write hp _ pos hint =>
      rw [PageStack.ledger_self h.pages]
      refine ⟨h.goto _ (h.noNode_of_idle hp) (fun a ha => nomatch ha),
        hcounts.update fun _ _ he => ?_⟩
      cases he
      exact ⟨pos, hint⟩
  | close _ hc => exact ⟨h.close hc, hcounts⟩
  | advance ha =>
      exact ⟨h.advance (hcounts _) ha,
        hcounts.update fun _ _ he => absurd he (fifoAdvance_not_writing ha)⟩
  | status hp hcall =>
      have hledger := PageStack.ledger_self h.pages FifoUse.kernel
      exact ⟨hledger.symm ▸ h.status hp hcall, hcounts⟩

/-- `mutex_open` takes the page of the mutex's queue, if it opens a mutex. -/
theorem ownedBy_mutexOpen {name : CString} {lock : Int} (h : k.pages.OwnedBy own)
    (ho : k.mutexOpen name = some (lock, k')) :
    k'.pages.OwnedBy (PageStack.ledger .kernel own k.pages k'.pages) ∧
      ∀ a ∈ k'.pages.free, a ∈ k.pages.free := by
  unfold mutexOpen at ho
  split at ho
  · cases ho
    rw [PageStack.ledger_self h]
    exact ⟨h, fun a ha => ha⟩
  · cases ho
    rw [PageStack.ledger_self h]
    exact ⟨h, fun a ha => ha⟩
  · obtain ⟨⟨q, k₁⟩, hq, he⟩ := Option.map_eq_some_iff.mp ho
    obtain ⟨pages, hget, rfl⟩ := createQueue_spec hq
    cases he
    refine ⟨?_, fun a ha => ?_⟩
    · show pages.OwnedBy (PageStack.ledger .kernel own k.pages pages)
      rw [PageStack.ledger_getPage h hget]
      exact (h.getPage hget .kernel).2
    · rw [PageStack.free_of_getPage hget]
      exact List.mem_cons_of_mem _ ha

/-- The start of a run, with the pages that the first `fifo_open` took. -/
theorem callsInv_of_open {name : CString} {i : Nat} (hsearch : k.fifoSearch name = .closed i)
    (hopen : k.fifoOpen name = some (key, s.k))
    (hpages : k.pages.OwnedBy fun _ => (none : Option FifoUse))
    (halive : ∀ p, (s.k.processes p).st ≠ .delete) (hrun : s.k.getCurrentProcess ≠ null)
    (hidle : ∀ p, s.point p = .idle) :
    CallsInv key (PageStack.ledger .kernel (fun _ => none) k.pages s.k.pages) s := by
  have hnode : ∀ t a p, PageStack.ledger FifoUse.kernel (fun _ => none) k.pages t a ≠
      some (.node p) := by
    intro t a p ha
    unfold PageStack.ledger at ha
    split at ha
    · cases ha
    · split at ha <;> cases ha
  obtain ⟨rfl, lock, k₁, q, hlock, hget, hempty, hfifo⟩ := fifoOpen_new hsearch hopen
  have h₁ := ownedBy_mutexOpen hpages hlock
  have hread : s.k.readQueueOf i = q := by rw [readQueueOf, hfifo]
  have hledger : PageStack.ledger FifoUse.kernel (fun _ => none) k.pages s.k.pages =
      update (PageStack.ledger .kernel (fun _ => none) k.pages k₁.pages) q (some .kernel) :=
    (PageStack.ledger_trans FifoUse.kernel (Or.inl h₁.2)).trans
      (PageStack.ledger_getPage h₁.1 hget FifoUse.kernel)
  have hown := (h₁.1.getPage hget .kernel).2
  refine ⟨hrun, halive, ?_, ⟨?_, fun _ => ?_⟩, ?_, fun f hf => ?_,
    fun a p ha => absurd ha (hnode _ a p), fun a _ p ha => absurd ha (hnode _ a p),
    fun p r hp => ?_, ?_⟩
  · rw [hledger]
    exact hown
  · rw [hread]
    exact hown.ne_null (by simp)
  · rw [hread, hledger]
    exact update_self _ _ _
  · rw [hread, hempty]
    exact List.nodup_nil
  · rw [hread, hempty] at hf
    cases hf
  · rw [hidle] at hp
    cases hp
  · rw [hfifo]
    exact CircularBuffer.create_inv _

/-- Every reachable state has an owner for each page. -/
theorem callsInv_of_reach (h : (fifoCallSystem key).Reach s) :
    (∃ own, CallsInv key own s) ∧ CountsOk s := by
  refine System.ReachBy.invariant (I := fun s => (∃ own, CallsInv key own s) ∧ CountsOk s)
    (fun s hs => ?_) (fun s a t hi _ hn => ?_) h
  · obtain ⟨k, name, i, hsearch, hopen, hpages, halive, hrun, hidle⟩ := hs
    refine ⟨⟨_, callsInv_of_open hsearch hopen hpages halive hrun hidle⟩,
      fun p source bytes hp => ?_⟩
    rw [hidle] at hp
    cases hp
  · obtain ⟨⟨own, hown⟩, hcounts⟩ := hi
    obtain ⟨hnext, hcounts'⟩ := hown.next hcounts hn
    exact ⟨⟨_, hnext⟩, hcounts'⟩

/-! ## A fifo that was just opened -/

theorem ownedBy_twoProcesses : twoProcesses.pages.OwnedBy fun _ => (none : Option FifoUse) :=
  PageStack.ownedBy_initial

theorem fifoOpened_open : twoProcesses.fifoOpen .nil = some (0, fifoOpened.k) := by
  rw [← Option.some_get fifoOpen_twoProcesses]
  exact congrArg some (Prod.ext (by decide +kernel) rfl)

theorem fifoOpened_alive (p : Addr) : (fifoOpened.k.processes p).st ≠ .delete := by
  rw [fifoOpen_st fifoOpened_open p]
  show (Process.zero).st ≠ .delete
  decide

theorem init_fifoCallSystem : (fifoCallSystem 0).init fifoOpened :=
  ⟨twoProcesses, .nil, 0, by decide +kernel, fifoOpened_open, ownedBy_twoProcesses,
    fifoOpened_alive, by decide +kernel, fun _ => rfl⟩

end Kernel

end TPE
