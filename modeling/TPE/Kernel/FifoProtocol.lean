import Mathlib.Algebra.Order.BigOperators.Group.List
import Mathlib.Algebra.Order.Group.Int
import TPE.Library.Runs
import TPE.Library.WaitQueue
import TPE.Kernel.Fifo

/-!
# One fifo and its processes

Any number of processes read from and write to one fifo, with a switch possible
between any two statements.  Each section under the fifo's mutex is one step.

A reader whose request is queued gives the mutex back and then blocks itself.
A writer in between serves the request and wakes up a reader that is not
blocked, and the reader blocks for good.  `ServesBlocked` rules that out.
-/

namespace TPE

open Function

namespace Kernel

/-- The next statement of a process in `fifo_read` or `fifo_write`. -/
inductive FifoPoint where
  | idle
  /-- `fifo_read` after its tests: `create_read_request`. -/
  | entered (buf : Addr) (bytes : Int) (pos : 0 < bytes)
  /-- The section of `fifo_read`. -/
  | requested (r : Addr)
  /-- `block_process` -/
  | queued (r : Addr)
  /-- `yield_process` -/
  | yielding (r : Addr)
  /-- The second test of `is_open`.  `waited` says whether the process blocked itself. -/
  | testing (r : Addr) (waited : Bool)
  /-- `store_page` -/
  | collecting (r : Addr) (waited : Bool)
  /-- `fifo_write` after its tests: its section. -/
  | writing (source : Nat → UInt8) (bytes : Int)

namespace FifoPoint

/-- The page of the process's read request. -/
def request : FifoPoint → Option Addr
  | .requested r => some r
  | .queued r => some r
  | .yielding r => some r
  | .testing r _ => some r
  | .collecting r _ => some r
  | _ => none

/-- How far the process is with its request. -/
def stage : FifoPoint → Stage Addr
  | .queued r => .registered r
  | .yielding r => .waiting r
  | _ => .out

/-- After `block_process` and before the return of `fifo_read`. -/
def pastBlock : FifoPoint → Option Addr
  | .yielding r => some r
  | .testing r true => some r
  | .collecting r true => some r
  | _ => none

/-- Between the tests of a call and the end of its section and its block. -/
def Inside : FifoPoint → Prop
  | .entered _ _ _ => True
  | .requested _ => True
  | .queued _ => True
  | .writing _ _ => True
  | _ => False

theorem request_of_ticket {pt : FifoPoint} {r : Addr} (h : pt.stage.ticket = some r) :
    pt.request = some r := by
  cases pt <;> first | exact h | cases h

end FifoPoint

/-- The kernel with the points of the processes. -/
structure FifoRun where
  k : Kernel
  point : Addr → FifoPoint

/-- What can happen in one step. -/
inductive FifoAction where
  /-- The scheduler dispatches the process of a node. -/
  | dispatch (node : Addr)
  /-- The running process calls `fifo_open`, with any name. -/
  | openName (name : CString)
  /-- The running process calls `fifo_read`. -/
  | read (buf : Addr) (bytes : Int)
  /-- The running process calls `fifo_write`. -/
  | write (source : Nat → UInt8) (bytes : Int)
  /-- The running process calls `fifo_close`. -/
  | close
  /-- The running process does the next statement of its call. -/
  | advance
  /-- The status of a process outside these calls changes. -/
  | status (call : StatusCall) (p : Addr)

/-- The next statement of the process `p`, which runs. -/
def fifoAdvance (key : Int) (k : Kernel) (p : Addr) : FifoPoint → Option (FifoPoint × Kernel)
  | .idle => none
  | .entered buf bytes _ =>
      (k.createReadRequest key buf bytes).map fun (r, k) => (.requested r, k)
  | .requested r =>
      (k.readSection key r).map fun (couldRead, k) =>
        (if couldRead then .testing r false else .queued r, k)
  | .queued r =>
      some (.yielding r,
        { k with processes := Procs.blockProcess k.processes (k.readRequests r).readerP })
  | .yielding r => if k.processes.isBlockedProcess p then none else some (.testing r true, k)
  | .testing r waited => some (if k.fifoIsOpen key then .collecting r waited else .idle, k)
  | .collecting r _ => some (.idle, k.storePage r)
  | .writing source bytes => (k.writeSection key source bytes).map fun (_, k) => (.idle, k)

/-- Processes that open fifos, and read, write and close the one with the key
`key`.  None is killed. -/
def fifoSystem (key : Int) : System FifoRun FifoAction where
  init s := ∃ (k : Kernel) (name : CString) (i : Nat),
    k.fifoSearch name = .closed i ∧ k.fifoOpen name = some (key, s.k) ∧ k.pages.PagesOk ∅ ∧
    (∀ p, (s.k.processes p).st ≠ .delete) ∧ s.k.getCurrentProcess ≠ null ∧ ∀ p, s.point p = .idle
  next
    | s, .dispatch node =>
        if s.k.Dispatchable node then some { s with k := { s.k with current := node } } else none
    | s, .openName name => (s.k.fifoOpen name).map fun (_, k) => { s with k }
    | s, .read buf bytes =>
        match s.point s.k.getCurrentProcess with
        | .idle =>
            if h : s.k.fifoIsOpen key ∧ 0 < bytes then
              some { s with
                point := update s.point s.k.getCurrentProcess (.entered buf bytes h.2) }
            else none
        | _ => none
    | s, .write source bytes =>
        match s.point s.k.getCurrentProcess with
        | .idle =>
            if s.k.fifoIsOpen key ∧ 0 < bytes then
              some { s with point := update s.point s.k.getCurrentProcess (.writing source bytes) }
            else none
        | _ => none
    | s, .close =>
        match s.point s.k.getCurrentProcess with
        | .idle => (s.k.fifoClose key).map fun (_, k) => { s with k }
        | _ => none
    | s, .advance =>
        let p := s.k.getCurrentProcess
        (fifoAdvance key s.k p (s.point p)).map fun (pt, k) => ⟨k, update s.point p pt⟩
    | s, .status call p =>
        match s.point p with
        | .idle => if call = .kill then none else some { s with k := s.k.applyStatus call p }
        | _ => none

/-- `buf_fill` after a write of `bytes` bytes. -/
def fillAfter (c : CircularBuffer) (bytes : Int) : Int :=
  int32 (c.bufFill +
    if int32 (c.bufFill + bytes) > bufSize then int32 (bufSize - c.bufFill) else bytes)

/-- The requests in front of `r` ask for all the `fill` bytes. -/
def OutOfReach (key : Int) (k : Kernel) (fill : Int) (r : Addr) : Prop :=
  ∃ front back, k.elems (k.openFifos key).readQueue = front ++ r :: back ∧
    fill ≤ (front.map fun a => (k.readRequests a).bytes).sum

/-- No wake-up comes before the block.  The bytes of a writer do not get to the
requests of readers that have not blocked themselves yet, and `fifo_close`
meets no call between its tests and its block. -/
def ServesBlocked (key : Int) (s : FifoRun) : FifoAction → Prop
  | .advance => ∀ source bytes, s.point s.k.getCurrentProcess = .writing source bytes →
      ∀ q r, s.point q = .queued r →
        OutOfReach key s.k (fillAfter (s.k.openFifos key).cBuffer bytes) r
  | .close => ∀ q, ¬(s.point q).Inside
  | _ => True

/-! ## The invariant -/

/-- The pages of the fifo's queue, while the fifo is open. -/
def fifoPages (k : Kernel) (key : Int) : List Addr :=
  if (k.openFifos key).state = .opened then
    (k.openFifos key).readQueue ::
      (k.queues (k.openFifos key).readQueue).map QueueNode.page
  else []

/-- A request of the reader `p` to the fifo. -/
structure RequestOf (key : Int) (p : Addr) (req : ReadRequest) : Prop where
  reader : req.readerP = p
  reader_ne : p ≠ null
  fifo : req.f = key
  pos : 0 < req.bytes

/-- The pages of the queue and of the requests are handed out and apart, and a
request names its reader. -/
structure FifoReady (key : Int) (s : FifoRun) : Prop where
  running : s.k.getCurrentProcess ≠ null
  alive : ∀ p, (s.k.processes p).st ≠ .delete
  nodup : (s.k.fifoPages key).Nodup
  pages : s.k.pages.PagesOk {a | a ∈ s.k.fifoPages key ∨ ∃ p, (s.point p).request = some a}
  apart : ∀ p a, (s.point p).request = some a → a ∉ s.k.fifoPages key
  unique : ∀ p q a, (s.point p).request = some a → (s.point q).request = some a → p = q
  reader : ∀ p r, (s.point p).request = some r → RequestOf key p (s.k.readRequests r)
  served : ∀ p r, s.point p = .testing r true ∨ s.point p = .collecting r true →
    ¬s.k.processes.isBlockedProcess p
  elemsNodup : (s.k.elems (s.k.openFifos key).readQueue).Nodup
  closed : (s.k.openFifos key).state = .closed →
    s.k.queues (s.k.openFifos key).readQueue = [] ∧ ∀ p, ¬(s.point p).Inside

/-- The readers as processes that wait for a ticket. -/
def fifoView (key : Int) (s : FifoRun) : WaitState Addr Addr where
  tickets := {r | r ∈ s.k.elems (s.k.openFifos key).readQueue}
  blocked := s.k.processes.isBlockedProcess
  stage p := (s.point p).stage

/-- The invariant of the guarded runs. -/
structure FifoInv (key : Int) (s : FifoRun) : Prop where
  ready : FifoReady key s
  wait : WaitInv (fifoView key s)

variable {key : Int} {s t : FifoRun} {k k' : Kernel}

/-- The other state differs in nothing the invariant reads. -/
structure Quiet (key : Int) (k k' : Kernel) : Prop where
  current : k'.getCurrentProcess = k.getCurrentProcess
  status : ∀ p, (k'.processes p).st = (k.processes p).st
  pages : k'.pages = k.pages
  queues : k'.queues = k.queues
  queue : (k'.openFifos key).readQueue = (k.openFifos key).readQueue
  state : (k'.openFifos key).state = (k.openFifos key).state
  request : ∀ r, ∃ n, k'.readRequests r = { k.readRequests r with bytesRead := n }

theorem Quiet.fifoPages (h : Quiet key k k') : k'.fifoPages key = k.fifoPages key := by
  unfold Kernel.fifoPages
  rw [h.state, h.queue, h.queues]

theorem Quiet.elems (h : Quiet key k k') :
    k'.elems (k'.openFifos key).readQueue = k.elems (k.openFifos key).readQueue := by
  unfold Kernel.elems
  rw [h.queue, h.queues]

theorem Quiet.blocked (h : Quiet key k k') :
    k'.processes.isBlockedProcess = k.processes.isBlockedProcess := by
  funext p
  unfold Procs.isBlockedProcess
  rw [h.status]

theorem FifoInv.quiet (h : FifoInv key s) (hq : Quiet key s.k k') :
    FifoInv key { s with k := k' } := by
  obtain ⟨⟨hrun, halive, hnodup, hpages, hapart, hunique, hreader, hserved, helems, hclosed⟩, hw⟩ := h
  refine ⟨⟨?_, ?_, ?_, ?_, ?_, hunique, ?_, ?_, ?_, ?_⟩, hw.of_eq (WaitState.ext ?_ ?_ rfl)⟩
  · rw [hq.current]
    exact hrun
  · intro p
    rw [hq.status]
    exact halive p
  · rw [hq.fifoPages]
    exact hnodup
  · rw [hq.pages, hq.fifoPages]
    exact hpages
  · rw [hq.fifoPages]
    exact hapart
  · intro p r hp
    obtain ⟨n, hn⟩ := hq.request r
    obtain ⟨hname, hne, hfifo, hpos⟩ := hreader p r hp
    exact ⟨hn ▸ hname, hne, hn ▸ hfifo, hn ▸ hpos⟩
  · rw [hq.blocked]
    exact hserved
  · rw [hq.elems]
    exact helems
  · rw [hq.state, hq.queue, hq.queues]
    exact hclosed
  · simp only [fifoView, hq.elems]
  · exact hq.blocked

theorem stage_update (point : Addr → FifoPoint) (p : Addr) (pt : FifoPoint) :
    (fun q => (update point p pt q).stage) = update (fun q => (point q).stage) p pt.stage := by
  funext q
  by_cases hqp : q = p
  · rw [hqp, update_self, update_self]
  · rw [update_of_ne hqp, update_of_ne hqp]

/-- A process moves on and keeps its request or gives it up. -/
theorem FifoReady.goto (h : FifoReady key s) {p : Addr} (pt : FifoPoint)
    (hrequest : ∀ a, pt.request = some a → (s.point p).request = some a)
    (hserved : ∀ r, pt = .testing r true ∨ pt = .collecting r true →
      ¬s.k.processes.isBlockedProcess p)
    (hinside : (s.k.openFifos key).state = .closed → ¬pt.Inside) :
    FifoReady key { s with point := update s.point p pt } := by
  have hsub : ∀ q a, (update s.point p pt q).request = some a → (s.point q).request = some a := by
    intro q a hq
    by_cases hqp : q = p
    · rw [hqp, update_self] at hq
      rw [hqp]
      exact hrequest a hq
    · rwa [update_of_ne hqp] at hq
  refine { h with
    pages := h.pages.mono ?_
    apart := fun q a hq => h.apart q a (hsub q a hq)
    unique := fun q r a hq hr => h.unique q r a (hsub q a hq) (hsub r a hr)
    reader := fun q r hq => h.reader q r (hsub q r hq)
    served := fun q r hq => ?_
    closed := fun hstate => ⟨(h.closed hstate).1, fun q => ?_⟩ }
  · rintro a (ha | ⟨q, hq⟩)
    · exact Or.inl ha
    · exact Or.inr ⟨q, hsub q a hq⟩
  · by_cases hqp : q = p
    · subst hqp
      simp only [update_self] at hq
      exact hserved r hq
    · simp only [update_of_ne hqp] at hq
      exact h.served q r hq
  · by_cases hqp : q = p
    · simp only [hqp, update_self]
      exact hinside hstate
    · simp only [update_of_ne hqp]
      exact (h.closed hstate).2 q

/-- A process without a ticket moves on to a point without one. -/
theorem FifoInv.goto (h : FifoInv key s) {p : Addr} (pt : FifoPoint)
    (hrequest : ∀ a, pt.request = some a → (s.point p).request = some a)
    (hserved : ∀ r, pt = .testing r true ∨ pt = .collecting r true →
      ¬s.k.processes.isBlockedProcess p)
    (hinside : (s.k.openFifos key).state = .closed → ¬pt.Inside)
    (hold : (s.point p).stage = .out) (hnew : pt.stage = .out) :
    FifoInv key { s with point := update s.point p pt } := by
  refine ⟨h.ready.goto pt hrequest hserved hinside, h.wait.of_eq (WaitState.ext rfl rfl ?_)⟩
  show (fun q => (update s.point p pt q).stage) = fun q => (s.point q).stage
  rw [stage_update, hnew, ← hold]
  exact update_eq_self p fun q => (s.point q).stage

/-! ## One step -/

theorem FifoInv.dispatch {node : Addr} (h : FifoInv key s) (hready : s.k.Dispatchable node) :
    FifoInv key { s with k := { s.k with current := node } } where
  ready := { h.ready with running := fun hnull => hready.1 fun hne => absurd hnull hne }
  wait := h.wait

theorem setFileOpen_quiet (key : Int) (k : Kernel) (p : Addr) (fd : Int) :
    Quiet key k (k.setFileOpen p fd) := by
  unfold setFileOpen
  split
  · exact ⟨rfl, fun _ => rfl, rfl, rfl, rfl, rfl, fun _ => ⟨_, rfl⟩⟩
  · refine ⟨rfl, fun q => ?_, rfl, rfl, rfl, rfl, fun _ => ⟨_, rfl⟩⟩
    by_cases hq : q = p
    · simp only [writeProcess, hq, update_self]
    · simp only [writeProcess, update_of_ne hq]

/-- A page becomes a queue.  It is none of the fifo's. -/
theorem FifoInv.createQueue {q : Addr} (h : FifoInv key s) (hq : s.k.createQueue = some (q, k')) :
    FifoInv key { s with k := k' } := by
  obtain ⟨pages, hpages, rfl⟩ := createQueue_spec hq
  obtain ⟨hfresh, -, hused'⟩ := h.ready.pages.getPage hpages
  rw [Set.mem_ofPred_eq, not_or] at hfresh
  have hsame : update s.k.queues q [] (s.k.openFifos key).readQueue =
      s.k.queues (s.k.openFifos key).readQueue := by
    by_cases he : (s.k.openFifos key).readQueue = q
    · rw [he, update_self, ← he]
      cases hstate : (s.k.openFifos key).state with
      | opened =>
          refine absurd ?_ hfresh.1
          rw [fifoPages, if_pos hstate, he]
          exact List.mem_cons_self
      | closed => exact (h.ready.closed hstate).1.symm
    · exact update_of_ne he _ _
  have hfp : fifoPages { s.k with pages, queues := update s.k.queues q [] } key =
      s.k.fifoPages key := by
    simp only [fifoPages, hsame]
  have helems : elems { s.k with pages, queues := update s.k.queues q [] }
      (s.k.openFifos key).readQueue = s.k.elems (s.k.openFifos key).readQueue := by
    simp only [elems, hsame]
  obtain ⟨⟨hrun, halive, hnodup, hused, hapart, hunique, hreader, hserved, hends, hclosed⟩, hw⟩ := h
  refine ⟨⟨hrun, halive, ?_, ?_, ?_, hunique, hreader, hserved, ?_, ?_⟩,
    hw.of_eq (WaitState.ext ?_ rfl rfl)⟩
  · rw [hfp]
    exact hnodup
  · rw [hfp]
    exact hused'.mono fun a ha => Or.inr ha
  · rw [hfp]
    exact hapart
  · simp only [helems]
    exact hends
  · simp only [hsame]
    exact hclosed
  · simp only [fifoView, helems]

/-- The fifo is opened on a fresh queue. -/
theorem FifoInv.reopen {q : Addr} (h : FifoInv key s) (hq : s.k.createQueue = some (q, k'))
    (hstate : (s.k.openFifos key).state = .closed) {f : Fifo} (hf : f.state = .opened)
    (hfq : f.readQueue = q) : FifoInv key { s with k := k'.writeFifo key fun _ => f } := by
  obtain ⟨pages, hpages, rfl⟩ := createQueue_spec hq
  obtain ⟨hfresh, -, hused'⟩ := h.ready.pages.getPage hpages
  rw [Set.mem_ofPred_eq, not_or] at hfresh
  have hempty := (h.ready.closed hstate).1
  have hfp : fifoPages (writeFifo { s.k with pages, queues := update s.k.queues q [] } key
      fun _ => f) key = [q] := by
    simp only [fifoPages, writeFifo, update_self, hf, hfq, if_true, List.map_nil]
  have helems : elems (writeFifo { s.k with pages, queues := update s.k.queues q [] } key
      fun _ => f) q = [] := by
    simp only [elems, writeFifo, update_self, List.map_nil]
  have hread : ((writeFifo { s.k with pages, queues := update s.k.queues q [] } key
      fun _ => f).openFifos key) = f := update_self _ _ _
  obtain ⟨⟨hrun, halive, hnodup, hused, hapart, hunique, hreader, hserved, hends, hclosed⟩, hw⟩ := h
  refine ⟨⟨hrun, halive, ?_, ?_, ?_, hunique, hreader, hserved, ?_, ?_⟩,
    hw.of_eq (WaitState.ext ?_ rfl rfl)⟩
  · rw [hfp]
    exact List.nodup_singleton q
  · rw [hfp]
    refine hused'.mono ?_
    rintro a (ha | ha)
    · exact Or.inl (List.mem_singleton.mp ha)
    · exact Or.inr (Or.inr ha)
  · rw [hfp]
    intro p a ha hm
    rw [List.mem_singleton.mp hm] at ha
    exact hfresh.2 ⟨p, ha⟩
  · rw [hread, hfq, helems]
    exact List.nodup_nil
  · rw [hread, hf]
    exact fun hc => nomatch hc
  · simp only [fifoView, hread, hfq, helems]
    simp only [elems, hempty, List.map_nil]

/-- `fifo_open` opens this fifo again, or another one, or finds one open. -/
theorem FifoInv.openName {name : CString} {i : Int} (h : FifoInv key s)
    (ho : s.k.fifoOpen name = some (i, k')) : FifoInv key { s with k := k' } := by
  unfold fifoOpen at ho
  split at ho
  · cases ho
    exact h.quiet (setFileOpen_quiet _ _ _ _)
  · cases ho
    exact h
  next j hsearch =>
    obtain ⟨⟨lock, k₁⟩, hlock, ho⟩ := Option.bind_eq_some_iff.mp ho
    obtain ⟨⟨q, k₂⟩, hq, ho⟩ := Option.map_eq_some_iff.mp ho
    cases ho
    have h₁ : FifoInv key { s with k := k₁ } ∧ k₁.openFifos = s.k.openFifos := by
      unfold mutexOpen at hlock
      split at hlock
      · cases hlock
        exact ⟨h, rfl⟩
      · cases hlock
        exact ⟨h, rfl⟩
      · obtain ⟨⟨q', k₀⟩, hq', he⟩ := Option.map_eq_some_iff.mp hlock
        cases he
        refine ⟨(h.createQueue hq').quiet ⟨rfl, fun _ => rfl, rfl, rfl, rfl, rfl, fun _ => ⟨_, rfl⟩⟩, ?_⟩
        obtain ⟨pages, -, rfl⟩ := createQueue_spec hq'
        rfl
    refine FifoInv.quiet (s := { s with k := k₂.writeFifo j fun _ => _ }) ?_
      (setFileOpen_quiet _ _ _ _)
    by_cases hj : (j : Int) = key
    · subst hj
      have hclosed : (k₁.openFifos j).state = .closed := by
        rw [h₁.2]
        cases hstate : (s.k.openFifos j).state with
        | opened => exact absurd hstate (by simpa using (scanFrom_closed hsearch).2)
        | closed => rfl
      exact h₁.1.reopen hq hclosed rfl rfl
    · refine (h₁.1.createQueue hq).quiet ⟨rfl, fun _ => rfl, rfl, rfl, ?_, ?_, fun _ => ⟨_, rfl⟩⟩
      · simp only [writeFifo, update_of_ne (Ne.symm hj)]
      · simp only [writeFifo, update_of_ne (Ne.symm hj)]

theorem FifoInv.opened (h : FifoInv key s) {p : Addr} (hp : (s.point p).Inside) :
    (s.k.openFifos key).state = .opened := by
  cases hstate : (s.k.openFifos key).state with
  | opened => rfl
  | closed => exact absurd hp ((h.ready.closed hstate).2 p)

theorem FifoInv.createRequest (h : FifoInv key s) {buf : Addr} {bytes : Int} {pos : 0 < bytes}
    (hp : s.point s.k.getCurrentProcess = .entered buf bytes pos) {r : Addr}
    (hr : s.k.createReadRequest key buf bytes = some (r, k')) :
    FifoInv key ⟨k', update s.point s.k.getCurrentProcess (.requested r)⟩ := by
  set p := s.k.getCurrentProcess with hpdef
  obtain ⟨⟨a, k₁⟩, hget, he⟩ := Option.map_eq_some_iff.mp hr
  obtain ⟨pages, hpages, rfl⟩ := getPage_eq_some hget
  cases he
  have hopen := h.opened (p := p) (by rw [hp]; trivial)
  obtain ⟨⟨hrun, halive, hnodup, hused, hapart, hunique, hreader, hserved, helems, hclosed⟩, hw⟩ := h
  obtain ⟨hfresh, -, hused'⟩ := hused.getPage hpages
  rw [Set.mem_ofPred_eq, not_or] at hfresh
  have hno : ∀ q, (s.point q).request ≠ some r := fun q hq => hfresh.2 ⟨q, hq⟩
  have hrequest : ∀ q a, (update s.point p (.requested r) q).request = some a →
      q = p ∧ a = r ∨ q ≠ p ∧ (s.point q).request = some a := by
    intro q a hq
    by_cases hqp : q = p
    · rw [hqp, update_self] at hq
      cases hq
      exact Or.inl ⟨hqp, rfl⟩
    · rw [update_of_ne hqp] at hq
      exact Or.inr ⟨hqp, hq⟩
  constructor
  · refine ⟨hrun, halive, hnodup, ?_, ?_, ?_, ?_, ?_, helems, ?_⟩
    · refine hused'.mono ?_
      rintro a (ha | ⟨q, hq⟩)
      · exact Or.inr (Or.inl ha)
      · rcases hrequest q a hq with ⟨-, rfl⟩ | ⟨-, hq'⟩
        · exact Or.inl rfl
        · exact Or.inr (Or.inr ⟨q, hq'⟩)
    · intro q a hq
      rcases hrequest q a hq with ⟨-, rfl⟩ | ⟨-, hq'⟩
      · exact hfresh.1
      · exact hapart q a hq'
    · intro q q' a hq hq'
      rcases hrequest q a hq with ⟨hqp, har⟩ | ⟨-, hold⟩
      · rcases hrequest q' a hq' with ⟨hqp', -⟩ | ⟨-, hold'⟩
        · exact hqp.trans hqp'.symm
        · exact absurd (har ▸ hold') (hno q')
      · rcases hrequest q' a hq' with ⟨-, har⟩ | ⟨-, hold'⟩
        · exact absurd (har ▸ hold) (hno q)
        · exact hunique q q' a hold hold'
    · intro q a hq
      rcases hrequest q a hq with ⟨rfl, rfl⟩ | ⟨-, hq'⟩
      · simp only [writeRequest, update_self]
        exact ⟨rfl, hrun, rfl, pos⟩
      · have hne : a ≠ r := by
          rintro rfl
          exact hno q hq'
        simp only [writeRequest, update_of_ne hne]
        exact hreader q a hq'
    · intro q a hq
      by_cases hqp : q = p
      · simp only [hqp, update_self] at hq
        rcases hq with hq | hq <;> cases hq
      · simp only [update_of_ne hqp] at hq
        exact hserved q a hq
    · intro hstate
      exact absurd (hopen.symm.trans hstate) (by decide)
  · refine hw.of_eq (WaitState.ext rfl rfl ?_)
    show (fun q => (update s.point p (.requested r) q).stage) = fun q => (s.point q).stage
    have hstage : FifoPoint.stage (.requested r) = (s.point p).stage := by
      rw [hp]
      rfl
    rw [stage_update, hstage]
    exact update_eq_self p fun q => (s.point q).stage

/-- `try_read` touches the buffer and the request, and nothing of the queue. -/
theorem tryRead_quiet {r : Addr} {b : Bool} (h : k.tryRead r = some (b, k')) : Quiet key k k' := by
  unfold tryRead at h
  simp only at h
  split at h
  · split at h
    next t ht =>
      cases h
      have hfifo : ∀ i : Int, ((update k.openFifos (k.readRequests r).f
          { k.openFifos (k.readRequests r).f with cBuffer := t.cbuf }) i).readQueue =
            (k.openFifos i).readQueue ∧
          ((update k.openFifos (k.readRequests r).f
          { k.openFifos (k.readRequests r).f with cBuffer := t.cbuf }) i).state =
            (k.openFifos i).state := by
        intro i
        by_cases hi : i = (k.readRequests r).f
        · rw [hi, update_self]
          exact ⟨rfl, rfl⟩
        · rw [update_of_ne hi]
          exact ⟨rfl, rfl⟩
      refine ⟨rfl, fun _ => rfl, rfl, rfl, (hfifo key).1, (hfifo key).2, fun a => ?_⟩
      by_cases ha : a = r
      · simp only [writeRequest, writeFifo, ha, update_self]
        exact ⟨_, rfl⟩
      · simp only [writeRequest, writeFifo, update_of_ne ha]
        exact ⟨_, rfl⟩
    next => cases h
  · cases h
    exact ⟨rfl, fun _ => rfl, rfl, rfl, rfl, rfl, fun _ => ⟨_, rfl⟩⟩

/-- The section of `fifo_read` that queues the request. -/
theorem FifoInv.enqueue (h : FifoInv key s) {r : Addr}
    (hp : s.point s.k.getCurrentProcess = .requested r)
    (henq : s.k.enqueue (s.k.openFifos key).readQueue r = some k') :
    FifoInv key ⟨k', update s.point s.k.getCurrentProcess (.queued r)⟩ := by
  set p := s.k.getCurrentProcess with hpdef
  have hrequest : (s.point p).request = some r := by
    rw [hp]
    rfl
  have hopen := h.opened (p := p) (by rw [hp]; trivial)
  have hgoto := h.ready.goto (p := p) (.queued r) (fun a ha => ha ▸ hrequest)
    (fun a ha => by rcases ha with ha | ha <;> cases ha)
    fun hstate => absurd (hopen.symm.trans hstate) (by decide)
  have hfp : s.k.fifoPages key = (s.k.openFifos key).readQueue ::
      (s.k.queues (s.k.openFifos key).readQueue).map QueueNode.page := if_pos hopen
  have hq : (s.k.openFifos key).readQueue ≠ null := by
    refine (h.ready.pages.isPage _ (Or.inl ?_)).ne_null
    rw [hfp]
    exact List.mem_cons_self
  obtain ⟨page, pages, hpages, rfl⟩ := enqueue_spec hq henq
  have hfresh : ∀ q, ((s.point q).stage).ticket ≠ some r := by
    intro q hqr
    have hreq := FifoPoint.request_of_ticket hqr
    obtain rfl := h.ready.unique q p r hreq hrequest
    rw [hp] at hqr
    cases hqr
  have hr : r ∉ s.k.elems (s.k.openFifos key).readQueue := by
    intro hm
    obtain ⟨q, hqr⟩ := h.wait.owner r hm
    exact hfresh q hqr
  obtain ⟨hrun, halive, hnodup, hused, hapart, hunique, hreader, hserved, helems, hclosed⟩ := hgoto
  obtain ⟨hpage, -, hused'⟩ := hused.getPage hpages
  rw [Set.mem_ofPred_eq, not_or] at hpage
  have hfp' : fifoPages { s.k with
      pages
      queues := update s.k.queues (s.k.openFifos key).readQueue
        (s.k.queues (s.k.openFifos key).readQueue ++ [⟨page, r⟩]) } key =
      s.k.fifoPages key ++ [page] := by
    rw [hfp]
    refine (if_pos hopen).trans ?_
    simp only [update_self, List.map_append, List.map_cons, List.map_nil, List.cons_append]
  constructor
  · refine ⟨hrun, halive, ?_, ?_, ?_, hunique, hreader, hserved, ?_, ?_⟩
    · rw [hfp']
      refine List.nodup_append.mpr ⟨hnodup, List.nodup_singleton _, fun a ha b hb he => ?_⟩
      rw [he, List.mem_singleton.mp hb] at ha
      exact hpage.1 ha
    · rw [hfp']
      refine hused'.mono ?_
      rintro a (ha | ha)
      · rcases List.mem_append.mp ha with ha | ha
        · exact Or.inr (Or.inl ha)
        · exact Or.inl (List.mem_singleton.mp ha)
      · exact Or.inr (Or.inr ha)
    · intro q a hqa hm
      rw [hfp'] at hm
      rcases List.mem_append.mp hm with hm | hm
      · exact hapart q a hqa hm
      · rw [List.mem_singleton.mp hm] at hqa
        exact hpage.2 ⟨q, hqa⟩
    · simp only [elems, update_self, List.map_append]
      refine List.nodup_append.mpr ⟨helems, List.nodup_singleton _, fun a ha b hb he => ?_⟩
      rw [he, List.mem_singleton.mp hb] at ha
      exact hr ha
    · intro hstate
      exact absurd (hopen.symm.trans hstate) (by decide)
  · have hstage : (s.point p).stage = .out := by
      rw [hp]
      rfl
    refine (h.wait.register (p := p) (t := r) hstage hfresh).of_eq (WaitState.ext ?_ rfl ?_)
    · ext a
      simp only [fifoView, elems, update_self, List.map_append, List.mem_append,
        Set.mem_ofPred_eq, Set.mem_insert_iff]
      rw [or_comm]
      simp
    · exact stage_update s.point p _

/-- The section of `fifo_read`. -/
theorem FifoInv.readSection (h : FifoInv key s) {r : Addr} {b : Bool}
    (hp : s.point s.k.getCurrentProcess = .requested r)
    (hr : s.k.readSection key r = some (b, k')) :
    FifoInv key ⟨k', update s.point s.k.getCurrentProcess
      (if b then .testing r false else .queued r)⟩ := by
  obtain ⟨⟨couldRead, k₁⟩, hattempt, hrest⟩ := Option.bind_eq_some_iff.mp hr
  have hquiet : Quiet key s.k k₁ := by
    split at hattempt
    · exact tryRead_quiet hattempt
    · cases hattempt
      exact ⟨rfl, fun _ => rfl, rfl, rfl, rfl, rfl, fun _ => ⟨_, rfl⟩⟩
  have h₁ := h.quiet hquiet
  have hp₁ : s.point k₁.getCurrentProcess = .requested r := by
    rw [hquiet.current]
    exact hp
  rw [← hquiet.current]
  cases couldRead with
  | true =>
      simp only [if_true, Option.some.injEq, Prod.mk.injEq] at hrest
      obtain ⟨rfl, rfl⟩ := hrest
      have hopen := h₁.opened (p := k₁.getCurrentProcess) (by rw [hp₁]; trivial)
      refine h₁.goto _ (fun a ha => ?_) (fun a ha => ?_) (fun hstate => ?_) ?_ rfl
      · rw [hp₁]
        exact ha
      · rcases ha with ha | ha <;> cases ha
      · exact absurd (hopen.symm.trans hstate) (by decide)
      · rw [hp₁]
        rfl
  | false =>
      simp only [Bool.false_eq_true, if_false] at hrest
      obtain ⟨k₂, henq, he⟩ := Option.map_eq_some_iff.mp hrest
      cases he
      rw [← hquiet.queue] at henq
      exact h₁.enqueue hp₁ henq

/-- The reader blocks itself. -/
theorem FifoInv.block (h : FifoInv key s) {r : Addr}
    (hp : s.point s.k.getCurrentProcess = .queued r) :
    FifoInv key ⟨{ s.k with
        processes := Procs.blockProcess s.k.processes (s.k.readRequests r).readerP },
      update s.point s.k.getCurrentProcess (.yielding r)⟩ := by
  set p := s.k.getCurrentProcess with hpdef
  have hrequest : (s.point p).request = some r := by
    rw [hp]
    rfl
  obtain ⟨hreaderP, hnull, -, -⟩ := h.ready.reader p r hrequest
  have hgoto := h.ready.goto (p := p) (.yielding r) (fun a ha => ha ▸ hrequest)
    (fun a ha => by rcases ha with ha | ha <;> cases ha) fun _ hin => hin
  rw [hreaderP]
  constructor
  · refine { hgoto with
      alive := fun q hdel => hgoto.alive q (Procs.blockProcess_delete_iff.mp hdel)
      served := fun q a hq => ?_ }
    have hqp : q ≠ p := by
      intro he
      change update s.point p (.yielding r) q = _ ∨ update s.point p (.yielding r) q = _ at hq
      rw [he, update_self] at hq
      rcases hq with hq | hq <;> cases hq
    show ¬(s.k.processes.blockProcess p).isBlockedProcess q
    rw [Procs.isBlockedProcess_block hnull (h.ready.alive p), update_of_ne hqp]
    exact hgoto.served q a hq
  · have hstage : (s.point p).stage = .registered r := by
      rw [hp]
      rfl
    refine (h.wait.block hstage).of_eq (WaitState.ext rfl ?_ ?_)
    · exact Procs.isBlockedProcess_block hnull (h.ready.alive p)
    · exact stage_update s.point p _

/-- The reader returns from its yield. -/
theorem FifoInv.resume (h : FifoInv key s) {r : Addr}
    (hp : s.point s.k.getCurrentProcess = .yielding r)
    (hb : ¬s.k.processes.isBlockedProcess s.k.getCurrentProcess) :
    FifoInv key ⟨s.k, update s.point s.k.getCurrentProcess (.testing r true)⟩ := by
  have hrequest : (s.point s.k.getCurrentProcess).request = some r := by
    rw [hp]
    rfl
  have hstage : (s.point s.k.getCurrentProcess).stage = .waiting r := by
    rw [hp]
    rfl
  exact ⟨h.ready.goto _ (fun a ha => ha ▸ hrequest) (fun _ _ => hb) fun _ hin => hin,
    (h.wait.resume hstage hb).of_eq (WaitState.ext rfl rfl (stage_update s.point _ _))⟩

/-- The reader gives the page of its request back. -/
theorem FifoInv.collect (h : FifoInv key s) {r : Addr} {waited : Bool}
    (hp : s.point s.k.getCurrentProcess = .collecting r waited) :
    FifoInv key ⟨s.k.storePage r, update s.point s.k.getCurrentProcess .idle⟩ := by
  set p := s.k.getCurrentProcess with hpdef
  have hrequest : (s.point p).request = some r := by
    rw [hp]
    rfl
  have hidle := h.goto (p := p) .idle (fun a ha => nomatch ha)
    (fun a ha => by rcases ha with ha | ha <;> cases ha) (fun _ hin => hin) (by rw [hp]; rfl) rfl
  refine ⟨{ hidle.ready with pages := ?_ }, hidle.wait⟩
  refine (h.ready.pages.storePage (Or.inr ⟨p, hrequest⟩)).mono ?_
  rintro a (ha | ⟨q, hq⟩)
  · refine ⟨Or.inl ha, ?_⟩
    rintro rfl
    exact h.ready.apart p a hrequest ha
  · have hqp : q ≠ p := by
      intro he
      simp only [he, update_self] at hq
      cases hq
    simp only [update_of_ne hqp] at hq
    refine ⟨Or.inr ⟨q, hq⟩, ?_⟩
    rintro rfl
    exact hqp (h.ready.unique q p a hq hrequest)

/-- The request at the head of the queue is taken from a reader past its block. -/
theorem FifoInv.serve (h : FifoInv key s) (hopen : (s.k.openFifos key).state = .opened)
    {f : QueueNode} {rest : List QueueNode}
    (hq : s.k.queues (s.k.openFifos key).readQueue = f :: rest) {p : Addr}
    (hp : s.point p = .yielding f.elem) :
    FifoInv key { s with k := { s.k with
      queues := update s.k.queues (s.k.openFifos key).readQueue rest
      pages := s.k.pages.storePage f.page
      processes := Procs.unblockProcess s.k.processes (s.k.readRequests f.elem).readerP } } := by
  have hfp : s.k.fifoPages key = (s.k.openFifos key).readQueue :: f.page ::
      rest.map QueueNode.page := by
    refine (if_pos hopen).trans ?_
    rw [hq]
    rfl
  have helems : s.k.elems (s.k.openFifos key).readQueue = f.elem :: rest.map QueueNode.elem := by
    rw [elems, hq]
    rfl
  have hrequest : (s.point p).request = some f.elem := by
    rw [hp]
    rfl
  obtain ⟨hreaderP, hnull, -, -⟩ := h.ready.reader p _ hrequest
  rw [hreaderP]
  have hblocked := Procs.isBlockedProcess_unblock hnull (h.ready.alive p)
  have hnodup := h.ready.nodup
  have hnodup' := h.ready.elemsNodup
  rw [hfp, List.nodup_cons, List.nodup_cons, List.mem_cons, not_or] at hnodup
  rw [helems, List.nodup_cons] at hnodup'
  obtain ⟨⟨hqf, hqrest⟩, hfrest, hrest⟩ := hnodup
  have hsub : ∀ a ∈ (s.k.openFifos key).readQueue :: rest.map QueueNode.page,
      a ∈ s.k.fifoPages key ∧ a ≠ f.page := by
    intro a ha
    rw [hfp]
    rcases List.mem_cons.mp ha with rfl | ha
    · exact ⟨List.mem_cons_self, hqf⟩
    · refine ⟨List.mem_cons_of_mem _ (List.mem_cons_of_mem _ ha), ?_⟩
      rintro rfl
      exact hfrest ha
  have hfmem : f.page ∈ s.k.fifoPages key := by
    rw [hfp]
    exact List.mem_cons_of_mem _ List.mem_cons_self
  have hfp' : fifoPages { s.k with
      queues := update s.k.queues (s.k.openFifos key).readQueue rest
      pages := s.k.pages.storePage f.page
      processes := Procs.unblockProcess s.k.processes p } key =
      (s.k.openFifos key).readQueue :: rest.map QueueNode.page := by
    refine (if_pos hopen).trans ?_
    simp only [update_self]
  constructor
  · refine { h.ready with
      alive := fun q hdel => h.ready.alive q (Procs.unblockProcess_delete_iff.mp hdel)
      nodup := ?_
      pages := ?_
      apart := fun q a hqa hm => ?_
      served := fun q a hqa => ?_
      elemsNodup := ?_
      closed := fun hstate => absurd (hopen.symm.trans hstate) (by decide) }
    · rw [hfp']
      exact List.nodup_cons.mpr ⟨hqrest, hrest⟩
    · rw [hfp']
      refine (h.ready.pages.storePage (Or.inl hfmem)).mono ?_
      rintro a (ha | ⟨q, hqa⟩)
      · exact ⟨Or.inl (hsub a ha).1, (hsub a ha).2⟩
      · refine ⟨Or.inr ⟨q, hqa⟩, ?_⟩
        rintro rfl
        exact h.ready.apart q _ hqa hfmem
    · rw [hfp'] at hm
      exact h.ready.apart q a hqa (hsub a hm).1
    · show ¬(s.k.processes.unblockProcess p).isBlockedProcess q
      rw [hblocked]
      by_cases hqp : q = p
      · rw [hqp, update_self]
        exact fun hf => hf
      · rw [update_of_ne hqp]
        exact h.ready.served q a hqa
    · simp only [elems, update_self]
      exact hnodup'.2
  · have hstage : (s.point p).stage = .waiting f.elem := by
      rw [hp]
      rfl
    refine (h.wait.wake hstage).of_eq (WaitState.ext ?_ hblocked rfl)
    ext a
    simp only [fifoView, helems, List.mem_cons, Set.mem_ofPred_eq]
    simp only [elems, update_self]
    constructor
    · intro ha
      refine ⟨Or.inr ha, ?_⟩
      rintro rfl
      exact hnodup'.1 ha
    · rintro ⟨ha | ha, hne⟩
      · exact absurd ha hne
      · exact ha

/-- The queue of an open fifo has a header. -/
theorem FifoInv.header (h : FifoInv key s) (hopen : (s.k.openFifos key).state = .opened) :
    (s.k.openFifos key).readQueue ≠ null := by
  refine (h.ready.pages.isPage _ (Or.inl ?_)).ne_null
  rw [fifoPages, if_pos hopen]
  exact List.mem_cons_self

/-- The request at the head of the queue is that of a reader before or past its block. -/
theorem FifoInv.head_owner (h : FifoInv key s) {f : QueueNode} {rest : List QueueNode}
    (hq : s.k.queues (s.k.openFifos key).readQueue = f :: rest) :
    ∃ p, s.point p = .queued f.elem ∨ s.point p = .yielding f.elem := by
  obtain ⟨p, hp⟩ := h.wait.owner f.elem (by
    simp only [fifoView, elems, hq]
    exact List.mem_cons_self)
  refine ⟨p, ?_⟩
  cases hpt : s.point p <;> simp only [fifoView, hpt] at hp <;> cases hp
  · exact Or.inl rfl
  · exact Or.inr rfl

/-- The requests in the queue ask for at least one byte. -/
theorem FifoInv.asked_pos (h : FifoInv key s) {a : Addr}
    (ha : a ∈ s.k.elems (s.k.openFifos key).readQueue) : 0 < (s.k.readRequests a).bytes := by
  obtain ⟨p, hp⟩ := h.wait.owner a ha
  exact (h.ready.reader p a (FifoPoint.request_of_ticket hp)).pos

theorem OutOfReach.quiet {fill : Int} {r : Addr} (h : OutOfReach key k fill r)
    (hq : Quiet key k k') : OutOfReach key k' fill r := by
  obtain ⟨front, back, he, hle⟩ := h
  refine ⟨front, back, hq.elems.trans he, hle.trans_eq ?_⟩
  refine congrArg List.sum (List.map_congr_left fun a _ => ?_)
  obtain ⟨n, hn⟩ := hq.request a
  rw [hn]

theorem read_bufFill {c : CircularBuffer} {dest : Nat → UInt8} {bytes : Int} {t : Transfer}
    (h : c.read dest bytes = .ok t) :
    t.cbuf.bufFill = int32 (c.bufFill - if c.bufFill < bytes then c.bufFill else bytes) := by
  unfold CircularBuffer.read at h
  dsimp only at h
  generalize (if c.bufFill < bytes then c.bufFill else bytes) = n at h ⊢
  split at h
  · obtain ⟨dest₁, -, h⟩ := Except.bind_eq_ok h
    cases h
    rfl
  · obtain ⟨dest₁, -, h⟩ := Except.bind_eq_ok h
    obtain ⟨dest₂, -, h⟩ := Except.bind_eq_ok h
    cases h
    rfl

theorem write_bufFill {c : CircularBuffer} {source : Nat → UInt8} {bytes : Int} {t : Transfer}
    (h : c.write source bytes = .ok t) : t.cbuf.bufFill = fillAfter c bytes := by
  unfold CircularBuffer.write at h
  unfold fillAfter
  dsimp only at h
  generalize (if int32 (c.bufFill + bytes) > bufSize then int32 (bufSize - c.bufFill)
    else bytes) = n at h ⊢
  split at h
  · obtain ⟨buffer, -, h⟩ := Except.bind_eq_ok h
    cases h
    rfl
  · obtain ⟨buffer₁, -, h⟩ := Except.bind_eq_ok h
    obtain ⟨buffer₂, -, h⟩ := Except.bind_eq_ok h
    cases h
    rfl

/-- A request is served when there is a byte, and its bytes are gone then. -/
theorem tryRead_true {r : Addr} (h : k.tryRead r = some (true, k'))
    (hkey : (k.readRequests r).f = key) :
    0 < (k.openFifos key).cBuffer.bufFill ∧
      (k'.openFifos key).cBuffer.bufFill = int32 ((k.openFifos key).cBuffer.bufFill -
        if (k.openFifos key).cBuffer.bufFill < (k.readRequests r).bytes
        then (k.openFifos key).cBuffer.bufFill else (k.readRequests r).bytes) := by
  subst hkey
  unfold tryRead at h
  simp only at h
  split at h
  next hpos =>
    split at h
    next t ht =>
      cases h
      refine ⟨hpos, ?_⟩
      simp only [writeRequest, writeFifo, update_self]
      exact read_bufFill ht
    next => cases h
  next => cases h

/-- What is left after a request is still short of the requests behind it. -/
theorem fill_after_read {fill asked ahead : Int} (hpos : 0 < fill) (hfit : fill < 2 ^ 31)
    (hasked : 0 < asked) (hahead : 0 ≤ ahead) (h : fill ≤ asked + ahead) :
    int32 (fill - if fill < asked then fill else asked) ≤ ahead := by
  split
  · rw [Int.sub_self]
    exact hahead
  · rw [int32_of_range (by omega) (by omega)]
    omega

/-- A request out of reach stays so when the first request is served. -/
theorem OutOfReach.served {fill fill' : Int} {r : Addr} (h : OutOfReach key k fill r)
    {f : QueueNode} {rest : List QueueNode}
    (hf : k.queues (k.openFifos key).readQueue = f :: rest) (hne : r ≠ f.elem)
    (hpos : ∀ a ∈ rest.map QueueNode.elem, 0 < (k.readRequests a).bytes)
    (hfill : ∀ ahead, 0 ≤ ahead → fill ≤ (k.readRequests f.elem).bytes + ahead → fill' ≤ ahead)
    {pages : PageStack} {processes : Procs} :
    OutOfReach key { k with
      queues := update k.queues (k.openFifos key).readQueue rest, pages, processes } fill' r := by
  obtain ⟨front, back, he, hle⟩ := h
  rw [elems, hf, List.map_cons] at he
  cases front with
  | nil => exact absurd (List.cons.inj he).1.symm hne
  | cons a front =>
      obtain ⟨rfl, hrest⟩ := List.cons.inj he
      refine ⟨front, back, ?_, hfill _ (List.sum_nonneg ?_) hle⟩
      · simp only [elems, update_self]
        exact hrest
      · intro x hx
        obtain ⟨a, ha, rfl⟩ := List.mem_map.mp hx
        exact (hpos a (hrest ▸ List.mem_append_left _ ha)).le

/-- `send_to_readers`, when the bytes do not get to the readers before their block. -/
theorem FifoInv.sendToReaders {fuel : Nat} (h : FifoInv key s)
    (hopen : (s.k.openFifos key).state = .opened)
    (hsend : s.k.sendToReaders fuel (s.k.openFifos key).readQueue = some k')
    (hfit : (s.k.openFifos key).cBuffer.bufFill < 2 ^ 31)
    (hguard : ∀ p r, s.point p = .queued r →
      OutOfReach key s.k (s.k.openFifos key).cBuffer.bufFill r) :
    FifoInv key { s with k := k' } ∧ k'.getCurrentProcess = s.k.getCurrentProcess := by
  induction fuel generalizing s with
  | zero => cases hsend
  | succ fuel ih =>
      rw [Kernel.sendToReaders] at hsend
      split at hsend
      · cases hsend
        exact ⟨h, rfl⟩
      next hne =>
        obtain ⟨⟨served, k₁⟩, htry, hsend⟩ := Option.bind_eq_some_iff.mp hsend
        have hquiet : Quiet key s.k k₁ := tryRead_quiet htry
        have h₁ := h.quiet hquiet
        have hopen₁ : (k₁.openFifos key).state = .opened := hquiet.state.trans hopen
        cases served with
        | false =>
            cases hsend
            exact ⟨h₁, hquiet.current⟩
        | true =>
            obtain ⟨hnull, hcons⟩ := not_or.mp hne
            obtain ⟨f, rest, hf⟩ := List.exists_cons_of_ne_nil hcons
            have helems : s.k.elems (s.k.openFifos key).readQueue =
                f.elem :: rest.map QueueNode.elem := congrArg (List.map QueueNode.elem) hf
            have hnodup := h.ready.elemsNodup
            rw [helems, List.nodup_cons] at hnodup
            obtain ⟨p, hp⟩ := h.head_owner hf
            have hrequest : (s.point p).request = some f.elem := by
              rcases hp with hp | hp <;> rw [hp] <;> rfl
            rw [peek_cons hnull hf] at htry
            obtain ⟨hpos, hfill⟩ := tryRead_true htry (h.ready.reader p _ hrequest).fifo
            have hyielding : s.point p = .yielding f.elem := by
              refine hp.resolve_left fun hp => ?_
              -- nothing is in front of it, so the buffer would be empty
              obtain ⟨front, back, he, hle⟩ := hguard p _ hp
              rw [helems] at he
              cases front with
              | nil => exact absurd hle (Int.not_le.mpr hpos)
              | cons a front =>
                  obtain ⟨rfl, hrest⟩ := List.cons.inj he
                  rw [hrest] at hnodup
                  exact hnodup.1 (List.mem_append_right _ List.mem_cons_self)
            obtain ⟨⟨r, k₂⟩, hdeq, hsend⟩ := Option.bind_eq_some_iff.mp hsend
            rw [← hquiet.queue] at hsend hdeq hnull hf
            rw [← hquiet.queues] at hf
            obtain ⟨rfl, rfl⟩ := dequeue_cons hnull hf hdeq
            have hasked := h.asked_pos (a := f.elem) (by rw [helems]; exact List.mem_cons_self)
            have hfit₁ : (k₁.openFifos key).cBuffer.bufFill < 2 ^ 31 := by
              rw [hfill]
              exact int32_lt _
            have h₂ := ih (h₁.serve hopen₁ hf hyielding) hopen₁ hsend hfit₁ fun q r hq => ?_
            · exact ⟨h₂.1, h₂.2.trans hquiet.current⟩
            · refine OutOfReach.served ((hguard q r hq).quiet hquiet) hf ?_ ?_ ?_
              · -- the reader of the first request is past its block
                rintro rfl
                have hp' : (s.point q).request = some f.elem := by
                  rw [show s.point q = .queued f.elem from hq]
                  rfl
                obtain rfl := h.ready.unique p q _ hrequest hp'
                cases hyielding.symm.trans hq
              · intro a ha
                refine h₁.asked_pos ?_
                rw [elems, hf]
                exact List.mem_cons_of_mem _ ha
              · intro ahead hahead hle
                show (k₁.openFifos key).cBuffer.bufFill ≤ ahead
                obtain ⟨n, hn⟩ := hquiet.request f.elem
                rw [hn] at hle
                rw [hfill]
                exact fill_after_read hpos hfit hasked hahead hle

/-- `release_readers`, when every reader is past its block. -/
theorem FifoInv.releaseReaders {fuel : Nat} (h : FifoInv key s)
    (hopen : (s.k.openFifos key).state = .opened) (hout : ∀ p, ¬(s.point p).Inside)
    (hrel : s.k.releaseReaders fuel (s.k.openFifos key).readQueue = some k') :
    FifoInv key { s with k := k' } ∧ k'.openFifos = s.k.openFifos ∧
      k'.queues (s.k.openFifos key).readQueue = [] := by
  induction fuel generalizing s with
  | zero => cases hrel
  | succ fuel ih =>
      rw [Kernel.releaseReaders] at hrel
      split at hrel
      next hempty =>
        cases hrel
        exact ⟨h, rfl, hempty.resolve_left (h.header hopen)⟩
      next hne =>
        obtain ⟨⟨r, k₁⟩, hdeq, hrel⟩ := Option.bind_eq_some_iff.mp hrel
        obtain ⟨hnull, hcons⟩ := not_or.mp hne
        obtain ⟨f, rest, hf⟩ := List.exists_cons_of_ne_nil hcons
        obtain ⟨rfl, rfl⟩ := dequeue_cons hnull hf hdeq
        obtain ⟨p, hp | hp⟩ := h.head_owner hf
        · exact absurd (hp ▸ trivial) (hout p)
        · have hrest := ih (h.serve hopen hf hp) hopen hout hrel
          exact hrest

/-- The section of `fifo_write`. -/
theorem FifoInv.writeSection (h : FifoInv key s) {source : Nat → UInt8} {bytes n : Int}
    (hp : s.point s.k.getCurrentProcess = .writing source bytes)
    (hw : s.k.writeSection key source bytes = some (n, k'))
    (hguard : ∀ q r, s.point q = .queued r →
      OutOfReach key s.k (fillAfter (s.k.openFifos key).cBuffer bytes) r) :
    FifoInv key ⟨k', update s.point s.k.getCurrentProcess .idle⟩ := by
  have hopen := h.opened (p := s.k.getCurrentProcess) (by rw [hp]; trivial)
  unfold Kernel.writeSection at hw
  split at hw
  next t ht =>
    obtain ⟨k₁, hsend, he⟩ := Option.map_eq_some_iff.mp hw
    cases he
    have hfifo : (s.k.writeFifo key fun f => { f with cBuffer := t.cbuf }).openFifos key =
        { s.k.openFifos key with cBuffer := t.cbuf } := update_self _ _ _
    have hquiet : Quiet key s.k (s.k.writeFifo key fun f => { f with cBuffer := t.cbuf }) :=
      ⟨rfl, fun _ => rfl, rfl, rfl, by rw [hfifo], by rw [hfifo], fun _ => ⟨_, rfl⟩⟩
    have h₁ := h.quiet hquiet
    have hfill : ((s.k.writeFifo key fun f => { f with cBuffer := t.cbuf }).openFifos
        key).cBuffer.bufFill = fillAfter (s.k.openFifos key).cBuffer bytes := by
      rw [hfifo]
      exact write_bufFill ht
    obtain ⟨h₂, hcur⟩ := h₁.sendToReaders (hquiet.state.trans hopen) hsend
      (hfill ▸ int32_lt _) fun q r hq => by
        rw [hfill]
        exact (hguard q r hq).quiet hquiet
    have hcur' : k'.getCurrentProcess = s.k.getCurrentProcess := hcur
    rw [← hcur'] at hp ⊢
    exact h₂.goto .idle (fun a ha => nomatch ha) (fun a ha => by rcases ha with ha | ha <;> cases ha)
      (fun _ hin => hin) (by rw [hp]; rfl) rfl
  next => cases hw

/-- The fifo's empty queue is given back and the fifo is closed. -/
theorem FifoInv.shut (h : FifoInv key s) (hopen : (s.k.openFifos key).state = .opened)
    (hempty : s.k.queues (s.k.openFifos key).readQueue = []) (hout : ∀ p, ¬(s.point p).Inside) :
    FifoInv key ⟨(s.k.storePage (s.k.openFifos key).readQueue).writeFifo key
      fun f => { f with state := .closed }, s.point⟩ := by
  have hfifo : ((s.k.storePage (s.k.openFifos key).readQueue).writeFifo key
      fun f => { f with state := .closed }).openFifos key =
      { s.k.openFifos key with state := .closed } := update_self _ _ _
  have hfp : fifoPages ((s.k.storePage (s.k.openFifos key).readQueue).writeFifo key
      fun f => { f with state := .closed }) key = [] := by
    unfold fifoPages
    rw [hfifo]
    exact if_neg (fun hf => nomatch hf)
  have hmem : (s.k.openFifos key).readQueue ∈ s.k.fifoPages key := by
    rw [fifoPages, if_pos hopen]
    exact List.mem_cons_self
  obtain ⟨⟨hrun, halive, hnodup, hused, hapart, hunique, hreader, hserved, helems, hclosed⟩, hw⟩ := h
  refine ⟨⟨hrun, halive, ?_, ?_, ?_, hunique, hreader, hserved, ?_, ?_⟩,
    hw.of_eq (WaitState.ext ?_ rfl rfl)⟩
  · rw [hfp]
    exact List.nodup_nil
  · rw [hfp]
    refine (hused.storePage (Or.inl hmem)).mono ?_
    rintro a (ha | ⟨p, ha⟩)
    · exact absurd ha List.not_mem_nil
    · refine ⟨Or.inr ⟨p, ha⟩, ?_⟩
      rintro rfl
      exact hapart p _ ha hmem
  · rw [hfp]
    exact fun _ _ _ => List.not_mem_nil
  · rw [hfifo]
    exact helems
  · rw [hfifo]
    exact fun _ => ⟨hempty, hout⟩
  · simp only [fifoView, hfifo]
    rfl

/-- `fifo_close`, when no call is between its tests and its block. -/
theorem FifoInv.close {n : Int} (h : FifoInv key s) (hout : ∀ p, ¬(s.point p).Inside)
    (hc : s.k.fifoClose key = some (n, k')) : FifoInv key { s with k := k' } := by
  unfold fifoClose at hc
  split at hc
  next hisOpen =>
    obtain ⟨k₁, hrel, hc⟩ := Option.bind_eq_some_iff.mp hc
    obtain ⟨k₂, hdestroy, hc⟩ := Option.map_eq_some_iff.mp hc
    cases hc
    obtain ⟨h₁, hfifos, hempty⟩ := h.releaseReaders hisOpen.2.1 hout hrel
    have hopen : (k₁.openFifos key).state = .opened := by
      rw [hfifos]
      exact hisOpen.2.1
    rw [← hfifos] at hdestroy hempty
    rw [destroyQueue_isEmpty (Or.inr hempty)] at hdestroy
    obtain ⟨-, hdestroy⟩ := Option.ite_none_right_eq_some.mp hdestroy
    cases hdestroy
    exact h₁.shut hopen hempty hout
  next =>
    cases hc
    exact h

/-- The status of a process outside the calls changes. -/
theorem FifoInv.status {call : StatusCall} {p : Addr} (h : FifoInv key s)
    (hp : s.point p = .idle) (hcall : call ≠ .kill) :
    FifoInv key { s with k := s.k.applyStatus call p } := by
  obtain ⟨st, he, hst⟩ := call.apply_eq s.k.processes p
  have hprocs : (s.k.applyStatus call p).processes = s.k.processes.setSt p st := he
  have hother : ∀ q, q ≠ p →
      ((s.k.applyStatus call p).processes.isBlockedProcess q ↔
        s.k.processes.isBlockedProcess q) := by
    intro q hq
    unfold Procs.isBlockedProcess
    rw [hprocs, Procs.setSt_of_ne hq]
  constructor
  · refine { h.ready with
      alive := fun q => ?_
      served := fun q r hq => ?_ }
    · rw [hprocs]
      by_cases hq : q = p
      · rw [hq, Procs.setSt_st_self]
        exact hst hcall (h.ready.alive p)
      · rw [Procs.setSt_of_ne hq]
        exact h.ready.alive q
    · have hqp : q ≠ p := by
        rintro rfl
        simp only [hp] at hq
        rcases hq with hq | hq <;> cases hq
      exact (hother q hqp).not.mpr (h.ready.served q r hq)
  · have hstage : (s.point p).stage = .out := by
      rw [hp]
      rfl
    refine (h.wait.outside (p := p)
      ((s.k.applyStatus call p).processes.isBlockedProcess p) hstage).of_eq
      (WaitState.ext rfl ?_ rfl)
    funext q
    show (s.k.applyStatus call p).processes.isBlockedProcess q =
      update s.k.processes.isBlockedProcess p _ q
    by_cases hq : q = p
    · rw [hq, update_self]
    · rw [update_of_ne hq]
      exact propext (hother q hq)

/-- The running process is in a call and does its next statement. -/
theorem FifoInv.advance {pt : FifoPoint} (h : FifoInv key s)
    (hguard : ServesBlocked key s .advance)
    (ha : fifoAdvance key s.k s.k.getCurrentProcess (s.point s.k.getCurrentProcess) =
      some (pt, k')) :
    FifoInv key ⟨k', update s.point s.k.getCurrentProcess pt⟩ := by
  cases hp : s.point s.k.getCurrentProcess with
  | idle =>
      rw [hp] at ha
      cases ha
  | entered buf bytes =>
      rw [hp] at ha
      obtain ⟨⟨r, k₁⟩, hr, he⟩ := Option.map_eq_some_iff.mp ha
      cases he
      exact h.createRequest hp hr
  | requested r =>
      rw [hp] at ha
      obtain ⟨⟨b, k₁⟩, hr, he⟩ := Option.map_eq_some_iff.mp ha
      cases he
      exact h.readSection hp hr
  | queued r =>
      rw [hp] at ha
      cases ha
      exact h.block hp
  | yielding r =>
      rw [hp] at ha
      simp only [fifoAdvance] at ha
      split at ha
      next => cases ha
      next hb =>
        cases ha
        exact h.resume hp hb
  | testing r waited =>
      rw [hp] at ha
      cases ha
      have hserved : ∀ a, (if s.k.fifoIsOpen key then FifoPoint.collecting r waited else .idle) =
          .testing a true ∨ (if s.k.fifoIsOpen key then FifoPoint.collecting r waited else .idle) =
          .collecting a true → ¬s.k.processes.isBlockedProcess s.k.getCurrentProcess := by
        intro a ha
        split at ha
        · rcases ha with ha | ha <;> cases ha
          exact h.ready.served _ r (Or.inl hp)
        · rcases ha with ha | ha <;> cases ha
      refine h.goto _ (fun a ha => ?_) hserved (fun _ hin => ?_) (by rw [hp]; rfl) ?_
      · rw [hp]
        split at ha
        · exact ha
        · cases ha
      · split at hin <;> exact hin
      · split <;> rfl
  | collecting r waited =>
      rw [hp] at ha
      cases ha
      exact h.collect hp
  | writing source bytes =>
      rw [hp] at ha
      obtain ⟨⟨n, k₁⟩, hw, he⟩ := Option.map_eq_some_iff.mp ha
      cases he
      exact h.writeSection hp hw (hguard source bytes hp)

/-- A process that is in no call starts one. -/
theorem FifoInv.enter {pt : FifoPoint} (h : FifoInv key s)
    (hp : s.point s.k.getCurrentProcess = .idle) (hopen : s.k.fifoIsOpen key)
    (hrequest : pt.request = none) (hstage : pt.stage = .out) :
    FifoInv key { s with point := update s.point s.k.getCurrentProcess pt } := by
  refine h.goto pt (fun a ha => ?_) (fun r ha => ?_)
    (fun hstate => absurd (hopen.2.1.symm.trans hstate) (by decide)) (by rw [hp]; rfl) hstage
  · rw [hrequest] at ha
    cases ha
  · rcases ha with rfl | rfl <;> cases hrequest

/-- Every guarded step keeps the invariant. -/
theorem FifoInv.next {a : FifoAction} (h : FifoInv key s) (hguard : ServesBlocked key s a)
    (hn : (fifoSystem key).next s a = some t) : FifoInv key t := by
  cases a with
  | dispatch node =>
      simp only [fifoSystem] at hn
      split at hn
      next hready =>
        cases hn
        exact h.dispatch hready
      next => cases hn
  | openName name =>
      obtain ⟨⟨i, k⟩, ho, rfl⟩ := Option.map_eq_some_iff.mp hn
      exact h.openName ho
  | read buf bytes =>
      simp only [fifoSystem] at hn
      split at hn
      next hp =>
        split at hn
        next hopen =>
          cases hn
          exact h.enter hp hopen.1 rfl rfl
        next => cases hn
      next => cases hn
  | write source bytes =>
      simp only [fifoSystem] at hn
      split at hn
      next hp =>
        split at hn
        next hopen =>
          cases hn
          exact h.enter hp hopen.1 rfl rfl
        next => cases hn
      next => cases hn
  | close =>
      simp only [fifoSystem] at hn
      split at hn
      next =>
        obtain ⟨⟨n, k⟩, hc, rfl⟩ := Option.map_eq_some_iff.mp hn
        exact h.close hguard hc
      next => cases hn
  | advance =>
      obtain ⟨⟨pt, k⟩, ha, rfl⟩ := Option.map_eq_some_iff.mp hn
      exact h.advance hguard ha
  | status call p =>
      simp only [fifoSystem] at hn
      split at hn
      next hp =>
        split at hn
        next => cases hn
        next hcall =>
          cases hn
          exact h.status hp hcall
      next => cases hn

/-- Opening a mutex keeps the free pages free of pages in use. -/
theorem mutexOpen_pagesOk {name : CString} {lock : Int} {used : Set Addr}
    (ho : k.mutexOpen name = some (lock, k')) (h : k.pages.PagesOk used) :
    k'.pages.PagesOk used := by
  unfold mutexOpen at ho
  split at ho
  · cases ho
    exact h
  · cases ho
    exact h
  · obtain ⟨⟨q, k₁⟩, hq, he⟩ := Option.map_eq_some_iff.mp ho
    obtain ⟨pages, hget, rfl⟩ := createQueue_spec hq
    cases he
    exact (h.getPage hget).2.2.mono fun a ha => Or.inr ha

/-- The fifo that `fifo_open` makes of a new name. -/
theorem fifoOpen_new {name : CString} {i : Nat} (hsearch : k.fifoSearch name = .closed i)
    (hopen : k.fifoOpen name = some (key, k')) :
    key = i ∧ ∃ lock k₁ q, k.mutexOpen name = some (lock, k₁) ∧
      k₁.pages.getPage = some (q, k'.pages) ∧ k'.queues q = [] ∧
      k'.openFifos key = ⟨name, .create fun _ => 0, .opened, lock, q⟩ := by
  unfold fifoOpen at hopen
  rw [hsearch] at hopen
  obtain ⟨⟨lock, k₁⟩, hlock, hopen⟩ := Option.bind_eq_some_iff.mp hopen
  obtain ⟨⟨q, k₂⟩, hq, he⟩ := Option.map_eq_some_iff.mp hopen
  obtain ⟨rfl, rfl⟩ := Prod.mk.inj he
  have hquiet := setFileOpen_quiet 0 (k₂.writeFifo i fun _ =>
    ⟨name, .create fun _ => 0, .opened, lock, q⟩) k₂.getCurrentProcess i
  obtain ⟨pages, hget, rfl⟩ := createQueue_spec hq
  refine ⟨rfl, lock, k₁, q, hlock, ?_, ?_, ?_⟩
  · exact hget.trans (congrArg (fun pages => some (q, pages)) hquiet.pages.symm)
  · exact (congrFun hquiet.queues q).trans (update_self _ _ _)
  · rw [openFifos_setFileOpen]
    exact update_self _ _ _

theorem fifoInv_of_init (h : (fifoSystem key).init s) : FifoInv key s := by
  obtain ⟨k, name, i, hsearch, hopen, hpages, halive, hrun, hidle⟩ := h
  obtain ⟨rfl, lock, k₁, q, hlock, hget, hempty, hfifo⟩ := fifoOpen_new hsearch hopen
  obtain ⟨-, -, hpages'⟩ := (mutexOpen_pagesOk hlock hpages).getPage hget
  have hread : (s.k.openFifos i).readQueue = q := by rw [hfifo]
  have hstate : (s.k.openFifos i).state = .opened := by rw [hfifo]
  have hfp : s.k.fifoPages i = [q] := by
    rw [fifoPages, if_pos hstate, hread, hempty, List.map_nil]
  have hno : ∀ p a, (s.point p).request ≠ some a := by
    intro p a ha
    rw [hidle] at ha
    cases ha
  refine ⟨⟨hrun, halive, ?_, ?_, fun p a ha => absurd ha (hno p a),
    fun p _ a ha => absurd ha (hno p a), fun p a ha => absurd ha (hno p a), fun p r hp => ?_, ?_,
    fun hc => absurd (hstate.symm.trans hc) (by decide)⟩, WaitInv.start (fun p => ?_) ?_⟩
  · rw [hfp]
    exact List.nodup_singleton q
  · rw [hfp]
    refine hpages'.mono ?_
    rintro a (ha | ⟨p, ha⟩)
    · exact Or.inl (List.mem_singleton.mp ha)
    · exact absurd ha (hno p a)
  · rw [hidle] at hp
    rcases hp with hp | hp <;> cases hp
  · rw [elems, hread, hempty]
    exact List.nodup_nil
  · simp only [fifoView, hidle]
    rfl
  · simp only [fifoView, elems, hread, hempty, List.map_nil, List.not_mem_nil]
    rfl

theorem fifoInv_of_reachBy (h : (fifoSystem key).ReachBy (ServesBlocked key) s) : FifoInv key s :=
  h.invariant (fun _ hs => fifoInv_of_init hs) fun _ _ _ hi hg hn => hi.next hg hn

/-! ## What holds in every state -/

/-- The request of every reader that waits blocked is queued: no wake-up was lost. -/
def ReadersQueued (key : Int) (s : FifoRun) : Prop :=
  ∀ p r, (s.point p).pastBlock = some r → s.k.processes.isBlockedProcess p →
    r ∈ s.k.elems (s.k.openFifos key).readQueue

/-- The readers, in every state a run of guarded steps reaches. -/
theorem fifo_readers_queued (h : (fifoSystem key).ReachBy (ServesBlocked key) s) :
    ReadersQueued key s := by
  have hi := fifoInv_of_reachBy h
  intro p r hp hb
  cases hpt : s.point p with
  | yielding a =>
      rw [hpt] at hp
      cases hp
      refine hi.wait.ticket_mem (p := p) ?_ hb
      show (s.point p).stage = .waiting r
      rw [hpt]
      rfl
  | testing a waited =>
      rw [hpt] at hp
      cases waited with
      | true => exact absurd hb (hi.ready.served p a (Or.inl hpt))
      | false => cases hp
  | collecting a waited =>
      rw [hpt] at hp
      cases waited with
      | true => exact absurd hb (hi.ready.served p a (Or.inr hpt))
      | false => cases hp
  | _ =>
      rw [hpt] at hp
      cases hp

/-- `fifo_open` changes no status. -/
theorem fifoOpen_st {name : CString} {i : Int} (h : k.fifoOpen name = some (i, k')) (p : Addr) :
    (k'.processes p).st = (k.processes p).st := by
  unfold fifoOpen at h
  split at h
  · cases h
    exact (setFileOpen_quiet 0 _ _ _).status p
  · cases h
    rfl
  · obtain ⟨⟨lock, k₁⟩, hlock, h⟩ := Option.bind_eq_some_iff.mp h
    obtain ⟨⟨q, k₂⟩, hq, he⟩ := Option.map_eq_some_iff.mp h
    obtain ⟨-, rfl⟩ := Prod.mk.inj he
    refine ((setFileOpen_quiet 0 _ _ _).status p).trans ?_
    obtain ⟨pages, -, rfl⟩ := createQueue_spec hq
    show (k₁.processes p).st = (k.processes p).st
    unfold mutexOpen at hlock
    split at hlock
    · cases hlock
      rfl
    · cases hlock
      rfl
    · obtain ⟨⟨q', k₀⟩, hq', he⟩ := Option.map_eq_some_iff.mp hlock
      obtain ⟨pages', -, rfl⟩ := createQueue_spec hq'
      cases he
      rfl

theorem fifoOpen_twoProcesses : (twoProcesses.fifoOpen .nil).isSome := by decide +kernel

/-- The two processes after the first one opened a fifo. -/
def fifoOpened : FifoRun where
  k := ((twoProcesses.fifoOpen .nil).get fifoOpen_twoProcesses).2
  point _ := .idle

theorem init_fifoOpened : (fifoSystem 0).init fifoOpened := by
  refine ⟨twoProcesses, .nil, 0, by decide +kernel, ?_, PageStack.initial_pagesOk, ?_,
    by decide +kernel, fun _ => rfl⟩
  · rw [← Option.some_get fifoOpen_twoProcesses]
    exact congrArg some (Prod.ext (by decide +kernel) rfl)
  · intro p
    have hst : (fifoOpened.k.processes p).st = (twoProcesses.processes p).st :=
      fifoOpen_st (Option.some_get fifoOpen_twoProcesses).symm p
    rw [hst]
    show (Process.zero).st ≠ .delete
    decide

/-- A test for the guard: no write and no close. -/
def readsOnly (s : FifoRun) : FifoAction → Bool
  | .advance =>
      match s.point s.k.getCurrentProcess with
      | .writing _ _ => false
      | _ => true
  | .close => false
  | _ => true

theorem servesBlocked_of_readsOnly (s : FifoRun) (a : FifoAction) (h : readsOnly s a) :
    ServesBlocked key s a := by
  cases a with
  | advance =>
      intro source bytes hp
      simp only [readsOnly, hp] at h
      cases h
  | close => cases h
  | _ => trivial

/-- The first process reads from the empty fifo and blocks itself. -/
def readerBlocked : Option FifoRun :=
  (fifoSystem 0).executeBy readsOnly fifoOpened [.read 100 5, .advance, .advance, .advance]

/-- The fifo with a reader that waits blocked. -/
theorem fifo_readers_queued_blocked : ReadersQueued 0 (readerBlocked.get (by decide +kernel)) :=
  fifo_readers_queued
    ((System.ReachBy.init init_fifoOpened).execute servesBlocked_of_readsOnly
      (Option.some_get _).symm)

/-- The first process queues its request, the second one serves it, and then the
first one blocks itself. -/
theorem fifo_wakeup_lost : ¬∀ s, (fifoSystem 0).Reach s → ReadersQueued 0 s := by
  intro hall
  obtain ⟨t, ht, hf⟩ := System.exists_reach_of_execute init_fifoOpened
    [.read 100 5, .advance, .advance, .dispatch 2, .openName .nil, .write (fun _ => 0) 3, .advance,
      .dispatch 1, .advance]
    (fun t => (t.point 10).pastBlock.isSome && decide (t.k.processes.isBlockedProcess 10) &&
      decide (t.k.elems (t.k.openFifos 0).readQueue = [])) (by decide +kernel)
  simp only [Bool.and_eq_true, decide_eq_true_eq] at hf
  obtain ⟨⟨hpast, hb⟩, hempty⟩ := hf
  obtain ⟨r, hr⟩ := Option.isSome_iff_exists.mp hpast
  have hmem := hall t ht 10 r hr hb
  rw [hempty] at hmem
  exact absurd hmem List.not_mem_nil

end Kernel

end TPE
