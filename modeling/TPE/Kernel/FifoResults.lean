import TPE.Kernel.FifoOrder

/-!
# What a call of `fifo_read` returns

A slot holds one fifo after the other.  Each call of `fifo_read` is recorded
with the number of the fifo it was made on, with what `read_circular_buffer`
copied for it and with whether `fifo_close` released it.

A reader that runs again tests whether a fifo is open in the slot and returns
`bytes_read`.  After a close that tells nothing if another fifo was opened in
the slot: `bytes_read` is what was in the page before.  And a reader that was
interrupted between the first test and its section may have its section on a
later fifo.
-/

namespace TPE

open Function CircularBuffer

namespace Kernel

/-! ## The copies of a section -/

/-- A call of `read_circular_buffer` in `try_read`: for the request of which
reader, where to, and what it returned. -/
structure Copying where
  reader : Addr
  dest : Addr
  count : Int

/-- The call of `read_circular_buffer` in `try_read`, if there is one. -/
def copyFor (k : Kernel) (r : Addr) : Option Copying :=
  let req := k.readRequests r
  let c := (k.openFifos req.f).cBuffer
  if 0 < c.bufFill then
    match c.read (fun i => k.memory (req.buffer + i)) req.bytes with
    | .ok t => some ⟨req.readerP, req.buffer, t.count⟩
    | .error _ => none
  else none

/-- The calls of `read_circular_buffer` in `send_to_readers`. -/
def sendCopies : Nat → Kernel → Addr → List Copying
  | 0, _, _ => []
  | fuel + 1, k, q =>
      if k.isEmpty q then []
      else
        match k.copyFor (k.peek q), k.tryRead (k.peek q) with
        | some c, some (true, k) =>
            c :: ((k.dequeue q).map fun (r, k) => sendCopies fuel
              { k with processes := Procs.unblockProcess k.processes (k.readRequests r).readerP }
              q).getD []
        | _, _ => []

/-- The calls of `read_circular_buffer` in the section of `fifo_write`. -/
def writeCopies (k : Kernel) (key : Int) (source : Nat → UInt8) (bytes : Int) : List Copying :=
  match (k.openFifos key).cBuffer.write source bytes with
  | .ok t =>
      let k := k.writeFifo key fun f => { f with cBuffer := t.cbuf }
      let q := (k.openFifos key).readQueue
      sendCopies ((k.queues q).length + 1) k q
  | .error _ => []

/-- The calls of `read_circular_buffer` in the section of `fifo_read`. -/
def readCopies (k : Kernel) (key : Int) (r : Addr) : List Copying :=
  if k.isEmpty (k.readQueueOf key) then (k.copyFor r).toList else []

/-! ## The record of the calls -/

/-- Bytes that were copied for a call, from which fifo of the slot and where to. -/
structure Copy where
  fifo : Nat
  dest : Addr
  count : Int
deriving DecidableEq

/-- A call of `fifo_read`. -/
structure ReadCall where
  /-- The number of the fifo it was made on. -/
  fifo : Nat
  buf : Addr
  bytes : Int
  copies : List Copy
  /-- Whether `fifo_close` woke the reader up. -/
  released : Bool

/-- The calls on a slot, with a record of the last call of each process. -/
structure ResultRun where
  run : FifoRun
  /-- The number of the fifo in the slot. -/
  fifo : Nat
  call : Addr → ReadCall
  /-- What the last call of a process returned. -/
  returned : Addr → Option Int

namespace ResultRun

/-- The calls with the copies for their readers. -/
def addCopies (s : ResultRun) (copies : List Copying) (p : Addr) : ReadCall :=
  { s.call p with
    copies := (s.call p).copies ++
      (copies.filter (·.reader = p)).map fun c => ⟨s.fifo, c.dest, c.count⟩ }

/-- The readers of the requests in the queue. -/
def readers (key : Int) (s : ResultRun) : List Addr :=
  (s.run.k.elems (s.run.k.readQueueOf key)).map fun r => (s.run.k.readRequests r).readerP

/-- The record after a step to `t`. -/
def record (key : Int) (s : ResultRun) (t : FifoRun) : FifoAction → ResultRun
  | .openName _ =>
      { s with
        run := t
        fifo :=
          if (s.run.k.openFifos key).state ≠ .opened ∧ (t.k.openFifos key).state = .opened then
            s.fifo + 1
          else s.fifo }
  | .read buf bytes =>
      { s with
        run := t
        call := update s.call s.run.k.getCurrentProcess ⟨s.fifo, buf, bytes, [], false⟩
        returned := update s.returned s.run.k.getCurrentProcess none }
  | .close =>
      { s with
        run := t
        call := fun p =>
          if s.run.k.fifoIsOpen key ∧ p ∈ s.readers key then { s.call p with released := true }
          else s.call p }
  | .advance =>
      match s.run.point s.run.k.getCurrentProcess with
      | .requested r => { s with run := t, call := s.addCopies (s.run.k.readCopies key r) }
      | .writing source bytes =>
          { s with run := t, call := s.addCopies (s.run.k.writeCopies key source bytes) }
      | .testing _ _ =>
          { s with
            run := t
            returned :=
              if s.run.k.fifoIsOpen key then s.returned
              else update s.returned s.run.k.getCurrentProcess (some notOpenError) }
      | .collecting r _ =>
          { s with
            run := t
            returned := update s.returned s.run.k.getCurrentProcess
              (some (s.run.k.readRequests r).bytesRead) }
      | _ => { s with run := t }
  | _ => { s with run := t }

end ResultRun

/-- `fifoCallSystem` with the record. -/
def resultSystem (key : Int) : System ResultRun FifoAction where
  init s := (fifoCallSystem key).init s.run ∧ ∀ p, s.returned p = none
  next s a := ((fifoCallSystem key).next s.run a).map fun t => s.record key t a

/-- A positive result is the number of bytes that were copied for the call, once,
from its fifo to its buffer, and no more than it asked for.  A reader that was
released gets the error. -/
structure HonestCall (c : ReadCall) (v : Int) : Prop where
  copied : 0 < v → c.copies = [⟨c.fifo, c.buf, v⟩] ∧ v ≤ c.bytes
  error : c.released → v = notOpenError

/-- The results of all calls are honest, and a reader that was released is on its
way to the second test. -/
structure Honest (s : ResultRun) : Prop where
  results : ∀ p v, s.returned p = some v → HonestCall (s.call p) v
  awake : ∀ p r, (s.run.point p).request = some r → (s.call p).released →
    (s.run.point p = .yielding r ∨ ∃ waited, s.run.point p = .testing r waited) ∧
      ¬s.run.k.processes.isBlockedProcess p

/-- The sections run on an open fifo, that of a reader on the one the call was
made on.  A close releases readers that blocked themselves, and the second test
of a reader that was released finds no open fifo. -/
structure Steady (key : Int) (s : ResultRun) (a : FifoAction) : Prop where
  reading : a = .advance → ∀ r, s.run.point s.run.k.getCurrentProcess = .requested r →
    (s.run.k.openFifos key).state = .opened ∧ (s.call s.run.k.getCurrentProcess).fifo = s.fifo
  writing : a = .advance → ∀ source bytes,
    s.run.point s.run.k.getCurrentProcess = .writing source bytes →
      (s.run.k.openFifos key).state = .opened
  closing : a = .close → s.run.k.fifoIsOpen key → ∀ p r, s.run.point p = .queued r →
    r ∉ s.run.k.elems (s.run.k.readQueueOf key)
  testing : a = .advance → ∀ r waited,
    s.run.point s.run.k.getCurrentProcess = .testing r waited →
      (s.call s.run.k.getCurrentProcess).released → ¬s.run.k.fifoIsOpen key

variable {key : Int} {s t : ResultRun} {k k' : Kernel} {own : Addr → Option FifoUse} {p r : Addr}

/-! ## The copies of a section are those of its requests -/

theorem copyFor_pos (hbuffer : (k.openFifos key).cBuffer.Inv) (hf : (k.readRequests r).f = key)
    (hbytes : 0 < (k.readRequests r).bytes) (hfill : 0 < k.fillOf key) :
    k.copyFor r = some ⟨(k.readRequests r).readerP, (k.readRequests r).buffer,
      min (k.readRequests r).bytes (k.fillOf key)⟩ := by
  subst hf
  obtain ⟨t, ht, -, hcount, -⟩ := read_spec hbuffer
    (fun i => k.memory ((k.readRequests r).buffer + i)) hbytes hfill
  simp only [copyFor, if_pos hfill, ht, hcount]

theorem copyFor_empty (hf : (k.readRequests r).f = key) (hfill : k.fillOf key ≤ 0) :
    k.copyFor r = none := by
  subst hf
  exact if_neg (Int.not_lt.mpr hfill)

/-- What `send_to_readers` copies for a request that it serves. -/
def copyingOf (k : Kernel) (x : QueueNode × Int) : Copying :=
  ⟨(k.readRequests x.1.elem).readerP, (k.readRequests x.1.elem).buffer, x.2⟩

/-- A turn of `send_to_readers` is a copy. -/
theorem turn_copies {f : QueueNode} {rest : List QueueNode} (h : k.Serviceable key)
    (hfill : 0 < k.fillOf key) (hq : k.queues (k.readQueueOf key) = f :: rest) (fuel : Nat) :
    ∃ k₁, Turn key f (min (k.readRequests f.elem).bytes (k.fillOf key)) k k₁ ∧
      ∀ k', k.sendToReaders (fuel + 1) (k.readQueueOf key) = some k' →
        k₁.sendToReaders fuel (k.readQueueOf key) = some k' ∧
        k.sendCopies (fuel + 1) (k.readQueueOf key) =
          k.copyingOf (f, min (k.readRequests f.elem).bytes (k.fillOf key)) ::
            k₁.sendCopies fuel (k.readQueueOf key) := by
  obtain ⟨hkey, hbytes⟩ := h.head hq
  obtain ⟨k₀, htry, hdequeue, hturn⟩ := turn_parts h hfill hq
  have hne := not_isEmpty_cons h.header hq
  refine ⟨_, hturn, fun k' hsend => ?_⟩
  rw [sendToReaders, if_neg hne, peek_cons h.header hq, htry] at hsend
  rw [sendCopies, if_neg hne, peek_cons h.header hq, htry,
    copyFor_pos h.buffer hkey hbytes hfill]
  simp only [Option.bind_some, if_true, hdequeue] at hsend ⊢
  split at hsend
  next hfree =>
    rw [if_pos hfree]
    exact ⟨hsend, rfl⟩
  next => cases hsend

/-- Without a byte nothing is copied. -/
theorem sendCopies_empty (h : k.Serviceable key) (hfill : k.fillOf key ≤ 0) (fuel : Nat) :
    k.sendCopies (fuel + 1) (k.readQueueOf key) = [] := by
  rw [sendCopies]
  split
  next => rfl
  next hne =>
    obtain ⟨f, rest, hq⟩ := List.exists_cons_of_ne_nil (not_or.mp hne).2
    rw [peek_cons h.header hq, copyFor_empty (h.head hq).1 hfill]

/-- The copies of `send_to_readers` are those of its turns. -/
theorem sendCopies_turns {fuel : Nat} (h : k.Serviceable key)
    (hsend : k.sendToReaders fuel (k.readQueueOf key) = some k') :
    ∃ served, Turns key served k k' ∧
      k.sendCopies fuel (k.readQueueOf key) = served.map k.copyingOf := by
  refine sendToReaders_rule (motive := fun fuel k => ∃ served, Turns key served k k' ∧
    k.sendCopies fuel (k.readQueueOf key) = served.map k.copyingOf) ?_ ?_ h hsend
  · rintro fuel h (hq | hfill)
    · refine ⟨[], .done _, ?_⟩
      rw [sendCopies]
      exact if_pos (Or.inr hq)
    · exact ⟨[], .done _, sendCopies_empty h hfill fuel⟩
  · intro fuel k f rest h hfill hq hsend ih
    obtain ⟨k₁, hturn, hnext⟩ := turn_copies h hfill hq fuel
    obtain ⟨hsend₁, hcopies⟩ := hnext k' hsend
    obtain ⟨served, hturns, hserved⟩ := ih k₁ _ hturn hsend₁
    refine ⟨_, .turn hturn hturns, ?_⟩
    have hsame : k₁.copyingOf = k.copyingOf := by
      funext x
      obtain ⟨n, hn⟩ := hturn.request x.1.elem
      simp only [copyingOf, hn]
    rw [List.map_cons, ← hsame, ← hserved, hsame, hturn.queue.1, ← hcopies]

/-- The copies of the section of `fifo_write` are for the requests it serves. -/
theorem writeCopies_turns {source : Nat → UInt8} {bytes n : Int} (h : k.Serviceable key)
    (hpos : 0 < bytes) (hint : bytes < 2 ^ 31)
    (hw : k.writeSection key source bytes = some (n, k')) :
    ∃ c served, c.Inv ∧ Turns key served (k.withBuffer key c) k' ∧
      k.writeCopies key source bytes = served.map k.copyingOf := by
  unfold writeSection at hw
  split at hw
  next t ht =>
    obtain ⟨k₂, hsend, he⟩ := Option.map_eq_some_iff.mp hw
    cases he
    have fits := fits_of_write h.buffer hpos hint ht
    obtain ⟨t', ht', hinv, -⟩ := write_spec h.buffer source hpos fits
    rw [ht] at ht'
    cases ht'
    obtain ⟨served, hturns, hcopies⟩ := sendCopies_turns (h.withBuffer hinv) hsend
    refine ⟨t.cbuf, served, hinv, hturns, ?_⟩
    rw [writeCopies, ht]
    exact hcopies
  next => cases hw

/-! ## What the steps leave alone -/

/-- The readers that are not served keep their status. -/
theorem Turns.processes {served : List (QueueNode × Int)} (h : Turns key served k k')
    (hp : ∀ x ∈ served, (k.readRequests x.1.elem).readerP ≠ p) :
    k'.processes p = k.processes p := by
  induction h with
  | done => rfl
  | @turn f n k k₁ k' served hturn _ ih =>
      have hreader : ∀ r, (k₁.readRequests r).readerP = (k.readRequests r).readerP := by
        intro r
        obtain ⟨m, hm⟩ := hturn.request r
        rw [hm]
      rw [ih fun x hx => hreader _ ▸ hp x (List.mem_cons_of_mem _ hx)]
      have hne := hp _ List.mem_cons_self
      obtain ⟨-, -, c, rest, memory, -, -, -, -, rfl⟩ := hturn
      exact Procs.unblockProcess_of_ne hne.symm

/-- `unblock_process` makes a process ready, and blocks none. -/
theorem not_blocked_unblock {procs : Procs} {q : Addr} (hnull : p ≠ null)
    (hst : (procs p).st ≠ .delete) (h : ¬procs.isBlockedProcess p ∨ q = p) :
    ¬(procs.unblockProcess q).isBlockedProcess p := by
  by_cases hq : q = p
  · rw [hq, Procs.isBlockedProcess_unblock hnull hst, update_self]
    exact id
  · unfold Procs.isBlockedProcess at h ⊢
    rw [Procs.unblockProcess_of_ne (Ne.symm hq)]
    exact h.resolve_right hq

/-- `release_readers` wakes up the readers in the queue. -/
theorem releaseReaders_spec {fuel : Nat} {q : Addr} (hnull : q ≠ null)
    (hrel : k.releaseReaders fuel q = some k') :
    k'.readRequests = k.readRequests ∧ k'.openFifos = k.openFifos ∧ k'.queues q = [] ∧
      (∀ p, (∀ r ∈ k.elems q, (k.readRequests r).readerP ≠ p) →
        k'.processes p = k.processes p) ∧
      ∀ p, p ≠ null → (k.processes p).st ≠ .delete →
        (¬k.processes.isBlockedProcess p ∨ ∃ r ∈ k.elems q, (k.readRequests r).readerP = p) →
        ¬k'.processes.isBlockedProcess p := by
  induction fuel generalizing k with
  | zero => cases hrel
  | succ fuel ih =>
      rw [releaseReaders] at hrel
      split at hrel
      next hempty =>
        cases hrel
        have hnil := hempty.resolve_left hnull
        refine ⟨rfl, rfl, hnil, fun _ _ => rfl, fun p _ _ hp => hp.resolve_right ?_⟩
        rintro ⟨r, hr, -⟩
        rw [elems, hnil] at hr
        cases hr
      next hne =>
        obtain ⟨⟨r, k₁⟩, hdeq, hrel⟩ := Option.bind_eq_some_iff.mp hrel
        obtain ⟨f, rest, hf⟩ := List.exists_cons_of_ne_nil (not_or.mp hne).2
        obtain ⟨rfl, rfl⟩ := dequeue_cons hnull hf hdeq
        obtain ⟨hrequests, hfifos, hempty, hprocs, hawake⟩ := ih hrel
        simp only [elems, update_self] at hprocs hawake
        rw [elems, hf, List.map_cons]
        refine ⟨hrequests, hfifos, hempty, fun p hp => ?_, fun p hp hst hor => ?_⟩
        · refine (hprocs p fun r hr => hp r (List.mem_cons_of_mem _ hr)).trans ?_
          exact Procs.unblockProcess_of_ne (hp f.elem List.mem_cons_self).symm
        · refine hawake p hp (fun hdel => hst (Procs.unblockProcess_delete_iff.mp hdel)) ?_
          rcases hor with hb | ⟨r, hr, he⟩
          · exact Or.inl (not_blocked_unblock hp hst (Or.inl hb))
          · rcases List.mem_cons.mp hr with rfl | hr
            · exact Or.inl (not_blocked_unblock hp hst (Or.inr he))
            · exact Or.inr ⟨r, hr, he⟩

/-- `fifo_close` empties the queue. -/
theorem fifoClose_spec {n : Int} (hnull : k.readQueueOf key ≠ null) (hopen : k.fifoIsOpen key)
    (hc : k.fifoClose key = some (n, k')) :
    k'.readRequests = k.readRequests ∧ k'.elems (k'.readQueueOf key) = [] ∧
      (∀ p, (∀ r ∈ k.elems (k.readQueueOf key), (k.readRequests r).readerP ≠ p) →
        k'.processes p = k.processes p) ∧
      ∀ p, p ≠ null → (k.processes p).st ≠ .delete →
        (∃ r ∈ k.elems (k.readQueueOf key), (k.readRequests r).readerP = p) →
        ¬k'.processes.isBlockedProcess p := by
  rw [fifoClose, if_pos hopen] at hc
  obtain ⟨k₁, hrel, hc⟩ := Option.bind_eq_some_iff.mp hc
  obtain ⟨k₂, hdestroy, hc⟩ := Option.map_eq_some_iff.mp hc
  cases hc
  obtain ⟨hrequests, hfifos, hempty, hprocs, hawake⟩ := releaseReaders_spec hnull hrel
  rw [destroyQueue_isEmpty (Or.inr hempty)] at hdestroy
  obtain ⟨-, hdestroy⟩ := Option.ite_none_right_eq_some.mp hdestroy
  cases hdestroy
  refine ⟨hrequests, ?_, hprocs, fun p hp hst hr => hawake p hp hst (Or.inr hr)⟩
  simp only [elems, readQueueOf, writeFifo, storePage, update_self, hfifos]
  exact congrArg (List.map QueueNode.elem) hempty

/-- A queue that is created has no requests, and may be the fifo's own. -/
theorem elems_createQueue {q : Addr} (hq : k.createQueue = some (q, k')) (a : Addr) :
    ∀ r ∈ k'.elems a, r ∈ k.elems a := by
  obtain ⟨pages, -, rfl⟩ := createQueue_spec hq
  intro r hr
  simp only [elems] at hr
  by_cases ha : a = q
  · rw [ha, update_self] at hr
    cases hr
  · rwa [update_of_ne ha] at hr

theorem elems_mutexOpen {name : CString} {lock : Int} (ho : k.mutexOpen name = some (lock, k'))
    (a : Addr) : ∀ r ∈ k'.elems a, r ∈ k.elems a := by
  unfold Kernel.mutexOpen at ho
  split at ho
  · cases ho
    exact fun r hr => hr
  · cases ho
    exact fun r hr => hr
  · obtain ⟨⟨q, k₁⟩, hq, he⟩ := Option.map_eq_some_iff.mp ho
    cases he
    exact elems_createQueue hq a

@[simp] theorem queues_setFileOpen {fd : Int} : (k.setFileOpen p fd).queues = k.queues := by
  obtain ⟨processes, he⟩ := setFileOpen_eq k p fd
  rw [he]

@[simp] theorem readRequests_setFileOpen {fd : Int} :
    (k.setFileOpen p fd).readRequests = k.readRequests := by
  obtain ⟨processes, he⟩ := setFileOpen_eq k p fd
  rw [he]

/-- `fifo_open` adds no request to a queue, and a new fifo has none. -/
theorem elems_fifoOpen {name : CString} {i : Int} (ho : k.fifoOpen name = some (i, k')) :
    k'.readRequests = k.readRequests ∧
    (∀ r ∈ k'.elems (k'.readQueueOf key), r ∈ k.elems (k.readQueueOf key)) ∧
    ((k.openFifos key).state ≠ .opened → (k'.openFifos key).state = .opened →
      k'.elems (k'.readQueueOf key) = []) := by
  unfold fifoOpen at ho
  split at ho
  next j hsearch =>
    cases ho
    simp only [readRequests_setFileOpen, elems, queues_setFileOpen, readQueueOf,
      openFifos_setFileOpen]
    exact ⟨trivial, fun r hr => hr, fun hclosed hopen => absurd hopen hclosed⟩
  next =>
    cases ho
    exact ⟨rfl, fun r hr => hr, fun hclosed hopen => absurd hopen hclosed⟩
  next j hsearch =>
    obtain ⟨⟨lock, k₁⟩, hlock, ho⟩ := Option.bind_eq_some_iff.mp ho
    obtain ⟨⟨q, k₂⟩, hq, ho⟩ := Option.map_eq_some_iff.mp ho
    cases ho
    have hsub : ∀ a, ∀ r ∈ k₂.elems a, r ∈ k.elems a := fun a r hr =>
      elems_mutexOpen hlock a r (elems_createQueue hq a r hr)
    obtain ⟨pages₁, queues₁, openMutexes, rfl⟩ := mutexOpen_eq hlock
    obtain ⟨pages, -, rfl⟩ := createQueue_spec hq
    simp only [elems] at hsub
    simp only [readRequests_setFileOpen, elems, queues_setFileOpen, readQueueOf,
      openFifos_setFileOpen, writeFifo]
    refine ⟨trivial, ?_⟩
    by_cases hj : key = j
    · -- the new fifo has the new queue
      subst hj
      simp only [update_self, List.map_nil, List.not_mem_nil, false_implies, implies_true, and_true]
    · simp only [update_of_ne hj]
      exact ⟨hsub _, fun hclosed hopen => absurd hopen hclosed⟩

/-! ## The invariant -/

/-- Nothing was copied for the call, and it was not released. -/
structure ReadCall.Fresh (c : ReadCall) : Prop where
  copies : c.copies = []
  released : c.released = false

/-- How far the request `r` of the reader `p` is. -/
inductive Progress (key : Int) (s : ResultRun) (p r : Addr) : Prop where
  /-- Before the section of `fifo_read`. -/
  | early (point : s.run.point p = .requested r) (fresh : (s.call p).Fresh)
  /-- The reader waits, and is in the queue of its own fifo if it is in one. -/
  | waits (waits : Waits s.run p r) (fresh : (s.call p).Fresh)
      (own : r ∈ s.run.k.elems (s.run.k.readQueueOf key) → (s.call p).fifo = s.fifo)
  /-- `bytes_read` is what was copied. -/
  | served {n : Int} (past : s.run.point p ≠ .requested r)
      (left : r ∉ s.run.k.elems (s.run.k.readQueueOf key))
      (read : (s.run.k.readRequests r).bytesRead = n)
      (copies : (s.call p).copies = [⟨(s.call p).fifo, (s.call p).buf, n⟩])
      (le : n ≤ (s.call p).bytes) (kept : (s.call p).released = false)
  /-- The reader is on its way to the second test. -/
  | released (left : r ∉ s.run.k.elems (s.run.k.readQueueOf key))
      (freed : (s.call p).released = true)
      (point : s.run.point p = .yielding r ∨ ∃ waited, s.run.point p = .testing r waited)
      (awake : ¬s.run.k.processes.isBlockedProcess p)

/-- What is known of a process, its call and its last result. -/
structure Fine (key : Int) (s : ResultRun) (p : Addr) : Prop where
  entered : ∀ buf bytes pos, s.run.point p = .entered buf bytes pos →
    (s.call p).Fresh ∧ (s.call p).buf = buf ∧ (s.call p).bytes = bytes
  request : ∀ r, (s.run.point p).request = some r →
    (s.run.k.readRequests r).buffer = (s.call p).buf ∧
    (s.run.k.readRequests r).bytes = (s.call p).bytes ∧ Progress key s p r
  returned : ∀ v, s.returned p = some v → HonestCall (s.call p) v ∧
    (s.run.point p).request = none ∧ ∀ buf bytes pos, s.run.point p ≠ .entered buf bytes pos

/-- The invariant of the runs. -/
structure ResultInv (key : Int) (s : ResultRun) : Prop where
  calls : ∃ own, CallsInv key own s.run
  counts : CountsOk s.run
  fine : ∀ p, Fine key s p

/-- The kernel `k'` is for the process `p` as the one before. -/
structure Undisturbed (key : Int) (s : ResultRun) (k' : Kernel) (p : Addr) : Prop where
  status : (s.run.point p).request ≠ none → (k'.processes p).st = (s.run.k.processes p).st
  request : ∀ r, (s.run.point p).request = some r →
    k'.readRequests r = s.run.k.readRequests r
  queue : ∀ r, (s.run.point p).request = some r → r ∈ k'.elems (k'.readQueueOf key) →
    r ∈ s.run.k.elems (s.run.k.readQueueOf key)

theorem Undisturbed.refl : Undisturbed key s s.run.k p :=
  ⟨fun _ => rfl, fun _ _ => rfl, fun _ _ hr => hr⟩

namespace Fine

/-- A process that the step does not concern. -/
theorem frame (h : Fine key s p) (hundisturbed : Undisturbed key s t.run.k p)
    (hpoint : t.run.point p = s.run.point p) (hcall : t.call p = s.call p)
    (hreturned : t.returned p = s.returned p)
    (hfifo : t.fifo = s.fifo ∨ t.run.k.elems (t.run.k.readQueueOf key) = []) : Fine key t p := by
  constructor
  · rw [hpoint, hcall]
    exact h.entered
  · intro r hr
    rw [hpoint] at hr
    obtain ⟨hbuf, hbytes, hprogress⟩ := h.request r hr
    have hleft : r ∉ s.run.k.elems (s.run.k.readQueueOf key) →
        r ∉ t.run.k.elems (t.run.k.readQueueOf key) := mt (hundisturbed.queue r hr)
    have hst := hundisturbed.status (by rw [hr]; simp)
    rw [hundisturbed.request r hr, hcall]
    refine ⟨hbuf, hbytes, ?_⟩
    cases hprogress with
    | early point fresh => exact .early (hpoint.trans point) (hcall ▸ fresh)
    | waits waits fresh own =>
        refine .waits (waits.of_eq hpoint hst) (hcall ▸ fresh) fun hmem => ?_
        rw [hcall, own (hundisturbed.queue r hr hmem)]
        rcases hfifo with hfifo | hnil
        · exact hfifo.symm
        · rw [hnil] at hmem
          cases hmem
    | served past left read copies le kept =>
        refine .served (hpoint ▸ past) (hleft left) ?_ (hcall ▸ copies) (hcall ▸ le) (hcall ▸ kept)
        rw [hundisturbed.request r hr]
        exact read
    | released left freed point awake =>
        refine .released (hleft left) (hcall ▸ freed) (hpoint ▸ point) ?_
        unfold Procs.isBlockedProcess at awake ⊢
        rw [hst]
        exact awake
  · intro v hv
    rw [hreturned] at hv
    rw [hcall, hpoint]
    exact h.returned v hv

/-- A process outside the calls of `fifo_read`. -/
theorem outside (hrequest : (t.run.point p).request = none)
    (hentered : ∀ buf bytes pos, t.run.point p ≠ .entered buf bytes pos)
    (hreturned : ∀ v, t.returned p = some v → HonestCall (t.call p) v) : Fine key t p := by
  refine ⟨fun buf bytes pos hp => absurd hp (hentered buf bytes pos), fun r hr => ?_,
    fun v hv => ⟨hreturned v hv, hrequest, hentered⟩⟩
  rw [hrequest] at hr
  cases hr

/-- A process in a call of `fifo_read` has returned nothing. -/
theorem inside (h : Fine key s p) (hp : (s.run.point p).request = some r) :
    s.returned p = none := by
  cases hv : s.returned p with
  | none => rfl
  | some v =>
      have hnone := (h.returned v hv).2.1
      rw [hp] at hnone
      cases hnone

/-- A process in a call of `fifo_read` with the request `r`. -/
theorem of_request (hrequest : (t.run.point p).request = some r)
    (hbuf : (t.run.k.readRequests r).buffer = (t.call p).buf)
    (hbytes : (t.run.k.readRequests r).bytes = (t.call p).bytes)
    (hprogress : Progress key t p r) (hreturned : t.returned p = none) : Fine key t p := by
  refine ⟨fun buf bytes pos hp => ?_, fun r' hr => ?_, fun v hv => ?_⟩
  · rw [hp] at hrequest
    cases hrequest
  · rw [hrequest] at hr
    cases hr
    exact ⟨hbuf, hbytes, hprogress⟩
  · rw [hreturned] at hv
    cases hv

/-- A request past its section and its wait was served or its reader released. -/
theorem answered (h : Fine key s p) (hp : (s.run.point p).request = some r)
    (hrequested : s.run.point p ≠ .requested r) (hwaits : ¬Waits s.run p r) :
    r ∉ s.run.k.elems (s.run.k.readQueueOf key) ∧
    ((∃ n, (s.run.k.readRequests r).bytesRead = n ∧
        (s.call p).copies = [⟨(s.call p).fifo, (s.call p).buf, n⟩] ∧ n ≤ (s.call p).bytes ∧
        (s.call p).released = false) ∨
      (s.call p).released = true ∧
        (s.run.point p = .yielding r ∨ ∃ waited, s.run.point p = .testing r waited) ∧
        ¬s.run.k.processes.isBlockedProcess p) := by
  cases (h.request r hp).2.2 with
  | early point fresh => exact absurd point hrequested
  | waits waits fresh own => exact absurd waits hwaits
  | served past left read copies le kept => exact ⟨left, Or.inl ⟨_, read, copies, le, kept⟩⟩
  | released left freed point awake => exact ⟨left, Or.inr ⟨freed, point, awake⟩⟩

end Fine

/-! ## Every step -/

namespace ResultInv

variable {pt : FifoPoint} {q : Addr}

theorem openName {name : CString} {i : Int} (h : ResultInv key s)
    (ho : s.run.k.fifoOpen name = some (i, k')) :
    Fine key (s.record key { s.run with k := k' } (.openName name)) q := by
  obtain ⟨hrequests, hsub, hnew⟩ := @elems_fifoOpen key _ _ _ _ ho
  refine (h.fine q).frame ⟨fun _ => fifoOpen_st ho q, fun _ _ => congrFun hrequests _,
    fun _ _ hr => hsub _ hr⟩ rfl rfl rfl ?_
  by_cases hopens : (s.run.k.openFifos key).state ≠ .opened ∧ (k'.openFifos key).state = .opened
  · exact Or.inr (hnew hopens.1 hopens.2)
  · exact Or.inl (if_neg hopens)

theorem read {buf : Addr} {bytes : Int} (h : ResultInv key s) (pos : 0 < bytes) :
    Fine key (s.record key { s.run with
      point := update s.run.point s.run.k.getCurrentProcess (.entered buf bytes pos) }
      (.read buf bytes)) q := by
  by_cases hq : q = s.run.k.getCurrentProcess
  · subst hq
    constructor
    · intro buf' bytes' pos' hp
      simp only [ResultRun.record, update_self] at hp ⊢
      cases hp
      exact ⟨⟨rfl, rfl⟩, rfl, rfl⟩
    · intro r hr
      simp only [ResultRun.record, update_self] at hr
      cases hr
    · intro v hv
      simp only [ResultRun.record, update_self] at hv
      cases hv
  · exact (h.fine q).frame .refl (update_of_ne hq _ _) (update_of_ne hq _ _) (update_of_ne hq _ _)
      (Or.inl rfl)

theorem write {source : Nat → UInt8} {bytes : Int} (h : ResultInv key s) :
    Fine key (s.record key { s.run with
      point := update s.run.point s.run.k.getCurrentProcess (.writing source bytes) }
      (.write source bytes)) q := by
  by_cases hq : q = s.run.k.getCurrentProcess
  · subst hq
    refine .outside ?_ (fun buf bytes pos hp => ?_) fun v hv => ((h.fine _).returned v hv).1
    · simp only [ResultRun.record, update_self]
      rfl
    · simp only [ResultRun.record, update_self] at hp
      cases hp
  · exact (h.fine q).frame .refl (update_of_ne hq _ _) rfl rfl (Or.inl rfl)

/-- The readers in the queue wait. -/
theorem waits_of_mem (h : CallsInv key own s.run)
    (hr : r ∈ s.run.k.elems (s.run.k.readQueueOf key)) :
    Waits s.run (s.run.k.readRequests r).readerP r := by
  obtain ⟨f, hf, rfl⟩ := List.mem_map.mp hr
  obtain ⟨p, -, hp, hreq⟩ := h.node_request hf
  rw [hreq.reader]
  exact hp

/-- A reader that is released by a close. -/
theorem close {n : Int} (h : ResultInv key s)
    (hblocked : s.run.k.fifoIsOpen key → ∀ p r, s.run.point p = .queued r →
      r ∉ s.run.k.elems (s.run.k.readQueueOf key))
    (hc : s.run.k.fifoClose key = some (n, k')) :
    Fine key (s.record key { s.run with k := k' } .close) q := by
  obtain ⟨own, hcalls⟩ := h.calls
  by_cases hopen : s.run.k.fifoIsOpen key
  · obtain ⟨hrequests, hempty, hprocs, hawake⟩ := fifoClose_spec hcalls.header.1 hopen hc
    by_cases hq : q ∈ s.readers key
    · have hcall : (s.record key { s.run with k := k' } .close).call q =
          { s.call q with released := true } := if_pos ⟨hopen, hq⟩
      obtain ⟨r, hr, rfl⟩ := List.mem_map.mp hq
      have hwaits := waits_of_mem hcalls hr
      obtain ⟨hbuf, hbytes, -⟩ := (h.fine _).request r hwaits.request
      refine .of_request hwaits.request ?_ ?_ (.released ?_ ?_ ?_ ?_)
        ((h.fine _).inside hwaits.request)
      · rw [hcall]
        exact (congrArg ReadRequest.buffer (congrFun hrequests r)).trans hbuf
      · rw [hcall]
        exact (congrArg ReadRequest.bytes (congrFun hrequests r)).trans hbytes
      · exact hempty ▸ List.not_mem_nil
      · rw [hcall]
      · rcases hwaits with hpoint | ⟨hpoint, -⟩
        · exact absurd hr (hblocked hopen _ r hpoint)
        · exact Or.inl hpoint
      · exact hawake _ (hcalls.request _ r hwaits.request).2.reader_ne (hcalls.alive _)
          ⟨r, hr, rfl⟩
    · refine (h.fine q).frame ⟨fun _ => ?_, fun _ _ => congrFun hrequests _, fun _ _ hr => ?_⟩
        rfl (if_neg fun hc => hq hc.2) rfl (Or.inr hempty)
      · exact congrArg Process.st (hprocs q fun r hr he => hq (List.mem_map.mpr ⟨r, hr, he⟩))
      · exact absurd (hempty ▸ hr) List.not_mem_nil
  · rw [fifoClose, if_neg hopen] at hc
    cases hc
    exact (h.fine q).frame .refl rfl (if_neg fun hc => hopen hc.1) rfl (Or.inl rfl)

/-- `create_read_request` -/
theorem entered {buf : Addr} {bytes : Int} {pos : 0 < bytes} (h : ResultInv key s)
    (hp : s.run.point s.run.k.getCurrentProcess = .entered buf bytes pos)
    (hr : s.run.k.createReadRequest key buf bytes = some (r, k')) :
    Fine key (s.record key
      ⟨k', update s.run.point s.run.k.getCurrentProcess (.requested r)⟩ .advance) q := by
  obtain ⟨own, hcalls⟩ := h.calls
  have hrecord : s.record key
      ⟨k', update s.run.point s.run.k.getCurrentProcess (.requested r)⟩ .advance =
      { s with run := ⟨k', update s.run.point s.run.k.getCurrentProcess (.requested r)⟩ } := by
    simp only [ResultRun.record, hp]
  have hothers := fun a => hcalls.request_createRequest hr (a := a)
  have hsame := (SameFifo.createRequest hcalls hr).waiting
  rw [hrecord]
  obtain ⟨⟨a, k₁⟩, hget, he⟩ := Option.map_eq_some_iff.mp hr
  obtain ⟨pages, hpages, rfl⟩ := getPage_eq_some hget
  cases he
  by_cases hq : q = s.run.k.getCurrentProcess
  · subst hq
    obtain ⟨hfresh, hbuf, hbytes⟩ := (h.fine _).entered buf bytes pos hp
    refine .of_request (by simp only [update_self]; rfl) ?_ ?_
      (.early (update_self _ _ _) hfresh) ?_
    · simp only [writeRequest, update_self]
      exact hbuf.symm
    · simp only [writeRequest, update_self]
      exact hbytes.symm
    · cases hv : s.returned s.run.k.getCurrentProcess with
      | none => rfl
      | some v => exact absurd hp (((h.fine _).returned v hv).2.2 buf bytes pos)
  · refine (h.fine q).frame ⟨fun _ => rfl, fun r' hr' => ?_, fun _ _ hmem => hmem⟩
      (update_of_ne hq _ _) rfl rfl (Or.inl rfl)
    exact hothers r' (by rw [(hcalls.request q r' hr').1]; simp)

/-- A process that is not the running one, in a step after the section. -/
theorem later {processes : Procs} {pages : PageStack} (h : ResultInv key s)
    (hprocs : ∀ q ≠ s.run.k.getCurrentProcess, processes q = s.run.k.processes q)
    (hq : q ≠ s.run.k.getCurrentProcess)
    (hrun : t.run = ⟨{ s.run.k with processes, pages },
      update s.run.point s.run.k.getCurrentProcess pt⟩)
    (hcall : t.call = s.call) (hreturned : t.returned q = s.returned q) (hfifo : t.fifo = s.fifo) :
    Fine key t q := by
  have hk : Undisturbed key s t.run.k q := by
    rw [hrun]
    exact ⟨fun _ => congrArg Process.st (hprocs q hq), fun _ _ => rfl, fun _ _ hr => hr⟩
  refine (h.fine q).frame hk ?_ (congrFun hcall q) hreturned (Or.inl hfifo)
  rw [hrun]
  exact update_of_ne hq _ _

/-- `block_process` -/
theorem queued (h : ResultInv key s)
    (hp : s.run.point s.run.k.getCurrentProcess = .queued r) :
    Fine key (s.record key ⟨{ s.run.k with
        processes := Procs.blockProcess s.run.k.processes (s.run.k.readRequests r).readerP },
      update s.run.point s.run.k.getCurrentProcess (.yielding r)⟩ .advance) q := by
  obtain ⟨own, hcalls⟩ := h.calls
  have hrequest : (s.run.point s.run.k.getCurrentProcess).request = some r := by
    rw [hp]
    rfl
  obtain ⟨-, hreader, hnull, -, -⟩ := hcalls.request _ r hrequest
  rw [hreader]
  simp only [ResultRun.record, hp]
  by_cases hq : q = s.run.k.getCurrentProcess
  · subst hq
    obtain ⟨hbuf, hbytes, hprogress⟩ := (h.fine _).request r hrequest
    refine .of_request (by simp only [update_self]; rfl) hbuf hbytes ?_
      ((h.fine _).inside hrequest)
    cases hprogress with
    | early point fresh => exact nomatch point.symm.trans hp
    | waits waits fresh own =>
        refine .waits (Or.inr ⟨update_self _ _ _, ?_⟩) fresh own
        simp only [Procs.isBlockedProcess_block hnull (hcalls.alive _), update_self]
    | served past left read copies le kept =>
        refine .served ?_ left read copies le kept
        simp only [update_self]
        exact fun he => nomatch he
    | released left freed point awake =>
        rw [hp] at point
        rcases point with point | ⟨waited, point⟩ <;> cases point
  · exact h.later (fun _ hne => Procs.blockProcess_of_ne hne) hq rfl rfl rfl rfl

/-- The running process goes on after its wait. -/
theorem answered (h : ResultInv key s)
    (hrequest : (s.run.point s.run.k.getCurrentProcess).request = some r)
    (hrequested : s.run.point s.run.k.getCurrentProcess ≠ .requested r)
    (hwaits : ¬Waits s.run s.run.k.getCurrentProcess r) (hpt : pt.request = some r)
    (hpast : pt ≠ .requested r)
    (htested : (s.call s.run.k.getCurrentProcess).released = true →
      ∃ waited, pt = .testing r waited) :
    Fine key { s with
      run := ⟨s.run.k, update s.run.point s.run.k.getCurrentProcess pt⟩ } q := by
  by_cases hq : q = s.run.k.getCurrentProcess
  · subst hq
    obtain ⟨hbuf, hbytes, -⟩ := (h.fine _).request r hrequest
    refine .of_request (by simpa only [update_self] using hpt) hbuf hbytes ?_
      ((h.fine _).inside hrequest)
    obtain ⟨left, ⟨n, read, copies, le, kept⟩ | ⟨freed, -, awake⟩⟩ :=
      (h.fine _).answered hrequest hrequested hwaits
    · refine .served ?_ left read copies le kept
      simpa only [update_self] using hpast
    · refine .released left freed (Or.inr ?_) awake
      simpa only [update_self] using htested freed
  · exact h.later (fun _ _ => rfl) hq rfl rfl rfl rfl

theorem yielding (h : ResultInv key s)
    (hp : s.run.point s.run.k.getCurrentProcess = .yielding r)
    (hb : ¬s.run.k.processes.isBlockedProcess s.run.k.getCurrentProcess) :
    Fine key (s.record key ⟨s.run.k,
      update s.run.point s.run.k.getCurrentProcess (.testing r true)⟩ .advance) q := by
  simp only [ResultRun.record, hp]
  refine h.answered (r := r) (by rw [hp]; rfl) (by simp [hp]) ?_ rfl
    (fun he => nomatch he) fun _ => ⟨true, rfl⟩
  rintro (hw | ⟨-, hw⟩)
  · exact nomatch hw.symm.trans hp
  · exact hb hw

theorem not_waits_of_testing {waited : Bool}
    (hp : s.run.point p = .testing r waited ∨ s.run.point p = .collecting r waited) :
    ¬Waits s.run p r := by
  rintro (hw | ⟨hw, -⟩) <;> rw [hw] at hp <;> rcases hp with hp | hp <;> cases hp

/-- The second test of `fifo_read`. -/
theorem testing {waited : Bool} (h : ResultInv key s)
    (hp : s.run.point s.run.k.getCurrentProcess = .testing r waited)
    (hguard : (s.call s.run.k.getCurrentProcess).released → ¬s.run.k.fifoIsOpen key) :
    Fine key (s.record key ⟨s.run.k, update s.run.point s.run.k.getCurrentProcess
      (if s.run.k.fifoIsOpen key then .collecting r waited else .idle)⟩ .advance) q := by
  simp only [ResultRun.record, hp]
  by_cases hopen : s.run.k.fifoIsOpen key
  · simp only [if_pos hopen]
    exact h.answered (by rw [hp]; rfl) (by simp [hp])
      (not_waits_of_testing (Or.inl hp)) rfl (fun he => nomatch he)
      fun freed => absurd hopen (hguard freed)
  · simp only [if_neg hopen]
    by_cases hq : q = s.run.k.getCurrentProcess
    · subst hq
      refine .outside (by simp only [update_self]; rfl) (fun buf bytes pos he => ?_) fun v hv => ?_
      · simp only [update_self] at he
        cases he
      · simp only [update_self] at hv
        cases hv
        exact ⟨fun hpos => absurd hpos (by decide), fun _ => rfl⟩
    · exact h.later (fun _ _ => rfl) hq rfl rfl (update_of_ne hq _ _) rfl

/-- The return of `bytes_read`. -/
theorem collecting {waited : Bool} (h : ResultInv key s)
    (hp : s.run.point s.run.k.getCurrentProcess = .collecting r waited) :
    Fine key (s.record key ⟨s.run.k.storePage r,
      update s.run.point s.run.k.getCurrentProcess .idle⟩ .advance) q := by
  simp only [ResultRun.record, hp]
  by_cases hq : q = s.run.k.getCurrentProcess
  · subst hq
    obtain ⟨left, ⟨n, read, copies, le, kept⟩ | ⟨-, point, -⟩⟩ := (h.fine _).answered (r := r)
      (by rw [hp]; rfl) (by simp [hp])
      (not_waits_of_testing (Or.inr hp))
    · refine .outside (by simp only [update_self]; rfl) (fun buf bytes pos he => ?_) fun v hv => ?_
      · simp only [update_self] at he
        cases he
      · simp only [update_self, Option.some.injEq] at hv
        subst hv
        rw [read]
        exact ⟨fun _ => ⟨copies, le⟩, fun freed => absurd (kept.symm.trans freed) Bool.false_ne_true⟩
    · rw [hp] at point
      rcases point with point | ⟨waited, point⟩ <;> cases point
  · exact h.later (fun _ _ => rfl) hq rfl rfl (update_of_ne hq _ _) rfl

/-- What is copied for other readers does not concern a call. -/
theorem addCopies_of_ne {copies : List Copying} (h : ∀ c ∈ copies, c.reader ≠ p) :
    s.addCopies copies p = s.call p := by
  have hnil : copies.filter (·.reader = p) = [] :=
    List.filter_eq_nil_iff.mpr fun c hc => by simpa using h c hc
  rw [ResultRun.addCopies, hnil, List.map_nil, List.append_nil]

/-- The one copy for a reader goes to its call. -/
theorem addCopies_of_mem {copies : List Copying} {c : Copying}
    (hnodup : (copies.map Copying.reader).Nodup) (hc : c ∈ copies) :
    s.addCopies copies c.reader =
      { s.call c.reader with
        copies := (s.call c.reader).copies ++ [⟨s.fifo, c.dest, c.count⟩] } := by
  have hone : copies.filter (·.reader = c.reader) = [c] := by
    induction copies with
    | nil => cases hc
    | cons d copies ih =>
        rw [List.map_cons, List.nodup_cons] at hnodup
        rcases List.mem_cons.mp hc with rfl | hc
        · rw [List.filter_cons_of_pos (by simp), List.filter_eq_nil_iff.mpr fun e he => ?_]
          simp only [decide_eq_true_eq]
          exact fun heq => hnodup.1 (heq ▸ List.mem_map_of_mem he)
        · rw [List.filter_cons_of_neg, ih hnodup.2 hc]
          simp only [decide_eq_true_eq]
          exact fun heq => hnodup.1 (heq ▸ List.mem_map_of_mem hc)
  rw [ResultRun.addCopies, hone, List.map_singleton]

/-- A reader that has not queued its request has got nothing yet. -/
theorem fresh_of_requested {p : Addr} (h : ResultInv key s) (hp : s.run.point p = .requested r) :
    (s.call p).Fresh := by
  have hrequest : (s.run.point p).request = some r := by
    rw [hp]
    rfl
  obtain ⟨-, -, hprogress⟩ := (h.fine p).request r hrequest
  cases hprogress with
  | early _ fresh => exact fresh
  | waits _ fresh => exact fresh
  | served past => exact absurd hp past
  | released left freed point =>
      rw [hp] at point
      rcases point with point | ⟨waited, point⟩ <;> cases point

/-- A reader whose request is in the queue has got nothing yet, and reads from the fifo of now. -/
theorem fresh_of_waits {p : Addr} (h : ResultInv key s) (hwaits : Waits s.run p r)
    (hmem : r ∈ s.run.k.elems (s.run.k.readQueueOf key)) :
    (s.call p).Fresh ∧ (s.call p).fifo = s.fifo := by
  obtain ⟨-, -, hprogress⟩ := (h.fine p).request r hwaits.request
  cases hprogress with
  | early point _ => rcases hwaits with hw | ⟨hw, -⟩ <;> exact nomatch hw.symm.trans point
  | waits _ fresh own => exact ⟨fresh, own hmem⟩
  | served _ left => exact absurd hmem left
  | released left => exact absurd hmem left

/-- The section of `fifo_read`.  It is on the fifo the call was made on. -/
theorem requested {b : Bool} (h : ResultInv key s)
    (hp : s.run.point s.run.k.getCurrentProcess = .requested r)
    (hmine : (s.call s.run.k.getCurrentProcess).fifo = s.fifo)
    (hr : s.run.k.readSection key r = some (b, k')) :
    Fine key (s.record key ⟨k', update s.run.point s.run.k.getCurrentProcess
      (if b then .testing r false else .queued r)⟩ .advance) q := by
  obtain ⟨own, hcalls⟩ := h.calls
  have hrequest : (s.run.point s.run.k.getCurrentProcess).request = some r := by
    rw [hp]
    rfl
  have hreq := (hcalls.request _ r hrequest).2
  obtain ⟨hbuf, hbytes, -⟩ := (h.fine _).request r hrequest
  have hfresh := h.fresh_of_requested hp
  have hother : ∀ {q r'}, q ≠ s.run.k.getCurrentProcess → (s.run.point q).request = some r' →
      r' ≠ r := by
    rintro q r' hq hr' rfl
    exact hq (hcalls.reader_unique hr' hrequest)
  have hpoint : ∀ {pt : FifoPoint} {q}, q ≠ s.run.k.getCurrentProcess →
      update s.run.point s.run.k.getCurrentProcess pt q = s.run.point q :=
    fun hq => update_of_ne hq _ _
  simp only [ResultRun.record, hp]
  by_cases hnow : s.run.k.queues (s.run.k.readQueueOf key) = [] ∧ 0 < s.run.k.fillOf key
  · obtain ⟨hnil, hsome⟩ := hnow
    obtain ⟨rfl, -, hwaiting, -, hprocs, hrequests⟩ :=
      readSection_now hcalls.buffer hreq hnil hsome hr
    have hempty : k'.elems (k'.readQueueOf key) = [] := by
      rw [elems, waitingOf_eq_nil_iff.mp hwaiting]
      rfl
    have hcopies : s.run.k.readCopies key r = [⟨s.run.k.getCurrentProcess,
        (s.call s.run.k.getCurrentProcess).buf,
        min (s.run.k.readRequests r).bytes (s.run.k.fillOf key)⟩] := by
      rw [readCopies, if_pos (show s.run.k.isEmpty (s.run.k.readQueueOf key) from Or.inr hnil),
        copyFor_pos hcalls.buffer hreq.fifo hreq.pos hsome,
        hreq.reader, hbuf]
      rfl
    rw [hcopies]
    by_cases hq : q = s.run.k.getCurrentProcess
    · subst hq
      have hcall : ∀ n, s.addCopies [⟨s.run.k.getCurrentProcess,
          (s.call s.run.k.getCurrentProcess).buf, n⟩] s.run.k.getCurrentProcess =
          { s.call s.run.k.getCurrentProcess with
            copies := [⟨s.fifo, (s.call s.run.k.getCurrentProcess).buf, n⟩] } := by
        intro n
        simp [ResultRun.addCopies, hfresh.copies]
      refine .of_request (r := r) (by simp only [update_self]; rfl) ?_ ?_
        (.served ?_ ?_ rfl ?_ ?_ ?_) ((h.fine _).inside hrequest)
      · simp only [hrequests, update_self, hcall]
        exact hbuf
      · simp only [hrequests, update_self, hcall]
        exact hbytes
      · simp only [update_self]
        intro he
        cases he
      · exact hempty ▸ List.not_mem_nil
      · simp only [hrequests, update_self, hcall, hmine]
      · simp only [hrequests, update_self, hcall, ← hbytes]
        exact min_le_left _ _
      · simp only [hcall]
        exact hfresh.released
    · refine (h.fine q).frame ⟨fun _ => by rw [hprocs], fun r' hr' => ?_, fun _ _ hmem => ?_⟩
        (hpoint hq) (addCopies_of_ne ?_) rfl (Or.inl rfl)
      · rw [hrequests, update_of_ne (hother hq hr')]
      · exact absurd (hempty ▸ hmem) List.not_mem_nil
      · intro c hc
        rw [List.mem_singleton.mp hc]
        exact Ne.symm hq
  · have hlater : s.run.k.queues (s.run.k.readQueueOf key) = [] → s.run.k.fillOf key ≤ 0 :=
      fun hnil => Int.not_lt.mp fun hfill => hnow ⟨hnil, hfill⟩
    obtain ⟨rfl, -, hqueued, -, hprocs, hrequests⟩ :=
      readSection_later hcalls.header.1 hreq hlater hr
    have hcopies : s.run.k.readCopies key r = [] := by
      rw [readCopies]
      split
      next hempty =>
        rw [copyFor_empty hreq.fifo (hlater (hempty.resolve_left hcalls.header.1))]
        rfl
      next => rfl
    rw [hcopies]
    have hcall : ∀ q, s.addCopies [] q = s.call q := fun q =>
      addCopies_of_ne fun c hc => absurd hc List.not_mem_nil
    by_cases hq : q = s.run.k.getCurrentProcess
    · subst hq
      refine .of_request (r := r) (by simp only [update_self]; rfl) ?_ ?_
        (.waits (Or.inl ?_) ?_ fun _ => ?_) ((h.fine _).inside hrequest)
      · simp only [hrequests, hcall]
        exact hbuf
      · simp only [hrequests, hcall]
        exact hbytes
      · simp only [update_self]
        rfl
      · simp only [hcall]
        exact hfresh
      · simp only [hcall]
        exact hmine
    · refine (h.fine q).frame ⟨fun _ => by rw [hprocs], fun _ _ => by rw [hrequests],
        fun r' hr' hmem => ?_⟩ (hpoint hq) (hcall q) rfl (Or.inl rfl)
      rw [hqueued] at hmem
      exact (List.mem_append.mp hmem).resolve_right fun hlast =>
        hother hq hr' (List.mem_singleton.mp hlast)

theorem readers_nodup (h : CallsInv key own s.run) : (s.readers key).Nodup := by
  refine List.Nodup.map_on ?_ h.elems_nodup
  intro r hr r' hr' he
  have hw := (waits_of_mem h hr).request
  rw [he, (waits_of_mem h hr').request] at hw
  exact (Option.some.inj hw).symm

/-- The section of `fifo_write`. -/
theorem writing {source : Nat → UInt8} {bytes n : Int} (h : ResultInv key s)
    (hp : s.run.point s.run.k.getCurrentProcess = .writing source bytes)
    (hw : s.run.k.writeSection key source bytes = some (n, k')) :
    Fine key (s.record key ⟨k', update s.run.point s.run.k.getCurrentProcess .idle⟩ .advance)
      q := by
  obtain ⟨own, hcalls⟩ := h.calls
  obtain ⟨hpos, hint⟩ := h.counts _ source bytes hp
  obtain ⟨c, served, hc, hturns, hcopies⟩ :=
    writeCopies_turns hcalls.serviceable hpos hint hw
  have helems := hturns.elems
  rw [elems_withBuffer] at helems
  have hnodup := hcalls.elems_nodup
  rw [helems, List.nodup_append] at hnodup
  have hreaders := readers_nodup hcalls
  rw [ResultRun.readers, helems, List.map_append, List.nodup_append, List.map_map] at hreaders
  simp only [ResultRun.record, hp, hcopies]
  by_cases hq : ∃ x ∈ served, (s.run.k.readRequests x.1.elem).readerP = q
  · obtain ⟨x, hx, rfl⟩ := hq
    have hmem : x.1.elem ∈ s.run.k.elems (s.run.k.readQueueOf key) := by
      rw [helems]
      exact List.mem_append_left _ (List.mem_map.mpr ⟨x, hx, rfl⟩)
    have hwaits := waits_of_mem hcalls hmem
    set q := (s.run.k.readRequests x.1.elem).readerP with hqdef
    obtain ⟨hbuf, hbytes, -⟩ := (h.fine q).request _ hwaits.request
    have hfresh := h.fresh_of_waits hwaits hmem
    have hpoint : update s.run.point s.run.k.getCurrentProcess .idle q = s.run.point q := by
      refine update_of_ne ?_ _ _
      rintro he
      have hreq := hwaits.request
      rw [he, hp] at hreq
      cases hreq
    have hcall : s.addCopies (served.map s.run.k.copyingOf) q =
        { s.call q with copies := [⟨s.fifo, (s.call q).buf, x.2⟩] } := by
      have hadd : s.addCopies (served.map s.run.k.copyingOf) q = _ :=
        addCopies_of_mem (c := s.run.k.copyingOf x) (by rw [List.map_map]; exact hreaders.1)
          (List.mem_map_of_mem hx)
      rw [hadd]
      simp only [copyingOf, ← hqdef, hfresh.1.copies, List.nil_append, hbuf]
    obtain ⟨hread, -, hle⟩ := hturns.bytesRead (hcalls.serviceable.withBuffer hc) x hx
    obtain ⟨m, hm⟩ := hturns.request x.1.elem
    refine .of_request (r := x.1.elem) (by simpa only [hpoint] using hwaits.request) ?_ ?_
      (.served ?_ ?_ hread ?_ ?_ ?_) ((h.fine _).inside hwaits.request)
    · simp only [hcall, hm]
      exact hbuf
    · simp only [hcall, hm]
      exact hbytes
    · simp only [hpoint]
      intro he
      rcases hwaits with hw | ⟨hw, -⟩ <;> exact nomatch hw.symm.trans he
    · exact fun hstill => hnodup.2.2 _ (List.mem_map.mpr ⟨x, hx, rfl⟩) _ hstill rfl
    · simp only [hcall, hfresh.2]
    · simp only [hcall, ← hbytes]
      exact hle
    · simp only [hcall]
      exact hfresh.1.released
  · have hne : ∀ x ∈ served, (s.run.k.readRequests x.1.elem).readerP ≠ q :=
      fun x hx he => hq ⟨x, hx, he⟩
    have hcall : s.addCopies (served.map s.run.k.copyingOf) q = s.call q := by
      refine addCopies_of_ne fun c hc => ?_
      obtain ⟨x, hx, rfl⟩ := List.mem_map.mp hc
      exact hne x hx
    by_cases hqp : q = s.run.k.getCurrentProcess
    · subst hqp
      refine .outside (by simp only [update_self]; rfl) (fun buf bytes pos he => ?_) fun v hv => ?_
      · simp only [update_self] at he
        cases he
      · simp only [hcall]
        exact ((h.fine _).returned v hv).1
    · refine (h.fine q).frame ⟨fun _ => congrArg Process.st (hturns.processes hne),
        fun r hr => ?_, fun r _ hmem => ?_⟩ (update_of_ne hqp _ _) hcall rfl (Or.inl rfl)
      · refine hturns.request_of_notMem fun x hx he => hne x hx ?_
        rw [← he]
        exact (hcalls.request q r hr).2.reader
      · rw [helems]
        exact List.mem_append_right _ hmem

/-- What the running process does next. -/
theorem advance (h : ResultInv key s) (hguard : Steady key s .advance)
    (ha : fifoAdvance key s.run.k s.run.k.getCurrentProcess
      (s.run.point s.run.k.getCurrentProcess) = some (pt, k')) :
    Fine key (s.record key ⟨k', update s.run.point s.run.k.getCurrentProcess pt⟩ .advance) q := by
  cases hp : s.run.point s.run.k.getCurrentProcess with
  | idle =>
      rw [hp] at ha
      cases ha
  | entered buf bytes pos =>
      rw [hp] at ha
      obtain ⟨⟨r, k₁⟩, hr, he⟩ := Option.map_eq_some_iff.mp ha
      cases he
      exact h.entered hp hr
  | requested r =>
      rw [hp] at ha
      obtain ⟨⟨b, k₁⟩, hr, he⟩ := Option.map_eq_some_iff.mp ha
      cases he
      exact h.requested hp (hguard.reading rfl r hp).2 hr
  | queued r =>
      rw [hp] at ha
      cases ha
      exact h.queued hp
  | yielding r =>
      rw [hp] at ha
      simp only [fifoAdvance] at ha
      split at ha
      next => cases ha
      next hb =>
        cases ha
        exact h.yielding hp hb
  | testing r waited =>
      rw [hp] at ha
      cases ha
      exact h.testing hp (hguard.testing rfl r waited hp)
  | collecting r waited =>
      rw [hp] at ha
      cases ha
      exact h.collecting hp
  | writing source bytes =>
      rw [hp] at ha
      obtain ⟨⟨n, k₁⟩, hw, he⟩ := Option.map_eq_some_iff.mp ha
      cases he
      exact h.writing hp hw

theorem run_record (s : ResultRun) (t : FifoRun) (a : FifoAction) : (s.record key t a).run = t := by
  unfold ResultRun.record
  split
  case h_4 => split <;> rfl
  all_goals rfl

theorem next {a : FifoAction} (h : ResultInv key s) (hguard : Steady key s a)
    (hn : (resultSystem key).next s a = some t) : ResultInv key t := by
  obtain ⟨run, hrun, rfl⟩ := Option.map_eq_some_iff.mp hn
  obtain ⟨own, hcalls⟩ := h.calls
  obtain ⟨hcalls', hcounts⟩ := hcalls.next h.counts hrun
  refine ⟨⟨_, (run_record s run a).symm ▸ hcalls'⟩, (run_record s run a).symm ▸ hcounts, fun q => ?_⟩
  cases fifoStep_of_next hrun with
  | dispatch =>
      exact (h.fine q).frame ⟨fun _ => rfl, fun _ _ => rfl, fun _ _ hr => hr⟩ rfl rfl rfl
        (Or.inl rfl)
  | openName ho => exact h.openName ho
  | read _ _ pos => exact h.read pos
  | write => exact h.write
  | close _ hc => exact h.close (hguard.closing rfl) hc
  | advance ha => exact h.advance hguard ha
  | @status call p idle =>
      refine (h.fine q).frame ⟨fun hq => congrArg Process.st (applyStatus_of_ne ?_), fun _ _ => rfl,
        fun _ _ hr => hr⟩ rfl rfl rfl (Or.inl rfl)
      rintro rfl
      rw [idle] at hq
      exact hq rfl

theorem of_init (hs : (resultSystem key).init s) : ResultInv key s := by
  obtain ⟨⟨k, name, i, hsearch, hopen, hpages, halive, hrun, hidle⟩, hreturned⟩ := hs
  refine ⟨⟨_, callsInv_of_open hsearch hopen hpages halive hrun hidle⟩,
    fun p source bytes hp => ?_, fun p => .outside ?_ (fun buf bytes pos hp => ?_) fun v hv => ?_⟩
  · rw [hidle] at hp
    cases hp
  · rw [hidle]
    rfl
  · rw [hidle] at hp
    cases hp
  · rw [hreturned] at hv
    cases hv

end ResultInv

/-! ## Everything together -/

/-- The first process opened a fifo. -/
def resultStarted : ResultRun where
  run := fifoOpened
  fifo := 1
  call _ := ⟨0, 0, 0, [], false⟩
  returned _ := none

theorem init_resultStarted : (resultSystem 0).init resultStarted :=
  ⟨init_fifoCallSystem, fun _ => rfl⟩

/-- A test for the guard: the open fifo is not closed. -/
def steady (key : Int) (s : ResultRun) : FifoAction → Bool
  | .advance =>
      match s.run.point s.run.k.getCurrentProcess with
      | .requested _ =>
          (s.run.k.openFifos key).state = .opened ∧
            (s.call s.run.k.getCurrentProcess).fifo = s.fifo
      | .writing _ _ => (s.run.k.openFifos key).state = .opened
      | .testing _ _ =>
          !(s.call s.run.k.getCurrentProcess).released || !decide (s.run.k.fifoIsOpen key)
      | _ => true
  | .close => !decide (s.run.k.fifoIsOpen key)
  | _ => true

theorem steady_of_steady (s : ResultRun) (a : FifoAction) (h : steady key s a) :
    Steady key s a := by
  refine ⟨?_, ?_, ?_, ?_⟩
  · rintro rfl r hp
    simpa [steady, hp] using h
  · rintro rfl source bytes hp
    simpa [steady, hp] using h
  · rintro rfl hopen
    simp [steady, hopen] at h
  · rintro rfl r waited hp hreleased
    simpa [steady, hp, hreleased] using h

/-- The first process waits for bytes, the second one writes three, and the
first one returns. -/
def waitedAndRead : Option ResultRun :=
  (resultSystem 0).executeBy (steady 0) resultStarted
    [.read 100 5, .advance, .advance, .advance, .dispatch 2, .openName .nil, .write (fun _ => 0) 3,
      .advance, .dispatch 1, .advance, .advance, .advance]

end Kernel

end TPE
