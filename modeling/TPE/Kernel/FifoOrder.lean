import TPE.Library.Depot
import TPE.Kernel.FifoCalls

/-!
# The order of the readers of a fifo

The sections of `fifo_read` and `fifo_write` in the order in which the fifo's
mutex lets them in, with a log of the requests that arrived, of those that were
fulfilled and of the bytes that were accepted.

The queue and `buf_fill` are the clients and the stock of a `Depot`: a section
of `fifo_read` is a client that comes and one of `fifo_write` is a delivery.
That needs a write that stays inside the buffer.  A write to a full buffer
calls `memcpy` with a negative number of bytes, and nothing can be said about
the state after that.
-/

namespace TPE

open Function CircularBuffer

namespace Kernel

/-- What a reader asks for when it gets the mutex. -/
structure Arrival where
  request : Addr
  reader : Addr
  bytes : Int
deriving DecidableEq

def arrivalOf (k : Kernel) (r : Addr) : Arrival :=
  ⟨r, (k.readRequests r).readerP, (k.readRequests r).bytes⟩

/-- The requests in the queue of the fifo `key`. -/
def waitingOf (k : Kernel) (key : Int) : List Arrival :=
  (k.elems (k.readQueueOf key)).map k.arrivalOf

/-- The calls on a fifo, with a log of its sections. -/
structure OrderRun where
  run : FifoRun
  /-- The requests in the order in which their readers got the mutex. -/
  arrived : List Arrival
  /-- The requests in the order in which they were served, with `bytes_read`. -/
  fulfilled : List (Arrival × Int)
  /-- The sum of what `fifo_write` returned. -/
  accepted : Int
  /-- The call of `memcpy` that left the buffer. -/
  overrun : Option Memcpy

/-- The calls on an open fifo, with at most `BUF_SIZE` bytes. -/
def FifoAction.OnOpenFifo : FifoAction → Prop
  | .read _ bytes => bytes ≤ bufSize
  | .write _ bytes => bytes ≤ bufSize
  | .close => False
  | _ => True

instance : DecidablePred FifoAction.OnOpenFifo
  | .read _ bytes => inferInstanceAs (Decidable (bytes ≤ bufSize))
  | .write _ bytes => inferInstanceAs (Decidable (bytes ≤ bufSize))
  | .close => inferInstanceAs (Decidable False)
  | .dispatch _ | .openName _ | .advance | .status _ _ => inferInstanceAs (Decidable True)

/-- The call of `memcpy` that leaves the buffer, if the step is a section of
`fifo_write` with one. -/
def overrunOf (key : Int) (s : FifoRun) : FifoAction → Option Memcpy
  | .advance =>
      match s.point s.k.getCurrentProcess with
      | .writing source bytes =>
          match (s.k.openFifos key).cBuffer.write source bytes with
          | .ok _ => none
          | .error m => some m
      | _ => none
  | _ => none

/-- The log after a step to `t`. -/
def OrderRun.log (key : Int) (s : OrderRun) (t : FifoRun) : FifoAction → OrderRun
  | .advance =>
      match s.run.point s.run.k.getCurrentProcess with
      | .requested r =>
          { s with
            run := t
            arrived := s.arrived ++ [s.run.k.arrivalOf r]
            fulfilled := s.fulfilled ++
              if r ∈ t.k.elems (t.k.readQueueOf key) then []
              else [(s.run.k.arrivalOf r, (t.k.readRequests r).bytesRead)] }
      | .writing source bytes =>
          let left := (t.k.elems (t.k.readQueueOf key)).length
          let before := s.run.k.elems (s.run.k.readQueueOf key)
          { s with
            run := t
            fulfilled := s.fulfilled ++ (before.take (before.length - left)).map
              fun r => (s.run.k.arrivalOf r, (t.k.readRequests r).bytesRead)
            accepted := s.accepted +
              ((s.run.k.writeSection key source bytes).map Prod.fst).getD 0 }
      | _ => { s with run := t }
  | _ => { s with run := t }

/-- `fifoCallSystem` on an open fifo, with the log.  A run ends with a call of
`memcpy` that leaves the buffer. -/
def orderSystem (key : Int) : System OrderRun FifoAction where
  init s := (fifoCallSystem key).init s.run ∧ s.arrived = [] ∧ s.fulfilled = [] ∧
    s.accepted = 0 ∧ s.overrun = none
  next s a :=
    if s.overrun.isNone ∧ a.OnOpenFifo then
      match overrunOf key s.run a with
      | some m => some { s with overrun := some m }
      | none => ((fifoCallSystem key).next s.run a).map fun t => s.log key t a
    else none

/-- The fifo as a depot of bytes. -/
def OrderRun.depot (key : Int) (s : OrderRun) : Depot Arrival where
  waiting := s.run.k.waitingOf key
  stock := s.run.k.fillOf key
  arrived := s.arrived
  fulfilled := s.fulfilled
  supplied := s.accepted

/-- No write left the buffer, and the queue, `buf_fill` and the log are those of
an orderly depot. -/
structure Orderly (key : Int) (s : OrderRun) : Prop where
  inside : s.overrun = none
  depot : (s.depot key).Orderly Arrival.bytes

/-- A section of `fifo_write` starts with room in the buffer. -/
def HasRoom (key : Int) (s : OrderRun) (a : FifoAction) : Prop :=
  a = .advance → ∀ source bytes,
    s.run.point s.run.k.getCurrentProcess = .writing source bytes → s.run.k.fillOf key < bufSize

variable {key : Int} {s t : FifoRun} {k k' : Kernel} {own : Addr → Option FifoUse} {p r : Addr}

/-! ## Steps outside the sections -/

/-- The requests in the queue and the number of bytes are the same. -/
structure SameFifo (key : Int) (k k' : Kernel) : Prop where
  state : (k'.openFifos key).state = (k.openFifos key).state
  fill : k'.fillOf key = k.fillOf key
  waiting : k'.waitingOf key = k.waitingOf key

theorem SameFifo.trans {k₁ : Kernel} (h : SameFifo key k k₁) (h' : SameFifo key k₁ k') :
    SameFifo key k k' :=
  ⟨h'.state.trans h.state, h'.fill.trans h.fill, h'.waiting.trans h.waiting⟩

/-- What a step may change outside a section. -/
theorem SameFifo.of_eq (hfifo : k'.openFifos key = k.openFifos key)
    (hqueue : k'.queues (k.readQueueOf key) = k.queues (k.readQueueOf key))
    (hreq : ∀ r ∈ k.elems (k.readQueueOf key), k'.arrivalOf r = k.arrivalOf r) :
    SameFifo key k k' := by
  refine ⟨by rw [hfifo], by rw [fillOf, hfifo], ?_⟩
  rw [waitingOf, readQueueOf, hfifo, elems, hqueue]
  exact List.map_congr_left hreq

/-- A page that becomes a queue is not the one of the open fifo. -/
theorem SameFifo.createQueue {q : Addr} (h : CallsInv key own s)
    (hopen : (s.k.openFifos key).state = .opened) (hq : s.k.createQueue = some (q, k')) :
    SameFifo key s.k k' := by
  obtain ⟨pages, hget, rfl⟩ := createQueue_spec hq
  have hne : s.k.readQueueOf key ≠ q := by
    rintro rfl
    have hfresh := (h.pages.getPage hget FifoUse.kernel).1
    rw [h.header.2 hopen] at hfresh
    cases hfresh
  exact .of_eq rfl (update_of_ne hne _ _) fun _ _ => rfl

theorem SameFifo.mutexOpen {name : CString} {lock : Int} (h : CallsInv key own s)
    (hopen : (s.k.openFifos key).state = .opened) (ho : s.k.mutexOpen name = some (lock, k')) :
    SameFifo key s.k k' := by
  unfold Kernel.mutexOpen at ho
  split at ho
  · cases ho
    exact .of_eq rfl rfl fun _ _ => rfl
  · cases ho
    exact .of_eq rfl rfl fun _ _ => rfl
  · obtain ⟨⟨q, k₁⟩, hq, he⟩ := Option.map_eq_some_iff.mp ho
    cases he
    exact (SameFifo.createQueue h hopen hq).trans (.of_eq rfl rfl fun _ _ => rfl)

theorem SameFifo.setFileOpen (k : Kernel) (p : Addr) (fd : Int) :
    SameFifo key k (k.setFileOpen p fd) := by
  unfold Kernel.setFileOpen
  split
  · exact .of_eq rfl rfl fun _ _ => rfl
  · exact .of_eq rfl rfl fun _ _ => rfl

/-- `fifo_open` of a new name takes a closed slot. -/
theorem SameFifo.openName {name : CString} {i : Int} (h : CallsInv key own s)
    (hopen : (s.k.openFifos key).state = .opened) (ho : s.k.fifoOpen name = some (i, k')) :
    SameFifo key s.k k' := by
  unfold fifoOpen at ho
  split at ho
  next =>
    cases ho
    exact .setFileOpen _ _ _
  next =>
    cases ho
    exact .of_eq rfl rfl fun _ _ => rfl
  next j hsearch =>
    obtain ⟨⟨lock, k₁⟩, hlock, ho⟩ := Option.bind_eq_some_iff.mp ho
    obtain ⟨⟨q, k₂⟩, hq, ho⟩ := Option.map_eq_some_iff.mp ho
    cases ho
    obtain ⟨h₁, -, -⟩ := h.mutexOpen hlock
    have hsame₁ := SameFifo.mutexOpen h hopen hlock
    have hsame₂ := SameFifo.createQueue h₁ (hsame₁.state.trans hopen) hq
    have hne : key ≠ j := by
      rintro rfl
      have hclosed := (scanFrom_closed hsearch).2
      simp [hopen] at hclosed
    have hwrite : SameFifo key k₂ (k₂.writeFifo j fun _ =>
        ⟨name, .create fun _ => 0, .opened, lock, q⟩) :=
      .of_eq (update_of_ne hne _ _) rfl fun _ _ => rfl
    exact ((hsame₁.trans hsame₂).trans hwrite).trans (.setFileOpen _ _ _)

/-- `create_read_request` writes a page without an owner. -/
theorem CallsInv.request_createRequest {buf : Addr} {bytes : Int} (h : CallsInv key own s)
    (hr : s.k.createReadRequest key buf bytes = some (r, k')) {a : Addr} (ha : own a ≠ none) :
    k'.readRequests a = s.k.readRequests a := by
  obtain ⟨⟨b, k₁⟩, hget, he⟩ := Option.map_eq_some_iff.mp hr
  obtain ⟨pages, hpages, rfl⟩ := getPage_eq_some hget
  cases he
  have hne : a ≠ r := by
    rintro rfl
    exact ha (h.pages.getPage hpages FifoUse.kernel).1
  simp only [writeRequest, update_of_ne hne]

/-- The page of a new request holds no request in the queue. -/
theorem SameFifo.createRequest {buf : Addr} {bytes : Int} (h : CallsInv key own s)
    (hr : s.k.createReadRequest key buf bytes = some (r, k')) : SameFifo key s.k k' := by
  have hrequests := fun a => h.request_createRequest hr (a := a)
  obtain ⟨⟨b, k₁⟩, hget, he⟩ := Option.map_eq_some_iff.mp hr
  obtain ⟨pages, hpages, rfl⟩ := getPage_eq_some hget
  cases he
  refine .of_eq rfl rfl fun a ha => ?_
  obtain ⟨f, hf, rfl⟩ := List.mem_map.mp ha
  obtain ⟨p, -, hp⟩ := h.nodes f hf
  have hsame := hrequests f.elem (by rw [(h.request p _ hp.request).1]; simp)
  simp only [arrivalOf, hsame]

/-! ## The section of `fifo_read` -/

theorem waitingOf_eq_nil_iff : k.waitingOf key = [] ↔ k.queues (k.readQueueOf key) = [] := by
  rw [waitingOf, List.map_eq_nil_iff, elems, List.map_eq_nil_iff]

/-- The first reader takes bytes that are there. -/
theorem readSection_now {b : Bool} (hbuffer : (k.openFifos key).cBuffer.Inv)
    (hreq : RequestOf key p (k.readRequests r)) (hnil : k.queues (k.readQueueOf key) = [])
    (hfill : 0 < k.fillOf key) (hr : k.readSection key r = some (b, k')) :
    b = true ∧ (k'.openFifos key).state = (k.openFifos key).state ∧
    k'.waitingOf key = [] ∧
    k'.fillOf key = k.fillOf key - min (k.readRequests r).bytes (k.fillOf key) ∧
    k'.processes = k.processes ∧
    k'.readRequests = update k.readRequests r { k.readRequests r with
      bytesRead := min (k.readRequests r).bytes (k.fillOf key) } := by
  obtain ⟨c, memory, -, hleft, -, htry⟩ := tryRead_spec hbuffer hreq.fifo hreq.pos hfill
  rw [readSection, if_pos (show k.isEmpty (k.readQueueOf key) from Or.inr hnil), htry] at hr
  simp only [Option.bind_some, if_true, Option.some.injEq, Prod.mk.injEq] at hr
  obtain ⟨rfl, rfl⟩ := hr
  refine ⟨rfl, by simp only [update_self], waitingOf_eq_nil_iff.mpr ?_, ?_, rfl, rfl⟩
  · simpa only [readQueueOf, update_self] using hnil
  · simpa only [fillOf, update_self] using hleft

/-- Every other reader is queued behind those that wait. -/
theorem readSection_later {b : Bool} (hnull : k.readQueueOf key ≠ null)
    (hreq : RequestOf key p (k.readRequests r))
    (hlater : k.queues (k.readQueueOf key) = [] → k.fillOf key ≤ 0)
    (hr : k.readSection key r = some (b, k')) :
    b = false ∧ (k'.openFifos key).state = (k.openFifos key).state ∧
    k'.elems (k'.readQueueOf key) = k.elems (k.readQueueOf key) ++ [r] ∧
    k'.fillOf key = k.fillOf key ∧
    k'.processes = k.processes ∧ k'.readRequests = k.readRequests := by
  have hattempt : (if k.isEmpty (k.readQueueOf key) then k.tryRead r else some (false, k)) =
      some (false, k) := by
    split
    next hempty => exact tryRead_empty hreq.fifo (hlater (hempty.resolve_left hnull))
    next => rfl
  rw [readSection, hattempt] at hr
  simp only [Option.bind_some, Bool.false_eq_true, if_false] at hr
  obtain ⟨k₁, henq, he⟩ := Option.map_eq_some_iff.mp hr
  cases he
  obtain ⟨page, pages, -, rfl⟩ := enqueue_spec hnull henq
  refine ⟨rfl, rfl, ?_, rfl, rfl, rfl⟩
  simp only [elems, readQueueOf, update_self, List.map_append, List.map_cons, List.map_nil]

/-- A reader that gets the mutex is a client that comes. -/
theorem depot_readSection {s : OrderRun} {b : Bool} (h : CallsInv key own s.run)
    (hp : s.run.point s.run.k.getCurrentProcess = .requested r)
    (hr : s.run.k.readSection key r = some (b, k')) (point : Addr → FifoPoint) :
    (k'.openFifos key).state = (s.run.k.openFifos key).state ∧
    (s.log key ⟨k', point⟩ .advance).depot key =
      (s.depot key).arrive Arrival.bytes (s.run.k.arrivalOf r) := by
  have hreq := (h.request _ r (by rw [hp]; rfl)).2
  have hlog : s.log key ⟨k', point⟩ .advance =
      { s with
        run := ⟨k', point⟩
        arrived := s.arrived ++ [s.run.k.arrivalOf r]
        fulfilled := s.fulfilled ++
          if r ∈ k'.elems (k'.readQueueOf key) then []
          else [(s.run.k.arrivalOf r, (k'.readRequests r).bytesRead)] } := by
    simp only [OrderRun.log, hp]
  by_cases hnow : s.run.k.queues (s.run.k.readQueueOf key) = [] ∧ 0 < s.run.k.fillOf key
  · obtain ⟨hnil, hsome⟩ := hnow
    obtain ⟨-, hstate, hwaiting, hfill, -, hrequests⟩ :=
      readSection_now h.buffer hreq hnil hsome hr
    have hnotMem : r ∉ k'.elems (k'.readQueueOf key) := by
      rw [elems, waitingOf_eq_nil_iff.mp hwaiting]
      exact List.not_mem_nil
    have hnone : (s.depot key).waiting = [] := waitingOf_eq_nil_iff.mpr hnil
    refine ⟨hstate, ?_⟩
    rw [hlog, Depot.arrive_now hnone hsome, hnone]
    simp only [OrderRun.depot, hwaiting, hfill, if_neg hnotMem, hrequests, update_self]
    rfl
  · have hlater : s.run.k.queues (s.run.k.readQueueOf key) = [] → s.run.k.fillOf key ≤ 0 :=
      fun hnil => Int.not_lt.mp fun hfill => hnow ⟨hnil, hfill⟩
    obtain ⟨-, hstate, hqueued, hfill, -, hrequests⟩ :=
      readSection_later h.header.1 hreq hlater hr
    have hmem : r ∈ k'.elems (k'.readQueueOf key) := by
      rw [hqueued]
      exact List.mem_append_right _ (List.mem_singleton_self r)
    have harrival : k'.arrivalOf = s.run.k.arrivalOf := by
      funext a
      simp only [arrivalOf, hrequests]
    have hwaiting : k'.waitingOf key = s.run.k.waitingOf key ++ [s.run.k.arrivalOf r] := by
      simp only [waitingOf, hqueued, harrival, List.map_append, List.map_cons, List.map_nil]
    refine ⟨hstate, ?_⟩
    rw [hlog, Depot.arrive_later fun hnone => hlater (waitingOf_eq_nil_iff.mp hnone)]
    simp only [OrderRun.depot, hwaiting, hfill, if_pos hmem, List.append_nil]

/-! ## The section of `fifo_write` -/

theorem arrivalOf_withBuffer (k : Kernel) (key : Int) (c : CircularBuffer) :
    (k.withBuffer key c).arrivalOf = k.arrivalOf := rfl

theorem elems_withBuffer (k : Kernel) (key : Int) (c : CircularBuffer) :
    (k.withBuffer key c).elems ((k.withBuffer key c).readQueueOf key) =
      k.elems (k.readQueueOf key) := by
  simp only [readQueueOf, withBuffer, writeFifo, update_self]
  rfl

namespace Turns

variable {served : List (QueueNode × Int)}

theorem arrivalOf (h : Turns key served k k') (r : Addr) : k'.arrivalOf r = k.arrivalOf r := by
  obtain ⟨n, hn⟩ := h.request r
  simp only [Kernel.arrivalOf, hn]

theorem state (h : Turns key served k k') :
    (k'.openFifos key).state = (k.openFifos key).state := by
  induction h with
  | done => rfl
  | turn hturn _ ih =>
      obtain ⟨-, -, c, rest, memory, -, -, -, -, rfl⟩ := hturn
      simpa only [update_self] using ih

/-- The requests that are not served still wait. -/
theorem waiting (h : Turns key served k k') :
    k.waitingOf key = (served.map fun x => k.arrivalOf x.1.elem) ++ k'.waitingOf key := by
  rw [waitingOf, h.elems, List.map_append, List.map_map]
  congr 1
  exact List.map_congr_left fun r _ => (h.arrivalOf r).symm

/-- The log of the served requests is read off the queue and the requests. -/
theorem log (h : Turns key served k k') (hs : k.Serviceable key) :
    (((k.elems (k.readQueueOf key)).take ((k.elems (k.readQueueOf key)).length -
      (k'.elems (k'.readQueueOf key)).length)).map
        fun r => (k.arrivalOf r, (k'.readRequests r).bytesRead)) =
      served.map fun x => (k.arrivalOf x.1.elem, x.2) := by
  have hlen : (k.elems (k.readQueueOf key)).length - (k'.elems (k'.readQueueOf key)).length =
      (served.map fun x => x.1.elem).length := by
    rw [h.elems, List.length_append]
    omega
  rw [hlen, h.elems, List.take_left', List.map_map]
  · refine List.map_congr_left fun x hx => ?_
    simp only [Function.comp_apply, (h.bytesRead hs x hx).1]
  · rfl

end Turns

theorem zip_map_append {α β γ : Type} (l : List α) (f : α → β) (g : α → γ) (rest : List β) :
    (l.map f ++ rest).zip (l.map g) = l.map fun x => (f x, g x) := by
  rw [← List.append_nil (l.map g), List.zip_append (by simp), List.zip_map', List.zip_nil_right,
    List.append_nil]

/-- A write with room in the buffer is a delivery. -/
theorem depot_writeSection {s : OrderRun} {source : Nat → UInt8} {bytes n : Int}
    (h : CallsInv key own s.run) (hpos : 0 < bytes) (hint : bytes < 2 ^ 31)
    (hp : s.run.point s.run.k.getCurrentProcess = .writing source bytes)
    (hw : s.run.k.writeSection key source bytes = some (n, k')) (point : Addr → FifoPoint) :
    (k'.openFifos key).state = (s.run.k.openFifos key).state ∧ 0 ≤ n ∧
    (s.log key ⟨k', point⟩ .advance).depot key = (s.depot key).supply Arrival.bytes n := by
  obtain ⟨fits, hn, c, served, hc, hfill, -, hturns, hend⟩ :=
    writeSection_turns h.serviceable hpos hint hw
  have hserviceable := h.serviceable.withBuffer hc
  have hstart : (s.run.k.withBuffer key c).fillOf key = s.run.k.fillOf key + n := by
    simpa only [fillOf, writeFifo, update_self] using hfill
  have hwaiting := hturns.waiting
  rw [waitingOf, elems_withBuffer, arrivalOf_withBuffer, ← waitingOf] at hwaiting
  have hlog := hturns.log hserviceable
  rw [elems_withBuffer, arrivalOf_withBuffer] at hlog
  have hleft := (hturns.contents hserviceable).2.2
  have hshare := hturns.share hserviceable hend
  rw [hstart] at hleft hshare
  rw [elems_withBuffer] at hshare
  -- the shares of the depot are what the requests got
  have hshares : share (s.run.k.fillOf key + n) ((s.run.k.waitingOf key).map Arrival.bytes) =
      served.map Prod.snd := by
    rw [hshare, waitingOf, List.map_map]
    rfl
  refine ⟨?_, ?_, ?_⟩
  · simpa only [writeFifo, update_self] using hturns.state
  · have hroom : s.run.k.fillOf key < bufSize := fits.1
    omega
  · have hstep : s.log key ⟨k', point⟩ .advance =
        { s with
          run := ⟨k', point⟩
          fulfilled := s.fulfilled ++ served.map fun x => (s.run.k.arrivalOf x.1.elem, x.2)
          accepted := s.accepted + n } := by
      simp only [OrderRun.log, hp, hw, hlog]
      rfl
    rw [hstep]
    simp only [OrderRun.depot, Depot.supply, hshares, hleft, List.length_map]
    rw [hwaiting, zip_map_append, List.drop_left' (List.length_map _)]

/-! ## Every step -/

/-- What the runs on an open fifo keep. -/
structure OrderInv (key : Int) (s : OrderRun) : Prop where
  calls : ∃ own, CallsInv key own s.run
  counts : ∀ p source bytes, s.run.point p = .writing source bytes → 0 < bytes ∧ bytes ≤ bufSize
  opened : (s.run.k.openFifos key).state = .opened
  inside : s.overrun = none
  depot : (s.depot key).Inv Arrival.bytes

theorem OrderInv.orderly {s : OrderRun} (h : OrderInv key s) : Orderly key s :=
  ⟨h.inside, h.depot.orderly⟩

/-- A step is one of the calls, or a write that leaves the buffer. -/
theorem orderSystem_next {s t : OrderRun} {a : FifoAction}
    (hn : (orderSystem key).next s a = some t) :
    a.OnOpenFifo ∧ ((∃ m, overrunOf key s.run a = some m ∧ t = { s with overrun := some m }) ∨
      overrunOf key s.run a = none ∧
        ∃ run, (fifoCallSystem key).next s.run a = some run ∧ t = s.log key run a) := by
  simp only [orderSystem] at hn
  split at hn
  next hdomain =>
    refine ⟨hdomain.2, ?_⟩
    split at hn
    next m hm =>
      cases hn
      exact Or.inl ⟨m, hm, rfl⟩
    next hnone =>
      obtain ⟨run, hrun, rfl⟩ := Option.map_eq_some_iff.mp hn
      exact Or.inr ⟨hnone, run, hrun, rfl⟩
  next => cases hn

theorem OrderInv.countsOk {s : OrderRun} (h : OrderInv key s) : CountsOk s.run := by
  intro p source bytes hp
  obtain ⟨hpos, hle⟩ := h.counts p source bytes hp
  have hsize : ((bufSize : Nat) : Int) = 1024 := rfl
  exact ⟨hpos, by omega⟩

/-- A write leaves the buffer exactly if the buffer is full. -/
theorem overrunOf_eq_none_iff {s : OrderRun} {a : FifoAction} (h : OrderInv key s) :
    overrunOf key s.run a = none ↔ HasRoom key s a := by
  obtain ⟨own, hcalls⟩ := h.calls
  cases a with
  | advance =>
      cases hp : s.run.point s.run.k.getCurrentProcess with
      | writing source bytes =>
          obtain ⟨hpos, hle⟩ := h.counts _ source bytes hp
          have hfull := hcalls.buffer.fill_le
          have hsize : ((bufSize : Nat) : Int) = 1024 := rfl
          simp only [overrunOf, hp]
          constructor
          · intro hnone _ source' bytes' hp'
            split at hnone
            next t ht => exact (fits_of_write hcalls.buffer hpos (by omega) ht).1
            next => cases hnone
          · intro hroom
            have fits : (s.run.k.openFifos key).cBuffer.WriteFits bytes :=
              ⟨hroom rfl source bytes hp, by omega⟩
            obtain ⟨t, ht, -⟩ := write_spec hcalls.buffer source hpos fits
            rw [ht]
      | _ =>
          refine iff_of_true (by simp only [overrunOf, hp]) fun _ source bytes hp' => ?_
          rw [hp] at hp'
          cases hp'
  | _ =>
      refine iff_of_true rfl fun ha => ?_
      cases ha

/-- A step outside the sections changes nothing in the depot. -/
theorem SameFifo.depot {s : OrderRun} (h : SameFifo key s.run.k k') (point : Addr → FifoPoint) :
    ({ s with run := ⟨k', point⟩ } : OrderRun).depot key = s.depot key := by
  simp only [OrderRun.depot, h.waiting, h.fill]

/-- What a step outside the sections leaves. -/
theorem SameFifo.step {s : OrderRun} (h : SameFifo key s.run.k k') (point : Addr → FifoPoint)
    (hopen : (s.run.k.openFifos key).state = .opened) :
    (k'.openFifos key).state = .opened ∧
      (s.depot key).Step Arrival.bytes (({ s with run := ⟨k', point⟩ } : OrderRun).depot key) := by
  rw [h.depot]
  exact ⟨h.state.trans hopen, .same⟩

/-- Every step of the calls is a step of the depot. -/
theorem depot_step {s : OrderRun} {run : FifoRun} {a : FifoAction} (h : OrderInv key s)
    (hdomain : a.OnOpenFifo) (hn : (fifoCallSystem key).next s.run a = some run) :
    (run.k.openFifos key).state = .opened ∧
      (s.depot key).Step Arrival.bytes ((s.log key run a).depot key) := by
  obtain ⟨own, hcalls⟩ := h.calls
  have hself : SameFifo key s.run.k s.run.k := .of_eq rfl rfl fun _ _ => rfl
  cases fifoStep_of_next hn with
  | dispatch => exact SameFifo.step (.of_eq rfl rfl fun _ _ => rfl) _ h.opened
  | openName ho => exact (SameFifo.openName hcalls h.opened ho).step _ h.opened
  | read => exact hself.step _ h.opened
  | write => exact hself.step _ h.opened
  | close => exact hdomain.elim
  | status => exact SameFifo.step (.of_eq rfl rfl fun _ _ => rfl) _ h.opened
  | @advance pt k' ha =>
      cases hp : s.run.point s.run.k.getCurrentProcess with
      | idle =>
          rw [hp] at ha
          cases ha
      | entered buf bytes pos =>
          rw [hp] at ha
          obtain ⟨⟨r, k₁⟩, hr, he⟩ := Option.map_eq_some_iff.mp ha
          cases he
          simp only [OrderRun.log, hp]
          exact (SameFifo.createRequest hcalls hr).step _ h.opened
      | requested r =>
          rw [hp] at ha
          obtain ⟨⟨b, k₁⟩, hr, he⟩ := Option.map_eq_some_iff.mp ha
          cases he
          obtain ⟨hstate, hdepot⟩ := depot_readSection hcalls hp hr _
          refine ⟨hstate.trans h.opened, ?_⟩
          rw [hdepot]
          exact .arrive (hcalls.request _ r (by rw [hp]; rfl)).2.pos
      | queued r =>
          rw [hp] at ha
          cases ha
          simp only [OrderRun.log, hp]
          exact SameFifo.step (.of_eq rfl rfl fun _ _ => rfl) _ h.opened
      | yielding r =>
          rw [hp] at ha
          simp only [fifoAdvance] at ha
          split at ha
          next => cases ha
          next =>
            cases ha
            simp only [OrderRun.log, hp]
            exact hself.step _ h.opened
      | testing r waited =>
          rw [hp] at ha
          cases ha
          simp only [OrderRun.log, hp]
          exact hself.step _ h.opened
      | collecting r waited =>
          rw [hp] at ha
          cases ha
          simp only [OrderRun.log, hp]
          exact SameFifo.step (.of_eq rfl rfl fun _ _ => rfl) _ h.opened
      | writing source bytes =>
          rw [hp] at ha
          obtain ⟨⟨n, k₁⟩, hw, he⟩ := Option.map_eq_some_iff.mp ha
          cases he
          obtain ⟨hpos, hint⟩ := h.countsOk _ source bytes hp
          obtain ⟨hstate, hn, hdepot⟩ := depot_writeSection hcalls hpos hint hp hw _
          refine ⟨hstate.trans h.opened, ?_⟩
          rw [hdepot]
          exact .supply hn

@[simp] theorem run_log (s : OrderRun) (t : FifoRun) (a : FifoAction) : (s.log key t a).run = t := by
  unfold OrderRun.log
  split
  · split <;> rfl
  · rfl

@[simp] theorem overrun_log (s : OrderRun) (t : FifoRun) (a : FifoAction) :
    (s.log key t a).overrun = s.overrun := by
  unfold OrderRun.log
  split
  · split <;> rfl
  · rfl

/-- The writers stay in the domain. -/
theorem counts_next {a : FifoAction} (hdomain : a.OnOpenFifo)
    (hcounts : ∀ p source bytes, s.point p = .writing source bytes → 0 < bytes ∧ bytes ≤ bufSize)
    (hstep : FifoStep key s a t) :
    ∀ p source bytes, t.point p = .writing source bytes → 0 < bytes ∧ bytes ≤ bufSize := by
  cases hstep with
  | read => exact writing_update hcounts (fun _ _ he => by cases he) _
  | write _ _ hpos =>
      refine writing_update hcounts (fun source bytes he => ?_) _
      cases he
      exact ⟨hpos, hdomain⟩
  | advance ha =>
      exact writing_update hcounts (fun _ _ he => absurd he (fifoAdvance_not_writing ha)) _
  | _ => exact hcounts

theorem OrderInv.next {s t : OrderRun} {a : FifoAction} (h : OrderInv key s)
    (hguard : HasRoom key s a) (hn : (orderSystem key).next s a = some t) : OrderInv key t := by
  obtain ⟨hdomain, ⟨m, hm, -⟩ | ⟨-, run, hrun, rfl⟩⟩ := orderSystem_next hn
  · rw [(overrunOf_eq_none_iff h).mpr hguard] at hm
    cases hm
  · obtain ⟨own, hcalls⟩ := h.calls
    obtain ⟨hopened, hdepot⟩ := depot_step h hdomain hrun
    constructor
    · exact ⟨_, by simpa using (hcalls.next h.countsOk hrun).1⟩
    · simpa using counts_next hdomain h.counts (fifoStep_of_next hrun)
    · simpa using hopened
    · simpa using h.inside
    · exact h.depot.step hdepot

/-- A fifo that was just opened is an empty depot. -/
theorem OrderInv.of_init {s : OrderRun} (hs : (orderSystem key).init s) : OrderInv key s := by
  obtain ⟨⟨k, name, i, hsearch, hopen, hpages, halive, hrun, hidle⟩, harrived, hfulfilled,
    haccepted, hinside⟩ := hs
  obtain ⟨-, lock, k₁, q, -, -, hempty, hfifo⟩ := fifoOpen_new hsearch hopen
  have hnil : s.run.k.waitingOf key = [] := by
    rw [waitingOf_eq_nil_iff, readQueueOf, hfifo]
    exact hempty
  have hzero : s.run.k.fillOf key = 0 := by
    rw [fillOf, hfifo]
    rfl
  refine ⟨⟨_, callsInv_of_open hsearch hopen hpages halive hrun hidle⟩, fun p source bytes hp => ?_,
    by rw [hfifo], hinside, ?_⟩
  · rw [hidle] at hp
    cases hp
  · have hdepot : s.depot key = ⟨[], 0, [], [], 0⟩ := by
      simp only [OrderRun.depot, hnil, hzero, harrived, hfulfilled, haccepted]
    rw [hdepot]
    exact .empty

theorem orderInv_of_reachBy {s : OrderRun} (h : (orderSystem key).ReachBy (HasRoom key) s) :
    OrderInv key s :=
  h.invariant (fun _ hs => .of_init hs) fun _ _ _ hi hg hn => hi.next hg hn

/-! ## Everything together -/

/-- In a run in which every write starts with room in the buffer the fifo is
orderly, and the first write to a full buffer ends that. -/
theorem orderly_iff_hasRoom (key : Int) : ∀ s, (orderSystem key).ReachBy (HasRoom key) s →
    Orderly key s ∧ ∀ a t, (orderSystem key).next s a = some t →
      (Orderly key t ↔ HasRoom key s a) := by
  intro s hs
  have hi := orderInv_of_reachBy hs
  refine ⟨hi.orderly, fun a t hn => ⟨fun horderly => ?_, fun hguard => (hi.next hguard hn).orderly⟩⟩
  rw [← overrunOf_eq_none_iff hi]
  obtain ⟨-, ⟨m, -, rfl⟩ | ⟨hnone, -⟩⟩ := orderSystem_next hn
  · exact absurd horderly.inside (by simp)
  · exact hnone

/-- A test for the guard. -/
def hasRoom (key : Int) (s : OrderRun) : FifoAction → Bool
  | .advance =>
      match s.run.point s.run.k.getCurrentProcess with
      | .writing _ _ => s.run.k.fillOf key < bufSize
      | _ => true
  | _ => true

theorem hasRoom_of_hasRoom (s : OrderRun) (a : FifoAction) (h : hasRoom key s a) :
    HasRoom key s a := by
  rintro rfl source bytes hp
  simpa only [hasRoom, hp, decide_eq_true_eq] using h

/-- The first process opened a fifo. -/
def orderStarted : OrderRun := ⟨fifoOpened, [], [], 0, none⟩

theorem init_orderStarted : (orderSystem 0).init orderStarted :=
  ⟨init_fifoCallSystem, rfl, rfl, rfl, rfl⟩

/-- The first process queues a request, and the second one writes three bytes
for it. -/
def servedInOrder : Option OrderRun :=
  (orderSystem 0).executeBy (hasRoom 0) orderStarted
    [.read 100 5, .advance, .advance, .dispatch 2, .openName .nil, .write (fun _ => 0) 3, .advance]

/-- The fifo after a queued request was served. -/
theorem orderly_iff_hasRoom_served : Orderly 0 (servedInOrder.get (by decide +kernel)) :=
  (orderly_iff_hasRoom 0 _ ((System.ReachBy.init init_orderStarted).execute hasRoom_of_hasRoom
    (Option.some_get _).symm)).1

/-- A process writes `BUF_SIZE` bytes and then one more. -/
theorem write_overruns : ¬∀ s, (orderSystem 0).Reach s → Orderly 0 s := by
  intro hall
  obtain ⟨t, ht, hf⟩ := System.exists_reach_of_execute init_orderStarted
    [.write (fun _ => 0) 1024, .advance, .write (fun _ => 0) 1, .advance]
    (fun t => t.overrun = some ⟨0, -1024⟩) (by decide +kernel)
  rw [decide_eq_true_eq, (hall t ht).inside] at hf
  cases hf

end Kernel

end TPE
