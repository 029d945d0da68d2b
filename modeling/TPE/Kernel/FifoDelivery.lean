import TPE.Library.Sharing
import TPE.Kernel.FifoProtocol

/-!
# What a write delivers

`send_to_readers` serves the requests in the queue of a fifo from the buffer,
one after the other, until one of the two is empty.

A turn of its loop is a step with an equation for the kernel after it.  The loop
is a sequence of turns, and what the requests get is the `share` of the bytes in
the buffer.
-/

namespace TPE

open Function CircularBuffer

namespace Kernel

/-- The queue of the fifo `key`. -/
abbrev readQueueOf (k : Kernel) (key : Int) : Addr := (k.openFifos key).readQueue

/-- `buf_fill` of the fifo `key`. -/
abbrev fillOf (k : Kernel) (key : Int) : Int := (k.openFifos key).cBuffer.bufFill

/-- What the loop relies on: the fifo has a queue, its buffer is sound, and the
requests in the queue are different ones to this fifo for at least one byte. -/
structure Serviceable (k : Kernel) (key : Int) : Prop where
  header : k.readQueueOf key ≠ null
  buffer : (k.openFifos key).cBuffer.Inv
  nodup : (k.elems (k.readQueueOf key)).Nodup
  request : ∀ r ∈ k.elems (k.readQueueOf key),
    (k.readRequests r).f = key ∧ 0 < (k.readRequests r).bytes

/-- What the loop of `send_to_readers` does in one turn: the first request gets
`n` bytes, and its reader is made ready. -/
structure Turn (key : Int) (f : QueueNode) (n : Int) (k k' : Kernel) : Prop where
  count : n = min (k.readRequests f.elem).bytes (k.fillOf key)
  fill_pos : 0 < k.fillOf key
  does : ∃ c rest memory, k.queues (k.readQueueOf key) = f :: rest ∧ c.Inv ∧
    c.bufFill = k.fillOf key - n ∧
    c.contents = (k.openFifos key).cBuffer.contents.drop n.toNat ∧
    k' = { k with
      openFifos := update k.openFifos key { k.openFifos key with cBuffer := c }
      readRequests := update k.readRequests f.elem { k.readRequests f.elem with bytesRead := n }
      queues := update k.queues (k.readQueueOf key) rest
      pages := k.pages.storePage f.page
      processes := Procs.unblockProcess k.processes (k.readRequests f.elem).readerP
      memory }

/-- Turns of the loop, with the nodes they take from the queue and what their
requests get. -/
inductive Turns (key : Int) : List (QueueNode × Int) → Kernel → Kernel → Prop where
  | done (k : Kernel) : Turns key [] k k
  | turn {f : QueueNode} {n : Int} {k k₁ k' : Kernel} {served : List (QueueNode × Int)} :
      Turn key f n k k₁ → Turns key served k₁ k' → Turns key ((f, n) :: served) k k'

variable {key : Int} {k k₁ k' : Kernel} {r : Addr} {n : Int} {f : QueueNode}
  {rest : List QueueNode} {served : List (QueueNode × Int)}

/-! ## One request -/

theorem Serviceable.head (h : k.Serviceable key) (hq : k.queues (k.readQueueOf key) = f :: rest) :
    (k.readRequests f.elem).f = key ∧ 0 < (k.readRequests f.elem).bytes := by
  refine h.request _ ?_
  rw [elems, hq]
  exact List.mem_cons_self

/-- `try_read` on a fifo with bytes in the buffer. -/
theorem tryRead_spec (hbuffer : (k.openFifos key).cBuffer.Inv) (hf : (k.readRequests r).f = key)
    (hbytes : 0 < (k.readRequests r).bytes) (hfill : 0 < k.fillOf key) :
    ∃ c memory, c.Inv ∧
      c.bufFill = k.fillOf key - min (k.readRequests r).bytes (k.fillOf key) ∧
      c.contents = (k.openFifos key).cBuffer.contents.drop
        (min (k.readRequests r).bytes (k.fillOf key)).toNat ∧
      k.tryRead r = some (true, { k with
        openFifos := update k.openFifos key { k.openFifos key with cBuffer := c }
        readRequests := update k.readRequests r { k.readRequests r with
          bytesRead := min (k.readRequests r).bytes (k.fillOf key) }
        memory }) := by
  subst hf
  obtain ⟨t, ht, hinv, hcount, hleft, -, hcontents⟩ := read_spec hbuffer
    (fun i => k.memory ((k.readRequests r).buffer + i)) hbytes hfill
  rw [hcount] at hleft hcontents
  let memory := fun a => if (k.readRequests r).buffer ≤ a
    then t.mem (a - (k.readRequests r).buffer) else k.memory a
  refine ⟨t.cbuf, memory, hinv, hleft, hcontents, ?_⟩
  rw [tryRead]
  simp only [if_pos hfill, ht, hcount]
  rfl

/-- `try_read` on a fifo without a byte. -/
theorem tryRead_empty (hf : (k.readRequests r).f = key) (hfill : k.fillOf key ≤ 0) :
    k.tryRead r = some (false, k) := by
  subst hf
  exact if_neg (Int.not_lt.mpr hfill)

/-! ## One turn -/

/-- With a byte and a request there is a turn: `try_read`, `dequeue` and
`unblock_process`. -/
theorem turn_parts (h : k.Serviceable key) (hfill : 0 < k.fillOf key)
    (hq : k.queues (k.readQueueOf key) = f :: rest) :
    ∃ k₀, k.tryRead f.elem = some (true, k₀) ∧
      k₀.dequeue (k.readQueueOf key) =
        (if (k.setQueue (k.readQueueOf key) rest).MemoryFree then
          some (f.elem, (k₀.setQueue (k.readQueueOf key) rest).storePage f.page)
        else none) ∧
      Turn key f (min (k.readRequests f.elem).bytes (k.fillOf key)) k
        { (k₀.setQueue (k.readQueueOf key) rest).storePage f.page with
          processes := Procs.unblockProcess k₀.processes (k₀.readRequests f.elem).readerP } := by
  obtain ⟨hkey, hbytes⟩ := h.head hq
  obtain ⟨c, memory, hinv, hleft, hcontents, htry⟩ := tryRead_spec h.buffer hkey hbytes hfill
  refine ⟨_, htry, ?_, rfl, hfill, c, rest, memory, hq, hinv, hleft, hcontents, ?_⟩
  · rw [dequeue_of_cons h.header (by exact hq)]
    exact if_congr Iff.rfl rfl rfl
  · simp only [setQueue, storePage, update_self]

/-- The loop goes on after the turn if the allocator takes the page of the node
back. -/
theorem turn_exists (h : k.Serviceable key) (hfill : 0 < k.fillOf key)
    (hq : k.queues (k.readQueueOf key) = f :: rest) (fuel : Nat) :
    ∃ k₁, Turn key f (min (k.readRequests f.elem).bytes (k.fillOf key)) k k₁ ∧
      k.sendToReaders (fuel + 1) (k.readQueueOf key) =
        if (k.setQueue (k.readQueueOf key) rest).MemoryFree then
          k₁.sendToReaders fuel (k.readQueueOf key)
        else none := by
  obtain ⟨k₀, htry, hdequeue, hturn⟩ := turn_parts h hfill hq
  refine ⟨_, hturn, ?_⟩
  rw [sendToReaders, if_neg (not_isEmpty_cons h.header hq), peek_cons h.header hq, htry]
  simp only [Option.bind_some, if_true, hdequeue]
  split <;> rfl

/-- Without a byte the loop stops. -/
theorem sendToReaders_empty (h : k.Serviceable key) (hfill : k.fillOf key ≤ 0) (fuel : Nat) :
    k.sendToReaders (fuel + 1) (k.readQueueOf key) = some k := by
  rw [sendToReaders]
  split
  next => rfl
  next hne =>
    obtain ⟨f, rest, hq⟩ := List.exists_cons_of_ne_nil (not_or.mp hne).2
    rw [peek_cons h.header hq, tryRead_empty (h.head hq).1 hfill]
    rfl

/-- Without a request the loop stops. -/
theorem sendToReaders_nil {q : Addr} (hq : k.queues q = []) (fuel : Nat) :
    k.sendToReaders (fuel + 1) q = some k := by
  rw [sendToReaders]
  exact if_pos (Or.inr hq)

theorem Turn.bounds (h : Turn key f n k k') (hs : k.Serviceable key) :
    0 < n ∧ n ≤ k.fillOf key ∧ n ≤ (k.readRequests f.elem).bytes := by
  obtain ⟨rfl, hfill, c, rest, memory, hq, -⟩ := h
  have hbytes := (hs.head hq).2
  exact ⟨lt_min hbytes hfill, min_le_right _ _, min_le_left _ _⟩

/-- What is left is served by the next turns. -/
theorem Turn.serviceable (h : Turn key f n k k') (hs : k.Serviceable key) :
    k'.Serviceable key := by
  obtain ⟨-, -, c, rest, memory, hq, hinv, -, -, rfl⟩ := h
  have hnodup := hs.nodup
  rw [elems, hq, List.map_cons, List.nodup_cons] at hnodup
  constructor
  · simpa only [readQueueOf, update_self] using hs.header
  · simpa only [update_self] using hinv
  · simpa only [readQueueOf, elems, update_self] using hnodup.2
  · intro r hr
    simp only [readQueueOf, elems, update_self] at hr
    have hne : r ≠ f.elem := by
      rintro rfl
      exact hnodup.1 hr
    simp only [update_of_ne hne]
    refine hs.request r ?_
    rw [elems, hq]
    exact List.mem_cons_of_mem _ hr

theorem Turn.fill (h : Turn key f n k k') : k'.fillOf key = k.fillOf key - n := by
  obtain ⟨-, -, c, rest, memory, -, -, hleft, -, rfl⟩ := h
  simpa only [fillOf, update_self] using hleft

theorem Turn.contents (h : Turn key f n k k') : (k'.openFifos key).cBuffer.contents =
    (k.openFifos key).cBuffer.contents.drop n.toNat := by
  obtain ⟨-, -, c, rest, memory, -, -, -, hcontents, rfl⟩ := h
  simpa only [update_self] using hcontents

theorem Turn.queue (h : Turn key f n k k') : k'.readQueueOf key = k.readQueueOf key ∧
    k.queues (k.readQueueOf key) = f :: k'.queues (k'.readQueueOf key) := by
  obtain ⟨-, -, c, rest, memory, hq, -, -, -, rfl⟩ := h
  simp only [readQueueOf, update_self]
  exact ⟨trivial, hq⟩

theorem Turn.elems (h : Turn key f n k k') :
    k.elems (k.readQueueOf key) = f.elem :: k'.elems (k'.readQueueOf key) := by
  rw [Kernel.elems, h.queue.2]
  rfl

theorem Turn.bytesRead (h : Turn key f n k k') : (k'.readRequests f.elem).bytesRead = n := by
  obtain ⟨-, -, c, rest, memory, -, -, -, -, rfl⟩ := h
  simp only [update_self]

theorem Turn.request_of_ne (h : Turn key f n k k') (hne : r ≠ f.elem) :
    k'.readRequests r = k.readRequests r := by
  obtain ⟨-, -, c, rest, memory, -, -, -, -, rfl⟩ := h
  exact update_of_ne hne _ _

/-- A turn changes nothing of a request but `bytes_read`. -/
theorem Turn.request (h : Turn key f n k k') (r : Addr) :
    ∃ m, k'.readRequests r = { k.readRequests r with bytesRead := m } := by
  by_cases hr : r = f.elem
  · obtain ⟨-, -, c, rest, memory, -, -, -, -, rfl⟩ := h
    exact ⟨n, by simp only [hr, update_self]⟩
  · exact ⟨_, h.request_of_ne hr⟩

theorem Turn.delete_iff (h : Turn key f n k k') (p : Addr) :
    k'.processes.isDeleteProcess p ↔ k.processes.isDeleteProcess p := by
  obtain ⟨-, -, c, rest, memory, -, -, -, -, rfl⟩ := h
  exact and_congr_right fun _ => Procs.unblockProcess_delete_iff

theorem Turn.dequeueReturns (h : Turn key f n k k')
    (hfree : (k.setQueue (k.readQueueOf key) (k'.queues (k'.readQueueOf key))).MemoryFree) :
    k'.DequeueReturns (k'.readQueueOf key) := by
  rw [h.queue.1] at hfree ⊢
  obtain ⟨-, -, c, rest, memory, -, -, -, -, rfl⟩ := h
  simp only [update_self] at hfree
  exact DequeueReturns.next hfree rfl rfl rfl

/-! ## The loop -/

/-- The loop returns if a `dequeue` does. -/
theorem sendToReaders_some {fuel : Nat} (h : k.Serviceable key)
    (hfuel : (k.queues (k.readQueueOf key)).length < fuel)
    (hreturns : k.DequeueReturns (k.readQueueOf key)) :
    ∃ k', k.sendToReaders fuel (k.readQueueOf key) = some k' := by
  induction fuel generalizing k with
  | zero => omega
  | succ fuel ih =>
      cases hq : k.queues (k.readQueueOf key) with
      | nil => exact ⟨k, sendToReaders_nil hq fuel⟩
      | cons f rest =>
          by_cases hfill : 0 < k.fillOf key
          · have hfree := hreturns.free h.header hq
            obtain ⟨k₁, hturn, heq⟩ := turn_exists h hfill hq fuel
            have hrest : k₁.queues (k₁.readQueueOf key) = rest :=
              (List.cons.inj (hturn.queue.2.symm.trans hq)).2
            rw [heq, if_pos hfree, ← hturn.queue.1]
            rw [← hrest] at hfree
            refine ih (hturn.serviceable h) ?_ (hturn.dequeueReturns hfree)
            rw [hrest]
            rw [hq, List.length_cons] at hfuel
            omega
          · exact ⟨k, sendToReaders_empty h (Int.not_lt.mp hfill) fuel⟩

/-- The rule of the loop: it stops when the queue or the buffer is empty, and otherwise it makes a
turn and goes on. -/
theorem sendToReaders_rule {motive : Nat → Kernel → Prop}
    (done : ∀ fuel, k'.Serviceable key →
      k'.queues (k'.readQueueOf key) = [] ∨ k'.fillOf key ≤ 0 → motive (fuel + 1) k')
    (turn : ∀ fuel k f rest, k.Serviceable key → 0 < k.fillOf key →
      k.queues (k.readQueueOf key) = f :: rest →
      k.sendToReaders (fuel + 1) (k.readQueueOf key) = some k' →
      (∀ k₁ n, Turn key f n k k₁ → k₁.sendToReaders fuel (k.readQueueOf key) = some k' →
        motive fuel k₁) → motive (fuel + 1) k)
    {fuel : Nat} (h : k.Serviceable key)
    (hsend : k.sendToReaders fuel (k.readQueueOf key) = some k') : motive fuel k := by
  induction fuel generalizing k with
  | zero => cases hsend
  | succ fuel ih =>
      by_cases hfill : 0 < k.fillOf key
      · cases hq : k.queues (k.readQueueOf key) with
        | nil =>
            rw [sendToReaders_nil hq] at hsend
            cases hsend
            exact done fuel h (Or.inl hq)
        | cons f rest =>
            refine turn fuel k f rest h hfill hq hsend fun k₁ n hturn hsend₁ => ?_
            rw [← hturn.queue.1] at hsend₁
            exact ih (hturn.serviceable h) hsend₁
      · rw [sendToReaders_empty h (Int.not_lt.mp hfill)] at hsend
        cases hsend
        exact done fuel h (Or.inr (Int.not_lt.mp hfill))

/-- The loop is a sequence of turns, and it stops when the queue or the buffer
is empty. -/
theorem sendToReaders_turns {fuel : Nat} (h : k.Serviceable key)
    (hsend : k.sendToReaders fuel (k.readQueueOf key) = some k') :
    ∃ served, Turns key served k k' ∧
      (k'.queues (k'.readQueueOf key) = [] ∨ k'.fillOf key ≤ 0) := by
  refine sendToReaders_rule (motive := fun _ k => ∃ served, Turns key served k k' ∧ _)
    (fun fuel h hend => ⟨[], .done _, hend⟩) ?_ h hsend
  intro fuel k f rest h hfill hq hsend ih
  obtain ⟨k₁, hturn, heq⟩ := turn_exists h hfill hq fuel
  rw [heq] at hsend
  split at hsend
  next =>
    obtain ⟨served, hturns, hend⟩ := ih k₁ _ hturn hsend
    exact ⟨_, .turn hturn hturns, hend⟩
  next => cases hsend

/-- A loop with a byte needs a `dequeue` that returns. -/
theorem dequeueReturns_of_send (h : k.Serviceable key) {fuel : Nat}
    (hsend : k.sendToReaders fuel (k.readQueueOf key) = some k') (hfill : 0 < k.fillOf key) :
    k.DequeueReturns (k.readQueueOf key) := by
  cases fuel with
  | zero => cases hsend
  | succ fuel =>
      cases hq : k.queues (k.readQueueOf key) with
      | nil => exact .inl (.inr hq)
      | cons f rest =>
          obtain ⟨k₁, -, heq⟩ := turn_exists h hfill hq fuel
          rw [heq] at hsend
          split at hsend
          next hfree =>
            refine .inr ?_
            rw [hq]
            exact hfree
          next => cases hsend

namespace Turns

theorem serviceable (h : Turns key served k k') (hs : k.Serviceable key) :
    k'.Serviceable key := by
  induction h with
  | done => exact hs
  | turn hturn _ ih => exact ih (hturn.serviceable hs)

theorem queue (h : Turns key served k k') : k'.readQueueOf key = k.readQueueOf key ∧
    k.queues (k.readQueueOf key) = served.map Prod.fst ++ k'.queues (k'.readQueueOf key) := by
  induction h with
  | done => exact ⟨rfl, rfl⟩
  | turn hturn _ ih =>
      refine ⟨ih.1.trans hturn.queue.1, ?_⟩
      rw [hturn.queue.2, ih.2]
      rfl

theorem elems (h : Turns key served k k') : k.elems (k.readQueueOf key) =
    (served.map fun s => s.1.elem) ++ k'.elems (k'.readQueueOf key) := by
  rw [Kernel.elems, h.queue.2, List.map_append, List.map_map]
  rfl

/-- What the requests get leaves the buffer, oldest bytes first. -/
theorem contents (h : Turns key served k k') (hs : k.Serviceable key) :
    (k'.openFifos key).cBuffer.contents =
      (k.openFifos key).cBuffer.contents.drop (served.map Prod.snd).sum.toNat ∧
    0 ≤ (served.map Prod.snd).sum ∧
    k'.fillOf key = k.fillOf key - (served.map Prod.snd).sum := by
  induction h with
  | done => simp
  | turn hturn _ ih =>
      obtain ⟨hcontents, hnonneg, hfill⟩ := ih (hturn.serviceable hs)
      obtain ⟨hn, -, -⟩ := hturn.bounds hs
      rw [List.map_cons, List.sum_cons]
      refine ⟨?_, by omega, ?_⟩
      · rw [hcontents, hturn.contents, List.drop_drop, Int.toNat_add (by omega) hnonneg]
      · rw [hfill, hturn.fill]
        omega

theorem delete_iff (h : Turns key served k k') (p : Addr) :
    k'.processes.isDeleteProcess p ↔ k.processes.isDeleteProcess p := by
  induction h with
  | done => rfl
  | turn hturn _ ih => exact ih.trans (hturn.delete_iff p)

/-- Nothing of a request but `bytes_read` changes. -/
theorem request (h : Turns key served k k') (r : Addr) :
    ∃ m, k'.readRequests r = { k.readRequests r with bytesRead := m } := by
  induction h with
  | done => exact ⟨_, rfl⟩
  | turn hturn _ ih =>
      obtain ⟨m, hm⟩ := hturn.request r
      obtain ⟨m', hm'⟩ := ih
      exact ⟨m', by rw [hm', hm]⟩

theorem request_of_notMem (h : Turns key served k k') (hr : ∀ s ∈ served, r ≠ s.1.elem) :
    k'.readRequests r = k.readRequests r := by
  induction h with
  | done => rfl
  | turn hturn _ ih =>
      rw [ih fun s hs => hr s (List.mem_cons_of_mem _ hs)]
      exact hturn.request_of_ne (hr _ List.mem_cons_self)

/-- A served request holds what it got. -/
theorem bytesRead (h : Turns key served k k') (hs : k.Serviceable key) :
    ∀ s ∈ served, (k'.readRequests s.1.elem).bytesRead = s.2 ∧ 0 < s.2 ∧
      s.2 ≤ (k.readRequests s.1.elem).bytes := by
  induction h with
  | done => exact fun s hs => nomatch hs
  | @turn f n k k₁ k' served hturn hturns ih =>
      have hnodup := hs.nodup
      rw [hturn.elems, List.nodup_cons, hturns.elems, List.mem_append, not_or] at hnodup
      intro s hmem
      rcases List.mem_cons.mp hmem with rfl | hmem
      · obtain ⟨hpos, -, hle⟩ := hturn.bounds hs
        refine ⟨?_, hpos, hle⟩
        rw [hturns.request_of_notMem, hturn.bytesRead]
        intro s hserved he
        exact hnodup.1.1 (List.mem_map.mpr ⟨s, hserved, he.symm⟩)
      · obtain ⟨hread, hpos, hle⟩ := ih (hturn.serviceable hs) s hmem
        obtain ⟨m, hm⟩ := hturn.request s.1.elem
        rw [hm] at hle
        exact ⟨hread, hpos, hle⟩

/-- The requests get the share of the bytes in the buffer. -/
theorem share (h : Turns key served k k') (hs : k.Serviceable key)
    (hend : k'.queues (k'.readQueueOf key) = [] ∨ k'.fillOf key ≤ 0) :
    served.map Prod.snd = TPE.share (k.fillOf key)
      ((k.elems (k.readQueueOf key)).map fun r => (k.readRequests r).bytes) := by
  induction h with
  | done k =>
      rcases hend with hnil | hfill
      · rw [Kernel.elems, hnil]
        rfl
      · exact (share_of_le hfill).symm
  | @turn f n k k₁ k' served hturn hturns ih =>
      have hnodup := hs.nodup
      rw [hturn.elems, List.nodup_cons] at hnodup
      have hsame : (k₁.elems (k₁.readQueueOf key)).map (fun r => (k₁.readRequests r).bytes) =
          (k₁.elems (k₁.readQueueOf key)).map fun r => (k.readRequests r).bytes := by
        refine List.map_congr_left fun r _ => ?_
        obtain ⟨m, hm⟩ := hturn.request r
        rw [hm]
      rw [List.map_cons, ih (hturn.serviceable hs) hend, hturn.elems, List.map_cons,
        share_cons_pos hturn.fill_pos, hturn.fill, hsame, hturn.count]

end Turns

/-! ## The section of `fifo_write` -/

/-- The kernel after the bytes of a write are in the buffer `c`. -/
abbrev withBuffer (k : Kernel) (key : Int) (c : CircularBuffer) : Kernel :=
  k.writeFifo key fun f => { f with cBuffer := c }

theorem Serviceable.withBuffer (h : k.Serviceable key) {c : CircularBuffer} (hc : c.Inv) :
    (k.withBuffer key c).Serviceable key := by
  constructor
  · simpa only [readQueueOf, writeFifo, update_self] using h.header
  · simpa only [writeFifo, update_self] using hc
  · simpa only [readQueueOf, writeFifo, elems, update_self] using h.nodup
  · simpa only [readQueueOf, writeFifo, elems, update_self] using h.request

/-- The section of `fifo_write` puts the bytes into the buffer and serves the
requests in turn. -/
theorem writeSection_turns {source : Nat → UInt8} {bytes : Int} (h : k.Serviceable key)
    (hpos : 0 < bytes) (hint : bytes < 2 ^ 31)
    (hw : k.writeSection key source bytes = some (n, k')) :
    (k.openFifos key).cBuffer.WriteFits bytes ∧ n = min bytes (bufSize - k.fillOf key) ∧
    ∃ c served, c.Inv ∧ c.bufFill = k.fillOf key + n ∧
      c.contents = (k.openFifos key).cBuffer.contents ++ bytesAt source n ∧
      Turns key served (k.withBuffer key c) k' ∧
      (k'.queues (k'.readQueueOf key) = [] ∨ k'.fillOf key ≤ 0) := by
  unfold writeSection at hw
  split at hw
  next t ht =>
    obtain ⟨k₂, hsend, he⟩ := Option.map_eq_some_iff.mp hw
    cases he
    have fits := fits_of_write h.buffer hpos hint ht
    obtain ⟨t', ht', hinv, hcount, hfill, hcontents⟩ := write_spec h.buffer source hpos fits
    rw [ht] at ht'
    cases ht'
    obtain ⟨served, hturns, hend⟩ := sendToReaders_turns (h.withBuffer hinv) hsend
    exact ⟨fits, hcount, t.cbuf, served, hinv, hfill, hcontents, hturns, hend⟩
  next => cases hw

/-- The section returns exactly if the bytes fit and a `dequeue` returns. -/
theorem writeSection_some_iff {source : Nat → UInt8} {bytes : Int} (h : k.Serviceable key)
    (hpos : 0 < bytes) (hint : bytes < 2 ^ 31) :
    (∃ r, k.writeSection key source bytes = some r) ↔
      (k.openFifos key).cBuffer.WriteFits bytes ∧ k.DequeueReturns (k.readQueueOf key) := by
  have hreturns : ∀ c, (k.withBuffer key c).DequeueReturns
      ((k.withBuffer key c).readQueueOf key) ↔ k.DequeueReturns (k.readQueueOf key) := by
    intro c
    simp only [readQueueOf, withBuffer, writeFifo, update_self]
    rfl
  constructor
  · rintro ⟨r, hw⟩
    unfold writeSection at hw
    split at hw
    next t ht =>
      obtain ⟨k₂, hsend, -⟩ := Option.map_eq_some_iff.mp hw
      have fits := fits_of_write h.buffer hpos hint ht
      obtain ⟨t', ht', hinv, hcount, hfill, -⟩ := write_spec h.buffer source hpos fits
      rw [ht] at ht'
      cases ht'
      refine ⟨fits, (hreturns t.cbuf).mp ?_⟩
      refine dequeueReturns_of_send (h.withBuffer hinv) hsend ?_
      have := h.buffer.fill_nonneg
      have := fits.1
      simp only [fillOf, withBuffer, writeFifo, update_self]
      omega
    next => cases hw
  · rintro ⟨fits, hfree⟩
    obtain ⟨t, ht, hinv, -⟩ := write_spec h.buffer source hpos fits
    obtain ⟨k', hk'⟩ := sendToReaders_some (h.withBuffer hinv) (Nat.lt_succ_self _)
      ((hreturns t.cbuf).mpr hfree)
    rw [writeSection, ht]
    exact ⟨_, Option.map_eq_some_iff.mpr ⟨k', hk', rfl⟩⟩

end Kernel

end TPE
