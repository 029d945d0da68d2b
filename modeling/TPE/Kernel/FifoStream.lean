import TPE.Library.Parcels
import TPE.Kernel.FifoOpening
import TPE.Kernel.FifoResults

/-!
# The bytes that go through a fifo

Any number of processes write to an open fifo and read from it.  What `fifo_write` accepted is a
stream, and each call of `fifo_read` that returns has a piece of it in its buffer.

The buffer of the fifo is the store of `Parcels`.  A section of `fifo_write` puts bytes into it and
hands out parcels to the readers that wait, a section of `fifo_read` that finds a byte hands one
out, and a call of `fifo_read` that returns takes its parcel.  Between the two the parcel is in the
memory of the reader, so no two calls may read into the same bytes.
-/

namespace TPE

open Function CircularBuffer

namespace Kernel

/-! ## The calls and what they see -/

/-- What a call of `fifo_read` finds in its buffer: `bytes_read` bytes. -/
def foundBy (k : Kernel) (r : Addr) : List UInt8 :=
  bytesAt (fun i => k.memory ((k.readRequests r).buffer + i)) (k.readRequests r).bytesRead

/-- The calls on a fifo, with the bytes that went through it. -/
structure StreamRun where
  order : OrderRun
  /-- The bytes that the calls of `fifo_write` accepted. -/
  written : List UInt8
  /-- The readers in the order in which they were served, with what was put into their buffers. -/
  handed : List (Addr × List UInt8)
  /-- The readers in the order in which their calls returned, with what they found. -/
  returned : List (Addr × List UInt8)

/-- The bytes that are accepted in a step. -/
def acceptedIn (key : Int) (s : FifoRun) : FifoAction → List UInt8
  | .advance =>
      match s.point s.k.getCurrentProcess with
      | .writing source bytes =>
          ((s.k.writeSection key source bytes).map fun (n, _) => bytesAt source n).getD []
      | _ => []
  | _ => []

/-- What a call that returns in a step finds. -/
def returnedIn (s : FifoRun) : FifoAction → List (Addr × List UInt8)
  | .advance =>
      match s.point s.k.getCurrentProcess with
      | .collecting r _ => [(s.k.getCurrentProcess, s.k.foundBy r)]
      | _ => []
  | _ => []

/-- The log after a step to `t`.  The requests that were served are the new ones in its log. -/
def StreamRun.log (key : Int) (s : StreamRun) (t : OrderRun) (a : FifoAction) : StreamRun where
  order := t
  written := s.written ++ acceptedIn key s.order.run a
  handed := s.handed ++ (t.fulfilled.drop s.order.fulfilled.length).map fun x =>
    (x.1.reader, t.run.k.foundBy x.1.request)
  returned := s.returned ++ returnedIn s.order.run a

/-- `orderSystem` with the bytes. -/
def streamSystem (key : Int) : System StreamRun FifoAction where
  init s := (orderSystem key).init s.order ∧ s.written = [] ∧ s.handed = [] ∧ s.returned = []
  next s a := ((orderSystem key).next s.order a).map fun t => s.log key t a

/-- The bytes that a call of `fifo_read` may write: where they start, and their number. -/
def bufferOf (k : Kernel) : FifoPoint → Option (Addr × Int)
  | .entered buf bytes _ => some (buf, bytes)
  | pt => pt.request.map fun r => ((k.readRequests r).buffer, (k.readRequests r).bytes)

/-- Two pieces of memory have no byte in common. -/
def Apart (b c : Addr × Int) : Prop := b.1 + b.2.toNat ≤ c.1 ∨ c.1 + c.2.toNat ≤ b.1

instance (b c : Addr × Int) : Decidable (Apart b c) := inferInstanceAs (Decidable (_ ∨ _))

/-- A section of `fifo_write` starts with room in the buffer, and no call of `fifo_read` starts
with memory that another one is about to read into. -/
structure Private (key : Int) (s : StreamRun) (a : FifoAction) : Prop where
  room : HasRoom key s.order a
  apart : ∀ buf bytes, a = .read buf bytes → ∀ q b,
    bufferOf s.order.run.k (s.order.run.point q) = some b → Apart (buf, bytes) b

/-- The request of a process that had its section. -/
def FifoPoint.filed : FifoPoint → Option Addr
  | .queued r => some r
  | .yielding r => some r
  | .testing r _ => some r
  | .collecting r _ => some r
  | _ => none

/-- What a process that was served has in its buffer until it returns. -/
def inBuffer (key : Int) (k : Kernel) (pt : FifoPoint) : Option (List UInt8) :=
  match pt.filed with
  | some r => if r ∈ k.elems (k.readQueueOf key) then none else some (k.foundBy r)
  | none => none

/-- The fifo as a store of bytes. -/
def parcelsOf (key : Int) (s : FifoRun) (sent : List UInt8) (handed taken : List (Addr × List UInt8)) :
    Parcels Addr UInt8 where
  sent
  store := (s.k.openFifos key).cBuffer.contents
  handed
  taken
  ready p := inBuffer key s.k (s.point p)

def StreamRun.parcels (key : Int) (s : StreamRun) : Parcels Addr UInt8 :=
  parcelsOf key s.order.run s.written s.handed s.returned

/-- No byte is lost, doubled or delivered out of order. -/
structure Flows (key : Int) (s : StreamRun) : Prop where
  /-- What was written is what was handed out, first to last, and what is in the buffer. -/
  whole : s.written =
    s.handed.flatMap Prod.snd ++ (s.order.run.k.openFifos key).cBuffer.contents
  /-- The readers are served in the order in which they got the mutex. -/
  order : s.order.arrived.map Arrival.reader =
    s.handed.map Prod.fst ++ (s.order.run.k.waitingOf key).map Arrival.reader
  pieces : ∀ x ∈ s.handed, x.2 ≠ []
  /-- The calls of a reader find in its buffer what was handed out to it, each piece once. -/
  each : ∀ p, Parcels.parcelsFor s.handed p = Parcels.parcelsFor s.returned p ++
    (inBuffer key s.order.run.k (s.order.run.point p)).toList

theorem Apart.symm {b c : Addr × Int} (h : Apart b c) : Apart c b := Or.symm h

variable {key : Int} {s t : FifoRun} {k k' : Kernel} {own : Addr → Option FifoUse} {p q r : Addr}
  {f : QueueNode} {bs sent : List UInt8} {served : List (QueueNode × List UInt8)}
  {handed taken : List (Addr × List UInt8)}

theorem Waits.filed (h : Waits s p r) : (s.point p).filed = some r := by
  rcases h with hp | ⟨hp, -⟩ <;> rw [hp] <;> rfl

theorem FifoPoint.request_of_filed {pt : FifoPoint} (h : pt.filed = some r) :
    pt.request = some r := by
  cases pt <;> first | exact h | cases h

/-! ## The bytes that are copied -/

/-- Bytes were written to a place in the memory, and nothing else. -/
structure Stored (m m' : Addr → UInt8) (buf : Addr) (bs : List UInt8) : Prop where
  inside : bytesAt (fun i => m' (buf + i)) bs.length = bs
  outside : ∀ a, a < buf ∨ buf + bs.length ≤ a → m' a = m a

theorem bytesAt_congr {mem mem' : Nat → UInt8} {n : Int} (h : ∀ i < n.toNat, mem' i = mem i) :
    bytesAt mem' n = bytesAt mem n :=
  List.map_congr_left fun i hi => h i (List.mem_range.mp hi)

/-- What `try_read` copies. -/
theorem tryRead_stored {b : Bool} (hbuffer : (k.openFifos key).cBuffer.Inv)
    (hf : (k.readRequests r).f = key) (hbytes : 0 < (k.readRequests r).bytes)
    (hfill : 0 < k.fillOf key) (htry : k.tryRead r = some (b, k')) :
    ∃ bs, bs = (k.openFifos key).cBuffer.contents.take bs.length ∧
      (bs.length : Int) = min (k.readRequests r).bytes (k.fillOf key) ∧
      Stored k.memory k'.memory (k.readRequests r).buffer bs := by
  subst hf
  obtain ⟨t, ht, hcount, -, htaken, hkept, -⟩ := readRefines hbuffer
    (fun i => k.memory ((k.readRequests r).buffer + i)) hbytes hfill
  have hpos : 0 < t.count := hcount ▸ lt_min hbytes hfill
  have hlen : ((k.openFifos (k.readRequests r).f).cBuffer.contents.take t.count.toNat).length =
      t.count.toNat := by
    rw [← htaken, bytesAt, List.length_map, List.length_range]
  rw [tryRead] at htry
  simp only [if_pos hfill, ht] at htry
  cases htry
  refine ⟨_, by rw [hlen], by rw [hlen, ← hcount, Int.toNat_of_nonneg hpos.le], ?_, fun a ha => ?_⟩
  · rw [hlen, Int.toNat_of_nonneg hpos.le, ← htaken]
    refine bytesAt_congr fun i hi => ?_
    simp only [if_pos (Nat.le_add_right _ i), Nat.add_sub_cancel_left]
  · rw [hlen] at ha
    simp only [writeFifo, writeRequest]
    split
    next hle =>
      have hfar := ha.resolve_left (Nat.not_lt.mpr hle)
      have hbehind := Int.toNat_le.mp (Nat.le_sub_of_add_le' hfar)
      exact (hkept _ hbehind).trans (congrArg k.memory (Nat.add_sub_cancel' hle))
    next => rfl

/-- A turn of `send_to_readers`, with the bytes that it copies. -/
structure Hands (key : Int) (f : QueueNode) (bs : List UInt8) (k k' : Kernel) : Prop where
  turn : Turn key f bs.length k k'
  bytes : bs = (k.openFifos key).cBuffer.contents.take bs.length
  stored : Stored k.memory k'.memory (k.readRequests f.elem).buffer bs

/-- Turns of the loop, with what they copy. -/
inductive HandsAll (key : Int) : List (QueueNode × List UInt8) → Kernel → Kernel → Prop where
  | done (k : Kernel) : HandsAll key [] k k
  | turn {f : QueueNode} {bs : List UInt8} {k k₁ k' : Kernel}
      {served : List (QueueNode × List UInt8)} :
      Hands key f bs k k₁ → HandsAll key served k₁ k' → HandsAll key ((f, bs) :: served) k k'

theorem HandsAll.turns (h : HandsAll key served k k') :
    Turns key (served.map fun x => (x.1, (x.2.length : Int))) k k' := by
  induction h with
  | done => exact .done _
  | turn hhands _ ih => exact .turn hhands.turn ih

/-- With a byte and a request the loop makes such a turn. -/
theorem hands_exists {rest : List QueueNode} {fuel : Nat} (h : k.Serviceable key)
    (hfill : 0 < k.fillOf key) (hq : k.queues (k.readQueueOf key) = f :: rest)
    (hsend : k.sendToReaders (fuel + 1) (k.readQueueOf key) = some k') :
    ∃ bs k₁, Hands key f bs k k₁ ∧ k₁.sendToReaders fuel (k.readQueueOf key) = some k' := by
  obtain ⟨hkey, hbytes⟩ := h.head hq
  obtain ⟨k₀, htry, hdequeue, hturn⟩ := turn_parts h hfill hq
  obtain ⟨bs, htake, hlen, hstored⟩ := tryRead_stored h.buffer hkey hbytes hfill htry
  rw [← hlen] at hturn
  refine ⟨bs, _, ⟨hturn, htake, hstored⟩, ?_⟩
  rw [sendToReaders, if_neg (not_isEmpty_cons h.header hq), peek_cons h.header hq, htry] at hsend
  simp only [Option.bind_some, if_true, hdequeue] at hsend
  split at hsend
  next => exact hsend
  next => cases hsend

theorem sendToReaders_hands {fuel : Nat} (h : k.Serviceable key)
    (hsend : k.sendToReaders fuel (k.readQueueOf key) = some k') :
    ∃ served, HandsAll key served k k' := by
  refine sendToReaders_rule (motive := fun _ k => ∃ served, HandsAll key served k k')
    (fun fuel h hend => ⟨[], .done _⟩) ?_ h hsend
  intro fuel k f rest h hfill hq hsend ih
  obtain ⟨bs, k₁, hhands, hsend₁⟩ := hands_exists h hfill hq hsend
  obtain ⟨served, hserved⟩ := ih k₁ _ hhands.turn hsend₁
  exact ⟨_, .turn hhands hserved⟩

/-- The section of `fifo_write` puts the bytes into the buffer and hands them out. -/
theorem writeSection_hands {source : Nat → UInt8} {bytes n : Int} (h : k.Serviceable key)
    (hpos : 0 < bytes) (hint : bytes < 2 ^ 31)
    (hw : k.writeSection key source bytes = some (n, k')) :
    ∃ c served, c.Inv ∧ c.contents = (k.openFifos key).cBuffer.contents ++ bytesAt source n ∧
      HandsAll key served (k.withBuffer key c) k' := by
  unfold writeSection at hw
  split at hw
  next t ht =>
    obtain ⟨k₂, hsend, he⟩ := Option.map_eq_some_iff.mp hw
    cases he
    have fits := fits_of_write h.buffer hpos hint ht
    obtain ⟨t', ht', hinv, hcount, -, hcontents⟩ := write_spec h.buffer source hpos fits
    rw [ht] at ht'
    cases ht'
    obtain ⟨served, hserved⟩ := sendToReaders_hands (h.withBuffer hinv) hsend
    exact ⟨t.cbuf, served, hinv, hcontents, hserved⟩
  next => cases hw

/-! ## The buffers of the readers -/

/-- The calls read into different bytes, and a request got no more than it asked for. -/
structure Buffers (key : Int) (s : FifoRun) : Prop where
  apart : ∀ p q b c, p ≠ q → bufferOf s.k (s.point p) = some b →
    bufferOf s.k (s.point q) = some c → Apart b c
  fits : ∀ p r, (s.point p).filed = some r → r ∉ s.k.elems (s.k.readQueueOf key) →
    (s.k.readRequests r).bytesRead ≤ (s.k.readRequests r).bytes

theorem bufferOf_request {pt : FifoPoint} (h : pt.request = some r) :
    bufferOf k pt = some ((k.readRequests r).buffer, (k.readRequests r).bytes) := by
  cases pt <;> first | (cases h; rfl) | cases h

/-- The buffer of a call depends on its request alone. -/
theorem bufferOf_congr {pt : FifoPoint} (h : ∀ r, pt.request = some r →
    (k'.readRequests r).buffer = (k.readRequests r).buffer ∧
      (k'.readRequests r).bytes = (k.readRequests r).bytes) : bufferOf k' pt = bufferOf k pt := by
  cases hr : pt.request with
  | none => cases pt <;> first | rfl | cases hr
  | some r =>
      obtain ⟨hbuffer, hbytes⟩ := h r hr
      rw [bufferOf_request hr, bufferOf_request hr, hbuffer, hbytes]

/-- A process goes on with the buffer it had. -/
theorem bufferOf_update {point : Addr → FifoPoint} {pt : FifoPoint}
    (h : ∀ q, q ≠ p → bufferOf k' (point q) = bufferOf k (point q))
    (hpt : bufferOf k' pt = bufferOf k (point p)) (q : Addr) :
    bufferOf k' (update point p pt q) = bufferOf k (point q) := by
  by_cases hq : q = p
  · rw [hq, update_self, hpt]
  · rw [update_of_ne hq, h q hq]

theorem foundBy_congr (hrequest : k'.readRequests r = k.readRequests r)
    (hmemory : ∀ i < (k.readRequests r).bytesRead.toNat,
      k'.memory ((k.readRequests r).buffer + i) = k.memory ((k.readRequests r).buffer + i)) :
    k'.foundBy r = k.foundBy r := by
  rw [foundBy, foundBy, hrequest]
  exact bytesAt_congr hmemory

/-- Bytes that are stored in the buffer of one request change nothing in that of another. -/
theorem Stored.found_other {buf : Addr} {n : Int} (h : Stored k.memory k'.memory buf bs)
    (hle : bs.length ≤ n) (hrequest : k'.readRequests r = k.readRequests r)
    (hfits : (k.readRequests r).bytesRead ≤ (k.readRequests r).bytes)
    (hapart : Apart (buf, n) ((k.readRequests r).buffer, (k.readRequests r).bytes)) :
    k'.foundBy r = k.foundBy r := by
  have hwritten : bs.length ≤ n.toNat := by omega
  have hkept := Int.toNat_le_toNat hfits
  refine foundBy_congr hrequest fun i hi => h.outside _ ?_
  rcases hapart with hbehind | hbefore
  · exact Or.inr ((Nat.add_le_add_left hwritten _).trans (hbehind.trans (Nat.le_add_right _ _)))
  · exact Or.inl ((Nat.add_lt_add_left (hi.trans_le hkept) _).trans_le hbefore)

namespace Hands

/-- The request has the bytes in its buffer. -/
theorem found (h : Hands key f bs k k') : k'.foundBy f.elem = bs := by
  obtain ⟨n, hn⟩ := h.turn.request f.elem
  have hread := h.turn.bytesRead
  rw [foundBy, hread, hn]
  exact h.stored.inside

/-- Nothing changes in the buffer of another request. -/
theorem found_other (h : Hands key f bs k k') (hs : k.Serviceable key) (hne : r ≠ f.elem)
    (hfits : (k.readRequests r).bytesRead ≤ (k.readRequests r).bytes)
    (hapart : Apart ((k.readRequests f.elem).buffer, (k.readRequests f.elem).bytes)
      ((k.readRequests r).buffer, (k.readRequests r).bytes)) : k'.foundBy r = k.foundBy r :=
  h.stored.found_other (h.turn.bounds hs).2.2 (h.turn.request_of_ne hne) hfits hapart

theorem buffers (h : Hands key f bs s.k k') (hcalls : CallsInv key own s) (hs : Buffers key s) :
    Buffers key { s with k := k' } := by
  have hsame : ∀ pt, bufferOf k' pt = bufferOf s.k pt := by
    intro pt
    refine bufferOf_congr fun r _ => ?_
    obtain ⟨n, hn⟩ := h.turn.request r
    rw [hn]
    exact ⟨rfl, rfl⟩
  refine ⟨fun p q b c hpq hb hc => ?_, fun p r hp hr => ?_⟩
  · simp only [hsame] at hb hc
    exact hs.apart p q b c hpq hb hc
  · obtain ⟨n, hn⟩ := h.turn.request r
    by_cases hf : r = f.elem
    · subst hf
      obtain ⟨-, -, hle⟩ := h.turn.bounds hcalls.serviceable
      simp only [h.turn.bytesRead]
      rw [hn]
      exact hle
    · simp only [h.turn.request_of_ne hf]
      refine hs.fits p r hp fun hmem => ?_
      rw [h.turn.elems] at hmem
      exact hr ((List.mem_cons.mp hmem).resolve_left hf)

/-- A turn hands out a parcel. -/
theorem step (h : Hands key f bs s.k k') (hcalls : CallsInv key own s) (hs : Buffers key s) :
    (parcelsOf key s sent handed taken).Step (parcelsOf key { s with k := k' } sent
      (handed ++ [((s.k.readRequests f.elem).readerP, bs)]) taken) := by
  have helems := h.turn.elems
  have hnodup := hcalls.elems_nodup
  rw [helems, List.nodup_cons] at hnodup
  obtain ⟨p, -, hwaits, hreq⟩ := hcalls.node_request (f := f) (by
    rw [h.turn.queue.2]
    exact List.mem_cons_self)
  have hfiled := hwaits.filed
  have hmem : f.elem ∈ s.k.elems (s.k.readQueueOf key) := by
    rw [helems]
    exact List.mem_cons_self
  have hnone : (parcelsOf key s sent handed taken).ready p = none := by
    simp only [parcelsOf, inBuffer, hfiled, if_pos hmem]
  have hparcel : (parcelsOf key s sent handed taken).store.take bs.length = bs := h.bytes.symm
  convert Parcels.Step.hand bs.length hnone using 1
  refine Parcels.ext rfl ?_ ?_ rfl (funext fun q => ?_)
  · simp only [parcelsOf, Parcels.hand, h.turn.contents, Int.toNat_natCast]
  · rw [Parcels.hand, hparcel, hreq.reader]
    rfl
  · rw [Parcels.hand, hparcel]
    by_cases hq : q = p
    · subst hq
      simp only [parcelsOf, inBuffer, hfiled, if_neg hnodup.1, h.found, update_self]
    · simp only [parcelsOf, inBuffer, update_of_ne hq]
      cases hr : (s.point q).filed with
      | none => rfl
      | some r =>
          have hrequest := FifoPoint.request_of_filed hr
          have hne : r ≠ f.elem := by
            rintro rfl
            exact hq (hcalls.reader_unique hrequest hwaits.request)
          have hsame : r ∈ k'.elems (k'.readQueueOf key) ↔ r ∈ s.k.elems (s.k.readQueueOf key) := by
            rw [helems, List.mem_cons, or_iff_right hne]
          simp only [hsame]
          split
          next => rfl
          next hout =>
            rw [h.found_other hcalls.serviceable hne (hs.fits q r hr hout)]
            exact hs.apart p q _ _ (Ne.symm hq) (bufferOf_request hwaits.request)
              (bufferOf_request hrequest)

/-- A turn leaves the buffer of a reader that was served before alone. -/
theorem found_kept (h : Hands key f bs s.k k') (hcalls : CallsInv key own s) (hs : Buffers key s)
    (hp : (s.point p).filed = some r) (hr : r ∉ s.k.elems (s.k.readQueueOf key)) :
    k'.foundBy r = s.k.foundBy r ∧ r ∉ k'.elems (k'.readQueueOf key) := by
  rw [h.turn.elems, List.mem_cons, not_or] at hr
  obtain ⟨hne, hr'⟩ := hr
  obtain ⟨q, -, hwaits, -⟩ := hcalls.node_request (f := f) (by
    rw [h.turn.queue.2]
    exact List.mem_cons_self)
  have hq : q ≠ p := by
    rintro rfl
    exact hne (Option.some.inj (hp.symm.trans hwaits.filed))
  have hout : r ∉ s.k.elems (s.k.readQueueOf key) := by
    rw [h.turn.elems, List.mem_cons, not_or]
    exact ⟨hne, hr'⟩
  exact ⟨h.found_other hcalls.serviceable hne (hs.fits p r hp hout) (hs.apart q p _ _ hq
    (bufferOf_request hwaits.request) (bufferOf_request (FifoPoint.request_of_filed hp))), hr'⟩

end Hands

namespace HandsAll

theorem found_kept (h : HandsAll key served s.k k') (hcalls : CallsInv key own s)
    (hs : Buffers key s) (hp : (s.point p).filed = some r)
    (hr : r ∉ s.k.elems (s.k.readQueueOf key)) : k'.foundBy r = s.k.foundBy r := by
  generalize hk : s.k = k at h
  induction h generalizing s own with
  | done => rfl
  | @turn f bs k k₁ k' served hhands _ ih =>
      subst hk
      obtain ⟨hfound, hr'⟩ := hhands.found_kept hcalls hs hp hr
      have hrest := @ih { s with k := k₁ } _ (hcalls.turn hhands.turn).1
        (hhands.buffers hcalls hs) hp hr' rfl
      exact hrest.trans hfound

/-- Every request that was served has its bytes in its buffer. -/
theorem found (h : HandsAll key served s.k k') (hcalls : CallsInv key own s)
    (hs : Buffers key s) : ∀ x ∈ served, k'.foundBy x.1.elem = x.2 := by
  generalize hk : s.k = k at h
  induction h generalizing s own with
  | done => exact fun x hx => nomatch hx
  | @turn f bs k k₁ k' served hhands hrest ih =>
      subst hk
      have hcalls₁ := (hcalls.turn hhands.turn).1
      have hs₁ := hhands.buffers hcalls hs
      intro x hx
      rcases List.mem_cons.mp hx with rfl | hx
      · obtain ⟨p, -, hwaits, -⟩ := hcalls.node_request (f := f) (by
          rw [hhands.turn.queue.2]
          exact List.mem_cons_self)
        have hnodup := hcalls.elems_nodup
        rw [hhands.turn.elems, List.nodup_cons] at hnodup
        have hkept := @found_kept key { s with k := k₁ } k' _ p f.elem served hrest hcalls₁ hs₁
          hwaits.filed hnodup.1
        exact hkept.trans hhands.found
      · exact ih hcalls₁ hs₁ rfl x hx

theorem buffers (h : HandsAll key served s.k k') (hcalls : CallsInv key own s)
    (hs : Buffers key s) : Buffers key { s with k := k' } := by
  generalize hk : s.k = k at h
  induction h generalizing s own with
  | done => exact hk ▸ hs
  | @turn f bs k k₁ k' served hhands _ ih =>
      subst hk
      exact @ih { s with k := k₁ } _ (hcalls.turn hhands.turn).1 (hhands.buffers hcalls hs) rfl

/-- The loop hands out parcels. -/
theorem steps (h : HandsAll key served s.k k') (hcalls : CallsInv key own s)
    (hs : Buffers key s) :
    (parcelsOf key s sent handed taken).Steps (parcelsOf key { s with k := k' } sent
      (handed ++ served.map fun x => ((s.k.readRequests x.1.elem).readerP, x.2)) taken) := by
  generalize hk : s.k = k at h
  induction h generalizing s own handed with
  | done =>
      subst hk
      rw [List.map_nil, List.append_nil]
  | @turn f bs k k₁ k' served hhands _ ih =>
      subst hk
      have hsteps := @ih { s with k := k₁ } _
        (handed ++ [((s.k.readRequests f.elem).readerP, bs)]) (hcalls.turn hhands.turn).1
        (hhands.buffers hcalls hs) rfl
      have hreaders : served.map (fun x => ((k₁.readRequests x.1.elem).readerP, x.2)) =
          served.map fun x => ((s.k.readRequests x.1.elem).readerP, x.2) := by
        refine List.map_congr_left fun x _ => ?_
        obtain ⟨n, hn⟩ := hhands.turn.request x.1.elem
        rw [hn]
      rw [hreaders, List.append_assoc] at hsteps
      exact .head (hhands.step hcalls hs) hsteps

end HandsAll

/-! ## Steps outside the sections -/

/-- A step leaves the bytes and the requests of the calls alone. -/
structure SameBytes (key : Int) (s : FifoRun) (k' : Kernel) : Prop where
  contents : (k'.openFifos key).cBuffer.contents = (s.k.openFifos key).cBuffer.contents
  queue : k'.elems (k'.readQueueOf key) = s.k.elems (s.k.readQueueOf key)
  memory : k'.memory = s.k.memory
  request : ∀ p r, (s.point p).request = some r → k'.readRequests r = s.k.readRequests r

theorem SameBytes.of_eq (hfifo : k'.openFifos = s.k.openFifos) (hqueues : k'.queues = s.k.queues)
    (hmemory : k'.memory = s.k.memory) (hrequests : k'.readRequests = s.k.readRequests) :
    SameBytes key s k' := by
  refine ⟨by rw [hfifo], ?_, hmemory, fun _ _ _ => by rw [hrequests]⟩
  simp only [readQueueOf, elems, hfifo, hqueues]

theorem SameBytes.inBuffer_eq (h : SameBytes key s k') (p : Addr) :
    inBuffer key k' (s.point p) = inBuffer key s.k (s.point p) := by
  rw [inBuffer, inBuffer, h.queue]
  cases hr : (s.point p).filed with
  | none => rfl
  | some r =>
      have hrequest := h.request p r (FifoPoint.request_of_filed hr)
      simp only [foundBy_congr hrequest fun _ _ => by rw [h.memory]]

/-- The running process goes to a point at which its request is as far as before. -/
theorem SameBytes.parcelsOf_eq (h : SameBytes key s k') {pt : FifoPoint}
    (hfiled : pt.filed = (s.point q).filed) :
    parcelsOf key ⟨k', update s.point q pt⟩ sent handed taken =
      parcelsOf key s sent handed taken := by
  refine Parcels.ext rfl h.contents rfl rfl (funext fun p => ?_)
  simp only [parcelsOf]
  by_cases hp : p = q
  · subst hp
    rw [update_self, ← h.inBuffer_eq, inBuffer, inBuffer, hfiled]
  · rw [update_of_ne hp, h.inBuffer_eq]

theorem SameBytes.bufferOf_eq (h : SameBytes key s k') (p : Addr) :
    bufferOf k' (s.point p) = bufferOf s.k (s.point p) :=
  bufferOf_congr fun r hr => by
    rw [h.request p r hr]
    exact ⟨rfl, rfl⟩

theorem SameBytes.buffers (h : SameBytes key s k') (hs : Buffers key s) {pt : FifoPoint}
    (hfiled : ∀ r, pt.filed = some r → (s.point q).filed = some r)
    (hpt : ∀ p c, p ≠ q → bufferOf s.k (s.point p) = some c →
      ∀ b, bufferOf k' pt = some b → Apart b c) :
    Buffers key ⟨k', update s.point q pt⟩ := by
  refine ⟨fun p p' b c hne hb hc => ?_, fun p r hp hr => ?_⟩
  · by_cases hp : p = q
    · subst hp
      simp only [update_self] at hb
      simp only [update_of_ne (Ne.symm hne), h.bufferOf_eq] at hc
      exact hpt p' c (Ne.symm hne) hc b hb
    · simp only [update_of_ne hp, h.bufferOf_eq] at hb
      by_cases hp' : p' = q
      · subst hp'
        simp only [update_self] at hc
        exact (hpt p b hp hb c hc).symm
      · simp only [update_of_ne hp', h.bufferOf_eq] at hc
        exact hs.apart p p' b c hne hb hc
  · have hold : (s.point p).filed = some r := by
      by_cases hpq : p = q
      · subst hpq
        simp only [update_self] at hp
        exact hfiled r hp
      · simpa only [update_of_ne hpq] using hp
    simp only [h.queue] at hr
    simp only [h.request p r (FifoPoint.request_of_filed hold)]
    exact hs.fits p r hold hr

/-- The running process keeps its buffer, or gives it up. -/
theorem Buffers.apart_of_bufferOf {pt : FifoPoint} (hs : Buffers key s)
    (hpt : ∀ b, bufferOf k' pt = some b → bufferOf s.k (s.point q) = some b) :
    ∀ p c, p ≠ q → bufferOf s.k (s.point p) = some c →
      ∀ b, bufferOf k' pt = some b → Apart b c :=
  fun p c hp hc b hb => hs.apart q p b c (Ne.symm hp) (hpt b hb) hc

/-! ## The sections -/

/-- A section of `fifo_read` that finds a byte. -/
theorem readSection_hands {b : Bool} (hbuffer : (k.openFifos key).cBuffer.Inv)
    (hreq : RequestOf key p (k.readRequests r)) (hnil : k.queues (k.readQueueOf key) = [])
    (hfill : 0 < k.fillOf key) (hr : k.readSection key r = some (b, k')) :
    ∃ bs, b = true ∧ bs = (k.openFifos key).cBuffer.contents.take bs.length ∧
      (bs.length : Int) ≤ (k.readRequests r).bytes ∧
      Stored k.memory k'.memory (k.readRequests r).buffer bs ∧
      (k'.openFifos key).cBuffer.contents =
        (k.openFifos key).cBuffer.contents.drop bs.length ∧
      k'.elems (k'.readQueueOf key) = [] ∧
      k'.readRequests = update k.readRequests r
        { k.readRequests r with bytesRead := bs.length } := by
  obtain ⟨c, memory, -, -, hcontents, htry⟩ := tryRead_spec hbuffer hreq.fifo hreq.pos hfill
  obtain ⟨bs, htake, hlen, hstored⟩ := tryRead_stored hbuffer hreq.fifo hreq.pos hfill htry
  rw [readSection, if_pos (show k.isEmpty (k.readQueueOf key) from Or.inr hnil), htry] at hr
  simp only [Option.bind_some, if_true, Option.some.injEq, Prod.mk.injEq] at hr
  obtain ⟨rfl, rfl⟩ := hr
  rw [← hlen] at hcontents ⊢
  refine ⟨bs, rfl, htake, ?_, hstored, ?_, ?_, rfl⟩
  · rw [hlen]
    exact min_le_left _ _
  · simpa only [update_self, Int.toNat_natCast] using hcontents
  · simpa only [readQueueOf, elems, update_self, List.map_eq_nil_iff] using hnil

/-- A section of `fifo_read` that queues its request. -/
theorem readSection_queues {b : Bool} (hnull : k.readQueueOf key ≠ null)
    (hreq : RequestOf key p (k.readRequests r))
    (hlater : k.queues (k.readQueueOf key) = [] → k.fillOf key ≤ 0)
    (hr : k.readSection key r = some (b, k')) :
    b = false ∧ ∃ page pages, k' = { k with
      pages
      queues := update k.queues (k.readQueueOf key)
        (k.queues (k.readQueueOf key) ++ [⟨page, r⟩]) } := by
  have hattempt : (if k.isEmpty (k.readQueueOf key) then k.tryRead r else some (false, k)) =
      some (false, k) := by
    split
    next hempty => exact tryRead_empty hreq.fifo (hlater (hempty.resolve_left hnull))
    next => rfl
  rw [readSection, hattempt] at hr
  simp only [Option.bind_some, Bool.false_eq_true, if_false] at hr
  obtain ⟨k₁, henq, he⟩ := Option.map_eq_some_iff.mp hr
  cases he
  obtain ⟨page, pages, -, rfl⟩ := enqueue_spec hnull henq
  exact ⟨rfl, page, pages, rfl⟩

section Section

variable (hcalls : CallsInv key own s) (hs : Buffers key s)
  (hp : s.point s.k.getCurrentProcess = .requested r)
include hcalls hs hp

/-- A reader that finds a byte gets a parcel. -/
theorem readSection_step {b : Bool} (hnil : s.k.queues (s.k.readQueueOf key) = [])
    (hfill : 0 < s.k.fillOf key) (hr : s.k.readSection key r = some (b, k')) :
    b = true ∧
    Buffers key ⟨k', update s.point s.k.getCurrentProcess (.testing r false)⟩ ∧
    (parcelsOf key s sent handed taken).Step
      (parcelsOf key ⟨k', update s.point s.k.getCurrentProcess (.testing r false)⟩ sent
        (handed ++ [(s.k.getCurrentProcess, k'.foundBy r)]) taken) ∧
    ((k'.foundBy r).length : Int) = (k'.readRequests r).bytesRead ∧
    k'.elems (k'.readQueueOf key) = [] := by
  have hmine : (s.point s.k.getCurrentProcess).request = some r := by
    rw [hp]
    rfl
  have hreq := (hcalls.request _ r hmine).2
  obtain ⟨bs, rfl, htake, hle, hstored, hcontents, hempty, hrequests⟩ :=
    readSection_hands hcalls.buffer hreq hnil hfill hr
  have hbytes : k'.readRequests r = { s.k.readRequests r with bytesRead := bs.length } := by
    rw [hrequests, update_self]
  have hfound : k'.foundBy r = bs := by
    rw [foundBy, hbytes]
    exact hstored.inside
  have hother : ∀ q r', q ≠ s.k.getCurrentProcess → (s.point q).request = some r' →
      k'.readRequests r' = s.k.readRequests r' := by
    intro q r' hq hr'
    rw [hrequests]
    refine update_of_ne ?_ _ _
    rintro rfl
    exact hq (hcalls.reader_unique hr' hmine)
  have hbuf : ∀ q, q ≠ s.k.getCurrentProcess →
      bufferOf k' (s.point q) = bufferOf s.k (s.point q) := fun q hq =>
    bufferOf_congr fun r' hr' => by
      rw [hother q r' hq hr']
      exact ⟨rfl, rfl⟩
  have hcurrent : bufferOf k' (.testing r false) =
      bufferOf s.k (s.point s.k.getCurrentProcess) := by
    rw [bufferOf_request hmine, bufferOf_request (show (FifoPoint.testing r false).request = some r from rfl), hbytes]
  have hout : ∀ r', r' ∉ s.k.elems (s.k.readQueueOf key) := by
    intro r'
    rw [elems, hnil]
    exact List.not_mem_nil
  refine ⟨rfl, ⟨fun q q' c c' hne hc hc' => ?_, fun q r' hq _ => ?_⟩, ?_, ?_, hempty⟩
  · simp only [bufferOf_update hbuf hcurrent] at hc hc'
    exact hs.apart q q' c c' hne hc hc'
  · by_cases hqp : q = s.k.getCurrentProcess
    · simp only [hqp, update_self] at hq
      cases hq
      simp only [hbytes]
      exact hle
    · simp only [update_of_ne hqp] at hq
      simp only [hother q r' hqp (FifoPoint.request_of_filed hq)]
      exact hs.fits q r' hq (hout r')
  · have hnone : (parcelsOf key s sent handed taken).ready s.k.getCurrentProcess = none := by
      simp only [parcelsOf, hp]
      rfl
    have hparcel : (parcelsOf key s sent handed taken).store.take bs.length = bs := htake.symm
    convert Parcels.Step.hand bs.length hnone using 1
    refine Parcels.ext rfl ?_ ?_ rfl (funext fun q => ?_)
    · exact hcontents
    · rw [Parcels.hand, hparcel, hfound]
      rfl
    · rw [Parcels.hand, hparcel]
      simp only [parcelsOf]
      by_cases hq : q = s.k.getCurrentProcess
      · rw [hq, update_self, update_self]
        change (if r ∈ _ then none else some (k'.foundBy r)) = _
        rw [hempty, if_neg List.not_mem_nil, hfound]
      · rw [update_of_ne hq, update_of_ne hq, inBuffer, inBuffer, hempty]
        cases hr' : (s.point q).filed with
        | none => rfl
        | some r' =>
            have hrequest := FifoPoint.request_of_filed hr'
            simp only [if_neg (hout r'), if_neg List.not_mem_nil]
            rw [hstored.found_other hle (hother q r' hq hrequest) (hs.fits q r' hr' (hout r'))]
            exact hs.apart _ q _ _ (Ne.symm hq) (bufferOf_request hmine)
              (bufferOf_request hrequest)
  · rw [hfound, hbytes]

/-- A reader that queues its request waits for its parcel. -/
theorem readSection_waits {b : Bool}
    (hlater : s.k.queues (s.k.readQueueOf key) = [] → s.k.fillOf key ≤ 0)
    (hr : s.k.readSection key r = some (b, k')) :
    b = false ∧ Buffers key ⟨k', update s.point s.k.getCurrentProcess (.queued r)⟩ ∧
    parcelsOf key ⟨k', update s.point s.k.getCurrentProcess (.queued r)⟩ sent handed taken =
      parcelsOf key s sent handed taken ∧
    r ∈ k'.elems (k'.readQueueOf key) := by
  have hmine : (s.point s.k.getCurrentProcess).request = some r := by
    rw [hp]
    rfl
  have hreq := (hcalls.request _ r hmine).2
  obtain ⟨rfl, page, pages, rfl⟩ := readSection_queues hcalls.header.1 hreq hlater hr
  have helems : ∀ r', r' ∈ (s.k.queues (s.k.readQueueOf key) ++
      [(⟨page, r⟩ : QueueNode)]).map QueueNode.elem ↔
        r' ∈ s.k.elems (s.k.readQueueOf key) ∨ r' = r := by
    intro r'
    rw [List.map_append, List.mem_append, List.map_singleton, List.mem_singleton]
    rfl
  have hcurrent : bufferOf s.k (.queued r) = bufferOf s.k (s.point s.k.getCurrentProcess) := by
    rw [hp]
    rfl
  refine ⟨rfl, ⟨fun q q' c c' hne hc hc' => ?_, fun q r' hq hr' => ?_⟩,
    Parcels.ext rfl rfl rfl rfl (funext fun q => ?_), ?_⟩
  · have hkept : ∀ q, bufferOf s.k (update s.point s.k.getCurrentProcess (.queued r) q) =
        bufferOf s.k (s.point q) := bufferOf_update (fun _ _ => rfl) hcurrent
    exact hs.apart q q' c c' hne ((hkept q).symm.trans hc) ((hkept q').symm.trans hc')
  · simp only [readQueueOf, elems, update_self, helems, not_or] at hr'
    by_cases hqp : q = s.k.getCurrentProcess
    · simp only [hqp, update_self] at hq
      cases hq
      exact absurd rfl hr'.2
    · simp only [update_of_ne hqp] at hq
      exact hs.fits q r' hq hr'.1
  · simp only [parcelsOf, inBuffer, readQueueOf, elems, update_self, helems]
    by_cases hq : q = s.k.getCurrentProcess
    · rw [hq, update_self, hp]
      simp only [FifoPoint.filed, or_true, if_true]
    · rw [update_of_ne hq]
      cases hr' : (s.point q).filed with
      | none => rfl
      | some r' =>
          have hne : r' ≠ r := by
            rintro rfl
            exact hq (hcalls.reader_unique (FifoPoint.request_of_filed hr') hmine)
          simp only [or_iff_left hne]
          rfl
  · simp only [readQueueOf, elems, update_self, helems, or_true]

end Section

/-- The bytes of a write are in the buffer. -/
theorem parcelsOf_withBuffer {c : CircularBuffer} {bytes : List UInt8}
    (hc : c.contents = (s.k.openFifos key).cBuffer.contents ++ bytes) :
    parcelsOf key { s with k := s.k.withBuffer key c } (sent ++ bytes) handed taken =
      (parcelsOf key s sent handed taken).put bytes := by
  refine Parcels.ext rfl ?_ rfl rfl (funext fun q => ?_)
  · simp only [parcelsOf, writeFifo, update_self]
    exact hc
  · simp only [parcelsOf, inBuffer, elems_withBuffer]
    rfl

/-- A writer puts bytes into the buffer and hands out parcels. -/
theorem writeSection_steps {source : Nat → UInt8} {bytes n : Int} (hcalls : CallsInv key own s)
    (hs : Buffers key s) (hp : s.point s.k.getCurrentProcess = .writing source bytes)
    (hpos : 0 < bytes) (hint : bytes < 2 ^ 31)
    (hw : s.k.writeSection key source bytes = some (n, k')) :
    let t : FifoRun := ⟨k', update s.point s.k.getCurrentProcess .idle⟩
    let before := s.k.elems (s.k.readQueueOf key)
    let new := (before.take (before.length - (k'.elems (k'.readQueueOf key)).length)).map
      fun r => (s.k.arrivalOf r, (k'.readRequests r).bytesRead)
    Buffers key t ∧
    (parcelsOf key s sent handed taken).Steps (parcelsOf key t (sent ++ bytesAt source n)
      (handed ++ new.map fun x => (x.1.reader, k'.foundBy x.1.request)) taken) ∧
    (new.map fun x => (x.1.reader, k'.foundBy x.1.request)).map
      (fun x => (x.1, (x.2.length : Int))) = new.map fun x => (x.1.reader, x.2) := by
  intro t before new
  obtain ⟨c, served, hc, hcontents, hserved⟩ :=
    writeSection_hands hcalls.serviceable hpos hint hw
  have hfifo : (s.k.withBuffer key c).openFifos key =
      { s.k.openFifos key with cBuffer := c } := update_self _ _ _
  have hquiet : Quiet key s.k (s.k.withBuffer key c) :=
    ⟨rfl, fun _ => rfl, rfl, rfl, by rw [hfifo], by rw [hfifo], fun _ => ⟨_, rfl⟩⟩
  have hcalls₁ := hcalls.quiet hquiet (by rw [hfifo]; exact hc)
  have hbuffers₁ : Buffers key { s with k := s.k.withBuffer key c } := by
    refine ⟨hs.apart, fun p r hp hr => hs.fits p r hp ?_⟩
    rwa [elems_withBuffer] at hr
  have hfound := hserved.found hcalls₁ hbuffers₁
  have hnew : new = served.map fun x => (s.k.arrivalOf x.1.elem, (x.2.length : Int)) := by
    have hlog := hserved.turns.log hcalls₁.serviceable
    rw [elems_withBuffer, arrivalOf_withBuffer, List.map_map] at hlog
    exact hlog
  have hparcels : new.map (fun x => (x.1.reader, k'.foundBy x.1.request)) =
      served.map fun x => ((s.k.readRequests x.1.elem).readerP, x.2) := by
    rw [hnew, List.map_map]
    exact List.map_congr_left fun x hx => Prod.ext rfl (hfound x hx)
  have hput := Parcels.Step.put (d := parcelsOf key s sent handed taken) (bytesAt source n)
  rw [← parcelsOf_withBuffer hcontents] at hput
  have hsame : SameBytes key { s with k := k' } k' := .of_eq rfl rfl rfl rfl
  have hidle : parcelsOf key t (sent ++ bytesAt source n)
      (handed ++ new.map fun x => (x.1.reader, k'.foundBy x.1.request)) taken =
        parcelsOf key { s with k := k' } (sent ++ bytesAt source n)
          (handed ++ new.map fun x => (x.1.reader, k'.foundBy x.1.request)) taken :=
    hsame.parcelsOf_eq (by rw [hp]; rfl)
  have hbuffers : Buffers key { s with k := k' } := by
    have hkept := hserved.buffers hcalls₁ hbuffers₁
    exact hkept
  refine ⟨?_, ?_, ?_⟩
  · exact hsame.buffers hbuffers (fun r hr => by cases hr) fun _ _ _ _ _ hb => by cases hb
  · rw [hidle, hparcels]
    exact .head hput (hserved.steps hcalls₁ hbuffers₁)
  · rw [hparcels, hnew, List.map_map, List.map_map]
    rfl

/-! ## Every step -/

/-- What the runs keep.  A process in a call has opened the fifo, so that the second test of
`fifo_read` finds it open. -/
structure StreamInv (key : Int) (s : StreamRun) : Prop where
  order : OrderInv key s.order
  buffers : Buffers key s.order.run
  access : ∀ p, s.order.run.point p ≠ .idle → key < maxFifos ∧ s.order.run.k.fileIsOpen p key
  counts : s.handed.map (fun x => (x.1, (x.2.length : Int))) =
    s.order.fulfilled.map fun x => (x.1.reader, x.2)
  parcels : (s.parcels key).Inv

/-- What a step must do to keep them. -/
structure StreamStep (key : Int) (s t : StreamRun) : Prop where
  buffers : Buffers key t.order.run
  counts : s.handed.map (fun x => (x.1, (x.2.length : Int))) =
      s.order.fulfilled.map (fun x => (x.1.reader, x.2)) →
    t.handed.map (fun x => (x.1, (x.2.length : Int))) =
      t.order.fulfilled.map fun x => (x.1.reader, x.2)
  steps : (s.parcels key).Steps (t.parcels key)

variable {x : StreamRun}

/-- A step without a section. -/
theorem log_quiet {t : OrderRun} {a : FifoAction} (hfulfilled : t.fulfilled = x.order.fulfilled)
    (haccepted : acceptedIn key x.order.run a = []) (hreturned : returnedIn x.order.run a = []) :
    x.log key t a = { x with order := t } := by
  rw [StreamRun.log, hfulfilled, haccepted, hreturned, List.drop_length, List.map_nil,
    List.append_nil, List.append_nil, List.append_nil]

/-- The running process goes on, with its buffer and its request as before. -/
theorem SameBytes.passes {t : OrderRun} {a : FifoAction} {pt : FifoPoint}
    (h : SameBytes key x.order.run k') (hx : Buffers key x.order.run)
    (hrun : t.run = ⟨k', update x.order.run.point q pt⟩)
    (hfulfilled : t.fulfilled = x.order.fulfilled)
    (haccepted : acceptedIn key x.order.run a = []) (hreturned : returnedIn x.order.run a = [])
    (hfiled : pt.filed = (x.order.run.point q).filed)
    (hpt : ∀ p c, p ≠ q → bufferOf x.order.run.k (x.order.run.point p) = some c →
      ∀ b, bufferOf k' pt = some b → Apart b c) : StreamStep key x (x.log key t a) := by
  rw [log_quiet hfulfilled haccepted hreturned]
  refine ⟨?_, fun hcounts => ?_, ?_⟩
  · simp only [hrun]
    exact h.buffers hx (fun r hr => hfiled ▸ hr) hpt
  · simp only [hfulfilled]
    exact hcounts
  · rw [StreamRun.parcels, StreamRun.parcels]
    simp only [hrun, h.parcelsOf_eq hfiled]
    exact .refl

/-- A step of the kernel that leaves the calls alone. -/
theorem SameBytes.stays {t : OrderRun} {a : FifoAction} (h : SameBytes key x.order.run k')
    (hx : Buffers key x.order.run) (hrun : t.run = { x.order.run with k := k' })
    (hfulfilled : t.fulfilled = x.order.fulfilled)
    (haccepted : acceptedIn key x.order.run a = []) (hreturned : returnedIn x.order.run a = []) :
    StreamStep key x (x.log key t a) := by
  have hpoint : t.run = ⟨k', update x.order.run.point null (x.order.run.point null)⟩ := by
    rw [hrun, update_eq_self]
  refine h.passes hx hpoint hfulfilled haccepted hreturned rfl
    (hx.apart_of_bufferOf fun b hb => ?_)
  rwa [h.bufferOf_eq] at hb

/-- A statement outside the sections, before the return. -/
def FifoPoint.Plain : FifoPoint → Prop
  | .requested _ => False
  | .collecting _ _ => False
  | .writing _ _ => False
  | _ => True

/-- Such a statement leaves the logs as they are. -/
theorem FifoPoint.Plain.log
    (h : (x.order.run.point x.order.run.k.getCurrentProcess).Plain) (t : FifoRun) :
    x.order.log key t .advance = { x.order with run := t } ∧
      acceptedIn key x.order.run .advance = [] ∧ returnedIn x.order.run .advance = [] := by
  unfold OrderRun.log acceptedIn returnedIn
  cases hp : x.order.run.point x.order.run.k.getCurrentProcess with
  | requested r =>
      rw [hp] at h
      exact h.elim
  | collecting r waited =>
      rw [hp] at h
      exact h.elim
  | writing source bytes =>
      rw [hp] at h
      exact h.elim
  | _ => exact ⟨rfl, rfl, rfl⟩

theorem SameBytes.onward {pt : FifoPoint} (h : SameBytes key x.order.run k')
    (hx : Buffers key x.order.run)
    (hplain : (x.order.run.point x.order.run.k.getCurrentProcess).Plain)
    (hfiled : pt.filed = (x.order.run.point x.order.run.k.getCurrentProcess).filed)
    (hpt : ∀ b, bufferOf k' pt = some b →
      bufferOf k' (x.order.run.point x.order.run.k.getCurrentProcess) = some b) :
    StreamStep key x (x.log key (x.order.log key ⟨k', update x.order.run.point
      x.order.run.k.getCurrentProcess pt⟩ .advance) .advance) := by
  obtain ⟨hlog, haccepted, hreturned⟩ :=
    @FifoPoint.Plain.log key x hplain
      ⟨k', update x.order.run.point x.order.run.k.getCurrentProcess pt⟩
  rw [hlog]
  refine h.passes hx rfl rfl haccepted hreturned hfiled (hx.apart_of_bufferOf fun b hb => ?_)
  rw [← h.bufferOf_eq]
  exact hpt b hb

/-- `fifo_open` leaves the bytes of an open fifo alone. -/
theorem SameBytes.openName {name : CString} {i : Int} (h : CallsInv key own s)
    (hopen : (s.k.openFifos key).state = .opened) (ho : s.k.fifoOpen name = some (i, k')) :
    SameBytes key s k' := by
  have hrequests := (@elems_fifoOpen key _ _ _ _ ho).1
  have hwaiting := (SameFifo.openName h hopen ho).waiting
  have helems : k'.elems (k'.readQueueOf key) = s.k.elems (s.k.readQueueOf key) := by
    have hpages := congrArg (List.map Arrival.request) hwaiting
    rw [waitingOf, waitingOf, List.map_map, List.map_map] at hpages
    simpa [Function.comp_def, arrivalOf] using hpages
  have hrest : (k'.openFifos key).cBuffer = (s.k.openFifos key).cBuffer ∧
      k'.memory = s.k.memory := by
    unfold fifoOpen at ho
    split at ho
    next j hsearch =>
      cases ho
      obtain ⟨processes, he⟩ := setFileOpen_eq s.k s.k.getCurrentProcess j
      rw [he]
      exact ⟨rfl, rfl⟩
    next =>
      cases ho
      exact ⟨rfl, rfl⟩
    next j hsearch =>
      obtain ⟨⟨lock, k₁⟩, hlock, ho⟩ := Option.bind_eq_some_iff.mp ho
      obtain ⟨⟨r, k₂⟩, hq, ho⟩ := Option.map_eq_some_iff.mp ho
      cases ho
      have hne : key ≠ j := by
        rintro rfl
        have hclosed := (scanFrom_closed hsearch).2
        simp [hopen] at hclosed
      obtain ⟨pages₁, queues₁, openMutexes, rfl⟩ := mutexOpen_eq hlock
      obtain ⟨pages, -, rfl⟩ := createQueue_spec hq
      obtain ⟨processes, he⟩ := setFileOpen_eq _ _ _
      rw [he]
      refine ⟨?_, rfl⟩
      simp only [writeFifo, update_of_ne hne]
  exact ⟨by rw [hrest.1], helems, hrest.2, fun _ _ _ => by rw [hrequests]⟩

/-- `create_read_request` writes a page of its own. -/
theorem SameBytes.createRequest {buf : Addr} {bytes : Int} (h : CallsInv key own s)
    (hr : s.k.createReadRequest key buf bytes = some (r, k')) : SameBytes key s k' := by
  have hrequests := fun a => h.request_createRequest hr (a := a)
  obtain ⟨⟨b, k₁⟩, hget, he⟩ := Option.map_eq_some_iff.mp hr
  obtain ⟨pages, hpages, rfl⟩ := getPage_eq_some hget
  cases he
  refine ⟨rfl, rfl, rfl, fun p r' hp => hrequests r' ?_⟩
  rw [(h.request p r' hp).1]
  exact Option.some_ne_none _

/-- The request is for the buffer that the caller gave. -/
theorem bufferOf_createRequest {buf : Addr} {bytes : Int}
    (hr : k.createReadRequest key buf bytes = some (r, k')) :
    bufferOf k' (.requested r) = some (buf, bytes) := by
  obtain ⟨⟨b, k₁⟩, hget, he⟩ := Option.map_eq_some_iff.mp hr
  cases he
  rw [bufferOf_request (show (FifoPoint.requested r).request = some r from rfl)]
  simp only [writeRequest, update_self]

/-- A process that was woken up is not in the queue any more. -/
theorem CallsInv.notMem_of_collecting {waited : Bool} (h : CallsInv key own s)
    (hp : s.point p = .collecting r waited) : r ∉ s.k.elems (s.k.readQueueOf key) := by
  intro hr
  obtain ⟨f, hf, rfl⟩ := List.mem_map.mp hr
  obtain ⟨q, -, hwaits⟩ := h.nodes f hf
  obtain rfl := h.reader_unique hwaits.request (by rw [hp]; rfl)
  rcases hwaits with hq | ⟨hq, -⟩ <;> rw [hp] at hq <;> cases hq

namespace StreamInv

/-- The second test of `fifo_read` finds the fifo open. -/
theorem isOpen (h : StreamInv key x)
    (hp : x.order.run.point x.order.run.k.getCurrentProcess ≠ .idle) :
    x.order.run.k.fifoIsOpen key :=
  ⟨(h.access _ hp).1, h.order.opened, (h.access _ hp).2⟩

/-- A section of `fifo_read`. -/
theorem requested (h : StreamInv key x) {b : Bool}
    (hp : x.order.run.point x.order.run.k.getCurrentProcess = .requested r)
    (hr : x.order.run.k.readSection key r = some (b, k')) :
    StreamStep key x (x.log key (x.order.log key ⟨k', update x.order.run.point
      x.order.run.k.getCurrentProcess (if b then .testing r false else .queued r)⟩ .advance)
        .advance) := by
  obtain ⟨own, hcalls⟩ := h.order.calls
  have hreader : (x.order.run.k.readRequests r).readerP = x.order.run.k.getCurrentProcess :=
    (hcalls.request _ r (by rw [hp]; rfl)).2.reader
  simp only [StreamRun.log, OrderRun.log, acceptedIn, returnedIn, hp, List.drop_left,
    List.append_nil]
  by_cases hnow : x.order.run.k.queues (x.order.run.k.readQueueOf key) = [] ∧
      0 < x.order.run.k.fillOf key
  · obtain ⟨rfl, hbuffers, hstep, hlen, hempty⟩ :=
      readSection_step hcalls h.buffers hp hnow.1 hnow.2 hr
    simp only [hempty, List.not_mem_nil, if_false, List.map_cons, List.map_nil, arrivalOf, hreader]
    refine ⟨hbuffers, fun hcounts => ?_, .single hstep⟩
    simp only [List.map_append, hcounts, List.map_cons, List.map_nil, hlen]
  · obtain ⟨rfl, hbuffers, hparcels, hmem⟩ := readSection_waits hcalls h.buffers hp
      (fun hnil => Int.not_lt.mp fun hfill => hnow ⟨hnil, hfill⟩) hr
    simp only [hmem, if_true, List.map_nil, List.append_nil]
    exact ⟨hbuffers, fun hcounts => hcounts, Parcels.Steps.of_eq hparcels⟩

/-- A section of `fifo_write`. -/
theorem writing (h : StreamInv key x) {source : Nat → UInt8} {bytes n : Int}
    (hp : x.order.run.point x.order.run.k.getCurrentProcess = .writing source bytes)
    (hw : x.order.run.k.writeSection key source bytes = some (n, k')) :
    StreamStep key x (x.log key (x.order.log key ⟨k', update x.order.run.point
      x.order.run.k.getCurrentProcess .idle⟩ .advance) .advance) := by
  obtain ⟨own, hcalls⟩ := h.order.calls
  obtain ⟨hpos, hint⟩ := h.order.countsOk _ source bytes hp
  obtain ⟨hbuffers, hsteps, hlens⟩ := writeSection_steps hcalls h.buffers hp hpos hint hw
  simp only [StreamRun.log, OrderRun.log, acceptedIn, returnedIn, hp, hw, List.drop_left,
    List.append_nil, Option.map_some, Option.getD_some]
  refine ⟨hbuffers, fun hcounts => ?_, hsteps⟩
  rw [List.map_append, List.map_append, hcounts, ← hlens]

/-- A call of `fifo_read` that returns. -/
theorem collecting (h : StreamInv key x) {waited : Bool}
    (hp : x.order.run.point x.order.run.k.getCurrentProcess = .collecting r waited) :
    StreamStep key x (x.log key (x.order.log key ⟨x.order.run.k.storePage r, update x.order.run.point
      x.order.run.k.getCurrentProcess .idle⟩ .advance) .advance) := by
  obtain ⟨own, hcalls⟩ := h.order.calls
  have hout := hcalls.notMem_of_collecting hp
  have hsame : SameBytes key x.order.run (x.order.run.k.storePage r) := .of_eq rfl rfl rfl rfl
  have hready : (x.parcels key).ready x.order.run.k.getCurrentProcess =
      some (x.order.run.k.foundBy r) := by
    simp only [StreamRun.parcels, parcelsOf, inBuffer, hp, FifoPoint.filed, if_neg hout]
  simp only [StreamRun.log, OrderRun.log, acceptedIn, returnedIn, hp, List.drop_length,
    List.map_nil, List.append_nil]
  refine ⟨?_, fun hcounts => hcounts, ?_⟩
  · exact hsame.buffers h.buffers (fun r hr => by cases hr) fun _ _ _ _ _ hb => by cases hb
  · convert Relation.ReflTransGen.single (Parcels.Step.take hready) using 1
    refine Parcels.ext rfl rfl rfl rfl (funext fun q => ?_)
    simp only [StreamRun.parcels, parcelsOf, Parcels.take]
    by_cases hq : q = x.order.run.k.getCurrentProcess
    · rw [hq, update_self, update_self]
      rfl
    · rw [update_of_ne hq, update_of_ne hq]
      exact hsame.inBuffer_eq q

/-- A statement of a call. -/
theorem advance (h : StreamInv key x) {pt : FifoPoint}
    (ha : fifoAdvance key x.order.run.k x.order.run.k.getCurrentProcess
      (x.order.run.point x.order.run.k.getCurrentProcess) = some (pt, k')) :
    StreamStep key x (x.log key (x.order.log key ⟨k', update x.order.run.point
      x.order.run.k.getCurrentProcess pt⟩ .advance) .advance) := by
  obtain ⟨own, hcalls⟩ := h.order.calls
  have hself : SameBytes key x.order.run x.order.run.k := .of_eq rfl rfl rfl rfl
  cases hp : x.order.run.point x.order.run.k.getCurrentProcess with
  | idle =>
      rw [hp] at ha
      cases ha
  | entered buf bytes pos =>
      rw [hp] at ha
      obtain ⟨⟨r, k₁⟩, hr, he⟩ := Option.map_eq_some_iff.mp ha
      cases he
      refine (SameBytes.createRequest hcalls hr).onward h.buffers (by rw [hp]; trivial)
        (by rw [hp]; rfl) fun b hb => ?_
      rw [bufferOf_createRequest hr] at hb
      rw [hp]
      exact hb
  | requested r =>
      rw [hp] at ha
      obtain ⟨⟨b, k₁⟩, hr, he⟩ := Option.map_eq_some_iff.mp ha
      cases he
      exact h.requested hp hr
  | queued r =>
      rw [hp] at ha
      cases ha
      exact SameBytes.onward (.of_eq rfl rfl rfl rfl) h.buffers (by rw [hp]; trivial)
        (by rw [hp]; rfl) fun b hb => by rwa [hp]
  | yielding r =>
      rw [hp] at ha
      simp only [fifoAdvance] at ha
      split at ha
      next => cases ha
      next =>
        cases ha
        exact hself.onward h.buffers (by rw [hp]; trivial) (by rw [hp]; rfl)
          fun b hb => by rwa [hp]
  | testing r waited =>
      rw [hp] at ha
      cases ha
      rw [if_pos (h.isOpen (by rw [hp]; intro he; cases he))]
      exact hself.onward h.buffers (by rw [hp]; trivial) (by rw [hp]; rfl)
        fun b hb => by rwa [hp]
  | collecting r waited =>
      rw [hp] at ha
      cases ha
      exact h.collecting hp
  | writing source bytes =>
      rw [hp] at ha
      obtain ⟨⟨n, k₁⟩, hw, he⟩ := Option.map_eq_some_iff.mp ha
      cases he
      exact h.writing hp hw

end StreamInv

/-- A statement of a call changes no descriptors. -/
theorem openFds_fifoAdvance {pt pt' : FifoPoint}
    (ha : fifoAdvance key k p pt = some (pt', k')) (q : Addr) :
    (k'.processes q).openFds = (k.processes q).openFds := by
  cases pt with
  | idle => cases ha
  | entered buf bytes pos =>
      obtain ⟨⟨r, k₁⟩, hr, he⟩ := Option.map_eq_some_iff.mp ha
      cases he
      rw [processes_createReadRequest hr]
  | requested r =>
      obtain ⟨⟨b, k₁⟩, hr, he⟩ := Option.map_eq_some_iff.mp ha
      cases he
      rw [processes_readSection hr]
  | queued r =>
      cases ha
      exact openFds_applyStatus k .block _ q
  | yielding r =>
      simp only [fifoAdvance] at ha
      split at ha
      next => cases ha
      next =>
        cases ha
        rfl
  | testing r waited =>
      cases ha
      rfl
  | collecting r waited =>
      cases ha
      rfl
  | writing source bytes =>
      obtain ⟨⟨n, k₁⟩, hw, he⟩ := Option.map_eq_some_iff.mp ha
      cases he
      exact openFds_writeSection hw q

/-- `fifo_open` takes no descriptor away. -/
theorem fileIsOpen_fifoOpen {name : CString} {i : Int} (ho : k.fifoOpen name = some (i, k'))
    (hbit : k.fileIsOpen p key) : k'.fileIsOpen p key := by
  unfold fifoOpen at ho
  split at ho
  next =>
    cases ho
    exact fileIsOpen_setFileOpen.mpr (Or.inl hbit)
  next =>
    cases ho
    exact hbit
  next =>
    obtain ⟨⟨lock, k₁⟩, hlock, ho⟩ := Option.bind_eq_some_iff.mp ho
    obtain ⟨⟨r, k₂⟩, hq, ho⟩ := Option.map_eq_some_iff.mp ho
    cases ho
    obtain ⟨pages₁, queues₁, openMutexes, rfl⟩ := mutexOpen_eq hlock
    obtain ⟨pages, -, rfl⟩ := createQueue_spec hq
    exact fileIsOpen_setFileOpen.mpr (Or.inl hbit)

/-- No step takes a descriptor away. -/
theorem FifoStep.fileIsOpen {a : FifoAction} (h : FifoStep key s a t) (hdomain : a.OnOpenFifo)
    (hbit : s.k.fileIsOpen p key) : t.k.fileIsOpen p key := by
  cases h with
  | dispatch => exact hbit
  | openName ho => exact fileIsOpen_fifoOpen ho hbit
  | read => exact hbit
  | write => exact hbit
  | close => exact hdomain.elim
  | advance ha => exact fileIsOpen_of_openFds (openFds_fifoAdvance ha) hbit
  | status => exact fileIsOpen_of_openFds (openFds_applyStatus s.k _ _) hbit

/-- A process that enters a call has opened the fifo. -/
theorem FifoStep.enters {a : FifoAction} (h : FifoStep key s a t) (hp : t.point p ≠ .idle) :
    s.point p ≠ .idle ∨ p = s.k.getCurrentProcess ∧ s.k.fifoIsOpen key := by
  cases h with
  | dispatch => exact Or.inl hp
  | openName => exact Or.inl hp
  | close => exact Or.inl hp
  | status => exact Or.inl hp
  | read _ hopen =>
      by_cases hcur : p = s.k.getCurrentProcess
      · exact Or.inr ⟨hcur, hopen⟩
      · exact Or.inl (by simpa only [update_of_ne hcur] using hp)
  | write _ hopen =>
      by_cases hcur : p = s.k.getCurrentProcess
      · exact Or.inr ⟨hcur, hopen⟩
      · exact Or.inl (by simpa only [update_of_ne hcur] using hp)
  | advance ha =>
      by_cases hcur : p = s.k.getCurrentProcess
      · refine Or.inl fun hidle => ?_
        rw [← hcur, hidle] at ha
        cases ha
      · exact Or.inl (by simpa only [update_of_ne hcur] using hp)

namespace StreamInv

theorem streamStep (h : StreamInv key x) {a : FifoAction} {run : FifoRun}
    (hguard : Private key x a) (hdomain : a.OnOpenFifo)
    (hstep : FifoStep key x.order.run a run) :
    StreamStep key x (x.log key (x.order.log key run a) a) := by
  obtain ⟨own, hcalls⟩ := h.order.calls
  have hself : SameBytes key x.order.run x.order.run.k := .of_eq rfl rfl rfl rfl
  cases hstep with
  | @dispatch node =>
      have hsame : SameBytes key x.order.run { x.order.run.k with current := node } :=
        .of_eq rfl rfl rfl rfl
      exact hsame.stays h.buffers rfl rfl rfl rfl
  | openName ho =>
      exact (SameBytes.openName hcalls h.order.opened ho).stays h.buffers rfl rfl rfl rfl
  | read hidle =>
      refine hself.passes h.buffers rfl rfl rfl rfl (by rw [hidle]; rfl) fun q c _ hc b hb => ?_
      cases hb
      exact hguard.apart _ _ rfl q c hc
  | write hidle =>
      exact hself.passes h.buffers rfl rfl rfl rfl (by rw [hidle]; rfl)
        fun _ _ _ _ _ hb => by cases hb
  | close => exact hdomain.elim
  | advance ha => exact h.advance ha
  | @status call p =>
      have hsame : SameBytes key x.order.run (x.order.run.k.applyStatus call p) :=
        .of_eq rfl rfl rfl rfl
      exact hsame.stays h.buffers rfl rfl rfl rfl

theorem next {t : StreamRun} {a : FifoAction} (h : StreamInv key x) (hguard : Private key x a)
    (hn : (streamSystem key).next x a = some t) : StreamInv key t := by
  obtain ⟨o, ho, rfl⟩ := Option.map_eq_some_iff.mp hn
  have horder := h.order.next hguard.room ho
  obtain ⟨hdomain, ⟨m, hm, -⟩ | ⟨-, run, hrun, rfl⟩⟩ := orderSystem_next ho
  · rw [(overrunOf_eq_none_iff h.order).mpr hguard.room] at hm
    cases hm
  · have hstep := fifoStep_of_next hrun
    obtain ⟨hbuffers, hcounts, hsteps⟩ := h.streamStep hguard hdomain hstep
    refine ⟨horder, hbuffers, fun p hp => ?_, hcounts h.counts, h.parcels.steps hsteps⟩
    simp only [StreamRun.log, run_log] at hp ⊢
    rcases hstep.enters hp with hin | ⟨rfl, hopen⟩
    · obtain ⟨hkey, hbit⟩ := h.access p hin
      exact ⟨hkey, hstep.fileIsOpen hdomain hbit⟩
    · exact ⟨hopen.1, hstep.fileIsOpen hdomain hopen.2.2⟩

theorem of_init (hs : (streamSystem key).init x) : StreamInv key x := by
  obtain ⟨horder, hwritten, hhanded, hreturned⟩ := hs
  have hinv := OrderInv.of_init horder
  obtain ⟨⟨k, name, i, hsearch, hopen, -, -, -, hidle⟩, -, hfulfilled, -, -⟩ := horder
  obtain ⟨-, lock, k₁, q, -, -, -, hfifo⟩ := fifoOpen_new hsearch hopen
  have hempty : (x.order.run.k.openFifos key).cBuffer.contents = [] := by
    rw [hfifo]
    rfl
  refine ⟨hinv, ⟨fun p q b c _ hb => ?_, fun p r hp => ?_⟩, fun p hp => absurd (hidle p) hp, ?_,
    ?_, fun p => ?_⟩
  · rw [hidle] at hb
    cases hb
  · rw [hidle] at hp
    cases hp
  · rw [hhanded, hfulfilled]
    rfl
  · simp only [StreamRun.parcels, parcelsOf, hwritten, hhanded, hempty, List.flatMap_nil,
      List.append_nil]
  · simp only [StreamRun.parcels, parcelsOf, hhanded, hreturned, hidle]
    rfl

end StreamInv

theorem streamInv_of_reachBy (h : (streamSystem key).ReachBy (Private key) x) : StreamInv key x :=
  h.invariant (fun _ hs => .of_init hs) fun _ _ _ hi hg hn => hi.next hg hn

/-! ## Everything together -/

/-- A fifo is a stream of bytes.  In a run in which every write starts with room in the buffer and
no two calls read into the same memory, whatever the order of the statements of all the readers
and writers is, the calls of `fifo_read` return the bytes that `fifo_write` accepted. -/
theorem fifo_stream (key : Int) : ∀ s, (streamSystem key).ReachBy (Private key) s →
    Flows key s := by
  intro s hs
  obtain ⟨horder, -, -, hcounts, hwhole, heach⟩ := streamInv_of_reachBy hs
  obtain ⟨-, harrived, hpos, -⟩ := horder.depot.orderly
  have hreaders : s.order.fulfilled.map (fun x => x.1.reader) = s.handed.map Prod.fst := by
    have hfirst := congrArg (List.map Prod.fst) hcounts
    rw [List.map_map, List.map_map] at hfirst
    exact hfirst.symm
  refine ⟨hwhole, ?_, fun x hx hnil => ?_, heach⟩
  · have hmap := congrArg (List.map Arrival.reader) harrived
    rw [List.map_append, List.map_map] at hmap
    rw [← hreaders]
    exact hmap
  · have hmem : (x.1, (x.2.length : Int)) ∈ s.order.fulfilled.map fun y => (y.1.reader, y.2) := by
      rw [← hcounts]
      exact List.mem_map_of_mem hx
    obtain ⟨y, hy, he⟩ := List.mem_map.mp hmem
    have hone := (hpos y hy).1
    have hzero : y.2 = 0 := by
      rw [(Prod.mk.inj he).2, hnil]
      rfl
    omega

/-- The first process opened a fifo. -/
def streamStarted : StreamRun := ⟨orderStarted, [], [], []⟩

/-- It calls `fifo_read`. -/
def streamReading : StreamRun :=
  ((streamSystem 0).next streamStarted (.read 100 5)).get (by decide +kernel)

theorem reachBy_streamReading : (streamSystem 0).ReachBy (Private 0) streamReading := by
  have hstart : (streamSystem 0).ReachBy (Private 0) streamStarted :=
    .init ⟨init_orderStarted, rfl, rfl, rfl⟩
  have hguard : Private 0 streamStarted (.read 100 5) := by
    refine ⟨fun ha => ?_, fun _ _ _ q b hb => ?_⟩
    · cases ha
    · cases hb
  exact hstart.step hguard (Option.some_get _).symm

/-- A test for the guard in a step that is no call of `fifo_read`. -/
def keepsPrivate (key : Int) (s : StreamRun) : FifoAction → Bool
  | .read _ _ => false
  | a => hasRoom key s.order a

theorem private_of_keepsPrivate (s : StreamRun) (a : FifoAction) (h : keepsPrivate key s a) :
    Private key s a := by
  cases a with
  | read => cases h
  | _ => exact ⟨hasRoom_of_hasRoom _ _ h, fun _ _ he => nomatch he⟩

/-- It waits, the second process writes three bytes, and the call of the first one returns. -/
def streamReturned : Option StreamRun :=
  (streamSystem 0).executeBy (keepsPrivate 0) streamReading
    [.advance, .advance, .advance, .dispatch 2, .openName .nil,
      .write (fun i => UInt8.ofNat (65 + i)) 3, .advance, .dispatch 1, .advance, .advance, .advance]

theorem fifo_stream_returned : Flows 0 (streamReturned.get (by decide +kernel)) :=
  fifo_stream 0 _ (reachBy_streamReading.execute private_of_keepsPrivate
    (Option.some_get _).symm)

end Kernel

end TPE
