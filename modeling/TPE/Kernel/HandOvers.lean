import TPE.Kernel.CondVariable
import TPE.Kernel.FifoDelivery

/-!
# Hand-overs to the living

A killed process stays in the queues it waits in until the scheduler reaps it.
Three operations hand something over to the first in a queue: `mutex_unlock`
the mutex, `cond_signal` a wake-up, and `fifo_write` bytes.

`mutex_unlock` takes processes from the queue up to one that is not marked for
deletion.  `cond_signal` takes one, whatever it is, and `send_to_readers` does
not look at the readers at all: a wake-up or bytes for a killed process are
lost.
-/

namespace TPE

open Function CircularBuffer

namespace Kernel

/-- The queue at `q` has a header, and holds no `NULL`. -/
structure Waiting (k : Kernel) (q : Addr) : Prop where
  header : q ≠ null
  elem : ∀ p ∈ k.elems q, p ≠ null

/-- Everybody in the queue at `q` is marked for deletion. -/
def AllDead (k : Kernel) (q : Addr) : Prop :=
  ∀ p ∈ k.elems q, k.processes.isDeleteProcess p

/-- The first in the queue at `q` is not marked for deletion. -/
def HeadLives (k : Kernel) (q : Addr) : Prop :=
  ∀ p, (k.elems q).head? = some p → ¬k.processes.isDeleteProcess p

/-- The call makes the first process in the queue ready that is not marked for
deletion, and takes it and those in front of it from the queue. -/
def WakesLiving (k : Kernel) (q : Addr) (call : Option (Int × Kernel)) : Prop :=
  ∀ dead p rest, k.elems q = dead ++ p :: rest →
    (∀ x ∈ dead, k.processes.isDeleteProcess x) → ¬k.processes.isDeleteProcess p →
    ∃ k', call = some (1, k') ∧ (k'.processes p).st = .ready ∧ k'.elems q = rest

/-- The reader of the request `r` is marked for deletion. -/
def DeadReader (k : Kernel) (r : Addr) : Prop :=
  k.processes.isDeleteProcess (k.readRequests r).readerP

instance (k : Kernel) (r : Addr) : Decidable (k.DeadReader r) :=
  inferInstanceAs (Decidable (k.processes.isDeleteProcess _))

/-- The section of `fifo_write` returns, leaves the requests of killed readers
alone, and what the requests of the others get is all that leaves the buffer.
`gone` are the requests it takes from the queue. -/
def DeliversToLive (k : Kernel) (key : Int) (source : Nat → UInt8) (bytes : Int) : Prop :=
  ∃ n k' gone, k.writeSection key source bytes = some (n, k') ∧
    k.elems (k.readQueueOf key) = gone ++ k'.elems (k'.readQueueOf key) ∧
    (∀ r ∈ k.elems (k.readQueueOf key), k.DeadReader r → k'.readRequests r = k.readRequests r) ∧
    (k'.openFifos key).cBuffer.contents =
      ((k.openFifos key).cBuffer.contents ++ bytesAt source n).drop
        ((gone.filter (¬k.DeadReader ·)).map fun r => (k'.readRequests r).bytesRead).sum.toNat

variable {k k' : Kernel} {key : Int} {q p r : Addr} {dead rest : List Addr}

/-! ## Mutexes and condition variables -/

/-- Without a live process in the queue there is nothing to hand over. -/
theorem AllDead.wakesLiving (h : k.AllDead q) (call : Option (Int × Kernel)) :
    k.WakesLiving q call := by
  intro dead p rest hq _ hp
  refine absurd (h p ?_) hp
  rw [hq]
  exact List.mem_append_right _ List.mem_cons_self

/-- The first live process. -/
theorem exists_first_live (h : ¬k.AllDead q) : ∃ dead p rest, k.elems q = dead ++ p :: rest ∧
    (∀ x ∈ dead, k.processes.isDeleteProcess x) ∧ ¬k.processes.isDeleteProcess p := by
  unfold AllDead at h
  simp only [not_forall] at h
  obtain ⟨p, hp, hlive⟩ := h
  have hfind : ((k.elems q).find? fun p => ¬k.processes.isDeleteProcess p).isSome := by
    rw [List.find?_isSome]
    exact ⟨p, hp, by simpa using hlive⟩
  obtain ⟨p₀, hp₀⟩ := Option.isSome_iff_exists.mp hfind
  obtain ⟨hlive₀, dead, rest, hq, hdead⟩ := List.find?_eq_some_iff_append.mp hp₀
  exact ⟨dead, p₀, rest, hq, by simpa using hdead, by simpa using hlive₀⟩

theorem queues_of_elems (h : k.elems q = p :: rest) :
    ∃ f nodes, k.queues q = f :: nodes ∧ f.elem = p ∧ nodes.map QueueNode.elem = rest := by
  exact List.map_eq_cons_iff.mp h

/-- The loop of `mutex_unlock` takes the dead from the queue and returns the
first live process. -/
theorem dequeueWaiter_skips {fuel : Nat} (hq : q ≠ null) (helems : k.elems q = dead ++ p :: rest)
    (hdead : ∀ x ∈ dead, k.processes.isDeleteProcess x) (hp : ¬k.processes.isDeleteProcess p)
    (hreturns : k.DequeueReturns q) (hfuel : dead.length < fuel) :
    ∃ pages nodes, nodes.map QueueNode.elem = rest ∧
      k.dequeueWaiter fuel q = some (p, { k with pages, queues := update k.queues q nodes }) := by
  induction dead generalizing k fuel with
  | nil =>
      obtain ⟨fuel, rfl⟩ : ∃ n, fuel = n + 1 := ⟨fuel - 1, by simp at hfuel; omega⟩
      obtain ⟨f, nodes, hnodes, rfl, hrest⟩ := queues_of_elems helems
      refine ⟨k.pages.storePage f.page, nodes, hrest, ?_⟩
      rw [dequeueWaiter, dequeue_of_cons hq hnodes, if_pos (hreturns.free hq hnodes)]
      simp only [Option.bind_some]
      rw [if_neg (by exact hp)]
      rfl
  | cons d dead ih =>
      obtain ⟨fuel, rfl⟩ : ∃ n, fuel = n + 1 := ⟨fuel - 1, by simp at hfuel; omega⟩
      rw [List.cons_append] at helems
      obtain ⟨f, nodes, hnodes, rfl, hrest⟩ := queues_of_elems helems
      have hfree := hreturns.free hq hnodes
      have hfirst := hdead f.elem List.mem_cons_self
      have hshort : dead.length < fuel := by simpa using hfuel
      obtain ⟨pages, nodes', hnodes', hloop⟩ := ih (k := (k.setQueue q nodes).storePage f.page)
        (by simp only [elems, setQueue, storePage, update_self, hrest])
        (fun x hx => hdead x (List.mem_cons_of_mem _ hx)) hp
        (DequeueReturns.next hfree rfl rfl rfl) hshort
      refine ⟨pages, nodes', hnodes', ?_⟩
      rw [dequeueWaiter, dequeue_of_cons hq hnodes, if_pos hfree]
      simp only [Option.bind_some]
      rw [if_pos (by exact hfirst), hloop]
      simp only [setQueue, storePage, update_idem]

/-- `mutex_unlock` passes the dead over, as far as it returns at all. -/
theorem mutexUnlock_wakesLiving_iff (hopen : k.mutexIsOpen key)
    (hw : k.Waiting (k.openMutexes key).processQueue) :
    k.WakesLiving (k.openMutexes key).processQueue (k.mutexUnlock key) ↔
      k.AllDead (k.openMutexes key).processQueue ∨
        k.DequeueReturns (k.openMutexes key).processQueue := by
  constructor
  · intro h
    by_cases hall : k.AllDead (k.openMutexes key).processQueue
    · exact Or.inl hall
    · obtain ⟨dead, p, rest, hq, hdead, hp⟩ := exists_first_live hall
      obtain ⟨k', hcall, -⟩ := h dead p rest hq hdead hp
      rw [mutexUnlock, if_pos hopen] at hcall
      obtain ⟨r, hloop, -⟩ := Option.map_eq_some_iff.mp hcall
      rw [dequeueWaiter] at hloop
      obtain ⟨r', hdeq, -⟩ := Option.bind_eq_some_iff.mp hloop
      have hreturns := dequeueReturns_of_some hdeq
      exact Or.inr hreturns
  · rintro (hall | hreturns)
    · exact hall.wakesLiving _
    · intro dead p rest hq hdead hp
      have hnull : p ≠ null := hw.elem p (by
        rw [hq]
        exact List.mem_append_right _ List.mem_cons_self)
      have hfuel : dead.length < (k.queues (k.openMutexes key).processQueue).length + 1 := by
        have hlen := congrArg List.length hq
        simp only [elems, List.length_map, List.length_append, List.length_cons] at hlen
        omega
      obtain ⟨pages, nodes, hnodes, hloop⟩ := dequeueWaiter_skips
        (k := { k with superlock := .locked }) hw.header hq hdead hp hreturns hfuel
      refine ⟨?handed, ?call, ?ready, ?taken⟩
      case call =>
        rw [mutexUnlock, if_pos hopen]
        simp only
        rw [hloop]
        simp only [Option.map_some, ne_eq, hnull, not_false_eq_true, if_true]
        rfl
      case ready =>
        exact Procs.unblockProcess_st_self hnull fun hdel => hp ⟨hnull, hdel⟩
      case taken =>
        simp only [elems, writeMutex, update_self]
        exact hnodes

/-- `cond_signal` on a queue with a first process. -/
theorem condSignal_cons {f : QueueNode} {nodes : List QueueNode} (hopen : k.condIsOpen key)
    (hw : k.Waiting (k.openConds key).processQueue)
    (hq : k.queues (k.openConds key).processQueue = f :: nodes)
    (hfree : (k.setQueue (k.openConds key).processQueue nodes).MemoryFree) :
    k.condSignal key = some (1, { k with
      pages := k.pages.storePage f.page
      queues := update k.queues (k.openConds key).processQueue nodes
      processes := Procs.unblockProcess k.processes f.elem }) := by
  have hnull : f.elem ≠ null := hw.elem _ (by
    rw [elems, hq]
    exact List.mem_cons_self)
  rw [condSignal, if_pos hopen, syncDequeue]
  simp only [if_neg (not_isEmpty_cons hw.header hq)]
  rw [dequeue_of_cons hw.header hq, if_pos hfree]
  simp only [Option.map_some, ne_eq, hnull, not_false_eq_true, if_true]
  rfl

/-- `cond_signal` takes the first process, dead or alive. -/
theorem condSignal_wakesLiving_iff (hopen : k.condIsOpen key)
    (hw : k.Waiting (k.openConds key).processQueue) :
    k.WakesLiving (k.openConds key).processQueue (k.condSignal key) ↔
      k.AllDead (k.openConds key).processQueue ∨
        k.DequeueReturns (k.openConds key).processQueue ∧
          k.HeadLives (k.openConds key).processQueue := by
  constructor
  · intro h
    by_cases hall : k.AllDead (k.openConds key).processQueue
    · exact Or.inl hall
    · obtain ⟨dead, p, rest, hq, hdead, hp⟩ := exists_first_live hall
      obtain ⟨k', hcall, -, hrest⟩ := h dead p rest hq hdead hp
      obtain ⟨f, nodes, hnodes⟩ : ∃ f nodes,
          k.queues (k.openConds key).processQueue = f :: nodes := by
        refine List.exists_cons_of_ne_nil fun hnil => ?_
        rw [elems, hnil] at hq
        simp at hq
      have hreturns : k.DequeueReturns (k.openConds key).processQueue := by
        rw [condSignal, if_pos hopen, syncDequeue] at hcall
        simp only [if_neg (not_isEmpty_cons hw.header hnodes)] at hcall
        obtain ⟨r, hdeq, -⟩ := Option.map_eq_some_iff.mp hcall
        exact dequeueReturns_of_some hdeq
      refine Or.inr ⟨hreturns, ?_⟩
      -- one process leaves the queue, so nobody is in front of the live one
      rw [condSignal_cons hopen hw hnodes (hreturns.free hw.header hnodes)] at hcall
      cases hcall
      simp only [elems, update_self] at hrest
      have hlen := congrArg List.length hq
      rw [elems, hnodes, ← hrest] at hlen
      simp only [List.length_map, List.length_append, List.length_cons] at hlen
      obtain rfl : dead = [] := List.length_eq_zero_iff.mp (by omega)
      intro p' hp'
      rw [hq] at hp'
      cases hp'
      exact hp
  · rintro (hall | ⟨hreturns, hhead⟩)
    · exact hall.wakesLiving _
    · intro dead p rest hq hdead hp
      cases dead with
      | cons d dead =>
          refine absurd (hdead d List.mem_cons_self) (hhead d ?_)
          rw [hq]
          rfl
      | nil =>
          obtain ⟨f, nodes, hnodes, rfl, hrest⟩ := queues_of_elems hq
          have hnull : f.elem ≠ null := hw.elem _ (by
            rw [hq]
            exact List.mem_cons_self)
          refine ⟨_, condSignal_cons hopen hw hnodes (hreturns.free hw.header hnodes), ?_, ?_⟩
          · exact Procs.unblockProcess_st_self hnull fun hdel => hp ⟨hnull, hdel⟩
          · simpa only [elems, update_self] using hrest

/-! ## Fifos -/

theorem outOfReach_withBuffer {c : CircularBuffer} {fill : Int} :
    OutOfReach key (k.withBuffer key c) fill r ↔ OutOfReach key k fill r := by
  unfold OutOfReach
  simp only [withBuffer, writeFifo, elems, update_self]

/-- The requests that are served are those the bytes get to. -/
theorem Turns.served_iff {served : List (QueueNode × Int)} (h : Turns key served k k')
    (hs : k.Serviceable key) (hend : k'.queues (k'.readQueueOf key) = [] ∨ k'.fillOf key ≤ 0) :
    r ∈ served.map (fun s => s.1.elem) ↔
      r ∈ k.elems (k.readQueueOf key) ∧ ¬OutOfReach key k (k.fillOf key) r := by
  have hshare := congrArg List.length (h.share hs hend)
  rw [List.length_map] at hshare
  have hasked : ∀ a ∈ (k.elems (k.readQueueOf key)).map fun r => (k.readRequests r).bytes,
      0 < a := by
    intro a ha
    obtain ⟨r, hr, rfl⟩ := List.mem_map.mp ha
    exact (hs.request r hr).2
  have hlt := fun i => lt_length_share_iff (k.fillOf key) hasked (i := i)
  simp only [← hshare, List.length_map, ← List.map_take] at hlt
  -- `r` stands behind `front`
  have hserved : ∀ front back, k.elems (k.readQueueOf key) = front ++ r :: back →
      (r ∈ served.map (fun s => s.1.elem) ↔ front.length < served.length) := by
    intro front back hq
    have hnodup := hs.nodup
    rw [hq, List.nodup_append] at hnodup
    have hfront : r ∉ front := fun hm => hnodup.2.2 r hm r List.mem_cons_self rfl
    have htake : served.map (fun s => s.1.elem) =
        (front ++ r :: back).take served.length := by
      rw [← hq, h.elems, List.take_left' (by simp)]
    rw [htake]
    constructor
    · intro hm
      by_contra hle
      rw [List.take_append_of_le_length (by omega)] at hm
      exact hfront (List.mem_of_mem_take hm)
    · intro hlt
      rw [List.take_append]
      refine List.mem_append_right _ ?_
      obtain ⟨n, hn⟩ : ∃ n, served.length - front.length = n + 1 :=
        ⟨served.length - front.length - 1, by omega⟩
      rw [hn]
      exact List.mem_cons_self
  constructor
  · intro hr
    refine ⟨by rw [h.elems]; exact List.mem_append_left _ hr, ?_⟩
    rintro ⟨front, back, hq, hle⟩
    have hfront := (hlt front.length).mp ((hserved front back hq).mp hr)
    rw [hq, List.take_left' rfl] at hfront
    omega
  · rintro ⟨hr, hreach⟩
    obtain ⟨front, back, hq⟩ := List.append_of_mem hr
    refine (hserved front back hq).mpr ((hlt front.length).mpr ?_)
    rw [hq, List.take_left' rfl]
    refine ⟨by simp, ?_⟩
    by_contra hle
    exact hreach ⟨front, back, hq, Int.not_lt.mp hle⟩

/-- `buf_fill` after a write that fits. -/
theorem fillAfter_eq {c : CircularBuffer} (h : c.Inv) {bytes : Int} (hpos : 0 < bytes)
    (fits : c.WriteFits bytes) : fillAfter c bytes = c.bufFill + min bytes (bufSize - c.bufFill) := by
  obtain ⟨t, ht, -, hcount, hfill, -⟩ := write_spec h (fun _ => 0) hpos fits
  rw [← write_bufFill ht, hfill, hcount]

/-- What the section of `fifo_write` did: it returned `n` and served the requests
`gone`, which are those the bytes get to. -/
structure Delivery (key : Int) (source : Nat → UInt8) (bytes n : Int) (gone : List Addr)
    (k k' : Kernel) : Prop where
  elems : k.elems (k.readQueueOf key) = gone ++ k'.elems (k'.readQueueOf key)
  got : ∀ r ∈ gone, 0 < (k'.readRequests r).bytesRead
  others : ∀ r, r ∉ gone → k'.readRequests r = k.readRequests r
  nonneg : 0 ≤ (gone.map fun r => (k'.readRequests r).bytesRead).sum
  total : (gone.map fun r => (k'.readRequests r).bytesRead).sum ≤
    ((k.openFifos key).cBuffer.contents ++ bytesAt source n).length
  contents : (k'.openFifos key).cBuffer.contents =
    ((k.openFifos key).cBuffer.contents ++ bytesAt source n).drop
      (gone.map fun r => (k'.readRequests r).bytesRead).sum.toNat
  gone_iff : ∀ r, r ∈ gone ↔ r ∈ k.elems (k.readQueueOf key) ∧
    ¬OutOfReach key k (fillAfter (k.openFifos key).cBuffer bytes) r

theorem writeSection_delivery {source : Nat → UInt8} {bytes n : Int} (h : k.Serviceable key)
    (hpos : 0 < bytes) (hint : bytes < 2 ^ 31)
    (hw : k.writeSection key source bytes = some (n, k')) :
    ∃ gone, Delivery key source bytes n gone k k' := by
  obtain ⟨fits, hn, c, served, hc, hfill, hcontents, hturns, hend⟩ :=
    writeSection_turns h hpos hint hw
  have hs := h.withBuffer hc
  have hfifo : (k.withBuffer key c).openFifos key = { k.openFifos key with cBuffer := c } :=
    update_self _ _ _
  have hqueue : (k.withBuffer key c).elems ((k.withBuffer key c).readQueueOf key) =
      k.elems (k.readQueueOf key) := by
    simp only [readQueueOf, hfifo]
    rfl
  have hafter : (k.withBuffer key c).fillOf key = fillAfter (k.openFifos key).cBuffer bytes := by
    rw [fillAfter_eq h.buffer hpos fits, fillOf, hfifo, hfill, hn]
  -- what the requests hold is what the turns gave them
  have hread : (served.map fun s => s.1.elem).map (fun r => (k'.readRequests r).bytesRead) =
      served.map Prod.snd := by
    rw [List.map_map]
    exact List.map_congr_left fun s hs' => (hturns.bytesRead hs s hs').1
  obtain ⟨hleft, hnonneg, hleftFill⟩ := hturns.contents hs
  rw [hfifo] at hleft
  refine ⟨served.map fun s => s.1.elem, ?_, ?_, ?_, ?_, ?_, ?_, ?_⟩
  · rw [← hqueue]
    exact hturns.elems
  · intro r hr
    obtain ⟨s, hs', rfl⟩ := List.mem_map.mp hr
    obtain ⟨he, hlt, -⟩ := hturns.bytesRead hs s hs'
    rw [he]
    exact hlt
  · intro r hr
    exact hturns.request_of_notMem fun s hs' he => hr (List.mem_map.mpr ⟨s, hs', he.symm⟩)
  · rw [hread]
    exact hnonneg
  · rw [hread, ← hcontents, length_contents]
    have := (hturns.serviceable hs).buffer.fill_nonneg
    rw [fillOf, fillOf, hfifo] at hleftFill
    simp only at hleftFill
    omega
  · rw [hread, hleft, hcontents]
  · intro r
    rw [hturns.served_iff hs hend, hqueue, hafter, outOfReach_withBuffer]

/-- `fifo_write` serves the requests of killed readers like any other. -/
theorem deliversToLive_iff {source : Nat → UInt8} {bytes : Int} (h : k.Serviceable key)
    (hpos : 0 < bytes) (hint : bytes < 2 ^ 31) :
    k.DeliversToLive key source bytes ↔
      (k.openFifos key).cBuffer.WriteFits bytes ∧ k.DequeueReturns (k.readQueueOf key) ∧
        ∀ r ∈ k.elems (k.readQueueOf key), k.DeadReader r →
          OutOfReach key k (fillAfter (k.openFifos key).cBuffer bytes) r := by
  have hsome : (∃ r, k.writeSection key source bytes = some r) ↔ _ :=
    writeSection_some_iff h hpos hint
  constructor
  · rintro ⟨n, k', gone, hw, helems, -, hcontents⟩
    obtain ⟨fits, hreturns⟩ := hsome.mp ⟨_, hw⟩
    obtain ⟨gone', hd⟩ := writeSection_delivery h hpos hint hw
    obtain rfl : gone = gone' := List.append_cancel_right (helems.symm.trans hd.elems)
    refine ⟨fits, hreturns, fun r hr hdead => ?_⟩
    by_contra hreach
    have hgone : r ∈ gone := (hd.gone_iff r).mpr ⟨hr, hreach⟩
    -- the live readers got as much as all of them
    have hsum : ((gone.filter (¬k.DeadReader ·)).map fun r => (k'.readRequests r).bytesRead).sum =
        (gone.map fun r => (k'.readRequests r).bytesRead).sum := by
      have hlen := congrArg List.length (hcontents.symm.trans hd.contents)
      rw [List.length_drop, List.length_drop] at hlen
      have hle := sum_filter_le (¬k.DeadReader ·) (fun r => (k'.readRequests r).bytesRead)
        (l := gone) fun r hr => hd.got r hr
      have := hd.total
      have := hd.nonneg
      omega
    exact (sum_filter_eq_iff _ _ hd.got).mp hsum r hgone hdead
  · rintro ⟨fits, hreturns, hreach⟩
    obtain ⟨⟨n, k'⟩, hw⟩ := hsome.mpr ⟨fits, hreturns⟩
    obtain ⟨gone, hd⟩ := writeSection_delivery h hpos hint hw
    have hlive : ∀ r ∈ gone, ¬k.DeadReader r := by
      intro r hr hdead
      obtain ⟨hmem, hnot⟩ := (hd.gone_iff r).mp hr
      exact hnot (hreach r hmem hdead)
    refine ⟨n, k', gone, hw, hd.elems, ?_, ?_⟩
    · intro r _ hdead
      exact hd.others r fun hr => hlive r hr hdead
    · rw [(sum_filter_eq_iff _ _ hd.got).mpr hlive]
      exact hd.contents

/-! ## The three operations -/

/-- When the three operations pass the dead over: `mutex_unlock` always,
`cond_signal` if a live process is first, and `fifo_write` if its bytes get to
no killed reader.  The call has to return, for which the allocator has to take
the page of a node back, and a write has to fit into the buffer. -/
theorem handOvers_iff (k : Kernel) :
    (∀ key, k.mutexIsOpen key → k.Waiting (k.openMutexes key).processQueue →
      (k.WakesLiving (k.openMutexes key).processQueue (k.mutexUnlock key) ↔
        k.AllDead (k.openMutexes key).processQueue ∨
          k.DequeueReturns (k.openMutexes key).processQueue)) ∧
    (∀ key, k.condIsOpen key → k.Waiting (k.openConds key).processQueue →
      (k.WakesLiving (k.openConds key).processQueue (k.condSignal key) ↔
        k.AllDead (k.openConds key).processQueue ∨
          k.DequeueReturns (k.openConds key).processQueue ∧
            k.HeadLives (k.openConds key).processQueue)) ∧
    ∀ key source bytes, k.Serviceable key → 0 < bytes → bytes < 2 ^ 31 →
      (k.DeliversToLive key source bytes ↔
        (k.openFifos key).cBuffer.WriteFits bytes ∧ k.DequeueReturns (k.readQueueOf key) ∧
          ∀ r ∈ k.elems (k.readQueueOf key), k.DeadReader r →
            OutOfReach key k (fillAfter (k.openFifos key).cBuffer bytes) r) := by
  exact ⟨fun _ hopen hw => mutexUnlock_wakesLiving_iff hopen hw,
    fun _ hopen hw => condSignal_wakesLiving_iff hopen hw,
    fun _ _ _ h hpos hint => deliversToLive_iff h hpos hint⟩

/-- A mutex, a condition variable and a fifo, each with a killed process and a
live one in its queue. -/
def killedWaiters : Kernel where
  pages := { PageStack.initializeMemoryAllocator ⟨fun _ => 0, 0⟩ with currentIndex := 12 }
  processes p := if p = 10 ∨ p = 20 ∨ p = 30 then { Process.zero with st := .delete, pid := p }
    else { Process.zero with st := .blocked, pid := p }
  openMutexes key :=
    if key = 0 then ⟨.nil, .locked, .opened, pageAddr 1⟩
    else if key = 1 then ⟨condLockName 0, .unlocked, .opened, pageAddr 7⟩
    else ⟨.nil, .locked, .closed, null⟩
  openConds key := if key = 0 then ⟨.nil, .opened, 1, pageAddr 4⟩ else ⟨.nil, .closed, 0, null⟩
  openFifos key := ⟨.nil, .create fun _ => 0, if key = 0 then .opened else .closed, 0, pageAddr 8⟩
  queues a :=
    if a = pageAddr 1 then [⟨pageAddr 2, 10⟩, ⟨pageAddr 3, 11⟩]
    else if a = pageAddr 4 then [⟨pageAddr 5, 20⟩, ⟨pageAddr 6, 21⟩]
    else if a = pageAddr 8 then [⟨pageAddr 9, pageAddr 11⟩, ⟨pageAddr 10, pageAddr 12⟩]
    else []
  readRequests r := if r = pageAddr 11 then ⟨4, 0, 0x1000, 0, 30⟩ else ⟨4, 0, 0x2000, 0, 31⟩

theorem serviceable_killedWaiters : killedWaiters.Serviceable 0 := by
  refine ⟨by decide, create_inv _, by decide, ?_⟩
  decide

theorem handOvers_iff_killedWaiters :
    killedWaiters.WakesLiving (pageAddr 1) (killedWaiters.mutexUnlock 0) ∧
    ¬killedWaiters.WakesLiving (pageAddr 4) (killedWaiters.condSignal 0) ∧
    ¬killedWaiters.DeliversToLive 0 (fun _ => 7) 4 := by
  obtain ⟨hmutex, hcond, hfifo⟩ := handOvers_iff killedWaiters
  refine ⟨(hmutex 0 (by decide) ⟨by decide, by decide⟩).mpr (Or.inr (by decide)), ?_, ?_⟩
  · rw [show pageAddr 4 = (killedWaiters.openConds 0).processQueue from rfl,
      hcond 0 (by decide) ⟨by decide, by decide⟩]
    rintro (hall | ⟨-, hhead⟩)
    · exact absurd (hall 21 (by decide)) (by decide)
    · exact hhead 20 (by decide) (by decide)
  · rw [hfifo 0 _ 4 serviceable_killedWaiters (by decide) (by decide)]
    rintro ⟨-, -, hreach⟩
    obtain ⟨front, back, hq, hle⟩ := hreach (pageAddr 11) (by decide) (by decide)
    have hfront : front = [] := by
      cases front with
      | nil => rfl
      | cons a front =>
          have htail := (List.cons.inj hq).2
          have hmem : pageAddr 11 ∈ [pageAddr 12] := by
            rw [show [pageAddr 12] = _ from htail]
            exact List.mem_append_right _ List.mem_cons_self
          exact absurd hmem (by decide)
    subst hfront
    exact absurd hle (by decide)

/-- The wake-up and the bytes go to the killed processes. -/
theorem wakeups_lost :
    ¬killedWaiters.WakesLiving (killedWaiters.openConds 0).processQueue (killedWaiters.condSignal 0) ∧
    ¬killedWaiters.DeliversToLive 0 (fun _ => 7) 4 := by
  constructor
  · intro h
    obtain ⟨k', hcall, hready, -⟩ := h [20] 21 [] (by decide) (by decide) (by decide)
    have hst : (killedWaiters.condSignal 0).map (fun r => (r.2.processes 21).st) = some .blocked := by
      decide
    rw [hcall] at hst
    exact absurd (hready.symm.trans (Option.some.inj hst)) (by decide)
  · rintro ⟨n, k', gone, hw, -, hleft, -⟩
    have hread : (killedWaiters.writeSection 0 (fun _ => 7) 4).map
        (fun r => (r.2.readRequests (pageAddr 11)).bytesRead) = some 4 := by
      decide +kernel
    rw [hw] at hread
    have hsame := hleft (pageAddr 11) (by decide) (by decide)
    have hgot : (k'.readRequests (pageAddr 11)).bytesRead = 4 := Option.some.inj hread
    rw [hsame] at hgot
    exact absurd hgot (by decide)

end Kernel

end TPE
