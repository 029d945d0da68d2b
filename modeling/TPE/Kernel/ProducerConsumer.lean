import TPE.Kernel.CircularBuffer

/-!
# Producers and consumers

`producerConsumer.c`: a fifo of empty slots and a fifo of items.  The producer
takes a slot for every item it writes, and the consumer gives the slot back when
it has read the item, so no more items are under way than there are slots.

The number of slots comes from the command line and is not bounded, but both
fifos hold `BUF_SIZE` bytes and an item has four.  A write to a full fifo is a
call of `memcpy` that leaves the buffer, so the accounts hold exactly for up to
`BUF_SIZE / 4` slots (`lossless_iff`).

A read or write of a fifo is one step, and a read of an empty fifo waits.
-/

namespace TPE

open CircularBuffer

/-- `EMPTY_SLOT` -/
abbrev emptySlot : UInt8 := 69

/-- `sizeof(int)` -/
abbrev sizeofInt : Int := 4

/-- The next call in the loop of the producer or the consumer. -/
inductive LoopPoint where
  | reading
  | writing
deriving DecidableEq, Repr

/-- What is held between the two calls. -/
def LoopPoint.held : LoopPoint → Int
  | .reading => 0
  | .writing => 1

@[simp] theorem LoopPoint.held_reading : LoopPoint.reading.held = 0 := rfl

@[simp] theorem LoopPoint.held_writing : LoopPoint.writing.held = 1 := rfl

theorem LoopPoint.held_nonneg (pt : LoopPoint) : 0 ≤ pt.held := by
  cases pt <;> decide

/-- The two fifos and the variables of the three loops. -/
structure ProdCon where
  /-- The buffer of `PRODUCER_FIFO`: the empty slots. -/
  empty : CircularBuffer
  /-- The buffer of `CONSUMER_FIFO`: the items. -/
  full : CircularBuffer
  /-- `i` of `start_producer_consumer_problem`. -/
  i : Nat
  /-- `message` of the producer. -/
  message : Nat → UInt8
  /-- `item` of the consumer. -/
  item : Nat → UInt8
  producer : LoopPoint
  consumer : LoopPoint
  /-- The items the producer has written, each with its four bytes, oldest first. -/
  written : List (List UInt8)
  /-- The items the consumer has read. -/
  consumed : List (List UInt8)
  /-- The call of `memcpy` that left a buffer.  Nothing happens after it. -/
  overrun : Option Memcpy

/-- What can happen in one step. -/
inductive ProdConAction where
  /-- The loop that fills the fifo of slots. -/
  | fill
  /-- The producer reads a slot. -/
  | takeSlot
  /-- The producer writes this item. -/
  | produce (item : Nat → UInt8)
  /-- The consumer reads an item. -/
  | consume
  /-- The consumer writes a slot. -/
  | freeSlot

namespace ProdCon

/-- A transfer ends, or leaves the buffer. -/
def settle (s : ProdCon) (r : Except Memcpy Transfer) (done : Transfer → ProdCon) : ProdCon :=
  match r with
  | .ok t => done t
  | .error m => { s with overrun := some m }

/-- The three loops, in any order, with `b` for `buf_size`. -/
def system (b : Nat) : System ProdCon ProdConAction where
  init s := (∃ garbage, s.empty = create garbage) ∧ (∃ garbage, s.full = create garbage) ∧
    s.i = 0 ∧ s.producer = .reading ∧ s.consumer = .reading ∧ s.written = [] ∧ s.consumed = [] ∧
    s.overrun = none
  next s a :=
    if s.overrun.isSome then none
    else match a with
      | .fill =>
          if s.i < b then
            some (s.settle (s.empty.write (fun _ => emptySlot) 1) fun t =>
              { s with empty := t.cbuf, i := s.i + 1 })
          else none
      | .takeSlot =>
          if s.producer = .reading ∧ 0 < s.empty.bufFill then
            some (s.settle (s.empty.read s.message 1) fun t =>
              { s with empty := t.cbuf, message := t.mem, producer := .writing })
          else none
      | .produce item =>
          if s.producer = .writing then
            some (s.settle (s.full.write item sizeofInt) fun t =>
              { s with
                full := t.cbuf
                written := s.written ++ [bytesAt item sizeofInt]
                producer := .reading })
          else none
      | .consume =>
          if s.consumer = .reading ∧ 0 < s.full.bufFill then
            some (s.settle (s.full.read s.item sizeofInt) fun t =>
              { s with
                full := t.cbuf
                item := t.mem
                consumed := s.consumed ++ [bytesAt t.mem sizeofInt]
                consumer := .writing })
          else none
      | .freeSlot =>
          if s.consumer = .writing then
            some (s.settle (s.empty.write (fun _ => emptySlot) 1) fun t =>
              { s with empty := t.cbuf, consumer := .reading })
          else none

/-- The producer and the consumer start after the fill, as the shell command does it. -/
def FillFirst (b : Nat) (s : ProdCon) (a : ProdConAction) : Prop := a = .fill ∨ s.i = b

/-- No item is lost and at most `b` of them are under way. -/
structure Lossless (b : Nat) (s : ProdCon) : Prop where
  inside : s.overrun = none
  order : s.consumed <+: s.written
  bounded : s.written.length ≤ s.consumed.length + b

/-! ## The accounts -/

/-- The items that are written and not read yet. -/
def pending (s : ProdCon) : List (List UInt8) := s.written.drop s.consumed.length

/-- Every slot is empty, with the producer, an item, or with the consumer. -/
structure Conserved (b : Nat) (s : ProdCon) : Prop where
  inside : s.overrun = none
  empty : s.empty.Inv
  full : s.full.Inv
  order : s.consumed <+: s.written
  bytes : s.full.contents = s.pending.flatten
  width : ∀ x ∈ s.pending, x.length = 4
  i_le : s.i ≤ b
  slots : s.empty.bufFill + s.producer.held + s.pending.length + s.consumer.held = s.i

variable {b : Nat} {s t : ProdCon}

theorem Conserved.start (h : (system b).init s) : s.Conserved b := by
  obtain ⟨⟨garbage, hempty⟩, ⟨garbage', hfull⟩, hi, hprod, hcons, hwritten, hconsumed, hin⟩ := h
  refine ⟨hin, hempty ▸ create_inv garbage, hfull ▸ create_inv garbage', ?_, ?_, ?_, ?_, ?_⟩
  · simp [hwritten, hconsumed]
  · simp [hfull, pending, hwritten, contents, create]
  · simp [pending, hwritten]
  · omega
  · simp [hempty, pending, hwritten, hprod, hcons, hi, create, LoopPoint.held]

/-- An item has four bytes. -/
theorem Conserved.full_bufFill (h : s.Conserved b) : s.full.bufFill = 4 * s.pending.length := by
  have hlen : s.pending.flatten.length = 4 * s.pending.length := by
    rw [List.length_flatten, List.map_congr_left (g := fun _ => 4) h.width]
    simp [Nat.mul_comm]
  have hcont := congrArg List.length h.bytes
  rw [length_contents, hlen] at hcont
  have := h.full.fill_nonneg
  omega

/-- The fifo of slots has room for the slots that are not in it. -/
theorem Conserved.slots_le (h : s.Conserved b) (hb : b ≤ 256) : s.empty.bufFill ≤ 256 := by
  have := h.slots
  have := h.i_le
  have := s.producer.held_nonneg
  have := s.consumer.held_nonneg
  omega

/-! ## One step -/

/-- A slot is written. -/
theorem Conserved.writeSlot (h : s.Conserved b) (hb : b ≤ 256) :
    ∃ t, s.empty.write (fun _ => emptySlot) 1 = .ok t ∧ t.cbuf.Inv ∧
      t.cbuf.bufFill = s.empty.bufFill + 1 := by
  have hle := h.slots_le hb
  have hsize : ((bufSize : Nat) : Int) = 1024 := rfl
  obtain ⟨t, ht, hinv, hcount, hfill, -⟩ :=
    write_spec h.empty (fun _ => emptySlot) Int.one_pos ⟨by omega, by omega⟩
  exact ⟨t, ht, hinv, by omega⟩

theorem Conserved.fill (h : s.Conserved b) (hb : b ≤ 256) (hi : s.i < b) {t : Transfer}
    (ht : s.empty.write (fun _ => emptySlot) 1 = .ok t) :
    Conserved b { s with empty := t.cbuf, i := s.i + 1 } := by
  obtain ⟨t', ht', hinv, hfill⟩ := h.writeSlot hb
  obtain rfl : t = t' := Except.ok.inj (ht.symm.trans ht')
  have hslots := h.slots
  refine { h with empty := hinv, i_le := hi, slots := ?_ }
  simp only [hfill, pending] at hslots ⊢
  omega

theorem Conserved.freeSlot (h : s.Conserved b) (hb : b ≤ 256) (hpt : s.consumer = .writing)
    {t : Transfer} (ht : s.empty.write (fun _ => emptySlot) 1 = .ok t) :
    Conserved b { s with empty := t.cbuf, consumer := .reading } := by
  obtain ⟨t', ht', hinv, hfill⟩ := h.writeSlot hb
  obtain rfl : t = t' := Except.ok.inj (ht.symm.trans ht')
  have hslots := h.slots
  refine { h with empty := hinv, slots := ?_ }
  simp only [hfill, hpt, pending, LoopPoint.held_reading, LoopPoint.held_writing] at hslots ⊢
  omega

/-- The producer takes a slot out of the fifo. -/
theorem Conserved.takeSlot (h : s.Conserved b) (hpt : s.producer = .reading)
    (hfill : 0 < s.empty.bufFill) :
    ∃ t, s.empty.read s.message 1 = .ok t ∧
      Conserved b { s with empty := t.cbuf, message := t.mem, producer := .writing } := by
  obtain ⟨t, ht, hinv, hcount, hleft, -, -⟩ := read_spec h.empty s.message Int.one_pos hfill
  have hslots := h.slots
  refine ⟨t, ht, { h with empty := hinv, slots := ?_ }⟩
  simp only [hpt, hleft, hcount, pending, LoopPoint.held_reading,
    LoopPoint.held_writing] at hslots ⊢
  omega

/-- The producer puts an item in the place of its slot. -/
theorem Conserved.produce (h : s.Conserved b) (hb : b ≤ 256) (hpt : s.producer = .writing)
    (item : Nat → UInt8) :
    ∃ t, s.full.write item sizeofInt = .ok t ∧
      Conserved b { s with
        full := t.cbuf
        written := s.written ++ [bytesAt item sizeofInt]
        producer := .reading } := by
  have hslots := h.slots
  have hempty := h.empty.fill_nonneg
  have hcons := s.consumer.held_nonneg
  have hi := h.i_le
  have hfull := h.full_bufFill
  have hsize : ((bufSize : Nat) : Int) = 1024 := rfl
  have hint : sizeofInt = 4 := rfl
  rw [hpt, LoopPoint.held_writing] at hslots
  obtain ⟨t, ht, hinv, hcount, -, hcont⟩ :=
    write_spec h.full item (n := sizeofInt) (by decide) ⟨by omega, by omega⟩
  have hall : t.count = sizeofInt := by omega
  have hpending : pending { s with
      full := t.cbuf
      written := s.written ++ [bytesAt item sizeofInt]
      producer := .reading } = s.pending ++ [bytesAt item sizeofInt] :=
    List.drop_append_of_le_length h.order.length_le
  refine ⟨t, ht, { h with
    full := hinv
    order := h.order.trans (List.prefix_append _ _)
    bytes := ?_
    width := ?_
    slots := ?_ }⟩
  · rw [hpending, hcont, h.bytes, hall]
    simp
  · rw [hpending]
    intro x hx
    rcases List.mem_append.mp hx with hold | hnew
    · exact h.width x hold
    · rw [List.mem_singleton.mp hnew]
      rfl
  · simp only [hpending, List.length_append, List.length_singleton, LoopPoint.held_reading]
    omega

/-- The consumer reads the oldest item. -/
theorem Conserved.consume (h : s.Conserved b) (hpt : s.consumer = .reading)
    (hfill : 0 < s.full.bufFill) :
    ∃ t, s.full.read s.item sizeofInt = .ok t ∧
      Conserved b { s with
        full := t.cbuf
        item := t.mem
        consumed := s.consumed ++ [bytesAt t.mem sizeofInt]
        consumer := .writing } := by
  obtain ⟨t, ht, hinv, hcount, hleft, htaken, hcont⟩ :=
    read_spec h.full s.item (n := sizeofInt) (by decide) hfill
  have hfull := h.full_bufFill
  have hslots := h.slots
  have hint : sizeofInt = 4 := rfl
  cases hp : s.pending with
  | nil =>
      rw [hp] at hfull
      simp only [List.length_nil] at hfull
      omega
  | cons x rest =>
      have hx : x.length = 4 := h.width x (by simp [hp])
      have hall : t.count = sizeofInt := by
        simp only [hp, List.length_cons] at hfull
        omega
      have hbytes : s.full.contents = x ++ rest.flatten := by simp [h.bytes, hp]
      have hitem : bytesAt t.mem sizeofInt = x := by
        rw [← hall, htaken, hall, hbytes]
        exact List.take_left' hx
      have hwritten : s.written = s.consumed ++ [x] ++ rest := by
        rw [List.append_assoc, List.singleton_append, ← hp, pending]
        exact (List.prefix_iff_eq_append.mp h.order).symm
      have hpending : pending { s with
          full := t.cbuf
          item := t.mem
          consumed := s.consumed ++ [bytesAt t.mem sizeofInt]
          consumer := .writing } = rest := by
        simp only [pending, hitem]
        rw [hwritten]
        exact List.drop_left
      refine ⟨t, ht, { h with
        full := hinv
        order := ?_
        bytes := ?_
        width := ?_
        slots := ?_ }⟩
      · rw [hitem, hwritten]
        exact List.prefix_append _ _
      · rw [hpending, hcont, hall, hbytes]
        exact List.drop_left' hx
      · rw [hpending]
        exact fun y hy => h.width y (by simp [hp, hy])
      · rw [hpending]
        simp only [hp, hpt, List.length_cons, LoopPoint.held_reading,
          LoopPoint.held_writing] at hslots ⊢
        omega

/-- With up to 256 slots every step keeps the accounts. -/
theorem Conserved.next {a : ProdConAction} (h : s.Conserved b) (hb : b ≤ 256)
    (hn : (system b).next s a = some t) : t.Conserved b := by
  have hin : s.overrun.isSome = false := by simp [h.inside]
  simp only [system, hin, Bool.false_eq_true, if_false] at hn
  cases a with
  | fill =>
      simp only [Option.ite_none_right_eq_some, Option.some.injEq] at hn
      obtain ⟨hi, rfl⟩ := hn
      obtain ⟨u, hu, -⟩ := h.writeSlot hb
      rw [hu]
      exact h.fill hb hi hu
  | takeSlot =>
      simp only [Option.ite_none_right_eq_some, Option.some.injEq] at hn
      obtain ⟨⟨hpt, hfill⟩, rfl⟩ := hn
      obtain ⟨u, hu, hkept⟩ := h.takeSlot hpt hfill
      rw [hu]
      exact hkept
  | produce item =>
      simp only [Option.ite_none_right_eq_some, Option.some.injEq] at hn
      obtain ⟨hpt, rfl⟩ := hn
      obtain ⟨u, hu, hkept⟩ := h.produce hb hpt item
      rw [hu]
      exact hkept
  | consume =>
      simp only [Option.ite_none_right_eq_some, Option.some.injEq] at hn
      obtain ⟨⟨hpt, hfill⟩, rfl⟩ := hn
      obtain ⟨u, hu, hkept⟩ := h.consume hpt hfill
      rw [hu]
      exact hkept
  | freeSlot =>
      simp only [Option.ite_none_right_eq_some, Option.some.injEq] at hn
      obtain ⟨hpt, rfl⟩ := hn
      obtain ⟨u, hu, -⟩ := h.writeSlot hb
      rw [hu]
      exact h.freeSlot hb hpt hu

theorem conserved_of_reach (hb : b ≤ 256) (h : (system b).Reach s) : s.Conserved b :=
  h.invariant (fun _ => Conserved.start) fun _ _ _ hi _ hn => hi.next hb hn

theorem Conserved.lossless (h : s.Conserved b) : s.Lossless b := by
  refine ⟨h.inside, h.order, ?_⟩
  have hslots := h.slots
  have := h.i_le
  have := h.empty.fill_nonneg
  have := s.producer.held_nonneg
  have := s.consumer.held_nonneg
  simp only [pending, List.length_drop] at hslots
  omega

/-! ## More slots than the fifos hold -/

/-- The slots and the bytes of the items while the consumer has not started. -/
structure Stocked (s : ProdCon) (i slots bytes : Nat) : Prop where
  inside : s.overrun = none
  empty : s.empty.Inv
  full : s.full.Inv
  i_eq : s.i = i
  slots : s.empty.bufFill = slots
  bytes : s.full.bufFill = bytes
  producer : s.producer = .reading

variable {i slots bytes : Nat}

/-- One turn of the fill loop. -/
theorem Stocked.fill (h : s.Stocked i slots bytes) (hi : i < b) (hroom : slots < bufSize) :
    ∃ t, (system b).next s .fill = some t ∧ t.Stocked (i + 1) (slots + 1) bytes := by
  have hslots := h.slots
  have hsize : ((bufSize : Nat) : Int) = 1024 := rfl
  obtain ⟨t, ht, hinv, hcount, hfill, -⟩ :=
    write_spec h.empty (fun _ => emptySlot) Int.one_pos ⟨by omega, by omega⟩
  refine ⟨{ s with empty := t.cbuf, i := s.i + 1 }, ?_, h.inside, hinv, h.full,
    congrArg (· + 1) h.i_eq, ?_, h.bytes, h.producer⟩
  · simp [system, h.inside, h.i_eq, hi, ht, settle]
  · rw [hfill]
    omega

/-- The fill loop writes to a full fifo. -/
theorem Stocked.fill_full (h : s.Stocked i slots bytes) (hi : i < b) (hfull : slots = bufSize) :
    ∃ t, (system b).next s .fill = some t ∧ t.overrun ≠ none := by
  have hslots : s.empty.bufFill = bufSize := by rw [h.slots, hfull]
  have hwrite := write_full h.empty (fun _ => emptySlot) Int.one_pos hslots (by rw [hslots]; decide)
  refine ⟨{ s with overrun := some ⟨0, s.empty.freeSlot - bufSize⟩ }, ?_, by simp⟩
  simp [system, h.inside, h.i_eq, hi, hwrite, settle]

/-- The producer reads a slot. -/
theorem Stocked.takeSlot (h : s.Stocked i (slots + 1) bytes) :
    ∃ t, (system b).next s .takeSlot = some t ∧ t.i = i ∧ t.overrun = none ∧ t.empty.Inv ∧
      t.empty.bufFill = slots ∧ t.full = s.full ∧ t.producer = .writing := by
  have hslots := h.slots
  have hfill : 0 < s.empty.bufFill := by omega
  obtain ⟨t, ht, hinv, hcount, hleft, -, -⟩ := read_spec h.empty s.message Int.one_pos hfill
  refine ⟨{ s with empty := t.cbuf, message := t.mem, producer := .writing }, ?_, h.i_eq, h.inside,
    hinv, ?_, rfl, rfl⟩
  · simp [system, h.inside, h.producer, hfill, ht, settle]
  · rw [hleft]
    omega

/-- One turn of the producer's loop. -/
theorem Stocked.produce (h : s.Stocked i (slots + 1) bytes) (hroom : bytes + 4 ≤ bufSize)
    (item : Nat → UInt8) :
    ∃ t u, (system b).next s .takeSlot = some t ∧ t.i = i ∧
      (system b).next t (.produce item) = some u ∧ u.Stocked i slots (bytes + 4) := by
  obtain ⟨t, ht, hi, hin, hempty, hslots, hsame, hpt⟩ := h.takeSlot (b := b)
  have hbytes := h.bytes
  have hint : sizeofInt = 4 := rfl
  have hsize : ((bufSize : Nat) : Int) = 1024 := rfl
  obtain ⟨w, hw, hinv, hcount, hfill, -⟩ :=
    write_spec h.full item (n := sizeofInt) (by decide) ⟨by omega, by omega⟩
  refine ⟨t, { t with
    full := w.cbuf
    written := t.written ++ [bytesAt item sizeofInt]
    producer := .reading }, ht, hi, ?_, hin, hempty, hinv, hi, hslots, ?_, rfl⟩
  · simp [system, hin, hpt, hsame, hw, settle]
  · rw [hfill]
    omega

/-- The producer writes an item to a full fifo. -/
theorem Stocked.produce_full (h : s.Stocked i (slots + 1) bytes) (hfull : bytes = bufSize)
    (item : Nat → UInt8) :
    ∃ t u, (system b).next s .takeSlot = some t ∧ t.i = i ∧
      (system b).next t (.produce item) = some u ∧ u.overrun ≠ none := by
  obtain ⟨t, ht, hi, hin, -, -, hsame, hpt⟩ := h.takeSlot (b := b)
  have hbytes : s.full.bufFill = bufSize := by rw [h.bytes, hfull]
  have hwrite := write_full h.full item (n := sizeofInt) (by decide) hbytes (by rw [hbytes]; decide)
  refine ⟨t, { t with overrun := some ⟨0, s.full.freeSlot - bufSize⟩ }, ht, hi, ?_, by simp⟩
  simp [system, hin, hpt, hsame, hwrite, settle]

/-- Nothing has happened. -/
def start : ProdCon where
  empty := .create fun _ => 0
  full := .create fun _ => 0
  i := 0
  message _ := 0
  item _ := 0
  producer := .reading
  consumer := .reading
  written := []
  consumed := []
  overrun := none

theorem init_start (b : Nat) : (system b).init start :=
  ⟨⟨_, rfl⟩, ⟨_, rfl⟩, rfl, rfl, rfl, rfl, rfl, rfl⟩

/-- The first `n` slots are written. -/
theorem exists_filled {n : Nat} (hn : n ≤ b) (hroom : n ≤ bufSize) :
    ∃ s, (system b).ReachBy (FillFirst b) s ∧ s.Stocked n n 0 := by
  induction n with
  | zero =>
      exact ⟨start, .init (init_start b), rfl, create_inv _, create_inv _, rfl, rfl, rfl, rfl⟩
  | succ n ih =>
      obtain ⟨s, hreach, hs⟩ := ih (by omega) (by omega)
      obtain ⟨t, ht, hstocked⟩ := hs.fill (b := b) hn hroom
      exact ⟨t, .step hreach (Or.inl rfl) ht, hstocked⟩

/-- The first `n` items are written, and none is read. -/
theorem exists_produced {n : Nat} (hn : n ≤ b) (hb : b ≤ bufSize) (hroom : 4 * n ≤ bufSize) :
    ∃ s, (system b).ReachBy (FillFirst b) s ∧ s.Stocked b (b - n) (4 * n) := by
  induction n with
  | zero => exact exists_filled le_rfl hb
  | succ n ih =>
      obtain ⟨s, hreach, hs⟩ := ih (by omega) (by omega)
      rw [show b - n = b - (n + 1) + 1 by omega] at hs
      obtain ⟨t, u, ht, hi, hu, hstocked⟩ := hs.produce (b := b) hroom fun _ => 0
      exact ⟨u, .step (.step hreach (Or.inr hs.i_eq) ht) (Or.inr hi) hu, hstocked⟩

/-- With more than 256 slots a write runs over the end of a fifo: that of the item
257, or that of the slot 1025. -/
theorem exists_overrun (hb : 256 < b) :
    ∃ s, (system b).ReachBy (FillFirst b) s ∧ s.overrun ≠ none := by
  by_cases hslots : b ≤ bufSize
  · obtain ⟨s, hreach, hs⟩ := exists_produced (n := 256) hb.le hslots (by decide)
    rw [show b - 256 = b - 257 + 1 by omega] at hs
    obtain ⟨t, u, ht, hi, hu, hover⟩ := hs.produce_full (b := b) (by decide) fun _ => 0
    exact ⟨u, .step (.step hreach (Or.inr hs.i_eq) ht) (Or.inr hi) hu, hover⟩
  · obtain ⟨s, hreach, hs⟩ := exists_filled (b := b) (n := bufSize) (by omega) le_rfl
    obtain ⟨t, ht, hover⟩ := hs.fill_full (b := b) (by omega) rfl
    exact ⟨t, .step hreach (Or.inl rfl) ht, hover⟩

/-- Every run is lossless exactly for up to 256 slots, whether the producer and
the consumer start after the fill or before its end. -/
theorem lossless_iff (b : Nat) :
    ((∀ s, (system b).Reach s → s.Lossless b) ↔ b ≤ 256) ∧
    ((∀ s, (system b).ReachBy (FillFirst b) s → s.Lossless b) ↔ b ≤ 256) := by
  have hfew : b ≤ 256 → ∀ s, (system b).Reach s → s.Lossless b :=
    fun hb s hs => (conserved_of_reach hb hs).lossless
  have hmany : (∀ s, (system b).ReachBy (FillFirst b) s → s.Lossless b) → b ≤ 256 := by
    intro hall
    by_contra hb
    obtain ⟨s, hreach, hover⟩ := exists_overrun (Nat.lt_of_not_le hb)
    exact hover (hall s hreach).inside
  exact ⟨⟨fun hall => hmany fun s hs => hall s hs.reach, hfew⟩,
    ⟨hmany, fun hb s hs => hfew hb s hs.reach⟩⟩

/-- 257 slots, all of them taken before an item is read. -/
theorem not_lossless_many : ¬∀ s, (system 257).Reach s → s.Lossless 257 := by
  intro hall
  obtain ⟨s, hreach, hover⟩ := exists_overrun (b := 257) (by decide)
  exact hover (hall s hreach.reach).inside

end ProdCon

end TPE
