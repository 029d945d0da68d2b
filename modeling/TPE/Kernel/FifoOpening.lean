import TPE.Kernel.Descriptors
import TPE.Kernel.FifoDescriptors

/-!
# The descriptor that an open returns

`sys_fifo_op` puts what `fifo_open` returns through `fifo_to_fds`, be it a key or an error, so the
error of a full table becomes the descriptor `STDIN`.

The table has 128 slots, and a process has bits for 64 descriptors.  `fifo_open` does not look at
what `set_file_open` returns, so a fifo in one of the upper slots is open and nobody may use it.
-/

namespace TPE

open Function

namespace Kernel

/-! ## The call -/

/-- What `fifo_open` returns. -/
def fifoOpenKey (k : Kernel) (name : CString) : Int :=
  match k.fifoSearch name with
  | .found i => i
  | .closed i => i
  | .full => maxOpenError

/-- `sys_fifo_op` -/
def sysFifoOp (k : Kernel) (name : CString) : Option (BitVec 64 × Kernel) :=
  (k.fifoOpen name).map fun (key, k) => ((fifoToFds key).setWidth 64, k)

/-- `sys_read` and `sys_write` report an error and do not touch a stream. -/
def Refuses (k : Kernel) (fds : BitVec 64) : Prop :=
  ∀ bytes, (∃ v, (k.sysReadCall fds bytes).outcome = .returns v ∧ IsError v) ∧
    ∃ v, (k.sysWriteCall fds bytes).outcome = .returns v ∧ IsError v

/-- The calls go on with a fifo.  A length that is not positive as an `int` has nothing to
transfer. -/
structure Serves (k : Kernel) (fds : BitVec 64) (key : Int) : Prop where
  read : ∀ bytes, (k.sysReadCall fds bytes).outcome =
    if 0 < (bytes.setWidth 32).toInt then .fifo key else .returns 0
  write : ∀ bytes, (k.sysWriteCall fds bytes).outcome =
    if 0 < (bytes.setWidth 32).toInt then .fifo key else .returns 0
  close : (k.sysFifoClCall fds).outcome = .fifo key

/-! ## What happens later -/

/-- What can happen after a call. -/
inductive LaterAction where
  /-- A process is dispatched, or it opens or closes a fifo. -/
  | fifo (a : FdAction)
  | sysRead (fds : BitVec 64) (buf : Addr) (bytes : BitVec 64)
  | sysWrite (fds : BitVec 64) (source : Nat → UInt8) (length : BitVec 64)
  | status (call : StatusCall) (q : Addr)
  | create (rip : Nat) (name : CString)
  | destroy (q : Addr)

/-- Any number of processes from a given state on, as long as the process at `p` lives. -/
def laterSystem (p : Addr) (start : FdRun) : System FdRun LaterAction where
  init s := s = start
  next
    | s, .fifo a => fdSystem.next s a
    | s, .sysRead fds buf bytes =>
        if s.opening s.k.getCurrentProcess = none then
          match (s.k.sysReadCall fds bytes).outcome with
          | .fifo key =>
              (s.k.createReadRequest key buf (bytes.setWidth 32).toInt).bind fun (r, k) =>
                (k.readSection key r).map fun (_, k) => { s with k }
          | _ => some s
        else none
    | s, .sysWrite fds source length =>
        if s.opening s.k.getCurrentProcess = none then
          match (s.k.sysWriteCall fds length).outcome with
          | .fifo key =>
              (s.k.writeSection key source (length.setWidth 32).toInt).map fun (_, k) => { s with k }
          | _ => some s
        else none
    | s, .status call q => some { s with k := s.k.applyStatus call q }
    | s, .create rip name =>
        (s.k.createProcess rip name).bind fun (q, k) => if q = p then none else some { s with k }
    | s, .destroy q => if q = p then none else some { s with k := s.k.destroyProcess q }

/-- What `fifo_open` has returned to the process at `p` is used, whenever `p` runs again after
its call: an error gives a descriptor that is refused, and a key gives one that serves the fifo
while it is open. -/
def HonestOpen (p : Addr) (key : Int) (start : FdRun) : Prop :=
  ∀ s, (laterSystem p start).Reach s → s.opening p = none → s.k.getCurrentProcess = p →
    (key < 0 → s.k.Refuses ((fifoToFds key).setWidth 64)) ∧
    (0 ≤ key → (s.k.openFifos key).state = .opened →
      s.k.Serves ((fifoToFds key).setWidth 64) key)

/-- One of the slots that have a bit is closed or has the name. -/
def BitSlot (k : Kernel) (name : CString) : Prop :=
  ∃ i : Nat, i < maxFds ∧ ((k.openFifos i).state ≠ .opened ∨ name.strcmp (k.openFifos i).name = 0)

variable {k k' : Kernel} {p q r : Addr} {key n : Int} {name : CString}

/-! ## The bits stay -/

theorem processes_tryRead {b : Bool} (h : k.tryRead r = some (b, k')) :
    k'.processes = k.processes := by
  unfold tryRead at h
  simp only at h
  split at h
  next =>
    split at h
    next =>
      cases h
      rfl
    next => cases h
  next =>
    cases h
    rfl

theorem openFds_sendToReaders {fuel : Nat} (h : k.sendToReaders fuel q = some k') (p : Addr) :
    (k'.processes p).openFds = (k.processes p).openFds := by
  induction fuel generalizing k with
  | zero => cases h
  | succ fuel ih =>
      rw [sendToReaders] at h
      split at h
      next =>
        cases h
        rfl
      next =>
        obtain ⟨⟨served, k₁⟩, htry, h⟩ := Option.bind_eq_some_iff.mp h
        have hprocs := processes_tryRead htry
        cases served with
        | true =>
            obtain ⟨⟨r, k₂⟩, hd, h⟩ := Option.bind_eq_some_iff.mp h
            obtain ⟨pages, queues, rfl⟩ := dequeue_eq hd
            rw [ih h, Procs.openFds_unblockProcess, hprocs]
        | false =>
            cases h
            rw [hprocs]

theorem openFds_writeSection {source : Nat → UInt8} {bytes : Int}
    (h : k.writeSection key source bytes = some (n, k')) (p : Addr) :
    (k'.processes p).openFds = (k.processes p).openFds := by
  unfold writeSection at h
  split at h
  next =>
    obtain ⟨k₁, hsend, he⟩ := Option.map_eq_some_iff.mp h
    cases he
    exact openFds_sendToReaders hsend p
  next => cases h

theorem processes_readSection {b : Bool} (h : k.readSection key r = some (b, k')) :
    k'.processes = k.processes := by
  obtain ⟨⟨couldRead, k₁⟩, hattempt, hrest⟩ := Option.bind_eq_some_iff.mp h
  have hfirst : k₁.processes = k.processes := by
    split at hattempt
    next => exact processes_tryRead hattempt
    next =>
      cases hattempt
      rfl
  cases couldRead with
  | true =>
      cases hrest
      exact hfirst
  | false =>
      obtain ⟨k₂, henq, he⟩ := Option.map_eq_some_iff.mp hrest
      obtain ⟨pages, queues, rfl⟩ := enqueue_eq henq
      cases he
      exact hfirst

theorem processes_createReadRequest {buf : Addr} {bytes : Int}
    (h : k.createReadRequest key buf bytes = some (r, k')) : k'.processes = k.processes := by
  obtain ⟨⟨a, k₁⟩, hget, he⟩ := Option.map_eq_some_iff.mp h
  obtain ⟨pages, -, rfl⟩ := getPage_eq_some hget
  cases he
  rfl

theorem openFds_freeDataPagesFrom (rounds i : Nat) (k : Kernel) (p : Addr) :
    ((freeDataPagesFrom q rounds i k).processes p).openFds = (k.processes p).openFds := by
  induction rounds generalizing i k with
  | zero => rfl
  | succ rounds ih =>
      rw [freeDataPagesFrom]
      split
      · split
        · rw [ih]
          by_cases hp : p = q
          · subst hp
            simp [writeProcess, storePage]
          · simp [writeProcess, storePage, hp]
        · exact ih _ _
      · rfl

theorem openFds_mayUnblock {procs : Procs} (h : k.processes.MayUnblock procs) (p : Addr) :
    (procs p).openFds = (k.processes p).openFds := by
  rcases h p with hp | ⟨-, hp⟩
  · rw [hp]
  · rw [hp]

theorem openFds_destroyProcess (k : Kernel) (q p : Addr) :
    ((k.destroyProcess q).processes p).openFds = (k.processes p).openFds := by
  by_cases hq : q ≠ null
  · obtain ⟨fg, procs, hs, he⟩ := destroyProcess_eq (k := k) hq rfl
    rw [he]
    exact (openFds_mayUnblock hs p).trans (openFds_freeDataPagesFrom maxDataPages 0 _ p)
  · rw [destroyProcess, if_neg hq]

theorem openFds_applyStatus (k : Kernel) (call : StatusCall) (q p : Addr) :
    ((k.applyStatus call q).processes p).openFds = (k.processes p).openFds := by
  obtain ⟨st, he, -⟩ := call.apply_eq k.processes q
  rw [applyStatus, he]
  show (k.processes.setSt q st p).openFds = _
  by_cases hp : p = q
  · subst hp
    simp [Procs.setSt]
  · rw [Procs.setSt_of_ne hp]

theorem fileIsOpen_of_openFds {fd : Int}
    (h : ∀ p, (k'.processes p).openFds = (k.processes p).openFds) (hbit : k.fileIsOpen p fd) :
    k'.fileIsOpen p fd :=
  (fileIsOpen_congr h).mpr hbit

variable {s t start : FdRun} {i : Nat}

/-- Up to the unlock, a call leaves the running process with the bit or with the slot whose bit it
has to set. -/
inductive OpenLocked (s : FdRun) (name : CString) (t : FdRun) : Prop where
  | found (i : Nat) (scan : s.k.fifoSearch name = .found i)
      (k_eq : t.k = s.k.setFileOpen s.k.getCurrentProcess i) (opening : t.opening = s.opening)
  | closed (i : Nat) (scan : s.k.fifoSearch name = .closed i)
      (opened : (t.k.openFifos i).state = .opened) (processes : t.k.processes = s.k.processes)
      (current : t.k.getCurrentProcess = s.k.getCurrentProcess)
      (opening : t.opening = update s.opening s.k.getCurrentProcess (some i))
  | full (scan : s.k.fifoSearch name = .full) (k_eq : t.k = s.k) (opening : t.opening = s.opening)

theorem openLocked_of_openName (hn : fdSystem.next s (.openName name) = some t) :
    s.opening s.k.getCurrentProcess = none ∧ OpenLocked s name t := by
  simp only [fdSystem] at hn
  split at hn
  next hidle =>
    refine ⟨hidle, ?_⟩
    obtain ⟨⟨slot, k⟩, hopen, ht⟩ := Option.map_eq_some_iff.mp hn
    cases hs : s.k.fifoSearch name with
    | full =>
        simp only [hs] at ht
        subst ht
        exact .full hs (fifoOpenLocked_full hs hopen) rfl
    | found i =>
        simp only [hs] at ht
        subst ht
        exact .found i hs (fifoOpenLocked_found hs hopen) rfl
    | closed i =>
        simp only [hs] at ht
        subst ht
        obtain ⟨hslot, hcurrent, hprocs, hcreated, -⟩ := fifoOpenLocked_closed hs hopen
        exact .closed i hs hcreated hprocs hcurrent (by rw [hslot])
  next => cases hn

/-- A bit stays set. -/
theorem fdSystem_bit {a : FdAction} {fd : Int} (hn : fdSystem.next s a = some t)
    (hbit : s.k.fileIsOpen p fd) : t.k.fileIsOpen p fd := by
  cases a with
  | dispatch node =>
      simp only [fdSystem] at hn
      split at hn
      next =>
        cases hn
        exact hbit
      next => cases hn
  | openName name =>
      cases (openLocked_of_openName hn).2 with
      | found i _ hk _ =>
          rw [hk]
          exact fileIsOpen_setFileOpen.mpr (Or.inl hbit)
      | closed i _ _ hprocs _ _ => exact fileIsOpen_of_openFds (fun p => by rw [hprocs]) hbit
      | full _ hk _ => rwa [hk]
  | setOpen =>
      obtain ⟨i, -, rfl⟩ := Option.map_eq_some_iff.mp hn
      exact fileIsOpen_setFileOpen.mpr (Or.inl hbit)
  | close key =>
      simp only [fdSystem] at hn
      split at hn
      next =>
        obtain ⟨⟨r, k⟩, hclose, rfl⟩ := Option.map_eq_some_iff.mp hn
        exact fileIsOpen_of_openFds (fifoClose_eq hclose).1 hbit
      next => cases hn

/-- A slot whose bit a process has to set is kept, or the bit is set. -/
theorem fdSystem_opening {a : FdAction} (hn : fdSystem.next s a = some t)
    (hopening : s.opening p = some i) (hi : i < maxFds) :
    t.opening p = some i ∨ t.k.fileIsOpen p i := by
  have hfds : maxFds = 64 := rfl
  cases a with
  | dispatch node =>
      simp only [fdSystem] at hn
      split at hn
      next =>
        cases hn
        exact Or.inl hopening
      next => cases hn
  | openName name =>
      obtain ⟨hidle, hopened⟩ := openLocked_of_openName hn
      cases hopened with
      | found j _ _ ho => exact Or.inl (ho ▸ hopening)
      | full _ _ ho => exact Or.inl (ho ▸ hopening)
      | closed j _ _ _ _ ho =>
          have hne : p ≠ s.k.getCurrentProcess := by
            rintro rfl
            rw [hidle] at hopening
            cases hopening
          rw [ho, update_of_ne hne]
          exact Or.inl hopening
  | setOpen =>
      obtain ⟨j, hj, rfl⟩ := Option.map_eq_some_iff.mp hn
      by_cases hp : p = s.k.getCurrentProcess
      · subst hp
        obtain rfl : j = i := Option.some.inj (hj.symm.trans hopening)
        exact Or.inr (fileIsOpen_setFileOpen.mpr (Or.inr ⟨rfl, by omega, by omega, rfl⟩))
      · left
        rw [← hopening]
        exact update_of_ne hp _ _
  | close key =>
      simp only [fdSystem] at hn
      split at hn
      next =>
        obtain ⟨⟨r, k⟩, hclose, rfl⟩ := Option.map_eq_some_iff.mp hn
        exact Or.inl hopening
      next => cases hn

/-- What the other steps leave alone. -/
theorem laterSystem_next {a : LaterAction} (hn : (laterSystem p start).next s a = some t) :
    (∃ b, fdSystem.next s b = some t) ∨
      t.opening = s.opening ∧ (t.k.processes p).openFds = (s.k.processes p).openFds := by
  cases a with
  | fifo b => exact Or.inl ⟨b, hn⟩
  | sysRead fds buf bytes =>
      right
      simp only [laterSystem] at hn
      split at hn
      next =>
        split at hn
        next =>
          obtain ⟨⟨r, k₁⟩, hcreate, hn⟩ := Option.bind_eq_some_iff.mp hn
          obtain ⟨⟨b, k₂⟩, hread, he⟩ := Option.map_eq_some_iff.mp hn
          cases he
          refine ⟨rfl, ?_⟩
          rw [processes_readSection hread, processes_createReadRequest hcreate]
        next =>
          cases hn
          exact ⟨rfl, rfl⟩
      next => cases hn
  | sysWrite fds source length =>
      right
      simp only [laterSystem] at hn
      split at hn
      next =>
        split at hn
        next =>
          obtain ⟨⟨n, k₁⟩, hwrite, he⟩ := Option.map_eq_some_iff.mp hn
          cases he
          exact ⟨rfl, openFds_writeSection hwrite p⟩
        next =>
          cases hn
          exact ⟨rfl, rfl⟩
      next => cases hn
  | status call q =>
      cases hn
      exact Or.inr ⟨rfl, openFds_applyStatus s.k call q p⟩
  | create rip name =>
      obtain ⟨⟨q, k₁⟩, hcreate, hn⟩ := Option.bind_eq_some_iff.mp hn
      simp only at hn
      split at hn
      next => cases hn
      next hq =>
        cases hn
        refine Or.inr ⟨rfl, ?_⟩
        rw [(createProcess_spec hcreate).others p (Ne.symm hq)]
  | destroy q =>
      simp only [laterSystem] at hn
      split at hn
      next => cases hn
      next =>
        cases hn
        exact Or.inr ⟨rfl, openFds_destroyProcess s.k q p⟩

/-- Once the call has returned its key, the process has the bit. -/
theorem bit_later (hi : i < maxFds) (hstart : start.opening p = some i ∨ start.k.fileIsOpen p i)
    (h : (laterSystem p start).Reach s) : s.opening p = some i ∨ s.k.fileIsOpen p i := by
  refine h.invariant (I := fun s => s.opening p = some i ∨ s.k.fileIsOpen p i) ?_ ?_
  · rintro s rfl
    exact hstart
  · intro s a t hs _ hn
    rcases laterSystem_next hn with ⟨b, hb⟩ | ⟨hopening, hfds⟩
    · rcases hs with ho | hbit
      · exact fdSystem_opening hb ho hi
      · exact Or.inr (fdSystem_bit hb hbit)
    · rw [hopening]
      refine hs.imp_right fun hbit => ?_
      rw [fileIsOpen, hfds]
      exact hbit

/-! ## Which opens are honest -/

/-- The calls work on a fifo that is open for the running process. -/
theorem serves_of_isOpen (h0 : 0 ≤ key) (h : k.fifoIsOpen key) :
    k.Serves ((fifoToFds key).setWidth 64) key := by
  have hopen : k.OpenFds ((fifoToFds key).setWidth 64) key := ⟨h0, h.1, rfl, h⟩
  have hle := hopen.fileDescriptors_le
  have hkey := hopen.fdsToFifo_eq
  have hstd : ∀ c : BitVec 64, c < fileDescriptors → (fifoToFds key).setWidth 64 ≠ c := by
    rintro c hc rfl
    exact absurd hle (BitVec.not_le.mpr hc)
  refine ⟨fun bytes => ?_, fun bytes => ?_, ?_⟩
  · rw [sysReadCall, if_neg (hstd _ (by decide)), if_pos hle, hkey]
    simp only [fifoReadCall, h, true_and]
    exact toUnsigned_ite 32 0
  · rw [sysWriteCall, if_neg (hstd _ (by decide)), if_neg (hstd _ (by decide)), if_pos hle, hkey]
    simp only [fifoWriteCall, h, true_and]
    by_cases hpos : 0 < (bytes.setWidth 32).toInt
    · rw [if_pos hpos, if_pos hpos]
      rfl
    · rw [if_neg hpos, if_neg hpos, if_pos (Int.not_lt.mp hpos)]
      rfl
  · rw [sysFifoClCall, hkey]
    simp only [fifoCloseCall, if_pos h]
    rfl

/-- The error of a full table is the descriptor `STDIN`. -/
theorem not_refuses_maxOpenError : ¬k.Refuses ((fifoToFds maxOpenError).setWidth 64) := by
  intro h
  obtain ⟨⟨v, hread, -⟩, -⟩ := h 0
  have hstream : k.sysReadCall ((fifoToFds maxOpenError).setWidth 64) 0 = ⟨[], .stream⟩ :=
    if_pos (by decide)
  rw [hstream] at hread
  cases hread

/-- Without a bit the fifo cannot be closed. -/
theorem not_serves (h0 : 0 ≤ key) (hlt : key < maxFifos) (h : ¬k.fifoIsOpen key) :
    ¬k.Serves ((fifoToFds key).setWidth 64) key := by
  intro hs
  have hclose := hs.close
  rw [sysFifoClCall, fdsToFifo_fifoToFds h0 hlt] at hclose
  simp only [fifoCloseCall, if_neg h] at hclose
  cases hclose

/-- The key is that of a slot with a bit exactly if there is such a slot to stop at. -/
theorem bitSlot_iff : k.BitSlot name ↔ 0 ≤ k.fifoOpenKey name ∧ k.fifoOpenKey name < maxFds := by
  have hstop := @scanFrom_stops_iff (fun i => (k.openFifos i).state = .opened)
    (fun i => name.strcmp (k.openFifos i).name = 0) maxFds maxFifos 0 (by decide)
  simp only [Nat.zero_le, true_and, decide_eq_false_iff_not, decide_eq_true_eq] at hstop
  rw [BitSlot, ← hstop, fifoOpenKey, fifoSearch]
  split
  next i hs =>
    rw [hs]
    simp [Scan.stopsBelow]
  next i hs =>
    rw [hs]
    simp [Scan.stopsBelow]
  next hs =>
    rw [hs]
    simp [Scan.stopsBelow]

/-- `fifo_open` returns the key. -/
theorem fifoOpen_key (h : k.fifoOpen name = some (n, k')) : n = k.fifoOpenKey name := by
  unfold fifoOpen at h
  unfold fifoOpenKey
  split at h
  next i hs =>
    rw [hs]
    cases h
    rfl
  next hs =>
    rw [hs]
    cases h
    rfl
  next i hs =>
    rw [hs]
    obtain ⟨⟨lock, k₁⟩, -, h⟩ := Option.bind_eq_some_iff.mp h
    obtain ⟨⟨q, k₂⟩, -, he⟩ := Option.map_eq_some_iff.mp h
    cases he
    rfl

/-- What `sys_fifo_op` returns. -/
theorem sysFifoOp_eq {fds : BitVec 64} (h : k.sysFifoOp name = some (fds, k')) :
    fds = (fifoToFds (k.fifoOpenKey name)).setWidth 64 := by
  obtain ⟨⟨key, k₁⟩, hopen, he⟩ := Option.map_eq_some_iff.mp h
  cases he
  rw [fifoOpen_key hopen]

/-- The key of a fifo that serves has a bit. -/
theorem HonestOpen.lt {u : FdRun} (h : HonestOpen p key start)
    (hu : (laterSystem p start).Reach u) (ho : u.opening p = none)
    (hcurrent : u.k.getCurrentProcess = p) (hkey : key = i) (hi : i < maxFifos)
    (hstate : (u.k.openFifos i).state = .opened) : key < maxFds := by
  subst hkey
  by_contra hge
  have hclosed : ¬u.k.fifoIsOpen i := fun hopen => hge hopen.2.2.1
  exact not_serves (Int.natCast_nonneg i) (by exact_mod_cast hi) hclosed
    ((h u hu ho hcurrent).2 (Int.natCast_nonneg i) hstate)

/-- A call that does not find the table full returns, and the fifo of its key is open then. -/
theorem OpenLocked.exists_returned (h : OpenLocked s name t)
    (hidle : s.opening s.k.getCurrentProcess = none) (hfull : s.k.fifoSearch name ≠ .full) :
    ∃ i u, s.k.fifoOpenKey name = (i : Nat) ∧ i < maxFifos ∧
      (laterSystem s.k.getCurrentProcess t).Reach u ∧ u.opening s.k.getCurrentProcess = none ∧
      u.k.getCurrentProcess = s.k.getCurrentProcess ∧ (u.k.openFifos i).state = .opened := by
  cases h with
  | full hscan hk ho => exact absurd hscan hfull
  | found i hscan hk ho =>
      obtain ⟨hlt, hstate⟩ := scanFrom_found hscan
      obtain ⟨procs, he⟩ := setFileOpen_eq s.k s.k.getCurrentProcess i
      refine ⟨i, t, by rw [fifoOpenKey, hscan], ?_, .start rfl, ho ▸ hidle, ?_, ?_⟩
      · rwa [Nat.zero_add] at hlt
      · rw [hk, he]
        rfl
      · rw [hk, openFifos_setFileOpen]
        exact of_decide_eq_true hstate
  | closed i hscan hstate hprocs hcurrent ho =>
      -- the call sets its bit and returns
      have hlt := (scanFrom_closed hscan).1
      have hslot : t.opening s.k.getCurrentProcess = some i := by rw [ho, update_self]
      obtain ⟨procs, he⟩ := setFileOpen_eq t.k s.k.getCurrentProcess i
      let u : FdRun :=
        { t with
          k := t.k.setFileOpen s.k.getCurrentProcess i
          opening := update t.opening s.k.getCurrentProcess none }
      have hset : (laterSystem s.k.getCurrentProcess t).next t (.fifo .setOpen) = some u := by
        simp only [laterSystem, fdSystem, hcurrent, hslot, Option.map_some, u]
      refine ⟨i, u, by rw [fifoOpenKey, hscan], ?_, (System.Reach.start rfl).next hset,
        update_self _ _ _, ?_, ?_⟩
      · rwa [Nat.zero_add] at hlt
      · show (t.k.setFileOpen s.k.getCurrentProcess i).getCurrentProcess = _
        rw [he]
        exact hcurrent
      · show ((t.k.setFileOpen s.k.getCurrentProcess i).openFifos i).state = _
        rw [openFifos_setFileOpen]
        exact hstate

/-- The caller has the bit of its key, or it has still to set it. -/
theorem OpenLocked.bit_start (h : OpenLocked s name t) (hkey : s.k.fifoOpenKey name = (i : Nat))
    (hi : i < maxFds) : t.opening s.k.getCurrentProcess = some i ∨
      t.k.fileIsOpen s.k.getCurrentProcess i := by
  have hlt : (i : Int) < maxFds := by exact_mod_cast hi
  cases h with
  | full hscan hk ho =>
      rw [fifoOpenKey, hscan] at hkey
      cases hkey
  | found j hscan hk ho =>
      rw [fifoOpenKey, hscan] at hkey
      obtain rfl : j = i := Int.ofNat_inj.mp hkey
      rw [hk]
      exact Or.inr (fileIsOpen_setFileOpen.mpr (Or.inr ⟨rfl, hlt, hlt, rfl⟩))
  | closed j hscan _ _ _ ho =>
      rw [fifoOpenKey, hscan] at hkey
      obtain rfl : j = i := Int.ofNat_inj.mp hkey
      rw [ho, update_self]
      exact Or.inl rfl

/-- An open is honest exactly if one of the slots that have a bit is closed or has the name. -/
theorem honestOpen_iff (hn : fdSystem.next s (.openName name) = some t) :
    HonestOpen s.k.getCurrentProcess (s.k.fifoOpenKey name) t ↔ s.k.BitSlot name := by
  obtain ⟨hidle, hopened⟩ := openLocked_of_openName hn
  rw [bitSlot_iff]
  constructor
  · intro hhonest
    by_cases hfull : s.k.fifoSearch name = .full
    · have hkey : s.k.fifoOpenKey name = maxOpenError := by rw [fifoOpenKey, hfull]
      cases hopened with
      | full hscan hk ho =>
          have hrefuses := (hhonest t (.start rfl) (ho ▸ hidle) (by rw [hk])).1
            (by rw [hkey]; decide)
          exact absurd (hkey ▸ hrefuses) not_refuses_maxOpenError
      | found i hscan => exact absurd (hscan.symm.trans hfull) (by simp)
      | closed i hscan => exact absurd (hscan.symm.trans hfull) (by simp)
    · obtain ⟨i, u, hkey, hi, hu, hreturned, hcurrent, hstate⟩ :=
        hopened.exists_returned hidle hfull
      exact ⟨hkey ▸ Int.natCast_nonneg i, hhonest.lt hu hreturned hcurrent hkey hi hstate⟩
  · rintro ⟨h0, hlt⟩ u hu hreturned hcurrent
    refine ⟨fun hneg => absurd h0 (Int.not_le.mpr hneg), fun _ hstate => ?_⟩
    have hfds : maxFds = 64 := rfl
    have hfifos : maxFifos = 128 := rfl
    obtain ⟨i, hi⟩ := Int.eq_ofNat_of_zero_le h0
    rw [hi] at hlt hstate ⊢
    have hi' : i < maxFds := by omega
    rcases bit_later hi' (hopened.bit_start hi hi') hu with hset | hbit
    · rw [hreturned] at hset
      cases hset
    · exact serves_of_isOpen (Int.natCast_nonneg i) ⟨by omega, hstate, by rwa [hcurrent]⟩

theorem honestOpen_iff_created :
    HonestOpen fdStarted.k.getCurrentProcess (fdStarted.k.fifoOpenKey nameA) fdCreated ↔
      fdStarted.k.BitSlot nameA :=
  honestOpen_iff (Option.some_get next_fdStarted).symm

/-- Every slot has an open fifo with the empty name. -/
def fullTable : FdRun where
  k := { oneFifoOpen with openFifos := fun _ => ⟨.nil, .create fun _ => 0, .opened, 0, null⟩ }
  holders _ := []
  opening _ := none

/-- When the table is full, an open gives `STDIN`. -/
theorem fullTable_stdin :
    ¬∀ (s : FdRun) (name : CString) (t : FdRun), fdSystem.next s (.openName name) = some t →
      HonestOpen s.k.getCurrentProcess (s.k.fifoOpenKey name) t := by
  intro h
  have hscan : fullTable.k.fifoSearch nameA = .full := by decide +kernel
  have hnext : fdSystem.next fullTable (.openName nameA) = some fullTable := by
    simp only [fdSystem, fullTable, if_true, fifoOpenLocked] at hscan ⊢
    simp only [hscan, Option.map_some]
  have hkey : fullTable.k.fifoOpenKey nameA = maxOpenError := by rw [fifoOpenKey, hscan]
  have hrefuses := (h fullTable nameA fullTable hnext fullTable (.start rfl) rfl rfl).1
    (by rw [hkey]; decide)
  exact not_refuses_maxOpenError (hkey ▸ hrefuses)

end Kernel

end TPE
