import TPE.Library.Runs
import TPE.Kernel.NameTables

/-!
# Descriptors of fifos

Any number of processes open and close fifos.  A process may use a fifo when
its slot is open and the bit of the slot is set in the process's bit map.

`fifo_close` closes the slot and clears no bit, so a process that opened an
earlier fifo in the slot has access to a later one.  A bit also stands for two
slots: the shift takes the slot's number modulo 32.
-/

namespace TPE

open Function

/-! ## The bits -/

/-- Two descriptors share a bit exactly if they agree modulo 32. -/
theorem fdMask_and_eq_zero {a b : Int} : fdMask a &&& fdMask b = 0 ↔ a % 32 ≠ b % 32 := by
  have hbits : ∀ m n : Fin 32, ((1#32) <<< m.val).signExtend 64 &&&
      ((1#32) <<< n.val).signExtend 64 = 0 ↔ m ≠ n := by decide +kernel
  have ha : (a % 32).toNat < 32 := by omega
  have hb : (b % 32).toNat < 32 := by omega
  have hpair := hbits ⟨_, ha⟩ ⟨_, hb⟩
  rw [fdMask, fdMask, hpair, ne_eq, Fin.mk.injEq]
  omega

namespace Kernel

variable {k k' : Kernel} {p q : Addr} {fd g : Int} {name : CString}

/-- What `set_file_open` adds to the descriptors. -/
theorem fileIsOpen_setFileOpen :
    (k.setFileOpen p fd).fileIsOpen q g ↔
      k.fileIsOpen q g ∨ q = p ∧ fd < maxFds ∧ g < maxFds ∧ fd % 32 = g % 32 := by
  unfold setFileOpen
  split
  next hge =>
    constructor
    · exact Or.inl
    · rintro (h | ⟨-, hlt, -⟩)
      · exact h
      · omega
  next hlt =>
    by_cases hq : q = p
    · subst hq
      have hor : ∀ x y m : BitVec 64, (x ||| y) &&& m ≠ 0 ↔ x &&& m ≠ 0 ∨ y &&& m ≠ 0 := by
        intro x y m
        rw [BitVec.and_comm, BitVec.and_or_distrib_left, BitVec.and_comm m x, BitVec.and_comm m y,
          ne_eq, ne_eq, ne_eq, ← not_and_or]
        exact not_congr BitVec.or_eq_zero_iff
      simp only [fileIsOpen, writeProcess, update_self, hor, ne_eq, fdMask_and_eq_zero, not_not,
        true_and]
      constructor
      · rintro ⟨hg, h | h⟩
        · exact Or.inl ⟨hg, h⟩
        · exact Or.inr ⟨by omega, hg, h⟩
      · rintro (⟨hg, h⟩ | ⟨-, hg, h⟩)
        · exact ⟨hg, Or.inl h⟩
        · exact ⟨hg, Or.inr h⟩
    · simp only [fileIsOpen, writeProcess, update_of_ne hq]
      simp [hq]

theorem fileIsOpen_congr (h : ∀ p, (k'.processes p).openFds = (k.processes p).openFds) :
    k'.fileIsOpen p fd ↔ k.fileIsOpen p fd := by
  rw [fileIsOpen, fileIsOpen, h]

/-! ## What opening and closing do -/

/-- `fifo_open` up to where it unlocks the array, with the slot whose bit it
sets behind the unlock. -/
def fifoOpenLocked (k : Kernel) (name : CString) : Option (Option Nat × Kernel) :=
  match k.fifoSearch name with
  | .found i => some (none, k.setFileOpen k.getCurrentProcess i)
  | .full => some (none, k)
  | .closed i =>
      (k.mutexOpen name).bind fun (lock, k) =>
        k.createQueue.map fun (q, k) =>
          (some i, k.writeFifo i fun _ =>
            { name
              state := .opened
              cBuffer := .create fun _ => 0
              fifoMutexKey := lock
              readQueue := q })

/-- The two parts of `fifo_open`. -/
theorem fifoOpen_eq : (k.fifoOpen name).map Prod.snd =
    (k.fifoOpenLocked name).map fun (slot, k) =>
      match slot with
      | some i => k.setFileOpen k.getCurrentProcess i
      | none => k := by
  unfold fifoOpen fifoOpenLocked
  cases k.fifoSearch name with
  | found i => rfl
  | full => rfl
  | closed i =>
      simp only [Option.map_bind, Function.comp_def]
      cases k.mutexOpen name with
      | none => rfl
      | some m => simp [Function.comp_def]

/-- A fifo that is found open is left as it is. -/
theorem fifoOpenLocked_found {slot : Option Nat} {i : Nat} (hs : k.fifoSearch name = .found i)
    (h : k.fifoOpenLocked name = some (slot, k')) : k' = k.setFileOpen k.getCurrentProcess i := by
  simp only [fifoOpenLocked, hs] at h
  cases h
  rfl

/-- A new fifo is created in a closed slot, and its bit is still to be set. -/
theorem fifoOpenLocked_closed {slot : Option Nat} {i : Nat} (hs : k.fifoSearch name = .closed i)
    (h : k.fifoOpenLocked name = some (slot, k')) :
    slot = some i ∧ k'.getCurrentProcess = k.getCurrentProcess ∧
    k'.processes = k.processes ∧ (k'.openFifos i).state = .opened ∧
    ∀ j : Int, j ≠ i → k'.openFifos j = k.openFifos j := by
  simp only [fifoOpenLocked, hs] at h
  obtain ⟨⟨lock, k₁⟩, hlock, h⟩ := Option.bind_eq_some_iff.mp h
  obtain ⟨⟨q, k₂⟩, hq, he⟩ := Option.map_eq_some_iff.mp h
  obtain ⟨pages, queues, mutexes, rfl⟩ := mutexOpen_eq hlock
  obtain ⟨pages', -, rfl⟩ := createQueue_spec hq
  cases he
  refine ⟨rfl, rfl, rfl, ?_, fun j hj => ?_⟩
  · simp [writeFifo]
  · simp [writeFifo, hj]

theorem fifoOpenLocked_full {slot : Option Nat} (hs : k.fifoSearch name = .full)
    (h : k.fifoOpenLocked name = some (slot, k')) : k' = k := by
  simp only [fifoOpenLocked, hs] at h
  cases h
  rfl

theorem releaseReaders_eq {fuel : Nat} {q : Addr} (h : k.releaseReaders fuel q = some k') :
    (∀ p, (k'.processes p).openFds = (k.processes p).openFds) ∧ k'.openFifos = k.openFifos := by
  induction fuel generalizing k with
  | zero => cases h
  | succ fuel ih =>
      rw [releaseReaders] at h
      split at h
      next =>
        cases h
        exact ⟨fun _ => rfl, rfl⟩
      next =>
        obtain ⟨⟨req, k₁⟩, hd, h⟩ := Option.bind_eq_some_iff.mp h
        obtain ⟨pages, queues, rfl⟩ := dequeue_eq hd
        obtain ⟨hfds, hfifos⟩ := ih h
        refine ⟨fun p => (hfds p).trans ?_, hfifos⟩
        exact Procs.openFds_unblockProcess _ _ _

/-- `fifo_close` closes the slot and leaves the bits of all processes alone. -/
theorem fifoClose_eq {key r : Int} (h : k.fifoClose key = some (r, k')) :
    (∀ p, (k'.processes p).openFds = (k.processes p).openFds) ∧
    ∀ j, (k'.openFifos j).state = .opened → (k.openFifos j).state = .opened := by
  unfold fifoClose at h
  split at h
  next =>
    obtain ⟨k₁, hr, h⟩ := Option.bind_eq_some_iff.mp h
    obtain ⟨k₂, hd, he⟩ := Option.map_eq_some_iff.mp h
    obtain ⟨hfds, hfifos⟩ := releaseReaders_eq hr
    obtain ⟨pages, queues, rfl⟩ := destroyQueue_eq hd
    cases he
    refine ⟨hfds, fun j hj => ?_⟩
    by_cases hjk : j = key
    · subst hjk
      simp [writeFifo] at hj
    · simp only [writeFifo, update_of_ne hjk] at hj
      rwa [hfifos] at hj
  next =>
    cases h
    exact ⟨fun _ => rfl, fun _ hj => hj⟩

/-! ## Runs -/

/-- The kernel, for each slot the processes that have called `fifo_open` for the
fifo that was last created in it, and for each process the slot whose bit its
`fifo_open` has still to set. -/
structure FdRun where
  k : Kernel
  holders : Int → List Addr
  opening : Addr → Option Nat

/-- What can happen in one step. -/
inductive FdAction where
  /-- The scheduler dispatches the process of a node. -/
  | dispatch (node : Addr)
  /-- The running process calls `fifo_open`, with any name, and unlocks the array. -/
  | openName (name : CString)
  /-- A `fifo_open` that has created a fifo sets the bit and returns. -/
  | setOpen
  /-- The running process calls `fifo_close`, with any key. -/
  | close (key : Int)

/-- Processes that open and close fifos.  Their bit maps start empty. -/
def fdSystem : System FdRun FdAction where
  init s := (∀ p, (s.k.processes p).openFds = 0) ∧ (∀ i, (s.k.openFifos i).state = .closed) ∧
    ∀ p, s.opening p = none
  next
    | s, .dispatch node =>
        if s.k.Dispatchable node then some { s with k := { s.k with current := node } } else none
    | s, .openName name =>
        let p := s.k.getCurrentProcess
        if s.opening p = none then
          (s.k.fifoOpenLocked name).map fun (slot, k) =>
            match s.k.fifoSearch name with
            | .found i => { s with k, holders := update s.holders i (p :: s.holders i) }
            | .closed i => ⟨k, update s.holders i [p], update s.opening p slot⟩
            | .full => { s with k }
        else none
    | s, .setOpen =>
        let p := s.k.getCurrentProcess
        (s.opening p).map fun (i : Nat) =>
          { s with k := s.k.setFileOpen p i, opening := update s.opening p none }
    | s, .close key =>
        if s.opening s.k.getCurrentProcess = none then
          (s.k.fifoClose key).map fun (_, k) => { s with k }
        else none

/-- Of the open fifos that share the bit of slot `i`, the running process has
opened those for which `P` holds. -/
def SharesOwn (s : FdRun) (i : Nat) (P : Int → Prop) : Prop :=
  ∀ j : Int, P j → i < maxFds → j < maxFds → (i : Int) % 32 = j % 32 →
    (s.k.openFifos j).state = .opened → s.k.getCurrentProcess ∈ s.holders j

/-- A new fifo is created in a slot whose bit no other process has, and a bit is
set only for a process that has opened all open fifos the bit stands for. -/
def Withdraws (s : FdRun) : FdAction → Prop
  | .openName name =>
      match s.k.fifoSearch name with
      | .found i => SharesOwn s i (· ≠ i)
      | .closed i => ∀ q, q ≠ s.k.getCurrentProcess → ¬s.k.fileIsOpen q i
      | .full => True
  | .setOpen => ∀ i, s.opening s.k.getCurrentProcess = some i → SharesOwn s i fun _ => True
  | _ => True

/-- Whichever process runs, it may use only the fifos it has opened itself. -/
def HoldersOnly (s : FdRun) : Prop :=
  ∀ p (key : Int), key < maxFifos → (s.k.openFifos key).state = .opened →
    s.k.fileIsOpen p key → p ∈ s.holders key

/-- Setting a bit keeps the descriptors right exactly if the process has opened
the open fifos the bit stands for. -/
theorem holdersOnly_setFileOpen {s t : FdRun} {i : Nat} {P : Int → Prop} (h : HoldersOnly s)
    (hk : t.k = s.k.setFileOpen s.k.getCurrentProcess i)
    (hown : ∀ j, ¬P j → s.k.getCurrentProcess ∈ t.holders j)
    (hold : ∀ j, P j → t.holders j = s.holders j)
    (hgrow : ∀ j p, p ∈ s.holders j → p ∈ t.holders j) :
    HoldersOnly t ↔ SharesOwn s i P := by
  have hfds : maxFds = 64 := rfl
  have hfifos : maxFifos = 128 := rfl
  constructor
  · intro hall j hj hi hlt hmod hopened
    rw [← hold j hj]
    apply hall s.k.getCurrentProcess j
    · omega
    · rw [hk, openFifos_setFileOpen]
      exact hopened
    · rw [hk]
      exact fileIsOpen_setFileOpen.mpr (Or.inr ⟨rfl, by omega, hlt, hmod⟩)
  · intro hshare p key hkey hopened hbit
    rw [hk, openFifos_setFileOpen] at hopened
    rw [hk] at hbit
    rcases fileIsOpen_setFileOpen.mp hbit with hbefore | ⟨rfl, hi, hlt, hmod⟩
    · exact hgrow key p (h p key hkey hopened hbefore)
    · by_cases hP : P key
      · rw [hold key hP]
        exact hshare key hP (by omega) hlt hmod hopened
      · exact hown key hP

namespace HoldersOnly

variable {s t : FdRun}

theorem of_init (h : fdSystem.init s) : HoldersOnly s := by
  intro p key _ hopen
  rw [h.2.1 key] at hopen
  cases hopen

/-- `fifo_open`, up to the unlock, keeps the descriptors right exactly if it meets
the guard. -/
theorem openName (h : HoldersOnly s) (hn : fdSystem.next s (.openName name) = some t) :
    HoldersOnly t ↔ Withdraws s (.openName name) := by
  simp only [fdSystem] at hn
  split at hn
  next =>
    obtain ⟨⟨slot, k⟩, hopen, ht⟩ := Option.map_eq_some_iff.mp hn
    cases hs : s.k.fifoSearch name with
    | full =>
        simp only [hs] at ht
        simp only [Withdraws, hs]
        subst ht
        rw [fifoOpenLocked_full hs hopen]
        exact iff_of_true h trivial
    | found i =>
        simp only [hs] at ht
        simp only [Withdraws, hs]
        subst ht
        refine holdersOnly_setFileOpen h (fifoOpenLocked_found hs hopen) ?_ ?_ ?_
        · intro j hj
          rw [not_not.mp hj]
          show _ ∈ update s.holders i _ _
          rw [update_self]
          exact List.mem_cons_self
        · intro j hj
          exact update_of_ne hj _ _
        · intro j p hp
          show p ∈ update s.holders i _ j
          by_cases hj : j = i
          · subst hj
            rw [update_self]
            exact List.mem_cons_of_mem _ hp
          · rwa [update_of_ne hj]
    | closed i =>
        simp only [hs] at ht
        simp only [Withdraws, hs]
        subst ht
        obtain ⟨-, -, hprocs, hcreated, hothers⟩ := fifoOpenLocked_closed hs hopen
        have hbits : ∀ p g, k.fileIsOpen p g ↔ s.k.fileIsOpen p g :=
          fun p g => fileIsOpen_congr fun q => by rw [hprocs]
        have hlt := (scanFrom_closed hs).1
        constructor
        · intro hall q hq hold
          have hm : q ∈ update s.holders (i : Int) [s.k.getCurrentProcess] i :=
            hall q i (by omega) hcreated ((hbits _ _).mpr hold)
          rw [update_self] at hm
          exact hq (List.mem_singleton.mp hm)
        · intro hclear p key hkey hopened hbit
          have hold := (hbits p key).mp hbit
          show p ∈ update s.holders (i : Int) _ key
          by_cases hki : key = i
          · subst hki
            rw [update_self]
            by_contra hp
            exact hclear p (fun he => hp (List.mem_singleton.mpr he)) hold
          · rw [update_of_ne hki]
            refine h p key hkey ?_ hold
            rw [← hothers key hki]
            exact hopened
  next => cases hn

/-- The end of a `fifo_open` that has created a fifo. -/
theorem setOpen (h : HoldersOnly s) (hn : fdSystem.next s .setOpen = some t) :
    HoldersOnly t ↔ Withdraws s .setOpen := by
  obtain ⟨i, hi, rfl⟩ := Option.map_eq_some_iff.mp hn
  have hset := holdersOnly_setFileOpen (i := i) (P := fun _ => True) h
    (t := { s with
      k := s.k.setFileOpen s.k.getCurrentProcess i
      opening := update s.opening s.k.getCurrentProcess none })
    rfl (fun j hj => absurd trivial hj) (fun _ _ => rfl) fun _ _ hp => hp
  rw [hset]
  constructor
  · intro hshare i' hi'
    rw [hi] at hi'
    cases hi'
    exact hshare
  · intro hg
    exact hg i hi

theorem close (h : HoldersOnly s) {key : Int} (hn : fdSystem.next s (.close key) = some t) :
    HoldersOnly t := by
  simp only [fdSystem] at hn
  split at hn
  next =>
    obtain ⟨⟨r, k⟩, hclose, rfl⟩ := Option.map_eq_some_iff.mp hn
    obtain ⟨hfds, hstate⟩ := fifoClose_eq hclose
    intro p j hj hopened hbit
    exact h p j hj (hstate j hopened) ((fileIsOpen_congr hfds).mp hbit)
  next => cases hn

/-- A step keeps the descriptors right exactly if it meets the guard. -/
theorem next {a : FdAction} (h : HoldersOnly s) (hn : fdSystem.next s a = some t) :
    HoldersOnly t ↔ Withdraws s a := by
  cases a with
  | dispatch node =>
      simp only [fdSystem] at hn
      split at hn
      next =>
        cases hn
        exact iff_of_true h trivial
      next => cases hn
  | openName name => exact h.openName hn
  | setOpen => exact h.setOpen hn
  | close key => exact iff_of_true (h.close hn) trivial

end HoldersOnly

/-- A process may use only the fifos it has opened itself, in every run whose
steps meet the guard, and the next step keeps it so exactly if it meets the
guard too. -/
theorem fifo_descriptors {s : FdRun} (h : fdSystem.ReachBy Withdraws s) :
    HoldersOnly s ∧ (∀ key, s.k.fifoIsOpen key → s.k.getCurrentProcess ∈ s.holders key) ∧
    ∀ a t, fdSystem.next s a = some t → (HoldersOnly t ↔ Withdraws s a) := by
  have hinv : HoldersOnly s :=
    h.invariant (fun _ hs => .of_init hs) fun _ _ _ hi hg hn => (hi.next hn).mpr hg
  refine ⟨hinv, fun key hopen => ?_, fun a t hn => hinv.next hn⟩
  exact hinv _ key hopen.1 hopen.2.1 hopen.2.2

/-- Two processes before any fifo is opened. -/
def fdStarted : FdRun := ⟨twoProcesses, fun _ => [], fun _ => none⟩

theorem init_fdStarted : fdSystem.init fdStarted := ⟨fun _ => rfl, fun _ => rfl, fun _ => rfl⟩

theorem next_fdStarted : (fdSystem.next fdStarted (.openName nameA)).isSome := by decide +kernel

/-- Nobody has a bit before the first fifo is opened. -/
theorem withdraws_fdStarted : Withdraws fdStarted (.openName nameA) := by
  have hs : fdStarted.k.fifoSearch nameA = .closed 0 := by decide +kernel
  simp only [Withdraws, hs]
  intro q _ hbit
  exact hbit.2 (by simp [fdStarted, twoProcesses, Process.zero])

/-- The first process has created a fifo. -/
def fdCreated : FdRun := (fdSystem.next fdStarted (.openName nameA)).get next_fdStarted

theorem fifo_descriptors_created :
    HoldersOnly fdCreated ∧
    (∀ key, fdCreated.k.fifoIsOpen key →
      fdCreated.k.getCurrentProcess ∈ fdCreated.holders key) ∧
    ∀ a t, fdSystem.next fdCreated a = some t → (HoldersOnly t ↔ Withdraws fdCreated a) :=
  fifo_descriptors
    (.step (.init init_fdStarted) withdraws_fdStarted (Option.some_get next_fdStarted).symm)

/-- The running process may use the fifo in the slot `0` and has not opened it. -/
def usesStale (s : FdRun) : Bool :=
  decide (s.k.fifoIsOpen 0) && !(s.holders 0).contains s.k.getCurrentProcess

/-- Two processes open a fifo, the second one closes it and creates another one in
its slot, and the first one may use that. -/
theorem closed_descriptor_stays :
    ¬∀ s, fdSystem.Reach s →
      ∀ key, s.k.fifoIsOpen key → s.k.getCurrentProcess ∈ s.holders key := by
  intro claim
  obtain ⟨s, hreach, hstale⟩ := System.exists_reach_of_execute init_fdStarted
    [.openName nameA, .setOpen, .dispatch 2, .openName nameA, .close 0, .openName nameB, .setOpen,
      .dispatch 1] usesStale (by decide +kernel)
  simp only [usesStale, Bool.and_eq_true, decide_eq_true_eq, Bool.not_eq_true',
    List.contains_eq_mem, decide_eq_false_iff_not] at hstale
  exact hstale.2 (claim s hreach 0 hstale.1)

end Kernel

end TPE
