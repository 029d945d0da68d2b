import TPE.Kernel.WaiterPages

/-!
# Killed processes

`kill_process` marks a process for deletion by its status, and the scheduler
destroys it when it gets to it.  Until then others may write the status, and so
may the process itself, which goes on to the end of its turn.

Most of the functions that write the status test it first.  `block_read_process`
and `block_foreground_process` do not, and a process that is killed and then
reads from the keyboard is woken up like any other.
-/

namespace TPE

open Function

/-- The two calls that do not test for the mark. -/
def StatusCall.Careless (call : StatusCall) : Prop := call = .blockRead ∨ call = .blockForeground

instance : DecidablePred StatusCall.Careless := fun call =>
  inferInstanceAs (Decidable (call = .blockRead ∨ call = .blockForeground))

namespace Kernel

variable {k k' : Kernel} {p q : Addr} {st : Status}

/-! ## What keeps the mark -/

/-- A call takes the mark off exactly if it is one of these two, and is for the
marked process. -/
theorem delete_applyStatus_iff {call : StatusCall} (hq : q ≠ null)
    (hst : (k.processes q).st = .delete) :
    ((k.applyStatus call p).processes q).st = .delete ↔ ¬(call.Careless ∧ p = q) := by
  show (call.apply k.processes p q).st = .delete ↔ _
  by_cases hqp : q = p
  · subst hqp
    cases call <;> simp [StatusCall.apply, StatusCall.Careless, Procs.blockProcess,
      Procs.unblockProcess, Procs.killProcess, Procs.unblockReadProcess, Procs.blockReadProcess,
      Procs.blockForegroundProcess, Procs.unblockForegroundProcess, hq, hst]
    split <;> simp [hst]
  · obtain ⟨st, he, -⟩ := call.apply_eq k.processes p
    rw [he, Procs.setSt_of_ne hqp]
    exact iff_of_true hst fun h => hqp h.2.symm

theorem delete_setForegroundForceProcess (k : Kernel) (p q : Addr) :
    ((k.setForegroundForceProcess p).processes q).st = .delete ↔ (k.processes q).st = .delete := by
  unfold setForegroundForceProcess
  split
  · show (k.processes.unblockForegroundProcess p q).st = .delete ↔ _
    rcases Procs.MayUnblock.unblockForegroundProcess k.processes p q with hq | ⟨hst, hq⟩
    · rw [hq]
    · simp [hq, hst]
  · rfl

theorem delete_setForegroundProcess (k : Kernel) (p q : Addr) :
    ((k.setForegroundProcess p).processes q).st = .delete ↔ (k.processes q).st = .delete := by
  unfold setForegroundProcess
  split
  · exact delete_setForegroundForceProcess k p q
  · rfl

/-- A destroyed process keeps the mark, and nobody else gets one. -/
theorem delete_destroyProcess (k : Kernel) (p q : Addr) :
    ((k.destroyProcess p).processes q).st = .delete ↔ (k.processes q).st = .delete := by
  by_cases hp : p = null
  · rw [destroyProcess, if_neg (not_not.mpr hp)]
  · obtain ⟨_, _, _, procs, _, _, _, he, -, -, hst⟩ := destroyProcess_writes (k := k) hp
    rw [he]
    rcases (hst q).2 with hsame | ⟨hblocked, hready⟩
    · exact hsame ▸ Iff.rfl
    · simp [hblocked, hready]

/-! ## The scheduler -/

/-- The walk marks nobody and takes no mark off, and it ends at a process that is
not marked. -/
theorem setNextCurrent_delete {fuel : Nat} {ps : List Addr}
    (h : k.setNextCurrent fuel = some (ps, k')) :
    (∀ q, (k'.processes q).st = .delete ↔ (k.processes q).st = .delete) ∧
      (k'.processes k'.getCurrentProcess).st ≠ .delete := by
  induction fuel generalizing k ps with
  | zero => cases h
  | succ fuel ih =>
      rw [setNextCurrent] at h
      simp only at h
      split at h
      next =>
        split at h
        next =>
          obtain ⟨⟨ps', k₁⟩, hrest, he⟩ := Option.map_eq_some_iff.mp h
          cases he
          obtain ⟨hmarks, hlast⟩ := ih hrest
          refine ⟨fun q => (hmarks q).trans ?_, hlast⟩
          exact delete_destroyProcess (k.link k.prev (k.next k.current)) _ q
        next => exact ih (k := { k with prev := k.current, current := k.next k.current }) h
      next hgo =>
        cases h
        obtain ⟨hblocked, hdelete⟩ := not_or.mp hgo
        refine ⟨fun q => Iff.rfl, fun hst => hdelete ⟨?_, hst⟩⟩
        rintro hnull
        exact hblocked fun hne => absurd hnull hne

theorem delete_setRspProcess (k : Kernel) (p q : Addr) (rsp : Nat) :
    ((k.setRspProcess p rsp).processes q).st = (k.processes q).st := by
  unfold setRspProcess
  split
  · by_cases hq : q = p
    · subst hq
      simp [writeProcess]
    · simp [writeProcess, hq]
  · rfl

/-- `next_process` keeps the marks, and the process it chooses is not marked. -/
theorem nextProcess_delete {fuel currentRsp : Nat} {d : Dispatch}
    (h : nextProcess fuel k currentRsp = some d) :
    (∀ q, (d.k.processes q).st = .delete ↔ (k.processes q).st = .delete) ∧
      (d.switched = true → (d.k.processes d.k.getCurrentProcess).st ≠ .delete) := by
  unfold nextProcess at h
  simp only at h
  split at h
  next =>
    cases h
    exact ⟨fun _ => Iff.rfl, fun hs => by cases hs⟩
  next =>
    split at h
    next =>
      cases h
      exact ⟨fun _ => Iff.rfl, fun hs => by cases hs⟩
    next =>
      split at h
      next =>
        cases h
        exact ⟨fun _ => Iff.rfl, fun hs => by cases hs⟩
      next =>
        obtain ⟨⟨ps, k₁⟩, hwalk, he⟩ := Option.map_eq_some_iff.mp h
        cases he
        obtain ⟨hmarks, hlast⟩ := setNextCurrent_delete hwalk
        refine ⟨fun q => (hmarks q).trans ?_, fun _ => hlast⟩
        simp only [delete_setRspProcess]
        exact Iff.rfl

/-- `end_process` too. -/
theorem endProcess_delete {fuel : Nat} {ps : List Addr} (h : k.endProcess fuel = some (ps, k')) :
    (∀ q, (k'.processes q).st = .delete ↔ (k.processes q).st = .delete) ∧
      (k'.processes k'.getCurrentProcess).st ≠ .delete := by
  obtain ⟨⟨ps₁, k₁⟩, hwalk, he⟩ := Option.map_eq_some_iff.mp h
  cases he
  obtain ⟨hmarks, hlast⟩ := setNextCurrent_delete hwalk
  refine ⟨fun q => (hmarks q).trans ?_, ?_⟩
  · exact delete_destroyProcess { k with superlock := .locked } _ q
  · have hsame : (k₁.assignQuantum).getCurrentProcess = k₁.getCurrentProcess :=
      congrFun k₁.procOf_assignQuantum k₁.current
    rw [← hsame] at hlast
    exact hlast

/-! ## Runs -/

/-- The kernel, and the processes that were killed and not destroyed since. -/
structure KillRun where
  k : Kernel
  killed : List Addr

/-- What can happen in one step.  The calls may be for any process, whoever makes
them. -/
inductive KillAction where
  | status (call : StatusCall) (p : Addr)
  | setForeground (p : Addr)
  | setForegroundForce (p : Addr)
  | nextProcess (fuel currentRsp : Nat)
  | endProcess (fuel : Nat)

/-- `kill_process` marks the process. -/
def KillsAt (k : Kernel) (call : StatusCall) (p : Addr) : Prop :=
  call = .kill ∧ p ≠ null ∧ (k.processes p).pid ≠ 1 ∧ (k.processes p).pid ≠ 0

instance (k : Kernel) (call : StatusCall) (p : Addr) : Decidable (k.KillsAt call p) :=
  inferInstanceAs (Decidable (_ ∧ _ ∧ _ ∧ _))

/-- Runs from any kernel in which nobody was killed yet. -/
def killSystem : System KillRun KillAction where
  init s := s.killed = []
  next
    | s, .status call p => some
        ⟨s.k.applyStatus call p, if s.k.KillsAt call p then p :: s.killed else s.killed⟩
    | s, .setForeground p => some { s with k := s.k.setForegroundProcess p }
    | s, .setForegroundForce p => some { s with k := s.k.setForegroundForceProcess p }
    | s, .nextProcess fuel currentRsp =>
        (Kernel.nextProcess fuel s.k currentRsp).map fun d =>
          ⟨d.k, s.killed.filter (· ∉ d.destroyed)⟩
    | s, .endProcess fuel =>
        (s.k.endProcess fuel).map fun (destroyed, k) => ⟨k, s.killed.filter (· ∉ destroyed)⟩

/-- Who was killed is marked until he is destroyed. -/
def KillRun.KillsStand (s : KillRun) : Prop := ∀ p ∈ s.killed, (s.k.processes p).st = .delete

/-- `block_read_process` and `block_foreground_process` are not called for a
process that was killed. -/
def SparesKilled (s : KillRun) : KillAction → Prop
  | .status call p => call.Careless → p ∉ s.killed
  | _ => True

instance (s : KillRun) : DecidablePred (SparesKilled s)
  | .status call p => inferInstanceAs (Decidable (call.Careless → p ∉ s.killed))
  | .setForeground _ | .setForegroundForce _ | .nextProcess _ _ | .endProcess _ =>
      inferInstanceAs (Decidable True)

/-- The invariant: who was killed is marked, and is a process. -/
structure KillRun.Inv (s : KillRun) : Prop where
  stand : s.KillsStand
  ne_null : ∀ p ∈ s.killed, p ≠ null

namespace KillRun

variable {s t : KillRun} {a : KillAction}

/-- A step that keeps the marks and destroys some processes. -/
theorem KillsStand.filter (h : s.KillsStand)
    (hmarks : ∀ q, (k.processes q).st = .delete ↔ (s.k.processes q).st = .delete)
    (gone : List Addr) : KillsStand ⟨k, s.killed.filter (· ∉ gone)⟩ :=
  fun p hp => (hmarks p).mpr (h p (List.mem_of_mem_filter hp))

/-- Who is killed by a call is marked by it. -/
theorem delete_of_killsAt {call : StatusCall} (h : k.KillsAt call p) :
    ((k.applyStatus call p).processes p).st = .delete := by
  obtain ⟨rfl, hkill⟩ := h
  show (Procs.killProcess k.processes p p).st = .delete
  rw [Procs.killProcess, if_pos hkill, Procs.setSt_st_self]

/-- A call keeps the marks exactly if it is not careless with a killed process. -/
theorem Inv.killsStand_status_iff {call : StatusCall} (h : s.Inv) :
    KillsStand ⟨s.k.applyStatus call p, if s.k.KillsAt call p then p :: s.killed else s.killed⟩ ↔
      SparesKilled s (.status call p) := by
  have hmem : ∀ q, q ∈ (if s.k.KillsAt call p then p :: s.killed else s.killed) ↔
      q ∈ s.killed ∨ s.k.KillsAt call p ∧ q = p := by
    intro q
    split
    next hkill => simp [hkill, or_comm]
    next hkill => simp [hkill]
  constructor
  · intro hstand hcareless hp
    have hst := hstand p ((hmem p).mpr (Or.inl hp))
    exact (delete_applyStatus_iff (h.ne_null p hp) (h.stand p hp)).mp hst ⟨hcareless, rfl⟩
  · intro hspares q hq
    rcases (hmem q).mp hq with hq | ⟨hkill, rfl⟩
    · refine (delete_applyStatus_iff (h.ne_null q hq) (h.stand q hq)).mpr ?_
      rintro ⟨hcareless, rfl⟩
      exact hspares hcareless hq
    · exact delete_of_killsAt hkill

/-- The marks are kept by exactly the steps that spare the killed processes. -/
theorem Inv.killsStand_next_iff (h : s.Inv) (hn : killSystem.next s a = some t) :
    t.KillsStand ↔ SparesKilled s a := by
  cases a with
  | status call p =>
      cases hn
      exact h.killsStand_status_iff
  | setForeground p =>
      cases hn
      exact iff_of_true
        (fun q hq => (delete_setForegroundProcess s.k p q).mpr (h.stand q hq)) trivial
  | setForegroundForce p =>
      cases hn
      exact iff_of_true
        (fun q hq => (delete_setForegroundForceProcess s.k p q).mpr (h.stand q hq)) trivial
  | nextProcess fuel currentRsp =>
      obtain ⟨d, hd, he⟩ := Option.map_eq_some_iff.mp hn
      cases he
      exact iff_of_true (h.stand.filter (nextProcess_delete hd).1 d.destroyed) trivial
  | endProcess fuel =>
      obtain ⟨⟨gone, k⟩, hd, he⟩ := Option.map_eq_some_iff.mp hn
      cases he
      exact iff_of_true (h.stand.filter (endProcess_delete hd).1 gone) trivial

theorem Inv.ne_null_next (h : s.Inv) (hn : killSystem.next s a = some t) :
    ∀ p ∈ t.killed, p ≠ null := by
  cases a with
  | status call p =>
      cases hn
      intro q hq
      split at hq
      next hkill =>
        rcases List.mem_cons.mp hq with rfl | hq
        · exact hkill.2.1
        · exact h.ne_null q hq
      next => exact h.ne_null q hq
  | setForeground p =>
      cases hn
      exact h.ne_null
  | setForegroundForce p =>
      cases hn
      exact h.ne_null
  | nextProcess fuel currentRsp =>
      obtain ⟨d, hd, he⟩ := Option.map_eq_some_iff.mp hn
      cases he
      exact fun q hq => h.ne_null q (List.mem_of_mem_filter hq)
  | endProcess fuel =>
      obtain ⟨⟨gone, k⟩, hd, he⟩ := Option.map_eq_some_iff.mp hn
      cases he
      exact fun q hq => h.ne_null q (List.mem_of_mem_filter hq)

theorem Inv.of_init (h : killSystem.init s) : s.Inv := by
  have hnone : s.killed = [] := h
  constructor
  · intro p hp
    rw [hnone] at hp
    cases hp
  · intro p hp
    rw [hnone] at hp
    cases hp

theorem inv_of_reachBy (h : killSystem.ReachBy SparesKilled s) : s.Inv :=
  h.invariant (fun _ => Inv.of_init) fun _ _ _ hi hg hn =>
    ⟨(hi.killsStand_next_iff hn).mpr hg, hi.ne_null_next hn⟩

end KillRun

/-- The scheduler does not choose a process that was killed. -/
def KillRun.NeverDispatched (s : KillRun) : Prop :=
  ∀ fuel currentRsp d, nextProcess fuel s.k currentRsp = some d → d.switched = true →
    d.k.getCurrentProcess ∉ s.killed

theorem KillRun.KillsStand.neverDispatched {s : KillRun} (h : s.KillsStand) :
    s.NeverDispatched := by
  intro fuel currentRsp d hd hswitched hp
  obtain ⟨hmarks, hlast⟩ := nextProcess_delete hd
  exact hlast hswitched ((hmarks _).mpr (h _ hp))

/-- As long as nobody is careless with a killed process, a kill stands and the
scheduler does not choose a killed process.  A step after which a kill does not
stand is a careless one. -/
theorem kills_stand {s : KillRun} (h : killSystem.ReachBy SparesKilled s) :
    s.KillsStand ∧ s.NeverDispatched ∧
      ∀ a t, killSystem.next s a = some t → (t.KillsStand ↔ SparesKilled s a) :=
  have hinv := KillRun.inv_of_reachBy h
  ⟨hinv.stand, hinv.stand.neverDispatched, fun _ _ hn => hinv.killsStand_next_iff hn⟩

/-- Two processes with pids from 2 on, of which the first runs. -/
def twoKillable : KillRun :=
  ⟨{ twoProcesses with processes := fun p => { Process.zero with st := .ready, pid := p } }, []⟩

/-- The second process is killed and destroyed. -/
def killedInTurn : Option KillRun :=
  killSystem.executeBy (fun s a => decide (SparesKilled s a)) twoKillable
    [.status .kill 20, .status .unblock 20, .setForegroundForce 20, .nextProcess 3 0]

theorem kills_stand_killedInTurn : (killedInTurn.get (by decide +kernel)).KillsStand :=
  (kills_stand ((System.ReachBy.init rfl).execute (fun _ _ => of_decide_eq_true)
    (Option.some_get _).symm)).1

/-- The first process kills itself and reads from the keyboard, a key wakes it up,
and the scheduler chooses it. -/
theorem kill_revoked : ¬∀ s, killSystem.Reach s → s.KillsStand ∧ s.NeverDispatched := by
  intro hall
  obtain ⟨t, ht, hf⟩ := System.exists_reach_of_execute (M := killSystem) (s := twoKillable) rfl
    [.status .kill 10, .status .blockRead 10, .nextProcess 3 0, .status .unblockRead 10]
    (fun t => (nextProcess 3 t.k 0).any fun d =>
      d.switched && decide (d.k.getCurrentProcess ∈ t.killed))
    (by decide +kernel)
  obtain ⟨d, hd, hchosen⟩ := (Option.any_eq_true _ _).mp hf
  rw [Bool.and_eq_true, decide_eq_true_eq] at hchosen
  exact (hall t ht).2 3 0 d hd hchosen.1 hchosen.2

end Kernel

end TPE
