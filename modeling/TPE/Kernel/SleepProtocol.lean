import TPE.Library.Runs
import TPE.Library.WaitQueue
import TPE.Library.Walk
import TPE.Kernel.Timer

/-!
# Sleeping processes and the timer

Any number of processes sleep, with a timer tick or a switch possible between
any two statements of `sleep` and `add_sleep_process`.

A process reads the head of the list into its node, writes the head, and then
blocks itself.  A tick or another process in between may change the head that
was read, and a tick may wake up a process that is linked and not blocked yet.
`TicksBlocked` rules both out.
-/

namespace TPE

open Function

namespace Kernel

/-- The next statement of a process in `sleep`. -/
inductive SleepPoint where
  | idle
  /-- `assign_quantum`.  The number of ticks is not zero. -/
  | entered (ticks : Nat) (pos : 0 < ticks) (fits : ticks < 2 ^ 64)
  /-- `create_sleep_process` -/
  | creating (ticks : Nat) (pos : 0 < ticks) (fits : ticks < 2 ^ 64)
  /-- The first statement of `add_sleep_process`. -/
  | created (a : Addr)
  /-- The second statement of `add_sleep_process`. -/
  | linking (a : Addr)
  /-- `block_process` -/
  | linked (a : Addr)
  /-- `yield_process` -/
  | yielding

namespace SleepPoint

/-- The node that is not in the list yet. -/
def fresh : SleepPoint → Option Addr
  | .created a => some a
  | .linking a => some a
  | _ => none

/-- How far the process `p` is with its place in the list. -/
def stage (p : Addr) : SleepPoint → Stage Addr
  | .linked _ => .registered p
  | .yielding => .waiting p
  | _ => .out

/-- The ticket of a process is the process itself. -/
theorem ticket_eq {p q : Addr} {pt : SleepPoint} (h : (pt.stage p).ticket = some q) : q = p := by
  cases pt <;> cases h <;> rfl

end SleepPoint

/-- The kernel with the points of the processes. -/
structure SleepRun where
  k : Kernel
  point : Addr → SleepPoint

/-- The running process goes to `pt`. -/
def SleepRun.goto (s : SleepRun) (k : Kernel) (pt : SleepPoint) : SleepRun :=
  ⟨k, update s.point s.k.getCurrentProcess pt⟩

namespace SleepRun

@[simp] theorem goto_point_self (s : SleepRun) (k : Kernel) (pt : SleepPoint) :
    (s.goto k pt).point s.k.getCurrentProcess = pt := update_self _ _ _

theorem goto_point_of_ne {s : SleepRun} {k : Kernel} {pt : SleepPoint} {p : Addr}
    (hp : p ≠ s.k.getCurrentProcess) : (s.goto k pt).point p = s.point p := update_of_ne hp _ _

theorem goto_stage (s : SleepRun) (k : Kernel) (pt : SleepPoint) :
    (fun p => ((s.goto k pt).point p).stage p) =
      update (fun p => (s.point p).stage p) s.k.getCurrentProcess
        (pt.stage s.k.getCurrentProcess) := by
  funext p
  by_cases hp : p = s.k.getCurrentProcess
  · rw [hp, update_self, goto_point_self]
  · rw [update_of_ne hp, goto_point_of_ne hp]

/-- The kernel may change first, when the same process goes on running. -/
theorem goto_eq {s : SleepRun} {k : Kernel} {pt : SleepPoint}
    (h : k.getCurrentProcess = s.k.getCurrentProcess) :
    s.goto k pt = SleepRun.goto { s with k } k pt := by
  rw [goto, goto, h]

end SleepRun

/-- What can happen in one step. -/
inductive SleepAction where
  /-- The scheduler dispatches the process of a node. -/
  | dispatch (node : Addr)
  /-- The running process calls `sleep`. -/
  | sleep (milliseconds : Nat)
  /-- The running process does the next statement of its call. -/
  | advance
  /-- The timer interrupt: `timer_handler`, with enough fuel for its loop. -/
  | tick (fuel : Nat)
  /-- The status of a process outside `sleep` changes. -/
  | status (call : StatusCall) (p : Addr)

/-- The next statement of the running process. -/
def sleepAdvance (s : SleepRun) : Option SleepRun :=
  match s.point s.k.getCurrentProcess with
  | .idle => none
  | .entered ticks pos fits => some (s.goto s.k.assignQuantum (.creating ticks pos fits))
  | .creating ticks _ _ =>
      (s.k.createSleepProcess ticks).map fun (a, k) => s.goto k (.created a)
  | .created a => some (s.goto (s.k.linkSleepProcess a) (.linking a))
  | .linking a => some (s.goto (s.k.headSleepProcess a) (.linked a))
  | .linked a =>
      let processes := Procs.blockProcess s.k.processes (s.k.sleeper a)
      some (s.goto { s.k with processes } .yielding)
  | .yielding =>
      if s.k.processes.isBlockedProcess s.k.getCurrentProcess then none
      else some (s.goto s.k .idle)

/-- Processes that sleep.  None is killed. -/
def sleepSystem : System SleepRun SleepAction where
  init s := s.k.sleepingProcesses = null ∧ s.k.pages.PagesOk ∅ ∧
    (∀ p, (s.k.processes p).st ≠ .delete) ∧ s.k.getCurrentProcess ≠ null ∧ ∀ p, s.point p = .idle
  next
    | s, .dispatch node =>
        if s.k.Dispatchable node then some { s with k := { s.k with current := node } } else none
    | s, .sleep milliseconds =>
        match s.point s.k.getCurrentProcess with
        | .idle =>
            if h : milliseconds < 2 ^ 64 ∧ 0 < waitTicks milliseconds then
              some (s.goto s.k (.entered (waitTicks milliseconds) h.2
                ((Nat.div_le_self _ _).trans_lt h.1)))
            else none
        | _ => none
    | s, .advance => sleepAdvance s
    | s, .tick fuel => (timerHandler fuel s.k).map fun k => { s with k }
    | s, .status call p =>
        match s.point p with
        | .idle => if call = .kill then none else some { s with k := s.k.applyStatus call p }
        | _ => none

/-- A tick is not the last one of a process that has linked its node and not
blocked itself yet, and a process writes the head of the list while it still is
what the process has read. -/
def TicksBlocked (s : SleepRun) : SleepAction → Prop
  | .tick _ => ∀ p a, s.point p = .linked a → (s.k.sleepNodes a).ticks ≠ 1
  | .advance => ∀ a, s.point s.k.getCurrentProcess = .linking a →
      s.k.sleepNext a = s.k.sleepingProcesses
  | _ => True

/-! ## The invariant -/

/-- A node that holds a process and its ticks. -/
structure SleepNode (n : SleepProcess) : Prop where
  ne_null : n.p ≠ null
  pos : 0 < n.ticks
  fits : n.ticks < 2 ^ 64

/-- `l` are the nodes of the list.  They and the nodes on their way into it are
handed out and apart. -/
structure SleepReady (s : SleepRun) (l : List Addr) : Prop where
  running : s.k.getCurrentProcess ≠ null
  alive : ∀ p, (s.k.processes p).st ≠ .delete
  walk : Walk s.k.sleepNext s.k.sleepingProcesses l null
  sleepers : (l.map s.k.sleeper).Nodup
  pages : s.k.pages.PagesOk {a | a ∈ l ∨ ∃ p, (s.point p).fresh = some a}
  apart : ∀ p a, (s.point p).fresh = some a → a ∉ l
  unique : ∀ p q a, (s.point p).fresh = some a → (s.point q).fresh = some a → p = q
  fresh : ∀ p a, (s.point p).fresh = some a → s.k.sleeper a = p ∧ SleepNode (s.k.sleepNodes a)
  node : ∀ a ∈ l, SleepNode (s.k.sleepNodes a)
  linked : ∀ p a, s.point p = .linked a → a ∈ l ∧ s.k.sleeper a = p

/-- The sleeping processes as processes with a ticket, which is the process. -/
def sleepView (s : SleepRun) (l : List Addr) : WaitState Addr Addr where
  tickets := {p | p ∈ l.map s.k.sleeper}
  blocked := s.k.processes.isBlockedProcess
  stage p := (s.point p).stage p

/-- The invariant of the guarded runs. -/
structure SleepInv (s : SleepRun) (l : List Addr) : Prop where
  ready : SleepReady s l
  wait : WaitInv (sleepView s l)

variable {s t : SleepRun} {k : Kernel} {l : List Addr}

namespace SleepReady

theorem isPage (h : SleepReady s l) {a : Addr} (ha : a ∈ l) : IsPage a :=
  h.pages.isPage a (Or.inl ha)

theorem null_not_mem (h : SleepReady s l) : null ∉ l := fun hm => (h.isPage hm).ne_null rfl

theorem nodup (h : SleepReady s l) : l.Nodup := h.walk.nodup h.null_not_mem

/-- The kernel changes in nothing that the list is made of. -/
theorem of_kernel (h : SleepReady s l) (hcurrent : k.getCurrentProcess = s.k.getCurrentProcess)
    (halive : ∀ p, (k.processes p).st ≠ .delete)
    (hhead : k.sleepingProcesses = s.k.sleepingProcesses) (hpages : k.pages = s.k.pages)
    (hnext : ∀ a ∈ l, k.sleepNext a = s.k.sleepNext a) (hsleeper : k.sleeper = s.k.sleeper)
    (hnode : ∀ a, a ∈ l ∨ (∃ p, (s.point p).fresh = some a) → SleepNode (k.sleepNodes a)) :
    SleepReady { s with k } l where
  running := by
    rw [hcurrent]
    exact h.running
  alive := halive
  walk := by
    rw [hhead]
    exact h.walk.congr hnext
  sleepers := by
    rw [hsleeper]
    exact h.sleepers
  pages := by
    rw [hpages]
    exact h.pages
  apart := h.apart
  unique := h.unique
  fresh p a hp := by
    rw [hsleeper]
    exact ⟨(h.fresh p a hp).1, hnode a (Or.inr ⟨p, hp⟩)⟩
  node a ha := hnode a (Or.inl ha)
  linked p a hp := by
    rw [hsleeper]
    exact h.linked p a hp

theorem sleepNode (h : SleepReady s l) {a : Addr}
    (ha : a ∈ l ∨ ∃ p, (s.point p).fresh = some a) : SleepNode (s.k.sleepNodes a) := by
  rcases ha with ha | ⟨p, hp⟩
  · exact h.node a ha
  · exact (h.fresh p a hp).2

/-- The running process moves on and keeps its node on the way into the list, or
it has put it there. -/
theorem goto (h : SleepReady s l) (pt : SleepPoint)
    (hfresh : ∀ a, pt.fresh = some a → (s.point s.k.getCurrentProcess).fresh = some a)
    (hlinked : ∀ a, pt = .linked a → a ∈ l ∧ s.k.sleeper a = s.k.getCurrentProcess) :
    SleepReady (s.goto s.k pt) l := by
  have hsub : ∀ p a, ((s.goto s.k pt).point p).fresh = some a → (s.point p).fresh = some a := by
    intro p a hp
    by_cases hcur : p = s.k.getCurrentProcess
    · rw [hcur, SleepRun.goto_point_self] at hp
      rw [hcur]
      exact hfresh a hp
    · rwa [SleepRun.goto_point_of_ne hcur] at hp
  refine { h with
    pages := h.pages.mono ?_
    apart := fun p a hp => h.apart p a (hsub p a hp)
    unique := fun p q a hp hq => h.unique p q a (hsub p a hp) (hsub q a hq)
    fresh := fun p a hp => h.fresh p a (hsub p a hp)
    linked := fun p a hp => ?_ }
  · rintro a (ha | ⟨p, hp⟩)
    · exact Or.inl ha
    · exact Or.inr ⟨p, hsub p a hp⟩
  · by_cases hcur : p = s.k.getCurrentProcess
    · rw [hcur, SleepRun.goto_point_self] at hp
      rw [hcur]
      exact hlinked a hp
    · rw [SleepRun.goto_point_of_ne hcur] at hp
      exact h.linked p a hp

end SleepReady

namespace SleepInv

/-- The running process goes from a point where it waits for nothing to another such point. -/
theorem goto (h : SleepInv s l) (pt : SleepPoint)
    (hfresh : ∀ a, pt.fresh = some a → (s.point s.k.getCurrentProcess).fresh = some a)
    (hold : (s.point s.k.getCurrentProcess).stage s.k.getCurrentProcess = .out)
    (hnew : pt.stage s.k.getCurrentProcess = .out) : SleepInv (s.goto s.k pt) l := by
  refine ⟨h.ready.goto pt hfresh fun a ha => ?_, h.wait.of_eq (WaitState.ext rfl rfl ?_)⟩
  · rw [ha] at hnew
    cases hnew
  · show (fun p => ((s.goto s.k pt).point p).stage p) = fun p => (s.point p).stage p
    rw [SleepRun.goto_stage, hnew, ← hold]
    exact update_eq_self _ fun p => (s.point p).stage p

/-- The kernel changes in nothing that the invariant is about. -/
theorem of_kernel (h : SleepInv s l) (hcurrent : k.getCurrentProcess = s.k.getCurrentProcess)
    (hprocs : k.processes = s.k.processes)
    (hhead : k.sleepingProcesses = s.k.sleepingProcesses) (hpages : k.pages = s.k.pages)
    (hnext : ∀ a ∈ l, k.sleepNext a = s.k.sleepNext a) (hsleeper : k.sleeper = s.k.sleeper)
    (hnode : ∀ a, a ∈ l ∨ (∃ p, (s.point p).fresh = some a) → SleepNode (k.sleepNodes a)) :
    SleepInv { s with k } l := by
  refine ⟨h.ready.of_kernel hcurrent ?_ hhead hpages hnext hsleeper hnode,
    h.wait.of_eq (WaitState.ext ?_ ?_ rfl)⟩
  · rw [hprocs]
    exact h.ready.alive
  · simp only [sleepView, hsleeper]
  · simp only [sleepView, hprocs]

/-! ## The steps of `sleep` -/

/-- `assign_quantum` -/
theorem assign (h : SleepInv s l) {ticks : Nat} {pos : 0 < ticks} {fits : ticks < 2 ^ 64}
    (hp : s.point s.k.getCurrentProcess = .entered ticks pos fits) :
    SleepInv (s.goto s.k.assignQuantum (.creating ticks pos fits)) l := by
  have hcurrent : s.k.assignQuantum.getCurrentProcess = s.k.getCurrentProcess :=
    congrFun s.k.procOf_assignQuantum s.k.current
  have h' := h.of_kernel (k := s.k.assignQuantum) hcurrent rfl rfl rfl (fun _ _ => rfl) rfl
    fun a ha => h.ready.sleepNode ha
  rw [SleepRun.goto_eq hcurrent]
  refine h'.goto _ (fun a ha => nomatch ha) ?_ rfl
  rw [hcurrent]
  show (s.point s.k.getCurrentProcess).stage s.k.getCurrentProcess = .out
  rw [hp]
  rfl

/-- `create_sleep_process` -/
theorem create (h : SleepInv s l) {ticks : Nat} {pos : 0 < ticks} {fits : ticks < 2 ^ 64}
    (hp : s.point s.k.getCurrentProcess = .creating ticks pos fits) {a : Addr}
    (hc : s.k.createSleepProcess ticks = some (a, k)) : SleepInv (s.goto k (.created a)) l := by
  obtain ⟨hpages, hself, hother, hhead, hcurrent, hprocs⟩ := createSleepProcess_spec hc
  obtain ⟨⟨hrun, halive, hwalk, hsleepers, hused, hapart, hunique, hfresh, hnode, hlinked⟩, hw⟩ := h
  obtain ⟨hnew, -, hused'⟩ := hused.getPage hpages
  rw [Set.mem_ofPred_eq, not_or] at hnew
  have hno : ∀ q, (s.point q).fresh ≠ some a := fun q hq => hnew.2 ⟨q, hq⟩
  have hne : ∀ b ∈ l, b ≠ a := by
    rintro b hb rfl
    exact hnew.1 hb
  have hpoint : ∀ q b, ((s.goto k (.created a)).point q).fresh = some b →
      q = s.k.getCurrentProcess ∧ b = a ∨ b ≠ a ∧ (s.point q).fresh = some b := by
    intro q b hq
    by_cases hqp : q = s.k.getCurrentProcess
    · rw [hqp, SleepRun.goto_point_self] at hq
      cases hq
      exact Or.inl ⟨hqp, rfl⟩
    · rw [SleepRun.goto_point_of_ne hqp] at hq
      refine Or.inr ⟨?_, hq⟩
      rintro rfl
      exact hno q hq
  have hsleeper : ∀ b ∈ l, k.sleeper b = s.k.sleeper b := by
    intro b hb
    rw [sleeper, hother b (hne b hb)]
    rfl
  have hmap : l.map k.sleeper = l.map s.k.sleeper := List.map_congr_left hsleeper
  constructor
  · refine ⟨?_, ?_, ?_, ?_, hused'.mono ?_, fun q b hq => ?_, fun q r b hq hr => ?_,
      fun q b hq => ?_, fun b hb => ?_, fun q b hq => ?_⟩
    · show k.getCurrentProcess ≠ null
      rw [hcurrent]
      exact hrun
    · show ∀ q, (k.processes q).st ≠ .delete
      rw [hprocs]
      exact halive
    · show Walk k.sleepNext k.sleepingProcesses l null
      rw [hhead]
      refine hwalk.congr fun b hb => ?_
      rw [sleepNext, hother b (hne b hb)]
      rfl
    · exact (congrArg List.Nodup hmap).mpr hsleepers
    · rintro b (hb | ⟨q, hq⟩)
      · exact Or.inr (Or.inl hb)
      · rcases hpoint q b hq with ⟨-, rfl⟩ | ⟨-, hq⟩
        · exact Or.inl rfl
        · exact Or.inr (Or.inr ⟨q, hq⟩)
    · rcases hpoint q b hq with ⟨-, rfl⟩ | ⟨-, hq⟩
      · exact hnew.1
      · exact hapart q b hq
    · rcases hpoint q b hq with ⟨hqp, hba⟩ | ⟨hba, hq⟩
      · rcases hpoint r b hr with ⟨hrp, -⟩ | ⟨hba', -⟩
        · exact hqp.trans hrp.symm
        · exact absurd hba hba'
      · rcases hpoint r b hr with ⟨-, hba'⟩ | ⟨-, hr⟩
        · exact absurd hba' hba
        · exact hunique q r b hq hr
    · show k.sleeper b = q ∧ SleepNode (k.sleepNodes b)
      rcases hpoint q b hq with ⟨rfl, rfl⟩ | ⟨hba, hq⟩
      · rw [sleeper, hself]
        exact ⟨rfl, hrun, pos, fits⟩
      · rw [sleeper, hother b hba]
        exact hfresh q b hq
    · show SleepNode (k.sleepNodes b)
      rw [hother b (hne b hb)]
      exact hnode b hb
    · have hqp : q ≠ s.k.getCurrentProcess := by
        rintro rfl
        rw [SleepRun.goto_point_self] at hq
        cases hq
      rw [SleepRun.goto_point_of_ne hqp] at hq
      obtain ⟨hb, he⟩ := hlinked q b hq
      exact ⟨hb, (hsleeper b hb).trans he⟩
  · refine hw.of_eq (WaitState.ext ?_ ?_ ?_)
    · show {q | q ∈ l.map k.sleeper} = {q | q ∈ l.map s.k.sleeper}
      rw [hmap]
    · show k.processes.isBlockedProcess = s.k.processes.isBlockedProcess
      rw [hprocs]
    · have hold : SleepPoint.stage s.k.getCurrentProcess (.created a) =
          (s.point s.k.getCurrentProcess).stage s.k.getCurrentProcess := by
        rw [hp]
        rfl
      refine (SleepRun.goto_stage _ _ _).trans ?_
      rw [hold]
      exact update_eq_self _ fun q => (s.point q).stage q

/-- The first statement of `add_sleep_process`. -/
theorem link (h : SleepInv s l) {a : Addr} (hp : s.point s.k.getCurrentProcess = .created a) :
    SleepInv (s.goto (s.k.linkSleepProcess a) (.linking a)) l := by
  have hfresh : (s.point s.k.getCurrentProcess).fresh = some a := by
    rw [hp]
    rfl
  have hother : ∀ b, b ≠ a → (s.k.linkSleepProcess a).sleepNodes b = s.k.sleepNodes b :=
    fun b hb => update_of_ne hb _ _
  have hself : (s.k.linkSleepProcess a).sleepNodes a =
      { s.k.sleepNodes a with next := s.k.sleepingProcesses } := update_self _ _ _
  have h' : SleepInv { s with k := s.k.linkSleepProcess a } l := by
    refine h.of_kernel rfl rfl rfl rfl (fun b hb => ?_) (funext fun b => ?_) fun b hb => ?_
    · have hne : b ≠ a := by
        rintro rfl
        exact h.ready.apart _ b hfresh hb
      rw [sleepNext, hother b hne]
      rfl
    · by_cases hb : b = a
      · rw [hb, sleeper, hself]
        rfl
      · rw [sleeper, hother b hb]
        rfl
    · have hnode := h.ready.sleepNode hb
      by_cases hb : b = a
      · rw [hb] at hnode
        rw [hb, hself]
        exact ⟨hnode.ne_null, hnode.pos, hnode.fits⟩
      · rw [hother b hb]
        exact hnode
  refine h'.goto _ (fun b hb => ?_) ?_ rfl
  · cases hb
    exact hfresh
  · show (s.point s.k.getCurrentProcess).stage s.k.getCurrentProcess = .out
    rw [hp]
    rfl

/-- The second statement of `add_sleep_process`, with the head that the first one read. -/
theorem head (h : SleepInv s l) {a : Addr} (hp : s.point s.k.getCurrentProcess = .linking a)
    (hg : s.k.sleepNext a = s.k.sleepingProcesses) :
    SleepInv (s.goto (s.k.headSleepProcess a) (.linked a)) (a :: l) := by
  have hpa : (s.point s.k.getCurrentProcess).fresh = some a := by
    rw [hp]
    rfl
  have hstage : (s.point s.k.getCurrentProcess).stage s.k.getCurrentProcess = .out := by
    rw [hp]
    rfl
  obtain ⟨⟨hrun, halive, hwalk, hsleepers, hused, hapart, hunique, hfresh, hnode, hlinked⟩, hw⟩ := h
  obtain ⟨hsleeper, hnew⟩ := hfresh _ a hpa
  have hnone : ∀ q, ((s.point q).stage q).ticket ≠ some s.k.getCurrentProcess := by
    intro q hq
    obtain rfl := SleepPoint.ticket_eq hq
    rw [hstage] at hq
    cases hq
  have hpoint : ∀ q b, ((s.goto (s.k.headSleepProcess a) (.linked a)).point q).fresh = some b →
      q ≠ s.k.getCurrentProcess ∧ (s.point q).fresh = some b := by
    intro q b hq
    by_cases hqp : q = s.k.getCurrentProcess
    · rw [hqp, SleepRun.goto_point_self] at hq
      cases hq
    · rw [SleepRun.goto_point_of_ne hqp] at hq
      exact ⟨hqp, hq⟩
  constructor
  · refine ⟨hrun, halive, ⟨rfl, ?_⟩, ?_, hused.mono ?_, fun q b hq hm => ?_,
      fun q r b hq hr => hunique q r b (hpoint q b hq).2 (hpoint r b hr).2,
      fun q b hq => hfresh q b (hpoint q b hq).2, fun b hb => ?_, fun q b hq => ?_⟩
    · show Walk s.k.sleepNext (s.k.sleepNext a) l null
      rw [hg]
      exact hwalk
    · show ((a :: l).map s.k.sleeper).Nodup
      rw [List.map_cons, List.nodup_cons, hsleeper]
      refine ⟨fun hm => ?_, hsleepers⟩
      obtain ⟨q, hq⟩ := hw.owner _ hm
      exact hnone q hq
    · rintro b (hb | ⟨q, hq⟩)
      · rcases List.mem_cons.mp hb with rfl | hb
        · exact Or.inr ⟨_, hpa⟩
        · exact Or.inl hb
      · exact Or.inr ⟨q, (hpoint q b hq).2⟩
    · obtain ⟨hqp, hqb⟩ := hpoint q b hq
      rcases List.mem_cons.mp hm with rfl | hm
      · exact hqp (hunique q _ b hqb hpa)
      · exact hapart q b hqb hm
    · rcases List.mem_cons.mp hb with rfl | hb
      · exact hnew
      · exact hnode b hb
    · by_cases hqp : q = s.k.getCurrentProcess
      · rw [hqp, SleepRun.goto_point_self] at hq
        cases hq
        rw [hqp]
        exact ⟨List.mem_cons_self, hsleeper⟩
      · rw [SleepRun.goto_point_of_ne hqp] at hq
        exact ⟨List.mem_cons_of_mem _ (hlinked q b hq).1, (hlinked q b hq).2⟩
  · refine (hw.register hstage hnone).of_eq (WaitState.ext ?_ rfl (SleepRun.goto_stage _ _ _))
    ext q
    show q ∈ (a :: l).map s.k.sleeper ↔ _
    rw [List.map_cons, hsleeper, List.mem_cons, Set.mem_insert_iff]
    rfl

/-- The process blocks itself. -/
theorem block (h : SleepInv s l) {a : Addr} (hp : s.point s.k.getCurrentProcess = .linked a) :
    SleepInv (s.goto { s.k with
      processes := Procs.blockProcess s.k.processes (s.k.sleeper a) } .yielding) l := by
  obtain ⟨ha, hsleeper⟩ := h.ready.linked _ a hp
  rw [hsleeper]
  have hblocked := Procs.isBlockedProcess_block h.ready.running (h.ready.alive _)
  have hgoto := h.ready.goto .yielding (fun _ hb => nomatch hb) fun _ hb => nomatch hb
  refine ⟨{ hgoto with alive := fun q hq => ?_ }, ?_⟩
  · exact h.ready.alive q (Procs.blockProcess_delete_iff.mp hq)
  · have hstage : (s.point s.k.getCurrentProcess).stage s.k.getCurrentProcess =
        .registered s.k.getCurrentProcess := by
      rw [hp]
      rfl
    exact (h.wait.block hstage).of_eq (WaitState.ext rfl hblocked (SleepRun.goto_stage _ _ _))

/-- The process returns from its yield. -/
theorem resume (h : SleepInv s l) (hp : s.point s.k.getCurrentProcess = .yielding)
    (hb : ¬s.k.processes.isBlockedProcess s.k.getCurrentProcess) :
    SleepInv (s.goto s.k .idle) l := by
  have hstage : (s.point s.k.getCurrentProcess).stage s.k.getCurrentProcess =
      .waiting s.k.getCurrentProcess := by
    rw [hp]
    rfl
  exact ⟨h.ready.goto _ (fun _ ha => nomatch ha) (fun _ ha => nomatch ha),
    (h.wait.resume hstage hb).of_eq (WaitState.ext rfl rfl (SleepRun.goto_stage _ _ _))⟩

/-! ## The timer -/

/-- The handler counts a node down that is not due. -/
theorem count (h : SleepInv s l) {a : Addr} (hticks : (s.k.sleepNodes a).ticks ≠ 1)
    (ha : a ∈ l) :
    SleepInv { s with
      k := s.k.writeSleep a fun n => { n with ticks := countDown n.ticks } } l := by
  obtain ⟨hne, hpos, hfits⟩ := h.ready.node a ha
  refine h.of_kernel rfl rfl rfl rfl (fun b _ => ?_) (sleeper_writeTicks _ _ _) fun b hb => ?_
  · rw [sleepNext_writeTicks]
  · by_cases hba : b = a
    · have hself : (s.k.writeSleep a fun n => { n with ticks := countDown n.ticks }).sleepNodes a =
          { s.k.sleepNodes a with ticks := countDown (s.k.sleepNodes a).ticks } := update_self _ _ _
      rw [hba, hself, countDown_eq hpos hfits]
      exact ⟨hne, by simp only; omega, by simp only; omega⟩
    · have hother : (s.k.writeSleep a fun n => { n with ticks := countDown n.ticks }).sleepNodes b =
          s.k.sleepNodes b := update_of_ne hba _ _
      rw [hother]
      exact h.ready.sleepNode hb


/-- The process of a node in the list is before or past its block. -/
theorem sleeper_point (h : SleepInv s l) {a : Addr} (ha : a ∈ l) :
    s.point (s.k.sleeper a) = .linked a ∨ s.point (s.k.sleeper a) = .yielding := by
  obtain ⟨p, hp⟩ := h.wait.owner (s.k.sleeper a) (List.mem_map_of_mem ha)
  have hpa : s.k.sleeper a = p := SleepPoint.ticket_eq hp
  rw [hpa] at hp ⊢
  cases hpt : s.point p <;> simp only [sleepView, hpt] at hp <;> try cases hp
  · next b =>
    obtain ⟨hb, hsleeper⟩ := h.ready.linked p b hpt
    have hab : b = a := List.inj_on_of_nodup_map h.ready.sleepers hb ha (hsleeper.trans hpa.symm)
    exact Or.inl (congrArg SleepPoint.linked hab)
  · exact Or.inr rfl

/-- The handler takes a node out of the list whose process is past its block, and wakes
the process up. -/
theorem expire (h : SleepInv s l) {done rest : List Addr} {prev a : Addr}
    (hl : l = done ++ a :: rest) (hprev : Behind done prev)
    (hlinked : ∀ p, s.point p ≠ .linked a) (f : Nat → Nat) {k₁ k₂ : Kernel}
    (hk₁ : k₁ = s.k.writeSleep a fun n => { n with ticks := f n.ticks })
    (hk₂ : k₂ = k₁.unlinkSleepProcess prev a) :
    SleepInv ⟨storePage { k₂ with
        processes := Procs.unblockProcess k₂.processes (k₂.sleeper a) } a, s.point⟩
      (done ++ rest) := by
  have ha : a ∈ l := by
    rw [hl]
    exact List.mem_append_right _ List.mem_cons_self
  have hsub : ∀ b ∈ done ++ rest, b ∈ l ∧ b ≠ a := by
    have hnodup := h.ready.nodup
    rw [hl] at hnodup ⊢
    intro b hb
    have hmid := (List.nodup_middle.mp hnodup)
    refine ⟨?_, ?_⟩
    · rcases List.mem_append.mp hb with hb | hb
      · exact List.mem_append_left _ hb
      · exact List.mem_append_right _ (List.mem_cons_of_mem _ hb)
    · rintro rfl
      exact (List.nodup_cons.mp hmid).1 hb
  have hnext₁ : k₁.sleepNext = s.k.sleepNext := hk₁ ▸ sleepNext_writeTicks _ _ _
  have hsleeper₁ : k₁.sleeper = s.k.sleeper := hk₁ ▸ sleeper_writeTicks _ _ _
  have hnodes₁ : ∀ b, b ≠ a → k₁.sleepNodes b = s.k.sleepNodes b := fun b hb => by
    rw [hk₁]
    exact update_of_ne hb _ _
  have hwalk : Walk k₂.sleepNext k₂.sleepingProcesses (done ++ rest) null := by
    rw [hk₂]
    refine unlinkSleepProcess_walk ?_ (hl ▸ h.ready.null_not_mem) hprev
    rw [hnext₁, hk₁]
    exact hl ▸ h.ready.walk
  obtain ⟨nodes, first, hunlink, hsame, -⟩ := unlinkSleepProcess_spec k₁ prev a
  have hk : k₂ = { s.k with sleepNodes := nodes, sleepingProcesses := first } := by
    rw [hk₂, hunlink, hk₁]
    rfl
  have hsleeper : k₂.sleeper = s.k.sleeper := by
    rw [← hsleeper₁]
    funext b
    rw [hk]
    exact (hsame b).1
  have hnode : ∀ b, SleepNode (s.k.sleepNodes b) → b ≠ a → SleepNode (nodes b) := by
    intro b hb hne
    obtain ⟨hp, ht⟩ := hsame b
    rw [hnodes₁ b hne] at hp ht
    exact ⟨hp ▸ hb.ne_null, ht ▸ hb.pos, ht ▸ hb.fits⟩
  have hyield := (h.sleeper_point ha).resolve_left (hlinked _)
  have hnull := (h.ready.node a ha).ne_null
  rw [hsleeper]
  have hprocs : k₂.processes = s.k.processes := by rw [hk]
  rw [hprocs]
  have hblocked := Procs.isBlockedProcess_unblock hnull (h.ready.alive (s.k.sleeper a))
  have hmap : (l.map s.k.sleeper).Perm (s.k.sleeper a :: (done ++ rest).map s.k.sleeper) := by
    rw [hl]
    exact List.perm_middle.map s.k.sleeper
  have hnodup := (hmap.nodup_iff.mp h.ready.sleepers)
  rw [List.nodup_cons] at hnodup
  have hne : ∀ p b, (s.point p).fresh = some b → b ≠ a := by
    rintro p b hp rfl
    exact h.ready.apart p b hp ha
  refine ⟨⟨?_, fun p hdel => ?_, hwalk, ?_, ?_, fun p b hp hb => h.ready.apart p b hp (hsub b hb).1,
    h.ready.unique, fun p b hp => ?_, fun b hb => ?_, fun p b hp => ?_⟩, ?_⟩
  · rw [hk]
    exact h.ready.running
  · exact h.ready.alive p (Procs.unblockProcess_delete_iff.mp hdel)
  · show ((done ++ rest).map k₂.sleeper).Nodup
    rw [hsleeper]
    exact hnodup.2
  · show (k₂.pages.storePage a).PagesOk _
    rw [hk]
    refine (h.ready.pages.storePage (Or.inl ha)).mono ?_
    rintro b (hb | ⟨p, hp⟩)
    · exact ⟨Or.inl (hsub b hb).1, (hsub b hb).2⟩
    · exact ⟨Or.inr ⟨p, hp⟩, hne p b hp⟩
  · show k₂.sleeper b = p ∧ SleepNode (k₂.sleepNodes b)
    obtain ⟨hb, hn⟩ := h.ready.fresh p b hp
    rw [hsleeper, hk]
    exact ⟨hb, hnode b hn (hne p b hp)⟩
  · show SleepNode (k₂.sleepNodes b)
    rw [hk]
    exact hnode b (h.ready.node b (hsub b hb).1) (hsub b hb).2
  · show b ∈ done ++ rest ∧ k₂.sleeper b = p
    obtain ⟨hb, he⟩ := h.ready.linked p b hp
    rw [hsleeper]
    refine ⟨?_, he⟩
    rw [hl] at hb
    rcases List.mem_append.mp hb with hb | hb
    · exact List.mem_append_left _ hb
    · rcases List.mem_cons.mp hb with rfl | hb
      · exact absurd hp (hlinked p)
      · exact List.mem_append_right _ hb
  · have hstage : (s.point (s.k.sleeper a)).stage (s.k.sleeper a) =
        .waiting (s.k.sleeper a) := by
      rw [hyield]
      rfl
    refine (h.wait.wake hstage).of_eq (WaitState.ext ?_ hblocked rfl)
    ext p
    show p ∈ (done ++ rest).map k₂.sleeper ↔ p ∈ l.map s.k.sleeper ∧ p ≠ s.k.sleeper a
    rw [hsleeper, hmap.mem_iff, List.mem_cons]
    constructor
    · intro hp
      refine ⟨Or.inr hp, ?_⟩
      rintro rfl
      exact hnodup.1 hp
    · rintro ⟨hp | hp, hne⟩
      · exact absurd hp hne
      · exact hp

/-- The loop of the handler, from the node `a` on.  The nodes `done` are behind it. -/
theorem timerLoop {fuel : Nat} {done rest : List Addr} {prev a : Addr}
    (h : SleepInv s (done ++ rest)) (hprev : Behind done prev)
    (hwalk : Walk s.k.sleepNext a rest null)
    (hg : ∀ p b, s.point p = .linked b → b ∈ rest → (s.k.sleepNodes b).ticks ≠ 1) :
    (∀ k, s.k.timerLoop fuel prev a = some k → ∃ l', SleepInv { s with k } l') ∧
      (rest.length < fuel → (s.k.timerLoop fuel prev a).isSome) := by
  induction fuel generalizing s done rest prev a with
  | zero => exact ⟨(fun k hk => nomatch hk), fun hlen => absurd hlen (Nat.not_lt_zero _)⟩
  | succ fuel ih =>
      rw [Kernel.timerLoop]
      cases rest with
      | nil =>
          rw [if_pos (Walk.nil_iff.mp hwalk)]
          refine ⟨fun k hk => ?_, fun _ => rfl⟩
          cases hk
          exact ⟨_, h⟩
      | cons b rest =>
          obtain ⟨rfl, hwalk⟩ := hwalk
          have ha : a ∈ done ++ a :: rest := List.mem_append_right _ List.mem_cons_self
          have hnull : a ≠ null := (h.ready.isPage ha).ne_null
          have hnodup := h.ready.nodup
          have harest : a ∉ rest :=
            (List.nodup_cons.mp (List.nodup_append.mp hnodup).2.1).1
          rw [if_neg hnull]
          obtain ⟨k₁, hk₁⟩ : ∃ k₁, k₁ = s.k.writeSleep a fun n =>
            { n with ticks := countDown n.ticks } := ⟨_, rfl⟩
          obtain ⟨-, hpos, hfits⟩ := h.ready.node a ha
          have hself : (k₁.sleepNodes a).ticks = (s.k.sleepNodes a).ticks - 1 := by
            rw [← countDown_eq hpos hfits, hk₁]
            simp only [writeSleep, update_self]
          have hother : ∀ b, b ≠ a → k₁.sleepNodes b = s.k.sleepNodes b := fun b hb => by
            rw [hk₁]
            exact update_of_ne hb _ _
          have hnext₁ : k₁.sleepNext = s.k.sleepNext := hk₁ ▸ sleepNext_writeTicks _ _ _
          rw [← hk₁]
          simp only [hself]
          split
          next hzero =>
            have hdue : (s.k.sleepNodes a).ticks = 1 := by omega
            obtain ⟨k₂, hk₂⟩ : ∃ k₂, k₂ = k₁.unlinkSleepProcess prev a := ⟨_, rfl⟩
            have hnext := h.expire rfl hprev
              (fun p hp => hg p a hp List.mem_cons_self hdue) _ hk₁ hk₂
            have hprevrest : prev ∉ a :: rest := hprev.notMem hnodup fun hm =>
              h.ready.null_not_mem (List.mem_append_right _ hm)
            obtain ⟨nodes, first, hunlink, hsame, hkept⟩ := unlinkSleepProcess_spec k₁ prev a
            have hnext₂ : ∀ b ∈ a :: rest, k₂.sleepNext b = s.k.sleepNext b := by
              intro b hb
              have hne : b ≠ prev := by
                rintro rfl
                exact hprevrest hb
              rw [← hnext₁, hk₂, hunlink]
              exact congrArg SleepProcess.next (hkept b hne)
            rw [← hk₂]
            have hloop := ih (a := k₂.sleepNext a) hnext hprev ?_ fun p b hp hb => ?_
            · exact ⟨hloop.1, fun hlen => hloop.2 (Nat.lt_of_succ_lt_succ hlen)⟩
            · rw [hnext₂ a List.mem_cons_self]
              exact hwalk.congr fun b hb => hnext₂ b (List.mem_cons_of_mem _ hb)
            · have hne : b ≠ a := by
                rintro rfl
                exact harest hb
              show (k₂.sleepNodes b).ticks ≠ 1
              rw [hk₂, hunlink]
              show (nodes b).ticks ≠ 1
              rw [(hsame b).2, hother b hne]
              exact hg p b hp (List.mem_cons_of_mem _ hb)
          next hmore =>
            have hnext := h.count (fun hdue => hmore (by omega)) ha
            rw [← hk₁] at hnext
            rw [List.append_cons] at hnext
            have hbehind : Behind (done ++ [a]) a := Or.inr ⟨done, rfl⟩
            have hloop := ih (a := k₁.sleepNext a) hnext hbehind ?_ fun p b hp hb => ?_
            · exact ⟨hloop.1, fun hlen => hloop.2 (Nat.lt_of_succ_lt_succ hlen)⟩
            · rw [hnext₁]
              exact hwalk
            · have hne : b ≠ a := by
                rintro rfl
                exact harest hb
              show (k₁.sleepNodes b).ticks ≠ 1
              rw [hother b hne]
              exact hg p b hp (List.mem_cons_of_mem _ hb)

/-- The handler, when no process is due that has not blocked itself yet. -/
theorem timerHandler {fuel : Nat} (h : SleepInv s l) (hg : TicksBlocked s (.tick fuel)) :
    (∀ k, s.k.timerHandler fuel = some k → ∃ l', SleepInv { s with k } l') ∧
      (l.length < fuel → (s.k.timerHandler fuel).isSome) :=
  have hbehind : Behind [] null := Or.inl ⟨rfl, rfl⟩
  timerLoop (by exact h) hbehind h.ready.walk fun p b hp _ => hg p b hp

/-! ## One step -/

theorem dispatch {node : Addr} (h : SleepInv s l) (hready : s.k.Dispatchable node) :
    SleepInv { s with k := { s.k with current := node } } l where
  ready := { h.ready with running := fun hnull => hready.1 fun hne => absurd hnull hne }
  wait := h.wait

/-- The status of a process outside `sleep` changes. -/
theorem status {call : StatusCall} {p : Addr} (h : SleepInv s l) (hp : s.point p = .idle)
    (hcall : call ≠ .kill) : SleepInv { s with k := s.k.applyStatus call p } l := by
  obtain ⟨st, he, hst⟩ := call.apply_eq s.k.processes p
  have hprocs : (s.k.applyStatus call p).processes = s.k.processes.setSt p st := he
  constructor
  · refine { h.ready with alive := fun q => ?_ }
    rw [hprocs]
    by_cases hq : q = p
    · rw [hq, Procs.setSt_st_self]
      exact hst hcall (h.ready.alive p)
    · rw [Procs.setSt_of_ne hq]
      exact h.ready.alive q
  · refine h.wait.reblock fun q hq => ?_
    have hqp : q ≠ p := by
      rintro rfl
      simp only [sleepView, hp] at hq
      exact hq rfl
    unfold Procs.isBlockedProcess
    rw [hprocs, Procs.setSt_of_ne hqp]
    rfl

/-- The next statement of the running process. -/
theorem advance (h : SleepInv s l) (hg : TicksBlocked s .advance) (ha : sleepAdvance s = some t) :
    ∃ l', SleepInv t l' := by
  unfold sleepAdvance at ha
  cases hp : s.point s.k.getCurrentProcess with
  | idle => simp only [hp, reduceCtorEq] at ha
  | entered ticks pos fits =>
      simp only [hp, Option.some.injEq] at ha
      exact ⟨_, ha ▸ h.assign hp⟩
  | creating ticks pos fits =>
      simp only [hp] at ha
      obtain ⟨⟨a, k⟩, hc, rfl⟩ := Option.map_eq_some_iff.mp ha
      exact ⟨_, h.create hp hc⟩
  | created a =>
      simp only [hp, Option.some.injEq] at ha
      exact ⟨_, ha ▸ h.link hp⟩
  | linking a =>
      simp only [hp, Option.some.injEq] at ha
      exact ⟨_, ha ▸ h.head hp (hg a hp)⟩
  | linked a =>
      simp only [hp, Option.some.injEq] at ha
      exact ⟨_, ha ▸ h.block hp⟩
  | yielding =>
      simp only [hp] at ha
      split at ha
      next => cases ha
      next hb =>
        cases ha
        exact ⟨_, h.resume hp hb⟩

/-- Every guarded step keeps the invariant. -/
theorem next {a : SleepAction} (h : SleepInv s l) (hg : TicksBlocked s a)
    (hn : sleepSystem.next s a = some t) : ∃ l', SleepInv t l' := by
  cases a with
  | dispatch node =>
      simp only [sleepSystem] at hn
      split at hn
      next hready =>
        cases hn
        exact ⟨_, h.dispatch hready⟩
      next => cases hn
  | sleep milliseconds =>
      simp only [sleepSystem] at hn
      split at hn
      next hp =>
        split at hn
        next =>
          cases hn
          exact ⟨_, h.goto _ (fun a ha => nomatch ha) (by rw [hp]; rfl) rfl⟩
        next => cases hn
      next => cases hn
  | advance => exact h.advance hg hn
  | tick fuel =>
      obtain ⟨k, hk, rfl⟩ := Option.map_eq_some_iff.mp hn
      exact (h.timerHandler hg).1 k hk
  | status call p =>
      simp only [sleepSystem] at hn
      split at hn
      next hp =>
        split at hn
        next => cases hn
        next hcall =>
          cases hn
          exact ⟨_, h.status hp hcall⟩
      next => cases hn

theorem of_init (h : sleepSystem.init s) : SleepInv s [] := by
  obtain ⟨hhead, hpages, halive, hrun, hidle⟩ := h
  have hfresh : ∀ p a, (s.point p).fresh ≠ some a := by
    intro p a ha
    rw [hidle p] at ha
    cases ha
  refine ⟨⟨hrun, halive, hhead, List.nodup_nil, hpages.mono ?_, fun p a ha => absurd ha (hfresh p a),
    fun p q a ha => absurd ha (hfresh p a), fun p a ha => absurd ha (hfresh p a),
    fun a ha => absurd ha List.not_mem_nil, fun p a ha => ?_⟩, WaitInv.start (fun p => ?_) ?_⟩
  · rintro a (ha | ⟨p, ha⟩)
    · exact absurd ha List.not_mem_nil
    · exact absurd ha (hfresh p a)
  · rw [hidle p] at ha
    cases ha
  · simp only [sleepView, hidle p]
    rfl
  · simp only [sleepView, List.map_nil, List.not_mem_nil]
    rfl

theorem of_reachBy (h : sleepSystem.ReachBy TicksBlocked s) : ∃ l, SleepInv s l := by
  refine h.invariant (I := fun s => ∃ l, SleepInv s l) (fun _ hs => ⟨[], of_init hs⟩) ?_
  rintro s a t ⟨l, hi⟩ hg hn
  exact hi.next hg hn

end SleepInv

/-! ## What holds in every state -/

/-- The process is blocked in `sleep`. -/
def Sleeps (s : SleepRun) (p : Addr) : Prop :=
  s.point p = .yielding ∧ s.k.processes.isBlockedProcess p

/-- `l` are the nodes of the list, and nobody is stranded. -/
structure SleepOk (s : SleepRun) (l : List Addr) : Prop where
  /-- Following the links from the head goes through `l` to `NULL`. -/
  walk : Walk s.k.sleepNext s.k.sleepingProcesses l null
  nodup : l.Nodup
  /-- Who sleeps has exactly one node, with at least one tick to go. -/
  sleeps : ∀ p, Sleeps s p → ∃ a ∈ l, s.k.sleeper a = p ∧ 1 ≤ (s.k.sleepNodes a).ticks ∧
    ∀ b ∈ l, s.k.sleeper b = p → b = a
  /-- A node is on a page that is handed out. -/
  allocated : ∀ a ∈ l, IsPage a ∧ a ∉ s.k.pages.free
  /-- The process of a node is before its block, or it sleeps. -/
  notWoken : ∀ a ∈ l, s.point (s.k.sleeper a) = .linked a ∨ Sleeps s (s.k.sleeper a)
  /-- A tick that keeps the condition comes to its end. -/
  returns : ∀ fuel, l.length < fuel → TicksBlocked s (.tick fuel) →
    (sleepSystem.next s (.tick fuel)).isSome

/-- The list, in every state a run of guarded steps reaches. -/
theorem sleep_list (h : sleepSystem.ReachBy TicksBlocked s) : ∃ l, SleepOk s l := by
  obtain ⟨l, hi⟩ := SleepInv.of_reachBy h
  refine ⟨l, hi.ready.walk, hi.ready.nodup, fun p hp => ?_, fun a ha => ⟨hi.ready.isPage ha,
    hi.ready.pages.notFree a (Or.inl ha)⟩, fun a ha => ?_, fun fuel hlen hg => ?_⟩
  · have hstage : (s.point p).stage p = .waiting p := by
      rw [hp.1]
      rfl
    obtain ⟨a, ha, he⟩ := List.mem_map.mp (hi.wait.ticket_mem hstage hp.2)
    refine ⟨a, ha, he, (hi.ready.node a ha).pos, fun b hb hbe => ?_⟩
    exact List.inj_on_of_nodup_map hi.ready.sleepers hb ha (hbe.trans he.symm)
  · rcases hi.sleeper_point ha with hp | hp
    · exact Or.inl hp
    · refine Or.inr ⟨hp, (hi.wait.waiting (s.k.sleeper a) (s.k.sleeper a) ?_).mp
        (List.mem_map_of_mem ha)⟩
      simp only [sleepView, hp]
      rfl
  · have hsome := (hi.timerHandler hg).2 hlen
    simpa only [sleepSystem, Option.isSome_map] using hsome

/-- Two processes before the first call of `sleep`. -/
def awake : SleepRun where
  k := twoProcesses
  point _ := .idle

theorem init_awake : sleepSystem.init awake := by
  refine ⟨rfl, PageStack.initial_pagesOk, fun p => ?_, by decide +kernel, fun _ => rfl⟩
  show (Process.zero).st ≠ .delete
  decide

/-- A test for the guard: no tick, and the head is what was read. -/
def readsHead (s : SleepRun) : SleepAction → Bool
  | .tick _ => false
  | .advance =>
      match s.point s.k.getCurrentProcess with
      | .linking a => s.k.sleepNext a = s.k.sleepingProcesses
      | _ => true
  | _ => true

theorem ticksBlocked_of_readsHead (s : SleepRun) (a : SleepAction) (h : readsHead s a) :
    TicksBlocked s a := by
  cases a with
  | tick fuel => cases h
  | advance =>
      intro b hp
      simp only [readsHead, hp] at h
      exact of_decide_eq_true h
  | _ => trivial

/-- Both processes sleep. -/
def asleep : Option SleepRun :=
  sleepSystem.executeBy readsHead awake
    [.sleep 110, .advance, .advance, .advance, .advance, .advance, .dispatch 2, .sleep 55,
      .advance, .advance, .advance, .advance, .advance]

/-- The list with two processes that sleep. -/
theorem sleep_list_asleep : ∃ l, SleepOk (asleep.get (by decide +kernel)) l :=
  sleep_list
    ((System.ReachBy.init init_awake).execute ticksBlocked_of_readsHead (Option.some_get _).symm)

/-- A tick between the link and the block leaves the process blocked with no node. -/
theorem sleep_stranded : ¬∀ s, sleepSystem.Reach s → ∃ l, SleepOk s l := by
  intro hall
  obtain ⟨t, ht, hf⟩ := System.exists_reach_of_execute init_awake
    [.sleep 55, .advance, .advance, .advance, .advance, .tick 2, .advance]
    (fun t => (match t.point 10 with | .yielding => true | _ => false) &&
      decide (t.k.processes.isBlockedProcess 10) && decide (t.k.sleepingProcesses = null))
    (by decide +kernel)
  simp only [Bool.and_eq_true, decide_eq_true_eq] at hf
  obtain ⟨⟨hp, hb⟩, hempty⟩ := hf
  have hyield : t.point 10 = .yielding := by
    split at hp
    next he => exact he
    next => cases hp
  obtain ⟨l, hl⟩ := hall t ht
  have hnil : l = [] := by
    cases l with
    | nil => rfl
    | cons a l =>
        have ha : null = a := hempty.symm.trans hl.walk.1
        exact absurd ha.symm (hl.allocated a List.mem_cons_self).1.ne_null
  obtain ⟨a, ha, -⟩ := hl.sleeps 10 ⟨hyield, hb⟩
  rw [hnil] at ha
  exact absurd ha List.not_mem_nil

end Kernel

end TPE
