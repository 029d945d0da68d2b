import TPE.Library.Alarms
import TPE.Library.Runs
import TPE.Kernel.AllocatorRuns
import TPE.Kernel.Timer

/-!
# How long a process sleeps

Any number of processes sleep, and a call of `sleep` and a tick are one step each.  Then a call
is an alarm that is due after as many ticks as the call asks for.  The list of `timer.c` is the
list of the pending alarms, and the counter of a node is what is left of its alarm.

The counters have no sign.  The handler tests for `ticks <= 0`, which is right because a counter
in the list is never 0 before it is counted down.
-/

namespace TPE

open Function

/-- A process that sleeps, and the page of its node. -/
structure Nap where
  p : Addr
  page : Addr
deriving DecidableEq

/-- The pages of the nodes. -/
def napPages (l : List (Alarm Nap)) : List Addr := l.map fun x => x.item.page

/-- The processes that sleep. -/
def nappers (l : List (Alarm Nap)) : List Addr := l.map fun x => x.item.p

@[simp] theorem napPages_append (l l' : List (Alarm Nap)) :
    napPages (l ++ l') = napPages l ++ napPages l' := List.map_append

namespace Kernel

/-- `sleep` up to the switch to another process. -/
def sleep (k : Kernel) (milliseconds : Nat) : Option (Int × Kernel) :=
  if waitTicks milliseconds = 0 then some (0, k)
  else
    (k.assignQuantum.createSleepProcess (waitTicks milliseconds)).map fun (a, k) =>
      let k := (k.linkSleepProcess a).headSleepProcess a
      let k := { k with processes := Procs.blockProcess k.processes (k.sleeper a) }
      (1, k.yieldQuantum)

/-- The kernel, the calls of `sleep` as alarms, and the pages of the rest of the kernel. -/
structure NapRun where
  k : Kernel
  clock : AlarmClock Nap
  others : List Addr

/-- What can happen in one step. -/
inductive NapAction where
  /-- The scheduler dispatches the process of a node. -/
  | dispatch (node : Addr)
  /-- The running process calls `sleep`. -/
  | sleep (milliseconds : Nat)
  /-- The timer interrupt: `timer_handler`, with fuel for its loop. -/
  | tick (fuel : Nat)
  /-- The status of a process that does not sleep changes. -/
  | status (call : StatusCall) (p : Addr)
  /-- The rest of the kernel takes a page. -/
  | take
  /-- The rest of the kernel gives a page back. -/
  | give (a : Addr)

/-- Processes that sleep.  None is killed. -/
def napSystem : System NapRun NapAction where
  init s := s.k.sleepingProcesses = null ∧
    s.k.pages = PageStack.initializeMemoryAllocator ⟨fun _ => 0, 0⟩ ∧
    (∀ p, (s.k.processes p).st ≠ .delete) ∧ s.k.getCurrentProcess ≠ null ∧
    s.clock = ⟨0, []⟩ ∧ s.others = []
  next
    | s, .dispatch node =>
        if s.k.Dispatchable node then some { s with k := { s.k with current := node } } else none
    | s, .sleep milliseconds =>
        if milliseconds < 2 ^ 64 ∧ s.k.getCurrentProcess ∉ nappers s.clock.pending then
          (s.k.sleep milliseconds).map fun (_, k) =>
            { s with
              k
              clock := if waitTicks milliseconds = 0 then s.clock
                else s.clock.set ⟨s.k.getCurrentProcess, k.sleepingProcesses⟩
                  (waitTicks milliseconds) }
        else none
    | s, .tick fuel => (timerHandler fuel s.k).map fun k => { s with k, clock := s.clock.tick }
    | s, .status call p =>
        if call = .kill ∨ p ∈ nappers s.clock.pending then none
        else some { s with k := s.k.applyStatus call p }
    | s, .take => s.k.getPage.map fun (a, k) => { s with k, others := a :: s.others }
    | s, .give a =>
        if a ∈ s.others then some { s with k := s.k.storePage a, others := s.others.erase a }
        else none

/-- A tick of the timer. -/
def NapAction.isTick : NapAction → Bool
  | .tick _ => true
  | _ => false

/-- The node of an alarm has its process and the given ticks. -/
structure HoldsNap (k : Kernel) (x : Alarm Nap) (ticks : Nat) : Prop where
  sleeper : k.sleeper x.item.page = x.item.p
  ticks_eq : (k.sleepNodes x.item.page).ticks = ticks
  pos : 0 < ticks
  fits : ticks < 2 ^ 64

/-- The list holds the pending alarms, and their processes are blocked.  A tick unblocks the
processes whose alarms ring, and no other ones, and gives back the pages of their nodes.  No page
is lost and none is given back twice. -/
structure NapsOk (s : NapRun) : Prop where
  list : Walk s.k.sleepNext s.k.sleepingProcesses (napPages s.clock.pending) null
  node : ∀ x ∈ s.clock.pending, HoldsNap s.k x (s.clock.remaining x)
  sleepers : (nappers s.clock.pending).Nodup
  blocked : ∀ p ∈ nappers s.clock.pending, s.k.processes.isBlockedProcess p
  tick : ∃ k', (∀ fuel, timerHandler fuel s.k =
      if s.clock.pending.length < fuel then some k' else none) ∧
    (∀ p, k'.processes.isBlockedProcess p ↔
      s.k.processes.isBlockedProcess p ∧ p ∉ nappers s.clock.ringing) ∧
    k'.pages.free = (napPages s.clock.ringing).reverse ++ s.k.pages.free
  pages : Pool.Conserves dataPages ⟨s.k.pages.free, napPages s.clock.pending ++ s.others⟩

/-- The process `p` sleeps for `ticks` ticks: it is blocked before the last of them, whatever
happens, and not blocked after it. -/
def SleepsFor (s : NapRun) (p : Addr) (ticks : Nat) : Prop :=
  ∀ as t, napSystem.execute s as = some t →
    (as.countP NapAction.isTick < ticks → t.k.processes.isBlockedProcess p) ∧
    (as.countP NapAction.isTick + 1 = ticks → ∀ fuel u, napSystem.next t (.tick fuel) = some u →
      ¬u.k.processes.isBlockedProcess p)

/-! ## Pages -/

variable {k k' : Kernel} {a prev : Addr} {x : Alarm Nap} {now ticks : Nat}
  {done rest l : List (Alarm Nap)}

/-- Pages that are handed out are given back one after the other. -/
theorem free_storePages {s : PageStack} {ps qs : List Addr}
    (h : Pool.Conserves dataPages ⟨s.free, ps ++ qs⟩) :
    (ps.foldl PageStack.storePage s).free = ps.reverse ++ s.free := by
  induction ps generalizing s with
  | nil => rfl
  | cons a ps ih =>
      have hle : s.currentIndex ≤ stackSize := by
        have hlt := s.currentIndex.toNat_lt
        have hsize : stackSize.toNat = 255 := rfl
        rw [UInt8.le_iff_toNat_le]
        omega
      have hpos : 0 < s.currentIndex := by
        have hcount := h.length_eq
        have hfree := PageStack.length_free hle
        have hall : dataPages.length = stackSize.toNat := by simp [dataPages]
        rw [List.cons_append, List.length_cons] at hcount
        rw [UInt8.lt_iff_toNat_lt]
        show 0 < s.currentIndex.toNat
        omega
      have hstore : (s.storePage a).free = a :: s.free :=
        PageStack.free_storePage (isPage_of_mem_dataPages (h.mem_all List.mem_cons_self)) hpos
      have hnext : Pool.Conserves dataPages ⟨(s.storePage a).free, ps ++ qs⟩ := by
        have hgive := h.give List.mem_cons_self
        rw [List.cons_append, List.erase_cons_head] at hgive
        rw [hstore]
        exact hgive
      rw [List.foldl_cons, ih hnext, hstore, List.reverse_cons, List.append_assoc]
      rfl

/-- They are free then. -/
theorem conserves_storePages {s : PageStack} {ps qs : List Addr}
    (h : Pool.Conserves dataPages ⟨s.free, ps ++ qs⟩) :
    Pool.Conserves dataPages ⟨(ps.foldl PageStack.storePage s).free, qs⟩ := by
  rw [free_storePages h]
  refine List.Perm.trans ?_ h
  show (ps.reverse ++ s.free ++ qs).Perm (s.free ++ (ps ++ qs))
  rw [← List.append_assoc]
  exact ((List.perm_append_comm.trans ((List.reverse_perm ps).append_left s.free))).append_right qs

/-! ## A tick -/

/-- In the middle of a tick: the nodes `done` are counted down already. -/
structure Ticking (k : Kernel) (now : Nat) (done rest : List (Alarm Nap)) : Prop where
  walk : Walk k.sleepNext k.sleepingProcesses (napPages (done ++ rest)) null
  notNull : null ∉ napPages (done ++ rest)
  done : ∀ x ∈ done, HoldsNap k x (x.due - (now + 1))
  rest : ∀ x ∈ rest, HoldsNap k x (x.due - now)

/-- What a tick does besides counting: it wakes up the processes of `rung` and gives their pages
back. -/
structure Woken (k : Kernel) (rung : List (Alarm Nap)) (k' : Kernel) : Prop where
  processes : k'.processes = (nappers rung).foldl Procs.unblockProcess k.processes
  pages : k'.pages = (napPages rung).foldl PageStack.storePage k.pages
  current : k'.getCurrentProcess = k.getCurrentProcess

theorem HoldsNap.congr (h : HoldsNap k x ticks)
    (hsame : (k'.sleepNodes x.item.page).p = (k.sleepNodes x.item.page).p ∧
      (k'.sleepNodes x.item.page).ticks = (k.sleepNodes x.item.page).ticks) : HoldsNap k' x ticks :=
  ⟨hsame.1.trans h.sleeper, hsame.2.trans h.ticks_eq, h.pos, h.fits⟩

/-- The counter of a node is counted down. -/
theorem HoldsNap.tickNode (h : HoldsNap k x ticks) (hlast : ticks ≠ 1) :
    HoldsNap (k.tickNode x.item.page) x (ticks - 1) := by
  have hpos := h.pos
  have hfits := h.fits
  refine ⟨?_, ?_, by omega, by omega⟩
  · show ((k.tickNode x.item.page).sleepNodes x.item.page).p = x.item.p
    rw [tickNode_self]
    exact h.sleeper
  · rw [tickNode_self, ← countDown_eq hpos hfits, ← h.ticks_eq]

/-- The counter reaches 0 exactly if the node is due. -/
theorem HoldsNap.tickNode_zero (h : HoldsNap k x (x.due - now)) :
    ((k.tickNode x.item.page).sleepNodes x.item.page).ticks = 0 ↔ x.due = now + 1 := by
  have hpos := h.pos
  rw [tickNode_self]
  show countDown (k.sleepNodes x.item.page).ticks = 0 ↔ _
  rw [h.ticks_eq, countDown_eq h.pos h.fits]
  omega

/-- What two parts of a tick do. -/
theorem Woken.append {k₁ : Kernel} {rung rung' : List (Alarm Nap)} (h : Woken k rung k₁)
    (h' : Woken k₁ rung' k') : Woken k (rung ++ rung') k' := by
  refine ⟨?_, ?_, h'.current.trans h.current⟩
  · rw [h'.processes, h.processes, nappers, nappers, nappers, List.map_append, List.foldl_append]
  · rw [h'.pages, h.pages, napPages_append, List.foldl_append]

namespace Ticking

theorem nodup (h : Ticking k now done (x :: rest)) :
    x.item.page ∉ napPages done ∧ x.item.page ∉ napPages rest := by
  have hnodup := h.walk.nodup h.notNull
  rw [napPages_append, napPages, napPages, List.map_cons, List.perm_middle.nodup_iff,
    List.nodup_cons, List.mem_append, not_or] at hnodup
  exact hnodup.1

/-- The counter of a node that is not due. -/
theorem count (h : Ticking k now done (x :: rest)) (hdue : x.due ≠ now + 1) :
    Ticking (k.tickNode x.item.page) now (done ++ [x]) rest := by
  obtain ⟨hdone, hrest⟩ := h.nodup
  have hx := h.rest x List.mem_cons_self
  have hpos := hx.pos
  have hother : ∀ y : Alarm Nap, y.item.page ≠ x.item.page →
      (k.tickNode x.item.page).sleepNodes y.item.page = k.sleepNodes y.item.page :=
    fun y hy => update_of_ne hy _ _
  have hkeep : ∀ (y : Alarm Nap) (n : Nat), y.item.page ≠ x.item.page → HoldsNap k y n →
      HoldsNap (k.tickNode x.item.page) y n := by
    intro y n hy hold
    refine hold.congr ?_
    rw [hother y hy]
    exact ⟨rfl, rfl⟩
  constructor
  · rw [sleepNext_tickNode, List.append_assoc]
    exact h.walk
  · rw [List.append_assoc]
    exact h.notNull
  · intro y hy
    rcases List.mem_append.mp hy with hy | hy
    · refine hkeep y _ ?_ (h.done y hy)
      exact fun he => hdone (he ▸ List.mem_map_of_mem hy)
    · obtain rfl := List.mem_singleton.mp hy
      have hless := hx.tickNode (by omega)
      rwa [Nat.sub_sub] at hless
  · intro y hy
    refine hkeep y _ ?_ (h.rest y (List.mem_cons_of_mem x hy))
    exact fun he => hrest (he ▸ List.mem_map_of_mem hy)

/-- A node that is due is unlinked, its process is woken up and its page given back. -/
theorem wake (h : Ticking k now done (x :: rest)) (hprev : Behind (napPages done) prev) :
    Ticking ((k.wokenUp prev x.item.page).storePage x.item.page) now done rest := by
  obtain ⟨hdone, hrest⟩ := h.nodup
  have hwalk := h.walk
  have hnull := h.notNull
  rw [napPages_append] at hwalk hnull
  obtain ⟨nodes, head, he, hsame, -⟩ := unlinkSleepProcess_spec (k.tickNode x.item.page) prev
    x.item.page
  have hkeep : ∀ (y : Alarm Nap) (n : Nat), y.item.page ≠ x.item.page → HoldsNap k y n →
      HoldsNap ((k.wokenUp prev x.item.page).storePage x.item.page) y n := by
    intro y n hy hold
    refine hold.congr ?_
    have hy' : (k.tickNode x.item.page).sleepNodes y.item.page = k.sleepNodes y.item.page :=
      update_of_ne hy _ _
    rw [← hy']
    show (((k.tickNode _).unlinkSleepProcess prev _).sleepNodes y.item.page).p = _ ∧
      (((k.tickNode _).unlinkSleepProcess prev _).sleepNodes y.item.page).ticks = _
    rw [he]
    exact hsame y.item.page
  constructor
  · rw [napPages_append]
    exact wokenUp_walk hwalk hnull hprev
  · intro hm
    rw [napPages_append, List.mem_append] at hm
    refine hnull (List.mem_append.mpr (hm.imp_right fun hm => List.mem_cons_of_mem _ hm))
  · intro y hy
    refine hkeep y _ ?_ (h.done y hy)
    exact fun he => hdone (he ▸ List.mem_map_of_mem hy)
  · intro y hy
    refine hkeep y _ ?_ (h.rest y (List.mem_cons_of_mem x hy))
    exact fun he => hrest (he ▸ List.mem_map_of_mem hy)

/-- The process of a node that is due is unblocked. -/
theorem woken (h : Ticking k now done (x :: rest)) :
    Woken k [x] ((k.wokenUp prev x.item.page).storePage x.item.page) := by
  have hx := h.rest x List.mem_cons_self
  obtain ⟨nodes, head, he, hsame, -⟩ := unlinkSleepProcess_spec (k.tickNode x.item.page) prev
    x.item.page
  have hp : (nodes x.item.page).p = x.item.p := by
    rw [(hsame x.item.page).1, tickNode_self]
    exact hx.sleeper
  unfold wokenUp
  rw [he]
  refine ⟨?_, rfl, rfl⟩
  show Procs.unblockProcess k.processes (nodes x.item.page).p = _
  rw [hp]
  rfl

/-- The loop ends with any fuel that is enough. -/
theorem timerLoop {a : Addr} (h : Ticking k now done rest) (hprev : Behind (napPages done) prev)
    (hwalk : Walk k.sleepNext a (napPages rest) null) :
    ∃ k', (∀ fuel, Kernel.timerLoop fuel k prev a =
        if rest.length < fuel then some k' else none) ∧
      Ticking k' now (done ++ rest.filter fun x => ¬x.due = now + 1) [] ∧
      Woken k (rest.filter fun x => x.due = now + 1) k' := by
  induction rest generalizing k done prev a with
  | nil =>
      have he : a = null := hwalk
      rw [← List.append_nil done] at h
      refine ⟨k, fun fuel => ?_, h, rfl, rfl, rfl⟩
      cases fuel with
      | zero => rfl
      | succ fuel =>
          rw [timerLoop_succ, if_pos he]
          rfl
  | cons x rest ih =>
      obtain ⟨he, hrest⟩ := hwalk
      obtain rfl : a = x.item.page := he
      have hx := h.rest x List.mem_cons_self
      have hnull := h.notNull
      rw [napPages_append] at hnull
      have hne : x.item.page ≠ null := fun he =>
        hnull (List.mem_append_right _ (he ▸ List.mem_cons_self))
      have hzero := hx.tickNode_zero
      have hfuel : ∀ fuel, (rest.length < fuel) = ((x :: rest).length < fuel + 1) := by
        intro fuel
        rw [List.length_cons, Nat.add_lt_add_iff_right]
      by_cases hdue : x.due = now + 1
      · have hwalk := h.walk
        rw [napPages_append] at hwalk
        have hprev' : prev ∉ napPages rest := fun hm =>
          hprev.notMem (hwalk.nodup hnull) (fun hm => hnull (List.mem_append_right _ hm))
            (List.mem_cons_of_mem _ hm)
        obtain ⟨k', hloop, hticking, hwoken⟩ :=
          ih (h.wake hprev) hprev (wokenUp_rest hrest hprev')
        rw [List.filter_cons_of_neg (by simpa using hdue),
          List.filter_cons_of_pos (by simpa using hdue)]
        refine ⟨k', fun fuel => ?_, hticking, h.woken.append hwoken⟩
        cases fuel with
        | zero => rfl
        | succ fuel =>
            rw [timerLoop_succ, if_neg hne, if_pos (hzero.mpr hdue), hloop fuel]
            simp only [hfuel]
      · have hbehind : Behind (napPages (done ++ [x])) x.item.page :=
          Or.inr ⟨napPages done, napPages_append done [x]⟩
        have hahead : Walk (k.tickNode x.item.page).sleepNext
            ((k.tickNode x.item.page).sleepNext x.item.page) (napPages rest) null := by
          rw [sleepNext_tickNode]
          exact hrest
        obtain ⟨k', hloop, hticking, hwoken⟩ := ih (h.count hdue) hbehind hahead
        rw [List.filter_cons_of_pos (by simpa using hdue),
          List.filter_cons_of_neg (by simpa using hdue)]
        refine ⟨k', fun fuel => ?_, ?_, hwoken.processes, hwoken.pages, hwoken.current⟩
        · cases fuel with
          | zero => rfl
          | succ fuel =>
              rw [timerLoop_succ, if_neg hne, if_neg (hzero.not.mpr hdue), hloop fuel]
              simp only [hfuel]
        · rwa [List.append_assoc] at hticking

end Ticking

/-! ## A call -/

/-- What a call does that sleeps. -/
structure FellAsleep (k : Kernel) (ticks : Nat) (a : Addr) (k' : Kernel) : Prop where
  getPage : k.pages.getPage = some (a, k'.pages)
  head : k'.sleepingProcesses = a
  node : k'.sleepNodes a = ⟨k.getCurrentProcess, ticks, k.sleepingProcesses⟩
  others : ∀ b, b ≠ a → k'.sleepNodes b = k.sleepNodes b
  current : k'.getCurrentProcess = k.getCurrentProcess
  processes : k'.processes = Procs.blockProcess k.processes k.getCurrentProcess

theorem sleep_spec {milliseconds : Nat} {r : Int} (hwait : waitTicks milliseconds ≠ 0)
    (h : k.sleep milliseconds = some (r, k')) :
    ∃ a, FellAsleep k (waitTicks milliseconds) a k' := by
  unfold sleep at h
  rw [if_neg hwait] at h
  obtain ⟨⟨a, k₁⟩, hcreate, he⟩ := Option.map_eq_some_iff.mp h
  obtain ⟨hpages, hself, hother, hhead, hcurrent, hprocs⟩ := createSleepProcess_spec hcreate
  have hassign : k.assignQuantum.getCurrentProcess = k.getCurrentProcess :=
    congrFun k.procOf_assignQuantum k.current
  have hlinked : (k₁.linkSleepProcess a).sleepNodes a =
      { k₁.sleepNodes a with next := k₁.sleepingProcesses } := update_self _ _ _
  have hsleeper : ((k₁.linkSleepProcess a).headSleepProcess a).sleeper a = k.getCurrentProcess := by
    show ((k₁.linkSleepProcess a).sleepNodes a).p = _
    rw [hlinked, hself]
    exact hassign
  cases he
  refine ⟨a, hpages, rfl, ?_, fun b hb => ?_, ?_, ?_⟩
  · show (k₁.linkSleepProcess a).sleepNodes a = _
    rw [hlinked, hself, hhead, hassign]
    rfl
  · show (k₁.linkSleepProcess a).sleepNodes b = _
    exact (update_of_ne hb _ _).trans (hother b hb)
  · exact (congrFun (procOf_yieldQuantum _) k₁.current).trans (hcurrent.trans hassign)
  · show Procs.blockProcess k₁.processes _ = _
    rw [hsleeper, hprocs]
    rfl

/-- The new node is in front of the others. -/
theorem Ticking.push {a : Addr} (h : Ticking k now [] l) (hpos : 0 < ticks) (hfits : ticks < 2 ^ 64)
    (hnull : a ≠ null) (hfresh : a ∉ napPages l) (hsleep : FellAsleep k ticks a k') :
    Ticking k' now [] (⟨⟨k.getCurrentProcess, a⟩, now + ticks⟩ :: l) := by
  constructor
  · refine ⟨hsleep.head, ?_⟩
    have hnext : k'.sleepNext k'.sleepingProcesses = k.sleepingProcesses := by
      rw [hsleep.head, sleepNext, hsleep.node]
    rw [hnext]
    refine h.walk.congr fun b hb => ?_
    have hb' : b ≠ a := fun he => hfresh (he ▸ hb)
    rw [sleepNext, hsleep.others b hb']
    rfl
  · intro hm
    rcases List.mem_cons.mp hm with hm | hm
    · exact hnull hm.symm
    · exact h.notNull hm
  · exact fun x hx => absurd hx List.not_mem_nil
  · intro x hx
    rcases List.mem_cons.mp hx with rfl | hx
    · show HoldsNap k' _ (now + ticks - now)
      rw [Nat.add_sub_cancel_left]
      refine ⟨?_, ?_, hpos, hfits⟩
      · exact congrArg SleepProcess.p hsleep.node
      · exact congrArg SleepProcess.ticks hsleep.node
    · refine (h.rest x hx).congr ?_
      have hx' : x.item.page ≠ a := fun he => hfresh (he ▸ List.mem_map_of_mem hx)
      rw [hsleep.others x.item.page hx']
      exact ⟨rfl, rfl⟩

/-! ## Runs -/

/-- Processes are unblocked one after the other. -/
theorem isBlockedProcess_unblocked {procs : Procs} {ps : List Addr} (hnull : null ∉ ps)
    (halive : ∀ p, (procs p).st ≠ .delete) (p : Addr) :
    Procs.isBlockedProcess (ps.foldl Procs.unblockProcess procs) p ↔
      procs.isBlockedProcess p ∧ p ∉ ps := by
  induction ps generalizing procs with
  | nil => simp
  | cons q ps ih =>
      rw [List.mem_cons, not_or] at hnull
      have hnext : ∀ p, (procs.unblockProcess q p).st ≠ .delete := fun p hdel =>
        halive p (Procs.unblockProcess_delete_iff.mp hdel)
      rw [List.foldl_cons, ih hnull.2 hnext,
        Procs.isBlockedProcess_unblock (Ne.symm hnull.1) (halive q), List.mem_cons, not_or]
      by_cases hpq : p = q
      · subst hpq
        simp
      · simp [hpq]

theorem alive_unblocked {procs : Procs} (ps : List Addr) (halive : ∀ p, (procs p).st ≠ .delete) :
    ∀ p, (ps.foldl Procs.unblockProcess procs p).st ≠ .delete := by
  induction ps generalizing procs with
  | nil => exact halive
  | cons q ps ih =>
      exact ih fun p hdel => halive p (Procs.unblockProcess_delete_iff.mp hdel)

/-- The invariant of the runs. -/
structure NapInv (s : NapRun) : Prop where
  running : s.k.getCurrentProcess ≠ null
  alive : ∀ p, (s.k.processes p).st ≠ .delete
  ticking : Ticking s.k s.clock.now [] s.clock.pending
  sleepers : (nappers s.clock.pending).Nodup
  notNull : null ∉ nappers s.clock.pending
  blocked : ∀ p ∈ nappers s.clock.pending, s.k.processes.isBlockedProcess p
  pages : Pool.Conserves dataPages ⟨s.k.pages.free, napPages s.clock.pending ++ s.others⟩

/-- Alarms are only added, and only a tick moves the clock. -/
theorem clock_next {s t : NapRun} {act : NapAction} (h : napSystem.next s act = some t) :
    s.clock.log <:+ t.clock.log ∧
      t.clock.now = s.clock.now + if act.isTick then 1 else 0 := by
  cases act with
  | dispatch node =>
      simp only [napSystem] at h
      split at h <;> cases h
      exact ⟨List.suffix_refl _, rfl⟩
  | sleep milliseconds =>
      simp only [napSystem] at h
      split at h
      next =>
        obtain ⟨⟨r, k⟩, -, rfl⟩ := Option.map_eq_some_iff.mp h
        by_cases hwait : waitTicks milliseconds = 0
        · simp only [if_pos hwait]
          exact ⟨List.suffix_refl _, rfl⟩
        · simp only [if_neg hwait]
          exact ⟨List.suffix_cons _ _, rfl⟩
      next => cases h
  | tick fuel =>
      obtain ⟨k, -, rfl⟩ := Option.map_eq_some_iff.mp h
      exact ⟨List.suffix_refl _, rfl⟩
  | status call p =>
      simp only [napSystem] at h
      split at h <;> cases h
      exact ⟨List.suffix_refl _, rfl⟩
  | take =>
      obtain ⟨⟨a, k⟩, -, rfl⟩ := Option.map_eq_some_iff.mp h
      exact ⟨List.suffix_refl _, rfl⟩
  | give a =>
      simp only [napSystem] at h
      split at h <;> cases h
      exact ⟨List.suffix_refl _, rfl⟩

theorem clock_execute {s t : NapRun} {as : List NapAction} (h : napSystem.execute s as = some t) :
    s.clock.log <:+ t.clock.log ∧ t.clock.now = s.clock.now + as.countP NapAction.isTick := by
  induction as generalizing s with
  | nil =>
      cases h
      exact ⟨List.suffix_refl _, rfl⟩
  | cons act as ih =>
      obtain ⟨u, hu, h⟩ := Option.bind_eq_some_iff.mp h
      obtain ⟨hlog, hnow⟩ := clock_next hu
      obtain ⟨hlog', hnow'⟩ := ih h
      refine ⟨hlog.trans hlog', ?_⟩
      rw [hnow', hnow, List.countP_cons]
      omega

namespace NapInv

variable {s t : NapRun}

theorem of_init (h : napSystem.init s) : NapInv s := by
  obtain ⟨hhead, hpages, halive, hrunning, hclock, hothers⟩ := h
  have hpending : s.clock.pending = [] := by
    rw [hclock]
    rfl
  refine ⟨hrunning, halive, ?_, ?_, ?_, ?_, ?_⟩ <;> rw [hpending]
  · exact ⟨hhead, List.not_mem_nil, fun x hx => absurd hx List.not_mem_nil,
      fun x hx => absurd hx List.not_mem_nil⟩
  · exact List.nodup_nil
  · exact List.not_mem_nil
  · exact fun p hp => absurd hp List.not_mem_nil
  · rw [hpages, hothers]
    exact AllocInv.conserves_initial

/-- The kernel changes in nothing that the list is made of. -/
theorem of_kernel {others : List Addr} (h : NapInv s) (hrunning : k.getCurrentProcess ≠ null)
    (halive : ∀ p, (k.processes p).st ≠ .delete) (hnodes : k.sleepNodes = s.k.sleepNodes)
    (hhead : k.sleepingProcesses = s.k.sleepingProcesses)
    (hblocked : ∀ p ∈ nappers s.clock.pending, k.processes.isBlockedProcess p)
    (hpages : Pool.Conserves dataPages ⟨k.pages.free, napPages s.clock.pending ++ others⟩) :
    NapInv { s with k, others } := by
  refine ⟨hrunning, halive, ?_, h.sleepers, h.notNull, hblocked, hpages⟩
  have hnext : k.sleepNext = s.k.sleepNext := by
    funext a
    rw [sleepNext, hnodes]
    rfl
  constructor
  · show Walk k.sleepNext k.sleepingProcesses _ null
    rw [hnext, hhead]
    exact h.ticking.walk
  · exact h.ticking.notNull
  · exact fun x hx => absurd hx List.not_mem_nil
  · intro x hx
    refine (h.ticking.rest x hx).congr ?_
    rw [hnodes]
    exact ⟨rfl, rfl⟩

/-- A process that is dispatched is not blocked, so there is one. -/
theorem dispatch (h : NapInv s) {node : Addr} (hnode : s.k.Dispatchable node) :
    NapInv { s with k := { s.k with current := node } } := by
  refine h.of_kernel ?_ h.alive rfl rfl h.blocked h.pages
  intro hnull
  exact hnode.1 fun hne => absurd hnull hne

theorem status (h : NapInv s) {call : StatusCall} {p : Addr} (hcall : call ≠ .kill)
    (hp : p ∉ nappers s.clock.pending) : NapInv { s with k := s.k.applyStatus call p } := by
  obtain ⟨st, he, hst⟩ := call.apply_eq s.k.processes p
  refine h.of_kernel h.running (fun q => ?_) rfl rfl (fun q hq => ?_) h.pages
  · show (call.apply s.k.processes p q).st ≠ .delete
    rw [he]
    by_cases hqp : q = p
    · subst hqp
      rw [Procs.setSt_st_self]
      exact hst hcall (h.alive q)
    · rw [Procs.setSt_of_ne hqp]
      exact h.alive q
  · have hqp : q ≠ p := fun hqp => hp (hqp ▸ hq)
    have hold := h.blocked q hq
    show (call.apply s.k.processes p).isBlockedProcess q
    unfold Procs.isBlockedProcess at *
    rwa [he, Procs.setSt_of_ne hqp]

theorem take (h : NapInv s) {a : Addr} (hget : s.k.getPage = some (a, k)) :
    NapInv { s with k, others := a :: s.others } := by
  obtain ⟨pages, hp, rfl⟩ := getPage_eq_some hget
  have hpool := h.pages
  rw [PageStack.free_of_getPage hp] at hpool
  refine h.of_kernel h.running h.alive rfl rfl h.blocked ?_
  exact (List.perm_middle.append_left pages.free).trans hpool.take

theorem give (h : NapInv s) {a : Addr} (ha : a ∈ s.others) :
    NapInv { s with k := s.k.storePage a, others := s.others.erase a } := by
  refine h.of_kernel h.running h.alive rfl rfl h.blocked ?_
  have hperm : (a :: (napPages s.clock.pending ++ s.others.erase a)).Perm
      (napPages s.clock.pending ++ s.others) :=
    List.perm_middle.symm.trans ((List.perm_cons_erase ha).symm.append_left _)
  have hpool : Pool.Conserves dataPages
      ⟨s.k.pages.free, [a] ++ (napPages s.clock.pending ++ s.others.erase a)⟩ :=
    (hperm.append_left s.k.pages.free).trans h.pages
  have hgiven := conserves_storePages hpool
  exact hgiven

/-- A process falls asleep. -/
theorem fallAsleep (h : NapInv s) {a : Addr} (hpos : 0 < ticks) (hfits : ticks < 2 ^ 64)
    (hout : s.k.getCurrentProcess ∉ nappers s.clock.pending)
    (hsleep : FellAsleep s.k ticks a k) :
    NapInv { s with k, clock := s.clock.set ⟨s.k.getCurrentProcess, a⟩ ticks } := by
  have hpool := h.pages
  rw [PageStack.free_of_getPage hsleep.getPage] at hpool
  have hpage := isPage_of_mem_dataPages (hpool.take.mem_all List.mem_cons_self)
  have hfresh : a ∉ napPages s.clock.pending := fun hm =>
    hpool.fresh nodup_dataPages List.mem_cons_self (List.mem_append_left _ hm)
  have hblock := Procs.isBlockedProcess_block h.running (h.alive s.k.getCurrentProcess)
  constructor
  · show k.getCurrentProcess ≠ null
    rw [hsleep.current]
    exact h.running
  · intro p hdel
    rw [hsleep.processes] at hdel
    exact h.alive p (Procs.blockProcess_delete_iff.mp hdel)
  · rw [AlarmClock.pending_set hpos]
    exact h.ticking.push hpos hfits hpage.ne_null hfresh hsleep
  · rw [AlarmClock.pending_set hpos]
    exact List.nodup_cons.mpr ⟨hout, h.sleepers⟩
  · rw [AlarmClock.pending_set hpos]
    intro hm
    rcases List.mem_cons.mp hm with hm | hm
    · exact h.running hm.symm
    · exact h.notNull hm
  · rw [AlarmClock.pending_set hpos]
    intro p hp
    show k.processes.isBlockedProcess p
    rw [hsleep.processes, hblock]
    rcases List.mem_cons.mp hp with rfl | hp
    · rw [update_self]
      trivial
    · have hother : p ≠ s.k.getCurrentProcess := fun he => hout (he ▸ hp)
      rw [update_of_ne hother]
      exact h.blocked p hp
  · rw [AlarmClock.pending_set hpos]
    exact hpool.take

/-- The pages of the nodes, with those of the alarms that ring first. -/
theorem pages_ringing (h : NapInv s) : Pool.Conserves dataPages ⟨s.k.pages.free,
    napPages s.clock.ringing ++ (napPages s.clock.tick.pending ++ s.others)⟩ := by
  refine List.Perm.trans (List.Perm.append_left s.k.pages.free ?_) h.pages
  rw [← List.append_assoc, ← napPages_append]
  exact (AlarmClock.pending_perm.map fun x : Alarm Nap => x.item.page).append_right s.others

/-- The handler, with any fuel that is enough. -/
theorem tick (h : NapInv s) :
    ∃ k', (∀ fuel, timerHandler fuel s.k =
        if s.clock.pending.length < fuel then some k' else none) ∧
      Woken s.k s.clock.ringing k' ∧ NapInv { s with k := k', clock := s.clock.tick } := by
  obtain ⟨k', hloop, hticking, hwoken⟩ :=
    h.ticking.timerLoop (Or.inl ⟨rfl, rfl⟩) h.ticking.walk
  have hwoken : Woken s.k s.clock.ringing k' := hwoken
  have hnappers : (nappers s.clock.ringing ++ nappers s.clock.tick.pending).Perm
      (nappers s.clock.pending) := by
    have hmap := (AlarmClock.pending_perm (c := s.clock)).map fun x => x.item.p
    rwa [List.map_append] at hmap
  have hnull : null ∉ nappers s.clock.ringing := fun hm =>
    h.notNull (hnappers.mem_iff.mp (List.mem_append_left _ hm))
  obtain ⟨-, hsleepers, hapart⟩ := List.nodup_append.mp (hnappers.nodup_iff.mpr h.sleepers)
  refine ⟨k', hloop, hwoken, ?_, ?_, ?_, hsleepers, ?_, ?_, ?_⟩
  · show k'.getCurrentProcess ≠ null
    rw [hwoken.current]
    exact h.running
  · show ∀ p, (k'.processes p).st ≠ .delete
    rw [hwoken.processes]
    exact alive_unblocked _ h.alive
  · rw [AlarmClock.pending_tick]
    obtain ⟨hwalk, hnotNull, hdone, -⟩ := hticking
    rw [List.append_nil] at hwalk hnotNull
    exact ⟨hwalk, hnotNull, fun x hx => absurd hx List.not_mem_nil, hdone⟩
  · exact fun hm => h.notNull (hnappers.mem_iff.mp (List.mem_append_right _ hm))
  · intro p hp
    show k'.processes.isBlockedProcess p
    rw [hwoken.processes, isBlockedProcess_unblocked hnull h.alive]
    refine ⟨h.blocked p (hnappers.mem_iff.mp (List.mem_append_right _ hp)), fun hrung => ?_⟩
    exact hapart p hrung p hp rfl
  · show Pool.Conserves dataPages ⟨k'.pages.free, napPages s.clock.tick.pending ++ s.others⟩
    rw [hwoken.pages]
    exact conserves_storePages h.pages_ringing

theorem next {act : NapAction} (h : NapInv s) (hn : napSystem.next s act = some t) : NapInv t := by
  cases act with
  | dispatch node =>
      simp only [napSystem] at hn
      split at hn
      next hnode =>
        cases hn
        exact h.dispatch hnode
      next => cases hn
  | sleep milliseconds =>
      simp only [napSystem] at hn
      split at hn
      next hcall =>
        obtain ⟨⟨r, k⟩, hsleep, rfl⟩ := Option.map_eq_some_iff.mp hn
        by_cases hwait : waitTicks milliseconds = 0
        · rw [sleep, if_pos hwait] at hsleep
          cases hsleep
          simp only [if_pos hwait]
          exact h
        · obtain ⟨a, hasleep⟩ := sleep_spec hwait hsleep
          simp only [if_neg hwait, hasleep.head]
          have hfits : waitTicks milliseconds < 2 ^ 64 := (Nat.div_le_self _ _).trans_lt hcall.1
          exact h.fallAsleep (Nat.pos_of_ne_zero hwait) hfits hcall.2 hasleep
      next => cases hn
  | tick fuel =>
      obtain ⟨k', hloop, -, hinv⟩ := h.tick
      obtain ⟨k, hk, rfl⟩ := Option.map_eq_some_iff.mp hn
      rw [hloop fuel] at hk
      split at hk
      next =>
        cases hk
        exact hinv
      next => cases hk
  | status call p =>
      simp only [napSystem] at hn
      split at hn
      next => cases hn
      next hcall =>
        cases hn
        rw [not_or] at hcall
        exact h.status hcall.1 hcall.2
  | take =>
      obtain ⟨⟨a, k⟩, hget, rfl⟩ := Option.map_eq_some_iff.mp hn
      exact h.take hget
  | give a =>
      simp only [napSystem] at hn
      split at hn
      next ha =>
        cases hn
        exact h.give ha
      next => cases hn

theorem of_reach (h : napSystem.Reach s) : NapInv s :=
  h.invariant (fun _ hs => of_init hs) fun _ _ _ hi _ hn => hi.next hn

theorem execute {as : List NapAction} (h : NapInv s) (he : napSystem.execute s as = some t) :
    NapInv t := by
  induction as generalizing s with
  | nil =>
      cases he
      exact h
  | cons act as ih =>
      obtain ⟨u, hu, he⟩ := Option.bind_eq_some_iff.mp he
      exact ih (h.next hu) he

theorem not_blocked (h : NapInv s) (hwoken : Woken s.k s.clock.ringing k) (p : Addr) :
    k.processes.isBlockedProcess p ↔
      s.k.processes.isBlockedProcess p ∧ p ∉ nappers s.clock.ringing := by
  rw [hwoken.processes]
  refine isBlockedProcess_unblocked (fun hm => h.notNull ?_) h.alive p
  obtain ⟨x, hx, he⟩ := List.mem_map.mp hm
  exact List.mem_map.mpr ⟨x, (AlarmClock.mem_ringing.mp hx).1, he⟩

theorem napsOk (h : NapInv s) : NapsOk s := by
  obtain ⟨k', hloop, hwoken, -⟩ := h.tick
  refine ⟨h.ticking.walk, h.ticking.rest, h.sleepers, h.blocked,
    ⟨k', hloop, h.not_blocked hwoken, ?_⟩, h.pages⟩
  rw [hwoken.pages]
  exact free_storePages h.pages_ringing

/-- An alarm is pending before the tick it is due at, and rings then. -/
theorem sleepsFor (h : NapInv s) (hx : x ∈ s.clock.log) :
    SleepsFor s x.item.p (s.clock.remaining x) := by
  intro as t he
  have ht := h.execute he
  obtain ⟨hlog, hnow⟩ := clock_execute he
  have hkept : x ∈ t.clock.log := hlog.subset hx
  have hremaining : s.clock.remaining x = x.due - s.clock.now := rfl
  refine ⟨fun hbefore => ?_, fun hlast fuel u hu => ?_⟩
  · have hpending : x ∈ t.clock.pending := AlarmClock.mem_pending.mpr ⟨hkept, by omega⟩
    exact ht.blocked x.item.p (List.mem_map_of_mem hpending)
  · have hringing : x ∈ t.clock.ringing :=
      AlarmClock.mem_ringing.mpr ⟨AlarmClock.mem_pending.mpr ⟨hkept, by omega⟩, by omega⟩
    obtain ⟨k', hloop, hwoken, -⟩ := ht.tick
    obtain ⟨k, hk, rfl⟩ := Option.map_eq_some_iff.mp hu
    rw [hloop fuel] at hk
    split at hk
    next =>
      cases hk
      intro hb
      exact ((ht.not_blocked hwoken x.item.p).mp hb).2 (List.mem_map_of_mem hringing)
    next => cases hk

end NapInv

/-- A call that sleeps sets the alarm of its process. -/
theorem sleep_log {s t : NapRun} {milliseconds : Nat} (hwait : waitTicks milliseconds ≠ 0)
    (h : napSystem.next s (.sleep milliseconds) = some t) :
    ∃ x ∈ t.clock.log, x.item.p = s.k.getCurrentProcess ∧
      t.clock.remaining x = waitTicks milliseconds := by
  simp only [napSystem] at h
  split at h
  next =>
    obtain ⟨⟨r, k⟩, -, rfl⟩ := Option.map_eq_some_iff.mp h
    exact ⟨_, List.mem_cons_self, rfl, Nat.add_sub_cancel_left _ _⟩
  next => cases h

/-- The list of the sleeping processes, and how long each of them sleeps. -/
theorem sleep_durations {s : NapRun} (h : napSystem.Reach s) :
    NapsOk s ∧ ∀ milliseconds t, napSystem.next s (.sleep milliseconds) = some t →
      waitTicks milliseconds ≠ 0 →
        SleepsFor t s.k.getCurrentProcess (waitTicks milliseconds) := by
  have hinv := NapInv.of_reach h
  refine ⟨hinv.napsOk, fun milliseconds t hn hwait => ?_⟩
  obtain ⟨x, hx, hp, hticks⟩ := sleep_log hwait hn
  rw [← hp, ← hticks]
  exact (hinv.next hn).sleepsFor hx

/-- Two processes that are awake. -/
def napStarted : NapRun := ⟨twoProcesses, ⟨0, []⟩, []⟩

theorem init_napStarted : napSystem.init napStarted := by
  refine ⟨rfl, rfl, fun p hdel => ?_, by decide, rfl, rfl⟩
  cases hdel

/-- The first process sleeps for two ticks and the other one from then on for one, so that both
alarms ring at one tick. -/
def napping : Option NapRun :=
  napSystem.execute napStarted [.sleep 110, .tick 2, .dispatch 2, .sleep 55]

/-- After the first of these calls. -/
def drowsy : Option NapRun := napSystem.next napStarted (.sleep 110)

theorem sleep_durations_napping : NapsOk (napping.get (by decide +kernel)) ∧
    SleepsFor (drowsy.get (by decide +kernel)) 10 2 :=
  ⟨(sleep_durations (.execute (.start init_napStarted) (Option.some_get _).symm)).1,
    (sleep_durations (.start init_napStarted)).2 110 _ (Option.some_get _).symm (by decide)⟩

end Kernel

end TPE
