import Mathlib.Data.List.Perm.Subperm
import TPE.Kernel.SchedulerRing

/-!
# Runs of the scheduler

The scheduler started with the ring of `init` alone and then driven by the
calls of the running process, by ticks and by changes of status.

A state also carries the processes that were added and not yet destroyed.
`RingOk` says what holds of a state: its nodes form one cycle with one node
for each of these processes, and what every call makes of that cycle.
-/

namespace TPE

open Function

namespace Kernel

variable {k k' : Kernel} {n0 p0 : Addr} {held : List Addr}

/-- The nodes form one cycle.  The list starts with `n0` and goes round once. -/
structure IsRing (k : Kernel) (n0 : Addr) (ring : List Addr) : Prop where
  first : ring.head? = some n0
  cycle : Walk k.next n0 ring n0
  nodup : ring.Nodup

/-! ## The invariant -/

/-- The ring, cut at the node of the running process. -/
structure RingInv (k : Kernel) (n0 p0 : Addr) (held pre suf : List Addr) : Prop where
  before : Walk k.next n0 pre k.current
  after : Walk k.next (k.next k.current) suf n0
  last : pre ≠ [] → pre.getLast? = some k.prev
  owned : k.Owned held (pre ++ k.current :: suf)
  init : k.procOf n0 = p0
  ready : k.Dispatchable n0
  unlocked : k.superlock = .unlocked

namespace RingInv

variable {pre suf : List Addr}

theorem current_mem (_ : k.RingInv n0 p0 held pre suf) : k.current ∈ pre ++ k.current :: suf :=
  List.mem_append_right _ List.mem_cons_self

theorem isRing (h : k.RingInv n0 p0 held pre suf) : k.IsRing n0 (pre ++ k.current :: suf) := by
  refine ⟨?_, h.before.append ⟨rfl, h.after⟩, h.owned.nodup_ring⟩
  cases pre with
  | nil => exact congrArg some h.before.symm
  | cons x pre => exact congrArg some h.before.1.symm

/-- The node of `init` comes first, so the part before any other node is not empty. -/
theorem pre_ne_nil (h : k.RingInv n0 p0 held pre suf) (hne : k.current ≠ n0) : pre ≠ [] := by
  rintro rfl
  exact hne h.before.symm

/-- `prev` is the last node of the part before the current one. -/
theorem split (h : k.RingInv n0 p0 held pre suf) (hne : k.current ≠ n0) :
    ∃ l, pre = l ++ [k.prev] ∧ Walk k.next n0 l k.prev ∧ k.next k.prev = k.current := by
  obtain ⟨l, hl⟩ := List.getLast?_eq_some_iff.mp (h.last (h.pre_ne_nil hne))
  have hb := h.before
  rw [hl, Walk.concat_iff] at hb
  exact ⟨l, hl, hb⟩

/-- The invariant is read off the links, the nodes' processes, the free pages and
the data pages, as long as `init` can be dispatched. -/
theorem congr (h : k.RingInv n0 p0 held pre suf) (hnext : k'.next = k.next)
    (hproc : k'.procOf = k.procOf) (hcur : k'.current = k.current) (hprev : k'.prev = k.prev)
    (hpages : k'.pages = k.pages)
    (hdata : ∀ p, (k'.processes p).nDataPage = (k.processes p).nDataPage)
    (hready : k'.Dispatchable n0) (hlock : k'.superlock = .unlocked) :
    k'.RingInv n0 p0 held pre suf := by
  refine ⟨?_, ?_, ?_, ?_, ?_, hready, hlock⟩
  · rw [hnext, hcur]
    exact h.before
  · rw [hnext, hcur]
    exact h.after
  · rw [hprev]
    exact h.last
  · rw [hcur]
    exact h.owned.congr (congrFun hproc) hpages hdata
  · rw [hproc]
    exact h.init

end RingInv

/-- When the loop of `set_next_current` is over, the ring is cut at the new current node. -/
theorem Walking.ringInv {pre suf : List Addr} (h : k.Walking n0 held pre suf)
    (hinit : k.procOf n0 = p0) (hlock : k.superlock = .unlocked) :
    ∃ pre' suf', pre' ++ k.current :: suf' = pre ++ suf ∧ k.RingInv n0 p0 held pre' suf' := by
  cases suf with
  | cons c suf =>
      obtain ⟨rfl, hafter⟩ := h.after
      exact ⟨pre, suf, rfl, h.before, hafter, fun _ => h.last, h.owned, hinit, h.ready, hlock⟩
  | nil =>
      -- back at the node of `init`, which heads the list
      have hcur : k.current = n0 := h.after
      cases pre with
      | nil => exact absurd h.first (by simp)
      | cons x pre =>
          obtain rfl : x = k.current := by
            rw [hcur]
            exact h.before.1.symm
          refine ⟨[], pre, by simp, hcur.symm, ?_, by simp, ?_, hinit, h.ready, hlock⟩
          · have hb := h.before.2
            rw [hcur] at hb ⊢
            exact hb
          · simpa using h.owned

/-! ## `next_process` -/

/-- The state in which `next_process` calls `set_next_current`. -/
def departed (k : Kernel) (rsp : Nat) : Kernel :=
  let k := { k.unassignQuantum with superlock := .locked }
  let k := k.writeNode k.current fun n => { n with quantum := quantum }
  let k := k.setRspProcess (k.procOf k.current) rsp
  { k with prev := k.current, current := k.next k.current }

theorem setRspProcess_spec (k : Kernel) (p : Addr) (rsp : Nat) :
    ∃ procs, k.setRspProcess p rsp = { k with processes := procs } ∧
      (∀ q, (procs q).st = (k.processes q).st) ∧
      (∀ q, (procs q).nDataPage = (k.processes q).nDataPage) ∧
      ∀ q, p ≠ null → (procs q).rsp = if q = p then rsp else (k.processes q).rsp := by
  unfold setRspProcess
  split
  · refine ⟨_, rfl, fun q => ?_, fun q => ?_, fun q _ => ?_⟩
    all_goals
      by_cases hq : q = p
      · subst hq
        simp
      · simp [hq]
  next hnull => exact ⟨k.processes, rfl, fun _ => rfl, fun _ => rfl, fun _ hp => absurd hp hnull⟩

theorem departed_spec (k : Kernel) (rsp : Nat) :
    (k.departed rsp).next = k.next ∧ (k.departed rsp).procOf = k.procOf ∧
    (k.departed rsp).current = k.next k.current ∧ (k.departed rsp).prev = k.current ∧
    (k.departed rsp).pages = k.pages ∧
    (∀ q, ((k.departed rsp).processes q).st = (k.processes q).st) ∧
    (∀ q, ((k.departed rsp).processes q).nDataPage = (k.processes q).nDataPage) ∧
    ∀ q, k.procOf k.current ≠ null → ((k.departed rsp).processes q).rsp =
      if q = k.procOf k.current then rsp else (k.processes q).rsp := by
  let k₁ : Kernel := { k.unassignQuantum with superlock := .locked }
  let k₂ : Kernel := k₁.writeNode k₁.current fun n => { n with quantum := quantum }
  have hnext : k₂.next = k.next := by
    refine (next_writeQuantum k₁ k₁.current fun _ => quantum).trans ?_
    exact k.next_unassignQuantum
  have hproc : k₂.procOf = k.procOf := by
    refine (procOf_writeQuantum k₁ k₁.current fun _ => quantum).trans ?_
    exact k.procOf_unassignQuantum
  obtain ⟨procs, he, hst, hdata, hrsp⟩ := setRspProcess_spec k₂ (k₂.procOf k₂.current) rsp
  have hdep : k.departed rsp =
      { k₂ with processes := procs, prev := k₂.current, current := k₂.next k₂.current } :=
    congrArg (fun d : Kernel => { d with prev := d.current, current := d.next d.current }) he
  rw [hdep]
  refine ⟨hnext, hproc, congrFun hnext k.current, rfl, rfl, hst, hdata, ?_⟩
  rw [hproc] at hrsp
  exact hrsp

theorem nextProcess_eq {rsp fuel : Nat} (hcur : k.current ≠ null)
    (hlock : k.superlock = .unlocked) :
    k.nextProcess fuel rsp =
      if 0 < (k.unassignQuantum.nodes k.current).quantum then
        some ⟨rsp, false, [], k.unassignQuantum⟩
      else (setNextCurrent fuel (k.departed rsp)).map fun (destroyed, k) =>
        ⟨k.getRspProcess (k.procOf k.current), true, destroyed, { k with superlock := .unlocked }⟩ := by
  have hlock' : k.unassignQuantum.superlock ≠ .locked := by
    show k.superlock ≠ .locked
    rw [hlock]
    decide
  unfold nextProcess
  rw [if_neg hcur]
  simp only [if_neg hlock']
  rfl

/-- What a walk to the next process makes of the ring: the nodes `kept` stay, of
the nodes `passed` those marked for deletion are gone, and the first of `rest`
is the new current one, or the node of `init` if it walked to the end. -/
structure Moved (k : Kernel) (n0 : Addr) (kept passed rest destroyed : List Addr)
    (k' : Kernel) : Prop where
  ring : k'.IsRing n0 (kept ++ (passed.filter fun a => ¬k.Doomed a) ++ rest)
  destroyed : destroyed = (passed.filter fun a => k.Doomed a).map k.procOf
  current : k'.current = rest.head?.getD n0
  dispatchable : k'.Dispatchable k'.current
  procOf : k'.procOf = k.procOf

theorem Walking.current_eq {pre rest : List Addr} (h : k.Walking n0 held pre rest) :
    k.current = rest.head?.getD n0 := by
  cases rest with
  | nil => exact h.after
  | cons c rest => exact h.after.1

/-- A call of `next_process` that gets past its tests. -/
structure Switches (k : Kernel) (n0 : Addr) (pre passed rest : List Addr) (rsp : Nat)
    (d : Dispatch) : Prop where
  moved : Moved k n0 (pre ++ [k.current]) passed rest d.destroyed d.k
  rsp_eq : d.rsp = if d.k.current = k.current then rsp
    else (k.processes (k.procOf d.k.current)).rsp

namespace RingInv

variable {pre suf : List Addr}

theorem current_ne_null (h : k.RingInv n0 p0 held pre suf) : k.current ≠ null :=
  (h.owned.pages.isPage _ (List.mem_append_right _ (List.mem_append_left _ h.current_mem))).ne_null

theorem departed_walking (h : k.RingInv n0 p0 held pre suf) (rsp : Nat) :
    (k.departed rsp).Walking n0 held (pre ++ [k.current]) suf := by
  obtain ⟨hnext, hproc, hcur, hprev, hpages, hst, hdata, -⟩ := departed_spec k rsp
  refine ⟨?_, ?_, ?_, ?_, ?_, ?_⟩
  · rw [hnext, hcur, Walk.concat_iff]
    exact ⟨h.before, rfl⟩
  · rw [hnext, hcur]
    exact h.after
  · have hfirst := h.isRing.first
    cases pre with
    | nil => exact hfirst
    | cons x pre => exact hfirst
  · rw [hprev, List.getLast?_concat]
  · rw [List.append_assoc]
    exact h.owned.congr (congrFun hproc) hpages hdata
  · have hready := h.ready
    unfold Dispatchable Procs.isBlockedProcess Procs.isDeleteProcess at *
    rwa [hproc, hst]

/-- One call of `next_process`, from a tick or a yield. -/
theorem nextProcess_spec (h : k.RingInv n0 p0 held pre suf) (rsp : Nat) :
    (∀ fuel, k.nextProcess fuel rsp = some ⟨rsp, false, [], k.unassignQuantum⟩) ∨
    ∃ passed rest d, suf = passed ++ rest ∧
      (∀ fuel, k.nextProcess fuel rsp = if passed.length < fuel then some d else none) ∧
      d.switched = true ∧ Switches k n0 pre passed rest rsp d ∧
      ∃ pre' suf', pre' ++ d.k.current :: suf' =
          pre ++ [k.current] ++ (passed.filter fun a => ¬k.Doomed a) ++ rest ∧
        d.k.RingInv n0 p0 held pre' suf' := by
  by_cases hq : 0 < (k.unassignQuantum.nodes k.current).quantum
  · left
    intro fuel
    rw [nextProcess_eq h.current_ne_null h.unlocked, if_pos hq]
  · right
    obtain ⟨hnext, hproc, hcur, hprev, hpages, hst, hdata, hrsp⟩ := departed_spec k rsp
    obtain ⟨passed, rest, ps, k', hsuf, hpass, hrun⟩ :=
      setNextCurrent_spec n0 suf (h.departed_walking rsp)
    have hdoomed : ∀ a, (k.departed rsp).Doomed a ↔ k.Doomed a := by
      intro a
      unfold Doomed Procs.isDeleteProcess
      rw [hproc, hst]
    have hwalk := hpass.walking
    have hdest := hpass.destroyed
    simp only [hdoomed, hproc] at hwalk hdest
    have hprocOf : k'.procOf = k.procOf := hpass.procOf_eq.trans hproc
    have hunlock : Walking { k' with superlock := .unlocked } n0 held
        (pre ++ [k.current] ++ passed.filter fun a => ¬k.Doomed a) rest :=
      ⟨hwalk.before, hwalk.after, hwalk.first, hwalk.last, hwalk.owned.congr (fun _ => rfl) rfl
        (fun _ => rfl), hwalk.ready⟩
    obtain ⟨pre', suf', hring, hinv⟩ :=
      hunlock.ringInv ((congrFun hprocOf n0).trans h.init) rfl
    refine ⟨passed, rest, ⟨k'.getRspProcess (k'.procOf k'.current), true, ps,
      { k' with superlock := .unlocked }⟩, hsuf, fun fuel => ?_, rfl, ⟨⟨?_, hdest,
        hunlock.current_eq, hpass.dispatchable, hprocOf⟩, ?_⟩, pre', suf', hring, hinv⟩
    · rw [nextProcess_eq h.current_ne_null h.unlocked, if_neg hq, hrun]
      split <;> rfl
    · have := hinv.isRing
      rwa [hring] at this
    · -- the saved stack pointer of the new process
      have hmem : k'.current ∈ pre' ++ k'.current :: suf' :=
        List.mem_append_right _ List.mem_cons_self
      have hne : k'.procOf k'.current ≠ null := hinv.owned.procOf_ne_null hmem
      have hold : k.procOf k.current ≠ null := h.owned.procOf_ne_null h.current_mem
      have hcur_mem : k.current ∈ pre ++ k.current :: suf := h.current_mem
      have hsub : k'.current ∈ pre ++ k.current :: suf := by
        rw [hring, List.append_assoc] at hmem
        rw [hsuf]
        simp only [List.mem_append, List.mem_cons, List.mem_filter] at hmem ⊢
        tauto
      show k'.getRspProcess (k'.procOf k'.current) = _
      rw [getRspProcess, if_pos hne, hpass.procs.rsp_eq, hrsp _ hold, hprocOf]
      by_cases hc : k'.current = k.current
      · rw [if_pos hc, if_pos (by rw [hc])]
      · rw [if_neg hc, if_neg]
        exact fun he => hc (List.inj_on_of_nodup_map h.owned.nodup_procs hsub hcur_mem he)

end RingInv

/-! ## `end_process` -/

/-- The state in which `end_process` calls `set_next_current`. -/
def unlinked (k : Kernel) : Kernel :=
  let k := { k with superlock := .locked }
  let k := k.destroyProcess (k.procOf k.current)
  let k := k.link k.prev (k.next k.current)
  { k with current := k.next k.current }

theorem unlinked_eq {k k₁ : Kernel}
    (h : k₁ = destroyProcess { k with superlock := .locked } (k.procOf k.current)) :
    k.unlinked = { k₁.link k₁.prev (k₁.next k₁.current) with
      current := (k₁.link k₁.prev (k₁.next k₁.current)).next k₁.current } := by
  rw [h]
  rfl

theorem unlinked_spec {k : Kernel} (hp : k.procOf k.current ≠ null)
    (hdata : (k.processes (k.procOf k.current)).nDataPage = 0) (hne : k.prev ≠ k.current) :
    k.unlinked.next = update k.next k.prev (k.next k.current) ∧
    k.unlinked.procOf = k.procOf ∧
    k.unlinked.current = k.next k.current ∧
    k.unlinked.prev = k.prev ∧
    k.unlinked.pages = k.pages.storePage (k.procOf k.current) ∧
    k.processes.MayUnblock k.unlinked.processes := by
  obtain ⟨k₁, hk₁⟩ : ∃ k₁, k₁ = destroyProcess { k with superlock := .locked }
      (k.procOf k.current) := ⟨_, rfl⟩
  have hd : Destroyed { k with superlock := .locked } (k.procOf k.current) k₁ :=
    hk₁ ▸ destroyProcess_spec hp hdata
  have hnext : k₁.next = k.next :=
    funext fun a => congrArg (fun nodes : Addr → ListNode => (nodes a).next) hd.nodes
  have hproc : k₁.procOf = k.procOf :=
    funext fun a => congrArg (fun nodes : Addr → ListNode => (nodes a).p) hd.nodes
  have hcur : k₁.current = k.current := hd.current
  have hprev : k₁.prev = k.prev := hd.prev
  have hlinked : (k₁.link k₁.prev (k₁.next k₁.current)).next =
      update k.next k.prev (k.next k.current) := by
    rw [next_link, hnext, hcur, hprev]
  rw [unlinked_eq hk₁]
  refine ⟨hlinked, (procOf_link k₁ _ _).trans hproc, ?_, hprev, hd.pages, hd.procs⟩
  show (k₁.link k₁.prev (k₁.next k₁.current)).next k₁.current = _
  rw [hlinked, hcur, update_of_ne hne.symm]

theorem endProcess_eq (fuel : Nat) (k : Kernel) :
    k.endProcess fuel = (setNextCurrent fuel k.unlinked).map fun (destroyed, k') =>
      (k.procOf k.current :: destroyed,
        assignQuantum { k' with superlock := .unlocked, pages := k'.pages.storePage k.current }) :=
  rfl

namespace RingInv

variable {pre suf : List Addr}

theorem unlinked_walking (h : k.RingInv n0 p0 held pre suf) (hne : k.current ≠ n0) :
    k.unlinked.Walking n0 (k.current :: held) pre suf ∧ k.unlinked.procOf = k.procOf ∧
      k.processes.MayUnblock k.unlinked.processes := by
  obtain ⟨l, hl, hbefore, -⟩ := h.split hne
  have hnodup := h.owned.nodup_ring
  have hprev_pre : k.prev ∈ pre := hl ▸ List.mem_append_right _ (List.mem_singleton_self _)
  have hdisjoint := (List.nodup_append.mp hnodup).2.2 k.prev hprev_pre
  have hprev_ne : k.prev ≠ k.current := hdisjoint _ List.mem_cons_self
  have hprev_suf : k.prev ∉ suf := fun hm => hdisjoint _ (List.mem_cons_of_mem _ hm) rfl
  have hprev_l : k.prev ∉ l := by
    intro hm
    rw [hl] at hnodup
    have := (List.nodup_append.mp (List.nodup_append.mp hnodup).1).2.2
    exact this _ hm _ (List.mem_singleton_self _) rfl
  obtain ⟨hnext, hproc, hcur, hprev, hpages, hprocs⟩ := unlinked_spec
    (h.owned.procOf_ne_null h.current_mem) (h.owned.noData _ h.current_mem) hprev_ne
  refine ⟨⟨?_, ?_, ?_, ?_, ?_, ?_⟩, hproc, hprocs⟩
  · rw [hnext, hcur, hl, Walk.concat_iff]
    exact ⟨hbefore.write hprev_l, update_self _ _ _⟩
  · rw [hnext, hcur]
    exact h.after.write hprev_suf
  · have hfirst := h.isRing.first
    cases pre with
    | nil => exact absurd rfl (h.pre_ne_nil hne)
    | cons x pre => exact hfirst
  · rw [hprev]
    exact h.last (h.pre_ne_nil hne)
  · exact h.owned.retire hproc hpages hprocs.nDataPage_eq
  · unfold Dispatchable
    rw [hproc, hprocs.isDeleteProcess_iff]
    exact ⟨hprocs.not_isBlockedProcess h.ready.1, h.ready.2⟩

/-- `end_process`, called by a process other than `init`. -/
theorem endProcess_spec (h : k.RingInv n0 p0 held pre suf) (hne : k.current ≠ n0) :
    ∃ passed rest ps k', suf = passed ++ rest ∧
      (∀ fuel, k.endProcess fuel = if passed.length < fuel
        then some (k.procOf k.current :: ps, k') else none) ∧
      Moved k n0 pre passed rest ps k' ∧
      ∃ pre' suf', pre' ++ k'.current :: suf' =
          pre ++ (passed.filter fun a => ¬k.Doomed a) ++ rest ∧
        k'.RingInv n0 p0 held pre' suf' := by
  obtain ⟨hwalk, hproc, hprocs⟩ := h.unlinked_walking hne
  obtain ⟨passed, rest, ps, k₁, hsuf, hpass, hrun⟩ := setNextCurrent_spec n0 suf hwalk
  have hdoomed : ∀ a, k.unlinked.Doomed a ↔ k.Doomed a := by
    intro a
    unfold Doomed
    rw [hproc, hprocs.isDeleteProcess_iff]
  have hend := hpass.walking
  have hdest := hpass.destroyed
  simp only [hdoomed, hproc] at hend hdest
  have hprocOf : k₁.procOf = k.procOf := hpass.procOf_eq.trans hproc
  let k₂ : Kernel := { k₁ with superlock := .unlocked, pages := k₁.pages.storePage k.current }
  have hnext₂ : k₂.assignQuantum.next = k₁.next := k₂.next_assignQuantum
  have hproc₂ : k₂.assignQuantum.procOf = k₁.procOf := k₂.procOf_assignQuantum
  have hready : ∀ a, k₁.Dispatchable a → k₂.assignQuantum.Dispatchable a := by
    intro a ha
    unfold Dispatchable at *
    rwa [hproc₂]
  have hwalk₂ : k₂.assignQuantum.Walking n0 held
      (pre ++ passed.filter fun a => ¬k.Doomed a) rest := by
    refine ⟨?_, ?_, hend.first, hend.last, hend.owned.release hproc₂ rfl fun _ => rfl,
      hready _ hend.ready⟩
    · rw [hnext₂]
      exact hend.before
    · rw [hnext₂]
      exact hend.after
  obtain ⟨pre', suf', hring, hinv⟩ := hwalk₂.ringInv
    ((congrFun (hproc₂.trans hprocOf) n0).trans h.init) rfl
  refine ⟨passed, rest, ps, k₂.assignQuantum, hsuf, fun fuel => ?_, ⟨?_, hdest,
    hwalk₂.current_eq, hready _ hpass.dispatchable, hproc₂.trans hprocOf⟩, pre', suf', hring, hinv⟩
  · rw [endProcess_eq, hrun]
    split <;> rfl
  · have := hinv.isRing
    rwa [hring] at this

/-! ## `sys_exec` -/

/-- The new process's node comes behind that of the running process. -/
theorem sysExec_spec (h : k.RingInv n0 p0 held pre suf) {rip : Nat} {name : CString} {p : Addr}
    (hexec : k.sysExec rip name = some (p, k')) :
    k'.current = k.current ∧ p ∉ (pre ++ k.current :: suf).map k.procOf ∧
    ∃ a, k'.procOf = update k.procOf a p ∧ a ∉ pre ++ k.current :: suf ∧
      k'.RingInv n0 p0 held pre (a :: suf) := by
  obtain ⟨⟨q, k₁⟩, hcreate, hadd⟩ := Option.bind_eq_some_iff.mp hexec
  obtain ⟨k₂, hadd, he⟩ := Option.map_eq_some_iff.mp hadd
  cases he
  have hc := createProcess_spec hcreate
  obtain ⟨a, ha⟩ := addProcess_spec hadd
  have hcur : ¬k₁.current = null := hc.current ▸ h.current_ne_null
  obtain ⟨hp_fresh, -, hpages₁⟩ := h.owned.pages.getPage hc.getPage
  obtain ⟨ha_fresh, -, hpages₂⟩ := hpages₁.getPage ha.getPage
  simp only [Set.mem_insert_iff, Set.mem_ofPred_eq, not_or] at hp_fresh ha_fresh
  obtain ⟨hne, ha_fresh⟩ := ha_fresh
  have hnext₁ : k₁.next = k.next :=
    funext fun b => congrArg (fun nodes : Addr → ListNode => (nodes b).next) hc.nodes
  have hproc₁ : k₁.procOf = k.procOf :=
    funext fun b => congrArg (fun nodes : Addr → ListNode => (nodes b).p) hc.nodes
  have hproc : k'.procOf = update k.procOf a p := hproc₁ ▸ ha.procOf
  have hnext : k'.next = update (update k.next a (k.next k.current)) k.current a := by
    rw [ha.next, if_neg hcur, hnext₁, hc.current]
  have hcurrent : k'.current = k.current := by
    rw [ha.current, if_neg hcur, hc.current]
  have ha_ring : a ∉ pre ++ k.current :: suf := fun hm =>
    ha_fresh (List.mem_append_right _ (List.mem_append_left _ hm))
  have hnodup := h.owned.nodup_ring
  have hc_pre : k.current ∉ pre := fun hm =>
    (List.nodup_append.mp hnodup).2.2 _ hm _ List.mem_cons_self rfl
  have hc_suf : k.current ∉ suf := (List.nodup_cons.mp (List.nodup_append.mp hnodup).2.1).1
  have ha_ne : a ≠ k.current := fun he => ha_ring (he ▸ h.current_mem)
  have ha_pre : a ∉ pre := fun hm => ha_ring (List.mem_append_left _ hm)
  have ha_suf : a ∉ suf := fun hm =>
    ha_ring (List.mem_append_right _ (List.mem_cons_of_mem _ hm))
  have hn0 : n0 ∈ pre ++ k.current :: suf := List.mem_of_mem_head? h.isRing.first
  have hn0_ne : n0 ≠ a := by
    rintro rfl
    exact ha_ring hn0
  have hp0_ne : k.procOf n0 ≠ p := by
    rintro rfl
    exact hp_fresh (List.mem_append_right _ (List.mem_append_right _ (List.mem_map_of_mem hn0)))
  refine ⟨hcurrent, ?_, a, hproc, ha_ring, ?_, ?_, ?_, ?_, ?_, ?_, ha.unlocked⟩
  · exact fun hm => hp_fresh (List.mem_append_right _ (List.mem_append_right _ hm))
  · rw [hnext, hcurrent]
    exact (h.before.write ha_pre).write hc_pre
  · rw [hnext, hcurrent, update_self]
    refine ⟨rfl, ?_⟩
    rw [update_of_ne ha_ne, update_self]
    exact (h.after.write ha_suf).write hc_suf
  · rw [ha.prev, if_neg hcur, hc.prev]
    exact h.last
  · have hold := h.owned
    rw [List.append_cons] at hold ha_fresh hp_fresh
    rw [hcurrent, List.append_cons]
    refine hold.insert ha_fresh hp_fresh hne hproc ?_ ?_ ?_
    · refine hpages₂.mono fun x hx => ?_
      rw [← List.append_cons] at hx
      exact hx
    · intro q hq
      rw [ha.processes, hc.others q hq]
    · rw [ha.processes, hc.noData]
  · rw [hproc, update_of_ne hn0_ne, h.init]
  · have hready := h.ready
    unfold Dispatchable Procs.isBlockedProcess Procs.isDeleteProcess at *
    rw [hproc, update_of_ne hn0_ne, ha.processes, hc.others _ hp0_ne]
    exact hready

end RingInv

/-! ## Start -/

/-- The kernel before the first process is created. -/
structure Booted (k : Kernel) : Prop where
  noCurrent : k.current = null
  pages : k.pages.PagesOk ∅

/-- The first process is alone in the ring. -/
theorem Booted.sysExec_spec (hboot : k.Booted) {rip : Nat} {name : CString} {p : Addr}
    (hexec : k.sysExec rip name = some (p, k')) :
    k'.RingInv k'.current p [] [] [] := by
  obtain ⟨⟨q, k₁⟩, hcreate, hadd⟩ := Option.bind_eq_some_iff.mp hexec
  obtain ⟨k₂, hadd, he⟩ := Option.map_eq_some_iff.mp hadd
  cases he
  have hc := createProcess_spec hcreate
  obtain ⟨a, ha⟩ := addProcess_spec hadd
  have hnull : k₁.current = null := hc.current.trans hboot.noCurrent
  obtain ⟨-, -, hpages₁⟩ := hboot.pages.getPage hc.getPage
  obtain ⟨ha_fresh, -, hpages₂⟩ := hpages₁.getPage ha.getPage
  have hne : a ≠ p := fun he => ha_fresh (he ▸ Set.mem_insert _ _)
  have hproc₁ : k₁.procOf = k.procOf :=
    funext fun b => congrArg (fun nodes : Addr → ListNode => (nodes b).p) hc.nodes
  have hproc : k'.procOf = update k.procOf a p := hproc₁ ▸ ha.procOf
  have hcurrent : k'.current = a := by rw [ha.current, if_pos hnull]
  have hproc_cur : k'.procOf k'.current = p := by rw [hproc, hcurrent, update_self]
  have hempty : k.Owned [] ([] ++ []) :=
    ⟨List.nodup_nil, hboot.pages.mono fun x hx => absurd hx List.not_mem_nil,
      fun x hx => absurd hx List.not_mem_nil⟩
  refine ⟨rfl, ?_, fun h => absurd rfl h, ?_, hproc_cur, ?_, ha.unlocked⟩
  · rw [ha.next, if_pos hnull, hcurrent, update_self]
    rfl
  · rw [hcurrent]
    refine hempty.insert List.not_mem_nil List.not_mem_nil hne hproc ?_ ?_ ?_
    · refine hpages₂.mono fun x hx => ?_
      rcases hx with hx | hx | hx
      · exact Or.inl hx
      · exact Or.inr (Or.inl hx)
      · exact absurd hx List.not_mem_nil
    · intro r hr
      rw [ha.processes, hc.others r hr]
    · rw [ha.processes, hc.noData]
  · unfold Dispatchable Procs.isBlockedProcess Procs.isDeleteProcess
    rw [hproc_cur, ha.processes, hc.ready]
    refine ⟨fun h => ?_, fun h => nomatch h.2⟩
    have hp : p ≠ null := (hpages₂.isPage p (Set.mem_insert_of_mem _ (Set.mem_insert _ _))).ne_null
    rcases h hp with h | h | h <;> cases h

/-! ## Runs -/

/-- The kernel and the processes that were added and not yet destroyed. -/
structure Sched where
  k : Kernel
  live : List Addr

/-- What the running process, the timer and the other parts of the kernel do to
the ring.  The calls that walk the ring come with the fuel of their loop. -/
inductive RingAction where
  | exec (rip : Nat) (name : CString)
  | tick (fuel rsp : Nat)
  | yield (fuel rsp : Nat)
  | finish (fuel : Nat)
  | status (call : StatusCall) (p : Addr)

/-- The scheduler, started with the process `p0` of `init`, whose pid is 0, on
the node `n0`. -/
def ringSystem (n0 p0 : Addr) : System Sched RingAction where
  init s := ∃ (k : Kernel) (rip : Nat) (name : CString), k.Booted ∧
    k.sysExec rip name = some (p0, s.k) ∧ s.k.current = n0 ∧ (s.k.processes p0).pid = 0 ∧
    s.live = [p0]
  next
    | s, .exec rip name => (s.k.sysExec rip name).map fun (p, k) => ⟨k, p :: s.live⟩
    | s, .tick fuel rsp =>
        (s.k.nextProcess fuel rsp).map fun d => ⟨d.k, s.live.diff d.destroyed⟩
    | s, .yield fuel rsp =>
        (s.k.yieldQuantum.nextProcess fuel rsp).map fun d => ⟨d.k, s.live.diff d.destroyed⟩
    | s, .finish fuel =>
        if s.k.procOf s.k.current ≠ p0 then
          (s.k.endProcess fuel).map fun (ps, k) => ⟨k, s.live.diff ps⟩
        else none
    | s, .status call p =>
        -- `init` is never blocked or marked for deletion
        if (s.k.applyStatus call p).Dispatchable n0 then some ⟨s.k.applyStatus call p, s.live⟩
        else none

/-- The ring is cut at the running process's node, and its processes are those
added and not yet destroyed. -/
def SchedInv (n0 p0 : Addr) (s : Sched) : Prop :=
  ∃ pre suf, s.k.RingInv n0 p0 [] pre suf ∧
    ((pre ++ s.k.current :: suf).map s.k.procOf).Perm s.live

/-- Taking the destroyed processes out of `live` leaves those of the new ring. -/
theorem Moved.perm_diff {kept passed rest destroyed live : List Addr}
    (h : Moved k n0 kept passed rest destroyed k')
    (hlive : ((kept ++ passed ++ rest).map k.procOf).Perm live) :
    ((kept ++ (passed.filter fun a => ¬k.Doomed a) ++ rest).map k'.procOf).Perm
      (live.diff destroyed) := by
  have hsplit : (destroyed ++
      (kept ++ (passed.filter fun a => ¬k.Doomed a) ++ rest).map k'.procOf).Perm live := by
    refine List.Perm.trans (List.perm_iff_count.mpr fun p => ?_) hlive
    have hcount := ((List.filter_append_perm (fun a => decide (k.Doomed a)) passed).map
      k.procOf).count_eq p
    rw [h.destroyed, h.procOf]
    simp only [List.map_append, List.count_append, decide_not] at hcount ⊢
    omega
  have hdiff : (destroyed ++ live.diff destroyed).Perm live :=
    List.subperm_append_diff_self_of_count_le fun x _ => by
      rw [← hsplit.count_eq, List.count_append]
      omega
  exact (List.perm_append_left_iff destroyed).mp (hsplit.trans hdiff.symm)

theorem Moved.congr {k₁ : Kernel} {kept passed rest destroyed : List Addr}
    (h : Moved k₁ n0 kept passed rest destroyed k') (hproc : k₁.procOf = k.procOf)
    (hprocs : k₁.processes = k.processes) : Moved k n0 kept passed rest destroyed k' := by
  have hdoomed : ∀ a, k₁.Doomed a ↔ k.Doomed a := by
    intro a
    unfold Doomed
    rw [hproc, hprocs]
  obtain ⟨hring, hdest, hcur, hready, hproc'⟩ := h
  simp only [hdoomed, hproc] at hring hdest hproc'
  exact ⟨hring, hdest, hcur, hready, hproc'⟩

/-- A change of status leaves the ring alone, as long as `init` can be dispatched. -/
theorem RingInv.applyStatus {pre suf : List Addr} (h : k.RingInv n0 p0 held pre suf)
    {call : StatusCall} {p : Addr} (hready : (k.applyStatus call p).Dispatchable n0) :
    (k.applyStatus call p).RingInv n0 p0 held pre suf := by
  refine h.congr rfl rfl rfl rfl rfl (fun q => ?_) hready h.unlocked
  obtain ⟨st, he, -⟩ := call.apply_eq k.processes p
  show (call.apply k.processes p q).nDataPage = _
  rw [he]
  by_cases hq : q = p
  · subst hq
    simp [Procs.setSt]
  · rw [Procs.setSt_of_ne hq]

/-- A process that goes on loses a quantum only. -/
theorem RingInv.unassignQuantum {pre suf : List Addr} (h : k.RingInv n0 p0 held pre suf) :
    k.unassignQuantum.procOf = k.procOf ∧ k.unassignQuantum.RingInv n0 p0 held pre suf := by
  have hnext := k.next_unassignQuantum
  have hproc := k.procOf_unassignQuantum
  refine ⟨hproc, h.congr hnext hproc rfl rfl rfl (fun _ => rfl) ?_ h.unlocked⟩
  have hready := h.ready
  unfold Dispatchable at *
  rwa [hproc]

/-- A yield only moves quanta before it calls `next_process`. -/
theorem RingInv.yieldQuantum {pre suf : List Addr} (h : k.RingInv n0 p0 held pre suf) :
    k.yieldQuantum.next = k.next ∧ k.yieldQuantum.procOf = k.procOf ∧
      k.yieldQuantum.RingInv n0 p0 held pre suf := by
  have hnext := k.next_yieldQuantum
  have hproc := k.procOf_yieldQuantum
  refine ⟨hnext, hproc, h.congr hnext hproc rfl rfl rfl (fun _ => rfl) ?_ h.unlocked⟩
  have hready := h.ready
  unfold Dispatchable at *
  rwa [hproc]

/-! ### One step -/

theorem schedInv_nextProcess {fuel rsp : Nat} {d : Dispatch} {k : Kernel}
    {pre suf live : List Addr} (h : k.RingInv n0 p0 [] pre suf)
    (hlive : ((pre ++ k.current :: suf).map k.procOf).Perm live)
    (hd : k.nextProcess fuel rsp = some d) : SchedInv n0 p0 ⟨d.k, live.diff d.destroyed⟩ := by
  rcases h.nextProcess_spec rsp with hstay | ⟨passed, rest, d', hsuf, hrun, -, hsw, hnew⟩
  · rw [hstay] at hd
    cases hd
    obtain ⟨hproc, hinv⟩ := h.unassignQuantum
    refine ⟨pre, suf, hinv, ?_⟩
    rw [List.diff_nil]
    show ((pre ++ k.current :: suf).map k.unassignQuantum.procOf).Perm live
    rwa [hproc]
  · rw [hrun] at hd
    split at hd
    next =>
      cases hd
      obtain ⟨pre', suf', hring, hinv⟩ := hnew
      refine ⟨pre', suf', hinv, ?_⟩
      rw [hring]
      apply hsw.moved.perm_diff
      rw [hsuf, ← List.cons_append, ← List.append_assoc, List.append_cons] at hlive
      exact hlive
    next => cases hd

theorem SchedInv.tick {s : Sched} {fuel rsp : Nat} {d : Dispatch} (h : SchedInv n0 p0 s)
    (hd : s.k.nextProcess fuel rsp = some d) : SchedInv n0 p0 ⟨d.k, s.live.diff d.destroyed⟩ := by
  obtain ⟨pre, suf, hinv, hlive⟩ := h
  exact schedInv_nextProcess hinv hlive hd

theorem SchedInv.yield {s : Sched} {fuel rsp : Nat} {d : Dispatch} (h : SchedInv n0 p0 s)
    (hd : s.k.yieldQuantum.nextProcess fuel rsp = some d) :
    SchedInv n0 p0 ⟨d.k, s.live.diff d.destroyed⟩ := by
  obtain ⟨pre, suf, hinv, hlive⟩ := h
  obtain ⟨-, hproc, hyield⟩ := hinv.yieldQuantum
  refine schedInv_nextProcess hyield ?_ hd
  rw [hproc]
  exact hlive

theorem SchedInv.finish {s : Sched} {fuel : Nat} {ps : List Addr} (h : SchedInv n0 p0 s)
    (hne : s.k.procOf s.k.current ≠ p0) (hd : s.k.endProcess fuel = some (ps, k')) :
    SchedInv n0 p0 ⟨k', s.live.diff ps⟩ := by
  obtain ⟨pre, suf, hinv, hlive⟩ := h
  have hcur : s.k.current ≠ n0 := fun he => hne (he ▸ hinv.init)
  obtain ⟨passed, rest, ps', k₁, hsuf, hrun, hmoved, pre', suf', hring, hnew⟩ :=
    hinv.endProcess_spec hcur
  rw [hrun] at hd
  split at hd
  next =>
    cases hd
    refine ⟨pre', suf', hnew, ?_⟩
    rw [hring, List.diff_cons]
    apply hmoved.perm_diff
    have hmem : s.k.procOf s.k.current ∈ s.live :=
      hlive.mem_iff.mp (List.mem_map_of_mem hinv.current_mem)
    rw [List.append_assoc, ← hsuf]
    refine (List.perm_cons (s.k.procOf s.k.current)).mp ?_
    refine List.Perm.trans ?_ (List.perm_cons_erase hmem)
    refine List.Perm.trans ?_ hlive
    rw [List.map_append, List.map_append, List.map_cons]
    exact List.perm_middle.symm
  next => cases hd

theorem SchedInv.exec {s : Sched} {rip p : Nat} {name : CString} (h : SchedInv n0 p0 s)
    (hd : s.k.sysExec rip name = some (p, k')) : SchedInv n0 p0 ⟨k', p :: s.live⟩ := by
  obtain ⟨pre, suf, hinv, hlive⟩ := h
  obtain ⟨hcur, -, a, hproc, ha, hnew⟩ := hinv.sysExec_spec hd
  refine ⟨pre, a :: suf, hnew, ?_⟩
  have hsame : (pre ++ s.k.current :: suf).map k'.procOf =
      (pre ++ s.k.current :: suf).map s.k.procOf := by
    rw [hproc]
    refine List.map_congr_left fun b hb => update_of_ne ?_ _ _
    rintro rfl
    exact ha hb
  have hperm : (pre ++ s.k.current :: a :: suf).Perm (a :: (pre ++ s.k.current :: suf)) := by
    rw [List.append_cons pre _ suf, List.append_cons pre _ (a :: suf)]
    exact List.perm_middle
  show ((pre ++ k'.current :: a :: suf).map k'.procOf).Perm (p :: s.live)
  rw [hcur]
  refine (hperm.map k'.procOf).trans ?_
  rw [List.map_cons, hsame, hproc, update_self]
  exact hlive.cons p

theorem SchedInv.status {s : Sched} {call : StatusCall} {p : Addr} (h : SchedInv n0 p0 s)
    (hready : (s.k.applyStatus call p).Dispatchable n0) :
    SchedInv n0 p0 ⟨s.k.applyStatus call p, s.live⟩ := by
  obtain ⟨pre, suf, hinv, hlive⟩ := h
  exact ⟨pre, suf, hinv.applyStatus hready, hlive⟩

/-- Every step keeps the ring. -/
theorem SchedInv.next {s t : Sched} {a : RingAction} (h : SchedInv n0 p0 s)
    (hn : (ringSystem n0 p0).next s a = some t) : SchedInv n0 p0 t := by
  cases a with
  | exec rip name =>
      obtain ⟨⟨p, k⟩, hd, rfl⟩ := Option.map_eq_some_iff.mp hn
      exact h.exec hd
  | tick fuel rsp =>
      obtain ⟨d, hd, rfl⟩ := Option.map_eq_some_iff.mp hn
      exact h.tick hd
  | yield fuel rsp =>
      obtain ⟨d, hd, rfl⟩ := Option.map_eq_some_iff.mp hn
      exact h.yield hd
  | finish fuel =>
      simp only [ringSystem] at hn
      split at hn
      next hne =>
        obtain ⟨⟨ps, k⟩, hd, rfl⟩ := Option.map_eq_some_iff.mp hn
        exact h.finish hne hd
      next => cases hn
  | status call p =>
      simp only [ringSystem] at hn
      split at hn
      next hready =>
        cases hn
        exact h.status hready
      next => cases hn

theorem schedInv_of_reach {s : Sched} (h : (ringSystem n0 p0).Reach s) : SchedInv n0 p0 s := by
  refine h.invariant ?_ fun _ _ _ hi _ hn => hi.next hn
  rintro s ⟨k, rip, name, hboot, hexec, rfl, -, hlive⟩
  have hinv := hboot.sysExec_spec hexec
  refine ⟨[], [], hinv, ?_⟩
  rw [hlive]
  show [s.k.procOf s.k.current].Perm [p0]
  rw [hinv.init]

/-! ### What every call makes of the ring -/

/-- A call that ends in `next_process(rsp)`: with enough fuel it returns.  Either
the running process goes on, or the call walked over `passed` to the new one. -/
def Dispatches (k : Kernel) (n0 : Addr) (ring : List Addr) (rsp : Nat)
    (run : Nat → Option Dispatch) : Prop :=
  ∃ d rounds, (∀ fuel, run fuel = if rounds ≤ fuel then some d else none) ∧
    (d.switched = false → d.rsp = rsp ∧ d.destroyed = [] ∧ d.k.current = k.current ∧
      d.k.IsRing n0 ring) ∧
    (d.switched = true → ∃ pre passed rest, ring = pre ++ k.current :: (passed ++ rest) ∧
      Switches k n0 pre passed rest rsp d)

/-- `end_process`: with enough fuel it gets to the next process.  It destroys
the running process and walks over `passed` to the new one. -/
def Finishes (k : Kernel) (n0 : Addr) (ring : List Addr) : Prop :=
  ∃ pre passed rest ps k' rounds, ring = pre ++ k.current :: (passed ++ rest) ∧
    (∀ fuel, k.endProcess fuel = if rounds ≤ fuel then some (k.procOf k.current :: ps, k')
      else none) ∧
    Moved k n0 pre passed rest ps k'

/-- `sys_exec` of `p`: a node for it comes behind the running process's. -/
def Executes (k : Kernel) (n0 : Addr) (ring : List Addr) (p : Addr) (k' : Kernel) : Prop :=
  k'.current = k.current ∧ p ∉ ring.map k.procOf ∧
  ∃ pre a suf, ring = pre ++ k.current :: suf ∧ k'.procOf = update k.procOf a p ∧ a ∉ ring ∧
    k'.IsRing n0 (pre ++ k.current :: a :: suf)

/-- The ring of a state, and what every call makes of it. -/
structure RingOk (n0 p0 : Addr) (s : Sched) (ring : List Addr) : Prop where
  cycle : s.k.IsRing n0 ring
  /-- Each process that was added and not yet destroyed is on exactly one node. -/
  procs : (ring.map s.k.procOf).Perm s.live
  nodup : s.live.Nodup
  current : s.k.current ∈ ring
  prev : s.k.procOf s.k.current ≠ p0 → s.k.next s.k.prev = s.k.current
  tick : ∀ rsp, Dispatches s.k n0 ring rsp fun fuel => s.k.nextProcess fuel rsp
  yield : ∀ rsp, Dispatches s.k n0 ring rsp fun fuel => s.k.yieldQuantum.nextProcess fuel rsp
  finish : s.k.procOf s.k.current ≠ p0 → Finishes s.k n0 ring
  exec : ∀ rip name p k', s.k.sysExec rip name = some (p, k') → Executes s.k n0 ring p k'
  status : ∀ call p, (s.k.applyStatus call p).IsRing n0 ring

theorem RingInv.dispatches {pre suf : List Addr} (h : k.RingInv n0 p0 held pre suf) (rsp : Nat) :
    Dispatches k n0 (pre ++ k.current :: suf) rsp fun fuel => k.nextProcess fuel rsp := by
  rcases h.nextProcess_spec rsp with hstay | ⟨passed, rest, d, hsuf, hrun, hswitched, hsw, -⟩
  · refine ⟨_, 0, fun fuel => (hstay fuel).trans (if_pos (Nat.zero_le _)).symm,
      fun _ => ⟨rfl, rfl, rfl, ?_⟩, fun hsw => nomatch hsw⟩
    have hring := h.isRing
    exact ⟨hring.first, k.next_unassignQuantum ▸ hring.cycle, hring.nodup⟩
  · refine ⟨d, passed.length + 1, hrun, fun hstay => ?_, fun _ => ⟨pre, passed, rest, ?_, hsw⟩⟩
    · rw [hswitched] at hstay
      cases hstay
    · rw [hsuf]

/-- The scheduler's ring, in every state any run reaches. -/
theorem scheduler_ring {s : Sched} (h : (ringSystem n0 p0).Reach s) :
    ∃ ring, RingOk n0 p0 s ring := by
  obtain ⟨pre, suf, hinv, hlive⟩ := schedInv_of_reach h
  have hcur : s.k.procOf s.k.current ≠ p0 → s.k.current ≠ n0 := fun hne he => hne (he ▸ hinv.init)
  refine ⟨pre ++ s.k.current :: suf, hinv.isRing, hlive, hlive.nodup_iff.mp hinv.owned.nodup_procs,
    hinv.current_mem, ?_, hinv.dispatches, ?_, ?_, ?_, ?_⟩
  · intro hne
    obtain ⟨-, -, -, hprev⟩ := hinv.split (hcur hne)
    exact hprev
  · intro rsp
    obtain ⟨hnext, hproc, hyield⟩ := hinv.yieldQuantum
    obtain ⟨d, rounds, hrun, hstay, hmove⟩ := hyield.dispatches rsp
    refine ⟨d, rounds, hrun, hstay, fun hsw => ?_⟩
    obtain ⟨pre', passed, rest, hring, hmoved, hrsp⟩ := hmove hsw
    rw [hproc] at hrsp
    exact ⟨pre', passed, rest, hring, hmoved.congr hproc rfl, hrsp⟩
  · intro hne
    obtain ⟨passed, rest, ps, k', hsuf, hrun, hmoved, -⟩ := hinv.endProcess_spec (hcur hne)
    refine ⟨pre, passed, rest, ps, k', passed.length + 1, ?_, hrun, hmoved⟩
    rw [hsuf]
  · intro rip name p k' hexec
    obtain ⟨hsame, hp, a, hproc, ha, hnew⟩ := hinv.sysExec_spec hexec
    have hring := hnew.isRing
    rw [hsame] at hring
    exact ⟨hsame, hp, pre, a, suf, rfl, hproc, ha, hring⟩
  · intro call p
    have hring := hinv.isRing
    exact ⟨hring.first, hring.cycle, hring.nodup⟩

/-- The kernel after the allocator is initialised. -/
def bootKernel : Kernel where
  pages := PageStack.initializeMemoryAllocator ⟨fun _ => 0, 0⟩

theorem sysExec_bootKernel : (bootKernel.sysExec 0 .nil).isSome := by decide +kernel

/-- The process and the state after `init` is created. -/
def initStarted : Addr × Kernel := (bootKernel.sysExec 0 .nil).get sysExec_bootKernel

/-- The scheduler of `initStarted`. -/
abbrev initSystem : System Sched RingAction := ringSystem initStarted.2.current initStarted.1

theorem initBooted : initSystem.init ⟨initStarted.2, [initStarted.1]⟩ :=
  ⟨bootKernel, 0, .nil, ⟨rfl, PageStack.initial_pagesOk⟩,
    (Option.some_get sysExec_bootKernel).symm, rfl, by decide +kernel, rfl⟩

theorem reach_initStarted : initSystem.Reach ⟨initStarted.2, [initStarted.1]⟩ := .start initBooted

/-- `init` starts two processes, of which the second is killed, and yields. -/
def reaped : Option Sched :=
  initSystem.execute ⟨initStarted.2, [initStarted.1]⟩
    [.exec 0 .nil, .exec 0 .nil, .status .kill (pageAddr 5), .yield 2 0]

/-- The ring after a process was killed, passed over and destroyed. -/
theorem scheduler_ring_reaped :
    ∃ ring, RingOk initStarted.2.current initStarted.1 (reaped.get (by decide +kernel)) ring :=
  scheduler_ring (reach_initStarted.execute (Option.some_get _).symm)

end Kernel

end TPE
