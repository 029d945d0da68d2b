import TPE.Kernel.QuantumCredit
import TPE.Library.Turns

/-!
# How long a process waits for the processor

The loop of `set_next_current` stops at the first process that can be dispatched.  So a process
that waits, neither blocked nor killed, is not passed over, and those ahead of it are the nodes
from the running process's to its own.

Each of them has its quantum.  A yield gives one call to the node behind it, and the end of a
process one to the node that is dispatched, so a node may give away one call more than it has
itself.  A new process comes right behind the running one, that is, ahead of all others.
-/

namespace TPE

open Function

namespace Kernel

variable {k k' : Kernel} {n0 p0 a b p : Addr} {held pre suf : List Addr} {fuel rsp : Nat}

/-- The process `p` is neither the running one, nor blocked, nor marked for deletion. -/
def AwaitsTurn (k : Kernel) (p : Addr) : Prop :=
  k.procOf k.current ≠ p ∧ ¬k.processes.isBlockedProcess p ∧ ¬k.processes.isDeleteProcess p

instance (k : Kernel) (p : Addr) : Decidable (k.AwaitsTurn p) :=
  inferInstanceAs (Decidable (_ ∧ _ ∧ _))

/-- How many calls of the scheduler the node `a` takes or gives away until it loses the
processor: `next_process` lets it go on while a quantum is left. -/
def timeOf (k : Kernel) (a : Addr) : Nat := (int32 (k.quantumOf a - 1)).toNat + 2

/-! ## The nodes that are passed over -/

/-- The loop passes over nodes that cannot be dispatched. -/
theorem Walking.passed_not_dispatchable (passed : List Addr) {rest : List Addr} :
    ∀ {k : Kernel} {pre ps : List Addr} {fuel : Nat}, k.Walking n0 held pre (passed ++ rest) →
      setNextCurrent fuel k = some (ps, k') → k'.current = rest.head?.getD n0 →
        ∀ b ∈ passed, ¬k.Dispatchable b := by
  induction passed with
  | nil => exact fun _ _ _ b hb => absurd hb List.not_mem_nil
  | cons c passed ih =>
      intro k pre ps fuel h hrun hcur
      cases fuel with
      | zero => cases hrun
      | succ fuel =>
          rw [setNextCurrent] at hrun
          simp only at hrun
          by_cases hdel : k.processes.isDeleteProcess (k.procOf k.current)
          · obtain ⟨rfl, hwalk, hproc, hprocs⟩ := h.passDoomed
            rw [if_pos (Or.inr hdel), if_pos hdel] at hrun
            obtain ⟨⟨ps', k₁⟩, hrest, he⟩ := Option.map_eq_some_iff.mp hrun
            cases he
            have hlater := ih hwalk hrest hcur
            intro b hb
            rcases List.mem_cons.mp hb with rfl | hb
            · exact fun hd => hd.2 hdel
            · intro hd
              refine hlater b hb ?_
              unfold Dispatchable
              rw [hproc, hprocs.isDeleteProcess_iff]
              exact ⟨hprocs.not_isBlockedProcess hd.1, hd.2⟩
          · by_cases hblk : k.processes.isBlockedProcess (k.procOf k.current)
            · obtain ⟨rfl, hwalk⟩ := h.passBlocked
              rw [if_pos (Or.inl hblk), if_neg hdel] at hrun
              have hlater := ih hwalk hrun hcur
              intro b hb
              rcases List.mem_cons.mp hb with rfl | hb
              · exact fun hd => hd.1 hblk
              · exact hlater b hb
            · -- the loop would have stopped at the first node
              rw [if_neg (not_or.mpr ⟨hblk, hdel⟩)] at hrun
              cases hrun
              exfalso
              obtain ⟨rfl, -⟩ := h.after
              have hnodup := h.owned.nodup_ring
              have hfirst := List.mem_of_mem_head? h.first
              cases rest with
              | nil =>
                  have hc : k'.current = n0 := hcur
                  rw [hc] at hnodup
                  exact (List.nodup_append.mp hnodup).2.2 _ hfirst _ List.mem_cons_self rfl
              | cons r rest =>
                  have hc : k'.current = r := hcur
                  rw [hc] at hnodup
                  have htail := (List.nodup_cons.mp (List.nodup_append.mp hnodup).2.1).1
                  exact htail (List.mem_append_right _ List.mem_cons_self)

/-- A call of `next_process`: the running process goes on, or those passed over cannot be
dispatched. -/
theorem RingInv.nextProcess_passed (h : k.RingInv n0 p0 held pre suf) {d : Dispatch}
    (hd : k.nextProcess fuel rsp = some d) :
    (d.k = k.unassignQuantum ∧ 0 < int32 (k.quantumOf k.current - 1)) ∨
    ∃ passed rest pre' suf', suf = passed ++ rest ∧ (∀ b ∈ passed, ¬k.Dispatchable b) ∧
      d.k.current = rest.head?.getD n0 ∧ d.k.procOf = k.procOf ∧
      pre' ++ d.k.current :: suf' =
        pre ++ ([k.current] ++ passed.filter fun a => ¬k.Doomed a) ++ rest ∧
      d.k.RingInv n0 p0 held pre' suf' := by
  rcases h.nextProcess_spec rsp with
    hstay | ⟨passed, rest, d', hsuf, hrun, hswitched, hsw, pre', suf', hring, hinv⟩
  · rw [hstay] at hd
    cases hd
    refine Or.inl ⟨rfl, ?_⟩
    have hall := hstay 0
    rw [nextProcess_eq h.current_ne_null h.unlocked] at hall
    split at hall
    next hq =>
      have hat := congrFun k.quantumOf_unassignQuantum k.current
      rw [update_self] at hat
      rwa [← hat]
    next => cases hall
  · obtain rfl : d' = d := by
      rw [hrun] at hd
      split at hd
      next => exact Option.some.inj hd
      next => cases hd
    rw [nextProcess_eq h.current_ne_null h.unlocked] at hd
    split at hd
    next => cases hd; cases hswitched
    next =>
      obtain ⟨⟨ps, k₁⟩, hset, he⟩ := Option.map_eq_some_iff.mp hd
      obtain ⟨-, hproc, -, -, -, hst, -, -⟩ := departed_spec k rsp
      have hwalk := h.departed_walking rsp
      rw [hsuf] at hwalk
      have hcur : k₁.current = rest.head?.getD n0 := by
        rw [← hsw.moved.current, ← he]
      have hpassed := hwalk.passed_not_dispatchable passed hset hcur
      refine Or.inr ⟨passed, rest, pre', suf', hsuf, fun b hb hready => hpassed b hb ?_,
        hsw.moved.current, hsw.moved.procOf, ?_, hinv⟩
      · unfold Dispatchable Procs.isBlockedProcess Procs.isDeleteProcess at *
        rwa [hproc, hst]
      · rw [hring]
        simp only [List.append_assoc]

/-- The same for `end_process`. -/
theorem RingInv.endProcess_passed (h : k.RingInv n0 p0 held pre suf) (hne : k.current ≠ n0)
    {ps : List Addr} (hd : k.endProcess fuel = some (ps, k')) :
    ∃ passed rest pre' suf', suf = passed ++ rest ∧ (∀ b ∈ passed, ¬k.Dispatchable b) ∧
      k'.current = rest.head?.getD n0 ∧ k'.procOf = k.procOf ∧
      pre' ++ k'.current :: suf' = pre ++ (passed.filter fun a => ¬k.Doomed a) ++ rest ∧
      k'.RingInv n0 p0 held pre' suf' := by
  obtain ⟨hwalk, hproc, hprocs⟩ := h.unlinked_walking hne
  obtain ⟨passed, rest, ps', k₂, hsuf, hrun, hmoved, pre', suf', hring, hinv⟩ :=
    h.endProcess_spec hne
  obtain rfl : k₂ = k' := by
    rw [hrun] at hd
    split at hd
    next => cases hd; rfl
    next => cases hd
  rw [endProcess_eq] at hd
  obtain ⟨⟨ps₁, k₁⟩, hset, he⟩ := Option.map_eq_some_iff.mp hd
  have hcur : k₁.current = rest.head?.getD n0 := by
    rw [← hmoved.current, ← (Prod.mk.inj he).2]
    rfl
  rw [hsuf] at hwalk
  have hpassed := hwalk.passed_not_dispatchable passed hset hcur
  refine ⟨passed, rest, pre', suf', hsuf, fun b hb hready => hpassed b hb ?_, hmoved.current,
    hmoved.procOf, hring, hinv⟩
  unfold Dispatchable
  rw [hproc, hprocs.isDeleteProcess_iff]
  exact ⟨hprocs.not_isBlockedProcess hready.1, hready.2⟩

/-! ## Those ahead -/

/-- The node `a` is in the ring, and the nodes `ahead` are those from the running process's to it. -/
def Ahead (k : Kernel) (n0 p0 a : Addr) (ahead : List Addr) : Prop :=
  ∃ pre suf, k.RingInv n0 p0 [] pre suf ∧ a ∈ pre ++ k.current :: suf ∧
    ahead = aheadOf a (k.current :: (suf ++ pre))

theorem RingInv.circle (h : k.RingInv n0 p0 held pre suf) :
    Walk k.next k.current (k.current :: (suf ++ pre)) k.current ∧
      (k.current :: (suf ++ pre)).Perm (pre ++ k.current :: suf) :=
  ⟨⟨rfl, h.after.append h.before⟩,
    (List.Perm.cons _ List.perm_append_comm).trans List.perm_middle.symm⟩

theorem Ahead.walk {ahead : List Addr} (h : k.Ahead n0 p0 a ahead) :
    Walk k.next k.current ahead a ∧ ahead.Nodup ∧ a ∉ ahead := by
  obtain ⟨pre, suf, hinv, ha, rfl⟩ := h
  obtain ⟨hwalk, hperm⟩ := hinv.circle
  obtain ⟨behind, hcircle⟩ := aheadOf_prefix (hperm.mem_iff.mpr ha)
  have hnodup := hperm.nodup_iff.mpr hinv.owned.nodup_ring
  refine ⟨?_, nodup_aheadOf hnodup, notMem_aheadOf⟩
  rw [hcircle] at hwalk
  obtain ⟨c, hto, rfl, -⟩ := Walk.append_iff.mp hwalk
  exact hto

/-- Those ahead after the ring was walked to another node: the node that lost the processor and
those passed over are not among them any more. -/
theorem RingInv.advance {passed rest mid pre' suf' : List Addr} (ha : a ∈ pre ++ k.current :: suf)
    (hne : k.current ≠ a) (hsuf : suf = passed ++ rest) (hpassed : a ∉ passed)
    (hcur : k'.current = rest.head?.getD n0)
    (hring : pre' ++ k'.current :: suf' = pre ++ mid ++ rest)
    (hinv : k'.RingInv n0 p0 [] pre' suf') :
    a ∈ pre' ++ k'.current :: suf' ∧ aheadOf a (k.current :: (suf ++ pre)) =
      k.current :: (passed ++ aheadOf a (k'.current :: (suf' ++ pre'))) := by
  have hnodup := hinv.owned.nodup_ring
  have hfirst := hinv.isRing.first
  rw [hring] at hnodup hfirst
  have hrot := rotate_eq hring hnodup hfirst hcur
  have hmem : a ∈ rest ++ pre := by
    rw [hsuf] at ha
    simp only [List.mem_append, List.mem_cons] at ha ⊢
    rcases ha with ha | rfl | ha | ha
    · exact Or.inr ha
    · exact absurd rfl hne
    · exact absurd ha hpassed
    · exact Or.inl ha
  constructor
  · rw [hring]
    simp only [List.mem_append] at hmem ⊢
    tauto
  · rw [hrot, ← List.append_assoc, aheadOf_append_of_mem hmem, aheadOf_cons_of_ne hne, hsuf,
      List.append_assoc, aheadOf_append_of_notMem hpassed]

/-! ## One step -/

/-- What a step is for a process that waits. -/
def moveOf (s : Sched) (act : RingAction) (t : Sched) : Move :=
  match act with
  | .exec _ _ => .join
  | .status _ _ => .rest
  | .tick _ _ => if t.k.current = s.k.current then .call else .turn
  | .yield _ _ => if t.k.current = s.k.current then .call else .turn
  | .finish _ => if t.k.current = s.k.current then .call else .turn

theorem timeOf_congr (h : k'.quantumOf b = k.quantumOf b) : k'.timeOf b = k.timeOf b := by
  rw [timeOf, timeOf, h]

/-- A tick that leaves a quantum takes one of the calls. -/
theorem timeOf_spent (h : 0 < int32 (k.quantumOf a - 1))
    (hq : k'.quantumOf a = int32 (k.quantumOf a - 1)) : k'.timeOf a < k.timeOf a := by
  have hlt := int32_lt (k.quantumOf a - 1)
  have hnext : int32 (int32 (k.quantumOf a - 1) - 1) = int32 (k.quantumOf a - 1) - 1 :=
    int32_of_range (by omega) (by omega)
  rw [timeOf, timeOf, hq, hnext]
  omega

/-- A quantum more is a call more. -/
theorem timeOf_credited (hq : k'.quantumOf a = int32 (k.quantumOf a + 1)) :
    k'.timeOf a ≤ k.timeOf a + 1 := by
  rw [timeOf, timeOf, hq]
  unfold int32
  rw [Int.bmod_def, Int.bmod_def, Int.bmod_def]
  omega

theorem timeOf_new (hq : k.quantumOf a = quantum) : k.timeOf a = 2 := by
  rw [timeOf, hq]
  rfl

theorem two_le_timeOf : 2 ≤ k.timeOf a := Nat.le_add_left _ _

/-- The processor goes from the running process to one of those behind it. -/
theorem RingInv.turnStep {passed rest mid pre' suf' : List Addr} {x : Addr}
    (h : k.RingInv n0 p0 [] pre suf) (ha : a ∈ pre ++ k.current :: suf)
    (hne : k.current ≠ a) (hready : k.Dispatchable a) (hsuf : suf = passed ++ rest)
    (hpassed : ∀ b ∈ passed, ¬k.Dispatchable b) (hcur : k'.current = rest.head?.getD n0)
    (hring : pre' ++ k'.current :: suf' = pre ++ mid ++ rest)
    (hinv : k'.RingInv n0 p0 [] pre' suf') (hx : k'.timeOf x ≤ k.timeOf x + 1)
    (hothers : ∀ b, b ≠ k.current → b ≠ x → k'.timeOf b = k.timeOf b) :
    ∃ ahead, k'.Ahead n0 p0 a ahead ∧ k'.current ≠ k.current ∧
      TurnStep .turn k.timeOf (aheadOf a (k.current :: (suf ++ pre))) k'.timeOf ahead := by
  obtain ⟨ha', hahead⟩ :=
    RingInv.advance ha hne hsuf (fun hm => hpassed a hm hready) hcur hring hinv
  have hnodup : (aheadOf a (k.current :: (suf ++ pre))).Nodup :=
    nodup_aheadOf (h.circle.2.nodup_iff.mpr h.owned.nodup_ring)
  rw [hahead] at hnodup
  obtain ⟨hout, hrest⟩ := List.nodup_cons.mp hnodup
  rw [List.mem_append, not_or] at hout
  refine ⟨_, ⟨pre', suf', hinv, ha', rfl⟩, fun he => ?_, ?_⟩
  · rw [he, aheadOf_cons_of_ne hne] at hout
    exact hout.2 List.mem_cons_self
  · rw [hahead]
    refine .turn two_le_timeOf (List.nodup_append.mp hrest).2.1 hx fun b hb hbx => ?_
    exact hothers b (fun he => hout.2 (he ▸ hb)) hbx

/-- What a step to `k'` does to those ahead of `a`. -/
def Moves (k : Kernel) (n0 p0 a : Addr) (ahead : List Addr) (k' : Kernel) (m : Move) : Prop :=
  ∃ ahead', k'.Ahead n0 p0 a ahead' ∧ k'.procOf a = k.procOf a ∧
    TurnStep m k.timeOf ahead k'.timeOf ahead'

namespace RingInv

variable (h : k.RingInv n0 p0 [] pre suf) (ha : a ∈ pre ++ k.current :: suf) (hne : k.current ≠ a)
  (hready : k.Dispatchable a)

include h ha hne hready

theorem tick_moves {d : Dispatch} (hd : k.nextProcess fuel rsp = some d) :
    Moves k n0 p0 a (aheadOf a (k.current :: (suf ++ pre))) d.k
      (if d.k.current = k.current then .call else .turn) := by
  have hq := quantumOf_nextProcess h.current_ne_null h.unlocked hd
  have hother : ∀ b, b ≠ k.current → d.k.timeOf b = k.timeOf b := by
    intro b hb
    exact timeOf_congr (by rw [hq, update_of_ne hb])
  rcases h.nextProcess_passed hd with
    ⟨hstay, hmore⟩ | ⟨passed, rest, pre', suf', hsuf, hpassed, hcur, hproc, hring, hinv⟩
  · have hcur : d.k.current = k.current := by
      rw [hstay]
      rfl
    obtain ⟨hproc, hinv⟩ := h.unassignQuantum
    have hself : d.k.quantumOf k.current = int32 (k.quantumOf k.current - 1) := by
      rw [hq, update_self, if_pos hmore]
    have hnodup := nodup_aheadOf (a := a) (h.circle.2.nodup_iff.mpr h.owned.nodup_ring)
    rw [aheadOf_cons_of_ne hne] at hnodup
    rw [if_pos hcur, aheadOf_cons_of_ne hne]
    refine ⟨k.current :: aheadOf a (suf ++ pre), ⟨pre, suf, ?_, ?_, ?_⟩, ?_,
      .call (timeOf_spent hmore hself) fun b hb => hother b ?_⟩
    · rwa [hstay]
    · rwa [hcur]
    · rw [hcur, aheadOf_cons_of_ne hne]
    · rw [hstay, hproc]
    · rintro rfl
      exact (List.nodup_cons.mp hnodup).1 hb
  · have hself : d.k.timeOf k.current ≤ k.timeOf k.current + 1 := by
      by_cases hmore : 0 < int32 (k.quantumOf k.current - 1)
      · have hlt : d.k.timeOf k.current < k.timeOf k.current :=
          timeOf_spent hmore (by rw [hq, update_self, if_pos hmore])
        omega
      · have htwo := timeOf_new (k := d.k) (by rw [hq, update_self, if_neg hmore])
        have hle := two_le_timeOf (k := k) (a := k.current)
        omega
    obtain ⟨ahead', hahead, hgone, hstep⟩ := h.turnStep ha hne hready hsuf hpassed hcur hring hinv
      hself fun b hb _ => hother b hb
    rw [if_neg hgone]
    exact ⟨ahead', hahead, congrFun hproc a, hstep⟩

theorem yield_moves {d : Dispatch} (hd : k.yieldQuantum.nextProcess fuel rsp = some d) :
    Moves k n0 p0 a (aheadOf a (k.current :: (suf ++ pre))) d.k
      (if d.k.current = k.current then .call else .turn) := by
  have hq := quantumOf_yield h.current_ne_null h.unlocked hd
  obtain ⟨-, hyproc, hyield⟩ := h.yieldQuantum
  have hothers : ∀ b, b ≠ k.current → b ≠ k.next k.current → d.k.timeOf b = k.timeOf b := by
    intro b hb hbx
    exact timeOf_congr (by rw [hq, update_of_ne hb, update_of_ne hbx])
  have hcredit : d.k.timeOf (k.next k.current) ≤ k.timeOf (k.next k.current) + 1 := by
    by_cases hc : k.next k.current = k.current
    · have htwo := timeOf_new (k := d.k) (a := k.next k.current) (by rw [hq, hc, update_self])
      have hle := two_le_timeOf (k := k) (a := k.next k.current)
      omega
    · exact timeOf_credited (by rw [hq, update_of_ne hc, update_self])
  have hready' : ∀ b, k.yieldQuantum.Dispatchable b ↔ k.Dispatchable b := by
    intro b
    unfold Dispatchable
    rw [hyproc]
    exact Iff.rfl
  rcases hyield.nextProcess_passed hd with
    ⟨-, hmore⟩ | ⟨passed, rest, pre', suf', hsuf, hpassed, hcur, hproc, hring, hinv⟩
  · -- a process that yields has no quantum left
    have hzero : k.yieldQuantum.quantumOf k.yieldQuantum.current = 0 := k.quantumOf_yieldQuantum
    rw [hzero] at hmore
    exact absurd hmore (by decide)
  · obtain ⟨ahead', hahead, hgone, hstep⟩ := h.turnStep ha hne hready hsuf
      (fun b hb hd => hpassed b hb ((hready' b).mpr hd)) hcur hring hinv hcredit hothers
    rw [if_neg hgone]
    exact ⟨ahead', hahead, congrFun (hproc.trans hyproc) a, hstep⟩

theorem finish_moves (hinit : k.current ≠ n0) {ps : List Addr}
    (hd : k.endProcess fuel = some (ps, k')) :
    Moves k n0 p0 a (aheadOf a (k.current :: (suf ++ pre))) k'
      (if k'.current = k.current then .call else .turn) := by
  have hq := quantumOf_endProcess hd
  obtain ⟨passed, rest, pre', suf', hsuf, hpassed, hcur, hproc, hring, hinv⟩ :=
    h.endProcess_passed hinit hd
  have hcredit : k'.timeOf k'.current ≤ k.timeOf k'.current + 1 :=
    timeOf_credited (by rw [hq, update_self])
  obtain ⟨ahead', hahead, hgone, hstep⟩ := h.turnStep ha hne hready hsuf hpassed hcur hring hinv
    hcredit fun b _ hbx => timeOf_congr (by rw [hq, update_of_ne hbx])
  rw [if_neg hgone]
  exact ⟨ahead', hahead, congrFun hproc a, hstep⟩

omit hready in
theorem exec_moves {rip q : Nat} {name : CString} (hd : k.sysExec rip name = some (q, k')) :
    Moves k n0 p0 a (aheadOf a (k.current :: (suf ++ pre))) k' .join := by
  have hq := quantumOf_sysExec hd
  obtain ⟨hcur, -, x, hproc, hx, hinv⟩ := h.sysExec_spec hd
  obtain ⟨hnext, -⟩ := hinv.after
  rw [if_neg h.current_ne_null, ← hcur, hnext] at hq
  have hold : ∀ b ∈ pre ++ k.current :: suf, b ≠ x := fun b hb he => hx (he ▸ hb)
  rw [aheadOf_cons_of_ne hne]
  refine ⟨k.current :: x :: aheadOf a (suf ++ pre), ⟨pre, x :: suf, hinv, ?_, ?_⟩, ?_,
    .join (timeOf_new (by rw [hq, update_self])).le fun b hb => timeOf_congr ?_⟩
  · rw [hcur]
    simp only [List.mem_append, List.mem_cons] at ha ⊢
    tauto
  · rw [hcur, aheadOf_cons_of_ne hne, List.cons_append, aheadOf_cons_of_ne (hold a ha).symm]
  · rw [hproc, update_of_ne (hold a ha)]
  · rw [← aheadOf_cons_of_ne hne] at hb
    rw [hq, update_of_ne (hold b (h.circle.2.mem_iff.mp (mem_of_mem_aheadOf hb)))]

end RingInv

/-- One step, for a process that waits. -/
theorem Ahead.next {s t : Sched} {act : RingAction} {ahead : List Addr}
    (h : s.k.Ahead n0 p0 a ahead) (hw : s.k.AwaitsTurn (s.k.procOf a))
    (hn : (ringSystem n0 p0).next s act = some t) :
    Moves s.k n0 p0 a ahead t.k (moveOf s act t) := by
  obtain ⟨pre, suf, hinv, ha, rfl⟩ := h
  obtain ⟨hrun, hready⟩ := hw
  have hne : s.k.current ≠ a := fun he => hrun (congrArg s.k.procOf he)
  cases act with
  | exec rip name =>
      obtain ⟨⟨p, k⟩, hd, rfl⟩ := Option.map_eq_some_iff.mp hn
      exact hinv.exec_moves ha hne hd
  | tick fuel rsp =>
      obtain ⟨d, hd, rfl⟩ := Option.map_eq_some_iff.mp hn
      exact hinv.tick_moves ha hne hready hd
  | yield fuel rsp =>
      obtain ⟨d, hd, rfl⟩ := Option.map_eq_some_iff.mp hn
      exact hinv.yield_moves ha hne hready hd
  | finish fuel =>
      simp only [ringSystem] at hn
      split at hn
      next hinit =>
        obtain ⟨⟨ps, k⟩, hd, rfl⟩ := Option.map_eq_some_iff.mp hn
        exact hinv.finish_moves ha hne hready (fun he => hinit (he ▸ hinv.init)) hd
      next => cases hn
  | status call p =>
      simp only [ringSystem] at hn
      split at hn
      next hinit =>
        cases hn
        exact ⟨_, ⟨pre, suf, hinv.applyStatus hinit, ha, rfl⟩, rfl, .rest fun _ _ => rfl⟩
      next => cases hn

/-! ## Runs -/

/-- What the steps of a run are for a process that waits. -/
def movesOf (n0 p0 : Addr) (s : Sched) (acts : List RingAction) : List Move :=
  (ringSystem n0 p0).trace moveOf s acts

/-- A run in which `a`'s process waits is a run of those ahead of it. -/
theorem Ahead.turnRun {acts : List RingAction} {s t : Sched} {ahead : List Addr}
    (h : s.k.Ahead n0 p0 a ahead) (hp : s.k.procOf a = p)
    (hrun : (ringSystem n0 p0).executeBy (fun s _ => decide (s.k.AwaitsTurn p)) s acts = some t) :
    TurnRun s.k.timeOf ahead (movesOf n0 p0 s acts) := by
  induction acts generalizing s ahead with
  | nil => exact .nil
  | cons act acts ih =>
      rw [System.executeBy] at hrun
      split at hrun
      next hwaits =>
        obtain ⟨u, hn, hrest⟩ := Option.bind_eq_some_iff.mp hrun
        have hw : s.k.AwaitsTurn (s.k.procOf a) := hp ▸ of_decide_eq_true hwaits
        obtain ⟨ahead', hahead, hproc, hstep⟩ := h.next hw hn
        rw [movesOf, System.trace, hn]
        exact .cons hstep (ih hahead (hproc.trans hp) hrest)
      next => cases hrun

/-- A ring is cut at the current node in one way only. -/
theorem RingInv.cut_unique {pre' suf' : List Addr} (h : k.RingInv n0 p0 held pre suf)
    (h' : k.RingInv n0 p0 held pre' suf') : pre = pre' ∧ suf = suf' := by
  have hnodup := h.owned.nodup_ring
  have hnodup' := h'.owned.nodup_ring
  rw [List.perm_middle.nodup_iff, List.nodup_cons, List.mem_append, not_or] at hnodup hnodup'
  exact ⟨h.before.unique h'.before hnodup.1.1 hnodup'.1.1,
    h.after.unique h'.after h.first_notMem h'.first_notMem⟩

/-- In runs in which every yield finds the next process ready, those ahead have little time. -/
theorem Ahead.weigh_le {s : Sched} {ahead : List Addr} (h : s.k.Ahead n0 p0 a ahead)
    (hby : (ringSystem n0 p0).ReachBy CreditsNext s) :
    weigh s.k.timeOf ahead ≤ 2 * ahead.length + 1 := by
  obtain ⟨pre', suf', hq⟩ := quanta_of_reachBy hby
  obtain ⟨pre, suf, hinv, ha, rfl⟩ := h
  obtain ⟨rfl, rfl⟩ := hinv.cut_unique hq.ring
  by_cases hne : s.k.current = a
  · rw [hne, aheadOf_cons_self]
    exact Nat.zero_le _
  · have hothers : weigh s.k.timeOf (aheadOf a (suf ++ pre)) ≤
        2 * (aheadOf a (suf ++ pre)).length := by
      refine TPE.weigh_le fun b hb => (timeOf_new (hq.others b ?_)).le
      exact List.perm_append_comm.mem_iff.mp (mem_of_mem_aheadOf hb)
    have hcurrent : s.k.timeOf s.k.current ≤ 3 := by
      unfold timeOf
      rcases hq.current with he | he <;> rw [he] <;> decide
    rw [aheadOf_cons_of_ne hne, weigh_cons, List.length_cons]
    omega

/-- A process that is neither blocked nor killed has those ahead of it between the running
process's node and its own.  In every run, for as long as it waits, the scheduler is called no
more often than these take and give away calls, and two times more for each process that is
started meanwhile; and none of them has the processor twice.  If the yields until now found the
next process ready, that is two calls for each of them and one more. -/
theorem bounded_waiting {acts : List RingAction} {s t : Sched}
    (hs : (ringSystem n0 p0).Reach s) (hp : p ∈ s.live)
    (hrun : (ringSystem n0 p0).executeBy (fun s _ => decide (s.k.AwaitsTurn p)) s acts = some t) :
    ∃ a ahead, s.k.procOf a = p ∧ Walk s.k.next s.k.current ahead a ∧ a ∉ ahead ∧
      (movesOf n0 p0 s acts).count .call + (movesOf n0 p0 s acts).count .turn ≤
        weigh s.k.timeOf ahead + 2 * (movesOf n0 p0 s acts).count .join ∧
      (movesOf n0 p0 s acts).count .turn ≤ ahead.length + (movesOf n0 p0 s acts).count .join ∧
      ((ringSystem n0 p0).ReachBy CreditsNext s →
        weigh s.k.timeOf ahead ≤ 2 * ahead.length + 1) := by
  obtain ⟨pre, suf, hinv, hlive⟩ := schedInv_of_reach hs
  obtain ⟨a, ha, rfl⟩ := List.mem_map.mp (hlive.mem_iff.mpr hp)
  have hahead : s.k.Ahead n0 p0 a (aheadOf a (s.k.current :: (suf ++ pre))) :=
    ⟨pre, suf, hinv, ha, rfl⟩
  have hturns := hahead.turnRun rfl hrun
  exact ⟨a, _, rfl, hahead.walk.1, hahead.walk.2.2, hturns.moves_le, hturns.turns_le,
    hahead.weigh_le⟩

/-- `init` has started two processes. -/
def crowded : Option Sched :=
  initSystem.executeBy (fun s act => decide (CreditsNext s act)) ⟨initStarted.2, [initStarted.1]⟩
    [.exec 0 .nil, .exec 0 .nil]

/-- The newer of the two is dispatched, starts a third one and is blocked.  Then the processor
comes to the third process, and to the one that waits. -/
def crowdedRun : List RingAction :=
  [.tick 1 0, .exec 0 .nil, .status .block (pageAddr 5), .tick 1 0, .tick 1 0]

theorem bounded_waiting_crowded :
    ∃ a ahead, (crowded.get (by decide +kernel)).k.procOf a = pageAddr 3 ∧
      Walk (crowded.get (by decide +kernel)).k.next (crowded.get (by decide +kernel)).k.current
        ahead a ∧ a ∉ ahead ∧
      (movesOf initStarted.2.current initStarted.1 (crowded.get (by decide +kernel))
          crowdedRun).count .call +
        (movesOf initStarted.2.current initStarted.1 (crowded.get (by decide +kernel))
          crowdedRun).count .turn ≤
        weigh (crowded.get (by decide +kernel)).k.timeOf ahead +
          2 * (movesOf initStarted.2.current initStarted.1 (crowded.get (by decide +kernel))
            crowdedRun).count .join ∧
      (movesOf initStarted.2.current initStarted.1 (crowded.get (by decide +kernel))
          crowdedRun).count .turn ≤
        ahead.length + (movesOf initStarted.2.current initStarted.1
          (crowded.get (by decide +kernel)) crowdedRun).count .join ∧
      (initSystem.ReachBy CreditsNext (crowded.get (by decide +kernel)) →
        weigh (crowded.get (by decide +kernel)).k.timeOf ahead ≤ 2 * ahead.length + 1) :=
  have hby := (System.ReachBy.init initBooted).execute (fun _ _ => of_decide_eq_true)
    (Option.some_get (show crowded.isSome by decide +kernel)).symm
  bounded_waiting hby.reach (by decide +kernel)
    (Option.some_get (show (initSystem.executeBy (fun s _ => decide (s.k.AwaitsTurn (pageAddr 3)))
      (crowded.get (by decide +kernel)) crowdedRun).isSome by decide +kernel)).symm

end Kernel

end TPE
