import TPE.Kernel.SchedulerRuns

/-!
# Who gets the quantum of a yield

`yield_process` gives a quantum to `current->next`, since the running process gave time away.
Only then `next_process` looks for the process to run, and the loop of `set_next_current` passes
over the nodes of blocked and killed processes.  So the quantum may stay with a node that is not
dispatched, and with a blocked one it adds up.
-/

namespace TPE

open Function

namespace Kernel

/-- The quantum of the node `a`. -/
def quantumOf (k : Kernel) (a : Addr) : Int := (k.nodes a).quantum

/-- The process of the node `a` is blocked. -/
def BlockedNode (k : Kernel) (a : Addr) : Prop := k.processes.isBlockedProcess (k.procOf a)

instance (k : Kernel) (a : Addr) : Decidable (k.BlockedNode a) :=
  inferInstanceAs (Decidable (k.processes.isBlockedProcess _))

/-- A yield finds the node that it gave the quantum to ready to run. -/
def CreditsNext (s : Sched) : RingAction → Prop
  | .yield _ _ => s.k.Dispatchable (s.k.next s.k.current)
  | _ => True

instance (s : Sched) : DecidablePred (CreditsNext s)
  | .exec _ _ => .isTrue trivial
  | .tick _ _ => .isTrue trivial
  | .yield _ _ => inferInstanceAs (Decidable (s.k.Dispatchable _))
  | .finish _ => .isTrue trivial
  | .status _ _ => .isTrue trivial

/-- No node has more than one quantum too many, and in a step the quantum of a node whose process
is blocked and stays blocked does not grow. -/
def QuantaOk (n0 p0 : Addr) (s : Sched) : Prop :=
  ∃ ring, s.k.IsRing n0 ring ∧ (∀ a ∈ ring, s.k.quantumOf a ≤ quantum + 1) ∧
    ∀ act t, CreditsNext s act → (ringSystem n0 p0).next s act = some t →
      ∀ a ∈ ring, s.k.BlockedNode a → t.k.BlockedNode a → t.k.quantumOf a ≤ s.k.quantumOf a

variable {k k' : Kernel} {n0 p0 a b : Addr} {fuel rsp : Nat}

/-! ## Who writes quanta -/

theorem quantumOf_writeNode (k : Kernel) (a : Addr) (f : ListNode → ListNode) :
    (k.writeNode a f).quantumOf = update k.quantumOf a (f (k.nodes a)).quantum := by
  funext b
  by_cases h : b = a
  · subst h
    simp [quantumOf, writeNode]
  · simp [quantumOf, writeNode, h]

/-- A write of the quantum of a node. -/
theorem quantumOf_writeQuantum (k : Kernel) (a : Addr) (f : Int → Int) :
    (k.writeNode a fun n => { n with quantum := f n.quantum }).quantumOf =
      update k.quantumOf a (f (k.quantumOf a)) :=
  quantumOf_writeNode k a _

theorem quantumOf_unassignQuantum (k : Kernel) : k.unassignQuantum.quantumOf =
    update k.quantumOf k.current (int32 (k.quantumOf k.current - 1)) :=
  quantumOf_writeQuantum k k.current fun n => int32 (n - 1)

/-- The running process gives its quantum away. -/
theorem quantumOf_yieldQuantum (k : Kernel) : k.yieldQuantum.quantumOf k.current = 0 := by
  refine (congrFun (quantumOf_writeQuantum _ k.current fun _ => 0) k.current).trans ?_
  exact update_self _ _ _

@[simp] theorem quantumOf_link (k : Kernel) (a b : Addr) : (k.link a b).quantumOf = k.quantumOf := by
  rw [link, quantumOf_writeNode]
  exact update_eq_self a k.quantumOf

theorem nodes_freeDataPagesFrom (p : Addr) (rounds i : Nat) (k : Kernel) :
    (freeDataPagesFrom p rounds i k).nodes = k.nodes := by
  induction rounds generalizing i k with
  | zero => rfl
  | succ rounds ih =>
      rw [freeDataPagesFrom]
      split
      · split
        · exact ih _ _
        · exact ih _ _
      · rfl

theorem nodes_destroyProcess (k : Kernel) (p : Addr) : (k.destroyProcess p).nodes = k.nodes := by
  by_cases hp : p ≠ null
  · obtain ⟨fg, procs, -, he⟩ := destroyProcess_eq (k := k) hp rfl
    rw [he]
    exact nodes_freeDataPagesFrom p maxDataPages 0 _
  · rw [destroyProcess, if_neg hp]

theorem quantumOf_destroyProcess (k : Kernel) (p : Addr) :
    (k.destroyProcess p).quantumOf = k.quantumOf := by
  funext a
  rw [quantumOf, nodes_destroyProcess, quantumOf]

/-- The walk to the next process leaves the quanta alone. -/
theorem quantumOf_setNextCurrent {ps : List Addr} (h : setNextCurrent fuel k = some (ps, k')) :
    k'.quantumOf = k.quantumOf := by
  induction fuel generalizing k ps with
  | zero => cases h
  | succ fuel ih =>
      rw [setNextCurrent] at h
      simp only at h
      split at h
      next =>
        split at h
        next =>
          obtain ⟨⟨ps', k₁⟩, hrest, he⟩ := Option.map_eq_some_iff.mp h
          cases he
          refine (ih hrest).trans ?_
          refine (quantumOf_destroyProcess (k.link k.prev (k.next k.current)) _).trans ?_
          exact quantumOf_link k _ _
        next => exact (ih h).trans rfl
      next =>
        cases h
        rfl

/-- A node that loses the processor gets its quantum back. -/
theorem quantumOf_departed (k : Kernel) (rsp : Nat) :
    (k.departed rsp).quantumOf = update k.quantumOf k.current quantum := by
  let k₁ : Kernel := { k.unassignQuantum with superlock := .locked }
  let k₂ : Kernel := k₁.writeNode k₁.current fun n => { n with quantum := quantum }
  obtain ⟨procs, he, -⟩ := setRspProcess_spec k₂ (k₂.procOf k₂.current) rsp
  have hdep : k.departed rsp =
      { k₂ with processes := procs, prev := k₂.current, current := k₂.next k₂.current } :=
    congrArg (fun d : Kernel => { d with prev := d.current, current := d.next d.current }) he
  have h₁ : k₁.quantumOf = update k.quantumOf k.current (int32 (k.quantumOf k.current - 1)) :=
    k.quantumOf_unassignQuantum
  have h₂ : k₂.quantumOf = update k₁.quantumOf k₁.current quantum :=
    quantumOf_writeQuantum k₁ k₁.current fun _ => quantum
  rw [hdep]
  refine h₂.trans ?_
  rw [h₁]
  exact update_idem _ _ _

/-- Either the running process goes on with one quantum less, or its node gets its quantum back. -/
theorem quantumOf_nextProcess {d : Dispatch} (hcur : k.current ≠ null)
    (hlock : k.superlock = .unlocked) (h : k.nextProcess fuel rsp = some d) :
    d.k.quantumOf = update k.quantumOf k.current
      (if 0 < int32 (k.quantumOf k.current - 1) then int32 (k.quantumOf k.current - 1)
        else quantum) := by
  have hless := k.quantumOf_unassignQuantum
  have htest : (k.unassignQuantum.nodes k.current).quantum = int32 (k.quantumOf k.current - 1) := by
    have hat := congrFun hless k.current
    rwa [update_self] at hat
  rw [nextProcess_eq hcur hlock, htest] at h
  split at h
  next hstay =>
    cases h
    rw [if_pos hstay]
    exact hless
  next hgo =>
    obtain ⟨⟨ps, k₁⟩, hset, he⟩ := Option.map_eq_some_iff.mp h
    cases he
    rw [if_neg hgo]
    exact (quantumOf_setNextCurrent hset).trans (quantumOf_departed k rsp)

/-- A yield: the next node has a quantum more, and the running process's node its own one. -/
theorem quantumOf_yield {d : Dispatch} (hcur : k.current ≠ null) (hlock : k.superlock = .unlocked)
    (h : k.yieldQuantum.nextProcess fuel rsp = some d) :
    d.k.quantumOf =
      update (update k.quantumOf (k.next k.current) (int32 (k.quantumOf (k.next k.current) + 1)))
        k.current quantum := by
  let k₁ := k.writeNode (k.next k.current) fun n => { n with quantum := int32 (n.quantum + 1) }
  have h₁ : k₁.quantumOf =
      update k.quantumOf (k.next k.current) (int32 (k.quantumOf (k.next k.current) + 1)) :=
    quantumOf_writeQuantum k (k.next k.current) fun q => int32 (q + 1)
  have h₂ : k.yieldQuantum.quantumOf = update k₁.quantumOf k.current 0 :=
    quantumOf_writeQuantum k₁ k₁.current fun _ => 0
  have hzero : k.yieldQuantum.quantumOf k.yieldQuantum.current = 0 := k.quantumOf_yieldQuantum
  have hnext := quantumOf_nextProcess (k := k.yieldQuantum) hcur hlock h
  rw [hzero, if_neg (by decide), h₂, h₁] at hnext
  exact hnext.trans (update_idem _ _ _)

/-- The process that runs after the end of another one has a quantum more. -/
theorem quantumOf_endProcess {ps : List Addr} (h : k.endProcess fuel = some (ps, k')) :
    k'.quantumOf = update k.quantumOf k'.current (int32 (k.quantumOf k'.current + 1)) := by
  rw [endProcess_eq] at h
  obtain ⟨⟨ps', k₁⟩, hset, he⟩ := Option.map_eq_some_iff.mp h
  cases he
  have hunlinked : k.unlinked.quantumOf = k.quantumOf := by
    rw [unlinked_eq rfl]
    refine (quantumOf_link _ _ _).trans ?_
    exact quantumOf_destroyProcess _ _
  have hwalk : k₁.quantumOf = k.quantumOf := (quantumOf_setNextCurrent hset).trans hunlinked
  let k₂ : Kernel := { k₁ with superlock := .unlocked, pages := k₁.pages.storePage k.current }
  have hassign : k₂.assignQuantum.quantumOf =
      update k₁.quantumOf k₁.current (int32 (k₁.quantumOf k₁.current + 1)) :=
    quantumOf_writeQuantum k₂ k₂.current fun q => int32 (q + 1)
  rw [hwalk] at hassign
  exact hassign

/-- The node of a new process has its quantum. -/
theorem quantumOf_addProcess {p : Addr} (h : k.addProcess p = some k') :
    k'.quantumOf =
      update k.quantumOf (if k.current = null then k'.current else k'.next k.current) quantum := by
  obtain ⟨⟨a, k₁⟩, hget, he⟩ := Option.map_eq_some_iff.mp h
  obtain ⟨pages, -, rfl⟩ := getPage_eq_some hget
  let k₂ := writeNode { k with pages } a fun n => { n with p := p, quantum := quantum }
  have hnew : k₂.quantumOf = update k.quantumOf a quantum :=
    quantumOf_writeNode { k with pages } a fun n => { n with p := p, quantum := quantum }
  simp only at he
  split at he
  next hnull =>
    have hcur : k.current = null := hnull
    cases he
    rw [if_pos hcur]
    exact (quantumOf_link { k₂ with current := a } a a).trans hnew
  next hnull =>
    have hcur : ¬k.current = null := hnull
    cases he
    have hlink : ((k₂.link a (k₂.next k₂.current)).link k₂.current a).quantumOf = k₂.quantumOf :=
      (quantumOf_link _ _ _).trans (quantumOf_link _ _ _)
    have hnext : ((k₂.link a (k₂.next k₂.current)).link k₂.current a).next k₂.current = a := by
      rw [next_link, update_self]
    rw [if_neg hcur]
    refine (hlink.trans hnew).trans ?_
    exact congrArg (fun c => update k.quantumOf c quantum) hnext.symm

theorem quantumOf_sysExec {rip p : Nat} {name : CString} (h : k.sysExec rip name = some (p, k')) :
    k'.quantumOf =
      update k.quantumOf (if k.current = null then k'.current else k'.next k.current) quantum := by
  obtain ⟨⟨q, k₁⟩, hcreate, hadd⟩ := Option.bind_eq_some_iff.mp h
  obtain ⟨k₂, hadd, he⟩ := Option.map_eq_some_iff.mp hadd
  cases he
  have hc := createProcess_spec hcreate
  have hquanta : k₁.quantumOf = k.quantumOf :=
    funext fun b => congrArg (fun nodes : Addr → ListNode => (nodes b).quantum) hc.nodes
  rw [← hquanta, ← hc.current]
  exact quantumOf_addProcess hadd

/-! ## Which node is dispatched -/

/-- The running process has no quantum left after a yield. -/
theorem yieldQuantum_spent (k : Kernel) :
    ¬0 < (k.yieldQuantum.unassignQuantum.nodes k.yieldQuantum.current).quantum := by
  have hy : k.yieldQuantum.quantumOf k.yieldQuantum.current = 0 := k.quantumOf_yieldQuantum
  have hu := congrFun k.yieldQuantum.quantumOf_unassignQuantum k.yieldQuantum.current
  rw [update_self, hy] at hu
  have hneg : (k.yieldQuantum.unassignQuantum.nodes k.yieldQuantum.current).quantum =
      int32 (0 - 1) := hu
  rw [hneg]
  decide

theorem current_departed (k : Kernel) (rsp : Nat) :
    (k.yieldQuantum.departed rsp).current = k.next k.current := by
  obtain ⟨-, -, hcur, -, -, -, -, -⟩ := departed_spec k.yieldQuantum rsp
  rw [hcur, next_yieldQuantum]
  rfl

namespace RingInv

variable {held pre suf : List Addr}

/-- The node of `init` is not behind the running process's. -/
theorem first_notMem (h : k.RingInv n0 p0 held pre suf) : n0 ∉ suf := by
  intro hm
  have hnodup := h.owned.nodup_ring
  have hfirst := h.isRing.first
  cases pre with
  | nil =>
      obtain rfl : k.current = n0 := Option.some.inj hfirst
      exact (List.nodup_cons.mp hnodup).1 hm
  | cons x pre =>
      obtain rfl : x = n0 := Option.some.inj hfirst
      exact (List.nodup_cons.mp hnodup).1 (List.mem_append_right _ (List.mem_cons_of_mem _ hm))

/-- A node that is passed over is not the one that runs next. -/
theorem head_ne_next {passed rest : List Addr} (h : k.RingInv n0 p0 held pre suf)
    (hsuf : suf = passed ++ rest) (hpassed : passed ≠ []) :
    rest.head?.getD n0 ≠ k.next k.current := by
  obtain ⟨c, passed, rfl⟩ := List.exists_cons_of_ne_nil hpassed
  have hafter := h.after
  have hnodup := (List.nodup_cons.mp (List.nodup_append.mp h.owned.nodup_ring).2.1).2
  have hfirst := h.first_notMem
  rw [hsuf] at hafter hnodup hfirst
  obtain ⟨rfl, -⟩ := hafter
  cases rest with
  | nil =>
      rintro rfl
      exact hfirst List.mem_cons_self
  | cons x rest =>
      rintro rfl
      exact (List.nodup_cons.mp hnodup).1 (List.mem_append_right _ List.mem_cons_self)

/-- The next node is as ready after the yield as before. -/
theorem departed_dispatchable_iff (h : k.RingInv n0 p0 held pre suf) (rsp : Nat) :
    (k.yieldQuantum.departed rsp).Dispatchable (k.yieldQuantum.departed rsp).current ↔
      k.Dispatchable (k.next k.current) := by
  obtain ⟨-, hproc, -⟩ := h.yieldQuantum
  obtain ⟨-, hdproc, -, -, -, hdst, -, -⟩ := departed_spec k.yieldQuantum rsp
  unfold Dispatchable Procs.isBlockedProcess Procs.isDeleteProcess
  rw [k.current_departed rsp, hdproc, hproc, hdst]
  exact Iff.rfl

/-- A yield dispatches the node that got its quantum exactly if that node is ready to run. -/
theorem yield_dispatches_iff (h : k.RingInv n0 p0 held pre suf) {d : Dispatch}
    (hd : k.yieldQuantum.nextProcess fuel rsp = some d) :
    d.k.current = k.next k.current ↔ k.Dispatchable (k.next k.current) := by
  obtain ⟨-, -, hyield⟩ := h.yieldQuantum
  have hzero := k.yieldQuantum_spent
  have hready := h.departed_dispatchable_iff rsp
  -- with one round of the loop the call returns if and only if the next node is ready
  have hone := @nextProcess_eq k.yieldQuantum rsp 1 hyield.current_ne_null hyield.unlocked
  rw [if_neg hzero, setNextCurrent] at hone
  rcases hyield.nextProcess_spec rsp with hstay | ⟨passed, rest, d', hsuf, hrun, -, hsw, -⟩
  · have hgo := @nextProcess_eq k.yieldQuantum rsp 0 hyield.current_ne_null hyield.unlocked
    rw [if_neg hzero, hstay 0] at hgo
    cases hgo
  · obtain rfl : d' = d := by
      rw [hrun] at hd
      split at hd
      next => exact Option.some.inj hd
      next => cases hd
    rw [hrun] at hone
    by_cases hdisp : k.Dispatchable (k.next k.current)
    · have hstop := not_or.mpr (hready.mpr hdisp)
      simp only [if_neg hstop, Option.map_some] at hone
      split at hone
      next =>
        refine iff_of_true ?_ hdisp
        obtain rfl := Option.some.inj hone
        exact k.current_departed rsp
      next => cases hone
    · refine iff_of_false ?_ hdisp
      have hpass : (k.yieldQuantum.departed rsp).processes.isBlockedProcess
          ((k.yieldQuantum.departed rsp).procOf (k.yieldQuantum.departed rsp).current) ∨
          (k.yieldQuantum.departed rsp).processes.isDeleteProcess
            ((k.yieldQuantum.departed rsp).procOf (k.yieldQuantum.departed rsp).current) := by
        by_contra hno
        exact hdisp (hready.mp (not_or.mp hno))
      have hpassed : passed ≠ [] := by
        rintro rfl
        simp only [if_pos hpass, setNextCurrent, Option.map_none, ite_self, List.length_nil,
          Nat.zero_lt_one, if_true] at hone
        cases hone
      rw [hsw.moved.current]
      exact h.head_ne_next hsuf hpassed

/-- The node behind the running process's is in the ring. -/
theorem next_mem (h : k.RingInv n0 p0 held pre suf) : k.next k.current ∈ pre ++ k.current :: suf := by
  have hafter := h.after
  cases suf with
  | nil =>
      have hfirst := List.mem_of_mem_head? h.isRing.first
      rwa [show k.next k.current = n0 from hafter]
  | cons c suf =>
      rw [hafter.1]
      exact List.mem_append_right _ (List.mem_cons_of_mem _ List.mem_cons_self)

/-- A call of `next_process` adds no node. -/
theorem nextProcess_ring (h : k.RingInv n0 p0 held pre suf) {d : Dispatch}
    (hd : k.nextProcess fuel rsp = some d) :
    ∃ pre' suf', d.k.RingInv n0 p0 held pre' suf' ∧
      ∀ b ∈ pre' ++ d.k.current :: suf', b ∈ pre ++ k.current :: suf := by
  rcases h.nextProcess_spec rsp with
    hstay | ⟨passed, rest, d', hsuf, hrun, -, -, pre', suf', hring, hinv⟩
  · rw [hstay] at hd
    cases hd
    exact ⟨pre, suf, h.unassignQuantum.2, fun b hb => hb⟩
  · rw [hrun] at hd
    split at hd
    next =>
      cases hd
      refine ⟨pre', suf', hinv, fun b hb => ?_⟩
      rw [hring] at hb
      rw [hsuf]
      simp only [List.mem_append, List.mem_cons, List.mem_filter] at hb ⊢
      tauto
    next => cases hd

end RingInv

/-! ## Runs -/

/-- Only the running process's node has a quantum too many. -/
structure Quanta (k : Kernel) (n0 p0 : Addr) (pre suf : List Addr) : Prop where
  ring : k.RingInv n0 p0 [] pre suf
  others : ∀ a ∈ pre ++ suf, k.quantumOf a = quantum
  current : k.quantumOf k.current = quantum ∨ k.quantumOf k.current = quantum + 1

namespace Quanta

variable {pre suf : List Addr}

theorem mem_cases (hb : b ∈ pre ++ a :: suf) : b = a ∨ b ∈ pre ++ suf := by
  simp only [List.mem_append, List.mem_cons] at hb ⊢
  tauto

/-- Every node has one quantum or two. -/
theorem bounds (h : k.Quanta n0 p0 pre suf) (hb : b ∈ pre ++ k.current :: suf) :
    quantum ≤ k.quantumOf b ∧ k.quantumOf b ≤ quantum + 1 := by
  rcases mem_cases hb with rfl | hb
  · rcases h.current with hq | hq <;> rw [hq] <;> decide
  · rw [h.others b hb]
    decide

/-- The nodes of a ring in which all but the running process's have one quantum. -/
theorem of_ring {pre' suf' : List Addr} (hring : k'.RingInv n0 p0 [] pre' suf')
    (hothers : ∀ b ∈ pre' ++ k'.current :: suf', b ≠ k'.current → k'.quantumOf b = quantum)
    (hcurrent : k'.quantumOf k'.current = quantum ∨ k'.quantumOf k'.current = quantum + 1) :
    k'.Quanta n0 p0 pre' suf' := by
  refine ⟨hring, fun b hb => ?_, hcurrent⟩
  have hnodup := hring.owned.nodup_ring
  refine hothers b ?_ ?_
  · simp only [List.mem_append, List.mem_cons] at hb ⊢
    tauto
  · rintro rfl
    rw [List.perm_middle.nodup_iff] at hnodup
    exact (List.nodup_cons.mp hnodup).1 hb

/-- A step keeps the quanta, and no blocked node of the ring gets one. -/
def Keeps (k : Kernel) (n0 p0 : Addr) (ring : List Addr) (k' : Kernel) : Prop :=
  (∃ pre' suf', k'.Quanta n0 p0 pre' suf') ∧
    ∀ a ∈ ring, k.BlockedNode a → k'.BlockedNode a → k'.quantumOf a ≤ k.quantumOf a

theorem tick (h : k.Quanta n0 p0 pre suf) {d : Dispatch}
    (hd : k.nextProcess fuel rsp = some d) : Keeps k n0 p0 (pre ++ k.current :: suf) d.k := by
  have hone : ∀ b ∈ pre ++ k.current :: suf, d.k.quantumOf b = quantum := by
    intro b hb
    rw [quantumOf_nextProcess h.ring.current_ne_null h.ring.unlocked hd]
    rcases mem_cases hb with rfl | hb
    · rw [update_self]
      rcases h.current with hq | hq <;> rw [hq] <;> decide
    · by_cases hc : b = k.current
      · rw [hc, update_self]
        rcases h.current with hq | hq <;> rw [hq] <;> decide
      · rw [update_of_ne hc, h.others b hb]
  obtain ⟨pre', suf', hring, hsub⟩ := h.ring.nextProcess_ring hd
  refine ⟨⟨pre', suf', of_ring hring (fun b hb _ => hone b (hsub b hb)) (Or.inl ?_)⟩, ?_⟩
  · exact hone _ (hsub _ (List.mem_append_right _ List.mem_cons_self))
  · intro b hb _ _
    rw [hone b hb]
    exact (h.bounds hb).1

theorem yield (h : k.Quanta n0 p0 pre suf) {d : Dispatch}
    (hd : k.yieldQuantum.nextProcess fuel rsp = some d) (hready : k.Dispatchable (k.next k.current)) :
    Keeps k n0 p0 (pre ++ k.current :: suf) d.k := by
  have hq := quantumOf_yield h.ring.current_ne_null h.ring.unlocked hd
  have hcur := (h.ring.yield_dispatches_iff hd).mpr hready
  have hself : d.k.quantumOf k.current = quantum := by rw [hq, update_self]
  have hother : ∀ b ∈ pre ++ k.current :: suf, b ≠ k.next k.current → d.k.quantumOf b = quantum := by
    intro b hb hne
    by_cases hc : b = k.current
    · rw [hc, hself]
    · rw [hq, update_of_ne hc, update_of_ne hne]
      exact h.others b ((mem_cases hb).resolve_left hc)
  have hnext : d.k.quantumOf (k.next k.current) = quantum ∨
      d.k.quantumOf (k.next k.current) = quantum + 1 := by
    by_cases hc : k.next k.current = k.current
    · rw [hc, hself]
      exact Or.inl rfl
    · rw [hq, update_of_ne hc, update_self,
        h.others _ ((mem_cases h.ring.next_mem).resolve_left hc)]
      exact Or.inr (by decide)
  obtain ⟨pre', suf', hring, hsub⟩ := h.ring.yieldQuantum.2.2.nextProcess_ring hd
  refine ⟨⟨pre', suf', of_ring hring (fun b hb hne => hother b (hsub b hb) (hcur ▸ hne)) ?_⟩, ?_⟩
  · rw [hcur]
    exact hnext
  · intro b hb hblocked _
    have hne : b ≠ k.next k.current := by
      rintro rfl
      exact hready.1 hblocked
    rw [hother b hb hne]
    exact (h.bounds hb).1

theorem finish (h : k.Quanta n0 p0 pre suf) (hne : k.current ≠ n0) {ps : List Addr}
    (hd : k.endProcess fuel = some (ps, k')) : Keeps k n0 p0 (pre ++ k.current :: suf) k' := by
  have hq := quantumOf_endProcess hd
  obtain ⟨passed, rest, ps', k₁, hsuf, hrun, hmoved, pre', suf', hring, hinv⟩ :=
    h.ring.endProcess_spec hne
  rw [hrun] at hd
  split at hd
  next =>
    cases hd
    have hsub : ∀ b ∈ pre' ++ k'.current :: suf', b ∈ pre ++ suf := by
      intro b hb
      rw [hring] at hb
      rw [hsuf]
      simp only [List.mem_append, List.mem_filter] at hb ⊢
      tauto
    have hself : k'.quantumOf k'.current = quantum + 1 := by
      rw [hq, update_self, h.others _ (hsub _ (List.mem_append_right _ List.mem_cons_self))]
      decide
    refine ⟨⟨pre', suf', of_ring hinv (fun b hb hc => ?_) (Or.inr hself)⟩, fun b hb _ hblocked => ?_⟩
    · rw [hq, update_of_ne hc, h.others b (hsub b hb)]
    · have hc : b ≠ k'.current := by
        rintro rfl
        exact hmoved.dispatchable.1 hblocked
      rw [hq, update_of_ne hc]
  next => cases hd

theorem exec (h : k.Quanta n0 p0 pre suf) {rip p : Nat} {name : CString}
    (hd : k.sysExec rip name = some (p, k')) : Keeps k n0 p0 (pre ++ k.current :: suf) k' := by
  have hq := quantumOf_sysExec hd
  obtain ⟨hcur, -, a, -, ha, hinv⟩ := h.ring.sysExec_spec hd
  obtain ⟨hnext, -⟩ := hinv.after
  rw [if_neg h.ring.current_ne_null, ← hcur, hnext] at hq
  have hold : ∀ b ∈ pre ++ k.current :: suf, k'.quantumOf b = k.quantumOf b := by
    intro b hb
    have hba : b ≠ a := fun he => ha (he ▸ hb)
    rw [hq, update_of_ne hba]
  refine ⟨⟨pre, a :: suf, hinv, fun b hb => ?_, ?_⟩, fun b hb _ _ => (hold b hb).le⟩
  · by_cases hba : b = a
    · rw [hba, hq, update_self]
    · have hb' : b ∈ pre ++ suf := (mem_cases hb).resolve_left hba
      have hmem : b ∈ pre ++ k.current :: suf := by
        simp only [List.mem_append, List.mem_cons] at hb' ⊢
        tauto
      rw [hold b hmem, h.others b hb']
  · rw [hcur, hold _ (List.mem_append_right _ List.mem_cons_self)]
    exact h.current

end Quanta

/-- A step that meets the guard keeps the quanta. -/
theorem Quanta.next {s t : Sched} {act : RingAction} {pre suf : List Addr}
    (h : s.k.Quanta n0 p0 pre suf) (hg : CreditsNext s act)
    (hn : (ringSystem n0 p0).next s act = some t) :
    Quanta.Keeps s.k n0 p0 (pre ++ s.k.current :: suf) t.k := by
  cases act with
  | exec rip name =>
      obtain ⟨⟨p, k⟩, hd, rfl⟩ := Option.map_eq_some_iff.mp hn
      exact h.exec hd
  | tick fuel rsp =>
      obtain ⟨d, hd, rfl⟩ := Option.map_eq_some_iff.mp hn
      exact h.tick hd
  | yield fuel rsp =>
      obtain ⟨d, hd, rfl⟩ := Option.map_eq_some_iff.mp hn
      exact h.yield hd hg
  | finish fuel =>
      simp only [ringSystem] at hn
      split at hn
      next hne =>
        obtain ⟨⟨ps, k⟩, hd, rfl⟩ := Option.map_eq_some_iff.mp hn
        exact h.finish (fun he => hne (he ▸ h.ring.init)) hd
      next => cases hn
  | status call p =>
      simp only [ringSystem] at hn
      split at hn
      next hready =>
        cases hn
        exact ⟨⟨pre, suf, h.ring.applyStatus hready, h.others, h.current⟩,
          fun _ _ _ _ => Int.le_refl _⟩
      next => cases hn

/-- What holds as long as every yield finds the next process ready. -/
theorem quanta_of_reachBy {s : Sched} (h : (ringSystem n0 p0).ReachBy CreditsNext s) :
    ∃ pre suf, s.k.Quanta n0 p0 pre suf := by
  refine h.invariant (I := fun s => ∃ pre suf, s.k.Quanta n0 p0 pre suf) ?_ ?_
  · rintro s ⟨k, rip, name, hboot, hexec, rfl, -, -⟩
    have hq := quantumOf_sysExec hexec
    rw [if_pos hboot.noCurrent] at hq
    refine ⟨[], [], hboot.sysExec_spec hexec, fun a ha => absurd ha List.not_mem_nil, Or.inl ?_⟩
    rw [hq, update_self]
  · rintro s act t ⟨pre, suf, hinv⟩ hg hn
    exact (hinv.next hg hn).1

/-- `init` starts a process and yields to it. -/
def yielded : Option Sched :=
  initSystem.executeBy (fun s act => decide (CreditsNext s act)) ⟨initStarted.2, [initStarted.1]⟩
    [.exec 0 .nil, .yield 1 0]

end Kernel

end TPE
