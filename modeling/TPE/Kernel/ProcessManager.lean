import TPE.Kernel.Process

/-!
# The scheduler

`processManager.c` keeps the running process and all others in a singly linked
ring and walks it with two pointers: `current`, the node of the running
process, and `prev`, which a removal needs to unlink the current node.

A process that is killed stays in the ring.  `set_next_current` walks over it
later, unlinks its node and destroys it.

The loop of `set_next_current` is bounded by fuel.  It also reports the
processes it hands to `destroy_process`, for the statement of results.
-/

namespace TPE

open Function

namespace Kernel

/-! ## Nodes -/

/-- The node after `a`. -/
def next (k : Kernel) (a : Addr) : Addr := (k.nodes a).next

/-- The process of the node `a`. -/
def procOf (k : Kernel) (a : Addr) : Addr := (k.nodes a).p

/-- Write the node at `a`. -/
def writeNode (k : Kernel) (a : Addr) (f : ListNode → ListNode) : Kernel :=
  { k with nodes := update k.nodes a (f (k.nodes a)) }

/-- `a->next = b` -/
def link (k : Kernel) (a b : Addr) : Kernel := k.writeNode a fun n => { n with next := b }

/-- The process of the node `a` is marked for deletion. -/
def Doomed (k : Kernel) (a : Addr) : Prop := k.processes.isDeleteProcess (k.procOf a)

instance (k : Kernel) (a : Addr) : Decidable (k.Doomed a) := inferInstanceAs (Decidable (_ ∧ _))

/-- The process of the node `a` can be dispatched. -/
def Dispatchable (k : Kernel) (a : Addr) : Prop :=
  ¬k.processes.isBlockedProcess (k.procOf a) ∧ ¬k.processes.isDeleteProcess (k.procOf a)

instance (k : Kernel) (a : Addr) : Decidable (k.Dispatchable a) :=
  inferInstanceAs (Decidable (_ ∧ _))

@[simp] theorem next_writeNode (k : Kernel) (a : Addr) (f : ListNode → ListNode) :
    (k.writeNode a f).next = update k.next a (f (k.nodes a)).next := by
  funext b
  by_cases h : b = a
  · subst h
    simp [next, writeNode]
  · simp [next, writeNode, h]

@[simp] theorem procOf_writeNode (k : Kernel) (a : Addr) (f : ListNode → ListNode) :
    (k.writeNode a f).procOf = update k.procOf a (f (k.nodes a)).p := by
  funext b
  by_cases h : b = a
  · subst h
    simp [procOf, writeNode]
  · simp [procOf, writeNode, h]

@[simp] theorem next_link (k : Kernel) (a b : Addr) : (k.link a b).next = update k.next a b :=
  next_writeNode _ _ _

@[simp] theorem procOf_link (k : Kernel) (a b : Addr) : (k.link a b).procOf = k.procOf := by
  rw [link, procOf_writeNode]
  exact update_eq_self a k.procOf

/-- A write of the quantum of a node. -/
theorem next_writeQuantum (k : Kernel) (a : Addr) (f : Int → Int) :
    (k.writeNode a fun n => { n with quantum := f n.quantum }).next = k.next := by
  rw [next_writeNode]
  exact update_eq_self a k.next

theorem procOf_writeQuantum (k : Kernel) (a : Addr) (f : Int → Int) :
    (k.writeNode a fun n => { n with quantum := f n.quantum }).procOf = k.procOf := by
  rw [procOf_writeNode]
  exact update_eq_self a k.procOf

/-- `assign_quantum` -/
def assignQuantum (k : Kernel) : Kernel :=
  k.writeNode k.current fun n => { n with quantum := int32 (n.quantum + 1) }

/-- `unassign_quantum` -/
def unassignQuantum (k : Kernel) : Kernel :=
  k.writeNode k.current fun n => { n with quantum := int32 (n.quantum - 1) }

/-- Only the quantum of the running process changes. -/
theorem next_assignQuantum (k : Kernel) : k.assignQuantum.next = k.next :=
  next_writeQuantum k k.current fun n => int32 (n + 1)

theorem procOf_assignQuantum (k : Kernel) : k.assignQuantum.procOf = k.procOf :=
  procOf_writeQuantum k k.current fun n => int32 (n + 1)

theorem next_unassignQuantum (k : Kernel) : k.unassignQuantum.next = k.next :=
  next_writeQuantum k k.current fun n => int32 (n - 1)

theorem procOf_unassignQuantum (k : Kernel) : k.unassignQuantum.procOf = k.procOf :=
  procOf_writeQuantum k k.current fun n => int32 (n - 1)

/-! ## Insertion -/

/-- `add_process(p)` -/
def addProcess (k : Kernel) (p : Addr) : Option Kernel :=
  k.getPage.map fun (newNode, k) =>
    let k := k.writeNode newNode fun n => { n with p := p, quantum := quantum }
    if k.current = null then
      let k := { k with current := newNode }
      let k := k.link k.current k.current
      { k with prev := k.current, superlock := .unlocked }
    else
      let k := k.link newNode (k.next k.current)
      let k := k.link k.current newNode
      { k with superlock := .unlocked }

/-- A node for `p` is linked in behind the running process's, or is the first one. -/
structure Added (k : Kernel) (p a : Addr) (k' : Kernel) : Prop where
  getPage : k.pages.getPage = some (a, k'.pages)
  procOf : k'.procOf = update k.procOf a p
  next : k'.next = if k.current = null then update k.next a a
    else update (update k.next a (k.next k.current)) k.current a
  current : k'.current = if k.current = null then a else k.current
  prev : k'.prev = if k.current = null then a else k.prev
  processes : k'.processes = k.processes
  unlocked : k'.superlock = .unlocked

theorem addProcess_spec {k k' : Kernel} {p : Addr} (h : k.addProcess p = some k') :
    ∃ a, Added k p a k' := by
  obtain ⟨⟨a, k₁⟩, hget, he⟩ := Option.map_eq_some_iff.mp h
  obtain ⟨pages, hpages, rfl⟩ := getPage_eq_some hget
  refine ⟨a, ?_⟩
  have hproc : (writeNode { k with pages } a fun n => { n with p := p, quantum := quantum }).procOf
      = update k.procOf a p := procOf_writeNode _ _ _
  have hnext : (writeNode { k with pages } a fun n => { n with p := p, quantum := quantum }).next
      = k.next := (next_writeNode _ _ _).trans (update_eq_self a k.next)
  simp only at he
  split at he
  next hnull =>
    have hcur : k.current = null := hnull
    cases he
    refine ⟨hpages, ?_, ?_, (if_pos hcur).symm, (if_pos hcur).symm, rfl, rfl⟩
    · exact (procOf_link _ _ _).trans hproc
    · rw [if_pos hcur]
      refine (next_link _ _ _).trans ?_
      exact congrArg (fun f => update f a a) hnext
  next hnull =>
    have hcur : ¬k.current = null := hnull
    cases he
    refine ⟨hpages, ?_, ?_, (if_neg hcur).symm, (if_neg hcur).symm, rfl, rfl⟩
    · exact (procOf_link _ _ _).trans ((procOf_link _ _ _).trans hproc)
    · rw [if_neg hcur]
      refine (next_link _ _ _).trans ?_
      rw [next_link, hnext]
      rfl

/-- `sys_exec`, called by the running process: `create_process` and then
`exec_process`.  The pid 0 branch of `exec_process` starts the first process
and is not taken by a running one.  The new process is returned. -/
def sysExec (k : Kernel) (rip : Nat) (name : CString) : Option (Addr × Kernel) :=
  (k.createProcess rip name).bind fun (p, k) => (k.addProcess p).map fun k => (p, k)

/-! ## The walk to the next process -/

/-- `set_next_current`, with the processes it destroys. -/
def setNextCurrent : Nat → Kernel → Option (List Addr × Kernel)
  | 0, _ => none
  | fuel + 1, k =>
      let p := k.procOf k.current
      if k.processes.isBlockedProcess p ∨ k.processes.isDeleteProcess p then
        let next := k.next k.current
        if k.processes.isDeleteProcess p then
          let k' := k.link k.prev next
          let k' := k'.destroyProcess p
          let k' := k'.storePage k'.current
          (setNextCurrent fuel { k' with current := next }).map fun (ps, k) => (p :: ps, k)
        else setNextCurrent fuel { k with prev := k.current, current := next }
      else some ([], k)

/-- What a call of `next_process` ends with. -/
structure Dispatch where
  /-- The return value. -/
  rsp : Nat
  /-- The call got past its three tests and chose a process. -/
  switched : Bool
  /-- The processes it destroyed. -/
  destroyed : List Addr
  /-- The state it leaves. -/
  k : Kernel

/-- `next_process(current_rsp)` -/
def nextProcess (fuel : Nat) (k : Kernel) (currentRsp : Nat) : Option Dispatch :=
  if k.current = null then some ⟨currentRsp, false, [], k⟩
  else
    let k := k.unassignQuantum
    if 0 < (k.nodes k.current).quantum then some ⟨currentRsp, false, [], k⟩
    else if k.superlock = .locked then some ⟨currentRsp, false, [], k⟩
    else
      let k := { k with superlock := .locked }
      let k := k.writeNode k.current fun n => { n with quantum := quantum }
      let k := k.setRspProcess (k.procOf k.current) currentRsp
      let k := { k with prev := k.current, current := k.next k.current }
      (setNextCurrent fuel k).map fun (destroyed, k) =>
        let k := { k with superlock := .unlocked }
        ⟨k.getRspProcess (k.procOf k.current), true, destroyed, k⟩

/-- `yield_process` up to its software interrupt, which calls `next_process`. -/
def yieldQuantum (k : Kernel) : Kernel :=
  let k := k.writeNode (k.next k.current) fun n => { n with quantum := int32 (n.quantum + 1) }
  k.writeNode k.current fun n => { n with quantum := 0 }

/-- A yield only moves quanta. -/
theorem next_yieldQuantum (k : Kernel) : k.yieldQuantum.next = k.next := by
  refine (next_writeQuantum _ _ fun _ => 0).trans ?_
  exact next_writeQuantum k (k.next k.current) fun n => int32 (n + 1)

theorem procOf_yieldQuantum (k : Kernel) : k.yieldQuantum.procOf = k.procOf := by
  refine (procOf_writeQuantum _ _ fun _ => 0).trans ?_
  exact procOf_writeQuantum k (k.next k.current) fun n => int32 (n + 1)

/-- `end_process`, with the processes it destroys.  It does not return: the
stack pointer of the new current process is loaded. -/
def endProcess (fuel : Nat) (k : Kernel) : Option (List Addr × Kernel) :=
  let k := { k with superlock := .locked }
  let n := k.current
  let p := k.procOf n
  let k := k.destroyProcess p
  let k := k.link k.prev (k.next k.current)
  let k := { k with current := k.next k.current }
  (setNextCurrent fuel k).map fun (destroyed, k) =>
    let k := { k with superlock := .unlocked }
    let k := k.storePage n
    (p :: destroyed, k.assignQuantum)

/-- A kernel with two processes, of which the first runs. -/
def twoProcesses : Kernel where
  pages := PageStack.initializeMemoryAllocator ⟨fun _ => 0, 0⟩
  nodes a := if a = 1 then ⟨1, 10, 2⟩ else ⟨1, 20, 1⟩
  current := 1

end Kernel

end TPE
