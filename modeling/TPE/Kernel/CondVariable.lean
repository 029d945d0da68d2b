import TPE.Kernel.KernelMutex

/-!
# Condition variables

`condVariable.c`: a condition variable is a queue of waiting processes with a
mutex of its own, which is opened under a name made of the variable's key.

The queue is only touched under that mutex, and each such section is one step
here.  The lock of the table is not modelled: it is free between two calls.
-/

namespace TPE

open Function

/-- The bytes of `COND_LOCK_IDENTIFIER`, `"__COND_ARRAY_LOCK__"`. -/
def condLockIdentifier : List UInt8 :=
  [95, 95, 67, 79, 78, 68, 95, 65, 82, 82, 65, 89, 95, 76, 79, 67, 75, 95, 95]

/-- The digits that `itoa(value, str, 10)` writes for `value ≥ 0`. -/
def itoa : Nat → Nat → List UInt8
  | 0, value => [UInt8.ofNat (48 + value % 10)]
  | rounds + 1, value =>
      if value / 10 = 0 then [UInt8.ofNat (48 + value % 10)]
      else itoa rounds (value / 10) ++ [UInt8.ofNat (48 + value % 10)]

theorem zero_notMem_itoa (rounds value : Nat) : (0 : UInt8) ∉ itoa rounds value := by
  have hdigit : ∀ v : Nat, (0 : UInt8) ≠ UInt8.ofNat (48 + v % 10) := by
    intro v he
    have := congrArg UInt8.toNat he
    rw [UInt8.toNat_ofNat'] at this
    have hzero : (0 : UInt8).toNat = 0 := rfl
    omega
  induction rounds generalizing value with
  | zero => simpa [itoa] using hdigit value
  | succ rounds ih =>
      rw [itoa]
      split
      · simpa using hdigit value
      · simp only [List.mem_append, not_or, List.mem_singleton]
        exact ⟨ih _, hdigit value⟩

/-- The name of the mutex that guards the queue of the variable `key`. -/
def condLockName (key : Nat) : CString where
  bytes := itoa 2 key ++ condLockIdentifier
  noNul := by
    simp only [List.mem_append, not_or]
    exact ⟨zero_notMem_itoa _ _, by decide⟩

namespace Kernel

/-- `is_open` of `condVariable.c` -/
def condIsOpen (k : Kernel) (key : Int) : Prop :=
  0 ≤ key ∧ key < maxCondVar ∧ (k.openConds key).state = .opened

instance (k : Kernel) (key : Int) : Decidable (k.condIsOpen key) :=
  inferInstanceAs (Decidable (_ ∧ _ ∧ _))

/-- Write the condition variable with the key `key`. -/
def writeCond (k : Kernel) (key : Int) (f : CondVariable → CondVariable) : Kernel :=
  { k with openConds := update k.openConds key (f (k.openConds key)) }

/-! ## Open and close -/

/-- The loop of `cond_open`. -/
def condSearch (k : Kernel) (name : CString) : Scan :=
  scanFrom (fun i => (k.openConds i).state = .opened)
    (fun i => (k.openConds i).name.strcmp name = 0) maxCondVar 0

/-- `create_new_cond` -/
def createNewCond (k : Kernel) (key : Nat) (name : CString) : Option Kernel :=
  (k.mutexOpen (condLockName key)).bind fun (lock, k) =>
    k.createQueue.map fun (q, k) =>
      k.writeCond key fun _ => { name, state := .opened, lockQueue := lock, processQueue := q }

/-- `cond_open` -/
def condOpen (k : Kernel) (name : CString) : Option (Int × Kernel) :=
  match k.condSearch name with
  | .found i => some (i, k)
  | .full => some (maxOpenError, k)
  | .closed i => (k.createNewCond i name).map fun k => (i, k)

/-- `cond_broadcast` -/
def condBroadcast (k : Kernel) (key : Int) : Option (Int × Kernel) :=
  if k.condIsOpen key then
    let q := (k.openConds key).processQueue
    (releaseWaiters ((k.queues q).length + 1) k q).map fun k => (1, k)
  else some (notOpenError, k)

/-- `cond_close` -/
def condClose (k : Kernel) (key : Int) : Option (Int × Kernel) :=
  if k.condIsOpen key then
    (k.condBroadcast key).bind fun (_, k) =>
      (k.destroyQueue (k.openConds key).processQueue).bind fun k =>
        (k.mutexClose (k.openConds key).lockQueue).map fun (_, k) =>
          (1, k.writeCond key fun v => { v with state := .closed })
  else some (notOpenError, k)

/-! ## Wait and signal -/

/-- `sync_enqueue` -/
def syncEnqueue (k : Kernel) (key : Int) (p : Addr) : Option Kernel :=
  k.enqueue (k.openConds key).processQueue p

/-- `sync_dequeue` -/
def syncDequeue (k : Kernel) (key : Int) : Option (Addr × Kernel) :=
  let q := (k.openConds key).processQueue
  if k.isEmpty q then some (null, k) else k.dequeue q

/-- `cond_signal` -/
def condSignal (k : Kernel) (key : Int) : Option (Int × Kernel) :=
  if k.condIsOpen key then
    (k.syncDequeue key).map fun (p, k) =>
      (1, if p ≠ null then { k with processes := Procs.unblockProcess k.processes p } else k)
  else some (notOpenError, k)

end Kernel

end TPE
