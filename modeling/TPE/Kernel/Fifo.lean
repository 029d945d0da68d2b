import TPE.Kernel.KernelMutex

/-!
# Fifos

`fifo.c`: a fifo is a circular buffer with a queue of read requests.  A reader
that finds no byte queues a request with the address its bytes go to, and a
writer serves the queued requests.

A section under the mutex of a fifo is one step.  The lock of the table is not
modelled: it is free between two calls.
-/

namespace TPE

open Function

/-! ## File descriptors -/

/-- `1 << fd` as an `int`, extended to the width of `open_fds`.  The processor
takes the shift count modulo 32. -/
def fdMask (fd : Int) : BitVec 64 := ((1#32) <<< (fd % 32).toNat).signExtend 64

namespace Kernel

/-- `set_file_open` -/
def setFileOpen (k : Kernel) (p : Addr) (fd : Int) : Kernel :=
  if fd ≥ maxFds then k else k.writeProcess p fun c => { c with openFds := c.openFds ||| fdMask fd }

/-- `set_file_open` writes the process structures. -/
theorem setFileOpen_eq (k : Kernel) (p : Addr) (fd : Int) :
    ∃ processes, k.setFileOpen p fd = { k with processes } := by
  unfold setFileOpen
  split
  · exact ⟨_, rfl⟩
  · exact ⟨_, rfl⟩

@[simp] theorem openFifos_setFileOpen {k : Kernel} {p : Addr} {fd : Int} :
    (k.setFileOpen p fd).openFifos = k.openFifos := by
  unfold setFileOpen
  split <;> rfl

/-- `file_is_open` -/
def fileIsOpen (k : Kernel) (p : Addr) (fd : Int) : Prop :=
  fd < maxFds ∧ (k.processes p).openFds &&& fdMask fd ≠ 0

instance (k : Kernel) (p : Addr) (fd : Int) : Decidable (k.fileIsOpen p fd) :=
  inferInstanceAs (Decidable (_ ∧ _))

/-- `is_open` of `fifo.c` -/
def fifoIsOpen (k : Kernel) (key : Int) : Prop :=
  key < maxFifos ∧ (k.openFifos key).state = .opened ∧ k.fileIsOpen k.getCurrentProcess key

instance (k : Kernel) (key : Int) : Decidable (k.fifoIsOpen key) :=
  inferInstanceAs (Decidable (_ ∧ _ ∧ _))

/-- Write the fifo with the key `key`. -/
def writeFifo (k : Kernel) (key : Int) (f : Fifo → Fifo) : Kernel :=
  { k with openFifos := update k.openFifos key (f (k.openFifos key)) }

/-- Write the read request at `r`. -/
def writeRequest (k : Kernel) (r : Addr) (f : ReadRequest → ReadRequest) : Kernel :=
  { k with readRequests := update k.readRequests r (f (k.readRequests r)) }

/-! ## Open and close -/

/-- The loop of `fifo_open`. -/
def fifoSearch (k : Kernel) (name : CString) : Scan :=
  scanFrom (fun i => (k.openFifos i).state = .opened)
    (fun i => name.strcmp (k.openFifos i).name = 0) maxFifos 0

/-- `fifo_open`, with `create_new_fifo` -/
def fifoOpen (k : Kernel) (name : CString) : Option (Int × Kernel) :=
  match k.fifoSearch name with
  | .found i => some (i, k.setFileOpen k.getCurrentProcess i)
  | .full => some (maxOpenError, k)
  | .closed i =>
      (k.mutexOpen name).bind fun (lock, k) =>
        k.createQueue.map fun (q, k) =>
          let k := k.writeFifo i fun _ =>
            { name
              state := .opened
              cBuffer := .create fun _ => 0
              fifoMutexKey := lock
              readQueue := q }
          (i, k.setFileOpen k.getCurrentProcess i)

/-- `release_readers` -/
def releaseReaders : Nat → Kernel → Addr → Option Kernel
  | 0, _, _ => none
  | fuel + 1, k, q =>
      if k.isEmpty q then some k
      else (k.dequeue q).bind fun (req, k) =>
        releaseReaders fuel
          { k with processes := Procs.unblockProcess k.processes (k.readRequests req).readerP } q

/-- `fifo_close` -/
def fifoClose (k : Kernel) (key : Int) : Option (Int × Kernel) :=
  if k.fifoIsOpen key then
    let q := (k.openFifos key).readQueue
    (releaseReaders ((k.queues q).length + 1) k q).bind fun k =>
      (k.destroyQueue q).map fun k => (1, k.writeFifo key fun f => { f with state := .closed })
  else some (notOpenError, k)

/-! ## Read and write -/

/-- `try_read`: whether the request was served. -/
def tryRead (k : Kernel) (r : Addr) : Option (Bool × Kernel) :=
  let req := k.readRequests r
  let c := (k.openFifos req.f).cBuffer
  if 0 < c.bufFill then
    match c.read (fun i => k.memory (req.buffer + i)) req.bytes with
    | .ok t =>
        let k := k.writeFifo req.f fun f => { f with cBuffer := t.cbuf }
        let k := k.writeRequest r fun req => { req with bytesRead := t.count }
        let memory := fun a => if req.buffer ≤ a then t.mem (a - req.buffer) else k.memory a
        some (true, { k with memory })
    | .error _ => none
  else some (false, k)

/-- `send_to_readers` -/
def sendToReaders : Nat → Kernel → Addr → Option Kernel
  | 0, _, _ => none
  | fuel + 1, k, q =>
      if k.isEmpty q then some k
      else (k.tryRead (k.peek q)).bind fun (served, k) =>
        if served then
          (k.dequeue q).bind fun (r, k) =>
            sendToReaders fuel
              { k with processes := Procs.unblockProcess k.processes (k.readRequests r).readerP } q
        else some k

/-- The section of `fifo_write` under the mutex.  `source` is the caller's buffer. -/
def writeSection (k : Kernel) (key : Int) (source : Nat → UInt8) (bytes : Int) :
    Option (Int × Kernel) :=
  match (k.openFifos key).cBuffer.write source bytes with
  | .ok t =>
      let k := k.writeFifo key fun f => { f with cBuffer := t.cbuf }
      let q := (k.openFifos key).readQueue
      (sendToReaders ((k.queues q).length + 1) k q).map fun k => (t.count, k)
  | .error _ => none

/-- `create_read_request` -/
def createReadRequest (k : Kernel) (key : Int) (buf : Addr) (bytes : Int) :
    Option (Addr × Kernel) :=
  k.getPage.map fun (r, k) =>
    (r, k.writeRequest r fun req =>
      { req with bytes, buffer := buf, f := key, readerP := k.getCurrentProcess })

/-- The section of `fifo_read` under the mutex: whether the request `r` was served
at once.  If not, it is queued. -/
def readSection (k : Kernel) (key : Int) (r : Addr) : Option (Bool × Kernel) :=
  let q := (k.openFifos key).readQueue
  let attempt := if k.isEmpty q then k.tryRead r else some (false, k)
  attempt.bind fun (couldRead, k) =>
    if couldRead then some (true, k) else (k.enqueue q r).map fun k => (false, k)

end Kernel

end TPE
