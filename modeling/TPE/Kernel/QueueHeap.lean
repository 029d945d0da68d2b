import TPE.Library.Pool
import TPE.Library.Walk
import TPE.Kernel.State

/-!
# Queues on pages

`queueADT.c` on the level of its pages.  The header of a queue is on one page and each of its
nodes on another, and only the first two words of a page are used: `first` and `last` of a
header, `elem` and `next` of a node.  The same words serve both, so a write to a page that has
been handed out twice would show.

The allocator is a parameter.  A state also records the pages that it handed out to queues and
those that they gave back.

`Spells` says that the nodes of one queue lead from `first` to `last`, and `Linked` that all
queues do and that no two of them share a page.
-/

namespace TPE

open Function

/-- The first two words of a page. -/
structure PageWords where
  fst : Addr
  snd : Addr
deriving DecidableEq, Repr

/-- The pages, and the allocator's state. -/
structure QueueHeap (σ : Type*) where
  mem : Addr → PageWords
  alloc : σ
  /-- The pages that were handed out to queues. -/
  taken : List Addr
  /-- The pages that queues gave back, the last one behind the others. -/
  given : List Addr

namespace QueueHeap

variable {σ : Type*} (A : Allocator Addr σ)

/-! ## The fields -/

def first (s : QueueHeap σ) (q : Addr) : Addr := (s.mem q).fst

def last (s : QueueHeap σ) (q : Addr) : Addr := (s.mem q).snd

def elem (s : QueueHeap σ) (p : Addr) : Addr := (s.mem p).fst

def next (s : QueueHeap σ) (p : Addr) : Addr := (s.mem p).snd

/-- `q->first = p` -/
def setFirst (s : QueueHeap σ) (q p : Addr) : QueueHeap σ :=
  { s with mem := update s.mem q { s.mem q with fst := p } }

/-- `q->last = p` -/
def setLast (s : QueueHeap σ) (q p : Addr) : QueueHeap σ :=
  { s with mem := update s.mem q { s.mem q with snd := p } }

/-- `p->elem = elem` -/
def setElem (s : QueueHeap σ) (p elem : Addr) : QueueHeap σ :=
  { s with mem := update s.mem p { s.mem p with fst := elem } }

/-- `p->next = p'` -/
def setNext (s : QueueHeap σ) (p p' : Addr) : QueueHeap σ :=
  { s with mem := update s.mem p { s.mem p with snd := p' } }

/-! ## The code -/

/-- `get_page` -/
def getPage (s : QueueHeap σ) : Option (Addr × QueueHeap σ) :=
  (A.take s.alloc).map fun (page, alloc) => (page, { s with alloc, taken := s.taken ++ [page] })

/-- `store_page` -/
def storePage (s : QueueHeap σ) (page : Addr) : QueueHeap σ :=
  { s with alloc := A.give s.alloc page, given := s.given ++ [page] }

/-- `create_queue` -/
def createQueue (s : QueueHeap σ) : Option (Addr × QueueHeap σ) :=
  (s.getPage A).map fun (q, s) =>
    (q, if q = null then s else (s.setFirst q null).setLast q null)

/-- `is_empty` -/
def isEmpty (s : QueueHeap σ) (q : Addr) : Prop := q = null ∨ s.first q = null

instance (s : QueueHeap σ) (q : Addr) : Decidable (s.isEmpty q) :=
  inferInstanceAs (Decidable (_ ∨ _))

/-- `enqueue` behind its call of `get_page`. -/
def addNode (s : QueueHeap σ) (q newNode elem : Addr) : QueueHeap σ :=
  let s := (s.setElem newNode elem).setNext newNode null
  if s.first q = null then (s.setFirst q newNode).setLast q newNode
  else (s.setNext (s.last q) newNode).setLast q newNode

/-- `enqueue` -/
def enqueue (s : QueueHeap σ) (q elem : Addr) : Option (QueueHeap σ) :=
  if q = null then some s
  else (s.getPage A).map fun (newNode, s) => s.addNode q newNode elem

/-- `peek` -/
def peek (s : QueueHeap σ) (q : Addr) : Addr :=
  if s.isEmpty q then null else s.elem (s.first q)

/-- What `dequeue` does to a queue that is not empty, before its call of `store_page`. -/
def removeNode (s : QueueHeap σ) (q : Addr) : QueueHeap σ :=
  let s := s.setFirst q (s.next (s.first q))
  if s.first q = null then s.setLast q null else s

/-- `dequeue` -/
def dequeue (s : QueueHeap σ) (q : Addr) : Addr × QueueHeap σ :=
  if s.isEmpty q then (null, s)
  else
    let f := s.first q
    (s.elem f, (s.removeNode q).storePage A f)

/-- The loop of `destroy_queue`. -/
def emptyQueue : Nat → QueueHeap σ → Addr → Option (QueueHeap σ)
  | 0, _, _ => none
  | fuel + 1, s, q => if s.isEmpty q then some s else emptyQueue fuel (s.dequeue A q).2 q

/-- `destroy_queue` -/
def destroyQueue (fuel : Nat) (s : QueueHeap σ) (q : Addr) : Option (QueueHeap σ) :=
  (emptyQueue A fuel s q).map fun s => s.storePage A q

variable {A} {s t : QueueHeap σ} {q p e : Addr} {l c : List Addr}

theorem getPage_eq_some (h : s.getPage A = some (p, t)) : ∃ alloc,
    A.take s.alloc = some (p, alloc) ∧ t = { s with alloc, taken := s.taken ++ [p] } := by
  obtain ⟨⟨page, alloc⟩, htake, he⟩ := Option.map_eq_some_iff.mp h
  obtain ⟨rfl, rfl⟩ := Prod.mk.inj he
  exact ⟨alloc, htake, rfl⟩

/-! ## One queue -/

/-- The nodes `l` lead from `first` to `last` of the queue at `q`, and their elements are `c`. -/
structure Spells (s : QueueHeap σ) (q : Addr) (l c : List Addr) : Prop where
  walk : Walk s.next (s.first q) l null
  elems : l.map s.elem = c
  last : s.last q = l.getLast?.getD null

theorem Spells.congr (h : s.Spells q l c) (hq : t.mem q = s.mem q)
    (hl : ∀ a ∈ l, t.mem a = s.mem a) : t.Spells q l c := by
  refine ⟨?_, ?_, ?_⟩
  · rw [first, hq]
    exact h.walk.congr fun a ha => congrArg PageWords.snd (hl a ha)
  · rw [← h.elems]
    exact List.map_congr_left fun a ha => congrArg PageWords.fst (hl a ha)
  · rw [QueueHeap.last, hq]
    exact h.last

/-- `first` is `NULL` in an empty queue only. -/
theorem Spells.first_eq_null_iff (h : s.Spells q l c) (hnull : null ∉ l) :
    s.first q = null ↔ l = [] := by
  cases l with
  | nil => exact iff_of_true h.walk rfl
  | cons f l =>
      refine iff_of_false (fun he => hnull ?_) (List.cons_ne_nil f l)
      rw [← he, h.walk.1]
      exact List.mem_cons_self

/-- So is `last`. -/
theorem Spells.last_eq_null_iff (h : s.Spells q l c) (hnull : null ∉ l) :
    s.last q = null ↔ l = [] := by
  rw [h.last]
  cases hlast : l.getLast? with
  | none => exact iff_of_true rfl (List.getLast?_eq_none_iff.mp hlast)
  | some a =>
      refine iff_of_false (fun he => hnull ?_) ?_
      · rw [← show a = null from he]
        exact List.mem_of_getLast? hlast
      · rintro rfl
        cases hlast

theorem Spells.isEmpty_iff (h : s.Spells q l c) (hq : q ≠ null) (hnull : null ∉ l) :
    s.isEmpty q ↔ c = [] := by
  rw [isEmpty, or_iff_right hq, h.first_eq_null_iff hnull, ← h.elems, List.map_eq_nil_iff]

/-- `peek` returns the oldest element. -/
theorem Spells.peek (h : s.Spells q l c) (hq : q ≠ null) (hnull : null ∉ l) :
    s.peek q = c.head?.getD null := by
  have hempty := h.isEmpty_iff hq hnull
  rw [QueueHeap.peek]
  split
  next hyes => rw [hempty.mp hyes]; rfl
  next hno =>
    cases l with
    | nil => exact absurd (hempty.mpr h.elems.symm) hno
    | cons f l =>
        rw [h.walk.1, ← h.elems]
        rfl

/-- A new queue is empty. -/
theorem spells_create (s : QueueHeap σ) (q : Addr) :
    ((s.setFirst q null).setLast q null).Spells q [] [] := by
  refine ⟨?_, rfl, ?_⟩
  · simp [first, setFirst, setLast]
  · simp [last, setLast]

/-- `enqueue` hangs its node behind the last one. -/
theorem Spells.addNode (h : s.Spells q l c) (hnull : null ∉ l) (hl : (l ++ [q, p]).Nodup) :
    (s.addNode q p e).Spells q (l ++ [p]) (c ++ [e]) := by
  obtain ⟨hnodup, htwo, hapart⟩ := List.nodup_append.mp hl
  have hqp : q ≠ p := by simpa using htwo
  have hql : q ∉ l := fun hm => hapart q hm q (by simp) rfl
  have hpl : p ∉ l := fun hm => hapart p hm p (by simp) rfl
  have hfirst : ((s.setElem p e).setNext p null).first q = s.first q := by
    simp [first, setElem, setNext, hqp]
  have hlast : ((s.setElem p e).setNext p null).last q = s.last q := by
    simp [QueueHeap.last, setElem, setNext, hqp]
  rw [QueueHeap.addNode, hfirst, hlast]
  rcases List.eq_nil_or_concat' l with rfl | ⟨init, z, rfl⟩
  · -- the node is the only one
    have hc : c = [] := h.elems.symm
    rw [if_pos ((h.first_eq_null_iff hnull).mpr rfl), hc]
    refine ⟨?_, ?_, ?_⟩
    · simp [Walk, first, next, setFirst, setLast, setElem, setNext, hqp, hqp.symm]
    · simp [elem, setFirst, setLast, setElem, setNext, hqp.symm]
    · simp [QueueHeap.last, setLast]
  · have hne : s.first q ≠ null := fun he => by
      simpa using (h.first_eq_null_iff hnull).mp he
    have hz : s.last q = z := by simpa using h.last
    have hzp : z ≠ p := fun he => hpl (by simp [he])
    have hzq : z ≠ q := fun he => hql (by simp [he])
    rw [if_neg hne, hz]
    -- nothing else of the old nodes is written
    have hmem : ∀ a ∈ init, ((((s.setElem p e).setNext p null).setNext z p).setLast q p).mem a =
        s.mem a := by
      intro a ha
      have hap : a ≠ p := fun he => hpl (by simp [← he, ha])
      have haq : a ≠ q := fun he => hql (by simp [← he, ha])
      have haz : a ≠ z := by
        rintro rfl
        exact (List.nodup_append.mp hnodup).2.2 a ha a (by simp) rfl
      simp [setElem, setNext, setLast, hap, haq, haz]
    obtain ⟨hwalk, -⟩ := Walk.concat_iff.mp h.walk
    refine ⟨Walk.concat_iff.mpr ⟨Walk.concat_iff.mpr ⟨?_, ?_⟩, ?_⟩, ?_, ?_⟩
    · have hsame : ((((s.setElem p e).setNext p null).setNext z p).setLast q p).first q =
          s.first q := by
        simp [first, setElem, setNext, setLast, hqp, hzq.symm]
      rw [hsame]
      exact hwalk.congr fun a ha => congrArg PageWords.snd (hmem a ha)
    · simp [next, setNext, setLast, hzq]
    · simp [next, setNext, setLast, hqp.symm, hzp.symm]
    · have hold : (init ++ [z]).map
          ((((s.setElem p e).setNext p null).setNext z p).setLast q p).elem = c := by
        rw [← h.elems]
        refine List.map_congr_left fun a ha => ?_
        rcases List.mem_append.mp ha with ha | ha
        · exact congrArg PageWords.fst (hmem a ha)
        · rw [List.mem_singleton.mp ha]
          simp [elem, setElem, setNext, setLast, hzp, hzq]
      rw [List.map_append, hold]
      simp [elem, setElem, setNext, setLast, hqp.symm, hzp.symm]
    · simp [QueueHeap.last, setLast]

/-- Only the header, the last node and the new one are written. -/
theorem addNode_frame {a : Addr} (hq : a ≠ q) (hp : a ≠ p) (hlast : a ≠ s.last q) (hqp : q ≠ p) :
    (s.addNode q p e).mem a = s.mem a := by
  have hlast' : ((s.setElem p e).setNext p null).last q = s.last q := by
    simp [QueueHeap.last, setElem, setNext, hqp]
  rw [QueueHeap.addNode, hlast']
  split
  · simp [setFirst, setLast, setElem, setNext, hq, hp]
  · simp [setLast, setElem, setNext, hq, hp, hlast]

/-- `dequeue` moves `first` to the second node. -/
theorem Spells.removeNode (h : s.Spells q (p :: l) c) (hnull : null ∉ l) (hq : q ∉ l) :
    (s.removeNode q).Spells q l c.tail := by
  have hfirst : s.first q = p := h.walk.1
  have hwalk : Walk s.next (s.next p) l null := by simpa [hfirst] using h.walk.2
  have hnext : (s.setFirst q (s.next p)).first q = s.next p := by simp [first, setFirst]
  have hframe : ∀ a ∈ l, (s.removeNode q).mem a = s.mem a := by
    intro a ha
    have haq : a ≠ q := fun he => hq (he ▸ ha)
    rw [QueueHeap.removeNode]
    split <;> simp [setFirst, setLast, haq]
  have hfirst' : (s.removeNode q).first q = s.next p := by
    rw [QueueHeap.removeNode, hfirst]
    split <;> simp [first, setFirst, setLast]
  refine ⟨?_, ?_, ?_⟩
  · rw [hfirst']
    exact hwalk.congr fun a ha => congrArg PageWords.snd (hframe a ha)
  · rw [← h.elems]
    exact List.map_congr_left fun a ha => congrArg PageWords.fst (hframe a ha)
  · rw [QueueHeap.removeNode, hfirst, hnext]
    cases l with
    | nil =>
        rw [if_pos (show s.next p = null from hwalk)]
        simp [QueueHeap.last, setLast]
    | cons z l =>
        have hz : s.next p ≠ null := by
          rw [show s.next p = z from hwalk.1]
          rintro rfl
          exact hnull List.mem_cons_self
        rw [if_neg hz]
        have hlast := h.last
        rw [List.getLast?_cons_cons] at hlast
        rw [← hlast]
        simp [QueueHeap.last, setFirst]

/-- Only the header is written. -/
theorem removeNode_frame {a : Addr} (hq : a ≠ q) : (s.removeNode q).mem a = s.mem a := by
  rw [QueueHeap.removeNode]
  split <;> simp [setFirst, setLast, hq]

/-! ## What is left alone -/

@[simp] theorem addNode_taken (s : QueueHeap σ) (q p e : Addr) :
    (s.addNode q p e).taken = s.taken := by
  rw [addNode]
  split <;> rfl

@[simp] theorem addNode_given (s : QueueHeap σ) (q p e : Addr) :
    (s.addNode q p e).given = s.given := by
  rw [addNode]
  split <;> rfl

@[simp] theorem addNode_alloc (s : QueueHeap σ) (q p e : Addr) :
    (s.addNode q p e).alloc = s.alloc := by
  rw [addNode]
  split <;> rfl

@[simp] theorem removeNode_taken (s : QueueHeap σ) (q : Addr) :
    (s.removeNode q).taken = s.taken := by
  rw [removeNode]
  split <;> rfl

@[simp] theorem removeNode_given (s : QueueHeap σ) (q : Addr) :
    (s.removeNode q).given = s.given := by
  rw [removeNode]
  split <;> rfl

@[simp] theorem removeNode_alloc (s : QueueHeap σ) (q : Addr) :
    (s.removeNode q).alloc = s.alloc := by
  rw [removeNode]
  split <;> rfl

/-! ## Calls on one queue -/

/-- `dequeue` on a queue with a node. -/
theorem Spells.dequeue (h : s.Spells q (p :: l) c) (hq : q ≠ null) (hnull : null ∉ p :: l) :
    s.dequeue A q = (s.elem p, (s.removeNode q).storePage A p) := by
  have hfirst : s.first q = p := h.walk.1
  have hempty : ¬s.isEmpty q := by
    rw [h.isEmpty_iff hq hnull, ← h.elems]
    exact List.cons_ne_nil _ _
  rw [QueueHeap.dequeue, if_neg hempty, hfirst]

/-- `dequeue` returns the oldest element. -/
theorem Spells.dequeue_fst (h : s.Spells q l c) (hq : q ≠ null) (hnull : null ∉ l) :
    (s.dequeue A q).1 = c.head?.getD null := by
  cases l with
  | nil =>
      have hc : c = [] := h.elems.symm
      rw [QueueHeap.dequeue, if_pos ((h.isEmpty_iff hq hnull).mpr hc), hc]
      rfl
  | cons p l =>
      rw [h.dequeue hq hnull, ← h.elems]
      rfl

/-- The loop of `destroy_queue` ends, and it gives back the nodes. -/
theorem Spells.emptyQueue {fuel : Nat} (h : s.Spells q l c) (hq : q ≠ null) (hnull : null ∉ l)
    (hql : q ∉ l) (hfuel : l.length < fuel) :
    ∃ t, emptyQueue A fuel s q = some t ∧ t.taken = s.taken ∧ t.given = s.given ++ l ∧
      t.alloc = l.foldl A.give s.alloc ∧ t.Spells q [] [] ∧ ∀ a, a ≠ q → t.mem a = s.mem a := by
  induction fuel generalizing s l c with
  | zero => exact absurd hfuel (Nat.not_lt_zero _)
  | succ fuel ih =>
      rw [QueueHeap.emptyQueue]
      cases l with
      | nil =>
          have hc : c = [] := h.elems.symm
          rw [if_pos ((h.isEmpty_iff hq hnull).mpr hc)]
          exact ⟨s, rfl, rfl, (List.append_nil _).symm, rfl, hc ▸ h, fun a _ => rfl⟩
      | cons p l =>
          have hempty : ¬s.isEmpty q := by
            rw [h.isEmpty_iff hq hnull, ← h.elems]
            exact List.cons_ne_nil _ _
          obtain ⟨-, hnull'⟩ := not_or.mp (mt List.mem_cons.mpr hnull)
          obtain ⟨-, hql'⟩ := not_or.mp (mt List.mem_cons.mpr hql)
          have hrest : ((s.removeNode q).storePage A p).Spells q l c.tail :=
            (h.removeNode hnull' hql').congr rfl fun _ _ => rfl
          obtain ⟨t, hrun, htaken, hgiven, halloc, hspells, hframe⟩ :=
            ih hrest hnull' hql' (Nat.lt_of_succ_lt_succ hfuel)
          rw [if_neg hempty, h.dequeue hq hnull]
          refine ⟨t, hrun, htaken.trans (removeNode_taken s q), ?_, ?_, hspells, fun a ha => ?_⟩
          · rw [hgiven, storePage, removeNode_given, List.append_assoc, List.singleton_append]
          · rw [halloc, storePage, removeNode_alloc, List.foldl_cons]
          · exact (hframe a ha).trans (removeNode_frame ha)

end QueueHeap

end TPE
