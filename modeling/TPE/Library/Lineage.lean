import Mathlib.Logic.Function.Basic
import Mathlib.Logic.Function.Iterate

/-!
# Descent with recycled numbers

Individuals are born and die.  An individual carries a number, which is used
again after its death, and the number that its parent had at its birth.  Who
is meant by that number later on may be somebody else.

A *serial* counts the births.  It is never used again, so that descent is a
relation between serials.  Whoever takes over the number of a dead parent is
born after the child and is not among its ancestors.
-/

namespace TPE

open Function

/-- The births so far, and what the individuals carry. -/
structure Lineage (ι : Type*) where
  number : ι → Nat
  parentNumber : ι → Nat
  serial : ι → Nat
  /-- The serial of the parent of the one with a serial. -/
  parent : Nat → Nat
  /-- The next serial. -/
  clock : Nat

namespace Lineage

variable {ι : Type*}

/-- The serial `n` is one of an ancestor of the one with the serial `m`. -/
def Ancestor (l : Lineage ι) (n m : Nat) : Prop := ∃ i, l.parent^[i + 1] m = n

/-- The living, of whom `root` was there first. -/
structure Ok (l : Lineage ι) (live : List ι) (root : ι) : Prop where
  rootLive : root ∈ live
  distinct : ∀ p ∈ live, ∀ q ∈ live, l.number p = l.number q → p = q
  serialInj : ∀ p ∈ live, ∀ q ∈ live, l.serial p = l.serial q → p = q
  serialLt : ∀ p ∈ live, l.serial p < l.clock
  parentLe : ∀ n, n < l.clock → l.parent n ≤ n
  /-- Whoever has the parent's number is the parent or younger. -/
  sameNumber : ∀ p ∈ live, p ≠ root → ∀ q ∈ live, l.number q = l.parentNumber p →
    l.serial q = l.parent (l.serial p) ∨ l.serial p < l.serial q
  /-- A parent keeps its number as long as it lives. -/
  sameSerial : ∀ p ∈ live, p ≠ root → ∀ q ∈ live, l.serial q = l.parent (l.serial p) →
    l.number q = l.parentNumber p
  notSelf : ∀ p ∈ live, p ≠ root → l.parentNumber p ≠ l.number p

namespace Ok

variable {l l' : Lineage ι} {live live' : List ι} {root p q c : ι}

/-- Ancestors are older. -/
theorem ancestor_le (h : l.Ok live root) {n m : Nat} (hm : m < l.clock)
    (ha : l.Ancestor n m) : n ≤ m := by
  obtain ⟨i, rfl⟩ := ha
  have hle : ∀ i, l.parent^[i] m ≤ m := by
    intro i
    induction i with
    | zero => exact Nat.le_refl m
    | succ i ih =>
        rw [iterate_succ_apply']
        exact Nat.le_trans (h.parentLe _ (Nat.lt_of_le_of_lt ih hm)) ih
  exact hle (i + 1)

/-- An ancestor that has the parent's number is the parent. -/
theorem parent_of_ancestor (h : l.Ok live root) (hp : p ∈ live) (hroot : p ≠ root) (hq : q ∈ live)
    (hnum : l.number q = l.parentNumber p) (ha : l.Ancestor (l.serial q) (l.serial p)) :
    l.serial q = l.parent (l.serial p) := by
  have hle := h.ancestor_le (h.serialLt p hp) ha
  rcases h.sameNumber p hp hroot q hq hnum with hparent | hyounger
  · exact hparent
  · omega

/-- What the living carry is all that counts. -/
theorem congr (h : l.Ok live root) (hnum : ∀ p ∈ live, l'.number p = l.number p)
    (hparent : ∀ p ∈ live, l'.parentNumber p = l.parentNumber p)
    (hserial : l'.serial = l.serial) (htree : l'.parent = l.parent) (hclock : l'.clock = l.clock) :
    l'.Ok live root := by
  obtain ⟨number, parentNumber, serial, parent, clock⟩ := l'
  obtain rfl : serial = l.serial := hserial
  obtain rfl : parent = l.parent := htree
  obtain rfl : clock = l.clock := hclock
  constructor
  · exact h.rootLive
  · intro p hp q hq he
    rw [hnum p hp, hnum q hq] at he
    exact h.distinct p hp q hq he
  · exact h.serialInj
  · exact h.serialLt
  · exact h.parentLe
  · intro p hp hroot q hq he
    rw [hnum q hq, hparent p hp] at he
    exact h.sameNumber p hp hroot q hq he
  · intro p hp hroot q hq he
    rw [hnum q hq, hparent p hp]
    exact h.sameSerial p hp hroot q hq he
  · intro p hp hroot
    rw [hnum p hp, hparent p hp]
    exact h.notSelf p hp hroot

/-- Deaths, of others than the root. -/
theorem die (h : l.Ok live root) (hsub : ∀ p ∈ live', p ∈ live) (hroot : root ∈ live') :
    l.Ok live' root where
  rootLive := hroot
  distinct p hp q hq := h.distinct p (hsub p hp) q (hsub q hq)
  serialInj p hp q hq := h.serialInj p (hsub p hp) q (hsub q hq)
  serialLt p hp := h.serialLt p (hsub p hp)
  parentLe := h.parentLe
  sameNumber p hp hne q hq := h.sameNumber p (hsub p hp) hne q (hsub q hq)
  sameSerial p hp hne q hq := h.sameSerial p (hsub p hp) hne q (hsub q hq)
  notSelf p hp := h.notSelf p (hsub p hp)

/-- A root and its only child. -/
theorem pair (hnum : l.number c ≠ l.number root) (hself : l.parentNumber c = l.number root)
    (hroot : l.serial root = 0) (hchild : l.serial c = 1) (hparent : ∀ n, l.parent n = 0)
    (hclock : l.clock = 2) : l.Ok [c, root] root := by
  constructor
  case rootLive => simp
  case parentLe =>
    intro n _
    rw [hparent]
    exact Nat.zero_le n
  case distinct =>
    intro p hp q hq he
    simp only [List.mem_cons, List.not_mem_nil, or_false] at hp hq
    rcases hp with rfl | rfl
    · rcases hq with rfl | rfl
      · rfl
      · exact absurd he hnum
    · rcases hq with rfl | rfl
      · exact absurd he.symm hnum
      · rfl
  case serialInj => simp [hroot, hchild]
  case serialLt => simp [hroot, hchild, hclock]
  case sameNumber => simp [hself, hroot, hchild, hparent, hnum]
  case sameSerial => simp [hself, hroot, hchild, hparent]
  case notSelf =>
    intro p hp hne
    rcases List.mem_cons.mp hp with rfl | hp
    · rw [hself]
      exact hnum.symm
    · exact absurd (List.mem_singleton.mp hp) hne

variable [DecidableEq ι]

/-- The child `p` of `c` is born with a number that nobody has. -/
theorem born (h : l.Ok live root) (hc : c ∈ live) (hp : p ∉ live) {number parentNumber : ι → Nat}
    (hnum : ∀ q ∈ live, number q = l.number q)
    (hparent : ∀ q ∈ live, parentNumber q = l.parentNumber q)
    (hfree : ∀ q ∈ live, l.number q ≠ number p) (hself : parentNumber p = l.number c) :
    Ok
      { number
        parentNumber
        serial := update l.serial p l.clock
        parent := update l.parent l.clock (l.serial c)
        clock := l.clock + 1 } (p :: live) root := by
  have hne : ∀ q ∈ live, q ≠ p := by
    rintro q hq rfl
    exact hp hq
  have hserial : ∀ q ∈ live, update l.serial p l.clock q = l.serial q :=
    fun q hq => update_of_ne (hne q hq) _ _
  have htree : ∀ q ∈ live, update l.parent l.clock (l.serial c) (l.serial q) =
      l.parent (l.serial q) :=
    fun q hq => update_of_ne (Nat.ne_of_lt (h.serialLt q hq)) _ _
  constructor
  case rootLive => exact List.mem_cons_of_mem p h.rootLive
  case distinct =>
    intro q hq r hr he
    simp only at he
    rcases List.mem_cons.mp hq with rfl | hold
    · rcases List.mem_cons.mp hr with rfl | hrold
      · rfl
      · rw [hnum r hrold] at he
        exact absurd he.symm (hfree r hrold)
    · rcases List.mem_cons.mp hr with rfl | hrold
      · rw [hnum q hold] at he
        exact absurd he (hfree q hold)
      · rw [hnum q hold, hnum r hrold] at he
        exact h.distinct q hold r hrold he
  case serialInj =>
    intro q hq r hr he
    simp only at he
    rcases List.mem_cons.mp hq with rfl | hold
    · rcases List.mem_cons.mp hr with rfl | hrold
      · rfl
      · rw [update_self, hserial r hrold] at he
        exact absurd he.symm (Nat.ne_of_lt (h.serialLt r hrold))
    · rcases List.mem_cons.mp hr with rfl | hrold
      · rw [update_self, hserial q hold] at he
        exact absurd he (Nat.ne_of_lt (h.serialLt q hold))
      · rw [hserial q hold, hserial r hrold] at he
        exact h.serialInj q hold r hrold he
  case serialLt =>
    intro q hq
    simp only
    rcases List.mem_cons.mp hq with rfl | hold
    · rw [update_self]
      exact Nat.lt_succ_self _
    · rw [hserial q hold]
      exact Nat.lt_succ_of_lt (h.serialLt q hold)
  case parentLe =>
    intro n hn
    simp only at hn ⊢
    by_cases hnew : n = l.clock
    · rw [hnew, update_self]
      exact Nat.le_of_lt (h.serialLt c hc)
    · rw [update_of_ne hnew]
      exact h.parentLe n (by omega)
  case sameNumber =>
    intro q hq hroot r hr he
    simp only at he ⊢
    rcases List.mem_cons.mp hq with rfl | hold
    · -- the child
      rcases List.mem_cons.mp hr with rfl | hrold
      · exact absurd (he.trans hself).symm (hfree c hc)
      · rw [hnum r hrold, hself] at he
        obtain rfl := h.distinct r hrold c hc he
        left
        rw [hserial r hrold, update_self, update_self]
    · rw [hserial q hold, htree q hold]
      rcases List.mem_cons.mp hr with rfl | hrold
      · right
        rw [update_self]
        exact h.serialLt q hold
      · rw [hnum r hrold, hparent q hold] at he
        rw [hserial r hrold]
        exact h.sameNumber q hold hroot r hrold he
  case sameSerial =>
    intro q hq hroot r hr he
    simp only at he ⊢
    rcases List.mem_cons.mp hq with rfl | hold
    · rw [update_self, update_self] at he
      rcases List.mem_cons.mp hr with rfl | hrold
      · rw [update_self] at he
        exact absurd he.symm (Nat.ne_of_lt (h.serialLt c hc))
      · rw [hserial r hrold] at he
        obtain rfl := h.serialInj r hrold c hc he
        rw [hnum r hrold, hself]
    · rw [hserial q hold, htree q hold] at he
      rcases List.mem_cons.mp hr with rfl | hrold
      · rw [update_self] at he
        have hle := h.parentLe _ (h.serialLt q hold)
        have hlt := h.serialLt q hold
        omega
      · rw [hserial r hrold] at he
        rw [hnum r hrold, hparent q hold]
        exact h.sameSerial q hold hroot r hrold he
  case notSelf =>
    intro q hq hroot
    simp only
    rcases List.mem_cons.mp hq with rfl | hold
    · rw [hself]
      exact hfree c hc
    · rw [hnum q hold, hparent q hold]
      exact h.notSelf q hold hroot

end Ok

end Lineage

end TPE
