import Mathlib.Logic.Function.Basic

/-!
# Tables of named slots

A table has a fixed number of slots.  An open slot carries a name.  A *scan*
looks for a name from the first slot on and stops at the first slot that is
closed, at the first that carries the name, or at the end.

A scan that stops at a closed slot says nothing about the slots behind it.  It
finds the name whenever an open slot carries it exactly when no closed slot
comes before that one.
-/

namespace TPE

open Function

/-- Where a scan stops. -/
inductive Scan where
  /-- At an open slot with the name. -/
  | found (i : Nat)
  /-- At a closed slot. -/
  | closed (i : Nat)
  /-- Behind the last slot. -/
  | full
deriving DecidableEq, Repr

/-- Scan `rounds` slots from slot `i` on for one that satisfies `hit`. -/
def scanFrom (opened hit : Nat → Bool) : Nat → Nat → Scan
  | 0, _ => .full
  | rounds + 1, i =>
      if opened i then
        if hit i then .found i else scanFrom opened hit rounds (i + 1)
      else .closed i

/-- The slot at which a scan stops for being closed. -/
theorem scanFrom_closed {opened hit : Nat → Bool} {rounds i j : Nat}
    (h : scanFrom opened hit rounds i = .closed j) : j < i + rounds ∧ opened j = false := by
  induction rounds generalizing i with
  | zero => cases h
  | succ rounds ih =>
      rw [scanFrom] at h
      split at h
      next =>
        split at h
        next => cases h
        next =>
          obtain ⟨hlt, hclosed⟩ := ih h
          exact ⟨by omega, hclosed⟩
      next hclosed =>
        cases h
        exact ⟨by omega, Bool.eq_false_iff.mpr hclosed⟩

/-- The slot at which a scan finds the name. -/
theorem scanFrom_found {opened hit : Nat → Bool} {rounds i j : Nat}
    (h : scanFrom opened hit rounds i = .found j) : j < i + rounds ∧ opened j = true := by
  induction rounds generalizing i with
  | zero => cases h
  | succ rounds ih =>
      rw [scanFrom] at h
      split at h
      next hopen =>
        split at h
        next =>
          cases h
          exact ⟨by omega, hopen⟩
        next =>
          obtain ⟨hlt, hopen'⟩ := ih h
          exact ⟨by omega, hopen'⟩
      next => cases h

/-- The scan stops at a slot below `n`. -/
def Scan.stopsBelow (n : Nat) : Scan → Prop
  | .found i => i < n
  | .closed i => i < n
  | .full => False

/-- A scan stops below `n` if and only if a slot below `n` is closed or a hit. -/
theorem scanFrom_stops_iff {opened hit : Nat → Bool} {n rounds i : Nat} (hn : n ≤ i + rounds) :
    (scanFrom opened hit rounds i).stopsBelow n ↔
      ∃ j, i ≤ j ∧ j < n ∧ (opened j = false ∨ hit j = true) := by
  induction rounds generalizing i with
  | zero =>
      refine iff_of_false id ?_
      rintro ⟨j, hi, hj, -⟩
      omega
  | succ rounds ih =>
      have hnext := ih (i := i + 1) (by omega)
      have hfirst : (∃ j, i ≤ j ∧ j < n ∧ (opened j = false ∨ hit j = true)) ↔
          i < n ∧ (opened i = false ∨ hit i = true) ∨
            ∃ j, i + 1 ≤ j ∧ j < n ∧ (opened j = false ∨ hit j = true) := by
        constructor
        · rintro ⟨j, hi, hj, hstop⟩
          rcases Nat.eq_or_lt_of_le hi with rfl | hlt
          · exact Or.inl ⟨hj, hstop⟩
          · exact Or.inr ⟨j, hlt, hj, hstop⟩
        · rintro (⟨hlt, hstop⟩ | ⟨j, hi, hj, hstop⟩)
          · exact ⟨i, Nat.le_refl i, hlt, hstop⟩
          · exact ⟨j, Nat.le_of_succ_le hi, hj, hstop⟩
      have hlater : (scanFrom opened hit rounds (i + 1)).stopsBelow n → i < n := by
        intro hstops
        obtain ⟨j, hi, hj, -⟩ := hnext.mp hstops
        omega
      rw [hfirst, ← hnext, scanFrom]
      split
      next ho =>
        split
        next hh => exact ⟨fun h => Or.inl ⟨h, Or.inr hh⟩, fun h => h.elim And.left hlater⟩
        next hh => simp [ho, hh]
      next ho =>
        exact ⟨fun h => Or.inl ⟨h, Or.inl (Bool.eq_false_iff.mpr ho)⟩,
          fun h => h.elim And.left hlater⟩

/-- A scan reads the slots it may come to. -/
theorem scanFrom_congr {opened opened' hit hit' : Nat → Bool} {rounds i : Nat}
    (ho : ∀ j, j < i + rounds → opened j = opened' j) (hh : ∀ j, opened' j → hit j = hit' j) :
    scanFrom opened hit rounds i = scanFrom opened' hit' rounds i := by
  induction rounds generalizing i with
  | zero => rfl
  | succ rounds ih =>
      rw [scanFrom, scanFrom, ho i (by omega), ih fun j hj => ho j (by omega)]
      split
      next hopen => rw [hh i hopen]
      next => rfl

/-- A table of slots. -/
structure NameTable (ν : Type*) where
  opened : Nat → Bool
  name : Nat → ν

namespace NameTable

variable {ν : Type*} {t : NameTable ν} {size : Nat} {x : ν}

/-- No two open slots carry one name. -/
def Distinct (t : NameTable ν) (size : Nat) : Prop :=
  ∀ i j, i < size → j < size → t.opened i → t.opened j → t.name i = t.name j → i = j

/-- No slot with the name comes behind a closed one. -/
def NoHole (t : NameTable ν) (size : Nat) (x : ν) : Prop :=
  ∀ i j, i < j → j < size → t.opened j → t.name j = x → t.opened i

/-- Open slot `i` under the name `x`. -/
def openSlot (t : NameTable ν) (i : Nat) (x : ν) : NameTable ν where
  opened := update t.opened i true
  name := update t.name i x

/-- The slots from `i` up to `j` are open and carry other names. -/
def Passed (t : NameTable ν) (x : ν) (i j : Nat) : Prop :=
  ∀ l, i ≤ l → l < j → t.opened l ∧ t.name l ≠ x

theorem Passed.cons {i j : Nat} (hopen : t.opened i) (hname : t.name i ≠ x)
    (h : t.Passed x (i + 1) j) : t.Passed x i j := by
  intro l hl hlt
  rcases Nat.eq_or_lt_of_le hl with rfl | hlt'
  · exact ⟨hopen, hname⟩
  · exact h l hlt' hlt

/-- Closing slots keeps the names distinct. -/
theorem Distinct.mono {t' : NameTable ν} (hd : t.Distinct size)
    (le : ∀ j, t'.opened j → t.opened j ∧ t'.name j = t.name j) : t'.Distinct size := by
  intro j l hj hl hopenj hopenl hname
  obtain ⟨hoj, hnj⟩ := le j hopenj
  obtain ⟨hol, hnl⟩ := le l hopenl
  exact hd j l hj hl hoj hol (by rw [← hnj, ← hnl, hname])

variable [DecidableEq ν]

/-- Scan the `size` slots of the table for a name. -/
def scan (t : NameTable ν) (size : Nat) (x : ν) : Scan :=
  scanFrom t.opened (fun i => t.name i = x) size 0

/-- Where a scan stops, and what it passed. -/
theorem scanFrom_spec (rounds : Nat) : ∀ i, i + rounds = size →
    match scanFrom t.opened (fun i => t.name i = x) rounds i with
    | .found j => j < size ∧ t.opened j ∧ t.name j = x ∧ t.Passed x i j
    | .closed j => j < size ∧ ¬t.opened j ∧ t.Passed x i j
    | .full => t.Passed x i size := by
  induction rounds with
  | zero =>
      intro i hi l hl hlt
      omega
  | succ rounds ih =>
      intro i hi
      have hrest := ih (i + 1) (by omega)
      rw [scanFrom]
      by_cases hopen : t.opened i
      · by_cases hname : t.name i = x
        · rw [if_pos hopen, if_pos (by simpa using hname)]
          exact ⟨by omega, hopen, hname, fun l hl hlt => by omega⟩
        · rw [if_pos hopen, if_neg (by simpa using hname)]
          split
          next j hj =>
            rw [hj] at hrest
            exact ⟨hrest.1, hrest.2.1, hrest.2.2.1, hrest.2.2.2.cons hopen hname⟩
          next j hj =>
            rw [hj] at hrest
            exact ⟨hrest.1, hrest.2.1, hrest.2.2.cons hopen hname⟩
          next hj =>
            rw [hj] at hrest
            exact hrest.cons hopen hname
      · rw [if_neg hopen]
        exact ⟨by omega, hopen, fun l hl hlt => by omega⟩

theorem scan_found {i : Nat} (h : t.scan size x = .found i) :
    i < size ∧ t.opened i ∧ t.name i = x ∧ t.Passed x 0 i := by
  have hspec := scanFrom_spec (t := t) (x := x) size 0 (Nat.zero_add _)
  rwa [show scanFrom _ _ size 0 = .found i from h] at hspec

theorem scan_closed {i : Nat} (h : t.scan size x = .closed i) :
    i < size ∧ ¬t.opened i ∧ t.Passed x 0 i := by
  have hspec := scanFrom_spec (t := t) (x := x) size 0 (Nat.zero_add _)
  rwa [show scanFrom _ _ size 0 = .closed i from h] at hspec

theorem scan_full (h : t.scan size x = .full) : t.Passed x 0 size := by
  have hspec := scanFrom_spec (t := t) (x := x) size 0 (Nat.zero_add _)
  rwa [show scanFrom _ _ size 0 = .full from h] at hspec

/-- In a table of distinct names the scan finds every open slot with the name
exactly when no closed slot comes before one. -/
theorem scan_eq_found_iff (hd : t.Distinct size) :
    (∀ i, i < size → t.opened i → t.name i = x → t.scan size x = .found i) ↔
      t.NoHole size x := by
  constructor
  · intro h i j hij hj hopen hname
    obtain ⟨-, -, -, hpassed⟩ := scan_found (h j hj hopen hname)
    exact (hpassed i (Nat.zero_le _) hij).1
  · intro h i hi hopen hname
    cases hs : t.scan size x with
    | found j =>
        obtain ⟨hj, hopen', hname', -⟩ := scan_found hs
        rw [hd i j hi hj hopen hopen' (hname.trans hname'.symm)]
    | closed j =>
        obtain ⟨hj, hclosed, hpassed⟩ := scan_closed hs
        rcases Nat.lt_trichotomy i j with hlt | rfl | hgt
        · exact absurd hname (hpassed i (Nat.zero_le _) hlt).2
        · exact absurd hopen hclosed
        · exact absurd (h j i hgt hi hopen hname) hclosed
    | full => exact absurd hname (scan_full hs i (Nat.zero_le _) hi).2

/-- A scan without a hole that stops at a closed slot leaves the names distinct
when the slot is opened under the name. -/
theorem Distinct.openSlot (hd : t.Distinct size) (hole : t.NoHole size x) {i : Nat}
    (hs : t.scan size x = .closed i) : (t.openSlot i x).Distinct size := by
  obtain ⟨-, hclosed, hpassed⟩ := scan_closed hs
  -- no open slot carries the name: before `i` they were passed, behind it they would show a hole
  have hfresh : ∀ j, j < size → t.opened j → t.name j ≠ x := by
    intro j hj hopen hname
    rcases Nat.lt_trichotomy j i with hlt | rfl | hgt
    · exact (hpassed j (Nat.zero_le _) hlt).2 hname
    · exact hclosed hopen
    · exact hclosed (hole i j hgt hj hopen hname)
  intro j l hj hl hopenj hopenl hname
  simp only [NameTable.openSlot] at hopenj hopenl hname
  by_cases hji : j = i
  · by_cases hli : l = i
    · rw [hji, hli]
    · rw [hji, update_self, update_of_ne hli] at hname
      rw [update_of_ne hli] at hopenl
      exact absurd hname.symm (hfresh l hl hopenl)
  · rw [update_of_ne hji] at hopenj hname
    by_cases hli : l = i
    · rw [hli, update_self] at hname
      exact absurd hname (hfresh j hj hopenj)
    · rw [update_of_ne hli] at hopenl hname
      exact hd j l hj hl hopenj hopenl hname

end NameTable

end TPE
