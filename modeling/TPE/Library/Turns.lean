import Mathlib.Data.List.Basic
import Mathlib.Data.List.Nodup
import Mathlib.Data.List.TakeWhile

/-!
# Waiting for a turn

Whoever takes turns stands in a circle, and the first of the list has the turn.
Somebody waits, and the list holds those *ahead*: the one whose turn it is and
those who come before the waiting one.  Each of them has a weight, how many
*moves* its turn may last, and each move is one of four:

* a `call` leaves the turn where it is, and costs a part of the weight;
* a `turn` ends the turn, skips some, and may leave one move to somebody else;
* a `join` puts a newcomer behind the first one;
* a `rest` changes nothing.

Weight and number of those ahead bound the moves for as long as somebody waits.
-/

namespace TPE

/-- What happens while somebody waits. -/
inductive Move where
  | call
  | turn
  | join
  | rest
  deriving DecidableEq

section

variable {α : Type*}

/-- One move: the weights and those ahead before it and after it. -/
inductive TurnStep : Move → (α → Nat) → List α → (α → Nat) → List α → Prop where
  | call {w w' : α → Nat} {c : α} {l : List α} :
      w' c < w c → (∀ b ∈ l, w' b = w b) → TurnStep .call w (c :: l) w' (c :: l)
  | turn {w w' : α → Nat} {c x : α} {skipped l : List α} :
      2 ≤ w c → l.Nodup → w' x ≤ w x + 1 → (∀ b ∈ l, b ≠ x → w' b = w b) →
      TurnStep .turn w (c :: (skipped ++ l)) w' l
  | join {w w' : α → Nat} {c x : α} {l : List α} :
      w' x ≤ 2 → (∀ b ∈ c :: l, w' b = w b) → TurnStep .join w (c :: l) w' (c :: x :: l)
  | rest {w w' : α → Nat} {l : List α} :
      (∀ b ∈ l, w' b = w b) → TurnStep .rest w l w' l

/-- The moves of a run, from the weights and those ahead at its start. -/
inductive TurnRun : (α → Nat) → List α → List Move → Prop where
  | nil {w : α → Nat} {l : List α} : TurnRun w l []
  | cons {m : Move} {w w' : α → Nat} {l l' : List α} {moves : List Move} :
      TurnStep m w l w' l' → TurnRun w' l' moves → TurnRun w l (m :: moves)

/-- The weight of all those ahead. -/
def weigh (w : α → Nat) : List α → Nat
  | [] => 0
  | c :: l => w c + weigh w l

variable {w w' : α → Nat} {l l' : List α} {c x : α} {m : Move} {moves : List Move}

@[simp] theorem weigh_nil : weigh w [] = 0 := rfl

@[simp] theorem weigh_cons : weigh w (c :: l) = w c + weigh w l := rfl

@[simp] theorem weigh_append : weigh w (l ++ l') = weigh w l + weigh w l' := by
  induction l with
  | nil => rw [List.nil_append, weigh_nil, Nat.zero_add]
  | cons c l ih => rw [List.cons_append, weigh_cons, weigh_cons, ih, Nat.add_assoc]

theorem weigh_congr (h : ∀ b ∈ l, w' b = w b) : weigh w' l = weigh w l := by
  induction l with
  | nil => rfl
  | cons c l ih =>
      rw [weigh_cons, weigh_cons, h c List.mem_cons_self,
        ih fun b hb => h b (List.mem_cons_of_mem c hb)]

/-- Weights that are bounded. -/
theorem weigh_le {n : Nat} (h : ∀ b ∈ l, w b ≤ n) : weigh w l ≤ n * l.length := by
  induction l with
  | nil => exact Nat.zero_le _
  | cons c l ih =>
      have hl := ih fun b hb => h b (List.mem_cons_of_mem c hb)
      have hc := h c List.mem_cons_self
      rw [weigh_cons, List.length_cons, Nat.mul_succ]
      omega

/-- One of a list without repetitions has a unit more. -/
theorem weigh_le_succ (hl : l.Nodup) (hx : w' x ≤ w x + 1) (h : ∀ b ∈ l, b ≠ x → w' b = w b) :
    weigh w' l ≤ weigh w l + 1 := by
  induction l with
  | nil => exact Nat.zero_le _
  | cons c l ih =>
      obtain ⟨hc, hl⟩ := List.nodup_cons.mp hl
      rw [weigh_cons, weigh_cons]
      by_cases hcx : c = x
      · subst hcx
        have hrest : weigh w' l = weigh w l := weigh_congr fun b hb =>
          h b (List.mem_cons_of_mem c hb) fun he => hc (he ▸ hb)
        omega
      · have hrest := ih hl fun b hb => h b (List.mem_cons_of_mem c hb)
        have hself := h c List.mem_cons_self hcx
        omega

namespace TurnStep

/-- A move costs a unit of weight.  A newcomer brings two. -/
theorem weigh_le (h : TurnStep m w l w' l') :
    weigh w' l' + [m].count .call + [m].count .turn ≤ weigh w l + 2 * [m].count .join := by
  cases h with
  | @call _ _ c l hc hl =>
      have hrest := weigh_congr hl
      simp
      omega
  | @turn _ _ c x skipped l hc hnodup hx hl =>
      have hrest := weigh_le_succ hnodup hx hl
      simp
      omega
  | @join _ _ c x l hx hl =>
      have hold := weigh_congr hl
      simp only [weigh_cons] at hold ⊢
      simp
      omega
  | rest hl =>
      have hsame := weigh_congr hl
      simp [hsame]

/-- The end of a turn takes one away from those ahead, a newcomer is one more. -/
theorem length_le (h : TurnStep m w l w' l') :
    l'.length + [m].count .turn ≤ l.length + [m].count .join := by
  cases h with
  | call => simp
  | turn => simp
  | join => simp
  | rest => simp

end TurnStep

namespace TurnRun

/-- How many moves those ahead make before the waiting one has the turn. -/
theorem moves_le (h : TurnRun w l moves) :
    moves.count .call + moves.count .turn ≤ weigh w l + 2 * moves.count .join := by
  induction h with
  | nil => exact Nat.zero_le _
  | @cons m w w' l l' moves hstep _ ih =>
      have hone := hstep.weigh_le
      rw [← List.singleton_append]
      simp only [List.count_append]
      omega

/-- How many turns end before the waiting one has its own. -/
theorem turns_le (h : TurnRun w l moves) :
    moves.count .turn ≤ l.length + moves.count .join := by
  induction h with
  | nil => exact Nat.zero_le _
  | @cons m w w' l l' moves hstep _ ih =>
      have hone := hstep.length_le
      rw [← List.singleton_append]
      simp only [List.count_append]
      omega

end TurnRun

end

section

variable {α : Type*} [DecidableEq α] {a : α} {l l' : List α}

/-- Those in the list before `a`. -/
def aheadOf (a : α) (l : List α) : List α := l.takeWhile (· ≠ a)

@[simp] theorem aheadOf_cons_self : aheadOf a (a :: l) = [] := by simp [aheadOf]

theorem aheadOf_cons_of_ne {c : α} (h : c ≠ a) : aheadOf a (c :: l) = c :: aheadOf a l := by
  simp [aheadOf, h]

theorem notMem_aheadOf : a ∉ aheadOf a l := by
  intro h
  simpa using List.mem_takeWhile_imp h

theorem mem_of_mem_aheadOf {b : α} (h : b ∈ aheadOf a l) : b ∈ l :=
  (List.takeWhile_sublist _).subset h

theorem nodup_aheadOf (h : l.Nodup) : (aheadOf a l).Nodup :=
  h.sublist (List.takeWhile_sublist _)

theorem aheadOf_append_of_notMem (h : a ∉ l) : aheadOf a (l ++ l') = l ++ aheadOf a l' := by
  refine List.takeWhile_append_of_pos fun b hb => ?_
  simp only [decide_eq_true_eq]
  exact fun he => h (he ▸ hb)

theorem aheadOf_append_of_mem (h : a ∈ l) : aheadOf a (l ++ l') = aheadOf a l := by
  induction l with
  | nil => cases h
  | cons c l ih =>
      by_cases hc : c = a
      · subst hc
        rw [List.cons_append, aheadOf_cons_self, aheadOf_cons_self]
      · rw [List.cons_append, aheadOf_cons_of_ne hc, aheadOf_cons_of_ne hc,
          ih ((List.mem_cons.mp h).resolve_left fun he => hc he.symm)]

/-- Everybody up to `a`, and `a`. -/
theorem aheadOf_prefix (h : a ∈ l) : ∃ behind, l = aheadOf a l ++ a :: behind := by
  induction l with
  | nil => cases h
  | cons c l ih =>
      by_cases hc : c = a
      · subst hc
        exact ⟨l, by rw [aheadOf_cons_self, List.nil_append]⟩
      · obtain ⟨behind, hl⟩ := ih ((List.mem_cons.mp h).resolve_left fun he => hc he.symm)
        refine ⟨behind, ?_⟩
        rw [aheadOf_cons_of_ne hc, List.cons_append, ← hl]

omit [DecidableEq α] in
/-- A circle is cut at `c`: where it is read from there on, the part `kept` comes last. -/
theorem rotate_eq {kept rest pre suf : List α} {c n0 : α}
    (hring : pre ++ c :: suf = kept ++ rest) (hnodup : (kept ++ rest).Nodup)
    (hfirst : (kept ++ rest).head? = some n0) (hc : c = rest.head?.getD n0) :
    c :: (suf ++ pre) = rest ++ kept := by
  have hcut := hnodup
  rw [← hring, List.perm_middle.nodup_iff, List.nodup_cons, List.mem_append, not_or] at hcut
  cases rest with
  | nil =>
      -- the walk went all the way round, to the first one
      rw [List.append_nil] at hring hfirst
      cases pre with
      | nil => rw [List.append_nil, ← hring, List.nil_append, List.nil_append]
      | cons y pre =>
          rw [← hring] at hfirst
          obtain rfl : y = n0 := Option.some.inj hfirst
          exact absurd (hc ▸ List.mem_cons_self) hcut.1.1
  | cons r rest =>
      obtain rfl : c = r := hc
      obtain ⟨rfl, -, rfl⟩ := (List.append_cons_inj_of_notMem hcut.1.1 hcut.1.2).mp hring
      rfl

end

end TPE
