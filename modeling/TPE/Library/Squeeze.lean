import Mathlib.Data.List.Chain
import Mathlib.Data.List.Basic

/-!
# Single separators

Some elements of a list are *separators*.  `squeeze` drops those in front and all
but the first of each run, going through the list from left to right.
`trimEnd` drops a separator at the end.

What is dropped are separators only, and what is left has none in front, none at
the end and no two in a row.

When there is one separator only, a list without double separators is made of words,
with one separator between two words and at most one at the end.
-/

namespace TPE

variable {α : Type*} (sep : α → Prop)

/-- Nothing or a separator is at the end. -/
def EndsApart (l : List α) : Prop := ∀ d ∈ l.getLast?, sep d

/-- No separator is in front, and no two are in a row. -/
structure Squeezed (l : List α) : Prop where
  front : ∀ c ∈ l.head?, ¬sep c
  apart : l.IsChain fun c d => ¬(sep c ∧ sep d)

variable {sep} {l l' : List α} {c : α}

@[simp] theorem endsApart_nil : EndsApart sep [] := fun _ h => (by cases h)

@[simp] theorem endsApart_concat : EndsApart sep (l ++ [c]) ↔ sep c := by
  simp [EndsApart]

theorem Squeezed.nil : Squeezed sep [] := ⟨fun _ h => (by cases h), List.isChain_nil⟩

/-- The first part of a list with single separators has single separators. -/
theorem Squeezed.of_prefix (h : Squeezed sep l) (hp : l' <+: l) : Squeezed sep l' := by
  refine ⟨fun c hc => h.front c ?_, h.apart.prefix hp⟩
  obtain ⟨r, rfl⟩ := hp
  cases l' with
  | nil => cases hc
  | cons x l' => exact hc

/-- With fewer separators they are still single. -/
theorem Squeezed.mono {sep' : α → Prop} (h : Squeezed sep l) (hsep : ∀ c, sep' c → sep c) :
    Squeezed sep' l where
  front c hc hs := h.front c hc (hsep c hs)
  apart := h.apart.imp fun c d hn hcd => hn ⟨hsep c hcd.1, hsep d hcd.2⟩

theorem Squeezed.dropLast (h : Squeezed sep l) : Squeezed sep l.dropLast :=
  h.of_prefix (List.dropLast_prefix l)

/-! ## Squeezing -/

variable (sep) [DecidablePred sep]

instance (l : List α) : Decidable (EndsApart sep l) := inferInstanceAs (Decidable (∀ d ∈ _, _))

/-- An element is kept unless it is a separator behind nothing or behind another one. -/
def squeezeStep (l : List α) (c : α) : List α :=
  if EndsApart sep l ∧ sep c then l else l ++ [c]

/-- All but single separators between other elements, and one at the end, are dropped. -/
def squeeze (l : List α) : List α := l.foldl (squeezeStep sep) []

/-- A separator at the end is dropped. -/
def trimEnd (l : List α) : List α := if l ≠ [] ∧ EndsApart sep l then l.dropLast else l

/-- The elements that are no separators. -/
def solid (l : List α) : List α := l.filter fun c => ¬sep c

variable {sep}

theorem squeeze_concat : squeeze sep (l ++ [c]) = squeezeStep sep (squeeze sep l) c := by
  rw [squeeze, List.foldl_append, List.foldl_cons, List.foldl_nil, squeeze]

@[simp] theorem solid_append : solid sep (l ++ l') = solid sep l ++ solid sep l' :=
  List.filter_append _ _

theorem solid_singleton_of (h : sep c) : solid sep [c] = [] := by
  simp [solid, h]

theorem solid_singleton_of_not (h : ¬sep c) : solid sep [c] = [c] := by
  simp [solid, h]

/-! ## What is dropped -/

theorem solid_squeezeStep : solid sep (squeezeStep sep l c) = solid sep (l ++ [c]) := by
  rw [squeezeStep]
  split
  next h => rw [solid_append, solid_singleton_of h.2, List.append_nil]
  next => rfl

/-- Only separators are dropped. -/
theorem solid_squeeze : solid sep (squeeze sep l) = solid sep l := by
  induction l using List.reverseRecOn with
  | nil => rfl
  | append_singleton l c ih => rw [squeeze_concat, solid_squeezeStep, solid_append, ih, solid_append]

theorem solid_trimEnd : solid sep (trimEnd sep l) = solid sep l := by
  rw [trimEnd]
  split
  next h =>
    obtain ⟨l, c, rfl⟩ := (List.eq_nil_or_concat' l).resolve_left h.1
    rw [List.dropLast_concat, solid_append, solid_singleton_of (endsApart_concat.mp h.2),
      List.append_nil]
  next => rfl

theorem length_squeezeStep_le : (squeezeStep sep l c).length ≤ l.length + 1 := by
  rw [squeezeStep]
  split
  · exact Nat.le_succ _
  · simp

theorem length_trimEnd_le : (trimEnd sep l).length ≤ l.length := by
  rw [trimEnd]
  split
  · rw [List.length_dropLast]
    exact Nat.sub_le _ _
  · exact Nat.le_refl _

/-! ## What is left -/

theorem Squeezed.step (h : Squeezed sep l) (c : α) : Squeezed sep (squeezeStep sep l c) := by
  rw [squeezeStep]
  split
  next => exact h
  next hkeep =>
    refine ⟨fun d hd => ?_, List.isChain_append.mpr ⟨h.apart, List.isChain_singleton _, ?_⟩⟩
    · cases l with
      | nil =>
          obtain rfl : c = d := Option.some.inj hd
          exact fun hc => hkeep ⟨endsApart_nil, hc⟩
      | cons x l => exact h.front d hd
    · rintro x hx y hy ⟨hsx, hsy⟩
      obtain rfl : c = y := Option.some.inj hy
      refine hkeep ⟨fun d hd => ?_, hsy⟩
      obtain rfl : x = d := Option.some.inj (hx.symm.trans hd)
      exact hsx

/-- Separators are single, and none is in front. -/
theorem squeezed_squeeze (l : List α) :
    Squeezed sep (squeeze sep l) := by
  induction l using List.reverseRecOn with
  | nil => exact .nil
  | append_singleton l c ih =>
      rw [squeeze_concat]
      exact ih.step c

theorem Squeezed.trimEnd (h : Squeezed sep l) : Squeezed sep (trimEnd sep l) := by
  rw [TPE.trimEnd]
  split
  · exact h.dropLast
  · exact h

/-- Of single separators there is none at the end any more. -/
theorem Squeezed.trimEnd_last (h : Squeezed sep l) : ∀ c ∈ (TPE.trimEnd sep l).getLast?, ¬sep c := by
  rw [TPE.trimEnd]
  split
  next hdrop =>
    obtain ⟨l, c, rfl⟩ := (List.eq_nil_or_concat' l).resolve_left hdrop.1
    have hc := endsApart_concat.mp hdrop.2
    rw [List.dropLast_concat]
    intro x hx hsx
    exact (List.isChain_append.mp h.apart).2.2 x hx c rfl ⟨hsx, hc⟩
  next hkeep =>
    intro c hc hsc
    refine hkeep ⟨fun hnil => ?_, fun d hd => ?_⟩
    · rw [hnil] at hc
      cases hc
    · obtain rfl : c = d := Option.some.inj (hc.symm.trans hd)
      exact hsc

/-! ## Words -/

section Words

variable [DecidableEq α] {x : α} {w : List α} {ws : List (List α)} {tail : List α}

/-- The words of a list with the separator `x`. -/
def words (x : α) (l : List α) : List (List α) := (l.splitOn x).filter (· ≠ [])

omit [DecidableEq α] in
/-- The first word, and the others with a separator in front of each. -/
theorem intercalate_cons_eq : [x].intercalate (w :: ws) = w ++ ws.flatMap (x :: ·) := by
  induction ws generalizing w with
  | nil => simp
  | cons v ws ih =>
      rw [List.intercalate_cons_cons, ih, List.flatMap_cons, List.append_assoc]
      rfl

omit [DecidableEq α] in
/-- Words with a separator in front of each, from behind the first separator on. -/
theorem tail_flatMap : (ws.flatMap (x :: ·)).tail = [x].intercalate ws := by
  cases ws with
  | nil => rfl
  | cons w ws => exact intercalate_cons_eq.symm

omit [DecidableEq α] in
/-- Words do not end in a separator. -/
theorem getLast?_words (hws : ∀ v ∈ w :: ws, v ≠ [] ∧ x ∉ v) :
    (w ++ ws.flatMap (x :: ·)).getLast? ≠ some x := by
  have hword : ∀ l v, v ∈ w :: ws → (l ++ v).getLast? ≠ some x := by
    intro l v hv hlast
    rw [List.getLast?_append_of_ne_nil l (hws v hv).1] at hlast
    exact (hws v hv).2 (List.mem_of_getLast? hlast)
  rcases List.eq_nil_or_concat' ws with rfl | ⟨ws, v, rfl⟩
  · exact hword [] w List.mem_cons_self ∘ by simp
  · have hv := hword (w ++ ws.flatMap (x :: ·) ++ [x]) v (by simp)
    rw [List.append_assoc, List.append_assoc] at hv
    rwa [List.flatMap_append, List.flatMap_singleton]

/-- Words are found again. -/
theorem words_append (hws : ∀ v ∈ w :: ws, v ≠ [] ∧ x ∉ v) (htail : tail = [] ∨ tail = [x]) :
    words x (w ++ ws.flatMap (x :: ·) ++ tail) = w :: ws := by
  have hkeep : (w :: ws).filter (· ≠ []) = w :: ws :=
    List.filter_eq_self.mpr fun v hv => decide_eq_true (hws v hv).1
  rcases htail with rfl | rfl
  · rw [List.append_nil, ← intercalate_cons_eq, words,
      List.splitOn_intercalate x (fun v hv => (hws v hv).2) (List.cons_ne_nil w ws), hkeep]
  · -- the separator at the end is followed by an empty word
    have hempty : w ++ ws.flatMap (x :: ·) ++ [x] = [x].intercalate (w :: (ws ++ [[]])) := by
      rw [intercalate_cons_eq, List.flatMap_append, List.flatMap_cons, List.flatMap_nil,
        List.append_assoc]
      rfl
    have hfree : ∀ v ∈ w :: (ws ++ [[]]), x ∉ v := by
      intro v hv
      rw [← List.cons_append, List.mem_append, List.mem_singleton] at hv
      rcases hv with hv | rfl
      · exact (hws v hv).2
      · exact List.not_mem_nil
    rw [hempty, words, List.splitOn_intercalate x hfree (List.cons_ne_nil w (ws ++ [[]])),
      ← List.cons_append, List.filter_append, hkeep]
    simp

omit [DecidableEq α] in
/-- A list without a separator in front and without double separators is made of words. -/
theorem Squeezed.exists_words (h : Squeezed (· = x) l) (hne : l ≠ []) :
    ∃ w ws tail, (∀ v ∈ w :: ws, v ≠ [] ∧ x ∉ v) ∧ l = w ++ ws.flatMap (x :: ·) ++ tail ∧
      (tail = [] ∨ tail = [x]) := by
  induction l using List.reverseRecOn with
  | nil => exact absurd rfl hne
  | append_singleton l c ih =>
      obtain ⟨hl, -, hlast⟩ := List.isChain_append.mp h.apart
      rcases List.eq_nil_or_concat' l with rfl | ⟨l', d, hld⟩
      · have hc : c ≠ x := h.front c rfl
        exact ⟨[c], [], [], by simpa using Ne.symm hc, by simp, Or.inl rfl⟩
      · have hdrop := h.dropLast
        rw [List.dropLast_concat] at hdrop
        obtain ⟨w, ws, tail, hws, hl, htail⟩ := ih hdrop (by simp [hld])
        by_cases hc : c = x
        · subst hc
          rcases htail with rfl | rfl
          · exact ⟨w, ws, [c], hws, by rw [hl, List.append_nil], Or.inr rfl⟩
          · refine absurd ⟨rfl, rfl⟩ (hlast c ?_ c rfl)
            rw [hl, List.getLast?_concat]
            rfl
        · rcases htail with rfl | rfl
          · -- the last word goes on
            rcases List.eq_nil_or_concat' ws with rfl | ⟨ws', v, rfl⟩
            · refine ⟨w ++ [c], [], [], fun v hv => ?_, by simp [hl], Or.inl rfl⟩
              obtain rfl := List.mem_singleton.mp hv
              exact ⟨by simp, by simpa [Ne.symm hc] using (hws w List.mem_cons_self).2⟩
            · refine ⟨w, ws' ++ [v ++ [c]], [], fun u hu => ?_, by simp [hl], Or.inl rfl⟩
              rw [← List.cons_append, List.mem_append, List.mem_singleton] at hu
              rcases hu with hu | rfl
              · exact hws u (by
                  rw [← List.cons_append]
                  exact List.mem_append_left _ hu)
              · exact ⟨by simp, by simpa [Ne.symm hc] using (hws v (by simp)).2⟩
          · refine ⟨w, ws ++ [[c]], [], fun u hu => ?_, by simp [hl], Or.inl rfl⟩
            rw [← List.cons_append, List.mem_append, List.mem_singleton] at hu
            rcases hu with hu | rfl
            · exact hws u hu
            · exact ⟨by simp, by simpa using Ne.symm hc⟩

/-- A separator ends a word, if there is one. -/
theorem words_append_cons (l l' : List α) : words x (l ++ x :: l') = words x l ++ words x l' := by
  rw [words, words, words, List.splitOn_append_cons_self, List.filter_append]

omit [DecidableEq α] in
theorem squeeze_subset {sep : α → Prop} [DecidablePred sep] {c : α} {l : List α}
    (h : c ∈ squeeze sep l) : c ∈ l := by
  induction l using List.reverseRecOn with
  | nil => exact h
  | append_singleton l d ih =>
      rw [squeeze_concat, squeezeStep] at h
      split at h
      · exact List.mem_append_left _ (ih h)
      · exact (List.mem_append.mp h).elim (fun hl => List.mem_append_left _ (ih hl))
          fun hd => List.mem_append_right _ hd

/-- Squeezing leaves the words alone, if no other separators are in the list. -/
theorem words_squeeze_append {sep : α → Prop} [DecidablePred sep] {l : List α}
    (h : ∀ c ∈ l, sep c → c = x) (r : List α) :
    words x (squeeze sep l ++ r) = words x (l ++ r) := by
  induction l using List.reverseRecOn generalizing r with
  | nil => rfl
  | append_singleton l c ih =>
      have hl := ih fun d hd => h d (List.mem_append_left _ hd)
      rw [squeeze_concat, squeezeStep, List.append_assoc, List.singleton_append]
      split
      next hdrop =>
        obtain rfl : c = x := h c (by simp) hdrop.2
        have hwords := hl []
        rw [List.append_nil, List.append_nil] at hwords
        rw [words_append_cons, ← hwords]
        rcases List.eq_nil_or_concat' (squeeze sep l) with hnil | ⟨k, d, hk⟩
        · rw [hnil]
          rfl
        · have hd : d ∈ squeeze sep l := by
            rw [hk]
            simp
          have hends := hdrop.1
          rw [hk, endsApart_concat] at hends
          obtain rfl : d = c := h d (List.mem_append_left _ (squeeze_subset hd)) hends
          rw [hk, List.append_assoc, List.singleton_append, words_append_cons, words_append_cons]
          simp [words]
      next =>
        rw [List.append_assoc, List.singleton_append]
        exact hl (c :: r)

theorem words_trimEnd_squeeze {sep : α → Prop} [DecidablePred sep] {l : List α}
    (h : ∀ c ∈ l, sep c → c = x) : words x (trimEnd sep (squeeze sep l)) = words x l := by
  have hwords := words_squeeze_append h []
  rw [List.append_nil, List.append_nil] at hwords
  rw [← hwords, trimEnd]
  split
  next hdrop =>
    obtain ⟨k, d, hk⟩ := (List.eq_nil_or_concat' _).resolve_left hdrop.1
    have hends := hdrop.2
    rw [hk, endsApart_concat] at hends
    have hd : d ∈ squeeze sep l := by
      rw [hk]
      simp
    obtain rfl : d = x := h d (squeeze_subset hd) hends
    rw [hk, List.dropLast_concat, words_append_cons]
    simp [words]
  next => rfl

end Words

end TPE
