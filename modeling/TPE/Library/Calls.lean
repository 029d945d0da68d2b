/-!
# Calls that call each other

A call reads and writes a state step by step.  Its *log* lists the steps it has
taken, each with the state behind it: the states in which the call can be
interrupted.

A call returns, or it *parks* at a point inside, where it waits to be resumed.
Calls that call each other are given a bound on the depth of the nesting, and a
call for which the bound is too small is *cut*.  A call that is cut at every
depth never comes to an end.
-/

namespace TPE

universe u

/-- How a call ends. -/
inductive Ending (α : Type u) where
  | returned (a : α)
  | parked
  | cut
deriving DecidableEq

/-- What a call has done. -/
structure Trace (σ ε α : Type u) where
  /-- The steps, each with the state behind it. -/
  log : List (ε × σ)
  state : σ
  ending : Ending α

/-- A call on the state `σ` with steps named by `ε`. -/
def Call (σ ε α : Type u) : Type u := σ → Trace σ ε α

namespace Trace

variable {σ ε α : Type u}

/-- The result of a call that returned, with the state. -/
def result (r : Trace σ ε α) : Option (α × σ) :=
  match r.ending with
  | .returned a => some (a, r.state)
  | .parked => none
  | .cut => none

/-- The trace behind the steps `l`. -/
def after (l : List (ε × σ)) (r : Trace σ ε α) : Trace σ ε α := { r with log := l ++ r.log }

@[simp] theorem log_after (l : List (ε × σ)) (r : Trace σ ε α) : (r.after l).log = l ++ r.log := rfl

@[simp] theorem state_after (l : List (ε × σ)) (r : Trace σ ε α) : (r.after l).state = r.state := rfl

@[simp] theorem ending_after (l : List (ε × σ)) (r : Trace σ ε α) :
    (r.after l).ending = r.ending := rfl

end Trace

namespace Call

variable {σ ε α β : Type u}

/-! ## Building calls -/

instance : Monad (Call σ ε) where
  pure a s := ⟨[], s, .returned a⟩
  bind c f s :=
    match (c s).ending with
    | .returned a => (f a (c s).state).after (c s).log
    | .parked => ⟨(c s).log, (c s).state, .parked⟩
    | .cut => ⟨(c s).log, (c s).state, .cut⟩

/-- The state. -/
def read : Call σ ε σ := fun s => ⟨[], s, .returned s⟩

/-- One step. -/
def act (e : ε) (f : σ → σ) : Call σ ε PUnit := fun s => ⟨[(e, f s)], f s, .returned ⟨⟩⟩

/-- Wait to be resumed. -/
def park : Call σ ε α := fun s => ⟨[], s, .parked⟩

/-- The bound is used up. -/
def cut : Call σ ε α := fun s => ⟨[], s, .cut⟩

@[simp] theorem pure_apply (a : α) (s : σ) : (pure a : Call σ ε α) s = ⟨[], s, .returned a⟩ := rfl

theorem bind_apply (c : Call σ ε α) (f : α → Call σ ε β) (s : σ) :
    (c >>= f) s =
      match (c s).ending with
      | .returned a => (f a (c s).state).after (c s).log
      | .parked => ⟨(c s).log, (c s).state, .parked⟩
      | .cut => ⟨(c s).log, (c s).state, .cut⟩ := rfl

@[simp] theorem pure_bind (a : α) (f : α → Call σ ε β) : (pure a >>= f : Call σ ε β) = f a := rfl

@[simp] theorem read_bind (f : σ → Call σ ε β) (s : σ) : (read >>= f : Call σ ε β) s = f s s := rfl

@[simp] theorem act_bind (e : ε) (g : σ → σ) (f : PUnit → Call σ ε β) (s : σ) :
    (act e g >>= f : Call σ ε β) s = (f ⟨⟩ (g s)).after [(e, g s)] := rfl

@[simp] theorem park_bind (f : α → Call σ ε β) : (park >>= f : Call σ ε β) = park := rfl

@[simp] theorem cut_bind (f : α → Call σ ε β) : (cut >>= f : Call σ ε β) = cut := rfl

/-- What a call has done stays done. -/
theorem log_bind_prefix (c : Call σ ε α) (f : α → Call σ ε β) (s : σ) :
    ∃ l, ((c >>= f) s).log = (c s).log ++ l := by
  rw [bind_apply]
  cases (c s).ending with
  | returned a => exact ⟨_, rfl⟩
  | parked => exact ⟨[], (List.append_nil _).symm⟩
  | cut => exact ⟨[], (List.append_nil _).symm⟩

/-- A call in several parts ends as its last part does, unless it parks or is cut. -/
theorem ending_bind {E : Ending β → Prop} {f : α → Call σ ε β} (parked : E .parked) (cut : E .cut)
    (h : ∀ a s, E (f a s).ending) (c : Call σ ε α) (s : σ) : E ((c >>= f) s).ending := by
  rw [bind_apply]
  cases (c s).ending with
  | returned a => exact h a _
  | parked => exact parked
  | cut => exact cut

/-! ## Calls that return -/

/-- The call returns `a` in the state `t`, and its steps satisfy `P`. -/
structure Returns (P : ε → σ → Prop) (c : Call σ ε α) (s : σ) (a : α) (t : σ) : Prop where
  ending : (c s).ending = .returned a
  state : (c s).state = t
  log : ∀ x ∈ (c s).log, P x.1 x.2

namespace Returns

variable {P Q : ε → σ → Prop} {c : Call σ ε α} {f : α → Call σ ε β} {s t u : σ} {a : α} {b : β}

theorem pure (a : α) (s : σ) : Returns P (Pure.pure a) s a s :=
  ⟨rfl, rfl, fun _ hx => nomatch hx⟩

theorem read (s : σ) : Returns P read s s s := ⟨rfl, rfl, fun _ hx => nomatch hx⟩

theorem act {e : ε} {g : σ → σ} (h : P e (g s)) : Returns P (act e g) s ⟨⟩ (g s) := by
  refine ⟨rfl, rfl, fun x hx => ?_⟩
  rw [List.mem_singleton.mp hx]
  exact h

theorem bind (h : Returns P c s a t) (h' : Returns P (f a) t b u) :
    Returns P (c >>= f) s b u := by
  have he : (c >>= f) s = (f a t).after (c s).log := by
    rw [bind_apply, h.ending, h.state]
  refine ⟨?_, ?_, fun x hx => ?_⟩
  · rw [he]
    exact h'.ending
  · rw [he]
    exact h'.state
  · rw [he, Trace.log_after, List.mem_append] at hx
    rcases hx with hx | hx
    · exact h.log x hx
    · exact h'.log x hx

theorem mono (h : Returns P c s a t) (hle : ∀ e s, P e s → Q e s) : Returns Q c s a t :=
  ⟨h.ending, h.state, fun x hx => hle _ _ (h.log x hx)⟩

/-- A call that returns has returned from its first part. -/
theorem of_bind (h : Returns P (c >>= f) s b u) :
    ∃ a t, Returns P c s a t ∧ Returns P (f a) t b u := by
  obtain ⟨hending, hstate, hlog⟩ := h
  obtain ⟨l, hl⟩ := log_bind_prefix c f s
  have hleft : ∀ x ∈ (c s).log, P x.1 x.2 := fun x hx =>
    hlog x (hl ▸ List.mem_append_left l hx)
  rw [bind_apply] at hending hstate hlog
  cases he : (c s).ending with
  | returned a =>
      rw [he] at hending hstate hlog
      exact ⟨a, (c s).state, ⟨he, rfl, hleft⟩, hending, hstate,
        fun x hx => hlog x (List.mem_append_right _ hx)⟩
  | parked =>
      rw [he] at hending
      cases hending
  | cut =>
      rw [he] at hending
      cases hending

/-- A call returns in one way. -/
theorem unique (h : Returns P c s a t) {b : α} (h' : Returns Q c s b u) : a = b ∧ t = u := by
  constructor
  · exact Ending.returned.inj (h.ending.symm.trans h'.ending)
  · exact h.state.symm.trans h'.state

end Returns

namespace Returns

variable {P : ε → σ → Prop} {f : σ → Call σ ε β} {g : PUnit → Call σ ε β} {s u : σ} {b : β}

theorem of_read (h : Returns P (Call.read >>= f) s b u) : Returns P (f s) s b u := by
  obtain ⟨a, t, hread, h⟩ := h.of_bind
  obtain ⟨rfl, rfl⟩ := (Returns.read (P := P) s).unique hread
  exact h

theorem of_act {e : ε} {w : σ → σ} (h : Returns P (Call.act e w >>= g) s b u) :
    P e (w s) ∧ Returns P (g ⟨⟩) (w s) b u := by
  obtain ⟨a, t, hact, h⟩ := h.of_bind
  have ht : w s = t := hact.state
  subst ht
  exact ⟨hact.log _ (List.mem_singleton_self _), h⟩

end Returns

/-! ## Steps that are taken -/

/-- The call takes a step that satisfies `P`, however it ends. -/
def Logs (P : ε → σ → Prop) (c : Call σ ε α) (s : σ) : Prop := ∃ x ∈ (c s).log, P x.1 x.2

namespace Logs

variable {P Q : ε → σ → Prop} {c : Call σ ε α} {f : α → Call σ ε β} {s t : σ} {a : α}

theorem act {e : ε} {g : σ → σ} (h : P e (g s)) : Logs P (act e g) s :=
  ⟨_, List.mem_singleton_self _, h⟩

theorem left (h : Logs P c s) : Logs P (c >>= f) s := by
  obtain ⟨x, hx, hp⟩ := h
  obtain ⟨l, hl⟩ := log_bind_prefix c f s
  exact ⟨x, hl ▸ List.mem_append_left l hx, hp⟩

theorem right (h : Returns Q c s a t) (h' : Logs P (f a) t) : Logs P (c >>= f) s := by
  obtain ⟨x, hx, hp⟩ := h'
  refine ⟨x, ?_, hp⟩
  rw [bind_apply, h.ending, h.state]
  exact List.mem_append_right _ hx

end Logs

/-! ## Calls that do not return -/

/-- The call is cut, and up to there its steps satisfy `P`. -/
structure Cuts (P : ε → σ → Prop) (c : Call σ ε α) (s : σ) : Prop where
  ending : (c s).ending = .cut
  log : ∀ x ∈ (c s).log, P x.1 x.2

namespace Cuts

variable {P Q : ε → σ → Prop} {c : Call σ ε α} {f : α → Call σ ε β} {s t : σ} {a : α}

theorem cut (s : σ) : Cuts P (cut : Call σ ε α) s := ⟨rfl, fun _ hx => nomatch hx⟩

theorem left (h : Cuts P c s) : Cuts P (c >>= f) s := by
  have he : (c >>= f) s = ⟨(c s).log, (c s).state, .cut⟩ := by
    rw [bind_apply, h.ending]
  refine ⟨?_, fun x hx => ?_⟩
  · rw [he]
  · rw [he] at hx
    exact h.log x hx

theorem right (h : Returns P c s a t) (h' : Cuts P (f a) t) : Cuts P (c >>= f) s := by
  have he : (c >>= f) s = (f a t).after (c s).log := by
    rw [bind_apply, h.ending, h.state]
  refine ⟨?_, fun x hx => ?_⟩
  · rw [he]
    exact h'.ending
  · rw [he, Trace.log_after, List.mem_append] at hx
    rcases hx with hx | hx
    · exact h.log x hx
    · exact h'.log x hx

theorem mono (h : Cuts P c s) (hle : ∀ e s, P e s → Q e s) : Cuts Q c s :=
  ⟨h.ending, fun x hx => hle _ _ (h.log x hx)⟩

/-- A call that is cut does not return. -/
theorem not_returns (h : Cuts P c s) {t : σ} {a : α} : ¬Returns Q c s a t := by
  intro h'
  cases h.ending.symm.trans h'.ending

end Cuts

/-- The call parks in the state `t`, and its steps satisfy `P`. -/
structure Parks (P : ε → σ → Prop) (c : Call σ ε α) (s t : σ) : Prop where
  ending : (c s).ending = .parked
  state : (c s).state = t
  log : ∀ x ∈ (c s).log, P x.1 x.2

namespace Parks

variable {P : ε → σ → Prop} {c : Call σ ε α} {f : α → Call σ ε β} {s t u : σ} {a : α}

theorem park (s : σ) : Parks P (park : Call σ ε α) s s := ⟨rfl, rfl, fun _ hx => nomatch hx⟩

theorem left (h : Parks P c s t) : Parks P (c >>= f) s t := by
  have he : (c >>= f) s = ⟨(c s).log, (c s).state, .parked⟩ := by
    rw [bind_apply, h.ending]
  refine ⟨?_, ?_, fun x hx => ?_⟩
  · rw [he]
  · rw [he]
    exact h.state
  · rw [he] at hx
    exact h.log x hx

theorem right (h : Returns P c s a t) (h' : Parks P (f a) t u) : Parks P (c >>= f) s u := by
  have he : (c >>= f) s = (f a t).after (c s).log := by
    rw [bind_apply, h.ending, h.state]
  refine ⟨?_, ?_, fun x hx => ?_⟩
  · rw [he]
    exact h'.ending
  · rw [he]
    exact h'.state
  · rw [he, Trace.log_after, List.mem_append] at hx
    rcases hx with hx | hx
    · exact h.log x hx
    · exact h'.log x hx

end Parks

/-! ## Invariants of calls -/

/-- Where the call returns after steps that satisfy `P`, it has kept `I`. -/
def Keeps (P : ε → σ → Prop) (I : σ → Prop) (c : Call σ ε α) : Prop :=
  ∀ s a t, I s → Returns P c s a t → I t

/-- From no state of `I` does the call return after steps that satisfy `P`. -/
def Never (P : ε → σ → Prop) (I : σ → Prop) (c : Call σ ε α) : Prop :=
  ∀ s a t, I s → ¬Returns P c s a t

namespace Keeps

variable {P : ε → σ → Prop} {I : σ → Prop} {c : Call σ ε α} {f : α → Call σ ε β}

theorem pure (a : α) : Keeps P I (Pure.pure a : Call σ ε α) := by
  intro s b t hs h
  obtain ⟨-, rfl⟩ := h.unique (Returns.pure (P := P) a s)
  exact hs

theorem act {e : ε} {g : σ → σ} (h : ∀ s, I s → I (g s)) : Keeps P I (Call.act e g) := by
  intro s b t hs hr
  have ht : g s = t := hr.state
  exact ht ▸ h s hs

theorem bind (h : Keeps P I c) (h' : ∀ a, Keeps P I (f a)) : Keeps P I (c >>= f) := by
  intro s b u hs hr
  obtain ⟨a, t, hc, hf⟩ := hr.of_bind
  exact h' a t b u (h s a t hs hc) hf

/-- What is read is a state of `I`. -/
theorem read {f : σ → Call σ ε β} (h : ∀ s, I s → Keeps P I (f s)) :
    Keeps P I (Call.read >>= f) := by
  intro s b u hs hr
  exact h s hs s b u hs hr.of_read

end Keeps

namespace Never

variable {P : ε → σ → Prop} {I : σ → Prop} {c : Call σ ε α} {f : α → Call σ ε β}

theorem cut : Never P I (Call.cut : Call σ ε α) := by
  intro s a t _ hr
  cases hr.ending

theorem act {e : ε} {g : σ → σ} (h : ∀ s, ¬P e s) : Never P I (Call.act e g) :=
  fun s _ _ _ hr => h (g s) (hr.log _ (List.mem_singleton_self _))

theorem left (h : Never P I c) : Never P I (c >>= f) := by
  intro s b u hs hr
  obtain ⟨a, t, hc, -⟩ := hr.of_bind
  exact h s a t hs hc

theorem right (h : Keeps P I c) (h' : ∀ a, Never P I (f a)) : Never P I (c >>= f) := by
  intro s b u hs hr
  obtain ⟨a, t, hc, hf⟩ := hr.of_bind
  exact h' a t b u (h s a t hs hc) hf

theorem read {f : σ → Call σ ε β} (h : ∀ s, I s → Never P I (f s)) :
    Never P I (Call.read >>= f) := by
  intro s b u hs hr
  exact h s hs s b u hs hr.of_read

/-- A call that never returns keeps everything. -/
theorem keeps (h : Never P I c) : Keeps P I c := fun s a t hs hr => absurd hr (h s a t hs)

end Never

/-! ## Calls as one step -/

variable {τ : Type u}

/-- The call is one step from `s` to `t` with the result `a` on the states of an
abstraction, of which `R` says what they stand for. -/
def Realizes (R : τ → σ → Prop) (P : ε → σ → Prop) (c : Call σ ε α) (s : τ) (a : α) (t : τ) :
    Prop :=
  ∀ s₁, R s s₁ → ∃ t₁, R t t₁ ∧ Returns P c s₁ a t₁

namespace Realizes

variable {R : τ → σ → Prop} {P : ε → σ → Prop} {c : Call σ ε α} {f : α → Call σ ε β} {s t u : τ}
  {a : α} {b : β}

theorem pure (a : α) (s : τ) : Realizes R P (Pure.pure a) s a s :=
  fun s₁ hs => ⟨s₁, hs, .pure a s₁⟩

theorem bind (h : Realizes R P c s a t) (h' : Realizes R P (f a) t b u) :
    Realizes R P (c >>= f) s b u := by
  intro s₁ hs
  obtain ⟨t₁, ht, hc⟩ := h s₁ hs
  obtain ⟨u₁, hu, hf⟩ := h' t₁ ht
  exact ⟨u₁, hu, hc.bind hf⟩

theorem read {f : σ → Call σ ε β} (h : ∀ s₁, R s s₁ → Realizes R P (f s₁) s b u) :
    Realizes R P (Call.read >>= f) s b u := by
  intro s₁ hs
  obtain ⟨t₁, ht, hf⟩ := h s₁ hs s₁ hs
  exact ⟨t₁, ht, .bind (.read s₁) hf⟩

theorem act {e : ε} {g : σ → σ} (h : ∀ s₁, R s s₁ → R t (g s₁) ∧ P e (g s₁)) :
    Realizes R P (Call.act e g) s ⟨⟩ t := by
  intro s₁ hs
  obtain ⟨ht, hp⟩ := h s₁ hs
  exact ⟨g s₁, ht, .act hp⟩

end Realizes

/-! ## Larger bounds -/

/-- The second call does what the first does, unless the first is cut. -/
def Extends (c c' : Call σ ε α) : Prop := ∀ s, (c s).ending = .cut ∨ c' s = c s

namespace Extends

variable {c c' : Call σ ε α} {f f' : α → Call σ ε β}

theorem refl (c : Call σ ε α) : Extends c c := fun _ => .inr rfl

theorem cut (c : Call σ ε α) : Extends Call.cut c := fun _ => .inl rfl

theorem bind (h : Extends c c') (h' : ∀ a, Extends (f a) (f' a)) :
    Extends (c >>= f) (c' >>= f') := by
  intro s
  rw [bind_apply, bind_apply]
  rcases h s with hcut | hsame
  · left
    rw [hcut]
  · rw [hsame]
    cases he : (c s).ending with
    | returned a =>
        rcases h' a (c s).state with hcut | hsame'
        · exact .inl hcut
        · right
          simp only [hsame']
    | parked => exact .inr rfl
    | cut => exact .inl rfl

end Extends

/-- The call comes to an end for some bound: it returns or parks. -/
def Terminates (c : Nat → Call σ ε α) (s : σ) : Prop := ∃ depth, (c depth s).ending ≠ .cut

/-- A call that comes to an end does the same for every larger bound. -/
theorem stable_of_extends {c : Nat → Call σ ε α} (hc : ∀ depth, Extends (c depth) (c (depth + 1)))
    {s : σ} {depth : Nat} (hends : (c depth s).ending ≠ .cut) (more : Nat) :
    c (depth + more) s = c depth s := by
  induction more with
  | zero => rfl
  | succ more ih =>
      rcases hc (depth + more) s with hcut | hsame
      · rw [ih] at hcut
        exact absurd hcut hends
      · rw [← ih]
        exact hsame

theorem Returns.terminates {P : ε → σ → Prop} {c : Nat → Call σ ε α} {s t : σ} {a : α}
    (depth : Nat) (h : Returns P (c depth) s a t) : Terminates c s := by
  refine ⟨depth, ?_⟩
  rw [h.ending]
  intro he
  cases he

theorem Parks.terminates {P : ε → σ → Prop} {c : Nat → Call σ ε α} {s t : σ} (depth : Nat)
    (h : Parks P (c depth) s t) : Terminates c s := by
  refine ⟨depth, ?_⟩
  rw [h.ending]
  intro he
  cases he

theorem Cuts.not_terminates {P : ε → σ → Prop} {c : Nat → Call σ ε α} {s : σ}
    (h : ∀ depth, Cuts P (c depth) s) : ¬Terminates c s :=
  fun ⟨depth, hends⟩ => hends (h depth).ending

end Call

end TPE
