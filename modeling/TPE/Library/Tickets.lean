import Mathlib.Data.List.Nodup
import TPE.Library.WaitQueue

/-!
# Tickets of parties that may go away

A party leaves a ticket at a place and waits.  Somebody takes the ticket from
there, has it in hand for a while, and answers it by waking the party up.

A ticket only names its party, and says nothing any more when the party is
gone.  `TicketInv` holds as long as nobody goes away, or is doomed to, whose
ticket is pending: at a place or in a hand.
-/

namespace TPE

open Function

/-- The parties `ι` and their tickets `τ` at the places `ω`. -/
structure Tickets (ι ω τ : Type*) where
  live : Set ι
  /-- The parties that will go away. -/
  doomed : ι → Prop
  parked : ι → Prop
  stage : ι → Stage (ω × τ)
  /-- The tickets at a place. -/
  left : ω → List τ
  /-- The tickets a party has taken and not answered yet. -/
  hands : ι → List (ω × τ)
  /-- Whom a ticket at a place names. -/
  owner : ω → τ → ι

namespace Tickets

variable {ι ω τ : Type*} {s s' : Tickets ι ω τ} {w v : ω} {t u : τ} {p q : ι}

/-- Somebody will answer the ticket, if only later. -/
def Pending (s : Tickets ι ω τ) (w : ω) (t : τ) : Prop :=
  t ∈ s.left w ∨ ∃ q ∈ s.live, (w, t) ∈ s.hands q

/-- The party that the ticket names is there and waits for its answer. -/
structure Awaited (s : Tickets ι ω τ) (w : ω) (t : τ) : Prop where
  live : s.owner w t ∈ s.live
  notDoomed : ¬s.doomed (s.owner w t)
  stage : s.stage (s.owner w t) = .registered (w, t) ∨
    s.stage (s.owner w t) = .waiting (w, t) ∧ s.parked (s.owner w t)

theorem Awaited.ticket (h : s.Awaited w t) :
    (s.stage (s.owner w t)).ticket = some (w, t) := by
  rcases h.stage with he | ⟨he, -⟩
  · rw [he]
    rfl
  · rw [he]
    rfl

/-- A party waits for one ticket at a time. -/
theorem Awaited.unique (h : s.Awaited w t) (h' : s.Awaited v u)
    (he : s.owner v u = s.owner w t) : v = w ∧ u = t := by
  have hticket := h'.ticket
  rw [he, h.ticket] at hticket
  cases hticket
  exact ⟨rfl, rfl⟩

/-- Every pending ticket is awaited, and pending once. -/
structure Inv (s : Tickets ι ω τ) : Prop where
  awaited : ∀ w t, s.Pending w t → s.Awaited w t
  leftOnce : ∀ w, (s.left w).Nodup
  handsOnce : ∀ q ∈ s.live, (s.hands q).Nodup
  taken : ∀ q ∈ s.live, ∀ w t, (w, t) ∈ s.hands q → t ∉ s.left w
  oneHand : ∀ p ∈ s.live, ∀ q ∈ s.live, ∀ x, x ∈ s.hands p → x ∈ s.hands q → p = q

/-- The pending tickets of the second state are pending in the first. -/
structure Fewer (s s' : Tickets ι ω τ) : Prop where
  left : ∀ w, (s'.left w).Sublist (s.left w)
  hands : ∀ q ∈ s'.live, (s'.hands q).Sublist (s.hands q)
  live : ∀ q ∈ s'.live, s'.hands q ≠ [] → q ∈ s.live

namespace Fewer

theorem mem_live (h : Fewer s s') (hq : q ∈ s'.live) {x : ω × τ} (hx : x ∈ s'.hands q) :
    q ∈ s.live ∧ x ∈ s.hands q :=
  ⟨h.live q hq (List.ne_nil_of_mem hx), (h.hands q hq).subset hx⟩

theorem pending (h : Fewer s s') (hp : s'.Pending w t) : s.Pending w t := by
  rcases hp with hleft | ⟨q, hq, hx⟩
  · exact Or.inl ((h.left w).subset hleft)
  · obtain ⟨hlive, hx⟩ := h.mem_live hq hx
    exact Or.inr ⟨q, hlive, hx⟩

end Fewer

namespace Inv

/-- Tickets may disappear, and the parties change as long as they still wait for
what is left of them. -/
theorem fewer (h : s.Inv) (hf : Fewer s s')
    (hkeep : ∀ w t, s'.Pending w t → s.Awaited w t → s'.Awaited w t) : s'.Inv := by
  refine ⟨fun w t hp => hkeep w t hp (h.awaited w t (hf.pending hp)), fun w => ?_, fun q hq => ?_,
    fun q hq w t hx ht => ?_, fun p hp q hq x hx hy => ?_⟩
  · exact (hf.left w).nodup (h.leftOnce w)
  · cases hhands : s'.hands q with
    | nil => exact List.nodup_nil
    | cons x rest =>
        have hlive := hf.live q hq (by rw [hhands]; simp)
        rw [← hhands]
        exact (hf.hands q hq).nodup (h.handsOnce q hlive)
  · obtain ⟨hlive, hx⟩ := hf.mem_live hq hx
    exact h.taken q hlive w t hx ((hf.left w).subset ht)
  · obtain ⟨hlive, hx⟩ := hf.mem_live hp hx
    obtain ⟨hlive', hy⟩ := hf.mem_live hq hy
    exact h.oneHand p hlive q hlive' x hx hy

/-- A party whose stage has no ticket is named by no pending ticket. -/
theorem owner_ne (h : s.Inv) (hp : (s.stage p).ticket = none) (ht : s.Pending w t) :
    s.owner w t ≠ p := by
  rintro rfl
  have hticket := (h.awaited w t ht).ticket
  rw [hp] at hticket
  cases hticket

/-- A doomed party is named by no pending ticket. -/
theorem owner_notDoomed (h : s.Inv) (hp : s.doomed p) (ht : s.Pending w t) :
    s.owner w t ≠ p := by
  rintro rfl
  exact (h.awaited w t ht).notDoomed hp

/-- A ticket is answered where it was left. -/
theorem answerLeft [DecidableEq ω] (h : s.Inv) {done rest : List τ}
    (hleft : s.left w = done ++ t :: rest) {parked : ι → Prop}
    (hparked : ∀ p, p ≠ s.owner w t → s.parked p → parked p) :
    Inv { s with parked, left := update s.left w (done ++ rest) } := by
  have honce := h.leftOnce w
  rw [hleft] at honce
  have hperm := (List.nodup_middle.mp honce)
  have hsub : ∀ v, (update s.left w (done ++ rest) v).Sublist (s.left v) := by
    intro v
    by_cases hvw : v = w
    · subst hvw
      rw [update_self, hleft]
      exact (List.sublist_cons_self t rest).append_left done
    · rw [update_of_ne hvw]
  have hf : Fewer s { s with parked, left := update s.left w (done ++ rest) } :=
    ⟨hsub, fun _ _ => List.Sublist.refl _, fun _ hp _ => hp⟩
  have ht : t ∈ s.left w := hleft ▸ List.mem_append_right _ List.mem_cons_self
  refine h.fewer hf fun v u hp haw => ?_
  have hne : s.owner v u ≠ s.owner w t := by
    intro he
    obtain ⟨rfl, rfl⟩ := (h.awaited w t (Or.inl ht)).unique haw he
    rcases hp with hu | ⟨q, hq, hx⟩
    · have hu' : u ∈ update s.left v (done ++ rest) v := hu
      rw [update_self] at hu'
      exact (List.nodup_cons.mp hperm).1 hu'
    · exact h.taken q hq v u hx ht
  exact ⟨haw.live, haw.notDoomed, haw.stage.imp_right fun hw => ⟨hw.1, hparked _ hne hw.2⟩⟩

section Steps

variable [DecidableEq ι]

/-- A party leaves a ticket. -/
theorem register [DecidableEq ω] (h : s.Inv) (hlive : p ∈ s.live) (hdoomed : ¬s.doomed p)
    (hstage : s.stage p = .out) (howner : s.owner w t = p) {l : List τ}
    (hl : l.Perm (t :: s.left w)) :
    Inv { s with
      left := update s.left w l
      stage := update s.stage p (.registered (w, t)) } := by
  have hfresh : ¬s.Pending w t := fun ht => h.owner_ne (by rw [hstage]; rfl) ht howner
  have hleft : ∀ v u, u ∈ update s.left w l v → (v = w ∧ u = t) ∨ u ∈ s.left v := by
    intro v u hu
    by_cases hvw : v = w
    · subst hvw
      rw [update_self, hl.mem_iff, List.mem_cons] at hu
      exact hu.imp_left fun he => ⟨rfl, he⟩
    · rw [update_of_ne hvw] at hu
      exact Or.inr hu
  refine ⟨fun v u hp => ?_, fun v => ?_, h.handsOnce, fun q hq v u hx hu => ?_, h.oneHand⟩
  · by_cases hnew : v = w ∧ u = t
    · obtain ⟨rfl, rfl⟩ := hnew
      refine ⟨?_, ?_, Or.inl ?_⟩
      · show s.owner v u ∈ s.live
        rwa [howner]
      · show ¬s.doomed (s.owner v u)
        rwa [howner]
      · show update s.stage p (.registered (v, u)) (s.owner v u) = _
        rw [howner, update_self]
    · have hold : s.Pending v u := by
        rcases hp with hu | hhand
        · exact Or.inl ((hleft v u hu).resolve_left hnew)
        · exact Or.inr hhand
      have haw := h.awaited v u hold
      have hne : s.owner v u ≠ p := h.owner_ne (by rw [hstage]; rfl) hold
      refine ⟨haw.live, haw.notDoomed, ?_⟩
      show update s.stage p _ (s.owner v u) = _ ∨ update s.stage p _ (s.owner v u) = _ ∧ _
      rw [update_of_ne hne]
      exact haw.stage
  · show (update s.left w l v).Nodup
    by_cases hvw : v = w
    · subst hvw
      rw [update_self, hl.nodup_iff, List.nodup_cons]
      exact ⟨fun ht => hfresh (Or.inl ht), h.leftOnce v⟩
    · rw [update_of_ne hvw]
      exact h.leftOnce v
  · rcases hleft v u hu with ⟨rfl, rfl⟩ | hold
    · exact hfresh (Or.inr ⟨q, hq, hx⟩)
    · exact h.taken q hq v u hx hold

/-- A party goes from leaving its ticket to waiting for the answer. -/
theorem park (h : s.Inv) {x : ω × τ} (hstage : s.stage p = .registered x) {parked : ι → Prop}
    (hmore : ∀ q, s.parked q → parked q)
    (hself : ¬s.doomed p → s.owner x.1 x.2 = p → parked p) :
    Inv { s with parked, stage := update s.stage p (.waiting x) } := by
  refine h.fewer ⟨fun _ => List.Sublist.refl _, fun _ _ => List.Sublist.refl _, fun _ hq _ => hq⟩ ?_
  intro v u hp haw
  refine ⟨haw.live, haw.notDoomed, ?_⟩
  show update s.stage p _ (s.owner v u) = _ ∨ update s.stage p _ (s.owner v u) = _ ∧ _
  by_cases hown : s.owner v u = p
  · right
    have hticket := haw.ticket
    rw [hown, hstage] at hticket
    cases hticket
    rw [hown, update_self]
    exact ⟨rfl, hself (hown ▸ haw.notDoomed) hown⟩
  · rw [update_of_ne hown]
    exact haw.stage.imp_right fun hw => ⟨hw.1, hmore _ hw.2⟩

/-- A party takes a ticket from a place. -/
theorem take [DecidableEq ω] (h : s.Inv) (hlive : q ∈ s.live) {rest : List τ}
    (hleft : s.left w = t :: rest) :
    Inv { s with
      left := update s.left w rest
      hands := update s.hands q ((w, t) :: s.hands q) } := by
  have ht : t ∈ s.left w := hleft ▸ List.mem_cons_self
  have honce := h.leftOnce w
  rw [hleft, List.nodup_cons] at honce
  have hsub : ∀ v u, u ∈ update s.left w rest v → u ∈ s.left v ∧ ¬(v = w ∧ u = t) := by
    intro v u hu
    by_cases hvw : v = w
    · subst hvw
      rw [update_self] at hu
      refine ⟨hleft ▸ List.mem_cons_of_mem _ hu, ?_⟩
      rintro ⟨-, rfl⟩
      exact honce.1 hu
    · rw [update_of_ne hvw] at hu
      exact ⟨hu, fun he => hvw he.1⟩
  have hhand : ∀ p x, x ∈ update s.hands q ((w, t) :: s.hands q) p →
      (p = q ∧ x = (w, t)) ∨ x ∈ s.hands p := by
    intro p x hx
    by_cases hpq : p = q
    · subst hpq
      rw [update_self, List.mem_cons] at hx
      exact hx.imp_left fun he => ⟨rfl, he⟩
    · rw [update_of_ne hpq] at hx
      exact Or.inr hx
  have hnot : ∀ p ∈ s.live, (w, t) ∉ s.hands p := fun p hp hx => h.taken p hp w t hx ht
  refine ⟨fun v u hp => ?_, fun v => ?_, fun p hp => ?_, fun p hp v u hx hu => ?_,
    fun p hp r hr x hx hy => ?_⟩
  · have hold : s.Pending v u := by
      rcases hp with hu | ⟨p, hp, hx⟩
      · exact Or.inl (hsub v u hu).1
      · rcases hhand p (v, u) hx with ⟨-, he⟩ | hx
        · cases he
          exact Or.inl ht
        · exact Or.inr ⟨p, hp, hx⟩
    have haw := h.awaited v u hold
    exact ⟨haw.live, haw.notDoomed, haw.stage⟩
  · show (update s.left w rest v).Nodup
    by_cases hvw : v = w
    · rw [hvw, update_self]
      exact honce.2
    · rw [update_of_ne hvw]
      exact h.leftOnce v
  · show (update s.hands q _ p).Nodup
    by_cases hpq : p = q
    · subst hpq
      rw [update_self, List.nodup_cons]
      exact ⟨hnot p hp, h.handsOnce p hp⟩
    · rw [update_of_ne hpq]
      exact h.handsOnce p hp
  · obtain ⟨hu, hne⟩ := hsub v u hu
    rcases hhand p (v, u) hx with ⟨-, he⟩ | hx
    · cases he
      exact hne ⟨rfl, rfl⟩
    · exact h.taken p hp v u hx hu
  · rcases hhand p x hx with ⟨rfl, rfl⟩ | hx
    · rcases hhand r (w, t) hy with ⟨rfl, -⟩ | hy
      · rfl
      · exact absurd hy (hnot r hr)
    · rcases hhand r x hy with ⟨-, rfl⟩ | hy
      · exact absurd hx (hnot p hp)
      · exact h.oneHand p hp r hr x hx hy

/-- A ticket in hand is answered, or thrown away. -/
theorem answer (h : s.Inv) (hlive : q ∈ s.live) {rest : List (ω × τ)}
    (hhands : s.hands q = (w, t) :: rest) {parked : ι → Prop}
    (hparked : ∀ p, p ≠ s.owner w t → s.parked p → parked p) :
    Inv { s with parked, hands := update s.hands q rest } := by
  have hmem : (w, t) ∈ s.hands q := hhands ▸ List.mem_cons_self
  have honce := h.handsOnce q hlive
  rw [hhands, List.nodup_cons] at honce
  have hsub : ∀ p, (update s.hands q rest p).Sublist (s.hands p) := by
    intro p
    by_cases hpq : p = q
    · subst hpq
      rw [update_self, hhands]
      exact List.sublist_cons_self _ _
    · rw [update_of_ne hpq]
  have hf : Fewer s { s with parked, hands := update s.hands q rest } :=
    ⟨fun _ => List.Sublist.refl _, fun p _ => hsub p, fun _ hp _ => hp⟩
  refine h.fewer hf fun v u hp haw => ?_
  have hne : s.owner v u ≠ s.owner w t := by
    intro he
    obtain ⟨rfl, rfl⟩ := (h.awaited w t (Or.inr ⟨q, hlive, hmem⟩)).unique haw he
    rcases hp with hleft | ⟨p, hp, hx⟩
    · exact h.taken q hlive v u hmem hleft
    · have hpq : p = q := h.oneHand p hp q hlive _ ((hsub p).subset hx) hmem
      subst hpq
      have hx' : (v, u) ∈ update s.hands p rest p := hx
      rw [update_self] at hx'
      exact honce.1 hx'
  exact ⟨haw.live, haw.notDoomed, haw.stage.imp_right fun hw => ⟨hw.1, hparked _ hne hw.2⟩⟩

/-- A party that is not parked any more goes on. -/
theorem resume (h : s.Inv) {x : ω × τ} (hstage : s.stage p = .waiting x) (hp : ¬s.parked p) :
    Inv { s with stage := update s.stage p .out } := by
  refine h.fewer ⟨fun _ => List.Sublist.refl _, fun _ _ => List.Sublist.refl _, fun _ hq _ => hq⟩ ?_
  intro v u _ haw
  have hne : s.owner v u ≠ p := by
    rintro rfl
    rcases haw.stage with he | ⟨-, hb⟩
    · rw [hstage] at he
      cases he
    · exact hp hb
  refine ⟨haw.live, haw.notDoomed, ?_⟩
  show update s.stage p _ (s.owner v u) = _ ∨ update s.stage p _ (s.owner v u) = _ ∧ _
  rw [update_of_ne hne]
  exact haw.stage

end Steps

end Inv

end Tickets

end TPE
