import TPE.Library.Runs
import TPE.Library.Walk
import TPE.Kernel.ProcessManager

/-!
# The scheduler's ring

The nodes of the scheduler form one cycle through every process that was added
and not yet destroyed.  The list of its nodes is written from the node of
`init` on, which is never removed.

`Walking` is the invariant of the loop in `set_next_current`: the ring is cut
at `current` into the part before it, whose last node is `prev`, and the part
from it on.  The loop moves along the second part and ends at the node of
`init` at the latest, so it never comes to a node of the first part.
-/

namespace TPE

open Function

namespace Kernel

/-! ## The pages of the ring -/

/-- The pages of the nodes and of their processes. -/
def ringPages (k : Kernel) (ring : List Addr) : List Addr := ring ++ ring.map k.procOf

/-- The nodes of the ring and their processes are on different pages, which are
handed out, as are the pages `held` by others.  The processes have no data pages. -/
structure Owned (k : Kernel) (held ring : List Addr) : Prop where
  nodup : (held ++ k.ringPages ring).Nodup
  pages : k.pages.PagesOk {a | a ∈ held ++ k.ringPages ring}
  noData : ∀ a ∈ ring, (k.processes (k.procOf a)).nDataPage = 0

variable {k k' : Kernel} {held ring : List Addr}

theorem Owned.nodup_ring (h : k.Owned held ring) : ring.Nodup :=
  (List.nodup_append.mp (List.nodup_append.mp h.nodup).2.1).1

theorem Owned.nodup_procs (h : k.Owned held ring) : (ring.map k.procOf).Nodup :=
  (List.nodup_append.mp (List.nodup_append.mp h.nodup).2.1).2.1

theorem Owned.procOf_ne_null (h : k.Owned held ring) {a : Addr} (ha : a ∈ ring) :
    k.procOf a ≠ null := by
  refine (h.pages.isPage (k.procOf a) ?_).ne_null
  exact List.mem_append_right _ (List.mem_append_right _ (List.mem_map_of_mem ha))

/-- What the ring owns is read off the nodes' processes, the free pages and the
processes' data pages. -/
theorem Owned.congr (h : k.Owned held ring) (hproc : ∀ a, k'.procOf a = k.procOf a)
    (hpages : k'.pages = k.pages)
    (hdata : ∀ p, (k'.processes p).nDataPage = (k.processes p).nDataPage) :
    k'.Owned held ring := by
  have hsame : k'.procOf = k.procOf := funext hproc
  refine ⟨?_, ?_, fun a ha => ?_⟩
  · rw [ringPages, hsame]
    exact h.nodup
  · rw [hpages, ringPages, hsame]
    exact h.pages
  · rw [hsame, hdata]
    exact h.noData a ha

theorem ringPages_perm (k : Kernel) (pre suf : List Addr) (a : Addr) :
    (k.ringPages (pre ++ a :: suf)).Perm (a :: k.procOf a :: k.ringPages (pre ++ suf)) := by
  refine List.perm_iff_count.mpr fun x => ?_
  simp only [ringPages, List.map_append, List.map_cons, List.count_append, List.count_cons]
  omega

/-- The page of a node and that of its process are not among the others. -/
theorem Owned.not_mem {pre suf : List Addr} {a : Addr} (h : k.Owned held (pre ++ a :: suf)) :
    (a :: k.procOf a :: (held ++ k.ringPages (pre ++ suf))).Nodup := by
  refine (List.Perm.nodup_iff ?_).mp h.nodup
  refine (List.Perm.append_left held (ringPages_perm k pre suf a)).trans ?_
  exact List.perm_middle.trans (List.Perm.cons _ List.perm_middle)

/-- The page of a process is given back: its node is held and no longer in the ring. -/
theorem Owned.retire {pre suf : List Addr} {a : Addr} (h : k.Owned held (pre ++ a :: suf))
    (hproc : k'.procOf = k.procOf) (hpages : k'.pages = k.pages.storePage (k.procOf a))
    (hdata : ∀ p, (k'.processes p).nDataPage = (k.processes p).nDataPage) :
    k'.Owned (a :: held) (pre ++ suf) := by
  have hfresh := h.not_mem
  have hsub : ∀ x, x = a ∨ x = k.procOf a ∨ x ∈ held ++ k.ringPages (pre ++ suf) →
      x ∈ held ++ k.ringPages (pre ++ a :: suf) := by
    intro x hx
    simp only [List.mem_append, (ringPages_perm k pre suf a).mem_iff, List.mem_cons] at hx ⊢
    tauto
  have hsplit := List.nodup_cons.mp hfresh
  have hsplit' := List.nodup_cons.mp hsplit.2
  refine ⟨?_, ?_, fun b hb => ?_⟩
  · rw [ringPages, hproc]
    refine List.nodup_cons.mpr ⟨?_, hsplit'.2⟩
    exact fun hm => hsplit.1 (List.mem_cons_of_mem _ hm)
  · rw [hpages, ringPages, hproc]
    refine (h.pages.storePage (hsub _ (Or.inr (Or.inl rfl)))).mono fun x hx => ?_
    rcases List.mem_cons.mp hx with rfl | hx
    · exact ⟨hsub _ (Or.inl rfl), fun he => hsplit.1 (he ▸ List.mem_cons_self)⟩
    · refine ⟨hsub _ (Or.inr (Or.inr hx)), ?_⟩
      rintro rfl
      exact hsplit'.1 hx
  · rw [hproc, hdata]
    apply h.noData
    rcases List.mem_append.mp hb with hb | hb
    · exact List.mem_append_left _ hb
    · exact List.mem_append_right _ (List.mem_cons_of_mem _ hb)

/-- A page that is held is given back. -/
theorem Owned.release {a : Addr} (h : k.Owned (a :: held) ring) (hproc : k'.procOf = k.procOf)
    (hpages : k'.pages = k.pages.storePage a)
    (hdata : ∀ p, (k'.processes p).nDataPage = (k.processes p).nDataPage) :
    k'.Owned held ring := by
  have hsplit := List.nodup_cons.mp h.nodup
  refine ⟨?_, ?_, fun b hb => ?_⟩
  · rw [ringPages, hproc]
    exact hsplit.2
  · rw [hpages, ringPages, hproc]
    refine (h.pages.storePage List.mem_cons_self).mono fun x hx => ?_
    refine ⟨List.mem_cons_of_mem _ hx, ?_⟩
    rintro rfl
    exact hsplit.1 hx
  · rw [hproc, hdata]
    exact h.noData b hb

/-- A node is removed when its process's page and then its own are given back. -/
theorem Owned.remove {pre suf : List Addr} {a : Addr} (h : k.Owned held (pre ++ a :: suf))
    (hproc : k'.procOf = k.procOf)
    (hpages : k'.pages = (k.pages.storePage (k.procOf a)).storePage a)
    (hdata : ∀ p, (k'.processes p).nDataPage = (k.processes p).nDataPage) :
    k'.Owned held (pre ++ suf) := by
  have hretired : (k.storePage (k.procOf a)).Owned (a :: held) (pre ++ suf) :=
    h.retire rfl rfl fun _ => rfl
  exact hretired.release hproc hpages hdata

/-- Two fresh pages become a node and its process. -/
theorem Owned.insert {pre suf : List Addr} {a p : Addr} (h : k.Owned held (pre ++ suf))
    (ha : a ∉ held ++ k.ringPages (pre ++ suf)) (hp : p ∉ held ++ k.ringPages (pre ++ suf))
    (hne : a ≠ p) (hproc : k'.procOf = update k.procOf a p)
    (hpages : k'.pages.PagesOk {x | x = a ∨ x = p ∨ x ∈ held ++ k.ringPages (pre ++ suf)})
    (hdata : ∀ q, q ≠ p → (k'.processes q).nDataPage = (k.processes q).nDataPage)
    (hdata' : (k'.processes p).nDataPage = 0) :
    k'.Owned held (pre ++ a :: suf) := by
  have hring : a ∉ pre ++ suf := fun hm =>
    ha (List.mem_append_right _ (List.mem_append_left _ hm))
  have hsame : k'.ringPages (pre ++ suf) = k.ringPages (pre ++ suf) := by
    unfold ringPages
    rw [hproc]
    congr 1
    refine List.map_congr_left fun b hb => update_of_ne ?_ _ _
    rintro rfl
    exact hring hb
  have hself : k'.procOf a = p := by rw [hproc, update_self]
  have hperm : (held ++ k'.ringPages (pre ++ a :: suf)).Perm
      (a :: p :: (held ++ k.ringPages (pre ++ suf))) := by
    refine (List.Perm.append_left held (ringPages_perm k' pre suf a)).trans ?_
    rw [hself, hsame]
    exact List.perm_middle.trans (List.Perm.cons _ List.perm_middle)
  refine ⟨?_, ?_, fun b hb => ?_⟩
  · rw [hperm.nodup_iff, List.nodup_cons, List.nodup_cons, List.mem_cons, not_or]
    exact ⟨⟨hne, ha⟩, hp, h.nodup⟩
  · refine hpages.mono fun x hx => ?_
    rw [Set.mem_ofPred_eq, hperm.mem_iff, List.mem_cons, List.mem_cons] at hx
    exact hx
  · by_cases hba : b = a
    · rw [hba, hself, hdata']
    · have hb' : b ∈ pre ++ suf := by
        simp only [List.mem_append, List.mem_cons, hba, false_or] at hb ⊢
        exact hb
      rw [hproc, update_of_ne hba, hdata]
      · exact h.noData b hb'
      · rintro rfl
        exact hp (List.mem_append_right _ (List.mem_append_right _ (List.mem_map_of_mem hb')))

/-! ## The loop of `set_next_current` -/

/-- The ring, cut at `current`. -/
structure Walking (k : Kernel) (n0 : Addr) (held pre suf : List Addr) : Prop where
  before : Walk k.next n0 pre k.current
  after : Walk k.next k.current suf n0
  first : pre.head? = some n0
  last : pre.getLast? = some k.prev
  owned : k.Owned held (pre ++ suf)
  ready : k.Dispatchable n0

/-- `prev` is the node before `current`. -/
theorem Walking.split {n0 : Addr} {pre suf : List Addr} (h : k.Walking n0 held pre suf) :
    ∃ l, pre = l ++ [k.prev] ∧ Walk k.next n0 l k.prev ∧ k.next k.prev = k.current := by
  obtain ⟨l, hl⟩ := List.getLast?_eq_some_iff.mp h.last
  have hb := h.before
  rw [hl, Walk.concat_iff] at hb
  exact ⟨l, hl, hb⟩

/-- The state after one round of the loop at a process marked for deletion. -/
def passDoomed (k : Kernel) : Kernel :=
  let k' := k.link k.prev (k.next k.current)
  let k' := k'.destroyProcess (k.procOf k.current)
  { k'.storePage k'.current with current := k.next k.current }

/-- The state after one round of the loop at a blocked process. -/
def passBlocked (k : Kernel) : Kernel := { k with prev := k.current, current := k.next k.current }

theorem passDoomed_spec {k : Kernel} (hp : k.procOf k.current ≠ null)
    (hdata : (k.processes (k.procOf k.current)).nDataPage = 0) :
    k.passDoomed.next = update k.next k.prev (k.next k.current) ∧
    k.passDoomed.procOf = k.procOf ∧
    k.passDoomed.current = k.next k.current ∧
    k.passDoomed.prev = k.prev ∧
    k.passDoomed.superlock = k.superlock ∧
    k.passDoomed.pages = (k.pages.storePage (k.procOf k.current)).storePage k.current ∧
    k.processes.MayUnblock k.passDoomed.processes := by
  have hd : Destroyed (k.link k.prev (k.next k.current)) (k.procOf k.current) _ :=
    destroyProcess_spec hp hdata
  have hnext : k.passDoomed.next = (k.link k.prev (k.next k.current)).next :=
    funext fun a => congrArg (fun nodes : Addr → ListNode => (nodes a).next) hd.nodes
  have hproc : k.passDoomed.procOf = (k.link k.prev (k.next k.current)).procOf :=
    funext fun a => congrArg (fun nodes : Addr → ListNode => (nodes a).p) hd.nodes
  refine ⟨?_, ?_, rfl, hd.prev, hd.superlock, ?_, hd.procs⟩
  · rw [hnext, next_link]
  · rw [hproc, procOf_link]
  · exact congrArg₂ PageStack.storePage hd.pages hd.current

/-- One round unlinks and destroys a process marked for deletion. -/
theorem Walking.passDoomed {n0 c : Addr} {pre suf : List Addr}
    (h : k.Walking n0 held pre (c :: suf)) :
    c = k.current ∧ k.passDoomed.Walking n0 held pre suf ∧ k.passDoomed.procOf = k.procOf ∧
      k.processes.MayUnblock k.passDoomed.processes := by
  obtain ⟨rfl, hafter⟩ := h.after
  have hmem : k.current ∈ pre ++ k.current :: suf :=
    List.mem_append_right _ List.mem_cons_self
  obtain ⟨hnext, hproc, hcur, hprev, -, hpages, hprocs⟩ :=
    passDoomed_spec (h.owned.procOf_ne_null hmem) (h.owned.noData _ hmem)
  obtain ⟨l, hl, hbefore, -⟩ := h.split
  have hnodup := h.owned.nodup_ring
  have hprev_l : k.prev ∉ l := by
    rw [hl] at hnodup
    intro hm
    have := List.nodup_append.mp (List.nodup_append.mp hnodup).1
    exact this.2.2 _ hm _ (List.mem_singleton_self _) rfl
  have hprev_suf : k.prev ∉ suf := by
    intro hm
    have hmpre : k.prev ∈ pre := hl ▸ List.mem_append_right _ (List.mem_singleton_self _)
    exact (List.nodup_append.mp hnodup).2.2 _ hmpre _ (List.mem_cons_of_mem _ hm) rfl
  refine ⟨rfl, ⟨?_, ?_, h.first, ?_, ?_, ?_⟩, hproc, hprocs⟩
  · rw [hnext, hcur, hl, Walk.concat_iff]
    exact ⟨hbefore.write hprev_l, update_self _ _ _⟩
  · rw [hnext, hcur]
    exact hafter.write hprev_suf
  · rw [hprev]
    exact h.last
  · exact h.owned.remove hproc hpages hprocs.nDataPage_eq
  · unfold Dispatchable
    rw [hproc, hprocs.isDeleteProcess_iff]
    exact ⟨hprocs.not_isBlockedProcess h.ready.1, h.ready.2⟩

/-- One round steps over a blocked process. -/
theorem Walking.passBlocked {n0 c : Addr} {pre suf : List Addr}
    (h : k.Walking n0 held pre (c :: suf)) :
    c = k.current ∧ k.passBlocked.Walking n0 held (pre ++ [c]) suf := by
  obtain ⟨rfl, hafter⟩ := h.after
  refine ⟨rfl, ⟨?_, hafter, ?_, ?_, ?_, h.ready⟩⟩
  · exact Walk.concat_iff.mpr ⟨h.before, rfl⟩
  · rw [List.head?_append, h.first]
    rfl
  · exact List.getLast?_concat
  · rw [List.append_assoc]
    exact h.owned.congr (fun _ => rfl) rfl (fun _ => rfl)

/-- What the loop does: it passes over the nodes `passed`, of which it removes
those marked for deletion, and stops at a process that can be dispatched. -/
structure Passes (k : Kernel) (n0 : Addr) (held pre passed rest : List Addr) (ps : List Addr)
    (k' : Kernel) : Prop where
  walking : k'.Walking n0 held (pre ++ passed.filter fun a => ¬k.Doomed a) rest
  destroyed : ps = (passed.filter fun a => k.Doomed a).map k.procOf
  dispatchable : k'.Dispatchable k'.current
  procOf_eq : k'.procOf = k.procOf
  procs : k.processes.MayUnblock k'.processes

theorem setNextCurrent_spec (n0 : Addr) (suf : List Addr) :
    ∀ {k : Kernel} {pre : List Addr}, k.Walking n0 held pre suf →
      ∃ passed rest ps k', suf = passed ++ rest ∧ Passes k n0 held pre passed rest ps k' ∧
        ∀ fuel, setNextCurrent fuel k = if passed.length < fuel then some (ps, k') else none := by
  induction suf with
  | nil =>
      intro k pre h
      -- the walk is back at the node of `init`
      have hcur : k.current = n0 := h.after
      have hready : k.Dispatchable k.current := hcur ▸ h.ready
      refine ⟨[], [], [], k, rfl, ⟨by simpa using h, rfl, hready, rfl, .refl _⟩, ?_⟩
      rintro (_ | fuel)
      · rfl
      · rw [setNextCurrent]
        exact if_neg (not_or.mpr hready)
  | cons c suf ih =>
      intro k pre h
      by_cases hdel : k.processes.isDeleteProcess (k.procOf k.current)
      · obtain ⟨rfl, hwalk, hproc, hprocs⟩ := h.passDoomed
        obtain ⟨passed, rest, ps, k', rfl, hp, hrun⟩ := ih hwalk
        have hdoomed : ∀ a, k.passDoomed.Doomed a ↔ k.Doomed a := by
          intro a
          unfold Doomed
          rw [hproc, hprocs.isDeleteProcess_iff]
        have hc : k.Doomed k.current := hdel
        refine ⟨k.current :: passed, rest, k.procOf k.current :: ps, k', rfl,
          ⟨?_, ?_, hp.dispatchable, hp.procOf_eq.trans hproc, hprocs.trans hp.procs⟩, ?_⟩
        · have := hp.walking
          simp only [hdoomed] at this
          simpa [hc] using this
        · have := hp.destroyed
          simp only [hdoomed, hproc] at this
          simp [hc, this]
        · rintro (_ | fuel)
          · rfl
          · have hrun' := hrun fuel
            rw [setNextCurrent]
            simp only [hdel, or_true, if_true]
            unfold Kernel.passDoomed at hrun'
            rw [hrun']
            simp only [List.length_cons, Nat.add_lt_add_iff_right]
            split <;> rfl
      · by_cases hblk : k.processes.isBlockedProcess (k.procOf k.current)
        · obtain ⟨rfl, hwalk⟩ := h.passBlocked
          obtain ⟨passed, rest, ps, k', rfl, hp, hrun⟩ := ih hwalk
          have hc : ¬k.Doomed k.current := hdel
          have hdoomed : ∀ a, k.passBlocked.Doomed a ↔ k.Doomed a := fun _ => Iff.rfl
          refine ⟨k.current :: passed, rest, ps, k', rfl,
            ⟨?_, ?_, hp.dispatchable, hp.procOf_eq, hp.procs⟩, ?_⟩
          · have := hp.walking
            simp only [hdoomed] at this
            simpa [hc] using this
          · have := hp.destroyed
            simp only [hdoomed] at this
            simp [hc, this]
            exact fun _ _ _ => rfl
          · rintro (_ | fuel)
            · rfl
            · rw [setNextCurrent]
              simp only [hdel, hblk, or_false, if_true, if_false, List.length_cons,
                Nat.add_lt_add_iff_right]
              exact hrun fuel
        · have hready : k.Dispatchable k.current := ⟨hblk, hdel⟩
          refine ⟨[], c :: suf, [], k, rfl, ⟨by simpa using h, rfl, hready, rfl, .refl _⟩, ?_⟩
          rintro (_ | fuel)
          · rfl
          · rw [setNextCurrent]
            exact if_neg (not_or.mpr hready)

end Kernel

end TPE
