import TPE.Library.Runs
import TPE.Kernel.QueueADT
import TPE.Kernel.QueueHeap

/-!
# Runs of queues

Calls on any number of queues, in any order.  Each call is one step.  Between them other code
takes pages, gives its pages back and writes into them.

A run also keeps, for each queue, the elements that were enqueued and not yet dequeued, as a
list.  `Inv` connects these lists with the pages: the nodes of each queue spell its list, the
pages of the queues are distinct, and they are the ones that were handed out to queues and not
given back.

`Represents` connects the pages with the lists of nodes in the kernel's state, on which the other
modules read the queues.
-/

namespace TPE

open Function

namespace QueueHeap

/-- The headers and the nodes of the queues. -/
def pages (live : List Addr) (nodes : Addr → List Addr) : List Addr := live ++ live.flatMap nodes

variable {σ : Type*} {A : Allocator Addr σ} {Ok : σ → Set Addr → Prop} {s t : QueueHeap σ}
  {q p e : Addr} {live l c : List Addr} {nodes contents : Addr → List Addr} {others : Set Addr}

theorem mem_pages {a : Addr} :
    a ∈ pages live nodes ↔ a ∈ live ∨ ∃ q, q ∈ live ∧ a ∈ nodes q := by
  simp [pages]

/-- The pages of one queue come first. -/
theorem pages_perm (nodes : Addr → List Addr) (hq : q ∈ live) :
    (pages live nodes).Perm (nodes q ++ q :: pages (live.erase q) nodes) := by
  have hlive : live.Perm (q :: live.erase q) := List.perm_cons_erase hq
  have hnodes : (live.flatMap nodes).Perm (nodes q ++ (live.erase q).flatMap nodes) :=
    hlive.flatMap_right nodes
  have hswap : ((q :: live.erase q) ++ (nodes q ++ (live.erase q).flatMap nodes)).Perm
      (nodes q ++ ((q :: live.erase q) ++ (live.erase q).flatMap nodes)) := by
    rw [← List.append_assoc, ← List.append_assoc]
    exact List.perm_append_comm.append_right _
  exact (hlive.append hnodes).trans hswap

/-- The nodes of one queue are not among the pages of the others. -/
theorem pages_erase_update (hlive : live.Nodup) (nodes : Addr → List Addr) (q : Addr)
    (l : List Addr) : pages (live.erase q) (update nodes q l) = pages (live.erase q) nodes := by
  rw [pages, pages]
  congr 1
  refine List.flatMap_congr fun a ha => update_of_ne ?_ _ _
  exact ((hlive.mem_erase_iff).mp ha).1

/-- One queue has the nodes `l` instead. -/
theorem pages_update_perm (hlive : live.Nodup) (nodes : Addr → List Addr) (hq : q ∈ live)
    (l : List Addr) :
    (pages live (update nodes q l)).Perm (l ++ q :: pages (live.erase q) nodes) := by
  have hperm := pages_perm (update nodes q l) hq
  rwa [update_self, pages_erase_update hlive] at hperm

/-! ## All queues -/

/-- Every queue spells its elements, and no page is used twice. -/
structure Linked (s : QueueHeap σ) (live : List Addr) (nodes contents : Addr → List Addr) :
    Prop where
  spells : ∀ q, q ∈ live → s.Spells q (nodes q) (contents q)
  nodup : (pages live nodes).Nodup
  notNull : null ∉ pages live nodes

namespace Linked

theorem live_nodup (h : Linked s live nodes contents) : live.Nodup :=
  (List.nodup_append.mp h.nodup).1

theorem ne_null (h : Linked s live nodes contents) (hq : q ∈ live) : q ≠ null := by
  rintro rfl
  exact h.notNull (mem_pages.mpr (.inl hq))

theorem null_notMem (h : Linked s live nodes contents) (hq : q ∈ live) : null ∉ nodes q :=
  fun hm => h.notNull (mem_pages.mpr (.inr ⟨q, hq, hm⟩))

/-- The pages of one queue and those of the others. -/
theorem nodup_parts (h : Linked s live nodes contents) (hq : q ∈ live) :
    (nodes q ++ q :: pages (live.erase q) nodes).Nodup :=
  (pages_perm nodes hq).nodup_iff.mp h.nodup

theorem header_notMem (h : Linked s live nodes contents) (hq : q ∈ live) : q ∉ nodes q :=
  fun hm => (List.nodup_append.mp (h.nodup_parts hq)).2.2 q hm q List.mem_cons_self rfl

theorem header_notMem_others (h : Linked s live nodes contents) (hq : q ∈ live) :
    q ∉ pages (live.erase q) nodes :=
  (List.nodup_cons.mp (List.nodup_append.mp (h.nodup_parts hq)).2.1).1

theorem congr (h : Linked s live nodes contents)
    (hmem : ∀ a, a ∈ pages live nodes → t.mem a = s.mem a) : Linked t live nodes contents :=
  ⟨fun q hq => (h.spells q hq).congr (hmem q (mem_pages.mpr (.inl hq)))
    fun a ha => hmem a (mem_pages.mpr (.inr ⟨q, hq, ha⟩)), h.nodup, h.notNull⟩

/-- One queue gets other nodes, and the pages of the others are left alone. -/
theorem rebuild (h : Linked s live nodes contents) (hq : q ∈ live)
    (hframe : ∀ a, a ∈ pages (live.erase q) nodes → t.mem a = s.mem a) (hspells : t.Spells q l c)
    (hnodup : (l ++ q :: pages (live.erase q) nodes).Nodup) (hnull : null ∉ l) :
    Linked t live (update nodes q l) (update contents q c) := by
  have hperm := pages_update_perm h.live_nodup nodes hq l
  refine ⟨fun a ha => ?_, hperm.nodup_iff.mpr hnodup, fun hm => ?_⟩
  · by_cases haq : a = q
    · subst haq
      rw [update_self, update_self]
      exact hspells
    · have ha' : a ∈ live.erase q := (h.live_nodup.mem_erase_iff).mpr ⟨haq, ha⟩
      rw [update_of_ne haq, update_of_ne haq]
      exact (h.spells a ha).congr (hframe a (mem_pages.mpr (.inl ha')))
        fun b hb => hframe b (mem_pages.mpr (.inr ⟨a, ha', hb⟩))
  · rcases List.mem_append.mp (hperm.mem_iff.mp hm) with hm | hm
    · exact hnull hm
    · exact h.notNull ((pages_perm nodes hq).mem_iff.mpr (List.mem_append_right _ hm))

/-- A new queue. -/
theorem insert (h : Linked s live nodes contents) (hq : q ∉ pages live nodes) (hne : q ≠ null)
    (hframe : ∀ a, a ≠ q → t.mem a = s.mem a) (hspells : t.Spells q [] []) :
    Linked t (q :: live) (update nodes q []) (update contents q []) ∧
      pages (q :: live) (update nodes q []) = q :: pages live nodes := by
  have hlive : q ∉ live := fun hm => hq (mem_pages.mpr (.inl hm))
  have hpages : pages (q :: live) (update nodes q []) = q :: pages live nodes := by
    have hsame : live.flatMap (update nodes q []) = live.flatMap nodes := by
      refine List.flatMap_congr fun a ha => update_of_ne ?_ _ _
      rintro rfl
      exact hlive ha
    simp [pages, hsame]
  refine ⟨⟨fun a ha => ?_, ?_, ?_⟩, hpages⟩
  · rcases List.mem_cons.mp ha with rfl | ha'
    · rw [update_self, update_self]
      exact hspells
    · have haq : a ≠ q := fun he => hlive (he ▸ ha')
      rw [update_of_ne haq, update_of_ne haq]
      refine (h.spells a ha').congr (hframe a haq) fun b hb => hframe b ?_
      rintro rfl
      exact hq (mem_pages.mpr (.inr ⟨a, ha', hb⟩))
  · rw [hpages]
    exact List.nodup_cons.mpr ⟨hq, h.nodup⟩
  · rw [hpages, List.mem_cons, not_or]
    exact ⟨hne.symm, h.notNull⟩

/-- A page that nobody uses becomes the last node of a queue. -/
theorem addNode (h : Linked s live nodes contents) (hq : q ∈ live) (hp : p ∉ pages live nodes)
    (hne : p ≠ null) :
    Linked (s.addNode q p e) live (update nodes q (nodes q ++ [p]))
        (update contents q (contents q ++ [e])) ∧
      (pages live (update nodes q (nodes q ++ [p]))).Perm (p :: pages live nodes) := by
  have hspells := h.spells q hq
  have hnull := h.null_notMem hq
  have hold := pages_perm nodes hq
  have hparts : (p :: (nodes q ++ q :: pages (live.erase q) nodes)).Nodup :=
    List.nodup_cons.mpr ⟨fun hm => hp (hold.mem_iff.mpr hm), h.nodup_parts hq⟩
  have hmoved : (nodes q ++ [p] ++ q :: pages (live.erase q) nodes).Nodup := by
    rw [List.append_assoc, List.singleton_append]
    exact (List.perm_middle.nodup_iff).mpr hparts
  have hqp : q ≠ p := by
    rintro rfl
    exact hp (mem_pages.mpr (.inl hq))
  have hframe : ∀ a, a ∈ pages (live.erase q) nodes → (s.addNode q p e).mem a = s.mem a := by
    intro a ha
    have hused : a ∈ pages live nodes := hold.mem_iff.mpr
      (List.mem_append_right _ (List.mem_cons_of_mem _ ha))
    refine addNode_frame (fun he => ?_) (fun he => hp (he ▸ hused)) (fun he => ?_) hqp
    · exact h.header_notMem_others hq (he ▸ ha)
    · -- the last node is one of this queue, or there is none
      have hlast : a = (nodes q).getLast?.getD null := he.trans hspells.last
      cases hz : (nodes q).getLast? with
      | none =>
          rw [hz] at hlast
          exact h.notNull ((show a = null from hlast) ▸ hused)
      | some z =>
          rw [hz] at hlast
          exact (List.nodup_append.mp (h.nodup_parts hq)).2.2 z (List.mem_of_getLast? hz) a
            (List.mem_cons_of_mem _ ha) hlast.symm
  have hadd : (s.addNode q p e).Spells q (nodes q ++ [p]) (contents q ++ [e]) := by
    refine Spells.addNode hspells hnull ?_
    refine (hmoved.sublist ?_ : (nodes q ++ [p] ++ [q]).Nodup).perm ?_
    · exact (List.Sublist.refl _).append (List.singleton_sublist.mpr List.mem_cons_self)
    · rw [List.append_assoc]
      exact (List.Perm.swap q p []).append_left _
  constructor
  · refine h.rebuild hq hframe hadd hmoved ?_
    rw [List.mem_append, not_or, List.mem_singleton]
    exact ⟨hnull, hne.symm⟩
  · have hnew := pages_update_perm h.live_nodup nodes hq (nodes q ++ [p])
    rw [List.append_assoc, List.singleton_append] at hnew
    exact hnew.trans (List.perm_middle.trans (hold.symm.cons p))

/-- The first node of a queue is free again. -/
theorem removeNode (h : Linked s live nodes contents) (hq : q ∈ live) (hl : nodes q = p :: l) :
    Linked (s.removeNode q) live (update nodes q l) (update contents q (contents q).tail) ∧
      (pages live nodes).Perm (p :: pages live (update nodes q l)) := by
  have hspells := h.spells q hq
  have hnull := h.null_notMem hq
  have hparts := h.nodup_parts hq
  have hheader := h.header_notMem hq
  have hold := pages_perm nodes hq
  rw [hl] at hspells hnull hparts hheader hold
  obtain ⟨-, hnull'⟩ := not_or.mp (mt List.mem_cons.mpr hnull)
  obtain ⟨-, hq'⟩ := not_or.mp (mt List.mem_cons.mpr hheader)
  have hframe : ∀ a, a ∈ pages (live.erase q) nodes → (s.removeNode q).mem a = s.mem a :=
    fun a ha => removeNode_frame fun he => h.header_notMem_others hq (he ▸ ha)
  constructor
  · exact h.rebuild hq hframe (hspells.removeNode hnull' hq') (List.nodup_cons.mp hparts).2 hnull'
  · exact hold.trans ((pages_update_perm h.live_nodup nodes hq l).symm.cons p)

/-- A queue is given up. -/
theorem remove (h : Linked s live nodes contents) (hq : q ∈ live)
    (hframe : ∀ a, a ∈ pages (live.erase q) nodes → t.mem a = s.mem a) :
    Linked t (live.erase q) nodes contents := by
  have hsub : ∀ a, a ∈ pages (live.erase q) nodes → a ∈ pages live nodes := fun a ha =>
    (pages_perm nodes hq).mem_iff.mpr (List.mem_append_right _ (List.mem_cons_of_mem _ ha))
  refine ⟨fun a ha => ?_, ?_, fun hm => h.notNull (hsub _ hm)⟩
  · exact (h.spells a (List.mem_of_mem_erase ha)).congr (hframe a (mem_pages.mpr (.inl ha)))
      fun b hb => hframe b (mem_pages.mpr (.inr ⟨a, ha, hb⟩))
  · exact (List.nodup_cons.mp (List.nodup_append.mp (h.nodup_parts hq)).2.1).2

end Linked

/-! ## The allocator -/

/-- The queues are linked, and their pages are the ones that were handed out to them and not
given back.  The pages of `others` are in use elsewhere. -/
structure Inv (Ok : σ → Set Addr → Prop) (s : QueueHeap σ) (live : List Addr)
    (nodes contents : Addr → List Addr) (others : Set Addr) : Prop where
  linked : Linked s live nodes contents
  ledger : s.taken.Perm (s.given ++ pages live nodes)
  ok : Ok s.alloc {a | a ∈ pages live nodes ∨ a ∈ others}
  apart : ∀ a, a ∈ others → a ∉ pages live nodes

namespace Inv

variable {live' : List Addr} {nodes' contents' : Addr → List Addr} {alloc : σ}

/-- One more page is in use. -/
theorem grow (h : Inv Ok s live nodes contents others)
    (hlinked : Linked t live' nodes' contents')
    (hpages : (pages live' nodes').Perm (p :: pages live nodes))
    (htaken : t.taken = s.taken ++ [p]) (hgiven : t.given = s.given)
    (hok : Ok t.alloc (insert p {a | a ∈ pages live nodes ∨ a ∈ others})) (hp : p ∉ others) :
    Inv Ok t live' nodes' contents' others := by
  have hmem : ∀ a, a ∈ pages live' nodes' ↔ a = p ∨ a ∈ pages live nodes := fun a =>
    hpages.mem_iff.trans List.mem_cons
  refine ⟨hlinked, ?_, ?_, fun a ha hm => ?_⟩
  · rw [htaken, hgiven]
    have hold := h.ledger.append_right [p]
    rw [List.append_assoc] at hold
    exact hold.trans ((List.perm_append_comm.trans hpages.symm).append_left _)
  · have hused : insert p {a | a ∈ pages live nodes ∨ a ∈ others} =
        {a | a ∈ pages live' nodes' ∨ a ∈ others} := by
      ext a
      rw [Set.mem_insert_iff]
      exact or_assoc.symm.trans (or_congr_left (hmem a).symm)
    rwa [hused] at hok
  · rcases (hmem a).mp hm with rfl | hm
    · exact hp ha
    · exact h.apart a ha hm

/-- The pages of `l` are given back. -/
theorem shrink (hA : A.Sound null Ok) (h : Inv Ok s live nodes contents others)
    (hlinked : Linked t live' nodes' contents')
    (hpages : (pages live nodes).Perm (l ++ pages live' nodes'))
    (htaken : t.taken = s.taken) (hgiven : t.given = s.given ++ l)
    (halloc : t.alloc = l.foldl A.give s.alloc) : Inv Ok t live' nodes' contents' others := by
  have hmem : ∀ a, a ∈ pages live nodes ↔ a ∈ l ∨ a ∈ pages live' nodes' := fun a =>
    hpages.mem_iff.trans List.mem_append
  obtain ⟨hl, -, hdisjoint⟩ := List.nodup_append.mp (hpages.nodup_iff.mp h.linked.nodup)
  refine ⟨hlinked, ?_, ?_, fun a ha hm => h.apart a ha ((hmem a).mpr (.inr hm))⟩
  · rw [htaken, hgiven, List.append_assoc]
    exact h.ledger.trans (hpages.append_left _)
  · have hused : {b ∈ {a | a ∈ pages live nodes ∨ a ∈ others} | b ∉ l} =
        {a | a ∈ pages live' nodes' ∨ a ∈ others} := by
      ext a
      constructor
      · rintro ⟨hpage | hother, hnot⟩
        · exact .inl (((hmem a).mp hpage).resolve_left hnot)
        · exact .inr hother
      · rintro (hkept | hother)
        · exact ⟨.inl ((hmem a).mpr (.inr hkept)), fun hal => hdisjoint a hal a hkept rfl⟩
        · exact ⟨.inr hother, fun hal => h.apart a hother ((hmem a).mpr (.inl hal))⟩
    rw [halloc, ← hused]
    exact hA.giveAll h.ok (fun a ha => .inl ((hmem a).mpr (.inl ha))) hl

/-- `create_queue` -/
theorem create (hA : A.Sound null Ok) (h : Inv Ok s live nodes contents others)
    (hrun : s.createQueue A = some (q, t)) :
    A.take s.alloc = some (q, t.alloc) ∧
      Inv Ok t (q :: live) (update nodes q []) (update contents q []) others := by
  obtain ⟨⟨page, s'⟩, hget, he⟩ := Option.map_eq_some_iff.mp hrun
  obtain ⟨alloc, htake, rfl⟩ := getPage_eq_some hget
  obtain ⟨hne, hfresh, hok⟩ := hA.take h.ok htake
  obtain ⟨hpage, hother⟩ := not_or.mp hfresh
  simp only [if_neg hne, Prod.mk.injEq] at he
  obtain ⟨rfl, rfl⟩ := he
  refine ⟨htake, ?_⟩
  have hspells := spells_create { s with alloc, taken := s.taken ++ [page] } page
  obtain ⟨hlinked, hpages⟩ := h.linked.insert hpage hne
    (fun a ha => by simp [setFirst, setLast, ha]) hspells
  exact h.grow hlinked (hpages ▸ List.Perm.refl _) rfl rfl hok hother

/-- `enqueue` -/
theorem enqueue (hA : A.Sound null Ok) (h : Inv Ok s live nodes contents others) (hq : q ∈ live)
    (hrun : s.enqueue A q e = some t) :
    ∃ p, A.take s.alloc = some (p, t.alloc) ∧
      Inv Ok t live (update nodes q (nodes q ++ [p])) (update contents q (contents q ++ [e]))
        others := by
  rw [QueueHeap.enqueue, if_neg (h.linked.ne_null hq)] at hrun
  obtain ⟨⟨page, s'⟩, hget, rfl⟩ := Option.map_eq_some_iff.mp hrun
  obtain ⟨alloc, htake, rfl⟩ := getPage_eq_some hget
  obtain ⟨hne, hfresh, hok⟩ := hA.take h.ok htake
  obtain ⟨hpage, hother⟩ := not_or.mp hfresh
  have hkept : Linked ({ s with alloc, taken := s.taken ++ [page] } : QueueHeap σ) live nodes
      contents := h.linked.congr fun _ _ => rfl
  obtain ⟨hlinked, hpages⟩ := hkept.addNode (e := e) hq hpage hne
  exact ⟨page, by simpa using htake,
    h.grow hlinked hpages (by simp) (by simp) (by simpa using hok) hother⟩

/-- `dequeue` -/
theorem dequeue (hA : A.Sound null Ok) (h : Inv Ok s live nodes contents others) (hq : q ∈ live) :
    Inv Ok (s.dequeue A q).2 live (update nodes q (nodes q).tail)
      (update contents q (contents q).tail) others := by
  have hspells := h.linked.spells q hq
  have hnull := h.linked.null_notMem hq
  have hne := h.linked.ne_null hq
  cases hl : nodes q with
  | nil =>
      have hc : contents q = [] := by
        rw [← hspells.elems, hl]
        rfl
      have hsame : (s.dequeue A q).2 = s := by
        rw [QueueHeap.dequeue, if_pos ((hspells.isEmpty_iff hne hnull).mpr hc)]
      have hnodes : update nodes q [] = nodes := hl ▸ update_eq_self q nodes
      have hcontents : update contents q [] = contents := hc ▸ update_eq_self q contents
      rw [hsame, hc, List.tail_nil, hnodes, hcontents]
      exact h
  | cons p l =>
      obtain ⟨hlinked, hpages⟩ := h.linked.removeNode hq hl
      have hkept : Linked ((s.removeNode q).storePage A p) live (update nodes q l)
          (update contents q (contents q).tail) := hlinked.congr fun _ _ => rfl
      rw [hl] at hspells hnull
      rw [hspells.dequeue hne hnull, List.tail_cons]
      exact h.shrink (l := [p]) hA hkept hpages (by simp [storePage]) (by simp [storePage])
        (by simp [storePage])

/-- `destroy_queue` gives back the nodes and the header. -/
theorem destroy {fuel : Nat} (hA : A.Sound null Ok) (h : Inv Ok s live nodes contents others)
    (hq : q ∈ live) (hfuel : (contents q).length < fuel) :
    ∃ t, destroyQueue A fuel s q = some t ∧ t.taken = s.taken ∧
      t.given = s.given ++ (nodes q ++ [q]) ∧ Inv Ok t (live.erase q) nodes contents others := by
  have hspells := h.linked.spells q hq
  rw [← hspells.elems, List.length_map] at hfuel
  obtain ⟨t, hrun, htaken, hgiven, halloc, -, hframe⟩ := hspells.emptyQueue (A := A)
    (h.linked.ne_null hq) (h.linked.null_notMem hq) (h.linked.header_notMem hq) hfuel
  have hgiven' : (t.storePage A q).given = s.given ++ (nodes q ++ [q]) := by
    rw [storePage, hgiven, List.append_assoc]
  have halloc' : (t.storePage A q).alloc = (nodes q ++ [q]).foldl A.give s.alloc := by
    rw [storePage, halloc, List.foldl_append]
    rfl
  have hlinked : Linked (t.storePage A q) (live.erase q) nodes contents := by
    refine h.linked.remove hq fun a ha => hframe a fun he => ?_
    exact h.linked.header_notMem_others hq (he ▸ ha)
  refine ⟨t.storePage A q, by rw [destroyQueue, hrun]; rfl, htaken, hgiven', ?_⟩
  refine h.shrink hA hlinked ?_ htaken hgiven' halloc'
  rw [List.append_assoc]
  exact pages_perm nodes hq

/-- Other code gets a page. -/
theorem othersTake (hA : A.Sound null Ok) (h : Inv Ok s live nodes contents others)
    (htake : A.take s.alloc = some (p, alloc)) :
    p ∉ others ∧ Inv Ok { s with alloc } live nodes contents (insert p others) := by
  obtain ⟨-, hfresh, hok⟩ := hA.take h.ok htake
  obtain ⟨hpage, hother⟩ := not_or.mp hfresh
  refine ⟨hother, h.linked.congr fun _ _ => rfl, h.ledger, ?_, fun a ha => ?_⟩
  · have hused : insert p {a | a ∈ pages live nodes ∨ a ∈ others} =
        {a | a ∈ pages live nodes ∨ a ∈ insert p others} := by
      ext a
      exact or_left_comm
    rwa [hused] at hok
  · rcases ha with rfl | ha
    · exact hpage
    · exact h.apart a ha

/-- Other code gives a page back. -/
theorem othersGive (hA : A.Sound null Ok) (h : Inv Ok s live nodes contents others)
    (hp : p ∈ others) :
    Inv Ok { s with alloc := A.give s.alloc p } live nodes contents {a ∈ others | a ≠ p} := by
  refine ⟨h.linked.congr fun _ _ => rfl, h.ledger, ?_, fun a ha => h.apart a ha.1⟩
  have hok := hA.give h.ok (.inr hp)
  have hused : {b ∈ {a | a ∈ pages live nodes ∨ a ∈ others} | b ≠ p} =
      {a | a ∈ pages live nodes ∨ a ∈ {a ∈ others | a ≠ p}} := by
    ext a
    constructor
    · rintro ⟨hpage | hother, hne⟩
      · exact .inl hpage
      · exact .inr ⟨hother, hne⟩
    · rintro (hpage | ⟨hother, hne⟩)
      · exact ⟨.inl hpage, fun he => h.apart p hp (he ▸ hpage)⟩
      · exact ⟨.inr hother, hne⟩
  rwa [hused] at hok

/-- Other code writes into one of its pages. -/
theorem othersWrite (h : Inv Ok s live nodes contents others) (hp : p ∈ others)
    (words : PageWords) :
    Inv Ok { s with mem := update s.mem p words } live nodes contents others := by
  refine ⟨h.linked.congr fun a ha => update_of_ne ?_ _ _, h.ledger, h.ok, h.apart⟩
  rintro rfl
  exact h.apart a hp ha

end Inv

end QueueHeap

/-! ## Runs -/

open QueueHeap

/-- The pages, and what was done to them. -/
structure QueueRun (σ : Type*) where
  s : QueueHeap σ
  /-- The queues that were created and not destroyed. -/
  live : List Addr
  /-- What was enqueued and not dequeued. -/
  contents : Addr → List Addr
  /-- The pages that other code has. -/
  others : List Addr

inductive QueueCall where
  | create
  | enqueue (q elem : Addr)
  | dequeue (q : Addr)
  | peek (q : Addr)
  | isEmpty (q : Addr)
  | destroy (q : Addr)
  | othersTake
  | othersGive (page : Addr)
  | othersWrite (page : Addr) (words : PageWords)
deriving DecidableEq, Repr

namespace QueueRun

variable {σ : Type*}

/-- One call.  A call that gets no page has no result. -/
def step (A : Allocator Addr σ) (r : QueueRun σ) : QueueCall → Option (QueueRun σ)
  | .create =>
      (r.s.createQueue A).map fun (q, s) =>
        { r with s, live := q :: r.live, contents := update r.contents q [] }
  | .enqueue q elem =>
      if q ∈ r.live then
        (r.s.enqueue A q elem).map fun s =>
          { r with s, contents := update r.contents q (r.contents q ++ [elem]) }
      else none
  | .dequeue q =>
      if q ∈ r.live then
        some { r with
          s := (r.s.dequeue A q).2
          contents := update r.contents q (r.contents q).tail }
      else none
  | .peek q => if q ∈ r.live then some r else none
  | .isEmpty q => if q ∈ r.live then some r else none
  | .destroy q =>
      if q ∈ r.live then
        (r.s.destroyQueue A ((r.contents q).length + 1) q).map fun s =>
          { r with s, live := r.live.erase q }
      else none
  | .othersTake =>
      (A.take r.s.alloc).map fun (page, alloc) =>
        { r with s := { r.s with alloc }, others := page :: r.others }
  | .othersGive page =>
      if page ∈ r.others then
        some { r with
          s := { r.s with alloc := A.give r.s.alloc page }
          others := r.others.erase page }
      else none
  | .othersWrite page words =>
      if page ∈ r.others then
        some { r with s := { r.s with mem := update r.s.mem page words } }
      else none

/-- What is kept, for the nodes `nodes` of the queues. -/
structure Kept (Ok : σ → Set Addr → Prop) (r : QueueRun σ) (nodes : Addr → List Addr) : Prop where
  inv : Inv Ok r.s r.live nodes r.contents {a | a ∈ r.others}
  others : r.others.Nodup

end QueueRun

/-- Runs from the first call on.  Other code may have pages already. -/
def queueSystem {σ : Type*} (A : Allocator Addr σ) (Ok : σ → Set Addr → Prop) :
    System (QueueRun σ) QueueCall where
  init r := r.live = [] ∧ r.s.taken = [] ∧ r.s.given = [] ∧ r.others.Nodup ∧
    Ok r.s.alloc {a | a ∈ r.others}
  next := QueueRun.step A

namespace QueueRun

variable {σ : Type*} {A : Allocator Addr σ} {Ok : σ → Set Addr → Prop} {r r' : QueueRun σ}
  {nodes : Addr → List Addr}

theorem kept_init (h : (queueSystem A Ok).init r) : r.Kept Ok fun _ => [] := by
  obtain ⟨hlive, htaken, hgiven, hothers, hok⟩ := h
  refine ⟨⟨⟨?_, ?_, ?_⟩, ?_, ?_, ?_⟩, hothers⟩
  · simp [hlive]
  · simp [hlive, pages]
  · simp [hlive, pages]
  · simp [hlive, htaken, hgiven, pages]
  · simpa [hlive, pages] using hok
  · simp [hlive, pages]

/-- Every call keeps the nodes in order. -/
theorem Kept.step (hA : A.Sound null Ok) (h : r.Kept Ok nodes) {call : QueueCall}
    (hrun : r.step A call = some r') : ∃ nodes', r'.Kept Ok nodes' := by
  obtain ⟨hinv, hothers⟩ := h
  cases call with
  | create =>
      obtain ⟨⟨q, s⟩, hcreate, rfl⟩ := Option.map_eq_some_iff.mp hrun
      exact ⟨_, (hinv.create hA hcreate).2, hothers⟩
  | enqueue q elem =>
      obtain ⟨hq, hrun⟩ := Option.ite_none_right_eq_some.mp hrun
      obtain ⟨s, henqueue, rfl⟩ := Option.map_eq_some_iff.mp hrun
      obtain ⟨p, -, hinv'⟩ := hinv.enqueue hA hq henqueue
      exact ⟨_, hinv', hothers⟩
  | dequeue q =>
      obtain ⟨hq, hrun⟩ := Option.ite_none_right_eq_some.mp hrun
      cases hrun
      exact ⟨_, hinv.dequeue hA hq, hothers⟩
  | peek q =>
      obtain ⟨-, hrun⟩ := Option.ite_none_right_eq_some.mp hrun
      cases hrun
      exact ⟨_, hinv, hothers⟩
  | isEmpty q =>
      obtain ⟨-, hrun⟩ := Option.ite_none_right_eq_some.mp hrun
      cases hrun
      exact ⟨_, hinv, hothers⟩
  | destroy q =>
      obtain ⟨hq, hrun⟩ := Option.ite_none_right_eq_some.mp hrun
      obtain ⟨s, hdestroy, rfl⟩ := Option.map_eq_some_iff.mp hrun
      obtain ⟨s', hdestroy', -, -, hinv'⟩ := hinv.destroy hA hq (Nat.lt_succ_self _)
      rw [hdestroy, Option.some.injEq] at hdestroy'
      exact ⟨_, hdestroy' ▸ hinv', hothers⟩
  | othersTake =>
      obtain ⟨⟨page, alloc⟩, htake, rfl⟩ := Option.map_eq_some_iff.mp hrun
      obtain ⟨hfresh, hinv'⟩ := hinv.othersTake hA htake
      have hset : insert page {a | a ∈ r.others} = {a | a ∈ page :: r.others} := by
        ext a
        exact List.mem_cons.symm
      rw [hset] at hinv'
      exact ⟨_, hinv', List.nodup_cons.mpr ⟨hfresh, hothers⟩⟩
  | othersGive page =>
      obtain ⟨hpage, hrun⟩ := Option.ite_none_right_eq_some.mp hrun
      cases hrun
      have hset : {a ∈ {a | a ∈ r.others} | a ≠ page} = {a | a ∈ r.others.erase page} := by
        ext a
        exact and_comm.trans (hothers.mem_erase_iff).symm
      have hinv' := hinv.othersGive hA hpage
      rw [hset] at hinv'
      exact ⟨_, hinv', hothers.erase page⟩
  | othersWrite page words =>
      obtain ⟨hpage, hrun⟩ := Option.ite_none_right_eq_some.mp hrun
      cases hrun
      exact ⟨_, hinv.othersWrite hpage words, hothers⟩

theorem kept_of_reach (hA : A.Sound null Ok) (h : (queueSystem A Ok).Reach r) :
    ∃ nodes, r.Kept Ok nodes := by
  refine System.ReachBy.invariant (I := fun r => ∃ nodes, r.Kept Ok nodes) ?_ ?_ h
  · intro r hinit
    exact ⟨_, kept_init hinit⟩
  · rintro r call r' ⟨nodes, hkept⟩ - hnext
    exact hkept.step hA hnext

/-- With an allocator that hands out no page in use, the nodes from `first` to `last` of every
queue spell what was enqueued and not dequeued, in order, and the calls answer for the oldest
element.  The pages of all queues are distinct, and they are the ones that queues got and did
not give back.  `destroy_queue` gives back the pages of its queue and no others. -/
theorem queues_spell (hA : A.Sound null Ok) (h : (queueSystem A Ok).Reach r) :
    ∃ nodes : Addr → List Addr,
      (∀ q, q ∈ r.live →
        Walk r.s.next (r.s.first q) (nodes q) null ∧
        (nodes q).map r.s.elem = r.contents q ∧
        r.s.last q = (nodes q).getLast?.getD null ∧
        (r.s.first q = null ↔ r.s.last q = null) ∧
        (r.s.isEmpty q ↔ r.contents q = []) ∧
        r.s.peek q = (r.contents q).head?.getD null ∧
        (r.s.dequeue A q).1 = (r.contents q).head?.getD null ∧
        ∀ fuel, (r.contents q).length < fuel → ∃ s, destroyQueue A fuel r.s q = some s ∧
          s.taken = r.s.taken ∧ s.given = r.s.given ++ (nodes q ++ [q])) ∧
      (pages r.live nodes).Nodup ∧ null ∉ pages r.live nodes ∧
      r.s.taken.Perm (r.s.given ++ pages r.live nodes) := by
  obtain ⟨nodes, hinv, -⟩ := kept_of_reach hA h
  refine ⟨nodes, fun q hq => ?_, hinv.linked.nodup, hinv.linked.notNull, hinv.ledger⟩
  have hspells := hinv.linked.spells q hq
  have hnull := hinv.linked.null_notMem hq
  have hne := hinv.linked.ne_null hq
  refine ⟨hspells.walk, hspells.elems, hspells.last, ?_, hspells.isEmpty_iff hne hnull,
    hspells.peek hne hnull, hspells.dequeue_fst hne hnull, fun fuel hfuel => ?_⟩
  · rw [hspells.first_eq_null_iff hnull, hspells.last_eq_null_iff hnull]
  · obtain ⟨s, hrun, htaken, hgiven, -⟩ := hinv.destroy hA hq hfuel
    exact ⟨s, hrun, htaken, hgiven⟩

end QueueRun

/-! ## The allocator of the kernel -/

/-- `get_page` and `store_page` -/
def pageAllocator : Allocator Addr PageStack := ⟨PageStack.getPage, PageStack.storePage⟩

theorem pageAllocator_sound : pageAllocator.Sound null PageStack.PagesOk where
  take hok htake := by
    obtain ⟨hfresh, hpage, hok'⟩ := hok.getPage htake
    exact ⟨hpage.ne_null, hfresh, hok'⟩
  give hok ha := hok.storePage ha

namespace QueueRun

/-- Before the first call. -/
def start : QueueRun PageStack where
  s := ⟨fun _ => ⟨0, 0⟩, PageStack.initializeMemoryAllocator ⟨fun _ => 0, 0⟩, [], []⟩
  live := []
  contents := fun _ => []
  others := []

theorem start_init : (queueSystem pageAllocator PageStack.PagesOk).init start := by
  refine ⟨rfl, rfl, rfl, List.nodup_nil, PageStack.initial_pagesOk.mono ?_⟩
  intro a ha
  exact absurd ha List.not_mem_nil

/-- Two queues, the second one with the page of a node that the first one gave back. -/
def recycled : List QueueCall :=
  [.create, .enqueue 0x501000 7, .enqueue 0x501000 8, .dequeue 0x501000, .create,
    .enqueue 0x502000 9]

theorem queues_spell_recycled : ∃ r : QueueRun PageStack, ∃ nodes : Addr → List Addr,
    r.live = [0x502000, 0x501000] ∧ r.contents 0x501000 = [8] ∧ r.contents 0x502000 = [9] ∧
      (nodes 0x501000).map r.s.elem = [8] ∧ (nodes 0x502000).map r.s.elem = [9] ∧
      (pages r.live nodes).Nodup := by
  obtain ⟨r, hreach, hr⟩ := System.exists_reach_of_execute start_init recycled
    (fun r => decide (r.live = [0x502000, 0x501000] ∧ r.contents 0x501000 = [8] ∧
      r.contents 0x502000 = [9])) (by decide +kernel)
  obtain ⟨hlive, hfirst, hsecond⟩ := of_decide_eq_true hr
  obtain ⟨nodes, hqueues, hnodup, -⟩ := queues_spell pageAllocator_sound hreach
  refine ⟨r, nodes, hlive, hfirst, hsecond, ?_, ?_, hnodup⟩
  · rw [(hqueues 0x501000 (by rw [hlive]; decide)).2.1, hfirst]
  · rw [(hqueues 0x502000 (by rw [hlive]; decide)).2.1, hsecond]

end QueueRun

/-! ## The queues of the kernel's state -/

/-- The lists of nodes in the kernel's state are the nodes on the pages. -/
structure Represents (s : QueueHeap PageStack) (k : Kernel) (live : List Addr)
    (others : Set Addr) : Prop where
  alloc : s.alloc = k.pages
  inv : Inv PageStack.PagesOk s live (fun q => (k.queues q).map QueueNode.page)
    (fun q => (k.queues q).map QueueNode.elem) others

namespace Represents

variable {s t : QueueHeap PageStack} {k k' : Kernel} {live : List Addr} {others : Set Addr}
  {q e : Addr}

/-- One queue gets other nodes. -/
theorem of_update {l : List QueueNode} (halloc : t.alloc = k'.pages)
    (hqueues : k'.queues = update k.queues q l)
    (hinv : Inv PageStack.PagesOk t live
      (update (fun q => (k.queues q).map QueueNode.page) q (l.map QueueNode.page))
      (update (fun q => (k.queues q).map QueueNode.elem) q (l.map QueueNode.elem)) others) :
    Represents t k' live others := by
  have hmap : ∀ f : List QueueNode → List Addr,
      (fun a => f (k'.queues a)) = update (fun a => f (k.queues a)) q (f l) := by
    intro f
    funext a
    rw [hqueues]
    exact apply_update (fun _ => f) k.queues q l a
  refine ⟨halloc, ?_⟩
  rw [hmap (List.map QueueNode.page), hmap (List.map QueueNode.elem)]
  exact hinv

theorem createQueue (h : Represents s k live others) (hrun : k.createQueue = some (q, k')) :
    ∃ t, s.createQueue pageAllocator = some (q, t) ∧ Represents t k' (q :: live) others := by
  obtain ⟨pages, hget, rfl⟩ := Kernel.createQueue_spec hrun
  have htake : pageAllocator.take s.alloc = some (q, pages) := by rw [h.alloc]; exact hget
  obtain ⟨t, hcreate⟩ : ∃ t, s.createQueue pageAllocator = some (q, t) := by
    rw [QueueHeap.createQueue, QueueHeap.getPage, htake]
    exact ⟨_, rfl⟩
  obtain ⟨htake', hinv⟩ := h.inv.create pageAllocator_sound hcreate
  rw [htake, Option.some.injEq, Prod.mk.injEq] at htake'
  exact ⟨t, hcreate, of_update htake'.2.symm rfl hinv⟩

theorem enqueue (h : Represents s k live others) (hq : q ∈ live)
    (hrun : k.enqueue q e = some k') :
    ∃ t, s.enqueue pageAllocator q e = some t ∧ Represents t k' live others := by
  have hne := h.inv.linked.ne_null hq
  obtain ⟨page, pages, hget, rfl⟩ := Kernel.enqueue_spec hne hrun
  have htake : pageAllocator.take s.alloc = some (page, pages) := by rw [h.alloc]; exact hget
  obtain ⟨t, henqueue⟩ : ∃ t, s.enqueue pageAllocator q e = some t := by
    rw [QueueHeap.enqueue, if_neg hne, QueueHeap.getPage, htake]
    exact ⟨_, rfl⟩
  obtain ⟨p, htake', hinv⟩ := h.inv.enqueue pageAllocator_sound hq henqueue
  rw [htake, Option.some.injEq, Prod.mk.injEq] at htake'
  obtain ⟨rfl, halloc⟩ := htake'
  refine ⟨t, henqueue, of_update halloc.symm rfl ?_⟩
  rw [List.map_append, List.map_append]
  exact hinv

/-- An empty queue is empty in both. -/
theorem isEmpty_iff (h : Represents s k live others) (hq : q ∈ live) :
    s.isEmpty q ↔ k.isEmpty q := by
  have hne := h.inv.linked.ne_null hq
  rw [(h.inv.linked.spells q hq).isEmpty_iff hne (h.inv.linked.null_notMem hq), Kernel.isEmpty,
    or_iff_right hne, List.map_eq_nil_iff]

theorem peek (h : Represents s k live others) (hq : q ∈ live) : s.peek q = k.peek q := by
  have hempty := h.isEmpty_iff hq
  have hspells := h.inv.linked.spells q hq
  rw [hspells.peek (h.inv.linked.ne_null hq) (h.inv.linked.null_notMem hq), Kernel.peek,
    List.head?_map]
  split
  next hyes =>
    rw [hyes.resolve_left (h.inv.linked.ne_null hq)]
    rfl
  next => rfl

theorem dequeue (h : Represents s k live others) (hq : q ∈ live)
    (hrun : k.dequeue q = some (e, k')) :
    (s.dequeue pageAllocator q).1 = e ∧
      Represents (s.dequeue pageAllocator q).2 k' live others := by
  have hne := h.inv.linked.ne_null hq
  have hnull := h.inv.linked.null_notMem hq
  have hspells := h.inv.linked.spells q hq
  have hinv := h.inv.dequeue pageAllocator_sound hq
  cases hf : k.queues q with
  | nil =>
      rw [Kernel.dequeue_nil hf, Option.some.injEq, Prod.mk.injEq] at hrun
      obtain ⟨rfl, rfl⟩ := hrun
      have hempty := (h.isEmpty_iff hq).mpr (.inr hf)
      rw [QueueHeap.dequeue, if_pos hempty]
      exact ⟨rfl, h⟩
  | cons f rest =>
      obtain ⟨rfl, rfl⟩ := Kernel.dequeue_cons hne hf hrun
      simp only [hf, List.map_cons] at hspells hnull
      simp only [hf, List.map_cons, List.tail_cons] at hinv
      have hfst := hspells.dequeue_fst (A := pageAllocator) hne hnull
      refine ⟨hfst, of_update ?_ rfl hinv⟩
      rw [hspells.dequeue hne hnull, storePage, removeNode_alloc, h.alloc]
      rfl

theorem emptyQueue {fuel : Nat} (h : Represents s k live others) (hq : q ∈ live)
    (hrun : k.emptyQueue fuel q = some k') :
    ∃ t, QueueHeap.emptyQueue pageAllocator fuel s q = some t ∧ Represents t k' live others ∧
      k'.isEmpty q := by
  induction fuel generalizing s k with
  | zero => cases hrun
  | succ fuel ih =>
      rw [Kernel.emptyQueue] at hrun
      rw [QueueHeap.emptyQueue]
      split at hrun
      next hempty =>
        cases hrun
        exact ⟨s, if_pos ((h.isEmpty_iff hq).mpr hempty), h, hempty⟩
      next hempty =>
        obtain ⟨⟨e, k₁⟩, hdequeue, hrun⟩ := Option.bind_eq_some_iff.mp hrun
        rw [if_neg (mt (h.isEmpty_iff hq).mp hempty)]
        exact ih (h.dequeue hq hdequeue).2 hrun

theorem destroyQueue (h : Represents s k live others) (hq : q ∈ live)
    (hrun : k.destroyQueue q = some k') :
    ∃ fuel t, QueueHeap.destroyQueue pageAllocator fuel s q = some t ∧
      Represents t k' (live.erase q) others := by
  obtain ⟨k₁, hloop, hrun⟩ := Option.bind_eq_some_iff.mp hrun
  obtain ⟨t, ht, hrep, hempty⟩ := h.emptyQueue hq hloop
  obtain ⟨-, hrun⟩ := Option.ite_none_right_eq_some.mp hrun
  cases hrun
  refine ⟨_, t.storePage pageAllocator q, by rw [QueueHeap.destroyQueue, ht]; rfl, ?_, ?_⟩
  · rw [storePage, hrep.alloc]
    rfl
  · have hnil : k₁.queues q = [] := hempty.resolve_left (h.inv.linked.ne_null hq)
    have hlength : ((k₁.queues q).map QueueNode.elem).length < 1 := by
      rw [hnil]
      exact Nat.one_pos
    obtain ⟨t', ht', -, -, hinv⟩ := hrep.inv.destroy pageAllocator_sound hq hlength
    rw [QueueHeap.destroyQueue, QueueHeap.emptyQueue, if_pos ((hrep.isEmpty_iff hq).mpr hempty),
      Option.map_some, Option.some.injEq] at ht'
    rw [ht']
    exact hinv

end Represents

end TPE
