import Mathlib.Data.List.Perm.Subperm
import TPE.Kernel.DataPages

/-!
# Who owns a page

Any number of processes take and give back data pages, are created and end,
while the rest of the kernel takes and gives back pages of its own.

Every page that is handed out has one owner.  `sys_free` pushes the page of any
address onto the stack of free pages, whoever owns it, so ownership is kept
only by processes that give back what they own.
-/

namespace TPE

open Function

namespace PageStack

variable {ω : Type*} {own : Addr → Option ω} {s s' : PageStack} {a : Addr}

/-- A change at one page keeps the owners of the pages of other owners. -/
theorem update_owner {x : Addr} {w : Option ω} (h : own a ≠ own x) : update own a w x = own x := by
  rw [update_of_ne]
  rintro rfl
  exact h rfl

/-- A page without an owner gets one, and the other pages keep theirs. -/
theorem update_owner_fresh {x : Addr} {v : Option ω} {w : ω} (ha : own a = none)
    (hx : own x = some w) : update own a v x = some w := by
  rw [update_owner (by rw [ha, hx]; simp), hx]

/-- A page changes its owner, and the pages of the other owners keep theirs. -/
theorem update_owner_other {x : Addr} {v : Option ω} {u w : ω} (ha : own a = some u)
    (hx : own x = some w) (huw : u ≠ w) : update own a v x = some w := by
  rw [update_owner (by rw [ha, hx]; exact fun he => huw (Option.some.inj he)), hx]

/-- An owner that nobody became by a change was the owner before. -/
theorem owner_of_update {x : Addr} {v w : Option ω} (h : update own a v x = w) (hw : w ≠ v) :
    own x = w ∧ x ≠ a := by
  by_cases hxa : x = a
  · rw [hxa, update_self] at h
    exact absurd h.symm hw
  · rw [update_of_ne hxa] at h
    exact ⟨h, hxa⟩

/-- The pages that have an owner are handed out, and all pages are data pages. -/
structure OwnedBy (s : PageStack) (own : Addr → Option ω) : Prop where
  pages : s.PagesOk {a | own a ≠ none}
  owned : ∀ a, own a ≠ none → a ∈ dataPages
  free : ∀ a ∈ s.free, a ∈ dataPages

namespace OwnedBy

theorem notFree (h : s.OwnedBy own) (ha : own a ≠ none) : a ∉ s.free := by
  exact h.pages.notFree a ha

theorem ne_null (h : s.OwnedBy own) (ha : own a ≠ none) : a ≠ null := by
  exact (h.pages.isPage a ha).ne_null

/-- A page that is handed out had no owner and may get any. -/
theorem getPage (h : s.OwnedBy own) (hget : s.getPage = some (a, s')) (w : ω) :
    own a = none ∧ s'.OwnedBy (update own a (some w)) := by
  obtain ⟨hfresh, -, hpages⟩ := h.pages.getPage hget
  have hfree := free_of_getPage hget
  have hdata : a ∈ dataPages := h.free a (hfree ▸ List.mem_cons_self)
  refine ⟨by simpa using hfresh, ?_, ?_, ?_⟩
  · refine hpages.mono ?_
    intro b hb
    by_cases hba : b = a
    · exact Or.inl hba
    · rw [Set.mem_ofPred_eq, update_of_ne hba] at hb
      exact Or.inr hb
  · intro b hb
    by_cases hba : b = a
    · exact hba ▸ hdata
    · rw [update_of_ne hba] at hb
      exact h.owned b hb
  · intro b hb
    exact h.free b (hfree ▸ List.mem_cons_of_mem a hb)

/-- A page that has an owner is given back. -/
theorem storePage (h : s.OwnedBy own) (ha : own a ≠ none) :
    (s.storePage a).OwnedBy (update own a none) := by
  have hsome : ∀ b, update own a none b ≠ none → own b ≠ none ∧ b ≠ a := by
    intro b hb
    obtain ⟨howner, hba⟩ := owner_of_update rfl hb
    exact ⟨howner ▸ hb, hba⟩
  refine ⟨(h.pages.storePage ha).mono hsome, fun b hb => h.owned b (hsome b hb).1, ?_⟩
  intro b hb
  by_cases hpos : 0 < s.currentIndex
  · rw [free_storePage (h.pages.isPage a ha) hpos] at hb
    rcases List.mem_cons.mp hb with rfl | hb
    · exact h.owned b ha
    · exact h.free b hb
  · rw [storePage_full hpos] at hb
    exact h.free b hb

/-- As long as a page has an owner, `store_page` does not fail. -/
theorem index_pos (h : s.OwnedBy own) (ha : own a ≠ none) : 0 < s.currentIndex := by
  by_contra hzero
  have hindex : s.currentIndex.toNat = 0 := by
    rw [UInt8.lt_iff_toNat_lt] at hzero
    simpa using hzero
  have hle : s.currentIndex ≤ stackSize := by
    rw [UInt8.le_iff_toNat_le, hindex]
    exact Nat.zero_le _
  have hlen := length_free hle
  have hall : dataPages.length = stackSize.toNat := by simp [dataPages]
  have hsub : s.free.Subperm dataPages := List.subperm_of_subset h.pages.nodup h.free
  have hperm : s.free.Perm dataPages := hsub.perm_of_length_le (by omega)
  exact h.notFree ha (hperm.mem_iff.mpr (h.owned a ha))

end OwnedBy

/-- Before the first call no page has an owner. -/
theorem ownedBy_initial :
    (initializeMemoryAllocator ⟨fun _ => 0, 0⟩).OwnedBy fun _ => (none : Option ω) := by
  refine ⟨PageStack.initial_pagesOk.mono (by simp), by simp, fun a ha => ?_⟩
  rw [AllocInv.free_initial] at ha
  rcases List.mem_append.mp ha with ha | ha
  · exact List.mem_of_mem_tail ha
  · rw [List.mem_singleton.mp ha]
    decide +kernel

/-! ## The ledger of the allocator -/

/-- Who owns the pages after the stack went from `s` to `t`: a page that is free
has no owner, and one that is not free any more belongs to `w`. -/
def ledger (w : ω) (own : Addr → Option ω) (s t : PageStack) (a : Addr) : Option ω :=
  if a ∈ t.free then none else if a ∈ s.free then some w else own a

theorem ledger_self (h : s.OwnedBy own) (w : ω) : ledger w own s s = own := by
  funext a
  unfold ledger
  split
  next hfree =>
    by_contra hne
    exact h.notFree (fun he => hne he.symm) hfree
  next => rfl

theorem ledger_getPage (h : s.OwnedBy own) (hget : s.getPage = some (a, s')) (w : ω) :
    ledger w own s s' = update own a (some w) := by
  have hfree := free_of_getPage hget
  have hnodup := h.pages.nodup
  rw [hfree, List.nodup_cons] at hnodup
  funext b
  unfold ledger
  by_cases hb : b = a
  · subst hb
    rw [if_neg hnodup.1, if_pos (hfree ▸ List.mem_cons_self), update_self]
  · rw [update_of_ne hb]
    split
    next hmem =>
      by_contra hne
      refine h.notFree (fun he => hne he.symm) ?_
      rw [hfree]
      exact List.mem_cons_of_mem _ hmem
    next hmem =>
      refine if_neg fun hmem' => ?_
      rw [hfree] at hmem'
      exact (List.mem_cons.mp hmem').elim hb hmem

theorem OwnedBy.free_storePage (h : s.OwnedBy own) (ha : own a ≠ none) :
    (s.storePage a).free = a :: s.free :=
  PageStack.free_storePage (h.pages.isPage a ha) (h.index_pos ha)

theorem ledger_storePage (h : s.OwnedBy own) (ha : own a ≠ none) (w : ω) :
    ledger w own s (s.storePage a) = update own a none := by
  have hmem : ∀ b, b ∈ (s.storePage a).free ↔ b = a ∨ b ∈ s.free := by
    intro b
    rw [h.free_storePage ha, List.mem_cons]
  funext b
  unfold ledger
  by_cases hb : b = a
  · rw [if_pos ((hmem b).mpr (Or.inl hb)), hb, update_self]
  · rw [update_of_ne hb]
    by_cases hfree : b ∈ s.free
    · rw [if_pos ((hmem b).mpr (Or.inr hfree))]
      by_contra hne
      exact h.notFree (fun he => hne he.symm) hfree
    · rw [if_neg fun hb' => ((hmem b).mp hb').elim hb hfree, if_neg hfree]

/-- The ledger is kept step by step, while pages are only taken or only given back. -/
theorem ledger_trans {t : PageStack} (w : ω)
    (h : (∀ a ∈ s'.free, a ∈ s.free) ∨ ∀ a ∈ s'.free, a ∈ t.free) :
    ledger w own s t = ledger w (ledger w own s s') s' t := by
  funext a
  unfold ledger
  by_cases ht : a ∈ t.free
  · rw [if_pos ht, if_pos ht]
  · rw [if_neg ht, if_neg ht]
    by_cases hs' : a ∈ s'.free
    · rw [if_pos hs', if_pos (h.elim (fun h => h a hs') fun h => absurd (h a hs') ht)]
    · rw [if_neg hs']
      split <;> simp

end PageStack

namespace Kernel

/-- What the owner of a page uses it for. -/
inductive PageOwner where
  /-- It is the structure of a process. -/
  | process
  /-- It is recorded in entry `i` of the array of the process `p`. -/
  | data (p : Addr) (i : Nat)
  /-- `sys_malloc` has returned it to `p`, whose array was full. -/
  | spare (p : Addr)
  /-- The rest of the kernel has it. -/
  | other
deriving DecidableEq

variable {k k' : Kernel} {p : Addr} {own : Addr → Option PageOwner}

/-! ## What `destroy_process` gives back -/

/-- The loop of `free_data_pages` takes pages from the owner `p` only, and leaves
the arrays alone. -/
theorem freeDataPagesFrom_owned (rounds i : Nat) (hpages : k.pages.OwnedBy own)
    (hentries : ∀ j, i ≤ j → j < i + rounds → (k.processes p).dataPage j ≠ null →
      own ((k.processes p).dataPage j) = some (.data p j)) :
    (∃ own', (freeDataPagesFrom p rounds i k).pages.OwnedBy own' ∧
      ∀ a, own' a = own a ∨ own' a = none ∧ ∃ j, own a = some (.data p j)) ∧
    ∀ q, ((freeDataPagesFrom p rounds i k).processes q).dataPage = (k.processes q).dataPage := by
  induction rounds generalizing i k own with
  | zero => exact ⟨⟨own, hpages, fun _ => Or.inl rfl⟩, fun _ => rfl⟩
  | succ rounds ih =>
      rw [freeDataPagesFrom]
      split
      next =>
        split
        next hocc =>
          have hown := hentries i le_rfl (by omega) hocc
          let k₁ := (k.storePage ((k.processes p).dataPage i)).writeProcess p fun c =>
            { c with nDataPage := c.nDataPage - 1 }
          have hdata : ∀ q, (k₁.processes q).dataPage = (k.processes q).dataPage := by
            intro q
            show (update k.processes p _ q).dataPage = _
            by_cases hq : q = p
            · subst hq
              rw [update_self]
              rfl
            · rw [update_of_ne hq]
          have hpages₁ : k₁.pages.OwnedBy (update own ((k.processes p).dataPage i) none) :=
            hpages.storePage (by rw [hown]; simp)
          obtain ⟨⟨own', hown', hsub⟩, hrest⟩ := ih (k := k₁) (i + 1) hpages₁ (by
            intro j hj hlt hocc'
            rw [hdata] at hocc' ⊢
            have hj' := hentries j (by omega) (by omega) hocc'
            have hne : (k.processes p).dataPage j ≠ (k.processes p).dataPage i := by
              intro he
              rw [he, hown] at hj'
              simp only [Option.some.injEq, PageOwner.data.injEq] at hj'
              omega
            rw [update_of_ne hne, hj'])
          refine ⟨⟨own', hown', fun a => ?_⟩, fun q => (hrest q).trans (hdata q)⟩
          by_cases ha : a = (k.processes p).dataPage i
          · subst ha
            right
            refine ⟨?_, i, hown⟩
            rcases hsub ((k.processes p).dataPage i) with hsame | ⟨hnone, -⟩
            · rw [hsame, update_self]
            · exact hnone
          · have ha' := hsub a
            rwa [update_of_ne ha] at ha'
        next =>
          exact ih (i + 1) hpages fun j hj hlt => hentries j (by omega) (by omega)
      next => exact ⟨⟨own, hpages, fun _ => Or.inl rfl⟩, fun _ => rfl⟩

/-- A process that is destroyed gives back pages of its own and then its
structure. -/
theorem destroyProcess_owned (hpages : k.pages.OwnedBy own) (hp : own p = some .process)
    (hentries : ∀ j, j < maxDataPages → (k.processes p).dataPage j ≠ null →
      own ((k.processes p).dataPage j) = some (.data p j)) :
    (∃ own', (k.destroyProcess p).pages.OwnedBy own' ∧
      ∀ a, own' a = own a ∧ a ≠ p ∨
        own' a = none ∧ (a = p ∨ ∃ j, own a = some (.data p j))) ∧
    ∀ q, ((k.destroyProcess p).processes q).dataPage = (k.processes q).dataPage := by
  have hne : p ≠ null := hpages.ne_null (by rw [hp]; simp)
  let k₀ : Kernel := { k with nProcesses := (k.nProcesses + 2 ^ 64 - 1) % 2 ^ 64 }
  obtain ⟨⟨own₁, hown₁, hsub⟩, hdata⟩ := freeDataPagesFrom_owned (k := k₀) (p := p) maxDataPages 0
    hpages fun j _ hj => hentries j (by omega)
  have hself : own₁ p = some .process := by
    rcases hsub p with hsame | ⟨-, j, hj⟩
    · rw [hsame, hp]
    · rw [hp] at hj
      cases hj
  obtain ⟨fg, procs, hs, he⟩ := destroyProcess_eq (k := k) hne rfl
  constructor
  · have hstored : (k.destroyProcess p).pages = (k₀.freeDataPages p).pages.storePage p := by
      rw [he]
      rfl
    refine ⟨update own₁ p none, hstored ▸ hown₁.storePage (by rw [hself]; simp), fun a => ?_⟩
    by_cases ha : a = p
    · subst ha
      exact Or.inr ⟨update_self _ _ _, Or.inl rfl⟩
    · rw [update_of_ne ha]
      rcases hsub a with hsame | ⟨hnone, j, hj⟩
      · exact Or.inl ⟨hsame, ha⟩
      · exact Or.inr ⟨hnone, Or.inr ⟨j, hj⟩⟩
  · intro q
    rw [← hdata q, he]
    exact hs.dataPage_eq q

/-! ## Runs -/

/-- The kernel, the processes that were created and not yet destroyed, the pages
that found no entry in a full array, and the pages of the rest of the kernel. -/
structure OwnRun where
  k : Kernel
  live : List Addr
  spare : List (Addr × Addr)
  others : List Addr

/-- What can happen in one step. -/
inductive OwnAction where
  /-- The process of a node runs. -/
  | dispatch (node : Addr)
  | create (rip : Nat) (name : CString)
  | destroy (p : Addr)
  /-- The running process calls `sys_malloc`. -/
  | malloc
  /-- The running process calls `sys_free`, with any address. -/
  | free (address : Addr)
  /-- The rest of the kernel takes a page. -/
  | take
  /-- The rest of the kernel gives a page back. -/
  | give (a : Addr)

/-- The running process has been created and not been destroyed. -/
def OwnRun.Running (s : OwnRun) : Prop := s.k.getCurrentProcess ∈ s.live

instance (s : OwnRun) : Decidable s.Running := inferInstanceAs (Decidable (_ ∈ _))

/-- Processes that take and give back pages, from the initialised allocator on. -/
def ownSystem : System OwnRun OwnAction where
  init s := s.k.pages = PageStack.initializeMemoryAllocator ⟨fun _ => 0, 0⟩ ∧ s.live = [] ∧
    s.spare = [] ∧ s.others = []
  next
    | s, .dispatch node =>
        if s.k.procOf node ∈ s.live then some { s with k := { s.k with current := node } } else none
    | s, .create rip name =>
        (s.k.createProcess rip name).map fun (p, k) => { s with k, live := p :: s.live }
    | s, .destroy p =>
        if p ∈ s.live then
          some { s with
            k := s.k.destroyProcess p
            live := s.live.erase p
            spare := s.spare.filter fun e => e.1 ≠ p }
        else none
    | s, .malloc =>
        if s.Running then
          s.k.sysMalloc.map fun (page, k) =>
            { s with
              k
              spare := if page ≠ 0 ∧ (s.k.processes s.k.getCurrentProcess).Full then
                (s.k.getCurrentProcess, page) :: s.spare else s.spare }
        else none
    | s, .free address =>
        if s.Running then
          some { s with
            k := (s.k.sysFree address).2
            spare := s.spare.erase (s.k.getCurrentProcess, address) }
        else none
    | s, .take => s.k.getPage.map fun (a, k) => { s with k, others := a :: s.others }
    | s, .give a =>
        if a ∈ s.others then
          some { s with k := s.k.storePage a, others := s.others.erase a }
        else none

/-- The running process has the page at `address` from `sys_malloc`: it is
recorded, or it found no entry. -/
def Owns (s : OwnRun) (address : Addr) : Prop :=
  address ≠ null ∧
      (∃ i, i < maxDataPages ∧ (s.k.processes s.k.getCurrentProcess).dataPage i = address) ∨
    (s.k.getCurrentProcess, address) ∈ s.spare

/-- A process gives back only what it owns. -/
def FreesOwn (s : OwnRun) : OwnAction → Prop
  | .free address => Owns s address
  | _ => True

/-! ## The invariant -/

/-- `own` gives every page its owner. -/
structure OwnInv (own : Addr → Option PageOwner) (s : OwnRun) : Prop where
  pages : s.k.pages.OwnedBy own
  process : ∀ p ∈ s.live, own p = some .process
  data : ∀ p ∈ s.live, ∀ i, i < maxDataPages → (s.k.processes p).dataPage i ≠ null →
    own ((s.k.processes p).dataPage i) = some (.data p i)
  spare : ∀ e ∈ s.spare, own e.2 = some (.spare e.1)
  others : ∀ a ∈ s.others, own a = some .other
  nodupLive : s.live.Nodup
  nodupSpare : s.spare.Nodup
  nodupOthers : s.others.Nodup

theorem createProcess_dataPage {rip : Nat} {name : CString}
    (h : k.createProcess rip name = some (p, k')) (i : Nat) : (k'.processes p).dataPage i = null := by
  obtain ⟨pages, index, page, -, rfl⟩ := createProcess_eq h
  simp only [initProcess]
  unfold insertProcess
  split
  · split
    · simp [writeProcess]
    · simp [writeProcess]
  · split
    · simp [writeProcess]
    · simp [writeProcess]

namespace OwnInv

variable {s t : OwnRun}

theorem of_init (h : ownSystem.init s) : OwnInv (fun _ => none) s := by
  obtain ⟨hpages, hlive, hspare, hothers⟩ := h
  constructor
  · rw [hpages]
    exact PageStack.ownedBy_initial
  all_goals simp [hlive, hspare, hothers]

theorem create (h : OwnInv own s) {rip : Nat} {name : CString}
    (hcreate : s.k.createProcess rip name = some (p, k')) :
    OwnInv (update own p (some .process)) { s with k := k', live := p :: s.live } := by
  have hc := createProcess_spec hcreate
  obtain ⟨hnone, hpages⟩ := h.pages.getPage hc.getPage .process
  have hkeep : ∀ {x w}, own x = some w → update own p (some .process) x = some w :=
    PageStack.update_owner_fresh hnone
  have hfresh : p ∉ s.live := by
    intro hp
    rw [h.process p hp] at hnone
    cases hnone
  refine ⟨hpages, ?_, ?_, fun e he => hkeep (h.spare e he), fun a ha => hkeep (h.others a ha),
    List.nodup_cons.mpr ⟨hfresh, h.nodupLive⟩, h.nodupSpare, h.nodupOthers⟩
  · intro q hq
    rcases List.mem_cons.mp hq with rfl | hold
    · exact update_self _ _ _
    · exact hkeep (h.process q hold)
  · intro q hq i hi hocc
    rcases List.mem_cons.mp hq with rfl | hold
    · exact absurd (createProcess_dataPage hcreate i) hocc
    · have hqp : q ≠ p := by
        rintro rfl
        exact hfresh hold
      simp only [hc.others q hqp] at hocc ⊢
      exact hkeep (h.data q hold i hi hocc)

theorem destroy (h : OwnInv own s) (hp : p ∈ s.live) :
    ∃ own', OwnInv own' { s with
      k := s.k.destroyProcess p
      live := s.live.erase p
      spare := s.spare.filter fun e => e.1 ≠ p } := by
  obtain ⟨⟨own', hpages, hsub⟩, hdata⟩ :=
    destroyProcess_owned h.pages (h.process p hp) (h.data p hp)
  have hkeep : ∀ {x w}, own x = some w → x ≠ p → (∀ j, w ≠ .data p j) → own' x = some w := by
    intro x w hx hne hw
    rcases hsub x with ⟨hsame, -⟩ | ⟨-, he | ⟨j, hj⟩⟩
    · rw [hsame, hx]
    · exact absurd he hne
    · rw [hx] at hj
      exact absurd (Option.some.inj hj) (hw j)
  refine ⟨own', hpages, ?_, ?_, ?_, ?_, h.nodupLive.erase p, h.nodupSpare.filter _, h.nodupOthers⟩
  · intro q hq
    obtain ⟨hqp, hq⟩ := h.nodupLive.mem_erase_iff.mp hq
    exact hkeep (h.process q hq) hqp (by simp)
  · intro q hq i hi hocc
    obtain ⟨hqp, hq⟩ := h.nodupLive.mem_erase_iff.mp hq
    simp only [hdata] at hocc ⊢
    have hown := h.data q hq i hi hocc
    refine hkeep hown ?_ ?_
    · intro he
      rw [he, h.process p hp] at hown
      cases hown
    · intro j he
      cases he
      exact hqp rfl
  · intro e he
    have hown := h.spare e (List.mem_of_mem_filter he)
    refine hkeep hown ?_ (by simp)
    intro hep
    rw [hep, h.process p hp] at hown
    cases hown
  · intro a ha
    have hown := h.others a ha
    refine hkeep hown ?_ (by simp)
    rintro rfl
    rw [h.process a hp] at hown
    cases hown

theorem malloc (h : OwnInv own s) {page : Addr}
    (hmalloc : s.k.sysMalloc = some (page, k')) :
    ∃ own', OwnInv own' { s with
      k := k'
      spare := if page ≠ 0 ∧ (s.k.processes s.k.getCurrentProcess).Full then
        (s.k.getCurrentProcess, page) :: s.spare else s.spare } := by
  obtain ⟨hprocs, -, hpages⟩ := sysMalloc_spec hmalloc
  have hothers : ∀ q, q ≠ s.k.getCurrentProcess → k'.processes q = s.k.processes q := by
    intro q hq
    rw [hprocs, update_of_ne hq]
  have hself : k'.processes s.k.getCurrentProcess =
      (s.k.processes s.k.getCurrentProcess).addDataPage page := by
    rw [hprocs, update_self]
  rcases hpages with hget | ⟨rfl, hsame, -⟩
  · rcases (s.k.processes s.k.getCurrentProcess).addDataPage_cases page with
      ⟨i, hi, hempty, he⟩ | ⟨hfull, he⟩
    · -- the page goes into entry `i`
      obtain ⟨hnone, hnew⟩ := h.pages.getPage hget (PageOwner.data s.k.getCurrentProcess i)
      have hkeep : ∀ {x w}, own x = some w →
          update own page (some (.data s.k.getCurrentProcess i)) x = some w :=
        PageStack.update_owner_fresh hnone
      have hroom : ¬(page ≠ 0 ∧ (s.k.processes s.k.getCurrentProcess).Full) :=
        fun hfull => hfull.2 i hi hempty
      rw [if_neg hroom]
      refine ⟨_, hnew, fun p hp => hkeep (h.process p hp), ?_, fun e he => hkeep (h.spare e he),
        fun a ha => hkeep (h.others a ha), h.nodupLive, h.nodupSpare, h.nodupOthers⟩
      intro p hp j hj hocc
      by_cases hpc : p = s.k.getCurrentProcess
      · subst hpc
        simp only [hself, he] at hocc ⊢
        by_cases hji : j = i
        · subst hji
          rw [update_self, update_self]
        · rw [update_of_ne hji] at hocc ⊢
          exact hkeep (h.data _ hp j hj hocc)
      · simp only [hothers p hpc] at hocc ⊢
        exact hkeep (h.data p hp j hj hocc)
    · -- the array is full
      obtain ⟨hnone, hnew⟩ := h.pages.getPage hget (PageOwner.spare s.k.getCurrentProcess)
      have hkeep : ∀ {x w}, own x = some w →
          update own page (some (.spare s.k.getCurrentProcess)) x = some w :=
        PageStack.update_owner_fresh hnone
      have hpage : page ≠ 0 := (PageStack.isPage_of_mem_free
        (PageStack.free_of_getPage hget ▸ List.mem_cons_self)).ne_null
      have hfresh : (s.k.getCurrentProcess, page) ∉ s.spare := by
        intro hm
        rw [h.spare _ hm] at hnone
        cases hnone
      rw [if_pos ⟨hpage, hfull⟩]
      refine ⟨_, hnew, fun p hp => hkeep (h.process p hp), ?_, ?_,
        fun a ha => hkeep (h.others a ha), h.nodupLive, List.nodup_cons.mpr ⟨hfresh, h.nodupSpare⟩,
        h.nodupOthers⟩
      · intro p hp j hj hocc
        have hsame : k'.processes p = s.k.processes p := by
          by_cases hpc : p = s.k.getCurrentProcess
          · rw [hpc, hself, he]
          · exact hothers p hpc
        simp only [hsame] at hocc ⊢
        exact hkeep (h.data p hp j hj hocc)
      · intro e hm
        rcases List.mem_cons.mp hm with rfl | hold
        · exact update_self _ _ _
        · exact hkeep (h.spare e hold)
  · -- no page: an empty entry stays empty
    rw [if_neg (by simp)]
    refine ⟨own, hsame ▸ h.pages, h.process, ?_, h.spare, h.others, h.nodupLive, h.nodupSpare,
      h.nodupOthers⟩
    intro p hp j hj hocc
    by_cases hpc : p = s.k.getCurrentProcess
    · subst hpc
      rcases (s.k.processes s.k.getCurrentProcess).addDataPage_cases 0 with
        ⟨i, hi, hempty, he⟩ | ⟨-, he⟩
      · simp only [hself, he] at hocc ⊢
        by_cases hji : j = i
        · subst hji
          rw [update_self] at hocc
          exact absurd rfl hocc
        · rw [update_of_ne hji] at hocc ⊢
          exact h.data _ hp j hj hocc
      · simp only [hself, he] at hocc ⊢
        exact h.data _ hp j hj hocc
    · simp only [hothers p hpc] at hocc ⊢
      exact h.data p hp j hj hocc

/-- The owner of a page that the running process owns. -/
theorem owner_of_owns (h : OwnInv own s) (hrun : s.Running) {address : Addr}
    (ho : Owns s address) :
    (∃ i, i < maxDataPages ∧ (s.k.processes s.k.getCurrentProcess).dataPage i = address ∧
      own address = some (.data s.k.getCurrentProcess i)) ∨
    (s.k.getCurrentProcess, address) ∈ s.spare ∧
      own address = some (.spare s.k.getCurrentProcess) := by
  rcases ho with ⟨hne, i, hi, rfl⟩ | hspare
  · exact Or.inl ⟨i, hi, rfl, h.data _ hrun i hi hne⟩
  · exact Or.inr ⟨hspare, h.spare _ hspare⟩

theorem free (h : OwnInv own s) (hrun : s.Running) {address : Addr} (ho : Owns s address) :
    OwnInv (update own address none) { s with
      k := (s.k.sysFree address).2
      spare := s.spare.erase (s.k.getCurrentProcess, address) } := by
  have howner := h.owner_of_owns hrun ho
  have hsome : own address ≠ none := by
    rcases howner with ⟨i, -, -, hi⟩ | ⟨-, hspare⟩
    · simp [hi]
    · simp [hspare]
  have hself : (s.k.sysFree address).2.processes s.k.getCurrentProcess =
      (s.k.processes s.k.getCurrentProcess).removeDataPage address := update_self _ _ _
  have hothers : ∀ q, q ≠ s.k.getCurrentProcess →
      (s.k.sysFree address).2.processes q = s.k.processes q := fun q hq => update_of_ne hq _ _
  have hkeep : ∀ {x w}, own x = some w → own address ≠ some w →
      update own address none x = some w := by
    intro x w hx hne
    rw [PageStack.update_owner (by rw [hx]; exact hne), hx]
  refine ⟨h.pages.storePage hsome, ?_, ?_, ?_, ?_, h.nodupLive, h.nodupSpare.erase _, h.nodupOthers⟩
  · intro p hp
    refine hkeep (h.process p hp) ?_
    rcases howner with ⟨i, -, -, hi⟩ | ⟨-, hspare⟩
    · simp [hi]
    · simp [hspare]
  · intro p hp j hj hocc
    by_cases hpc : p = s.k.getCurrentProcess
    · subst hpc
      simp only [hself] at hocc ⊢
      rcases (s.k.processes s.k.getCurrentProcess).removeDataPage_cases address with
        ⟨i, hi, hpage, he⟩ | ⟨hnot, he⟩
      · -- the entry of the page is emptied
        simp only [he] at hocc ⊢
        by_cases hji : j = i
        · subst hji
          rw [update_self] at hocc
          exact absurd rfl hocc
        · rw [update_of_ne hji] at hocc ⊢
          have hown := h.data _ hp i hi (hpage ▸ h.pages.ne_null hsome)
          rw [hpage] at hown
          refine hkeep (h.data _ hp j hj hocc) ?_
          rw [hown]
          simpa using fun he => hji he.symm
      · rw [he] at hocc ⊢
        rcases howner with ⟨i, hi, hpage, -⟩ | ⟨-, hspare⟩
        · exact absurd hpage (hnot i hi)
        · refine hkeep (h.data _ hp j hj hocc) ?_
          simp [hspare]
    · simp only [hothers p hpc] at hocc ⊢
      refine hkeep (h.data p hp j hj hocc) ?_
      rcases howner with ⟨i, -, -, hi⟩ | ⟨-, hspare⟩
      · rw [hi]
        simpa using fun he : s.k.getCurrentProcess = p => absurd he.symm hpc
      · simp [hspare]
  · intro e he
    obtain ⟨hne, hm⟩ := h.nodupSpare.mem_erase_iff.mp he
    have hown := h.spare e hm
    have hpage : e.2 ≠ address := by
      intro hpage
      rw [hpage] at hown
      rcases howner with ⟨i, -, -, hi⟩ | ⟨-, hspare⟩
      · rw [hi] at hown
        cases hown
      · rw [hspare] at hown
        have hp : s.k.getCurrentProcess = e.1 := by simpa using hown
        exact hne (Prod.ext hp.symm hpage)
    rw [update_of_ne hpage]
    exact hown
  · intro a ha
    refine hkeep (h.others a ha) ?_
    rcases howner with ⟨i, -, -, hi⟩ | ⟨-, hspare⟩
    · simp [hi]
    · simp [hspare]

theorem take (h : OwnInv own s) {a : Addr} (hget : s.k.getPage = some (a, k')) :
    OwnInv (update own a (some .other)) { s with k := k', others := a :: s.others } := by
  obtain ⟨pages, hpages, rfl⟩ := getPage_eq_some hget
  obtain ⟨hnone, hnew⟩ := h.pages.getPage hpages .other
  have hkeep : ∀ {x w}, own x = some w → update own a (some .other) x = some w :=
    PageStack.update_owner_fresh hnone
  have hfresh : a ∉ s.others := by
    intro ha
    rw [h.others a ha] at hnone
    cases hnone
  refine ⟨hnew, fun p hp => hkeep (h.process p hp),
    fun p hp i hi hocc => hkeep (h.data p hp i hi hocc), fun e he => hkeep (h.spare e he), ?_,
    h.nodupLive, h.nodupSpare, List.nodup_cons.mpr ⟨hfresh, h.nodupOthers⟩⟩
  intro b hb
  rcases List.mem_cons.mp hb with rfl | hold
  · exact update_self _ _ _
  · exact hkeep (h.others b hold)

theorem give (h : OwnInv own s) {a : Addr} (ha : a ∈ s.others) :
    OwnInv (update own a none) { s with k := s.k.storePage a, others := s.others.erase a } := by
  have hown := h.others a ha
  have hkeep : ∀ {x w}, own x = some w → w ≠ .other → update own a none x = some w := by
    intro x w hx hw
    rw [PageStack.update_owner (by rw [hown, hx]; simpa using hw.symm), hx]
  refine ⟨h.pages.storePage (by simp [hown]), fun p hp => hkeep (h.process p hp) (by simp),
    fun p hp i hi hocc => hkeep (h.data p hp i hi hocc) (by simp),
    fun e he => hkeep (h.spare e he) (by simp), ?_, h.nodupLive, h.nodupSpare, h.nodupOthers.erase a⟩
  intro b hb
  obtain ⟨hba, hb⟩ := h.nodupOthers.mem_erase_iff.mp hb
  rw [update_of_ne hba]
  exact h.others b hb

/-- Every step that meets the guard keeps the invariant. -/
theorem next {a : OwnAction} (h : OwnInv own s) (hg : FreesOwn s a)
    (hn : ownSystem.next s a = some t) : ∃ own', OwnInv own' t := by
  cases a with
  | dispatch node =>
      simp only [ownSystem] at hn
      split at hn
      next =>
        cases hn
        exact ⟨own, h.pages, h.process, h.data, h.spare, h.others, h.nodupLive, h.nodupSpare,
          h.nodupOthers⟩
      next => cases hn
  | create rip name =>
      obtain ⟨⟨p, k⟩, hcreate, rfl⟩ := Option.map_eq_some_iff.mp hn
      exact ⟨_, h.create hcreate⟩
  | destroy p =>
      simp only [ownSystem] at hn
      split at hn
      next hp =>
        cases hn
        exact h.destroy hp
      next => cases hn
  | malloc =>
      simp only [ownSystem] at hn
      split at hn
      next =>
        obtain ⟨⟨page, k⟩, hmalloc, rfl⟩ := Option.map_eq_some_iff.mp hn
        exact h.malloc hmalloc
      next => cases hn
  | free address =>
      simp only [ownSystem] at hn
      split at hn
      next hrun =>
        cases hn
        exact ⟨_, h.free hrun hg⟩
      next => cases hn
  | take =>
      obtain ⟨⟨a, k⟩, hget, rfl⟩ := Option.map_eq_some_iff.mp hn
      exact ⟨_, h.take hget⟩
  | give a =>
      simp only [ownSystem] at hn
      split at hn
      next ha =>
        cases hn
        exact ⟨_, h.give ha⟩
      next => cases hn

theorem of_reachBy (h : ownSystem.ReachBy FreesOwn s) : ∃ own, OwnInv own s := by
  refine h.invariant (I := fun s => ∃ own, OwnInv own s) (fun _ hs => ⟨_, of_init hs⟩) ?_
  rintro s a t ⟨own, hs⟩ hg hn
  exact hs.next hg hn

end OwnInv

/-! ## What holds in every run -/

/-- No page is recorded twice, and none is recorded or a process and free. -/
structure Exclusive (s : OwnRun) : Prop where
  recordedOnce : ∀ p ∈ s.live, ∀ q ∈ s.live, ∀ i, i < maxDataPages → ∀ j, j < maxDataPages →
    (s.k.processes p).dataPage i ≠ null →
    (s.k.processes p).dataPage i = (s.k.processes q).dataPage j → p = q ∧ i = j
  recordedNotFree : ∀ p ∈ s.live, ∀ i, i < maxDataPages → (s.k.processes p).dataPage i ≠ null →
    (s.k.processes p).dataPage i ∉ s.k.pages.free
  processNotFree : ∀ p ∈ s.live, p ∉ s.k.pages.free
  recordedNotProcess : ∀ p ∈ s.live, ∀ q ∈ s.live, ∀ i, i < maxDataPages →
    (s.k.processes p).dataPage i ≠ q
  freeOnce : s.k.pages.free.Nodup

theorem OwnInv.exclusive {s : OwnRun} (h : OwnInv own s) : Exclusive s := by
  constructor
  case recordedOnce =>
    intro p hp q hq i hi j hj hocc he
    have hown := h.data p hp i hi hocc
    rw [he, h.data q hq j hj (he ▸ hocc)] at hown
    cases hown
    exact ⟨rfl, rfl⟩
  case recordedNotFree =>
    intro p hp i hi hocc
    exact h.pages.notFree (by rw [h.data p hp i hi hocc]; simp)
  case processNotFree =>
    intro p hp
    exact h.pages.notFree (by rw [h.process p hp]; simp)
  case recordedNotProcess =>
    intro p hp q hq i hi he
    have hown := h.process q hq
    have hne : q ≠ null := h.pages.ne_null (by simp [hown])
    rw [← he, h.data p hp i hi (he.symm ▸ hne)] at hown
    cases hown
  case freeOnce => exact h.pages.pages.nodup

/-- A call of `sys_free` is as it should be: pages keep one owner, and what the
process does not own is refused. -/
def FreeOk (s : OwnRun) (address : Addr) (t : OwnRun) : Prop :=
  Exclusive t ∧ (¬Owns s address → t.k.pages = s.k.pages ∧ (s.k.sysFree address).1 = 0)

/-- Pages have one owner in every run whose processes give back only what they
own.  The next `sys_free` is as it should be exactly if it is one of these. -/
theorem page_ownership {s : OwnRun} (h : ownSystem.ReachBy FreesOwn s) :
    Exclusive s ∧ ∀ address t, ownSystem.next s (.free address) = some t →
      (FreeOk s address t ↔ Owns s address) := by
  obtain ⟨own, hinv⟩ := OwnInv.of_reachBy h
  refine ⟨hinv.exclusive, fun address t hn => ?_⟩
  constructor
  · rintro ⟨-, hrefused⟩
    by_contra hnot
    simp only [ownSystem] at hn
    split at hn
    next hrun =>
      have hpos := hinv.pages.index_pos (a := s.k.getCurrentProcess)
        (by simp [hinv.process _ hrun])
      have hreturns : (s.k.sysFree address).1 = 1 := if_pos hpos
      rw [(hrefused hnot).2] at hreturns
      cases hreturns
    next => cases hn
  · intro hown
    obtain ⟨own', hnext⟩ := hinv.next (a := .free address) hown hn
    exact ⟨hnext.exclusive, fun hnot => absurd hown hnot⟩

/-- No process has been created yet.  The node of a process is on its page. -/
def ownStarted : OwnRun where
  k := {
    pages := PageStack.initializeMemoryAllocator ⟨fun _ => 0, 0⟩
    nodes := fun a => ⟨1, a, a⟩ }
  live := []
  spare := []
  others := []

theorem init_ownStarted : ownSystem.init ownStarted := by
  exact ⟨rfl, rfl, rfl, rfl⟩

/-- A test for the guard: the page is in the first entry. -/
def freesFirst (s : OwnRun) : OwnAction → Bool
  | .free address => address ≠ null ∧
      (s.k.processes s.k.getCurrentProcess).dataPage 0 = address
  | _ => true

theorem freesOwn_of_freesFirst (s : OwnRun) (a : OwnAction) (h : freesFirst s a) :
    FreesOwn s a := by
  cases a with
  | free address =>
      obtain ⟨hne, hpage⟩ := of_decide_eq_true h
      exact Or.inl ⟨hne, 0, by decide, hpage⟩
  | _ => trivial

/-- A process takes two pages and gives the first of them back. -/
def ownFreed : Option OwnRun :=
  ownSystem.executeBy freesFirst ownStarted
    [.create 0 .nil, .dispatch (pageAddr 1), .malloc, .malloc, .free (pageAddr 2)]

theorem page_ownership_freed : Exclusive (ownFreed.get (by decide +kernel)) ∧
    ∀ address t, ownSystem.next (ownFreed.get (by decide +kernel)) (.free address) = some t →
      (FreeOk (ownFreed.get (by decide +kernel)) address t ↔
        Owns (ownFreed.get (by decide +kernel)) address) := by
  exact page_ownership ((System.ReachBy.init init_ownStarted).execute freesOwn_of_freesFirst
    (Option.some_get _).symm)

/-- A process gives back the page of another one and gets it for itself. -/
theorem page_shared : ¬∀ s, ownSystem.Reach s → Exclusive s := by
  intro hall
  obtain ⟨s, hs, hshared⟩ := System.exists_reach_of_execute init_ownStarted
    [.create 0 .nil, .create 0 .nil, .dispatch (pageAddr 1), .malloc, .dispatch (pageAddr 2),
      .free (pageAddr 3), .malloc]
    (fun s => pageAddr 1 ∈ s.live ∧ pageAddr 2 ∈ s.live ∧
      (s.k.processes (pageAddr 1)).dataPage 0 = pageAddr 3 ∧
      (s.k.processes (pageAddr 2)).dataPage 0 = pageAddr 3) (by decide +kernel)
  obtain ⟨h1, h2, hfirst, hsecond⟩ := of_decide_eq_true hshared
  obtain ⟨he, -⟩ := (hall s hs).recordedOnce _ h1 _ h2 0 (by decide) 0 (by decide)
    (by rw [hfirst]; decide) (hfirst.trans hsecond.symm)
  exact absurd he (by decide)

end Kernel

end TPE
