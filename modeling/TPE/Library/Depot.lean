import TPE.Library.Sharing

/-!
# A depot with clients that wait

A depot holds a stock.  A client that comes while nobody waits and there is
something in stock gets what it asks for, as far as the stock goes.  Any other
client waits.  A delivery is shared out among those who wait, in order.

Nobody waits while there is something in stock, so a client never overtakes
another, and what was delivered was handed out or is in stock.
-/

namespace TPE

/-- A depot and what went through it. -/
structure Depot (ι : Type*) where
  /-- The clients that wait. -/
  waiting : List ι
  stock : Int
  /-- The clients in the order in which they came. -/
  arrived : List ι
  /-- The clients that got something, and how much. -/
  fulfilled : List (ι × Int)
  /-- What was delivered. -/
  supplied : Int

namespace Depot

variable {ι : Type*} {asks : ι → Int} {d e : Depot ι} {x : ι} {n : Int}

/-- A client comes. -/
def arrive (asks : ι → Int) (d : Depot ι) (x : ι) : Depot ι :=
  if d.waiting.isEmpty ∧ 0 < d.stock then
    { d with
      stock := d.stock - min (asks x) d.stock
      arrived := d.arrived ++ [x]
      fulfilled := d.fulfilled ++ [(x, min (asks x) d.stock)] }
  else
    { d with
      waiting := d.waiting ++ [x]
      arrived := d.arrived ++ [x] }

/-- `n` is delivered. -/
def supply (asks : ι → Int) (d : Depot ι) (n : Int) : Depot ι :=
  let shares := share (d.stock + n) (d.waiting.map asks)
  { d with
    waiting := d.waiting.drop shares.length
    stock := d.stock + n - shares.sum
    fulfilled := d.fulfilled ++ d.waiting.zip shares
    supplied := d.supplied + n }

/-- What the clients can rely on. -/
structure Orderly (asks : ι → Int) (d : Depot ι) : Prop where
  /-- Nobody waits while there is something in stock. -/
  complementary : d.waiting = [] ∨ d.stock = 0
  /-- Those who got something came first. -/
  order : d.arrived = d.fulfilled.map Prod.fst ++ d.waiting
  counts : ∀ y ∈ d.fulfilled, 1 ≤ y.2 ∧ y.2 ≤ asks y.1
  balance : d.supplied - (d.fulfilled.map Prod.snd).sum = d.stock

/-- What can happen to a depot. -/
inductive Step (asks : ι → Int) (d : Depot ι) : Depot ι → Prop where
  | same : Step asks d d
  | arrive {x : ι} (pos : 0 < asks x) : Step asks d (d.arrive asks x)
  | supply {n : Int} (nonneg : 0 ≤ n) : Step asks d (d.supply asks n)

/-- The invariant of a depot: everybody who waits asks for something. -/
structure Inv (asks : ι → Int) (d : Depot ι) : Prop where
  orderly : d.Orderly asks
  stock_nonneg : 0 ≤ d.stock
  pos : ∀ x ∈ d.waiting, 0 < asks x

theorem Inv.empty : (⟨[], 0, [], [], 0⟩ : Depot ι).Inv asks :=
  ⟨⟨Or.inl rfl, rfl, fun _ hy => (List.not_mem_nil hy).elim, rfl⟩, le_rfl,
    fun _ hx => (List.not_mem_nil hx).elim⟩

/-- The shares go to those in front. -/
theorem zip_share (asks : ι → Int) (l : List ι) (n : Int) :
    (l.zip (share n (l.map asks))).map Prod.fst = l.take (share n (l.map asks)).length ∧
    (l.zip (share n (l.map asks))).map Prod.snd = share n (l.map asks) := by
  have hle : (share n (l.map asks)).length ≤ l.length := by
    simpa only [List.length_map] using length_share_le n (l.map asks)
  refine ⟨?_, List.map_snd_zip hle⟩
  rw [List.zip_eq_zip_take_min, Nat.min_eq_right hle, List.take_length]
  refine List.map_fst_zip ?_
  rw [List.length_take]
  omega

/-- A share is at least one, and no more than was asked for. -/
theorem mem_zip_share {l : List ι} (hpos : ∀ x ∈ l, 0 < asks x) {y : ι × Int}
    (hy : y ∈ l.zip (share n (l.map asks))) : 1 ≤ y.2 ∧ y.2 ≤ asks y.1 := by
  induction l generalizing n with
  | nil => cases hy
  | cons x l ih =>
      by_cases h : 0 < n
      · rw [List.map_cons, share_cons_pos h, List.zip_cons_cons] at hy
        rcases List.mem_cons.mp hy with rfl | hy
        · have hx := hpos x List.mem_cons_self
          exact ⟨by omega, min_le_left _ _⟩
        · exact ih (fun z hz => hpos z (List.mem_cons_of_mem _ hz)) hy
      · rw [share_of_le (by omega), List.zip_nil_right] at hy
        cases hy

theorem arrive_now (hwaiting : d.waiting = []) (hstock : 0 < d.stock) :
    d.arrive asks x = { d with
      stock := d.stock - min (asks x) d.stock
      arrived := d.arrived ++ [x]
      fulfilled := d.fulfilled ++ [(x, min (asks x) d.stock)] } :=
  if_pos ⟨List.isEmpty_iff.mpr hwaiting, hstock⟩

theorem arrive_later (h : d.waiting = [] → d.stock ≤ 0) :
    d.arrive asks x = { d with
      waiting := d.waiting ++ [x]
      arrived := d.arrived ++ [x] } := by
  refine if_neg fun hnow => ?_
  have hle := h (List.isEmpty_iff.mp hnow.1)
  omega

theorem Inv.arrive (h : d.Inv asks) (hx : 0 < asks x) : (d.arrive asks x).Inv asks := by
  obtain ⟨⟨hcompl, horder, hcounts, hbalance⟩, hstock, hpos⟩ := h
  by_cases hnow : d.waiting = [] ∧ 0 < d.stock
  · obtain ⟨hnil, hsome⟩ := hnow
    rw [arrive_now hnil hsome]
    refine ⟨⟨Or.inl hnil, ?_, fun y hy => ?_, ?_⟩, by simp only; omega, hpos⟩
    · simp only [horder, hnil, List.map_append, List.map_cons, List.map_nil, List.append_nil]
    · rcases List.mem_append.mp hy with hy | hy
      · exact hcounts y hy
      · rw [List.mem_singleton.mp hy]
        exact ⟨by simp only; omega, min_le_left _ _⟩
    · simp only [List.map_append, List.map_cons, List.map_nil, List.sum_append, List.sum_singleton]
      omega
  · have hlater : d.waiting = [] → d.stock ≤ 0 := fun hnil => Int.not_lt.mp fun hsome =>
      hnow ⟨hnil, hsome⟩
    have hzero : d.stock = 0 := by
      rcases hcompl with hnil | hzero
      · have hle := hlater hnil
        omega
      · exact hzero
    rw [arrive_later hlater]
    refine ⟨⟨Or.inr hzero, ?_, hcounts, hbalance⟩, hstock, fun y hy => ?_⟩
    · simp only [horder, List.append_assoc]
    · rcases List.mem_append.mp hy with hy | hy
      · exact hpos y hy
      · rw [List.mem_singleton.mp hy]
        exact hx

theorem Inv.supply (h : d.Inv asks) (hn : 0 ≤ n) : (d.supply asks n).Inv asks := by
  obtain ⟨⟨-, horder, hcounts, hbalance⟩, hstock, hpos⟩ := h
  have htotal : 0 ≤ d.stock + n := by omega
  obtain ⟨hfst, hsnd⟩ := zip_share asks d.waiting (d.stock + n)
  have hleft := sum_share_le (d.waiting.map asks) htotal
  refine ⟨⟨?_, ?_, fun y hy => ?_, ?_⟩, ?_, fun y hy => hpos y (List.mem_of_mem_drop hy)⟩
  · rcases share_exhausts (d.waiting.map asks) htotal with hall | hnone
    · refine Or.inl ?_
      simp only [Depot.supply, hall, List.length_map, List.drop_length]
    · exact Or.inr hnone
  · simp only [Depot.supply, List.map_append, hfst, List.append_assoc, List.take_append_drop]
    exact horder
  · rcases List.mem_append.mp hy with hy | hy
    · exact hcounts y hy
    · exact mem_zip_share hpos hy
  · simp only [Depot.supply, List.map_append, hsnd, List.sum_append]
    omega
  · simp only [Depot.supply]
    omega

theorem Inv.step (h : d.Inv asks) (hstep : Step asks d e) : e.Inv asks := by
  cases hstep with
  | same => exact h
  | arrive hx => exact h.arrive hx
  | supply hn => exact h.supply hn

end Depot

end TPE
