import UCore.Machinery.Blocks
import UCore.Mm.DefaultPmmRun
import Mathlib.Data.List.MinMax

/-!
# Mm/BestFitPmm — the best-fit page manager

    free_list ── [ p, p + sz p ) ── [ q, q + sz q ) ── …      sorted by address

`kern/mm/best_fit_pmm.c`.  Allocation differs from first fit in its search alone, and freeing not at
all, so the steps around the search are those of `Mm/DefaultPmm`.  The search starts from the
sentinel `nr_free + 1`, an `unsigned int`: on a list that holds `2³² - 1` pages it is zero, and no
block is small enough.
-/

namespace UCore.BestFitPmm

open DefaultPmm

/-! ## The code -/

/-- The search of `best_fit_alloc_pages`: the smallest block of at least `n` pages, among those
smaller than `minSize`. -/
def findBest (fuel n minSize : ℕ) : Call (Option ℕ) :=
  Act.loop .spin (fun (le, minSize, page) => do
    let le := listNext (← get).lists.links le
    match le with
    | .head _ => pure (.inr page)
    | .pageLink p =>
      if n ≤ (← get).lists.property p ∧ (← get).lists.property p < minSize then
        pure (.inl (.pageLink p, (← get).lists.property p, some p))
      else pure (.inl (.pageLink p, minSize, page))) fuel (freeList, minSize, none)

/-- `best_fit_alloc_pages`; `none` is `NULL`. -/
def bestFitAllocPages (fuel n : ℕ) : Call (Option ℕ) := do
  Act.require .panic (0 < n)
  if (← get).nrFree < n then return none
  let page ← findBest fuel n (u32 ((← get).nrFree + 1))
  match page with
  | none => return none
  | some p => do
    takePages p n
    return some p

/-- `best_fit_free_pages`. -/
def bestFitFreePages (fuel base n : ℕ) : Call Unit := do
  Act.require .panic (0 < n)
  resetPages base n
  store fun g => (g.setProperty base n).setPageProperty base true
  setNrFree (· + n)
  linkBase fuel base
  let base ← mergePrev base
  mergeNext base

/-- `best_fit_nr_free_pages`. -/
def bestFitNrFreePages : Call ℕ := do return (← get).nrFree

/-! ## The free list -/

variable {s s' : FreeArea} {xs as bs : List ℕ} {fuel base n m p : ℕ}

/-- **A well-formed free list**: the ring runs through sorted disjoint blocks, whose sizes sum to
`nr_free`, an `unsigned int`. -/
structure FreeList (s : FreeArea) (xs : List ℕ) : Prop where
  ring : OnFreeList s.lists.links xs
  sorted : Blocks.Sorted s.lists.property xs
  sum : (xs.map s.lists.property).sum = s.nrFree
  nrFree_lt : s.nrFree < 2 ^ 32

theorem FreeList.property_le (h : FreeList s xs) (hp : p ∈ xs) : s.lists.property p ≤ s.nrFree :=
  h.sum ▸ List.le_sum_of_mem (List.mem_map_of_mem hp)

/-- The sizes of disjoint blocks sum to the number of their pages. -/
theorem FreeList.of_card (hr : OnFreeList s.lists.links xs)
    (hs : Blocks.Sorted s.lists.property xs) (hn : s.nrFree = (freePages s xs).card)
    (hlt : s.nrFree < 2 ^ 32) : FreeList s xs :=
  ⟨hr, hs, by rw [hn, freePages, hs.card_cells], hlt⟩

theorem FreeList.card (h : FreeList s xs) : s.nrFree = (freePages s xs).card := by
  rw [← h.sum, freePages, h.sorted.card_cells]

/-! ## The search -/

/-- The blocks the search can pick. -/
def fits (s : FreeArea) (xs : List ℕ) (n m : ℕ) : List ℕ :=
  xs.filter fun p => n ≤ s.lists.property p ∧ s.lists.property p < m

/-- One more block: it wins only when it is smaller than the best so far. -/
theorem argmin_fits_concat (s : FreeArea) (cs : List ℕ) (n m d : ℕ) :
    (fits s (cs ++ [d]) n m).argmin s.lists.property =
      if n ≤ s.lists.property d ∧
          s.lists.property d < ((fits s cs n m).argmin s.lists.property).elim m s.lists.property
      then some d else (fits s cs n m).argmin s.lists.property := by
  rw [fits, List.filter_append, List.filter_singleton]
  by_cases hd : n ≤ s.lists.property d ∧ s.lists.property d < m
  · rw [decide_eq_true hd, cond_true, List.argmin_concat, ← fits]
    cases (fits s cs n m).argmin s.lists.property with
    | none => rw [Option.elim_none, if_pos hd]
    | some c => simp only [Option.elim_some, hd.1, true_and]
  · rw [decide_eq_false hd, cond_false, List.append_nil, ← fits, if_neg]
    cases hc : (fits s cs n m).argmin s.lists.property with
    | none => exact hd
    | some c =>
      have hfit := (List.mem_filter.mp (List.argmin_mem hc)).2
      simp only [decide_eq_true_eq] at hfit
      exact fun h => hd ⟨h.1, h.2.trans hfit.2⟩

/-- **Best fit**: the search returns the first of the smallest blocks with room enough. -/
theorem wp_findBest (hr : OnFreeList s.lists.links xs) :
    Act.wp (findBest fuel n m)
      (fun r s' => s' = s ∧ r = (fits s xs n m).argmin s.lists.property)
      (fun e => e = .spin ∧ fuel ≤ xs.length) s := by
  -- the blocks `cs` are passed, and `page` is the best of them
  refine Act.wp_loop
    (fun k b s' => s' = s ∧ ∃ cs ds, xs = cs ++ ds ∧ ds.length = k ∧
      b.1 = Links.before freeList (cs.map .pageLink) ∧
      b.2.2 = (fits s cs n m).argmin s.lists.property ∧
      b.2.1 = b.2.2.elim m s.lists.property)
    ?_ fuel xs.length _ s ⟨rfl, [], xs, rfl, rfl, rfl, rfl, rfl⟩ (fun h => ⟨rfl, h⟩)
  rintro k ⟨le, minSize, page⟩ s' ⟨rfl, cs, ds, rfl, rfl, rfl, hpage, hmin⟩
  dsimp only at hpage hmin
  subst hpage hmin
  rw [OnFreeList, List.map_append] at hr
  simp only [Act.wp_bind, Act.wp_get, listNext, hr.next_eq]
  cases ds with
  | nil =>
    simp only [List.map_nil, Links.after_nil, Act.wp_pure, Sum.elim_inr, List.append_nil]
    exact ⟨trivial, trivial⟩
  | cons d ds =>
    have hstep := argmin_fits_concat s' cs n m d
    simp only [List.map_cons, Links.after_cons, Act.wp_bind, Act.wp_get, Act.wp_ite, Act.wp_pure,
      Sum.elim_inl]
    refine ⟨fun hd => ⟨ds.length, by simp, trivial, cs ++ [d], ds, by simp, rfl, by simp, ?_, ?_⟩,
      fun hd => ⟨ds.length, by simp, trivial, cs ++ [d], ds, by simp, rfl, by simp, ?_, ?_⟩⟩
    · rw [hstep, if_pos hd]
    · rfl
    · rw [hstep, if_neg hd]
    · trivial

/-- A list in increasing order meets its smaller members first. -/
private theorem le_of_idxOf_le {l : List ℕ} (hl : l.Pairwise (· < ·)) {a b : ℕ} (ha : a ∈ l)
    (hb : b ∈ l) (hab : l.idxOf a ≤ l.idxOf b) : a ≤ b := by
  rw [← List.getElem_idxOf (List.idxOf_lt_length_iff.mpr ha),
    ← List.getElem_idxOf (List.idxOf_lt_length_iff.mpr hb)]
  rcases hab.eq_or_lt with heq | hlt
  · simp only [heq, le_refl]
  · exact (List.pairwise_iff_getElem.mp hl _ _ _ _ hlt).le

/-- **The block best fit is to find**: the lowest of the smallest blocks of at least `n` pages. -/
structure IsBest (s : FreeArea) (xs : List ℕ) (n p : ℕ) : Prop where
  mem : p ∈ xs
  fit : n ≤ s.lists.property p
  least : ∀ q ∈ xs, n ≤ s.lists.property q → s.lists.property p ≤ s.lists.property q
  lowest : ∀ q ∈ xs, s.lists.property q = s.lists.property p → p ≤ q

/-- A sentinel above every block leaves the search free to pick any block with room enough. -/
theorem isBest_of_mem_argmin (h : FreeList s xs) (hm : s.nrFree < m)
    (hp : p ∈ (fits s xs n m).argmin s.lists.property) : IsBest s xs n p := by
  have hfits : ∀ q ∈ xs, n ≤ s.lists.property q → q ∈ fits s xs n m := fun q hq hn =>
    List.mem_filter.mpr ⟨hq, by simpa using ⟨hn, (h.property_le hq).trans_lt hm⟩⟩
  have hlt : (fits s xs n m).Pairwise (· < ·) :=
    List.Pairwise.filter _ (h.sorted.imp fun hpq => hpq.1)
  have hmem := List.argmin_mem hp
  have hfit : n ≤ s.lists.property p ∧ s.lists.property p < m := by
    simpa using (List.mem_filter.mp hmem).2
  refine ⟨(List.mem_filter.mp hmem).1, hfit.1, fun q hq hn => ?_, fun q hq heq => ?_⟩
  · exact List.le_of_mem_argmin (hfits q hq hn) hp
  · have hq' := hfits q hq (heq ▸ hfit.1)
    exact le_of_idxOf_le hlt hmem hq' (List.index_of_argmin hp hq' heq.le)

/-- …and it comes back with nothing only when no block has. -/
theorem argmin_fits_eq_none_iff (h : FreeList s xs) (hm : s.nrFree < m) :
    (fits s xs n m).argmin s.lists.property = none ↔ ∀ q ∈ xs, s.lists.property q < n := by
  rw [List.argmin_eq_none, fits, List.filter_eq_nil_iff]
  refine forall₂_congr fun q hq => ?_
  have := (h.property_le hq).trans_lt hm
  simp only [decide_eq_true_eq]
  omega

/-! ## Allocation -/

/-- **What best-fit allocation is to do.**  Nothing, when no block has `n` pages; else take the
first `n` pages of the best block, and leave the rest of it in its place. -/
def Allocated (s : FreeArea) (xs : List ℕ) (n : ℕ) (r : Option ℕ) (s' : FreeArea) : Prop :=
  match r with
  | none => s' = s ∧ ∀ q ∈ xs, s.lists.property q < n
  | some p => IsBest s xs n p ∧ ∃ as bs, xs = as ++ p :: bs ∧
      FreeList s' (as ++ (if n < s.lists.property p then [p + n] else []) ++ bs) ∧
      s'.nrFree + n = s.nrFree ∧
      (∀ q, s'.lists.property q = if n < s.lists.property p ∧ q = p + n
        then s.lists.property p - n else s.lists.property q) ∧
      ∀ q, s'.lists.pageProperty q = if q = p then false
        else if n < s.lists.property p ∧ q = p + n then true else s.lists.pageProperty q

/-- Taking the best block leaves a well-formed free list. -/
theorem wp_takePages_best (h : FreeList s xs) (hp : IsBest s xs n p) (hn : 0 < n) :
    Act.wp (takePages p n) (fun _ s' => Allocated s xs n (some p) s') (fun _ => False) s := by
  obtain ⟨as, bs, rfl⟩ := List.append_of_mem hp.mem
  have hle := h.property_le hp.mem
  have hlt := h.nrFree_lt
  have hfit := hp.fit
  refine Act.wp_mono (wp_takePages h.ring fun hlt => h.sorted.notMem_inside (by omega) (by omega))
    ?_ (fun _ => id)
  rintro - s' ⟨hring, hnr, hprop, -, hhead⟩
  rw [u32_of_lt (by omega)] at hnr
  have hsz : ∀ q, s'.lists.property q = if n < s.lists.property p ∧ q = p + n
      then s.lists.property p - n else s.lists.property q := fun q => by
    rw [hprop q, u32_of_lt (by omega)]
  have hsub : Finset.Ico p (p + n) ⊆ freePages s (as ++ p :: bs) := fun q hq =>
    Blocks.mem_cells.mpr ⟨p, hp.mem, by rw [Finset.mem_Ico] at hq; omega⟩
  have hcard := Finset.card_sdiff_add_card_eq_card hsub
  rw [Nat.card_Ico, ← h.card] at hcard
  have hcells : freePages s' _ = freePages s (as ++ p :: bs) \ Finset.Ico p (p + n) :=
    h.sorted.cells_take hfit hsz
  exact ⟨hp, as, bs, rfl, .of_card hring (h.sorted.take hsz) (by rw [hcells]; omega) (by omega),
    by omega, hsz, hhead⟩

/-- **The search, with the sentinel the code computes.**  It finds the best block, unless `nr_free`
is the largest `unsigned int`: then the sentinel is zero. -/
theorem wp_bestFitAllocPages (h : FreeList s xs) (hn : 0 < n) (hlt : s.nrFree + 1 < 2 ^ 32) :
    Act.wp (bestFitAllocPages fuel n) (fun r s' => Allocated s xs n r s')
      (fun e => e = .spin ∧ fuel ≤ xs.length) s := by
  simp only [bestFitAllocPages, Act.wp_bind, Act.wp_require, Act.wp_get, Act.wp_ite, Act.wp_pure,
    u32_of_lt hlt]
  refine ⟨fun _ => ⟨fun hfew => ⟨rfl, fun q hq => (h.property_le hq).trans_lt hfew⟩, fun _ => ?_⟩,
    fun h => absurd hn h⟩
  refine Act.wp_mono (wp_findBest h.ring) ?_ (fun _ => id)
  rintro r s' ⟨rfl, rfl⟩
  cases hr : (fits s' xs n (s'.nrFree + 1)).argmin s'.lists.property with
  | none => exact ⟨rfl, (argmin_fits_eq_none_iff h (Nat.lt_succ_self _)).mp hr⟩
  | some p =>
    rw [Act.wp_bind]
    exact Act.wp_mono (wp_takePages_best h (isBest_of_mem_argmin h (Nat.lt_succ_self _) hr) hn)
      (fun _ _ => id) (fun _ => False.elim)

/-- A zero sentinel: no block is smaller. -/
theorem wp_bestFitAllocPages_full (h : FreeList s xs) (hn : 0 < n) (hfull : s.nrFree + 1 = 2 ^ 32) :
    Act.wp (bestFitAllocPages fuel n) (fun r s' => r = none ∧ s' = s)
      (fun e => e = .spin ∧ fuel ≤ xs.length) s := by
  simp only [bestFitAllocPages, Act.wp_bind, Act.wp_require, Act.wp_get, Act.wp_ite, Act.wp_pure,
    hfull]
  refine ⟨fun _ => ⟨fun _ => ⟨trivial, trivial⟩, fun _ => ?_⟩, fun h => absurd hn h⟩
  refine Act.wp_mono (wp_findBest h.ring) ?_ (fun _ => id)
  rintro r s' ⟨rfl, rfl⟩
  have hnil : fits s' xs n (u32 (2 ^ 32)) = [] := by
    rw [show u32 (2 ^ 32) = 0 from rfl, fits, List.filter_eq_nil_iff]
    simp
  rw [hnil]
  exact ⟨rfl, rfl⟩

/-- **Best-fit allocation, from any well-formed free list.**  It returns, and takes the front of the
lowest of the smallest blocks with room enough, unless `nr_free` is the largest `unsigned int` and
there is such a block. -/
theorem bestFitAllocPages_iff (h : FreeList s xs) (hn : 0 < n) (hfuel : xs.length < fuel) :
    (∃ r s', bestFitAllocPages fuel n s = .ok (r, s') ∧ Allocated s xs n r s') ↔
      s.nrFree + 1 < 2 ^ 32 ∨ ∀ p ∈ xs, s.lists.property p < n := by
  constructor
  · rintro ⟨r, s', hrun, hr⟩
    rcases (show s.nrFree + 1 ≤ 2 ^ 32 from h.nrFree_lt).lt_or_eq with hlt | hfull
    · exact .inl hlt
    · obtain ⟨rfl, rfl⟩ := Act.wp_of_ok (wp_bestFitAllocPages_full h hn hfull) hrun
      exact .inr hr.2
  · intro hcond
    have hwp : Act.wp (bestFitAllocPages fuel n) (fun r s' => Allocated s xs n r s')
        (fun e => e = .spin ∧ fuel ≤ xs.length) s := by
      rcases (show s.nrFree + 1 ≤ 2 ^ 32 from h.nrFree_lt).lt_or_eq with hlt | hfull
      · exact wp_bestFitAllocPages h hn hlt
      · refine Act.wp_mono (wp_bestFitAllocPages_full h hn hfull) ?_ (fun _ => id)
        rintro r s' ⟨rfl, rfl⟩
        exact ⟨rfl, hcond.resolve_left (by omega)⟩
    exact Act.wp_false_iff.mp (Act.wp_mono hwp (fun _ _ => id) fun e he => by omega)

/-- A free list of one block. -/
def oneBlock (p k : ℕ) : FreeArea :=
  ⟨⟨fun q => ⟨0, ⟨false, q = p⟩, if q = p then k else 0⟩,
    listAdd (listInit ⟨id, id⟩ freeList) freeList (.pageLink p)⟩, k⟩

theorem freeList_oneBlock (p : ℕ) {k : ℕ} (hk : k < 2 ^ 32) : FreeList (oneBlock p k) [p] where
  ring := @ring_listAdd _ _ _ _ _ [] [] (ring_listInit _ _) (by simp)
  sorted := List.pairwise_singleton _ _
  sum := by simp [oneBlock, PageLists.property]
  nrFree_lt := hk

/-- One page of a block of two. -/
theorem bestFitAllocPages_oneBlock : ∃ r s', bestFitAllocPages 2 1 (oneBlock 0 2) = .ok (r, s') ∧
    Allocated (oneBlock 0 2) [0] 1 r s' :=
  (bestFitAllocPages_iff (freeList_oneBlock 0 (by decide)) Nat.one_pos (by decide)).mpr
    (.inl (by decide))

/-- A free list of `2³² - 1` pages in one block, of which no page can be had. -/
theorem bestFitAllocPages_full : FreeList (oneBlock 0 (2 ^ 32 - 1)) [0] ∧
    ¬ ∃ fuel r s', bestFitAllocPages fuel 1 (oneBlock 0 (2 ^ 32 - 1)) = .ok (r, s') ∧
      Allocated (oneBlock 0 (2 ^ 32 - 1)) [0] 1 r s' := by
  have hlist := freeList_oneBlock 0 (show 2 ^ 32 - 1 < 2 ^ 32 by decide)
  refine ⟨hlist, ?_⟩
  rintro ⟨fuel, r, s', hrun, hr⟩
  obtain ⟨rfl, rfl⟩ := Act.wp_of_ok (wp_bestFitAllocPages_full hlist Nat.one_pos rfl) hrun
  have := hr.2 0 (by simp)
  simp [oneBlock, PageLists.property] at this

/-! ## Freeing -/

/-- **All possible merges are done**: no block is empty, and no two touch. -/
structure Coalesced (s : FreeArea) (xs : List ℕ) : Prop extends FreeList s xs where
  pos : ∀ p ∈ xs, 0 < s.lists.property p
  spaced : Blocks.Spaced s.lists.property xs

/-- **What a free is to do**: the pages join the free ones. -/
def Freed (s : FreeArea) (xs : List ℕ) (base n : ℕ) (s' : FreeArea) : Prop :=
  ∃ ys, Coalesced s' ys ∧
    freePages s' ys = freePages s xs ∪ Finset.Ico base (base + n) ∧ s'.nrFree = s.nrFree + n

/-- The pages of `[base, base + n)` are allocated: neither reserved nor the head of a block. -/
def Allotted (s : FreeArea) (base n : ℕ) : Prop :=
  ∀ q ∈ Finset.Ico base (base + n),
    s.lists.pageReserved q = false ∧ s.lists.pageProperty q = false

/-- The state of `best_fit_free_pages` when it comes to link the block in. -/
theorem wp_bestFitFreePages {Q : Unit → FreeArea → Prop} {E : Stop → Prop}
    (ha : Allotted s base n) (hn : 0 < n)
    (hlink : ∀ s₁, s₁.lists.links = s.lists.links → s₁.nrFree = u32 (s.nrFree + n) →
      (∀ q, s₁.lists.property q = if q = base then u32 n else s.lists.property q) →
      Act.wp (do linkBase fuel base; let base ← mergePrev base; mergeNext base) Q E s₁) :
    Act.wp (bestFitFreePages fuel base n) Q E s := by
  rw [bestFitFreePages, Act.wp_bind, Act.wp_require]
  refine ⟨fun _ => ?_, fun h => absurd hn h⟩
  rw [Act.wp_bind]
  refine Act.wp_mono (wp_resetPages base n s (fun q hq => (ha q hq).1) fun q hq => (ha q hq).2) ?_
    (fun _ => False.elim)
  rintro - s₁ ⟨hl, hnr, hprop, -, -⟩
  simp only [Act.wp_bind, wp_store, wp_setNrFree]
  have hwp := hlink ⟨(s₁.lists.setProperty base n).setPageProperty base true,
    u32 (s₁.nrFree + n)⟩ hl (by rw [hnr]) fun q => by
      rw [PageLists.property_setPageProperty, PageLists.property_setProperty, hprop]
  simpa only [Act.wp_bind] using hwp

/-- A range disjoint from every block heads none of them. -/
theorem notMem_of_disjoint (hpos : ∀ p ∈ xs, 0 < s.lists.property p) (hn : 0 < n)
    (hd : Disjoint (Finset.Ico base (base + n)) (freePages s xs)) : base ∉ xs := fun hb =>
  Finset.disjoint_left.mp hd (by simp [hn])
    (Blocks.mem_cells.mpr ⟨base, hb, le_rfl, by have := hpos base hb; omega⟩)

/-- **Between the steps of a free**: `pages` are the free pages, and only the block at `r` may touch
the next. -/
structure Merging (s : FreeArea) (xs : List ℕ) (pages : Finset ℕ) (count r : ℕ) : Prop
    extends FreeList s xs where
  pos : ∀ p ∈ xs, 0 < s.lists.property p
  spaced : Blocks.SpacedBut s.lists.property xs r
  pages_eq : freePages s xs = pages
  count_eq : s.nrFree = count

/-- Two neighbours that touch become one block. -/
theorem freeList_join {t : FreeArea} (h : FreeList s (as ++ p :: base :: bs))
    (hpos : ∀ q ∈ as ++ p :: base :: bs, 0 < s.lists.property q)
    (htouch : p + s.lists.property p = base) (hring : OnFreeList t.lists.links (as ++ p :: bs))
    (hnr : t.nrFree = s.nrFree) (hprop : ∀ q, t.lists.property q = if q = p
      then u32 (s.lists.property p + s.lists.property base) else s.lists.property q) :
    FreeList t (as ++ p :: bs) ∧ (∀ q ∈ as ++ p :: bs, 0 < t.lists.property q) ∧
      freePages t (as ++ p :: bs) = freePages s (as ++ p :: base :: bs) ∧
      ∀ q, t.lists.property q = if q = p
        then s.lists.property p + s.lists.property base else s.lists.property q := by
  have hlt := h.nrFree_lt
  have hsum := h.sum
  simp only [List.map_append, List.map_cons, List.sum_append, List.sum_cons] at hsum
  have hsz : ∀ q, t.lists.property q = if q = p
      then s.lists.property p + s.lists.property base else s.lists.property q := fun q => by
    rw [hprop q, u32_of_lt (by omega)]
  have hcells : freePages t _ = freePages s (as ++ p :: base :: bs) :=
    h.sorted.cells_merge htouch hsz
  refine ⟨.of_card hring (h.sorted.merge htouch hsz) (by rw [hcells, hnr, h.card]) (hnr ▸ hlt),
    fun q hq => ?_, hcells, hsz⟩
  have := hpos q (by simp at hq ⊢; tauto)
  rw [hsz q]
  split
  · have := hpos p (by simp)
    omega
  · exact this

/-- The last merge leaves no two blocks touching. -/
theorem wp_mergeNext_coalesced {pages : Finset ℕ} {count r : ℕ}
    (h : Merging s (as ++ r :: bs) pages count r) :
    Act.wp (mergeNext r)
      (fun _ s' => ∃ ys, Coalesced s' ys ∧ freePages s' ys = pages ∧ s'.nrFree = count)
      (fun _ => False) s := by
  refine Act.wp_mono (wp_mergeNext h.ring) ?_ (fun _ => id)
  rintro - s' (⟨rfl, hnext⟩ | ⟨p, bs', rfl, htouch, hring, hnr, hprop, -, -⟩)
  · exact ⟨_, ⟨h.toFreeList, h.pos, h.spaced.spaced h.sorted (h.pos r (by simp)) hnext⟩,
      h.pages_eq, h.count_eq⟩
  · obtain ⟨hlist, hpos, hcells, hsz⟩ := freeList_join h.toFreeList h.pos htouch hring hnr hprop
    exact ⟨_, ⟨hlist, hpos, h.spaced.merge h.sorted htouch hsz⟩, hcells.trans h.pages_eq,
      hnr.trans h.count_eq⟩

/-- **Linking the block in, and the first merge**: only the block it is in may touch the next. -/
theorem wp_mergePrev_merging {s₁ : FreeArea} (h : Coalesced s (as ++ bs)) (hn : 0 < n)
    (hd : Disjoint (Finset.Ico base (base + n)) (freePages s (as ++ bs)))
    (has : ∀ p ∈ as, p < base) (hbs : ∀ p ∈ bs, base < p) (hlt : s.nrFree + n < 2 ^ 32)
    (hring : OnFreeList s₁.lists.links (as ++ base :: bs)) (hnr : s₁.nrFree = s.nrFree + n)
    (hsz : ∀ q, s₁.lists.property q = if q = base then n else s.lists.property q) :
    Act.wp (mergePrev base)
      (fun r s' => ∃ as' bs', Merging s' (as' ++ r :: bs')
        (freePages s (as ++ bs) ∪ Finset.Ico base (base + n)) (s.nrFree + n) r)
      (fun _ => False) s₁ := by
  have hfresh := notMem_of_disjoint h.pos hn hd
  have hkeep : ∀ p ∈ as ++ bs, s₁.lists.property p = s.lists.property p := fun p hp => by
    rw [hsz, if_neg (ne_of_mem_of_not_mem hp hfresh)]
  have hcells : freePages s₁ _ = freePages s (as ++ bs) ∪ Finset.Ico base (base + n) :=
    Blocks.cells_insert has hbs hsz
  have hsorted := h.sorted.insert h.pos hn has hbs hd hsz
  have hlist : FreeList s₁ (as ++ base :: bs) := by
    refine .of_card hring hsorted ?_ (by omega)
    rw [hcells, Finset.card_union_of_disjoint hd.symm, Nat.card_Ico, hnr, h.card]
    omega
  have hpos : ∀ p ∈ as ++ base :: bs, 0 < s₁.lists.property p := fun p hp => by
    rw [hsz]
    split
    · exact hn
    · exact h.pos p (by simp at hp ⊢; tauto)
  refine Act.wp_mono (wp_mergePrev hring) ?_ (fun _ => id)
  rintro r s' (⟨rfl, rfl, hprev⟩ | ⟨as', p, rfl, htouch, rfl, hring', hnr', hprop, -, -⟩)
  · exact ⟨as, bs, hlist, hpos, h.spaced.insert hsorted hkeep hprev, hcells, hnr⟩
  · simp only [List.append_assoc, List.singleton_append] at hlist hpos hcells h ⊢
    obtain ⟨hlist', hpos', hcells', hsz'⟩ := freeList_join hlist hpos htouch hring' hnr' hprop
    refine ⟨as', bs, hlist', hpos', h.spaced.grow fun q hq hne => ?_, hcells'.trans hcells,
      hnr'.trans hnr⟩
    rw [hsz' q, if_neg hne]
    exact hkeep q (by simpa using hq)

/-- **A free below some block** gives the pages back and does every merge. -/
theorem wp_bestFitFreePages_below (h : Coalesced s xs) (hn : 0 < n) (ha : Allotted s base n)
    (hd : Disjoint (Finset.Ico base (base + n)) (freePages s xs))
    (hlast : xs = [] ∨ ∃ p ∈ xs, base < p) (hlt : s.nrFree + n < 2 ^ 32) :
    Act.wp (bestFitFreePages fuel base n) (fun _ s' => Freed s xs base n s')
      (fun e => e = .spin ∧ fuel ≤ xs.length) s := by
  have hfresh := notMem_of_disjoint h.pos hn hd
  refine wp_bestFitFreePages ha hn fun s₁ hl hnr hprop => ?_
  rw [u32_of_lt hlt] at hnr
  rw [u32_of_lt (by omega)] at hprop
  obtain ⟨as, bs, rfl, has, hbs⟩ := Blocks.exists_split h.sorted hfresh
  have hne : bs = [] → as = [] := by
    rintro rfl
    rcases hlast with hnil | ⟨p, hp, hlt⟩
    · simpa using hnil
    · rw [List.append_nil] at hp
      exact absurd (has p hp) (by omega)
  rw [Act.wp_bind]
  refine Act.wp_mono (wp_linkBase (show OnFreeList _ (as ++ bs) from hl ▸ h.ring) hfresh has
    (fun p hp => hbs p (List.mem_of_mem_head? hp)) hne) ?_
    fun e he => ⟨he.1, he.2.trans (by simp)⟩
  rintro - s₂ ⟨l, rfl, hring⟩
  rw [Act.wp_bind]
  refine Act.wp_mono (wp_mergePrev_merging h hn hd has hbs hlt hring (by exact hnr)
    (by exact hprop)) ?_ (fun _ => False.elim)
  rintro r s₃ ⟨as', bs', h₃⟩
  exact Act.wp_mono (wp_mergeNext_coalesced h₃) (fun _ _ => id) (fun _ => False.elim)

/-- **A free above every block** links the block to itself. -/
theorem wp_bestFitFreePages_above (h : Coalesced s xs) (hn : 0 < n) (ha : Allotted s base n)
    (hne : xs ≠ []) (hlast : ∀ p ∈ xs, p < base) (hlt : s.nrFree + n < 2 ^ 32) :
    Act.wp (bestFitFreePages fuel base n)
      (fun _ s' => s'.lists.links.prev freeList = .pageLink base ∧
        s'.lists.links.prev (.pageLink base) = .pageLink base)
      (fun e => e = .spin) s := by
  have hfresh : base ∉ xs := fun hb => lt_irrefl _ (hlast base hb)
  refine wp_bestFitFreePages ha hn fun s₁ hl _ hprop => ?_
  rw [Act.wp_bind]
  refine Act.wp_mono (wp_linkBase_tail (hl ▸ h.ring) hfresh hne hlast) ?_ (fun _ => id)
  rintro - s₂ ⟨l, rfl, hprev, hnext, hhd⟩
  have hself : ¬ base + s₁.lists.property base = base := by
    rw [hprop base, if_pos rfl, u32_of_lt (by omega)]
    omega
  simp only [mergePrev, mergeNext, listPrev, listNext, Act.wp_bind, Act.wp_get,
    PageLists.links_mapLinks, PageLists.property_mapLinks, hprev, hself, if_false, Act.wp_pure,
    hnext]
  exact ⟨hhd, trivial⟩

/-- **Best-fit freeing, from any well-formed free list without adjacent blocks.**  It returns with
the pages free and every merge done, exactly when the list is empty or some block lies above them,
and `nr_free` has room for them. -/
theorem bestFitFreePages_iff (h : Coalesced s xs) (hn : 0 < n) (ha : Allotted s base n)
    (hd : Disjoint (Finset.Ico base (base + n)) (freePages s xs)) (hfuel : xs.length < fuel) :
    (∃ s', bestFitFreePages fuel base n s = .ok ((), s') ∧ Freed s xs base n s') ↔
      (xs = [] ∨ ∃ p ∈ xs, base < p) ∧ s.nrFree + n < 2 ^ 32 := by
  constructor
  · rintro ⟨s', hrun, ys, hys, -, hnr⟩
    have hlt : s.nrFree + n < 2 ^ 32 := hnr ▸ hys.nrFree_lt
    refine ⟨?_, hlt⟩
    by_contra hlast
    rw [not_or, not_exists] at hlast
    have hbelow : ∀ p ∈ xs, p < base := fun p hp => by
      have := mt (And.intro hp) (hlast.2 p)
      have := ne_of_mem_of_not_mem hp (notMem_of_disjoint h.pos hn hd)
      omega
    obtain ⟨hhead, hself⟩ :=
      Act.wp_of_ok (wp_bestFitFreePages_above h hn ha hlast.1 hbelow hlt) hrun
    exact not_onFreeList_of_self hhead hself hys.ring
  · rintro ⟨hlast, hlt⟩
    have hwp : Act.wp (bestFitFreePages fuel base n) (fun _ s' => Freed s xs base n s')
        (fun _ => False) s :=
      Act.wp_mono (wp_bestFitFreePages_below h hn ha hd hlast hlt) (fun _ _ => id)
        fun e he => by omega
    obtain ⟨⟨⟩, s', hrun, hs'⟩ := Act.wp_false_iff.mp hwp
    exact ⟨s', hrun, hs'⟩

theorem coalesced_oneBlock (p : ℕ) {k : ℕ} (hk : k < 2 ^ 32) (hpos : 0 < k) :
    Coalesced (oneBlock p k) [p] where
  toFreeList := freeList_oneBlock p hk
  pos := by simpa [oneBlock, PageLists.property] using hpos
  spaced := by simpa [Blocks.Spaced, oneBlock, PageLists.property] using hpos.ne'

/-- Page 0, freed below the block at page 1. -/
theorem bestFitFreePages_oneBlock : ∃ s', bestFitFreePages 2 0 1 (oneBlock 1 1) = .ok ((), s') ∧
    Freed (oneBlock 1 1) [1] 0 1 s' :=
  (bestFitFreePages_iff (coalesced_oneBlock 1 (by decide) Nat.one_pos) Nat.one_pos
    (by simp [Allotted, oneBlock, PageLists.pageReserved, PageLists.pageProperty])
    (by simp [freePages, oneBlock, PageLists.property]) (by decide)).mpr
    ⟨.inr ⟨1, by simp, by decide⟩, by decide⟩

/-- Page 1, freed above the block at page 0: it is linked to itself. -/
theorem bestFitFreePages_above : Coalesced (oneBlock 0 1) [0] ∧ Allotted (oneBlock 0 1) 1 1 ∧
    Disjoint (Finset.Ico 1 2) (freePages (oneBlock 0 1) [0]) ∧
    ¬ ∃ fuel s', bestFitFreePages fuel 1 1 (oneBlock 0 1) = .ok ((), s') ∧
      Freed (oneBlock 0 1) [0] 1 1 s' := by
  have hlist := coalesced_oneBlock 0 (by decide) Nat.one_pos
  have ha : Allotted (oneBlock 0 1) 1 1 := by
    simp [Allotted, oneBlock, PageLists.pageReserved, PageLists.pageProperty]
  refine ⟨hlist, ha, by simp [freePages, oneBlock, PageLists.property], ?_⟩
  rintro ⟨fuel, s', hrun, ys, hys, -⟩
  obtain ⟨hhead, hself⟩ := Act.wp_of_ok
    (wp_bestFitFreePages_above hlist Nat.one_pos ha (by simp) (by simp) (by decide)) hrun
  exact not_onFreeList_of_self hhead hself hys.ring

end UCore.BestFitPmm
