import UCore.Mm.SlubRun

/-!
# Mm/SlubPmm — the SLUB allocator as a page manager

    alloc_pages(1) ──▸ slub_alloc(PGSIZE - 16) ──▸ no cache is for 4080 bytes ──▸ NULL

`slub_pmm_manager` hands out pages as objects of `slub_alloc`.  The largest cache is for 2048 bytes,
so every request comes back with nothing, however many pages are free, and no page is ever handed
out or taken back.
-/

namespace UCore.Slub

/-! ## The code -/

/-- `slub_alloc_pages`; `none` is `NULL`. -/
def slubAllocPages (m : KvaMap) (n : ℕ) : Call (Option ℕ) := do
  if n > 1 then return none
  let obj ← slubAlloc m (PGSIZE - OBJECT_SIZE)
  match obj with
  | none => return none
  | some obj => return some (m.kva2page obj)

/-- `slub_free_pages`. -/
def slubFreePages (m : KvaMap) (fuel base n : ℕ) : Call Unit := do
  if n > 1 then return ()
  slubFree m fuel (m.page2kva base) (PGSIZE - OBJECT_SIZE)

/-- `slub_nr_free_pages`. -/
def slubNrFreePages : Call ℕ := do return (← get).nrFree

/-! ## The abstract manager -/

/-- **A page manager**: the pages that are free, and those handed out. -/
structure Manager where
  free : Finset ℕ
  out : Finset ℕ

namespace Manager

/-- No page is free or handed out. -/
def empty : Manager := ⟨∅, ∅⟩

/-- The pages from `base` on become free. -/
def give (a : Manager) (base n : ℕ) : Manager := ⟨a.free ∪ Finset.Ico base (base + n), a.out⟩

/-- The pages from `p` on are handed out. -/
def handOut (a : Manager) (p n : ℕ) : Manager :=
  ⟨a.free \ Finset.Ico p (p + n), a.out ∪ Finset.Ico p (p + n)⟩

/-- The pages from `p` on are taken back. -/
def takeBack (a : Manager) (p n : ℕ) : Manager :=
  ⟨a.free ∪ Finset.Ico p (p + n), a.out \ Finset.Ico p (p + n)⟩

end Manager

/-- **A run**: calls through the interface of `pmm_manager`, from `slub_init` on, with the pages that
are free and those handed out. -/
inductive PmmRun (m : KvaMap) : SlubAllocator → Manager → Prop
  | init {s t : SlubAllocator} :
      s.initialized = false → slubInit s = .ok ((), t) → PmmRun m t .empty
  | initAgain {s t : SlubAllocator} {a : Manager} :
      PmmRun m s a → slubInit s = .ok ((), t) → PmmRun m t a
  | initMemmap {s t : SlubAllocator} {a : Manager} {fuel base n : ℕ} :
      PmmRun m s a → Disjoint (Finset.Ico base (base + n)) (a.free ∪ a.out) →
      slubInitMemmap fuel base n s = .ok ((), t) → PmmRun m t (a.give base n)
  | alloc {s t : SlubAllocator} {a : Manager} {n p : ℕ} :
      PmmRun m s a → slubAllocPages m n s = .ok (some p, t) → PmmRun m t (a.handOut p n)
  | allocNull {s t : SlubAllocator} {a : Manager} {n : ℕ} :
      PmmRun m s a → slubAllocPages m n s = .ok (none, t) → PmmRun m t a
  | free {s t : SlubAllocator} {a : Manager} {fuel p n : ℕ} :
      PmmRun m s a → Finset.Ico p (p + n) ⊆ a.out → slubFreePages m fuel p n s = .ok ((), t) →
      PmmRun m t (a.takeBack p n)

/-- **What `alloc_pages(1)` is to do**: nothing when no page is free, else hand one out. -/
def AllocOk (s t : SlubAllocator) (a : Manager) : Option ℕ → Prop
  | none => a.free = ∅
  | some p => p ∈ a.free ∧ p ∉ a.out ∧ t.nrFree + 1 = s.nrFree

/-- **The page manager as a pool of single pages**: `alloc_pages(1)` returns and does what it is to do,
and `free_pages(p, 1)` makes a page that is handed out free again. -/
structure PoolOk (m : KvaMap) (s : SlubAllocator) (a : Manager) : Prop where
  alloc : ∃ r t, slubAllocPages m 1 s = .ok (r, t) ∧ AllocOk s t a r
  free : ∀ p ∈ a.out, ∀ fuel t, slubFreePages m fuel p 1 s = .ok ((), t) → t.nrFree = s.nrFree + 1

/-! ## Runs -/

variable {m : KvaMap} {s t : SlubAllocator} {a : Manager} {fuel base n p : ℕ} {E : Stop → Prop}

/-- No cache is for an object that fills a page. -/
theorem slubSizeToIndex_page : slubSizeToIndex (PGSIZE - OBJECT_SIZE) = none := by decide

/-- **`slub_alloc_pages` never hands out a page.** -/
theorem wp_slubAllocPages (hs : s.initialized = true) :
    Act.wp (slubAllocPages m n) (fun r t => r = none ∧ t = s) E s := by
  have halloc : Act.wp (slubAlloc m (PGSIZE - OBJECT_SIZE)) (fun r t => r = none ∧ t = s) E s := by
    rw [slubAlloc, slubSizeToIndex_page]
    dsimp only
    simp only [Act.wp_bind, Act.wp_get, Act.wp_ite, hs, not_true_eq_false, false_implies,
      not_false_eq_true, true_implies, true_and, Act.wp_pure]
  rw [slubAllocPages]
  simp only [Act.wp_ite, Act.wp_pure, Act.wp_bind]
  refine ⟨fun _ => ⟨trivial, trivial⟩, fun _ => Act.wp_mono halloc ?_ fun _ => id⟩
  rintro r t ⟨rfl, rfl⟩
  exact ⟨rfl, rfl⟩

/-- **Two states with the same count of free pages**, one of them initialised when the other is. -/
def SameCount (s t : SlubAllocator) : Prop := t.nrFree = s.nrFree ∧ t.initialized = s.initialized

/-- Linking a page in moves no count. -/
theorem wp_linkPage_count (p : ℕ) :
    Act.wp (linkPage fuel p) (fun _ => SameCount s) (fun _ => True) s := by
  rw [linkPage, Act.wp_bind, Act.wp_get, Act.wp_ite]
  refine ⟨fun _ => ⟨rfl, rfl⟩, fun _ => Act.wp_loop_keep (fun le t ht => ?_) _ _ _ ⟨rfl, rfl⟩⟩
  rw [Act.wp_bind, Act.wp_get]
  cases listNext t.lists.links le with
  | head j => exact ht
  | pageLink q =>
    dsimp only
    rw [Act.wp_ite]
    refine ⟨fun _ => ht, fun _ => ?_⟩
    rw [Act.wp_bind, Act.wp_get, Act.wp_ite]
    exact ⟨fun _ => ht, fun _ => ht⟩

/-- …nor does the loop of `slub_init_memmap`. -/
theorem wp_initPages_count (p n : ℕ) (s : SlubAllocator) :
    Act.wp (initPages fuel p n) (fun _ => SameCount s) (fun _ => True) s := by
  induction n generalizing p s with
  | zero => exact ⟨rfl, rfl⟩
  | succ n ih =>
    rw [initPages]
    simp only [Act.wp_bind, Act.wp_get, Act.wp_require, wp_store]
    refine ⟨fun _ => Act.wp_mono (wp_linkPage_count p) (fun _ t ht => ?_) fun _ => id,
      fun _ => trivial⟩
    exact Act.wp_mono (ih (p + 1) t) (fun _ u hu => ⟨hu.1.trans ht.1, hu.2.trans ht.2⟩) fun _ => id

/-- **`slub_init_memmap`** counts its pages. -/
theorem wp_slubInitMemmap_count :
    Act.wp (slubInitMemmap fuel base n)
      (fun _ t => t.nrFree = s.nrFree + n ∧ t.initialized = s.initialized) (fun _ => True) s := by
  rw [slubInitMemmap, Act.wp_bind]
  refine Act.wp_mono (wp_initPages_count base n s) (fun _ t ht => ?_) fun _ => id
  simp only [Act.wp_bind, wp_store, Act.wp_modify]
  exact ⟨by rw [ht.1], ht.2⟩

/-- **`slub_free_pages` takes no page back.** -/
theorem wp_slubFreePages : Act.wp (slubFreePages m fuel p n) (fun _ t => t = s) E s := by
  rw [slubFreePages, slubFree, slubSizeToIndex_page, Act.wp_ite]
  exact ⟨fun _ => rfl, fun _ => rfl⟩

/-- **In every run** the count is that of the free pages, and no page is handed out. -/
theorem PmmRun.count (h : PmmRun m s a) :
    s.initialized = true ∧ s.nrFree = a.free.card ∧ a.out = ∅ := by
  induction h with
  | init hs hrun =>
    obtain ⟨hinit, -, -, hcount, -⟩ := Act.wp_of_ok (wp_slubInit (E := fun _ => True) hs) hrun
    exact ⟨hinit, hcount, rfl⟩
  | @initAgain s t a _ hrun ih =>
    have hsame : Act.wp slubInit (fun _ t => t = s) (fun _ => True) s := by
      rw [slubInit]
      simp only [Act.wp_bind, Act.wp_get, Act.wp_ite, ih.1, true_implies, not_true_eq_false,
        false_implies, Act.wp_pure, and_true]
    obtain rfl := Act.wp_of_ok hsame hrun
    exact ih
  | initMemmap _ hd hrun ih =>
    obtain ⟨hinit, hcount, hout⟩ := ih
    obtain ⟨ht, hi⟩ := Act.wp_of_ok wp_slubInitMemmap_count hrun
    rw [hout, Finset.union_empty] at hd
    refine ⟨hi.trans hinit, ?_, hout⟩
    rw [Manager.give, Finset.card_union_of_disjoint hd.symm, Nat.card_Ico, ht, hcount]
    omega
  | alloc _ hrun ih =>
    exact absurd (Act.wp_of_ok (wp_slubAllocPages (E := fun _ => True) ih.1) hrun).1 (by simp)
  | allocNull _ hrun ih =>
    obtain ⟨-, rfl⟩ := Act.wp_of_ok (wp_slubAllocPages (E := fun _ => True) ih.1) hrun
    exact ih
  | free _ hsub hrun ih =>
    obtain ⟨hinit, hcount, hout⟩ := ih
    obtain rfl := Act.wp_of_ok (wp_slubFreePages (E := fun _ => True)) hrun
    rw [hout, Finset.subset_empty] at hsub
    refine ⟨hinit, ?_, ?_⟩
    · rw [Manager.takeBack, hsub, Finset.union_empty, hcount]
    · rw [Manager.takeBack, hout, Finset.empty_sdiff]

/-- **The page manager over whole runs.**  In every run `nr_free` counts the free pages, and the
manager is a pool of single pages exactly as long as no page is free. -/
theorem slubPmm_run (h : PmmRun m s a) :
    s.nrFree = a.free.card ∧ (PoolOk m s a ↔ a.free = ∅) := by
  obtain ⟨hinit, hcount, hout⟩ := h.count
  refine ⟨hcount, fun hpool => ?_, fun hfree => ⟨?_, by simp [hout]⟩⟩
  · obtain ⟨r, t, hrun, hr⟩ := hpool.alloc
    obtain ⟨rfl, -⟩ := Act.wp_of_ok (wp_slubAllocPages (E := fun _ => True) hinit) hrun
    exact hr
  · obtain ⟨r, t, hrun, rfl, -⟩ := Act.wp_false_iff.mp (@wp_slubAllocPages m s 1 _ hinit)
    exact ⟨none, t, hrun, hfree⟩

/-- Before any page is given to it, the manager has none to hand out. -/
theorem slubPmm_run_init : ∃ t, slubInit bootSlub = .ok ((), t) ∧ PoolOk bootMap t .empty := by
  obtain ⟨⟨⟩, t, hrun, -⟩ := Act.wp_false_iff.mp
    (@wp_slubInit bootSlub _ (show bootSlub.initialized = false from rfl))
  have hinit : PmmRun bootMap t .empty := .init (show bootSlub.initialized = false from rfl) hrun
  exact ⟨t, hrun, (slubPmm_run hinit).2.mpr rfl⟩

/-- Four free pages, of which none can be had. -/
theorem slubPmm_run_four : ∃ t, PmmRun bootMap t (Manager.empty.give 1 4) ∧ t.nrFree = 4 ∧
    ¬ PoolOk bootMap t (Manager.empty.give 1 4) := by
  obtain ⟨⟨⟩, t, hboot, -⟩ := Act.exists_of_test (m := slubInit >>= fun _ => slubInitMemmap 5 1 4)
    (s := bootSlub) (fun _ _ => true) (by decide +kernel)
  obtain ⟨⟨⟩, s, h₀, h₁⟩ := Act.exists_of_bind hboot
  have hinit : PmmRun bootMap s .empty := .init (show bootSlub.initialized = false from rfl) h₀
  have hrun := hinit.initMemmap (by simp [Manager.empty]) h₁
  obtain ⟨hi, hcount, -⟩ := hrun.count
  refine ⟨t, hrun, hcount.trans rfl, fun hpool => ?_⟩
  obtain ⟨r, u, hcall, hr⟩ := hpool.alloc
  obtain ⟨rfl, -⟩ := Act.wp_of_ok (wp_slubAllocPages (E := fun _ => True) hi) hcall
  exact absurd (show (Manager.empty.give 1 4).free = ∅ from hr) (by decide)

end UCore.Slub
