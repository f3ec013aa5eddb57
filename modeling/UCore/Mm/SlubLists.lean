import UCore.Mm.SlubRun

/-!
# Mm/SlubLists — what the slab lists say of the slabs

    cache->free_list ──▸ a ──▸ b ──▸ …        a and b in one slab, or in two

`slub_alloc` moves the current slab to `full_slabs` when the free list of the whole cache has run
out, whatever slab the object came from.  As long as every object taken leaves another free object
in its slab, or none in the cache, the lists are right; the first one that does not leaves a full
slab on `partial_slabs`.
-/

namespace UCore.Slub

variable {m : KvaMap} {s t : SlubAllocator} {E : Stop → Prop} {fuel base n i j p page a b k size : ℕ}
  {live : Live} {free : List ℕ} {on on' : SlubList → List ℕ} {objs : ℕ → List ℕ}

/-! ## What the lists are to say -/

/-- `page` is on the list `j`. -/
def OnList (s : SlubAllocator) (j : SlubList) (page : ℕ) : Prop :=
  ∃ xs, s.lists.links.Ring (.head j) xs ∧ .pageLink page ∈ xs

/-- `page` is on `slub_free_list`. -/
def OnPool (s : SlubAllocator) (page : ℕ) : Prop :=
  ∃ xs, s.lists.links.Front freeList xs ∧ .pageLink page ∈ xs

/-- `a` is on the free list of the cache `i`. -/
def FreeObject (s : SlubAllocator) (i a : ℕ) : Prop :=
  ∃ xs, Thread (fun a => (s.object a).next) (s.sizeCaches i).freeList xs ∧ a ∈ xs

/-- The `k`-th object of the slab `page` of the cache `i` is live. -/
def ObjectLive (m : KvaMap) (s : SlubAllocator) (live : Live) (i page k : ℕ) : Prop :=
  live (m.page2kva page + k * (s.sizeCaches i).actualSize + OBJECT_SIZE) ≠ none

/-- **The slab lists tell the truth**: a page that is not free is on one list of one cache, where
the objects of that cache lie; the full list holds the slabs whose objects are all live; and the
current slab has a free object. -/
structure Truthful (m : KvaMap) (base n : ℕ) (s : SlubAllocator) (live : Live) : Prop where
  listed : ∀ page, base ≤ page → page < base + n → ¬ OnPool s page →
    ∃! j, j ∈ slabLists ∧ OnList s j page
  live_mem : ∀ p size, live p = some size → ∃ i page, slubSizeToIndex size = some i ∧
    SlabPage s i page ∧ m.page2kva page ≤ p ∧ p < m.page2kva page + PGSIZE
  free_mem : ∀ i < SLUB_SIZE_NUM, ∀ a, FreeObject s i a → ∃ page,
    SlabPage s i page ∧ m.page2kva page ≤ a ∧ a < m.page2kva page + PGSIZE
  full : ∀ i < SLUB_SIZE_NUM, ∀ page, SlabPage s i page →
    (OnList s (.fullSlabs i) page ↔ ∀ k < (s.sizeCaches i).objectNum, ObjectLive m s live i page k)
  current : ∀ i < SLUB_SIZE_NUM, ∀ page, (s.sizeCaches i).slabPage = some page →
    SlabPage s i page ∧ ∃ k < (s.sizeCaches i).objectNum, ¬ ObjectLive m s live i page k

/-- **The first free object is not the last one of its slab**, unless it is the last of its cache. -/
def Untangled (m : KvaMap) (s : SlubAllocator) (size : ℕ) : Prop :=
  ∀ i a, slubSizeToIndex size = some i → (s.sizeCaches i).freeList = some a →
    (s.object a).next = none ∨
      ∃ b, b ≠ a ∧ FreeObject s i b ∧ slubObjectToPage m b = slubObjectToPage m a

/-- **A run**: `slub_init`, one `slub_init_memmap`, and then calls of `slub_alloc` that `guard` allows,
of `slub_free` on live objects with the size they were asked for, and writes. -/
inductive RunWith (m : KvaMap) (base n : ℕ) (guard : SlubAllocator → ℕ → Prop) :
    SlubAllocator → Live → Prop
  | boot {s t : SlubAllocator} {fuel : ℕ} :
      s.initialized = false → (slubInit >>= fun _ => slubInitMemmap fuel base n) s = .ok ((), t) →
      RunWith m base n guard t fun _ => none
  | alloc {s t : SlubAllocator} {live : Live} {size p : ℕ} :
      RunWith m base n guard s live → guard s size → slubAlloc m size s = .ok (some p, t) →
      RunWith m base n guard t (Function.update live p (some size))
  | allocNull {s t : SlubAllocator} {live : Live} {size : ℕ} :
      RunWith m base n guard s live → slubAlloc m size s = .ok (none, t) →
      RunWith m base n guard t live
  | free {s t : SlubAllocator} {live : Live} {fuel size p : ℕ} :
      RunWith m base n guard s live → live p = some size → slubFree m fuel p size s = .ok ((), t) →
      RunWith m base n guard t (Function.update live p none)
  | write {s : SlubAllocator} {live : Live} (object : ℕ → SlubObject) :
      RunWith m base n guard s live →
      (∀ a, (∀ b ∈ Finset.Ico a (a + OBJECT_SIZE), ¬ Writable m s live b) → object a = s.object a) →
      RunWith m base n guard { s with object := object } live

/-! ## The invariant -/

/-- **What the lists say**, of the lists `free`, `on` and `objs` the links run through. -/
structure Told (m : KvaMap) (base n : ℕ) (s : SlubAllocator) (free : List ℕ)
    (on : SlubList → List ℕ) (objs : ℕ → List ℕ) : Prop where
  covered : ∀ page, base ≤ page → page < base + n → page ∈ free ∨ ∃ j ∈ slabLists, page ∈ on j
  full : ∀ i < SLUB_SIZE_NUM, ∀ page, Owns on i page →
    (page ∈ on (.fullSlabs i) ↔ ∀ a ∈ objs i, a ∉ slots m i page)
  current : ∀ i < SLUB_SIZE_NUM, ∀ page, (s.sizeCaches i).slabPage = some page →
    ∃ a ∈ objs i, a ∈ slots m i page
  ready : ∀ i < SLUB_SIZE_NUM, (s.sizeCaches i).slabPage = none → objs i = []

namespace Kept

theorem onList_iff (h : Kept m base n s live free on objs) {j : SlubList} (hj : j ∈ slabLists) :
    OnList s j page ↔ page ∈ on j := by
  have hring := h.pages.slabs.ring j hj
  refine ⟨fun ⟨xs, hxs, hmem⟩ => ?_, fun hp => ⟨_, hring, pageLink_mem_iff.mpr hp⟩⟩
  rw [hxs.unique hring] at hmem
  exact pageLink_mem_iff.mp hmem

theorem freeObject_iff (h : Kept m base n s live free on objs) (hi : i < SLUB_SIZE_NUM) :
    FreeObject s i a ↔ a ∈ objs i := by
  have hthread := h.objects.thread i hi
  exact ⟨fun ⟨_, hxs, hmem⟩ => hthread.unique hxs ▸ hmem, fun ha => ⟨_, hthread, ha⟩⟩

/-- **All objects of a slab are live** when none of them is on the free list. -/
theorem allLive_iff (h : Kept m base n s live free on objs) (hi : i < SLUB_SIZE_NUM)
    (ho : Owns on i page) :
    (∀ k < (s.sizeCaches i).objectNum, ObjectLive m s live i page k) ↔
      ∀ a ∈ objs i, a ∉ slots m i page := by
  simp only [ObjectLive, h.objects.num i hi page ho, h.objects.stride i hi]
  constructor
  · intro hlive a ha hslot
    obtain ⟨k, hk, rfl⟩ := mem_slots.mp hslot
    exact hlive k hk ((h.objects.mem_objs i hi _).mp ha).2
  · intro hnone k hk hlive
    exact hnone _ ((h.objects.mem_objs i hi _).mpr ⟨⟨page, k, ho, hk, rfl⟩, hlive⟩)
      (mem_slots.mpr ⟨k, hk, rfl⟩)

/-- An object is in one slab. -/
theorem page_unique (hm : Mapped m base n) (h : Kept m base n s live free on objs)
    (hi : i < SLUB_SIZE_NUM) {q : ℕ} (hp : Owns on i page) (hq : Owns on i q)
    (ha : a ∈ slots m i page) (ha' : a ∈ slots m i q) : page = q := by
  obtain ⟨k, hk, rfl⟩ := mem_slots.mp ha
  obtain ⟨l, hl, heq⟩ := mem_slots.mp ha'
  have := slot_bounds hi hk
  have := slot_bounds hi hl
  have := lt_strideOf hi
  by_contra hne
  have := hm.apart (h.pages.owns_mem hi hp) (h.pages.owns_mem hi hq) hne
  omega

/-- A free object is in a slab of its cache. -/
theorem owner_of_mem (h : Kept m base n s live free on objs) (hi : i < SLUB_SIZE_NUM)
    (ha : a ∈ objs i) : ∃ page, Owns on i page ∧ a ∈ slots m i page := by
  obtain ⟨page, k, ho, hk, rfl⟩ := ((h.objects.mem_objs i hi a).mp ha).1
  exact ⟨page, ho, mem_slots.mpr ⟨k, hk, rfl⟩⟩

/-- A page is not both full and half-full. -/
theorem not_full (h : Kept m base n s live free on objs) (hi : i < SLUB_SIZE_NUM)
    (hp : page ∈ on (.halfSlabs i)) : page ∉ on (.fullSlabs i) := fun hf =>
  absurd (h.pages.list_unique (half_mem hi) (full_mem hi) hp hf) (by simp)

/-- **The lists, read through the links.** -/
theorem truthful (hm : Mapped m base n) (h : Kept m base n s live free on objs)
    (ht : Told m base n s free on objs) : Truthful m base n s live where
  listed page hlo hhi hpool := by
    have hfree : page ∉ free := fun hp => hpool ⟨_, h.pages.pool, pageLink_mem_iff.mpr hp⟩
    obtain ⟨j, hj, hp⟩ := (ht.covered page hlo hhi).resolve_left hfree
    refine ⟨j, ⟨hj, (h.onList_iff hj).mpr hp⟩, fun k hk => ?_⟩
    exact h.pages.list_unique hk.1 hj ((h.onList_iff hk.1).mp hk.2) hp
  live_mem p size hp := by
    obtain ⟨i, page, hidx, hslab, hlo, hhi⟩ := (h.sound hm).granted p size hp
    obtain ⟨_, a, hidx', hi, ha, rfl, hfit⟩ := h.slot_of_live hp
    obtain rfl := Option.some.inj (hidx.symm.trans hidx')
    obtain ⟨q, ho, hqlo, hqhi⟩ := slot_page hi ha
    have := lt_strideOf hi
    exact ⟨i, q, hidx, (h.slabPage_iff hi).mpr ho, by omega, by change _ < _ + 4096; omega⟩
  free_mem i hi a ha := by
    obtain ⟨q, ho, hlo, hhi⟩ :=
      slot_page hi ((h.objects.mem_objs i hi a).mp ((h.freeObject_iff hi).mp ha)).1
    have := lt_strideOf hi
    exact ⟨q, (h.slabPage_iff hi).mpr ho, hlo, by change _ < _ + 4096; omega⟩
  full i hi page hp := by
    have ho := (h.slabPage_iff hi).mp hp
    rw [h.onList_iff (full_mem hi), h.allLive_iff hi ho, ht.full i hi page ho]
  current i hi page hp := by
    have ho : Owns on i page := .inl (h.objects.current i hi page hp)
    refine ⟨(h.slabPage_iff hi).mpr ho, ?_⟩
    obtain ⟨a, ha, hslot⟩ := ht.current i hi page hp
    by_contra hall
    push Not at hall
    exact (h.allLive_iff hi ho).mp hall a ha hslot

end Kept

/-! ## The steps -/

/-- **A new slab** is the current one, and all its objects are free. -/
theorem Told.slab (hm : Mapped m base n) (h : Kept m base n s live (page :: free) on objs)
    (ht : Told m base n s (page :: free) on objs) (hi : i < SLUB_SIZE_NUM) (hnil : objs i = [])
    (hpage : (t.sizeCaches i).slabPage = some page)
    (hothers : ∀ j, j ≠ i → t.sizeCaches j = s.sizeCaches j)
    (hk : Kept m base n t live free
      (Function.update on (.halfSlabs i) (on (.halfSlabs i) ++ [page]))
      (Function.update objs i (slots m i page))) :
    Told m base n t free (Function.update on (.halfSlabs i) (on (.halfSlabs i) ++ [page]))
      (Function.update objs i (slots m i page)) := by
  have hcnt := (sizes_fit hi).2.1
  have hmem : m.page2kva page + 0 * strideOf i ∈ slots m i page := mem_slots.mpr ⟨0, hcnt, rfl⟩
  have hnew : page ∈ Function.update on (.halfSlabs i) (on (.halfSlabs i) ++ [page]) (.halfSlabs i) := by
    simp
  refine ⟨fun q hlo hhi => ?_, fun j hj q ho => ?_, fun j hj q hq => ?_, fun j hj hnone => ?_⟩
  · rcases ht.covered q hlo hhi with hq | ⟨j, hj, hq⟩
    · rcases List.mem_cons.mp hq with rfl | hq
      · exact .inr ⟨_, half_mem hi, hnew⟩
      · exact .inl hq
    · refine .inr ⟨j, hj, ?_⟩
      rcases eq_or_ne j (.halfSlabs i) with rfl | hji
      · simp [hq]
      · rwa [Function.update_of_ne hji]
  · rcases eq_or_ne j i with rfl | hji
    · rw [Function.update_self]
      rcases eq_or_ne q page with rfl | hqp
      · exact iff_of_false (hk.not_full hj hnew) fun hall => hall _ hmem hmem
      · have hold : Owns on j q := by
          rcases ho with ho | ho
          · exact .inl (by simpa [hqp] using ho)
          · exact .inr (by simpa using ho)
        have hfull := (ht.full j hj q hold).mpr (by simp [hnil])
        refine iff_of_true (by simpa using hfull) fun b hb hb' => ?_
        exact hqp (hk.page_unique hm hj ho (.inl hnew) hb' hb)
    · rw [Function.update_of_ne hji, Function.update_of_ne (by simp)]
      refine ht.full j hj q ?_
      simpa [Owns, hji] using ho
  · rcases eq_or_ne j i with rfl | hji
    · obtain rfl : page = q := by simpa [hpage] using hq
      rw [Function.update_self]
      exact ⟨_, hmem, hmem⟩
    · rw [Function.update_of_ne hji]
      rw [hothers j hji] at hq
      exact ht.current j hj q hq
  · rcases eq_or_ne j i with rfl | hji
    · rw [hpage] at hnone
      exact absurd hnone (by simp)
    · rw [Function.update_of_ne hji]
      rw [hothers j hji] at hnone
      exact ht.ready j hj hnone

/-- **Another free object in the slab of `a`**, among the objects after it. -/
def Backed (m : KvaMap) (on : SlubList → List ℕ) (i a : ℕ) (rest : List ℕ) : Prop :=
  rest = [] ∨ ∃ page, Owns on i page ∧ a ∈ slots m i page ∧ ∃ b ∈ rest, b ∈ slots m i page

/-- **Taking an object** that leaves another in its slab, or none in the cache. -/
theorem Told.take (hm : Mapped m base n) (h : Kept m base n s live free on objs)
    (ht : Told m base n s free on objs) (hi : i < SLUB_SIZE_NUM) {rest : List ℕ}
    (hobjs : objs i = a :: rest) (hfilled : Filled s t on on' i rest)
    (hback : Backed m on i a rest) :
    Told m base n t free on' (Function.update objs i rest) := by
  obtain ⟨hothers, hmove⟩ := hfilled
  have hready : (s.sizeCaches i).slabPage ≠ none := fun hnone => by
    simpa [hobjs] using ht.ready i hi hnone
  rcases hmove with ⟨rfl, page, hpage, hnone, hmoved⟩ | ⟨hcur, rfl, hsame⟩
  · -- the last free object: the current slab, which is the only one with a free object, is full
    have hhalf := h.objects.current i hi page hpage
    obtain ⟨b, hb, hbp⟩ := ht.current i hi page hpage
    obtain rfl : b = a := by simpa [hobjs] using hb
    refine ⟨fun q hlo hhi => (ht.covered q hlo hhi).imp_right ?_, fun j hj q ho => ?_,
      fun j hj q hq => ?_, fun j hj hq => ?_⟩
    · rintro ⟨j, hj, hq⟩
      rcases eq_or_ne j (.fullSlabs i) with rfl | hjf
      · exact ⟨_, hj, (hmoved.mem_new q).mpr (.inl hq)⟩
      · rcases eq_or_ne j (.halfSlabs i) with rfl | hjh
        · rcases eq_or_ne q page with rfl | hqp
          · exact ⟨_, full_mem hi, (hmoved.mem_new q).mpr (.inr rfl)⟩
          · exact ⟨_, hj, (hmoved.mem_old q).mpr ⟨hq, hqp⟩⟩
        · exact ⟨j, hj, by rwa [hmoved.other j hjh hjf]⟩
    · rcases eq_or_ne j i with rfl | hji
      · have ho : Owns on j q := (hmoved.or_iff hhalf q).mp ho
        rw [Function.update_self, hmoved.mem_new, ht.full j hj q ho, hobjs]
        refine iff_of_true ?_ (by simp)
        rcases eq_or_ne q page with rfl | hqp
        · exact .inr rfl
        · refine .inl fun c hc hcq => hqp ?_
          obtain rfl : c = b := by simpa using hc
          exact h.page_unique hm hj ho (.inl hhalf) hcq hbp
      · rw [Function.update_of_ne hji, hmoved.other _ (by simp) (by simpa using hji)]
        refine ht.full j hj q ?_
        simpa [Owns, hmoved.other (.halfSlabs j) (by simpa using hji) (by simp),
          hmoved.other (.fullSlabs j) (by simp) (by simpa using hji)] using ho
    · rcases eq_or_ne j i with rfl | hji
      · rw [hnone] at hq
        exact absurd hq (by simp)
      · rw [Function.update_of_ne hji]
        rw [hothers j hji] at hq
        exact ht.current j hj q hq
    · rcases eq_or_ne j i with rfl | hji
      · exact Function.update_self ..
      · rw [Function.update_of_ne hji]
        rw [hothers j hji] at hq
        exact ht.ready j hj hq
  · obtain ⟨page, hpage, hap, b, hb, hbp⟩ := hback.resolve_left fun hnil => hready (hcur hnil)
    refine ⟨ht.covered, fun j hj q ho => ?_, fun j hj q hq => ?_, fun j hj hq => ?_⟩
    · rw [ht.full j hj q ho]
      rcases eq_or_ne j i with rfl | hji
      · rw [Function.update_self, hobjs, List.forall_mem_cons, and_iff_right_iff_imp]
        intro hall haq
        obtain rfl := h.page_unique hm hj hpage ho hap haq
        exact hall b hb hbp
      · rw [Function.update_of_ne hji]
    · rcases eq_or_ne j i with rfl | hji
      · rw [Function.update_self]
        rw [hsame] at hq
        obtain ⟨c, hc, hcq⟩ := ht.current j hj q hq
        rcases List.mem_cons.mp (hobjs ▸ hc) with rfl | hc
        · obtain rfl := h.page_unique hm hj hpage (.inl (h.objects.current j hj q hq)) hap hcq
          exact ⟨b, hb, hbp⟩
        · exact ⟨c, hc, hcq⟩
      · rw [Function.update_of_ne hji]
        rw [hothers j hji] at hq
        exact ht.current j hj q hq
    · rcases eq_or_ne j i with rfl | hji
      · rw [hsame] at hq
        exact absurd hq hready
      · rw [Function.update_of_ne hji]
        rw [hothers j hji] at hq
        exact ht.ready j hj hq

/-- **Freeing an object** puts its slab among those with free objects. -/
theorem Told.give (hm : Mapped m base n) (h : Kept m base n s live free on objs)
    (ht : Told m base n s free on objs) (hi : i < SLUB_SIZE_NUM) (ha : a ∈ slots m i page)
    (ho : Owns on i page) (hun : Unfilled on on' i page)
    (hothers : ∀ j, j ≠ i → t.sizeCaches j = s.sizeCaches j)
    (hcur : (t.sizeCaches i).slabPage = some ((s.sizeCaches i).slabPage.getD page)) :
    Told m base n t free on' (Function.update objs i (a :: objs i)) := by
  refine ⟨fun q hlo hhi => (ht.covered q hlo hhi).imp_right ?_, fun j hj q hq => ?_,
    fun j hj q hq => ?_, fun j hj hq => ?_⟩
  · rintro ⟨j, hj, hq⟩
    obtain ⟨k, hk, hjk⟩ := id hj
    have hown : Owns on' k q := (hun.owns_iff k q).mpr (by
      rcases hjk with rfl | rfl
      · exact .inr hq
      · exact .inl hq)
    exact hown.elim (fun hq => ⟨_, half_mem hk, hq⟩) fun hq => ⟨_, full_mem hk, hq⟩
  · have hold := (hun.owns_iff j q).mp hq
    rcases eq_or_ne j i with rfl | hji
    · rw [Function.update_self]
      rcases eq_or_ne q page with rfl | hqp
      · refine iff_of_false ?_ fun hall => hall a (by simp) ha
        rcases hun with ⟨hp, rfl⟩ | ⟨-, hmoved⟩
        · exact h.not_full hj hp
        · exact fun hp => ((hmoved.mem_old q).mp hp).2 rfl
      · have hfull : q ∈ on' (.fullSlabs j) ↔ q ∈ on (.fullSlabs j) := by
          rcases hun with ⟨-, rfl⟩ | ⟨-, hmoved⟩
          · rfl
          · simp [hmoved.mem_old q, hqp]
        rw [hfull, ht.full j hj q hold, List.forall_mem_cons, iff_and_self]
        exact fun _ haq => hqp (h.page_unique hm hj hold ho haq ha)
    · have hfull : on' (.fullSlabs j) = on (.fullSlabs j) := by
        rcases hun with ⟨-, rfl⟩ | ⟨-, hmoved⟩
        · rfl
        · exact hmoved.other _ (by simpa using hji) (by simp)
      rw [Function.update_of_ne hji, hfull]
      exact ht.full j hj q hold
  · rcases eq_or_ne j i with rfl | hji
    · rw [Function.update_self]
      rw [hcur, Option.some.injEq] at hq
      cases hold : (s.sizeCaches j).slabPage with
      | none =>
        rw [hold, Option.getD_none] at hq
        exact ⟨a, by simp, hq ▸ ha⟩
      | some c =>
        rw [hold, Option.getD_some] at hq
        obtain ⟨b, hb, hbq⟩ := ht.current j hj q (hold.trans (by rw [hq]))
        exact ⟨b, List.mem_cons_of_mem a hb, hbq⟩
    · rw [Function.update_of_ne hji]
      rw [hothers j hji] at hq
      exact ht.current j hj q hq
  · rcases eq_or_ne j i with rfl | hji
    · rw [hcur] at hq
      exact absurd hq (by simp)
    · rw [Function.update_of_ne hji]
      rw [hothers j hji] at hq
      exact ht.ready j hj hq

/-- **An object that leaves none in its slab**, with others in the cache, leaves a full slab on the
wrong list. -/
theorem Told.not_truthful (h : Kept m base n s live free on objs)
    (ht : Told m base n s free on objs) (hi : i < SLUB_SIZE_NUM) {rest : List ℕ}
    (hobjs : objs i = a :: rest) (hfilled : Filled s t on on' i rest)
    (hback : ¬ Backed m on i a rest) {live' : Live}
    (hk : Kept m base n t live' free on' (Function.update objs i rest)) :
    ¬ Truthful m base n t live' := by
  intro htrue
  rw [Backed, not_or] at hback
  obtain ⟨hne, hback⟩ := hback
  obtain ⟨page, ho, hap⟩ := h.owner_of_mem hi (show a ∈ objs i by simp [hobjs])
  obtain ⟨-, ⟨rfl, -⟩ | ⟨-, rfl, -⟩⟩ := hfilled
  · exact hne rfl
  · have hnot : page ∉ on' (.fullSlabs i) := fun hp =>
      (ht.full i hi page ho).mp hp a (by simp [hobjs]) hap
    have hfull := htrue.full i hi page ((hk.slabPage_iff hi).mpr ho)
    rw [hk.onList_iff (full_mem hi), hk.allLive_iff hi ho, Function.update_self] at hfull
    exact hnot (hfull.mpr fun b hb hbp => hback ⟨page, ho, hap, b, hb, hbp⟩)

/-- An object's page, as the code computes it. -/
theorem Kept.slubObjectToPage_slot (hm : Mapped m base n) (h : Kept m base n s live free on objs)
    (hi : i < SLUB_SIZE_NUM) (ho : Owns on i page) (ha : a ∈ slots m i page) :
    slubObjectToPage m a = page := by
  obtain ⟨k, hk, rfl⟩ := mem_slots.mp ha
  have := slot_bounds hi hk
  have := lt_strideOf hi
  exact hm.slubObjectToPage_eq (h.pages.owns_mem hi ho) (by omega) (by omega)

/-- The guard, read through the links. -/
theorem Kept.untangled_iff (hm : Mapped m base n) (h : Kept m base n s live free on objs)
    (hidx : slubSizeToIndex size = some i) {rest : List ℕ} (hobjs : objs i = a :: rest) :
    Untangled m s size ↔ Backed m on i a rest := by
  obtain ⟨hi, -⟩ := slubSizeToIndex_spec hidx
  have hthread := h.objects.thread i hi
  have hnd := hthread.nodup
  rw [hobjs] at hthread hnd
  obtain ⟨hfree, hrest⟩ := hthread
  dsimp only at hrest
  have ha : a ∈ objs i := by simp [hobjs]
  constructor
  · intro hun
    rcases hun i a hidx hfree with hnone | ⟨b, hba, hb, hpage⟩
    · rw [hnone] at hrest
      exact .inl hrest.eq_nil
    · rw [h.freeObject_iff hi] at hb
      obtain ⟨p, hp, hap⟩ := h.owner_of_mem hi ha
      obtain ⟨q, hq, hbq⟩ := h.owner_of_mem hi hb
      rw [h.slubObjectToPage_slot hm hi hp hap, h.slubObjectToPage_slot hm hi hq hbq] at hpage
      refine .inr ⟨p, hp, hap, b, ?_, hpage ▸ hbq⟩
      rw [hobjs] at hb
      exact (List.mem_cons.mp hb).resolve_left hba
  · intro hback j c hj hc
    obtain rfl := Option.some.inj (hidx.symm.trans hj)
    obtain rfl := Option.some.inj (hfree.symm.trans hc)
    rcases hback with rfl | ⟨p, hp, hap, b, hb, hbp⟩
    · exact .inl hrest
    · refine .inr ⟨b, ?_, (h.freeObject_iff hi).mpr (by simp [hobjs, hb]), ?_⟩
      · rintro rfl
        exact (List.nodup_cons.mp hnd).1 hb
      · rw [h.slubObjectToPage_slot hm hi hp hap, h.slubObjectToPage_slot hm hi hp hbp]

/-! ## Whole runs -/

/-- **`slub_alloc`**, from slabs whose lists are right: they stay right exactly when the object it
takes is not the last free one of its slab, or is the last of its cache. -/
theorem wp_slubAlloc_told (hm : Mapped m base n) (h : Kept m base n s live free on objs)
    (ht : Told m base n s free on objs) (hidx : slubSizeToIndex size = some i) :
    Act.wp (slubAlloc m size) (fun r t => (r = none ∧ t = s) ∨
      ∃ p free' on' objs', r = some p ∧
        Kept m base n t (Function.update live p (some size)) free' on' objs' ∧
        (Untangled m s size → Told m base n t free' on' objs') ∧
        (¬ Untangled m s size → ¬ Truthful m base n t (Function.update live p (some size)))) E s := by
  obtain ⟨hi, -⟩ := slubSizeToIndex_spec hidx
  refine h.wp_slubAlloc_of hm hidx (fun _ => .inl ⟨rfl, rfl⟩)
    (fun page free' u hnil hfree hpage hothers hk => ?_) fun hne => ?_
  · -- from a new slab any object leaves the others
    subst hfree
    have hcnt := (sizes_fit hi).2.1
    have hne : Function.update objs i (slots m i page) i ≠ [] := by
      simp [slots]
      omega
    have htold := Told.slab hm h ht hi hnil hpage hothers hk
    have hun : Untangled m s size := fun j c hj hc => by
      obtain rfl := Option.some.inj (hidx.symm.trans hj)
      have hthread := h.objects.thread i hi
      rw [hnil, Thread.nil_iff, hc] at hthread
      exact absurd hthread (by simp)
    refine Act.wp_mono (hk.wp_takeObject hm hi hne hidx) (fun r v hv => ?_) fun _ => id
    obtain ⟨a, rest, on', hobjs, rfl, -, hfilled, hv⟩ := hv
    refine .inr ⟨_, _, _, _, rfl, hv, fun _ => htold.take hm hk hi hobjs hfilled ?_,
      fun hnot => absurd hun hnot⟩
    rw [Function.update_self] at hobjs
    refine or_iff_not_imp_left.mpr fun hrest => ?_
    obtain ⟨b, rest, rfl⟩ := List.exists_cons_of_ne_nil hrest
    exact ⟨page, .inl (by simp), by simp [hobjs], b, by simp, by simp [hobjs]⟩
  · refine Act.wp_mono (h.wp_takeObject hm hi hne hidx) (fun r u hu => ?_) fun _ => id
    obtain ⟨a, rest, on', hobjs, rfl, -, hfilled, hu⟩ := hu
    rw [h.untangled_iff hm hidx hobjs]
    exact .inr ⟨_, _, _, _, rfl, hu, ht.take hm h hi hobjs hfilled,
      fun hback => ht.not_truthful h hi hobjs hfilled hback hu⟩

/-- A request that no cache is for comes back with nothing. -/
theorem wp_slubAlloc_large (hinit : s.initialized = true) (hidx : slubSizeToIndex size = none) :
    Act.wp (slubAlloc m size) (fun r t => r = none ∧ t = s) E s := by
  rw [slubAlloc]
  dsimp only
  simp only [Act.wp_bind, Act.wp_get, Act.wp_ite, hinit, hidx, not_true_eq_false, false_implies,
    not_false_eq_true, true_implies, true_and, Act.wp_pure]

/-- **In a run that is never tangled the lists are right.** -/
theorem RunWith.told (hm : Mapped m base n) (h : RunWith m base n (Untangled m) s live) :
    ∃ free on objs, Kept m base n s live free on objs ∧ Told m base n s free on objs := by
  induction h with
  | @boot s t fuel hs hrun =>
    obtain ⟨hinit, hpages, hcaches⟩ := Act.wp_of_ok (wp_boot hs) hrun
    refine ⟨_, _, _, Kept.init hinit hpages hcaches, fun page hlo hhi => .inl ?_,
      fun i hi page ho => ?_, fun i hi page hp => ?_, fun _ _ _ => rfl⟩
    · exact List.mem_range'_1.mpr ⟨hlo, hhi⟩
    · rcases ho with ho | ho <;> simp at ho
    · rw [hcaches i hi] at hp
      exact absurd hp (by simp)
  | @alloc s t live size p _ hun hrun ih =>
    obtain ⟨free, on, objs, hk, ht⟩ := ih
    cases hidx : slubSizeToIndex size with
    | none =>
      have hr := Act.wp_of_ok (wp_slubAlloc_large (E := fun _ => True) hk.initialized hidx) hrun
      exact absurd hr.1 (by simp)
    | some i =>
      rcases Act.wp_of_ok (wp_slubAlloc_told (E := fun _ => True) hm hk ht hidx) hrun with
        ⟨hr, -⟩ | ⟨q, free', on', objs', hq, hk', ht', -⟩
      · exact absurd hr (by simp)
      · obtain rfl := Option.some.inj hq
        exact ⟨_, _, _, hk', ht' hun⟩
  | @allocNull s t live size _ hrun ih =>
    obtain ⟨free, on, objs, hk, ht⟩ := ih
    cases hidx : slubSizeToIndex size with
    | none =>
      obtain ⟨-, rfl⟩ := Act.wp_of_ok (wp_slubAlloc_large (E := fun _ => True) hk.initialized hidx) hrun
      exact ⟨_, _, _, hk, ht⟩
    | some i =>
      rcases Act.wp_of_ok (wp_slubAlloc_told (E := fun _ => True) hm hk ht hidx) hrun with
        ⟨-, rfl⟩ | ⟨q, free', on', objs', hq, -⟩
      · exact ⟨_, _, _, hk, ht⟩
      · exact absurd hq (by simp)
  | @free s t live fuel size p _ hp hrun ih =>
    obtain ⟨free, on, objs, hk, ht⟩ := ih
    obtain ⟨i, a, page, on', hi, rfl, ha, ho, hun, hothers, hcur, hk'⟩ :=
      Act.wp_of_ok (hk.wp_slubFree_slab hm hp) hrun
    exact ⟨_, _, _, hk', ht.give hm hk hi ha ho hun hothers hcur⟩
  | write object _ hw ih =>
    obtain ⟨free, on, objs, hk, ht⟩ := ih
    exact ⟨_, _, _, hk.write hm hw, ht.covered, ht.full, ht.current, ht.ready⟩

/-- **The slab lists over whole runs.**  In every run whose allocations are untangled the lists tell
the truth after every call; and an allocation from there keeps them so exactly when it is. -/
theorem slub_lists (hm : Mapped m base n) (h : RunWith m base n (Untangled m) s live) :
    Truthful m base n s live ∧
    ∀ size p t, slubAlloc m size s = .ok (some p, t) →
      (Truthful m base n t (Function.update live p (some size)) ↔ Untangled m s size) := by
  obtain ⟨free, on, objs, hk, ht⟩ := h.told hm
  refine ⟨hk.truthful hm ht, fun size p t hrun => ?_⟩
  cases hidx : slubSizeToIndex size with
  | none =>
    have hr := Act.wp_of_ok (wp_slubAlloc_large (E := fun _ => True) hk.initialized hidx) hrun
    exact absurd hr.1 (by simp)
  | some i =>
    rcases Act.wp_of_ok (wp_slubAlloc_told (E := fun _ => True) hm hk ht hidx) hrun with
      ⟨hr, -⟩ | ⟨q, free', on', objs', hq, hk', ht', hnot⟩
    · exact absurd hr (by simp)
    · obtain rfl := Option.some.inj hq
      exact ⟨fun htrue => by_contra fun hun => hnot hun htrue, fun hun => hk'.truthful hm (ht' hun)⟩

/-- One object of 2000 bytes, from boot, where there is no slab with room. -/
def oneObject : Bool :=
  match (slubInit >>= fun _ => slubInitMemmap 5 1 4) bootSlub with
  | .ok ((), t) => match slubAlloc bootMap 2000 t with
    | .ok (some p, _) => p == 0x80001010 && (t.sizeCaches 9).freeList == none
    | _ => false
  | _ => false

/-- One object of 2000 bytes, from boot: its slab is full, and on the full list. -/
theorem slub_lists_one : ∃ t u,
    (slubInit >>= fun _ => slubInitMemmap 5 1 4) bootSlub = .ok ((), t) ∧
    slubAlloc bootMap 2000 t = .ok (some 0x80001010, u) ∧
    Truthful bootMap 1 4 u (Function.update (fun _ => none) 0x80001010 (some 2000)) := by
  have hres : oneObject = true := by decide +kernel
  unfold oneObject at hres
  split at hres
  · next t hboot =>
    split at hres
    · next p u halloc =>
      simp only [Bool.and_eq_true, beq_iff_eq] at hres
      obtain ⟨rfl, hnone⟩ := hres
      have hrun : RunWith bootMap 1 4 (Untangled bootMap) t fun _ => none :=
        .boot (show bootSlub.initialized = false from rfl) hboot
      have hun : Untangled bootMap t 2000 := fun i a hi ha => by
        obtain rfl : 9 = i := Option.some.inj hi
        exact absurd (hnone.symm.trans ha) (by simp)
      exact ⟨t, u, hboot, halloc, ((slub_lists mapped_bootMap hrun).2 _ _ _ halloc).mpr hun⟩
    · exact absurd hres (by simp)
  · exact absurd hres (by simp)

/-- Two objects of 2000 bytes, both freed, and one taken again, whose slab holds one object. -/
def takenAgain : Bool :=
  match (slubInit >>= fun _ => slubInitMemmap 5 1 4) bootSlub with
  | .ok ((), s₀) => match slubAlloc bootMap 2000 s₀ with
    | .ok (some p, s₁) => match slubAlloc bootMap 2000 s₁ with
      | .ok (some q, s₂) => match slubFree bootMap 5 0x80001010 2000 s₂ with
        | .ok ((), s₃) => match slubFree bootMap 5 0x80002010 2000 s₃ with
          | .ok ((), s₄) => match slubAlloc bootMap 2000 s₄ with
            | .ok (some r, t) => (p == 0x80001010 && q == 0x80002010 && r == 0x80002010) &&
                (t.lists.links.next (fullSlabs 9) == fullSlabs 9 && (t.sizeCaches 9).objectNum == 1)
            | _ => false
          | _ => false
        | _ => false
      | _ => false
    | _ => false
  | _ => false

/-- Two objects of 2000 bytes, both freed, and one taken again: its slab is full, and the full list
is empty. -/
theorem slub_lists_two : ∃ t live, RunWith bootMap 1 4 (fun _ _ => True) t live ∧
    ¬ Truthful bootMap 1 4 t live := by
  have hres : takenAgain = true := by decide +kernel
  unfold takenAgain at hres
  split at hres
  on_goal 2 => exact absurd hres (by simp)
  next s₀ h₀ =>
  split at hres
  on_goal 2 => exact absurd hres (by simp)
  next p s₁ h₁ =>
  split at hres
  on_goal 2 => exact absurd hres (by simp)
  next q s₂ h₂ =>
  split at hres
  on_goal 2 => exact absurd hres (by simp)
  next s₃ h₃ =>
  split at hres
  on_goal 2 => exact absurd hres (by simp)
  next s₄ h₄ =>
  split at hres
  on_goal 2 => exact absurd hres (by simp)
  next r t h₅ =>
  simp only [Bool.and_eq_true, beq_iff_eq] at hres
  obtain ⟨⟨⟨rfl, rfl⟩, rfl⟩, hempty, hnum⟩ := hres
  have hrun : RunWith bootMap 1 4 (fun _ _ => True) s₀ fun _ => none :=
    .boot (show bootSlub.initialized = false from rfl) h₀
  have hrun := ((((hrun.alloc trivial h₁).alloc trivial h₂).free (by simp) h₃).free (by simp) h₄).alloc
    trivial h₅
  refine ⟨t, _, hrun, fun htrue => ?_⟩
  obtain ⟨i, page, hidx, hslab, hlo, hhi⟩ := htrue.live_mem 0x80002010 2000 (by simp)
  obtain rfl : 9 = i := Option.some.inj hidx
  obtain rfl : page = 2 := by
    change 4096 * page + 0x80000000 ≤ _ at hlo
    change _ < 4096 * page + 0x80000000 + 4096 at hhi
    omega
  obtain ⟨xs, hxs, hmem⟩ := (htrue.full 9 (by decide) 2 hslab).mpr fun k hk => by
    obtain rfl : k = 0 := by omega
    rw [ObjectLive, Nat.zero_mul, Nat.add_zero,
      show bootMap.page2kva 2 + OBJECT_SIZE = 0x80002010 from rfl, Function.update_self]
    exact Option.some_ne_none _
  rw [hxs.next_head_eq_iff.mp hempty] at hmem
  simp at hmem

end UCore.Slub
