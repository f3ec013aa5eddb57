import UCore.Machinery.Thread
import UCore.Mm.Slub

/-!
# Mm/SlubSpec — what each step of the SLUB allocator does to its lists

    free pages ──slubAllocSlabPage──▸ half-full slabs ──takeObject──▸ full slabs
                                                      ◂──unfill──

Three kinds of list: the free pages, which `slub_init_memmap` leaves with wrong `prev` fields and
which are read forwards only (`Links.Front`); the slabs of each cache, which are proper rings; and
the free objects of each cache, a `Thread` through the headers.
-/

namespace UCore.Slub

variable {m : KvaMap} {s t : SlubAllocator} {α : Type} {Q : Unit → SlubAllocator → Prop}
  {E : Stop → Prop} {fuel i j p page a b k : ℕ}

@[simp] theorem wp_store (f : PageLists SlubList → PageLists SlubList) :
    Act.wp (store f) Q E s ↔ Q () { s with lists := f s.lists } := Iff.rfl

@[simp] theorem wp_setCache (f : SlubCache → SlubCache) :
    Act.wp (setCache i f) Q E s ↔
      Q () { s with sizeCaches := Function.update s.sizeCaches i (f (s.sizeCaches i)) } := Iff.rfl

@[simp] theorem wp_setObject (o : SlubObject) :
    Act.wp (setObject a o) Q E s ↔ Q () { s with object := Function.update s.object a o } := Iff.rfl

/-! ## The sizes -/

/-- The size of the objects of the cache `i`, with their headers. -/
def strideOf (i : ℕ) : ℕ := slubAlignSize (sizes.getD i 0 + OBJECT_SIZE)

/-- The number of objects in a slab of the cache `i`. -/
def countOf (i : ℕ) : ℕ := objectNumOf (strideOf i)

/-- **The caches fit**: an object has room for its header and its size, and a slab for its
objects. -/
theorem sizes_fit (hi : i < SLUB_SIZE_NUM) :
    sizes.getD i 0 + 16 ≤ strideOf i ∧ 0 < countOf i ∧ countOf i * strideOf i ≤ 4096 := by
  have hall : ∀ i : Fin 10, sizes.getD i 0 + 16 ≤ strideOf i ∧ 0 < countOf i ∧
      countOf i * strideOf i ≤ 4096 := by decide
  exact hall ⟨i, hi⟩

theorem lt_strideOf (hi : i < SLUB_SIZE_NUM) : 16 < strideOf i := by
  have hall : ∀ i : Fin 10, 16 < strideOf i := by decide
  exact hall ⟨i, hi⟩

/-- **The cache for a size** has objects that are large enough. -/
theorem slubSizeToIndex_spec {size : ℕ} (h : slubSizeToIndex size = some i) :
    i < SLUB_SIZE_NUM ∧ size ≤ sizes.getD i 0 := by
  obtain ⟨hi, hsize, -⟩ := List.findIdx?_eq_some_iff_getElem.mp h
  refine ⟨hi, ?_⟩
  rw [List.getD_eq_getElem?_getD, List.getElem?_eq_getElem hi, Option.getD_some]
  exact of_decide_eq_true hsize

theorem slubSizeToIndex_isSome {size : ℕ} (h : size ≤ 2048) :
    ∃ i, slubSizeToIndex size = some i := by
  rw [← Option.isSome_iff_exists, slubSizeToIndex, List.findIdx?_isSome]
  exact List.any_eq_true.mpr ⟨2048, by decide, decide_eq_true h⟩

/-! ## Where the objects are

    page2kva page + k * strideOf i        the `k`-th object of a slab of the cache `i` -/

/-- What the code relies on in `page2kva` and `kva2page`, for the `n` pages from `base` on: they are
inverse to each other, and give each page an aligned range of its own. -/
structure Mapped (m : KvaMap) (base n : ℕ) : Prop where
  aligned : ∀ page, base ≤ page → page < base + n → PGSIZE ∣ m.page2kva page
  kva2page : ∀ page, base ≤ page → page < base + n → m.kva2page (m.page2kva page) = page

/-- The lists of slabs in use. -/
def slabLists : Set SlubList := {j | ∃ i < SLUB_SIZE_NUM, j = .fullSlabs i ∨ j = .halfSlabs i}

/-- `page` is a slab of the cache `i`, where `on` is what the lists hold. -/
def Owns (on : SlubList → List ℕ) (i page : ℕ) : Prop :=
  page ∈ on (.halfSlabs i) ∨ page ∈ on (.fullSlabs i)

/-- `a` is an object of the cache `i`. -/
def Slot (m : KvaMap) (on : SlubList → List ℕ) (i a : ℕ) : Prop :=
  ∃ page k, Owns on i page ∧ k < countOf i ∧ a = m.page2kva page + k * strideOf i

/-- **The pages**: the free ones are on the free list, the slabs on the lists of their caches, and
no page is on two lists. -/
structure Pages (base n : ℕ) (s : SlubAllocator) (free : List ℕ) (on : SlubList → List ℕ) :
    Prop where
  pool : s.lists.links.Front freeList (free.map .pageLink)
  count : s.nrFree = free.length
  slabs : s.lists.links.Rings slabLists .head fun j => (on j).map .pageLink
  apart : ∀ page ∈ free, ∀ j ∈ slabLists, page ∉ on j
  free_mem : ∀ page ∈ free, base ≤ page ∧ page < base + n
  slab_mem : ∀ j ∈ slabLists, ∀ page ∈ on j, base ≤ page ∧ page < base + n

@[simp] theorem pageLink_injective : Function.Injective (@ListEntry.pageLink SlubList) :=
  fun _ _ h => ListEntry.pageLink.inj h

theorem pageLink_mem_iff {xs : List ℕ} :
    (ListEntry.pageLink p : ListEntry SlubList) ∈ xs.map .pageLink ↔ p ∈ xs :=
  List.mem_map_of_injective pageLink_injective

theorem full_mem (hi : i < SLUB_SIZE_NUM) : SlubList.fullSlabs i ∈ slabLists :=
  ⟨i, hi, .inl rfl⟩

theorem half_mem (hi : i < SLUB_SIZE_NUM) : SlubList.halfSlabs i ∈ slabLists :=
  ⟨i, hi, .inr rfl⟩

/-- An object begins in its page, and ends in it. -/
theorem slot_bounds (hi : i < SLUB_SIZE_NUM) (hk : k < countOf i) :
    k * strideOf i + strideOf i ≤ 4096 := by
  obtain ⟨-, -, hle⟩ := sizes_fit hi
  calc k * strideOf i + strideOf i = (k + 1) * strideOf i := by ring
    _ ≤ countOf i * strideOf i := Nat.mul_le_mul_right _ hk
    _ ≤ 4096 := hle

namespace Mapped

variable {base n q : ℕ}

/-- The page of an address in it. -/
theorem slubObjectToPage_eq (h : Mapped m base n) (hp : base ≤ page ∧ page < base + n) {x : ℕ}
    (hlo : m.page2kva page ≤ x) (hhi : x < m.page2kva page + 4096) : slubObjectToPage m x = page := by
  obtain ⟨c, hc⟩ : 4096 ∣ m.page2kva page := h.aligned page hp.1 hp.2
  rw [slubObjectToPage, show x - x % PGSIZE = m.page2kva page by change x - x % 4096 = _; omega,
    h.kva2page page hp.1 hp.2]

/-- **Distinct pages have disjoint ranges.** -/
theorem apart (h : Mapped m base n) (hp : base ≤ p ∧ p < base + n) (hq : base ≤ q ∧ q < base + n)
    (hne : p ≠ q) :
    m.page2kva p + 4096 ≤ m.page2kva q ∨ m.page2kva q + 4096 ≤ m.page2kva p := by
  obtain ⟨c, hc⟩ : 4096 ∣ m.page2kva p := h.aligned p hp.1 hp.2
  obtain ⟨d, hd⟩ : 4096 ∣ m.page2kva q := h.aligned q hq.1 hq.2
  have hcd : c ≠ d := by
    rintro rfl
    refine hne ?_
    rw [← h.kva2page p hp.1 hp.2, ← h.kva2page q hq.1 hq.2, hc, hd]
  omega

end Mapped

namespace Pages

variable {base n : ℕ} {free : List ℕ} {on : SlubList → List ℕ}

/-- The pages are in the links and the count. -/
theorem congr (h : Pages base n s free on) (hlinks : t.lists.links = s.lists.links)
    (hcount : t.nrFree = s.nrFree) : Pages base n t free on := by
  refine ⟨?_, hcount.trans h.count, ?_, h.apart, h.free_mem, h.slab_mem⟩
  · rw [hlinks]
    exact h.pool
  · rw [hlinks]
    exact h.slabs

theorem owns_mem (h : Pages base n s free on) (hi : i < SLUB_SIZE_NUM) (ho : Owns on i page) :
    base ≤ page ∧ page < base + n :=
  ho.elim (h.slab_mem _ (half_mem hi) page) (h.slab_mem _ (full_mem hi) page)

/-- **A page is on one list at most.** -/
theorem list_unique (h : Pages base n s free on) {j j' : SlubList} (hj : j ∈ slabLists)
    (hj' : j' ∈ slabLists) (hp : page ∈ on j) (hp' : page ∈ on j') : j = j' := by
  by_contra hne
  exact h.slabs.apart j hj j' hj' hne (List.mem_cons_of_mem _ (pageLink_mem_iff.mpr hp))
    (List.mem_cons_of_mem _ (pageLink_mem_iff.mpr hp'))

/-- …and so it is a slab of one cache. -/
theorem owner_unique (h : Pages base n s free on) (hi : i < SLUB_SIZE_NUM) (hj : j < SLUB_SIZE_NUM)
    (ho : Owns on i page) (ho' : Owns on j page) : i = j := by
  rcases ho with ho | ho <;> rcases ho' with ho' | ho'
  · exact SlubList.halfSlabs.inj (h.list_unique (half_mem hi) (half_mem hj) ho ho')
  · exact absurd (h.list_unique (half_mem hi) (full_mem hj) ho ho') (by simp)
  · exact absurd (h.list_unique (full_mem hi) (half_mem hj) ho ho') (by simp)
  · exact SlubList.fullSlabs.inj (h.list_unique (full_mem hi) (full_mem hj) ho ho')

/-- **Objects do not overlap**, with their headers and whatever their caches. -/
theorem slots_apart (h : Pages base n s free on) (hm : Mapped m base n) (hi : i < SLUB_SIZE_NUM)
    (hj : j < SLUB_SIZE_NUM) (ha : Slot m on i a) (hb : Slot m on j b) (hne : a ≠ b) :
    a + strideOf i ≤ b ∨ b + strideOf j ≤ a := by
  obtain ⟨p, k, hp, hk, rfl⟩ := ha
  obtain ⟨q, l, hq, hl, rfl⟩ := hb
  have hkb := slot_bounds hi hk
  have hlb := slot_bounds hj hl
  rcases eq_or_ne p q with rfl | hpq
  · obtain rfl := h.owner_unique hi hj hp hq
    rcases lt_trichotomy k l with hkl | rfl | hkl
    · have := Nat.mul_le_mul_right (strideOf i) (Nat.succ_le_of_lt hkl)
      rw [Nat.succ_mul] at this
      omega
    · exact absurd rfl hne
    · have := Nat.mul_le_mul_right (strideOf i) (Nat.succ_le_of_lt hkl)
      rw [Nat.succ_mul] at this
      omega
  · have := hm.apart (h.owns_mem hi hp) (h.owns_mem hj hq) hpq
    omega

/-- An address is an object of one cache at most. -/
theorem slot_unique (h : Pages base n s free on) (hm : Mapped m base n) (hi : i < SLUB_SIZE_NUM)
    (hj : j < SLUB_SIZE_NUM) (ha : Slot m on i a) (hb : Slot m on j a) : i = j := by
  obtain ⟨p, k, hp, hk, rfl⟩ := ha
  obtain ⟨q, l, hq, hl, heq⟩ := hb
  have hkb := slot_bounds hi hk
  have hlb := slot_bounds hj hl
  obtain ⟨hsi, -⟩ := sizes_fit hi
  obtain ⟨hsj, -⟩ := sizes_fit hj
  rcases eq_or_ne p q with rfl | hpq
  · exact h.owner_unique hi hj hp hq
  · have := hm.apart (h.owns_mem hi hp) (h.owns_mem hj hq) hpq
    omega

end Pages

/-! ## Boot -/

/-- **The loop of `slub_init`** makes the caches, and empties their lists. -/
theorem wp_initCaches (rest : List ℕ) (i : ℕ) (s : SlubAllocator) :
    Act.wp (initCaches i rest) (fun _ t =>
      (∀ k < rest.length, t.sizeCaches (i + k) =
        ⟨rest.getD k 0, slubAlignSize (rest.getD k 0 + OBJECT_SIZE), 0, none, none⟩) ∧
      (∀ j < i, t.sizeCaches j = s.sizeCaches j) ∧
      (∀ j, (s.lists.links.Ring (.head j) [] ∨
          ∃ k < rest.length, j = .fullSlabs (i + k) ∨ j = .halfSlabs (i + k)) →
        t.lists.links.Ring (.head j) []) ∧
      t.nrFree = s.nrFree ∧ t.lists.page = s.lists.page) E s := by
  induction rest generalizing i s with
  | nil => exact ⟨by simp, fun _ _ => rfl, by simp, rfl, rfl⟩
  | cons size rest ih =>
    rw [initCaches]
    simp only [Act.wp_bind, wp_setCache, wp_store]
    refine Act.wp_mono (ih (i + 1) _) (fun _ t ht => ?_) fun _ => id
    obtain ⟨hcaches, hold, hlists, hfree, hpage⟩ := ht
    refine ⟨fun k hk => ?_, fun j hj => ?_, fun j hj => hlists j ?_, hfree, hpage⟩
    · cases k with
      | zero =>
        rw [Nat.add_zero, hold i (Nat.lt_succ_self i)]
        simp [initCache]
      | succ k =>
        rw [show i + (k + 1) = i + 1 + k by omega]
        exact hcaches k (by simpa using hk)
    · rw [hold j (by omega)]
      simp [hj.ne]
    · rcases hj with hj | ⟨k, hk, hj⟩
      · exact .inl (ring_nil_listInit (.inl (ring_nil_listInit (.inl (ring_nil_listInit (.inl hj))))))
      · cases k with
        | zero =>
          refine .inl (ring_nil_listInit (.inl ?_))
          rcases hj with rfl | rfl
          · exact ring_nil_listInit (.inl (ring_listInit _ _))
          · exact ring_nil_listInit (.inr rfl)
        | succ k =>
          refine .inr ⟨k, by simpa using hk, ?_⟩
          rwa [show i + 1 + k = i + (k + 1) by omega]

/-- **After `slub_init`** the caches are as their sizes say, and nothing is on any list. -/
theorem wp_slubInit (hs : s.initialized = false) :
    Act.wp slubInit (fun _ t => t.initialized = true ∧
      (∀ i < SLUB_SIZE_NUM, t.sizeCaches i = ⟨sizes.getD i 0, strideOf i, 0, none, none⟩) ∧
      (∀ j, j = .freeList ∨ j ∈ slabLists → t.lists.links.Ring (.head j) []) ∧ t.nrFree = 0 ∧
      t.lists.page = s.lists.page) E s := by
  rw [slubInit]
  simp only [Act.wp_bind, Act.wp_get, Act.wp_ite, hs, Bool.false_eq_true, false_implies,
    not_false_eq_true, true_implies, true_and, wp_store, Act.wp_modify]
  refine Act.wp_mono (wp_initCaches sizes 0 _) (fun _ t ht => ?_) fun _ => id
  obtain ⟨hcaches, -, hlists, hfree, hpage⟩ := ht
  refine ⟨fun i hi => ?_, fun j hj => hlists j ?_, hfree, hpage⟩
  · have hi := hcaches i hi
    rwa [Nat.zero_add] at hi
  · rcases hj with rfl | ⟨i, hi, hj⟩
    · exact .inl (ring_listInit _ _)
    · exact .inr ⟨i, hi, by simpa using hj⟩

/-- **`p` is put behind the free pages** `xs`, and no link of anything else moves. -/
structure Put (l l' : Links (ListEntry SlubList)) (xs : List ℕ) (p : ℕ) : Prop where
  front : l'.Front freeList ((xs ++ [p]).map .pageLink)
  other : ∀ e, e ∉ freeList :: (xs ++ [p]).map .pageLink → l'.next e = l.next e ∧ l'.prev e = l.prev e

/-- **One turn of `slub_init_memmap`**, for a page above those that are on the list: the loop finds
the end, inserts there, and inserts once more. -/
theorem wp_linkPage {xs : List ℕ} (hf : s.lists.links.Front freeList (xs.map .pageLink))
    (hlt : ∀ q ∈ xs, q < p) :
    Act.wp (linkPage fuel p)
      (fun _ t => ∃ l, t = { s with lists := s.lists.mapLinks fun _ => l } ∧ Put s.lists.links l xs p)
      (fun e => e = .spin ∧ fuel ≤ xs.length + 1) s := by
  have hp : p ∉ xs := fun hmem => lt_irrefl p (hlt p hmem)
  have hfresh : (.pageLink p : ListEntry SlubList) ∉ freeList :: xs.map .pageLink := by simpa using hp
  have hend : s.lists.links.next (Links.before freeList (xs.map .pageLink)) = freeList :=
    hf.next _ [] (by simp)
  -- the first insertion
  have hput : Put s.lists.links
      (listAdd s.lists.links (Links.before freeList (xs.map .pageLink)) (.pageLink p)) xs p := by
    refine ⟨?_, fun e he => ?_⟩
    · rw [List.map_append]
      exact front_listAdd hf hfresh
    · have hbefore := Links.before_mem freeList (xs.map (@ListEntry.pageLink SlubList))
      refine listAdd_other ?_ ?_ ?_
      · rintro rfl
        simp at he
      · rintro rfl
        refine he ?_
        rw [List.map_append]
        exact List.mem_append_left _ hbefore
      · rw [hend]
        rintro rfl
        simp at he
  rw [linkPage, Act.wp_bind, Act.wp_get, Act.wp_ite]
  refine ⟨fun hempty => ?_, fun hempty => ?_⟩
  · rw [listEmpty, decide_eq_true_iff, hf.next_head] at hempty
    obtain rfl : xs = [] := by
      cases xs with
      | nil => rfl
      | cons x xs => simp at hempty
    exact ⟨_, rfl, hput⟩
  · have hxs : xs ≠ [] := by
      rintro rfl
      exact hempty (by simpa [listEmpty] using hf.next_head)
    -- the pages `ds` are still to pass; then come the turn at `p` itself, and the head
    refine Act.wp_loop
      (fun k le t =>
        (t = s ∧ ∃ cs ds, xs = cs ++ ds ∧ ds ≠ [] ∧ k = ds.length + 1 ∧
          le = Links.before freeList (cs.map .pageLink)) ∨
        (∃ l, t = { s with lists := s.lists.mapLinks fun _ => l } ∧ Put s.lists.links l xs p ∧ k = 1 ∧
          le = Links.before freeList (xs.map .pageLink)) ∨
        (∃ l, t = { s with lists := s.lists.mapLinks fun _ => l } ∧ Put s.lists.links l xs p ∧ k = 0 ∧
          le = .pageLink p)) ?_ fuel
      (xs.length + 1) freeList s (.inl ⟨rfl, [], xs, rfl, hxs, rfl, rfl⟩) (fun h => ⟨rfl, h⟩)
    rintro k le t (⟨rfl, cs, ds, rfl, hds, rfl, rfl⟩ | ⟨l, rfl, hl, rfl, rfl⟩ | ⟨l, rfl, hl, rfl, rfl⟩)
    · obtain ⟨d, ds, rfl⟩ := List.exists_cons_of_ne_nil hds
      have hd : ¬ p < d := by have := hlt d (by simp); omega
      have hnext := hf.next (cs.map .pageLink) ((d :: ds).map .pageLink) (by simp)
      have hnext' := hf.next ((cs ++ [d]).map .pageLink) (ds.map .pageLink) (by simp)
      rw [List.map_append, List.map_singleton, Links.before_concat] at hnext'
      simp only [Act.wp_bind, Act.wp_get, listNext, hnext, List.map_cons, Links.after_cons, hd,
        if_false, hnext']
      cases ds with
      | nil =>
        simp only [List.map_nil, Links.after_nil, if_true, Act.wp_bind, wp_store, Act.wp_pure,
          Sum.elim_inl]
        refine ⟨1, by simp, .inr (.inl ⟨_, rfl, ?_, rfl, by simp⟩)⟩
        simpa using hput
      | cons e ds =>
        simp only [List.map_cons, Links.after_cons, reduceCtorEq, if_false, Act.wp_pure,
          Sum.elim_inl]
        exact ⟨_, by simp, .inl ⟨trivial, cs ++ [d], e :: ds, by simp, by simp, rfl, by simp⟩⟩
    · have hfront := hl.front
      rw [List.map_append, List.map_singleton] at hfront
      have hnext := hfront.next (xs.map .pageLink) [.pageLink p] rfl
      have hnext' := hfront.next (xs.map .pageLink ++ [.pageLink p]) [] (by simp)
      rw [Links.before_concat] at hnext'
      simp only [Act.wp_bind, Act.wp_get, listNext, PageLists.links_mapLinks, hnext,
        Links.after_cons, lt_irrefl, if_false, hnext', Links.after_nil, if_true, wp_store,
        Act.wp_pure, Sum.elim_inl]
      refine ⟨0, by simp, .inr (.inr ⟨_, rfl, ⟨?_, fun e he => ?_⟩, rfl, trivial⟩)⟩
      · rw [List.map_append, List.map_singleton]
        exact front_listAdd_self hfront (by simpa using hxs)
      · have hep : e ≠ .pageLink p := by
          rintro rfl
          simp at he
        obtain ⟨hn, hpr⟩ := listAdd_other (l := l) (x := .pageLink p) hep hep (by
          rw [hnext']
          rintro rfl
          simp at he)
        exact ⟨hn.trans (hl.other e he).1, hpr.trans (hl.other e he).2⟩
    · have hfront := hl.front
      rw [List.map_append, List.map_singleton] at hfront
      have hnext := hfront.next (xs.map .pageLink ++ [.pageLink p]) [] (by simp)
      rw [Links.before_concat] at hnext
      simp only [Act.wp_bind, Act.wp_get, listNext, PageLists.links_mapLinks, hnext,
        Links.after_nil, Act.wp_pure, Sum.elim_inr]
      exact ⟨l, rfl, hl⟩

/-- The links that `Put` leaves alone keep the lists of slabs. -/
theorem Put.ring {l l' : Links (ListEntry SlubList)} {xs : List ℕ} (h : Put l l' xs p)
    {j : SlubList} (hj : j ≠ .freeList) (hr : l.Ring (.head j) []) : l'.Ring (.head j) [] := by
  rw [Links.Ring.nil_iff] at hr ⊢
  obtain ⟨hn, hp⟩ := h.other (.head j) (by simpa using hj)
  rw [hn, hp]
  exact hr

/-- The pages `xs` are on the free list, in order, and the lists of slabs are empty. -/
structure Booted (t : SlubAllocator) (xs : List ℕ) : Prop where
  front : t.lists.links.Front freeList (xs.map .pageLink)
  slabs : ∀ j ∈ slabLists, t.lists.links.Ring (.head j) []

/-- What `slub_init_memmap` stops with: the fuel is too little, or some page is not reserved. -/
def BootStop (s : SlubAllocator) (fuel need p n : ℕ) (e : Stop) : Prop :=
  (e = .spin ∧ fuel ≤ need) ∨
    (e = .panic ∧ ∃ q, p ≤ q ∧ q < p + n ∧ s.lists.pageReserved q = false)

/-- **The loop of `slub_init_memmap`** puts reserved pages on the free list, in order. -/
theorem wp_initPages (xs : List ℕ) (n p : ℕ) (s : SlubAllocator) (hs : Booted s xs)
    (hlt : ∀ q ∈ xs, q < p) :
    Act.wp (initPages fuel p n)
      (fun _ t => Booted t (xs ++ List.range' p n) ∧ t.initialized = s.initialized ∧
        t.sizeCaches = s.sizeCaches ∧ t.nrFree = s.nrFree)
      (BootStop s fuel (xs.length + n) p n) s := by
  induction n generalizing p xs s with
  | zero => simpa [initPages] using hs
  | succ n ih =>
    rw [initPages]
    simp only [Act.wp_bind, Act.wp_get, Act.wp_require, wp_store]
    refine ⟨fun hp => ?_, fun hp => .inr ⟨rfl, p, le_rfl, by omega, by simpa using hp⟩⟩
    refine Act.wp_mono (wp_linkPage hs.front hlt) (fun _ t ht => ?_) fun e he =>
      .inl ⟨he.1, by omega⟩
    obtain ⟨l, rfl, hput⟩ := ht
    have hrest := ih (xs ++ [p]) (p + 1)
      { s with lists := ((((s.lists.clearFlags p).setProperty p 0).setPageRef p 0).mapLinks
        fun _ => l) } ⟨hput.front, fun j hj => hput.ring ?_ (hs.slabs j hj)⟩ (fun q hq => ?_)
    · refine Act.wp_mono hrest (fun _ t ht => ?_) fun e he => ?_
      · obtain ⟨hboot, hrest⟩ := ht
        refine ⟨?_, hrest⟩
        rwa [List.range'_succ, List.append_cons]
      · rcases he with ⟨rfl, he⟩ | ⟨rfl, q, hlo, hhi, hq⟩
        · rw [List.length_append, List.length_singleton] at he
          exact .inl ⟨rfl, by omega⟩
        · refine .inr ⟨rfl, q, by omega, by omega, ?_⟩
          simpa [PageLists.pageReserved_clearFlags, show q ≠ p by omega] using hq
    · rintro rfl
      obtain ⟨i, -, hj⟩ := hj
      simp at hj
    · rcases List.mem_append.mp hq with hq | hq
      · have := hlt q hq
        omega
      · rw [List.mem_singleton.mp hq]
        omega

/-- **After boot** the pages are on the free list. -/
theorem wp_boot {base n : ℕ} (hs : s.initialized = false) :
    Act.wp (slubInit >>= fun _ => slubInitMemmap fuel base n)
      (fun _ t => t.initialized = true ∧ Pages base n t (List.range' base n) (fun _ => []) ∧
        ∀ i < SLUB_SIZE_NUM, t.sizeCaches i = ⟨sizes.getD i 0, strideOf i, 0, none, none⟩)
      (BootStop s fuel n base n) s := by
  rw [Act.wp_bind]
  refine Act.wp_mono (wp_slubInit hs) (fun _ t ht => ?_) fun _ => id
  obtain ⟨hinit, hcaches, hlists, hfree, hpage⟩ := ht
  have hboot : Booted t [] :=
    ⟨Links.Front.nil_iff.mpr (Links.Ring.nil_iff.mp (hlists _ (.inl rfl))),
      fun j hj => hlists j (.inr hj)⟩
  rw [slubInitMemmap, Act.wp_bind]
  refine Act.wp_mono (wp_initPages [] n base t hboot (by simp)) (fun _ u hu => ?_) fun e he => ?_
  · obtain ⟨⟨hfront, hslabs⟩, hui, huc, hun⟩ := hu
    rw [List.nil_append] at hfront
    simp only [Act.wp_bind, wp_store, Act.wp_modify]
    refine ⟨hui.trans hinit, ⟨hfront, ?_, ⟨hslabs, ?_⟩, by simp, fun page hp => ?_, by simp⟩,
      fun i hi => ?_⟩
    · simp [hun, hfree]
    · intro j _ j' _ hne
      simpa using Ne.symm hne
    · rw [List.mem_range'_1] at hp
      exact hp
    · rw [← hcaches i hi, ← huc]
  · rcases he with ⟨rfl, he⟩ | ⟨rfl, q, hlo, hhi, hq⟩
    · exact .inl ⟨rfl, by simpa using he⟩
    · rw [PageLists.pageReserved, hpage] at hq
      exact .inr ⟨rfl, q, hlo, hhi, hq⟩

/-! ## Moving a page -/

/-- **`page` went from the list `j` to the list `j'`**, and nothing else moved. -/
structure Moved (on on' : SlubList → List ℕ) (j j' : SlubList) (page : ℕ) : Prop where
  mem_old : ∀ q, q ∈ on' j ↔ q ∈ on j ∧ q ≠ page
  mem_new : ∀ q, q ∈ on' j' ↔ q ∈ on j' ∨ q = page
  other : ∀ k, k ≠ j → k ≠ j' → on' k = on k

theorem Moved.or_iff {on on' : SlubList → List ℕ} {j j' : SlubList} (h : Moved on on' j j' page)
    (hp : page ∈ on j) (q : ℕ) : q ∈ on' j ∨ q ∈ on' j' ↔ q ∈ on j ∨ q ∈ on j' := by
  rw [h.mem_old, h.mem_new]
  rcases eq_or_ne q page with rfl | hq
  · simp [hp]
  · simp [hq]

theorem map_update (on : SlubList → List ℕ) (j : SlubList) (ys : List ℕ) :
    Function.update (fun j => (on j).map (@ListEntry.pageLink SlubList)) j (ys.map .pageLink) =
      fun k => (Function.update on j ys k).map .pageLink :=
  (Function.comp_update (List.map (@ListEntry.pageLink SlubList)) on j ys).symm

namespace Pages

variable {base n : ℕ} {free : List ℕ} {on : SlubList → List ℕ}

/-- The free list shares no entry with the lists of slabs. -/
theorem pool_apart (h : Pages base n s free on) {e : ListEntry SlubList}
    (he : e ∈ freeList :: free.map .pageLink) (j : SlubList) (hj : j ∈ slabLists) :
    e ∉ .head j :: (on j).map .pageLink := by
  obtain ⟨i, -, hji⟩ := id hj
  rcases List.mem_cons.mp he with rfl | he
  · rcases hji with rfl | rfl <;> simp
  · obtain ⟨page, hpage, rfl⟩ := List.mem_map.mp he
    simpa using h.apart page hpage j hj

/-- **The first free page becomes a slab.** -/
theorem grant (h : Pages base n s (page :: free) on) (hi : i < SLUB_SIZE_NUM)
    (hlinks : t.lists.links = listAddBefore (listDel s.lists.links (.pageLink page)) (halfSlabs i)
      (.pageLink page)) (hcount : t.nrFree = s.nrFree - 1) :
    Pages base n t free (Function.update on (.halfSlabs i) (on (.halfSlabs i) ++ [page])) := by
  have hnd : (freeList :: .pageLink page :: free.map .pageLink).Nodup := h.pool.nodup
  have hprev : s.lists.links.prev (.pageLink page) = freeList := h.pool.prev
  have hnext : s.lists.links.next (.pageLink page) = Links.after freeList (free.map .pageLink) :=
    h.pool.next [.pageLink page] _ rfl
  have hafter : Links.after freeList (free.map .pageLink) ∈
      freeList :: (page :: free).map .pageLink := by
    have := Links.after_mem freeList (free.map (@ListEntry.pageLink SlubList))
    simp only [List.map_cons, List.mem_cons] at this ⊢
    tauto
  have hslabs : (listDel s.lists.links (.pageLink page)).Rings slabLists .head
      fun j => (on j).map .pageLink := by
    refine ⟨fun j hj => ?_, h.slabs.apart⟩
    rw [listDel, hprev, hnext]
    exact (h.slabs.ring j hj).unlink_other (h.pool_apart (by simp) j hj) (h.pool_apart hafter j hj)
  have hfresh : ∀ j ∈ slabLists, (.pageLink page : ListEntry SlubList) ∉
      .head j :: (on j).map .pageLink := fun j hj => h.pool_apart (by simp) j hj
  have hput := rings_listAddBefore hslabs (half_mem hi) hfresh
  rw [← List.map_singleton, ← List.map_append, map_update, ← hlinks] at hput
  refine ⟨?_, by simp [hcount, h.count], hput, fun q hq j hj => ?_, fun q hq => ?_, fun j hj q hq => ?_⟩
  · have hkeep : ∀ e ∈ freeList :: free.map .pageLink,
        t.lists.links.next e = (listDel s.lists.links (.pageLink page)).next e ∧
        t.lists.links.prev e = (listDel s.lists.links (.pageLink page)).prev e := by
      intro e he
      have hold := h.pool_apart (e := e) (by
        simp only [List.map_cons, List.mem_cons] at he ⊢
        tauto) _ (half_mem hi)
      rw [hlinks]
      refine listAddBefore_other ?_ ?_ ?_
      · rintro rfl
        simp only [List.nodup_cons, List.mem_cons, not_or] at hnd
        rcases List.mem_cons.mp he with he | he
        · exact absurd he (by simp)
        · exact hnd.2.1 he
      · rintro rfl
        exact hold (by simp)
      · rintro rfl
        rw [(hslabs.ring _ (half_mem hi)).prev_head] at hold
        exact hold (Links.before_mem _ _)
    exact (front_listDel h.pool).congr (fun e he => (hkeep e he).1) fun e he => (hkeep e he).2
  · have hqp : q ≠ page := by
      rintro rfl
      simp only [List.nodup_cons] at hnd
      exact hnd.2.1 (pageLink_mem_iff.mpr hq)
    have := h.apart q (by simp [hq])
    rcases eq_or_ne j (.halfSlabs i) with rfl | hji
    · simpa [hqp] using this _ hj
    · simpa [hji] using this j hj
  · exact h.free_mem q (by simp [hq])
  · rcases eq_or_ne j (.halfSlabs i) with rfl | hji
    · rw [Function.update_self, List.mem_append, List.mem_singleton] at hq
      rcases hq with hq | rfl
      · exact h.slab_mem _ hj q hq
      · exact h.free_mem q (by simp)
    · rw [Function.update_of_ne hji] at hq
      exact h.slab_mem j hj q hq

/-- **A slab moves from one list to another**, behind those that are there. -/
theorem move {j j' : SlubList} (h : Pages base n s free on) (hj : j ∈ slabLists) (hj' : j' ∈ slabLists)
    (hne : j ≠ j') (hp : page ∈ on j)
    (hlinks : t.lists.links = listAddBefore (listDel s.lists.links (.pageLink page)) (.head j')
      (.pageLink page)) (hcount : t.nrFree = s.nrFree) :
    ∃ on', Pages base n t free on' ∧ Moved on on' j j' page := by
  obtain ⟨u, v, huv⟩ := List.append_of_mem hp
  have hring := h.slabs.ring j hj
  have hcut : (on j).map (@ListEntry.pageLink SlubList) =
      u.map .pageLink ++ .pageLink page :: v.map .pageLink := by simp [huv]
  rw [hcut] at hring
  -- the list without the page, and the page on no list
  have hdel := rings_listDel h.slabs hj hcut
  rw [← List.map_append, map_update] at hdel
  have hnd : (u ++ page :: v).Nodup := by
    have := (h.slabs.ring j hj).nodup_entries.of_map
    rwa [huv] at this
  have hpage : page ∉ u ++ v := (List.nodup_cons.mp (List.nodup_middle.mp hnd)).1
  have hfresh : ∀ k ∈ slabLists, (.pageLink page : ListEntry SlubList) ∉
      .head k :: ((Function.update on j (u ++ v)) k).map .pageLink := by
    intro k hk
    rcases eq_or_ne k j with rfl | hkj
    · simpa using hpage
    · have hpk : page ∉ on k := fun hpk => hkj (h.list_unique hk hj hpk hp)
      simpa [hkj] using hpk
  have hput := rings_listAddBefore hdel hj' hfresh
  rw [← List.map_singleton, ← List.map_append, map_update, ← hlinks] at hput
  rw [Function.update_of_ne hne.symm] at hput
  have hon : ∀ k q, q ∈ Function.update (Function.update on j (u ++ v)) j' (on j' ++ [page]) k →
      q ∈ on k ∨ q = page := by
    intro k q hq
    rcases eq_or_ne k j' with rfl | hkj'
    · simpa using hq
    · rw [Function.update_of_ne hkj'] at hq
      rcases eq_or_ne k j with rfl | hkj
      · rw [Function.update_self] at hq
        refine .inl ?_
        rw [huv]
        simp only [List.mem_append, List.mem_cons] at hq ⊢
        tauto
      · rw [Function.update_of_ne hkj] at hq
        exact .inl hq
  refine ⟨_, ⟨?_, hcount.trans h.count, hput, fun q hq k hk hqk => ?_, h.free_mem, fun k hk q hq => ?_⟩,
    ⟨fun q => ?_, fun q => by simp, fun k hkj hkj' => ?_⟩⟩
  · have hkeep : ∀ e ∈ freeList :: free.map .pageLink,
        t.lists.links.next e = s.lists.links.next e ∧ t.lists.links.prev e = s.lists.links.prev e := by
      intro e he
      have hold := h.pool_apart he j hj
      have hold' := h.pool_apart he j' hj'
      rw [hcut] at hold
      have hd := listDel_other (l := s.lists.links) (x := .pageLink page) (y := e) (by
        rw [hring.next_entry]
        rintro rfl
        have := Links.after_mem (.head j) (v.map (@ListEntry.pageLink SlubList))
        simp only [List.mem_cons, List.mem_append] at this hold
        tauto) (by
        rw [hring.prev_entry]
        rintro rfl
        have := Links.before_mem (.head j) (u.map (@ListEntry.pageLink SlubList))
        simp only [List.mem_cons, List.mem_append] at this hold
        tauto)
      have ha := listAddBefore_other (l := listDel s.lists.links (.pageLink page)) (y := e)
        (x := .pageLink page) (a := .head j') (by
        rintro rfl
        simp at hold) (by
        rintro rfl
        simp at hold') (by
        have hprev := (hdel.ring j' hj').prev_head
        rw [Function.update_of_ne hne.symm] at hprev
        rw [hprev]
        rintro rfl
        exact hold' (Links.before_mem _ _))
      rw [hlinks]
      exact ⟨ha.1.trans hd.1, ha.2.trans hd.2⟩
    exact h.pool.congr (fun e he => (hkeep e he).1) fun e he => (hkeep e he).2
  · rcases hon k q hqk with hqk | rfl
    · exact h.apart q hq k hk hqk
    · exact h.apart q hq j hj hp
  · rcases hon k q hq with hq | rfl
    · exact h.slab_mem k hk q hq
    · exact h.slab_mem j hj q hp
  · rw [Function.update_of_ne hne, Function.update_self, huv]
    rw [List.mem_append] at hpage ⊢
    simp only [List.mem_append, List.mem_cons]
    rcases eq_or_ne q page with rfl | hq
    · simp [hpage]
    · simp [hq]
  · rw [Function.update_of_ne hkj', Function.update_of_ne hkj]

end Pages

end UCore.Slub
