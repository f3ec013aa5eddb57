import UCore.Mm.SlubSpec

/-!
# Mm/SlubRun — whole runs of the SLUB allocator

    │ hdr │ object 0 … │ hdr │ object 1 … │ hdr │ … │ unused │        a slab
      └──────────▸ the free list of the cache, through the headers of the objects that are not live

The slabs of a cache lay out its objects; the free list holds those that are not live, each once, and
an object that is live is on no list.  So no call hands out an object twice, and no write to a live
object reaches a header.
-/

namespace UCore.Slub

variable {m : KvaMap} {s t : SlubAllocator} {E : Stop → Prop} {fuel base n i j p page a b k size : ℕ}

/-- The live objects, each with the size asked for. -/
abbrev Live := ℕ → Option ℕ

/-- `page` is on a list of slabs of the cache `i`. -/
def SlabPage (s : SlubAllocator) (i page : ℕ) : Prop :=
  ∃ xs, (s.lists.links.Ring (halfSlabs i) xs ∨ s.lists.links.Ring (fullSlabs i) xs) ∧
    .pageLink page ∈ xs

/-- `a` is the address of an object of the cache `i`: of its header. -/
def Object (m : KvaMap) (s : SlubAllocator) (i a : ℕ) : Prop :=
  ∃ page k, SlabPage s i page ∧ k < (s.sizeCaches i).objectNum ∧
    a = m.page2kva page + k * (s.sizeCaches i).actualSize

/-- **Sound slabs**: a live object lies in a slab of its cache, and overlaps no other and no header;
and the free list of a cache holds its other objects, each once. -/
structure Sound (m : KvaMap) (s : SlubAllocator) (live : Live) : Prop where
  granted : ∀ p size, live p = some size → ∃ i page, slubSizeToIndex size = some i ∧
    SlabPage s i page ∧ m.page2kva page ≤ p ∧ p + size ≤ m.page2kva page + PGSIZE
  owner : ∀ i j page, i < SLUB_SIZE_NUM → j < SLUB_SIZE_NUM → SlabPage s i page → SlabPage s j page →
    i = j
  apart : ∀ p q size size', live p = some size → live q = some size' → p ≠ q →
    Disjoint (Finset.Ico p (p + size)) (Finset.Ico q (q + size'))
  headers : ∀ p size i a, live p = some size → i < SLUB_SIZE_NUM → Object m s i a →
    Disjoint (Finset.Ico p (p + size)) (Finset.Ico a (a + OBJECT_SIZE))
  free : ∀ i, i < SLUB_SIZE_NUM → ∃ xs, Thread (fun a => (s.object a).next) (s.sizeCaches i).freeList xs ∧
    xs.Nodup ∧ ∀ a, a ∈ xs ↔ Object m s i a ∧ live (a + OBJECT_SIZE) = none

/-- What the rest of the kernel may write: the bytes asked for, and memory that is no slab. -/
def Writable (m : KvaMap) (s : SlubAllocator) (live : Live) (b : ℕ) : Prop :=
  (∃ p size, live p = some size ∧ b ∈ Finset.Ico p (p + size)) ∨
    ∀ i page, i < SLUB_SIZE_NUM → SlabPage s i page →
      b ∉ Finset.Ico (m.page2kva page) (m.page2kva page + PGSIZE)

/-- **A run**: `slub_init`, one `slub_init_memmap`, and then calls of `slub_alloc` with sizes of at
most 2048, of `slub_free` on live objects with the size they were asked for, and writes. -/
inductive Run (m : KvaMap) (base n : ℕ) : SlubAllocator → Live → Prop
  | boot {s t : SlubAllocator} {fuel : ℕ} :
      s.initialized = false → (slubInit >>= fun _ => slubInitMemmap fuel base n) s = .ok ((), t) →
      Run m base n t fun _ => none
  | alloc {s t : SlubAllocator} {live : Live} {size p : ℕ} :
      Run m base n s live → size ≤ 2048 → slubAlloc m size s = .ok (some p, t) →
      Run m base n t (Function.update live p (some size))
  | allocNull {s t : SlubAllocator} {live : Live} {size : ℕ} :
      Run m base n s live → size ≤ 2048 → slubAlloc m size s = .ok (none, t) → Run m base n t live
  | free {s t : SlubAllocator} {live : Live} {fuel size p : ℕ} :
      Run m base n s live → live p = some size → slubFree m fuel p size s = .ok ((), t) →
      Run m base n t (Function.update live p none)
  | write {s : SlubAllocator} {live : Live} (object : ℕ → SlubObject) :
      Run m base n s live →
      (∀ a, (∀ b ∈ Finset.Ico a (a + OBJECT_SIZE), ¬ Writable m s live b) → object a = s.object a) →
      Run m base n { s with object := object } live

/-! ## The invariant -/

/-- **The objects**: the free list of a cache holds those of its slabs that are not live. -/
structure Objects (m : KvaMap) (s : SlubAllocator) (live : Live) (on : SlubList → List ℕ)
    (objs : ℕ → List ℕ) : Prop where
  stride : ∀ i < SLUB_SIZE_NUM, (s.sizeCaches i).actualSize = strideOf i
  num : ∀ i < SLUB_SIZE_NUM, ∀ page, Owns on i page → (s.sizeCaches i).objectNum = countOf i
  current : ∀ i < SLUB_SIZE_NUM, ∀ page, (s.sizeCaches i).slabPage = some page →
    page ∈ on (.halfSlabs i)
  thread : ∀ i < SLUB_SIZE_NUM,
    Thread (fun a => (s.object a).next) (s.sizeCaches i).freeList (objs i)
  mem_objs : ∀ i < SLUB_SIZE_NUM, ∀ a, a ∈ objs i ↔ Slot m on i a ∧ live (a + OBJECT_SIZE) = none
  live : ∀ p size, live p = some size →
    ∃ i a, slubSizeToIndex size = some i ∧ Slot m on i a ∧ p = a + OBJECT_SIZE

/-- **The invariant of the allocator.** -/
structure Kept (m : KvaMap) (base n : ℕ) (s : SlubAllocator) (live : Live) (free : List ℕ)
    (on : SlubList → List ℕ) (objs : ℕ → List ℕ) : Prop where
  initialized : s.initialized = true
  pages : Pages base n s free on
  objects : Objects m s live on objs

namespace Kept

variable {live : Live} {free : List ℕ} {on : SlubList → List ℕ} {objs : ℕ → List ℕ}

theorem slabPage_iff (h : Kept m base n s live free on objs) (hi : i < SLUB_SIZE_NUM) :
    SlabPage s i page ↔ Owns on i page := by
  have hhalf := h.pages.slabs.ring _ (half_mem hi)
  have hfull := h.pages.slabs.ring _ (full_mem hi)
  refine ⟨?_, fun ho => ?_⟩
  · rintro ⟨xs, hxs | hxs, hmem⟩
    · rw [hxs.unique hhalf] at hmem
      exact .inl (pageLink_mem_iff.mp hmem)
    · rw [hxs.unique hfull] at hmem
      exact .inr (pageLink_mem_iff.mp hmem)
  · rcases ho with ho | ho
    · exact ⟨_, .inl hhalf, pageLink_mem_iff.mpr ho⟩
    · exact ⟨_, .inr hfull, pageLink_mem_iff.mpr ho⟩

theorem object_iff (h : Kept m base n s live free on objs) (hi : i < SLUB_SIZE_NUM) :
    Object m s i a ↔ Slot m on i a := by
  refine exists_congr fun page => exists_congr fun k => ?_
  rw [h.slabPage_iff hi, h.objects.stride i hi]
  refine and_congr_right fun ho => ?_
  rw [h.objects.num i hi page ho]

/-- A live object, with its cache. -/
theorem slot_of_live (h : Kept m base n s live free on objs) (hp : live p = some size) :
    ∃ i a, slubSizeToIndex size = some i ∧ i < SLUB_SIZE_NUM ∧ Slot m on i a ∧ p = a + 16 ∧
      16 + size ≤ strideOf i := by
  obtain ⟨i, a, hidx, hslot, hpa⟩ := h.objects.live p size hp
  obtain ⟨hi, hsize⟩ := slubSizeToIndex_spec hidx
  obtain ⟨hfit, -⟩ := sizes_fit hi
  exact ⟨i, a, hidx, hi, hslot, hpa, by omega⟩

/-- **The invariant makes the slabs sound.** -/
theorem sound (hm : Mapped m base n) (h : Kept m base n s live free on objs) : Sound m s live where
  granted p size hp := by
    obtain ⟨i, a, hidx, hi, ⟨page, k, ho, hk, rfl⟩, rfl, hfit⟩ := h.slot_of_live hp
    have hb := slot_bounds hi hk
    refine ⟨i, page, hidx, (h.slabPage_iff hi).mpr ho, by omega, ?_⟩
    change _ ≤ _ + 4096
    omega
  owner i j page hi hj ho ho' :=
    h.pages.owner_unique hi hj ((h.slabPage_iff hi).mp ho) ((h.slabPage_iff hj).mp ho')
  apart p q size size' hp hq hpq := by
    obtain ⟨i, a, -, hi, ha, rfl, hfit⟩ := h.slot_of_live hp
    obtain ⟨j, b, -, hj, hb, rfl, hfit'⟩ := h.slot_of_live hq
    have := h.pages.slots_apart hm hi hj ha hb (by omega)
    rw [Finset.disjoint_left]
    intro x hx hx'
    rw [Finset.mem_Ico] at hx hx'
    omega
  headers p size j b hp hj hb := by
    obtain ⟨i, a, -, hi, ha, rfl, hfit⟩ := h.slot_of_live hp
    rw [h.object_iff hj] at hb
    obtain ⟨hfit', -⟩ := sizes_fit hj
    rw [Finset.disjoint_left]
    intro x hx hx'
    change x ∈ Finset.Ico b (b + 16) at hx'
    rw [Finset.mem_Ico] at hx hx'
    rcases eq_or_ne a b with rfl | hab
    · omega
    · have := h.pages.slots_apart hm hi hj ha hb hab
      omega
  free i hi := by
    refine ⟨objs i, h.objects.thread i hi, (h.objects.thread i hi).nodup, fun a => ?_⟩
    rw [h.objects.mem_objs i hi, h.object_iff hi]

end Kept

/-! ## A new slab -/

/-- **The loop of `slub_alloc_slab_page`** links each object to the next one; the objects of a slab
fit, so the check against the end of the page never fires. -/
theorem wp_initObjects {stride pageEnd : ℕ} (count current : ℕ) (hpos : 0 < stride)
    (hfit : current + count * stride < pageEnd) :
    Act.wp (initObjects i stride pageEnd count k current)
      (fun r t => r = current + count * stride ∧ ∃ object, t = { s with object := object } ∧
        (∀ c < count, object (current + c * stride) = ⟨some (current + (c + 1) * stride), i⟩) ∧
        ∀ a, (∀ c < count, a ≠ current + c * stride) → object a = s.object a) E s := by
  induction count generalizing k current s with
  | zero => exact ⟨by simp, s.object, rfl, by simp, fun _ _ => rfl⟩
  | succ count ih =>
    rw [Nat.succ_mul] at hfit
    rw [initObjects]
    have hin : ¬ current + stride ≥ pageEnd := by
      have := Nat.zero_le (count * stride)
      omega
    simp only [hin, if_false, Act.wp_bind, wp_setObject]
    refine Act.wp_mono (ih (current + stride) (by omega)) (fun r t ht => ?_) fun _ => id
    obtain ⟨rfl, object, rfl, hobj, hother⟩ := ht
    refine ⟨by ring, object, rfl, fun c hc => ?_, fun a ha => ?_⟩
    · cases c with
      | zero =>
        rw [Nat.zero_mul, Nat.add_zero, hother current fun c _ => by have := Nat.zero_le (c * stride); omega]
        simp
      | succ c =>
        have := hobj c (by omega)
        rw [show current + (c + 1) * stride = current + stride + c * stride by ring, this]
        congr 2
        ring
    · have hne : a ≠ current := by simpa using ha 0 (by omega)
      rw [hother a fun c hc heq => ha (c + 1) (by omega) (by rw [heq]; ring)]
      exact Function.update_of_ne hne ..

/-- **What taking an object does to the slabs** of its cache: when it was the last free one, the
current slab goes to the full list. -/
def Filled (s t : SlubAllocator) (on on' : SlubList → List ℕ) (i : ℕ) (rest : List ℕ) : Prop :=
  (∀ j, j ≠ i → t.sizeCaches j = s.sizeCaches j) ∧
    ((rest = [] ∧ ∃ page, (s.sizeCaches i).slabPage = some page ∧
        (t.sizeCaches i).slabPage = none ∧ Moved on on' (.halfSlabs i) (.fullSlabs i) page) ∨
      ((rest = [] → (s.sizeCaches i).slabPage = none) ∧ on' = on ∧
        (t.sizeCaches i).slabPage = (s.sizeCaches i).slabPage))

/-- The objects of a slab, in order. -/
def slots (m : KvaMap) (i page : ℕ) : List ℕ :=
  (List.range' 0 (countOf i)).map fun k => m.page2kva page + k * strideOf i

theorem mem_slots : a ∈ slots m i page ↔ ∃ k < countOf i, a = m.page2kva page + k * strideOf i := by
  simp [slots, eq_comm]

namespace Kept

variable {live : Live} {free : List ℕ} {on : SlubList → List ℕ} {objs : ℕ → List ℕ}

/-- An object lies in its page. -/
theorem slot_page (hi : i < SLUB_SIZE_NUM) (ha : Slot m on i a) : ∃ page, Owns on i page ∧
    m.page2kva page ≤ a ∧ a + strideOf i ≤ m.page2kva page + 4096 := by
  obtain ⟨page, k, ho, hk, rfl⟩ := ha
  have := slot_bounds hi hk
  exact ⟨page, ho, by omega, by omega⟩

/-- An object of a cache is in no page that is free. -/
theorem slot_notMem (hm : Mapped m base n) (h : Kept m base n s live free on objs)
    (hi : i < SLUB_SIZE_NUM) (hj : j < SLUB_SIZE_NUM) (hp : page ∈ free) (ha : Slot m on i a)
    (hb : a ∈ slots m j page) : False := by
  obtain ⟨q, ho, hlo, hhi⟩ := slot_page hi ha
  obtain ⟨k, hk, rfl⟩ := mem_slots.mp hb
  have hkb := slot_bounds hj hk
  obtain ⟨hsi, -⟩ := sizes_fit hi
  obtain ⟨hsj, -⟩ := sizes_fit hj
  have hne : page ≠ q := by
    rintro rfl
    exact ho.elim (h.pages.apart page hp _ (half_mem hi)) (h.pages.apart page hp _ (full_mem hi))
  have := hm.apart (h.pages.free_mem page hp) (h.pages.owns_mem hi ho) hne
  omega

/-- **A page that becomes a slab** brings its objects, none of them live. -/
theorem slab (hm : Mapped m base n) (h : Kept m base n s live (page :: free) on objs)
    (hi : i < SLUB_SIZE_NUM) (hempty : objs i = []) {kva : ℕ} (hkva : kva = m.page2kva page)
    (hinit : t.initialized = s.initialized)
    (hlinks : t.lists.links = listAddBefore (listDel s.lists.links (.pageLink page)) (halfSlabs i)
      (.pageLink page)) (hcount : t.nrFree = s.nrFree - 1)
    (hcache : t.sizeCaches i = ⟨(s.sizeCaches i).objectSize, strideOf i, countOf i, some page, some kva⟩)
    (hothers : ∀ j, j ≠ i → t.sizeCaches j = s.sizeCaches j)
    (hobject : ∀ k, k + 1 < countOf i →
      (t.object (kva + k * strideOf i)).next = some (kva + (k + 1) * strideOf i))
    (hlast : (t.object (kva + (countOf i - 1) * strideOf i)).next = none)
    (hrest : ∀ a, a ∉ slots m i page → t.object a = s.object a) :
    Kept m base n t live free
      (Function.update on (.halfSlabs i) (on (.halfSlabs i) ++ [page]))
      (Function.update objs i (slots m i page)) := by
  subst hkva
  have hpages := h.pages.grant hi hlinks hcount
  have hcnt := (sizes_fit hi).2.1
  -- what the lists hold now
  have howns : ∀ j q, Owns (Function.update on (.halfSlabs i) (on (.halfSlabs i) ++ [page])) j q ↔
      Owns on j q ∨ j = i ∧ q = page := by
    intro j q
    rcases eq_or_ne j i with rfl | hji
    · simp [Owns]
      tauto
    · simp [Owns, hji]
  have hslot : ∀ j a, Slot m (Function.update on (.halfSlabs i) (on (.halfSlabs i) ++ [page])) j a ↔
      Slot m on j a ∨ j = i ∧ a ∈ slots m i page := by
    intro j a
    rw [mem_slots]
    constructor
    · rintro ⟨q, k, ho, hk, rfl⟩
      rcases (howns j q).mp ho with ho | ⟨rfl, rfl⟩
      · exact .inl ⟨q, k, ho, hk, rfl⟩
      · exact .inr ⟨rfl, k, hk, rfl⟩
    · rintro (⟨q, k, ho, hk, rfl⟩ | ⟨rfl, k, hk, rfl⟩)
      · exact ⟨q, k, (howns j q).mpr (.inl ho), hk, rfl⟩
      · exact ⟨page, k, (howns j page).mpr (.inr ⟨rfl, rfl⟩), hk, rfl⟩
  refine ⟨hinit.trans h.initialized, hpages, fun j hj => ?_, fun j hj q ho => ?_, fun j hj q hq => ?_,
    fun j hj => ?_, fun j hj a => ?_, fun p size hp => ?_⟩
  · rcases eq_or_ne j i with rfl | hji
    · rw [hcache]
    · rw [hothers j hji, h.objects.stride j hj]
  · rcases eq_or_ne j i with rfl | hji
    · rw [hcache]
    · rw [hothers j hji, h.objects.num j hj q (((howns j q).mp ho).resolve_right fun hc => hji hc.1)]
  · rcases eq_or_ne j i with rfl | hji
    · rw [hcache] at hq
      simp [Option.some.inj hq]
    · rw [hothers j hji] at hq
      rw [Function.update_of_ne (by simpa using hji)]
      exact h.objects.current j hj q hq
  · rcases eq_or_ne j i with rfl | hji
    · rw [Function.update_self, hcache, slots]
      have hthread : Thread (fun a => (t.object a).next) (some (m.page2kva page + 0 * strideOf j))
          ((List.range' 0 (countOf j - 1 + 1)).map fun k => m.page2kva page + k * strideOf j) :=
        Thread.ofRange (fun k => m.page2kva page + k * strideOf j)
          (fun k _ hk => hobject k (by omega)) (by simpa using hlast)
      rw [Nat.sub_add_cancel hcnt] at hthread
      simpa using hthread
    · rw [Function.update_of_ne hji, hothers j hji]
      refine (h.objects.thread j hj).congr fun a ha => ?_
      rw [hrest a]
      exact fun hmem => h.slot_notMem hm hj hi (by simp) ((h.objects.mem_objs j hj a).mp ha).1 hmem
  · rw [hslot]
    rcases eq_or_ne j i with rfl | hji
    · rw [Function.update_self]
      refine ⟨fun ha => ⟨.inr ⟨rfl, ha⟩, ?_⟩, fun ha => ?_⟩
      · -- a live object would be in another slab
        by_contra hsome
        obtain ⟨size, hsize⟩ := Option.ne_none_iff_exists'.mp hsome
        obtain ⟨l, b, -, hl, hb, hab, -⟩ := h.slot_of_live hsize
        obtain rfl : a = b := Nat.add_right_cancel hab
        exact h.slot_notMem hm hl hj (by simp) hb ha
      · rcases ha.1 with hold | ⟨-, hnew⟩
        · have := (h.objects.mem_objs j hj a).mpr ⟨hold, ha.2⟩
          rw [hempty] at this
          exact absurd this (by simp)
        · exact hnew
    · rw [Function.update_of_ne hji, h.objects.mem_objs j hj]
      simp [hji]
  · obtain ⟨j, a, hidx, ha, hpa⟩ := h.objects.live p size hp
    exact ⟨j, a, hidx, (hslot j a).mpr (.inl ha), hpa⟩

/-- **`slub_alloc_slab_page`** makes a slab of the first free page, if there is one. -/
theorem wp_slubAllocSlabPage (hm : Mapped m base n) (h : Kept m base n s live free on objs)
    (hi : i < SLUB_SIZE_NUM) (hempty : objs i = []) :
    Act.wp (slubAllocSlabPage m i) (fun r t =>
      (r = none ∧ t = s) ∨
      ∃ page free', r = some page ∧ free = page :: free' ∧ (t.sizeCaches i).slabPage = some page ∧
        (∀ j, j ≠ i → t.sizeCaches j = s.sizeCaches j) ∧
        Kept m base n t live free'
          (Function.update on (.halfSlabs i) (on (.halfSlabs i) ++ [page]))
          (Function.update objs i (slots m i page))) E s := by
  obtain ⟨hfit, hcnt, hle⟩ := sizes_fit hi
  have hstride := h.objects.stride i hi
  rw [slubAllocSlabPage]
  simp only [Act.wp_bind, Act.wp_get, Act.wp_ite, Act.wp_pure]
  refine ⟨fun _ => .inl ⟨trivial, trivial⟩, fun hcount => ?_⟩
  rw [h.pages.count] at hcount
  obtain ⟨page, free, rfl⟩ := List.exists_cons_of_ne_nil
    (List.ne_nil_of_length_pos (show 0 < free.length by omega))
  have hnext : listNext s.lists.links freeList = .pageLink page := h.pages.pool.next_head
  rw [hnext]
  simp only [Act.wp_bind, Act.wp_get, Act.wp_ite, Act.wp_pure, wp_store, Act.wp_modify, wp_setCache,
    hstride]
  refine ⟨fun hzero => by omega, fun _ => ?_⟩
  have hlast : m.page2kva page + (countOf i - 1) * strideOf i < m.page2kva page + PGSIZE := by
    have := slot_bounds hi (show countOf i - 1 < countOf i by omega)
    change _ < m.page2kva page + 4096
    omega
  refine Act.wp_mono (wp_initObjects (countOf i - 1) _ (by omega) hlast) (fun r t ht => ?_) fun _ => id
  obtain ⟨rfl, object, rfl, hobj, hother⟩ := ht
  simp only [wp_setObject]
  refine .inr ⟨page, free, rfl, rfl, by simp, fun j hji => by simp [hji],
    h.slab hm hi hempty rfl rfl rfl rfl ?_ ?_ ?_ ?_ ?_⟩
  · simp [countOf]
  · intro j hji
    simp [hji]
  · intro k hk
    have hne : m.page2kva page + k * strideOf i ≠ m.page2kva page + (countOf i - 1) * strideOf i := by
      intro heq
      have := Nat.eq_of_mul_eq_mul_right (by omega) (Nat.add_left_cancel heq)
      omega
    change (Function.update object _ _ _).next = _
    rw [Function.update_of_ne hne, hobj k (by omega)]
  · simp
  · intro a ha
    rw [mem_slots] at ha
    change Function.update object _ _ a = _
    rw [Function.update_of_ne, hother a]
    · exact fun c hc heq => ha ⟨c, by omega, heq⟩
    · exact fun heq => ha ⟨countOf i - 1, by omega, heq⟩

/-! ## Taking an object, and giving one back -/

/-- **The first free object becomes live.** -/
theorem take (hm : Mapped m base n) (h : Kept m base n s live free on objs) (hi : i < SLUB_SIZE_NUM)
    {rest : List ℕ} {on' : SlubList → List ℕ} (hobjs : objs i = a :: rest)
    (hidx : slubSizeToIndex size = some i) (hinit : t.initialized = s.initialized)
    (hpages : Pages base n t free on') (howns : ∀ j q, Owns on' j q ↔ Owns on j q)
    (hcurrent : ∀ j, j ≠ i → on' (.halfSlabs j) = on (.halfSlabs j))
    (hcur : ∀ q, (t.sizeCaches i).slabPage = some q → q ∈ on' (.halfSlabs i))
    (hcache : (t.sizeCaches i).actualSize = (s.sizeCaches i).actualSize ∧
      (t.sizeCaches i).objectNum = (s.sizeCaches i).objectNum ∧
      (t.sizeCaches i).freeList = (s.object a).next)
    (hothers : ∀ j, j ≠ i → t.sizeCaches j = s.sizeCaches j) (hobject : t.object = s.object) :
    Kept m base n t (Function.update live (a + 16) (some size)) free on'
      (Function.update objs i rest) := by
  have hslot : ∀ j b, Slot m on' j b ↔ Slot m on j b := fun j b =>
    exists_congr fun q => exists_congr fun k => and_congr_left fun _ => howns j q
  have ha : a ∈ objs i := by simp [hobjs]
  have hai := ((h.objects.mem_objs i hi a).mp ha).1
  have hthread := h.objects.thread i hi
  rw [hobjs] at hthread
  refine ⟨hinit.trans h.initialized, hpages, fun j hj => ?_, fun j hj q ho => ?_, fun j hj q hq => ?_,
    fun j hj => ?_, fun j hj b => ?_, fun p size' hp => ?_⟩
  · rcases eq_or_ne j i with rfl | hji
    · rw [hcache.1, h.objects.stride j hj]
    · rw [hothers j hji, h.objects.stride j hj]
  · have := h.objects.num j hj q ((howns j q).mp ho)
    rcases eq_or_ne j i with rfl | hji
    · rw [hcache.2.1, this]
    · rw [hothers j hji, this]
  · rcases eq_or_ne j i with rfl | hji
    · exact hcur q hq
    · rw [hothers j hji] at hq
      rw [hcurrent j hji]
      exact h.objects.current j hj q hq
  · rw [hobject]
    rcases eq_or_ne j i with rfl | hji
    · rw [Function.update_self, hcache.2.2]
      exact hthread.2
    · rw [Function.update_of_ne hji, hothers j hji]
      exact h.objects.thread j hj
  · rw [hslot]
    have hnd := (h.objects.thread i hi).nodup
    rw [hobjs] at hnd
    rcases eq_or_ne j i with rfl | hji
    · have hb := h.objects.mem_objs j hj b
      rw [hobjs, List.mem_cons] at hb
      rw [Function.update_self]
      rcases eq_or_ne b a with rfl | hba
      · simp [(List.nodup_cons.mp hnd).1]
      · rw [Function.update_of_ne (show b + 16 ≠ a + 16 by omega), ← hb]
        simp [hba]
    · rw [Function.update_of_ne hji, h.objects.mem_objs j hj]
      refine and_congr_right fun hbj => ?_
      have hba : b ≠ a := by
        rintro rfl
        exact hji (h.pages.slot_unique hm hj hi hbj hai)
      rw [Function.update_of_ne (show b + 16 ≠ a + 16 by omega)]
  · rcases eq_or_ne p (a + 16) with rfl | hpa
    · rw [Function.update_self] at hp
      obtain rfl := Option.some.inj hp
      exact ⟨i, a, hidx, (hslot i a).mpr hai, rfl⟩
    · rw [Function.update_of_ne hpa] at hp
      obtain ⟨j, b, hj, hb, hpb⟩ := h.objects.live p size' hp
      exact ⟨j, b, hj, (hslot j b).mpr hb, hpb⟩

/-- **The end of `slub_alloc`** hands out an object that was not live. -/
theorem wp_takeObject (hm : Mapped m base n) (h : Kept m base n s live free on objs)
    (hi : i < SLUB_SIZE_NUM) (hobjs : objs i ≠ []) (hidx : slubSizeToIndex size = some i) :
    Act.wp (takeObject i) (fun r t => ∃ a rest on', objs i = a :: rest ∧ r = some (a + 16) ∧
      live (a + 16) = none ∧ Filled s t on on' i rest ∧
      Kept m base n t (Function.update live (a + 16) (some size)) free on'
        (Function.update objs i rest)) E s := by
  obtain ⟨a, rest, hobjs⟩ := List.exists_cons_of_ne_nil hobjs
  have hthread := h.objects.thread i hi
  rw [hobjs] at hthread
  obtain ⟨hfree, hrest⟩ := hthread
  dsimp only at hrest
  have hnone : live (a + 16) = none := ((h.objects.mem_objs i hi a).mp (by simp [hobjs])).2
  rw [takeObject]
  simp only [Act.wp_bind, Act.wp_get, hfree, wp_setCache, Function.update_self]
  split
  · next page hnext hpage =>
    have hhalf := h.objects.current i hi page hpage
    simp only [Act.wp_bind, Act.wp_pure, wp_store, wp_setCache]
    obtain ⟨on', hpages, hmoved⟩ := h.pages.move (t := { s with
      lists := (s.lists.mapLinks (listDel · (.pageLink page))).mapLinks
        (listAddBefore · (fullSlabs i) (.pageLink page)) }) (half_mem hi) (full_mem hi)
      (by simp) hhalf rfl rfl
    have hnil : rest = [] := by
      rw [hnext] at hrest
      exact hrest.eq_nil
    refine ⟨a, rest, on', hobjs, rfl, hnone,
      ⟨fun j hji => by simp [hji], .inl ⟨hnil, page, hpage, by simp, hmoved⟩⟩,
      h.take hm hi hobjs hidx rfl
      (hpages.congr rfl rfl) (fun j q => ?_)
      (fun j hji => hmoved.other _ (by simpa using hji) (by simp)) ?_ ⟨?_, ?_, ?_⟩
      (fun j hji => ?_) rfl⟩
    · rcases eq_or_ne j i with rfl | hji
      · exact hmoved.or_iff hhalf q
      · rw [Owns, Owns, hmoved.other _ (by simpa using hji) (by simp),
          hmoved.other _ (by simp) (by simpa using hji)]
    · simp
    · simp
    · simp
    · simp [hnext]
    · simp [hji]
  · next hstay =>
    rw [Act.wp_pure]
    have hcur : rest = [] → (s.sizeCaches i).slabPage = none := by
      rintro rfl
      by_contra hsome
      obtain ⟨page, hpage⟩ := Option.ne_none_iff_exists'.mp hsome
      exact hstay page hrest hpage
    refine ⟨a, rest, on, hobjs, rfl, hnone,
      ⟨fun j hji => by simp [hji], .inr ⟨hcur, rfl, by simp⟩⟩, h.take hm hi hobjs hidx rfl
      (h.pages.congr rfl rfl) (fun _ _ => Iff.rfl) (fun _ _ => rfl) (fun q hq => ?_) ⟨?_, ?_, ?_⟩
      (fun j hji => ?_) rfl⟩
    · exact h.objects.current i hi q (by simpa using hq)
    · simp
    · simp
    · simp
    · simp [hji]

/-- **`slub_alloc` in two parts**: a new slab, when the cache has no free object, and an object. -/
theorem wp_slubAlloc_of {Q : Option ℕ → SlubAllocator → Prop} (hm : Mapped m base n)
    (h : Kept m base n s live free on objs) (hidx : slubSizeToIndex size = some i)
    (hnull : objs i = [] → Q none s)
    (hnew : ∀ page free' t, objs i = [] → free = page :: free' →
      (t.sizeCaches i).slabPage = some page → (∀ j, j ≠ i → t.sizeCaches j = s.sizeCaches j) →
      Kept m base n t live free'
        (Function.update on (.halfSlabs i) (on (.halfSlabs i) ++ [page]))
        (Function.update objs i (slots m i page)) → Act.wp (takeObject i) Q E t)
    (hold : objs i ≠ [] → Act.wp (takeObject i) Q E s) : Act.wp (slubAlloc m size) Q E s := by
  obtain ⟨hi, -⟩ := slubSizeToIndex_spec hidx
  have hthread := h.objects.thread i hi
  rw [slubAlloc]
  dsimp only
  simp only [Act.wp_bind, Act.wp_get, Act.wp_ite, h.initialized, hidx, not_true_eq_false,
    false_implies, not_false_eq_true, true_implies, true_and]
  refine ⟨fun hnone => ?_, fun hsome => hold fun hnil => ?_⟩
  · rw [hnone] at hthread
    have hnil := hthread.eq_nil
    refine Act.wp_mono (h.wp_slubAllocSlabPage hm hi hnil) (fun r t ht => ?_) fun _ => id
    rcases ht with ⟨rfl, rfl⟩ | ⟨page, free', rfl, hfree, hpage, hothers, ht⟩
    · exact hnull hnil
    · exact hnew page free' t hnil hfree hpage hothers ht
  · rw [hnil] at hthread
    exact hsome hthread

/-- **`slub_alloc`** hands out an object that was not live, or nothing. -/
theorem wp_slubAlloc (hm : Mapped m base n) (h : Kept m base n s live free on objs)
    (hidx : slubSizeToIndex size = some i) :
    Act.wp (slubAlloc m size) (fun r t =>
      (r = none ∧ ∃ free on objs, Kept m base n t live free on objs) ∨
      ∃ p, r = some p ∧ live p = none ∧
        ∃ free on objs, Kept m base n t (Function.update live p (some size)) free on objs) E s := by
  obtain ⟨hi, -⟩ := slubSizeToIndex_spec hidx
  refine h.wp_slubAlloc_of hm hidx (fun _ => .inl ⟨rfl, free, on, objs, h⟩)
    (fun page free' t _ _ _ _ ht => ?_) fun hne => ?_
  · have hne : Function.update objs i (slots m i page) i ≠ [] := by
      have := (sizes_fit hi).2.1
      simp [slots]
      omega
    refine Act.wp_mono (ht.wp_takeObject hm hi hne hidx) (fun r u hu => ?_) fun _ => id
    obtain ⟨a, rest, on', -, rfl, hp, -, hu⟩ := hu
    exact .inr ⟨_, rfl, hp, _, _, _, hu⟩
  · refine Act.wp_mono (h.wp_takeObject hm hi hne hidx) (fun r u hu => ?_) fun _ => id
    obtain ⟨a, rest, on', -, rfl, hp, -, hu⟩ := hu
    exact .inr ⟨_, rfl, hp, _, _, _, hu⟩

/-- **A live object becomes the first free one.** -/
theorem give (hm : Mapped m base n) (h : Kept m base n s live free on objs) (hi : i < SLUB_SIZE_NUM)
    {on' : SlubList → List ℕ} (ha : Slot m on i a) (hlive : live (a + 16) = some size)
    (hinit : t.initialized = s.initialized)
    (hpages : Pages base n t free on') (howns : ∀ j q, Owns on' j q ↔ Owns on j q)
    (hcurrent : ∀ j, j ≠ i → on' (.halfSlabs j) = on (.halfSlabs j))
    (hcur : ∀ q, (t.sizeCaches i).slabPage = some q → q ∈ on' (.halfSlabs i))
    (hcache : (t.sizeCaches i).actualSize = (s.sizeCaches i).actualSize ∧
      (t.sizeCaches i).objectNum = (s.sizeCaches i).objectNum ∧ (t.sizeCaches i).freeList = some a)
    (hothers : ∀ j, j ≠ i → t.sizeCaches j = s.sizeCaches j)
    (hobject : t.object = Function.update s.object a
      { s.object a with next := (s.sizeCaches i).freeList }) :
    Kept m base n t (Function.update live (a + 16) none) free on'
      (Function.update objs i (a :: objs i)) := by
  have hslot : ∀ j b, Slot m on' j b ↔ Slot m on j b := fun j b =>
    exists_congr fun q => exists_congr fun k => and_congr_left fun _ => howns j q
  have hnot : ∀ j, j < SLUB_SIZE_NUM → a ∉ objs j := by
    intro j hj hmem
    have := ((h.objects.mem_objs j hj a).mp hmem).2
    rw [show live (a + OBJECT_SIZE) = some size from hlive] at this
    exact absurd this (by simp)
  have hnext : (fun b => (t.object b).next) =
      Function.update (fun b => (s.object b).next) a (s.sizeCaches i).freeList := by
    funext b
    rw [hobject]
    rcases eq_or_ne b a with rfl | hba
    · simp
    · simp [hba]
  refine ⟨hinit.trans h.initialized, hpages, fun j hj => ?_, fun j hj q ho => ?_, fun j hj q hq => ?_,
    fun j hj => ?_, fun j hj b => ?_, fun p size' hp => ?_⟩
  · rcases eq_or_ne j i with rfl | hji
    · rw [hcache.1, h.objects.stride j hj]
    · rw [hothers j hji, h.objects.stride j hj]
  · have := h.objects.num j hj q ((howns j q).mp ho)
    rcases eq_or_ne j i with rfl | hji
    · rw [hcache.2.1, this]
    · rw [hothers j hji, this]
  · rcases eq_or_ne j i with rfl | hji
    · exact hcur q hq
    · rw [hothers j hji] at hq
      rw [hcurrent j hji]
      exact h.objects.current j hj q hq
  · rw [hnext]
    rcases eq_or_ne j i with rfl | hji
    · rw [Function.update_self, hcache.2.2]
      exact (h.objects.thread j hj).push (hnot j hj)
    · rw [Function.update_of_ne hji, hothers j hji]
      exact (h.objects.thread j hj).congr fun b hb =>
        Function.update_of_ne (ne_of_mem_of_not_mem hb (hnot j hj)) ..
  · rw [hslot]
    rcases eq_or_ne j i with rfl | hji
    · rw [Function.update_self, List.mem_cons]
      rcases eq_or_ne b a with rfl | hba
      · simp [ha]
      · rw [Function.update_of_ne (show b + 16 ≠ a + 16 by omega), ← h.objects.mem_objs j hj b]
        simp [hba]
    · rw [Function.update_of_ne hji, h.objects.mem_objs j hj]
      refine and_congr_right fun hbj => ?_
      have hba : b ≠ a := by
        rintro rfl
        exact hji (h.pages.slot_unique hm hj hi hbj ha)
      rw [Function.update_of_ne (show b + 16 ≠ a + 16 by omega)]
  · rcases eq_or_ne p (a + 16) with rfl | hpa
    · rw [Function.update_self] at hp
      exact absurd hp (by simp)
    · rw [Function.update_of_ne hpa] at hp
      obtain ⟨j, b, hj, hb, hpb⟩ := h.objects.live p size' hp
      exact ⟨j, b, hj, (hslot j b).mpr hb, hpb⟩

end Kept

/-- The slabs on a list are no more than the pages. -/
theorem Pages.length_le {free : List ℕ} {on : SlubList → List ℕ} (h : Pages base n s free on)
    {j : SlubList} (hj : j ∈ slabLists) : (on j).length ≤ n := by
  have hnd := (h.slabs.ring j hj).nodup_entries.of_map
  have hsub : on j ⊆ List.range' base n := fun page hp =>
    List.mem_range'_1.mpr (h.slab_mem j hj page hp)
  simpa using (List.subperm_of_subset hnd hsub).length_le

/-- **What freeing an object does to its slab**: it leaves the full list, if it was there. -/
def Unfilled (on on' : SlubList → List ℕ) (i page : ℕ) : Prop :=
  (page ∈ on (.halfSlabs i) ∧ on' = on) ∨
    (page ∈ on (.fullSlabs i) ∧ Moved on on' (.fullSlabs i) (.halfSlabs i) page)

namespace Unfilled

variable {on on' : SlubList → List ℕ}

theorem mem_half (h : Unfilled on on' i page) : page ∈ on' (.halfSlabs i) := by
  rcases h with ⟨hp, rfl⟩ | ⟨-, hmoved⟩
  · exact hp
  · exact (hmoved.mem_new page).mpr (.inr rfl)

theorem half_subset (h : Unfilled on on' i page) {q : ℕ} (hq : q ∈ on (.halfSlabs i)) :
    q ∈ on' (.halfSlabs i) := by
  rcases h with ⟨-, rfl⟩ | ⟨-, hmoved⟩
  · exact hq
  · exact (hmoved.mem_new q).mpr (.inl hq)

theorem half_other (h : Unfilled on on' i page) (hji : j ≠ i) :
    on' (.halfSlabs j) = on (.halfSlabs j) := by
  rcases h with ⟨-, rfl⟩ | ⟨-, hmoved⟩
  · rfl
  · exact hmoved.other _ (by simp) (by simpa using hji)

theorem owns_iff (h : Unfilled on on' i page) (j q : ℕ) : Owns on' j q ↔ Owns on j q := by
  rcases h with ⟨-, rfl⟩ | ⟨hp, hmoved⟩
  · rfl
  · rcases eq_or_ne j i with rfl | hji
    · rw [Owns, Owns, or_comm, hmoved.or_iff hp q, or_comm]
    · rw [Owns, Owns, hmoved.other _ (by simp) (by simpa using hji),
        hmoved.other _ (by simpa using hji) (by simp)]

end Unfilled

/-- **The search of `slub_free`** finds the page if it is on the full list, and moves it. -/
theorem wp_unfill {free : List ℕ} {on : SlubList → List ℕ} (h : Pages base n s free on)
    (hi : i < SLUB_SIZE_NUM) (ho : Owns on i page) :
    Act.wp (unfill fuel i page) (fun _ t => ∃ lists on', t = { s with lists := lists } ∧
      Pages base n t free on' ∧ Unfilled on on' i page) (fun e => e = .spin ∧ fuel ≤ n) s := by
  have hring := h.slabs.ring _ (full_mem hi)
  rw [unfill, Act.wp_bind]
  refine Act.wp_mono (wp_findPage (g := id) hring rfl (fun p => decide (p = page))
    (fun p => some (.pageLink p)) none (fun le => ?_)
    (fun hle => ⟨rfl, hle.trans (h.length_le (full_mem hi))⟩)) (fun r t ht => ?_) fun _ => id
  · simp only [Act.wp_bind, Act.wp_get]
    cases hle : listNext s.lists.links le with
    | head j => exact ⟨rfl, rfl⟩
    | pageLink p =>
      simp only [Act.wp_ite, Act.wp_pure, decide_eq_true_eq]
      exact ⟨fun hp => ⟨trivial, by rw [if_pos hp]⟩, fun hp => ⟨trivial, by rw [if_neg hp]⟩⟩
  · obtain ⟨rfl, rfl⟩ := ht
    simp only [Function.comp_def, id]
    cases hf : (on (.fullSlabs i)).find? fun q => decide (q = page) with
    | none =>
      have hnot : page ∉ on (.fullSlabs i) := fun hp => by simpa using List.find?_eq_none.mp hf page hp
      exact ⟨t.lists, on, rfl, h, .inl ⟨ho.resolve_right hnot, rfl⟩⟩
    | some q =>
      have hq := List.find?_some hf
      obtain rfl : q = page := of_decide_eq_true hq
      have hmem := List.mem_of_find?_eq_some hf
      obtain ⟨on', hpages, hmoved⟩ := h.move (t := { t with
        lists := (t.lists.mapLinks (listDel · (.pageLink q))).mapLinks
          (listAddBefore · (halfSlabs i) (.pageLink q)) }) (full_mem hi) (half_mem hi) (by simp)
        hmem rfl rfl
      exact ⟨_, on', rfl, hpages, .inr ⟨hmem, hmoved⟩⟩

/-- **`slub_free`** of a live object. -/
theorem Kept.wp_slubFree_slab {live : Live} {free : List ℕ} {on : SlubList → List ℕ}
    {objs : ℕ → List ℕ} (hm : Mapped m base n) (h : Kept m base n s live free on objs)
    (hp : live p = some size) :
    Act.wp (slubFree m fuel p size) (fun _ t => ∃ i a page on', i < SLUB_SIZE_NUM ∧ p = a + 16 ∧
      a ∈ slots m i page ∧ Owns on i page ∧ Unfilled on on' i page ∧
      (∀ j, j ≠ i → t.sizeCaches j = s.sizeCaches j) ∧
      (t.sizeCaches i).slabPage = some ((s.sizeCaches i).slabPage.getD page) ∧
      Kept m base n t (Function.update live p none) free on' (Function.update objs i (a :: objs i)))
      (fun e => e = .spin ∧ fuel ≤ n) s := by
  obtain ⟨i, a, hidx, hi, hslot, rfl, hfit⟩ := h.slot_of_live hp
  obtain ⟨page, k, ho, hk, hka⟩ := id hslot
  have hroom := lt_strideOf hi
  have hin := slot_bounds hi hk
  have hpage : slubObjectToPage m (a + 16) = page :=
    hm.slubObjectToPage_eq (h.pages.owns_mem hi ho) (by omega) (by omega)
  rw [slubFree, hidx]
  simp only [hpage, Act.wp_bind, Act.wp_get, wp_setObject, wp_setCache]
  refine Act.wp_mono (wp_unfill (h.pages.congr rfl rfl) hi ho) (fun _ t ht => ?_) fun _ => id
  obtain ⟨lists, on', rfl, hpages, hun⟩ := ht
  rw [Act.wp_ite]
  refine ⟨fun hnone => ?_, fun hsome => ?_⟩
  · have hold : (s.sizeCaches i).slabPage = none := by simpa using hnone
    refine ⟨i, a, page, on', hi, rfl, mem_slots.mpr ⟨k, hk, hka⟩, ho, hun,
      fun j hji => by simp [hji], by simp [hold],
      h.give hm hi hslot hp rfl (hpages.congr rfl rfl) hun.owns_iff (fun _ => hun.half_other)
      (fun q hq => ?_) ⟨?_, ?_, ?_⟩ (fun j hji => ?_) rfl⟩
    · obtain rfl : page = q := by simpa using hq
      exact hun.mem_half
    · simp
    · simp
    · simp
    · simp [hji]
  · obtain ⟨cur, hcur⟩ := Option.ne_none_iff_exists'.mp (show (s.sizeCaches i).slabPage ≠ none by
      simpa using hsome)
    refine ⟨i, a, page, on', hi, rfl, mem_slots.mpr ⟨k, hk, hka⟩, ho, hun,
      fun j hji => by simp [hji], by simp [hcur],
      h.give hm hi hslot hp rfl (hpages.congr rfl rfl) hun.owns_iff (fun _ => hun.half_other)
      (fun q hq => ?_) ⟨?_, ?_, ?_⟩ (fun j hji => ?_) rfl⟩
    · exact hun.half_subset (h.objects.current i hi q (by simpa using hq))
    · simp
    · simp
    · simp
    · simp [hji]

theorem Kept.wp_slubFree {live : Live} {free : List ℕ} {on : SlubList → List ℕ} {objs : ℕ → List ℕ}
    (hm : Mapped m base n) (h : Kept m base n s live free on objs) (hp : live p = some size) :
    Act.wp (slubFree m fuel p size) (fun _ t => ∃ free on objs,
      Kept m base n t (Function.update live p none) free on objs)
      (fun e => e = .spin ∧ fuel ≤ n) s :=
  Act.wp_mono (h.wp_slubFree_slab hm hp)
    (fun _ _ ⟨_, _, _, _, _, _, _, _, _, _, _, ht⟩ => ⟨_, _, _, ht⟩) fun _ => id

/-- **Boot** leaves no slabs and no objects. -/
theorem Kept.init (ht : t.initialized = true)
    (hpages : Pages base n t (List.range' base n) fun _ => [])
    (hcaches : ∀ i < SLUB_SIZE_NUM, t.sizeCaches i = ⟨sizes.getD i 0, strideOf i, 0, none, none⟩) :
    Kept m base n t (fun _ => none) (List.range' base n) (fun _ => []) fun _ => [] := by
  have hnone : ∀ i a, ¬ Slot m (fun _ => []) i a := by
    rintro i a ⟨page, k, ho | ho, -⟩ <;> simp at ho
  refine ⟨ht, hpages, fun i hi => ?_, fun i hi page ho => ?_, fun i hi page hp => ?_, fun i hi => ?_,
    fun i hi a => ?_, by simp⟩
  · rw [hcaches i hi]
  · rcases ho with ho | ho <;> simp at ho
  · rw [hcaches i hi] at hp
    exact absurd hp (by simp)
  · rw [hcaches i hi]
    rfl
  · simp [hnone]

/-- **Writes to live objects** are not seen by the allocator. -/
theorem Kept.write {live : Live} {free : List ℕ} {on : SlubList → List ℕ} {objs : ℕ → List ℕ}
    (hm : Mapped m base n) (h : Kept m base n s live free on objs) {object : ℕ → SlubObject}
    (hw : ∀ a, (∀ b ∈ Finset.Ico a (a + OBJECT_SIZE), ¬ Writable m s live b) →
      object a = s.object a) :
    Kept m base n { s with object := object } live free on objs := by
  have hs := h.sound hm
  refine ⟨h.initialized, h.pages.congr rfl rfl, h.objects.stride, h.objects.num, h.objects.current,
    fun i hi => ?_, h.objects.mem_objs, h.objects.live⟩
  refine (h.objects.thread i hi).congr fun a ha => ?_
  have hslot := ((h.objects.mem_objs i hi a).mp ha).1
  have hobj : object a = s.object a := by
    refine hw a fun b hb => ?_
    rintro (⟨p, size, hp, hbp⟩ | hout)
    · have hdisj := hs.headers p size i a hp hi ((h.object_iff hi).mpr hslot)
      exact Finset.disjoint_left.mp hdisj hbp hb
    · -- a header lies in a slab
      obtain ⟨page, ho, hlo, hhi⟩ := Kept.slot_page hi hslot
      have hroom := lt_strideOf hi
      refine hout i page hi ((h.slabPage_iff hi).mpr ho) ?_
      change b ∈ Finset.Ico a (a + 16) at hb
      change b ∈ Finset.Ico (m.page2kva page) (m.page2kva page + 4096)
      rw [Finset.mem_Ico] at hb ⊢
      omega
  change (object a).next = _
  rw [hobj]

/-! ## Runs -/

/-- In a run the invariant holds. -/
theorem Run.kept {live : Live} (hm : Mapped m base n) (h : Run m base n s live) :
    ∃ free on objs, Kept m base n s live free on objs := by
  induction h with
  | @boot s t fuel hs hrun =>
    obtain ⟨hinit, hpages, hcaches⟩ := Act.wp_of_ok (wp_boot hs) hrun
    exact ⟨_, _, _, Kept.init hinit hpages hcaches⟩
  | @alloc s t live size p _ hsize hrun ih =>
    obtain ⟨free, on, objs, hk⟩ := ih
    obtain ⟨i, hidx⟩ := slubSizeToIndex_isSome hsize
    rcases Act.wp_of_ok (hk.wp_slubAlloc (E := fun _ => True) hm hidx) hrun with ⟨hr, -⟩ | ⟨q, hq, -, ht⟩
    · exact absurd hr (by simp)
    · obtain rfl := Option.some.inj hq
      exact ht
  | @allocNull s t live size _ hsize hrun ih =>
    obtain ⟨free, on, objs, hk⟩ := ih
    obtain ⟨i, hidx⟩ := slubSizeToIndex_isSome hsize
    rcases Act.wp_of_ok (hk.wp_slubAlloc (E := fun _ => True) hm hidx) hrun with ⟨-, ht⟩ | ⟨q, hq, -⟩
    · exact ht
    · exact absurd hq (by simp)
  | @free s t live fuel size p _ hp hrun ih =>
    obtain ⟨free, on, objs, hk⟩ := ih
    exact Act.wp_of_ok (hk.wp_slubFree hm hp) hrun
  | write object _ hw ih =>
    obtain ⟨free, on, objs, hk⟩ := ih
    exact ⟨free, on, objs, hk.write hm hw⟩

/-- **Runs of `slub_alloc` and `slub_free`.**  With enough fuel boot returns, on reserved pages; and
in every run from there the slabs are sound, a request of at most 2048 bytes returns, with an
object that is not live or with nothing, and so does the release of a live object. -/
theorem slub_run (hm : Mapped m base n) :
    (∀ s fuel, s.initialized = false →
      (∀ q, base ≤ q → q < base + n → s.lists.pageReserved q = true) → n < fuel →
      ∃ t, (slubInit >>= fun _ => slubInitMemmap fuel base n) s = .ok ((), t)) ∧
    ∀ s live, Run m base n s live → Sound m s live ∧
      (∀ size, size ≤ 2048 → ∃ r t, slubAlloc m size s = .ok (r, t) ∧ ∀ p, r = some p → live p = none) ∧
      ∀ fuel p size, live p = some size → n < fuel → ∃ t, slubFree m fuel p size s = .ok ((), t) := by
  refine ⟨fun s fuel hs hres hfuel => ?_, fun s live h => ?_⟩
  · have hwp : Act.wp (slubInit >>= fun _ => slubInitMemmap fuel base n) (fun _ _ => True)
        (fun _ => False) s := by
      refine Act.wp_mono (wp_boot hs) (fun _ _ _ => trivial) fun e he => ?_
      rcases he with ⟨-, he⟩ | ⟨-, q, hlo, hhi, hq⟩
      · omega
      · rw [hres q hlo hhi] at hq
        exact absurd hq (by simp)
    obtain ⟨_, t, hrun, -⟩ := Act.wp_false_iff.mp hwp
    exact ⟨t, hrun⟩
  · obtain ⟨free, on, objs, hk⟩ := h.kept hm
    refine ⟨hk.sound hm, fun size hsize => ?_, fun fuel p size hp hfuel => ?_⟩
    · obtain ⟨i, hidx⟩ := slubSizeToIndex_isSome hsize
      obtain ⟨r, t, hrun, hres⟩ := Act.wp_false_iff.mp (hk.wp_slubAlloc hm hidx)
      refine ⟨r, t, hrun, fun p hp => ?_⟩
      rcases hres with ⟨rfl, -⟩ | ⟨q, rfl, hq, -⟩
      · exact absurd hp (by simp)
      · rwa [← Option.some.inj hp]
    · have hwp : Act.wp (slubFree m fuel p size) (fun _ _ => True) (fun _ => False) s :=
        Act.wp_mono (hk.wp_slubFree hm hp) (fun _ _ _ => trivial) fun e he =>
          absurd he.2 (not_le.mpr hfuel)
      obtain ⟨_, t, hrun, -⟩ := Act.wp_false_iff.mp hwp
      exact ⟨t, hrun⟩

/-- Pages mapped one after the other. -/
def bootMap : KvaMap := ⟨fun page => 4096 * page + 0x80000000, fun kva => (kva - 0x80000000) / 4096⟩

/-- The allocator before boot, with every page reserved. -/
def bootSlub : SlubAllocator where
  lists := ⟨fun _ => ⟨0, ⟨true, false⟩, 0⟩, ⟨id, id⟩⟩
  nrFree := 0
  initialized := false
  sizeCaches := fun _ => ⟨0, 0, 0, none, none⟩
  object := fun _ => ⟨none, 0⟩

theorem mapped_bootMap : Mapped bootMap 1 4 where
  aligned page _ _ := (Nat.dvd_mul_right 4096 page).add (by decide)
  kva2page page _ _ := by simp [bootMap]

/-- Two objects of 2000 bytes, from boot, in two pages. -/
def twoObjects : Bool :=
  match (slubInit >>= fun _ => slubInitMemmap 5 1 4) bootSlub with
  | .ok ((), t) => match slubAlloc bootMap 2000 t with
    | .ok (some p, u) => match slubAlloc bootMap 2000 u with
      | .ok (some q, _) => p == 0x80001010 && q == 0x80002010
      | _ => false
    | _ => false
  | _ => false

/-- Two objects of 2000 bytes, from boot: each has a slab of its own. -/
theorem slub_run_boot : ∃ t u v,
    (slubInit >>= fun _ => slubInitMemmap 5 1 4) bootSlub = .ok ((), t) ∧
    slubAlloc bootMap 2000 t = .ok (some 0x80001010, u) ∧
    slubAlloc bootMap 2000 u = .ok (some 0x80002010, v) ∧
    Sound bootMap v (Function.update (Function.update (fun _ => none) 0x80001010 (some 2000))
      0x80002010 (some 2000)) := by
  have hres : twoObjects = true := by decide +kernel
  unfold twoObjects at hres
  split at hres
  · next t hboot =>
    split at hres
    · next p u hfirst =>
      split at hres
      · next q v hsecond =>
        simp only [Bool.and_eq_true, beq_iff_eq] at hres
        obtain ⟨rfl, rfl⟩ := hres
        have hrun := Run.boot (m := bootMap) (show bootSlub.initialized = false from rfl) hboot
        have hrun := (hrun.alloc (by norm_num) hfirst).alloc (by norm_num) hsecond
        exact ⟨t, u, v, hboot, hfirst, hsecond, ((slub_run mapped_bootMap).2 _ _ hrun).1⟩
      · exact absurd hres (by simp)
    · exact absurd hres (by simp)
  · exact absurd hres (by simp)

end UCore.Slub
