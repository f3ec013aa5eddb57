import UCore.Mm.DefaultPmm

/-!
# Mm/DefaultPmmSpec — what each step of the first-fit manager does to its free list

One lemma for each piece of `Mm/DefaultPmm`, stated on the list of block heads `xs` that the ring of
`free_list` runs through.  `linkBase` puts a block in its place when some block lies above it
(`wp_linkBase`); a block above all others is linked to itself instead (`wp_linkBase_tail`).
-/

namespace UCore.DefaultPmm

/-- The links of `free_list` run through the blocks headed by `xs`. -/
def OnFreeList (l : Links (ListEntry Unit)) (xs : List ℕ) : Prop :=
  l.Ring freeList (xs.map .pageLink)

variable {s : FreeArea} {fuel base n : ℕ} {Q : Unit → FreeArea → Prop} {E : Stop → Prop}

@[simp] theorem wp_store (f : PageLists Unit → PageLists Unit) :
    Act.wp (store f) Q E s ↔ Q () { s with lists := f s.lists } := Iff.rfl

@[simp] theorem wp_setNrFree (f : ℕ → ℕ) :
    Act.wp (setNrFree f) Q E s ↔ Q () { s with nrFree := u32 (f s.nrFree) } := Iff.rfl

@[simp] theorem pageLink_injective : Function.Injective (@ListEntry.pageLink Unit) :=
  fun _ _ h => ListEntry.pageLink.inj h

theorem pageLink_mem_iff {xs : List ℕ} {p : ℕ} :
    (ListEntry.pageLink p : ListEntry Unit) ∈ xs.map .pageLink ↔ p ∈ xs :=
  List.mem_map_of_injective pageLink_injective

theorem pageLink_fresh {xs : List ℕ} {p : ℕ} (hp : p ∉ xs) :
    (ListEntry.pageLink p : ListEntry Unit) ∉ freeList :: xs.map .pageLink := by
  simpa using hp

/-! ## The insertion loop -/

/-- **Insertion below some block**: the walk stops at the first block above `base`, and `base` goes
in front of it. -/
theorem wp_linkBase {as bs : List ℕ} (hr : OnFreeList s.lists.links (as ++ bs))
    (hfresh : base ∉ as ++ bs) (has : ∀ p ∈ as, p < base) (hbs : ∀ p ∈ bs.head?, base < p)
    (hne : bs = [] → as = []) :
    Act.wp (linkBase fuel base)
      (fun _ s' => ∃ l, s' = { s with lists := s.lists.mapLinks fun _ => l } ∧
        OnFreeList l (as ++ base :: bs))
      (fun e => e = .spin ∧ fuel ≤ as.length) s := by
  unfold OnFreeList at *
  rw [List.map_append] at hr
  rw [linkBase, Act.wp_bind, Act.wp_get, Act.wp_ite]
  refine ⟨fun hempty => ?_, fun hempty => ?_⟩
  · rw [listEmpty_iff hr] at hempty
    obtain ⟨rfl, rfl⟩ : as = [] ∧ bs = [] := by simpa using hempty
    refine ⟨_, rfl, ?_⟩
    exact ring_listAdd (u := []) (v := []) hr (by simp)
  · -- the walk is at the last entry of `cs`, with the blocks `ds` of `as` still to pass
    refine Act.wp_loop
      (fun k le s' => s' = s ∧ ∃ cs ds, as = cs ++ ds ∧ ds.length = k ∧
        le = Links.before freeList (cs.map .pageLink)) ?_ fuel as.length freeList s
      ⟨rfl, [], as, rfl, rfl, rfl⟩ (fun h => ⟨rfl, h⟩)
    rintro k le s' ⟨rfl, cs, ds, rfl, rfl, rfl⟩
    rw [List.map_append, List.append_assoc] at hr
    simp only [Act.wp_bind, Act.wp_get, listNext, hr.next_eq]
    cases ds with
    | nil =>
      cases bs with
      | nil => exact absurd ((listEmpty_iff hr).mpr (by simpa using hne rfl)) hempty
      | cons b bs =>
        have hb : base < b := hbs b rfl
        simp only [List.map_nil, List.nil_append, List.map_cons, Links.after_cons, hb, if_true,
          Act.wp_bind, wp_store, Act.wp_pure, Sum.elim_inr]
        refine ⟨_, rfl, ?_⟩
        rw [List.map_append, List.append_nil]
        exact ring_listAddBefore (v := (b :: bs).map ListEntry.pageLink) (by simpa using hr)
          (by simpa using hfresh)
    | cons d ds =>
      have hd : ¬ base < d := by have := has d (by simp); omega
      have hr' : s'.lists.links.Ring freeList
          (cs.map .pageLink ++ .pageLink d :: (ds ++ bs).map .pageLink) := by simpa using hr
      have hlast : Links.after freeList ((ds ++ bs).map ListEntry.pageLink) ≠ freeList := by
        rw [Ne, Links.Ring.after_eq_head_iff (l := s'.lists.links)
          (u := cs.map .pageLink ++ [.pageLink d]) (by simpa using hr')]
        intro h
        simp only [List.map_eq_nil_iff, List.append_eq_nil_iff] at h
        exact absurd (hne h.2) (by simp)
      simp only [List.map_cons, List.cons_append, Links.after_cons, hd, if_false, Act.wp_bind,
        Act.wp_get, hr'.next_entry, hlast, Act.wp_pure, Sum.elim_inl]
      exact ⟨ds.length, by simp, trivial, cs ++ [d], ds, by simp, rfl, by simp⟩

/-- The damage of an insertion at the tail: the extra turn of the loop links the block to itself. -/
theorem wp_linkBase_tail {xs : List ℕ} (hr : OnFreeList s.lists.links xs) (hfresh : base ∉ xs)
    (hxs : xs ≠ []) (hlt : ∀ p ∈ xs, p < base) :
    Act.wp (linkBase fuel base)
      (fun _ s' => ∃ l, s' = { s with lists := s.lists.mapLinks fun _ => l } ∧
        l.prev (.pageLink base) = .pageLink base ∧ l.next (.pageLink base) = freeList ∧
        l.prev freeList = .pageLink base)
      (fun e => e = .spin) s := by
  unfold OnFreeList at *
  rw [linkBase, Act.wp_bind, Act.wp_get, Act.wp_ite]
  refine ⟨fun hempty => ?_, fun _ => ?_⟩
  · rw [listEmpty_iff hr] at hempty
    exact absurd (by simpa using hempty) hxs
  · -- the entries `ds` still to pass, then the turn at `base` itself, then the head
    refine Act.wp_loop
      (fun k le s' =>
        (s' = s ∧ ∃ cs ds, xs = cs ++ ds ∧ ds ≠ [] ∧ k = ds.length + 1 ∧
          le = Links.before freeList (cs.map .pageLink)) ∨
        (∃ l, s' = { s with lists := s.lists.mapLinks fun _ => l } ∧ k = 1 ∧
          l.next le = .pageLink base ∧ l.next (.pageLink base) = freeList) ∨
        (∃ l, s' = { s with lists := s.lists.mapLinks fun _ => l } ∧ k = 0 ∧
          le = .pageLink base ∧ l.prev (.pageLink base) = .pageLink base ∧
          l.next (.pageLink base) = freeList ∧ l.prev freeList = .pageLink base)) ?_ fuel
      (xs.length + 1) freeList s (.inl ⟨rfl, [], xs, rfl, hxs, rfl, rfl⟩) (fun _ => rfl)
    rintro k le s' (⟨rfl, cs, ds, rfl, hds, rfl, rfl⟩ | ⟨l, rfl, rfl, hle, hbase⟩ |
      ⟨l, rfl, rfl, rfl, hprev, hnext, hhead⟩)
    · obtain ⟨d, ds, rfl⟩ := List.exists_cons_of_ne_nil hds
      have hr' : s'.lists.links.Ring freeList
          (cs.map .pageLink ++ .pageLink d :: ds.map .pageLink) := by simpa using hr
      have hd : ¬ base < d := by have := hlt d (by simp); omega
      simp only [Act.wp_bind, Act.wp_get, listNext, hr'.next_eq, Links.after_cons, hd, if_false,
        hr'.next_entry]
      cases ds with
      | nil =>
        have hne : (ListEntry.pageLink d : ListEntry Unit) ≠ .pageLink base := by
          simpa using fun h : d = base => hfresh (by simp [h])
        simp only [List.map_nil, Links.after_nil, if_true, Act.wp_bind, wp_store, Act.wp_pure,
          Sum.elim_inl]
        refine ⟨1, by simp, .inr (.inl ⟨_, rfl, rfl, ?_, ?_⟩)⟩
        · simp [listAdd, listAddAfter, _listAdd, hne]
        · simp [listAdd, listAddAfter, _listAdd, hr'.next_entry]
      | cons e ds =>
        simp only [List.map_cons, Links.after_cons, reduceCtorEq, if_false, Act.wp_pure,
          Sum.elim_inl]
        exact ⟨_, by simp, .inl ⟨trivial, cs ++ [d], e :: ds, by simp, by simp, rfl, by simp⟩⟩
    · simp only [Act.wp_bind, Act.wp_get, listNext, PageLists.links_mapLinks, hle, lt_irrefl,
        if_false, hbase, if_true, wp_store, Act.wp_pure, Sum.elim_inl]
      refine ⟨0, by simp, .inr (.inr ⟨_, rfl, rfl, trivial, ?_, ?_, ?_⟩)⟩ <;>
        simp [listAdd, listAddAfter, _listAdd, hbase]
    · simp only [Act.wp_bind, Act.wp_get, listNext, PageLists.links_mapLinks, hnext, Act.wp_pure,
        Sum.elim_inr]
      exact ⟨l, rfl, hprev, hnext, hhead⟩

/-! ## The page loops -/

/-- `default_init_memmap` clears a range of reserved pages. -/
theorem wp_initPages (p n : ℕ) (s : FreeArea) :
    Act.wp (initPages p n)
      (fun _ s' => s'.lists.links = s.lists.links ∧ s'.nrFree = s.nrFree ∧
        (∀ q, s'.lists.property q = if q ∈ Finset.Ico p (p + n) then 0 else s.lists.property q) ∧
        (∀ q, s'.lists.pageReserved q =
          if q ∈ Finset.Ico p (p + n) then false else s.lists.pageReserved q) ∧
        ∀ q, s'.lists.pageProperty q =
          if q ∈ Finset.Ico p (p + n) then false else s.lists.pageProperty q)
      (fun e => e = .panic) s := by
  induction n generalizing p s with
  | zero => simp [initPages]
  | succ n ih =>
    simp only [initPages, Act.wp_bind, Act.wp_get, Act.wp_require, wp_store]
    refine ⟨fun _ => Act.wp_mono (ih (p + 1) _) ?_ (fun _ => id), fun _ => trivial⟩
    rintro - s' ⟨hl, hn, hp, hr, hf⟩
    have hsplit : ∀ q, q ∈ Finset.Ico p (p + (n + 1)) ↔ q = p ∨ q ∈ Finset.Ico (p + 1) (p + 1 + n) := by
      intro q; simp only [Finset.mem_Ico]; omega
    refine ⟨hl, hn, fun q => ?_, fun q => ?_, fun q => ?_⟩
    · rw [hp q]; simp only [hsplit]
      by_cases h : q = p <;> simp [h, PageLists.property_setProperty, u32]
    · rw [hr q]; simp only [hsplit]
      by_cases h : q = p <;> simp [h, PageLists.pageReserved_clearFlags]
    · rw [hf q]; simp only [hsplit]
      by_cases h : q = p <;> simp [h, PageLists.pageProperty_clearFlags]

/-- Two states that agree on everything but the reference counts of pages. -/
structure SameLists (s s' : FreeArea) : Prop where
  links : s'.lists.links = s.lists.links
  nrFree : s'.nrFree = s.nrFree
  property : s'.lists.property = s.lists.property
  reserved : s'.lists.pageReserved = s.lists.pageReserved
  heads : s'.lists.pageProperty = s.lists.pageProperty

/-- `default_free_pages` finds the flags of handed-out pages clear, and leaves them so. -/
theorem wp_resetPages (p n : ℕ) (s : FreeArea)
    (hr : ∀ q ∈ Finset.Ico p (p + n), s.lists.pageReserved q = false)
    (hp : ∀ q ∈ Finset.Ico p (p + n), s.lists.pageProperty q = false) :
    Act.wp (resetPages p n) (fun _ s' => SameLists s s') (fun _ => False) s := by
  induction n generalizing p s with
  | zero => exact ⟨rfl, rfl, rfl, rfl, rfl⟩
  | succ n ih =>
    have hpr := hr p (by simp)
    have hpp := hp p (by simp)
    simp only [resetPages, Act.wp_bind, Act.wp_get, Act.wp_require, wp_store, hpr, hpp]
    refine ⟨fun _ => ?_, fun h => absurd rfl h⟩
    have hr1 : ∀ q, ((s.lists.clearFlags p).setPageRef p 0).pageReserved q =
        s.lists.pageReserved q := by
      intro q
      rw [PageLists.pageReserved_setPageRef, PageLists.pageReserved_clearFlags]
      split <;> simp_all
    have hp1 : ∀ q, ((s.lists.clearFlags p).setPageRef p 0).pageProperty q =
        s.lists.pageProperty q := by
      intro q
      rw [PageLists.pageProperty_setPageRef, PageLists.pageProperty_clearFlags]
      split <;> simp_all
    refine Act.wp_mono (ih (p + 1) _ (fun q hq => ?_) (fun q hq => ?_)) ?_ (fun _ => id)
    · simp only [Finset.mem_Ico] at hq
      rw [hr1]; exact hr q (by simp only [Finset.mem_Ico]; omega)
    · simp only [Finset.mem_Ico] at hq
      rw [hp1]; exact hp q (by simp only [Finset.mem_Ico]; omega)
    · rintro - s' h
      exact ⟨h.links, h.nrFree, h.property.trans (funext fun q => by simp),
        h.reserved.trans (funext hr1), h.heads.trans (funext hp1)⟩

/-! ## The search -/

/-- **First fit**: the search returns the first block on the list with room enough. -/
theorem wp_findFit {xs : List ℕ} (hr : OnFreeList s.lists.links xs) :
    Act.wp (findFit fuel n)
      (fun r s' => s' = s ∧ r = xs.find? fun p => decide (n ≤ s.lists.property p))
      (fun e => e = .spin ∧ fuel ≤ xs.length) s := by
  refine Act.wp_mono (wp_findPage (g := id) hr rfl (fun p => decide (n ≤ s.lists.property p)) some
    none (fun le => ?_) fun h => ⟨rfl, h⟩) (fun r s' hr => ⟨hr.1, hr.2.trans ?_⟩) (fun _ => id)
  · simp only [Act.wp_bind, Act.wp_get]
    cases listNext s.lists.links le with
    | head i => exact ⟨rfl, rfl⟩
    | pageLink p =>
      simp only [Act.wp_bind, Act.wp_get, Act.wp_ite, Act.wp_pure, decide_eq_true_eq]
      exact ⟨fun h => ⟨trivial, by rw [if_pos h]⟩, fun h => ⟨trivial, by rw [if_neg h]⟩⟩
  · rw [Function.comp_id, Function.comp_id]
    cases xs.find? fun p => decide (n ≤ s.lists.property p) <;> rfl

/-! ## Taking and merging -/

/-- **Taking the front of a block**: the rest of it, if any, takes its place. -/
theorem wp_takePages {as bs : List ℕ} {p : ℕ} (hr : OnFreeList s.lists.links (as ++ p :: bs))
    (hfresh : n < s.lists.property p → p + n ∉ as ++ p :: bs) :
    Act.wp (takePages p n)
      (fun _ s' =>
        OnFreeList s'.lists.links
          (as ++ (if n < s.lists.property p then [p + n] else []) ++ bs) ∧
        s'.nrFree = u32 (s.nrFree - n) ∧
        (∀ q, s'.lists.property q = if n < s.lists.property p ∧ q = p + n
          then u32 (s.lists.property p - n) else s.lists.property q) ∧
        (∀ q, s'.lists.pageReserved q = s.lists.pageReserved q) ∧
        ∀ q, s'.lists.pageProperty q = if q = p then false
          else if n < s.lists.property p ∧ q = p + n then true else s.lists.pageProperty q)
      (fun _ => False) s := by
  unfold OnFreeList at *
  have hr' : s.lists.links.Ring freeList (as.map .pageLink ++ .pageLink p :: bs.map .pageLink) := by
    simpa using hr
  simp only [takePages, Act.wp_bind, Act.wp_get, listPrev, hr'.prev_entry, wp_store, Act.wp_ite,
    PageLists.property_mapLinks, wp_setNrFree]
  refine ⟨fun h => ⟨?_, trivial, fun q => ?_, fun q => ?_, fun q => ?_⟩,
    fun h => ⟨?_, trivial, fun q => ?_, fun q => ?_, fun q => ?_⟩⟩
  · rw [if_pos h]
    have hdel := ring_listDel hr'
    have hnew : (ListEntry.pageLink (p + n) : ListEntry Unit) ∉
        freeList :: (as.map .pageLink ++ bs.map .pageLink) := by
      rw [← List.map_append]
      exact pageLink_fresh fun hmem => hfresh h (by simp at hmem ⊢; tauto)
    simpa using ring_listAdd hdel hnew
  · simp [PageLists.property_setProperty, h]
  · simp
  · simp [PageLists.pageProperty_setPageProperty, h]
  · rw [if_neg h]
    simpa using ring_listDel hr'
  · simp [h]
  · simp
  · simp [PageLists.pageProperty_setPageProperty, h]

/-- `default_free_pages` merges with the block before, when the two touch. -/
theorem wp_mergePrev {as bs : List ℕ} (hr : OnFreeList s.lists.links (as ++ base :: bs)) :
    Act.wp (mergePrev base)
      (fun r s' => (r = base ∧ s' = s ∧ ∀ p ∈ as.getLast?, p + s.lists.property p ≠ base) ∨
        ∃ as' p, as = as' ++ [p] ∧ p + s.lists.property p = base ∧ r = p ∧
          OnFreeList s'.lists.links (as' ++ p :: bs) ∧ s'.nrFree = s.nrFree ∧
          (∀ q, s'.lists.property q = if q = p
            then u32 (s.lists.property p + s.lists.property base) else s.lists.property q) ∧
          (∀ q, s'.lists.pageReserved q = s.lists.pageReserved q) ∧
          ∀ q, s'.lists.pageProperty q = if q = base then false else s.lists.pageProperty q)
      (fun _ => False) s := by
  unfold OnFreeList at *
  have hr' : s.lists.links.Ring freeList
      (as.map .pageLink ++ .pageLink base :: bs.map .pageLink) := by simpa using hr
  rw [mergePrev, Act.wp_bind, Act.wp_get]
  simp only [listPrev, hr'.prev_entry]
  rcases List.eq_nil_or_concat as with rfl | ⟨as', p, rfl⟩
  · exact .inl ⟨rfl, rfl, by simp⟩
  · simp only [List.concat_eq_append, List.map_append, List.map_cons, List.map_nil,
      Links.before_concat, Act.wp_bind, Act.wp_get, Act.wp_ite, wp_store, Act.wp_pure]
    refine ⟨fun h => .inr ⟨as', p, rfl, h, rfl, ?_, trivial, fun q => ?_, fun q => ?_, fun q => ?_⟩,
      fun h => .inl ⟨trivial, trivial, by simpa using h⟩⟩
    · simpa using ring_listDel hr'
    · simp [PageLists.property_setProperty]
    · simp
    · simp [PageLists.pageProperty_setPageProperty]

/-- …and with the block after. -/
theorem wp_mergeNext {as bs : List ℕ} (hr : OnFreeList s.lists.links (as ++ base :: bs)) :
    Act.wp (mergeNext base)
      (fun _ s' => (s' = s ∧ ∀ p ∈ bs.head?, base + s.lists.property base ≠ p) ∨
        ∃ p bs', bs = p :: bs' ∧ base + s.lists.property base = p ∧
          OnFreeList s'.lists.links (as ++ base :: bs') ∧ s'.nrFree = s.nrFree ∧
          (∀ q, s'.lists.property q = if q = base
            then u32 (s.lists.property base + s.lists.property p) else s.lists.property q) ∧
          (∀ q, s'.lists.pageReserved q = s.lists.pageReserved q) ∧
          ∀ q, s'.lists.pageProperty q = if q = p then false else s.lists.pageProperty q)
      (fun _ => False) s := by
  unfold OnFreeList at *
  have hr' : s.lists.links.Ring freeList
      (as.map .pageLink ++ .pageLink base :: bs.map .pageLink) := by simpa using hr
  rw [mergeNext, Act.wp_bind, Act.wp_get]
  simp only [listNext, hr'.next_entry]
  cases bs with
  | nil => exact .inl ⟨rfl, by simp⟩
  | cons p bs' =>
    have hr'' : s.lists.links.Ring freeList
        ((as.map .pageLink ++ [.pageLink base]) ++ .pageLink p :: bs'.map .pageLink) := by
      simpa using hr
    simp only [List.map_cons, Links.after_cons, Act.wp_bind, Act.wp_get, Act.wp_ite, wp_store,
      Act.wp_pure]
    refine ⟨fun h => .inr ⟨p, bs', rfl, h, ?_, trivial, fun q => ?_, fun q => ?_, fun q => ?_⟩,
      fun h => .inl ⟨trivial, by simpa using h⟩⟩
    · simpa using ring_listDel hr''
    · simp [PageLists.property_setProperty]
    · simp
    · simp [PageLists.pageProperty_setPageProperty]

end UCore.DefaultPmm
