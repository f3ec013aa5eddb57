import UCore.Mm.BuddyPmmLoops

/-!
# Mm/BuddyPmmRun — whole runs of the buddy manager

`Buddy` adds to the layout what the manager records about the blocks handed out: their sizes, the
reservations of their pages, and the count of what is left.  Start-up cuts the range greedily into
free blocks; allocation and free move one block between the two sides.
-/

namespace UCore.BuddyPmm

open Dyadic (Block Tiles Coalesced buddy cells)

variable {base n m i o k fuel : ℕ} {s s' : BuddyArea} {F : ℕ → List ℕ}
  {free rest live : Finset Block}

/-- **The partition invariant**: `free` are the blocks on the lists, `live` those handed out. -/
structure Buddy (base n : ℕ) (s : BuddyArea) (F : ℕ → List ℕ) (free live : Finset Block) : Prop
    extends Layout base n n s F free live where
  live_property : ∀ b ∈ live, s.lists.property (base + b.1) = 2 ^ b.2
  reserved : ∀ i < n, s.lists.pageReserved (base + i) = true ↔ ∃ b ∈ live, i ∈ cells b
  count : s.nrFree + ∑ b ∈ live, 2 ^ b.2 = n

/-- The two sides of a layout add up to the range. -/
theorem Layout.sum_size (h : Layout base n m s F free rest) :
    ∑ b ∈ free, 2 ^ b.2 + ∑ b ∈ rest, 2 ^ b.2 = m := by
  rw [← Finset.sum_union h.apart, h.tiles.sum_size]

/-- `NR_FREE` is the total size of the free blocks. -/
theorem Buddy.nrFree_eq (h : Buddy base n s F free live) : s.nrFree = ∑ b ∈ free, 2 ^ b.2 := by
  have := h.sum_size
  have := h.count
  omega

/-- No free block starts inside a block on no list. -/
theorem Layout.not_head (h : Layout base n m s F free rest) {b : Block} (hb : b ∈ rest) {c : ℕ}
    (hc : c ∈ cells b) : s.lists.pageProperty (base + c) = false := by
  have hcn := (h.tiles.lt (Finset.mem_union_right _ hb) hc).trans_le h.le
  rw [← Bool.not_eq_true, h.heads c hcn, not_exists]
  intro o hmem
  have heq := h.tiles.unique (Finset.mem_union_left _ hmem) (Finset.mem_union_right _ hb)
    (Dyadic.start_mem (c, o)) hc
  exact Finset.disjoint_left.mp h.apart hmem (heq ▸ hb)

/-! ## The page loops -/

/-- Two states that agree on the links and on everything but pages. -/
structure SameLists (s s' : BuddyArea) : Prop where
  base_eq : s'.base = s.base
  npages_eq : s'.npages = s.npages
  nrFree : s'.nrFree = s.nrFree
  links : s'.lists.links = s.lists.links

private theorem mem_Ico_succ {p q n : ℕ} :
    q ∈ Finset.Ico p (p + (n + 1)) ↔ q = p ∨ q ∈ Finset.Ico (p + 1) (p + 1 + n) := by
  simp only [Finset.mem_Ico]
  omega

theorem wp_clearPages (p n : ℕ) (s : BuddyArea) :
    Act.wp (clearPages p n)
      (fun _ s' => SameLists s s' ∧
        (∀ q, s'.lists.pageReserved q =
          if q ∈ Finset.Ico p (p + n) then false else s.lists.pageReserved q) ∧
        ∀ q, s'.lists.pageProperty q =
          if q ∈ Finset.Ico p (p + n) then false else s.lists.pageProperty q)
      (fun e => e = .panic ∧ ∃ q ∈ Finset.Ico p (p + n), s.lists.pageReserved q = false) s := by
  induction n generalizing p s with
  | zero => exact ⟨⟨rfl, rfl, rfl, rfl⟩, by simp, by simp⟩
  | succ n ih =>
    simp only [clearPages, Act.wp_bind, Act.wp_get, Act.wp_require, wp_store]
    refine ⟨fun _ => Act.wp_mono (ih (p + 1) _) ?_ ?_,
      fun hp => ⟨trivial, p, mem_Ico_succ.mpr (.inl rfl), by simpa using hp⟩⟩
    swap
    · rintro e ⟨rfl, q, hq, hres⟩
      have hqp : q ≠ p := by
        rw [Finset.mem_Ico] at hq
        omega
      refine ⟨rfl, q, mem_Ico_succ.mpr (.inr hq), ?_⟩
      simpa [PageLists.pageReserved_setPageReserved, PageLists.pageReserved_clearFlags, hqp] using hres
    rintro - s' ⟨⟨hb, hnp, hn, hl⟩, hr, hf⟩
    refine ⟨⟨hb, hnp, hn, hl⟩, fun q => ?_, fun q => ?_⟩
    · rw [hr q]; simp only [mem_Ico_succ]
      by_cases h : q = p <;>
        simp [h, PageLists.pageReserved_setPageReserved, PageLists.pageReserved_clearFlags]
    · rw [hf q]; simp only [mem_Ico_succ]
      by_cases h : q = p <;> simp [h, PageLists.pageProperty_clearFlags]

theorem wp_markReserved (p n : ℕ) (s : BuddyArea) :
    Act.wp (markReserved p n)
      (fun _ s' => SameLists s s' ∧ (∀ q, s'.lists.property q = s.lists.property q) ∧
        (∀ q, s'.lists.pageReserved q =
          if q ∈ Finset.Ico p (p + n) then true else s.lists.pageReserved q) ∧
        ∀ q, s'.lists.pageProperty q =
          if q ∈ Finset.Ico p (p + n) then false else s.lists.pageProperty q)
      (fun _ => False) s := by
  induction n generalizing p s with
  | zero => exact ⟨⟨rfl, rfl, rfl, rfl⟩, fun _ => rfl, by simp, by simp⟩
  | succ n ih =>
    simp only [markReserved, Act.wp_bind, wp_store]
    refine Act.wp_mono (ih (p + 1) _) ?_ (fun _ => id)
    rintro - s' ⟨⟨hb, hnp, hn, hl⟩, hp, hr, hf⟩
    refine ⟨⟨hb, hnp, hn, hl⟩, fun q => by simp [hp q], fun q => ?_, fun q => ?_⟩
    · rw [hr q]; simp only [mem_Ico_succ]
      by_cases h : q = p <;> simp [h, PageLists.pageReserved_setPageReserved]
    · rw [hf q]; simp only [mem_Ico_succ]
      by_cases h : q = p <;> simp [h, PageLists.pageProperty_setPageProperty]

/-- Reserved pages pass the assertion of the release loop. -/
theorem wp_releasePages (p n : ℕ) (s : BuddyArea)
    (hr : ∀ q ∈ Finset.Ico p (p + n), s.lists.pageReserved q = true) :
    Act.wp (releasePages p n)
      (fun _ s' => SameLists s s' ∧ (∀ q, s'.lists.property q = s.lists.property q) ∧
        (∀ q, s'.lists.pageReserved q =
          if q ∈ Finset.Ico p (p + n) then false else s.lists.pageReserved q) ∧
        ∀ q, s'.lists.pageProperty q =
          if q ∈ Finset.Ico p (p + n) then false else s.lists.pageProperty q)
      (fun _ => False) s := by
  induction n generalizing p s with
  | zero => exact ⟨⟨rfl, rfl, rfl, rfl⟩, fun _ => rfl, by simp, by simp⟩
  | succ n ih =>
    simp only [releasePages, Act.wp_bind, Act.wp_get, Act.wp_require, wp_store]
    refine ⟨fun _ => Act.wp_mono (ih (p + 1) _ fun q hq => ?_) ?_ (fun _ => id),
      fun h => absurd (hr p (by simp)) h⟩
    · have hqp : q ≠ p := by
        rw [Finset.mem_Ico] at hq
        omega
      simpa [PageLists.pageReserved_clearFlags, PageLists.pageReserved_setPageReserved, hqp] using
        hr q (mem_Ico_succ.mpr (.inr hq))
    · rintro - s' ⟨⟨hb, hnp, hn, hl⟩, hp, hr, hf⟩
      refine ⟨⟨hb, hnp, hn, hl⟩, fun q => by simp [hp q], fun q => ?_, fun q => ?_⟩
      · rw [hr q]; simp only [mem_Ico_succ]
        by_cases h : q = p <;>
          simp [h, PageLists.pageReserved_clearFlags, PageLists.pageReserved_setPageReserved]
      · rw [hf q]; simp only [mem_Ico_succ]
        by_cases h : q = p <;>
          simp [h, PageLists.pageProperty_clearFlags, PageLists.pageProperty_setPageProperty]

/-! ## The order loops -/

theorem size2orderCeil_le (n : ℕ) : size2orderCeil n ≤ BUDDY_MAX_ORDER := by
  have hloop : ∀ left o s, size2orderLoop n left o s ≤ o + left := by
    intro left
    induction left with
    | zero => exact fun o s => le_rfl
    | succ left ih =>
      intro o s
      rw [size2orderLoop]
      split
      · exact (ih (o + 1) (s * 2)).trans (by omega)
      · omega
  exact (hloop BUDDY_MAX_ORDER 0 1).trans_eq (Nat.zero_add _)

theorem firstNonEmpty_spec (l : Links (ListEntry ℕ)) (left got : ℕ) :
    got ≤ firstNonEmpty l left got ∧
      (firstNonEmpty l left got < got + left →
        listEmpty l (FL (firstNonEmpty l left got)) = false) ∧
      ∀ o, got ≤ o → o < firstNonEmpty l left got → listEmpty l (FL o) = true := by
  induction left generalizing got with
  | zero => exact ⟨le_rfl, by simp [firstNonEmpty], fun o hlo hhi => absurd (hlo.trans_lt hhi) (lt_irrefl _)⟩
  | succ left ih =>
    rw [firstNonEmpty]
    split
    · next h =>
      obtain ⟨hle, hstop, hskip⟩ := ih (got + 1)
      refine ⟨by omega, fun h => hstop (by omega), fun o hlo hhi => ?_⟩
      rcases hlo.eq_or_lt with rfl | hlt
      · exact h
      · exact hskip o hlt hhi
    · next h =>
      exact ⟨le_rfl, fun _ => by simpa using h,
        fun o hlo hhi => absurd (hlo.trans_lt hhi) (lt_irrefl _)⟩

/-- A power of two has its exponent as its order. -/
theorem orderOf_two_pow {left r : ℕ} (hr : r ≤ o) (hl : o ≤ r + left) :
    orderOf (2 ^ o) left r = o := by
  induction left generalizing r with
  | zero => rw [orderOf]; omega
  | succ left ih =>
    rw [orderOf]
    split
    · next h =>
      have := (Nat.pow_lt_pow_iff_right (by norm_num)).mp h
      exact ih (by omega) (by omega)
    · next h =>
      have := (Nat.pow_lt_pow_iff_right (a := 2) (by norm_num)).not.mp h
      omega

/-- The block start-up cuts off is aligned, and fits; the next larger one is not, or does not. -/
theorem largestBlock_spec (offset rem left order : ℕ) (halign : 2 ^ order ∣ offset)
    (hfit : 2 ^ order ≤ rem) :
    ∃ o, largestBlock offset rem left order (2 ^ order) = (o, 2 ^ o) ∧ o ≤ order + left ∧
      2 ^ o ∣ offset ∧ 2 ^ o ≤ rem ∧
      (o < order + left → 2 ^ (o + 1) ∣ offset → rem < 2 ^ (o + 1)) := by
  induction left generalizing order with
  | zero => exact ⟨order, rfl, le_rfl, halign, hfit, fun hlt => absurd hlt (lt_irrefl _)⟩
  | succ left ih =>
    rw [largestBlock, ← pow_succ]
    split
    · next h =>
      obtain ⟨o, heq, hle, hal, hf, hmax⟩ := ih (order + 1) (Nat.dvd_of_mod_eq_zero h.2) h.1
      exact ⟨o, heq, by omega, hal, hf, fun hlt => hmax (by omega)⟩
    · next h =>
      refine ⟨order, rfl, by omega, halign, hfit, fun _ hdvd => not_le.mp fun hle => ?_⟩
      exact h ⟨hle, Nat.mod_eq_zero_of_dvd hdvd⟩

/-! ## The calls -/

/-- `buddy_lists_init` empties every list. -/
theorem rings_initHeads (l : Links (ListEntry ℕ)) :
    (initHeads l).Rings (Set.Iic BUDDY_MAX_ORDER) FL fun _ => [] := by
  have hinit := rings_listInit (h := FL) (fun _ _ h => ListEntry.head.inj h)
    (List.range (BUDDY_MAX_ORDER + 1)) l
  have hset : {o | o ∈ List.range (BUDDY_MAX_ORDER + 1)} = Set.Iic BUDDY_MAX_ORDER := by
    ext o
    simp only [Set.mem_ofPred_eq, List.mem_range, Set.mem_Iic]
    omega
  rwa [hset] at hinit

/-- Blocks none of which could be larger where it starts. -/
def Greedy (n : ℕ) (B : Finset Block) : Prop :=
  ∀ b ∈ B, b.2 < BUDDY_MAX_ORDER → 2 ^ (b.2 + 1) ∣ b.1 → n < b.1 + 2 ^ (b.2 + 1)

/-- Of two buddies, the left one could be larger. -/
theorem Greedy.coalesced (h : Greedy n free) (ht : Tiles n free) :
    Coalesced BUDDY_MAX_ORDER free := by
  have hleft : ∀ {i o}, (i, o) ∈ free → (i + 2 ^ o, o) ∈ free → 2 ^ (o + 1) ∣ i →
      ¬ o < BUDDY_MAX_ORDER := by
    intro i o hl hr hdvd ho
    have hlt : n < i + 2 ^ (o + 1) := h (i, o) hl ho hdvd
    have hle : i + 2 ^ o + 2 ^ o ≤ n := ht.end_le hr
    rw [pow_succ] at hlt
    omega
  rintro ⟨i, o⟩ hb ho hmem
  rcases Dyadic.buddy_cases (ht.aligned _ hb) with ⟨hdvd, hup⟩ | ⟨hdvd, hdown⟩
  · rw [buddy, hup] at hmem
    exact hleft hb hmem hdvd ho
  · exact hleft hmem (hdown ▸ hb) hdvd ho

/-- **The start-up loop** tiles the range from the bottom up with free blocks, each as large as it
can be. -/
theorem wp_initLoop (hn : n < 2 ^ 64) (h : Layout base n 0 s F ∅ ∅) (hnr : s.nrFree = 0) :
    Act.wp (Act.loop .spin (fun (offset, rem) => do
      if 0 < rem then
        let (order, size) := largestBlock offset rem BUDDY_MAX_ORDER 0 1
        let p := base + offset
        store fun g => (g.setProperty p size).setPageProperty p true
        store (·.mapLinks (listAdd · (FL order) (.pageLink p)))
        setNrFree (· + size)
        pure (.inl (offset + size, rem - size))
      else pure (.inr ())) fuel (0, n))
      (fun _ s' => (∃ F' free', Layout base n n s' F' free' ∅ ∧ Greedy n free') ∧ s'.nrFree = n ∧
        s'.lists.pageReserved = s.lists.pageReserved)
      (fun e => e = .spin ∧ fuel ≤ n) s := by
  refine Act.wp_loop (fun k b s' => ∃ m F' free', b = (m, n - m) ∧ k = n - m ∧
    Layout base n m s' F' free' ∅ ∧ Greedy n free' ∧ s'.nrFree = m ∧
    s'.lists.pageReserved = s.lists.pageReserved) ?_ fuel n _ s
    ⟨0, F, ∅, rfl, rfl, h, fun b hb => absurd hb (Finset.notMem_empty b), hnr, rfl⟩
    (fun hf => ⟨rfl, hf⟩)
  rintro k ⟨offset, rem⟩ s' ⟨m, F', free', heq, rfl, h, hgreedy, hnr, hres⟩
  obtain ⟨rfl, rfl⟩ : offset = m ∧ rem = n - m := by simpa using heq
  have hle := h.le
  simp only [Act.wp_ite, Act.wp_pure]
  refine ⟨fun hrem => ?_, fun hrem => ?_⟩
  · obtain ⟨o, hlb, ho, halign, hfit, hmax⟩ := largestBlock_spec offset (n - offset) BUDDY_MAX_ORDER 0
      (by simp) hrem
    have ho' : o ≤ BUDDY_MAX_ORDER := by omega
    have hpos : 0 < 2 ^ o := by positivity
    obtain ⟨hx, h₁⟩ := h.append halign (by omega) ho'
    rw [pow_zero] at hlb
    simp only [hlb, Act.wp_bind, wp_store, wp_setNrFree, Act.wp_pure, Sum.elim_inl]
    refine ⟨n - (offset + 2 ^ o), by omega, offset + 2 ^ o, _, _, by rw [Nat.sub_sub], rfl,
      h₁.putOn hx rfl rfl rfl (fun p => ?_) (fun p => ?_), fun b hb hlt hdvd => ?_, ?_, ?_⟩
    · simp [PageLists.property_setProperty, u32_size ho']
    · simp [PageLists.pageProperty_setPageProperty]
    · rcases Finset.mem_insert.mp hb with rfl | hb
      · have := hmax (hlt.trans_eq (Nat.zero_add _).symm) hdvd
        dsimp only
        omega
      · exact hgreedy b hb hlt hdvd
    · simp [hnr, u64_of_lt (show offset + 2 ^ o < 2 ^ 64 by omega)]
    · rw [← hres]; funext q; simp
  · obtain rfl : offset = n := by omega
    exact ⟨⟨F', free', h, hgreedy⟩, hnr, hres⟩

/-- What start-up stops with: no pages, a page that is not reserved, or too little fuel. -/
def BootStop (s : BuddyArea) (fuel base n : ℕ) (e : Stop) : Prop :=
  (e = .panic ∧ (n = 0 ∨ ∃ q ∈ Finset.Ico base (base + n), s.lists.pageReserved q = false)) ∨
    (e = .spin ∧ fuel ≤ n)

/-- **After start-up** nothing is handed out, and every free block is as large as it can be. -/
theorem wp_boot_greedy (hn : n < 2 ^ 64) : Act.wp (do buddyInit; buddyInitMemmap fuel base n)
    (fun _ s' => ∃ F free, Buddy base n s' F free ∅ ∧ Greedy n free)
    (BootStop s fuel base n) s := by
  simp only [buddyInit, buddyInitMemmap, buddyListsInit, Act.wp_bind, wp_store, wp_setNrFree,
    Act.wp_modify, Act.wp_require, Act.wp_get]
  refine ⟨fun hpos => Act.wp_mono (wp_clearPages base n _) ?_ fun e he => .inl ⟨he.1, .inr ?_⟩,
    fun hpos => .inl ⟨rfl, .inl (by omega)⟩⟩
  swap
  · simpa using he.2
  rintro - s₁ ⟨⟨hb, hnp, hnf, hl⟩, hres, hhead⟩
  have hmem : ∀ i < n, base + i ∈ Finset.Ico base (base + n) := fun i hi => by
    rw [Finset.mem_Ico]; omega
  refine Act.wp_mono (wp_initLoop (F := fun _ => []) hn ?_ rfl) ?_ fun e he => .inr he
  · refine ⟨hb, hnp, Nat.zero_le n, rings_initHeads _, by simp, by simp, by simp, by simpa using Tiles.empty,
      by simp, fun i hi => ?_⟩
    rw [PageLists.pageProperty_mapLinks, hhead, if_pos (hmem i hi)]
    simp
  · rintro - s₂ ⟨⟨F, free, hlay, hgreedy⟩, hnr, hres₂⟩
    refine ⟨F, free, { hlay with
      live_property := by simp, reserved := fun i hi => ?_, count := by simp [hnr] }, hgreedy⟩
    rw [hres₂, PageLists.pageReserved_mapLinks, hres, if_pos (hmem i hi)]
    simp

/-- …so no two free blocks are buddies. -/
theorem wp_boot (hn : n < 2 ^ 64) : Act.wp (do buddyInit; buddyInitMemmap fuel base n)
    (fun _ s' => ∃ F free, Buddy base n s' F free ∅ ∧ Coalesced BUDDY_MAX_ORDER free)
    (fun _ => True) s := by
  refine Act.wp_mono (wp_boot_greedy hn) ?_ fun _ _ => trivial
  rintro - s' ⟨F, free, h, hgreedy⟩
  exact ⟨F, free, h, hgreedy.coalesced (by simpa using h.tiles)⟩

/-- **Allocation** hands out a block of its order that was on no list, or nothing. -/
theorem wp_buddyAllocPages (h : Buddy base n s F free live) (hn : n < 2 ^ 64) (hk : 0 < k) :
    Act.wp (buddyAllocPages k)
      (fun r s' => (r = none ∧ s' = s ∧
          (s.nrFree < k ∨ ∀ o, size2orderCeil k ≤ o → o ≤ BUDDY_MAX_ORDER → F o = [])) ∨
        ∃ i F' free', r = some (base + i) ∧ (i, size2orderCeil k) ∉ live ∧
        Buddy base n s' F' free' (insert (i, size2orderCeil k) live) ∧
        (Coalesced BUDDY_MAX_ORDER free → Coalesced BUDDY_MAX_ORDER free') ∧
        k ≤ s.nrFree ∧ ∃ o, size2orderCeil k ≤ o ∧ o ≤ BUDDY_MAX_ORDER ∧ F o ≠ [])
      (fun _ => False) s := by
  have hneed := size2orderCeil_le k
  obtain ⟨hge, hgot, hskip⟩ := firstNonEmpty_spec s.lists.links
    (BUDDY_MAX_ORDER + 1 - size2orderCeil k) (size2orderCeil k)
  simp only [buddyAllocPages, Act.wp_bind, Act.wp_require, Act.wp_get, Act.wp_ite, Act.wp_pure]
  generalize hneedOrder : size2orderCeil k = need at *
  generalize firstNonEmpty s.lists.links (BUDDY_MAX_ORDER + 1 - need) need = got at *
  refine ⟨fun _ => ⟨fun hfew => .inl ⟨trivial, trivial, .inl hfew⟩, fun hmany => ⟨fun hgt =>
    .inl ⟨trivial, trivial, .inr fun o hlo hhi => ?_⟩, fun hle => ?_⟩⟩, fun h => absurd hk h⟩
  · have hempty := hskip o hlo (hhi.trans_lt hgt)
    rwa [listEmpty_iff (h.rings.ring o hhi), entries, List.map_eq_nil_iff] at hempty
  have hle : got ≤ BUDDY_MAX_ORDER := not_lt.mp hle
  have hring := h.rings.ring got hle
  have hne : F got ≠ [] := fun hnil => by
    have hempty := hgot (by omega)
    rw [← Bool.not_eq_true, listEmpty_iff hring] at hempty
    simp [entries, hnil] at hempty
  obtain ⟨i, bs, hF⟩ := List.exists_cons_of_ne_nil hne
  have hfree : (i, got) ∈ free := (h.mem got i).mp (by simp [hF])
  have hnext : listNext s.lists.links (FL got) = .pageLink (base + i) := by
    rw [listNext, hring.next_head, entries, hF]
    rfl
  simp only [hnext, Act.wp_bind, wp_store, wp_setNrFree]
  obtain ⟨d, rfl⟩ := Nat.exists_eq_add_of_le hge
  obtain ⟨F₁, h₁⟩ := h.takeOff (t := { s with lists :=
    ((s.lists.mapLinks (listDel · (.pageLink (base + i)))).setPageProperty (base + i) false) })
    hfree rfl rfl rfl (fun p _ => by simp) (fun p => by simp [PageLists.pageProperty_setPageProperty])
  have hx₁ : (i, need + d) ∉ live := Finset.disjoint_left.mp h.apart hfree
  rw [Nat.add_sub_cancel_left, order2size, order2size]
  refine Act.wp_mono (wp_splitDown d h₁ hx₁) ?_ (fun _ => id)
  rintro - s₂ ⟨hx, hsame, F₂, free₂, h₂, hcoal⟩
  refine Act.wp_mono (wp_markReserved _ _ _) ?_ (fun _ => id)
  rintro - s₃ ⟨hlists, hprop, hres, hhead⟩
  have hcell : ∀ c, base + c ∈ Finset.Ico (base + i) (base + i + 2 ^ need) ↔ c ∈ cells (i, need) := by
    intro c
    simp only [Finset.mem_Ico, Dyadic.mem_cells]
    omega
  have h₃ : Layout base n n s₃ F₂ free₂ (insert (i, need) live) := by
    refine h₂.congr hlists.base_eq hlists.npages_eq hlists.links (fun b hb => ?_) fun c hc => ?_
    · have hbi := h₂.start_ne hb (Finset.mem_insert_self _ _)
      rw [hprop, PageLists.property_setProperty, if_neg (by simpa using hbi)]
    · rw [hhead]
      simp only [hcell, PageLists.pageProperty_setProperty]
      split
      · next hmem => rw [h₂.not_head (Finset.mem_insert_self _ _) hmem]
      · rfl
  have hcount := h.count
  have hsum : ∑ b ∈ free₂, 2 ^ b.2 + (2 ^ need + ∑ b ∈ live, 2 ^ b.2) = n := by
    rw [← h₃.sum_size, Finset.sum_insert hx]
  have hpos : 0 < 2 ^ need := by positivity
  have hleft : s.nrFree - 2 ^ need + (2 ^ need + ∑ b ∈ live, 2 ^ b.2) = n := by omega
  refine .inr ⟨i, F₂, free₂, rfl, hx, { h₃ with
    live_property := fun b hb => ?_, reserved := fun c hc => ?_, count := ?_ },
    fun hc => hcoal (hc.subset (Finset.erase_subset _ _)), not_lt.mp hmany, _, hge, hle, hne⟩
  · rw [hprop, PageLists.property_setProperty]
    rcases Finset.mem_insert.mp hb with rfl | hb
    · rw [if_pos rfl, u32_size hneed]
    · rw [if_neg (by simpa using h₂.rest_start_ne hx hb), hsame.property b hb]
      simpa using h.live_property b hb
  · rw [hres]
    simp only [hcell, PageLists.pageReserved_setProperty, hsame.reserved,
      PageLists.pageReserved_setPageProperty,
      PageLists.pageReserved_mapLinks, Finset.mem_insert, exists_eq_or_imp]
    split
    · next hmem => simp [hmem]
    · next hmem => rw [h.reserved c hc]; simp [hmem]
  · have hnr : s₂.nrFree = s.nrFree := hsame.nrFree
    rw [Finset.sum_insert hx, hlists.nrFree, hnr, u64_of_lt (by omega)]
    exact hleft

/-- **Giving a live block back** passes every assertion. -/
theorem wp_buddyFreePages (fuel : ℕ) (h : Buddy base n s F free live) (hn : n < 2 ^ 64) (hk : 0 < k)
    (hb : (i, o) ∈ live) :
    Act.wp (buddyFreePages fuel (base + i) k)
      (fun _ s' => ∃ F' free', Buddy base n s' F' free' (live.erase (i, o)) ∧
        (Coalesced BUDDY_MAX_ORDER free → Coalesced BUDDY_MAX_ORDER free'))
      (fun e => e = .spin ∧ fuel ≤ n + BUDDY_MAX_ORDER) s := by
  have hmem : (i, o) ∈ free ∪ live := Finset.mem_union_right _ hb
  have ho : o ≤ BUDDY_MAX_ORDER := h.order_le _ hmem
  have hpos : 0 < 2 ^ o := by positivity
  have hend : i + 2 ^ o ≤ n := h.tiles.end_le hmem
  have halign : 2 ^ o ∣ i := h.tiles.aligned _ hmem
  have hprop : s.lists.property (base + i) = 2 ^ o := h.live_property _ hb
  have hlast : base + i + 2 ^ o - 1 = base + (i + 2 ^ o - 1) := by omega
  have hin : ∀ j < n, inManagedRange s (base + j) = true := fun j hj => by
    rw [inManagedRange, pageIndex_eq h.base_eq (hj.trans hn), h.base_eq, h.npages_eq]
    simpa using hj
  have hcell : ∀ c, base + c ∈ Finset.Ico (base + i) (base + i + 2 ^ o) ↔ c ∈ cells (i, o) := by
    intro c
    simp only [Finset.mem_Ico, Dyadic.mem_cells]
    omega
  simp only [buddyFreePages, Act.wp_bind, Act.wp_require, Act.wp_get, hprop, hpos.ne', if_false,
    hlast, hin i (by omega), hin (i + 2 ^ o - 1) (by omega), Bool.and_true,
    pageIndex_eq h.base_eq (show i < 2 ^ 64 by omega), Nat.mod_eq_zero_of_dvd halign, wp_store,
    wp_setNrFree, orderOf_two_pow (Nat.zero_le o) (show o ≤ 0 + 64 from ho.trans (by norm_num))]
  refine ⟨fun _ => ⟨fun _ => ⟨fun _ => Act.wp_mono (wp_releasePages _ _ s fun q hq => ?_) ?_
    (fun _ => False.elim), fun h => absurd trivial h⟩, fun h => absurd trivial h⟩,
    fun h => absurd hk h⟩
  · obtain ⟨c, rfl⟩ := Nat.exists_eq_add_of_le
      ((Nat.le_add_right base i).trans (Finset.mem_Ico.mp hq).1)
    have hc := (hcell c).mp hq
    exact (h.reserved c (h.tiles.lt hmem hc)).mpr ⟨(i, o), hb, hc⟩
  rintro - s₁ ⟨hlists, hprop₁, hres₁, hhead₁⟩
  have hx : (i, o) ∉ live.erase (i, o) := Finset.notMem_erase _ _
  have hlive : insert (i, o) (live.erase (i, o)) = live := Finset.insert_erase hb
  have h₁ : Layout base n n { s₁ with lists := s₁.lists.setProperty (base + i) 0 } F free
      (insert (i, o) (live.erase (i, o))) := by
    rw [hlive]
    refine h.toLayout.congr hlists.base_eq hlists.npages_eq hlists.links (fun b hbf => ?_)
      fun c hc => ?_
    · have hbi := h.start_ne hbf hb
      rw [PageLists.property_setProperty, if_neg (by simpa using hbi), hprop₁]
    · rw [PageLists.pageProperty_setProperty, hhead₁]
      simp only [hcell]
      split
      · next hc' => rw [h.not_head hb hc']
      · rfl
  refine Act.wp_mono (wp_insertAndMerge h₁ hx hn) ?_ (fun _ => id)
  rintro - s₂ ⟨F', free', h₂, hsame, hcoal⟩
  have hsum : 2 ^ o + ∑ b ∈ live.erase (i, o), 2 ^ b.2 = ∑ b ∈ live, 2 ^ b.2 :=
    Finset.add_sum_erase live (fun b => 2 ^ b.2) hb
  have hcount := h.count
  refine ⟨F', free', { h₂.congr (t := { s₂ with nrFree := u64 (s₂.nrFree + 2 ^ o) }) rfl rfl rfl
    (fun _ _ => rfl) (fun _ _ => rfl) with
    live_property := fun b hbe => ?_, reserved := fun c hc => ?_, count := ?_ }, hcoal⟩
  · have hbi := h₁.rest_start_ne hx hbe
    rw [hsame.property b hbe, PageLists.property_setProperty, if_neg (by simpa using hbi), hprop₁]
    exact h.live_property b (Finset.mem_of_mem_erase hbe)
  · rw [hsame.reserved, PageLists.pageReserved_setProperty, hres₁]
    simp only [hcell]
    split
    · next hc' =>
      refine iff_of_false (by simp) ?_
      rintro ⟨b, hbe, hcb⟩
      refine (Finset.mem_erase.mp hbe).1 (h.tiles.unique ?_ hmem hcb hc')
      exact Finset.mem_union_right _ (Finset.mem_of_mem_erase hbe)
    · next hc' =>
      rw [h.reserved c hc]
      refine exists_congr fun b => and_congr_left fun hcb => ?_
      rw [Finset.mem_erase]
      exact ⟨fun hbl => ⟨fun heq => hc' (heq ▸ hcb), hbl⟩, And.right⟩
  · show u64 (s₂.nrFree + 2 ^ o) + _ = n
    have hnr : s₂.nrFree = s.nrFree := hsame.nrFree.trans hlists.nrFree
    rw [hnr, u64_of_lt (by omega)]
    omega

/-! ## Whole runs -/

/-- **A run**: start-up over `n` pages from `base` on, then allocations and frees that return, each
free of the head of a live block.  `live` are the blocks handed out. -/
inductive Run (base n : ℕ) : BuddyArea → Finset Block → Prop
  | boot {fuel : ℕ} {s s' : BuddyArea} :
      (do buddyInit; buddyInitMemmap fuel base n) s = .ok ((), s') → Run base n s' ∅
  | alloc {k p : ℕ} {s s' : BuddyArea} {live : Finset Block} :
      Run base n s live → buddyAllocPages k s = .ok (some p, s') →
      Run base n s' (insert (p - base, size2orderCeil k) live)
  | allocNull {k : ℕ} {s s' : BuddyArea} {live : Finset Block} :
      Run base n s live → buddyAllocPages k s = .ok (none, s') → Run base n s' live
  | free {fuel k : ℕ} {b : Block} {s s' : BuddyArea} {live : Finset Block} :
      Run base n s live → b ∈ live → buddyFreePages fuel (base + b.1) k s = .ok ((), s') →
      Run base n s' (live.erase b)

private theorem pos_of_buddyAlloc {r : Option ℕ} (h : buddyAllocPages k s = .ok (r, s')) :
    0 < k := by
  by_contra hk
  have hwp : Act.wp (buddyAllocPages k) (fun _ _ => False) (fun _ => True) s := by
    simp only [buddyAllocPages, Act.wp_bind, Act.wp_require]
    exact ⟨fun h => absurd h hk, fun _ => trivial⟩
  exact Act.wp_of_ok hwp h

private theorem pos_of_buddyFree {p : ℕ} (h : buddyFreePages fuel p k s = .ok ((), s')) :
    0 < k := by
  by_contra hk
  have hwp : Act.wp (buddyFreePages fuel p k) (fun _ _ => False) (fun _ => True) s := by
    simp only [buddyFreePages, Act.wp_bind, Act.wp_require]
    exact ⟨fun h => absurd h hk, fun _ => trivial⟩
  exact Act.wp_of_ok hwp h

/-- **The partition invariant holds along every run**, and no two free blocks are buddies. -/
theorem buddy_of_run (hn : n < 2 ^ 64) (h : Run base n s live) :
    ∃ F free, Buddy base n s F free live ∧ Coalesced BUDDY_MAX_ORDER free := by
  induction h with
  | boot hb =>
    have hbuddy := Act.wp_of_ok (wp_boot hn) hb
    exact hbuddy
  | alloc _ ha ih =>
    obtain ⟨F, free, ih, hc⟩ := ih
    obtain ⟨hr, -⟩ | ⟨i, F', free', hr, -, hbuddy, hcoal, -⟩ :=
      Act.wp_of_ok (wp_buddyAllocPages ih hn (pos_of_buddyAlloc ha)) ha
    · cases hr
    · cases hr
      rw [Nat.add_sub_cancel_left]
      exact ⟨F', free', hbuddy, hcoal hc⟩
  | allocNull _ ha ih =>
    obtain ⟨F, free, ih, hc⟩ := ih
    obtain ⟨-, rfl, -⟩ | ⟨i, F', free', hr, -⟩ :=
      Act.wp_of_ok (wp_buddyAllocPages ih hn (pos_of_buddyAlloc ha)) ha
    · exact ⟨F, free, ih, hc⟩
    · cases hr
  | free _ hb hf ih =>
    obtain ⟨F, free, ih, hc⟩ := ih
    obtain ⟨F', free', hbuddy, hcoal⟩ :=
      Act.wp_of_ok (wp_buddyFreePages _ ih hn (pos_of_buddyFree hf) hb) hf
    exact ⟨F', free', hbuddy, hcoal hc⟩

/-- **The buddy manager over whole runs.**  After every call the free blocks, each on the list of
its order, and the live blocks tile the managed range, sizes, flags and `NR_FREE` agree with them,
and giving any live block back passes every assertion. -/
theorem buddyPmm_run (hn : n < 2 ^ 64) (h : Run base n s live) :
    (∃ F free, Buddy base n s F free live ∧ s.nrFree = ∑ b ∈ free, 2 ^ b.2) ∧
    (∀ k, 0 < k → ∃ r s', buddyAllocPages k s = .ok (r, s')) ∧
    ∀ b ∈ live, ∀ k fuel, 0 < k → n + BUDDY_MAX_ORDER < fuel →
      ∃ s', buddyFreePages fuel (base + b.1) k s = .ok ((), s') := by
  obtain ⟨F, free, hbuddy, -⟩ := buddy_of_run hn h
  refine ⟨⟨F, free, hbuddy, hbuddy.nrFree_eq⟩, fun k hk => ?_, fun b hb k fuel hk hfuel => ?_⟩
  · obtain ⟨r, s', hr, -⟩ := Act.wp_false_iff.mp (wp_buddyAllocPages hbuddy hn hk)
    exact ⟨r, s', hr⟩
  · have hwp := wp_buddyFreePages fuel hbuddy hn hk hb
    obtain ⟨_, s', hr, -⟩ := Act.wp_false_iff.mp
      (Act.wp_mono hwp (fun _ _ => id) fun e he => by have := he.2; omega)
    exact ⟨s', hr⟩

/-- Memory before start-up: every page is reserved. -/
def allReserved : BuddyArea := ⟨⟨fun _ => ⟨0, ⟨true, false⟩, 0⟩, ⟨id, id⟩⟩, 0, none, 0⟩

/-- Three pages, one block of one page taken twice, the second given back into a merge. -/
theorem buddyPmm_run_three : ∃ s, Run 10 3 s {(2, 0)} ∧ s.nrFree = 2 ∧
    ∃ F free, Buddy 10 3 s F free {(2, 0)} ∧ s.nrFree = ∑ b ∈ free, 2 ^ b.2 := by
  have hboot : Run 10 3 _ ∅ :=
    .boot (show (do buddyInit; buddyInitMemmap 4 10 3) allReserved = .ok ((), _) from rfl)
  have h₀ := hboot.alloc (show buddyAllocPages 1 _ = .ok (some 12, _) from rfl)
  have h₁ := h₀.alloc (show buddyAllocPages 1 _ = .ok (some 10, _) from rfl)
  have h₂ := h₁.free (b := (0, 0)) (by decide)
    (show buddyFreePages 20 10 1 _ = .ok ((), _) from rfl)
  exact ⟨_, h₂, rfl, (buddyPmm_run (by norm_num) h₂).1⟩

/-- **Coalescing is complete.**  After every call no two blocks on the list of an order below the top
one are buddies; and when all live blocks have been given back, in whatever order, the lists hold
the blocks that start-up put on them. -/
theorem coalesced_run (hn : n < 2 ^ 64) (h : Run base n s live) :
    ∃ F free, Buddy base n s F free live ∧
      (∀ o < BUDDY_MAX_ORDER, ∀ i ∈ F o, i ^^^ 2 ^ o ∉ F o) ∧
      (live = ∅ → ∀ fuel s₀ s₁, (do buddyInit; buddyInitMemmap fuel base n) s₀ = .ok ((), s₁) →
        ∃ F₁ free₁, Buddy base n s₁ F₁ free₁ ∅ ∧ ∀ o i, i ∈ F o ↔ i ∈ F₁ o) := by
  obtain ⟨F, free, hbuddy, hc⟩ := buddy_of_run hn h
  refine ⟨F, free, hbuddy, fun o ho i hi hmem => ?_, fun hlive fuel s₀ s₁ hboot => ?_⟩
  · exact hc (i, o) ((hbuddy.mem o i).mp hi) ho ((hbuddy.mem o _).mp hmem)
  · obtain ⟨F₁, free₁, hbuddy₁, hc₁⟩ := Act.wp_of_ok (wp_boot hn) hboot
    subst hlive
    have ht := hbuddy.tiles
    have ht₁ := hbuddy₁.tiles
    rw [Finset.union_empty] at ht ht₁
    have heq : free = free₁ := hc.eq hc₁ ht ht₁
      (fun b hb => hbuddy.order_le b (Finset.mem_union_left _ hb))
      fun b hb => hbuddy₁.order_le b (Finset.mem_union_left _ hb)
    exact ⟨F₁, free₁, hbuddy₁, fun o i => by rw [hbuddy.mem, hbuddy₁.mem, heq]⟩

/-- Three pages, two taken and both given back. -/
theorem coalesced_run_three : ∃ s, Run 10 3 s ∅ ∧ ∃ F free, Buddy 10 3 s F free ∅ ∧
    ∀ o < BUDDY_MAX_ORDER, ∀ i ∈ F o, i ^^^ 2 ^ o ∉ F o := by
  have hboot : Run 10 3 _ ∅ :=
    .boot (show (do buddyInit; buddyInitMemmap 4 10 3) allReserved = .ok ((), _) from rfl)
  have h₀ := hboot.alloc (show buddyAllocPages 1 _ = .ok (some 12, _) from rfl)
  have h₁ := h₀.alloc (show buddyAllocPages 1 _ = .ok (some 10, _) from rfl)
  have h₂ := h₁.free (b := (0, 0)) (by decide)
    (show buddyFreePages 20 10 1 _ = .ok ((), _) from rfl)
  have h₃ := h₂.free (b := (2, 0)) (by decide)
    (show buddyFreePages 20 12 1 _ = .ok ((), _) from rfl)
  obtain ⟨F, free, hbuddy, hno, -⟩ := coalesced_run (by norm_num) h₃
  exact ⟨_, h₃, F, free, hbuddy, hno⟩

end UCore.BuddyPmm
