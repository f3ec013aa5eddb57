import UCore.Mm.BuddyPmmRun

/-!
# Mm/BuddyPmmFit — is what the buddy manager hands out large enough?

`size2order_ceil` stops at `BUDDY_MAX_ORDER`.  Up to `2 ^ BUDDY_MAX_ORDER` pages the order it finds
is the right one, and the search from there misses no block; a larger request gets a block of the
top order, which is too small.
-/

namespace UCore.BuddyPmm

open Dyadic (Block Tiles Coalesced cells)

variable {base n i o k fuel : ℕ} {s s' : BuddyArea} {F F' : ℕ → List ℕ}
  {free free' live : Finset Block}

/-! ## What allocation is to do -/

/-- The block at `p` is on the list of the order `o`. -/
def FreeBlock (s : BuddyArea) (o p : ℕ) : Prop :=
  o ≤ BUDDY_MAX_ORDER ∧ ∃ xs, s.lists.links.Ring (FL o) xs ∧ .pageLink p ∈ xs

/-- The page `q` is in a free block. -/
def FreePage (s : BuddyArea) (q : ℕ) : Prop := ∃ o p, FreeBlock s o p ∧ p ≤ q ∧ q < p + 2 ^ o

/-- **Large enough, and complete**: the pages handed out are `k` at least, and were all free; and
nothing is handed out only when every free block is smaller. -/
def Enough (s s' : BuddyArea) (k : ℕ) : Option ℕ → Prop
  | none => ∀ o p, FreeBlock s o p → 2 ^ o < k
  | some p => ∀ q ∈ Finset.Ico p (p + k), FreePage s q ∧ s'.lists.pageReserved q = true

theorem Buddy.freeBlock_iff (h : Buddy base n s F free live) {p : ℕ} :
    FreeBlock s o p ↔ ∃ i, p = base + i ∧ (i, o) ∈ free := by
  constructor
  · rintro ⟨ho, xs, hxs, hmem⟩
    rw [hxs.unique (h.rings.ring o ho), entries, List.mem_map] at hmem
    obtain ⟨i, hi, heq⟩ := hmem
    exact ⟨i, by simpa using heq.symm, (h.mem o i).mp hi⟩
  · rintro ⟨i, rfl, hi⟩
    have ho := h.order_le _ (Finset.mem_union_left _ hi)
    exact ⟨ho, _, h.rings.ring o ho, List.mem_map_of_mem ((h.mem o i).mpr hi)⟩

theorem Buddy.freePage_iff (h : Buddy base n s F free live) {c : ℕ} :
    FreePage s (base + c) ↔ ∃ b ∈ free, c ∈ cells b := by
  constructor
  · rintro ⟨o, p, hp, hlo, hhi⟩
    obtain ⟨i, rfl, hi⟩ := h.freeBlock_iff.mp hp
    refine ⟨(i, o), hi, Dyadic.mem_cells.mpr ?_⟩
    dsimp only
    omega
  · rintro ⟨⟨i, o⟩, hi, hc⟩
    rw [Dyadic.mem_cells] at hc
    dsimp only at hc
    exact ⟨o, base + i, h.freeBlock_iff.mpr ⟨i, rfl, hi⟩, by omega, by omega⟩

/-! ## The order of a request -/

/-- **The order loop**: it stops at the first order that is large enough, or at the top. -/
theorem size2orderLoop_spec (n left o : ℕ) (hprev : o = 0 ∨ 2 ^ (o - 1) < n) :
    (size2orderLoop n left o (2 ^ o) = o + left ∨ n ≤ 2 ^ size2orderLoop n left o (2 ^ o)) ∧
      (size2orderLoop n left o (2 ^ o) = 0 ∨ 2 ^ (size2orderLoop n left o (2 ^ o) - 1) < n) := by
  induction left generalizing o with
  | zero => exact ⟨.inl rfl, hprev⟩
  | succ left ih =>
    rw [size2orderLoop, ← pow_succ]
    split
    · next hlt =>
      have := ih (o + 1) (.inr hlt)
      rwa [show o + 1 + left = o + (left + 1) by omega] at this
    · next hge => exact ⟨.inr (not_lt.mp hge), hprev⟩

theorem le_two_pow_size2orderCeil (h : n ≤ 2 ^ BUDDY_MAX_ORDER) : n ≤ 2 ^ size2orderCeil n := by
  have hspec : (size2orderCeil n = 0 + BUDDY_MAX_ORDER ∨ n ≤ 2 ^ size2orderCeil n) ∧ _ :=
    size2orderLoop_spec n BUDDY_MAX_ORDER 0 (.inl rfl)
  rcases hspec.1 with heq | hle
  · rwa [heq, Nat.zero_add]
  · exact hle

/-- A block of a smaller order than the one found is too small. -/
theorem two_pow_lt_of_lt_size2orderCeil (h : o < size2orderCeil n) : 2 ^ o < n := by
  have hspec : _ ∧ (size2orderCeil n = 0 ∨ 2 ^ (size2orderCeil n - 1) < n) :=
    size2orderLoop_spec n BUDDY_MAX_ORDER 0 (.inl rfl)
  have hlt := hspec.2.resolve_left (by omega)
  exact (Nat.pow_le_pow_right (by norm_num) (by omega)).trans_lt hlt

/-- **A request above the top order** is given the top order. -/
theorem size2orderCeil_of_lt (h : 2 ^ BUDDY_MAX_ORDER < n) :
    size2orderCeil n = BUDDY_MAX_ORDER := by
  have hspec : (size2orderCeil n = 0 + BUDDY_MAX_ORDER ∨ n ≤ 2 ^ size2orderCeil n) ∧ _ :=
    size2orderLoop_spec n BUDDY_MAX_ORDER 0 (.inl rfl)
  rcases hspec.1 with heq | hle
  · rwa [Nat.zero_add] at heq
  · have := Nat.pow_le_pow_right (show 0 < 2 by norm_num) (size2orderCeil_le n)
    omega

/-! ## The call -/

/-- No free block is larger than what is free. -/
theorem Buddy.size_le (h : Buddy base n s F free live) (hi : (i, o) ∈ free) : 2 ^ o ≤ s.nrFree := by
  rw [h.nrFree_eq]
  exact Finset.single_le_sum (f := fun b : Block => 2 ^ b.2) (fun _ _ => Nat.zero_le _) hi

/-- **The pages handed out** are the cells of the block, and were free. -/
theorem Buddy.taken (h : Buddy base n s F free live)
    (h' : Buddy base n s' F' free' (insert (i, o) live)) (hnew : (i, o) ∉ live) {c : ℕ} :
    FreePage s (base + c) ∧ s'.lists.pageReserved (base + c) = true ↔ c ∈ cells (i, o) := by
  have hmem : (i, o) ∈ free' ∪ insert (i, o) live :=
    Finset.mem_union_right _ (Finset.mem_insert_self _ _)
  constructor
  · rintro ⟨hfree, hres⟩
    obtain ⟨b, hb, hcb⟩ := h.freePage_iff.mp hfree
    have hcn := h.tiles.lt (Finset.mem_union_left _ hb) hcb
    obtain ⟨d, hd, hcd⟩ := (h'.reserved c hcn).mp hres
    rcases Finset.mem_insert.mp hd with rfl | hd
    · exact hcd
    · -- a page of a live block is in no free one
      obtain rfl := h.tiles.unique (Finset.mem_union_left _ hb) (Finset.mem_union_right _ hd) hcb hcd
      exact absurd hd (Finset.disjoint_left.mp h.apart hb)
  · intro hc
    have hcn := h'.tiles.lt hmem hc
    refine ⟨h.freePage_iff.mpr ?_, (h'.reserved c hcn).mpr ⟨_, Finset.mem_insert_self _ _, hc⟩⟩
    obtain ⟨b, hb, hcb⟩ := h.tiles.exists_mem hcn
    refine ⟨b, (Finset.mem_union.mp hb).resolve_right fun hlive => hnew ?_, hcb⟩
    rw [h'.tiles.unique hmem (Finset.mem_union_right _ (Finset.mem_insert_of_mem hlive)) hc hcb]
    exact hlive

/-- A block smaller than the request is not enough: the page behind it is not handed out. -/
theorem Buddy.not_enough (h : Buddy base n s F free live)
    (h' : Buddy base n s' F' free' (insert (i, o) live)) (hnew : (i, o) ∉ live) (hk : 2 ^ o < k) :
    ¬ Enough s s' k (some (base + i)) := fun henough => by
  have hpos : 0 < 2 ^ o := by positivity
  have hin := henough (base + (i + 2 ^ o)) (Finset.mem_Ico.mpr ⟨by omega, by omega⟩)
  exact absurd (Dyadic.mem_cells.mp ((h.taken h' hnew).mp hin)).2 (lt_irrefl _)

/-- **Buddy allocation over whole runs.**  In every state reached a request returns, and what it
hands out is large enough, and complete, exactly when it is for `2 ^ BUDDY_MAX_ORDER` pages at most,
or too little is free, or no block of the top order is free. -/
theorem buddyAllocPages_run (hn : n < 2 ^ 64) (h : Run base n s live) (hk : 0 < k) :
    (∃ r s', buddyAllocPages k s = .ok (r, s') ∧ Enough s s' k r) ↔
      k ≤ 2 ^ BUDDY_MAX_ORDER ∨ s.nrFree < k ∨ listEmpty s.lists.links (FL BUDDY_MAX_ORDER) = true := by
  obtain ⟨F, free, hb, -⟩ := buddy_of_run hn h
  have hring := hb.rings.ring BUDDY_MAX_ORDER (Set.mem_Iic.mpr le_rfl)
  rw [listEmpty_iff hring, entries, List.map_eq_nil_iff]
  obtain ⟨r, s', hrun, hres⟩ := Act.wp_false_iff.mp (wp_buddyAllocPages hb hn hk)
  constructor
  · rintro ⟨r', s'', hrun', henough⟩
    obtain ⟨rfl, rfl⟩ : r' = r ∧ s'' = s' := by simpa using hrun'.symm.trans hrun
    refine or_iff_not_imp_left.mpr fun hlarge => ?_
    have hceil := size2orderCeil_of_lt (not_le.mp hlarge)
    rw [hceil] at hres
    rcases hres with ⟨-, -, hnone⟩ | ⟨i, F', free', rfl, hnew, hb', -⟩
    · exact hnone.imp_right fun hnil => hnil _ le_rfl le_rfl
    · exact absurd henough (hb.not_enough hb' hnew (not_le.mp hlarge))
  · intro hcond
    refine ⟨r, s', hrun, ?_⟩
    rcases hres with ⟨rfl, rfl, hnone⟩ | ⟨i, F', free', rfl, hnew, hb', -, hmany, o, hlo, hhi, hne⟩
    · rintro o p hp
      obtain ⟨i, rfl, hi⟩ := hb.freeBlock_iff.mp hp
      rcases hnone with hfew | hnil
      · exact (hb.size_le hi).trans_lt hfew
      · refine two_pow_lt_of_lt_size2orderCeil (not_le.mp fun hle => ?_)
        have := (hb.mem o i).mpr hi
        rw [hnil o hle hp.1] at this
        exact absurd this (by simp)
    · rintro q hq
      rw [Finset.mem_Ico] at hq
      obtain ⟨c, rfl⟩ := Nat.exists_eq_add_of_le ((Nat.le_add_right base i).trans hq.1)
      have hsmall : k ≤ 2 ^ BUDDY_MAX_ORDER := by
        by_contra hlarge
        rw [size2orderCeil_of_lt (not_le.mp hlarge)] at hlo
        obtain rfl : o = BUDDY_MAX_ORDER := le_antisymm hhi hlo
        rcases hcond with hle | hfew | hnil
        · exact hlarge hle
        · omega
        · exact hne hnil
      have hfit := le_two_pow_size2orderCeil hsmall
      refine (hb.taken hb' hnew).mpr (Dyadic.mem_cells.mpr ?_)
      dsimp only
      omega

/-- Two pages, and a request for one of them. -/
theorem buddyAllocPages_run_two : ∃ s r s', Run 10 2 s ∅ ∧ buddyAllocPages 1 s = .ok (r, s') ∧
    Enough s s' 1 r := by
  have hboot : Run 10 2 _ ∅ :=
    .boot (show (do buddyInit; buddyInitMemmap 3 10 2) allReserved = .ok ((), _) from rfl)
  obtain ⟨r, s', hrun, henough⟩ :=
    (buddyAllocPages_run (by norm_num) hboot Nat.one_pos).mpr (.inl (by norm_num))
  exact ⟨_, r, s', hboot, hrun, henough⟩

/-- **Start-up returns** on reserved pages. -/
theorem exists_boot (hn : n < 2 ^ 64) (hpos : 0 < n)
    (hres : ∀ q ∈ Finset.Ico base (base + n), s.lists.pageReserved q = true) :
    ∃ s', (do buddyInit; buddyInitMemmap (n + 1) base n) s = .ok ((), s') ∧
      ∃ F free, Buddy base n s' F free ∅ ∧ Greedy n free := by
  have hwp : Act.wp (do buddyInit; buddyInitMemmap (n + 1) base n)
      (fun _ s' => ∃ F free, Buddy base n s' F free ∅ ∧ Greedy n free) (fun _ => False) s := by
    refine Act.wp_mono (wp_boot_greedy hn) (fun _ _ => id) fun e he => ?_
    rcases he with ⟨-, he | ⟨q, hq, hfree⟩⟩ | ⟨-, he⟩
    · omega
    · exact absurd (hres q hq) (by simp [hfree])
    · omega
  obtain ⟨⟨⟩, s', hrun, hs'⟩ := Act.wp_false_iff.mp hwp
  exact ⟨s', hrun, hs'⟩

/-- **A range of more than the top order** starts with a block of the top order, so a request for
more is given too little. -/
theorem not_enough_large (hb : Buddy base n s F free ∅) (hgreedy : Greedy n free)
    (hk : 2 ^ BUDDY_MAX_ORDER < k) (hkn : k ≤ n) (hn : n < 2 ^ 64) :
    ¬ ∃ r s', buddyAllocPages k s = .ok (r, s') ∧ Enough s s' k r := by
  rintro ⟨r, s', hrun, henough⟩
  have hpos : 0 < 2 ^ BUDDY_MAX_ORDER := by positivity
  obtain ⟨⟨i, o⟩, hi, hc⟩ := hb.tiles.exists_mem (show 0 < n by omega)
  rw [Finset.union_empty] at hi
  have ho := hb.order_le _ (Finset.mem_union_left _ hi)
  obtain rfl : i = 0 := by
    have := (Dyadic.mem_cells.mp hc).1
    dsimp only at this
    omega
  have htop : o = BUDDY_MAX_ORDER := by
    by_contra hne
    have hlt : o < BUDDY_MAX_ORDER := lt_of_le_of_ne ho hne
    have hgr := hgreedy _ hi hlt (dvd_zero _)
    have hpow := Nat.pow_le_pow_right (show 0 < 2 by norm_num)
      (show o + 1 ≤ BUDDY_MAX_ORDER from hlt)
    dsimp only at hgr
    omega
  rcases Act.wp_of_ok (wp_buddyAllocPages hb hn (by omega)) hrun with
    ⟨-, -, hfew | hnil⟩ | ⟨j, F', free', rfl, hnew, hb', -⟩
  · have := hb.count
    rw [Finset.sum_empty] at this
    omega
  · have hmem := (hb.mem o 0).mpr hi
    rw [htop, hnil _ (size2orderCeil_le k) le_rfl] at hmem
    exact absurd hmem (by simp)
  · rw [size2orderCeil_of_lt hk] at hnew hb'
    exact hb.not_enough hb' hnew hk henough

/-- One page more than the top order, out of twice as many: half of them are handed out. -/
theorem buddyAllocPages_run_large : ∃ s, Run 0 65536 s ∅ ∧
    ¬ ∃ r s', buddyAllocPages 32769 s = .ok (r, s') ∧ Enough s s' 32769 r := by
  obtain ⟨s, hboot, F, free, hb, hgreedy⟩ :=
    @exists_boot 0 65536 allReserved (by norm_num) (by norm_num) fun q _ => rfl
  exact ⟨s, .boot hboot, not_enough_large hb hgreedy (by norm_num) (by norm_num) (by norm_num)⟩

end UCore.BuddyPmm
