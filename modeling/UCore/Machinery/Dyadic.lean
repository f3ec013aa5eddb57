import Mathlib.Data.Nat.Bitwise
import Mathlib.Order.Interval.Finset.Nat
import Mathlib.Algebra.BigOperators.Group.Finset.Basic
import Mathlib.Tactic

/-!
# Machinery/Dyadic — tilings by aligned power-of-two blocks

A block `(i, o)` holds the `2 ^ o` cells from `i` on.  `Tiles n B` says that the blocks `B` are
aligned to their sizes and cover each of the cells `0, …, n - 1` once and no other.

    (i, o + 1)  ⇄  (i, o), (i + 2 ^ o, o)

Splitting a block into its halves and joining two buddies both keep a tiling, and `xor` with the
size finds the buddy.
-/

namespace Dyadic

/-- A block: the index it starts at, and its order. -/
abbrev Block := ℕ × ℕ

/-- The cells of a block. -/
def cells (b : Block) : Finset ℕ := Finset.Ico b.1 (b.1 + 2 ^ b.2)

/-- How many of the blocks hold a cell. -/
def coverage (B : Finset Block) (c : ℕ) : ℕ := (B.filter fun b => c ∈ cells b).card

/-- **A tiling of `[0, n)`** by aligned blocks. -/
structure Tiles (n : ℕ) (B : Finset Block) : Prop where
  aligned : ∀ b ∈ B, 2 ^ b.2 ∣ b.1
  once : ∀ c, coverage B c = if c < n then 1 else 0

variable {n i j o c : ℕ} {a b x y : Block} {B C : Finset Block}

theorem mem_cells : c ∈ cells b ↔ b.1 ≤ c ∧ c < b.1 + 2 ^ b.2 := Finset.mem_Ico

theorem start_mem (b : Block) : b.1 ∈ cells b := mem_cells.mpr ⟨le_rfl, by simp⟩

theorem card_cells (b : Block) : (cells b).card = 2 ^ b.2 := by simp [cells]

theorem coverage_insert (hx : x ∉ B) :
    coverage (insert x B) c = (if c ∈ cells x then 1 else 0) + coverage B c := by
  unfold coverage
  rw [Finset.filter_insert]
  split
  · rw [Finset.card_insert_of_notMem fun h => hx (Finset.mem_filter.mp h).1, Nat.add_comm]
  · rw [Nat.zero_add]

namespace Tiles

theorem empty : Tiles 0 ∅ := ⟨by simp, by simp [coverage]⟩

/-- A cell is in one block only. -/
theorem unique (h : Tiles n B) (ha : a ∈ B) (hb : b ∈ B) (hca : c ∈ cells a) (hcb : c ∈ cells b) :
    a = b := by
  have hle : coverage B c ≤ 1 := by rw [h.once]; split <;> simp
  exact Finset.card_le_one.mp hle a (by simp [ha, hca]) b (by simp [hb, hcb])

/-- A cell of a block is a cell of the range. -/
theorem lt (h : Tiles n B) (hb : b ∈ B) (hc : c ∈ cells b) : c < n := by
  by_contra hn
  have hzero := h.once c
  rw [if_neg hn] at hzero
  exact Finset.notMem_empty b (Finset.card_eq_zero.mp hzero ▸ Finset.mem_filter.mpr ⟨hb, hc⟩)

/-- …and every cell of the range is in some block. -/
theorem exists_mem (h : Tiles n B) (hc : c < n) : ∃ b ∈ B, c ∈ cells b := by
  have hone := h.once c
  rw [if_pos hc] at hone
  obtain ⟨b, hb⟩ := Finset.card_pos.mp (hone.symm ▸ Nat.one_pos)
  exact ⟨b, (Finset.mem_filter.mp hb).1, (Finset.mem_filter.mp hb).2⟩

/-- Blocks are told apart by where they start. -/
theorem eq_of_start (h : Tiles n B) (ha : a ∈ B) (hb : b ∈ B) (heq : a.1 = b.1) : a = b :=
  h.unique ha hb (start_mem a) (heq ▸ start_mem b)

/-- A block ends inside the range. -/
theorem end_le (h : Tiles n B) (hb : b ∈ B) : b.1 + 2 ^ b.2 ≤ n := by
  have hpos : 0 < 2 ^ b.2 := by positivity
  have := h.lt hb (c := b.1 + 2 ^ b.2 - 1) (mem_cells.mpr (by omega))
  omega

/-- **The sizes of the blocks of a tiling sum to the length of the range.** -/
theorem sum_size (h : Tiles n B) : ∑ b ∈ B, 2 ^ b.2 = n := by
  have hunion : B.biUnion cells = Finset.range n := by
    ext c
    simp only [Finset.mem_biUnion, Finset.mem_range]
    exact ⟨fun ⟨b, hb, hc⟩ => h.lt hb hc, h.exists_mem⟩
  have hcard := Finset.card_biUnion (s := B) (t := cells) fun a ha b hb hab =>
    Finset.disjoint_left.mpr fun c hca hcb => hab (h.unique ha hb hca hcb)
  rw [hunion, Finset.card_range] at hcard
  simpa only [card_cells] using hcard.symm

/-- A block whose cells another block of the tiling holds is not in it. -/
theorem notMem_of_subset (h : Tiles n (insert x B)) (hx : x ∉ B) (hy : y.1 ∈ cells x) : y ∉ B := by
  intro hyB
  exact hx (h.unique (Finset.mem_insert_self x B) (Finset.mem_insert_of_mem hyB) hy (start_mem y) ▸
    hyB)

/-- A block placed right after the range. -/
theorem append (h : Tiles n B) (halign : 2 ^ o ∣ n) :
    (n, o) ∉ B ∧ Tiles (n + 2 ^ o) (insert (n, o) B) := by
  have hnot : (n, o) ∉ B := fun hmem => absurd (h.lt hmem (start_mem _)) (lt_irrefl n)
  refine ⟨hnot, ?_, fun c => ?_⟩
  · simpa using ⟨halign, fun i o hb => h.aligned (i, o) hb⟩
  · rw [coverage_insert hnot, h.once]
    simp only [mem_cells]
    split_ifs <;> omega

end Tiles

/-! ## Halves and buddies -/

theorem cells_succ : c ∈ cells (i, o + 1) ↔ c ∈ cells (i, o) ∨ c ∈ cells (i + 2 ^ o, o) := by
  simp only [mem_cells, pow_succ]
  omega

theorem not_both (hc : c ∈ cells (i, o)) : c ∉ cells (i + 2 ^ o, o) := by
  simp only [mem_cells] at hc ⊢
  omega

/-- **Splitting** a block into its halves keeps the tiling. -/
theorem Tiles.split (h : Tiles n (insert (i, o + 1) B)) (hx : (i, o + 1) ∉ B) :
    (i, o) ∉ insert (i + 2 ^ o, o) B ∧ (i + 2 ^ o, o) ∉ B ∧
      Tiles n (insert (i, o) (insert (i + 2 ^ o, o) B)) := by
  have hpos : 0 < 2 ^ o := by positivity
  have hr : (i + 2 ^ o, o) ∉ B := h.notMem_of_subset hx (cells_succ.mpr (.inr (start_mem _)))
  have hl : (i, o) ∉ insert (i + 2 ^ o, o) B := by
    rw [Finset.mem_insert, not_or]
    exact ⟨by simp, h.notMem_of_subset hx (cells_succ.mpr (.inl (start_mem _)))⟩
  have halign : 2 ^ (o + 1) ∣ i := h.aligned (i, o + 1) (Finset.mem_insert_self _ _)
  have hhalf : 2 ^ o ∣ i := (pow_dvd_pow 2 o.le_succ).trans halign
  refine ⟨hl, hr, fun b hb => ?_, fun c => ?_⟩
  · rw [Finset.mem_insert, Finset.mem_insert] at hb
    rcases hb with rfl | rfl | hb
    · exact hhalf
    · exact hhalf.add dvd_rfl
    · exact h.aligned b (Finset.mem_insert_of_mem hb)
  · have hc := h.once c
    rw [coverage_insert hx] at hc
    rw [coverage_insert hl, coverage_insert hr, ← hc, ← Nat.add_assoc]
    congr 1
    by_cases h₁ : c ∈ cells (i, o)
    · simp [h₁, not_both h₁, cells_succ]
    · simp [h₁, cells_succ]

/-- **Joining** two buddies, the lower one aligned to the joint size, keeps the tiling. -/
theorem Tiles.join (h : Tiles n (insert (i, o) (insert (i + 2 ^ o, o) B)))
    (hl : (i, o) ∉ insert (i + 2 ^ o, o) B) (hr : (i + 2 ^ o, o) ∉ B) (halign : 2 ^ (o + 1) ∣ i) :
    (i, o + 1) ∉ B ∧ Tiles n (insert (i, o + 1) B) := by
  have hx : (i, o + 1) ∉ B := fun hmem => by
    have heq := h.eq_of_start (Finset.mem_insert_self _ _)
      (Finset.mem_insert_of_mem (Finset.mem_insert_of_mem hmem)) rfl
    simpa using congrArg Prod.snd heq
  refine ⟨hx, fun b hb => ?_, fun c => ?_⟩
  · rcases Finset.mem_insert.mp hb with rfl | hb
    · exact halign
    · exact h.aligned b (Finset.mem_insert_of_mem (Finset.mem_insert_of_mem hb))
  · have hc := h.once c
    rw [coverage_insert hl, coverage_insert hr, ← Nat.add_assoc] at hc
    rw [coverage_insert hx, ← hc]
    congr 1
    by_cases h₁ : c ∈ cells (i, o)
    · simp [h₁, not_both h₁, cells_succ]
    · simp [h₁, cells_succ]

/-- **The buddy of an aligned block**: the other half of the block of the next order. -/
theorem buddy_cases (h : 2 ^ o ∣ i) :
    (2 ^ (o + 1) ∣ i ∧ i ^^^ 2 ^ o = i + 2 ^ o) ∨
      (2 ^ (o + 1) ∣ i ^^^ 2 ^ o ∧ i = (i ^^^ 2 ^ o) + 2 ^ o) := by
  obtain ⟨m, rfl⟩ := h
  have hxor : 2 ^ o * m ^^^ 2 ^ o = 2 ^ o * (m ^^^ 1) := by
    simpa [Nat.shiftLeft_eq, Nat.mul_comm] using
      (Nat.shiftLeft_xor_distrib (a := m) (b := 1) (i := o)).symm
  rw [hxor]
  rcases Nat.even_or_odd' m with ⟨k, rfl | rfl⟩
  · refine .inl ⟨⟨k, by ring⟩, ?_⟩
    rw [Nat.xor_one_of_even ⟨k, by ring⟩]
    ring
  · rw [Nat.xor_one_of_odd ⟨k, rfl⟩]
    exact .inr ⟨⟨k, by rw [Nat.add_sub_cancel]; ring⟩, by rw [Nat.add_sub_cancel]; ring⟩

/-! ## Coalesced tilings

An aligned block is what its cells agree on above its order, so the blocks over one cell are nested.
A tiling with no two buddies in it is made of the largest blocks that fit, and there is only one. -/

/-- The block of an order over a cell. -/
def blockAt (c o : ℕ) : Block := (2 ^ o * (c / 2 ^ o), o)

/-- The other half of the block of the next order. -/
def buddy (b : Block) : Block := (b.1 ^^^ 2 ^ b.2, b.2)

/-- **No two buddies below the order `top`.** -/
def Coalesced (top : ℕ) (B : Finset Block) : Prop := ∀ b ∈ B, b.2 < top → buddy b ∉ B

theorem mem_cells_blockAt {c' : ℕ} : c' ∈ cells (blockAt c o) ↔ c' / 2 ^ o = c / 2 ^ o := by
  have hpos : 0 < 2 ^ o := by positivity
  rw [mem_cells, blockAt, Nat.div_eq_iff hpos, Nat.mul_comm]
  dsimp only
  generalize c / 2 ^ o * 2 ^ o = q
  omega

theorem mem_blockAt (c o : ℕ) : c ∈ cells (blockAt c o) := mem_cells_blockAt.mpr rfl

/-- An aligned block is the block of its order over each of its cells. -/
theorem eq_blockAt (halign : 2 ^ b.2 ∣ b.1) (hc : c ∈ cells b) : b = blockAt c b.2 := by
  obtain ⟨q, hq⟩ := halign
  have hpos : 0 < 2 ^ b.2 := by positivity
  have hdiv : c / 2 ^ b.2 = q := by
    rw [Nat.div_eq_iff hpos]
    rw [mem_cells, hq] at hc
    rw [Nat.mul_comm]
    omega
  ext1
  · rw [blockAt, hdiv, hq]
  · rfl

/-- **The blocks over a cell are nested.** -/
theorem cells_blockAt_subset {p : ℕ} (h : o ≤ p) : cells (blockAt c o) ⊆ cells (blockAt c p) := by
  intro c' hc
  obtain ⟨d, rfl⟩ := Nat.exists_eq_add_of_le h
  rw [mem_cells_blockAt] at hc ⊢
  rw [pow_add, ← Nat.div_div_eq_div_mul, ← Nat.div_div_eq_div_mul, hc]

/-- Buddies agree above their order. -/
theorem xor_div {k : ℕ} (h : o < k) : (i ^^^ 2 ^ o) / 2 ^ k = i / 2 ^ k := by
  refine Nat.eq_of_testBit_eq fun j => ?_
  rw [Nat.testBit_div_two_pow, Nat.testBit_div_two_pow, Nat.testBit_xor, Nat.testBit_two_pow]
  simp [show o ≠ j + k by omega]

theorem dvd_buddy (h : 2 ^ b.2 ∣ b.1) : 2 ^ b.2 ∣ (buddy b).1 := by
  rcases buddy_cases h with ⟨-, hup⟩ | ⟨hdvd, -⟩
  · rw [buddy, hup]
    exact h.add dvd_rfl
  · exact (pow_dvd_pow 2 b.2.le_succ).trans hdvd

theorem buddy_ne (b : Block) : buddy b ≠ b := fun h => by
  have hzero : 2 ^ b.2 = 0 := by
    rw [← Nat.xor_right_inj (x := b.1), Nat.xor_zero]
    exact congrArg Prod.fst h
  exact (by positivity : 2 ^ b.2 ≠ 0) hzero

theorem buddy_buddy (b : Block) : buddy (buddy b) = b := by
  rw [buddy, buddy, Nat.xor_assoc, Nat.xor_self, Nat.xor_zero]

/-- The buddy of the left half of a block is the right half… -/
theorem buddy_left (h : 2 ^ (o + 1) ∣ i) : buddy (i, o) = (i + 2 ^ o, o) := by
  rcases buddy_cases ((pow_dvd_pow 2 o.le_succ).trans h) with ⟨-, hup⟩ | ⟨hdvd, hdown⟩
  · rw [buddy, hup]
  · have hhalf : 2 ^ (o + 1) ∣ 2 ^ o := (Nat.dvd_add_right hdvd).mp (hdown ▸ h)
    have hle := Nat.le_of_dvd (by positivity) hhalf
    exact absurd hle (not_le.mpr (Nat.pow_lt_pow_right (by norm_num) o.lt_succ_self))

/-- …and that of the right half the left half. -/
theorem buddy_right (h : 2 ^ (o + 1) ∣ i) : buddy (i + 2 ^ o, o) = (i, o) := by
  rw [← buddy_left h, buddy_buddy]

namespace Coalesced

variable {top : ℕ}

theorem subset (h : Coalesced top C) (hB : B ⊆ C) : Coalesced top B := fun b hb hlt hmem =>
  h b (hB hb) hlt (hB hmem)

/-- A block whose buddy is not there joins. -/
theorem insert (h : Coalesced top B) (hx : x.2 < top → buddy x ∉ B) :
    Coalesced top (insert x B) := by
  intro b hb hlt hmem
  rcases Finset.mem_insert.mp hb with rfl | hb
  · exact hx hlt (Finset.mem_of_mem_insert_of_ne hmem (buddy_ne b))
  · rcases Finset.mem_insert.mp hmem with heq | hmem
    · refine hx (heq ▸ hlt) ?_
      rw [← heq, buddy_buddy]
      exact hb
    · exact h b hb hlt hmem

/-- **No block of a coalesced tiling could be larger**: the smallest block in its parent would have
its buddy beside it. -/
theorem not_parent (h : Coalesced top B) (ht : Tiles n B) (hb : b ∈ B) (hlt : b.2 < top)
    (hc : c ∈ cells b) : ¬ cells (blockAt c (b.2 + 1)) ⊆ Finset.range n := by
  intro hsub
  obtain ⟨a, ha, hmin⟩ := Finset.exists_min_image
    (B.filter fun a => a.1 ∈ cells (blockAt c (b.2 + 1)) ∧ a.2 ≤ b.2) Prod.snd
    ⟨b, Finset.mem_filter.mpr ⟨hb, cells_blockAt_subset b.2.le_succ
      (eq_blockAt (ht.aligned b hb) hc ▸ start_mem b), le_rfl⟩⟩
  obtain ⟨haB, hap, hab⟩ := Finset.mem_filter.mp ha
  -- the cell where the buddy of `a` starts is in the parent, so some block `d` holds it
  have hup : ∀ k, a.2 < k → (buddy a).1 / 2 ^ k = a.1 / 2 ^ k := fun k hk => xor_div hk
  have hmem : (buddy a).1 ∈ cells (blockAt c (b.2 + 1)) := by
    rw [mem_cells_blockAt] at hap ⊢
    rw [hup _ (by omega), hap]
  obtain ⟨d, hd, hcd⟩ := ht.exists_mem (Finset.mem_range.mp (hsub hmem))
  have hdat := eq_blockAt (ht.aligned d hd) hcd
  have hle : a.2 ≤ d.2 := by
    by_contra hda
    have hdb : d.2 ≤ b.2 + 1 := by omega
    have hdp : d.1 ∈ cells (blockAt c (b.2 + 1)) := by
      have hd1 : d.1 ∈ cells (blockAt (buddy a).1 d.2) := hdat ▸ start_mem d
      have hd2 := cells_blockAt_subset hdb hd1
      rw [mem_cells_blockAt] at hmem hd2 ⊢
      rw [hd2, hmem]
    exact hda (hmin d (Finset.mem_filter.mpr ⟨hd, hdp, by omega⟩))
  rcases hle.lt_or_eq with hlt' | heq
  · -- a larger block over the buddy holds `a` too
    have had : a.1 ∈ cells d := by
      rw [hdat, mem_cells_blockAt, hup _ hlt']
    exact absurd (ht.unique haB hd (start_mem a) had) fun hda => hlt'.ne (congrArg Prod.snd hda)
  · -- a block of the same size is the buddy
    have hbuddy : buddy a = d := by
      have hself : (buddy a).1 ∈ cells (buddy a) := start_mem _
      rw [eq_blockAt (dvd_buddy (ht.aligned a haB)) hself, hdat, ← heq]
      rfl
    exact h a haB (hab.trans_lt hlt) (hbuddy ▸ hd)

/-- Of two blocks over one cell, the one of the coalesced tiling is no smaller: its parent would fit
into the other. -/
theorem le_of_mem {d : Block} (hB : Coalesced top B) (htB : Tiles n B) (htC : Tiles n C)
    (hoC : ∀ b ∈ C, b.2 ≤ top) (hb : b ∈ B) (hd : d ∈ C) (hcb : c ∈ cells b) (hcd : c ∈ cells d) :
    d.2 ≤ b.2 := by
  by_contra hlt
  refine hB.not_parent htB hb ((not_le.mp hlt).trans_le (hoC d hd)) hcb fun c' hc' => ?_
  refine Finset.mem_range.mpr (htC.lt hd ?_)
  rw [eq_blockAt (htC.aligned d hd) hcd]
  exact cells_blockAt_subset (not_le.mp hlt) hc'

/-- **There is one coalesced tiling** of a range by blocks of bounded order. -/
theorem eq (hB : Coalesced top B) (hC : Coalesced top C) (htB : Tiles n B) (htC : Tiles n C)
    (hoB : ∀ b ∈ B, b.2 ≤ top) (hoC : ∀ b ∈ C, b.2 ≤ top) : B = C := by
  have hsub : ∀ {B C : Finset Block}, Coalesced top B → Coalesced top C → Tiles n B → Tiles n C →
      (∀ b ∈ B, b.2 ≤ top) → (∀ b ∈ C, b.2 ≤ top) → B ⊆ C := by
    intro B C hB hC htB htC hoB hoC b hb
    obtain ⟨d, hd, hbd⟩ := htC.exists_mem (htB.lt hb (start_mem b))
    have horder : b.2 = d.2 := (hC.le_of_mem htC htB hoB hd hb hbd (start_mem b)).antisymm
      (hB.le_of_mem htB htC hoC hb hd (start_mem b) hbd)
    rw [eq_blockAt (htB.aligned b hb) (start_mem b), horder, ← eq_blockAt (htC.aligned d hd) hbd]
    exact hd
  exact (hsub hB hC htB htC hoB hoC).antisymm (hsub hC hB htC htB hoC hoB)

end Coalesced

end Dyadic
