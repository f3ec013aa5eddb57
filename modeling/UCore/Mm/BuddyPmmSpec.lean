import UCore.Machinery.Dyadic
import UCore.Mm.BuddyPmm

/-!
# Mm/BuddyPmmSpec — the blocks behind the buddy manager's lists

    F o ∋ i   ⟺   the block (i, o) is free

`Layout` reads the sixteen lists as a set `free` of aligned blocks which, with the blocks `rest` that
are on no list, tiles the range.  A block moves off its list (`takeOff`) or onto it (`putOn`), splits
and joins; every loop of the manager is a sequence of these four moves.
-/

namespace UCore.BuddyPmm

open Dyadic (Block Tiles cells)

/-- The heads of the blocks on each list, as list entries. -/
def entries (base : ℕ) (F : ℕ → List ℕ) (o : ℕ) : List (ListEntry ℕ) :=
  (F o).map fun i => .pageLink (base + i)

/-- **The blocks of the range**: `free` are the blocks on the lists `F`, `rest` those on none, and
together they tile the first `m` of the `n` managed pages. -/
structure Layout (base n m : ℕ) (s : BuddyArea) (F : ℕ → List ℕ) (free rest : Finset Block) :
    Prop where
  base_eq : s.base = some base
  npages_eq : s.npages = n
  le : m ≤ n
  rings : s.lists.links.Rings (Set.Iic BUDDY_MAX_ORDER) FL (entries base F)
  mem : ∀ o i, i ∈ F o ↔ (i, o) ∈ free
  order_le : ∀ b ∈ free ∪ rest, b.2 ≤ BUDDY_MAX_ORDER
  apart : Disjoint free rest
  tiles : Tiles m (free ∪ rest)
  property : ∀ b ∈ free, s.lists.property (base + b.1) = 2 ^ b.2
  heads : ∀ i < n, s.lists.pageProperty (base + i) = true ↔ ∃ o, (i, o) ∈ free

/-- What a call leaves alone: the count, the reservations, and the sizes recorded in `rest`. -/
structure SameRest (base : ℕ) (rest : Finset Block) (s s' : BuddyArea) : Prop where
  nrFree : s'.nrFree = s.nrFree
  property : ∀ b ∈ rest, s'.lists.property (base + b.1) = s.lists.property (base + b.1)
  reserved : s'.lists.pageReserved = s.lists.pageReserved

theorem SameRest.refl {base : ℕ} {rest : Finset Block} {s : BuddyArea} : SameRest base rest s s :=
  ⟨rfl, fun _ _ => rfl, rfl⟩

theorem SameRest.trans {base : ℕ} {rest : Finset Block} {s s' s'' : BuddyArea}
    (h : SameRest base rest s s') (h' : SameRest base rest s' s'') : SameRest base rest s s'' :=
  ⟨h'.nrFree.trans h.nrFree, fun b hb => (h'.property b hb).trans (h.property b hb),
    h'.reserved.trans h.reserved⟩

namespace Layout

variable {base n m i j o : ℕ} {s : BuddyArea} {F : ℕ → List ℕ} {free rest : Finset Block}
  {a b x : Block}

private theorem entries_update (base : ℕ) (F : ℕ → List ℕ) (o : ℕ) (xs : List ℕ) :
    entries base (Function.update F o xs) =
      Function.update (entries base F) o (xs.map fun i => .pageLink (base + i)) := by
  funext o'
  rcases eq_or_ne o' o with rfl | ho
  · simp [entries]
  · simp [entries, ho]

/-- A free block and a block on no list start at different pages. -/
theorem start_ne (h : Layout base n m s F free rest) (ha : a ∈ free) (hb : b ∈ rest) :
    a.1 ≠ b.1 := by
  intro heq
  have hab := h.tiles.eq_of_start (Finset.mem_union_left _ ha) (Finset.mem_union_right _ hb) heq
  exact Finset.disjoint_left.mp h.apart ha (hab ▸ hb)

/-- …as do two blocks on no list. -/
theorem rest_start_ne (h : Layout base n m s F free (insert x rest)) (hx : x ∉ rest)
    (hb : b ∈ rest) : b.1 ≠ x.1 := by
  intro heq
  have hbx := h.tiles.eq_of_start (Finset.mem_union_right _ (Finset.mem_insert_of_mem hb))
    (Finset.mem_union_right _ (Finset.mem_insert_self x rest)) heq
  exact hx (hbx ▸ hb)

/-- A layout reads the links, the sizes of the free blocks and the head bits only. -/
theorem congr {t : BuddyArea} (h : Layout base n m s F free rest) (hbase : t.base = s.base)
    (hnp : t.npages = s.npages) (hl : t.lists.links = s.lists.links)
    (hprop : ∀ b ∈ free, t.lists.property (base + b.1) = s.lists.property (base + b.1))
    (hhead : ∀ i < n, t.lists.pageProperty (base + i) = s.lists.pageProperty (base + i)) :
    Layout base n m t F free rest :=
  ⟨hbase.trans h.base_eq, hnp.trans h.npages_eq, h.le, hl ▸ h.rings, h.mem, h.order_le, h.apart,
    h.tiles, fun b hb => (hprop b hb).trans (h.property b hb),
    fun i hi => by rw [hhead i hi, h.heads i hi]⟩

/-- **A block comes off its list.** -/
theorem takeOff {t : BuddyArea} (h : Layout base n m s F free rest) (hfree : (i, o) ∈ free)
    (hbase : t.base = s.base) (hnp : t.npages = s.npages)
    (hl : t.lists.links = listDel s.lists.links (.pageLink (base + i)))
    (hprop : ∀ p, p ≠ base + i → t.lists.property p = s.lists.property p)
    (hhead : ∀ p, t.lists.pageProperty p = if p = base + i then false else s.lists.pageProperty p) :
    ∃ F', Layout base n m t F' (free.erase (i, o)) (insert (i, o) rest) := by
  have hio : (i, o) ∈ free ∪ rest := Finset.mem_union_left _ hfree
  have hall : free.erase (i, o) ∪ insert (i, o) rest = free ∪ rest := by
    ext b
    by_cases hb : b = (i, o) <;> simp [hb, hfree]
  have hstart : ∀ b ∈ free.erase (i, o), b.1 ≠ i := fun b hb heq =>
    (Finset.mem_erase.mp hb).1
      (h.tiles.eq_of_start (Finset.mem_union_left _ (Finset.mem_erase.mp hb).2) hio heq)
  obtain ⟨as, bs, hF⟩ := List.append_of_mem ((h.mem o i).mpr hfree)
  have hnd : i ∉ as ++ bs := by
    have hring := (h.rings.ring o (h.order_le _ hio)).nodup_entries
    rw [entries, hF] at hring
    exact (List.nodup_middle.mp (List.Nodup.of_map _ hring)).notMem
  refine ⟨Function.update F o (as ++ bs), hbase.trans h.base_eq, hnp.trans h.npages_eq, h.le, ?_,
    fun o' i' => ?_, hall ▸ h.order_le, ?_, hall ▸ h.tiles, fun b hb => ?_, fun i' hi' => ?_⟩
  · rw [entries_update, hl, List.map_append]
    exact rings_listDel h.rings (h.order_le _ hio) (by simp [entries, hF])
  · rw [Finset.mem_erase, ← h.mem o' i', Ne, Prod.mk.injEq]
    rcases eq_or_ne o' o with rfl | ho
    · rw [Function.update_self, hF]
      have hne : i' ∈ as ++ bs → i' ≠ i := fun hmem heq => hnd (heq ▸ hmem)
      simp only [List.mem_append, List.mem_cons, and_true] at hne ⊢
      tauto
    · rw [Function.update_of_ne ho]
      tauto
  · rw [Finset.disjoint_insert_right]
    exact ⟨Finset.notMem_erase _ _, h.apart.mono_left (Finset.erase_subset _ _)⟩
  · rw [hprop _ fun heq => hstart b hb (by omega)]
    exact h.property b (Finset.mem_of_mem_erase hb)
  · rw [hhead]
    rcases eq_or_ne i' i with rfl | hi
    · simp only [if_true, Bool.false_eq_true, false_iff, not_exists]
      exact fun o' hmem => hstart _ hmem rfl
    · rw [if_neg (by omega), h.heads i' hi']
      simp [hi]

/-- **A block goes on the list of its order.** -/
theorem putOn {t : BuddyArea} (h : Layout base n m s F free (insert (i, o) rest)) (hx : (i, o) ∉ rest)
    (hbase : t.base = s.base) (hnp : t.npages = s.npages)
    (hl : t.lists.links = listAdd s.lists.links (FL o) (.pageLink (base + i)))
    (hprop : ∀ p, t.lists.property p = if p = base + i then 2 ^ o else s.lists.property p)
    (hhead : ∀ p, t.lists.pageProperty p = if p = base + i then true else s.lists.pageProperty p) :
    Layout base n m t (Function.update F o (i :: F o)) (insert (i, o) free) rest := by
  have hio : (i, o) ∈ free ∪ insert (i, o) rest := Finset.mem_union_right _ (by simp)
  have hall : insert (i, o) free ∪ rest = free ∪ insert (i, o) rest := by
    ext b
    by_cases hb : b = (i, o) <;> simp [hb]
  have hstart : ∀ b ∈ free, b.1 ≠ i := fun b hb => h.start_ne hb (Finset.mem_insert_self _ rest)
  refine ⟨hbase.trans h.base_eq, hnp.trans h.npages_eq, h.le, ?_, fun o' i' => ?_,
    hall ▸ h.order_le, ?_, hall ▸ h.tiles, fun b hb => ?_, fun i' hi' => ?_⟩
  · rw [entries_update, hl]
    refine rings_listAdd h.rings (h.order_le _ hio) fun o' _ hmem => ?_
    obtain ⟨i', hi', heq⟩ : ∃ i' ∈ F o', (ListEntry.pageLink (base + i') : ListEntry ℕ) =
        .pageLink (base + i) := by simpa [entries] using hmem
    exact hstart (i', o') ((h.mem o' i').mp hi') (by simpa using ListEntry.pageLink.inj heq)
  · rw [Finset.mem_insert, ← h.mem o' i', Prod.mk.injEq]
    rcases eq_or_ne o' o with rfl | ho
    · simp
    · simp [ho]
  · rw [Finset.disjoint_insert_left]
    exact ⟨hx, h.apart.mono_right (Finset.subset_insert _ _)⟩
  · rw [hprop]
    rcases Finset.mem_insert.mp hb with rfl | hb
    · simp
    · rw [if_neg (by simpa using hstart b hb)]
      exact h.property b hb
  · rw [hhead]
    rcases eq_or_ne i' i with rfl | hi
    · simp
    · rw [if_neg (by omega), h.heads i' hi']
      simp [hi]

/-- **A block on no list splits** into its halves. -/
theorem split (h : Layout base n m s F free (insert (i, o + 1) rest)) (hx : (i, o + 1) ∉ rest) :
    (i, o) ∉ rest ∧ (i + 2 ^ o, o) ∉ insert (i, o) rest ∧
      Layout base n m s F free (insert (i + 2 ^ o, o) (insert (i, o) rest)) := by
  have hxf : (i, o + 1) ∉ free ∪ rest := by
    rw [Finset.mem_union, not_or]
    exact ⟨fun hf => Finset.disjoint_left.mp h.apart hf (Finset.mem_insert_self _ _), hx⟩
  have htiles := h.tiles
  rw [Finset.union_insert] at htiles
  obtain ⟨hl, hr, ht⟩ := htiles.split hxf
  have hle : o + 1 ≤ BUDDY_MAX_ORDER :=
    h.order_le (i, o + 1) (Finset.mem_union_right _ (Finset.mem_insert_self _ _))
  have hall : free ∪ insert (i + 2 ^ o, o) (insert (i, o) rest) =
      insert (i, o) (insert (i + 2 ^ o, o) (free ∪ rest)) := by
    rw [Finset.union_insert, Finset.union_insert, Finset.insert_comm]
  have hne : (i + 2 ^ o, o) ≠ (i, o) := by simp
  simp only [Finset.mem_insert, Finset.mem_union, not_or] at hl hr
  refine ⟨hl.2.2, ?_, h.base_eq, h.npages_eq, h.le, h.rings, h.mem, ?_, ?_, hall ▸ ht, h.property,
    h.heads⟩
  · rw [Finset.mem_insert, not_or]
    exact ⟨hne, hr.2⟩
  · intro b hb
    rw [hall, Finset.mem_insert, Finset.mem_insert] at hb
    rcases hb with rfl | rfl | hb
    · exact Nat.le_of_succ_le hle
    · exact Nat.le_of_succ_le hle
    · exact h.order_le b (Finset.union_subset_union_right (Finset.subset_insert _ _) hb)
  · rw [Finset.disjoint_insert_right, Finset.disjoint_insert_right]
    exact ⟨hr.1, hl.2.1, h.apart.mono_right (Finset.subset_insert _ _)⟩

/-- **Two buddies on no list join.** -/
theorem join (h : Layout base n m s F free (insert (i, o) (insert (i + 2 ^ o, o) rest)))
    (hl : (i, o) ∉ rest) (hr : (i + 2 ^ o, o) ∉ rest) (halign : 2 ^ (o + 1) ∣ i)
    (ho : o < BUDDY_MAX_ORDER) :
    (i, o + 1) ∉ rest ∧ Layout base n m s F free (insert (i, o + 1) rest) := by
  have hap := h.apart
  rw [Finset.disjoint_insert_right, Finset.disjoint_insert_right] at hap
  have htiles := h.tiles
  rw [Finset.union_insert, Finset.union_insert] at htiles
  have hr' : (i + 2 ^ o, o) ∉ free ∪ rest := by
    rw [Finset.mem_union, not_or]
    exact ⟨hap.2.1, hr⟩
  have hl' : (i, o) ∉ insert (i + 2 ^ o, o) (free ∪ rest) := by
    simp only [Finset.mem_insert, Finset.mem_union, not_or]
    exact ⟨by simp, hap.1, hl⟩
  obtain ⟨hx, ht⟩ := htiles.join hl' hr' halign
  have hall : free ∪ insert (i, o + 1) rest = insert (i, o + 1) (free ∪ rest) :=
    Finset.union_insert _ _ _
  rw [Finset.mem_union, not_or] at hx
  refine ⟨hx.2, h.base_eq, h.npages_eq, h.le, h.rings, h.mem, ?_, ?_, hall ▸ ht, h.property,
    h.heads⟩
  · intro b hb
    rw [hall, Finset.mem_insert] at hb
    rcases hb with rfl | hb
    · exact ho
    · refine h.order_le b (Finset.union_subset_union_right ?_ hb)
      exact (Finset.subset_insert _ _).trans (Finset.subset_insert _ _)
  · rw [Finset.disjoint_insert_right]
    exact ⟨hx.1, hap.2.2⟩

/-- A block right after the tiled part, on no list. -/
theorem append (h : Layout base n m s F free rest) (halign : 2 ^ o ∣ m) (hle : m + 2 ^ o ≤ n)
    (ho : o ≤ BUDDY_MAX_ORDER) :
    (m, o) ∉ rest ∧ Layout base n (m + 2 ^ o) s F free (insert (m, o) rest) := by
  obtain ⟨hx, ht⟩ := h.tiles.append halign
  rw [Finset.mem_union, not_or] at hx
  have hall : free ∪ insert (m, o) rest = insert (m, o) (free ∪ rest) := Finset.union_insert _ _ _
  refine ⟨hx.2, h.base_eq, h.npages_eq, hle, h.rings, h.mem, ?_, ?_, hall ▸ ht, h.property,
    h.heads⟩
  · intro b hb
    rw [hall, Finset.mem_insert] at hb
    rcases hb with rfl | hb
    · exact ho
    · exact h.order_le b hb
  · rw [Finset.disjoint_insert_right]
    exact ⟨hx.1, h.apart⟩

end Layout

end UCore.BuddyPmm
