import UCore.Mm.BuddyPmmSpec

/-!
# Mm/BuddyPmmLoops — the loops of the buddy manager as moves of blocks

Merging takes the buddy off its list and joins it to the block, as long as there is one; splitting
halves a block and puts the right half on its list.  Each turn keeps the layout, and nothing else
moves (`SameRest`).
-/

namespace UCore.BuddyPmm

open Dyadic (Block Tiles Coalesced buddy cells)

variable {base n m i j o fuel : ℕ} {s s' : BuddyArea} {F : ℕ → List ℕ} {free rest : Finset Block}

@[simp] theorem wp_store {Q : Unit → BuddyArea → Prop} {E : Stop → Prop}
    (f : PageLists ℕ → PageLists ℕ) :
    Act.wp (store f) Q E s ↔ Q () { s with lists := f s.lists } := Iff.rfl

@[simp] theorem wp_setNrFree {Q : Unit → BuddyArea → Prop} {E : Stop → Prop} (f : ℕ → ℕ) :
    Act.wp (setNrFree f) Q E s ↔ Q () { s with nrFree := u64 (f s.nrFree) } := Iff.rfl

theorem u32_size (ho : o ≤ BUDDY_MAX_ORDER) : u32 (2 ^ o) = 2 ^ o :=
  u32_of_lt ((Nat.pow_le_pow_right (by norm_num) ho).trans_lt (by norm_num))

/-- The index of a managed page. -/
theorem pageIndex_eq (hb : s.base = some base) (hi : i < 2 ^ 64) : pageIndex s (base + i) = i := by
  have hdiff : ((base + i : ℕ) : ℤ) - (base : ℕ) = (i : ℤ) := by push_cast; ring
  rw [pageIndex, toU64, hb, Option.getD_some, hdiff, Int.emod_eq_of_lt (by positivity) (by omega)]
  simp

/-! ## The search -/

theorem Layout.nodup (h : Layout base n m s F free rest) (ho : o ≤ BUDDY_MAX_ORDER) :
    (F o).Nodup := List.Nodup.of_map _ (h.rings.ring o ho).nodup_entries

/-- A list is no longer than the managed range. -/
theorem Layout.length_le (h : Layout base n m s F free rest) (ho : o ≤ BUDDY_MAX_ORDER) :
    (F o).length ≤ n := by
  rw [← List.toFinset_card_of_nodup (h.nodup ho), ← Finset.card_range n]
  refine Finset.card_le_card fun i hi => Finset.mem_range.mpr ?_
  have hmem := (h.mem o i).mp (List.mem_toFinset.mp hi)
  exact (h.tiles.lt (Finset.mem_union_left _ hmem) (Dyadic.start_mem (i, o))).trans_le h.le

theorem wp_findInOrderList (h : Layout base n m s F free rest) (ho : o ≤ BUDDY_MAX_ORDER) :
    Act.wp (findInOrderList fuel o (base + j))
      (fun r s' => s' = s ∧ r = if (j, o) ∈ free then some (.pageLink (base + j)) else none)
      (fun e => e = .spin ∧ fuel ≤ n) s := by
  refine Act.wp_mono (wp_findPage (h.rings.ring o ho) rfl (fun p => decide (p = base + j))
    (fun p => some (.pageLink p)) none (fun le => ?_) fun hf => ⟨rfl, hf.trans (h.length_le ho)⟩)
    (fun r s' hr => ⟨hr.1, hr.2.trans ?_⟩) (fun _ => id)
  · simp only [Act.wp_bind, Act.wp_get]
    cases hle : listNext s.lists.links le with
    | head i => exact ⟨rfl, rfl⟩
    | pageLink p =>
      simp only [Act.wp_ite, Act.wp_pure, decide_eq_true_eq]
      exact ⟨fun hp => ⟨trivial, by rw [if_pos hp]⟩, fun hp => ⟨trivial, by rw [if_neg hp]⟩⟩
  · simp only [← h.mem o j, Function.comp_def, Nat.add_left_cancel_iff]
    cases hf : (F o).find? fun i => decide (i = j) with
    | none =>
      have hnot : j ∉ F o := fun hj => by simpa using List.find?_eq_none.mp hf j hj
      rw [if_neg hnot, Option.elim_none]
    | some i =>
      obtain rfl : i = j := by simpa using List.find?_some hf
      rw [if_pos (List.mem_of_find?_eq_some hf), Option.elim_some]

/-! ## Merging -/

/-- **One turn of the merge loop**: with the buddy free, the block becomes the block of the next
order that holds both; the loop ends at a block whose buddy is not free. -/
theorem wp_mergeStep (h : Layout base n m s F free (insert (i, o) rest)) (hx : (i, o) ∉ rest)
    (hn : n < 2 ^ 64) (ho : o < BUDDY_MAX_ORDER) :
    Act.wp (mergeStep fuel (base + i) o (2 ^ o))
      (fun r s' => SameRest base rest s s' ∧ ((r = none ∧ s' = s ∧ buddy (i, o) ∉ free) ∨
        ∃ j F' free', r = some (base + j) ∧ (j, o + 1) ∉ rest ∧ free' ⊆ free ∧
          Layout base n m s' F' free' (insert (j, o + 1) rest)))
      (fun e => e = .spin ∧ fuel ≤ n) s := by
  have hio : (i, o) ∈ free ∪ insert (i, o) rest := Finset.mem_union_right _ (by simp)
  have hin : i < n := (h.tiles.lt hio (Dyadic.start_mem (i, o))).trans_le h.le
  obtain ⟨j, hj⟩ : ∃ j, j = i ^^^ 2 ^ o := ⟨_, rfl⟩
  simp only [mergeStep, Act.wp_bind, Act.wp_get, pageIndex_eq h.base_eq (hin.trans hn), ← hj,
    Act.wp_ite, Act.wp_pure, h.base_eq, Option.getD_some]
  refine ⟨fun hle => ⟨.refl, .inl ⟨trivial, trivial, fun hmem => ?_⟩⟩, fun _ => ?_⟩
  · have hjn := h.tiles.lt (Finset.mem_union_left _ hmem) (Dyadic.start_mem _)
    rw [buddy, ← hj] at hjn
    exact absurd (hjn.trans_le h.le) (not_lt.mpr (h.npages_eq ▸ hle))
  refine Act.wp_mono (wp_findInOrderList h ho.le) ?_ (fun _ => id)
  rintro r s' ⟨rfl, rfl⟩
  by_cases hfree : (j, o) ∈ free
  swap
  · rw [if_neg hfree]
    exact ⟨.refl, .inl ⟨rfl, rfl, by rwa [buddy, ← hj]⟩⟩
  have hap : (j, o) ∉ insert (i, o) rest := Finset.disjoint_left.mp h.apart hfree
  rw [Finset.mem_insert, not_or] at hap
  have hpos : 0 < 2 ^ o := by positivity
  have hji : j ≠ i := h.start_ne hfree (Finset.mem_insert_self _ _)
  have hrest : ∀ b ∈ rest, b.1 ≠ j ∧ b.1 ≠ i := fun b hb =>
    ⟨(h.start_ne hfree (Finset.mem_insert_of_mem hb)).symm, h.rest_start_ne hx hb⟩
  have hclear : s'.lists.pageProperty (base + i) = false := by
    rw [← Bool.not_eq_true, h.heads i hin, not_exists]
    exact fun o' hmem => h.start_ne hmem (Finset.mem_insert_self _ _) rfl
  simp only [if_pos hfree, Act.wp_bind, wp_store, Act.wp_ite, Act.wp_pure, Option.some.injEq,
    reduceCtorEq, false_and, false_or]
  -- the buddy is off its list; `s₁` is the state before the block's own stores
  generalize hs₁ : ({ s' with lists :=
    (((s'.lists.mapLinks (listDel · (.pageLink (base + j)))).setPageProperty (base + j)
      false).setProperty (base + j) 0) } : BuddyArea) = s₁
  obtain ⟨F', h₁⟩ := h.takeOff (t := s₁) hfree (hs₁ ▸ rfl) (hs₁ ▸ rfl) (hs₁ ▸ rfl)
    (fun p hp => by simp [← hs₁, PageLists.property_setProperty, hp])
    (fun p => by simp [← hs₁, PageLists.pageProperty_setPageProperty])
  have hsame : SameRest base rest s' s₁ := by
    refine ⟨hs₁ ▸ rfl, fun b hb => ?_, funext fun q => by simp [← hs₁]⟩
    simp [← hs₁, PageLists.property_setProperty, (hrest b hb).1]
  rcases Dyadic.buddy_cases (h.tiles.aligned _ hio) with ⟨halign, hup⟩ | ⟨halign, hdown⟩
  · obtain rfl : j = i + 2 ^ o := hj.trans hup
    rw [Finset.insert_comm] at h₁
    have h₂ := h₁.join hx hap.2 halign ho
    exact ⟨fun hlt => absurd hlt (by omega), fun _ => ⟨hsame, i, F', _, rfl, h₂.1,
      Finset.erase_subset _ _, h₂.2⟩⟩
  · rw [← hj] at halign hdown
    obtain rfl : i = j + 2 ^ o := hdown
    obtain ⟨hnot, h₂⟩ := h₁.join hap.2 hx halign ho
    have hclear₁ : s₁.lists.pageProperty (base + (j + 2 ^ o)) = false := by
      simp [← hs₁, PageLists.pageProperty_setPageProperty, hclear]
    subst hs₁
    refine ⟨fun _ => ⟨hsame.trans ⟨rfl, fun b hb => ?_, funext fun q => by simp⟩, j, F', _, rfl,
      hnot, Finset.erase_subset _ _, h₂.congr rfl rfl rfl (fun b hb => ?_) fun q _ => ?_⟩, fun hlt => absurd hlt (by omega)⟩
    · simp [PageLists.property_setProperty, hrest b hb]
    · have hbi := h.start_ne (Finset.mem_of_mem_erase hb) (Finset.mem_insert_self _ _)
      simp [PageLists.property_setProperty, hbi]
    · rw [PageLists.pageProperty_setProperty, PageLists.pageProperty_setPageProperty]
      split
      · next heq => rw [heq, hclear₁]
      · rfl

/-- **Giving a block back** merges it as far as it goes and puts the result on a list, which leaves
no two buddies. -/
theorem wp_insertAndMerge (h : Layout base n m s F free (insert (i, o) rest)) (hx : (i, o) ∉ rest)
    (hn : n < 2 ^ 64) :
    Act.wp (insertAndMerge fuel (base + i) o)
      (fun _ s' => ∃ F' free', Layout base n m s' F' free' rest ∧ SameRest base rest s s' ∧
        (Coalesced BUDDY_MAX_ORDER free → Coalesced BUDDY_MAX_ORDER free'))
      (fun e => e = .spin ∧ fuel ≤ n + BUDDY_MAX_ORDER) s := by
  have hle : ∀ {i o s F free}, Layout base n m s F free (insert (i, o) rest) →
      o ≤ BUDDY_MAX_ORDER := fun {i o _ _ _} h => h.order_le (i, o) (Finset.mem_union_right _ (by simp))
  rw [insertAndMerge, Act.wp_bind]
  refine Act.wp_mono (Q := fun r s' => ∃ i F' free', r.1 = base + i ∧ (i, r.2) ∉ rest ∧
    Layout base n m s' F' free' (insert (i, r.2) rest) ∧ SameRest base rest s s' ∧ free' ⊆ free ∧
    (r.2 < BUDDY_MAX_ORDER → buddy (i, r.2) ∉ free')) ?_ ?_ (fun _ => id)
  · refine Act.wp_loop (fun k b s' => ∃ i F' free', b = (base + i, b.2.1, 2 ^ b.2.1) ∧
      k = BUDDY_MAX_ORDER - b.2.1 ∧ (i, b.2.1) ∉ rest ∧
      Layout base n m s' F' free' (insert (i, b.2.1) rest) ∧ SameRest base rest s s' ∧
      free' ⊆ free) ?_ fuel (BUDDY_MAX_ORDER - o) _ s ⟨i, F, free, rfl, rfl, hx, h, .refl, subset_rfl⟩
      (fun hf => ⟨rfl, by omega⟩)
    rintro k ⟨block, order, size⟩ s' ⟨i, F', free', heq, rfl, hx, h, hsame, hsub⟩
    obtain ⟨rfl, -, rfl⟩ : block = base + i ∧ order = order ∧ size = 2 ^ order := by simpa using heq
    simp only at hx h ⊢
    rw [Act.wp_ite]
    refine ⟨fun ho => ?_, fun ho => ⟨i, F', free', rfl, hx, h, hsame, hsub, fun h' => absurd h' ho⟩⟩
    rw [Act.wp_bind]
    refine Act.wp_mono (wp_mergeStep h hx hn ho) ?_ fun e he => ⟨he.1, by omega⟩
    rintro r s'' ⟨hs, ⟨rfl, rfl, hno⟩ | ⟨j, F'', free'', rfl, hx', hsub', h'⟩⟩
    · exact ⟨i, F', free', rfl, hx, h, hsame, hsub, fun _ => hno⟩
    · exact ⟨BUDDY_MAX_ORDER - (order + 1), by omega, j, F'', free'', by simp [pow_succ], rfl, hx',
        h', hsame.trans hs, hsub'.trans hsub⟩
  · rintro ⟨block, order⟩ s' ⟨i, F', free', rfl, hx, h, hsame, hsub, hno⟩
    simp only at hx h
    simp only [Act.wp_bind, wp_store]
    refine ⟨_, _, h.putOn hx rfl rfl rfl (fun p => ?_) (fun p => ?_),
      hsame.trans ⟨rfl, fun b hb => ?_, ?_⟩, fun hc => (hc.subset hsub).insert hno⟩
    · simp [PageLists.property_setProperty, order2size, u32_size (hle h)]
    · simp [PageLists.pageProperty_setPageProperty]
    · simp [PageLists.property_setProperty, h.rest_start_ne hx hb]
    · funext q; simp

/-! ## Splitting -/

/-- **Halving a block** `d` times, each right half going on its list. -/
theorem wp_splitDown {need : ℕ} (d : ℕ) (h : Layout base n m s F free (insert (i, need + d) rest))
    (hx : (i, need + d) ∉ rest) :
    Act.wp (splitDown (base + i) need d (2 ^ (need + d)))
      (fun _ s' => (i, need) ∉ rest ∧ SameRest base rest s s' ∧
        ∃ F' free', Layout base n m s' F' free' (insert (i, need) rest) ∧
          (Coalesced BUDDY_MAX_ORDER free → Coalesced BUDDY_MAX_ORDER free'))
      (fun _ => False) s := by
  induction d generalizing s F free with
  | zero => exact ⟨hx, .refl, F, free, h, id⟩
  | succ d ih =>
    have hle : need + d + 1 ≤ BUDDY_MAX_ORDER :=
      h.order_le (i, need + (d + 1)) (Finset.mem_union_right _ (by simp))
    obtain ⟨hl, hr, h₁⟩ := h.split (o := need + d) hx
    have hhalf : 2 ^ (need + (d + 1)) / 2 = 2 ^ (need + d) := by
      rw [← Nat.add_assoc, pow_succ, Nat.mul_div_cancel _ (by norm_num)]
    simp only [splitDown, hhalf, Act.wp_bind, wp_store]
    have h₂ := h₁.putOn hr (t := { s with lists :=
      (((s.lists.setProperty (base + i + 2 ^ (need + d)) (2 ^ (need + d))).setPageProperty
        (base + i + 2 ^ (need + d)) true).mapLinks
          (listAdd · (FL (need + d)) (.pageLink (base + i + 2 ^ (need + d))))) }) rfl rfl
      (by rw [Nat.add_assoc]; rfl)
      (fun p => by simp [PageLists.property_setProperty, Nat.add_assoc, u32_size (Nat.le_of_succ_le hle)])
      (fun p => by simp [PageLists.pageProperty_setPageProperty, Nat.add_assoc])
    refine Act.wp_mono (ih h₂ hl) ?_ (fun _ => id)
    rintro - s' ⟨hnot, hsame, F', free', hlay, hcoal⟩
    refine ⟨hnot, ⟨hsame.nrFree, fun b hb => (hsame.property b hb).trans ?_,
      hsame.reserved.trans (funext fun q => by simp)⟩, F', free', hlay, fun hc => hcoal (hc.insert ?_)⟩
    · have hne := h₁.rest_start_ne hr (Finset.mem_insert_of_mem hb)
      simp [PageLists.property_setProperty, Nat.add_assoc, hne]
    · -- the buddy of the right half is the left half, which is on no list
      intro _ hmem
      have hhalfs : buddy (i + 2 ^ (need + d), need + d) = (i, need + d) :=
        Dyadic.buddy_right (h.tiles.aligned (i, need + (d + 1))
          (Finset.mem_union_right _ (Finset.mem_insert_self _ rest)))
      exact h₁.start_ne (hhalfs ▸ hmem)
        (Finset.mem_insert_of_mem (Finset.mem_insert_self (i, need + d) rest)) rfl

end UCore.BuddyPmm
