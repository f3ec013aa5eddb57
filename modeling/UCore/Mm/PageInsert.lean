import UCore.Mm.PageTableSpec

/-!
# Mm/PageInsert — mapping a new page

    pathOf la = [PDX1, PDX0] ++ [PTX]      the table at the first two, the page at the end

`page_insert` and `pgdir_alloc_page`, for an address that maps to nothing yet and a page that no table
names.  One address more is mapped; the others, and the pages that were there, are as they were.
-/

namespace UCore.Paging

open Vmm Radix

variable {pmm : Pmm} {s s' s'' : Phys} {pgdir la la' p pt perm g : ℕ}

/-- **A page more**: `la` maps to `p`. -/
structure Inserted (pmm : Pmm) (pgdir la p perm : ℕ) (s s' : Phys) : Prop where
  tree : UserTree pmm s' pgdir
  used : s.used ⊆ s'.used
  mapping_self : mapping s' pgdir la = some (p, (PTE_V ||| (PTE_V ||| perm)) &&& PTE_USER)
  mapping_ne : ∀ la', la' < LOWTOP → pathOf la' ≠ pathOf la →
    mapping s' pgdir la' = mapping s pgdir la'
  reach : ∀ q g, UserPath q → walk (tableNext s') pgdir q = some g →
    walk (tableNext s) pgdir q = some g ∨ g ∉ s.used ∨ q = pathOf la ∧ g = p
  page : ∀ g ∈ s.used, ¬ IsTable s pgdir g → s'.page g = s.page g
  ref : ∀ g ∈ s.used, g ≠ p → s'.ref g = s.ref g
  refSelf : s'.ref p = s.ref p + 1
  starved : s'.starved = s.starved

/-- The memory with the entry of `la` made. -/
def filled (s : Phys) (pt la p perm : ℕ) : Phys :=
  { s with
    page := Function.update s.page pt
      (Bytes.putWord (s.page pt) 8 (8 * ptx la) (pteCreate p (PTE_V ||| perm))) }

section Filled

variable (hp : p < 2 ^ 44) (hperm : perm < 1024)

include hp hperm in
theorem pteOf_filled {j : ℕ} : pteOf (filled s pt la p perm) g j =
    if g = pt ∧ j = ptx la then pteCreate p (PTE_V ||| perm) else pteOf s g j := by
  have hbits : PTE_V ||| perm < 2 ^ 10 := Nat.or_lt_two_pow (by norm_num) hperm
  exact pteOf_put (pteCreate_lt hp hbits) rfl

include hp hperm in
theorem pteOf_filled_self : pteOf (filled s pt la p perm) pt (ptx la) = pteCreate p (PTE_V ||| perm) := by
  rw [pteOf_filled hp hperm, if_pos ⟨rfl, rfl⟩]

include hp hperm in
theorem next_filled {j : ℕ} : tableNext (filled s pt la p perm) g j =
    if g = pt ∧ j = ptx la then some p else tableNext s g j := by
  have hbits : PTE_V ||| perm < 2 ^ 10 := Nat.or_lt_two_pow (by norm_num) hperm
  rw [tableNext, pteOf_filled hp hperm]
  split
  · rw [if_pos (valid_pteCreate hp hbits), pageOf_pteCreate hp hbits]
  · rfl

/-- **The entry of `la` is made**, in a tree that has its table. -/
theorem UserTree.filled (ht : UserTree pmm s pgdir) (hla : la < LOWTOP)
    (hpt : walk (tableNext s) pgdir [pdx1 la, pdx0 la] = some pt)
    (hfree : mapping s pgdir la = none) (hp : p ∈ s.used) (hpn : p < pmm.npage)
    (hfits : pmm.npage ≤ 2 ^ 44) (hperm : perm < 1024)
    (hnew : ∀ q, UserPath q → walk (tableNext s) pgdir q ≠ some p) :
    UserTree pmm (filled s pt la p perm) pgdir ∧
      mapping (Paging.filled s pt la p perm) pgdir la =
        some (p, (PTE_V ||| (PTE_V ||| perm)) &&& PTE_USER) ∧
      (∀ la', la' < LOWTOP → pathOf la' ≠ pathOf la →
        mapping (Paging.filled s pt la p perm) pgdir la' = mapping s pgdir la') ∧
      ∀ q g, UserPath q → walk (tableNext (Paging.filled s pt la p perm)) pgdir q = some g →
        walk (tableNext s) pgdir q = some g ∨ q = pathOf la ∧ g = p := by
  have hp44 : p < 2 ^ 44 := hpn.trans_le hfits
  have hbits : PTE_V ||| perm < 2 ^ 10 := Nat.or_lt_two_pow (by norm_num) hperm
  have hpath₂ := userPath₂ hla
  have hold : tableNext s pt (ptx la) = none := by
    rw [mapping, hpt, Option.bind_some, Option.map_eq_none_iff] at hfree
    exact hfree
  have hg : Grown (tableNext s) (tableNext (Paging.filled s pt la p perm)) pgdir pt (ptx la) p
      UserPath := by
    refine ⟨hold, ?_, fun q g j _ _ hgj => ?_⟩
    · rw [next_filled hp44 hperm, if_pos ⟨rfl, rfl⟩]
    · rw [next_filled hp44 hperm, if_neg fun heq => ?_]
      exact hgj.elim (fun hgp => hgp heq.1) fun hji => hji heq.2
  have hbelow : ∀ j, UserPath ([pdx1 la, pdx0 la] ++ [ptx la] ++ [j]) →
      tableNext (Paging.filled s pt la p perm) p j = none := fun j hj =>
    absurd hj.1 (show ¬ 4 ≤ 3 by decide)
  have hwalk := ht.tree.walk_grown hg hpath₂ hpt hbelow
  have hlast : [pdx1 la, pdx0 la] ++ [ptx la] = pathOf la := rfl
  rw [hlast] at hwalk
  have hwalk₂ : ∀ la', la' < LOWTOP → walk (tableNext (Paging.filled s pt la p perm)) pgdir
      [pdx1 la', pdx0 la'] = walk (tableNext s) pgdir [pdx1 la', pdx0 la'] := fun la' hla' => by
    rw [hwalk _ (userPath₂ hla'), if_neg fun heq => ?_]
    exact absurd (congrArg List.length heq) (show ¬ 2 = 3 by decide)
  refine ⟨⟨ht.tree.grown hg hpath₂ hpt hbelow hnew, fun q f hq hw => ?_⟩, ?_, fun la' hla' hne => ?_,
    fun q g hq hw => ?_⟩
  · rw [hwalk q hq] at hw
    split at hw
    · obtain rfl := Option.some.inj hw
      exact ⟨hp, hpn⟩
    · exact ht.used q f hq hw
  · rw [mapping, hwalk₂ la hla, hpt, Option.bind_some, hg.entry, Option.map_some,
      pteOf_filled_self hp44 hperm, pteCreate_and hp44 hbits]
  · refine mapping_congr (hwalk₂ la' hla') fun pt' hpt' => ?_
    have hno : ¬ (pt' = pt ∧ ptx la' = ptx la) := fun hboth => by
      obtain ⟨hpp, hx⟩ := hboth
      have heq := ht.tree.inj _ _ pt (userPath₂ hla') hpath₂ (hpp ▸ hpt') hpt
      refine hne ?_
      rw [pathOf, pathOf, hx]
      exact congrArg (· ++ [ptx la]) heq
    rw [pteOf_filled hp44 hperm, if_neg hno]
  · rw [hwalk q hq] at hw
    split at hw
    · next heq => exact .inr ⟨heq, (Option.some.inj hw).symm⟩
    · exact .inl hw

end Filled

/-- **`page_insert`** of a page that no table names, at an address that maps to nothing. -/
theorem wp_pageInsert (hfresh : pmm.Fresh) (ht : UserTree pmm s pgdir) (hla : la < LOWTOP)
    (hfree : mapping s pgdir la = none) (hp : p ∈ s.used) (hpn : p < pmm.npage) (hperm : perm < 1024)
    (hnew : ∀ q, UserPath q → walk (tableNext s) pgdir q ≠ some p) :
    Act.wp (pageInsert pmm pgdir p la perm) (fun ret s' => ret = -E_NO_MEM ∧ s'.starved = true ∨
      ret = 0 ∧ Inserted pmm pgdir la p perm s s') (fun _ => False) s := by
  rw [pageInsert, Act.wp_bind]
  refine Act.wp_mono (wp_getPte hfresh ht hla) (fun r s₁ h₁ => ?_) fun _ => id
  obtain ⟨ht₁, hk, hr⟩ := h₁
  cases r with
  | none => exact .inl ⟨rfl, hr⟩
  | some r =>
    obtain ⟨pt, i⟩ := r
    obtain ⟨rfl, hpt, hst⟩ := hr
    have hnew₁ : ∀ q, UserPath q → walk (tableNext s₁) pgdir q ≠ some p := fun q hq hw =>
      (hk.reach q p hq hw).elim (hnew q hq) fun hno => hno hp
    have hfree₁ : mapping s₁ pgdir la = none := (hk.mapping la hla).trans hfree
    have hinvalid : ¬ Valid (Bytes.word (s₁.page pt) 8 (8 * ptx la)) := fun hv => by
      rw [mapping, hpt, Option.bind_some, tableNext, pteOf, if_pos hv] at hfree₁
      cases hfree₁
    have hptp : pt ≠ p := fun heq => hnew₁ _ (userPath₂ hla) (heq ▸ hpt)
    simp only [setRef, dropOld, entry, setEntry, Act.wp_bind, Act.wp_modify, Act.wp_get, Act.wp_pure,
      hinvalid, if_false]
    set s₂ : Phys := { s₁ with ref := Function.update s₁.ref p (s₁.ref p + 1) } with hs₂
    have ht₂ : UserTree pmm s₂ pgdir := ⟨ht₁.tree, ht₁.used⟩
    obtain ⟨htree, hself, hother, hreach⟩ := ht₂.filled hla hpt hfree₁ (hk.used hp) hpn hfresh.fits
      hperm hnew₁
    refine .inr ⟨trivial, ?_⟩
    change Inserted pmm pgdir la p perm s (filled s₂ pt la p perm)
    exact {
      tree := htree
      used := hk.used
      mapping_self := hself
      mapping_ne := fun la' hla' hne => (hother la' hla' hne).trans (hk.mapping la' hla')
      reach := fun q g hq hw => by
        rcases hreach q g hq hw with hw | hpath
        · exact (hk.reach q g hq hw).imp_right .inl
        · exact .inr (.inr hpath)
      page := fun g hg hnt => by
        have hgpt : g ≠ pt := fun heq => by
          rcases hk.isTable ⟨_, userPath₂ hla, show 2 < 3 by decide, hpt⟩ with htab | hno
          · exact hnt (heq ▸ htab)
          · exact hno (heq ▸ hg)
        rw [filled]
        dsimp only
        rw [Function.update_of_ne hgpt]
        exact hk.page g hg hnt
      ref := fun g hg hgp => (Function.update_of_ne hgp ..).trans (hk.ref g hg)
      refSelf := (Function.update_self ..).trans (congrArg (· + 1) (hk.ref p hp))
      starved := hst }

/-- **`pgdir_alloc_page`** at an address that maps to nothing: a new page, or none.  What is free has no
references. -/
theorem wp_pgdirAllocPage (hfresh : pmm.Fresh) (ht : UserTree pmm s pgdir) (hla : la < LOWTOP)
    (hfree : mapping s pgdir la = none) (hperm : perm < 1024) :
    Act.wp (pgdirAllocPage pmm pgdir la perm) (fun r s' => match r with
      | none => s'.starved = true
      | some p => p ∉ s.used ∧ p < pmm.npage ∧ p ∈ s'.used ∧ s'.ref p = 1 ∧
          Inserted pmm pgdir la p perm { s with used := insert p s.used } s')
      (fun e => e = .panic ∧ ∃ p, p ∉ s.used ∧ s.ref p ≠ 0) s := by
  rw [pgdirAllocPage, Act.wp_bind]
  refine wp_allocPage hfresh rfl fun p hp hpn => ?_
  have ht' : UserTree pmm { s with used := insert p s.used } pgdir :=
    ⟨ht.tree, fun q f hq hw => (ht.used q f hq hw).imp_left Finset.mem_insert_of_mem⟩
  rw [Act.wp_bind]
  refine Act.wp_mono (wp_pageInsert hfresh ht' hla hfree (Finset.mem_insert_self ..) hpn hperm
    fun q hq hw => hp (ht.used q p hq hw).1) (fun ret s₁ h₁ => ?_) fun _ => False.elim
  rw [Act.wp_ite]
  rcases h₁ with ⟨rfl, hst⟩ | ⟨rfl, hins⟩
  · exact ⟨fun _ => hst, fun hno => absurd (by decide) hno⟩
  · refine ⟨fun hno => absurd rfl hno, fun _ => ?_⟩
    simp only [Act.wp_bind, Act.wp_get, Act.wp_require]
    refine ⟨fun href => ⟨hp, hpn, hins.used (Finset.mem_insert_self ..), href, hins⟩, fun href => ?_⟩
    refine ⟨trivial, p, hp, fun hzero => href ?_⟩
    rw [hins.refSelf]
    exact congrArg (· + 1) hzero

end UCore.Paging
