import UCore.Mm.UserView

/-!
# Mm/PageReplace — mapping a page where one is mapped already

    pathOf la = [PDX1, PDX0] ++ [PTX] ──▸ old page        the entry is cleared…
                                   └────▸ new page        …and made again

`page_insert` drops the old page, and frees it if nothing else refers to it.  No path but the one of `la`
went there, so the tables stay a tree, of pages that are not free.
-/

namespace UCore.Paging

open Vmm Radix

variable {pmm : Pmm} {s s' : Phys} {pgdir la p pt old perm perm' g j : ℕ}

/-! ## The entry is cleared -/

/-- The tables without the entry of `la`. -/
theorem next_cleared (hpage : s'.page = Function.update s.page pt (Bytes.putWord (s.page pt) 8 (8 * ptx la) 0)) :
    tableNext s' g j = if g = pt ∧ j = ptx la then none else tableNext s g j := by
  rw [tableNext, pteOf_put (by decide) hpage]
  split
  · exact if_neg not_valid_zero
  · rfl

/-- **The entry of `la` is cleared**: it maps to nothing, and the rest is as it was. -/
structure Cleared (pmm : Pmm) (pgdir la pt old : ℕ) (s s' : Phys) : Prop where
  tree : UserTree pmm s' pgdir
  table : walk (tableNext s') pgdir [pdx1 la, pdx0 la] = some pt
  mapping_self : mapping s' pgdir la = none
  mapping_ne : ∀ la', la' < LOWTOP → pathOf la' ≠ pathOf la → mapping s' pgdir la' = mapping s pgdir la'
  reach : ∀ q g, walk (tableNext s') pgdir q = some g → walk (tableNext s) pgdir q = some g
  used : ∀ g ∈ s.used, g ≠ old → g ∈ s'.used
  page : ∀ g, g ≠ pt → s'.page g = s.page g
  starved : s'.starved = s.starved

/-- The page that it named is perhaps freed. -/
theorem UserTree.cleared (ht : UserTree pmm s pgdir) (hla : la < LOWTOP)
    (hpt : walk (tableNext s) pgdir [pdx1 la, pdx0 la] = some pt)
    (hold : walk (tableNext s) pgdir (pathOf la) = some old)
    (hpage : s'.page = Function.update s.page pt (Bytes.putWord (s.page pt) 8 (8 * ptx la) 0))
    (hused : ∀ g ∈ s.used, g ≠ old → g ∈ s'.used) (hstarved : s'.starved = s.starved) :
    Cleared pmm pgdir la pt old s s' := by
  have hpath := userPath₂ hla
  have hlast : [pdx1 la, pdx0 la] ++ [ptx la] = pathOf la := rfl
  have hle : ∀ g j x, tableNext s' g j = some x → tableNext s g j = some x := fun g j x hx => by
    rw [next_cleared hpage] at hx
    split at hx
    · exact nomatch hx
    · exact hx
  have hframe : ∀ g j, g ≠ pt ∨ j ≠ ptx la → tableNext s' g j = tableNext s g j := fun g j hne => by
    rw [next_cleared hpage, if_neg fun heq => hne.elim (fun h => h heq.1) fun h => h heq.2]
  have hshort : ∀ la', ¬ pathOf la <+: [pdx1 la', pdx0 la'] := fun la' hpre =>
    absurd hpre.length_le (show ¬ 3 ≤ 2 by decide)
  have hwalk₂ : ∀ la', la' < LOWTOP → walk (tableNext s') pgdir [pdx1 la', pdx0 la'] =
      walk (tableNext s) pgdir [pdx1 la', pdx0 la'] := fun la' hla' =>
    ht.tree.walk_avoid hpath hpt hframe _ (userPath₂ hla') (hshort la')
  have hmono : ∀ q g, walk (tableNext s') pgdir q = some g → walk (tableNext s) pgdir q = some g :=
    fun q g hw => walk_mono hle hw
  have hgone : walk (tableNext s') pgdir (pathOf la) = none := by
    rw [← hlast, walk_concat, hwalk₂ la hla, hpt, Option.bind_some, next_cleared hpage, if_pos ⟨rfl, rfl⟩]
  refine ⟨⟨ht.tree.mono hle, fun q f hq hw => ?_⟩, (hwalk₂ la hla).trans hpt, mapping_eq_none.mpr hgone,
    fun la' hla' hne => ?_, hmono, hused, fun g hg => ?_, hstarved⟩
  · -- no path that is left leads to the page that is gone
    obtain ⟨hf, hlt⟩ := ht.used q f hq (hmono q f hw)
    refine ⟨hused f hf fun heq => ?_, hlt⟩
    have hq' : q = pathOf la := ht.tree.inj q _ f hq (userPath hla) (hmono q f hw) (heq ▸ hold)
    rw [hq', hgone] at hw
    exact nomatch hw
  · refine mapping_congr (hwalk₂ la' hla') fun pt' hpt' => ?_
    have hno : ¬ (pt' = pt ∧ ptx la' = ptx la) := fun ⟨hpp, hx⟩ => by
      have heq := ht.tree.inj _ _ pt (userPath₂ hla') hpath (hpp ▸ hpt') hpt
      refine hne ?_
      rw [pathOf, pathOf, hx]
      exact congrArg (· ++ [ptx la]) heq
    rw [pteOf_put (by decide) hpage, if_neg hno]
  · rw [hpage, Function.update_of_ne hg]

/-- **What `page_insert` does about an old page**: its entry is cleared, and it is freed with its last reference. -/
theorem wp_dropOld (ht : UserTree pmm s pgdir) (hla : la < LOWTOP)
    (hpt : walk (tableNext s) pgdir [pdx1 la, pdx0 la] = some pt)
    (hold : walk (tableNext s) pgdir (pathOf la) = some old) (hne : old ≠ p) :
    Act.wp (dropOld pmm p pt (ptx la)) (fun _ s' => Cleared pmm pgdir la pt old s s') (fun _ => False) s := by
  have hnext : tableNext s pt (ptx la) = some old := by
    have hpath : pathOf la = [pdx1 la, pdx0 la] ++ [ptx la] := rfl
    rwa [hpath, walk_concat, hpt, Option.bind_some] at hold
  have hvalid : Valid (pteOf s pt (ptx la)) := by
    by_contra hno
    rw [tableNext, if_neg hno] at hnext
    cases hnext
  have hpage : pageOf (pteOf s pt (ptx la)) = old := by
    rw [tableNext, if_pos hvalid] at hnext
    exact Option.some.inj hnext
  have hlt : pageOf (pteOf s pt (ptx la)) < pmm.npage := hpage ▸ (ht.used _ _ (userPath hla) hold).2
  have hcleared : ∀ s', s'.page = Function.update s.page pt (Bytes.putWord (s.page pt) 8 (8 * ptx la) 0) →
      (∀ g ∈ s.used, g ≠ old → g ∈ s'.used) → s'.starved = s.starved → Cleared pmm pgdir la pt old s s' :=
    fun s' => ht.cleared hla hpt hold
  rw [dropOld, Act.wp_bind, entry, Act.wp_bind, Act.wp_get, Act.wp_pure]
  change Act.wp (if Valid (pteOf s pt (ptx la)) then _ else _) _ _ s
  rw [if_pos hvalid, Act.wp_bind]
  refine wp_pte2page hvalid hlt ?_
  rw [if_neg (hpage ▸ hne), pageRemovePte, Act.wp_bind, entry, Act.wp_bind, Act.wp_get, Act.wp_pure]
  change Act.wp (if Valid (pteOf s pt (ptx la)) then _ else _) _ _ s
  rw [if_pos hvalid, Act.wp_bind]
  refine wp_pte2page hvalid hlt ?_
  rw [hpage, setRef, Act.wp_bind, Act.wp_modify, Act.wp_bind, Act.wp_get, Act.wp_ite]
  refine ⟨fun _ => ?_, fun _ => ?_⟩
  · rw [freePage, Act.wp_bind, Act.wp_modify]
    exact hcleared _ rfl (fun g hg hgo => Finset.mem_erase.mpr ⟨hgo, hg⟩) rfl
  · exact hcleared _ rfl (fun g hg _ => hg) rfl

/-! ## `page_insert` -/

/-- **A page in the place of what was there**: `la` maps to `p`, and the rest is as it was. -/
structure Replaced (pmm : Pmm) (pgdir la p perm : ℕ) (s s' : Phys) : Prop where
  tree : UserTree pmm s' pgdir
  mapping_self : mapping s' pgdir la = some (p, pagePerm perm)
  mapping_ne : ∀ la', la' < LOWTOP → pathOf la' ≠ pathOf la → mapping s' pgdir la' = mapping s pgdir la'
  page : ∀ g ∈ s.used, ¬ IsTable s pgdir g → s'.page g = s.page g
  starved : s'.starved = s.starved

theorem Inserted.replaced (h : Inserted pmm pgdir la p perm s s') : Replaced pmm pgdir la p perm s s' :=
  ⟨h.tree, h.mapping_self, h.mapping_ne, h.page, h.starved⟩

/-- **`page_insert`** of a page that no table names, whatever the address maps to. -/
theorem wp_pageInsert_replace (hfresh : pmm.Fresh) (ht : UserTree pmm s pgdir) (hla : la < LOWTOP)
    (hp : p ∈ s.used) (hpn : p < pmm.npage) (hperm : perm < 1024)
    (hnew : ∀ q, UserPath q → walk (tableNext s) pgdir q ≠ some p) :
    Act.wp (pageInsert pmm pgdir p la perm) (fun ret s' => ret = -E_NO_MEM ∧ s'.starved = true ∨
      ret = 0 ∧ Replaced pmm pgdir la p perm s s') (fun _ => False) s := by
  cases hm : mapping s pgdir la with
  | none =>
    exact Act.wp_mono (wp_pageInsert hfresh ht hla hm hp hpn hperm hnew)
      (fun ret s' hr => hr.imp_right fun hr => ⟨hr.1, hr.2.replaced⟩) fun _ => id
  | some m =>
    rw [pageInsert, Act.wp_bind]
    refine Act.wp_mono (wp_getPte hfresh ht hla) (fun r s₁ h₁ => ?_) fun _ => id
    obtain ⟨ht₁, hk, hr⟩ := h₁
    cases r with
    | none => exact .inl ⟨rfl, hr⟩
    | some r =>
      obtain ⟨pt, i⟩ := r
      obtain ⟨rfl, hpt, hst⟩ := hr
      have hnew₁ : ∀ q, UserPath q → walk (tableNext s₁) pgdir q ≠ some p := fun q hq hw =>
        (hk.reach q p hq hw).elim (hnew q hq) fun hno => hno hp
      have hold : walk (tableNext s₁) pgdir (pathOf la) = some m.1 :=
        walk_of_mapping (show mapping s₁ pgdir la = some (m.1, m.2) from (hk.mapping la hla).trans hm)
      have hne : m.1 ≠ p := fun heq => hnew₁ _ (userPath hla) (heq ▸ hold)
      rw [setRef, Act.wp_bind, Act.wp_modify]
      set s₂ : Phys := { s₁ with ref := Function.update s₁.ref p (s₁.ref p + 1) } with hs₂
      have ht₂ : UserTree pmm s₂ pgdir := ⟨ht₁.tree, ht₁.used⟩
      rw [Act.wp_bind]
      refine Act.wp_mono (wp_dropOld ht₂ hla hpt hold hne) (fun _ s₃ hc => ?_) fun _ => id
      have hp₃ : p ∈ s₃.used := hc.used p (hk.used hp) hne.symm
      obtain ⟨htree, hself, hother, -⟩ := hc.tree.filled hla hc.table hc.mapping_self hp₃ hpn hfresh.fits hperm
        fun q hq hw => hnew₁ q hq (hc.reach q p hw)
      refine .inr ⟨rfl, ?_⟩
      change Replaced pmm pgdir la p perm s (filled s₃ pt la p perm)
      refine ⟨htree, hself, fun la' hla' hpath => ?_, fun g hg hnt => ?_, hc.starved.trans hst⟩
      · rw [hother la' hla' hpath, hc.mapping_ne la' hla' hpath]
        exact hk.mapping la' hla'
      · have hgpt : g ≠ pt := fun heq => by
          rcases hk.isTable ⟨_, userPath₂ hla, show 2 < 3 by decide, hpt⟩ with htab | hno
          · exact hnt (heq ▸ htab)
          · exact hno (heq ▸ hg)
        rw [filled]
        dsimp only
        rw [Function.update_of_ne hgpt, hc.page g hgpt]
        exact hk.page g hg hnt

/-- **`pgdir_alloc_page`**, whatever the address maps to. -/
theorem wp_pgdirAllocPage_replace (hfresh : pmm.Fresh) (ht : UserTree pmm s pgdir) (hla : la < LOWTOP)
    (hperm : perm < 1024) :
    Act.wp (pgdirAllocPage pmm pgdir la perm) (fun r s' => match r with
      | none => s'.starved = true
      | some p => PageAdded pmm pgdir la p (pagePerm perm) s s') (fun _ => True) s := by
  rw [pgdirAllocPage, Act.wp_bind]
  refine wp_allocPage hfresh rfl fun p hp hpn => ?_
  have ht' : UserTree pmm { s with used := insert p s.used } pgdir :=
    ⟨ht.tree, fun q f hq hw => (ht.used q f hq hw).imp_left Finset.mem_insert_of_mem⟩
  rw [Act.wp_bind]
  refine Act.wp_mono (wp_pageInsert_replace hfresh ht' hla (Finset.mem_insert_self ..) hpn hperm
    fun q hq hw => hp (ht.used q p hq hw).1) (fun ret s₁ h₁ => ?_) fun _ => False.elim
  rw [Act.wp_ite]
  rcases h₁ with ⟨rfl, hst⟩ | ⟨rfl, hrep⟩
  · exact ⟨fun _ => hst, fun hno => absurd (by decide) hno⟩
  · refine ⟨fun hno => absurd rfl hno, fun _ => ?_⟩
    simp only [Act.wp_bind, Act.wp_get, Act.wp_require]
    refine ⟨fun _ => ?_, fun _ => trivial⟩
    have hmap : ∀ a, a < LOWTOP → a / PGSIZE ≠ la / PGSIZE → mapping s₁ pgdir a = mapping s pgdir a :=
      fun a ha hpage => hrep.mapping_ne a ha fun hpath => hpage (page_of_pathOf ha hla hpath)
    refine ⟨hrep.tree, hrep.mapping_self, hmap, fun a ha hpage => view_congr (hmap a ha hpage)
      fun g perm' hm => ?_, hrep.starved⟩
    have hw := walk_of_mapping hm
    have hg : g ∈ s.used := (ht.used _ g (userPath ha) hw).1
    rw [hrep.page g (Finset.mem_insert_of_mem hg) (ht.not_isTable ha hw)]

end UCore.Paging
