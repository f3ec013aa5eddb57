import UCore.Mm.AddrSpace
import UCore.Mm.CopyRange

/-!
# Mm/DupMmap — the copy of an address space

    from:  [v₁, v₂, …, vₙ]        to:  []  ⟶  [vₙ]  ⟶  …  ⟶  [v₁, v₂, …, vₙ]

`dup_mmap` of `kern/mm/vmm.c` goes through the areas from the last to the first, so that each new area
starts before those that are there, and copies the pages of each.
-/

namespace UCore.Paging

open Vmm Radix

/-- One turn of `dup_mmap`: `granted` says what the `kmalloc` of `vma_create` comes to. -/
def dupArea (pmm : Pmm) (fuel : ℕ) (granted : Vma → Bool) (dst src : ℕ) (vma : Vma) :
    SpaceCall ℤ := do
  if granted vma = true then
    onMm (insertVmaStruct ⟨vma.vmStart, vma.vmEnd, vma.vmFlags⟩)
    if (← onPhys (copyRange pmm fuel dst src vma.vmStart vma.vmEnd)) ≠ 0 then
      return -E_NO_MEM
    else
      return 0
  else
    onPhys starve
    return -E_NO_MEM

/-- The loop of `dup_mmap`. -/
def dupAreas (pmm : Pmm) (fuel : ℕ) (granted : Vma → Bool) (dst src : ℕ) : List Vma → SpaceCall ℤ
  | [] => return 0
  | vma :: vmas => do
    let ret ← dupArea pmm fuel granted dst src vma
    if ret ≠ 0 then
      return ret
    else
      dupAreas pmm fuel granted dst src vmas

/-- `dup_mmap`, from the address space with the areas `mm` and the page directory `src`, to the one of
the state and the page directory `dst`. -/
def dupMmap (pmm : Pmm) (fuel : ℕ) (granted : Vma → Bool) (dst src : ℕ) (mm : Mm) : SpaceCall ℤ :=
  dupAreas pmm fuel granted dst src mm.mmapList.reverse

/-- **A duplicate**: the areas of `mm`; at each page of an area, what is to be seen at that page in the
address space copied, in a page that was free; and nothing else.  What was in use is as it was. -/
structure Duplicate (mm : Mm) (dst src : ℕ) (s s' : AddrSpace) : Prop where
  areas : s'.mm.mmapList = mm.mmapList
  valid : s'.mm.Valid
  copied : ∀ la, la < USERTOP → PGSIZE ∣ la → (∃ v ∈ mm.mmapList, v.Holds la) →
    content s'.phys dst la = content s.phys src la
  fresh : ∀ la p perm, la < USERTOP → mapping s'.phys dst la = some (p, perm) → p ∉ s.phys.used ∧
    (∀ la' perm', la' < USERTOP → mapping s'.phys src la' ≠ some (p, perm')) ∧
      ∀ la' perm', la' < USERTOP → PGSIZE ∣ la → PGSIZE ∣ la' →
        mapping s'.phys dst la' = some (p, perm') → la' = la
  other : ∀ la, la < USERTOP → (∀ v ∈ mm.mmapList, ¬ v.Holds la) → mapping s'.phys dst la = none
  source : ∀ la, la < USERTOP → mapping s'.phys src la = mapping s.phys src la
  page : ∀ g ∈ s.phys.used, g ≠ dst → s'.phys.page g = s.phys.page g
  ref : ∀ g ∈ s.phys.used, s'.phys.ref g = s.phys.ref g

section Dup

variable {pmm : Pmm} {s s₀ : AddrSpace} {dst src fuel : ℕ} {mm : Mm} {granted : Vma → Bool} {v : Vma}
  {vmas later : List Vma}

/-- **The duplicate so far**: of the areas `later`. -/
structure Dup (pmm : Pmm) (dst src : ℕ) (s₀ : Phys) (later : List Vma) (s : AddrSpace) : Prop where
  areas : s.mm.mmapList = later
  valid : s.mm.Valid
  pages : Copying pmm dst src s₀ (InAreas later) s.phys

/-- A new page directory is the duplicate of no area. -/
theorem FreshDir.dup (h : FreshDir pmm s.phys dst) (hmm : s.mm = mmCreate) :
    Dup pmm dst src s.phys [] s where
  areas := hmm ▸ rfl
  valid := hmm ▸ mmCreate_valid
  pages := {
    tree := h.tree
    used := fun _ hg => hg
    page := fun _ _ _ => rfl
    ref := fun _ _ => rfl
    fresh := fun _ _ hq hw => .inl (h.walk_eq hq hw).1
    copied := fun _ _ _ ⟨_, hv, _⟩ => (nomatch hv)
    other := fun _ hla _ _ => h.mapping_eq hla }

/-- **One area more**, before all that are there. -/
theorem Dup.wp_dupArea (h : Dup pmm dst src s₀.phys later s) (hfresh : pmm.Fresh)
    (hsrc : Source pmm s₀.phys src dst) (hfuel : USERTOP / PGSIZE < fuel)
    (haccess : UserAccess v.vmStart v.vmEnd) (hstart : PGSIZE ∣ v.vmStart) (hstop : PGSIZE ∣ v.vmEnd)
    (hbefore : ∀ x ∈ later, v.vmEnd ≤ x.vmStart) :
    Act.wp (dupArea pmm fuel granted dst src v) (fun ret s' =>
      ret = -E_NO_MEM ∧ s'.phys.starved = true ∨ ret = 0 ∧ Dup pmm dst src s₀.phys (v :: later) s')
      (fun e => e = .noPage) s := by
  have hfits : Fits v s.mm.mmapList := ⟨haccess.2.1, fun x hx => .inr (hbefore x (h.areas ▸ hx))⟩
  have hfront : Ranges.insert Vma.vmStart v s.mm.mmapList = v :: later := by
    rw [h.areas, Ranges.insert_eq_cons fun x hx => haccess.2.1.trans_le (hbefore x hx)]
  have hvalid := h.valid.insert hfits
  rw [hfront] at hvalid
  have hapart : ∀ la, v.vmStart ≤ la → la < v.vmEnd → ¬ InAreas later la := by
    rintro la - hlt ⟨x, hx, hge, -⟩
    exact absurd (hlt.trans_le (hbefore x hx)) (not_lt.mpr hge)
  rw [dupArea, Act.wp_ite]
  refine ⟨fun _ => ?_, fun _ => .inl ⟨rfl, rfl⟩⟩
  rw [Act.wp_bind, wp_onMm, h.valid.wp_insertVmaStruct, hfront]
  refine ⟨fun _ => ?_, fun hno => absurd hfits hno⟩
  rw [Act.wp_bind, wp_onPhys]
  refine Act.wp_mono (h.pages.wp_copyRange hfresh hsrc haccess hstart hstop hapart hfuel)
    (fun ret phys hret => ?_) fun _ => id
  rw [Act.wp_ite]
  rcases hret with ⟨rfl, hst⟩ | ⟨rfl, hpages⟩
  · exact ⟨fun _ => .inl ⟨rfl, hst⟩, fun hno => absurd (by decide) hno⟩
  · refine ⟨fun hno => absurd rfl hno, fun _ => .inr ⟨rfl, rfl, hvalid, hpages.congr
      fun _ _ _ => inAreas_cons⟩⟩

/-- **The loop**, on the areas `vmas` that are left, from the last to the first. -/
theorem Dup.wp_dupAreas (h : Dup pmm dst src s₀.phys later s) (hfresh : pmm.Fresh)
    (hsrc : Source pmm s₀.phys src dst) (hfuel : USERTOP / PGSIZE < fuel) (hmm : UserAreas mm)
    (hlist : mm.mmapList = vmas.reverse ++ later) :
    Act.wp (dupAreas pmm fuel granted dst src vmas) (fun ret s' =>
      ret = -E_NO_MEM ∧ s'.phys.starved = true ∨ ret = 0 ∧ Dup pmm dst src s₀.phys mm.mmapList s')
      (fun e => e = .noPage) s := by
  induction vmas generalizing later s with
  | nil => exact .inr ⟨rfl, hlist ▸ h⟩
  | cons v vmas ih =>
    rw [List.reverse_cons, List.append_assoc, List.singleton_append] at hlist
    have hv : v ∈ mm.mmapList := hlist ▸ List.mem_append_right _ List.mem_cons_self
    have hbefore : ∀ x ∈ later, v.vmEnd ≤ x.vmStart := by
      have hsorted := hmm.valid.sorted.apart
      rw [hlist] at hsorted
      exact (List.pairwise_cons.mp (List.pairwise_append.mp hsorted).2.1).1
    rw [dupAreas, Act.wp_bind]
    refine Act.wp_mono (h.wp_dupArea hfresh hsrc hfuel (hmm.access v hv) (hmm.start v hv)
      (hmm.stop v hv) hbefore) (fun ret s₁ h₁ => ?_) fun _ => id
    rw [Act.wp_ite]
    rcases h₁ with ⟨rfl, hst⟩ | ⟨rfl, h₁⟩
    · exact ⟨fun _ => .inl ⟨rfl, hst⟩, fun hno => absurd (by decide) hno⟩
    · exact ⟨fun hno => absurd rfl hno, fun _ => ih h₁ hlist⟩

/-- The duplicate of all the areas is a duplicate. -/
theorem Dup.duplicate (h : Dup pmm dst src s₀.phys mm.mmapList s) (hsrc : Source pmm s₀.phys src dst)
    (hmm : UserAreas mm) : Duplicate mm dst src s₀ s where
  areas := h.areas
  valid := h.valid
  copied la hla := h.pages.copied la (hla.trans_le USERTOP_le)
  fresh la p perm hla hm := by
    have hlow := hla.trans_le USERTOP_le
    have hp := (h.pages.mapped_page hlow hm).2.1
    refine ⟨hp, fun la' perm' hla' hm' => hp ?_, fun la' perm' hla' hd hd' hm' => ?_⟩
    · have hlow' := hla'.trans_le USERTOP_le
      rw [h.pages.mapping_src hsrc hlow'] at hm'
      exact (hsrc.used _ p (userPath hlow') (walk_of_mapping hm')).1
    · have hlow' := hla'.trans_le USERTOP_le
      exact pathOf_inj hlow' hlow hd' hd (h.pages.tree.tree.inj _ _ p (userPath hlow') (userPath hlow)
        (walk_of_mapping hm') (walk_of_mapping hm))
  other la hla hout := by
    rw [← mapping_roundDown]
    refine h.pages.other _ ((roundDown_le _ _).trans_lt (hla.trans_le USERTOP_le)) (dvd_roundDown _ _) ?_
    rintro ⟨v, hv, hin⟩
    exact hout v hv ((hmm.holds_roundDown hv).mp hin)
  source la hla := h.pages.mapping_src hsrc (hla.trans_le USERTOP_le)
  page := h.pages.page
  ref := h.pages.ref

/-- **`dup_mmap` copies an address space exactly**, unless an allocation fails: then it returns
`-E_NO_MEM`, or fails the assertion of `copy_range` that there is a page. -/
theorem dupMmap_duplicate (hfresh : pmm.Fresh) (hmm : UserAreas mm) (hsrc : Source pmm s.phys src dst)
    (hdir : FreshDir pmm s.phys dst) (hs : s.mm = mmCreate) (hfuel : USERTOP / PGSIZE < fuel) :
    (∃ s', dupMmap pmm fuel granted dst src mm s = .ok (0, s') ∧ Duplicate mm dst src s s') ∨
      (∃ s', dupMmap pmm fuel granted dst src mm s = .ok (-E_NO_MEM, s') ∧ s'.phys.starved = true) ∨
      dupMmap pmm fuel granted dst src mm s = .error .noPage := by
  have hlist : mm.mmapList = mm.mmapList.reverse.reverse ++ [] := by
    rw [List.reverse_reverse, List.append_nil]
  have hrun : Act.wp (dupAreas pmm fuel granted dst src mm.mmapList.reverse) _ _ s :=
    (hdir.dup hs).wp_dupAreas hfresh hsrc hfuel hmm hlist
  rw [Act.wp] at hrun
  rw [dupMmap]
  cases hr : dupAreas pmm fuel granted dst src mm.mmapList.reverse s with
  | error e =>
    rw [hr] at hrun
    exact .inr (.inr (congrArg Except.error hrun))
  | ok r =>
    obtain ⟨ret, s'⟩ := r
    rw [hr] at hrun
    rcases hrun with ⟨rfl, hst⟩ | ⟨rfl, hdup⟩
    · exact .inr (.inl ⟨s', rfl, hst⟩)
    · exact .inl ⟨s', rfl, hdup.duplicate hsrc hmm⟩

end Dup

/-! ## An address space of one page -/

/-- Pages are granted from the lowest number on. -/
def lowest : Pmm := ⟨16, fun used => (List.range 16).find? fun p => p ∉ used⟩

theorem lowest_fresh : lowest.Fresh := by
  refine ⟨fun used p hp => ?_, by decide⟩
  have hp : (List.range 16).find? (fun p => p ∉ used) = some p := hp
  have hnot := List.find?_some hp
  exact ⟨by simpa using hnot, List.mem_range.mp (List.mem_of_find?_eq_some hp)⟩

/-- A page with one entry. -/
def oneEntry (i pte : ℕ) : ℕ → UInt8 := Bytes.putWord (fun _ => 0) 8 (8 * i) pte

/-- The page 4 under the page directory 1, and the new page directory 5. -/
def parent : AddrSpace where
  mm := mmCreate
  phys := {
    page := fun p => match p with
      | 1 => oneEntry 0 (pteCreate 2 (PTE_U ||| PTE_V))
      | 2 => oneEntry 1 (pteCreate 3 (PTE_U ||| PTE_V))
      | 3 => oneEntry 0 (pteCreate 4 (PTE_U ||| PTE_R ||| PTE_V))
      | 4 => oneEntry 0 (97 * 2 ^ 56)
      | _ => fun _ => 0
    ref := fun _ => 1
    used := {1, 2, 3, 4, 5}
    starved := false }

/-- The area of the page. -/
def parentMm : Mm := ⟨[⟨0x200000, 0x201000, VM_READ⟩], none, 1⟩

theorem parentMm_user : UserAreas parentMm :=
  ⟨⟨⟨by decide, by decide⟩, rfl, fun _ h => (nomatch h)⟩, by decide, by decide, by decide⟩

/-- Its entry is what was written, and the others are clear. -/
theorem pteOf_oneEntry {s : Phys} {p i pte : ℕ} (hpte : pte < 2 ^ 64) (hs : s.page p = oneEntry i pte) (k : ℕ) :
    pteOf s p k = if k = i then pte else 0 := by
  by_cases hk : k = i
  · rw [if_pos hk, pteOf, hs, oneEntry, hk, Bytes.word_putWord, Nat.mod_eq_of_lt (show pte < 256 ^ 8 by omega)]
  · have hzero : pteOf ⟨fun _ _ => 0, s.ref, s.used, s.starved⟩ p k = 0 := pteOf_clear rfl
    rw [pteOf] at hzero
    rw [if_neg hk, pteOf, hs, oneEntry, Bytes.word_putWord_of_ne (by omega), hzero]

theorem oneEntry_next {s : Phys} {p i j pte f : ℕ} (hpte : pte < 2 ^ 64)
    (hs : s.page p = oneEntry i pte) (hf : tableNext s p j = some f) :
    Valid pte ∧ f = pageOf pte := by
  rw [tableNext, pteOf_oneEntry hpte hs] at hf
  by_cases hj : j = i
  · rw [if_pos hj] at hf
    split at hf
    · next hv => exact ⟨hv, (Option.some.inj hf).symm⟩
    · cases hf
  · rw [if_neg hj, if_neg not_valid_zero] at hf
    cases hf

theorem parent_source : Source lowest parent.phys 1 5 := by
  have hnext : ∀ p i f, p ∈ ({1, 2, 3, 4} : Finset ℕ) → tableNext parent.phys p i = some f →
      f ∈ ({1, 2, 3, 4} : Finset ℕ) := fun p i f hp hf => by
    have hentry : ∀ i pte, pte < 2 ^ 64 → parent.phys.page p = oneEntry i pte →
        (Valid pte → pageOf pte ∈ ({1, 2, 3, 4} : Finset ℕ)) → f ∈ ({1, 2, 3, 4} : Finset ℕ) :=
      fun i pte hpte hs hmem => by
        obtain ⟨hv, rfl⟩ := oneEntry_next hpte hs hf
        exact hmem hv
    fin_cases hp
    · exact hentry 0 (pteCreate 2 (PTE_U ||| PTE_V)) (by decide) rfl (by decide)
    · exact hentry 1 (pteCreate 3 (PTE_U ||| PTE_V)) (by decide) rfl (by decide)
    · exact hentry 0 (pteCreate 4 (PTE_U ||| PTE_R ||| PTE_V)) (by decide) rfl (by decide)
    · exact hentry 0 (97 * 2 ^ 56) (by decide) rfl (by decide)
  have hwalk : ∀ q f, walk (tableNext parent.phys) 1 q = some f → f ∈ ({1, 2, 3, 4} : Finset ℕ) :=
    fun q f hw => walk_mem hnext (show 1 ∈ ({1, 2, 3, 4} : Finset ℕ) by decide) hw
  refine ⟨fun q f _ hw => ?_, fun q _ hw => absurd (hwalk q 5 hw) (by decide)⟩
  have hsmall : ∀ f ∈ ({1, 2, 3, 4} : Finset ℕ), f ∈ parent.phys.used ∧ f < lowest.npage := by decide
  exact hsmall f (hwalk q f hw)

theorem parent_freshDir : FreshDir lowest parent.phys 5 :=
  ⟨by decide, by decide, fun i _ => if_neg (show ¬ Valid (pteOf parent.phys 5 i) from
    (pteOf_clear rfl : pteOf parent.phys 5 i = 0) ▸ not_valid_zero)⟩

/-- **The page is copied.** -/
theorem dupMmap_duplicate_parent : ∃ s', dupMmap lowest 600000 (fun _ => true) 5 1 parentMm parent =
    .ok (0, s') ∧ Duplicate parentMm 5 1 parent s' ∧ s'.phys.page 7 7 = 97 := by
  have hret : (dupMmap lowest 600000 (fun _ => true) 5 1 parentMm parent).toOption.map
      (fun r => (r.1, r.2.phys.page 7 7)) = some (0, 97) := by decide +kernel
  have hcopy : (∃ s', dupMmap lowest 600000 (fun _ => true) 5 1 parentMm parent = .ok (0, s') ∧ _) ∨ _ :=
    dupMmap_duplicate lowest_fresh parentMm_user parent_source parent_freshDir rfl (by decide)
  rcases hcopy with ⟨s', hrun, hdup⟩ | ⟨s', hrun, -⟩ | hrun
  · rw [hrun] at hret
    exact ⟨s', hrun, hdup, (Prod.mk.inj (Option.some.inj hret)).2⟩
  · rw [hrun] at hret
    exact absurd (Prod.mk.inj (Option.some.inj hret)).1 (show ¬ -E_NO_MEM = 0 by decide)
  · rw [hrun] at hret
    exact nomatch hret

end UCore.Paging
