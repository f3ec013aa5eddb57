import UCore.Mm.PageInsert

/-!
# Mm/CopyRange — the copy of a range of pages

    src:  la ──▸ g          dst:  la ──▸ p      p a new page, with the bytes of g

`copy_range` goes from page to page, and over the whole of a table that is not there.  `Copying` holds
between its turns: so far the pages of some addresses have been copied, no other address is mapped, and
whatever was in use before is as it was.
-/

namespace UCore.Paging

open Vmm Radix

variable {pmm : Pmm} {s₀ s s' : Phys} {dst src la la' p pt g perm pte start stop fuel : ℕ} {q : List ℕ}
  {done done' : ℕ → Prop}

/-- What is to be seen at an address: the bytes of its page, and the bits of `PTE_USER`. -/
def content (s : Phys) (pgdir la : ℕ) : Option ((ℕ → UInt8) × ℕ) :=
  (mapping s pgdir la).map fun m => (s.page m.1, m.2)

/-- **The address space copied from**: its tables and pages are in use, and the new page directory is
none of them. -/
structure Source (pmm : Pmm) (s : Phys) (src dst : ℕ) : Prop where
  used : ∀ q f, UserPath q → walk (tableNext s) src q = some f → f ∈ s.used ∧ f < pmm.npage
  apart : ∀ q, UserPath q → walk (tableNext s) src q ≠ some dst

/-- **The copy, as far as it has come**: the addresses that are `done` have been copied, from the memory
`s₀` to `s`. -/
structure Copying (pmm : Pmm) (dst src : ℕ) (s₀ : Phys) (done : ℕ → Prop) (s : Phys) : Prop where
  tree : UserTree pmm s dst
  used : s₀.used ⊆ s.used
  page : ∀ g ∈ s₀.used, g ≠ dst → s.page g = s₀.page g
  ref : ∀ g ∈ s₀.used, s.ref g = s₀.ref g
  fresh : ∀ q g, UserPath q → walk (tableNext s) dst q = some g → q = [] ∨ g ∉ s₀.used
  copied : ∀ la, la < LOWTOP → PGSIZE ∣ la → done la → content s dst la = content s₀ src la
  other : ∀ la, la < LOWTOP → PGSIZE ∣ la → ¬ done la → mapping s dst la = none

theorem content_eq_none : content s dst la = none ↔ mapping s dst la = none := Option.map_eq_none_iff

/-- What is to be seen depends on the mapping, and on the page mapped to. -/
theorem content_congr (hmap : mapping s' dst la = mapping s dst la)
    (hpage : ∀ p perm, mapping s dst la = some (p, perm) → s'.page p = s.page p) :
    content s' dst la = content s dst la := by
  rw [content, content, hmap]
  cases hm : mapping s dst la with
  | none => rfl
  | some m => rw [Option.map_some, Option.map_some, hpage m.1 m.2 hm]

/-- The bits that a copy is made with are those of the entry copied. -/
theorem copied_perm (hv : Valid pte) :
    (PTE_V ||| (PTE_V ||| (pte &&& PTE_USER))) &&& PTE_USER = pte &&& PTE_USER := by
  have hbits : ∀ r < 32, r % 2 = 1 → (PTE_V ||| (PTE_V ||| r)) &&& PTE_USER = r := by decide
  have huser : PTE_USER = 2 ^ 5 - 1 := rfl
  have hodd := valid_iff.mp hv
  rw [show pte &&& PTE_USER = pte % 32 by rw [huser, Nat.and_two_pow_sub_one_eq_mod]]
  exact hbits _ (Nat.mod_lt _ (by decide)) (by omega)

/-- The entry behind a mapping. -/
theorem exists_entry (h : mapping s src la = some (g, perm)) :
    ∃ pt, walk (tableNext s) src [pdx1 la, pdx0 la] = some pt ∧ Valid (pteOf s pt (ptx la)) ∧
      pageOf (pteOf s pt (ptx la)) = g ∧ pteOf s pt (ptx la) &&& PTE_USER = perm := by
  rw [mapping, Option.bind_eq_some_iff] at h
  obtain ⟨pt, hpt, hm⟩ := h
  rw [Option.map_eq_some_iff] at hm
  obtain ⟨p, hp, hpair⟩ := hm
  obtain ⟨rfl, hperm⟩ := Prod.mk.inj hpair
  rw [tableNext] at hp
  split at hp
  · next hv => exact ⟨pt, hpt, hv, Option.some.inj hp, hperm⟩
  · cases hp

theorem mapping_of_entry (hpt : walk (tableNext s) src [pdx1 la, pdx0 la] = some pt)
    (hv : Valid (pteOf s pt (ptx la))) : mapping s src la =
      some (pageOf (pteOf s pt (ptx la)), pteOf s pt (ptx la) &&& PTE_USER) := by
  rw [mapping, hpt, Option.bind_some, tableNext, if_pos hv, Option.map_some]

/-- Where there is no table, nothing is mapped. -/
theorem mapping_of_no_table (hpt : walk (tableNext s) src [pdx1 la, pdx0 la] = none) :
    mapping s src la = none := by
  rw [mapping, hpt, Option.bind_none]

theorem mapping_of_not_valid (hpt : walk (tableNext s) src [pdx1 la, pdx0 la] = some pt)
    (hv : ¬ Valid (pteOf s pt (ptx la))) : mapping s src la = none := by
  rw [mapping, hpt, Option.bind_some, tableNext, if_neg hv, Option.map_none]

namespace Copying

/-! ## Seen from either side -/

theorem congr (h : Copying pmm dst src s₀ done s)
    (hiff : ∀ la, la < LOWTOP → PGSIZE ∣ la → (done' la ↔ done la)) :
    Copying pmm dst src s₀ done' s :=
  { h with
    copied := fun la hla hd hdone => h.copied la hla hd ((hiff la hla hd).mp hdone)
    other := fun la hla hd hdone => h.other la hla hd fun hyes => hdone ((hiff la hla hd).mpr hyes) }

/-- The tables of the source are as they were. -/
theorem walk_src (h : Copying pmm dst src s₀ done s) (hsrc : Source pmm s₀ src dst) (hq : UserPath q) :
    walk (tableNext s) src q = walk (tableNext s₀) src q := by
  refine walk_congr (D := UserPath) (fun _ _ => UserPath.init) (fun q g j hq hw => ?_) q hq
  exact tableNext_congr (h.page g (hsrc.used q g hq.init hw).1 fun heq =>
    hsrc.apart q hq.init (heq ▸ hw))

/-- **The source maps what it did.** -/
theorem mapping_src (h : Copying pmm dst src s₀ done s) (hsrc : Source pmm s₀ src dst)
    (hla : la < LOWTOP) : mapping s src la = mapping s₀ src la := by
  refine mapping_congr (h.walk_src hsrc (userPath₂ hla)) fun pt hpt => ?_
  rw [pteOf, pteOf, h.page pt (hsrc.used _ pt (userPath₂ hla) hpt).1 fun heq =>
    hsrc.apart _ (userPath₂ hla) (heq ▸ hpt)]

theorem used_src (h : Copying pmm dst src s₀ done s) (hsrc : Source pmm s₀ src dst) (hq : UserPath q)
    (hw : walk (tableNext s) src q = some g) : g ∈ s.used ∧ g < pmm.npage := by
  rw [h.walk_src hsrc hq] at hw
  exact (hsrc.used q g hq hw).imp_left fun hg => h.used hg

/-- What was in use before is no table of the copy. -/
theorem not_isTable (h : Copying pmm dst src s₀ done s) (hg : g ∈ s₀.used) (hne : g ≠ dst) :
    ¬ IsTable s dst g := by
  rintro ⟨q, hq, -, hw⟩
  rcases h.fresh q g hq hw with rfl | hno
  · exact hne (Option.some.inj hw).symm
  · exact hno hg

/-- A page that the copy maps to is in use, and no table. -/
theorem mapped_page (h : Copying pmm dst src s₀ done s) (hla : la < LOWTOP)
    (hm : mapping s dst la = some (p, perm)) : p ∈ s.used ∧ p ∉ s₀.used ∧ ¬ IsTable s dst p := by
  have hw := walk_of_mapping hm
  refine ⟨(h.tree.used _ p (userPath hla) hw).1, ?_, h.tree.not_isTable hla hw⟩
  exact (h.fresh _ p (userPath hla) hw).resolve_left fun hnil => (nomatch hnil)

/-! ## The steps of one page -/

/-- New tables are no copy of anything. -/
theorem kept (h : Copying pmm dst src s₀ done s) (ht : UserTree pmm s' dst) (hk : Kept dst s s') :
    Copying pmm dst src s₀ done s' where
  tree := ht
  used := h.used.trans hk.used
  page g hg hne := (hk.page g (h.used hg) (h.not_isTable hg hne)).trans (h.page g hg hne)
  ref g hg := (hk.ref g (h.used hg)).trans (h.ref g hg)
  fresh q g hq hw := by
    rcases hk.reach q g hq hw with hw | hno
    · exact h.fresh q g hq hw
    · exact .inr fun hg => hno (h.used hg)
  copied la hla hd hdone := by
    refine (content_congr (hk.mapping la hla) fun p perm hm => ?_).trans (h.copied la hla hd hdone)
    obtain ⟨hp, -, hnt⟩ := h.mapped_page hla hm
    exact hk.page p hp hnt
  other la hla hd hdone := (hk.mapping la hla).trans (h.other la hla hd hdone)

/-- A new page is named by no table. -/
theorem take {bytes : ℕ → UInt8} (h : Copying pmm dst src s₀ done s) (hp : p ∉ s.used) :
    Copying pmm dst src s₀ done (taken s p bytes) ∧
      ∀ q, UserPath q → walk (tableNext (taken s p bytes)) dst q ≠ some p := by
  have hpage : ∀ g ∈ s.used, (taken s p bytes).page g = s.page g := fun g hg =>
    Function.update_of_ne (show g ≠ p from fun heq => hp (heq ▸ hg)) ..
  have hused : s.used ⊆ (taken s p bytes).used := Finset.subset_insert ..
  obtain ⟨htree, hwalk, hmap⟩ := h.tree.frame hused
    fun g ⟨q, hq, _, hw⟩ => hpage g (h.tree.used q g hq hw).1
  refine ⟨{
    tree := htree
    used := h.used.trans (Finset.subset_insert ..)
    page := fun g hg hne => (hpage g (h.used hg)).trans (h.page g hg hne)
    ref := h.ref
    fresh := fun q g hq hw => h.fresh q g hq ((hwalk q hq).symm.trans hw)
    copied := fun la hla hd hdone => ?_
    other := fun la hla hd hdone => (hmap la hla).trans (h.other la hla hd hdone) }, fun q hq hw => ?_⟩
  · refine (content_congr (hmap la hla) fun p' perm hm => ?_).trans (h.copied la hla hd hdone)
    exact hpage p' (h.mapped_page hla hm).1
  · rw [hwalk q hq] at hw
    exact hp (h.tree.used q p hq hw).1

/-- **A page is copied**: the page `p`, with the bytes of the page of `la`, is mapped at `la`. -/
theorem inserted (h : Copying pmm dst src s₀ done s) (hla : la < LOWTOP) (hd : PGSIZE ∣ la)
    (hdone : ¬ done la) (hp : p ∈ s.used) (hp₀ : p ∉ s₀.used)
    (hnew : ∀ q, UserPath q → walk (tableNext s) dst q ≠ some p)
    (hi : Inserted pmm dst la p perm s s')
    (hsee : content s₀ src la = some (s.page p, (PTE_V ||| (PTE_V ||| perm)) &&& PTE_USER)) :
    Copying pmm dst src s₀ (fun x => done x ∨ x = la) s' where
  tree := hi.tree
  used := h.used.trans hi.used
  page g hg hne := (hi.page g (h.used hg) (h.not_isTable hg hne)).trans (h.page g hg hne)
  ref g hg := (hi.ref g (h.used hg) fun heq => hp₀ (heq ▸ hg)).trans (h.ref g hg)
  fresh q g hq hw := by
    rcases hi.reach q g hq hw with hw | hno | ⟨-, rfl⟩
    · exact h.fresh q g hq hw
    · exact .inr fun hg => hno (h.used hg)
    · exact .inr hp₀
  copied x hx hdx hdone' := by
    by_cases heq : x = la
    · subst heq
      rw [hsee, content, hi.mapping_self, Option.map_some]
      dsimp only
      rw [hi.page p hp fun ⟨q, hq, _, hw⟩ => hnew q hq hw]
    · have hpath : pathOf x ≠ pathOf la := fun hpath => heq (pathOf_inj hx hla hdx hd hpath)
      refine (content_congr (hi.mapping_ne x hx hpath) fun p' perm' hm => ?_).trans
        (h.copied x hx hdx (hdone'.resolve_right heq))
      obtain ⟨hp', -, hnt⟩ := h.mapped_page hx hm
      exact hi.page p' hp' hnt
  other x hx hdx hdone' := by
    obtain ⟨hnot, hne⟩ := not_or.mp hdone'
    have hpath : pathOf x ≠ pathOf la := fun hpath => hne (pathOf_inj hx hla hdx hd hpath)
    exact (hi.mapping_ne x hx hpath).trans (h.other x hx hdx hnot)

end Copying

/-! ## `copy_range` -/

/-- What has been copied once `la` is. -/
def AndAt (done : ℕ → Prop) (la : ℕ) : ℕ → Prop := fun x => done x ∨ x = la

/-- **One page**: it is copied, or there is no memory for it. -/
theorem Copying.wp_copyOne (h : Copying pmm dst src s₀ done s) (hfresh : pmm.Fresh)
    (hsrc : Source pmm s₀ src dst) (hla : la < LOWTOP) (hd : PGSIZE ∣ la) (hdone : ¬ done la)
    (hv : Valid pte) (hm : mapping s₀ src la = some (pageOf pte, pte &&& PTE_USER)) :
    Act.wp (copyOne pmm dst la pte) (fun ret s' => ret = -E_NO_MEM ∧ s'.starved = true ∨
      ret = 0 ∧ Copying pmm dst src s₀ (AndAt done la) s') (fun e => e = .noPage) s := by
  obtain ⟨hg, hgn⟩ := hsrc.used _ _ (userPath hla) (walk_of_mapping hm)
  have hgne : pageOf pte ≠ dst := fun heq => hsrc.apart _ (userPath hla) (heq ▸ walk_of_mapping hm)
  rw [copyOne, Act.wp_bind]
  refine Act.wp_mono (wp_getPte hfresh h.tree hla) (fun r s₁ h₁ => ?_) fun _ => False.elim
  obtain ⟨ht₁, hk, hr⟩ := h₁
  have hc := h.kept ht₁ hk
  cases r with
  | none => exact .inl ⟨rfl, hr⟩
  | some r =>
    simp only [Act.wp_bind]
    refine wp_pte2page hv hgn (wp_allocPage hfresh rfl fun p hp hpn => ?_)
    simp only [copyPage, Act.wp_bind, Act.wp_modify]
    change Act.wp _ _ _ (taken s₁ p (s₁.page (pageOf pte)))
    obtain ⟨hc', hnew⟩ : Copying pmm dst src _ _ (taken s₁ p (s₁.page (pageOf pte))) ∧ _ := hc.take hp
    have hperm : pte &&& PTE_USER < 1024 :=
      (Nat.and_le_right : pte &&& PTE_USER ≤ PTE_USER).trans_lt (by decide)
    refine Act.wp_mono (wp_pageInsert hfresh hc'.tree hla (hc'.other la hla hd hdone)
      (Finset.mem_insert_self ..) hpn hperm hnew) (fun ret s₂ h₂ => ?_) fun _ => False.elim
    refine h₂.imp_right fun hi => ⟨hi.1, hc'.inserted hla hd hdone
      (Finset.mem_insert_self ..) (fun hp₀ => hp (hc.used hp₀)) hnew hi.2 ?_⟩
    -- the page copied is still the one of before
    have hbytes : (taken s₁ p (s₁.page (pageOf pte))).page p = s₀.page (pageOf pte) :=
      (Function.update_self ..).trans (hc.page _ hg hgne)
    rw [content, hm, Option.map_some, hbytes, copied_perm hv]

/-- What has been copied once the pages from `start` to just below `next` are, and none from `stop`
on. -/
def AndFrom (done : ℕ → Prop) (start next stop : ℕ) : ℕ → Prop :=
  fun la => done la ∨ start ≤ la ∧ la < next ∧ la < stop

/-- Pages with nothing to copy are as good as copied. -/
theorem Copying.skip {next : ℕ} (h : Copying pmm dst src s₀ done s)
    (hnone : ∀ la, la < LOWTOP → PGSIZE ∣ la → start ≤ la → la < next → mapping s₀ src la = none) :
    Copying pmm dst src s₀ (AndFrom done start next stop) s :=
  { h with
    copied := fun la hla hd hdone => by
      by_cases hold : done la
      · exact h.copied la hla hd hold
      · obtain ⟨hge, hlt, -⟩ := hdone.resolve_left hold
        rw [content_eq_none.mpr (hnone la hla hd hge hlt), content_eq_none.mpr (h.other la hla hd hold)]
    other := fun la hla hd hdone => h.other la hla hd fun hold => hdone (.inl hold) }

/-- The pages from one address to the next are one page. -/
theorem eq_of_page (hd : PGSIZE ∣ start) (hdla : PGSIZE ∣ la) (hge : start ≤ la)
    (hlt : la < start + PGSIZE) : la = start := by
  have hd : start % 4096 = 0 := Nat.mod_eq_zero_of_dvd hd
  have hdla : la % 4096 = 0 := Nat.mod_eq_zero_of_dvd hdla
  have hlt : la < start + 4096 := hlt
  omega

/-- The end of a table: the addresses up to it have the same path to their tables. -/
theorem roundDown_table (hstart : start < LOWTOP) :
    start < roundDown (u64 (start + PTSIZE)) PTSIZE ∧
      PGSIZE ∣ roundDown (u64 (start + PTSIZE)) PTSIZE ∧
      ∀ la, start ≤ la → la < roundDown (u64 (start + PTSIZE)) PTSIZE →
        [pdx1 la, pdx0 la] = [pdx1 start, pdx0 start] := by
  have hstart : start < 511 * 2 ^ 30 := hstart
  have hsize : PTSIZE = 2097152 := rfl
  have hadd : u64 (start + 2097152) = start + 2097152 := u64_of_lt (by omega)
  have hround : roundDown (u64 (start + PTSIZE)) PTSIZE = start - start % 2097152 + 2097152 := by
    rw [roundDown, hsize, hadd]
    omega
  rw [hround]
  refine ⟨by omega, (Nat.dvd_iff_mod_eq_zero ..).mpr ?_, fun la hge hlt => ?_⟩
  · change (start - start % 2097152 + 2097152) % 4096 = 0
    omega
  · simp only [pdx1, pdx0, div_eq, List.cons.injEq, and_true]
    omega

/-- **One turn** copies a page, or finds nothing to copy. -/
theorem Copying.wp_copyTurn (h : Copying pmm dst src s₀ done s) (hfresh : pmm.Fresh)
    (hsrc : Source pmm s₀ src dst) (hlt : start < stop) (hstop : stop ≤ USERTOP) (hd : PGSIZE ∣ start)
    (hdone : ¬ done start) :
    Act.wp (copyTurn pmm dst src stop start) (fun r s' => r = .inr (-E_NO_MEM) ∧ s'.starved = true ∨
      ∃ next, r = nextPage next stop ∧ start < next ∧ PGSIZE ∣ next ∧
        Copying pmm dst src s₀ (AndFrom done start next stop) s') (fun e => e = .noPage) s := by
  have hla : start < LOWTOP := hlt.trans_le (hstop.trans USERTOP_le)
  have hpage : u64 (start + PGSIZE) = start + PGSIZE := by
    have hla : start < 511 * 2 ^ 30 := hla
    exact u64_of_lt (show start + 4096 < 2 ^ 64 by omega)
  have hone : PGSIZE ∣ u64 (start + PGSIZE) := by
    rw [hpage]
    exact hd.add dvd_rfl
  have hmore : start < u64 (start + PGSIZE) := by
    rw [hpage]
    exact Nat.lt_add_of_pos_right (by decide)
  rw [copyTurn, Act.wp_bind]
  refine Act.wp_mono (wp_getPte_find (fun q f => h.used_src hsrc) hla) (fun r s₁ h₁ => ?_)
    fun _ => False.elim
  obtain ⟨rfl, hr⟩ := h₁
  rw [h.walk_src hsrc (userPath₂ hla)] at hr
  cases hpt : walk (tableNext s₀) src [pdx1 start, pdx0 start] with
  | none =>
    -- the whole table is missing, and with it every page up to the next one
    rw [hpt] at hr
    rw [hr]
    obtain ⟨hlt', hd', hpath⟩ := roundDown_table hla
    have hnone : ∀ la, la < LOWTOP → PGSIZE ∣ la → start ≤ la →
        la < roundDown (u64 (start + PTSIZE)) PTSIZE → mapping s₀ src la = none :=
      fun la _ _ hge hlt => mapping_of_no_table ((congrArg _ (hpath la hge hlt)).trans hpt)
    rw [Option.map_none, Act.wp_pure]
    exact .inr ⟨roundDown (u64 (start + PTSIZE)) PTSIZE, rfl, hlt', hd', h.skip hnone⟩
  | some pt =>
    rw [hpt] at hr
    rw [hr]
    have hsame : Bytes.word (s₁.page pt) 8 (8 * ptx start) = pteOf s₀ pt (ptx start) := by
      rw [pteOf, h.page pt (hsrc.used _ pt (userPath₂ hla) hpt).1 fun heq =>
        hsrc.apart _ (userPath₂ hla) (heq ▸ hpt)]
    simp only [Option.map_some, entry, Act.wp_bind, Act.wp_get, Act.wp_pure, Act.wp_ite, hsame]
    refine ⟨fun hv => ?_, fun hv => .inr ⟨_, rfl, hmore, hone, h.skip fun la hla' hdla hge hlt => ?_⟩⟩
    · refine Act.wp_mono (h.wp_copyOne hfresh hsrc hla hd hdone hv (mapping_of_entry hpt hv))
        (fun ret s₂ h₂ => ?_) fun _ => id
      rcases h₂ with ⟨rfl, hst⟩ | ⟨rfl, hc⟩
      · exact ⟨fun _ => .inl ⟨rfl, hst⟩, fun hno => absurd (by decide) hno⟩
      · refine ⟨fun hno => absurd rfl hno, fun _ => .inr ⟨_, rfl, hmore, hone, hc.congr
          fun la _ hdla => or_congr_right ⟨fun hin => ?_, ?_⟩⟩⟩
        · exact eq_of_page hd hdla hin.1 (hpage ▸ hin.2.1)
        · rintro rfl
          exact ⟨le_rfl, hmore, hlt⟩
    · obtain rfl := eq_of_page hd hdla hge (hpage ▸ hlt)
      exact mapping_of_not_valid hpt hv

/-- **`copy_range`**: every page of the range is copied, or there is no memory. -/
theorem Copying.wp_copyRange (h : Copying pmm dst src s₀ done s) (hfresh : pmm.Fresh)
    (hsrc : Source pmm s₀ src dst) (haccess : UserAccess start stop) (hd : PGSIZE ∣ start)
    (hdstop : PGSIZE ∣ stop) (hdone : ∀ la, start ≤ la → la < stop → ¬ done la)
    (hfuel : USERTOP / PGSIZE < fuel) :
    Act.wp (copyRange pmm fuel dst src start stop) (fun ret s' =>
      ret = -E_NO_MEM ∧ s'.starved = true ∨
      ret = 0 ∧ Copying pmm dst src s₀ (fun la => done la ∨ start ≤ la ∧ la < stop) s')
      (fun e => e = .noPage) s := by
  have hlt := haccess.2.1
  have hstop := haccess.2.2
  simp only [copyRange, Act.wp_bind, Act.wp_require]
  refine ⟨fun _ => ⟨fun _ => ?_, fun hno => absurd haccess hno⟩,
    fun hno => absurd ⟨Nat.mod_eq_zero_of_dvd hd, Nat.mod_eq_zero_of_dvd hdstop⟩ hno⟩
  refine Act.wp_loop (fun n b s => n = (stop - b) / PGSIZE ∧ start ≤ b ∧ b < stop ∧ PGSIZE ∣ b ∧
    Copying pmm dst src s₀ (AndFrom done start b stop) s) (fun n b s hinv => ?_) fuel
    ((stop - start) / PGSIZE) start s ⟨rfl, le_rfl, hlt, hd, ?_⟩ fun hle => ?_
  · obtain ⟨rfl, hge, hb, hdb, hc⟩ := hinv
    have hnot : ¬ AndFrom done start b stop b := fun hyes => hyes.elim (hdone b hge hb) fun hno =>
      absurd hno.2.1 (lt_irrefl b)
    refine Act.wp_mono (hc.wp_copyTurn hfresh hsrc hb hstop hdb hnot) (fun r s' h' => ?_) fun _ => id
    rcases h' with ⟨rfl, hst⟩ | ⟨next, rfl, hnext, hdnext, hc'⟩
    · exact .inl ⟨rfl, hst⟩
    · have hall : Copying pmm dst src s₀ (AndFrom done start next stop) s' := hc'.congr fun la _ _ => by
        simp only [AndFrom]
        have : b < next := hnext
        constructor
        · rintro (hold | ⟨hla, hlt, hlt'⟩)
          · exact .inl (.inl hold)
          · by_cases hlab : la < b
            · exact .inl (.inr ⟨hla, hlab, hlt'⟩)
            · exact .inr ⟨not_lt.mp hlab, hlt, hlt'⟩
        · rintro ((hold | ⟨hla, hlt, hlt'⟩) | ⟨hla, hlt, hlt'⟩)
          · exact .inl hold
          · exact .inr ⟨hla, hlt.trans hnext, hlt'⟩
          · exact .inr ⟨hge.trans hla, hlt, hlt'⟩
      rw [nextPage]
      split
      · next hgo =>
        refine ⟨_, ?_, rfl, hge.trans hnext.le, hgo.2, hdnext, hall⟩
        have hdb : b % 4096 = 0 := Nat.mod_eq_zero_of_dvd hdb
        have hdnext : next % 4096 = 0 := Nat.mod_eq_zero_of_dvd hdnext
        have hgo := hgo.2
        change (stop - next) / 4096 < (stop - b) / 4096
        omega
      · next hend =>
        have hbeyond : stop ≤ next := by omega
        exact .inr ⟨rfl, hall.congr fun la _ _ => or_congr_right
          ⟨fun hin => ⟨hin.1, hin.2.trans_le hbeyond, hin.2⟩, fun hin => ⟨hin.1, hin.2.2⟩⟩⟩
  · refine h.congr fun la _ _ => ⟨fun hyes => hyes.resolve_right fun hno => ?_, .inl⟩
    exact absurd hno.2.1 (not_lt.mpr hno.1)
  · have hle : fuel ≤ (stop - start) / 4096 := hle
    have hfuel : 0x80000000 / 4096 < fuel := hfuel
    have hstop : stop ≤ 0x80000000 := hstop
    omega

end UCore.Paging
