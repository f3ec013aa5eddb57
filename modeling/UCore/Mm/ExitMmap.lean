import UCore.Mm.UnmapRange

/-!
# Mm/ExitMmap — the end of an address space

    pgdir ──i──▸ pd0 ──j──▸ pt          pgdir ──i──▸ pd0 ──j──▸ ·          pgdir ──i──▸ ·

`exit_mmap` of `kern/mm/vmm.c` takes away the pages of every area, and then gives the tables back, by
`exit_range` of `kern/mm/pmm.c`: a table with no valid entry is freed, and so is the directory over it when
every entry that was looked at had a table.  `put_pgdir` gives back the page directory.
-/

namespace UCore.Paging

open Vmm Radix

/-- `PDSIZE`. -/
abbrev PDSIZE : ℕ := PTSIZE * 512

/-- `NPTEENTRY`. -/
abbrev NPTEENTRY : ℕ := 512

/-- What `exit_range` does about an entry of a directory: the table is freed if it is empty.  The result is
whether there is one. -/
def exitTable (pmm : Pmm) (pd0 d0start : ℕ) : Call Bool := do
  let pde0 ← entry pd0 (pdx0 d0start)
  if Valid pde0 then
    let pt ← pa2page pmm (pteAddr pde0)
    let s ← get
    if ∀ i < NPTEENTRY, ¬ Valid (pteOf s pt i) then
      freePage pt
      setEntry pd0 (pdx0 d0start) 0
    return true
  else
    return false

/-- The end of a turn of the inner loop: `next` is `d1start + PDSIZE`. -/
def nextTable (next stop d0start : ℕ) (freePd0 : Bool) : (ℕ × Bool) ⊕ Bool :=
  if d0start ≠ 0 ∧ d0start < next ∧ d0start < stop then .inl (d0start, freePd0) else .inr freePd0

/-- One turn of the inner loop of `exit_range`, on `d0start` and `free_pd0`. -/
def exitTableTurn (pmm : Pmm) (pd0 d1start stop : ℕ) : ℕ × Bool → Call ((ℕ × Bool) ⊕ Bool)
  | (d0start, freePd0) => do
    let valid ← exitTable pmm pd0 d0start
    return nextTable (u64 (d1start + PDSIZE)) stop (u64 (d0start + PTSIZE)) (freePd0 && valid)

/-- What `exit_range` does about an entry of the page directory. -/
def exitDir (pmm : Pmm) (fuel pgdir d1start d0start stop : ℕ) : Call Unit := do
  let pde1 ← entry pgdir (pdx1 d1start)
  if Valid pde1 then
    let pd0 ← pa2page pmm (pteAddr pde1)
    let freePd0 ← Act.loop .spin (exitTableTurn pmm pd0 d1start stop) fuel (d0start, true)
    if freePd0 = true then
      freePage pd0
      setEntry pgdir (pdx1 d1start) 0

/-- The end of a turn of the outer loop: `d0start` starts where `d1start` does. -/
def nextDir (stop d1start : ℕ) : (ℕ × ℕ) ⊕ Unit :=
  if d1start ≠ 0 ∧ d1start < stop then .inl (d1start, d1start) else .inr ()

/-- One turn of the outer loop, on `d1start` and `d0start`. -/
def exitDirTurn (pmm : Pmm) (fuel pgdir stop : ℕ) : ℕ × ℕ → Call ((ℕ × ℕ) ⊕ Unit)
  | (d1start, d0start) => do
    exitDir pmm fuel pgdir d1start d0start stop
    return nextDir stop (u64 (d1start + PDSIZE))

/-- `exit_range`. -/
def exitRange (pmm : Pmm) (fuel pgdir start stop : ℕ) : Call Unit := do
  Act.require .panic (start % PGSIZE = 0 ∧ stop % PGSIZE = 0)
  Act.require .panic (UserAccess start stop)
  Act.loop .spin (exitDirTurn pmm fuel pgdir stop) fuel (roundDown start PDSIZE, roundDown start PTSIZE)

/-- The first loop of `exit_mmap`… -/
def unmapAreas (pmm : Pmm) (fuel pgdir : ℕ) : List Vma → Call Unit
  | [] => return ()
  | vma :: vmas => do
    unmapRange pmm fuel pgdir vma.vmStart vma.vmEnd
    unmapAreas pmm fuel pgdir vmas

/-- …and the second. -/
def exitAreas (pmm : Pmm) (fuel pgdir : ℕ) : List Vma → Call Unit
  | [] => return ()
  | vma :: vmas => do
    exitRange pmm fuel pgdir vma.vmStart vma.vmEnd
    exitAreas pmm fuel pgdir vmas

/-- `exit_mmap`, of the areas `mm` and the page directory `pgdir`, which `mmCount` processes use. -/
def exitMmap (pmm : Pmm) (fuel : ℕ) (mm : Mm) (mmCount : ℤ) (pgdir : ℕ) : Call Unit := do
  Act.require .panic (mmCount = 0)
  unmapAreas pmm fuel pgdir mm.mmapList
  exitAreas pmm fuel pgdir mm.mmapList

/-- `put_pgdir`. -/
def putPgdir (pgdir : ℕ) : Call Unit := freePage pgdir

variable {pmm : Pmm} {s₀ s s' : Phys} {pgdir la p f g i j k pt pd0 perm start stop fuel d0start d1start : ℕ}
  {q q' : List ℕ} {mm : Mm} {v : Vma} {vmas areas : List Vma}

/-! ## A table is given back -/

/-- The memory with the table `g` freed, under the entry `i` of `f`. -/
def cutTable (s : Phys) (f i g : ℕ) : Phys :=
  { s with
    page := Function.update s.page f (Bytes.putWord (s.page f) 8 (8 * i) 0)
    used := s.used.erase g }

/-- Freeing a table cuts its path off. -/
theorem UserTree.cutTable (ht : UserTree pmm s pgdir) (hq : UserPath (q ++ [i]))
    (hf : walk (tableNext s) pgdir q = some f) (hg : walk (tableNext s) pgdir (q ++ [i]) = some g) :
    CutOff pmm pgdir (q ++ [i]) s (cutTable s f i g) :=
  ht.cutOff hq hf rfl fun _ hx hno => Finset.mem_erase.mpr
    ⟨fun heq => hno _ hq (List.prefix_refl _) (heq ▸ hg), hx⟩

/-- **Tables given back, so far**: tables of the address space, and nothing else. -/
structure Exiting (pmm : Pmm) (pgdir : ℕ) (s₀ s : Phys) : Prop where
  tree : UserTree pmm s pgdir
  less : ∀ q g, UserPath q → walk (tableNext s) pgdir q = some g → walk (tableNext s₀) pgdir q = some g
  used : s.used ⊆ s₀.used
  freed : ∀ g ∈ s₀.used, g ∉ s.used → IsTable s₀ pgdir g ∧ g ≠ pgdir
  page : ∀ g, ¬ IsTable s₀ pgdir g → s.page g = s₀.page g
  ref : s.ref = s₀.ref

theorem Exiting.refl (h : UserTree pmm s pgdir) : Exiting pmm pgdir s s :=
  ⟨h, fun _ _ _ => id, fun _ => id, fun _ hg hno => absurd hg hno, fun _ _ => rfl, rfl⟩

/-- **One table less.** -/
theorem Exiting.cutTable (h : Exiting pmm pgdir s₀ s) (hq : UserPath (q ++ [i])) (hlen : q.length < 2)
    (hf : walk (tableNext s) pgdir q = some f) (hg : walk (tableNext s) pgdir (q ++ [i]) = some g) :
    Exiting pmm pgdir s₀ (cutTable s f i g) := by
  have hcut := h.tree.cutTable hq hf hg
  refine ⟨hcut.tree, fun q' x hq' hw => h.less q' x hq' (hcut.less hq' hw),
    (Finset.erase_subset ..).trans h.used, fun x hx hno => ?_, fun x hx => ?_, h.ref⟩
  · by_cases hxs : x ∈ s.used
    · obtain rfl : x = g := by
        by_contra hne
        exact hno (Finset.mem_erase.mpr ⟨hne, hxs⟩)
      refine ⟨⟨_, hq, by simpa using Nat.succ_lt_succ hlen, h.less _ x hq hg⟩, fun heq => ?_⟩
      have := h.tree.tree.inj _ [] x hq .nil hg (heq ▸ rfl)
      simp at this
    · exact h.freed x hx hxs
  · rw [hcut.page x fun htab => hx <| htab.imp fun q' hq' => ⟨hq'.1, hq'.2.1, h.less q' x hq'.1 hq'.2.2⟩, h.page x hx]

/-! ## `exit_range` -/

/-- **One entry of a directory**: there is no table, or it stays, or it is empty and freed. -/
theorem wp_exitTable (ht : UserTree pmm s pgdir) (hq : UserPath [i, pdx0 d0start])
    (hf : walk (tableNext s) pgdir [i] = some pd0) :
    Act.wp (exitTable pmm pd0 d0start) (fun r s' =>
      walk (tableNext s) pgdir [i, pdx0 d0start] = none ∧ r = false ∧ s' = s ∨
      ∃ pt, walk (tableNext s) pgdir [i, pdx0 d0start] = some pt ∧ r = true ∧
        ((∀ k < NPTEENTRY, tableNext s pt k = none) ∧ s' = cutTable s pd0 (pdx0 d0start) pt ∨
          (∃ k < NPTEENTRY, tableNext s pt k ≠ none) ∧ s' = s)) (fun _ => False) s := by
  have hwalk : walk (tableNext s) pgdir ([i] ++ [pdx0 d0start]) = tableNext s pd0 (pdx0 d0start) := by
    rw [walk_concat, hf, Option.bind_some]
  have hnone : ∀ pt k, tableNext s pt k = none ↔ ¬ Valid (pteOf s pt k) := fun pt k => by
    rw [tableNext]
    split
    · next hv => exact iff_of_false (fun hno => by cases hno) fun hno => hno hv
    · next hv => exact iff_of_true rfl hv
  rw [exitTable, Act.wp_bind, entry, Act.wp_bind, Act.wp_get, Act.wp_pure]
  change Act.wp (if Valid (pteOf s pd0 (pdx0 d0start)) then _ else _) _ _ s
  rw [Act.wp_ite]
  refine ⟨fun hv => ?_, fun hv => .inl ⟨hwalk.trans ((hnone ..).mpr hv), rfl, rfl⟩⟩
  have hpt : walk (tableNext s) pgdir [i, pdx0 d0start] = some (pageOf (pteOf s pd0 (pdx0 d0start))) :=
    hwalk.trans (if_pos hv)
  rw [Act.wp_bind]
  refine wp_table (ht.used _ _ hq hpt).2 ?_
  simp only [Act.wp_bind, Act.wp_get, Act.wp_ite]
  refine ⟨fun hempty => ?_, fun hfull => ?_⟩
  · simp only [freePage, setEntry, Act.wp_modify, Act.wp_pure]
    exact .inr ⟨_, hpt, trivial, .inl ⟨fun k hk => (hnone ..).mpr (hempty k hk), rfl⟩⟩
  · simp only [not_forall] at hfull
    obtain ⟨k, hk, hv'⟩ := hfull
    exact .inr ⟨_, hpt, rfl, .inr ⟨⟨k, hk, fun hno => hv' ((hnone ..).mp hno)⟩, rfl⟩⟩

theorem userPath_one (hi : i < 511) : UserPath [i] :=
  ⟨by simp, fun _ h => Option.some.inj h ▸ hi, fun _ h => by simp at h; omega⟩

theorem userPath_two (hi : i < 511) (hj : j < 512) : UserPath [i, j] :=
  ⟨by simp, fun _ h => Option.some.inj h ▸ hi, fun _ h => by simp at h; omega⟩

theorem userPath_three (hi : i < 511) (hj : j < 512) (hk : k < 512) : UserPath [i, j, k] :=
  ⟨by simp, fun _ h => Option.some.inj h ▸ hi, fun _ h => by simp at h; omega⟩

theorem pdx1_lt (hla : la < LOWTOP) : pdx1 la < 511 := (userPath hla).2.1 _ rfl

theorem pdx0_lt : pdx0 la < 512 := by
  rw [pdx0, div_eq]
  exact Nat.mod_lt _ (by decide)

/-- A turn of the inner loop goes on, or does not… -/
theorem elim_nextTable {next : ℕ} {freePd0 : Bool} {P : ℕ × Bool → Prop} {Q : Bool → Prop}
    (hP : d0start < stop → P (d0start, freePd0)) (hQ : Q freePd0) :
    (nextTable next stop d0start freePd0).elim P Q := by
  rw [nextTable]
  split
  · next hgo => exact hP hgo.2.2
  · exact hQ

/-- …and so does one of the outer loop. -/
theorem elim_nextDir {P : ℕ × ℕ → Prop} {Q : Unit → Prop} (hP : d1start < stop → P (d1start, d1start))
    (hQ : Q ()) : (nextDir stop d1start).elim P Q := by
  rw [nextDir]
  split
  · next hgo => exact hP hgo.2
  · exact hQ

theorem dvd_PTSIZE : PGSIZE ∣ PTSIZE := ⟨512, rfl⟩

theorem dvd_PDSIZE : PGSIZE ∣ PDSIZE := dvd_PTSIZE.mul_right 512

/-- The next table… -/
theorem add_PTSIZE (hla : la < USERTOP) (hd : PGSIZE ∣ la) :
    la < u64 (la + PTSIZE) ∧ PGSIZE ∣ u64 (la + PTSIZE) := by
  have hla : la < 0x80000000 := hla
  have hsize : PTSIZE = 2097152 := rfl
  have hnext : u64 (la + PTSIZE) = la + PTSIZE := u64_of_lt (by omega)
  rw [hnext]
  exact ⟨by omega, hd.add dvd_PTSIZE⟩

/-- …and the next directory. -/
theorem add_PDSIZE (hla : la < USERTOP) (hd : PGSIZE ∣ la) :
    la < u64 (la + PDSIZE) ∧ PGSIZE ∣ u64 (la + PDSIZE) := by
  have hla : la < 0x80000000 := hla
  have hsize : PDSIZE = 1073741824 := rfl
  have hnext : u64 (la + PDSIZE) = la + PDSIZE := u64_of_lt (by omega)
  rw [hnext]
  exact ⟨by omega, hd.add dvd_PDSIZE⟩

attribute [local irreducible] u64

/-- The inner loop gives tables back. -/
theorem Exiting.wp_exitTables (h : Exiting pmm pgdir s₀ s) (hi : i < 511)
    (hf : walk (tableNext s) pgdir [i] = some pd0) (hstop : stop ≤ USERTOP) (hlt : d0start < stop)
    (hd : PGSIZE ∣ d0start) (hfuel : USERTOP / PGSIZE < fuel) :
    Act.wp (Act.loop .spin (exitTableTurn pmm pd0 d1start stop) fuel (d0start, true))
      (fun _ s' => Exiting pmm pgdir s₀ s' ∧ walk (tableNext s') pgdir [i] = some pd0) (fun _ => False) s := by
  refine wp_rangeLoop Prod.fst (fun _ s => Exiting pmm pgdir s₀ s ∧ walk (tableNext s) pgdir [i] = some pd0)
    (fun b s hb hdb hinv => ?_) hlt hd ((Nat.div_le_div_right hstop).trans_lt hfuel) ⟨h, hf⟩
  obtain ⟨d0, freePd0⟩ := b
  obtain ⟨hex, hw⟩ := hinv
  have hpath : UserPath ([i] ++ [pdx0 d0]) := userPath_two hi pdx0_lt
  rw [exitTableTurn, Act.wp_bind]
  refine Act.wp_mono (wp_exitTable hex.tree hpath hw) (fun valid s' hs' => ?_) fun _ => id
  have hkeep : Exiting pmm pgdir s₀ s' ∧ walk (tableNext s') pgdir [i] = some pd0 := by
    rcases hs' with ⟨-, -, rfl⟩ | ⟨pt, hpt, -, ⟨-, rfl⟩ | ⟨-, rfl⟩⟩
    · exact ⟨hex, hw⟩
    · refine ⟨hex.cutTable hpath (by simp) hw hpt, ?_⟩
      rw [(hex.tree.cutTable hpath hw hpt).kept [i] (userPath_one hi) fun hpre => by simpa using hpre.length_le,
        hw]
    · exact ⟨hex, hw⟩
  have hb : d0 < stop := hb
  have hnext := add_PTSIZE (hb.trans_le hstop) hdb
  rw [Act.wp_pure]
  exact elim_nextTable (fun hgo => ⟨hnext.1, hgo, hnext.2, hkeep⟩) hkeep

/-- One entry of the page directory. -/
theorem Exiting.wp_exitDir (h : Exiting pmm pgdir s₀ s) (hla : d1start < LOWTOP) (hstop : stop ≤ USERTOP)
    (hlt : d0start < stop) (hd : PGSIZE ∣ d0start) (hfuel : USERTOP / PGSIZE < fuel) :
    Act.wp (exitDir pmm fuel pgdir d1start d0start stop) (fun _ s' => Exiting pmm pgdir s₀ s')
      (fun _ => False) s := by
  have hi := pdx1_lt hla
  have hwalk : walk (tableNext s) pgdir [pdx1 d1start] = tableNext s pgdir (pdx1 d1start) :=
    walk_concat _ pgdir [] _
  rw [exitDir, Act.wp_bind, entry, Act.wp_bind, Act.wp_get, Act.wp_pure]
  change Act.wp (if Valid (pteOf s pgdir (pdx1 d1start)) then _ else _) _ _ s
  rw [Act.wp_ite]
  refine ⟨fun hv => ?_, fun _ => h⟩
  have hpd0 : walk (tableNext s) pgdir [pdx1 d1start] = some (pageOf (pteOf s pgdir (pdx1 d1start))) :=
    hwalk.trans (if_pos hv)
  rw [Act.wp_bind]
  refine wp_table (h.tree.used _ _ (userPath_one hi) hpd0).2 ?_
  rw [Act.wp_bind]
  refine Act.wp_mono (h.wp_exitTables hi hpd0 hstop hlt hd hfuel) (fun freePd0 s₁ h₁ => ?_) fun _ => id
  rw [Act.wp_ite]
  refine ⟨fun _ => ?_, fun _ => h₁.1⟩
  simp only [freePage, setEntry, Act.wp_bind, Act.wp_modify]
  exact h₁.1.cutTable (q := []) (userPath_one hi) (by simp) rfl h₁.2

/-- **`exit_range`** gives back tables of the address space, and nothing else. -/
theorem Exiting.wp_exitRange (h : Exiting pmm pgdir s₀ s) (haccess : UserAccess start stop)
    (hd : PGSIZE ∣ start) (hdstop : PGSIZE ∣ stop) (hfuel : USERTOP / PGSIZE < fuel) :
    Act.wp (exitRange pmm fuel pgdir start stop) (fun _ s' => Exiting pmm pgdir s₀ s') (fun _ => False) s := by
  have hstop := haccess.2.2
  have hdown : ∀ n, PGSIZE ∣ n → roundDown start n < stop ∧ PGSIZE ∣ roundDown start n := fun n hn =>
    ⟨(roundDown_le start n).trans_lt haccess.2.1, hn.trans (dvd_roundDown ..)⟩
  simp only [exitRange, Act.wp_bind, Act.wp_require]
  refine ⟨fun _ => ⟨fun _ => ?_, fun hno => absurd haccess hno⟩,
    fun hno => absurd ⟨Nat.mod_eq_zero_of_dvd hd, Nat.mod_eq_zero_of_dvd hdstop⟩ hno⟩
  refine wp_rangeLoop Prod.fst (fun b s => Exiting pmm pgdir s₀ s ∧ b.2 < stop ∧ PGSIZE ∣ b.2)
    (fun b s hb hdb hinv => ?_) (hdown PDSIZE dvd_PDSIZE).1 (hdown PDSIZE dvd_PDSIZE).2
    ((Nat.div_le_div_right haccess.2.2).trans_lt hfuel) ⟨h, hdown PTSIZE dvd_PTSIZE⟩
  obtain ⟨d1, d0⟩ := b
  obtain ⟨hex, hd0, hdd0⟩ := hinv
  have hd1 : d1 < stop := hb
  rw [exitDirTurn, Act.wp_bind]
  refine Act.wp_mono (hex.wp_exitDir (hd1.trans_le (haccess.2.2.trans USERTOP_le)) haccess.2.2 hd0 hdd0 hfuel)
    (fun _ s' hs' => ?_) fun _ => id
  have hnext := add_PDSIZE (hd1.trans_le hstop) hdb
  rw [Act.wp_pure]
  exact elim_nextDir (fun hgo => ⟨hnext.1, hgo, hnext.2, hs', hgo, hnext.2⟩) hs'

/-! ## `exit_mmap` -/

theorem inAreas_concat : InAreas (areas ++ [v]) la ↔ InAreas areas la ∨ v.vmStart ≤ la ∧ la < v.vmEnd := by
  simp only [InAreas, List.mem_append, List.mem_singleton, or_and_right, exists_or, exists_eq_left]
  rfl

/-- **The first loop** takes the pages of the areas away, one area after the other. -/
theorem Unmapping.wp_unmapAreas (h : Unmapping pmm pgdir s₀ (InAreas areas) s) (ht₀ : UserTree pmm s₀ pgdir)
    (hmm : UserAreas mm) (hlist : mm.mmapList = areas ++ vmas) (hfuel : USERTOP / PGSIZE < fuel) :
    Act.wp (unmapAreas pmm fuel pgdir vmas) (fun _ s' => Unmapping pmm pgdir s₀ (InAreas mm.mmapList) s')
      (fun _ => False) s := by
  induction vmas generalizing areas s with
  | nil => exact (hlist.trans (List.append_nil _)) ▸ h
  | cons v vmas ih =>
    have hv : v ∈ mm.mmapList := hlist ▸ List.mem_append_right _ List.mem_cons_self
    have hapart : ∀ la, v.vmStart ≤ la → la < v.vmEnd → ¬ InAreas areas la := by
      rintro la hge - ⟨x, hx, -, hlt⟩
      have hsorted := hmm.valid.sorted.apart
      rw [hlist] at hsorted
      have hbefore := (List.pairwise_append.mp hsorted).2.2 x hx v List.mem_cons_self
      exact absurd (hlt.trans_le (hbefore.trans hge)) (lt_irrefl la)
    rw [unmapAreas, Act.wp_bind]
    refine Act.wp_mono (h.wp_unmapRange ht₀ (hmm.access v hv) (hmm.start v hv) (hmm.stop v hv) hapart hfuel)
      (fun _ s₁ h₁ => ?_) fun _ => id
    exact ih (h₁.congr fun _ _ _ => inAreas_concat) (by rw [hlist, List.append_assoc, List.singleton_append])

/-- **The second loop** gives tables back. -/
theorem Exiting.wp_exitAreas (h : Exiting pmm pgdir s₀ s) (hmm : UserAreas mm) (hsub : vmas ⊆ mm.mmapList)
    (hfuel : USERTOP / PGSIZE < fuel) :
    Act.wp (exitAreas pmm fuel pgdir vmas) (fun _ s' => Exiting pmm pgdir s₀ s') (fun _ => False) s := by
  induction vmas generalizing s with
  | nil => exact h
  | cons v vmas ih =>
    obtain ⟨hv, hsub⟩ := List.cons_subset.mp hsub
    rw [exitAreas, Act.wp_bind]
    exact Act.wp_mono (h.wp_exitRange (hmm.access v hv) (hmm.start v hv) (hmm.stop v hv) hfuel)
      (fun _ s₁ h₁ => ih h₁ hsub) fun _ => id

/-- **An address space at its end**: no user address is mapped.  Its pages have lost a reference each, and are free if
that was their last; tables of its own are freed, and nothing else; and nothing else is changed. -/
structure TornDown (pmm : Pmm) (pgdir : ℕ) (s s' : Phys) : Prop where
  tree : UserTree pmm s' pgdir
  bare : ∀ la, la < LOWTOP → mapping s' pgdir la = none
  used : s'.used ⊆ s.used
  dropped : ∀ la p perm, la < LOWTOP → mapping s pgdir la = some (p, perm) →
    s'.ref p = s.ref p - 1 ∧ (p ∈ s'.used ↔ s.ref p ≠ 1)
  freed : ∀ g ∈ s.used, g ∉ s'.used →
    (∃ la perm, la < LOWTOP ∧ mapping s pgdir la = some (g, perm)) ∨ IsTable s pgdir g ∧ g ≠ pgdir
  ref : ∀ g, (∀ la perm, la < LOWTOP → mapping s pgdir la ≠ some (g, perm)) → s'.ref g = s.ref g
  page : ∀ g, ¬ IsTable s pgdir g → s'.page g = s.page g

/-- With the pages gone, giving tables back ends the address space. -/
theorem Exiting.tornDown (h : Exiting pmm pgdir s₀ s') (hun : Unmapped pmm pgdir s (InAreas areas) s₀)
    (ht : UserTree pmm s pgdir) (hin : ∀ la, la < LOWTOP → mapping s pgdir la ≠ none → InAreas areas la)
    (htables : ∀ g, IsTable s₀ pgdir g → IsTable s pgdir g) : TornDown pmm pgdir s s' := by
  have hin' : ∀ la p perm, la < LOWTOP → mapping s pgdir la = some (p, perm) → InAreas areas la :=
    fun la p perm hla hm => hin la hla fun hno => by cases hno.symm.trans hm
  refine ⟨h.tree, fun la hla => ?_, fun g hg => ?_, fun la p perm hla hm => ?_, fun g hg hno => ?_,
    fun g hno => ?_, fun g hg => ?_⟩
  · have hbare : mapping s₀ pgdir la = none := by
      by_cases hdone : InAreas areas la
      · exact hun.gone la hla hdone
      · rw [hun.kept la hla hdone]
        by_contra hno
        exact hdone (hin la hla hno)
    rw [mapping_eq_none] at hbare ⊢
    by_contra hno
    obtain ⟨g, hw⟩ := Option.ne_none_iff_exists'.mp hno
    cases hbare.symm.trans (h.less _ g (userPath hla) hw)
  · have hg₀ := h.used hg
    by_cases hmap : ∃ la perm, la < LOWTOP ∧ InAreas areas la ∧ mapping s pgdir la = some (g, perm)
    · obtain ⟨la, perm, hla, -, hm⟩ := hmap
      exact (ht.used _ g (userPath hla) (walk_of_mapping hm)).1
    · exact ((hun.others g fun la perm hla hdone hm => hmap ⟨la, perm, hla, hdone, hm⟩).2).mp hg₀
  · obtain ⟨href, hused⟩ := hun.dropped la p perm hla (hin' la p perm hla hm) hm
    refine ⟨h.ref ▸ href, ⟨fun hp => hused.mp (h.used hp), fun hmore => ?_⟩⟩
    by_contra hno
    -- a page that was mapped is no table
    exact ht.not_isTable hla (walk_of_mapping hm) (htables p (h.freed p (hused.mpr hmore) hno).1)
  · by_cases hg₀ : g ∈ s₀.used
    · exact .inr ((h.freed g hg₀ hno).imp_left (htables g))
    · by_contra hmap
      obtain ⟨hmap, -⟩ := not_or.mp hmap
      exact hg₀ ((hun.others g fun la perm hla _ hm => hmap ⟨la, perm, hla, hm⟩).2.mpr hg)
  · rw [h.ref]
    exact (hun.others g fun la perm hla _ => hno la perm hla).1
  · rw [h.page g fun htab => hg (htables g htab), hun.page g hg]

/-- `exit_mmap` is its second loop, on the memory without the pages of the areas. -/
theorem wp_exitMmap_of {Q : Phys → Prop} (ht : UserTree pmm s pgdir) (hmm : UserAreas mm)
    (hfuel : USERTOP / PGSIZE < fuel) (h : ∀ s₁, Unmapping pmm pgdir s (InAreas mm.mmapList) s₁ →
      Act.wp (exitAreas pmm fuel pgdir mm.mmapList) (fun _ s' => Q s') (fun _ => False) s₁) :
    Act.wp (exitMmap pmm fuel mm 0 pgdir) (fun _ s' => Q s') (fun _ => False) s := by
  have hnone : Unmapping pmm pgdir s (InAreas []) s :=
    (Unmapping.refl ht).congr fun _ _ _ => iff_of_false (fun hin => hin.elim fun _ hv => by cases hv.1) id
  simp only [exitMmap, Act.wp_bind, Act.wp_require]
  refine ⟨fun _ => ?_, fun hno => absurd trivial hno⟩
  exact Act.wp_mono (hnone.wp_unmapAreas ht hmm rfl hfuel) (fun _ s₁ h₁ => h s₁ h₁) fun _ => id

/-- What the two loops leave. -/
theorem Unmapping.tornDown (h : Unmapping pmm pgdir s (InAreas mm.mmapList) s₀) (hex : Exiting pmm pgdir s₀ s')
    (ht : UserTree pmm s pgdir) (hmm : UserAreas mm)
    (hin : ∀ la, la < LOWTOP → mapping s pgdir la ≠ none → InAreas mm.mmapList la) : TornDown pmm pgdir s s' :=
  hex.tornDown (h.unmapped fun _ => exists_congr fun _ => and_congr_right fun hv => hmm.holds_roundDown hv) ht hin
    fun _ htab => htab.imp fun q hq => ⟨hq.1, hq.2.1, (h.tables q hq.1 hq.2.1).symm.trans hq.2.2⟩

/-- An address of `parent` that maps to something is in the area. -/
theorem parent_inAreas (la : ℕ) (hla : la < LOWTOP) (hm : mapping parent.phys 1 la ≠ none) :
    InAreas parentMm.mmapList la := by
  obtain ⟨⟨p, perm⟩, hm⟩ := Option.ne_none_iff_exists'.mp hm
  rcases parent_walk (userPath hla) (walk_of_mapping hm) with ⟨h, -⟩ | ⟨h, -⟩ | ⟨h, -⟩ | ⟨h, -⟩
  · simp [pathOf] at h
  · simp [pathOf] at h
  · simp [pathOf] at h
  · have hla : la < 511 * 2 ^ 30 := hla
    simp only [pathOf, pdx1, pdx0, ptx, div_eq, List.cons.injEq, and_true] at h
    exact ⟨_, List.mem_cons_self, show 0x200000 ≤ la ∧ la < 0x201000 by omega⟩

/-- **Areas that need one table a gigabyte.** -/
structure Compact (areas : List Vma) : Prop where
  chunk : ∀ v ∈ areas, v.vmStart / PTSIZE = (v.vmEnd - 1) / PTSIZE
  alone : ∀ v ∈ areas, ∀ v' ∈ areas, pdx1 v.vmStart = pdx1 v'.vmStart → pdx0 v.vmStart = pdx0 v'.vmStart

/-- **Every table leads to a page.** -/
def Filled (s : Phys) (pgdir : ℕ) : Prop := ∀ q, UserPath q → q ≠ [] → q.length < 3 →
  walk (tableNext s) pgdir q ≠ none → ∃ la < LOWTOP, q <+: pathOf la ∧ mapping s pgdir la ≠ none

/-- **The tables of some areas are back**, and the others are as they were. -/
structure Emptying (pmm : Pmm) (pgdir : ℕ) (s₀ : Phys) (areas : List Vma) (s : Phys) : Prop where
  exiting : Exiting pmm pgdir s₀ s
  freed : ∀ v ∈ areas, ∀ q g, UserPath (pdx1 v.vmStart :: q) →
    walk (tableNext s₀) pgdir (pdx1 v.vmStart :: q) = some g → g ∉ s.used
  cut : ∀ v ∈ areas, walk (tableNext s) pgdir [pdx1 v.vmStart] = none
  kept : ∀ i q, UserPath (i :: q) → (∀ v ∈ areas, pdx1 v.vmStart ≠ i) →
    walk (tableNext s) pgdir (i :: q) = walk (tableNext s₀) pgdir (i :: q)

/-- **A tree of tables alone**, one under each directory, where the areas `all` are. -/
structure OneTable (pgdir : ℕ) (all : List Vma) (s₀ : Phys) : Prop where
  bare : ∀ i j k, UserPath [i, j, k] → walk (tableNext s₀) pgdir [i, j, k] = none
  filled : ∀ i < 511, walk (tableNext s₀) pgdir [i] ≠ none → ∃ j < 512, walk (tableNext s₀) pgdir [i, j] ≠ none
  covered : ∀ i j, UserPath [i, j] → walk (tableNext s₀) pgdir [i, j] ≠ none →
    ∃ v ∈ all, pdx1 v.vmStart = i ∧ pdx0 v.vmStart = j

/-- The one table under the directory of an area is the area's… -/
theorem OneTable.eq_of_walk (h : OneTable pgdir areas s₀) (hcompact : Compact areas) (hv : v ∈ areas)
    (hi : pdx1 v.vmStart < 511) (hj : j < 512) (hw : walk (tableNext s₀) pgdir [pdx1 v.vmStart, j] ≠ none) :
    j = pdx0 v.vmStart := by
  obtain ⟨x, hx, h₁, rfl⟩ := h.covered _ j (userPath_two hi hj) hw
  exact hcompact.alone x hx v hv h₁

/-- …and is there when the directory is. -/
theorem OneTable.exists_table (h : OneTable pgdir areas s₀) (hcompact : Compact areas) (hv : v ∈ areas)
    (hi : pdx1 v.vmStart < 511) (hw : walk (tableNext s₀) pgdir [pdx1 v.vmStart] ≠ none) :
    ∃ pt, walk (tableNext s₀) pgdir [pdx1 v.vmStart, pdx0 v.vmStart] = some pt := by
  obtain ⟨j, hj, hw⟩ := h.filled _ hi hw
  obtain rfl := h.eq_of_walk hcompact hv hi hj hw
  exact Option.ne_none_iff_exists'.mp hw

/-- An area within one table has its start's indices. -/
theorem pdx_of_chunk (h : v.vmStart / PTSIZE = (v.vmEnd - 1) / PTSIZE) (hla : v.vmStart ≤ la) (hlt : la < v.vmEnd) :
    pdx1 la = pdx1 v.vmStart ∧ pdx0 la = pdx0 v.vmStart := by
  have hsize : PTSIZE = 2097152 := rfl
  rw [hsize] at h
  simp only [pdx1, pdx0, div_eq]
  omega

/-- **Every path of three** is the path of an address. -/
theorem exists_pathOf (hq : UserPath [i, j, k]) : ∃ la < LOWTOP, pathOf la = [i, j, k] := by
  have hi : i < 511 := hq.2.1 i rfl
  have hj : j < 512 := hq.2.2 j (by simp)
  have hk : k < 512 := hq.2.2 k (by simp)
  refine ⟨i * 2 ^ 30 + j * 2 ^ 21 + k * 2 ^ 12, show _ < 511 * 2 ^ 30 by omega, ?_⟩
  simp only [pathOf, pdx1, pdx0, ptx, div_eq, List.cons.injEq, and_true]
  omega

/-- With the pages gone, the tables are such a tree. -/
theorem Unmapping.oneTable (h : Unmapping pmm pgdir s (InAreas areas) s₀) (hcompact : Compact areas)
    (hfilled : Filled s pgdir) (hbare : ∀ la, la < LOWTOP → mapping s₀ pgdir la = none)
    (hin : ∀ la, la < LOWTOP → mapping s pgdir la ≠ none → InAreas areas la) : OneTable pgdir areas s₀ := by
  have htable : ∀ la, mapping s pgdir la ≠ none → walk (tableNext s) pgdir [pdx1 la, pdx0 la] ≠ none :=
    fun la hm hno => hm (mapping_of_no_table hno)
  refine ⟨fun i j k hq => ?_, fun i hi hw => ?_, fun i j hq hw => ?_⟩
  · obtain ⟨la, hla, hpath⟩ := exists_pathOf hq
    exact hpath ▸ mapping_eq_none.mp (hbare la hla)
  · rw [h.tables [i] (userPath_one hi) (by simp)] at hw
    obtain ⟨la, hla, hpre, hm⟩ := hfilled [i] (userPath_one hi) (by simp) (by simp) hw
    obtain rfl : i = pdx1 la := by simpa [pathOf] using hpre
    exact ⟨pdx0 la, pdx0_lt, by rw [h.tables _ (userPath₂ hla) (by simp)]; exact htable la hm⟩
  · rw [h.tables _ hq (by simp)] at hw
    obtain ⟨la, hla, hpre, hm⟩ := hfilled [i, j] hq (by simp) (by simp) hw
    obtain ⟨rfl, rfl⟩ : i = pdx1 la ∧ j = pdx0 la := by simpa [pathOf] using hpre
    obtain ⟨v, hv, hge, hlt⟩ := hin la hla hm
    obtain ⟨h₁, h₀⟩ := pdx_of_chunk (hcompact.chunk v hv) hge hlt
    exact ⟨v, hv, h₁.symm, h₀.symm⟩

/-- A loop of one turn. -/
theorem wp_loop_once {α β : Type} {turn : β → Call (β ⊕ α)} {b : β} {Q : α → Phys → Prop} {E : Fault → Prop}
    (hfuel : 0 < fuel) (h : Act.wp (turn b) (fun r s' => r.elim (fun _ => False) (Q · s')) E s) :
    Act.wp (Act.loop .spin turn fuel b) Q E s := by
  obtain ⟨n, rfl⟩ := Nat.exists_eq_succ_of_ne_zero hfuel.ne'
  rw [Act.loop, Act.wp_bind]
  refine Act.wp_mono h (fun r s' hr => ?_) fun _ => id
  cases r with
  | inl b' => exact hr.elim
  | inr a => exact hr

/-- In an area within one table there is one entry to look at… -/
theorem wp_exitTables_chunk {Q : Bool → Phys → Prop} {E : Fault → Prop} (hfuel : 0 < fuel)
    (hend : ¬ u64 (d0start + PTSIZE) < stop) (h : Act.wp (exitTable pmm pd0 d0start) Q E s) :
    Act.wp (Act.loop .spin (exitTableTurn pmm pd0 d1start stop) fuel (d0start, true)) Q E s := by
  refine wp_loop_once hfuel ?_
  rw [exitTableTurn, Act.wp_bind]
  refine Act.wp_mono h (fun valid s' hs' => ?_) fun _ => id
  rw [Act.wp_pure]
  exact elim_nextTable (fun hgo => absurd hgo hend) hs'

/-- …of one directory. -/
theorem wp_exitRange_chunk {Q : Unit → Phys → Prop} {E : Fault → Prop} (hfuel : 0 < fuel)
    (haccess : UserAccess start stop) (hd : PGSIZE ∣ start) (hdstop : PGSIZE ∣ stop)
    (hend : ¬ u64 (roundDown start PDSIZE + PDSIZE) < stop)
    (h : Act.wp (exitDir pmm fuel pgdir (roundDown start PDSIZE) (roundDown start PTSIZE) stop) Q E s) :
    Act.wp (exitRange pmm fuel pgdir start stop) Q E s := by
  simp only [exitRange, Act.wp_bind, Act.wp_require]
  refine ⟨fun _ => ⟨fun _ => wp_loop_once hfuel ?_, fun hno => absurd haccess hno⟩,
    fun hno => absurd ⟨Nat.mod_eq_zero_of_dvd hd, Nat.mod_eq_zero_of_dvd hdstop⟩ hno⟩
  rw [exitDirTurn, Act.wp_bind]
  refine Act.wp_mono h (fun _ s' hs' => ?_) fun _ => id
  rw [Act.wp_pure]
  exact elim_nextDir (fun hgo => absurd hgo hend) hs'

/-- The one directory and the one table of an area. -/
theorem roundDown_chunk (haccess : UserAccess start stop) (h : start / PTSIZE = (stop - 1) / PTSIZE) :
    ¬ u64 (roundDown start PTSIZE + PTSIZE) < stop ∧ ¬ u64 (roundDown start PDSIZE + PDSIZE) < stop ∧
      pdx0 (roundDown start PTSIZE) = pdx0 start ∧ pdx1 (roundDown start PDSIZE) = pdx1 start := by
  have hpt : PTSIZE = 2097152 := rfl
  have hpd : PDSIZE = 1073741824 := rfl
  have hstop : stop ≤ 0x80000000 := haccess.2.2
  have hlt : start < stop := haccess.2.1
  rw [hpt] at h
  simp only [roundDown, hpt, hpd, pdx1, pdx0, div_eq]
  rw [u64_of_lt (show start - start % 2097152 + 2097152 < 2 ^ 64 by omega),
    u64_of_lt (show start - start % 1073741824 + 1073741824 < 2 ^ 64 by omega)]
  omega

/-- The table and the directory of an area are freed. -/
theorem Emptying.cutBoth (h : Emptying pmm pgdir s₀ areas s) (hone : OneTable pgdir mm.mmapList s₀)
    (hlow : ∀ x ∈ areas, x.vmStart < LOWTOP) (hi : i < 511) (hj : j < 512)
    (hnew : ∀ x ∈ areas, pdx1 x.vmStart ≠ i) (hvi : pdx1 v.vmStart = i)
    (honly : ∀ j' < 512, walk (tableNext s₀) pgdir [i, j'] ≠ none → j' = j)
    (hpd0 : walk (tableNext s) pgdir [i] = some pd0) (hpt : walk (tableNext s) pgdir [i, j] = some pt) :
    Emptying pmm pgdir s₀ (v :: areas) (cutTable (cutTable s pd0 j pt) pgdir i pd0) := by
  have hpath : UserPath ([i] ++ [j]) := userPath_two hi hj
  have hcut := h.exiting.tree.cutTable hpath hpd0 hpt
  have hex := h.exiting.cutTable hpath (by simp) hpd0 hpt
  have hpd0' : walk (tableNext (cutTable s pd0 j pt)) pgdir [i] = some pd0 := by
    rw [hcut.kept [i] (userPath_one hi) fun hpre => by simpa using hpre.length_le, hpd0]
  have hpath' : UserPath ([] ++ [i]) := userPath_one hi
  have hcut' := hex.tree.cutTable hpath' rfl hpd0'
  have hex' := hex.cutTable hpath' (by simp) rfl hpd0'
  have hsame : ∀ q, UserPath (i :: q) → walk (tableNext s) pgdir (i :: q) = walk (tableNext s₀) pgdir (i :: q) :=
    fun q hq => h.kept i q hq hnew
  have hused : ∀ g, g ∈ (cutTable (cutTable s pd0 j pt) pgdir i pd0).used ↔ g ≠ pd0 ∧ g ≠ pt ∧ g ∈ s.used :=
    fun g => by rw [cutTable, cutTable, Finset.mem_erase, Finset.mem_erase]
  refine ⟨hex', fun x hx q g hq hw => ?_, fun x hx => ?_, fun i' q hq hno => ?_⟩
  · rw [hused]
    rintro ⟨hne, hne', hg⟩
    rcases List.mem_cons.mp hx with rfl | hx
    · rw [hvi] at hq hw
      rcases q with _ | ⟨j', _ | ⟨k, _ | ⟨l, q⟩⟩⟩
      · rw [← hsame [] hq, hpd0] at hw
        exact hne (Option.some.inj hw).symm
      · obtain rfl := honly j' (hq.2.2 j' (by simp)) fun hno => by cases hno.symm.trans hw
        rw [← hsame [j'] hq, hpt] at hw
        exact hne' (Option.some.inj hw).symm
      · cases (hone.bare i j' k hq).symm.trans hw
      · exact absurd hq not_userPath_four
    · exact h.freed x hx q g hq hw hg
  · rcases List.mem_cons.mp hx with rfl | hx
    · rw [hvi]
      exact hcut'.gone [i] (userPath_one hi) (List.prefix_refl _)
    · by_contra hno
      obtain ⟨g, hg⟩ := Option.ne_none_iff_exists'.mp hno
      have hx' : UserPath [pdx1 x.vmStart] := userPath_one (pdx1_lt (hlow x hx))
      cases (h.cut x hx).symm.trans (hcut.less hx' (hcut'.less hx' hg))
  · have hne : i ≠ i' := fun heq => hno v List.mem_cons_self (hvi.trans heq)
    have hpre : ∀ r, ¬ i :: r <+: i' :: q := fun r hpre => hne (List.cons_prefix_cons.mp hpre).1
    rw [hcut'.kept _ hq (hpre []), hcut.kept _ hq (hpre [j])]
    exact h.kept i' q hq fun x hx => hno x (List.mem_cons_of_mem _ hx)

/-- An area without a directory has no tables, or they are back already. -/
theorem Emptying.cons_of_none (h : Emptying pmm pgdir s₀ areas s) (hi : pdx1 v.vmStart < 511)
    (hnone : walk (tableNext s) pgdir [pdx1 v.vmStart] = none) : Emptying pmm pgdir s₀ (v :: areas) s := by
  refine ⟨h.exiting, fun x hx q g hq hw => ?_, fun x hx => ?_, fun i q hq hno =>
    h.kept i q hq fun x hx => hno x (List.mem_cons_of_mem _ hx)⟩
  · rcases List.mem_cons.mp hx with rfl | hx
    · by_cases hold : ∃ y ∈ areas, pdx1 y.vmStart = pdx1 x.vmStart
      · obtain ⟨y, hy, hyx⟩ := hold
        exact h.freed y hy q g (hyx.symm ▸ hq) (hyx.symm ▸ hw)
      · have hold : ∀ y ∈ areas, pdx1 y.vmStart ≠ pdx1 x.vmStart := fun y hy heq => hold ⟨y, hy, heq⟩
        rw [h.kept _ [] (userPath_one hi) hold] at hnone
        have hsplit := walk_append (tableNext s₀) pgdir [pdx1 x.vmStart] q
        rw [hnone, Option.bind_none] at hsplit
        cases hsplit.symm.trans hw
    · exact h.freed x hx q g hq hw
  · rcases List.mem_cons.mp hx with rfl | hx
    · exact hnone
    · exact h.cut x hx

/-- **The tables of one area more.** -/
theorem Emptying.wp_exitRange (h : Emptying pmm pgdir s₀ areas s) (hone : OneTable pgdir mm.mmapList s₀)
    (hcompact : Compact mm.mmapList) (hmm : UserAreas mm) (hsub : areas ⊆ mm.mmapList) (hv : v ∈ mm.mmapList)
    (hfuel : 0 < fuel) :
    Act.wp (exitRange pmm fuel pgdir v.vmStart v.vmEnd) (fun _ s' => Emptying pmm pgdir s₀ (v :: areas) s')
      (fun _ => False) s := by
  have hlow : ∀ x ∈ mm.mmapList, x.vmStart < LOWTOP := fun x hx =>
    ((hmm.access x hx).2.1.trans_le (hmm.access x hx).2.2).trans_le USERTOP_le
  have hi : pdx1 v.vmStart < 511 := pdx1_lt (hlow v hv)
  obtain ⟨hend₀, hend₁, hx₀, hx₁⟩ := roundDown_chunk (hmm.access v hv) (hcompact.chunk v hv)
  have hwalk : walk (tableNext s) pgdir [pdx1 v.vmStart] = tableNext s pgdir (pdx1 v.vmStart) :=
    walk_concat _ pgdir [] _
  refine wp_exitRange_chunk hfuel (hmm.access v hv) (hmm.start v hv) (hmm.stop v hv) hend₁ ?_
  rw [exitDir, hx₁, Act.wp_bind, entry, Act.wp_bind, Act.wp_get, Act.wp_pure]
  change Act.wp (if Valid (pteOf s pgdir (pdx1 v.vmStart)) then _ else _) _ _ s
  rw [Act.wp_ite]
  refine ⟨fun hvalid => ?_, fun hvalid => ?_⟩
  · have hpd0 : walk (tableNext s) pgdir [pdx1 v.vmStart] = some (pageOf (pteOf s pgdir (pdx1 v.vmStart))) :=
      hwalk.trans (if_pos hvalid)
    rw [Act.wp_bind]
    refine wp_table (h.exiting.tree.used _ _ (userPath_one hi) hpd0).2 ?_
    generalize pageOf (pteOf s pgdir (pdx1 v.vmStart)) = pd0 at hpd0 ⊢
    have hnew : ∀ x ∈ areas, pdx1 x.vmStart ≠ pdx1 v.vmStart := fun x hx heq => by
      have hcut := h.cut x hx
      rw [heq, hpd0] at hcut
      cases hcut
    have hsame : ∀ q, UserPath (pdx1 v.vmStart :: q) → walk (tableNext s) pgdir (pdx1 v.vmStart :: q) =
        walk (tableNext s₀) pgdir (pdx1 v.vmStart :: q) := fun q hq => h.kept _ q hq hnew
    have hsome : walk (tableNext s₀) pgdir [pdx1 v.vmStart] ≠ none := fun hno => by
      cases hno.symm.trans ((hsame [] (userPath_one hi)).symm.trans hpd0)
    obtain ⟨pt, hpt₀⟩ := hone.exists_table hcompact hv hi hsome
    have hpt := (hsame _ (userPath_two hi pdx0_lt)).trans hpt₀
    have hempty : ∀ k < NPTEENTRY, tableNext s pt k = none := fun k hk => by
      have hpath : UserPath [pdx1 v.vmStart, pdx0 v.vmStart, k] := userPath_three hi pdx0_lt hk
      have hlast := walk_concat (tableNext s) pgdir [pdx1 v.vmStart, pdx0 v.vmStart] k
      rw [hpt, Option.bind_some] at hlast
      exact hlast.symm.trans ((hsame _ hpath).trans (hone.bare _ _ _ hpath))
    rw [Act.wp_bind]
    refine wp_exitTables_chunk hfuel hend₀ (Act.wp_mono (wp_exitTable h.exiting.tree
      (userPath_two hi pdx0_lt) hpd0) (fun valid s₁ h₁ => ?_) fun _ => id)
    rw [hx₀] at h₁
    rcases h₁ with ⟨hno, -⟩ | ⟨pt', hpt', rfl, ⟨-, rfl⟩ | ⟨⟨k, hk, hsome⟩, -⟩⟩
    · cases hno.symm.trans hpt
    · obtain rfl := Option.some.inj (hpt'.symm.trans hpt)
      rw [Act.wp_ite]
      refine ⟨fun _ => ?_, fun hno => absurd rfl hno⟩
      simp only [freePage, setEntry, Act.wp_bind, Act.wp_modify]
      exact h.cutBoth hone (fun x hx => hlow x (hsub hx)) hi pdx0_lt hnew rfl
        (fun j hj => hone.eq_of_walk hcompact hv hi hj) hpd0 hpt
    · obtain rfl := Option.some.inj (hpt'.symm.trans hpt)
      exact absurd (hempty k hk) hsome
  · -- there is no directory, or there is none any more
    exact h.cons_of_none hi (hwalk.trans (if_neg hvalid))

/-- **The tables of all areas.** -/
theorem Emptying.wp_exitAreas (h : Emptying pmm pgdir s₀ areas s) (hone : OneTable pgdir mm.mmapList s₀)
    (hcompact : Compact mm.mmapList) (hmm : UserAreas mm) (hsub : areas ⊆ mm.mmapList)
    (hsub' : vmas ⊆ mm.mmapList) (hfuel : 0 < fuel) :
    Act.wp (exitAreas pmm fuel pgdir vmas)
      (fun _ s' => Emptying pmm pgdir s₀ (vmas.reverse ++ areas) s') (fun _ => False) s := by
  induction vmas generalizing areas s with
  | nil => exact h
  | cons v vmas ih =>
    obtain ⟨hv, hsub'⟩ := List.cons_subset.mp hsub'
    rw [exitAreas, Act.wp_bind, List.reverse_cons, List.append_assoc, List.singleton_append]
    exact Act.wp_mono (h.wp_exitRange hone hcompact hmm hsub hv hfuel)
      (fun _ s₁ h₁ => ih h₁ (List.cons_subset.mpr ⟨hv, hsub⟩) hsub') fun _ => id

/-- **A page of the address space's own**: the page directory, a table, or a page that is mapped. -/
def Own (s : Phys) (pgdir g : ℕ) : Prop := ∃ q, UserPath q ∧ walk (tableNext s) pgdir q = some g

/-- Nothing of an address space is left but its page directory. -/
theorem Emptying.used_iff (h : Emptying pmm pgdir s₀ (mm.mmapList.reverse ++ []) s')
    (hun : Unmapping pmm pgdir s (InAreas mm.mmapList) s₀) (hone : OneTable pgdir mm.mmapList s₀)
    (htorn : TornDown pmm pgdir s s')
    (href : ∀ la p perm, la < LOWTOP → mapping s pgdir la = some (p, perm) → s.ref p = 1) (hg : Own s pgdir g) :
    g ∈ s'.used ↔ g = pgdir := by
  refine ⟨fun hin => ?_, fun heq => heq ▸ (htorn.tree.used [] pgdir .nil rfl).1⟩
  obtain ⟨q, hq, hw⟩ := hg
  have hback : ∀ i q, UserPath (i :: q) → (i :: q).length < 3 →
      walk (tableNext s) pgdir (i :: q) = some g → False := fun i q hq hlen hw => by
    have hi : i < 511 := hq.2.1 i rfl
    rw [← hun.tables _ hq hlen] at hw
    have hdir : walk (tableNext s₀) pgdir [i] ≠ none := fun hno => by
      have hsplit := walk_append (tableNext s₀) pgdir [i] q
      rw [hno, Option.bind_none] at hsplit
      cases hsplit.symm.trans hw
    obtain ⟨j, hj, htab⟩ := hone.filled i hi hdir
    obtain ⟨v, hv, rfl, -⟩ := hone.covered i j (userPath_two hi hj) htab
    exact h.freed v (by simpa using hv) q g hq hw hin
  rcases q with _ | ⟨i, _ | ⟨j, _ | ⟨k, _ | ⟨l, q⟩⟩⟩⟩
  · exact (Option.some.inj hw).symm
  · exact (hback i [] hq (by simp) hw).elim
  · exact (hback i [j] hq (by simp) hw).elim
  · obtain ⟨la, hla, hpath⟩ := exists_pathOf hq
    rw [← hpath, ← mapping_fst, Option.map_eq_some_iff] at hw
    obtain ⟨⟨p, perm⟩, hm, rfl⟩ := hw
    exact absurd (href la p perm hla hm) ((htorn.dropped la p perm hla hm).2.mp hin)
  · exact absurd hq not_userPath_four

/-- **An address space gives every page back** when it ends, where its areas need one table a gigabyte: what is in
use afterwards is what was in use before and is not its own. -/
theorem exitMmap_givesBack (ht : UserTree pmm s pgdir) (hmm : UserAreas mm)
    (hin : ∀ la, la < LOWTOP → mapping s pgdir la ≠ none → InAreas mm.mmapList la)
    (hcompact : Compact mm.mmapList) (hfilled : Filled s pgdir)
    (href : ∀ la p perm, la < LOWTOP → mapping s pgdir la = some (p, perm) → s.ref p = 1)
    (hfuel : USERTOP / PGSIZE < fuel) :
    ∃ s', (do exitMmap pmm fuel mm 0 pgdir; putPgdir pgdir : Call Unit) s = .ok ((), s') ∧
      ∀ g, g ∈ s'.used ↔ g ∈ s.used ∧ ¬ Own s pgdir g := by
  have hrun : Act.wp (exitMmap pmm fuel mm 0 pgdir) (fun _ s' => TornDown pmm pgdir s s' ∧
      ∀ g, Own s pgdir g → (g ∈ s'.used ↔ g = pgdir)) (fun _ => False) s := by
    refine wp_exitMmap_of ht hmm hfuel fun s₁ h₁ => ?_
    have hbare : ∀ la, la < LOWTOP → mapping s₁ pgdir la = none :=
      (h₁.tornDown (Exiting.refl h₁.tree) ht hmm hin).bare
    have hone := h₁.oneTable hcompact hfilled hbare hin
    have hstart : Emptying pmm pgdir s₁ [] s₁ :=
      ⟨.refl h₁.tree, fun _ hv => (by cases hv), fun _ hv => (by cases hv), fun _ _ _ _ => rfl⟩
    refine Act.wp_mono (hstart.wp_exitAreas hone hcompact hmm (List.nil_subset _) (List.Subset.refl _)
      ((Nat.zero_le _).trans_lt hfuel)) (fun _ s₂ h₂ => ?_) fun _ => id
    have htorn := h₁.tornDown h₂.exiting ht hmm hin
    exact ⟨htorn, fun g => h₂.used_iff h₁ hone htorn href⟩
  have hall : Act.wp (do exitMmap pmm fuel mm 0 pgdir; putPgdir pgdir : Call Unit) (fun _ s' => ∀ g,
      g ∈ s'.used ↔ g ∈ s.used ∧ ¬ Own s pgdir g) (fun _ => False) s := by
    rw [Act.wp_bind]
    refine Act.wp_mono hrun (fun _ s' hs' g => ?_) fun _ => id
    obtain ⟨htorn, hown⟩ := hs'
    rw [Finset.mem_erase]
    refine ⟨fun hin => ⟨htorn.used hin.2, fun ho => hin.1 ((hown g ho).mp hin.2)⟩, fun hin => ?_⟩
    obtain ⟨hg, hno⟩ := hin
    refine ⟨fun heq => hno ⟨[], .nil, heq ▸ rfl⟩, ?_⟩
    -- what is freed is a page that was mapped, or a table
    by_contra hfree
    rcases htorn.freed g hg hfree with ⟨la, perm, hla, hm⟩ | ⟨⟨q, hq, -, hw⟩, -⟩
    · exact hno ⟨_, userPath hla, walk_of_mapping hm⟩
    · exact hno ⟨q, hq, hw⟩
  obtain ⟨⟨⟩, s', hrun, hs'⟩ := Act.wp_false_iff.mp hall
  exact ⟨s', hrun, hs'⟩

/-- **Of the pages of `parent`** the new page directory 5 is left, which is not its own. -/
theorem exitMmap_givesBack_parent :
    ∃ s', (do exitMmap lowest 600000 parentMm 0 1; putPgdir 1 : Call Unit) parent.phys = .ok ((), s') ∧
      1 ∉ s'.used ∧ 2 ∉ s'.used ∧ 3 ∉ s'.used ∧ 4 ∉ s'.used ∧ 5 ∈ s'.used := by
  have hcompact : Compact parentMm.mmapList := ⟨by decide, by decide⟩
  have hm : mapping parent.phys 1 0x200000 ≠ none := by decide +kernel
  have hfilled : Filled parent.phys 1 := fun q hq hne hlen hw => by
    obtain ⟨f, hw⟩ := Option.ne_none_iff_exists'.mp hw
    refine ⟨0x200000, by decide, ?_, hm⟩
    rcases parent_walk hq hw with ⟨rfl, -⟩ | ⟨rfl, -⟩ | ⟨rfl, -⟩ | ⟨rfl, -⟩
    · exact absurd rfl hne
    · exact ⟨[1, 0], rfl⟩
    · exact ⟨[0], rfl⟩
    · exact ⟨[], rfl⟩
  obtain ⟨s', hrun, h⟩ : ∃ s', (do exitMmap lowest 600000 parentMm 0 1; putPgdir 1 : Call Unit) parent.phys =
      .ok ((), s') ∧ ∀ g, g ∈ s'.used ↔ g ∈ parent.phys.used ∧ ¬ Own parent.phys 1 g :=
    exitMmap_givesBack parent_tree parentMm_user parent_inAreas hcompact hfilled (fun _ _ _ _ _ => rfl) (by decide)
  have hpath : ∀ q, q <+: [0, 1, 0] → UserPath q := fun q hpre => by
    refine ⟨hpre.length_le, fun i hi => ?_, fun i hi => ?_⟩
    · have := hpre.subset (List.mem_of_mem_head? hi)
      simp at this
      omega
    · have := hpre.subset hi
      simp at this
      omega
  have hown : ∀ q g, q <+: [0, 1, 0] → walk (tableNext parent.phys) 1 q = some g → g ∉ s'.used :=
    fun q g hpre hw hin => ((h g).mp hin).2 ⟨q, hpath q hpre, hw⟩
  refine ⟨s', hrun, hown [] 1 ⟨_, rfl⟩ rfl, hown [0] 2 ⟨[1, 0], rfl⟩ (by decide +kernel),
    hown [0, 1] 3 ⟨[0], rfl⟩ (by decide +kernel), hown [0, 1, 0] 4 ⟨[], rfl⟩ (by decide +kernel),
    (h 5).mpr ⟨by decide, fun hown' => ?_⟩⟩
  obtain ⟨q, hq, hw⟩ := hown'
  rcases parent_walk hq hw with ⟨-, h⟩ | ⟨-, h⟩ | ⟨-, h⟩ | ⟨-, h⟩ <;> cases h

end UCore.Paging
