import UCore.Mm.PageReplace
import UCore.Process.HeaderTable
import UCore.Sfs.Volume

/-!
# Process/AnyFile — the tables of a load, whatever the file says

    p_va ── pages of the file ──▸ any address below p_va + SFS_MAX_FILE_SIZE + PGSIZE

A header whose segment wraps around passes `mm_map` with an area smaller than its file, and its pages then go
where others are, or past the end of user space.  They come no further than the file can be read, which is
below the kernel's gigabyte: the tables stay a tree.
-/

namespace UCore.Exec

open Vmm Paging

/-- **The pages so far**: the tables are a tree, and the last page made is the one before `la`. -/
structure Paged (pmm : Pmm) (pgdir base : ℕ) (c : Cursor) (s : Phys) : Prop where
  tree : UserTree pmm s pgdir
  last : base < c.la → ∃ perm, mapping s pgdir (c.la - PGSIZE) = some (c.page, perm)

/-- Where the loops stand: within a page of `la`, and at it or behind it while there is more to do. -/
structure Cursor.Near (base stop : ℕ) (c : Cursor) : Prop where
  dvd : PGSIZE ∣ c.la
  baseLe : base ≤ c.la
  le : base ≤ c.start
  lt : c.start < c.la + PGSIZE
  gt : c.la < c.start + PGSIZE
  more : c.start < stop → c.la ≤ c.start

variable {pmm : Pmm} {env : Env} {rd : Reader} {pgdir perm base stop fuel phsize : ℕ} {s s' : Phys} {c c' : Cursor}
  {ph : Proghdr} {fill : ℕ → ℕ → ℕ → ℕ → Paging.Call ℤ} {t t' : Loading} {granted : Bool} {sp : AddrSpace}
  {buffer : ℕ → UInt8} {o : ℕ}

/-! ## The loops -/

/-- **One turn**: a page is mapped at `la`, whatever was there. -/
theorem Paged.wp_pageTurn (h : Paged pmm pgdir base c s) (hfresh : pmm.Fresh) (hnear : c.Near base stop)
    (htop : c.start < stop → c.start < LOWTOP) (hstop : stop < 2 ^ 64) (hperm : perm < 1024) {L : Prop}
    (hfill : ∀ page off size s, Act.wp (fill page off size c.start)
      (fun ret s' => ret = 0 → L ∧ ∃ bytes, s' = stored s page off size bytes) (fun _ => True) s) :
    Act.wp (pageTurn pmm pgdir perm stop fill c) (fun r s' => match r with
      | .inl c' => L ∧ c.start ≤ c'.start ∧ c'.start ≤ c.start + PGSIZE ∧ c'.Near base stop ∧
          Paged pmm pgdir base c' s'
      | .inr (.ok c') => c' = c ∧ s' = s ∧ stop ≤ c.start
      | .inr (.error ret) => ret = 0 → s'.starved = true) (fun _ => True) s := by
  have hpg : PGSIZE = 4096 := rfl
  have hlow : LOWTOP = 511 * 2 ^ 30 := rfl
  rw [pageTurn, Act.wp_ite]
  refine ⟨fun hlt => ?_, fun hge => ⟨rfl, rfl, not_lt.mp hge⟩⟩
  have htop := htop hlt
  have hle := hnear.more hlt
  have hlt' := hnear.lt
  have hbase := hnear.baseLe
  have hbase' := hnear.le
  obtain ⟨hsize, -⟩ := sizeIn_eq hle hlt' hlt (by omega)
  have hnext : u64 (c.start + sizeIn c.start c.la stop) = min stop (c.la + PGSIZE) := by
    rw [hsize]
    exact u64_of_lt (by omega)
  have hnext' : u64 (c.la + PGSIZE) = c.la + PGSIZE := u64_of_lt (by omega)
  have hla : c.la < LOWTOP := by omega
  rw [Act.wp_bind]
  refine Act.wp_mono (wp_pgdirAllocPage_replace hfresh h.tree hla hperm) (fun r s₁ hr => ?_) fun _ => id
  cases r with
  | none => exact fun _ => hr
  | some p =>
    rw [Act.wp_bind]
    refine Act.wp_mono (hfill p (sub64 c.start c.la) (sizeIn c.start c.la stop) s₁) (fun ret s₂ hret => ?_)
      fun _ => id
    rw [Act.wp_ite]
    refine ⟨fun hne hzero => absurd hzero hne, fun hzero => ?_⟩
    obtain ⟨hL, bytes, rfl⟩ := hret (not_not.mp hzero)
    have hadd : PageAdded pmm pgdir c.la p (pagePerm perm) s s₁ := hr
    obtain ⟨htree, hmap, -⟩ := hadd.tree.stored hla hadd.self (sub64 c.start c.la) (sizeIn c.start c.la stop) bytes
    rw [Act.wp_pure, hnext, hnext']
    refine ⟨hL, ?_, ?_, ⟨hnear.dvd.add dvd_rfl, ?_, ?_, ?_, ?_, fun hmore => ?_⟩, htree, fun _ => ?_⟩
    · dsimp only
      omega
    · dsimp only
      omega
    · dsimp only
      omega
    · dsimp only
      omega
    · dsimp only
      omega
    · dsimp only
      omega
    · dsimp only at hmore ⊢
      omega
    · refine ⟨pagePerm perm, ?_⟩
      dsimp only
      rw [Nat.add_sub_cancel, hmap c.la hla]
      exact hadd.self

/-- A part of the file can be read where the file can be sought. -/
theorem wp_fillFile_seek {page off size start : ℕ} (hseek : ∀ offset, rd.seek offset = 0 → offset < Sfs.SFS_MAX_FILE_SIZE) :
    Act.wp (fillFile rd ph page off size start) (fun ret s' => ret = 0 →
      u64 (ph.offset + sub64 start ph.va) < Sfs.SFS_MAX_FILE_SIZE ∧ ∃ bytes, s' = stored s page off size bytes)
      (fun _ => True) s := by
  simp only [fillFile, fillPage, Act.wp_bind, Act.wp_ite, Act.wp_require, Act.wp_modify, Act.wp_pure]
  exact ⟨fun hret => ⟨fun _ _ => ⟨hseek _ (seek_of_read hret), _, rfl⟩, fun _ => trivial⟩,
    fun hno hret => absurd hret hno⟩

theorem wp_fillZero_stored {page off size start : ℕ} :
    Act.wp (fillZero page off size start) (fun ret s' => ret = 0 → True ∧ ∃ bytes, s' = stored s page off size bytes)
      (fun _ => True) s := by
  simp only [fillZero, fillPage, Act.wp_bind, Act.wp_require, Act.wp_modify, Act.wp_pure]
  exact ⟨fun _ _ => ⟨trivial, _, rfl⟩, fun _ => trivial⟩

/-- How far the file has been read: what fits in a file, and a page more. -/
def Cursor.Reads (ph : Proghdr) (c : Cursor) : Prop :=
  ph.va ≤ c.start ∧ (c.start = ph.va ∨ ph.offset + (c.start - ph.va) ≤ Sfs.SFS_MAX_FILE_SIZE + PGSIZE)

/-- **The pages of the file.** -/
theorem Paged.wp_loadFile (h : Paged pmm pgdir base c s) (hfresh : pmm.Fresh)
    (hseek : ∀ offset, rd.seek offset = 0 → offset < Sfs.SFS_MAX_FILE_SIZE) (hnear : c.Near base stop)
    (hreads : c.Reads ph) (hva : ph.va < USERTOP) (hoff : ph.offset < 2 ^ 64) (hstop : stop < 2 ^ 64)
    (hperm : perm < 1024) :
    Act.wp (Act.loop .spin (pageTurn pmm pgdir perm stop (fillFile rd ph)) fuel c) (fun r s' => match r with
      | .ok c' => c'.start < LOWTOP ∧ c'.Near base stop ∧ Paged pmm pgdir base c' s'
      | .error ret => ret = 0 → s'.starved = true) (fun _ => True) s := by
  have hpg : PGSIZE = 4096 := rfl
  have hut : USERTOP = 2 ^ 31 := rfl
  have hlow : LOWTOP = 511 * 2 ^ 30 := rfl
  have hmax : Sfs.SFS_MAX_FILE_SIZE = 2 ^ 27 := rfl
  refine Act.wp_loop_of_ends (fun c s => c.Near base stop ∧ c.Reads ph ∧ Paged pmm pgdir base c s) trivial
    (fun c s hinv => ?_) fuel c s ⟨hnear, hreads, h⟩
  obtain ⟨hnear, ⟨hge, hread⟩, h⟩ := hinv
  have htop : c.start < LOWTOP := by omega
  refine Act.wp_mono (h.wp_pageTurn hfresh hnear (fun _ => htop) hstop hperm fun page off size s =>
    wp_fillFile_seek hseek) (fun r s' hr => ?_) fun _ => id
  match r, hr with
  | .inl c', ⟨hfile, hlo, hhi, hnear', h'⟩ =>
    -- what has been read so far does not wrap around, and the file is no longer than it can be
    have hsub : sub64 c.start ph.va = c.start - ph.va := sub64_of_le hge (by omega)
    have hfit : u64 (ph.offset + (c.start - ph.va)) = ph.offset + (c.start - ph.va) := u64_of_lt (by omega)
    rw [hsub, hfit] at hfile
    exact ⟨hnear', ⟨by omega, by omega⟩, h'⟩
  | .inr (.ok c'), ⟨hc, hs, _⟩ =>
    subst hc hs
    exact ⟨htop, hnear, h⟩
  | .inr (.error ret), hr => exact hr

/-- **The rest of the last page**, if there is one. -/
theorem Paged.wp_zeroRest {fend : ℕ} (h : Paged pmm pgdir base c s) (hnear : c.Near base fend) (hcut : c.start < c.la)
    (htop : c.start < LOWTOP) (hstop : stop ≤ USERTOP) :
    Act.wp (zeroRest c stop) (fun c' s' => c'.Near base stop ∧ Paged pmm pgdir base c' s') (fun _ => True) s := by
  have hpg : PGSIZE = 4096 := rfl
  have hut : USERTOP = 2 ^ 31 := rfl
  have hlow : LOWTOP = 511 * 2 ^ 30 := rfl
  obtain ⟨hd, -, hbase, -, hgt, -⟩ := hnear
  have hmod : c.la % 4096 = 0 := Nat.mod_eq_zero_of_dvd hd
  have hprev : sub64 c.la PGSIZE = c.la - PGSIZE := sub64_of_le (by omega) (by omega)
  have hoff : sub64 c.start (c.la - PGSIZE) = c.start - (c.la - PGSIZE) := sub64_of_le (by omega) (by omega)
  have hsize : sub64 PGSIZE (c.start - (c.la - PGSIZE)) = c.la - c.start := by
    rw [sub64_of_le (by omega) (by omega)]
    omega
  rw [zeroRest, hprev, hoff, hsize]
  generalize hn : (if stop < c.la then sub64 (c.la - c.start) (sub64 c.la stop) else c.la - c.start) = n
  rw [fillPage, Act.wp_bind, Act.wp_bind, Act.wp_require]
  refine ⟨fun hfits => ?_, fun _ => trivial⟩
  rw [Act.wp_modify, Act.wp_pure]
  obtain ⟨perm, hlast⟩ := h.last (by omega)
  have hla : c.la - PGSIZE < LOWTOP := by omega
  obtain ⟨htree, hmap, -⟩ := h.tree.stored hla hlast (c.start - (c.la - PGSIZE)) n fun _ => 0
  -- a size below zero is too large for a page
  have hnext : u64 (c.start + n) = c.la ∨ u64 (c.start + n) = stop ∧ c.start ≤ stop ∧ stop < c.la := by
    split at hn
    · next hlt =>
      rw [sub64_of_le hlt.le (by omega)] at hn
      rcases Nat.lt_or_ge stop c.start with hback | hge
      · rw [sub64, u64] at hn
        omega
      · rw [sub64_of_le (by omega) (by omega)] at hn
        refine .inr ⟨?_, hge, hlt⟩
        rw [u64_of_lt (by omega)]
        omega
    · refine .inl ?_
      rw [u64_of_lt (by omega)]
      omega
  refine ⟨⟨hd, ?_, ?_, ?_, ?_, fun hmore => ?_⟩, htree, fun _ => ⟨perm, (hmap _ hla).trans hlast⟩⟩
  · dsimp only
    omega
  · dsimp only
    omega
  · dsimp only
    omega
  · dsimp only
    omega
  · dsimp only at hmore ⊢
    omega

/-- **The pages of zeros.** -/
theorem Paged.wp_loadZeros (h : Paged pmm pgdir base c s) (hfresh : pmm.Fresh) (hnear : c.Near base stop)
    (hstop : stop ≤ USERTOP) (hperm : perm < 1024) :
    Act.wp (loadZeros pmm fuel pgdir perm stop c) (fun r s' => match r with
      | .ok _ => UserTree pmm s' pgdir
      | .error ret => ret = 0 → s'.starved = true) (fun _ => True) s := by
  have hut : USERTOP = 2 ^ 31 := rfl
  have hlow : LOWTOP = 511 * 2 ^ 30 := rfl
  have hloop : Act.wp (Act.loop .spin (pageTurn pmm pgdir perm stop fillZero) fuel c) (fun r s' => match r with
      | .ok _ => UserTree pmm s' pgdir
      | .error ret => ret = 0 → s'.starved = true) (fun _ => True) s := by
    refine Act.wp_loop_of_ends (fun c s => c.Near base stop ∧ Paged pmm pgdir base c s) trivial
      (fun c s hinv => ?_) fuel c s ⟨hnear, h⟩
    obtain ⟨hnear, h⟩ := hinv
    refine Act.wp_mono (h.wp_pageTurn (L := True) hfresh hnear (fun hlt => by omega) (by omega) hperm
      fun page off size s => wp_fillZero_stored) (fun r s' hr => ?_) fun _ => id
    rcases r with c' | ret | c'
    · exact ⟨hr.2.2.2.1, hr.2.2.2.2⟩
    · exact hr
    · exact hr.2.1 ▸ h.tree
  rw [loadZeros, Act.wp_bind]
  refine Act.wp_mono hloop (fun r s' hr => ?_) fun _ => id
  cases r with
  | error ret => exact hr
  | ok c => exact hr

/-- **The pages of a segment** leave a tree. -/
theorem wp_loadPages_tree (hfresh : pmm.Fresh) (ht : UserTree pmm s pgdir)
    (hseek : ∀ offset, rd.seek offset = 0 → offset < Sfs.SFS_MAX_FILE_SIZE) (hva : ph.va < USERTOP)
    (hoff : ph.offset < 2 ^ 64) (hstop : u64 (ph.va + ph.memsz) ≤ USERTOP) (hperm : perm < 1024) :
    Act.wp (loadPages pmm rd fuel pgdir perm ph) (fun r s' => match r with
      | .ok _ => UserTree pmm s' pgdir
      | .error ret => ret = 0 → s'.starved = true) (fun _ => True) s := by
  have hpg : PGSIZE = 4096 := rfl
  have hle : roundDown ph.va PGSIZE ≤ ph.va := roundDown_le _ _
  have hlt : ph.va < roundDown ph.va PGSIZE + PGSIZE := lt_roundDown_add (by decide)
  have hstart : Cursor.Near (roundDown ph.va PGSIZE) (u64 (ph.va + ph.filesz)) ⟨ph.va, roundDown ph.va PGSIZE, 0⟩ :=
    ⟨dvd_roundDown _ _, le_rfl, hle, hlt, hle.trans_lt (Nat.lt_add_of_pos_right (by decide)), fun _ => hle⟩
  have hpaged : Paged pmm pgdir (roundDown ph.va PGSIZE) ⟨ph.va, roundDown ph.va PGSIZE, 0⟩ s :=
    ⟨ht, fun hno => absurd hno (lt_irrefl _)⟩
  rw [loadPages, Act.wp_bind]
  refine Act.wp_mono (hpaged.wp_loadFile hfresh hseek hstart ⟨le_rfl, .inl rfl⟩ hva hoff (u64_lt _) hperm)
    (fun r s₁ hr => ?_) fun _ => id
  cases r with
  | error ret => exact hr
  | ok c =>
    obtain ⟨htop, hnear, h⟩ := hr
    change Act.wp (if c.start < c.la then if c.start = u64 (ph.va + ph.memsz) then pure (Except.ok ()) else
      zeroRest c (u64 (ph.va + ph.memsz)) >>= fun c => loadZeros pmm fuel pgdir perm (u64 (ph.va + ph.memsz)) c
      else loadZeros pmm fuel pgdir perm (u64 (ph.va + ph.memsz)) c) _ _ s₁
    rw [Act.wp_ite]
    refine ⟨fun hcut => ?_, fun hfull => ?_⟩
    · rw [Act.wp_ite]
      refine ⟨fun _ => h.tree, fun _ => ?_⟩
      rw [Act.wp_bind]
      refine Act.wp_mono (h.wp_zeroRest hnear hcut htop hstop) (fun c' s₂ h₂ => ?_) fun _ => id
      exact h₂.2.wp_loadZeros hfresh h₂.1 hstop hperm
    · have hnear' : c.Near (roundDown ph.va PGSIZE) (u64 (ph.va + ph.memsz)) :=
        ⟨hnear.dvd, hnear.baseLe, hnear.le, hnear.lt, hnear.gt, fun _ => not_lt.mp hfull⟩
      exact h.wp_loadZeros hfresh hnear' hstop hperm

/-! ## The headers -/

/-- **What a load keeps**, up to the arguments: a tree of tables, areas of user space, and no process yet. -/
structure Sound (env : Env) (pgdir : ℕ) (t : Loading) : Prop where
  tree : UserTree env.pmm t.space.phys pgdir
  areas : UserAreas t.space.mm
  current : t.current = none

/-- `mm_map` keeps the areas, and checks them. -/
theorem wp_mmMap_areas {mm : Mm} {addr len vmFlags : ℕ} (h : UserAreas mm) :
    Act.wp (mmMap addr len vmFlags granted) (fun ret mm' => UserAreas mm' ∧
      (ret = 0 → UserAccess (mapStart addr) (mapEnd addr len))) (fun _ => True) mm := by
  have hinval : (-E_INVAL : ℤ) ≠ 0 := by decide
  rw [h.valid.wp_mmMap]
  refine ⟨fun huser => ⟨fun _ => ⟨h.cached, fun _ => huser⟩, fun _ => ⟨fun _ => ?_, fun _ =>
    ⟨h.cached, fun _ => huser⟩⟩⟩, fun _ => ⟨h, fun hzero => absurd hzero hinval⟩⟩
  rw [h.valid.cached.wp_insertVmaStruct]
  exact ⟨fun hfits => ⟨h.cached.insert huser hfits, fun _ => huser⟩, fun _ => trivial⟩

/-- **A segment**, wherever its header puts it. -/
theorem wp_loadSegment_tree (hfresh : pmm.Fresh) (ht : UserTree pmm sp.phys pgdir) (hareas : UserAreas sp.mm)
    (hseek : ∀ offset, rd.seek offset = 0 → offset < Sfs.SFS_MAX_FILE_SIZE) (hoff : ph.offset < 2 ^ 64) :
    Act.wp (loadSegment pmm rd fuel pgdir granted ph) (fun r sp' => match r with
      | .ok _ => UserTree pmm sp'.phys pgdir ∧ UserAreas sp'.mm
      | .error ret => ret = 0 → sp'.phys.starved = true) (fun _ => True) sp := by
  rw [loadSegment, Act.wp_bind, wp_onMm]
  refine Act.wp_mono (wp_mmMap_areas hareas) (fun ret mm hret => ?_) fun _ _ => trivial
  rw [Act.wp_ite]
  refine ⟨fun hne hzero => absurd hzero hne, fun hzero => ?_⟩
  obtain ⟨hlo, hlt, htop⟩ := hret.2 (not_not.mp hzero)
  have hva : ph.va < USERTOP := by
    have hstart : ph.va < roundDown ph.va PGSIZE + PGSIZE := lt_roundDown_add (by decide)
    have hd : roundDown ph.va PGSIZE % 4096 = 0 := Nat.mod_eq_zero_of_dvd (dvd_roundDown _ _)
    have hpg : PGSIZE = 4096 := rfl
    have hut : USERTOP = 2 ^ 31 := rfl
    have hlt : roundDown ph.va PGSIZE < mapEnd ph.va ph.memsz := hlt
    omega
  have hstop : u64 (ph.va + ph.memsz) ≤ USERTOP := (u64_le_mapEnd (hret.2 (not_not.mp hzero))).trans htop
  rw [wp_onPhys]
  refine Act.wp_mono (wp_loadPages_tree hfresh ht hseek hva hoff hstop (permOf_lt _)) (fun r phys hr => ?_) fun _ => id
  cases r with
  | error ret => exact hr
  | ok u => exact ⟨hr, hret.1⟩

/-- **The segment of a header.** -/
theorem Sound.wp_loadHeader (h : Sound env pgdir t) (hfresh : env.pmm.Fresh)
    (hseek : ∀ offset, env.rd.seek offset = 0 → offset < Sfs.SFS_MAX_FILE_SIZE) :
    Act.wp (loadHeader env fuel pgdir buffer o) (fun r t' => match r with
      | .ok _ => Sound env pgdir t'
      | .error ret => ret = 0 → t'.space.phys.starved = true ∧ t'.current = none) (fun _ => True) t := by
  have hinval : (-E_INVAL_ELF : ℤ) ≠ 0 := by decide
  have hoff : (proghdr buffer o).offset < 2 ^ 64 := offset_lt _ _
  rw [loadHeader]
  generalize proghdr buffer o = ph at hoff ⊢
  rw [touch, Act.wp_bind, Act.wp_modify, Act.wp_ite]
  refine ⟨fun _ hzero => absurd hzero hinval, fun _ => ?_⟩
  rw [touch, Act.wp_bind, Act.wp_modify, Act.wp_bind, Act.wp_get, Act.wp_bind, wp_onSpace]
  refine Act.wp_mono (wp_loadSegment_tree hfresh h.tree h.areas hseek hoff) (fun r sp hr => ?_) fun _ => id
  rw [Act.wp_bind, Act.wp_modify, Act.wp_pure]
  cases r with
  | error ret => exact fun hzero => ⟨hr hzero, h.current⟩
  | ok u => exact ⟨hr.1, hr.2, h.current⟩

-- a header's words are not to be computed where its judgement is used
attribute [local irreducible] loadHeader

/-- **The walk over the headers**, whatever they say. -/
theorem Sound.wp_walkHeaders (h : Sound env pgdir t) (hfresh : env.pmm.Fresh)
    (hseek : ∀ offset, env.rd.seek offset = 0 → offset < Sfs.SFS_MAX_FILE_SIZE) :
    Act.wp (walkHeaders env fuel pgdir phsize buffer) (fun r t' => match r with
      | .ok _ => Sound env pgdir t'
      | .error ret => ret = 0 → t'.space.phys.starved = true ∧ t'.current = none) (fun _ => True) t := by
  refine wp_walkHeaders_of (fun _ t => Sound env pgdir t) (fun o t h => ?_) h
  have hmore : ∀ {o' : ℕ}, o' = o + sizeofProghdr → o < o' := fun ho => by
    rw [ho]
    exact Nat.lt_add_of_pos_right (by decide)
  rw [headerTurn, Act.wp_ite]
  refine ⟨fun hlt => ?_, fun _ => ⟨h.tree, h.areas, h.current⟩⟩
  rw [act, touch, Act.wp_bind, Act.wp_modify, Act.wp_bind, Act.wp_modify, Act.wp_ite]
  refine ⟨fun _ => ?_, fun _ => ⟨hlt, hmore rfl, h.tree, h.areas, h.current⟩⟩
  rw [Act.wp_bind]
  generalize ht : (Loading.mk _ _ _ _ _ : Loading) = t₁
  have h₁ : Sound env pgdir t₁ := ht ▸ ⟨h.tree, h.areas, h.current⟩
  refine Act.wp_mono (h₁.wp_loadHeader hfresh hseek) (fun r t' hr => ?_) fun _ => id
  cases r with
  | error ret => exact hr
  | ok u => exact ⟨hlt, hmore rfl, hr⟩

/-! ## The stack and the arguments -/

end UCore.Exec
