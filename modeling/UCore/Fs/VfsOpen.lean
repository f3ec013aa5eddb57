import UCore.Fs.PathBuffer
import UCore.Fs.Reload

/-!
# Fs/VfsOpen — references that an open takes

`vfs_open` of `kern/fs/vfs/vfsfile.c`, on paths that lead to files, directories and devices, with
`dev_open` of `kern/fs/devs/dev.c`.

    vfs_lookup ──▸ ref + 1 ──vop_open──▸ ──vop_open_inc──▸ open + 1 ──vop_truncate──▸ 0
                      │          └ error: ref − 1                  └ error: open − 1, ref − 1
                      └ O_EXCL: the reference stays
-/

namespace UCore.Fs

open Sfs Act

namespace Vfs

/-- The devices of `dev_init`. -/
inductive DeviceType where
  | stdin
  | stdout
  | disk0
  deriving DecidableEq, Repr

/-- `O_RDONLY`. -/
abbrev O_RDONLY : ℕ := 0

/-- `O_WRONLY`. -/
abbrev O_WRONLY : ℕ := 1

/-- `dop_open`. -/
def dopOpen (type : DeviceType) (flags : ℕ) : ℤ :=
  match type with
  | .stdin => if flags ≠ O_RDONLY then -E_INVAL else 0
  | .stdout => if flags ≠ O_WRONLY then -E_INVAL else 0
  | .disk0 => 0

/-- `dev_open`. -/
def devOpen (type : DeviceType) (flags : ℕ) : ℤ :=
  if flags &&& (O_CREAT ||| O_TRUNC ||| O_EXCL ||| O_APPEND) ≠ 0 then -E_INVAL else dopOpen type flags

/-- `inode_check`, of the inode of a device. -/
def devCheck (d : ℕ) : Call Unit := do
  let node := (← get).devNode d
  Act.demand .inodeCheck (node.openCount ≤ node.refCount ∧
    node.refCount < MAX_INODE_COUNT ∧ node.openCount < MAX_INODE_COUNT)

/-- `vop_open`. -/
def vopOpen (devs : ℕ → DeviceType) (flags : ℕ) : Inode → Call Unit
  | .sfs i => onFileSys (Fs.vopOpen i flags)
  | .dev d => do
    devCheck d
    let ret := devOpen (devs d) flags
    if ret ≠ 0 then
      throw ret

/-- `vop_open_inc`. -/
def vopOpenInc : Inode → Call Unit
  | .sfs i => onFileSys (inodeOpenInc i)
  | .dev d => setDevNode d fun node => { node with openCount := node.openCount + 1 }

/-- `vop_open_dec`; `dev_close` does nothing. -/
def vopOpenDec : Inode → Call Unit
  | .sfs i => onFileSys (inodeOpenDec i)
  | .dev d => do
    Act.demand .openDec (0 < ((← get).devNode d).openCount)
    setDevNode d fun node => { node with openCount := node.openCount - 1 }
    if ((← get).devNode d).openCount = 0 then
      devCheck d

/-- `vop_truncate`, which a device does not provide. -/
def vopTruncate (len : ℤ) : Inode → Call Unit
  | .sfs i => onFileSys (Fs.vopTruncate i len)
  | .dev _ => Act.stop .vopMissing

/-- `vop_create`, which no inode provides. -/
def vopCreate (_dir : Inode) (_name : List UInt8) (_excl : Bool) : Call Inode := Act.stop .vopMissing

/-- The first half of `vfs_open`: the inode of the path, with a reference to it. -/
def vfsFind (flags : ℕ) : PathCall Inode := do
  match ← Act.attempt vfsLookupAt with
  | .ok n =>
    if has flags O_EXCL = true ∧ has flags O_CREAT = true then
      throw (-E_EXISTS)
    else
      return n
  | .error ret =>
    if ret = -E_NOENT ∧ has flags O_CREAT = true then
      let (endp, dir) ← vfsLookupParent
      let name := cstr ((← get).buf.drop endp)
      onVfs (vopCreate dir name (has flags O_EXCL))
    else
      throw ret

/-- …and the second half. -/
def vfsOpenNode (devs : ℕ → DeviceType) (flags : ℕ) (n : Inode) : Call Inode := do
  Act.onError (vopOpen devs flags n) (vopRefDec n)
  vopOpenInc n
  if has flags O_TRUNC = true ∨ has flags O_CREAT = true then
    Act.onError (vopTruncate 0 n) do
      vopOpenDec n
      vopRefDec n
  return n

/-- `vfs_open`. -/
def vfsOpen (devs : ℕ → DeviceType) (flags : ℕ) : PathCall Inode := do
  if flags &&& O_ACCMODE = 3 then
    throw (-E_INVAL)
  else if has flags O_TRUNC = true ∧ flags &&& O_ACCMODE = 0 then
    throw (-E_INVAL)
  else
    let n ← vfsFind flags
    onVfs (vfsOpenNode devs flags n)

/-- **`c` more references and `o` more openings** of each inode. -/
def Tally (s : Vfs) (c o : Inode → ℕ) (s' : Vfs) : Prop :=
  ∀ n, (s'.node n).refCount = (s.node n).refCount + c n ∧
    (s'.node n).openCount = (s.node n).openCount + o n

/-- An open of `n`: one more reference, and one more opening. -/
def Balanced (s : Vfs) (n : Inode) (t : Vfs) : Prop :=
  Tally s (oneMore (fun _ => 0) n) (oneMore (fun _ => 0) n) t

/-- An open that fails: every count is as it was. -/
def Restored (s : Vfs) (e : ℤ) (t : Vfs) : Prop := e < 0 ∧ Tally s (fun _ => 0) (fun _ => 0) t

/-- **The condition on an inode** that the path leads to: there is room for another reference, it is not
to be new, a directory is not opened with `O_CREAT` alone, and a file whose length is to be set is not
one of length 0 with blocks. -/
def Openable (flags : ℕ) (s : Vfs) (n : Inode) : Prop :=
  (s.node n).refCount + 1 < MAX_INODE_COUNT ∧
    ¬ (has flags O_EXCL = true ∧ has flags O_CREAT = true) ∧
    ∀ i, n = .sfs i →
      ((s.files.vol.inode i).type = .dir → has flags O_CREAT = true →
        flags &&& O_ACCMODE ≠ 0 ∨ has flags O_APPEND = true) ∧
      ((s.files.vol.inode i).type = .file → has flags O_TRUNC = true ∨ has flags O_CREAT = true →
        (s.files.vol.inode i).size = 0 → (s.files.vol.inode i).blocks = 0)

/-- **The condition**: the flags are refused; or the path is not too long, what it leads to can be opened
so, and where it leads to nothing, nothing is to be made of it. -/
def Opens (flags : ℕ) (s : Vfs) (buf : List UInt8) : Prop :=
  (flags &&& O_ACCMODE = 3 ∨ has flags O_TRUNC = true ∧ flags &&& O_ACCMODE = 0) ∨
    (∀ n rest, Starts s (cstr buf) n rest → Accepts s n rest) ∧
    (∀ n, outcome (vfsLookup (cstr buf)) s = some (.ok n) → Openable flags s n) ∧
    (outcome (vfsLookup (cstr buf)) s = some (.error (-E_NOENT)) → has flags O_CREAT = true →
      ∀ n rest, ¬ Starts s (cstr (written buf)) n rest)

end Vfs

/-! ## Giving back -/

section GiveBack

variable {inos loose : Finset ℕ} {v w : Volume} {s s' : FileSys} {i : ℕ} {c o : ℕ → ℕ} {R : ℤ → FileSys → Prop}
  {E : Assertion → Prop}

/-- **An inode that can be written back.** -/
structure Writable (i : ℕ) (v : Volume) : Prop where
  fits : Fits v
  inRange : InRange v i
  links : (v.inode i).nlinks ≠ 0

theorem Writable.of_owned (h : Owned inos loose v) (hi : i ∈ inos) (hlinks : (v.inode i).nlinks ≠ 0) :
    Writable i v :=
  ⟨h.fits, h.inRange_of_ref (r := .inode i) hi (h.inodes i hi), hlinks⟩

/-- **`sfs_fsync`** returns, and changes no count. -/
theorem Writable.wpe_sfsFsync (h : Writable i s.vol) :
    wpe (sfsFsync i) (fun _ s' => Writable i s'.vol ∧ s'.node = s.node)
      (fun _ s' => Writable i s'.vol ∧ s'.node = s.node) E s := by
  have hset : ∀ (w : Volume) (dirty : Bool), Writable i w →
      Writable i (w.setInode i fun din => { din with dirty := dirty }) := fun w dirty hw =>
    ⟨⟨hw.fits.mounted, hw.fits.small⟩, hw.inRange, by rw [setInode_self]; exact hw.links⟩
  have htick : ∀ w : Volume, Writable i w → Writable i w.tick := fun w hw =>
    ⟨hw.fits.tick, hw.inRange, hw.links⟩
  rw [sfsFsync]
  simp only [wpe_bind, wpe_get]
  rw [wpe_ite]
  refine ⟨fun _ => ?_, fun _ => ⟨h, rfl⟩⟩
  simp only [onVol, Sfs.setInode, wpe_bind, wpe_zoome, wpe_modify, wpe_get, wpe_onError]
  have hclean := hset _ false h
  refine wpe_sfsWbuf hclean.fits hclean.inRange (by norm_num) (by norm_num) ⟨?_, trivial⟩ fun e _ _ => ⟨?_, ?_⟩
  · exact ⟨⟨h.fits.mounted, h.fits.small⟩, hclean.inRange, hclean.links⟩
  · exact ⟨hset _ true (htick _ hclean), trivial⟩
  · exact ⟨hset _ true (htick _ (htick _ hclean)), trivial⟩

/-- **`c` more references and `o` more openings** of the inodes of the volume. -/
def Tallied (s : FileSys) (c o : ℕ → ℕ) (s' : FileSys) : Prop :=
  ∀ i, (s'.node i).refCount = (s.node i).refCount + c i ∧
    (s'.node i).openCount = (s.node i).openCount + o i

/-- The counts of one inode. -/
theorem Tallied.counts {u : FileSys} (h : Tallied s c o s') (i : ℕ) (node : Node) {c' o' : ℕ → ℕ}
    (hu : u.node = Function.update s'.node i node) (hc : ∀ j, j ≠ i → c' j = c j ∧ o' j = o j)
    (href : node.refCount = (s.node i).refCount + c' i)
    (hopen : node.openCount = (s.node i).openCount + o' i) : Tallied s c' o' u := by
  intro j
  rw [hu]
  rcases eq_or_ne j i with rfl | hji
  · rw [Function.update_self]
    exact ⟨href, hopen⟩
  · rw [Function.update_of_ne hji, (hc j hji).1, (hc j hji).2]
    exact h j

theorem Tallied.of_node {u : FileSys} (h : Tallied s c o s') (hu : u.node = s'.node) : Tallied s c o u :=
  fun i => hu ▸ h i

/-- The checks of an operation that is provided. -/
theorem wpe_vopOp_provided {Q : Unit → FileSys → Prop} {provided : FileType → Bool}
    (hprovided : provided (s.vol.inode i).type = true) (hopen : (s.node i).openCount ≤ (s.node i).refCount)
    (hroom : (s.node i).refCount < MAX_INODE_COUNT) (hQ : Q () s) : wpe (vopOp i provided) Q R E s := by
  simp only [vopOp, inodeCheck, wpe_bind, wpe_get, wpe_demand]
  exact ⟨fun _ => ⟨fun _ => hQ, fun hno => absurd ⟨hopen, hroom, hopen.trans_lt hroom⟩ hno⟩,
    fun hno => absurd hprovided hno⟩

/-- **`vop_open_inc`.** -/
theorem Tallied.wpe_openInc {Q : Unit → FileSys → Prop} (h : Tallied s c o s')
    (hQ : ∀ u, Tallied s c (oneMore o i) u → u.vol = s'.vol →
      (u.node i).reclaimCount = (s'.node i).reclaimCount → Q () u) : wpe (inodeOpenInc i) Q R E s' := by
  rw [inodeOpenInc, Fs.setNode, wpe_modify]
  refine hQ _ (h.counts i _ rfl (fun j hj => ⟨rfl, oneMore_of_ne hj⟩) (h i).1 ?_) rfl
    (by simp)
  rw [oneMore_self, (h i).2, Nat.add_assoc]

/-- **`vop_open_dec`** takes back an opening. -/
theorem Tallied.wpe_openDec (h : Tallied s c (oneMore o i) s') (hw : Writable i s'.vol)
    (hroom : (s'.node i).refCount < MAX_INODE_COUNT) :
    wpe (inodeOpenDec i) (fun _ u => (Tallied s c o u ∧ (u.node i).reclaimCount = (s'.node i).reclaimCount) ∧
      Writable i u.vol) R E s' := by
  have hopen := (h i).2
  rw [oneMore_self] at hopen
  have hback : ∀ u : FileSys, u.node = Function.update s'.node i
      { s'.node i with openCount := (s'.node i).openCount - 1 } →
      Tallied s c o u ∧ (u.node i).reclaimCount = (s'.node i).reclaimCount := fun u hu => by
    refine ⟨h.counts i _ hu (fun j hj => ⟨rfl, (oneMore_of_ne hj).symm⟩) (h i).1 ?_, ?_⟩
    · dsimp only
      omega
    · rw [hu, Function.update_self]
  simp only [inodeOpenDec, Fs.setNode, wpe_bind, wpe_modify, wpe_get, wpe_demand]
  refine ⟨fun _ => ?_, fun hno => absurd (show 0 < _ by omega) hno⟩
  rw [wpe_ite]
  refine ⟨fun h0 => ?_, fun _ => ⟨hback _ rfl, hw⟩⟩
  rw [Function.update_self] at h0
  dsimp only at h0
  have hcheck : ∀ {Q : Unit → FileSys → Prop} {R : ℤ → FileSys → Prop} (u : FileSys),
      u.node = Function.update s'.node i { s'.node i with openCount := (s'.node i).openCount - 1 } →
      Q () u → wpe (vopAny i) Q R E u := fun u hu hQ => by
    refine wpe_vopOp_provided rfl ?_ ?_ hQ <;> rw [hu, Function.update_self]
    · exact h0.le.trans (Nat.zero_le _)
    · exact hroom
  simp only [wpe_ignore, vopFsync, wpe_bind]
  refine hcheck _ rfl (hcheck _ rfl ?_)
  refine wpe_mono (Writable.wpe_sfsFsync ?_) (fun _ u hu => ⟨hback u hu.2, hu.1⟩)
    (fun _ u hu => ⟨hback u hu.2, hu.1⟩) fun _ => id
  exact hw

/-- **`sfs_reclaim`** of an inode without references returns, and changes no count. -/
theorem Tallied.wpe_reclaim (h : Tallied s c o s') (hw : Writable i s'.vol) (href : (s'.node i).refCount = 0)
    (hopen : (s'.node i).openCount = 0) (hclaim : 0 < (s'.node i).reclaimCount) :
    wpe (sfsReclaim i) (fun _ u => Tallied s c o u) (fun _ u => Tallied s c o u) E s' := by
  have hsame : ∀ {u u' : FileSys} {node : Node}, Tallied s c o u → (u.node i).refCount = 0 →
      (u.node i).openCount = 0 → u'.node = Function.update u.node i node → node.refCount = 0 →
      node.openCount = 0 → Tallied s c o u' := fun {u u' node} hu hr ho heq hr' ho' =>
    hu.counts i node heq (fun _ _ => ⟨rfl, rfl⟩) (by rw [hr', ← hr, (hu i).1]) (by rw [ho', ← ho, (hu i).2])
  -- what follows the write-back
  have hend : ∀ u, Tallied s c o u → Writable i u.vol → (u.node i).refCount = 0 → (u.node i).openCount = 0 →
      wpe (do
        setNode i fun node => { node with cached := false }
        let din := (← get).vol.inode i
        if din.nlinks = 0 then
          onVol (sfsBlockFree i)
          if din.indirect ≠ 0 then
            onVol (sfsBlockFree din.indirect)
        inodeKill i : Call Unit) (fun _ u => Tallied s c o u) (fun _ u => Tallied s c o u) E u := by
    intro u hu hw hr ho
    simp only [Fs.setNode, inodeKill, wpe_bind, wpe_modify, wpe_get]
    rw [if_neg hw.links]
    simp only [wpe_bind, wpe_get, wpe_demand, Function.update_self]
    exact ⟨fun _ => hsame hu hr ho rfl hr ho, fun hno => absurd ⟨hr, ho⟩ hno⟩
  simp only [sfsReclaim, Fs.setNode, wpe_bind, wpe_modify, wpe_get, wpe_demand, Function.update_self]
  refine ⟨fun _ => ?_, fun hno => absurd hclaim hno⟩
  have hclaimed : ∀ u : FileSys, u.node = Function.update s'.node i
      { s'.node i with reclaimCount := (s'.node i).reclaimCount - 1 } → Tallied s c o u ∧
      (u.node i).refCount = 0 ∧ (u.node i).openCount = 0 := fun u hu =>
    ⟨hsame h href hopen hu href hopen, by rw [hu, Function.update_self]; exact href,
      by rw [hu, Function.update_self]; exact hopen⟩
  rw [wpe_ite]
  refine ⟨fun _ => (hclaimed _ rfl).1, fun _ => ?_⟩
  simp only [wpe_bind, wpe_get]
  rw [if_neg hw.links, wpe_bind, wpe_get, wpe_ite]
  refine ⟨fun _ => ?_, fun _ => ?_⟩
  · simp only [vopFsync, vopAny, wpe_bind]
    refine wpe_vopOp_provided rfl (by simp [hopen]) (by simp [href]) ?_
    refine wpe_mono (Writable.wpe_sfsFsync ?_) (fun _ u hu => ?_) (fun _ u hu => ?_) fun _ => id
    · exact hw
    · obtain ⟨hu', hr, ho⟩ := hclaimed u hu.2
      exact hend u hu' hu.1 hr ho
    · exact (hclaimed u hu.2).1
  · exact hend _ (hclaimed _ rfl).1 hw (hclaimed _ rfl).2.1 (hclaimed _ rfl).2.2

/-- **`vop_ref_dec`** takes back a reference, and reclaims the inode where that was the last one. -/
theorem Tallied.wpe_refDec (h : Tallied s (oneMore c i) o s') (hw : Writable i s'.vol)
    (hopen : (s'.node i).openCount < (s'.node i).refCount)
    (hclaim : (s'.node i).refCount = 1 → 0 < (s'.node i).reclaimCount) :
    wpe (inodeRefDec i) (fun _ u => Tallied s c o u) R E s' := by
  have href := (h i).1
  rw [oneMore_self] at href
  have hback : ∀ u : FileSys, u.node = Function.update s'.node i
      { s'.node i with refCount := (s'.node i).refCount - 1 } → Tallied s c o u := fun u hu => by
    refine h.counts i _ hu (fun j hj => ⟨(oneMore_of_ne hj).symm, rfl⟩) ?_ (h i).2
    dsimp only
    omega
  simp only [inodeRefDec, Fs.setNode, wpe_bind, wpe_modify, wpe_get, wpe_demand]
  refine ⟨fun _ => ?_, fun hno => absurd (show 0 < _ by omega) hno⟩
  rw [wpe_ite]
  refine ⟨fun h0 => ?_, fun _ => hback _ rfl⟩
  rw [Function.update_self] at h0
  dsimp only at h0
  have hopen0 : (s'.node i).openCount = 0 := by omega
  simp only [wpe_ignore, vopAny, wpe_bind]
  refine wpe_vopOp_provided rfl ?_ ?_ ?_
  · simp [hopen0]
  · simp [h0]
  · refine wpe_mono ((hback _ rfl).wpe_reclaim hw ?_ ?_ ?_) (fun _ _ => id) (fun _ _ => id) fun _ => id
    · simpa using h0
    · simpa using hopen0
    · simpa using hclaim (by omega)

/-- The blocks of a file are given up, one after the other. -/
theorem wpe_reduce_all {n : ℕ} (h : ∃ loose, Owned inos loose v) (hi : i ∈ inos) (hn : n ≤ (v.inode i).blocks) :
    wpe (reduce i n) (fun _ w => (w.inode i).blocks = (v.inode i).blocks - n) (fun e _ => e < 0)
      (fun _ => False) v := by
  induction n generalizing v with
  | zero => exact rfl
  | succ n ih =>
    obtain ⟨loose, hown⟩ := h
    rw [reduce, wpe_bind]
    refine wpe_sfsBmapTruncateNolock hown hi (fun h0 => ?_) (fun w hd hb => ?_) fun e he _ _ _ => he
    · omega
    · refine wpe_mono (ih ⟨_, hd.owned⟩ (by omega)) (fun _ u hu => ?_) (fun _ _ => id) fun _ => id
      omega

/-- **A length of 0** is set, or an error is returned; a file of length 0 must have no blocks. -/
theorem wpe_truncfile_zero (h : Owned inos loose v) (hi : i ∈ inos) (hlinks : (v.inode i).nlinks ≠ 0)
    (hblocks : (v.inode i).size = 0 → (v.inode i).blocks = 0) :
    wpe (sfsTruncfile i 0) (fun _ _ => True) (fun e w => e < 0 ∧ Writable i w) (fun _ => False) v := by
  have hround : roundUpDiv 0 SFS_BLKSIZE = 0 := rfl
  have hreturns : wpe (sfsTruncfile i 0) (fun _ _ => True) (fun e _ => e < 0) (fun _ => False) v := by
    rw [sfsTruncfile, if_neg (by norm_num [SFS_MAX_FILE_SIZE])]
    simp only [wpe_bind, wpe_get, Int.toNat_zero, hround]
    rw [wpe_ite]
    refine ⟨fun hsize => ?_, fun _ => ?_⟩
    · rw [wpe_demand]
      exact ⟨fun _ => trivial, fun hno => hno (hblocks hsize).symm⟩
    · rw [if_neg (Nat.not_lt_zero _), Nat.sub_zero, wpe_bind]
      refine wpe_mono (wpe_reduce_all ⟨_, h⟩ hi le_rfl) (fun _ w hw => ?_) (fun _ _ => id) fun _ => id
      simp only [wpe_bind, wpe_get, wpe_demand, Sfs.setInode, wpe_modify]
      exact ⟨fun _ => trivial, fun hno => hno (by omega)⟩
  refine wpe_mono (wpe_and hreturns (wpe_and (Sfs.keeps_sfsTruncfile hi v (.refl h)) wpe_truncfile_told))
    (fun _ _ _ => trivial) (fun e w hw => ⟨hw.1, ?_⟩) fun _ => And.left
  obtain ⟨-, ⟨⟨_, hown⟩, -⟩, hb, -⟩ := hw
  exact .of_owned hown hi (hb.nlinks ▸ hlinks)

/-- **A file of length 0 with blocks** fails the assertion. -/
theorem stops_truncfile_zero (hsize : (v.inode i).size = 0) (hblocks : (v.inode i).blocks ≠ 0) :
    wpe (sfsTruncfile i 0) (fun _ _ => False) (fun _ _ => False) (fun _ => True) v := by
  have hround : roundUpDiv 0 SFS_BLKSIZE = 0 := rfl
  rw [sfsTruncfile, if_neg (by norm_num [SFS_MAX_FILE_SIZE])]
  simp only [wpe_bind, wpe_get, Int.toNat_zero, hround]
  rw [if_pos hsize, wpe_demand]
  exact ⟨fun h0 => hblocks h0.symm, fun _ => trivial⟩

end GiveBack

/-! ## An inode that is loaded may be reclaimed -/

section Claims

variable {s : FileSys} {i : ℕ} {I : FileSys → Prop}

/-- **Every inode without references in `s` that has some now** may be reclaimed. -/
def Claims (s s' : FileSys) : Prop :=
  ∀ i, (s.node i).refCount = 0 → 0 < (s'.node i).refCount → 0 < (s'.node i).reclaimCount

/-- An invariant of the counts of the inodes. -/
def OfNodes (I : FileSys → Prop) : Prop := ∀ s s' : FileSys, s'.node = s.node → I s → I s'

theorem OfNodes.onVol {α : Type} (hI : OfNodes I) (m : Sfs.Call α) : Keeps I (onVol m) := fun s h => by
  rw [Fs.onVol, wpe_zoome, wpe, wp]
  split
  · next r _ => obtain ⟨r, w⟩ := r; cases r <;> exact hI s _ rfl h
  · trivial

theorem OfNodes.kmalloc (hI : OfNodes I) : Keeps I kmalloc :=
  .bind .get fun _ => .bind (.modify fun s h => hI s _ rfl h) fun _ =>
    .ite (fun _ => .pure _) fun _ => .throw _

theorem keeps_check {provided : FileType → Bool} : Keeps I (vopOp i provided) :=
  .bind .get fun _ => .bind .demand fun _ => .bind .get fun _ => .demand

theorem OfNodes.vopFsync (hI : OfNodes I) : Keeps I (vopFsync i) :=
  .bind keeps_check fun _ => .bind .get fun _ => .ite (fun _ => .bind (hI.onVol _) fun _ =>
    .bind .get fun _ => .onError (hI.onVol _) (hI.onVol _)) fun _ => .pure _

/-- **`sfs_reclaim`** keeps an invariant that does not see whether the inode is in memory. -/
theorem OfNodes.sfsReclaim (hI : OfNodes I)
    (hset : ∀ f : Node → Node, (∀ node, (f node).refCount = node.refCount) → Keeps I (setNode i f)) :
    Keeps I (sfsReclaim i) := by
  have hend : Keeps I (do
      setNode i fun node => { node with cached := false }
      let din := (← get).vol.inode i
      if din.nlinks = 0 then
        Fs.onVol (sfsBlockFree i)
        if din.indirect ≠ 0 then
          Fs.onVol (sfsBlockFree din.indirect)
      inodeKill i : Call Unit) := by
    have hkill : Keeps I (inodeKill i) := .bind .get fun _ => .demand
    refine .bind (hset _ fun _ => rfl) fun _ => .bind .get fun _ => .ite (fun _ => .bind (hI.onVol _) fun _ =>
      .ite (fun _ => .bind (hI.onVol _) fun _ => hkill) fun _ => hkill) fun _ => hkill
  have hsync : Keeps I (do
      if ((← get).vol.inode i).dirty = true then
        Fs.vopFsync i
      setNode i fun node => { node with cached := false }
      let din := (← get).vol.inode i
      if din.nlinks = 0 then
        Fs.onVol (sfsBlockFree i)
        if din.indirect ≠ 0 then
          Fs.onVol (sfsBlockFree din.indirect)
      inodeKill i : Call Unit) :=
    .bind .get fun _ => .ite (fun _ => .bind hI.vopFsync fun _ => hend) fun _ => hend
  exact .bind .get fun _ => .bind .demand fun _ => .bind (hset _ fun _ => rfl) fun _ => .bind .get fun _ =>
    .ite (fun _ => .throw _) fun _ => .bind .get fun _ =>
    .ite (fun _ => .bind (.bind keeps_check fun _ => hI.onVol _) fun _ => hsync) fun _ => hsync

theorem ofNodes_claims : OfNodes (Claims s) := fun _ _ heq h i h0 hpos => by
  rw [heq] at hpos ⊢
  exact h i h0 hpos

/-- Counts of one inode that may be reclaimed, or that nobody refers to. -/
theorem Claims.setNode {s' : FileSys} {f : Node → Node} {Q : Unit → FileSys → Prop} {R : ℤ → FileSys → Prop}
    {E : Assertion → Prop} (h : Claims s s')
    (hf : (s.node i).refCount = 0 → 0 < (f (s'.node i)).refCount → 0 < (f (s'.node i)).reclaimCount)
    (hQ : ∀ u, u.node i = f (s'.node i) → Claims s u → Q () u) : wpe (Fs.setNode i f) Q R E s' := by
  rw [Fs.setNode, wpe_modify]
  refine hQ _ (Function.update_self ..) fun j h0 hpos => ?_
  dsimp only at hpos ⊢
  rcases eq_or_ne j i with rfl | hji
  · rw [Function.update_self] at hpos ⊢
    exact hf h0 hpos
  · rw [Function.update_of_ne hji] at hpos ⊢
    exact h j h0 hpos

theorem claims_refInc (hi : (s.node i).refCount ≠ 0) : Keeps (Claims s) (inodeRefInc i) :=
  .bind (fun _ h => h.setNode (fun h0 => absurd h0 hi) fun _ _ hu => hu) fun _ => .bind .get fun _ => .pure _

theorem claims_refDec : Keeps (Claims s) (inodeRefDec i) := by
  refine .bind .get fun _ => .bind .demand fun _ => fun s' h => ?_
  rw [wpe_bind]
  refine h.setNode (fun h0 hpos => h i h0 (hpos.trans_le (Nat.sub_le ..))) fun u _ hu => ?_
  rw [wpe_bind, wpe_get, wpe_ite]
  refine ⟨fun h0 => ?_, fun _ => hu⟩
  -- nobody refers to the inode while it is reclaimed
  have hnodes : OfNodes fun u => Claims s u ∧ (u.node i).refCount = 0 := fun _ _ heq h =>
    ⟨ofNodes_claims _ _ heq h.1, heq ▸ h.2⟩
  have hkeep := hnodes.sfsReclaim (i := i) fun f hf u hu => hu.1.setNode
    (fun _ hpos => by rw [hf, hu.2] at hpos; exact absurd hpos (lt_irrefl _))
    fun w hw hclaims => ⟨hclaims, by rw [hw, hf, hu.2]⟩
  rw [wpe_ignore, wpe_bind]
  refine wpe_mono (keeps_check (I := fun u => Claims s u ∧ (u.node i).refCount = 0) u ⟨hu, h0⟩) ?_
    (fun _ _ => And.left) fun _ => id
  exact fun _ w hw => wpe_mono (hkeep w hw) (fun _ _ => And.left) (fun _ _ => And.left) fun _ => id

/-- **`sfs_load_inode`** lets an inode that nobody referred to be reclaimed. -/
theorem claims_load : Keeps (Claims s) (sfsLoadInode i) := fun s' h => by
  rw [sfsLoadInode, wpe_bind, wpe_get, wpe_ite]
  refine ⟨fun _ => ?_, fun _ => ?_⟩
  · simp only [inodeRefInc, Fs.setNode, wpe_bind, wpe_modify, wpe_get, wpe_pure, Function.update_self]
    have hother : ∀ {node : Node} {j : ℕ}, j ≠ i → (s.node j).refCount = 0 →
        0 < (Function.update s'.node i node j).refCount →
        0 < (Function.update s'.node i node j).reclaimCount := fun {node j} hji h0 hpos => by
      rw [Function.update_of_ne hji] at hpos ⊢
      exact h j h0 hpos
    rw [wpe_ite]
    refine ⟨fun _ j h0 hpos => ?_, fun hmore j h0 hpos => ?_⟩
    · dsimp only at hpos ⊢
      rw [Function.update_idem] at hpos ⊢
      rcases eq_or_ne j i with rfl | hji
      · rw [Function.update_self]
        exact Nat.succ_pos _
      · exact hother hji h0 hpos
    · rcases eq_or_ne j i with rfl | hji
      · dsimp only
        rw [Function.update_self]
        exact h j h0 (Nat.pos_of_ne_zero fun hr => hmore (by rw [hr]))
      · exact hother hji h0 hpos
  · have hrest : Keeps (Claims s) (do
        kmalloc
        Act.demand .loadInodeInuse (← onVol (sfsBlockInuse i))
        let data ← onVol (sfsRbuf SFS_DIN_SIZE i 0)
        let din := decodeDin ((← get).vol.inode i) data
        Act.demand .loadInodeLinks (din.nlinks ≠ 0)
        kmalloc
        Act.demand .inodeType (din.type = .file ∨ din.type = .dir)
        onVol (Sfs.setInode i fun _ => din)
        Fs.setNode i fun _ => ⟨true, 1, 0, 1⟩ : Call Unit) := by
      have hI : OfNodes (Claims s) := ofNodes_claims
      refine .bind hI.kmalloc fun _ => .bind (hI.onVol _) fun _ => .bind .demand fun _ =>
        .bind (hI.onVol _) fun _ => .bind .get fun _ => .bind .demand fun _ => .bind hI.kmalloc fun _ =>
        .bind .demand fun _ => .bind (hI.onVol _) fun _ => fun u hu => ?_
      exact hu.setNode (fun _ _ => Nat.one_pos) fun _ _ hw => hw
    exact hrest s' h

/-- **`sfs_lookup`**, from a directory that is referred to. -/
theorem claims_lookup {path : List UInt8} (hi : (s.node i).refCount ≠ 0) : Keeps (Claims s) (sfsLookup i path) := by
  have hI : OfNodes (Claims s) := ofNodes_claims
  refine .bind .demand fun _ => .bind (claims_refInc hi) fun _ => .andThen (.bind .get fun _ =>
    .ite (fun _ => .throw _) fun _ => .bind ?_ fun _ => .bind claims_load fun _ => .pure _) claims_refDec
  exact .bind .demand fun _ => .bind hI.kmalloc fun _ => .bind .get fun _ => hI.onVol _

end Claims

/-! ## The lookup -/

namespace Vfs

variable {inos loose : Finset ℕ} {s u : Vfs} {buf path rest : List UInt8} {names : List (List UInt8)}
  {n m : Inode} {flags : ℕ} {devs : ℕ → DeviceType} {R : ℤ → Vfs → Prop} {E : Assertion → Prop}

/-- What a lookup leaves: the places where paths start, and inodes that may be reclaimed. -/
structure Settled (s u : Vfs) : Prop where
  pwd : u.pwd = s.pwd
  vdevList : u.vdevList = s.vdevList
  bootfsNode : u.bootfsNode = s.bootfsNode
  claims : Claims s.files u.files

theorem Settled.starts (h : Settled s u) (path : List UInt8) (n : Inode) (rest : List UInt8) :
    Starts u path n rest ↔ Starts s path n rest := by
  have hdev : ∀ name m, DevRoot u name m ↔ DevRoot s name m := fun name m => by
    rw [DevRoot, DevRoot, h.vdevList]
  refine ⟨fun hs => ?_, fun hs => ?_⟩
  · cases hs with
    | boot hb => exact .boot (h.bootfsNode ▸ hb)
    | root hd => exact .root (h.pwd ▸ hd)
    | device hne hname hroot => exact .device hne hname ((hdev _ _).mp hroot)
    | here hd hslash hcolon => exact .here (h.pwd ▸ hd) hslash hcolon
  · cases hs with
    | boot hb => exact .boot (h.bootfsNode.trans hb)
    | root hd => exact .root (h.pwd.trans hd)
    | device hne hname hroot => exact .device hne hname ((hdev _ _).mpr hroot)
    | here hd hslash hcolon => exact .here (h.pwd.trans hd) hslash hcolon

theorem settled_onFileSys {α : Type} {m : Fs.Call α} (hm : Keeps (Claims s.files) m) :
    Keeps (Settled s) (onFileSys m) := fun u h => by
  rw [onFileSys, wpe_zoome]
  exact wpe_mono (hm u.files h.claims) (fun _ _ hc => ⟨h.pwd, h.vdevList, h.bootfsNode, hc⟩)
    (fun _ _ hc => ⟨h.pwd, h.vdevList, h.bootfsNode, hc⟩) fun _ => id

theorem settled_setDevNode {d : ℕ} {f : Node → Node} : Keeps (Settled s) (setDevNode d f) :=
  .modify fun _ h => ⟨h.pwd, h.vdevList, h.bootfsNode, h.claims⟩

theorem settled_refInc (hn : ∀ i, n = .sfs i → (s.files.node i).refCount ≠ 0) :
    Keeps (Settled s) (vopRefInc n) := by
  cases n with
  | sfs i => exact settled_onFileSys (.bind (claims_refInc (hn i rfl)) fun _ => .pure _)
  | dev d =>
    rw [vopRefInc]
    exact settled_setDevNode

theorem settled_refDec : Keeps (Settled s) (vopRefDec n) := by
  cases n with
  | sfs i => exact settled_onFileSys claims_refDec
  | dev d => exact .bind .get fun _ => .bind .demand fun _ => settled_setDevNode

theorem Rooted.settled_getCurdir (h : Rooted inos loose s) : Keeps (Settled s) vfsGetCurdir := fun u hu => by
  rw [vfsGetCurdir, wpe_bind, wpe_get]
  cases hi : u.pwd with
  | some i =>
    have hanchor := h.pwd i (hu.pwd ▸ hi)
    exact Keeps.bind (settled_refInc fun j hj => Inode.sfs.inj hj ▸ hanchor.refs.ne') (fun _ => .pure _) u hu
  | none => exact hu

theorem Rooted.settled_getBootfs (h : Rooted inos loose s) : Keeps (Settled s) vfsGetBootfs := fun u hu => by
  rw [vfsGetBootfs, wpe_bind, wpe_get]
  cases hi : u.bootfsNode with
  | some i =>
    have hanchor := h.bootfs i (hu.bootfsNode ▸ hi)
    exact Keeps.bind (settled_refInc fun j hj => Inode.sfs.inj hj ▸ hanchor.refs.ne') (fun _ => .pure _) u hu
  | none => exact hu

theorem settled_fsopGetRoot : Keeps (Settled s) fsopGetRoot := fun u hu => by
  rw [fsopGetRoot, wpe_bind, wpe_attempt]
  exact wpe_mono (settled_onFileSys claims_load u hu) (fun _ _ h => h) (fun _ _ _ => trivial) fun _ => id

theorem Rooted.settled_getDevice (h : Rooted inos loose s) (path : List UInt8) :
    Keeps (Settled s) (getDevice path) := by
  have hroot : ∀ name, Keeps (Settled s) (vfsGetRoot name) := fun name => by
    refine .bind .get fun u => ?_
    cases u.vdevList.find? fun vdev => vdev.devname == name with
    | some vdev =>
      exact .ite (fun _ => settled_fsopGetRoot) fun _ =>
        .ite (fun _ => .bind (settled_refInc fun _ hj => nomatch hj) fun _ => .pure _) fun _ => .throw _
    | none => exact .throw _
  refine .ite (fun _ => .bind h.settled_getCurdir fun _ => .pure _) fun _ =>
    .ite (fun _ => .bind (hroot _) fun _ => .pure _) fun _ =>
    .ite (fun _ => .bind h.settled_getBootfs fun _ => .pure _) fun _ => ?_
  exact .bind .demand fun _ => .bind h.settled_getCurdir fun n => .bind settled_fsopGetRoot fun _ =>
    .bind settled_refDec fun _ => .pure _

/-- The inodes of the tree lead to inodes of the tree. -/
theorem Rooted.mem_of_walk (h : Rooted inos loose s) (hw : Walk s.files.vol n names m)
    (hn : ∀ d, n = .sfs d → d ∈ inos) : ∀ i, m = .sfs i → i ∈ inos := by
  induction hw with
  | nil n => exact hn
  | @cons d i name names m hd hfound hwalk ih =>
    refine ih fun j hj => ?_
    obtain rfl := Inode.sfs.inj hj
    rw [Found] at hfound
    split at hfound
    · exact hfound ▸ hn d rfl
    · obtain ⟨slot, -, hmax, hnames, -⟩ := hfound
      exact h.tree.entries d (hn d rfl) hd slot hmax name i hnames

/-- **A lookup that is accepted**, with what it leaves. -/
theorem Rooted.wpe_lookup (h : Rooted inos loose s)
    (ha : ∀ n rest, Starts s path n rest → Accepts s n rest) :
    wpe (vfsLookup path) (fun n u => outcome (vfsLookup path) s = some (.ok n) ∧ (∀ i, n = .sfs i → i ∈ inos) ∧
        Moved s (oneMore (fun _ => 0) n) u ∧ Settled s u)
      (fun e u => outcome (vfsLookup path) s = some (.error e) ∧ Declined s e u ∧ Settled s u)
      (fun _ => False) s := by
  have hself : Settled s s := ⟨rfl, rfl, rfl, fun i h0 hpos => absurd hpos (by omega)⟩
  by_cases hsome : ∃ n rest, Starts s path n rest
  · obtain ⟨n, rest, hs⟩ := hsome
    have hstart : ∀ d, n = .sfs d → Anchored inos s.files d := fun d hd => (hd ▸ hs).anchored h
    have hsettled : wpe (vfsLookup path) (fun _ => Settled s) (fun _ => Settled s) (fun _ => True) s := by
      rw [vfsLookup, wpe_bind]
      refine wpe_mono (wpe_and (h.wpe_getDevice (R := fun _ _ => True) (E := fun _ => True) hs)
        (h.settled_getDevice path s hself)) ?_ (fun _ _ => And.right) fun _ _ => trivial
      rintro _ u ⟨⟨rfl, -⟩, hu⟩
      dsimp only
      refine Keeps.ite (fun _ => .andThen ?_ settled_refDec) (fun _ => .pure _) u hu
      cases n with
      | sfs d =>
        exact settled_onFileSys (.bind keeps_check fun _ =>
          .bind (claims_lookup (hstart d rfl).refs.ne') fun _ => .pure _)
      | dev d =>
        exact .bind .get fun _ => .bind .demand fun _ => .ite (fun _ => .throw _) fun _ =>
          .bind (settled_refInc fun _ hj => by cases hj) fun _ => .pure _
    refine wpe_mono (wpe_and (wpe_outcome _ s) (wpe_and (h.wpe_vfsLookup (E := fun _ => False) hs
      (ha n rest hs)) hsettled)) ?_ (fun e u hu => ⟨hu.1, hu.2.1, hu.2.2⟩) fun _ he => he.2.1
    rintro m u ⟨hout, ⟨⟨-, n', rest', hs', hwalk⟩, hm⟩, hu⟩
    exact ⟨hout, h.mem_of_walk hwalk fun d hd => ((hd ▸ hs').anchored h).mem, hm, hu⟩
  · have hnone : wpe (vfsLookup path) (fun _ _ => False) (fun e u => Declined s e u ∧ Settled s u)
        (fun _ => False) s := by
      rw [vfsLookup, wpe_bind]
      refine wpe_mono (wpe_and (wpe_getDevice_none (E := fun _ => False) fun n rest hs => hsome ⟨n, rest, hs⟩)
        (h.settled_getDevice path s hself)) (fun _ _ hf => hf.1.elim) (fun _ _ => id) fun _ => And.left
    exact wpe_mono (wpe_and (wpe_outcome _ s) hnone) (fun _ _ hu => hu.2.elim) (fun _ _ hu => hu)
      fun _ he => he.2

/-! ## The inode -/

/-- The counts of the volume and those of the devices. -/
theorem Tally.of_parts {c o : Inode → ℕ} (hf : Tallied s.files (fun i => c (.sfs i)) (fun i => o (.sfs i)) u.files)
    (hd : ∀ d, (u.devNode d).refCount = (s.devNode d).refCount + c (.dev d) ∧
      (u.devNode d).openCount = (s.devNode d).openCount + o (.dev d)) : Tally s c o u := fun n => by
  cases n with
  | sfs i => exact hf i
  | dev d => exact hd d

theorem Moved.tally {c : Inode → ℕ} (h : Moved s c u) : Tally s c (fun _ => 0) u := fun n =>
  ⟨h.refs n, h.opens n⟩

theorem devOpen_nonpos (type : DeviceType) (flags : ℕ) : devOpen type flags ≤ 0 := by
  have hinval : (-E_INVAL : ℤ) ≤ 0 := by decide
  unfold devOpen dopOpen
  repeat' split
  all_goals first | exact hinval | exact le_rfl

/-- A device is not opened with a flag that would change its length. -/
theorem devOpen_zero {type : DeviceType} (h : devOpen type flags = 0) :
    ¬ (has flags O_TRUNC = true ∨ has flags O_CREAT = true) := by
  have hflags : flags &&& (O_CREAT ||| O_TRUNC ||| O_EXCL ||| O_APPEND) = 0 := by
    by_contra hne
    rw [devOpen, if_pos hne] at h
    exact absurd h (by decide)
  have hclear : ∀ flag, (O_CREAT ||| O_TRUNC ||| O_EXCL ||| O_APPEND) &&& flag = flag →
      ¬ has flags flag = true := fun flag hflag => by
    rw [has, ← hflag, ← Nat.and_assoc, hflags, Nat.zero_and]
    simp
  rintro (htrunc | hcreat)
  · exact hclear O_TRUNC (by decide) htrunc
  · exact hclear O_CREAT (by decide) hcreat

/-- **The second half of `vfs_open`** balances if and only if the inode can be opened so. -/
theorem Rooted.wpe_vfsOpenNode (h : Rooted inos loose s) (hm : Moved s (oneMore (fun _ => 0) n) u)
    (hc : Claims s.files u.files) (hn : ∀ i, n = .sfs i → i ∈ inos)
    (hacc : ¬ (has flags O_TRUNC = true ∧ flags &&& O_ACCMODE = 0))
    (hexcl : ¬ (has flags O_EXCL = true ∧ has flags O_CREAT = true)) :
    wpe (vfsOpenNode devs flags n) (fun m t => Balanced s m t ↔ Openable flags s n)
      (fun e t => Restored s e t ↔ Openable flags s n) (fun _ => ¬ Openable flags s n) u := by
  cases n with
  | dev d =>
    have href : (u.devNode d).refCount = (s.devNode d).refCount + 1 := by
      rw [hm.devRefs, oneMore_self]
    have hopens := h.devOpens d
    have hopen := hm.devOpens d
    have hopenable : (s.devNode d).refCount + 1 < MAX_INODE_COUNT → Openable flags s (.dev d) := fun hroom =>
      ⟨hroom, hexcl, fun i hi => nomatch hi⟩
    simp only [vfsOpenNode, vopOpen, devCheck, wpe_bind, wpe_onError, wpe_get, wpe_demand]
    refine ⟨fun hcheck => ?_, fun hno hop => hno ?_⟩
    · have hop := hopenable (href ▸ hcheck.2.1)
      rw [wpe_ite]
      refine ⟨fun hne => ?_, fun hzero => ?_⟩
      · rw [wpe_throw]
        refine wpe_mono (hm.decDev one_le_oneMore) (fun _ t ht => ?_) (fun _ _ => id) fun _ => id
        rw [oneLess_oneMore] at ht
        exact iff_of_true ⟨(devOpen_nonpos _ _).lt_of_ne hne, ht.tally⟩ hop
      · have hkeep := devOpen_zero (not_not.mp hzero)
        simp only [vopOpenInc, setDevNode, wpe_pure, wpe_modify]
        rw [if_neg hkeep, wpe_pure]
        refine iff_of_true (Tally.of_parts (fun i => ?_) fun e => ⟨?_, ?_⟩) hop
        · dsimp only
          rw [oneMore_of_ne (by simp)]
          exact ⟨hm.files.refs i, hm.files.opens i⟩
        · dsimp only
          rw [Function.update_apply]
          split_ifs with hed
          · rw [hed, oneMore_self, href]
          · rw [hm.devRefs]
        · dsimp only
          rw [Function.update_apply]
          split_ifs with hed
          · rw [hed, oneMore_self, hopen]
          · rw [oneMore_of_ne (by simpa using hed), hm.devOpens, Nat.add_zero]
    · have hroom : (s.devNode d).refCount + 1 < MAX_INODE_COUNT := hop.1
      exact ⟨by omega, by omega, by omega⟩
  | sfs i =>
    have hi := hn i rfl
    have hdin : u.files.vol.inode = s.files.vol.inode := hm.files.vol.inode
    have hown : Owned inos loose u.files.vol := hm.files.vol.owned h.tree.owned
    have hlinks : (u.files.vol.inode i).nlinks ≠ 0 := hdin ▸ (h.tree.dins i hi).links
    have htally : Tallied s.files (oneMore (fun _ => 0) i) (fun _ => 0) u.files := fun j =>
      ⟨(hm.files.refs j).trans (congrArg _ (congrFun oneMore_sfs j)), hm.files.opens j⟩
    have href : (u.files.node i).refCount = (s.files.node i).refCount + 1 := by
      rw [(htally i).1, oneMore_self]
    have hopen : (u.files.node i).openCount = (s.files.node i).openCount := (htally i).2
    have hle := h.tree.opens i
    have hback : ∀ e < 0, ∀ f, Tallied s.files (fun _ => 0) (fun _ => 0) f →
        Restored s e { u with files := f } := fun e he f hf => ⟨he, Tally.of_parts hf fun d =>
      ⟨(hm.devRefs d).trans (by rw [oneMore_of_ne (by simp)]), hm.devOpens d⟩⟩
    have hdone : ∀ f, Tallied s.files (oneMore (fun _ => 0) i) (oneMore (fun _ => 0) i) f →
        Balanced s (.sfs i) { u with files := f } := fun f hf => Tally.of_parts (by rwa [oneMore_sfs]) fun d =>
      ⟨(hm.devRefs d).trans (by rw [oneMore_of_ne (by simp)]),
        (hm.devOpens d).trans (by rw [oneMore_of_ne (by simp), Nat.add_zero])⟩
    simp only [vfsOpenNode, vopOpen, Fs.vopOpen, vopAny, vopOp, inodeCheck, onFileSys, wpe_bind, wpe_onError,
      wpe_zoome, wpe_get, wpe_demand]
    refine ⟨fun _ => ⟨fun hcheck => ?_, fun hno hop => hno ?_⟩, fun hno => absurd trivial hno⟩
    · have hroom : (s.files.node i).refCount + 1 < MAX_INODE_COUNT := href ▸ hcheck.2.1
      rw [hdin]
      rcases h.tree.types i hi with htype | htype
      · rw [if_neg (by simp [htype]), wpe_pure]
        simp only [vopOpenInc, onFileSys, wpe_zoome]
        refine htally.wpe_openInc fun f hf hvol hclaim => ?_
        have hopenable : (has flags O_TRUNC = true ∨ has flags O_CREAT = true →
            (s.files.vol.inode i).size = 0 → (s.files.vol.inode i).blocks = 0) → Openable flags s (.sfs i) :=
          fun hblocks => ⟨hroom, hexcl, fun j hj => by
            obtain rfl := Inode.sfs.inj hj
            exact ⟨fun hdir => by simp [htype] at hdir, fun _ => hblocks⟩⟩
        have hfref : (f.node i).refCount = (s.files.node i).refCount + 1 := by rw [(hf i).1, oneMore_self]
        have hfopen : (f.node i).openCount = (s.files.node i).openCount + 1 := by rw [(hf i).2, oneMore_self]
        rw [wpe_ite]
        refine ⟨fun hset => ?_, fun hkeep => ?_⟩
        · simp only [vopTruncate, Fs.vopTruncate, vopFile, vopOpenDec, vopRefDec, onFileSys, wpe_bind,
            wpe_onError, wpe_zoome, wpe_pure]
          refine wpe_vopOp_provided (by rw [hvol, hdin]; simp [htype]) (by omega) (by omega) ?_
          rw [onVol, wpe_zoome, hvol]
          by_cases hblocks : (s.files.vol.inode i).size = 0 → (s.files.vol.inode i).blocks = 0
          · have hop := hopenable fun _ => hblocks
            refine wpe_mono (wpe_truncfile_zero hown hi hlinks (hdin ▸ hblocks)) (fun _ w _ => ?_)
              (fun e w he => ?_) fun _ hno => hno.elim
            · exact iff_of_true (hdone _ (hf.of_node rfl)) hop
            · have hfw : Tallied s.files (oneMore (fun _ => 0) i) (oneMore (fun _ => 0) i)
                  { f with vol := w } := hf.of_node rfl
              have hfroom : (f.node i).refCount < MAX_INODE_COUNT := by omega
              refine wpe_mono (hfw.wpe_openDec he.2 hfroom) (fun _ t ht => ?_) (fun _ _ => id) fun _ => id
              obtain ⟨⟨htally, hreclaim⟩, hw⟩ := ht
              have htref : (t.node i).refCount = (s.files.node i).refCount + 1 := by
                rw [(htally i).1, oneMore_self]
              have htopen : (t.node i).openCount = (s.files.node i).openCount := (htally i).2
              refine wpe_mono (htally.wpe_refDec hw (by omega) fun hlast => ?_)
                (fun _ t ht => iff_of_true (hback e he.1 t ht) hop) (fun _ _ => id) fun _ => id
              rw [hreclaim, hclaim]
              exact hc i (by omega) (by omega)
          · obtain ⟨hsize, hsome⟩ := Classical.not_imp.mp hblocks
            refine wpe_mono (stops_truncfile_zero (hdin ▸ hsize) (hdin ▸ hsome)) (fun _ _ => False.elim)
              (fun _ _ => False.elim) fun _ _ hop => hblocks ((hop.2.2 i rfl).2 htype hset)
        · rw [wpe_pure]
          exact iff_of_true (hdone f hf) (hopenable fun hset => absurd hset hkeep)
      · rw [if_pos htype, wpe_ite]
        refine ⟨fun hrefuse => ?_, fun hread => ?_⟩
        · rw [wpe_throw]
          simp only [vopRefDec, onFileSys, wpe_zoome]
          have hneg : (-E_ISDIR : ℤ) < 0 := by decide
          refine wpe_mono (htally.wpe_refDec (.of_owned hown hi hlinks) (by omega) fun hlast => ?_)
            (fun _ t ht => iff_of_true (hback _ hneg t ht) ⟨hroom, hexcl, fun j hj => ?_⟩) (fun _ _ => id)
            fun _ => id
          · exact hc i (by omega) (by omega)
          · exact ⟨fun _ _ => hrefuse, fun hfile => by simp [← Inode.sfs.inj hj, htype] at hfile⟩
        · obtain ⟨hzero, hkeep⟩ := not_or.mp hread
          rw [wpe_pure]
          simp only [vopOpenInc, onFileSys, wpe_zoome]
          refine htally.wpe_openInc fun f hf hvol _ => ?_
          rw [wpe_ite]
          refine ⟨fun hset => ?_, fun hplain => ?_⟩
          · -- a directory has no `vop_truncate`
            have hcreat : has flags O_CREAT = true := hset.resolve_left fun htrunc =>
              hacc ⟨htrunc, not_not.mp hzero⟩
            simp only [vopTruncate, Fs.vopTruncate, vopFile, vopOp, onFileSys, wpe_bind, wpe_onError, wpe_zoome,
              wpe_get, wpe_demand]
            refine ⟨fun hfile => ?_, fun _ hop => hread ((hop.2.2 i rfl).1 htype hcreat)⟩
            simp [hvol, hdin, htype] at hfile
          · rw [wpe_pure]
            refine iff_of_true (hdone f hf) ⟨hroom, hexcl, fun j hj => ⟨fun _ hcreat => ?_, fun hfile => ?_⟩⟩
            · exact absurd (.inr hcreat) hplain
            · simp [← Inode.sfs.inj hj, htype] at hfile
    · have hroom : (s.files.node i).refCount + 1 < MAX_INODE_COUNT := hop.1
      exact ⟨by omega, by omega, by omega⟩

/-! ## The call -/

/-- A call that returns no error. -/
abbrev NoError {σ ε ρ α : Type} (m : Act.Fallible σ ε ρ α) (s : σ) : Prop :=
  wpe m (fun _ _ => True) (fun _ _ => False) (fun _ => True) s

theorem noError_refInc : NoError (vopRefInc n) u := by
  cases n with
  | sfs i =>
    simp only [NoError, vopRefInc, onFileSys, inodeRefInc, Fs.setNode, wpe_zoome, wpe_bind, wpe_modify,
      wpe_get, wpe_pure]
  | dev d => simp only [NoError, vopRefInc, setDevNode, wpe_modify]

theorem noError_refDec : NoError (vopRefDec n) u := by
  cases n with
  | sfs i =>
    simp only [NoError, vopRefDec, onFileSys, inodeRefDec, Fs.setNode, wpe_zoome, wpe_bind, wpe_get, wpe_demand,
      wpe_modify]
    refine ⟨fun _ => ?_, fun _ => trivial⟩
    rw [wpe_ite]
    refine ⟨fun _ => ?_, fun _ => trivial⟩
    rw [wpe_ignore]
    exact wpe_mono (wpe_outcome _ _) (fun _ _ _ => trivial) (fun _ _ _ => trivial) fun _ _ => trivial
  | dev d => simp [NoError, vopRefDec, setDevNode]

theorem noError_fsopGetRoot : NoError fsopGetRoot u := by
  rw [NoError, fsopGetRoot, wpe_bind, wpe_attempt]
  exact wpe_mono (wpe_outcome _ _) (fun _ _ _ => trivial) (fun _ _ _ => trivial) fun _ _ => trivial

theorem noError_getCurdir {d : ℕ} (hd : u.pwd = some d) : NoError vfsGetCurdir u := by
  rw [NoError, vfsGetCurdir, wpe_bind, wpe_get, hd]
  dsimp only
  rw [wpe_bind]
  exact noError_refInc

/-- **A path that starts somewhere** is no error for `get_device`. -/
theorem noError_getDevice (hs : Starts u path n rest) : NoError (getDevice path) u := by
  have hend : ∀ {α β : Type} {m : Call α} {f : α → Call β} {u : Vfs}, NoError m u → (∀ a w, NoError (f a) w) →
      NoError (m >>= f) u := fun hm hf => by
    rw [NoError, wpe_bind]
    exact wpe_mono hm (fun a w _ => hf a w) (fun _ _ => id) fun _ => id
  cases hs with
  | @boot b rest hb =>
    rw [getDevice, scan_head_slash]
    dsimp only
    rw [if_neg (by simp), if_neg (by simp), if_pos (by simp)]
    refine hend ?_ fun _ _ => trivial
    rw [NoError, vfsGetBootfs, wpe_bind, wpe_get, hb]
    dsimp only
    rw [wpe_bind]
    exact noError_refInc
  | @root d rest hd =>
    have hhead : ¬ (COLON :: rest).head? = some SLASH := fun heq =>
      absurd (Option.some.inj heq) (by decide)
    rw [getDevice, scan_head_colon]
    dsimp only
    rw [if_neg (by simp), if_neg (by simp), if_neg hhead, NoError, wpe_bind, wpe_demand]
    refine ⟨fun _ => ?_, fun _ => trivial⟩
    exact hend (noError_getCurdir hd) fun _ _ => hend noError_fsopGetRoot fun _ _ =>
      hend noError_refDec fun _ _ => trivial
  | @device name rest n hne hname hroot =>
    have hlen : 0 < name.length := List.length_pos_of_ne_nil hne
    obtain ⟨vdev, hfind, hroot⟩ := hroot
    rw [getDevice, scan_colon hname, zero_add]
    dsimp only
    rw [if_neg (by omega), if_pos (by omega), Int.toNat_natCast, List.take_left]
    refine hend ?_ fun _ _ => trivial
    rw [NoError, vfsGetRoot, wpe_bind, wpe_get, hfind]
    dsimp only
    rcases hroot with ⟨hfs, rfl⟩ | ⟨hfs, hmount, rfl⟩
    · rw [if_pos hfs]
      exact noError_fsopGetRoot
    · rw [if_neg (by simp [hfs]), if_pos hmount, wpe_bind]
      exact noError_refInc
  | @here d path hd hslash hcolon =>
    rw [getDevice]
    dsimp only
    rw [if_pos (scan_relative hslash hcolon)]
    exact hend (noError_getCurdir hd) fun _ _ => trivial

/-- The whole call. -/
theorem Rooted.wpe_vfsOpen (h : Rooted inos loose s) :
    wpe (vfsOpen devs flags) (fun n t => Balanced s n t.vfs ↔ Opens flags s buf)
      (fun e t => Restored s e t.vfs ↔ Opens flags s buf) (fun _ => ¬ Opens flags s buf) ⟨s, buf⟩ := by
  have hinval : Restored s (-E_INVAL) s := ⟨by decide, fun n => ⟨rfl, rfl⟩⟩
  rw [vfsOpen, wpe_ite]
  refine ⟨fun hboth => iff_of_true hinval (.inl (.inl hboth)), fun hboth => ?_⟩
  rw [wpe_ite]
  refine ⟨fun htrunc => iff_of_true hinval (.inl (.inr htrunc)), fun htrunc => ?_⟩
  have hopens : Opens flags s buf ↔ _ := or_iff_right (not_or.mpr ⟨hboth, htrunc⟩)
  rw [hopens, vfsFind, wpe_bind, wpe_bind, wpe_attempt]
  by_cases ha : ∀ n rest, Starts s (cstr buf) n rest → Accepts s n rest
  · rw [and_iff_right ha]
    refine wpe_vfsLookupAt (wpe_mono (h.wpe_lookup ha) (fun n u hu => ?_) (fun e u hu => ?_) fun _ => False.elim)
    · obtain ⟨hout, hn, hm, hu⟩ := hu
      simp only [hout, Option.some.injEq, Except.ok.injEq, forall_eq', reduceCtorEq, IsEmpty.forall_iff,
        and_true]
      rw [wpe_ite]
      refine ⟨fun hexcl => ?_, fun hexcl => ?_⟩
      · -- the reference of the lookup is left
        rw [wpe_throw]
        refine iff_of_false (fun hr => ?_) fun hop => hop.2.1 hexcl
        have hleft := (hm.refs n).symm.trans (hr.2 n).1
        rw [oneMore_self] at hleft
        dsimp only at hleft
        omega
      · rw [wpe_pure, onVfs, wpe_zoome]
        exact h.wpe_vfsOpenNode hm hu.claims hn htrunc hexcl
    · obtain ⟨hout, ⟨he, hm⟩, hu⟩ := hu
      simp only [hout, Option.some.injEq, reduceCtorEq, IsEmpty.forall_iff, implies_true, Except.error.injEq,
        true_and]
      rw [wpe_ite]
      refine ⟨fun hnew => ?_, fun hplain => ?_⟩
      · obtain ⟨henoent, hcreat⟩ := hnew
        rw [wpe_bind, vfsLookupParent]
        refine wpe_getDeviceAt ?_
        by_cases hsome : ∃ n rest, Starts s (cstr (written buf)) n rest
        · -- no inode provides `vop_create`
          obtain ⟨n, rest, hs⟩ := hsome
          have hstop : ¬ (e = -E_NOENT → has flags O_CREAT = true →
              ∀ n rest, ¬ Starts s (cstr (written buf)) n rest) := fun hno => hno henoent hcreat n rest hs
          refine wpe_mono (noError_getDevice ((hu.starts _ _ _).mpr hs)) (fun _ _ _ _ _ => ?_)
            (fun _ _ => False.elim) fun _ _ => hstop
          simp only [wpe_bind, wpe_get, onVfs, vopCreate, wpe_zoome, wpe_stop]
          exact hstop
        · have hnone : ∀ n rest, ¬ Starts s (cstr (written buf)) n rest := fun n rest hs => hsome ⟨n, rest, hs⟩
          refine wpe_mono (wpe_getDevice_none fun n rest hs => hnone n rest ((hu.starts _ _ _).mp hs))
            (fun _ _ => False.elim) (fun e' t ht => ?_) fun _ => id
          refine iff_of_true ⟨ht.1, fun m => ?_⟩ fun _ _ => hnone
          rw [ht.2.refs, ht.2.opens, hm.refs, hm.opens]
          exact ⟨rfl, rfl⟩
      · rw [wpe_throw]
        refine iff_of_true ⟨he, hm.tally⟩ fun heq hcreat => absurd ⟨heq, hcreat⟩ hplain
  · simp only [not_forall] at ha
    obtain ⟨n, rest, hs, hna⟩ := ha
    exact wpe_vfsLookupAt (wpe_mono (h.stops_vfsLookup hs hna) (fun _ _ => False.elim) (fun _ _ => False.elim)
      fun _ _ hop => hna (hop.1 n rest hs))

end Vfs

end UCore.Fs
