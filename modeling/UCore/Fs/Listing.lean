import UCore.Fs.LookupRun
import UCore.Fs.ReadOut

/-!
# Fs/Listing — a directory is listed entry by entry

`sfs_getdirentry` of `kern/fs/sfs/sfs_inode.c`, `iobuf_move` of `kern/fs/iobuf.c` and
`file_getdirentry` of `kern/fs/file.c`.  The offset of a `struct dirent` counts what was returned, 256
for a name, and each call scans the slots from the first, over the empty ones:

    slots       a ▏ – ▏ b ▏ – ▏ – ▏ c          offset 0 ──▸ a, 256 ──▸ b, 512 ──▸ c, 768 ──▸ E_NOENT
-/

namespace UCore.Fs

open Sfs Act

/-- `sfs_dentry_size`. -/
abbrev sfsDentrySize : ℕ := 256

/-- `struct iobuf`; `buf` is what is at `io_base` when the buffer is set up. -/
structure Iobuf where
  buf : ℕ → UInt8
  offset : ℤ
  len : ℕ
  resid : ℕ

/-- `struct dirent`. -/
structure Dirent where
  offset : ℤ
  name : ℕ → UInt8

/-- `iobuf_used`. -/
def Iobuf.used (iob : Iobuf) : ℕ := iob.len - iob.resid

/-- `iobuf_move` to the buffer: the code, and the buffer after it. -/
def iobufMove (iob : Iobuf) (data : ℕ → UInt8) (len : ℕ) : ℤ × Iobuf :=
  let alen := min iob.resid len
  (if len - alen = 0 then 0 else -E_NO_MEM,
    { iob with
      buf := overlay iob.buf iob.used alen data
      offset := iob.offset + alen
      resid := iob.resid - alen })

/-- `sfs_getdirentry_sub_nolock`, over `count` slots from `at` on: the name. -/
def sfsGetdirentrySubNolock (i : ℕ) : ℕ → ℕ → ℕ → Sfs.Call (ℕ → UInt8)
  | 0, _, _ => throw (-E_NOENT)
  | count + 1, k, slot => do
    let (ino, name) ← sfsDirentReadNolock i k
    if ino ≠ 0 then
      if slot = 0 then
        return name
      else
        sfsGetdirentrySubNolock i count (k + 1) (slot - 1)
    else
      sfsGetdirentrySubNolock i count (k + 1) slot

/-- What `sfs_getdirentry` finds for an offset: the name. -/
def getdirentryName (i : ℕ) (offset : ℤ) : Call (ℕ → UInt8) := do
  kmalloc
  if offset < 0 ∨ offset % sfsDentrySize ≠ 0 then
    throw (-E_INVAL)
  else
    let slot := u32 (offset.toNat / sfsDentrySize)
    let blocks := ((← get).vol.inode i).blocks
    if slot > blocks then
      throw (-E_NOENT)
    else
      onVol (sfsGetdirentrySubNolock i blocks 0 slot)

/-- `sfs_getdirentry`: the code, and the buffer after it. -/
def sfsGetdirentry (i : ℕ) (iob : Iobuf) : Act FileSys Assertion (ℤ × Iobuf) := do
  match ← (getdirentryName i iob.offset).run with
  | .ok name => return iobufMove iob name sfsDentrySize
  | .error e => return (e, iob)

/-- `vop_getdirentry`, of a directory. -/
def vopGetdirentry (i : ℕ) (iob : Iobuf) : Call (ℤ × Iobuf) := do
  vopDir i
  ExceptT.lift (sfsGetdirentry i iob)

/-- `file_getdirentry`, up to the return of its code. -/
def getdirentryOf (t : ℕ) (fd : ℤ) (direntp : Dirent) : Call (ℤ × Dirent) := do
  let (fd, i) ← fd2file t fd
  fdArrayAcquire t fd
  let (ret, iob) ← vopGetdirentry i ⟨direntp.name, direntp.offset, sfsDentrySize, sfsDentrySize⟩
  fdArrayRelease t fd
  return (ret, ⟨if ret = 0 then direntp.offset + iob.used else direntp.offset, iob.buf⟩)

/-- `file_getdirentry`: the code, and `*direntp` after it. -/
def fileGetdirentry (t : ℕ) (fd : ℤ) (direntp : Dirent) : Act FileSys Assertion (ℤ × Dirent) := do
  match ← (getdirentryOf t fd direntp).run with
  | .ok r => return r
  | .error e => return (e, direntp)

/-- `n` calls, each with what the one before it leaves in `*direntp`. -/
def listing (t : ℕ) (fd : ℤ) : ℕ → Dirent → Act FileSys Assertion (List (ℤ × Dirent))
  | 0, _ => return []
  | n + 1, direntp => do
    let r ← fileGetdirentry t fd direntp
    return r :: (← listing t fd n r.2)

end UCore.Fs

namespace UCore.Sfs

open Act

/-! ## The scan -/

variable {inos loose : Finset ℕ} {v w : Volume} {d k count slot : ℕ}

/-- **A directory of a consistent volume**, with all its blocks. -/
structure Directory (inos loose : Finset ℕ) (d : ℕ) (v : Volume) : Prop where
  owned : Owned inos loose v
  mem : d ∈ inos
  type : (v.inode d).type = .dir
  mapped : ∀ k < (v.inode d).blocks, k < 1036 ∧ bmap v d k ≠ 0

theorem Directory.ticked (h : Directory inos loose d v) (hw : Ticked v w) :
    Directory inos loose d w := by
  refine ⟨hw.owned h.owned, h.mem, by rw [hw.inode]; exact h.type, fun k hk => ?_⟩
  rw [hw.inode] at hk
  rw [hw.bmap]
  exact h.mapped k hk

/-- The slots of a directory that are not empty, among the `count` from `k` on. -/
def usedSlots (v : Volume) (d k count : ℕ) : List ℕ :=
  (List.range' k count).filter fun m => decodeU32 (v.dev.data (bmap v d m)) ≠ 0

/-- The name in a slot. -/
def slotName (v : Volume) (d m : ℕ) : ℕ → UInt8 := entryName (v.dev.data (bmap v d m))

theorem Ticked.usedSlots (h : Ticked v w) : usedSlots w d k count = usedSlots v d k count := by
  obtain ⟨n, rfl⟩ := h
  rfl

theorem Ticked.slotName (h : Ticked v w) (m : ℕ) : slotName w d m = slotName v d m := by
  obtain ⟨n, rfl⟩ := h
  rfl

theorem Ticked.faulty (h : Ticked v w) : Faulty w ↔ Faulty v := by
  obtain ⟨n, rfl⟩ := h
  rfl

/-- An error of the device. -/
def Broken (v : Volume) (e : ℤ) (w : Volume) : Prop := Declined v e w ∧ Faulty v

/-- **`sfs_dirent_read_nolock`** of a slot of the directory. -/
theorem Directory.wpe_read (h : Directory inos loose d v) (hk : k < (v.inode d).blocks) :
    wpe (sfsDirentReadNolock d k) (fun r w => r = (decodeU32 (v.dev.data (bmap v d k)), slotName v d k) ∧
      Ticked v w) (Broken v) (fun _ => False) v := by
  obtain ⟨hlt, hb⟩ := h.mapped k hk
  simp only [sfsDirentReadNolock, wpe_bind, wpe_get, wpe_demand, wpe_pure]
  refine ⟨fun _ => ?_, fun hno => hno ⟨h.type, hk⟩⟩
  have hload := wpe_sfsBmapLoadNolock (k := k) (E := fun _ => False) h.owned h.mem
    (fun hgt => absurd hk (not_lt.mpr hgt.le)) (fun _ hge => absurd hlt (not_lt.mpr hge))
    (fun _ _ h0 => hb h0) (Q := fun _ _ => True) (fun _ _ _ => trivial) (R := fun _ _ => Faulty v)
    fun e _ w _ _ hsound => by
      by_contra hno
      exact absurd (hsound hno).1 (by simp [hk.ne])
  refine wpe_mono (wpe_and (ticked_load h.owned.fits hk) hload) ?_ (fun e w hw => hw) fun _ => And.right
  rintro _ w ⟨⟨⟨rfl, -⟩, hw⟩, -⟩
  have hown := hw.owned h.owned
  have hsame : refBlock w (.block d k) = bmap v d k := hw.bmap d k
  refine wpe_inuse_ref (r := .block d k) hown ⟨h.mem, hlt⟩ hsame hb
    ⟨fun _ => ?_, fun hno => hno rfl⟩
  have hin : InRange w (bmap v d k) :=
    hsame ▸ hown.inRange_of_ref (r := .block d k) ⟨h.mem, hlt⟩ (hsame ▸ hb)
  refine wpe_sfsRbuf hown.fits hin (by norm_num) (by norm_num) ⟨?_, hw.trans (.tick w)⟩
    fun e he hf => ⟨⟨he, hw.trans (.tick w)⟩, hw.faulty.mp hf⟩
  simp only [Nat.zero_add, hw.data, slotName]

/-- **The scan** returns the name in the slot asked for, of those that are not empty. -/
theorem Directory.wpe_scan (h : Directory inos loose d v) (hn : k + count ≤ (v.inode d).blocks) :
    wpe (Fs.sfsGetdirentrySubNolock d count k slot)
      (fun name w => (∃ m, (usedSlots v d k count)[slot]? = some m ∧ name = slotName v d m) ∧ Ticked v w)
      (fun e w => Declined v e w ∧ ((usedSlots v d k count)[slot]? = none ∧ e = -E_NOENT ∨ Faulty v))
      (fun _ => False) v := by
  induction count generalizing v k slot with
  | zero => exact ⟨⟨by decide, .refl v⟩, .inl ⟨rfl, rfl⟩⟩
  | succ count ih =>
    have hcons : List.range' k (count + 1) = k :: List.range' (k + 1) count := List.range'_succ
    rw [Fs.sfsGetdirentrySubNolock, wpe_bind]
    refine wpe_mono (h.wpe_read (by omega)) ?_ (fun e w hw => ⟨hw.1, .inr hw.2⟩) fun _ => id
    rintro _ w ⟨rfl, hw⟩
    have hrest : ∀ slot, wpe (Fs.sfsGetdirentrySubNolock d count (k + 1) slot) _ _ _ w :=
      fun slot => ih (h.ticked hw) (by rw [hw.inode]; omega)
    simp only [hw.usedSlots, hw.slotName, hw.faulty] at hrest
    dsimp only
    rw [wpe_ite]
    refine ⟨fun hused => ?_, fun hempty => ?_⟩
    · have hslots : usedSlots v d k (count + 1) = k :: usedSlots v d (k + 1) count := by
        rw [usedSlots, hcons, List.filter_cons_of_pos (by simpa using hused), usedSlots]
      rw [wpe_ite]
      refine ⟨fun h0 => ⟨⟨k, ?_, rfl⟩, hw⟩, fun hne => ?_⟩
      · rw [hslots, h0]
        rfl
      · obtain ⟨slot, rfl⟩ := Nat.exists_eq_succ_of_ne_zero hne
        rw [hslots]
        exact wpe_mono (hrest slot) (fun _ _ hr => ⟨hr.1, hw.trans hr.2⟩)
          (fun _ _ hr => ⟨⟨hr.1.1, hw.trans hr.1.2⟩, hr.2⟩) fun _ => id
    · have hslots : usedSlots v d k (count + 1) = usedSlots v d (k + 1) count := by
        rw [usedSlots, hcons, List.filter_cons_of_neg (by simpa using hempty), usedSlots]
      rw [hslots]
      exact wpe_mono (hrest slot) (fun _ _ hr => ⟨hr.1, hw.trans hr.2⟩)
        (fun _ _ hr => ⟨⟨hr.1.1, hw.trans hr.1.2⟩, hr.2⟩) fun _ => id

end UCore.Sfs

namespace UCore.Fs

open Sfs Act

/-! ## One call -/

variable {inos loose : Finset ℕ} {v : Volume} {t d n : ℕ} {fd : ℤ} {s s' : FileSys} {direntp : Dirent}

/-- The bytes of a name. -/
def nameBytes (name : ℕ → UInt8) : List UInt8 := (List.range sfsDentrySize).map name

/-- **The names in a directory**, in the order of their slots. -/
def dirNames (v : Volume) (d : ℕ) : List (List UInt8) :=
  (usedSlots v d 0 (v.inode d).blocks).map fun m => nameBytes (slotName v d m)

/-- **A descriptor that is open on a directory.** -/
structure Listed (inos loose : Finset ℕ) (t : ℕ) (fd : ℤ) (d : ℕ) (s : FileSys) : Prop where
  directory : Directory inos loose d s.vol
  files : 0 < s.filesCount t
  testfd : testfd fd = true
  opened : (s.fdArray t fd.toNat).status = .opened
  node : (s.fdArray t fd.toNat).node = some d
  held : 0 < (s.fdArray t fd.toNat).openCount
  refs : (s.node d).openCount ≤ (s.node d).refCount
  few : (s.node d).refCount < MAX_INODE_COUNT

/-- What a call leaves: all but the counts of transfers and of allocations. -/
structure Unmoved (s s' : FileSys) : Prop where
  vol : Ticked s.vol s'.vol
  fdArray : s'.fdArray = s.fdArray
  node : s'.node = s.node
  filesCount : s'.filesCount = s.filesCount
  granted : s'.granted = s.granted

theorem Unmoved.refl (s : FileSys) : Unmoved s s := ⟨.refl _, rfl, rfl, rfl, rfl⟩

theorem Listed.unmoved (h : Listed inos loose t fd d s) (hs : Unmoved s s') :
    Listed inos loose t fd d s' where
  directory := h.directory.ticked hs.vol
  files := hs.filesCount ▸ h.files
  testfd := h.testfd
  opened := hs.fdArray ▸ h.opened
  node := hs.fdArray ▸ h.node
  held := hs.fdArray ▸ h.held
  refs := hs.node ▸ h.refs
  few := hs.node ▸ h.few

theorem Unmoved.dirNames (h : Unmoved s s') : dirNames s'.vol d = dirNames s.vol d := by
  rw [Fs.dirNames, h.vol.usedSlots, h.vol.inode]
  exact List.map_congr_left fun m _ => by rw [h.vol.slotName]

/-- An error of the device, or an allocation that is refused. -/
def Hindered (s : FileSys) : Prop := Faulty s.vol ∨ ∃ k, s.granted k = false

theorem Unmoved.hindered (h : Unmoved s s') : Hindered s' ↔ Hindered s := by
  rw [Hindered, Hindered, h.vol.faulty, h.granted]

/-- **A call that fails**: it may, at the end of the names or where something is refused. -/
def Ended (s : FileSys) (d n : ℕ) (e : ℤ) : Prop :=
  e < 0 ∧ ((dirNames s.vol d)[n]? = none ∧ e = -E_NOENT ∨ Hindered s)

/-- **A call at the `n`-th name.** -/
inductive Turn (s : FileSys) (d n : ℕ) (direntp : Dirent) : ℤ × Dirent → Prop where
  | name (r : Dirent) (hoff : r.offset = direntp.offset + sfsDentrySize)
      (hname : (dirNames s.vol d)[n]? = some (nameBytes r.name)) : Turn s d n direntp (0, r)
  | ended (e : ℤ) (he : Ended s d n e) : Turn s d n direntp (e, direntp)

/-- **The name** that is found at an offset. -/
theorem Listed.wpe_getdirentryName (h : Listed inos loose t fd d s) (hn : n ≤ (dirNames s.vol d).length) :
    wpe (getdirentryName d ((sfsDentrySize * n : ℕ) : ℤ))
      (fun name s' => (dirNames s.vol d)[n]? = some (nameBytes name) ∧ Unmoved s s')
      (fun e s' => Ended s d n e ∧ Unmoved s s') (fun _ => False) s := by
  have hnomem : (-Sfs.E_NO_MEM : ℤ) < 0 := by decide
  have hused : (dirNames s.vol d).length ≤ (s.vol.inode d).blocks := by
    rw [dirNames, List.length_map]
    exact (List.length_filter_le ..).trans List.length_range'.le
  have hmax : (s.vol.inode d).blocks ≤ 1036 := by
    by_contra hno
    exact absurd (h.directory.mapped 1036 (by omega)).1 (by omega)
  have hslot : u32 (((sfsDentrySize * n : ℕ) : ℤ).toNat / sfsDentrySize) = n := by
    rw [Int.toNat_natCast, Nat.mul_div_cancel_left n (by norm_num), u32]
    exact Nat.mod_eq_of_lt (by omega)
  have hfit : ¬ (((sfsDentrySize * n : ℕ) : ℤ) < 0 ∨ ((sfsDentrySize * n : ℕ) : ℤ) % sfsDentrySize ≠ 0) := by
    push_cast
    omega
  simp only [getdirentryName, kmalloc, wpe_bind, wpe_get, wpe_modify]
  rw [wpe_ite]
  refine ⟨fun _ => ?_, fun hno => ⟨⟨hnomem, .inr (.inr ⟨_, by simpa using hno⟩)⟩, .refl _, rfl, rfl, rfl, rfl⟩⟩
  rw [wpe_pure, if_neg hfit, wpe_bind, wpe_get, hslot, wpe_ite]
  refine ⟨fun hgt => absurd hgt (not_lt.mpr (hn.trans hused)), fun _ => ?_⟩
  rw [onVol, wpe_zoome]
  have hmap : (dirNames s.vol d)[n]? = (usedSlots s.vol d 0 (s.vol.inode d).blocks)[n]?.map
      fun m => nameBytes (slotName s.vol d m) := List.getElem?_map ..
  have hend : 0 + (s.vol.inode d).blocks ≤ (s.vol.inode d).blocks := (Nat.zero_add _).le
  refine wpe_mono (h.directory.wpe_scan hend) ?_ ?_ fun _ => id
  · rintro _ w ⟨⟨m, hm, rfl⟩, hw⟩
    refine ⟨?_, hw, rfl, rfl, rfl, rfl⟩
    rw [hmap, hm, Option.map_some]
  · rintro e w ⟨⟨he, hw⟩, hwhy⟩
    refine ⟨⟨he, hwhy.imp (fun hno => ⟨?_, hno.2⟩) .inl⟩, hw, rfl, rfl, rfl, rfl⟩
    rw [hmap, hno.1, Option.map_none]

/-- A descriptor that is taken once more. -/
def taken (t k : ℕ) (s : FileSys) : FileSys :=
  { s with
    fdArray := Function.update s.fdArray t (Function.update (s.fdArray t) k
      { s.fdArray t k with openCount := (s.fdArray t k).openCount + 1 }) }

theorem taken_file {k : ℕ} : (taken t k s).fdArray t k =
    { s.fdArray t k with openCount := (s.fdArray t k).openCount + 1 } := update_file _ _

/-- …and given back. -/
theorem wpe_release_taken {k : ℕ} {Q : Unit → FileSys → Prop} {R : ℤ → FileSys → Prop}
    {E : Assertion → Prop} (h : s'.fdArray = (taken t k s).fdArray)
    (hopened : (s.fdArray t k).status = .opened) (hheld : 0 < (s.fdArray t k).openCount)
    (hQ : Q () { s' with fdArray := s.fdArray }) : wpe (fdArrayRelease t k) Q R E s' := by
  have hfile : s'.fdArray t k = { s.fdArray t k with openCount := (s.fdArray t k).openCount + 1 } := by
    rw [h, taken_file]
  have hback : Function.update s'.fdArray t (Function.update (s'.fdArray t) k
      { s'.fdArray t k with openCount := (s'.fdArray t k).openCount - 1 }) = s.fdArray := by
    rw [hfile, h, taken]
    dsimp only
    rw [Function.update_self, Function.update_idem, Function.update_idem, Nat.add_sub_cancel,
      Function.update_eq_self, Function.update_eq_self]
  simp only [fdArrayRelease, file, setFile, wpe_bind, wpe_get, wpe_demand, wpe_pure, wpe_modify]
  refine ⟨fun _ => ?_, fun hno => absurd ⟨.inl (hfile ▸ hopened), hfile ▸ Nat.succ_pos _⟩ hno⟩
  rw [hback]
  rw [if_neg hheld.ne']
  exact hQ

/-- A name fits where one is asked for. -/
theorem iobufMove_name {buf name : ℕ → UInt8} {offset : ℤ} :
    iobufMove ⟨buf, offset, sfsDentrySize, sfsDentrySize⟩ name sfsDentrySize =
      (0, ⟨overlay buf 0 sfsDentrySize name, offset + sfsDentrySize, sfsDentrySize, 0⟩) := by
  simp [iobufMove, Iobuf.used]

theorem nameBytes_overlay {buf : ℕ → UInt8} (name : ℕ → UInt8) :
    nameBytes (overlay buf 0 sfsDentrySize name) = nameBytes name := by
  refine List.map_congr_left fun j hj => ?_
  rw [overlay, if_pos ⟨Nat.zero_le j, by simpa using hj⟩, Nat.sub_zero]

/-- **`sfs_getdirentry`** fills the buffer with the name, or leaves it. -/
theorem Listed.wp_sfsGetdirentry (h : Listed inos loose t fd d s) (hn : n ≤ (dirNames s.vol d).length)
    {buf : ℕ → UInt8} :
    wp (sfsGetdirentry d ⟨buf, (sfsDentrySize * n : ℕ), sfsDentrySize, sfsDentrySize⟩)
      (fun r s' => (r.1 = 0 ∧ r.2.used = sfsDentrySize ∧
          (dirNames s.vol d)[n]? = some (nameBytes r.2.buf) ∨
        Ended s d n r.1 ∧ r.2.buf = buf) ∧ Unmoved s s') (fun _ => False) s := by
  rw [sfsGetdirentry, wp_bind, wp_run]
  refine wpe_mono (h.wpe_getdirentryName hn) ?_ ?_ fun _ => id
  · rintro name s' ⟨hname, hs⟩
    dsimp only
    rw [iobufMove_name, wp_pure]
    exact ⟨.inl ⟨rfl, rfl, hname.trans (congrArg some (nameBytes_overlay name).symm)⟩, hs⟩
  · rintro e s' ⟨he, hs⟩
    exact ⟨.inr ⟨he, rfl⟩, hs⟩

/-- **`file_getdirentry`** returns the name that the offset counts to, and counts on. -/
theorem Listed.wp_fileGetdirentry (h : Listed inos loose t fd d s) (hn : n ≤ (dirNames s.vol d).length)
    (hoff : direntp.offset = (sfsDentrySize * n : ℕ)) :
    wp (fileGetdirentry t fd direntp) (fun r s' => Turn s d n direntp r ∧ Unmoved s s') (fun _ => False)
      s := by
  obtain ⟨offset, buf⟩ := direntp
  obtain rfl : offset = (sfsDentrySize * n : ℕ) := hoff
  have hlisted : Listed inos loose t fd d (taken t fd.toNat s) := by
    refine { h with opened := ?_, node := ?_, held := ?_ } <;> rw [taken_file]
    · exact h.opened
    · exact h.node
    · exact Nat.succ_pos _
  rw [fileGetdirentry, wp_bind, wp_run]
  simp only [getdirentryOf, fd2file, getFdArray, file, wpe_bind]
  rw [if_pos h.testfd]
  simp only [wpe_bind, wpe_get, wpe_demand, wpe_pure]
  refine ⟨fun _ => ?_, fun hno => hno h.files⟩
  rw [if_pos h.opened, h.node]
  simp only [fdArrayAcquire, file, setFile, wpe_bind, wpe_get, wpe_demand, wpe_pure, wpe_modify]
  refine ⟨fun _ => ?_, fun hno => hno h.opened⟩
  change wpe (vopGetdirentry d _) _ _ _ (taken t fd.toNat s)
  simp only [vopGetdirentry, vopDir, vopOp, inodeCheck, wpe_bind, wpe_get, wpe_demand, wpe_lift]
  have hdir : (((taken t fd.toNat s).vol.inode d).type == FileType.dir) = true :=
    beq_iff_eq.mpr h.directory.type
  refine ⟨fun _ => ⟨fun _ => ?_, fun hno => ?_⟩, fun hno => hno hdir⟩
  · refine wp_mono (hlisted.wp_sfsGetdirentry hn) ?_ fun _ => id
    rintro ⟨ret, iob⟩ s₂ ⟨hr, hs⟩
    dsimp only at hr ⊢
    refine wpe_release_taken hs.fdArray h.opened h.held ⟨?_, hs.vol, rfl, hs.node, hs.filesCount, hs.granted⟩
    rcases hr with ⟨rfl, hused, hname⟩ | ⟨hended, hbuf⟩
    · rw [if_pos rfl, hused]
      exact .name _ rfl hname
    · rw [if_neg hended.1.ne, hbuf]
      exact .ended ret hended
  · exact hno ⟨h.refs, h.few, h.refs.trans_lt h.few⟩

/-! ## A listing -/

/-- The names that the calls of a listing deliver. -/
def delivered (rs : List (ℤ × Dirent)) : List (List UInt8) :=
  (rs.filter fun r => r.1 = 0).map fun r => nameBytes r.2.name

/-- **Call `m` of a listing that nothing hinders**: the `m`-th name, and after the last one `-E_NOENT`
with the offset that counts them all. -/
structure InOrder (names : List (List UInt8)) (m : ℕ) (r : ℤ × Dirent) : Prop where
  name : m < names.length → r.1 = 0 ∧ names[m]? = some (nameBytes r.2.name) ∧
    r.2.offset = (sfsDentrySize * (m + 1) : ℕ)
  last : names.length ≤ m → r.1 = -E_NOENT ∧ r.2.offset = (sfsDentrySize * names.length : ℕ)

/-- The calls that follow `n` names. -/
structure Follows (s : FileSys) (d n : ℕ) (rs : List (ℤ × Dirent)) : Prop where
  ordered : delivered rs <+: (dirNames s.vol d).drop n
  complete : ¬ Hindered s → ∀ m r, rs[m]? = some r → InOrder (dirNames s.vol d) (n + m) r

theorem InOrder.of_last {names : List (List UInt8)} {m k : ℕ} {r : ℤ × Dirent} (h : InOrder names m r)
    (hm : names.length ≤ m) (hk : names.length ≤ k) : InOrder names k r :=
  ⟨fun hno => absurd hk (not_le.mpr hno), fun _ => h.last hm⟩

/-- A name, and the calls that follow it. -/
theorem Follows.name {r : Dirent} {rs : List (ℤ × Dirent)} (h : Follows s d (n + 1) rs)
    (hname : (dirNames s.vol d)[n]? = some (nameBytes r.name))
    (hoff : r.offset = (sfsDentrySize * (n + 1) : ℕ)) : Follows s d n ((0, r) :: rs) := by
  obtain ⟨hlt, hget⟩ := List.getElem?_eq_some_iff.mp hname
  refine ⟨?_, fun hfree m r' hr' => ?_⟩
  · rw [delivered, List.filter_cons_of_pos (by simp), List.map_cons, List.drop_eq_getElem_cons hlt, hget]
    exact (List.cons_prefix_cons).mpr ⟨rfl, h.ordered⟩
  · cases m with
    | zero =>
      obtain rfl : (0, r) = r' := by simpa using hr'
      exact ⟨fun _ => ⟨rfl, hname, hoff⟩, fun hno => absurd hlt (not_lt.mpr hno)⟩
    | succ m =>
      rw [← Nat.add_assoc, Nat.add_right_comm]
      exact h.complete hfree m r' (by simpa using hr')

/-- …and a call that fails. -/
theorem Follows.ended {e : ℤ} {rs : List (ℤ × Dirent)} (h : Follows s d n rs) (he : Ended s d n e)
    (hn : n ≤ (dirNames s.vol d).length) (hoff : direntp.offset = (sfsDentrySize * n : ℕ)) :
    Follows s d n ((e, direntp) :: rs) := by
  refine ⟨?_, fun hfree m r hr => ?_⟩
  · rw [delivered, List.filter_cons_of_neg (by simpa using he.1.ne)]
    exact h.ordered
  · obtain ⟨hnone, rfl⟩ : (dirNames s.vol d)[n]? = none ∧ e = -E_NOENT := he.2.resolve_right hfree
    have hlen : (dirNames s.vol d).length ≤ n := List.getElem?_eq_none_iff.mp hnone
    cases m with
    | zero =>
      obtain rfl : (-E_NOENT, direntp) = r := by simpa using hr
      refine ⟨fun hlt => absurd hlt (not_lt.mpr hlen), fun _ => ⟨rfl, ?_⟩⟩
      rw [hoff, le_antisymm hn hlen]
    | succ m =>
      exact (h.complete hfree m r (by simpa using hr)).of_last (by omega) (by omega)

/-- **The calls that follow `k` names**, by induction on how many there are. -/
theorem Listed.wp_listing {k : ℕ} (h : Listed inos loose t fd d s) (hk : k ≤ (dirNames s.vol d).length)
    (hoff : direntp.offset = (sfsDentrySize * k : ℕ)) :
    wp (listing t fd n direntp) (fun rs _ => rs.length = n ∧ Follows s d k rs) (fun _ => False) s := by
  induction n generalizing s direntp k with
  | zero => exact ⟨rfl, ⟨List.nil_prefix, fun _ m r hr => by simp at hr⟩⟩
  | succ n ih =>
    rw [listing, wp_bind]
    refine wp_mono (h.wp_fileGetdirentry hk hoff) ?_ fun _ => id
    rintro r s' ⟨hturn, hs⟩
    have hback : ∀ {k rs}, Follows s' d k rs → Follows s d k rs := fun {k rs} hf =>
      ⟨hs.dirNames (d := d) ▸ hf.ordered, fun hfree => hs.dirNames (d := d) ▸
        hf.complete (hs.hindered.not.mpr hfree)⟩
    rw [wp_bind]
    cases hturn with
    | name r hr hname =>
      have hnext : r.offset = (sfsDentrySize * (k + 1) : ℕ) := by
        rw [hr, hoff]
        push_cast
        ring
      have hlt := (List.getElem?_eq_some_iff.mp hname).1
      refine wp_mono (ih (h.unmoved hs) (by rw [hs.dirNames]; exact hlt) hnext) ?_ fun _ => id
      rintro rs _ ⟨hlen, hf⟩
      exact ⟨by rw [List.length_cons, hlen], (hback hf).name hname hnext⟩
    | ended e he =>
      refine wp_mono (ih (h.unmoved hs) (by rw [hs.dirNames]; exact hk) hoff) ?_ fun _ => id
      rintro rs _ ⟨hlen, hf⟩
      exact ⟨by rw [List.length_cons, hlen], (hback hf).ended he hk hoff⟩

/-- **A listing is complete and has no repeats**: every call returns; what is delivered is the names of
the slots that are not empty, in their order and each once; and where nothing hinders it, call `m` delivers
name `m`, and those after the last name report `-E_NOENT` and leave the offset. -/
theorem listing_complete (h : Listed inos loose t fd d s) (n : ℕ) (h0 : direntp.offset = 0) :
    ∃ rs s', listing t fd n direntp s = .ok (rs, s') ∧ rs.length = n ∧
      delivered rs <+: dirNames s.vol d ∧
      (¬ Hindered s → ∀ m r, rs[m]? = some r → InOrder (dirNames s.vol d) m r) := by
  obtain ⟨rs, s', hrun, hlen, hf⟩ :=
    wp_false_iff.mp (h.wp_listing (n := n) (k := 0) (Nat.zero_le _) (by rw [h0]; rfl))
  refine ⟨rs, s', hrun, hlen, hf.ordered, fun hfree m r hr => ?_⟩
  rw [← Nat.zero_add m]
  exact hf.complete hfree m r hr

/-- A process with descriptor 0 on the root directory. -/
def rootOpen : FileSys :=
  { rootFiles 16 with
    node := fun i => if i = 1 then ⟨true, 2, 1, 1⟩ else ⟨false, 0, 0, 0⟩
    fdArray := fun _ fd => ⟨if fd = 0 then .opened else .none, true, false, 0, some 1, 1⟩ }

theorem rootOpen_listed : Listed {1, 4} ∅ 0 0 1 rootOpen where
  directory := by
    refine ⟨rootVolume_owned (by norm_num) (by norm_num), by decide, rfl, fun k hk => ?_⟩
    obtain rfl : k = 0 := Nat.lt_one_iff.mp hk
    exact ⟨by norm_num, fun h0 => absurd (rootVolume_bmap.symm.trans h0) (by decide)⟩
  files := by decide
  testfd := rfl
  opened := rfl
  node := rfl
  held := by decide
  refs := by decide
  few := by decide

/-- Three calls on the root directory. -/
theorem listing_complete_root : ∃ rs s', listing 0 0 3 ⟨0, fun _ => 0⟩ rootOpen = .ok (rs, s') ∧
    rs.length = 3 ∧ delivered rs <+: dirNames rootOpen.vol 1 ∧
      (¬ Hindered rootOpen → ∀ m r, rs[m]? = some r → InOrder (dirNames rootOpen.vol 1) m r) :=
  listing_complete rootOpen_listed 3 rfl

end UCore.Fs
