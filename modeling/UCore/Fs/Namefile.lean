import UCore.Fs.Listing
import UCore.Fs.VfsOpen

/-!
# Fs/Namefile — the path to a directory

`sfs_namefile` of `kern/fs/sfs/sfs_inode.c`, with `sfs_dirent_findino_nolock`.  The names are put
together from the end of the buffer while the tree is climbed, and moved to its front at the root:

    io_base                              io_base + io_resid
    ▏            resid            ▏ b / c / d /             one more name:  ▏  a / b / c / d /
    ▏ / a / b / c / d / NUL                                 at the root

One reference goes along: the parent's is taken before that of the directory is given back.
-/

namespace UCore.Sfs

/-- `sfs_dirent_findino_nolock`, over `count` slots from `slot` on: the name in the entry. -/
def direntFindino (i ino : ℕ) : ℕ → ℕ → Call (ℕ → UInt8)
  | 0, _ => throw (-E_NOENT)
  | count + 1, slot => do
    let (number, name) ← sfsDirentReadNolock i slot
    if number = ino then
      return name
    else
      direntFindino i ino count (slot + 1)

end UCore.Sfs

namespace UCore.Fs

open Sfs Act Vfs

/-- The name `..`. -/
abbrev DOTDOT : List UInt8 := [46, 46]

/-- The name `.`. -/
abbrev DOT : List UInt8 := [46]

/-- The string in an entry. -/
def entryStr (name : ℕ → UInt8) : List UInt8 := cstr (nameBytes name)

/-- What `sfs_namefile` keeps: `node`, `resid`, `ptr` as a place in the buffer, and the buffer. -/
structure Naming where
  node : ℕ
  resid : ℕ
  ptr : ℕ
  buf : ℕ → UInt8

/-- A name and a slash are put in front. -/
def Naming.prepend (st : Naming) (name : ℕ → UInt8) : Naming :=
  let alen := (entryStr name).length + 1
  let ptr := st.ptr - alen
  { st with
    resid := st.resid - alen
    ptr := ptr
    buf := Function.update (overlay st.buf ptr (alen - 1) name) (ptr + (alen - 1)) SLASH }

/-- `failed:` of `sfs_namefile`. -/
def namefileFailed (ret : ℤ) (st : Naming) : Call (Option (ℤ × Naming)) := do
  inodeRefDec st.node
  return some (ret, st)

/-- The loop of `sfs_namefile`, for so many turns at most: the code and where it ends. -/
def namefileLoop : ℕ → Naming → Call (Option (ℤ × Naming))
  | 0, _ => return none
  | turns + 1, st => do
    match ← Act.attempt (sfsLookupOnce st.node DOTDOT) with
    | .error ret => namefileFailed ret st
    | .ok parent =>
      inodeRefDec st.node
      if st.node = parent then
        inodeRefDec st.node
        return some (0, st)
      else
        let din := (← get).vol.inode parent
        Act.demand .namefileParent (st.node ≠ parent ∧ din.type = .dir)
        match ← Act.attempt (onVol (direntFindino parent st.node din.blocks 0)) with
        | .error ret => namefileFailed ret { st with node := parent }
        | .ok name =>
          if (entryStr name).length + 1 > st.resid then
            namefileFailed (-Sfs.E_NO_MEM) { st with node := parent }
          else
            namefileLoop turns (Naming.prepend { st with node := parent } name)

/-- The names are moved to the front, between a slash and a NUL, and the buffer is advanced. -/
def Iobuf.named (iob : Iobuf) (st : Naming) : Iobuf :=
  let alen := iob.resid - st.resid - 2
  let moved := overlay st.buf (iob.used + 1) alen fun j => st.buf (st.ptr + j)
  { iob with
    buf := Function.update (Function.update moved iob.used SLASH) (iob.used + 1 + alen) 0
    offset := iob.offset + alen
    resid := iob.resid - alen }

/-- `sfs_namefile`, for so many turns of its loop at most: the code, and the buffer after it. -/
def sfsNamefile (turns i : ℕ) (iob : Iobuf) : Call (Option (ℤ × Iobuf)) := do
  if iob.resid ≤ 2 then
    return some (-Sfs.E_NO_MEM, iob)
  else
    match ← Act.attempt kmalloc with
    | .error ret => return some (ret, iob)
    | .ok _ =>
      let _ ← inodeRefInc i
      match ← namefileLoop turns ⟨i, iob.resid - 2, iob.used + iob.resid, iob.buf⟩ with
      | none => return none
      | some (ret, st) =>
        if ret = 0 then
          Act.demand .iobufSkip (iob.resid - st.resid - 2 ≤ iob.resid)
          return some (0, iob.named st)
        else
          return some (ret, { iob with buf := st.buf })

/-! ## Strings -/

/-- **`strcmp` compares the strings** that two names hold. -/
theorem strEq_iff {name : List UInt8} {s : ℕ → UInt8} {n : ℕ} (h0 : (0 : UInt8) ∉ name)
    (hend : ∃ k < n, s k = 0) : strEq name s = true ↔ cstr ((List.range n).map s) = name := by
  induction name generalizing s n with
  | nil =>
    obtain ⟨k, hk, -⟩ := hend
    obtain ⟨n, rfl⟩ := Nat.exists_eq_succ_of_ne_zero (Nat.ne_zero_of_lt hk)
    rw [strEq, beq_iff_eq, List.range_succ_eq_map, List.map_cons]
    refine ⟨fun hs => by rw [hs, cstr_zero], fun hnil => ?_⟩
    by_contra hs
    rw [cstr_cons_of_ne hs] at hnil
    cases hnil
  | cons c name ih =>
    obtain ⟨k, hk, hs⟩ := hend
    obtain ⟨n, rfl⟩ := Nat.exists_eq_succ_of_ne_zero (Nat.ne_zero_of_lt hk)
    have hc : c ≠ 0 := fun hc => h0 (hc ▸ List.mem_cons_self)
    rw [strEq, Bool.and_eq_true, beq_iff_eq, List.range_succ_eq_map, List.map_cons, List.map_map]
    by_cases hzero : s 0 = 0
    · rw [hzero, cstr_zero]
      exact iff_of_false (fun hno => hc hno.1.symm) fun hno => (by cases hno)
    · have hrest : ∃ k < n, s (k + 1) = 0 := by
        obtain ⟨k, rfl⟩ := Nat.exists_eq_succ_of_ne_zero (fun h : k = 0 => hzero (h ▸ hs))
        exact ⟨k, Nat.lt_of_succ_lt_succ hk, hs⟩
      rw [cstr_cons_of_ne hzero, List.cons_eq_cons]
      exact and_congr_right fun _ => ih (fun hmem => h0 (List.mem_cons_of_mem _ hmem)) hrest

/-- The name in an entry is searched for by its string. -/
theorem strEq_entry {name : List UInt8} {data : ℕ → UInt8} (h0 : (0 : UInt8) ∉ name) :
    strEq name (entryName data) = true ↔ entryStr (entryName data) = name :=
  strEq_iff h0 ⟨255, by norm_num, rfl⟩

/-- The characters of a string are those of the name. -/
theorem entryStr_getElem? {name : ℕ → UInt8} {j : ℕ} {c : UInt8} (h : (entryStr name)[j]? = some c) :
    name j = c := by
  obtain ⟨rest, hrest⟩ : entryStr name <+: nameBytes name := List.takeWhile_prefix _
  obtain ⟨hlt, -⟩ := List.getElem?_eq_some_iff.mp h
  have hget : (nameBytes name)[j]? = some c := by rw [← hrest, List.getElem?_append_left hlt, h]
  rw [nameBytes, List.getElem?_map] at hget
  obtain ⟨k, hk, rfl⟩ := Option.map_eq_some_iff.mp hget
  obtain ⟨_, hk'⟩ := List.getElem?_eq_some_iff.mp hk
  rw [← hk', List.getElem_range]

end UCore.Fs

namespace UCore.Sfs

open Act

/-! ## Searching a directory -/

variable {inos loose : Finset ℕ} {v w : Volume} {d k count ino : ℕ} {name : List UInt8}

/-- The `ino` in a slot. -/
def slotIno (v : Volume) (d m : ℕ) : ℕ := decodeU32 (v.dev.data (bmap v d m))

/-- The name in a slot, as a string. -/
def slotStr (v : Volume) (d m : ℕ) : List UInt8 := Fs.entryStr (slotName v d m)

theorem Ticked.slotIno (h : Ticked v w) (d m : ℕ) : slotIno w d m = slotIno v d m := by
  obtain ⟨n, rfl⟩ := h
  rfl

theorem Ticked.slotStr (h : Ticked v w) (d m : ℕ) : slotStr w d m = slotStr v d m := by
  obtain ⟨n, rfl⟩ := h
  rfl

/-- A search ends with an error where there is nothing to be found, or by one of the device. -/
def Missed (v : Volume) (k count : ℕ) (P : ℕ → Prop) (e : ℤ) (w : Volume) : Prop :=
  Declined v e w ∧ ((∀ m, k ≤ m → m < k + count → ¬ P m) ∨ Faulty v)

/-- The slots from `k + 1` on, where the slot `k` is not looked for. -/
theorem Missed.next {P P' : ℕ → Prop} {u : Volume} {e : ℤ} (h : Missed w (k + 1) count P' e u) (hw : Ticked v w)
    (hk : ¬ P k) (hP : ∀ m, P' m ↔ P m) : Missed v k (count + 1) P e u := by
  obtain ⟨⟨he, hu⟩, hwhy⟩ := h
  refine ⟨⟨he, hw.trans hu⟩, hwhy.imp (fun hall m hle hlt hm => ?_) hw.faulty.mp⟩
  rcases hle.eq_or_lt with rfl | hgt
  · exact hk hm
  · exact hall m hgt (by omega) ((hP m).mpr hm)

/-- **The search for a name.** -/
theorem Directory.wpe_search (h : Directory inos loose d v) (hn : k + count ≤ (v.inode d).blocks)
    (h0 : (0 : UInt8) ∉ name) :
    wpe (direntSearch d name count k)
      (fun ino w => (∃ m < (v.inode d).blocks, slotIno v d m = ino ∧ ino ≠ 0 ∧ slotStr v d m = name) ∧
        Ticked v w)
      (Missed v k count fun m => slotIno v d m ≠ 0 ∧ slotStr v d m = name) (fun _ => False) v := by
  induction count generalizing v k with
  | zero => exact ⟨⟨by decide, .refl v⟩, .inl fun m hle hlt => absurd hlt (not_lt.mpr hle)⟩
  | succ count ih =>
    rw [direntSearch, wpe_bind]
    refine wpe_mono (h.wpe_read (by omega)) ?_ (fun e w hw => ⟨hw.1, .inr hw.2⟩) fun _ => id
    rintro _ w ⟨rfl, hw⟩
    have hstr : strEq name (slotName v d k) = true ↔ slotStr v d k = name := Fs.strEq_entry h0
    dsimp only
    rw [wpe_ite, hstr]
    refine ⟨fun hfound => ⟨⟨k, by omega, rfl, hfound.1, hfound.2⟩, hw⟩, fun hother => ?_⟩
    refine wpe_mono (ih (h.ticked hw) (by rw [hw.inode]; omega)) ?_
      (fun e u hu => hu.next hw hother fun m => by rw [hw.slotIno, hw.slotStr]) fun _ => id
    rintro ino u ⟨⟨m, hm, hino, hne, hname⟩, hu⟩
    rw [hw.inode] at hm
    rw [hw.slotIno] at hino
    rw [hw.slotStr] at hname
    exact ⟨⟨m, hm, hino, hne, hname⟩, hw.trans hu⟩

/-- **The search for a number.** -/
theorem Directory.wpe_findino (h : Directory inos loose d v) (hn : k + count ≤ (v.inode d).blocks) :
    wpe (direntFindino d ino count k)
      (fun name w => (∃ m < (v.inode d).blocks, slotIno v d m = ino ∧ Fs.entryStr name = slotStr v d m) ∧
        Ticked v w)
      (Missed v k count fun m => slotIno v d m = ino) (fun _ => False) v := by
  induction count generalizing v k with
  | zero => exact ⟨⟨by decide, .refl v⟩, .inl fun m hle hlt => absurd hlt (not_lt.mpr hle)⟩
  | succ count ih =>
    rw [direntFindino, wpe_bind]
    refine wpe_mono (h.wpe_read (by omega)) ?_ (fun e w hw => ⟨hw.1, .inr hw.2⟩) fun _ => id
    rintro _ w ⟨rfl, hw⟩
    dsimp only
    rw [wpe_ite]
    refine ⟨fun hfound => ⟨⟨k, by omega, hfound, rfl⟩, hw⟩, fun hother => ?_⟩
    refine wpe_mono (ih (h.ticked hw) (by rw [hw.inode]; omega)) ?_
      (fun e u hu => hu.next hw hother fun m => by rw [hw.slotIno]) fun _ => id
    rintro name u ⟨⟨m, hm, hino, hname⟩, hu⟩
    rw [hw.inode] at hm
    rw [hw.slotIno] at hino
    rw [hw.slotStr] at hname
    exact ⟨⟨m, hm, hino, hname⟩, hw.trans hu⟩

end UCore.Sfs

namespace UCore.Fs

open Sfs Act Vfs

/-! ## Directory trees -/

variable {inos loose : Finset ℕ} {up : ℕ → ℕ} {label : ℕ → List UInt8} {names : List (List UInt8)}
  {s s' : FileSys} {c : ℕ → ℕ} {d i m turns : ℕ} {R : ℤ → FileSys → Prop} {E : Assertion → Prop}

/-- A directory of the volume. -/
def IsDir (inos : Finset ℕ) (v : Volume) (d : ℕ) : Prop := d ∈ inos ∧ (v.inode d).type = .dir

/-- **A directory tree**: `up d` is the directory that the directory `d` is in, and `label d` its name
there.  Directories are not written to, so that they are in memory as on disk. -/
structure DirTree (inos loose : Finset ℕ) (up : ℕ → ℕ) (label : ℕ → List UInt8) (s : FileSys) : Prop where
  owned : Owned inos loose s.vol
  mapped : ∀ d, IsDir inos s.vol d → ∀ k < (s.vol.inode d).blocks, k < 1036 ∧ bmap s.vol d k ≠ 0
  links : ∀ d, IsDir inos s.vol d → (s.vol.inode d).nlinks ≠ 0
  clean : ∀ d, IsDir inos s.vol d → (s.vol.inode d).dirty = false ∧ OnDisk s.vol d
  up_dir : ∀ d, IsDir inos s.vol d → IsDir inos s.vol (up d)
  root : up SFS_BLKN_ROOT = SFS_BLKN_ROOT
  dot : ∀ d, IsDir inos s.vol d → ∀ m < (s.vol.inode d).blocks, slotIno s.vol d m ≠ 0 →
    slotStr s.vol d m = DOT → slotIno s.vol d m = d
  dotdot : ∀ d, IsDir inos s.vol d → ∀ m < (s.vol.inode d).blocks, slotIno s.vol d m ≠ 0 →
    slotStr s.vol d m = DOTDOT → slotIno s.vol d m = up d
  climbs : ∀ d, IsDir inos s.vol d → ∃ m < (s.vol.inode d).blocks, slotIno s.vol d m ≠ 0 ∧
    slotStr s.vol d m = DOTDOT
  /-- A directory has one name in the tree. -/
  entry : ∀ e, IsDir inos s.vol e → ∀ m < (s.vol.inode e).blocks, IsDir inos s.vol (slotIno s.vol e m) →
    slotStr s.vol e m ≠ DOT → slotStr s.vol e m ≠ DOTDOT →
    up (slotIno s.vol e m) = e ∧ label (slotIno s.vol e m) = slotStr s.vol e m
  named : ∀ d, IsDir inos s.vol d → d ≠ SFS_BLKN_ROOT → ∃ m < (s.vol.inode (up d)).blocks,
    slotIno s.vol (up d) m = d
  /-- An inode that is not in memory has no references. -/
  idle : ∀ i, (s.node i).cached = false → (s.node i).refCount = 0
  opens : ∀ i, (s.node i).openCount ≤ (s.node i).refCount

/-- **The names on the way** from the root to a directory. -/
inductive Way (up : ℕ → ℕ) (label : ℕ → List UInt8) : ℕ → List (List UInt8) → Prop
  | root : Way up label SFS_BLKN_ROOT []
  | down {d : ℕ} {names : List (List UInt8)} : d ≠ SFS_BLKN_ROOT → Way up label (up d) names →
    Way up label d (names ++ [label d])

/-- There is one way to a directory. -/
theorem Way.unique {names' : List (List UInt8)} (h : Way up label d names) (h' : Way up label d names') :
    names = names' := by
  induction h generalizing names' with
  | root =>
    cases h' with
    | root => rfl
    | down hne _ => exact absurd rfl hne
  | down hne _ ih =>
    cases h' with
    | root => exact absurd rfl hne
    | down _ h' => rw [ih h']

/-- The last step of a way. -/
theorem Way.last (h : Way up label d names) (hd : d ≠ SFS_BLKN_ROOT) :
    ∃ names', Way up label (up d) names' ∧ names = names' ++ [label d] := by
  cases h with
  | root => exact absurd rfl hd
  | down _ hway => exact ⟨_, hway, rfl⟩

/-- No directory but the root is in itself… -/
theorem Way.up_ne (h : Way up label d names) (hd : d ≠ SFS_BLKN_ROOT) : up d ≠ d := fun heq => by
  obtain ⟨names', hway, rfl⟩ := h.last hd
  rw [heq] at hway
  simpa using congrArg List.length (hway.unique h)

/-- …or in one that is in it. -/
theorem Way.up_up_ne (h : Way up label d names) (hd : d ≠ SFS_BLKN_ROOT)
    (hroot : up SFS_BLKN_ROOT = SFS_BLKN_ROOT) : up (up d) ≠ d := fun heq => by
  have hup : up d ≠ SFS_BLKN_ROOT := fun hr => hd (by rw [← heq, hr, hroot])
  obtain ⟨names', hway, rfl⟩ := h.last hd
  obtain ⟨names'', hway', rfl⟩ := hway.last hup
  rw [heq] at hway'
  simpa using congrArg List.length (hway'.unique h)

namespace DirTree

theorem directory (h : DirTree inos loose up label s) (hd : IsDir inos s.vol d) :
    Directory inos loose d s.vol :=
  ⟨h.owned, hd.1, hd.2, h.mapped d hd⟩

/-- **Where a directory is found by its number, it is by its name.** -/
theorem slotStr_eq (h : DirTree inos loose up label s) (hd : IsDir inos s.vol d) (hway : Way up label d names)
    (hne : d ≠ SFS_BLKN_ROOT) (hm : m < (s.vol.inode (up d)).blocks) (hino : slotIno s.vol (up d) m = d) :
    slotStr s.vol (up d) m = label d := by
  have hup := h.up_dir d hd
  have h0 : slotIno s.vol (up d) m ≠ 0 := by
    rw [hino]
    exact h.owned.inodes d hd.1
  have hentry := h.entry (up d) hup m hm (by rw [hino]; exact hd) (fun hdot => ?_) fun hdotdot => ?_
  · rw [hino] at hentry
    exact hentry.2.symm
  · exact hway.up_ne hne ((h.dot (up d) hup m hm h0 hdot).symm.trans hino)
  · exact hway.up_up_ne hne h.root ((h.dotdot (up d) hup m hm h0 hdotdot).symm.trans hino)

end DirTree

/-! ## References on the way -/

/-- **The file system `s` on the way up**, with `c i` more references to the inode `i`: the inodes that
have no others are in memory for them, and may be reclaimed. -/
structure Climbed (s : FileSys) (c : ℕ → ℕ) (s' : FileSys) : Prop where
  vol : Ticked s.vol s'.vol
  granted : s'.granted = s.granted
  refs : ∀ i, (s'.node i).refCount = (s.node i).refCount + c i
  opens : ∀ i, (s'.node i).openCount = (s.node i).openCount
  idle : ∀ i, (s'.node i).cached = false → (s'.node i).refCount = 0
  claims : ∀ i, (s.node i).refCount = 0 → 0 < c i → 0 < (s'.node i).reclaimCount

namespace Climbed

theorem hindered (h : Climbed s c s') : Hindered s' ↔ Hindered s := by
  rw [Hindered, Hindered, h.vol.faulty, h.granted]

/-- A volume that was only read. -/
theorem ticked {v : Volume} (h : Climbed s c s') (hv : Ticked s'.vol v) : Climbed s c { s' with vol := v } :=
  ⟨h.vol.trans hv, h.granted, h.refs, h.opens, h.idle, h.claims⟩

theorem asked (h : Climbed s c s') : Climbed s c { s' with asked := s'.asked + 1 } :=
  ⟨h.vol, h.granted, h.refs, h.opens, h.idle, h.claims⟩

/-- The counts of one inode. -/
theorem setNode (h : Climbed s c s') (i : ℕ) (node : Node) {c' : ℕ → ℕ} (hc : ∀ j, j ≠ i → c' j = c j)
    (href : node.refCount = (s.node i).refCount + c' i) (hopen : node.openCount = (s.node i).openCount)
    (hidle : node.cached = false → node.refCount = 0)
    (hclaim : (s.node i).refCount = 0 → 0 < c' i → 0 < node.reclaimCount) :
    Climbed s c' { s' with node := Function.update s'.node i node } := by
  have hself : Function.update s'.node i node i = node := Function.update_self ..
  have hother : ∀ j, j ≠ i → Function.update s'.node i node j = s'.node j := fun j hj =>
    Function.update_of_ne hj ..
  refine ⟨h.vol, h.granted, fun j => ?_, fun j => ?_, fun j => ?_, fun j => ?_⟩ <;>
    rcases eq_or_ne j i with rfl | hj
  · exact (congrArg Node.refCount hself).trans href
  · exact (congrArg Node.refCount (hother j hj)).trans ((h.refs j).trans (by rw [hc j hj]))
  · exact (congrArg Node.openCount hself).trans hopen
  · exact (congrArg Node.openCount (hother j hj)).trans (h.opens j)
  · dsimp only
    rw [hself]
    exact hidle
  · dsimp only
    rw [hother j hj]
    exact h.idle j
  · dsimp only
    rw [hself]
    exact hclaim
  · dsimp only
    rw [hother j hj, hc j hj]
    exact h.claims j

/-- An inode with references is in memory. -/
theorem cached (h : Climbed s c s') (hi : 0 < (s'.node i).refCount) : (s'.node i).cached = true :=
  (Bool.not_eq_false _).mp fun hf => hi.ne' (h.idle i hf)

/-- **`vop_ref_inc`** of an inode that is referred to. -/
theorem inc (h : Climbed s c s') (hi : 0 < (s.node i).refCount) :
    wpe (inodeRefInc i) (fun _ => Climbed s (oneMore c i)) R E s' := by
  have href := h.refs i
  simp only [inodeRefInc, Fs.setNode, wpe_bind, wpe_modify, wpe_get, wpe_pure]
  refine h.setNode i _ (fun j hj => oneMore_of_ne hj) ?_ (h.opens i) (fun hf => ?_)
    fun h0 => absurd h0 hi.ne'
  · rw [oneMore_self]
    dsimp only
    rw [href, Nat.add_assoc]
  · exact absurd (h.idle i hf) (by omega)

/-- **`vop_ref_dec`** of a directory: it is reclaimed if that was its last reference. -/
theorem dec (ht : DirTree inos loose up label s) (h : Climbed s c s') (hd : IsDir inos s.vol d) (hc : 0 < c d) :
    wpe (inodeRefDec d) (fun _ => Climbed s (oneLess c d)) R E s' := by
  have href := h.refs d
  have hless : ∀ j, j ≠ d → oneLess c d j = c j := fun j hj => oneLess_of_ne hj
  simp only [inodeRefDec, Fs.setNode, wpe_bind, wpe_modify, wpe_get, wpe_demand]
  refine ⟨fun _ => ?_, fun hno => absurd (show 0 < _ by omega) hno⟩
  rw [wpe_ite]
  refine ⟨fun h0 => ?_, fun hne => ?_⟩
  · rw [Function.update_self] at h0
    dsimp only at h0
    have hs0 : (s.node d).refCount = 0 := by omega
    have hopen : (s'.node d).openCount = 0 := by
      have := ht.opens d
      have := h.opens d
      omega
    have hclaim := h.claims d hs0 hc
    have hone : oneLess c d d = 0 := by
      rw [oneLess_self]
      omega
    have hdone : ∀ node : Node, node.refCount = 0 → node.openCount = 0 →
        Climbed s (oneLess c d) { s' with node := Function.update s'.node d node } := fun node hr ho =>
      h.setNode d node hless (by rw [hr, hs0, hone]) (by rw [ho, ← hopen, h.opens d]) (fun _ => hr)
        fun _ hpos => absurd hone hpos.ne'
    simp only [wpe_ignore, vopAny, wpe_bind]
    refine wpe_vopOp_provided rfl ?_ ?_ ?_
    · simp [hopen]
    · simp [h0]
    have hlinks : (s'.vol.inode d).nlinks ≠ 0 := by
      rw [h.vol.inode]
      exact ht.links d hd
    have hdirty : ¬ (s'.vol.inode d).dirty = true := by
      rw [h.vol.inode, (ht.clean d hd).1]
      simp
    simp only [sfsReclaim, Fs.setNode, wpe_bind, wpe_modify, wpe_get, wpe_demand, Function.update_self]
    refine ⟨fun _ => ?_, fun hno => absurd hclaim hno⟩
    rw [wpe_ite]
    refine ⟨fun _ => ?_, fun _ => ?_⟩
    · simp only [wpe_throw, Function.update_idem]
      exact hdone _ h0 hopen
    · simp only [inodeKill, wpe_bind, wpe_get, if_neg hlinks, if_neg hdirty, wpe_modify, wpe_demand,
        Function.update_self, Function.update_idem]
      exact ⟨fun _ => hdone _ h0 hopen, fun hno => absurd ⟨h0, hopen⟩ hno⟩
  · rw [Function.update_self] at hne
    dsimp only at hne
    refine h.setNode d _ hless ?_ (h.opens d) (fun hf => ?_) fun _ _ => ?_
    · rw [oneLess_self]
      dsimp only
      omega
    · exact absurd (h.idle d hf) (by omega)
    · exact h.claims d ‹_› hc

/-- An allocation. -/
theorem wpe_kmalloc {Q : Unit → FileSys → Prop} (h : Climbed s c s')
    (hQ : Q () { s' with asked := s'.asked + 1 })
    (hR : Hindered s → R (-Sfs.E_NO_MEM) { s' with asked := s'.asked + 1 }) : wpe kmalloc Q R E s' := by
  simp only [kmalloc, wpe_bind, wpe_get, wpe_modify]
  rw [wpe_ite]
  refine ⟨fun _ => hQ, fun hno => hR (h.hindered.mp (.inr ⟨s'.asked, ?_⟩))⟩
  simpa using hno

/-- An error on the way: the references are as they were. -/
def Slipped (s : FileSys) (c : ℕ → ℕ) (e : ℤ) (s' : FileSys) : Prop := e < 0 ∧ Climbed s c s' ∧ Hindered s

/-- **Loading a directory** takes a reference to it. -/
theorem wpe_load (ht : DirTree inos loose up label s) (h : Climbed s c s') (hd : IsDir inos s.vol d) :
    wpe (sfsLoadInode d) (fun _ => Climbed s (oneMore c d)) (Slipped s c) E s' := by
  have href := h.refs d
  have hmore : ∀ j, j ≠ d → oneMore c d j = c j := fun j hj => oneMore_of_ne hj
  have hnomem : (-Sfs.E_NO_MEM : ℤ) < 0 := by decide
  rw [sfsLoadInode, wpe_bind, wpe_get]
  split
  · next hcached =>
    simp only [inodeRefInc, Fs.setNode, wpe_bind, wpe_modify, wpe_get, wpe_pure, Function.update_self]
    rw [wpe_ite]
    refine ⟨fun hone => ?_, fun hmany => ?_⟩
    · simp only [wpe_modify, Function.update_self, Function.update_idem]
      refine h.setNode d _ hmore ?_ (h.opens d) (fun hf => ?_) fun _ _ => Nat.succ_pos _
      · rw [oneMore_self]
        dsimp only
        omega
      · exact absurd (hcached.symm.trans hf) (by simp)
    · refine h.setNode d _ hmore ?_ (h.opens d) (fun hf => ?_) fun h0 _ => ?_
      · rw [oneMore_self]
        dsimp only
        omega
      · exact absurd (hcached.symm.trans hf) (by simp)
      · exact h.claims d h0 (by omega)
  · next hcached =>
    have h0 := h.idle d (by simpa using hcached)
    have hown := h.vol.owned ht.owned
    have hi0 : d ≠ 0 := ht.owned.inodes d hd.1
    rw [wpe_bind]
    refine h.wpe_kmalloc ?_ fun hh => ⟨hnomem, h.asked, hh⟩
    simp only [onVol, wpe_bind, wpe_zoome, wpe_demand, wpe_get]
    refine wpe_inuse_ref (r := .inode d) hown hd.1 rfl hi0 ⟨fun _ => ?_, fun hno => absurd rfl hno⟩
    have hin : InRange s'.vol d := hown.inRange_of_ref (r := .inode d) hd.1 hi0
    have htick := h.asked.ticked (Ticked.tick s'.vol)
    refine wpe_sfsRbuf hown.fits hin (by norm_num) (by norm_num) ?_
      fun e he hf => ⟨he, htick, .inl (h.vol.faulty.mp hf)⟩
    -- what was read is what the inode was
    have hsame : decodeDin (s'.vol.inode d) (fun j => s'.vol.dev.data d (0 + j)) = s'.vol.inode d := by
      simp only [Nat.zero_add, h.vol.data, h.vol.inode]
      exact (ht.clean d hd).2
    have hsame' : decodeDin (s'.vol.tick.inode d) (fun j => s'.vol.dev.data d (0 + j)) = s'.vol.inode d := hsame
    rw [hsame', h.vol.inode]
    refine ⟨fun _ => htick.wpe_kmalloc ?_ fun hh => ⟨hnomem, htick.asked, hh⟩,
      fun hno => absurd (ht.links d hd) hno⟩
    refine ⟨fun _ => ?_, fun hno => absurd (.inr hd.2) hno⟩
    have hset : s'.vol.tick.setInode d (fun _ => s.vol.inode d) = s'.vol.tick := by
      rw [← h.vol.inode, Volume.setInode]
      exact congrArg (fun f => { s'.vol.tick with inode := f }) (Function.update_eq_self d s'.vol.inode)
    simp only [Sfs.setInode, Fs.setNode, wpe_modify, hset]
    refine htick.asked.setNode d ⟨true, 1, 0, 1⟩ hmore ?_ ?_ (fun hf => (by cases hf)) fun _ _ => Nat.one_pos
    · rw [oneMore_self]
      dsimp only
      omega
    · have := ht.opens d
      dsimp only
      omega

/-- **Looking up `..`** leads to the directory above, with a reference to it. -/
theorem wpe_lookupUp (ht : DirTree inos loose up label s) (h : Climbed s c s') (hd : IsDir inos s.vol d) :
    wpe (sfsLookupOnce d DOTDOT) (fun p u => p = up d ∧ Climbed s (oneMore c (up d)) u) (Slipped s c)
      (fun _ => False) s' := by
  have hdir := (ht.directory hd).ticked h.vol
  simp only [sfsLookupOnce, sfsDirentSearchNolock, wpe_bind, wpe_demand, wpe_get]
  refine ⟨fun _ => h.wpe_kmalloc ?_ fun hh => ⟨by decide, h.asked, hh⟩, fun hno => absurd (by decide) hno⟩
  rw [onVol, wpe_zoome]
  have hend : 0 + (s'.vol.inode d).blocks ≤ (s'.vol.inode d).blocks := (Nat.zero_add _).le
  refine wpe_mono (hdir.wpe_search hend (by decide)) ?_ (fun e w hw => ?_) fun _ => id
  · rintro p w ⟨⟨m, hm, hino, hne, hstr⟩, hw⟩
    rw [h.vol.inode] at hm
    rw [h.vol.slotIno] at hino
    rw [h.vol.slotStr] at hstr
    obtain rfl : p = up d := hino.symm.trans (ht.dotdot d hd m hm (by rwa [hino]) hstr)
    exact wpe_mono (wpe_load ht (h.asked.ticked hw) (ht.up_dir d hd)) (fun _ u hu => ⟨rfl, hu⟩)
      (fun _ _ => id) fun _ => id
  · obtain ⟨m, hm, hne, hstr⟩ := ht.climbs d hd
    refine ⟨hw.1.1, h.asked.ticked hw.1.2, .inl (hw.2.elim (fun hall => ?_) h.vol.faulty.mp)⟩
    have hlt : m < 0 + (s'.vol.inode d).blocks := by rwa [Nat.zero_add, h.vol.inode]
    have hup : slotIno s'.vol d m ≠ 0 ∧ slotStr s'.vol d m = DOTDOT := by
      rw [h.vol.slotIno, h.vol.slotStr]
      exact ⟨hne, hstr⟩
    exact absurd hup (hall m (Nat.zero_le _) hlt)

/-- **Finding the name** of a directory in the one above. -/
theorem wpe_findino (ht : DirTree inos loose up label s) (h : Climbed s c s') (hd : IsDir inos s.vol d)
    (hway : Way up label d names) (hne : d ≠ SFS_BLKN_ROOT) :
    wpe (onVol (direntFindino (up d) d (s'.vol.inode (up d)).blocks 0))
      (fun name u => entryStr name = label d ∧ Climbed s c u) (Slipped s c) (fun _ => False) s' := by
  have hdir := (ht.directory (ht.up_dir d hd)).ticked h.vol
  have hend : 0 + (s'.vol.inode (up d)).blocks ≤ (s'.vol.inode (up d)).blocks := (Nat.zero_add _).le
  rw [onVol, wpe_zoome]
  refine wpe_mono (hdir.wpe_findino hend) ?_ (fun e w hw => ?_) fun _ => id
  · rintro name w ⟨⟨m, hm, hino, hstr⟩, hw⟩
    rw [h.vol.inode] at hm
    rw [h.vol.slotIno] at hino
    rw [h.vol.slotStr] at hstr
    exact ⟨hstr.trans (ht.slotStr_eq hd hway hne hm hino), h.ticked hw⟩
  · obtain ⟨m, hm, hino⟩ := ht.named d hd hne
    refine ⟨hw.1.1, h.ticked hw.1.2, .inl (hw.2.elim (fun hall => ?_) h.vol.faulty.mp)⟩
    have hlt : m < 0 + (s'.vol.inode (up d)).blocks := by rwa [Nat.zero_add, h.vol.inode]
    exact absurd ((h.vol.slotIno _ _).trans hino) (hall m (Nat.zero_le _) hlt)

end Climbed

/-! ## The buffer -/

variable {iob : Iobuf} {st : Naming} {text : List UInt8} {name : ℕ → UInt8}

/-- **The end of the buffer holds a text**, with what `resid` and `ptr` say of it; nothing outside the
buffer is changed. -/
structure Holds (iob : Iobuf) (text : List UInt8) (st : Naming) : Prop where
  resid : st.resid + text.length + 2 = iob.resid
  ptr : st.ptr + text.length = iob.used + iob.resid
  text : ∀ j c, text[j]? = some c → st.buf (st.ptr + j) = c
  outside : ∀ j, j < iob.used ∨ iob.used + iob.resid ≤ j → st.buf j = iob.buf j

/-- **A name in front** of the text, where there is room for it. -/
theorem Holds.prepend (h : Holds iob text st) (hroom : (entryStr name).length + 1 ≤ st.resid) :
    Holds iob (entryStr name ++ SLASH :: text) (st.prepend name) := by
  have hresid := h.resid
  have hptr := h.ptr
  have hlen : (entryStr name ++ SLASH :: text).length = (entryStr name).length + 1 + text.length := by
    rw [List.length_append, List.length_cons]
    omega
  obtain ⟨p, hp⟩ : ∃ p, st.ptr = p + ((entryStr name).length + 1) := Nat.exists_eq_add_of_le' (by omega)
  have hp' : st.ptr - ((entryStr name).length + 1) = p := by omega
  have hbuf : (st.prepend name).buf = Function.update (overlay st.buf p (entryStr name).length name)
      (p + (entryStr name).length) SLASH := by
    rw [Naming.prepend]
    simp only [hp', Nat.add_sub_cancel]
  have hat : (st.prepend name).ptr = p := hp'
  refine ⟨?_, ?_, fun j c hj => ?_, fun j hj => ?_⟩
  · rw [hlen]
    change st.resid - ((entryStr name).length + 1) + _ + 2 = _
    omega
  · rw [hlen, hat]
    omega
  · rw [hat, hbuf]
    rcases lt_trichotomy j (entryStr name).length with hlt | rfl | hgt
    · rw [List.getElem?_append_left hlt] at hj
      rw [Function.update_of_ne (by omega), overlay, if_pos (by omega), Nat.add_sub_cancel_left]
      exact entryStr_getElem? hj
    · rw [List.getElem?_append_right le_rfl, Nat.sub_self] at hj
      rw [Function.update_self]
      simpa using hj
    · rw [List.getElem?_append_right hgt.le] at hj
      obtain ⟨k, rfl⟩ : ∃ k, j = (entryStr name).length + 1 + k := Nat.exists_eq_add_of_le hgt
      have hk : (entryStr name).length + 1 + k - (entryStr name).length = k + 1 := by omega
      rw [hk, List.getElem?_cons_succ] at hj
      rw [Function.update_of_ne (by omega), overlay, if_neg (by omega), ← h.text k c hj, hp]
      exact congrArg st.buf (by omega)
  · rw [hbuf, Function.update_of_ne (by omega), overlay, if_neg (by omega)]
    exact h.outside j hj

/-! ## The climb -/

/-- The names, each with a slash behind it. -/
def wayText (names : List (List UInt8)) : List UInt8 := names.flatMap fun name => name ++ [SLASH]

theorem wayText_down (name : List UInt8) : wayText (names ++ [name]) ++ text =
    wayText names ++ (name ++ SLASH :: text) := by
  simp [wayText, List.flatMap_append]

/-- **How the climb ends**: with the text at the end of the buffer, or with an error for which there is a
reason. -/
def Arrived (s : FileSys) (iob : Iobuf) (text : List UInt8) (ret : ℤ) (st : Naming) : Prop :=
  ret = 0 ∧ Holds iob text st ∨
    ret < 0 ∧ (iob.resid < text.length + 2 ∨ Hindered s) ∧
      ∀ j, j < iob.used ∨ iob.used + iob.resid ≤ j → st.buf j = iob.buf j

/-- What the loop leaves: the references are as they were. -/
def LoopDone (s : FileSys) (c : ℕ → ℕ) (iob : Iobuf) (text : List UInt8) (r : Option (ℤ × Naming))
    (u : FileSys) : Prop :=
  ∃ ret st, r = some (ret, st) ∧ Climbed s c u ∧ Arrived s iob text ret st

/-- `failed:` gives the reference of the climb back. -/
theorem wpe_namefileFailed {ret : ℤ} (ht : DirTree inos loose up label s)
    (h : Climbed s (oneMore c st.node) s') (hd : IsDir inos s.vol st.node) (hret : ret < 0)
    (hwhy : iob.resid < text.length + 2 ∨ Hindered s)
    (hout : ∀ j, j < iob.used ∨ iob.used + iob.resid ≤ j → st.buf j = iob.buf j) :
    wpe (namefileFailed ret st) (LoopDone s c iob text) (fun _ _ => False) (fun _ => False) s' := by
  rw [namefileFailed, wpe_bind]
  refine wpe_mono (h.dec ht hd one_le_oneMore) (fun _ u hu => ?_) (fun _ _ => id) fun _ => id
  rw [oneLess_oneMore] at hu
  exact ⟨ret, st, rfl, hu, .inr ⟨hret, hwhy, hout⟩⟩

/-- **The climb** to the root, by induction on the way. -/
theorem wpe_namefileLoop (ht : DirTree inos loose up label s) (hway : Way up label d names)
    (hd : IsDir inos s.vol d) (hturns : names.length < turns) (h : Climbed s (oneMore c d) s') (hst : st.node = d)
    (hh : Holds iob text st) :
    wpe (namefileLoop turns st) (LoopDone s c iob (wayText names ++ text)) (fun _ _ => False) (fun _ => False)
      s' := by
  induction hway generalizing turns s' st text with
  | root =>
    obtain ⟨turns, rfl⟩ := Nat.exists_eq_succ_of_ne_zero (Nat.ne_zero_of_lt hturns)
    rw [namefileLoop, wpe_bind, wpe_attempt, hst]
    refine wpe_mono (h.wpe_lookupUp ht hd) ?_ (fun ret u hu => ?_) fun _ => id
    · -- the root is above itself, and was counted twice
      rintro _ u ⟨rfl, hu⟩
      dsimp only
      rw [ht.root] at hu ⊢
      rw [wpe_bind]
      refine wpe_mono (hu.dec ht hd one_le_oneMore) (fun _ u₁ hu₁ => ?_) (fun _ _ => id) fun _ => id
      rw [oneLess_oneMore] at hu₁
      rw [if_pos rfl, wpe_bind]
      refine wpe_mono (hu₁.dec ht hd one_le_oneMore) (fun _ u₂ hu₂ => ?_) (fun _ _ => id) fun _ => id
      rw [oneLess_oneMore] at hu₂
      exact ⟨0, st, rfl, hu₂, .inl ⟨rfl, hh⟩⟩
    · rw [← hst] at hu hd
      exact wpe_namefileFailed ht hu.2.1 hd hu.1 (.inr hu.2.2) hh.outside
  | @down d names hne hway ih =>
    obtain ⟨turns, rfl⟩ := Nat.exists_eq_succ_of_ne_zero (Nat.ne_zero_of_lt hturns)
    have hup := ht.up_dir d hd
    have hnode : st.node ≠ up d := hst ▸ ((Way.down hne hway).up_ne hne).symm
    rw [namefileLoop, wpe_bind, wpe_attempt, hst]
    refine wpe_mono (h.wpe_lookupUp ht hd) ?_ (fun ret u hu => ?_) fun _ => id
    · rintro _ u ⟨rfl, hu⟩
      dsimp only
      rw [wpe_bind]
      refine wpe_mono (hu.dec ht hd (one_le_oneMore.trans le_oneMore)) (fun _ u₁ hu₁ => ?_) (fun _ _ => id)
        fun _ => id
      rw [oneLess_oneMore_oneMore] at hu₁
      rw [if_neg (hst ▸ hnode)]
      simp only [wpe_bind, wpe_get, wpe_demand, wpe_attempt]
      refine ⟨fun _ => ?_, fun hno => absurd ⟨hst ▸ hnode, ?_⟩ hno⟩
      · refine wpe_mono (hu₁.wpe_findino ht hd (.down hne hway) hne) ?_ (fun ret u₂ hu₂ => ?_) fun _ => id
        · rintro name u₂ ⟨hname, hu₂⟩
          rw [wpe_ite]
          refine ⟨fun hlong => ?_, fun hroom => ?_⟩
          · -- the name does not fit in front of what is there
            refine wpe_namefileFailed ht hu₂ hup (by decide) (.inl ?_) hh.outside
            have hresid := hh.resid
            rw [wayText_down, List.length_append, List.length_append, List.length_cons, ← hname]
            omega
          · have hnext : Holds iob text { st with node := up d } := ⟨hh.resid, hh.ptr, hh.text, hh.outside⟩
            rw [wayText_down, ← hname]
            exact ih hup (by simpa using hturns) hu₂ rfl (hnext.prepend (not_lt.mp hroom))
        · exact wpe_namefileFailed ht hu₂.2.1 hup hu₂.1 (.inr hu₂.2.2) hh.outside
      · rw [hu₁.vol.inode]
        exact hup.2
    · rw [← hst] at hu hd
      exact wpe_namefileFailed ht hu.2.1 hd hu.1 (.inr hu.2.2) hh.outside

/-! ## The path -/

/-- **A path in the buffer**: a slash, the names each with a slash behind it, and a NUL. -/
def pathText (names : List (List UInt8)) : List UInt8 := SLASH :: wayText names ++ [0]

/-- **What a call leaves**: the path at the front of the buffer, which is advanced to its NUL; or an error,
for which there is a reason, and the buffer where it was.  Nothing is written outside it. -/
structure Answer (s : FileSys) (iob : Iobuf) (names : List (List UInt8)) (ret : ℤ) (r : Iobuf) : Prop where
  path : ret = 0 → (pathText names).length ≤ iob.resid ∧
    (∀ j c, (pathText names)[j]? = some c → r.buf (iob.used + j) = c) ∧
    r.offset = iob.offset + (wayText names).length ∧ r.resid + (wayText names).length = iob.resid ∧ r.len = iob.len
  error : ret ≠ 0 → ret < 0 ∧ (iob.resid ≤ 2 ∨ iob.resid < (pathText names).length ∨ Hindered s) ∧
    r.offset = iob.offset ∧ r.resid = iob.resid ∧ r.len = iob.len
  outside : ∀ j, j < iob.used ∨ iob.used + iob.resid ≤ j → r.buf j = iob.buf j

theorem pathText_length : (pathText names).length = (wayText names).length + 2 := by
  simp [pathText]

/-- The text is moved to the front. -/
theorem Holds.answer (h : Holds iob (wayText names) st) : Answer s iob names 0 (iob.named st) := by
  have hresid := h.resid
  have hptr := h.ptr
  have halen : iob.resid - st.resid - 2 = (wayText names).length := by omega
  have hbuf : (iob.named st).buf = Function.update (Function.update
      (overlay st.buf (iob.used + 1) (wayText names).length fun j => st.buf (st.ptr + j)) iob.used SLASH)
      (iob.used + 1 + (wayText names).length) 0 := by
    rw [Iobuf.named]
    simp only [halen]
  refine ⟨fun _ => ⟨?_, fun j c hj => ?_, ?_, ?_, rfl⟩, fun hno => absurd rfl hno, fun j hj => ?_⟩
  · rw [pathText_length]
    omega
  · rw [hbuf]
    rcases j with _ | j
    · have hat : iob.used + 0 = iob.used := rfl
      rw [Function.update_of_ne (by omega), hat, Function.update_self]
      simpa [pathText] using hj
    · rw [pathText, List.cons_append, List.getElem?_cons_succ] at hj
      rcases lt_or_ge j (wayText names).length with hlt | hge
      · rw [List.getElem?_append_left hlt] at hj
        have hsub : iob.used + (j + 1) - (iob.used + 1) = j := by omega
        rw [Function.update_of_ne (by omega), Function.update_of_ne (by omega), overlay, if_pos (by omega), hsub]
        exact h.text j c hj
      · rw [List.getElem?_append_right hge] at hj
        obtain ⟨hlt, hc⟩ := List.getElem?_eq_some_iff.mp hj
        obtain rfl : j = (wayText names).length := by
          have : j - (wayText names).length < 1 := hlt
          omega
        have hat : iob.used + ((wayText names).length + 1) = iob.used + 1 + (wayText names).length := by omega
        rw [hat, Function.update_self]
        simpa using hj
  · change iob.offset + ((iob.resid - st.resid - 2 : ℕ) : ℤ) = _
    rw [halen]
  · change iob.resid - (iob.resid - st.resid - 2) + _ = _
    omega
  · rw [hbuf, Function.update_of_ne (by omega), Function.update_of_ne (by omega), overlay, if_neg (by omega)]
    exact h.outside j hj

/-- **`sfs_namefile`** on a directory that is referred to. -/
theorem wpe_sfsNamefile (ht : DirTree inos loose up label s) (hway : Way up label d names)
    (hd : IsDir inos s.vol d) (href : 0 < (s.node d).refCount) (hturns : names.length < turns) :
    wpe (sfsNamefile turns d iob)
      (fun r u => ∃ ret iob', r = some (ret, iob') ∧ Climbed s (fun _ => 0) u ∧ Answer s iob names ret iob')
      (fun _ _ => False) (fun _ => False) s := by
  have hstart : Climbed s (fun _ => 0) s :=
    ⟨.refl _, rfl, fun _ => rfl, fun _ => rfl, ht.idle, fun _ _ hno => absurd hno (lt_irrefl _)⟩
  have herror : ∀ {u : FileSys}, Climbed s (fun _ => 0) u → iob.resid ≤ 2 ∨ Hindered s →
      ∃ ret iob', some (-Sfs.E_NO_MEM, iob) = some (ret, iob') ∧ Climbed s (fun _ => 0) u ∧
        Answer s iob names ret iob' := fun hu hwhy =>
    ⟨_, _, rfl, hu, fun hno => absurd hno (by decide), fun _ => ⟨by decide, hwhy.imp_right .inr, rfl, rfl, rfl⟩,
      fun _ _ => rfl⟩
  rw [sfsNamefile, wpe_ite]
  refine ⟨fun hsmall => herror hstart (.inl hsmall), fun hlarge => ?_⟩
  rw [wpe_bind, wpe_attempt]
  refine hstart.wpe_kmalloc ?_ fun hh => herror hstart.asked (.inr hh)
  dsimp only
  rw [wpe_bind]
  refine wpe_mono (hstart.asked.inc href) (fun _ u hu => ?_) (fun _ _ => id) fun _ => id
  have hfirst : Holds iob [] ⟨d, iob.resid - 2, iob.used + iob.resid, iob.buf⟩ := by
    refine ⟨?_, rfl, fun j c hj => by simp at hj, fun _ _ => rfl⟩
    rw [List.length_nil]
    dsimp only
    omega
  rw [wpe_bind]
  refine wpe_mono (wpe_namefileLoop ht hway hd hturns hu rfl hfirst) ?_ (fun _ _ => id) fun _ => id
  rintro _ u' ⟨ret, st, rfl, hu', hend⟩
  rw [List.append_nil] at hend
  dsimp only
  rw [wpe_ite]
  refine ⟨?_, fun hne => ?_⟩
  · rintro rfl
    have hh := (hend.resolve_right fun hno => absurd hno.1 (lt_irrefl _)).2
    rw [wpe_bind, wpe_demand]
    exact ⟨fun _ => ⟨_, _, rfl, hu', hh.answer⟩, fun hno => absurd (by omega) hno⟩
  · obtain ⟨hneg, hwhy, hout⟩ := hend.resolve_left fun h0 => hne h0.1
    refine ⟨_, _, rfl, hu', fun h0 => absurd h0 hne, fun _ => ⟨hneg, .inr (hwhy.imp_left ?_), rfl, rfl, rfl⟩, hout⟩
    intro hlt
    rwa [pathText_length]

/-- **`getcwd` builds the right path**: for a directory at any depth and a buffer of any length,
`sfs_namefile` ends, after one turn more than there are names on the way from the root; it writes the path
into the buffer and advances it, or returns a negative error, only where there is a reason; every reference
count is as before, and nothing outside the buffer is written. -/
theorem namefile_path (ht : DirTree inos loose up label s) (hway : Way up label d names)
    (hd : IsDir inos s.vol d) (href : 0 < (s.node d).refCount) (iob : Iobuf) :
    ∀ turns > names.length, ∃ ret iob' s', (sfsNamefile turns d iob).run s = .ok (.ok (some (ret, iob')), s') ∧
      Answer s iob names ret iob' ∧ ∀ i, (s'.node i).refCount = (s.node i).refCount := by
  intro turns hturns
  have hdone : wpe (sfsNamefile turns d iob) _ _ _ s := wpe_sfsNamefile ht hway hd href hturns
  obtain ⟨r, s', hrun, hr⟩ := wp_false_iff.mp hdone
  cases r with
  | ok r =>
    obtain ⟨ret, iob', rfl, hu, hanswer⟩ := hr
    exact ⟨ret, iob', s', hrun, hanswer, hu.refs⟩
  | error e => exact hr.elim

/-! ## A tree of two directories -/

/-- An entry: its `ino`, and a name of at most two characters. -/
def dirent (ino c c' : UInt8) : ℕ → UInt8
  | 0 => ino
  | 4 => c
  | 5 => c'
  | _ => 0

/-- The root, with the entries `.`, `..` and `a`. -/
def treeRoot : SfsInode :=
  ⟨12288, .dir, 1, 3, fun k => if k = 0 then 3 else if k = 1 then 6 else if k = 2 then 7 else 0, 0, false⟩

/-- The directory `a`, with the entries `.` and `..`. -/
def treeDir : SfsInode := ⟨8192, .dir, 1, 2, fun k => if k = 0 then 5 else if k = 1 then 8 else 0, 0, false⟩

/-- **A volume with the directories `/` and `/a`**. -/
def treeVolume : Volume where
  blocks := 16
  unusedBlocks := 7
  superDirty := false
  freemap := mapFrom 9 16
  dev := {
    blocks := 16
    data := fun
      | 1 => encodeDin treeRoot
      | 3 => dirent 1 46 0
      | 4 => encodeDin treeDir
      | 5 => dirent 4 46 0
      | 6 => dirent 1 46 46
      | 7 => dirent 4 97 0
      | 8 => dirent 1 46 46
      | _ => fun _ => 0
    fault := fun _ => 0
    transfers := 0 }
  inode i := if i = 1 then treeRoot else treeDir

/-- What a block of the volume is for. -/
def treeOwner : ℕ → Ref
  | 1 => .inode 1
  | 3 => .block 1 0
  | 4 => .inode 4
  | 5 => .block 4 0
  | 6 => .block 1 1
  | 7 => .block 1 2
  | 8 => .block 4 1
  | _ => .indirect 0

theorem treeVolume_bmap {i k : ℕ} (hi : i = 1 ∨ i = 4) (h0 : bmap treeVolume i k ≠ 0) :
    treeOwner (bmap treeVolume i k) = .block i k ∧ 3 ≤ bmap treeVolume i k ∧ bmap treeVolume i k < 9 := by
  have hk : k < 3 := by
    by_contra hk
    refine h0 ?_
    rw [bmap]
    rcases hi with rfl | rfl <;> split
    · exact (if_neg (by omega)).trans ((if_neg (by omega)).trans (if_neg (by omega)))
    · rfl
    · exact (if_neg (by omega)).trans (if_neg (by omega))
    · rfl
  rcases hi with rfl | rfl <;> interval_cases k
  · exact ⟨rfl, by decide, by decide⟩
  · exact ⟨rfl, by decide, by decide⟩
  · exact ⟨rfl, by decide, by decide⟩
  · exact ⟨rfl, by decide, by decide⟩
  · exact ⟨rfl, by decide, by decide⟩
  · exact absurd rfl h0

theorem treeVolume_ref {r : Ref} (hr : r.Valid {1, 4}) (h0 : refBlock treeVolume r ≠ 0) :
    treeOwner (refBlock treeVolume r) = r ∧ (refBlock treeVolume r = 1 ∨ 3 ≤ refBlock treeVolume r) ∧
      refBlock treeVolume r < 9 := by
  have hmem : ∀ i ∈ ({1, 4} : Finset ℕ), i = 1 ∨ i = 4 := by simp
  cases r with
  | inode i =>
    rcases hmem i hr with rfl | rfl
    · exact ⟨rfl, .inl rfl, by decide⟩
    · exact ⟨rfl, .inr (by decide), by decide⟩
  | indirect i => rcases hmem i hr with rfl | rfl <;> exact absurd rfl h0
  | block i k =>
    obtain ⟨howner, hge, hlt⟩ := treeVolume_bmap (hmem i hr.1) h0
    exact ⟨howner, .inr hge, hlt⟩

/-- **The volume is consistent.** -/
theorem treeVolume_owned : Owned {1, 4} ∅ treeVolume := by
  have hfile : ∀ b, FileBlock treeVolume b ↔ b = 1 ∨ 3 ≤ b ∧ b < 16 := fun b => by
    have hres : roundUpDiv 16 (SFS_BLKSIZE * 8) = 1 := rfl
    unfold FileBlock Sfs.InRange Reserved
    change (b ≠ 0 ∧ b < 16) ∧ ¬ (b = 0 ∨ 2 ≤ b ∧ b < 2 + roundUpDiv 16 (SFS_BLKSIZE * 8)) ↔ _
    rw [hres]
    omega
  have hbit : ∀ b, treeVolume.freemap.bit b = decide (9 ≤ b ∧ b < 16) := mapFrom_bit 9
  refine ⟨⟨le_rfl, by decide⟩, ⟨rfl, by decide⟩, fun r hr h0 => ?_, fun r r' hr hr' h0 heq => ?_,
    fun b hb hused => ?_, fun b hb => absurd hb (Finset.notMem_empty b),
    fun b hb => absurd hb (Finset.notMem_empty b), fun b _ hfree => ?_, ?_, fun i hi => ?_⟩
  · obtain ⟨-, hge, hlt⟩ := treeVolume_ref hr h0
    rw [hfile, hbit, decide_eq_false_iff_not]
    omega
  · rw [← (treeVolume_ref hr h0).1, heq, (treeVolume_ref hr' (heq ▸ h0)).1]
  · rw [hbit, decide_eq_false_iff_not] at hused
    have hb' := (hfile b).mp hb
    refine .inl ⟨treeOwner b, ?_⟩
    obtain rfl | hge := hb'
    · exact ⟨Finset.mem_insert_self .., rfl⟩
    · have hlt : b < 9 := by omega
      have hge' := hge.1
      interval_cases b
      · exact ⟨⟨by decide, by decide⟩, rfl⟩
      · exact ⟨show 4 ∈ ({1, 4} : Finset ℕ) by decide, rfl⟩
      · exact ⟨⟨by decide, by decide⟩, rfl⟩
      · exact ⟨⟨by decide, by decide⟩, rfl⟩
      · exact ⟨⟨by decide, by decide⟩, rfl⟩
      · exact ⟨⟨by decide, by decide⟩, rfl⟩
  · rw [hbit, decide_eq_true_iff] at hfree
    exact (hfile b).mpr (.inr ⟨by omega, hfree.2⟩)
  · have hset : (Finset.range treeVolume.freemap.nbits).filter (treeVolume.freemap.bit ·) = Finset.Ico 9 16 := by
      ext b
      rw [Finset.mem_filter, Finset.mem_range, hbit, decide_eq_true_iff, Finset.mem_Ico]
      change b < 32 ∧ _ ↔ _
      omega
    rw [freeCount, hset, Nat.card_Ico]
    rfl
  · rintro rfl
    simp at hi

/-- A process that is in `/a`. -/
def treeFiles : FileSys where
  vol := treeVolume
  node i := if i = 1 ∨ i = 4 then ⟨true, 1, 0, 1⟩ else ⟨false, 0, 0, 0⟩
  granted _ := true
  asked := 0
  filesCount _ := 1
  fdArray _ _ := ⟨.none, false, false, 0, none, 0⟩

/-- Both directories are in the root, and `a` is the name of the one. -/
theorem treeFiles_tree : DirTree {1, 4} ∅ (fun _ => 1) (fun _ => [97]) treeFiles := by
  have hcases : ∀ {P : ℕ → Prop}, P 1 → P 4 → ∀ d, IsDir {1, 4} treeFiles.vol d → P d := fun h1 h4 d hd => by
    rcases (by simpa using hd.1 : d = 1 ∨ d = 4) with rfl | rfl
    · exact h1
    · exact h4
  have hdins : DinOk treeRoot ∧ DinOk treeDir := by
    refine ⟨⟨?_, ?_, ?_, ?_, fun k _ => ?_, ?_⟩, ⟨?_, ?_, ?_, ?_, fun k _ => ?_, ?_⟩⟩ <;>
      first | decide | (dsimp only [treeRoot, treeDir]; repeat' split) <;> norm_num
  have hname : ∀ d ∈ [1, 4], ∀ m < (treeVolume.inode d).blocks, slotStr treeVolume d m ≠ DOT →
      slotStr treeVolume d m ≠ DOTDOT → d = 1 ∧ [97] = slotStr treeVolume d m := by decide +kernel
  have hcounts : ∀ i, treeFiles.node i = ⟨true, 1, 0, 1⟩ ∨ treeFiles.node i = ⟨false, 0, 0, 0⟩ := fun i => by
    unfold treeFiles
    dsimp only
    split
    · exact .inl rfl
    · exact .inr rfl
  exact {
    owned := treeVolume_owned
    mapped := hcases (by decide) (by decide)
    links := hcases (by decide) (by decide)
    clean := hcases ⟨rfl, decodeDin_encodeDin hdins.1 fun _ _ => rfl⟩
      ⟨rfl, decodeDin_encodeDin hdins.2 fun _ _ => rfl⟩
    up_dir := fun _ _ => ⟨by decide, rfl⟩
    root := rfl
    dot := hcases (by decide +kernel) (by decide +kernel)
    dotdot := hcases (by decide +kernel) (by decide +kernel)
    climbs := hcases (by decide +kernel) (by decide +kernel)
    entry := hcases (fun m hm _ hdot hup => ⟨rfl, (hname 1 (by decide) m hm hdot hup).2⟩)
      fun m hm _ hdot hup => absurd (hname 4 (by decide) m hm hdot hup).1 (by decide)
    named := hcases (fun hno => absurd rfl hno) fun _ => ⟨2, by decide, by decide⟩
    idle := fun i hi => by
      rcases hcounts i with h | h <;> rw [h] at hi ⊢
      exact absurd hi (by decide)
    opens := fun i => by
      rcases hcounts i with h | h <;> rw [h]
      exact Nat.zero_le 1 }

/-- The path to `/a`. -/
theorem namefile_path_tree : ∃ ret iob' s',
    (sfsNamefile 2 4 ⟨fun _ => 0, 0, 10, 10⟩).run treeFiles = .ok (.ok (some (ret, iob')), s') ∧
      Answer treeFiles ⟨fun _ => 0, 0, 10, 10⟩ [[97]] ret iob' ∧
      ∀ i, (s'.node i).refCount = (treeFiles.node i).refCount :=
  namefile_path treeFiles_tree (.down (by decide) .root) ⟨by decide, rfl⟩ (by decide) _ 2 (by decide)

end UCore.Fs
