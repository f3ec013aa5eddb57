import UCore.Fs.File
import UCore.Sfs.Reading
import UCore.Sfs.WriteBack

/-!
# Fs/ReadOnly — calls that only read

    open, read, seek, fstat, dup, close, load_icode_read

What such a call may do to the volume is to write an inode back and to load one: `Unchanged`.  Two of
them do more, and neither looks at how the descriptor was opened: an open with `O_CREAT` cuts the file
to nothing, and a seek beyond its end makes it longer.
-/

namespace UCore.Fs

open Sfs Act

variable {inos loose : Finset ℕ} {v v₀ : Volume} {s s' : FileSys} {i j t fd dir flags : ℕ}
  {name path : List UInt8}

/-! ## The state between two calls -/

/-- **A file system on a consistent volume**: inodes are linked and fit their types, directories and
descriptors name inodes of the volume, and an inode that is not in memory is what its block holds. -/
structure Sound (inos loose : Finset ℕ) (s : FileSys) : Prop where
  owned : Owned inos loose s.vol
  dins : ∀ i ∈ inos, DinOk (s.vol.inode i)
  entries : ∀ d ∈ inos, (s.vol.inode d).type = .dir → ∀ slot < 1036, ∀ name ino,
    Names s.vol d name slot ino → ino ∈ inos
  uncached : ∀ i ∈ inos, (s.node i).cached = false → (s.vol.inode i).dirty = false ∧ OnDisk s.vol i
  nodes : ∀ t fd i, (s.fdArray t fd).node = some i → i ∈ inos

/-- **An inode without changes is what its block holds.**  Only a call that failed while it made a file
longer or shorter leaves it otherwise. -/
def Synced (inos : Finset ℕ) (v : Volume) : Prop :=
  ∀ i ∈ inos, (v.inode i).dirty = false → OnDisk v i

/-- **The files are those of `v₀`.** -/
structure Held (inos loose : Finset ℕ) (v₀ : Volume) (s : FileSys) : Prop
    extends Sound inos loose s where
  synced : Synced inos s.vol
  same : Unchanged inos v₀ s.vol

namespace Held

theorem refl (h : Sound inos loose s) (hsync : Synced inos s.vol) : Held inos loose s.vol s :=
  ⟨h, hsync, .refl s.vol⟩

/-- The counts and the descriptors may change, where they keep what is cached and name inodes of the
volume. -/
theorem counts (h : Held inos loose v₀ s) (hvol : s'.vol = s.vol)
    (hcached : ∀ i ∈ inos, (s'.node i).cached = false → (s.vol.inode i).dirty = false)
    (hnodes : ∀ t fd i, (s'.fdArray t fd).node = some i → i ∈ inos) : Held inos loose v₀ s' := by
  refine ⟨⟨?_, ?_, ?_, fun i hi hc => ?_, hnodes⟩, ?_, ?_⟩
  · rw [hvol]
    exact h.owned
  · rw [hvol]
    exact h.dins
  · rw [hvol]
    exact h.entries
  · rw [hvol]
    exact ⟨hcached i hi hc, h.synced i hi (hcached i hi hc)⟩
  · rw [hvol]
    exact h.synced
  · rw [hvol]
    exact h.same

/-- A volume whose files are as they were, and whose inodes are as their blocks have them. -/
theorem vol {v : Volume} (h : Held inos loose v₀ s) (hu : Unchanged inos s.vol v)
    (hsynced : Synced inos v)
    (huncached : ∀ i ∈ inos, (s.node i).cached = false → (v.inode i).dirty = false) :
    Held inos loose v₀ { s with vol := v } := by
  refine ⟨⟨hu.owned h.owned, fun i hi => hu.dinOk (h.dins i hi),
    fun d hd htype slot hslot name ino hn => ?_, fun i hi hc => ?_, h.nodes⟩, hsynced, h.same.trans hu⟩
  · refine h.entries d hd (hu.type d ▸ htype) slot hslot name ino ?_
    exact (names_congr (hu.map h.owned hd hslot) (hu.blockData h.owned hd hslot)).mp hn
  · exact ⟨huncached i hi hc, hsynced i hi (huncached i hi hc)⟩

/-- A volume that was only read. -/
theorem ticked {v : Volume} (h : Held inos loose v₀ s) (ht : Ticked s.vol v) :
    Held inos loose v₀ { s with vol := v } := by
  obtain ⟨n, rfl⟩ := ht
  exact h.vol ⟨⟨rfl, rfl, rfl, rfl, rfl⟩, fun _ => rfl, fun _ _ => rfl⟩ h.synced
    fun i hi hc => (h.uncached i hi hc).1

/-- The counts of one inode. -/
theorem wpe_setNode {f : Node → Node} {R : ℤ → FileSys → Prop} {E : Assertion → Prop}
    (h : Held inos loose v₀ s)
    (hf : (f (s.node i)).cached = false → (s.node i).cached = false ∨ (s.vol.inode i).dirty = false) :
    wpe (setNode i f) (fun _ => Held inos loose v₀) R E s := by
  rw [setNode, wpe_modify]
  refine h.counts rfl (fun j hj hc => ?_) h.nodes
  dsimp only at hc
  rcases eq_or_ne j i with rfl | hji
  · rw [Function.update_self] at hc
    exact (hf hc).elim (fun hold => (h.uncached j hj hold).1) id
  · rw [Function.update_of_ne hji] at hc
    exact (h.uncached j hj hc).1

/-- One descriptor. -/
theorem wpe_setFile {f : File → File} {R : ℤ → FileSys → Prop} {E : Assertion → Prop}
    (h : Held inos loose v₀ s) (hf : ∀ i, (f (s.fdArray t fd)).node = some i → i ∈ inos) :
    wpe (setFile t fd f) (fun _ s' => Held inos loose v₀ s' ∧ s'.fdArray t fd = f (s.fdArray t fd))
      R E s := by
  rw [setFile, wpe_modify]
  refine ⟨?_, by dsimp only; rw [Function.update_self, Function.update_self]⟩
  refine h.counts rfl (fun i hi hc => (h.uncached i hi hc).1) fun t' fd' j hj => ?_
  dsimp only at hj
  rcases eq_or_ne t' t with rfl | htt
  · rw [Function.update_self] at hj
    rcases eq_or_ne fd' fd with rfl | hff
    · rw [Function.update_self] at hj
      exact hf j hj
    · rw [Function.update_of_ne hff] at hj
      exact h.nodes _ _ j hj
  · rw [Function.update_of_ne htt] at hj
    exact h.nodes _ _ j hj

/-- **Writing back**: the inode is marked as without changes, and its block holds it. -/
theorem written {v : Volume} (h : Held inos loose v₀ s) (hi : i ∈ inos)
    (hmap : Owned.SameMap s.vol v)
    (hinode : v.inode = Function.update s.vol.inode i (s.vol.inode i).clean)
    (hdata : ∀ b, b ≠ i → v.dev.data b = s.vol.dev.data b)
    (hblock : ∀ j < 64, v.dev.data i j = encodeDin (s.vol.inode i).clean j) :
    Held inos loose v₀ { s with vol := v } ∧ (v.inode i).dirty = false := by
  have hself : v.inode i = (s.vol.inode i).clean := by rw [hinode, Function.update_self]
  have hother : ∀ j, j ≠ i → v.inode j = s.vol.inode j := fun j hj => by
    rw [hinode, Function.update_of_ne hj]
  have hclean : (v.inode i).dirty = false := by rw [hself]; rfl
  refine ⟨h.vol (.written hi hmap hinode hdata) (fun j hj hdirty => ?_) fun j hj hc => ?_, hclean⟩
  · rcases eq_or_ne j i with rfl | hji
    · exact .written (h.dins j hj) hinode hblock
    · rw [hother j hji] at hdirty
      rw [OnDisk, hother j hji, hdata j hji]
      exact h.synced j hj hdirty
  · rcases eq_or_ne j i with rfl | hji
    · exact hclean
    · rw [hother j hji]
      exact (h.uncached j hj hc).1

end Held

/-! ## The small calls -/

section Small

/-- An allocation, granted or not. -/
theorem wpe_kmalloc {Q : Unit → FileSys → Prop} {R : ℤ → FileSys → Prop} {E : Assertion → Prop}
    (hQ : Q () { s with asked := s.asked + 1 }) (hR : R (-E_NO_MEM) { s with asked := s.asked + 1 }) :
    wpe kmalloc Q R E s := by
  simp only [kmalloc, wpe_bind, wpe_get, wpe_modify]
  rw [wpe_ite]
  exact ⟨fun _ => hQ, fun _ => hR⟩

theorem Held.asked (h : Held inos loose v₀ s) : Held inos loose v₀ { s with asked := s.asked + 1 } :=
  h.counts rfl (fun i hi hc => (h.uncached i hi hc).1) h.nodes

theorem keeps_kmalloc : Keeps (Held inos loose v₀) kmalloc := fun _ h => wpe_kmalloc h.asked h.asked

/-- An operation's checks change nothing. -/
theorem wpe_vopOp {provided : FileType → Bool} {Q : Unit → FileSys → Prop} {R : ℤ → FileSys → Prop}
    (hQ : Q () s) : wpe (vopOp i provided) Q R (fun _ => True) s := by
  simp only [vopOp, inodeCheck, wpe_bind, wpe_get, wpe_demand]
  exact ⟨fun _ => ⟨fun _ => hQ, fun _ => trivial⟩, fun _ => trivial⟩

theorem keeps_vopOp {provided : FileType → Bool} : Keeps (Held inos loose v₀) (vopOp i provided) :=
  fun _ h => wpe_vopOp h

theorem keeps_setNode {f : Node → Node} (hf : ∀ n, (f n).cached = n.cached) :
    Keeps (Held inos loose v₀) (setNode i f) :=
  fun s h => h.wpe_setNode fun hc => .inl (hf (s.node i) ▸ hc)

theorem keeps_inodeRefInc : Keeps (Held inos loose v₀) (inodeRefInc i) :=
  .bind (keeps_setNode fun _ => rfl) fun _ => .bind .get fun _ => .pure _

theorem keeps_inodeOpenInc : Keeps (Held inos loose v₀) (inodeOpenInc i) := keeps_setNode fun _ => rfl

theorem keeps_setFile {f : File → File} (hf : ∀ g i, (f g).node = some i → g.node = some i ∨ i ∈ inos) :
    Keeps (Held inos loose v₀) (setFile t fd f) :=
  fun _ h => wpe_mono (h.wpe_setFile fun j hj => (hf _ j hj).elim (h.nodes t fd j) id)
    (fun _ _ => And.left) (fun _ _ => id) fun _ => id

end Small

/-! ## Writing back and reclaiming -/

section Reclaim

theorem wpe_sfsFsync (hi : i ∈ inos) (h : Held inos loose v₀ s) :
    wpe (sfsFsync i) (fun _ s => Held inos loose v₀ s ∧ (s.vol.inode i).dirty = false)
      (fun _ => Held inos loose v₀) (fun _ => True) s := by
  have hrange : InRange s.vol i :=
    h.owned.inRange_of_ref (r := .inode i) hi (h.owned.inodes i hi)
  rw [sfsFsync]
  simp only [wpe_bind, wpe_get]
  rw [wpe_ite]
  refine ⟨fun hdirty => ?_, fun hclean => ?_⟩
  · simp only [onVol, Sfs.setInode, wpe_bind, wpe_zoome, wpe_modify, wpe_get, wpe_onError]
    have hback : ∀ w : Volume, Ticked (s.vol.setInode i fun din => { din with dirty := false }) w →
        Ticked s.vol (w.setInode i fun din => { din with dirty := true }) := by
      rintro _ ⟨n, rfl⟩
      refine ⟨n, ?_⟩
      simp only [Volume.setInode, Function.update_self, Function.update_idem]
      rw [← hdirty, Function.update_eq_self]
    refine wpe_sfsWbuf ⟨h.owned.fits.mounted, h.owned.fits.small⟩ hrange (by norm_num) (by norm_num)
      ?_ fun e he hf => ?_
    · refine h.written hi ⟨rfl, rfl, rfl, rfl, rfl⟩ rfl (fun b hb => put_data_of_ne hb) fun j hj => ?_
      have hin : 0 ≤ j ∧ j < 0 + SFS_DIN_SIZE := ⟨Nat.zero_le j, by rwa [Nat.zero_add]⟩
      rw [put_data_self (hj.trans (by norm_num)), overlay_of_mem hin, Nat.sub_zero, setInode_self]
      rfl
    · exact ⟨h.ticked (hback _ (.tick _)), h.ticked (hback _ ((Ticked.tick _).trans (.tick _)))⟩
  · exact ⟨h, by simpa using hclean⟩

theorem keeps_vopFsync (hi : i ∈ inos) : Keeps (Held inos loose v₀) (vopFsync i) :=
  .bind keeps_vopOp fun _ _ h => wpe_mono (wpe_sfsFsync hi h) (fun _ _ h => h.1) (fun _ _ => id)
    fun _ => id

theorem keeps_sfsReclaim (hi : i ∈ inos) : Keeps (Held inos loose v₀) (sfsReclaim i) := by
  refine .bind .get fun _ => .bind .demand fun _ => .bind (keeps_setNode fun _ => rfl) fun _ =>
    .bind .get fun _ => .ite (fun _ => .throw _) fun _ => fun s h => ?_
  have hend : ∀ s, Held inos loose v₀ s → (s.vol.inode i).dirty = false → wpe (do
      setNode i fun node => { node with cached := false }
      let din := (← get).vol.inode i
      if din.nlinks = 0 then
        onVol (sfsBlockFree i)
        if din.indirect ≠ 0 then
          onVol (sfsBlockFree din.indirect)
      inodeKill i : Call Unit) (fun _ => Held inos loose v₀) (fun _ => Held inos loose v₀)
      (fun _ => True) s := fun s h hclean => by
    rw [wpe_bind]
    refine wpe_mono (h.wpe_setNode fun _ => .inr hclean) (fun _ s h => ?_) (fun _ _ => id) fun _ => id
    simp only [wpe_bind, wpe_get]
    rw [wpe_ite]
    refine ⟨fun hno => absurd hno (h.dins i hi).links, fun _ => ?_⟩
    exact Keeps.bind (.pure _) (fun _ => Keeps.bind .get fun _ => .demand) _ h
  rw [wpe_bind, wpe_get]
  dsimp only
  rw [wpe_ite]
  refine ⟨fun hno => absurd hno (h.dins i hi).links, fun _ => ?_⟩
  simp only [wpe_bind, wpe_get]
  rw [wpe_ite]
  refine ⟨fun _ => ?_, fun hclean => hend s h (by simpa using hclean)⟩
  rw [wpe_bind, vopFsync, wpe_bind]
  refine wpe_mono (keeps_vopOp s h) (fun _ s h => ?_) (fun _ _ => id) fun _ => id
  exact wpe_mono (wpe_sfsFsync hi h) (fun _ s h => hend s h.1 h.2) (fun _ _ => id) fun _ => id

theorem keeps_inodeRefDec (hi : i ∈ inos) : Keeps (Held inos loose v₀) (inodeRefDec i) :=
  .bind .get fun _ => .bind .demand fun _ => .bind (keeps_setNode fun _ => rfl) fun _ =>
    .bind .get fun _ => .ite (fun _ => .ignore (.bind keeps_vopOp fun _ => keeps_sfsReclaim hi))
      fun _ => .pure _

theorem keeps_inodeOpenDec (hi : i ∈ inos) : Keeps (Held inos loose v₀) (inodeOpenDec i) :=
  .bind .get fun _ => .bind .demand fun _ => .bind (keeps_setNode fun _ => rfl) fun _ =>
    .bind .get fun _ => .ite (fun _ => .ignore (.bind keeps_vopOp fun _ => keeps_vopFsync hi))
      fun _ => .pure _

theorem keeps_vfsClose (hi : i ∈ inos) : Keeps (Held inos loose v₀) (vfsClose i) :=
  .bind (keeps_inodeOpenDec hi) fun _ => keeps_inodeRefDec hi

end Reclaim

/-! ## Opening -/

/-- **What a path names**: the directory, or what the first entry with that name does. -/
def Found (v : Volume) (dir : ℕ) (path : List UInt8) (i : ℕ) : Prop :=
  if path = [] then i = dir
  else ∃ slot < (v.inode dir).blocks, slot < 1036 ∧ Names v dir path slot i ∧
    ∀ m < slot, ∀ j, ¬ Names v dir path m j

section Open

/-- **Loading** an inode that is not in memory finds what the volume has for it. -/
theorem keeps_sfsLoadInode (hi : i ∈ inos) : Keeps (Held inos loose v₀) (sfsLoadInode i) := by
  intro s h
  rw [sfsLoadInode, wpe_bind, wpe_get, wpe_ite]
  refine ⟨fun _ => ?_, fun hc => ?_⟩
  · rw [wpe_bind]
    refine wpe_mono (keeps_inodeRefInc s h) (fun _ s h => ?_) (fun _ _ => id) fun _ => id
    rw [wpe_ite]
    exact ⟨fun _ => h.wpe_setNode .inl, fun _ => h⟩
  rw [wpe_bind]
  refine wpe_kmalloc ?_ h.asked
  simp only [onVol, wpe_bind, wpe_zoome, wpe_demand, wpe_get]
  refine wpe_mono ticked_inuse (fun _ v hv => ?_) (fun _ _ hv => h.asked.ticked hv.2) fun _ => id
  refine ⟨fun _ => ?_, fun _ => trivial⟩
  refine wpe_mono (ticked_rbuf (hv.2.fits h.owned.fits)) (fun data w hw => ?_)
    (fun _ _ hw => h.asked.ticked (hv.2.trans hw.2)) fun _ => id
  have hread := hv.2.trans hw.2
  -- what was read is what the inode was
  have hsame : decodeDin (w.inode i) data = w.inode i := by
    have hdata : data = s.vol.dev.data i := by
      rw [hw.1, hv.2.data]
      funext j
      rw [Nat.zero_add]
    rw [hdata, hread.inode]
    exact (h.uncached i hi (by simpa using hc)).2
  refine ⟨fun _ => wpe_kmalloc ?_ (h.asked.ticked hread).asked, fun _ => trivial⟩
  refine ⟨fun _ => ?_, fun _ => trivial⟩
  simp only [Sfs.setInode, wpe_modify]
  have hset : w.setInode i (fun _ => decodeDin (w.inode i) data) = w := by
    rw [hsame, Volume.setInode, Function.update_eq_self]
  rw [hset]
  exact (h.asked.ticked hread).asked.wpe_setNode fun hno => absurd hno (by simp)

/-- An entry of a directory that is as it was. -/
theorem Held.names {slot : ℕ} (h : Held inos loose v₀ s) (h₀ : Owned inos loose v₀) (hd : dir ∈ inos)
    (hslot : slot < 1036) : Names s.vol dir name slot j ↔ Names v₀ dir name slot j :=
  names_congr (h.same.map h₀ hd hslot) (h.same.blockData h₀ hd hslot)

/-- **Looking up a name** in a directory. -/
theorem wpe_sfsLookupOnce (h₀ : Owned inos loose v₀) (h : Held inos loose v₀ s) (hd : dir ∈ inos)
    (htype : (s.vol.inode dir).type = .dir) (hpath : path ≠ []) :
    wpe (sfsLookupOnce dir path) (fun i s => (Found v₀ dir path i ∧ i ∈ inos) ∧ Held inos loose v₀ s)
      (fun _ => Held inos loose v₀) (fun _ => True) s := by
  rw [sfsLookupOnce, sfsDirentSearchNolock]
  simp only [wpe_bind, wpe_demand, wpe_get]
  refine ⟨fun _ => wpe_kmalloc ?_ h.asked, fun _ => trivial⟩
  rw [onVol, wpe_zoome]
  refine wpe_mono (ticked_direntSearch h.owned.fits (by rw [Nat.zero_add])) (fun i v hv => ?_)
    (fun _ _ hv => h.asked.ticked hv.2) fun _ => id
  obtain ⟨⟨slot, hslot, hmax, hnames, hfirst⟩, hv⟩ := hv
  have hfound : Found v₀ dir path i := by
    rw [Found, if_neg hpath]
    refine ⟨slot, ?_, hmax, (h.names h₀ hd hmax).mp hnames, fun m hm j hj => ?_⟩
    · rwa [Nat.zero_add, h.same.blocks] at hslot
    · exact hfirst m hm (Nat.zero_le m) j ((h.names h₀ hd (hm.trans hmax)).mpr hj)
  have hi := h.entries dir hd htype slot hmax path i hnames
  refine wpe_mono (keeps_sfsLoadInode hi _ (h.asked.ticked hv)) (fun _ s h => ?_) (fun _ _ => id)
    fun _ => id
  exact ⟨⟨hfound, hi⟩, h⟩

theorem wpe_sfsLookup (h₀ : Owned inos loose v₀) (h : Held inos loose v₀ s) (hd : dir ∈ inos)
    (hpath : path ≠ []) :
    wpe (sfsLookup dir path) (fun i s => (Found v₀ dir path i ∧ i ∈ inos) ∧ Held inos loose v₀ s)
      (fun _ => Held inos loose v₀) (fun _ => True) s := by
  rw [sfsLookup, wpe_bind, wpe_demand]
  refine ⟨fun _ => ?_, fun _ => trivial⟩
  rw [wpe_bind]
  refine wpe_mono (keeps_inodeRefInc s h) (fun _ s h => ?_) (fun _ _ => id) fun _ => id
  simp only [wpe_andThen, wpe_bind, wpe_get]
  rw [wpe_ite]
  refine ⟨fun _ => keeps_inodeRefDec hd s h, fun htype => ?_⟩
  refine wpe_mono (wpe_sfsLookupOnce h₀ h hd (not_not.mp htype) hpath) (fun i s hs => ?_)
    (fun _ => keeps_inodeRefDec hd) fun _ => id
  exact wpe_mono (keeps_inodeRefDec hd s hs.2) (fun _ _ h => ⟨hs.1, h⟩) (fun _ _ => id) fun _ => id

/-- **Looking up a path.** -/
theorem wpe_vfsLookup (h₀ : Owned inos loose v₀) (h : Held inos loose v₀ s) (hd : dir ∈ inos) :
    wpe (vfsLookup dir path) (fun i s => (Found v₀ dir path i ∧ i ∈ inos) ∧ Held inos loose v₀ s)
      (fun _ => Held inos loose v₀) (fun _ => True) s := by
  rw [vfsLookup, wpe_bind]
  refine wpe_mono (keeps_inodeRefInc s h) (fun _ s h => ?_) (fun _ _ => id) fun _ => id
  rw [wpe_ite]
  refine ⟨fun hpath => ⟨⟨(if_pos hpath).mpr rfl, hd⟩, h⟩, fun hpath => ?_⟩
  rw [wpe_andThen, wpe_bind]
  refine wpe_mono (keeps_vopOp s h) (fun _ s h => ?_) (fun _ => keeps_inodeRefDec hd) fun _ => id
  refine wpe_mono (wpe_sfsLookup h₀ h hd hpath) (fun i s hs => ?_) (fun _ => keeps_inodeRefDec hd)
    fun _ => id
  exact wpe_mono (keeps_inodeRefDec hd s hs.2) (fun _ _ h => ⟨hs.1, h⟩) (fun _ _ => id) fun _ => id

theorem keeps_vopOpen : Keeps (Held inos loose v₀) (vopOpen i flags) :=
  .bind keeps_vopOp fun _ => .bind .get fun _ => .ite
    (fun _ => .ite (fun _ => .throw _) fun _ => .pure _) fun _ => .pure _

/-- An empty file is cut to nothing. -/
theorem keeps_vopTruncate_zero (hsize : (v₀.inode i).type = .file → (v₀.inode i).size = 0) :
    Keeps (Held inos loose v₀) (vopTruncate i 0) := fun s h => by
  rw [vopTruncate, vopFile, vopOp]
  simp only [wpe_bind, wpe_get, wpe_demand]
  refine ⟨fun htype => ?_, fun _ => trivial⟩
  have hfile : (s.vol.inode i).type = .file := by simpa using htype
  have hempty : (s.vol.inode i).size = 0 := by
    rw [h.same.size]
    exact hsize (h.same.type i ▸ hfile)
  rw [inodeCheck, wpe_bind, wpe_get, wpe_demand]
  refine ⟨fun _ => ?_, fun _ => trivial⟩
  rw [onVol, wpe_zoome, sfsTruncfile, wpe_ite]
  refine ⟨fun _ => h, fun _ => ?_⟩
  simp only [wpe_bind, wpe_get]
  rw [wpe_ite]
  refine ⟨fun _ => ?_, fun hne => absurd hempty hne⟩
  rw [wpe_demand]
  exact ⟨fun _ => h, fun _ => trivial⟩

theorem wpe_vfsFind (h₀ : Owned inos loose v₀) (h : Held inos loose v₀ s) (hd : dir ∈ inos) :
    wpe (vfsFind dir path flags) (fun i s => (Found v₀ dir path i ∧ i ∈ inos ∧
      (has flags O_CREAT = true → has flags O_EXCL = false)) ∧ Held inos loose v₀ s)
      (fun _ => Held inos loose v₀) (fun _ => True) s := by
  rw [vfsFind, wpe_bind, wpe_attempt]
  refine wpe_mono (wpe_vfsLookup h₀ h hd) (fun i s hs => ?_) (fun e s h => ?_) fun _ => id
  · dsimp only
    rw [wpe_ite]
    refine ⟨fun _ => hs.2, fun hexcl => ⟨⟨hs.1.1, hs.1.2, fun hc => ?_⟩, hs.2⟩⟩
    by_contra hno
    exact hexcl ⟨by simpa using hno, hc⟩
  · dsimp only
    rw [wpe_ite]
    refine ⟨fun _ => ?_, fun _ => h⟩
    rw [wpe_bind]
    exact wpe_mono (keeps_inodeRefInc s h) (fun _ _ _ => trivial) (fun _ _ => id) fun _ => id

/-- **Opening a file**: without `O_TRUNC`, it is cut by `O_CREAT` alone. -/
theorem wpe_vfsOpen (h₀ : Owned inos loose v₀) (h : Held inos loose v₀ s) (hd : dir ∈ inos)
    (htrunc : has flags O_TRUNC = false)
    (hcreat : has flags O_CREAT = true → has flags O_EXCL = false → ∀ i, Found v₀ dir path i →
      (v₀.inode i).type = .file → (v₀.inode i).size = 0) :
    wpe (vfsOpen dir path flags) (fun i s => i ∈ inos ∧ Held inos loose v₀ s)
      (fun _ => Held inos loose v₀) (fun _ => True) s := by
  rw [vfsOpen, wpe_ite]
  refine ⟨fun _ => h, fun _ => ?_⟩
  rw [wpe_ite]
  refine ⟨fun _ => h, fun _ => ?_⟩
  rw [wpe_bind]
  refine wpe_mono (wpe_vfsFind h₀ h hd) (fun i s hs => ?_) (fun _ _ => id) fun _ => id
  obtain ⟨⟨hfound, hi, hexcl⟩, h⟩ := hs
  rw [wpe_bind, wpe_onError]
  refine wpe_mono (keeps_vopOpen s h) (fun _ s h => ?_) (fun _ => keeps_inodeRefDec hi) fun _ => id
  rw [wpe_bind]
  refine wpe_mono (keeps_inodeOpenInc s h) (fun _ s h => ?_) (fun _ _ => id) fun _ => id
  have hend : ∀ s, Held inos loose v₀ s → wpe (pure i : Call ℕ) (fun i s => i ∈ inos ∧
      Held inos loose v₀ s) (fun _ => Held inos loose v₀) (fun _ => True) s := fun s h => ⟨hi, h⟩
  dsimp only
  rw [wpe_ite]
  refine ⟨fun hcut => ?_, fun _ => hend s h⟩
  have hc : has flags O_CREAT = true := hcut.resolve_left (by simp [htrunc])
  have hempty := hcreat hc (hexcl hc) i hfound
  rw [wpe_bind, wpe_onError]
  refine wpe_mono (keeps_vopTruncate_zero hempty s h) (fun _ => hend) (fun _ => ?_) fun _ => id
  exact Keeps.bind (keeps_inodeOpenDec hi) fun _ => keeps_inodeRefDec hi

end Open

/-! ## Descriptors -/

section Descriptors

theorem keeps_file : Keeps (Held inos loose v₀) (file t fd) := .bind .get fun _ => .pure _

theorem keeps_fdArrayFound : Keeps (Held inos loose v₀) (fdArrayFound t fd) :=
  .bind keeps_file fun _ => .bind .demand fun _ =>
    .bind (keeps_setFile fun _ _ hno => absurd hno (by simp)) fun _ => .pure _

theorem keeps_fdArrayAlloc {fd : ℤ} : Keeps (Held inos loose v₀) (fdArrayAlloc t fd) := by
  refine .bind (.bind .get fun _ => .demand) fun _ => .bind .get fun s => .ite (fun _ => ?_) fun _ =>
    .ite (fun _ => .ite (fun _ => keeps_fdArrayFound) fun _ => .throw _) fun _ => .throw _
  split
  · exact keeps_fdArrayFound
  · exact .throw _

theorem keeps_fdArrayFree : Keeps (Held inos loose v₀) (fdArrayFree t fd) := fun s h => by
  have hend : Keeps (Held inos loose v₀) (setFile t fd fun f => { f with status := .none }) :=
    keeps_setFile fun _ _ => .inl
  rw [fdArrayFree, file]
  simp only [wpe_bind, wpe_get, wpe_pure, wpe_demand]
  refine ⟨fun _ => ?_, fun _ => trivial⟩
  rw [wpe_ite]
  refine ⟨fun _ => ?_, fun _ => hend s h⟩
  cases hnode : (s.fdArray t fd).node with
  | none => trivial
  | some i =>
    dsimp only
    rw [wpe_bind]
    exact wpe_mono (keeps_vfsClose (h.nodes t fd i hnode) s h) (fun _ => hend) (fun _ _ => id)
      fun _ => id

theorem keeps_fdArrayAcquire : Keeps (Held inos loose v₀) (fdArrayAcquire t fd) :=
  .bind keeps_file fun _ => .bind .demand fun _ => keeps_setFile fun _ _ => .inl

theorem keeps_fdArrayRelease : Keeps (Held inos loose v₀) (fdArrayRelease t fd) :=
  .bind keeps_file fun _ => .bind .demand fun _ => .bind (keeps_setFile fun _ _ => .inl) fun _ =>
    .bind keeps_file fun _ => .ite (fun _ => keeps_fdArrayFree) fun _ => .pure _

theorem keeps_fdArrayOpen : Keeps (Held inos loose v₀) (fdArrayOpen t fd) :=
  .bind keeps_file fun _ => .bind .demand fun _ => keeps_setFile fun _ _ => .inl

theorem keeps_fdArrayClose : Keeps (Held inos loose v₀) (fdArrayClose t fd) :=
  .bind keeps_file fun _ => .bind .demand fun _ => .bind (keeps_setFile fun _ _ => .inl) fun _ =>
    .bind keeps_file fun _ => .ite (fun _ => keeps_fdArrayFree) fun _ => .pure _

theorem keeps_fdArrayDup {k : ℕ} : Keeps (Held inos loose v₀) (fdArrayDup t k fd) := fun s h => by
  rw [fdArrayDup, file, file]
  simp only [wpe_bind, wpe_get, wpe_pure, wpe_demand]
  refine ⟨fun _ => ?_, fun _ => trivial⟩
  cases hnode : (s.fdArray t fd).node with
  | none => trivial
  | some i =>
    have hi := h.nodes t fd i hnode
    exact Keeps.bind keeps_inodeRefInc (fun _ => Keeps.bind keeps_inodeOpenInc fun _ =>
      Keeps.bind (keeps_setFile fun _ j hj => .inr (Option.some.inj hj ▸ hi)) fun _ =>
        keeps_fdArrayOpen) s h

/-- **A descriptor that is given** is an open one, or the call reports. -/
theorem wpe_fd2file {fd : ℤ} {Q : ℕ × ℕ → FileSys → Prop} {R : ℤ → FileSys → Prop}
    (hQ : ∀ i, (s.fdArray t fd.toNat).node = some i → Q (fd.toNat, i) s) (hR : R (-E_INVAL) s) :
    wpe (fd2file t fd) Q R (fun _ => True) s := by
  rw [fd2file, wpe_ite]
  refine ⟨fun _ => ?_, fun _ => hR⟩
  simp only [getFdArray, file, wpe_bind, wpe_get, wpe_demand, wpe_pure]
  refine ⟨fun _ => ?_, fun _ => trivial⟩
  rw [wpe_ite]
  refine ⟨fun _ => ?_, fun _ => hR⟩
  cases hnode : (s.fdArray t fd.toNat).node with
  | none => trivial
  | some i => exact hQ i hnode

theorem keeps_fileClose {fd : ℤ} : Keeps (Held inos loose v₀) (fileClose t fd) := fun s h => by
  rw [fileClose, wpe_bind]
  exact wpe_fd2file (fun _ _ => keeps_fdArrayClose s h) h

theorem keeps_fileDup {fd1 fd2 : ℤ} : Keeps (Held inos loose v₀) (fileDup t fd1 fd2) := fun s h => by
  rw [fileDup, wpe_bind]
  refine wpe_fd2file (fun _ _ => ?_) h
  exact Keeps.bind keeps_fdArrayAlloc (fun _ => Keeps.bind keeps_fdArrayDup fun _ => .pure _) s h

theorem keeps_fileFstat {fd : ℤ} : Keeps (Held inos loose v₀) (fileFstat t fd) := fun s h => by
  rw [fileFstat, wpe_bind]
  refine wpe_fd2file (fun _ _ => ?_) h
  exact Keeps.bind keeps_fdArrayAcquire (fun _ => .andThen
    (.bind keeps_vopOp fun _ => .bind .get fun _ => .pure _) keeps_fdArrayRelease) s h

/-- **Opening a descriptor.** -/
theorem wpe_fileOpen (h₀ : Owned inos loose v₀) (h : Held inos loose v₀ s) (hd : dir ∈ inos)
    (htrunc : has flags O_TRUNC = false)
    (hcreat : has flags O_CREAT = true → has flags O_EXCL = false → ∀ i, Found v₀ dir path i →
      (v₀.inode i).type = .file → (v₀.inode i).size = 0) :
    wpe (fileOpen t dir path flags) (fun _ => Held inos loose v₀) (fun _ => Held inos loose v₀)
      (fun _ => True) s := by
  rw [fileOpen, wpe_ite]
  refine ⟨fun _ => h, fun _ => ?_⟩
  rw [wpe_bind]
  refine wpe_mono (keeps_fdArrayAlloc s h) (fun fd s h => ?_) (fun _ _ => id) fun _ => id
  rw [wpe_bind, wpe_onError]
  refine wpe_mono (wpe_vfsOpen h₀ h hd htrunc hcreat) (fun i s hs => ?_)
    (fun _ => keeps_fdArrayFree) fun _ => id
  obtain ⟨hi, h⟩ := hs
  have hend : Keeps (Held inos loose v₀) (do
      setFile t fd fun f => { f with
        node := some i
        readable := flags &&& O_ACCMODE ≠ 1
        writable := flags &&& O_ACCMODE ≠ 0 }
      fdArrayOpen t fd
      return fd : Call ℕ) :=
    .bind (keeps_setFile fun _ j hj => .inr (Option.some.inj hj ▸ hi)) fun _ =>
      .bind keeps_fdArrayOpen fun _ => .pure _
  rw [wpe_bind]
  refine wpe_mono (h.wpe_setFile (h.nodes t fd)) (fun _ s hs => ?_) (fun _ _ => id) fun _ => id
  dsimp only
  rw [wpe_ite]
  refine ⟨fun _ => ?_, fun _ => hend s hs.1⟩
  rw [wpe_bind]
  refine wpe_mono (keeps_vopOp s hs.1) (fun _ s h => ?_) (fun _ _ => id) fun _ => id
  rw [wpe_bind, wpe_get, wpe_bind]
  exact wpe_mono (h.wpe_setFile (h.nodes t fd)) (fun _ s hs => hend s hs.1) (fun _ _ => id) fun _ => id

end Descriptors

/-! ## Reading and seeking -/

section Reads

/-- The blocks of the file reach as far as a read does. -/
def InBlocks (din : SfsInode) (pos : ℤ) (len : ℕ) : Prop :=
  pos < din.size → min (pos.toNat + len) din.size ≤ din.blocks * 4096

/-- What is left of a read, after some of it. -/
theorem InBlocks.rest {din : SfsInode} {pos : ℤ} {len n : ℕ} (h : InBlocks din pos len) (hn : n ≤ len) :
    InBlocks din (pos + n) (len - n) := fun hlt => by
  have := h (by omega)
  omega

theorem InBlocks.mono {din : SfsInode} {pos : ℤ} {len n : ℕ} (h : InBlocks din pos len) (hn : n ≤ len) :
    InBlocks din pos n := fun hlt => by
  have := h hlt
  omega

/-- A seek past the end of a file, up to the greatest size, makes the file longer. -/
def PastEnd (din : SfsInode) (pos : ℤ) : Prop := 0 ≤ pos ∧ pos < SFS_MAX_FILE_SIZE ∧ din.size < pos

theorem wpe_vopTryseek {pos : ℤ} {Q : Unit → FileSys → Prop} {R : ℤ → FileSys → Prop}
    (hpast : ¬ PastEnd (s.vol.inode i) pos) (hQ : Q () s) (hR : R (-E_INVAL) s) :
    wpe (vopTryseek i pos) Q R (fun _ => True) s := by
  rw [vopTryseek, wpe_bind]
  refine wpe_vopOp ?_
  rw [wpe_ite]
  refine ⟨fun _ => hR, fun hrange => ?_⟩
  simp only [wpe_bind, wpe_get]
  rw [wpe_ite]
  refine ⟨fun hlt => absurd ⟨?_, ?_, hlt⟩ hpast, fun _ => hQ⟩
  · exact not_lt.mp fun hneg => hrange (.inl hneg)
  · exact not_le.mp fun hge => hrange (.inr hge)

/-- `f` with another count of its users. -/
def SameFile (f f' : File) : Prop := ∃ k, f' = { f with openCount := k }

/-- A descriptor that is acquired. -/
theorem wpe_fdArrayAcquire (h : Held inos loose v₀ s) :
    wpe (fdArrayAcquire t fd) (fun _ s' => ((s.fdArray t fd).status = .opened ∧
      SameFile (s.fdArray t fd) (s'.fdArray t fd)) ∧ Held inos loose v₀ s')
      (fun _ => Held inos loose v₀) (fun _ => True) s := by
  simp only [fdArrayAcquire, file, wpe_bind, wpe_get, wpe_pure, wpe_demand]
  refine ⟨fun hopened => ?_, fun _ => trivial⟩
  exact wpe_mono (h.wpe_setFile (h.nodes t fd)) (fun _ _ hw => ⟨⟨hopened, _, hw.2⟩, hw.1⟩)
    (fun _ _ => id) fun _ => id

/-- A descriptor that is released, and stays open. -/
theorem wpe_fdArrayRelease (h : Held inos loose v₀ s) (hopened : (s.fdArray t fd).status = .opened) :
    wpe (fdArrayRelease t fd) (fun _ s' => SameFile (s.fdArray t fd) (s'.fdArray t fd) ∧
      Held inos loose v₀ s') (fun _ => Held inos loose v₀) (fun _ => True) s := by
  simp only [fdArrayRelease, file, wpe_bind, wpe_get, wpe_pure, wpe_demand]
  refine ⟨fun _ => ?_, fun _ => trivial⟩
  refine wpe_mono (h.wpe_setFile (h.nodes t fd)) (fun _ s' hw => ?_) (fun _ _ => id) fun _ => id
  rw [wpe_ite]
  refine ⟨fun _ => ?_, fun _ => ⟨⟨_, hw.2⟩, hw.1⟩⟩
  -- an open descriptor is not freed
  simp only [fdArrayFree, file, wpe_bind, wpe_get, wpe_pure, wpe_demand]
  refine ⟨fun hfree => ?_, fun _ => trivial⟩
  rw [hw.2, hopened] at hfree
  exact absurd hfree.1 (by simp)

/-- The descriptor after a seek: the position is the one asked for. -/
def Sought (f : File) (size : ℕ) (pos : ℤ) (whence : ℕ) (f' : File) : Prop :=
  ∃ target, seekPos f size pos whence = some target ∧ SameFile { f with pos := target } f'

/-- What `file_seek` does between taking the descriptor and giving it back. -/
theorem wpe_seekTo {f : File} {pos : ℤ} {whence : ℕ} {R : ℤ → FileSys → Prop} (h : Held inos loose v₀ s)
    (hfile : SameFile f (s.fdArray t fd)) (hR : Held inos loose v₀ s → R (-E_INVAL) s)
    (hpast : ∀ target, seekPos f (v₀.inode i).size pos whence = some target →
      ¬ PastEnd (v₀.inode i) target) :
    wpe (do
      match seekPos (← file t fd) ((← get).vol.inode i).size pos whence with
      | some pos => do
        vopTryseek i pos
        setFile t fd fun f => { f with pos := pos }
      | none => throw (-E_INVAL) : Call Unit)
      (fun _ s' => Sought f (v₀.inode i).size pos whence (s'.fdArray t fd) ∧ Held inos loose v₀ s') R
      (fun _ => True) s := by
  obtain ⟨k, hfile⟩ := hfile
  simp only [file, wpe_bind, wpe_get, wpe_pure]
  rw [hfile, h.same.size]
  have hseek : seekPos { f with openCount := k } (v₀.inode i).size pos whence =
      seekPos f (v₀.inode i).size pos whence := rfl
  rw [hseek]
  cases htarget : seekPos f (v₀.inode i).size pos whence with
  | none => exact hR h
  | some target =>
    dsimp only
    rw [wpe_bind]
    refine wpe_vopTryseek ?_ ?_ (hR h)
    · have := hpast target htarget
      rwa [PastEnd, h.same.size]
    · refine wpe_mono (h.wpe_setFile (h.nodes t fd)) (fun _ s' hs => ?_) (fun _ _ => id) fun _ => id
      exact ⟨⟨target, htarget, k, hs.2.trans (by rw [hfile])⟩, hs.1⟩

/-- **Seeking** inside a file, or where the seek is refused. -/
theorem wpe_fileSeek {fd pos : ℤ} {whence : ℕ} (h : Held inos loose v₀ s)
    (hpast : ∀ i, (s.fdArray t fd.toNat).node = some i → ∀ target,
      seekPos (s.fdArray t fd.toNat) (v₀.inode i).size pos whence = some target →
      ¬ PastEnd (v₀.inode i) target) :
    wpe (fileSeek t fd pos whence) (fun _ s' => (∃ i, (s.fdArray t fd.toNat).node = some i ∧
      Sought (s.fdArray t fd.toNat) (v₀.inode i).size pos whence (s'.fdArray t fd.toNat)) ∧
      Held inos loose v₀ s') (fun _ => Held inos loose v₀) (fun _ => True) s := by
  rw [fileSeek, wpe_bind]
  refine wpe_fd2file (fun i hi => ?_) h
  dsimp only
  rw [wpe_bind]
  refine wpe_mono (wpe_fdArrayAcquire h) (fun _ s' hs => ?_) (fun _ _ => id) fun _ => id
  obtain ⟨⟨hopened, hfile⟩, h⟩ := hs
  have hkept : Keeps (Held inos loose v₀) (fdArrayRelease t fd.toNat) := keeps_fdArrayRelease
  have hrelease : ∀ s₂, Sought (s.fdArray t fd.toNat) (v₀.inode i).size pos whence
      (s₂.fdArray t fd.toNat) ∧ Held inos loose v₀ s₂ → wpe (fdArrayRelease t fd.toNat)
      (fun _ s' => (∃ i, (s.fdArray t fd.toNat).node = some i ∧
        Sought (s.fdArray t fd.toNat) (v₀.inode i).size pos whence (s'.fdArray t fd.toNat)) ∧
        Held inos loose v₀ s') (fun _ => Held inos loose v₀) (fun _ => True) s₂ := by
    rintro s₂ ⟨⟨target, hseek, k, hfile⟩, h⟩
    refine wpe_mono (wpe_fdArrayRelease h (by rw [hfile]; exact hopened)) (fun _ s₃ hs => ?_)
      (fun _ _ => id) fun _ => id
    obtain ⟨⟨m, hm⟩, h⟩ := hs
    exact ⟨⟨i, hi, target, hseek, m, by rw [hm, hfile]⟩, h⟩
  have hmove := wpe_mono (wpe_seekTo (R := fun _ => Held inos loose v₀) h hfile id (hpast i hi))
    (fun _ => hrelease) (fun _ => hkept) fun _ => id
  rw [wpe_andThen, wpe_ite]
  refine ⟨fun _ => ?_, fun _ => hmove⟩
  rw [wpe_bind]
  exact wpe_vopOp hmove

/-- The transfer of a read. -/
theorem wpe_vopIo {buf : ℕ → UInt8} {pos : ℤ} {len : ℕ} (h : Held inos loose v₀ s)
    (hin : InBlocks (v₀.inode i) pos len) :
    wpe (vopIo i buf pos len false) (fun p s' => (p.alen ≤ len ∧ s'.fdArray = s.fdArray) ∧
      Held inos loose v₀ s') (fun _ => Held inos loose v₀) (fun _ => True) s := by
  rw [vopIo, wpe_bind]
  refine wpe_vopOp ?_
  simp only [onVol, wpe_bind, wpe_zoome, wpe_lift, wpe_demand, wpe_pure]
  refine wp_mono (ticked_io h.owned.fits fun hinv hsome => ?_) (fun p v hv => ?_) fun _ => id
  · have hlt : pos < (s.vol.inode i).size := not_le.mp fun hge => hsome (.inr ⟨rfl, hge⟩)
    rw [h.same.size] at hlt ⊢
    rw [h.same.blocks]
    refine le_trans ?_ (hin hlt)
    have hpos : 0 ≤ pos := not_lt.mp fun hneg => hinv (.inl hneg)
    have hle := toS64_le (n := pos + len) (by omega)
    rw [endOf, if_neg (by simp)]
    omega
  · exact ⟨fun hle => ⟨⟨hle, trivial⟩, h.ticked hv⟩, fun _ => trivial⟩

/-- **Reading** where the file has its blocks: the position moves by what was read. -/
theorem wpe_fileRead {fd : ℤ} {len : ℕ} (h : Held inos loose v₀ s)
    (hin : ∀ i, (s.fdArray t fd.toNat).node = some i →
      InBlocks (v₀.inode i) (s.fdArray t fd.toNat).pos len) :
    wpe (fileRead t fd len) (fun p s' => (p.alen ≤ len ∧ SameFile { s.fdArray t fd.toNat with
      pos := (s.fdArray t fd.toNat).pos + p.alen } (s'.fdArray t fd.toNat)) ∧ Held inos loose v₀ s')
      (fun _ => Held inos loose v₀) (fun _ => True) s := by
  rw [fileRead, fileIo, wpe_bind]
  refine wpe_fd2file (fun i hi => ?_) h
  simp only [file, wpe_bind, wpe_get, wpe_pure]
  rw [wpe_ite]
  refine ⟨fun _ => ?_, fun _ => h⟩
  rw [wpe_bind]
  refine wpe_mono (wpe_fdArrayAcquire h) (fun _ s' hs => ?_) (fun _ _ => id) fun _ => id
  obtain ⟨⟨hopened, k, hfile⟩, h⟩ := hs
  rw [wpe_bind]
  refine wpe_mono (wpe_vopIo h (hin i hi)) (fun p s₂ hs => ?_) (fun _ _ => id) fun _ => id
  obtain ⟨⟨halen, htable⟩, h⟩ := hs
  have hsame : s₂.fdArray t fd.toNat = { s.fdArray t fd.toNat with openCount := k } := by
    rw [htable, hfile]
  simp only [wpe_bind, wpe_get, wpe_pure]
  rw [if_pos (by rw [hsame]; exact hopened)]
  simp only [wpe_bind, wpe_pure]
  refine wpe_mono (h.wpe_setFile (h.nodes t fd.toNat)) (fun _ s₃ hs => ?_) (fun _ _ => id) fun _ => id
  obtain ⟨h, hmoved⟩ := hs
  rw [hsame] at hmoved
  refine wpe_mono (wpe_fdArrayRelease h (by rw [hmoved]; exact hopened)) (fun _ s₄ hs => ?_)
    (fun _ _ => id) fun _ => id
  obtain ⟨⟨m, hm⟩, h⟩ := hs
  exact ⟨⟨halen, m, by rw [hm, hmoved]⟩, h⟩

/-- **The loop of `sysfile_read`**: what is left to read stays in the blocks of the file. -/
theorem wpe_sysfileReadLoop {fd : ℤ} {stored : ℕ → Bool} {fuel len copied : ℕ}
    (h : Held inos loose v₀ s) (hin : ∀ i, (s.fdArray t fd.toNat).node = some i →
      InBlocks (v₀.inode i) (s.fdArray t fd.toNat).pos len) :
    wpe (sysfileReadLoop t fd stored fuel len copied) (fun _ => Held inos loose v₀)
      (fun _ => Held inos loose v₀) (fun _ => True) s := by
  induction fuel generalizing s len copied with
  | zero => exact h
  | succ fuel ih =>
    rw [sysfileReadLoop, wpe_ite]
    refine ⟨fun _ => h, fun _ => ?_⟩
    simp only [wpe_bind, wpe_attempt]
    refine wpe_mono (wpe_fileRead h fun i hi => (hin i hi).mono (min_le_right _ _)) (fun p s' hs => ?_)
      (fun e s' h => ?_) fun _ => id
    · obtain ⟨⟨halen, k, hfile⟩, h⟩ := hs
      simp only [wpe_pure]
      rw [wpe_ite]
      refine ⟨fun _ => h, fun _ => ih h fun i hi => ?_⟩
      rw [hfile] at hi ⊢
      exact (hin i hi).rest (halen.trans (min_le_right _ _))
    · simp only [wpe_pure]
      rw [wpe_ite]
      exact ⟨fun _ => h, fun hno => absurd (.inr trivial) hno⟩

/-- **`sysfile_read`.** -/
theorem wpe_sysfileRead {fd : ℤ} {stored : ℕ → Bool} {len : ℕ} (h : Held inos loose v₀ s)
    (hin : ∀ i, (s.fdArray t fd.toNat).node = some i →
      InBlocks (v₀.inode i) (s.fdArray t fd.toNat).pos len) :
    wpe (sysfileRead t fd stored len) (fun _ => Held inos loose v₀) (fun _ => Held inos loose v₀)
      (fun _ => True) s := by
  rw [sysfileRead, wpe_ite]
  refine ⟨fun _ => h, fun _ => ?_⟩
  rw [wpe_bind]
  refine wpe_fd2file (fun _ _ => ?_) h
  simp only [file, wpe_bind, wpe_get, wpe_pure]
  rw [wpe_ite]
  refine ⟨fun _ => ?_, fun _ => h⟩
  rw [wpe_bind]
  refine wpe_kmalloc ?_ h.asked
  rw [wpe_bind]
  exact wpe_mono (wpe_sysfileReadLoop h.asked hin) (fun _ _ => id) (fun _ _ => id) fun _ => id

/-- **`load_icode_read`.** -/
theorem wpe_loadIcodeRead {fd offset : ℤ} {stored : ℕ → Bool} {len : ℕ} (h : Held inos loose v₀ s)
    (hin : ∀ i, (s.fdArray t fd.toNat).node = some i →
      ¬ PastEnd (v₀.inode i) offset ∧ InBlocks (v₀.inode i) offset len) :
    wpe (loadIcodeRead t fd stored len offset) (fun _ => Held inos loose v₀)
      (fun _ => Held inos loose v₀) (fun _ => True) s := by
  rw [loadIcodeRead, wpe_bind]
  refine wpe_mono (wpe_fileSeek h fun i hi target htarget => ?_) (fun _ s' hs => ?_) (fun _ _ => id)
    fun _ => id
  · exact Option.some.inj htarget ▸ (hin i hi).1
  obtain ⟨⟨i, hi, target, htarget, k, hfile⟩, h⟩ := hs
  rw [wpe_bind]
  refine wpe_mono (wpe_sysfileRead h fun j hj => ?_) (fun _ s₂ h => ?_) (fun _ _ => id) fun _ => id
  · rw [hfile] at hj ⊢
    have hpos : offset = target := Option.some.inj htarget
    rw [← hpos]
    exact (hin j hj).2
  · rw [wpe_ite]
    exact ⟨fun _ => h, fun _ => h⟩

end Reads

end UCore.Fs
