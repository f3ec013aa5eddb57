import UCore.Fs.ReadOnly
import UCore.Sfs.Fresh

/-!
# Fs/ReadRun — programs that only read

    open O_RDONLY ── read ── seek ── fstat ── dup ── load_icode_read ── close

Such a program leaves every file as it was, if no open names a file with bytes under `O_CREAT`, no
seek goes past the end of a file, and no read goes past the blocks of one.  The first two are what the
descriptor's access mode should have forbidden: neither `vfs_open` nor `vop_tryseek` asks for it.
-/

namespace UCore.Fs

open Sfs Act

variable {inos loose : Finset ℕ} {v : Volume} {s s' : FileSys}

/-- A call of a program that only reads. -/
inductive ReadOp where
  | fileOpen (t dir : ℕ) (path : List UInt8) (flags : ℕ)
  | fileRead (t : ℕ) (fd : ℤ) (len : ℕ)
  | fileSeek (t : ℕ) (fd pos : ℤ) (whence : ℕ)
  | fileFstat (t : ℕ) (fd : ℤ)
  | fileDup (t : ℕ) (fd1 fd2 : ℤ)
  | fileClose (t : ℕ) (fd : ℤ)
  | loadIcodeRead (t : ℕ) (fd : ℤ) (stored : ℕ → Bool) (len : ℕ) (offset : ℤ)

namespace ReadOp

/-- The call. -/
def run : ReadOp → Call Unit
  | .fileOpen t dir path flags => do let _ ← Fs.fileOpen t dir path flags
  | .fileRead t fd len => do let _ ← Fs.fileRead t fd len
  | .fileSeek t fd pos whence => Fs.fileSeek t fd pos whence
  | .fileFstat t fd => do let _ ← Fs.fileFstat t fd
  | .fileDup t fd1 fd2 => do let _ ← Fs.fileDup t fd1 fd2
  | .fileClose t fd => Fs.fileClose t fd
  | .loadIcodeRead t fd stored len offset => Fs.loadIcodeRead t fd stored len offset

/-- An open descriptor was opened `O_RDONLY`. -/
def OpenedReadOnly (s : FileSys) (t : ℕ) (fd : ℤ) : Prop :=
  (s.fdArray t fd.toNat).status = .opened → (s.fdArray t fd.toNat).writable = false

/-- **The calls in question**: an open `O_RDONLY` and without `O_TRUNC`, from a directory of the
volume, and what is done with descriptors opened so. -/
def Reads (inos : Finset ℕ) (s : FileSys) : ReadOp → Prop
  | .fileOpen _ dir _ flags => dir ∈ inos ∧ flags &&& O_ACCMODE = 0 ∧ has flags O_TRUNC = false
  | .fileRead t fd _ => OpenedReadOnly s t fd
  | .fileSeek t fd _ _ => OpenedReadOnly s t fd
  | .fileFstat t fd => OpenedReadOnly s t fd
  | .fileDup t fd _ => OpenedReadOnly s t fd
  | .fileClose t fd => OpenedReadOnly s t fd
  | .loadIcodeRead t fd _ _ _ => OpenedReadOnly s t fd

/-- **The condition under which a call leaves the files alone.** -/
def Harmless (s : FileSys) : ReadOp → Prop
  | .fileOpen _ dir path flags => has flags O_CREAT = true → has flags O_EXCL = false →
      ∀ i, Found s.vol dir path i → (s.vol.inode i).type = .file → (s.vol.inode i).size = 0
  | .fileRead t fd len => ∀ i, (s.fdArray t fd.toNat).node = some i →
      InBlocks (s.vol.inode i) (s.fdArray t fd.toNat).pos len
  | .fileSeek t fd pos whence => ∀ i, (s.fdArray t fd.toNat).node = some i → ∀ target,
      seekPos (s.fdArray t fd.toNat) (s.vol.inode i).size pos whence = some target →
      ¬ PastEnd (s.vol.inode i) target
  | .loadIcodeRead t fd _ len offset => ∀ i, (s.fdArray t fd.toNat).node = some i →
      ¬ PastEnd (s.vol.inode i) offset ∧ InBlocks (s.vol.inode i) offset len
  | .fileFstat _ _ | .fileDup _ _ _ | .fileClose _ _ => True

end ReadOp

/-- The states that a program reaches, each call under its condition. -/
inductive ReadRun (inos : Finset ℕ) (s : FileSys) : FileSys → Prop
  | start : ReadRun inos s s
  | step {s₁ s₂ : FileSys} {r : Except ℤ Unit} (op : ReadOp) : ReadRun inos s s₁ → op.Reads inos s₁ →
    op.Harmless s₁ → op.run.run s₁ = .ok (r, s₂) → ReadRun inos s s₂

/-- **One call** under its condition. -/
theorem ReadOp.wpe_run {op : ReadOp} (h : Held inos loose v s) (hreads : op.Reads inos s)
    (hc : op.Harmless s) :
    wpe op.run (fun _ => Held inos loose v) (fun _ => Held inos loose v) (fun _ => True) s := by
  have hstart := Held.refl h.toSound h.synced
  have hdone : ∀ s', Held inos loose s.vol s' → Held inos loose v s' := fun s' h' =>
    ⟨h'.toSound, h'.synced, h.same.trans h'.same⟩
  have hcall : wpe op.run (fun _ => Held inos loose s.vol) (fun _ => Held inos loose s.vol)
      (fun _ => True) s := by
    cases op with
    | fileOpen t dir path flags =>
      rw [run, wpe_bind]
      exact wpe_fileOpen h.owned hstart hreads.1 hreads.2.2 hc
    | fileRead t fd len =>
      rw [run, wpe_bind]
      exact wpe_mono (wpe_fileRead hstart hc) (fun _ _ => And.right) (fun _ _ => id) fun _ => id
    | fileSeek t fd pos whence =>
      exact wpe_mono (wpe_fileSeek hstart hc) (fun _ _ => And.right) (fun _ _ => id) fun _ => id
    | fileFstat t fd =>
      rw [run, wpe_bind]
      exact keeps_fileFstat s hstart
    | fileDup t fd1 fd2 =>
      rw [run, wpe_bind]
      exact keeps_fileDup s hstart
    | fileClose t fd => exact keeps_fileClose s hstart
    | loadIcodeRead t fd stored len offset => exact wpe_loadIcodeRead hstart hc
  exact wpe_mono hcall (fun _ => hdone) (fun _ => hdone) fun _ => id

/-- **Reading over whole runs**: under the condition, every state reached has the files of the first. -/
theorem readOnly_run (h : Sound inos loose s) (hsync : Synced inos s.vol) (hrun : ReadRun inos s s') :
    SameFiles inos s.vol s'.vol := by
  have hheld : Held inos loose s.vol s' := by
    induction hrun with
    | start => exact .refl h hsync
    | @step s₁ s₂ r op _ hreads hc hstep ih =>
      have hnext := wp_of_ok (op.wpe_run ih hreads hc) hstep
      cases r with
      | ok => exact hnext
      | error => exact hnext
  exact hheld.same.sameFiles h.owned

/-! ## A root directory with one file -/

/-- The volume of `m` blocks with one file, its root directory in memory, and no descriptor open. -/
def rootFiles (m : ℕ) : FileSys where
  vol := rootVolume m
  node i := if i = 1 then ⟨true, 1, 0, 1⟩ else ⟨false, 0, 0, 0⟩
  granted _ := true
  asked := 0
  filesCount _ := 1
  fdArray _ _ := ⟨.none, false, false, 0, none, 0⟩

theorem rootVolume_dinOk {m i : ℕ} (hi : i ∈ ({1, 4} : Finset ℕ)) :
    DinOk ((rootVolume m).inode i) := by
  have hdins : DinOk rootDin ∧ DinOk fileDin := by
    refine ⟨⟨?_, ?_, ?_, ?_, fun k _ => ?_, ?_⟩, ⟨?_, ?_, ?_, ?_, fun k _ => ?_, ?_⟩⟩ <;>
      first | decide | (dsimp only [rootDin, fileDin]; split <;> norm_num)
  rcases (by simpa using hi : i = 1 ∨ i = 4) with rfl | rfl
  · exact hdins.1
  · exact hdins.2

theorem rootVolume_synced {m : ℕ} : Synced {1, 4} (rootVolume m) := fun i hi _ => by
  have hdin := rootVolume_dinOk (m := m) hi
  rcases (by simpa using hi : i = 1 ∨ i = 4) with rfl | rfl
  · exact decodeDin_encodeDin hdin fun _ _ => rfl
  · exact decodeDin_encodeDin hdin fun _ _ => rfl

/-- The one entry of the root directory is for the file. -/
theorem rootVolume_names {m slot i : ℕ} {name : List UInt8} (h : Names (rootVolume m) 1 name slot i) :
    i = 4 := by
  have hslot : slot = 0 := by
    by_contra hne
    exact h.block (rootVolume_bmap.trans (if_neg hne))
  have hmap : bmap (rootVolume m) 1 slot = 3 := by
    rw [rootVolume_bmap, if_pos hslot, if_pos rfl]
  have hnumber := h.number
  rw [hmap] at hnumber
  exact hnumber.symm

theorem rootFiles_sound {m : ℕ} (hm : 6 ≤ m) (hmax : m ≤ 2 ^ 15) :
    Sound {1, 4} ∅ (rootFiles m) := by
  have hclean : ∀ i, ((rootVolume m).inode i).dirty = false := fun i => by
    rw [rootVolume]
    dsimp only
    split <;> rfl
  refine ⟨rootVolume_owned hm hmax, fun i hi => rootVolume_dinOk hi,
    fun d hd htype slot _ name ino hn => ?_, fun i hi _ => ⟨hclean i, rootVolume_synced i hi (hclean i)⟩,
    fun t fd i hno => by cases hno⟩
  rcases (by simpa using hd : d = 1 ∨ d = 4) with rfl | rfl
  · rw [rootVolume_names hn]
    decide
  · exact absurd htype (by simp [rootFiles, rootVolume, fileDin])

/-- **A file is opened to be read, and is emptied**: `O_RDONLY | O_CREAT` on the file, which holds one
byte before the call, and none after it. -/
theorem readOnly_creat : Sound {1, 4} ∅ (rootFiles 16) ∧ Synced {1, 4} (rootFiles 16).vol ∧
    (ReadOp.fileOpen 0 1 [97] O_CREAT).Reads {1, 4} (rootFiles 16) ∧
    ∃ s, (ReadOp.fileOpen 0 1 [97] O_CREAT).run.run (rootFiles 16) = .ok (.ok (), s) ∧
      ¬ SameFiles {1, 4} (rootFiles 16).vol s.vol := by
  obtain ⟨r, s, heq, hrun⟩ := Act.exists_of_test (m := (ReadOp.fileOpen 0 1 [97] O_CREAT).run.run)
    (s := rootFiles 16) (fun r s => r.isOk && (s.vol.inode 4).size == 0) (by decide +kernel)
  refine ⟨rootFiles_sound (by norm_num) (by norm_num), rootVolume_synced,
    ⟨by decide, by decide, by decide⟩, ?_⟩
  obtain ⟨hok, hempty⟩ := Bool.and_eq_true_iff.mp hrun
  cases r with
  | error e => cases hok
  | ok u =>
    refine ⟨s, heq, fun hsame => ?_⟩
    have hsize := hsame.size 4 (by decide)
    rw [beq_iff_eq.mp hempty] at hsize
    exact absurd hsize (by decide)

/-- The file is opened to be read, is read, and is as it was. -/
theorem readOnly_run_root : ∃ s, (ReadOp.fileOpen 0 1 [97] 0).run.run (rootFiles 16) = .ok (.ok (), s) ∧
    SameFiles {1, 4} (rootFiles 16).vol s.vol := by
  obtain ⟨r, s, heq, hok⟩ := Act.exists_of_test (m := (ReadOp.fileOpen 0 1 [97] 0).run.run)
    (s := rootFiles 16) (fun r _ => r.isOk) (by decide +kernel)
  cases r with
  | error e => cases hok
  | ok u =>
    have hreads : ReadRun {1, 4} (rootFiles 16) s :=
      .step (.fileOpen 0 1 [97] 0) .start ⟨by decide, by decide, by decide⟩
        (fun hno => absurd hno (by decide)) heq
    exact ⟨s, heq, readOnly_run (rootFiles_sound (by norm_num) (by norm_num)) rootVolume_synced hreads⟩

end UCore.Fs
