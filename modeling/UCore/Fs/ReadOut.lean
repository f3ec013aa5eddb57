import UCore.Fs.ReadRun
import UCore.Mm.UserMem
import UCore.Sfs.ReadWrite

/-!
# Fs/ReadOut — a read that goes to user memory

`sysfile_read` of `kern/fs/sysfile.c`, with the `copy_to_user` of each chunk:

    file ──file_read──▸ buffer ──copy_to_user──▸ base
      pos += alen                   may fail

The position has moved before it is known whether the chunk can be stored.
-/

namespace UCore.Fs

open Sfs Act
open Vmm hiding E_INVAL E_NO_MEM Call

/-- The file system, the areas of the calling process, and its memory. -/
structure ReadSpace where
  fs : FileSys
  mm : Mm
  mem : ℕ → UInt8

/-- How a read fails to return. -/
inductive ReadStop where
  | fs (e : Assertion)
  | mm (e : Stop)

/-- A call on all three. -/
abbrev ReadCall (α : Type) := Act ReadSpace ReadStop α

/-- A call on the file system, with the code that it reports. -/
def onFs {α : Type} (m : Call α) : ReadCall (Except ℤ α) :=
  Act.zoom ReadSpace.fs (fun fs s => { s with fs := fs }) (Act.relay ReadStop.fs m.run)

/-- `user_mem_check` of the calling process. -/
def checkUser (fuel addr len : ℕ) : ReadCall Bool :=
  Act.zoom ReadSpace.mm (fun mm s => { s with mm := mm }) (Act.relay ReadStop.mm fun mm =>
    (userMemCheck fuel addr len true (some mm)).map fun r => (r.1, r.2.getD mm))

/-- Bytes stored at an address and after it. -/
def storedAt (mem : ℕ → UInt8) (dst len : ℕ) (src : ℕ → UInt8) (a : ℕ) : UInt8 :=
  if dst ≤ a ∧ a < dst + len then src (a - dst) else mem a

/-- `copy_to_user`. -/
def copyToUser (fuel dst : ℕ) (src : ℕ → UInt8) (len : ℕ) : ReadCall Bool := do
  if (← checkUser fuel dst len) = true then
    modify fun s => { s with mem := storedAt s.mem dst len src }
    return true
  else
    return false

/-- `file_read`: the code, `*copied_store` and the buffer. -/
def readChunk (t : ℕ) (fd : ℤ) (len : ℕ) : ReadCall Progress := do
  match ← onFs (fileRead t fd len) with
  | .ok p => return p
  | .error e => return ⟨e, 0, fun _ => 0⟩

/-- The loop of `sysfile_read`: the code, and the bytes copied.  A turn that goes on has read a byte, so
there are at most `len` of them. -/
def readLoop (fuel t : ℕ) (fd : ℤ) : ℕ → ℕ → ℕ → ℕ → ReadCall (ℤ × ℕ)
  | 0, _, _, copied => return (0, copied)
  | n + 1, len, base, copied => do
    if len = 0 then
      return (0, copied)
    else
      let p ← readChunk t fd (min IOBUF_SIZE len)
      if p.alen = 0 then
        return (p.ret, copied)
      else if (← copyToUser fuel base p.buf p.alen) = true then
        if p.ret ≠ 0 then
          return (p.ret, copied + p.alen)
        else
          readLoop fuel t fd n (len - p.alen) (u64 (base + p.alen)) (copied + p.alen)
      else
        return (if p.ret = 0 then -E_INVAL else p.ret, copied)

/-- `file_testfd`, for reading. -/
def fileTestfd (t : ℕ) (fd : ℤ) : Call Bool := do
  let (fd, _) ← fd2file t fd
  return (← file t fd).readable

/-- `sysfile_read`. -/
def sysfileReadUser (fuel t : ℕ) (fd : ℤ) (base len : ℕ) : ReadCall ℤ := do
  if len = 0 then
    return 0
  else
    match ← onFs (fileTestfd t fd) with
    | .ok true => do
      match ← onFs kmalloc with
      | .ok _ => do
        let r ← readLoop fuel t fd len len base 0
        return if r.2 ≠ 0 then toS32 r.2 else r.1
      | .error e => return e
    | _ => return -E_INVAL

/-- The position of a descriptor. -/
def posOf (t : ℕ) (fd : ℤ) (fs : FileSys) : ℤ := (fs.fdArray t fd.toNat).pos

/-- **A read that loses nothing**: `r` bytes of the file, from the position on, are at `base`, no others are
stored, and the position has moved by `r`; or the read failed, and it has not moved. -/
structure Lossless (t : ℕ) (fd : ℤ) (i base : ℕ) (s s' : ReadSpace) (r : ℤ) : Prop where
  done : 0 ≤ r → posOf t fd s'.fs = posOf t fd s.fs + r ∧
    (0 < r → posOf t fd s.fs + r ≤ (s.fs.vol.inode i).size) ∧
    s'.mem = storedAt s.mem base r.toNat fun j => content s.fs.vol i ((posOf t fd s.fs).toNat + j)
  failed : r < 0 → posOf t fd s'.fs = posOf t fd s.fs

/-- **Whatever the file has for a chunk can be stored**: each time that `file_read` delivers bytes, the
process may write to the addresses that they are for. -/
def Storable (t : ℕ) (fd : ℤ) (areas : List Vma) : ℕ → ℕ → ℕ → FileSys → Prop
  | 0, _, _, _ => True
  | n + 1, len, base, fs => len = 0 ∨ ∀ p fs', (fileRead t fd (min IOBUF_SIZE len)).run fs =
      .ok (.ok p, fs') → p.alen ≠ 0 → Accessible areas base p.alen true ∧
        (p.ret = 0 → Storable t fd areas n (len - p.alen) (u64 (base + p.alen)) fs')

/-! ## One chunk -/

variable {inos loose : Finset ℕ} {v w : Volume} {i t fuel : ℕ} {fd : ℤ} {fs fs' : FileSys} {pos : ℤ}

/-- **A descriptor on a regular file.** -/
structure ReadsFile (inos loose : Finset ℕ) (t : ℕ) (fd : ℤ) (i : ℕ) (fs : FileSys) : Prop where
  owned : Owned inos loose fs.vol
  mem : i ∈ inos
  dense : Dense fs.vol i
  type : (fs.vol.inode i).type = .file
  node : (fs.fdArray t fd.toNat).node = some i

/-- **…that is at `pos`**, the bytes of the file being those of `v`. -/
structure Serving (inos loose : Finset ℕ) (t : ℕ) (fd : ℤ) (i : ℕ) (v : Volume) (pos : ℤ)
    (fs : FileSys) : Prop extends ReadsFile inos loose t fd i fs where
  size : (fs.vol.inode i).size = (v.inode i).size
  bytes : ∀ y < 1036 * 4096, content fs.vol i y = content v i y
  at_pos : posOf t fd fs = pos

/-- **What is delivered from `pos` on**: bytes of the file, and none beyond its end. -/
structure Piece (v : Volume) (i : ℕ) (pos : ℤ) (p : Progress) : Prop where
  ret : p.ret ≤ 0
  bounds : 0 < p.alen → 0 ≤ pos ∧ pos + p.alen ≤ (v.inode i).size ∧ pos + p.alen ≤ 1036 * 4096
  bytes : ∀ j < p.alen, p.buf j = content v i (pos.toNat + j)

theorem Piece.nothing {ret : ℤ} {buf : ℕ → UInt8} (hret : ret ≤ 0) : Piece v i pos ⟨ret, 0, buf⟩ :=
  ⟨hret, fun hno => absurd hno (lt_irrefl _), fun j hj => absurd hj (Nat.not_lt_zero j)⟩

/-- …of the same file on another volume. -/
theorem Piece.of_same {p : Progress} (h : Piece w i pos p) (hsize : (w.inode i).size = (v.inode i).size)
    (hbytes : ∀ y < 1036 * 4096, content w i y = content v i y) : Piece v i pos p := by
  refine ⟨h.ret, fun hsome => hsize ▸ h.bounds hsome, fun j hj => ?_⟩
  obtain ⟨hpos, -, hmax⟩ := h.bounds (by omega)
  rw [h.bytes j hj, hbytes _ (by omega)]

/-- **A file that was read** is the file that it was. -/
structure AsRead (inos loose : Finset ℕ) (v : Volume) (i : ℕ) (w : Volume) : Prop where
  owned : Owned inos loose w
  dense : Dense w i
  type : (w.inode i).type = (v.inode i).type
  size : (w.inode i).size = (v.inode i).size
  bytes : ∀ y < 1036 * 4096, content w i y = content v i y

/-- **`sfs_io_nolock` that reads** delivers the bytes of the file, as many as it says. -/
theorem wp_sfsIo_piece {buf : ℕ → UInt8} {len : ℕ} (h : Owned inos loose v) (hd : Dense v i)
    (hi : i ∈ inos) (htype : (v.inode i).type = .file) :
    wp (sfsIoNolock i buf pos len false)
      (fun p w => Piece v i pos p ∧ (p.ret = 0 → AsRead inos loose v i w)) (fun _ => True) v := by
  have hsame : AsRead inos loose v i v := ⟨h, hd, rfl, rfl, fun _ _ => rfl⟩
  refine wp_sfsIoNolock h hd hi (fun hdir => absurd (htype.symm.trans hdir) (by simp))
    (fun _ => ⟨.nothing (by decide), fun _ => hsame⟩) (fun _ _ => ⟨.nothing le_rfl, fun _ => hsame⟩)
    (fun _ _ _ => trivial) (fun _ _ _ _ => trivial) fun hinv hsome _ p w hended => ?_
  have hlt := Nothing.lt_endOf hinv hsome
  have hend : endOf (v.inode i).size pos len false ≤ (v.inode i).size := by
    rw [endOf, if_neg (by simp)]
    exact min_le_right ..
  have hpos : 0 ≤ pos := not_lt.mp fun hneg => hinv (.inl hneg)
  have hgoing : ∀ stop p₀ w₀, Going inos loose v i false buf pos.toNat stop p₀ w₀ →
      stop ≤ endOf (v.inode i).size pos len false → Piece v i pos p₀ := fun stop p₀ w₀ hg hle => by
    have halen := hg.alen
    have hstart := hg.le
    refine ⟨hg.ret.le, fun hsome => ⟨hpos, by omega, ?_⟩, fun j hj => ?_⟩
    · have hblocks := hg.blocks (by omega)
      have hfull := hg.dense.le
      omega
    · rw [hg.buf, if_neg (by simp), delivered, if_pos (halen ▸ hj)]
  rcases hended with hg | ⟨stop, hstop, -, p₀, w₀, hg, hret, hp, -⟩
  · refine ⟨hgoing _ p w hg le_rfl, fun _ => ?_⟩
    have halen := hg.alen
    -- a read does not settle the size
    have hw : settle w i (pos.toNat + p.alen) = w := by
      rw [settle, if_neg]
      rw [hg.size, halen]
      omega
    rw [hw]
    refine ⟨hg.owned, hg.dense, hg.type, hg.size, fun y hy => ?_⟩
    rw [hg.content y hy, if_neg (by simp)]
  · obtain ⟨-, hbounds, hbytes⟩ := hgoing _ p₀ w₀ hg hstop.le
    have halen : p.alen = p₀.alen := by rw [hp]
    have hbuf : p.buf = p₀.buf := by rw [hp]
    rw [← halen] at hbounds hbytes
    rw [← hbuf] at hbytes
    exact ⟨⟨hret.le, hbounds, hbytes⟩, fun hno => absurd hno hret.ne⟩

/-! ## One chunk -/

/-- The descriptor `t`, `fd` may have changed, the others and the volume have not. -/
def OnlyFile (t fd : ℕ) (f : File) (fs fs' : FileSys) : Prop :=
  fs'.vol = fs.vol ∧ SameFile f (fs'.fdArray t fd)

section Chunk

variable {k : ℕ} {Q : Unit → FileSys → Prop} {R : ℤ → FileSys → Prop}

theorem update_file (table : ℕ → ℕ → File) (f : File) :
    Function.update table t (Function.update (table t) k f) t k = f := by
  rw [Function.update_self, Function.update_self]

/-- A descriptor that is taken. -/
theorem wpe_acquire (hQ : ∀ fs', (fs.fdArray t k).status = .opened →
      OnlyFile t k (fs.fdArray t k) fs fs' → Q () fs') :
    wpe (fdArrayAcquire t k) Q R (fun _ => True) fs := by
  simp only [fdArrayAcquire, file, setFile, wpe_bind, wpe_get, wpe_pure, wpe_demand, wpe_modify]
  exact ⟨fun hopened => hQ _ hopened ⟨rfl, _, update_file _ _⟩, fun _ => trivial⟩

/-- …and given back, and stays open. -/
theorem wpe_release (hopened : (fs.fdArray t k).status = .opened)
    (hQ : ∀ fs', OnlyFile t k (fs.fdArray t k) fs fs' → Q () fs') :
    wpe (fdArrayRelease t k) Q R (fun _ => True) fs := by
  simp only [fdArrayRelease, fdArrayFree, file, setFile, wpe_bind, wpe_get, wpe_pure, wpe_demand,
    wpe_modify]
  refine ⟨fun _ => ?_, fun _ => trivial⟩
  rw [wpe_ite]
  refine ⟨fun _ => ?_, fun _ => hQ _ ⟨rfl, _, update_file _ _⟩⟩
  -- an open descriptor is not freed
  simp only [wpe_bind, wpe_get, wpe_pure, wpe_demand]
  refine ⟨fun hfree => ?_, fun _ => trivial⟩
  rw [update_file, hopened] at hfree
  exact absurd hfree.1 (by simp)

/-- What `file_read` leaves of a chunk: the position has moved by what is delivered. -/
structure Chunked (inos loose : Finset ℕ) (t : ℕ) (fd : ℤ) (i : ℕ) (v : Volume) (pos : ℤ) (p : Progress)
    (fs : FileSys) : Prop where
  piece : Piece v i pos p
  at_pos : posOf t fd fs = pos + p.alen
  next : p.ret = 0 → Serving inos loose t fd i v (pos + p.alen) fs

/-- **`file_read`** moves the position by what it delivers; or it fails, and the position stays. -/
theorem wpe_fileRead_chunk {len : ℕ} (h : Serving inos loose t fd i v pos fs) :
    wpe (fileRead t fd len) (fun p fs' => Chunked inos loose t fd i v pos p fs')
      (fun e fs' => e < 0 ∧ posOf t fd fs' = pos) (fun _ => True) fs := by
  have hinval : (-Sfs.E_INVAL : ℤ) < 0 ∧ posOf t fd fs = pos := ⟨by decide, h.at_pos⟩
  have hnode := h.node
  simp only [fileRead, fileIo, fd2file, getFdArray, file, wpe_bind]
  rw [wpe_ite]
  refine ⟨fun _ => ?_, fun _ => hinval⟩
  simp only [wpe_bind, wpe_get, wpe_demand, wpe_pure]
  refine ⟨fun _ => ?_, fun _ => trivial⟩
  rw [wpe_ite]
  refine ⟨fun hopened => ?_, fun _ => hinval⟩
  rw [hnode]
  simp only [wpe_pure]
  rw [wpe_ite]
  refine ⟨fun _ => ?_, fun _ => hinval⟩
  rw [wpe_bind]
  refine wpe_acquire fun fs₁ _ hfs₁ => ?_
  obtain ⟨hvol, n, hfile⟩ := hfs₁
  rw [wpe_bind, vopIo, wpe_bind]
  refine wpe_vopOp ?_
  simp only [onVol, setFile, wpe_bind, wpe_zoome, wpe_lift, wpe_demand, wpe_pure, wpe_get]
  rw [hvol]
  refine wp_mono (wp_sfsIo_piece h.owned h.dense h.mem h.type) (fun p w hw => ?_) fun _ => id
  obtain ⟨hpiece, hread⟩ := hw
  refine ⟨fun _ => ?_, fun _ => trivial⟩
  have hpos : (fs₁.fdArray t fd.toNat).pos = pos := by rw [hfile]; exact h.at_pos
  have hstatus : (fs₁.fdArray t fd.toNat).status = .opened := by rw [hfile]; exact hopened
  rw [if_pos hstatus, wpe_bind, wpe_modify, wpe_bind]
  refine wpe_release (by dsimp only; rw [update_file]; exact hstatus) fun fs₂ hfs₂ => ?_
  obtain ⟨hvol₂, m, hfile₂⟩ := hfs₂
  dsimp only at hfile₂
  rw [update_file] at hfile₂
  have hmoved : posOf t fd fs₂ = pos + p.alen := by
    rw [posOf, hfile₂, ← hpos]
  have hat : (fs.fdArray t fd.toNat).pos = pos := h.at_pos
  rw [hat] at hpiece
  refine ⟨hpiece.of_same h.size h.bytes, hmoved, fun hret => ?_⟩
  obtain ⟨howned, hdense, htype, hsize, hbytes⟩ := hread hret
  refine ⟨⟨?_, h.mem, ?_, ?_, ?_⟩, ?_, fun y hy => ?_, hmoved⟩
  · rwa [hvol₂]
  · rwa [hvol₂]
  · rw [hvol₂]
    exact htype.trans h.type
  · rw [hfile₂, hfile]
    exact hnode
  · rw [hvol₂]
    exact hsize.trans h.size
  · rw [hvol₂]
    exact (hbytes y hy).trans (h.bytes y hy)

end Chunk

/-! ## The loop -/

section Loop

variable {s s' : ReadSpace} {areas : List Vma} {n len base c : ℕ} {mem : ℕ → UInt8} {src : ℕ → UInt8}

@[simp] theorem storedAt_zero : storedAt mem base 0 src = mem := by
  funext a
  rw [storedAt, if_neg (by omega)]

/-- Bytes that follow bytes. -/
theorem storedAt_append {rest : ℕ → UInt8} (hrest : ∀ j < n, rest j = src (c + j)) :
    storedAt (storedAt mem base c src) (base + c) n rest = storedAt mem base (c + n) src := by
  funext a
  unfold storedAt
  by_cases hnew : base + c ≤ a ∧ a < base + c + n
  · rw [if_pos hnew, if_pos (by omega), hrest _ (by omega)]
    congr 1
    omega
  · rw [if_neg hnew]
    by_cases hold : base ≤ a ∧ a < base + c
    · rw [if_pos hold, if_pos (by omega)]
    · rw [if_neg hold, if_neg (by omega)]

/-- **`copy_to_user`** stores all the bytes, or none. -/
theorem wp_copyToUser (h : s.mm.Valid) (hbase : base < 2 ^ 64) (hn : n < 2 ^ 64)
    (hfuel : s.mm.mmapList.length < fuel) :
    wp (copyToUser fuel base src n) (fun r s' => s'.fs = s.fs ∧ s'.mm.Valid ∧
      s'.mm.mmapList = s.mm.mmapList ∧ (r = true ↔ Accessible s.mm.mmapList base n true) ∧
      s'.mem = if r = true then storedAt s.mem base n src else s.mem) (fun _ => True) s := by
  have hcheck : wp (checkUser fuel base n) (fun r s' => s'.fs = s.fs ∧ s'.mem = s.mem ∧ s'.mm.Valid ∧
      s'.mm.mmapList = s.mm.mmapList ∧ (r = true ↔ Accessible s.mm.mmapList base n true))
      (fun _ => True) s := by
    obtain ⟨r, _, hrun, mm', rfl, hvalid, hlist, hr⟩ :=
      Act.wp_false_iff.mp (h.wp_userMemCheck true hbase hn hfuel)
    rw [checkUser, wp_zoom, wp_relay]
    simp only [Act.wp, hrun, Except.map, Option.getD_some]
    exact ⟨trivial, trivial, hvalid, hlist, hr⟩
  rw [copyToUser, wp_bind]
  refine wp_mono hcheck (fun r s' hs' => ?_) fun _ => id
  obtain ⟨hfs, hmem, hvalid, hlist, hr⟩ := hs'
  rw [wp_ite]
  refine ⟨fun hyes => ⟨hfs, hvalid, hlist, iff_of_true rfl (hr.mp hyes), ?_⟩, fun hno =>
    ⟨hfs, hvalid, hlist, iff_of_false (by simp) (mt hr.mpr hno), ?_⟩⟩
  · dsimp only
    rw [hmem, if_pos rfl]
  · rw [hmem, if_neg (by simp)]

/-- A chunk is read, or is not. -/
theorem wp_readChunk {Q : Progress → ReadSpace → Prop} (h : Serving inos loose t fd i v pos s.fs)
    (hQ : ∀ p fs', (fileRead t fd len).run s.fs = .ok (.ok p, fs') →
      Chunked inos loose t fd i v pos p fs' → Q p { s with fs := fs' })
    (hR : ∀ e fs', (fileRead t fd len).run s.fs = .ok (.error e, fs') → e < 0 → posOf t fd fs' = pos →
      Q ⟨e, 0, fun _ => 0⟩ { s with fs := fs' }) :
    wp (readChunk t fd len) Q (fun _ => True) s := by
  rw [readChunk, wp_bind, onFs, wp_zoom, wp_relay, wp]
  have hread : wpe (fileRead t fd len) _ _ _ _ := wpe_fileRead_chunk h
  cases hrun : (fileRead t fd len).run s.fs with
  | error e => trivial
  | ok r =>
    obtain ⟨r, fs'⟩ := r
    have hr := wp_of_ok hread hrun
    cases r with
    | ok p => exact hQ p fs' hrun hr
    | error e => exact hR e fs' hrun hr.1 hr.2

/-- **The bytes copied so far**: they are in the file, and at `base`. -/
structure Copied (v : Volume) (i : ℕ) (pos : ℤ) (base : ℕ) (mem : ℕ → UInt8) (c : ℕ) (s : ReadSpace) :
    Prop where
  bounds : 0 < c → 0 ≤ pos ∧ pos + c ≤ (v.inode i).size ∧ pos + c ≤ 1036 * 4096
  stored : s.mem = storedAt mem base c fun j => content v i (pos.toNat + j)

/-- …with those of another chunk. -/
theorem Copied.append {p : Progress} (h : Copied v i pos base mem c s) (hp : Piece v i (pos + c) p)
    (hsome : p.alen ≠ 0) (hmem : s'.mem = storedAt s.mem (base + c) p.alen p.buf) :
    Copied v i pos base mem (c + p.alen) s' := by
  obtain ⟨hpos, hsize, hmax⟩ := hp.bounds (Nat.pos_of_ne_zero hsome)
  have hstart : 0 ≤ pos := by
    rcases Nat.eq_zero_or_pos c with rfl | hc
    · simpa using hpos
    · exact (h.bounds hc).1
  refine ⟨fun _ => ⟨hstart, by push_cast; omega, by push_cast; omega⟩, ?_⟩
  rw [hmem, h.stored]
  refine storedAt_append fun j hj => ?_
  rw [hp.bytes j hj]
  congr 1
  omega

/-- What a chunk asks of the areas. -/
theorem storable_iff {p : Progress} {b : ℕ} (hlen : len ≠ 0)
    (hrun : (fileRead t fd (min IOBUF_SIZE len)).run fs = .ok (.ok p, fs')) :
    Storable t fd areas (n + 1) len b fs ↔ (p.alen ≠ 0 → Accessible areas b p.alen true ∧
      (p.ret = 0 → Storable t fd areas n (len - p.alen) (u64 (b + p.alen)) fs')) := by
  rw [Storable, or_iff_right hlen]
  refine ⟨fun h => h p fs' hrun, fun h p' fs'' hrun' => ?_⟩
  rw [hrun] at hrun'
  obtain ⟨rfl, rfl⟩ : p = p' ∧ fs' = fs'' := by simpa using hrun'
  exact h

/-- **The loop**: what is copied is in memory, and the position is where they end if and only if every
chunk that was delivered could be stored. -/
theorem wp_readLoop (n len : ℕ) (h : Serving inos loose t fd i v (pos + c) s.fs) (hmm : s.mm.Valid)
    (hareas : s.mm.mmapList = areas) (hfuel : areas.length < fuel) (hc : Copied v i pos base mem c s)
    (hbase : base + c < 2 ^ 64) :
    wp (readLoop fuel t fd n len (base + c) c) (fun r s' => r.1 ≤ 0 ∧ Copied v i pos base mem r.2 s' ∧
      (posOf t fd s'.fs = pos + r.2 ↔ Storable t fd areas n len (base + c) s.fs)) (fun _ => True) s := by
  induction n generalizing s len c with
  | zero => exact ⟨le_rfl, hc, iff_of_true h.at_pos trivial⟩
  | succ n ih =>
    rw [readLoop, wp_ite]
    refine ⟨fun hzero => ⟨le_rfl, hc, iff_of_true h.at_pos (.inl hzero)⟩, fun hlen => ?_⟩
    rw [wp_bind]
    refine wp_readChunk h (fun p fs' hrun hp => ?_) fun e fs' hrun he hpos => ?_
    · rw [wp_ite]
      refine ⟨fun hnone => ⟨hp.piece.ret, ⟨hc.bounds, hc.stored⟩, iff_of_true ?_ ?_⟩, fun hsome => ?_⟩
      · rw [hp.at_pos, hnone, Nat.cast_zero, add_zero]
      · exact (storable_iff hlen hrun).mpr fun hno => absurd hnone hno
      have hn : p.alen < 2 ^ 64 := by
        have hmax := hp.piece.bounds (Nat.pos_of_ne_zero hsome)
        omega
      rw [wp_bind]
      refine wp_mono (wp_copyToUser hmm hbase hn (hareas.symm ▸ hfuel)) (fun r s₂ hs => ?_) fun _ => id
      obtain ⟨hfs, hvalid, hlist, hr, hmem⟩ := hs
      have hfs : s₂.fs = fs' := hfs
      have hstore : Storable t fd areas (n + 1) len (base + c) s.fs ↔ _ := storable_iff hlen hrun
      rw [hareas] at hr hlist
      rw [wp_ite]
      refine ⟨fun hyes => ?_, fun hno => ⟨?_, ⟨hc.bounds, ?_⟩, iff_of_false ?_ fun hall => ?_⟩⟩
      · have hacc := hr.mp hyes
        have hend : base + c + p.alen < 2 ^ 64 := hacc.top.trans_lt (by decide)
        rw [hyes, if_pos rfl] at hmem
        have hcopied := hc.append hp.piece hsome hmem
        have hnext : pos + c + p.alen = pos + (c + p.alen : ℕ) := by push_cast; ring
        rw [wp_ite]
        refine ⟨fun hret => ⟨hp.piece.ret, hcopied, iff_of_true ?_ ?_⟩, fun hret => ?_⟩
        · rw [hfs, hp.at_pos, hnext]
        · exact hstore.mpr fun _ => ⟨hacc, fun hno => absurd hno hret⟩
        · have hserv := hp.next (not_not.mp hret)
          rw [hnext, ← hfs] at hserv
          rw [u64_of_lt hend, add_assoc]
          refine wp_mono (ih _ hserv hvalid hlist hcopied (by omega)) (fun r s₃ hs => ?_) fun _ => id
          refine ⟨hs.1, hs.2.1, hs.2.2.trans ?_⟩
          rw [hstore, u64_of_lt hend, add_assoc, hfs]
          exact ⟨fun h _ => ⟨hacc, fun _ => h⟩, fun h => (h hsome).2 (not_not.mp hret)⟩
      · have hle := hp.piece.ret
        dsimp only
        split
        · decide
        · exact hle
      · rw [hmem, if_neg hno]
        exact hc.stored
      · rw [hfs, hp.at_pos]
        dsimp only
        omega
      · exact hno (hr.mpr ((hstore.mp hall) hsome).1)
    · rw [wp_ite]
      refine ⟨fun _ => ⟨he.le, ⟨hc.bounds, hc.stored⟩, iff_of_true hpos (.inr fun p fs'' hno => ?_)⟩,
        fun hno => absurd rfl hno⟩
      rw [hrun] at hno
      exact absurd hno (by simp)

/-! ## The call -/

/-- The descriptor is open, and for reading. -/
structure OpenToRead (t : ℕ) (fd : ℤ) (fs : FileSys) : Prop where
  testfd : testfd fd = true
  opened : (fs.fdArray t fd.toNat).status = .opened
  readable : (fs.fdArray t fd.toNat).readable = true

/-- **The condition**: where the descriptor is open to read and the buffer is granted, each chunk that
`file_read` delivers is for addresses that the process may write to. -/
def Deliverable (t : ℕ) (fd : ℤ) (areas : List Vma) (base len : ℕ) (fs : FileSys) : Prop :=
  OpenToRead t fd fs → fs.granted fs.asked = true →
    Storable t fd areas len len base { fs with asked := fs.asked + 1 }

/-- **`file_testfd`** leaves everything as it is. -/
theorem wpe_fileTestfd (hnode : (fs.fdArray t fd.toNat).node = some i) :
    wpe (fileTestfd t fd) (fun r fs' => fs' = fs ∧ (r = true ↔ OpenToRead t fd fs))
      (fun _ fs' => fs' = fs ∧ ¬ OpenToRead t fd fs) (fun _ => True) fs := by
  simp only [fileTestfd, fd2file, getFdArray, file, wpe_bind]
  rw [wpe_ite]
  refine ⟨fun htest => ?_, fun hno => ⟨rfl, fun h => hno h.testfd⟩⟩
  simp only [wpe_bind, wpe_get, wpe_demand, wpe_pure]
  refine ⟨fun _ => ?_, fun _ => trivial⟩
  rw [wpe_ite]
  refine ⟨fun hopened => ?_, fun hno => ⟨rfl, fun h => hno h.opened⟩⟩
  rw [hnode]
  exact ⟨rfl, fun hread => ⟨htest, hopened, hread⟩, OpenToRead.readable⟩

/-- A read that ends before the first chunk is one that loses nothing. -/
theorem Lossless.refused {r : ℤ} (hr : r ≤ 0) (hmem : s'.mem = s.mem)
    (hpos : posOf t fd s'.fs = posOf t fd s.fs) : Lossless t fd i base s s' r := by
  refine ⟨fun hge => ?_, fun _ => hpos⟩
  obtain rfl : r = 0 := le_antisymm hr hge
  exact ⟨by rw [hpos, add_zero], fun hno => absurd hno (lt_irrefl _), by simp [hmem]⟩

/-- **What is returned** tells whether anything is lost: the bytes copied, or the code if there are
none. -/
theorem Copied.lossless_iff {ret : ℤ} (hret : ret ≤ 0)
    (h : Copied s.fs.vol i (posOf t fd s.fs) base s.mem c s') :
    Lossless t fd i base s s' (if c ≠ 0 then toS32 c else ret) ↔
      posOf t fd s'.fs = posOf t fd s.fs + c := by
  rcases Nat.eq_zero_or_pos c with rfl | hc
  · rw [if_neg (not_not.mpr rfl), Nat.cast_zero, add_zero]
    refine ⟨fun hl => ?_, fun hpos => .refused hret (by rw [h.stored, storedAt_zero]) hpos⟩
    rcases hret.lt_or_eq with hneg | rfl
    · exact hl.failed hneg
    · exact (hl.done le_rfl).1.trans (add_zero _)
  · obtain ⟨hstart, hsize, hmax⟩ := h.bounds hc
    have hs32 : toS32 c = c := toS32_of_mem (by omega) (by omega)
    rw [if_pos hc.ne', hs32]
    refine ⟨fun hl => (hl.done (Int.natCast_nonneg c)).1, fun hpos => ⟨fun _ => ⟨hpos, fun _ => hsize, ?_⟩,
      fun hno => absurd hno (not_lt.mpr (Int.natCast_nonneg c))⟩⟩
    rw [Int.toNat_natCast]
    exact h.stored

/-- The whole call. -/
theorem wp_sysfileReadUser (h : ReadsFile inos loose t fd i s.fs) (hmm : s.mm.Valid)
    (hfuel : s.mm.mmapList.length < fuel) (hbase : base < 2 ^ 64) :
    wp (sysfileReadUser fuel t fd base len) (fun r s' => Lossless t fd i base s s' r ↔
      Deliverable t fd s.mm.mmapList base len s.fs) (fun _ => True) s := by
  have hrefused : ∀ r ≤ 0, ∀ fs', posOf t fd fs' = posOf t fd s.fs →
      Lossless t fd i base s { s with fs := fs' } r := fun r hr fs' hpos => .refused hr rfl hpos
  have hinval : (-Sfs.E_INVAL : ℤ) ≤ 0 := by decide
  have hnomem : (-Sfs.E_NO_MEM : ℤ) ≤ 0 := by decide
  rw [sysfileReadUser, wp_ite]
  refine ⟨fun hzero => iff_of_true (hrefused _ le_rfl _ rfl) fun _ _ => ?_, fun hlen => ?_⟩
  · rw [hzero]
    trivial
  rw [wp_bind, onFs, wp_zoom, wp_relay, wp_run]
  refine wpe_mono (wpe_fileTestfd h.node) (fun r fs' htest => ?_) (fun _ fs' htest => ?_) fun _ => id
  · obtain ⟨rfl, hr⟩ := htest
    cases r with
    | false =>
      refine iff_of_true (hrefused _ hinval _ rfl) fun hopen => absurd (hr.mpr hopen) (by simp)
    | true =>
      have hopen := hr.mp rfl
      rw [wp_bind, onFs, wp_zoom, wp_relay, wp_run]
      simp only [kmalloc, wpe_bind, wpe_get, wpe_modify]
      rw [wpe_ite]
      refine ⟨fun hgranted => ?_, fun hno => ?_⟩
      · have hserv : Serving inos loose t fd i s.fs.vol (posOf t fd s.fs + (0 : ℕ))
            { s.fs with asked := s.fs.asked + 1 } :=
          ⟨⟨h.owned, h.mem, h.dense, h.type, h.node⟩, rfl, fun _ _ => rfl, (add_zero _).symm⟩
        have hnone : Copied s.fs.vol i (posOf t fd s.fs) base s.mem 0
            { s with fs := { s.fs with asked := s.fs.asked + 1 } } :=
          ⟨fun hno => absurd hno (lt_irrefl _), storedAt_zero.symm⟩
        have hstart : base + 0 < 2 ^ 64 := hbase
        have hloop := wp_readLoop (s := { s with fs := { s.fs with asked := s.fs.asked + 1 } }) (c := 0)
          len len hserv hmm rfl hfuel hnone hstart
        rw [wpe_pure, wp_bind]
        refine wp_mono hloop (fun r s' hend => ?_) fun _ => id
        obtain ⟨hret, hcopied, hiff⟩ := hend
        refine (hcopied.lossless_iff hret).trans (hiff.trans ?_)
        exact ⟨fun hall _ _ => hall, fun hall => hall hopen hgranted⟩
      · rw [wpe_throw]
        exact iff_of_true (hrefused _ hnomem _ rfl) fun _ hno' => absurd hno' hno
  · obtain ⟨rfl, hno⟩ := htest
    exact iff_of_true (hrefused _ hinval _ rfl) fun hopen => absurd hopen hno

/-- **`sysfile_read` loses nothing exactly where what it is given can be stored**: `r` bytes of the file
are at `base` and the position has moved by `r`, or it failed and the position has not moved. -/
theorem sysfileReadUser_lossless_iff {r : ℤ} (h : ReadsFile inos loose t fd i s.fs) (hmm : s.mm.Valid)
    (hfuel : s.mm.mmapList.length < fuel) (hbase : base < 2 ^ 64)
    (hrun : sysfileReadUser fuel t fd base len s = .ok (r, s')) :
    Lossless t fd i base s s' r ↔ Deliverable t fd s.mm.mmapList base len s.fs := by
  have hwp : wp (sysfileReadUser fuel t fd base len) _ _ s := wp_sysfileReadUser h hmm hfuel hbase
  have hend := wp_of_ok hwp hrun
  exact hend

end Loop

/-! ## One byte -/

/-- A process with one page that it may write to, and descriptor 0 on a file of one byte. -/
def oneByte : ReadSpace where
  fs := { rootFiles 16 with
    node := fun i => if i = 4 then ⟨true, 1, 1, 1⟩ else (rootFiles 16).node i
    fdArray := fun _ fd => ⟨if fd = 0 then .opened else .none, true, false, 0, some 4, 1⟩ }
  mm := ⟨[⟨0x500000, 0x501000, VM_READ ||| VM_WRITE⟩], none, 1⟩
  mem _ := 0

theorem oneByte_readsFile : ReadsFile {1, 4} ∅ 0 0 4 oneByte.fs := by
  refine ⟨rootVolume_owned (m := 16) (by norm_num) (by norm_num), by decide, ⟨by decide, fun k hk => ?_⟩,
    rfl, rfl⟩
  obtain rfl : k = 0 := Nat.lt_one_iff.mp hk
  exact fun h0 => absurd (rootVolume_bmap.symm.trans h0) (by decide)

theorem oneByte_valid : oneByte.mm.Valid := ⟨⟨by decide, by decide⟩, rfl, fun _ h => (nomatch h)⟩

/-- **The byte is lost**: the process has no page where it should go, the call fails, and the position
is beyond the byte. -/
theorem sysfileReadUser_loses : ReadsFile {1, 4} ∅ 0 0 4 oneByte.fs ∧ oneByte.mm.Valid ∧
    ∃ s, sysfileReadUser 2 0 0 0x400000 1 oneByte = .ok (-3, s) ∧
      ¬ Lossless 0 0 4 0x400000 oneByte s (-3) := by
  obtain ⟨r, s, heq, hrun⟩ := Act.exists_of_test (m := sysfileReadUser 2 0 0 0x400000 1) (s := oneByte)
    (fun r s => r == -3 && posOf 0 0 s.fs == 1) (by decide +kernel)
  refine ⟨oneByte_readsFile, oneByte_valid, ?_⟩
  obtain ⟨hr, hpos⟩ := Bool.and_eq_true_iff.mp hrun
  obtain rfl : r = -3 := beq_iff_eq.mp hr
  refine ⟨s, heq, fun hno => ?_⟩
  have hstay := hno.failed (by decide)
  rw [beq_iff_eq.mp hpos] at hstay
  exact absurd hstay (by decide)

/-- The byte is read to the page. -/
theorem sysfileReadUser_lossless_oneByte : ∃ s,
    sysfileReadUser 2 0 0 0x500000 2 oneByte = .ok (1, s) ∧ (Lossless 0 0 4 0x500000 oneByte s 1 ↔
      Deliverable 0 0 oneByte.mm.mmapList 0x500000 2 oneByte.fs) := by
  obtain ⟨r, s, heq, hrun⟩ := Act.exists_of_test (m := sysfileReadUser 2 0 0 0x500000 2) (s := oneByte)
    (fun r _ => r == 1) (by decide +kernel)
  obtain rfl : r = 1 := beq_iff_eq.mp hrun
  exact ⟨s, heq, sysfileReadUser_lossless_iff oneByte_readsFile oneByte_valid (by decide) (by decide) heq⟩

end UCore.Fs
