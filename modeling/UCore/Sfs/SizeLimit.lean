import UCore.Sfs.Transfer
import UCore.Sfs.Resize
import UCore.Sfs.Fresh

/-!
# Sfs/SizeLimit — the size that is accepted and the size that is mapped

    1036 blocks of 4096 bytes       what a block map holds
    SFS_MAX_FILE_SIZE = 128 MB      what sfs_io_nolock, sfs_truncfile and sfs_tryseek accept

A request between the two grows the file block by block to the end of its map, and there panics,
unless the volume has run out of free blocks before.
-/

namespace UCore.Sfs

/-- A request that may grow a file. -/
inductive Request where
  | write (buf : ℕ → UInt8) (offset : ℤ) (len : ℕ)
  | truncfile (len : ℤ)
  | tryseek (pos : ℤ)

namespace Request

/-- The request on the file `i`: the code that is returned. -/
def run (i : ℕ) : Request → Act Volume Assertion ℤ
  | .write buf offset len => do return (← sfsIoNolock i buf offset len true).ret
  | .truncfile len => codeOf (sfsTruncfile i len)
  | .tryseek pos => codeOf (sfsTryseek i pos)

/-- The arguments are in the range that is accepted, and a write starts within the file. -/
def Accepted (size : ℕ) : Request → Prop
  | .write _ offset len =>
    0 ≤ offset ∧ offset < SFS_MAX_FILE_SIZE ∧ offset ≤ size ∧ len ≤ SFS_MAX_FILE_SIZE
  | .truncfile len => len ≤ SFS_MAX_FILE_SIZE
  | .tryseek pos => pos ≤ SFS_MAX_FILE_SIZE

/-- Where the file is to end.  `sfs_tryseek` itself refuses `SFS_MAX_FILE_SIZE`. -/
def last : Request → ℤ
  | .write _ offset len => offset + len
  | .truncfile len => len
  | .tryseek pos => if pos < SFS_MAX_FILE_SIZE then pos else 0

end Request

/-- The request ends within the map, or the file cannot get the blocks to fill it. -/
def Within (v : Volume) (i : ℕ) (r : Request) : Prop :=
  r.last ≤ 1036 * 4096 ∨ v.unusedBlocks < missing v i 1036

/-- The request returns `0` or a negative error code. -/
def Returns (v : Volume) (i : ℕ) (r : Request) : Prop :=
  ∃ code w, r.run i v = .ok (code, w) ∧ code ≤ 0

variable {inos loose : Finset ℕ} {v w : Volume} {i k n : ℕ} {r : Request}

namespace RegularFile

/-- **A write**, judged by the limit. -/
theorem wp_write {buf : ℕ → UInt8} {offset : ℤ} {len : ℕ} (h : RegularFile inos loose v i)
    (ha : (Request.write buf offset len).Accepted (v.inode i).size) :
    Act.wp ((Request.write buf offset len).run i)
      (fun code _ => code ≤ 0 ∧ (¬ Faulty v → Within v i (.write buf offset len)))
      (fun e => e = .mapRange ∧ ¬ Within v i (.write buf offset len)) v := by
  obtain ⟨h0, hmax, hoff, hlen⟩ := ha
  have hmax' : offset < 1024 * 1024 * 128 := hmax
  have hlen' : len ≤ 1024 * 1024 * 128 := hlen
  have hsize := h.size_le
  have hblocks := h.blocks
  have hs64 : toS64 (offset + len) = offset + len := toS64_of_mem (by omega) (by omega)
  have hinv : ¬ Invalid offset len := by
    rintro (hc | hc | hc)
    · omega
    · exact absurd hmax (not_lt.mpr hc)
    · rw [hs64] at hc
      omega
  have hend : endOf (v.inode i).size offset len true = min (offset + len).toNat SFS_MAX_FILE_SIZE := by
    rw [endOf, if_pos rfl, hs64]
  rw [Request.run, Act.wp_bind]
  refine wp_sfsIoNolock h.owned h.dense h.mem (fun hdir => absurd (h.type.symm.trans hdir) (by simp))
    (fun hc => absurd hc hinv) (fun _ hno => ?_) (fun _ _ hlt => absurd hlt (by omega))
    (fun _ _ hlt hmiss => ⟨rfl, fun hwithin => ?_⟩) (fun _ _ _ p w hended => ?_)
  · have heq : offset = toS64 (offset + len) := hno.elim id fun hc => absurd hc.1 (by simp)
    rw [hs64] at heq
    exact ⟨le_rfl, fun _ => .inl (by change offset + len ≤ _; omega)⟩
  · rw [hend] at hlt
    have hlt' : 1036 * 4096 < min (offset + len).toNat (1024 * 1024 * 128) := hlt
    rcases hwithin with hle | hfew
    · have hle' : offset + len ≤ 1036 * 4096 := hle
      omega
    · omega
  · rw [hend] at hended
    rcases hended with hg | ⟨pos, -, halign, hhalt⟩
    · refine ⟨hg.ret.le, fun _ => .inl ?_⟩
      change offset + len ≤ 1036 * 4096
      have hlast := hg.dense.le
      rcases hg.le.eq_or_lt with heq | hlt
      · have heq' : offset.toNat = min (offset + len).toNat (1024 * 1024 * 128) := heq
        omega
      · rw [hg.blocks hlt] at hlast
        have hlast' : max (v.inode i).blocks
          ((min (offset + len).toNat (1024 * 1024 * 128) + 4095) / 4096) ≤ 1036 := hlast
        omega
    · obtain ⟨p₀, w₀, hg, hneg, -, hk, -⟩ := id hhalt
      exact ⟨hneg.le, fun hf => .inr (hhalt.lt_missing hf halign le_rfl hk)⟩

/-- **A call of `sfs_truncfile`**, judged by the limit. -/
theorem wpe_truncfile {len : ℤ} (h : RegularFile inos loose v i) (hlen : len ≤ SFS_MAX_FILE_SIZE) :
    Act.wpe (sfsTruncfile i len)
      (fun _ _ => ¬ Faulty v → len ≤ 1036 * 4096 ∨ v.unusedBlocks < missing v i 1036)
      (fun e _ => e ≤ 0 ∧ (¬ Faulty v → len ≤ 1036 * 4096 ∨ v.unusedBlocks < missing v i 1036))
      (fun e => e = .mapRange ∧ ¬ (len ≤ 1036 * 4096 ∨ v.unusedBlocks < missing v i 1036)) v := by
  have hsize := h.size_le
  have hle := h.dense.le
  refine wpe_sfsTruncfile h.owned h.dense h.mem (fun hinv => ⟨by norm_num, fun _ => .inl ?_⟩)
    (fun h0 heq _ _ => .inl (by omega)) (fun hne => absurd h.blocks hne) (fun hlt hmiss => ?_)
    (fun h0 _ _ _ w hg _ => .inl ?_) (fun h0 e he m w _ _ hs => ⟨he.le, fun hf => .inr (hs.lt_missing hf le_rfl hs.1)⟩)
    (fun h0 _ hcut _ _ _ => .inl (by omega)) (fun _ e he _ _ _ _ hj => ⟨he.le, fun hf => absurd hj.1 hf⟩)
  · rcases hinv with hneg | hgt
    · omega
    · exact absurd hlen (not_le.mpr hgt)
  · exact ⟨rfl, by rintro (hc | hc) <;> omega⟩
  · have := hg.dense.le
    rw [hg.blocks] at this
    omega

/-- **A request**, judged by the limit: it panics only beyond it, and returns beyond it only if a
transfer fails. -/
theorem wp_run (h : RegularFile inos loose v i) (ha : r.Accepted (v.inode i).size) :
    Act.wp (r.run i) (fun code _ => code ≤ 0 ∧ (¬ Faulty v → Within v i r))
      (fun e => e = .mapRange ∧ ¬ Within v i r) v := by
  cases r with
  | write buf offset len => exact h.wp_write ha
  | truncfile len =>
    rw [Request.run, wp_codeOf]
    exact Act.wpe_mono (h.wpe_truncfile ha) (fun _ _ hw => ⟨le_rfl, hw⟩) (fun _ _ he => he) fun _ he => he
  | tryseek pos =>
    have hsize := h.size_le
    have hcast : ((SFS_MAX_FILE_SIZE : ℕ) : ℤ) = 1024 * 1024 * 128 := by norm_num
    rw [Request.run, wp_codeOf, sfsTryseek, Act.wpe_ite]
    refine ⟨fun hinv => ⟨by norm_num, fun _ => .inl ?_⟩, fun hval => ?_⟩
    · rw [Request.last]
      split
      · next hlt =>
        rcases hinv with hneg | hge
        · omega
        · exact absurd hlt (not_lt.mpr hge)
      · norm_num
    · have hlast : (Request.tryseek pos).last = pos := if_pos (not_le.mp fun hge => hval (.inr hge))
      have hwithin : Within v i (.tryseek pos) ↔
          pos ≤ 1036 * 4096 ∨ v.unusedBlocks < missing v i 1036 := by rw [Within, hlast]
      simp only [Act.wpe_bind, Act.wpe_get]
      rw [Act.wpe_ite, hwithin]
      refine ⟨fun _ => ?_, fun hle => ⟨le_rfl, fun _ => .inl (by omega)⟩⟩
      exact Act.wpe_mono (h.wpe_truncfile ha) (fun _ _ hw => ⟨le_rfl, hw⟩) (fun _ _ he => he) fun _ he => he

/-- **A request within the limit returns**, on any device. -/
theorem returns (h : RegularFile inos loose v i) (ha : r.Accepted (v.inode i).size)
    (hwithin : Within v i r) : Returns v i r := by
  obtain ⟨code, w, hrun, hq⟩ := Act.wp_false_iff.mp
    (Act.wp_mono (h.wp_run ha) (fun _ _ hq => hq) fun _ he => he.2 hwithin)
  exact ⟨code, w, hrun, hq.1⟩

end RegularFile

theorem truncfile_accepted {len : ℤ} {size : ℕ} (h : len ≤ 134217728) :
    (Request.truncfile len).Accepted size := by
  have hcast : ((SFS_MAX_FILE_SIZE : ℕ) : ℤ) = 134217728 := by norm_num
  change len ≤ ((SFS_MAX_FILE_SIZE : ℕ) : ℤ)
  rwa [hcast]

end UCore.Sfs
