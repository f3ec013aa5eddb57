import UCore.Fs.Append

/-!
# Fs/AppendRun — the descriptors of one file

    open ── write ── seek ── open ── write ── …        any number of descriptors, in any order

`O_APPEND` moves the position once, when the descriptor is opened.  As long as every write through such
a descriptor finds it at the size of the file, the file is its appended writes in their order; the
second of two descriptors that were opened together does not.
-/

namespace UCore.Fs

open Sfs Act

variable {inos loose : Finset ℕ} {s s₀ s' : FileSys} {i t fd dir flags : ℕ} {path b : List UInt8}

/-! ## Opening -/

section Table

variable {table : ℕ → ℕ → File}

/-- The descriptors are these. -/
def TableIs (table : ℕ → ℕ → File) (s : FileSys) : Prop := s.fdArray = table

theorem table_onVol {α : Type} {m : Sfs.Call α} : Keeps (TableIs table) (onVol m) := fun s h => by
  rw [onVol, wpe_zoome, wpe, wp]
  split
  · next r _ => obtain ⟨r, w⟩ := r; cases r <;> exact h
  · trivial

theorem table_setNode {f : Node → Node} : Keeps (TableIs table) (setNode i f) := .modify fun _ h => h

theorem table_kmalloc : Keeps (TableIs table) kmalloc :=
  .bind .get fun _ => .bind (.modify fun _ h => h) fun _ => .ite (fun _ => .pure _) fun _ => .throw _

theorem table_vopOp {provided : FileType → Bool} : Keeps (TableIs table) (vopOp i provided) :=
  .bind .get fun _ => .bind .demand fun _ => .bind .get fun _ => .demand

theorem table_inodeRefInc : Keeps (TableIs table) (inodeRefInc i) :=
  .bind table_setNode fun _ => .bind .get fun _ => .pure _

theorem table_sfsFsync : Keeps (TableIs table) (sfsFsync i) :=
  .bind .get fun _ => .ite (fun _ => .bind table_onVol fun _ => .bind .get fun _ =>
    .onError table_onVol table_onVol) fun _ => .pure _

theorem table_vopFsync : Keeps (TableIs table) (vopFsync i) := .bind table_vopOp fun _ => table_sfsFsync

theorem table_vopTruncate {len : ℤ} : Keeps (TableIs table) (vopTruncate i len) :=
  .bind table_vopOp fun _ => table_onVol

theorem table_sfsReclaim : Keeps (TableIs table) (sfsReclaim i) := by
  have hend : Keeps (TableIs table) (do
      setNode i fun node => { node with cached := false }
      let din := (← get).vol.inode i
      if din.nlinks = 0 then
        onVol (sfsBlockFree i)
        if din.indirect ≠ 0 then
          onVol (sfsBlockFree din.indirect)
      inodeKill i : Call Unit) := by
    have hkill : Keeps (TableIs table) (inodeKill i) := .bind .get fun _ => .demand
    refine .bind table_setNode fun _ => .bind .get fun _ => .ite (fun _ => .bind table_onVol fun _ =>
      .ite (fun _ => .bind table_onVol fun _ => hkill) fun _ => hkill) fun _ => hkill
  have hsync : Keeps (TableIs table) (do
      if ((← get).vol.inode i).dirty = true then
        vopFsync i
      setNode i fun node => { node with cached := false }
      let din := (← get).vol.inode i
      if din.nlinks = 0 then
        onVol (sfsBlockFree i)
        if din.indirect ≠ 0 then
          onVol (sfsBlockFree din.indirect)
      inodeKill i : Call Unit) :=
    .bind .get fun _ => .ite (fun _ => .bind table_vopFsync fun _ => hend) fun _ => hend
  exact .bind .get fun _ => .bind .demand fun _ => .bind table_setNode fun _ => .bind .get fun _ =>
    .ite (fun _ => .throw _) fun _ => .bind .get fun _ =>
    .ite (fun _ => .bind table_vopTruncate fun _ => hsync) fun _ => hsync

theorem table_inodeRefDec : Keeps (TableIs table) (inodeRefDec i) :=
  .bind .get fun _ => .bind .demand fun _ => .bind table_setNode fun _ => .bind .get fun _ =>
    .ite (fun _ => .ignore (.bind table_vopOp fun _ => table_sfsReclaim)) fun _ => .pure _

theorem table_sfsLoadInode : Keeps (TableIs table) (sfsLoadInode i) := by
  refine .bind .get fun _ => .ite (fun _ => .bind table_inodeRefInc fun _ => .ite
    (fun _ => table_setNode) fun _ => .pure _) fun _ => ?_
  exact .bind table_kmalloc fun _ => .bind table_onVol fun _ => .bind .demand fun _ =>
    .bind table_onVol fun _ => .bind .get fun _ => .bind .demand fun _ => .bind table_kmalloc fun _ =>
    .bind .demand fun _ => .bind table_onVol fun _ => table_setNode

theorem table_sfsLookup : Keeps (TableIs table) (sfsLookup i path) := by
  have honce : Keeps (TableIs table) (sfsLookupOnce i path) :=
    .bind (.bind .demand fun _ => .bind table_kmalloc fun _ => .bind .get fun _ => table_onVol) fun _ =>
      .bind table_sfsLoadInode fun _ => .pure _
  exact .bind .demand fun _ => .bind table_inodeRefInc fun _ => .andThen
    (.bind .get fun _ => .ite (fun _ => .throw _) fun _ => honce) table_inodeRefDec

/-- **A lookup** has to do with no descriptor. -/
theorem table_vfsLookup : Keeps (TableIs table) (vfsLookup dir path) :=
  .bind table_inodeRefInc fun _ => .ite (fun _ => .pure _) fun _ =>
    .andThen (.bind table_vopOp fun _ => table_sfsLookup) table_inodeRefDec

end Table

/-- **Looking up a path** from a directory that is referred to hands over one reference. -/
theorem Tree.wpe_vfsLookup (h : Tree inos loose s) (hd : dir ∈ inos)
    (hcached : (s.node dir).cached = true) (href : 0 < (s.node dir).refCount) :
    wpe (vfsLookup dir path) (fun j s' => Found s.vol dir path j ∧ Counted s (oneMore (fun _ => 0) j) s')
      (fun _ s' => Counted s (fun _ => 0) s') (fun _ => True) s := by
  have hin : ∀ {c s'}, Counted s c s' → (s'.node dir).cached = true := fun hc =>
    (Bool.not_eq_false _).mp fun hf => by
      have h0 := (hc.cached dir hf).1
      rw [hcached] at h0
      exact nomatch h0
  rw [vfsLookup, wpe_bind]
  refine (Counted.refl s).inc hcached fun s₁ hc₁ _ => ?_
  rw [wpe_ite]
  refine ⟨fun hpath => ⟨(if_pos hpath).mpr rfl, hc₁⟩, fun hpath => ?_⟩
  simp only [wpe_andThen, wpe_bind, vopDir, vopOp, inodeCheck, wpe_get, wpe_demand]
  refine ⟨fun htype => ⟨fun _ => ?_, fun _ => trivial⟩, fun _ => trivial⟩
  rw [hc₁.vol.inode] at htype
  refine wpe_mono (h.wpe_lookup hc₁ hd (by simpa using htype) hcached href hpath (fun _ => trivial)
    fun _ => trivial) (fun j s₂ hs => ?_) (fun e s₂ hs => ?_) fun _ => id
  · refine wpe_mono (hs.2.dec (hin hs.2) (one_le_oneMore.trans le_oneMore) href)
      (fun _ s₃ hs₃ => ?_) (fun _ _ => id) fun _ => id
    rw [oneLess_oneMore_oneMore] at hs₃
    exact ⟨hs.1.1, hs₃⟩
  · refine wpe_mono (hs.2.dec (hin hs.2) one_le_oneMore href)
      (fun _ s₃ hs₃ => ?_) (fun _ _ => id) fun _ => id
    rw [oneLess_oneMore] at hs₃
    exact hs₃

theorem Tree.wpe_vfsFind (h : Tree inos loose s) (hd : dir ∈ inos)
    (hcached : (s.node dir).cached = true) (href : 0 < (s.node dir).refCount) :
    wpe (vfsFind dir path flags)
      (fun j s' => (Found s.vol dir path j ∧ Counted s (oneMore (fun _ => 0) j) s') ∧
        s'.fdArray = s.fdArray)
      (fun _ s' => (∃ c, Counted s c s') ∧ s'.fdArray = s.fdArray) (fun _ => True) s := by
  rw [vfsFind, wpe_bind, wpe_attempt]
  refine wpe_mono (wpe_and (h.wpe_vfsLookup hd hcached href) (table_vfsLookup s rfl)) ?_ ?_
    fun _ => And.left
  · rintro j s' ⟨hs, htable⟩
    dsimp only
    rw [wpe_ite]
    exact ⟨fun _ => ⟨⟨_, hs.2⟩, htable⟩, fun _ => ⟨hs, htable⟩⟩
  · rintro e s' ⟨hs, htable⟩
    dsimp only
    rw [wpe_ite]
    refine ⟨fun _ => ?_, fun _ => ⟨⟨_, hs⟩, htable⟩⟩
    simp only [inodeRefInc, setNode, wpe_bind, wpe_modify, wpe_get, wpe_pure, wpe_stop]

/-- References that are taken change no file. -/
theorem Holding.counted {c : ℕ → ℕ} (h : Holding inos loose i b s) (hc : Counted s c s')
    (htable : s'.fdArray = s.fdArray) : Holding inos loose i b s' := by
  have hinode := hc.vol.inode
  have hdata := hc.vol.data
  refine ⟨⟨⟨hc.vol.owned h.tree.owned, fun j hj => ?_, fun d hd htype slot hslot name ino hn => ?_,
    fun j hj hu => ?_, fun t fd j hj => ?_⟩, fun j hj => ?_, fun d hd htype k hk => ?_,
    fun d hd htype slot hslot name ino hn => ?_, fun j hj => ?_, fun j => ?_⟩,
    ⟨hc.vol.owned h.tree.owned, h.regular.mem, ?_, ⟨?_, fun k hk => ?_⟩, ?_⟩, ?_,
    fun t fd hst hj => ?_, (bytes_ticked hc.vol).trans h.contents⟩
  · exact hinode ▸ h.tree.dins j hj
  · exact h.tree.entries d hd (hinode ▸ htype) slot hslot name ino (hc.vol.names.mp hn)
  · rw [OnDisk, hinode, hdata]
    exact h.tree.uncached j hj (hc.cached j hu).1
  · exact h.tree.nodes t fd j (htable ▸ hj)
  · exact hinode ▸ h.tree.types j hj
  · rw [hc.vol.bmap]
    exact h.tree.mapped d hd (hinode ▸ htype) k (hinode ▸ hk)
  · exact h.tree.names d hd (hinode ▸ htype) slot hslot name ino (hc.vol.names.mp hn)
  · rw [hc.refs j, (hc.cached j hj).2, h.tree.idle j (hc.cached j hj).1]
  · rw [hc.opens j, hc.refs j]
    exact (h.tree.opens j).trans (Nat.le_add_right ..)
  · exact hinode ▸ h.regular.type
  · exact hinode ▸ h.regular.dense.le
  · rw [hc.vol.bmap]
    exact h.regular.dense.ne_zero k (hinode ▸ hk)
  · exact hinode ▸ h.regular.blocks
  · obtain ⟨n, hn⟩ := hc.vol
    rw [hn]
    exact h.sound
  · rw [hc.refs i]
    exact (h.held t fd (htable ▸ hst) (htable ▸ hj)).trans_le (Nat.le_add_right ..)

/-- An open that is counted. -/
theorem Holding.wpe_openInc {R : ℤ → FileSys → Prop} {E : Assertion → Prop} (h : Holding inos loose i b s)
    (hlt : (s.node i).openCount < (s.node i).refCount) :
    wpe (inodeOpenInc i) (fun _ s' => Holding inos loose i b s' ∧ 0 < (s'.node i).refCount ∧
      s'.fdArray = s.fdArray) R E s := by
  rw [inodeOpenInc, setNode, wpe_modify]
  have hself : ∀ j, (Function.update s.node i { s.node i with openCount := (s.node i).openCount + 1 } j).refCount =
      (s.node j).refCount ∧ (Function.update s.node i { s.node i with
        openCount := (s.node i).openCount + 1 } j).cached = (s.node j).cached := fun j => by
    rcases eq_or_ne j i with rfl | hji
    · rw [Function.update_self]
      exact ⟨rfl, rfl⟩
    · rw [Function.update_of_ne hji]
      exact ⟨rfl, rfl⟩
  refine ⟨⟨⟨⟨h.tree.owned, h.tree.dins, h.tree.entries, fun j hj hu => ?_, h.tree.nodes⟩, h.tree.types,
    h.tree.mapped, h.tree.names, fun j hj => ?_, fun j => ?_⟩, h.regular, h.sound, fun t fd hst hj => ?_,
    h.contents⟩, ?_, rfl⟩
  · exact h.tree.uncached j hj ((hself j).2 ▸ hu)
  · exact (hself j).1.trans (h.tree.idle j ((hself j).2 ▸ hj))
  · dsimp only
    rw [(hself j).1]
    rcases eq_or_ne j i with rfl | hji
    · rw [Function.update_self]
      exact hlt
    · rw [Function.update_of_ne hji]
      exact h.tree.opens j
  · exact (h.held t fd hst hj).trans_eq (hself i).1.symm
  · exact ((Nat.zero_le _).trans_lt hlt).trans_eq (hself i).1.symm

/-- The flags with which an open leaves nothing of a file. -/
def cuts (flags : ℕ) : Bool := has flags O_TRUNC || has flags O_CREAT

/-- **`vfs_open`** of a path that leads to the file, if anywhere. -/
theorem Holding.wpe_vfsOpen (h : Holding inos loose i b s) (hd : dir ∈ inos)
    (hcached : (s.node dir).cached = true) (href : 0 < (s.node dir).refCount)
    (hlead : ∀ j, Found s.vol dir path j → j = i) :
    wpe (vfsOpen dir path flags) (fun j s' => j = i ∧
        Holding inos loose i (if cuts flags = true then [] else b) s' ∧ 0 < (s'.node i).refCount ∧
        s'.fdArray = s.fdArray)
      (fun _ s' => Holding inos loose i b s' ∧ s'.fdArray = s.fdArray) (fun _ => True) s := by
  rw [vfsOpen, wpe_ite]
  refine ⟨fun _ => ⟨h, rfl⟩, fun _ => ?_⟩
  rw [wpe_ite]
  refine ⟨fun _ => ⟨h, rfl⟩, fun _ => ?_⟩
  rw [wpe_bind]
  refine wpe_mono (h.tree.wpe_vfsFind hd hcached href) ?_
    (fun _ _ hs => ⟨h.counted hs.1.choose_spec hs.2, hs.2⟩) fun _ => id
  rintro j s₁ ⟨⟨hfound, hc⟩, htable⟩
  obtain rfl := hlead j hfound
  have h₁ := h.counted hc htable
  have hlt : (s₁.node j).openCount < (s₁.node j).refCount := by
    rw [hc.opens j, hc.refs j, oneMore_self]
    exact Nat.lt_succ_of_le (by simpa using h.tree.opens j)
  have htype := h₁.regular.type
  simp only [vopOpen, wpe_bind, wpe_onError]
  refine wpe_vopOp ?_
  rw [wpe_get, if_neg (by rw [htype]; simp), wpe_pure]
  refine wpe_mono (h₁.wpe_openInc hlt) ?_ (fun _ _ => False.elim) fun _ => id
  rintro _ s₂ ⟨h₂, href₂, htable₂⟩
  rw [wpe_ite]
  refine ⟨fun hcut => ?_, fun hcut => ⟨rfl, ?_, href₂, htable₂.trans htable⟩⟩
  · have hcuts : cuts flags = true := by simpa [cuts] using hcut
    rw [wpe_bind, wpe_onError, vopTruncate, vopFile, wpe_bind]
    refine wpe_vopOp ?_
    rw [onVol, wpe_zoome]
    refine wpe_mono (wpe_truncfile_rewrote h₂.regular h₂.sound fun hno => absurd hno (by omega)) ?_
      (fun _ _ hno => absurd rfl hno.1) fun _ => id
    rintro _ w ⟨hr, hsize⟩
    have h₃ := h₂.rewrote hr href₂
    rw [bytes, hsize] at h₃
    exact ⟨rfl, by rw [if_pos hcuts]; exact h₃, href₂, htable₂.trans htable⟩
  · have hcuts : ¬ cuts flags = true := fun hc => hcut (by simpa [cuts] using hc)
    rw [if_neg hcuts]
    exact h₂

/-- The free entry that an open begins with. -/
theorem Holding.wpe_fdArrayAlloc {fd : ℤ} (h : Holding inos loose i b s) :
    wpe (fdArrayAlloc t fd) (fun k s' => (Holding inos loose i b s' ∧ s'.vol = s.vol ∧ s'.node = s.node) ∧
      (s'.fdArray t k).status = .init)
      (fun _ => Holding inos loose i b) (fun _ => True) s := by
  have hfound : ∀ k, wpe (fdArrayFound t k) (fun k s' => (Holding inos loose i b s' ∧ s'.vol = s.vol ∧
      s'.node = s.node) ∧ (s'.fdArray t k).status = .init) (fun _ => Holding inos loose i b)
      (fun _ => True) s := fun k => by
    simp only [fdArrayFound, file, wpe_bind, wpe_get, wpe_pure, wpe_demand]
    refine ⟨fun _ => ?_, fun _ => trivial⟩
    refine wpe_mono (h.wpe_setFile (fun j hj => by cases hj) fun hst _ => by cases hst) ?_
      (fun _ _ => False.elim) fun _ => id
    rintro _ s' ⟨h', hvol, hnode, hfile⟩
    exact ⟨⟨h', hvol, hnode⟩, by rw [hfile]⟩
  rw [fdArrayAlloc, getFdArray]
  simp only [wpe_bind, wpe_get, wpe_demand]
  refine ⟨fun _ => ?_, fun _ => trivial⟩
  rw [wpe_ite]
  refine ⟨fun _ => ?_, fun _ => ?_⟩
  · split
    · exact hfound _
    · exact h
  · rw [wpe_ite]
    refine ⟨fun _ => ?_, fun _ => h⟩
    rw [wpe_ite]
    exact ⟨fun _ => hfound _, fun _ => h⟩

/-- An entry that was not opened is given back. -/
theorem Holding.wpe_fdArrayFree {R : ℤ → FileSys → Prop} (h : Holding inos loose i b s)
    (hinit : (s.fdArray t fd).status = .init) :
    wpe (fdArrayFree t fd) (fun _ => Holding inos loose i b) R (fun _ => True) s := by
  simp only [fdArrayFree, file, wpe_bind, wpe_get, wpe_pure, wpe_demand]
  refine ⟨fun _ => ?_, fun _ => trivial⟩
  rw [if_neg (by rw [hinit]; simp)]
  exact wpe_mono (h.wpe_setFile (h.tree.nodes t fd) fun hst _ => by cases hst) (fun _ _ hw => hw.1)
    (fun _ _ => id) fun _ => id

/-- **`file_open`** of a path that leads to the file, if anywhere. -/
theorem Holding.wpe_fileOpen (h : Holding inos loose i b s) (hd : dir ∈ inos)
    (hcached : (s.node dir).cached = true) (href : 0 < (s.node dir).refCount)
    (hlead : ∀ j, Found s.vol dir path j → j = i) :
    wpe (fileOpen t dir path flags)
      (fun _ => Holding inos loose i (if cuts flags = true then [] else b))
      (fun _ => Holding inos loose i b) (fun _ => True) s := by
  rw [fileOpen, wpe_ite]
  refine ⟨fun _ => h, fun _ => ?_⟩
  rw [wpe_bind]
  refine wpe_mono h.wpe_fdArrayAlloc ?_ (fun _ _ => id) fun _ => id
  rintro fd s₁ ⟨⟨h₁, hvol, hnode⟩, hinit⟩
  rw [wpe_bind, wpe_onError]
  refine wpe_mono (h₁.wpe_vfsOpen hd (by rw [hnode]; exact hcached) (by rw [hnode]; exact href)
    (by rw [hvol]; exact hlead)) ?_ (fun e s₂ hs => ?_) fun _ => id
  · rintro j s₂ ⟨rfl, h₂, href₂, htable⟩
    have hinit₂ : (s₂.fdArray t fd).status = .init := by rw [htable]; exact hinit
    generalize (if cuts flags = true then [] else b) = b' at h₂ ⊢
    -- the entry is filled in, and opened
    have hend : ∀ s₃, Holding inos loose j b' s₃ → 0 < (s₃.node j).refCount → wpe (do
        setFile t fd fun f => { f with
          node := some j
          readable := flags &&& O_ACCMODE ≠ 1
          writable := flags &&& O_ACCMODE ≠ 0 }
        fdArrayOpen t fd
        return fd : Call ℕ) (fun _ => Holding inos loose j b') (fun _ => Holding inos loose j b)
        (fun _ => True) s₃ := fun s₃ h₃ href₃ => by
      rw [wpe_bind]
      refine wpe_mono (h₃.wpe_setFile (fun k hk => ?_) fun _ _ => href₃) ?_ (fun _ _ => False.elim)
        fun _ => id
      · obtain rfl := Option.some.inj hk
        exact h₃.regular.mem
      rintro _ s₄ ⟨h₄, -, hnode₄, -⟩
      simp only [fdArrayOpen, file, wpe_bind, wpe_get, wpe_pure, wpe_demand]
      refine ⟨fun _ => ?_, fun _ => trivial⟩
      exact wpe_mono (h₄.wpe_setFile (h₄.tree.nodes t fd) fun _ _ => by rw [hnode₄]; exact href₃)
        (fun _ _ hw => hw.1) (fun _ _ => False.elim) fun _ => id
    rw [wpe_bind]
    refine wpe_mono (h₂.wpe_stamp rfl rfl) ?_ (fun _ _ => False.elim) fun _ => id
    rintro _ s₃ ⟨h₃, -, hnode₃, -⟩
    have href₃ : 0 < (s₃.node j).refCount := by rw [hnode₃]; exact href₂
    dsimp only
    rw [wpe_ite]
    refine ⟨fun _ => ?_, fun _ => hend s₃ h₃ href₃⟩
    rw [wpe_bind]
    refine wpe_vopOp ?_
    rw [wpe_bind, wpe_get, wpe_bind]
    refine wpe_mono (h₃.wpe_stamp rfl rfl) ?_ (fun _ _ => False.elim) fun _ => id
    rintro _ s₄ ⟨h₄, -, hnode₄, -⟩
    exact hend s₄ h₄ (by rw [hnode₄]; exact href₃)
  · exact hs.1.wpe_fdArrayFree (by rw [hs.2]; exact hinit)

/-! ## Whole runs -/

/-- A call on descriptors of the file. -/
inductive AppendOp where
  | fileOpen (t dir : ℕ) (path : List UInt8) (flags : ℕ)
  | fileWrite (t : ℕ) (fd : ℤ) (buf : ℕ → UInt8) (len : ℕ)
  | fileSeek (t : ℕ) (fd pos : ℤ) (whence : ℕ)

/-- What is written down of a run: the descriptors opened with `O_APPEND`, the bytes of the file when
something else than an append last changed it, and what was appended since. -/
structure Record where
  append : ℕ → ℕ → Bool
  base : List UInt8
  log : List (List UInt8)

namespace AppendOp

/-- The call: the descriptor opened, or the bytes written. -/
def run : AppendOp → Call ℕ
  | .fileOpen t dir path flags => Fs.fileOpen t dir path flags
  | .fileWrite t fd buf len => do return (← Fs.fileWrite t fd buf len).alen
  | .fileSeek t fd pos whence => do
    Fs.fileSeek t fd pos whence
    return 0

/-- **The calls in question**: an open from a directory that is referred to, of a path that leads to
the file, and writes and seeks on its descriptors, for which there is room. -/
def Legal (inos : Finset ℕ) (i : ℕ) (s : FileSys) : AppendOp → Prop
  | .fileOpen _ dir path _ => dir ∈ inos ∧ (s.node dir).cached = true ∧ 0 < (s.node dir).refCount ∧
    ∀ j, Found s.vol dir path j → j = i
  | .fileWrite t fd _ len => OnFile s i t fd ∧ WriteRoom s i t fd len
  | .fileSeek t fd pos whence => OnFile s i t fd ∧ SeekRoom s i t fd pos whence

/-- **The condition under which `O_APPEND` appends**: a write through such a descriptor finds it at the
end of the file. -/
def Appends (i : ℕ) (r : Record) (s : FileSys) : AppendOp → Prop
  | .fileWrite t fd _ len => r.append t fd.toNat = true → AtEnd s i t fd len
  | .fileOpen _ _ _ _ | .fileSeek _ _ _ _ => True

end AppendOp

namespace Record

/-- The file was changed by something else than an append, and is now `b`. -/
def restart (r : Record) (b : List UInt8) : Record := { r with base := b, log := [] }

/-- What is written down of a call that takes `s` to `s'`; one that fails has changed nothing. -/
def next (r : Record) (i : ℕ) (s s' : FileSys) : AppendOp → Except ℤ ℕ → Record
  | .fileOpen t _ _ flags, .ok fd =>
    { if cuts flags = true then r.restart [] else r with
      append := Function.update r.append t (Function.update (r.append t) fd (has flags O_APPEND)) }
  | .fileWrite t fd buf len, .ok _ =>
    if r.append t fd.toNat = true then { r with log := r.log ++ [chunk buf len] }
    else r.restart (bytes s'.vol i)
  | .fileSeek t fd pos whence, .ok _ =>
    if lengthens s i t fd pos whence = true then r.restart (bytes s'.vol i) else r
  | _, .error _ => r

/-- What the record says of the bytes of the file. -/
def bytes (r : Record) : List UInt8 := r.base ++ r.log.flatten

end Record

/-- The states that a run of such calls reaches, each call under its condition, with its record. -/
inductive AppendRun (inos : Finset ℕ) (i : ℕ) (s : FileSys) : Record → FileSys → Prop
  | start (append : ℕ → ℕ → Bool) : AppendRun inos i s ⟨append, bytes s.vol i, []⟩ s
  | step {r : Record} {s₁ s₂ : FileSys} {ret : Except ℤ ℕ} (op : AppendOp) : AppendRun inos i s r s₁ →
    op.Legal inos i s₁ → op.Appends i r s₁ → op.run.run s₁ = .ok (ret, s₂) →
    AppendRun inos i s (r.next i s₁ s₂ op ret) s₂

/-- **One call** under its condition. -/
theorem Holding.next {r : Record} {ret : Except ℤ ℕ} {op : AppendOp}
    (h : Holding inos loose i r.bytes s) (hlegal : op.Legal inos i s) (happ : op.Appends i r s)
    (hrun : op.run.run s = .ok (ret, s')) :
    Holding inos loose i (r.next i s s' op ret).bytes s' := by
  cases op with
  | fileOpen t dir path flags =>
    obtain ⟨hd, hcached, href, hlead⟩ := hlegal
    have hnext := wp_of_ok (h.wpe_fileOpen hd hcached href hlead) hrun
    cases ret with
    | error => exact hnext
    | ok fd =>
      have hsame : (r.next i s s' (.fileOpen t dir path flags) (.ok fd)).bytes =
          if cuts flags = true then [] else r.bytes := by
        rw [Record.next, Record.bytes]
        split <;> rfl
      rw [hsame]
      exact hnext
  | fileWrite t fd buf len =>
    obtain ⟨hon, hroom⟩ := hlegal
    have hwp : wpe (AppendOp.fileWrite t fd buf len).run (fun n s' =>
        Holding inos loose i (bytes s'.vol i) s' ∧
        (AtEnd s i t fd len → bytes s'.vol i = r.bytes ++ chunk buf len))
        (fun _ => Holding inos loose i r.bytes) (fun _ => True) s := by
      rw [AppendOp.run, wpe_bind]
      exact wpe_mono (h.wpe_fileWrite hon hroom) (fun _ _ hw => ⟨hw.1, fun hat => (hw.2 hat).2⟩)
        (fun _ _ => id) fun _ => id
    have hnext := wp_of_ok hwp hrun
    cases ret with
    | error => exact hnext
    | ok n =>
      obtain ⟨hheld, hend⟩ := hnext
      rw [Record.next]
      split
      · next happend =>
        rw [hend (happ happend)] at hheld
        rw [Record.bytes, List.flatten_append, ← List.append_assoc, List.flatten_singleton]
        exact hheld
      · rw [Record.restart, Record.bytes, List.flatten_nil, List.append_nil]
        exact hheld
  | fileSeek t fd pos whence =>
    obtain ⟨hon, hroom⟩ := hlegal
    have hwp : wpe (AppendOp.fileSeek t fd pos whence).run (fun n s' =>
        Holding inos loose i (bytes s'.vol i) s' ∧
        (¬ lengthens s i t fd pos whence = true → bytes s'.vol i = r.bytes))
        (fun _ => Holding inos loose i r.bytes) (fun _ => True) s := by
      rw [AppendOp.run, wpe_bind]
      exact wpe_mono (h.wpe_fileSeek hon hroom) (fun _ _ => id) (fun _ _ => id) fun _ => id
    have hnext := wp_of_ok hwp hrun
    cases ret with
    | error => exact hnext
    | ok n =>
      obtain ⟨hheld, hend⟩ := hnext
      rw [Record.next]
      split
      · rw [Record.restart, Record.bytes, List.flatten_nil, List.append_nil]
        exact hheld
      · next hno =>
        rw [hend hno] at hheld
        exact hheld

/-- **`O_APPEND` over whole runs**: under the condition, the file is what was appended to it since
something else last changed it, and a write through such a descriptor puts all of its bytes behind those
that are there. -/
theorem append_run {r : Record} (h : Holding inos loose i b s₀)
    (hrun : AppendRun inos i s₀ r s) :
    bytes s.vol i = r.base ++ r.log.flatten ∧
      ∀ t fd buf len p s', r.append t fd.toNat = true → OnFile s i t fd → WriteRoom s i t fd len →
        AtEnd s i t fd len → (fileWrite t fd buf len).run s = .ok (.ok p, s') →
        p.alen = len ∧ bytes s'.vol i = bytes s.vol i ++ chunk buf len := by
  have hheld : Holding inos loose i r.bytes s := by
    induction hrun with
    | start =>
      rw [Record.bytes, List.flatten_nil, List.append_nil, h.contents]
      exact h
    | step op _ hlegal happ hstep ih => exact ih.next hlegal happ hstep
  refine ⟨hheld.contents, fun t fd buf len p s' _ hon hroom hat hwrite => ?_⟩
  have hnext := wp_of_ok (hheld.wpe_fileWrite hon hroom) hwrite
  rw [hheld.contents]
  exact hnext.2 hat

/-! ## The root directory with one file, again -/

theorem rootFiles_holding : Holding {1, 4} ∅ 4 (bytes (rootFiles 16).vol 4) (rootFiles 16) where
  tree := Vfs.rootFiles_tree
  regular := by
    refine ⟨rootVolume_owned (by norm_num) (by norm_num), by decide, rfl, ⟨by decide, fun k hk => ?_⟩,
      by decide⟩
    obtain rfl : k = 0 := Nat.lt_one_iff.mp hk
    exact fun h0 => absurd (rootVolume_bmap.symm.trans h0) (by decide)
  sound := fun ⟨_, hf⟩ => hf rfl
  held t fd hst := nomatch hst
  contents := rfl

/-- A path of the root directory leads to the file, if anywhere. -/
theorem rootFiles_lead {j : ℕ} (h : Found (rootFiles 16).vol 1 [97] j) : j = 4 := by
  rw [Found, if_neg (by simp)] at h
  obtain ⟨slot, -, -, hnames, -⟩ := h
  exact rootVolume_names hnames

/-- `O_WRONLY | O_APPEND`. -/
def appendFlags : ℕ := 1 + O_APPEND

/-- The file is opened to append, and a byte is written at its end. -/
def appendedOnce : Bool :=
  match (fileOpen 0 1 [97] appendFlags).run (rootFiles 16) with
  | .ok (.ok 0, s₁) =>
    match (AppendOp.fileWrite 0 0 (fun _ => 98) 1).run.run s₁ with
    | .ok (.ok 1, _) => decide ((s₁.fdArray 0 0).node = some 4 ∧ (s₁.fdArray 0 0).pos = 1 ∧
        (s₁.vol.inode 4).size = 1 ∧ missing s₁.vol 4 1 ≤ s₁.vol.unusedBlocks)
    | _ => false
  | _ => false

/-- One descriptor appends a byte. -/
theorem append_run_root : ∃ r s, AppendRun {1, 4} 4 (rootFiles 16) r s ∧ r.log = [[98]] ∧
    bytes s.vol 4 = bytes (rootFiles 16).vol 4 ++ [98] := by
  have hrun : appendedOnce = true := by decide +kernel
  unfold appendedOnce at hrun
  split at hrun
  · next s₁ h₁ =>
    split at hrun
    · next s₂ h₂ =>
      obtain ⟨hnode, hpos, hsize, hfree⟩ := of_decide_eq_true hrun
      have hopen : (AppendOp.fileOpen 0 1 [97] appendFlags).Legal {1, 4} 4 (rootFiles 16) :=
        ⟨by decide, rfl, Nat.one_pos, fun _ => rootFiles_lead⟩
      have hwrite : (AppendOp.fileWrite 0 0 (fun _ => 98) 1).Legal {1, 4} 4 s₁ := by
        refine ⟨fun _ => hnode, fun _ => ?_⟩
        change Room s₁.vol 4 ((s₁.fdArray 0 0).pos.toNat + 1)
        rw [hpos]
        exact ⟨by norm_num, hfree⟩
      have hat : AtEnd s₁ 4 0 0 1 := .inr (by
        change (s₁.fdArray 0 0).pos = _
        rw [hpos, hsize]
        rfl)
      have hreach := AppendRun.step (.fileWrite 0 0 (fun _ => 98) 1)
        (.step (.fileOpen 0 1 [97] appendFlags) (.start fun _ _ => false) hopen trivial h₁) hwrite
        (fun _ => hat) h₂
      exact ⟨_, s₂, hreach, rfl, (append_run rootFiles_holding hreach).1⟩
    · exact absurd hrun (by decide)
  · exact absurd hrun (by decide)

/-- The file is opened to append twice, and a byte is written by each descriptor. -/
def appendedTwice : Bool :=
  match (fileOpen 0 1 [97] appendFlags).run (rootFiles 16) with
  | .ok (.ok 0, s₁) =>
    match (fileOpen 0 1 [97] appendFlags).run s₁ with
    | .ok (.ok 1, s₂) =>
      match (AppendOp.fileWrite 0 0 (fun _ => 98) 1).run.run s₂ with
      | .ok (.ok 1, s₃) =>
        match (AppendOp.fileWrite 0 1 (fun _ => 99) 1).run.run s₃ with
        | .ok (.ok 1, s₄) => decide (bytes s₃.vol 4 = [0, 98] ∧ bytes s₄.vol 4 = [0, 99])
        | _ => false
      | _ => false
    | _ => false
  | _ => false

/-- **Two descriptors overwrite each other**: both are opened with `O_APPEND` on the file, which holds
one byte, and each writes one byte.  The second is put over the first. -/
theorem append_twice : ∃ s₁ s₂ s₃ s₄,
    (fileOpen 0 1 [97] appendFlags).run (rootFiles 16) = .ok (.ok 0, s₁) ∧
    (fileOpen 0 1 [97] appendFlags).run s₁ = .ok (.ok 1, s₂) ∧
    (AppendOp.fileWrite 0 0 (fun _ => 98) 1).run.run s₂ = .ok (.ok 1, s₃) ∧
    (AppendOp.fileWrite 0 1 (fun _ => 99) 1).run.run s₃ = .ok (.ok 1, s₄) ∧
    bytes s₃.vol 4 = [0, 98] ∧ bytes s₄.vol 4 = [0, 99] ∧ bytes s₄.vol 4 ≠ bytes s₃.vol 4 ++ [99] := by
  have hrun : appendedTwice = true := by decide +kernel
  unfold appendedTwice at hrun
  split at hrun
  · next s₁ h₁ =>
    split at hrun
    · next s₂ h₂ =>
      split at hrun
      · next s₃ h₃ =>
        split at hrun
        · next s₄ h₄ =>
          obtain ⟨hfirst, hsecond⟩ := of_decide_eq_true hrun
          refine ⟨s₁, s₂, s₃, s₄, h₁, h₂, h₃, h₄, hfirst, hsecond, ?_⟩
          rw [hfirst, hsecond]
          decide
        · exact absurd hrun (by decide)
      · exact absurd hrun (by decide)
    · exact absurd hrun (by decide)
  · exact absurd hrun (by decide)

end UCore.Fs
