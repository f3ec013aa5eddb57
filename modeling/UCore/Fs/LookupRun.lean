import UCore.Fs.Lookup
import UCore.Fs.ReadOnly

/-!
# Fs/LookupRun — what a path leads to

A lookup hands back the inode that the path leads to, with one more reference, or an error code, and
then it has changed no count.  It takes the rest of the path after the device for one name: a path of
several components ends in an error, and one whose rest is longer than a name stops the kernel.

    Starts ──▸ start, rest        Walk over the components of rest
-/

namespace UCore.Sfs

open Act

variable {v w : Volume} {inos loose : Finset ℕ} {i d k n b slot count : ℕ} {name : List UInt8}
  {E : Assertion → Prop} {α : Type}

/-! ## Reading a directory of a consistent volume -/

theorem Ticked.owned (h : Ticked v w) (hv : Owned inos loose v) : Owned inos loose w := by
  obtain ⟨n, rfl⟩ := h
  refine hv.frame ⟨rfl, rfl, rfl, rfl, rfl⟩ fun r _ => ?_
  cases r <;> rfl

/-- **It stops nowhere.** -/
def Runs (m : Call α) (v : Volume) : Prop :=
  wpe m (fun _ _ => True) (fun _ _ => True) (fun _ => False) v

/-- What a call does if it does not stop, it does. -/
theorem Runs.wpe {m : Call α} {Q : α → Volume → Prop} {R : ℤ → Volume → Prop} (hr : Runs m v)
    (h : Act.wpe m Q R (fun _ => True) v) : Act.wpe m Q R E v :=
  wpe_mono (wpe_and h hr) (fun _ _ => And.left) (fun _ _ => And.left) fun _ he => he.2.elim

theorem runs_rbuf {len b offset : ℕ} (h : Fits v) (hb : InRange v b) (hoff : offset < 4096)
    (hlen : offset + len ≤ 4096) : Runs (sfsRbuf len b offset) v :=
  wpe_sfsRbuf h hb hoff hlen trivial fun _ _ _ => trivial

/-- A block that is referred to is in use. -/
theorem wpe_inuse_ref {Q : Bool → Volume → Prop} {R : ℤ → Volume → Prop} {r : Ref}
    (h : Owned inos loose v) (hr : r.Valid inos) (hb : refBlock v r = b) (h0 : b ≠ 0) (hQ : Q true v) :
    Act.wpe (sfsBlockInuse b) Q R E v := by
  subst hb
  obtain ⟨hfile, hbit⟩ := h.refs r hr h0
  refine wpe_sfsBlockInuse h.mapped.covers hfile.1 ?_
  rw [hbit]
  exact hQ

/-- **Loading a block that the file has** finds it. -/
theorem runs_load (h : Owned inos loose v) (hi : i ∈ inos) (hk : k < (v.inode i).blocks)
    (hlt : k < 1036) (hb : bmap v i k ≠ 0) : Runs (sfsBmapLoadNolock i k) v := by
  have hcreate : decide (k = (v.inode i).blocks) = false := decide_eq_false hk.ne
  -- the two tests that the block is in use
  have hend : ∀ w, Ticked v w → Runs (do
      if bmap v i k ≠ 0 then
        Act.demand .mapInuse (← sfsBlockInuse (bmap v i k))
      pure (bmap v i k) : Call ℕ) w := fun w hw => by
    rw [Runs, wpe_ite]
    refine ⟨fun _ => ?_, fun hno => absurd hb hno⟩
    rw [wpe_bind]
    refine wpe_inuse_ref (r := .block i k) (hw.owned h) ⟨hi, hlt⟩ (hw.bmap i k) hb ?_
    simp only [wpe_bind, wpe_demand]
    exact ⟨fun _ => trivial, fun hno => hno trivial⟩
  have hget : Runs (sfsBmapGetNolock i k false) v := by
    rw [Runs, sfsBmapGetNolock]
    dsimp only
    rw [wpe_ite]
    refine ⟨fun hk' => ?_, fun hk' => ?_⟩
    · have hmap : (v.inode i).direct k = bmap v i k := (if_pos hk').symm
      rw [wpe_bind, getDirect, wpe_bind, wpe_get, if_neg fun hc => by simp at hc, wpe_pure, hmap]
      exact hend v (.refl v)
    · have hmap : bmap v i k = if (v.inode i).indirect = 0 then 0 else
          entry v (v.inode i).indirect (k - 12) := if_neg hk'
      have hind : (v.inode i).indirect ≠ 0 := fun h0 => hb (by rw [hmap, if_pos h0])
      have hin : InRange v (v.inode i).indirect := h.inRange_of_ref (r := .indirect i) hi hind
      rw [wpe_ite]
      refine ⟨fun hlt' => ?_, fun hno => absurd (show k - 12 < 1024 by omega) hno⟩
      rw [wpe_bind, getIndirect, wpe_bind, wpe_get, wpe_bind]
      have hlt'' : k - 12 < 1024 := hlt'
      refine Runs.wpe ?_ (wpe_mono (ticked_getSub h.fits) ?_ (fun _ _ _ => trivial) fun _ => id)
      · rw [Runs, sfsBmapGetSubNolock, wpe_bind, wpe_demand]
        refine ⟨fun _ => ?_, fun hno => hno hlt'⟩
        dsimp only
        rw [if_pos hind, wpe_bind]
        refine wpe_mono (runs_rbuf h.fits hin (by change (k - 12) * 4 < 4096; omega)
          (by change (k - 12) * 4 + 4 ≤ 4096; omega)) (fun _ _ _ => ?_) (fun _ _ => id) fun _ => id
        rw [if_pos (.inr rfl)]
        trivial
      · rintro _ w ⟨rfl, hw⟩
        have hq := hend w hw
        rw [hmap, if_neg hind] at hq
        dsimp only
        rw [if_neg hind, wpe_bind, wpe_get, hw.inode, if_neg (not_not.mpr rfl), wpe_pure]
        exact hq
  simp only [Runs, sfsBmapLoadNolock, wpe_bind, wpe_get, wpe_demand, hcreate]
  refine ⟨fun _ => ?_, fun hno => absurd hk.le hno⟩
  refine hget.wpe (wpe_mono (ticked_get h.fits) ?_ (fun _ _ _ => trivial) fun _ => id)
  rintro _ w ⟨⟨rfl, -⟩, hw⟩
  exact wpe_inuse_ref (r := .block i k) (hw.owned h) ⟨hi, hlt⟩ (hw.bmap i k) hb
    ⟨fun _ => trivial, fun hno => hno rfl⟩

/-- **Searching a directory** whose blocks are all there. -/
theorem runs_direntSearch (h : Owned inos loose v) (hd : d ∈ inos) (htype : (v.inode d).type = .dir)
    (hmap : ∀ k < (v.inode d).blocks, k < 1036 ∧ bmap v d k ≠ 0)
    (hn : slot + count ≤ (v.inode d).blocks) : Runs (direntSearch d name count slot) v := by
  induction count generalizing v slot with
  | zero => trivial
  | succ count ih =>
    have hslot : slot < (v.inode d).blocks := by omega
    obtain ⟨hlt, hb⟩ := hmap slot hslot
    rw [Runs, direntSearch, sfsDirentReadNolock]
    simp only [wpe_bind, wpe_get, wpe_demand, wpe_pure]
    refine ⟨fun _ => ?_, fun hno => hno ⟨htype, hslot⟩⟩
    refine (runs_load h hd hslot hlt hb).wpe (wpe_mono (ticked_load h.fits hslot) ?_
      (fun _ _ _ => trivial) fun _ => id)
    rintro _ w ⟨⟨rfl, -⟩, hw⟩
    have hown := hw.owned h
    have hsame : refBlock w (.block d slot) = bmap v d slot := hw.bmap d slot
    refine wpe_inuse_ref (r := .block d slot) hown ⟨hd, hlt⟩ hsame hb
      ⟨fun _ => ?_, fun hno => hno rfl⟩
    have hin : InRange w (bmap v d slot) :=
      hsame ▸ hown.inRange_of_ref (r := .block d slot) ⟨hd, hlt⟩ (hsame ▸ hb)
    refine (runs_rbuf hown.fits hin (by norm_num) (by norm_num)).wpe
      (wpe_mono (ticked_rbuf hown.fits) ?_ (fun _ _ _ => trivial) fun _ => id)
    rintro _ w₂ ⟨rfl, hw₂⟩
    have hall := hw.trans hw₂
    rw [wpe_ite]
    refine ⟨fun _ => trivial, fun _ => ih (hall.owned h) ?_ ?_ ?_⟩
    · rw [hall.inode]
      exact htype
    · rw [hall.inode]
      exact fun k hk => ⟨(hmap k hk).1, by rw [hall.bmap]; exact (hmap k hk).2⟩
    · rw [hall.inode]
      omega

end UCore.Sfs

namespace UCore.Fs

open Sfs Act

/-! ## Counts -/

/-- One more at `a`. -/
def oneMore {ι : Type} [DecidableEq ι] (c : ι → ℕ) (a : ι) : ι → ℕ := fun b =>
  c b + if b = a then 1 else 0

/-- One less at `a`. -/
def oneLess {ι : Type} [DecidableEq ι] (c : ι → ℕ) (a : ι) : ι → ℕ := fun b =>
  c b - if b = a then 1 else 0

section OneMore

variable {ι : Type} [DecidableEq ι] {c : ι → ℕ} {a b : ι}

@[simp] theorem oneMore_self : oneMore c a a = c a + 1 := by simp [oneMore]

theorem oneMore_of_ne (h : b ≠ a) : oneMore c a b = c b := by simp [oneMore, h]

theorem le_oneMore : c b ≤ oneMore c a b := Nat.le_add_right ..

theorem one_le_oneMore : 1 ≤ oneMore c a a := by
  rw [oneMore_self]
  exact Nat.le_add_left ..

@[simp] theorem oneLess_self : oneLess c a a = c a - 1 := by simp [oneLess]

theorem oneLess_of_ne (h : b ≠ a) : oneLess c a b = c b := by simp [oneLess, h]

/-- The one that is taken back. -/
@[simp] theorem oneLess_oneMore : oneLess (oneMore c a) a = c := by
  funext b
  simp [oneMore, oneLess]

/-- …also when another one came in between. -/
@[simp] theorem oneLess_oneMore_oneMore : oneLess (oneMore (oneMore c a) b) a = oneMore c b := by
  funext x
  simp only [oneMore, oneLess]
  omega

end OneMore

/-- **The file system `s`, with `c i` more references to the inode `i`.** -/
structure Counted (s : FileSys) (c : ℕ → ℕ) (s' : FileSys) : Prop where
  vol : Ticked s.vol s'.vol
  refs : ∀ i, (s'.node i).refCount = (s.node i).refCount + c i
  opens : ∀ i, (s'.node i).openCount = (s.node i).openCount
  cached : ∀ i, (s'.node i).cached = false → (s.node i).cached = false ∧ c i = 0

namespace Counted

variable {s s' : FileSys} {c : ℕ → ℕ} {i : ℕ} {R : ℤ → FileSys → Prop} {E : Assertion → Prop}

theorem refl (s : FileSys) : Counted s (fun _ => 0) s :=
  ⟨.refl _, fun _ => rfl, fun _ => rfl, fun _ h => ⟨h, rfl⟩⟩

/-- A volume that was only read. -/
theorem ticked {v : Volume} (h : Counted s c s') (hv : Ticked s'.vol v) :
    Counted s c { s' with vol := v } :=
  ⟨h.vol.trans hv, h.refs, h.opens, h.cached⟩

theorem asked (h : Counted s c s') : Counted s c { s' with asked := s'.asked + 1 } :=
  ⟨h.vol, h.refs, h.opens, h.cached⟩

/-- The counts of one inode. -/
theorem setNode (h : Counted s c s') (i : ℕ) (node : Node) (c' : ℕ → ℕ)
    (hc : ∀ j, j ≠ i → c' j = c j) (href : node.refCount = (s.node i).refCount + c' i)
    (hopen : node.openCount = (s.node i).openCount) (hcached : node.cached = true) :
    Counted s c' { s' with node := Function.update s'.node i node } := by
  refine ⟨h.vol, fun j => ?_, fun j => ?_, fun j hj => ?_⟩
  · rcases eq_or_ne j i with rfl | hji
    · exact (congrArg Node.refCount (Function.update_self ..)).trans href
    · exact (congrArg Node.refCount (Function.update_of_ne hji ..)).trans
        ((h.refs j).trans (by rw [hc j hji]))
  · rcases eq_or_ne j i with rfl | hji
    · exact (congrArg Node.openCount (Function.update_self ..)).trans hopen
    · exact (congrArg Node.openCount (Function.update_of_ne hji ..)).trans (h.opens j)
  · dsimp only at hj
    rcases eq_or_ne j i with rfl | hji
    · rw [Function.update_self, hcached] at hj
      exact nomatch hj
    · rw [Function.update_of_ne hji] at hj
      rw [hc j hji]
      exact h.cached j hj

/-- **`vop_ref_inc`.** -/
theorem inc (h : Counted s c s') (hi : (s'.node i).cached = true) {Q : ℕ → FileSys → Prop}
    (hQ : ∀ s'', Counted s (oneMore c i) s'' → (s''.node i).refCount = (s'.node i).refCount + 1 →
      Q ((s'.node i).refCount + 1) s'') : wpe (inodeRefInc i) Q R E s' := by
  simp only [inodeRefInc, Fs.setNode, wpe_bind, wpe_modify, wpe_get, wpe_pure,
    Function.update_self]
  refine hQ _ (h.setNode i _ (oneMore c i) (fun j hj => oneMore_of_ne hj) ?_ (h.opens i) hi)
    (by simp)
  rw [oneMore_self]
  dsimp only
  rw [h.refs i, Nat.add_assoc]

/-- **`vop_ref_dec`**, where references are left. -/
theorem dec (h : Counted s c s') (hi : (s'.node i).cached = true) (hc : 1 ≤ c i)
    (hs : 0 < (s.node i).refCount) :
    wpe (inodeRefDec i) (fun _ => Counted s (oneLess c i)) R E s' := by
  have href := h.refs i
  simp only [inodeRefDec, Fs.setNode, wpe_bind, wpe_modify, wpe_get, wpe_demand]
  refine ⟨fun _ => ?_, fun hno => absurd (show 0 < _ by omega) hno⟩
  rw [wpe_ite]
  refine ⟨fun h0 => absurd h0 (by simp only [Function.update_self]; omega), fun _ => ?_⟩
  refine h.setNode i _ (oneLess c i) (fun j hj => oneLess_of_ne hj) ?_ (h.opens i) hi
  rw [oneLess_self]
  dsimp only
  omega

end Counted

/-! ## A directory tree -/

/-- **A directory tree** on a consistent volume: its inodes are files and directories, the blocks of a
directory are all there, and no name in it has a `/`. -/
structure Tree (inos loose : Finset ℕ) (s : FileSys) : Prop extends Sound inos loose s where
  types : ∀ i ∈ inos, (s.vol.inode i).type = .file ∨ (s.vol.inode i).type = .dir
  mapped : ∀ d ∈ inos, (s.vol.inode d).type = .dir → ∀ k < (s.vol.inode d).blocks,
    k < 1036 ∧ bmap s.vol d k ≠ 0
  names : ∀ d ∈ inos, (s.vol.inode d).type = .dir → ∀ slot < 1036, ∀ name ino,
    Names s.vol d name slot ino → SLASH ∉ name
  /-- An inode that is not in memory has no references. -/
  idle : ∀ i, (s.node i).cached = false → (s.node i).refCount = 0
  opens : ∀ i, (s.node i).openCount ≤ (s.node i).refCount

variable {inos loose : Finset ℕ} {s s' : FileSys} {c : ℕ → ℕ} {i d : ℕ} {name : List UInt8}
  {E : Assertion → Prop}

/-- An error, with the counts as they were. -/
def Refused (s : FileSys) (c : ℕ → ℕ) (e : ℤ) (s' : FileSys) : Prop := e < 0 ∧ Counted s c s'

/-- Loading an inode that is in memory takes a reference to it. -/
theorem Counted.wpe_load {R : ℤ → FileSys → Prop} (hc : Counted s c s')
    (hcached : (s'.node i).cached = true) :
    wpe (sfsLoadInode i) (fun _ => Counted s (oneMore c i)) R E s' := by
  rw [sfsLoadInode, wpe_bind, wpe_get, if_pos hcached, wpe_bind]
  refine hc.inc hcached fun s₁ hc₁ href => ?_
  rw [wpe_ite]
  refine ⟨fun _ => ?_, fun _ => hc₁⟩
  rw [Fs.setNode, wpe_modify]
  refine hc₁.setNode i _ _ (fun _ _ => rfl) (hc₁.refs i) (hc₁.opens i) ?_
  refine (Bool.not_eq_false _).mp fun hf => ?_
  have h0 := (hc₁.cached i hf).2
  rw [oneMore_self] at h0
  exact Nat.succ_ne_zero _ h0

/-- **Loading an inode of the tree** takes a reference to it. -/
theorem Tree.wpe_load (h : Tree inos loose s) (hc : Counted s c s') (hi : i ∈ inos) :
    wpe (sfsLoadInode i) (fun _ => Counted s (oneMore c i)) (Refused s c) E s' := by
  by_cases hcached : (s'.node i).cached = true
  · exact hc.wpe_load hcached
  · rw [sfsLoadInode, wpe_bind, wpe_get, if_neg hcached]
    have hun : (s'.node i).cached = false := by simpa using hcached
    obtain ⟨hun₀, h0⟩ := hc.cached i hun
    have hown := hc.vol.owned h.owned
    have hi0 : i ≠ 0 := h.owned.inodes i hi
    have hneg : (-E_NO_MEM : ℤ) < 0 := by norm_num
    rw [wpe_bind]
    refine wpe_kmalloc ?_ ⟨hneg, hc.asked⟩
    simp only [onVol, wpe_bind, wpe_zoome, wpe_demand, wpe_get]
    refine wpe_inuse_ref (r := .inode i) hown hi rfl hi0 ⟨fun _ => ?_, fun hno => absurd rfl hno⟩
    have hin : InRange s'.vol i := hown.inRange_of_ref (r := .inode i) hi hi0
    refine (runs_rbuf hown.fits hin (by norm_num) (by norm_num)).wpe (wpe_mono (ticked_rbuf hown.fits) ?_ (fun e v hv => ?_) fun _ => id)
    · rintro _ v ⟨rfl, hv⟩
      have hread := hc.vol.trans hv
      -- what was read is what the inode was
      have hsame : decodeDin (v.inode i) (fun j => s'.vol.dev.data i (0 + j)) = v.inode i := by
        have hdata : (fun j => s'.vol.dev.data i (0 + j)) = s.vol.dev.data i := by
          funext j
          rw [Nat.zero_add, hc.vol.data]
        rw [hdata, hread.inode]
        exact (h.uncached i hi hun₀).2
      rw [hsame]
      refine ⟨fun _ => wpe_kmalloc ?_ ⟨hneg, (hc.asked.ticked hv).asked⟩, fun hno => ?_⟩
      · refine ⟨fun _ => ?_, fun hno => ?_⟩
        · have hset : v.setInode i (fun _ => v.inode i) = v := by
            rw [Volume.setInode, Function.update_eq_self]
          simp only [Sfs.setInode, Fs.setNode, wpe_modify, hset]
          refine (hc.asked.ticked hv).asked.setNode i ⟨true, 1, 0, 1⟩ _
            (fun j hj => oneMore_of_ne hj) ?_ ?_ rfl
          · rw [oneMore_self, h0, h.idle i hun₀]
          · have hopen := h.opens i
            rw [h.idle i hun₀] at hopen
            exact (Nat.le_zero.mp hopen).symm
        · rw [hread.inode] at hno
          exact absurd (h.types i hi) hno
      · rw [hread.inode] at hno
        exact absurd (h.dins i hi).links hno
    · exact ⟨hv.1, hc.asked.ticked hv.2⟩

/-- **Looking a name up** in a directory of the tree. -/
theorem Tree.wpe_lookupOnce (h : Tree inos loose s) (hc : Counted s c s') (hd : d ∈ inos)
    (htype : (s.vol.inode d).type = .dir) (hne : name ≠ [])
    (hlen : ¬ name.length ≤ 255 → E .nameLength) :
    wpe (sfsLookupOnce d name)
      (fun i s'' => (Found s.vol d name i ∧ SLASH ∉ name) ∧ Counted s (oneMore c i) s'')
      (Refused s c) E s' := by
  have hown := hc.vol.owned h.owned
  rw [sfsLookupOnce, sfsDirentSearchNolock]
  simp only [wpe_bind, wpe_demand, wpe_get]
  refine ⟨fun _ => wpe_kmalloc ?_ ⟨by norm_num, hc.asked⟩, hlen⟩
  have hblocks : 0 + (s'.vol.inode d).blocks ≤ (s'.vol.inode d).blocks := by rw [Nat.zero_add]
  have hruns : Runs (direntSearch d name (s'.vol.inode d).blocks 0) s'.vol := by
    refine runs_direntSearch hown hd ?_ (fun k hk => ?_) hblocks
    · rw [hc.vol.inode]
      exact htype
    · rw [hc.vol.inode] at hk
      rw [hc.vol.bmap]
      exact h.mapped d hd htype k hk
  rw [onVol, wpe_zoome]
  refine hruns.wpe (wpe_mono (ticked_direntSearch hown.fits hblocks) (fun i v hv => ?_)
    (fun e v hv => ⟨hv.1, hc.asked.ticked hv.2⟩) fun _ => id)
  obtain ⟨⟨slot, hslot, hmax, hnames, hfirst⟩, hv⟩ := hv
  have hnames₀ := hc.vol.names.mp hnames
  have hfound : Found s.vol d name i := by
    rw [Found, if_neg hne]
    refine ⟨slot, ?_, hmax, hnames₀, fun m hm j hj => ?_⟩
    · rwa [Nat.zero_add, hc.vol.inode] at hslot
    · exact hfirst m hm (Nat.zero_le m) j (hc.vol.names.mpr hj)
  have hi := h.entries d hd htype slot hmax name i hnames₀
  refine wpe_mono (h.wpe_load (hc.asked.ticked hv) hi) (fun _ s'' hs => ?_) (fun _ _ => id)
    fun _ => id
  exact ⟨⟨hfound, h.names d hd htype slot hmax name i hnames₀⟩, hs⟩

/-- **`sfs_lookup`** of one name, from a directory that is referred to; it stops where the name begins
with a slash or is longer than an entry holds. -/
theorem Tree.wpe_lookup (h : Tree inos loose s) (hc : Counted s c s') (hd : d ∈ inos)
    (htype : (s.vol.inode d).type = .dir) (hcached : (s.node d).cached = true)
    (href : 0 < (s.node d).refCount) (hne : name ≠ [])
    (hslash : name.head? = some SLASH → E .lookupPath) (hlen : ¬ name.length ≤ 255 → E .nameLength) :
    wpe (sfsLookup d name)
      (fun i s'' => (Found s.vol d name i ∧ SLASH ∉ name) ∧ Counted s (oneMore c i) s'')
      (Refused s c) E s' := by
  have hin : ∀ {c s''}, Counted s c s'' → (s''.node d).cached = true := fun hc =>
    (Bool.not_eq_false _).mp fun hf => by
      have h0 := (hc.cached d hf).1
      rw [hcached] at h0
      exact nomatch h0
  rw [sfsLookup, wpe_bind, wpe_demand]
  refine ⟨fun _ => ?_, fun hno => hslash (not_not.mp fun hhead => hno ⟨hne, hhead⟩)⟩
  rw [wpe_bind]
  refine hc.inc (hin hc) fun s₁ hc₁ _ => ?_
  simp only [wpe_andThen, wpe_bind, wpe_get]
  rw [wpe_ite, hc₁.vol.inode]
  refine ⟨fun hno => absurd htype hno, fun _ => ?_⟩
  refine wpe_mono (h.wpe_lookupOnce hc₁ hd htype hne hlen) (fun i s₂ hs => ?_) (fun e s₂ hs => ?_)
    fun _ => id
  · refine wpe_mono (hs.2.dec (hin hs.2) (one_le_oneMore.trans le_oneMore) href)
      (fun _ s₃ hs₃ => ?_) (fun _ _ => id) fun _ => id
    rw [oneLess_oneMore_oneMore] at hs₃
    exact ⟨hs.1, hs₃⟩
  · refine wpe_mono (hs.2.dec (hin hs.2) one_le_oneMore href)
      (fun _ s₃ hs₃ => ?_) (fun _ _ => id) fun _ => id
    rw [oneLess_oneMore] at hs₃
    exact ⟨hs.1, hs₃⟩

end UCore.Fs
