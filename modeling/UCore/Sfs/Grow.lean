import UCore.Sfs.Entry

/-!
# Sfs/Grow — finding a block of a file, or making it

    addEntry ─▸ getIndirect ┐
                getDirect   ┴▸ sfs_bmap_get_nolock ─▸ sfs_bmap_load_nolock

A call returns with the block map changed at the one place it is for (`Got`, `Loaded`), or reports an
error and leaves every file as it was.
-/

namespace UCore.Sfs

variable {inos loose : Finset ℕ} {v v' : Volume} {b ent i j k n : ℕ}

/-! ## New places -/

theorem Taken.tick (h : Taken v b v') : Taken v b v'.tick :=
  ⟨h.range, h.wasFree, h.freemap, h.unused, h.blocks, h.inode, h.fault, h.devBlocks, h.data⟩

theorem Owned.notMem_of_free (h : Owned inos loose v) (hfree : v.freemap.bit b = true) :
    b ∉ loose := fun hb => by
  rw [(h.looseUsed b hb).2] at hfree
  exact absurd hfree (by simp)

/-- The blocks that a new place for block `k` costs. -/
def cost (v : Volume) (i k : ℕ) : ℕ := if 12 ≤ k ∧ (v.inode i).indirect = 0 then 2 else 1

/-- **Block `k` of the file `i` is `b`**, an old one or a new cleared one, and the rest of the files
is as it was. -/
structure Got (inos loose : Finset ℕ) (v : Volume) (i k b : ℕ) (v' : Volume) : Prop where
  owned : Owned inos loose v'
  fault : v'.dev.fault = v.dev.fault
  others : ∀ j, j ≠ i → v'.inode j = v.inode j
  size : (v'.inode i).size = (v.inode i).size
  type : (v'.inode i).type = (v.inode i).type
  indirect : (v'.inode i).indirect = 0 ↔ (v.inode i).indirect = 0 ∧ (k < 12 ∨ bmap v i k = b)
  self : bmap v' i k = b
  map : ∀ j ∈ inos, ∀ m < 1036, (j, m) ≠ (i, k) → bmap v' j m = bmap v j m
  old : bmap v i k ≠ 0 → bmap v i k = b
  data : ∀ j ∈ inos, ∀ m < 1036, bmap v j m ≠ 0 →
    v'.dev.data (bmap v j m) = v.dev.data (bmap v j m)
  zero : bmap v i k ≠ b → ∀ x < 4096, v'.dev.data b x = 0
  unused : v'.unusedBlocks + (if bmap v i k = b then 0 else cost v i k) = v.unusedBlocks
  dins : ∀ j ∈ inos, v'.dev.data j = v.dev.data j

/-- `Got`, as `sfs_bmap_get_nolock` leaves it: a block that is not there stays so unless `create`. -/
structure Mapping (inos loose : Finset ℕ) (v : Volume) (i k : ℕ) (create : Bool) (b : ℕ)
    (v' : Volume) : Prop extends Got inos loose v i k b v' where
  blocks : (v'.inode i).blocks = (v.inode i).blocks
  created : create = true → b ≠ 0
  found : create = false → b = Sfs.bmap v i k

/-- The one error of a sound device: a new place is wanted, and the free blocks do not cover it. -/
def Refused (v : Volume) (i k : ℕ) (create : Bool) (e : ℤ) : Prop :=
  create = true ∧ bmap v i k = 0 ∧ e = -E_NO_MEM ∧ v.unusedBlocks < cost v i k

/-- An old block is got by reading alone. -/
theorem Got.ofKept (h : Kept inos loose v v') (hown : Owned inos loose v')
    (hu : v'.unusedBlocks = v.unusedBlocks) (hi : i ∈ inos) (hk : k < 1036) :
    Got inos loose v i k (bmap v i k) v' :=
  ⟨hown, h.fault, fun _ _ => by rw [h.inode], by rw [h.inode], by rw [h.inode], by rw [h.inode]; simp,
    h.map i hi k hk, fun j hj m hm _ => h.map j hj m hm, fun _ => rfl, h.data,
    fun hne => absurd rfl hne, by rw [if_pos rfl, Nat.add_zero, hu], h.dins⟩

theorem Got.refl (h : Owned inos loose v) (hi : i ∈ inos) (hk : k < 1036) :
    Got inos loose v i k (bmap v i k) v :=
  .ofKept (.refl h) h rfl hi hk

theorem Got.tick (h : Owned inos loose v) (hi : i ∈ inos) (hk : k < 1036) :
    Got inos loose v i k (bmap v i k) v.tick :=
  .ofKept (.tick h) (h.frame ⟨rfl, rfl, rfl, rfl, rfl⟩ fun r _ => by cases r <;> rfl) rfl hi hk

section Calls

variable {R : ℤ → Volume → Prop} {E : Assertion → Prop}

/-- **`addEntry`** takes a block and stores it, or undoes what it did. -/
theorem wpe_addEntry {Q : ℕ × ℕ → Volume → Prop} {entp : ℕ} (h : Owned inos loose v)
    (hent : InRange v ent) (hk : k < 1024)
    (hQ : ∀ b v₁, Allocated v b v₁ → Q (ent, b) (v₁.setEntry ent k b))
    (hR : ∀ e < 0, ∀ w, Kept inos loose v w →
      (¬ Faulty v → e = -E_NO_MEM ∧ v.unusedBlocks = 0) →
      Act.wpe (if ent ≠ entp then sfsBlockFree ent else pure ()) (fun _ => R e) R E w) :
    Act.wpe (addEntry entp ent (k * 4)) Q R E v := by
  rw [addEntry, Act.wpe_onError, Act.wpe_bind]
  refine h.wpe_alloc (fun b v₁ ha => ?_)
    (fun h0 => hR _ (by norm_num) v (.refl h) fun _ => ⟨rfl, h0⟩)
    (fun e he b v' hf ht => hR e he v' (.taken h hf ht) fun hno => absurd hf hno)
  have hown := h.alloc ha.toTaken
  have hloose := h.notMem_of_free ha.wasFree
  have hrange : ∀ {c}, InRange v c → InRange v₁ c := fun hc => ⟨hc.1, ha.blocks ▸ hc.2⟩
  -- a transfer that fails here leaves the new block in use: it is given back
  have hundo : ∀ e < 0, ∀ w, Faulty v₁ → Kept inos (insert b loose) v₁ w → InRange w b →
      Act.wpe (sfsBlockFree b) (fun _ s => Act.wpe
        (if ent ≠ entp then sfsBlockFree ent else pure ()) (fun _ => R e) R E s)
        (fun e s => Act.wpe
          (if ent ≠ entp then sfsBlockFree ent else pure ()) (fun _ => R e) R E s) E w := by
    intro e he w hf hw hbw
    obtain ⟨loose', hsub, hown'⟩ := hw.owned
    refine hown'.wpe_free hbw (hown'.looseUsed b (hsub (Finset.mem_insert_self ..))).2 fun v' hfr =>
      hR e he v' (.unwind h ha.toTaken hloose hw hfr) fun hno => absurd ?_ hno
    unfold Faulty at hf ⊢
    rwa [← ha.fault]
  rw [Act.wpe_bind, Act.wpe_onError]
  refine wpe_sfsWbuf hown.fits (hrange hent) (by omega) (by omega) (hQ b v₁ ha) fun e he hf => ?_
  have htick := Kept.tick hown
  exact ⟨hundo e he _ hf htick (hrange ha.range), hundo e he _ hf
    (htick.trans fun _ _ ho => .tick ho) (hrange ha.range)⟩

/-- The volume with the entry block `ent` given to the inode `i`. -/
abbrev Volume.setIndirect (v : Volume) (i ent : ℕ) : Volume :=
  v.setInode i fun din => { din with indirect := ent, dirty := true }

/-- A cleared entry block has no entries, so giving one to an inode changes no block map. -/
theorem Owned.linkIndirect (h : Owned inos loose v) (hent : ent ∈ loose) (hi : i ∈ inos)
    (h0 : (v.inode i).indirect = 0) (hclear : ∀ x < 4096, v.dev.data ent x = 0) :
    Owned inos (loose.erase ent) (v.setIndirect i ent) ∧
      ∀ j m, m < 1036 → bmap (v.setIndirect i ent) j m = bmap v j m := by
  have hent0 : ent ≠ 0 := (h.looseUsed ent hent).1.1.1
  have hbmap : ∀ j m, m < 1036 → bmap (v.setIndirect i ent) j m = bmap v j m := fun j m hm => by
    rcases eq_or_ne j i with rfl | hji
    · unfold bmap
      rw [setInode_self, h0]
      dsimp only
      split
      · rfl
      · rw [if_pos rfl]
        exact decodeU32_congr (g := fun _ => 0) fun x hx => hclear _ (by omega)
    · unfold bmap
      rw [setInode_of_ne hji]
      rfl
  refine ⟨h.link hent (r := .indirect i) hi h0 ⟨rfl, rfl, rfl, rfl, rfl⟩ ?_ fun r hr hne => ?_, hbmap⟩
  · exact congrArg SfsInode.indirect setInode_self
  · cases r with
    | inode j => rfl
    | indirect j =>
      have hji : j ≠ i := fun heq => hne (heq ▸ rfl)
      exact congrArg SfsInode.indirect (setInode_of_ne hji)
    | block j m => exact hbmap j m hr.2

theorem Got.ofTick (h : Got inos loose v.tick i k b v') : Got inos loose v i k b v' :=
  ⟨h.owned, h.fault, h.others, h.size, h.type, h.indirect, h.self, h.map, h.old, h.data, h.zero,
    h.unused, h.dins⟩

theorem Got.setInode {f : SfsInode → SfsInode} (h : Got inos loose v i k b v')
    (hdirect : (f (v'.inode i)).direct = (v'.inode i).direct)
    (hindirect : (f (v'.inode i)).indirect = (v'.inode i).indirect)
    (hsize : (f (v'.inode i)).size = (v'.inode i).size)
    (htype : (f (v'.inode i)).type = (v'.inode i).type) :
    Got inos loose v i k b (v'.setInode i f) := by
  have hmap : ∀ j m, Sfs.bmap (v'.setInode i f) j m = Sfs.bmap v' j m := fun j m =>
    refs_setInode (r := .block j m) hdirect hindirect
  refine ⟨h.owned.setInode hdirect hindirect, h.fault, fun j hj => ?_, ?_, ?_, ?_, ?_,
    fun j hj m hm hjm => ?_, h.old, h.data, h.zero, h.unused, h.dins⟩
  · rw [setInode_of_ne hj, h.others j hj]
  · rw [setInode_self, hsize, h.size]
  · rw [setInode_self, htype, h.type]
  · rw [setInode_self, hindirect, h.indirect]
  · rw [hmap, h.self]
  · rw [hmap, h.map j hj m hm hjm]

/-- A loose cleared block stored in an empty entry of the file `i`, after steps that moved no block of
a file. -/
theorem Got.ofLink {u : Volume} {loose' : Finset ℕ} (hi : i ∈ inos) (hk : k < 1024)
    (hu : Owned inos loose' u) (hb : b ∈ loose') (hloose : loose'.erase b = loose)
    (h0 : (u.inode i).indirect ≠ 0) (hempty : bmap v i (12 + k) = 0)
    (hclear : ∀ x < 4096, u.dev.data b x = 0) (hfault : u.dev.fault = v.dev.fault)
    (hothers : ∀ j, j ≠ i → u.inode j = v.inode j) (hsize : (u.inode i).size = (v.inode i).size)
    (htype : (u.inode i).type = (v.inode i).type)
    (hmap : ∀ j ∈ inos, ∀ m < 1036, bmap u j m = bmap v j m)
    (hdata : ∀ j ∈ inos, ∀ m < 1036, bmap v j m ≠ 0 →
      u.dev.data (bmap v j m) = v.dev.data (bmap v j m))
    (hunused : u.unusedBlocks + cost v i (12 + k) = v.unusedBlocks)
    (hdins : ∀ j ∈ inos, u.dev.data j = v.dev.data j) :
    Got inos loose v i (12 + k) b (u.setEntry (u.inode i).indirect k b) := by
  have hk' : 12 + k < 1036 := by omega
  have hb0 : b ≠ 0 := (hu.looseUsed b hb).1.1.1
  have hself : bmap (u.setEntry (u.inode i).indirect k b) i (12 + k) = b :=
    Owned.bmap_setEntry_self h0 hk (hu.lt_of_fileBlock (hu.looseUsed b hb).1.1)
  have hne : b ≠ (u.inode i).indirect := (hu.looseUnheld b hb (.indirect i) hi).symm
  refine ⟨hloose ▸ hu.linkEntry hb hi hk h0 (by rw [hmap i hi _ hk', hempty]), hfault, hothers, hsize,
    htype, ?_, hself, fun j hj m hm hjm => ?_, fun hold => absurd hempty hold,
    fun j hj m hm hold => ?_, fun _ x hx => ?_, ?_, fun j hj => ?_⟩
  · rw [setEntry_inode, hempty]
    exact ⟨fun h => absurd h h0, by rintro ⟨-, h | h⟩ <;> [omega; exact absurd h.symm hb0]⟩
  · rw [← hmap j hj m hm]
    refine hu.refs_setEntry (r := .block j m) hi hk h0 ⟨hj, hm⟩ fun heq => hjm ?_
    cases heq
    rfl
  · have hother : bmap v j m ≠ (u.inode i).indirect := by
      rw [← hmap j hj m hm] at hold ⊢
      exact hu.block_ne_indirect hi hj hm hold
    rw [setEntry_data_of_ne hother]
    exact hdata j hj m hm hold
  · rw [setEntry_data_of_ne hne]
    exact hclear x hx
  · rw [hempty, if_neg hb0.symm]
    exact hunused
  · rw [setEntry_data_of_ne (hu.inode_ne_indirect hi hj), hdins j hj]

/-- A new entry in an entry block that is there. -/
theorem Got.newEntry (h : Owned inos loose v) (hi : i ∈ inos) (hk : k < 1024)
    (h0 : (v.inode i).indirect ≠ 0) (hempty : bmap v i (12 + k) = 0) (ha : Allocated v b v') :
    Got inos loose v i (12 + k) b (v'.setEntry (v.inode i).indirect k b) := by
  have ht := ha.toTaken
  have hcost : cost v i (12 + k) = 1 := if_neg fun hc => h0 hc.2
  have hmap : ∀ j ∈ inos, ∀ m < 1036, bmap v' j m = bmap v j m := fun j hj m hm =>
    h.refs_alloc ht (r := .block j m) ⟨hj, hm⟩
  have := Got.ofLink (v := v) (u := v') hi hk (h.alloc ht) (Finset.mem_insert_self ..)
    (Finset.erase_insert (h.notMem_of_free ha.wasFree)) (by rwa [ha.inode]) hempty ha.cleared
    ha.fault (fun _ _ => by rw [ha.inode]) (by rw [ha.inode]) (by rw [ha.inode]) hmap
    (fun j hj m hm hold => ha.data _ (h.ne_of_free ha.wasFree (r := .block j m) ⟨hj, hm⟩ hold))
    (by rw [hcost, ha.unused]) fun _ => h.dins_taken ht
  rwa [ha.inode] at this

/-- …and in a new one. -/
theorem Got.newIndirect {v₁ : Volume} (h : Owned inos loose v) (hi : i ∈ inos) (hk : k < 1024)
    (h0 : (v.inode i).indirect = 0) (hempty : bmap v i (12 + k) = 0) (ha : Allocated v ent v₁)
    (hb : Allocated v₁ b v') :
    Got inos loose v i (12 + k) b ((v'.setEntry ent k b).setIndirect i ent) := by
  have ht := ha.toTaken
  have hown₁ := h.alloc ht
  have hown₂ := hown₁.alloc hb.toTaken
  have hent : ent ∉ loose := h.notMem_of_free ha.wasFree
  have hbl : b ∉ insert ent loose := hown₁.notMem_of_free hb.wasFree
  have hbe : b ≠ ent := fun heq => hbl (heq ▸ Finset.mem_insert_self ..)
  have hinode : v'.inode = v.inode := hb.inode.trans ha.inode
  have hcost : cost v i (12 + k) = 2 := if_pos ⟨by omega, h0⟩
  obtain ⟨hown, hlink⟩ := hown₂.linkIndirect
    (Finset.mem_insert_of_mem (Finset.mem_insert_self ent loose)) hi (by rw [hinode, h0])
    (fun x hx => by rw [hb.data ent hbe.symm]; exact ha.cleared x hx)
  have hmap₁ : ∀ j ∈ inos, ∀ m < 1036, bmap v₁ j m = bmap v j m := fun j hj m hm =>
    h.refs_alloc ht (r := .block j m) ⟨hj, hm⟩
  have hmap : ∀ j ∈ inos, ∀ m < 1036, bmap (v'.setIndirect i ent) j m = bmap v j m :=
    fun j hj m hm => by
      rw [hlink j m hm, ← hmap₁ j hj m hm]
      exact hown₁.refs_alloc hb.toTaken (r := .block j m) ⟨hj, hm⟩
  have hloose : ((insert b (insert ent loose)).erase ent).erase b = loose := by
    rw [Finset.erase_right_comm, Finset.erase_insert hbl, Finset.erase_insert hent]
  have := Got.ofLink (v := v) (u := v'.setIndirect i ent) hi hk hown
    (Finset.mem_erase.mpr ⟨hbe, Finset.mem_insert_self ..⟩) hloose
    (by rw [setInode_self]; exact (hown₁.looseUsed ent (Finset.mem_insert_self ..)).1.1.1) hempty
    hb.cleared (hb.fault.trans ha.fault)
    (fun j hj => by rw [setInode_of_ne hj, hinode]) (by rw [setInode_self, hinode])
    (by rw [setInode_self, hinode]) hmap
    (fun j hj m hm hold => by
      have hold₁ : bmap v₁ j m ≠ 0 := by rwa [hmap₁ j hj m hm]
      have hne := hown₁.ne_of_free hb.wasFree (r := .block j m) ⟨hj, hm⟩ hold₁
      change bmap v₁ j m ≠ b at hne
      rw [hmap₁ j hj m hm] at hne
      rw [setInode_dev, hb.data _ hne]
      exact ha.data _ (h.ne_of_free ha.wasFree (r := .block j m) ⟨hj, hm⟩ hold))
    (by
      have := ha.unused
      have := hb.unused
      rw [hcost, setInode_unusedBlocks]
      omega)
    fun j hj => (hown₁.dins_taken hb.toTaken hj).trans (h.dins_taken ht hj)
  rwa [setInode_self] at this

/-- **`sfs_bmap_get_sub_nolock`** and the store of a new entry block in the inode. -/
theorem wpe_getIndirect {Q : ℕ → Volume → Prop} {create : Bool} (h : Owned inos loose v)
    (hi : i ∈ inos) (hk : k < 1024)
    (hQ : ∀ b w, Mapping inos loose v i (12 + k) create b w → Q b w)
    (hR : ∀ e < 0, ∀ w, Kept inos loose v w → (¬ Faulty v → Refused v i (12 + k) create e) → R e w) :
    Act.wpe (getIndirect i k create) Q R E v := by
  have hmap : bmap v i (12 + k) = if (v.inode i).indirect = 0 then 0
      else entry v (v.inode i).indirect k := by
    rw [bmap, if_neg (by omega), Nat.add_sub_cancel_left]
  simp only [getIndirect, sfsBmapGetSubNolock, Act.wpe_bind, Act.wpe_get, Act.wpe_demand]
  refine ⟨fun _ => ?_, fun hno => absurd hk hno⟩
  by_cases h0 : (v.inode i).indirect = 0
  · have hempty : bmap v i (12 + k) = 0 := by rw [hmap, if_pos h0]
    rw [if_neg (not_not.mpr h0)]
    cases hcreate : create with
    | false =>
      rw [if_pos rfl, Act.wpe_pure, if_neg (not_not.mpr rfl), Act.wpe_pure]
      exact hQ 0 v ⟨hempty ▸ .refl h hi (by omega), rfl, fun hno => absurd hno (by simp [hcreate]),
        fun _ => hempty.symm⟩
    | true =>
      rw [if_neg (by simp), Act.wpe_bind]
      have hcost : cost v i (12 + k) = 2 := if_pos ⟨by omega, h0⟩
      refine h.wpe_alloc (fun ent v₁ ha => ?_)
        (fun hu => hR _ (by norm_num) v (.refl h) fun _ => ⟨hcreate, hempty, rfl, by omega⟩)
        (fun e he b v' hf ht => hR e he v' (.taken h hf ht) fun hno => absurd hf hno)
      have ht := ha.toTaken
      have hloose := h.notMem_of_free ha.wasFree
      have hent0 : ent ≠ (v.inode i).indirect := h0 ▸ ha.range.1
      have hrange : InRange v₁ ent := ⟨ha.range.1, ha.blocks ▸ ha.range.2⟩
      refine wpe_addEntry (h.alloc ht) hrange hk (fun b v₂ hb => ?_) fun e he w hw hexact => ?_
      · have hgot := Got.newIndirect h hi hk h0 hempty ha hb
        have hinode : v₂.inode = v.inode := hb.inode.trans ha.inode
        rw [setEntry_inode, hinode, if_pos hent0]
        simp only [Act.wpe_bind, Act.wpe_get, Act.wpe_demand, setInode, Act.wpe_modify, Act.wpe_pure]
        rw [setEntry_inode, hinode]
        refine ⟨fun _ => hQ b _ ⟨hgot, ?_, fun _ => hb.range.1, fun hno =>
          absurd hno (by simp [hcreate])⟩, fun hno => absurd h0 hno⟩
        rw [setInode_self, setEntry_inode, hinode]
      · -- the new entry block is given back
        rw [if_pos hent0]
        obtain ⟨loose', hsub, hown⟩ := hw.owned
        have hin := hown.looseUsed ent (hsub (Finset.mem_insert_self ..))
        refine hown.wpe_free hin.1.1 hin.2 fun v' hf => hR e he v' (.unwind h ht hloose hw hf) ?_
        intro hno
        have hno' : ¬ Faulty v₁ := by
          unfold Faulty at hno ⊢
          rwa [ha.fault]
        obtain ⟨rfl, hu⟩ := hexact hno'
        have := ha.unused
        exact ⟨hcreate, hempty, rfl, by omega⟩
  · have hentry : bmap v i (12 + k) = entry v (v.inode i).indirect k := by rw [hmap, if_neg h0]
    have hcost : cost v i (12 + k) = 1 := if_neg fun hc => h0 hc.2
    have hrange : InRange v (v.inode i).indirect :=
      h.inRange_of_ref (r := .indirect i) hi h0
    rw [if_pos h0, Act.wpe_bind]
    refine wpe_sfsRbuf h.fits hrange (by omega) (by omega) ?_ fun e he hf =>
      hR e he _ (.tick h) fun hno => absurd hf hno
    have hread : decodeU32 (fun x => v.dev.data (v.inode i).indirect (k * 4 + x)) =
        bmap v i (12 + k) := by
      rw [hentry, entry, Nat.mul_comm]
    have htick : Owned inos loose v.tick := h.frame ⟨rfl, rfl, rfl, rfl, rfl⟩ fun r _ => by
      cases r <;> rfl
    rw [hread, Act.wpe_ite]
    refine ⟨fun hold => ?_, fun hnew => ?_⟩
    · rw [Act.wpe_pure, tick_inode, if_neg (not_not.mpr rfl), Act.wpe_pure]
      refine hQ _ _ ⟨.tick h hi (by omega), rfl, fun hc => ?_, fun _ => rfl⟩
      exact hold.resolve_right (by simp [hc])
    · push Not at hnew
      refine wpe_addEntry htick hrange hk (fun b v₁ ha => ?_) fun e he w hw hexact => ?_
      · have hinode : (v₁.setEntry (v.inode i).indirect k b).inode = v.inode := ha.inode
        rw [hinode, if_neg (not_not.mpr rfl), Act.wpe_pure]
        exact hQ b _ ⟨(Got.newEntry htick hi hk h0 hnew.1 ha).ofTick, by rw [hinode],
          fun _ => ha.range.1, fun hno => absurd hno hnew.2⟩
      · rw [if_neg (not_not.mpr rfl), Act.wpe_pure]
        refine hR e he w hw.ofTick fun hno => ?_
        obtain ⟨rfl, hu⟩ := hexact hno
        have hu' : v.unusedBlocks = 0 := hu
        exact ⟨by simpa using hnew.2, hnew.1, rfl, by omega⟩

/-- A new block held in the inode. -/
theorem Got.newDirect (h : Owned inos loose v) (hi : i ∈ inos) (hk : k < 12)
    (hempty : bmap v i k = 0) (ha : Allocated v b v') :
    Got inos loose v i k b (v'.setDirect i k b) := by
  have ht := ha.toTaken
  have hb0 : b ≠ 0 := ha.range.1
  have hself : bmap (v'.setDirect i k b) i k = b := bmap_setDirect_self hk
  have hmap : ∀ j ∈ inos, ∀ m < 1036, bmap v' j m = bmap v j m := fun j hj m hm =>
    h.refs_alloc ht (r := .block j m) ⟨hj, hm⟩
  have hcost : cost v i k = 1 := if_neg fun hc => by omega
  have hown : Owned inos loose (v'.setDirect i k b) := by
    have hsame : Owned.SameMap v' (v'.setDirect i k b) := ⟨rfl, rfl, rfl, rfl, rfl⟩
    have := (h.alloc ht).link (Finset.mem_insert_self ..) (r := .block i k) ⟨hi, by omega⟩
      ((hmap i hi k (by omega)).trans hempty) hsame hself fun r _ hne => refs_setDirect hk hne
    rwa [Finset.erase_insert (h.notMem_of_free ha.wasFree)] at this
  refine ⟨hown, ha.fault, fun j hj => ?_, ?_, ?_, ?_, hself, fun j hj m hm hjm => ?_,
    fun hold => absurd hempty hold, fun j hj m hm hold => ?_, fun _ => ha.cleared, ?_,
    fun j hj => show v'.dev.data j = _ from h.dins_taken ht hj⟩
  · rw [setInode_of_ne hj, ha.inode]
  · rw [setInode_self, ha.inode]
  · rw [setInode_self, ha.inode]
  · rw [setInode_self, ha.inode]
    simp [hk]
  · rw [← hmap j hj m hm]
    refine refs_setDirect (r := .block j m) hk fun heq => hjm ?_
    cases heq
    rfl
  · exact ha.data _ (h.ne_of_free ha.wasFree (r := .block j m) ⟨hj, hm⟩ hold)
  · rw [hempty, if_neg hb0.symm, hcost]
    exact ha.unused

/-- The direct half of **`sfs_bmap_get_nolock`**. -/
theorem wpe_getDirect {Q : ℕ → Volume → Prop} {create : Bool} (h : Owned inos loose v)
    (hi : i ∈ inos) (hk : k < 12)
    (hQ : ∀ b w, Mapping inos loose v i k create b w → Q b w)
    (hR : ∀ e < 0, ∀ w, Kept inos loose v w → (¬ Faulty v → Refused v i k create e) → R e w) :
    Act.wpe (getDirect i k create) Q R E v := by
  have hmap : (v.inode i).direct k = bmap v i k := (if_pos hk).symm
  have hcost : cost v i k = 1 := if_neg fun hc => by omega
  simp only [getDirect, Act.wpe_bind, Act.wpe_get, hmap]
  rw [Act.wpe_ite]
  refine ⟨fun hnew => ?_, fun hold => ?_⟩
  · rw [Act.wpe_bind]
    refine h.wpe_alloc (fun b v₁ ha => ?_)
      (fun hu => hR _ (by norm_num) v (.refl h) fun _ => ⟨hnew.2, hnew.1, rfl, by omega⟩)
      (fun e he b v' hf ht => hR e he v' (.taken h hf ht) fun hno => absurd hf hno)
    simp only [Act.wpe_bind, setInode, Act.wpe_modify, Act.wpe_pure]
    refine hQ b _ ⟨.newDirect h hi hk hnew.1 ha, ?_, fun _ => ha.range.1, fun hno =>
      absurd (hnew.2.symm.trans hno) (by simp)⟩
    rw [setInode_self, ha.inode]
  · rw [Act.wpe_pure]
    exact hQ _ v ⟨.refl h hi (by omega), rfl, fun hc h0 => hold ⟨h0, hc⟩, fun _ => rfl⟩

/-- **`sfs_bmap_get_nolock`**, which panics beyond the map. -/
theorem wpe_sfsBmapGetNolock {Q : ℕ → Volume → Prop} {create : Bool} (h : Owned inos loose v)
    (hi : i ∈ inos) (hE : 1036 ≤ k → E .mapRange)
    (hQ : ∀ b w, k < 1036 → Mapping inos loose v i k create b w → Q b w)
    (hR : ∀ e < 0, ∀ w, k < 1036 → Kept inos loose v w →
      (¬ Faulty v → Refused v i k create e) → R e w) :
    Act.wpe (sfsBmapGetNolock i k create) Q R E v := by
  -- whichever half found the block, it is in use
  have hinuse : ∀ b w, k < 1036 → Mapping inos loose v i k create b w →
      Act.wpe (if b ≠ 0 then do Act.demand .mapInuse (← sfsBlockInuse b); pure b else pure b)
        Q R E w := fun b w hk hgot => by
    rw [Act.wpe_ite]
    refine ⟨fun hb0 => ?_, fun _ => hQ b w hk hgot⟩
    have hself : refBlock w (.block i k) = b := hgot.self
    have hin := hgot.owned.refs (.block i k) ⟨hi, hk⟩ (hself ▸ hb0)
    rw [hself] at hin
    rw [Act.wpe_bind]
    refine wpe_sfsBlockInuse hgot.owned.mapped.covers hin.1.1 ?_
    rw [Act.wpe_bind, Act.wpe_demand]
    exact ⟨fun _ => hQ b w hk hgot, fun hno => absurd (by simp [hin.2]) hno⟩
  rw [sfsBmapGetNolock]
  dsimp only
  rw [Act.wpe_ite]
  refine ⟨fun hk => ?_, fun hk => ?_⟩
  · have hk' : k < 12 := hk
    rw [Act.wpe_bind]
    exact wpe_getDirect h hi hk' (fun b w hgot => hinuse b w (by omega) hgot)
      fun e he w hw hf => hR e he w (by omega) hw hf
  · have hk' : 12 + (k - 12) = k := Nat.add_sub_cancel' (not_lt.mp hk)
    rw [Act.wpe_ite]
    refine ⟨fun hlt => ?_, fun hno => ?_⟩
    · have hlt' : k - 12 < 1024 := hlt
      rw [Act.wpe_bind]
      refine wpe_getIndirect h hi hlt' (fun b w hgot => ?_) fun e he w hw hf => ?_
      · rw [hk'] at hgot
        exact hinuse b w (by omega) hgot
      · rw [hk'] at hf
        exact hR e he w (by omega) hw hf
    · have hno' : ¬ k - 12 < 1024 := hno
      rw [Act.wpe_bind, Act.wpe_stop]
      exact hE (by omega)

/-- `Got`, and counted in `blocks`. -/
structure Loaded (inos loose : Finset ℕ) (v : Volume) (i k b : ℕ) (v' : Volume) : Prop
    extends Got inos loose v i k b v' where
  ne_zero : b ≠ 0
  index : k < 1036 ∧ k ≤ (v.inode i).blocks
  blocks : (v'.inode i).blocks =
    if k = (v.inode i).blocks then (v.inode i).blocks + 1 else (v.inode i).blocks

/-- **`sfs_bmap_load_nolock`**: what it can fail on is an index beyond `blocks` or beyond the map, and
a block below `blocks` that is not there. -/
theorem wpe_sfsBmapLoadNolock {Q : ℕ → Volume → Prop} (h : Owned inos loose v) (hi : i ∈ inos)
    (hindex : (v.inode i).blocks < k → E .loadIndex)
    (hrange : k ≤ (v.inode i).blocks → 1036 ≤ k → E .mapRange)
    (hhole : k < (v.inode i).blocks → k < 1036 → bmap v i k = 0 → E .inuseRange)
    (hQ : ∀ b w, Loaded inos loose v i k b w → Q b w)
    (hR : ∀ e < 0, ∀ w, k < 1036 → Kept inos loose v w →
      (¬ Faulty v → Refused v i k (decide (k = (v.inode i).blocks)) e) → R e w) :
    Act.wpe (sfsBmapLoadNolock i k) Q R E v := by
  simp only [sfsBmapLoadNolock, Act.wpe_bind, Act.wpe_get, Act.wpe_demand]
  refine ⟨fun hle => ?_, fun hno => hindex (not_le.mp hno)⟩
  refine wpe_sfsBmapGetNolock h hi (hrange hle) (fun b w hk hgot => ?_) hR
  by_cases hb0 : b = 0
  · -- the block is not there, and was not to be created
    have hcreate : decide (k = (v.inode i).blocks) = false := by
      by_contra hne
      exact hgot.created (by simpa using hne) hb0
    have hlt : k < (v.inode i).blocks := lt_of_le_of_ne hle (of_decide_eq_false hcreate)
    have hempty : bmap v i k = 0 := (hgot.found hcreate).symm.trans hb0
    simp only [sfsBlockInuse, Act.wpe_bind, Act.wpe_get, Act.wpe_demand]
    exact ⟨fun hin => absurd hb0 hin.1, fun _ => hhole hlt hk hempty⟩
  · have hself : refBlock w (.block i k) = b := hgot.self
    have hin := hgot.owned.refs (.block i k) ⟨hi, hk⟩ (hself ▸ hb0)
    rw [hself] at hin
    refine wpe_sfsBlockInuse hgot.owned.mapped.covers hin.1.1 ⟨fun _ => ?_, fun hno =>
      absurd (by simp [hin.2]) hno⟩
    rw [Act.wpe_ite]
    refine ⟨fun hcreate => ?_, fun hcreate => ?_⟩
    · have hk' : k = (v.inode i).blocks := of_decide_eq_true hcreate
      simp only [Act.wpe_bind, setInode, Act.wpe_modify, Act.wpe_pure]
      refine hQ b _ ⟨hgot.toGot.setInode rfl rfl rfl rfl, hb0, ⟨hk, hle⟩, ?_⟩
      rw [if_pos hk', setInode_self, hgot.blocks]
    · have hk' : k ≠ (v.inode i).blocks := fun heq => hcreate (decide_eq_true heq)
      rw [Act.wpe_pure]
      exact hQ b w ⟨hgot.toGot, hb0, ⟨hk, hle⟩, by rw [if_neg hk', hgot.blocks]⟩

end Calls

end UCore.Sfs
