import UCore.Process.ArgStack

/-!
# Process/LoadRun — what a load leaves in memory

    [ area ]   [ area ]        [ area ]      [ stack ]
      seg₁        seg₂            segₙ         argv

Every segment is in an area of its own, and everything that is mapped is in an area.  So a new segment
finds nothing mapped in its area, and the segments that are there stay as they are.
-/

namespace UCore.Exec

open Vmm Paging

/-- The bits that the pages of a segment are mapped with. -/
def segPerm (ph : Proghdr) : ℕ := pagePerm (permOf (vmFlagsOf ph.flags))

/-- **The program so far**: the segments that are `loaded` are in memory, each in an area. -/
structure Program (pmm : Pmm) (pgdir : ℕ) (bytes : ℕ → UInt8) (loaded : Proghdr → Prop)
    (s : AddrSpace) : Prop where
  areas : UserAreas s.mm
  tree : UserTree pmm s.phys pgdir
  inAreas : ∀ a, a < LOWTOP → mapping s.phys pgdir a ≠ none → InAreas s.mm.mmapList a
  area : ∀ ph, loaded ph → ∃ v ∈ s.mm.mmapList, v.vmStart ≤ ph.va ∧ ph.va + ph.memsz ≤ v.vmEnd
  bytes : ∀ ph, loaded ph → ∀ a, ph.va ≤ a → a < ph.va + ph.memsz →
    view s.phys pgdir a = some (segByte bytes ph a, segPerm ph)

/-- **What was mapped is as it was**: at the same page, with the same byte. -/
def Preserves (pgdir : ℕ) (s s' : Phys) : Prop :=
  ∀ a, a < LOWTOP → mapping s pgdir a ≠ none →
    mapping s' pgdir a = mapping s pgdir a ∧ view s' pgdir a = view s pgdir a

section Bits

variable {ph : Proghdr}

theorem permOf_lt (vmFlags : ℕ) : permOf vmFlags < 1024 := by
  rw [permOf]
  split <;> split <;> split <;> decide

/-- **The bits of a segment are those its header asks for.** -/
theorem segPerm_bits (ph : Proghdr) :
    (segPerm ph &&& PTE_R ≠ 0 ↔ ph.flags &&& ELF_PF_R ≠ 0 ∨ ph.flags &&& ELF_PF_W ≠ 0) ∧
      (segPerm ph &&& PTE_W ≠ 0 ↔ ph.flags &&& ELF_PF_W ≠ 0) ∧
      (segPerm ph &&& PTE_X ≠ 0 ↔ ph.flags &&& ELF_PF_X ≠ 0) := by
  rw [segPerm, vmFlagsOf]
  rcases eq_or_ne (ph.flags &&& ELF_PF_X) 0 with hx | hx <;>
    rcases eq_or_ne (ph.flags &&& ELF_PF_W) 0 with hw | hw <;>
    rcases eq_or_ne (ph.flags &&& ELF_PF_R) 0 with hr | hr <;> simp only [hx, hw, hr, ne_eq] <;> decide

end Bits

section Segments

variable {pmm : Pmm} {rd : Reader} {pgdir fuel : ℕ} {bytes : ℕ → UInt8} {loaded : Proghdr → Prop}
  {s s' : AddrSpace} {ph : Proghdr} {granted : Bool} {addr len vmFlags : ℕ}

/-- The area that is made goes to the end of what is asked for… -/
theorem u64_le_mapEnd (haccess : UserAccess (mapStart addr) (mapEnd addr len)) :
    u64 (addr + len) ≤ mapEnd addr len := by
  have hlt := haccess.2.1
  have hend : mapEnd addr len =
      u64 (u64 (addr + len) + 4096 - 1) - u64 (u64 (addr + len) + 4096 - 1) % 4096 := rfl
  rw [hend] at hlt ⊢
  rw [u64, u64] at hlt ⊢
  omega

/-- …so that the addresses asked for are in it. -/
theorem le_mapEnd (haccess : UserAccess (mapStart addr) (mapEnd addr len)) (hlen : addr + len < 2 ^ 64) :
    addr + len ≤ mapEnd addr len := by
  have hle := u64_le_mapEnd haccess
  rwa [u64_of_lt hlen] at hle

/-- A new area, and nothing is mapped there. -/
theorem Program.unmapped (h : Program pmm pgdir bytes loaded s) {v : Vma}
    (hfits : Fits v s.mm.mmapList) {a : ℕ} (ha : a < LOWTOP) (hv : v.Holds a) :
    mapping s.phys pgdir a = none := by
  by_contra hno
  obtain ⟨x, hx, hxa⟩ := h.inAreas a ha hno
  rcases hfits.2 x hx with hle | hle
  · exact absurd (hxa.2.trans_le hle) (not_lt.mpr hv.1)
  · exact absurd (hv.2.trans_le hle) (not_lt.mpr hxa.1)

/-- **`mm_map` that succeeds** has made an area that meets no other. -/
theorem Program.wp_mmMap (h : Program pmm pgdir bytes loaded s) :
    Act.wp (mmMap addr len vmFlags granted) (fun ret mm => ret = 0 →
      UserAreas mm ∧ UserAccess (mapStart addr) (mapEnd addr len) ∧
        Fits ⟨mapStart addr, mapEnd addr len, vmFlags⟩ s.mm.mmapList ∧
        ∀ v, v ∈ mm.mmapList ↔ v = ⟨mapStart addr, mapEnd addr len, vmFlags⟩ ∨ v ∈ s.mm.mmapList)
      (fun _ => True) s.mm := by
  rw [h.areas.valid.wp_mmMap]
  have hinval : (-E_INVAL : ℤ) ≠ 0 := by decide
  have hnomem : (-E_NO_MEM : ℤ) ≠ 0 := by decide
  refine ⟨fun huser => ⟨fun _ hno => absurd hno hinval, fun _ => ⟨fun _ => ?_,
    fun _ hno => absurd hno hnomem⟩⟩, fun _ hno => absurd hno hinval⟩
  rw [h.areas.valid.cached.wp_insertVmaStruct]
  exact ⟨fun hfits _ => ⟨h.areas.cached.insert huser hfits, huser, hfits,
    fun v => Ranges.mem_insert⟩, fun _ => trivial⟩

/-- **One segment more**, and the others as they were. -/
theorem Program.wp_loadSegment (h : Program pmm pgdir bytes loaded s) (hfresh : pmm.Fresh)
    (hrd : rd.Holds bytes) (hoff : ph.offset < 2 ^ 64) (hsize : ph.filesz ≤ ph.memsz)
    (hwrap : ph.va + ph.memsz < 2 ^ 64) :
    Act.wp (loadSegment pmm rd fuel pgdir granted ph) (fun r s' => match r with
      | .ok _ => Program pmm pgdir bytes (fun ph' => loaded ph' ∨ ph' = ph) s' ∧
          Preserves pgdir s.phys s'.phys ∧ s'.phys.starved = s.phys.starved
      | .error ret => ret = 0 → s'.phys.starved = true) (fun _ => True) s := by
  have hut : USERTOP = 2 ^ 31 := rfl
  rw [loadSegment, Act.wp_bind, wp_onMm]
  refine Act.wp_mono h.wp_mmMap (fun ret mm hret => ?_) fun _ _ => trivial
  rw [Act.wp_ite]
  refine ⟨fun hne hzero => absurd hzero hne, fun hzero => ?_⟩
  obtain ⟨hareas, huser, hfits, hmem⟩ := hret (not_not.mp hzero)
  have hle := le_mapEnd huser hwrap
  have htop := huser.2.2
  have hfree : ∀ a, roundDown ph.va PGSIZE ≤ a → a < mapEnd ph.va ph.memsz →
      mapping s.phys pgdir a = none := fun a hge hlt =>
    h.unmapped hfits (hlt.trans_le (htop.trans USERTOP_le)) ⟨hge, hlt⟩
  rw [wp_onPhys]
  refine Act.wp_mono (wp_loadPages hfresh hrd h.tree hoff hsize (dvd_roundDown _ _) hle htop
    huser.2.1.le (permOf_lt _) hfree) (fun r phys hr => ?_) fun _ => id
  match r, hr with
  | .error ret, hr => exact hr
  | .ok _, hr =>
    -- an address of an old area is outside the pages of the new one
    have hout : ∀ v ∈ s.mm.mmapList, ∀ a, v.Holds a →
        a < roundDown ph.va PGSIZE ∨ mapEnd ph.va ph.memsz ≤ a := fun v hv a ha =>
      (hfits.2 v hv).imp (fun hle => ha.2.trans_le hle) fun hle => hle.trans ha.1
    have hkeep : Preserves pgdir s.phys phys := fun a ha hm => by
      obtain ⟨v, hv, hva⟩ := h.inAreas a ha hm
      exact ⟨hr.mapped a ha (hout v hv a hva), hr.seen a ha (hout v hv a hva)⟩
    refine ⟨⟨hareas, hr.tree, fun a ha hm => ?_, fun ph' hph => ?_, fun ph' hph a hge hlt => ?_⟩,
      hkeep, hr.starved⟩
    · by_cases hin : roundDown ph.va PGSIZE ≤ a ∧ a < mapEnd ph.va ph.memsz
      · exact ⟨_, (hmem _).mpr (.inl rfl), hin⟩
      · have hmap := hr.mapped a ha (Nat.lt_or_ge _ _ |>.imp_right fun hge =>
          not_lt.mp fun hlt => hin ⟨hge, hlt⟩)
        obtain ⟨v, hv, hva⟩ := h.inAreas a ha (hmap ▸ hm)
        exact ⟨v, (hmem v).mpr (.inr hv), hva⟩
    · rcases hph with hph | rfl
      · obtain ⟨v, hv, hva⟩ := h.area ph' hph
        exact ⟨v, (hmem v).mpr (.inr hv), hva⟩
      · exact ⟨_, (hmem _).mpr (.inl rfl), roundDown_le _ _, hle⟩
    · rcases hph with hph | rfl
      · obtain ⟨v, hv, hge', hle'⟩ := h.area ph' hph
        have hlt' : a < v.vmEnd := hlt.trans_le hle'
        have ha : a < LOWTOP := hlt'.trans_le ((h.areas.access v hv).2.2.trans USERTOP_le)
        rw [hr.seen a ha (hout v hv a ⟨hge'.trans hge, hlt'⟩)]
        exact h.bytes ph' hph a hge hlt
      · exact hr.bytes a hge hlt

end Segments

end UCore.Exec
