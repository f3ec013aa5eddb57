import UCore.Machinery.Blocks
import UCore.Mm.DefaultPmmSpec

/-!
# Mm/DefaultPmmRun — whole runs of the first-fit manager

`FirstFit` ties the three encodings of a free block together — its place on the ring, its `property`
field, its `PG_property` bit — and the free pages to the pages handed out.  Allocation keeps it, and
so does every free that `linkBase` puts in front of some block.  A free above every block does not:
`linkBase` links the new tail to itself.
-/

namespace UCore.DefaultPmm

/-- The pages on the free list. -/
def freePages (s : FreeArea) (xs : List ℕ) : Finset ℕ := Blocks.cells s.lists.property xs

/-- **The invariant of the first-fit manager**: `xs` are the free blocks, `out` the pages handed
out, all of them among the managed pages `[lo, hi)`. -/
structure FirstFit (lo hi total : ℕ) (s : FreeArea) (xs : List ℕ) (out : Finset ℕ) : Prop where
  ring : OnFreeList s.lists.links xs
  sorted : Blocks.Sorted s.lists.property xs
  pos : 0 < total → ∀ p ∈ xs, 0 < s.lists.property p
  managed : ∀ p ∈ xs, p ∈ Finset.Ico lo hi
  free_sub : freePages s xs ⊆ Finset.Ico lo hi
  out_sub : out ⊆ Finset.Ico lo hi
  disjoint : Disjoint (freePages s xs) out
  nrFree : s.nrFree = (freePages s xs).card
  count : s.nrFree + out.card = total
  reserved : ∀ p ∈ Finset.Ico lo hi, s.lists.pageReserved p = false
  heads : ∀ p ∈ Finset.Ico lo hi, s.lists.pageProperty p = true ↔ p ∈ xs

namespace FirstFit

variable {lo hi total fuel n base p : ℕ} {s s' : FreeArea} {xs as bs : List ℕ} {out : Finset ℕ}

theorem property_le (h : FirstFit lo hi total s xs out) (hp : p ∈ xs) :
    s.lists.property p ≤ s.nrFree := by
  rw [h.nrFree, freePages, h.sorted.card_cells]
  exact List.le_sum_of_mem (List.mem_map_of_mem hp)

/-- The `property` fields of the free list sum to `nr_free`. -/
theorem sum_property (h : FirstFit lo hi total s xs out) :
    (xs.map s.lists.property).sum = s.nrFree := by
  rw [h.nrFree, freePages, h.sorted.card_cells]

theorem nrFree_lt (h : FirstFit lo hi total s xs out) (ht : total < 2 ^ 32) :
    s.nrFree < 2 ^ 32 := by
  have := h.count
  omega

/-- Nothing starts inside a block. -/
theorem fresh_of_lt (h : FirstFit lo hi total s (as ++ p :: bs) out) (hn : 0 < n)
    (hlt : n < s.lists.property p) : p + n ∉ as ++ p :: bs :=
  h.sorted.notMem_inside (by omega) (by omega)

/-- The heads left when the first `n` pages of `p` are gone. -/
theorem mem_taken (h : FirstFit lo hi total s (as ++ p :: bs) out) (hn : 0 < n) {q : ℕ} :
    q ∈ as ++ (if n < s.lists.property p then [p + n] else []) ++ bs ↔
      q ≠ p ∧ ((n < s.lists.property p ∧ q = p + n) ∨ q ∈ as ++ p :: bs) := by
  have hnd : p ∉ as ++ bs := (List.nodup_middle.mp h.sorted.nodup).notMem
  have hne : q ∈ as ++ bs → q ≠ p := fun hq hqp => hnd (hqp ▸ hq)
  rw [List.mem_append] at hne
  split <;> simp only [List.mem_append, List.mem_cons, List.not_mem_nil, or_false, *] <;>
    constructor <;> grind

/-- **Taking pages from a block** moves them from the free pages to those handed out. -/
theorem take (h : FirstFit lo hi total s (as ++ p :: bs) out) (ht : total < 2 ^ 32) (hn : 0 < n)
    (hle : n ≤ s.lists.property p) :
    Act.wp (takePages p n)
      (fun _ s' => ∃ ys, FirstFit lo hi total s' ys (out ∪ Finset.Ico p (p + n)))
      (fun _ => False) s := by
  have hp : p ∈ as ++ p :: bs := by simp
  have hsub : Finset.Ico p (p + n) ⊆ freePages s (as ++ p :: bs) := fun q hq =>
    Blocks.mem_cells.mpr ⟨p, hp, by rw [Finset.mem_Ico] at hq; omega⟩
  refine Act.wp_mono (wp_takePages h.ring fun hlt => h.fresh_of_lt hn hlt) ?_ (fun _ => id)
  rintro - s' ⟨hring, hnr, hprop, hres, hhead⟩
  have hsz : ∀ q, s'.lists.property q = if n < s.lists.property p ∧ q = p + n
      then s.lists.property p - n else s.lists.property q := by
    intro q
    have := (h.property_le hp).trans_lt (h.nrFree_lt ht)
    rw [hprop q, u32_of_lt (by omega)]
  have hcells : freePages s' _ = freePages s (as ++ p :: bs) \ Finset.Ico p (p + n) :=
    h.sorted.cells_take hle hsz
  have hcard := Finset.card_sdiff_add_card_eq_card hsub
  have hnr' : s'.nrFree = s.nrFree - n := by
    rw [hnr]; exact u32_of_lt (by have := h.nrFree_lt ht; omega)
  rw [Nat.card_Ico, ← h.nrFree] at hcard
  refine ⟨_, hring, h.sorted.take hsz, fun hpos q hq => ?_, fun q hq => ?_, ?_, ?_, ?_, ?_, ?_,
    fun q hq => (hres q).trans (h.reserved q hq), fun q hq => ?_⟩
  · rw [hsz q]
    rcases ((h.mem_taken hn).mp hq).2 with hrest | hold
    · rw [if_pos hrest]; omega
    · split
      · omega
      · exact h.pos hpos q hold
  · rcases ((h.mem_taken hn).mp hq).2 with ⟨hlt, rfl⟩ | hold
    · exact h.free_sub (Blocks.mem_cells.mpr ⟨p, hp, by omega⟩)
    · exact h.managed q hold
  · rw [hcells]
    exact Finset.sdiff_subset.trans h.free_sub
  · exact Finset.union_subset h.out_sub (hsub.trans h.free_sub)
  · rw [hcells, Finset.disjoint_union_right]
    exact ⟨h.disjoint.mono_left Finset.sdiff_subset, Finset.sdiff_disjoint⟩
  · rw [hcells, hnr']
    omega
  · rw [Finset.card_union_of_disjoint (h.disjoint.symm.mono_right hsub), Nat.card_Ico, hnr']
    have := h.count
    omega
  · rw [hhead q, h.mem_taken hn]
    rcases eq_or_ne q p with rfl | hqp
    · simp
    · by_cases hrest : n < s.lists.property p ∧ q = p + n
      · rw [if_neg hqp, if_pos hrest]
        exact iff_of_true rfl ⟨hqp, .inl hrest⟩
      · rw [if_neg hqp, if_neg hrest, h.heads q hq]
        exact ⟨fun hmem => ⟨hqp, .inr hmem⟩, fun hmem => hmem.2.resolve_left hrest⟩

/-- **Linking a block of handed-out pages in** moves them back to the free pages. -/
theorem link {t : FreeArea} (h : FirstFit lo hi total s (as ++ bs) out) (hn : 0 < n)
    (hout : Finset.Ico base (base + n) ⊆ out) (has : ∀ p ∈ as, p < base) (hbs : ∀ p ∈ bs, base < p)
    (hring : OnFreeList t.lists.links (as ++ base :: bs)) (hnr : t.nrFree = s.nrFree + n)
    (hsz : ∀ q, t.lists.property q = if q = base then n else s.lists.property q)
    (hres : ∀ q, t.lists.pageReserved q = s.lists.pageReserved q)
    (hhead : ∀ q, t.lists.pageProperty q = if q = base then true else s.lists.pageProperty q) :
    FirstFit lo hi total t (as ++ base :: bs) (out \ Finset.Ico base (base + n)) := by
  have hcard := Finset.card_sdiff_add_card_eq_card hout
  have hcount := h.count
  rw [Nat.card_Ico] at hcard
  have hpos := h.pos (by omega)
  have hdisj := h.disjoint.symm.mono_left hout
  have hcells : freePages t _ = freePages s (as ++ bs) ∪ Finset.Ico base (base + n) :=
    Blocks.cells_insert has hbs hsz
  have hbase : base ∈ Finset.Ico lo hi := h.out_sub (hout (by simp [hn]))
  refine ⟨hring, h.sorted.insert hpos hn has hbs hdisj hsz, fun _ q hq => ?_, fun q hq => ?_, ?_,
    Finset.sdiff_subset.trans h.out_sub, ?_, ?_, ?_, fun q hq => (hres q).trans (h.reserved q hq),
    fun q hq => ?_⟩
  · rw [hsz q]
    split
    · exact hn
    · exact hpos q (by simp at hq ⊢; tauto)
  · rcases eq_or_ne q base with rfl | hqb
    · exact hbase
    · exact h.managed q (by simp at hq ⊢; tauto)
  · rw [hcells]
    exact Finset.union_subset h.free_sub (hout.trans h.out_sub)
  · rw [hcells, Finset.disjoint_union_left]
    exact ⟨h.disjoint.mono_right Finset.sdiff_subset, Finset.disjoint_sdiff⟩
  · rw [hcells, Finset.card_union_of_disjoint hdisj.symm, Nat.card_Ico, hnr, h.nrFree]
    omega
  · omega
  · rw [hhead q]
    rcases eq_or_ne q base with rfl | hqb
    · simp
    · rw [if_neg hqb, h.heads q hq]
      simp [hqb]

/-- **Joining two free blocks that touch** changes neither the free pages nor those handed out. -/
theorem join {t : FreeArea} (h : FirstFit lo hi total s (as ++ p :: base :: bs) out)
    (htouch : p + s.lists.property p = base)
    (hring : OnFreeList t.lists.links (as ++ p :: bs)) (hnr : t.nrFree = s.nrFree)
    (hsz : ∀ q, t.lists.property q = if q = p
      then s.lists.property p + s.lists.property base else s.lists.property q)
    (hres : ∀ q, t.lists.pageReserved q = s.lists.pageReserved q)
    (hhead : ∀ q, t.lists.pageProperty q = if q = base then false else s.lists.pageProperty q) :
    FirstFit lo hi total t (as ++ p :: bs) out := by
  have hold : ∀ q ∈ as ++ p :: bs, q ∈ as ++ p :: base :: bs := fun q hq => by simp at hq ⊢; tauto
  have hcells : freePages t _ = freePages s (as ++ p :: base :: bs) :=
    h.sorted.cells_merge htouch hsz
  have hnot : base ∉ as ++ p :: bs := by
    have := h.sorted.nodup
    rw [← List.singleton_append, ← List.append_assoc] at this
    simpa using (List.nodup_middle.mp this).notMem
  refine ⟨hring, h.sorted.merge htouch hsz, fun hpos q hq => ?_, fun q hq => h.managed q (hold q hq),
    hcells ▸ h.free_sub, h.out_sub, hcells ▸ h.disjoint, ?_, hnr ▸ h.count,
    fun q hq => (hres q).trans (h.reserved q hq), fun q hq => ?_⟩
  · have := h.pos hpos q (hold q hq)
    rw [hsz q]
    split
    · next hqp => subst hqp; omega
    · exact this
  · rw [hnr, h.nrFree, hcells]
  · rw [hhead q]
    rcases eq_or_ne q base with rfl | hqb
    · simpa using hnot
    · rw [if_neg hqb, h.heads q hq]
      simp [hqb]

/-- The free list is no longer than the managed range. -/
theorem length_le (h : FirstFit lo hi total s xs out) : xs.length ≤ hi - lo := by
  rw [← List.toFinset_card_of_nodup h.sorted.nodup, ← Nat.card_Ico]
  exact Finset.card_le_card fun p hp => h.managed p (List.mem_toFinset.mp hp)

/-- A handed-out page heads no free block. -/
theorem notMem_of_out (h : FirstFit lo hi total s xs out) (hb : base ∈ out) : base ∉ xs := by
  intro hx
  have hpos := h.pos (by have := h.count; have := Finset.card_pos.mpr ⟨base, hb⟩; omega) base hx
  exact Finset.disjoint_left.mp h.disjoint (Blocks.mem_cells.mpr ⟨base, hx, by omega⟩) hb

end FirstFit

variable {lo hi total fuel n base k : ℕ} {s s' : FreeArea} {xs : List ℕ} {out : Finset ℕ}

/-! ## The calls -/

/-- After start-up the whole range is one free block. -/
theorem wp_boot : Act.wp (do defaultInit; defaultInitMemmap fuel base n)
    (fun _ s' => FirstFit base (base + n) (u32 n) s' [base] ∅) (fun _ => True) s := by
  simp only [defaultInit, defaultInitMemmap, Act.wp_bind, wp_store, wp_setNrFree, Act.wp_require]
  refine ⟨fun hn => Act.wp_mono (wp_initPages base n _) ?_ fun _ _ => trivial, fun _ => trivial⟩
  rintro - s₁ ⟨hl, hnr, hprop, hres, hhead⟩
  refine Act.wp_mono (wp_linkBase (show OnFreeList _ ([] ++ []) from ?_) (by simp) (by simp)
    (by simp) (by simp)) ?_ fun _ _ => trivial
  · simpa [OnFreeList, hl] using ring_listInit s.lists.links freeList
  · rintro - s₂ ⟨l, rfl, hring⟩
    have hle : u32 n ≤ n := Nat.mod_le _ _
    have hbase : base ∈ Finset.Ico base (base + n) := by simpa using hn
    refine ⟨hring, List.pairwise_singleton _ _, fun hpos p hp => ?_, fun p hp => ?_, ?_, by simp,
      by simp, ?_, ?_, fun p hp => ?_, fun p hp => ?_⟩
    · rw [List.mem_singleton.mp hp]
      simpa [PageLists.property_setProperty] using hpos
    · rwa [List.mem_singleton.mp hp]
    · simpa [freePages, PageLists.property_setProperty] using
        Finset.Ico_subset_Ico_right (Nat.add_le_add_left hle base)
    · simp [freePages, PageLists.property_setProperty, hnr, u32]
    · simp [hnr, u32]
    · simp [hres p, hp]
    · simp [PageLists.pageProperty_setPageProperty, hhead p, hp]

/-- **Allocation** hands out fresh pages or leaves the allocator as it was. -/
theorem wp_defaultAllocPages (fuel : ℕ) (h : FirstFit lo hi total s xs out) (ht : total < 2 ^ 32)
    (hk : 0 < k) :
    Act.wp (defaultAllocPages fuel k)
      (fun r s' => (r = none ∧ s' = s) ∨ ∃ p ys, r = some p ∧
        Disjoint (Finset.Ico p (p + k)) out ∧
        FirstFit lo hi total s' ys (out ∪ Finset.Ico p (p + k)))
      (fun e => e = .spin ∧ fuel ≤ hi - lo) s := by
  simp only [defaultAllocPages, Act.wp_bind, Act.wp_require, Act.wp_get, Act.wp_ite, Act.wp_pure]
  refine ⟨fun _ => ⟨fun _ => .inl ⟨trivial, trivial⟩, fun _ => ?_⟩, fun h => absurd hk h⟩
  refine Act.wp_mono (wp_findFit h.ring) ?_ fun e he => ⟨he.1, he.2.trans h.length_le⟩
  rintro r s' ⟨rfl, hr⟩
  cases r with
  | none => exact .inl ⟨rfl, rfl⟩
  | some p =>
    obtain ⟨hfit, as, bs, rfl, -⟩ := List.find?_eq_some_iff_append.mp hr.symm
    have hfit : k ≤ s'.lists.property p := by simpa using hfit
    rw [Act.wp_bind]
    refine Act.wp_mono (h.take ht hk hfit) ?_ (fun _ => False.elim)
    rintro - s'' ⟨ys, hys⟩
    refine .inr ⟨p, ys, rfl, h.disjoint.mono_left fun q hq => ?_, hys⟩
    rw [Finset.mem_Ico] at hq
    exact Blocks.mem_cells.mpr ⟨p, by simp, by omega⟩

/-- Two neighbouring blocks together are no larger than an `unsigned int` counts. -/
theorem FirstFit.add_lt {as bs : List ℕ} {p : ℕ}
    (h : FirstFit lo hi total s (as ++ p :: base :: bs) out) (ht : total < 2 ^ 32) :
    s.lists.property p + s.lists.property base < 2 ^ 32 := by
  have hsum := h.sum_property
  have hlt := h.nrFree_lt ht
  simp only [List.map_append, List.map_cons, List.sum_append, List.sum_cons] at hsum
  omega

/-- The first merge of `default_free_pages` leaves `r` the head of a free block. -/
private theorem wp_mergePrev_firstFit {as bs : List ℕ}
    (h : FirstFit lo hi total s (as ++ base :: bs) out) (ht : total < 2 ^ 32) :
    Act.wp (mergePrev base)
      (fun r s' => ∃ as' bs', FirstFit lo hi total s' (as' ++ r :: bs') out)
      (fun _ => False) s := by
  refine Act.wp_mono (wp_mergePrev h.ring) ?_ (fun _ => id)
  rintro r s' (⟨rfl, rfl, -⟩ | ⟨as', p, rfl, htouch, rfl, hring, hnr, hprop, hres, hhead⟩)
  · exact ⟨as, bs, h⟩
  · rw [List.append_assoc, List.singleton_append] at h
    rw [u32_of_lt (h.add_lt ht)] at hprop
    exact ⟨as', bs, h.join htouch hring hnr hprop hres hhead⟩

/-- …and so does the second. -/
private theorem wp_mergeNext_firstFit {as bs : List ℕ}
    (h : FirstFit lo hi total s (as ++ base :: bs) out) (ht : total < 2 ^ 32) :
    Act.wp (mergeNext base) (fun _ s' => ∃ ys, FirstFit lo hi total s' ys out)
      (fun _ => False) s := by
  refine Act.wp_mono (wp_mergeNext h.ring) ?_ (fun _ => id)
  rintro - s' (⟨rfl, -⟩ | ⟨p, bs', rfl, htouch, hring, hnr, hprop, hres, hhead⟩)
  · exact ⟨_, h⟩
  · rw [u32_of_lt (h.add_lt ht)] at hprop
    exact ⟨_, h.join htouch hring hnr hprop hres hhead⟩

/-- The state of `default_free_pages` when it comes to link the block in. -/
private theorem wp_beforeLink {m : Call Unit} {Q : Unit → FreeArea → Prop} {E : Stop → Prop}
    (h : FirstFit lo hi total s xs out) (ht : total < 2 ^ 32) (hn : 0 < n)
    (hout : Finset.Ico base (base + n) ⊆ out)
    (hm : ∀ s₁, s₁.lists.links = s.lists.links → s₁.nrFree = s.nrFree + n →
      (∀ q, s₁.lists.property q = if q = base then n else s.lists.property q) →
      (∀ q, s₁.lists.pageReserved q = s.lists.pageReserved q) →
      (∀ q, s₁.lists.pageProperty q = if q = base then true else s.lists.pageProperty q) →
      Act.wp m Q E s₁) :
    Act.wp (do
      Act.require .panic (0 < n)
      resetPages base n
      store fun g => (g.setProperty base n).setPageProperty base true
      setNrFree (· + n)
      m) Q E s := by
  have hle : n ≤ out.card := by simpa using Finset.card_le_card hout
  have hcount := h.count
  simp only [Act.wp_bind, Act.wp_require, wp_store, wp_setNrFree]
  refine ⟨fun _ => Act.wp_mono (wp_resetPages base n s
    (fun q hq => h.reserved q (h.out_sub (hout hq))) fun q hq => ?_) ?_ (fun _ => False.elim),
    fun h => absurd hn h⟩
  · have hnot := h.notMem_of_out (hout hq)
    rwa [← h.heads q (h.out_sub (hout hq)), Bool.not_eq_true] at hnot
  · rintro - s₁ ⟨hl, hnr, hprop, hres, hhead⟩
    refine hm _ hl ?_ (fun q => ?_) (fun q => ?_) fun q => ?_
    · show u32 (s₁.nrFree + n) = _
      rw [hnr, u32_of_lt (by omega)]
    · simp [PageLists.property_setProperty, hprop, u32_of_lt (show n < 2 ^ 32 by omega)]
    · simp [hres]
    · simp [PageLists.pageProperty_setPageProperty, hhead]

/-- **A free below some block** gives the pages back. -/
theorem wp_defaultFreePages (fuel : ℕ) (h : FirstFit lo hi total s xs out) (ht : total < 2 ^ 32) (hn : 0 < n)
    (hout : Finset.Ico base (base + n) ⊆ out) (hlast : xs = [] ∨ ∃ p ∈ xs, base < p) :
    Act.wp (defaultFreePages fuel base n)
      (fun _ s' => ∃ ys, FirstFit lo hi total s' ys (out \ Finset.Ico base (base + n)))
      (fun e => e = .spin ∧ fuel ≤ hi - lo) s := by
  have hfresh : base ∉ xs := h.notMem_of_out (hout (by simp [hn]))
  refine wp_beforeLink h ht hn hout fun s₁ hl hnr hprop hres hhead => ?_
  obtain ⟨as, bs, rfl, has, hbs⟩ := Blocks.exists_split h.sorted hfresh
  have hne : bs = [] → as = [] := by
    rintro rfl
    rcases hlast with hnil | ⟨p, hp, hlt⟩
    · simpa using hnil
    · rw [List.append_nil] at hp
      exact absurd (has p hp) (by omega)
  rw [Act.wp_bind]
  refine Act.wp_mono (wp_linkBase (show OnFreeList _ (as ++ bs) from hl ▸ h.ring) hfresh has
    (fun p hp => hbs p (List.mem_of_mem_head? hp)) hne) ?_
    fun e he => ⟨he.1, he.2.trans (by have := h.length_le; simp at this; omega)⟩
  rintro - s₂ ⟨l, rfl, hring⟩
  have h₂ := h.link hn hout has hbs (t := { s₁ with lists := s₁.lists.mapLinks fun _ => l })
    hring hnr hprop hres hhead
  rw [Act.wp_bind]
  refine Act.wp_mono (wp_mergePrev_firstFit h₂ ht) ?_ (fun _ => False.elim)
  rintro r s₃ ⟨as', bs', h₃⟩
  exact Act.wp_mono (wp_mergeNext_firstFit h₃ ht) (fun _ _ => id) (fun _ => False.elim)

/-- **A free above every block** leaves the block linked to itself. -/
theorem wp_defaultFreePages_tail (h : FirstFit lo hi total s xs out) (ht : total < 2 ^ 32)
    (hn : 0 < n) (hout : Finset.Ico base (base + n) ⊆ out) (hne : xs ≠ [])
    (hlast : ∀ p ∈ xs, p < base) :
    Act.wp (defaultFreePages fuel base n)
      (fun _ s' => s'.lists.links.prev freeList = .pageLink base ∧
        s'.lists.links.prev (.pageLink base) = .pageLink base)
      (fun e => e = .spin) s := by
  have hfresh : base ∉ xs := h.notMem_of_out (hout (by simp [hn]))
  refine wp_beforeLink h ht hn hout fun s₁ hl hnr hprop hres hhead => ?_
  rw [Act.wp_bind]
  refine Act.wp_mono (wp_linkBase_tail (hl ▸ h.ring) hfresh hne hlast) ?_ (fun _ => id)
  rintro - s₂ ⟨l, rfl, hprev, hnext, hhd⟩
  have hself : ¬ base + s₁.lists.property base = base := by
    rw [hprop base, if_pos rfl]
    omega
  simp only [mergePrev, mergeNext, listPrev, listNext, Act.wp_bind, Act.wp_get,
    PageLists.links_mapLinks, PageLists.property_mapLinks, hprev, hself, if_false, Act.wp_pure,
    hnext]
  exact ⟨hhd, trivial⟩

/-! ## Whole runs -/

/-- **The free list is sound**: a ring through sorted disjoint blocks, none of whose pages is handed
out, and whose sizes sum to `nr_free`. -/
def FreeListOk (s : FreeArea) (out : Finset ℕ) : Prop :=
  ∃ xs, OnFreeList s.lists.links xs ∧ Blocks.Sorted s.lists.property xs ∧
    Disjoint (freePages s xs) out ∧ (xs.map s.lists.property).sum = s.nrFree

/-- A block at `p` is linked in before some block, or into an empty list. -/
def BelowLast (s : FreeArea) (p : ℕ) : Prop :=
  ∃ xs, OnFreeList s.lists.links xs ∧ (xs = [] ∨ ∃ q ∈ xs, p < q)

/-- **A run**: start-up over the pages from `base` on, then allocations and frees that return, each
free of pages handed out and allowed by `guard`.  `out` is the set of pages handed out. -/
inductive Run (base n : ℕ) (guard : FreeArea → ℕ → Prop) : FreeArea → Finset ℕ → Prop
  | boot {fuel : ℕ} {s s' : FreeArea} :
      (do defaultInit; defaultInitMemmap fuel base n) s = .ok ((), s') → Run base n guard s' ∅
  | alloc {fuel k p : ℕ} {s s' : FreeArea} {out : Finset ℕ} :
      Run base n guard s out → defaultAllocPages fuel k s = .ok (some p, s') →
      Run base n guard s' (out ∪ Finset.Ico p (p + k))
  | allocNull {fuel k : ℕ} {s s' : FreeArea} {out : Finset ℕ} :
      Run base n guard s out → defaultAllocPages fuel k s = .ok (none, s') → Run base n guard s' out
  | free {fuel k p : ℕ} {s s' : FreeArea} {out : Finset ℕ} :
      Run base n guard s out → Finset.Ico p (p + k) ⊆ out → guard s p →
      defaultFreePages fuel p k s = .ok ((), s') →
      Run base n guard s' (out \ Finset.Ico p (p + k))

theorem FirstFit.freeListOk (h : FirstFit lo hi total s xs out) : FreeListOk s out :=
  ⟨xs, h.ring, h.sorted, h.disjoint, h.sum_property⟩

theorem FirstFit.belowLast_iff (h : FirstFit lo hi total s xs out) {p : ℕ} :
    BelowLast s p ↔ xs = [] ∨ ∃ q ∈ xs, p < q := by
  refine ⟨?_, fun hp => ⟨xs, h.ring, hp⟩⟩
  rintro ⟨ys, hring, hp⟩
  rwa [← List.map_injective_iff.mpr pageLink_injective (h.ring.unique hring)] at hp

/-- A call returns only when it is given pages to allocate. -/
private theorem pos_of_alloc {r : Option ℕ} (h : defaultAllocPages fuel k s = .ok (r, s')) :
    0 < k := by
  by_contra hk
  have hwp : Act.wp (defaultAllocPages fuel k) (fun _ _ => False) (fun _ => True) s := by
    simp only [defaultAllocPages, Act.wp_bind, Act.wp_require]
    exact ⟨fun h => absurd h hk, fun _ => trivial⟩
  exact Act.wp_of_ok hwp h

private theorem pos_of_free (h : defaultFreePages fuel base k s = .ok ((), s')) : 0 < k := by
  by_contra hk
  have hwp : Act.wp (defaultFreePages fuel base k) (fun _ _ => False) (fun _ => True) s := by
    simp only [defaultFreePages, Act.wp_bind, Act.wp_require]
    exact ⟨fun h => absurd h hk, fun _ => trivial⟩
  exact Act.wp_of_ok hwp h

/-- **The invariant holds along every run** that frees below some block. -/
theorem firstFit_of_run (h : Run base n BelowLast s out) :
    ∃ xs, FirstFit base (base + n) (u32 n) s xs out := by
  induction h with
  | boot hb =>
    have hfit := Act.wp_of_ok wp_boot hb
    exact ⟨_, hfit⟩
  | alloc _ ha ih =>
    obtain ⟨xs, ih⟩ := ih
    obtain ⟨hr, -⟩ | ⟨p, ys, hr, -, hys⟩ :=
      Act.wp_of_ok (wp_defaultAllocPages _ ih (u32_lt n) (pos_of_alloc ha)) ha
    · cases hr
    · cases hr
      exact ⟨ys, hys⟩
  | allocNull _ ha ih =>
    obtain ⟨xs, ih⟩ := ih
    obtain ⟨-, rfl⟩ | ⟨p, ys, hr, -⟩ :=
      Act.wp_of_ok (wp_defaultAllocPages _ ih (u32_lt n) (pos_of_alloc ha)) ha
    · exact ⟨xs, ih⟩
    · cases hr
  | free _ hout hg hf ih =>
    obtain ⟨xs, ih⟩ := ih
    exact Act.wp_of_ok (wp_defaultFreePages _ ih (u32_lt n) (pos_of_free hf) hout
      (ih.belowLast_iff.mp hg)) hf

/-- A list whose last entry is linked back to itself is no ring. -/
theorem not_onFreeList_of_self {l : Links (ListEntry Unit)} {p : ℕ}
    (hhead : l.prev freeList = .pageLink p) (hself : l.prev (.pageLink p) = .pageLink p) :
    ¬ OnFreeList l xs := by
  intro hring
  unfold OnFreeList at hring
  rcases List.eq_nil_or_concat xs with rfl | ⟨as, q, rfl⟩
  · have hprev := hring.prev_head
    rw [hhead] at hprev
    cases hprev
  · rw [List.concat_eq_append, List.map_append, List.map_singleton] at hring
    have hlast := hring.prev_head
    rw [hhead, Links.before_concat] at hlast
    cases hlast
    have hprev := hring.prev_entry
    have hmem := Links.before_mem freeList (as.map (@ListEntry.pageLink Unit))
    rw [← hprev, hself] at hmem
    have hnd := hring.nodup
    rw [← List.cons_append, List.nodup_append] at hnd
    exact hnd.2.2 _ hmem _ (by simp) rfl

theorem not_freeListOk_of_self {p : ℕ} (hhead : s.lists.links.prev freeList = .pageLink p)
    (hself : s.lists.links.prev (.pageLink p) = .pageLink p) : ¬ FreeListOk s out :=
  fun ⟨_, hring, _⟩ => not_onFreeList_of_self hhead hself hring

/-- **First fit over whole runs.**  As long as no block is freed above every block of a non-empty
list, the free list is sound after every call, every call returns, and no page is handed out twice;
a block freed there leaves an unsound list. -/
theorem defaultPmm_run (h : Run base n BelowLast s out) :
    FreeListOk s out ∧
    (∀ k fuel, 0 < k → n < fuel → ∃ r s', defaultAllocPages fuel k s = .ok (r, s') ∧
      ∀ p ∈ r, Disjoint (Finset.Ico p (p + k)) out) ∧
    ∀ p k fuel, 0 < k → n < fuel → Finset.Ico p (p + k) ⊆ out →
      (BelowLast s p → ∃ s', defaultFreePages fuel p k s = .ok ((), s')) ∧
      (¬ BelowLast s p → ∀ s', defaultFreePages fuel p k s = .ok ((), s') →
        ¬ FreeListOk s' (out \ Finset.Ico p (p + k))) := by
  obtain ⟨xs, hinv⟩ := firstFit_of_run h
  refine ⟨hinv.freeListOk, fun k fuel hk hfuel => ?_, fun p k fuel hk hfuel hout => ⟨fun hb => ?_,
    fun hb s' hf => ?_⟩⟩
  · have hwp := wp_defaultAllocPages fuel hinv (u32_lt n) hk
    obtain ⟨r, s', hr, hpost⟩ := Act.wp_false_iff.mp
      (Act.wp_mono hwp (fun _ _ => id) fun e he => by have := he.2; omega)
    refine ⟨r, s', hr, fun p hp => ?_⟩
    obtain ⟨rfl, -⟩ | ⟨q, ys, rfl, hdisj, -⟩ := hpost
    · cases hp
    · cases hp
      exact hdisj
  · have hwp := wp_defaultFreePages fuel hinv (u32_lt n) hk hout
      (hinv.belowLast_iff.mp hb)
    obtain ⟨_, s', hr, -⟩ := Act.wp_false_iff.mp
      (Act.wp_mono hwp (fun _ _ => id) fun e he => by have := he.2; omega)
    exact ⟨s', hr⟩
  · rw [hinv.belowLast_iff, not_or, not_exists] at hb
    have hlt : ∀ q ∈ xs, q < p := fun q hq => by
      have hle := not_lt.mp fun hpq => hb.2 q ⟨hq, hpq⟩
      have hne : q ≠ p := by
        rintro rfl
        exact hinv.notMem_of_out (hout (by simp [hk])) hq
      omega
    obtain ⟨hhead, hself⟩ := Act.wp_of_ok
      (wp_defaultFreePages_tail hinv (u32_lt n) hk hout hb.1 hlt) hf
    exact not_freeListOk_of_self hhead hself

/-- Memory before start-up: every page is reserved. -/
def reservedPages : FreeArea :=
  ⟨⟨fun _ => ⟨0, ⟨true, false⟩, 0⟩, ⟨id, id⟩⟩, 0⟩

/-- Two pages handed out one by one and freed from the top down. -/
theorem defaultPmm_run_topDown : ∃ s, Run 0 2 BelowLast s ∅ ∧ FreeListOk s ∅ := by
  have hboot : Run 0 2 BelowLast _ ∅ :=
    .boot (show (do defaultInit; defaultInitMemmap 3 0 2) reservedPages = .ok ((), _) from rfl)
  have h₀ := hboot.alloc (show defaultAllocPages 3 1 _ = .ok (some 0, _) from rfl)
  have h₁ := h₀.alloc (show defaultAllocPages 3 1 _ = .ok (some 1, _) from rfl)
  have h₂ := h₁.free (by decide) ⟨[], Links.Ring.nil_iff.mpr ⟨rfl, rfl⟩, .inl rfl⟩
    (show defaultFreePages 3 1 1 _ = .ok ((), _) from rfl)
  have h₃ := h₂.free (by decide)
    ⟨[1], ⟨by decide, .cons_cons ⟨rfl, rfl⟩ (.cons_cons ⟨rfl, rfl⟩ (.singleton _))⟩,
      .inr ⟨1, by simp, by decide⟩⟩
    (show defaultFreePages 3 0 1 _ = .ok ((), _) from rfl)
  exact ⟨_, h₃, (defaultPmm_run h₃).1⟩

/-- …and freed from the bottom up: the second free links page 1 to itself. -/
theorem defaultPmm_run_bottomUp :
    ∃ s, Run 0 2 (fun _ _ => True) s ∅ ∧ ¬ FreeListOk s ∅ := by
  have hboot : Run 0 2 (fun _ _ => True) _ ∅ :=
    .boot (show (do defaultInit; defaultInitMemmap 3 0 2) reservedPages = .ok ((), _) from rfl)
  have h₀ := hboot.alloc (show defaultAllocPages 3 1 _ = .ok (some 0, _) from rfl)
  have h₁ := h₀.alloc (show defaultAllocPages 3 1 _ = .ok (some 1, _) from rfl)
  have h₂ := h₁.free (by decide) trivial (show defaultFreePages 3 0 1 _ = .ok ((), _) from rfl)
  have h₃ := h₂.free (by decide) trivial (show defaultFreePages 4 1 1 _ = .ok ((), _) from rfl)
  exact ⟨_, h₃, not_freeListOk_of_self (p := 1) rfl rfl⟩

end UCore.DefaultPmm
