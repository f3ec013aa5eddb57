import UCore.Mm.KmallocMerged

/-!
# Mm/KmallocUnits — where the units are, after every call

    Σ units of the free blocks  +  Σ units of the live blocks  =  1 + 256 · pages

For requests that leave room for a header and a unit in a page, no block is ever a big one, so no page
is given back.  The list is in order of address with one wrap, keeps the arena, holds nothing that
could be joined, and accounts for every unit that no caller has.
-/

namespace UCore.Kmalloc

variable {I : Image} {s t : SlobHeap} {live : Live} {xs ys : List ℕ} {out : Finset ℕ}
  {p size fuel : ℕ} {allocPages : PageAlloc}

/-- **The free list between two calls.** -/
structure FreeList (arena : ℕ) (s : SlobHeap) (xs : List ℕ) : Prop where
  ring : Circuit s.next xs
  start : s.slobfree ∈ xs
  arena : arena ∈ xs
  increasing : xs.Pairwise (· < ·)
  wraps : ∃! p, p ∈ xs ∧ s.next p ≤ p
  units : ∀ p ∈ xs, 0 < s.units p
  merged : ∀ p ∈ xs, ∀ q ∈ xs, unitsPast p (s.units p) ≠ q

theorem Slob.freeList (h : Slob I s xs out) (hm : Merged s) : FreeList I.arena s xs := by
  have hup : xs.Pairwise (· < ·) := h.sorted.imp fun hpq => hpq.1
  exact ⟨h.ring, h.start, h.arena, hup, h.ring.existsUnique_wrap hup (List.ne_nil_of_mem h.start), h.pos,
    fun p hp q hq => hm.apart h hp hq⟩

/-! ## Counting the units -/

/-- The bytes of the pages in use. -/
def pageBytes (used : Finset ℕ) : Finset ℕ :=
  used.biUnion fun k => Finset.Ico (4096 * k) (4096 * k + 4096)

theorem mem_pageBytes {used : Finset ℕ} {b : ℕ} : b ∈ pageBytes used ↔ b / PGSIZE ∈ used := by
  rw [pageBytes, Finset.mem_biUnion]
  change (∃ k ∈ used, b ∈ Finset.Ico (4096 * k) (4096 * k + 4096)) ↔ b / 4096 ∈ used
  constructor
  · rintro ⟨k, hk, hb⟩
    rw [Finset.mem_Ico] at hb
    rwa [show b / 4096 = k by omega]
  · exact fun hb => ⟨b / 4096, hb, by rw [Finset.mem_Ico]; omega⟩

theorem card_pageBytes (used : Finset ℕ) : (pageBytes used).card = 4096 * used.card := by
  rw [pageBytes, Finset.card_biUnion, Finset.sum_congr rfl fun k _ => by rw [Nat.card_Ico]]
  · simp [Nat.mul_comm]
  · intro k _ l _ hkl
    rw [Function.onFun, Finset.disjoint_left]
    intro b hk hl
    rw [Finset.mem_Ico] at hk hl
    omega

theorem card_span (p n : ℕ) : (span p n).card = 16 * n := by
  rw [span, Nat.card_Ico]
  exact Nat.add_sub_cancel_left ..

/-- **The free bytes and the bytes handed out** are the arena and the pages. -/
theorem Slob.card (h : Slob I s xs out) :
    16 * (xs.map s.units).sum + out.card = 16 + 4096 * s.used.card := by
  have hfree : (freeBytes s xs).card = 16 * (xs.map s.units).sum := by
    rw [freeBytes, h.sorted.card_cells, ← List.sum_map_mul_left]
    rfl
  have harena : Disjoint (span I.arena 1) (pageBytes s.used) := by
    rw [Finset.disjoint_left]
    intro b hb hb'
    rw [mem_span] at hb
    have := (h.outside b (mem_pageBytes.mp hb')).2
    have := I.below
    have := I.above
    omega
  have hall : freeBytes s xs ∪ out = span I.arena 1 ∪ pageBytes s.used := by
    ext b
    rw [Finset.mem_union, Finset.mem_union, mem_pageBytes]
    exact h.cover b
  have hcard := congrArg Finset.card hall
  rw [Finset.card_union_of_disjoint h.disjoint, Finset.card_union_of_disjoint harena, hfree, card_span,
    card_pageBytes] at hcard
  exact hcard

namespace Kept

/-- The addresses of the live blocks. -/
theorem exists_addresses (h : Kept I s live xs out) : ∃ L : Finset ℕ, ∀ p, p ∈ L ↔ live p ≠ none := by
  refine ⟨out.filter fun p => live p ≠ none, fun p => ?_⟩
  rw [Finset.mem_filter, and_iff_right_iff_imp]
  intro hp
  obtain ⟨size, hsize⟩ := Option.ne_none_iff_exists'.mp hp
  exact h.block_sub hsize (Finset.mem_union_right _ (h.granted p size hsize).mem_body)

/-- **The bytes handed out** are those of the live blocks. -/
theorem card_out (h : Kept I s live xs out) (hsmall : ∀ p size, live p = some size → size < 4080)
    {L : Finset ℕ} (hL : ∀ p, p ∈ L ↔ live p ≠ none) :
    out.card = 16 * ∑ p ∈ L, s.units (p - SLOB_UNIT) := by
  have hsize : ∀ p ∈ L, ∃ size, live p = some size := fun p hp =>
    Option.ne_none_iff_exists'.mp ((hL p).mp hp)
  have hunion : out = L.biUnion fun p => span (p - SLOB_UNIT) (s.units (p - SLOB_UNIT)) := by
    ext b
    rw [h.parts, Finset.mem_biUnion]
    constructor
    · rintro ⟨p, size, hp, hb⟩
      rw [(h.smallFree hp (hsmall p size hp)).block] at hb
      exact ⟨p, (hL p).mpr (by simp [hp]), hb⟩
    · rintro ⟨p, hp, hb⟩
      obtain ⟨size, hsz⟩ := hsize p hp
      exact ⟨p, size, hsz, (h.smallFree hsz (hsmall p size hsz)).block ▸ hb⟩
  rw [hunion, Finset.card_biUnion, Finset.mul_sum]
  · exact Finset.sum_congr rfl fun p _ => card_span ..
  · intro p hp q hq hpq
    obtain ⟨size, hsz⟩ := hsize p hp
    obtain ⟨size', hsz'⟩ := hsize q hq
    have hapart := h.apart p q size size' hsz hsz' hpq
    rwa [(h.smallFree hsz (hsmall p size hsz)).block, (h.smallFree hsz' (hsmall q size' hsz')).block]
      at hapart

/-! ## Calls and writes -/

/-- **`kmalloc` leaves nothing to join**, whatever the size. -/
theorem wp_kmalloc_merged (h : Kept I s live xs out) (hm : Merged s) (hfresh : Fresh I allocPages)
    (h1 : 1 ≤ size) (fuel : ℕ) :
    Act.wp (kmalloc fuel allocPages size) (fun _ t => Merged t) (fun _ => True) s := by
  by_cases hs : size < PGSIZE - SLOB_UNIT
  · have hn : 1 < slobUnits (size + SLOB_UNIT) := by
      rw [slobUnits_eq]
      change 1 < (size + 16 + 15) / 16
      omega
    rw [kmalloc, if_pos hs, Act.wp_bind]
    exact Act.wp_mono (h.slob.wp_slobAlloc_merged hm hfresh hn fuel) (fun _ _ => id) fun _ => id
  · rw [kmalloc, if_neg hs, Act.wp_bind]
    have hn : 1 < slobUnits sizeofBigBlock := by decide
    refine Act.wp_mono (Act.wp_and (wp_slobAlloc h.slob hfresh (.inl hn) (by decide) fuel)
      (h.slob.wp_slobAlloc_merged hm hfresh hn fuel)) ?_ fun _ _ => trivial
    rintro (_ | c) t ⟨hr, hmt⟩
    · exact hmt
    obtain ⟨⟨ys, -, hys⟩, -⟩ := hr
    simp only [slobGetFreePages, Act.wp_bind, Act.wp_get]
    cases allocPages (2 ^ findOrder (toS32 size)) t.used with
    | some pages => exact hmt
    | none =>
      -- no pages: the record is freed again
      have hc : c ∈ out ∪ span c 2 := Finset.mem_union_right _ (mem_span.mpr (by omega))
      rw [Act.wp_pure, Act.wp_bind]
      exact Act.wp_mono (hys.wp_slobFree_merged (n := 2) hmt (hys.pos_of_out hc) (by norm_num) rfl
        Finset.subset_union_right fuel) (fun _ _ => id) fun _ => id

/-- **`kfree` leaves nothing to join.** -/
theorem wp_kfree_merged (h : Kept I s live xs out) (hm : Merged s) (hp : live p = some size)
    (hs : size < 4080) (fuel : ℕ) :
    Act.wp (kfree fuel p) (fun _ t => Merged t) (fun _ => True) s := by
  obtain ⟨hrun, hpos, hunits, -, hsub⟩ := h.smallFree hp hs
  rw [Act.wp_congr (hrun fuel)]
  exact h.slob.wp_slobFree_merged hm hpos hunits rfl hsub fuel

/-- Writes to the bytes asked for leave the records of the free blocks alone. -/
theorem merged_write (h : Kept I s live xs out) (hm : Merged s) (hs : Sound s live)
    {units next : ℕ → ℕ} (hw : ∀ a, (∀ b ∈ span a 1, ¬ Writable I s live b) →
      units a = s.units a ∧ next a = s.next a) :
    Merged { s with units := units, next := next } := by
  have hfree := h.unwritten hs hw
  refine Merged.of_closed (S := (· ∈ xs)) h.slob.start (fun a ha => ?_) fun a ha => ?_ <;>
    obtain ⟨hu, hn⟩ := hfree a ha <;> dsimp only
  · rw [hn]
    exact h.slob.ring.next_mem ha
  · rw [hu, hn]
    exact hm a (h.slob.onFreeList_iff.mpr ha)

end Kept

/-! ## Runs of small requests -/

/-- The size of a small block: a page has room for it, its header and another unit. -/
abbrev SmallSize (size : ℕ) : Prop := size < PGSIZE - 2 * SLOB_UNIT

/-- In a run of small requests every live block is small, and nothing on the list is left to join. -/
theorem Run.kept_merged (h : Run I SmallSize s live) :
    (∃ xs out, Kept I s live xs out) ∧ Merged s ∧ ∀ p size, live p = some size → size < 4064 := by
  have hcov : ∀ {live : Live}, (∀ p size, live p = some size → size < 4064) →
      ∀ p size, live p = some size → Covered size := fun hlive p size hp =>
    covered_of_lt ((hlive p size hp).trans (by norm_num))
  have hupdate : ∀ {live : Live} {p : ℕ} {new : Option ℕ}, (∀ q size, live q = some size → size < 4064) →
      (∀ size, new = some size → size < 4064) →
      ∀ q size, Function.update live p new q = some size → size < 4064 := by
    intro live p new hlive hnew q size hq
    rcases eq_or_ne q p with rfl | hqp
    · exact hnew size ((Function.update_self q new live).symm.trans hq)
    · exact hlive q size ((Function.update_of_ne hqp new live).symm.trans hq)
  induction h with
  | init units next =>
    refine ⟨⟨_, _, Kept.init units next⟩, ?_, fun _ _ h => (nomatch h)⟩
    refine Merged.of_closed (S := (· = I.arena)) rfl ?_ ?_ <;> rintro a rfl
    · exact Function.update_self ..
    · change Function.update next I.arena I.arena I.arena ≠
        I.arena + 16 * Function.update units I.arena 1 I.arena
      rw [Function.update_self, Function.update_self]
      omega
  | @kmalloc s t live fuel size p allocPages _ hfresh h1 _ hsmall hrun ih =>
    obtain ⟨⟨xs, out, hk⟩, hm, hlive⟩ := ih
    refine ⟨Act.wp_of_ok (hk.wp_kmalloc hfresh h1 fuel) hrun,
      Act.wp_of_ok (hk.wp_kmalloc_merged hm hfresh h1 fuel) hrun, hupdate hlive ?_⟩
    intro size' hsize
    obtain rfl := Option.some.inj hsize
    exact hsmall
  | @kmallocNull s t live fuel size allocPages _ hfresh h1 _ hrun ih =>
    obtain ⟨⟨xs, out, hk⟩, hm, hlive⟩ := ih
    exact ⟨Act.wp_of_ok (hk.wp_kmalloc hfresh h1 fuel) hrun,
      Act.wp_of_ok (hk.wp_kmalloc_merged hm hfresh h1 fuel) hrun, hlive⟩
  | @kfree s t live fuel size p _ hp hrun ih =>
    obtain ⟨⟨xs, out, hk⟩, hm, hlive⟩ := ih
    have hs : size < 4080 := (hlive p size hp).trans (by norm_num)
    exact ⟨Act.wp_of_ok (hk.wp_kfree hp fuel) hrun, Act.wp_of_ok (hk.wp_kfree_merged hm hp hs fuel) hrun,
      hupdate hlive fun _ h => (nomatch h)⟩
  | write units next _ hw ih =>
    obtain ⟨⟨xs, out, hk⟩, hm, hlive⟩ := ih
    have hsound := hk.sound (hcov hlive)
    exact ⟨⟨xs, out, hk.write hsound hw⟩, hk.merged_write hm hsound hw, hlive⟩

/-- **Small blocks only**: after every call the free list is in order with one wrap, keeps the arena, has
no two blocks that touch and no empty one, and the units of the free and the live blocks are those of
the arena and the pages obtained, none of which was given back; and every next call returns. -/
theorem kmalloc_units (h : Run I SmallSize s live) :
    (∃ xs, FreeList I.arena s xs ∧ ∃ L : Finset ℕ, (∀ p, p ∈ L ↔ live p ≠ none) ∧
      (xs.map s.units).sum + ∑ p ∈ L, s.units (p - SLOB_UNIT) = 1 + 256 * s.used.card) ∧
    s.bigblocks = [] ∧
    ∃ enough, ∀ fuel ≥ enough,
      (∀ allocPages size, Fresh I allocPages → 1 ≤ size → SmallSize size →
        ∃ r t, kmalloc fuel allocPages size s = .ok (r, t)) ∧
      ∀ p, live p ≠ none → ∃ t, kfree fuel p s = .ok ((), t) := by
  obtain ⟨⟨xs, out, hk⟩, hm, hlive⟩ := h.kept_merged
  have hsmall : ∀ p size, live p = some size → size < 4080 := fun p size hp =>
    (hlive p size hp).trans (by norm_num)
  refine ⟨⟨xs, hk.slob.freeList hm, ?_⟩, ?_, 2 * xs.length + 2, fun fuel hfuel => ⟨?_, ?_⟩⟩
  · obtain ⟨L, hL⟩ := hk.exists_addresses
    refine ⟨L, hL, ?_⟩
    have hcard := hk.slob.card
    rw [hk.card_out hsmall hL] at hcard
    omega
  · refine List.eq_nil_iff_forall_not_mem.mpr fun bb hbb => ?_
    obtain ⟨size, hsize, hbig⟩ := hk.bigs bb hbb
    have := hsmall _ _ hsize
    omega
  · intro allocPages size hfresh h1 hs
    have hwp := hk.wp_kmalloc_small hfresh h1 hs fuel
    obtain ⟨r, t, hrun, -⟩ := Act.wp_false_iff.mp (Act.wp_mono hwp (fun _ _ => id) fun e he => by omega)
    exact ⟨r, t, hrun⟩
  · intro p hp
    obtain ⟨size, hsize⟩ := Option.ne_none_iff_exists'.mp hp
    have hwp := hk.wp_kfree hsize fuel
    obtain ⟨_, t, hrun, -⟩ := Act.wp_false_iff.mp (Act.wp_mono hwp (fun _ _ => id) fun e he => by omega)
    exact ⟨t, hrun⟩

/-- One request from boot: eight units of a page, which has 248 left. -/
theorem kmalloc_units_boot : ∃ t, kmalloc 5 bumpPages 100 bootHeap = .ok (some 0x80300010, t) ∧
    ∃ xs, FreeList bootImage.arena t xs ∧ ∃ L : Finset ℕ,
      (∀ p, p ∈ L ↔ Function.update (fun _ => none) 0x80300010 (some 100) p ≠ none) ∧
      (xs.map t.units).sum + ∑ p ∈ L, t.units (p - SLOB_UNIT) = 1 + 256 * t.used.card := by
  have hboot : Run bootImage SmallSize bootHeap fun _ => none := Run.init _ _
  have hfirst := hboot.kmalloc fresh_bumpPages (show 1 ≤ 100 by norm_num) (by norm_num)
    (show SmallSize 100 by decide) (show kmalloc 5 bumpPages 100 bootHeap = .ok (some 0x80300010, _)
      from rfl)
  exact ⟨_, rfl, (kmalloc_units hfirst).1⟩

end UCore.Kmalloc
