import UCore.Mm.KmallocRun

/-!
# Mm/KmallocMerged — the free list of small blocks, with nothing left to join

    slobfree ─▸ b ─▸ c ─▸ … ─▸ arena ─▸ …        b + b->units ≠ c

No block on the list ends where the next one starts, whatever is taken from the list or put back; and
since the small blocks and the free ones part the arena and the pages obtained, their units add up.
-/

namespace UCore.Kmalloc

/-- **Nothing is left to join**: no block on the list ends where the next starts. -/
def Merged (s : SlobHeap) : Prop :=
  ∀ p, OnFreeList s p → s.next p ≠ p + 16 * s.units p

variable {I : Image} {s t : SlobHeap} {xs ys as bs : List ℕ} {out : Finset ℕ} {b c p q n size : ℕ}

/-! ## What is on the list -/

/-- What holds of the first block, and of the next block with each, holds of all. -/
theorem OnFreeList.of_closed {S : ℕ → Prop} (h : OnFreeList s p) (hstart : S s.slobfree)
    (hnext : ∀ a, S a → S (s.next a)) : S p := by
  obtain ⟨k, rfl⟩ := h
  induction k with
  | zero => exact hstart
  | succ k ih =>
    rw [Function.iterate_succ_apply']
    exact hnext _ ih

theorem Slob.onFreeList_iff (h : Slob I s xs out) : OnFreeList s p ↔ p ∈ xs :=
  (h.ring.mem_iff_iterate h.start).symm

/-- It is enough that no block of a part of the memory that the list stays in does. -/
theorem Merged.of_closed {S : ℕ → Prop} (hstart : S s.slobfree) (hnext : ∀ a, S a → S (s.next a))
    (hapart : ∀ a, S a → s.next a ≠ a + 16 * s.units a) : Merged s :=
  fun _ hp => hapart _ (hp.of_closed hstart hnext)

/-- The blocks of a list without two that touch are apart. -/
theorem Merged.apart (hm : Merged s) (h : Slob I s xs out) (hp : p ∈ xs) (hq : q ∈ xs) :
    p + 16 * s.units p ≠ q := by
  intro heq
  have hpos := h.pos p hp
  obtain ⟨as, bs, rfl⟩ := List.append_of_mem hp
  have hs := h.sorted
  rw [Blocks.Sorted, List.pairwise_append, List.pairwise_cons] at hs
  obtain ⟨-, ⟨hpb, hbs⟩, hab⟩ := hs
  have hqb : q ∈ bs := by
    rcases List.mem_append.mp hq with hqa | hq
    · have := (hab q hqa p List.mem_cons_self).1
      omega
    · rcases List.mem_cons.mp hq with rfl | hqb
      · omega
      · exact hqb
  -- the next block is the first above, and it is not above `q`
  obtain _ | ⟨y, bs⟩ := bs
  · cases hqb
  have hy : s.next p = y := Circuit.next_cons (r := bs ++ as) h.ring.cut
  have hpy := (hpb y List.mem_cons_self).2
  have hyq : y ≤ q := by
    rcases List.mem_cons.mp hqb with rfl | hqb
    · exact le_rfl
    · exact ((List.pairwise_cons.mp hbs).1 q hqb).1.le
  refine hm p (h.onFreeList_iff.mpr hp) (hy.trans ?_)
  unfold bytes at hpy
  omega

/-! ## A free -/

/-- **Joining with the next block, or not**: the block does not end where its next starts. -/
theorem wp_joinNext_next (hq : s.next q ≠ q + 16 * s.units q) (E : Stop → Prop) :
    Act.wp (joinNext b q) (fun _ t => (∀ p, p ≠ b → t.next p = s.next p ∧ t.units p = s.units p) ∧
      t.next b ≠ b + 16 * t.units b ∧ (t.next b = q ∨ t.next b = s.next q)) E s := by
  simp only [joinNext, setUnits, setNext, Act.wp_bind, Act.wp_get, Act.wp_ite, Act.wp_modify]
  refine ⟨fun heq => ⟨fun p hp => ⟨Function.update_of_ne hp .., Function.update_of_ne hp ..⟩, ?_, ?_⟩,
    fun hne => ⟨fun p hp => ⟨Function.update_of_ne hp .., trivial⟩, ?_, ?_⟩⟩
  · have heq : b + 16 * s.units b = q := heq
    rw [Function.update_self, Function.update_self]
    intro hno
    exact hq (by omega)
  · exact .inr (Function.update_self ..)
  · rw [Function.update_self]
    exact fun hno => hne hno.symm
  · exact .inl (Function.update_self ..)

/-- **Joining the block before, or not**: that one does not end where its next starts. -/
theorem wp_joinPrev_next (hb : s.next b ≠ b + 16 * s.units b) (E : Stop → Prop) :
    Act.wp (do joinPrev c b; setSlobfree c) (fun _ t => t.slobfree = c ∧
      (∀ p, p ≠ c → t.next p = s.next p ∧ t.units p = s.units p) ∧
      t.next c ≠ c + 16 * t.units c ∧ (t.next c = b ∨ t.next c = s.next b)) E s := by
  simp only [joinPrev, setUnits, setNext, setSlobfree, Act.wp_bind, Act.wp_get, Act.wp_ite,
    Act.wp_modify]
  refine ⟨fun heq => ⟨trivial, fun p hp => ⟨Function.update_of_ne hp .., Function.update_of_ne hp ..⟩,
    ?_, ?_⟩, fun hne => ⟨trivial, fun p hp => ⟨Function.update_of_ne hp .., trivial⟩, ?_, ?_⟩⟩
  · have heq : c + 16 * s.units c = b := heq
    rw [Function.update_self, Function.update_self]
    intro hno
    exact hb (by omega)
  · exact .inr (Function.update_self ..)
  · rw [Function.update_self]
    exact fun hno => hne hno.symm
  · exact .inl (Function.update_self ..)

/-- **`slob_free` leaves nothing to join.** -/
theorem Slob.wp_slobFree_merged (h : Slob I s xs out) (hm : Merged s) (hb : 0 < b) (hn : 0 < n)
    (hsize : n = if size = 0 then s.units b else slobUnits size) (hout : span b n ⊆ out) (fuel : ℕ) :
    Act.wp (slobFree fuel b size) (fun _ t => Merged t) (fun _ => True) s := by
  have hbout : b ∈ out := hout (mem_span.mpr ⟨le_rfl, by omega⟩)
  have hbx : b ∉ xs := fun hbx => h.head_notMem hbx hbout
  obtain ⟨as, bs, rfl, has, hbs⟩ := Blocks.exists_split h.sorted hbx
  have key : Act.wp (do
      let cur ← reinsertionPoint fuel b
      joinNext b ((← get).next cur)
      joinPrev cur b
      setSlobfree cur) (fun _ t => Merged t) (fun _ => True)
      { s with units := Function.update s.units b n } := by
    have hxs : ∀ p ∈ as ++ bs, p ≠ b := fun p hp => ne_of_mem_of_not_mem hp hbx
    have hsame : ∀ p ∈ as ++ bs, Function.update s.units b n p = s.units p := fun p hp =>
      Function.update_of_ne (hxs p hp) ..
    have h₀ : Slob I { s with units := Function.update s.units b n } (as ++ bs) out :=
      h.frame hsame (fun _ _ => rfl) rfl rfl
    have hm₀ : ∀ p ∈ as ++ bs, s.next p ≠ p + 16 * Function.update s.units b n p := fun p hp => by
      rw [hsame p hp]
      exact hm p (h.onFreeList_iff.mpr hp)
    rw [Act.wp_bind]
    refine Act.wp_mono (h₀.wp_reinsertionPoint has hbs fuel) ?_ fun _ _ => trivial
    rintro c _ ⟨rfl, r, hr⟩
    have hc : c ∈ as ++ bs := by
      have hcr : c ∈ bs ++ as := hr ▸ List.mem_append_right r (List.mem_singleton_self c)
      rw [List.mem_append] at hcr ⊢
      exact hcr.symm
    have hq := h.ring.next_mem hc
    rw [Act.wp_bind, Act.wp_get, Act.wp_bind]
    refine Act.wp_mono (wp_joinNext_next (hm₀ _ hq) _) ?_ fun _ => id
    rintro - t ⟨hother, hb', hnext⟩
    refine Act.wp_mono (wp_joinPrev_next hb' _) ?_ fun _ => id
    rintro - t' ⟨hfree, hother', hc', hnext'⟩
    have hold : ∀ p, p ≠ b → p ≠ c → t'.next p = s.next p ∧
        t'.units p = Function.update s.units b n p := fun p hpb hpc =>
      ⟨(hother' p hpc).1.trans (hother p hpb).1, (hother' p hpc).2.trans (hother p hpb).2⟩
    obtain ⟨hbn, hbu⟩ := hother' b (hxs c hc).symm
    have htb : t.next b ∈ as ++ bs := by
      rcases hnext with heq | heq <;> rw [heq]
      · exact hq
      · exact h.ring.next_mem hq
    -- the list stays among the old blocks and `b`, and none of these is left to join
    refine Merged.of_closed (S := fun p => p ∈ as ++ bs ∨ p = b) (.inl (hfree ▸ hc)) ?_ ?_
    · intro p hp
      rcases eq_or_ne p b with rfl | hpb
      · rw [hbn]
        exact .inl htb
      rcases eq_or_ne p c with rfl | hpc
      · rcases hnext' with heq | heq <;> rw [heq]
        · exact .inr rfl
        · exact .inl htb
      · rw [(hold p hpb hpc).1]
        exact .inl (h.ring.next_mem (hp.resolve_right hpb))
    · intro p hp
      rcases eq_or_ne p b with rfl | hpb
      · rw [hbn, hbu]
        exact hb'
      rcases eq_or_ne p c with rfl | hpc
      · exact hc'
      · rw [(hold p hpb hpc).1, (hold p hpb hpc).2]
        exact hm₀ p (hp.resolve_right hpb)
  rw [slobFree, if_neg hb.ne']
  dsimp only
  rw [Act.wp_ite]
  refine ⟨fun h0 => ?_, fun h0 => ?_⟩
  · rw [if_neg h0] at hsize
    subst hsize
    exact key
  · rw [if_pos (not_not.mp h0)] at hsize
    subst hsize
    rw [Function.update_eq_self] at key
    exact key

/-! ## An allocation -/

/-- **Once a block is gone** the block before it still does not end where its next starts. -/
theorem Slob.skip (h : Slob I s xs out) (hp : p ∈ xs) (hca : I.arena ≠ s.next p) :
    s.next (s.next p) ≠ p + 16 * s.units p := by
  have hpos := h.pos p hp
  obtain ⟨as, bs, rfl⟩ := List.append_of_mem (h.ring.next_mem hp)
  generalize hc : s.next p = c at *
  obtain ⟨r, hr, hring, -, -⟩ := h.ring_from_pred hp hc hca
  have hs := h.sorted
  rw [Blocks.Sorted, List.pairwise_append, List.pairwise_cons] at hs
  obtain ⟨has, ⟨hcb, hbs⟩, hab⟩ := hs
  obtain _ | ⟨y, r⟩ := r
  · have hnext : s.next c = p := Circuit.next_cons (r := []) (Circuit.turn hring)
    omega
  have hnext : s.next c = y := Circuit.next_cons (r := r ++ [p]) (Circuit.turn hring)
  rw [hnext]
  obtain _ | ⟨x, as⟩ := as
  · -- `c` is the first of the list, and `p` the last
    rw [List.append_nil] at hr
    have := ((List.pairwise_cons.mp (hr ▸ hbs)).1 p (by simp)).1
    omega
  obtain ⟨z, rfl⟩ | ⟨hbs', hlast⟩ : (∃ z, bs = y :: z) ∨ bs = [] ∧ x :: as = y :: r ++ [p] := by
    obtain _ | ⟨w, z⟩ := bs
    · exact .inr ⟨rfl, hr⟩
    · exact .inl ⟨z, by rw [(List.cons.inj hr).1]⟩
  · -- `p` is below `c`, and what follows is above
    have hcy := (hcb y List.mem_cons_self).1
    have hpx : p ∈ x :: as := by
      have hmem : (x :: as) ≠ [] := List.cons_ne_nil x as
      have hl := congrArg List.getLast? hr
      rw [List.getLast?_append_of_ne_nil _ hmem, List.getLast?_concat] at hl
      exact List.mem_of_getLast? hl
    have hpc := (hab p hpx c List.mem_cons_self).2
    unfold bytes at hpc
    omega
  · have := ((List.pairwise_cons.mp (hlast ▸ has)).1 p (by simp)).1
    omega

/-- **What is split off a block** leaves nothing to join, and neither does the whole. -/
theorem Slob.wp_takeUnits_merged (h : Slob I s xs out) (hm : Merged s) (hp : p ∈ xs) (hn : 0 < n)
    (hca : I.arena ≠ s.next p) (hle : n ≤ s.units (s.next p)) (E : Stop → Prop) :
    Act.wp (takeUnits p (s.next p) n) (fun _ t => Merged t) E s := by
  have hskip := h.skip hp hca
  have hmx : ∀ x ∈ xs, s.next x ≠ x + 16 * s.units x := fun x hx => hm x (h.onFreeList_iff.mpr hx)
  have hcx := h.ring.next_mem hp
  have hnext : ∀ x ∈ xs, s.next x ∈ xs := fun x hx => h.ring.next_mem hx
  generalize hc : s.next p = c at *
  obtain ⟨as, bs, rfl⟩ := List.append_of_mem hcx
  obtain ⟨-, -, -, hpc, -⟩ := h.ring_from_pred hp hc hca
  simp only [takeUnits, setUnits, setNext, setSlobfree, Act.wp_bind, Act.wp_get, Act.wp_ite,
    Act.wp_modify]
  refine ⟨fun heq => ?_, fun hne => ?_⟩
  · refine Merged.of_closed (S := fun x => x ∈ as ++ c :: bs) hp (fun x hx => ?_) fun x hx => ?_ <;>
      rcases eq_or_ne x p with rfl | hxp <;> dsimp only
    · rw [Function.update_self]
      exact hnext c hcx
    · rw [Function.update_of_ne hxp]
      exact hnext x hx
    · rw [Function.update_self]
      exact hskip
    · rw [Function.update_of_ne hxp]
      exact hmx x hx
  · have hlt : n < s.units c := lt_of_le_of_ne hle (Ne.symm hne)
    have hf : c + 16 * n ∉ as ++ c :: bs :=
      h.sorted.notMem_inside (by omega) (by unfold bytes; omega)
    have hxf : ∀ x ∈ as ++ c :: bs, x ≠ c + 16 * n := fun x hx => ne_of_mem_of_not_mem hx hf
    have hfc : c + 16 * n ≠ c := (hxf c hcx).symm
    have hpf : c + 16 * n ≠ p + 16 * s.units p := by
      have hs := h.sorted
      rw [Blocks.Sorted, List.pairwise_append, List.pairwise_cons] at hs
      rcases List.mem_append.mp hp with hpa | hpb
      · have := (hs.2.2 p hpa c List.mem_cons_self).2
        unfold bytes at this
        omega
      · have := (hs.2.1.1 p ((List.mem_cons.mp hpb).resolve_left hpc)).2
        have := h.pos p hp
        unfold bytes at *
        omega
    rw [Function.update_of_ne hpc.symm]
    refine Merged.of_closed (S := fun x => x ∈ as ++ c :: bs ∨ x = c + 16 * n) (.inl hp)
      (fun x hx => ?_) fun x hx => ?_ <;>
      rcases eq_or_ne x (c + 16 * n) with rfl | hxf' <;> dsimp only
    · rw [Function.update_self]
      exact .inl (hnext c hcx)
    · rw [Function.update_of_ne hxf']
      rcases eq_or_ne x p with rfl | hxp
      · rw [Function.update_self]
        exact .inr rfl
      · rw [Function.update_of_ne hxp]
        exact .inl (hnext x (hx.resolve_right hxf'))
    · have := hmx c hcx
      rw [Function.update_self, Function.update_of_ne hfc, Function.update_self]
      omega
    · have hx := hx.resolve_right hxf'
      rw [Function.update_of_ne hxf']
      rcases eq_or_ne x p with rfl | hxp
      · rw [Function.update_self, Function.update_of_ne hpc, Function.update_of_ne hxf']
        exact hpf
      · rw [Function.update_of_ne hxp]
        rcases eq_or_ne x c with rfl | hxc
        · rw [Function.update_self]
          exact hxf _ (hnext x hx)
        · rw [Function.update_of_ne hxc, Function.update_of_ne hxf']
          exact hmx x hx

/-- **`slob_alloc` leaves nothing to join.** -/
theorem Slob.wp_slobAlloc_merged {allocPages : PageAlloc} (h : Slob I s xs out) (hm : Merged s)
    (hfresh : Fresh I allocPages) (hn : 1 < slobUnits size) (fuel : ℕ) :
    Act.wp (slobAlloc fuel allocPages size) (fun _ t => Merged t) (fun _ => True) s := by
  rw [slobAlloc, Act.wp_bind, Act.wp_require]
  refine ⟨fun _ => ?_, fun _ => trivial⟩
  simp only [Act.wp_bind, Act.wp_get]
  refine Act.wp_loop_of_ends (fun b t => b.2 = t.next b.1 ∧ Merged t ∧ ∃ ys, Slob I t ys out ∧ b.1 ∈ ys)
    trivial ?_ fuel _ _ ⟨rfl, hm, xs, h, h.start⟩
  rintro ⟨p, c⟩ t ⟨hc, hmt, ys, hys, hp⟩
  obtain rfl : c = t.next p := hc
  simp only [Act.wp_bind, Act.wp_get, Act.wp_ite, Act.wp_pure]
  refine ⟨fun hle => hys.wp_takeUnits_merged hmt hp (by omega) (hys.arena_ne hn hle) hle _,
    fun _ => ⟨fun _ => ⟨fun _ => hmt, fun _ => ?_⟩, fun _ => ⟨rfl, hmt, ys, hys, hys.ring.next_mem hp⟩⟩⟩
  -- a page more, which is freed into the list
  have hpages : Act.wp (slobGetFreePages allocPages 0) (fun _ t' => Merged t') (fun _ => True) t := by
    simp only [slobGetFreePages, Act.wp_bind, Act.wp_get]
    cases allocPages (2 ^ 0) t.used <;> exact hmt
  refine Act.wp_mono (Act.wp_and (hys.wp_slobGetFreePages hfresh 0 fun _ => True) hpages) ?_
    fun _ _ => trivial
  rintro (_ | page) t₁ ⟨hr, hm₁⟩
  · exact hm₁
  obtain ⟨hpos, -, hslob, hdisj, -⟩ := hr
  rw [pow_zero, Nat.mul_one] at hslob hdisj
  have hback : (out ∪ span page 256) \ span page 256 = out := by
    rw [Finset.union_sdiff_right, hdisj.sdiff_eq_left]
  simp only [Act.wp_bind, Act.wp_get, Act.wp_pure]
  refine Act.wp_mono (Act.wp_and
    (wp_slobFree (n := 256) hslob hpos (by norm_num) rfl Finset.subset_union_right fuel)
    (hslob.wp_slobFree_merged (n := 256) hm₁ hpos (by norm_num) rfl Finset.subset_union_right fuel)) ?_
    fun _ _ => trivial
  rintro - t₂ ⟨⟨⟨zs, -, hzs⟩, -⟩, hm₂⟩
  rw [hback] at hzs
  exact ⟨rfl, hm₂, zs, hzs, hzs.start⟩

end UCore.Kmalloc
