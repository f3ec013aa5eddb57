import UCore.Machinery.Blocks
import UCore.Machinery.Circuit
import UCore.Mm.Kmalloc

/-!
# Mm/KmallocSpec — the free list under `slob_alloc` and `slob_free`

    arena ─▸ b ─▸ c ─▸ arena        in order of address, with one wrap

`Slob` says that the free blocks are a ring of disjoint blocks, and that the free bytes and the
bytes handed out are exactly the arena and the pages in use.  The arena lies inside the kernel's
image and the pages outside, so no block ever joins the arena: it stays on the list, one unit long,
and every request is for more.
-/

namespace UCore.Kmalloc

/-- **The kernel's image**, with the arena strictly inside: there is code below it and the page
array above. -/
structure Image where
  lo : ℕ
  hi : ℕ
  arena : ℕ
  below : lo < arena
  above : arena + 16 < hi

/-- The size of a block in bytes. -/
def bytes (s : SlobHeap) (p : ℕ) : ℕ := 16 * s.units p

/-- The bytes of the free blocks. -/
def freeBytes (s : SlobHeap) (xs : List ℕ) : Finset ℕ := Blocks.cells (bytes s) xs

/-- The bytes of `n` units at `p`. -/
def span (p n : ℕ) : Finset ℕ := Finset.Ico p (unitsPast p n)

/-- **The free list**: `xs` are the free blocks, `out` the bytes handed out. -/
structure Slob (I : Image) (s : SlobHeap) (xs : List ℕ) (out : Finset ℕ) : Prop where
  ring : Circuit s.next xs
  sorted : Blocks.Sorted (bytes s) xs
  pos : ∀ p ∈ xs, 0 < s.units p
  start : s.slobfree ∈ xs
  arena : I.arena ∈ xs
  arenaUnits : s.units I.arena = 1
  disjoint : Disjoint (freeBytes s xs) out
  cover : ∀ b, b ∈ freeBytes s xs ∨ b ∈ out ↔ b ∈ span I.arena 1 ∨ b / PGSIZE ∈ s.used
  outside : ∀ b, b / PGSIZE ∈ s.used → 0 < b ∧ (b < I.lo ∨ I.hi ≤ b)

/-- **What `alloc_pages` promises**: whole pages, none of them in use or in the kernel's image. -/
def Fresh (I : Image) (allocPages : PageAlloc) : Prop :=
  ∀ n used kva, allocPages n used = some kva →
    0 < kva ∧ PGSIZE ∣ kva ∧ Disjoint (Finset.Ico (kva / PGSIZE) (kva / PGSIZE + n)) used ∧
      ∀ b, kva ≤ b → b < kva + 4096 * n → b < I.lo ∨ I.hi ≤ b

variable {I : Image} {s t : SlobHeap} {xs as bs r : List ℕ} {out : Finset ℕ} {a b c p q n : ℕ}

theorem mem_span : a ∈ span p n ↔ p ≤ a ∧ a < p + 16 * n := Finset.mem_Ico

theorem slobUnits_eq (n : ℕ) : slobUnits n = (n + 15) / 16 := rfl

namespace Slob

theorem mem_free_of_head (h : Slob I s xs out) (hp : p ∈ xs) : p ∈ freeBytes s xs := by
  have := h.pos p hp
  exact Blocks.mem_cells.mpr ⟨p, hp, le_rfl, by unfold bytes; omega⟩

/-- The head of a free block is not handed out. -/
theorem head_notMem (h : Slob I s xs out) (hp : p ∈ xs) : p ∉ out :=
  Finset.disjoint_left.mp h.disjoint (h.mem_free_of_head hp)

/-- A byte in a page in use lies clear of the arena. -/
theorem clear_of_out (h : Slob I s xs out) (hb : b ∈ out) :
    b + 1 < I.arena ∨ I.arena + 16 < b := by
  have hnot : b ∉ span I.arena 1 := by
    intro hb'
    rw [mem_span] at hb'
    refine Finset.disjoint_left.mp h.disjoint (Blocks.mem_cells.mpr ⟨I.arena, h.arena, ?_⟩) hb
    unfold bytes
    rw [h.arenaUnits]
    exact hb'
  have hused := ((h.cover b).mp (.inr hb)).resolve_left hnot
  rcases (h.outside b hused).2 with hlo | hhi
  · have := I.below
    omega
  · have := I.above
    omega

theorem used_of_out (h : Slob I s xs out) (hb : b ∈ out) : b / PGSIZE ∈ s.used := by
  refine ((h.cover b).mp (.inr hb)).resolve_left fun harena => ?_
  have := h.clear_of_out hb
  rw [mem_span] at harena
  omega

theorem pos_of_out (h : Slob I s xs out) (hb : b ∈ out) : 0 < b :=
  (h.outside b (h.used_of_out hb)).1

/-- Free bytes are handed-out bytes of no one: the free list depends only on its own headers. -/
theorem frame (h : Slob I s xs out) (hu : ∀ p ∈ xs, t.units p = s.units p)
    (hn : ∀ p ∈ xs, t.next p = s.next p) (hfree : t.slobfree = s.slobfree)
    (hused : t.used = s.used) : Slob I t xs out := by
  have hb : ∀ p ∈ xs, bytes t p = bytes s p := fun p hp => by rw [bytes, hu p hp, bytes]
  have hcells : freeBytes t xs = freeBytes s xs := Blocks.cells_congr hb
  exact ⟨h.ring.congr hn, h.sorted.congr hb, fun p hp => hu p hp ▸ h.pos p hp, hfree ▸ h.start,
    h.arena, (hu _ h.arena).trans h.arenaUnits, hcells ▸ h.disjoint, by rw [hcells, hused]; exact h.cover,
    hused ▸ h.outside⟩

/-! ## Pages come and go -/

/-- The bytes of whole pages. -/
theorem mem_span_pages {kva : ℕ} (hdvd : PGSIZE ∣ kva) :
    b ∈ span kva (256 * n) ↔ b / PGSIZE ∈ Finset.Ico (kva / PGSIZE) (kva / PGSIZE + n) := by
  obtain ⟨k, rfl⟩ := hdvd
  rw [mem_span, Finset.mem_Ico]
  change 4096 * k ≤ b ∧ b < 4096 * k + 16 * (256 * n) ↔ 4096 * k / 4096 ≤ b / 4096 ∧ b / 4096 < 4096 * k / 4096 + n
  omega

/-- **Pages from `alloc_pages`** are handed out, and clear of everything else. -/
theorem getPages {allocPages : PageAlloc} {kva : ℕ} (h : Slob I s xs out)
    (hfresh : Fresh I allocPages) (hkva : allocPages n s.used = some kva) :
    Slob I { s with used := s.used ∪ Finset.Ico (kva / PGSIZE) (kva / PGSIZE + n) } xs
      (out ∪ span kva (256 * n)) ∧ Disjoint out (span kva (256 * n)) := by
  obtain ⟨hpos, hdvd, hdisj, himage⟩ := hfresh n s.used kva hkva
  have hnot : ∀ b ∈ span kva (256 * n), b ∉ freeBytes s xs ∧ b ∉ out := by
    intro b hb
    have hused : b / PGSIZE ∉ s.used :=
      Finset.disjoint_left.mp hdisj ((mem_span_pages hdvd).mp hb)
    have harena : b ∉ span I.arena 1 := fun ha => by
      rw [mem_span] at ha hb
      have := himage b hb.1 (by omega)
      have := I.below
      have := I.above
      omega
    have := (h.cover b).not.mpr (not_or_intro harena hused)
    tauto
  refine ⟨⟨h.ring, h.sorted, h.pos, h.start, h.arena, h.arenaUnits, ?_, fun b => ?_, fun b hb => ?_⟩,
    Finset.disjoint_right.mpr fun b hb => (hnot b hb).2⟩
  · rw [Finset.disjoint_union_right]
    exact ⟨h.disjoint, Finset.disjoint_right.mpr fun b hb => (hnot b hb).1⟩
  · rw [Finset.mem_union, Finset.mem_union, ← mem_span_pages hdvd]
    have := h.cover b
    change b ∈ freeBytes s xs ∨ _ ↔ _
    tauto
  · rcases Finset.mem_union.mp hb with hb | hb
    · exact h.outside b hb
    · rw [← mem_span_pages hdvd, mem_span] at hb
      exact ⟨by omega, himage b hb.1 (by omega)⟩

/-- **Pages given back** are handed out no more. -/
theorem putPages {kva : ℕ} (h : Slob I s xs out) (hdvd : PGSIZE ∣ kva)
    (hout : span kva (256 * n) ⊆ out) :
    Slob I { s with used := s.used \ Finset.Ico (kva / PGSIZE) (kva / PGSIZE + n) } xs
      (out \ span kva (256 * n)) := by
  refine ⟨h.ring, h.sorted, h.pos, h.start, h.arena, h.arenaUnits,
    h.disjoint.mono_right Finset.sdiff_subset, fun b => ?_,
    fun b hb => h.outside b (Finset.mem_sdiff.mp hb).1⟩
  rw [Finset.mem_sdiff, Finset.mem_sdiff, ← mem_span_pages hdvd]
  have hcover := h.cover b
  have hsub := @hout b
  have hfree : b ∈ freeBytes s xs → b ∉ out := fun hb => Finset.disjoint_left.mp h.disjoint hb
  have harena : b ∈ span I.arena 1 → b ∉ out := fun ha hb => by
    have := h.clear_of_out hb
    rw [mem_span] at ha
    omega
  change b ∈ freeBytes s xs ∨ _ ↔ _
  tauto

/-! ## The two edits of a free -/

/-- **Linking handed-out bytes in** as a free block, after its predecessor `c`. -/
theorem link (h : Slob I s (as ++ bs) out) (hn : 0 < n) (hout : span b n ⊆ out)
    (has : ∀ p ∈ as, p < b) (hbs : ∀ p ∈ bs, b < p) (hc : bs ++ as = r ++ [c])
    (hunits : t.units = Function.update s.units b n)
    (hnext : t.next = Function.update (Function.update s.next b (s.next c)) c b)
    (hfree : t.slobfree = c) (hused : t.used = s.used) :
    Slob I t (as ++ b :: bs) (out \ span b n) := by
  have hmem : ∀ p, p ∈ as ++ bs ↔ p ∈ r ++ [c] := fun p => by
    rw [← hc, List.mem_append, List.mem_append, or_comm]
  have hbxs : b ∉ as ++ bs := fun hb =>
    h.head_notMem hb (hout (mem_span.mpr ⟨le_rfl, by omega⟩))
  have hnd : (r ++ [c]).Nodup := hc ▸ List.nodup_append_comm.mp h.sorted.nodup
  have hcr : c ∉ r := fun hcr => (List.nodup_append.mp hnd).2.2 c hcr c (by simp) rfl
  have hcxs : c ∈ as ++ bs := (hmem c).mpr (by simp)
  have hcb : c ≠ b := fun hcb => hbxs (hcb ▸ hcxs)
  have hsz : ∀ q, bytes t q = if q = b then 16 * n else bytes s q := by
    intro q
    unfold bytes
    rw [hunits, Function.update_apply]
    split <;> rfl
  have hpos : ∀ q ∈ as ++ bs, 0 < bytes s q := fun q hq => Nat.mul_pos (by norm_num) (h.pos q hq)
  have hdisj : Disjoint (Finset.Ico b (b + 16 * n)) (freeBytes s (as ++ bs)) :=
    h.disjoint.symm.mono_left hout
  have hcells : freeBytes t (as ++ b :: bs) = freeBytes s (as ++ bs) ∪ span b n :=
    Blocks.cells_insert has hbs hsz
  have hring : Circuit s.next (c :: r) := by
    have hring : Circuit s.next (bs ++ as) := h.ring.comm
    rw [hc] at hring
    exact hring.comm
  have hring' : Circuit t.next (c :: b :: r) := by
    refine hring.insert (by simp [hnext]) ?_ fun x hx => ?_
    · rw [hnext, Function.update_of_ne hcb.symm, Function.update_self]
    · have hxb : x ≠ b := fun hxb => hbxs (hxb ▸ (hmem x).mpr (by simp [hx]))
      have hxc : x ≠ c := fun hxc => hcr (hxc ▸ hx)
      rw [hnext, Function.update_of_ne hxc, Function.update_of_ne hxb]
  have harena : I.arena ≠ b := fun hab => hbxs (hab ▸ h.arena)
  refine ⟨?_, h.sorted.insert hpos (by omega) has hbs hdisj hsz, fun q hq => ?_, ?_, ?_, ?_, ?_, ?_,
    hused ▸ h.outside⟩
  · have hlist : b :: bs ++ as = b :: r ++ [c] := by rw [List.cons_append, hc, List.cons_append]
    have hturn : Circuit t.next (b :: bs ++ as) := hlist ▸ hring'.comm (u := [c])
    exact hturn.comm
  · rw [hunits, Function.update_apply]
    split
    · exact hn
    · exact h.pos q (by simp at hq ⊢; tauto)
  · rw [hfree]
    simp at hcxs ⊢
    tauto
  · have := h.arena
    simp at this ⊢
    tauto
  · rw [hunits, Function.update_of_ne harena, h.arenaUnits]
  · rw [hcells, Finset.disjoint_union_left]
    exact ⟨h.disjoint.mono_right Finset.sdiff_subset, Finset.disjoint_sdiff⟩
  · intro x
    rw [hcells, hused, ← h.cover x, Finset.mem_union, Finset.mem_sdiff]
    have := @hout x
    tauto

/-- **Joining two free blocks that touch**, neither of them the arena. -/
theorem join (h : Slob I s (as ++ p :: q :: bs) out) (htouch : p + bytes s p = q)
    (hp : p ≠ I.arena) (hq : q ≠ I.arena)
    (hunits : ∀ x ∈ as ++ p :: bs, t.units x = if x = p then s.units p + s.units q else s.units x)
    (hnext : ∀ x ∈ as ++ p :: bs, t.next x = if x = p then s.next q else s.next x)
    (hfree : t.slobfree ∈ as ++ p :: bs) (hused : t.used = s.used) :
    Slob I t (as ++ p :: bs) out := by
  have hold : ∀ x ∈ as ++ p :: bs, x ∈ as ++ p :: q :: bs := fun x hx => by simp at hx ⊢; tauto
  have hnd := h.sorted.nodup
  have hpnot : p ∉ as ++ bs := fun hpm => (List.nodup_middle.mp hnd).notMem (by simp at hpm ⊢; tauto)
  have hpmem : p ∈ as ++ p :: bs := by simp
  have hb : ∀ x ∈ as ++ p :: bs,
      bytes t x = if x = p then bytes s p + bytes s q else bytes s x := by
    intro x hx
    unfold bytes
    rw [hunits x hx]
    split <;> omega
  set sz : ℕ → ℕ := fun x => if x = p then bytes s p + bytes s q else bytes s x with hsz
  have hcells : freeBytes t (as ++ p :: bs) = freeBytes s (as ++ p :: q :: bs) :=
    (Blocks.cells_congr hb).trans (h.sorted.cells_merge htouch fun _ => rfl)
  have hring : Circuit t.next (p :: (bs ++ as)) := by
    refine Circuit.drop (x := q) h.ring.cut ?_ fun y hy => ?_
    · rw [hnext p hpmem, if_pos rfl]
    · have hyp : y ≠ p := fun hyp => hpnot (hyp ▸ by simp at hy ⊢; tauto)
      rw [hnext y (by simp at hy ⊢; tauto), if_neg hyp]
  refine ⟨hring.comm (u := p :: bs), Blocks.Sorted.congr (h.sorted.merge htouch fun _ => rfl) hb,
    fun x hx => ?_, hfree, ?_, ?_, hcells ▸ h.disjoint, ?_, hused ▸ h.outside⟩
  · have := h.pos x (hold x hx)
    rw [hunits x hx]
    split
    · next hxp => subst hxp; omega
    · exact this
  · have := h.arena
    simp at this ⊢
    tauto
  · have harena : I.arena ∈ as ++ p :: bs := by
      have := h.arena
      simp at this ⊢
      tauto
    rw [hunits _ harena, if_neg hp.symm, h.arenaUnits]
  · rw [hcells, hused]
    exact h.cover

/-! ## The edit of an allocation -/

/-- The free blocks once the first `n` units of `c` are gone. -/
abbrev rest (s : SlobHeap) (as : List ℕ) (c n : ℕ) (bs : List ℕ) : List ℕ :=
  as ++ (if 16 * n < bytes s c then [c + 16 * n] else []) ++ bs

/-- **Taking units from the front of a block** hands their bytes out. -/
theorem take (h : Slob I s (as ++ c :: bs) out) (hca : I.arena ≠ c) (hle : n ≤ s.units c)
    (hring : Circuit t.next (rest s as c n bs))
    (hunits : ∀ x ∈ rest s as c n bs,
      t.units x = if 16 * n < bytes s c ∧ x = c + 16 * n then s.units c - n else s.units x)
    (hfree : t.slobfree ∈ rest s as c n bs) (hused : t.used = s.used) :
    Slob I t (rest s as c n bs) (out ∪ span c n) := by
  have hb : ∀ x ∈ rest s as c n bs, bytes t x =
      if 16 * n < bytes s c ∧ x = c + 16 * n then bytes s c - 16 * n else bytes s x := by
    intro x hx
    rw [bytes, hunits x hx, bytes, bytes]
    split <;> omega
  have hle' : 16 * n ≤ bytes s c := by unfold bytes; omega
  have hcells : freeBytes t (rest s as c n bs) = freeBytes s (as ++ c :: bs) \ span c n :=
    (Blocks.cells_congr hb).trans (h.sorted.cells_take hle' fun _ => rfl)
  have hsub : span c n ⊆ freeBytes s (as ++ c :: bs) := fun x hx =>
    Blocks.mem_cells.mpr ⟨c, by simp, by rw [mem_span] at hx; omega⟩
  have harena : I.arena ∈ as ++ bs := by
    have := h.arena
    simp only [List.mem_append, List.mem_cons] at this ⊢
    tauto
  have hrest : 16 * n < bytes s c → I.arena ≠ c + 16 * n := fun hlt => by
    have hs := h.sorted
    rw [Blocks.Sorted, List.pairwise_append, List.pairwise_cons] at hs
    rcases List.mem_append.mp harena with ha | ha
    · have := hs.2.2 _ ha c (by simp)
      omega
    · have := hs.2.1.1 _ ha
      omega
  refine ⟨hring, Blocks.Sorted.congr (h.sorted.take fun _ => rfl) hb, fun x hx => ?_, hfree, ?_, ?_,
    ?_, fun x => ?_, hused ▸ h.outside⟩
  · rw [hunits x hx]
    split
    · next hx => simp only [bytes] at hx; omega
    · next hx' =>
      refine h.pos x ?_
      simp only [rest, List.mem_append, List.mem_cons, List.mem_ite_nil_right] at hx ⊢
      simp only [List.not_mem_nil, or_false] at hx
      tauto
  · simp only [rest, List.mem_append] at harena ⊢
    tauto
  · have hmem : I.arena ∈ rest s as c n bs := by
      simp only [rest, List.mem_append] at harena ⊢
      tauto
    rw [hunits _ hmem, if_neg fun hx => hrest hx.1 hx.2, h.arenaUnits]
  · rw [hcells, Finset.disjoint_union_right]
    exact ⟨h.disjoint.mono_left Finset.sdiff_subset, Finset.sdiff_disjoint⟩
  · rw [hcells, hused, ← h.cover x, Finset.mem_union, Finset.mem_sdiff]
    have := @hsub x
    tauto

/-! ## The search of a free -/

/-- Seen from `b`, the ring runs through the blocks above and then through the blocks below. -/
theorem pairwise_from (h : Slob I s (as ++ bs) out) (has : ∀ p ∈ as, p < b)
    (hbs : ∀ p ∈ bs, b < p) :
    (bs ++ as).Pairwise fun p q => p < b ∧ q < b ∧ p < q ∨ b < p ∧ b < q ∧ p < q ∨ b < p ∧ q < b := by
  have hs := h.sorted
  rw [Blocks.Sorted, List.pairwise_append] at hs
  rw [List.pairwise_append]
  refine ⟨hs.2.1.imp_of_mem fun hp hq hpq => ?_, hs.1.imp_of_mem fun hp hq hpq => ?_,
    fun p hp q hq => ?_⟩
  · exact .inr (.inl ⟨hbs _ hp, hbs _ hq, hpq.1⟩)
  · exact .inl ⟨has _ hp, has _ hq, hpq.1⟩
  · exact .inr (.inr ⟨hbs p hp, has q hq⟩)

/-- **The search of `slob_free` stops at the predecessor of `b`**, and nowhere else. -/
theorem stops_iff (h : Slob I s (as ++ bs) out) (has : ∀ p ∈ as, p < b) (hbs : ∀ p ∈ bs, b < p)
    (hc : c ∈ bs ++ as) :
    (c < b ∧ b < s.next c ∨ s.next c ≤ c ∧ (c < b ∨ b < s.next c)) ↔ ∃ r, bs ++ as = r ++ [c] := by
  have hring : Circuit s.next (bs ++ as) := h.ring.comm
  have hpw := h.pairwise_from has hbs
  constructor
  · intro hstop
    obtain ⟨u, v, huv⟩ := List.append_of_mem hc
    rw [huv] at hring hpw
    cases v with
    | nil => exact ⟨u, huv⟩
    | cons y v =>
      have hnext : s.next c = y := Circuit.next_cons (r := v ++ u) hring.cut
      rw [List.pairwise_append, List.pairwise_cons] at hpw
      have := hpw.2.1.1 y (by simp)
      rw [hnext] at hstop
      omega
  · rintro ⟨r, hr⟩
    rw [hr] at hring hpw
    have hne : c < b ∨ b < c := by
      rcases List.mem_append.mp hc with hc | hc
      · exact .inr (hbs c hc)
      · exact .inl (has c hc)
    cases r with
    | nil =>
      have hnext : s.next c = c := hring.next_last (r := []) rfl
      rw [hnext]
      omega
    | cons y r =>
      have hnext : s.next c = y := hring.next_last (r := y :: r) rfl
      have := (List.pairwise_cons.mp hpw).1 c (by simp)
      rw [hnext]
      omega

/-- **The search ends**: the predecessor of `b` is on the ring. -/
theorem wp_reinsertionPoint (h : Slob I s (as ++ bs) out) (has : ∀ p ∈ as, p < b)
    (hbs : ∀ p ∈ bs, b < p) (fuel : ℕ) :
    Act.wp (reinsertionPoint fuel b) (fun c s' => s' = s ∧ ∃ r, bs ++ as = r ++ [c])
      (fun e => e = .spin ∧ fuel ≤ (as ++ bs).length) s := by
  have hring : Circuit s.next (bs ++ as) := h.ring.comm
  have hstart : s.slobfree ∈ bs ++ as := by
    have := h.start
    simp only [List.mem_append] at this ⊢
    exact this.symm
  have hne : bs ++ as ≠ [] := fun h0 => by simp [h0] at hstart
  have hlast : bs ++ as = (bs ++ as).dropLast ++ [(bs ++ as).getLast hne] :=
    (List.dropLast_append_getLast hne).symm
  obtain ⟨n, hn, hit⟩ := hring.exists_iterate hstart (List.getLast_mem hne)
  simp only [reinsertionPoint, Act.wp_bind, Act.wp_get]
  refine Act.wp_loop (fun n c s' => s' = s ∧ c ∈ bs ++ as ∧ s.next^[n] c = (bs ++ as).getLast hne)
    ?_ fuel n _ _ ⟨rfl, hstart, hit⟩ fun hfuel => ⟨rfl, ?_⟩
  · rintro n c _ ⟨rfl, hc, hit⟩
    have hiff := h.stops_iff has hbs hc
    simp only [Act.wp_bind, Act.wp_get, Act.wp_ite, Act.wp_pure]
    refine ⟨fun hstop => ⟨trivial, hiff.mp (.inl hstop)⟩, fun h₁ =>
      ⟨fun hstop => ⟨trivial, hiff.mp (.inr hstop)⟩, fun h₂ => ?_⟩⟩
    cases n with
    | zero =>
      obtain rfl : c = (bs ++ as).getLast hne := hit
      exact absurd (hiff.mpr ⟨_, hlast⟩) (not_or_intro h₁ h₂)
    | succ n => exact ⟨n, Nat.lt_succ_self n, trivial, hring.next_mem hc, hit⟩
  · simp only [List.length_append] at hn ⊢
    omega

/-- A freed block that touches the next one touches the one above it, and not the arena. -/
theorem next_touch (h : Slob I s (as ++ bs) out) (hn : 0 < n) (hout : span b n ⊆ out)
    (has : ∀ p ∈ as, p < b) (hbs : ∀ p ∈ bs, b < p) (hc : bs ++ as = r ++ [c])
    (htouch : s.next c = b + 16 * n) :
    s.next c ≠ c ∧ s.next c ≠ I.arena ∧ ∃ bs', bs = s.next c :: bs' := by
  have hring : Circuit s.next (bs ++ as) := h.ring.comm
  have hqa : s.next c ≠ I.arena := by
    have := h.clear_of_out (hout (mem_span.mpr (show b ≤ b + 16 * n - 1 ∧ _ by omega)))
    omega
  cases bs with
  | nil =>
    cases as with
    | nil => simp at hc
    | cons x as =>
      have := hring.next_last hc
      have := has x (by simp)
      omega
  | cons y bs =>
    have hy : s.next c = y := hring.next_last hc
    refine ⟨fun hqc => ?_, hqa, bs, by rw [hy]⟩
    have hnd := List.nodup_append_comm.mp h.sorted.nodup
    have harena := h.arena
    rw [hc] at hnd
    cases r with
    | nil =>
      simp only [List.cons_append, List.nil_append, List.cons.injEq, List.append_eq_nil_iff] at hc
      simp only [hc, List.nil_append, List.mem_cons, List.not_mem_nil, or_false] at harena
      exact hqa (hqc.trans harena.symm)
    | cons z r =>
      have hz : y = z := (List.cons.inj hc).1
      have : z = c := by rw [← hz, ← hy, hqc]
      simp [this] at hnd

/-- …and one that touches the previous one touches the one below it. -/
theorem prev_touch (h : Slob I s (as ++ bs) out) (hbout : b ∈ out) (hbs : ∀ p ∈ bs, b < p)
    (hc : bs ++ as = r ++ [c]) (htouch : c + 16 * s.units c = b) :
    c ≠ I.arena ∧ ∃ as', as = as' ++ [c] := by
  have := h.clear_of_out hbout
  refine ⟨fun hca => ?_, ?_⟩
  · have := h.arenaUnits
    rw [← hca] at this
    omega
  · rcases List.eq_nil_or_concat as with rfl | ⟨as', z, rfl⟩
    · have := hbs c (by rw [List.append_nil] at hc; simp [hc])
      omega
    · rw [List.concat_eq_append, ← List.append_assoc] at hc
      have hz : z = c := by simpa using (List.append_inj' hc rfl).2
      exact ⟨as', by rw [hz, List.concat_eq_append]⟩

end Slob

/-! ## A free -/

/-- The heap once `c` is linked to `b` and the list starts at `c`. -/
def linkedTo (c b : ℕ) (s : SlobHeap) : SlobHeap :=
  { s with next := Function.update s.next c b, slobfree := c }

/-- **Joining with the next block** leaves the rest of the list alone. -/
theorem wp_joinNext (hb : b ≠ I.arena) (hcb : c ≠ b)
    (h : Slob I (linkedTo c b { s with next := Function.update s.next b q }) (as ++ b :: bs) out)
    (htouch : b + bytes s b = q → q ≠ c ∧ q ≠ I.arena ∧ ∃ bs', bs = q :: bs') (E : Stop → Prop) :
    Act.wp (joinNext b q)
      (fun _ t => (∃ bs', bs' <:+ bs ∧ Slob I (linkedTo c b t) (as ++ b :: bs') out) ∧
        s.units b ≤ t.units b ∧ (∀ a, a ≠ b → t.units a = s.units a) ∧
        t.bigblocks = s.bigblocks ∧ t.used = s.used) E s := by
  simp only [joinNext, setUnits, setNext, Act.wp_bind, Act.wp_get, Act.wp_ite, Act.wp_modify]
  refine ⟨fun heq => ?_, fun _ =>
    ⟨⟨bs, List.suffix_rfl, h⟩, le_rfl, fun _ _ => trivial, trivial, trivial⟩⟩
  obtain ⟨hqc, hqa, bs', rfl⟩ := htouch heq
  have hqb : q ≠ b := fun hqb => by
    have hnd := h.sorted.nodup
    simp [hqb, List.nodup_append] at hnd
  have hunits : ∀ x, Function.update s.units b (s.units b + s.units q) x =
      if x = b then s.units b + s.units q else s.units x := fun x => Function.update_apply ..
  have hnext : ∀ x ∈ as ++ b :: bs',
      Function.update (Function.update s.next b (s.next q)) c b x = if x = b
        then Function.update (Function.update s.next b q) c b q
        else Function.update (Function.update s.next b q) c b x := fun x hx => by
    rw [Function.update_of_ne hqc, Function.update_of_ne hqb]
    rcases eq_or_ne x b with rfl | hxb
    · rw [if_pos rfl, Function.update_of_ne hcb.symm, Function.update_self]
    · simp only [Function.update_apply, hxb, if_false]
  have hstart : c ∈ as ++ b :: bs' := by
    have := h.start
    simp [linkedTo, hqc.symm] at this ⊢
    exact this
  refine ⟨⟨bs', List.suffix_cons q bs', h.join heq hb hqa (fun x _ => hunits x) hnext hstart rfl⟩,
    ?_, fun a ha => Function.update_of_ne ha .., trivial, trivial⟩
  rw [hunits, if_pos rfl]
  exact Nat.le_add_right _ _

/-- **Joining with the block before** closes the list. -/
theorem wp_joinPrev (hb : b ≠ I.arena) (hcb : c ≠ b) (h : Slob I (linkedTo c b s) (as ++ b :: bs) out)
    (htouch : c + bytes s c = b → c ≠ I.arena ∧ ∃ as', as = as' ++ [c]) (E : Stop → Prop) :
    Act.wp (do joinPrev c b; setSlobfree c)
      (fun _ t => (∃ ys, ys.length ≤ (as ++ b :: bs).length ∧ Slob I t ys out) ∧
        (s.units b ≤ t.units t.slobfree ∨ s.units b ≤ t.units (t.next t.slobfree)) ∧
        (∀ a, a ≠ c → t.units a = s.units a) ∧ t.bigblocks = s.bigblocks ∧ t.used = s.used) E s := by
  simp only [joinPrev, setUnits, setNext, setSlobfree, Act.wp_bind, Act.wp_get, Act.wp_ite,
    Act.wp_modify]
  refine ⟨fun heq => ?_, fun _ => ⟨⟨as ++ b :: bs, le_rfl, h⟩, .inr ?_, fun _ _ => trivial,
    trivial, trivial⟩⟩
  · obtain ⟨hca, as', rfl⟩ := htouch heq
    rw [List.append_assoc, List.singleton_append] at h
    have hunits : ∀ x, Function.update s.units c (s.units c + s.units b) x =
        if x = c then s.units c + s.units b else s.units x := fun x => Function.update_apply ..
    have hnext : ∀ x, Function.update s.next c (s.next b) x =
        if x = c then Function.update s.next c b b else Function.update s.next c b x := fun x => by
      simp only [Function.update_apply, hcb.symm, if_false]
      split <;> rfl
    refine ⟨⟨as' ++ c :: bs, by simp, h.join heq hca hb (fun x _ => hunits x) (fun x _ => hnext x)
      (by simp) rfl⟩, .inl ?_, fun a ha => Function.update_of_ne ha .., trivial, trivial⟩
    rw [hunits, if_pos rfl]
    exact Nat.le_add_left _ _
  · simp

/-- The ring seen from the predecessor of `c`. -/
theorem Slob.ring_from_pred (h : Slob I s (as ++ c :: bs) out) (hp : p ∈ as ++ c :: bs)
    (hc : s.next p = c) (hca : I.arena ≠ c) :
    ∃ r, bs ++ as = r ++ [p] ∧ Circuit s.next (p :: c :: r) ∧ p ≠ c ∧ p ∉ r := by
  have hnd : (c :: (bs ++ as)).Nodup := List.nodup_append_comm.mp h.sorted.nodup
  have harena : I.arena ∈ bs ++ as := by
    have := h.arena
    simp only [List.mem_append, List.mem_cons] at this ⊢
    tauto
  have hcut : Circuit s.next (c :: (bs ++ as)) := h.ring.cut
  obtain ⟨r, hr⟩ := hcut.eq_last hnd (List.ne_nil_of_mem harena)
    (by simp only [List.mem_append, List.mem_cons] at hp ⊢; tauto) hc
  rw [hr] at hcut hnd
  refine ⟨r, hr, Circuit.comm (u := c :: r) hcut, fun hpc => ?_, fun hpr => ?_⟩
  · exact (List.nodup_cons.mp hnd).1 (by simp [hpc])
  · exact (List.nodup_append.mp (List.nodup_cons.mp hnd).2).2.2 p hpr p (by simp) rfl

/-- **An exact fit** is unlinked. -/
theorem Slob.unlink (h : Slob I s (as ++ c :: bs) out) (hp : p ∈ as ++ c :: bs) (hc : s.next p = c)
    (hca : I.arena ≠ c) (heq : s.units c = n) :
    Slob I { s with next := Function.update s.next p (s.next c), slobfree := p } (as ++ bs)
      (out ∪ span c n) := by
  obtain ⟨r, hr, hring, hpc, hpr⟩ := h.ring_from_pred hp hc hca
  have hrest : rest s as c n bs = as ++ bs := by simp [rest, bytes, heq]
  have hdrop : Circuit (Function.update s.next p (s.next c)) (p :: r) :=
    hring.drop (Function.update_self ..) fun x hx =>
      Function.update_of_ne (ne_of_mem_of_not_mem hx hpr) ..
  have hturn : Circuit (Function.update s.next p (s.next c)) (bs ++ as) :=
    hr ▸ Circuit.comm (u := [p]) hdrop
  rw [← hrest]
  refine h.take hca heq.ge ?_ (fun x _ => ?_) ?_ rfl
  · rw [hrest]
    exact hturn.comm
  · rw [if_neg (by simp [bytes, heq])]
  · rw [hrest]
    simp only [List.mem_append, List.mem_cons] at hp ⊢
    tauto

/-- **A larger block** is split, and its rest takes its place. -/
theorem Slob.split (h : Slob I s (as ++ c :: bs) out) (hp : p ∈ as ++ c :: bs) (hc : s.next p = c)
    (hca : I.arena ≠ c) (hn : 0 < n) (hlt : n < s.units c) :
    Slob I { s with
        units := Function.update (Function.update s.units (c + 16 * n) (s.units c - n)) c n
        next := Function.update (Function.update s.next p (c + 16 * n)) (c + 16 * n) (s.next c)
        slobfree := p } (as ++ (c + 16 * n) :: bs) (out ∪ span c n) := by
  obtain ⟨r, hr, hring, hpc, hpr⟩ := h.ring_from_pred hp hc hca
  have hrest : rest s as c n bs = as ++ (c + 16 * n) :: bs := by simp [rest, bytes, hlt]
  have hin : c + 16 * n ∉ as ++ c :: bs :=
    h.sorted.notMem_inside (by omega) (by unfold bytes; omega)
  have hfp : c + 16 * n ≠ p := (ne_of_mem_of_not_mem hp hin).symm
  have hfr : c + 16 * n ∉ r := fun hfr => hin (by
    have : c + 16 * n ∈ bs ++ as := hr ▸ by simp [hfr]
    simp only [List.mem_append, List.mem_cons] at this ⊢
    tauto)
  have hreplace : Circuit (Function.update (Function.update s.next p (c + 16 * n)) (c + 16 * n)
      (s.next c)) (p :: (c + 16 * n) :: r) := by
    refine hring.replace ?_ (Function.update_self ..) fun x hx => ?_
    · rw [Function.update_of_ne hfp.symm, Function.update_self]
    · rw [Function.update_of_ne (ne_of_mem_of_not_mem hx hfr),
        Function.update_of_ne (ne_of_mem_of_not_mem hx hpr)]
  have hturn : Circuit (Function.update (Function.update s.next p (c + 16 * n)) (c + 16 * n)
      (s.next c)) ((c + 16 * n) :: (bs ++ as)) :=
    hr ▸ Circuit.comm (u := [p]) hreplace
  rw [← hrest]
  refine h.take hca hlt.le ?_ (fun x hx => ?_) ?_ rfl
  · rw [hrest]
    exact Circuit.comm (u := (c + 16 * n) :: bs) hturn
  · have hxc : x ≠ c := by
      rintro rfl
      have := (List.nodup_middle.mp h.sorted.nodup).notMem
      rw [hrest] at hx
      have : x ≠ x + 16 * n := by omega
      simp only [List.mem_append, List.mem_cons] at *
      tauto
    dsimp only
    rw [Function.update_of_ne hxc, Function.update_apply]
    simp [bytes, hlt]
  · rw [hrest]
    simp only [List.mem_append, List.mem_cons] at hp ⊢
    tauto

/-- What an allocation of the `n` units at `c` leaves, with a list of at most `m` blocks. -/
structure Taken (I : Image) (s : SlobHeap) (m : ℕ) (out : Finset ℕ) (c n : ℕ) (t : SlobHeap) :
    Prop where
  slob : ∃ ys, ys.length ≤ m ∧ Slob I t ys (out ∪ span c n)
  disjoint : Disjoint out (span c n)
  size : t.units c = n
  units : ∀ a ∈ out, t.units a = s.units a
  bigblocks : t.bigblocks = s.bigblocks

/-- The arena has no room for more than its one unit. -/
theorem Slob.arena_ne (h : Slob I s xs out) (hn : 1 < n) (hle : n ≤ s.units c) : I.arena ≠ c :=
  fun hca => by
    have := h.arenaUnits
    rw [hca] at this
    omega

/-- **`slob_alloc` hands out the front of a block** that has room and is not the arena, given its
predecessor. -/
theorem Slob.wp_takeUnits (h : Slob I s xs out) (hp : p ∈ xs) (hn : 0 < n)
    (hca : I.arena ≠ s.next p) (hle : n ≤ s.units (s.next p)) (E : Stop → Prop) :
    Act.wp (takeUnits p (s.next p) n) (fun _ t => Taken I s xs.length out (s.next p) n t) E s := by
  obtain ⟨as, bs, rfl⟩ := List.append_of_mem (h.ring.next_mem hp)
  generalize hc : s.next p = c at *
  have hsub : span c n ⊆ freeBytes s (as ++ c :: bs) := fun x hx =>
    Blocks.mem_cells.mpr ⟨c, by simp, by rw [mem_span] at hx; unfold bytes; omega⟩
  have hdisj : Disjoint out (span c n) := h.disjoint.symm.mono_right hsub
  simp only [takeUnits, setUnits, setNext, setSlobfree, Act.wp_bind, Act.wp_get, Act.wp_ite,
    Act.wp_modify]
  refine ⟨fun heq => ⟨⟨_, by simp, h.unlink hp hc hca heq⟩, hdisj, heq, fun _ _ => rfl, rfl⟩,
    fun hne => ?_⟩
  have hlt : n < s.units c := lt_of_le_of_ne hle (Ne.symm hne)
  have hpc : c ≠ p := by
    obtain ⟨r, -, -, hpc, -⟩ := h.ring_from_pred hp hc hca
    exact hpc.symm
  rw [Function.update_of_ne hpc]
  refine ⟨⟨_, by simp, h.split hp hc hca hn hlt⟩, hdisj, Function.update_self .., fun a ha => ?_, rfl⟩
  have hac : a ≠ c := ne_of_mem_of_not_mem ha (h.head_notMem (by simp))
  have haf : a ≠ c + 16 * n := by
    rintro rfl
    refine Finset.disjoint_left.mp h.disjoint (Blocks.mem_cells.mpr ⟨c, by simp, ?_⟩) ha
    unfold bytes
    omega
  dsimp only
  rw [Function.update_of_ne hac, Function.update_of_ne haf]

/-- What a free of the `n` units at `b` leaves. -/
structure Freed (I : Image) (s : SlobHeap) (xs : List ℕ) (out : Finset ℕ) (b n : ℕ)
    (t : SlobHeap) : Prop where
  slob : ∃ ys, ys.length ≤ xs.length + 1 ∧ Slob I t ys (out \ span b n)
  room : n ≤ t.units t.slobfree ∨ n ≤ t.units (t.next t.slobfree)
  units : ∀ a ∈ out \ span b n, t.units a = s.units a
  bigblocks : t.bigblocks = s.bigblocks
  used : t.used = s.used

/-- **`slob_free` takes handed-out bytes back**, and ends if its fuel goes round the list. -/
theorem wp_slobFree {size : ℕ} (h : Slob I s xs out) (hb : 0 < b) (hn : 0 < n)
    (hsize : n = if size = 0 then s.units b else slobUnits size) (hout : span b n ⊆ out)
    (fuel : ℕ) :
    Act.wp (slobFree fuel b size) (fun _ t => Freed I s xs out b n t)
      (fun e => e = .spin ∧ fuel ≤ xs.length) s := by
  have hbout : b ∈ out := hout (mem_span.mpr ⟨le_rfl, by omega⟩)
  obtain ⟨as, bs, rfl, has, hbs⟩ :=
    Blocks.exists_split h.sorted fun hbx => h.head_notMem hbx hbout
  have key : Act.wp (do
      let cur ← reinsertionPoint fuel b
      joinNext b ((← get).next cur)
      joinPrev cur b
      setSlobfree cur) (fun _ t => Freed I s (as ++ bs) out b n t)
      (fun e => e = .spin ∧ fuel ≤ (as ++ bs).length)
      { s with units := Function.update s.units b n } := by
    have hxs : ∀ p ∈ as ++ bs, p ≠ b := fun p hp hpb => h.head_notMem hp (hpb ▸ hbout)
    have h₀ : Slob I { s with units := Function.update s.units b n } (as ++ bs) out :=
      h.frame (fun p hp => Function.update_of_ne (hxs p hp) ..) (fun _ _ => rfl) rfl rfl
    rw [Act.wp_bind]
    refine Act.wp_mono (h₀.wp_reinsertionPoint has hbs fuel) ?_ (fun _ => id)
    rintro c _ ⟨rfl, r, hr⟩
    have hc : c ∈ as ++ bs := by
      have : c ∈ bs ++ as := hr ▸ by simp
      simp only [List.mem_append] at this ⊢
      exact this.symm
    have hba : b ≠ I.arena := fun hba => by
      have := h.clear_of_out hbout
      omega
    have h₁ := h.link (t := linkedTo c b { s with
      units := Function.update s.units b n, next := Function.update s.next b (s.next c) })
      hn hout has hbs hr rfl rfl rfl rfl
    rw [Act.wp_bind, Act.wp_get, Act.wp_bind]
    refine Act.wp_mono (wp_joinNext hba (hxs c hc) h₁ (fun htouch => ?_) _) ?_ (fun _ => id)
    · simp only [bytes, Function.update_self] at htouch
      exact h.next_touch hn hout has hbs hr htouch.symm
    rintro - t ⟨⟨bs', hsuf, h₂⟩, hle, hunits, hbig, hused⟩
    dsimp only at hle hunits hbig hused
    refine Act.wp_mono (wp_joinPrev hba (hxs c hc) h₂ (fun htouch => ?_) _) ?_ (fun _ => id)
    · rw [bytes, hunits c (hxs c hc), Function.update_of_ne (hxs c hc)] at htouch
      exact h.prev_touch hbout hbs hr htouch
    rintro - t' ⟨⟨ys, hlen, h₃⟩, hroom, hunits', hbig', hused'⟩
    refine ⟨⟨ys, ?_, h₃⟩, ?_, fun a ha => ?_, hbig'.trans hbig, hused'.trans hused⟩
    · have := hsuf.length_le
      simp only [List.length_append, List.length_cons] at hlen ⊢
      omega
    · rw [Function.update_self] at hle
      exact hroom.imp hle.trans hle.trans
    · obtain ⟨haout, hab⟩ := Finset.mem_sdiff.mp ha
      have hac : a ≠ c := fun hac => h.head_notMem hc (hac ▸ haout)
      have hab : a ≠ b := fun hab' => hab (mem_span.mpr (by omega))
      rw [hunits' a hac, hunits a hab, Function.update_of_ne hab]
  rw [slobFree, if_neg hb.ne']
  dsimp only
  rw [Act.wp_ite]
  refine ⟨fun h0 => ?_, fun h0 => ?_⟩
  · rw [if_neg h0] at hsize
    subst hsize
    exact key
  · rw [if_pos (not_not.mp h0)] at hsize
    subst hsize
    rw [Function.update_eq_self] at key
    exact key

/-! ## An allocation -/

/-- **Pages from `alloc_pages`**: none, or whole pages that now count as handed out. -/
theorem Slob.wp_slobGetFreePages {allocPages : PageAlloc} (h : Slob I s xs out)
    (hfresh : Fresh I allocPages) (order : ℕ) (E : Stop → Prop) :
    Act.wp (slobGetFreePages allocPages order)
      (fun r t => match r with
        | none => t = s
        | some kva => 0 < kva ∧ PGSIZE ∣ kva ∧ Slob I t xs (out ∪ span kva (256 * 2 ^ order)) ∧
            Disjoint out (span kva (256 * 2 ^ order)) ∧ t.units = s.units ∧
            t.bigblocks = s.bigblocks) E s := by
  simp only [slobGetFreePages, Act.wp_bind, Act.wp_get]
  cases hkva : allocPages (2 ^ order) s.used with
  | none => exact rfl
  | some kva =>
    obtain ⟨hpos, hdvd, -⟩ := hfresh _ _ _ hkva
    obtain ⟨hslob, hdisj⟩ := h.getPages hfresh hkva
    exact ⟨hpos, hdvd, hslob, hdisj, rfl, rfl⟩

/-- A pass of `slob_alloc` at `cur`, after `prev`: either the walk from `slobfree` through the heap
`s` it began with, or the heap has grown and there is room at `slobfree` or right here. -/
def AllocInv (I : Image) (s : SlobHeap) (xs : List ℕ) (out : Finset ℕ) (units k : ℕ)
    (b : ℕ × ℕ) (t : SlobHeap) : Prop :=
  b.2 = t.next b.1 ∧
    ((t = s ∧ b.1 ∈ xs ∧ ∃ j, k = j + xs.length + 2 ∧ s.next^[j] b.2 = s.slobfree) ∨
      ((∃ ys, Slob I t ys out ∧ b.1 ∈ ys ∧ k ≤ ys.length ∧ ys.length ≤ xs.length + 1) ∧
        (∀ a ∈ out, t.units a = s.units a) ∧ t.bigblocks = s.bigblocks ∧
        (units ≤ t.units b.2 ∨ units ≤ t.units t.slobfree ∧ t.next^[k] b.2 = t.slobfree)))

/-- A request that leaves the arena on the list: it is for more than one unit, or comes to another
block first. -/
def SparesArena (I : Image) (s : SlobHeap) (n : ℕ) : Prop :=
  1 < n ∨ n = 1 ∧ I.arena ≠ s.next s.slobfree

/-- **`slob_alloc` hands out the units asked for**, or nothing; it ends if its fuel goes round the
list twice. -/
theorem wp_slobAlloc {allocPages : PageAlloc} {size : ℕ} (h : Slob I s xs out)
    (hfresh : Fresh I allocPages) (hspares : SparesArena I s (slobUnits size))
    (hsize : size + 16 < 4096) (fuel : ℕ) :
    Act.wp (slobAlloc fuel allocPages size)
      (fun r t => match r with
        | some c => Taken I s (xs.length + 1) out c (slobUnits size) t
        | none => (∃ ys, Slob I t ys out) ∧ (∀ a ∈ out, t.units a = s.units a) ∧
            t.bigblocks = s.bigblocks)
      (fun e => e = .spin ∧ fuel ≤ 2 * xs.length + 1) s := by
  obtain ⟨j, hj, hit⟩ := h.ring.exists_iterate (h.ring.next_mem h.start) h.start
  rw [slobAlloc, Act.wp_bind, Act.wp_require]
  refine ⟨fun _ => ?_, fun hbig => absurd hsize hbig⟩
  simp only [Act.wp_bind, Act.wp_get]
  have hn : 0 < slobUnits size := hspares.elim (fun h => by omega) fun h => by omega
  refine Act.wp_loop (fun k b t => AllocInv I s xs out (slobUnits size) k b t ∧
      (1 < slobUnits size ∨ t = s ∧ b.1 = s.slobfree ∧ I.arena ≠ s.next s.slobfree)) ?_ fuel
    (j + xs.length + 2) _ _ ⟨⟨rfl, .inl ⟨rfl, h.start, j, rfl, hit⟩⟩,
      hspares.imp_right fun h => ⟨rfl, rfl, h.2⟩⟩ fun hfuel => ⟨rfl, by omega⟩
  rintro k ⟨p, c⟩ t ⟨⟨hc, hinv⟩, hmore⟩
  obtain rfl : c = t.next p := hc
  -- a request for one unit is met by the first block, which is not the arena
  have hca : ∀ {ys}, Slob I t ys out → slobUnits size ≤ t.units (t.next p) → I.arena ≠ t.next p := by
    intro ys hys hle
    rcases hmore with hlt | ⟨rfl, rfl, hne⟩
    · exact hys.arena_ne hlt hle
    · exact hne
  have hlarge : ∀ {ys}, Slob I t ys out → p ∈ ys → ¬ slobUnits size ≤ t.units (t.next p) →
      1 < slobUnits size := by
    intro ys hys hp hno
    have := hys.pos _ (hys.ring.next_mem hp)
    omega
  simp only [Act.wp_bind, Act.wp_get, Act.wp_ite, Act.wp_pure]
  rcases hinv with ⟨rfl, hp, j, rfl, hit⟩ | ⟨⟨ys, hys, hp, hk, hlen⟩, hunits, hbig, hroom⟩
  · refine ⟨fun hle => ?_, fun hno => ⟨fun hback => ⟨fun h0 => ?_, fun _ => ?_⟩, fun hne => ?_⟩⟩
    · refine Act.wp_mono (h.wp_takeUnits hp hn (hca h hle) hle _) ?_ (fun _ => id)
      rintro - t' ⟨⟨ys, hlen, hys⟩, hdisj, hsz, hunits, hbig⟩
      exact ⟨⟨ys, hlen.trans (Nat.le_succ _), hys⟩, hdisj, hsz, hunits, hbig⟩
    · omega
    · refine Act.wp_mono (h.wp_slobGetFreePages hfresh 0 _) ?_ (fun _ => id)
      intro r t₁ hr
      cases r with
      | none => exact ⟨⟨xs, hr ▸ h⟩, fun a _ => by rw [hr], by rw [hr]⟩
      | some page =>
        obtain ⟨hpos, -, hslob, hdisj, hunits, hbig⟩ := hr
        rw [pow_zero, Nat.mul_one] at hslob hdisj
        have hback : (out ∪ span page 256) \ span page 256 = out := by
          rw [Finset.union_sdiff_right, hdisj.sdiff_eq_left]
        simp only [Act.wp_bind, Act.wp_get, Act.wp_pure]
        refine Act.wp_mono (wp_slobFree (n := 256) hslob hpos (by norm_num) rfl
          Finset.subset_union_right fuel) ?_ (fun e he => ⟨he.1, by omega⟩)
        rintro - t₂ ⟨⟨ys, hlen, hys⟩, hroom, hunits₂, hbig₂, -⟩
        rw [hback] at hys hunits₂
        have hstart := hys.ring.next_mem hys.start
        obtain ⟨i, hi, hit⟩ := hys.ring.exists_iterate hstart hys.start
        have hle : slobUnits size ≤ 256 := by
          rw [slobUnits_eq]
          omega
        refine ⟨i, by omega, ⟨rfl, .inr ⟨⟨ys, hys, hys.start, hi.le, hlen⟩,
          fun a ha => by rw [hunits₂ a ha, hunits], hbig₂.trans hbig, ?_⟩⟩, .inl (hlarge h hp hno)⟩
        rcases hroom with hroom | hroom
        · exact .inr ⟨hle.trans hroom, hit⟩
        · exact .inl (hle.trans hroom)
    · cases j with
      | zero => exact absurd hit hne
      | succ j =>
        exact ⟨_, by omega, ⟨rfl, .inl ⟨rfl, h.ring.next_mem hp, j, rfl, hit⟩⟩, .inl (hlarge h hp hno)⟩
  · refine ⟨fun hle => ?_, fun hno => ?_⟩
    · refine Act.wp_mono (hys.wp_takeUnits hp hn (hca hys hle) hle _) ?_ (fun _ => id)
      rintro - t' ⟨⟨zs, hzs, hslob⟩, hdisj, hsz, hunits', hbig'⟩
      exact ⟨⟨zs, hzs.trans hlen, hslob⟩, hdisj, hsz, fun a ha => (hunits' a ha).trans (hunits a ha),
        hbig'.trans hbig⟩
    · obtain ⟨hroom', hit⟩ := hroom.resolve_left hno
      refine ⟨fun hback => absurd hroom' (hback ▸ hno), fun hne => ?_⟩
      cases k with
      | zero => exact absurd hit hne
      | succ k =>
        exact ⟨k, Nat.lt_succ_self k, ⟨rfl, .inr ⟨⟨ys, hys, hys.ring.next_mem hp, by omega, hlen⟩,
          hunits, hbig, .inr ⟨hroom', hit⟩⟩⟩, .inl (hlarge hys hp hno)⟩

end UCore.Kmalloc
