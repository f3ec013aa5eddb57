import UCore.Mm.KmallocSpec

/-!
# Mm/KmallocRun — whole runs of `kmalloc` and `kfree`

    header | body                     a small block: one unit, then the rest of its units
    header … body                     a big block: its `bigblock_t`, and its pages

The bytes handed out are parted among the live blocks, each into the header the allocator keeps and
the body the caller gets.  Every request gets its block; whether the body is as long as was asked
depends on the size alone, and `find_order` rounds some sizes down.
-/

namespace UCore.Kmalloc

/-- The entry of `bigblocks` that `kfree` finds. -/
def bigBlockOf (s : SlobHeap) (p : ℕ) : Option BigBlock := s.bigblocks.find? (·.pages = p)

/-- The bytes the allocator keeps for the block `p` of `size` bytes. -/
def header (s : SlobHeap) (p size : ℕ) : Finset ℕ :=
  if size < 4080 then span (p - 16) 1 else (bigBlockOf s p).elim ∅ fun bb => span bb.addr 2

/-- **The usable bytes** of the block `p`. -/
def body (s : SlobHeap) (p size : ℕ) : Finset ℕ :=
  if size < 4080 then span p (s.units (p - 16) - 1)
  else (bigBlockOf s p).elim ∅ fun bb => span p (256 * 2 ^ bb.order)

/-- The live blocks, each with the size asked for. -/
abbrev Live := ℕ → Option ℕ

/-- `a` is on the free list. -/
def OnFreeList (s : SlobHeap) (a : ℕ) : Prop := ∃ n, s.next^[n] s.slobfree = a

/-- **A sound heap**: every live block has the bytes asked for, in pages in use, and no one else
has them. -/
structure Sound (s : SlobHeap) (live : Live) : Prop where
  usable : ∀ p size, live p = some size → Finset.Ico p (p + size) ⊆ body s p size
  inUse : ∀ p size, live p = some size → ∀ b ∈ Finset.Ico p (p + size), b / PGSIZE ∈ s.used
  apart : ∀ p q size size', live p = some size → live q = some size' → p ≠ q →
    Disjoint (Finset.Ico p (p + size)) (Finset.Ico q (q + size'))
  headers : ∀ p q size size', live p = some size → live q = some size' →
    Disjoint (Finset.Ico p (p + size)) (header s q size')
  free : ∀ p size a, live p = some size → OnFreeList s a →
    Disjoint (Finset.Ico p (p + size)) (span a (s.units a))

/-- **The sizes that `find_order` rounds up**: an `int`, and not just above a power of two of
pages, where the bits shifted out are lost. -/
def Covered (size : ℕ) : Prop :=
  size < 2 ^ 31 ∧ ∀ o, ¬ (4096 * 2 ^ o < size ∧ size < 4097 * 2 ^ o)

/-- What the rest of the kernel may write: the bytes asked for, and memory that is not the
allocator's. -/
def Writable (I : Image) (s : SlobHeap) (live : Live) (b : ℕ) : Prop :=
  (∃ p size, live p = some size ∧ b ∈ Finset.Ico p (p + size)) ∨
    (b ∉ span I.arena 1 ∧ b / PGSIZE ∉ s.used)

/-- **A run**: calls of `kmalloc` with sizes that are `ok`, of `kfree` on live blocks, and writes. -/
inductive Run (I : Image) (ok : ℕ → Prop) : SlobHeap → Live → Prop
  | init (units next : ℕ → ℕ) : Run I ok (slobInit I.arena units next) fun _ => none
  | kmalloc {s t : SlobHeap} {live : Live} {fuel size p : ℕ} {allocPages : PageAlloc} :
      Run I ok s live → Fresh I allocPages → 1 ≤ size → size < 2 ^ 64 → ok size →
      kmalloc fuel allocPages size s = .ok (some p, t) →
      Run I ok t (Function.update live p (some size))
  | kmallocNull {s t : SlobHeap} {live : Live} {fuel size : ℕ} {allocPages : PageAlloc} :
      Run I ok s live → Fresh I allocPages → 1 ≤ size → size < 2 ^ 64 →
      kmalloc fuel allocPages size s = .ok (none, t) → Run I ok t live
  | kfree {s t : SlobHeap} {live : Live} {fuel size p : ℕ} :
      Run I ok s live → live p = some size → kfree fuel p s = .ok ((), t) →
      Run I ok t (Function.update live p none)
  | write {s : SlobHeap} {live : Live} (units next : ℕ → ℕ) :
      Run I ok s live →
      (∀ a, (∀ b ∈ span a 1, ¬ Writable I s live b) → units a = s.units a ∧ next a = s.next a) →
      Run I ok { s with units := units, next := next } live

/-! ## The order of a big block -/

theorem findOrder_of_le {n : ℤ} (h : n ≤ 4096) : findOrder n = 0 := by
  rw [findOrder, if_neg (by omega)]

/-- **`find_order` rounds down by halves**: the order is the least one that leaves no more than a
page when the low bits are dropped. -/
theorem findOrder_spec (n : ℕ) :
    n < 4097 * 2 ^ findOrder n ∧ (findOrder n = 0 ∨ 4097 * 2 ^ (findOrder n - 1) ≤ n) := by
  induction n using Nat.strong_induction_on with
  | _ n ih =>
    by_cases h : n ≤ 4096
    · rw [findOrder_of_le (by exact_mod_cast h)]
      omega
    · have hhalf : findOrder n = findOrder (n / 2 : ℕ) + 1 := by
        rw [findOrder, if_pos (by omega), Int.shiftRight_eq_div_pow]
        norm_cast
      obtain ⟨hlt, hge⟩ := ih (n / 2) (by omega)
      rw [hhalf, Nat.add_sub_cancel]
      generalize findOrder (n / 2 : ℕ) = o at hlt hge
      refine ⟨by rw [pow_succ]; omega, .inr ?_⟩
      cases o with
      | zero => omega
      | succ o =>
        rw [Nat.add_sub_cancel] at hge
        rw [pow_succ]
        omega

/-- **When the pages cover the size**. -/
theorem covered_iff {size : ℕ} (hsize : 4080 ≤ size) :
    Covered size ↔ size ≤ 4096 * 2 ^ findOrder (toS32 size) := by
  rcases lt_or_ge size (2 ^ 31) with hlt | hge
  · rw [toS32_of_mem (by omega) (by omega)]
    obtain ⟨hsz, ho⟩ := findOrder_spec size
    generalize findOrder size = o at hsz ho
    refine ⟨fun h => not_lt.mp fun hlt' => h.2 o ⟨hlt', hsz⟩, fun hle => ⟨hlt, fun i hi => ?_⟩⟩
    -- an order that leaves bytes out would have been passed over
    rcases lt_or_ge i o with hio | hio
    · have hpow : 2 ^ i ≤ 2 ^ (o - 1) := Nat.pow_le_pow_right (by norm_num) (by omega)
      rcases ho with rfl | ho
      · omega
      · omega
    · have hpow : 2 ^ o ≤ 2 ^ i := Nat.pow_le_pow_right (by norm_num) hio
      omega
  · refine ⟨fun h => absurd h.1 (not_lt.mpr hge), fun hle => ?_⟩
    -- the size does not fit an `int`, and `find_order` sees only what is left of it
    exfalso
    rcases le_or_gt (toS32 size) 4096 with hsmall | hbig
    · rw [findOrder_of_le hsmall] at hle
      omega
    · obtain ⟨m, hm⟩ := Int.eq_ofNat_of_zero_le (show 0 ≤ toS32 size by omega)
      have hm31 : m < 2 ^ 31 := by
        have := toS32_lt size
        omega
      rw [hm] at hle hbig
      obtain ⟨-, ho⟩ := findOrder_spec m
      change size ≤ 4096 * 2 ^ findOrder (m : ℤ) at hle
      generalize findOrder (m : ℤ) = o at hle ho
      have ho19 : o ≤ 19 := by
        by_contra hcon
        have hpow : 2 ^ 19 ≤ 2 ^ (o - 1) := Nat.pow_le_pow_right (by norm_num) (by omega)
        omega
      have hpow : 2 ^ o ≤ 2 ^ 19 := Nat.pow_le_pow_right (by norm_num) ho19
      obtain rfl : size = 2 ^ 31 := by omega
      have hneg : toS32 (2 ^ 31 : ℕ) = -2 ^ 31 := by decide
      rw [hneg] at hm
      omega

theorem covered_of_lt {size : ℕ} (hsize : size < 4080) : Covered size := by
  refine ⟨by omega, fun o ho => ?_⟩
  have := Nat.one_le_two_pow (n := o)
  omega

/-! ## One block -/

/-- The bytes of a live block. -/
def block (s : SlobHeap) (p size : ℕ) : Finset ℕ := header s p size ∪ body s p size

/-- **What the allocator knows about a live block**: its length is in its header, or in its entry
in `bigblocks`. -/
structure Granted (s : SlobHeap) (p size : ℕ) : Prop where
  headed : Disjoint (header s p size) (body s p size)
  pos : 0 < size
  small : size < 4080 → 16 ≤ p ∧ s.units (p - 16) = slobUnits (size + 16)
  big : 4080 ≤ size → ∃ bb, bigBlockOf s p = some bb ∧ bb.order = findOrder (toS32 size) ∧
    0 < p ∧ PGSIZE ∣ p

/-- What a block depends on is as it was. -/
structure Untouched (s t : SlobHeap) (p size : ℕ) : Prop where
  units : size < 4080 → t.units (p - 16) = s.units (p - 16)
  entry : bigBlockOf t p = bigBlockOf s p

section Block

variable {s t : SlobHeap} {p size : ℕ}

/-- The header of a small block is one of its bytes. -/
theorem head_mem (hs : size < 4080) : p - 16 ∈ block s p size := by
  refine Finset.mem_union_left _ ?_
  rw [header, if_pos hs, mem_span]
  omega

theorem Untouched.header_eq (h : Untouched s t p size) : header t p size = header s p size := by
  rw [header, header, h.entry]

theorem Untouched.body_eq (h : Untouched s t p size) : body t p size = body s p size := by
  rw [body, body, h.entry]
  split
  · next hs => rw [h.units hs]
  · rfl

theorem Untouched.block_eq (h : Untouched s t p size) : block t p size = block s p size := by
  rw [block, block, h.header_eq, h.body_eq]

theorem Untouched.granted (h : Untouched s t p size) (hg : Granted s p size) :
    Granted t p size where
  headed := by
    rw [h.header_eq, h.body_eq]
    exact hg.headed
  pos := hg.pos
  small hs := by
    rw [h.units hs]
    exact hg.small hs
  big hs := by
    rw [h.entry]
    exact hg.big hs

namespace Granted

theorem mem_body (h : Granted s p size) : p ∈ body s p size := by
  have hpos := h.pos
  by_cases hs : size < 4080
  · rw [body, if_pos hs, (h.small hs).2, slobUnits_eq, mem_span]
    omega
  · obtain ⟨bb, hbb, -⟩ := h.big (not_lt.mp hs)
    have := Nat.one_le_two_pow (n := bb.order)
    rw [body, if_neg hs, hbb, Option.elim_some, mem_span]
    omega

/-- **How long the usable bytes are** is decided by the size. -/
theorem usable_iff (h : Granted s p size) :
    Finset.Ico p (p + size) ⊆ body s p size ↔ Covered size := by
  have hpos := h.pos
  by_cases hs : size < 4080
  · refine iff_of_true (fun b hb => ?_) (covered_of_lt hs)
    rw [Finset.mem_Ico] at hb
    rw [body, if_pos hs, (h.small hs).2, slobUnits_eq, mem_span]
    omega
  · obtain ⟨bb, hbb, horder, -⟩ := h.big (not_lt.mp hs)
    rw [covered_iff (not_lt.mp hs), body, if_neg hs, hbb, Option.elim_some, horder]
    refine ⟨fun hsub => ?_, fun hle b hb => ?_⟩
    · have hlast : p + size - 1 ∈ span p (256 * 2 ^ findOrder (toS32 size)) :=
        hsub (Finset.mem_Ico.mpr (by omega))
      rw [mem_span] at hlast
      omega
    · rw [Finset.mem_Ico] at hb
      rw [mem_span]
      omega

end Granted

end Block

/-! ## The blocks part the bytes handed out -/

/-- **The invariant of `kmalloc`**: `xs` are the free blocks, and `out` the bytes handed out. -/
structure Kept (I : Image) (s : SlobHeap) (live : Live) (xs : List ℕ) (out : Finset ℕ) : Prop where
  slob : Slob I s xs out
  parts : ∀ b, b ∈ out ↔ ∃ p size, live p = some size ∧ b ∈ block s p size
  apart : ∀ p q size size', live p = some size → live q = some size' → p ≠ q →
    Disjoint (block s p size) (block s q size')
  granted : ∀ p size, live p = some size → Granted s p size
  bigsNodup : (s.bigblocks.map (·.pages)).Nodup
  bigs : ∀ bb ∈ s.bigblocks, ∃ size, live bb.pages = some size ∧ 4080 ≤ size

namespace Kept

variable {I : Image} {s t : SlobHeap} {live : Live} {xs ys : List ℕ} {out out' : Finset ℕ}
  {a b p q n size size' fuel : ℕ}

theorem block_sub (h : Kept I s live xs out) (hp : live p = some size) : block s p size ⊆ out :=
  fun b hb => (h.parts b).mpr ⟨p, size, hp, hb⟩

/-- A pointer into fresh bytes is not live. -/
theorem eq_none (h : Kept I s live xs out) (hp : p ∉ out) : live p = none := by
  by_contra hsome
  obtain ⟨size, hsize⟩ := Option.ne_none_iff_exists'.mp hsome
  exact hp (h.block_sub hsize (Finset.mem_union_right _ (h.granted p size hsize).mem_body))

/-- **Blocks that cover their sizes are sound.** -/
theorem sound (h : Kept I s live xs out) (hlive : ∀ p size, live p = some size → Covered size) :
    Sound s live := by
  have husable : ∀ p size, live p = some size → Finset.Ico p (p + size) ⊆ body s p size :=
    fun p size hp => (h.granted p size hp).usable_iff.mpr (hlive p size hp)
  have hblock : ∀ p size, body s p size ⊆ block s p size := fun _ _ => Finset.subset_union_right
  have hblock' : ∀ p size, header s p size ⊆ block s p size := fun _ _ => Finset.subset_union_left
  refine ⟨husable, fun p size hp b hb => ?_, fun p q size size' hp hq hpq => ?_,
    fun p q size size' hp hq => ?_, fun p size a hp ha => ?_⟩
  · exact h.slob.used_of_out (h.block_sub hp (hblock _ _ (husable p size hp hb)))
  · exact (h.apart p q size size' hp hq hpq).mono ((husable p size hp).trans (hblock _ _))
      ((husable q size' hq).trans (hblock _ _))
  · rcases eq_or_ne p q with rfl | hpq
    · obtain rfl : size = size' := Option.some.inj (hp.symm.trans hq)
      exact (h.granted p size hp).headed.symm.mono_left (husable p size hp)
    · exact (h.apart p q size size' hp hq hpq).mono ((husable p size hp).trans (hblock _ _))
        (hblock' _ _)
  · have hmem : a ∈ xs := (h.slob.ring.mem_iff_iterate h.slob.start).mpr ha
    refine h.slob.disjoint.symm.mono
      ((husable p size hp).trans ((hblock _ _).trans (h.block_sub hp))) fun b hb => ?_
    exact Blocks.mem_cells.mpr ⟨a, hmem, mem_span.mp hb⟩

/-- **One block changes** — it becomes live, or stops being so — and the others are left alone. -/
theorem update {new : Option ℕ} (h : Kept I s live xs out) (hslob : Slob I t ys out')
    (hframe : ∀ q size', q ≠ p → live q = some size' → Untouched s t q size')
    (hout : ∀ b, b ∈ out' ↔ (∃ q size', q ≠ p ∧ live q = some size' ∧ b ∈ block s q size') ∨
      ∃ size, new = some size ∧ b ∈ block t p size)
    (hnew : ∀ size, new = some size → Granted t p size ∧
      ∀ q size', q ≠ p → live q = some size' → Disjoint (block s q size') (block t p size))
    (hnodup : (t.bigblocks.map (·.pages)).Nodup)
    (hbigs : ∀ bb ∈ t.bigblocks, bb.pages ≠ p ∧ bb ∈ s.bigblocks ∨
      bb.pages = p ∧ ∃ size, new = some size ∧ 4080 ≤ size) :
    Kept I t (Function.update live p new) ys out' := by
  have hself : Function.update live p new p = new := Function.update_self ..
  have hne : ∀ q, q ≠ p → Function.update live p new q = live q := fun q hq =>
    Function.update_of_ne hq ..
  refine ⟨hslob, fun b => (hout b).trans ⟨?_, ?_⟩, fun q q' size₁ size₂ hq hq' hqq => ?_,
    fun q size' hq => ?_, hnodup, fun bb hbb => ?_⟩
  · rintro (⟨q, size', hqp, hq, hb⟩ | ⟨size, hp, hb⟩)
    · exact ⟨q, size', (hne q hqp).trans hq, (hframe q size' hqp hq).block_eq ▸ hb⟩
    · exact ⟨p, size, hself.trans hp, hb⟩
  · rintro ⟨q, size', hq, hb⟩
    rcases eq_or_ne q p with rfl | hqp
    · exact .inr ⟨size', hself.symm.trans hq, hb⟩
    · rw [hne q hqp] at hq
      exact .inl ⟨q, size', hqp, hq, (hframe q size' hqp hq).block_eq ▸ hb⟩
  · rcases eq_or_ne q p with rfl | hqp
    · rw [hself] at hq
      rw [hne q' hqq.symm] at hq'
      rw [(hframe q' size₂ hqq.symm hq').block_eq]
      exact ((hnew size₁ hq).2 q' size₂ hqq.symm hq').symm
    · rw [hne q hqp] at hq
      rw [(hframe q size₁ hqp hq).block_eq]
      rcases eq_or_ne q' p with rfl | hqp'
      · rw [hself] at hq'
        exact (hnew size₂ hq').2 q size₁ hqp hq
      · rw [hne q' hqp'] at hq'
        rw [(hframe q' size₂ hqp' hq').block_eq]
        exact h.apart q q' size₁ size₂ hq hq' hqq
  · rcases eq_or_ne q p with rfl | hqp
    · exact (hnew size' (hself.symm.trans hq)).1
    · rw [hne q hqp] at hq
      exact (hframe q size' hqp hq).granted (h.granted q size' hq)
  · rcases hbigs bb hbb with ⟨hbp, hold⟩ | ⟨rfl, size, hp, hs⟩
    · obtain ⟨size', hlive, hs⟩ := h.bigs bb hold
      exact ⟨size', (hne _ hbp).trans hlive, hs⟩
    · exact ⟨size, hself.trans hp, hs⟩

/-- **A new live block**, on fresh bytes. -/
theorem add (h : Kept I s live xs out) (hslob : Slob I t ys (out ∪ block t p size))
    (hdisj : Disjoint out (block t p size)) (hunits : ∀ a ∈ out, t.units a = s.units a)
    (hbig : ∀ q, q ≠ p → bigBlockOf t q = bigBlockOf s q) (hgranted : Granted t p size)
    (hnodup : (t.bigblocks.map (·.pages)).Nodup)
    (hbigs : ∀ bb ∈ t.bigblocks, bb.pages ≠ p ∧ bb ∈ s.bigblocks ∨ bb.pages = p ∧ 4080 ≤ size) :
    Kept I t (Function.update live p (some size)) ys (out ∪ block t p size) := by
  have hp : p ∉ out := Finset.disjoint_right.mp hdisj (Finset.mem_union_right _ hgranted.mem_body)
  have hnone := h.eq_none hp
  refine h.update hslob (fun q size' hq hlive =>
    ⟨fun hs => hunits _ (h.block_sub hlive (head_mem hs)), hbig q hq⟩) (fun b => ?_) (fun size' hsize => ?_) hnodup fun bb hbb =>
      (hbigs bb hbb).imp id fun hnew => ⟨hnew.1, size, rfl, hnew.2⟩
  · rw [Finset.mem_union, h.parts b]
    refine or_congr (exists_congr fun q => exists_congr fun size' => ?_) (by simp)
    exact ⟨fun hb => ⟨fun hqp => by simp [hqp, hnone] at hb, hb⟩, fun hb => hb.2⟩
  · obtain rfl := Option.some.inj hsize
    exact ⟨hgranted, fun q size' _ hlive => hdisj.mono_left (h.block_sub hlive)⟩

/-- **A live block given back.** -/
theorem remove (h : Kept I s live xs out) (hp : live p = some size)
    (hslob : Slob I t ys (out \ block s p size))
    (hunits : ∀ a ∈ out \ block s p size, t.units a = s.units a)
    (hbig : ∀ q, q ≠ p → bigBlockOf t q = bigBlockOf s q)
    (hnodup : (t.bigblocks.map (·.pages)).Nodup)
    (hbigs : ∀ bb ∈ t.bigblocks, bb.pages ≠ p ∧ bb ∈ s.bigblocks) :
    Kept I t (Function.update live p none) ys (out \ block s p size) := by
  have hother : ∀ q size', q ≠ p → live q = some size' →
      block s q size' ⊆ out \ block s p size := fun q size' hq hlive =>
    Finset.subset_sdiff.mpr ⟨h.block_sub hlive, h.apart q p size' size hlive hp hq⟩
  refine h.update hslob (fun q size' hq hlive =>
    ⟨fun hs => hunits _ (hother q size' hq hlive (head_mem hs)), hbig q hq⟩) (fun b => ?_) (fun _ hsize => by simp at hsize) hnodup fun bb hbb =>
      .inl (hbigs bb hbb)
  constructor
  · intro hb
    obtain ⟨hbout, hbp⟩ := Finset.mem_sdiff.mp hb
    obtain ⟨q, size', hq, hbq⟩ := (h.parts b).mp hbout
    refine .inl ⟨q, size', ?_, hq, hbq⟩
    rintro rfl
    obtain rfl : size = size' := Option.some.inj (hp.symm.trans hq)
    exact hbp hbq
  · rintro (⟨q, size', hqp, hq, hb⟩ | ⟨_, hsize, _⟩)
    · exact hother q size' hqp hq hb
    · simp at hsize

/-- Entries of `bigblocks` are for other blocks than a fresh one. -/
theorem bigs_ne (h : Kept I s live xs out) (hp : live p = none) :
    ∀ bb ∈ s.bigblocks, bb.pages ≠ p := by
  rintro bb hbb rfl
  obtain ⟨size, hsize, -⟩ := h.bigs bb hbb
  simp [hp] at hsize

/-- The block of `c` is its `n` units, the first of them its header. -/
theorem block_small (hs : size < 4080) (hn : 0 < n) (hc : t.units a = n) :
    block t (a + 16) size = span a n ∧ Disjoint (header t (a + 16) size) (body t (a + 16) size) := by
  have hheader : header t (a + 16) size = span a 1 := by rw [header, if_pos hs, Nat.add_sub_cancel]
  have hbody : body t (a + 16) size = span (a + 16) (n - 1) := by
    rw [body, if_pos hs, Nat.add_sub_cancel, hc]
  rw [block, hheader, hbody]
  constructor
  · ext b
    rw [Finset.mem_union, mem_span, mem_span, mem_span]
    omega
  · rw [Finset.disjoint_left]
    intro b hb hb'
    rw [mem_span] at hb hb'
    omega

theorem untouched (h : Kept I s live xs out) (hunits : ∀ a ∈ out, t.units a = s.units a)
    (hbig : t.bigblocks = s.bigblocks) (p size : ℕ) (hp : live p = some size) :
    Untouched s t p size :=
  ⟨fun hs => hunits _ (h.block_sub hp (head_mem hs)), by rw [bigBlockOf, hbig, bigBlockOf]⟩

/-- The list changes, and every block stays. -/
theorem same (h : Kept I s live xs out) (hslob : Slob I t ys out)
    (hframe : ∀ p size, live p = some size → Untouched s t p size)
    (hbig : t.bigblocks = s.bigblocks) : Kept I t live ys out := by
  refine ⟨hslob, fun b => ?_, fun p q size size' hp hq hpq => ?_, fun p size hp => ?_, ?_, ?_⟩
  · refine (h.parts b).trans (exists_congr fun p => exists_congr fun size => ?_)
    exact and_congr_right fun hp => by rw [(hframe p size hp).block_eq]
  · rw [(hframe p size hp).block_eq, (hframe q size' hq).block_eq]
    exact h.apart p q size size' hp hq hpq
  · exact (hframe p size hp).granted (h.granted p size hp)
  · rw [hbig]
    exact h.bigsNodup
  · rw [hbig]
    exact h.bigs

/-- What `kmalloc` leaves. -/
def Granting (I : Image) (live : Live) (size : ℕ) (r : Option ℕ) (t : SlobHeap) : Prop :=
  ∃ ys out', Kept I t (match r with
    | none => live
    | some p => Function.update live p (some size)) ys out'

/-- A small block comes from the free list. -/
theorem wp_kmalloc_small {allocPages : PageAlloc} (h : Kept I s live xs out)
    (hfresh : Fresh I allocPages) (h1 : 1 ≤ size) (hs : size < 4064) (fuel : ℕ) :
    Act.wp (kmalloc fuel allocPages size) (Granting I live size)
      (fun e => e = .spin ∧ fuel ≤ 2 * xs.length + 1) s := by
  have hn : 1 < slobUnits (size + 16) := by rw [slobUnits_eq]; omega
  have hs' : size < PGSIZE - SLOB_UNIT := (show size < 4080 by omega)
  rw [kmalloc, if_pos hs', Act.wp_bind]
  refine Act.wp_mono (wp_slobAlloc h.slob hfresh (.inl hn) (by omega) fuel) ?_ (fun _ => id)
  intro r t hr
  cases r with
  | none =>
    obtain ⟨⟨ys, hys⟩, hunits, hbig⟩ := hr
    exact ⟨ys, out, h.same hys (h.untouched hunits hbig) hbig⟩
  | some c =>
    obtain ⟨⟨ys, -, hys⟩, hdisj, hsz, hunits, hbig⟩ := hr
    obtain ⟨hblock, hheaded⟩ := block_small (show size < 4080 by omega) (by omega) hsz
    rw [← hblock] at hys hdisj
    have hgranted : Granted t (c + 16) size := by
      refine ⟨hheaded, h1, fun _ => ⟨Nat.le_add_left _ _, ?_⟩, fun hbig => by omega⟩
      rw [Nat.add_sub_cancel, hsz]
    have hnone := h.eq_none (Finset.disjoint_right.mp hdisj
      (Finset.mem_union_right _ hgranted.mem_body))
    refine ⟨ys, _, h.add hys hdisj hunits (fun q _ => by rw [bigBlockOf, hbig, bigBlockOf]) hgranted
      (hbig ▸ h.bigsNodup) fun bb hbb => ?_⟩
    rw [hbig] at hbb
    exact .inl ⟨h.bigs_ne hnone bb hbb, hbb⟩

/-- A big block is whole pages, with its entry in the free list's memory. -/
theorem wp_kmalloc_big {allocPages : PageAlloc} (h : Kept I s live xs out)
    (hfresh : Fresh I allocPages) (hs : 4080 ≤ size) (fuel : ℕ) :
    Act.wp (kmalloc fuel allocPages size) (Granting I live size)
      (fun e => e = .spin ∧ fuel ≤ 2 * xs.length + 1) s := by
  have hs' : ¬ size < PGSIZE - SLOB_UNIT := (show ¬ size < 4080 by omega)
  rw [kmalloc, if_neg hs', Act.wp_bind]
  refine Act.wp_mono (wp_slobAlloc h.slob hfresh (.inl (by decide)) (by decide) fuel) ?_ (fun _ => id)
  intro r t hr
  cases r with
  | none =>
    obtain ⟨⟨ys, hys⟩, hunits, hbig⟩ := hr
    exact ⟨ys, out, h.same hys (h.untouched hunits hbig) hbig⟩
  | some c =>
    obtain ⟨⟨ys, hlen, hys⟩, hdisj, hsz, hunits, hbig⟩ := hr
    change Slob I t ys (out ∪ span c 2) at hys
    change Disjoint out (span c 2) at hdisj
    rw [Act.wp_bind]
    refine Act.wp_mono (hys.wp_slobGetFreePages hfresh _ _) ?_ (fun _ => id)
    intro r t₁ hr
    cases r with
    | none =>
      obtain rfl : t₁ = t := hr
      have hpos : 0 < c := hys.pos_of_out
        (Finset.mem_union_right _ (mem_span.mpr (by omega)))
      have hback : (out ∪ span c 2) \ span c 2 = out := by
        rw [Finset.union_sdiff_right, hdisj.sdiff_eq_left]
      rw [Act.wp_bind]
      refine Act.wp_mono (wp_slobFree (n := 2) hys hpos (by norm_num) rfl
        Finset.subset_union_right fuel) ?_ (fun e he => ⟨he.1, by omega⟩)
      rintro - t₂ ⟨⟨zs, -, hzs⟩, -, hunits₂, hbig₂, -⟩
      rw [hback] at hzs hunits₂
      have hframe := h.untouched (fun a ha => (hunits₂ a ha).trans (hunits a ha)) (hbig₂.trans hbig)
      exact ⟨zs, out, h.same hzs hframe (hbig₂.trans hbig)⟩
    | some p =>
      obtain ⟨hpos, hdvd, hslob, hdisj₁, hunits₁, hbig₁⟩ := hr
      have hpnot : p ∉ out ∪ span c 2 := Finset.disjoint_right.mp hdisj₁ (mem_span.mpr (by
        have := Nat.one_le_two_pow (n := findOrder (toS32 size))
        omega))
      have hnone := h.eq_none fun hp => hpnot (Finset.mem_union_left _ hp)
      simp only [Act.wp_bind, Act.wp_modify, Act.wp_pure]
      generalize ht₂ : ({ t₁ with bigblocks := ⟨c, findOrder (toS32 size), p⟩ :: t₁.bigblocks } :
        SlobHeap) = t₂
      have hunits₂ : t₂.units = t₁.units := by rw [← ht₂]
      have hbig₂ : t₂.bigblocks = ⟨c, findOrder (toS32 size), p⟩ :: s.bigblocks := by
        rw [← ht₂, hbig₁, hbig]
      have hself : bigBlockOf t₂ p = some ⟨c, findOrder (toS32 size), p⟩ := by
        simp [bigBlockOf, hbig₂]
      have hother : ∀ q, q ≠ p → bigBlockOf t₂ q = bigBlockOf s q := fun q hq => by
        simp [bigBlockOf, hbig₂, hq.symm]
      have hheader : header t₂ p size = span c 2 := by
        rw [header, if_neg (by omega), hself, Option.elim_some]
      have hbody : body t₂ p size = span p (256 * 2 ^ findOrder (toS32 size)) := by
        rw [body, if_neg (by omega), hself, Option.elim_some]
      have hblock : block t₂ p size = span c 2 ∪ span p (256 * 2 ^ findOrder (toS32 size)) := by
        rw [block, hheader, hbody]
      rw [Finset.disjoint_union_left] at hdisj₁
      have hslob₂ : Slob I t₂ ys (out ∪ block t₂ p size) := by
        rw [hblock, ← Finset.union_assoc]
        exact hslob.frame (fun _ _ => by rw [hunits₂]) (fun _ _ => by rw [← ht₂]) (by rw [← ht₂])
          (by rw [← ht₂])
      refine ⟨ys, _, h.add hslob₂ ?_ (fun a ha => ?_) hother ⟨?_, by omega, fun hs => by omega,
        fun _ => ⟨_, hself, rfl, hpos, hdvd⟩⟩ ?_ fun bb hbb => ?_⟩
      · rw [hblock, Finset.disjoint_union_right]
        exact ⟨hdisj, hdisj₁.1⟩
      · rw [hunits₂, hunits₁, hunits a ha]
      · rw [hheader, hbody]
        exact hdisj₁.2
      · rw [hbig₂, List.map_cons, List.nodup_cons]
        refine ⟨fun hmem => ?_, h.bigsNodup⟩
        obtain ⟨bb, hbb, hpages⟩ := List.mem_map.mp hmem
        exact h.bigs_ne hnone bb hbb hpages
      · rw [hbig₂] at hbb
        rcases List.mem_cons.mp hbb with rfl | hbb
        · exact .inr ⟨rfl, hs⟩
        · exact .inl ⟨h.bigs_ne hnone bb hbb, hbb⟩

/-- **`kmalloc` keeps the invariant.**  It stops only on the assertion of `slob_alloc`, for the last
sizes below `PAGE_SIZE - SLOB_UNIT`. -/
theorem wp_kmalloc {allocPages : PageAlloc} (h : Kept I s live xs out) (hfresh : Fresh I allocPages)
    (h1 : 1 ≤ size) (fuel : ℕ) :
    Act.wp (kmalloc fuel allocPages size) (Granting I live size)
      (fun e => e = .panic ∧ 4064 ≤ size ∧ size < 4080 ∨ e = .spin ∧ fuel ≤ 2 * xs.length + 1) s := by
  rcases lt_or_ge size 4064 with hs | hs
  · exact Act.wp_mono (h.wp_kmalloc_small hfresh h1 hs fuel) (fun _ _ => id) fun _ => .inr
  rcases lt_or_ge size 4080 with hs' | hs'
  · have hlt : size < PGSIZE - SLOB_UNIT := hs'
    rw [kmalloc, if_pos hlt, slobAlloc, Act.wp_bind, Act.wp_bind, Act.wp_require]
    refine ⟨fun hroom => ?_, fun _ => .inl ⟨rfl, hs, hs'⟩⟩
    have : size + 16 + 16 < 4096 := hroom
    omega
  · exact Act.wp_mono (h.wp_kmalloc_big hfresh hs' fuel) (fun _ _ => id) fun _ => .inr

/-- Taking an entry out of `bigblocks` is not seen by the other blocks. -/
theorem find?_erase {bs : List BigBlock} {bb : BigBlock} (hq : bb.pages ≠ q) :
    (bs.erase bb).find? (·.pages = q) = bs.find? (·.pages = q) := by
  induction bs with
  | nil => rfl
  | cons x bs ih =>
    rw [List.erase_cons]
    split
    · next hx =>
      obtain rfl := eq_of_beq hx
      rw [List.find?_cons_of_neg (by simpa using hq)]
    · rw [List.find?_cons, List.find?_cons, ih]

/-- What `kfree` does with a small block: it frees its units from the header on. -/
structure SmallFree (s : SlobHeap) (out : Finset ℕ) (p size : ℕ) : Prop where
  run : ∀ fuel, kfree fuel p s = slobFree fuel (p - 16) 0 s
  pos : 0 < p - 16
  units : 0 < s.units (p - 16)
  block : block s p size = span (p - 16) (s.units (p - 16))
  sub : span (p - 16) (s.units (p - 16)) ⊆ out

theorem smallFree (h : Kept I s live xs out) (hp : live p = some size) (hs : size < 4080) :
    SmallFree s out p size := by
  obtain ⟨h16, hunits⟩ := (h.granted p size hp).small hs
  have hnone : (if p % PGSIZE = 0 then s.bigblocks.find? (·.pages = p) else none) = none := by
    split
    · refine List.find?_eq_none.mpr fun bb hbb hpages => ?_
      obtain ⟨size', hlive, hs'⟩ := h.bigs bb hbb
      rw [of_decide_eq_true hpages, hp] at hlive
      obtain rfl := Option.some.inj hlive
      omega
    · rfl
  have hpos : 0 < s.units (p - 16) := by rw [hunits, slobUnits_eq]; omega
  have hblock : block s p size = span (p - 16) (s.units (p - 16)) := by
    have := (block_small (t := s) (a := p - 16) hs hpos rfl).1
    rwa [Nat.sub_add_cancel h16] at this
  have hsub := h.block_sub hp
  have hp0 : 0 < p - 16 := h.slob.pos_of_out (hsub (head_mem hs))
  refine ⟨fun fuel => ?_, hp0, hpos, hblock, hblock ▸ hsub⟩
  rw [kfree, if_neg (by omega), Act.run_get, hnone]

/-- **`kfree` keeps the invariant**, and takes exactly its block back. -/
theorem wp_kfree (h : Kept I s live xs out) (hp : live p = some size) (fuel : ℕ) :
    Act.wp (kfree fuel p) (fun _ t => ∃ ys out', Kept I t (Function.update live p none) ys out')
      (fun e => e = .spin ∧ fuel ≤ xs.length) s := by
  have hg := h.granted p size hp
  rcases lt_or_ge size 4080 with hs | hs
  · obtain ⟨hrun, hpos, hunits, hblock, hsub⟩ := h.smallFree hp hs
    rw [Act.wp_congr (hrun fuel)]
    refine Act.wp_mono (wp_slobFree (n := s.units (p - 16)) h.slob hpos hunits rfl hsub fuel) ?_
      (fun _ => id)
    rintro - t ⟨⟨ys, -, hys⟩, -, hunits', hbig, -⟩
    rw [← hblock] at hys hunits'
    refine ⟨ys, _, h.remove hp hys hunits' (fun q _ => by rw [bigBlockOf, hbig, bigBlockOf])
      (hbig ▸ h.bigsNodup) fun bb hbb => ⟨?_, hbig ▸ hbb⟩⟩
    rintro rfl
    obtain ⟨size', hlive, hs'⟩ := h.bigs bb (hbig ▸ hbb)
    obtain rfl := Option.some.inj (hp.symm.trans hlive)
    omega
  · obtain ⟨bb, hfind, -, hpos, hdvd⟩ := hg.big hs
    have hmem : bb ∈ s.bigblocks := List.mem_of_find?_eq_some hfind
    have hpages : bb.pages = p := by simpa using List.find?_some hfind
    have hheader : header s p size = span bb.addr 2 := by
      rw [header, if_neg (by omega), hfind, Option.elim_some]
    have hbody : body s p size = span p (256 * 2 ^ bb.order) := by
      rw [body, if_neg (by omega), hfind, Option.elim_some]
    have hsub : span bb.addr 2 ∪ span p (256 * 2 ^ bb.order) ⊆ out := by
      rw [← hheader, ← hbody]
      exact h.block_sub hp
    have hdisj : Disjoint (span bb.addr 2) (span p (256 * 2 ^ bb.order)) := by
      rw [← hheader, ← hbody]
      exact hg.headed
    obtain ⟨hsubh, hsubb⟩ := Finset.union_subset_iff.mp hsub
    have hput := h.slob.putPages (n := 2 ^ bb.order) hdvd hsubb
    generalize hs₁ : ({ s with bigblocks := s.bigblocks.erase bb,
                               used := s.used \ pagesAt p bb.order } : SlobHeap) = s₁
    have hslob₁ : Slob I s₁ xs (out \ span p (256 * 2 ^ bb.order)) :=
      hput.frame (fun _ _ => by rw [← hs₁]) (fun _ _ => by rw [← hs₁]) (by rw [← hs₁])
        (by rw [← hs₁]; rfl)
    have hb0 : 0 < bb.addr := h.slob.pos_of_out (hsubh (mem_span.mpr (by omega)))
    have hif : (if p % PGSIZE = 0 then s.bigblocks.find? (·.pages = p) else none) = some bb := by
      rw [if_pos (Nat.mod_eq_zero_of_dvd hdvd)]
      exact hfind
    rw [kfree, if_neg hpos.ne', Act.wp_bind, Act.wp_get]
    dsimp only
    rw [hif]
    simp only [slobFreePages, Act.wp_bind, Act.wp_modify]
    rw [hs₁]
    refine Act.wp_mono (wp_slobFree (n := 2) hslob₁ hb0 (by norm_num) rfl
      (Finset.subset_sdiff.mpr ⟨hsubh, hdisj⟩) fuel) ?_ (fun _ => id)
    rintro - t ⟨⟨ys, -, hys⟩, -, hunits, hbig, -⟩
    have hout : (out \ span p (256 * 2 ^ bb.order)) \ span bb.addr 2 = out \ block s p size := by
      rw [block, hheader, hbody, sdiff_sdiff, Finset.sup_eq_union, Finset.union_comm]
    have hbig' : t.bigblocks = s.bigblocks.erase bb := by rw [hbig, ← hs₁]
    rw [hout] at hys hunits
    refine ⟨ys, _, h.remove hp hys (fun a ha => by rw [hunits a ha, ← hs₁]) (fun q hq => ?_) ?_
      fun bb' hbb' => ?_⟩
    · rw [bigBlockOf, hbig']
      exact find?_erase (by rw [hpages]; exact hq.symm)
    · rw [hbig']
      exact h.bigsNodup.sublist (List.Sublist.map _ (List.erase_sublist ..))
    · rw [hbig', (List.Nodup.of_map _ h.bigsNodup).mem_erase_iff] at hbb'
      refine ⟨fun hp' => hbb'.1 ?_, hbb'.2⟩
      exact List.inj_on_of_nodup_map h.bigsNodup hbb'.2 hmem (hp'.trans hpages.symm)

/-- At boot nothing is handed out. -/
theorem init (units next : ℕ → ℕ) :
    Kept I (slobInit I.arena units next) (fun _ => none) [I.arena] ∅ := by
  have hunits : (slobInit I.arena units next).units I.arena = 1 := Function.update_self ..
  have hcells : freeBytes (slobInit I.arena units next) [I.arena] = span I.arena 1 := by
    rw [freeBytes, Blocks.cells_cons, Blocks.cells_nil, Finset.union_empty, bytes, hunits]
    rfl
  refine ⟨⟨?_, List.pairwise_singleton _ _, ?_, List.mem_singleton_self _,
    List.mem_singleton_self _, hunits, Finset.disjoint_empty_right _, fun b => ?_,
    fun b hb => absurd hb (Finset.notMem_empty _)⟩, by simp, by simp, by simp, List.nodup_nil,
    by simp [slobInit]⟩
  · exact Circuit.singleton (Function.update_self ..)
  · intro p hp
    rw [List.mem_singleton.mp hp, hunits]
    exact Nat.one_pos
  · rw [hcells]
    simp [slobInit]

/-- What may be written is in no record of a free block. -/
theorem unwritten (h : Kept I s live xs out) (hs : Sound s live) {units next : ℕ → ℕ}
    (hw : ∀ a, (∀ b ∈ span a 1, ¬ Writable I s live b) → units a = s.units a ∧ next a = s.next a) :
    ∀ a ∈ xs, units a = s.units a ∧ next a = s.next a := by
  intro a ha
  refine hw a fun b hb => ?_
  have hpos := h.slob.pos a ha
  have hb' : b ∈ span a (s.units a) := by
    rw [mem_span] at hb ⊢
    omega
  rintro (⟨p, size, hp, hbp⟩ | ⟨harena, hused⟩)
  · have honfree : OnFreeList s a := (h.slob.ring.mem_iff_iterate h.slob.start).mp ha
    exact Finset.disjoint_left.mp (hs.free p size a hp honfree) hbp hb'
  · have hmem : b ∈ freeBytes s xs := Blocks.mem_cells.mpr ⟨a, ha, mem_span.mp hb'⟩
    exact ((h.slob.cover b).mp (.inl hmem)).elim harena hused

/-- **Writes to the bytes asked for** are not seen by the allocator. -/
theorem write (h : Kept I s live xs out) (hs : Sound s live) {units next : ℕ → ℕ}
    (hw : ∀ a, (∀ b ∈ span a 1, ¬ Writable I s live b) → units a = s.units a ∧ next a = s.next a) :
    Kept I { s with units := units, next := next } live xs out := by
  have hfree := h.unwritten hs hw
  refine h.same (h.slob.frame (fun a ha => (hfree a ha).1) (fun a ha => (hfree a ha).2) rfl rfl)
    (fun p size hp => ⟨fun hsz => (hw _ fun b hb => ?_).1, rfl⟩) rfl
  have hheader : b ∈ header s p size := by rwa [header, if_pos hsz]
  rintro (⟨q, size', hq, hbq⟩ | ⟨-, hused⟩)
  · exact Finset.disjoint_left.mp (hs.headers q p size' size hq hp) hbq hheader
  · exact hused (h.slob.used_of_out (h.block_sub hp (Finset.mem_union_left _ hheader)))

end Kept

/-- In a run with sizes that are covered, the invariant holds. -/
theorem Run.kept {I : Image} {s : SlobHeap} {live : Live} (h : Run I Covered s live) :
    (∃ xs out, Kept I s live xs out) ∧ ∀ p size, live p = some size → Covered size := by
  induction h with
  | init units next => exact ⟨⟨_, _, Kept.init units next⟩, by simp⟩
  | @kmalloc s t live fuel size p allocPages _ hfresh h1 _ hcov hrun ih =>
    obtain ⟨⟨xs, out, hk⟩, hlive⟩ := ih
    refine ⟨Act.wp_of_ok (hk.wp_kmalloc hfresh h1 fuel) hrun, fun q size' hq => ?_⟩
    rcases eq_or_ne q p with rfl | hqp
    · rw [Function.update_self] at hq
      exact Option.some.inj hq ▸ hcov
    · rw [Function.update_of_ne hqp] at hq
      exact hlive q size' hq
  | @kmallocNull s t live fuel size allocPages _ hfresh h1 _ hrun ih =>
    obtain ⟨⟨xs, out, hk⟩, hlive⟩ := ih
    exact ⟨Act.wp_of_ok (hk.wp_kmalloc hfresh h1 fuel) hrun, hlive⟩
  | @kfree s t live fuel size p _ hp hrun ih =>
    obtain ⟨⟨xs, out, hk⟩, hlive⟩ := ih
    refine ⟨Act.wp_of_ok (hk.wp_kfree hp fuel) hrun, fun q size' hq => ?_⟩
    rcases eq_or_ne q p with rfl | hqp
    · rw [Function.update_self] at hq
      exact absurd hq (by simp)
    · rw [Function.update_of_ne hqp] at hq
      exact hlive q size' hq
  | write units next _ hw ih =>
    obtain ⟨⟨xs, out, hk⟩, hlive⟩ := ih
    exact ⟨⟨xs, out, hk.write (hk.sound hlive) hw⟩, hlive⟩

/-- **Runs of `kmalloc` and `kfree`.**  While every size is covered, the heap is sound; and a block
just granted leaves it sound exactly if its size is covered too. -/
theorem kmalloc_run {I : Image} {s : SlobHeap} {live : Live} (h : Run I Covered s live) :
    Sound s live ∧ ∀ fuel allocPages size p t, Fresh I allocPages → 1 ≤ size → size < 2 ^ 64 →
      kmalloc fuel allocPages size s = .ok (some p, t) →
      (Sound t (Function.update live p (some size)) ↔ Covered size) := by
  obtain ⟨⟨xs, out, hk⟩, hlive⟩ := h.kept
  refine ⟨hk.sound hlive, fun fuel allocPages size p t hfresh h1 h64 hrun => ⟨fun hs => ?_,
    fun hcov => ?_⟩⟩
  · have hwp := hk.wp_kmalloc hfresh h1 fuel
    obtain ⟨ys, out', hk'⟩ := Act.wp_of_ok hwp hrun
    have hp : Function.update live p (some size) p = some size := Function.update_self ..
    exact (hk'.granted p size hp).usable_iff.mp (hs.usable p size hp)
  · obtain ⟨⟨ys, out', hk'⟩, hlive'⟩ := (h.kmalloc hfresh h1 h64 hcov hrun).kept
    exact hk'.sound hlive'

/-- A kernel image, for runs on concrete memory. -/
def bootImage : Image where
  lo := 0x80200000
  hi := 0x80300000
  arena := 0x80204010
  below := by norm_num
  above := by norm_num

/-- The page allocator that never reuses a page. -/
def bumpPages : PageAlloc := fun _ used => some (4096 * max 0x80300 (used.sup (· + 1)))

theorem fresh_bumpPages : Fresh bootImage bumpPages := by
  rintro n used kva h
  obtain rfl := Option.some.inj h
  generalize hk : used.sup (· + 1) = k
  have hdiv : 4096 * max 0x80300 k / PGSIZE = max 0x80300 k :=
    Nat.mul_div_cancel_left _ (by norm_num)
  refine ⟨by omega, ⟨_, rfl⟩, ?_, fun b hlo _ => .inr ?_⟩
  · rw [hdiv, Finset.disjoint_left]
    intro x hx hused
    have hle : x + 1 ≤ k := hk ▸ Finset.le_sup (f := (· + 1)) hused
    rw [Finset.mem_Ico] at hx
    omega
  · change 0x80300000 ≤ b
    omega

/-- The heap at boot. -/
abbrev bootHeap : SlobHeap := slobInit bootImage.arena (fun _ => 0) fun _ => 0

theorem order_8193 : findOrder (toS32 (8193 : ℕ)) = 1 := by
  have hs : toS32 (8193 : ℕ) = 8193 := by decide
  rw [hs, findOrder, if_pos (by norm_num), findOrder, if_neg (by decide)]

/-- Two requests from boot, in one page. -/
theorem kmalloc_run_boot : ∃ t u, kmalloc 5 bumpPages 100 bootHeap = .ok (some 0x80300010, t) ∧
    kmalloc 5 bumpPages 200 t = .ok (some 0x80300090, u) ∧
    Sound u (Function.update (Function.update (fun _ => none) 0x80300010 (some 100)) 0x80300090
      (some 200)) := by
  have hboot : Run bootImage Covered bootHeap fun _ => none := Run.init _ _
  have hfirst := hboot.kmalloc fresh_bumpPages (show 1 ≤ 100 by norm_num) (by norm_num)
    (covered_of_lt (by norm_num)) (show kmalloc 5 bumpPages 100 bootHeap = .ok (some 0x80300010, _)
      from rfl)
  have hsecond := hfirst.kmalloc fresh_bumpPages (show 1 ≤ 200 by norm_num) (by norm_num)
    (covered_of_lt (by norm_num)) (show kmalloc 5 bumpPages 200 _ = .ok (some 0x80300090, _)
      from rfl)
  exact ⟨_, _, rfl, rfl, (kmalloc_run hsecond).1⟩

/-- **A size just above two pages** is granted two pages. -/
theorem kmalloc_run_overrun : ¬ ∀ s live, Run bootImage (fun _ => True) s live → Sound s live := by
  have hgrant : ∃ t, kmalloc 5 bumpPages 8193 bootHeap = .ok (some 0x80301000, t) ∧
      (0x80301000 + 8192) / PGSIZE ∉ t.used := by
    rw [kmalloc, if_neg (by decide)]
    simp only [order_8193]
    refine ⟨_, rfl, ?_⟩
    decide
  obtain ⟨t, hrun, hout⟩ := hgrant
  intro h
  have hsound := h _ _ ((Run.init (fun _ => 0) fun _ => 0).kmalloc fresh_bumpPages (by norm_num)
    (by norm_num) trivial hrun)
  exact hout (hsound.inUse _ _ (Function.update_self ..) _ (Finset.mem_Ico.mpr (by norm_num)))

end UCore.Kmalloc
