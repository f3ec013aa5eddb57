import Mathlib.Tactic
import Mathlib.Order.Interval.Finset.Nat
import Mathlib.Algebra.BigOperators.Group.Finset.Basic

/-!
# Machinery/Blocks — a line cut into sorted, disjoint blocks

A block is a head `p` with a size `sz p` and holds the cells `p, …, p + sz p - 1`.  `Sorted sz xs`
says that the blocks headed by `xs` come in order and do not overlap.  Taking cells from the front
of a block, adding a block, and joining two that touch each have one lemma for the order and one for
the cells held.
-/

namespace Blocks

variable {sz sz' : ℕ → ℕ} {as bs xs : List ℕ} {b n p q : ℕ}

/-- The cells of the blocks headed by `xs`. -/
def cells (sz : ℕ → ℕ) (xs : List ℕ) : Finset ℕ :=
  xs.toFinset.biUnion fun p => Finset.Ico p (p + sz p)

/-- **In order and disjoint**: each block ends at or before the start of every later one. -/
def Sorted (sz : ℕ → ℕ) (xs : List ℕ) : Prop := xs.Pairwise fun p q => p < q ∧ p + sz p ≤ q

theorem mem_cells : q ∈ cells sz xs ↔ ∃ p ∈ xs, p ≤ q ∧ q < p + sz p := by
  simp [cells]

@[simp] theorem cells_nil : cells sz [] = ∅ := rfl

@[simp] theorem cells_cons : cells sz (p :: xs) = Finset.Ico p (p + sz p) ∪ cells sz xs := by
  simp [cells]

@[simp] theorem cells_append : cells sz (as ++ bs) = cells sz as ∪ cells sz bs := by
  induction as with
  | nil => simp
  | cons p as ih => simp [ih, Finset.union_assoc]

theorem cells_congr (h : ∀ p ∈ xs, sz' p = sz p) : cells sz' xs = cells sz xs := by
  ext q
  rw [mem_cells, mem_cells]
  exact exists_congr fun p => and_congr_right fun hp => by rw [h p hp]

theorem Sorted.congr (hs : Sorted sz xs) (h : ∀ p ∈ xs, sz' p = sz p) : Sorted sz' xs :=
  List.Pairwise.imp_of_mem (fun {p _} hp _ hpq => by rw [h p hp]; exact hpq) hs

theorem Sorted.nodup (hs : Sorted sz xs) : xs.Nodup :=
  List.Pairwise.imp (fun h => h.1.ne) hs

/-- Nothing starts inside a block. -/
theorem Sorted.notMem_inside (hs : Sorted sz (as ++ p :: bs)) (hlo : p < q) (hhi : q < p + sz p) :
    q ∉ as ++ p :: bs := by
  rw [Sorted, List.pairwise_append, List.pairwise_cons] at hs
  obtain ⟨-, ⟨hpb, -⟩, hab⟩ := hs
  intro hmem
  rcases List.mem_append.mp hmem with hq | hq
  · have := (hab _ hq p (by simp)).1
    omega
  · rcases List.mem_cons.mp hq with hq | hq
    · omega
    · have := (hpb _ hq).2
      omega

/-- Every block of a sorted list ends before the cells of the later ones. -/
theorem Sorted.disjoint_cells (hs : Sorted sz (p :: xs)) :
    Disjoint (Finset.Ico p (p + sz p)) (cells sz xs) := by
  rw [Finset.disjoint_left]
  intro q hq hq'
  obtain ⟨r, hr, hrq, -⟩ := mem_cells.mp hq'
  have := (List.pairwise_cons.mp hs).1 r hr
  have := (Finset.mem_Ico.mp hq).2
  omega

/-- **The cells of disjoint blocks add up.** -/
theorem Sorted.card_cells (hs : Sorted sz xs) : (cells sz xs).card = (xs.map sz).sum := by
  induction xs with
  | nil => rfl
  | cons p xs ih =>
    rw [cells_cons, Finset.card_union_of_disjoint hs.disjoint_cells, Nat.card_Ico,
      ih (List.Pairwise.of_cons hs)]
    simp

/-- The place of a new head among sorted ones. -/
theorem exists_split (hs : Sorted sz xs) (hb : b ∉ xs) :
    ∃ as bs, xs = as ++ bs ∧ (∀ p ∈ as, p < b) ∧ ∀ p ∈ bs, b < p := by
  induction xs with
  | nil => exact ⟨[], [], rfl, by simp, by simp⟩
  | cons p xs ih =>
    obtain ⟨hp, hs⟩ := List.pairwise_cons.mp hs
    obtain ⟨as, bs, rfl, has, hbs⟩ := ih hs fun h => hb (List.mem_cons_of_mem p h)
    rcases lt_trichotomy p b with h | rfl | h
    · exact ⟨p :: as, bs, rfl, by simpa using ⟨h, has⟩, hbs⟩
    · exact absurd (by simp) hb
    · refine ⟨[], p :: (as ++ bs), rfl, by simp, fun q hq => ?_⟩
      rcases List.mem_cons.mp hq with rfl | hq
      · exact h
      · exact h.trans (hp q hq).1

/-! ## Taking cells from the front of a block -/

section Take

variable (hs : Sorted sz (as ++ p :: bs)) (hn : 0 < n) (hle : n ≤ sz p)
  (hsz : ∀ q, sz' q = if n < sz p ∧ q = p + n then sz p - n else sz q)

include hs hsz

/-- What is left of the block takes its place in the order. -/
theorem Sorted.take : Sorted sz' (as ++ (if n < sz p then [p + n] else []) ++ bs) := by
  by_cases h : n < sz p
  · rw [Sorted, List.pairwise_append, List.pairwise_cons] at hs
    obtain ⟨has, ⟨hpb, hbs⟩, hab⟩ := hs
    have hother : ∀ q, q ≠ p + n → sz' q = sz q := fun q hq => by simp [hsz, hq]
    have hasz : ∀ q ∈ as, sz' q = sz q := fun q hq => hother q (by
      have := (hab q hq p (by simp)).1
      omega)
    have hbsz : ∀ q ∈ bs, sz' q = sz q := fun q hq => hother q (by
      have := (hpb q hq).2
      omega)
    rw [if_pos h, List.append_assoc, List.singleton_append, Sorted, List.pairwise_append,
      List.pairwise_cons]
    refine ⟨Sorted.congr has hasz, ⟨fun q hq => ?_, Sorted.congr hbs hbsz⟩, fun q hq r hr => ?_⟩
    · have := (hpb q hq).2
      simp only [hsz, h, true_and, if_true]
      omega
    · rw [hasz q hq]
      rcases List.mem_cons.mp hr with rfl | hr
      · have := hab q hq p (by simp)
        omega
      · exact hab q hq r (by simp [hr])
  · obtain rfl : sz' = sz := funext fun q => by simp [hsz, h]
    rw [if_neg h, List.append_nil]
    exact hs.sublist (by simp)

include hle in
/-- Exactly the first `n` cells of the block are gone. -/
theorem Sorted.cells_take : cells sz' (as ++ (if n < sz p then [p + n] else []) ++ bs) =
    cells sz (as ++ p :: bs) \ Finset.Ico p (p + n) := by
  have hs' := hs
  rw [Sorted, List.pairwise_append, List.pairwise_cons] at hs'
  obtain ⟨-, ⟨hpb, -⟩, hab⟩ := hs'
  have hkeep : ∀ q ∈ as ++ bs, sz' q = sz q := by
    intro q hq
    rw [hsz, if_neg]
    rintro ⟨h, rfl⟩
    rcases List.mem_append.mp hq with hq | hq
    · have := (hab _ hq p (by simp)).1
      omega
    · have := (hpb _ hq).2
      omega
  have hmid : cells sz' (if n < sz p then [p + n] else []) = Finset.Ico (p + n) (p + sz p) := by
    by_cases h : n < sz p
    · have hend : p + n + (sz p - n) = p + sz p := by omega
      simp [h, hsz, hend]
    · obtain rfl : n = sz p := by omega
      simp
  ext r
  rw [cells_append, cells_append, hmid, cells_congr fun q hq => hkeep q (by simp [hq]),
    cells_congr fun q hq => hkeep q (by simp [hq])]
  simp only [cells_append, cells_cons, Finset.mem_union, Finset.mem_sdiff, Finset.mem_Ico, mem_cells]
  constructor
  · rintro ((⟨q, hq, hr⟩ | hr) | ⟨q, hq, hr⟩)
    · have := hab q hq p (by simp)
      exact ⟨.inl ⟨q, hq, hr⟩, by omega⟩
    · exact ⟨.inr (.inl (by omega)), by omega⟩
    · have := hpb q hq
      exact ⟨.inr (.inr ⟨q, hq, hr⟩), by omega⟩
  · rintro ⟨hq | hq | hq, hr⟩
    · exact .inl (.inl hq)
    · exact .inl (.inr (by omega))
    · exact .inr hq

end Take

/-! ## Adding a block -/

section Insert

variable (hs : Sorted sz (as ++ bs)) (hpos : ∀ q ∈ as ++ bs, 0 < sz q) (hn : 0 < n)
  (has : ∀ q ∈ as, q < b) (hbs : ∀ q ∈ bs, b < q)
  (hdisj : Disjoint (Finset.Ico b (b + n)) (cells sz (as ++ bs)))
  (hsz : ∀ q, sz' q = if q = b then n else sz q)

include has hbs hsz

private theorem insert_keeps : ∀ q ∈ as ++ bs, sz' q = sz q := by
  intro q hq
  rw [hsz, if_neg]
  rintro rfl
  rcases List.mem_append.mp hq with hq | hq
  · exact absurd (has q hq) (lt_irrefl q)
  · exact absurd (hbs q hq) (lt_irrefl q)

include hs hpos hn hdisj in
/-- A block of fresh cells keeps the order. -/
theorem Sorted.insert : Sorted sz' (as ++ b :: bs) := by
  have hkeep := insert_keeps has hbs hsz
  have hout : ∀ q ∈ as ++ bs, ∀ r, b ≤ r → r < b + n → ¬ (q ≤ r ∧ r < q + sz q) :=
    fun q hq r h₁ h₂ h => Finset.disjoint_left.mp hdisj (Finset.mem_Ico.mpr ⟨h₁, h₂⟩)
      (mem_cells.mpr ⟨q, hq, h⟩)
  rw [Sorted, List.pairwise_append] at hs
  obtain ⟨hA, hB, hab⟩ := hs
  rw [Sorted, List.pairwise_append, List.pairwise_cons]
  refine ⟨Sorted.congr hA fun q hq => hkeep q (by simp [hq]),
    ⟨fun q hq => ⟨hbs q hq, ?_⟩, Sorted.congr hB fun q hq => hkeep q (by simp [hq])⟩,
    fun q hq r hr => ?_⟩
  · have hq' : q ∈ as ++ bs := by simp [hq]
    have := hbs q hq
    have := hpos q hq'
    have := hout q hq' q (by omega)
    simp only [hsz b, if_true]
    omega
  · rw [hkeep q (by simp [hq])]
    rcases List.mem_cons.mp hr with rfl | hr
    · have := hout q (by simp [hq]) r le_rfl (by omega)
      have := has q hq
      omega
    · exact hab q hq r hr

/-- …and adds exactly its cells. -/
theorem cells_insert : cells sz' (as ++ b :: bs) =
    cells sz (as ++ bs) ∪ Finset.Ico b (b + n) := by
  have hkeep := insert_keeps has hbs hsz
  have hb : sz' b = n := by simp [hsz]
  rw [cells_append, cells_cons, cells_congr fun q hq => hkeep q (by simp [hq]),
    cells_congr fun q hq => hkeep q (by simp [hq]), hb, cells_append,
    Finset.union_left_comm, Finset.union_comm]

end Insert

/-! ## Joining two blocks that touch -/

section Merge

variable (hs : Sorted sz (as ++ p :: b :: bs)) (htouch : p + sz p = b)
  (hsz : ∀ q, sz' q = if q = p then sz p + sz b else sz q)

include hs htouch hsz

private theorem merge_keeps : ∀ q ∈ as ++ bs, sz' q = sz q := by
  rw [Sorted, List.pairwise_append, List.pairwise_cons] at hs
  obtain ⟨-, ⟨hp, -⟩, hab⟩ := hs
  intro q hq
  rw [hsz, if_neg]
  rintro rfl
  rcases List.mem_append.mp hq with hq | hq
  · exact absurd (hab q hq q (by simp)).1 (lt_irrefl q)
  · exact absurd (hp q (by simp [hq])).1 (lt_irrefl q)

/-- The joined block keeps the order. -/
theorem Sorted.merge : Sorted sz' (as ++ p :: bs) := by
  have hkeep := merge_keeps hs htouch hsz
  rw [Sorted, List.pairwise_append, List.pairwise_cons, List.pairwise_cons] at hs
  obtain ⟨hA, ⟨hp, hb, hB⟩, hab⟩ := hs
  rw [Sorted, List.pairwise_append, List.pairwise_cons]
  refine ⟨Sorted.congr hA fun q hq => hkeep q (by simp [hq]),
    ⟨fun q hq => ⟨(hp q (by simp [hq])).1, ?_⟩, Sorted.congr hB fun q hq => hkeep q (by simp [hq])⟩,
    fun q hq r hr => ?_⟩
  · have := (hb q hq).2
    simp only [hsz p, if_true]
    omega
  · rw [hkeep q (by simp [hq])]
    refine hab q hq r ?_
    rcases List.mem_cons.mp hr with rfl | hr
    · simp
    · simp [hr]

/-- …and holds the cells of both. -/
theorem Sorted.cells_merge : cells sz' (as ++ p :: bs) = cells sz (as ++ p :: b :: bs) := by
  have hkeep := merge_keeps hs htouch hsz
  have hp : sz' p = sz p + sz b := by simp [hsz]
  have hspan : Finset.Ico p (p + (sz p + sz b)) =
      Finset.Ico p (p + sz p) ∪ Finset.Ico b (b + sz b) := by
    ext r
    simp only [Finset.mem_Ico, Finset.mem_union]
    omega
  rw [cells_append, cells_cons, cells_congr fun q hq => hkeep q (by simp [hq]),
    cells_congr fun q hq => hkeep q (by simp [hq]), hp, hspan, cells_append, cells_cons, cells_cons,
    Finset.union_assoc (Finset.Ico p _)]

end Merge

/-! ## Blocks that touch -/

/-- **No two blocks touch**: none starts where another ends. -/
def Spaced (sz : ℕ → ℕ) (xs : List ℕ) : Prop := ∀ p ∈ xs, p + sz p ∉ xs

/-- Only the block at `b` may touch the one after it. -/
def SpacedBut (sz : ℕ → ℕ) (xs : List ℕ) (b : ℕ) : Prop := ∀ p ∈ xs, p + sz p ∈ xs → p = b

/-- A new block between blocks that do not touch, when the one before it does not touch it. -/
theorem Spaced.insert (hs : Sorted sz' (as ++ b :: bs)) (hsp : Spaced sz (as ++ bs))
    (hkeep : ∀ p ∈ as ++ bs, sz' p = sz p) (hlast : ∀ p ∈ as.getLast?, p + sz' p ≠ b) : SpacedBut sz' (as ++ b :: bs) b := by
  intro p hp hend
  by_contra hne
  have hold : p ∈ as ++ bs := by simp at hp ⊢; tauto
  have htouch : p + sz' p = b := by
    by_contra hb
    exact hsp p hold (hkeep p hold ▸ (by simp at hend ⊢; tauto))
  rw [Sorted, List.pairwise_append, List.pairwise_cons] at hs
  obtain ⟨has, ⟨hb, -⟩, hab⟩ := hs
  have hpa : p ∈ as := by
    refine (List.mem_append.mp hold).resolve_right fun hpb => ?_
    have := (hb p hpb).1
    omega
  -- a block of `as` that is not its last ends before the last one starts
  rcases List.eq_nil_or_concat' as with rfl | ⟨cs, q, rfl⟩
  · cases hpa
  · rw [List.pairwise_append] at has
    rcases List.mem_append.mp hpa with hpc | hpq
    · have := (has.2.2 p hpc q (by simp)).2
      have := (hab q (by simp) b (by simp)).1
      omega
    · rw [List.mem_singleton] at hpq
      exact hlast q (by simp) (hpq ▸ htouch)

/-- A block that grows onto the new one, out of blocks that do not touch. -/
theorem Spaced.grow (hsp : Spaced sz xs) (hkeep : ∀ p ∈ xs, p ≠ b → sz' p = sz p) :
    SpacedBut sz' xs b := fun p hp hend => by
  by_contra hne
  exact hsp p hp (hkeep p hp hne ▸ hend)

/-- When the one block that may touch the next does not, none does. -/
theorem SpacedBut.spaced (hs : Sorted sz (as ++ b :: bs)) (hsp : SpacedBut sz (as ++ b :: bs) b)
    (hb : 0 < sz b) (hnext : ∀ p ∈ bs.head?, b + sz b ≠ p) : Spaced sz (as ++ b :: bs) := by
  intro p hp hend
  obtain rfl := hsp p hp hend
  rw [Sorted, List.pairwise_append, List.pairwise_cons] at hs
  obtain ⟨-, ⟨hpb, hbs⟩, hab⟩ := hs
  rcases List.mem_append.mp hend with h | h
  · have := (hab _ h p (by simp)).1
    omega
  · rcases List.mem_cons.mp h with h | h
    · omega
    · cases bs with
      | nil => cases h
      | cons q bs =>
        have := (hpb q (by simp)).2
        rcases List.mem_cons.mp h with h | h
        · exact hnext q rfl h
        · have := ((List.pairwise_cons.mp hbs).1 _ h).1
          omega

/-- …and when it is joined to the next, none does either. -/
theorem SpacedBut.merge (hs : Sorted sz (as ++ b :: p :: bs))
    (hsp : SpacedBut sz (as ++ b :: p :: bs) b) (htouch : b + sz b = p)
    (hsz : ∀ q, sz' q = if q = b then sz b + sz p else sz q) : Spaced sz' (as ++ b :: bs) := by
  have hbp : b < p := by
    rw [Sorted, List.pairwise_append, List.pairwise_cons] at hs
    exact (hs.2.1.1 p (by simp)).1
  have hold : ∀ q ∈ as ++ b :: bs, q ∈ as ++ b :: p :: bs := fun q hq => by simp at hq ⊢; tauto
  intro q hq hend
  rw [hsz] at hend
  split at hend
  · next hqb =>
    have := hsp p (by simp) (hold _ (by rwa [hqb, ← Nat.add_assoc, htouch] at hend))
    omega
  · next hqb => exact hqb (hsp q (hold q hq) (hold _ hend))

end Blocks
