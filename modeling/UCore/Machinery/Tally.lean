import Mathlib.Tactic

/-!
# Machinery/Tally — counters that say how many points satisfy a predicate

    Tally P f n        n points i have P (f i)

A counter of a program stands for a set it does not store.  When one point moves, the set gains or
loses that point or stays as it is, and so does the counter: three rules, one for each way to move.
-/

/-- **A tally**: `n` points `i` have `P (f i)`. -/
def Tally {ι α : Type} (P : α → Prop) (f : ι → α) (n : ℤ) : Prop :=
  ∃ S : Finset ι, (∀ i, i ∈ S ↔ P (f i)) ∧ n = S.card

namespace Tally

variable {ι α : Type} {P : α → Prop} {f : ι → α} {n : ℤ}

/-- Nothing to count. -/
theorem zero (h : ∀ i, ¬ P (f i)) : Tally P f 0 :=
  ⟨∅, fun i => by simp [h i], rfl⟩

/-- The same points, seen through another function. -/
theorem congr {β : Type} {Q : β → Prop} {g : ι → β} (h : Tally P f n) (hg : ∀ i, Q (g i) ↔ P (f i)) :
    Tally Q g n := by
  obtain ⟨S, hS, hn⟩ := h
  exact ⟨S, fun i => (hS i).trans (hg i).symm, hn⟩

/-- **A tally over two kinds of points** is the sum of one over each. -/
theorem split {κ μ : Type} {g : κ → ι} {u : μ → ι} (h : Tally P f n) (hg : Function.Injective g)
    (hu : Function.Injective u) (hdisj : ∀ k m, g k ≠ u m)
    (hall : ∀ i, P (f i) → (∃ k, g k = i) ∨ ∃ m, u m = i) :
    ∃ a b : ℤ, Tally P (f ∘ g) a ∧ Tally P (f ∘ u) b ∧ n = a + b := by
  classical
  obtain ⟨S, hS, rfl⟩ := h
  have hunion : S = (S.preimage g hg.injOn).image g ∪ (S.preimage u hu.injOn).image u := by
    ext i
    simp only [Finset.mem_union, Finset.mem_image, Finset.mem_preimage]
    constructor
    · intro hi
      rcases hall i ((hS i).mp hi) with ⟨k, rfl⟩ | ⟨m, rfl⟩
      · exact .inl ⟨k, hi, rfl⟩
      · exact .inr ⟨m, hi, rfl⟩
    · rintro (⟨k, hk, rfl⟩ | ⟨m, hm, rfl⟩)
      · exact hk
      · exact hm
  have hcard := congrArg Finset.card hunion
  rw [Finset.card_union_of_disjoint, Finset.card_image_of_injective _ hg,
    Finset.card_image_of_injective _ hu] at hcard
  · refine ⟨_, _, ⟨S.preimage g hg.injOn, fun k => by simp [hS], rfl⟩,
      ⟨S.preimage u hu.injOn, fun m => by simp [hS], rfl⟩, ?_⟩
    exact_mod_cast hcard
  · rw [Finset.disjoint_left]
    intro i hi hi'
    obtain ⟨k, -, rfl⟩ := Finset.mem_image.mp hi
    obtain ⟨m, -, hm⟩ := Finset.mem_image.mp hi'
    exact hdisj k m hm.symm

theorem nonneg (h : Tally P f n) : 0 ≤ n := by
  obtain ⟨S, -, rfl⟩ := h
  exact Int.natCast_nonneg _

/-- A positive count is somebody's. -/
theorem pos_iff (h : Tally P f n) : 0 < n ↔ ∃ i, P (f i) := by
  obtain ⟨S, hS, rfl⟩ := h
  rw [Int.natCast_pos, Finset.card_pos]
  exact exists_congr hS

/-- Two tallies of one set agree. -/
theorem unique {m : ℤ} (h : Tally P f n) (h' : Tally P f m) : n = m := by
  obtain ⟨S, hS, rfl⟩ := h
  obtain ⟨T, hT, rfl⟩ := h'
  have hST : S = T := by
    ext i
    rw [hS, hT]
  rw [hST]

section Move

variable [DecidableEq ι] {i : ι} {a : α}

/-- **A point moves within the set, or outside it.** -/
theorem update (h : Tally P f n) (hP : P a ↔ P (f i)) : Tally P (Function.update f i a) n := by
  obtain ⟨S, hS, hn⟩ := h
  refine ⟨S, fun j => ?_, hn⟩
  rcases eq_or_ne j i with rfl | hj
  · rw [Function.update_self, hP, hS]
  · rw [Function.update_of_ne hj, hS]

/-- **A point moves into the set.** -/
theorem enter (h : Tally P f n) (hold : ¬ P (f i)) (hnew : P a) :
    Tally P (Function.update f i a) (n + 1) := by
  obtain ⟨S, hS, rfl⟩ := h
  refine ⟨insert i S, fun j => ?_, ?_⟩
  · rcases eq_or_ne j i with rfl | hj
    · simp [hnew]
    · rw [Finset.mem_insert, Function.update_of_ne hj, hS]
      simp [hj]
  · rw [Finset.card_insert_of_notMem fun hi => hold ((hS i).mp hi)]
    exact (Int.natCast_succ _).symm

/-- **A point moves out of the set.** -/
theorem leave (h : Tally P f n) (hold : P (f i)) (hnew : ¬ P a) :
    Tally P (Function.update f i a) (n - 1) := by
  obtain ⟨S, hS, rfl⟩ := h
  have hi : i ∈ S := (hS i).mpr hold
  refine ⟨S.erase i, fun j => ?_, ?_⟩
  · rcases eq_or_ne j i with rfl | hj
    · simp [hnew]
    · rw [Finset.mem_erase, Function.update_of_ne hj, hS]
      simp [hj]
  · rw [Finset.card_erase_of_mem hi, Nat.cast_sub (Finset.card_pos.mpr ⟨i, hi⟩), Nat.cast_one]

/-- **A point moves**, and the count says so. -/
theorem move [DecidablePred P] (h : Tally P f n) (i : ι) (a : α) :
    Tally P (Function.update f i a) (n + (if P a then 1 else 0) - if P (f i) then 1 else 0) := by
  by_cases hnew : P a <;> by_cases hold : P (f i)
  · simpa [hnew, hold] using h.update (i := i) (a := a) (by simp [hnew, hold])
  · simpa [hnew, hold] using h.enter hold hnew
  · simpa [hnew, hold] using h.leave hold hnew
  · simpa [hnew, hold] using h.update (i := i) (a := a) (by simp [hnew, hold])

end Move

/-- At most one point, where the count is at most one. -/
theorem eq_of_le_one (h : Tally P f n) (hn : n ≤ 1) {i j : ι} (hi : P (f i)) (hj : P (f j)) : i = j := by
  obtain ⟨S, hS, rfl⟩ := h
  exact Finset.card_le_one.mp (by exact_mod_cast hn) i ((hS i).mpr hi) j ((hS j).mpr hj)

end Tally
