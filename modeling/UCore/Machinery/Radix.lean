import Mathlib.Tactic

/-!
# Machinery/Radix — trees of tables

    root ──i──▸ f ──j──▸ g ──k──▸ …         walk root [i, j, k, …]

A table maps indices to tables.  In a tree no table is reached by two paths, so that a new table under
one path is seen by no other.  The paths in question are those of a set `D` that holds the beginnings
of its members.
-/

namespace Radix

variable {F I : Type*} {next next' : F → I → Option F} {root f c : F} {p q : List I} {i : I}
  {D : List I → Prop}

/-- The table at the end of a path. -/
def walk (next : F → I → Option F) : F → List I → Option F
  | f, [] => some f
  | f, i :: is => (next f i).bind fun g => walk next g is

theorem walk_append (next : F → I → Option F) (f : F) (p q : List I) :
    walk next f (p ++ q) = (walk next f p).bind fun g => walk next g q := by
  induction p generalizing f with
  | nil => rfl
  | cons i p ih =>
    rw [List.cons_append, walk, walk]
    cases next f i with
    | none => rfl
    | some g => exact ih g

theorem walk_concat (next : F → I → Option F) (f : F) (p : List I) (i : I) :
    walk next f (p ++ [i]) = (walk next f p).bind fun g => next g i := by
  rw [walk_append]
  congr 1
  funext g
  rw [walk]
  cases next g i <;> rfl

/-- A walk stays among tables that name no others. -/
theorem walk_mem {S : F → Prop} (hnext : ∀ f i g, S f → next f i = some g → S g) {g : F} (hf : S f)
    (hw : walk next f p = some g) : S g := by
  induction p generalizing f with
  | nil => exact Option.some.inj hw ▸ hf
  | cons i p ih =>
    rw [walk, Option.bind_eq_some_iff] at hw
    obtain ⟨h, hh, hw⟩ := hw
    exact ih (hnext f i h hf hh) hw

/-- **A tree**: no table is at the end of two of the paths. -/
structure Tree (next : F → I → Option F) (root : F) (D : List I → Prop) : Prop where
  init : ∀ p i, D (p ++ [i]) → D p
  inj : ∀ p q f, D p → D q → walk next root p = some f → walk next root q = some f → p = q

/-- What becomes of the tables when `c` is put under the free entry `i` of `f`. -/
structure Grown (next next' : F → I → Option F) (root f : F) (i : I) (c : F) (D : List I → Prop) :
    Prop where
  free : next f i = none
  entry : next' f i = some c
  frame : ∀ q g j, D q → walk next root q = some g → (g ≠ f ∨ j ≠ i) → next' g j = next g j

/-- **One path more**, and all the others as they were. -/
theorem Tree.walk_grown [DecidableEq I] (h : Tree next root D) (hg : Grown next next' root f i c D) (hp : D p)
    (hf : walk next root p = some f) (hbelow : ∀ j, D (p ++ [i] ++ [j]) → next' c j = none)
    (q : List I) (hq : D q) :
    walk next' root q = if q = p ++ [i] then some c else walk next root q := by
  induction q using List.reverseRecOn with
  | nil => rw [if_neg (by simp), walk, walk]
  | append_singleton q j ih =>
    have hqD := h.init q j hq
    have ih := ih hqD
    rw [walk_concat, walk_concat, ih]
    by_cases hqi : q = p ++ [i]
    · -- below the new table there is nothing, and there was nothing
      subst hqi
      rw [if_pos rfl, if_neg (by simp), walk_concat, hf]
      simp only [Option.bind_some, hg.free, Option.bind_none]
      exact hbelow j hq
    · rw [if_neg hqi]
      cases hw : walk next root q with
      | none =>
        have hne : q ≠ p := fun heq => by simp [heq, hf] at hw
        have hne' : q ++ [j] ≠ p ++ [i] := fun heq => hne (List.append_inj' heq rfl).1
        rw [if_neg hne']
        rfl
      | some g =>
        simp only [Option.bind_some]
        by_cases hlast : q ++ [j] = p ++ [i]
        · obtain ⟨rfl, hij⟩ := List.append_inj' hlast rfl
          obtain rfl : j = i := by simpa using hij
          obtain rfl : g = f := Option.some.inj (hw.symm.trans hf)
          rw [if_pos rfl, hg.entry]
        · rw [if_neg hlast]
          refine hg.frame q g j hqD hw ?_
          by_contra hno
          obtain ⟨rfl, rfl⟩ := not_or.mp hno |>.imp not_not.mp not_not.mp
          exact hlast (congrArg (· ++ [j]) (h.inj q p g hqD hp hw hf))

/-- **A tree grows by a table that was on no path.** -/
theorem Tree.grown (h : Tree next root D) (hg : Grown next next' root f i c D) (hp : D p)
    (hf : walk next root p = some f) (hbelow : ∀ j, D (p ++ [i] ++ [j]) → next' c j = none)
    (hfresh : ∀ q, D q → walk next root q ≠ some c) : Tree next' root D := by
  classical
  refine ⟨h.init, fun q q' g hq hq' hw hw' => ?_⟩
  rw [h.walk_grown hg hp hf hbelow q hq] at hw
  rw [h.walk_grown hg hp hf hbelow q' hq'] at hw'
  split at hw <;> split at hw'
  · next h₁ h₂ => exact h₁.trans h₂.symm
  · exact absurd (hw'.trans hw.symm) (hfresh q' hq')
  · exact absurd (hw.trans hw'.symm) (hfresh q hq)
  · exact h.inj q q' g hq hq' hw hw'

/-- A walk depends on the tables along the paths only. -/
theorem walk_congr (hinit : ∀ p i, D (p ++ [i]) → D p)
    (hframe : ∀ q g j, D (q ++ [j]) → walk next root q = some g → next' g j = next g j) (q : List I)
    (hq : D q) : walk next' root q = walk next root q := by
  induction q using List.reverseRecOn with
  | nil => rfl
  | append_singleton q j ih =>
    rw [walk_concat, walk_concat, ih (hinit q j hq)]
    cases hw : walk next root q with
    | none => rfl
    | some g => exact hframe q g j hq hw

/-! ## An entry that is cleared -/

/-- With fewer entries there are fewer walks. -/
theorem walk_mono (hle : ∀ g j x, next' g j = some x → next g j = some x) {g : F}
    (hw : walk next' root p = some g) : walk next root p = some g := by
  induction p generalizing root with
  | nil => exact hw
  | cons i p ih =>
    rw [walk, Option.bind_eq_some_iff] at hw ⊢
    obtain ⟨x, hx, hw⟩ := hw
    exact ⟨x, hle root i x hx, ih hw⟩

/-- A tree without some of its entries is one. -/
theorem Tree.mono (h : Tree next root D) (hle : ∀ g j x, next' g j = some x → next g j = some x) :
    Tree next' root D :=
  ⟨h.init, fun p q f hp hq hw hw' => h.inj p q f hp hq (walk_mono hle hw) (walk_mono hle hw')⟩

/-- **The paths that do not take an entry** are as they were, whatever becomes of it. -/
theorem Tree.walk_avoid (h : Tree next root D) (hp : D p) (hf : walk next root p = some f)
    (hframe : ∀ g j, g ≠ f ∨ j ≠ i → next' g j = next g j) (q : List I) (hq : D q)
    (hno : ¬ p ++ [i] <+: q) : walk next' root q = walk next root q := by
  have hinit : ∀ q j, D (q ++ [j]) ∧ ¬ p ++ [i] <+: q ++ [j] → D q ∧ ¬ p ++ [i] <+: q :=
    fun q j hq => ⟨h.init q j hq.1, fun hpre => hq.2 (hpre.trans (List.prefix_append q [j]))⟩
  refine walk_congr (D := fun q => D q ∧ ¬ p ++ [i] <+: q) hinit (fun q g j hq hw => hframe g j ?_) q
    ⟨hq, hno⟩
  by_contra hsame
  obtain ⟨rfl, rfl⟩ := not_or.mp hsame |>.imp not_not.mp not_not.mp
  obtain rfl := h.inj q p g (h.init q j hq.1) hp hw hf
  exact hq.2 (List.prefix_refl _)

end Radix
