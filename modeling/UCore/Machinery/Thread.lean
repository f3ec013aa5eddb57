import Mathlib.Tactic

/-!
# Machinery/Thread — singly linked lists

    o ──▸ x₁ ──▸ x₂ ──▸ ⋯ ──▸ xₙ ──▸ none

A list that hangs from `o` by one `next` field.  It ends, so it cannot come back to an entry
(`Thread.nodup`), and `o` decides what is on it (`Thread.unique`).
-/

variable {α : Type*}

/-- **The list hanging from `o`** holds `xs`, in `next` order. -/
def Thread (next : α → Option α) : Option α → List α → Prop
  | o, [] => o = none
  | o, x :: xs => o = some x ∧ Thread next (next x) xs

namespace Thread

variable {next next' : α → Option α} {o : Option α} {x : α} {xs ys : List α}

@[simp] theorem nil_iff : Thread next o [] ↔ o = none := Iff.rfl

@[simp] theorem cons_iff : Thread next o (x :: xs) ↔ o = some x ∧ Thread next (next x) xs := Iff.rfl

/-- An empty thread is no thread at all. -/
theorem eq_nil (h : Thread next none xs) : xs = [] := by
  cases xs with
  | nil => rfl
  | cons x xs => exact absurd h.1 (by simp)

/-- A thread that starts somewhere starts with its first entry. -/
theorem eq_cons (h : Thread next (some x) xs) : ∃ ys, xs = x :: ys ∧ Thread next (next x) ys := by
  cases xs with
  | nil => exact absurd h (by simp)
  | cons y ys =>
    obtain ⟨hxy, hys⟩ := h
    obtain rfl := Option.some.inj hxy
    exact ⟨ys, rfl, hys⟩

theorem unique (h : Thread next o xs) (h' : Thread next o ys) : xs = ys := by
  induction xs generalizing o ys with
  | nil =>
    rw [nil_iff] at h
    subst h
    exact h'.eq_nil.symm
  | cons x xs ih =>
    obtain ⟨rfl, hxs⟩ := h
    obtain ⟨zs, rfl, hzs⟩ := h'.eq_cons
    rw [ih hxs hzs]

/-- The rest of a thread, from one of its entries on, is a thread. -/
theorem suffix {u v : List α} (h : Thread next o (u ++ x :: v)) : Thread next (next x) v := by
  induction u generalizing o with
  | nil => exact h.2
  | cons y u ih => exact ih h.2

/-- **A thread does not come back**: an entry met twice would have two different rests. -/
theorem nodup (h : Thread next o xs) : xs.Nodup := by
  induction xs generalizing o with
  | nil => exact List.nodup_nil
  | cons x xs ih =>
    refine List.nodup_cons.mpr ⟨fun hx => ?_, ih h.2⟩
    obtain ⟨u, v, rfl⟩ := List.append_of_mem hx
    have hlen := congrArg List.length (unique h.2 h.2.suffix)
    rw [List.length_append, List.length_cons] at hlen
    omega

/-- A thread reads the `next` fields of its entries only. -/
theorem congr (h : Thread next o xs) (heq : ∀ x ∈ xs, next' x = next x) : Thread next' o xs := by
  induction xs generalizing o with
  | nil => exact h
  | cons x xs ih =>
    refine ⟨h.1, ?_⟩
    rw [heq x (by simp)]
    exact ih h.2 fun y hy => heq y (List.mem_cons_of_mem x hy)

/-- **A new first entry.** -/
theorem push [DecidableEq α] (h : Thread next o xs) (hx : x ∉ xs) :
    Thread (Function.update next x o) (some x) (x :: xs) := by
  refine ⟨rfl, ?_⟩
  rw [Function.update_self]
  exact h.congr fun y hy => Function.update_of_ne (ne_of_mem_of_not_mem hy hx) ..

/-- **A thread laid out by index**: each entry leads to the next one, and the last to none. -/
theorem ofRange (f : ℕ → α) {n i : ℕ} (hnext : ∀ k, i ≤ k → k < i + n → next (f k) = some (f (k + 1)))
    (hlast : next (f (i + n)) = none) : Thread next (some (f i)) ((List.range' i (n + 1)).map f) := by
  induction n generalizing i with
  | zero => exact ⟨rfl, hlast⟩
  | succ n ih =>
    rw [List.range'_succ, List.map_cons]
    refine ⟨rfl, ?_⟩
    rw [hnext i le_rfl (by omega)]
    refine ih (fun k hk hk' => hnext k (by omega) (by omega)) ?_
    rwa [show i + 1 + n = i + (n + 1) by omega]

end Thread
