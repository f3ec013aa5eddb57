import Mathlib.Data.List.Basic
import Mathlib.Logic.Function.Basic
import Mathlib.Tactic

/-!
# Machinery/RingBuffer — a queue in a ring of slots

    r ───────────▸ w          position i lies in slot i % N
    | pending      |

Positions only grow, and a slot is used again every `N` positions.  Putting an element at `w` adds it
at the end of what is pending, unless `N` are pending: then its slot is that of the first of them.
-/

namespace RingBuffer

variable {α : Type*} {N r w i j : ℕ} {slots : ℕ → α} {c : α}

/-- What lies between the positions `r` and `w`. -/
def pending (N : ℕ) (slots : ℕ → α) (r w : ℕ) : List α :=
  (List.range (w - r)).map fun i => slots ((r + i) % N)

/-- Nothing lies between a position and itself. -/
@[simp] theorem pending_self : pending N slots r r = [] := by
  rw [pending, Nat.sub_self, List.range_zero, List.map_nil]

@[simp] theorem length_pending : (pending N slots r w).length = w - r := by
  rw [pending, List.length_map, List.length_range]

/-- **Taking** the first. -/
theorem pending_take (h : r < w) :
    pending N slots r w = slots (r % N) :: pending N slots (r + 1) w := by
  rw [pending, pending, show w - r = (w - (r + 1)) + 1 by omega, List.range_succ_eq_map, List.map_cons,
    List.map_map]
  refine congrArg₂ _ rfl (List.map_congr_left fun i _ => ?_)
  rw [Function.comp_apply, show r + Nat.succ i = r + 1 + i by omega]

/-- Positions less than `N` apart have slots of their own. -/
theorem slot_ne (hlt : i < j) (hN : j < i + N) : i % N ≠ j % N := by
  intro h
  have hdvd : N ∣ j - i := (Nat.modEq_iff_dvd' hlt.le).mp h
  have := Nat.le_of_dvd (by omega) hdvd
  omega

/-- A store to the slot of a position is not seen at those less than `N` before. -/
theorem pending_update (hN : w < r + N) :
    pending N (Function.update slots (w % N) c) r w = pending N slots r w := by
  refine List.map_congr_left fun i hi => ?_
  rw [List.mem_range] at hi
  exact Function.update_of_ne (slot_ne (by omega) (by omega)) ..

/-- **Putting** one more. -/
theorem pending_put (hle : r ≤ w) (hN : w < r + N) :
    pending N (Function.update slots (w % N) c) r (w + 1) = pending N slots r w ++ [c] := by
  rw [pending, show w + 1 - r = (w - r) + 1 by omega, List.range_succ, List.map_append, List.map_singleton,
    show r + (w - r) = w by omega, Function.update_self]
  exact congrArg (· ++ [c]) (pending_update hN)

/-- **A store in a full ring** takes the place of the first. -/
theorem pending_put_full (hN : w = r + N) (hpos : 0 < N) :
    pending N (Function.update slots (w % N) c) r w = c :: pending N slots (r + 1) w := by
  rw [pending_take (by omega), pending_update (by omega), hN, Nat.add_mod_right, Function.update_self]

end RingBuffer
