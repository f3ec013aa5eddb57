import Mathlib.Tactic
import Mathlib.Data.List.TakeWhile

/-!
# Machinery/Ranges — lists of half-open ranges, in order and disjoint

    [lo x, hi x)   [lo y, hi y)        [lo z, hi z)

A list of them is searched from the front, and grows at the place of a new range.  Where the list is
in order, a point is in one range at most, and a new range meets none as soon as it meets neither of
its neighbours.
-/

namespace Ranges

variable {α β : Type*} [LinearOrder α] {lo hi : β → α} {xs : List β} {v x y : β} {a b : α}

/-- A point is in a range. -/
def Holds (lo hi : β → α) (x : β) (a : α) : Prop := lo x ≤ a ∧ a < hi x

instance : Decidable (Holds lo hi x a) := inferInstanceAs (Decidable (_ ∧ _))

/-- **In order and disjoint**: the ranges are not empty, and each ends at or before the start of every
later one. -/
structure Sorted (lo hi : β → α) (xs : List β) : Prop where
  nonempty : ∀ x ∈ xs, lo x < hi x
  apart : xs.Pairwise fun x y => hi x ≤ lo y

/-- A range meets none of a list. -/
def Clear (lo hi : β → α) (v : β) (xs : List β) : Prop := ∀ x ∈ xs, hi x ≤ lo v ∨ hi v ≤ lo x

instance : Decidable (Clear lo hi v xs) := inferInstanceAs (Decidable (∀ x ∈ xs, _))

namespace Sorted

theorem nil : Sorted lo hi [] := ⟨fun _ h => (nomatch h), .nil⟩

/-- Two ranges that are not the same one are apart, one way or the other. -/
theorem apart_or (h : Sorted lo hi xs) (hx : x ∈ xs) (hy : y ∈ xs) :
    x = y ∨ hi x ≤ lo y ∨ hi y ≤ lo x := by
  induction xs with
  | nil => cases hx
  | cons z xs ih =>
    obtain ⟨hz, hxs⟩ := List.pairwise_cons.mp h.apart
    rcases List.mem_cons.mp hx with rfl | hx' <;> rcases List.mem_cons.mp hy with rfl | hy'
    · exact .inl rfl
    · exact .inr (.inl (hz y hy'))
    · exact .inr (.inr (hz x hx'))
    · exact ih ⟨fun w hw => h.nonempty w (List.mem_cons_of_mem z hw), hxs⟩ hx' hy'

/-- **A point is in one range at most.** -/
theorem eq_of_holds (h : Sorted lo hi xs) (hx : x ∈ xs) (hy : y ∈ xs) (hax : Holds lo hi x a)
    (hay : Holds lo hi y a) : x = y := by
  rcases h.apart_or hx hy with heq | hle | hle
  · exact heq
  · exact absurd (hax.2.trans_le hle) (not_lt.mpr hay.1)
  · exact absurd (hay.2.trans_le hle) (not_lt.mpr hax.1)

/-- **The search from the front finds the range of a point.** -/
theorem find_eq_some (h : Sorted lo hi xs) :
    xs.find? (fun x => Holds lo hi x a) = some x ↔ x ∈ xs ∧ Holds lo hi x a := by
  refine ⟨fun hx => ⟨List.mem_of_find?_eq_some hx, ?_⟩, fun ⟨hx, ha⟩ => ?_⟩
  · have := List.find?_some hx
    exact of_decide_eq_true this
  · cases hf : xs.find? fun x => Holds lo hi x a with
    | none => exact absurd (decide_eq_true ha) (List.find?_eq_none.mp hf x hx)
    | some y =>
      have hy : Holds lo hi y a := by
        have := List.find?_some hf
        exact of_decide_eq_true this
      rw [h.eq_of_holds hx (List.mem_of_find?_eq_some hf) ha hy]

theorem find_eq_none : xs.find? (fun x => Holds lo hi x a) = none ↔ ∀ x ∈ xs, ¬ Holds lo hi x a := by
  rw [List.find?_eq_none]
  exact forall₂_congr fun x _ => not_congr decide_eq_true_iff

/-- Where one range of the list ends inside the next point's range, that range starts there. -/
theorem lo_eq_hi (h : Sorted lo hi xs) (hx : x ∈ xs) (hy : y ∈ xs) (ha : Holds lo hi y (hi x)) :
    lo y = hi x := by
  rcases h.apart_or hx hy with rfl | hle | hle
  · exact absurd ha.2 (lt_irrefl _)
  · exact le_antisymm ha.1 hle
  · exact absurd ha.2 (not_lt.mpr (hle.trans (h.nonempty x hx).le))

end Sorted

/-! ## The place of a new range -/

/-- The ranges that start no later than `v`… -/
def upTo (lo : β → α) (v : β) (xs : List β) : List β := xs.takeWhile fun x => lo x ≤ lo v

/-- …and those from the first that starts later. -/
def beyond (lo : β → α) (v : β) (xs : List β) : List β := xs.dropWhile fun x => lo x ≤ lo v

/-- A list with a new range at its place. -/
def insert (lo : β → α) (v : β) (xs : List β) : List β := upTo lo v xs ++ v :: beyond lo v xs

theorem upTo_append_beyond : upTo lo v xs ++ beyond lo v xs = xs := List.takeWhile_append_dropWhile

theorem insert_perm : (insert lo v xs).Perm (v :: xs) := by
  have hmid : (upTo lo v xs ++ v :: beyond lo v xs).Perm (v :: (upTo lo v xs ++ beyond lo v xs)) :=
    List.perm_middle
  rwa [upTo_append_beyond] at hmid

theorem mem_insert : x ∈ insert lo v xs ↔ x = v ∨ x ∈ xs := by
  rw [insert_perm.mem_iff, List.mem_cons]

/-- A range that starts before all others goes to the front. -/
theorem insert_eq_cons (h : ∀ x ∈ xs, lo v < lo x) : insert lo v xs = v :: xs := by
  cases xs with
  | nil => rfl
  | cons x xs =>
    have hno : ¬ lo x ≤ lo v := not_le.mpr (h x List.mem_cons_self)
    rw [insert, upTo, beyond, List.takeWhile_cons_of_neg (by simpa using hno),
      List.dropWhile_cons_of_neg (by simpa using hno), List.nil_append]

theorem length_insert : (insert lo v xs).length = xs.length + 1 := insert_perm.length_eq

theorem mem_of_mem_upTo (hx : x ∈ upTo lo v xs) : x ∈ xs := (List.takeWhile_sublist _).subset hx

theorem mem_of_mem_beyond (hx : x ∈ beyond lo v xs) : x ∈ xs := (List.dropWhile_sublist _).subset hx

theorem lo_le_of_mem_upTo (hx : x ∈ upTo lo v xs) : lo x ≤ lo v := by
  simpa using List.mem_takeWhile_imp (p := fun x => decide (lo x ≤ lo v)) hx

/-- The ranges beyond start later, all of them. -/
theorem Sorted.lt_of_mem_beyond (h : Sorted lo hi xs) (hx : x ∈ beyond lo v xs) : lo v < lo x := by
  induction xs with
  | nil => cases hx
  | cons z xs ih =>
    obtain ⟨hz, hxs⟩ := List.pairwise_cons.mp h.apart
    have htail : Sorted lo hi xs := ⟨fun w hw => h.nonempty w (List.mem_cons_of_mem z hw), hxs⟩
    rw [beyond, List.dropWhile_cons] at hx
    split at hx
    · exact ih htail hx
    · next hzv =>
      have hzv : lo v < lo z := by simpa using hzv
      rcases List.mem_cons.mp hx with rfl | hx
      · exact hzv
      · exact hzv.trans ((h.nonempty z List.mem_cons_self).trans_le (hz x hx))

/-- **A range that meets none keeps the list in order.** -/
theorem Sorted.insert (h : Sorted lo hi xs) (hv : lo v < hi v) (hclear : Clear lo hi v xs) :
    Sorted lo hi (insert lo v xs) := by
  have hsplit : (upTo lo v xs ++ beyond lo v xs).Pairwise fun x y => hi x ≤ lo y := by
    rw [upTo_append_beyond]
    exact h.apart
  obtain ⟨hup, hbeyond, hcross⟩ := List.pairwise_append.mp hsplit
  refine ⟨fun x hx => ?_, List.pairwise_append.mpr ⟨hup, List.pairwise_cons.mpr ⟨fun x hx => ?_,
    hbeyond⟩, fun x hx y hy => ?_⟩⟩
  · rcases mem_insert.mp hx with rfl | hx
    · exact hv
    · exact h.nonempty x hx
  · refine (hclear x (mem_of_mem_beyond hx)).resolve_left fun hle => ?_
    exact absurd ((h.nonempty x (mem_of_mem_beyond hx)).trans_le hle) (h.lt_of_mem_beyond hx).not_gt
  · rcases List.mem_cons.mp hy with rfl | hy
    · refine (hclear x (mem_of_mem_upTo hx)).resolve_right fun hle => ?_
      exact absurd (hv.trans_le hle) (not_lt.mpr (lo_le_of_mem_upTo hx))
    · exact hcross x hx y hy

/-- **The neighbours are enough**: a range that meets neither the last one that starts no later nor the
first one that starts later meets none. -/
theorem Sorted.clear_iff (h : Sorted lo hi xs) : Clear lo hi v xs ↔
    (∀ x ∈ (upTo lo v xs).getLast?, hi x ≤ lo v ∨ hi v ≤ lo x) ∧
      ∀ x ∈ (beyond lo v xs).head?, hi x ≤ lo v ∨ hi v ≤ lo x := by
  refine ⟨fun hclear => ⟨fun x hx => hclear x (mem_of_mem_upTo (List.mem_of_getLast? hx)),
    fun x hx => hclear x (mem_of_mem_beyond (List.mem_of_head? hx))⟩, fun ⟨hlast, hhead⟩ x hx => ?_⟩
  have hsplit := h.apart
  have hcut : upTo lo v xs ++ beyond lo v xs = xs := upTo_append_beyond
  rw [← hcut] at hx hsplit
  obtain ⟨hup, hbeyond, -⟩ := List.pairwise_append.mp hsplit
  rcases List.mem_append.mp hx with hx | hx
  · -- an earlier range ends before the last one starts, and that is no later than `v`
    rcases List.eq_nil_or_concat' (upTo lo v xs) with hnil | ⟨ys, y, hys⟩
    · rw [hnil] at hx
      cases hx
    · have hy : y ∈ upTo lo v xs := hys ▸ by simp
      rw [hys, List.getLast?_concat] at hlast
      rw [hys] at hx hup
      rcases List.mem_append.mp hx with hxy | hxy
      · exact .inl (((List.pairwise_append.mp hup).2.2 x hxy y (by simp)).trans
          (lo_le_of_mem_upTo hy))
      · rw [List.mem_singleton.mp hxy]
        exact hlast y rfl
  · cases hb : beyond lo v xs with
    | nil =>
      rw [hb] at hx
      cases hx
    | cons y ys =>
      have hy : y ∈ beyond lo v xs := hb ▸ List.mem_cons_self
      have hle : hi v ≤ lo y := by
        refine (hhead y (by rw [hb]; rfl)).resolve_left fun hle => ?_
        exact absurd ((h.nonempty y (mem_of_mem_beyond hy)).trans_le hle) (h.lt_of_mem_beyond hy).not_gt
      rw [hb] at hx hbeyond
      rcases List.mem_cons.mp hx with rfl | hx
      · exact .inr hle
      · exact .inr (hle.trans ((h.nonempty y (mem_of_mem_beyond hy)).le.trans
          ((List.pairwise_cons.mp hbeyond).1 x hx)))

end Ranges
