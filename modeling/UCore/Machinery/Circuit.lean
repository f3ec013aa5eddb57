import Mathlib.Data.List.Rotate
import Mathlib.Tactic

/-!
# Machinery/Circuit — singly linked rings

    a ─▸ b ─▸ c ─▸ a          Circuit next [a, b, c]

`Circuit next xs` says that `next` goes once round `xs` and closes.  Where the list is cut does not
matter (`Circuit.comm`), so each edit is stated at the cut where it happens: the element whose link
changes comes first.
-/

/-- **The ring of `xs`**: following `next` turns the list by one place. -/
def Circuit {α : Type*} (next : α → α) (xs : List α) : Prop := xs.map next = xs.rotate 1

namespace Circuit

variable {α : Type*} {next next' : α → α} {a b c x : α} {r u v xs : List α}

theorem cons_iff : Circuit next (c :: r) ↔ next c :: r.map next = r ++ [c] := by
  rw [Circuit, List.map_cons, List.rotate_cons_succ, List.rotate_zero]

theorem singleton (h : next a = a) : Circuit next [a] := by
  simp [cons_iff, h]

theorem congr (h : Circuit next xs) (hn : ∀ a ∈ xs, next' a = next a) : Circuit next' xs := by
  rw [Circuit, List.map_congr_left hn]
  exact h

/-- **A ring has no first element.** -/
theorem comm (h : Circuit next (u ++ v)) : Circuit next (v ++ u) := by
  have hrot : v ++ u = (u ++ v).rotate u.length := (List.rotate_append_length_eq u v).symm
  rw [Circuit, hrot, List.map_rotate, h, List.rotate_rotate, List.rotate_rotate, Nat.add_comm]

/-- The ring cut in front of any of its elements. -/
theorem cut (h : Circuit next (u ++ a :: v)) : Circuit next (a :: (v ++ u)) := h.comm

theorem next_cons (h : Circuit next (c :: x :: r)) : next c = x := by
  rw [cons_iff, List.cons_append] at h
  exact (List.cons.inj h).1

/-- The last element of a ring is followed by the first. -/
theorem next_last (h : Circuit next (x :: u)) (hlast : x :: u = r ++ [c]) : next c = x := by
  have hturn : Circuit next (c :: r) := comm (u := r) (hlast ▸ h)
  rw [cons_iff, ← hlast] at hturn
  exact (List.cons.inj hturn).1

theorem next_mem (h : Circuit next xs) (ha : a ∈ xs) : next a ∈ xs := by
  rw [← List.mem_rotate (n := 1), ← h]
  exact List.mem_map_of_mem ha

theorem turn (h : Circuit next (c :: x :: r)) : Circuit next (x :: (r ++ [c])) :=
  comm (u := [c]) (v := x :: r) h

/-- …so on a ring without repetition only the last element is. -/
theorem eq_last (h : Circuit next (c :: u)) (hnd : (c :: u).Nodup) (hu : u ≠ []) (ha : a ∈ c :: u)
    (hac : next a = c) : ∃ r, u = r ++ [a] := by
  obtain rfl | ⟨r, z, rfl⟩ := List.eq_nil_or_concat u
  · exact absurd rfl hu
  rw [List.concat_eq_append] at *
  have hz : next z = c := h.next_last (r := c :: r) rfl
  have hmap : ((c :: (r ++ [z])).map next).Nodup := by
    rw [h]
    exact List.nodup_rotate.mpr hnd
  obtain rfl : a = z := List.inj_on_of_nodup_map hmap ha (by simp) (hac.trans hz.symm)
  exact ⟨r, rfl⟩

/-! ## Going round -/

/-- **Every element is reached from every other** in fewer steps than the ring is long. -/
theorem exists_iterate (h : Circuit next xs) (ha : a ∈ xs) (hb : b ∈ xs) :
    ∃ n < xs.length, next^[n] a = b := by
  have key : ∀ n a r, Circuit next (a :: r) → ∀ hn : n < (a :: r).length,
      next^[n] a = (a :: r)[n] := by
    intro n
    induction n with
    | zero => intro a r _ _; rfl
    | succ n ih =>
      intro a r hc hn
      cases r with
      | nil => simp at hn
      | cons c r =>
        have hn' : n < (c :: (r ++ [a])).length := by simpa using Nat.lt_of_succ_lt hn
        rw [Function.iterate_succ_apply, hc.next_cons, ih c _ hc.turn hn']
        simp only [← List.cons_append, List.getElem_cons_succ]
        exact List.getElem_append_left (by simpa using hn)
  obtain ⟨u, v, rfl⟩ := List.append_of_mem ha
  have hb' : b ∈ a :: (v ++ u) := by
    simp only [List.mem_cons, List.mem_append] at hb ⊢
    tauto
  obtain ⟨n, hn, rfl⟩ := List.getElem_of_mem hb'
  refine ⟨n, ?_, key n a _ h.cut hn⟩
  simp only [List.length_cons, List.length_append] at hn ⊢
  omega

/-- …and nothing else is. -/
theorem iterate_mem (h : Circuit next xs) (ha : a ∈ xs) : ∀ n, next^[n] a ∈ xs
  | 0 => ha
  | n + 1 => by
    rw [Function.iterate_succ_apply']
    exact h.next_mem (iterate_mem h ha n)

theorem mem_iff_iterate (h : Circuit next xs) (ha : a ∈ xs) :
    b ∈ xs ↔ ∃ n, next^[n] a = b := by
  refine ⟨fun hb => ?_, ?_⟩
  · obtain ⟨n, -, hn⟩ := h.exists_iterate ha hb
    exact ⟨n, hn⟩
  · rintro ⟨n, rfl⟩
    exact h.iterate_mem ha n

/-- **A ring in order wraps once**: one element is followed by one that is not above it. -/
theorem existsUnique_wrap {next : ℕ → ℕ} {xs : List ℕ} (h : Circuit next xs)
    (hs : xs.Pairwise (· < ·)) (hne : xs ≠ []) : ∃! a, a ∈ xs ∧ next a ≤ a := by
  obtain ⟨u, z, rfl⟩ := (List.eq_nil_or_concat' xs).resolve_left hne
  have hlast : ∀ y ∈ u, y < z := fun y hy =>
    (List.pairwise_append.mp hs).2.2 y hy z (List.mem_singleton_self z)
  refine ⟨z, ⟨by simp, ?_⟩, ?_⟩
  · have hz := h.next_mem (List.mem_append_right u (List.mem_singleton_self z))
    rcases List.mem_append.mp hz with hz | hz
    · exact (hlast _ hz).le
    · exact (List.mem_singleton.mp hz).le
  · rintro a ⟨ha, hwrap⟩
    rcases List.mem_append.mp ha with hau | haz
    · -- an element before the last is followed by the next in order
      obtain ⟨v, w, rfl⟩ := List.append_of_mem hau
      rw [List.append_assoc, List.cons_append] at h hs
      obtain ⟨y, r, hr⟩ := List.exists_cons_of_ne_nil (show w ++ [z] ≠ [] by simp)
      rw [hr] at h hs
      have hnext : next a = y := h.cut.next_cons
      have hay := (List.pairwise_cons.mp (List.pairwise_append.mp hs).2.1).1 y List.mem_cons_self
      omega
    · exact List.mem_singleton.mp haz

/-! ## Edits -/

/-- **Linking `b` in after `c`.** -/
theorem insert (h : Circuit next (c :: r)) (hnc : next' c = b)
    (hnb : next' b = next c) (hn : ∀ x ∈ r, next' x = next x) : Circuit next' (c :: b :: r) := by
  rw [cons_iff] at h
  rw [cons_iff, List.map_cons, hnc, hnb, List.map_congr_left hn, h, List.cons_append]

/-- **Linking out the successor of `c`.** -/
theorem drop (h : Circuit next (c :: x :: r)) (hnc : next' c = next x)
    (hn : ∀ y ∈ r, next' y = next y) : Circuit next' (c :: r) := by
  rw [cons_iff, List.map_cons, List.cons_append] at h
  rw [cons_iff, hnc, List.map_congr_left hn]
  exact (List.cons.inj h).2

/-- **Putting `b` in the place of the successor of `c`.** -/
theorem replace (h : Circuit next (c :: x :: r)) (hnc : next' c = b) (hnb : next' b = next x)
    (hn : ∀ y ∈ r, next' y = next y) : Circuit next' (c :: b :: r) := by
  rw [cons_iff, List.map_cons, List.cons_append] at h
  rw [cons_iff, List.map_cons, hnc, hnb, List.map_congr_left hn, List.cons_append,
    (List.cons.inj h).2]

end Circuit
