import Mathlib.Tactic
import Mathlib.Data.List.Chain

/-!
# Machinery/Links — circular doubly linked lists

A store of `next` and `prev` fields over any type of addresses.  `Ring l h xs` says that the list
headed by `h` holds the entries `xs`, in `next` order:

    h ⇄ x₁ ⇄ x₂ ⇄ ⋯ ⇄ xₙ ⇄ h

The two edits are `insert`, between an entry and its successor, and `unlink`, of one entry; each is
a local rewrite of `xs` (`Ring.insert`, `Ring.unlink`).  The entries on the two sides of a cut
`u ++ v` are `before h u` and `after h v`, so the head needs no case of its own.
-/

/-- The two link fields of every entry. -/
structure Links (α : Type*) where
  next : α → α
  prev : α → α

namespace Links

variable {α : Type*}

section Edits

variable [DecidableEq α]

/-- `a.next = b`. -/
def setNext (l : Links α) (a b : α) : Links α := { l with next := Function.update l.next a b }

/-- `a.prev = b`. -/
def setPrev (l : Links α) (a b : α) : Links α := { l with prev := Function.update l.prev a b }

/-- Put `x` between `a` and `b`. -/
def insert (l : Links α) (x a b : α) : Links α :=
  (((l.setPrev b x).setNext a x).setNext x b).setPrev x a

/-- Link `a` and `b` to each other, which drops what was between them. -/
def unlink (l : Links α) (a b : α) : Links α := (l.setNext a b).setPrev b a

@[simp] theorem setNext_next (l : Links α) (a b : α) :
    (l.setNext a b).next = Function.update l.next a b := rfl

@[simp] theorem setNext_prev (l : Links α) (a b : α) : (l.setNext a b).prev = l.prev := rfl

@[simp] theorem setPrev_next (l : Links α) (a b : α) : (l.setPrev a b).next = l.next := rfl

@[simp] theorem setPrev_prev (l : Links α) (a b : α) :
    (l.setPrev a b).prev = Function.update l.prev a b := rfl

theorem insert_next (l : Links α) (x a b : α) :
    (l.insert x a b).next = Function.update (Function.update l.next a x) x b := rfl

theorem insert_prev (l : Links α) (x a b : α) :
    (l.insert x a b).prev = Function.update (Function.update l.prev b x) x a := rfl

theorem unlink_next (l : Links α) (a b : α) :
    (l.unlink a b).next = Function.update l.next a b := rfl

theorem unlink_prev (l : Links α) (a b : α) :
    (l.unlink a b).prev = Function.update l.prev b a := rfl

end Edits

/-- The entry before a cut: the last of `u`, or the head. -/
def before (h : α) (u : List α) : α := u.getLastD h

/-- The entry after a cut: the first of `v`, or the head. -/
def after (h : α) (v : List α) : α := v.headD h

/-- `b` follows `a`, read both ways. -/
def Linked (l : Links α) (a b : α) : Prop := l.next a = b ∧ l.prev b = a

/-- **The list headed by `h` holds `xs`**: the entries are distinct and each is linked, both ways,
to the one after it, the last one back to the head. -/
structure Ring (l : Links α) (h : α) (xs : List α) : Prop where
  nodup : (h :: xs).Nodup
  chain : (h :: xs ++ [h]).IsChain l.Linked

/-! ## Cutting a ring open

Every fact about a ring is read at a cut `xs = u ++ v`. -/

@[simp] theorem before_nil (h : α) : before h [] = h := rfl

@[simp] theorem before_concat (h a : α) (u : List α) : before h (u ++ [a]) = a := by
  simp [before]

@[simp] theorem after_nil (h : α) : after h [] = h := rfl

@[simp] theorem after_cons (h b : α) (v : List α) : after h (b :: v) = b := rfl

private theorem cons_eq_append_before (h : α) (u : List α) :
    ∃ u', h :: u = u' ++ [before h u] := by
  rcases List.eq_nil_or_concat u with rfl | ⟨u', a, rfl⟩
  · exact ⟨[], rfl⟩
  · exact ⟨h :: u', by simp⟩

private theorem append_eq_cons_after (h : α) (v : List α) :
    ∃ v', v ++ [h] = after h v :: v' := by
  cases v with
  | nil => exact ⟨[], rfl⟩
  | cons b v => exact ⟨v ++ [h], rfl⟩

theorem before_mem (h : α) (u : List α) : before h u ∈ h :: u := by
  obtain ⟨u', has⟩ := cons_eq_append_before h u
  rw [has]
  simp

theorem after_mem (h : α) (v : List α) : after h v ∈ h :: v := by
  cases v <;> simp

/-- Agreeing with a chain on the `next` fields of all but its last entry and the `prev` fields of
all but its first is being that chain. -/
private theorem chain_congr {l l' : Links α} {xs : List α} (hc : xs.IsChain l.Linked)
    (hn : ∀ a ∈ xs.dropLast, l'.next a = l.next a) (hp : ∀ a ∈ xs.tail, l'.prev a = l.prev a) :
    xs.IsChain l'.Linked := by
  induction xs with
  | nil => exact .nil
  | cons a xs ih =>
    cases xs with
    | nil => exact .singleton a
    | cons b xs =>
      rw [List.isChain_cons_cons] at hc ⊢
      refine ⟨⟨(hn a (by simp)).trans hc.1.1, (hp b (by simp)).trans hc.1.2⟩, ih hc.2 ?_ ?_⟩
      · exact fun c h => hn c (List.mem_cons_of_mem a h)
      · exact fun c h => hp c (List.mem_cons_of_mem b h)

namespace Ring

variable {l l' : Links α} {h x : α} {u v xs : List α}

theorem head_notMem (hr : l.Ring h xs) : h ∉ xs := (List.nodup_cons.mp hr.nodup).1

theorem nodup_entries (hr : l.Ring h xs) : xs.Nodup := (List.nodup_cons.mp hr.nodup).2

/-- The ring cut open: a chain up to the cut, the link across it, and a chain from it on. -/
private theorem cut (hr : l.Ring h (u ++ v)) : ∃ u' v',
    h :: u = u' ++ [before h u] ∧ v ++ [h] = after h v :: v' ∧
      (u' ++ [before h u]).IsChain l.Linked ∧ l.Linked (before h u) (after h v) ∧
      (after h v :: v').IsChain l.Linked := by
  obtain ⟨u', has⟩ := cons_eq_append_before h u
  obtain ⟨v', hbs⟩ := append_eq_cons_after h v
  have hc := hr.chain
  rw [← List.cons_append, List.append_assoc, has, hbs, List.append_assoc, List.singleton_append,
    List.isChain_append_cons_cons] at hc
  exact ⟨u', v', has, hbs, hc⟩

/-- **Across a cut**: the entry before and the entry after point at each other. -/
theorem linked (hr : l.Ring h (u ++ v)) : l.Linked (before h u) (after h v) := by
  obtain ⟨u', v', -, -, -, hl, -⟩ := hr.cut
  exact hl

theorem next_eq (hr : l.Ring h (u ++ v)) : l.next (before h u) = after h v := hr.linked.1

theorem prev_eq (hr : l.Ring h (u ++ v)) : l.prev (after h v) = before h u := hr.linked.2

theorem next_head (hr : l.Ring h xs) : l.next h = after h xs := next_eq (u := []) hr

theorem prev_head (hr : l.Ring h xs) : l.prev h = before h xs :=
  prev_eq (v := []) (by rwa [List.append_nil])

theorem next_entry (hr : l.Ring h (u ++ x :: v)) : l.next x = after h v := by
  simpa using next_eq (u := u ++ [x]) (v := v) (by simpa using hr)

theorem prev_entry (hr : l.Ring h (u ++ x :: v)) : l.prev x = before h u :=
  prev_eq (v := x :: v) hr

/-- Walking off the end is arriving at the head. -/
theorem after_eq_head_iff (hr : l.Ring h (u ++ v)) : after h v = h ↔ v = [] := by
  cases v with
  | nil => simp
  | cons b v =>
    refine ⟨fun hb => absurd ?_ hr.head_notMem, fun hb => absurd hb (by simp)⟩
    rw [after_cons] at hb
    simp [hb]

/-- The list is empty where the head is its own successor. -/
theorem next_head_eq_iff (hr : l.Ring h xs) : l.next h = h ↔ xs = [] := by
  rw [hr.next_head]
  exact after_eq_head_iff (u := []) hr

/-- **A head has one ring**: the entries are the ones met on the way round. -/
theorem unique {ys : List α} (hr : l.Ring h xs) (hr' : l.Ring h ys) : xs = ys := by
  have key : ∀ v u cs, l.Ring h (u ++ v) → l.Ring h (u ++ cs) → v = cs := by
    intro v
    induction v with
    | nil =>
      intro u cs hb hc
      exact (hc.after_eq_head_iff.mp (hc.next_eq.symm.trans hb.next_eq)).symm
    | cons b v ih =>
      intro u cs hb hc
      have hbc : b = after h cs := hb.next_eq.symm.trans hc.next_eq
      cases cs with
      | nil => exact absurd (by simp [hbc]) hb.head_notMem
      | cons c cs =>
        obtain rfl : b = c := hbc
        rw [ih (u ++ [b]) cs (by simpa using hb) (by simpa using hc)]
  exact key xs [] ys hr hr'

/-! ## Mutually inverse links -/

theorem prev_next (hr : l.Ring h xs) {a : α} (ha : a ∈ h :: xs) : l.prev (l.next a) = a := by
  rcases List.mem_cons.mp ha with rfl | ha
  · have hl := linked (u := []) hr
    exact (congrArg l.prev hl.1).trans hl.2
  · obtain ⟨u, v, rfl⟩ := List.append_of_mem ha
    have hl := linked (u := u ++ [a]) (v := v) (by simpa using hr)
    rw [before_concat] at hl
    exact (congrArg l.prev hl.1).trans hl.2

theorem next_prev (hr : l.Ring h xs) {a : α} (ha : a ∈ h :: xs) : l.next (l.prev a) = a := by
  rcases List.mem_cons.mp ha with rfl | ha
  · have hl := linked (u := xs) (v := []) (by simpa using hr)
    exact (congrArg l.next hl.2).trans hl.1
  · obtain ⟨u, v, rfl⟩ := List.append_of_mem ha
    have hl := hr.linked
    exact (congrArg l.next hl.2).trans hl.1

/-- **Following `next` from the head comes back to it**, once round the entries. -/
theorem iterate_next (hr : l.Ring h xs) : l.next^[xs.length + 1] h = h := by
  have key : ∀ v u, l.Ring h (u ++ v) → l.next^[v.length + 1] (before h u) = h := by
    intro v
    induction v with
    | nil => intro u hr'; simpa using hr'.next_eq
    | cons b v ih =>
      intro u hr'
      rw [List.length_cons, Function.iterate_succ_apply, hr'.next_eq, after_cons]
      simpa using ih (u ++ [b]) (by simpa using hr')
  simpa using key xs [] hr

/-! ## Framing -/

/-- A ring reads the links of its own entries only. -/
theorem congr (hr : l.Ring h xs) (hn : ∀ a ∈ h :: xs, l'.next a = l.next a)
    (hp : ∀ a ∈ h :: xs, l'.prev a = l.prev a) : l'.Ring h xs := by
  refine ⟨hr.nodup, chain_congr hr.chain (fun a ha => hn a ?_) (fun a ha => hp a ?_)⟩
  · simpa only [List.dropLast_concat] using ha
  · simp only [List.cons_append, List.tail_cons, List.mem_append, List.mem_singleton] at ha
    exact List.mem_cons.mpr ha.symm

/-- The empty list. -/
theorem nil_iff : l.Ring h [] ↔ l.next h = h ∧ l.prev h = h := by
  refine ⟨fun hr => ⟨hr.next_head, hr.prev_head⟩, fun hl => ?_⟩
  exact ⟨by simp, List.isChain_pair.mpr hl⟩

/-! ## The two edits -/

/-- Replacing the piece `o` between two cuts by a piece `n` of fresh entries: the links inside
`n` and to its two neighbours are the new chain, and no other link moves. -/
private theorem edit {o n : List α} (hr : l.Ring h (u ++ (o ++ v)))
    (hnew : ∀ y ∈ n, y ∉ h :: (u ++ v)) (hnd : n.Nodup)
    (hc : (before h u :: (n ++ [after h v])).IsChain l'.Linked)
    (hn : ∀ y ∈ h :: (u ++ v), y ≠ before h u → l'.next y = l.next y)
    (hp : ∀ y ∈ h :: (u ++ v), y ≠ after h v → l'.prev y = l.prev y) :
    l'.Ring h (u ++ (n ++ v)) := by
  obtain ⟨u', -, has, -, hca, -, -⟩ := hr.cut
  obtain ⟨-, v', -, hbs, -, -, hcb⟩ := cut (u := u ++ o) (v := v) (by simpa using hr)
  have hkeep : (h :: (u ++ v)).Nodup := hr.nodup.sublist (by simp)
  refine ⟨?_, ?_⟩
  · have hperm : (h :: (u ++ (n ++ v))).Perm (n ++ (h :: (u ++ v))) := by
      have hswap := (show (h :: u ++ n).Perm (n ++ h :: u) from List.perm_append_comm).append_right v
      simpa using hswap
    rw [hperm.nodup_iff, List.nodup_append]
    exact ⟨hnd, hkeep, fun a ha b hb hab => hnew a ha (hab ▸ hb)⟩
  · have hdisj := List.nodup_append.mp (show ((h :: u) ++ v).Nodup from hkeep)
    have hleft : (u' ++ [before h u]).IsChain l'.Linked := by
      have hnda := has ▸ hdisj.1
      refine chain_congr hca (fun y hy => ?_) (fun y hy => ?_)
      · rw [List.dropLast_concat] at hy
        have hya : y ∈ h :: u := has ▸ List.mem_append_left _ hy
        refine hn y (List.mem_append_left v hya) fun he => ?_
        exact (List.nodup_append.mp hnda).2.2 y hy _ (by simp) he
      · rw [← has, List.tail_cons] at hy
        refine hp y (by simp [hy]) fun he => ?_
        rcases List.mem_cons.mp (he ▸ after_mem h v) with hyh | hyb
        · exact (List.nodup_cons.mp hdisj.1).1 (hyh ▸ hy)
        · exact hdisj.2.2 y (by simp [hy]) y hyb rfl
    have hright : (after h v :: v').IsChain l'.Linked := by
      have hndb : (after h v :: v').Nodup := by
        rw [← hbs, ← List.nodup_append_comm]
        exact hkeep.sublist (by simp)
      refine chain_congr hcb (fun y hy => ?_) (fun y hy => ?_)
      · rw [← hbs, List.dropLast_concat] at hy
        refine hn y (by simp [hy]) fun he => ?_
        exact hdisj.2.2 _ (before_mem h u) y hy he.symm
      · have hyb : y ∈ v ++ [h] := hbs ▸ List.mem_of_mem_tail hy
        refine hp y (by simp at hyb ⊢; tauto) fun he => ?_
        exact (List.nodup_cons.mp hndb).1 (he ▸ hy)
    have hall : h :: (u ++ (n ++ v)) ++ [h] =
        u' ++ ([before h u] ++ (n ++ after h v :: v')) := by
      rw [← hbs, ← List.append_assoc u', ← has]
      simp
    have hmid : ([before h u] ++ n ++ [after h v] ++ v').IsChain l'.Linked :=
      List.IsChain.append_overlap (by simpa using hc) (by simpa using hright) (by simp)
    have hend : ([before h u] ++ (n ++ after h v :: v')).IsChain l'.Linked := by simpa using hmid
    rw [hall]
    simpa using List.IsChain.append_overlap hleft hend (by simp)

variable [DecidableEq α]

/-- **Inserting at a cut.** -/
theorem insert (hr : l.Ring h (u ++ v)) (hx : x ∉ h :: (u ++ v)) :
    (l.insert x (before h u) (after h v)).Ring h (u ++ x :: v) := by
  have hxa : before h u ≠ x := fun he =>
    hx (List.mem_append_left v (he ▸ before_mem h u))
  have hxb : after h v ≠ x := fun he => hx (by
    have := he ▸ after_mem h v
    simp only [List.mem_cons, List.mem_append] at this ⊢
    tauto)
  refine edit (o := []) (n := [x]) hr (by simpa using hx) (by simp) ?_ (fun y hy hne => ?_)
    (fun y hy hne => ?_)
  · simp [Linked, insert_next, insert_prev, hxa, hxb]
  · have hyx : y ≠ x := fun he => hx (he ▸ hy)
    simp [insert_next, hne, hyx]
  · have hyx : y ≠ x := fun he => hx (he ▸ hy)
    simp [insert_prev, hne, hyx]

/-- **Dropping an entry.** -/
theorem unlink (hr : l.Ring h (u ++ x :: v)) :
    (l.unlink (l.prev x) (l.next x)).Ring h (u ++ v) := by
  rw [hr.prev_entry, hr.next_entry]
  refine edit (o := [x]) (n := []) hr (by simp) (by simp) ?_ (fun y hy hne => ?_)
    (fun y hy hne => ?_)
  · simp [Linked, unlink_next, unlink_prev]
  · simp [unlink_next, hne]
  · simp [unlink_prev, hne]

/-- Inserting into one ring leaves the rings of other entries alone. -/
theorem insert_other (hr : l.Ring h xs) {x a b : α} (hx : x ∉ h :: xs) (ha : a ∉ h :: xs)
    (hb : b ∉ h :: xs) : (l.insert x a b).Ring h xs := by
  refine hr.congr (fun y hy => ?_) (fun y hy => ?_)
  · have hyx : y ≠ x := fun he => hx (he ▸ hy)
    have hya : y ≠ a := fun he => ha (he ▸ hy)
    simp [insert_next, hyx, hya]
  · have hyx : y ≠ x := fun he => hx (he ▸ hy)
    have hyb : y ≠ b := fun he => hb (he ▸ hy)
    simp [insert_prev, hyx, hyb]

/-- …and so does dropping an entry of one. -/
theorem unlink_other (hr : l.Ring h xs) {a b : α} (ha : a ∉ h :: xs) (hb : b ∉ h :: xs) :
    (l.unlink a b).Ring h xs := by
  refine hr.congr (fun y hy => ?_) (fun y hy => ?_)
  · have hya : y ≠ a := fun he => ha (he ▸ hy)
    simp [unlink_next, hya]
  · have hyb : y ≠ b := fun he => hb (he ▸ hy)
    simp [unlink_prev, hyb]

end Ring

/-! ## Families of lists -/

section Rings

variable {ι : Type*} {l : Links α} {I : Set ι} {h : ι → α} {xs : ι → List α} {i : ι} {x : α}
  {u v : List α}

/-- **Lists that share no entry**: for each `i` in `I`, the list headed by `h i` holds `xs i`. -/
structure Rings (l : Links α) (I : Set ι) (h : ι → α) (xs : ι → List α) : Prop where
  ring : ∀ i ∈ I, l.Ring (h i) (xs i)
  apart : ∀ i ∈ I, ∀ j ∈ I, i ≠ j → (h i :: xs i).Disjoint (h j :: xs j)

namespace Rings

/-- An edit inside one list, of entries no other list holds, keeps the family. -/
private theorem edit {l' : Links α} [DecidableEq ι] (hr : l.Rings I h xs) (hi : i ∈ I) {ys : List α}
    (hring : l'.Ring (h i) ys) (hother : ∀ j ∈ I, j ≠ i → l'.Ring (h j) (xs j))
    (hys : ∀ y ∈ ys, y ∈ xs i ∨ ∀ j ∈ I, y ∉ h j :: xs j) :
    l'.Rings I h (Function.update xs i ys) := by
  have hapart : ∀ j ∈ I, j ≠ i → (h i :: ys).Disjoint (h j :: xs j) := by
    intro j hj hji a ha haj
    rcases List.mem_cons.mp ha with rfl | ha
    · exact hr.apart i hi j hj hji.symm (by simp) haj
    · rcases hys a ha with hold | hnew
      · exact hr.apart i hi j hj hji.symm (List.mem_cons_of_mem _ hold) haj
      · exact hnew j hj haj
  refine ⟨fun j hj => ?_, fun j hj k hk hjk => ?_⟩
  · rcases eq_or_ne j i with rfl | hji
    · rwa [Function.update_self]
    · rw [Function.update_of_ne hji]
      exact hother j hj hji
  · rcases eq_or_ne j i with rfl | hji
    · rw [Function.update_self, Function.update_of_ne hjk.symm]
      exact hapart k hk hjk.symm
    · rw [Function.update_of_ne hji]
      rcases eq_or_ne k i with rfl | hki
      · rw [Function.update_self]
        exact (hapart j hj hji).symm
      · rw [Function.update_of_ne hki]
        exact hr.apart j hj k hk hjk

variable [DecidableEq α] [DecidableEq ι]

/-- Inserting a fresh entry into one of the lists. -/
theorem insert (hr : l.Rings I h xs) (hi : i ∈ I) (hcut : xs i = u ++ v)
    (hx : ∀ j ∈ I, x ∉ h j :: xs j) :
    (l.insert x (before (h i) u) (after (h i) v)).Rings I h
      (Function.update xs i (u ++ x :: v)) := by
  have hring := hr.ring i hi
  rw [hcut] at hring
  refine hr.edit hi (hring.insert (hcut ▸ hx i hi)) (fun j hj hji => ?_) (fun y hy => ?_)
  · have hap := hr.apart i hi j hj hji.symm
    rw [hcut] at hap
    refine (hr.ring j hj).insert_other (hx j hj) (hap ?_) (hap ?_)
    · have := before_mem (h i) u
      simp at this ⊢; tauto
    · have := after_mem (h i) v
      simp at this ⊢; tauto
  · rcases List.mem_append.mp hy with hy | hy
    · exact .inl (hcut ▸ List.mem_append_left _ hy)
    · rcases List.mem_cons.mp hy with rfl | hy
      · exact .inr hx
      · exact .inl (hcut ▸ List.mem_append_right _ hy)

/-- Dropping an entry of one of the lists. -/
theorem unlink (hr : l.Rings I h xs) (hi : i ∈ I) (hcut : xs i = u ++ x :: v) :
    (l.unlink (l.prev x) (l.next x)).Rings I h (Function.update xs i (u ++ v)) := by
  have hring := hr.ring i hi
  rw [hcut] at hring
  refine hr.edit hi hring.unlink (fun j hj hji => ?_) (fun y hy => .inl ?_)
  · have hap := hr.apart i hi j hj hji.symm
    rw [hcut] at hap
    rw [hring.prev_entry, hring.next_entry]
    refine (hr.ring j hj).unlink_other (hap ?_) (hap ?_)
    · have := before_mem (h i) u
      simp at this ⊢; tauto
    · have := after_mem (h i) v
      simp at this ⊢; tauto
  · rw [hcut]
    simp at hy ⊢; tauto

end Rings

end Rings

/-! ## Lists read forwards

A list that is only walked by `next` and unlinked at its first entry needs no more than its `next`
fields and the `prev` field of that entry; the other `prev` fields may hold anything. -/

section Front

variable {l l' : Links α} {h x : α} {u v xs : List α}

/-- **The list headed by `h` holds `xs`**, as far as a reader of its front can tell. -/
structure Front (l : Links α) (h : α) (xs : List α) : Prop where
  nodup : (h :: xs).Nodup
  next : ∀ u v, xs = u ++ v → l.next (before h u) = after h v
  prev : l.prev (after h xs) = h

namespace Front

theorem next_head (hf : l.Front h xs) : l.next h = after h xs := hf.next [] xs rfl

/-- The empty list. -/
theorem nil_iff : l.Front h [] ↔ l.next h = h ∧ l.prev h = h := by
  refine ⟨fun hf => ⟨hf.next_head, hf.prev⟩, fun hl => ⟨by simp, fun u v huv => ?_, hl.2⟩⟩
  obtain ⟨rfl, rfl⟩ := List.append_eq_nil_iff.mp huv.symm
  exact hl.1

/-- A front reads the `next` fields of its entries, and one `prev` field. -/
theorem congr (hf : l.Front h xs) (hn : ∀ a ∈ h :: xs, l'.next a = l.next a)
    (hp : ∀ a ∈ h :: xs, l'.prev a = l.prev a) : l'.Front h xs := by
  refine ⟨hf.nodup, fun u v huv => ?_, ?_⟩
  · rw [hn _ ?_, hf.next u v huv]
    have := before_mem h u
    rw [huv]
    simp only [List.mem_cons, List.mem_append] at this ⊢
    tauto
  · rw [hp _ (after_mem h xs), hf.prev]

variable [DecidableEq α]

/-- **A new last entry**, whatever its own `prev` field is made. -/
theorem concat (hf : l.Front h xs) (hx : x ∉ h :: xs)
    (hn : l'.next = Function.update (Function.update l.next (before h xs) x) x h)
    (hp : l'.prev (after h (xs ++ [x])) = h) : l'.Front h (xs ++ [x]) := by
  have hlast : before h xs ≠ x := fun he => hx (he ▸ before_mem h xs)
  refine ⟨?_, fun u v huv => ?_, hp⟩
  · rw [← List.cons_append, ← List.concat_eq_append]
    exact hf.nodup.concat hx
  · rcases List.eq_nil_or_concat' v with rfl | ⟨v, y, rfl⟩
    · obtain rfl : xs ++ [x] = u := by simpa using huv
      simp [hn]
    · rw [← List.append_assoc] at huv
      obtain ⟨rfl, hyx⟩ := List.append_inj' huv rfl
      obtain rfl := List.singleton_inj.mp hyx
      have hux : before h u ≠ x := fun he => hx (by
        have := he ▸ before_mem h u
        simp only [List.mem_cons, List.mem_append] at this ⊢
        tauto)
      cases v with
      | nil =>
        rw [List.append_nil] at hlast
        simp [hn, hlast]
      | cons z v =>
        -- not the last entry, and so not the one the store was at
        have hne : before h u ≠ before h (u ++ z :: v) := by
          intro he
          obtain ⟨w, y, hw⟩ := (List.eq_nil_or_concat' (z :: v)).resolve_left (by simp)
          have hnd : ((h :: u) ++ (w ++ [y])).Nodup := by simpa [hw] using hf.nodup
          rw [hw, ← List.append_assoc, before_concat] at he
          exact (List.nodup_append.mp hnd).2.2 _ (before_mem h u) y (by simp) he
        rw [hn, Function.update_of_ne hux, Function.update_of_ne hne, hf.next u (z :: v) rfl]
        rfl

/-- **Dropping the first entry.** -/
theorem tail (hf : l.Front h (x :: xs)) : (l.unlink (l.prev x) (l.next x)).Front h xs := by
  have hprev : l.prev x = h := hf.prev
  have hnext : l.next x = after h xs := hf.next [x] xs rfl
  rw [hprev, hnext]
  refine ⟨hf.nodup.sublist (by simp), fun u v huv => ?_, by simp [unlink_prev]⟩
  rcases List.eq_nil_or_concat' u with rfl | ⟨u, y, rfl⟩
  · simp [unlink_next, huv]
  · have hy : y ≠ h := fun he => (List.nodup_cons.mp hf.nodup).1 (by simp [huv, he])
    have := hf.next (x :: (u ++ [y])) v (by rw [huv, List.cons_append])
    rw [← List.cons_append, before_concat] at this
    rw [before_concat, unlink_next, Function.update_of_ne hy, this]

end Front

end Front

end Links
