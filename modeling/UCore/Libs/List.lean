import UCore.Machinery.Links

/-!
# Libs/List — `libs/list.h`

The kernel's list functions, field write by field write, over any type of entries.  A function that
writes keeps the order of its stores: `listAdd x x` is a call the first-fit manager really makes.
-/

namespace UCore

variable {α : Type} [DecidableEq α]

/-- `list_init`: the entry is a list of its own. -/
def listInit (l : Links α) (elm : α) : Links α := (l.setNext elm elm).setPrev elm elm

/-- `__list_add`: store `elm` in its neighbours, then its neighbours in `elm`. -/
def _listAdd (l : Links α) (elm prev next : α) : Links α :=
  (((l.setPrev next elm).setNext prev elm).setNext elm next).setPrev elm prev

/-- `__list_del`. -/
def _listDel (l : Links α) (prev next : α) : Links α := (l.setNext prev next).setPrev next prev

/-- `list_add_before`. -/
def listAddBefore (l : Links α) (listelm elm : α) : Links α :=
  _listAdd l elm (l.prev listelm) listelm

/-- `list_add_after`. -/
def listAddAfter (l : Links α) (listelm elm : α) : Links α :=
  _listAdd l elm listelm (l.next listelm)

/-- `list_add`. -/
def listAdd (l : Links α) (listelm elm : α) : Links α := listAddAfter l listelm elm

/-- `list_del`: the entry's own links keep their old values. -/
def listDel (l : Links α) (listelm : α) : Links α :=
  _listDel l (l.prev listelm) (l.next listelm)

/-- `list_del_init`. -/
def listDelInit (l : Links α) (listelm : α) : Links α := listInit (listDel l listelm) listelm

/-- `list_empty`. -/
def listEmpty (l : Links α) (list : α) : Bool := l.next list = list

/-- `list_next`. -/
def listNext (l : Links α) (listelm : α) : α := l.next listelm

/-- `list_prev`. -/
def listPrev (l : Links α) (listelm : α) : α := l.prev listelm

/-! ## The functions on a well-formed list -/

variable {l : Links α} {h x : α} {u v xs : List α}

theorem ring_listInit (l : Links α) (h : α) : (listInit l h).Ring h [] :=
  Links.Ring.nil_iff.mpr (by simp [listInit])

theorem ring_listAddBefore (hr : l.Ring h (u ++ v)) (hx : x ∉ h :: (u ++ v)) :
    (listAddBefore l (Links.after h v) x).Ring h (u ++ x :: v) := by
  rw [listAddBefore, hr.prev_eq]
  exact hr.insert hx

theorem ring_listAdd (hr : l.Ring h (u ++ v)) (hx : x ∉ h :: (u ++ v)) :
    (listAdd l (Links.before h u) x).Ring h (u ++ x :: v) := by
  rw [listAdd, listAddAfter, hr.next_eq]
  exact hr.insert hx

theorem ring_listDel (hr : l.Ring h (u ++ x :: v)) : (listDel l x).Ring h (u ++ v) :=
  hr.unlink

theorem ring_listInit_other (hr : l.Ring h xs) (hx : x ∉ h :: xs) : (listInit l x).Ring h xs := by
  refine hr.congr (fun y hy => ?_) fun y hy => ?_ <;>
    simp [listInit, ne_of_mem_of_not_mem hy hx]

/-- Initialising an entry keeps the empty lists, and makes one. -/
theorem ring_nil_listInit (hr : l.Ring h [] ∨ h = x) : (listInit l x).Ring h [] := by
  rcases eq_or_ne h x with rfl | hne
  · exact ring_listInit l h
  · exact ring_listInit_other (hr.resolve_right hne) (by simpa using hne.symm)

/-- `list_del_init` leaves the entry a list of its own. -/
theorem ring_listDelInit (hr : l.Ring h (u ++ x :: v)) :
    (listDelInit l x).Ring h (u ++ v) ∧ (listDelInit l x).next x = x := by
  have hx := List.nodup_middle.mp (show (h :: u ++ x :: v).Nodup from hr.nodup)
  exact ⟨ring_listInit_other (ring_listDel hr) hx.notMem, by simp [listDelInit, listInit]⟩

/-- Entries of no list keep their links. -/
theorem next_listDelInit {y : α} (hr : l.Ring h (u ++ x :: v)) (hy : y ∉ h :: (u ++ x :: v)) :
    (listDelInit l x).next y = l.next y := by
  have hyx : y ≠ x := fun heq => hy (by simp [heq])
  have hya : y ≠ Links.before h u := fun heq => hy (by
    have := Links.before_mem h u
    simp only [List.mem_cons, List.mem_append] at this ⊢
    rw [heq]
    tauto)
  simp [listDelInit, listInit, listDel, _listDel, hr.prev_entry, hyx, hya]

theorem next_listAddBefore {y : α} (hr : l.Ring h xs) (hyx : y ≠ x) (hy : y ∉ h :: xs) :
    (listAddBefore l h x).next y = l.next y := by
  have hya : y ≠ Links.before h xs := fun heq => hy (heq ▸ Links.before_mem h xs)
  simp [listAddBefore, _listAdd, hr.prev_head, hyx, hya]

theorem listEmpty_iff (hr : l.Ring h xs) : listEmpty l h = true ↔ xs = [] := by
  rw [listEmpty, decide_eq_true_iff, hr.next_head_eq_iff]

/-! ## …and on families of lists -/

section Rings

variable {ι : Type*} [DecidableEq ι] {I : Set ι} {hs : ι → α} {xss : ι → List α} {i : ι}

omit [DecidableEq ι] in
/-- Initialising heads one after the other leaves each an empty list. -/
theorem rings_listInit {h : ι → α} (hinj : Function.Injective h) (os : List ι) (l : Links α) :
    (os.foldl (fun l o => listInit l (h o)) l).Rings {o | o ∈ os} h fun _ => [] := by
  have hring : ∀ l : Links α, ∀ o, o ∈ os ∨ l.Ring (h o) [] →
      (os.foldl (fun l o => listInit l (h o)) l).Ring (h o) [] := by
    induction os with
    | nil => exact fun l o ho => by simpa using ho
    | cons a os ih =>
      intro l o ho
      refine ih _ o ?_
      rcases eq_or_ne o a with rfl | hoa
      · exact .inr (ring_listInit l (h o))
      · refine ho.imp (fun hmem => by simpa [hoa] using hmem) fun hr => ?_
        rw [Links.Ring.nil_iff] at hr ⊢
        simpa [listInit, hinj.eq_iff, hoa] using hr
  refine ⟨fun o ho => hring l o (.inl ho), fun o _ o' _ hne => ?_⟩
  simpa using fun heq => hne (hinj heq).symm

theorem rings_listAdd (hr : l.Rings I hs xss) (hi : i ∈ I) (hx : ∀ j ∈ I, x ∉ hs j :: xss j) :
    (listAdd l (hs i) x).Rings I hs (Function.update xss i (x :: xss i)) := by
  have hins := hr.insert (u := []) (v := xss i) hi rfl hx
  rwa [Links.before_nil, ← (hr.ring i hi).next_head] at hins

theorem rings_listAddBefore (hr : l.Rings I hs xss) (hi : i ∈ I)
    (hx : ∀ j ∈ I, x ∉ hs j :: xss j) :
    (listAddBefore l (hs i) x).Rings I hs (Function.update xss i (xss i ++ [x])) := by
  have hins := hr.insert (u := xss i) (v := []) hi (by simp) hx
  rwa [Links.after_nil, ← (hr.ring i hi).prev_head] at hins

theorem rings_listDel (hr : l.Rings I hs xss) (hi : i ∈ I) (hcut : xss i = u ++ x :: v) :
    (listDel l x).Rings I hs (Function.update xss i (u ++ v)) :=
  hr.unlink hi hcut

end Rings

/-! ## …and on a list read forwards -/

/-- **Adding a last entry** after the one that was last. -/
theorem front_listAdd (hf : l.Front h xs) (hx : x ∉ h :: xs) :
    (listAdd l (Links.before h xs) x).Front h (xs ++ [x]) := by
  have hnext : l.next (Links.before h xs) = h := hf.next xs [] (by simp)
  have hxh : h ≠ x := fun he => hx (by simp [he])
  refine hf.concat hx ?_ ?_
  · simp [listAdd, listAddAfter, _listAdd, hnext]
  · cases xs with
    | nil => simp [listAdd, listAddAfter, _listAdd]
    | cons y ys =>
      have hyx : y ≠ x := fun he => hx (by simp [he])
      have hyh : y ≠ h := fun he => (List.nodup_cons.mp hf.nodup).1 (by simp [he])
      have hprev : l.prev y = h := hf.prev
      simp [listAdd, listAddAfter, _listAdd, hnext, hyx, hyh, hprev]

/-- **Adding the last entry once more**, after itself: only `prev` fields that no one reads
change. -/
theorem front_listAdd_self (hf : l.Front h (xs ++ [x])) (hxs : xs ≠ []) :
    (listAdd l x x).Front h (xs ++ [x]) := by
  have hnext : l.next x = h := by simpa using hf.next (xs ++ [x]) [] (by simp)
  refine ⟨hf.nodup, fun u v huv => ?_, ?_⟩
  · rw [← hf.next u v huv]
    rcases eq_or_ne (Links.before h u) x with he | he
    · simp [listAdd, listAddAfter, _listAdd, hnext, he]
    · simp [listAdd, listAddAfter, _listAdd, he]
  · obtain ⟨y, ys, rfl⟩ := List.exists_cons_of_ne_nil hxs
    have hnd := List.nodup_cons.mp hf.nodup
    have hyh : y ≠ h := fun he => hnd.1 (by simp [he])
    have hyx : y ≠ x := fun he => by
      have := (List.nodup_cons.mp hnd.2).1
      simp [he] at this
    have hprev : l.prev y = h := hf.prev
    simp [listAdd, listAddAfter, _listAdd, hnext, hyx, hyh, hprev]

theorem front_listDel (hf : l.Front h (x :: xs)) : (listDel l x).Front h xs := hf.tail

/-- `list_add` leaves the entries alone that are not at the insertion. -/
theorem listAdd_other {y a : α} (hyx : y ≠ x) (hya : y ≠ a) (hyn : y ≠ l.next a) :
    (listAdd l a x).next y = l.next y ∧ (listAdd l a x).prev y = l.prev y := by
  simp [listAdd, listAddAfter, _listAdd, hyx, hya, hyn]

/-- …nor does `list_add_before`… -/
theorem listAddBefore_other {y a : α} (hyx : y ≠ x) (hya : y ≠ a) (hyp : y ≠ l.prev a) :
    (listAddBefore l a x).next y = l.next y ∧ (listAddBefore l a x).prev y = l.prev y := by
  simp [listAddBefore, _listAdd, hyx, hya, hyp]

/-- …and `list_del` touches the neighbours alone. -/
theorem listDel_other {y : α} (hyn : y ≠ l.next x) (hyp : y ≠ l.prev x) :
    (listDel l x).next y = l.next y ∧ (listDel l x).prev y = l.prev y := by
  simp [listDel, _listDel, hyn, hyp]

end UCore
