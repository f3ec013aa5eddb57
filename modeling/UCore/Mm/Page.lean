import UCore.Machinery.Act
import UCore.Libs.List
import UCore.Libs.Defs

/-!
# Mm/Page — page descriptors and the lists that run through them

`struct Page` as the page managers use it.  A page is its index in the `pages` array, so pointer
arithmetic on `struct Page *` is arithmetic on indices, and `le2page` is the `pageLink` pattern.
-/

namespace UCore

/-- The two bits the managers use of `Page.flags`; the source clears them with `flags = 0`. -/
structure PageFlags where
  reserved : Bool
  property : Bool
  deriving DecidableEq, Repr

/-- `struct Page`, without the page-replacement fields. -/
structure Page where
  ref : ℤ
  flags : PageFlags
  property : ℕ
  deriving DecidableEq, Repr

/-- A `list_entry_t`: the head of one of the manager's lists, or the `page_link` of a page. -/
inductive ListEntry (ι : Type) where
  | head (i : ι)
  | pageLink (p : ℕ)
  deriving DecidableEq, Repr

/-- The page array and the lists threaded through it; `ι` names the list heads. -/
structure PageLists (ι : Type) where
  page : ℕ → Page
  links : Links (ListEntry ι)

namespace PageLists

variable {ι : Type}

/-- Change the descriptor of one page. -/
def modifyPage (s : PageLists ι) (p : ℕ) (f : Page → Page) : PageLists ι :=
  { s with page := Function.update s.page p (f (s.page p)) }

/-- `p->flags = 0`. -/
def clearFlags (s : PageLists ι) (p : ℕ) : PageLists ι :=
  s.modifyPage p fun g => { g with flags := ⟨false, false⟩ }

/-- `p->property = v`, an `unsigned int`. -/
def setProperty (s : PageLists ι) (p v : ℕ) : PageLists ι :=
  s.modifyPage p fun g => { g with property := u32 v }

/-- `set_page_ref`. -/
def setPageRef (s : PageLists ι) (p : ℕ) (v : ℤ) : PageLists ι :=
  s.modifyPage p fun g => { g with ref := v }

/-- `SetPageProperty` and `ClearPageProperty`. -/
def setPageProperty (s : PageLists ι) (p : ℕ) (b : Bool) : PageLists ι :=
  s.modifyPage p fun g => { g with flags := { g.flags with property := b } }

/-- `SetPageReserved` and `ClearPageReserved`. -/
def setPageReserved (s : PageLists ι) (p : ℕ) (b : Bool) : PageLists ι :=
  s.modifyPage p fun g => { g with flags := { g.flags with reserved := b } }

/-- `PageReserved`. -/
def pageReserved (s : PageLists ι) (p : ℕ) : Bool := (s.page p).flags.reserved

/-- `PageProperty`. -/
def pageProperty (s : PageLists ι) (p : ℕ) : Bool := (s.page p).flags.property

/-- `p->property`. -/
def property (s : PageLists ι) (p : ℕ) : ℕ := (s.page p).property

/-- A store to the links. -/
def mapLinks (s : PageLists ι) (f : Links (ListEntry ι) → Links (ListEntry ι)) : PageLists ι :=
  { s with links := f s.links }

section Reads

variable (s : PageLists ι) (p q v : ℕ) (b : Bool) (r : ℤ) (f : Page → Page)
  (g : Links (ListEntry ι) → Links (ListEntry ι))

@[simp] theorem links_modifyPage : (s.modifyPage p f).links = s.links := rfl

@[simp] theorem links_clearFlags : (s.clearFlags p).links = s.links := rfl

@[simp] theorem links_setProperty : (s.setProperty p v).links = s.links := rfl

@[simp] theorem links_setPageRef : (s.setPageRef p r).links = s.links := rfl

@[simp] theorem links_setPageProperty : (s.setPageProperty p b).links = s.links := rfl

@[simp] theorem links_setPageReserved : (s.setPageReserved p b).links = s.links := rfl

@[simp] theorem links_mapLinks : (s.mapLinks g).links = g s.links := rfl

@[simp] theorem page_mapLinks : (s.mapLinks g).page = s.page := rfl

@[simp] theorem property_mapLinks : (s.mapLinks g).property q = s.property q := rfl

@[simp] theorem property_clearFlags : (s.clearFlags p).property q = s.property q := by
  simp only [property, clearFlags, modifyPage, Function.update_apply]
  split <;> simp_all

@[simp] theorem property_setPageRef : (s.setPageRef p r).property q = s.property q := by
  simp only [property, setPageRef, modifyPage, Function.update_apply]
  split <;> simp_all

@[simp] theorem property_setPageProperty :
    (s.setPageProperty p b).property q = s.property q := by
  simp only [property, setPageProperty, modifyPage, Function.update_apply]
  split <;> simp_all

@[simp] theorem property_setPageReserved :
    (s.setPageReserved p b).property q = s.property q := by
  simp only [property, setPageReserved, modifyPage, Function.update_apply]
  split <;> simp_all

theorem property_setProperty :
    (s.setProperty p v).property q = if q = p then u32 v else s.property q := by
  simp only [property, setProperty, modifyPage, Function.update_apply]
  split <;> simp_all

@[simp] theorem pageProperty_mapLinks : (s.mapLinks g).pageProperty q = s.pageProperty q := rfl

@[simp] theorem pageProperty_setProperty :
    (s.setProperty p v).pageProperty q = s.pageProperty q := by
  simp only [pageProperty, setProperty, modifyPage, Function.update_apply]
  split <;> simp_all

@[simp] theorem pageProperty_setPageRef :
    (s.setPageRef p r).pageProperty q = s.pageProperty q := by
  simp only [pageProperty, setPageRef, modifyPage, Function.update_apply]
  split <;> simp_all

@[simp] theorem pageProperty_setPageReserved :
    (s.setPageReserved p b).pageProperty q = s.pageProperty q := by
  simp only [pageProperty, setPageReserved, modifyPage, Function.update_apply]
  split <;> simp_all

theorem pageProperty_clearFlags :
    (s.clearFlags p).pageProperty q = if q = p then false else s.pageProperty q := by
  simp only [pageProperty, clearFlags, modifyPage, Function.update_apply]
  split <;> simp_all

theorem pageProperty_setPageProperty :
    (s.setPageProperty p b).pageProperty q = if q = p then b else s.pageProperty q := by
  simp only [pageProperty, setPageProperty, modifyPage, Function.update_apply]
  split <;> simp_all

@[simp] theorem pageReserved_mapLinks : (s.mapLinks g).pageReserved q = s.pageReserved q := rfl

@[simp] theorem pageReserved_setProperty :
    (s.setProperty p v).pageReserved q = s.pageReserved q := by
  simp only [pageReserved, setProperty, modifyPage, Function.update_apply]
  split <;> simp_all

@[simp] theorem pageReserved_setPageRef :
    (s.setPageRef p r).pageReserved q = s.pageReserved q := by
  simp only [pageReserved, setPageRef, modifyPage, Function.update_apply]
  split <;> simp_all

@[simp] theorem pageReserved_setPageProperty :
    (s.setPageProperty p b).pageReserved q = s.pageReserved q := by
  simp only [pageReserved, setPageProperty, modifyPage, Function.update_apply]
  split <;> simp_all

theorem pageReserved_clearFlags :
    (s.clearFlags p).pageReserved q = if q = p then false else s.pageReserved q := by
  simp only [pageReserved, clearFlags, modifyPage, Function.update_apply]
  split <;> simp_all

theorem pageReserved_setPageReserved :
    (s.setPageReserved p b).pageReserved q = if q = p then b else s.pageReserved q := by
  simp only [pageReserved, setPageReserved, modifyPage, Function.update_apply]
  split <;> simp_all

end Reads

end PageLists

/-! ## Searching a list of pages -/

/-- **A search loop on a list of pages**: a loop that moves to the next entry and stops there if the
page passes `test`, or if it is back at the head, finds the first page that passes. -/
theorem wp_findPage {ι σ γ : Type} {l : Links (ListEntry ι)} {i : ι} {pages : List (ListEntry ι)}
    {g : ℕ → ℕ} {xs : List ℕ} {stop : Stop} {E : Stop → Prop} {s : σ} {fuel : ℕ}
    {body : ListEntry ι → Act σ Stop (ListEntry ι ⊕ γ)}
    (hr : l.Ring (.head i) pages) (hpages : pages = xs.map fun x => .pageLink (g x))
    (test : ℕ → Bool) (found : ℕ → γ) (missing : γ)
    (hbody : ∀ le, Act.wp (body le) (fun r s' => s' = s ∧ r = match listNext l le with
      | .head _ => .inr missing
      | .pageLink p => if test p then .inr (found p) else .inl (.pageLink p)) E s)
    (hE : fuel ≤ xs.length → E stop) :
    Act.wp (Act.loop stop body fuel (.head i))
      (fun r s' => s' = s ∧ r = (xs.find? (test ∘ g)).elim missing (found ∘ g)) E s := by
  subst hpages
  -- the pages `as` have failed the test, `bs` are still to come
  refine Act.wp_loop (fun k le s' => s' = s ∧ ∃ as bs, xs = as ++ bs ∧ bs.length = k ∧
    (∀ a ∈ as, ¬ (test ∘ g) a = true) ∧
    le = Links.before (.head i) (as.map fun x => .pageLink (g x))) ?_ fuel xs.length _ s
    ⟨rfl, [], xs, rfl, rfl, by simp, rfl⟩ hE
  rintro k le s' ⟨rfl, as, bs, rfl, rfl, has, rfl⟩
  rw [List.map_append] at hr
  have hnext := hr.next_eq
  rw [List.find?_append, List.find?_eq_none.mpr has, Option.none_or]
  refine Act.wp_mono (hbody _) (fun r s'' hres => ?_) (fun _ => id)
  obtain ⟨rfl, rfl⟩ := hres
  rw [listNext, hnext]
  cases bs with
  | nil => exact ⟨rfl, rfl⟩
  | cons b bs =>
    by_cases hb : (test ∘ g) b = true
    · rw [List.find?_cons_of_pos hb]
      simp only [List.map_cons, Links.after_cons, if_pos (show test (g b) = true from hb)]
      exact ⟨trivial, rfl⟩
    · rw [List.find?_cons_of_neg hb]
      simp only [List.map_cons, Links.after_cons, if_neg (show ¬ test (g b) = true from hb)]
      refine ⟨bs.length, by simp, trivial, as ++ [b], bs, by simp, rfl, fun a ha => ?_, by simp⟩
      rcases List.mem_append.mp ha with ha | ha
      · exact has a ha
      · rwa [List.mem_singleton.mp ha]

end UCore
