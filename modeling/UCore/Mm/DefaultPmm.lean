import UCore.Machinery.Act
import UCore.Mm.Page

/-!
# Mm/DefaultPmm — the first-fit page manager

`kern/mm/default_pmm.c`, over the page array and the one list `free_list`.  A list walk spends its
fuel one entry at a time, so a walk round a damaged list stops with `spin`.
-/

namespace UCore

/-- `free_area_t`, with the page array its list runs through. -/
structure FreeArea where
  lists : PageLists Unit
  nrFree : ℕ

namespace DefaultPmm

/-- A first-fit call. -/
abbrev Call (α : Type) := Act FreeArea Stop α

/-- `&free_list`. -/
abbrev freeList : ListEntry Unit := .head ()

/-- A store to the page array or to the links. -/
def store (f : PageLists Unit → PageLists Unit) : Call Unit :=
  modify fun s => { s with lists := f s.lists }

/-- A store to `nr_free`, an `unsigned int`. -/
def setNrFree (f : ℕ → ℕ) : Call Unit := modify fun s => { s with nrFree := u32 (f s.nrFree) }

/-- `default_init`. -/
def defaultInit : Call Unit := do
  store (·.mapLinks (listInit · freeList))
  setNrFree fun _ => 0

/-- The insertion loop of `default_init_memmap` and `default_free_pages`: put `base` before the
first block above it.  After an insertion at the tail the source has no `break`, so the loop takes
another turn, at the block it has just put in. -/
def linkBase (fuel base : ℕ) : Call Unit := do
  if listEmpty (← get).lists.links freeList then
    store (·.mapLinks (listAdd · freeList (.pageLink base)))
  else
    Act.loop .spin (fun le => do
      let le := listNext (← get).lists.links le
      match le with
      | .head _ => pure (.inr ())
      | .pageLink page =>
        if base < page then
          store (·.mapLinks (listAddBefore · le (.pageLink base)))
          pure (.inr ())
        else
          if listNext (← get).lists.links le = freeList then
            store (·.mapLinks (listAdd · le (.pageLink base)))
          pure (.inl le)) fuel freeList

/-- The first loop of `default_init_memmap`. -/
def initPages : ℕ → ℕ → Call Unit
  | _, 0 => pure ()
  | p, n + 1 => do
    Act.require .panic ((← get).lists.pageReserved p)
    store fun g => ((g.clearFlags p).setProperty p 0).setPageRef p 0
    initPages (p + 1) n

/-- `default_init_memmap`. -/
def defaultInitMemmap (fuel base n : ℕ) : Call Unit := do
  Act.require .panic (0 < n)
  initPages base n
  store fun g => (g.setProperty base n).setPageProperty base true
  setNrFree (· + n)
  linkBase fuel base

/-- The search of `default_alloc_pages`: the first block of at least `n` pages. -/
def findFit (fuel n : ℕ) : Call (Option ℕ) :=
  Act.loop .spin (fun le => do
    let le := listNext (← get).lists.links le
    match le with
    | .head _ => pure (.inr none)
    | .pageLink p =>
      if n ≤ (← get).lists.property p then pure (.inr (some p)) else pure (.inl le)) fuel freeList

/-- Take the first `n` pages of the block `page` off the free list. -/
def takePages (page n : ℕ) : Call Unit := do
  let prev := listPrev (← get).lists.links (.pageLink page)
  store (·.mapLinks (listDel · (.pageLink page)))
  if n < (← get).lists.property page then
    let p := page + n
    store fun g => (g.setProperty p (g.property page - n)).setPageProperty p true
    store (·.mapLinks (listAdd · prev (.pageLink p)))
  setNrFree (· - n)
  store (·.setPageProperty page false)

/-- `default_alloc_pages`; `none` is `NULL`. -/
def defaultAllocPages (fuel n : ℕ) : Call (Option ℕ) := do
  Act.require .panic (0 < n)
  if (← get).nrFree < n then return none
  let page ← findFit fuel n
  match page with
  | none => return none
  | some p => do
    takePages p n
    return some p

/-- The first loop of `default_free_pages`. -/
def resetPages : ℕ → ℕ → Call Unit
  | _, 0 => pure ()
  | p, n + 1 => do
    Act.require .panic (!(← get).lists.pageReserved p && !(← get).lists.pageProperty p)
    store fun g => (g.clearFlags p).setPageRef p 0
    resetPages (p + 1) n

/-- Merge `base` into the block before it, when that block ends where `base` starts; the result is
the head of the block `base` is now in. -/
def mergePrev (base : ℕ) : Call ℕ := do
  match listPrev (← get).lists.links (.pageLink base) with
  | .head _ => return base
  | .pageLink p =>
    if p + (← get).lists.property p = base then
      store fun g => g.setProperty p (g.property p + g.property base)
      store (·.setPageProperty base false)
      store (·.mapLinks (listDel · (.pageLink base)))
      return p
    else return base

/-- Merge the block after `base` into it, when it starts where `base` ends. -/
def mergeNext (base : ℕ) : Call Unit := do
  match listNext (← get).lists.links (.pageLink base) with
  | .head _ => return ()
  | .pageLink p =>
    if base + (← get).lists.property base = p then
      store fun g => g.setProperty base (g.property base + g.property p)
      store (·.setPageProperty p false)
      store (·.mapLinks (listDel · (.pageLink p)))

/-- `default_free_pages`. -/
def defaultFreePages (fuel base n : ℕ) : Call Unit := do
  Act.require .panic (0 < n)
  resetPages base n
  store fun g => (g.setProperty base n).setPageProperty base true
  setNrFree (· + n)
  linkBase fuel base
  let base ← mergePrev base
  mergeNext base

/-- `default_nr_free_pages`. -/
def defaultNrFreePages : Call ℕ := do return (← get).nrFree

end DefaultPmm

end UCore
