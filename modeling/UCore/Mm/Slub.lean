import UCore.Machinery.Act
import UCore.Mm.Page

/-!
# Mm/Slub — the SLUB allocator

`lab2/kern/mm/slub.c`: ten caches, one for each size of object.  A slab is one page, cut into objects
with a header each; the free objects of a cache are on one list, whatever slab they are in.

    page   │ hdr │ object │ hdr │ object │ … │ unused │
             └────────────▸ next free object of the cache

An address is a number, and `none` is `NULL`.  `page2kva` and `kva2page` are parameters.
-/

namespace UCore

/-- `SLUB_SIZE_NUM`. -/
abbrev SLUB_SIZE_NUM : ℕ := 10

/-- The heads of the lists: `slub_free_list`, and the three lists of each cache. -/
inductive SlubList where
  | freeList
  | fullSlabs (i : ℕ)
  | halfSlabs (i : ℕ)
  | freeSlabs (i : ℕ)
  deriving DecidableEq, Repr

/-- `slub_object_t`: the next free object, and the index of its cache. -/
structure SlubObject where
  next : Option ℕ
  cache : ℕ
  deriving DecidableEq, Repr

/-- `slub_cache_t`, without its name and its lists. -/
structure SlubCache where
  objectSize : ℕ
  actualSize : ℕ
  objectNum : ℕ
  slabPage : Option ℕ
  freeList : Option ℕ
  deriving DecidableEq, Repr

/-- `slub_allocator_t`, the free pages, the page array, and the headers in the slabs by address. -/
structure SlubAllocator where
  lists : PageLists SlubList
  nrFree : ℕ
  initialized : Bool
  sizeCaches : ℕ → SlubCache
  object : ℕ → SlubObject

/-- `page2kva` and `kva2page`. -/
structure KvaMap where
  page2kva : ℕ → ℕ
  kva2page : ℕ → ℕ

namespace Slub

/-- A SLUB call. -/
abbrev Call (α : Type) := Act SlubAllocator Stop α

/-- `&slub_free_list`. -/
abbrev freeList : ListEntry SlubList := .head .freeList

/-- `&cache->full_slabs`. -/
abbrev fullSlabs (i : ℕ) : ListEntry SlubList := .head (.fullSlabs i)

/-- `&cache->partial_slabs`. -/
abbrev halfSlabs (i : ℕ) : ListEntry SlubList := .head (.halfSlabs i)

/-- A store to the page array or to the links. -/
def store (f : PageLists SlubList → PageLists SlubList) : Call Unit :=
  modify fun s => { s with lists := f s.lists }

/-- A store to a cache. -/
def setCache (i : ℕ) (f : SlubCache → SlubCache) : Call Unit :=
  modify fun s => { s with sizeCaches := Function.update s.sizeCaches i (f (s.sizeCaches i)) }

/-- A store to the header of an object. -/
def setObject (a : ℕ) (o : SlubObject) : Call Unit :=
  modify fun s => { s with object := Function.update s.object a o }

/-- `slub_align_size`. -/
def slubAlignSize (size : ℕ) : ℕ := (size + 8 - 1) / 8 * 8

/-- The sizes of the caches. -/
def sizes : List ℕ := [8, 16, 32, 64, 128, 256, 512, 1024, 1536, 2048]

/-- `slub_size_to_index`; `none` is -1. -/
def slubSizeToIndex (size : ℕ) : Option ℕ := sizes.findIdx? (size ≤ ·)

/-- `sizeof(slub_object_t)`. -/
abbrev OBJECT_SIZE : ℕ := 16

/-- `slub_object_to_page`. -/
def slubObjectToPage (m : KvaMap) (obj : ℕ) : ℕ := m.kva2page (obj - obj % PGSIZE)

/-- What `slub_init` makes of a cache. -/
def initCache (size : ℕ) (cache : SlubCache) : SlubCache :=
  { cache with
    objectSize := size
    actualSize := slubAlignSize (size + OBJECT_SIZE)
    objectNum := 0
    slabPage := none
    freeList := none }

/-- The loop of `slub_init`. -/
def initCaches : ℕ → List ℕ → Call Unit
  | _, [] => pure ()
  | i, size :: rest => do
    setCache i (initCache size)
    store (·.mapLinks (listInit · (fullSlabs i)))
    store (·.mapLinks (listInit · (halfSlabs i)))
    store (·.mapLinks (listInit · (.head (.freeSlabs i))))
    initCaches (i + 1) rest

/-- `slub_init`. -/
def slubInit : Call Unit := do
  if (← get).initialized then pure () else
    store (·.mapLinks (listInit · freeList))
    modify fun s => { s with nrFree := 0 }
    initCaches 0 sizes
    modify fun s => { s with initialized := true }

/-- The insertion of `slub_init_memmap`.  After an insertion at the tail the source has no `break`, so
the loop takes another turn, at the page it has just put in. -/
def linkPage (fuel p : ℕ) : Call Unit := do
  if listEmpty (← get).lists.links freeList then
    store (·.mapLinks (listAdd · freeList (.pageLink p)))
  else
    Act.loop .spin (fun le => do
      let le := listNext (← get).lists.links le
      match le with
      | .head _ => pure (.inr ())
      | .pageLink page =>
        if p < page then
          store (·.mapLinks (listAddBefore · le (.pageLink p)))
          pure (.inr ())
        else
          if listNext (← get).lists.links le = freeList then
            store (·.mapLinks (listAdd · le (.pageLink p)))
          pure (.inl le)) fuel freeList

/-- The loop of `slub_init_memmap`. -/
def initPages (fuel : ℕ) : ℕ → ℕ → Call Unit
  | _, 0 => pure ()
  | p, n + 1 => do
    Act.require .panic ((← get).lists.pageReserved p)
    store fun g => ((g.clearFlags p).setProperty p 0).setPageRef p 0
    linkPage fuel p
    initPages fuel (p + 1) n

/-- `slub_init_memmap`. -/
def slubInitMemmap (fuel base n : ℕ) : Call Unit := do
  initPages fuel base n
  store fun g => (g.setProperty base n).setPageProperty base true
  modify fun s => { s with nrFree := s.nrFree + n }

/-- The loop of `slub_alloc_slab_page`, over `count` objects from the `i`-th on: link each to the next,
and return the last. -/
def initObjects (cache actualSize pageEnd : ℕ) : ℕ → ℕ → ℕ → Call ℕ
  | 0, _, current => pure current
  | count + 1, i, current => do
    let next := current + actualSize
    if next ≥ pageEnd then
      setCache cache fun c => { c with objectNum := i + 1 }
      pure current
    else
      setObject current ⟨some next, cache⟩
      initObjects cache actualSize pageEnd count (i + 1) next

/-- The number of objects of a slab. -/
def objectNumOf (actualSize : ℕ) : ℕ :=
  let num := (PGSIZE - 8) / actualSize
  let num := if num = 0 then 1 else num
  if num > 1000 then 1000 else num

/-- `slub_alloc_slab_page`. -/
def slubAllocSlabPage (m : KvaMap) (i : ℕ) : Call (Option ℕ) := do
  if (← get).nrFree = 0 then return none
  match listNext (← get).lists.links freeList with
  | .head _ => return none
  | .pageLink page => do
    store (·.mapLinks (listDel · (.pageLink page)))
    modify fun s => { s with nrFree := s.nrFree - 1 }
    let actualSize := ((← get).sizeCaches i).actualSize
    if actualSize = 0 then
      return none
    else
      let num := objectNumOf actualSize
      setCache i fun c => { c with objectNum := num }
      let kva := m.page2kva page
      let current ← initObjects i actualSize (kva + PGSIZE) (num - 1) 0 kva
      setObject current ⟨none, i⟩
      setCache i fun c => { c with freeList := some kva, slabPage := some page }
      store (·.mapLinks (listAddBefore · (halfSlabs i) (.pageLink page)))
      return some page

/-- The end of `slub_alloc`: take the first free object, and move a slab that has become full. -/
def takeObject (i : ℕ) : Call (Option ℕ) := do
  match ((← get).sizeCaches i).freeList with
  | none => return none
  | some object => do
    let next := ((← get).object object).next
    setCache i fun c => { c with freeList := next }
    match next, ((← get).sizeCaches i).slabPage with
    | none, some page => do
      store (·.mapLinks (listDel · (.pageLink page)))
      store (·.mapLinks (listAddBefore · (fullSlabs i) (.pageLink page)))
      setCache i fun c => { c with slabPage := none }
    | _, _ => pure ()
    return some (object + OBJECT_SIZE)

/-- `slub_alloc`. -/
def slubAlloc (m : KvaMap) (size : ℕ) : Call (Option ℕ) := do
  if ¬ (← get).initialized then slubInit
  match slubSizeToIndex size with
  | none => return none
  | some i => do
    if ((← get).sizeCaches i).freeList = none then
      match ← slubAllocSlabPage m i with
      | none => return none
      | some _ => takeObject i
    else
      takeObject i

/-- The loop of `slub_free`: if `page` is on the full list, it goes to the other one. -/
def unfill (fuel i page : ℕ) : Call Unit := do
  let found ← Act.loop .spin (fun le => do
    let le := listNext (← get).lists.links le
    match le with
    | .head _ => pure (.inr none)
    | .pageLink p => if p = page then pure (.inr (some le)) else pure (.inl le)) fuel (fullSlabs i)
  match found with
  | none => pure ()
  | some le => do
    store (·.mapLinks (listDel · le))
    store (·.mapLinks (listAddBefore · (halfSlabs i) le))

/-- `slub_free`, of an object that is not `NULL`. -/
def slubFree (m : KvaMap) (fuel obj size : ℕ) : Call Unit := do
  match slubSizeToIndex size with
  | none => pure ()
  | some i => do
    let object := obj - OBJECT_SIZE
    let page := slubObjectToPage m obj
    setObject object { (← get).object object with next := ((← get).sizeCaches i).freeList }
    setCache i fun c => { c with freeList := some object }
    unfill fuel i page
    if ((← get).sizeCaches i).slabPage = none then
      setCache i fun c => { c with slabPage := some page }

end Slub

end UCore
