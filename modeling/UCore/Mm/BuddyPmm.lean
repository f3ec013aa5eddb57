import UCore.Machinery.Act
import UCore.Mm.Page

/-!
# Mm/BuddyPmm — the buddy page manager

`lab2/kern/mm/buddy_pmm.c`: sixteen lists of free blocks, one for each order.  A page is its index
in the `pages` array, and `page_index` is its place in the managed range.
-/

namespace UCore

/-- `BUDDY_MAX_ORDER`. -/
abbrev BUDDY_MAX_ORDER : ℕ := 15

/-- `buddy_area_t`, with the page array its lists run through; `none` is a null `base`. -/
structure BuddyArea where
  lists : PageLists ℕ
  nrFree : ℕ
  base : Option ℕ
  npages : ℕ

namespace BuddyPmm

/-- A buddy call. -/
abbrev Call (α : Type) := Act BuddyArea Stop α

/-- `&FL(order)`. -/
abbrev FL (order : ℕ) : ListEntry ℕ := .head order

/-- A store to the page array or to the links. -/
def store (f : PageLists ℕ → PageLists ℕ) : Call Unit :=
  modify fun s => { s with lists := f s.lists }

/-- A store to `NR_FREE`, a `size_t`. -/
def setNrFree (f : ℕ → ℕ) : Call Unit := modify fun s => { s with nrFree := u64 (f s.nrFree) }

/-- `order2size`. -/
def order2size (order : ℕ) : ℕ := 2 ^ order

/-- The loop of `size2order_ceil`, with what is left of `BUDDY_MAX_ORDER` as the fuel. -/
def size2orderLoop (n : ℕ) : ℕ → ℕ → ℕ → ℕ
  | 0, o, _ => o
  | left + 1, o, s => if s < n then size2orderLoop n left (o + 1) (s * 2) else o

/-- `size2order_ceil`. -/
def size2orderCeil (n : ℕ) : ℕ := size2orderLoop n BUDDY_MAX_ORDER 0 1

/-- `page_index`: a pointer difference, as a `size_t`. -/
def pageIndex (s : BuddyArea) (p : ℕ) : ℕ := toU64 ((p : ℤ) - (s.base.getD 0 : ℕ))

/-- `in_managed_range`. -/
def inManagedRange (s : BuddyArea) (p : ℕ) : Bool :=
  s.base.isSome && decide (pageIndex s p < s.npages)

/-- `find_in_order_list`. -/
def findInOrderList (fuel order head : ℕ) : Call (Option (ListEntry ℕ)) :=
  Act.loop .spin (fun le => do
    let le := listNext (← get).lists.links le
    match le with
    | .head _ => pure (.inr none)
    | .pageLink p => if p = head then pure (.inr (some le)) else pure (.inl le)) fuel (FL order)

/-- The loop of `buddy_lists_init`. -/
def initHeads (l : Links (ListEntry ℕ)) : Links (ListEntry ℕ) :=
  (List.range (BUDDY_MAX_ORDER + 1)).foldl (fun l o => listInit l (FL o)) l

/-- `buddy_lists_init`. -/
def buddyListsInit : Call Unit := store (·.mapLinks initHeads)

/-- `buddy_init`. -/
def buddyInit : Call Unit := do
  buddyListsInit
  setNrFree fun _ => 0
  modify fun s => { s with base := none, npages := 0 }

/-- One turn of the merge loop of `insert_and_merge`, below the top order: the buddy, when it is a
free block of this order, comes off its list and is joined to the block. -/
def mergeStep (fuel block order size : ℕ) : Call (Option ℕ) := do
  let idx := pageIndex (← get) block
  let buddyIdx := idx ^^^ size
  if (← get).npages ≤ buddyIdx then return none
  let buddy := (← get).base.getD 0 + buddyIdx
  match ← findInOrderList fuel order buddy with
  | none => return none
  | some le => do
    store (·.mapLinks (listDel · le))
    store fun g => (g.setPageProperty buddy false).setProperty buddy 0
    if buddyIdx < idx then
      store fun g => (g.setPageProperty block false).setProperty block 0
      return some buddy
    return some block

/-- `insert_and_merge`. -/
def insertAndMerge (fuel block order : ℕ) : Call Unit := do
  let (block, order) ← Act.loop .spin (fun (block, order, size) => do
    if order < BUDDY_MAX_ORDER then
      match ← mergeStep fuel block order size with
      | none => pure (.inr (block, order))
      | some block => pure (.inl (block, order + 1, size * 2))
    else pure (.inr (block, order))) fuel (block, order, order2size order)
  store fun g => (g.setProperty block (order2size order)).setPageProperty block true
  store (·.mapLinks (listAdd · (FL order) (.pageLink block)))

/-- The first loop of `buddy_init_memmap`. -/
def clearPages : ℕ → ℕ → Call Unit
  | _, 0 => pure ()
  | p, n + 1 => do
    Act.require .panic ((← get).lists.pageReserved p)
    store fun g => ((((g.clearFlags p).setProperty p 0).setPageRef p 0).setPageReserved p false)
    clearPages (p + 1) n

/-- The inner loop of `buddy_init_memmap`, with what is left of `BUDDY_MAX_ORDER` as the fuel: the
largest block that is aligned at `offset` and fits in `rem`. -/
def largestBlock (offset rem : ℕ) : ℕ → ℕ → ℕ → ℕ × ℕ
  | 0, order, size => (order, size)
  | left + 1, order, size =>
    if size * 2 ≤ rem ∧ offset % (size * 2) = 0 then largestBlock offset rem left (order + 1) (size * 2)
    else (order, size)

/-- `buddy_init_memmap`. -/
def buddyInitMemmap (fuel base n : ℕ) : Call Unit := do
  Act.require .panic (0 < n)
  match (← get).base with
  | none => modify fun s => { s with base := some base, npages := n }
  | some b => do
    let npages := (← get).npages
    Act.require .panic (base = b ∧ n = npages)
  clearPages base n
  buddyListsInit
  setNrFree fun _ => 0
  Act.loop .spin (fun (offset, rem) => do
    if 0 < rem then
      let (order, size) := largestBlock offset rem BUDDY_MAX_ORDER 0 1
      let p := base + offset
      store fun g => (g.setProperty p size).setPageProperty p true
      store (·.mapLinks (listAdd · (FL order) (.pageLink p)))
      setNrFree (· + size)
      pure (.inl (offset + size, rem - size))
    else pure (.inr ())) fuel (0, n)

/-- The search of `buddy_alloc_pages`, with the orders left to try as the fuel: the first non-empty
list from `got` on. -/
def firstNonEmpty (l : Links (ListEntry ℕ)) : ℕ → ℕ → ℕ
  | 0, got => got
  | left + 1, got => if listEmpty l (FL got) then firstNonEmpty l left (got + 1) else got

/-- The splitting loop of `buddy_alloc_pages`: halve `blk` down from the order `need + d`, putting
each right half on its list. -/
def splitDown (blk need : ℕ) : ℕ → ℕ → Call Unit
  | 0, _ => pure ()
  | d + 1, curSize => do
    let got := need + d
    let curSize := curSize / 2
    let right := blk + curSize
    store fun g => (g.setProperty right curSize).setPageProperty right true
    store (·.mapLinks (listAdd · (FL got) (.pageLink right)))
    splitDown blk need d curSize

/-- The last loop of `buddy_alloc_pages`. -/
def markReserved : ℕ → ℕ → Call Unit
  | _, 0 => pure ()
  | p, n + 1 => do
    store fun g => ((g.setPageProperty p false).setPageReserved p true).setPageRef p 0
    markReserved (p + 1) n

/-- `buddy_alloc_pages`; `none` is `NULL`. -/
def buddyAllocPages (n : ℕ) : Call (Option ℕ) := do
  Act.require .panic (0 < n)
  if (← get).nrFree < n then return none
  let needOrder := size2orderCeil n
  let gotOrder := firstNonEmpty (← get).lists.links (BUDDY_MAX_ORDER + 1 - needOrder) needOrder
  if BUDDY_MAX_ORDER < gotOrder then return none
  let le := listNext (← get).lists.links (FL gotOrder)
  match le with
  | .head _ => throw .panic
  | .pageLink blk => do
    store (·.mapLinks (listDel · le))
    store (·.setPageProperty blk false)
    splitDown blk needOrder (gotOrder - needOrder) (order2size gotOrder)
    let allocSize := order2size needOrder
    setNrFree (· - allocSize)
    store (·.setProperty blk allocSize)
    markReserved blk allocSize
    return some blk

/-- The page loop of `buddy_free_pages`. -/
def releasePages : ℕ → ℕ → Call Unit
  | _, 0 => pure ()
  | p, n + 1 => do
    Act.require .panic ((← get).lists.pageReserved p)
    store fun g => (((g.setPageReserved p false).setPageProperty p false).clearFlags p).setPageRef p 0
    releasePages (p + 1) n

/-- The order loop of `buddy_free_pages`: the first order whose size reaches `size`; a shift by 64
or more has no meaning, which is the fuel. -/
def orderOf (size : ℕ) : ℕ → ℕ → ℕ
  | 0, order => order
  | left + 1, order => if 2 ^ order < size then orderOf size left (order + 1) else order

/-- `buddy_free_pages`. -/
def buddyFreePages (fuel base n : ℕ) : Call Unit := do
  Act.require .panic (0 < n)
  let property := (← get).lists.property base
  if property = 0 then Act.require .panic (n &&& (n - 1) = 0)
  let allocSize := if property = 0 then n else property
  let s ← get
  Act.require .panic (inManagedRange s base && inManagedRange s (base + allocSize - 1))
  Act.require .panic (pageIndex s base % allocSize = 0)
  releasePages base allocSize
  store (·.setProperty base 0)
  insertAndMerge fuel base (orderOf allocSize 64 0)
  setNrFree (· + allocSize)

/-- `buddy_nr_free_pages`. -/
def buddyNrFreePages : Call ℕ := do return (← get).nrFree

end BuddyPmm

end UCore
