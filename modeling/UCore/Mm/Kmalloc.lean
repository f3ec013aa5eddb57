import Mathlib.Order.Interval.Finset.Nat
import UCore.Libs.Defs
import UCore.Machinery.Act

/-!
# Mm/Kmalloc — the SLOB allocator under `kmalloc` and `kfree`

`kern/mm/kmalloc.c`.  Pointers are byte addresses, `0` is `NULL`; a block's two header fields are
read at the address of the block.  `unsigned int` masks and interrupt flags guard a single core and
are left out, as is the alignment of `slob_alloc`, which every call in the file gives as `0`.
-/

namespace UCore

/-- `bigblock_t`, with the address of its record. -/
structure BigBlock where
  addr : ℕ
  order : ℕ
  pages : ℕ
  deriving DecidableEq

/-- The allocator's memory: the fields of `slob_t` at each address, `slobfree` and `bigblocks`, and
the pages `alloc_pages` has handed out to it and not had back. -/
structure SlobHeap where
  units : ℕ → ℕ
  next : ℕ → ℕ
  slobfree : ℕ
  bigblocks : List BigBlock
  used : Finset ℕ

/-- `alloc_pages`, on a page count and the pages in use: the address of the first page. -/
abbrev PageAlloc := ℕ → Finset ℕ → Option ℕ

namespace Kmalloc

/-- A call of the allocator. -/
abbrev Call (α : Type) := Act SlobHeap Stop α

/-- `SLOB_UNIT`, which is `sizeof(slob_t)`. -/
abbrev SLOB_UNIT : ℕ := 16

/-- `sizeof(bigblock_t)`. -/
abbrev sizeofBigBlock : ℕ := 24

/-- `SLOB_UNITS`. -/
def slobUnits (size : ℕ) : ℕ := (size + SLOB_UNIT - 1) / SLOB_UNIT

/-- The address `b + n` of the source, for a `slob_t *b`. -/
abbrev unitsPast (b n : ℕ) : ℕ := b + SLOB_UNIT * n

/-- A store to the field `units` of the block at `b`. -/
def setUnits (b n : ℕ) : Call Unit :=
  modify fun s => { s with units := Function.update s.units b n }

/-- A store to the field `next` of the block at `b`. -/
def setNext (b c : ℕ) : Call Unit :=
  modify fun s => { s with next := Function.update s.next b c }

/-- A store to `slobfree`. -/
def setSlobfree (b : ℕ) : Call Unit := modify fun s => { s with slobfree := b }

/-- The pages of a block of `2 ^ order` pages. -/
def pagesAt (kva order : ℕ) : Finset ℕ := Finset.Ico (kva / PGSIZE) (kva / PGSIZE + 2 ^ order)

/-- `__slob_get_free_pages`. -/
def slobGetFreePages (allocPages : PageAlloc) (order : ℕ) : Call (Option ℕ) := do
  match allocPages (2 ^ order) (← get).used with
  | none => pure none
  | some kva =>
    modify fun s => { s with used := s.used ∪ pagesAt kva order }
    pure (some kva)

/-- `__slob_free_pages`. -/
def slobFreePages (kva order : ℕ) : Call Unit :=
  modify fun s => { s with used := s.used \ pagesAt kva order }

/-- The search of `slob_free`: the block after which `block` goes back in. -/
def reinsertionPoint (fuel block : ℕ) : Call ℕ := do
  Act.loop .spin (fun cur => do
    let next := (← get).next cur
    if cur < block ∧ block < next then
      pure (.inr cur)
    else if next ≤ cur ∧ (cur < block ∨ block < next) then
      pure (.inr cur)
    else
      pure (.inl next)) fuel (← get).slobfree

/-- The step of `slob_free` that joins `block` with the block after it, or links it to it. -/
def joinNext (block next : ℕ) : Call Unit := do
  if unitsPast block ((← get).units block) = next then
    setUnits block ((← get).units block + (← get).units next)
    setNext block ((← get).next next)
  else
    setNext block next

/-- The step of `slob_free` that joins `cur` with `block`, or links it to it. -/
def joinPrev (cur block : ℕ) : Call Unit := do
  if unitsPast cur ((← get).units cur) = block then
    setUnits cur ((← get).units cur + (← get).units block)
    setNext cur ((← get).next block)
  else
    setNext cur block

/-- `slob_free`. -/
def slobFree (fuel block size : ℕ) : Call Unit := do
  if block = 0 then
    pure ()
  else
    if size ≠ 0 then
      setUnits block (slobUnits size)
    let cur ← reinsertionPoint fuel block
    joinNext block ((← get).next cur)
    joinPrev cur block
    setSlobfree cur

/-- What `slob_alloc` does with a block that has room: unlink it, or split it and hand its front
out. -/
def takeUnits (prev cur units : ℕ) : Call Unit := do
  if (← get).units cur = units then
    setNext prev ((← get).next cur)
  else
    setNext prev (unitsPast cur units)
    setUnits (unitsPast cur units) ((← get).units cur - units)
    setNext (unitsPast cur units) ((← get).next cur)
    setUnits cur units
  setSlobfree prev

/-- `slob_alloc`.  Back at `slobfree` without a fit, it frees a new page into the list and goes
round again. -/
def slobAlloc (fuel : ℕ) (allocPages : PageAlloc) (size : ℕ) : Call (Option ℕ) := do
  Act.require .panic (size + SLOB_UNIT < PGSIZE)
  let units := slobUnits size
  let prev := (← get).slobfree
  Act.loop .spin (fun b => do
    let (prev, cur) := b
    if units ≤ (← get).units cur then
      takeUnits prev cur units
      pure (.inr (some cur))
    else if cur = (← get).slobfree then
      if size = PGSIZE then
        pure (.inr none)
      else
        match ← slobGetFreePages allocPages 0 with
        | none => pure (.inr none)
        | some page =>
          slobFree fuel page PGSIZE
          let cur := (← get).slobfree
          pure (.inl (cur, (← get).next cur))
    else
      pure (.inl (cur, (← get).next cur))) fuel (prev, (← get).next prev)

/-- `find_order`. -/
def findOrder (size : ℤ) : ℕ := if size > 4096 then findOrder (size >>> (1 : ℕ)) + 1 else 0
termination_by size.toNat
decreasing_by
  rw [Int.shiftRight_eq_div_pow]
  omega

/-- `kmalloc`. -/
def kmalloc (fuel : ℕ) (allocPages : PageAlloc) (size : ℕ) : Call (Option ℕ) := do
  if size < PGSIZE - SLOB_UNIT then
    return (← slobAlloc fuel allocPages (size + SLOB_UNIT)).map (· + SLOB_UNIT)
  else
    match ← slobAlloc fuel allocPages sizeofBigBlock with
    | none => pure none
    | some bb =>
      let order := findOrder (toS32 size)
      match ← slobGetFreePages allocPages order with
      | some pages =>
        modify fun s => { s with bigblocks := ⟨bb, order, pages⟩ :: s.bigblocks }
        pure (some pages)
      | none =>
        slobFree fuel bb sizeofBigBlock
        pure none

/-- `kfree`. -/
def kfree (fuel block : ℕ) : Call Unit := do
  if block = 0 then
    pure ()
  else
    let bigblocks := (← get).bigblocks
    match if block % PGSIZE = 0 then bigblocks.find? (·.pages = block) else none with
    | some bb =>
      modify fun s => { s with bigblocks := s.bigblocks.erase bb }
      slobFreePages block bb.order
      slobFree fuel bb.addr sizeofBigBlock
    | none => slobFree fuel (block - SLOB_UNIT) 0

/-- The static data, over whatever the rest of memory holds: `arena` is the only free block, and it
is linked to itself. -/
def slobInit (arena : ℕ) (units next : ℕ → ℕ) : SlobHeap where
  units := Function.update units arena 1
  next := Function.update next arena arena
  slobfree := arena
  bigblocks := []
  used := ∅

end Kmalloc

end UCore
