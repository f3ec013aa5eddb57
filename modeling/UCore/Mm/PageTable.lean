import UCore.Machinery.Bytes
import UCore.Machinery.Radix
import UCore.Mm.Vma

/-!
# Mm/PageTable — pages, and the tables that map them

`kern/mm/mmu.h`, and `get_pte`, `page_insert`, `pgdir_alloc_page` and `copy_range` of `kern/mm/pmm.c`.
A page is named by its number and holds `PGSIZE` bytes; an entry of a table is the word of eight bytes
at its index.

    pgdir ──PDX1(la)──▸ table ──PDX0(la)──▸ table ──PTX(la)──▸ page

A kernel address and the physical one differ by a constant, and the model has the latter only.
-/

namespace UCore.Paging

open Vmm

/-- `PTE_V`. -/
abbrev PTE_V : ℕ := 0x001

/-- `PTE_R`. -/
abbrev PTE_R : ℕ := 0x002

/-- `PTE_W`. -/
abbrev PTE_W : ℕ := 0x004

/-- `PTE_X`. -/
abbrev PTE_X : ℕ := 0x008

/-- `PTE_U`. -/
abbrev PTE_U : ℕ := 0x010

/-- `PTE_USER`. -/
abbrev PTE_USER : ℕ := PTE_R ||| PTE_W ||| PTE_X ||| PTE_U ||| PTE_V

/-- `PTSIZE`. -/
abbrev PTSIZE : ℕ := PGSIZE * 512

/-- `PDX1`. -/
def pdx1 (la : ℕ) : ℕ := la >>> 30 &&& 0x1FF

/-- `PDX0`. -/
def pdx0 (la : ℕ) : ℕ := la >>> 21 &&& 0x1FF

/-- `PTX`. -/
def ptx (la : ℕ) : ℕ := la >>> 12 &&& 0x1FF

/-- `pte_create`. -/
def pteCreate (ppn type : ℕ) : ℕ := u64 (ppn <<< 10) ||| PTE_V ||| type

/-- `PTE_ADDR`, which drops the ten low bits. -/
def pteAddr (pte : ℕ) : ℕ := u64 ((pte - pte % 1024) <<< 2)

/-- An entry is valid. -/
def Valid (pte : ℕ) : Prop := pte &&& PTE_V ≠ 0

instance (pte : ℕ) : Decidable (Valid pte) := inferInstanceAs (Decidable (_ ≠ _))

/-- How a call fails to return: a failed assertion, one that a page was allocated, or a loop that does
not end. -/
inductive Fault where
  | panic
  | noPage
  | spin
  deriving DecidableEq, Repr

/-- The memory: the bytes of each page, its `ref`, the pages that are not free, and whether an
allocation has failed so far. -/
structure Phys where
  page : ℕ → ℕ → UInt8
  ref : ℕ → ℤ
  used : Finset ℕ
  starved : Bool

/-- The physical memory manager: the number of pages, and `alloc_page` on the pages that are not
free. -/
structure Pmm where
  npage : ℕ
  alloc : Finset ℕ → Option ℕ

/-- A call on the memory. -/
abbrev Call (α : Type) := Act Phys Fault α

/-- An entry of a table… -/
def entry (p i : ℕ) : Call ℕ := do
  return Bytes.word ((← get).page p) 8 (8 * i)

/-- …and a store to it. -/
def setEntry (p i pte : ℕ) : Call Unit :=
  modify fun s => { s with page := Function.update s.page p (Bytes.putWord (s.page p) 8 (8 * i) pte) }

/-- A store to `ref`: `set_page_ref`, `page_ref_inc` and `page_ref_dec`. -/
def setRef (p : ℕ) (f : ℤ → ℤ) : Call Unit :=
  modify fun s => { s with ref := Function.update s.ref p (f (s.ref p)) }

/-- `memset` of a whole page to zero… -/
def clearPage (p : ℕ) : Call Unit :=
  modify fun s => { s with page := Function.update s.page p fun _ => 0 }

/-- …and `memcpy` of one. -/
def copyPage (dst src : ℕ) : Call Unit :=
  modify fun s => { s with page := Function.update s.page dst (s.page src) }

/-- `alloc_page`. -/
def allocPage (pmm : Pmm) : Call (Option ℕ) := do
  match pmm.alloc (← get).used with
  | none => do
    modify fun s => { s with starved := true }
    return none
  | some p => do
    modify fun s => { s with used := insert p s.used }
    return some p

/-- `free_page`. -/
def freePage (p : ℕ) : Call Unit := modify fun s => { s with used := s.used.erase p }

/-- The page of an address, with the check that `KADDR` and `pa2page` share. -/
def pa2page (pmm : Pmm) (pa : ℕ) : Call ℕ := do
  Act.require .panic (pa / PGSIZE < pmm.npage)
  return pa / PGSIZE

/-- `pte2page`. -/
def pte2page (pmm : Pmm) (pte : ℕ) : Call ℕ := do
  Act.require .panic (Valid pte)
  pa2page pmm (pteAddr pte)

/-- One level of `get_pte`: the table under the entry `i` of the table `p`. -/
def tableUnder (pmm : Pmm) (p i : ℕ) (create : Bool) : Call (Option ℕ) := do
  if Valid (← entry p i) then
    return some (← pa2page pmm (pteAddr (← entry p i)))
  else if create = true then
    match ← allocPage pmm with
    | none => return none
    | some q => do
      setRef q fun _ => 1
      clearPage q
      setEntry p i (pteCreate q (PTE_U ||| PTE_V))
      return some (← pa2page pmm (pteAddr (← entry p i)))
  else
    return none

/-- `get_pte`: the table of the entry, and its index there. -/
def getPte (pmm : Pmm) (pgdir la : ℕ) (create : Bool) : Call (Option (ℕ × ℕ)) := do
  match ← tableUnder pmm pgdir (pdx1 la) create with
  | none => return none
  | some pd0 =>
    match ← tableUnder pmm pd0 (pdx0 la) create with
    | none => return none
    | some pt => return some (pt, ptx la)

/-- `page_remove_pte`. -/
def pageRemovePte (pmm : Pmm) (pt i : ℕ) : Call Unit := do
  let pte ← entry pt i
  if Valid pte then
    let page ← pte2page pmm pte
    setRef page (· - 1)
    if (← get).ref page = 0 then
      freePage page
    setEntry pt i 0

/-- What `page_insert` does about an entry that is valid. -/
def dropOld (pmm : Pmm) (page pt i : ℕ) : Call Unit := do
  let pte ← entry pt i
  if Valid pte then
    if (← pte2page pmm pte) = page then
      setRef page (· - 1)
    else
      pageRemovePte pmm pt i

/-- `page_insert`. -/
def pageInsert (pmm : Pmm) (pgdir page la perm : ℕ) : Call ℤ := do
  match ← getPte pmm pgdir la true with
  | none => return -E_NO_MEM
  | some (pt, i) => do
    setRef page (· + 1)
    dropOld pmm page pt i
    setEntry pt i (pteCreate page (PTE_V ||| perm))
    return 0

/-- `pgdir_alloc_page`. -/
def pgdirAllocPage (pmm : Pmm) (pgdir la perm : ℕ) : Call (Option ℕ) := do
  match ← allocPage pmm with
  | none => return none
  | some page => do
    if (← pageInsert pmm pgdir page la perm) ≠ 0 then
      freePage page
      return none
    else
      Act.require .panic ((← get).ref page = 1)
      return some page

/-- What `copy_range` does about a page that is there: its code, `0` if all went well. -/
def copyOne (pmm : Pmm) (dst start pte : ℕ) : Call ℤ := do
  match ← getPte pmm dst start true with
  | none => return -E_NO_MEM
  | some _ => do
    let page ← pte2page pmm pte
    match ← allocPage pmm with
    | none => throw .noPage
    | some npage => do
      copyPage npage page
      pageInsert pmm dst npage start (pte &&& PTE_USER)

/-- The end of a turn of `copy_range`. -/
def nextPage (start stop : ℕ) : ℕ ⊕ ℤ := if start ≠ 0 ∧ start < stop then .inl start else .inr 0

/-- One turn of `copy_range`. -/
def copyTurn (pmm : Pmm) (dst src stop start : ℕ) : Call (ℕ ⊕ ℤ) := do
  match ← getPte pmm src start false with
  | none => return nextPage (roundDown (u64 (start + PTSIZE)) PTSIZE) stop
  | some (pt, i) => do
    let pte ← entry pt i
    if Valid pte then
      let ret ← copyOne pmm dst start pte
      if ret ≠ 0 then
        return .inr ret
      else
        return nextPage (u64 (start + PGSIZE)) stop
    else
      return nextPage (u64 (start + PGSIZE)) stop

/-- `copy_range`, from the page directory `src` to `dst`. -/
def copyRange (pmm : Pmm) (fuel dst src start stop : ℕ) : Call ℤ := do
  Act.require .panic (start % PGSIZE = 0 ∧ stop % PGSIZE = 0)
  Act.require .panic (UserAccess start stop)
  Act.loop .spin (copyTurn pmm dst src stop) fuel start

end UCore.Paging
