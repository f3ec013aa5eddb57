import UCore.Libs.Defs
import UCore.Machinery.Act
import UCore.Machinery.Ranges

/-!
# Mm/Vma — the areas of an address space

`kern/mm/vmm.c` and `kern/mm/memlayout.h`.  The areas of an `mm_struct` are a list in the order of
their addresses; an area is never changed once it is in the list, so `mmap_cache` holds the area itself.

    find_vma ──▸ mmap_cache ──▸ … or the list, front to back
-/

namespace UCore.Vmm

/-- `E_INVAL`. -/
abbrev E_INVAL : ℤ := 3

/-- `E_NO_MEM`. -/
abbrev E_NO_MEM : ℤ := 4

/-- `USERBASE`. -/
abbrev USERBASE : ℕ := 0x00200000

/-- `USERTOP`. -/
abbrev USERTOP : ℕ := 0x80000000

/-- `KERNBASE`. -/
abbrev KERNBASE : ℕ := 0xFFFFFFFFC0200000

/-- `KERNTOP`. -/
abbrev KERNTOP : ℕ := KERNBASE + 0x7E00000

/-- `USER_ACCESS`. -/
def UserAccess (start stop : ℕ) : Prop := USERBASE ≤ start ∧ start < stop ∧ stop ≤ USERTOP

instance (start stop : ℕ) : Decidable (UserAccess start stop) :=
  inferInstanceAs (Decidable (_ ∧ _ ∧ _))

/-- `KERN_ACCESS`. -/
def KernAccess (start stop : ℕ) : Prop := KERNBASE ≤ start ∧ start < stop ∧ stop ≤ KERNTOP

instance (start stop : ℕ) : Decidable (KernAccess start stop) :=
  inferInstanceAs (Decidable (_ ∧ _ ∧ _))

/-- `VM_READ`. -/
abbrev VM_READ : ℕ := 1

/-- `VM_WRITE`. -/
abbrev VM_WRITE : ℕ := 2

/-- `VM_EXEC`. -/
abbrev VM_EXEC : ℕ := 4

/-- `VM_STACK`. -/
abbrev VM_STACK : ℕ := 8

/-- `vma_struct`: the addresses from `vmStart` to just below `vmEnd`. -/
structure Vma where
  vmStart : ℕ
  vmEnd : ℕ
  vmFlags : ℕ
  deriving DecidableEq, Repr

/-- `mm_struct`: its areas, the one found last, and their number. -/
structure Mm where
  mmapList : List Vma
  mmapCache : Option Vma
  mapCount : ℤ
  deriving DecidableEq, Repr

/-- `mm_create`. -/
def mmCreate : Mm := ⟨[], none, 0⟩

/-- A call on an address space. -/
abbrev Call (α : Type) := Act Mm Stop α

/-- An address is in an area. -/
abbrev Vma.Holds (v : Vma) (addr : ℕ) : Prop := Ranges.Holds Vma.vmStart Vma.vmEnd v addr

/-- The walk of `find_vma` over the list. -/
def scan (addr : ℕ) (list : List Vma) : Option Vma := list.find? fun v => v.Holds addr

/-- The area of `find_vma`: the one in the cache if it will do, else the one of the walk. -/
def Mm.lookup (mm : Mm) (addr : ℕ) : Option Vma :=
  match mm.mmapCache with
  | some v => if v.Holds addr then some v else scan addr mm.mmapList
  | none => scan addr mm.mmapList

/-- `find_vma`. -/
def findVma (addr : ℕ) : Call (Option Vma) := do
  let vma := (← get).lookup addr
  match vma with
  | some v => modify fun mm => { mm with mmapCache := some v }
  | none => pure ()
  return vma

/-- `check_vma_overlap`. -/
def checkVmaOverlap (prev next : Vma) : Call Unit := do
  Act.require .panic (prev.vmStart < prev.vmEnd)
  Act.require .panic (prev.vmEnd ≤ next.vmStart)
  Act.require .panic (next.vmStart < next.vmEnd)

/-- The check of `insert_vma_struct` against the area before, if there is one… -/
def checkPrev (prev : Option Vma) (vma : Vma) : Call Unit :=
  match prev with
  | some prev => checkVmaOverlap prev vma
  | none => pure ()

/-- …and against the area after. -/
def checkNext (vma : Vma) (next : Option Vma) : Call Unit :=
  match next with
  | some next => checkVmaOverlap vma next
  | none => pure ()

/-- `insert_vma_struct`: the walk ends before the first area that starts after `vma`. -/
def insertVmaStruct (vma : Vma) : Call Unit := do
  Act.require .panic (vma.vmStart < vma.vmEnd)
  let list := (← get).mmapList
  checkPrev (Ranges.upTo Vma.vmStart vma list).getLast? vma
  checkNext vma (Ranges.beyond Vma.vmStart vma list).head?
  modify fun mm => { mm with
    mmapList := Ranges.insert Vma.vmStart vma list
    mapCount := mm.mapCount + 1 }

/-- The first address of the pages that a request asks for… -/
def mapStart (addr : ℕ) : ℕ := roundDown addr PGSIZE

/-- …and the one after the last. -/
def mapEnd (addr len : ℕ) : ℕ := roundUp (u64 (addr + len)) PGSIZE

/-- `mm_map`; `granted` says what the `kmalloc` of `vma_create` comes to. -/
def mmMap (addr len vmFlags : ℕ) (granted : Bool) : Call ℤ := do
  let start := mapStart addr
  let stop := mapEnd addr len
  if UserAccess start stop then
    let vma ← findVma start
    if vma.any (fun v => v.vmStart < stop) = true then
      return -E_INVAL
    else if granted = true then
      insertVmaStruct ⟨start, stop, vmFlags⟩
      return 0
    else
      return -E_NO_MEM
  else
    return -E_INVAL

/-! ## The invariant -/

/-- **An address space**: its areas are in order and disjoint, `map_count` counts them, and the cache is
one of them. -/
structure Mm.Valid (mm : Mm) : Prop where
  sorted : Ranges.Sorted Vma.vmStart Vma.vmEnd mm.mmapList
  count : mm.mapCount = mm.mmapList.length
  cache : ∀ v, mm.mmapCache = some v → v ∈ mm.mmapList

variable {mm mm' : Mm} {v vma : Vma} {addr len vmFlags : ℕ}

theorem mmCreate_valid : mmCreate.Valid := ⟨.nil, rfl, fun _ h => (nomatch h)⟩

/-- The address space with another area in its cache, if there is one. -/
def Mm.cached (mm : Mm) (vma : Option Vma) : Mm := { mm with mmapCache := vma <|> mm.mmapCache }

@[simp] theorem Mm.cached_mmapList (vma : Option Vma) : (mm.cached vma).mmapList = mm.mmapList := rfl

theorem Mm.Valid.cached (h : mm.Valid) : (mm.cached (scan addr mm.mmapList)).Valid := by
  refine ⟨h.sorted, h.count, fun v hv => ?_⟩
  cases hs : scan addr mm.mmapList with
  | none =>
    rw [hs] at hv
    exact h.cache v hv
  | some w =>
    rw [hs] at hv
    obtain rfl : w = v := Option.some.inj hv
    exact List.mem_of_find?_eq_some hs

theorem Mm.Valid.lookup_eq (h : mm.Valid) : mm.lookup addr = scan addr mm.mmapList := by
  rw [Mm.lookup]
  split
  · next v hv =>
    split
    · next ha => exact (h.sorted.find_eq_some.mpr ⟨h.cache v hv, ha⟩).symm
    · rfl
  · rfl

/-- **`find_vma` finds what the walk over the list finds**, whatever it was asked before. -/
theorem Mm.Valid.wp_findVma (h : mm.Valid) {Q : Option Vma → Mm → Prop} {E : Stop → Prop} :
    Act.wp (findVma addr) Q E mm ↔
      Q (scan addr mm.mmapList) (mm.cached (scan addr mm.mmapList)) := by
  simp only [findVma, Act.wp_bind, Act.wp_get, h.lookup_eq]
  cases scan addr mm.mmapList with
  | none => exact Iff.rfl
  | some v => exact Iff.rfl

theorem Mm.Valid.findVma_eq (h : mm.Valid) : findVma addr mm =
    .ok (scan addr mm.mmapList, mm.cached (scan addr mm.mmapList)) := by
  obtain ⟨vma, mm', hrun, rfl, rfl⟩ := Act.wp_false_iff.mp
    (h.wp_findVma (Q := fun vma mm' => vma = scan addr mm.mmapList ∧
      mm' = mm.cached (scan addr mm.mmapList)).mpr ⟨rfl, rfl⟩)
  exact hrun

/-- The area of an address is the one that holds it. -/
theorem Mm.Valid.scan_eq_some (h : mm.Valid) :
    scan addr mm.mmapList = some v ↔ v ∈ mm.mmapList ∧ v.Holds addr := h.sorted.find_eq_some

theorem scan_eq_none {list : List Vma} : scan addr list = none ↔ ∀ v ∈ list, ¬ v.Holds addr :=
  Ranges.Sorted.find_eq_none

/-! ## Insertion -/

/-- Whether the assertions of `insert_vma_struct` hold. -/
abbrev Fits (vma : Vma) (list : List Vma) : Prop :=
  vma.vmStart < vma.vmEnd ∧ Ranges.Clear Vma.vmStart Vma.vmEnd vma list

theorem wp_checkVmaOverlap {prev next : Vma} {Q : Unit → Mm → Prop} {E : Stop → Prop}
    (hprev : prev.vmStart < prev.vmEnd) (hnext : next.vmStart < next.vmEnd) :
    Act.wp (checkVmaOverlap prev next) Q E mm ↔
      (prev.vmEnd ≤ next.vmStart → Q () mm) ∧ (¬ prev.vmEnd ≤ next.vmStart → E .panic) := by
  simp [checkVmaOverlap, hprev, hnext]

/-- On either side, only one of the two ways to be apart is left. -/
theorem wp_checkPrev {last : Option Vma} {Q : Unit → Mm → Prop} {E : Stop → Prop}
    (hvma : vma.vmStart < vma.vmEnd)
    (hlast : ∀ prev ∈ last, prev.vmStart < prev.vmEnd ∧ prev.vmStart ≤ vma.vmStart) :
    Act.wp (checkPrev last vma) Q E mm ↔
      ((∀ x ∈ last, x.vmEnd ≤ vma.vmStart ∨ vma.vmEnd ≤ x.vmStart) → Q () mm) ∧
        (¬ (∀ x ∈ last, x.vmEnd ≤ vma.vmStart ∨ vma.vmEnd ≤ x.vmStart) → E .panic) := by
  cases last with
  | none => simp [checkPrev]
  | some prev =>
    obtain ⟨hne, hle⟩ := hlast prev rfl
    have hside : prev.vmEnd ≤ vma.vmStart ∨ vma.vmEnd ≤ prev.vmStart ↔
        prev.vmEnd ≤ vma.vmStart := by omega
    simp [checkPrev, wp_checkVmaOverlap hne hvma, hside]

theorem wp_checkNext {head : Option Vma} {Q : Unit → Mm → Prop} {E : Stop → Prop}
    (hvma : vma.vmStart < vma.vmEnd)
    (hhead : ∀ next ∈ head, next.vmStart < next.vmEnd ∧ vma.vmStart < next.vmStart) :
    Act.wp (checkNext vma head) Q E mm ↔
      ((∀ x ∈ head, x.vmEnd ≤ vma.vmStart ∨ vma.vmEnd ≤ x.vmStart) → Q () mm) ∧
        (¬ (∀ x ∈ head, x.vmEnd ≤ vma.vmStart ∨ vma.vmEnd ≤ x.vmStart) → E .panic) := by
  cases head with
  | none => simp [checkNext]
  | some next =>
    obtain ⟨hne, hlt⟩ := hhead next rfl
    have hside : next.vmEnd ≤ vma.vmStart ∨ vma.vmEnd ≤ next.vmStart ↔
        vma.vmEnd ≤ next.vmStart := by omega
    simp [checkNext, wp_checkVmaOverlap hvma hne, hside]

/-- **`insert_vma_struct`**: an area that meets no other gets its place, and any other fails an
assertion. -/
theorem Mm.Valid.wp_insertVmaStruct (h : mm.Valid) {Q : Unit → Mm → Prop} {E : Stop → Prop} :
    Act.wp (insertVmaStruct vma) Q E mm ↔
      (Fits vma mm.mmapList → Q () { mm with
        mmapList := Ranges.insert Vma.vmStart vma mm.mmapList
        mapCount := mm.mapCount + 1 }) ∧ (¬ Fits vma mm.mmapList → E .panic) := by
  rw [Fits, h.sorted.clear_iff, insertVmaStruct, Act.wp_bind, Act.wp_require]
  by_cases hvma : vma.vmStart < vma.vmEnd
  · have hprev : ∀ prev ∈ (Ranges.upTo Vma.vmStart vma mm.mmapList).getLast?,
        prev.vmStart < prev.vmEnd ∧ prev.vmStart ≤ vma.vmStart := fun prev hp =>
      ⟨h.sorted.nonempty prev (Ranges.mem_of_mem_upTo (List.mem_of_getLast? hp)),
        Ranges.lo_le_of_mem_upTo (List.mem_of_getLast? hp)⟩
    have hnext : ∀ next ∈ (Ranges.beyond Vma.vmStart vma mm.mmapList).head?,
        next.vmStart < next.vmEnd ∧ vma.vmStart < next.vmStart := fun next hn =>
      ⟨h.sorted.nonempty next (Ranges.mem_of_mem_beyond (List.mem_of_head? hn)),
        h.sorted.lt_of_mem_beyond (List.mem_of_head? hn)⟩
    simp only [Act.wp_bind, Act.wp_get, Act.wp_modify]
    rw [wp_checkPrev hvma hprev, wp_checkNext hvma hnext]
    tauto
  · tauto

/-- The areas with one more are an address space. -/
theorem Mm.Valid.insert (h : mm.Valid) (hfits : Fits vma mm.mmapList) :
    Mm.Valid { mm with
      mmapList := Ranges.insert Vma.vmStart vma mm.mmapList
      mapCount := mm.mapCount + 1 } := by
  refine ⟨h.sorted.insert hfits.1 hfits.2, ?_, fun v hv =>
    Ranges.mem_insert.mpr (.inr (h.cache v hv))⟩
  dsimp only
  rw [h.count, Ranges.length_insert]
  exact (Nat.cast_succ _).symm

/-! ## Any sequence of insertions and queries -/

/-- **A run**: areas that meet no other are inserted, and any addresses are asked for. -/
inductive VmaRun : Mm → Prop
  | mmCreate : VmaRun mmCreate
  | insertVmaStruct {mm mm' : Mm} {vma : Vma} : VmaRun mm → Fits vma mm.mmapList →
      insertVmaStruct vma mm = .ok ((), mm') → VmaRun mm'
  | findVma {mm mm' : Mm} {addr : ℕ} {vma : Option Vma} : VmaRun mm →
      findVma addr mm = .ok (vma, mm') → VmaRun mm'

theorem VmaRun.valid (h : VmaRun mm) : mm.Valid := by
  induction h with
  | mmCreate => exact mmCreate_valid
  | insertVmaStruct _ hfits hrun ih =>
    exact Act.wp_of_ok ((ih.wp_insertVmaStruct (Q := fun _ mm => mm.Valid)
      (E := fun _ => False)).mpr ⟨fun _ => ih.insert hfits, fun hno => absurd hfits hno⟩) hrun
  | findVma _ hrun ih =>
    exact Act.wp_of_ok (ih.wp_findVma (E := fun _ => False) (Q := fun _ mm => mm.Valid).mpr
      ih.cached) hrun

/-- **The cache is transparent**: after any insertions and queries the list is in order, counted, and
holds the area in the cache; an area that meets no other can be inserted; and every query is answered
as by the walk over the list, with the one area that holds the address. -/
theorem vma_run (h : VmaRun mm) : mm.Valid ∧
    (∀ vma, Fits vma mm.mmapList → ∃ mm', insertVmaStruct vma mm = .ok ((), mm') ∧
      mm'.mmapList.Perm (vma :: mm.mmapList)) ∧
    ∀ addr, ∃ mm', findVma addr mm = .ok (scan addr mm.mmapList, mm') ∧
      mm'.mmapList = mm.mmapList ∧
      ∀ v, scan addr mm.mmapList = some v ↔ v ∈ mm.mmapList ∧ v.vmStart ≤ addr ∧ addr < v.vmEnd := by
  have hvalid := h.valid
  refine ⟨hvalid, fun vma hfits => ?_, fun addr => ⟨_, hvalid.findVma_eq, rfl,
    fun v => hvalid.scan_eq_some⟩⟩
  obtain ⟨⟨⟩, mm', hrun, hperm⟩ := Act.wp_false_iff.mp (hvalid.wp_insertVmaStruct
    (Q := fun _ mm' => mm'.mmapList.Perm (vma :: mm.mmapList)).mpr
      ⟨fun _ => Ranges.insert_perm, fun hno => absurd hfits hno⟩)
  exact ⟨mm', hrun, hperm⟩

/-- Two areas that come in falling order, with a query between. -/
theorem vma_run_two : ∃ mm, VmaRun mm ∧ mm.mmapList = [⟨0x1000, 0x2000, 1⟩, ⟨0x3000, 0x4000, 1⟩] ∧
    mm.mmapCache = some ⟨0x3000, 0x4000, 1⟩ ∧ mm.Valid ∧ scan 0x1fff mm.mmapList ≠ none := by
  have h₁ := VmaRun.insertVmaStruct .mmCreate
    (show Fits ⟨0x3000, 0x4000, 1⟩ mmCreate.mmapList by decide) rfl
  have h₂ := VmaRun.findVma h₁ (show findVma 0x3500 _ = .ok (some ⟨0x3000, 0x4000, 1⟩, _) from rfl)
  have h₃ := VmaRun.insertVmaStruct h₂ (show Fits ⟨0x1000, 0x2000, 1⟩ _ by decide) rfl
  exact ⟨_, h₃, rfl, rfl, (vma_run h₃).1, by decide⟩

/-! ## `mm_map` -/

/-- A request that is to be refused: its pages are no range of user addresses, or meet an area. -/
def Refused (mm : Mm) (addr len : ℕ) : Prop :=
  ¬ UserAccess (mapStart addr) (mapEnd addr len) ∨
    ∃ v ∈ mm.mmapList, v.vmStart < mapEnd addr len ∧ mapStart addr < v.vmEnd

/-- **What `mm_map` is to do**: refuse the request and keep the areas, or add the new one, if there is
memory for it; and fail no assertion. -/
structure MapRight (mm : Mm) (addr len vmFlags : ℕ) : Prop where
  refused : Refused mm addr len → ∀ granted, ∃ mm', mmMap addr len vmFlags granted mm =
    .ok (-E_INVAL, mm') ∧ mm'.mmapList = mm.mmapList ∧ mm'.Valid
  mapped : ¬ Refused mm addr len → ∃ mm', mmMap addr len vmFlags true mm = .ok (0, mm') ∧
    mm'.mmapList.Perm (⟨mapStart addr, mapEnd addr len, vmFlags⟩ :: mm.mmapList) ∧ mm'.Valid
  returns : ∀ granted, ∃ ret mm', mmMap addr len vmFlags granted mm = .ok (ret, mm')

/-- **The request runs into an area**: its pages start outside every area, and one starts among them. -/
def RunsInto (mm : Mm) (addr len : ℕ) : Prop :=
  UserAccess (mapStart addr) (mapEnd addr len) ∧ (∀ v ∈ mm.mmapList, ¬ v.Holds (mapStart addr)) ∧
    ∃ v ∈ mm.mmapList, mapStart addr < v.vmStart ∧ v.vmStart < mapEnd addr len

namespace Mm.Valid

/-- **`mm_map`**, by the area that `find_vma` finds at the start. -/
theorem wp_mmMap (h : mm.Valid) {granted : Bool} {Q : ℤ → Mm → Prop} {E : Stop → Prop} :
    Act.wp (mmMap addr len vmFlags granted) Q E mm ↔
      (UserAccess (mapStart addr) (mapEnd addr len) →
        ((scan (mapStart addr) mm.mmapList).any (fun v => v.vmStart < mapEnd addr len) = true →
          Q (-E_INVAL) (mm.cached (scan (mapStart addr) mm.mmapList))) ∧
        (¬ (scan (mapStart addr) mm.mmapList).any (fun v => v.vmStart < mapEnd addr len) = true →
          (granted = true → Act.wp (insertVmaStruct ⟨mapStart addr, mapEnd addr len, vmFlags⟩)
            (fun _ => Q 0) E (mm.cached (scan (mapStart addr) mm.mmapList))) ∧
          (¬ granted = true → Q (-E_NO_MEM) (mm.cached (scan (mapStart addr) mm.mmapList))))) ∧
      (¬ UserAccess (mapStart addr) (mapEnd addr len) → Q (-E_INVAL) mm) := by
  simp only [mmMap, Act.wp_ite, Act.wp_bind, h.wp_findVma, Act.wp_pure]

/-- An area found at the start is one that the request meets. -/
theorem any_iff (h : mm.Valid) (huser : UserAccess (mapStart addr) (mapEnd addr len)) :
    (scan (mapStart addr) mm.mmapList).any (fun v => v.vmStart < mapEnd addr len) = true ↔
      ∃ v ∈ mm.mmapList, v.Holds (mapStart addr) := by
  cases hs : scan (mapStart addr) mm.mmapList with
  | none => simpa using scan_eq_none.mp hs
  | some v =>
    obtain ⟨hv, ha⟩ := h.scan_eq_some.mp hs
    have hlt : v.vmStart < mapEnd addr len := lt_of_le_of_lt ha.1 huser.2.1
    exact iff_of_true (by simpa using hlt) ⟨v, hv, ha⟩

/-- Where no area is at the start, the new one fits unless it runs into one. -/
theorem fits_iff (h : mm.Valid) (huser : UserAccess (mapStart addr) (mapEnd addr len))
    (hnone : ∀ v ∈ mm.mmapList, ¬ v.Holds (mapStart addr)) :
    Fits ⟨mapStart addr, mapEnd addr len, vmFlags⟩ mm.mmapList ↔
      ∀ v ∈ mm.mmapList, ¬ (mapStart addr < v.vmStart ∧ v.vmStart < mapEnd addr len) := by
  refine (and_iff_right huser.2.1).trans (forall₂_congr fun v hv => ?_)
  have hno : ¬ (v.vmStart ≤ mapStart addr ∧ mapStart addr < v.vmEnd) := hnone v hv
  have hne := h.sorted.nonempty v hv
  dsimp only
  omega

end Mm.Valid

/-- Where an area is at the start, the request is refused. -/
theorem Mm.Valid.mmMap_at (h : mm.Valid) (vmFlags : ℕ)
    (huser : UserAccess (mapStart addr) (mapEnd addr len))
    (hat : ∃ v ∈ mm.mmapList, v.Holds (mapStart addr)) (granted : Bool) :
    mmMap addr len vmFlags granted mm =
      .ok (-E_INVAL, mm.cached (scan (mapStart addr) mm.mmapList)) := by
  have hany := (h.any_iff huser).mpr hat
  obtain ⟨ret, mm', hrun, hret, hmm⟩ := Act.wp_false_iff.mp (h.wp_mmMap (Q := fun ret mm' =>
    ret = -E_INVAL ∧ mm' = mm.cached (scan (mapStart addr) mm.mmapList)).mpr
      ⟨fun _ => ⟨fun _ => ⟨rfl, rfl⟩, fun hno => absurd hany hno⟩, fun hno => absurd huser hno⟩)
  rwa [hret, hmm] at hrun

/-- Where none is, the run depends on whether the new area fits. -/
theorem Mm.Valid.wp_mmMap_free (h : mm.Valid) (huser : UserAccess (mapStart addr) (mapEnd addr len))
    (hnone : ∀ v ∈ mm.mmapList, ¬ v.Holds (mapStart addr)) (granted : Bool) {Q : ℤ → Mm → Prop}
    {E : Stop → Prop} : Act.wp (mmMap addr len vmFlags granted) Q E mm ↔
      (granted = true → (Fits ⟨mapStart addr, mapEnd addr len, vmFlags⟩ mm.mmapList → Q 0 { mm with
          mmapList := Ranges.insert Vma.vmStart ⟨mapStart addr, mapEnd addr len, vmFlags⟩ mm.mmapList
          mapCount := mm.mapCount + 1 }) ∧
        (¬ Fits ⟨mapStart addr, mapEnd addr len, vmFlags⟩ mm.mmapList → E .panic)) ∧
      (¬ granted = true → Q (-E_NO_MEM) mm) := by
  have hscan : scan (mapStart addr) mm.mmapList = none := scan_eq_none.mpr hnone
  have hcached : mm.cached none = mm := rfl
  rw [h.wp_mmMap, hscan, hcached, h.wp_insertVmaStruct]
  simp [huser]

/-- **`mm_map` does what it is to do, unless the request runs into an area**: then the area at the start
is no obstacle, and the insertion fails an assertion. -/
theorem mmMap_iff (h : mm.Valid) : MapRight mm addr len vmFlags ↔ ¬ RunsInto mm addr len := by
  constructor
  · rintro ⟨-, -, hreturns⟩ ⟨huser, hnone, v, hv, hmeet⟩
    obtain ⟨ret, mm', hrun⟩ := hreturns true
    have hfits : ¬ Fits ⟨mapStart addr, mapEnd addr len, vmFlags⟩ mm.mmapList := fun hfits =>
      (h.fits_iff huser hnone).mp hfits v hv hmeet
    exact Act.wp_of_ok (Q := fun _ _ => False) (E := fun _ => True)
      ((h.wp_mmMap_free huser hnone true).mpr
        ⟨fun _ => ⟨fun hyes => hfits hyes, fun _ => trivial⟩, fun hno => absurd rfl hno⟩) hrun
  · intro hclear
    by_cases huser : UserAccess (mapStart addr) (mapEnd addr len)
    · by_cases hat : ∃ v ∈ mm.mmapList, v.Holds (mapStart addr)
      · have hrun := h.mmMap_at vmFlags huser hat
        obtain ⟨v, hv, ha⟩ := hat
        have hmeet : v.vmStart < mapEnd addr len := lt_of_le_of_lt ha.1 huser.2.1
        exact ⟨fun _ granted => ⟨_, hrun granted, rfl, h.cached⟩,
          fun hno => absurd (.inr ⟨v, hv, hmeet, ha.2⟩) hno, fun granted => ⟨_, _, hrun granted⟩⟩
      · have hnone : ∀ v ∈ mm.mmapList, ¬ v.Holds (mapStart addr) := fun v hv ha => hat ⟨v, hv, ha⟩
        have hfits : Fits ⟨mapStart addr, mapEnd addr len, vmFlags⟩ mm.mmapList :=
          (h.fits_iff huser hnone).mpr fun v hv hmeet => hclear ⟨huser, hnone, v, hv, hmeet⟩
        have hmapped : ∃ mm', mmMap addr len vmFlags true mm = .ok (0, mm') ∧
            mm'.mmapList.Perm (⟨mapStart addr, mapEnd addr len, vmFlags⟩ :: mm.mmapList) ∧
              mm'.Valid := by
          obtain ⟨ret, mm', hrun, rfl, hpost⟩ := Act.wp_false_iff.mp ((h.wp_mmMap_free huser hnone true
            (Q := fun ret mm' => ret = 0 ∧ mm'.mmapList.Perm
              (⟨mapStart addr, mapEnd addr len, vmFlags⟩ :: mm.mmapList) ∧ mm'.Valid)).mpr
              ⟨fun _ => ⟨fun _ => ⟨rfl, Ranges.insert_perm, h.insert hfits⟩,
                fun hno => absurd hfits hno⟩, fun hno => absurd rfl hno⟩)
          exact ⟨mm', hrun, hpost⟩
        refine ⟨?_, fun _ => hmapped, fun granted => ?_⟩
        · rintro (hno | ⟨v, hv, hlt, hgt⟩)
          · exact absurd huser hno
          · have := hfits.2 v hv
            dsimp only at this
            omega
        · obtain ⟨ret, mm', hrun, -⟩ := Act.wp_false_iff.mp ((h.wp_mmMap_free huser hnone
            granted (Q := fun _ _ => True)).mpr
              ⟨fun _ => ⟨fun _ => trivial, fun hno => absurd hfits hno⟩, fun _ => trivial⟩)
          exact ⟨ret, mm', hrun⟩
    · have hrun : ∀ granted, mmMap addr len vmFlags granted mm = .ok (-E_INVAL, mm) := fun granted => by
        obtain ⟨ret, mm', hrun, hret, hmm⟩ := Act.wp_false_iff.mp (h.wp_mmMap
          (Q := fun ret mm' => ret = -E_INVAL ∧ mm' = mm).mpr
            ⟨fun hyes => absurd hyes huser, fun _ => ⟨rfl, rfl⟩⟩)
        rwa [hret, hmm] at hrun
      exact ⟨fun _ granted => ⟨_, hrun granted, rfl, h⟩, fun hno => absurd (.inl huser) hno,
        fun granted => ⟨_, _, hrun granted⟩⟩

/-- One area, of one page. -/
def onePage : Mm := ⟨[⟨0x500000, 0x501000, VM_READ⟩], none, 1⟩

theorem onePage_valid : onePage.Valid :=
  ⟨⟨by decide, by decide⟩, rfl, fun _ h => (nomatch h)⟩

/-- A request that starts in the area is refused, and one that ends where it starts is granted. -/
theorem mmMap_iff_onePage : MapRight onePage 0x500800 0x200000 VM_READ ∧
    MapRight onePage 0x400000 0x100000 VM_READ :=
  ⟨(mmMap_iff onePage_valid).mpr (by unfold RunsInto; decide),
    (mmMap_iff onePage_valid).mpr (by unfold RunsInto; decide)⟩

/-- **A request that begins below the area and ends above it** passes the test, and fails the assertion
of the insertion. -/
theorem mmMap_panics : mmMap 0x400000 0x200000 VM_READ true onePage = .error .panic ∧
    Refused onePage 0x400000 0x200000 ∧ ¬ MapRight onePage 0x400000 0x200000 VM_READ := by
  have hrun : mmMap 0x400000 0x200000 VM_READ true onePage = .error .panic := rfl
  refine ⟨hrun, by unfold Refused; decide, fun h => ?_⟩
  obtain ⟨ret, mm', hret⟩ := h.returns true
  rw [hrun] at hret
  exact nomatch hret

end UCore.Vmm
