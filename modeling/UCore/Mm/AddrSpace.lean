import UCore.Mm.PageInsert

/-!
# Mm/AddrSpace — areas, and the memory under them

    mm ──areas──▸ [vm_start, vm_end) …        pgdir ──tables──▸ pages

What `dup_mmap` and `load_icode` work on: the areas of an `mm_struct`, and the memory.  The areas'
records are the heap's, and the memory of the model is that of the pages.
-/

namespace UCore.Paging

open Vmm Radix

/-- An `mm_struct`, and the memory. -/
structure AddrSpace where
  mm : Mm
  phys : Phys

/-- A call on both. -/
abbrev SpaceCall (α : Type) := Act AddrSpace Fault α

/-- A call on the areas fails as it does… -/
def Fault.ofStop : Stop → Fault
  | .panic => .panic
  | .spin => .spin

/-- …and is a call on both… -/
def onMm {α : Type} (m : Vmm.Call α) : SpaceCall α :=
  Act.zoom AddrSpace.mm (fun mm s => { s with mm := mm }) (Act.relay Fault.ofStop m)

/-- …as is one on the memory. -/
def onPhys {α : Type} (m : Call α) : SpaceCall α :=
  Act.zoom AddrSpace.phys (fun phys s => { s with phys := phys }) m

/-- An allocation has failed. -/
def starve : Call Unit := modify fun s => { s with starved := true }

section Rules

variable {α : Type} {s : AddrSpace} {Q : α → AddrSpace → Prop} {E : Fault → Prop}

@[simp] theorem wp_onMm (m : Vmm.Call α) : Act.wp (onMm m) Q E s ↔
    Act.wp m (fun a mm => Q a { s with mm := mm }) (fun e => E (.ofStop e)) s.mm := by
  rw [onMm, Act.wp_zoom, Act.wp_relay]

@[simp] theorem wp_onPhys (m : Call α) : Act.wp (onPhys m) Q E s ↔
    Act.wp m (fun a phys => Q a { s with phys := phys }) E s.phys := by
  rw [onPhys, Act.wp_zoom]

end Rules

/-! ## A new page directory -/

/-- **A page directory with no user address mapped.** -/
structure FreshDir (pmm : Pmm) (s : Phys) (dst : ℕ) : Prop where
  used : dst ∈ s.used
  lt : dst < pmm.npage
  free : ∀ i < 511, tableNext s dst i = none

section FreshDir

variable {pmm : Pmm} {s : Phys} {dst boot la g : ℕ} {q : List ℕ}

/-- No path goes anywhere. -/
theorem FreshDir.walk_eq (h : FreshDir pmm s dst) (hq : UserPath q)
    (hw : walk (tableNext s) dst q = some g) : q = [] ∧ g = dst := by
  cases q with
  | nil => exact ⟨rfl, (Option.some.inj hw).symm⟩
  | cons i q =>
    rw [walk, h.free i (hq.2.1 i rfl)] at hw
    cases hw

theorem FreshDir.tree (h : FreshDir pmm s dst) : UserTree pmm s dst := by
  refine ⟨⟨fun _ _ => UserPath.init, fun q q' f hq hq' hw hw' => ?_⟩, fun q f hq hw => ?_⟩
  · rw [(h.walk_eq hq hw).1, (h.walk_eq hq' hw').1]
  · rw [(h.walk_eq hq hw).2]
    exact ⟨h.used, h.lt⟩

theorem FreshDir.mapping_eq (h : FreshDir pmm s dst) (hla : la < LOWTOP) : mapping s dst la = none := by
  rw [mapping_eq_none, Option.eq_none_iff_forall_not_mem]
  exact fun g hw => nomatch (h.walk_eq (userPath hla) hw).1

end FreshDir

/-! ## The areas of user space -/

/-- An address is in one of some areas. -/
def InAreas (areas : List Vma) (la : ℕ) : Prop := ∃ v ∈ areas, v.Holds la

theorem inAreas_cons {v : Vma} {vmas : List Vma} {la : ℕ} :
    InAreas (v :: vmas) la ↔ InAreas vmas la ∨ v.vmStart ≤ la ∧ la < v.vmEnd := by
  simp only [InAreas, List.mem_cons, exists_eq_or_imp]
  exact or_comm

/-- **The areas that `mm_map` makes**: of whole pages of user space. -/
structure UserAreas (mm : Mm) : Prop where
  valid : mm.Valid
  access : ∀ v ∈ mm.mmapList, UserAccess v.vmStart v.vmEnd
  start : ∀ v ∈ mm.mmapList, PGSIZE ∣ v.vmStart
  stop : ∀ v ∈ mm.mmapList, PGSIZE ∣ v.vmEnd

namespace UserAreas

variable {mm mm' : Mm} {v : Vma} {addr len vmFlags la : ℕ}

theorem mmCreate : UserAreas mmCreate :=
  ⟨mmCreate_valid, fun _ h => (nomatch h), fun _ h => (nomatch h), fun _ h => (nomatch h)⟩

/-- A new area that `mm_map` inserts is one more of them. -/
theorem insert (h : UserAreas mm) (huser : UserAccess (mapStart addr) (mapEnd addr len))
    (hfits : Fits ⟨mapStart addr, mapEnd addr len, vmFlags⟩ mm.mmapList) :
    UserAreas { mm with
      mmapList := Ranges.insert Vma.vmStart ⟨mapStart addr, mapEnd addr len, vmFlags⟩ mm.mmapList
      mapCount := mm.mapCount + 1 } := by
  have hall : ∀ {P : Vma → Prop}, P ⟨mapStart addr, mapEnd addr len, vmFlags⟩ →
      (∀ v ∈ mm.mmapList, P v) → ∀ v ∈ Ranges.insert Vma.vmStart
        ⟨mapStart addr, mapEnd addr len, vmFlags⟩ mm.mmapList, P v := fun hnew hold v hv => by
    rcases Ranges.mem_insert.mp hv with rfl | hv
    · exact hnew
    · exact hold v hv
  have hstart : PGSIZE ∣ mapStart addr := dvd_roundDown _ _
  have hstop : PGSIZE ∣ mapEnd addr len := dvd_roundDown _ _
  refine ⟨h.valid.insert hfits, ?_, ?_, ?_⟩
  · exact hall (P := fun v => UserAccess v.vmStart v.vmEnd) huser h.access
  · exact hall (P := fun v => PGSIZE ∣ v.vmStart) hstart h.start
  · exact hall (P := fun v => PGSIZE ∣ v.vmEnd) hstop h.stop

theorem cached (h : UserAreas mm) : UserAreas (mm.cached (scan addr mm.mmapList)) :=
  ⟨h.valid.cached, h.access, h.start, h.stop⟩

/-- **Whatever `mm_map` returns**, the areas are of whole pages of user space. -/
theorem mmMap (h : UserAreas mm) {granted : Bool} {ret : ℤ}
    (hrun : mmMap addr len vmFlags granted mm = .ok (ret, mm')) : UserAreas mm' := by
  have hwp : Act.wp (Vmm.mmMap addr len vmFlags granted) (fun _ mm => UserAreas mm) (fun _ => True) mm := by
    rw [h.valid.wp_mmMap]
    refine ⟨fun huser => ⟨fun _ => h.cached, fun _ => ⟨fun _ => ?_, fun _ => h.cached⟩⟩, fun _ => h⟩
    rw [h.valid.cached.wp_insertVmaStruct]
    exact ⟨fun hfits => h.cached.insert huser hfits, fun _ => trivial⟩
  exact Act.wp_of_ok hwp hrun

/-- An address and the start of its page are in the same areas. -/
theorem holds_roundDown (h : UserAreas mm) (hv : v ∈ mm.mmapList) :
    v.Holds (roundDown la PGSIZE) ↔ v.Holds la := by
  have hstart : v.vmStart % 4096 = 0 := Nat.mod_eq_zero_of_dvd (h.start v hv)
  have hstop : v.vmEnd % 4096 = 0 := Nat.mod_eq_zero_of_dvd (h.stop v hv)
  change v.vmStart ≤ la - la % 4096 ∧ la - la % 4096 < v.vmEnd ↔ v.vmStart ≤ la ∧ la < v.vmEnd
  omega

end UserAreas

/-- An address maps to the page that the start of its page does. -/
theorem mapping_roundDown {s : Phys} {pgdir la : ℕ} :
    mapping s pgdir (roundDown la PGSIZE) = mapping s pgdir la := by
  refine mapping_of_page ?_
  change (la - la % 4096) / 4096 = la / 4096
  omega

end UCore.Paging
