import UCore.Mm.SlubRun

/-!
# Mm/SlubAddress — the address translation of the SLUB allocator

    page ──page2pa──▸ pa ──+ va_pa_offset──▸ where the kernel maps it
                       └───+ KERNBASE──────▸ page2kva ──PADDR──▸ panic

`lab2/kern/mm/slub.c` adds `KERNBASE` to a physical address, and `PADDR` takes `va_pa_offset` off a
virtual one.  The two differ by the address the kernel is loaded at, and the first sum wraps round
2⁶⁴ to an address below `KERNBASE`, which `PADDR` refuses.
-/

namespace UCore.Slub

/-- `KERNBASE`. -/
abbrev KERNBASE : ℕ := 0xFFFFFFFFC0200000

/-- `PHYSICAL_MEMORY_OFFSET`, the value of `va_pa_offset`. -/
abbrev PHYSICAL_MEMORY_OFFSET : ℕ := 0xFFFFFFFF40000000

/-- `DRAM_BASE`. -/
abbrev DRAM_BASE : ℕ := 0x80000000

/-- `nbase`: the number of the page at index 0. -/
def nbase : ℕ := DRAM_BASE / PGSIZE

/-- `page2pa`: the page number, shifted by `PGSHIFT`. -/
def page2pa (page : ℕ) : ℕ := u64 ((page + nbase) * PGSIZE)

/-- `page2kva` of `slub.c`. -/
def page2kva (page : ℕ) : ℕ := u64 (KERNBASE + page2pa page)

/-- `PADDR`. -/
def paddr (kva : ℕ) : Except Stop ℕ :=
  if kva < KERNBASE then .error .panic else .ok (u64 (kva + 2 ^ 64 - PHYSICAL_MEMORY_OFFSET))

/-- `pa2page`. -/
def pa2page (npage pa : ℕ) : Except Stop ℕ :=
  if npage ≤ pa / PGSIZE then .error .panic else .ok (pa / PGSIZE - nbase)

/-- `kva2page` of `slub.c`. -/
def kva2page (npage kva : ℕ) : Except Stop ℕ := paddr kva >>= pa2page npage

/-- `slub_object_to_page`, with the translation of `slub.c`. -/
def objectToPage (npage obj : ℕ) : Except Stop ℕ := kva2page npage (obj - obj % PGSIZE)

/-- The pages of the machine: `npage` is a 64-bit address divided by the size of a page. -/
def Managed (npage page : ℕ) : Prop := page + nbase < npage ∧ npage ≤ 2 ^ 64 / PGSIZE

variable {npage page kva obj base n : ℕ}

namespace Managed

theorem page2pa_eq (h : Managed npage page) : page2pa page = (page + nbase) * 4096 := by
  obtain ⟨hlt, hle⟩ := h
  change npage ≤ 2 ^ 52 at hle
  exact u64_of_lt (show (page + nbase) * 4096 < 2 ^ 64 by omega)

/-- **The sum wraps**: a page is translated to an address below `KERNBASE`. -/
theorem page2kva_eq (h : Managed npage page) :
    page2kva page = page * 4096 + 0x40200000 ∧ page2kva page + 4096 ≤ KERNBASE := by
  have hpa := h.page2pa_eq
  obtain ⟨hlt, hle⟩ := h
  change npage ≤ 2 ^ 52 at hle
  change page + 0x80000 < npage at hlt
  change page2pa page = (page + 0x80000) * 4096 at hpa
  change (0xFFFFFFFFC0200000 + page2pa page) % 2 ^ 64 = _ ∧
    (0xFFFFFFFFC0200000 + page2pa page) % 2 ^ 64 + 4096 ≤ 0xFFFFFFFFC0200000
  omega

/-- …which is not where the kernel maps it. -/
theorem page2kva_ne (h : Managed npage page) :
    page2kva page ≠ u64 (page2pa page + PHYSICAL_MEMORY_OFFSET) := by
  have hpa := h.page2pa_eq
  obtain ⟨hkva, -⟩ := h.page2kva_eq
  obtain ⟨hlt, hle⟩ := h
  change npage ≤ 2 ^ 52 at hle
  change page + 0x80000 < npage at hlt
  change page2pa page = (page + 0x80000) * 4096 at hpa
  change page2kva page ≠ (page2pa page + 0xFFFFFFFF40000000) % 2 ^ 64
  omega

end Managed

/-- `PADDR` refuses an address below `KERNBASE`. -/
theorem kva2page_of_lt (h : kva < KERNBASE) : kva2page npage kva = .error .panic := by
  rw [kva2page, paddr, if_pos h]
  rfl

/-- **No address in a page** can be translated back. -/
theorem Managed.objectToPage_eq (h : Managed npage page) (hlo : page2kva page ≤ obj)
    (hhi : obj < page2kva page + PGSIZE) : objectToPage npage obj = .error .panic := by
  obtain ⟨-, hle⟩ := h.page2kva_eq
  change obj < page2kva page + 4096 at hhi
  exact kva2page_of_lt (by omega)

/-! ## The objects of `slub_alloc` -/

/-- The map from pages to addresses that `slub_alloc` uses; it never goes back. -/
def kvaMap : KvaMap := ⟨page2kva, fun kva => (kva - 0x40200000) / 4096⟩

/-- The slabs are aligned, and apart. -/
theorem mapped_kvaMap (hn : base + n + nbase ≤ npage) (hle : npage ≤ 2 ^ 64 / PGSIZE) :
    Mapped kvaMap base n := by
  have hman : ∀ page, page < base + n → Managed npage page := fun page hp => ⟨by omega, hle⟩
  refine ⟨fun page _ hp => ?_, fun page _ hp => ?_⟩
  · change 4096 ∣ page2kva page
    rw [(hman page hp).page2kva_eq.1]
    omega
  · change (page2kva page - 0x40200000) / 4096 = page
    rw [(hman page hp).page2kva_eq.1]
    omega

/-- **The translation never works.**  No page is mapped where `page2kva` says, `kva2page` stops at
every such address, and `slub_object_to_page` stops at every object that `slub_alloc` returns. -/
theorem slub_translation (hle : npage ≤ 2 ^ 64 / PGSIZE) :
    (∀ page, Managed npage page →
      page2kva page ≠ u64 (page2pa page + PHYSICAL_MEMORY_OFFSET) ∧
      kva2page npage (page2kva page) = .error .panic) ∧
    ∀ base n s live size obj t, base + n + nbase ≤ npage → Run kvaMap base n s live → size ≤ 2048 →
      slubAlloc kvaMap size s = .ok (some obj, t) → ∃ page, Managed npage page ∧
        page2kva page ≤ obj ∧ obj < page2kva page + PGSIZE ∧
        objectToPage npage obj = .error .panic := by
  refine ⟨fun page h => ⟨h.page2kva_ne, ?_⟩, fun base n s live size obj t hn hrun hsize halloc => ?_⟩
  · have := h.page2kva_eq.2
    exact kva2page_of_lt (by omega)
  · have hm := mapped_kvaMap hn hle
    obtain ⟨free, on, objs, hk⟩ := (hrun.alloc hsize halloc).kept hm
    obtain ⟨i, a, -, hi, hslot, rfl, hfit⟩ := hk.slot_of_live (Function.update_self ..)
    obtain ⟨page, ho, hlo, hhi⟩ := Kept.slot_page hi hslot
    have hroom := lt_strideOf hi
    have hpage := hk.pages.owns_mem hi ho
    have hman : Managed npage page := ⟨by omega, hle⟩
    change page2kva page ≤ a at hlo
    change a + strideOf i ≤ page2kva page + 4096 at hhi
    have hin : a + 16 < page2kva page + PGSIZE := by
      change _ < _ + 4096
      omega
    exact ⟨page, hman, by omega, hin, hman.objectToPage_eq (by omega) hin⟩

/-- The first page of the kernel, at the physical address `0x80200000` of a machine with 128 MiB. -/
theorem slub_translation_first : Managed 0x88000 0x200 ∧ page2kva 0x200 = 0x40400000 ∧
    u64 (page2pa 0x200 + PHYSICAL_MEMORY_OFFSET) = 0xFFFFFFFFC0200000 ∧
    kva2page 0x88000 (page2kva 0x200) = .error .panic :=
  ⟨⟨by decide, by decide⟩, by decide, by decide, by decide⟩

/-- …and the next one. -/
theorem slub_translation_next :
    page2kva 0x201 ≠ u64 (page2pa 0x201 + PHYSICAL_MEMORY_OFFSET) ∧
    kva2page 0x88000 (page2kva 0x201) = .error .panic :=
  (@slub_translation 0x88000 (by decide)).1 0x201 ⟨by decide, by decide⟩

end UCore.Slub
