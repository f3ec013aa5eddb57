import UCore.Mm.PageInsert

/-!
# Mm/UserView — memory as a process sees it

    a ──mapping──▸ page p, bits      view a = (byte a % PGSIZE of p, bits)

What is at each user address, through the tables.  A new page, and bytes put in a page, change the view
at their own addresses and nowhere else.
-/

namespace UCore.Paging

open Vmm Radix

/-- What a process finds at an address: a byte, and the bits of `PTE_USER`. -/
def view (s : Phys) (pgdir a : ℕ) : Option (UInt8 × ℕ) :=
  (mapping s pgdir a).map fun m => (s.page m.1 (a % PGSIZE), m.2)

/-- `n` bytes put in a page. -/
def stored (s : Phys) (p off n : ℕ) (bytes : ℕ → UInt8) : Phys :=
  { s with page := Function.update s.page p fun a =>
      if off ≤ a ∧ a < off + n then bytes (a - off) else s.page p a }

/-- A store of `n` bytes to a page: `memset`, or what a read of a file puts there.  One that runs past
the end of the page, for a size below zero, does not come back. -/
def fillPage (p off n : ℕ) (bytes : ℕ → UInt8) : Call Unit := do
  Act.require .spin (off + n ≤ PGSIZE)
  modify fun s => stored s p off n bytes

/-- A store to a user address.  One that faults is tried again for ever. -/
def storeUser (pgdir a : ℕ) (b : UInt8) : Call Unit := do
  match mapping (← get) pgdir a with
  | none => throw .spin
  | some (p, perm) =>
    if perm &&& PTE_W ≠ 0 then
      fillPage p (a % PGSIZE) 1 fun _ => b
    else
      throw .spin

/-- `memcpy` to user addresses. -/
def memcpyUser (pgdir dst : ℕ) (src : ℕ → UInt8) : ℕ → Call Unit
  | 0 => return ()
  | n + 1 => do
    storeUser pgdir dst (src 0)
    memcpyUser pgdir (u64 (dst + 1)) (fun i => src (i + 1)) n

variable {pmm : Pmm} {s s' s'' : Phys} {pgdir la a a' p perm off n k dst : ℕ} {b : UInt8}
  {bytes src src' : ℕ → UInt8}

theorem view_eq_none : view s pgdir a = none ↔ mapping s pgdir a = none := Option.map_eq_none_iff

theorem view_of_mapping (h : mapping s pgdir a = some (p, perm)) :
    view s pgdir a = some (s.page p (a % PGSIZE), perm) := by
  rw [view, h, Option.map_some]

/-- The view depends on the mapping, and on the page mapped to. -/
theorem view_congr (hmap : mapping s' pgdir a = mapping s pgdir a)
    (hpage : ∀ p perm, mapping s pgdir a = some (p, perm) →
      s'.page p (a % PGSIZE) = s.page p (a % PGSIZE)) : view s' pgdir a = view s pgdir a := by
  rw [view, view, hmap]
  cases hm : mapping s pgdir a with
  | none => rfl
  | some m => rw [Option.map_some, Option.map_some, hpage m.1 m.2 hm]

/-- **Two addresses that map to one page are in one page.** -/
theorem UserTree.page_eq (h : UserTree pmm s pgdir) (ha : a < LOWTOP) (ha' : a' < LOWTOP) {perm' : ℕ}
    (hm : mapping s pgdir a = some (p, perm)) (hm' : mapping s pgdir a' = some (p, perm')) :
    a / PGSIZE = a' / PGSIZE :=
  page_of_pathOf ha ha' (h.tree.inj _ _ p (userPath ha) (userPath ha') (walk_of_mapping hm)
    (walk_of_mapping hm'))

/-! ## Bytes put in a page -/

/-- **A store to a page that is mapped** changes the view where it stores. -/
theorem UserTree.stored (h : UserTree pmm s pgdir) (hla : la < LOWTOP)
    (hm : mapping s pgdir la = some (p, perm)) (off n : ℕ) (bytes : ℕ → UInt8) :
    UserTree pmm (stored s p off n bytes) pgdir ∧
      (∀ a, a < LOWTOP → mapping (Paging.stored s p off n bytes) pgdir a = mapping s pgdir a) ∧
      (∀ a, a < LOWTOP → a / PGSIZE = la / PGSIZE → off ≤ a % PGSIZE → a % PGSIZE < off + n →
        view (Paging.stored s p off n bytes) pgdir a = some (bytes (a % PGSIZE - off), perm)) ∧
      ∀ a, a < LOWTOP → ¬ (a / PGSIZE = la / PGSIZE ∧ off ≤ a % PGSIZE ∧ a % PGSIZE < off + n) →
        view (Paging.stored s p off n bytes) pgdir a = view s pgdir a := by
  have hp : ¬ IsTable s pgdir p := h.not_isTable hla (walk_of_mapping hm)
  have hused : s.used ⊆ (Paging.stored s p off n bytes).used := Finset.Subset.refl _
  obtain ⟨htree, -, hmap⟩ := h.frame hused
    fun g hg => Function.update_of_ne (show g ≠ p from fun heq => hp (heq ▸ hg)) ..
  refine ⟨htree, hmap, fun a ha hpage hlo hhi => ?_, fun a ha hno => ?_⟩
  · have hma : mapping (Paging.stored s p off n bytes) pgdir a = some (p, perm) :=
      (hmap a ha).trans ((mapping_of_page hpage).trans hm)
    rw [view_of_mapping hma, Paging.stored]
    dsimp only
    rw [Function.update_self, if_pos ⟨hlo, hhi⟩]
  · refine view_congr (hmap a ha) fun p' perm' hm' => ?_
    by_cases hpp : p' = p
    · subst hpp
      have hout : ¬ (off ≤ a % PGSIZE ∧ a % PGSIZE < off + n) := fun hin =>
        hno ⟨h.page_eq ha hla hm' hm, hin⟩
      rw [Paging.stored]
      dsimp only
      rw [Function.update_self, if_neg hout]
    · rw [Paging.stored]
      dsimp only
      rw [Function.update_of_ne hpp]

/-- **What stores have made of the view**: the bytes `src` from `dst` on, and the rest as it was. -/
structure Stored (pmm : Pmm) (pgdir dst n : ℕ) (src : ℕ → UInt8) (s s' : Phys) : Prop where
  tree : UserTree pmm s' pgdir
  mapping : ∀ a, a < LOWTOP → mapping s' pgdir a = mapping s pgdir a
  value : ∀ i < n, ∃ perm, view s' pgdir (dst + i) = some (src i, perm)
  frame : ∀ a, a < LOWTOP → a < dst ∨ dst + n ≤ a → view s' pgdir a = view s pgdir a

namespace Stored

theorem refl (h : UserTree pmm s pgdir) : Stored pmm pgdir dst 0 src s s :=
  ⟨h, fun _ _ => rfl, fun _ hi => absurd hi (Nat.not_lt_zero _), fun _ _ _ => rfl⟩

/-- One byte first, then the others. -/
theorem cons (h : Stored pmm pgdir dst 1 (fun _ => src 0) s s')
    (h' : Stored pmm pgdir (dst + 1) n (fun i => src (i + 1)) s' s'') (hdst : dst < LOWTOP) :
    Stored pmm pgdir dst (n + 1) src s s'' where
  tree := h'.tree
  mapping a ha := (h'.mapping a ha).trans (h.mapping a ha)
  value i hi := by
    cases i with
    | zero =>
      obtain ⟨perm, hv⟩ := h.value 0 one_pos
      exact ⟨perm, (h'.frame dst hdst (.inl (Nat.lt_succ_self dst))).trans hv⟩
    | succ i =>
      obtain ⟨perm, hv⟩ := h'.value i (Nat.lt_of_succ_lt_succ hi)
      exact ⟨perm, by rwa [show dst + (i + 1) = dst + 1 + i by omega]⟩
  frame a ha hout := by
    have h₁ : a < dst + 1 ∨ dst + 1 + n ≤ a := by omega
    have h₂ : a < dst ∨ dst + 1 ≤ a := by omega
    exact (h'.frame a ha h₁).trans (h.frame a ha h₂)

end Stored

/-- **A store to a user address**, if it does not fault. -/
theorem wp_storeUser (h : UserTree pmm s pgdir) (ha : a < LOWTOP) :
    Act.wp (storeUser pgdir a b) (fun _ s' => Stored pmm pgdir a 1 (fun _ => b) s s' ∧
      s'.starved = s.starved) (fun _ => True) s := by
  rw [storeUser, Act.wp_bind, Act.wp_get]
  cases hm : mapping s pgdir a with
  | none => exact trivial
  | some m =>
    obtain ⟨p, perm⟩ := m
    rw [Act.wp_ite]
    refine ⟨fun _ => ?_, fun _ => trivial⟩
    rw [fillPage, Act.wp_bind, Act.wp_require]
    refine ⟨fun _ => ?_, fun _ => trivial⟩
    rw [Act.wp_modify]
    obtain ⟨htree, hmap, hin, hout⟩ := h.stored ha hm (a % PGSIZE) 1 fun _ => b
    refine ⟨⟨htree, hmap, fun i hi => ?_, fun x hx hne => hout x hx fun ⟨hpage, hlo, hhi⟩ => ?_⟩, rfl⟩
    · obtain rfl : i = 0 := Nat.lt_one_iff.mp hi
      exact ⟨perm, hin a ha rfl le_rfl (Nat.lt_succ_self _)⟩
    · have hpage : x / 4096 = a / 4096 := hpage
      have hlo : a % 4096 ≤ x % 4096 := hlo
      have hhi : x % 4096 < a % 4096 + 1 := hhi
      omega

/-- **`memcpy` to user addresses**, if it does not fault. -/
theorem wp_memcpyUser (h : UserTree pmm s pgdir) (hdst : dst + n ≤ LOWTOP) :
    Act.wp (memcpyUser pgdir dst src n) (fun _ s' => Stored pmm pgdir dst n src s s' ∧
      s'.starved = s.starved) (fun _ => True) s := by
  induction n generalizing s dst src with
  | zero => exact ⟨.refl h, rfl⟩
  | succ n ih =>
    have hlt : dst < LOWTOP := by omega
    have hnext : u64 (dst + 1) = dst + 1 := by
      have hlt : dst < 511 * 2 ^ 30 := hlt
      exact u64_of_lt (by omega)
    rw [memcpyUser, Act.wp_bind, hnext]
    refine Act.wp_mono (wp_storeUser h hlt) (fun _ s₁ h₁ => ?_) fun _ => id
    refine Act.wp_mono (ih h₁.1.tree (by omega)) (fun _ s₂ h₂ => ?_) fun _ => id
    exact ⟨h₁.1.cons h₂.1 hlt, h₂.2.trans h₁.2⟩

/-! ## A new page -/

/-- **A page mapped**: at the addresses of `la`'s page, the page `p`; the others see what they did. -/
structure PageAdded (pmm : Pmm) (pgdir la p perm : ℕ) (s s' : Phys) : Prop where
  tree : UserTree pmm s' pgdir
  self : mapping s' pgdir la = some (p, perm)
  mapping : ∀ a, a < LOWTOP → a / PGSIZE ≠ la / PGSIZE → mapping s' pgdir a = mapping s pgdir a
  view : ∀ a, a < LOWTOP → a / PGSIZE ≠ la / PGSIZE → view s' pgdir a = view s pgdir a
  starved : s'.starved = s.starved

/-- The bits that a new page is mapped with. -/
def pagePerm (perm : ℕ) : ℕ := (PTE_V ||| (PTE_V ||| perm)) &&& PTE_USER

/-- **`pgdir_alloc_page`**, seen by the process. -/
theorem wp_pgdirAllocPage_view (hfresh : pmm.Fresh) (ht : UserTree pmm s pgdir) (hla : la < LOWTOP)
    (hfree : mapping s pgdir la = none) (hperm : perm < 1024) :
    Act.wp (pgdirAllocPage pmm pgdir la perm) (fun r s' => match r with
      | none => s'.starved = true
      | some p => PageAdded pmm pgdir la p (pagePerm perm) s s') (fun _ => True) s := by
  refine Act.wp_mono (wp_pgdirAllocPage hfresh ht hla hfree hperm) (fun r s' hr => ?_) fun _ _ => trivial
  cases r with
  | none => exact hr
  | some p =>
    obtain ⟨hp, -, -, -, hi⟩ := hr
    have hne : ∀ a, a < LOWTOP → a / PGSIZE ≠ la / PGSIZE → pathOf a ≠ pathOf la := fun a ha hpage hpath =>
      hpage (page_of_pathOf ha hla hpath)
    -- taking the page from the free ones changes nothing that is mapped
    have hmap : ∀ a, a < LOWTOP → a / PGSIZE ≠ la / PGSIZE →
        Paging.mapping s' pgdir a = Paging.mapping s pgdir a := fun a ha hpage =>
      hi.mapping_ne a ha (hne a ha hpage)
    refine ⟨hi.tree, hi.mapping_self, hmap, fun a ha hpage => view_congr (hmap a ha hpage)
      fun g perm' hm => ?_, hi.starved⟩
    have hw := walk_of_mapping hm
    have hg : g ∈ s.used := (ht.used _ g (userPath ha) hw).1
    rw [hi.page g (Finset.mem_insert_of_mem hg) (ht.not_isTable ha hw)]

end UCore.Paging
