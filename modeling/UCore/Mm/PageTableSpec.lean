import UCore.Mm.PageTable

/-!
# Mm/PageTableSpec — what the tables map, and what an insertion changes

    la ──path──▸ [PDX1, PDX0, PTX] ──walk──▸ page

The tables under a page directory, as far as the addresses below the kernel's go, are a tree: no table or page is reached
by two paths.  An insertion puts new tables and a page under free entries, and so changes what one
address maps to, and no other.
-/

namespace UCore.Paging

open Vmm Radix

/-- What `alloc_page` promises: a page that is free, and whose number fits in an entry. -/
structure Pmm.Fresh (pmm : Pmm) : Prop where
  fresh : ∀ used p, pmm.alloc used = some p → p ∉ used ∧ p < pmm.npage
  fits : pmm.npage ≤ 2 ^ 44

/-! ## Entries -/

/-- The entry `i` of the table `p`. -/
def pteOf (s : Phys) (p i : ℕ) : ℕ := Bytes.word (s.page p) 8 (8 * i)

/-- The page that an entry names. -/
def pageOf (pte : ℕ) : ℕ := pteAddr pte / PGSIZE

/-- The table under an entry, if it is valid. -/
def tableNext (s : Phys) (p i : ℕ) : Option ℕ :=
  if Valid (pteOf s p i) then some (pageOf (pteOf s p i)) else none

section Entries

variable {s s' : Phys} {pmm : Pmm} {ppn type pte p i j g la : ℕ}

theorem valid_iff : Valid pte ↔ pte % 2 = 1 := by
  have hmod : pte &&& 1 = pte % 2 := Nat.and_one_is_mod pte
  rw [Valid, hmod]
  omega

theorem valid_or : Valid (PTE_V ||| type) := by
  rw [valid_iff, ← Nat.and_one_is_mod, Nat.and_comm, Nat.and_or_distrib_left]
  have hv : 1 &&& PTE_V = 1 := rfl
  have hbit : 1 &&& type = type % 2 := by rw [Nat.and_comm, Nat.and_one_is_mod]
  rw [hv, hbit]
  rcases Nat.mod_two_eq_zero_or_one type with h | h <;> rw [h] <;> rfl

/-- An entry made is the page number over the bits. -/
theorem pteCreate_eq (hppn : ppn < 2 ^ 44) (htype : type < 1024) :
    pteCreate ppn type = 1024 * ppn + (PTE_V ||| type) := by
  have hbits : PTE_V ||| type < 2 ^ 10 := Nat.or_lt_two_pow (by norm_num) htype
  have hshift : u64 (ppn <<< 10) = 2 ^ 10 * ppn := by
    rw [Nat.shiftLeft_eq, Nat.mul_comm]
    exact u64_of_lt (by omega)
  rw [pteCreate, hshift, Nat.or_assoc, ← Nat.two_pow_add_eq_or_of_lt hbits]

theorem pteCreate_lt (hppn : ppn < 2 ^ 44) (htype : type < 1024) : pteCreate ppn type < 2 ^ 64 := by
  have hbits : PTE_V ||| type < 2 ^ 10 := Nat.or_lt_two_pow (by norm_num) htype
  rw [pteCreate_eq hppn htype]
  omega

/-- **An entry names the page it was made for**, with the bits it was made with. -/
theorem pageOf_pteCreate (hppn : ppn < 2 ^ 44) (htype : type < 1024) :
    pageOf (pteCreate ppn type) = ppn := by
  have hbits : PTE_V ||| type < 2 ^ 10 := Nat.or_lt_two_pow (by norm_num) htype
  have haddr : pteAddr (pteCreate ppn type) = 4096 * ppn := by
    rw [pteAddr, pteCreate_eq hppn htype, Nat.shiftLeft_eq]
    refine (u64_of_lt ?_).trans ?_ <;> omega
  rw [pageOf, haddr]
  exact Nat.mul_div_cancel_left ppn (by norm_num)

theorem valid_pteCreate (hppn : ppn < 2 ^ 44) (htype : type < 1024) : Valid (pteCreate ppn type) := by
  have hodd := valid_iff.mp (valid_or : Valid (PTE_V ||| type))
  rw [pteCreate_eq hppn htype, valid_iff]
  omega

theorem pteCreate_and (hppn : ppn < 2 ^ 44) (htype : type < 1024) :
    pteCreate ppn type &&& PTE_USER = (PTE_V ||| type) &&& PTE_USER := by
  have huser : PTE_USER = 2 ^ 5 - 1 := rfl
  rw [huser, Nat.and_two_pow_sub_one_eq_mod, Nat.and_two_pow_sub_one_eq_mod, pteCreate_eq hppn htype]
  omega

/-- The entries after a store to one of them. -/
theorem pteOf_put (hpte : pte < 2 ^ 64)
    (hs : s'.page = Function.update s.page p (Bytes.putWord (s.page p) 8 (8 * i) pte)) :
    pteOf s' g j = if g = p ∧ j = i then pte else pteOf s g j := by
  rw [pteOf, hs]
  by_cases hg : g = p
  · subst hg
    rw [Function.update_self]
    by_cases hj : j = i
    · subst hj
      rw [if_pos ⟨rfl, rfl⟩, Bytes.word_putWord]
      exact Nat.mod_eq_of_lt hpte
    · rw [if_neg fun h => hj h.2, Bytes.word_putWord_of_ne (by omega), pteOf]
  · rw [if_neg fun h => hg h.1, Function.update_of_ne hg, pteOf]

/-- A cleared page has no valid entry. -/
theorem pteOf_clear (hs : s'.page p = fun _ => 0) : pteOf s' p i = 0 := by
  have hzero : ∀ n a, Bytes.word (fun _ => 0) n a = 0 := fun n => by
    induction n with
    | zero => exact fun _ => rfl
    | succ n ih =>
      intro a
      rw [Bytes.word, ih]
      rfl
  rw [pteOf, hs, hzero]

theorem not_valid_zero : ¬ Valid 0 := by decide

theorem tableNext_congr (h : s'.page p = s.page p) : tableNext s' p i = tableNext s p i := by
  rw [tableNext, tableNext, pteOf, pteOf, h]

end Entries

/-! ## Paths -/

/-- The indices of an address. -/
def pathOf (la : ℕ) : List ℕ := [pdx1 la, pdx0 la, ptx la]

/-- The addresses below the gigabyte of the kernel, which is the last under a page directory. -/
abbrev LOWTOP : ℕ := 511 * 2 ^ 30

/-- The paths under a page directory that these addresses take: to all of its tables but one, to the
tables under them, and to the pages under these. -/
def UserPath (q : List ℕ) : Prop := q.length ≤ 3 ∧ (∀ i ∈ q.head?, i < 511) ∧ ∀ i ∈ q, i < 512

theorem USERTOP_le : USERTOP ≤ LOWTOP := by decide

/-- What an address maps to: the page, and the bits of `PTE_USER`. -/
def mapping (s : Phys) (pgdir la : ℕ) : Option (ℕ × ℕ) :=
  (walk (tableNext s) pgdir [pdx1 la, pdx0 la]).bind fun pt =>
    (tableNext s pt (ptx la)).map fun p => (p, pteOf s pt (ptx la) &&& PTE_USER)

/-- **The tables of an address space**: a tree, of pages that are not free. -/
structure UserTree (pmm : Pmm) (s : Phys) (pgdir : ℕ) : Prop where
  tree : Tree (tableNext s) pgdir UserPath
  used : ∀ q f, UserPath q → walk (tableNext s) pgdir q = some f → f ∈ s.used ∧ f < pmm.npage

/-- A page is one of the tables. -/
def IsTable (s : Phys) (pgdir p : ℕ) : Prop :=
  ∃ q, UserPath q ∧ q.length < 3 ∧ walk (tableNext s) pgdir q = some p

section Paths

variable {pmm : Pmm} {s s' s'' : Phys} {pgdir la la' p i c g : ℕ} {q : List ℕ}

theorem div_eq {a b : ℕ} : a >>> b &&& 0x1FF = a / 2 ^ b % 512 := by
  have hmask : 0x1FF = 2 ^ 9 - 1 := rfl
  rw [hmask, Nat.and_two_pow_sub_one_eq_mod, Nat.shiftRight_eq_div_pow]

theorem UserPath.init (h : UserPath (q ++ [i])) : UserPath q := by
  refine ⟨by have := h.1; simp at this; omega, fun j hj => h.2.1 j ?_, fun j hj =>
    h.2.2 j (List.mem_append_left _ hj)⟩
  cases q with
  | nil => cases hj
  | cons k q => exact hj

theorem UserPath.nil : UserPath [] := ⟨by decide, fun _ h => (nomatch h), fun _ h => (nomatch h)⟩

/-- An address takes such paths. -/
theorem userPath (hla : la < LOWTOP) : UserPath (pathOf la) := by
  have hla : la < 511 * 2 ^ 30 := hla
  have hmod : ∀ n, n % 512 < 512 := fun n => Nat.mod_lt n (by decide)
  refine ⟨le_rfl, fun i hi => ?_, fun i hi => ?_⟩
  · obtain rfl : pdx1 la = i := Option.some.inj hi
    rw [pdx1, div_eq]
    omega
  · simp only [pathOf, pdx1, pdx0, ptx, div_eq, List.mem_cons, List.not_mem_nil, or_false] at hi
    rcases hi with rfl | rfl | rfl <;> exact hmod _

theorem userPath₂ (hla : la < LOWTOP) : UserPath [pdx1 la, pdx0 la] := (userPath hla).init (i := ptx la)

/-- Addresses that take the same path are in one page. -/
theorem page_of_pathOf (hla : la < LOWTOP) (hla' : la' < LOWTOP) (h : pathOf la = pathOf la') :
    la / PGSIZE = la' / PGSIZE := by
  have hla : la < 511 * 2 ^ 30 := hla
  have hla' : la' < 511 * 2 ^ 30 := hla'
  simp only [pathOf, pdx1, pdx0, ptx, div_eq, List.cons.injEq, and_true] at h
  change la / 4096 = la' / 4096
  omega

/-- **Different pages have different paths.** -/
theorem pathOf_inj (hla : la < LOWTOP) (hla' : la' < LOWTOP) (hd : PGSIZE ∣ la) (hd' : PGSIZE ∣ la')
    (h : pathOf la = pathOf la') : la = la' := by
  have hpage : la / 4096 = la' / 4096 := page_of_pathOf hla hla' h
  have hd : la % 4096 = 0 := Nat.mod_eq_zero_of_dvd hd
  have hd' : la' % 4096 = 0 := Nat.mod_eq_zero_of_dvd hd'
  omega

/-- The page that an address maps to is at the end of its path. -/
theorem mapping_fst : (mapping s pgdir la).map Prod.fst = walk (tableNext s) pgdir (pathOf la) := by
  have hpath : pathOf la = [pdx1 la, pdx0 la] ++ [ptx la] := rfl
  rw [hpath, walk_concat, mapping]
  cases walk (tableNext s) pgdir [pdx1 la, pdx0 la] with
  | none => rfl
  | some pt =>
    simp only [Option.bind_some]
    cases tableNext s pt (ptx la) <;> rfl

theorem walk_of_mapping {perm : ℕ} (h : mapping s pgdir la = some (p, perm)) :
    walk (tableNext s) pgdir (pathOf la) = some p := by
  rw [← mapping_fst, h]
  rfl

theorem mapping_eq_none : mapping s pgdir la = none ↔ walk (tableNext s) pgdir (pathOf la) = none := by
  rw [← mapping_fst, Option.map_eq_none_iff]

/-- What an address maps to depends on its last entry. -/
theorem mapping_congr (hwalk : walk (tableNext s') pgdir [pdx1 la, pdx0 la] =
      walk (tableNext s) pgdir [pdx1 la, pdx0 la])
    (hpte : ∀ pt, walk (tableNext s) pgdir [pdx1 la, pdx0 la] = some pt →
      pteOf s' pt (ptx la) = pteOf s pt (ptx la)) : mapping s' pgdir la = mapping s pgdir la := by
  rw [mapping, mapping, hwalk]
  refine Option.bind_congr fun pt hpt => ?_
  rw [tableNext, tableNext, hpte pt hpt]

/-- The addresses of a page map to the same. -/
theorem mapping_of_page (h : la / PGSIZE = la' / PGSIZE) : mapping s pgdir la = mapping s pgdir la' := by
  have h : la / 4096 = la' / 4096 := h
  have h₁ : pdx1 la = pdx1 la' := by
    rw [pdx1, pdx1, div_eq, div_eq]
    omega
  have h₀ : pdx0 la = pdx0 la' := by
    rw [pdx0, pdx0, div_eq, div_eq]
    omega
  have hx : ptx la = ptx la' := by
    rw [ptx, ptx, div_eq, div_eq]
    omega
  rw [mapping, mapping, h₁, h₀, hx]

/-- A page that an address maps to is not a table. -/
theorem UserTree.not_isTable (h : UserTree pmm s pgdir) (hla : la < LOWTOP)
    (hw : walk (tableNext s) pgdir (pathOf la) = some p) : ¬ IsTable s pgdir p := by
  rintro ⟨q, hq, hlen, hq'⟩
  rw [h.tree.inj q _ p hq (userPath hla) hq' hw] at hlen
  exact absurd hlen (lt_irrefl 3)

/-- **Tables that are as they were** map what they did. -/
theorem UserTree.frame (h : UserTree pmm s pgdir) (hused : s.used ⊆ s'.used)
    (hpage : ∀ g, IsTable s pgdir g → s'.page g = s.page g) : UserTree pmm s' pgdir ∧
      (∀ q, UserPath q → walk (tableNext s') pgdir q = walk (tableNext s) pgdir q) ∧
      ∀ la, la < LOWTOP → mapping s' pgdir la = mapping s pgdir la := by
  have hwalk : ∀ q, UserPath q → walk (tableNext s') pgdir q = walk (tableNext s) pgdir q := by
    refine walk_congr (fun _ _ => UserPath.init) fun q g j hq hw => tableNext_congr (hpage g ?_)
    exact ⟨q, hq.init, by have := hq.1; simp at this; omega, hw⟩
  refine ⟨⟨⟨h.tree.init, fun q q' g hq hq' hw hw' => ?_⟩, fun q g hq hw => ?_⟩, hwalk,
    fun la hla => mapping_congr (hwalk _ (userPath₂ hla)) fun pt hpt => ?_⟩
  · rw [hwalk q hq] at hw
    rw [hwalk q' hq'] at hw'
    exact h.tree.inj q q' g hq hq' hw hw'
  · rw [hwalk q hq] at hw
    exact (h.used q g hq hw).imp_left fun hg => hused hg
  · rw [pteOf, pteOf, hpage pt ⟨_, userPath₂ hla, show 2 < 3 by decide, hpt⟩]

/-- **What new tables leave as it was**: all that is mapped, and every page that is not a table. -/
structure Kept (pgdir : ℕ) (s s' : Phys) : Prop where
  used : s.used ⊆ s'.used
  mapping : ∀ la, la < LOWTOP → mapping s' pgdir la = mapping s pgdir la
  walk : ∀ q g, UserPath q → walk (tableNext s) pgdir q = some g → walk (tableNext s') pgdir q = some g
  reach : ∀ q g, UserPath q → Radix.walk (tableNext s') pgdir q = some g →
    Radix.walk (tableNext s) pgdir q = some g ∨ g ∉ s.used
  page : ∀ g ∈ s.used, ¬ IsTable s pgdir g → s'.page g = s.page g
  ref : ∀ g ∈ s.used, s'.ref g = s.ref g
  starved : s.starved = true → s'.starved = true

theorem Kept.refl : Kept pgdir s s :=
  ⟨fun _ h => h, fun _ _ => rfl, fun _ _ _ h => h, fun _ _ _ => .inl, fun _ _ _ => rfl, fun _ _ => rfl, id⟩

/-- The tables of before, and new ones. -/
theorem Kept.isTable (h : Kept pgdir s s') (hg : IsTable s' pgdir g) : IsTable s pgdir g ∨ g ∉ s.used := by
  obtain ⟨q, hq, hlen, hw⟩ := hg
  exact (h.reach q g hq hw).imp_left fun hw => ⟨q, hq, hlen, hw⟩

theorem Kept.trans (h : Kept pgdir s s') (h' : Kept pgdir s' s'') : Kept pgdir s s'' where
  used := h.used.trans h'.used
  mapping la hla := (h'.mapping la hla).trans (h.mapping la hla)
  walk q g hq hw := h'.walk q g hq (h.walk q g hq hw)
  reach q g hq hw := by
    rcases h'.reach q g hq hw with hw | hg
    · exact h.reach q g hq hw
    · exact .inr fun hno => hg (h.used hno)
  page g hg ht := by
    rw [h'.page g (h.used hg) fun ht' => (h.isTable ht').elim ht fun hno => hno hg, h.page g hg ht]
  ref g hg := (h'.ref g (h.used hg)).trans (h.ref g hg)
  starved hs := h'.starved (h.starved hs)

/-- The flag is the only thing that changes. -/
theorem Kept.starve : Kept pgdir s { s with starved := true } :=
  ⟨fun _ h => h, fun _ _ => rfl, fun _ _ _ h => h, fun _ _ _ => .inl, fun _ _ _ => rfl, fun _ _ => rfl,
    fun _ => rfl⟩

end Paths

/-- The memory with a new page, of some bytes. -/
def taken (s : Phys) (p : ℕ) (bytes : ℕ → UInt8) : Phys :=
  { s with
    page := Function.update s.page p bytes
    used := insert p s.used }

/-! ## A new table -/

section Create

variable {pmm : Pmm} {s s' : Phys} {pgdir la p i c : ℕ} {q : List ℕ}

/-- A memory in which `c` has become an empty table, under the entry `i` of `p`. -/
structure Created (s s' : Phys) (p i c : ℕ) : Prop where
  used : s'.used = insert c s.used
  page : s'.page = Function.update (Function.update s.page c fun _ => 0) p
    (Bytes.putWord (s.page p) 8 (8 * i) (pteCreate c (PTE_U ||| PTE_V)))
  ref : ∀ g, g ≠ c → s'.ref g = s.ref g
  starved : s'.starved = s.starved

/-- What the steps of `get_pte` make of the memory. -/
def created (s : Phys) (p i c : ℕ) : Phys where
  page := Function.update (Function.update s.page c fun _ => 0) p
    (Bytes.putWord (Function.update s.page c (fun _ => 0) p) 8 (8 * i) (pteCreate c (PTE_U ||| PTE_V)))
  ref := Function.update s.ref c 1
  used := insert c s.used
  starved := s.starved

theorem created_created (hpc : p ≠ c) : Created s (created s p i c) p i c := by
  refine ⟨rfl, ?_, fun g hg => Function.update_of_ne hg .., rfl⟩
  rw [created, Function.update_of_ne hpc]

namespace Created

variable (h : Created s s' p i c) (hpc : p ≠ c)

include h in
theorem page_of_ne {g : ℕ} (hgp : g ≠ p) (hgc : g ≠ c) : s'.page g = s.page g := by
  rw [h.page, Function.update_of_ne hgp, Function.update_of_ne hgc]

include h hpc in
theorem next_self {j : ℕ} : tableNext s' c j = none := by
  have hzero : s'.page c = fun _ => 0 := by
    rw [h.page, Function.update_of_ne hpc.symm, Function.update_self]
  rw [tableNext, pteOf_clear hzero, if_neg not_valid_zero]

include h hpc in
theorem next_of_ne (hc : c < 2 ^ 44) {g j : ℕ} (hgc : g ≠ c) :
    tableNext s' g j = if g = p ∧ j = i then some c else tableNext s g j := by
  have htype : PTE_U ||| PTE_V < 1024 := by decide
  have hput : s'.page = Function.update (Function.update s.page c fun _ => 0) p
      (Bytes.putWord ((Function.update s.page c fun _ => 0) p) 8 (8 * i)
        (pteCreate c (PTE_U ||| PTE_V))) := by
    rw [h.page, Function.update_of_ne hpc]
  have hpte := pteOf_put (s := { s with page := Function.update s.page c fun _ => 0 }) (g := g) (j := j)
    (pteCreate_lt hc htype) hput
  have hold : pteOf { s with page := Function.update s.page c fun _ => 0 } g j = pteOf s g j := by
    rw [pteOf, pteOf]
    dsimp only
    rw [Function.update_of_ne hgc]
  rw [tableNext, tableNext, hpte, hold]
  split
  · rw [if_pos (valid_pteCreate hc htype), pageOf_pteCreate hc htype]
  · rfl

/-- **The tree has grown by the new table**, and nothing else is to be seen of it. -/
theorem tree (h : Created s s' p i c) (ht : UserTree pmm s pgdir) (hq : UserPath (q ++ [i]))
    (hlen : q.length < 2) (hw : walk (tableNext s) pgdir q = some p) (hfree : tableNext s p i = none)
    (hc : c ∉ s.used) (hcn : c < pmm.npage) (hfits : pmm.npage ≤ 2 ^ 44) :
    UserTree pmm s' pgdir ∧ Kept pgdir s s' ∧ walk (tableNext s') pgdir (q ++ [i]) = some c := by
  have hp := ht.used q p hq.init hw
  have hpc : p ≠ c := fun heq => hc (heq ▸ hp.1)
  have hc44 : c < 2 ^ 44 := hcn.trans_le hfits
  have hne : ∀ q' g, UserPath q' → walk (tableNext s) pgdir q' = some g → g ≠ c :=
    fun q' g hq' hw' heq => hc (heq ▸ (ht.used q' g hq' hw').1)
  have hg : Grown (tableNext s) (tableNext s') pgdir p i c UserPath := by
    refine ⟨hfree, ?_, fun q' g j hq' hw' hgj => ?_⟩
    · rw [h.next_of_ne hpc hc44 hpc, if_pos ⟨rfl, rfl⟩]
    · rw [h.next_of_ne hpc hc44 (hne q' g hq' hw'), if_neg fun heq => ?_]
      exact hgj.elim (fun hgp => hgp heq.1) fun hji => hji heq.2
  have hbelow : ∀ j, UserPath (q ++ [i] ++ [j]) → tableNext s' c j = none := fun j _ => h.next_self hpc
  have hwalk := ht.tree.walk_grown hg hq.init hw hbelow
  have hold : walk (tableNext s) pgdir (q ++ [i]) = none := by
    rw [walk_concat, hw]
    exact hfree
  refine ⟨⟨ht.tree.grown hg hq.init hw hbelow fun q' hq' hw' => hne q' c hq' hw' rfl,
    fun q' f hq' hw' => ?_⟩, ?_, ?_⟩
  · rw [hwalk q' hq'] at hw'
    rw [h.used]
    split at hw'
    · obtain rfl := Option.some.inj hw'
      exact ⟨Finset.mem_insert_self .., hcn⟩
    · exact (ht.used q' f hq' hw').imp_left Finset.mem_insert_of_mem
  · refine {
      used := h.used ▸ Finset.subset_insert ..
      mapping := fun la hla => ?_
      walk := fun q' g hq' hw' => ?_
      reach := fun q' g hq' hw' => ?_
      page := fun g hg hnt => h.page_of_ne (fun heq => hnt ⟨q, hq.init, by omega, heq ▸ hw⟩)
        fun heq => hc (heq ▸ hg)
      ref := fun g hg => h.ref g fun heq => hc (heq ▸ hg)
      starved := fun hs => h.starved.trans hs }
    · by_cases heq : [pdx1 la, pdx0 la] = q ++ [i]
      · rw [mapping, mapping, hwalk _ (userPath₂ hla), if_pos heq, heq, hold, Option.bind_some,
          h.next_self hpc, Option.map_none, Option.bind_none]
      · refine mapping_congr ((hwalk _ (userPath₂ hla)).trans (if_neg heq)) fun pt hpt => ?_
        have hptp : pt ≠ p := fun heq' => by
          have := ht.tree.inj _ _ p (userPath₂ hla) hq.init (heq' ▸ hpt) hw
          rw [← this] at hlen
          exact absurd hlen (lt_irrefl 2)
        rw [pteOf, pteOf, h.page_of_ne hptp (hne _ pt (userPath₂ hla) hpt)]
    · rw [hwalk q' hq', if_neg fun heq => ?_]
      · exact hw'
      · rw [heq, hold] at hw'
        exact nomatch hw'
    · rw [hwalk q' hq'] at hw'
      split at hw'
      · obtain rfl := Option.some.inj hw'
        exact .inr hc
      · exact .inl hw'
  · rw [hwalk _ hq, if_pos rfl]

end Created

end Create

/-! ## `get_pte` -/

section GetPte

variable {pmm : Pmm} {s s' : Phys} {pgdir la p i pte : ℕ} {q : List ℕ}

/-- **`alloc_page`**: a page that was free, or none. -/
theorem wp_allocPage (hfresh : pmm.Fresh) {Q : Option ℕ → Phys → Prop} {E : Fault → Prop}
    (hnone : Q none { s with starved := true })
    (hsome : ∀ p, p ∉ s.used → p < pmm.npage → Q (some p) { s with used := insert p s.used }) :
    Act.wp (allocPage pmm) Q E s := by
  simp only [allocPage, Act.wp_bind, Act.wp_get]
  cases hp : pmm.alloc s.used with
  | none => exact hnone
  | some p =>
    obtain ⟨hnot, hlt⟩ := hfresh.fresh s.used p hp
    exact hsome p hnot hlt

theorem wp_pa2page {pa : ℕ} (hpa : pa / PGSIZE < pmm.npage) {Q : ℕ → Phys → Prop} {E : Fault → Prop}
    (hQ : Q (pa / PGSIZE) s) : Act.wp (pa2page pmm pa) Q E s := by
  rw [pa2page, Act.wp_bind, Act.wp_require]
  exact ⟨fun _ => hQ, fun hno => absurd hpa hno⟩

/-- The table that an entry names. -/
theorem wp_table (hlt : pageOf pte < pmm.npage) {Q : ℕ → Phys → Prop} {E : Fault → Prop}
    (hQ : Q (pageOf pte) s) : Act.wp (pa2page pmm (pteAddr pte)) Q E s := wp_pa2page hlt hQ

theorem wp_pte2page (hv : Valid pte) (hlt : pageOf pte < pmm.npage) {Q : ℕ → Phys → Prop}
    {E : Fault → Prop} (hQ : Q (pageOf pte) s) : Act.wp (pte2page pmm pte) Q E s := by
  rw [pte2page, Act.wp_bind, Act.wp_require]
  exact ⟨fun _ => wp_pa2page hlt hQ, fun hno => absurd hv hno⟩

/-- Looking a table up. -/
theorem wp_tableUnder_find (hnpage : ∀ g, tableNext s p i = some g → g < pmm.npage) :
    Act.wp (tableUnder pmm p i false) (fun r s' => s' = s ∧ r = tableNext s p i) (fun _ => False) s := by
  simp only [tableUnder, entry, Act.wp_bind, Act.wp_get, Act.wp_pure, Act.wp_ite]
  refine ⟨fun hv => ?_, fun hv => ⟨fun hno => (by cases hno), fun _ => ?_⟩⟩
  · have hnext : tableNext s p i = some (pageOf (pteOf s p i)) := if_pos hv
    exact wp_pa2page (hnpage _ hnext) ⟨rfl, hnext.symm⟩
  · exact ⟨trivial, (if_neg hv : tableNext s p i = none).symm⟩

/-- **Looking a table up, or making it.** -/
theorem wp_tableUnder (hfresh : pmm.Fresh) (ht : UserTree pmm s pgdir) (hq : UserPath (q ++ [i]))
    (hlen : q.length < 2) (hw : walk (tableNext s) pgdir q = some p) :
    Act.wp (tableUnder pmm p i true) (fun r s' => UserTree pmm s' pgdir ∧ Kept pgdir s s' ∧
      match r with
      | none => s'.starved = true
      | some g => walk (tableNext s') pgdir (q ++ [i]) = some g ∧ s'.starved = s.starved)
      (fun _ => False) s := by
  have hwalk : walk (tableNext s) pgdir (q ++ [i]) = tableNext s p i := by
    rw [walk_concat, hw]
    rfl
  simp only [tableUnder, entry, Act.wp_bind, Act.wp_get, Act.wp_pure, Act.wp_ite]
  refine ⟨fun hv => ?_, fun hv => ⟨fun _ => ?_, fun hno => absurd trivial hno⟩⟩
  · have hnext : tableNext s p i = some (pageOf (pteOf s p i)) := if_pos hv
    exact wp_pa2page (ht.used _ _ hq (hwalk.trans hnext)).2 ⟨ht, .refl, hwalk.trans hnext, rfl⟩
  · have hfree : tableNext s p i = none := if_neg hv
    refine wp_allocPage hfresh ?_ fun c hc hcn => ?_
    · exact ⟨⟨ht.tree, ht.used⟩, .starve, rfl⟩
    · simp only [setRef, clearPage, setEntry, Act.wp_bind, Act.wp_modify, Act.wp_get, Act.wp_pure]
      have hpc : p ≠ c := fun heq => hc (heq ▸ (ht.used q p hq.init hw).1)
      change Act.wp (pa2page pmm (pteAddr (pteOf (created s p i c) p i))) _ _ (created s p i c)
      have hcreated : Created s (created s p i c) p i c := created_created hpc
      obtain ⟨ht', hk, hw'⟩ := hcreated.tree ht hq hlen hw hfree hc hcn hfresh.fits
      have hnext : tableNext (created s p i c) p i = some c := by
        rw [hcreated.next_of_ne hpc (hcn.trans_le hfresh.fits) hpc, if_pos ⟨rfl, rfl⟩]
      have hpage : pageOf (pteOf (created s p i c) p i) = c := by
        rw [tableNext] at hnext
        split at hnext
        · exact Option.some.inj hnext
        · cases hnext
      have hlt : pageOf (pteOf (created s p i c) p i) < pmm.npage := by
        rw [hpage]
        exact hcn
      exact wp_table hlt (hpage.symm ▸ ⟨ht', hk, hw', hcreated.starved⟩)

/-- **`get_pte` that makes tables**: the entry of an address. -/
theorem wp_getPte (hfresh : pmm.Fresh) (ht : UserTree pmm s pgdir) (hla : la < LOWTOP) :
    Act.wp (getPte pmm pgdir la true) (fun r s' => UserTree pmm s' pgdir ∧ Kept pgdir s s' ∧
      match r with
      | none => s'.starved = true
      | some (pt, i) => i = ptx la ∧ walk (tableNext s') pgdir [pdx1 la, pdx0 la] = some pt ∧
          s'.starved = s.starved)
      (fun _ => False) s := by
  have hpath : UserPath ([] ++ [pdx1 la]) := (userPath₂ hla).init (q := [pdx1 la]) (i := pdx0 la)
  have hpath₂ : UserPath ([pdx1 la] ++ [pdx0 la]) := userPath₂ hla
  rw [getPte, Act.wp_bind]
  refine Act.wp_mono (wp_tableUnder hfresh ht hpath (by decide) rfl) (fun r s₁ h₁ => ?_) fun _ => id
  obtain ⟨ht₁, hk₁, hr⟩ := h₁
  cases r with
  | none => exact ⟨ht₁, hk₁, hr⟩
  | some pd0 =>
    rw [Act.wp_bind]
    refine Act.wp_mono (wp_tableUnder hfresh ht₁ hpath₂ (by simp) hr.1) (fun r s₂ h₂ => ?_) fun _ => id
    obtain ⟨ht₂, hk₂, hr₂⟩ := h₂
    cases r with
    | none => exact ⟨ht₂, hk₁.trans hk₂, hr₂⟩
    | some pt => exact ⟨ht₂, hk₁.trans hk₂, rfl, hr₂.1, hr₂.2.trans hr.2⟩

/-- **`get_pte` that makes none.** -/
theorem wp_getPte_find (hused : ∀ q f, UserPath q → walk (tableNext s) pgdir q = some f →
    f ∈ s.used ∧ f < pmm.npage) (hla : la < LOWTOP) :
    Act.wp (getPte pmm pgdir la false) (fun r s' => s' = s ∧
      r = (walk (tableNext s) pgdir [pdx1 la, pdx0 la]).map fun pt => (pt, ptx la))
      (fun _ => False) s := by
  have hpath : UserPath [pdx1 la] := (userPath₂ hla).init (q := [pdx1 la]) (i := pdx0 la)
  have hfirst : walk (tableNext s) pgdir [pdx1 la] = tableNext s pgdir (pdx1 la) :=
    walk_concat _ pgdir [] _
  have hwalk : walk (tableNext s) pgdir [pdx1 la, pdx0 la] =
      (tableNext s pgdir (pdx1 la)).bind fun g => tableNext s g (pdx0 la) :=
    (walk_concat _ pgdir [pdx1 la] _).trans (by rw [hfirst])
  rw [getPte, Act.wp_bind]
  refine Act.wp_mono (wp_tableUnder_find fun g hg => (hused _ g hpath (hfirst.trans hg)).2)
    (fun r s₁ h₁ => ?_) fun _ => id
  obtain ⟨rfl, hr⟩ := h₁
  rw [hwalk, ← hr]
  cases r with
  | none => exact ⟨rfl, rfl⟩
  | some pd0 =>
    rw [← hr, Option.bind_some] at hwalk
    rw [Act.wp_bind]
    refine Act.wp_mono (wp_tableUnder_find fun g hg => (hused _ g (userPath₂ hla) (hwalk.trans hg)).2)
      (fun r s₂ h₂ => ?_) fun _ => id
    obtain ⟨rfl, hr₂⟩ := h₂
    rw [Option.bind_some, ← hr₂]
    cases r with
    | none => exact ⟨rfl, rfl⟩
    | some pt => exact ⟨rfl, rfl⟩

end GetPte

end UCore.Paging
