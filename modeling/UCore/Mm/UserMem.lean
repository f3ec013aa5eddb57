import UCore.Mm.Vma

/-!
# Mm/UserMem — checking a range of user addresses

`user_mem_check` of `kern/mm/vmm.c`.  The walk goes from area to area, each time to the end of the one
that holds the address reached:

    start ── area ──▸ vm_end ── area ──▸ vm_end ── … ──▸ end

so every byte is covered as soon as each of these addresses is.
-/

namespace UCore.Vmm

/-- What an access asks of the flags of an area. -/
def Vma.Permits (v : Vma) (write : Bool) : Prop :=
  v.vmFlags &&& (if write = true then VM_WRITE else VM_READ) ≠ 0

instance (v : Vma) (write : Bool) : Decidable (v.Permits write) := inferInstanceAs (Decidable (_ ≠ _))

/-- An area that grows downwards. -/
def Vma.IsStack (v : Vma) : Prop := v.vmFlags &&& VM_STACK ≠ 0

instance (v : Vma) : Decidable v.IsStack := inferInstanceAs (Decidable (_ ≠ _))

/-- The loop of `user_mem_check`. -/
def userMemLoop (fuel start stop : ℕ) (write : Bool) : Call Bool :=
  Act.loop .spin (fun start => do
    if start < stop then
      match ← findVma start with
      | none => return .inr false
      | some vma =>
        if start < vma.vmStart then
          return .inr false
        else if ¬ vma.Permits write then
          return .inr false
        else if write = true ∧ vma.IsStack ∧ start < u64 (vma.vmStart + PGSIZE) then
          return .inr false
        else
          return .inl vma.vmEnd
    else
      return .inr true) fuel start

/-- A call with an `mm` that may be `NULL`. -/
abbrev MmCall (α : Type) := Act (Option Mm) Stop α

/-- A call on an `mm` that is not `NULL`. -/
def onMm {α : Type} (m : Call α) : MmCall α := fun s =>
  match s with
  | some mm => (m mm).map fun r => (r.1, some r.2)
  | none => .error .panic

/-- `user_mem_check`. -/
def userMemCheck (fuel addr len : ℕ) (write : Bool) : MmCall Bool := do
  match ← get with
  | some _ =>
    if UserAccess addr (u64 (addr + len)) then
      onMm (userMemLoop fuel addr (u64 (addr + len)) write)
    else
      return false
  | none => return decide (KernAccess addr (u64 (addr + len)))

/-! ## What the check decides -/

/-- The areas let every byte from `start` to just below `stop` be accessed. -/
structure Covered (list : List Vma) (start stop : ℕ) (write : Bool) : Prop where
  permits : ∀ a, start ≤ a → a < stop → ∃ v ∈ list, v.Holds a ∧ v.Permits write
  stack : write = true → ∀ v ∈ list, v.IsStack →
    ∀ a, IsLeast {a | start ≤ a ∧ a < stop ∧ v.Holds a} a → v.vmStart + PGSIZE ≤ a

section Covered

variable {mm mm' : Mm} {list : List Vma} {v : Vma} {start stop addr len fuel : ℕ} {write : Bool}

/-- Nothing is left to cover. -/
theorem Covered.of_le (h : stop ≤ start) : Covered list start stop write :=
  ⟨fun _ ha ha' => absurd (ha.trans_lt ha') (not_lt.mpr h),
    fun _ _ _ _ _ ha => absurd (ha.1.1.trans_lt ha.1.2.1) (not_lt.mpr h)⟩

/-- An address in no area is not covered. -/
theorem not_covered (hlt : start < stop) (hnone : ∀ v ∈ list, ¬ v.Holds start) :
    ¬ Covered list start stop write := fun h => by
  obtain ⟨v, hv, ha, -⟩ := h.permits start le_rfl hlt
  exact hnone v hv ha

/-- **One turn of the walk**: the area that holds the first address has to permit the access, and what
it does not hold has to be covered. -/
theorem covered_iff (write : Bool) (hs : Ranges.Sorted Vma.vmStart Vma.vmEnd list) (hlt : start < stop)
    (hv : v ∈ list) (ha : v.Holds start) : Covered list start stop write ↔
      (v.Permits write ∧ (write = true → v.IsStack → v.vmStart + PGSIZE ≤ start)) ∧
        Covered list v.vmEnd stop write := by
  have hlo : v.vmStart ≤ start := ha.1
  have hhi : start < v.vmEnd := ha.2
  have hleast : IsLeast {a | start ≤ a ∧ a < stop ∧ v.Holds a} start :=
    ⟨⟨le_rfl, hlt, ha⟩, fun a ha => ha.1⟩
  -- another area holds no address between `start` and the end of this one
  have hother : ∀ w ∈ list, w ≠ v → ∀ a, start ≤ a → w.Holds a → v.vmEnd ≤ a := by
    intro w hw hne a hle hwa
    by_contra hno
    exact hne (hs.eq_of_holds hw hv hwa ⟨hlo.trans hle, not_le.mp hno⟩)
  constructor
  · intro h
    refine ⟨⟨?_, fun hwrite hstack => h.stack hwrite v hv hstack start hleast⟩,
      fun a hle hlt' => h.permits a (hhi.le.trans hle) hlt', fun hwrite w hw hstack a hmin => ?_⟩
    · obtain ⟨w, hw, hwa, hp⟩ := h.permits start le_rfl hlt
      rwa [hs.eq_of_holds hv hw ha hwa]
    · refine h.stack hwrite w hw hstack a ⟨⟨hhi.le.trans hmin.1.1, hmin.1.2⟩, fun b hb => ?_⟩
      refine hmin.2 ⟨hother w hw (fun heq => ?_) b hb.1 hb.2.2, hb.2⟩
      have hend : v.vmEnd ≤ a := hmin.1.1
      have hin : v.Holds a := heq ▸ hmin.1.2.2
      exact absurd hin.2 (not_lt.mpr hend)
  · rintro ⟨⟨hp, hstack⟩, h⟩
    refine ⟨fun a hle hlt' => ?_, fun hwrite w hw hst a hmin => ?_⟩
    · by_cases hend : v.vmEnd ≤ a
      · exact h.permits a hend hlt'
      · exact ⟨v, hv, ⟨hlo.trans hle, not_le.mp hend⟩, hp⟩
    · by_cases hwv : w = v
      · subst hwv
        rw [hmin.unique hleast]
        exact hstack hwrite hst
      · refine h.stack hwrite w hw hst a ⟨⟨hother w hw hwv a hmin.1.1 hmin.1.2.2, hmin.1.2⟩,
          fun b hb => hmin.2 ⟨hhi.le.trans hb.1, hb.2⟩⟩

/-- The areas that end beyond an address. -/
def ahead (list : List Vma) (start : ℕ) : ℕ := (list.filter fun v => start < v.vmEnd).length

/-- …are fewer beyond the end of one of them. -/
theorem ahead_lt (hv : v ∈ list) (ha : v.Holds start) : ahead list v.vmEnd < ahead list start := by
  have hsub : (list.filter fun w => v.vmEnd < w.vmEnd).Sublist
      (list.filter fun w => start < w.vmEnd) := by
    refine List.monotone_filter_right list fun w hw => ?_
    have hw : v.vmEnd < w.vmEnd := of_decide_eq_true hw
    exact decide_eq_true (ha.2.trans hw)
  refine lt_of_le_of_ne hsub.length_le fun heq => ?_
  have hmem : v ∈ list.filter fun w => v.vmEnd < w.vmEnd := by
    rw [hsub.eq_of_length heq]
    exact List.mem_filter.mpr ⟨hv, decide_eq_true ha.2⟩
  exact absurd (of_decide_eq_true (List.mem_filter.mp hmem).2) (lt_irrefl _)

/-- **The walk decides whether the range is covered**, and ends if its fuel goes over the areas. -/
theorem Mm.Valid.wp_userMemLoop (h : mm.Valid) (start : ℕ) (write : Bool) (hstop : stop ≤ USERTOP)
    (hfuel : mm.mmapList.length < fuel) :
    Act.wp (userMemLoop fuel start stop write) (fun r mm' => mm'.Valid ∧
      mm'.mmapList = mm.mmapList ∧ (r = true ↔ Covered mm.mmapList start stop write))
      (fun _ => False) mm := by
  refine Act.wp_loop (fun n at' mm' => mm'.Valid ∧ mm'.mmapList = mm.mmapList ∧
    n = ahead mm.mmapList at' ∧
      (Covered mm.mmapList start stop write ↔ Covered mm.mmapList at' stop write))
    ?_ fuel (ahead mm.mmapList start) start mm ⟨h, rfl, rfl, Iff.rfl⟩ fun hle => ?_
  · rintro n at' mm' ⟨h', hlist, rfl, hsame⟩
    rw [hsame, Act.wp_ite]
    refine ⟨fun hlt => ?_, fun hge => ⟨h', hlist, iff_of_true rfl (.of_le (not_lt.mp hge))⟩⟩
    rw [Act.wp_bind, h'.wp_findVma, hlist]
    cases hscan : scan at' mm.mmapList with
    | none =>
      refine ⟨h', hlist, iff_of_false (by simp) (not_covered hlt fun v hv => ?_)⟩
      exact scan_eq_none.mp hscan v hv
    | some v =>
      have hcached : (mm'.cached (some v)).Valid := by
        have hcached : (mm'.cached (scan at' mm'.mmapList)).Valid := h'.cached
        rwa [hlist, hscan] at hcached
      obtain ⟨hv, ha⟩ := (hlist ▸ h'.scan_eq_some).mp hscan
      have hwrap : u64 (v.vmStart + PGSIZE) = v.vmStart + PGSIZE := by
        refine u64_of_lt ?_
        have hlo : v.vmStart ≤ at' := ha.1
        have hstop : stop ≤ 0x80000000 := hstop
        change v.vmStart + 4096 < 2 ^ 64
        omega
      have hiff := covered_iff write (hlist ▸ h'.sorted) hlt hv ha
      simp only [hwrap, Act.wp_ite, Act.wp_pure]
      refine ⟨fun hno => absurd ha.1 (not_le.mpr hno), fun _ => ⟨fun hno => ?_, fun hp =>
        ⟨fun hst => ?_, fun hst => ?_⟩⟩⟩
      · exact ⟨hcached, hlist, iff_of_false (by simp) fun hc => hno (hiff.mp hc).1.1⟩
      · refine ⟨hcached, hlist, iff_of_false (by simp) fun hc => ?_⟩
        exact absurd ((hiff.mp hc).1.2 hst.1 hst.2.1) (not_le.mpr hst.2.2)
      · refine ⟨_, ahead_lt hv ha, hcached, hlist, rfl, hiff.trans (and_iff_right ⟨not_not.mp hp,
          fun hw hstack => not_lt.mp fun hlow => hst ⟨hw, hstack, hlow⟩⟩)⟩
  · have := List.length_filter_le (fun v => decide (start < v.vmEnd)) mm.mmapList
    rw [ahead] at hle
    omega

/-! ## The whole check -/

/-- A range of user addresses, `addr + len` not wrapping round, that is not empty and covered. -/
structure Accessible (list : List Vma) (addr len : ℕ) (write : Bool) : Prop where
  nonempty : 0 < len
  base : USERBASE ≤ addr
  top : addr + len ≤ USERTOP
  covered : Covered list addr (addr + len) write

/-- Where `addr + len` wraps round, the sum ends below `addr`. -/
theorem userAccess_iff (haddr : addr < 2 ^ 64) (hlen : len < 2 ^ 64) :
    UserAccess addr (u64 (addr + len)) ↔ USERBASE ≤ addr ∧ 0 < len ∧ addr + len ≤ USERTOP := by
  have htop : USERTOP < 2 ^ 64 := by decide
  rw [UserAccess]
  by_cases hwrap : addr + len < 2 ^ 64
  · rw [u64_of_lt hwrap]
    exact and_congr_right fun _ => and_congr_left fun _ => by omega
  · have hsum : u64 (addr + len) = addr + len - 2 ^ 64 := by
      rw [u64]
      omega
    rw [hsum]
    constructor <;> intro h <;> omega

/-- **`user_mem_check` on an address space.** -/
theorem Mm.Valid.wp_userMemCheck (h : mm.Valid) (write : Bool) (haddr : addr < 2 ^ 64)
    (hlen : len < 2 ^ 64) (hfuel : mm.mmapList.length < fuel) :
    Act.wp (userMemCheck fuel addr len write) (fun r s => ∃ mm', s = some mm' ∧ mm'.Valid ∧
      mm'.mmapList = mm.mmapList ∧ (r = true ↔ Accessible mm.mmapList addr len write))
      (fun _ => False) (some mm) := by
  have huser := userAccess_iff haddr hlen
  simp only [userMemCheck, Act.wp_bind, Act.wp_get, Act.wp_ite]
  refine ⟨fun hyes => ?_, fun hno => ⟨mm, rfl, h, rfl, iff_of_false (by simp) fun hr => ?_⟩⟩
  · obtain ⟨hbase, hpos, htop⟩ := huser.mp hyes
    have hsum : u64 (addr + len) = addr + len := u64_of_lt (htop.trans_lt (by decide))
    obtain ⟨r, mm', hrun, hvalid, hlist, hr⟩ := Act.wp_false_iff.mp
      (h.wp_userMemLoop addr write hyes.2.2 hfuel)
    refine Act.wp_false_iff.mpr ⟨r, some mm', ?_, mm', rfl, hvalid, hlist, hr.trans ?_⟩
    · simp only [onMm, hrun, Except.map]
    · rw [hsum]
      exact ⟨fun hc => ⟨hpos, hbase, htop, hc⟩, Accessible.covered⟩
  · exact hno (huser.mpr ⟨hr.base, hr.nonempty, hr.top⟩)

/-- **`user_mem_check` decides coverage**, for every range of 64-bit addresses, and ends. -/
theorem userMemCheck_iff (h : mm.Valid) (haddr : addr < 2 ^ 64) (hlen : len < 2 ^ 64) (write : Bool) :
    ∃ enough, ∀ fuel ≥ enough, ∃ r mm', userMemCheck fuel addr len write (some mm) = .ok (r, some mm') ∧
      mm'.mmapList = mm.mmapList ∧ (r = true ↔ Accessible mm.mmapList addr len write) := by
  refine ⟨mm.mmapList.length + 1, fun fuel hfuel => ?_⟩
  obtain ⟨r, s, hrun, mm', rfl, -, hlist, hr⟩ :=
    Act.wp_false_iff.mp (h.wp_userMemCheck write haddr hlen hfuel)
  exact ⟨r, mm', hrun, hlist, hr⟩

/-- The one page of `onePage` can be read. -/
theorem userMemCheck_iff_onePage : Accessible onePage.mmapList 0x500010 0x20 false ∧
    ∃ enough, ∀ fuel ≥ enough, ∃ mm', userMemCheck fuel 0x500010 0x20 false (some onePage) =
      .ok (true, some mm') := by
  have hacc : Accessible onePage.mmapList 0x500010 0x20 false := by
    refine ⟨by decide, by decide, by decide, ⟨fun a hle hlt => ?_, fun hno => (nomatch hno)⟩⟩
    exact ⟨_, List.mem_singleton_self _, ⟨le_trans (by decide) hle, lt_trans hlt (by decide)⟩,
      by decide⟩
  obtain ⟨enough, h⟩ := userMemCheck_iff onePage_valid
    (show 0x500010 < 2 ^ 64 by decide) (show 0x20 < 2 ^ 64 by decide) false
  refine ⟨hacc, enough, fun fuel hfuel => ?_⟩
  obtain ⟨r, mm', hrun, -, hr⟩ := h fuel hfuel
  exact ⟨mm', hr.mpr hacc ▸ hrun⟩

end Covered

end UCore.Vmm
