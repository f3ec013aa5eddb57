import UCore.Mm.DupMmap

/-!
# Mm/UnmapRange — taking a range of pages away

    la ──path──▸ pt ──PTX──▸ p          la ──path──▸ pt ──PTX──▸ ·          ref p − 1

`unmap_range` of `kern/mm/pmm.c` goes from page to page, and over the whole of a table that is not
there.  An entry that is cleared cuts a path off, and with it all that is reached through it; the tables
themselves stay.
-/

namespace UCore.Paging

open Vmm Radix

/-- The end of a turn: `while (start != 0 && start < end)`. -/
def goesOn (start stop : ℕ) : ℕ ⊕ Unit := if start ≠ 0 ∧ start < stop then .inl start else .inr ()

/-- One turn of `unmap_range`. -/
def unmapTurn (pmm : Pmm) (pgdir stop start : ℕ) : Call (ℕ ⊕ Unit) := do
  match ← getPte pmm pgdir start false with
  | none => return goesOn (roundDown (u64 (start + PTSIZE)) PTSIZE) stop
  | some (pt, i) => do
    if (← entry pt i) ≠ 0 then
      pageRemovePte pmm pt i
    return goesOn (u64 (start + PGSIZE)) stop

/-- `unmap_range`. -/
def unmapRange (pmm : Pmm) (fuel pgdir start stop : ℕ) : Call Unit := do
  Act.require .panic (start % PGSIZE = 0 ∧ stop % PGSIZE = 0)
  Act.require .panic (UserAccess start stop)
  Act.loop .spin (unmapTurn pmm pgdir stop) fuel start

/-! ## From address to address -/

section Loop

variable {β α : Type} {size start stop fuel : ℕ} {b : β} {s : Phys} {E : Fault → Prop}

/-- **A loop over a range**, from each address to a later multiple of `size`, ends. -/
theorem wp_rangeLoop {turn : β → Call (β ⊕ α)} {Q : α → Phys → Prop} (addr : β → ℕ)
    (Inv : β → Phys → Prop)
    (hturn : ∀ b s, addr b < stop → size ∣ addr b → Inv b s → Act.wp (turn b) (fun r s' => r.elim
      (fun b' => addr b < addr b' ∧ addr b' < stop ∧ size ∣ addr b' ∧ Inv b' s') (Q · s')) E s)
    (hlt : addr b < stop) (hd : size ∣ addr b) (hfuel : stop / size < fuel) (hs : Inv b s) :
    Act.wp (Act.loop .spin turn fuel b) Q E s := by
  refine Act.wp_loop (fun n b s => n + addr b / size = stop / size ∧ addr b < stop ∧ size ∣ addr b ∧ Inv b s)
    (fun n b s hinv => ?_) fuel (stop / size - addr b / size) b s
    ⟨Nat.sub_add_cancel (Nat.div_le_div_right hlt.le), hlt, hd, hs⟩
    fun hle => absurd (hfuel.trans_le hle) (not_lt.mpr (Nat.sub_le ..))
  obtain ⟨hn, hb, hdb, hb'⟩ := hinv
  refine Act.wp_mono (hturn b s hb hdb hb') (fun r s' hr => ?_) fun _ => id
  cases r with
  | inl next =>
    obtain ⟨hlt', hstop, hdn, hnext⟩ := hr
    have hup : addr b / size < addr next / size := Nat.div_lt_div_of_lt_of_dvd hdn hlt'
    have hle : addr next / size ≤ stop / size := Nat.div_le_div_right hstop.le
    exact ⟨stop / size - addr next / size, by omega, Nat.sub_add_cancel hle, hstop, hdn, hnext⟩
  | inr a => exact hr

/-- …at or beyond the end of it, where the turns end as `goesOn` says. -/
theorem wp_addressLoop {turn : ℕ → Call (ℕ ⊕ Unit)} (Inv : ℕ → Phys → Prop)
    (hturn : ∀ b s, start ≤ b → b < stop → size ∣ b → Inv b s → Act.wp (turn b) (fun r s' =>
      ∃ next, r = goesOn next stop ∧ b < next ∧ size ∣ next ∧ Inv next s') E s)
    (hlt : start < stop) (hd : size ∣ start) (hfuel : stop / size < fuel) (hs : Inv start s) :
    Act.wp (Act.loop .spin turn fuel start) (fun _ s' => ∃ b, stop ≤ b ∧ Inv b s') E s := by
  refine wp_rangeLoop id (fun b s => start ≤ b ∧ Inv b s) (fun b s hb hdb hinv => ?_) hlt hd hfuel
    ⟨le_rfl, hs⟩
  refine Act.wp_mono (hturn b s hinv.1 hb hdb hinv.2) (fun r s' hr => ?_) fun _ => id
  obtain ⟨next, rfl, hlt', hdn, hnext⟩ := hr
  have hb : b < next := hlt'
  rw [goesOn]
  split
  · next hgo => exact ⟨hlt', hgo.2, hdn, hinv.1.trans hlt'.le, hnext⟩
  · next hend => exact ⟨next, by omega, hnext⟩

end Loop

variable {pmm : Pmm} {s₀ s s' : Phys} {pgdir la la' p f g i perm start stop fuel : ℕ} {q q' : List ℕ}
  {done done' : ℕ → Prop}

/-! ## An entry is cleared -/

/-- No path is longer than three. -/
theorem not_userPath_four {j k l : ℕ} : ¬ UserPath (i :: j :: k :: l :: q) := fun hq => by
  have hlen := hq.1
  simp only [List.length_cons] at hlen
  omega

/-- **The path `q` is cut off**: nothing is reached through it, and the rest is as it was. -/
structure CutOff (pmm : Pmm) (pgdir : ℕ) (q : List ℕ) (s s' : Phys) : Prop where
  tree : UserTree pmm s' pgdir
  gone : ∀ q', UserPath q' → q <+: q' → walk (tableNext s') pgdir q' = none
  kept : ∀ q', UserPath q' → ¬ q <+: q' → walk (tableNext s') pgdir q' = walk (tableNext s) pgdir q'
  mapping : ∀ la, la < LOWTOP → ¬ q <+: pathOf la → mapping s' pgdir la = mapping s pgdir la
  page : ∀ g, ¬ IsTable s pgdir g → s'.page g = s.page g

/-- With fewer paths, fewer pages are reached. -/
theorem CutOff.less (h : CutOff pmm pgdir q s s') (hq' : UserPath q')
    (hw : walk (tableNext s') pgdir q' = some g) : walk (tableNext s) pgdir q' = some g := by
  by_cases hpre : q <+: q'
  · rw [h.gone q' hq' hpre] at hw
    cases hw
  · rwa [← h.kept q' hq' hpre]

/-- **An entry is cleared**, and pages that were reached through it are perhaps freed. -/
theorem UserTree.cutOff (ht : UserTree pmm s pgdir) (hq : UserPath (q ++ [i]))
    (hf : walk (tableNext s) pgdir q = some f)
    (hpage : s'.page = Function.update s.page f (Bytes.putWord (s.page f) 8 (8 * i) 0))
    (hused : ∀ g ∈ s.used, (∀ q', UserPath q' → q ++ [i] <+: q' → walk (tableNext s) pgdir q' ≠ some g) →
      g ∈ s'.used) : CutOff pmm pgdir (q ++ [i]) s s' := by
  have hnext : ∀ g j, tableNext s' g j = if g = f ∧ j = i then none else tableNext s g j := fun g j => by
    rw [tableNext, pteOf_put (by decide) hpage]
    split
    · exact if_neg not_valid_zero
    · rfl
  have hle : ∀ g j x, tableNext s' g j = some x → tableNext s g j = some x := fun g j x hx => by
    rw [hnext] at hx
    split at hx
    · cases hx
    · exact hx
  have hkept : ∀ q', UserPath q' → ¬ q ++ [i] <+: q' →
      walk (tableNext s') pgdir q' = walk (tableNext s) pgdir q' := fun q' hq' hno =>
    ht.tree.walk_avoid hq.init hf
      (fun g j hne => by rw [hnext, if_neg fun heq => hne.elim (fun h => h heq.1) fun h => h heq.2]) q' hq' hno
  have hself : walk (tableNext s') pgdir q = some f := by
    rw [hkept q hq.init fun hpre => by simpa using hpre.length_le, hf]
  have hgone : ∀ q', q ++ [i] <+: q' → walk (tableNext s') pgdir q' = none := by
    rintro _ ⟨r, rfl⟩
    rw [walk_append, walk_concat, hself, Option.bind_some, hnext, if_pos ⟨rfl, rfl⟩, Option.bind_none]
  refine ⟨⟨ht.tree.mono hle, fun q' g hq' hw => ?_⟩, fun q' _ => hgone q', hkept, fun la hla hno => ?_,
    fun g hg => ?_⟩
  · -- a page that is still reached is reached by no path that is cut off
    have hpre : ¬ q ++ [i] <+: q' := fun hpre => by
      rw [hgone q' hpre] at hw
      cases hw
    rw [hkept q' hq' hpre] at hw
    obtain ⟨hg, hlt⟩ := ht.used q' g hq' hw
    exact ⟨hused g hg fun q'' hq'' hpre'' hw'' => hpre (ht.tree.inj q'' q' g hq'' hq' hw'' hw ▸ hpre''), hlt⟩
  · have hno₂ : ¬ q ++ [i] <+: [pdx1 la, pdx0 la] := fun hpre =>
      hno (hpre.trans (List.prefix_append [pdx1 la, pdx0 la] [ptx la]))
    refine mapping_congr (hkept _ (userPath₂ hla) hno₂) fun pt hpt => ?_
    rw [pteOf_put (by decide) hpage, if_neg]
    rintro ⟨rfl, hx⟩
    obtain rfl := ht.tree.inj q _ pt hq.init (userPath₂ hla) hf hpt
    exact hno (hx ▸ List.prefix_refl _)
  · have hgf : g ≠ f := fun heq => hg ⟨q, hq.init, by have := hq.1; simp at this; omega, heq ▸ hf⟩
    rw [hpage, Function.update_of_ne hgf]

/-! ## One page -/

/-- What `page_remove_pte` makes of the memory, where the entry named the page `p`. -/
def removed (s : Phys) (pt i p : ℕ) : Phys where
  page := Function.update s.page pt (Bytes.putWord (s.page pt) 8 (8 * i) 0)
  ref := Function.update s.ref p (s.ref p - 1)
  used := if s.ref p = 1 then s.used.erase p else s.used
  starved := s.starved

/-- **`page_remove_pte`** of an entry that is valid. -/
theorem wp_pageRemovePte {pt : ℕ} (hv : Valid (pteOf s pt i)) (hlt : pageOf (pteOf s pt i) < pmm.npage) :
    Act.wp (pageRemovePte pmm pt i) (fun _ s' => s' = removed s pt i (pageOf (pteOf s pt i)))
      (fun _ => False) s := by
  rw [pageRemovePte, Act.wp_bind, entry, Act.wp_bind, Act.wp_get, Act.wp_pure]
  change Act.wp (if Valid (pteOf s pt i) then _ else _) _ _ s
  rw [if_pos hv, Act.wp_bind]
  refine wp_pte2page hv hlt ?_
  rw [setRef, Act.wp_bind, Act.wp_modify, Act.wp_bind, Act.wp_get, Act.wp_ite]
  dsimp only
  rw [Function.update_self, sub_eq_zero]
  refine ⟨fun hone => ?_, fun hmore => ?_⟩
  · rw [freePage, Act.wp_bind, Act.wp_modify, removed, if_pos hone]
    rfl
  · rw [removed, if_neg hmore]
    rfl

/-- **Pages taken away, so far**: at the addresses that are `done`.  Each page has lost a reference, and with
its last one it is free. -/
structure Unmapping (pmm : Pmm) (pgdir : ℕ) (s₀ : Phys) (done : ℕ → Prop) (s : Phys) : Prop where
  tree : UserTree pmm s pgdir
  tables : ∀ q, UserPath q → q.length < 3 → walk (tableNext s) pgdir q = walk (tableNext s₀) pgdir q
  gone : ∀ la, la < LOWTOP → PGSIZE ∣ la → done la → mapping s pgdir la = none
  kept : ∀ la, la < LOWTOP → PGSIZE ∣ la → ¬ done la → mapping s pgdir la = mapping s₀ pgdir la
  page : ∀ g, ¬ IsTable s₀ pgdir g → s.page g = s₀.page g
  dropped : ∀ la p perm, la < LOWTOP → PGSIZE ∣ la → done la → mapping s₀ pgdir la = some (p, perm) →
    s.ref p = s₀.ref p - 1 ∧ (p ∈ s.used ↔ s₀.ref p ≠ 1)
  others : ∀ g, (∀ la perm, la < LOWTOP → PGSIZE ∣ la → done la → mapping s₀ pgdir la ≠ some (g, perm)) →
    s.ref g = s₀.ref g ∧ (g ∈ s.used ↔ g ∈ s₀.used)
  starved : s.starved = s₀.starved

/-- No page is at two addresses. -/
theorem UserTree.mapping_inj (h : UserTree pmm s pgdir) {perm' : ℕ} (hla : la < LOWTOP) (hla' : la' < LOWTOP)
    (hd : PGSIZE ∣ la) (hd' : PGSIZE ∣ la') (hm : mapping s pgdir la = some (p, perm))
    (hm' : mapping s pgdir la' = some (p, perm')) : la = la' :=
  pathOf_inj hla hla' hd hd' (h.tree.inj _ _ p (userPath hla) (userPath hla') (walk_of_mapping hm)
    (walk_of_mapping hm'))

namespace Unmapping

theorem refl (h : UserTree pmm s pgdir) : Unmapping pmm pgdir s (fun _ => False) s :=
  ⟨h, fun _ _ _ => rfl, fun _ _ _ hno => hno.elim, fun _ _ _ _ => rfl, fun _ _ => rfl,
    fun _ _ _ _ _ hno => hno.elim, fun _ _ => ⟨rfl, Iff.rfl⟩, rfl⟩

theorem congr (h : Unmapping pmm pgdir s₀ done s)
    (hiff : ∀ la, la < LOWTOP → PGSIZE ∣ la → (done' la ↔ done la)) : Unmapping pmm pgdir s₀ done' s :=
  { h with
    gone := fun la hla hd hdone => h.gone la hla hd ((hiff la hla hd).mp hdone)
    kept := fun la hla hd hdone => h.kept la hla hd fun hyes => hdone ((hiff la hla hd).mpr hyes)
    dropped := fun la p perm hla hd hdone => h.dropped la p perm hla hd ((hiff la hla hd).mp hdone)
    others := fun g hno => h.others g fun la perm hla hd hdone =>
      hno la perm hla hd ((hiff la hla hd).mpr hdone) }

/-- Where nothing is mapped, there is nothing to be taken away. -/
theorem skip {next : ℕ} (h : Unmapping pmm pgdir s₀ done s)
    (hnone : ∀ la, la < LOWTOP → PGSIZE ∣ la → start ≤ la → la < next → mapping s pgdir la = none) :
    Unmapping pmm pgdir s₀ (AndFrom done start next stop) s := by
  have hnone₀ : ∀ la, la < LOWTOP → PGSIZE ∣ la → ¬ done la → start ≤ la → la < next →
      mapping s₀ pgdir la = none := fun la hla hd hdone hge hlt =>
    (h.kept la hla hd hdone).symm.trans (hnone la hla hd hge hlt)
  refine { h with
    gone := fun la hla hd hdone => ?_
    kept := fun la hla hd hdone => h.kept la hla hd fun hyes => hdone (.inl hyes)
    dropped := fun la p perm hla hd hdone hm => ?_
    others := fun g hno => h.others g fun la perm hla hd hdone => hno la perm hla hd (.inl hdone) }
  · rcases hdone with hdone | ⟨hge, hlt, -⟩
    · exact h.gone la hla hd hdone
    · exact hnone la hla hd hge hlt
  · by_cases hold : done la
    · exact h.dropped la p perm hla hd hold hm
    · obtain ⟨hge, hlt, -⟩ := hdone.resolve_left hold
      rw [hnone₀ la hla hd hold hge hlt] at hm
      cases hm

/-- **A page less**: the one at `la`. -/
theorem remove {pt : ℕ} (h : Unmapping pmm pgdir s₀ done s) (ht₀ : UserTree pmm s₀ pgdir) (hla : la < LOWTOP)
    (hd : PGSIZE ∣ la) (hdone : ¬ done la) (hpt : walk (tableNext s) pgdir [pdx1 la, pdx0 la] = some pt)
    (hm : mapping s pgdir la = some (p, perm)) :
    Unmapping pmm pgdir s₀ (AndAt done la) (removed s pt (ptx la) p) := by
  have hw : walk (tableNext s) pgdir (pathOf la) = some p := walk_of_mapping hm
  have hm₀ : mapping s₀ pgdir la = some (p, perm) := (h.kept la hla hd hdone).symm.trans hm
  have hcut : CutOff pmm pgdir (pathOf la) s (removed s pt (ptx la) p) :=
    h.tree.cutOff (q := [pdx1 la, pdx0 la]) (userPath hla) hpt rfl fun g hg hno => by
      have hgp : g ≠ p := fun heq => hno _ (userPath hla) (List.prefix_refl _) (heq ▸ hw)
      rw [removed]
      dsimp only
      split
      · exact Finset.mem_erase.mpr ⟨hgp, hg⟩
      · exact hg
  have hpath : ∀ la', la' < LOWTOP → PGSIZE ∣ la' → la' ≠ la → ¬ pathOf la <+: pathOf la' :=
    fun la' hla' hd' hne hpre => hne (pathOf_inj hla' hla hd' hd (hpre.eq_of_length rfl).symm)
  have hshort : ∀ q', q'.length < 3 → ¬ pathOf la <+: q' := fun q' hlen hpre =>
    absurd (hpre.length_le.trans_lt hlen) (lt_irrefl 3)
  have htables : ∀ q', UserPath q' → q'.length < 3 →
      walk (tableNext (removed s pt (ptx la) p)) pgdir q' = walk (tableNext s₀) pgdir q' := fun q' hq' hlen =>
    (hcut.kept q' hq' (hshort q' hlen)).trans (h.tables q' hq' hlen)
  -- before the page was taken away, its count was as it had been
  have hp := h.others p fun la' perm' hla' hd' hdone' hm' =>
    hdone (ht₀.mapping_inj hla' hla hd' hd hm' hm₀ ▸ hdone')
  have hpused : p ∈ s₀.used := (ht₀.used _ p (userPath hla) (walk_of_mapping hm₀)).1
  have hother : ∀ g, g ≠ p → (removed s pt (ptx la) p).ref g = s.ref g ∧
      (g ∈ (removed s pt (ptx la) p).used ↔ g ∈ s.used) := fun g hg => by
    refine ⟨Function.update_of_ne hg .., ?_⟩
    rw [removed]
    dsimp only
    split
    · rw [Finset.mem_erase, and_iff_right hg]
    · rfl
  refine ⟨hcut.tree, htables, fun la' hla' hd' hdone' => ?_, fun la' hla' hd' hdone' => ?_, fun g hg => ?_,
    fun la' p' perm' hla' hd' hdone' hm' => ?_, fun g hno => ?_, h.starved⟩
  · by_cases heq : la' = la
    · subst heq
      exact mapping_eq_none.mpr (hcut.gone _ (userPath hla') (List.prefix_refl _))
    · rw [hcut.mapping la' hla' (hpath la' hla' hd' heq), h.gone la' hla' hd' (hdone'.resolve_right heq)]
  · obtain ⟨hold, hne⟩ := not_or.mp hdone'
    rw [hcut.mapping la' hla' (hpath la' hla' hd' hne), h.kept la' hla' hd' hold]
  · have hg' : ¬ IsTable s pgdir g := fun htab => hg <| htab.imp fun q hq =>
      ⟨hq.1, hq.2.1, (h.tables q hq.1 hq.2.1).symm.trans hq.2.2⟩
    rw [hcut.page g hg', h.page g hg]
  · by_cases heq : la' = la
    · subst heq
      obtain rfl : p' = p := (Prod.mk.inj (Option.some.inj (hm'.symm.trans hm₀))).1
      refine ⟨(Function.update_self ..).trans (by rw [hp.1]), ?_⟩
      rw [removed]
      dsimp only
      rw [hp.1]
      split
      · next hone => simp [hone]
      · next hmore => exact iff_of_true (hp.2.mpr hpused) hmore
    · have hold := hdone'.resolve_right heq
      have hpp : p' ≠ p := fun hpp => heq (ht₀.mapping_inj hla' hla hd' hd (hpp ▸ hm') hm₀)
      rw [(hother p' hpp).1, (hother p' hpp).2]
      exact h.dropped la' p' perm' hla' hd' hold hm'
  · have hgp : g ≠ p := fun heq => hno la perm hla hd (.inr rfl) (heq ▸ hm₀)
    rw [(hother g hgp).1, (hother g hgp).2]
    exact h.others g fun la' perm' hla' hd' hold => hno la' perm' hla' hd' (.inl hold)

/-- **One turn** takes a page away, or finds none. -/
theorem wp_unmapTurn (h : Unmapping pmm pgdir s₀ done s) (ht₀ : UserTree pmm s₀ pgdir) (hlt : start < stop)
    (hstop : stop ≤ USERTOP) (hd : PGSIZE ∣ start) (hdone : ¬ done start) :
    Act.wp (unmapTurn pmm pgdir stop start) (fun r s' => ∃ next, r = goesOn next stop ∧ start < next ∧
      PGSIZE ∣ next ∧ Unmapping pmm pgdir s₀ (AndFrom done start next stop) s') (fun _ => False) s := by
  have hla : start < LOWTOP := hlt.trans_le (hstop.trans USERTOP_le)
  have hpage : u64 (start + PGSIZE) = start + PGSIZE := by
    have hla : start < 511 * 2 ^ 30 := hla
    exact u64_of_lt (show start + 4096 < 2 ^ 64 by omega)
  have hone : PGSIZE ∣ u64 (start + PGSIZE) := hpage.symm ▸ hd.add dvd_rfl
  have hmore : start < u64 (start + PGSIZE) := hpage.symm ▸ Nat.lt_add_of_pos_right (by decide)
  rw [unmapTurn, Act.wp_bind]
  refine Act.wp_mono (wp_getPte_find h.tree.used hla) (fun r s₁ h₁ => ?_) fun _ => id
  obtain ⟨rfl, hr⟩ := h₁
  cases hpt : walk (tableNext s₁) pgdir [pdx1 start, pdx0 start] with
  | none =>
    rw [hpt] at hr
    rw [hr]
    obtain ⟨hlt', hd', hpath⟩ := roundDown_table hla
    rw [Option.map_none, Act.wp_pure]
    exact ⟨roundDown (u64 (start + PTSIZE)) PTSIZE, rfl, hlt', hd', h.skip fun la _ _ hge hlt =>
      mapping_of_no_table ((congrArg _ (hpath la hge hlt)).trans hpt)⟩
  | some pt =>
    rw [hpt] at hr
    rw [hr]
    have hskip : ¬ Valid (pteOf s₁ pt (ptx start)) →
        Unmapping pmm pgdir s₀ (AndFrom done start (u64 (start + PGSIZE)) stop) s₁ := fun hv =>
      h.skip fun la hla' hdla hge hlt => by
        obtain rfl := eq_of_page hd hdla hge (hpage ▸ hlt)
        exact mapping_of_not_valid hpt hv
    simp only [Option.map_some, entry, Act.wp_bind, Act.wp_get, Act.wp_pure, Act.wp_ite]
    refine ⟨fun _ => ?_, fun hzero => ⟨_, rfl, hmore, hone, hskip fun hv => ?_⟩⟩
    · by_cases hv : Valid (pteOf s₁ pt (ptx start))
      · have hm := mapping_of_entry hpt hv
        have hlt' := (h.tree.used _ _ (userPath hla) (walk_of_mapping hm)).2
        refine Act.wp_mono (wp_pageRemovePte hv hlt') (fun _ s₂ h₂ => ?_) fun _ => id
        refine ⟨_, rfl, hmore, hone, h₂ ▸ (h.remove ht₀ hla hd hdone hpt hm).congr fun la _ hdla =>
          or_congr_right ⟨fun hin => eq_of_page hd hdla hin.1 (hpage ▸ hin.2.1), ?_⟩⟩
        rintro rfl
        exact ⟨le_rfl, hmore, hlt⟩
      · rw [pageRemovePte, Act.wp_bind, entry, Act.wp_bind, Act.wp_get, Act.wp_pure]
        change Act.wp (if Valid (pteOf s₁ pt (ptx start)) then _ else _) _ _ s₁
        rw [if_neg hv]
        exact ⟨_, rfl, hmore, hone, hskip hv⟩
    · have hzero : pteOf s₁ pt (ptx start) = 0 := not_not.mp hzero
      exact not_valid_zero (hzero ▸ hv)

/-- **`unmap_range`** takes the pages of the range away. -/
theorem wp_unmapRange (h : Unmapping pmm pgdir s₀ done s) (ht₀ : UserTree pmm s₀ pgdir)
    (haccess : UserAccess start stop) (hd : PGSIZE ∣ start) (hdstop : PGSIZE ∣ stop)
    (hdone : ∀ la, start ≤ la → la < stop → ¬ done la) (hfuel : USERTOP / PGSIZE < fuel) :
    Act.wp (unmapRange pmm fuel pgdir start stop) (fun _ s' =>
      Unmapping pmm pgdir s₀ (fun la => done la ∨ start ≤ la ∧ la < stop) s') (fun _ => False) s := by
  have hstop := haccess.2.2
  simp only [unmapRange, Act.wp_bind, Act.wp_require]
  refine ⟨fun _ => ⟨fun _ => ?_, fun hno => absurd haccess hno⟩,
    fun hno => absurd ⟨Nat.mod_eq_zero_of_dvd hd, Nat.mod_eq_zero_of_dvd hdstop⟩ hno⟩
  have hstart : Unmapping pmm pgdir s₀ (AndFrom done start start stop) s := h.congr fun la _ _ =>
    ⟨fun hyes => hyes.resolve_right fun hno => absurd (hno.1.trans_lt hno.2.1) (lt_irrefl _), .inl⟩
  refine Act.wp_mono (wp_addressLoop (fun b s => Unmapping pmm pgdir s₀ (AndFrom done start b stop) s)
    (fun b s hge hb hdb hinv => ?_) haccess.2.1 hd
    ((Nat.div_le_div_right hstop).trans_lt hfuel) hstart) ?_ fun _ => id
  · have hnot : ¬ AndFrom done start b stop b := fun hyes => hyes.elim (hdone b hge hb) fun hno =>
      absurd hno.2.1 (lt_irrefl b)
    refine Act.wp_mono (hinv.wp_unmapTurn ht₀ hb hstop hdb hnot) (fun r s' hr => ?_) fun _ => id
    obtain ⟨next, rfl, hlt, hdn, hnext⟩ := hr
    refine ⟨next, rfl, hlt, hdn, hnext.congr fun la _ _ => ?_⟩
    simp only [AndFrom]
    rw [or_assoc]
    exact or_congr_right (by omega)
  · rintro - s' ⟨b, hb, hinv⟩
    exact hinv.congr fun la _ _ => or_congr_right
      ⟨fun hin => ⟨hin.1, hin.2.trans_le hb, hin.2⟩, fun hin => ⟨hin.1, hin.2.2⟩⟩

end Unmapping

/-! ## The pages are gone -/

/-- **Pages taken away**: those of the addresses that are `done`.  Each has lost a reference, and is free if that was
its last; the rest is as it was. -/
structure Unmapped (pmm : Pmm) (pgdir : ℕ) (s₀ : Phys) (done : ℕ → Prop) (s : Phys) : Prop where
  tree : UserTree pmm s pgdir
  gone : ∀ la, la < LOWTOP → done la → mapping s pgdir la = none
  kept : ∀ la, la < LOWTOP → ¬ done la → mapping s pgdir la = mapping s₀ pgdir la
  page : ∀ g, ¬ IsTable s₀ pgdir g → s.page g = s₀.page g
  dropped : ∀ la p perm, la < LOWTOP → done la → mapping s₀ pgdir la = some (p, perm) →
    s.ref p = s₀.ref p - 1 ∧ (p ∈ s.used ↔ s₀.ref p ≠ 1)
  others : ∀ g, (∀ la perm, la < LOWTOP → done la → mapping s₀ pgdir la ≠ some (g, perm)) →
    s.ref g = s₀.ref g ∧ (g ∈ s.used ↔ g ∈ s₀.used)

/-- Whole pages are gone. -/
theorem Unmapping.unmapped (h : Unmapping pmm pgdir s₀ done s)
    (hround : ∀ la, done (roundDown la PGSIZE) ↔ done la) : Unmapped pmm pgdir s₀ done s := by
  have hle : ∀ la, la < LOWTOP → roundDown la PGSIZE < LOWTOP := fun la hla =>
    (roundDown_le la PGSIZE).trans_lt hla
  refine ⟨h.tree, fun la hla hdone => ?_, fun la hla hdone => ?_, h.page, fun la p perm hla hdone hm => ?_,
    fun g hno => h.others g fun la perm hla _ => hno la perm hla⟩
  · rw [← mapping_roundDown]
    exact h.gone _ (hle la hla) (dvd_roundDown ..) ((hround la).mpr hdone)
  · rw [← mapping_roundDown, h.kept _ (hle la hla) (dvd_roundDown ..) (mt (hround la).mp hdone),
      mapping_roundDown]
  · rw [← mapping_roundDown] at hm
    exact h.dropped _ p perm (hle la hla) (dvd_roundDown ..) ((hround la).mpr hdone) hm

/-- **`unmap_range` takes the pages of a range away**, and nothing else. -/
theorem unmapRange_unmapped (ht : UserTree pmm s pgdir) (haccess : UserAccess start stop)
    (hd : PGSIZE ∣ start) (hdstop : PGSIZE ∣ stop) (hfuel : USERTOP / PGSIZE < fuel) :
    ∃ s', unmapRange pmm fuel pgdir start stop s = .ok ((), s') ∧
      Unmapped pmm pgdir s (fun la => start ≤ la ∧ la < stop) s' := by
  obtain ⟨⟨⟩, s', hrun, hs'⟩ := Act.wp_false_iff.mp ((Unmapping.refl ht).wp_unmapRange ht haccess hd hdstop
    (fun _ _ _ hno => hno) hfuel)
  refine ⟨s', hrun, (hs'.congr fun la _ _ => (or_iff_right id).symm).unmapped fun la => ?_⟩
  have hd : start % 4096 = 0 := Nat.mod_eq_zero_of_dvd hd
  have hdstop : stop % 4096 = 0 := Nat.mod_eq_zero_of_dvd hdstop
  change start ≤ la - la % 4096 ∧ la - la % 4096 < stop ↔ start ≤ la ∧ la < stop
  omega

/-! ## The page of `parent` -/

/-- A page with one entry names one page. -/
theorem oneEntry_next_eq (pte : ℕ) (hpte : pte < 2 ^ 64) (hs : s.page p = oneEntry i pte) (hv : Valid pte) (k : ℕ) :
    tableNext s p k = if k = i then some (pageOf pte) else none := by
  rw [tableNext, pteOf_oneEntry hpte hs]
  by_cases hk : k = i
  · rw [if_pos hk, if_pos hk, if_pos hv]
  · rw [if_neg hk, if_neg hk, if_neg not_valid_zero]

/-- A path through such a page takes its entry. -/
theorem walk_of_oneEntry {k : ℕ} (h : ∀ k, tableNext s p k = if k = i then some g else none)
    (hw : walk (tableNext s) p (k :: q) = some f) : k = i ∧ walk (tableNext s) g q = some f := by
  rw [walk, h] at hw
  by_cases hk : k = i
  · rw [if_pos hk, Option.bind_some] at hw
    exact ⟨hk, hw⟩
  · rw [if_neg hk] at hw
    cases hw

/-- **The tables of `parent`.** -/
theorem parent_walk (hq : UserPath q) (hw : walk (tableNext parent.phys) 1 q = some f) :
    q = [] ∧ f = 1 ∨ q = [0] ∧ f = 2 ∨ q = [0, 1] ∧ f = 3 ∨ q = [0, 1, 0] ∧ f = 4 := by
  have h₁ : ∀ k, tableNext parent.phys 1 k = if k = 0 then some 2 else none :=
    oneEntry_next_eq (pteCreate 2 (PTE_U ||| PTE_V)) (by decide) rfl (by decide)
  have h₂ : ∀ k, tableNext parent.phys 2 k = if k = 1 then some 3 else none :=
    oneEntry_next_eq (pteCreate 3 (PTE_U ||| PTE_V)) (by decide) rfl (by decide)
  have h₃ : ∀ k, tableNext parent.phys 3 k = if k = 0 then some 4 else none :=
    oneEntry_next_eq (pteCreate 4 (PTE_U ||| PTE_R ||| PTE_V)) (by decide) rfl (by decide)
  rcases q with _ | ⟨i, q⟩
  · exact .inl ⟨rfl, (Option.some.inj hw).symm⟩
  obtain ⟨hi, hw⟩ := walk_of_oneEntry h₁ hw
  rcases q with _ | ⟨j, q⟩
  · exact .inr (.inl ⟨by rw [hi], (Option.some.inj hw).symm⟩)
  obtain ⟨hj, hw⟩ := walk_of_oneEntry h₂ hw
  rcases q with _ | ⟨k, q⟩
  · exact .inr (.inr (.inl ⟨by rw [hi, hj], (Option.some.inj hw).symm⟩))
  obtain ⟨hk, hw⟩ := walk_of_oneEntry h₃ hw
  rcases q with _ | ⟨l, q⟩
  · exact .inr (.inr (.inr ⟨by rw [hi, hj, hk], (Option.some.inj hw).symm⟩))
  exact absurd hq not_userPath_four

theorem parent_tree : UserTree lowest parent.phys 1 := by
  refine ⟨⟨fun _ _ => UserPath.init, fun q q' f hq hq' hw hw' => ?_⟩, parent_source.used⟩
  rcases parent_walk hq hw with ⟨rfl, rfl⟩ | ⟨rfl, rfl⟩ | ⟨rfl, rfl⟩ | ⟨rfl, rfl⟩ <;>
    rcases parent_walk hq' hw' with ⟨rfl, h⟩ | ⟨rfl, h⟩ | ⟨rfl, h⟩ | ⟨rfl, h⟩ <;> first | rfl | cases h

/-- **The page of `parent` is taken away**, and is free. -/
theorem unmapRange_unmapped_parent : ∃ s', unmapRange lowest 600000 1 0x200000 0x201000 parent.phys =
    .ok ((), s') ∧ mapping s' 1 0x200007 = none ∧ 4 ∉ s'.used := by
  obtain ⟨s', hrun, h⟩ : ∃ s', unmapRange lowest 600000 1 0x200000 0x201000 parent.phys = .ok ((), s') ∧
      Unmapped lowest 1 parent.phys (fun la => 0x200000 ≤ la ∧ la < 0x201000) s' :=
    unmapRange_unmapped parent_tree (by decide) ⟨512, rfl⟩ ⟨513, rfl⟩ (by decide)
  have hm : mapping parent.phys 1 0x200000 = some (4, PTE_U ||| PTE_R ||| PTE_V) := by decide +kernel
  exact ⟨s', hrun, h.gone _ (by decide) ⟨by decide, by decide⟩,
    fun hin => (h.dropped _ 4 _ (by decide) ⟨by decide, by decide⟩ hm).2.mp hin rfl⟩

end UCore.Paging
