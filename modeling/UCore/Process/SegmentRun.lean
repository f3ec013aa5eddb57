import UCore.Process.Segment

/-!
# Process/SegmentRun — the pages of a segment

    base ──▸ va ──bytes are right──▸ start ──── la ──nothing has changed──▸

`Built` holds between the turns of either loop, whatever the alignment of the segment's ends: the bytes
up to `start` are right, the pages up to `la` are mapped, and outside of these the process sees what it
saw before.
-/

namespace UCore.Exec

open Vmm Paging

theorem sub64_of_le {a b : ℕ} (h : b ≤ a) (ha : a < 2 ^ 64) : sub64 a b = a - b := by
  rw [sub64, u64]
  omega

/-- What a segment holds at an address. -/
def segByte (bytes : ℕ → UInt8) (ph : Proghdr) (a : ℕ) : UInt8 :=
  if a < ph.va + ph.filesz then bytes (ph.offset + (a - ph.va)) else 0

/-- **The pages of a segment, so far.** -/
structure Built (pmm : Pmm) (pgdir perm base va : ℕ) (f : ℕ → UInt8) (s₀ : Phys) (c : Cursor)
    (s : Phys) : Prop where
  tree : UserTree pmm s pgdir
  bytes : ∀ a, va ≤ a → a < c.start → view s pgdir a = some (f a, perm)
  last : base < c.la → mapping s pgdir (c.la - PGSIZE) = some (c.page, perm)
  mapped : ∀ a, a < LOWTOP → a < base ∨ c.la ≤ a → mapping s pgdir a = mapping s₀ pgdir a
  seen : ∀ a, a < LOWTOP → a < base ∨ c.la ≤ a → view s pgdir a = view s₀ pgdir a
  starved : s.starved = s₀.starved

/-- The page at `la` is the next to be mapped, from `lo` on or from its start. -/
structure Cursor.AtPage (base va lo : ℕ) (c : Cursor) : Prop where
  dvd : PGSIZE ∣ c.la
  baseLe : base ≤ c.la
  loLe : lo ≤ c.start
  le : c.la ≤ c.start
  lt : c.start < c.la + PGSIZE
  start : c.start = va ∨ c.start = c.la

/-- The page before `la` was the last. -/
structure Cursor.Ends (base stop : ℕ) (c : Cursor) : Prop where
  dvd : PGSIZE ∣ c.la
  baseLe : base + PGSIZE ≤ c.la
  start : c.start = stop
  lt : c.la < c.start + PGSIZE
  le : c.start ≤ c.la

section Pages

variable {pmm : Pmm} {rd : Reader} {pgdir perm base va lo top stop fuel : ℕ} {f : ℕ → UInt8}
  {s₀ s s' : Phys} {c c' : Cursor} {ph : Proghdr} {bytes : ℕ → UInt8}
  {fill : ℕ → ℕ → ℕ → ℕ → Paging.Call ℤ}

/-- The addresses of a page. -/
theorem page_iff {a la : ℕ} (hd : PGSIZE ∣ la) :
    a / PGSIZE = la / PGSIZE ↔ la ≤ a ∧ a < la + PGSIZE := by
  have hd : la % 4096 = 0 := Nat.mod_eq_zero_of_dvd hd
  change a / 4096 = la / 4096 ↔ la ≤ a ∧ a < la + 4096
  omega

/-- A page that starts below a page's end ends there at the latest. -/
theorem page_le {la : ℕ} (hd : PGSIZE ∣ la) (hdtop : PGSIZE ∣ top) (hlt : la < top) :
    la + PGSIZE ≤ top := by
  have hd : la % 4096 = 0 := Nat.mod_eq_zero_of_dvd hd
  have hdtop : top % 4096 = 0 := Nat.mod_eq_zero_of_dvd hdtop
  change la + 4096 ≤ top
  omega

/-- `size` is what is left of the page or of the segment. -/
theorem sizeIn_eq (hle : c.la ≤ c.start) (hlt : c.start < c.la + PGSIZE) (hstop : c.start < stop)
    (htop : c.la + PGSIZE < 2 ^ 64) :
    c.start + sizeIn c.start c.la stop = min stop (c.la + PGSIZE) ∧
      sub64 c.start c.la = c.start - c.la := by
  have hpg : PGSIZE = 4096 := rfl
  have hoff : sub64 c.start c.la = c.start - c.la := sub64_of_le hle (by omega)
  have hsize : sub64 PGSIZE (c.start - c.la) = PGSIZE - (c.start - c.la) :=
    sub64_of_le (by omega) (by omega)
  have hend : u64 (c.la + PGSIZE) = c.la + PGSIZE := u64_of_lt (by omega)
  refine ⟨?_, hoff⟩
  rw [sizeIn, hoff, hsize, hend]
  split
  · next h =>
    have hrest : sub64 (c.la + PGSIZE) stop = c.la + PGSIZE - stop := sub64_of_le h.le (by omega)
    rw [hrest, sub64_of_le (by omega) (by omega), min_eq_left h.le]
    omega
  · next h =>
    rw [min_eq_right (not_lt.mp h)]
    omega

/-- What `fill` is to do: put the bytes `f` in the page, unless it fails. -/
def Fills (f : ℕ → UInt8) (lo stop : ℕ) (fill : ℕ → ℕ → ℕ → ℕ → Paging.Call ℤ) : Prop :=
  ∀ page off size start s, lo ≤ start → start + size ≤ stop →
    Act.wp (fill page off size start) (fun ret s' => ret = 0 →
      ∃ g, s' = stored s page off size g ∧ ∀ i < size, g i = f (start + i)) (fun _ => True) s

/-- **One page more.** -/
theorem Built.add {p size : ℕ} {g : ℕ → UInt8} {s₁ : Phys}
    (h : Built pmm pgdir perm base va f s₀ c s) (hat : c.AtPage base va lo)
    (hadd : PageAdded pmm pgdir c.la p perm s s₁) (htop : c.la + PGSIZE ≤ USERTOP)
    (hsize : c.start + size ≤ c.la + PGSIZE) (hg : ∀ i < size, g i = f (c.start + i)) :
    Built pmm pgdir perm base va f s₀ ⟨c.start + size, c.la + PGSIZE, p⟩
      (stored s₁ p (c.start - c.la) size g) := by
  have hpg : PGSIZE = 4096 := rfl
  have hle := USERTOP_le
  have hla : c.la < LOWTOP := by omega
  have hmod : c.la % 4096 = 0 := Nat.mod_eq_zero_of_dvd hat.dvd
  have hstart := hat.le
  have hbase := hat.baseLe
  obtain ⟨htree, hmap, hin, hout⟩ := hadd.tree.stored hla hadd.self (c.start - c.la) size g
  have hother : ∀ a, a < LOWTOP → a < c.la ∨ c.la + PGSIZE ≤ a → a / PGSIZE ≠ c.la / PGSIZE :=
    fun a _ hno hpage => by
      have := (page_iff hat.dvd).mp hpage
      omega
  have hkeep : ∀ a, a < LOWTOP → a < c.la ∨ c.la + PGSIZE ≤ a →
      mapping (stored s₁ p (c.start - c.la) size g) pgdir a = mapping s pgdir a ∧
        view (stored s₁ p (c.start - c.la) size g) pgdir a = view s pgdir a :=
    fun a ha hno => ⟨(hmap a ha).trans (hadd.mapping a ha (hother a ha hno)),
      (hout a ha fun hno' => hother a ha hno hno'.1).trans (hadd.view a ha (hother a ha hno))⟩
  refine ⟨htree, fun a hva hlt => ?_, fun _ => ?_, fun a ha hno => ?_, fun a ha hno => ?_,
    hadd.starved.trans h.starved⟩
  · dsimp only at hlt
    by_cases hold : a < c.start
    · -- before `start` there is no address of this page
      have hbelow : a < c.la := by
        rcases hat.start with heq | heq <;> omega
      rw [(hkeep a (by omega) (.inl hbelow)).2]
      exact h.bytes a hva hold
    · have hoff : a % 4096 - (c.start - c.la) = a - c.start := by omega
      have hlo : c.start - c.la ≤ a % 4096 := by omega
      have hhi : a % 4096 < c.start - c.la + size := by omega
      rw [hin a (by omega) ((page_iff hat.dvd).mpr ⟨by omega, by omega⟩) hlo hhi]
      have hval : g (a % PGSIZE - (c.start - c.la)) = f a := by
        have hga := hg (a - c.start) (by omega)
        rw [show c.start + (a - c.start) = a by omega, ← hoff] at hga
        exact hga
      rw [hval]
  · dsimp only
    rw [Nat.add_sub_cancel, hmap c.la hla]
    exact hadd.self
  · dsimp only at hno
    rw [(hkeep a ha (by omega)).1]
    exact h.mapped a ha (by omega)
  · dsimp only at hno
    rw [(hkeep a ha (by omega)).2]
    exact h.seen a ha (by omega)

/-- **One turn of a loop.** -/
theorem Built.wp_pageTurn (h : Built pmm pgdir (pagePerm perm) base va f s₀ c s) (hfresh : pmm.Fresh)
    (hat : c.AtPage base va lo) (hlt : c.start < stop) (hdtop : PGSIZE ∣ top) (hstop : stop ≤ top)
    (htop : top ≤ USERTOP) (hperm : perm < 1024)
    (hfree : ∀ a, base ≤ a → a < top → mapping s₀ pgdir a = none) (hfill : Fills f lo stop fill) :
    Act.wp (pageTurn pmm pgdir perm stop fill c) (fun r s' => match r with
      | .inl c' => (c'.AtPage base va lo ∧ c'.start < stop ∨ c'.Ends base stop) ∧ c.la < c'.la ∧
          c'.la ≤ top ∧ Built pmm pgdir (pagePerm perm) base va f s₀ c' s'
      | .inr (.ok _) => False
      | .inr (.error ret) => ret = 0 → s'.starved = true) (fun _ => True) s := by
  have hpg : PGSIZE = 4096 := rfl
  have hut : USERTOP = 2 ^ 31 := rfl
  have hlow : LOWTOP = 511 * 2 ^ 30 := rfl
  have hle := hat.le
  have hat' := hat.lt
  have hlo := hat.loLe
  have hbase := hat.baseLe
  have hend : c.la + PGSIZE ≤ top := page_le hat.dvd hdtop (by omega)
  obtain ⟨hsize, hoff⟩ := sizeIn_eq hle hat' hlt (by omega)
  have hnone : mapping s pgdir c.la = none := by
    rw [h.mapped c.la (by omega) (.inr le_rfl)]
    exact hfree c.la hbase (by omega)
  have hnext : u64 (c.start + sizeIn c.start c.la stop) = min stop (c.la + PGSIZE) := by
    rw [hsize]
    exact u64_of_lt (by omega)
  have hnext' : u64 (c.la + PGSIZE) = c.la + PGSIZE := u64_of_lt (by omega)
  rw [pageTurn, if_pos hlt, Act.wp_bind]
  refine Act.wp_mono (wp_pgdirAllocPage_view hfresh h.tree (by omega) hnone hperm) (fun r s₁ hr => ?_)
    fun _ => id
  cases r with
  | none => exact fun _ => hr
  | some p =>
    rw [Act.wp_bind]
    refine Act.wp_mono (hfill p (sub64 c.start c.la) (sizeIn c.start c.la stop) c.start s₁ hlo
      (by omega)) (fun ret s₂ hret => ?_) fun _ => id
    rw [Act.wp_ite]
    refine ⟨fun hne hzero => absurd hzero hne, fun hzero => ?_⟩
    obtain ⟨g, rfl, hg⟩ := hret (not_not.mp hzero)
    have hadd := h.add hat hr (hend.trans htop) (by omega) hg
    rw [hsize] at hadd
    rw [Act.wp_pure, hnext, hnext', hoff]
    refine ⟨?_, Nat.lt_add_of_pos_right (by decide), hend, hadd⟩
    have hd : PGSIZE ∣ c.la + PGSIZE := hat.dvd.add dvd_rfl
    by_cases hmore : c.la + PGSIZE < stop
    · refine .inl ⟨⟨hd, ?_, ?_, ?_, ?_, .inr ?_⟩, ?_⟩ <;> dsimp only <;> omega
    · refine .inr ⟨hd, ?_, ?_, ?_, ?_⟩ <;> dsimp only <;> omega

/-- **A loop over pages**, up to `stop`. -/
theorem Built.wp_loop (h : Built pmm pgdir (pagePerm perm) base va f s₀ c s) (hfresh : pmm.Fresh)
    (hc : c.AtPage base va lo ∨ c.Ends base stop) (hdtop : PGSIZE ∣ top) (hstop : stop ≤ top)
    (htop : top ≤ USERTOP) (hla : c.la ≤ top) (hperm : perm < 1024)
    (hfree : ∀ a, base ≤ a → a < top → mapping s₀ pgdir a = none) (hfill : Fills f lo stop fill) :
    Act.wp (Act.loop .spin (pageTurn pmm pgdir perm stop fill) fuel c) (fun r s' => match r with
      | .ok c' => (stop ≤ c.start ∧ c' = c ∨ c.start < stop ∧ c'.Ends base stop) ∧ c'.la ≤ top ∧
          Built pmm pgdir (pagePerm perm) base va f s₀ c' s'
      | .error ret => ret = 0 → s'.starved = true) (fun _ => True) s := by
  refine Act.wp_loop (fun n c' s => n = top - c'.la ∧ c'.la ≤ top ∧
    (c' = c ∨ c.start < stop ∧ (c'.AtPage base va lo ∧ c'.start < stop ∨ c'.Ends base stop)) ∧
    Built pmm pgdir (pagePerm perm) base va f s₀ c' s) (fun n c' s hinv => ?_) fuel (top - c.la) c s
    ⟨rfl, hla, .inl rfl, h⟩ fun _ => trivial
  obtain ⟨rfl, hla', hc', hb⟩ := hinv
  by_cases hlt : c'.start < stop
  · have hat : c'.AtPage base va lo := by
      rcases hc' with rfl | ⟨-, hat | hends⟩
      · exact hc.resolve_right fun hends => absurd (hends.start ▸ hlt) (lt_irrefl _)
      · exact hat.1
      · exact absurd (hends.start ▸ hlt) (lt_irrefl _)
    have hstart : c.start < stop := by
      rcases hc' with rfl | hc'
      · exact hlt
      · exact hc'.1
    refine Act.wp_mono (hb.wp_pageTurn hfresh hat hlt hdtop hstop htop hperm hfree hfill)
      (fun r s' hr => ?_) fun _ => id
    match r, hr with
    | .inl c'', ⟨hpos, hmore, hle, hb'⟩ =>
      exact ⟨_, by omega, rfl, hle, .inr ⟨hstart, hpos⟩, hb'⟩
    | .inr (.error ret), hr => exact hr
  · rw [pageTurn, if_neg hlt]
    refine ⟨?_, hla', hb⟩
    rcases hc' with rfl | ⟨hstart, hat | hends⟩
    · exact .inl ⟨not_lt.mp hlt, rfl⟩
    · exact absurd hat.2 hlt
    · exact .inr ⟨hstart, hends⟩

/-! ## The three pieces -/

/-- **The file is not written to** while it is loaded: what is read is what it holds.  A position that
can be sought is not negative. -/
structure Reader.Holds (rd : Reader) (bytes : ℕ → UInt8) : Prop where
  seek : ∀ offset, rd.seek offset = 0 → offset < 2 ^ 63
  data : ∀ offset len i, loadIcodeRead rd len offset = 0 → i < len →
    rd.data offset len i = bytes (offset + i)

theorem seek_of_read {len offset : ℕ} (h : loadIcodeRead rd len offset = 0) : rd.seek offset = 0 := by
  rw [loadIcodeRead] at h
  dsimp only at h
  split at h
  · exact h
  · next hno => exact not_not.mp hno

/-- The pages of the file get what the file holds. -/
theorem fills_file (hrd : rd.Holds bytes) (hoff : ph.offset < 2 ^ 63)
    (hstop : ph.va + ph.filesz ≤ USERTOP) :
    Fills (segByte bytes ph) ph.va (ph.va + ph.filesz) (fillFile rd ph) := by
  intro page off size start s hlo hhi
  have hut : USERTOP = 2 ^ 31 := rfl
  have hlow : LOWTOP = 511 * 2 ^ 30 := rfl
  have hsub : sub64 start ph.va = start - ph.va := sub64_of_le hlo (by omega)
  have hadd : u64 (ph.offset + (start - ph.va)) = ph.offset + (start - ph.va) := u64_of_lt (by omega)
  simp only [fillFile, fillPage, hsub, hadd, Act.wp_bind, Act.wp_ite, Act.wp_require, Act.wp_modify,
    Act.wp_pure]
  refine ⟨fun hret => ⟨fun _ _ => ⟨_, rfl, fun i hi => ?_⟩, fun _ => trivial⟩,
    fun hno hret => absurd hret hno⟩
  have hfile : start + i < ph.va + ph.filesz := by omega
  rw [hrd.data _ _ i hret hi, segByte, if_pos hfile]
  congr 1
  omega

theorem fills_zero (hf : ∀ a, lo ≤ a → a < stop → f a = 0) : Fills f lo stop fillZero := by
  intro page off size start s hlo hhi
  simp only [fillZero, fillPage, Act.wp_bind, Act.wp_require, Act.wp_modify, Act.wp_pure]
  exact ⟨fun _ _ => ⟨_, rfl, fun i hi => (hf _ (by omega) (by omega)).symm⟩, fun _ => trivial⟩

/-- **The zeros of the page that the file ends in.** -/
theorem Built.wp_zeroRest {fend : ℕ} (h : Built pmm pgdir perm base va f s₀ c s)
    (hends : c.Ends base fend) (hlt : fend < c.la) (hlt' : fend < stop) (hla : c.la ≤ USERTOP)
    (hstop : stop ≤ USERTOP) (hf : ∀ a, fend ≤ a → a < stop → f a = 0) :
    Act.wp (zeroRest c stop) (fun c' s' => c'.la = c.la ∧ c'.start = min stop c.la ∧
      Built pmm pgdir perm base va f s₀ c' s') (fun _ => True) s := by
  have hpg : PGSIZE = 4096 := rfl
  have hut : USERTOP = 2 ^ 31 := rfl
  have hlow : LOWTOP = 511 * 2 ^ 30 := rfl
  obtain ⟨hd, hbase, hstart, hpage, hle⟩ := hends
  have hmod : c.la % 4096 = 0 := Nat.mod_eq_zero_of_dvd hd
  have hprev : sub64 c.la PGSIZE = c.la - PGSIZE := sub64_of_le (by omega) (by omega)
  have hoff : sub64 c.start (c.la - PGSIZE) = c.start - (c.la - PGSIZE) :=
    sub64_of_le (by omega) (by omega)
  have hsize : sub64 PGSIZE (c.start - (c.la - PGSIZE)) = c.la - c.start := by
    rw [sub64_of_le (by omega) (by omega)]
    omega
  have hcut : (if stop < c.la then sub64 (c.la - c.start) (sub64 c.la stop) else c.la - c.start) =
      min stop c.la - c.start := by
    split
    · next hlt =>
      rw [sub64_of_le hlt.le (by omega), sub64_of_le (by omega) (by omega), min_eq_left hlt.le]
      omega
    · next hge => rw [min_eq_right (not_lt.mp hge)]
  have hnext : u64 (c.start + (min stop c.la - c.start)) = min stop c.la := by
    rw [u64_of_lt (by omega)]
    omega
  simp only [zeroRest, fillPage, hprev, hoff, hsize, hcut, hnext, Act.wp_bind, Act.wp_require,
    Act.wp_modify, Act.wp_pure]
  refine ⟨fun _ => ?_, fun _ => trivial⟩
  have hlast := h.last (by omega)
  obtain ⟨htree, hmap, hin, hout⟩ := h.tree.stored (show c.la - PGSIZE < LOWTOP by omega) hlast
    (c.start - (c.la - PGSIZE)) (min stop c.la - c.start) fun _ => 0
  have hdprev : PGSIZE ∣ c.la - PGSIZE := Nat.dvd_sub hd dvd_rfl
  have hkeep : ∀ a, a < LOWTOP → a < c.start ∨ min stop c.la ≤ a →
      view (stored s c.page (c.start - (c.la - PGSIZE)) (min stop c.la - c.start) fun _ => 0) pgdir a =
        view s pgdir a := fun a ha hno => hout a ha fun hyes => by
    obtain ⟨hp, hlo, hhi⟩ := hyes
    have hp := (page_iff hdprev).mp hp
    have hlo : c.start - (c.la - PGSIZE) ≤ a % 4096 := hlo
    have hhi : a % 4096 < c.start - (c.la - PGSIZE) + (min stop c.la - c.start) := hhi
    omega
  refine ⟨trivial, trivial, htree, fun a hva hlt => ?_, fun _ => ?_, fun a ha hno => ?_, fun a ha hno => ?_,
    h.starved⟩
  · dsimp only at hlt
    by_cases hold : a < c.start
    · rw [hkeep a (by omega) (.inl hold)]
      exact h.bytes a hva hold
    · have hlo : c.start - (c.la - PGSIZE) ≤ a % 4096 := by omega
      have hhi : a % 4096 < c.start - (c.la - PGSIZE) + (min stop c.la - c.start) := by omega
      rw [hin a (by omega) ((page_iff hdprev).mpr ⟨by omega, by omega⟩) hlo hhi,
        hf a (by omega) (by omega)]
  · exact (hmap (c.la - PGSIZE) (by omega)).trans hlast
  · exact (hmap a ha).trans (h.mapped a ha hno)
  · dsimp only at hno
    rw [hkeep a ha (by omega)]
    exact h.seen a ha hno

/-- **A segment in memory**: its bytes, with its bits; and outside of its pages the process sees what it
saw before. -/
structure SegmentLoaded (pmm : Pmm) (pgdir perm base top va stop : ℕ) (f : ℕ → UInt8) (s₀ s : Phys) :
    Prop where
  tree : UserTree pmm s pgdir
  bytes : ∀ a, va ≤ a → a < stop → view s pgdir a = some (f a, perm)
  mapped : ∀ a, a < LOWTOP → a < base ∨ top ≤ a → mapping s pgdir a = mapping s₀ pgdir a
  seen : ∀ a, a < LOWTOP → a < base ∨ top ≤ a → view s pgdir a = view s₀ pgdir a
  starved : s.starved = s₀.starved

theorem Built.segmentLoaded (h : Built pmm pgdir perm base va f s₀ c s) (hstop : stop ≤ c.start)
    (hla : c.la ≤ top) : SegmentLoaded pmm pgdir perm base top va stop f s₀ s :=
  ⟨h.tree, fun a hva hlt => h.bytes a hva (hlt.trans_le hstop),
    fun a ha hno => h.mapped a ha (hno.imp_right hla.trans),
    fun a ha hno => h.seen a ha (hno.imp_right hla.trans), h.starved⟩

/-- **The pages of zeros.** -/
theorem Built.wp_loadZeros (h : Built pmm pgdir (pagePerm perm) base va f s₀ c s) (hfresh : pmm.Fresh)
    (hc : c.AtPage base va lo ∨ c.Ends base stop) (hdtop : PGSIZE ∣ top) (hstop : stop ≤ top)
    (htop : top ≤ USERTOP) (hla : c.la ≤ top) (hperm : perm < 1024)
    (hfree : ∀ a, base ≤ a → a < top → mapping s₀ pgdir a = none)
    (hf : ∀ a, lo ≤ a → a < stop → f a = 0) :
    Act.wp (loadZeros pmm fuel pgdir perm stop c) (fun r s' => match r with
      | .ok _ => SegmentLoaded pmm pgdir (pagePerm perm) base top va stop f s₀ s'
      | .error ret => ret = 0 → s'.starved = true) (fun _ => True) s := by
  rw [loadZeros, Act.wp_bind]
  refine Act.wp_mono (h.wp_loop hfresh hc hdtop hstop htop hla hperm hfree (fills_zero hf))
    (fun r s' hr => ?_) fun _ => id
  match r, hr with
  | .error ret, hr => exact hr
  | .ok c', ⟨hpos, hla', hb⟩ =>
    refine hb.segmentLoaded ?_ hla'
    rcases hpos with ⟨hge, rfl⟩ | ⟨-, hends⟩
    · exact hge
    · exact hends.start.ge

/-- A file that is sought too far is not read. -/
theorem wp_fillFile_far {page off size : ℕ} (hrd : rd.Holds bytes) (hoff : 2 ^ 63 ≤ ph.offset)
    (hoff' : ph.offset < 2 ^ 64) (hva : ph.va < 2 ^ 64) :
    Act.wp (fillFile rd ph page off size ph.va) (fun ret _ => ret ≠ 0) (fun _ => True) s := by
  have hsub : sub64 ph.va ph.va = 0 := (sub64_of_le le_rfl hva).trans (Nat.sub_self _)
  have hadd : u64 (ph.offset + 0) = ph.offset := u64_of_lt hoff'
  simp only [fillFile, fillPage, hsub, hadd, Act.wp_bind, Act.wp_ite, Act.wp_require, Act.wp_modify,
    Act.wp_pure]
  refine ⟨fun hret => ?_, fun hno => hno⟩
  exact absurd (hrd.seek _ (seek_of_read hret)) (not_lt.mpr hoff)

/-- **The pages of the file**, which end at `fend`. -/
theorem Built.wp_loadFile (h : Built pmm pgdir (pagePerm perm) base ph.va (segByte bytes ph) s₀ c s)
    (hfresh : pmm.Fresh) (hrd : rd.Holds bytes) (hoff : ph.offset < 2 ^ 64)
    (hc : c.AtPage base ph.va ph.va) (hstart : c.start = ph.va) (hdtop : PGSIZE ∣ top)
    (hstop : ph.va + ph.filesz ≤ top) (htop : top ≤ USERTOP) (hla : c.la ≤ top) (hperm : perm < 1024)
    (hfree : ∀ a, base ≤ a → a < top → mapping s₀ pgdir a = none) :
    Act.wp (Act.loop .spin (pageTurn pmm pgdir perm (ph.va + ph.filesz) (fillFile rd ph)) fuel c)
      (fun r s' => match r with
        | .ok c' => (ph.filesz = 0 ∧ c' = c ∨ 0 < ph.filesz ∧ c'.Ends base (ph.va + ph.filesz)) ∧
            c'.la ≤ top ∧ Built pmm pgdir (pagePerm perm) base ph.va (segByte bytes ph) s₀ c' s'
        | .error ret => ret = 0 → s'.starved = true) (fun _ => True) s := by
  have hut : USERTOP = 2 ^ 31 := rfl
  have hlow : LOWTOP = 511 * 2 ^ 30 := rfl
  by_cases hnear : ph.offset < 2 ^ 63
  · refine Act.wp_mono (h.wp_loop hfresh (.inl hc) hdtop hstop htop hla hperm hfree
      (fills_file hrd hnear (hstop.trans htop))) (fun r s' hr => ?_) fun _ => id
    match r, hr with
    | .error ret, hr => exact hr
    | .ok c', ⟨hpos, hla', hb⟩ =>
      refine ⟨hpos.imp (fun ⟨hle, heq⟩ => ⟨by omega, heq⟩) fun ⟨hlt, hends⟩ => ⟨by omega, hends⟩,
        hla', hb⟩
  · -- the first page cannot be read, if there is one
    cases fuel with
    | zero => exact trivial
    | succ fuel =>
      rw [Act.loop, Act.wp_bind, pageTurn]
      by_cases hlt : c.start < ph.va + ph.filesz
      · have hnone : mapping s pgdir c.la = none := by
          have hle := hc.le
          rw [h.mapped c.la (by omega) (.inr le_rfl)]
          exact hfree c.la hc.baseLe (by omega)
        rw [if_pos hlt, Act.wp_bind]
        have hle := hc.le
        refine Act.wp_mono (wp_pgdirAllocPage_view hfresh h.tree (by omega) hnone hperm)
          (fun r s₁ hr => ?_) fun _ => id
        cases r with
        | none => exact fun _ => hr
        | some p =>
          rw [Act.wp_bind, hstart]
          refine Act.wp_mono (wp_fillFile_far hrd (not_lt.mp hnear) hoff (by omega))
            (fun ret s₂ hret => ?_) fun _ => id
          rw [Act.wp_ite]
          exact ⟨fun _ hzero => absurd hzero hret, fun hzero => absurd hret hzero⟩
      · rw [if_neg hlt]
        exact ⟨.inl ⟨by omega, rfl⟩, hla, h⟩

/-- **The pages of a segment**: what the file holds, and zeros. -/
theorem wp_loadPages (hfresh : pmm.Fresh) (hrd : rd.Holds bytes) (ht : UserTree pmm s pgdir)
    (hoff : ph.offset < 2 ^ 64) (hsize : ph.filesz ≤ ph.memsz) (hdtop : PGSIZE ∣ top)
    (hstop : ph.va + ph.memsz ≤ top) (htop : top ≤ USERTOP) (hbase : roundDown ph.va PGSIZE ≤ top)
    (hperm : perm < 1024)
    (hfree : ∀ a, roundDown ph.va PGSIZE ≤ a → a < top → mapping s pgdir a = none) :
    Act.wp (loadPages pmm rd fuel pgdir perm ph) (fun r s' => match r with
      | .ok _ => SegmentLoaded pmm pgdir (pagePerm perm) (roundDown ph.va PGSIZE) top ph.va
          (ph.va + ph.memsz) (segByte bytes ph) s s'
      | .error ret => ret = 0 → s'.starved = true) (fun _ => True) s := by
  have hut : USERTOP = 2 ^ 31 := rfl
  have hlow : LOWTOP = 511 * 2 ^ 30 := rfl
  have hfend : u64 (ph.va + ph.filesz) = ph.va + ph.filesz := u64_of_lt (by omega)
  have hend : u64 (ph.va + ph.memsz) = ph.va + ph.memsz := u64_of_lt (by omega)
  have hzero : ∀ a, ph.va + ph.filesz ≤ a → a < ph.va + ph.memsz → segByte bytes ph a = 0 :=
    fun a hge _ => if_neg (not_lt.mpr hge)
  have hle : roundDown ph.va PGSIZE ≤ ph.va := roundDown_le _ _
  have hlt : ph.va < roundDown ph.va PGSIZE + PGSIZE := lt_roundDown_add (by decide)
  have hbuilt : Built pmm pgdir (pagePerm perm) (roundDown ph.va PGSIZE) ph.va (segByte bytes ph) s
      ⟨ph.va, roundDown ph.va PGSIZE, 0⟩ s :=
    ⟨ht, fun a hva hlt => absurd (hva.trans_lt hlt) (lt_irrefl _), fun hno => absurd hno (lt_irrefl _),
      fun _ _ _ => rfl, fun _ _ _ => rfl, rfl⟩
  have hat : ∀ lo ≤ ph.va, Cursor.AtPage (roundDown ph.va PGSIZE) ph.va lo
      ⟨ph.va, roundDown ph.va PGSIZE, 0⟩ := fun lo hlo =>
    ⟨dvd_roundDown _ _, le_rfl, hlo, hle, hlt, .inl rfl⟩
  rw [loadPages, Act.wp_bind, hfend, hend]
  refine Act.wp_mono (hbuilt.wp_loadFile hfresh hrd hoff (hat _ le_rfl) rfl hdtop (by omega) htop hbase
    hperm hfree) (fun r s₁ hr => ?_) fun _ => id
  match r, hr with
  | .error ret, hr => exact hr
  | .ok c, ⟨hpos, hla, hb⟩ =>
    change Act.wp (if c.start < c.la then if c.start = ph.va + ph.memsz then pure (Except.ok ()) else
      zeroRest c (ph.va + ph.memsz) >>= fun c => loadZeros pmm fuel pgdir perm (ph.va + ph.memsz) c
      else loadZeros pmm fuel pgdir perm (ph.va + ph.memsz) c) _ _ s₁
    rcases hpos with ⟨hnofile, rfl⟩ | ⟨-, hends⟩
    · -- no page of the file: the zeros start in the page of `va`
      rw [if_neg (not_lt.mpr hle)]
      exact hb.wp_loadZeros hfresh (.inl (hat _ (by omega))) hdtop hstop htop hla hperm hfree hzero
    · have hstart := hends.start
      have hcla := hends.le
      by_cases hcut : c.start < c.la
      · rw [if_pos hcut]
        by_cases hdone : c.start = ph.va + ph.memsz
        · rw [if_pos hdone]
          exact hb.segmentLoaded hdone.ge hla
        · rw [if_neg hdone, Act.wp_bind]
          refine Act.wp_mono (hb.wp_zeroRest hends (hstart ▸ hcut) (by omega) (hla.trans htop)
            (hstop.trans htop) hzero) (fun c' s₂ h₂ => ?_) fun _ => id
          obtain ⟨hla', hstart', hb'⟩ := h₂
          have hb := hends.baseLe
          refine hb'.wp_loadZeros hfresh ?_ hdtop hstop htop (hla' ▸ hla) hperm hfree hzero
          have hd : PGSIZE ∣ c'.la := hla' ▸ hends.dvd
          have hprev := hends.lt
          by_cases hmore : c.la < ph.va + ph.memsz
          · refine .inl ⟨hd, ?_, ?_, ?_, ?_, .inr ?_⟩ <;> omega
          · refine .inr ⟨hd, ?_, ?_, ?_, ?_⟩ <;> omega
      · -- the file ends where a page does
        have hb' := hends.baseLe
        have hpg : 0 < PGSIZE := by decide
        rw [if_neg hcut]
        have hat : c.AtPage (roundDown ph.va PGSIZE) ph.va (ph.va + ph.filesz) := by
          refine ⟨hends.dvd, ?_, ?_, ?_, ?_, .inr ?_⟩ <;> omega
        exact hb.wp_loadZeros hfresh (.inl hat) hdtop hstop htop hla hperm hfree hzero

end Pages

end UCore.Exec
