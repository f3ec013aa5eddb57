import UCore.Mm.DupMmap
import UCore.Process.LoadRun

/-!
# Process/LoadSegments — the segments of a program, and the stack above them

    header 0 ──▸ header 1 ──▸ …  ──▸ stack ──▸ argv
      seg₀         seg₁              Below

The walk over the headers keeps `Walking`: the segments of the headers passed are in memory, and none
has touched what was there before it.  The stack and the arguments are above all of them.
-/

namespace UCore.Exec

open Vmm Paging

/-- The header at an index of the table. -/
def header (bytes : ℕ → UInt8) (i : ℕ) : Proghdr :=
  proghdr bytes ((elfhdr bytes).phoff + i * sizeofProghdr)

/-- The segments among the first `n` headers. -/
def segments (bytes : ℕ → UInt8) (n : ℕ) : List Proghdr :=
  ((List.range n).map (header bytes)).filter fun ph => ph.type = ELF_PT_LOAD

/-- **A segment is in memory**: the bytes of the file, then zeros, with the bits its header asks for. -/
structure InMemory (s : Phys) (pgdir : ℕ) (bytes : ℕ → UInt8) (ph : Proghdr) : Prop where
  bytes : ∀ i < ph.memsz, view s pgdir (ph.va + i) =
    some (if i < ph.filesz then bytes (ph.offset + i) else 0, segPerm ph)
  readable : segPerm ph &&& PTE_R ≠ 0 ↔ ph.flags &&& ELF_PF_R ≠ 0 ∨ ph.flags &&& ELF_PF_W ≠ 0
  writable : segPerm ph &&& PTE_W ≠ 0 ↔ ph.flags &&& ELF_PF_W ≠ 0
  executable : segPerm ph &&& PTE_X ≠ 0 ↔ ph.flags &&& ELF_PF_X ≠ 0

/-- **The walk so far**: `n` headers have been passed.  The states before and after each segment are
kept, and none has changed what was mapped. -/
structure Walking (env : Env) (pgdir : ℕ) (bytes : ℕ → UInt8) (s₀ : Loading) (n : ℕ) (s : Loading) :
    Prop where
  program : Program env.pmm pgdir bytes (· ∈ segments bytes n) s.space
  history : ∃ loads, s.history = s₀.history ++ loads ∧ loads.length = (segments bytes n).length ∧
    ∀ p ∈ loads, Preserves pgdir p.1 p.2
  current : s.current = s₀.current

variable {env : Env} {fuel pgdir phsize lo lo' la n o : ℕ} {elf : Elfhdr} {bytes buffer : ℕ → UInt8}
  {kargv : List (List UInt8)} {s s' s₀ : Loading} {p p' : Phys} {sp : AddrSpace} {ph : Proghdr}
  {loaded : Proghdr → Prop}

/-! ## A load, up to the walk -/

/-- A call on the address space is judged there. -/
@[simp] theorem wp_onSpace {α : Type} (m : SpaceCall α) {Q : α → Loading → Prop} {E : LoadStop → Prop} :
    Act.wp (onSpace m) Q E s ↔
      Act.wp m (fun a sp => Q a { s with space := sp }) (fun e => E ⟨e, s.trace⟩) s.space := by
  unfold Act.wp onSpace
  cases m s.space <;> rfl

theorem offset_lt (m : ℕ → UInt8) (o : ℕ) : (proghdr m o).offset < 2 ^ 64 := by
  rw [proghdr, show 2 ^ 64 = 256 ^ 8 by norm_num]
  exact Bytes.word_lt m 8 (o + 8)

theorem segments_succ (bytes : ℕ → UInt8) (n : ℕ) : segments bytes (n + 1) =
    segments bytes n ++ if (header bytes n).type = ELF_PT_LOAD then [header bytes n] else [] := by
  rw [segments, List.range_succ, List.map_append, List.filter_append, ← segments]
  congr 1
  rw [List.map_singleton, List.filter_singleton]
  by_cases htype : (header bytes n).type = ELF_PT_LOAD
  · rw [if_pos htype, decide_eq_true htype, cond_true]
  · rw [if_neg htype, decide_eq_false htype, cond_false]

/-- A header that is not of a segment is passed. -/
theorem Walking.skip (h : Walking env pgdir bytes s₀ n s) (htype : (header bytes n).type ≠ ELF_PT_LOAD)
    (hspace : s'.space = s.space) (hhistory : s'.history = s.history) (hcurrent : s'.current = s.current) :
    Walking env pgdir bytes s₀ (n + 1) s' := by
  have hsame : segments bytes (n + 1) = segments bytes n := by
    rw [segments_succ, if_neg htype, List.append_nil]
  refine ⟨?_, ?_, hcurrent.trans h.current⟩
  · rw [hsame, hspace]
    exact h.program
  · rw [hsame, hhistory]
    exact h.history

/-- **The segment of a header** is loaded. -/
theorem Walking.wp_loadHeader (h : Walking env pgdir bytes s₀ n s) (hfresh : env.pmm.Fresh)
    (hrd : env.rd.Holds bytes) (hph : header bytes n = ph) (hheader : proghdr buffer o = ph)
    (htype : ph.type = ELF_PT_LOAD) (hoff : ph.offset < 2 ^ 64) (hwrap : ph.va + ph.memsz < 2 ^ 64) :
    Act.wp (loadHeader env fuel pgdir buffer o) (fun r s' => match r with
      | .ok _ => Walking env pgdir bytes s₀ (n + 1) s'
      | .error ret => ret = 0 → s'.space.phys.starved = true ∧ s'.current = s₀.current)
      (fun _ => True) s := by
  have hinval : (-E_INVAL_ELF : ℤ) ≠ 0 := by decide
  rw [loadHeader, hheader, touch, Act.wp_bind, Act.wp_modify, Act.wp_ite]
  refine ⟨fun _ hzero => absurd hzero hinval, fun hsize => ?_⟩
  rw [touch, Act.wp_bind, Act.wp_modify, Act.wp_bind, Act.wp_get, Act.wp_bind, wp_onSpace]
  refine Act.wp_mono (h.program.wp_loadSegment hfresh hrd hoff (not_lt.mp hsize) hwrap)
    (fun r sp hr => ?_) fun _ => id
  rw [Act.wp_bind, Act.wp_modify, Act.wp_pure]
  match r, hr with
  | .error ret, hr => exact fun hzero => ⟨hr hzero, h.current⟩
  | .ok _, ⟨hprogram, hkeep, _⟩ =>
    have hmore : segments bytes (n + 1) = segments bytes n ++ [ph] := by
      rw [segments_succ, hph, if_pos htype]
    obtain ⟨loads, hhistory, hlength, hall⟩ := h.history
    refine ⟨?_, ⟨loads ++ [(s.space.phys, sp.phys)], ?_, ?_, fun p hp => ?_⟩, h.current⟩
    · simpa only [hmore, List.mem_append, List.mem_singleton] using hprogram
    · rw [← List.append_assoc, ← hhistory]
    · rw [hmore, List.length_append, List.length_append, hlength]
      rfl
    · rcases List.mem_append.mp hp with hp | hp
      · exact hall p hp
      · rw [List.mem_singleton.mp hp]
        exact hkeep

-- a header's words are not to be computed where its judgement is used
attribute [local irreducible] loadHeader

/-- **One header**: its segment is loaded, if it has one. -/
theorem Walking.wp_headerTurn (h : Walking env pgdir bytes s₀ n s) (hfresh : env.pmm.Fresh)
    (hrd : env.rd.Holds bytes) (hheader : proghdr buffer (n * sizeofProghdr) = header bytes n)
    (hwrap : (header bytes n).type = ELF_PT_LOAD → (header bytes n).va + (header bytes n).memsz < 2 ^ 64)
    (hlt : n * sizeofProghdr < phsize) :
    Act.wp (headerTurn env fuel pgdir phsize buffer (n * sizeofProghdr)) (fun r s' => match r with
      | .inl o => o = (n + 1) * sizeofProghdr ∧ Walking env pgdir bytes s₀ (n + 1) s'
      | .inr (.error ret) => ret = 0 → s'.space.phys.starved = true ∧ s'.current = s₀.current
      | .inr (.ok _) => False) (fun _ => True) s := by
  have hnext : n * sizeofProghdr + sizeofProghdr = (n + 1) * sizeofProghdr := (Nat.succ_mul _ _).symm
  have hoff : (header bytes n).offset < 2 ^ 64 := offset_lt _ _
  rw [headerTurn, if_pos hlt, act, touch, Act.wp_bind, Act.wp_modify, Act.wp_bind, Act.wp_modify, hheader,
    Act.wp_ite]
  refine ⟨fun htype => ?_, fun htype => ⟨hnext, h.skip htype rfl rfl rfl⟩⟩
  rw [Act.wp_bind]
  generalize ht : (Loading.mk _ _ _ _ _ : Loading) = t
  have hread : Walking env pgdir bytes s₀ n t := ht ▸ ⟨h.program, h.history, h.current⟩
  refine Act.wp_mono (hread.wp_loadHeader hfresh hrd rfl hheader htype hoff (hwrap htype))
    (fun r s' hr => ?_) fun _ => id
  match r, hr with
  | .error ret, hr => exact hr
  | .ok _, hwalk => exact ⟨hnext, hwalk⟩

/-- **The walk**: every segment is loaded. -/
theorem Walking.wp_walkHeaders (h : Walking env pgdir bytes s₀ 0 s) (hfresh : env.pmm.Fresh)
    (hrd : env.rd.Holds bytes) {phnum : ℕ} (hphsize : phsize = phnum * sizeofProghdr)
    (hheader : ∀ n < phnum, proghdr buffer (n * sizeofProghdr) = header bytes n)
    (hwrap : ∀ n < phnum, (header bytes n).type = ELF_PT_LOAD →
      (header bytes n).va + (header bytes n).memsz < 2 ^ 64) :
    Act.wp (walkHeaders env fuel pgdir phsize buffer) (fun r s' => match r with
      | .ok _ => Walking env pgdir bytes s₀ phnum s'
      | .error ret => ret = 0 → s'.space.phys.starved = true ∧ s'.current = s₀.current)
      (fun _ => True) s := by
  have hsize : 0 < sizeofProghdr := by decide
  refine Act.wp_loop (fun k o s => ∃ n ≤ phnum, k = phnum - n ∧ o = n * sizeofProghdr ∧
    Walking env pgdir bytes s₀ n s) (fun k o s => ?_) _ phnum 0 s
    ⟨0, Nat.zero_le _, rfl, (Nat.zero_mul _).symm, h⟩ fun _ => trivial
  rintro ⟨n, hn, rfl, rfl, hwalk⟩
  rcases hn.lt_or_eq with hlt | rfl
  · have hin : n * sizeofProghdr < phsize := hphsize ▸ Nat.mul_lt_mul_of_pos_right hlt hsize
    refine Act.wp_mono (hwalk.wp_headerTurn hfresh hrd (hheader n hlt) (hwrap n hlt) hin)
      (fun r s' hr => ?_) fun _ => id
    match r, hr with
    | .inl o, ⟨ho, hwalk'⟩ => exact ⟨phnum - (n + 1), by omega, n + 1, hlt, rfl, ho, hwalk'⟩
    | .inr (.error ret), hr => exact hr
  · rw [headerTurn, if_neg (not_lt.mpr hphsize.le)]
    exact ⟨hwalk.program, hwalk.history, hwalk.current⟩

/-! ## The stack -/

theorem Below.mono (h : Below env.pmm pgdir lo p p') (hle : lo' ≤ lo) : Below env.pmm pgdir lo' p p' :=
  ⟨h.tree, fun x hx => h.seen x (hx.trans_le hle), h.starved⟩

/-- **A page of the stack**, below the pages that are there. -/
theorem Below.wp_stackPage (h : Below env.pmm pgdir (la + PGSIZE) p p') (hfresh : env.pmm.Fresh)
    (hd : PGSIZE ∣ la) (htop : la + PGSIZE ≤ USERTOP) (hfree : mapping p pgdir la = none) :
    Act.wp (stackPage env.pmm pgdir la) (fun _ p'' => Below env.pmm pgdir la p p'') (fun _ => True) p' := by
  have hpg : PGSIZE = 4096 := rfl
  have hla : la < LOWTOP := by
    have := USERTOP_le
    omega
  have hfree' : mapping p' pgdir la = none := by
    rw [← view_eq_none, h.seen la (by omega), view_eq_none]
    exact hfree
  rw [stackPage, Act.wp_bind]
  refine Act.wp_mono (wp_pgdirAllocPage_view hfresh h.tree hla hfree' (by decide)) (fun r p'' hr => ?_)
    fun _ => id
  rw [Act.wp_require]
  refine ⟨fun hsome => ?_, fun _ => trivial⟩
  match r, hr with
  | none, _ => exact absurd rfl hsome
  | some page, hr =>
    refine ⟨hr.tree, fun x hx => ?_, hr.starved.trans h.starved⟩
    have hpage : x / PGSIZE ≠ la / PGSIZE := fun hpage =>
      absurd ((page_iff hd).mp hpage).1 (not_le.mpr hx)
    rw [hr.view x (hx.trans hla) hpage, h.seen x (by omega)]

/-- **The stack is made page by page**, from the top on: what holds once the pages from `la` on are there
holds at the end of the fourth. -/
theorem wp_loadStack {I : ℕ → Phys → Prop} {R : Prop}
    (hmap : Act.wp (mmMap (USTACKTOP - USTACKSIZE) USTACKSIZE (VM_READ ||| VM_WRITE ||| VM_STACK)
      env.stackGranted) (fun ret _ => ret = 0 → R) (fun _ => True) sp.mm)
    (hI : I USTACKTOP sp.phys)
    (hpage : R → ∀ la p, PGSIZE ∣ la → USTACKTOP - 4 * PGSIZE ≤ la → la + PGSIZE ≤ USTACKTOP →
      I (la + PGSIZE) p → Act.wp (stackPage env.pmm pgdir la) (fun _ => I la) (fun _ => True) p) :
    Act.wp (loadStack env pgdir) (fun ret sp' => ret = 0 → R ∧ I (USTACKTOP - 4 * PGSIZE) sp'.phys)
      (fun _ => True) sp := by
  rw [loadStack, Act.wp_bind, wp_onMm]
  refine Act.wp_mono hmap (fun ret mm hret => ?_) fun _ _ => trivial
  rw [Act.wp_ite]
  refine ⟨fun hno hzero => absurd hzero hno, fun hzero => ?_⟩
  have hR := hret (not_not.mp hzero)
  have hpage := hpage hR
  rw [Act.wp_bind, wp_onPhys]
  refine Act.wp_mono (hpage (USTACKTOP - PGSIZE) _ (by decide) (by decide) (by decide) hI)
    (fun _ p₁ h₁ => ?_) fun _ => id
  rw [Act.wp_bind, wp_onPhys]
  refine Act.wp_mono (hpage (USTACKTOP - 2 * PGSIZE) _ (by decide) (by decide) (by decide) h₁)
    (fun _ p₂ h₂ => ?_) fun _ => id
  rw [Act.wp_bind, wp_onPhys]
  refine Act.wp_mono (hpage (USTACKTOP - 3 * PGSIZE) _ (by decide) (by decide) (by decide) h₂)
    (fun _ p₃ h₃ => ?_) fun _ => id
  rw [Act.wp_bind, wp_onPhys]
  exact Act.wp_mono (hpage (USTACKTOP - 4 * PGSIZE) _ (by decide) (by decide) (by decide) h₃)
    (fun _ p₄ h₄ _ => ⟨hR, h₄⟩) fun _ => id

/-- **The stack** is above every segment. -/
theorem Program.wp_loadStack (h : Program env.pmm pgdir bytes loaded sp) (hfresh : env.pmm.Fresh) :
    Act.wp (loadStack env pgdir) (fun ret sp' => ret = 0 →
      (∀ ph, loaded ph → ph.va + ph.memsz ≤ USTACKTOP - USTACKSIZE) ∧
        Below env.pmm pgdir (USTACKTOP - 4 * PGSIZE) sp.phys sp'.phys) (fun _ => True) sp := by
  have hstart : mapStart (USTACKTOP - USTACKSIZE) = USTACKTOP - USTACKSIZE := by decide
  have hstop : mapEnd (USTACKTOP - USTACKSIZE) USTACKSIZE = USTACKTOP := by decide
  let stack : Vma := ⟨USTACKTOP - USTACKSIZE, USTACKTOP, VM_READ ||| VM_WRITE ||| VM_STACK⟩
  refine Act.wp_mono (Exec.wp_loadStack (I := fun la => Below env.pmm pgdir la sp.phys)
    (R := Fits stack sp.mm.mmapList) (Act.wp_mono h.wp_mmMap (fun ret mm hret hzero => ?_) fun _ => id)
    ⟨h.tree, fun _ _ => rfl, rfl⟩ fun hfits la p hd hge hle hI => ?_) (fun ret sp' hr hzero => ?_)
    fun _ => id
  · have hfits := (hret hzero).2.2.1
    rwa [hstart, hstop] at hfits
  · have hlt : la < USTACKTOP := (Nat.lt_add_of_pos_right (by decide)).trans_le hle
    have hstack : stack.Holds la := ⟨(show USTACKTOP - USTACKSIZE ≤ USTACKTOP - 4 * PGSIZE by decide).trans
      hge, hlt⟩
    exact hI.wp_stackPage hfresh hd hle (h.unmapped hfits (hlt.trans_le USERTOP_le) hstack)
  · obtain ⟨hfits, hbelow⟩ := hr hzero
    refine ⟨fun ph hph => ?_, hbelow⟩
    -- the area of a segment does not meet that of the stack, and ends where user space does at the latest
    obtain ⟨v, hv, -, hle⟩ := h.area ph hph
    have haccess := h.areas.access v hv
    rcases hfits.2 v hv with hend | hend
    · exact hle.trans hend
    · exact absurd (haccess.2.1.trans_le haccess.2.2) (not_lt.mpr hend)

/-- **The arguments** of a process are above its segments. -/
theorem argvAt_ge {args : List (List UInt8)} (hargc : args.length ≤ EXEC_MAX_ARG_NUM)
    (hargs : ∀ arg ∈ args, arg.length ≤ EXEC_MAX_ARG_LEN) :
    total args + 8 * (args.length + 3) ≤ USERTOP ∧ USTACKTOP - USTACKSIZE ≤ argvAt args - 8 := by
  have hut : USERTOP = 0x80000000 := rfl
  have htop : USTACKTOP = 0x80000000 := rfl
  have hsize : USTACKSIZE = 0x100000 := rfl
  have hnum : EXEC_MAX_ARG_NUM = 32 := rfl
  have htotal : total args ≤ args.length * 4096 := by
    have hmap : (args.map fun arg => arg.length + 1).length = args.length := List.length_map _
    rw [total, ← hmap, ← smul_eq_mul]
    refine List.sum_le_card_nsmul _ _ fun n hn => ?_
    obtain ⟨arg, harg, rfl⟩ := List.mem_map.mp hn
    exact Nat.succ_le_succ (hargs arg harg)
  have hround : USERTOP - total args < roundDown (USERTOP - total args) 8 + 8 :=
    lt_roundDown_add (by decide)
  rw [argvAt]
  omega

/-! ## The program -/

/-- A segment that the process sees as it was loaded. -/
theorem Program.inMemory (h : Program env.pmm pgdir bytes loaded sp) (hph : loaded ph)
    (hb : Below env.pmm pgdir lo sp.phys p) (hlo : ph.va + ph.memsz ≤ lo) : InMemory p pgdir bytes ph := by
  obtain ⟨hread, hwrite, hexec⟩ := segPerm_bits ph
  refine ⟨fun i hi => ?_, hread, hwrite, hexec⟩
  have hsame : ph.va + i - ph.va = i := Nat.add_sub_cancel_left ..
  rw [hb.seen _ ((Nat.add_lt_add_left hi _).trans_le hlo),
    h.bytes ph hph _ (Nat.le_add_right ..) (Nat.add_lt_add_left hi _), segByte, hsame]
  simp only [Nat.add_lt_add_iff_left]

/-- What the walk has left, the stack and the arguments leave. -/
theorem Walking.wp_rest (h : Walking env pgdir bytes s₀ n s) (hfresh : env.pmm.Fresh)
    (hargc : kargv.length ≤ EXEC_MAX_ARG_NUM) (hargs : ∀ arg ∈ kargv, arg.length ≤ EXEC_MAX_ARG_LEN) :
    Act.wp (do
      let ret ← onSpace (loadStack env pgdir)
      if ret ≠ 0 then return ret else enterUser fuel pgdir elf.entry kargv)
      (fun ret s' => ret = 0 → s'.current = some pgdir ∧
        (∀ ph ∈ segments bytes n, InMemory s'.space.phys pgdir bytes ph) ∧ s'.history = s.history)
      (fun _ => True) s := by
  have hinval : (-E_INVAL : ℤ) ≠ 0 := by decide
  obtain ⟨hfit, habove⟩ := argvAt_ge hargc hargs
  have hle : USTACKTOP - USTACKSIZE ≤ USTACKTOP - 4 * PGSIZE := by decide
  rw [Act.wp_bind, wp_onSpace]
  refine Act.wp_mono (h.program.wp_loadStack hfresh) (fun ret sp hret => ?_) fun _ => id
  rw [Act.wp_ite]
  refine ⟨fun hno hzero => absurd hzero hno, fun hzero => ?_⟩
  obtain ⟨hsegs, hstack⟩ := hret (not_not.mp hzero)
  rw [enterUser, Act.wp_bind, Act.wp_modify, Act.wp_bind, wp_onSpace]
  have hargv : Act.wp (copyArgs fuel pgdir kargv) _ _ sp := wp_copyArgs hstack.tree hfit
  refine Act.wp_mono hargv (fun r sp' hr => ?_) fun _ => id
  match r, hr with
  | none, _ => exact fun hzero => absurd hzero hinval
  | some (argvBase, stacktop), hr =>
    obtain ⟨-, -, -, hbelow⟩ := hr argvBase stacktop rfl
    exact fun _ => ⟨rfl, fun ph hph => h.program.inMemory hph
      ((hstack.mono hle).trans (hbelow.mono habove) le_rfl) (hsegs ph hph), rfl⟩

/-- A file of 4096 bytes. -/
def fileOf (bytes : ℕ → UInt8) : Reader where
  seek offset := if offset < 2 ^ 27 then 0 else -E_INVAL
  read offset len := min len (4096 - offset)
  data offset _ i := bytes (offset + i)

/-- Memory is granted, as long as there is a page. -/
def envOf (bytes : ℕ → UInt8) : Env := ⟨lowest, 0, true, true, fun _ => true, true, fun _ => 0, fileOf bytes⟩

/-- Before a load, with an empty page directory. -/
def beforeLoad : Loading where
  space := ⟨mmCreate, ⟨fun _ _ => 0, fun _ => 0, {0}, false⟩⟩
  current := none
  tf := ⟨0, 0, 0, 0, 0⟩
  trace := ⟨[], [], false⟩
  history := []

end UCore.Exec
