import UCore.Fs.ShareRun

/-!
# Fs/ShareStep — one section of one process

Each section runs to its end without a failed assertion, and moves its process and at most one entry:
what it does is a `Move`, or a change to the processes that share a table.
-/

namespace UCore.Fs.Share

open Sfs Act

variable {s s' : Shared} {p q t t' fd fd' i j k flags : ℕ} {α : Type}

section Rules

variable {E : Failure → Prop} {Q : α → Shared → Prop}

@[simp] theorem wp_onFiles {Q : Except ℤ α → Shared → Prop} (m : Call α) :
    wp (onFiles m) Q E s ↔ wpe m (fun a fs => Q (.ok a) { s with fs := fs })
      (fun e fs => Q (.error e) { s with fs := fs }) (fun a => E (.call a)) s.fs := by
  unfold wp wpe onFiles wp
  cases m.run s.fs with
  | ok r => obtain ⟨r, fs⟩ := r; cases r <;> rfl
  | error e => rfl

@[simp] theorem wp_doFiles {Q : Unit → Shared → Prop} (m : Call Unit) :
    wp (doFiles m) Q E s ↔ wpe m (fun _ fs => Q () { s with fs := fs })
      (fun _ fs => Q () { s with fs := fs }) (fun a => E (.call a)) s.fs := by
  rw [doFiles, wp_bind, wp_onFiles]
  rfl

@[simp] theorem wp_goto {Q : Unit → Shared → Prop} (c : Pc) :
    wp (goto p c) Q E s ↔ Q () { s with pc := Function.update s.pc p c } := Iff.rfl

@[simp] theorem wp_countOpen {Q : Unit → Shared → Prop} :
    wp (countOpen t fd) Q E s ↔ Q () { s with opens := setEntry s.opens t fd (s.opens t fd + 1) } :=
  Iff.rfl

@[simp] theorem wp_countClose {Q : Unit → Shared → Prop} :
    wp (countClose t fd) Q E s ↔ Q () { s with closes := setEntry s.closes t fd (s.closes t fd + 1) } :=
  Iff.rfl

@[simp] theorem wpe_file {E : Assertion → Prop} {Q : File → FileSys → Prop} {R : ℤ → FileSys → Prop}
    {fs : FileSys} : wpe (file t fd) Q R E fs ↔ Q (fs.fdArray t fd) fs := Iff.rfl

@[simp] theorem wpe_setFile {E : Assertion → Prop} {Q : Unit → FileSys → Prop}
    {R : ℤ → FileSys → Prop} {fs : FileSys} (f : File → File) :
    wpe (setFile t fd f) Q R E fs ↔
      Q () { fs with fdArray := setEntry fs.fdArray t fd (f (fs.fdArray t fd)) } := Iff.rfl

@[simp] theorem wpe_setNode {E : Assertion → Prop} {Q : Unit → FileSys → Prop}
    {R : ℤ → FileSys → Prop} {fs : FileSys} (f : Node → Node) :
    wpe (setNode i f) Q R E fs ↔ Q () { fs with node := Function.update fs.node i (f (fs.node i)) } :=
  Iff.rfl

end Rules

/-- A section that fails no assertion and keeps the invariant. -/
abbrev Keeps (m : Section Unit) (s : Shared) : Prop := wp m (fun _ => Inv) (fun _ => False) s

/-! ## What the invariant says of one process and one entry -/

namespace Inv

/-- A table with members is not being destroyed. -/
theorem not_destroys (h : Inv s) (ht : s.filesp p = some t) (q : ℕ) : (s.pc q).destroys ≠ some t :=
  fun hq => (h.tables.count_pos ht).ne' (h.tables.destroys q t hq).2.1

/-- What an entry has open is counted. -/
theorem open_pos (h : Inv s) (hi : inodeOf (s.fs.fdArray t fd) = some i) :
    0 < (s.fs.node i).openCount := by
  have := (h.opens i).pos_iff.mpr ⟨.entry t fd, hi⟩
  exact_mod_cast this

theorem ref_pos (h : Inv s) (hi : (s.pc p).holds = some i) : 0 < (s.fs.node i).refCount := by
  have := (h.holds i).pos_iff.mpr ⟨.process p, hi⟩
  exact_mod_cast this

/-- What a `vfs_open` has open is counted. -/
theorem opening_pos (h : Inv s) (hi : (s.pc p).opens = some i) : 0 < (s.fs.node i).openCount := by
  have := (h.opens i).pos_iff.mpr ⟨.process p, hi⟩
  exact_mod_cast this

/-- An entry in use is open, or closed and not given back yet. -/
theorem users_pos (h : Inv s) (hu : (s.pc p).uses = some (t, fd)) : 0 < users (s.fs.fdArray t fd) :=
  (h.entries.users t fd).pos_iff.mpr ⟨p, hu⟩

theorem opened_pos (h : Inv s) (hst : (s.fs.fdArray t fd).status = .opened) :
    0 < (s.fs.fdArray t fd).openCount := by
  have := (h.entries.users t fd).nonneg
  rw [users, if_pos hst] at this
  omega

/-- An open entry has an inode. -/
theorem node_of_opened (h : Inv s) (hst : (s.fs.fdArray t fd).status = .opened) :
    ∃ i, (s.fs.fdArray t fd).node = some i :=
  Option.ne_none_iff_exists'.mp (h.entries.node t fd (.inl hst))

end Inv

theorem inodeOf_eq_some {f : File} : inodeOf f = some i ↔
    (f.status = .opened ∨ f.status = .closed ∧ 0 < f.openCount) ∧ f.node = some i := by
  rw [inodeOf]
  split
  · next hst => exact (and_iff_right hst).symm
  · next hst => exact ⟨fun hno => (nomatch hno), fun hno => absurd hno.1 hst⟩

/-- An entry that has an inode open is in no process's hands. -/
theorem not_pending {f : File} (h : inodeOf f = some i) : ¬ Pending f := by
  obtain ⟨hst, -⟩ := inodeOf_eq_some.mp h
  rintro (hp | ⟨hp, hzero⟩)
  · rcases hst with hs | ⟨hs, -⟩ <;> exact nomatch hp.symm.trans hs
  · rcases hst with hs | ⟨-, hpos⟩
    · exact nomatch hp.symm.trans hs
    · exact hpos.ne' hzero

theorem status_ne_none {f : File} (h : inodeOf f = some i) : f.status ≠ .none := fun hno => by
  rcases (inodeOf_eq_some.mp h).1 with hs | ⟨hs, -⟩ <;> exact nomatch hno.symm.trans hs

/-- A place where a process has no entry in its hands and no inode. -/
structure Rests (c : Pc) : Prop where
  owns : c.owns = none
  opens : c.opens = none
  holds : c.holds = none

theorem rests_idle : Rests .idle := ⟨rfl, rfl, rfl⟩

theorem rests_use {op : UseOp} : Rests (.use t fd op) := ⟨rfl, rfl, rfl⟩

theorem rests_closeall : Rests (.closeall t fd) := ⟨rfl, rfl, rfl⟩

theorem rests_destroy : Rests (.destroy t fd) := ⟨rfl, rfl, rfl⟩

/-! ## The moves -/

namespace Inv

/-- **An entry that stays open** has one use more or less, or another position. -/
theorem touch (h : Inv s) {c : Pc} {f : File} (hold : Rests (s.pc p)) (hnew : Rests c)
    (hin : inodeOf (s.fs.fdArray t fd) = some i) (hf : inodeOf f = some i)
    (huse : ∀ e, (s.pc p).uses = some e → e = (t, fd)) (huse' : ∀ e, c.uses = some e → e = (t, fd))
    (husers : users f = users (s.fs.fdArray t fd) + (if c.uses = some (t, fd) then 1 else 0) -
      if (s.pc p).uses = some (t, fd) then 1 else 0)
    (hmember : ∀ t', c.member = some t' → s.filesp p = some t')
    (hdestroys : c.destroys = none) (hlive : s.alive t = true ∧ fd < FILES_STRUCT_NENTRY) :
    Inv { s with
      fs := { s.fs with fdArray := setEntry s.fs.fdArray t fd f }
      pc := Function.update s.pc p c } := by
  have hst' := (inodeOf_eq_some.mp hf).1
  refine h.moved p t fd 0 c f (s.other 0) (s.opens t fd) (s.closes t fd) {
    old := fun e he => he.elim (huse e) fun ho => nomatch hold.owns.symm.trans ho
    new := fun e he => he.elim (huse' e) fun ho => nomatch hnew.owns.symm.trans ho
    users := husers
    owners := by rw [if_neg (not_pending hin), if_neg (not_pending hf), hold.owns, hnew.owns]; simp
    keep := fun hp => absurd hp (not_pending hin)
    starts := fun hs => nomatch hnew.owns.symm.trans (Pc.owns_of_starts hs)
    ends := fun he => nomatch hnew.owns.symm.trans (Pc.owns_of_ends he)
    unused := fun hno => ?_
    node := fun _ => by rw [(inodeOf_eq_some.mp hf).2]; simp
    once := ?_
    member := hmember
    destroys := fun _ hd => nomatch hdestroys.symm.trans hd
    dead := .inr hlive
    fresh := .inr (.inl (status_ne_none hin))
    openCount := fun j => by rw [hin, hf, hold.opens, hnew.opens]; simp
    refCount := fun j => by rw [hin, hf, hold.holds, hnew.holds]; simp }
  · rcases hno with hno | hno <;> rcases hst' with hs | ⟨hs, -⟩ <;> exact nomatch hno.symm.trans hs
  · have hsame := h.entries.once t fd
    rw [hin] at hsame
    rwa [hf]

/-- **The last holder of an entry closes it**, and is in its `vfs_close`. -/
theorem shut (h : Inv s) {f : File} {task : Task} (hold : Rests (s.pc p))
    (hin : inodeOf (s.fs.fdArray t fd) = some i)
    (huse : ∀ e, (s.pc p).uses = some e → e = (t, fd))
    (husers : users (s.fs.fdArray t fd) = if (s.pc p).uses = some (t, fd) then 1 else 0)
    (hstatus : f.status = .closed) (hcount : f.openCount = 0) (hnode : f.node = some i)
    (hmember : task ≠ .destroy → s.filesp p = some t)
    (hdestroys : task = .destroy → s.pc p = .destroy t fd)
    (hlive : s.alive t = true ∧ fd < FILES_STRUCT_NENTRY) :
    Inv { s with
      fs := { s.fs with
        fdArray := setEntry s.fs.fdArray t fd f
        node := Function.update s.fs.node i { s.fs.node i with
          openCount := (s.fs.node i).openCount - 1 } }
      pc := Function.update s.pc p (.close t fd i task)
      closes := setEntry s.closes t fd (s.closes t fd + 1) } := by
  have hpos := h.open_pos hin
  have hclosed : inodeOf f = none := by simp [inodeOf, hstatus, hcount]
  refine h.moved p t fd 0 (.close t fd i task) f (s.other 0) (s.opens t fd) (s.closes t fd + 1) {
    old := fun e he => he.elim (huse e) fun ho => by cases hold.owns.symm.trans ho
    new := fun e he => he.elim (fun hu => by cases hu) fun ho => (Option.some.inj ho).symm
    users := ?_
    owners := ?_
    keep := fun hp => absurd hp (not_pending hin)
    starts := fun hs => by cases hs
    ends := fun _ => hstatus
    unused := fun hno => by rw [hstatus] at hno; simp at hno
    node := fun _ => by rw [hnode]; simp
    once := ?_
    member := fun t' ht' => ?_
    destroys := fun t' hd => ?_
    dead := .inr hlive
    fresh := .inr (.inl (status_ne_none hin))
    openCount := fun j => ?_
    refCount := fun j => ?_ }
  · rw [husers, users, hstatus, hcount]
    simp [Pc.uses]
  · have hpend : Pending f := .inr ⟨hstatus, hcount⟩
    rw [if_neg (not_pending hin), if_pos hpend, hold.owns]
    simp [Pc.owns, Pc.starts, Pc.ends]
  · have hsame := h.entries.once t fd
    rw [hin] at hsame
    rw [hclosed]
    simpa using hsame
  · rw [Pc.member] at ht'
    split at ht'
    · cases ht'
    · next hne => exact Option.some.inj ht' ▸ hmember hne
  · rw [Pc.destroys] at hd
    split at hd
    · next heq =>
      obtain rfl := Option.some.inj hd
      rw [hdestroys heq]
      exact ⟨rfl, fun fd' hfd' => .inl hfd'⟩
    · cases hd
  · rw [hin, hclosed, hold.opens]
    dsimp only
    rcases eq_or_ne j i with rfl | hji
    · rw [Function.update_self]
      simp [Pc.opens]
      omega
    · rw [Function.update_of_ne hji]
      simp [Pc.opens, hji.symm]
  · rw [hin, hclosed, hold.holds]
    dsimp only
    rcases eq_or_ne j i with rfl | hji
    · rw [Function.update_self]
      simp [Pc.holds]
    · rw [Function.update_of_ne hji]
      simp [Pc.holds, hji.symm]

/-- An entry that is somewhere is in a table that is in memory. -/
theorem live (h : Inv s) (t fd : ℕ) : (s.fs.fdArray t fd).status = .none ∨
    s.alive t = true ∧ fd < FILES_STRUCT_NENTRY := by
  by_cases hst : (s.fs.fdArray t fd).status = .none
  · exact .inl hst
  · refine .inr ⟨?_, ?_⟩
    · by_contra hno
      exact hst (h.tables.dead t fd (.inl (by simpa using hno)))
    · by_contra hno
      exact hst (h.tables.dead t fd (.inr (not_lt.mp hno)))

/-- **A process goes on**, and touches no entry; one that destroys a table has passed an empty one. -/
theorem goes (h : Inv s) {c : Pc} (t fd : ℕ) (hold : Rests (s.pc p)) (hnew : Rests c)
    (huse : (s.pc p).uses = none) (huse' : c.uses = none)
    (hmember : ∀ t', c.member = some t' → s.filesp p = some t')
    (hdestroys : ∀ t', c.destroys = some t' → (s.pc p).destroys = some t' ∧ ∀ fd' < c.swept,
      fd' < (s.pc p).swept ∨ (t', fd') = (t, fd) ∧ (s.fs.fdArray t fd).status = .none) :
    Inv { s with pc := Function.update s.pc p c } :=
  h.moved p t fd 0 c (s.fs.fdArray t fd) (s.other 0) (s.opens t fd) (s.closes t fd) {
    old := fun e he => he.elim (fun hu => nomatch huse.symm.trans hu) fun ho =>
      nomatch hold.owns.symm.trans ho
    new := fun e he => he.elim (fun hu => nomatch huse'.symm.trans hu) fun ho =>
      nomatch hnew.owns.symm.trans ho
    users := by rw [huse, huse']; simp
    owners := by rw [hold.owns, hnew.owns]; simp
    keep := fun _ _ => rfl
    starts := fun hs => nomatch hnew.owns.symm.trans (Pc.owns_of_starts hs)
    ends := fun he => nomatch hnew.owns.symm.trans (Pc.owns_of_ends he)
    unused := h.entries.unused t fd
    node := h.entries.node t fd
    once := h.entries.once t fd
    member := hmember
    destroys := hdestroys
    dead := h.live t fd
    fresh := or_iff_not_imp_left.mpr .inl
    openCount := fun j => by rw [hold.opens, hnew.opens]; simp
    refCount := fun j => by rw [hold.holds, hnew.holds]; simp }

end Inv

/-! ## Closing -/

section Heads

variable {E : Assertion → Prop} {Q : Option ℕ → FileSys → Prop} {R : ℤ → FileSys → Prop} {fs : FileSys}
  {f : File}

/-- `fd_array_free` of an entry that is closed goes to its `vfs_close`. -/
theorem wpe_freeHead_closed (hf : fs.fdArray t fd = f) (hst : f.status = .closed)
    (hcount : f.openCount = 0) (hnode : f.node = some i) (hpos : 0 < (fs.node i).openCount)
    (hQ : Q (some i) { fs with node := Function.update fs.node i { fs.node i with
      openCount := (fs.node i).openCount - 1 } }) :
    wpe (freeHead t fd) Q R E fs := by
  simp only [freeHead, wpe_bind, wpe_file, wpe_demand, hf, hst, hcount, hnode, if_true, dropOpen,
    wpe_get, wpe_setNode, wpe_pure]
  exact ⟨fun _ => ⟨fun _ => hQ, fun hno => absurd hpos hno⟩, fun hno => absurd (by simp) hno⟩

/-- **`fd_array_close`**: the last holder of the entry goes on to `vfs_close`. -/
theorem wpe_closeHead (hf : fs.fdArray t fd = f) (hst : f.status = .opened)
    (hcount : 0 < f.openCount) (hnode : f.node = some i) (hpos : 0 < (fs.node i).openCount)
    (hlast : f.openCount = 1 → Q (some i) { fs with
      fdArray := setEntry fs.fdArray t fd { f with status := .closed, openCount := 0 }
      node := Function.update fs.node i { fs.node i with openCount := (fs.node i).openCount - 1 } })
    (hmore : 1 < f.openCount → Q none { fs with
      fdArray := setEntry fs.fdArray t fd { f with status := .closed, openCount := f.openCount - 1 } }) :
    wpe (closeHead t fd) Q R E fs := by
  simp only [closeHead, wpe_bind, wpe_file, wpe_demand, hf, wpe_setFile, setEntry_self]
  refine ⟨fun _ => ?_, fun hno => absurd ⟨hst, hcount⟩ hno⟩
  rw [wpe_ite]
  refine ⟨fun h0 => ?_, fun hne => hmore (by omega)⟩
  have hone : f.openCount = 1 := by omega
  refine wpe_freeHead_closed (setEntry_self ..) rfl h0 hnode hpos ?_
  simpa [hone] using hlast hone

/-- **`fd_array_release`**, likewise, of an entry that was closed meanwhile. -/
theorem wpe_releaseHead (hf : fs.fdArray t fd = f) (hst : f.status = .opened ∨ f.status = .closed)
    (hcount : 0 < f.openCount) (hopened : f.status = .opened → 1 < f.openCount)
    (hnode : f.node = some i) (hpos : 0 < (fs.node i).openCount)
    (hlast : f.status = .closed → f.openCount = 1 → Q (some i) { fs with
      fdArray := setEntry fs.fdArray t fd { f with openCount := 0 }
      node := Function.update fs.node i { fs.node i with openCount := (fs.node i).openCount - 1 } })
    (hmore : 1 < f.openCount → Q none { fs with
      fdArray := setEntry fs.fdArray t fd { f with openCount := f.openCount - 1 } }) :
    wpe (releaseHead t fd) Q R E fs := by
  simp only [releaseHead, wpe_bind, wpe_file, wpe_demand, hf, wpe_setFile, setEntry_self]
  refine ⟨fun _ => ?_, fun hno => absurd ⟨hst, hcount⟩ hno⟩
  rw [wpe_ite]
  refine ⟨fun h0 => ?_, fun hne => hmore (by omega)⟩
  have hone : f.openCount = 1 := by omega
  have hclosed : f.status = .closed := hst.resolve_left fun ho => by
    have := hopened ho
    omega
  refine wpe_freeHead_closed (setEntry_self ..) hclosed h0 hnode hpos ?_
  simpa [hone] using hlast hclosed hone

end Heads

namespace Inv

/-- **A descriptor that is given** is an open one, or the call reports. -/
theorem wpe_fd2file {E : Assertion → Prop} {Q : ℕ × ℕ → FileSys → Prop} {R : ℤ → FileSys → Prop}
    {fd : ℤ} (h : Inv s) (ht : s.filesp p = some t)
    (hQ : fd.toNat < FILES_STRUCT_NENTRY → (s.fs.fdArray t fd.toNat).status = .opened → ∀ i,
      (s.fs.fdArray t fd.toNat).node = some i → Q (fd.toNat, i) s.fs)
    (hR : R (-E_INVAL) s.fs) : wpe (fd2file t fd) Q R E s.fs := by
  rw [fd2file, wpe_ite]
  refine ⟨fun htest => ?_, fun _ => hR⟩
  have hlt : fd.toNat < FILES_STRUCT_NENTRY := by
    have hlt := (Bool.and_eq_true _ _ ▸ htest).2
    have hlt : fd < (72 : ℕ) := of_decide_eq_true hlt
    change fd.toNat < 72
    omega
  simp only [getFdArray, wpe_bind, wpe_get, wpe_demand, wpe_file]
  refine ⟨fun _ => ?_, fun hno => absurd (h.tables.count_pos ht) hno⟩
  rw [wpe_ite]
  refine ⟨fun hst => ?_, fun _ => hR⟩
  obtain ⟨i, hi⟩ := h.node_of_opened hst
  rw [hi]
  exact hQ hlt hst i hi

/-- **Closing an open entry**, whatever the process goes on with. -/
theorem wpe_closeHead {E : Assertion → Prop} {R : ℤ → FileSys → Prop} (h : Inv s) (task : Task)
    (hold : Rests (s.pc p)) (huse : (s.pc p).uses = none)
    (hst : (s.fs.fdArray t fd).status = .opened)
    (hmember : task ≠ .destroy → s.filesp p = some t)
    (hdestroys : task = .destroy → s.pc p = .destroy t fd ∧ (s.fs.fdArray t fd).openCount = 1) :
    wpe (closeHead t fd) (fun r fs => wp (afterHead p t fd task r) (fun _ => Inv) (fun _ => False)
      { s with fs := fs }) R E s.fs := by
  obtain ⟨i, hnode⟩ := h.node_of_opened hst
  have hin : inodeOf (s.fs.fdArray t fd) = some i := inodeOf_eq_some.mpr ⟨.inl hst, hnode⟩
  have hlive := (h.live t fd).resolve_left (status_ne_none hin)
  have hnone : ∀ e, (s.pc p).uses = some e → e = (t, fd) := fun e he => by cases huse.symm.trans he
  refine Share.wpe_closeHead rfl hst (h.opened_pos hst) hnode (h.open_pos hin) (fun hone => ?_)
    fun hmore => ?_
  · simp only [afterHead, wp_bind, wp_countClose, wp_goto]
    refine h.shut hold hin hnone ?_ rfl rfl hnode hmember (fun hd => (hdestroys hd).1) hlive
    rw [users, if_pos hst, hone, huse]
    simp
  · have hopen : inodeOf { s.fs.fdArray t fd with
        status := .closed, openCount := (s.fs.fdArray t fd).openCount - 1 } = some i :=
      inodeOf_eq_some.mpr ⟨.inr ⟨rfl, by dsimp only; omega⟩, hnode⟩
    have husers : users { s.fs.fdArray t fd with
        status := .closed, openCount := (s.fs.fdArray t fd).openCount - 1 } =
        users (s.fs.fdArray t fd) := by
      rw [users, users, if_pos hst]
      simp
      omega
    cases task with
    | none =>
      refine h.touch hold rests_idle hin hopen hnone (fun _ hno => by cases hno) ?_
        (fun _ hno => by cases hno) rfl hlive
      rw [husers, huse]
      simp [Pc.uses]
    | closeall =>
      refine h.touch hold rests_closeall hin hopen hnone (fun _ hno => by cases hno) ?_
        (fun t' ht' => Option.some.inj ht' ▸ hmember (by simp)) rfl hlive
      rw [husers, huse]
      simp [Pc.uses]
    | destroy => exact absurd (hdestroys rfl).2 hmore.ne'

/-- **`file_close`.** -/
theorem keeps_startClose {fd : ℤ} (h : Inv s) (hpc : s.pc p = .idle) (ht : s.filesp p = some t) :
    Keeps (startClose p t fd) s := by
  have hrest : Rests (s.pc p) := hpc ▸ rests_idle
  simp only [Keeps, startClose, wp_bind, wp_onFiles, wpe_bind]
  refine h.wpe_fd2file ht (fun _ hst i _ => ?_) h
  exact h.wpe_closeHead .none hrest (by rw [hpc]; rfl) hst (fun _ => ht) fun hno => by cases hno

/-- **An entry stays in the hands of its process**, which opens or gives up an inode. -/
theorem carry (h : Inv s) (p t fd k : ℕ) (c : Pc) (node : ℕ → Node) (o : Option ℕ)
    (hown : (s.pc p).owns = some (t, fd)) (hown' : c.owns = some (t, fd))
    (huse : (s.pc p).uses = none) (huse' : c.uses = none)
    (hstarts : c.starts = (s.pc p).starts) (hends : c.ends = (s.pc p).ends)
    (hmember : c.member = (s.pc p).member) (hdestroys : c.destroys = (s.pc p).destroys)
    (hswept : c.swept = (s.pc p).swept)
    (hopen : ∀ j, ((node j).openCount : ℤ) = (s.fs.node j).openCount +
      (if c.opens = some j then 1 else 0) - if (s.pc p).opens = some j then 1 else 0)
    (href : ∀ j, ((node j).refCount : ℤ) = (s.fs.node j).refCount +
      ((if c.holds = some j then 1 else 0) - if (s.pc p).holds = some j then 1 else 0) +
      (if o = some j then 1 else 0) - if s.other k = some j then 1 else 0) :
    Inv { s with
      fs := { s.fs with node := node }
      pc := Function.update s.pc p c
      other := Function.update s.other k o } :=
  h.moved p t fd k c (s.fs.fdArray t fd) o (s.opens t fd) (s.closes t fd) {
    old := fun e he => he.elim (fun hu => nomatch huse.symm.trans hu) fun ho =>
      Option.some.inj (ho.symm.trans hown)
    new := fun e he => he.elim (fun hu => nomatch huse'.symm.trans hu) fun ho =>
      Option.some.inj (ho.symm.trans hown')
    users := by rw [huse, huse']; simp
    owners := by rw [hown, hown']; simp
    keep := fun _ _ => rfl
    starts := fun hs => h.entries.starts p t fd (hstarts ▸ hs)
    ends := fun he => h.entries.ends p t fd (hends ▸ he)
    unused := h.entries.unused t fd
    node := h.entries.node t fd
    once := h.entries.once t fd
    member := fun t' ht' => h.tables.member p t' (hmember ▸ ht')
    destroys := fun t' hd => ⟨hdestroys ▸ hd, fun fd' hfd' => .inl (hswept ▸ hfd')⟩
    dead := h.live t fd
    fresh := or_iff_not_imp_left.mpr .inl
    openCount := fun j => by dsimp only; rw [hopen]; omega
    refCount := fun j => by dsimp only; rw [href]; omega }

/-- `vfs_close`, after `vop_close`. -/
theorem keeps_closeRef {task : Task} (h : Inv s) (hpc : s.pc p = .close t fd i task) :
    Keeps (closeRef p t fd i task) s := by
  have hpos := h.ref_pos (p := p) (i := i) (by rw [hpc]; rfl)
  simp only [Keeps, closeRef, dropRef, wp_bind, wp_doFiles, wpe_bind, wpe_get, wpe_demand, wpe_setNode,
    wp_goto]
  refine ⟨fun _ => ?_, fun hno => absurd hpos hno⟩
  have hnext := h.carry p t fd 0 (.reclaim t fd task) (Function.update s.fs.node i
    { s.fs.node i with refCount := (s.fs.node i).refCount - 1 }) (s.other 0)
  simp only [hpc, Function.update_eq_self] at hnext
  refine hnext rfl rfl rfl rfl rfl rfl rfl rfl rfl (fun j => ?_) fun j => ?_
  · rcases eq_or_ne j i with rfl | hji
    · simp [Pc.opens]
    · simp [Pc.opens, hji]
  · rcases eq_or_ne j i with rfl | hji
    · simp [Pc.holds]
      omega
    · simp [Pc.holds, hji, hji.symm]

/-- **An entry is given back**, and its process goes on. -/
theorem settle (h : Inv s) {c : Pc} {f : File} (hown : (s.pc p).owns = some (t, fd))
    (huse : (s.pc p).uses = none) (hopens : (s.pc p).opens = none) (hholds : (s.pc p).holds = none)
    (hnew : Rests c) (huse' : c.uses = none) (hstatus : f.status = .none)
    (hcount : f.openCount = (s.fs.fdArray t fd).openCount)
    (hmember : ∀ t', c.member = some t' → s.filesp p = some t')
    (hdestroys : ∀ t', c.destroys = some t' → (s.pc p).destroys = some t' ∧ ∀ fd' < c.swept,
      fd' < (s.pc p).swept ∨ (t', fd') = (t, fd)) :
    Inv { s with
      fs := { s.fs with fdArray := setEntry s.fs.fdArray t fd f }
      pc := Function.update s.pc p c } := by
  have hpend := h.entries.pending hown
  have hzero : (s.fs.fdArray t fd).openCount = 0 := by
    rcases hpend with hp | hp
    · exact h.entries.unused t fd (.inr hp)
    · exact hp.2
  have hold : inodeOf (s.fs.fdArray t fd) = none := by
    by_contra hne
    obtain ⟨i, hi⟩ := Option.ne_none_iff_exists'.mp hne
    exact not_pending hi hpend
  have hf : inodeOf f = none := by simp [inodeOf, hstatus]
  have hopened : (s.fs.fdArray t fd).status ≠ .opened := fun hst => by
    rcases hpend with hp | hp
    · exact nomatch hst.symm.trans hp
    · exact nomatch hst.symm.trans hp.1
  refine h.moved p t fd 0 c f (s.other 0) (s.opens t fd) (s.closes t fd) {
    old := fun e he => he.elim (fun hu => nomatch huse.symm.trans hu) fun ho =>
      Option.some.inj (ho.symm.trans hown)
    new := fun e he => he.elim (fun hu => nomatch huse'.symm.trans hu) fun ho =>
      nomatch hnew.owns.symm.trans ho
    users := ?_
    owners := ?_
    keep := fun _ hno => absurd hown hno
    starts := fun hs => nomatch hnew.owns.symm.trans (Pc.owns_of_starts hs)
    ends := fun he => nomatch hnew.owns.symm.trans (Pc.owns_of_ends he)
    unused := fun _ => hcount.trans hzero
    node := fun hno => ?_
    once := ?_
    member := hmember
    destroys := fun t' hd => ⟨(hdestroys t' hd).1, fun fd' hfd' =>
      ((hdestroys t' hd).2 fd' hfd').imp_right fun he => ⟨he, hstatus⟩⟩
    dead := .inl hstatus
    fresh := .inl hstatus
    openCount := fun j => by rw [hf, hold, hopens, hnew.opens]; simp
    refCount := fun j => by rw [hf, hold, hholds, hnew.holds]; simp }
  · rw [huse, huse', users, users, hstatus, if_neg hopened, hcount]
    simp
  · have hno : ¬ Pending f := fun hp => by
      rcases hp with hp | hp
      · exact nomatch hstatus.symm.trans hp
      · exact nomatch hstatus.symm.trans hp.1
    rw [if_pos hpend, if_neg hno, hown, hnew.owns]
    simp
  · rcases hno with hno | hno <;> exact nomatch hstatus.symm.trans hno
  · have hsame := h.entries.once t fd
    rw [hold] at hsame
    rwa [hf]

/-- The end of `fd_array_free`, after `vfs_close`. -/
theorem keeps_closeDone {task : Task} (h : Inv s) (hpc : s.pc p = .reclaim t fd task) :
    Keeps (closeDone p t fd task) s := by
  have hown : (s.pc p).owns = some (t, fd) := by rw [hpc]; rfl
  have huse : (s.pc p).uses = none := by rw [hpc]; rfl
  have hopens : (s.pc p).opens = none := by rw [hpc]; rfl
  have hholds : (s.pc p).holds = none := by rw [hpc]; rfl
  simp only [Keeps, closeDone, wp_bind, wp_doFiles, wpe_setFile]
  cases task with
  | none =>
    exact h.settle hown huse hopens hholds rests_idle rfl rfl rfl (fun _ hno => by cases hno)
      fun _ hno => by cases hno
  | closeall =>
    refine h.settle hown huse hopens hholds rests_closeall rfl rfl rfl (fun t' ht' => ?_)
      fun _ hno => by cases hno
    exact h.tables.member p t' (by rw [hpc]; exact ht')
  | destroy =>
    simp only [proceed, wp_bind, wp_get, wp_require, wp_goto, setEntry_self]
    refine ⟨fun _ => ?_, fun hno => absurd trivial hno⟩
    refine h.settle hown huse hopens hholds rests_destroy rfl rfl rfl (fun _ hno => by cases hno)
      fun t' hd => ⟨by rw [hpc]; exact hd, fun fd' hfd' => ?_⟩
    have hfd' : fd' < fd + 1 := hfd'
    have hsame : t' = t := (Option.some.inj hd).symm
    rw [hpc]
    rcases Nat.lt_succ_iff_lt_or_eq.mp hfd' with hlt | rfl
    · exact .inl hlt
    · exact .inr (by rw [hsame])

/-! ## The loops over a table -/

theorem keeps_startCloseall (h : Inv s) (hpc : s.pc p = .idle) (ht : s.filesp p = some t) :
    Keeps (startCloseall p t) s := by
  simp only [Keeps, startCloseall, wp_bind, wp_get, wp_require, wp_goto]
  refine ⟨fun _ => ?_, fun hno => absurd (h.tables.count_pos ht) hno⟩
  exact h.goes t 0 (hpc ▸ rests_idle) rests_closeall (by rw [hpc]; rfl) rfl
    (fun t' ht' => Option.some.inj ht' ▸ ht) fun _ hno => by cases hno

/-- A turn of the loop of `files_closeall`, or its end. -/
theorem keeps_stepCloseall (h : Inv s) (hpc : s.pc p = .closeall t fd) :
    Keeps (stepCloseall p t fd) s := by
  have hrest : Rests (s.pc p) := hpc ▸ rests_closeall
  have huse : (s.pc p).uses = none := by rw [hpc]; rfl
  have ht : s.filesp p = some t := h.tables.member p t (by rw [hpc]; rfl)
  rw [Keeps, stepCloseall]
  split
  · rw [turn, wp_bind, wp_get, wp_ite]
    refine ⟨fun hst => ?_, fun _ => ?_⟩
    · simp only [wp_bind, wp_onFiles]
      exact h.wpe_closeHead .closeall hrest huse hst (fun _ => ht) fun hno => by cases hno
    · exact h.goes t 0 hrest rests_closeall huse rfl (fun t' ht' => Option.some.inj ht' ▸ ht)
        fun _ hno => by cases hno
  · exact h.goes t 0 hrest rests_idle huse rfl (fun _ hno => by cases hno) fun _ hno => by cases hno

/-! ## Opening -/

/-- **`fd_array_alloc`** finds an entry that is not in use, or the call reports. -/
theorem wpe_fdArrayAlloc {E : Assertion → Prop} {Q : ℕ → FileSys → Prop} {R : ℤ → FileSys → Prop}
    {fd : ℤ} (h : Inv s) (ht : s.filesp p = some t)
    (hQ : ∀ k < FILES_STRUCT_NENTRY, (s.fs.fdArray t k).status = .none → Q k { s.fs with
      fdArray := setEntry s.fs.fdArray t k { s.fs.fdArray t k with status := .init, node := none } })
    (hR : ∀ e, R e s.fs) : wpe (fdArrayAlloc t fd) Q R E s.fs := by
  have hfound : ∀ k < FILES_STRUCT_NENTRY, (s.fs.fdArray t k).status = .none →
      wpe (fdArrayFound t k) Q R E s.fs := fun k hk hst => by
    simp only [fdArrayFound, wpe_bind, wpe_file, wpe_demand, wpe_setFile, wpe_pure]
    exact ⟨fun _ => hQ k hk hst, fun hno => absurd (h.entries.unused t k (.inl hst)) hno⟩
  simp only [fdArrayAlloc, getFdArray, wpe_bind, wpe_get, wpe_demand]
  refine ⟨fun _ => ?_, fun hno => absurd (h.tables.count_pos ht) hno⟩
  rw [wpe_ite]
  refine ⟨fun _ => ?_, fun _ => ?_⟩
  · split
    · next k hk =>
      refine hfound k (List.mem_range.mp (List.mem_of_find?_eq_some hk)) ?_
      have := List.find?_some hk
      exact of_decide_eq_true this
    · exact hR _
  · rw [wpe_ite]
    refine ⟨fun htest => ?_, fun _ => hR _⟩
    have hlt : fd.toNat < FILES_STRUCT_NENTRY := by
      have hlt := (Bool.and_eq_true _ _ ▸ htest).2
      have hlt : fd < (72 : ℕ) := of_decide_eq_true hlt
      change fd.toNat < 72
      omega
    rw [wpe_ite]
    exact ⟨fun hst => hfound fd.toNat hlt hst, fun _ => hR _⟩

/-- `file_open`, up to the lookup of `vfs_open`. -/
theorem keeps_startOpen (h : Inv s) (hpc : s.pc p = .idle) (ht : s.filesp p = some t) :
    Keeps (startOpen p t flags) s := by
  simp only [Keeps, startOpen, wp_bind, wp_onFiles]
  rw [wpe_ite]
  refine ⟨fun _ => h, fun _ => h.wpe_fdArrayAlloc ht (fun fd hfd hst => ?_) fun _ => h⟩
  have hzero := h.entries.unused t fd (.inl hst)
  have hnone : inodeOf (s.fs.fdArray t fd) = none := by simp [inodeOf, hst]
  have hsame := h.entries.once t fd
  rw [hnone] at hsame
  refine h.moved p t fd 0 (.lookup t fd flags)
    { s.fs.fdArray t fd with status := .init, node := none } (s.other 0) (s.opens t fd)
    (s.closes t fd) {
    old := fun e he => by rw [hpc] at he; simp [Pc.uses, Pc.owns, Pc.starts, Pc.ends] at he
    new := fun e he => he.elim (fun hu => by cases hu) fun ho => (Option.some.inj ho).symm
    users := by simp [users, hpc, hst, Pc.uses]
    owners := by simp [Pending, hpc, hst, Pc.owns, Pc.starts, Pc.ends]
    keep := fun hp => by simp [Pending, hst] at hp
    starts := fun _ => rfl
    ends := fun hno => by cases hno
    unused := fun _ => hzero
    node := fun hno => by simp at hno
    once := by simpa [inodeOf] using hsame
    member := fun t' ht' => Option.some.inj ht' ▸ ht
    destroys := fun _ hno => by cases hno
    dead := .inr ⟨h.tables.alive p t ht, hfd⟩
    fresh := .inr (.inr (h.not_destroys ht))
    openCount := fun j => by rw [hnone, hpc]; simp [inodeOf, Pc.opens]
    refCount := fun j => by rw [hnone, hpc]; simp [inodeOf, Pc.holds] }

/-- **An entry that is not open yet is given back.** -/
theorem keeps_failOpen (h : Inv s) (hown : (s.pc p).starts = some (t, fd))
    (huse : (s.pc p).uses = none) (hopens : (s.pc p).opens = none) (hholds : (s.pc p).holds = none) :
    Keeps (failOpen p t fd) s := by
  have hst := h.entries.starts p t fd hown
  have hzero := h.entries.unused t fd (.inr hst)
  simp only [Keeps, failOpen, freeHead, wp_bind, wp_onFiles, wpe_bind, wpe_file, wpe_demand, hst, hzero]
  refine ⟨fun _ => ?_, fun hno => absurd (by simp) hno⟩
  rw [wpe_ite]
  refine ⟨fun hno => (by cases hno), fun _ => ?_⟩
  exact h.settle (Pc.owns_of_starts hown) huse hopens hholds rests_idle rfl rfl rfl
    (fun _ hno => by cases hno) fun _ hno => by cases hno

/-- `vfs_open` has found the inode, and opens it. -/
theorem keeps_incOpen (h : Inv s) (hpc : s.pc p = .lookup t fd flags) (hk : s.other k = some i) :
    Keeps (incOpen p t fd flags i k) s := by
  simp only [Keeps, incOpen, inodeOpenInc, wp_bind, wp_doFiles, wpe_setNode, wp_modify, wp_goto]
  refine h.carry p t fd k (.opened t fd i flags) _ none (by rw [hpc]; rfl) rfl (by rw [hpc]; rfl) rfl
    (by rw [hpc]; rfl) (by rw [hpc]; rfl) (by rw [hpc]; rfl) (by rw [hpc]; rfl) (by rw [hpc]; rfl)
    (fun j => ?_) fun j => ?_
  · rcases eq_or_ne j i with rfl | hji
    · simp [hpc, Pc.opens]
    · simp [hpc, Pc.opens, hji, hji.symm]
  · rcases eq_or_ne j i with rfl | hji
    · simp [hpc, hk, Pc.holds]
    · simp [hpc, hk, Pc.holds, hji]

/-- `file_open`, when `vop_truncate` or `vop_fstat` has failed. -/
theorem keeps_undoOpen (h : Inv s) (hpc : s.pc p = .opened t fd i flags) :
    Keeps (undoOpen p t fd i) s := by
  have hpos := h.opening_pos (p := p) (i := i) (by rw [hpc]; rfl)
  simp only [Keeps, undoOpen, dropOpen, wp_bind, wp_doFiles, wpe_bind, wpe_get, wpe_demand, wpe_setNode,
    wp_goto]
  refine ⟨fun _ => ?_, fun hno => absurd hpos hno⟩
  have hnext := h.carry p t fd 0 (.undo t fd i) (Function.update s.fs.node i
    { s.fs.node i with openCount := (s.fs.node i).openCount - 1 }) (s.other 0)
  simp only [hpc, Function.update_eq_self] at hnext
  refine hnext rfl rfl rfl rfl rfl rfl rfl rfl rfl (fun j => ?_) fun j => ?_
  · rcases eq_or_ne j i with rfl | hji
    · simp [Pc.opens]
      omega
    · simp [Pc.opens, hji, hji.symm]
  · rcases eq_or_ne j i with rfl | hji
    · simp [Pc.holds]
    · simp [Pc.holds, hji]

/-- …and after `vop_close`. -/
theorem keeps_undoRef (h : Inv s) (hpc : s.pc p = .undo t fd i) : Keeps (undoRef p t fd i) s := by
  have hpos := h.ref_pos (p := p) (i := i) (by rw [hpc]; rfl)
  simp only [Keeps, undoRef, dropRef, wp_bind, wp_doFiles, wpe_bind, wpe_get, wpe_demand, wpe_setNode,
    wp_goto]
  refine ⟨fun _ => ?_, fun hno => absurd hpos hno⟩
  have hnext := h.carry p t fd 0 (.undone t fd) (Function.update s.fs.node i
    { s.fs.node i with refCount := (s.fs.node i).refCount - 1 }) (s.other 0)
  simp only [hpc, Function.update_eq_self] at hnext
  refine hnext rfl rfl rfl rfl rfl rfl rfl rfl rfl (fun j => ?_) fun j => ?_
  · rcases eq_or_ne j i with rfl | hji
    · simp [Pc.opens]
    · simp [Pc.opens, hji]
  · rcases eq_or_ne j i with rfl | hji
    · simp [Pc.holds]
      omega
    · simp [Pc.holds, hji, hji.symm]

/-- **An inode that is open is recorded in its entry.** -/
theorem record (h : Inv s) (hpc : s.pc p = .opened t fd i flags) {f : File}
    (hstatus : f.status = .opened) (hnode : f.node = some i) (hcount : f.openCount = 1) :
    Inv { s with
      fs := { s.fs with fdArray := setEntry s.fs.fdArray t fd f }
      pc := Function.update s.pc p .idle
      opens := setEntry s.opens t fd (s.opens t fd + 1) } := by
  have hst := h.entries.starts p t fd (by rw [hpc]; rfl)
  have hzero := h.entries.unused t fd (.inr hst)
  have hold : inodeOf (s.fs.fdArray t fd) = none := by simp [inodeOf, hst]
  have hf : inodeOf f = some i := inodeOf_eq_some.mpr ⟨.inl hstatus, hnode⟩
  have hsame := h.entries.once t fd
  rw [hold] at hsame
  refine h.moved p t fd 0 .idle f (s.other 0) (s.opens t fd + 1) (s.closes t fd) {
    old := fun e he => by
      rw [hpc] at he
      exact he.elim (fun hu => nomatch hu) fun ho => (Option.some.inj ho).symm
    new := fun e he => he.elim (fun hu => nomatch hu) fun ho => nomatch ho
    users := by simp [users, hpc, hst, hstatus, hcount, hzero, Pc.uses]
    owners := by
      have hpend : Pending (s.fs.fdArray t fd) := .inl hst
      rw [if_pos hpend, if_neg (not_pending hf), hpc]
      simp [Pc.owns, Pc.starts, Pc.ends]
    keep := fun _ hno => absurd (by rw [hpc]; rfl) hno
    starts := fun hno => nomatch hno
    ends := fun hno => nomatch hno
    unused := fun hno => by simp [hstatus] at hno
    node := fun _ => by rw [hnode]; simp
    once := by rw [hf]; simpa using hsame
    member := fun _ hno => nomatch hno
    destroys := fun _ hno => nomatch hno
    dead := .inr ((h.live t fd).resolve_left (by rw [hst]; simp))
    fresh := .inr (.inl (by rw [hst]; simp))
    openCount := fun j => by rw [hold, hf, hpc]; simp [Pc.opens]
    refCount := fun j => by rw [hold, hf, hpc]; simp [Pc.holds] }

/-- The end of `file_open`. -/
theorem keeps_recordOpen (h : Inv s) (hpc : s.pc p = .opened t fd i flags) :
    Keeps (recordOpen p t fd i flags) s := by
  have hst := h.entries.starts p t fd (by rw [hpc]; rfl)
  have hzero := h.entries.unused t fd (.inr hst)
  simp only [Keeps, recordOpen, wp_bind, wp_doFiles, wpe_bind, wpe_setFile, wp_countOpen, wp_goto]
  rw [wpe_ite]
  refine ⟨fun _ => ?_, fun _ => ?_⟩
  all_goals
    simp only [fdArrayOpen, wpe_bind, wpe_get, wpe_file, wpe_demand, wpe_setFile, setEntry_self,
      setEntry_setEntry, hst, hzero]
    refine ⟨fun _ => ?_, fun hno => absurd (by simp) hno⟩
    exact h.record hpc rfl rfl rfl

/-! ## Operations on an open entry -/

/-- **An operation begins**, on an open entry. -/
theorem keeps_startUse {fd : ℤ} {op : UseOp} (h : Inv s) (hpc : s.pc p = .idle)
    (ht : s.filesp p = some t) : Keeps (startUse p t fd op) s := by
  simp only [Keeps, startUse, wp_bind, wp_onFiles, wpe_bind]
  refine h.wpe_fd2file ht (fun _ hst i hnode => ?_) h
  simp only [wpe_file]
  rw [wpe_ite]
  refine ⟨fun _ => ?_, fun _ => h⟩
  simp only [fdArrayAcquire, wpe_bind, wpe_file, wpe_demand, wpe_setFile, wpe_pure]
  refine ⟨fun _ => ?_, fun hno => absurd hst hno⟩
  have hin : inodeOf (s.fs.fdArray t fd.toNat) = some i := inodeOf_eq_some.mpr ⟨.inl hst, hnode⟩
  refine h.touch (hpc ▸ rests_idle) rests_use hin (inodeOf_eq_some.mpr ⟨.inl hst, hnode⟩)
    (fun e he => by rw [hpc] at he; cases he) (fun e he => (Option.some.inj he).symm) ?_
    (fun t' ht' => Option.some.inj ht' ▸ ht) rfl ((h.live t _).resolve_left (status_ne_none hin))
  rw [users, users, hpc]
  simp [Pc.uses]
  omega

/-- An operation moves the position, at most. -/
theorem wpe_settleUse {E : Assertion → Prop} {Q : Unit → FileSys → Prop} {R : ℤ → FileSys → Prop}
    {fs : FileSys} {op : UseOp} {n : Option ℤ} (hQ : ∀ pos, Q () { fs with
      fdArray := setEntry fs.fdArray t fd { fs.fdArray t fd with pos := pos } }) :
    wpe (settleUse t fd op n) Q R E fs := by
  have hsame : Q () fs := by simpa using hQ (fs.fdArray t fd).pos
  simp only [settleUse, wpe_bind, wpe_file]
  split
  · exact hQ _
  · rw [wpe_ite]
    exact ⟨fun _ => hQ _, fun _ => hsame⟩
  · rw [wpe_ite]
    exact ⟨fun _ => hQ _, fun _ => hsame⟩
  · exact hsame

/-- **An operation ends**: the last to leave a closed entry closes its inode. -/
theorem keeps_endUse {op : UseOp} {n : Option ℤ} (h : Inv s) (hpc : s.pc p = .use t fd op) :
    Keeps (endUse p t fd op n) s := by
  have huse : (s.pc p).uses = some (t, fd) := by rw [hpc]; rfl
  have hrest : Rests (s.pc p) := hpc ▸ rests_use
  have hmember : s.filesp p = some t := h.tables.member p t (by rw [hpc]; rfl)
  have husers := h.users_pos huse
  have honly : ∀ e, (s.pc p).uses = some e → e = (t, fd) := fun e he =>
    Option.some.inj (he.symm.trans huse)
  have hst : (s.fs.fdArray t fd).status = .opened ∨ (s.fs.fdArray t fd).status = .closed := by
    by_contra hno
    have hidle : (s.fs.fdArray t fd).status = .none ∨ (s.fs.fdArray t fd).status = .init := by
      cases hs : (s.fs.fdArray t fd).status <;> simp_all
    rw [users, h.entries.unused t fd hidle] at husers
    split at husers <;> simp at husers
  obtain ⟨i, hnode⟩ := Option.ne_none_iff_exists'.mp (h.entries.node t fd hst)
  have hcount : 0 < (s.fs.fdArray t fd).openCount := by
    rw [users] at husers
    split at husers <;> omega
  have hin : inodeOf (s.fs.fdArray t fd) = some i :=
    inodeOf_eq_some.mpr ⟨hst.imp_right fun hc => ⟨hc, hcount⟩, hnode⟩
  have hlive := (h.live t fd).resolve_left (status_ne_none hin)
  simp only [Keeps, endUse, wp_bind, wp_onFiles, wpe_bind]
  refine wpe_settleUse fun pos => ?_
  refine wpe_releaseHead (setEntry_self ..) hst hcount (fun ho => ?_) hnode (h.open_pos hin)
    (fun hclosed hone => ?_) fun hmore => ?_
  · have ho : (s.fs.fdArray t fd).status = .opened := ho
    rw [users, if_pos ho] at husers
    dsimp only
    omega
  · simp only [setEntry_setEntry, afterHead, wp_bind, wp_countClose, wp_goto]
    refine h.shut hrest hin honly ?_ hclosed rfl hnode (fun _ => hmember) (fun hno => by cases hno) hlive
    have hclosed : (s.fs.fdArray t fd).status = .closed := hclosed
    have hone : (s.fs.fdArray t fd).openCount = 1 := hone
    rw [if_pos huse, users, hclosed, hone]
    simp
  · simp only [setEntry_setEntry, afterHead, proceed, wp_goto]
    have hmore : 1 < (s.fs.fdArray t fd).openCount := hmore
    refine h.touch hrest rests_idle hin (inodeOf_eq_some.mpr ⟨hst.imp_right fun hc => ⟨hc, ?_⟩, hnode⟩)
      honly (fun _ hno => by cases hno) ?_ (fun _ hno => by cases hno) rfl hlive
    · dsimp only
      omega
    · rw [users, users, if_pos huse]
      simp [Pc.uses]
      omega

/-! ## Duplicating -/

/-- **`fd_array_dup`** of an open entry, to one that is being opened. -/
theorem wpe_dupEntry {E : Assertion → Prop} {Q : Unit → FileSys → Prop} {R : ℤ → FileSys → Prop}
    {fs : FileSys} {f : File} (hto : (fs.fdArray t' fd').status = .init)
    (hfrom : fs.fdArray t fd = f) (hst : f.status = .opened) (hnode : f.node = some i)
    (hQ : Q () { fs with
      fdArray := setEntry fs.fdArray t' fd'
        { f with node := some i, openCount := (fs.fdArray t' fd').openCount + 1 }
      node := Function.update fs.node i { fs.node i with
        refCount := (fs.node i).refCount + 1, openCount := (fs.node i).openCount + 1 } }) :
    wpe (dupEntry t' fd' t fd) Q R E fs := by
  simp only [dupEntry, wpe_bind, wpe_file, wpe_demand, hto, hfrom, hst, hnode]
  refine ⟨fun _ => ?_, fun hno => absurd ⟨trivial, trivial⟩ hno⟩
  simp only [inodeRefInc, inodeOpenInc, fdArrayOpen, wpe_bind, wpe_setNode, wpe_get, wpe_pure,
    wpe_setFile, wpe_file, wpe_demand, setEntry_self, setEntry_setEntry, Function.update_self,
    Function.update_idem, hto]
  refine ⟨fun _ => ?_, fun hno => absurd (by simp) hno⟩
  rwa [← hst]

/-- **An entry not in use becomes one more that has the inode open.** -/
theorem duplicate (h : Inv s) {f : File} (hpc : s.pc p = .idle)
    (hold : (s.fs.fdArray t fd).status = .none) (hstatus : f.status = .opened)
    (hnode : f.node = some i) (hcount : f.openCount = 1)
    (hlive : s.alive t = true ∧ fd < FILES_STRUCT_NENTRY) (hfresh : ∀ q, (s.pc q).destroys ≠ some t) :
    Inv { s with
      fs := { s.fs with
        fdArray := setEntry s.fs.fdArray t fd f
        node := Function.update s.fs.node i { s.fs.node i with
          refCount := (s.fs.node i).refCount + 1, openCount := (s.fs.node i).openCount + 1 } }
      opens := setEntry s.opens t fd (s.opens t fd + 1) } := by
  have hzero := h.entries.unused t fd (.inl hold)
  have hnone : inodeOf (s.fs.fdArray t fd) = none := by simp [inodeOf, hold]
  have hf : inodeOf f = some i := inodeOf_eq_some.mpr ⟨.inl hstatus, hnode⟩
  have hsame := h.entries.once t fd
  rw [hnone] at hsame
  refine h.moved p t fd 0 .idle f (s.other 0) (s.opens t fd + 1) (s.closes t fd) {
    pc := by rw [← hpc]; simp
    old := fun e he => by rw [hpc] at he; exact he.elim (fun hu => nomatch hu) fun ho => nomatch ho
    new := fun e he => he.elim (fun hu => nomatch hu) fun ho => nomatch ho
    users := by simp [users, hpc, hold, hstatus, hcount, hzero]
    owners := by
      have hno : ¬ Pending (s.fs.fdArray t fd) := by simp [Pending, hold]
      rw [if_neg hno, if_neg (not_pending hf), hpc]
      simp
    keep := fun hno => by simp [Pending, hold] at hno
    starts := fun hno => nomatch hno
    ends := fun hno => nomatch hno
    unused := fun hno => by simp [hstatus] at hno
    node := fun _ => by rw [hnode]; simp
    once := by rw [hf]; simpa using hsame
    member := fun _ hno => nomatch hno
    destroys := fun _ hno => nomatch hno
    dead := .inr hlive
    fresh := .inr (.inr hfresh)
    openCount := fun j => ?_
    refCount := fun j => ?_ }
  · rw [hnone, hf, hpc]
    dsimp only
    rcases eq_or_ne j i with rfl | hji
    · simp
    · simp [hji, hji.symm]
  · rw [hnone, hf, hpc]
    dsimp only
    rcases eq_or_ne j i with rfl | hji
    · simp
    · simp [hji, hji.symm]

/-- `file_dup`. -/
theorem keeps_startDup {fd1 fd2 : ℤ} (h : Inv s) (hpc : s.pc p = .idle) (ht : s.filesp p = some t) :
    Keeps (startDup t fd1 fd2) s := by
  simp only [Keeps, startDup, fileDup, wp_bind, wp_onFiles, wpe_bind]
  refine h.wpe_fd2file ht (fun hlt hst i hnode => ?_) h
  refine h.wpe_fdArrayAlloc ht (fun fd hfd hfree => ?_) fun _ => h
  have hne : (t, fd1.toNat) ≠ (t, fd) := fun heq => by
    rw [(Prod.mk.inj heq).2, hfree] at hst
    cases hst
  rw [fdArrayDup_eq]
  refine wpe_dupEntry (by simp) (setEntry_of_ne hne) hst hnode ?_
  simp only [wpe_pure, wp_countOpen, setEntry_self, setEntry_setEntry]
  exact h.duplicate hpc hfree hst rfl (by simp [h.entries.unused t fd (.inl hfree)])
    ⟨h.tables.alive p t ht, hfd⟩ (h.not_destroys ht)

end Inv

end UCore.Fs.Share
