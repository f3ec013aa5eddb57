import UCore.Sfs.Fresh
import UCore.Fs.ShareStep

/-!
# Fs/ShareTable — the tables, and whole runs

What is left of a step changes the processes of a table: it is made, shared, copied, left by its last
process and given back.  Every section keeps the invariant, so it holds in every state of a run.

    copy_files ──▸ files_count = 1 ──▸ … ──▸ put_files, at files_count = 1 ──▸ files_destroy
-/

namespace UCore.Fs.Share

open Sfs Act

variable {s s' : Shared} {p q t t' fd fd' i j k flags : ℕ}

theorem hands_update {c : Pc} (hc : c.hands = (s.pc p).hands) (q : ℕ) :
    (Function.update s.pc p c q).hands = (s.pc q).hands := by
  rcases eq_or_ne q p with rfl | hq
  · rw [Function.update_self, hc]
  · rw [Function.update_of_ne hq]

namespace Inv

/-! ## The end of a table -/

/-- A process that destroys a table has the table for itself. -/
theorem spent (h : Inv s) (hd : (s.pc p).destroys = some t) (hown : (s.pc p).owns = none) (fd : ℕ) :
    (s.fs.fdArray t fd).status = .none ∨
      (s.fs.fdArray t fd).status = .opened ∧ (s.fs.fdArray t fd).openCount = 1 := by
  have hno : ∀ q, (s.pc q).member ≠ some t := fun q hq =>
    h.not_destroys (h.tables.member q t hq) p hd
  have husers : users (s.fs.fdArray t fd) = 0 := by
    refine le_antisymm (not_lt.mp fun hpos => ?_) (h.entries.users t fd).nonneg
    obtain ⟨q, hq⟩ := (h.entries.users t fd).pos_iff.mp hpos
    refine hno q ?_
    cases hc : s.pc q <;> rw [hc] at hq <;> simp_all [Pc.uses, Pc.member]
  have hpend : ¬ Pending (s.fs.fdArray t fd) := fun hp => by
    have hone := h.entries.owners t fd
    rw [if_pos hp] at hone
    obtain ⟨q, hq⟩ := hone.pos_iff.mp one_pos
    -- an owner is a member of the table, or the one that destroys it
    by_cases hqd : (s.pc q).destroys = some t
    · rw [h.tables.single q p t hqd hd, hown] at hq
      cases hq
    · refine hno q ?_
      cases hc : s.pc q <;> rw [hc] at hq hqd <;>
        simp_all [Pc.owns, Pc.starts, Pc.ends, Pc.member, Pc.destroys]
  cases hst : (s.fs.fdArray t fd).status with
  | none => exact .inl rfl
  | init => exact absurd (.inl hst) hpend
  | opened =>
    rw [users, if_pos hst] at husers
    exact .inr ⟨rfl, by omega⟩
  | closed =>
    rw [users, hst] at husers
    exact absurd (.inr ⟨hst, by simpa using husers⟩) hpend

/-- A turn of the loop of `files_destroy`, or its end. -/
theorem keeps_stepDestroy (h : Inv s) (hpc : s.pc p = .destroy t fd) :
    Keeps (stepDestroy p t fd) s := by
  have hrest : Rests (s.pc p) := hpc ▸ rests_destroy
  have huse : (s.pc p).uses = none := by rw [hpc]; rfl
  have hd : (s.pc p).destroys = some t := by rw [hpc]; rfl
  rw [Keeps, stepDestroy]
  split
  · rw [turn, wp_bind, wp_get, wp_ite]
    refine ⟨fun hst => ?_, fun hst => ?_⟩
    · simp only [wp_bind, wp_onFiles]
      refine h.wpe_closeHead .destroy hrest huse hst (fun hno => absurd rfl hno) fun _ => ⟨hpc, ?_⟩
      exact ((h.spent hd hrest.owns fd).resolve_left (by rw [hst]; simp)).2
    · have hnone := (h.spent hd hrest.owns fd).resolve_right fun ho => hst ho.1
      simp only [proceed, wp_bind, wp_get, wp_require, wp_goto]
      refine ⟨fun _ => ?_, fun hno => absurd hnone hno⟩
      refine h.goes t fd hrest rests_destroy huse rfl (fun _ hno => by cases hno) fun t' ht' => ?_
      obtain rfl : t = t' := Option.some.inj ht'
      refine ⟨hd, fun fd' hfd' => ?_⟩
      rw [hpc]
      rcases Nat.lt_succ_iff_lt_or_eq.mp hfd' with hlt | rfl
      · exact .inl hlt
      · exact .inr ⟨rfl, hnone⟩
  · next hge =>
    obtain ⟨-, hzero, hswept⟩ := h.tables.destroys p t hd
    rw [hpc] at hswept
    simp only [wp_bind, wp_modify, wp_goto]
    refine h.regroup 0 0 (s.pwd 0) (s.other 0) ?_ (fun q => hands_update (by rw [hpc]; rfl) q) rfl rfl
      rfl (by simp) (by simp) (fun _ => rfl) fun _ => by simp
    have hsame : ∀ q t', (Function.update s.pc p .idle q).destroys = some t' →
        (s.pc q).destroys = some t' ∧ t' ≠ t ∧ Function.update s.pc p .idle q = s.pc q := by
      intro q t' hq
      rcases eq_or_ne q p with rfl | hne
      · rw [Function.update_self] at hq
        cases hq
      · rw [Function.update_of_ne hne] at hq
        refine ⟨hq, fun heq => hne (h.tables.single q p t (heq ▸ hq) hd), ?_⟩
        rw [Function.update_of_ne hne]
    refine ⟨h.tables.count, fun q t' hq => ?_, fun q t' hq => ?_, fun q t' hq => ?_,
      fun q q' t' hq hq' => ?_, fun t' fd' hdead => ?_, fun t' hdead => ?_⟩
    · have hne : t' ≠ t := fun heq => h.not_destroys (heq ▸ hq) p hd
      dsimp only
      rw [Function.update_of_ne hne]
      exact h.tables.alive q t' hq
    · dsimp only at hq
      rcases eq_or_ne q p with rfl | hne
      · rw [Function.update_self] at hq
        cases hq
      · rw [Function.update_of_ne hne] at hq
        exact h.tables.member q t' hq
    · obtain ⟨hq', hne, hpc'⟩ := hsame q t' hq
      dsimp only
      rw [Function.update_of_ne hne, hpc']
      exact h.tables.destroys q t' hq'
    · exact h.tables.single q q' t' (hsame q t' hq).1 (hsame q' t' hq').1
    · dsimp only at hdead
      rcases eq_or_ne t' t with rfl | hne
      · by_cases hlt : fd' < fd
        · exact hswept fd' hlt
        · exact h.tables.dead t' fd' (.inr (by omega))
      · rw [Function.update_of_ne hne] at hdead
        exact h.tables.dead t' fd' hdead
    · dsimp only at hdead
      rcases eq_or_ne t' t with rfl | hne
      · exact h.tables.pwd t' (.inr ⟨p, hd⟩)
      · rw [Function.update_of_ne hne] at hdead
        exact h.tables.pwd t' (hdead.imp_right fun hdead => hdead.imp fun q hq => (hsame q t' hq).1)

/-! ## Joining and leaving a table -/

/-- **A process joins a table** that is in memory and stays there. -/
theorem keeps_joinFiles (h : Inv s) (hq : s.filesp q = none) (halive : s.alive t = true)
    (hstay : ∀ p, (s.pc p).destroys ≠ some t) : Keeps (joinFiles q t) s := by
  simp only [Keeps, joinFiles, setFilesCount, wp_bind, wp_get, wp_modify]
  refine h.regroup 0 0 (s.pwd 0) (s.other 0) ?_ (fun _ => rfl) rfl rfl rfl (by simp) (by simp)
    (fun _ => rfl) fun _ => by simp
  refine ⟨fun t' => ?_, fun p t' hp => ?_, fun p t' hp => ?_, fun p t' hp => ?_, h.tables.single,
    h.tables.dead, h.tables.pwd⟩
  · have hmove := (h.tables.count t').move q (some t)
    rw [hq] at hmove
    dsimp only
    rcases eq_or_ne t' t with rfl | hne
    · simpa using hmove
    · simpa [hne, hne.symm] using hmove
  · dsimp only at hp
    rcases eq_or_ne p q with rfl | hne
    · rw [Function.update_self] at hp
      exact Option.some.inj hp ▸ halive
    · rw [Function.update_of_ne hne] at hp
      exact h.tables.alive p t' hp
  · dsimp only
    have hfilesp := h.tables.member p t' hp
    rcases eq_or_ne p q with rfl | hne
    · cases hq.symm.trans hfilesp
    · rwa [Function.update_of_ne hne]
  · have hne : t' ≠ t := fun heq => hstay p (heq ▸ hp)
    dsimp only
    rw [Function.update_of_ne hne]
    exact h.tables.destroys p t' hp

/-- The counts, when a process leaves its table. -/
theorem tally_leave (h : Inv s) (hq : s.filesp q = some t) (t' : ℕ) :
    Tally (fun o : Option ℕ => o = some t') (Function.update s.filesp q none)
      (Function.update s.fs.filesCount t (s.fs.filesCount t - 1) t') := by
  have hpos := h.tables.count_pos hq
  have hmove := (h.tables.count t').move q none
  rw [hq] at hmove
  rcases eq_or_ne t' t with rfl | hne
  · rw [Function.update_self, Nat.cast_sub hpos]
    simpa using hmove
  · rw [Function.update_of_ne hne]
    simpa [hne.symm] using hmove

/-- The processes that are left are members as before. -/
theorem stays (h : Inv s) (hidle : s.pc q = .idle) (t' : ℕ) (hp : (s.pc p).member = some t') :
    Function.update s.filesp q none p = some t' := by
  rcases eq_or_ne p q with rfl | hne
  · rw [hidle] at hp
    exact nomatch hp
  · rw [Function.update_of_ne hne]
    exact h.tables.member p t' hp

theorem stays_alive (h : Inv s) (t' : ℕ) (hp : Function.update s.filesp q none p = some t') :
    s.alive t' = true := by
  rcases eq_or_ne p q with rfl | hne
  · rw [Function.update_self] at hp
    exact nomatch hp
  · rw [Function.update_of_ne hne] at hp
    exact h.tables.alive p t' hp

/-- **The last process of a table** goes on to destroy it, when its `pwd` has been given back. -/
theorem leave_last (h : Inv s) (hp : s.pc p = .idle) (hidle : s.pc q = .idle)
    (hq : s.filesp q = some t) (hlast : s.fs.filesCount t - 1 = 0) {node : ℕ → Node}
    (hopen : ∀ i, (node i).openCount = (s.fs.node i).openCount)
    (href : ∀ i, ((node i).refCount : ℤ) =
      (s.fs.node i).refCount - if s.pwd t = some i then 1 else 0) :
    Inv { s with
      fs := { s.fs with
        filesCount := Function.update s.fs.filesCount t (s.fs.filesCount t - 1)
        node := node }
      pwd := Function.update s.pwd t none
      filesp := Function.update s.filesp q none
      pc := Function.update s.pc p (.destroy t 0) } := by
  have hstay := h.not_destroys hq
  have hsame : ∀ r t', (Function.update s.pc p (.destroy t 0) r).destroys = some t' →
      r = p ∧ t' = t ∨ Function.update s.pc p (.destroy t 0) r = s.pc r ∧
        (s.pc r).destroys = some t' ∧ t' ≠ t := by
    intro r t' hr
    rcases eq_or_ne r p with rfl | hne
    · rw [Function.update_self] at hr
      exact .inl ⟨rfl, (Option.some.inj hr).symm⟩
    · rw [Function.update_of_ne hne] at hr ⊢
      exact .inr ⟨rfl, hr, fun heq => hstay r (heq ▸ hr)⟩
  refine h.regroup t 0 none (s.other 0) ?_ (fun r => hands_update (by rw [hp]; rfl) r) rfl rfl rfl rfl
    (by simp) hopen fun i => by simp [href]
  refine ⟨h.tally_leave hq, fun r t' => h.stays_alive t', fun r t' hr => ?_, fun r t' hr => ?_,
    fun r r' t' hr hr' => ?_, h.tables.dead, fun t' hdead => ?_⟩
  · dsimp only at hr
    rcases eq_or_ne r p with rfl | hne
    · rw [Function.update_self] at hr
      exact nomatch hr
    · rw [Function.update_of_ne hne] at hr
      exact h.stays hidle t' hr
  · dsimp only
    rcases hsame r t' hr with ⟨rfl, rfl⟩ | ⟨hpc, hr', hne⟩
    · rw [Function.update_self, Function.update_self]
      exact ⟨h.tables.alive q t' hq, hlast, fun fd hfd => absurd hfd (Nat.not_lt_zero fd)⟩
    · rw [Function.update_of_ne hne, hpc]
      exact h.tables.destroys r t' hr'
  · rcases hsame r t' hr with ⟨rfl, rfl⟩ | ⟨-, hd, hne⟩ <;>
      rcases hsame r' _ hr' with ⟨rfl, heq⟩ | ⟨-, hd', hne'⟩
    · rfl
    · exact absurd rfl hne'
    · exact absurd heq hne
    · exact h.tables.single r r' t' hd hd'
  · dsimp only at hdead ⊢
    rcases eq_or_ne t' t with rfl | hne
    · rw [Function.update_self]
    · rw [Function.update_of_ne hne]
      refine h.tables.pwd t' (hdead.imp_right fun ⟨r, hr⟩ => ⟨r, ?_⟩)
      rcases hsame r t' hr with ⟨-, heq⟩ | ⟨-, hd, -⟩
      · exact absurd heq hne
      · exact hd

/-- **`put_files`.** -/
theorem keeps_putFiles (h : Inv s) (hp : s.pc p = .idle) (hidle : s.pc q = .idle)
    (hq : s.filesp q = some t) : Keeps (putFiles p q t) s := by
  have hstay := h.not_destroys hq
  simp only [Keeps, putFiles, setFilesCount, wp_bind, wp_get, wp_modify, Function.update_self]
  rw [wp_ite]
  refine ⟨fun hlast => ?_, fun _ => ?_⟩
  · simp only [wp_bind, wp_get, wp_require, Function.update_self]
    refine ⟨fun _ => ?_, fun hno => absurd hlast hno⟩
    split
    · next i hi =>
      have hpos : 0 < (s.fs.node i).refCount := by
        have := (h.holds i).pos_iff.mpr ⟨.pwd t, hi⟩
        exact_mod_cast this
      simp only [dropRef, wp_doFiles, wpe_bind, wpe_get, wpe_demand, wpe_setNode, wp_bind, wp_modify,
        wp_goto]
      refine ⟨fun _ => h.leave_last hp hidle hq hlast (fun j => ?_) fun j => ?_,
        fun hno => absurd hpos hno⟩
      · rcases eq_or_ne j i with rfl | hji
        · simp
        · simp [hji]
      · have hi : s.pwd t = some i := hi
        rcases eq_or_ne j i with rfl | hji
        · simp [hi]
          omega
        · simp [hi, hji, hji.symm]
    · next hnone =>
      have hnone : s.pwd t = none := hnone
      exact h.leave_last hp hidle hq hlast (fun _ => rfl) fun j => by rw [hnone]; simp
  · refine h.regroup 0 0 (s.pwd 0) (s.other 0) ?_ (fun _ => rfl) rfl rfl rfl (by simp) (by simp)
      (fun _ => rfl) fun _ => by simp
    refine ⟨h.tally_leave hq, fun r t' => h.stays_alive t', fun r t' hr => h.stays hidle t' hr,
      fun r t' hr => ?_, h.tables.single, h.tables.dead, h.tables.pwd⟩
    have hne : t' ≠ t := fun heq => hstay r (heq ▸ hr)
    dsimp only
    rw [Function.update_of_ne hne]
    exact h.tables.destroys r t' hr

/-! ## A new table -/

/-- **`files_create`**: the entries of a table that is not in memory are clear already. -/
theorem wp_filesCreate {Q : Unit → Shared → Prop} {E : Failure → Prop} (h : Inv s)
    (hdead : s.alive t = false) (hQ : Q () { s with alive := Function.update s.alive t true }) :
    wp (filesCreate t) Q E s := by
  have hpwd : Function.update s.pwd t none = s.pwd := by
    rw [← h.tables.pwd t (.inl hdead), Function.update_eq_self]
  have hcount : Function.update s.fs.filesCount t 0 = s.fs.filesCount := by
    have hzero : s.fs.filesCount t = 0 := by
      by_contra hne
      obtain ⟨p, hp⟩ := (h.tables.count t).pos_iff.mp (by exact_mod_cast Nat.pos_of_ne_zero hne)
      exact nomatch hdead.symm.trans (h.tables.alive p t hp)
    rw [← hzero, Function.update_eq_self]
  have hfd : (Function.update s.fs.fdArray t fun fd =>
      { s.fs.fdArray t fd with openCount := 0, status := .none }) = s.fs.fdArray := by
    have hrow : (fun fd => { s.fs.fdArray t fd with openCount := 0, status := .none }) =
        s.fs.fdArray t := by
      funext fd
      have hst := h.tables.dead t fd (.inl hdead)
      have hzero := h.entries.unused t fd (.inl hst)
      rw [← hst, ← hzero]
    rw [hrow, Function.update_eq_self]
  rw [filesCreate, wp_modify, hpwd, hcount, hfd]
  exact hQ

/-- A table that has just been made is in memory, and is not being destroyed. -/
theorem create (h : Inv s) (hdead : s.alive t = false) :
    Inv { s with alive := Function.update s.alive t true } := by
  refine h.regroup 0 0 (s.pwd 0) (s.other 0) ?_ (fun _ => rfl) rfl rfl rfl (by simp) (by simp)
    (fun _ => rfl) fun _ => by simp
  refine ⟨h.tables.count, fun p t' hp => ?_, h.tables.member, fun p t' hp => ?_, h.tables.single,
    fun t' fd hd => ?_, fun t' hd => ?_⟩
  · dsimp only
    rcases eq_or_ne t' t with rfl | hne
    · rw [Function.update_self]
    · rw [Function.update_of_ne hne]
      exact h.tables.alive p t' hp
  · dsimp only
    rcases eq_or_ne t' t with rfl | hne
    · rw [Function.update_self]
      exact ⟨rfl, (h.tables.destroys p t' hp).2⟩
    · rw [Function.update_of_ne hne]
      exact h.tables.destroys p t' hp
  · dsimp only at hd
    rcases eq_or_ne t' t with rfl | hne
    · exact h.tables.dead t' fd (.inl hdead)
    · rw [Function.update_of_ne hne] at hd
      exact h.tables.dead t' fd hd
  · dsimp only at hd
    rcases eq_or_ne t' t with rfl | hne
    · exact h.tables.pwd t' (.inl hdead)
    · rw [Function.update_of_ne hne] at hd
      exact h.tables.pwd t' hd

/-- No process destroys a table that is not in memory. -/
theorem not_destroys_dead (h : Inv s) (hdead : s.alive t = false) (q : ℕ) :
    (s.pc q).destroys ≠ some t :=
  fun hq => nomatch hdead.symm.trans (h.tables.destroys q t hq).1

/-- **The loop of `dup_files`**: each open entry gets its like in the new table. -/
theorem wp_dupEntries (h : Inv s) (hq : s.pc q = .idle) (halive : s.alive t' = true)
    (hstay : ∀ p, (s.pc p).destroys ≠ some t') (hne : t' ≠ t) (n fd : ℕ)
    (hn : fd + n = FILES_STRUCT_NENTRY)
    (hfree : ∀ k, fd ≤ k → (s.fs.fdArray t' k).status = .none) :
    wp (dupEntries t' t n fd) (fun _ s' => Inv s' ∧ s'.pc = s.pc ∧ s'.filesp = s.filesp ∧
      s'.alive = s.alive) (fun _ => False) s := by
  induction n generalizing s fd with
  | zero => exact ⟨h, rfl, rfl, rfl⟩
  | succ n ih =>
    have hlt : fd < FILES_STRUCT_NENTRY := hn ▸ Nat.lt_add_of_pos_right (Nat.succ_pos n)
    have hn' : fd + 1 + n = FILES_STRUCT_NENTRY := by rw [← hn]; ring
    have hnone := hfree fd le_rfl
    simp only [dupEntries, wp_bind, wp_get]
    rw [wp_ite]
    refine ⟨fun hst => ?_, fun _ => ih h hq halive hstay (fd + 1) hn' fun k hk => hfree k (by omega)⟩
    obtain ⟨i, hnode⟩ := h.node_of_opened hst
    have hother : (t, fd) ≠ (t', fd) := fun heq => hne (Prod.mk.inj heq).1.symm
    simp only [wp_bind, wp_doFiles, wpe_bind, wpe_setFile]
    refine wpe_dupEntry (by simp) (setEntry_of_ne hother) hst hnode ?_
    simp only [wp_countOpen, setEntry_self, setEntry_setEntry]
    have hnext := h.duplicate (i := i) (f := { s.fs.fdArray t fd with
      node := some i, openCount := (s.fs.fdArray t' fd).openCount + 1 }) hq hnone hst rfl
      (by rw [h.entries.unused t' fd (.inl hnone)]) ⟨halive, hlt⟩ hstay
    refine ih hnext hq halive hstay (fd + 1) hn' fun k hk => ?_
    have hother : (t', k) ≠ (t', fd) := fun heq => by
      have := (Prod.mk.inj heq).2
      omega
    dsimp only
    rw [setEntry_of_ne hother]
    exact hfree k (by omega)

/-- **`dup_files`**, to a table that has just been made. -/
theorem wp_dupFiles (h : Inv s) (hq : s.pc q = .idle) (ht : s.filesp p = some t)
    (halive : s.alive t' = true) (hstay : ∀ p, (s.pc p).destroys ≠ some t') (hne : t' ≠ t)
    (hcount : s.fs.filesCount t' = 0) (hpwd : s.pwd t' = none)
    (hfree : ∀ k, (s.fs.fdArray t' k).status = .none) :
    wp (dupFiles t' t) (fun _ s' => Inv s' ∧ s'.pc = s.pc ∧ s'.filesp = s.filesp ∧
      s'.alive = s.alive) (fun _ => False) s := by
  have htables : ∀ o, ∀ t'', (s.alive t'' = false ∨ ∃ p, (s.pc p).destroys = some t'') →
      Function.update s.pwd t' o t'' = none := fun o t'' hd => by
    have hne : t'' ≠ t' := fun heq => by
      rw [heq] at hd
      rcases hd with hd | ⟨r, hr⟩
      · exact nomatch hd.symm.trans halive
      · exact hstay r hr
    rw [Function.update_of_ne hne]
    exact h.tables.pwd t'' hd
  simp only [dupFiles, wp_bind, wp_get, wp_require, wp_modify]
  refine ⟨fun _ => ?_, fun hno => absurd ⟨hcount, h.tables.count_pos ht⟩ hno⟩
  split
  · next i hi =>
    simp only [inodeRefInc, wp_bind, wp_doFiles, wpe_bind, wpe_setNode, wpe_get, wpe_pure]
    have hnext : Inv { s with
        pwd := Function.update s.pwd t' (s.pwd t)
        fs := { s.fs with node := Function.update s.fs.node i { s.fs.node i with
          refCount := (s.fs.node i).refCount + 1 } } } := by
      refine h.regroup t' 0 (s.pwd t) (s.other 0) (h.tables.congr rfl rfl rfl rfl rfl (htables _))
        (fun _ => rfl) rfl rfl rfl rfl (by simp) (fun j => ?_) fun j => ?_
      · rcases eq_or_ne j i with rfl | hji
        · simp
        · simp [hji]
      · rw [hpwd, hi]
        rcases eq_or_ne j i with rfl | hji
        · simp
        · simp [hji, hji.symm]
    exact hnext.wp_dupEntries hq halive hstay hne _ 0 (Nat.zero_add _) fun k _ => hfree k
  · next hnone =>
    have hnext : Inv { s with pwd := Function.update s.pwd t' (s.pwd t) } :=
      h.regroup t' 0 (s.pwd t) (s.other 0) (h.tables.congr rfl rfl rfl rfl rfl (htables _))
        (fun _ => rfl) rfl rfl rfl rfl (by simp) (fun _ => rfl) fun j => by rw [hpwd, hnone]; simp
    exact hnext.wp_dupEntries hq halive hstay hne _ 0 (Nat.zero_add _) fun k _ => hfree k

/-- **`copy_files`** without `CLONE_FS`. -/
theorem keeps_copyFiles (h : Inv s) (ht : s.filesp p = some t) (hq : s.pc q = .idle)
    (hnone : s.filesp q = none) (hdead : s.alive t' = false) : Keeps (copyFiles q t t') s := by
  have hne : t' ≠ t := fun heq => by
    have := h.tables.alive p t ht
    rw [← heq, hdead] at this
    exact nomatch this
  have hstay := h.not_destroys_dead hdead
  have hcount : s.fs.filesCount t' = 0 := by
    by_contra hno
    obtain ⟨r, hr⟩ := (h.tables.count t').pos_iff.mp (by exact_mod_cast Nat.pos_of_ne_zero hno)
    exact nomatch hdead.symm.trans (h.tables.alive r t' hr)
  rw [Keeps, copyFiles, wp_bind]
  refine h.wp_filesCreate hdead ?_
  rw [wp_bind]
  refine wp_mono ((h.create hdead).wp_dupFiles hq ht (Function.update_self ..) hstay hne hcount
    (h.tables.pwd t' (.inl hdead)) fun k => h.tables.dead t' k (.inl hdead)) ?_ fun _ => id
  rintro - s' ⟨h', hpc, hfilesp, halive⟩
  refine h'.keeps_joinFiles (by rw [hfilesp]; exact hnone) (by rw [halive]; simp) fun r hr => ?_
  rw [hpc] at hr
  exact hstay r hr

/-- The table of the first process. -/
theorem keeps_firstFiles (h : Inv s) (hnone : s.filesp q = none) (hdead : s.alive t = false) :
    Keeps (firstFiles q t) s := by
  rw [Keeps, firstFiles, wp_bind]
  exact h.wp_filesCreate hdead ((h.create hdead).keeps_joinFiles hnone (Function.update_self ..)
    (h.not_destroys_dead hdead))

/-! ## The rest of the kernel -/

theorem keeps_takeRef (h : Inv s) (hk : s.other k = none) : Keeps (takeRef i k) s := by
  simp only [Keeps, takeRef, inodeRefInc, wp_bind, wp_doFiles, wpe_bind, wpe_setNode, wpe_get, wpe_pure,
    wp_modify]
  refine h.regroup 0 k (s.pwd 0) (some i) (h.tables.congr rfl rfl rfl rfl rfl h.tables.pwd)
    (fun _ => rfl) rfl rfl rfl (by simp) rfl (fun j => ?_) fun j => ?_
  · rcases eq_or_ne j i with rfl | hji
    · simp
    · simp [hji]
  · rcases eq_or_ne j i with rfl | hji
    · simp [hk]
    · simp [hk, hji, hji.symm]

/-- An inode that nobody has a reference to is not open. -/
theorem open_zero (h : Inv s) (hi : (s.fs.node i).refCount = 0) : (s.fs.node i).openCount = 0 := by
  by_contra hne
  obtain ⟨x, hx⟩ := (h.opens i).pos_iff.mp (by exact_mod_cast Nat.pos_of_ne_zero hne)
  have hold : holdsOf s x = some i := by
    cases x with
    | entry t fd => exact hx
    | process p =>
      change (s.pc p).holds = some i
      change (s.pc p).opens = some i at hx
      cases hc : s.pc p <;> rw [hc] at hx <;> simp_all [Pc.opens, Pc.holds]
    | pwd t => cases hx
    | other k => cases hx
  have hpos := (h.holds i).pos_iff.mpr ⟨x, hold⟩
  rw [hi] at hpos
  exact lt_irrefl _ hpos

theorem keeps_loadInode (h : Inv s) (hk : s.other k = none) (hi : (s.fs.node i).refCount = 0) :
    Keeps (loadInode i k) s := by
  have hopen := h.open_zero hi
  simp only [Keeps, loadInode, wp_bind, wp_doFiles, wpe_setNode, wp_modify]
  refine h.regroup 0 k (s.pwd 0) (some i) (h.tables.congr rfl rfl rfl rfl rfl h.tables.pwd)
    (fun _ => rfl) rfl rfl rfl (by simp) rfl (fun j => ?_) fun j => ?_
  · rcases eq_or_ne j i with rfl | hji
    · simp [hopen]
    · simp [hji]
  · rcases eq_or_ne j i with rfl | hji
    · simp [hk, hi]
    · simp [hk, hji, hji.symm]

theorem keeps_putRef (h : Inv s) (hk : s.other k = some i) : Keeps (putRef i k) s := by
  have hpos : 0 < (s.fs.node i).refCount := by
    have := (h.holds i).pos_iff.mpr ⟨.other k, hk⟩
    exact_mod_cast this
  simp only [Keeps, putRef, dropRef, wp_bind, wp_doFiles, wpe_bind, wpe_get, wpe_demand, wpe_setNode,
    wp_modify]
  refine ⟨fun _ => ?_, fun hno => absurd hpos hno⟩
  refine h.regroup 0 k (s.pwd 0) none (h.tables.congr rfl rfl rfl rfl rfl h.tables.pwd)
    (fun _ => rfl) rfl rfl rfl (by simp) rfl (fun j => ?_) fun j => ?_
  · rcases eq_or_ne j i with rfl | hji
    · simp
    · simp [hji]
  · rcases eq_or_ne j i with rfl | hji
    · simp [hk]
      omega
    · simp [hk, hji, hji.symm]

theorem keeps_setCurdir (h : Inv s) (ht : s.filesp p = some t) : Keeps (setCurdir t k) s := by
  have hstay := h.not_destroys ht
  have halive := h.tables.alive p t ht
  simp only [Keeps, setCurdir, wp_modify]
  refine h.regroup t k (s.other k) (s.pwd t) (h.tables.congr rfl rfl rfl rfl rfl fun t' hd => ?_)
    (fun _ => rfl) rfl rfl rfl rfl rfl (fun _ => rfl) fun j => by ring
  have hne : t' ≠ t := fun heq => by
    rw [heq] at hd
    rcases hd with hd | ⟨q, hq⟩
    · cases hd.symm.trans halive
    · exact hstay q hq
  dsimp only
  rw [Function.update_of_ne hne]
  exact h.tables.pwd t' hd

theorem keeps_operate (h : Inv s) (vol : Volume) (granted : ℕ → Bool) (asked : ℕ) (cached : ℕ → Bool)
    (reclaimCount : ℕ → ℕ) : Keeps (operate vol granted asked cached reclaimCount) s :=
  h.regroup 0 0 (s.pwd 0) (s.other 0) (h.tables.congr rfl rfl rfl rfl rfl h.tables.pwd)
    (fun _ => rfl) rfl rfl rfl (by simp) (by simp) (fun _ => rfl) fun _ => by simp

/-- **Before the first process.** -/
theorem init (h : Init s) : Inv s := by
  have hfile : ∀ t fd, inodeOf (s.fs.fdArray t fd) = none := fun t fd => by
    simp [inodeOf, (h.entry t fd).1]
  refine ⟨⟨fun t fd => ?_, fun t fd => ?_, fun p t fd hp => ?_, fun p t fd hp => ?_,
    fun t fd _ => (h.entry t fd).2, fun t fd hst => ?_, fun t fd => ?_⟩,
    ⟨fun t => ?_, fun p t hp => ?_, fun p t hp => ?_, fun p t hp => ?_, fun p q t hp => ?_,
      fun t fd _ => (h.entry t fd).1, fun t _ => h.pwd t⟩, fun i => ?_, fun i => ?_⟩
  · have hzero : users (s.fs.fdArray t fd) = 0 := by simp [users, (h.entry t fd).1, (h.entry t fd).2]
    rw [hzero]
    exact Tally.zero fun p => by rw [h.pc p]; exact fun hno => by cases hno
  · have hno : ¬ Pending (s.fs.fdArray t fd) := by simp [Pending, (h.entry t fd).1]
    rw [if_neg hno]
    exact Tally.zero fun p => by rw [h.pc p]; exact fun hno => by cases hno
  · rw [h.pc p] at hp
    cases hp
  · rw [h.pc p] at hp
    cases hp
  · rw [(h.entry t fd).1] at hst
    simp at hst
  · rw [hfile, (h.counts t fd).1, (h.counts t fd).2]
    rfl
  · rw [h.filesCount t]
    exact Tally.zero fun p => by rw [h.filesp p]; exact fun hno => by cases hno
  · rw [h.filesp p] at hp
    cases hp
  · rw [h.pc p] at hp
    cases hp
  · rw [h.pc p] at hp
    cases hp
  · rw [h.pc p] at hp
    cases hp
  · rw [(h.node i).2]
    refine Tally.zero fun x => ?_
    cases x with
    | entry t fd => simp [opensOf, hfile]
    | process p => simp [opensOf, h.pc, Pc.opens]
    | pwd t => simp [opensOf]
    | other k => simp [opensOf]
  · rw [(h.node i).1]
    refine Tally.zero fun x => ?_
    cases x with
    | entry t fd => simp [holdsOf, hfile]
    | process p => simp [holdsOf, h.pc, Pc.holds]
    | pwd t => simp [holdsOf, h.pwd]
    | other k => simp [holdsOf, h.other]

/-! ## Runs -/

/-- **Every section keeps the invariant**, and fails no assertion. -/
theorem keeps {m : Section Unit} (h : Inv s) (hm : Next s m) : Keeps m s := by
  cases hm with
  | startOpen flags hpc ht => exact h.keeps_startOpen hpc ht
  | failOpen hpc =>
    exact h.keeps_failOpen (by rw [hpc]; rfl) (by rw [hpc]; rfl) (by rw [hpc]; rfl) (by rw [hpc]; rfl)
  | incOpen hpc hk => exact h.keeps_incOpen hpc hk
  | undoOpen hpc => exact h.keeps_undoOpen hpc
  | recordOpen hpc => exact h.keeps_recordOpen hpc
  | undoRef hpc => exact h.keeps_undoRef hpc
  | undoFree hpc =>
    exact h.keeps_failOpen (by rw [hpc]; rfl) (by rw [hpc]; rfl) (by rw [hpc]; rfl) (by rw [hpc]; rfl)
  | startClose fd hpc ht => exact h.keeps_startClose hpc ht
  | closeRef hpc => exact h.keeps_closeRef hpc
  | closeDone hpc => exact h.keeps_closeDone hpc
  | startUse fd op hpc ht => exact h.keeps_startUse hpc ht
  | endUse n hpc => exact h.keeps_endUse hpc
  | startDup fd1 fd2 hpc ht => exact h.keeps_startDup hpc ht
  | startCloseall hpc ht => exact h.keeps_startCloseall hpc ht
  | stepCloseall hpc => exact h.keeps_stepCloseall hpc
  | stepDestroy hpc => exact h.keeps_stepDestroy hpc
  | shareFiles hpc ht hq hnone =>
    exact h.keeps_joinFiles hnone (h.tables.alive _ _ ht) (h.not_destroys ht)
  | copyFiles hpc ht hq hnone hdead => exact h.keeps_copyFiles ht hq hnone hdead
  | firstFiles hq hnone hdead => exact h.keeps_firstFiles hnone hdead
  | putFiles hp hidle hq => exact h.keeps_putFiles hp hidle hq
  | takeRef hk => exact h.keeps_takeRef hk
  | loadInode hk hi => exact h.keeps_loadInode hk hi
  | putRef hk => exact h.keeps_putRef hk
  | setCurdir k hpc ht => exact h.keeps_setCurdir ht
  | operate vol granted asked cached reclaimCount =>
    exact h.keeps_operate vol granted asked cached reclaimCount

end Inv

/-- **The invariant, in every state of a run.** -/
theorem Run.inv (h : Run s) : Inv s := by
  induction h with
  | init h => exact .init h
  | step _ hn hm ih => exact wp_of_ok (ih.keeps hn) hm

/-- An entry is open or closed, and its `vfs_close` has not begun. -/
def Standing (s : Shared) (e : ℕ × ℕ) : Prop :=
  ((s.fs.fdArray e.1 e.2).status = .opened ∨ (s.fs.fdArray e.1 e.2).status = .closed) ∧
    ∀ p, (s.pc p).ends ≠ some e

/-- **The counts are right**: those of the entries, those of the inodes, and those of the calls. -/
structure Accounted (s : Shared) : Prop where
  unused : ∀ t fd, (s.fs.fdArray t fd).status = .none ∨ (s.fs.fdArray t fd).status = .init →
    (s.fs.fdArray t fd).openCount = 0
  opened : ∀ t fd, (s.fs.fdArray t fd).status = .opened → ∃ n : ℕ,
    Tally (fun c : Pc => c.uses = some (t, fd)) s.pc n ∧ (s.fs.fdArray t fd).openCount = 1 + n
  closed : ∀ t fd, (s.fs.fdArray t fd).status = .closed →
    Tally (fun c : Pc => c.uses = some (t, fd)) s.pc (s.fs.fdArray t fd).openCount
  inode : ∀ i, ∃ a b : ℤ,
    Tally (fun e => Standing s e ∧ (s.fs.fdArray e.1 e.2).node = some i) id a ∧
      Tally (fun c : Pc => c.opens = some i) s.pc b ∧ (s.fs.node i).openCount = a + b
  once : ∀ t fd, (Standing s (t, fd) → s.opens t fd = s.closes t fd + 1) ∧
    (¬ Standing s (t, fd) → s.opens t fd = s.closes t fd)

namespace Inv

/-- What an entry has open is what it is open or closed on, until its `vfs_close`. -/
theorem inodeOf_iff (h : Inv s) : inodeOf (s.fs.fdArray t fd) = some i ↔
    Standing s (t, fd) ∧ (s.fs.fdArray t fd).node = some i := by
  rw [inodeOf_eq_some]
  refine and_congr_left fun _ => ⟨fun hst => ⟨hst.imp_right And.left, fun p hp => ?_⟩,
    fun ⟨hst, hno⟩ => ?_⟩
  · have hclosed := h.entries.ends p t fd hp
    rcases h.entries.pending (Pc.owns_of_ends hp) with hi | ⟨-, hzero⟩
    · exact nomatch hi.symm.trans hclosed
    · rcases hst with ho | ⟨-, hpos⟩
      · exact nomatch ho.symm.trans hclosed
      · exact hpos.ne' hzero
  · refine hst.imp_right fun hclosed => ⟨hclosed, Nat.pos_of_ne_zero fun hzero => ?_⟩
    have hone := h.entries.owners t fd
    have hpend : Pending (s.fs.fdArray t fd) := .inr ⟨hclosed, hzero⟩
    rw [if_pos hpend] at hone
    obtain ⟨p, hp⟩ := hone.pos_iff.mp one_pos
    rw [Pc.owns] at hp
    cases hs : (s.pc p).starts with
    | none =>
      rw [hs] at hp
      exact hno p hp
    | some e =>
      rw [hs] at hp
      exact nomatch (h.entries.starts p t fd (hs.trans hp)).symm.trans hclosed

theorem isSome_inodeOf (h : Inv s) :
    (inodeOf (s.fs.fdArray t fd)).isSome = true ↔ Standing s (t, fd) := by
  rw [Option.isSome_iff_exists]
  refine ⟨fun ⟨i, hi⟩ => (h.inodeOf_iff.mp hi).1, fun hst => ?_⟩
  obtain ⟨i, hi⟩ := Option.ne_none_iff_exists'.mp (h.entries.node t fd hst.1)
  exact ⟨i, h.inodeOf_iff.mpr ⟨hst, hi⟩⟩

/-- **The invariant says that the counts are right.** -/
theorem accounted (h : Inv s) : Accounted s := by
  refine ⟨h.entries.unused, fun t fd hst => ?_, fun t fd hst => ?_, fun i => ?_, fun t fd => ?_⟩
  · have husers := h.entries.users t fd
    have hpos := h.opened_pos hst
    rw [users, if_pos hst] at husers
    refine ⟨(s.fs.fdArray t fd).openCount - 1, ?_, by omega⟩
    rwa [Nat.cast_sub hpos]
  · have husers := h.entries.users t fd
    rw [users, hst] at husers
    simpa using husers
  · obtain ⟨a, b, ha, hb, hab⟩ := (h.opens i).split (g := fun e : ℕ × ℕ => Holder.entry e.1 e.2)
      (u := Holder.process) (fun e e' he => Prod.ext (Holder.entry.inj he).1 (Holder.entry.inj he).2)
      (fun p q hpq => Holder.process.inj hpq) (fun _ _ hno => by cases hno) fun x hx => by
        cases x with
        | entry t fd => exact .inl ⟨(t, fd), rfl⟩
        | process p => exact .inr ⟨p, rfl⟩
        | pwd t => cases hx
        | other k => cases hx
    exact ⟨a, b, ha.congr fun e => h.inodeOf_iff.symm, hb, hab⟩
  · have honce := h.entries.once t fd
    refine ⟨fun hst => ?_, fun hst => ?_⟩
    · rwa [if_pos (h.isSome_inodeOf.mpr hst)] at honce
    · rwa [if_neg fun hsome => hst (h.isSome_inodeOf.mp hsome)] at honce

end Inv

/-- **Descriptors, over any interleaving**: in every state of a run the counts of the entries and of the
inodes are right, an entry has had a `vfs_close` for each time it was opened but the one it is open
for, and no section that can run next fails an assertion. -/
theorem files_run (h : Run s) :
    Accounted s ∧ ∀ m, Next s m → ∃ s', m s = .ok ((), s') :=
  ⟨h.inv.accounted, fun _ hm => by
    obtain ⟨⟨⟩, s', hs', -⟩ := wp_false_iff.mp (h.inv.keeps hm)
    exact ⟨s', hs'⟩⟩

/-- Before the first process, over an empty volume. -/
def booted : Shared where
  fs := {
    vol := freshVolume 16
    node := fun _ => ⟨false, 0, 0, 0⟩
    granted := fun _ => true
    asked := 0
    filesCount := fun _ => 0
    fdArray := fun _ _ => ⟨.none, false, false, 0, none, 0⟩ }
  pwd := fun _ => none
  alive := fun _ => false
  filesp := fun _ => none
  pc := fun _ => .idle
  other := fun _ => none
  opens := fun _ _ => 0
  closes := fun _ _ => 0

theorem booted_init : Init booted :=
  ⟨fun _ _ => ⟨rfl, rfl⟩, fun _ => rfl, fun _ => rfl, fun _ => rfl, fun _ => rfl, fun _ => rfl,
    fun _ => rfl, fun _ => ⟨rfl, rfl⟩, fun _ _ => ⟨rfl, rfl⟩⟩

/-- Two processes share a table; one closes the descriptor that the other reads from. -/
theorem files_run_shared : ∃ s, Run s ∧ (s.fs.fdArray 0 0).status = .closed ∧
    (s.fs.fdArray 0 0).openCount = 1 ∧ (s.fs.node 7).openCount = 1 ∧ Accounted s := by
  have h₀ : Run booted := .init booted_init
  have h₁ := h₀.step (.firstFiles (q := 0) (t := 0) rfl rfl rfl) rfl
  have h₂ := h₁.step (.shareFiles (p := 0) (q := 1) (t := 0) rfl rfl rfl rfl) rfl
  have h₃ := h₂.step (.loadInode (i := 7) (k := 0) rfl rfl) rfl
  have h₄ := h₃.step (.startOpen (p := 0) (t := 0) 0 rfl rfl) rfl
  have h₅ := h₄.step (.incOpen (p := 0) (t := 0) (i := 7) (k := 0) rfl rfl) rfl
  have h₆ := h₅.step (.recordOpen (p := 0) (t := 0) rfl) rfl
  have h₇ := h₆.step (.startUse (p := 0) (t := 0) 0 .read rfl rfl) rfl
  have h₈ := h₇.step (.startClose (p := 1) (t := 0) 0 rfl rfl) rfl
  exact ⟨_, h₈, rfl, rfl, rfl, (files_run h₈).1⟩

end UCore.Fs.Share
