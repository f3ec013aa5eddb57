import UCore.Process.TableStep

/-!
# Process/TableRun — runs of the process table

    proc_init ──▸ s₀ ──op──▸ s₁ ──op──▸ s₂ ──op──▸ …

The processes take turns as `schedule` has it, and each of them does what it likes in its turn; timers and
semaphores wake whom they like in between.  The table is in order all along.
-/

namespace UCore.ProcSys

variable {s s' u : ProcSys} {p q fuel i : ℕ} {pid : ℤ} {kids : ℕ → List ℕ} {op : Op} {o : Outcome}

/-! ## The beginning -/

/-- Fuel for every loop of a section. -/
abbrev plenty : ℕ := (Pid.MAX_PID + 1) * Pid.MAX_PID

/-- The table with `idleproc` only. -/
def idleOnly : ProcSys where
  sched := ⟨fun _ => ⟨.runnable, 0, false⟩, idleproc, []⟩
  pid _ := 0
  exitCode _ := 0
  parent _ := none
  cptr _ := none
  yptr _ := none
  optr _ := none
  procList := []
  hashList _ := []
  nrProcess := 1
  lastPid := Pid.MAX_PID
  nextSafe := Pid.MAX_PID
  pc _ := .running

/-- What `proc_init` leaves: `idleproc` has made `initproc`. -/
def procInit : ProcSys := idleOnly.forked initproc 1 Pid.MAX_PID

theorem tidy_idleOnly : Tidy idleOnly fun _ => [] := by
  have hidle : ∀ p, idleOnly.Live p → p = idleproc := fun p hp => hp.resolve_right List.not_mem_nil
  refine ⟨⟨List.nodup_nil, List.not_mem_nil, rfl, by decide, ?_, ?_, ⟨?_, le_rfl⟩, ?_, fun _ => List.nodup_nil⟩,
    ⟨fun _ _ => Siblings.nil, ?_, ?_⟩, fun p hp => hidle p hp ▸ .refl, ⟨List.nodup_nil, ?_⟩, fun _ _ => ⟨rfl, rfl⟩,
    .inl rfl, fun p hp => ?_, .inl rfl, rfl⟩
  · exact fun p hp => absurd hp List.not_mem_nil
  · exact fun p hp => absurd hp List.not_mem_nil
  · exact fun p hp => absurd hp List.not_mem_nil
  · exact fun x p => ⟨fun hp => absurd hp List.not_mem_nil, fun hp => absurd hp.1 List.not_mem_nil⟩
  · exact fun p q => ⟨fun hq => absurd hq List.not_mem_nil, fun hq => absurd hq.1 List.not_mem_nil⟩
  · exact fun q hq => absurd hq List.not_mem_nil
  · exact fun p => ⟨fun hp => absurd hp List.not_mem_nil, fun hp => absurd hp.1 List.not_mem_nil⟩
  · exact ⟨False.elim, fun hne => absurd (hidle p hp) hne⟩

theorem spare_initproc : Spare idleOnly initproc := ⟨List.not_mem_nil, by decide⟩

theorem fresh_one : Fresh idleOnly 1 Pid.MAX_PID :=
  ⟨by decide, le_rfl, by decide, fun _ hp => absurd hp List.not_mem_nil, fun _ hp => absurd hp List.not_mem_nil, le_rfl⟩

/-- **`proc_init`** makes `initproc`, with the identifier `1`. -/
theorem doFork_idleOnly (hfuel : plenty ≤ fuel) :
    doFork fuel initproc idleOnly = .ok (1, procInit) := by
  obtain ⟨r, s, hrun, hs⟩ := Act.wp_false_iff.mp (tidy_idleOnly.wp_doFork spare_initproc rfl hfuel)
  rcases hs with ⟨hfull, -⟩ | ⟨pid, next, -, rfl, rfl⟩
  · exact absurd hfull (by decide)
  · -- the numbers that `get_pid` comes to
    obtain ⟨n, rfl⟩ : ∃ n, fuel = n + 1 := ⟨fuel - 1, (Nat.sub_add_cancel (le_trans (by decide) hfuel)).symm⟩
    have hnumbers : (doFork (n + 1) initproc idleOnly).toOption.map (fun r => (r.2.lastPid, r.2.nextSafe)) =
        some (1, Pid.MAX_PID) := rfl
    rw [hrun] at hnumbers
    obtain ⟨rfl, rfl⟩ := Prod.mk.inj (Option.some.inj hnumbers)
    exact hrun

theorem orderly_procInit : ∃ kids, Orderly procInit kids := by
  refine ⟨_, tidy_idleOnly.forked spare_initproc fresh_one rfl, List.mem_cons_self, ?_, ?_, ?_⟩
  · exact Function.update_self initproc (1 : ℤ) idleOnly.pid
  · exact Function.update_self initproc (some idleproc) idleOnly.parent
  · change (Function.update idleOnly.sched.proc initproc ⟨.runnable, 0, false⟩ initproc).state ≠ .zombie
    rw [Function.update_self]
    decide

/-! ## Runs -/

/-- A section that has been carried out, by the process with this identifier. -/
structure Turn where
  caller : ℤ
  op : Op
  outcome : Outcome
  deriving DecidableEq, Repr

/-- **A run**, and the sections that it is made of. -/
inductive Run (fuel : ℕ) (s : ProcSys) : List Turn → ProcSys → Prop
  | start : Run fuel s [] s
  | more {l : List Turn} {t u : ProcSys} {op : Op} {o : Outcome} (hrun : Run fuel s l t) (hop : op.Allowed t)
      (hdo : perform fuel op t = .ok (o, u)) : Run fuel s (l ++ [⟨t.pid t.sched.current, op, o⟩]) u

theorem Run.trans {t : ProcSys} {l l' : List Turn} (h : Run fuel s l t) (h' : Run fuel t l' u) : Run fuel s (l ++ l') u := by
  induction h' with
  | start => rwa [List.append_nil]
  | more _ hop hdo ih => exact List.append_assoc l _ _ ▸ ih.more hop hdo

instance (s : ProcSys) : (op : Op) → Decidable (op.Allowed s)
  | .fork child => decidable_of_iff (s.pc s.sched.current = .running ∧ child ∉ s.procList ∧ child ≠ idleproc)
      ⟨fun h => ⟨h.1, h.2.1, h.2.2⟩, fun h => ⟨h.1, h.2.1, h.2.2⟩⟩
  | .exit _ => inferInstanceAs (Decidable (s.pc s.sched.current = .running))
  | .wait _ => inferInstanceAs (Decidable (s.pc s.sched.current = .running ∧ s.sched.current ≠ idleproc))
  | .kill _ => inferInstanceAs (Decidable (s.pc s.sched.current = .running))
  | .yield => inferInstanceAs (Decidable (s.pc s.sched.current = .running))
  | .sleep waitState =>
    inferInstanceAs (Decidable (s.pc s.sched.current = .running ∧ s.sched.current ≠ idleproc ∧ waitState ≠ WT_CHILD))
  | .wake p => inferInstanceAs (Decidable (p ∈ s.procList ∧ (s.pc p = .leaving .sleep ∨ s.pc p = .away .sleep)))
  | .switch =>
    match hpc : s.pc s.sched.current with
    | .leaving e => isTrue ⟨e, hpc⟩
    | .running => isFalse fun ⟨_, hno⟩ => nomatch hpc.symm.trans hno
    | .away _ => isFalse fun ⟨_, hno⟩ => nomatch hpc.symm.trans hno
    | .back _ => isFalse fun ⟨_, hno⟩ => nomatch hpc.symm.trans hno
  | .resume =>
    match hpc : s.pc s.sched.current with
    | .back pid => isTrue ⟨pid, hpc⟩
    | .running => isFalse fun ⟨_, hno⟩ => nomatch hpc.symm.trans hno
    | .leaving _ => isFalse fun ⟨_, hno⟩ => nomatch hpc.symm.trans hno
    | .away _ => isFalse fun ⟨_, hno⟩ => nomatch hpc.symm.trans hno

/-- A run that is computed from its sections. -/
def replay (fuel : ℕ) : List Turn → ProcSys → Option ProcSys
  | [], s => some s
  | turn :: l, s =>
    if turn.op.Allowed s ∧ s.pid s.sched.current = turn.caller then
      match perform fuel turn.op s with
      | .ok (o, u) => if o = turn.outcome then replay fuel l u else none
      | .error _ => none
    else none

theorem Run.of_replay {l : List Turn} (h : replay fuel l s = some u) : Run fuel s l u := by
  induction l generalizing s with
  | nil => exact Option.some.inj h ▸ .start
  | cons turn l ih =>
    rw [replay] at h
    split at h
    · rename_i hop
      cases hdo : perform fuel turn.op s with
      | error e =>
        rw [hdo] at h
        exact nomatch h
      | ok r =>
        obtain ⟨o, t⟩ := r
        rw [hdo] at h
        change (if o = turn.outcome then replay fuel l t else none) = some u at h
        split at h
        · rename_i ho
          obtain ⟨caller, op, outcome⟩ := turn
          obtain ⟨hop, rfl⟩ := hop
          subst ho
          exact (Run.start.more hop hdo).trans (ih h)
        · exact nomatch h
    · exact nomatch h

/-- …and what is tested of its last state. -/
theorem Run.exists_of_test (fuel : ℕ) (l : List Turn) (p : ProcSys → Bool)
    (h : (replay fuel l procInit).any p = true) : ∃ u, Run fuel procInit l u ∧ p u = true := by
  cases hr : replay fuel l procInit with
  | none =>
    rw [hr] at h
    exact nomatch h
  | some u =>
    rw [hr] at h
    exact ⟨u, .of_replay hr, h⟩

/-- `initproc` makes a process and waits for it… -/
def awaiting : List Turn :=
  [⟨0, .yield, .done⟩, ⟨0, .switch, .done⟩, ⟨1, .fork 2, .result 2⟩, ⟨1, .wait 0, .waited .asleep⟩,
    ⟨1, .switch, .done⟩]

/-- …and is told of its end. -/
def reaping : List Turn :=
  awaiting ++ [⟨2, .exit 7, .done⟩, ⟨2, .switch, .done⟩, ⟨1, .resume, .waited (.reaped 2 7)⟩]

variable {l : List Turn} (hfuel : plenty ≤ fuel)

include hfuel

/-- What a section of a run has done. -/
theorem Orderly.did_of_ok (h : Orderly s kids) (hop : op.Allowed s) (hdo : perform fuel op s = .ok (o, u)) :
    op.Did s kids u o ∧ ∃ kids', Orderly u kids' := by
  have hdid := Act.wp_of_ok (h.wp_perform hop hfuel) hdo
  exact ⟨hdid.1, h.did hop hdid.1 hdid.2⟩

/-- **The table is in order** in every state of a run. -/
theorem Run.orderly_of (h : ∃ kids, Orderly s kids) (hrun : Run fuel s l u) : ∃ kids, Orderly u kids := by
  induction hrun with
  | start => exact h
  | more _ hop hdo ih =>
    obtain ⟨kids, h⟩ := ih
    exact (h.did_of_ok hfuel hop hdo).2

theorem Run.orderly (hrun : Run fuel procInit l s) : ∃ kids, Orderly s kids := hrun.orderly_of hfuel orderly_procInit

/-! ## The family, over whole runs -/

omit hfuel in
/-- **The processes and how they hang together.** -/
structure Genealogy (s : ProcSys) : Prop where
  children : ∃ kids : ℕ → List ℕ, ∀ p, s.Live p → Siblings s.optr s.yptr (s.cptr p) (kids p) ∧
    (∀ q, q ∈ kids p ↔ q ∈ s.procList ∧ s.parent q = some p) ∧ ((s.sched.proc p).state = .zombie → kids p = [])
  rooted : ∀ p ∈ s.procList, Relation.TransGen (fun q q' => s.parent q = some q') p idleproc
  nodup : s.procList.Nodup
  count : s.nrProcess = s.procList.length + 1 ∧ s.nrProcess ≤ Pid.MAX_PROCESS
  find : ∀ pid p, s.findProc pid = some p ↔ p ∈ s.procList ∧ s.pid p = pid
  init : initproc ∈ s.procList ∧ s.pid initproc = 1 ∧ s.parent initproc = some idleproc

/-- **In every state that a run reaches**, the links `cptr`, `optr` and `yptr` of each process lead through its
children, forth and back, and its children are the processes in the list whose parent it is; every process
descends from `idleproc`; a zombie has no children; `nr_process` counts the list, and `find_proc` finds whoever
is in it. -/
theorem genealogy_of_run (hrun : Run fuel procInit l s) : Genealogy s := by
  obtain ⟨kids, h⟩ := hrun.orderly hfuel
  refine ⟨⟨kids, fun p hp => ⟨h.family.siblings p hp, h.family.mem p, (h.standing p hp).kidless⟩⟩, fun p hp => ?_,
    h.listed.nodup, ⟨h.listed.count, h.listed.le⟩, fun pid p => h.listed.findProc_eq_some,
    h.init, h.initPid, h.initParent⟩
  refine (Relation.reflTransGen_iff_eq_or_transGen.mp (h.rooted p (.inr hp))).resolve_left fun heq => ?_
  exact h.listed.idle (heq ▸ hp)

omit hfuel in
theorem genealogy_of_reaping : ∃ u, Run plenty procInit reaping u ∧ Genealogy u := by
  obtain ⟨u, hrun, -⟩ := Run.exists_of_test plenty reaping (fun _ => true) (by decide +kernel)
  exact ⟨u, hrun, genealogy_of_run le_rfl hrun⟩

/-! ## Who runs, and who may -/

/-- **The run queue is exact** in every state that a run reaches: a process is in it, once, just when it is
runnable and does not run; so nobody who can run is left out of it, and nobody in it sleeps, is a zombie, or is
gone. -/
theorem runList_of_run (hrun : Run fuel procInit l s) : s.sched.runList.Nodup ∧
    (∀ p, p ∈ s.sched.runList ↔ p ∈ s.procList ∧ (s.sched.proc p).state = .runnable ∧ p ≠ s.sched.current) ∧
    (s.sched.current = idleproc ∨ s.sched.current ∈ s.procList) := by
  obtain ⟨kids, h⟩ := hrun.orderly hfuel
  exact ⟨h.queue.nodup, h.queue.mem, h.current⟩

omit hfuel in
theorem runList_of_reaping : ∃ u, Run plenty procInit reaping u ∧ u.sched.runList.Nodup ∧
    (∀ p, p ∈ u.sched.runList ↔ p ∈ u.procList ∧ (u.sched.proc p).state = .runnable ∧ p ≠ u.sched.current) ∧
    (u.sched.current = idleproc ∨ u.sched.current ∈ u.procList) := by
  obtain ⟨u, hrun, -⟩ := Run.exists_of_test plenty reaping (fun _ => true) (by decide +kernel)
  exact ⟨u, hrun, runList_of_run le_rfl hrun⟩

/-- **No wake-up is lost**: in every state that a run reaches, a process that sleeps for a child is in `do_wait`
for some `pid`, and has a child that it waits for there; and none of these is a zombie. -/
theorem no_lost_wakeup (hrun : Run fuel procInit l s) (hp : s.Live p)
    (hw : (s.sched.proc p).waitState = WT_CHILD) :
    (s.sched.proc p).state = .sleeping ∧
      ∃ pid, (s.pc p = .leaving (.wait pid) ∨ s.pc p = .away (.wait pid)) ∧
        (∃ q ∈ s.procList, s.parent q = some p ∧ s.Matches pid q) ∧
        ∀ q ∈ s.procList, s.parent q = some p → s.Matches pid q → (s.sched.proc q).state ≠ .zombie := by
  obtain ⟨kids, h⟩ := hrun.orderly hfuel
  obtain ⟨hs, pid, hpc, ⟨q, hq, hm⟩, hall⟩ := (h.standing p hp).waits hw
  refine ⟨hs, pid, hpc, ⟨q, ((h.family.mem p q).mp hq).1, ((h.family.mem p q).mp hq).2, hm⟩, fun q hq hpar => ?_⟩
  exact hall q ((h.family.mem p q).mpr ⟨hq, hpar⟩)

omit hfuel in
/-- `initproc` sleeps for the process that it has made. -/
theorem no_lost_wakeup_awaiting : ∃ u, Run plenty procInit awaiting u ∧ (u.sched.proc initproc).state = .sleeping ∧
    ∃ pid, (u.pc initproc = .leaving (.wait pid) ∨ u.pc initproc = .away (.wait pid)) ∧
      (∃ q ∈ u.procList, u.parent q = some initproc ∧ u.Matches pid q) ∧
      ∀ q ∈ u.procList, u.parent q = some initproc → u.Matches pid q → (u.sched.proc q).state ≠ .zombie := by
  obtain ⟨u, hrun, htest⟩ := Run.exists_of_test plenty awaiting
    (fun u => decide (initproc ∈ u.procList ∧ (u.sched.proc initproc).waitState = WT_CHILD)) (by decide +kernel)
  obtain ⟨hlive, hw⟩ := of_decide_eq_true htest
  exact ⟨u, hrun, no_lost_wakeup le_rfl hrun (.inr hlive) hw⟩

/-! ## Round robin -/

omit hfuel

theorem runList_le_woken {t : Sched} : t.runList <+: (t.woken p).runList := by
  rw [Sched.woken]
  split
  · exact List.prefix_refl _
  · change t.runList <+: if _ then _ else _
    split
    · exact List.prefix_refl _
    · exact List.prefix_append ..

theorem runList_le_nudged {t : Sched} : t.runList <+: (nudged t p).runList := by
  rw [nudged]
  split
  · exact runList_le_woken
  · exact List.prefix_refl _

theorem runList_le_bereft {t : Sched} {par : ℕ} {children : List ℕ} : t.runList <+: (bereft t par children).runList := by
  have htold : t.runList <+: (nudged (t.modifyProc t.current fun g => { g with state := .zombie }) par).runList :=
    runList_le_nudged (t := t.modifyProc t.current fun g => { g with state := .zombie })
  rw [bereft, alerted_eq]
  split
  · exact htold.trans runList_le_nudged
  · exact htold

theorem Exited.runList_le {par : ℕ} {code : ℤ} (hx : Exited s kids par code u) : s.sched.runList <+: u.sched.runList := by
  obtain ⟨_, _, _, rfl⟩ := hx.state
  exact runList_le_bereft

theorem Waited.Right.runList {w : Waited} (hw : w.Right s kids pid u) : u.sched.runList = s.sched.runList := by
  cases w with
  | badProc => exact hw.2 ▸ rfl
  | asleep => exact hw.2 ▸ rfl
  | reaped pid' code =>
    obtain ⟨p, -, -, -, -, rfl⟩ := hw
    rfl

/-- What is not `schedule` takes nobody out of the queue. -/
theorem Op.Did.runList_le (hdid : op.Did s kids u o) (hne : op ≠ .switch) : s.sched.runList <+: u.sched.runList := by
  match op, o with
  | .fork child, .result r =>
    rcases hdid with ⟨-, -, rfl⟩ | ⟨pid, next, -, -, rfl⟩
    · exact List.prefix_refl _
    · exact List.prefix_append ..
  | .exit code, .done =>
    obtain ⟨par, -, hx⟩ := hdid
    exact hx.runList_le
  | .wait pid, .waited w => exact hdid.runList ▸ List.prefix_refl _
  | .kill pid, .result r =>
    rcases hdid with ⟨-, -, rfl⟩ | ⟨p, hp, -, ⟨-, -, rfl⟩ | ⟨-, -, rfl⟩⟩
    · exact List.prefix_refl _
    · exact List.prefix_refl _
    · change s.sched.runList <+: (flagged s.sched p).runList
      rw [flagged]
      split
      · exact runList_le_woken (t := s.sched.modifyProc p fun g => { g with exiting := true })
      · exact List.prefix_refl _
  | .yield, .done => exact hdid ▸ List.prefix_refl _
  | .sleep waitState, .done => exact hdid ▸ List.prefix_refl _
  | .wake p, .done => exact hdid ▸ runList_le_woken
  | .switch, .done => exact absurd rfl hne
  | .resume, .done =>
    obtain ⟨-, par, -, hx⟩ := hdid
    exact hx.runList_le
  | .resume, .waited w =>
    obtain ⟨-, pid, -, hw⟩ := hdid
    exact hw.runList ▸ List.prefix_refl _

/-- The calls of `schedule` in a run. -/
def switches (l : List Turn) : ℕ := l.countP fun turn => turn.op = .switch

theorem switches_concat {turn : Turn} : switches (l ++ [turn]) = switches l + if turn.op = .switch then 1 else 0 := by
  rw [switches, List.countP_append, List.countP_singleton]
  simp only [decide_eq_true_eq]
  rfl

theorem getElem?_of_le {xs ys : List ℕ} (h : xs <+: ys) (hi : xs[i]? = some p) : ys[i]? = some p := by
  obtain ⟨zs, rfl⟩ := h
  obtain ⟨hlt, -⟩ := List.getElem?_eq_some_iff.mp hi
  rwa [List.getElem?_append_left hlt]

/-- `schedule` moves the queue up by one. -/
theorem switched_getElem? {e : Errand} (hi : s.sched.runList[i]? = some p) :
    i = 0 ∧ (s.switched e).sched.current = p ∨ 0 < i ∧ (s.switched e).sched.runList[i - 1]? = some p := by
  have hready : (readied s.sched)[i]? = some p := by
    have hle : s.sched.runList <+: readied s.sched := by
      rw [readied]
      split
      · exact List.prefix_append ..
      · exact List.prefix_refl _
    exact getElem?_of_le hle hi
  change i = 0 ∧ (readied s.sched).headD idleproc = p ∨ 0 < i ∧ (readied s.sched).tail[i - 1]? = some p
  cases hr : readied s.sched with
  | nil => cases (hr ▸ hready : ([] : List ℕ)[i]? = some p)
  | cons x rest =>
    rw [hr] at hready
    cases i with
    | zero => exact .inl ⟨rfl, Option.some.inj hready⟩
    | succ i => exact .inr ⟨Nat.succ_pos i, hready⟩

/-- **In turn**: a process in the queue moves up at each call of `schedule`, and at nothing else does it move. -/
theorem Run.in_turn (hfuel : plenty ≤ fuel) (h : ∃ kids, Orderly s kids)
    (hi : s.sched.runList[i]? = some p) (hrun : Run fuel s l u) :
    switches l ≤ i ∧ u.sched.runList[i - switches l]? = some p ∨
      ∃ l₁ l₂ t, l = l₁ ++ l₂ ∧ Run fuel s l₁ t ∧ Run fuel t l₂ u ∧ t.sched.current = p ∧ switches l₁ = i + 1 := by
  induction hrun with
  | start => exact .inl ⟨Nat.zero_le i, hi⟩
  | @more l t u op o hrun hop hdo ih =>
    rcases ih with ⟨hle, hat⟩ | ⟨l₁, l₂, t', rfl, hrun₁, hrun₂, hcur, hcount⟩
    · obtain ⟨kids, ht⟩ := hrun.orderly_of hfuel h
      obtain ⟨hdid, -⟩ := ht.did_of_ok hfuel hop hdo
      rw [switches_concat]
      by_cases hop' : op = .switch
      · subst hop'
        rw [if_pos rfl]
        match o, hdid with
        | .done, ⟨e, _, hu⟩ =>
          rcases switched_getElem? (e := e) hat with ⟨hzero, hcur⟩ | ⟨hpos, hat⟩
          · refine .inr ⟨l ++ [_], [], u, (List.append_nil _).symm, hrun.more hop hdo, .start, hu ▸ hcur, ?_⟩
            rw [switches_concat, if_pos rfl]
            omega
          · refine .inl ⟨by omega, ?_⟩
            rw [hu, ← Nat.sub_sub]
            exact hat
      · rw [if_neg hop']
        exact .inl ⟨hle, getElem?_of_le (hdid.runList_le hop') hat⟩
    · exact .inr ⟨l₁, l₂ ++ [_], t', List.append_assoc .., hrun₁, hrun₂.more hop hdo, hcur, hcount⟩

/-- **Round robin is fair**: in every run, a process that has `i` others before it in the run queue runs after
`i + 1` calls of `schedule`, whatever the processes do in the meantime. -/
theorem round_robin (hfuel : plenty ≤ fuel) (hrun : Run fuel procInit l s)
    (hi : s.sched.runList[i]? = some p) {l' : List Turn} (hmore : Run fuel s l' u) (hcount : i < switches l') :
    ∃ l₁ l₂ t, l' = l₁ ++ l₂ ∧ Run fuel s l₁ t ∧ Run fuel t l₂ u ∧ t.sched.current = p ∧ switches l₁ = i + 1 := by
  rcases hmore.in_turn hfuel (hrun.orderly hfuel) hi with ⟨hle, -⟩ | h
  · exact absurd hcount (not_lt.mpr hle)
  · exact h

/-- `initproc` is the first in the queue, and runs after the first call. -/
theorem round_robin_boot : ∃ u, Run plenty procInit [⟨0, .yield, .done⟩, ⟨0, .switch, .done⟩] u ∧
    ∃ l₁ l₂ t, [⟨0, .yield, .done⟩, ⟨0, .switch, .done⟩] = l₁ ++ l₂ ∧ Run plenty procInit l₁ t ∧
      Run plenty t l₂ u ∧ t.sched.current = initproc ∧ switches l₁ = 1 := by
  obtain ⟨u, hrun, -⟩ := Run.exists_of_test plenty [⟨0, .yield, .done⟩, ⟨0, .switch, .done⟩] (fun _ => true)
    (by decide +kernel)
  exact ⟨u, hrun, round_robin le_rfl .start (i := 0) rfl hrun (by decide)⟩

end UCore.ProcSys
