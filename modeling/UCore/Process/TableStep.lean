import UCore.Process.Exit
import UCore.Process.Fork
import UCore.Process.Wait

/-!
# Process/TableStep — one section after another

    fork  exit  wait  kill  yield  sleep        the current process, from code of its own
    resume                                      the current process, back in do_wait
    switch                                      the current process, in schedule
    wake                                        a process that sleeps for something other than a child

What each section does (`Op.Did`), that it does that and nothing else (`Orderly.wp_perform`), and that the table
is in order afterwards (`Orderly.did`).
-/

namespace UCore.ProcSys

open Vmm (E_INVAL)

/-- A section. -/
inductive Op where
  | fork (child : ℕ)
  | exit (code : ℤ)
  | wait (pid : ℤ)
  | kill (pid : ℤ)
  | yield
  | sleep (waitState : ℕ)
  | wake (p : ℕ)
  | switch
  | resume
  deriving DecidableEq, Repr

/-- What a section returns. -/
inductive Outcome where
  | done
  | result (r : ℤ)
  | waited (w : Waited)
  deriving DecidableEq, Repr

/-- Where a section begins: what its process has to be in the middle of. -/
def Op.Allowed (s : ProcSys) : Op → Prop
  | .fork child => s.pc s.sched.current = .running ∧ Spare s child
  | .exit _ => s.pc s.sched.current = .running
  | .wait _ => s.pc s.sched.current = .running ∧ s.sched.current ≠ idleproc
  | .kill _ => s.pc s.sched.current = .running
  | .yield => s.pc s.sched.current = .running
  | .sleep waitState => s.pc s.sched.current = .running ∧ s.sched.current ≠ idleproc ∧ waitState ≠ WT_CHILD
  | .wake p => p ∈ s.procList ∧ (s.pc p = .leaving .sleep ∨ s.pc p = .away .sleep)
  | .switch => ∃ e, s.pc s.sched.current = .leaving e
  | .resume => ∃ pid, s.pc s.sched.current = .back pid

/-- The section; what follows `schedule` in `do_wait` is `resume`. -/
def perform (fuel : ℕ) : Op → Call Outcome
  | .fork child => do return .result (← doFork fuel child)
  | .exit code => do
    doExit fuel code
    return .done
  | .wait pid => do return .waited (← waitPass fuel pid)
  | .kill pid => do return .result (← doKill pid)
  | .yield => do
    modify fun s => s.setPc s.sched.current (.leaving .own)
    return .done
  | .sleep waitState => do
    onSched (modify fun t => t.modifyProc t.current fun g => { g with state := .sleeping, waitState := waitState })
    modify fun s => s.setPc s.sched.current (.leaving .sleep)
    return .done
  | .wake p => do
    onSched (Sched.wakeupProc p)
    return .done
  | .switch => do
    switch
    return .done
  | .resume => do
    let current := (← get).sched.current
    match (← get).pc current with
    | .back pid => do
      if ((← get).sched.proc current).exiting = true then
        doExit fuel (-E_KILLED)
        return .done
      else
        return .waited (← waitPass fuel pid)
    | _ => return .done

variable {s s' : ProcSys} {p q fuel waitState : ℕ} {pid code r : ℤ} {kids : ℕ → List ℕ} {e : Errand} {t : Sched} {op : Op}
  {o : Outcome}

/-! ## `do_kill` -/

/-- The scheduler after `do_kill` has set the flag. -/
def flagged (t : Sched) (p : ℕ) : Sched :=
  if (t.proc p).waitState &&& WT_INTERRUPTED ≠ 0 then (t.modifyProc p fun g => { g with exiting := true }).woken p
  else t.modifyProc p fun g => { g with exiting := true }

/-- **What `do_kill` may come to.** -/
def Killed (s : ProcSys) (pid r : ℤ) (s' : ProcSys) : Prop :=
  (∀ p ∈ s.procList, s.pid p ≠ pid) ∧ r = -E_INVAL ∧ s' = s ∨
  ∃ p ∈ s.procList, s.pid p = pid ∧
    ((s.sched.proc p).exiting = true ∧ r = -E_KILLED ∧ s' = s ∨
      (s.sched.proc p).exiting = false ∧ r = 0 ∧ s' = { s with sched := flagged s.sched p })

/-- The flag alone changes nothing else. -/
theorem Orderly.flag (h : Orderly s kids) (b : Bool) :
    Orderly { s with sched := s.sched.modifyProc p fun g => { g with exiting := b } } kids := by
  have hstate : ∀ q, ((s.sched.modifyProc p fun g => { g with exiting := b }).proc q).state = (s.sched.proc q).state :=
    fun q => by
      rw [Sched.modifyProc_proc]
      split
      · rename_i heq
        rw [heq]
      · rfl
  refine h.reschedule (s.sched.modifyProc p fun g => { g with exiting := b }) s.pc ⟨h.queue.nodup, fun q => ?_⟩
    (fun q hz => hstate q ▸ hz) (fun q hq => ?_) h.current h.place h.idle
  · change q ∈ s.sched.runList ↔ q ∈ s.procList ∧
      ((s.sched.modifyProc p fun g => { g with exiting := b }).proc q).state = .runnable ∧ q ≠ s.sched.current
    rw [hstate]
    exact h.queue.mem q
  · have hst := h.standing q hq
    rw [Sched.modifyProc_proc]
    split
    · rename_i heq
      exact heq ▸ hst.flag b
    · exact hst

/-- A process that can be interrupted is no zombie. -/
theorem Tidy.not_zombie_of_interrupted (h : Tidy s kids) (hp : p ∈ s.procList)
    (hw : (s.sched.proc p).waitState &&& WT_INTERRUPTED ≠ 0) : (s.sched.proc p).state ≠ .zombie := fun hz => by
  have hzero := (h.standing p (.inr hp)).waitState_eq_zero (by rw [hz]; decide)
  exact hw (by rw [hzero]; rfl)

theorem Orderly.flagged (h : Orderly s kids) (hp : p ∈ s.procList) :
    Orderly { s with sched := flagged s.sched p } kids := by
  rw [ProcSys.flagged]
  split
  · rename_i hw
    refine Orderly.woken (h.flag true) (.inr hp) ?_
    change ((s.sched.modifyProc p fun g => { g with exiting := true }).proc p).state ≠ .zombie
    rw [Sched.modifyProc_proc, if_pos rfl]
    exact h.not_zombie_of_interrupted hp hw
  · exact h.flag true

/-- **`do_kill`** sets the flag once, and wakes a process that can be interrupted. -/
theorem Orderly.wp_doKill (h : Orderly s kids) :
    Act.wp (doKill pid) (fun r s' => Killed s pid r s') (fun _ => False) s := by
  rw [doKill, Act.wp_bind, Act.wp_get]
  cases hf : s.findProc pid with
  | none => exact .inl ⟨h.listed.findProc_eq_none.mp hf, rfl, rfl⟩
  | some p =>
    obtain ⟨hp, hpid⟩ := h.listed.findProc_eq_some.mp hf
    have hflag := h.flag (p := p) true
    rw [wp_onSched, Sched.doKill, Act.wp_bind, Act.wp_get, Act.wp_ite]
    refine ⟨fun hclear => ?_, fun hset => ?_⟩
    · have hwait : ((s.sched.modifyProc p fun g => { g with exiting := true }).proc p).waitState =
          (s.sched.proc p).waitState := by
        rw [Sched.modifyProc_proc, if_pos rfl]
      rw [Act.wp_bind, Act.wp_modify, Act.wp_bind, Act.wp_get, hwait, Act.wp_ite]
      refine ⟨fun hw => ?_, fun hw => ?_⟩
      · have hz : ((s.sched.modifyProc p fun g => { g with exiting := true }).proc p).state ≠ .zombie := by
          rw [Sched.modifyProc_proc, if_pos rfl]
          exact h.not_zombie_of_interrupted hp hw
        rw [Act.wp_bind]
        refine Act.wp_mono (Sched.wp_wakeupProc_eq p _) (fun _ t ht => ?_) fun _ hno => hno (hflag.canWake hz)
        rw [Act.wp_pure]
        refine .inr ⟨p, hp, hpid, .inr ⟨hclear, rfl, ?_⟩⟩
        rw [ProcSys.flagged, if_pos hw, show t = _ from ht]
      · refine .inr ⟨p, hp, hpid, .inr ⟨hclear, rfl, ?_⟩⟩
        rw [ProcSys.flagged, if_neg hw]
    · exact .inr ⟨p, hp, hpid, .inl ⟨Bool.not_eq_false _ |>.mp hset, rfl, rfl⟩⟩

/-! ## `schedule` -/

/-- Where a process goes on that `schedule` has come back to. -/
def Pc.resumed : Pc → Pc
  | .away (.wait pid) => .back pid
  | _ => .running

/-- The places in which `schedule` picks the next process. -/
def leftAt (s : ProcSys) (e : Errand) : ℕ → Pc := Function.update s.pc s.sched.current (.away e)

/-- The table after `schedule`. -/
def switched (s : ProcSys) (e : Errand) : ProcSys :=
  { s with
    sched := { s.sched with current := (readied s.sched).headD idleproc, runList := (readied s.sched).tail }
    pc := Function.update (s.leftAt e) ((readied s.sched).headD idleproc)
      (s.leftAt e ((readied s.sched).headD idleproc)).resumed }

section Switch

variable (h : Tidy s kids)

include h

/-- **Whoever can run** is ready. -/
theorem Tidy.mem_readied : p ∈ readied s.sched ↔ p ∈ s.procList ∧ (s.sched.proc p).state = .runnable := by
  rw [readied]
  split
  · rename_i hcur
    rw [List.mem_append, List.mem_singleton, h.queue.mem]
    refine ⟨fun hp => ?_, fun hp => ?_⟩
    · rcases hp with hp | rfl
      · exact ⟨hp.1, hp.2.1⟩
      · exact ⟨h.current.resolve_left hcur.2, hcur.1⟩
    · rcases eq_or_ne p s.sched.current with heq | hne
      · exact .inr heq
      · exact .inl ⟨hp.1, hp.2, hne⟩
  · rename_i hcur
    rw [h.queue.mem]
    refine ⟨fun hp => ⟨hp.1, hp.2.1⟩, fun hp => ⟨hp.1, hp.2, ?_⟩⟩
    rintro rfl
    exact hcur ⟨hp.2, fun heq => h.listed.idle (heq ▸ hp.1)⟩

theorem Tidy.readied_nodup : (readied s.sched).Nodup := by
  rw [readied]
  split
  · exact List.Nodup.append h.queue.nodup (List.nodup_singleton _) (by simpa using h.current_notMem)
  · exact h.queue.nodup

/-- The next process can run… -/
theorem Tidy.next_awake : s.Live ((readied s.sched).headD idleproc) ∧
    (s.sched.proc ((readied s.sched).headD idleproc)).Awake := by
  cases hr : readied s.sched with
  | nil => exact ⟨.inl rfl, h.idle_awake⟩
  | cons p rest =>
    obtain ⟨hp, hrun⟩ := h.mem_readied.mp (hr ▸ List.mem_cons_self : p ∈ readied s.sched)
    exact ⟨.inr hp, (h.standing p (.inr hp)).awake hrun⟩

/-- …and is in `schedule`, for something that it can come back from. -/
theorem Tidy.next_away (he : s.pc s.sched.current = .leaving e) :
    ∃ e', s.leftAt e ((readied s.sched).headD idleproc) = .away e' ∧ e' ≠ .exit ∧
      ((readied s.sched).headD idleproc = idleproc → e' = .own) := by
  obtain ⟨hlive, hawake⟩ := h.next_awake
  generalize (readied s.sched).headD idleproc = next at hlive hawake
  have hst := h.standing next hlive
  rcases eq_or_ne next s.sched.current with rfl | hne
  · rw [he] at hst
    refine ⟨e, Function.update_self .., ?_, fun heq => ?_⟩
    · rintro rfl
      exact nomatch hawake.1.symm.trans hst.1
    · have hidle := h.idle
      rw [← heq, he] at hidle
      rcases hidle with hno | hown | hno
      · exact nomatch hno
      · exact Pc.leaving.inj hown
      · exact nomatch hno
  · have haway := (h.place next hlive).mpr hne
    cases hpc : s.pc next with
    | running => exact absurd haway (by rw [hpc]; exact id)
    | leaving e' => exact absurd haway (by rw [hpc]; exact id)
    | back pid => exact absurd haway (by rw [hpc]; exact id)
    | away e' =>
      rw [hpc] at hst
      refine ⟨e', (Function.update_of_ne hne ..).trans hpc, ?_, fun heq => ?_⟩
      · rintro rfl
        exact nomatch hawake.1.symm.trans hst.1
      · have hidle := h.idle
        rw [← heq, hpc] at hidle
        rcases hidle with hno | hno | hown
        · exact nomatch hno
        · exact nomatch hno
        · exact Pc.away.inj hown

/-- **`schedule`** goes to whoever has been ready for longest. -/
theorem Tidy.wp_switch (he : s.pc s.sched.current = .leaving e) :
    Act.wp switch (fun _ s' => s' = s.switched e) (fun _ => False) s := by
  obtain ⟨e', haway, hexit, -⟩ := h.next_away he
  rw [switch, Act.wp_bind, Act.wp_get, Act.wp_bind, Act.wp_get, he, Act.wp_bind, Act.wp_modify, Act.wp_bind,
    wp_onSched]
  rw [wp_schedule_head (t := (s.setPc s.sched.current (.away e)).sched) h.current_notMem]
  rw [Act.wp_bind, Act.wp_get, Act.wp_bind, Act.wp_get]
  have hpc : (s.setPc s.sched.current (.away e)).pc
      ((readied (s.setPc s.sched.current (.away e)).sched).headD idleproc) = .away e' := haway
  have hdone : ∀ c, c = (Pc.away e').resumed → s.switched e = { s with
      sched := { s.sched with current := (readied s.sched).headD idleproc, runList := (readied s.sched).tail }
      pc := Function.update (s.leftAt e) ((readied s.sched).headD idleproc) c } := by
    rintro _ rfl
    rw [switched, haway]
  rw [hpc]
  cases e' with
  | own => exact (hdone .running rfl).symm
  | sleep => exact (hdone .running rfl).symm
  | wait pid => exact (hdone (.back pid) rfl).symm
  | exit => exact absurd rfl hexit

theorem Queue.switched : Queue (s.switched e) := by
  have hnodup := h.readied_nodup
  have hmem := fun p => h.mem_readied (p := p)
  refine ⟨hnodup.sublist (List.tail_sublist _), fun p => ?_⟩
  change p ∈ (readied s.sched).tail ↔
    p ∈ s.procList ∧ (s.sched.proc p).state = .runnable ∧ p ≠ (readied s.sched).headD idleproc
  rw [← and_assoc, ← hmem]
  cases hr : readied s.sched with
  | nil => simp
  | cons x rest =>
    have hx : x ∉ rest := (List.nodup_cons.mp (hr ▸ hnodup)).1
    rw [List.tail_cons, List.headD_cons, List.mem_cons]
    exact ⟨fun hp => ⟨.inr hp, fun heq => hx (heq ▸ hp)⟩, fun hp => hp.1.resolve_left hp.2⟩

omit h in
theorem Pc.not_away_resumed {c : Pc} : ¬ c.resumed.Away := by
  rcases c with _ | _ | (_ | _ | _ | _) | _ <;> exact id

/-- **A switch keeps the table tidy…** -/
theorem Tidy.switched (he : s.pc s.sched.current = .leaving e) : Tidy (s.switched e) kids := by
  obtain ⟨hlive, hawake⟩ := h.next_awake
  obtain ⟨e', haway, -, hown⟩ := h.next_away he
  have hqueue := Queue.switched (e := e) h
  refine ⟨⟨h.listed.nodup, h.listed.idle, h.listed.count, h.listed.le, h.listed.pid, h.listed.inj, h.listed.gap,
    h.listed.hash, h.listed.hashNodup⟩, ⟨h.family.siblings, h.family.mem, h.family.parent⟩, h.rooted, hqueue,
    fun q hq => ?_, hlive, fun q hq => ?_, ?_, h.idlePid⟩
  · have hst := h.standing q hq
    change Standing (s.sched.proc q) _ _ (Function.update (s.leftAt e) ((readied s.sched).headD idleproc) _ q)
    rcases eq_or_ne q ((readied s.sched).headD idleproc) with heq | hne
    · rw [heq, Function.update_self, haway]
      rcases e' with _ | _ | _ | _ <;> exact hawake
    · rw [Function.update_of_ne hne, leftAt]
      rcases eq_or_ne q s.sched.current with rfl | hcur
      · rw [Function.update_self]
        rwa [he] at hst
      · rw [Function.update_of_ne hcur]
        exact hst
  · change (Function.update (s.leftAt e) ((readied s.sched).headD idleproc) _ q).Away ↔
      q ≠ (readied s.sched).headD idleproc
    rcases eq_or_ne q ((readied s.sched).headD idleproc) with heq | hne
    · rw [heq, Function.update_self]
      exact ⟨fun hno => absurd hno Pc.not_away_resumed, fun hno => absurd rfl hno⟩
    · rw [Function.update_of_ne hne, leftAt]
      refine ⟨fun _ => hne, fun _ => ?_⟩
      rcases eq_or_ne q s.sched.current with rfl | hcur
      · rw [Function.update_self]
        trivial
      · rw [Function.update_of_ne hcur]
        exact (h.place q hq).mpr hcur
  · change Function.update (s.leftAt e) ((readied s.sched).headD idleproc) _ idleproc = .running ∨
      Function.update (s.leftAt e) ((readied s.sched).headD idleproc) _ idleproc = .leaving .own ∨
      Function.update (s.leftAt e) ((readied s.sched).headD idleproc) _ idleproc = .away .own
    rcases eq_or_ne idleproc ((readied s.sched).headD idleproc) with heq | hne
    · rw [← heq, Function.update_self, heq, haway, hown heq.symm]
      exact .inl rfl
    · rw [Function.update_of_ne hne, leftAt]
      rcases eq_or_ne idleproc s.sched.current with heq | hcur
      · have hidle := h.idle
        rw [heq, he] at hidle
        rw [heq, Function.update_self]
        rcases hidle with hno | hown | hno
        · exact nomatch hno
        · exact .inr (.inr (Pc.leaving.inj hown ▸ rfl))
        · exact nomatch hno
      · rw [Function.update_of_ne hcur]
        exact h.idle

omit h in
/-- …and in order. -/
theorem Orderly.switched (h : Orderly s kids) (he : s.pc s.sched.current = .leaving e) :
    Orderly (s.switched e) kids :=
  ⟨h.toTidy.switched he, h.init, h.initPid, h.initParent, h.initAlive⟩

end Switch

/-! ## All of them -/

/-- The table with the current process asleep for something else than a child. -/
def dozing (s : ProcSys) (waitState : ℕ) : ProcSys :=
  { s with
    sched := s.sched.modifyProc s.sched.current fun g => { g with state := .sleeping, waitState := waitState }
    pc := Function.update s.pc s.sched.current (.leaving .sleep) }

/-- **What a section does.** -/
def Op.Did (s : ProcSys) (kids : ℕ → List ℕ) (s' : ProcSys) : Op → Outcome → Prop
  | .fork child, .result r => Pid.MAX_PROCESS ≤ s.nrProcess ∧ r = -E_NO_FREE_PROC ∧ s' = s ∨
      ∃ pid next, Fresh s pid next ∧ r = pid ∧ s' = s.forked child pid next
  | .exit code, .done => ∃ par, s.Live par ∧ Exited s kids par code s'
  | .wait pid, .waited w => w.Right s kids pid s'
  | .kill pid, .result r => Killed s pid r s'
  | .yield, .done => s' = s.setPc s.sched.current (.leaving .own)
  | .sleep waitState, .done => s' = s.dozing waitState
  | .wake p, .done => s' = { s with sched := s.sched.woken p }
  | .switch, .done => ∃ e, s.pc s.sched.current = .leaving e ∧ s' = s.switched e
  | .resume, .done => (s.sched.proc s.sched.current).exiting = true ∧
      ∃ par, s.Live par ∧ Exited s kids par (-E_KILLED) s'
  | .resume, .waited w => (s.sched.proc s.sched.current).exiting = false ∧
      ∃ pid, s.pc s.sched.current = .back pid ∧ w.Right s kids pid s'
  | _, _ => False

/-- The section ends in `do_exit`. -/
def Op.Exits (s : ProcSys) : Op → Prop
  | .exit _ => True
  | .resume => (s.sched.proc s.sched.current).exiting = true
  | _ => False

/-- Only the current process runs: it is awake at the start of a section of its own. -/
theorem Tidy.awake_of_pc (h : Tidy s kids) (hpc : s.pc s.sched.current = .running ∨
    ∃ pid, s.pc s.sched.current = .back pid) : (s.sched.proc s.sched.current).Awake := by
  have hst := h.standing _ h.current
  rcases hpc with hpc | ⟨pid, hpc⟩ <;> · rw [hpc] at hst; exact hst

/-- `do_exit` of `idleproc` or `initproc` is a panic. -/
theorem wp_doExit_immortal (hno : ¬ Mortal s.sched.current) :
    Act.wp (doExit fuel code) (fun _ _ => False) (fun e => e = .panic) s := by
  rw [doExit, Act.wp_bind, Act.wp_get, Act.wp_bind, Act.wp_require]
  refine ⟨fun hidle => ?_, fun _ => rfl⟩
  rw [Act.wp_bind, Act.wp_require]
  exact ⟨fun hinit => absurd ⟨hidle, hinit⟩ hno, fun _ => rfl⟩

/-- A process that `wake` is for is no zombie. -/
theorem Tidy.not_zombie_of_sleep (h : Tidy s kids) (hp : p ∈ s.procList)
    (hpc : s.pc p = .leaving .sleep ∨ s.pc p = .away .sleep) : (s.sched.proc p).state ≠ .zombie := fun hz => by
  have hst := h.standing p (.inr hp)
  rcases hpc with hpc | hpc <;>
    · rw [hpc] at hst
      rcases hst with hst | hst
      · exact nomatch hz.symm.trans hst.1
      · exact nomatch hz.symm.trans hst.1

/-- **A section does what it does**, or it is the end of `idleproc` or `initproc`. -/
theorem Orderly.wp_perform (h : Orderly s kids) (hop : op.Allowed s) (hfuel : (Pid.MAX_PID + 1) * Pid.MAX_PID ≤ fuel) :
    Act.wp (perform fuel op) (fun o s' => op.Did s kids s' o ∧ (op.Exits s → Mortal s.sched.current))
      (fun e => e = .panic ∧ op.Exits s ∧ ¬ Mortal s.sched.current) s := by
  have hsome : Pid.MAX_PROCESS ≤ fuel := le_trans (by decide) hfuel
  have hexit : ∀ code, (s.sched.proc s.sched.current).Awake → Act.wp (doExit fuel code)
      (fun _ s' => (∃ par, s.Live par ∧ Exited s kids par code s') ∧ Mortal s.sched.current)
      (fun e => e = .panic ∧ ¬ Mortal s.sched.current) s := fun code hawake => by
    by_cases hmortal : Mortal s.sched.current
    · exact Act.wp_mono (h.wp_doExit hmortal hawake hsome) (fun _ _ hx => ⟨hx, hmortal⟩) fun _ => False.elim
    · exact Act.wp_mono (wp_doExit_immortal hmortal) (fun _ _ => False.elim) fun _ he => ⟨he, hmortal⟩
  cases op with
  | fork child =>
    rw [perform, Act.wp_bind]
    exact Act.wp_mono (h.wp_doFork hop.2 hop.1 hfuel) (fun r s' hr => ⟨hr, False.elim⟩) fun _ => False.elim
  | exit code =>
    rw [perform, Act.wp_bind]
    exact Act.wp_mono (hexit code (h.awake_of_pc (.inl hop))) (fun _ s' hx => ⟨hx.1, fun _ => hx.2⟩) fun _ he =>
      ⟨he.1, trivial, he.2⟩
  | wait pid =>
    rw [perform, Act.wp_bind]
    exact Act.wp_mono (h.wp_waitPass hsome) (fun r s' hr => ⟨hr, False.elim⟩) fun _ => False.elim
  | kill pid =>
    rw [perform, Act.wp_bind]
    exact Act.wp_mono h.wp_doKill (fun r s' hr => ⟨hr, False.elim⟩) fun _ => False.elim
  | yield => exact ⟨rfl, False.elim⟩
  | sleep waitState => exact ⟨rfl, False.elim⟩
  | wake p =>
    rw [perform, Act.wp_bind, wp_onSched]
    refine Act.wp_mono (Sched.wp_wakeupProc_eq p s.sched) (fun _ t ht => ?_) fun _ hno => absurd ?_ hno
    · rw [Act.wp_pure, show t = _ from ht]
      exact ⟨rfl, False.elim⟩
    · exact h.canWake (h.not_zombie_of_sleep hop.1 hop.2)
  | switch =>
    obtain ⟨e, he⟩ := hop
    rw [perform, Act.wp_bind]
    exact Act.wp_mono (h.wp_switch he) (fun _ s' hs' => ⟨⟨e, he, hs'⟩, False.elim⟩) fun _ => False.elim
  | resume =>
    obtain ⟨pid, hpc⟩ := hop
    rw [perform, Act.wp_bind, Act.wp_get, Act.wp_bind, Act.wp_get, hpc, Act.wp_bind, Act.wp_get, Act.wp_ite]
    refine ⟨fun hex => ?_, fun hex => ?_⟩
    · rw [Act.wp_bind]
      exact Act.wp_mono (hexit _ (h.awake_of_pc (.inr ⟨pid, hpc⟩))) (fun _ s' hx => ⟨⟨hex, hx.1⟩, fun _ => hx.2⟩)
        fun _ he => ⟨he.1, hex, he.2⟩
    · rw [Act.wp_bind]
      have hclear := Bool.not_eq_true _ |>.mp hex
      exact Act.wp_mono (h.wp_waitPass hsome) (fun r s' hr => ⟨⟨hclear, pid, hpc, hr⟩, fun hno => absurd hno hex⟩)
        fun _ => False.elim

/-- The current process goes on to another point. -/
theorem Orderly.setPc (h : Orderly s kids) {c : Pc} (hc : c = .running ∨ c = .leaving .own)
    (hawake : (s.sched.proc s.sched.current).Awake) : Orderly (s.setPc s.sched.current c) kids := by
  have hsame : s.sched.modifyProc s.sched.current id = s.sched := modifyProc_eq_self rfl
  have hstand := h.stand (c := c) (f := id) ?_ (fun hz => nomatch hz.symm.trans hawake.1) (fun _ => hc) ?_
  · rwa [hsame] at hstand
  · rcases hc with rfl | rfl <;> exact id
  · rcases hc with rfl | rfl <;> exact hawake

theorem Orderly.right {w : Waited} (h : Orderly s kids) (hw : w.Right s kids pid s')
    (hawake : (s.sched.proc s.sched.current).Awake) (hne : s.sched.current ≠ idleproc) : ∃ kids', Orderly s' kids' := by
  cases w with
  | badProc =>
    obtain ⟨-, rfl⟩ := hw
    exact ⟨kids, h.setPc (.inl rfl) hawake⟩
  | asleep =>
    obtain ⟨ha, rfl⟩ := hw
    exact ⟨kids, h.waiting ha hne⟩
  | reaped pid' code =>
    obtain ⟨p, hp, -, -, -, rfl⟩ := hw
    exact ⟨_, h.reaped hp hawake⟩

/-- **The table is in order after a section**, if it was before. -/
theorem Orderly.did (h : Orderly s kids) (hop : op.Allowed s) (hdid : op.Did s kids s' o)
    (hmortal : op.Exits s → Mortal s.sched.current) : ∃ kids', Orderly s' kids' := by
  match op, o with
  | .fork child, .result r =>
    rcases hdid with ⟨-, -, rfl⟩ | ⟨pid, next, hf, -, rfl⟩
    · exact ⟨kids, h⟩
    · exact ⟨_, h.forked hop.2 hf hop.1⟩
  | .exit code, .done =>
    obtain ⟨par, hlive, hx⟩ := hdid
    exact ⟨_, h.exited hx (h.awake_of_pc (.inl hop)) (hmortal trivial) hlive⟩
  | .wait pid, .waited w => exact h.right hdid (h.awake_of_pc (.inl hop.1)) hop.2
  | .kill pid, .result r =>
    rcases hdid with ⟨-, -, rfl⟩ | ⟨p, hp, -, ⟨-, -, rfl⟩ | ⟨-, -, rfl⟩⟩
    · exact ⟨kids, h⟩
    · exact ⟨kids, h⟩
    · exact ⟨kids, h.flagged hp⟩
  | .yield, .done =>
    obtain rfl := hdid
    exact ⟨kids, h.setPc (.inr rfl) (h.awake_of_pc (.inl hop))⟩
  | .sleep waitState, .done =>
    obtain rfl := hdid
    exact ⟨kids, h.stand id (fun hno => nomatch hno) (fun heq => absurd heq hop.2.1) (.inr ⟨rfl, hop.2.2⟩)⟩
  | .wake p, .done =>
    obtain rfl := hdid
    exact ⟨kids, h.woken (.inr hop.1) (h.not_zombie_of_sleep hop.1 hop.2)⟩
  | .switch, .done =>
    obtain ⟨e, he, rfl⟩ := hdid
    exact ⟨kids, h.switched he⟩
  | .resume, .done =>
    obtain ⟨hex, par, hlive, hx⟩ := hdid
    obtain ⟨pid, hpc⟩ := hop
    exact ⟨_, h.exited hx (h.awake_of_pc (.inr ⟨pid, hpc⟩)) (hmortal hex) hlive⟩
  | .resume, .waited w =>
    obtain ⟨-, pid, hpc, hw⟩ := hdid
    refine h.right hw (h.awake_of_pc (.inr ⟨pid, hpc⟩)) fun heq => ?_
    have hidle := h.idle
    rw [← heq, hpc] at hidle
    rcases hidle with hno | hno | hno <;> exact nomatch hno

end UCore.ProcSys
