import UCore.Process.Adopt

/-!
# Process/Orderly — what holds of the table between two sections

                 running  leaving own   asleep for …          asleep for a child     exited
    state        runnable               sleeping, or woken    sleeping, or woken     zombie
    children     any                    any                   one to wait for,       none
                                                              and no such zombie

Where a process is in its code says what the scheduler may hold of it (`Standing`); one process is not in
`schedule`, and it is `current`; and the run queue holds whoever else is runnable.
-/

namespace UCore

/-- A process that runs or may run, and waits for nothing. -/
def Proc.Awake (g : Proc) : Prop := g.state = .runnable ∧ g.waitState = 0

namespace ProcSys

variable {s s' : ProcSys} {p q current fuel : ℕ} {pid : ℤ} {kids : ℕ → List ℕ} {g : Proc} {awaits awaits' : ℤ → Prop}
  {childless childless' : Prop} {e : Errand} {pc : Pc} {t : Sched}

/-! ## One process -/

/-- What may hold of a process that has left an errand behind it… -/
def Errand.Standing (g : Proc) (awaits : ℤ → Prop) (childless : Prop) : Errand → Prop
  | .own => g.Awake
  | .sleep => g.Awake ∨ g.state = .sleeping ∧ g.waitState ≠ WT_CHILD
  | .wait pid => g.Awake ∨ g.state = .sleeping ∧ g.waitState = WT_CHILD ∧ awaits pid
  | .exit => g.state = .zombie ∧ g.waitState = 0 ∧ childless

/-- …and of any process. -/
def Standing (g : Proc) (awaits : ℤ → Prop) (childless : Prop) : Pc → Prop
  | .running => g.Awake
  | .leaving e => e.Standing g awaits childless
  | .away e => e.Standing g awaits childless
  | .back _ => g.Awake

/-- The point is inside of `schedule`. -/
def Pc.Away : Pc → Prop
  | .away _ => True
  | _ => False

/-- **A process is awake, asleep, or a zombie.** -/
theorem Standing.cases (h : Standing g awaits childless pc) :
    g.Awake ∨ g.state = .sleeping ∧ (g.waitState = WT_CHILD → ∃ pid, awaits pid) ∨
      g.state = .zombie ∧ g.waitState = 0 ∧ childless := by
  have hof : ∀ e : Errand, e.Standing g awaits childless →
      g.Awake ∨ g.state = .sleeping ∧ (g.waitState = WT_CHILD → ∃ pid, awaits pid) ∨
        g.state = .zombie ∧ g.waitState = 0 ∧ childless := fun e h => by
    cases e with
    | own => exact .inl h
    | sleep => exact h.imp_right fun h => .inl ⟨h.1, fun hw => absurd hw h.2⟩
    | wait pid => exact h.imp_right fun h => .inl ⟨h.1, fun _ => ⟨pid, h.2.2⟩⟩
    | exit => exact .inr (.inr h)
  cases pc with
  | running => exact .inl h
  | leaving e => exact hof e h
  | away e => exact hof e h
  | back _ => exact .inl h

theorem Standing.mono (h : Standing g awaits childless pc)
    (hawaits : ∀ pid, g.waitState = WT_CHILD → awaits pid → awaits' pid)
    (hless : g.state = .zombie → childless → childless') :
    Standing g awaits' childless' pc := by
  have herrand : ∀ e : Errand, e.Standing g awaits childless → e.Standing g awaits' childless' := fun e h => by
    cases e with
    | own => exact h
    | sleep => exact h
    | wait pid => exact h.imp_right fun h => ⟨h.1, h.2.1, hawaits pid h.2.1 h.2.2⟩
    | exit => exact ⟨h.1, h.2.1, hless h.1 h.2.2⟩
  cases pc with
  | running => exact h
  | leaving e => exact herrand e h
  | away e => exact herrand e h
  | back _ => exact h

/-- A wake-up is allowed anywhere but in a zombie. -/
theorem Standing.wake (h : Standing g awaits childless pc) (hz : g.state ≠ .zombie) {g' : Proc} (hg : g'.Awake) :
    Standing g' awaits childless pc := by
  have herrand : ∀ e : Errand, e.Standing g awaits childless → e.Standing g' awaits childless := fun e h => by
    cases e with
    | own => exact hg
    | sleep => exact .inl hg
    | wait pid => exact .inl hg
    | exit => exact absurd h.1 hz
  cases pc with
  | running => exact hg
  | leaving e => exact herrand e h
  | away e => exact herrand e h
  | back _ => exact hg

/-- The flag of a process to be killed does not count. -/
theorem Standing.flag (h : Standing g awaits childless pc) (b : Bool) :
    Standing { g with exiting := b } awaits childless pc := by
  cases pc with
  | running => exact h
  | leaving e => cases e <;> exact h
  | away e => cases e <;> exact h
  | back _ => exact h

/-- A process that has not been put to sleep waits for nothing. -/
theorem Standing.waitState_eq_zero (h : Standing g awaits childless pc) (hs : g.state ≠ .sleeping) :
    g.waitState = 0 := by
  rcases h.cases with h | ⟨hno, -⟩ | ⟨-, h, -⟩
  · exact h.2
  · exact absurd hno hs
  · exact h

/-- A process that waits is asleep. -/
theorem Standing.sleeping (h : Standing g awaits childless pc) (hw : g.waitState ≠ 0) : g.state = .sleeping := by
  by_contra hs
  exact hw (h.waitState_eq_zero hs)

theorem Standing.awake (h : Standing g awaits childless pc) (hs : g.state = .runnable) : g.Awake :=
  ⟨hs, h.waitState_eq_zero fun hno => nomatch hs.symm.trans hno⟩

theorem Standing.kidless (h : Standing g awaits childless pc) (hz : g.state = .zombie) : childless := by
  rcases h.cases with h | ⟨hno, -⟩ | ⟨-, -, h⟩
  · exact nomatch hz.symm.trans h.1
  · exact nomatch hz.symm.trans hno
  · exact h

/-- A process that waits for a child sleeps in `do_wait`. -/
theorem Standing.waits (h : Standing g awaits childless pc) (hw : g.waitState = WT_CHILD) :
    g.state = .sleeping ∧ ∃ pid, (pc = .leaving (.wait pid) ∨ pc = .away (.wait pid)) ∧ awaits pid := by
  have hs := h.sleeping (by rw [hw]; decide)
  have herrand : ∀ e : Errand, e.Standing g awaits childless → ∃ pid, e = .wait pid ∧ awaits pid := fun e h => by
    cases e with
    | own => exact nomatch hs.symm.trans h.1
    | sleep => exact h.elim (fun h => nomatch hs.symm.trans h.1) fun h => absurd hw h.2
    | wait pid => exact h.elim (fun h => nomatch hs.symm.trans h.1) fun h => ⟨pid, rfl, h.2.2⟩
    | exit => exact nomatch hs.symm.trans h.1
  refine ⟨hs, ?_⟩
  cases pc with
  | running => exact nomatch hs.symm.trans h.1
  | leaving e =>
    obtain ⟨pid, rfl, ha⟩ := herrand e h
    exact ⟨pid, .inl rfl, ha⟩
  | away e =>
    obtain ⟨pid, rfl, ha⟩ := herrand e h
    exact ⟨pid, .inr rfl, ha⟩
  | back _ => exact nomatch hs.symm.trans h.1

/-! ## All of them -/

/-- A process that `do_wait` sleeps for: there is a child, and none of them can be freed. -/
def Awaits (s : ProcSys) (children : List ℕ) (pid : ℤ) : Prop :=
  (∃ p ∈ children, s.Matches pid p) ∧ ∀ p ∈ children, s.Matches pid p → (s.sched.proc p).state ≠ .zombie

/-- **The run queue**: whoever is runnable, and neither runs nor is `idleproc`, is in it once. -/
structure Queue (s : ProcSys) : Prop where
  nodup : s.sched.runList.Nodup
  mem : ∀ p, p ∈ s.sched.runList ↔
    p ∈ s.procList ∧ (s.sched.proc p).state = .runnable ∧ p ≠ s.sched.current

/-- Every process descends from `idleproc`. -/
def Rooted (s : ProcSys) : Prop :=
  ∀ p, s.Live p → Relation.ReflTransGen (fun q q' => s.parent q = some q') p idleproc

/-- **The table is tidy…** -/
structure Tidy (s : ProcSys) (kids : ℕ → List ℕ) : Prop where
  listed : Listed s
  family : Family s kids
  rooted : Rooted s
  queue : Queue s
  standing : ∀ p, s.Live p → Standing (s.sched.proc p) (s.Awaits (kids p)) (kids p = []) (s.pc p)
  current : s.Live s.sched.current
  place : ∀ p, s.Live p → ((s.pc p).Away ↔ p ≠ s.sched.current)
  idle : s.pc idleproc = .running ∨ s.pc idleproc = .leaving .own ∨ s.pc idleproc = .away .own
  idlePid : s.pid idleproc = 0

/-- **…and in order**, with `initproc` there, under `idleproc` and alive. -/
structure Orderly (s : ProcSys) (kids : ℕ → List ℕ) : Prop extends Tidy s kids where
  init : initproc ∈ s.procList
  initPid : s.pid initproc = 1
  initParent : s.parent initproc = some idleproc
  initAlive : (s.sched.proc initproc).state ≠ .zombie

theorem Listed.frame (h : Listed s) (t : Sched) (pc : ℕ → Pc) (code : ℕ → ℤ) :
    Listed { s with sched := t, pc := pc, exitCode := code } :=
  ⟨h.nodup, h.idle, h.count, h.le, h.pid, h.inj, h.gap, h.hash, h.hashNodup⟩

theorem Family.frame (h : Family s kids) (t : Sched) (pc : ℕ → Pc) (code : ℕ → ℤ) :
    Family { s with sched := t, pc := pc, exitCode := code } kids :=
  ⟨h.siblings, h.mem, h.parent⟩

/-- Nobody is a child of a process that is not there. -/
theorem Family.kids_eq_nil (h : Family s kids) (hp : ¬ s.Live p) : kids p = [] := by
  refine List.eq_nil_iff_forall_not_mem.mpr fun q hq => ?_
  obtain ⟨hq, hpar⟩ := (h.mem p q).mp hq
  obtain ⟨p', hp', hlive⟩ := h.parent q hq
  exact hp (Option.some.inj (hpar.symm.trans hp') ▸ hlive)

/-- What a child is awaited for is kept while none of them becomes a zombie. -/
theorem Awaits.of_zombie {children : List ℕ} (h : s.Awaits children pid) (hpid : ∀ p ∈ children, s'.pid p = s.pid p)
    (hz : ∀ p ∈ children, (s'.sched.proc p).state = .zombie → (s.sched.proc p).state = .zombie) :
    s'.Awaits children pid := by
  obtain ⟨⟨p, hp, hm⟩, hall⟩ := h
  refine ⟨⟨p, hp, fun hne => (hpid p hp).trans (hm hne)⟩, fun q hq hmq hzq => ?_⟩
  exact hall q hq (fun hne => (hpid q hq).symm.trans (hmq hne)) (hz q hq hzq)

namespace Tidy

variable (h : Tidy s kids)

include h

theorem live_of_kid (hq : q ∈ kids p) : s.Live q := .inr ((h.family.mem p q).mp hq).1

theorem idle_awake : (s.sched.proc idleproc).Awake := by
  have hst := h.standing idleproc (.inl rfl)
  rcases h.idle with hpc | hpc | hpc <;> · rw [hpc] at hst; exact hst

/-- A parent is no zombie. -/
theorem parent_not_zombie (hp : s.Live p) (hq : q ∈ kids p) : (s.sched.proc p).state ≠ .zombie := fun hz => by
  have hnil := (h.standing p hp).kidless hz
  rw [hnil] at hq
  exact List.not_mem_nil hq

/-- Whoever is alive can be woken. -/
theorem canWake (hz : (s.sched.proc p).state ≠ .zombie) : s.sched.CanWake p :=
  ⟨hz, fun hs _ _ hq => hs ((h.queue.mem p).mp hq).2.1⟩

/-- There are not many children. -/
theorem kids_length_lt (p : ℕ) : (kids p).length < Pid.MAX_PROCESS := by
  have hsub : kids p ⊆ s.procList := fun q hq => ((h.family.mem p q).mp hq).1
  have hnodup : (kids p).Nodup := by
    by_cases hp : s.Live p
    · exact (h.family.siblings p hp).nodup
    · exact h.family.kids_eq_nil hp ▸ List.nodup_nil
  have hle := (hnodup.subperm hsub).length_le
  have hcount := h.listed.count
  have hmax := h.listed.le
  omega

theorem current_notMem : s.sched.current ∉ s.sched.runList := fun hq => ((h.queue.mem _).mp hq).2.2 rfl

end Tidy

theorem Orderly.init_ne_idle (h : Orderly s kids) : initproc ≠ idleproc := fun heq => h.listed.idle (heq ▸ h.init)

/-! ## What the scheduler does -/

/-- **A wake-up** leaves the queue exact. -/
theorem Queue.woken (h : Queue s) (hp : s.Live p)
    (hrun : p = idleproc → (s.sched.proc p).state = .runnable) : Queue { s with sched := s.sched.woken p } := by
  by_cases hs : (s.sched.proc p).state = .runnable
  · have hsame : s.sched.woken p = s.sched := if_pos hs
    rw [hsame]
    exact h
  · have hne : p ≠ idleproc := fun heq => hs (hrun heq)
    have hmem : p ∈ s.procList := hp.resolve_left hne
    have hnot : p ∉ s.sched.runList := fun hq => hs ((h.mem p).mp hq).2.1
    have hself : ((s.sched.woken p).proc p).state = .runnable := by
      rw [Sched.woken_proc_self, if_neg hs]
    have hlist : (s.sched.woken p).runList = if p = s.sched.current then s.sched.runList else s.sched.runList ++ [p] := by
      rw [Sched.woken, if_neg hs]
      simp only [hne, or_false]
    refine ⟨?_, fun q => ?_⟩
    · change (s.sched.woken p).runList.Nodup
      rw [hlist]
      split
      · exact h.nodup
      · exact List.Nodup.append h.nodup (List.nodup_singleton p) (by simpa using hnot)
    · change q ∈ (s.sched.woken p).runList ↔
        q ∈ s.procList ∧ ((s.sched.woken p).proc q).state = .runnable ∧ q ≠ (s.sched.woken p).current
      rw [hlist, Sched.woken_current]
      rcases eq_or_ne q p with rfl | hqp
      · rw [hself]
        split
        · rename_i hcur
          exact ⟨fun hq => absurd hq hnot, fun hq => absurd hcur hq.2.2⟩
        · rename_i hcur
          exact ⟨fun _ => ⟨hmem, rfl, hcur⟩, fun _ => by simp⟩
      · rw [Sched.woken_proc_of_ne hqp, ← h.mem q]
        split
        · rfl
        · simp [hqp]

/-- What the current process is has no part in it. -/
theorem Queue.modifyCurrent (h : Queue s) (f : Proc → Proc) :
    Queue { s with sched := s.sched.modifyProc s.sched.current f } := by
  refine ⟨h.nodup, fun q => ?_⟩
  change q ∈ s.sched.runList ↔ q ∈ s.procList ∧
    ((s.sched.modifyProc s.sched.current f).proc q).state = .runnable ∧ q ≠ s.sched.current
  rw [h.mem]
  refine and_congr_right fun _ => ⟨fun hq => ⟨?_, hq.2⟩, fun hq => ⟨?_, hq.2⟩⟩
  · rw [Sched.modifyProc_proc, if_neg hq.2]
    exact hq.1
  · have hrun := hq.1
    rwa [Sched.modifyProc_proc, if_neg hq.2] at hrun

/-- **The others go on as they were**, when only the scheduler and the places have changed. -/
theorem Orderly.reschedule (h : Orderly s kids) (t : Sched) (pc : ℕ → Pc)
    (hqueue : Queue { s with sched := t })
    (hzombie : ∀ p, (t.proc p).state = .zombie → (s.sched.proc p).state = .zombie)
    (hstanding : ∀ p, s.Live p → Standing (t.proc p) (s.Awaits (kids p)) (kids p = []) (pc p))
    (hcurrent : s.Live t.current) (hplace : ∀ p, s.Live p → ((pc p).Away ↔ p ≠ t.current))
    (hidle : pc idleproc = .running ∨ pc idleproc = .leaving .own ∨ pc idleproc = .away .own) :
    Orderly { s with sched := t, pc := pc } kids :=
  { listed := h.listed.frame t pc s.exitCode
    family := h.family.frame t pc s.exitCode
    rooted := h.rooted
    queue := ⟨hqueue.nodup, hqueue.mem⟩
    standing := fun p hp => (hstanding p hp).mono (fun _ _ ha => ha.of_zombie (fun _ _ => rfl) fun q _ => hzombie q)
      fun _ => id
    current := hcurrent
    place := hplace
    idle := hidle
    idlePid := h.idlePid
    init := h.init
    initPid := h.initPid
    initParent := h.initParent
    initAlive := fun hz => h.initAlive (hzombie _ hz) }

theorem woken_zombie (hz : ((t.woken p).proc q).state = .zombie) : (t.proc q).state = .zombie := by
  rcases eq_or_ne q p with rfl | hqp
  · rw [Sched.woken_proc_self] at hz
    split at hz
    · exact hz
    · exact nomatch hz
  · rwa [Sched.woken_proc_of_ne hqp] at hz

/-- **A wake-up keeps the table in order.** -/
theorem Orderly.woken (h : Orderly s kids) (hp : s.Live p) (hz : (s.sched.proc p).state ≠ .zombie) :
    Orderly { s with sched := s.sched.woken p } kids := by
  refine h.reschedule (s.sched.woken p) s.pc (h.queue.woken hp fun heq => heq ▸ h.idle_awake.1) (fun q => woken_zombie)
    (fun q hq => ?_) ?_ (fun q hq => ?_) h.idle
  · rcases eq_or_ne q p with rfl | hqp
    · have hst := h.standing q hq
      rw [Sched.woken_proc_self]
      split
      · exact hst
      · exact hst.wake hz ⟨rfl, rfl⟩
    · rw [Sched.woken_proc_of_ne hqp]
      exact h.standing q hq
  · rw [Sched.woken_current]
    exact h.current
  · rw [Sched.woken_current]
    exact h.place q hq

/-- The current process moves to another point, and its fields change with it. -/
theorem Orderly.stand (h : Orderly s kids) {c : Pc} {f : Proc → Proc} (haway : ¬ c.Away)
    (hzombie : (f (s.sched.proc s.sched.current)).state ≠ .zombie)
    (hidle : s.sched.current = idleproc → c = .running ∨ c = .leaving .own)
    (hst : Standing (f (s.sched.proc s.sched.current)) (s.Awaits (kids s.sched.current))
      (kids s.sched.current = []) c) :
    Orderly { s with
      sched := s.sched.modifyProc s.sched.current f
      pc := Function.update s.pc s.sched.current c } kids := by
  have hproc : ∀ q, q ≠ s.sched.current → (s.sched.modifyProc s.sched.current f).proc q = s.sched.proc q :=
    fun q hq => Function.update_of_ne hq ..
  have hself : (s.sched.modifyProc s.sched.current f).proc s.sched.current = f (s.sched.proc s.sched.current) :=
    Function.update_self ..
  refine h.reschedule _ _ (h.queue.modifyCurrent f) (fun q hz => ?_) (fun q hq => ?_) h.current (fun q hq => ?_) ?_
  · rcases eq_or_ne q s.sched.current with rfl | hne
    · exact absurd (hself ▸ hz) hzombie
    · rwa [hproc q hne] at hz
  · rcases eq_or_ne q s.sched.current with rfl | hne
    · rw [hself, Function.update_self]
      exact hst
    · rw [hproc q hne, Function.update_of_ne hne]
      exact h.standing q hq
  · rcases eq_or_ne q s.sched.current with rfl | hne
    · rw [Function.update_self]
      exact ⟨fun hno => absurd hno haway, fun hno => absurd rfl hno⟩
    · rw [Function.update_of_ne hne]
      exact h.place q hq
  · rcases eq_or_ne idleproc s.sched.current with heq | hne
    · rw [heq, Function.update_self]
      exact (hidle heq.symm).imp_right .inl
    · rw [Function.update_of_ne hne]
      exact h.idle

end ProcSys

end UCore
