import UCore.Machinery.Act
import UCore.Libs.Defs

/-!
# Schedule/Sched — processes, the run queue and the scheduler

`kern/schedule/sched.c` over the fields of `struct proc_struct` that decide who runs.  A process is
its pid, and 0 is `idleproc`.  The scheduler class is a parameter of `schedule`: whatever `pick_next`
returns, the class asserts that it is queued.
-/

namespace UCore

/-- `enum proc_state`. -/
inductive ProcState where
  | uninit
  | sleeping
  | runnable
  | zombie
  deriving DecidableEq, Repr

/-- `WT_INTERRUPTED`. -/
def WT_INTERRUPTED : ℕ := 0x80000000

/-- `WT_CHILD`. -/
def WT_CHILD : ℕ := 0x00000001 ||| WT_INTERRUPTED

/-- `WT_KSEM`. -/
def WT_KSEM : ℕ := 0x00000100

/-- `WT_TIMER`. -/
def WT_TIMER : ℕ := 0x00000002 ||| WT_INTERRUPTED

/-- The scheduling fields of `struct proc_struct`; `exiting` is the `PF_EXITING` flag. -/
structure Proc where
  state : ProcState
  waitState : ℕ
  exiting : Bool
  deriving DecidableEq, Repr

/-- The process table, `current`, and the processes linked in the run queue, first to last. -/
structure Sched where
  proc : ℕ → Proc
  current : ℕ
  runList : List ℕ

/-- `idleproc`. -/
abbrev idleproc : ℕ := 0

namespace Sched

/-- A section of the scheduler. -/
abbrev Call (α : Type) := Act Sched Stop α

/-- Change the fields of one process. -/
def modifyProc (s : Sched) (p : ℕ) (f : Proc → Proc) : Sched :=
  { s with proc := Function.update s.proc p (f (s.proc p)) }

/-- `sched_class_enqueue`: the class asserts that the process is not linked yet. -/
def schedClassEnqueue (p : ℕ) : Call Unit := do
  if p ≠ idleproc then
    Act.require .panic (p ∉ (← get).runList)
    modify fun s => { s with runList := s.runList ++ [p] }

/-- `sched_class_dequeue`: the class asserts that the process is linked. -/
def schedClassDequeue (p : ℕ) : Call Unit := do
  Act.require .panic (p ∈ (← get).runList)
  modify fun s => { s with runList := s.runList.erase p }

/-- `wakeup_proc`. -/
def wakeupProc (p : ℕ) : Call Unit := do
  Act.require .panic (((← get).proc p).state ≠ .zombie)
  if ((← get).proc p).state ≠ .runnable then
    modify fun s => s.modifyProc p fun g => { g with state := .runnable, waitState := 0 }
    if p ≠ (← get).current then schedClassEnqueue p

/-- `schedule`, with the class's `pick_next` as a parameter. -/
def schedule (pickNext : List ℕ → Option ℕ) : Call Unit := do
  let s ← get
  if (s.proc s.current).state = .runnable then schedClassEnqueue s.current
  match pickNext (← get).runList with
  | some next => do
    schedClassDequeue next
    modify fun s => { s with current := next }
  | none => modify fun s => { s with current := idleproc }

/-- `do_kill`, on a process that exists; the result is the error. -/
def doKill (p : ℕ) : Call ℤ := do
  if ((← get).proc p).exiting = false then
    modify fun s => s.modifyProc p fun g => { g with exiting := true }
    if ((← get).proc p).waitState &&& WT_INTERRUPTED ≠ 0 then wakeupProc p
    return 0
  return -9

/-- The section of `do_exit` that leaves the process table to `schedule`: the caller is a zombie, and
its parent is woken if it waits for a child. -/
def exitSection (parent : ℕ) : Call Unit := do
  modify fun s => s.modifyProc s.current fun g => { g with state := .zombie }
  if ((← get).proc parent).waitState = WT_CHILD then wakeupProc parent

/-- The sleep of `do_wait`. -/
def waitSection : Call Unit :=
  modify fun s => s.modifyProc s.current fun g => { g with state := .sleeping, waitState := WT_CHILD }

/-! ## What a section does to the table -/

variable {s : Sched} {p : ℕ} {Q : Unit → Sched → Prop} {E : Stop → Prop}

@[simp] theorem modifyProc_current (s : Sched) (p : ℕ) (f : Proc → Proc) :
    (s.modifyProc p f).current = s.current := rfl

@[simp] theorem modifyProc_runList (s : Sched) (p : ℕ) (f : Proc → Proc) :
    (s.modifyProc p f).runList = s.runList := rfl

theorem modifyProc_proc (s : Sched) (p q : ℕ) (f : Proc → Proc) :
    (s.modifyProc p f).proc q = if q = p then f (s.proc p) else s.proc q := by
  simp only [modifyProc, Function.update_apply]

/-- **The run queue is sound**: it holds runnable processes, once each, and neither the process that
runs nor `idleproc`. -/
structure Ok (s : Sched) : Prop where
  nodup : s.runList.Nodup
  runnable : ∀ p ∈ s.runList, (s.proc p).state = .runnable
  current : s.current ∉ s.runList
  idle : idleproc ∉ s.runList

/-- Changing a process that is not queued keeps the run queue sound. -/
theorem Ok.modifyProc (h : s.Ok) (hp : p ∉ s.runList) (f : Proc → Proc) :
    (s.modifyProc p f).Ok := by
  refine ⟨h.nodup, fun q hq => ?_, h.current, h.idle⟩
  have hqp : q ≠ p := fun heq => hp (heq ▸ hq)
  rw [modifyProc_proc, if_neg hqp]
  exact h.runnable q hq

/-- …and so does a change that keeps the state. -/
theorem Ok.congr {s' : Sched} (h : s.Ok) (hl : s'.runList = s.runList)
    (hc : s'.current = s.current) (hs : ∀ q, (s'.proc q).state = (s.proc q).state) : s'.Ok :=
  ⟨hl ▸ h.nodup, fun q hq => (hs q).trans (h.runnable q (hl ▸ hq)), hl ▸ hc ▸ h.current,
    hl ▸ h.idle⟩

/-- **A wake-up** makes one process runnable, and queues it or nothing. -/
structure Woken (p : ℕ) (s s' : Sched) : Prop where
  other : ∀ q, q ≠ p → s'.proc q = s.proc q
  state : (s'.proc p).state = .runnable
  current : s'.current = s.current
  runList : s'.runList = s.runList ∨
    p ≠ s.current ∧ p ≠ idleproc ∧ p ∉ s.runList ∧ s'.runList = s.runList ++ [p]

/-- A wake-up puts nobody to sleep. -/
theorem Woken.runnable {s' : Sched} (hw : Woken p s s') (q : ℕ)
    (hq : (s.proc q).state = .runnable) : (s'.proc q).state = .runnable := by
  rcases eq_or_ne q p with rfl | hqp
  · exact hw.state
  · rwa [hw.other q hqp]

theorem Woken.ok {s' : Sched} (hw : Woken p s s') (h : s.Ok) : s'.Ok := by
  have hrun := hw.runnable
  rcases hw.runList with hl | ⟨hcur, hidle, hnot, hl⟩
  · exact ⟨hl ▸ h.nodup, fun q hq => hrun q (h.runnable q (hl ▸ hq)), hl ▸ hw.current ▸ h.current,
      hl ▸ h.idle⟩
  · refine ⟨?_, fun q hq => ?_, ?_, ?_⟩
    · rw [hl, List.nodup_append]
      refine ⟨h.nodup, List.nodup_singleton p, fun a ha b hb hab => hnot ?_⟩
      rwa [← List.mem_singleton.mp hb, ← hab]
    · rw [hl, List.mem_append, List.mem_singleton] at hq
      rcases hq with hq | rfl
      · exact hrun q (h.runnable q hq)
      · exact hw.state
    · simpa [hl, hw.current] using ⟨h.current, hcur.symm⟩
    · simpa [hl] using ⟨h.idle, hidle.symm⟩

/-- `wakeup_proc` returns unless the process is a zombie, or asleep and queued. -/
theorem wp_wakeupProc (p : ℕ) (s : Sched) :
    Act.wp (wakeupProc p) (fun _ s' => Woken p s s')
      (fun _ => (s.proc p).state = .zombie ∨ (s.proc p).state ≠ .runnable ∧ p ∈ s.runList) s := by
  simp only [wakeupProc, schedClassEnqueue, Act.wp_bind, Act.wp_require, Act.wp_get, Act.wp_ite,
    Act.wp_modify, Act.wp_pure, modifyProc_current, modifyProc_runList]
  have hself : ∀ rl : List ℕ, (rl = s.runList ∨
      p ≠ s.current ∧ p ≠ idleproc ∧ p ∉ s.runList ∧ rl = s.runList ++ [p]) →
      Woken p s { s.modifyProc p fun g => { g with state := .runnable, waitState := 0 } with
        runList := rl } := fun rl hrl =>
    ⟨fun q hq => by simp [modifyProc_proc, hq], by simp [modifyProc_proc], rfl, hrl⟩
  refine ⟨fun _ => ⟨fun hs => ⟨fun hcur => ⟨fun hidle => ⟨fun hnot => hself _ (.inr ?_), fun h => ?_⟩,
    fun _ => hself _ (.inl rfl)⟩, fun _ => hself _ (.inl rfl)⟩, fun hs => ?_⟩, fun h => ?_⟩
  · exact ⟨hcur, hidle, hnot, rfl⟩
  · exact .inr ⟨hs, not_not.mp h⟩
  · exact ⟨fun _ _ => rfl, not_not.mp hs, rfl, .inl rfl⟩
  · exact .inl (not_not.mp h)

/-- `do_kill` marks the process, and wakes it only from a wait that can be interrupted. -/
theorem wp_doKill (p : ℕ) (s : Sched) :
    Act.wp (doKill p)
      (fun _ s' => ∃ b, s' = s.modifyProc p (fun g => { g with exiting := b }) ∨
        (s.proc p).waitState &&& WT_INTERRUPTED ≠ 0 ∧
          Woken p (s.modifyProc p fun g => { g with exiting := b }) s')
      (fun _ => True) s := by
  simp only [doKill, Act.wp_bind, Act.wp_get, Act.wp_ite, Act.wp_modify, Act.wp_pure]
  refine ⟨fun _ => ⟨fun hw => ?_, fun _ => ⟨true, .inl rfl⟩⟩, fun h => ⟨true, .inl ?_⟩⟩
  · refine Act.wp_mono (wp_wakeupProc p _) (fun _ s' hs' => ⟨true, .inr ⟨?_, hs'⟩⟩) fun _ _ => trivial
    simpa [modifyProc_proc] using hw
  · have hb : (s.proc p).exiting = true := by simpa using h
    have heq : ({ (s.proc p) with exiting := true } : Proc) = s.proc p := by rw [← hb]
    simp only [modifyProc, heq, Function.update_eq_self]

/-- **A switch** goes to a runnable process or to `idleproc`, and changes no process. -/
theorem wp_schedule (pickNext : List ℕ → Option ℕ) (h : s.Ok) :
    Act.wp (schedule pickNext)
      (fun _ s' => s'.proc = s.proc ∧ s'.Ok ∧
        (s'.current = idleproc ∨ (s.proc s'.current).state = .runnable))
      (fun _ => True) s := by
  -- the switch itself, from a queue that holds at most the caller besides what it held
  have hswitch : ∀ rl : List ℕ, rl.Nodup → (∀ q ∈ rl, (s.proc q).state = .runnable) →
      idleproc ∉ rl → Act.wp (match pickNext rl with
        | some next => do
          schedClassDequeue next
          modify fun s => { s with current := next }
        | none => modify fun s => { s with current := idleproc })
        (fun _ s' => s'.proc = s.proc ∧ s'.Ok ∧
          (s'.current = idleproc ∨ (s.proc s'.current).state = .runnable))
        (fun _ => True) { s with runList := rl } := by
    intro rl hnd hrun hidle
    cases hp : pickNext rl with
    | none => exact ⟨rfl, ⟨hnd, hrun, hidle, hidle⟩, .inl rfl⟩
    | some next =>
      simp only [schedClassDequeue, Act.wp_bind, Act.wp_get, Act.wp_require, Act.wp_modify]
      refine ⟨fun hnext => ⟨trivial, ⟨hnd.erase _, fun q hq => hrun q (List.mem_of_mem_erase hq),
        hnd.not_mem_erase, fun hi => hidle (List.mem_of_mem_erase hi)⟩, .inr (hrun next hnext)⟩,
        fun _ => trivial⟩
  simp only [schedule, schedClassEnqueue, Act.wp_bind, Act.wp_get, Act.wp_ite, Act.wp_require,
    Act.wp_modify, Act.wp_pure]
  have hkeep := hswitch s.runList h.nodup h.runnable h.idle
  refine ⟨fun hrun => ⟨fun hidle => ⟨fun _ => hswitch _ ?_ (fun q hq => ?_) ?_, fun _ => trivial⟩,
    fun _ => hkeep⟩, fun _ => hkeep⟩
  · rw [List.nodup_append]
    refine ⟨h.nodup, List.nodup_singleton _, fun a ha b hb hab => h.current ?_⟩
    rwa [← List.mem_singleton.mp hb, ← hab]
  · rcases List.mem_append.mp hq with hq | hq
    · exact h.runnable q hq
    · rw [List.mem_singleton.mp hq]
      exact hrun
  · simpa using ⟨h.idle, Ne.symm hidle⟩

/-! ## Waking several processes -/

/-- The state that `wakeup_proc` leaves. -/
def woken (s : Sched) (p : ℕ) : Sched :=
  if (s.proc p).state = .runnable then s
  else
    { s.modifyProc p fun g => { g with state := .runnable, waitState := 0 } with
      runList := if p = s.current ∨ p = idleproc then s.runList else s.runList ++ [p] }

/-- `wakeup_proc` and the class can take the process: it is no zombie, and not asleep in the queue. -/
def CanWake (s : Sched) (p : ℕ) : Prop :=
  (s.proc p).state ≠ .zombie ∧
    ((s.proc p).state ≠ .runnable → p ≠ s.current → p ≠ idleproc → p ∉ s.runList)

theorem wp_wakeupProc_eq (p : ℕ) (s : Sched) :
    Act.wp (wakeupProc p) (fun _ s' => s' = s.woken p) (fun _ => ¬ s.CanWake p) s := by
  simp only [wakeupProc, schedClassEnqueue, Act.wp_bind, Act.wp_require, Act.wp_get, Act.wp_ite,
    Act.wp_modify, Act.wp_pure, modifyProc_current, modifyProc_runList]
  refine ⟨fun _ => ⟨fun hs => ⟨fun hcur => ⟨fun hidle => ⟨fun _ => ?_, fun hq => ?_⟩,
    fun hidle => ?_⟩, fun hcur => ?_⟩, fun hs => ?_⟩, fun hz hwake => hz hwake.1⟩
  · rw [woken, if_neg hs, if_neg (by tauto)]
    rfl
  · exact fun hwake => hq (hwake.2 hs hcur hidle)
  · rw [woken, if_neg hs, if_pos (by tauto)]
    rfl
  · rw [woken, if_neg hs, if_pos (by tauto)]
    rfl
  · rw [woken, if_pos (not_not.mp hs)]

@[simp] theorem woken_current : (s.woken p).current = s.current := by
  unfold woken
  split <;> rfl

theorem woken_proc_of_ne {q : ℕ} (h : q ≠ p) : (s.woken p).proc q = s.proc q := by
  unfold woken
  split
  · rfl
  · exact Function.update_of_ne h ..

theorem woken_proc_self : (s.woken p).proc p =
    if (s.proc p).state = .runnable then s.proc p
    else { s.proc p with state := .runnable, waitState := 0 } := by
  unfold woken
  split
  · rfl
  · exact Function.update_self ..

theorem subset_woken_runList : s.runList ⊆ (s.woken p).runList := by
  intro q hq
  unfold woken
  split
  · exact hq
  · change q ∈ if _ then _ else _
    split
    · exact hq
    · exact List.mem_append_left _ hq

/-- Waking one process queues no other. -/
theorem mem_woken_runList {q : ℕ} (h : q ∈ (s.woken p).runList) : q = p ∨ q ∈ s.runList := by
  unfold woken at h
  split at h
  · exact .inr h
  · change q ∈ if _ then _ else _ at h
    split at h
    · exact .inr h
    · rcases List.mem_append.mp h with h | h
      · exact .inr h
      · exact .inl (List.mem_singleton.mp h)

/-- **`p` was woken** on the way from `s` to `s'`. -/
structure Roused (p : ℕ) (s s' : Sched) : Prop where
  state : (s'.proc p).state = .runnable
  asleep : (s.proc p).state ≠ .runnable →
    (s'.proc p).waitState = 0 ∧ (p ≠ s.current → p ≠ idleproc → p ∈ s'.runList)

/-- **Only processes of `P` were woken** on the way from `s` to `s'`. -/
structure Wakes (P : ℕ → Prop) (s s' : Sched) : Prop where
  current : s'.current = s.current
  runList : s.runList ⊆ s'.runList
  other : ∀ q, ¬ P q → s'.proc q = s.proc q
  runnable : ∀ q, (s.proc q).state = .runnable → s'.proc q = s.proc q

theorem Wakes.refl (P : ℕ → Prop) (s : Sched) : Wakes P s s :=
  ⟨rfl, fun _ => id, fun _ _ => rfl, fun _ _ => rfl⟩

theorem Wakes.trans {P : ℕ → Prop} {s' s'' : Sched} (h : Wakes P s s') (h' : Wakes P s' s'') :
    Wakes P s s'' where
  current := h'.current.trans h.current
  runList := fun _ hq => h'.runList (h.runList hq)
  other q hq := (h'.other q hq).trans (h.other q hq)
  runnable q hq := (h'.runnable q ((h.runnable q hq).symm ▸ hq)).trans (h.runnable q hq)

theorem Wakes.mono {P P' : ℕ → Prop} {s' : Sched} (h : Wakes P s s') (hP : ∀ q, P q → P' q) :
    Wakes P' s s' :=
  ⟨h.current, h.runList, fun q hq => h.other q fun hp => hq (hP q hp), h.runnable⟩

theorem wakes_woken : Wakes (· = p) s (s.woken p) where
  current := woken_current
  runList := subset_woken_runList
  other _ hq := woken_proc_of_ne hq
  runnable q hq := by
    rcases eq_or_ne q p with rfl | hqp
    · rw [woken_proc_self, if_pos hq]
    · exact woken_proc_of_ne hqp

theorem roused_woken : Roused p s (s.woken p) := by
  refine ⟨?_, fun hs => ⟨?_, fun hcur hidle => ?_⟩⟩
  · rw [woken_proc_self]
    split
    · assumption
    · rfl
  · rw [woken_proc_self, if_neg hs]
  · rw [woken, if_neg hs]
    change p ∈ if _ then _ else _
    rw [if_neg (by tauto)]
    exact List.mem_append_right _ (List.mem_singleton_self p)

/-- Waking others does not undo a wake-up. -/
theorem Roused.wakes {P : ℕ → Prop} {s' s'' : Sched} (h : Roused p s s') (h' : Wakes P s' s'') :
    Roused p s s'' := by
  have hp := h'.runnable p h.state
  refine ⟨hp.symm ▸ h.state, fun hs => ?_⟩
  obtain ⟨hw, hq⟩ := h.asleep hs
  exact ⟨hp.symm ▸ hw, fun hcur hidle => h'.runList (hq hcur hidle)⟩

/-- …and does not stand in for one. -/
theorem Roused.of_woken {q : ℕ} {s' : Sched} (hqp : q ≠ p) (h : Roused q (s.woken p) s') :
    Roused q s s' := by
  refine ⟨h.state, fun hs => ?_⟩
  have hw := h.asleep
  rw [woken_proc_of_ne hqp, woken_current] at hw
  exact hw hs

end Sched

end UCore
