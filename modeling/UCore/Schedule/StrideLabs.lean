import Mathlib
import UCore.Schedule.Stride

/-!
# Schedule/StrideLabs — the stride scheduler of lab 8, and that of lab 6

`kern/schedule/default_sched_stride.c` of lab 8 has the functions of lab 6, with one assertion more in
`stride_dequeue` and one test less in `stride_pick_next`:

    lab 6   stride += priority > 0 ? BIG_STRIDE / priority : BIG_STRIDE
    lab 8   stride += BIG_STRIDE / priority

`alloc_proc` leaves the priority at `0`, and `lab6_set_priority` never sets it to that.
-/

namespace UCore.Stride

/-- How a call of lab 8 fails to return. -/
inductive Lab8Stop where
  | stop (e : Stop)
  | divideByZero
  deriving DecidableEq, Repr

/-- The run queue of lab 8, and the processes whose `rq` is this one. -/
structure Lab8Rq where
  rq : StrideRq
  onRq : ℕ → Bool

/-- A call of lab 8. -/
abbrev Lab8Call (α : Type) := Act Lab8Rq Lab8Stop α

/-- What both labs have in common. -/
def onLab6 {α : Type} (m : Call α) : Lab8Call α :=
  Act.zoom Lab8Rq.rq (fun rq t => { t with rq := rq }) (Act.relay Lab8Stop.stop m)

/-- `stride_enqueue` of lab 8. -/
def lab8Enqueue (depth p : ℕ) : Lab8Call Unit := do
  onLab6 (strideEnqueue depth p)
  modify fun t => { t with onRq := Function.update t.onRq p true }

/-- `stride_dequeue` of lab 8. -/
def lab8Dequeue (depth p : ℕ) : Lab8Call Unit := do
  let t ← get
  Act.require (.stop .panic) (t.onRq p = true ∧ 0 < t.rq.procNum)
  onLab6 (strideDequeue depth p)

/-- `stride_pick_next` of lab 8. -/
def lab8PickNext : Lab8Call (Option ℕ) := do
  match (← get).rq.runPool with
  | none => return none
  | some p => do
    if ((← get).rq.proc p).priority = 0 then
      throw .divideByZero
    else
      modify fun t => { t with rq := modifyProc t.rq p fun g =>
        { g with stride := u32 (g.stride + BIG_STRIDE / g.priority), stride_lt := u32_lt _ } }
      return some p

/-- `lab6_set_priority`, which both labs have. -/
def lab6SetPriority (s : StrideRq) (p priority : ℕ) : StrideRq :=
  modifyProc s p fun g => { g with priority := if u32 priority = 0 then 1 else u32 priority }

/-- What is done with the class, and to the priority of a process. -/
inductive StrideOp where
  | setPriority (p priority : ℕ)
  | enqueue (p : ℕ)
  | pickNext
  | dequeue (p : ℕ)
  deriving DecidableEq, Repr

/-- An operation in lab 6; the result is that of the pick. -/
def lab6Step (depth : ℕ) : StrideOp → Call (Option ℕ)
  | .setPriority p priority => do
    modify fun s => lab6SetPriority s p priority
    return none
  | .enqueue p => do
    strideEnqueue depth p
    return none
  | .pickNext => stridePickNext
  | .dequeue p => do
    strideDequeue depth p
    return none

/-- An operation in lab 8. -/
def lab8Step (depth : ℕ) : StrideOp → Lab8Call (Option ℕ)
  | .setPriority p priority => do
    modify fun t => { t with rq := lab6SetPriority t.rq p priority }
    return none
  | .enqueue p => do
    lab8Enqueue depth p
    return none
  | .pickNext => lab8PickNext
  | .dequeue p => do
    lab8Dequeue depth p
    return none

/-- Operations one after the other. -/
def runOps {σ ε : Type} (step : StrideOp → Act σ ε (Option ℕ)) : List StrideOp →
    Act σ ε (List (Option ℕ))
  | [] => return []
  | op :: ops => do
    let r ← step op
    return r :: (← runOps step ops)

/-- A process as `alloc_proc` makes it. -/
def allocProc : StrideProc := ⟨0, by norm_num, 0, 0⟩

/-- An empty run queue, and processes as `alloc_proc` makes them. -/
def newRq (maxTimeSlice : ℤ) : StrideRq := ⟨fun _ => ⟨none, none, none⟩, none, 0, maxTimeSlice,
  fun _ => allocProc⟩

/-- The same in lab 8: no process has the run queue for its own. -/
def newLab8Rq (maxTimeSlice : ℤ) : Lab8Rq := ⟨newRq maxTimeSlice, fun _ => false⟩

/-- **Lab 8 does what lab 6 does**, as long as it does not stop, and does not stop at a division by zero:
the picks are the same, and so are the strides and all else. -/
def Agrees (depth : ℕ) (ops : List StrideOp) (t : Lab8Rq) : Prop :=
  match runOps (lab8Step depth) ops t with
  | .ok (picks, t') => runOps (lab6Step depth) ops t.rq = .ok (picks, t'.rq)
  | .error e => e ≠ .divideByZero

/-- **Whenever a process is about to be picked**, its priority is not `0`. -/
def Prioritized (depth : ℕ) : List StrideOp → Lab8Rq → Prop
  | [], _ => True
  | op :: ops, t => (op = .pickNext → ∀ p ∈ t.rq.runPool, (t.rq.proc p).priority ≠ 0) ∧
      ∀ r t', lab8Step depth op t = .ok (r, t') → Prioritized depth ops t'

variable {α : Type} {depth : ℕ} {op : StrideOp} {ops : List StrideOp} {s : StrideRq} {t : Lab8Rq}
  {p : ℕ}

theorem wp_onLab6 {m : Call α} {Q : α → Lab8Rq → Prop} {E : Lab8Stop → Prop}
    (hQ : ∀ a rq, m t.rq = .ok (a, rq) → Q a { t with rq := rq }) (hE : ∀ e, E (.stop e)) :
    Act.wp (onLab6 m) Q E t := by
  rw [onLab6, Act.wp_zoom, Act.wp_relay, Act.wp]
  cases hm : m t.rq with
  | ok r => exact hQ r.1 r.2 hm
  | error e => exact hE e

/-- A call without a result, as a step. -/
theorem step_of_ok {σ ε : Type} {m : Act σ ε Unit} {x x' : σ} (h : m x = .ok ((), x')) :
    (do m; return none : Act σ ε (Option ℕ)) x = .ok (none, x') := by
  simp only [bind, StateT.bind, Except.bind, h]
  rfl

/-- **One operation**: lab 8 does what lab 6 does, unless it picks a process without a priority. -/
theorem wp_lab8Step (h : op = .pickNext → ∀ p ∈ t.rq.runPool, (t.rq.proc p).priority ≠ 0) :
    Act.wp (lab8Step depth op) (fun r t' => lab6Step depth op t.rq = .ok (r, t'.rq))
      (fun e => e ≠ .divideByZero) t := by
  cases op with
  | setPriority p priority => rfl
  | enqueue p =>
    rw [lab8Step, lab8Enqueue, Act.wp_bind, Act.wp_bind]
    exact wp_onLab6 (fun _ rq hm => step_of_ok hm) fun _ => by simp
  | dequeue p =>
    rw [lab8Step, lab8Dequeue, Act.wp_bind, Act.wp_bind, Act.wp_get, Act.wp_bind, Act.wp_require]
    exact ⟨fun _ => wp_onLab6 (fun _ rq hm => step_of_ok hm) fun _ => by simp, fun _ => by simp⟩
  | pickNext =>
    rw [lab8Step, lab8PickNext, Act.wp_bind, Act.wp_get]
    cases hroot : t.rq.runPool with
    | none =>
      change stridePickNext t.rq = .ok (none, t.rq)
      simp only [stridePickNext, bind, StateT.bind, Except.bind, get, getThe, MonadStateOf.get,
        StateT.get, pure, Except.pure, hroot, StateT.pure]
    | some p =>
      have hne := h rfl p hroot
      have hpass : pass (t.rq.proc p).priority = BIG_STRIDE / (t.rq.proc p).priority :=
        if_pos (Nat.pos_of_ne_zero hne)
      dsimp only
      rw [Act.wp_bind, Act.wp_get, Act.wp_ite]
      refine ⟨fun hzero => absurd hzero hne, fun _ => ?_⟩
      rw [Act.wp_bind, Act.wp_modify, Act.wp_pure]
      simp only [lab6Step, stridePickNext, bind, StateT.bind, Except.bind, get, getThe,
        MonadStateOf.get, StateT.get, pure, Except.pure, hroot, StateT.pure, modify, modifyGet,
        MonadStateOf.modifyGet, StateT.modifyGet]
      simp only [modifyProc, hpass]

/-- A process without a priority cannot be picked in lab 8. -/
theorem lab8PickNext_zero (hroot : t.rq.runPool = some p) (hzero : (t.rq.proc p).priority = 0) :
    lab8PickNext t = .error .divideByZero := by
  refine Act.error_of_wp ?_
  rw [lab8PickNext, Act.wp_bind, Act.wp_get, hroot]
  dsimp only
  rw [Act.wp_bind, Act.wp_get, Act.wp_ite]
  exact ⟨fun _ => rfl, fun hno => absurd hzero hno⟩

theorem runOps_cons_ok {σ ε : Type} {step : StrideOp → Act σ ε (Option ℕ)} {x x' : σ} {r : Option ℕ}
    (h : step op x = .ok (r, x')) : runOps step (op :: ops) x =
      (runOps step ops x').map fun q => (r :: q.1, q.2) := by
  rw [runOps]
  simp only [bind, StateT.bind, Except.bind, h]
  cases runOps step ops x' <;> rfl

theorem runOps_cons_error {σ ε : Type} {step : StrideOp → Act σ ε (Option ℕ)} {x : σ} {e : ε}
    (h : step op x = .error e) : runOps step (op :: ops) x = .error e := by
  rw [runOps]
  simp only [bind, StateT.bind, Except.bind, h]

/-- **The two labs agree exactly where no process is picked before it has a priority.**  For every run
over processes that `alloc_proc` has made. -/
theorem agrees_iff (depth : ℕ) (maxTimeSlice : ℤ) (ops : List StrideOp) :
    Agrees depth ops (newLab8Rq maxTimeSlice) ↔ Prioritized depth ops (newLab8Rq maxTimeSlice) := by
  generalize newLab8Rq maxTimeSlice = t
  induction ops generalizing t with
  | nil => exact ⟨fun _ => trivial, fun _ => rfl⟩
  | cons op ops ih =>
    by_cases h : op = .pickNext → ∀ p ∈ t.rq.runPool, (t.rq.proc p).priority ≠ 0
    · have hstep : Act.wp (lab8Step depth op) _ _ t := wp_lab8Step h
      cases hrun : lab8Step depth op t with
      | ok r =>
        have hlab6 := Act.wp_of_ok hstep hrun
        have hagree : Agrees depth (op :: ops) t ↔ Agrees depth ops r.2 := by
          rw [Agrees, Agrees, runOps_cons_ok hrun, runOps_cons_ok hlab6]
          cases runOps (lab8Step depth) ops r.2 with
          | error e => rfl
          | ok q =>
            cases runOps (lab6Step depth) ops r.2.rq with
            | error e => simp [Except.map]
            | ok q' => simp [Except.map, Prod.ext_iff]
        rw [hagree, ih, Prioritized]
        refine ⟨fun hp => ⟨h, fun r' t' heq => ?_⟩, fun hp => hp.2 r.1 r.2 hrun⟩
        rw [hrun] at heq
        obtain rfl : r = (r', t') := Except.ok.inj heq
        exact hp
      | error e =>
        have hne := Act.wp_of_error hstep hrun
        rw [Agrees, runOps_cons_error hrun]
        refine ⟨fun _ => ⟨h, fun r' t' heq => ?_⟩, fun _ => hne⟩
        rw [hrun] at heq
        exact nomatch heq
    · -- the root has no priority: lab 8 divides by it
      have hbad : ∃ p, t.rq.runPool = some p ∧ (t.rq.proc p).priority = 0 := by
        push Not at h
        obtain ⟨-, p, hp, hzero⟩ := h
        exact ⟨p, hp, hzero⟩
      obtain ⟨p, hroot, hzero⟩ := hbad
      have hop : op = .pickNext := by
        push Not at h
        exact h.1
      subst hop
      have hstop : runOps (lab8Step depth) (.pickNext :: ops) t = .error .divideByZero :=
        runOps_cons_error (lab8PickNext_zero hroot hzero)
      rw [Agrees, hstop]
      exact ⟨fun hno => absurd rfl hno, fun hp => absurd hp.1 h⟩

/-- A process is picked before it has a priority. -/
theorem not_agrees_new : ¬ Agrees 2 [.enqueue 1, .pickNext] (newLab8Rq 5) := by
  have hrun : runOps (lab8Step 2) [.enqueue 1, .pickNext] (newLab8Rq 5) = .error .divideByZero := rfl
  rw [Agrees, hrun]
  exact fun hno => hno rfl

/-! ## Which processes have a priority -/

/-- A call of the skew heap changes no process. -/
theorem wp_onPool_proc {α : Type} {m : SkewHeap.Call ℕ α} :
    Act.wp (onPool m) (fun _ s' => s'.proc = s.proc) (fun _ => True) s := by
  rw [onPool, Act.wp_zoom, Act.wp]
  cases m s.pool <;> trivial

theorem modifyProc_priority {f : StrideProc → StrideProc} (hf : ∀ g, (f g).priority = g.priority) (q : ℕ) :
    ((modifyProc s p f).proc q).priority = (s.proc q).priority := by
  rw [modifyProc_proc]
  split
  · next hq => rw [hf, hq]
  · rfl

/-- **The class changes no priority**, and `lab6_set_priority` gives one. -/
theorem wp_lab6Step_priority : Act.wp (lab6Step depth op) (fun _ s' => ∀ q,
    (s'.proc q).priority ≠ 0 ↔ (s.proc q).priority ≠ 0 ∨ ∃ n, op = .setPriority q n)
    (fun _ => True) s := by
  have hkeep : ∀ op', (∀ q n, op' ≠ StrideOp.setPriority q n) → ∀ s' : StrideRq, (∀ q, (s'.proc q).priority =
      (s.proc q).priority) → ∀ q, (s'.proc q).priority ≠ 0 ↔ (s.proc q).priority ≠ 0 ∨
        ∃ n, op' = StrideOp.setPriority q n := fun op' hno s' hs' q => by
    rw [hs' q]
    exact ⟨.inl, fun h => h.resolve_right fun ⟨n, hn⟩ => hno q n hn⟩
  cases op with
  | setPriority p n =>
    intro q
    change ((lab6SetPriority s p n).proc q).priority ≠ 0 ↔ _
    rw [lab6SetPriority, modifyProc_proc]
    by_cases hq : q = p
    · subst hq
      rw [if_pos rfl]
      refine ⟨fun _ => .inr ⟨n, rfl⟩, fun _ => ?_⟩
      dsimp only
      split
      · exact one_ne_zero
      · next hne => exact hne
    · rw [if_neg hq]
      exact ⟨.inl, fun h => h.resolve_right fun ⟨m, hm⟩ => hq (StrideOp.setPriority.inj hm).1.symm⟩
  | enqueue p =>
    simp only [lab6Step, strideEnqueue, Act.wp_bind, Act.wp_get]
    refine Act.wp_mono wp_onPool_proc (fun r s₁ h₁ => ?_) fun _ => id
    simp only [Act.wp_modify, Act.wp_bind, Act.wp_ite, Act.wp_pure]
    refine ⟨fun _ => hkeep _ (by simp) _ fun q => ?_, fun _ => hkeep _ (by simp) _ fun q => ?_⟩
    · rw [← h₁]
      refine modifyProc_priority ?_ q
      exact fun _ => rfl
    · rw [← h₁]
  | pickNext =>
    rw [lab6Step, stridePickNext, Act.wp_bind, Act.wp_get]
    cases s.runPool with
    | none => exact hkeep _ (by simp) _ fun q => rfl
    | some p =>
      dsimp only
      rw [Act.wp_bind, Act.wp_modify, Act.wp_pure]
      refine hkeep _ (by simp) _ fun q => modifyProc_priority ?_ q
      exact fun _ => rfl
  | dequeue p =>
    simp only [lab6Step, strideDequeue, Act.wp_bind, Act.wp_get]
    refine Act.wp_mono wp_onPool_proc (fun r s₁ h₁ => ?_) fun _ => id
    exact hkeep _ (by simp) _ fun q => congrArg (fun f => (f q).priority) h₁

/-- **A process has a priority from the first `lab6_set_priority` on.** -/
theorem wp_runOps_priority : Act.wp (runOps (lab6Step depth) ops) (fun _ s' => ∀ q,
    (s'.proc q).priority ≠ 0 ↔ (s.proc q).priority ≠ 0 ∨ ∃ n, .setPriority q n ∈ ops)
    (fun _ => True) s := by
  induction ops generalizing s with
  | nil => simp [runOps]
  | cons op ops ih =>
    rw [runOps, Act.wp_bind]
    refine Act.wp_mono wp_lab6Step_priority (fun r s₁ h₁ => ?_) fun _ => id
    rw [Act.wp_bind]
    refine Act.wp_mono ih (fun rs s₂ h₂ q => ?_) fun _ => id
    rw [h₂ q, h₁ q, or_assoc, ← exists_or]
    simp only [List.mem_cons, eq_comm]

end UCore.Stride
