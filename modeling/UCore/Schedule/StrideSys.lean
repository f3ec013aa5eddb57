import UCore.Schedule.Sched
import UCore.Schedule.Stride

/-!
# Schedule/StrideSys — stride scheduling of processes that come and go

`schedule`, `wakeup_proc` and what creates, suspends and ends processes, over the stride class.  A
process contends while it is runnable: it is in the heap or it is the one that runs.

    fork (stride 0), wake-up (the old stride)  ──▸  contenders  ──▸  sleep, exit

A pick keeps the exact strides of the contenders within `BIG_STRIDE`.  An arrival keeps them there
only if it happens to be close, for nothing adjusts the stride of a process that arrives: then the
comparison turns round, and the heap picks the process that is furthest ahead.
-/

namespace UCore

open SkewTree BinaryTree SkewHeap Stride

/-- The run queue, the process states, and `current`. -/
structure StrideSys where
  rq : StrideRq
  state : ℕ → ProcState
  current : ℕ

namespace StrideSys

/-- An interrupt-disabled section. -/
abbrev Call (α : Type) := Act StrideSys Stop α

/-- A call of the scheduler class. -/
def onRq {α : Type} (m : Stride.Call α) : Call α :=
  Act.zoom (fun s : StrideSys => s.rq) (fun rq s => { s with rq := rq }) m

/-- Change the state of a process. -/
def setState (s : StrideSys) (p : ℕ) (c : ProcState) : StrideSys :=
  { s with state := Function.update s.state p c }

/-- `sched_class_enqueue`. -/
def schedClassEnqueue (depth p : ℕ) : Call Unit := do
  if p ≠ idleproc then onRq (strideEnqueue depth p)

/-- `wakeup_proc`. -/
def wakeupProc (depth p : ℕ) : Call Unit := do
  Act.require .panic ((← get).state p ≠ .zombie)
  if (← get).state p ≠ .runnable then
    modify fun s => s.setState p .runnable
    if p ≠ (← get).current then schedClassEnqueue depth p

/-- `schedule`; the result is what the class picked. -/
def schedule (depth : ℕ) : Call (Option ℕ) := do
  let s ← get
  if s.state s.current = .runnable then schedClassEnqueue depth s.current
  let next ← onRq do
    match ← stridePickNext with
    | none => return none
    | some p => do
      strideDequeue depth p
      return some p
  modify fun s => { s with current := next.getD idleproc }
  return next

/-- The fields that `alloc_proc` sets. -/
def allocProc (p : ℕ) : Call Unit :=
  modify fun s => { s.setState p .uninit with
    rq := { s.rq with
      pool := Function.update s.rq.pool p ⟨none, none, none⟩
      proc := Function.update s.rq.proc p ⟨0, stride_zero_lt, 0, 0⟩ } }

/-- `do_fork`, as far as the scheduler sees it. -/
def doFork (depth p : ℕ) : Call Unit := do
  allocProc p
  wakeupProc depth p

/-- `lab6_set_priority`. -/
def lab6SetPriority (priority : ℕ) : Call Unit :=
  modify fun s => { s with
    rq := modifyProc s.rq s.current fun g => { g with priority := if priority = 0 then 1 else priority } }

/-- What a process does to its own state before it calls `schedule`. -/
def leave (c : ProcState) : Call Unit := modify fun s => s.setState s.current c

/-! ## Steps -/

/-- A step of the kernel: `leave` is a process that goes to sleep or exits. -/
inductive Op where
  | fork (p : ℕ)
  | setPriority (priority : ℕ)
  | leave (c : ProcState)
  | wake (p : ℕ)
  | schedule

/-- A call returns, given enough depth for the recursion of the heap. -/
def Returns {α : Type} (m : ℕ → Call α) (s : StrideSys) (a : α) (s' : StrideSys) : Prop :=
  ∃ d, ∀ depth ≥ d, m depth s = .ok (a, s')

/-- The exact strides after a pick, if there was one. -/
def afterPick (U : ℕ → ℕ) (s : StrideSys) : Option ℕ → ℕ → ℕ
  | none => U
  | some p => picked U s.rq.proc p

/-- **One step**, with the exact strides `U` beside it: a new process starts at zero, and a picked one
moves by its pass. -/
inductive Step (U : ℕ → ℕ) (s : StrideSys) : Op → (ℕ → ℕ) → StrideSys → Prop
  | fork {p : ℕ} {s' : StrideSys} (hidle : p ≠ idleproc) (hcur : p ≠ s.current)
      (hfree : s.state p = .uninit ∨ s.state p = .zombie)
      (hrun : Returns (doFork · p) s () s') : Step U s (.fork p) (Function.update U p 0) s'
  | setPriority {priority : ℕ} {s' : StrideSys} (hrun : lab6SetPriority priority s = .ok ((), s')) :
      Step U s (.setPriority priority) U s'
  | leave {c : ProcState} {s' : StrideSys} (hidle : s.current ≠ idleproc)
      (hc : c = .sleeping ∨ c = .zombie) (hrun : StrideSys.leave c s = .ok ((), s')) :
      Step U s (.leave c) U s'
  | wake {p : ℕ} {s' : StrideSys} (hinit : s.state p ≠ .uninit)
      (hrun : Returns (wakeupProc · p) s () s') : Step U s (.wake p) U s'
  | schedule {o : Option ℕ} {s' : StrideSys} (hrun : Returns StrideSys.schedule s o s') :
      Step U s .schedule (afterPick U s o) s'

/-- **The process contends for the processor.** -/
def Contends (s : StrideSys) (p : ℕ) : Prop := p ≠ idleproc ∧ s.state p = .runnable

/-- **An arrival that is close**: a process that starts to contend does so within `BIG_STRIDE` of
all that do. -/
def Close (U : ℕ → ℕ) (s : StrideSys) : Op → Prop
  | .fork _ => ∀ q, Contends s q → U q ≤ BIG_STRIDE
  | .wake p => p ≠ idleproc → s.state p ≠ .runnable →
      ∀ q, Contends s q → U p ≤ U q + BIG_STRIDE ∧ U q ≤ U p + BIG_STRIDE
  | _ => True

/-- **A run** from the boot of the scheduler, each step of which meets a condition. -/
inductive Run (meets : (ℕ → ℕ) → StrideSys → Op → Prop) (s₀ : StrideSys) :
    (ℕ → ℕ) → StrideSys → Prop
  | boot (hpool : s₀.rq.runPool = none) (hcur : s₀.current = idleproc)
      (hstate : ∀ p, p ≠ idleproc → s₀.state p = .uninit) :
      Run meets s₀ (fun p => (s₀.rq.proc p).stride) s₀
  | step {U U' : ℕ → ℕ} {op : Op} {s s' : StrideSys} (hrun : Run meets s₀ U s)
      (hmeets : meets U s op) (hstep : Step U s op U' s') : Run meets s₀ U' s'

/-! ## The contenders stay close -/

variable {U U' : ℕ → ℕ} {s s' s₀ : StrideSys} {t : BinaryTree ℕ} {p q depth : ℕ}

/-- **The contenders**: those that do not run are in the heap, and no two are far apart. -/
structure Balanced (U : ℕ → ℕ) (s : StrideSys) (t : BinaryTree ℕ) : Prop where
  pool : Pool U s.rq t
  mem : ∀ p, p ∈ nodes t ↔ Contends s p ∧ p ≠ s.current
  wraps : Wraps U s.rq.proc
  spread : ∀ p q, Contends s p → Contends s q → U p ≤ U q + BIG_STRIDE

/-- A heap is read off its own nodes. -/
theorem pool_congr {rq rq' : StrideRq} (h : Pool U rq t) (hpool : ∀ y ∈ nodes t, rq'.pool y = rq.pool y)
    (hrun : rq'.runPool = rq.runPool) (hU : ∀ y ∈ nodes t, U' y = U y) : Pool U' rq' t where
  tree := hrun ▸ h.tree.congr hpool
  root c hc := by
    rw [hrun] at hc
    rw [hpool c (h.tree.mem_nodes hc)]
    exact h.root c hc
  nodup := h.nodup
  heap := h.heap.congr fun x hx y hy hxy => by
    rw [Le, hU x hx, hU y hy]
    exact hxy

/-- **A process starts to contend**, and is close. -/
theorem wp_enqueue {rq : StrideRq} (ht : Pool U rq t) (hw : Wraps U rq.proc) (hp : p ∉ nodes t)
    (hps : Spread U (p :: nodes t)) (hdepth : t.numNodes + 1 < depth) :
    Act.wp (strideEnqueue depth p)
      (fun _ rq' => Wraps U rq'.proc ∧ (∀ q, (rq'.proc q).priority = (rq.proc q).priority) ∧
        ∃ t', Pool U rq' t' ∧ (∀ q, q ∈ nodes t' ↔ q = p ∨ q ∈ nodes t) ∧
          t'.numNodes = t.numNodes + 1)
      (fun _ => False) rq := by
  refine Act.wp_mono (wp_strideEnqueue ht hw hp hps hdepth) (fun _ rq' ⟨hs, t', ht', hperm⟩ => ?_)
    fun _ => id
  refine ⟨hw.congr hs, fun q => (hs q).2, t', ht', fun q => ?_, ?_⟩
  · rw [hperm.mem_iff, List.mem_cons]
  · rw [← length_nodes, hperm.length_eq, List.length_cons, length_nodes]

/-- `sched_class_enqueue`, which leaves `idleproc` out. -/
theorem wp_schedClassEnqueue (ht : Pool U s.rq t) (hw : Wraps U s.rq.proc) (hp : p ∉ nodes t)
    (hps : p ≠ idleproc → Spread U (p :: nodes t)) (hdepth : t.numNodes + 1 < depth) :
    Act.wp (schedClassEnqueue depth p)
      (fun _ s' => s'.state = s.state ∧ s'.current = s.current ∧ Wraps U s'.rq.proc ∧
        (∀ q, (s'.rq.proc q).priority = (s.rq.proc q).priority) ∧
        ∃ t', Pool U s'.rq t' ∧ (∀ q, q ∈ nodes t' ↔ q = p ∧ p ≠ idleproc ∨ q ∈ nodes t) ∧
          t'.numNodes ≤ t.numNodes + 1)
      (fun _ => False) s := by
  rw [schedClassEnqueue, Act.wp_ite, onRq, Act.wp_zoom]
  refine ⟨fun hidle => ?_, fun hidle => ?_⟩
  · refine Act.wp_mono (wp_enqueue ht hw hp (hps hidle) hdepth)
      (fun _ rq' ⟨hw', hprio, t', ht', hmem, hlen⟩ => ?_) fun _ => id
    exact ⟨rfl, rfl, hw', hprio, t', ht', fun q => by rw [hmem, and_iff_left hidle], hlen.le⟩
  · exact ⟨rfl, rfl, hw, fun _ => rfl, t, ht, fun q => by simp [hidle], Nat.le_succ _⟩

theorem contends_setState_runnable :
    Contends (s.setState p .runnable) q ↔ Contends s q ∨ q = p ∧ p ≠ idleproc := by
  unfold Contends setState
  dsimp only
  rw [Function.update_apply]
  split
  · next hq =>
    subst hq
    tauto
  · next hq => simp [hq]

/-- The contenders are decided by the process states. -/
theorem balanced_of (hstate : s'.state = s.state) (ht : Pool U s'.rq t)
    (hmem : ∀ q, q ∈ nodes t ↔ Contends s q ∧ q ≠ s'.current) (hw : Wraps U s'.rq.proc)
    (hsp : ∀ p q, Contends s p → Contends s q → U p ≤ U q + BIG_STRIDE) : Balanced U s' t := by
  have hiff : ∀ q, Contends s' q ↔ Contends s q := fun q => by rw [Contends, Contends, hstate]
  exact ⟨ht, fun q => by rw [hmem, hiff], hw,
    fun p q hp hq => hsp p q ((hiff p).mp hp) ((hiff q).mp hq)⟩

/-- **A wake-up that is close** keeps the contenders close. -/
theorem wp_wakeupProc (h : Balanced U s t) (hclose : Close U s (.wake p))
    (hdepth : t.numNodes + 1 < depth) :
    Act.wp (wakeupProc depth p) (fun _ s' => ∃ t', Balanced U s' t') (fun _ => True) s := by
  rw [wakeupProc]
  simp only [Act.wp_bind, Act.wp_get, Act.wp_require, Act.wp_ite, Act.wp_modify, Act.wp_pure]
  refine ⟨fun _ => ⟨fun hrun => ?_, fun _ => ⟨t, h⟩⟩, fun _ => trivial⟩
  have hspread : ∀ x y, Contends (s.setState p .runnable) x → Contends (s.setState p .runnable) y →
      U x ≤ U y + BIG_STRIDE := by
    intro x y hx hy
    rcases contends_setState_runnable.mp hx with hx | ⟨hxp, hidle⟩ <;>
      rcases contends_setState_runnable.mp hy with hy | ⟨hyp, hidle'⟩
    · exact h.spread x y hx hy
    · exact hyp ▸ (hclose hidle' hrun x hx).2
    · exact hxp ▸ (hclose hidle hrun y hy).1
    · exact hxp ▸ hyp ▸ Nat.le_add_right ..
  have hnot : p ∉ nodes t := fun hmem => hrun ((h.mem p).mp hmem).1.2
  have hold : ∀ x ∈ nodes t, Contends (s.setState p .runnable) x := fun x hx =>
    contends_setState_runnable.mpr (.inl ((h.mem x).mp hx).1)
  refine ⟨fun hcur => ?_, fun hcur => ?_⟩
  · refine Act.wp_mono (wp_schedClassEnqueue (s := s.setState p .runnable) h.pool h.wraps hnot
      (fun hidle x hx y hy => ?_) hdepth)
      (fun _ s' hs' => ?_) fun _ => False.elim
    · have hself : Contends (s.setState p .runnable) p :=
        contends_setState_runnable.mpr (.inr ⟨rfl, hidle⟩)
      refine hspread x y ?_ ?_
      · exact (List.mem_cons.mp hx).elim (fun hx => hx ▸ hself) (hold x)
      · exact (List.mem_cons.mp hy).elim (fun hy => hy ▸ hself) (hold y)
    · obtain ⟨hstate, hc, hw, _, t', ht', hmem, -⟩ := hs'
      refine ⟨t', balanced_of hstate ht' (fun q => ?_) hw hspread⟩
      rw [hmem, h.mem, hc, contends_setState_runnable]
      change _ ↔ _ ∧ q ≠ s.current
      constructor
      · rintro (⟨rfl, hidle⟩ | ⟨hq, hqc⟩)
        · exact ⟨.inr ⟨rfl, hidle⟩, hcur⟩
        · exact ⟨.inl hq, hqc⟩
      · rintro ⟨hq | hq, hqc⟩
        · exact .inr ⟨hq, hqc⟩
        · exact .inl hq
  · have hcur : p = s.current := not_not.mp hcur
    refine ⟨t, h.pool, fun q => ?_, h.wraps, hspread⟩
    rw [h.mem, contends_setState_runnable]
    change _ ↔ _ ∧ q ≠ s.current
    constructor
    · exact fun hq => ⟨.inl hq.1, hq.2⟩
    · rintro ⟨hq | ⟨rfl, -⟩, hqc⟩
      · exact ⟨hq, hqc⟩
      · exact absurd hcur hqc

/-- **A new process** starts at stride zero. -/
theorem balanced_allocProc (h : Balanced U s t) (hfree : s.state p ≠ .runnable) :
    Act.wp (allocProc p) (fun _ s' => Balanced (Function.update U p 0) s' t ∧
      s'.current = s.current ∧ ∀ q, Contends s' q ↔ Contends s q) (fun _ => False) s := by
  have hcont : ∀ q, Contends s q → q ≠ p := fun q hq hqp => hfree (hqp ▸ hq.2)
  have hmem : ∀ q ∈ nodes t, q ≠ p := fun q hq => hcont q ((h.mem q).mp hq).1
  rw [allocProc, Act.wp_modify]
  have hiff : ∀ q, q ≠ idleproc ∧ Function.update s.state p .uninit q = .runnable ↔ Contends s q := by
    intro q
    rw [Function.update_apply]
    split
    · next hq => exact iff_of_false (by simp) fun hc => hcont q hc hq
    · exact Iff.rfl
  refine ⟨⟨pool_congr h.pool (fun y hy => Function.update_of_ne (hmem y hy) ..) rfl
    fun y hy => Function.update_of_ne (hmem y hy) .., fun q => ?_, fun q => ?_, fun x y hx hy => ?_⟩,
    rfl, hiff⟩
  · rw [h.mem]
    exact and_congr_left fun _ => (hiff q).symm
  · dsimp only
    rw [Function.update_apply, Function.update_apply]
    split
    · rfl
    · exact h.wraps q
  · have hx' := (hiff x).mp hx
    have hy' := (hiff y).mp hy
    rw [Function.update_of_ne (hcont x hx'), Function.update_of_ne (hcont y hy')]
    exact h.spread x y hx' hy'

/-- **`schedule`** picks a contender whose exact stride is least, if there is one. -/
theorem wp_schedule (h : Balanced U s t) (hdepth : t.numNodes + 2 < depth) :
    Act.wp (schedule depth)
      (fun o s' => (∃ t', Balanced (afterPick U s o) s' t') ∧
        (o = none → ∀ p, ¬ Contends s p) ∧
        ∀ p, o = some p → Contends s p ∧ ∀ q, Contends s q → U p ≤ U q)
      (fun _ => False) s := by
  -- all contenders are in the heap once the one that runs is back
  have hpick : ∀ s₁ : StrideSys, s₁.state = s.state → Wraps U s₁.rq.proc →
      (∀ q, (s₁.rq.proc q).priority = (s.rq.proc q).priority) →
      (∃ t₁, Pool U s₁.rq t₁ ∧ (∀ q, q ∈ nodes t₁ ↔ Contends s q) ∧
        t₁.numNodes ≤ t.numNodes + 1) →
      Act.wp (do
        let next ← onRq do
          match ← stridePickNext with
          | none => return none
          | some p => do
            strideDequeue depth p
            return some p
        modify fun s => { s with current := next.getD idleproc }
        return next)
        (fun o s' => (∃ t', Balanced (afterPick U s o) s' t') ∧
          (o = none → ∀ p, ¬ Contends s p) ∧
          ∀ p, o = some p → Contends s p ∧ ∀ q, Contends s q → U p ≤ U q)
        (fun _ => False) s₁ := by
    rintro s₁ hstate hw hprio ⟨t₁, ht₁, hmem, hlen⟩
    have hsp : Spread U (nodes t₁) := fun x hx y hy =>
      h.spread x y ((hmem x).mp hx) ((hmem y).mp hy)
    rw [Act.wp_bind, onRq, Act.wp_zoom]
    refine wp_pick (f := pure) ht₁ hw hsp (by omega) (fun htn => ?_) fun p rq' hp hmin _ hw' hpool => ?_
    · subst htn
      have hno : ∀ q, ¬ Contends s q := fun q hq => List.not_mem_nil ((hmem q).mpr hq)
      refine ⟨⟨.nil, balanced_of hstate ht₁ (fun q => ?_) hw h.spread⟩, fun _ => hno,
        fun _ hp => by cases hp⟩
      exact iff_of_false List.not_mem_nil fun hq => hno q hq.1
    · obtain ⟨t₂, ht₂, hperm⟩ := hpool
      have hU : picked U s₁.rq.proc p = picked U s.rq.proc p := by
        rw [picked, picked, hprio]
      rw [hU] at ht₂ hw'
      obtain ⟨hp₂, -⟩ := List.nodup_cons.mp (hperm.nodup_iff.mpr ht₁.nodup)
      refine ⟨⟨t₂, balanced_of hstate ht₂ (fun q => ?_) hw' fun x y hx hy => ?_⟩, fun h => (by cases h),
        fun _ heq => ?_⟩
      · change _ ↔ _ ∧ q ≠ p
        rw [← hmem, ← hperm.mem_iff, List.mem_cons]
        constructor
        · exact fun hq => ⟨.inr hq, ne_of_mem_of_not_mem hq hp₂⟩
        · exact fun hq => hq.1.resolve_left hq.2
      · exact hsp.picked hmin x ((hmem x).mpr hx) y ((hmem y).mpr hy)
      · obtain rfl : p = _ := Option.some.inj heq
        exact ⟨(hmem p).mp hp, fun q hq => hmin q ((hmem q).mpr hq)⟩
  rw [schedule, Act.wp_bind, Act.wp_get]
  dsimp only
  rw [Act.wp_ite]
  refine ⟨fun hrun => ?_, fun hrun => ?_⟩
  · rw [Act.wp_bind]
    have hnot : s.current ∉ nodes t := fun hmem => ((h.mem _).mp hmem).2 rfl
    refine Act.wp_mono (wp_schedClassEnqueue h.pool h.wraps hnot (fun hidle x hx y hy => ?_)
      (by omega)) (fun _ s₁ hs₁ => ?_) fun _ => id
    · have hcont : ∀ x ∈ s.current :: nodes t, Contends s x := fun x hx =>
        (List.mem_cons.mp hx).elim (fun hx => hx ▸ ⟨hidle, hrun⟩) fun hx => ((h.mem x).mp hx).1
      exact h.spread x y (hcont x hx) (hcont y hy)
    · obtain ⟨hstate, -, hw, hprio, t₁, ht₁, hmem, hlen⟩ := hs₁
      refine hpick s₁ hstate hw hprio ⟨t₁, ht₁, fun q => ?_, hlen⟩
      rw [hmem, h.mem]
      rcases eq_or_ne q s.current with rfl | hq
      · simp [Contends, hrun]
      · simp [hq]
  · refine hpick s rfl h.wraps (fun _ => rfl) ⟨t, h.pool, fun q => ?_, Nat.le_succ _⟩
    rw [h.mem]
    exact and_iff_left_of_imp fun hq hqc => hrun (hqc ▸ hq.2)

/-! ## Runs -/

/-- A call that returns at every large depth is judged at one of them. -/
theorem Returns.of_wp {α : Type} {m : ℕ → Call α} {Q : α → StrideSys → Prop} {E : Stop → Prop} {n : ℕ}
    {a : α} (h : Returns m s a s') (hwp : ∀ depth, n < depth → Act.wp (m depth) Q E s) : Q a s' := by
  obtain ⟨d, hd⟩ := h
  exact Act.wp_of_ok (hwp (max d (n + 1)) (by omega)) (hd _ (le_max_left ..))

/-- **A new process that is close** keeps the contenders close. -/
theorem wp_doFork (h : Balanced U s t) (hp : s.state p ≠ .runnable)
    (hclose : Close U s (.fork p)) (hdepth : t.numNodes + 1 < depth) :
    Act.wp (doFork depth p) (fun _ s' => ∃ t', Balanced (Function.update U p 0) s' t')
      (fun _ => True) s := by
  rw [doFork, Act.wp_bind]
  refine Act.wp_mono (balanced_allocProc h hp) (fun _ s₁ ⟨h₁, _, hcont⟩ => ?_) fun _ => False.elim
  refine wp_wakeupProc h₁ (fun _ hrun q hq => ?_) hdepth
  have hqp : q ≠ p := fun hqp => hrun (hqp ▸ hq.2)
  rw [Function.update_self, Function.update_of_ne hqp, Nat.zero_add]
  exact ⟨Nat.zero_le _, hclose q ((hcont q).mp hq)⟩

/-- A priority changes no stride. -/
theorem wp_lab6SetPriority (h : Balanced U s t) (priority : ℕ) :
    Act.wp (lab6SetPriority priority) (fun _ s' => ∃ t', Balanced U s' t') (fun _ => False) s := by
  rw [lab6SetPriority, Act.wp_modify]
  refine ⟨t, balanced_of rfl (pool_congr h.pool (fun _ _ => rfl) rfl fun _ _ => rfl) h.mem
    (fun q => ?_) h.spread⟩
  dsimp only
  rw [modifyProc_proc]
  split
  · next hq => exact hq ▸ h.wraps q
  · exact h.wraps q

/-- A process that stops contending leaves the others close. -/
theorem wp_leave (h : Balanced U s t) {c : ProcState} (hc : c ≠ .runnable) :
    Act.wp (leave c) (fun _ s' => ∃ t', Balanced U s' t') (fun _ => False) s := by
  rw [leave, Act.wp_modify]
  have hiff : ∀ q, Contends (s.setState s.current c) q ↔ Contends s q ∧ q ≠ s.current := fun q => by
    unfold Contends setState
    dsimp only
    rw [Function.update_apply]
    split
    · next hq => exact iff_of_false (fun h => hc h.2) fun h => h.2 hq
    · next hq => exact (and_iff_left hq).symm
  refine ⟨t, h.pool, fun q => ?_, h.wraps, fun x y hx hy => ?_⟩
  · rw [h.mem, hiff]
    exact ⟨fun hq => ⟨hq, hq.2⟩, And.left⟩
  · exact h.spread x y ((hiff x).mp hx).1 ((hiff y).mp hy).1

/-- **The step lemma**: with close arrivals, every step keeps the contenders close. -/
theorem Step.balanced {op : Op} (h : Balanced U s t) (hclose : Close U s op)
    (hstep : Step U s op U' s') : ∃ t', Balanced U' s' t' := by
  cases hstep with
  | @fork p _ hidle hcur hfree hrun =>
    have hp : s.state p ≠ .runnable := by rcases hfree with hp | hp <;> simp [hp]
    exact hrun.of_wp fun _ => wp_doFork h hp hclose
  | setPriority hrun => exact Act.wp_of_ok (wp_lab6SetPriority h _) hrun
  | leave hidle hc hrun =>
    refine Act.wp_of_ok (wp_leave h ?_) hrun
    rcases hc with rfl | rfl <;> simp
  | @wake p _ hinit hrun => exact hrun.of_wp fun _ => wp_wakeupProc h hclose
  | schedule hrun => exact (hrun.of_wp fun _ => wp_schedule h).1

theorem Run.balanced (hrun : Run Close s₀ U s) : ∃ t, Balanced U s t := by
  induction hrun with
  | boot hpool hcur hstate =>
    have hno : ∀ p, ¬ Contends s₀ p := fun p hp => by simpa [hstate p hp.1] using hp.2
    exact ⟨.nil, ⟨hpool, fun c hc => absurd (hpool ▸ hc) (Option.not_mem_none c), List.nodup_nil,
      trivial⟩, fun p => iff_of_false List.not_mem_nil fun hp => hno p hp.1,
      fun p => (Nat.mod_eq_of_lt (s₀.rq.proc p).stride_lt).symm, fun p q hp => absurd hp (hno p)⟩
  | step _ hclose hstep ih =>
    obtain ⟨t, h⟩ := ih
    exact hstep.balanced h hclose

/-- **Stride scheduling of a changing set.**  As long as every arrival is close to the contenders,
in every state the queue holds contenders only, their exact strides are within `BIG_STRIDE`, the
comparison orders them as their exact strides do, and `schedule` returns and picks one whose exact
stride is least, or none if there is none. -/
theorem stride_sys_run (hrun : Run Close s₀ U s) :
    (∃ t, IsTree s.rq.pool s.rq.runPool t ∧ ∀ p ∈ nodes t, Contends s p) ∧
    (∀ p q, Contends s p → Contends s q → U p ≤ U q + BIG_STRIDE) ∧
    (∀ p q, Contends s p → Contends s q →
      procStrideComp s.rq.proc p q = ((U p : ℤ) - U q).sign) ∧
    ∃ d, ∀ depth ≥ d, ∃ o s', schedule depth s = .ok (o, s') ∧
      (o = none → ∀ p, ¬ Contends s p) ∧
      ∀ p, o = some p → Contends s p ∧ ∀ q, Contends s q → U p ≤ U q := by
  obtain ⟨t, h⟩ := hrun.balanced
  refine ⟨⟨t, h.pool.tree, fun p hp => ((h.mem p).mp hp).1⟩, h.spread, fun p q hp hq =>
    procStrideComp_eq h.wraps (h.spread p q hp hq) (h.spread q p hq hp),
    t.numNodes + 3, fun depth hdepth => ?_⟩
  have hpick := wp_schedule h hdepth
  rw [Act.wp_false_iff] at hpick
  obtain ⟨o, s', hret, -, hpost⟩ := hpick
  exact ⟨o, s', hret, hpost⟩

/-! ## A late arrival -/

/-- The scheduler at boot. -/
def bootSys : StrideSys where
  rq := {
    pool := fun _ => ⟨none, none, none⟩
    runPool := none
    procNum := 0
    maxTimeSlice := 5
    proc := fun _ => ⟨0, stride_zero_lt, 0, 0⟩ }
  state p := if p = idleproc then .runnable else .uninit
  current := idleproc

/-- The state after a call that returns. -/
def after {α : Type} (m : Call α) (s : StrideSys) : StrideSys :=
  match m s with
  | .ok r => r.2
  | .error _ => s

/-- Process 1 is created, and picked twice. -/
def forkedSys : StrideSys := after (doFork 5 1) bootSys

def pickedSys : StrideSys := after (schedule 5) forkedSys

def aheadSys : StrideSys := after (schedule 5) pickedSys

/-- Process 2 is created when process 1 is two passes ahead. -/
def lateSys : StrideSys := after (doFork 5 2) aheadSys

theorem returns_fork : Returns (doFork · 1) bootSys () forkedSys :=
  ⟨5, fun d hd => by
    obtain ⟨k, rfl⟩ := Nat.exists_eq_add_of_le' hd
    rfl⟩

theorem returns_schedule : Returns schedule forkedSys (some 1) pickedSys :=
  ⟨5, fun d hd => by
    obtain ⟨k, rfl⟩ := Nat.exists_eq_add_of_le' hd
    rfl⟩

/-- With close arrivals only, process 1 is picked. -/
theorem stride_sys_run_forked :
    ∃ d, ∀ depth ≥ d, ∃ o s', schedule depth pickedSys = .ok (o, s') ∧ o ≠ none := by
  have hclose : Close (fun p => (bootSys.rq.proc p).stride) bootSys (.fork 1) := fun _ _ =>
    Nat.zero_le _
  obtain ⟨U, hrun⟩ : ∃ U, Run Close bootSys U pickedSys :=
    ⟨_, .step (.step (.boot rfl rfl fun p hp => if_neg hp) hclose
      (.fork (by decide) (by decide) (.inl rfl) returns_fork)) (show Close _ _ .schedule from trivial)
      (.schedule returns_schedule)⟩
  obtain ⟨d, hd⟩ := (stride_sys_run hrun).2.2.2
  refine ⟨d, fun depth hdepth => ?_⟩
  obtain ⟨o, s', hret, hnone, -⟩ := hd depth hdepth
  exact ⟨o, s', hret, fun ho => hnone ho 1 ⟨by decide, rfl⟩⟩

/-- **A late arrival.**  Process 2 arrives two passes behind process 1; the wrapped difference of
the strides has the wrong sign, and process 1 is picked again. -/
theorem late_arrival :
    ∃ U s', Run (fun _ _ _ => True) bootSys U lateSys ∧ Contends lateSys 1 ∧ Contends lateSys 2 ∧
      ¬ U 1 ≤ U 2 + BIG_STRIDE ∧ U 2 < U 1 ∧ procStrideComp lateSys.rq.proc 1 2 < 0 ∧
      Returns schedule lateSys (some 1) s' := by
  have hahead : Returns schedule pickedSys (some 1) aheadSys := ⟨5, fun d hd => by
    obtain ⟨k, rfl⟩ := Nat.exists_eq_add_of_le' hd
    rfl⟩
  have hlate : Returns (doFork · 2) aheadSys () lateSys := ⟨5, fun d hd => by
    obtain ⟨k, rfl⟩ := Nat.exists_eq_add_of_le' hd
    rfl⟩
  have hpick : Returns schedule lateSys (some 1) (after (schedule 5) lateSys) := ⟨5, fun d hd => by
    obtain ⟨k, rfl⟩ := Nat.exists_eq_add_of_le' hd
    rfl⟩
  refine ⟨_, _, .step (.step (.step (.step (.boot rfl rfl fun p hp => if_neg hp) trivial
    (.fork (by decide) (by decide) (.inl rfl) returns_fork)) trivial (.schedule returns_schedule))
    trivial (.schedule hahead)) trivial (.fork (by decide) (by decide) (.inl rfl) hlate),
    ⟨by decide, rfl⟩, ⟨by decide, rfl⟩, by decide, by decide, by decide, hpick⟩

end StrideSys

end UCore
