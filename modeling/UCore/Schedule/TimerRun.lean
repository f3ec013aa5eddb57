import UCore.Schedule.Timer

/-!
# Schedule/TimerRun — a timer fires in the tick it was set for

    add t e        tick … tick       tick        (no `del t` in between)
    due t = e      due t = e − k     fires, the `e`-th

A tick takes one from what every timer waits for; the loop then runs along the timers that wait for
nothing, wakes their processes and unlinks them.  The run theorem is the bookkeeping of `due` over
any other additions and deletions in between.
-/

namespace UCore.Timers

variable {s s' : Timers} {l : List ℕ} {t u p q e : ℕ}

/-! ## The loop of a tick -/

/-- `run_timer_list` can wake the process: it sleeps in a wait that a timer may end. -/
def Wakeable (g : Sched) (p : ℕ) : Prop :=
  g.CanWake p ∧ ((g.proc p).waitState = 0 ∨ (g.proc p).waitState &&& WT_INTERRUPTED ≠ 0)

/-- Waking another process first does not matter. -/
theorem Wakeable.woken {g : Sched} (h : Wakeable g q) : Wakeable (g.woken p) q := by
  obtain ⟨⟨hz, hq⟩, hw⟩ := h
  rcases eq_or_ne q p with rfl | hqp
  · have hrun : ((g.woken q).proc q).state = .runnable := Sched.roused_woken.state
    refine ⟨⟨by simp [hrun], fun hne => absurd hrun hne⟩, ?_⟩
    rw [Sched.woken_proc_self]
    split
    · exact hw
    · exact .inl rfl
  · rw [Wakeable, Sched.CanWake, Sched.woken_proc_of_ne hqp, Sched.woken_current]
    refine ⟨⟨hz, fun hs hcur hidle hm => ?_⟩, hw⟩
    exact (Sched.mem_woken_runList hm).elim hqp (hq hs hcur hidle)

/-- **The timers of `l` that wait for nothing fire**, and no others. -/
structure Fired (l : List ℕ) (s s' : Timers) : Prop where
  timer : s'.timer = s.timer
  sublist : s'.timerList.Sublist l
  mem : ∀ u ∈ l, u ∈ s'.timerList ↔ dueIn s.timer l u ≠ 0
  due : ∀ u ∈ s'.timerList, s'.due u = dueIn s.timer l u
  roused : ∀ u ∈ l, dueIn s.timer l u = 0 → ∀ p ∈ (s.timer u).proc, s.sched.Roused p s'.sched
  wakes : Sched.Wakes (fun p => ∃ u ∈ l, dueIn s.timer l u = 0 ∧ (s.timer u).proc = some p)
    s.sched s'.sched

/-- Nothing fires before a timer that still waits. -/
theorem Fired.stop (hl : s.timerList = t :: l) (ht : (s.timer t).expires ≠ 0) :
    Fired (t :: l) s s := by
  have hpos : ∀ u, dueIn s.timer (t :: l) u ≠ 0 := fun u =>
    ((Nat.pos_of_ne_zero ht).trans_le expires_le_dueIn_cons).ne'
  refine ⟨rfl, hl ▸ .refl _, fun u hu => iff_of_true (hl ▸ hu) (hpos u), fun u _ => ?_,
    fun u _ h0 => absurd h0 (hpos u), .refl _ _⟩
  change dueIn s.timer s.timerList u = _
  rw [hl]

/-- The first timer fires, and then those behind it. -/
theorem Fired.cons (hnd : (t :: l).Nodup) (ht : (s.timer t).expires = 0)
    (hp : (s.timer t).proc = some p)
    (h : Fired l { s with sched := s.sched.woken p, timerList := l } s') : Fired (t :: l) s s' := by
  obtain ⟨htl, -⟩ := List.nodup_cons.mp hnd
  have hdue : ∀ u ∈ l, dueIn s.timer (t :: l) u = dueIn s.timer l u := fun u hu => by
    rw [dueIn_cons (ne_of_mem_of_not_mem hu htl).symm, ht, Nat.zero_add]
  have ht0 : dueIn s.timer (t :: l) t = 0 := dueIn_head.trans ht
  have hwakes : Sched.Wakes
      (fun q => ∃ u ∈ t :: l, dueIn s.timer (t :: l) u = 0 ∧ (s.timer u).proc = some q)
      (s.sched.woken p) s'.sched :=
    h.wakes.mono fun q ⟨u, hu, h0, hq⟩ =>
      ⟨u, List.mem_cons_of_mem t hu, (hdue u hu).trans h0, hq⟩
  have hrouse : Sched.Roused p s.sched s'.sched := Sched.roused_woken.wakes hwakes
  refine ⟨h.timer, h.sublist.trans (List.sublist_cons_self t l), fun u hu => ?_, fun u hu => ?_,
    fun u hu h0 q hq => ?_, ?_⟩
  · rcases List.mem_cons.mp hu with rfl | hu
    · exact iff_of_false (fun hm => htl (h.sublist.subset hm)) (not_not.mpr ht0)
    · rw [hdue u hu]
      exact h.mem u hu
  · exact (h.due u hu).trans (hdue u (h.sublist.subset hu)).symm
  · rcases List.mem_cons.mp hu with rfl | hu
    · obtain rfl : p = q := Option.some.inj (hp.symm.trans hq)
      exact hrouse
    · rcases eq_or_ne q p with rfl | hqp
      · exact hrouse
      · exact .of_woken hqp (h.roused u hu ((hdue u hu).symm.trans h0) q hq)
  · exact (Sched.wakes_woken.mono fun q hq => ⟨t, List.mem_cons_self, ht0, hq ▸ hp⟩).trans hwakes

/-- The loop stops only at a process that it cannot wake. -/
theorem wp_fireLoop (l : List ℕ) (s : Timers) (hl : s.timerList = l) (hnd : l.Nodup)
    (hproc : ∀ u ∈ l, (s.timer u).proc.isSome) :
    Act.wp (fireLoop l) (fun _ s' => Fired l s s')
      (fun _ => ∃ u ∈ l, dueIn s.timer l u = 0 ∧
        ∃ p ∈ (s.timer u).proc, ¬ Wakeable s.sched p) s := by
  induction l generalizing s with
  | nil =>
    refine ⟨rfl, hl ▸ .refl _, fun u hu => absurd hu List.not_mem_nil, fun u hu => ?_,
      fun u hu => absurd hu List.not_mem_nil, .refl _ _⟩
    exact absurd (hl ▸ hu) List.not_mem_nil
  | cons t l ih =>
    rw [fireLoop, Act.wp_bind, Act.wp_get, Act.wp_ite]
    refine ⟨fun h0 => ?_, fun hne => .stop hl hne⟩
    obtain ⟨p, hp⟩ := Option.isSome_iff_exists.mp (hproc t List.mem_cons_self)
    have ht0 : dueIn s.timer (t :: l) t = 0 := dueIn_head.trans h0
    have hstop : ¬ Wakeable s.sched p → ∃ u ∈ t :: l, dueIn s.timer (t :: l) u = 0 ∧
        ∃ p ∈ (s.timer u).proc, ¬ Wakeable s.sched p :=
      fun hw => ⟨t, List.mem_cons_self, ht0, p, hp, hw⟩
    -- the process is woken, the timer unlinked, and the loop goes on behind it
    have hrest : Act.wp (do onSched (Sched.wakeupProc p); delTimer t; fireLoop l)
        (fun _ s' => Fired (t :: l) s s') (fun _ => ∃ u ∈ t :: l, dueIn s.timer (t :: l) u = 0 ∧
          ∃ p ∈ (s.timer u).proc, ¬ Wakeable s.sched p) s := by
      rw [Act.wp_bind, onSched, Act.wp_zoom]
      refine Act.wp_mono (Sched.wp_wakeupProc_eq p s.sched) (fun _ g hg => ?_)
        fun _ hno => hstop fun hw => hno hw.1
      subst hg
      have hdel := delTimer_expired (s := { s with sched := s.sched.woken p })
        (hl.symm ▸ List.mem_cons_self) h0
      have her : s.timerList.erase t = l := by rw [hl, List.erase_cons_head]
      rw [Act.wp_bind, Act.wp_eq_of_ok hdel, her]
      obtain ⟨htl, hnd'⟩ := List.nodup_cons.mp hnd
      refine Act.wp_mono (ih _ rfl hnd' fun u hu => hproc u (List.mem_cons_of_mem t hu))
        (fun _ s' h => h.cons hnd h0 hp) fun _ ⟨u, hu, hu0, q, hq, hw⟩ => ?_
      refine ⟨u, List.mem_cons_of_mem t hu, ?_, q, hq, fun h => hw h.woken⟩
      rw [dueIn_cons (ne_of_mem_of_not_mem hu htl).symm, h0, Nat.zero_add]
      exact hu0
    rw [hp]
    dsimp only
    rw [Act.wp_ite]
    refine ⟨fun hws => ?_, fun _ => hrest⟩
    rw [Act.wp_bind, Act.wp_require]
    refine ⟨fun _ => hrest, fun hint => hstop fun hw => ?_⟩
    exact hw.2.elim hws hint

/-! ## A tick -/

/-- The first difference goes down by one, and with it what every timer waits for. -/
theorem dueIn_setExpires_head (hl : s.timerList = t :: l) (hnd : (t :: l).Nodup)
    (hpos : 0 < (s.timer t).expires) :
    dueIn (s.setExpires t ((s.timer t).expires - 1)).timer (t :: l) u = s.due u - 1 := by
  have hl' : dueIn (s.setExpires t ((s.timer t).expires - 1)).timer l u = dueIn s.timer l u :=
    dueIn_congr fun y hy => by
      rw [setExpires_of_ne (ne_of_mem_of_not_mem hy (List.nodup_cons.mp hnd).1)]
  rw [due, hl, dueIn, dueIn, setExpires_self, hl']
  dsimp only
  omega

/-- **A tick**: the timers that were due in one tick fire, the others wait for one less. -/
structure Ticked (s s' : Timers) : Prop where
  timed : Timed s'
  proc : ∀ u, (s'.timer u).proc = (s.timer u).proc
  subset : s'.timerList ⊆ s.timerList
  mem : ∀ u ∈ s.timerList, u ∈ s'.timerList ↔ s.due u ≠ 1
  due : ∀ u ∈ s'.timerList, s'.due u = s.due u - 1
  roused : ∀ u ∈ s.timerList, s.due u = 1 → ∀ p ∈ (s.timer u).proc, s.sched.Roused p s'.sched
  wakes : Sched.Wakes (fun p => ∃ u ∈ s.timerList, s.due u = 1 ∧ (s.timer u).proc = some p)
    s.sched s'.sched

/-- **`run_timer_list`** stops only where it cannot wake the process of a timer that is due. -/
theorem wp_runTimerList (h : Timed s) :
    Act.wp runTimerList (fun _ s' => Ticked s s')
      (fun _ => ∃ u ∈ s.timerList, s.due u = 1 ∧ ∃ p ∈ (s.timer u).proc, ¬ Wakeable s.sched p) s := by
  rw [runTimerList, Act.wp_bind, Act.wp_get]
  rcases hl : s.timerList with _ | ⟨t, l⟩
  · have hno : ∀ u, u ∉ s.timerList := fun u hu => List.not_mem_nil (hl ▸ hu)
    exact ⟨h, fun _ => rfl, fun _ => id, fun u hu => absurd hu (hno u), fun u hu => absurd hu (hno u),
      fun u hu => absurd hu (hno u), .refl _ _⟩
  have hnd : (t :: l).Nodup := hl ▸ h.nodup
  have hne : (s.timer t).expires ≠ 0 := h.head_ne_zero (by rw [hl]; rfl)
  have hpos := Nat.pos_of_ne_zero hne
  have hlt := h.expires_lt (hl.symm ▸ List.mem_cons_self)
  simp only [Act.wp_bind, Act.wp_get, Act.wp_require, Act.wp_modify]
  refine ⟨fun _ => ?_, fun hn => absurd hne hn⟩
  rw [sub32_of_le hpos hlt]
  have hdue : ∀ u, dueIn (s.setExpires t ((s.timer t).expires - 1)).timer (t :: l) u = s.due u - 1 :=
    fun u => dueIn_setExpires_head hl hnd hpos
  have hone : ∀ u ∈ s.timerList, s.due u - 1 = 0 ↔ s.due u = 1 := fun u hu => by
    have := h.pos u hu
    omega
  refine Act.wp_mono (wp_fireLoop (t :: l) _ hl hnd fun u hu => ?_) (fun _ s' hf => ?_)
    fun _ hstop => ?_
  · rw [setExpires_proc]
    exact h.proc u (hl ▸ hu)
  · have hsub : s'.timerList ⊆ s.timerList := fun u hu => hl ▸ hf.sublist.subset hu
    have hmem : ∀ u ∈ s.timerList, u ∈ s'.timerList ↔ s.due u ≠ 1 := fun u hu => by
      rw [hf.mem u (hl ▸ hu), hdue, Ne, hone u hu]
    have hd : ∀ u ∈ s'.timerList, s'.due u = s.due u - 1 := fun u hu => (hf.due u hu).trans (hdue u)
    have hp : ∀ u, (s'.timer u).proc = (s.timer u).proc := fun u => by
      rw [hf.timer, setExpires_proc]
    refine ⟨⟨hf.sublist.nodup hnd, fun u hu => hp u ▸ h.proc u (hsub hu), fun u hu => ?_,
      fun u hu => ?_⟩, hp, hsub, hmem, hd, fun u hu hu1 p hup => ?_, hf.wakes.mono ?_⟩
    · have := h.pos u (hsub hu)
      have := (hmem u (hsub hu)).mp hu
      rw [hd u hu]
      omega
    · exact hd u hu ▸ (Nat.sub_le ..).trans_lt (h.lt u (hsub hu))
    · refine hf.roused u (hl ▸ hu) ?_ p (by rwa [setExpires_proc])
      rw [hdue, hone u hu, hu1]
    · rintro p ⟨u, hu, hu0, hup⟩
      rw [hdue, hone u (hl ▸ hu)] at hu0
      exact ⟨u, hl ▸ hu, hu0, by rwa [setExpires_proc] at hup⟩
  · obtain ⟨u, hu, hu0, p, hp, hw⟩ := hstop
    rw [hdue, hone u (hl ▸ hu)] at hu0
    exact ⟨u, hu, hu0, p, by rwa [setExpires_proc] at hp, hw⟩

/-! ## Runs -/

/-- A call on the timers; `other` is whatever the kernel does to its processes in between. -/
inductive TimerOp where
  | add (t p e : ℕ)
  | del (t : ℕ)
  | tick
  | other
  deriving DecidableEq

/-- **One call that returns**: a new timer is initialised and added, any timer is deleted, or the
clock ticks. -/
inductive Step (s : Timers) : TimerOp → Timers → Prop
  | add {t p e : ℕ} {s' : Timers} (ht : t ∉ s.timerList) (hpos : 0 < e) (hlt : e < 2 ^ 32)
      (hrun : (do timerInit t p e; addTimer t) s = .ok ((), s')) : Step s (.add t p e) s'
  | del {t : ℕ} {s' : Timers} (hrun : delTimer t s = .ok ((), s')) : Step s (.del t) s'
  | tick {s' : Timers} (hrun : runTimerList s = .ok ((), s')) : Step s .tick s'
  | other (g : Sched) : Step s .other { s with sched := g }

/-- Calls one after the other. -/
inductive Run (s : Timers) : List TimerOp → Timers → Prop
  | nil : Run s [] s
  | snoc {ops : List TimerOp} {op : TimerOp} {s' s'' : Timers} (hrun : Run s ops s')
      (hstep : Step s' op s'') : Run s (ops ++ [op]) s''

/-- `timer_init` touches no timer that is linked. -/
theorem timed_init (h : Timed s) (ht : t ∉ s.timerList) (g : Timer) :
    let s' : Timers := { s with timer := Function.update s.timer t g }
    Timed s' ∧ ∀ u ∈ s.timerList, s'.due u = s.due u := by
  intro s'
  have hother : ∀ u ∈ s.timerList, s'.timer u = s.timer u := fun u hu =>
    Function.update_of_ne (ne_of_mem_of_not_mem hu ht) ..
  have hdue : ∀ u ∈ s.timerList, s'.due u = s.due u := fun u _ =>
    dueIn_congr fun x hx => congrArg Timer.expires (hother x hx)
  refine ⟨⟨h.nodup, fun u hu => ?_, fun u hu => ?_, fun u hu => ?_⟩, hdue⟩
  · exact (hother u hu).symm ▸ h.proc u hu
  · exact (hdue u hu).symm ▸ h.pos u hu
  · exact (hdue u hu).symm ▸ h.lt u hu

/-- **A new timer** waits for `e` ticks, and the others wait as before. -/
theorem wp_add (h : Timed s) (ht : t ∉ s.timerList) (hpos : 0 < e) (hlt : e < 2 ^ 32) (p : ℕ) :
    Act.wp (do timerInit t p e; addTimer t)
      (fun _ s' => Timed s' ∧ s'.sched = s.sched ∧ (s'.timer t).proc = some p ∧
        (∀ u ≠ t, (s'.timer u).proc = (s.timer u).proc) ∧
        (∀ u, u ∈ s'.timerList ↔ u = t ∨ u ∈ s.timerList) ∧ s'.due t = e ∧
        ∀ u ∈ s.timerList, s'.due u = s.due u)
      (fun _ => False) s := by
  obtain ⟨hinit, hdue⟩ := timed_init h ht ⟨e, some p⟩
  have hset : (Function.update s.timer t ⟨e, some p⟩ t : Timer) = ⟨e, some p⟩ :=
    Function.update_self ..
  rw [Act.wp_bind, timerInit, Act.wp_modify, u32_of_lt hlt]
  refine Act.wp_mono (wp_addTimer hinit ht (by simpa using hpos) (by simpa using hlt) (by simp))
    (fun _ s' ⟨hs, hg, hproc, hmem, hself, hother⟩ => ?_) fun _ => id
  refine ⟨hs, hg, ?_, fun u hu => ?_, hmem, ?_, fun u hu => (hother u hu).trans (hdue u hu)⟩
  · rw [hproc]
    exact congrArg Timer.proc hset
  · rw [hproc]
    exact congrArg Timer.proc (Function.update_of_ne hu ..)
  · rw [hself]
    exact congrArg Timer.expires hset

theorem Step.timed {op : TimerOp} (h : Timed s) (hstep : Step s op s') : Timed s' := by
  cases hstep with
  | add ht hpos hlt hrun => exact (Act.wp_of_ok (wp_add h ht hpos hlt _) hrun).1
  | del hrun => exact (Act.wp_of_ok (wp_delTimer h _) hrun).1
  | tick hrun => exact (Act.wp_of_ok (wp_runTimerList h) hrun).timed
  | other g => exact ⟨h.nodup, h.proc, h.pos, h.lt⟩

theorem Run.timed {ops : List TimerOp} (h : Timed s) (hrun : Run s ops s') : Timed s' := by
  induction hrun with
  | nil => exact h
  | snoc _ hstep ih => exact hstep.timed ih

/-- No timer waits at the start. -/
theorem timed_of_nil (hl : s.timerList = []) : Timed s := by
  have hno : ∀ u, u ∉ s.timerList := fun u hu => List.not_mem_nil (hl ▸ hu)
  exact ⟨hl ▸ List.nodup_nil, fun u hu => absurd hu (hno u), fun u hu => absurd hu (hno u),
    fun u hu => absurd hu (hno u)⟩

/-- **No difference wraps**: a timer that stays linked waits for a tick less after a tick, and for as
long as before after any other call. -/
theorem Step.due {op : TimerOp} (h : Timed s) (hstep : Step s op s') (ht : t ∈ s.timerList)
    (ht' : t ∈ s'.timerList) : s'.due t = s.due t - if op = .tick then 1 else 0 := by
  cases hstep with
  | add hu hpos hlt hrun =>
    obtain ⟨-, -, -, -, -, -, hd⟩ := Act.wp_of_ok (wp_add h hu hpos hlt _) hrun
    exact hd t ht
  | @del u _ hrun =>
    obtain ⟨-, -, -, hl, hd⟩ := Act.wp_of_ok (wp_delTimer h u) hrun
    rw [hl] at ht'
    exact hd t ht fun htu => h.nodup.not_mem_erase (htu ▸ ht')
  | tick hrun => exact (Act.wp_of_ok (wp_runTimerList h) hrun).due t ht'
  | other g => rfl

/-- **A timer that waits**: linked for the process `p`, with `k` ticks to go. -/
def Waiting (s : Timers) (t p k : ℕ) : Prop :=
  t ∈ s.timerList ∧ (s.timer t).proc = some p ∧ s.due t = k

/-- **One call** takes a tick off, or leaves what another timer waits for. -/
theorem Step.waiting {op : TimerOp} {k : ℕ} (h : Timed s) (hstep : Step s op s')
    (hw : Waiting s t p k) (hdel : op ≠ .del t) (htick : op = .tick → k ≠ 1) :
    Waiting s' t p (k - if op = .tick then 1 else 0) := by
  obtain ⟨hmem, hproc, hdue⟩ := hw
  cases hstep with
  | @add u _ _ _ hu hpos hlt hrun =>
    obtain ⟨-, -, -, hp, hm, -, hd⟩ := Act.wp_of_ok (wp_add h hu hpos hlt _) hrun
    refine ⟨(hm t).mpr (.inr hmem), ?_, (hd t hmem).trans hdue⟩
    rw [hp t (ne_of_mem_of_not_mem hmem hu), hproc]
  | @del u _ hrun =>
    obtain ⟨-, -, hp, hl, hd⟩ := Act.wp_of_ok (wp_delTimer h u) hrun
    have htu : t ≠ u := fun htu => hdel (htu ▸ rfl)
    refine ⟨?_, (hp t).trans hproc, (hd t hmem htu).trans hdue⟩
    rw [hl]
    exact (List.mem_erase_of_ne htu).mpr hmem
  | tick hrun =>
    have ht := Act.wp_of_ok (wp_runTimerList h) hrun
    have hmem' : t ∈ s'.timerList := (ht.mem t hmem).mpr (hdue ▸ htick rfl)
    refine ⟨hmem', (ht.proc t).trans hproc, ?_⟩
    rw [ht.due t hmem', hdue, if_pos rfl]
  | other g => exact ⟨hmem, hproc, hdue⟩

/-- …and so does a run that has not brought it to zero. -/
theorem Run.waiting {ops : List TimerOp} {k : ℕ} (h : Timed s) (hrun : Run s ops s')
    (hw : Waiting s t p k) (hdel : .del t ∉ ops) (htick : ops.count .tick < k) :
    Waiting s' t p (k - ops.count .tick) := by
  induction hrun with
  | nil => exact hw
  | @snoc ops op _ _ hrun hstep ih =>
    rw [List.count_append, List.count_singleton] at htick ⊢
    simp only [beq_iff_eq] at htick ⊢
    have hdel' : op ≠ .del t := fun h => hdel (List.mem_append_right _ (h ▸ List.mem_singleton_self _))
    have hw' := ih (fun h => hdel (List.mem_append_left _ h)) (by omega)
    have hone : op = .tick → k - ops.count .tick ≠ 1 := fun hop => by
      rw [if_pos hop] at htick
      omega
    rw [← Nat.sub_sub]
    exact hstep.waiting (hrun.timed h) hw' hdel' hone

/-- **A timer that waits for one tick fires in it**; any other that waits stays. -/
theorem Step.fires {k : ℕ} (h : Timed s) (hstep : Step s .tick s') (hw : Waiting s t p k) :
    (t ∈ s'.timerList ↔ k ≠ 1) ∧ (k = 1 → s.sched.Roused p s'.sched) := by
  obtain ⟨hmem, hproc, rfl⟩ := hw
  cases hstep with
  | tick hrun =>
    have ht := Act.wp_of_ok (wp_runTimerList h) hrun
    exact ⟨ht.mem t hmem, fun h1 => ht.roused t hmem h1 p hproc⟩

/-- **The timer list.**  From an empty list, whatever is added and deleted and however often the
clock ticks: `add_timer` and `del_timer` return, `run_timer_list` finds a first timer that has not
run out and stops only at a process it cannot wake, it wakes the processes of the timers that are
due and no others, no call but a tick changes what a linked timer waits for, and a timer added with
`e` and not deleted stays linked through the next `e - 1` ticks and fires in the tick after them. -/
theorem timers_run {ops : List TimerOp} (hl : s.timerList = []) (hrun : Run s ops s') :
    (∀ t p e, t ∉ s'.timerList → 0 < e → e < 2 ^ 32 → ∃ s₁, Step s' (.add t p e) s₁) ∧
    (∀ t, ∃ s₁, Step s' (.del t) s₁) ∧
    (∀ t, s'.timerList.head? = some t → (s'.timer t).expires ≠ 0) ∧
    ((∀ t ∈ s'.timerList, s'.due t = 1 → ∀ p ∈ (s'.timer t).proc, Wakeable s'.sched p) →
      ∃ s₁, Step s' .tick s₁) ∧
    (∀ s₁, Step s' .tick s₁ → Sched.Wakes
      (fun p => ∃ t ∈ s'.timerList, s'.due t = 1 ∧ (s'.timer t).proc = some p) s'.sched s₁.sched) ∧
    (∀ op s₁, Step s' op s₁ → ∀ t ∈ s'.timerList, t ∈ s₁.timerList →
      0 < s'.due t ∧ s₁.due t = s'.due t - if op = .tick then 1 else 0) ∧
    ∀ t p e s₁ ops₁ s₂, Step s' (.add t p e) s₁ → Run s₁ ops₁ s₂ → .del t ∉ ops₁ →
      ops₁.count .tick < e →
      t ∈ s₂.timerList ∧ s₂.due t = e - ops₁.count .tick ∧
      ∀ s₃, Step s₂ .tick s₃ → (t ∈ s₃.timerList ↔ ops₁.count .tick + 1 ≠ e) ∧
        (ops₁.count .tick + 1 = e → s₂.sched.Roused p s₃.sched) := by
  have h : Timed s' := hrun.timed (timed_of_nil hl)
  refine ⟨fun t p e ht hpos hlt => ?_, fun t => ?_, fun t => h.head_ne_zero, fun hwake => ?_,
    fun s₁ hstep => ?_, fun op s₁ hstep t ht ht' => ⟨h.pos t ht, hstep.due h ht ht'⟩,
    fun t p e s₁ ops₁ s₂ hadd hrun₁ hdel hcount => ?_⟩
  · obtain ⟨_, s₁, hadd, -⟩ := Act.wp_false_iff.mp (wp_add h ht hpos hlt p)
    exact ⟨s₁, .add ht hpos hlt hadd⟩
  · obtain ⟨_, s₁, hdel, -⟩ := Act.wp_false_iff.mp (wp_delTimer h t)
    exact ⟨s₁, .del hdel⟩
  · obtain ⟨_, s₁, htick, -⟩ := Act.wp_false_iff.mp <| Act.wp_mono (wp_runTimerList h)
      (fun _ _ => id) fun _ ⟨t, ht, h1, p, hp, hno⟩ => hno (hwake t ht h1 p hp)
    exact ⟨s₁, .tick htick⟩
  · cases hstep with
    | tick htick => exact (Act.wp_of_ok (wp_runTimerList h) htick).wakes
  · have hw : Waiting s₁ t p e := by
      cases hadd with
      | add ht hpos hlt hadd =>
        obtain ⟨-, -, hp, -, hm, hd, -⟩ := Act.wp_of_ok (wp_add h ht hpos hlt p) hadd
        exact ⟨(hm t).mpr (.inl rfl), hp, hd⟩
    have h₁ := hadd.timed h
    have hw₂ := hrun₁.waiting h₁ hw hdel hcount
    refine ⟨hw₂.1, hw₂.2.2, fun s₃ htick => ?_⟩
    obtain ⟨hm, hr⟩ := htick.fires (hrun₁.timed h₁) hw₂
    exact ⟨hm.trans (by omega), fun heq => hr (by omega)⟩

/-- A process that sleeps in `do_sleep`, and no timer yet. -/
def oneAsleep : Timers where
  sched := ⟨fun p => if p = 1 then ⟨.sleeping, WT_TIMER, false⟩ else ⟨.runnable, 0, false⟩, 0, []⟩
  timer _ := ⟨0, none⟩
  timerList := []

/-- Two ticks after its timer was set to two, the process is awake. -/
theorem timers_run_oneAsleep : ∃ s₁ s₂ s₃, Step oneAsleep (.add 7 1 2) s₁ ∧ Step s₁ .tick s₂ ∧
    Step s₂ .tick s₃ ∧ 7 ∈ s₂.timerList ∧ 7 ∉ s₃.timerList ∧ (s₃.sched.proc 1).state = .runnable := by
  have hsteps : ∃ s₁ s₂ s₃, Step oneAsleep (.add 7 1 2) s₁ ∧ Step s₁ .tick s₂ ∧ Step s₂ .tick s₃ :=
    ⟨_, _, _, .add (by decide) (by decide) (by decide) rfl, .tick rfl, .tick rfl⟩
  obtain ⟨s₁, s₂, s₃, h₁, h₂, h₃⟩ := hsteps
  obtain ⟨-, -, -, -, -, -, hfire⟩ := timers_run (s := oneAsleep) rfl .nil
  have h := hfire 7 1 2 _ [.tick] _ h₁ (.snoc .nil h₂) (by decide) (by decide)
  obtain ⟨hout, hwake⟩ := h.2.2 _ h₃
  exact ⟨_, _, _, h₁, h₂, h₃, h.1, fun hin => hout.mp hin rfl, (hwake rfl).state⟩

end UCore.Timers
