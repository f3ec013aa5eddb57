import UCore.Sync.Sem

/-!
# Sync/SemRun — a semaphore over whole runs

The processes of the wait queue are the downs that have blocked and not been granted, in the order
they blocked: `Coherent` says this of a state, and the run keeps the two histories apart.

    blocked so far  =  granted by an up  ++  still on the wait queue
-/

namespace UCore.SemSys

/-- What a step does to the semaphore. -/
inductive Event where
  | up (woken : Option ℕ)
  | take (p : ℕ)
  | block (p : ℕ)
  | back (p : ℕ)
  | tryDown (ok : Bool)
  | other
  deriving DecidableEq, Repr

/-- An `up`. -/
def Event.isUp : Event → Bool
  | .up _ => true
  | _ => false

/-- A granted down: one that found a unit, or one whose waiter an `up` removed. -/
def Event.isGrant : Event → Bool
  | .up (some _) | .take _ | .tryDown true => true
  | _ => false

/-- The process whose down blocks. -/
def Event.blocks : Event → Option ℕ
  | .block p => some p
  | _ => none

/-- The process whose wait an `up` ends. -/
def Event.ends : Event → Option ℕ
  | .up r => r
  | _ => none

/-- The downs that blocked, first to last. -/
def blocked (evs : List Event) : List ℕ := evs.filterMap Event.blocks

/-- The waits ended by an `up`, first to last. -/
def granted (evs : List Event) : List ℕ := evs.filterMap Event.ends

/-- Where the running process is. -/
def now (s : SemSys) : Pc := s.pc s.sched.current

/-- Back in the processor, a process is inside the `schedule()` it called. -/
def leave : Pc → Pc
  | .leaving b => .away b
  | c => c

/-- **One step**: an interrupt-disabled section of the running process, a timer interrupt, or a
switch.  `idleproc` puts itself to sleep nowhere. -/
inductive Step (s : SemSys) : Event → SemSys → Prop
  | up {s' : SemSys} {r : Option ℕ} :
      s.now = .running → _up s = .ok (r, s') → Step s (.up r) s'
  | take {s' : SemSys} :
      s.now = .running → _downFirst s = .ok (true, s') → Step s (.take s.sched.current) s'
  | block {s' : SemSys} :
      s.now = .running → s.sched.current ≠ idleproc → _downFirst s = .ok (false, s') →
      Step s (.block s.sched.current) (s'.setPc s.sched.current (.leaving .down))
  | back {s' : SemSys} :
      s.now = .away .down → downReturn s = .ok ((), s') →
      Step s (.back s.sched.current) (s'.setPc s.sched.current .running)
  | tryDown {s' : SemSys} {b : Bool} :
      s.now = .running → tryDown s = .ok (b, s') → Step s (.tryDown b) s'
  | sleep {s' : SemSys} {time : ℕ} :
      s.now = .running → s.sched.current ≠ idleproc → sleepSection time s = .ok ((), s') →
      Step s .other (s'.setPc s.sched.current (.leaving .sleep))
  | sleepBack {s' : SemSys} :
      s.now = .away .sleep → sleepReturn s = .ok ((), s') →
      Step s .other (s'.setPc s.sched.current .running)
  | wait {s' : SemSys} :
      s.now = .running → s.sched.current ≠ idleproc → onSched Sched.waitSection s = .ok ((), s') →
      Step s .other (s'.setPc s.sched.current (.leaving .wait))
  | waitBack : s.now = .away .wait → Step s .other (s.setPc s.sched.current .running)
  | exit {s' : SemSys} {parent : ℕ} :
      s.now = .running → s.sched.current ≠ idleproc →
      onSched (Sched.exitSection parent) s = .ok ((), s') →
      Step s .other (s'.setPc s.sched.current (.leaving .exit))
  | fork {s' : SemSys} {p : ℕ} :
      s.now = .running → (s.sched.proc p).state = .uninit →
      onSched (Sched.wakeupProc p) s = .ok ((), s') → Step s .other s'
  | kill {s' : SemSys} {p : ℕ} {r : ℤ} :
      s.now = .running → onSched (Sched.doKill p) s = .ok (r, s') → Step s .other s'
  | tick {s' : SemSys} : runTimerList s = .ok ((), s') → Step s .other s'
  | schedule {s' : SemSys} {pickNext : List ℕ → Option ℕ} :
      (∀ b, s.now ≠ .away b) → onSched (Sched.schedule pickNext) s = .ok ((), s') →
      Step s .other (s'.setPc s.sched.current (leave s.now))

/-- No process is in a call that blocks, and the run queue is sound. -/
structure Initial (s : SemSys) : Prop where
  pc : ∀ p, s.pc p = .running
  timers : s.timers = []
  sched : s.sched.Ok

/-- **A run** after `sem_init(v)`, with its events; `guard` is asked of the state before each up. -/
inductive Run (v : ℤ) (guard : SemSys → Prop) : List Event → SemSys → Prop
  | init {s s' : SemSys} : Initial s → semInit v s = .ok ((), s') → Run v guard [] s'
  | step {evs : List Event} {e : Event} {s s' : SemSys} :
      Run v guard evs s → (e.isUp = true → guard s) → Step s e s' → Run v guard (evs ++ [e]) s'

/-! ## The invariant of a state -/

/-- The process is in a down that has blocked and not returned. -/
def InDown (s : SemSys) (p : ℕ) : Prop := s.pc p = .leaving .down ∨ s.pc p = .away .down

/-- The process is in `do_sleep`. -/
def InSleep (s : SemSys) (p : ℕ) : Prop := s.pc p = .leaving .sleep ∨ s.pc p = .away .sleep

/-- The processes of the timer list. -/
def sleepers (ts : List (ℕ × ℕ)) : List ℕ := ts.map Prod.snd

/-- **The wait queue holds the ungranted downs**: `Q` are the processes on the queue, first to
last; a process in `down` that is not among them has its grant and is runnable. -/
structure Coherent (s : SemSys) (Q : List ℕ) : Prop where
  ring : s.links.Ring .head (Q.map .waitLink)
  queued : ∀ p ∈ Q, s.InDown p ∧ (s.sched.proc p).state = .sleeping ∧
    (s.sched.proc p).waitState = WT_KSEM
  granted : ∀ p, p ∉ Q → s.InDown p → (s.sched.proc p).state = .runnable ∧
    s.wakeupFlags p = WT_KSEM ∧ s.links.next (.waitLink p) = .waitLink p
  timers : ∀ p ∈ sleepers s.timers, s.InSleep p
  timers_nodup : (sleepers s.timers).Nodup
  sched : s.sched.Ok
  awake : ∀ b, s.now = .away b → (s.sched.proc s.sched.current).state = .runnable
  idle : s.pc idleproc = .running
  nonneg : 0 ≤ s.value
  empty_of_pos : 0 < s.value → Q = []

namespace Coherent

variable {s s' : SemSys} {Q : List ℕ} {p : ℕ}

theorem not_inSleep (hp : s.InDown p) : ¬ s.InSleep p := by
  unfold InDown InSleep at *
  rcases hp with h | h <;> simp [h]

theorem ne_current (hnow : s.now = .running) (hp : s.InDown p) : p ≠ s.sched.current := by
  rintro rfl
  unfold now at hnow
  rcases hp with h | h <;> simp [hnow] at h

theorem waitLink_fresh (hp : p ∉ Q) : WaitEntry.waitLink p ∉ WaitEntry.head :: Q.map .waitLink := by
  simpa using hp

/-- What does not touch the semaphore keeps the invariant, when it puts no granted process to sleep
and leaves the queued ones asleep. -/
theorem congr (h : Coherent s Q) (hl : s'.links = s.links) (hv : s'.value = s.value)
    (hf : s'.wakeupFlags = s.wakeupFlags) (hpc : ∀ p, s'.InDown p ↔ s.InDown p)
    (hQ : ∀ p ∈ Q, s'.sched.proc p = s.sched.proc p)
    (hG : ∀ p, s.InDown p → (s.sched.proc p).state = .runnable →
      (s'.sched.proc p).state = .runnable)
    (htimers : ∀ p ∈ sleepers s'.timers, s'.InSleep p) (hnd : (sleepers s'.timers).Nodup)
    (hok : s'.sched.Ok)
    (hawake : ∀ b, s'.now = .away b → (s'.sched.proc s'.sched.current).state = .runnable)
    (hidle : s'.pc idleproc = .running) : Coherent s' Q := by
  refine ⟨hl ▸ h.ring, fun p hp => ?_, fun p hp hd => ?_, htimers, hnd, hok, hawake, hidle,
    hv ▸ h.nonneg, hv ▸ h.empty_of_pos⟩
  · rw [hpc, hQ p hp]
    exact h.queued p hp
  · rw [hpc] at hd
    obtain ⟨hrun, hflags, hnext⟩ := h.granted p hp hd
    exact ⟨hG p hd hrun, hf ▸ hflags, hl ▸ hnext⟩

/-- Waking a process that is not on the queue keeps the invariant. -/
theorem woken (h : Coherent s Q) {t : Sched} (hp : p ∉ Q) (hw : Sched.Woken p s.sched t) :
    Coherent { s with sched := t } Q := by
  refine h.congr rfl rfl rfl (fun _ => Iff.rfl) (fun q hq => ?_) (fun q _ => hw.runnable q)
    h.timers h.timers_nodup (hw.ok h.sched) (fun b hb => ?_) h.idle
  · exact hw.other q fun heq => hp (heq ▸ hq)
  · simp only [now, hw.current] at hb ⊢
    exact hw.runnable _ (h.awake b hb)

/-- The running process, in code of its own, changes its own state and goes to another point. -/
theorem move (h : Coherent s Q) (hnow : s.now = .running) (hidle : s.sched.current ≠ idleproc)
    (f : Proc → Proc) {c : Pc} (hc : c ≠ .leaving .down) (hc' : ∀ b, c ≠ .away b)
    {ts : List (ℕ × ℕ)} (hnd : (sleepers ts).Nodup)
    (hts : ∀ p ∈ sleepers ts, p ∈ sleepers s.timers ∨ p = s.sched.current ∧ c = .leaving .sleep) :
    Coherent ({ s with sched := s.sched.modifyProc s.sched.current f, timers := ts }.setPc
      s.sched.current c) Q := by
  have hother : ∀ q, s.InDown q → q ≠ s.sched.current := fun q => ne_current hnow
  refine h.congr rfl rfl rfl (fun q => ?_) (fun q hq => ?_) (fun q hd hrun => ?_) (fun t ht => ?_)
    hnd (h.sched.modifyProc h.sched.current _) (fun b hb => ?_) ?_
  · rcases eq_or_ne q s.sched.current with rfl | hq
    · refine iff_of_false ?_ fun hd => hother _ hd rfl
      simpa [InDown, setPc] using ⟨hc, hc' _⟩
    · simp [InDown, setPc, hq]
  · have := hother q (h.queued q hq).1
    simp [setPc, Sched.modifyProc_proc, this]
  · have := hother q hd
    simpa [setPc, Sched.modifyProc_proc, this] using hrun
  · rcases hts t ht with hold | ⟨heq, rfl⟩
    · have hs := h.timers t hold
      have hne : t ≠ s.sched.current := fun heq => by
        unfold now at hnow
        rcases hs with hs | hs <;> simp [heq, hnow] at hs
      simpa [InSleep, setPc, hne] using hs
    · simp [InSleep, setPc, heq]
  · simp only [now, setPc, Sched.modifyProc_current, Function.update_self] at hb
    exact absurd hb (hc' b)
  · simpa [setPc, hidle.symm] using h.idle

/-- A process back from a wait of its own goes on running. -/
theorem resume (h : Coherent s Q) {b : Blocked} (hnow : s.now = .away b) (hb : b ≠ .down)
    {ts : List (ℕ × ℕ)} (hts : (sleepers ts).Sublist (sleepers s.timers))
    (hself : b = .sleep → s.sched.current ∉ sleepers ts) :
    Coherent ({ s with timers := ts }.setPc s.sched.current .running) Q := by
  unfold now at hnow
  refine h.congr rfl rfl rfl (fun q => ?_) (fun q hq => rfl) (fun q _ => id) (fun t ht => ?_)
    (h.timers_nodup.sublist hts) h.sched (fun b' hb' => ?_) ?_
  · rcases eq_or_ne q s.sched.current with rfl | hq
    · simp [InDown, setPc, hnow, hb]
    · simp [InDown, setPc, hq]
  · have hs := h.timers t (hts.subset ht)
    have hne : t ≠ s.sched.current := fun hcur => by
      rw [hcur] at hs
      rcases hs with hs | hs
      · simp [hnow] at hs
      · rw [hnow] at hs
        exact hself (by simpa using hs) (hcur ▸ ht)
    simpa [InSleep, setPc, hne] using hs
  · simp [now, setPc] at hb'
  · simp only [setPc, Function.update_apply]
    split
    · rfl
    · exact h.idle

/-- A granted process leaves `down`. -/
theorem back (h : Coherent s Q) (hnow : s.now = .away .down) (hQ : s.sched.current ∉ Q) :
    Coherent (s.setPc s.sched.current .running) Q := by
  unfold now at hnow
  refine ⟨h.ring, fun q hq => ?_, fun q hq hd => ?_, fun q hq => ?_, h.timers_nodup, h.sched,
    fun b hb => ?_, ?_, h.nonneg, h.empty_of_pos⟩
  · have hne : q ≠ s.sched.current := fun heq => hQ (heq ▸ hq)
    simpa [InDown, setPc, hne] using h.queued q hq
  · rcases eq_or_ne q s.sched.current with rfl | hne
    · simp [InDown, setPc] at hd
    · exact h.granted q hq (by simpa [InDown, setPc, hne] using hd)
  · have hs := h.timers q hq
    have hne : q ≠ s.sched.current := fun heq => not_inSleep (.inr (heq ▸ hnow)) hs
    simpa [InSleep, setPc, hne] using hs
  · simp [now, setPc] at hb
  · simp only [setPc, Function.update_apply]
    split
    · rfl
    · exact h.idle

end Coherent

/-! ## The sections of the semaphore -/

section Sections

variable {s : SemSys} {Q : List ℕ} {α : Type} {P : α → SemSys → Prop} {E : Stop → Prop}

@[simp] theorem wp_onSched (m : Sched.Call α) : Act.wp (onSched m) P E s ↔
    Act.wp m (fun a t => P a { s with sched := t }) E s.sched := Act.wp_zoom _ _ m

@[simp] theorem wp_setLinks {P : Unit → SemSys → Prop} (f : Links WaitEntry → Links WaitEntry) :
    Act.wp (setLinks f) P E s ↔ P () { s with links := f s.links } := Iff.rfl

/-- A process taken off the queue is linked to nobody; one on it is. -/
theorem Coherent.listEmpty_iff (h : Coherent s Q) {p : ℕ} (hp : s.InDown p) :
    listEmpty s.links (.waitLink p) = true ↔ p ∉ Q := by
  rw [listEmpty, decide_eq_true_iff]
  refine ⟨fun hself hQ => ?_, fun hQ => (h.granted p hQ hp).2.2⟩
  obtain ⟨as, bs, rfl⟩ := List.append_of_mem hQ
  have hr := h.ring
  rw [List.map_append, List.map_cons] at hr
  have hnext := hr.next_entry
  have hmem := Links.after_mem WaitEntry.head (bs.map .waitLink)
  rw [← hnext, hself] at hmem
  have hnd := List.nodup_middle.mp
    (show (WaitEntry.head :: as.map WaitEntry.waitLink ++ WaitEntry.waitLink p ::
      bs.map WaitEntry.waitLink).Nodup from hr.nodup)
  refine hnd.notMem ?_
  simp only [List.mem_cons, List.mem_append] at hmem ⊢
  tauto

/-- **`__up`** gives its unit to the first waiter, or to `value`; its assertions hold. -/
theorem wp_up (h : Coherent s Q) (hv : s.value < 2 ^ 31 - 1) :
    Act.wp _up
      (fun r s' => ∃ Q', Coherent s' Q' ∧ Q = r.toList ++ Q' ∧
        s'.value = s.value + (if r = none then 1 else 0) ∧ s'.pc = s.pc ∧
        s'.sched.current = s.sched.current)
      (fun _ => False) s := by
  have hfirst : waitQueueFirst s.links = Q.head? := by
    rw [waitQueueFirst, listNext, h.ring.next_head]
    cases Q <;> rfl
  simp only [_up, Act.wp_bind, Act.wp_get, hfirst]
  cases Q with
  | nil =>
    have hwrap : toS32 (s.value + 1) = s.value + 1 := by
      have := h.nonneg
      exact toS32_of_mem (by omega) (by omega)
    simp only [List.head?_nil, Act.wp_bind, Act.wp_modify, Act.wp_pure, hwrap]
    refine ⟨[], ⟨h.ring, h.queued, h.granted, h.timers, h.timers_nodup, h.sched, h.awake, h.idle, ?_,
      fun _ => rfl⟩, rfl, by simp, trivial, trivial⟩
    have := h.nonneg
    simp only
    omega
  | cons p Q =>
    obtain ⟨hdown, hsleep, hwait⟩ := h.queued p (by simp)
    have hnd := h.ring.nodup
    have hpQ : p ∉ Q := by
      rw [List.map_cons, List.nodup_cons, List.nodup_cons] at hnd
      simpa using hnd.2.1
    have hlinked : listEmpty s.links (.waitLink p) = false := by
      rw [← Bool.not_eq_true, h.listEmpty_iff hdown]
      simp
    obtain ⟨hring, hself⟩ := ring_listDelInit (u := []) h.ring
    simp only [List.head?_cons, Act.wp_bind, Act.wp_get, Act.wp_require, wakeupWait, waitQueueDel,
      if_true, wp_setLinks, Act.wp_modify, wp_onSched, Act.wp_pure, hlinked, hwait]
    refine ⟨fun _ => ⟨fun _ => ?_, fun h => absurd rfl h⟩, fun h => absurd trivial h⟩
    refine Act.wp_mono (Sched.wp_wakeupProc p s.sched) (fun _ t hw => ?_) fun e he => ?_
    · refine ⟨Q, ⟨hring, fun q hq => ?_, fun q hq hd => ?_, h.timers, h.timers_nodup, hw.ok h.sched,
        fun b hb => ?_, h.idle, h.nonneg, fun hpos => absurd (h.empty_of_pos hpos) (by simp)⟩, rfl,
        by simp, trivial, hw.current⟩
      · have hqp : q ≠ p := fun heq => hpQ (heq ▸ hq)
        simp only [hw.other q hqp]
        exact h.queued q (by simp [hq])
      · rcases eq_or_ne q p with rfl | hqp
        · exact ⟨hw.state, by simp, hself⟩
        · have hq' : q ∉ p :: Q := by simp [hqp, hq]
          obtain ⟨hrun, hflags, hnext⟩ := h.granted q hq' hd
          refine ⟨hw.runnable q hrun, by simpa [hqp] using hflags, ?_⟩
          exact (next_listDelInit (u := []) h.ring (Coherent.waitLink_fresh hq')).trans hnext
      · simp only [now, hw.current] at hb ⊢
        exact hw.runnable _ (h.awake b hb)
    · rcases he with hz | ⟨-, hq⟩
      · simp [hsleep] at hz
      · exact absurd (h.sched.runnable p hq) (by simp [hsleep])

/-- **The first section of `__down`** takes a unit, or puts the process last on the queue. -/
theorem wp_downFirst (h : Coherent s Q) (hnow : s.now = .running)
    (hidle : 0 < s.value ∨ s.sched.current ≠ idleproc) :
    Act.wp _downFirst
      (fun r s' => s'.sched.current = s.sched.current ∧ s'.pc = s.pc ∧
        (r = true ∧ Coherent s' Q ∧ s'.value = s.value - 1 ∨ r = false ∧ s'.value = s.value ∧
          Coherent (s'.setPc s.sched.current (.leaving .down)) (Q ++ [s.sched.current])))
      (fun _ => False) s := by
  simp only [_downFirst, waitCurrentSet, waitInit, waitQueueAdd, Act.wp_bind, Act.wp_get, Act.wp_ite,
    Act.wp_modify, Act.wp_pure, wp_setLinks, wp_onSched, Act.wp_require]
  generalize hp : s.sched.current = p at *
  have hdown : ¬ s.InDown p := fun hd => Coherent.ne_current hnow hd hp.symm
  have hpQ : p ∉ Q := fun hq => hdown (h.queued p hq).1
  have hpc : s.pc p = .running := by rw [← hp]; exact hnow
  refine ⟨fun hpos => ?_, fun hpos => ⟨fun _ => ?_, fun hn => absurd ?_ hn⟩⟩
  · refine ⟨trivial, trivial, .inl ⟨trivial, ⟨h.ring, h.queued, h.granted, h.timers, h.timers_nodup,
      h.sched, h.awake, h.idle, ?_, fun _ => h.empty_of_pos hpos⟩, trivial⟩⟩
    simp only
    omega
  · have hfresh := Coherent.waitLink_fresh hpQ
    have hring := ring_listInit_other h.ring hfresh
    have hadd := ring_listAddBefore (x := .waitLink p) (u := Q.map WaitEntry.waitLink) (v := [])
      (by simpa using hring) (by simpa using hfresh)
    have hcur : p ∉ s.sched.runList := by rw [← hp]; exact h.sched.current
    refine ⟨hp, trivial, .inr ⟨trivial, trivial, ?_, fun q hq => ?_, fun q hq hd => ?_,
      fun q hq => ?_, h.timers_nodup, ?_, fun b hb => ?_, ?_, h.nonneg, fun hv => absurd hv hpos⟩⟩
    · simpa [setPc] using hadd
    · rcases eq_or_ne q p with rfl | hqp
      · simp [InDown, setPc, Sched.modifyProc_proc]
      · simpa [InDown, setPc, Sched.modifyProc_proc, hqp] using
          h.queued q (by simpa [hqp] using hq)
    · have hqp : q ≠ p := fun heq => hq (by simp [heq])
      have hqQ : q ∉ Q := fun hmem => hq (by simp [hmem])
      obtain ⟨hrun, hflags, hnext⟩ := h.granted q hqQ (by simpa [InDown, setPc, hqp] using hd)
      refine ⟨by simpa [setPc, Sched.modifyProc_proc, hqp] using hrun, by simpa [setPc, hqp] using hflags,
        ?_⟩
      have hne : WaitEntry.waitLink q ≠ .waitLink p := by simpa using hqp
      refine (next_listAddBefore hring hne (Coherent.waitLink_fresh hqQ)).trans ?_
      simpa [listInit, hne] using hnext
    · have hs := h.timers q hq
      have hqp : q ≠ p := fun heq => by
        rw [heq] at hs
        rcases hs with hs | hs <;> simp [hpc] at hs
      simpa [InSleep, setPc, hqp] using hs
    · exact h.sched.modifyProc hcur fun g => { g with state := .sleeping, waitState := WT_KSEM }
    · simp [now, setPc, hp] at hb
    · have hne : idleproc ≠ p := (hidle.resolve_left hpos).symm
      simpa [setPc, hne] using h.idle
  · simp [listEmpty, listInit]

/-- **The second section of `__down`** finds the grant: nothing is left on the queue, the flags are
those of `__up`, and the assertion of `down` holds. -/
theorem wp_downReturn (h : Coherent s Q) (hnow : s.now = .away .down) :
    s.sched.current ∉ Q ∧ Act.wp downReturn
      (fun _ s' => s' = s ∧ Coherent (s.setPc s.sched.current .running) Q) (fun _ => False) s := by
  have hd : s.InDown s.sched.current := .inr hnow
  have hQ : s.sched.current ∉ Q := fun hq => by
    have hsleep := (h.queued _ hq).2.1
    rw [h.awake _ hnow] at hsleep
    cases hsleep
  refine ⟨hQ, ?_⟩
  simp only [downReturn, _downLast, waitCurrentDel, waitQueueDel, Act.wp_bind, Act.wp_get, Act.wp_ite,
    Act.wp_require, Act.wp_pure, (h.listEmpty_iff hd).mpr hQ, (h.granted _ hQ hd).2.1]
  exact ⟨fun hf => absurd hf (by simp), fun _ => ⟨fun _ => ⟨trivial, h.back hnow hQ⟩,
    fun hf => absurd (by simp) hf⟩⟩

theorem wp_tryDown (h : Coherent s Q) :
    Act.wp tryDown
      (fun r s' => Coherent s' Q ∧ s'.value = s.value - (if r = true then 1 else 0))
      (fun _ => False) s := by
  simp only [tryDown, Act.wp_bind, Act.wp_get, Act.wp_ite, Act.wp_modify, Act.wp_pure]
  refine ⟨fun hpos => ⟨⟨h.ring, h.queued, h.granted, h.timers, h.timers_nodup, h.sched, h.awake,
    h.idle, ?_, fun _ => h.empty_of_pos hpos⟩, by simp⟩, fun _ => ⟨h, by simp⟩⟩
  simp only
  omega

end Sections

/-! ## The sections of the scheduler and the timers -/

section Others

variable {s s' : SemSys} {Q : List ℕ}

theorem sleepers_addTimer (e p : ℕ) (ts : List (ℕ × ℕ)) :
    (sleepers (addTimer e p ts)).Perm (p :: sleepers ts) := by
  induction ts generalizing e with
  | nil => exact .refl _
  | cons t ts ih =>
    simp only [addTimer]
    split
    · exact .refl _
    · exact ((ih (e - t.1)).cons t.2).trans (.swap p t.2 _)

theorem sleepers_delTimer (p : ℕ) (ts : List (ℕ × ℕ)) :
    sleepers (delTimer p ts) = (sleepers ts).erase p := by
  induction ts with
  | nil => rfl
  | cons t ts ih =>
    simp only [delTimer, sleepers, List.map_cons, List.erase_cons, beq_iff_eq]
    split
    · cases ts <;> rfl
    · rw [List.map_cons]
      exact congrArg _ ih

/-- The timer loop wakes processes that sleep in `do_sleep` only. -/
theorem wp_fireTimers (h : Coherent s Q) (ts : List (ℕ × ℕ)) (hts : ∀ p ∈ sleepers ts, s.InSleep p) :
    Act.wp (fireTimers ts)
      (fun r s' => ∃ t, s' = { s with sched := t } ∧ Coherent s' Q ∧
        t.current = s.sched.current ∧ (sleepers r).Sublist (sleepers ts))
      (fun _ => True) s := by
  induction ts generalizing s with
  | nil => exact ⟨s.sched, rfl, h, rfl, .refl _⟩
  | cons t ts ih =>
    obtain ⟨e, p⟩ := t
    have hp : p ∉ Q := fun hq =>
      Coherent.not_inSleep (h.queued p hq).1 (hts p (by simp [sleepers]))
    have hfire : Act.wp (do onSched (Sched.wakeupProc p); fireTimers ts)
        (fun r s' => ∃ t, s' = { s with sched := t } ∧ Coherent s' Q ∧
          t.current = s.sched.current ∧ (sleepers r).Sublist (sleepers ((e, p) :: ts)))
        (fun _ => True) s := by
      rw [Act.wp_bind, wp_onSched]
      refine Act.wp_mono (Sched.wp_wakeupProc p s.sched) (fun _ t hw => ?_) fun _ _ => trivial
      refine Act.wp_mono (ih (h.woken hp hw) fun q hq => hts q (by simp [sleepers] at hq ⊢; tauto))
        ?_ fun _ => id
      rintro r s' ⟨t', rfl, hc, hcur, hsub⟩
      exact ⟨t', rfl, hc, hcur.trans hw.current, hsub.cons _⟩
    simp only [fireTimers, Act.wp_ite, Act.wp_bind, Act.wp_get, Act.wp_require, Act.wp_pure]
    simp only [Act.wp_bind] at hfire
    refine ⟨fun _ => ⟨fun _ => ⟨fun _ => hfire, fun _ => trivial⟩, fun _ => hfire⟩, fun _ => ?_⟩
    exact ⟨s.sched, rfl, h, rfl, .refl _⟩

theorem wp_runTimerList (h : Coherent s Q) :
    Act.wp runTimerList (fun _ s' => Coherent s' Q ∧ s'.value = s.value) (fun _ => True) s := by
  rw [runTimerList, Act.wp_bind, Act.wp_get]
  have hts := h.timers
  have hnd := h.timers_nodup
  cases hcut : s.timers with
  | nil => exact ⟨h, rfl⟩
  | cons t ts =>
    rw [hcut] at hts hnd
    simp only [Act.wp_bind, Act.wp_require, Act.wp_modify]
    refine ⟨fun _ => ?_, fun _ => trivial⟩
    refine Act.wp_mono (wp_fireTimers h ((t.1 - 1, t.2) :: ts) hts) ?_ fun _ => id
    rintro r s' ⟨t', rfl, hc, -, hsub⟩
    refine ⟨hc.congr rfl rfl rfl (fun _ => Iff.rfl) (fun _ _ => rfl) (fun _ _ => id)
      (fun q hq => hts q (hsub.subset hq)) (hnd.sublist hsub) hc.sched hc.awake hc.idle, rfl⟩

/-- `do_kill` finds no reason to wake a process that waits on the semaphore. -/
theorem wp_kill (h : Coherent s Q) (p : ℕ) :
    Act.wp (onSched (Sched.doKill p)) (fun _ s' => Coherent s' Q ∧ s'.value = s.value)
      (fun _ => True) s := by
  rw [wp_onSched]
  refine Act.wp_mono (Sched.wp_doKill p s.sched) ?_ fun _ => id
  have hmark : ∀ b, Coherent { s with
      sched := s.sched.modifyProc p fun g => { g with exiting := b } } Q := fun b => by
    have hstate : ∀ q, ((s.sched.modifyProc p fun g => { g with exiting := b }).proc q).state =
        (s.sched.proc q).state := fun q => by
      rw [Sched.modifyProc_proc]
      split <;> simp_all
    have hwait : ∀ q, ((s.sched.modifyProc p fun g => { g with exiting := b }).proc q).waitState =
        (s.sched.proc q).waitState := fun q => by
      rw [Sched.modifyProc_proc]
      split <;> simp_all
    refine ⟨h.ring, fun q hq => ?_, fun q hq hd => ?_, h.timers, h.timers_nodup,
      h.sched.congr rfl rfl hstate, fun b hb => ?_, h.idle, h.nonneg, h.empty_of_pos⟩
    · simp only [hstate, hwait]
      exact h.queued q hq
    · simp only [hstate]
      exact h.granted q hq hd
    · simp only [hstate]
      exact h.awake b hb
  rintro - t ⟨b, rfl | ⟨hint, hw⟩⟩
  · exact ⟨hmark b, rfl⟩
  · refine ⟨(hmark b).woken (fun hq => hint ?_) hw, rfl⟩
    rw [(h.queued p hq).2.2]
    decide

theorem coherent_schedule (h : Coherent s Q) (pickNext : List ℕ → Option ℕ)
    (hnow : ∀ b, s.now ≠ .away b) :
    Act.wp (onSched (Sched.schedule pickNext))
      (fun _ s' => Coherent (s'.setPc s.sched.current (leave s.now)) Q ∧ s'.value = s.value)
      (fun _ => True) s := by
  rw [wp_onSched]
  refine Act.wp_mono (Sched.wp_schedule pickNext h.sched) ?_ fun _ => id
  rintro - t ⟨hproc, hok, hnext⟩
  have hleave : ∀ b, leave s.now = .leaving b ∨ leave s.now = .away b ↔
      s.now = .leaving b ∨ s.now = .away b := fun b => by
    cases hc : s.now with
    | running => simp [leave]
    | leaving b' => simp [leave]
    | away b' => exact absurd hc (hnow b')
  have hpc : ∀ b q, (Function.update s.pc s.sched.current (leave s.now) q = .leaving b ∨
      Function.update s.pc s.sched.current (leave s.now) q = .away b) ↔
      (s.pc q = .leaving b ∨ s.pc q = .away b) := fun b q => by
    rcases eq_or_ne q s.sched.current with rfl | hq
    · rw [Function.update_self]
      exact hleave b
    · rw [Function.update_of_ne hq]
  have hidle : (setPc { s with sched := t } s.sched.current (leave s.now)).pc idleproc = .running := by
    rcases eq_or_ne idleproc s.sched.current with heq | hne
    · have hrun : s.now = .running := by rw [now, ← heq, h.idle]
      simp [setPc, ← heq, hrun, leave]
    · simpa [setPc, hne] using h.idle
  refine ⟨h.congr rfl rfl rfl (hpc .down) (fun q _ => ?_) (fun q _ hrun => ?_)
    (fun q hq => (hpc .sleep q).mpr (h.timers q hq)) h.timers_nodup hok (fun b hb => ?_) hidle, rfl⟩
  · exact congrFun hproc q
  · exact hproc ▸ hrun
  · rcases hnext with heq | hrun
    · rw [now] at hb
      have hcur : (setPc { s with sched := t } s.sched.current (leave s.now)).sched.current =
        idleproc := heq
      rw [hcur, hidle] at hb
      cases hb
    · exact hproc ▸ hrun

/-- `do_exit` wakes a parent that waits for a child, which no process on the queue does. -/
theorem wp_exit (h : Coherent s Q) (hnow : s.now = .running) (hidle : s.sched.current ≠ idleproc)
    (parent : ℕ) :
    Act.wp (onSched (Sched.exitSection parent))
      (fun _ s' => Coherent (s'.setPc s.sched.current (.leaving .exit)) Q ∧ s'.value = s.value)
      (fun _ => True) s := by
  have hmid := h.move hnow hidle (fun g => { g with state := .zombie }) (c := .leaving .exit)
    (by simp) (by simp) h.timers_nodup fun _ => .inl
  simp only [Sched.exitSection, wp_onSched, Act.wp_bind, Act.wp_modify, Act.wp_get, Act.wp_ite,
    Act.wp_pure]
  refine ⟨fun hchild => ?_, fun _ => ⟨hmid, trivial⟩⟩
  refine Act.wp_mono (Sched.wp_wakeupProc parent _) (fun _ t hw => ⟨?_, trivial⟩) fun _ _ => trivial
  refine hmid.woken (fun hq => ?_) hw
  have hsem := (hmid.queued parent hq).2.2
  exact absurd (hchild.symm.trans hsem) (by decide)

theorem wp_sleepSection (h : Coherent s Q) (hnow : s.now = .running)
    (hidle : s.sched.current ≠ idleproc) (time : ℕ) :
    Act.wp (sleepSection time)
      (fun _ s' => Coherent (s'.setPc s.sched.current (.leaving .sleep)) Q ∧ s'.value = s.value)
      (fun _ => True) s := by
  simp only [sleepSection, wp_onSched, Act.wp_bind, Act.wp_modify, Act.wp_get]
  have hperm := sleepers_addTimer time s.sched.current s.timers
  refine ⟨h.move hnow hidle (fun g => { g with state := .sleeping, waitState := WT_TIMER })
    (by simp) (by simp) (hperm.nodup_iff.mpr (List.nodup_cons.mpr ⟨fun hmem => ?_, h.timers_nodup⟩))
    fun p hp => ?_, trivial⟩
  · unfold now at hnow
    rcases h.timers _ hmem with hs | hs <;> simp [hnow] at hs
  · rcases List.mem_cons.mp (hperm.mem_iff.mp hp) with hp | hp
    · exact .inr ⟨hp, rfl⟩
    · exact .inl hp

theorem coherent_sleepReturn (h : Coherent s Q) (hnow : s.now = .away .sleep) :
    Coherent ({ s with timers := delTimer s.sched.current s.timers }.setPc s.sched.current .running)
      Q := by
  refine h.resume hnow (by simp) ?_ fun _ => ?_
  · rw [sleepers_delTimer]
    exact List.erase_sublist
  · rw [sleepers_delTimer]
    exact h.timers_nodup.not_mem_erase

end Others

/-! ## Whole runs -/

section Runs

variable {s s' : SemSys} {Q : List ℕ} {e : Event} {evs : List Event} {v : ℤ}

/-- **One step** moves the queue and the value by its event. -/
theorem coherent_step (h : Coherent s Q) (hv : e.isUp = true → s.value < 2 ^ 31 - 1)
    (hs : Step s e s') :
    ∃ Q', Coherent s' Q' ∧ Q ++ e.blocks.toList = e.ends.toList ++ Q' ∧
      s'.value = s.value + (if e.isUp then 1 else 0) - (if e.isGrant then 1 else 0) := by
  cases hs with
  | @up _ r hnow hup =>
    obtain ⟨Q', hc, hQ, hval, -⟩ := Act.wp_of_ok (wp_up h (hv rfl)) hup
    refine ⟨Q', hc, by simpa [Event.blocks, Event.ends] using hQ, ?_⟩
    cases r <;> simp [Event.isUp, Event.isGrant, hval]
  | take hnow hdown =>
    have hpos : 0 < s.value := by
      by_contra hn
      have hwp : Act.wp _downFirst (fun r _ => r = false) (fun _ => True) s := by
        simp only [_downFirst, waitCurrentSet, waitInit, waitQueueAdd, Act.wp_bind, Act.wp_get,
          Act.wp_ite, Act.wp_pure, Act.wp_require, Act.wp_modify, wp_setLinks, wp_onSched]
        exact ⟨fun hp => absurd hp hn, fun _ => ⟨fun _ => trivial, fun _ => trivial⟩⟩
      cases Act.wp_of_ok hwp hdown
    obtain ⟨-, -, ⟨-, hc, hval⟩ | ⟨hf, -⟩⟩ := Act.wp_of_ok (wp_downFirst h hnow (.inl hpos)) hdown
    · exact ⟨Q, hc, by simp [Event.blocks, Event.ends], by simp [Event.isUp, Event.isGrant, hval]⟩
    · cases hf
  | block hnow hidle hdown =>
    obtain ⟨-, -, ⟨hf, -⟩ | ⟨-, hval, hc⟩⟩ := Act.wp_of_ok (wp_downFirst h hnow (.inr hidle)) hdown
    · cases hf
    · exact ⟨_, hc, by simp [Event.blocks, Event.ends],
        by simpa [Event.isUp, Event.isGrant, setPc] using hval⟩
  | back hnow hret =>
    obtain ⟨rfl, hc⟩ := Act.wp_of_ok (wp_downReturn h hnow).2 hret
    exact ⟨Q, hc, by simp [Event.blocks, Event.ends], by simp [Event.isUp, Event.isGrant, setPc]⟩
  | @tryDown _ b hnow htry =>
    obtain ⟨hc, hval⟩ := Act.wp_of_ok (wp_tryDown h) htry
    refine ⟨Q, hc, by simp [Event.blocks, Event.ends], ?_⟩
    cases b <;> simp [Event.isUp, Event.isGrant, hval]
  | sleep hnow hidle hsl =>
    obtain ⟨hc, hval⟩ := Act.wp_of_ok (wp_sleepSection h hnow hidle _) hsl
    exact ⟨Q, hc, by simp [Event.blocks, Event.ends],
      by simpa [Event.isUp, Event.isGrant, setPc] using hval⟩
  | sleepBack hnow hret =>
    cases hret
    exact ⟨Q, coherent_sleepReturn h hnow, by simp [Event.blocks, Event.ends],
      by simp [Event.isUp, Event.isGrant, setPc]⟩
  | wait hnow hidle hw =>
    cases hw
    have hc := h.move hnow hidle (fun g => { g with state := .sleeping, waitState := WT_CHILD })
      (c := .leaving .wait) (by simp) (by simp) h.timers_nodup fun _ => .inl
    exact ⟨Q, hc, by simp [Event.blocks, Event.ends], by simp [Event.isUp, Event.isGrant, setPc]⟩
  | waitBack hnow =>
    exact ⟨Q, h.resume hnow (by simp) (.refl _) (by simp), by simp [Event.blocks, Event.ends],
      by simp [Event.isUp, Event.isGrant, setPc]⟩
  | exit hnow hidle hex =>
    obtain ⟨hc, hval⟩ := Act.wp_of_ok (wp_exit h hnow hidle _) hex
    exact ⟨Q, hc, by simp [Event.blocks, Event.ends],
      by simpa [Event.isUp, Event.isGrant, setPc] using hval⟩
  | @fork _ p hnow huninit hf =>
    have hp : p ∉ Q := fun hq => by
      have hsleep := (h.queued p hq).2.1
      rw [huninit] at hsleep
      cases hsleep
    have hwp : Act.wp (onSched (Sched.wakeupProc p))
        (fun _ s' => Coherent s' Q ∧ s'.value = s.value) (fun _ => True) s := by
      rw [wp_onSched]
      exact Act.wp_mono (Sched.wp_wakeupProc p s.sched) (fun _ t hw => ⟨h.woken hp hw, rfl⟩)
        fun _ _ => trivial
    obtain ⟨hc, hval⟩ := Act.wp_of_ok hwp hf
    exact ⟨Q, hc, by simp [Event.blocks, Event.ends], by simp [Event.isUp, Event.isGrant, hval]⟩
  | kill hnow hk =>
    obtain ⟨hc, hval⟩ := Act.wp_of_ok (wp_kill h _) hk
    exact ⟨Q, hc, by simp [Event.blocks, Event.ends], by simp [Event.isUp, Event.isGrant, hval]⟩
  | tick ht =>
    obtain ⟨hc, hval⟩ := Act.wp_of_ok (wp_runTimerList h) ht
    exact ⟨Q, hc, by simp [Event.blocks, Event.ends], by simp [Event.isUp, Event.isGrant, hval]⟩
  | schedule hnow hsch =>
    obtain ⟨hc, hval⟩ := Act.wp_of_ok (coherent_schedule h _ hnow) hsch
    exact ⟨Q, hc, by simp [Event.blocks, Event.ends],
      by simpa [Event.isUp, Event.isGrant, setPc] using hval⟩

/-- The wait queue is empty after `sem_init`. -/
theorem coherent_init (hv : 0 ≤ v) (h : Initial s) :
    Act.wp (semInit v) (fun _ s' => Coherent s' [] ∧ s'.value = v) (fun _ => False) s := by
  simp only [semInit, Act.wp_bind, Act.wp_modify, wp_setLinks]
  refine ⟨⟨ring_listInit _ _, by simp, fun p _ hd => ?_, ?_, ?_, h.sched, fun b hb => ?_, h.pc _, hv,
    fun _ => rfl⟩, trivial⟩
  · simp [InDown, h.pc] at hd
  · simp [sleepers, h.timers]
  · simp [sleepers, h.timers]
  · simp [now, h.pc] at hb

/-- **The history of the semaphore**: the value counts the units, and the waits end in the order
they began. -/
theorem coherent_of_run (hv : 0 ≤ v) (h : Run v (fun s => s.value < 2 ^ 31 - 1) evs s) :
    ∃ Q, Coherent s Q ∧ s.value = v + evs.countP Event.isUp - evs.countP Event.isGrant ∧
      blocked evs = granted evs ++ Q := by
  induction h with
  | init hi hsem =>
    obtain ⟨hc, hval⟩ := Act.wp_of_ok (coherent_init hv hi) hsem
    exact ⟨[], hc, by simp [hval], rfl⟩
  | @step evs e s s' _ hg hs ih =>
    obtain ⟨Q, hc, hval, hfifo⟩ := ih
    obtain ⟨Q', hc', hQ, hval'⟩ := coherent_step hc hg hs
    refine ⟨Q', hc', ?_, ?_⟩
    · rw [hval', hval]
      simp only [List.countP_append, List.countP_singleton]
      split_ifs <;> push_cast <;> ring
    · have hb : blocked (evs ++ [e]) = blocked evs ++ e.blocks.toList := by
        unfold blocked
        cases hbl : e.blocks <;> simp [hbl]
      have hg : granted (evs ++ [e]) = granted evs ++ e.ends.toList := by
        unfold granted
        cases hen : e.ends <;> simp [hen]
      rw [hb, hg, hfifo, List.append_assoc, hQ, List.append_assoc]

/-- **Semaphores over whole runs**, with no `up` at the largest `int`: the value is never negative
and counts the units, it is positive only with an empty queue, blocked downs are granted first in
first out, each by one up, no assertion of `__up` or `down` fails, and a process comes back from
`down` only when all its waits have been granted. -/
theorem sem_run (hv : 0 ≤ v) (h : Run v (fun s => s.value < 2 ^ 31 - 1) evs s) :
    ∃ Q : List ℕ, s.links.Ring .head (Q.map .waitLink) ∧ 0 ≤ s.value ∧ (0 < s.value → Q = []) ∧
      s.value = v + evs.countP Event.isUp - evs.countP Event.isGrant ∧
      blocked evs = granted evs ++ Q ∧
      (s.value < 2 ^ 31 - 1 → ∃ r s', _up s = .ok (r, s')) ∧
      (s.now = .running → s.sched.current ≠ idleproc → ∃ r s', _downFirst s = .ok (r, s')) ∧
      (s.now = .away .down → downReturn s = .ok ((), s) ∧
        (granted evs).count s.sched.current = (blocked evs).count s.sched.current) := by
  obtain ⟨Q, hc, hval, hfifo⟩ := coherent_of_run hv h
  refine ⟨Q, hc.ring, hc.nonneg, hc.empty_of_pos, hval, hfifo, fun hmax => ?_, fun hnow hidle => ?_,
    fun hnow => ?_⟩
  · obtain ⟨r, s', hr, -⟩ := Act.wp_false_iff.mp (wp_up hc hmax)
    exact ⟨r, s', hr⟩
  · obtain ⟨r, s', hr, -⟩ := Act.wp_false_iff.mp (wp_downFirst hc hnow (.inr hidle))
    exact ⟨r, s', hr⟩
  · obtain ⟨hQ, hret⟩ := wp_downReturn hc hnow
    obtain ⟨_, s', hr, rfl, -⟩ := Act.wp_false_iff.mp hret
    refine ⟨hr, ?_⟩
    rw [hfifo, List.count_append, List.count_eq_zero.mpr hQ, Nat.add_zero]

end Runs

/-- Two processes and `idleproc`, process 1 running. -/
def twoProcs : SemSys :=
  ⟨⟨fun _ => ⟨.runnable, 0, false⟩, 1, [2]⟩, [], 0, ⟨id, id⟩, fun _ => 0, fun _ => .running⟩

theorem initial_twoProcs : Initial twoProcs :=
  ⟨fun _ => rfl, rfl, by decide, fun _ _ => rfl, by decide, by decide⟩

/-- Process 1 blocks, process 2 grants it a unit, and process 1 comes back. -/
theorem sem_run_handOver : ∃ s, Run 0 (fun s => s.value < 2 ^ 31 - 1)
    [.block 1, .other, .up (some 1), .other, .back 1] s ∧ s.value = 0 ∧
      ∃ Q : List ℕ, s.links.Ring .head (Q.map .waitLink) ∧ [1] = [1] ++ Q := by
  have h₀ : Run 0 (fun s => s.value < 2 ^ 31 - 1) [] _ := .init initial_twoProcs rfl
  have h₁ := h₀.step (by simp [Event.isUp]) (.block rfl (by decide) rfl)
  have h₂ := h₁.step (by simp [Event.isUp])
    (.schedule (fun b => by cases b <;> decide)
      (show onSched (Sched.schedule List.head?) _ = .ok ((), _) from rfl))
  have h₃ := h₂.step (fun _ => by decide) (.up (r := some 1) rfl rfl)
  have h₄ := h₃.step (by simp [Event.isUp])
    (.schedule (fun b => by cases b <;> decide)
      (show onSched (Sched.schedule List.head?) _ = .ok ((), _) from rfl))
  have h₅ := h₄.step (by simp [Event.isUp]) (.back rfl rfl)
  obtain ⟨Q, hring, -, -, -, hfifo, -⟩ := sem_run le_rfl h₅
  exact ⟨_, h₅, rfl, Q, hring, hfifo⟩

/-- An `up` at the largest `int` makes the value negative. -/
theorem sem_run_overflow : ∃ s, Run (2 ^ 31 - 1) (fun _ => True) [.up none] s ∧ s.value < 0 := by
  have h₀ : Run (2 ^ 31 - 1) (fun _ => True) [] _ := .init initial_twoProcs rfl
  have h₁ := h₀.step (fun _ => trivial) (.up (r := none) rfl rfl)
  exact ⟨_, h₁, by decide⟩

end UCore.SemSys
