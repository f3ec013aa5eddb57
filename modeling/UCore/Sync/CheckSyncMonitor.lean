import UCore.Sync.CheckSyncRun

/-!
# Sync/CheckSyncMonitor — the philosophers over the monitor, and both versions together

In the monitor version a grant is a hand-over.  `put_forks` writes `EATING` for a neighbour who sleeps
in `cond_wait`, signals, and waits on `next` until the neighbour has left; then it goes on to its
second test.

    testSignal ──▸ signalTest ──▸ signalCount ──▸ signalUp ──▸ signalDown
                                                     ╰──▸ the sleeper wakes, EATING

Only philosopher `i` ever waits on `cv[i]`, so the signal in `take_forks` finds nobody, and the one in
`put_forks` finds the sleeper it is for.
-/

namespace UCore

namespace CheckSync

variable {N : ℕ}

namespace Condvar

variable {x x' : Condvar N} {i j u t c : Fin N} {v : PhiState} {p : Place}
  {m : MonitorPc (Fin N)}

@[simp] theorem goto_state : (x.goto i p).state = x.state := rfl

@[simp] theorem goto_mt : (x.goto i p).mt = x.mt := rfl

@[simp] theorem enter_state : (x.enter i m).state = x.state := rfl

@[simp] theorem enter_place : (x.enter i m).place = x.place := rfl

@[simp] theorem setState_mt : (x.setState j v).mt = x.mt := rfl

@[simp] theorem setState_place : (x.setState j v).place = x.place := rfl

@[simp] theorem goto_place_self : (x.goto i p).place i = p := Function.update_self ..

theorem goto_place_of_ne (h : j ≠ i) : (x.goto i p).place j = x.place j :=
  Function.update_of_ne h ..

@[simp] theorem enter_pc_self : (x.enter i m).mt.pc i = m := Function.update_self ..

theorem enter_pc_of_ne (h : j ≠ i) : (x.enter i m).mt.pc j = x.mt.pc j := Function.update_of_ne h ..

/-! ## Where a philosopher is, and what the array says of him -/

/-- **What `state[i]` is**, from where philosopher `i` is in his own code and in the monitor's. -/
def Fits (i : Fin N) (v : PhiState) : Place → MonitorPc (Fin N) → Prop
  | .thinking, .outside | .thinking, .leaveTest | .thinking, .leaveUp _ => v = .thinking
  | .takeHungry, .enter | .takeHungry, .inside => v = .thinking
  | .test .self, .inside | .testEat .self, .inside => v = .hungry
  | .testSignal .self, .inside => v = .eating
  | .takeCheck, .inside => v ≠ .thinking
  | .takeCheck, .signalTest c => c = i ∧ v = .eating
  | .takeWait, .inside => v = .hungry
  | .takeLeave, .waitCount c | .takeLeave, .waitTest c | .takeLeave, .waitUp c _ =>
    c = i ∧ v = .hungry
  | .takeLeave, .waitDown c => c = i ∧ v ≠ .thinking
  | .takeLeave, .waitEnd c => c = i ∧ v = .eating
  | .takeLeave, .inside => v = .eating
  | .eating, .outside | .eating, .leaveTest | .eating, .leaveUp _ => v = .eating
  | .putThinking, .enter | .putThinking, .inside => v = .eating
  | .test _, .inside | .testEat _, .inside | .testSignal _, .inside => v = .thinking
  | .test .right, .signalTest _ | .test .right, .signalCount _ | .test .right, .signalUp _
  | .test .right, .signalDown | .test .right, .signalEnd => v = .thinking
  | .putLeave, .signalTest _ | .putLeave, .signalCount _ | .putLeave, .signalUp _
  | .putLeave, .signalDown | .putLeave, .signalEnd | .putLeave, .inside => v = .thinking
  | _, _ => False

/-- Philosopher `i` waits in `take_forks`, and on `cv[i]` only. -/
theorem Fits.waits (h : Fits i v p m) (hm : Monitor.Waiting c m) : p = .takeLeave ∧ c = i := by
  cases m with
  | waitTest d | waitUp d | waitDown d | waitEnd d =>
    obtain rfl : d = c := hm
    cases p with
    | takeLeave => exact ⟨rfl, h.1⟩
    | test a | testEat a | testSignal a => cases a <;> exact h.elim
    | _ => exact h.elim
  | _ => exact hm.elim

/-- A hungry philosopher who does not execute monitor code sleeps. -/
theorem Fits.sleeps (h : Fits i .hungry p m) (hm : ¬ Monitor.Active m) : m = .waitDown i := by
  cases m with
  | outside | enter | signalDown =>
    cases p with
    | test a | testEat a | testSignal a => cases a <;> simp [Fits] at h
    | _ => simp [Fits] at h
  | waitDown c => rw [(h.waits rfl).2]
  | _ => exact absurd trivial hm

/-- A sleeper is not thinking. -/
theorem Fits.ne_thinking (h : Fits i v p (.waitDown c)) : v ≠ .thinking := by
  obtain ⟨rfl, -⟩ := h.waits rfl
  exact h.2

/-- The test, the grant and the call of `cond_signal` are outside the monitor's code. -/
theorem Fits.eq_inside {a : Call} (h : Fits i v p m) (hp : p = .testEat a ∨ p = .testSignal a) :
    m = .inside := by
  rcases hp with rfl | rfl <;> cases a <;> cases m <;> first | rfl | exact h.elim

/-- **Monitor code brings a philosopher back to his own**, awake only when he eats. -/
theorem Fits.code {mt mt' : Monitor (Fin N) (Fin N)} {e : MonitorEvent (Fin N)}
    (h : Fits i v p (mt.pc i)) (hm : Monitor.Step mt i e mt') (hin : mt.pc i ≠ .inside)
    (hout : mt.pc i ≠ .outside) (hself : mt.pc i = .signalTest i → ¬ 0 < mt.count i)
    (hwake : 0 < mt.sem (.cv i) → v = .eating) : Fits i v p (mt'.pc i) := by
  cases hm with
  | call hpc => exact absurd hpc hout
  | signal c hpc | wait c hpc | leave hpc => exact absurd hpc hin
  | @signalTest c hpc =>
    rw [hpc] at h
    rw [Monitor.goto_pc_self]
    cases p with
    | takeCheck =>
      obtain ⟨rfl, hv⟩ := h
      rw [if_neg (hself hpc)]
      exact fun hth => nomatch hv.symm.trans hth
    | test a =>
      cases a with
      | right => split <;> exact h
      | _ => exact h.elim
    | putLeave => split <;> exact h
    | testEat a | testSignal a => cases a <;> exact h.elim
    | _ => exact h.elim
  | @waitDown c hpc hpos =>
    rw [hpc] at h
    rw [Monitor.goto_pc_self]
    obtain ⟨rfl, rfl⟩ := h.waits rfl
    exact ⟨rfl, hwake hpos⟩
  | waitUp hpc =>
    rw [hpc] at h
    rw [Monitor.goto_pc_self]
    obtain ⟨rfl, rfl⟩ := h.waits rfl
    exact ⟨rfl, fun hth => nomatch h.2.symm.trans hth⟩
  | waitEnd hpc =>
    rw [hpc] at h
    rw [Monitor.goto_pc_self]
    obtain ⟨rfl, rfl⟩ := h.waits rfl
    exact h.2
  | enter hpc | signalCount hpc | signalUp hpc | signalDown hpc | signalEnd hpc | waitCount hpc
  | waitTest hpc | leaveTest hpc | leaveUp hpc =>
    rw [hpc] at h
    rw [Monitor.goto_pc_self]
    cases p with
    | test a | testEat a | testSignal a => cases a <;> first | exact h | exact h.elim
    | _ => first | exact h | exact h.elim

/-- Whom philosopher `u` still owes a test. -/
def Owes (u : Fin N) : Place → Fin N → Prop
  | .test a, j | .testEat a, j => a.Open u j
  | .testSignal a, j => a.Later u j
  | _, _ => False

/-- What a call leaves to the statements after it. -/
theorem owes_after {a : Call} : Owes u (.after a) j ↔ a.Later u j := by
  cases a <;> simp [Place.after, Owes, Call.Open, Call.Later, Call.who]

/-- **On the way to wake `j`.** -/
def Signals (x : Condvar N) (u j : Fin N) : Prop :=
  (∃ a, x.place u = .testSignal a ∧ a.who u = j) ∨ x.mt.pc u = .signalTest j ∨
    x.mt.pc u = .signalCount j ∨ x.mt.pc u = .signalUp j

/-- A signaller executes monitor code. -/
theorem Signals.active (h : Signals x u j) (hfit : Fits u (x.state u) (x.place u) (x.mt.pc u)) :
    Monitor.Active (x.mt.pc u) := by
  rcases h with ⟨a, ha, -⟩ | h | h | h
  · rw [hfit.eq_inside (.inr ha)]
    trivial
  all_goals
    rw [h]
    trivial

/-! ## The invariant -/

/-- **Between two statements.** -/
structure Inv (x : Condvar N) : Prop where
  coherent : ∃ k, Monitor.Coherent x.mt k
  fits : ∀ i, Fits i (x.state i) (x.place i) (x.mt.pc i)
  apart : Apart x.state
  served : Served Owes x.state x.place
  /-- What the test has found. -/
  tested : ∀ u a, x.place u = .testEat a → CanEat x.state (a.who u)
  /-- Who is signalled eats, and sleeps unless he signals himself. -/
  signals : ∀ u j, Signals x u j → x.state j = .eating ∧ (j ≠ u → x.mt.pc j = .waitDown j)
  /-- A unit of `cv[c]` is for one who eats, and the signaller waits for him. -/
  given : ∀ c, 0 < x.mt.sem (.cv c) → x.state c = .eating ∧ ∃ u, x.mt.pc u = .signalDown
  /-- The grant of a sleeper is on its way. -/
  told : ∀ i, x.mt.pc i = .waitDown i → x.state i = .eating →
    0 < x.mt.sem (.cv i) ∨ ∃ u, Signals x u i

/-- Everybody thinks at the start. -/
theorem inv_start : Inv (start : Condvar N) where
  coherent := ⟨_, Monitor.coherent_init⟩
  fits _ := rfl
  apart i hi := nomatch hi
  served j hj := nomatch hj.1
  tested u a hu := nomatch hu
  signals u j hu := by simp [Signals, start, Monitor.monitorInit] at hu
  given c hc := by simp [start, Monitor.monitorInit] at hc
  told i hi := nomatch hi

/-- One philosopher at a time executes monitor code. -/
theorem Inv.eq (h : Inv x) (hi : Monitor.Active (x.mt.pc i)) (hj : Monitor.Active (x.mt.pc j)) :
    i = j := by
  obtain ⟨k, hk⟩ := h.coherent
  exact Monitor.Token.thread.inj ((hk.holds.eq_thread hi).symm.trans (hk.holds.eq_thread hj))

/-- Nobody executes monitor code while a semaphore is positive. -/
theorem Inv.not_active (h : Inv x) {y : MonitorSem (Fin N)} (hpos : 0 < x.mt.sem y) (i : Fin N) :
    ¬ Monitor.Active (x.mt.pc i) := by
  obtain ⟨k, hk⟩ := h.coherent
  obtain rfl := hk.holds.eq_sem hpos
  exact hk.holds.not_active i

/-- Only `i` waits on `cv[i]`, so that he finds nobody there. -/
theorem Inv.nobody (h : Inv x) (hi : ∀ c, ¬ Monitor.Waiting c (x.mt.pc i)) :
    ¬ 0 < x.mt.count i := by
  obtain ⟨k, hk⟩ := h.coherent
  intro hpos
  obtain ⟨u, hu⟩ := (hk.counted.count i).pos_iff.mp hpos
  obtain rfl := ((h.fits u).waits hu).2
  exact hi _ hu

/-- A sleeper is counted. -/
theorem Inv.somebody (h : Inv x) (hi : x.mt.pc i = .waitDown i) : 0 < x.mt.count i := by
  obtain ⟨k, hk⟩ := h.coherent
  exact (hk.counted.count i).pos_iff.mpr ⟨i, by simp [hi, Monitor.Waiting]⟩

/-! ## What a statement leaves alone -/

theorem Step.coherent (h : Inv x) (hstep : Step x i x') : ∃ k, Monitor.Coherent x'.mt k := by
  rcases hstep.monitor with heq | ⟨e, hm⟩
  · rw [heq]
    exact h.coherent
  · obtain ⟨k, hk⟩ := h.coherent
    exact hm.coherent hk

/-- The monitor's code is the philosopher's own business. -/
theorem Step.pc_of_ne (hstep : Step x i x') (hj : j ≠ i) : x'.mt.pc j = x.mt.pc j := by
  rcases hstep.monitor with heq | ⟨e, hm⟩
  · rw [heq]
  · exact hm.pc_of_ne hj

theorem Step.place_of_ne (hstep : Step x i x') (hj : j ≠ i) : x'.place j = x.place j := by
  cases hstep with
  | code => rfl
  | _ => exact goto_place_of_ne hj

theorem Step.signals_of_ne (hstep : Step x i x') (hu : u ≠ i) :
    Signals x' u j ↔ Signals x u j := by
  rw [Signals, Signals, hstep.pc_of_ne hu, hstep.place_of_ne hu]

/-- **Who executes no monitor code, before or after, is calling a procedure**: he writes nothing. -/
theorem Step.idle (hstep : Step x i x') (h0 : ¬ Monitor.Active (x.mt.pc i))
    (h1 : ¬ Monitor.Active (x'.mt.pc i)) : x'.state = x.state ∧ x.mt.pc i = .outside := by
  cases hstep with
  | code hin hout hm =>
    cases hm with
    | call hpc => exact ⟨rfl, hpc⟩
    | enter hpc | signalDown hpc | waitDown hpc =>
      exact absurd (by rw [Monitor.goto_pc_self]; trivial) h1
    | signal c hpc | wait c hpc | leave hpc | signalTest hpc | signalCount hpc | signalUp hpc
    | signalEnd hpc | waitCount hpc | waitTest hpc | waitUp hpc | waitEnd hpc | leaveTest hpc
    | leaveUp hpc => exact absurd (by rw [hpc]; trivial) h0
  | take hm | put hm => exact ⟨rfl, hm⟩
  | _ hm => exact absurd (by rw [hm]; trivial) h0

/-! ## The step lemma -/

/-- **The philosopher who makes the step** fits where he goes. -/
theorem Step.fits_self (hN : 3 ≤ N) (h : Inv x) (hstep : Step x i x') :
    Fits i (x'.state i) (x'.place i) (x'.mt.pc i) := by
  have hfit := h.fits i
  cases hstep with
  | code hin hout hm =>
    exact hfit.code hm hin hout (fun hpc => h.nobody (by simp [hpc, Monitor.Waiting]))
      fun hpos => (h.given i hpos).1
  | take hm hp | put hm hp =>
    rw [hm, hp] at hfit
    rw [goto_place_self, goto_mt, enter_pc_self]
    exact hfit
  | takeHungry hm hp | putThinking hm hp =>
    rw [goto_place_self, goto_mt, setState_mt, hm]
    exact Function.update_self ..
  | @test hm a hp =>
    rw [hm, hp] at hfit
    rw [goto_place_self, goto_mt, hm]
    split
    · cases a <;> exact hfit
    · cases a with
      | self => exact fun hth => by cases hfit.symm.trans hth
      | left | right => exact hfit
  | @testEat hm a hp =>
    rw [hm, hp] at hfit
    rw [goto_place_self, goto_mt, setState_mt, hm, goto_state]
    rcases eq_or_ne a .self with rfl | ha
    · exact Function.update_self ..
    · have hne := (Call.who_ne hN ha i).symm
      have hv : (x.setState (a.who i) .eating).state i = x.state i := Function.update_of_ne hne ..
      rw [hv]
      cases a with
      | self => exact absurd rfl ha
      | left | right => exact hfit
  | @testSignal hm a hp =>
    rw [hm, hp] at hfit
    rw [goto_place_self, goto_mt, enter_pc_self]
    cases a with
    | self => exact ⟨rfl, hfit⟩
    | left | right => exact hfit
  | takeCheck hm hp =>
    rw [hm, hp] at hfit
    rw [goto_place_self, goto_mt, hm]
    split
    · assumption
    · next hne =>
      change x.state i = .eating
      cases hv : x.state i with
      | thinking => exact absurd hv hfit
      | hungry => exact absurd hv hne
      | eating => rfl
  | takeWait hm hp =>
    rw [hm, hp] at hfit
    rw [goto_place_self, goto_mt, enter_pc_self]
    exact ⟨rfl, hfit⟩
  | takeLeave hm hp | putLeave hm hp =>
    rw [hm, hp] at hfit
    rw [goto_place_self, goto_mt, enter_pc_self]
    exact hfit

/-- **Another philosopher** fits where he is: only a sleeper is written to. -/
theorem Step.fits_other (h : Inv x) (hstep : Step x i x') (hj : j ≠ i) :
    Fits j (x'.state j) (x'.place j) (x'.mt.pc j) := by
  have hfit := h.fits j
  rw [hstep.pc_of_ne hj, hstep.place_of_ne hj]
  cases hstep with
  | takeHungry | putThinking =>
    have hv : ∀ v, (x.setState i v).state j = x.state j := fun v => Function.update_of_ne hj ..
    rw [goto_state, hv]
    exact hfit
  | @testEat hm a hp =>
    rcases eq_or_ne j (a.who i) with rfl | hja
    · -- he is hungry, and not inside: he sleeps
      have hcan := h.tested i a hp
      rw [hcan.1] at hfit
      have hpc := hfit.sleeps fun hin => hj (h.eq hin (by rw [hm]; trivial))
      rw [hpc] at hfit ⊢
      rw [(hfit.waits rfl).1, goto_state]
      have hv : (x.setState (a.who i) .eating).state (a.who i) = .eating := Function.update_self ..
      rw [hv]
      exact ⟨rfl, nofun⟩
    · have hv : (x.setState (a.who i) .eating).state j = x.state j := Function.update_of_ne hja ..
      rw [goto_state, hv]
      exact hfit
  | _ => exact hfit

theorem Step.apart (hN : 3 ≤ N) (h : Inv x) (hstep : Step x i x') : Apart x'.state := by
  cases hstep with
  | takeHungry | putThinking => exact h.apart.rest nofun
  | testEat hm hp => exact h.apart.eat hN (h.tested _ _ hp)
  | _ => exact h.apart

theorem Step.served (h : Inv x) (hstep : Step x i x') : Served Owes x'.state x'.place := by
  have hfit := h.fits i
  cases hstep with
  | code => exact h.served
  | take hm hp | put hm hp | takeCheck hm hp | takeWait hm hp | takeLeave hm hp | putLeave hm hp =>
    refine h.served.keep fun j hj => ?_
    rw [hp] at hj
    exact hj.elim
  | takeHungry hm hp =>
    rw [hm, hp] at hfit
    refine h.served.update fun j hj => ?_
    rw [hp]
    have hi : x.state i ≠ .eating := fun heat => nomatch heat.symm.trans hfit
    exact (hj.of_hungry hi).symm.imp .inl fun hold => ⟨hold, id⟩
  | putThinking hm hp =>
    refine h.served.update fun j hj => ?_
    rw [hp]
    exact hj.of_thinking.symm.imp id fun hold => ⟨hold, id⟩
  | @test hm a hp =>
    refine h.served.update fun j hj => ?_
    rw [hp]
    split
    · exact (em (Owes i (.testEat a) j)).imp id fun hno => ⟨hj, hno⟩
    · next hcan =>
      rw [owes_after]
      refine (em (a.Later i j)).imp id fun hno => ⟨hj, fun hopen => ?_⟩
      rcases hopen with rfl | hlater
      · exact hcan hj
      · exact hno hlater
  | @testEat hm a hp =>
    refine h.served.update fun j hj => ?_
    rw [hp]
    obtain ⟨hold, hne⟩ := hj.of_eat
    exact (em (a.Later i j)).imp id fun hno => ⟨hold, fun hopen => hopen.elim hne hno⟩
  | testSignal hm hp =>
    refine h.served.keep fun j hj => ?_
    rw [hp] at hj
    exact owes_after.mpr hj

/-- **While a philosopher executes monitor code, the others write nothing.** -/
theorem Step.idle_of_active (h : Inv x) (hstep : Step x i x') (hu : u ≠ i)
    (hact : Monitor.Active (x.mt.pc u)) : x'.state = x.state ∧ x.mt.pc i = .outside := by
  refine hstep.idle (fun hi => hu (h.eq hact hi)) fun hi => ?_
  obtain ⟨k, hk⟩ := hstep.coherent h
  have hact' : Monitor.Active (x'.mt.pc u) := by rwa [hstep.pc_of_ne hu]
  exact hu (Monitor.Token.thread.inj
    ((hk.holds.eq_thread hact').symm.trans (hk.holds.eq_thread hi)))

/-- **The test is fresh**: nobody has written since. -/
theorem Step.tested (h : Inv x) (hstep : Step x i x') {a : Call} (hu : x'.place u = .testEat a) :
    CanEat x'.state (a.who u) := by
  rcases eq_or_ne u i with rfl | hui
  · cases hstep with
    | code hin => exact absurd ((h.fits u).eq_inside (.inl hu)) hin
    | @test hm b hp =>
      rw [goto_place_self] at hu
      split at hu
      · obtain rfl := Place.testEat.inj hu
        assumption
      · cases b <;> exact nomatch hu
    | @testSignal hm b hp =>
      rw [goto_place_self] at hu
      cases b <;> exact nomatch hu
    | takeCheck =>
      rw [goto_place_self] at hu
      split at hu <;> exact nomatch hu
    | _ =>
      rw [goto_place_self] at hu
      exact nomatch hu
  · rw [hstep.place_of_ne hui] at hu
    have hact : Monitor.Active (x.mt.pc u) := by
      rw [(h.fits u).eq_inside (.inl hu)]
      trivial
    rw [(hstep.idle_of_active h hui hact).1]
    exact h.tested u a hu

/-- A philosopher in his own code signals when his place says so. -/
theorem signals_of_inside (hm : x.mt.pc u = .inside) :
    Signals x u j ↔ ∃ a, x.place u = .testSignal a ∧ a.who u = j := by
  simp [Signals, hm]

/-- A philosopher in the monitor's code signals when that code does. -/
theorem signals_of_code (h : Inv x) (hm : x.mt.pc u ≠ .inside) :
    Signals x u j ↔ x.mt.pc u = .signalTest j ∨ x.mt.pc u = .signalCount j ∨
      x.mt.pc u = .signalUp j := by
  refine ⟨fun hs => hs.resolve_left fun ⟨a, ha, _⟩ => ?_, .inr⟩
  exact hm ((h.fits u).eq_inside (.inr ha))

/-- **Monitor code goes on with a signal** that was begun. -/
theorem Step.signals_code {mt : Monitor (Fin N) (Fin N)} {e : MonitorEvent (Fin N)} (h : Inv x)
    (hm : Monitor.Step x.mt i e mt) (hin : x.mt.pc i ≠ .inside)
    (hs : Signals { x with mt := mt } i j) : Signals x i j := by
  have hplace : ¬ ∃ a, x.place i = .testSignal a ∧ a.who i = j := fun ⟨a, ha, _⟩ =>
    hin ((h.fits i).eq_inside (.inr ha))
  have hs' := hs.resolve_left hplace
  cases hm with
  | @signalTest c hpc =>
    simp only [Monitor.goto_pc_self] at hs'
    split at hs'
    · obtain rfl : c = j := by simpa using hs'
      exact .inr (.inl hpc)
    · simp at hs'
  | @signalCount c hpc =>
    obtain rfl : c = j := by simpa using hs'
    exact .inr (.inr (.inl hpc))
  | signal c hpc => exact absurd hpc hin
  | _ => simp at hs'

/-- **Who is signalled sleeps, and eats.** -/
theorem Step.signals (h : Inv x) (hstep : Step x i x') (hs : Signals x' u j) :
    x'.state j = .eating ∧ (j ≠ u → x'.mt.pc j = .waitDown j) := by
  rcases eq_or_ne u i with rfl | hui
  · have hold : Signals x u j → x'.state = x.state →
        x'.state j = .eating ∧ (j ≠ u → x'.mt.pc j = .waitDown j) := fun hs₀ hv => by
      obtain ⟨heat, hsleep⟩ := h.signals u j hs₀
      exact ⟨by rw [hv]; exact heat, fun hj => by rw [hstep.pc_of_ne hj]; exact hsleep hj⟩
    cases hstep with
    | code hin hout hm => exact hold (Step.signals_code h hm hin hs) rfl
    | @testEat hm a hp =>
      rw [signals_of_inside (by exact hm)] at hs
      obtain ⟨b, hb, rfl⟩ := hs
      rw [goto_place_self] at hb
      obtain rfl := Place.testSignal.inj hb
      refine ⟨Function.update_self .., fun hj => ?_⟩
      have hfit := h.fits (a.who u)
      rw [(h.tested u a hp).1] at hfit
      exact hfit.sleeps fun hact => hj (h.eq hact (by rw [hm]; trivial))
    | @testSignal hm a hp =>
      have hj : a.who u = j := by
        rcases hs with ⟨b, hb, -⟩ | hs | hs | hs
        · rw [goto_place_self] at hb
          cases a <;> exact nomatch hb
        · simpa using hs
        · simp at hs
        · simp at hs
      exact hold (.inl ⟨a, hp, hj⟩) rfl
    | @test hm a hp =>
      rw [signals_of_inside (by exact hm)] at hs
      obtain ⟨b, hb, -⟩ := hs
      rw [goto_place_self] at hb
      split at hb
      · exact nomatch hb
      · cases a <;> exact nomatch hb
    | takeHungry hm | putThinking hm =>
      rw [signals_of_inside (by exact hm)] at hs
      obtain ⟨b, hb, -⟩ := hs
      rw [goto_place_self] at hb
      exact nomatch hb
    | takeCheck hm =>
      rw [signals_of_inside (by exact hm)] at hs
      obtain ⟨b, hb, -⟩ := hs
      rw [goto_place_self] at hb
      split at hb <;> exact nomatch hb
    | take | put | takeWait | takeLeave | putLeave => simp [Signals] at hs
  · rw [hstep.signals_of_ne hui] at hs
    obtain ⟨hv, hout⟩ := hstep.idle_of_active h hui (hs.active (h.fits u))
    obtain ⟨heat, hsleep⟩ := h.signals u j hs
    refine ⟨by rw [hv]; exact heat, fun hj => ?_⟩
    have hw := hsleep hj
    rw [hstep.pc_of_ne fun heq => by rw [heq, hout] at hw; exact nomatch hw]
    exact hw

/-- **A unit of `cv[c]` is for one who eats.** -/
theorem Step.given (h : Inv x) (hstep : Step x i x') (hc : 0 < x'.mt.sem (.cv c)) :
    x'.state c = .eating ∧ ∃ u, x'.mt.pc u = .signalDown := by
  rcases Nat.eq_zero_or_pos (x.mt.sem (.cv c)) with h0 | hpos
  · rcases hstep.monitor with heq | ⟨e, hm⟩
    · rw [heq] at hc
      omega
    · have hsem := hm.sem_cv c
      obtain rfl : e = .signalled c := by
        by_contra he
        rw [if_neg he] at hsem
        omega
      obtain ⟨hpc, hpc'⟩ := hm.of_signalled
      refine ⟨?_, i, hpc'⟩
      have hv : x'.state = x.state := by
        cases hstep with
        | code => rfl
        | _ hin => exact absurd (hpc.symm.trans hin) nofun
      rw [hv]
      exact (h.signals i c (.inr (.inr (.inr hpc)))).1
  · obtain ⟨k', hk'⟩ := hstep.coherent h
    obtain rfl := hk'.holds.eq_sem hc
    obtain ⟨hv, hout⟩ := hstep.idle (h.not_active hpos i) (hk'.holds.not_active i)
    obtain ⟨heat, u, hu⟩ := h.given c hpos
    refine ⟨by rw [hv]; exact heat, u, ?_⟩
    rw [hstep.pc_of_ne fun heq => by rw [heq, hout] at hu; exact nomatch hu]
    exact hu

/-- The units of `cv[c]` are for `c`. -/
theorem Step.sem_le (h : Inv x) (hstep : Step x i x') (hc : c ≠ i) :
    x.mt.sem (.cv c) ≤ x'.mt.sem (.cv c) := by
  rcases hstep.monitor with heq | ⟨e, hm⟩
  · rw [heq]
  · have hsem := hm.sem_cv c
    have he : e ≠ .resumed c := by
      rintro rfl
      have hfit := h.fits i
      rw [hm.of_resumed] at hfit
      exact hc (hfit.waits rfl).2
    rw [if_neg he] at hsem
    omega

/-- **A signal to a sleeper goes through** to the unit that wakes him. -/
theorem Step.signals_next (h : Inv x) (hstep : Step x i x') (ht : t ≠ i)
    (hw : x.mt.pc t = .waitDown t) (hs : Signals x i t) :
    0 < x'.mt.sem (.cv t) ∨ Signals x' i t := by
  have hcount := h.somebody hw
  cases hstep with
  | code hin hout hm =>
    rw [signals_of_code h hin] at hs
    cases hm with
    | @signalTest c hpc =>
      obtain rfl : c = t := by simpa [hpc] using hs
      refine .inr (.inr (.inr (.inl ?_)))
      rw [Monitor.goto_pc_self, if_pos hcount]
    | @signalCount c hpc =>
      obtain rfl : c = t := by simpa [hpc] using hs
      exact .inr (.inr (.inr (.inr Monitor.goto_pc_self)))
    | @signalUp c hpc =>
      obtain rfl : c = t := by simpa [hpc] using hs
      refine .inl ?_
      change 0 < Function.update x.mt.sem (.cv c) (x.mt.sem (.cv c) + 1) (.cv c)
      rw [Function.update_self]
      exact Nat.succ_pos _
    | _ => simp_all
  | @testSignal hm a hp =>
    rw [signals_of_inside hm] at hs
    obtain ⟨b, hb, rfl⟩ := hs
    obtain rfl := Place.testSignal.inj (hp.symm.trans hb)
    exact .inr (.inr (.inl enter_pc_self))
  | take hm hp | put hm hp => simp [Signals, hm, hp] at hs
  | _ hm hp =>
    rw [signals_of_inside hm] at hs
    obtain ⟨b, hb, -⟩ := hs
    exact nomatch hp.symm.trans hb

/-- **Grants arrive**: what is written for a sleeper is followed by a signal and by its unit. -/
theorem Step.told (h : Inv x) (hstep : Step x i x') (hw : x'.mt.pc t = .waitDown t)
    (hv : x'.state t = .eating) : 0 < x'.mt.sem (.cv t) ∨ ∃ u, Signals x' u t := by
  rcases eq_or_ne t i with rfl | ht
  · -- he goes to sleep hungry
    have hfit := h.fits t
    cases hstep with
    | code hin hout hm =>
      cases hm with
      | waitUp hpc =>
        rw [hpc] at hfit
        obtain ⟨hp, -⟩ := hfit.waits rfl
        rw [hp] at hfit
        exact nomatch hv.symm.trans hfit.2
      | @signalTest c hpc =>
        simp only [Monitor.goto_pc_self] at hw
        split at hw <;> exact nomatch hw
      | _ => simp at hw
    | take | put | testSignal | takeWait | takeLeave | putLeave => simp at hw
    | _ hm => exact nomatch hm.symm.trans hw
  rw [hstep.pc_of_ne ht] at hw
  have hkeep : x'.state t = x.state t → 0 < x'.mt.sem (.cv t) ∨ ∃ u, Signals x' u t := by
    intro hvt
    rw [hvt] at hv
    rcases h.told t hw hv with hpos | ⟨u, hu⟩
    · exact .inl (hpos.trans_le (hstep.sem_le h ht))
    · rcases eq_or_ne u i with rfl | hui
      · exact (hstep.signals_next h ht hw hu).imp_right fun hu' => ⟨u, hu'⟩
      · exact .inr ⟨u, (hstep.signals_of_ne hui).mpr hu⟩
  cases hstep with
  | takeHungry | putThinking => exact hkeep (Function.update_of_ne ht ..)
  | @testEat hm a hp =>
    rcases eq_or_ne t (a.who i) with rfl | hta
    · exact .inr ⟨i, .inl ⟨a, goto_place_self, rfl⟩⟩
    · exact hkeep (Function.update_of_ne hta ..)
  | _ => exact hkeep rfl

theorem Step.inv (hN : 3 ≤ N) (h : Inv x) (hstep : Step x i x') : Inv x' where
  coherent := hstep.coherent h
  fits j := by
    rcases eq_or_ne j i with rfl | hj
    · exact hstep.fits_self hN h
    · exact hstep.fits_other h hj
  apart := hstep.apart hN h
  served := hstep.served h
  tested _ _ := hstep.tested h
  signals _ _ := hstep.signals h
  given _ := hstep.given h
  told _ := hstep.told h

theorem Run.inv (hN : 3 ≤ N) (hrun : Run x) : Inv x := by
  induction hrun with
  | start => exact inv_start
  | step _ hstep ih => exact hstep.inv hN ih

/-- One who owes a test is inside. -/
theorem Owes.inside (h : Owes u p j) (hfit : Fits u v p m) :
    Monitor.Active m ∨ m = .signalDown := by
  cases p with
  | test a | testEat a | testSignal a =>
    cases a <;> cases m <;> first | exact .inl trivial | exact .inr rfl | exact hfit.elim
  | _ => exact h.elim

/-- **What the philosophers are promised** in a state of the monitor version. -/
structure Guarantees (x : Condvar N) : Prop where
  /-- No two neighbours eat. -/
  apart : ∀ i, x.state i = .eating → x.state (left i) ≠ .eating ∧ x.state (right i) ≠ .eating
  /-- `phi_take_forks_condvar` returns to one who eats. -/
  returns : ∀ i, x.mt.pc i = .outside → x.place i = .eating → x.state i = .eating
  /-- With nobody in the monitor, nobody is hungry between two who do not eat… -/
  served : (∀ i, ¬ Inside x i) → ∀ i, ¬ (x.state i = .hungry ∧
    x.state (left i) ≠ .eating ∧ x.state (right i) ≠ .eating)
  /-- …and nobody sleeps in `cond_wait` who may eat. -/
  woken : (∀ i, ¬ Inside x i) → ∀ i, x.mt.pc i = .waitDown i → x.state i = .hungry

theorem Inv.guarantees (h : Inv x) : Guarantees x where
  apart i hi := ⟨h.apart.left hi, h.apart i hi⟩
  returns i hm hp := by
    have hfit := h.fits i
    rw [hm, hp] at hfit
    exact hfit
  served hout i hi := by
    obtain ⟨u, hu⟩ := h.served i hi
    exact hout u (hu.inside (h.fits u))
  woken hout i hw := by
    have hfit := h.fits i
    rw [hw] at hfit
    cases hv : x.state i with
    | thinking => exact absurd hv hfit.ne_thinking
    | hungry => rfl
    | eating =>
      rcases h.told i hw hv with hpos | ⟨u, hu⟩
      · obtain ⟨-, u, hu⟩ := h.given i hpos
        exact absurd (.inr hu) (hout u)
      · exact absurd (.inl (hu.active (h.fits u))) (hout u)

end Condvar

/-- **The dining philosophers.**  With three or more at the table, whatever the order of their
statements, either version keeps its promises in every state. -/
theorem philosophers_run (hN : 3 ≤ N) :
    (∀ x : Sema N, Sema.Run x → Sema.Guarantees x) ∧
      ∀ x : Condvar N, Condvar.Run x → Condvar.Guarantees x :=
  ⟨fun _ hrun => (hrun.inv hN).guarantees, fun _ hrun => (hrun.inv hN).guarantees⟩

/-- One philosopher of five eats, and his neighbour sleeps hungry, in either version. -/
theorem philosophers_run_five :
    (∃ x : Sema 5, Sema.Run x ∧ x.pc 0 = .eating ∧ x.pc 1 = .takeWait ∧ x.state 1 = .hungry ∧
      Sema.Guarantees x) ∧
    ∃ x : Condvar 5, Condvar.Run x ∧ x.place 0 = .eating ∧ x.mt.pc 1 = .waitDown 1 ∧
      x.state 1 = .hungry ∧ Condvar.Guarantees x := by
  have hsema : ∃ x : Sema 5, Sema.Run x ∧ x.pc 0 = .eating ∧ x.pc 1 = .takeWait ∧
      x.state 1 = .hungry :=
    ⟨_, .step (.step (.step (.step (.step (.step (.step (.step (.step (.step (.step (.step (.step
      .start (.take (i := 0) rfl)) (.takeDown (i := 0) rfl (by decide)))
      (.takeHungry (i := 0) rfl)) (.test (i := 0) (a := .self) rfl))
      (.testEat (i := 0) (a := .self) rfl)) (.testUp (i := 0) (a := .self) rfl))
      (.takeUp (i := 0) rfl)) (.takeWait (i := 0) rfl (by decide)))
      (.take (i := 1) rfl)) (.takeDown (i := 1) rfl (by decide))) (.takeHungry (i := 1) rfl))
      (.test (i := 1) (a := .self) rfl)) (.takeUp (i := 1) rfl), by decide, by decide, by decide⟩
  have hcondvar : ∃ x : Condvar 5, Condvar.Run x ∧ x.place 0 = .eating ∧
      x.mt.pc 1 = .waitDown 1 ∧ x.state 1 = .hungry :=
    ⟨_, .step (.step (.step (.step (.step (.step (.step (.step (.step (.step (.step (.step (.step
      (.step (.step (.step (.step (.step (.step (.step .start (.take (i := 0) rfl rfl)) (.code
      (i := 0) (by decide) (by decide) (.enter rfl (by decide)))) (.takeHungry (i := 0) rfl rfl))
      (.test (i := 0) rfl (a := .self) rfl)) (.testEat (i := 0) rfl (a := .self) rfl))
      (.testSignal (i := 0) rfl (a := .self) rfl)) (.code (i := 0) (by decide) (by decide)
      (.signalTest (c := 0) rfl))) (.takeCheck (i := 0) rfl rfl)) (.takeLeave (i := 0) rfl rfl))
      (.code (i := 0) (by decide) (by decide) (.leaveTest rfl))) (.code (i := 0) (by decide)
      (by decide) (.leaveUp rfl))) (.take (i := 1) rfl rfl)) (.code (i := 1)
      (by decide) (by decide) (.enter rfl (by decide)))) (.takeHungry (i := 1) rfl rfl)) (.test
      (i := 1) rfl (a := .self) rfl)) (.takeCheck (i := 1) rfl rfl)) (.takeWait (i := 1) rfl rfl))
      (.code (i := 1) (by decide) (by decide) (.waitCount (c := 1) rfl))) (.code (i := 1)
      (by decide) (by decide) (.waitTest (c := 1) rfl))) (.code (i := 1) (by decide) (by decide)
      (.waitUp (c := 1) rfl)), by decide, by decide, by decide⟩
  obtain ⟨x, hx, h0, h1, hv⟩ := hsema
  obtain ⟨y, hy, h0', h1', hv'⟩ := hcondvar
  exact ⟨⟨x, hx, h0, h1, hv, (philosophers_run (by decide)).1 x hx⟩,
    y, hy, h0', h1', hv', (philosophers_run (by decide)).2 y hy⟩

end CheckSync

end UCore
