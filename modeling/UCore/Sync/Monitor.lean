import UCore.Machinery.Tally

/-!
# Sync/Monitor — Hoare monitors over counting semaphores

`kern/sync/monitor.c` and the usage protocol of its callers, one statement a step, for any threads
and any condition variables.  A semaphore is its value: `up` adds one, `down` waits for a positive
value and takes one.  (`__up` on a semaphore with a waiter hands over without touching the value,
which is an `up` and the waiter's `down` in one.)

    down(mutex) ──▸ inside ──▸ if (next_count > 0) up(next) else up(mutex)
                     │  ▴
        cond_signal, cond_wait

The right to run inside is one token: it is the unit of one of the semaphores, or it is with one
thread.  Each statement moves the token or leaves it, and the counters are tallies of where the
threads are.
-/

namespace UCore

/-- The semaphores of `monitor_t` and of its `condvar_t`s. -/
inductive MonitorSem (Cv : Type) where
  | mutex
  | next
  | cv (c : Cv)
  deriving DecidableEq

/-- The statement a thread executes next; `toNext` is the outcome of the test `next_count > 0`. -/
inductive MonitorPc (Cv : Type) where
  /-- Outside the procedures of the monitor. -/
  | outside
  /-- `down(&(mtp->mutex))` on entry. -/
  | enter
  /-- The body of a procedure. -/
  | inside
  /-- `if (cvp->count > 0)` of `cond_signal`. -/
  | signalTest (c : Cv)
  /-- `mtp->next_count++`. -/
  | signalCount (c : Cv)
  /-- `up(&(cvp->sem))`. -/
  | signalUp (c : Cv)
  /-- `down(&(mtp->next))`. -/
  | signalDown
  /-- `mtp->next_count--`. -/
  | signalEnd
  /-- `cvp->count++` of `cond_wait`. -/
  | waitCount (c : Cv)
  /-- `if (mtp->next_count > 0)`. -/
  | waitTest (c : Cv)
  /-- `up(&(mtp->next))` or `up(&(mtp->mutex))`. -/
  | waitUp (c : Cv) (toNext : Bool)
  /-- `down(&(cvp->sem))`. -/
  | waitDown (c : Cv)
  /-- `cvp->count--`. -/
  | waitEnd (c : Cv)
  /-- `if (mtp->next_count > 0)` on exit. -/
  | leaveTest
  /-- `up(&(mtp->next))` or `up(&(mtp->mutex))` on exit. -/
  | leaveUp (toNext : Bool)
  deriving DecidableEq

/-- `monitor_t` with the threads that use it. -/
structure Monitor (Thread Cv : Type) where
  sem : MonitorSem Cv → ℕ
  nextCount : ℤ
  count : Cv → ℤ
  pc : Thread → MonitorPc Cv

/-- What a step does that the other threads can tell. -/
inductive MonitorEvent (Cv : Type) where
  /-- A thread calls a procedure of the monitor. -/
  | called
  /-- A signaller hands over to a waiter of `c`. -/
  | signalled (c : Cv)
  /-- A waiter of `c` goes on. -/
  | resumed (c : Cv)
  /-- Any other statement. -/
  | ran
  deriving DecidableEq

namespace Monitor

variable {Thread Cv : Type} [DecidableEq Thread] [DecidableEq Cv]

/-- `monitor_init`, with every thread outside. -/
def monitorInit : Monitor Thread Cv where
  sem x := if x = .mutex then 1 else 0
  nextCount := 0
  count _ := 0
  pc _ := .outside

/-- The thread goes on to another statement. -/
def goto (s : Monitor Thread Cv) (t : Thread) (a : MonitorPc Cv) : Monitor Thread Cv :=
  { s with pc := Function.update s.pc t a }

/-- `up`. -/
def up (s : Monitor Thread Cv) (x : MonitorSem Cv) : Monitor Thread Cv :=
  { s with sem := Function.update s.sem x (s.sem x + 1) }

/-- `down`, on a semaphore that lets the caller through. -/
def down (s : Monitor Thread Cv) (x : MonitorSem Cv) : Monitor Thread Cv :=
  { s with sem := Function.update s.sem x (s.sem x - 1) }

/-- Change `next_count`. -/
def addNextCount (s : Monitor Thread Cv) (d : ℤ) : Monitor Thread Cv :=
  { s with nextCount := s.nextCount + d }

/-- Change `count` of a condition variable. -/
def addCount (s : Monitor Thread Cv) (c : Cv) (d : ℤ) : Monitor Thread Cv :=
  { s with count := Function.update s.count c (s.count c + d) }

/-- The semaphore that the test `next_count > 0` chooses. -/
def chosen (toNext : Bool) : MonitorSem Cv := if toNext then .next else .mutex

/-- **One statement of one thread.** -/
inductive Step (s : Monitor Thread Cv) (t : Thread) : MonitorEvent Cv → Monitor Thread Cv → Prop
  | call (h : s.pc t = .outside) : Step s t .called (s.goto t .enter)
  | enter (h : s.pc t = .enter) (hpos : 0 < s.sem .mutex) :
      Step s t .ran ((s.down .mutex).goto t .inside)
  | signal (c : Cv) (h : s.pc t = .inside) : Step s t .ran (s.goto t (.signalTest c))
  | signalTest {c : Cv} (h : s.pc t = .signalTest c) :
      Step s t .ran (s.goto t (if 0 < s.count c then .signalCount c else .inside))
  | signalCount {c : Cv} (h : s.pc t = .signalCount c) :
      Step s t .ran ((s.addNextCount 1).goto t (.signalUp c))
  | signalUp {c : Cv} (h : s.pc t = .signalUp c) :
      Step s t (.signalled c) ((s.up (.cv c)).goto t .signalDown)
  | signalDown (h : s.pc t = .signalDown) (hpos : 0 < s.sem .next) :
      Step s t .ran ((s.down .next).goto t .signalEnd)
  | signalEnd (h : s.pc t = .signalEnd) : Step s t .ran ((s.addNextCount (-1)).goto t .inside)
  | wait (c : Cv) (h : s.pc t = .inside) : Step s t .ran (s.goto t (.waitCount c))
  | waitCount {c : Cv} (h : s.pc t = .waitCount c) :
      Step s t .ran ((s.addCount c 1).goto t (.waitTest c))
  | waitTest {c : Cv} (h : s.pc t = .waitTest c) :
      Step s t .ran (s.goto t (.waitUp c (0 < s.nextCount)))
  | waitUp {c : Cv} {toNext : Bool} (h : s.pc t = .waitUp c toNext) :
      Step s t .ran ((s.up (chosen toNext)).goto t (.waitDown c))
  | waitDown {c : Cv} (h : s.pc t = .waitDown c) (hpos : 0 < s.sem (.cv c)) :
      Step s t (.resumed c) ((s.down (.cv c)).goto t (.waitEnd c))
  | waitEnd {c : Cv} (h : s.pc t = .waitEnd c) :
      Step s t .ran ((s.addCount c (-1)).goto t .inside)
  | leave (h : s.pc t = .inside) : Step s t .ran (s.goto t .leaveTest)
  | leaveTest (h : s.pc t = .leaveTest) : Step s t .ran (s.goto t (.leaveUp (0 < s.nextCount)))
  | leaveUp {toNext : Bool} (h : s.pc t = .leaveUp toNext) :
      Step s t .ran ((s.up (chosen toNext)).goto t .outside)

/-- Statements of any threads, in any order. -/
inductive Run (s : Monitor Thread Cv) : List (MonitorEvent Cv) → Monitor Thread Cv → Prop
  | nil : Run s [] s
  | snoc {es : List (MonitorEvent Cv)} {e : MonitorEvent Cv} {t : Thread}
      {s' s'' : Monitor Thread Cv} (hrun : Run s es s') (hstep : Step s' t e s'') :
      Run s (es ++ [e]) s''

/-! ## Where the threads are -/

/-- **The thread executes monitor code**: it has entered, and has handed over to nobody. -/
def Active : MonitorPc Cv → Prop
  | .outside | .enter | .signalDown | .waitDown _ => False
  | _ => True

/-- Between `next_count++` and `next_count--`. -/
def Signalling : MonitorPc Cv → Prop
  | .signalUp _ | .signalDown | .signalEnd => True
  | _ => False

/-- Between `count++` and `count--` of `c`. -/
def Waiting (c : Cv) : MonitorPc Cv → Prop
  | .waitTest d | .waitUp d _ | .waitDown d | .waitEnd d => d = c
  | _ => False

/-- A suspended signaller is at `down(&(mtp->next))`. -/
theorem eq_signalDown {a : MonitorPc Cv} (h : Signalling a) (hact : ¬ Active a) :
    a = .signalDown := by
  cases a <;> simp_all [Signalling, Active]

/-- A suspended waiter is at `down(&(cvp->sem))`. -/
theorem eq_waitDown {c : Cv} {a : MonitorPc Cv} (h : Waiting c a) (hact : ¬ Active a) :
    a = .waitDown c := by
  cases a <;> simp_all [Waiting, Active]

/-! ## The token -/

/-- Where the right to run inside is. -/
inductive Token (Thread Cv : Type) where
  | sem (x : MonitorSem Cv)
  | thread (t : Thread)
  deriving DecidableEq

/-- **There is one token**: the semaphores are worth one where it is, and the thread that has it is
the one inside. -/
structure Holds (s : Monitor Thread Cv) (k : Token Thread Cv) : Prop where
  sem : ∀ x, s.sem x = if k = .sem x then 1 else 0
  active : ∀ t, Active (s.pc t) ↔ k = .thread t

variable {s s' : Monitor Thread Cv} {k : Token Thread Cv} {t u : Thread} {a : MonitorPc Cv}
  {x : MonitorSem Cv} {c : Cv} {e : MonitorEvent Cv}

@[simp] theorem goto_sem : (s.goto t a).sem = s.sem := rfl

@[simp] theorem goto_nextCount : (s.goto t a).nextCount = s.nextCount := rfl

@[simp] theorem goto_count : (s.goto t a).count = s.count := rfl

@[simp] theorem goto_pc_self : (s.goto t a).pc t = a := Function.update_self ..

theorem goto_pc_of_ne (h : u ≠ t) : (s.goto t a).pc u = s.pc u := Function.update_of_ne h ..

/-- A statement moves its own thread. -/
theorem Step.pc_of_ne (hstep : Step s t e s') (h : u ≠ t) : s'.pc u = s.pc u := by
  cases hstep <;> exact goto_pc_of_ne h

/-- The thread inside has the token. -/
theorem Holds.eq_thread (h : Holds s k) (ht : Active (s.pc t)) : k = .thread t := (h.active t).mp ht

/-- A semaphore that lets through has the token. -/
theorem Holds.eq_sem (h : Holds s k) (hpos : 0 < s.sem x) : k = .sem x := by
  by_contra hk
  rw [h.sem, if_neg hk] at hpos
  exact lt_irrefl _ hpos

/-- Nobody is inside while a semaphore has the token. -/
theorem Holds.not_active (h : Holds s (.sem x)) (t : Thread) : ¬ Active (s.pc t) := fun ht =>
  nomatch h.eq_thread ht

/-- **The token stays with its thread.** -/
theorem Holds.stay (h : Holds s (.thread t)) (hsem : s'.sem = s.sem) (hpc : s'.pc = s.pc)
    (ha : Active a) : Holds (s'.goto t a) (.thread t) := by
  refine ⟨fun x => by simpa [hsem] using h.sem x, fun u => ?_⟩
  rcases eq_or_ne u t with rfl | hu
  · simpa using ha
  · rw [goto_pc_of_ne hu, hpc, h.active]

/-- **A thread without the token moves outside.** -/
theorem Holds.idle (h : Holds s k) (hold : ¬ Active (s.pc t)) (ha : ¬ Active a) :
    Holds (s.goto t a) k := by
  refine ⟨h.sem, fun u => ?_⟩
  rcases eq_or_ne u t with rfl | hu
  · rw [goto_pc_self, ← h.active]
    exact iff_of_false ha hold
  · rw [goto_pc_of_ne hu, h.active]

/-- **`up` gives the token away.** -/
theorem Holds.up (h : Holds s (.thread t)) (ha : ¬ Active a) :
    Holds ((s.up x).goto t a) (.sem x) := by
  have h0 : ∀ y, s.sem y = 0 := fun y => h.sem y
  refine ⟨fun y => ?_, fun u => ?_⟩
  · change Function.update s.sem x (s.sem x + 1) y = _
    rcases eq_or_ne y x with rfl | hy
    · rw [Function.update_self, h0, if_pos rfl]
    · rw [Function.update_of_ne hy, h0, if_neg fun hx => hy (Token.sem.inj hx).symm]
  · refine iff_of_false ?_ (by simp)
    rcases eq_or_ne u t with rfl | hu
    · simpa using ha
    · rw [goto_pc_of_ne hu]
      exact fun hact => hu (Token.thread.inj ((h.active u).mp hact)).symm

/-- **`down` takes the token.** -/
theorem Holds.down (h : Holds s (.sem x)) (ha : Active a) :
    Holds ((s.down x).goto t a) (.thread t) := by
  refine ⟨fun y => ?_, fun u => ?_⟩
  · change Function.update s.sem x (s.sem x - 1) y = 0
    rcases eq_or_ne y x with rfl | hy
    · rw [Function.update_self, h.sem, if_pos rfl]
    · rw [Function.update_of_ne hy, h.sem, if_neg fun hx => hy (Token.sem.inj hx).symm]
  · rcases eq_or_ne u t with rfl | hu
    · simpa using ha
    · rw [goto_pc_of_ne hu]
      exact iff_of_false (h.not_active u) fun hx => hu (Token.thread.inj hx).symm

/-! ## The counters -/

/-- **The counters are tallies.** -/
structure Counted (s : Monitor Thread Cv) : Prop where
  nextCount : Tally Signalling s.pc s.nextCount
  count : ∀ c, Tally (Waiting c) s.pc (s.count c)

/-- A statement that neither signals nor waits. -/
theorem Counted.keep (h : Counted s) (hn : s'.nextCount = s.nextCount) (hc : s'.count = s.count)
    (hpc : s'.pc = s.pc) (hs : Signalling a ↔ Signalling (s.pc t))
    (hw : ∀ c, Waiting c a ↔ Waiting c (s.pc t)) : Counted (s'.goto t a) := by
  refine ⟨?_, fun c => ?_⟩
  · rw [goto_nextCount, hn, goto, hpc]
    exact h.nextCount.update hs
  · rw [goto_count, hc, goto, hpc]
    exact (h.count c).update (hw c)

omit [DecidableEq Cv] in
/-- `next_count++`. -/
theorem Counted.signal (h : Counted s) (ht : s.pc t = .signalCount c) :
    Counted ((s.addNextCount 1).goto t (.signalUp c)) where
  nextCount := h.nextCount.enter (by simp [ht, Signalling]) trivial
  count d := (h.count d).update (by simp [ht, Waiting])

omit [DecidableEq Cv] in
/-- `next_count--`. -/
theorem Counted.signalEnd (h : Counted s) (ht : s.pc t = .signalEnd) :
    Counted ((s.addNextCount (-1)).goto t .inside) where
  nextCount := h.nextCount.leave (by simp [ht, Signalling]) id
  count d := (h.count d).update (by simp [ht, Waiting])

/-- `count++`. -/
theorem Counted.wait (h : Counted s) (ht : s.pc t = .waitCount c) :
    Counted ((s.addCount c 1).goto t (.waitTest c)) where
  nextCount := h.nextCount.update (by simp [ht, Signalling])
  count d := by
    change Tally (Waiting d) _ (Function.update s.count c (s.count c + 1) d)
    rcases eq_or_ne d c with rfl | hd
    · rw [Function.update_self]
      exact (h.count d).enter (by simp [ht, Waiting]) rfl
    · rw [Function.update_of_ne hd]
      exact (h.count d).update (by simp [ht, Waiting, hd.symm])

/-- `count--`. -/
theorem Counted.waitEnd (h : Counted s) (ht : s.pc t = .waitEnd c) :
    Counted ((s.addCount c (-1)).goto t .inside) where
  nextCount := h.nextCount.update (by simp [ht, Signalling])
  count d := by
    change Tally (Waiting d) _ (Function.update s.count c (s.count c + -1) d)
    rcases eq_or_ne d c with rfl | hd
    · rw [Function.update_self]
      exact (h.count d).leave (by simp [ht, Waiting]) id
    · rw [Function.update_of_ne hd]
      exact (h.count d).update (by simp [ht, Waiting, hd.symm])

/-! ## What the owner of the token knows -/

/-- What a test has found still holds when the thread acts on it. -/
def Knows (s : Monitor Thread Cv) : MonitorPc Cv → Prop
  | .signalCount c | .signalUp c => 0 < s.count c
  | .waitUp _ toNext | .leaveUp toNext => toNext = true ↔ 0 < s.nextCount
  | _ => True

/-- The unit of a semaphore is meant for somebody, or nobody is suspended on `next`. -/
def Owed (s : Monitor Thread Cv) : MonitorSem Cv → Prop
  | .mutex => s.nextCount = 0
  | .next => 0 < s.nextCount
  | .cv c => 0 < s.count c

/-- **The monitor between two statements.** -/
structure Coherent (s : Monitor Thread Cv) (k : Token Thread Cv) : Prop where
  holds : Holds s k
  counted : Counted s
  knows : ∀ t, k = .thread t → Knows s (s.pc t)
  owed : ∀ x, k = .sem x → Owed s x

theorem Coherent.ofThread (hh : Holds s (.thread t)) (hc : Counted s) (hk : Knows s (s.pc t)) :
    Coherent s (.thread t) :=
  ⟨hh, hc, fun _ hu => Token.thread.inj hu ▸ hk, fun _ hx => nomatch hx⟩

theorem Coherent.ofSem (hh : Holds s (.sem x)) (hc : Counted s) (ho : Owed s x) :
    Coherent s (.sem x) :=
  ⟨hh, hc, fun _ hu => (nomatch hu), fun _ hx => Token.sem.inj hx ▸ ho⟩

/-- The choice of an exit path is not stale. -/
theorem Coherent.owed_chosen {toNext : Bool} (h : Coherent s k)
    (hk : toNext = true ↔ 0 < s.nextCount) : Owed s (chosen toNext : MonitorSem Cv) := by
  cases toNext with
  | true => exact hk.mp rfl
  | false =>
    have hn : ¬ 0 < s.nextCount := fun hpos => nomatch hk.mpr hpos
    exact le_antisymm (not_lt.mp hn) h.counted.nextCount.nonneg

/-- A thread inside goes on, and changes no counter. -/
theorem Coherent.go (h : Coherent s k) (ht : Active (s.pc t)) (ha : Active a)
    (hs : Signalling a ↔ Signalling (s.pc t)) (hw : ∀ c, Waiting c a ↔ Waiting c (s.pc t))
    (hk : Knows (s.goto t a) a) : Coherent (s.goto t a) (.thread t) := by
  obtain rfl := h.holds.eq_thread ht
  exact .ofThread (h.holds.stay rfl rfl ha) (h.counted.keep rfl rfl rfl hs hw) (by simpa using hk)

/-- A thread gets through a `down`. -/
theorem Coherent.take (h : Coherent s k) (hpos : 0 < s.sem x) (ha : Active a)
    (hs : Signalling a ↔ Signalling (s.pc t)) (hw : ∀ c, Waiting c a ↔ Waiting c (s.pc t))
    (hk : Knows ((s.down x).goto t a) a) : Coherent ((s.down x).goto t a) (.thread t) := by
  obtain rfl := h.holds.eq_sem hpos
  exact .ofThread (h.holds.down ha) (h.counted.keep rfl rfl rfl hs hw) (by simpa using hk)

/-- A thread inside does an `up`, and is outside. -/
theorem Coherent.give (h : Coherent s k) (ht : Active (s.pc t)) (ha : ¬ Active a)
    (hs : Signalling a ↔ Signalling (s.pc t)) (hw : ∀ c, Waiting c a ↔ Waiting c (s.pc t))
    (ho : Owed s x) : Coherent ((s.up x).goto t a) (.sem x) := by
  obtain rfl := h.holds.eq_thread ht
  have ho' : Owed ((s.up x).goto t a) x := by cases x <;> exact ho
  exact .ofSem (h.holds.up ha) (h.counted.keep rfl rfl rfl hs hw) ho'

/-- **The step lemma**: every statement leaves one token, exact counters, and fresh knowledge. -/
theorem Step.coherent (h : Coherent s k) (hstep : Step s t e s') : ∃ k', Coherent s' k' := by
  -- what the thread that makes the step knows, if it is inside
  have hknows : Active (s.pc t) → Knows s (s.pc t) := fun ht => h.knows t (h.holds.eq_thread ht)
  cases hstep with
  | call ht =>
    have hout : ¬ Active (s.pc t) := by simp [ht, Active]
    refine ⟨k, h.holds.idle hout (by simp [Active]), h.counted.keep rfl rfl rfl
      (by simp [ht, Signalling]) (by simp [ht, Waiting]), fun u hu => ?_, h.owed⟩
    have hut : u ≠ t := fun hut => hout ((h.holds.active t).mpr (hut ▸ hu))
    rw [goto_pc_of_ne hut]
    exact h.knows u hu
  | enter ht hpos =>
    exact ⟨_, h.take hpos trivial (by simp [ht, Signalling]) (by simp [ht, Waiting]) trivial⟩
  | signal c ht =>
    exact ⟨_, h.go (by simp [ht, Active]) trivial (by simp [ht, Signalling]) (by simp [ht, Waiting])
      trivial⟩
  | signalTest ht =>
    split
    · rename_i hpos
      exact ⟨_, h.go (by simp [ht, Active]) trivial (by simp [ht, Signalling])
        (by simp [ht, Waiting]) hpos⟩
    · exact ⟨_, h.go (by simp [ht, Active]) trivial (by simp [ht, Signalling])
        (by simp [ht, Waiting]) trivial⟩
  | @signalCount c ht =>
    have hk := hknows (by simp [ht, Active])
    obtain rfl := h.holds.eq_thread (t := t) (by simp [ht, Active])
    refine ⟨.thread t, .ofThread (h.holds.stay rfl rfl trivial) (h.counted.signal ht) ?_⟩
    rw [goto_pc_self]
    rw [ht] at hk
    exact hk
  | signalUp ht =>
    have hk := hknows (by simp [ht, Active])
    rw [ht] at hk
    exact ⟨_, h.give (by simp [ht, Active]) id (by simp [ht, Signalling]) (by simp [ht, Waiting]) hk⟩
  | signalDown ht hpos =>
    exact ⟨_, h.take hpos trivial (by simp [ht, Signalling]) (by simp [ht, Waiting]) trivial⟩
  | signalEnd ht =>
    obtain rfl := h.holds.eq_thread (t := t) (by simp [ht, Active])
    exact ⟨.thread t, .ofThread (h.holds.stay rfl rfl trivial) (h.counted.signalEnd ht) (by simp [Knows])⟩
  | wait c ht =>
    exact ⟨_, h.go (by simp [ht, Active]) trivial (by simp [ht, Signalling]) (by simp [ht, Waiting])
      trivial⟩
  | waitCount ht =>
    obtain rfl := h.holds.eq_thread (t := t) (by simp [ht, Active])
    exact ⟨.thread t, .ofThread (h.holds.stay rfl rfl trivial) (h.counted.wait ht) (by simp [Knows])⟩
  | waitTest ht =>
    exact ⟨_, h.go (by simp [ht, Active]) trivial (by simp [ht, Signalling]) (by simp [ht, Waiting])
      decide_eq_true_iff⟩
  | waitUp ht =>
    have hk := hknows (by simp [ht, Active])
    rw [ht] at hk
    exact ⟨_, h.give (by simp [ht, Active]) id (by simp [ht, Signalling]) (by simp [ht, Waiting])
      (h.owed_chosen hk)⟩
  | waitDown ht hpos =>
    exact ⟨_, h.take hpos trivial (by simp [ht, Signalling]) (by simp [ht, Waiting]) trivial⟩
  | waitEnd ht =>
    obtain rfl := h.holds.eq_thread (t := t) (by simp [ht, Active])
    exact ⟨.thread t, .ofThread (h.holds.stay rfl rfl trivial) (h.counted.waitEnd ht) (by simp [Knows])⟩
  | leave ht =>
    exact ⟨_, h.go (by simp [ht, Active]) trivial (by simp [ht, Signalling]) (by simp [ht, Waiting])
      trivial⟩
  | leaveTest ht =>
    exact ⟨_, h.go (by simp [ht, Active]) trivial (by simp [ht, Signalling]) (by simp [ht, Waiting])
      decide_eq_true_iff⟩
  | leaveUp ht =>
    have hk := hknows (by simp [ht, Active])
    rw [ht] at hk
    exact ⟨_, h.give (by simp [ht, Active]) id (by simp [ht, Signalling]) (by simp [ht, Waiting])
      (h.owed_chosen hk)⟩

/-- A new monitor is free. -/
theorem coherent_init : Coherent (monitorInit : Monitor Thread Cv) (.sem .mutex) where
  holds := ⟨fun x => by simp [monitorInit, eq_comm], fun t => by simp [monitorInit, Active]⟩
  counted := ⟨.zero fun _ => id, fun _ => .zero fun _ => id⟩
  knows _ ht := nomatch ht
  owed _ hx := Token.sem.inj hx ▸ rfl

theorem Run.coherent {es : List (MonitorEvent Cv)} (hrun : Run monitorInit es s) :
    ∃ k, Coherent s k := by
  induction hrun with
  | nil => exact ⟨_, coherent_init⟩
  | snoc _ hstep ih =>
    obtain ⟨k, h⟩ := ih
    exact hstep.coherent h

/-! ## Runs of monitor procedures -/

/-- While a semaphore has the token, the only steps are calls and its own `down`s. -/
theorem Coherent.step_cv (h : Coherent s (.sem (.cv c))) (hstep : Step s t e s') :
    e = .called ∧ Coherent s' (.sem (.cv c)) ∨ e = .resumed c := by
  have hno := h.holds.not_active t
  have hsem : ∀ x, x ≠ .cv c → ¬ 0 < s.sem x := fun x hx => by
    rw [h.holds.sem, if_neg fun heq => hx (Token.sem.inj heq).symm]
    exact lt_irrefl 0
  cases hstep with
  | call ht =>
    refine .inl ⟨rfl, .ofSem (h.holds.idle hno id) (h.counted.keep rfl rfl rfl
      (by simp [ht, Signalling]) (by simp [ht, Waiting])) (h.owed _ rfl)⟩
  | enter ht hpos => exact absurd hpos (hsem _ (by simp))
  | signalDown ht hpos => exact absurd hpos (hsem _ (by simp))
  | @waitDown d ht hpos =>
    obtain rfl : d = c := by
      by_contra hd
      exact hsem (.cv d) (by simpa using hd) hpos
    exact .inr rfl
  | _ => simp_all [Active]

/-- **The first thing to happen after a signal is that a waiter goes on.** -/
theorem Run.first_resumed {es : List (MonitorEvent Cv)} (h : Coherent s (.sem (.cv c)))
    (hrun : Run s es s') :
    (∀ e ∈ es, e = .called) ∧ Coherent s' (.sem (.cv c)) ∨
      ∃ es₁ es₂, es = es₁ ++ .resumed c :: es₂ ∧ ∀ e ∈ es₁, e = .called := by
  induction hrun with
  | nil => exact .inl ⟨fun e he => absurd he List.not_mem_nil, h⟩
  | @snoc es e _ _ _ hrun hstep ih =>
    rcases ih with ⟨hcalled, hcoh⟩ | ⟨es₁, es₂, rfl, hcalled⟩
    · rcases hcoh.step_cv hstep with ⟨rfl, hcoh'⟩ | rfl
      · refine .inl ⟨fun e' he' => ?_, hcoh'⟩
        rcases List.mem_append.mp he' with he' | he'
        · exact hcalled e' he'
        · exact List.mem_singleton.mp he'
      · exact .inr ⟨es, [], rfl, hcalled⟩
    · exact .inr ⟨es₁, es₂ ++ [e], by simp, hcalled⟩

/-- A statement moves the value of a condition variable's semaphore as its event says. -/
theorem Step.sem_cv (hstep : Step s t e s') (c : Cv) :
    s'.sem (.cv c) + (if e = .resumed c then 1 else 0) =
      s.sem (.cv c) + if e = .signalled c then 1 else 0 := by
  cases hstep with
  | @signalUp d ht =>
    rcases eq_or_ne c d with rfl | hd
    · simp [up]
    · simp [up, hd, hd.symm]
  | @waitDown d ht hpos =>
    rcases eq_or_ne c d with rfl | hd
    · simp only [goto_sem, down, Function.update_self, reduceCtorEq, if_true, if_false]
      omega
    · simp [down, hd, hd.symm]
  | @waitUp _ toNext ht | @leaveUp toNext ht => cases toNext <;> simp [up, chosen]
  | enter ht hpos | signalDown ht hpos => simp [down]
  | _ => simp [addNextCount, addCount]

/-- Who hands over waits on `next` from then on. -/
theorem Step.of_signalled (hstep : Step s t (.signalled c) s') :
    s.pc t = .signalUp c ∧ s'.pc t = .signalDown := by
  cases hstep with
  | signalUp h => exact ⟨h, goto_pc_self⟩

/-- Who goes on was at the `down`. -/
theorem Step.of_resumed (hstep : Step s t (.resumed c) s') : s.pc t = .waitDown c := by
  cases hstep with
  | waitDown h => exact h

/-- Every signal is answered once, but for the one that is pending. -/
theorem Run.count_signalled {es : List (MonitorEvent Cv)} (hrun : Run monitorInit es s) (c : Cv) :
    es.count (.signalled c) = es.count (.resumed c) + s.sem (.cv c) := by
  induction hrun with
  | nil => simp [monitorInit]
  | @snoc es e _ _ _ hrun hstep ih =>
    have hsem := hstep.sem_cv c
    rw [List.count_append, List.count_append, List.count_singleton, List.count_singleton, ih]
    simp only [beq_iff_eq]
    omega

/-- A tally of suspended threads alone: somebody is at the `down`. -/
theorem Coherent.exists_waitDown (h : Coherent s k) (hk : ∀ t, k = .thread t → ¬ Waiting c (s.pc t))
    (hpos : 0 < s.count c) : ∃ u, s.pc u = .waitDown c := by
  obtain ⟨u, hu⟩ := (h.counted.count c).pos_iff.mp hpos
  refine ⟨u, eq_waitDown hu fun hact => hk u (h.holds.eq_thread hact) hu⟩

/-- **What a monitor guarantees** in a state `s` that a run with the events `es` reaches. -/
structure Guarantees (es : List (MonitorEvent Cv)) (s : Monitor Thread Cv) : Prop where
  /-- At most one thread executes monitor code. -/
  exclusive : ∀ t u, Active (s.pc t) → Active (s.pc u) → t = u
  /-- The mutex is worth nothing or one… -/
  mutex_le : s.sem .mutex ≤ 1
  /-- …and one only when nobody is inside, and no signaller is left on `next`. -/
  mutex_one : s.sem .mutex = 1 → ∀ t, ¬ Active (s.pc t) ∧ s.pc t ≠ .signalDown
  /-- `next_count` counts the threads between their `next_count++` and `next_count--`. -/
  nextCount : Tally Signalling s.pc s.nextCount
  /-- The test of `cond_signal` finds out whether a thread waits… -/
  test : ∀ t c, s.pc t = .signalTest c → (0 < s.count c ↔ ∃ u, s.pc u = .waitDown c)
  /-- …with none, `cond_signal` does nothing… -/
  none_waits : ∀ t c, s.pc t = .signalTest c → (∀ u, s.pc u ≠ .waitDown c) →
    ∀ e s', Step s t e s' → s' = s.goto t .inside
  /-- …and with one, it goes on to hand over to one. -/
  one_waits : ∀ t c, s.pc t = .signalTest c → (∃ u, s.pc u = .waitDown c) →
    ∀ e s', Step s t e s' → s' = s.goto t (.signalCount c)
  /-- When it hands over, a waiter of `c` can go on, and goes on before anything else happens. -/
  hands_over : ∀ t c s₁, Step s t (.signalled c) s₁ → s₁.sem (.cv c) = 1 ∧
    (∃ u, s₁.pc u = .waitDown c) ∧ ∀ es₁ s₂, Run s₁ es₁ s₂ → (∀ e ∈ es₁, e = .called) ∨
      ∃ es₂ es₃, es₁ = es₂ ++ .resumed c :: es₃ ∧ ∀ e ∈ es₂, e = .called
  /-- As many waiters of `c` have gone on as signallers have handed over, but for a pending one. -/
  answered : ∀ c, es.count (.signalled c) = es.count (.resumed c) + s.sem (.cv c)
  /-- At most one is pending. -/
  cv_le : ∀ c, s.sem (.cv c) ≤ 1
  /-- A unit of `next` finds a suspended signaller. -/
  next_pos : 0 < s.sem .next → ∃ u, s.pc u = .signalDown

/-- **Monitors.**  For any threads and condition variables, whatever the order of their statements,
the guarantees hold in every state. -/
theorem monitor_run {es : List (MonitorEvent Cv)} (hrun : Run monitorInit es s) :
    Guarantees es s := by
  obtain ⟨k, h⟩ := hrun.coherent
  have hle : ∀ x, s.sem x ≤ 1 := fun x => by
    rw [h.holds.sem]
    split <;> simp
  have htest : ∀ t c, s.pc t = .signalTest c → (0 < s.count c ↔ ∃ u, s.pc u = .waitDown c) := by
    intro t c ht
    obtain rfl := h.holds.eq_thread (t := t) (by simp [ht, Active])
    refine ⟨h.exists_waitDown fun u hu => ?_, fun ⟨u, hu⟩ => ?_⟩
    · rw [← Token.thread.inj hu, ht]
      exact id
    · exact (h.counted.count c).pos_iff.mpr ⟨u, by simp [hu, Waiting]⟩
  refine ⟨fun t u ht hu => ?_, hle _, fun hone t => ?_, h.counted.nextCount, htest,
    fun t c ht hno e s' hstep => ?_, fun t c ht hsome e s' hstep => ?_, fun t c s₁ hstep => ?_,
    hrun.count_signalled, fun c => hle _, fun hpos => ?_⟩
  · exact Token.thread.inj ((h.holds.eq_thread ht).symm.trans (h.holds.eq_thread hu))
  · obtain rfl := h.holds.eq_sem (x := .mutex) (hone ▸ Nat.one_pos)
    refine ⟨h.holds.not_active t, fun hd => ?_⟩
    have hpos : 0 < s.nextCount := h.counted.nextCount.pos_iff.mpr ⟨t, by simp [hd, Signalling]⟩
    exact hpos.ne' (h.owed _ rfl)
  · have hc : ¬ 0 < s.count c := fun hpos => ((htest t c ht).mp hpos).elim hno
    cases hstep with
    | signalTest h' =>
      obtain rfl : _ = c := MonitorPc.signalTest.inj (h'.symm.trans ht)
      rw [if_neg hc]
    | _ => simp_all
  · have hc : 0 < s.count c := (htest t c ht).mpr hsome
    cases hstep with
    | signalTest h' =>
      obtain rfl : _ = c := MonitorPc.signalTest.inj (h'.symm.trans ht)
      rw [if_pos hc]
    | _ => simp_all
  · have hev := hstep.sem_cv c
    obtain ⟨k', h'⟩ := hstep.coherent h
    have hpos : 0 < s₁.sem (.cv c) := by
      simp only [reduceCtorEq, if_false, if_true] at hev
      omega
    obtain rfl := h'.holds.eq_sem hpos
    refine ⟨by rw [h'.holds.sem, if_pos rfl], h'.exists_waitDown (fun u hu => (nomatch hu))
      (h'.owed _ rfl), fun es₁ s₂ hrun₁ => ?_⟩
    exact (hrun₁.first_resumed h').imp And.left id
  · obtain rfl := h.holds.eq_sem hpos
    obtain ⟨u, hu⟩ := h.counted.nextCount.pos_iff.mp (h.owed _ rfl)
    exact ⟨u, eq_signalDown hu (h.holds.not_active u)⟩

/-- A thread waits, and another hands over to it. -/
theorem monitor_run_pair : ∃ es, ∃ s : Monitor Bool Unit, Run monitorInit es s ∧
    s.pc false = .waitDown () ∧ s.pc true = .signalDown ∧ es.count (.signalled ()) = 1 ∧
    Guarantees es s := by
  have hrun : ∃ es, ∃ s : Monitor Bool Unit, Run monitorInit es s ∧ es.count (.signalled ()) = 1 ∧
      s.pc false = .waitDown () ∧ s.pc true = .signalDown :=
    ⟨_, _, .snoc (.snoc (.snoc (.snoc (.snoc (.snoc (.snoc (.snoc (.snoc (.snoc (.snoc (.snoc .nil
      (.call (t := false) rfl)) (.enter (t := false) rfl (by decide)))
      (.wait (t := false) () rfl)) (.waitCount (t := false) (c := ()) rfl))
      (.waitTest (t := false) (c := ()) rfl)) (.waitUp (t := false) (c := ()) rfl))
      (.call (t := true) rfl)) (.enter (t := true) rfl (by decide)))
      (.signal (t := true) () rfl)) (.signalTest (t := true) (c := ()) rfl))
      (.signalCount (t := true) (c := ()) rfl)) (.signalUp (t := true) (c := ()) rfl),
      by decide, by decide, by decide⟩
  obtain ⟨es, s, hrun, hes, hf, ht⟩ := hrun
  exact ⟨es, s, hrun, hf, ht, hes, monitor_run hrun⟩

end Monitor

end UCore
