import UCore.Sync.Monitor

/-!
# Sync/CheckSync — the dining philosophers, over semaphores and over a monitor

`kern/sync/check_sync.c` for any number `N` of philosophers, one statement a step.  A philosopher
loops over `take_forks` and `put_forks`; the forks are the array `state`, which everybody changes for
himself and, when `phi_test` lets a neighbour eat, for the neighbour.

    take   HUNGRY ──▸ test(i) ──▸ wait for the grant ──▸ EATING
    put    THINKING ──▸ test(LEFT) ──▸ test(RIGHT)

The two versions differ in how a grant travels: as a unit of the semaphore `s[i]`, which waits for a
philosopher who has not gone to sleep yet, or as a hand-over of the monitor to the sleeper.
-/

namespace UCore

/-- What `state_sema[i]` and `state_condvar[i]` say of a philosopher. -/
inductive PhiState where
  | thinking
  | hungry
  | eating
  deriving DecidableEq

namespace CheckSync

variable {N : ℕ}

/-! ## The round table -/

/-- `LEFT`, which is `(i-1+N)%N`. -/
def left (i : Fin N) : Fin N := ⟨(i + N - 1) % N, Nat.mod_lt _ i.pos⟩

/-- `RIGHT`, which is `(i+1)%N`. -/
def right (i : Fin N) : Fin N := ⟨(i + 1) % N, Nat.mod_lt _ i.pos⟩

/-- **The condition of `phi_test`**: hungry, between two who do not eat. -/
def CanEat (state : Fin N → PhiState) (i : Fin N) : Prop :=
  state i = .hungry ∧ state (left i) ≠ .eating ∧ state (right i) ≠ .eating

instance (state : Fin N → PhiState) (i : Fin N) : Decidable (CanEat state i) :=
  inferInstanceAs (Decidable (_ ∧ _ ∧ _))

/-- The three calls of `phi_test`: in `take_forks`, and the two in `put_forks`. -/
inductive Call where
  | self
  | left
  | right
  deriving DecidableEq

/-- The argument of the call. -/
def Call.who (i : Fin N) : Call → Fin N
  | .self => i
  | .left => CheckSync.left i
  | .right => CheckSync.right i

/-! ## With semaphores -/

/-- The statement a philosopher of the semaphore version executes next. -/
inductive SemaPc where
  /-- Thinking, until he calls `phi_take_forks_sema`. -/
  | thinking
  /-- `down(&mutex)`. -/
  | takeDown
  /-- `state_sema[i]=HUNGRY`. -/
  | takeHungry
  /-- The `if` of `phi_test_sema`. -/
  | test (a : Call)
  /-- `state_sema[i]=EATING` of `phi_test_sema`. -/
  | testEat (a : Call)
  /-- `up(&s[i])` of `phi_test_sema`. -/
  | testUp (a : Call)
  /-- `up(&mutex)`. -/
  | takeUp
  /-- `down(&s[i])`. -/
  | takeWait
  /-- `phi_take_forks_sema` has returned. -/
  | eating
  /-- `down(&mutex)` of `phi_put_forks_sema`. -/
  | putDown
  /-- `state_sema[i]=THINKING`. -/
  | putThinking
  /-- `up(&mutex)` of `phi_put_forks_sema`. -/
  | putUp
  deriving DecidableEq

/-- The statement after the call. -/
def SemaPc.after : Call → SemaPc
  | .self => .takeUp
  | .left => .test .right
  | .right => .putUp

/-- **Inside the critical section**, between the two statements on `mutex`. -/
def SemaPc.Inside : SemaPc → Prop
  | .takeHungry | .test _ | .testEat _ | .testUp _ | .takeUp | .putThinking | .putUp => True
  | _ => False

/-- `mutex`, `s[N]` and `state_sema[N]`, with the philosophers. -/
structure Sema (N : ℕ) where
  mutex : ℕ
  s : Fin N → ℕ
  state : Fin N → PhiState
  pc : Fin N → SemaPc

namespace Sema

/-- `check_sync` has made the semaphores, and everybody thinks. -/
def start : Sema N where
  mutex := 1
  s _ := 0
  state _ := .thinking
  pc _ := .thinking

/-- The philosopher goes on to another statement. -/
def goto (x : Sema N) (i : Fin N) (p : SemaPc) : Sema N :=
  { x with pc := Function.update x.pc i p }

/-- `state_sema[j]=…`. -/
def setState (x : Sema N) (j : Fin N) (v : PhiState) : Sema N :=
  { x with state := Function.update x.state j v }

/-- The value of `mutex` changes. -/
def setMutex (x : Sema N) (n : ℕ) : Sema N := { x with mutex := n }

/-- The value of `s[j]` changes. -/
def setS (x : Sema N) (j : Fin N) (n : ℕ) : Sema N := { x with s := Function.update x.s j n }

/-- **One statement of one philosopher.** -/
inductive Step (x : Sema N) (i : Fin N) : Sema N → Prop
  | take (h : x.pc i = .thinking) : Step x i (x.goto i .takeDown)
  | takeDown (h : x.pc i = .takeDown) (hpos : 0 < x.mutex) :
      Step x i ((x.setMutex (x.mutex - 1)).goto i .takeHungry)
  | takeHungry (h : x.pc i = .takeHungry) :
      Step x i ((x.setState i .hungry).goto i (.test .self))
  | test {a : Call} (h : x.pc i = .test a) :
      Step x i (x.goto i (if CanEat x.state (a.who i) then .testEat a else .after a))
  | testEat {a : Call} (h : x.pc i = .testEat a) :
      Step x i ((x.setState (a.who i) .eating).goto i (.testUp a))
  | testUp {a : Call} (h : x.pc i = .testUp a) :
      Step x i ((x.setS (a.who i) (x.s (a.who i) + 1)).goto i (.after a))
  | takeUp (h : x.pc i = .takeUp) : Step x i ((x.setMutex (x.mutex + 1)).goto i .takeWait)
  | takeWait (h : x.pc i = .takeWait) (hpos : 0 < x.s i) :
      Step x i ((x.setS i (x.s i - 1)).goto i .eating)
  | put (h : x.pc i = .eating) : Step x i (x.goto i .putDown)
  | putDown (h : x.pc i = .putDown) (hpos : 0 < x.mutex) :
      Step x i ((x.setMutex (x.mutex - 1)).goto i .putThinking)
  | putThinking (h : x.pc i = .putThinking) :
      Step x i ((x.setState i .thinking).goto i (.test .left))
  | putUp (h : x.pc i = .putUp) : Step x i ((x.setMutex (x.mutex + 1)).goto i .thinking)

/-- Statements of any philosophers, in any order. -/
inductive Run : Sema N → Prop
  | start : Run start
  | step {x x' : Sema N} {i : Fin N} (hrun : Run x) (hstep : Step x i x') : Run x'

end Sema

/-! ## With the monitor -/

/-- Where a philosopher of the monitor version is in his own code.  Inside `cond_signal`, inside
`cond_wait`, on entry and on exit it is the place he comes back to. -/
inductive Place where
  /-- Thinking, until he calls `phi_take_forks_condvar`. -/
  | thinking
  /-- `state_condvar[i] = HUNGRY`. -/
  | takeHungry
  /-- The `if` of `phi_test_condvar`. -/
  | test (a : Call)
  /-- `state_condvar[i] = EATING` of `phi_test_condvar`. -/
  | testEat (a : Call)
  /-- `cond_signal(&mtp->cv[i])` of `phi_test_condvar`. -/
  | testSignal (a : Call)
  /-- `if (state_condvar[i] == HUNGRY)`. -/
  | takeCheck
  /-- `cond_wait(&mtp->cv[i])`. -/
  | takeWait
  /-- The exit of `phi_take_forks_condvar`. -/
  | takeLeave
  /-- `phi_take_forks_condvar` has returned, or is about to. -/
  | eating
  /-- `state_condvar[i] = THINKING`. -/
  | putThinking
  /-- The exit of `phi_put_forks_condvar`. -/
  | putLeave
  deriving DecidableEq

/-- The place after the call. -/
def Place.after : Call → Place
  | .self => .takeCheck
  | .left => .test .right
  | .right => .putLeave

/-- `mt` and `state_condvar[N]`, with the philosophers. -/
structure Condvar (N : ℕ) where
  mt : Monitor (Fin N) (Fin N)
  state : Fin N → PhiState
  place : Fin N → Place

namespace Condvar

/-- `check_sync` has made the monitor, and everybody thinks. -/
def start : Condvar N where
  mt := Monitor.monitorInit
  state _ := .thinking
  place _ := .thinking

/-- The philosopher goes on in his own code. -/
def goto (x : Condvar N) (i : Fin N) (p : Place) : Condvar N :=
  { x with place := Function.update x.place i p }

/-- `state_condvar[j] = …`. -/
def setState (x : Condvar N) (j : Fin N) (v : PhiState) : Condvar N :=
  { x with state := Function.update x.state j v }

/-- The philosopher goes into the code of the monitor. -/
def enter (x : Condvar N) (i : Fin N) (p : MonitorPc (Fin N)) : Condvar N :=
  { x with mt := x.mt.goto i p }

/-- **One statement of one philosopher**, of his own or of the monitor's code. -/
inductive Step (x : Condvar N) (i : Fin N) : Condvar N → Prop
  | code (hin : x.mt.pc i ≠ .inside) (hout : x.mt.pc i ≠ .outside) {e : MonitorEvent (Fin N)}
      {m : Monitor (Fin N) (Fin N)} (h : Monitor.Step x.mt i e m) : Step x i { x with mt := m }
  | take (hm : x.mt.pc i = .outside) (h : x.place i = .thinking) :
      Step x i ((x.enter i .enter).goto i .takeHungry)
  | takeHungry (hm : x.mt.pc i = .inside) (h : x.place i = .takeHungry) :
      Step x i ((x.setState i .hungry).goto i (.test .self))
  | test (hm : x.mt.pc i = .inside) {a : Call} (h : x.place i = .test a) :
      Step x i (x.goto i (if CanEat x.state (a.who i) then .testEat a else .after a))
  | testEat (hm : x.mt.pc i = .inside) {a : Call} (h : x.place i = .testEat a) :
      Step x i ((x.setState (a.who i) .eating).goto i (.testSignal a))
  | testSignal (hm : x.mt.pc i = .inside) {a : Call} (h : x.place i = .testSignal a) :
      Step x i ((x.enter i (.signalTest (a.who i))).goto i (.after a))
  | takeCheck (hm : x.mt.pc i = .inside) (h : x.place i = .takeCheck) :
      Step x i (x.goto i (if x.state i = .hungry then .takeWait else .takeLeave))
  | takeWait (hm : x.mt.pc i = .inside) (h : x.place i = .takeWait) :
      Step x i ((x.enter i (.waitCount i)).goto i .takeLeave)
  | takeLeave (hm : x.mt.pc i = .inside) (h : x.place i = .takeLeave) :
      Step x i ((x.enter i .leaveTest).goto i .eating)
  | put (hm : x.mt.pc i = .outside) (h : x.place i = .eating) :
      Step x i ((x.enter i .enter).goto i .putThinking)
  | putThinking (hm : x.mt.pc i = .inside) (h : x.place i = .putThinking) :
      Step x i ((x.setState i .thinking).goto i (.test .left))
  | putLeave (hm : x.mt.pc i = .inside) (h : x.place i = .putLeave) :
      Step x i ((x.enter i .leaveTest).goto i .thinking)

/-- Statements of any philosophers, in any order. -/
inductive Run : Condvar N → Prop
  | start : Run start
  | step {x x' : Condvar N} {i : Fin N} (hrun : Run x) (hstep : Step x i x') : Run x'

/-- **Inside the monitor**: between the entry and the exit of a procedure, a sleeper in `cond_wait`
apart.  A signaller who waits for the philosopher he has woken is inside. -/
def Inside (x : Condvar N) (i : Fin N) : Prop :=
  Monitor.Active (x.mt.pc i) ∨ x.mt.pc i = .signalDown

/-- A statement is one of the monitor's, or leaves the monitor alone. -/
theorem Step.monitor {x x' : Condvar N} {i : Fin N} (h : Step x i x') :
    x'.mt = x.mt ∨ ∃ e, Monitor.Step x.mt i e x'.mt := by
  cases h with
  | code hin hout h => exact .inr ⟨_, h⟩
  | take hm h | put hm h => exact .inr ⟨_, .call hm⟩
  | testSignal hm h => exact .inr ⟨_, .signal _ hm⟩
  | takeWait hm h => exact .inr ⟨_, .wait _ hm⟩
  | takeLeave hm h | putLeave hm h => exact .inr ⟨_, .leave hm⟩
  | _ => exact .inl rfl

end Condvar

end CheckSync

end UCore
