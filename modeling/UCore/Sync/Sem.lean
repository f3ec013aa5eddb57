import UCore.Libs.List
import UCore.Schedule.Sched

/-!
# Sync/Sem — semaphores, wait queues and timers

`kern/sync/sem.c` and `kern/sync/wait.c` on one semaphore, with the sleepers of `sched.c`'s timer
list beside them.  A `wait_t` lives on the stack of the process that waits, so it is named by that
process; each definition is one interrupt-disabled section.

    down:  _downFirst ──▸ schedule() ──▸ _downLast
-/

namespace UCore

/-- A list entry of a wait queue: the head, or the `wait_link` of a process's `wait_t`. -/
inductive WaitEntry where
  | head
  | waitLink (p : ℕ)
  deriving DecidableEq, Repr

/-- The call a process has left the processor in. -/
inductive Blocked where
  | down
  | sleep
  | wait
  | exit
  deriving DecidableEq, Repr

/-- Where a process is: in code of its own, between a section that put it to sleep and `schedule()`,
or in that `schedule()`. -/
inductive Pc where
  | running
  | leaving (b : Blocked)
  | away (b : Blocked)
  deriving DecidableEq, Repr

/-- One semaphore and the processes around it; `wakeupFlags` is the field of each process's
`wait_t`, and a timer is its `expires` and its process. -/
structure SemSys where
  sched : Sched
  timers : List (ℕ × ℕ)
  value : ℤ
  links : Links WaitEntry
  wakeupFlags : ℕ → ℕ
  pc : ℕ → Pc

namespace SemSys

/-- An interrupt-disabled section. -/
abbrev Call (α : Type) := Act SemSys Stop α

/-- A section of the scheduler. -/
def onSched {α : Type} (m : Sched.Call α) : Call α :=
  Act.zoom (fun s : SemSys => s.sched) (fun t s => { s with sched := t }) m

/-- A store to the links. -/
def setLinks (f : Links WaitEntry → Links WaitEntry) : Call Unit :=
  modify fun s => { s with links := f s.links }

/-- The process moves to another point of its code. -/
def setPc (s : SemSys) (p : ℕ) (c : Pc) : SemSys := { s with pc := Function.update s.pc p c }

/-! ## `wait.c` -/

/-- `wait_init`. -/
def waitInit (p : ℕ) : Call Unit := do
  modify fun s => { s with wakeupFlags := Function.update s.wakeupFlags p WT_INTERRUPTED }
  setLinks (listInit · (.waitLink p))

/-- `wait_queue_add`. -/
def waitQueueAdd (p : ℕ) : Call Unit := do
  Act.require .panic (listEmpty (← get).links (.waitLink p))
  setLinks (listAddBefore · .head (.waitLink p))

/-- `wait_queue_del`. -/
def waitQueueDel (p : ℕ) : Call Unit := do
  Act.require .panic (!listEmpty (← get).links (.waitLink p))
  setLinks (listDelInit · (.waitLink p))

/-- `wait_queue_first`. -/
def waitQueueFirst (l : Links WaitEntry) : Option ℕ :=
  match listNext l .head with
  | .head => none
  | .waitLink p => some p

/-- `wakeup_wait`. -/
def wakeupWait (p wakeupFlags : ℕ) (del : Bool) : Call Unit := do
  if del then waitQueueDel p
  modify fun s => { s with wakeupFlags := Function.update s.wakeupFlags p wakeupFlags }
  onSched (Sched.wakeupProc p)

/-- `wait_current_set`. -/
def waitCurrentSet (waitState : ℕ) : Call Unit := do
  let p := (← get).sched.current
  waitInit p
  onSched (modify fun s => s.modifyProc p fun g =>
    { g with state := .sleeping, waitState := waitState })
  waitQueueAdd p

/-- `wait_current_del`. -/
def waitCurrentDel : Call Unit := do
  let p := (← get).sched.current
  if !listEmpty (← get).links (.waitLink p) then waitQueueDel p

/-! ## `sem.c` -/

/-- `sem_init`. -/
def semInit (value : ℤ) : Call Unit := do
  modify fun s => { s with value := value }
  setLinks (listInit · .head)

/-- `__up` with `WT_KSEM`; the result is the process whose wait ended. -/
def _up : Call (Option ℕ) := do
  match waitQueueFirst (← get).links with
  | none => do
    modify fun s => { s with value := toS32 (s.value + 1) }
    return none
  | some p => do
    Act.require .panic (((← get).sched.proc p).waitState = WT_KSEM)
    wakeupWait p WT_KSEM true
    return some p

/-- The first section of `__down`; the result says whether a unit was taken. -/
def _downFirst : Call Bool := do
  if 0 < (← get).value then
    modify fun s => { s with value := s.value - 1 }
    return true
  waitCurrentSet WT_KSEM
  return false

/-- The second section of `__down`; the result is the value `__down` returns. -/
def _downLast : Call ℕ := do
  waitCurrentDel
  let s ← get
  let flags := s.wakeupFlags s.sched.current
  return if flags ≠ WT_KSEM then flags else 0

/-- The end of `down`, once `__down` is back from `schedule()`. -/
def downReturn : Call Unit := do
  let flags ← _downLast
  Act.require .panic (flags = 0)

/-- `try_down`. -/
def tryDown : Call Bool := do
  if 0 < (← get).value then
    modify fun s => { s with value := s.value - 1 }
    return true
  return false

/-! ## The timers of `sched.c` -/

/-- `add_timer` on the timer list, each `expires` counted from the timer before. -/
def addTimer (expires p : ℕ) : List (ℕ × ℕ) → List (ℕ × ℕ)
  | [] => [(expires, p)]
  | (e, q) :: ts =>
    if expires < e then (expires, p) :: (e - expires, q) :: ts
    else (e, q) :: addTimer (expires - e) p ts

/-- `del_timer`: what was left of the timer goes to the one after it. -/
def delTimer (p : ℕ) : List (ℕ × ℕ) → List (ℕ × ℕ)
  | [] => []
  | (e, q) :: ts =>
    if q = p then
      match ts with
      | [] => []
      | (e', q') :: ts' => (e' + e, q') :: ts'
    else (e, q) :: delTimer p ts

/-- The loop of `run_timer_list`: wake the processes of the timers that have run out. -/
def fireTimers : List (ℕ × ℕ) → Call (List (ℕ × ℕ))
  | [] => return []
  | (e, p) :: ts => do
    if e = 0 then
      if ((← get).sched.proc p).waitState ≠ 0 then
        Act.require .panic (((← get).sched.proc p).waitState &&& WT_INTERRUPTED ≠ 0)
      onSched (Sched.wakeupProc p)
      fireTimers ts
    else return (e, p) :: ts

/-- `run_timer_list`. -/
def runTimerList : Call Unit := do
  match (← get).timers with
  | [] => return ()
  | (e, p) :: ts => do
    Act.require .panic (e ≠ 0)
    let ts ← fireTimers ((e - 1, p) :: ts)
    modify fun s => { s with timers := ts }

/-- The section of `do_sleep` before `schedule()`. -/
def sleepSection (time : ℕ) : Call Unit := do
  let p := (← get).sched.current
  onSched (modify fun s => s.modifyProc p fun g =>
    { g with state := .sleeping, waitState := WT_TIMER })
  modify fun s => { s with timers := addTimer time p s.timers }

/-- The end of `do_sleep`. -/
def sleepReturn : Call Unit := modify fun s => { s with timers := delTimer s.sched.current s.timers }

end SemSys

end UCore
