import UCore.Machinery.Siblings
import UCore.Mm.Vma
import UCore.Process.Pid
import UCore.Schedule.Sched

/-!
# Process/Table — the process table

`set_links`, `remove_links`, the hash list, and the sections of `do_fork`, `do_exit`, `do_wait` and `do_kill` in
`kern/process/proc.c`, over `schedule` with the round-robin class.  A process is its `proc_struct`.

    parent ──cptr──▸ youngest ──optr──▸ … ──optr──▸ oldest          parent ◂── each of them
                     youngest ◂──yptr── … ◂──yptr── oldest

Control changes hands in `schedule` only.  A process that calls it has left something to do behind it, and goes
on with that when it is back; what else may put a process to sleep, or wake it, is an operation of its own.
-/

namespace UCore

open Vmm (E_INVAL)

/-- `E_BAD_PROC`. -/
abbrev E_BAD_PROC : ℤ := 2

/-- `E_NO_FREE_PROC`. -/
abbrev E_NO_FREE_PROC : ℤ := 5

/-- `E_KILLED`. -/
abbrev E_KILLED : ℤ := 9

/-- `hash32`. -/
def hash32 (val bits : ℕ) : ℕ := u32 (u64 (u32 val * 0x9e370001)) >>> (32 - bits)

/-- `pid_hashfn`. -/
def pidHashfn (pid : ℤ) : ℕ := hash32 (pid % 2 ^ 32).toNat 10

/-- `initproc`, the process that `idleproc` makes. -/
abbrev initproc : ℕ := 1

namespace ProcSys

/-- What a process has called `schedule` from: code of its own, a sleep that is not for a child, `do_wait` for
a `pid`, or `do_exit`. -/
inductive Errand where
  | own
  | sleep
  | wait (pid : ℤ)
  | exit
  deriving DecidableEq, Repr

/-- Where a process is: in code of its own, about to call `schedule`, in that call, or back in `do_wait`. -/
inductive Pc where
  | running
  | leaving (e : Errand)
  | away (e : Errand)
  | back (pid : ℤ)
  deriving DecidableEq, Repr

end ProcSys

/-- **The process table**: the scheduler's fields of each `proc_struct` and the others, the list of all
processes, the hash lists, `nr_process`, and the variables of `get_pid`. -/
structure ProcSys where
  sched : Sched
  pid : ℕ → ℤ
  exitCode : ℕ → ℤ
  parent : ℕ → Option ℕ
  cptr : ℕ → Option ℕ
  yptr : ℕ → Option ℕ
  optr : ℕ → Option ℕ
  procList : List ℕ
  hashList : ℕ → List ℕ
  nrProcess : ℕ
  lastPid : ℕ
  nextSafe : ℕ
  pc : ℕ → ProcSys.Pc

namespace ProcSys

/-- A section of the process table. -/
abbrev Call (α : Type) := Act ProcSys Stop α

/-- A section of the scheduler. -/
def onSched {α : Type} (m : Sched.Call α) : Call α :=
  Act.zoom (fun s : ProcSys => s.sched) (fun t s => { s with sched := t }) m

/-- `get_pid`, on the processes in the list. -/
def getPid (fuel : ℕ) : Call ℕ :=
  Act.zoom (fun s : ProcSys => ⟨s.lastPid, s.nextSafe, s.procList.map fun p => (s.pid p).toNat⟩)
    (fun t s => { s with lastPid := t.lastPid, nextSafe := t.nextSafe }) (Pid.getPid fuel)

/-- The process moves to another point of its code. -/
def setPc (s : ProcSys) (p : ℕ) (c : Pc) : ProcSys := { s with pc := Function.update s.pc p c }

/-- The fields that `alloc_proc` sets. -/
def allocProc (s : ProcSys) (p : ℕ) : ProcSys :=
  { s with
    sched := s.sched.modifyProc p fun _ => ⟨.uninit, 0, false⟩
    pid := Function.update s.pid p (-1)
    parent := Function.update s.parent p none
    cptr := Function.update s.cptr p none
    yptr := Function.update s.yptr p none
    optr := Function.update s.optr p none }

/-- `set_links`. -/
def setLinks (p : ℕ) : Call Unit := do
  modify fun s => { s with procList := p :: s.procList }
  modify fun s => { s with yptr := Function.update s.yptr p none }
  match (← get).parent p with
  | none => throw .panic
  | some parent => do
    modify fun s => { s with optr := Function.update s.optr p (s.cptr parent) }
    match (← get).optr p with
    | none => pure ()
    | some y => modify fun s => { s with yptr := Function.update s.yptr y (some p) }
    modify fun s => { s with
      cptr := Function.update s.cptr parent (some p)
      nrProcess := s.nrProcess + 1 }

/-- `remove_links`. -/
def removeLinks (p : ℕ) : Call Unit := do
  modify fun s => { s with procList := s.procList.erase p }
  match (← get).optr p with
  | none => pure ()
  | some y => modify fun s => { s with yptr := Function.update s.yptr y (s.yptr p) }
  match (← get).yptr p with
  | some z => modify fun s => { s with optr := Function.update s.optr z (s.optr p) }
  | none =>
    match (← get).parent p with
    | none => throw .panic
    | some parent => modify fun s => { s with cptr := Function.update s.cptr parent (s.optr p) }
  modify fun s => { s with nrProcess := s.nrProcess - 1 }

/-- `hash_proc`… -/
def hashProc (s : ProcSys) (p : ℕ) : ProcSys :=
  { s with hashList := Function.update s.hashList (pidHashfn (s.pid p)) (p :: s.hashList (pidHashfn (s.pid p))) }

/-- …and `unhash_proc`. -/
def unhashProc (s : ProcSys) (p : ℕ) : ProcSys :=
  { s with hashList := fun h => (s.hashList h).erase p }

/-- `find_proc`. -/
def findProc (s : ProcSys) (pid : ℤ) : Option ℕ :=
  if 0 < pid ∧ pid < Pid.MAX_PID then (s.hashList (pidHashfn pid)).find? fun p => s.pid p = pid else none

/-- `do_fork`, once the child's stack, memory and files are there; `child` is the block that `alloc_proc`
got. -/
def doFork (fuel child : ℕ) : Call ℤ := do
  if Pid.MAX_PROCESS ≤ (← get).nrProcess then
    return -E_NO_FREE_PROC
  else
    modify fun s => s.allocProc child
    let pid ← getPid fuel
    modify fun s => { s with pid := Function.update s.pid child pid }
    modify fun s => s.hashProc child
    let current := (← get).sched.current
    modify fun s => { s with parent := Function.update s.parent child (some current) }
    onSched (modify fun s => s.modifyProc current fun g => { g with waitState := 0 })
    setLinks child
    onSched (Sched.wakeupProc child)
    modify fun s => s.setPc child (.away .own)
    return (← get).pid child

/-- A child of `current` goes to `initproc`. -/
def adoptTurn : Call (Unit ⊕ Unit) := do
  let current := (← get).sched.current
  match (← get).cptr current with
  | none => return .inr ()
  | some proc => do
    modify fun s => { s with cptr := Function.update s.cptr current (s.optr proc) }
    modify fun s => { s with yptr := Function.update s.yptr proc none }
    modify fun s => { s with optr := Function.update s.optr proc (s.cptr initproc) }
    match (← get).optr proc with
    | none => pure ()
    | some y => modify fun s => { s with yptr := Function.update s.yptr y (some proc) }
    modify fun s => { s with
      parent := Function.update s.parent proc (some initproc)
      cptr := Function.update s.cptr initproc (some proc) }
    if ((← get).sched.proc proc).state = .zombie then
      if ((← get).sched.proc initproc).waitState = WT_CHILD then
        onSched (Sched.wakeupProc initproc)
    return .inl ()

/-- `do_exit`, up to its call of `schedule`. -/
def doExit (fuel : ℕ) (code : ℤ) : Call Unit := do
  let current := (← get).sched.current
  Act.require .panic (current ≠ idleproc)
  Act.require .panic (current ≠ initproc)
  onSched (modify fun s => s.modifyProc current fun g => { g with state := .zombie })
  modify fun s => { s with exitCode := Function.update s.exitCode current code }
  match (← get).parent current with
  | none => throw .panic
  | some parent => do
    if ((← get).sched.proc parent).waitState = WT_CHILD then
      onSched (Sched.wakeupProc parent)
    Act.loop .spin (fun _ => adoptTurn) fuel ()
    modify fun s => s.setPc current (.leaving .exit)

/-- What `do_wait` finds: a child to be freed, only children that are not, or none. -/
inductive Found where
  | child (p : ℕ)
  | busy
  | nobody
  deriving DecidableEq, Repr

/-- One turn of the loop over the children, of which one has been seen or not. -/
def childTurn (c : Option ℕ × Bool) : Call ((Option ℕ × Bool) ⊕ Found) := do
  match c.1 with
  | none => return .inr (if c.2 = true then .busy else .nobody)
  | some p =>
    if ((← get).sched.proc p).state = .zombie then
      return .inr (.child p)
    else
      return .inl ((← get).optr p, true)

/-- The search of `do_wait`. -/
def findChild (fuel : ℕ) (pid : ℤ) : Call Found := do
  let current := (← get).sched.current
  if pid ≠ 0 then
    match (← get).findProc pid with
    | none => return .nobody
    | some p =>
      if (← get).parent p = some current then
        if ((← get).sched.proc p).state = .zombie then
          return .child p
        else
          return .busy
      else
        return .nobody
  else
    Act.loop .spin childTurn fuel ((← get).cptr current, false)

/-- The end of `do_wait`, with a child to be freed: its exit code. -/
def reap (p : ℕ) : Call ℤ := do
  Act.require .panic (p ≠ idleproc ∧ p ≠ initproc)
  let code := (← get).exitCode p
  modify fun s => s.unhashProc p
  removeLinks p
  return code

/-- What `do_wait` comes to: it returns `-E_BAD_PROC`, or `0` with the `pid` of the child and its exit code; or
it is going to sleep. -/
inductive Waited where
  | badProc
  | reaped (pid code : ℤ)
  | asleep
  deriving DecidableEq, Repr

/-- One pass of `do_wait`, from `repeat` to its call of `schedule` if there is one. -/
def waitPass (fuel : ℕ) (pid : ℤ) : Call Waited := do
  let current := (← get).sched.current
  match ← findChild fuel pid with
  | .nobody => do
    modify fun s => s.setPc current .running
    return .badProc
  | .busy => do
    onSched Sched.waitSection
    modify fun s => s.setPc current (.leaving (.wait pid))
    return .asleep
  | .child p => do
    let pid := (← get).pid p
    let code ← reap p
    modify fun s => s.setPc current .running
    return .reaped pid code

/-- `do_kill`. -/
def doKill (pid : ℤ) : Call ℤ := do
  match (← get).findProc pid with
  | none => return -E_INVAL
  | some p => onSched (Sched.doKill p)

/-- `schedule`, by a process that has left an errand behind it; `do_exit` does not expect to come back. -/
def switch : Call Unit := do
  let prev := (← get).sched.current
  match (← get).pc prev with
  | .leaving e => do
    modify fun s => s.setPc prev (.away e)
    onSched (Sched.schedule List.head?)
    let next := (← get).sched.current
    match (← get).pc next with
    | .away (.wait pid) => modify fun s => s.setPc next (.back pid)
    | .away .exit => throw .panic
    | _ => modify fun s => s.setPc next .running
  | _ => pure ()

end ProcSys

end UCore
