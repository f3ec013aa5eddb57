import UCore.Process.TableRun

/-!
# Process/Registry — what processes know of each other

    pid ↦ parent, exit code of a zombie, what it is in do_wait for, killed or not

`fork`, `exit`, `wait` and `kill` as their callers see them: a map from identifiers (`Registry`), and what each
of the calls may do to it (`Registry.Step`).  The process table, with its lists, links and queues, does nothing
else (`registry_of_run`).
-/

namespace UCore

open Vmm (E_INVAL)

/-- What is known of a process. -/
@[ext] structure Entry where
  parent : ℤ
  code : Option ℤ
  wait : Option ℤ
  killed : Bool
  deriving DecidableEq, Repr

/-- **The registry**: the processes that there are, by their identifiers. -/
abbrev Registry := ℤ → Option Entry

namespace Registry

open ProcSys (Turn Waited)

/-- Every entry is changed in its own way. -/
def amend (T : Registry) (f : ℤ → Entry → Entry) : Registry := fun pid => (T pid).map (f pid)

/-- A process is a child that `me` waits for. -/
def IsChild (me pid c : ℤ) (e : Entry) : Prop := e.parent = me ∧ (pid ≠ 0 → c = pid)

/-- There is no room for another process. -/
def Full (T : Registry) : Prop := Set.ncard {pid | T pid ≠ none} + 1 = Pid.MAX_PROCESS

/-- `me` is in `do_wait` for `wait`, or no longer. -/
def await (T : Registry) (me : ℤ) (wait : Option ℤ) : Registry :=
  T.amend fun pid e => if pid = me then { e with wait := wait } else e

/-- A child of `me` is born. -/
def born (T : Registry) (me pid : ℤ) : Registry := Function.update T pid (some ⟨me, none, none, false⟩)

/-- The children of `me` go to `initproc`. -/
def orphaned (me : ℤ) (e : Entry) : Entry := if e.parent = me then { e with parent := 1 } else e

/-- `me` dies. -/
def died (T : Registry) (me code : ℤ) : Registry :=
  T.amend fun pid e => if pid = me then { orphaned me e with code := some code, wait := none } else orphaned me e

/-- **What a call of `do_wait` may come to.** -/
def Waits (T : Registry) (me pid : ℤ) (T' : Registry) : Waited → Prop
  | .badProc => (∀ c e, T c = some e → ¬ IsChild me pid c e) ∧ T' = T.await me none
  | .asleep => (∃ c e, T c = some e ∧ IsChild me pid c e) ∧
      (∀ c e, T c = some e → IsChild me pid c e → e.code = none) ∧ T' = T.await me (some pid)
  | .reaped c code => (∃ e, T c = some e ∧ IsChild me pid c e ∧ e.code = some code) ∧
      T' = Function.update (T.await me none) c none

/-- What a call of `do_kill` does. -/
def Kills (T : Registry) (pid r : ℤ) (T' : Registry) : Prop :=
  match T pid with
  | none => r = -E_INVAL ∧ T' = T
  | some e =>
    if e.killed = true then r = -E_KILLED ∧ T' = T
    else r = 0 ∧ T' = Function.update T pid (some { e with killed := true })

/-- **What a call may do.** -/
def Step (T : Registry) (turn : Turn) (T' : Registry) : Prop :=
  match turn.op, turn.outcome with
  | .fork _, .result r => T.Full ∧ r = -E_NO_FREE_PROC ∧ T' = T ∨
      ¬ T.Full ∧ 1 ≤ r ∧ r < Pid.MAX_PID ∧ T r = none ∧ T' = T.born turn.caller r
  | .exit code, .done => (∃ e, T turn.caller = some e ∧ e.code = none) ∧ T' = T.died turn.caller code
  | .wait pid, .waited w => T.Waits turn.caller pid T' w
  | .kill pid, .result r => T.Kills pid r T'
  | .resume, .done => (∃ e, T turn.caller = some e ∧ e.code = none ∧ e.killed = true) ∧
      T' = T.died turn.caller (-E_KILLED)
  | .resume, .waited w => ∃ e pid, T turn.caller = some e ∧ e.killed = false ∧ e.wait = some pid ∧
      T.Waits turn.caller pid T' w
  | _, _ => T' = T

/-- **A run of calls.** -/
inductive Run (T : Registry) : List Turn → Registry → Prop
  | start : Run T [] T
  | more {l : List Turn} {turn : Turn} {U V : Registry} (hrun : Run T l U) (hstep : U.Step turn V) :
      Run T (l ++ [turn]) V

end Registry

namespace ProcSys

variable {s s' u : ProcSys} {p q fuel : ℕ} {pid : ℤ} {kids : ℕ → List ℕ} {op : Op} {o : Outcome} {l : List Turn}

/-! ## The registry of a table -/

/-- What `do_wait` has been called for. -/
def Pc.waits : Pc → Option ℤ
  | .leaving (.wait pid) => some pid
  | .away (.wait pid) => some pid
  | .back pid => some pid
  | _ => none

/-- What is known of a process. -/
def entry (s : ProcSys) (p : ℕ) : Entry where
  parent := match s.parent p with
    | some q => s.pid q
    | none => 0
  code := if (s.sched.proc p).state = .zombie then some (s.exitCode p) else none
  wait := (s.pc p).waits
  killed := (s.sched.proc p).exiting

/-- **The registry of a table**: what `find_proc` leads to. -/
def registry (s : ProcSys) : Registry := fun pid => (s.findProc pid).map s.entry

theorem registry_eq_some (h : Listed s) {e : Entry} :
    s.registry pid = some e ↔ ∃ p ∈ s.procList, s.pid p = pid ∧ s.entry p = e := by
  rw [registry, Option.map_eq_some_iff]
  exact ⟨fun ⟨p, hf, he⟩ => ⟨p, (h.findProc_eq_some.mp hf).1, (h.findProc_eq_some.mp hf).2, he⟩,
    fun ⟨p, hp, hpid, he⟩ => ⟨p, h.findProc_eq_some.mpr ⟨hp, hpid⟩, he⟩⟩

theorem registry_of_mem (h : Listed s) (hp : p ∈ s.procList) : s.registry (s.pid p) = some (s.entry p) :=
  (registry_eq_some h).mpr ⟨p, hp, rfl, rfl⟩

theorem registry_eq_none (h : Listed s) : s.registry pid = none ↔ ∀ p ∈ s.procList, s.pid p ≠ pid := by
  rw [registry, Option.map_eq_none_iff, h.findProc_eq_none]

/-- When the lists stay, the registry changes as its entries do. -/
theorem registry_amend (s' : ProcSys) (h : Listed s) (hhash : s'.hashList = s.hashList) (hpid : s'.pid = s.pid)
    (f : ℤ → Entry → Entry) (hf : ∀ p ∈ s.procList, s'.entry p = f (s.pid p) (s.entry p)) :
    s'.registry = s.registry.amend f := by
  funext pid
  have hfind : s'.findProc pid = s.findProc pid := by
    rw [findProc, findProc, hhash, hpid]
  rw [registry, Registry.amend, registry, hfind]
  cases hs : s.findProc pid with
  | none => rfl
  | some p =>
    obtain ⟨hp, rfl⟩ := h.findProc_eq_some.mp hs
    exact congrArg some (hf p hp)

theorem registry_congr (s' : ProcSys) (h : Listed s) (hhash : s'.hashList = s.hashList) (hpid : s'.pid = s.pid)
    (hf : ∀ p ∈ s.procList, s'.entry p = s.entry p) : s'.registry = s.registry := by
  rw [registry_amend s' h hhash hpid (fun _ e => e) hf]
  funext pid
  exact Option.map_id' ..

section Sections

variable (h : Orderly s kids)

include h

/-- Two processes with one identifier are one. -/
theorem Orderly.pid_inj (hp : s.Live p) (hq : s.Live q) (heq : s.pid p = s.pid q) : p = q := by
  have hidle := h.idlePid
  rcases hp with rfl | hp <;> rcases hq with rfl | hq
  · rfl
  · have := (h.listed.pid q hq).1
    omega
  · have := (h.listed.pid p hp).1
    omega
  · exact h.listed.inj p hp q hq heq

theorem Orderly.entry_parent (hp : p ∈ s.procList) :
    ∃ par, s.parent p = some par ∧ s.Live par ∧ (s.entry p).parent = s.pid par := by
  obtain ⟨par, hpar, hlive⟩ := h.family.parent p hp
  refine ⟨par, hpar, hlive, ?_⟩
  rw [entry, hpar]

/-- A child is a child. -/
theorem Orderly.isChild_iff (hp : p ∈ s.procList) (hq : s.Live q) :
    (s.entry p).parent = s.pid q ↔ p ∈ kids q := by
  obtain ⟨par, hpar, hlive, he⟩ := h.entry_parent hp
  rw [he, h.family.mem]
  refine ⟨fun heq => ⟨hp, ?_⟩, fun hk => ?_⟩
  · rw [hpar, h.pid_inj hlive hq heq]
  · rw [Option.some.inj (hpar.symm.trans hk.2)]

theorem Orderly.full_iff : s.registry.Full ↔ Pid.MAX_PROCESS ≤ s.nrProcess := by
  have hset : {pid | s.registry pid ≠ none} = ((s.procList.map s.pid).toFinset : Set ℤ) := by
    ext pid
    simp only [Set.mem_ofPred_eq, ne_eq, registry_eq_none h.listed, List.coe_toFinset, List.mem_map, not_forall,
      not_not, exists_prop]
  have hnodup : (s.procList.map s.pid).Nodup :=
    List.Nodup.map_on (fun p hp q hq heq => h.listed.inj p hp q hq heq) h.listed.nodup
  have hcount := h.listed.count
  have hle := h.listed.le
  rw [Registry.Full, hset, Set.ncard_coe_finset, List.toFinset_card_of_nodup hnodup, List.length_map]
  omega

/-! ## Birth and death -/

omit h in
theorem entry_forked (h : Orderly s kids) {child pid next : ℕ} (hchild : Spare s child) (hp : p ∈ s.procList) :
    (s.forked child pid next).entry p = s.entry p := by
  have hne : p ≠ child := ne_of_mem_of_not_mem hp hchild.notMem
  obtain ⟨par, hpar, hlive, he⟩ := h.entry_parent hp
  have hpar' : (s.forked child pid next).parent p = some par := (Function.update_of_ne hne ..).trans hpar
  have hpid : (s.forked child pid next).pid par = s.pid par :=
    Function.update_of_ne (fun heq : par = child => hchild.not_live (heq ▸ hlive)) ..
  have hproc : (s.forked child pid next).sched.proc p = s.sched.proc p := Function.update_of_ne hne ..
  have hpc : (s.forked child pid next).pc p = s.pc p := Function.update_of_ne hne ..
  have hcode : (s.forked child pid next).exitCode = s.exitCode := rfl
  simp only [entry, hpar', hpid, hproc, hpc, hcode, hpar]

theorem registry_forked {child pid next : ℕ} (hchild : Spare s child) (hf : Fresh s pid next) :
    (s.forked child pid next).registry = s.registry.born (s.pid s.sched.current) pid := by
  have hl := Listed.forked h.toTidy hchild hf
  have hold : ∀ p ∈ s.procList, (s.forked child pid next).pid p = s.pid p := fun p hp =>
    Function.update_of_ne (ne_of_mem_of_not_mem hp hchild.notMem) ..
  funext x
  rw [Registry.born]
  rcases eq_or_ne x pid with rfl | hx
  · rw [Function.update_self]
    refine (registry_eq_some hl).mpr ⟨child, List.mem_cons_self, Function.update_self .., ?_⟩
    have hcur := hchild.ne_current h.toTidy
    have hpar : (s.forked child pid next).parent child = some s.sched.current := Function.update_self ..
    have hpid : (s.forked child pid next).pid s.sched.current = s.pid s.sched.current :=
      Function.update_of_ne hcur.symm ..
    have hproc : (s.forked child pid next).sched.proc child = ⟨.runnable, 0, false⟩ := by
      change Function.update s.sched.proc child ⟨.runnable, 0, false⟩ child = _
      rw [Function.update_self]
    have hpc : (s.forked child pid next).pc child = .away .own := Function.update_self ..
    simp only [entry, hpar, hpid, hproc, hpc]
    rfl
  · rw [Function.update_of_ne hx]
    cases hr : s.registry x with
    | none =>
      refine (registry_eq_none hl).mpr fun p hp hpid => ?_
      rcases List.mem_cons.mp hp with rfl | hp
      · exact hx (hpid.symm.trans (Function.update_self ..))
      · exact (registry_eq_none h.listed).mp hr p hp ((hold p hp).symm.trans hpid)
    | some e =>
      obtain ⟨p, hp, hpid, he⟩ := (registry_eq_some h.listed).mp hr
      refine (registry_eq_some hl).mpr ⟨p, List.mem_cons_of_mem child hp, (hold p hp).trans hpid, ?_⟩
      rw [entry_forked h hchild hp, he]

omit h in
theorem woken_exiting {t : Sched} : ((t.woken p).proc q).exiting = (t.proc q).exiting := by
  rcases eq_or_ne q p with rfl | hne
  · rw [Sched.woken_proc_self]
    split <;> rfl
  · rw [Sched.woken_proc_of_ne hne]

omit h in
theorem nudged_exiting {t : Sched} : ((nudged t p).proc q).exiting = (t.proc q).exiting := by
  rw [nudged]
  split
  · exact woken_exiting
  · rfl

omit h in
theorem bereft_exiting {t : Sched} {par : ℕ} {children : List ℕ} :
    ((bereft t par children).proc q).exiting = (t.proc q).exiting := by
  have hfirst : ((nudged (t.modifyProc t.current fun g => { g with state := .zombie }) par).proc q).exiting =
      (t.proc q).exiting := by
    rw [nudged_exiting, Sched.modifyProc_proc]
    split
    · rename_i heq
      rw [heq]
    · rfl
  rw [bereft, alerted_eq]
  split
  · rw [nudged_exiting, hfirst]
  · exact hfirst

theorem registry_exited {par : ℕ} {code : ℤ} (hx : Exited s kids par code s')
    (hawake : (s.sched.proc s.sched.current).Awake) :
    s'.registry = s.registry.died (s.pid s.sched.current) code := by
  obtain ⟨cptr, yptr, optr, hstate⟩ := hx.state
  have hhash : s'.hashList = s.hashList := hstate ▸ rfl
  have hpid : s'.pid = s.pid := hstate ▸ rfl
  rw [Registry.died]
  refine registry_amend s' h.listed hhash hpid _ fun p hp => ?_
  subst hstate
  -- whose child it is now
  have hparent : (match if p ∈ kids s.sched.current then some initproc else s.parent p with
      | some q => s.pid q
      | none => 0) = (Registry.orphaned (s.pid s.sched.current) (s.entry p)).parent := by
    have hiff := h.isChild_iff hp h.current
    rw [Registry.orphaned]
    by_cases hmem : p ∈ kids s.sched.current
    · rw [if_pos hmem, if_pos (hiff.mpr hmem)]
      exact h.initPid
    · rw [if_neg hmem, if_neg fun heq => hmem (hiff.mp heq)]
      rfl
  have hsame : s.pid p = s.pid s.sched.current ↔ p = s.sched.current :=
    ⟨fun heq => h.pid_inj (.inr hp) h.current heq, fun heq => heq ▸ rfl⟩
  have horphaned : ∀ me : ℤ, ∀ e : Entry, (Registry.orphaned me e).code = e.code ∧
      (Registry.orphaned me e).wait = e.wait ∧ (Registry.orphaned me e).killed = e.killed := fun me e => by
    rw [Registry.orphaned]
    split <;> exact ⟨rfl, rfl, rfl⟩
  obtain ⟨hcode, hwait, hkilled⟩ := horphaned (s.pid s.sched.current) (s.entry p)
  rcases eq_or_ne p s.sched.current with rfl | hne
  · rw [if_pos rfl]
    have hself : (bereft s.sched par (kids s.sched.current)).proc s.sched.current =
        { s.sched.proc s.sched.current with state := .zombie } := bereft_self hawake.2
    refine Entry.ext hparent ?_ ?_ ?_
    · simp only [entry, hself, if_true, Function.update_self]
    · simp only [entry, Function.update_self, Pc.waits]
    · exact (congrArg Proc.exiting hself).trans hkilled.symm
  · rw [if_neg fun heq => hne (hsame.mp heq)]
    have hz : ((bereft s.sched par (kids s.sched.current)).proc p).state = .zombie ↔
        (s.sched.proc p).state = .zombie := by
      refine ⟨bereft_zombie hne, fun hz => ?_⟩
      have hzero := (h.standing p (.inr hp)).waitState_eq_zero (by rw [hz]; decide)
      rwa [bereft_proc hne (by rw [hzero]; decide)]
    refine Entry.ext hparent ?_ ?_ ?_
    · rw [hcode]
      simp only [entry, hz, Function.update_of_ne hne]
    · rw [hwait]
      simp only [entry, Function.update_of_ne hne]
    · rw [hkilled]
      exact bereft_exiting

/-! ## Waiting -/

theorem Orderly.isChild (hp : p ∈ s.procList) :
    Registry.IsChild (s.pid s.sched.current) pid (s.pid p) (s.entry p) ↔ p ∈ kids s.sched.current ∧ s.Matches pid p := by
  rw [Registry.IsChild, h.isChild_iff hp h.current, Matches]

/-- The current process is at another point. -/
theorem registry_setPc (c : Pc) :
    (s.setPc s.sched.current c).registry = s.registry.await (s.pid s.sched.current) c.waits := by
  rw [Registry.await]
  refine registry_amend (s.setPc s.sched.current c) h.listed rfl rfl _ fun p hp => ?_
  have hentry : (s.setPc s.sched.current c).entry p =
      { s.entry p with wait := (Function.update s.pc s.sched.current c p).waits } := rfl
  rw [hentry]
  rcases eq_or_ne p s.sched.current with rfl | hne
  · rw [if_pos rfl, Function.update_self]
  · rw [if_neg fun heq => hne (h.pid_inj (.inr hp) h.current heq), Function.update_of_ne hne]
    rfl

theorem registry_waiting (hawake : (s.sched.proc s.sched.current).Awake) :
    (s.waiting pid).registry = s.registry.await (s.pid s.sched.current) (some pid) := by
  rw [show (some pid) = (Pc.leaving (.wait pid)).waits from rfl, ← registry_setPc h]
  refine registry_congr (s.waiting pid) (h.listed.frame s.sched _ s.exitCode) rfl rfl fun p _ => ?_
  rcases eq_or_ne p s.sched.current with rfl | hne
  · have hself : (s.waiting pid).sched.proc s.sched.current =
        { s.sched.proc s.sched.current with state := .sleeping, waitState := WT_CHILD } := Function.update_self ..
    have hsame : (s.setPc s.sched.current (.leaving (.wait pid))).sched = s.sched := rfl
    have hkilled := congrArg Proc.exiting hself
    refine Entry.ext rfl ?_ rfl hkilled
    simp only [entry, hself, hsame, hawake.1]
    rfl
  · have hproc : (s.waiting pid).sched.proc p = s.sched.proc p := Function.update_of_ne hne ..
    exact Entry.ext rfl (by simp only [entry, hproc]; rfl) rfl (congrArg Proc.exiting hproc)

theorem registry_reaped (hp : Reapable s kids p) :
    (s.reaped p).registry =
      Function.update (s.registry.await (s.pid s.sched.current) none) (s.pid p) none := by
  have hl := Listed.reaped h hp
  have hmem := ((h.family.mem _ p).mp hp.kid).1
  have hl₁ : Listed (s.setPc s.sched.current .running) := h.listed.frame s.sched _ s.exitCode
  rw [show (none : Option ℤ) = Pc.running.waits from rfl, ← registry_setPc h]
  funext x
  rcases eq_or_ne x (s.pid p) with rfl | hx
  · rw [Function.update_self]
    refine (registry_eq_none hl).mpr fun q hq hpid => ?_
    obtain ⟨hne, hq⟩ := h.listed.nodup.mem_erase_iff.mp hq
    exact hne (h.listed.inj q hq p hmem hpid)
  · rw [Function.update_of_ne hx]
    cases hr : (s.setPc s.sched.current .running).registry x with
    | none =>
      exact (registry_eq_none hl).mpr fun q hq => (registry_eq_none hl₁).mp hr q (List.mem_of_mem_erase hq)
    | some e =>
      obtain ⟨q, hq, hpid, he⟩ := (registry_eq_some hl₁).mp hr
      refine (registry_eq_some hl).mpr ⟨q, (List.mem_erase_of_ne fun heq => hx ?_).mpr hq, hpid, he⟩
      rw [← heq]
      exact hpid.symm

theorem Waited.Right.registry {w : Waited} (hw : w.Right s kids pid s')
    (hawake : (s.sched.proc s.sched.current).Awake) :
    s.registry.Waits (s.pid s.sched.current) pid s'.registry w := by
  cases w with
  | badProc =>
    obtain ⟨hnone, rfl⟩ := hw
    refine ⟨fun c e he hc => ?_, registry_setPc h .running⟩
    obtain ⟨p, hp, rfl, rfl⟩ := (registry_eq_some h.listed).mp he
    obtain ⟨hkid, hm⟩ := (h.isChild hp).mp hc
    exact hnone p hkid hm
  | asleep =>
    obtain ⟨⟨⟨p, hkid, hm⟩, hall⟩, rfl⟩ := hw
    have hp := ((h.family.mem _ p).mp hkid).1
    refine ⟨⟨s.pid p, s.entry p, registry_of_mem h.listed hp, (h.isChild hp).mpr ⟨hkid, hm⟩⟩, fun c e he hc => ?_,
      registry_waiting h hawake⟩
    obtain ⟨q, hq, rfl, rfl⟩ := (registry_eq_some h.listed).mp he
    obtain ⟨hkid, hm⟩ := (h.isChild hq).mp hc
    exact if_neg (hall q hkid hm)
  | reaped pid' code =>
    obtain ⟨p, hreap, hm, rfl, rfl, rfl⟩ := hw
    have hp := ((h.family.mem _ p).mp hreap.kid).1
    refine ⟨⟨s.entry p, registry_of_mem h.listed hp, (h.isChild hp).mpr ⟨hreap.kid, hm⟩, if_pos hreap.zombie⟩, ?_⟩
    exact registry_reaped h hreap

/-! ## The others -/

omit h in
/-- What is known of the processes does not change with the scheduler. -/
theorem registry_sched (hl : Listed s) (t : Sched) (pc : ℕ → Pc)
    (hz : ∀ p ∈ s.procList, (t.proc p).state = .zombie ↔ (s.sched.proc p).state = .zombie)
    (hex : ∀ p ∈ s.procList, (t.proc p).exiting = (s.sched.proc p).exiting)
    (hpc : ∀ p ∈ s.procList, (pc p).waits = (s.pc p).waits) :
    ({ s with sched := t, pc := pc } : ProcSys).registry = s.registry := by
  refine registry_congr { s with sched := t, pc := pc } hl rfl rfl fun p hp => Entry.ext rfl ?_ (hpc p hp) (hex p hp)
  simp only [entry, hz p hp]

theorem flagged_zombie (hp : p ∈ s.procList) :
    ((flagged s.sched p).proc q).state = .zombie ↔ (s.sched.proc q).state = .zombie := by
  have hflag : ((s.sched.modifyProc p fun g => { g with exiting := true }).proc q).state = (s.sched.proc q).state := by
    rw [Sched.modifyProc_proc]
    split
    · rename_i heq
      rw [heq]
    · rfl
  rw [flagged]
  split
  · rename_i hw
    rcases eq_or_ne q p with rfl | hne
    · have hz := h.not_zombie_of_interrupted hp hw
      exact ⟨fun hno => absurd (hflag ▸ woken_zombie hno) hz, fun hno => absurd hno hz⟩
    · rw [Sched.woken_proc_of_ne hne, hflag]
  · rw [hflag]

omit h in
theorem flagged_exiting {t : Sched} : ((flagged t p).proc q).exiting = if q = p then true else (t.proc q).exiting := by
  have hflag : ((t.modifyProc p fun g => { g with exiting := true }).proc q).exiting =
      if q = p then true else (t.proc q).exiting := by
    rw [Sched.modifyProc_proc]
    split <;> rfl
  rw [flagged]
  split
  · rw [woken_exiting, hflag]
  · exact hflag

theorem Killed.registry {r : ℤ} (hk : Killed s pid r s') : s.registry.Kills pid r s'.registry := by
  rw [Registry.Kills]
  rcases hk with ⟨hnone, rfl, rfl⟩ | ⟨p, hp, rfl, ⟨hex, rfl, rfl⟩ | ⟨hex, rfl, rfl⟩⟩
  · rw [(registry_eq_none h.listed).mpr hnone]
    exact ⟨rfl, rfl⟩
  · rw [registry_of_mem h.listed hp]
    exact (if_pos hex).mpr ⟨rfl, rfl⟩
  · rw [registry_of_mem h.listed hp]
    have hclear : ¬ (s.entry p).killed = true := by
      rw [show (s.entry p).killed = false from hex]
      decide
    have hentry : ∀ q ∈ s.procList, ({ s with sched := flagged s.sched p } : ProcSys).entry q =
        if s.pid q = s.pid p then { s.entry q with killed := true } else s.entry q := fun q hq => by
      have hsame : s.pid q = s.pid p ↔ q = p := ⟨h.listed.inj q hq p hp, fun heq => heq ▸ rfl⟩
      have hcode : ({ s with sched := flagged s.sched p } : ProcSys).entry q =
          ⟨(s.entry q).parent, (s.entry q).code, (s.entry q).wait, ((flagged s.sched p).proc q).exiting⟩ := by
        simp only [entry, flagged_zombie h hp]
      rw [hcode, flagged_exiting]
      by_cases heq : q = p
      · rw [if_pos heq, if_pos (hsame.mpr heq)]
      · rw [if_neg heq, if_neg fun hpid => heq (hsame.mp hpid)]
        rfl
    refine (if_neg hclear).mpr ⟨rfl, ?_⟩
    rw [registry_amend { s with sched := flagged s.sched p } h.listed rfl rfl
      (fun x e => if x = s.pid p then { e with killed := true } else e) hentry]
    funext x
    rcases eq_or_ne x (s.pid p) with rfl | hx
    · rw [Function.update_self, Registry.amend, registry_of_mem h.listed hp, Option.map_some, if_pos rfl]
    · rw [Function.update_of_ne hx, Registry.amend]
      simp only [if_neg hx]
      exact Option.map_id' ..

/-- A process that may exit is there, and alive. -/
theorem Orderly.mortal_entry (hawake : (s.sched.proc s.sched.current).Awake) (hmortal : Mortal s.sched.current) :
    s.registry (s.pid s.sched.current) = some (s.entry s.sched.current) ∧ (s.entry s.sched.current).code = none := by
  refine ⟨registry_of_mem h.listed (h.exists_parent hmortal).1, if_neg fun hz => ?_⟩
  exact nomatch hz.symm.trans hawake.1

omit h in
theorem Pc.waits_resumed {c : Pc} (hc : c.Away) : c.resumed.waits = c.waits := by
  rcases c with _ | _ | (_ | _ | _ | _) | _ <;> first | rfl | exact hc.elim

theorem registry_switched {e : Errand} (he : s.pc s.sched.current = .leaving e) :
    (s.switched e).registry = s.registry := by
  obtain ⟨e', haway, -, -⟩ := h.next_away he
  have hleft : ∀ q, (s.leftAt e q).waits = (s.pc q).waits := fun q => by
    rw [leftAt]
    rcases eq_or_ne q s.sched.current with rfl | hne
    · rw [Function.update_self, he]
      cases e <;> rfl
    · rw [Function.update_of_ne hne]
  refine registry_sched h.listed _ _ (fun _ _ => Iff.rfl) (fun _ _ => rfl) fun q _ => ?_
  rcases eq_or_ne q ((readied s.sched).headD idleproc) with heq | hne
  · rw [heq, Function.update_self, Pc.waits_resumed (haway ▸ trivial), hleft]
  · rw [Function.update_of_ne hne, hleft]

theorem registry_dozing {waitState : ℕ} (hpc : s.pc s.sched.current = .running)
    (hawake : (s.sched.proc s.sched.current).Awake) : (s.dozing waitState).registry = s.registry := by
  refine registry_sched h.listed _ _ (fun q _ => ?_) (fun q _ => ?_) fun q _ => ?_
  · rw [Sched.modifyProc_proc]
    split
    · rename_i heq
      rw [heq, hawake.1]
      exact ⟨fun hno => (nomatch hno), fun hno => nomatch hno⟩
    · rfl
  · rw [Sched.modifyProc_proc]
    split
    · rename_i heq
      rw [heq]
    · rfl
  · rcases eq_or_ne q s.sched.current with rfl | hne
    · rw [Function.update_self, hpc]
      rfl
    · rw [Function.update_of_ne hne]

theorem registry_woken (hz : (s.sched.proc p).state ≠ .zombie) :
    ({ s with sched := s.sched.woken p } : ProcSys).registry = s.registry := by
  refine registry_sched h.listed _ s.pc (fun q _ => ⟨woken_zombie, fun hq => ?_⟩) (fun _ _ => woken_exiting)
    fun _ _ => rfl
  rwa [Sched.woken_proc_of_ne fun heq : q = p => hz (heq ▸ hq)]

/-- **Each section is a call** of the registry. -/
theorem Orderly.step (hop : op.Allowed s) (hdid : op.Did s kids s' o) (hmortal : op.Exits s → Mortal s.sched.current) :
    s.registry.Step ⟨s.pid s.sched.current, op, o⟩ s'.registry := by
  match op, o with
  | .fork child, .result r =>
    rcases hdid with ⟨hfull, rfl, rfl⟩ | ⟨pid, next, hf, rfl, rfl⟩
    · exact .inl ⟨h.full_iff.mpr hfull, rfl, rfl⟩
    · refine .inr ⟨fun hfull => absurd (h.full_iff.mp hfull) (not_le.mpr hf.room), by exact_mod_cast hf.pos,
        by exact_mod_cast hf.lt, (registry_eq_none h.listed).mpr hf.new, registry_forked h hop.2 hf⟩
  | .exit code, .done =>
    obtain ⟨par, -, hx⟩ := hdid
    have hawake := h.awake_of_pc (.inl hop)
    exact ⟨⟨_, h.mortal_entry hawake (hmortal trivial)⟩, registry_exited h hx hawake⟩
  | .wait pid, .waited w => exact Waited.Right.registry h hdid (h.awake_of_pc (.inl hop.1))
  | .kill pid, .result r => exact Killed.registry h hdid
  | .yield, .done =>
    obtain rfl := hdid
    refine registry_sched h.listed s.sched _ (fun _ _ => Iff.rfl) (fun _ _ => rfl) fun q _ => ?_
    rcases eq_or_ne q s.sched.current with rfl | hne
    · rw [Function.update_self, show s.pc s.sched.current = .running from hop]
      rfl
    · rw [Function.update_of_ne hne]
  | .sleep waitState, .done =>
    obtain rfl := hdid
    exact registry_dozing h hop.1 (h.awake_of_pc (.inl hop.1))
  | .wake p, .done =>
    obtain rfl := hdid
    exact registry_woken h (h.not_zombie_of_sleep hop.1 hop.2)
  | .switch, .done =>
    obtain ⟨e, he, rfl⟩ := hdid
    exact registry_switched h he
  | .resume, .done =>
    obtain ⟨hex, par, -, hx⟩ := hdid
    obtain ⟨pid, hpc⟩ := hop
    have hawake := h.awake_of_pc (.inr ⟨pid, hpc⟩)
    obtain ⟨hmem, hcode⟩ := h.mortal_entry hawake (hmortal hex)
    exact ⟨⟨_, hmem, hcode, hex⟩, registry_exited h hx hawake⟩
  | .resume, .waited w =>
    obtain ⟨hclear, pid, hpc, hw⟩ := hdid
    have hne : s.sched.current ≠ idleproc := fun heq => by
      have hidle := h.idle
      rw [← heq, hpc] at hidle
      rcases hidle with hno | hno | hno <;> exact nomatch hno
    refine ⟨s.entry s.sched.current, pid, registry_of_mem h.listed (h.current.resolve_left hne), hclear, ?_,
      Waited.Right.registry h hw (h.awake_of_pc (.inr ⟨pid, hpc⟩))⟩
    change (s.pc s.sched.current).waits = some pid
    rw [hpc]
    rfl

end Sections

/-! ## Whole runs -/

/-- **The process table is its registry**: every run of the sections is, call for call and result for result, a
run of the registry. -/
theorem registry_of_run (hfuel : plenty ≤ fuel) (hrun : Run fuel procInit l s) :
    Registry.Run procInit.registry l s.registry := by
  induction hrun with
  | start => exact .start
  | more hrun hop hdo ih =>
    obtain ⟨kids, h⟩ := hrun.orderly hfuel
    have hdid := Act.wp_of_ok (h.wp_perform hop hfuel) hdo
    exact ih.more (h.step hop hdid.1 hdid.2)

theorem registry_of_reaping : ∃ u, Run plenty procInit reaping u ∧
    Registry.Run procInit.registry reaping u.registry := by
  obtain ⟨u, hrun, -⟩ := Run.exists_of_test plenty reaping (fun _ => true) (by decide +kernel)
  exact ⟨u, hrun, registry_of_run le_rfl hrun⟩

end ProcSys

end UCore
