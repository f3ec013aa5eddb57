import UCore.Process.Registry

/-!
# Process/Lives — the history of an identifier

    gone ──forked──▸ alive ──exited with code──▸ zombie code ──reaped with code──▸ gone ──▸ …

Read off a run, the events of one identifier go round in this order: a number is given out when nobody has it,
its process exits once, and the code that it exits with is handed to one caller of `do_wait`, once.
-/

namespace UCore

/-- What happens to a process. -/
inductive Event where
  | forked (pid : ℤ)
  | exited (pid code : ℤ)
  | reaped (pid code : ℤ)
  deriving DecidableEq, Repr

/-- Where a process is in its life. -/
inductive Life where
  | gone
  | alive
  | zombie (code : ℤ)
  deriving DecidableEq, Repr

/-- What an event may do to the life of `pid`. -/
def Life.next (pid : ℤ) (life : Life) : Event → Option Life
  | .forked p => if p = pid then if life = .gone then some .alive else none else some life
  | .exited p code => if p = pid then if life = .alive then some (.zombie code) else none else some life
  | .reaped p code => if p = pid then if life = .zombie code then some .gone else none else some life

namespace Registry

open ProcSys (Turn Waited)

variable {T T' : Registry} {turn : Turn} {l : List Turn} {me pid code : ℤ} {wait : Option ℤ}

/-- The life of a process, as the registry has it. -/
def life (T : Registry) (pid : ℤ) : Life :=
  match T pid with
  | none => .gone
  | some e =>
    match e.code with
    | none => .alive
    | some code => .zombie code

/-- The event in a section. -/
def event (turn : Turn) : Option Event :=
  match turn.op, turn.outcome with
  | .fork _, .result r => if 0 < r then some (.forked r) else none
  | .exit code, .done => some (.exited turn.caller code)
  | .resume, .done => some (.exited turn.caller (-E_KILLED))
  | .wait _, .waited (.reaped c code) => some (.reaped c code)
  | .resume, .waited (.reaped c code) => some (.reaped c code)
  | _, _ => none

theorem life_of_none (h : T pid = none) : T.life pid = .gone := by
  rw [life, h]

theorem life_of_some {e : Entry} (h : T pid = some e) :
    T.life pid = match e.code with
      | none => .alive
      | some code => .zombie code := by
  rw [life, h]

/-- A change that keeps the codes keeps the lives. -/
theorem life_amend {f : ℤ → Entry → Entry} (hf : ∀ e, T pid = some e → (f pid e).code = e.code) :
    (T.amend f).life pid = T.life pid := by
  cases hT : T pid with
  | none =>
    have hamend : T.amend f pid = none := by rw [amend, hT, Option.map_none]
    rw [life_of_none hamend, life_of_none hT]
  | some e =>
    have hamend : T.amend f pid = some (f pid e) := by rw [amend, hT, Option.map_some]
    rw [life_of_some hamend, life_of_some hT, hf e hT]

theorem life_await : (T.await me wait).life pid = T.life pid := by
  refine life_amend fun e _ => ?_
  split <;> rfl

theorem orphaned_code {e : Entry} : (orphaned me e).code = e.code := by
  rw [orphaned]
  split <;> rfl

theorem life_died (hme : ∃ e, T me = some e) :
    (T.died me code).life pid = if pid = me then .zombie code else T.life pid := by
  by_cases hpid : pid = me
  · obtain ⟨e, he⟩ := hme
    subst hpid
    have hdied : T.died pid code pid = some { orphaned pid e with code := some code, wait := none } := by
      rw [died, amend, he, Option.map_some, if_pos rfl]
    rw [life_of_some hdied, if_pos rfl]
  · rw [if_neg hpid]
    refine life_amend fun e _ => ?_
    rw [if_neg hpid, orphaned_code]

theorem life_update_of_ne {x : ℤ} {e : Option Entry} (h : pid ≠ x) : life (Function.update T x e) pid = T.life pid := by
  rw [life, Function.update_of_ne h, ← life]

/-- The calls of `do_wait` end one life, or none. -/
theorem Waits.life {w : Waited} (h : T.Waits me code T' w) :
    match w with
    | .reaped c code => Life.next pid (T.life pid) (.reaped c code) = some (T'.life pid)
    | _ => T'.life pid = T.life pid := by
  cases w with
  | badProc => exact h.2 ▸ life_await
  | asleep => exact h.2.2 ▸ life_await
  | reaped c code =>
    obtain ⟨⟨e, he, -, hcode⟩, rfl⟩ := h
    change (if c = pid then if T.life pid = .zombie code then some Life.gone else none else some (T.life pid)) = _
    by_cases hc : c = pid
    · subst hc
      have hz : T.life c = .zombie code := by rw [life_of_some he, hcode]
      rw [if_pos rfl, if_pos hz, life_of_none (Function.update_self ..)]
    · rw [if_neg hc, life_update_of_ne (Ne.symm hc), life_await]

theorem Kills.life {r : ℤ} (h : T.Kills me r T') : T'.life pid = T.life pid := by
  rw [Kills] at h
  cases hT : T me with
  | none =>
    rw [hT] at h
    exact h.2 ▸ rfl
  | some e =>
    rw [hT] at h
    change if e.killed = true then _ else _ at h
    split at h
    · exact h.2 ▸ rfl
    · rw [h.2]
      by_cases hpid : pid = me
      · subst hpid
        rw [life_of_some (Function.update_self ..), life_of_some hT]
      · exact life_update_of_ne hpid

/-- **One call** goes on with the life of each process, as its event says. -/
theorem Step.life (h : T.Step turn T') (pid : ℤ) :
    match event turn with
    | none => T'.life pid = T.life pid
    | some ev => Life.next pid (T.life pid) ev = some (T'.life pid) := by
  have hdie : ∀ code, (∃ e, T turn.caller = some e ∧ e.code = none) → T' = T.died turn.caller code →
      Life.next pid (T.life pid) (.exited turn.caller code) = some (T'.life pid) := by
    rintro code ⟨e, he, hcode⟩ rfl
    rw [life_died ⟨e, he⟩]
    change (if turn.caller = pid then if T.life pid = .alive then some (Life.zombie code) else none
      else some (T.life pid)) = _
    by_cases hpid : pid = turn.caller
    · subst hpid
      have halive : T.life turn.caller = .alive := by rw [life_of_some he, hcode]
      rw [if_pos rfl, if_pos rfl, if_pos halive]
    · rw [if_neg hpid, if_neg (Ne.symm hpid)]
  have hsame : T' = T → T'.life pid = T.life pid := fun heq => heq ▸ rfl
  obtain ⟨me, op, o⟩ := turn
  cases op with
  | fork child =>
    cases o with
    | done => exact hsame h
    | waited w => exact hsame h
    | result r =>
      rcases h with ⟨-, rfl, rfl⟩ | ⟨-, hr, -, hnone, rfl⟩
      · rfl
      · rw [show event ⟨me, .fork child, .result r⟩ = some (.forked r) from if_pos (by omega)]
        change (if r = pid then if T.life pid = .gone then some Life.alive else none else some (T.life pid)) = _
        rw [born]
        by_cases hpid : pid = r
        · subst hpid
          rw [if_pos rfl, if_pos (life_of_none hnone), life_of_some (Function.update_self ..)]
        · rw [if_neg (Ne.symm hpid), life_update_of_ne hpid]
  | exit code =>
    cases o with
    | done => exact hdie code h.1 h.2
    | result r => exact hsame h
    | waited w => exact hsame h
  | wait p =>
    cases o with
    | done => exact hsame h
    | result r => exact hsame h
    | waited w =>
      have hw : T.Waits me p T' w := h
      cases w <;> exact hw.life
  | kill p =>
    cases o with
    | done => exact hsame h
    | waited w => exact hsame h
    | result r => exact h.life
  | yield => cases o <;> exact hsame h
  | sleep waitState => cases o <;> exact hsame h
  | wake p => cases o <;> exact hsame h
  | switch => cases o <;> exact hsame h
  | resume =>
    cases o with
    | done =>
      obtain ⟨⟨e, he, hcode, -⟩, hT⟩ := h
      exact hdie _ ⟨e, he, hcode⟩ hT
    | result r => exact hsame h
    | waited w =>
      obtain ⟨e, p, -, -, -, hw⟩ := h
      cases w <;> exact hw.life

/-- The events of a run. -/
def events (l : List Turn) : List Event := l.filterMap event

/-- **A run** goes on with the life of each process, event by event. -/
theorem Run.life (h : Run T l T') : (events l).foldlM (Life.next pid) (T.life pid) = some (T'.life pid) := by
  induction h with
  | start => rfl
  | @more l turn U V hrun hstep ih =>
    have hone := hstep.life pid
    rw [events, List.filterMap_append, List.foldlM_append]
    change ((events l).foldlM (Life.next pid) (T.life pid) >>= fun life => _) = _
    rw [ih]
    change ([turn].filterMap event).foldlM (Life.next pid) (U.life pid) = _
    cases hev : event turn with
    | none =>
      rw [hev] at hone
      rw [List.filterMap_cons_none hev, List.filterMap_nil, hone]
      rfl
    | some ev =>
      rw [hev] at hone
      rw [List.filterMap_cons_some hev, List.filterMap_nil, List.foldlM_cons]
      change (Life.next pid (U.life pid) ev >>= fun life => _) = _
      rw [show Life.next pid (U.life pid) ev = _ from hone]
      rfl

end Registry

namespace ProcSys

variable {s : ProcSys} {fuel : ℕ} {l : List Turn}

/-- **The history of every identifier**, over every run: it is given out only when nobody has it, its process
exits once, and its exit code, the one that it has left, goes to one call of `do_wait`, once. -/
theorem history_of_run (hfuel : plenty ≤ fuel) (hrun : Run fuel procInit l s) (pid : ℤ) :
    (Registry.events l).foldlM (Life.next pid) (if pid = 1 then .alive else .gone) = some (s.registry.life pid) := by
  obtain ⟨kids, h⟩ := orderly_procInit
  have hlist : procInit.procList = [initproc] := rfl
  have hinit : procInit.registry.life pid = if pid = 1 then .alive else .gone := by
    by_cases hpid : pid = 1
    · have hmem := registry_of_mem h.listed h.init
      rw [h.initPid] at hmem
      have hcode : (procInit.entry initproc).code = none :=
        if_neg (t := some (procInit.exitCode initproc)) h.initAlive
      rw [if_pos hpid, hpid, Registry.life_of_some hmem, hcode]
    · rw [if_neg hpid]
      refine Registry.life_of_none ((registry_eq_none h.listed).mpr fun p hp heq => hpid ?_)
      rw [hlist, List.mem_singleton] at hp
      rw [← heq, hp, h.initPid]
  rw [← hinit]
  exact (registry_of_run hfuel hrun).life

/-- The process with the number `2` has come and gone. -/
theorem history_of_reaping : ∃ u, Run plenty procInit reaping u ∧
    (Registry.events reaping).foldlM (Life.next 2) .gone = some (u.registry.life 2) := by
  obtain ⟨u, hrun, -⟩ := Run.exists_of_test plenty reaping (fun _ => true) (by decide +kernel)
  exact ⟨u, hrun, history_of_run le_rfl hrun 2⟩

end ProcSys

end UCore
