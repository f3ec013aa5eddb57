import UCore.Process.Orderly

/-!
# Process/Fork — a process is born

The child is in the lists, in front of its parent's children, and at the end of the run queue; its identifier is
one that nobody has, whatever block of memory it has been given.
-/

namespace UCore.ProcSys

variable {s s' : ProcSys} {p q child pid next fuel : ℕ} {kids : ℕ → List ℕ}

/-- The table after `do_fork`, with the number that `get_pid` has come to. -/
def forked (s : ProcSys) (child pid next : ℕ) : ProcSys :=
  { s with
    sched := { s.sched with
      proc := Function.update s.sched.proc child ⟨.runnable, 0, false⟩
      runList := s.sched.runList ++ [child] }
    pid := Function.update s.pid child pid
    parent := Function.update s.parent child (some s.sched.current)
    cptr := Function.update (Function.update s.cptr child none) s.sched.current (some child)
    yptr := pushPrev s.yptr child (s.cptr s.sched.current)
    optr := Function.update s.optr child (s.cptr s.sched.current)
    procList := child :: s.procList
    hashList := Function.update s.hashList (pidHashfn pid) (child :: s.hashList (pidHashfn pid))
    nrProcess := s.nrProcess + 1
    lastPid := pid
    nextSafe := next
    pc := Function.update s.pc child (.away .own) }

/-- A number that a new process can have. -/
structure Fresh (s : ProcSys) (pid next : ℕ) : Prop where
  room : s.nrProcess < Pid.MAX_PROCESS
  pos : 1 ≤ pid
  lt : pid < Pid.MAX_PID
  new : ∀ p ∈ s.procList, s.pid p ≠ pid
  gap : Pid.Gap ⟨pid, next, s.procList.map fun p => (s.pid p).toNat⟩

/-- A block that a new process can be in. -/
structure Spare (s : ProcSys) (child : ℕ) : Prop where
  notMem : child ∉ s.procList
  ne : child ≠ idleproc

theorem Spare.not_live (h : Spare s child) : ¬ s.Live child := fun hlive => hlive.elim h.ne h.notMem

theorem pushPrev_update {prev : ℕ → Option ℕ} {o : Option ℕ} :
    pushPrev (Function.update prev p none) p o = pushPrev prev p o := by
  cases o <;> simp only [pushPrev, Function.update_idem]

theorem modifyProc_eq_self {t : Sched} {f : Proc → Proc} (hf : f (t.proc p) = t.proc p) : t.modifyProc p f = t := by
  rw [Sched.modifyProc, hf, Function.update_eq_self]

/-- The scheduler's part. -/
theorem sched_forked {t : Sched} (hcur : child ≠ t.current) (hidle : child ≠ idleproc)
    (hwait : (t.proc t.current).waitState = 0) :
    ((t.modifyProc child fun _ => ⟨.uninit, 0, false⟩).modifyProc t.current fun g => { g with waitState := 0 }).woken child =
      { t with proc := Function.update t.proc child ⟨.runnable, 0, false⟩, runList := t.runList ++ [child] } := by
  have hcurrent : (t.modifyProc child fun _ => ⟨.uninit, 0, false⟩).proc t.current = t.proc t.current :=
    Function.update_of_ne hcur.symm ..
  have hsame : (t.modifyProc child fun _ => ⟨.uninit, 0, false⟩).modifyProc t.current
      (fun g => { g with waitState := 0 }) = t.modifyProc child fun _ => ⟨.uninit, 0, false⟩ := by
    refine modifyProc_eq_self ?_
    rw [hcurrent]
    change ({ t.proc t.current with waitState := 0 } : Proc) = t.proc t.current
    rw [← hwait]
  have huninit : (t.modifyProc child fun _ => ⟨.uninit, 0, false⟩).proc child = ⟨.uninit, 0, false⟩ :=
    Function.update_self ..
  rw [hsame, Sched.woken, huninit, if_neg (by simp), if_neg (by simpa using ⟨hcur, hidle⟩)]
  simp only [Sched.modifyProc, Function.update_self, Function.update_idem]

/-- **`do_fork`** has no room, or makes a process with a number that nobody has. -/
theorem Tidy.wp_doFork (h : Tidy s kids) (hchild : Spare s child) (hpc : s.pc s.sched.current = .running)
    (hfuel : (Pid.MAX_PID + 1) * Pid.MAX_PID ≤ fuel) :
    Act.wp (doFork fuel child) (fun r s' => Pid.MAX_PROCESS ≤ s.nrProcess ∧ r = -E_NO_FREE_PROC ∧ s' = s ∨
      ∃ pid next, Fresh s pid next ∧ r = pid ∧ s' = s.forked child pid next) (fun _ => False) s := by
  rw [doFork, Act.wp_bind, Act.wp_get, Act.wp_ite]
  refine ⟨fun hfull => .inl ⟨hfull, rfl, rfl⟩, fun hroom => ?_⟩
  have hroom := not_le.mp hroom
  have hcount := h.listed.count
  have hcur : child ≠ s.sched.current := fun heq => hchild.not_live (heq ▸ h.current)
  have hwait : (s.sched.proc s.sched.current).waitState = 0 := by
    have hst := h.standing _ h.current
    rw [hpc] at hst
    exact hst.2
  have hmap : s.procList.map (fun p => (Function.update s.pid child (-1) p).toNat) =
      s.procList.map fun p => (s.pid p).toNat := List.map_congr_left fun p hp => by
    rw [Function.update_of_ne (ne_of_mem_of_not_mem hp hchild.notMem)]
  have hgap : Pid.Gap ⟨s.lastPid, s.nextSafe,
      s.procList.map fun p => (Function.update s.pid child (-1) p).toNat⟩ := hmap ▸ h.listed.gap
  have hlen : s.procList.length < Pid.MAX_PID - 1 := by
    have h1 : Pid.MAX_PROCESS = 4096 := rfl
    have h2 : Pid.MAX_PID = 8192 := rfl
    omega
  have hsched := sched_forked hcur hchild.ne hwait
  have hcan : ((s.sched.modifyProc child fun _ => ⟨.uninit, 0, false⟩).modifyProc s.sched.current
      fun g => { g with waitState := 0 }).CanWake child := by
    refine ⟨fun hz => ?_, fun _ _ _ hq => hchild.notMem ((h.queue.mem child).mp hq).1⟩
    rw [Sched.modifyProc_proc, if_neg hcur, Sched.modifyProc_proc, if_pos rfl] at hz
    exact nomatch hz
  rw [Act.wp_bind, Act.wp_modify, Act.wp_bind, getPid, Act.wp_zoom]
  refine Act.wp_mono (Pid.Gap.wp_getPid hgap (by rwa [List.length_map]) ?_) (fun pid t ht => ?_) fun _ => id
  · rw [List.length_map]
    have hle : s.procList.length + 1 ≤ Pid.MAX_PID := by omega
    exact (Nat.mul_le_mul_left _ hle).trans hfuel
  obtain ⟨hpos, hlt, hnew, rfl, hlist, hgap'⟩ := ht
  simp only [Act.wp_bind, Act.wp_modify, Act.wp_get, wp_onSched]
  rw [wp_setLinks s.sched.current (Function.update_self ..)]
  refine Act.wp_mono (Sched.wp_wakeupProc_eq child _) (fun _ t' ht' => ?_) fun _ hno => hno hcan
  rw [show t' = _ from ht'.trans hsched, Act.wp_pure]
  have hfresh : ∀ p ∈ s.procList, s.pid p ≠ t.lastPid := fun p hp heq => hnew (List.mem_map.mpr ⟨p, hp, by
    change (Function.update s.pid child (-1) p).toNat = t.lastPid
    rw [Function.update_of_ne (ne_of_mem_of_not_mem hp hchild.notMem), heq, Int.toNat_natCast]⟩)
  refine .inr ⟨t.lastPid, t.nextSafe, ⟨hroom, hpos, hlt, hfresh, ?_⟩, ?_, ?_⟩
  · obtain ⟨_, _, _⟩ := t
    subst hlist
    rwa [← hmap]
  · change Function.update (Function.update s.pid child (-1)) child (t.lastPid : ℤ) child = _
    rw [Function.update_self]
  · have hcptr : Function.update s.cptr child none s.sched.current = s.cptr s.sched.current :=
      Function.update_of_ne hcur.symm ..
    simp only [setPc, linked, hashProc, allocProc, forked, Sched.modifyProc_current, Function.update_self,
      Function.update_idem, hcptr, pushPrev_update]

/-! ## The table afterwards -/

section After

variable (h : Tidy s kids) (hchild : Spare s child)

include h hchild

theorem Spare.ne_current : child ≠ s.sched.current := fun heq => hchild.not_live (heq ▸ h.current)

theorem Listed.forked (hf : Fresh s pid next) : Listed (s.forked child pid next) := by
  have hl := h.listed
  have hpid : ∀ p ∈ s.procList, Function.update s.pid child (pid : ℤ) p = s.pid p := fun p hp =>
    Function.update_of_ne (ne_of_mem_of_not_mem hp hchild.notMem) ..
  have hself : Function.update s.pid child (pid : ℤ) child = pid := Function.update_self ..
  refine ⟨List.nodup_cons.mpr ⟨hchild.notMem, hl.nodup⟩, ?_, ?_, hf.room, ?_, ?_, ?_, ?_, fun x => ?_⟩
  · exact fun hno => (List.mem_cons.mp hno).elim (fun heq => hchild.ne heq.symm) hl.idle
  · exact congrArg (· + 1) hl.count
  · intro p hp
    change 1 ≤ Function.update s.pid child (pid : ℤ) p ∧ Function.update s.pid child (pid : ℤ) p < _
    rcases List.mem_cons.mp hp with rfl | hp
    · rw [hself]
      exact ⟨by exact_mod_cast hf.pos, by exact_mod_cast hf.lt⟩
    · rw [hpid p hp]
      exact hl.pid p hp
  · intro p hp q hq
    change Function.update s.pid child (pid : ℤ) p = Function.update s.pid child (pid : ℤ) q → p = q
    rcases List.mem_cons.mp hp with rfl | hp <;> rcases List.mem_cons.mp hq with hq | hq
    · exact fun _ => hq.symm
    · rw [hself, hpid q hq]
      exact fun heq => absurd heq.symm (hf.new q hq)
    · rw [hq, hself, hpid p hp]
      exact fun heq => absurd heq (hf.new p hp)
    · rw [hpid p hp, hpid q hq]
      exact hl.inj p hp q hq
  · have hmap : (child :: s.procList).map (fun p => (Function.update s.pid child (pid : ℤ) p).toNat) =
        pid :: s.procList.map fun p => (s.pid p).toNat := by
      rw [List.map_cons, hself, Int.toNat_natCast]
      exact congrArg _ (List.map_congr_left fun p hp => by rw [hpid p hp])
    change Pid.Gap ⟨pid, next, (child :: s.procList).map fun p => (Function.update s.pid child (pid : ℤ) p).toNat⟩
    rw [hmap]
    exact hf.gap.setLinks
  · intro x p
    change p ∈ Function.update s.hashList (pidHashfn pid) (child :: s.hashList (pidHashfn pid)) x ↔
      p ∈ child :: s.procList ∧ pidHashfn (Function.update s.pid child (pid : ℤ) p) = x
    rw [Function.update_apply]
    rcases eq_or_ne p child with rfl | hp
    · rw [hself]
      split
      · rename_i hx
        simp [hx]
      · rename_i hx
        exact ⟨fun hmem => absurd ((hl.hash x p).mp hmem).1 hchild.notMem, fun hno => absurd hno.2.symm hx⟩
    · rw [Function.update_of_ne hp, List.mem_cons, or_iff_right hp]
      split
      · rename_i hx
        rw [List.mem_cons, or_iff_right hp, hl.hash, hx]
      · exact hl.hash x p
  · change (Function.update s.hashList (pidHashfn pid) (child :: s.hashList (pidHashfn pid)) x).Nodup
    rw [Function.update_apply]
    split
    · exact List.nodup_cons.mpr ⟨fun hmem => hchild.notMem ((hl.hash _ _).mp hmem).1, hl.hashNodup _⟩
    · exact hl.hashNodup x

theorem Family.forked : Family (s.forked child pid next)
    (Function.update kids s.sched.current (child :: kids s.sched.current)) := by
  have hcur := hchild.ne_current h
  have hnone := h.family.kids_eq_nil hchild.not_live
  have hf := h.family
  have hparent : ∀ p ∈ s.procList, Function.update s.parent child (some s.sched.current) p = s.parent p :=
    fun p hp => Function.update_of_ne (ne_of_mem_of_not_mem hp hchild.notMem) ..
  have hself : Function.update s.parent child (some s.sched.current) child = some s.sched.current :=
    Function.update_self ..
  have hpush := hf.brood.push h.current fun c hc => hchild.notMem ((hf.mem c child).mp hc).1
  refine ⟨fun p hp => ?_, fun p q => ?_, fun q hq => ?_⟩
  · change Siblings _ _ (Function.update (Function.update s.cptr child none) s.sched.current (some child) p) _
    rcases eq_or_ne p child with rfl | hne
    · rw [Function.update_of_ne hcur, Function.update_self, Function.update_of_ne hcur, hnone]
      exact Siblings.nil
    · have hlive : s.Live p := hp.imp_right fun hp => (List.mem_cons.mp hp).resolve_left hne
      have hhead : Function.update (Function.update s.cptr child none) s.sched.current (some child) p =
          Function.update s.cptr s.sched.current (some child) p := by
        simp only [Function.update_apply, if_neg hne]
      rw [hhead]
      exact hpush.siblings p hlive
  · change _ ↔ q ∈ child :: s.procList ∧ Function.update s.parent child (some s.sched.current) q = some p
    rcases eq_or_ne q child with rfl | hq
    · rw [hself, Option.some.injEq]
      rcases eq_or_ne p s.sched.current with rfl | hp
      · rw [Function.update_self]
        simp
      · rw [Function.update_of_ne hp]
        exact ⟨fun hno => absurd ((hf.mem p q).mp hno).1 hchild.notMem, fun hno => absurd hno.2.symm hp⟩
    · rw [Function.update_of_ne hq, List.mem_cons, or_iff_right hq, ← hf.mem]
      rcases eq_or_ne p s.sched.current with rfl | hp
      · rw [Function.update_self, List.mem_cons, or_iff_right hq]
      · rw [Function.update_of_ne hp]
  · change ∃ p, Function.update s.parent child (some s.sched.current) q = some p ∧ _
    have hmore : ∀ p, s.Live p → (s.forked child pid next).Live p := fun p =>
      Or.imp_right fun hp => List.mem_cons_of_mem child hp
    rcases List.mem_cons.mp hq with rfl | hq
    · exact ⟨_, hself, hmore _ h.current⟩
    · rw [hparent q hq]
      obtain ⟨p, hp, hlive⟩ := hf.parent q hq
      exact ⟨p, hp, hmore p hlive⟩

theorem Rooted.forked : Rooted (s.forked child pid next) := by
  have hold : ∀ p, Relation.ReflTransGen (fun q q' => s.parent q = some q') p idleproc → s.Live p →
      Relation.ReflTransGen (fun q q' => (s.forked child pid next).parent q = some q') p idleproc := by
    intro p hpath
    induction hpath using Relation.ReflTransGen.head_induction_on with
    | refl => exact fun _ => .refl
    | @head p p' hstep _ ih =>
      intro hlive
      rcases hlive with rfl | hp
      · exact .refl
      · obtain ⟨p'', hp'', hlive⟩ := h.family.parent p hp
        have hp' := Option.some.inj (hp''.symm.trans hstep)
        refine .head ?_ (ih (hp' ▸ hlive))
        exact (Function.update_of_ne (ne_of_mem_of_not_mem hp hchild.notMem) ..).trans hstep
  intro p hp
  rcases eq_or_ne p child with rfl | hne
  · exact .head (Function.update_self ..) (hold _ (h.rooted _ h.current) h.current)
  · have hlive : s.Live p := hp.imp_right fun hp => (List.mem_cons.mp hp).resolve_left hne
    exact hold p (h.rooted p hlive) hlive

theorem Queue.forked : Queue (s.forked child pid next) := by
  have hnot : child ∉ s.sched.runList := fun hq => hchild.notMem ((h.queue.mem child).mp hq).1
  refine ⟨List.Nodup.append h.queue.nodup (List.nodup_singleton child) (by simpa using hnot), fun p => ?_⟩
  change p ∈ s.sched.runList ++ [child] ↔ p ∈ child :: s.procList ∧
    (Function.update s.sched.proc child ⟨.runnable, 0, false⟩ p).state = .runnable ∧ p ≠ s.sched.current
  rcases eq_or_ne p child with rfl | hp
  · rw [Function.update_self]
    simpa using hchild.ne_current h
  · rw [Function.update_of_ne hp, List.mem_append, List.mem_singleton, or_iff_left hp, List.mem_cons, or_iff_right hp]
    exact h.queue.mem p

/-- **A birth keeps the table tidy…** -/
theorem Tidy.forked (hf : Fresh s pid next) (hpc : s.pc s.sched.current = .running) :
    Tidy (s.forked child pid next) (Function.update kids s.sched.current (child :: kids s.sched.current)) := by
  have hcur := hchild.ne_current h
  have hlive : ∀ p, (s.forked child pid next).Live p → p ≠ child → s.Live p := fun p hp hne =>
    hp.imp_right fun hp => (List.mem_cons.mp hp).resolve_left hne
  have hmore : ∀ p, s.Live p → (s.forked child pid next).Live p := fun p =>
    Or.imp_right fun hp => List.mem_cons_of_mem child hp
  refine ⟨Listed.forked h hchild hf, Family.forked h hchild, Rooted.forked h hchild, Queue.forked h hchild,
    fun p hp => ?_, hmore _ h.current, fun p hp => ?_, ?_, ?_⟩
  · change Standing (Function.update s.sched.proc child ⟨.runnable, 0, false⟩ p) _ _
      (Function.update s.pc child (.away .own) p)
    rcases eq_or_ne p child with rfl | hne
    · rw [Function.update_self, Function.update_self]
      exact ⟨rfl, rfl⟩
    · rw [Function.update_of_ne hne, Function.update_of_ne hne]
      have hst := h.standing p (hlive p hp hne)
      rcases eq_or_ne p s.sched.current with rfl | hother
      · rw [hpc] at hst ⊢
        exact hst
      · rw [Function.update_of_ne hother]
        have hkid : ∀ q ∈ kids p, q ≠ child := fun q hq =>
          ne_of_mem_of_not_mem ((h.family.mem p q).mp hq).1 hchild.notMem
        refine hst.mono (fun _ _ ha => ha.of_zombie (fun q hq => ?_) fun q hq hz => ?_) fun _ => id
        · exact Function.update_of_ne (hkid q hq) ..
        · change (Function.update s.sched.proc child _ q).state = _ at hz
          rwa [Function.update_of_ne (hkid q hq)] at hz
  · change (Function.update s.pc child (.away .own) p).Away ↔ p ≠ s.sched.current
    rcases eq_or_ne p child with rfl | hne
    · rw [Function.update_self]
      exact ⟨fun _ => hcur, fun _ => trivial⟩
    · rw [Function.update_of_ne hne]
      exact h.place p (hlive p hp hne)
  · have hsame : (s.forked child pid next).pc idleproc = s.pc idleproc := Function.update_of_ne hchild.ne.symm ..
    rw [hsame]
    exact h.idle
  · exact (Function.update_of_ne hchild.ne.symm ..).trans h.idlePid

omit h in
/-- …and in order. -/
theorem Orderly.forked (h : Orderly s kids) (hf : Fresh s pid next) (hpc : s.pc s.sched.current = .running) :
    Orderly (s.forked child pid next) (Function.update kids s.sched.current (child :: kids s.sched.current)) := by
  have hinit : initproc ≠ child := ne_of_mem_of_not_mem h.init hchild.notMem
  refine ⟨h.toTidy.forked hchild hf hpc, List.mem_cons_of_mem child h.init, ?_, ?_, ?_⟩
  · exact (Function.update_of_ne hinit ..).trans h.initPid
  · exact (Function.update_of_ne hinit ..).trans h.initParent
  · have hsame : (s.forked child pid next).sched.proc initproc = s.sched.proc initproc := Function.update_of_ne hinit ..
    rw [hsame]
    exact h.initAlive

end After

end UCore.ProcSys
