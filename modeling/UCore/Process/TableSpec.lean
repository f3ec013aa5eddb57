import UCore.Process.Table

/-!
# Process/TableSpec — what the sections do to the table

    set_links      a process in front of its parent's children        pushPrev
    remove_links   a process taken out of them                        dropNext, dropPrev, dropHead
    schedule       the first of the run queue, and the caller behind it

Each section is a state of the fields that it writes; the family is read off these by the rules for siblings.
-/

namespace UCore.ProcSys

variable {s s' : ProcSys} {p par child current fuel : ℕ} {pid code : ℤ} {kids : ℕ → List ℕ}

@[simp] theorem wp_onSched {α : Type} (m : Sched.Call α) {Q : α → ProcSys → Prop} {E : Stop → Prop} :
    Act.wp (onSched m) Q E s ↔ Act.wp m (fun a t => Q a { s with sched := t }) E s.sched := Act.wp_zoom _ _ m

/-! ## The links -/

/-- The table after `set_links`. -/
def linked (s : ProcSys) (p par : ℕ) : ProcSys :=
  { s with
    procList := p :: s.procList
    yptr := pushPrev s.yptr p (s.cptr par)
    optr := Function.update s.optr p (s.cptr par)
    cptr := Function.update s.cptr par (some p)
    nrProcess := s.nrProcess + 1 }

theorem wp_setLinks (par : ℕ) (hpar : s.parent p = some par) {Q : Unit → ProcSys → Prop} {E : Stop → Prop} :
    Act.wp (setLinks p) Q E s ↔ Q () (s.linked p par) := by
  simp only [setLinks, Act.wp_bind, Act.wp_modify, Act.wp_get, hpar, Function.update_self]
  cases hc : s.cptr par with
  | none => simp only [Act.wp_modify, linked, hc, pushPrev]
  | some y => simp only [Act.wp_bind, Act.wp_modify, linked, hc, pushPrev]

/-- The table after `remove_links`. -/
def unlinked (s : ProcSys) (p par : ℕ) : ProcSys :=
  { s with
    procList := s.procList.erase p
    yptr := dropPrev s.optr s.yptr p
    optr := dropNext s.optr s.yptr p
    cptr := Function.update s.cptr par (dropHead s.optr s.yptr p (s.cptr par))
    nrProcess := s.nrProcess - 1 }

theorem wp_removeLinks (hpar : s.parent p = some par) (hself : s.optr p ≠ some p) {Q : Unit → ProcSys → Prop}
    {E : Stop → Prop} : Act.wp (removeLinks p) Q E s ↔ Q () (s.unlinked p par) := by
  have hupdate : Function.update s.cptr par (s.cptr par) = s.cptr := Function.update_eq_self ..
  cases ho : s.optr p with
  | none =>
    cases hy : s.yptr p with
    | none =>
      simp only [removeLinks, Act.wp_bind, Act.wp_modify, Act.wp_get, ho, hy, hpar, unlinked,
        dropPrev_of_none ho, dropNext_of_none hy, dropHead_of_none hy]
    | some z =>
      simp only [removeLinks, Act.wp_bind, Act.wp_modify, Act.wp_get, ho, hy, unlinked,
        dropPrev_of_none ho, dropNext_of_some hy, dropHead_of_some hy, hupdate]
  | some y =>
    have hne : p ≠ y := fun heq => hself (heq ▸ ho)
    cases hy : s.yptr p with
    | none =>
      simp only [removeLinks, Act.wp_bind, Act.wp_modify, Act.wp_get, ho, hy, hpar, unlinked,
        dropPrev_of_some ho, dropNext_of_none hy, dropHead_of_none hy, Function.update_of_ne hne]
    | some z =>
      simp only [removeLinks, Act.wp_bind, Act.wp_modify, Act.wp_get, ho, hy, unlinked,
        dropPrev_of_some ho, dropNext_of_some hy, dropHead_of_some hy, hupdate, Function.update_of_ne hne]

/-! ## The scheduler -/

/-- The run queue that `schedule` picks from. -/
def readied (t : Sched) : List ℕ :=
  if (t.proc t.current).state = .runnable ∧ t.current ≠ idleproc then t.runList ++ [t.current] else t.runList

/-- **`schedule`** goes to the first process of the queue, or to `idleproc`. -/
theorem wp_schedule_head {t : Sched} (hnot : t.current ∉ t.runList) {Q : Unit → Sched → Prop} {E : Stop → Prop} :
    Act.wp (Sched.schedule List.head?) Q E t ↔
      Q () { t with current := (readied t).headD idleproc, runList := (readied t).tail } := by
  obtain ⟨proc, cur, rl⟩ := t
  simp only [Sched.schedule, Sched.schedClassEnqueue, Sched.schedClassDequeue, readied, Act.wp_bind, Act.wp_get]
  by_cases hrun : (proc cur).state = .runnable
  · by_cases hidle : cur = idleproc
    · subst hidle
      cases rl <;> simp [hrun]
    · cases rl <;> simp_all
  · cases rl <;> simp [hrun]

/-! ## Who is there -/

/-- **The lists of processes** agree: with each other, with `nr_process`, and with the identifiers. -/
structure Listed (s : ProcSys) : Prop where
  nodup : s.procList.Nodup
  idle : idleproc ∉ s.procList
  count : s.nrProcess = s.procList.length + 1
  le : s.nrProcess ≤ Pid.MAX_PROCESS
  pid : ∀ p ∈ s.procList, 1 ≤ s.pid p ∧ s.pid p < Pid.MAX_PID
  inj : ∀ p ∈ s.procList, ∀ q ∈ s.procList, s.pid p = s.pid q → p = q
  gap : Pid.Gap ⟨s.lastPid, s.nextSafe, s.procList.map fun p => (s.pid p).toNat⟩
  hash : ∀ h p, p ∈ s.hashList h ↔ p ∈ s.procList ∧ pidHashfn (s.pid p) = h
  hashNodup : ∀ h, (s.hashList h).Nodup

/-- **`find_proc`** finds the process with an identifier, and nothing else. -/
theorem Listed.findProc_eq_some (h : Listed s) : s.findProc pid = some p ↔ p ∈ s.procList ∧ s.pid p = pid := by
  rw [findProc]
  constructor
  · intro hfind
    split at hfind
    · have hp := List.find?_some hfind
      exact ⟨((h.hash _ _).mp (List.mem_of_find?_eq_some hfind)).1, of_decide_eq_true hp⟩
    · exact nomatch hfind
  · rintro ⟨hp, rfl⟩
    have hpid := h.pid p hp
    rw [if_pos ⟨by omega, hpid.2⟩]
    have hmem : p ∈ s.hashList (pidHashfn (s.pid p)) := (h.hash _ _).mpr ⟨hp, rfl⟩
    cases hf : (s.hashList (pidHashfn (s.pid p))).find? fun q => s.pid q = s.pid p with
    | none => exact absurd (List.find?_eq_none.mp hf p hmem) (by simp)
    | some q =>
      have hq : s.pid q = s.pid p := by simpa using List.find?_some hf
      rw [h.inj q ((h.hash _ _).mp (List.mem_of_find?_eq_some hf)).1 p hp hq]

theorem Listed.findProc_eq_none (h : Listed s) : s.findProc pid = none ↔ ∀ p ∈ s.procList, s.pid p ≠ pid := by
  rw [Option.eq_none_iff_forall_not_mem]
  exact ⟨fun hno p hp hpid => hno p (h.findProc_eq_some.mpr ⟨hp, hpid⟩), fun hno p hp =>
    hno p (h.findProc_eq_some.mp hp).1 (h.findProc_eq_some.mp hp).2⟩

/-- The processes there are, `idleproc` among them. -/
def Live (s : ProcSys) (p : ℕ) : Prop := p = idleproc ∨ p ∈ s.procList

/-- **The family**: each process has its children in a list of siblings, and they have it for a parent. -/
structure Family (s : ProcSys) (kids : ℕ → List ℕ) : Prop where
  siblings : ∀ p, s.Live p → Siblings s.optr s.yptr (s.cptr p) (kids p)
  mem : ∀ p q, q ∈ kids p ↔ q ∈ s.procList ∧ s.parent q = some p
  parent : ∀ q ∈ s.procList, ∃ p, s.parent q = some p ∧ s.Live p

theorem Family.disjoint (h : Family s kids) (p q x : ℕ) (hp : x ∈ kids p) (hq : x ∈ kids q) : p = q :=
  Option.some.inj (((h.mem p x).mp hp).2.symm.trans ((h.mem q x).mp hq).2)

theorem Family.brood (h : Family s kids) : Brood s.optr s.yptr s.cptr s.Live kids := ⟨h.siblings, h.disjoint⟩

/-! ## The search of `do_wait` -/

/-- A child is one that `do_wait` is called for. -/
def Matches (s : ProcSys) (pid : ℤ) (p : ℕ) : Prop := pid ≠ 0 → s.pid p = pid

/-- **What the search is to find**: a child that is a zombie if there is one, or else whether there is a child. -/
def Found.Right (s : ProcSys) (children : List ℕ) (pid : ℤ) : Found → Prop
  | .child p => p ∈ children ∧ s.Matches pid p ∧ (s.sched.proc p).state = .zombie
  | .busy => (∃ p ∈ children, s.Matches pid p) ∧
      ∀ p ∈ children, s.Matches pid p → (s.sched.proc p).state ≠ .zombie
  | .nobody => ∀ p ∈ children, ¬ s.Matches pid p

/-- The loop over the children, of which `seen` have been looked at. -/
theorem wp_childLoop {children rest : List ℕ} {o : Option ℕ} (seen : List ℕ) (hall : seen ++ rest = children)
    (hrest : Thread s.optr o rest) (hseen : ∀ p ∈ seen, (s.sched.proc p).state ≠ .zombie)
    (hfuel : rest.length < fuel) :
    Act.wp (Act.loop .spin childTurn fuel (o, !seen.isEmpty)) (fun r s' => s' = s ∧ r.Right s children 0)
      (fun _ => False) s := by
  refine Act.wp_loop (fun n c s' => s' = s ∧ ∃ seen rest, seen ++ rest = children ∧ n = rest.length ∧
    Thread s.optr c.1 rest ∧ c.2 = !seen.isEmpty ∧ ∀ p ∈ seen, (s.sched.proc p).state ≠ .zombie) ?_ fuel rest.length _ _
    ⟨rfl, seen, rest, hall, rfl, hrest, rfl, hseen⟩ fun hle => absurd hfuel (not_lt.mpr hle)
  rintro n ⟨o, b⟩ s' ⟨hs, seen, rest, rfl, rfl, hrest, rfl, hseen⟩
  obtain rfl := hs.symm
  have hmatch : ∀ p, s.Matches 0 p := fun p hno => absurd rfl hno
  cases rest with
  | nil =>
    obtain rfl : o = none := hrest
    rw [childTurn, Act.wp_pure]
    refine ⟨rfl, ?_⟩
    rw [List.append_nil]
    cases seen with
    | nil => exact fun p hp => absurd hp List.not_mem_nil
    | cons x xs => exact ⟨⟨x, List.mem_cons_self, hmatch x⟩, fun p hp _ => hseen p hp⟩
  | cons x rest =>
    obtain ⟨rfl, hrest⟩ := hrest
    rw [childTurn, Act.wp_bind, Act.wp_get, Act.wp_ite]
    refine ⟨fun hz => ?_, fun hz => ?_⟩
    · exact ⟨rfl, List.mem_append_right _ List.mem_cons_self, hmatch x, hz⟩
    · refine ⟨rest.length, Nat.lt_succ_self _, rfl, seen ++ [x], rest, ?_, rfl, hrest, ?_, fun p hp => ?_⟩
      · rw [List.append_assoc, List.singleton_append]
      · simp
      · rcases List.mem_append.mp hp with hp | hp
        · exact hseen p hp
        · exact List.mem_singleton.mp hp ▸ hz

/-- **The search**, by the identifier or over all the children. -/
theorem Family.wp_findChild (h : Family s kids) (hl : Listed s) (hcur : s.Live s.sched.current)
    (hfuel : (kids s.sched.current).length < fuel) :
    Act.wp (findChild fuel pid) (fun r s' => s' = s ∧ r.Right s (kids s.sched.current) pid) (fun _ => False) s := by
  rw [findChild, Act.wp_bind, Act.wp_get, Act.wp_ite]
  refine ⟨fun hpid => ?_, fun hpid => ?_⟩
  · have honly : ∀ p ∈ kids s.sched.current, s.Matches pid p → s.findProc pid = some p := fun p hp hm =>
      hl.findProc_eq_some.mpr ⟨((h.mem _ p).mp hp).1, hm hpid⟩
    rw [Act.wp_bind, Act.wp_get]
    cases hf : s.findProc pid with
    | none => exact ⟨rfl, fun p hp hm => nomatch hf.symm.trans (honly p hp hm)⟩
    | some q =>
      obtain ⟨hq, hqpid⟩ := hl.findProc_eq_some.mp hf
      rw [Act.wp_bind, Act.wp_get, Act.wp_ite]
      refine ⟨fun hpar => ?_, fun hpar => ?_⟩
      · have hkid : q ∈ kids s.sched.current := (h.mem _ q).mpr ⟨hq, hpar⟩
        rw [Act.wp_bind, Act.wp_get, Act.wp_ite]
        refine ⟨fun hz => ⟨rfl, hkid, fun _ => hqpid, hz⟩, fun hz => ⟨rfl, ⟨q, hkid, fun _ => hqpid⟩, fun p hp hm => ?_⟩⟩
        rwa [← Option.some.inj (hf.symm.trans (honly p hp hm))]
      · refine ⟨rfl, fun p hp hm => hpar ?_⟩
        rw [Option.some.inj (hf.symm.trans (honly p hp hm))]
        exact ((h.mem _ p).mp hp).2
  · obtain rfl := not_not.mp hpid
    rw [Act.wp_bind, Act.wp_get]
    exact wp_childLoop [] (List.nil_append _) (h.siblings _ hcur).thread
      (fun p hp => absurd hp List.not_mem_nil) hfuel

end UCore.ProcSys
