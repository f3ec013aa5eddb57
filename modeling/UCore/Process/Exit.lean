import UCore.Process.Orderly

/-!
# Process/Exit — a process dies

    parent ── asleep for a child? ──▸ woken
    initproc ── given a zombie, and asleep for a child? ──▸ woken

It stays in the lists, as a zombie without children, until its parent asks for it.
-/

namespace UCore.ProcSys

variable {s s' : ProcSys} {p q par child pid next fuel : ℕ} {code : ℤ} {kids : ℕ → List ℕ} {moved : List ℕ} {t : Sched}
  {awaits : ℤ → Prop} {childless : Prop} {pc : Pc}

/-! ## A parent is told -/

/-- The scheduler, with the process awake if it waits for a child. -/
def nudged (t : Sched) (p : ℕ) : Sched := if (t.proc p).waitState = WT_CHILD then t.woken p else t

@[simp] theorem nudged_current : (nudged t p).current = t.current := by
  rw [nudged]
  split
  · exact Sched.woken_current
  · rfl

theorem nudged_proc_of_ne (hq : q ≠ p) : (nudged t p).proc q = t.proc q := by
  rw [nudged]
  split
  · exact Sched.woken_proc_of_ne hq
  · rfl

/-- A process that does not wait for a child is as it was. -/
theorem nudged_proc_of_waitState (hq : (t.proc q).waitState ≠ WT_CHILD) : (nudged t p).proc q = t.proc q := by
  rcases eq_or_ne q p with rfl | hqp
  · rw [nudged, if_neg hq]
  · exact nudged_proc_of_ne hqp

theorem nudged_zombie (hz : ((nudged t p).proc q).state = .zombie) : (t.proc q).state = .zombie := by
  rw [nudged] at hz
  split at hz
  · exact woken_zombie hz
  · exact hz

/-- It does not wait for one now. -/
theorem nudged_waitState (hs : (t.proc p).waitState = WT_CHILD → (t.proc p).state ≠ .runnable) :
    ((nudged t p).proc p).waitState ≠ WT_CHILD := by
  rw [nudged]
  split
  · rename_i hw
    rw [Sched.woken_proc_self, if_neg (hs hw)]
    show (0 : ℕ) ≠ WT_CHILD
    decide
  · assumption

/-- The question, and the wake-up. -/
theorem wp_nudge (hcan : (t.proc p).waitState = WT_CHILD → t.CanWake p) :
    Act.wp (if (t.proc p).waitState = WT_CHILD then Sched.wakeupProc p else pure ()) (fun _ t' => t' = nudged t p)
      (fun _ => False) t := by
  rw [nudged, Act.wp_ite]
  refine ⟨fun hw => ?_, fun hw => ?_⟩
  · rw [if_pos hw]
    exact Act.wp_mono (Sched.wp_wakeupProc_eq p t) (fun _ _ => id) fun _ hno => hno (hcan hw)
  · rw [if_neg hw]
    rfl

theorem Standing.nudged (h : Standing (t.proc q) awaits childless pc) :
    Standing ((nudged t p).proc q) awaits childless pc := by
  rw [ProcSys.nudged]
  split
  · rename_i hw
    rcases eq_or_ne q p with rfl | hqp
    · have hs := h.sleeping (by rw [hw]; decide)
      rw [Sched.woken_proc_self, if_neg (by rw [hs]; decide)]
      exact h.wake (by rw [hs]; decide) ⟨rfl, rfl⟩
    · rwa [Sched.woken_proc_of_ne hqp]
  · exact h

theorem Queue.nudged (h : Queue s) (hp : s.Live p) (hrun : p = idleproc → (s.sched.proc p).state = .runnable) :
    Queue { s with sched := nudged s.sched p } := by
  rw [ProcSys.nudged]
  split
  · exact h.woken hp hrun
  · exact h

/-- `initproc` is told of the zombies among the children that it is given. -/
theorem alerted_eq : alerted t moved = if ∃ q ∈ moved, (t.proc q).state = .zombie then nudged t initproc else t := by
  rw [alerted, nudged]
  by_cases hsome : ∃ q ∈ moved, (t.proc q).state = .zombie
  · simp only [hsome, true_and, if_true]
  · simp only [hsome, false_and, if_false]

/-! ## `do_exit` -/

/-- The scheduler after `do_exit`. -/
def bereft (t : Sched) (par : ℕ) (children : List ℕ) : Sched :=
  alerted (nudged (t.modifyProc t.current fun g => { g with state := .zombie }) par) children

/-- **After `do_exit`.** -/
structure Exited (s : ProcSys) (kids : ℕ → List ℕ) (par : ℕ) (code : ℤ) (s' : ProcSys) : Prop where
  parent : s.parent s.sched.current = some par
  state : ∃ cptr yptr optr, s' = { s with
    sched := bereft s.sched par (kids s.sched.current)
    exitCode := Function.update s.exitCode s.sched.current code
    parent := fun q => if q ∈ kids s.sched.current then some initproc else s.parent q
    cptr := cptr
    yptr := yptr
    optr := optr
    pc := Function.update s.pc s.sched.current (.leaving .exit) }
  family : Family s' (movedKids kids s.sched.current (kids s.sched.current) [])

/-- Neither `idleproc` nor `initproc` may exit. -/
def Mortal (p : ℕ) : Prop := p ≠ idleproc ∧ p ≠ initproc

section Exit

variable (h : Orderly s kids) (hawake : (s.sched.proc s.sched.current).Awake) (hmortal : Mortal s.sched.current)

include h

theorem Orderly.exists_parent (hmortal : Mortal s.sched.current) :
    s.sched.current ∈ s.procList ∧ ∃ par, s.parent s.sched.current = some par ∧ s.Live par := by
  have hmem := h.current.resolve_left hmortal.1
  exact ⟨hmem, h.family.parent _ hmem⟩

include hmortal

/-- What `initproc` needs to be, once the parent has been told. -/
theorem adopts_nudged (code : ℤ) (hlive : s.Live par) :
    Adopts { s with
      sched := nudged (s.sched.modifyProc s.sched.current fun g => { g with state := .zombie }) par
      exitCode := Function.update s.exitCode s.sched.current code } kids := by
  have hidle : ((s.sched.modifyProc s.sched.current fun g => { g with state := .zombie }).proc idleproc).state =
      .runnable := by
    rw [Sched.modifyProc_proc, if_neg hmortal.1.symm]
    exact h.idle_awake.1
  have hqueue := Queue.nudged (h.queue.modifyCurrent fun g => { g with state := .zombie }) hlive fun heq => heq ▸ hidle
  have hinit : Standing ((nudged (s.sched.modifyProc s.sched.current fun g => { g with state := .zombie }) par).proc
      initproc) (s.Awaits (kids initproc)) (kids initproc = []) (s.pc initproc) := by
    refine Standing.nudged ?_
    rw [Sched.modifyProc_proc, if_neg hmortal.2.symm]
    exact h.standing _ (.inr h.init)
  refine ⟨h.init, ?_, ?_, fun hw => ?_⟩
  · change initproc ≠ (nudged _ par).current
    rw [nudged_current]
    exact hmortal.2.symm
  · change initproc ∉ kids (nudged _ par).current
    rw [nudged_current]
    intro hmem
    have hparent := ((h.family.mem _ _).mp hmem).2
    exact hmortal.1 (Option.some.inj (hparent.symm.trans h.initParent))
  · have hs := hinit.sleeping (by rw [hw]; decide)
    refine ⟨⟨?_, fun hne _ _ hq => hne ((hqueue.mem _).mp hq).2.1⟩, ?_⟩ <;> · rw [hs]; decide

/-- The rest, once the parent has been told. -/
theorem Exited.of_told (code : ℤ) (hpar : s.parent s.sched.current = some par) (hlive : s.Live par)
    (hfuel : Pid.MAX_PROCESS ≤ fuel) :
    Act.wp (do
        Act.loop .spin (fun _ => adoptTurn) fuel ()
        modify fun s' => s'.setPc s.sched.current (.leaving .exit) : Call Unit)
      (fun _ s' => ∃ par, s.Live par ∧ Exited s kids par code s') (fun _ => False) { s with
        sched := nudged (s.sched.modifyProc s.sched.current fun g => { g with state := .zombie }) par
        exitCode := Function.update s.exitCode s.sched.current code } := by
  have hadopts := adopts_nudged h hmortal code hlive
  obtain ⟨s₁, hs₁⟩ : ∃ s₁, s₁ = { s with
    sched := nudged (s.sched.modifyProc s.sched.current fun g => { g with state := .zombie }) par
    exitCode := Function.update s.exitCode s.sched.current code } := ⟨_, rfl⟩
  have hcur : s₁.sched.current = s.sched.current := by
    rw [hs₁]
    exact nudged_current
  have hfamily : Family s₁ kids := hs₁ ▸ h.family.frame _ s.pc _
  rw [← hs₁] at hadopts ⊢
  rw [Act.wp_bind]
  refine Act.wp_mono (wp_adoptLoop hfamily hadopts (hcur ▸ ?_) ((h.kids_length_lt _).trans_le hfuel))
    (fun _ s₂ hs₂ => ?_) fun _ => id
  · rw [hs₁]
    exact h.current
  · rw [Act.wp_modify]
    have hfamily₂ := hs₂.family hfamily hadopts
    obtain ⟨cptr, yptr, optr, hstate⟩ := hs₂.state
    rw [hcur] at hfamily₂ hstate
    refine ⟨par, hlive, hpar, ⟨cptr, yptr, optr, ?_⟩, ⟨hfamily₂.siblings, hfamily₂.mem, hfamily₂.parent⟩⟩
    rw [hstate, hs₁]
    rfl

/-- **`do_exit`** tells the parent, and gives the children away. -/
theorem Orderly.wp_doExit (hawake : (s.sched.proc s.sched.current).Awake) (hfuel : Pid.MAX_PROCESS ≤ fuel) :
    Act.wp (doExit fuel code) (fun _ s' => ∃ par, s.Live par ∧ Exited s kids par code s') (fun _ => False) s := by
  obtain ⟨-, par, hpar, hlive⟩ := h.exists_parent hmortal
  have hcan : ((s.sched.modifyProc s.sched.current fun g => { g with state := .zombie }).proc par).waitState = WT_CHILD →
      (s.sched.modifyProc s.sched.current fun g => { g with state := .zombie }).CanWake par := fun hw => by
    have hne : par ≠ s.sched.current := fun heq => by
      rw [heq, Sched.modifyProc_proc, if_pos rfl] at hw
      exact absurd (hawake.2.symm.trans hw) (by decide)
    have hsame : (s.sched.modifyProc s.sched.current fun g => { g with state := .zombie }).proc par =
        s.sched.proc par := by
      rw [Sched.modifyProc_proc, if_neg hne]
    rw [hsame] at hw
    have hs := (h.standing par hlive).sleeping (by rw [hw]; decide)
    refine ⟨?_, fun _ _ _ hq => ?_⟩
    · rw [hsame, hs]
      decide
    · exact nomatch hs.symm.trans ((h.queue.mem par).mp hq).2.1
  rw [doExit, Act.wp_bind, Act.wp_get, Act.wp_bind, Act.wp_require]
  refine ⟨fun _ => ?_, fun hno => hno hmortal.1⟩
  rw [Act.wp_bind, Act.wp_require]
  refine ⟨fun _ => ?_, fun hno => hno hmortal.2⟩
  simp only [Act.wp_bind, Act.wp_modify, Act.wp_get, wp_onSched]
  rw [hpar]
  simp only [Act.wp_bind, Act.wp_get]
  have htold := Exited.of_told h hmortal code hpar hlive hfuel
  rw [Act.wp_ite]
  refine ⟨fun hw => ?_, fun hw => ?_⟩
  · rw [Act.wp_bind, wp_onSched]
    refine Act.wp_mono (Sched.wp_wakeupProc_eq par _) (fun _ t ht => ?_) fun _ hno => hno (hcan hw)
    rw [ProcSys.nudged, if_pos hw] at htold
    rw [show t = _ from ht]
    exact htold
  · rw [ProcSys.nudged, if_neg hw] at htold
    exact htold

end Exit

/-! ## The table afterwards -/

theorem bereft_current {children : List ℕ} : (bereft t par children).current = t.current := by
  rw [bereft, alerted_current, nudged_current]
  rfl

theorem bereft_zombie {children : List ℕ} (hq : q ≠ t.current) (hz : ((bereft t par children).proc q).state = .zombie) :
    (t.proc q).state = .zombie := by
  rw [bereft, alerted_eq] at hz
  have hz : ((nudged (t.modifyProc t.current fun g => { g with state := .zombie }) par).proc q).state = .zombie := by
    split at hz
    · exact nudged_zombie hz
    · exact hz
  have hz := nudged_zombie hz
  rwa [Sched.modifyProc_proc, if_neg hq] at hz

/-- A process that does not wait for a child is as it was… -/
theorem bereft_proc {children : List ℕ} (hq : q ≠ t.current) (hw : (t.proc q).waitState ≠ WT_CHILD) :
    (bereft t par children).proc q = t.proc q := by
  have h₁ : (t.modifyProc t.current fun g => { g with state := .zombie }).proc q = t.proc q := by
    rw [Sched.modifyProc_proc, if_neg hq]
  have h₂ := (nudged_proc_of_waitState (p := par) (h₁ ▸ hw)).trans h₁
  rw [bereft, alerted_eq]
  split
  · exact (nudged_proc_of_waitState (h₂ ▸ hw)).trans h₂
  · exact h₂

/-- …and the one that exits is a zombie. -/
theorem bereft_self {children : List ℕ} (hw : (t.proc t.current).waitState = 0) :
    (bereft t par children).proc t.current = { t.proc t.current with state := .zombie } := by
  have h₁ : (t.modifyProc t.current fun g => { g with state := .zombie }).proc t.current =
      { t.proc t.current with state := .zombie } := by
    rw [Sched.modifyProc_proc, if_pos rfl]
  have hne : ((t.modifyProc t.current fun g => { g with state := .zombie }).proc t.current).waitState ≠ WT_CHILD := by
    rw [h₁]
    change (t.proc t.current).waitState ≠ WT_CHILD
    rw [hw]
    decide
  have h₂ := (nudged_proc_of_waitState (p := par) hne).trans h₁
  rw [bereft, alerted_eq]
  split
  · refine (nudged_proc_of_waitState ?_).trans h₂
    rwa [nudged_proc_of_waitState hne]
  · exact h₂

theorem Standing.bereft {children : List ℕ} (hq : q ≠ t.current)
    (h : Standing (t.proc q) awaits childless pc) :
    Standing ((bereft t par children).proc q) awaits childless pc := by
  have h₁ : Standing ((t.modifyProc t.current fun g => { g with state := .zombie }).proc q) awaits childless pc := by
    rwa [Sched.modifyProc_proc, if_neg hq]
  rw [ProcSys.bereft, alerted_eq]
  split
  · exact h₁.nudged.nudged
  · exact h₁.nudged

/-- **Whoever still waits** has not been told: it is not the parent, nor `initproc` with a zombie among its new
children. -/
theorem bereft_waits {children : List ℕ} (hq : q ≠ t.current) (h : Standing (t.proc q) awaits childless pc)
    (hw : ((bereft t par children).proc q).waitState = WT_CHILD) :
    q ≠ par ∧ (q = initproc → ∀ x ∈ children, ((bereft t par children).proc x).state ≠ .zombie) := by
  have hasleep : ∀ {g : Proc}, Standing g awaits childless pc → g.waitState = WT_CHILD → g.state ≠ .runnable :=
    fun hg hw hs => absurd ((hg.awake hs).2.symm.trans hw) (by decide)
  have h₁ : Standing ((t.modifyProc t.current fun g => { g with state := .zombie }).proc q) awaits childless pc := by
    rwa [Sched.modifyProc_proc, if_neg hq]
  rw [bereft, alerted_eq] at hw ⊢
  generalize t.modifyProc t.current (fun g => { g with state := .zombie }) = t₁ at h₁ hw ⊢
  have hpar : q ≠ par := by
    rintro rfl
    have h₂ := nudged_waitState (hasleep h₁)
    split at hw
    · rw [nudged_proc_of_waitState h₂] at hw
      exact h₂ hw
    · exact h₂ hw
  refine ⟨hpar, ?_⟩
  rintro rfl x hx hz
  have hsome : ∃ x ∈ children, ((nudged t₁ par).proc x).state = .zombie := by
    refine ⟨x, hx, ?_⟩
    split at hz
    · exact nudged_zombie hz
    · exact hz
  rw [if_pos hsome] at hw
  exact nudged_waitState (hasleep h₁.nudged) hw

theorem Rooted.exited (h : Orderly s kids) (hx : Exited s kids par code s') (hmortal : Mortal s.sched.current) :
    Rooted s' := by
  obtain ⟨cptr, yptr, optr, rfl⟩ := hx.state
  have hinit : Relation.ReflTransGen (fun q q' => (if q ∈ kids s.sched.current then some initproc else s.parent q) =
      some q') initproc idleproc := by
    refine .single ?_
    have hnot : initproc ∉ kids s.sched.current := fun hmem =>
      hmortal.1 (Option.some.inj (((h.family.mem _ _).mp hmem).2.symm.trans h.initParent))
    rw [if_neg hnot]
    exact h.initParent
  intro p hp
  have hpath := h.rooted p hp
  change Relation.ReflTransGen (fun q q' => (if q ∈ kids s.sched.current then some initproc else s.parent q) =
    some q') p idleproc
  clear hp
  induction hpath using Relation.ReflTransGen.head_induction_on with
  | refl => exact .refl
  | @head p p' hstep _ ih =>
    by_cases hmem : p ∈ kids s.sched.current
    · exact .head (if_pos hmem) hinit
    · exact .head ((if_neg hmem).trans hstep) ih

theorem Queue.exited (h : Orderly s kids) (hx : Exited s kids par code s') (hmortal : Mortal s.sched.current)
    (hlive : s.Live par) : Queue s' := by
  have hidle : ((s.sched.modifyProc s.sched.current fun g => { g with state := .zombie }).proc idleproc).state =
      .runnable := by
    rw [Sched.modifyProc_proc, if_neg hmortal.1.symm]
    exact h.idle_awake.1
  have h₁ := Queue.nudged (h.queue.modifyCurrent fun g => { g with state := .zombie }) hlive fun heq => heq ▸ hidle
  have h₂ : Queue { s with sched := bereft s.sched par (kids s.sched.current) } := by
    rw [bereft, alerted_eq]
    split
    · exact Queue.nudged h₁ (.inr h.init) fun heq => absurd heq h.init_ne_idle
    · exact h₁
  obtain ⟨cptr, yptr, optr, rfl⟩ := hx.state
  exact ⟨h₂.nodup, h₂.mem⟩

/-- **A death keeps the table in order.** -/
theorem Orderly.exited (h : Orderly s kids) (hx : Exited s kids par code s')
    (hawake : (s.sched.proc s.sched.current).Awake) (hmortal : Mortal s.sched.current) (hlive : s.Live par) :
    Orderly s' (movedKids kids s.sched.current (kids s.sched.current) []) := by
  have hrooted := Rooted.exited h hx hmortal
  have hqueue := Queue.exited h hx hmortal hlive
  have hfamily := hx.family
  have hparent := hx.parent
  have hne : initproc ≠ s.sched.current := hmortal.2.symm
  obtain ⟨cptr, yptr, optr, rfl⟩ := hx.state
  refine ⟨⟨⟨h.listed.nodup, h.listed.idle, h.listed.count, h.listed.le, h.listed.pid, h.listed.inj, h.listed.gap,
    h.listed.hash, h.listed.hashNodup⟩, hfamily, hrooted, hqueue, fun q hq => ?_, ?_, fun q hq => ?_, ?_, h.idlePid⟩,
    h.init, h.initPid, ?_, ?_⟩
  · -- the others stand as they did, unless they have been told
    change Standing ((bereft s.sched par (kids s.sched.current)).proc q) _ _
      (Function.update s.pc s.sched.current (.leaving .exit) q)
    rcases eq_or_ne q s.sched.current with rfl | hcur
    · rw [bereft_self hawake.2, Function.update_self, movedKids_current]
      exact ⟨rfl, hawake.2, rfl⟩
    · rw [Function.update_of_ne hcur]
      have hst := h.standing q hq
      refine (hst.bereft hcur).mono (fun pid hw ha => ?_) fun hz hnil => ?_
      · obtain ⟨hpar, htold⟩ := bereft_waits hcur hst hw
        have hown : ∀ x ∈ kids q, ((bereft s.sched par (kids s.sched.current)).proc x).state = .zombie →
            (s.sched.proc x).state = .zombie := fun x hx => bereft_zombie fun heq =>
          hpar (Option.some.inj (((h.family.mem q x).mp hx).2.symm.trans (heq ▸ hparent)))
        obtain ⟨⟨x, hx, hm⟩, hall⟩ := ha
        rcases eq_or_ne q initproc with rfl | hinit
        · rw [movedKids_init hne]
          refine ⟨⟨x, List.mem_append_right _ hx, hm⟩, fun y hy hmy => ?_⟩
          rcases List.mem_append.mp hy with hy | hy
          · exact htold rfl y (List.mem_reverse.mp hy)
          · exact fun hz => hall y hy hmy (hown y hy hz)
        · rw [movedKids_of_ne hcur hinit]
          exact ⟨⟨x, hx, hm⟩, fun y hy hmy hz => hall y hy hmy (hown y hy hz)⟩
      · have hinit : q ≠ initproc := fun heq => h.initAlive (heq ▸ bereft_zombie hcur hz)
        rw [movedKids_of_ne hcur hinit]
        exact hnil
  · change s.Live (bereft s.sched par (kids s.sched.current)).current
    rw [bereft_current]
    exact h.current
  · change (Function.update s.pc s.sched.current (.leaving .exit) q).Away ↔
      q ≠ (bereft s.sched par (kids s.sched.current)).current
    rw [bereft_current]
    rcases eq_or_ne q s.sched.current with rfl | hcur
    · rw [Function.update_self]
      exact ⟨False.elim, fun hno => absurd rfl hno⟩
    · rw [Function.update_of_ne hcur]
      exact h.place q hq
  · have hsame : Function.update s.pc s.sched.current (.leaving .exit) idleproc = s.pc idleproc :=
      Function.update_of_ne hmortal.1.symm ..
    simp only [hsame]
    exact h.idle
  · have hnot : initproc ∉ kids s.sched.current := fun hmem =>
      hmortal.1 (Option.some.inj (((h.family.mem _ _).mp hmem).2.symm.trans h.initParent))
    exact (if_neg hnot).trans h.initParent
  · exact fun hz => h.initAlive (bereft_zombie hne hz)

end UCore.ProcSys
