import UCore.Process.TableSpec

/-!
# Process/Adopt — the children that a process leaves behind

    current ──▸ x ──▸ y ──▸ …              x ──▸ y ──▸ …
    initproc ──▸ a ──▸ b ──▸ …      initproc ──▸ x ──▸ a ──▸ b ──▸ …

`do_exit` puts them in front of `initproc`'s children, one by one, and wakes it if one of them is a zombie.
-/

namespace UCore.ProcSys

variable {s s' : ProcSys} {x current fuel : ℕ} {kids : ℕ → List ℕ} {moved rest : List ℕ}

/-- The children of each process, when some of those of `current` have been moved. -/
def movedKids (kids : ℕ → List ℕ) (current : ℕ) (moved rest : List ℕ) : ℕ → List ℕ :=
  Function.update (Function.update kids initproc (moved.reverse ++ kids initproc)) current rest

/-- The scheduler, with `initproc` awake if it waits for a child and is given a zombie. -/
def alerted (t : Sched) (moved : List ℕ) : Sched :=
  if (∃ q ∈ moved, (t.proc q).state = .zombie) ∧ (t.proc initproc).waitState = WT_CHILD then t.woken initproc else t

/-- **Between the turns.** -/
structure Adopting (s : ProcSys) (kids : ℕ → List ℕ) (moved rest : List ℕ) (s' : ProcSys) : Prop where
  all : moved ++ rest = kids s.sched.current
  state : ∃ cptr yptr optr, s' = { s with
    sched := alerted s.sched moved
    parent := fun q => if q ∈ moved then some initproc else s.parent q
    cptr := cptr
    yptr := yptr
    optr := optr }
  thread : Thread s'.optr (s'.cptr s.sched.current) rest
  brood : Brood s'.optr s'.yptr s'.cptr (fun p => s.Live p ∧ p ≠ s.sched.current)
    (movedKids kids s.sched.current moved rest)

theorem movedKids_current : movedKids kids current moved rest current = rest := Function.update_self ..

theorem movedKids_init (hne : initproc ≠ current) :
    movedKids kids current moved rest initproc = moved.reverse ++ kids initproc := by
  rw [movedKids, Function.update_of_ne hne, Function.update_self]

theorem movedKids_of_ne {p : ℕ} (hcur : p ≠ current) (hinit : p ≠ initproc) :
    movedKids kids current moved rest p = kids p := by
  rw [movedKids, Function.update_of_ne hcur, Function.update_of_ne hinit]

/-- One more of them is moved. -/
theorem update_movedKids (hne : initproc ≠ current) :
    Function.update (movedKids kids current moved rest) initproc
      (x :: movedKids kids current moved rest initproc) = movedKids kids current (moved ++ [x]) rest := by
  rw [movedKids_init hne, movedKids, movedKids, Function.update_comm hne, Function.update_idem,
    Function.update_comm hne.symm, List.reverse_concat, List.cons_append]

/-- A wake-up of `initproc` leaves the others as they are. -/
theorem alerted_proc {t : Sched} {q : ℕ} (hq : q ≠ initproc) : (alerted t moved).proc q = t.proc q := by
  rw [alerted]
  split
  · exact Sched.woken_proc_of_ne hq
  · rfl

/-- What the zombie does, if it is one: `initproc` has been woken, or is. -/
theorem wp_alert {t : Sched} (hx : x ≠ initproc)
    (hcan : (t.proc initproc).waitState = WT_CHILD → t.CanWake initproc ∧ (t.proc initproc).state ≠ .runnable) :
    Act.wp (if ((alerted t moved).proc x).state = .zombie then
        if ((alerted t moved).proc initproc).waitState = WT_CHILD then Sched.wakeupProc initproc else pure ()
      else pure ()) (fun _ t' => t' = alerted t (moved ++ [x])) (fun _ => False) (alerted t moved) := by
  have hsplit : (∃ q ∈ moved ++ [x], (t.proc q).state = .zombie) ↔
      (∃ q ∈ moved, (t.proc q).state = .zombie) ∨ (t.proc x).state = .zombie := by
    simp only [List.mem_append, List.mem_singleton, or_and_right, exists_or, exists_eq_left]
  rw [alerted_proc hx]
  by_cases hwait : (t.proc initproc).waitState = WT_CHILD
  · obtain ⟨hcan, hasleep⟩ := hcan hwait
    by_cases hsome : ∃ q ∈ moved, (t.proc q).state = .zombie
    · -- it is awake already
      have hnow : alerted t moved = t.woken initproc := if_pos ⟨hsome, hwait⟩
      have hthen : alerted t (moved ++ [x]) = t.woken initproc := if_pos ⟨hsplit.mpr (.inl hsome), hwait⟩
      have hzero : ((t.woken initproc).proc initproc).waitState ≠ WT_CHILD := by
        rw [Sched.woken_proc_self, if_neg hasleep]
        show (0 : ℕ) ≠ WT_CHILD
        decide
      rw [hnow, hthen, if_neg hzero, ite_self]
      rfl
    · have hnow : alerted t moved = t := if_neg fun h => hsome h.1
      rw [hnow, if_pos hwait, Act.wp_ite]
      refine ⟨fun hz => ?_, fun hz => ?_⟩
      · have hthen : alerted t (moved ++ [x]) = t.woken initproc := if_pos ⟨hsplit.mpr (.inr hz), hwait⟩
        rw [hthen]
        exact Act.wp_mono (Sched.wp_wakeupProc_eq initproc t) (fun _ _ => id) fun _ hno => hno hcan
      · have hthen : alerted t (moved ++ [x]) = t := if_neg fun h => (hsplit.mp h.1).elim hsome hz
        exact hthen.symm
  · have hnow : ∀ l, alerted t l = t := fun l => if_neg fun h => hwait h.2
    rw [hnow, hnow, if_neg hwait, ite_self]
    rfl

/-! ## The loop -/

/-- What the loop needs of `initproc`. -/
structure Adopts (s : ProcSys) (kids : ℕ → List ℕ) : Prop where
  init : initproc ∈ s.procList
  ne : initproc ≠ s.sched.current
  notMem : initproc ∉ kids s.sched.current
  can : (s.sched.proc initproc).waitState = WT_CHILD →
    s.sched.CanWake initproc ∧ (s.sched.proc initproc).state ≠ .runnable

@[simp] theorem alerted_current {t : Sched} : (alerted t moved).current = t.current := by
  rw [alerted]
  split
  · exact Sched.woken_current
  · rfl

theorem Adopting.current_eq (h : Adopting s kids moved rest s') : s'.sched.current = s.sched.current := by
  obtain ⟨cptr, yptr, optr, rfl⟩ := h.state
  exact alerted_current

/-- The table with `x` in front of `initproc`'s children, and no longer the first of those of `current`. -/
def given (s : ProcSys) (x : ℕ) : ProcSys :=
  { s with
    parent := Function.update s.parent x (some initproc)
    cptr := Function.update (Function.update s.cptr s.sched.current (s.optr x)) initproc (some x)
    yptr := pushPrev s.yptr x (s.cptr initproc)
    optr := Function.update s.optr x (s.cptr initproc) }

/-- A turn is that, and the alarm. -/
theorem wp_adoptTurn_iff (hhead : s.cptr s.sched.current = some x) (hne : initproc ≠ s.sched.current)
    {Q : Unit ⊕ Unit → ProcSys → Prop} {E : Stop → Prop} :
    Act.wp adoptTurn Q E s ↔
      Act.wp (if (s.sched.proc x).state = .zombie then
          if (s.sched.proc initproc).waitState = WT_CHILD then Sched.wakeupProc initproc else pure ()
        else pure ()) (fun _ t => Q (.inl ()) { s.given x with sched := t }) E s.sched := by
  have hcptr : Function.update s.cptr s.sched.current (s.optr x) initproc = s.cptr initproc :=
    Function.update_of_ne hne ..
  simp only [adoptTurn, Act.wp_bind, Act.wp_get, Act.wp_modify, hhead, hcptr, Function.update_self]
  cases hc : s.cptr initproc with
  | none =>
    simp only [Act.wp_bind, Act.wp_get, Act.wp_modify, Act.wp_pure, Act.wp_ite, wp_onSched, given, hc, pushPrev]
  | some y =>
    simp only [Act.wp_bind, Act.wp_get, Act.wp_modify, Act.wp_pure, Act.wp_ite, wp_onSched, given, hc, pushPrev]

/-- The lists after it. -/
theorem Adopting.brood_given (h : Adopting s kids moved (x :: rest) s') (ha : Adopts s kids) :
    Brood (s'.given x).optr (s'.given x).yptr (s'.given x).cptr (fun p => s.Live p ∧ p ≠ s.sched.current)
      (movedKids kids s.sched.current (moved ++ [x]) rest) := by
  have hxrest : x ∉ rest := (List.nodup_cons.mp h.thread.nodup).1
  -- the others, without `x`
  have hless : Brood s'.optr s'.yptr (Function.update s'.cptr s.sched.current (s'.optr x))
      (fun p => s.Live p ∧ p ≠ s.sched.current) (movedKids kids s.sched.current moved rest) := by
    refine h.brood.mono (fun p hp => ⟨hp, Function.update_of_ne hp.2 .., ?_⟩) fun p q hq => ?_
    · rw [movedKids, movedKids, Function.update_of_ne hp.2, Function.update_of_ne hp.2]
    · rcases eq_or_ne p s.sched.current with rfl | hp
      · rw [movedKids_current] at hq ⊢
        exact List.mem_cons_of_mem x hq
      · rwa [movedKids, Function.update_of_ne hp] at hq ⊢
  have hnone : ∀ p, x ∉ movedKids kids s.sched.current moved rest p := fun p hp => by
    rcases eq_or_ne p s.sched.current with rfl | hne
    · rw [movedKids_current] at hp
      exact hxrest hp
    · refine hne (h.brood.disjoint p _ x ?_ (movedKids_current ▸ List.mem_cons_self))
      rwa [movedKids, Function.update_of_ne hne] at hp ⊢
  have hpush := hless.push ⟨.inr ha.init, ha.ne⟩ hnone
  rw [update_movedKids ha.ne, Function.update_of_ne ha.ne] at hpush
  rwa [given, h.current_eq]

/-- **One turn** moves the first of the children that are left. -/
theorem Adopting.wp_adoptTurn (h : Adopting s kids moved (x :: rest) s') (ha : Adopts s kids) :
    Act.wp adoptTurn (fun r s' => r = .inl () ∧ Adopting s kids (moved ++ [x]) rest s') (fun _ => False) s' := by
  have hcurrent := h.current_eq
  have hbrood := h.brood_given ha
  have hx : x ≠ initproc := fun heq => ha.notMem (h.all ▸ heq ▸ by simp)
  have hxrest : x ∉ rest := (List.nodup_cons.mp h.thread.nodup).1
  obtain ⟨hhead, hrest⟩ := h.thread
  have hsched : s'.sched = alerted s.sched moved := by
    obtain ⟨_, _, _, rfl⟩ := h.state
    rfl
  rw [wp_adoptTurn_iff (hcurrent ▸ hhead) (hcurrent ▸ ha.ne), hsched]
  refine Act.wp_mono (wp_alert hx ha.can) (fun _ t ht => ⟨rfl, ?_, ?_, ?_, hbrood⟩) fun _ => id
  · rw [← h.all, List.append_assoc, List.singleton_append]
  · refine ⟨(s'.given x).cptr, (s'.given x).yptr, (s'.given x).optr, ?_⟩
    obtain ⟨_, _, _, rfl⟩ := h.state
    subst ht
    have hparent : (fun q => if q ∈ moved ++ [x] then some initproc else s.parent q) =
        Function.update (fun q => if q ∈ moved then some initproc else s.parent q) x (some initproc) := by
      funext q
      rw [Function.update_apply]
      by_cases hq : q = x
      · rw [if_pos hq, if_pos (by simp [hq])]
      · simp [hq]
    rw [hparent]
    rfl
  · have hnext : (s'.given x).cptr s.sched.current = s'.optr x := by
      change Function.update (Function.update s'.cptr s'.sched.current (s'.optr x)) initproc (some x) _ = _
      rw [hcurrent, Function.update_of_ne ha.ne.symm, Function.update_self]
    change Thread (Function.update s'.optr x _) ((s'.given x).cptr s.sched.current) rest
    rw [hnext]
    exact hrest.congr fun y hy => Function.update_of_ne (ne_of_mem_of_not_mem hy hxrest) ..

/-- **The loop** moves them all. -/
theorem wp_adoptLoop (h : Family s kids) (ha : Adopts s kids) (hcur : s.Live s.sched.current)
    (hfuel : (kids s.sched.current).length < fuel) :
    Act.wp (Act.loop .spin (fun _ => adoptTurn) fuel ()) (fun _ s' => Adopting s kids (kids s.sched.current) [] s')
      (fun _ => False) s := by
  have hstart : Adopting s kids [] (kids s.sched.current) s := by
    refine ⟨rfl, ⟨s.cptr, s.yptr, s.optr, ?_⟩, (h.siblings _ hcur).thread, ?_⟩
    · rw [alerted, if_neg (by simp)]
      simp
    · have hkids : movedKids kids s.sched.current [] (kids s.sched.current) = kids := by
        rw [movedKids, List.reverse_nil, List.nil_append, Function.update_eq_self, Function.update_eq_self]
      rw [hkids]
      exact h.brood.mono (fun p hp => ⟨hp.1, rfl, rfl⟩) fun _ _ => id
  refine Act.wp_loop (fun n _ s' => ∃ moved rest, n = rest.length ∧ Adopting s kids moved rest s') ?_ fuel
    (kids s.sched.current).length _ _ ⟨_, _, rfl, hstart⟩ fun hle => absurd hfuel (not_lt.mpr hle)
  rintro n ⟨⟩ s' ⟨moved, rest, rfl, hnow⟩
  cases rest with
  | nil =>
    have hhead : s'.cptr s'.sched.current = none := hnow.current_eq ▸ hnow.thread
    rw [adoptTurn, Act.wp_bind, Act.wp_get, Act.wp_bind, Act.wp_get]
    rw [hhead, Act.wp_pure]
    have hall : moved = kids s.sched.current := by rw [← hnow.all, List.append_nil]
    exact hall ▸ hnow
  | cons x rest =>
    refine Act.wp_mono (hnow.wp_adoptTurn ha) (fun r s' hr => ?_) fun _ => False.elim
    obtain ⟨rfl, hr⟩ := hr
    exact ⟨rest.length, Nat.lt_succ_self _, _, _, rfl, hr⟩

/-! ## The family afterwards -/

/-- **They are `initproc`'s children now**, and the others are whose they were. -/
theorem Adopting.family (h : Adopting s kids (kids s.sched.current) [] s') (hf : Family s kids) (ha : Adopts s kids) :
    Family s' (movedKids kids s.sched.current (kids s.sched.current) []) := by
  have hbrood := h.brood
  have hthread := h.thread
  have hold : ∀ q, q ∈ kids s.sched.current ↔ q ∈ s.procList ∧ s.parent q = some s.sched.current := hf.mem _
  obtain ⟨_, _, _, rfl⟩ := h.state
  refine ⟨fun p hp => ?_, fun p q => ?_, fun q hq => ?_⟩
  · rcases eq_or_ne p s.sched.current with rfl | hne
    · rw [movedKids_current]
      exact ⟨hthread, trivial⟩
    · exact hbrood.siblings p ⟨hp, hne⟩
  · change _ ↔ q ∈ s.procList ∧ (if q ∈ kids s.sched.current then some initproc else s.parent q) = some p
    rcases eq_or_ne p s.sched.current with rfl | hcur
    · rw [movedKids_current]
      refine ⟨fun hno => absurd hno List.not_mem_nil, fun ⟨hq, hpar⟩ => ?_⟩
      split at hpar
      · exact absurd (Option.some.inj hpar) ha.ne
      · rename_i hnot
        exact absurd ((hold q).mpr ⟨hq, hpar⟩) hnot
    · rcases eq_or_ne p initproc with rfl | hinit
      · rw [movedKids_init ha.ne, List.mem_append, List.mem_reverse]
        have hfather := hf.mem initproc q
        split
        · rename_i hmem
          exact ⟨fun _ => ⟨((hold q).mp hmem).1, rfl⟩, fun _ => .inl hmem⟩
        · rename_i hnot
          exact ⟨fun h => hfather.mp (h.resolve_left hnot), fun h => .inr (hfather.mpr h)⟩
      · rw [movedKids_of_ne hcur hinit, hf.mem]
        split
        · rename_i hmem
          have hpar := ((hold q).mp hmem).2
          exact ⟨fun h => absurd (Option.some.inj (hpar.symm.trans h.2)).symm hcur,
            fun h => absurd (Option.some.inj h.2).symm hinit⟩
        · exact Iff.rfl
  · change ∃ p, (if q ∈ kids s.sched.current then some initproc else s.parent q) = some p ∧ _
    split
    · exact ⟨initproc, rfl, .inr ha.init⟩
    · exact hf.parent q hq

end UCore.ProcSys
