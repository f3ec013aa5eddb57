import UCore.Process.Orderly

/-!
# Process/Wait — a process is waited for

    do_wait ──▸ a zombie that matches      freed, with its identifier and its code
            ──▸ a child that matches       asleep, until a child exits or is given
            ──▸ no child that matches      -E_BAD_PROC
-/

namespace UCore.ProcSys

variable {s s' : ProcSys} {p q fuel : ℕ} {pid : ℤ} {kids : ℕ → List ℕ}

/-- The table after `p` has been freed. -/
def reaped (s : ProcSys) (p : ℕ) : ProcSys :=
  ((s.unhashProc p).unlinked p s.sched.current).setPc s.sched.current .running

/-- The table with the current process asleep for a child. -/
def waiting (s : ProcSys) (pid : ℤ) : ProcSys :=
  { s with
    sched := s.sched.modifyProc s.sched.current fun g => { g with state := .sleeping, waitState := WT_CHILD }
    pc := Function.update s.pc s.sched.current (.leaving (.wait pid)) }

/-- A child that `do_wait` may free. -/
structure Reapable (s : ProcSys) (kids : ℕ → List ℕ) (p : ℕ) : Prop where
  kid : p ∈ kids s.sched.current
  zombie : (s.sched.proc p).state = .zombie

/-- **What `do_wait` may come to.** -/
def Waited.Right (s : ProcSys) (kids : ℕ → List ℕ) (pid : ℤ) (s' : ProcSys) : Waited → Prop
  | .badProc => (∀ p ∈ kids s.sched.current, ¬ s.Matches pid p) ∧ s' = s.setPc s.sched.current .running
  | .asleep => s.Awaits (kids s.sched.current) pid ∧ s' = s.waiting pid
  | .reaped pid' code => ∃ p, Reapable s kids p ∧ s.Matches pid p ∧ pid' = s.pid p ∧ code = s.exitCode p ∧
      s' = s.reaped p

section

variable (h : Orderly s kids)

include h

/-- A child is in the list at one place. -/
theorem Reapable.split (hp : Reapable s kids p) :
    ∃ u v, kids s.sched.current = u ++ p :: v ∧ p ∉ u ∧ p ∉ v ∧ (kids s.sched.current).erase p = u ++ v := by
  obtain ⟨u, v, hkids⟩ := List.append_of_mem hp.kid
  have hnodup := (h.family.siblings _ h.current).nodup
  rw [hkids] at hnodup
  have hu : p ∉ u := fun hmem => (List.nodup_append.mp hnodup).2.2 p hmem p List.mem_cons_self rfl
  have hv : p ∉ v := (List.nodup_cons.mp (List.nodup_append.mp hnodup).2.1).1
  refine ⟨u, v, hkids, hu, hv, ?_⟩
  rw [hkids, List.erase_append_right _ hu, List.erase_cons_head]

theorem Reapable.mortal (hp : Reapable s kids p) : p ≠ idleproc ∧ p ≠ initproc := by
  refine ⟨fun heq => ?_, fun heq => ?_⟩
  · exact h.listed.idle (heq ▸ ((h.family.mem _ p).mp hp.kid).1)
  · exact h.initAlive (heq ▸ hp.zombie)

/-- **The end of `do_wait`** frees the child. -/
theorem Reapable.wp_reap (hp : Reapable s kids p) :
    Act.wp (reap p) (fun code s' => code = s.exitCode p ∧ s' = (s.unhashProc p).unlinked p s.sched.current)
      (fun _ => False) s := by
  obtain ⟨u, v, hkids, -, hv, -⟩ := hp.split h
  have hsib := h.family.siblings _ h.current
  rw [hkids] at hsib
  have hself : (s.unhashProc p).optr p ≠ some p := fun hno => by
    have hhead := hsib.fields.1.symm.trans hno
    exact hv (List.mem_of_head? hhead)
  have hpar : (s.unhashProc p).parent p = some s.sched.current := ((h.family.mem _ p).mp hp.kid).2
  rw [reap, Act.wp_bind, Act.wp_require]
  refine ⟨fun _ => ?_, fun hno => hno (hp.mortal h)⟩
  rw [Act.wp_bind, Act.wp_get, Act.wp_bind, Act.wp_modify, Act.wp_bind, wp_removeLinks hpar hself, Act.wp_pure]
  exact ⟨rfl, rfl⟩

/-- **One pass of `do_wait`.** -/
theorem Orderly.wp_waitPass (hfuel : Pid.MAX_PROCESS ≤ fuel) :
    Act.wp (waitPass fuel pid) (fun r s' => r.Right s kids pid s') (fun _ => False) s := by
  rw [waitPass, Act.wp_bind, Act.wp_get, Act.wp_bind]
  refine Act.wp_mono (h.family.wp_findChild h.listed h.current ((h.kids_length_lt _).trans_le hfuel))
    (fun r s' hr => ?_) fun _ => id
  obtain ⟨rfl, hr⟩ := hr
  cases r with
  | nobody =>
    rw [Act.wp_bind, Act.wp_modify, Act.wp_pure]
    exact ⟨hr, rfl⟩
  | busy =>
    rw [Act.wp_bind, wp_onSched, Sched.waitSection, Act.wp_modify, Act.wp_bind, Act.wp_modify, Act.wp_pure]
    exact ⟨hr, rfl⟩
  | child p =>
    obtain ⟨hkid, hm, hz⟩ := hr
    have hp : Reapable s' kids p := ⟨hkid, hz⟩
    rw [Act.wp_bind, Act.wp_get, Act.wp_bind]
    refine Act.wp_mono (hp.wp_reap h) (fun code s'' hs'' => ?_) fun _ => id
    obtain ⟨rfl, rfl⟩ := hs''
    rw [Act.wp_bind, Act.wp_modify, Act.wp_pure]
    exact ⟨p, hp, hm, rfl, rfl, rfl⟩

/-! ## The table afterwards -/

theorem Listed.reaped (hp : Reapable s kids p) : Listed (s.reaped p) := by
  have hl := h.listed
  have hmem := ((h.family.mem _ p).mp hp.kid).1
  have hsub : ∀ q ∈ s.procList.erase p, q ∈ s.procList := fun q => List.mem_of_mem_erase
  have hlen := List.length_erase_of_mem hmem
  have hpos : 1 ≤ s.procList.length := List.length_pos_of_mem hmem
  have hcount := hl.count
  have hle := hl.le
  refine ⟨hl.nodup.erase p, fun hno => hl.idle (hsub _ hno), ?_, (Nat.sub_le _ _).trans hle, fun q hq => hl.pid q (hsub q hq),
    fun q hq q' hq' => hl.inj q (hsub q hq) q' (hsub q' hq'), ⟨fun x hx => ?_, hl.gap.le⟩, fun x q => ?_,
    fun x => (hl.hashNodup x).erase p⟩
  · change s.nrProcess - 1 = (s.procList.erase p).length + 1
    omega
  · refine hl.gap.free x ?_
    obtain ⟨q, hq, heq⟩ := List.mem_map.mp hx
    exact List.mem_map.mpr ⟨q, hsub q hq, heq⟩
  · change q ∈ (s.hashList x).erase p ↔ q ∈ s.procList.erase p ∧ pidHashfn (s.pid q) = x
    rw [(hl.hashNodup x).mem_erase_iff, hl.nodup.mem_erase_iff, hl.hash, and_assoc]

theorem Family.reaped (hp : Reapable s kids p) :
    Family (s.reaped p) (Function.update kids s.sched.current ((kids s.sched.current).erase p)) := by
  have hf := h.family
  obtain ⟨u, v, hkids, hu, hv, herase⟩ := hp.split h
  have hparent := ((hf.mem _ p).mp hp.kid).2
  have hdrop := hf.brood.drop h.current hkids
  rw [herase]
  have hlive : ∀ q, (s.reaped p).Live q → s.Live q := fun q => Or.imp_right List.mem_of_mem_erase
  refine ⟨fun q hq => hdrop.siblings q (hlive q hq), fun q x => ?_, fun q hq => ?_⟩
  · change _ ↔ x ∈ s.procList.erase p ∧ s.parent x = some q
    rw [h.listed.nodup.mem_erase_iff, and_assoc, ← hf.mem]
    rcases eq_or_ne q s.sched.current with rfl | hq
    · rw [Function.update_self, hkids, ← herase, hkids]
      have hnodup := (hf.siblings _ h.current).nodup
      rw [hkids] at hnodup
      exact hnodup.mem_erase_iff
    · rw [Function.update_of_ne hq]
      refine ⟨fun hx => ⟨fun heq => hq ?_, hx⟩, fun hx => hx.2⟩
      exact Option.some.inj ((heq ▸ (hf.mem q x).mp hx).2.symm.trans hparent)
  · obtain ⟨q', hq', hlive'⟩ := hf.parent q (List.mem_of_mem_erase hq)
    have hne : q' ≠ p := fun heq => by
      have hmem : q ∈ kids p := (hf.mem p q).mpr ⟨List.mem_of_mem_erase hq, heq ▸ hq'⟩
      exact h.parent_not_zombie (heq ▸ hlive') hmem hp.zombie
    exact ⟨q', hq', hlive'.imp_right fun hmem => (List.mem_erase_of_ne hne).mpr hmem⟩

/-- **A process that is freed leaves the table in order…** -/
theorem Orderly.reaped (hp : Reapable s kids p) (hawake : (s.sched.proc s.sched.current).Awake) :
    Orderly (s.reaped p) (Function.update kids s.sched.current ((kids s.sched.current).erase p)) := by
  have hlive : ∀ q, (s.reaped p).Live q → s.Live q := fun q => Or.imp_right List.mem_of_mem_erase
  have hkeep : ∀ q, q ≠ p → s.Live q → (s.reaped p).Live q := fun q hne =>
    Or.imp_right (List.mem_erase_of_ne hne).mpr
  have hcur : s.sched.current ≠ p := fun heq => by
    have hz := hp.zombie
    rw [← heq, hawake.1] at hz
    exact nomatch hz
  refine ⟨⟨Listed.reaped h hp, Family.reaped h hp, fun q hq => h.rooted q (hlive q hq), ⟨h.queue.nodup, fun q => ?_⟩,
    fun q hq => ?_, hkeep _ hcur h.current, fun q hq => ?_, ?_, h.idlePid⟩,
    (List.mem_erase_of_ne (hp.mortal h).2.symm).mpr h.init, h.initPid, h.initParent, h.initAlive⟩
  · change q ∈ s.sched.runList ↔ q ∈ s.procList.erase p ∧ (s.sched.proc q).state = .runnable ∧ q ≠ s.sched.current
    rw [h.queue.mem, h.listed.nodup.mem_erase_iff, and_assoc]
    refine ⟨fun hq => ⟨fun heq => ?_, hq⟩, fun hq => hq.2⟩
    have hrun := hq.2.1
    rw [heq, hp.zombie] at hrun
    exact nomatch hrun
  · change Standing (s.sched.proc q) _ _ (Function.update s.pc s.sched.current .running q)
    rcases eq_or_ne q s.sched.current with rfl | hne
    · rw [Function.update_self (f := s.pc)]
      exact hawake
    · rw [Function.update_of_ne hne, Function.update_of_ne hne]
      exact h.standing q (hlive q hq)
  · change (Function.update s.pc s.sched.current .running q).Away ↔ q ≠ s.sched.current
    rcases eq_or_ne q s.sched.current with rfl | hne
    · rw [Function.update_self]
      exact ⟨False.elim, fun hno => absurd rfl hno⟩
    · rw [Function.update_of_ne hne]
      exact h.place q (hlive q hq)
  · rcases eq_or_ne idleproc s.sched.current with heq | hne
    · exact .inl (heq ▸ Function.update_self ..)
    · have hsame : (s.reaped p).pc idleproc = s.pc idleproc := Function.update_of_ne hne ..
      rw [hsame]
      exact h.idle

/-- …and so does one that goes to sleep for a child. -/
theorem Orderly.waiting (hw : s.Awaits (kids s.sched.current) pid) (hne : s.sched.current ≠ idleproc) :
    Orderly (s.waiting pid) kids :=
  h.stand id (fun hno => nomatch hno) (fun heq => absurd heq hne) (.inr ⟨rfl, rfl, hw⟩)

end

end UCore.ProcSys
