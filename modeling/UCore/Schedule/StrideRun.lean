import UCore.Schedule.Stride

/-!
# Schedule/StrideRun — stride scheduling of a fixed set is proportional for ever

Processes that are all runnable start with equal strides, and each round picks one, takes it out of
the heap and puts it back.  After any number of rounds the exact stride of `p` is

    σ + cnt p * (BIG_STRIDE / priority p)

and the spread bounds what two processes can be apart, however often the stored strides have wrapped.
-/

namespace UCore.Stride

open SkewTree BinaryTree SkewHeap

variable {U : ℕ → ℕ} {s s' : StrideRq} {t : BinaryTree ℕ} {ps picks : List ℕ} {p q k σ depth : ℕ}

/-- The run queue is set up and the processes are enqueued. -/
def strideStart (depth : ℕ) (ps : List ℕ) : Call Unit := do
  strideInit
  ps.forM (strideEnqueue depth)

/-- One round of `schedule`: a pick, its dequeue, and its enqueue before the next pick. -/
def strideRound (depth : ℕ) : Call (Option ℕ) := do
  match ← stridePickNext with
  | none => return none
  | some p => do
    strideDequeue depth p
    strideEnqueue depth p
    return some p

/-- Some rounds; the result is the picks, first to last. -/
def strideRounds (depth : ℕ) : ℕ → Call (List ℕ)
  | 0 => return []
  | k + 1 => do
    let picks ← strideRounds depth k
    match ← strideRound depth with
    | none => return picks
    | some p => return picks ++ [p]

/-- The exact strides after some picks. -/
def exact (proc : ℕ → StrideProc) (picks : List ℕ) (p : ℕ) : ℕ :=
  (proc p).stride + picks.count p * pass (proc p).priority

theorem exact_concat (proc : ℕ → StrideProc) (picks : List ℕ) (p : ℕ) :
    exact proc (picks ++ [p]) = picked (exact proc picks) proc p := by
  funext q
  rw [picked, Function.update_apply, exact, exact, List.count_append, List.count_singleton]
  simp only [beq_iff_eq]
  split
  · next hq =>
    subst hq
    rw [if_pos rfl]
    ring
  · next hq => rw [if_neg (Ne.symm hq), Nat.add_zero]; rfl

/-- **The queue of a fixed set**: all of its processes, with exact strides that are close. -/
structure Fixed (proc : ℕ → StrideProc) (ps picks : List ℕ) (s : StrideRq) : Prop where
  pool : ∃ t, Pool (exact proc picks) s t ∧ (nodes t).Perm ps
  wraps : Wraps (exact proc picks) s.proc
  spread : Spread (exact proc picks) ps
  priority : ∀ p, (s.proc p).priority = (proc p).priority
  mem : ∀ p ∈ picks, p ∈ ps

/-- Without picks the exact strides are the strides. -/
theorem exact_nil (proc : ℕ → StrideProc) (p : ℕ) : exact proc [] p = (proc p).stride := by
  simp [exact]

theorem wraps_exact_nil (proc : ℕ → StrideProc) : Wraps (exact proc []) proc := fun p => by
  rw [exact_nil, Nat.mod_eq_of_lt (proc p).stride_lt]

theorem length_of_perm {t : BinaryTree ℕ} (h : (nodes t).Perm ps) : t.numNodes = ps.length := by
  rw [← length_nodes, h.length_eq]

/-- The processes are enqueued one after the other. -/
theorem wp_forM_enqueue (ps qs : List ℕ) (hpool : Pool U s t) (hw : Wraps U s.proc)
    (hperm : (nodes t).Perm ps) (hnd : (qs.reverse ++ ps).Nodup) (hsp : Spread U (qs.reverse ++ ps))
    (hdepth : qs.length + ps.length < depth) :
    Act.wp (qs.forM (strideEnqueue depth))
      (fun _ s' => SameStrides s s' ∧ ∃ t', Pool U s' t' ∧ (nodes t').Perm (qs.reverse ++ ps))
      (fun _ => False) s := by
  induction qs generalizing s t ps with
  | nil => exact ⟨fun _ => ⟨rfl, rfl⟩, t, hpool, hperm⟩
  | cons q qs ih =>
    rw [List.reverse_cons, List.append_assoc, List.singleton_append] at hnd hsp ⊢
    have hsub : q :: ps ⊆ qs.reverse ++ q :: ps := List.subset_append_right _ _
    obtain ⟨hq, -⟩ := List.nodup_cons.mp (List.nodup_append.mp hnd).2.1
    have hqt : q ∉ nodes t := fun hmem => hq (hperm.subset hmem)
    have hspq : Spread U (q :: nodes t) :=
      hsp.subset fun x hx => hsub ((hperm.cons q).subset hx)
    rw [List.length_cons] at hdepth
    change Act.wp (do strideEnqueue depth q; qs.forM (strideEnqueue depth)) _ _ s
    rw [Act.wp_bind]
    refine Act.wp_mono (wp_strideEnqueue hpool hw hqt hspq (by rw [length_of_perm hperm]; omega))
      (fun _ s₁ ⟨hs₁, t₁, hpool₁, hperm₁⟩ => ?_) fun _ => id
    refine Act.wp_mono (ih (q :: ps) hpool₁ (hw.congr hs₁) (hperm₁.trans (hperm.cons q)) hnd hsp
      (by rw [List.length_cons]; omega)) (fun _ s₂ ⟨hs₂, h⟩ => ⟨fun p => ?_, h⟩) fun _ => id
    exact ⟨(hs₂ p).1.trans (hs₁ p).1, (hs₂ p).2.trans (hs₁ p).2⟩

/-- Start-up leaves all the processes queued, with the strides they came with. -/
theorem wp_strideStart (hnd : ps.Nodup) (hσ : ∀ p ∈ ps, (s.proc p).stride = σ)
    (hdepth : ps.length < depth) :
    Act.wp (strideStart depth ps) (fun _ s' => Fixed s.proc ps [] s') (fun _ => False) s := by
  have hsp : Spread (exact s.proc []) ps := fun p hp q hq => by
    rw [exact_nil, exact_nil, hσ p hp, hσ q hq]
    exact Nat.le_add_right ..
  have hrev : ps.reverse.Perm ps := ps.reverse_perm
  rw [strideStart, Act.wp_bind, strideInit, Act.wp_modify]
  have hempty : Pool (exact s.proc []) { s with runPool := none, procNum := 0 } .nil :=
    ⟨rfl, fun c hc => absurd hc (Option.not_mem_none c), List.nodup_nil, trivial⟩
  refine Act.wp_mono (wp_forM_enqueue [] ps hempty (wraps_exact_nil s.proc) (.refl _)
    (by simpa using hnd) (hsp.subset fun p hp => hrev.subset (by simpa using hp))
    (by simpa using hdepth)) (fun _ s' ⟨hs, t, ht, hperm⟩ => ?_) fun _ => id
  rw [List.append_nil] at hperm
  exact ⟨⟨t, ht, hperm.trans hrev⟩, (wraps_exact_nil s.proc).congr hs, hsp, fun p => (hs p).2,
    fun p hp => absurd hp List.not_mem_nil⟩

/-- **One round** picks a process whose exact stride is least, and leaves the set queued. -/
theorem wp_strideRound {proc : ℕ → StrideProc} (h : Fixed proc ps picks s) (hne : ps ≠ [])
    (hdepth : ps.length < depth) :
    Act.wp (strideRound depth)
      (fun o s' => ∃ p, o = some p ∧ Fixed proc ps (picks ++ [p]) s') (fun _ => False) s := by
  obtain ⟨t, ht, hperm⟩ := h.pool
  have hlen := length_of_perm hperm
  have hsp : Spread (exact proc picks) (nodes t) := h.spread.subset hperm.subset
  let f : Option ℕ → Call (Option ℕ) := fun o => match o with
    | none => return none
    | some p => do
      strideEnqueue depth p
      return some p
  refine wp_pick (f := f) ht h.wraps hsp (hlen ▸ hdepth) (fun htn => ?_)
    fun p s₁ hp hmin hprio hw hpool => ?_
  · subst htn
    exact absurd hperm.nil_eq.symm hne
  · obtain ⟨t₁, ht₁, hperm₁⟩ := hpool
    have hpick : picked (exact proc picks) s.proc p = exact proc (picks ++ [p]) := by
      rw [exact_concat, picked, picked, h.priority]
    rw [hpick] at ht₁ hw
    have hsp' : Spread (exact proc (picks ++ [p])) ps :=
      hpick ▸ h.spread.picked fun q hq => hmin q (hperm.symm.subset hq)
    have hlen₁ : t₁.numNodes + 1 = ps.length := by
      rw [← length_nodes, ← List.length_cons (a := p), hperm₁.length_eq, hperm.length_eq]
    have hnot : p ∉ nodes t₁ := (List.nodup_cons.mp (hperm₁.nodup_iff.mpr ht.nodup)).1
    change Act.wp (do strideEnqueue depth p; return some p) _ _ s₁
    rw [Act.wp_bind]
    refine Act.wp_mono (wp_strideEnqueue ht₁ hw hnot
      (hsp'.subset fun q hq => hperm.subset (hperm₁.subset hq)) (hlen₁ ▸ hdepth))
      (fun _ s₂ hpool => ?_) fun _ => id
    obtain ⟨hs₂, t₂, ht₂, hperm₂⟩ := hpool
    refine ⟨p, rfl, ⟨t₂, ht₂, hperm₂.trans (hperm₁.trans hperm)⟩, hw.congr hs₂, hsp', fun q => ?_, fun q hq => ?_⟩
    · rw [(hs₂ q).2, hprio q, h.priority q]
    · rcases List.mem_append.mp hq with hq | hq
      · exact h.mem q hq
      · exact List.mem_singleton.mp hq ▸ hperm.subset hp

/-- **Any number of rounds.** -/
theorem wp_strideRounds {proc : ℕ → StrideProc} (h : Fixed proc ps [] s) (hne : ps ≠ [])
    (hdepth : ps.length < depth) (k : ℕ) :
    Act.wp (strideRounds depth k)
      (fun picks s' => picks.length = k ∧ Fixed proc ps picks s') (fun _ => False) s := by
  induction k with
  | zero => exact ⟨rfl, h⟩
  | succ k ih =>
    rw [strideRounds, Act.wp_bind]
    refine Act.wp_mono ih (fun picks s₁ ⟨hlen, h₁⟩ => ?_) fun _ => id
    rw [Act.wp_bind]
    refine Act.wp_mono (wp_strideRound h₁ hne hdepth) (fun o s₂ ⟨p, ho, h₂⟩ => ?_) fun _ => id
    subst ho
    exact ⟨by rw [List.length_append, hlen, List.length_singleton], h₂⟩

/-- **Stride scheduling is proportional-share for ever.**  For every nonempty set of processes with
equal strides and priorities of at least one, and every number of rounds: the rounds run, the stored
strides are the exact ones modulo `2 ^ 32`, these are never more than `BIG_STRIDE` apart, the
comparison orders the processes as they do, the next pick is a process whose exact stride is least,
and what two processes have been given differs by at most `BIG_STRIDE`. -/
theorem stride_proportional (hne : ps ≠ []) (hnd : ps.Nodup)
    (hσ : ∀ p ∈ ps, (s.proc p).stride = σ) (hprio : ∀ p ∈ ps, 1 ≤ (s.proc p).priority)
    (hdepth : ps.length < depth) (k : ℕ) :
    ∃ picks s', (do strideStart depth ps; strideRounds depth k) s = .ok (picks, s') ∧
      picks.length = k ∧ (∀ p ∈ picks, p ∈ ps) ∧
      let U := fun p => σ + picks.count p * (BIG_STRIDE / (s.proc p).priority)
      (∀ p ∈ ps, (s'.proc p).stride = U p % 2 ^ 32) ∧
      (∀ p ∈ ps, ∀ q ∈ ps, U p ≤ U q + BIG_STRIDE) ∧
      (∀ p ∈ ps, ∀ q ∈ ps, procStrideComp s'.proc p q = ((U p : ℤ) - U q).sign) ∧
      (∃ p s'', stridePickNext s' = .ok (some p, s'') ∧ p ∈ ps ∧ ∀ q ∈ ps, U p ≤ U q) ∧
      ∀ p ∈ ps, ∀ q ∈ ps, |(picks.count p * (BIG_STRIDE / (s.proc p).priority) : ℕ) -
        ((picks.count q * (BIG_STRIDE / (s.proc q).priority) : ℕ) : ℤ)| ≤ BIG_STRIDE := by
  have hwp : Act.wp (do strideStart depth ps; strideRounds depth k)
      (fun picks s' => picks.length = k ∧ Fixed s.proc ps picks s') (fun _ => False) s := by
    rw [Act.wp_bind]
    exact Act.wp_mono (wp_strideStart hnd hσ hdepth)
      (fun _ s₁ h => wp_strideRounds h hne hdepth k) fun _ => id
  obtain ⟨picks, s', hrun, hlen, h⟩ := Act.wp_false_iff.mp hwp
  have hU : ∀ p ∈ ps, exact s.proc picks p =
      σ + picks.count p * (BIG_STRIDE / (s.proc p).priority) := fun p hp => by
    rw [exact, hσ p hp, pass, if_pos (Nat.succ_le_iff.mp (hprio p hp))]
  have hsp : ∀ p ∈ ps, ∀ q ∈ ps, σ + picks.count p * (BIG_STRIDE / (s.proc p).priority) ≤
      σ + picks.count q * (BIG_STRIDE / (s.proc q).priority) + BIG_STRIDE := fun p hp q hq => by
    rw [← hU p hp, ← hU q hq]
    exact h.spread p hp q hq
  refine ⟨picks, s', hrun, hlen, h.mem, fun p hp => ?_, hsp, fun p hp q hq => ?_, ?_,
    fun p hp q hq => ?_⟩
  · rw [h.wraps p, hU p hp]
  · dsimp only
    rw [← hU p hp, ← hU q hq]
    exact procStrideComp_eq h.wraps (h.spread p hp q hq) (h.spread q hq p hp)
  · obtain ⟨t, ht, hperm⟩ := h.pool
    obtain ⟨o, s'', hpick, hpost⟩ := Act.wp_false_iff.mp (wp_stridePickNext ht h.wraps)
    cases o with
    | none =>
      obtain ⟨rfl, -⟩ := hpost
      exact absurd hperm.nil_eq.symm hne
    | some p =>
      obtain ⟨l, r, rfl, hmin, -⟩ := hpost
      have hp : p ∈ ps := hperm.subset List.mem_cons_self
      refine ⟨p, s'', hpick, hp, fun q hq => ?_⟩
      dsimp only
      rw [← hU p hp, ← hU q hq]
      exact hmin q (hperm.symm.subset hq)
  · have hpq := hsp p hp q hq
    have hqp := hsp q hq p hp
    rw [abs_le]
    omega

/-- Two processes with priorities one and two, both at stride zero. -/
def twoProcs : StrideRq where
  pool _ := ⟨none, none, none⟩
  runPool := none
  procNum := 0
  maxTimeSlice := 5
  proc p := ⟨0, stride_zero_lt, p, 0⟩

/-- After a thousand rounds of two processes the spread is what it was after the first. -/
theorem stride_proportional_two : ∃ picks s',
    (do strideStart 3 [1, 2]; strideRounds 3 1000) twoProcs = .ok (picks, s') ∧
      picks.length = 1000 ∧ |(picks.count 1 * (BIG_STRIDE / 1) : ℕ) -
        ((picks.count 2 * (BIG_STRIDE / 2) : ℕ) : ℤ)| ≤ BIG_STRIDE := by
  obtain ⟨picks, s', hrun, hlen, -, -, -, -, -, hcnt⟩ :=
    @stride_proportional twoProcs [1, 2] 0 3 (by decide) (by decide) (by decide) (by decide)
      (by decide) 1000
  exact ⟨picks, s', hrun, hlen, hcnt 1 (by decide) 2 (by decide)⟩

end UCore.Stride
