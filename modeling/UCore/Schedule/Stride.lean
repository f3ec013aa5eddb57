import UCore.Libs.SkewHeap

/-!
# Schedule/Stride — the stride scheduler class

`kern/schedule/default_sched_stride.c` of lab 6, with the skew heap.  A stride is a `uint32_t` that
wraps, and two strides are compared by the sign of their difference as an `int32_t`; behind each
stride stands the exact value `U p` that it would have without wrapping.

    stride p = U p mod 2³²        comp p q = sign (U p - U q)   while  |U p - U q| ≤ BIG_STRIDE

`pick_next` raises the stride of the root while the root is still in the heap; `dequeue` of the root
then looks at its children only.
-/

namespace UCore

open SkewTree BinaryTree SkewHeap

/-- `BIG_STRIDE`. -/
abbrev BIG_STRIDE : ℕ := 0x7FFFFFFF

/-- The fields of `struct proc_struct` that the class reads and writes. -/
structure StrideProc where
  stride : ℕ
  stride_lt : stride < 2 ^ 32
  priority : ℕ
  timeSlice : ℤ

theorem stride_zero_lt : 0 < 2 ^ 32 := by norm_num

/-- The run queue, with the heap entries and the fields of the processes. -/
structure StrideRq where
  pool : ℕ → SkewHeapEntry ℕ
  runPool : Option ℕ
  procNum : ℕ
  maxTimeSlice : ℤ
  proc : ℕ → StrideProc

namespace Stride

/-- A call of the class. -/
abbrev Call (α : Type) := Act StrideRq Stop α

/-- A call of the skew heap. -/
def onPool {α : Type} (m : SkewHeap.Call ℕ α) : Call α :=
  Act.zoom (fun s : StrideRq => s.pool) (fun pool s => { s with pool := pool }) m

/-- Change the fields of one process. -/
def modifyProc (s : StrideRq) (p : ℕ) (f : StrideProc → StrideProc) : StrideRq :=
  { s with proc := Function.update s.proc p (f (s.proc p)) }

/-- `proc_stride_comp_f`. -/
def procStrideComp (proc : ℕ → StrideProc) (p q : ℕ) : ℤ :=
  let c := toS32 ((proc p).stride - (proc q).stride)
  if 0 < c then 1 else if c = 0 then 0 else -1

/-- `stride_init`. -/
def strideInit : Call Unit := modify fun s => { s with runPool := none, procNum := 0 }

/-- `stride_enqueue`. -/
def strideEnqueue (depth p : ℕ) : Call Unit := do
  let s ← get
  let runPool ← onPool (skewHeapInsert (procStrideComp s.proc) depth s.runPool p)
  modify fun s => { s with runPool := runPool }
  let g := (← get).proc p
  if g.timeSlice = 0 ∨ (← get).maxTimeSlice < g.timeSlice then
    modify fun s => modifyProc s p fun g => { g with timeSlice := s.maxTimeSlice }
  modify fun s => { s with procNum := u32 (s.procNum + 1) }

/-- `stride_dequeue`. -/
def strideDequeue (depth p : ℕ) : Call Unit := do
  let s ← get
  let runPool ← onPool (skewHeapRemove (procStrideComp s.proc) depth s.runPool p)
  modify fun s => { s with runPool := runPool, procNum := u32 (s.procNum + (2 ^ 32 - 1)) }

/-- What a pick adds to the stride. -/
def pass (priority : ℕ) : ℕ := if 0 < priority then BIG_STRIDE / priority else BIG_STRIDE

theorem raised_lt (g : StrideProc) : u32 (g.stride + pass g.priority) < 2 ^ 32 := u32_lt _

/-- `stride_pick_next`. -/
def stridePickNext : Call (Option ℕ) := do
  match (← get).runPool with
  | none => return none
  | some p => do
    modify fun s => modifyProc s p fun g =>
      { g with stride := u32 (g.stride + pass g.priority), stride_lt := raised_lt g }
    return some p

theorem modifyProc_proc (s : StrideRq) (p q : ℕ) (f : StrideProc → StrideProc) :
    (modifyProc s p f).proc q = if q = p then f (s.proc p) else s.proc q :=
  Function.update_apply ..

/-! ## Strides without wrapping -/

variable {U U' : ℕ → ℕ} {s s' : StrideRq} {t l r : BinaryTree ℕ} {ps qs : List ℕ} {p q depth : ℕ}

/-- `U` is what the strides would be if they did not wrap. -/
def Wraps (U : ℕ → ℕ) (proc : ℕ → StrideProc) : Prop := ∀ p, (proc p).stride = U p % 2 ^ 32

/-- **The spread**: no two exact strides are more than `BIG_STRIDE` apart. -/
def Spread (U : ℕ → ℕ) (ps : List ℕ) : Prop := ∀ p ∈ ps, ∀ q ∈ ps, U p ≤ U q + BIG_STRIDE

theorem Spread.subset (h : Spread U ps) (hqs : qs ⊆ ps) : Spread U qs := fun p hp q hq =>
  h p (hqs hp) q (hqs hq)

/-- The spread of exact strides is all that the comparison needs. -/
theorem toS32_stride {proc : ℕ → StrideProc} (h : Wraps U proc) (hpq : U p ≤ U q + BIG_STRIDE)
    (hqp : U q ≤ U p + BIG_STRIDE) :
    toS32 ((proc p).stride - (proc q).stride) = (U p : ℤ) - U q := by
  change U p ≤ U q + 2147483647 at hpq
  change U q ≤ U p + 2147483647 at hqp
  rw [h p, h q, toS32, Int.bmod_def]
  split <;> omega

/-- **`proc_stride_comp_f` compares the exact strides.** -/
theorem procStrideComp_eq {proc : ℕ → StrideProc} (h : Wraps U proc)
    (hpq : U p ≤ U q + BIG_STRIDE) (hqp : U q ≤ U p + BIG_STRIDE) :
    procStrideComp proc p q = ((U p : ℤ) - U q).sign := by
  rw [procStrideComp, toS32_stride h hpq hqp]
  split
  · next hpos => exact (Int.sign_eq_one_of_pos hpos).symm
  · next hpos =>
    split
    · next hzero => rw [hzero, Int.sign_zero]
    · next hzero => exact (Int.sign_eq_neg_one_of_neg (by omega)).symm

/-- What the merge loop asks is answered by the exact strides. -/
theorem before_iff {proc : ℕ → StrideProc} (h : Wraps U proc) (hps : Spread U ps) (hp : p ∈ ps)
    (hq : q ∈ ps) : before (procStrideComp proc) p q = true ↔ U p < U q := by
  rw [before, decide_eq_true_iff, procStrideComp_eq h (hps p hp q hq) (hps q hq p hp),
    Int.sign_eq_neg_one_iff_neg]
  omega

/-- The order of the heap. -/
abbrev Le (U : ℕ → ℕ) (p q : ℕ) : Prop := U p ≤ U q

/-- **The run pool**: a heap of the exact strides. -/
structure Pool (U : ℕ → ℕ) (s : StrideRq) (t : BinaryTree ℕ) : Prop where
  tree : IsTree s.pool s.runPool t
  root : ∀ c ∈ s.runPool, (s.pool c).parent = none
  nodup : (nodes t).Nodup
  heap : Heap (Le U) t

/-- Merging keeps the heap while the spread is small. -/
theorem heap_merge {proc : ℕ → StrideProc} {a b : BinaryTree ℕ} (h : Wraps U proc)
    (hps : Spread U (nodes a ++ nodes b)) (ha : Heap (Le U) a) (hb : Heap (Le U) b) :
    Heap (Le U) (merge (before (procStrideComp proc)) a b) := by
  refine SkewTree.heap_merge (fun _ _ _ => le_trans) ha hb fun x hx y hy => ?_
  have hxy := before_iff h hps (List.mem_append_left _ hx) (List.mem_append_right _ hy)
  split
  · next hb => exact (hxy.mp hb).le
  · next hb => exact not_lt.mp fun hlt => hb (hxy.mpr hlt)

/-- What a call leaves of the processes: all but time slices. -/
def SameStrides (s s' : StrideRq) : Prop :=
  ∀ p, (s'.proc p).stride = (s.proc p).stride ∧ (s'.proc p).priority = (s.proc p).priority

theorem Wraps.congr (h : Wraps U s.proc) (hs : SameStrides s s') : Wraps U s'.proc := fun p =>
  (hs p).1.trans (h p)

/-! ## The calls -/

/-- **`stride_enqueue`** puts the process into the heap. -/
theorem wp_strideEnqueue (ht : Pool U s t) (hw : Wraps U s.proc) (hp : p ∉ nodes t)
    (hps : Spread U (p :: nodes t)) (hdepth : t.numNodes + 1 < depth) :
    Act.wp (strideEnqueue depth p)
      (fun _ s' => SameStrides s s' ∧ ∃ t', Pool U s' t' ∧ (nodes t').Perm (p :: nodes t))
      (fun _ => False) s := by
  have hnd : (p :: nodes t).Nodup := List.nodup_cons.mpr ⟨hp, ht.nodup⟩
  have hperm : (nodes t ++ [p]).Perm (p :: nodes t) := List.perm_append_singleton p _
  rw [strideEnqueue, Act.wp_bind, Act.wp_get, Act.wp_bind, onPool, Act.wp_zoom]
  refine Act.wp_mono (wp_skewHeapInsert ht.tree ht.root hnd hdepth) (fun p' m h => ?_) fun _ => id
  obtain ⟨htree, hroot, -⟩ := h
  have hnodes := (nodes_merge (before (procStrideComp s.proc)) t (.node p .nil .nil)).trans hperm
  have hheap : Heap (Le U) (merge (before (procStrideComp s.proc)) t (.node p .nil .nil)) :=
    heap_merge hw (hps.subset fun q hq => hperm.subset hq) ht.heap ⟨by simp, trivial, trivial⟩
  have hpool : ∀ proc n, Pool U { s with pool := m, runPool := p', proc := proc, procNum := n }
      (merge (before (procStrideComp s.proc)) t (.node p .nil .nil)) := fun proc n =>
    ⟨htree, hroot, hnodes.nodup_iff.mpr hnd, hheap⟩
  simp only [Act.wp_bind, Act.wp_modify, Act.wp_get, Act.wp_ite, modifyProc]
  refine ⟨fun _ => ⟨fun q => ?_, _, hpool _ _, hnodes⟩, fun _ => ⟨fun q => ⟨rfl, rfl⟩, _, hpool _ _,
    hnodes⟩⟩
  dsimp only
  rw [Function.update_apply]
  split
  · next hq => exact hq ▸ ⟨rfl, rfl⟩
  · exact ⟨rfl, rfl⟩

/-- The exact strides after `p` was picked. -/
def picked (U : ℕ → ℕ) (proc : ℕ → StrideProc) (p : ℕ) : ℕ → ℕ :=
  Function.update U p (U p + pass (proc p).priority)

/-- **`stride_pick_next`** takes the root, whose exact stride is least, and raises it in place. -/
theorem wp_stridePickNext (ht : Pool U s t) (hw : Wraps U s.proc) :
    Act.wp stridePickNext
      (fun r s' => match r with
        | none => t = .nil ∧ s' = s
        | some p => ∃ l r, t = .node p l r ∧ (∀ q ∈ nodes t, U p ≤ U q) ∧ s'.pool = s.pool ∧
          s'.runPool = s.runPool ∧ Wraps (picked U s.proc p) s'.proc ∧
          ∀ q, (s'.proc q).priority = (s.proc q).priority)
      (fun _ => False) s := by
  rw [stridePickNext, Act.wp_bind, Act.wp_get]
  cases t with
  | nil =>
    have hnone : s.runPool = none := ht.tree
    rw [hnone]
    exact ⟨rfl, rfl⟩
  | node p l r =>
    have hp : s.runPool = some p := ht.tree.1
    rw [hp]
    refine ⟨l, r, rfl, fun q hq => ?_, rfl, hp, fun q => ?_, fun q => ?_⟩
    · rcases List.mem_cons.mp hq with rfl | hq
      · exact le_rfl
      · exact ht.heap.1 q hq
    · dsimp only
      rw [picked, modifyProc_proc, Function.update_apply]
      split
      · change u32 ((s.proc p).stride + _) = _
        rw [hw p, u32, Nat.mod_add_mod]
      · exact hw q
    · dsimp only
      rw [modifyProc_proc]
      split
      · next hq => rw [hq]
      · rfl

/-- **`stride_dequeue` of the process just picked**, whose stride no longer fits its place. -/
theorem wp_strideDequeue (htree : IsTree s.pool s.runPool (.node p l r))
    (hroot : ∀ c ∈ s.runPool, (s.pool c).parent = none) (hnd : (nodes l ++ nodes r).Nodup)
    (hl : Heap (Le U) l) (hr : Heap (Le U) r) (hw : Wraps U s.proc)
    (hps : Spread U (nodes l ++ nodes r)) (hdepth : l.numNodes + r.numNodes < depth) :
    Act.wp (strideDequeue depth p)
      (fun _ s' => s'.proc = s.proc ∧ ∃ t', Pool U s' t' ∧ (nodes t').Perm (nodes l ++ nodes r))
      (fun _ => False) s := by
  rw [strideDequeue, Act.wp_bind, Act.wp_get, Act.wp_bind, onPool, Act.wp_zoom]
  have hp : s.runPool = some p := htree.1
  refine Act.wp_mono (wp_skewHeapRemove_root (hp ▸ htree) (hroot p (Option.mem_def.mpr hp)) hnd
    hdepth) (fun p' m h => ?_) fun _ => id
  obtain ⟨htree', hroot', -⟩ := h
  have hnodes := nodes_merge (before (procStrideComp s.proc)) l r
  exact ⟨rfl, _, ⟨htree', hroot', hnodes.nodup_iff.mpr hnd, heap_merge hw hps hl hr⟩, hnodes⟩

/-- A picked process stays within the spread: it was least, and a pass is no more than
`BIG_STRIDE`. -/
theorem Spread.picked {proc : ℕ → StrideProc} (h : Spread U ps) (hmin : ∀ q ∈ ps, U p ≤ U q) :
    Spread (picked U proc p) ps := by
  have hpass : pass (proc p).priority ≤ BIG_STRIDE := by
    unfold pass
    split
    · exact Nat.div_le_self ..
    · exact le_rfl
  intro x hx y hy
  have hxy := h x hx y hy
  have hpx := hmin x hx
  have hpy := hmin y hy
  unfold Stride.picked
  rw [Function.update_apply, Function.update_apply]
  split
  · split <;> omega
  · split
    · next hyp =>
      rw [hyp] at hxy
      omega
    · exact hxy

/-- **A pick and the dequeue that follows it**, as `schedule` makes them. -/
theorem wp_pick {α : Type} {f : Option ℕ → Call α} {Q : α → StrideRq → Prop}
    (ht : Pool U s t) (hw : Wraps U s.proc) (hps : Spread U (nodes t)) (hdepth : t.numNodes < depth)
    (hnone : t = .nil → Act.wp (f none) Q (fun _ => False) s)
    (hsome : ∀ p s', p ∈ nodes t → (∀ q ∈ nodes t, U p ≤ U q) →
      (∀ q, (s'.proc q).priority = (s.proc q).priority) → Wraps (picked U s.proc p) s'.proc →
      (∃ t', Pool (picked U s.proc p) s' t' ∧ (p :: nodes t').Perm (nodes t)) →
      Act.wp (f (some p)) Q (fun _ => False) s') :
    Act.wp (do
      match ← stridePickNext with
      | none => f none
      | some p => do
        strideDequeue depth p
        f (some p)) Q (fun _ => False) s := by
  rw [Act.wp_bind]
  refine Act.wp_mono (wp_stridePickNext ht hw) (fun o s' h => ?_) fun _ => id
  cases o with
  | none =>
    obtain ⟨htn, rfl⟩ := h
    exact hnone htn
  | some p =>
    obtain ⟨l, r, rfl, hmin, hpool, hrun, hw', hprio⟩ := h
    obtain ⟨hpn, hnd⟩ := List.nodup_cons.mp ht.nodup
    have hother : ∀ q ∈ nodes l ++ nodes r, picked U s.proc p q = U q := fun q hq =>
      Function.update_of_ne (ne_of_mem_of_not_mem hq hpn) ..
    have hsub : ∀ {c : BinaryTree ℕ}, nodes c ⊆ nodes l ++ nodes r → Heap (Le U) c →
        Heap (Le (picked U s.proc p)) c := fun hc h => h.congr fun x hx y hy hxy => by
      rw [Le, hother x (hc hx), hother y (hc hy)]
      exact hxy
    rw [Act.wp_bind]
    simp only [numNodes] at hdepth
    refine Act.wp_mono (wp_strideDequeue (U := picked U s.proc p) (hpool ▸ hrun ▸ ht.tree)
      (hpool ▸ hrun ▸ ht.root) hnd (hsub (List.subset_append_left _ _) ht.heap.2.1)
      (hsub (List.subset_append_right _ _) ht.heap.2.2) hw'
      ((hps.picked hmin).subset (List.subset_cons_self _ _)) (by omega))
      (fun _ s'' ⟨hproc, t', ht', hperm⟩ => ?_) fun _ => id
    exact hsome p s'' List.mem_cons_self hmin (fun q => (hproc ▸ hprio q)) (hproc ▸ hw')
      ⟨t', ht', hperm.cons p⟩

end Stride

end UCore
