import UCore.Schedule.Stride

/-!
# Schedule/StrideQueues — the skew heap and the list hold the same queue

`USE_SKEW_HEAP` of lab 6 selects one of two run queues:

    skew heap   pick the root                       dequeue: merge its children
    run_list    scan for the least stride           dequeue: unlink it

As long as the strides that are queued lie in a window of less than `2³¹`, the sign of a difference
orders them as the window does, whichever window it is.  So either queue picks a least stride, and if
there is but one, both pick the same.
-/

namespace UCore.Stride

open SkewTree BinaryTree SkewHeap

/-! ## The run queue with a list -/

/-- The run queue without `USE_SKEW_HEAP`: `run_list`, and the processes whose `rq` is this one. -/
structure StrideListRq where
  runList : List ℕ
  onRq : ℕ → Bool
  procNum : ℕ
  maxTimeSlice : ℤ
  proc : ℕ → StrideProc

/-- A call of this variant. -/
abbrev ListCall (α : Type) := Act StrideListRq Stop α

/-- `stride_enqueue` with the list. -/
def listEnqueue (p : ℕ) : ListCall Unit := do
  modify fun s => { s with runList := s.runList ++ [p] }
  let g := (← get).proc p
  if g.timeSlice = 0 ∨ (← get).maxTimeSlice < g.timeSlice then
    modify fun s => { s with
      proc := Function.update s.proc p ({ g with timeSlice := s.maxTimeSlice } : StrideProc) }
  modify fun s => { s with onRq := Function.update s.onRq p true, procNum := u32 (s.procNum + 1) }

/-- `stride_dequeue` with the list. -/
def listDequeue (p : ℕ) : ListCall Unit := do
  let s ← get
  Act.require .panic (p ∈ s.runList ∧ s.onRq p = true)
  modify fun s => { s with runList := s.runList.erase p, procNum := u32 (s.procNum + (2 ^ 32 - 1)) }

/-- The scan of `stride_pick_next`: the process so far, and those that are still to come. -/
def scan (proc : ℕ → StrideProc) : ℕ → List ℕ → ℕ
  | p, [] => p
  | p, q :: qs => scan proc (if 0 < toS32 ((proc p).stride - (proc q).stride) then q else p) qs

/-- A process that has been picked. -/
def raised (g : StrideProc) : StrideProc :=
  { g with stride := u32 (g.stride + pass g.priority), stride_lt := raised_lt g }

/-- `stride_pick_next` with the list. -/
def listPickNext : ListCall (Option ℕ) := do
  match (← get).runList with
  | [] => return none
  | first :: rest => do
    let p := scan (← get).proc first rest
    modify fun s => { s with proc := Function.update s.proc p (raised (s.proc p)) }
    return some p

/-! ## Operations -/

/-- What `schedule` and `wakeup_proc` do with the class: an enqueue, or a pick and the dequeue of the
process that is picked. -/
inductive QueueOp where
  | enqueue (p : ℕ)
  | pick
  deriving DecidableEq, Repr

/-- An operation on the heap. -/
def heapStep (depth : ℕ) : QueueOp → Call (Option ℕ)
  | .enqueue p => do
    strideEnqueue depth p
    return none
  | .pick => do
    match ← stridePickNext with
    | none => return none
    | some p => do
      strideDequeue depth p
      return some p

/-- An operation on the list. -/
def listStep : QueueOp → ListCall (Option ℕ)
  | .enqueue p => do
    listEnqueue p
    return none
  | .pick => do
    match ← listPickNext with
    | none => return none
    | some p => do
      listDequeue p
      return some p

/-- The processes that are queued after an operation. -/
def queued (ps : List ℕ) : QueueOp → Option ℕ → List ℕ
  | .enqueue p, _ => p :: ps
  | .pick, none => ps
  | .pick, some p => ps.erase p

/-! ## Windows -/

/-- Where a stride is, counted from `w`. -/
def place (w : ℕ) (proc : ℕ → StrideProc) (p : ℕ) : ℕ :=
  w + ((proc p).stride + (2 ^ 32 - w % 2 ^ 32)) % 2 ^ 32

/-- **Strides in a window** that starts at `w` and is less than `2³¹` wide. -/
def Window (w : ℕ) (proc : ℕ → StrideProc) (ps : List ℕ) : Prop :=
  ∀ p ∈ ps, place w proc p ≤ w + BIG_STRIDE

/-- **A process whose stride is least** in the order of a window, whichever it is. -/
def Least (proc : ℕ → StrideProc) (ps : List ℕ) (p : ℕ) : Prop :=
  p ∈ ps ∧ ∀ w, Window w proc ps → ∀ q ∈ ps, place w proc p ≤ place w proc q

/-- An operation that is asked for as it should be: of a process that is not queued, and with the strides
of the queue in some window. -/
def OpFits (proc : ℕ → StrideProc) (ps : List ℕ) : QueueOp → Prop
  | .enqueue p => p ∉ ps ∧ ∃ w, Window w proc (p :: ps)
  | .pick => ∃ w, Window w proc ps

/-- The processes after an operation: all strides and priorities stay, but that of the process picked. -/
def Strides (proc proc' : ℕ → StrideProc) (r : Option ℕ) : Prop :=
  ∀ q, (proc' q).priority = (proc q).priority ∧ (proc' q).stride =
    if r = some q then u32 ((proc q).stride + pass (proc q).priority) else (proc q).stride

/-- **What an operation is to do**: an enqueue returns nothing; a pick returns nothing exactly when the
queue is empty, and a process with a least stride otherwise. -/
def OpRight (proc : ℕ → StrideProc) (ps : List ℕ) : QueueOp → Option ℕ → Prop
  | .enqueue _, r => r = none
  | .pick, r => (r = none ↔ ps = []) ∧ ∀ p, r = some p → Least proc ps p

section Windows

variable {U U' : ℕ → ℕ} {proc proc' : ℕ → StrideProc} {t : BinaryTree ℕ} {ps qs : List ℕ} {w p q : ℕ}

theorem wraps_place : Wraps (place w proc) proc := fun p => by
  have hlt := (proc p).stride_lt
  rw [place]
  omega

theorem Window.spread (h : Window w proc ps) : Spread (place w proc) ps := fun p hp _ _ =>
  (h p hp).trans (Nat.add_le_add_right (Nat.le_add_right ..) _)

/-- **All windows agree.** -/
theorem Wraps.le_iff (h : Wraps U proc) (h' : Wraps U' proc) (hps : Spread U ps) (hps' : Spread U' ps)
    (hp : p ∈ ps) (hq : q ∈ ps) : U p ≤ U q ↔ U' p ≤ U' q := by
  have hd := toS32_stride h (hps p hp q hq) (hps q hq p hp)
  have hd' := toS32_stride h' (hps' p hp q hq) (hps' q hq p hp)
  omega

/-- A least process, in the order of exact strides. -/
theorem least_of_le (h : Wraps U proc) (hps : Spread U ps) (hp : p ∈ ps) (hle : ∀ q ∈ ps, U p ≤ U q) :
    Least proc ps p :=
  ⟨hp, fun _ hw q hq => (h.le_iff wraps_place hps hw.spread hp hq).mp (hle q hq)⟩

/-- The scan finds a least process. -/
theorem scan_le (h : Wraps U proc) (hps : Spread U ps) (hp : p ∈ ps) (hqs : qs ⊆ ps) :
    scan proc p qs ∈ p :: qs ∧ ∀ q ∈ p :: qs, U (scan proc p qs) ≤ U q := by
  induction qs generalizing p with
  | nil => simp [scan]
  | cons q qs ih =>
    have hq : q ∈ ps := hqs List.mem_cons_self
    have hd := toS32_stride h (hps p hp q hq) (hps q hq p hp)
    rw [scan]
    split
    · next hlt =>
      obtain ⟨hmem, hle⟩ := ih hq fun x hx => hqs (List.mem_cons_of_mem q hx)
      refine ⟨List.mem_cons_of_mem p hmem, fun x hx => ?_⟩
      rcases List.mem_cons.mp hx with rfl | hx
      · have := hle q List.mem_cons_self
        omega
      · exact hle x hx
    · next hge =>
      obtain ⟨hmem, hle⟩ := ih hp fun x hx => hqs (List.mem_cons_of_mem q hx)
      refine ⟨?_, fun x hx => ?_⟩
      · rcases List.mem_cons.mp hmem with hmem | hmem
        · rw [hmem]
          exact List.mem_cons_self
        · exact List.mem_cons_of_mem p (List.mem_cons_of_mem q hmem)
      · rcases List.mem_cons.mp hx with rfl | hx
        · exact hle x List.mem_cons_self
        · rcases List.mem_cons.mp hx with rfl | hx
          · have := hle p List.mem_cons_self
            omega
          · exact hle x (List.mem_cons_of_mem p hx)

end Windows

/-! ## Either variant serves the queue -/

section Variants

variable {s s' : StrideRq} {l l' : StrideListRq} {ps : List ℕ} {op : QueueOp} {depth p : ℕ}

/-- **The heap holds some processes**, in the order of whatever exact strides there are. -/
def HeapHolds (s : StrideRq) (ps : List ℕ) : Prop :=
  ∃ t, IsTree s.pool s.runPool t ∧ (nodes t).Perm ps ∧
    ∀ U, Wraps U s.proc → Spread U ps → Pool U s t

/-- The list holds some processes, whose `rq` is the run queue. -/
def ListHolds (l : StrideListRq) (ps : List ℕ) : Prop :=
  l.runList.Perm ps ∧ ps.Nodup ∧ ∀ p ∈ ps, l.onRq p = true

/-- A heap in one order is a heap in all. -/
theorem Pool.holds {U : ℕ → ℕ} {t : BinaryTree ℕ} (h : Pool U s t) (hw : Wraps U s.proc)
    (hperm : (nodes t).Perm ps) (hps : Spread U ps) : HeapHolds s ps :=
  ⟨t, h.tree, hperm, fun _ hw' hps' => ⟨h.tree, h.root, h.nodup, h.heap.congr fun _ hx _ hy hxy =>
    (hw.le_iff hw' hps hps' (hperm.subset hx) (hperm.subset hy)).mp hxy⟩⟩

theorem wp_heapStep (h : HeapHolds s ps) (hop : OpFits s.proc ps op) (hdepth : ps.length + 1 < depth) :
    Act.wp (heapStep depth op) (fun r s' => OpRight s.proc ps op r ∧ Strides s.proc s'.proc r ∧
      HeapHolds s' (queued ps op r)) (fun _ => False) s := by
  obtain ⟨t, -, hperm, hpool⟩ := h
  have hlen : t.numNodes = ps.length := by rw [← length_nodes, hperm.length_eq]
  cases op with
  | enqueue p =>
    obtain ⟨hp, w, hwin⟩ := hop
    have hsp := hwin.spread
    have hsub : p :: nodes t ⊆ p :: ps := (hperm.cons p).subset
    rw [heapStep, Act.wp_bind]
    refine Act.wp_mono (wp_strideEnqueue (hpool _ wraps_place (hsp.subset (List.subset_cons_self _ _)))
      wraps_place (fun hno => hp (hperm.subset hno)) (hsp.subset hsub) (hlen ▸ hdepth))
      (fun _ s' ⟨hsame, t', ht', hperm'⟩ => ?_) fun _ => id
    have hwraps : Wraps (place w s.proc) s'.proc := Wraps.congr wraps_place hsame
    exact ⟨rfl, fun q => ⟨(hsame q).2, (hsame q).1⟩, ht'.holds hwraps (hperm'.trans (hperm.cons p)) hsp⟩
  | pick =>
    obtain ⟨w, hwin⟩ := hop
    have hsp := hwin.spread
    have ht := hpool _ wraps_place hsp
    have hspt : Spread (place w s.proc) (nodes t) := hsp.subset hperm.subset
    let f : Option ℕ → Call (Option ℕ) := fun o => return o
    have hlt : t.numNodes < depth := by omega
    have hpick := wp_pick (t := t) (f := f) (Q := fun r s' => OpRight s.proc ps .pick r ∧
      Strides s.proc s'.proc r ∧ HeapHolds s' (queued ps .pick r)) ht wraps_place hspt hlt ?_ ?_
    · have hstep : heapStep depth .pick = (do
          match ← stridePickNext with
          | none => f none
          | some p => do
            strideDequeue depth p
            f (some p)) := rfl
      rw [hstep]
      exact hpick
    · rintro rfl
      have hnil : ps = [] := hperm.nil_eq.symm
      refine ⟨⟨⟨fun _ => hnil, fun _ => rfl⟩, fun p hno => (nomatch hno)⟩, fun q => ⟨rfl, rfl⟩, ?_⟩
      exact ht.holds wraps_place hperm hsp
    · intro p s' hp hmin hprio hw' hnext
      obtain ⟨t', ht', hperm'⟩ := hnext
      have hpps : p ∈ ps := hperm.subset hp
      have hle : ∀ q ∈ ps, place w s.proc p ≤ place w s.proc q := fun q hq =>
        hmin q (hperm.symm.subset hq)
      refine ⟨⟨⟨fun hno => (nomatch hno), fun hnil => ?_⟩, fun p' heq => ?_⟩, fun q => ⟨hprio q, ?_⟩, ?_⟩
      · rw [hnil] at hpps
        exact nomatch hpps
      · obtain rfl : p = p' := Option.some.inj heq
        exact least_of_le wraps_place hsp hpps hle
      · have hq := hw' q
        have hold := (wraps_place : Wraps (place w s.proc) s.proc) q
        rw [picked, Function.update_apply] at hq
        by_cases hqp : q = p
        · subst hqp
          rw [if_pos rfl] at hq
          rw [if_pos rfl, hq, hold, u32, Nat.mod_add_mod]
        · rw [if_neg hqp] at hq
          rw [if_neg fun heq => hqp (Option.some.inj heq).symm, hq, hold]
      · have herase : (nodes t').Perm (ps.erase p) :=
          (List.cons_perm_iff_perm_erase.mp (hperm'.trans hperm)).2
        exact ht'.holds hw' herase ((hsp.picked hle).subset (List.erase_subset))

theorem wp_listStep (h : ListHolds l ps) (hop : OpFits l.proc ps op) :
    Act.wp (listStep op) (fun r l' => OpRight l.proc ps op r ∧ Strides l.proc l'.proc r ∧
      ListHolds l' (queued ps op r)) (fun _ => False) l := by
  obtain ⟨hperm, hnd, hon⟩ := h
  cases op with
  | enqueue p =>
    have hholds : ∀ m n proc, ListHolds ⟨l.runList ++ [p], Function.update l.onRq p true, m, n, proc⟩
        (p :: ps) := fun m n proc => by
      refine ⟨(List.perm_append_singleton p _).trans (hperm.cons p), List.nodup_cons.mpr ⟨hop.1, hnd⟩,
        fun q hq => ?_⟩
      change Function.update l.onRq p true q = true
      rw [Function.update_apply]
      split
      · rfl
      · next hne => exact hon q ((List.mem_cons.mp hq).resolve_left hne)
    simp only [listStep, listEnqueue, Act.wp_bind, Act.wp_modify, Act.wp_get, Act.wp_ite, Act.wp_pure]
    refine ⟨fun _ => ⟨rfl, fun q => ?_, hholds _ _ _⟩, fun _ => ⟨rfl, fun q => ⟨rfl, rfl⟩,
      hholds _ _ _⟩⟩
    rw [Function.update_apply]
    split
    · next hq => exact hq ▸ ⟨rfl, rfl⟩
    · exact ⟨rfl, rfl⟩
  | pick =>
    obtain ⟨w, hwin⟩ := hop
    have hsp := hwin.spread
    rw [listStep, Act.wp_bind, listPickNext, Act.wp_bind, Act.wp_get]
    cases hlist : l.runList with
    | nil =>
      have hnil : ps = [] := (hlist ▸ hperm).nil_eq.symm
      exact ⟨⟨⟨fun _ => hnil, fun _ => rfl⟩, fun p hno => (by cases hno)⟩, fun q => ⟨rfl, rfl⟩, hperm, hnd,
        hon⟩
    | cons first rest =>
      have hsub : first :: rest ⊆ ps := (hlist ▸ hperm).subset
      obtain ⟨hmem, hle⟩ := scan_le wraps_place hsp (hsub List.mem_cons_self)
        fun x hx => hsub (List.mem_cons_of_mem first hx)
      dsimp only
      rw [Act.wp_bind, Act.wp_get]
      set p := scan l.proc first rest with hp
      have hpps : p ∈ ps := hsub hmem
      simp only [Act.wp_bind, Act.wp_modify, Act.wp_pure, listDequeue, Act.wp_get, Act.wp_require]
      refine ⟨fun _ => ⟨⟨⟨fun hno => (by cases hno), fun hnil => ?_⟩, fun p' heq => ?_⟩, fun q => ?_,
        hperm.erase p, hnd.erase p, fun q hq => hon q (List.mem_of_mem_erase hq)⟩, fun hno => ?_⟩
      · rw [hnil] at hpps
        cases hpps
      · obtain rfl : p = p' := Option.some.inj heq
        exact least_of_le wraps_place hsp hpps fun q hq => hle q (hlist ▸ hperm.symm.subset hq)
      · rw [Function.update_apply]
        by_cases hqp : q = p
        · subst hqp
          rw [if_pos rfl, if_pos rfl]
          exact ⟨rfl, rfl⟩
        · rw [if_neg hqp, if_neg fun heq => hqp (Option.some.inj heq).symm]
          exact ⟨rfl, rfl⟩
      · exact hno ⟨hperm.symm.subset hpps, hon p hpps⟩

end Variants

/-! ## Runs -/

section Runs

variable {σ : Type} {step : QueueOp → Act σ Stop (Option ℕ)} {procs : σ → ℕ → StrideProc}
  {C : (ℕ → StrideProc) → List ℕ → QueueOp → Prop} {x x' : σ} {r : Option ℕ} {ps : List ℕ}
  {op : QueueOp} {ops : List QueueOp} {depth : ℕ}

/-- **A condition on every operation of a run**, on the processes and the queue that it finds. -/
def RunAll (step : QueueOp → Act σ Stop (Option ℕ)) (procs : σ → ℕ → StrideProc)
    (C : (ℕ → StrideProc) → List ℕ → QueueOp → Prop) : List QueueOp → σ → List ℕ → Prop
  | [], _, _ => True
  | op :: ops, x, ps => C (procs x) ps op ∧
      ∀ r x', step op x = .ok (r, x') → RunAll step procs C ops x' (queued ps op r)

/-- **A run that goes as it should**: every operation returns, and does what it is to do. -/
def Served (step : QueueOp → Act σ Stop (Option ℕ)) (procs : σ → ℕ → StrideProc) :
    List QueueOp → σ → List ℕ → Prop
  | [], _, _ => True
  | op :: ops, x, ps => ∃ r x', step op x = .ok (r, x') ∧ OpRight (procs x) ps op r ∧
      Strides (procs x) (procs x') r ∧ Served step procs ops x' (queued ps op r)

/-- The least stride is that of one process, at every pick. -/
def OneLeast (proc : ℕ → StrideProc) (ps : List ℕ) (op : QueueOp) : Prop :=
  op = .pick → ∀ p q, Least proc ps p → Least proc ps q → p = q

/-- **Two runs that are alike**: the same picks, and after each operation the same processes with the same
strides. -/
def Alike (depth : ℕ) : List QueueOp → StrideRq → StrideListRq → Prop
  | [], _, _ => True
  | op :: ops, s, l => ∃ r s' l', heapStep depth op s = .ok (r, s') ∧ listStep op l = .ok (r, l') ∧
      (∃ t, IsTree s'.pool s'.runPool t ∧ (nodes t).Perm l'.runList) ∧
      (∀ p, (s'.proc p).stride = (l'.proc p).stride) ∧ Alike depth ops s' l'

theorem runAll_cons (h : step op x = .ok (r, x')) : RunAll step procs C (op :: ops) x ps ↔
    C (procs x) ps op ∧ RunAll step procs C ops x' (queued ps op r) := by
  refine and_congr_right fun _ => ⟨fun hall => hall r x' h, fun hall r' x'' h' => ?_⟩
  rw [h] at h'
  obtain ⟨rfl, rfl⟩ := Prod.mk.inj (Except.ok.inj h')
  exact hall

theorem length_queued (ps : List ℕ) (op : QueueOp) (r : Option ℕ) :
    (queued ps op r).length ≤ ps.length + 1 := by
  cases op with
  | enqueue p => exact le_rfl
  | pick =>
    cases r with
    | none => exact Nat.le_succ _
    | some p => exact (List.length_erase_le ..).trans (Nat.le_succ _)

/-- **A variant that serves each operation serves a run.** -/
theorem served_of_step {Holds : σ → List ℕ → Prop}
    (hstep : ∀ x ps op, Holds x ps → OpFits (procs x) ps op → ps.length + 1 < depth →
      Act.wp (step op) (fun r x' => OpRight (procs x) ps op r ∧ Strides (procs x) (procs x') r ∧
        Holds x' (queued ps op r)) (fun _ => False) x)
    (h : Holds x ps) (hfit : RunAll step procs OpFits ops x ps) (hdepth : ps.length + ops.length < depth) :
    Served step procs ops x ps := by
  induction ops generalizing x ps with
  | nil => exact trivial
  | cons op ops ih =>
    rw [List.length_cons] at hdepth
    have hlt : ps.length + 1 < depth := by omega
    obtain ⟨r, x', hrun, hright, hstrides, hholds⟩ := Act.wp_false_iff.mp (hstep x ps op h hfit.1 hlt)
    have hlen := length_queued ps op r
    exact ⟨r, x', hrun, hright, hstrides, ih hholds (hfit.2 r x' hrun) (by omega)⟩

end Runs

section Agree

variable {s : StrideRq} {l : StrideListRq} {ps : List ℕ} {ops : List QueueOp} {depth : ℕ}

/-- Strides and priorities are all that an operation depends on. -/
def SameProcs (proc proc' : ℕ → StrideProc) : Prop :=
  ∀ p, (proc p).stride = (proc' p).stride ∧ (proc p).priority = (proc' p).priority

theorem SameProcs.place {proc proc' : ℕ → StrideProc} (h : SameProcs proc proc') (w : ℕ) :
    place w proc = place w proc' := by
  funext p
  rw [Stride.place, Stride.place, (h p).1]

theorem SameProcs.window {proc proc' : ℕ → StrideProc} (h : SameProcs proc proc') {w : ℕ} {qs : List ℕ} :
    Window w proc qs ↔ Window w proc' qs := by
  rw [Window, Window, h.place]

theorem SameProcs.least {proc proc' : ℕ → StrideProc} (h : SameProcs proc proc') {qs : List ℕ} {p : ℕ} :
    Least proc qs p ↔ Least proc' qs p := by
  simp only [Least, h.window, h.place]

theorem SameProcs.fits {proc proc' : ℕ → StrideProc} (h : SameProcs proc proc') {qs : List ℕ}
    {op : QueueOp} : OpFits proc qs op ↔ OpFits proc' qs op := by
  cases op with
  | enqueue p => simp only [OpFits, h.window]
  | pick => simp only [OpFits, h.window]

/-- The same operation with the same result leaves the same strides. -/
theorem SameProcs.next {proc proc' next next' : ℕ → StrideProc} {r : Option ℕ}
    (h : SameProcs proc proc') (hn : Strides proc next r) (hn' : Strides proc' next' r) :
    SameProcs next next' := fun p => by
  rw [(hn p).1, (hn' p).1, (hn p).2, (hn' p).2, (h p).1, (h p).2]
  exact ⟨rfl, rfl⟩

/-- **The variants pick the same**, if there is but one process to pick. -/
theorem alike_of_single (hs : HeapHolds s ps) (hl : ListHolds l ps) (hsame : SameProcs s.proc l.proc)
    (hfit : RunAll (heapStep depth) StrideRq.proc OpFits ops s ps)
    (hone : RunAll (heapStep depth) StrideRq.proc OneLeast ops s ps)
    (hdepth : ps.length + ops.length < depth) : Alike depth ops s l := by
  induction ops generalizing s l ps with
  | nil => exact trivial
  | cons op ops ih =>
    rw [List.length_cons] at hdepth
    have hlt : ps.length + 1 < depth := by omega
    obtain ⟨r, s', hrun, hright, hstrides, hholds⟩ := Act.wp_false_iff.mp (wp_heapStep hs hfit.1 hlt)
    obtain ⟨r', l', hrun', hright', hstrides', hholds'⟩ := Act.wp_false_iff.mp
      (wp_listStep hl (hsame.fits.mp hfit.1))
    have hr : r' = r := by
      cases op with
      | enqueue p => exact hright'.trans hright.symm
      | pick =>
        cases r with
        | none => exact hright'.1.mpr (hright.1.mp rfl)
        | some p =>
          cases r' with
          | none => exact absurd (hright.1.mpr (hright'.1.mp rfl)) (by simp)
          | some p' =>
            exact congrArg some (hone.1 rfl p' p (hsame.least.mpr (hright'.2 p' rfl)) (hright.2 p rfl))
    subst hr
    have hnext := hsame.next hstrides hstrides'
    have hlen := length_queued ps op r'
    obtain ⟨t, htree, hperm, hpool⟩ := hholds
    exact ⟨r', s', l', hrun, hrun', ⟨t, htree, hperm.trans hholds'.1.symm⟩, fun p => (hnext p).1,
      ih ⟨t, htree, hperm, hpool⟩ hholds' hnext (hfit.2 r' s' hrun) (hone.2 r' s' hrun) (by omega)⟩

end Agree

/-- The run queue after `stride_init`, with the heap… -/
def heapInit (maxTimeSlice : ℤ) (proc : ℕ → StrideProc) : StrideRq :=
  ⟨fun _ => ⟨none, none, none⟩, none, 0, maxTimeSlice, proc⟩

/-- …and with the list. -/
def listInit (maxTimeSlice : ℤ) (proc : ℕ → StrideProc) : StrideListRq :=
  ⟨[], fun _ => false, 0, maxTimeSlice, proc⟩

/-- **The skew heap and the list are the same queue.**  In every run of either whose operations fit, each
pick is nothing exactly when the queue is empty, and a process with a least stride otherwise; and in every
run in which the least stride is always that of one process, both pick the same processes and hold the same
processes with the same strides. -/
theorem queues_agree {depth : ℕ} {ops : List QueueOp} (hdepth : ops.length < depth) (maxTimeSlice : ℤ)
    (proc : ℕ → StrideProc) :
    (RunAll (heapStep depth) StrideRq.proc OpFits ops (heapInit maxTimeSlice proc) [] →
      Served (heapStep depth) StrideRq.proc ops (heapInit maxTimeSlice proc) []) ∧
    (RunAll listStep StrideListRq.proc OpFits ops (listInit maxTimeSlice proc) [] →
      Served listStep StrideListRq.proc ops (listInit maxTimeSlice proc) []) ∧
    (RunAll (heapStep depth) StrideRq.proc OpFits ops (heapInit maxTimeSlice proc) [] →
      RunAll (heapStep depth) StrideRq.proc OneLeast ops (heapInit maxTimeSlice proc) [] →
      Alike depth ops (heapInit maxTimeSlice proc) (listInit maxTimeSlice proc)) := by
  have hheap : HeapHolds (heapInit maxTimeSlice proc) [] :=
    ⟨.nil, rfl, .refl _, fun _ _ _ => ⟨rfl, fun c hc => absurd hc (Option.not_mem_none c),
      List.nodup_nil, trivial⟩⟩
  have hlist : ListHolds (listInit maxTimeSlice proc) [] :=
    ⟨.refl _, List.nodup_nil, fun p hp => absurd hp List.not_mem_nil⟩
  have hlen : ([] : List ℕ).length + ops.length < depth := by simpa using hdepth
  refine ⟨fun hfit => served_of_step (fun _ _ _ h hop hd => wp_heapStep h hop hd) hheap hfit hlen,
    fun hfit => served_of_step (fun _ _ _ h hop _ => wp_listStep h hop) hlist hfit hlen,
    fun hfit hone => alike_of_single hheap hlist (fun _ => ⟨rfl, rfl⟩) hfit hone hlen⟩

/-- Two processes, with strides on either side of the wrap-around. -/
def wrapProcs (p : ℕ) : StrideProc :=
  if p = 1 then ⟨2 ^ 32 - 1, by norm_num, 1, 0⟩ else ⟨4, by norm_num, 1, 0⟩

/-- Where the two are, and that the first of them is least. -/
theorem wrapProcs_places {proc : ℕ → StrideProc} (h₁ : place (2 ^ 32 - 1) proc 1 = 2 ^ 32 - 1)
    (h₂ : place (2 ^ 32 - 1) proc 2 = 2 ^ 32 + 4) :
    (∀ qs ⊆ [1, 2], Window (2 ^ 32 - 1) proc qs) ∧ ∀ p, Least proc [1, 2] p → p = 1 := by
  have hwin : ∀ qs ⊆ [1, 2], Window (2 ^ 32 - 1) proc qs := fun qs hqs q hq => by
    rcases List.mem_cons.mp (hqs hq) with rfl | hq
    · rw [h₁]
      decide
    · obtain rfl := List.mem_singleton.mp hq
      rw [h₂]
      decide
  refine ⟨hwin, fun p hp => ?_⟩
  rcases List.mem_cons.mp hp.1 with rfl | hp'
  · rfl
  · obtain rfl := List.mem_singleton.mp hp'
    have hle := hp.2 _ (hwin _ (List.Subset.refl _)) 1 List.mem_cons_self
    rw [h₁, h₂] at hle
    exact absurd hle (by decide)

/-- **The process before the wrap-around is picked**, by both. -/
theorem queues_agree_wrap :
    Served (heapStep 4) StrideRq.proc [.enqueue 2, .enqueue 1, .pick] (heapInit 5 wrapProcs) [] ∧
      Alike 4 [.enqueue 2, .enqueue 1, .pick] (heapInit 5 wrapProcs) (listInit 5 wrapProcs) := by
  have hagree := queues_agree (show [QueueOp.enqueue 2, .enqueue 1, .pick].length < 4 by decide) 5 wrapProcs
  have hfit : RunAll (heapStep 4) StrideRq.proc OpFits [.enqueue 2, .enqueue 1, .pick]
      (heapInit 5 wrapProcs) [] := by
    refine (runAll_cons rfl).mpr ⟨⟨by decide, _, (wrapProcs_places rfl rfl).1 _ (by decide)⟩, ?_⟩
    refine (runAll_cons rfl).mpr ⟨⟨by decide, _, (wrapProcs_places rfl rfl).1 _ (by decide)⟩, ?_⟩
    exact (runAll_cons rfl).mpr ⟨⟨_, (wrapProcs_places rfl rfl).1 _ (by decide)⟩, trivial⟩
  have hone : RunAll (heapStep 4) StrideRq.proc OneLeast [.enqueue 2, .enqueue 1, .pick]
      (heapInit 5 wrapProcs) [] := by
    refine (runAll_cons rfl).mpr ⟨fun hno => (nomatch hno), ?_⟩
    refine (runAll_cons rfl).mpr ⟨fun hno => (nomatch hno), ?_⟩
    refine (runAll_cons rfl).mpr ⟨fun _ p q hp hq => ?_, trivial⟩
    exact ((wrapProcs_places rfl rfl).2 p hp).trans ((wrapProcs_places rfl rfl).2 q hq).symm
  exact ⟨hagree.1 hfit, hagree.2.2 hfit hone⟩

end UCore.Stride
