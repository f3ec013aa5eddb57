import UCore.Libs.Defs
import UCore.Machinery.Act

/-!
# Process/Pid — fresh process identifiers

`get_pid` of `kern/process/proc.c`.  Between its calls it remembers a gap:

    last_pid ──── no process is here ──── next_safe

and as long as the gap lasts, it gives out the next number without a look at the processes.  A scan looks
for a new gap, and starts again whenever the number it is about to give out reaches the end of the gap.
-/

namespace UCore.Pid

/-- `MAX_PROCESS`. -/
abbrev MAX_PROCESS : ℕ := 4096

/-- `MAX_PID`. -/
abbrev MAX_PID : ℕ := MAX_PROCESS * 2

/-- The static variables of `get_pid`, and the `pid`s of the processes in `proc_list`. -/
structure PidTable where
  lastPid : ℕ
  nextSafe : ℕ
  procList : List ℕ
  deriving DecidableEq, Repr

/-- A call on the table. -/
abbrev Call (α : Type) := Act PidTable Stop α

/-- One turn of the scan, with the processes that are still to come. -/
def scanTurn : List ℕ → Call (List ℕ ⊕ Unit)
  | [] => return .inr ()
  | pid :: rest => do
    if pid = (← get).lastPid then
      modify fun s => { s with lastPid := s.lastPid + 1 }
      if (← get).nextSafe ≤ (← get).lastPid then
        if MAX_PID ≤ (← get).lastPid then
          modify fun s => { s with lastPid := 1 }
        modify fun s => { s with nextSafe := MAX_PID }
        return .inl (← get).procList
      else
        return .inl rest
    else
      if (← get).lastPid < pid ∧ pid < (← get).nextSafe then
        modify fun s => { s with nextSafe := pid }
      return .inl rest

/-- The part of `get_pid` from `inside` on. -/
def inside (fuel : ℕ) : Call Unit := do
  modify fun s => { s with nextSafe := MAX_PID }
  Act.loop .spin scanTurn fuel (← get).procList

/-- `get_pid`. -/
def getPid (fuel : ℕ) : Call ℕ := do
  modify fun s => { s with lastPid := s.lastPid + 1 }
  if MAX_PID ≤ (← get).lastPid then
    modify fun s => { s with lastPid := 1 }
    inside fuel
  else if (← get).nextSafe ≤ (← get).lastPid then
    inside fuel
  return (← get).lastPid

/-- The part of `set_links` that concerns `proc_list`… -/
def setLinks (s : PidTable) (pid : ℕ) : PidTable := { s with procList := pid :: s.procList }

/-- …and that of `remove_links`, for the process at a place in the list. -/
def removeLinks (s : PidTable) (i : ℕ) : PidTable := { s with procList := s.procList.eraseIdx i }

/-- The table before the first call. -/
def pidInit : PidTable := ⟨MAX_PID, MAX_PID, []⟩

/-- **The gap**: no process has a `pid` strictly between `last_pid` and `next_safe`. -/
structure Gap (s : PidTable) : Prop where
  free : ∀ pid ∈ s.procList, ¬ (s.lastPid < pid ∧ pid < s.nextSafe)
  le : s.nextSafe ≤ MAX_PID

/-- What happens to the list: a process is made and linked, or one is taken off. -/
inductive PidOp where
  | fork
  | remove (i : ℕ)
  deriving DecidableEq, Repr

/-- There is room for each process of a run, which starts with some processes. -/
def Room : List PidOp → ℕ → Prop
  | [], _ => True
  | .fork :: ops, n => n < MAX_PID - 1 ∧ Room ops (n + 1)
  | .remove i :: ops, n => Room ops (if i < n then n - 1 else n)

/-- **A run in which every process gets a fresh `pid`**, and which keeps the gap. -/
def Fresh (fuel : ℕ) : List PidOp → PidTable → Prop
  | [], s => Gap s
  | .fork :: ops, s => Gap s ∧ ∃ pid s', getPid fuel s = .ok (pid, s') ∧ 1 ≤ pid ∧ pid < MAX_PID ∧
      pid ∉ s.procList ∧ s'.procList = s.procList ∧ Fresh fuel ops (setLinks s' pid)
  | .remove i :: ops, s => Gap s ∧ Fresh fuel ops (removeLinks s i)

/-! ## The scan -/

variable {s s' : PidTable} {procs rest : List ℕ} {f last fuel : ℕ} {ops : List PidOp}

/-- **Where the scan is**: what it has seen is neither the number it would give out nor in the gap. -/
structure Scanning (procs rest : List ℕ) (s : PidTable) : Prop where
  list : s.procList = procs
  suffix : rest <:+ procs
  pos : 1 ≤ s.lastPid
  lt : s.lastPid < s.nextSafe
  le : s.nextSafe ≤ MAX_PID
  seen : ∀ pid ∈ procs, pid ∈ rest ∨ pid ≠ s.lastPid ∧ ¬ (s.lastPid < pid ∧ pid < s.nextSafe)

/-- How far the number is from the free one `f`, the way it goes round. -/
def toGo (f last : ℕ) : ℕ := if last ≤ f then f - last else MAX_PID - last + (f - 1)

theorem toGo_le (hf : f < MAX_PID) (hlast : 1 ≤ last) : toGo f last ≤ MAX_PID := by
  have hmax : MAX_PID = 8192 := rfl
  rw [toGo]
  split <;> omega

/-- A step towards the free number. -/
theorem toGo_succ (hf : 1 ≤ f) (hf' : f < MAX_PID) (hlast : last < MAX_PID) (hne : last ≠ f) :
    toGo f (if MAX_PID ≤ last + 1 then 1 else last + 1) < toGo f last := by
  have hmax : MAX_PID = 8192 := rfl
  rw [toGo, toGo]
  split_ifs <;> omega

/-- A number that no process has. -/
theorem exists_free (h : procs.length < MAX_PID - 1) : ∃ f, 1 ≤ f ∧ f < MAX_PID ∧ f ∉ procs := by
  by_contra hno
  push Not at hno
  have hsub : Finset.Ico 1 MAX_PID ⊆ procs.toFinset := fun f hf => by
    obtain ⟨hlo, hhi⟩ := Finset.mem_Ico.mp hf
    exact List.mem_toFinset.mpr (hno f hlo hhi)
  have hcard := (Finset.card_le_card hsub).trans (List.toFinset_card_le procs)
  rw [Nat.card_Ico] at hcard
  omega

theorem Scanning.wp_scanTurn {n : ℕ} (h : Scanning procs rest s) (hf : 1 ≤ f) (hf' : f < MAX_PID)
    (hfree : f ∉ procs) (hn : n = toGo f s.lastPid * (procs.length + 1) + rest.length) :
    Act.wp (scanTurn rest) (fun r s' => match r with
      | .inl rest' => ∃ m < n, Scanning procs rest' s' ∧
          m = toGo f s'.lastPid * (procs.length + 1) + rest'.length
      | .inr _ => Scanning procs [] s') (fun _ => False) s := by
  have hpos := h.pos
  have hlt := h.lt
  have hle := h.le
  cases rest with
  | nil => exact h
  | cons pid rest =>
    have hsuffix : rest <:+ procs := (List.suffix_cons pid rest).trans h.suffix
    have hmem : pid ∈ procs := h.suffix.subset List.mem_cons_self
    have hseen : ∀ q ∈ procs, q = pid ∨ q ∈ rest ∨
        q ≠ s.lastPid ∧ ¬ (s.lastPid < q ∧ q < s.nextSafe) := fun q hq => by
      rcases h.seen q hq with hq | hq
      · exact (List.mem_cons.mp hq).imp_right .inl
      · exact .inr (.inr hq)
    simp only [scanTurn, Act.wp_bind, Act.wp_get, Act.wp_ite, Act.wp_modify, Act.wp_pure]
    refine ⟨fun heq => ⟨fun hend => ?_, fun hmore => ?_⟩, fun hne => ?_⟩
    · -- the end of the gap is reached: the scan starts again
      have hlast : s.lastPid < MAX_PID := hlt.trans_le hle
      have hto := toGo_succ hf hf' hlast fun hno => hfree (hno ▸ heq ▸ hmem)
      have hscan : ∀ last', 1 ≤ last' → last' < MAX_PID →
          Scanning procs s.procList ⟨last', MAX_PID, s.procList⟩ := fun last' h₁ h₂ =>
        ⟨h.list, h.list ▸ List.suffix_refl _, h₁, h₂, le_rfl, fun q hq => .inl (h.list ▸ hq)⟩
      have hless : ∀ last', toGo f last' < toGo f s.lastPid →
          toGo f last' * (procs.length + 1) + s.procList.length < n := fun last' hlt' => by
        have hmul := Nat.mul_le_mul_right (procs.length + 1) (Nat.succ_le_of_lt hlt')
        rw [Nat.succ_mul] at hmul
        rw [h.list]
        omega
      refine ⟨fun hmax => ?_, fun hmax => ?_⟩
      · rw [if_pos hmax] at hto
        exact ⟨_, hless _ hto, hscan 1 le_rfl (by decide), rfl⟩
      · rw [if_neg hmax] at hto
        exact ⟨_, hless _ hto, hscan _ (Nat.le_add_left ..) (not_le.mp hmax), rfl⟩
    · have hlast : s.lastPid < MAX_PID := hlt.trans_le hle
      have hto := toGo_succ hf hf' hlast fun hno => hfree (hno ▸ heq ▸ hmem)
      rw [if_neg (by omega)] at hto
      refine ⟨_, ?_, ⟨h.list, hsuffix, Nat.le_add_left .., not_le.mp hmore, hle, fun q hq => ?_⟩, rfl⟩
      · have hmul := Nat.mul_le_mul_right (procs.length + 1) (Nat.succ_le_of_lt hto)
        rw [Nat.succ_mul] at hmul
        have hlen := hsuffix.length_le
        rw [List.length_cons] at hn
        omega
      · rcases hseen q hq with rfl | hq | ⟨hq, hgap⟩
        · exact .inr ⟨by dsimp only; omega, by dsimp only; omega⟩
        · exact .inl hq
        · exact .inr ⟨by dsimp only; omega, by dsimp only; omega⟩
    · have hless : toGo f s.lastPid * (procs.length + 1) + rest.length < n := by
        rw [hn, List.length_cons]
        exact Nat.lt_succ_self _
      refine ⟨fun hin => ⟨_, hless, ⟨h.list, hsuffix, hpos, hin.1, hin.2.le.trans hle, fun q hq => ?_⟩,
        rfl⟩, fun hout => ⟨_, hless, ⟨h.list, hsuffix, hpos, hlt, hle, fun q hq => ?_⟩, rfl⟩⟩
      · rcases hseen q hq with rfl | hq | ⟨hq, hgap⟩
        · exact .inr ⟨hne, fun hno => absurd hno.2 (lt_irrefl _)⟩
        · exact .inl hq
        · exact .inr ⟨hq, fun hno => hgap ⟨hno.1, hno.2.trans hin.2⟩⟩
      · rcases hseen q hq with rfl | hq
        · exact .inr ⟨hne, hout⟩
        · exact hq

/-- **The scan ends**, with a number that no process has, and a gap behind it. -/
theorem wp_inside (hroom : s.procList.length < MAX_PID - 1) (hpos : 1 ≤ s.lastPid)
    (hlast : s.lastPid < MAX_PID) (hfuel : (MAX_PID + 1) * (s.procList.length + 1) ≤ fuel) :
    Act.wp (inside fuel) (fun _ s' => Scanning s.procList [] s') (fun _ => False) s := by
  obtain ⟨f, hf, hf', hfree⟩ := exists_free hroom
  have hto := toGo_le (f := f) hf' hpos
  have hbound := Nat.mul_le_mul_right (s.procList.length + 1) hto
  rw [inside, Act.wp_bind, Act.wp_modify, Act.wp_bind, Act.wp_get]
  refine Act.wp_loop (fun n rest s' => Scanning s.procList rest s' ∧
    n = toGo f s'.lastPid * (s.procList.length + 1) + rest.length) (fun n rest s' ⟨hscan, hn⟩ => ?_) fuel
    (toGo f s.lastPid * (s.procList.length + 1) + s.procList.length) _ _
    ⟨⟨rfl, List.suffix_refl _, hpos, hlast, le_rfl, fun q hq => .inl hq⟩, rfl⟩ fun hle => ?_
  · refine Act.wp_mono (hscan.wp_scanTurn hf hf' hfree hn) (fun r s'' hr => ?_) fun _ => id
    match r, hr with
    | .inl rest', ⟨m, hm, hscan', hm'⟩ => exact ⟨m, hm, hscan', hm'⟩
    | .inr (), hr => exact hr
  · rw [Nat.add_mul, Nat.one_mul] at hfuel
    omega

/-- **`get_pid`** returns a number that no process has, and leaves a gap behind it. -/
theorem Gap.wp_getPid (h : Gap s) (hroom : s.procList.length < MAX_PID - 1)
    (hfuel : (MAX_PID + 1) * (s.procList.length + 1) ≤ fuel) :
    Act.wp (getPid fuel) (fun pid s' => 1 ≤ pid ∧ pid < MAX_PID ∧ pid ∉ s.procList ∧
      s'.lastPid = pid ∧ s'.procList = s.procList ∧ Gap s') (fun _ => False) s := by
  have hdone : ∀ s', Scanning s.procList [] s' → 1 ≤ s'.lastPid ∧ s'.lastPid < MAX_PID ∧
      s'.lastPid ∉ s.procList ∧ True ∧ s'.procList = s.procList ∧ Gap s' := fun s' hs => by
    have hseen : ∀ pid ∈ s.procList, pid ≠ s'.lastPid ∧ ¬ (s'.lastPid < pid ∧ pid < s'.nextSafe) :=
      fun pid hpid => (hs.seen pid hpid).resolve_left List.not_mem_nil
    exact ⟨hs.pos, hs.lt.trans_le hs.le, fun hno => (hseen _ hno).1 rfl, trivial, hs.list,
      fun pid hpid => (hseen pid (hs.list ▸ hpid)).2, hs.le⟩
  simp only [getPid, Act.wp_bind, Act.wp_modify, Act.wp_get, Act.wp_ite, Act.wp_pure]
  refine ⟨fun _ => ?_, fun hmax => ⟨fun _ => ?_, fun hsafe => ?_⟩⟩
  · exact Act.wp_mono (wp_inside hroom le_rfl (show 1 < MAX_PID by decide) hfuel) (fun _ s' => hdone s') fun _ => id
  · exact Act.wp_mono (wp_inside hroom (Nat.le_add_left ..) (not_le.mp hmax) hfuel)
      (fun _ s' => hdone s') fun _ => id
  · -- the gap lasts
    have hfree : ∀ pid ∈ s.procList, ¬ (s.lastPid < pid ∧ pid < s.nextSafe) := h.free
    refine ⟨Nat.le_add_left .., not_le.mp hmax, fun hno => ?_, trivial, trivial, fun pid hpid hno => ?_, h.le⟩
    · exact hfree _ hno ⟨Nat.lt_succ_self _, not_le.mp hsafe⟩
    · exact hfree pid hpid ⟨(Nat.lt_succ_self _).trans hno.1, hno.2⟩

/-! ## Runs -/

/-- The process that gets the number is outside of the gap. -/
theorem Gap.setLinks (h : Gap s) : Gap (setLinks s s.lastPid) where
  free pid hpid hin := by
    rcases List.mem_cons.mp hpid with rfl | hpid
    · exact absurd hin.1 (lt_irrefl _)
    · exact h.free pid hpid hin
  le := h.le

theorem Gap.removeLinks (h : Gap s) (i : ℕ) : Gap (removeLinks s i) :=
  ⟨fun pid hpid => h.free pid (List.eraseIdx_subset hpid), h.le⟩

theorem fresh_of_gap (h : Gap s) (hroom : Room ops s.procList.length)
    (hfuel : (MAX_PID + 1) * MAX_PID ≤ fuel) : Fresh fuel ops s := by
  induction ops generalizing s with
  | nil => exact h
  | cons op ops ih =>
    cases op with
    | fork =>
      obtain ⟨hlt, hroom⟩ := hroom
      have hle : (MAX_PID + 1) * (s.procList.length + 1) ≤ fuel :=
        (Nat.mul_le_mul_left _ (by omega)).trans hfuel
      obtain ⟨pid, s', hrun, hpos, hmax, hnew, rfl, hlist, hgap⟩ := Act.wp_false_iff.mp
        (h.wp_getPid hlt hle)
      refine ⟨h, _, s', hrun, hpos, hmax, hnew, hlist, ih hgap.setLinks ?_⟩
      rw [Pid.setLinks, List.length_cons, hlist]
      exact hroom
    | remove i =>
      refine ⟨h, ih (h.removeLinks i) ?_⟩
      rw [Pid.removeLinks, List.length_eraseIdx]
      exact hroom

/-- **Process identifiers are fresh.**  In every run of forks and removals with fewer than
`MAX_PID - 1` processes at each fork, every call of `get_pid` returns, with a number that no process in the
list has; and between the calls there is a gap. -/
theorem getPid_fresh {ops : List PidOp} (hroom : Room ops 0) {fuel : ℕ}
    (hfuel : (MAX_PID + 1) * MAX_PID ≤ fuel) : Fresh fuel ops pidInit :=
  fresh_of_gap ⟨fun _ hno => absurd hno List.not_mem_nil, le_rfl⟩ hroom hfuel

/-- Two processes, of which the first is gone when the third is made. -/
theorem getPid_fresh_three : Fresh ((MAX_PID + 1) * MAX_PID) [.fork, .fork, .remove 1, .fork] pidInit :=
  getPid_fresh (show Room [.fork, .fork, .remove 1, .fork] 0 from
    ⟨by decide, by decide, by decide, trivial⟩) le_rfl

end UCore.Pid
