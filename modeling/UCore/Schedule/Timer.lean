import UCore.Schedule.Sched

/-!
# Schedule/Timer — the timer list

`add_timer`, `del_timer` and `run_timer_list` of `kern/schedule/sched.c`.  The list keeps each expiry
as the difference to the timer before:

    timer_list ──▸ 3 ──▸ 0 ──▸ 4          due in 3, 3 and 7 ticks

so what a timer waits for is the sum of the `expires` up to it, its `due`.  Every operation on
another timer keeps that sum, a tick takes one from all of them, and the timers it brings to zero are
those that fire.
-/

namespace UCore

/-- Subtraction of `unsigned int`s. -/
def sub32 (a b : ℕ) : ℕ := u32 (a + 2 ^ 32 - b)

/-- A difference of `unsigned int`s that does not underflow. -/
theorem sub32_of_le {a b : ℕ} (hab : b ≤ a) (ha : a < 2 ^ 32) : sub32 a b = a - b := by
  rw [sub32, show a + 2 ^ 32 - b = a - b + 2 ^ 32 by omega, u32, Nat.add_mod_right]
  exact Nat.mod_eq_of_lt (by omega)

/-- `timer_t`, without its link. -/
structure Timer where
  expires : ℕ
  proc : Option ℕ
  deriving DecidableEq, Repr

/-- The timers, those linked in `timer_list`, first to last, and the processes they wake. -/
structure Timers where
  sched : Sched
  timer : ℕ → Timer
  timerList : List ℕ

namespace Timers

/-- An interrupt-disabled section. -/
abbrev Call (α : Type) := Act Timers Stop α

/-- A section of the scheduler. -/
def onSched {α : Type} (m : Sched.Call α) : Call α :=
  Act.zoom (fun s : Timers => s.sched) (fun g s => { s with sched := g }) m

/-- Change `expires` of one timer. -/
def setExpires (s : Timers) (t e : ℕ) : Timers :=
  { s with timer := Function.update s.timer t { s.timer t with expires := e } }

/-- The entry after `t`. -/
def listNext (t : ℕ) : List ℕ → Option ℕ
  | [] => none
  | x :: l => if x = t then l.head? else listNext t l

/-- `timer_init`, which leaves the timer unlinked. -/
def timerInit (t p e : ℕ) : Call Unit :=
  modify fun s => { s with timer := Function.update s.timer t ⟨u32 e, some p⟩ }

/-- The loop of `add_timer` over the list from `le` on; the result is that list with `t` in it. -/
def addTimerLoop (t : ℕ) : List ℕ → Call (List ℕ)
  | [] => return [t]
  | next :: le => do
    let s ← get
    if (s.timer t).expires < (s.timer next).expires then
      modify fun s => s.setExpires next (sub32 (s.timer next).expires (s.timer t).expires)
      return t :: next :: le
    else
      modify fun s => s.setExpires t (sub32 (s.timer t).expires (s.timer next).expires)
      return next :: (← addTimerLoop t le)

/-- `add_timer`. -/
def addTimer (t : ℕ) : Call Unit := do
  let s ← get
  Act.require .panic (0 < (s.timer t).expires ∧ (s.timer t).proc.isSome)
  Act.require .panic (t ∉ s.timerList)
  let l ← addTimerLoop t s.timerList
  modify fun s => { s with timerList := l }

/-- `del_timer`. -/
def delTimer (t : ℕ) : Call Unit := do
  let s ← get
  if t ∈ s.timerList then
    if (s.timer t).expires ≠ 0 then
      match listNext t s.timerList with
      | some next =>
        modify fun s => s.setExpires next (u32 ((s.timer next).expires + (s.timer t).expires))
      | none => pure ()
    modify fun s => { s with timerList := s.timerList.erase t }

/-- The loop of `run_timer_list`, over the timers from `timer` on. -/
def fireLoop : List ℕ → Call Unit
  | [] => return ()
  | t :: le => do
    let s ← get
    if (s.timer t).expires = 0 then
      match (s.timer t).proc with
      | none => throw .panic
      | some p => do
        if (s.sched.proc p).waitState ≠ 0 then
          Act.require .panic ((s.sched.proc p).waitState &&& WT_INTERRUPTED ≠ 0)
        onSched (Sched.wakeupProc p)
        delTimer t
        fireLoop le

/-- `run_timer_list`; the class's `proc_tick` touches time slices only. -/
def runTimerList : Call Unit := do
  match (← get).timerList with
  | [] => return ()
  | t :: le => do
    Act.require .panic (((← get).timer t).expires ≠ 0)
    modify fun s => s.setExpires t (sub32 (s.timer t).expires 1)
    fireLoop (t :: le)

/-! ## What a timer waits for -/

/-- The sum of the `expires` up to `t`. -/
def dueIn (f : ℕ → Timer) : List ℕ → ℕ → ℕ
  | [], _ => 0
  | x :: l, t => (f x).expires + if x = t then 0 else dueIn f l t

/-- **The ticks that remain** to a linked timer. -/
def due (s : Timers) (t : ℕ) : ℕ := dueIn s.timer s.timerList t

variable {s s' : Timers} {f g : ℕ → Timer} {l : List ℕ} {t u x e : ℕ}

@[simp] theorem setExpires_timerList : (s.setExpires t e).timerList = s.timerList := rfl

@[simp] theorem setExpires_sched : (s.setExpires t e).sched = s.sched := rfl

theorem setExpires_self : (s.setExpires t e).timer t = ⟨e, (s.timer t).proc⟩ :=
  Function.update_self ..

theorem setExpires_of_ne (h : u ≠ t) : (s.setExpires t e).timer u = s.timer u :=
  Function.update_of_ne h ..

@[simp] theorem setExpires_proc : ((s.setExpires t e).timer u).proc = (s.timer u).proc := by
  rcases eq_or_ne u t with rfl | hu
  · rw [setExpires_self]
  · rw [setExpires_of_ne hu]

@[simp] theorem dueIn_head : dueIn f (t :: l) t = (f t).expires := by
  rw [dueIn, if_pos rfl, Nat.add_zero]

theorem dueIn_cons (h : x ≠ t) : dueIn f (x :: l) t = (f x).expires + dueIn f l t := by
  rw [dueIn, if_neg h]

/-- What a timer waits for depends on the linked timers only. -/
theorem dueIn_congr (h : ∀ x ∈ l, (f x).expires = (g x).expires) : dueIn f l t = dueIn g l t := by
  induction l with
  | nil => rfl
  | cons x l ih =>
    rw [dueIn, dueIn, h x List.mem_cons_self, ih fun y hy => h y (List.mem_cons_of_mem x hy)]

/-- A timer waits at least as long as the first one. -/
theorem expires_le_dueIn_cons : (f x).expires ≤ dueIn f (x :: l) t := Nat.le_add_right ..

/-- …and no shorter than its own difference. -/
theorem expires_le_dueIn (h : t ∈ l) : (f t).expires ≤ dueIn f l t := by
  induction l with
  | nil => exact absurd h List.not_mem_nil
  | cons x l ih =>
    rcases eq_or_ne x t with rfl | hx
    · exact expires_le_dueIn_cons
    · rw [dueIn_cons hx]
      exact (ih (List.mem_of_ne_of_mem hx.symm h)).trans (Nat.le_add_left ..)

/-! ## Taking a timer out -/

theorem listNext_mem {y : ℕ} (h : listNext t l = some y) : y ∈ l := by
  induction l with
  | nil => cases h
  | cons x l ih =>
    rw [listNext] at h
    split at h
    · exact List.mem_cons_of_mem x (List.mem_of_mem_head? h)
    · exact List.mem_cons_of_mem x (ih h)

/-- The timer after `t` waits for both differences. -/
theorem expires_add_le_dueIn {y : ℕ} (hnd : l.Nodup) (h : listNext t l = some y) :
    (f y).expires + (f t).expires ≤ dueIn f l y := by
  induction l with
  | nil => cases h
  | cons x l ih =>
    obtain ⟨hx, hnd⟩ := List.nodup_cons.mp hnd
    rw [listNext] at h
    split at h
    · rename_i hxt
      subst hxt
      have hy := List.mem_of_mem_head? h
      rw [dueIn_cons (ne_of_mem_of_not_mem hy hx).symm, Nat.add_comm]
      exact Nat.add_le_add_left (expires_le_dueIn hy) _
    · rw [dueIn_cons (ne_of_mem_of_not_mem (listNext_mem h) hx).symm]
      exact (ih hnd h).trans (Nat.le_add_left ..)

/-- **The special case of `del_timer`**: what `t` was waiting for goes to the timer after it, and no
other timer waits longer or shorter. -/
theorem dueIn_erase (hnd : l.Nodup) (hu : u ∈ l) (hut : u ≠ t)
    (hnext : ∀ y, listNext t l = some y → (g y).expires = (f y).expires + (f t).expires)
    (hother : ∀ y ∈ l, listNext t l ≠ some y → (g y).expires = (f y).expires) :
    dueIn g (l.erase t) u = dueIn f l u := by
  induction l with
  | nil => exact absurd hu List.not_mem_nil
  | cons x l ih =>
    obtain ⟨hx, hnd⟩ := List.nodup_cons.mp hnd
    rcases eq_or_ne x t with rfl | hxt
    · have hul : u ∈ l := List.mem_of_ne_of_mem hut hu
      rw [List.erase_cons_head, dueIn_cons hut.symm]
      rcases l with _ | ⟨y, l⟩
      · exact absurd hul List.not_mem_nil
      have hyx : y ≠ x := fun h => hx (h ▸ List.mem_cons_self)
      have hy : (g y).expires = (f y).expires + (f x).expires := hnext y (by simp [listNext])
      have hl : dueIn g l u = dueIn f l u := by
        refine dueIn_congr fun z hz => hother z (by simp [hz]) ?_
        have hzy : y ≠ z := (ne_of_mem_of_not_mem hz (List.nodup_cons.mp hnd).1).symm
        simpa [listNext] using hzy
      rw [dueIn, dueIn, hy, hl]
      omega
    · rw [List.erase_cons_tail (by simpa using hxt)]
      have hgx : (g x).expires = (f x).expires := by
        refine hother x List.mem_cons_self fun h => hx ?_
        rw [listNext, if_neg hxt] at h
        exact listNext_mem h
      rcases eq_or_ne x u with rfl | hxu
      · rw [dueIn_head, dueIn_head, hgx]
      · rw [dueIn_cons hxu, dueIn_cons hxu, hgx]
        refine congrArg _ (ih hnd (List.mem_of_ne_of_mem hxu.symm hu) (fun y hy => ?_)
          fun y hy hn => ?_)
        · exact hnext y (by rwa [listNext, if_neg hxt])
        · exact hother y (List.mem_cons_of_mem x hy) (by rwa [listNext, if_neg hxt])

/-! ## `add_timer` -/

/-- The timers of `l` and `t`, linked with what each waits for. -/
structure Inserted (t : ℕ) (l : List ℕ) (s : Timers) (l' : List ℕ) (s' : Timers) : Prop where
  sched : s'.sched = s.sched
  timerList : s'.timerList = s.timerList
  proc : ∀ u, (s'.timer u).proc = (s.timer u).proc
  other : ∀ u, u ∉ t :: l → s'.timer u = s.timer u
  perm : l'.Perm (t :: l)
  self : dueIn s'.timer l' t = (s.timer t).expires
  due : ∀ u ∈ l, dueIn s'.timer l' u = dueIn s.timer l u

/-- The walk stops at `next`, which waits for the difference. -/
theorem inserted_stop {next : ℕ} (hnd : (t :: next :: l).Nodup)
    (hlt : (s.timer t).expires < (s.timer next).expires)
    (he : (s.timer next).expires < 2 ^ 32) :
    Inserted t (next :: l) s (t :: next :: l)
      (s.setExpires next (sub32 (s.timer next).expires (s.timer t).expires)) := by
  obtain ⟨ht, hnd⟩ := List.nodup_cons.mp hnd
  obtain ⟨hn, -⟩ := List.nodup_cons.mp hnd
  have htn : t ≠ next := fun h => ht (h ▸ List.mem_cons_self)
  rw [sub32_of_le hlt.le he]
  refine ⟨rfl, rfl, fun u => setExpires_proc, fun u hu => setExpires_of_ne ?_, .refl _, ?_,
    fun u hu => ?_⟩
  · exact fun h => hu (List.mem_cons_of_mem t (h ▸ List.mem_cons_self))
  · rw [dueIn_head, setExpires_of_ne htn]
  · rw [dueIn_cons (ne_of_mem_of_not_mem hu ht).symm, setExpires_of_ne htn, dueIn, dueIn,
      setExpires_self]
    have hl : dueIn (s.setExpires next ((s.timer next).expires - (s.timer t).expires)).timer l u =
        dueIn s.timer l u :=
      dueIn_congr fun y hy => by rw [setExpires_of_ne (ne_of_mem_of_not_mem hy hn)]
    rw [hl]
    dsimp only
    omega

/-- The walk passes `next`, and takes its difference off. -/
theorem Inserted.pass {next : ℕ} {l' : List ℕ} (hnd : (t :: next :: l).Nodup)
    (hle : (s.timer next).expires ≤ (s.timer t).expires) (he : (s.timer t).expires < 2 ^ 32)
    (h : Inserted t l (s.setExpires t (sub32 (s.timer t).expires (s.timer next).expires)) l' s') :
    Inserted t (next :: l) s (next :: l') s' := by
  obtain ⟨ht, hnd⟩ := List.nodup_cons.mp hnd
  obtain ⟨hn, -⟩ := List.nodup_cons.mp hnd
  have hnt : next ≠ t := fun h => ht (h ▸ List.mem_cons_self)
  have hnext : s'.timer next = s.timer next :=
    (h.other next (by simp [hnt, hn])).trans (setExpires_of_ne hnt)
  refine ⟨h.sched, h.timerList, fun u => (h.proc u).trans setExpires_proc, fun u hu => ?_,
    (h.perm.cons next).trans (.swap ..), ?_, fun u hu => ?_⟩
  · obtain ⟨hut, hunl⟩ := not_or.mp (fun h => hu (List.mem_cons.mpr h))
    rw [h.other u fun hm => ?_, setExpires_of_ne hut]
    rcases List.mem_cons.mp hm with hm | hm
    · exact hut hm
    · exact hunl (List.mem_cons_of_mem next hm)
  · rw [dueIn_cons hnt, h.self, setExpires_self, hnext, sub32_of_le hle he]
    dsimp only
    omega
  · rw [dueIn, dueIn, hnext]
    rcases eq_or_ne next u with rfl | hnu
    · rw [if_pos rfl, if_pos rfl]
    · have hul : u ∈ l := List.mem_of_ne_of_mem hnu.symm hu
      have hl : dueIn (s.setExpires t (sub32 (s.timer t).expires (s.timer next).expires)).timer l u =
          dueIn s.timer l u :=
        dueIn_congr fun y hy => by
          rw [setExpires_of_ne (ne_of_mem_of_not_mem (List.mem_cons_of_mem next hy) ht)]
      rw [if_neg hnu, if_neg hnu, h.due u hul, hl]

theorem wp_addTimerLoop (l : List ℕ) (s : Timers) (hnd : (t :: l).Nodup)
    (he : ∀ x ∈ t :: l, (s.timer x).expires < 2 ^ 32) :
    Act.wp (addTimerLoop t l) (fun l' s' => Inserted t l s l' s') (fun _ => False) s := by
  induction l generalizing s with
  | nil =>
    exact ⟨rfl, rfl, fun _ => rfl, fun _ _ => rfl, .refl _, dueIn_head,
      fun u hu => absurd hu List.not_mem_nil⟩
  | cons next l ih =>
    have het := he t List.mem_cons_self
    have hen := he next (by simp)
    have htl : t ∉ l := fun h => (List.nodup_cons.mp hnd).1 (List.mem_cons_of_mem next h)
    simp only [addTimerLoop, Act.wp_bind, Act.wp_get, Act.wp_ite, Act.wp_modify, Act.wp_pure]
    refine ⟨fun hlt => inserted_stop hnd hlt hen, fun hge => ?_⟩
    refine Act.wp_mono (ih _ ?_ fun x hx => ?_) (fun l' s' h => h.pass hnd (not_lt.mp hge) het)
      fun _ => id
    · exact List.nodup_cons.mpr ⟨htl, (List.nodup_cons.mp (List.nodup_cons.mp hnd).2).2⟩
    · rcases eq_or_ne x t with rfl | hxt
      · rw [setExpires_self, sub32_of_le (not_lt.mp hge) het]
        exact (Nat.sub_le ..).trans_lt het
      · rw [setExpires_of_ne hxt]
        refine he x ?_
        rcases List.mem_cons.mp hx with rfl | hx
        · exact List.mem_cons_self
        · exact List.mem_cons_of_mem t (List.mem_cons_of_mem next hx)

/-! ## The timer list between two calls -/

/-- **The timer list**: every linked timer has a process and at least one tick to wait. -/
structure Timed (s : Timers) : Prop where
  nodup : s.timerList.Nodup
  proc : ∀ t ∈ s.timerList, (s.timer t).proc.isSome
  pos : ∀ t ∈ s.timerList, 0 < s.due t
  lt : ∀ t ∈ s.timerList, s.due t < 2 ^ 32

theorem Timed.expires_lt (h : Timed s) (ht : t ∈ s.timerList) : (s.timer t).expires < 2 ^ 32 :=
  (expires_le_dueIn ht).trans_lt (h.lt t ht)

/-- **The assertion of `run_timer_list`** holds: the first timer waits for its own difference. -/
theorem Timed.head_ne_zero (h : Timed s) (ht : s.timerList.head? = some t) :
    (s.timer t).expires ≠ 0 := by
  have hpos := h.pos t (List.mem_of_mem_head? ht)
  obtain ⟨l, hl⟩ := List.head?_eq_some_iff.mp ht
  rw [due, hl, dueIn_head] at hpos
  exact hpos.ne'

/-- An operation that leaves each linked timer with its process, and waiting as before. -/
theorem Timed.of_due (h : Timed s) (hnd : s'.timerList.Nodup)
    (hsub : s'.timerList ⊆ s.timerList) (hproc : ∀ u, (s'.timer u).proc = (s.timer u).proc)
    (hdue : ∀ u ∈ s'.timerList, s'.due u = s.due u) : Timed s' where
  nodup := hnd
  proc u hu := hproc u ▸ h.proc u (hsub hu)
  pos u hu := hdue u hu ▸ h.pos u (hsub hu)
  lt u hu := hdue u hu ▸ h.lt u (hsub hu)

/-- **`add_timer`** links `t` for its `expires`; the others wait as before. -/
theorem wp_addTimer (h : Timed s) (ht : t ∉ s.timerList) (hpos : 0 < (s.timer t).expires)
    (hlt : (s.timer t).expires < 2 ^ 32) (hproc : (s.timer t).proc.isSome) :
    Act.wp (addTimer t)
      (fun _ s' => Timed s' ∧ s'.sched = s.sched ∧ (∀ u, (s'.timer u).proc = (s.timer u).proc) ∧
        (∀ u, u ∈ s'.timerList ↔ u = t ∨ u ∈ s.timerList) ∧ s'.due t = (s.timer t).expires ∧
        ∀ u ∈ s.timerList, s'.due u = s.due u)
      (fun _ => False) s := by
  simp only [addTimer, Act.wp_bind, Act.wp_get, Act.wp_require, Act.wp_modify]
  refine ⟨fun _ => ⟨fun _ => ?_, fun hn => hn ht⟩, fun hn => hn ⟨hpos, hproc⟩⟩
  have hnd : (t :: s.timerList).Nodup := List.nodup_cons.mpr ⟨ht, h.nodup⟩
  refine Act.wp_mono (wp_addTimerLoop s.timerList s hnd fun x hx => ?_) (fun l' s' hi => ?_)
    fun _ => id
  · rcases List.mem_cons.mp hx with rfl | hx
    · exact hlt
    · exact h.expires_lt hx
  have hmem : ∀ u, u ∈ l' ↔ u = t ∨ u ∈ s.timerList := fun u => by
    rw [hi.perm.mem_iff, List.mem_cons]
  refine ⟨⟨hi.perm.nodup_iff.mpr hnd, fun u hu => ?_, fun u hu => ?_, fun u hu => ?_⟩, hi.sched,
    hi.proc, hmem, hi.self, hi.due⟩
  · change (s'.timer u).proc.isSome
    rw [hi.proc]
    rcases (hmem u).mp hu with rfl | hu
    · exact hproc
    · exact h.proc u hu
  · change 0 < dueIn s'.timer l' u
    rcases (hmem u).mp hu with rfl | hu
    · exact hi.self ▸ hpos
    · exact hi.due u hu ▸ h.pos u hu
  · change dueIn s'.timer l' u < 2 ^ 32
    rcases (hmem u).mp hu with rfl | hu
    · exact hi.self ▸ hlt
    · exact hi.due u hu ▸ h.lt u hu

/-! ## `del_timer` -/

/-- A timer that has run out leaves nothing to the one after it. -/
theorem delTimer_expired (ht : t ∈ s.timerList) (h0 : (s.timer t).expires = 0) :
    delTimer t s = .ok ((), { s with timerList := s.timerList.erase t }) := by
  have hwp : Act.wp (delTimer t) (fun _ s' => s' = { s with timerList := s.timerList.erase t })
      (fun _ => False) s := by
    rw [delTimer, Act.wp_bind, Act.wp_get, Act.wp_ite]
    refine ⟨fun _ => ?_, fun hn => absurd ht hn⟩
    dsimp only
    rw [Act.wp_ite]
    exact ⟨fun hne => absurd h0 hne, fun _ => rfl⟩
  obtain ⟨a, s', hrun, rfl⟩ := Act.wp_false_iff.mp hwp
  exact hrun

/-- **`del_timer`** unlinks `t`; the others wait as before. -/
theorem wp_delTimer (h : Timed s) (t : ℕ) :
    Act.wp (delTimer t)
      (fun _ s' => Timed s' ∧ s'.sched = s.sched ∧ (∀ u, (s'.timer u).proc = (s.timer u).proc) ∧
        s'.timerList = s.timerList.erase t ∧ ∀ u ∈ s.timerList, u ≠ t → s'.due u = s.due u)
      (fun _ => False) s := by
  -- whatever the links after `t` become, it is enough that its difference goes to the next timer
  have hdone : ∀ f : ℕ → Timer, (∀ u, (f u).proc = (s.timer u).proc) →
      (∀ y, listNext t s.timerList = some y →
        (f y).expires = (s.timer y).expires + (s.timer t).expires) →
      (∀ y ∈ s.timerList, listNext t s.timerList ≠ some y →
        (f y).expires = (s.timer y).expires) →
      let s' : Timers := { s with timer := f, timerList := s.timerList.erase t }
      Timed s' ∧ s'.sched = s.sched ∧ (∀ u, (s'.timer u).proc = (s.timer u).proc) ∧
        s'.timerList = s.timerList.erase t ∧
        ∀ u ∈ s.timerList, u ≠ t → s'.due u = s.due u := by
    intro f hproc hnext hother s'
    have hdue : ∀ u ∈ s.timerList, u ≠ t → s'.due u = s.due u :=
      fun u hu hut => dueIn_erase h.nodup hu hut hnext hother
    refine ⟨h.of_due (h.nodup.erase t) List.erase_subset hproc fun u hu => ?_, rfl, hproc, rfl, hdue⟩
    exact hdue u (List.mem_of_mem_erase hu) fun hut => h.nodup.not_mem_erase (hut ▸ hu)
  rw [delTimer, Act.wp_bind, Act.wp_get, Act.wp_ite]
  refine ⟨fun ht => ?_, fun ht => ?_⟩
  · dsimp only
    rw [Act.wp_ite]
    refine ⟨fun hne => ?_, fun h0 => ?_⟩
    · cases hn : listNext t s.timerList with
      | none => exact hdone s.timer (fun _ => rfl) (by simp [hn]) fun _ _ _ => rfl
      | some next =>
        have hle : (s.timer next).expires + (s.timer t).expires < 2 ^ 32 :=
          (expires_add_le_dueIn h.nodup hn).trans_lt (h.lt next (listNext_mem hn))
        refine hdone _ (fun u => setExpires_proc) (fun y hy => ?_) fun y hy hny => ?_
        · obtain rfl : next = y := Option.some.inj (hn.symm.trans hy)
          rw [setExpires_self, u32_of_lt hle]
        · have hyn : y ≠ next := fun hyn => hny (hyn ▸ hn)
          rw [setExpires_of_ne hyn]
    · have hz : (s.timer t).expires = 0 := not_not.mp h0
      exact hdone s.timer (fun _ => rfl) (by simp [hz]) fun _ _ _ => rfl
  · have her : s.timerList.erase t = s.timerList := List.erase_of_not_mem ht
    exact ⟨h, rfl, fun _ => rfl, her.symm, fun _ _ _ => rfl⟩

end Timers

end UCore
