import UCore.Machinery.RingBuffer
import UCore.Schedule.Sched

/-!
# Fs/Stdin — does keyboard input arrive in order?

`kern/fs/devs/dev_stdin.c`.  The keyboard interrupt stores characters in a ring, and any number of
processes take them out again, asleep in between:

    dev_stdin_write ──▸ | p_rpos … p_wpos | ──▸ dev_stdin_read   (while p_rpos < p_wpos)

The store comes before the test for room.  A run is in order as long as no character is stored in the
full ring, or one that changes nothing: the slot is that of the oldest character pending.
-/

namespace UCore

/-- `WT_KBD`. -/
def WT_KBD : ℕ := 0x00000004 ||| WT_INTERRUPTED

/-- `STDIN_BUFSIZE`. -/
abbrev STDIN_BUFSIZE : ℕ := 4096

/-- `stdin_buffer`, `p_rpos` and `p_wpos`. -/
structure StdinRing where
  buffer : ℕ → UInt8
  rpos : ℕ
  wpos : ℕ

/-- What an observer notes: the characters written that are not zero, those of them that found room,
and those stored through `buf`, with the process, each in order.  The code reads none of it. -/
structure StdinLog where
  written : List UInt8
  accepted : List UInt8
  delivered : List (ℕ × UInt8)

/-- What a call of `dev_stdin_read` keeps on its stack while it sleeps. -/
structure StdinRead where
  len : ℕ
  ret : ℕ
  deriving DecidableEq

/-- The device, the processes that wait for it, first to last, with the `wakeup_flags` of each one's
`wait_t`, and the call each is in. -/
structure Stdin where
  ring : StdinRing
  log : StdinLog
  sched : Sched
  waitQueue : List ℕ
  wakeupFlags : ℕ → ℕ
  call : ℕ → Option StdinRead

namespace Stdin

/-- An interrupt-disabled section. -/
abbrev Call (α : Type) := Act Stdin Stop α

/-- A section of the scheduler. -/
def onSched {α : Type} (m : Sched.Call α) : Call α :=
  Act.zoom (fun s : Stdin => s.sched) (fun t s => { s with sched := t }) m

/-! ## `wait.c` -/

/-- `wakeup_wait`, with the wait taken off the queue. -/
def wakeupWait (p wakeupFlags : ℕ) : Call Unit := do
  Act.require .panic (p ∈ (← get).waitQueue)
  modify fun s => { s with waitQueue := s.waitQueue.erase p
                           wakeupFlags := Function.update s.wakeupFlags p wakeupFlags }
  onSched (Sched.wakeupProc p)

/-- The loop of `wakeup_queue`, over the processes on the queue. -/
def wakeupLoop (wakeupFlags : ℕ) : List ℕ → Call Unit
  | [] => return ()
  | p :: queue => do
    wakeupWait p wakeupFlags
    wakeupLoop wakeupFlags queue

/-- `wakeup_queue`. -/
def wakeupQueue (wakeupFlags : ℕ) : Call Unit := do wakeupLoop wakeupFlags (← get).waitQueue

/-- `wait_current_set`. -/
def waitCurrentSet (waitState : ℕ) : Call Unit := do
  let p := (← get).sched.current
  Act.require .panic (p ∉ (← get).waitQueue)
  onSched (modify fun s => s.modifyProc p fun g =>
    { g with state := .sleeping, waitState := waitState })
  modify fun s => { s with waitQueue := s.waitQueue ++ [p]
                           wakeupFlags := Function.update s.wakeupFlags p WT_INTERRUPTED }

/-- `wait_current_del`. -/
def waitCurrentDel : Call Unit :=
  modify fun s => { s with waitQueue := s.waitQueue.erase s.sched.current }

/-! ## `dev_stdin.c` -/

/-- The store and the count of `dev_stdin_write`. -/
def StdinRing.put (c : UInt8) (r : StdinRing) : StdinRing where
  buffer := Function.update r.buffer (r.wpos % STDIN_BUFSIZE) c
  rpos := r.rpos
  wpos := if r.wpos - r.rpos < STDIN_BUFSIZE then r.wpos + 1 else r.wpos

/-- …as it is noted. -/
def StdinLog.put (r : StdinRing) (c : UInt8) (l : StdinLog) : StdinLog where
  written := l.written ++ [c]
  accepted := if r.wpos - r.rpos < STDIN_BUFSIZE then l.accepted ++ [c] else l.accepted
  delivered := l.delivered

/-- `dev_stdin_write`. -/
def devStdinWrite (c : UInt8) : Call Unit := do
  if c ≠ 0 then
    modify fun s => { s with ring := StdinRing.put c s.ring, log := StdinLog.put s.ring c s.log }
    if (← get).waitQueue ≠ [] then wakeupQueue WT_KBD

/-- One turn of the loop of `dev_stdin_read` that finds a character. -/
def takeChar : Call Unit := modify fun s =>
  { s with ring := { s.ring with rpos := s.ring.rpos + 1 }
           log := { s.log with delivered :=
             s.log.delivered ++ [(s.sched.current, s.ring.buffer (s.ring.rpos % STDIN_BUFSIZE))] } }

/-- The loop of `dev_stdin_read`, with `left` characters to go; the result is `ret`, or nothing when the
process goes to sleep. -/
def readLoop (len : ℕ) : ℕ → Call (Option ℕ)
  | 0 => return some len
  | left + 1 => do
    let s ← get
    if s.ring.rpos < s.ring.wpos then
      takeChar
      readLoop len left
    else
      waitCurrentSet WT_KBD
      let r : StdinRead := ⟨len, len - (left + 1)⟩
      modify fun s => { s with call := Function.update s.call s.sched.current (some r) }
      return none

/-- `dev_stdin_read`, up to its end or the first sleep. -/
def devStdinRead (len : ℕ) : Call (Option ℕ) := readLoop len len

/-- `dev_stdin_read` from `schedule()` on, up to its end or the next sleep. -/
def devStdinReadAgain (r : StdinRead) : Call (Option ℕ) := do
  waitCurrentDel
  modify fun s => { s with call := Function.update s.call s.sched.current none }
  let s ← get
  if s.wakeupFlags s.sched.current = WT_KBD then
    readLoop r.len (r.len - r.ret)
  else
    return some r.ret

/-- `stdin_device_init`, in a kernel with the processes `sched`. -/
def stdinDeviceInit (sched : Sched) : Stdin where
  ring := ⟨fun _ => 0, 0, 0⟩
  log := ⟨[], [], []⟩
  sched := sched
  waitQueue := []
  wakeupFlags := fun _ => 0
  call := fun _ => none

/-! ## Runs -/

/-- What happens next: the keyboard interrupt, a call of `dev_stdin_read` by the process that runs, its
return from `schedule()`, or anything that other code does to the processes — `schedule`, `do_kill`, a
timer. -/
inductive Event where
  | write (c : UInt8)
  | read (len : ℕ)
  | resume
  | others (sched : Sched)

/-- **A step**: one section.  A process in a call is in `schedule()`, and starts no other call. -/
def step : Event → Call Unit
  | .write c => devStdinWrite c
  | .read len => do
    let s ← get
    Act.require .panic (s.call s.sched.current = none)
    let _ ← devStdinRead len
  | .resume => do
    let s ← get
    match s.call s.sched.current with
    | none => throw .panic
    | some r => let _ ← devStdinReadAgain r
  | .others sched => modify fun s => { s with sched := sched }

/-- **A run**: sections in any order. -/
def run : List Event → Call Unit
  | [] => return ()
  | e :: es => do
    step e
    run es

/-- The characters that are pending. -/
def pending (s : Stdin) : List UInt8 :=
  RingBuffer.pending STDIN_BUFSIZE s.ring.buffer s.ring.rpos s.ring.wpos

/-- The characters delivered. -/
def delivered (s : Stdin) : List UInt8 := s.log.delivered.map Prod.snd

/-- **Input arrives in order**: what was delivered is a subsequence of what was written, and of the
characters that found room each was delivered, once, in order and unchanged, or is still pending. -/
structure InOrder (s : Stdin) : Prop where
  sublist : s.delivered.Sublist s.log.written
  accepted : s.log.accepted = s.delivered ++ s.pending

/-- **A write that does no harm**: there is room, or the character is the oldest one pending. -/
def Harmless (s : Stdin) (c : UInt8) : Prop :=
  c = 0 ∨ s.ring.wpos - s.ring.rpos < STDIN_BUFSIZE ∨ s.pending.head? = some c

/-! ## What a section does to the ring -/

variable {s t : Stdin} {I : Stdin → Prop} {c : UInt8} {es : List Event}

/-- The ring and what is noted are as they were. -/
def Untouched (s t : Stdin) : Prop := t.ring = s.ring ∧ t.log = s.log

/-- **A property of the ring and the log** that taking the next character keeps. -/
structure Stable (I : Stdin → Prop) : Prop where
  frame : ∀ s t, Untouched s t → I s → I t
  take : ∀ s, s.ring.rpos < s.ring.wpos → I s → Act.wp takeChar (fun _ t => I t) (fun _ => True) s

/-- The processes are no part of the ring. -/
theorem wp_onSched {α : Type} (m : Sched.Call α) (s : Stdin) :
    Act.wp (onSched m) (fun _ t => Untouched s t) (fun _ => True) s := by
  rw [onSched, Act.wp_zoom]
  exact Act.wp_mono (Act.wp_true m s.sched) (fun _ _ _ => ⟨rfl, rfl⟩) fun _ _ => trivial

theorem wp_wakeupLoop (flags : ℕ) (queue : List ℕ) (s : Stdin) :
    Act.wp (wakeupLoop flags queue) (fun _ t => Untouched s t) (fun _ => True) s := by
  induction queue generalizing s with
  | nil => exact ⟨rfl, rfl⟩
  | cons p queue ih =>
    simp only [wakeupLoop, wakeupWait, Act.wp_bind, Act.wp_get, Act.wp_require, Act.wp_modify]
    refine ⟨fun _ => ?_, fun _ => trivial⟩
    refine Act.wp_mono (wp_onSched _ _) (fun _ t ht => ?_) fun _ _ => trivial
    refine Act.wp_mono (ih t) (fun _ u hu => ?_) fun _ _ => trivial
    exact ⟨hu.1.trans ht.1, hu.2.trans ht.2⟩

theorem wp_waitCurrentSet (state : ℕ) (s : Stdin) :
    Act.wp (waitCurrentSet state) (fun _ t => Untouched s t) (fun _ => True) s := by
  simp only [waitCurrentSet, Act.wp_bind, Act.wp_get, Act.wp_require, Act.wp_modify]
  refine ⟨fun _ => ?_, fun _ => trivial⟩
  exact Act.wp_mono (wp_onSched _ _) (fun _ t ht => ht) fun _ _ => trivial

/-- **`dev_stdin_write`** stores the character and wakes every process that waits. -/
theorem wp_devStdinWrite (c : UInt8) (s : Stdin) :
    Act.wp (devStdinWrite c) (fun _ t => if c = 0 then Untouched s t else
      t.ring = StdinRing.put c s.ring ∧ t.log = StdinLog.put s.ring c s.log) (fun _ => True) s := by
  rw [devStdinWrite, Act.wp_ite]
  refine ⟨fun hc => ?_, fun hc => ?_⟩
  · simp only [Act.wp_bind, Act.wp_modify, Act.wp_get, Act.wp_ite, if_neg hc, wakeupQueue]
    exact ⟨fun _ => wp_wakeupLoop _ _ _, fun _ => ⟨rfl, rfl⟩⟩
  · simp only [Act.wp_pure, if_pos (not_not.mp hc)]
    exact ⟨rfl, rfl⟩

/-- The loop of `dev_stdin_read` takes characters, and goes to sleep or not. -/
theorem Stable.wp_readLoop (hI : Stable I) (len left : ℕ) (s : Stdin) (hs : I s) :
    Act.wp (readLoop len left) (fun _ t => I t) (fun _ => True) s := by
  induction left generalizing s with
  | zero =>
    rw [readLoop, Act.wp_pure]
    exact hs
  | succ left ih =>
    rw [readLoop, Act.wp_bind, Act.wp_get, Act.wp_ite]
    refine ⟨fun hlt => ?_, fun _ => ?_⟩
    · rw [Act.wp_bind]
      exact Act.wp_mono (hI.take s hlt hs) (fun _ t => ih t) fun _ _ => trivial
    · simp only [Act.wp_bind, Act.wp_modify, Act.wp_pure]
      refine Act.wp_mono (wp_waitCurrentSet _ s) (fun _ t ht => ?_) fun _ _ => trivial
      exact hI.frame s _ ht hs

/-- **Every section but a write** keeps what is stable. -/
theorem Stable.wp_step (hI : Stable I) {e : Event} (he : ∀ c, e ≠ .write c) (s : Stdin) (hs : I s) :
    Act.wp (step e) (fun _ t => I t) (fun _ => True) s := by
  cases e with
  | write c => exact absurd rfl (he c)
  | others sched => exact hI.frame s _ ⟨rfl, rfl⟩ hs
  | read len =>
    simp only [step, devStdinRead, Act.wp_bind, Act.wp_get, Act.wp_require, Act.wp_pure]
    exact ⟨fun _ => hI.wp_readLoop len len s hs, fun _ => trivial⟩
  | resume =>
    rw [step, Act.wp_bind, Act.wp_get]
    cases s.call s.sched.current with
    | none => trivial
    | some r =>
      simp only [devStdinReadAgain, waitCurrentDel, Act.wp_bind, Act.wp_get, Act.wp_modify, Act.wp_ite,
        Act.wp_pure]
      exact ⟨fun _ => hI.wp_readLoop _ _ _ (hI.frame s _ ⟨rfl, rfl⟩ hs), fun _ => hI.frame s _ ⟨rfl, rfl⟩ hs⟩

/-! ## In order, step by step -/

/-- **The positions**: no more than the ring holds lies between them; what found room was written. -/
structure Fits (s : Stdin) : Prop where
  le : s.ring.rpos ≤ s.ring.wpos
  room : s.ring.wpos ≤ s.ring.rpos + STDIN_BUFSIZE
  noted : s.log.accepted.Sublist s.log.written

theorem stable_fits : Stable Fits where
  frame := by
    rintro s t ⟨hr, hl⟩ ⟨hle, hroom, hnoted⟩
    exact ⟨by rw [hr]; exact hle, by rw [hr]; exact hroom, by rw [hl]; exact hnoted⟩
  take := fun s hlt hs => ⟨hlt, hs.room.trans (Nat.add_le_add_right (Nat.le_succ _) _), hs.noted⟩

/-- What the log says of the characters that found room. -/
def Kept (s : Stdin) : Prop := s.log.accepted = s.delivered ++ s.pending

theorem stable_kept : Stable Kept where
  frame := by
    rintro s t ⟨hr, hl⟩ hs
    rw [Kept, delivered, pending, hr, hl]
    exact hs
  take := fun s hlt hs => by
    change s.log.accepted = _
    rw [show s.log.accepted = s.delivered ++ s.pending from hs, pending, RingBuffer.pending_take hlt]
    simp only [delivered, pending, List.map_append, List.map_singleton, List.append_assoc,
      List.singleton_append]

theorem Fits.inOrder_iff (h : Fits s) : InOrder s ↔ Kept s := by
  refine ⟨InOrder.accepted, fun hk => ⟨?_, hk⟩⟩
  have hpre : s.delivered.Sublist s.log.accepted := by
    rw [show s.log.accepted = s.delivered ++ s.pending from hk]
    exact List.sublist_append_left ..
  exact hpre.trans h.noted

/-- A write fits. -/
theorem Fits.put (h : Fits s) (hr : t.ring = StdinRing.put c s.ring)
    (hl : t.log = StdinLog.put s.ring c s.log) : Fits t := by
  have hle := h.le
  have hroom := h.room
  by_cases hlt : s.ring.wpos - s.ring.rpos < STDIN_BUFSIZE
  · refine ⟨?_, ?_, ?_⟩
    · rw [hr, StdinRing.put, if_pos hlt]
      dsimp only
      omega
    · rw [hr, StdinRing.put, if_pos hlt]
      dsimp only
      omega
    · rw [hl, StdinLog.put, if_pos hlt]
      exact h.noted.append (List.Sublist.refl _)
  · refine ⟨?_, ?_, ?_⟩
    · rw [hr, StdinRing.put, if_neg hlt]
      exact hle
    · rw [hr, StdinRing.put, if_neg hlt]
      exact hroom
    · rw [hl, StdinLog.put, if_neg hlt]
      exact h.noted.trans (List.sublist_append_left ..)

/-- **A write keeps the order** exactly if it does no harm. -/
theorem Fits.kept_put (h : Fits s) (hk : Kept s) (hc : c ≠ 0) (hr : t.ring = StdinRing.put c s.ring)
    (hl : t.log = StdinLog.put s.ring c s.log) : Kept t ↔ Harmless s c := by
  have hle := h.le
  have hroom := h.room
  have hdel : t.delivered = s.delivered := by rw [delivered, hl]; rfl
  have hold : s.log.accepted = s.delivered ++ s.pending := hk
  by_cases hlt : s.ring.wpos - s.ring.rpos < STDIN_BUFSIZE
  · refine iff_of_true ?_ (.inr (.inl hlt))
    rw [Kept, hdel, pending, hr, hl]
    simp only [StdinRing.put, StdinLog.put, if_pos hlt]
    rw [RingBuffer.pending_put hle (by omega), ← List.append_assoc, hold]
    rfl
  · have hpos : 0 < STDIN_BUFSIZE := by norm_num
    have hfull : s.ring.wpos = s.ring.rpos + STDIN_BUFSIZE := by omega
    have hpend : s.pending = s.ring.buffer (s.ring.rpos % STDIN_BUFSIZE) ::
        RingBuffer.pending STDIN_BUFSIZE s.ring.buffer (s.ring.rpos + 1) s.ring.wpos :=
      RingBuffer.pending_take (by omega)
    have hnew : t.pending =
        c :: RingBuffer.pending STDIN_BUFSIZE s.ring.buffer (s.ring.rpos + 1) s.ring.wpos := by
      rw [pending, hr]
      simp only [StdinRing.put, if_neg hlt]
      exact RingBuffer.pending_put_full hfull hpos
    have hacc : t.log.accepted = s.log.accepted := by
      rw [hl, StdinLog.put, if_neg hlt]
    rw [Kept, hacc, hdel, hold, hnew, hpend, List.append_cancel_left_eq, List.cons.injEq, Harmless, hpend,
      List.head?_cons, Option.some.injEq]
    simp only [and_true, hc, hlt, false_or]

/-- Every section leaves what is pending in the ring. -/
theorem Fits.wp_step (h : Fits s) (e : Event) :
    Act.wp (step e) (fun _ t => Fits t) (fun _ => True) s := by
  by_cases he : ∃ c, e = .write c
  · obtain ⟨c, rfl⟩ := he
    refine Act.wp_mono (wp_devStdinWrite c s) (fun _ t ht => ?_) fun _ _ => trivial
    split at ht
    · exact stable_fits.frame s t ht h
    · exact h.put ht.1 ht.2
  · exact stable_fits.wp_step (fun c hc => he ⟨c, hc⟩) s h

/-- **A section keeps the order**: a write exactly if it does no harm, and any other. -/
theorem Fits.wp_kept (h : Fits s) (hk : Kept s) (e : Event) :
    Act.wp (step e) (fun _ t => Kept t ↔ ∀ c, e = .write c → Harmless s c) (fun _ => True) s := by
  by_cases he : ∃ c, e = .write c
  · obtain ⟨c, rfl⟩ := he
    refine Act.wp_mono (wp_devStdinWrite c s) (fun _ t ht => ?_) fun _ _ => trivial
    have hone : (∀ d, Event.write c = .write d → Harmless s d) ↔ Harmless s c :=
      ⟨fun hall => hall c rfl, fun hharm d hd => by cases hd; exact hharm⟩
    rw [hone]
    split at ht
    · next hc => exact iff_of_true (stable_kept.frame s t ht hk) (.inl hc)
    · next hc => exact h.kept_put hk hc ht.1 ht.2
  · refine Act.wp_mono (stable_kept.wp_step (fun c hc => he ⟨c, hc⟩) s hk) (fun _ t ht => ?_)
      fun _ _ => trivial
    exact iff_of_true ht fun c hc => absurd ⟨c, hc⟩ he

/-! ## In order, over a run -/

/-- A run of two parts. -/
theorem run_append (es fs : List Event) : run (es ++ fs) = run es >>= fun _ => run fs := by
  induction es with
  | nil => rfl
  | cons e es ih =>
    rw [List.cons_append, run, run, ih, bind_assoc]

/-- The last section of a run. -/
theorem run_concat {e : Event} {s u : Stdin} (h : run (es ++ [e]) s = .ok ((), u)) :
    ∃ t, run es s = .ok ((), t) ∧ step e t = .ok ((), u) := by
  rw [run_append] at h
  obtain ⟨⟨⟩, t, ht, hu⟩ := Act.exists_of_bind h
  rw [run] at hu
  obtain ⟨⟨⟩, u', hu', hret⟩ := Act.exists_of_bind hu
  cases hret
  exact ⟨t, ht, hu'⟩

/-- A run and one section more. -/
theorem run_snoc {e : Event} {u : Stdin} (h : run es s = .ok ((), t)) (he : step e t = .ok ((), u)) :
    run (es ++ [e]) s = .ok ((), u) := by
  rw [run_append]
  simp only [bind, StateT.bind, Except.bind, h, run, he]
  rfl

theorem fits_init (sched : Sched) : Fits (stdinDeviceInit sched) :=
  ⟨le_rfl, Nat.zero_le _, List.Sublist.refl _⟩

theorem kept_init (sched : Sched) : Kept (stdinDeviceInit sched) := by
  rw [Kept, pending, stdinDeviceInit, RingBuffer.pending_self]
  rfl

theorem fits_of_run {sched : Sched} (h : run es (stdinDeviceInit sched) = .ok ((), s)) : Fits s := by
  induction es using List.reverseRecOn generalizing s with
  | nil =>
    cases h
    exact fits_init sched
  | append_singleton es e ih =>
    obtain ⟨t, ht, hs⟩ := run_concat h
    exact Act.wp_of_ok ((ih ht).wp_step e) hs

/-- **Keyboard input arrives in order** at every point of a run exactly if none of its writes does harm. -/
theorem stdin_inOrder_iff {sched : Sched} (h : run es (stdinDeviceInit sched) = .ok ((), s)) :
    (∀ fs t, fs <+: es → run fs (stdinDeviceInit sched) = .ok ((), t) → InOrder t) ↔
      ∀ fs c t, fs ++ [.write c] <+: es → run fs (stdinDeviceInit sched) = .ok ((), t) → Harmless t c := by
  constructor
  · rintro hall fs c t ⟨gs, rfl⟩ ht
    have hfits := fits_of_run ht
    have hkept := (hall fs t ⟨.write c :: gs, by simp⟩ ht).accepted
    rw [run_append] at h
    obtain ⟨⟨⟩, u, hu, -⟩ := Act.exists_of_bind h
    have hkept' := (hall _ u (List.prefix_append _ gs) hu).accepted
    obtain ⟨t', ht', hstep⟩ := run_concat hu
    obtain rfl : t' = t := by
      rw [ht] at ht'
      cases ht'
      rfl
    have hiff := Act.wp_of_ok (hfits.wp_kept hkept (.write c)) hstep
    exact hiff.mp hkept' c rfl
  · intro hharm fs t hfs ht
    rw [(fits_of_run ht).inOrder_iff]
    induction fs using List.reverseRecOn generalizing t with
    | nil =>
      cases ht
      exact kept_init sched
    | append_singleton fs e ih =>
      obtain ⟨u, hu, hstep⟩ := run_concat ht
      have hkept := ih u ((List.prefix_append fs [e]).trans hfs) hu
      have hiff := Act.wp_of_ok ((fits_of_run hu).wp_kept hkept e) hstep
      refine hiff.mpr fun c hc => hharm fs c u ?_ hu
      rw [← hc]
      exact hfs

/-- A kernel with one process that runs. -/
def oneProcess : Sched := ⟨fun _ => ⟨.runnable, 0, false⟩, 1, []⟩

/-- A process that waits for a character, and gets it. -/
theorem stdin_inOrder_iff_one : ∃ s,
    run [.read 1, .write 97, .resume] (stdinDeviceInit oneProcess) = .ok ((), s) ∧ s.delivered = [97] ∧
    ((∀ fs t, fs <+: [.read 1, .write 97, .resume] →
      run fs (stdinDeviceInit oneProcess) = .ok ((), t) → InOrder t) ↔
      ∀ fs c t, fs ++ [.write c] <+: [.read 1, .write 97, .resume] →
        run fs (stdinDeviceInit oneProcess) = .ok ((), t) → Harmless t c) := by
  obtain ⟨⟨⟩, s, h, htest⟩ := Act.exists_of_test
    (m := run [.read 1, .write 97, .resume]) (s := stdinDeviceInit oneProcess)
    (fun _ s => decide (s.delivered = [97])) (by decide +kernel)
  exact ⟨s, h, of_decide_eq_true htest, stdin_inOrder_iff h⟩

/-! ## The ring fills up -/

/-- While nobody waits, `dev_stdin_write` only stores. -/
theorem devStdinWrite_idle (hc : c ≠ 0) (hs : s.waitQueue = []) : devStdinWrite c s =
    .ok ((), { s with ring := StdinRing.put c s.ring, log := StdinLog.put s.ring c s.log }) := by
  rw [devStdinWrite, if_pos hc]
  change (if s.waitQueue ≠ [] then wakeupQueue WT_KBD else pure () : Call Unit) _ = _
  rw [if_neg (not_not.mpr hs)]
  rfl

/-- Up to `STDIN_BUFSIZE` characters that nobody reads find room. -/
theorem exists_filled (sched : Sched) {n : ℕ} (hn : n ≤ STDIN_BUFSIZE) :
    ∃ s, run (List.replicate n (.write 97)) (stdinDeviceInit sched) = .ok ((), s) ∧
      s.waitQueue = [] ∧ s.ring.wpos - s.ring.rpos = n ∧ Kept s ∧ ∀ c ∈ s.log.accepted, c = 97 := by
  induction n with
  | zero => exact ⟨_, rfl, rfl, rfl, kept_init sched, fun _ h => (nomatch h)⟩
  | succ n ih =>
    obtain ⟨s, hrun, hqueue, hpend, hkept, h97⟩ := ih (by omega)
    have hfits := fits_of_run hrun
    have hlt : s.ring.wpos - s.ring.rpos < STDIN_BUFSIZE := by omega
    refine ⟨{ s with ring := StdinRing.put 97 s.ring, log := StdinLog.put s.ring 97 s.log }, ?_, hqueue,
      ?_, ?_, ?_⟩
    · rw [List.replicate_succ']
      exact run_snoc hrun (devStdinWrite_idle (by decide) hqueue)
    · have hle := hfits.le
      simp only [StdinRing.put, if_pos hlt]
      omega
    · exact (hfits.kept_put hkept (by decide) rfl rfl).mpr (.inr (.inl hlt))
    · simp only [StdinLog.put, if_pos hlt]
      intro c hc
      rcases List.mem_append.mp hc with hc | hc
      · exact h97 c hc
      · exact List.mem_singleton.mp hc

/-- **One character more** is stored in the place of the first, which is lost. -/
theorem stdin_full_overwrites : ¬ ∀ es sched s,
    run es (stdinDeviceInit sched) = .ok ((), s) → InOrder s := by
  intro hall
  obtain ⟨s, hrun, hqueue, hpend, hkept, h97⟩ := exists_filled oneProcess le_rfl
  have hfits := fits_of_run hrun
  have hnext := run_snoc (e := .write 98) hrun (devStdinWrite_idle (by decide) hqueue)
  have hbad := (hfits.kept_put hkept (by decide) rfl rfl).mp (hall _ _ _ hnext).accepted
  rcases hbad with h | h | h
  · exact absurd h (by decide)
  · omega
  · -- the oldest character pending found room, so it is another
    have hmem : (98 : UInt8) ∈ s.log.accepted := by
      rw [show s.log.accepted = s.delivered ++ s.pending from hkept]
      exact List.mem_append_right _ (List.mem_of_mem_head? h)
    exact absurd (h97 98 hmem) (by decide)

end Stdin

end UCore
