import UCore.Sync.CheckSync

/-!
# Sync/CheckSyncRun — nobody eats beside a neighbour, and nobody hungry is forgotten

Two facts about the array `state` hold between any two statements of either version: no two
neighbours eat, and whoever could eat is about to be tested.  A philosopher who has changed the array
owes the tests that are left of his call, and owes none once he is out of the critical section.

                   test(LEFT)          test(RIGHT)
    owed   {LEFT, RIGHT}  ──▸  {RIGHT}  ──▸  ∅

The rest ties the array to the control points.  A grant is `EATING` written for a philosopher who
sleeps; it is on its way to him until he wakes.
-/

namespace UCore

namespace CheckSync

variable {N : ℕ} {state : Fin N → PhiState} {i j u t : Fin N} {v : PhiState}

/-! ## The round table -/

@[simp] theorem left_right (i : Fin N) : left (right i) = i := by
  refine Fin.ext ?_
  have hi := i.isLt
  change ((i + 1) % N + N - 1) % N = i
  rcases Nat.lt_or_ge (i + 1) N with h | h
  · rw [Nat.mod_eq_of_lt h, show (i : ℕ) + 1 + N - 1 = i + N by omega, Nat.add_mod_right,
      Nat.mod_eq_of_lt hi]
  · rw [show (i : ℕ) + 1 = N by omega, Nat.mod_self, Nat.mod_eq_of_lt (by omega)]
    omega

@[simp] theorem right_left (i : Fin N) : right (left i) = i := by
  refine Fin.ext ?_
  have hi := i.isLt
  change ((i + N - 1) % N + 1) % N = i
  rcases Nat.eq_zero_or_pos (i : ℕ) with h | h
  · have hm : ((i : ℕ) + N - 1) % N = N - 1 := by
      rw [h, Nat.zero_add]
      exact Nat.mod_eq_of_lt (by omega)
    rw [hm, Nat.sub_add_cancel (by omega), Nat.mod_self, h]
  · have hm : ((i : ℕ) + N - 1) % N = i - 1 := by
      rw [show (i : ℕ) + N - 1 = i - 1 + N by omega, Nat.add_mod_right]
      exact Nat.mod_eq_of_lt (by omega)
    rw [hm, Nat.sub_add_cancel h, Nat.mod_eq_of_lt hi]

/-- With three seats, nobody is his own neighbour. -/
theorem right_ne (hN : 3 ≤ N) (i : Fin N) : right i ≠ i := by
  intro h
  have hi := i.isLt
  have hv : ((i : ℕ) + 1) % N = i := congrArg Fin.val h
  rcases Nat.lt_or_ge (i + 1) N with h' | h'
  · rw [Nat.mod_eq_of_lt h'] at hv
    omega
  · rw [show (i : ℕ) + 1 = N by omega, Nat.mod_self] at hv
    omega

theorem left_ne (hN : 3 ≤ N) (i : Fin N) : left i ≠ i := fun h => by
  have h' := right_left i
  rw [h] at h'
  exact right_ne hN i h'

/-- The calls in `put_forks` are for others. -/
theorem Call.who_ne (hN : 3 ≤ N) {a : Call} (ha : a ≠ .self) (i : Fin N) : a.who i ≠ i := by
  cases a with
  | self => exact absurd rfl ha
  | left => exact left_ne hN i
  | right => exact right_ne hN i

/-- **No two neighbours eat.** -/
def Apart (state : Fin N → PhiState) : Prop := ∀ i, state i = .eating → state (right i) ≠ .eating

/-- The neighbour on the left does not eat either. -/
theorem Apart.left (h : Apart state) (hi : state i = .eating) :
    state (CheckSync.left i) ≠ .eating := by
  intro hl
  have hr := h _ hl
  rw [right_left] at hr
  exact hr hi

/-- Whoever passes the test may eat. -/
theorem Apart.eat (hN : 3 ≤ N) (h : Apart state) (hj : CanEat state j) :
    Apart (Function.update state j .eating) := by
  intro i hi
  rcases eq_or_ne i j with rfl | hij
  · rw [Function.update_of_ne (right_ne hN i)]
    exact hj.2.2
  · rw [Function.update_of_ne hij] at hi
    rcases eq_or_ne (right i) j with hr | hr
    · refine absurd hi ?_
      rw [← left_right i, hr]
      exact hj.2.1
    · rw [Function.update_of_ne hr]
      exact h i hi

/-- Nobody is in the way of one who does not eat. -/
theorem Apart.rest (h : Apart state) (hv : v ≠ .eating) : Apart (Function.update state j v) := by
  intro i hi
  rcases eq_or_ne i j with rfl | hij
  · exact absurd hi (by simpa using hv)
  · rw [Function.update_of_ne hij] at hi
    rcases eq_or_ne (right i) j with rfl | hr
    · simpa using hv
    · rw [Function.update_of_ne hr]
      exact h i hi

/-- One who starts to eat takes a chance from others, and gives none. -/
theorem CanEat.of_eat (h : CanEat (Function.update state j .eating) i) : CanEat state i ∧ i ≠ j := by
  obtain ⟨hi, hl, hr⟩ := h
  have hij : i ≠ j := by
    rintro rfl
    simp at hi
  have hne : ∀ k, Function.update state j .eating k ≠ .eating → state k ≠ .eating := by
    intro k hk
    rcases eq_or_ne k j with rfl | hkj
    · simp at hk
    · rwa [Function.update_of_ne hkj] at hk
  rw [Function.update_of_ne hij] at hi
  exact ⟨⟨hi, hne _ hl, hne _ hr⟩, hij⟩

/-- One who gets hungry gives a chance to himself only. -/
theorem CanEat.of_hungry (hj : state j ≠ .eating) (h : CanEat (Function.update state j .hungry) i) :
    CanEat state i ∨ i = j := by
  rcases eq_or_ne i j with hij | hij
  · exact .inr hij
  · obtain ⟨hi, hl, hr⟩ := h
    have hne : ∀ k, Function.update state j .hungry k ≠ .eating → state k ≠ .eating := by
      intro k hk
      rcases eq_or_ne k j with rfl | hkj
      · exact hj
      · rwa [Function.update_of_ne hkj] at hk
    rw [Function.update_of_ne hij] at hi
    exact .inl ⟨hi, hne _ hl, hne _ hr⟩

/-- One who stops gives a chance to his two neighbours. -/
theorem CanEat.of_thinking (h : CanEat (Function.update state j .thinking) i) :
    CanEat state i ∨ i = left j ∨ i = right j := by
  obtain ⟨hi, hl, hr⟩ := h
  have hij : i ≠ j := by
    rintro rfl
    simp at hi
  rw [Function.update_of_ne hij] at hi
  rcases eq_or_ne (left i) j with rfl | hlj
  · exact .inr (.inr (right_left i).symm)
  rcases eq_or_ne (right i) j with rfl | hrj
  · exact .inr (.inl (left_right i).symm)
  · rw [Function.update_of_ne hlj] at hl
    rw [Function.update_of_ne hrj] at hr
    exact .inl ⟨hi, hl, hr⟩

/-! ## The tests that are owed -/

/-- After this call, `put_forks` still tests `j`. -/
def Call.Later (u : Fin N) : Call → Fin N → Prop
  | .left, j => j = CheckSync.right u
  | _, _ => False

/-- With this call or after it, `j` is tested. -/
def Call.Open (u : Fin N) (a : Call) (j : Fin N) : Prop := j = a.who u ∨ a.Later u j

/-- **Whoever could eat is owed a test**; `E u p` are those whom `u` owes one at the point `p`. -/
def Served {P : Type} (E : Fin N → P → Fin N → Prop) (state : Fin N → PhiState) (pc : Fin N → P) :
    Prop :=
  ∀ j, CanEat state j → ∃ u, E u (pc u) j

/-- **A statement of `i` serves those whom it gives a chance**, and those whom `i` owes less. -/
theorem Served.update {P : Type} {E : Fin N → P → Fin N → Prop} {state' : Fin N → PhiState}
    {pc : Fin N → P} {p : P} (h : Served E state pc)
    (hi : ∀ j, CanEat state' j → E i p j ∨ CanEat state j ∧ ¬ E i (pc i) j) :
    Served E state' (Function.update pc i p) := by
  intro j hj
  rcases hi j hj with hp | ⟨hold, hno⟩
  · exact ⟨i, by rwa [Function.update_self]⟩
  · obtain ⟨u, hu⟩ := h j hold
    have hui : u ≠ i := fun heq => hno (heq ▸ hu)
    exact ⟨u, by rwa [Function.update_of_ne hui]⟩

/-- A statement that leaves the array alone, of one who owes no less after it. -/
theorem Served.keep {P : Type} {E : Fin N → P → Fin N → Prop} {pc : Fin N → P} {p : P}
    (h : Served E state pc) (hi : ∀ j, E i (pc i) j → E i p j) :
    Served E state (Function.update pc i p) :=
  h.update fun j hj => (em (E i (pc i) j)).imp (hi j) fun hno => ⟨hj, hno⟩

/-! ## With semaphores -/

namespace Sema

variable {x x' : Sema N} {p : SemaPc} {k : Option (Fin N)} {n : ℕ}

@[simp] theorem goto_state : (x.goto i p).state = x.state := rfl

@[simp] theorem goto_s : (x.goto i p).s = x.s := rfl

@[simp] theorem goto_pc_self : (x.goto i p).pc i = p := Function.update_self ..

theorem goto_pc_of_ne (h : j ≠ i) : (x.goto i p).pc j = x.pc j := Function.update_of_ne h ..

/-- **The mutex is free, or one philosopher has it.** -/
structure Owner (x : Sema N) (k : Option (Fin N)) : Prop where
  mutex : x.mutex = if k = none then 1 else 0
  inside : ∀ i, (x.pc i).Inside ↔ k = some i

/-- Two philosophers inside are one. -/
theorem Owner.eq (h : Owner x k) (hi : (x.pc i).Inside) (hj : (x.pc j).Inside) : i = j :=
  Option.some.inj (((h.inside i).mp hi).symm.trans ((h.inside j).mp hj))

/-- A statement that leaves the mutex alone. -/
theorem Owner.keep (h : Owner x k) (hm : x'.mutex = x.mutex) (hpc : x'.pc = x.pc)
    (hp : p.Inside ↔ (x.pc i).Inside) : Owner (x'.goto i p) k := by
  refine ⟨hm.trans h.mutex, fun j => ?_⟩
  rcases eq_or_ne j i with rfl | hj
  · rw [goto_pc_self, hp, h.inside]
  · rw [goto_pc_of_ne hj, hpc, h.inside]

/-- `down(&mutex)`. -/
theorem Owner.take (h : Owner x k) (hpos : 0 < x.mutex) (hp : p.Inside) :
    Owner ((x.setMutex (x.mutex - 1)).goto i p) (some i) := by
  have hm := h.mutex
  have hk : k = none := by
    by_contra hk
    rw [if_neg hk] at hm
    omega
  refine ⟨?_, fun j => ?_⟩
  · change x.mutex - 1 = 0
    rw [hm, if_pos hk]
  · rcases eq_or_ne j i with rfl | hj
    · simpa using hp
    · rw [goto_pc_of_ne hj]
      change (x.pc j).Inside ↔ _
      rw [h.inside, hk]
      simp [hj.symm]

/-- `up(&mutex)`. -/
theorem Owner.give (h : Owner x k) (hi : (x.pc i).Inside) (hp : ¬ p.Inside) :
    Owner ((x.setMutex (x.mutex + 1)).goto i p) none := by
  have hk := (h.inside i).mp hi
  refine ⟨?_, fun j => ?_⟩
  · change x.mutex + 1 = 1
    rw [h.mutex, hk]
    rfl
  · refine iff_of_false ?_ nofun
    rcases eq_or_ne j i with rfl | hj
    · simpa using hp
    · rw [goto_pc_of_ne hj]
      change ¬ (x.pc j).Inside
      rw [h.inside, hk]
      exact fun heq => hj (Option.some.inj heq).symm

/-- **What `state[i]` and `s[i]` are**, from where philosopher `i` is. -/
def Fits (v : PhiState) (n : ℕ) : SemaPc → Prop
  | .test .self | .testEat .self => v = .hungry ∧ n = 0
  | .testUp .self | .eating | .putDown | .putThinking => v = .eating ∧ n = 0
  | .takeUp => v = .hungry ∧ n = 0 ∨ v = .eating ∧ n = 1
  | .takeWait => v = .hungry ∧ n = 0 ∨ v = .eating ∧ n ≤ 1
  | _ => v = .thinking ∧ n = 0

/-- A hungry philosopher outside sleeps. -/
theorem Fits.sleeps (h : Fits .hungry n p) (hp : ¬ p.Inside) : p = .takeWait ∧ n = 0 := by
  cases p <;> simp_all [Fits, SemaPc.Inside]

/-- A hungry philosopher has no unit. -/
theorem Fits.zero (h : Fits .hungry n p) : n = 0 := by
  cases p with
  | test a | testEat a | testUp a => cases a <;> simp_all [Fits]
  | _ => simp_all [Fits]

theorem Fits.le_one (h : Fits v n p) : n ≤ 1 := by
  cases p with
  | test a | testEat a | testUp a => cases a <;> exact h.2.le.trans (Nat.zero_le 1)
  | takeUp => exact h.elim (fun h => h.2.le.trans (Nat.zero_le 1)) fun h => h.2.le
  | takeWait => exact h.elim (fun h => h.2.le.trans (Nat.zero_le 1)) fun h => h.2
  | _ => exact h.2.le.trans (Nat.zero_le 1)

/-- Whom philosopher `u` still owes a test. -/
def Owes (u : Fin N) : SemaPc → Fin N → Prop
  | .test a, j | .testEat a, j => a.Open u j
  | .testUp a, j => a.Later u j
  | _, _ => False

/-- What a call leaves to the statements after it. -/
theorem owes_after {a : Call} : Owes u (.after a) j ↔ a.Later u j := by
  cases a <;> simp [SemaPc.after, Owes, Call.Open, Call.Later, Call.who]

/-- One who owes a test is inside. -/
theorem Owes.inside (h : Owes u p j) : p.Inside := by
  cases p <;> simp_all [Owes, SemaPc.Inside]

/-- What the philosopher inside has found out, and what he has written. -/
def Knows (x : Sema N) (u : Fin N) : SemaPc → Prop
  | .testEat a => CanEat x.state (a.who u)
  | .testUp a => x.state (a.who u) = .eating ∧ x.s (a.who u) = 0 ∧
      (a.who u ≠ u → x.pc (a.who u) = .takeWait)
  | _ => True

/-- **Between two statements.** -/
structure Inv (x : Sema N) : Prop where
  owner : ∃ k, Owner x k
  fits : ∀ i, Fits (x.state i) (x.s i) (x.pc i)
  apart : Apart x.state
  served : Served Owes x.state x.pc
  knows : ∀ u, Knows x u (x.pc u)
  /-- The grant of a sleeper is on its way. -/
  told : ∀ i, x.pc i = .takeWait → x.state i = .eating →
    x.s i = 1 ∨ ∃ u a, x.pc u = .testUp a ∧ a.who u = i

/-- Everybody thinks at the start. -/
theorem inv_start : Inv (start : Sema N) where
  owner := ⟨none, rfl, fun i => by simp [start, SemaPc.Inside]⟩
  fits _ := ⟨rfl, rfl⟩
  apart i hi := nomatch hi
  served j hj := nomatch hj.1
  knows _ := trivial
  told i hi := nomatch hi

theorem Step.owner (h : Owner x k) (hstep : Step x i x') : ∃ k', Owner x' k' := by
  cases hstep with
  | take hp | put hp | takeWait hp => exact ⟨k, h.keep rfl rfl (by simp [hp, SemaPc.Inside])⟩
  | takeDown hp hpos | putDown hp hpos => exact ⟨_, h.take hpos trivial⟩
  | takeUp hp | putUp hp => exact ⟨_, h.give (by rw [hp]; trivial) id⟩
  | takeHungry hp | putThinking hp | testEat hp =>
    exact ⟨k, h.keep rfl rfl (by simp [hp, SemaPc.Inside])⟩
  | test hp =>
    refine ⟨k, h.keep rfl rfl (iff_of_true ?_ (by rw [hp]; trivial))⟩
    split
    · trivial
    · next a _ => cases a <;> trivial
  | testUp hp =>
    refine ⟨k, h.keep rfl rfl (iff_of_true ?_ (by rw [hp]; trivial))⟩
    next a => cases a <;> trivial

/-- Where a philosopher goes after the call fits what the call leaves. -/
theorem fits_after_of_ne {a : Call} (ha : a ≠ .self) (hv : v = .thinking) (hn : n = 0) :
    Fits v n (.after a) := by
  cases a with
  | self => exact absurd rfl ha
  | left | right => exact ⟨hv, hn⟩

/-- **The philosopher who makes the step** fits where he goes. -/
theorem Step.fits_self (hN : 3 ≤ N) (h : Inv x) (hstep : Step x i x') :
    Fits (x'.state i) (x'.s i) (x'.pc i) := by
  have hfit := h.fits i
  have hknow := h.knows i
  cases hstep with
  | take hp | put hp | takeDown hp | putDown hp | putUp hp =>
    rw [hp] at hfit
    rw [goto_pc_self]
    exact hfit
  | takeHungry hp | putThinking hp =>
    rw [hp] at hfit
    rw [goto_pc_self]
    exact ⟨Function.update_self .., hfit.2⟩
  | takeUp hp =>
    rw [hp] at hfit
    rw [goto_pc_self]
    exact hfit.imp id fun h => ⟨h.1, h.2.le⟩
  | takeWait hp hpos =>
    rw [hp] at hfit
    rw [goto_pc_self]
    have hn : (x.setS i (x.s i - 1)).s i = x.s i - 1 := Function.update_self ..
    rcases hfit with ⟨-, h0⟩ | ⟨hv, h1⟩
    · omega
    · exact ⟨hv, by rw [goto_s, hn]; omega⟩
  | @test a hp =>
    rw [hp] at hfit
    rw [goto_pc_self]
    split
    · cases a <;> exact hfit
    · cases a with
      | self => exact .inl hfit
      | left | right => exact hfit
  | @testEat a hp =>
    rw [hp] at hfit
    rw [goto_pc_self]
    rcases eq_or_ne a .self with rfl | ha
    · exact ⟨Function.update_self .., hfit.2⟩
    · have hne := (Call.who_ne hN ha i).symm
      have hv : (x.setState (a.who i) .eating).state i = x.state i := Function.update_of_ne hne ..
      rw [goto_state, hv]
      cases a with
      | self => exact absurd rfl ha
      | left | right => exact hfit
  | @testUp a hp =>
    rw [hp] at hfit
    rw [goto_pc_self]
    rcases eq_or_ne a .self with rfl | ha
    · refine .inr ⟨hfit.1, ?_⟩
      rw [goto_s]
      exact (Function.update_self ..).trans (by rw [show x.s (Call.self.who i) = 0 from hfit.2])
    · have hne := (Call.who_ne hN ha i).symm
      have hn : (x.setS (a.who i) (x.s (a.who i) + 1)).s i = x.s i := Function.update_of_ne hne ..
      rw [goto_s, hn]
      cases a with
      | self => exact absurd rfl ha
      | left | right => exact hfit

/-- **Another philosopher** fits where he is: only a sleeper is written to. -/
theorem Step.fits_other (h : Inv x) (hstep : Step x i x') (hj : j ≠ i) :
    Fits (x'.state j) (x'.s j) (x'.pc j) := by
  have hfit := h.fits j
  have hknow := h.knows i
  obtain ⟨k, hk⟩ := h.owner
  cases hstep with
  | take | put | takeDown | putDown | takeUp | putUp | test =>
    rw [goto_pc_of_ne hj]
    exact hfit
  | takeHungry | putThinking =>
    rw [goto_pc_of_ne hj, goto_state]
    have hv : ∀ v, (x.setState i v).state j = x.state j := fun v => Function.update_of_ne hj ..
    rw [hv]
    exact hfit
  | takeWait =>
    rw [goto_pc_of_ne hj, goto_s]
    have hn : ∀ n, (x.setS i n).s j = x.s j := fun n => Function.update_of_ne hj ..
    rw [hn]
    exact hfit
  | @testEat a hp =>
    rw [hp] at hknow
    rw [goto_pc_of_ne hj, goto_state]
    rcases eq_or_ne j (a.who i) with rfl | hja
    · -- he is hungry, and not inside: he sleeps
      have hout : ¬ (x.pc (a.who i)).Inside := fun hin => hj (hk.eq hin (by rw [hp]; trivial))
      rw [hknow.1] at hfit
      obtain ⟨hw, h0⟩ := hfit.sleeps hout
      change Fits _ (x.s (a.who i)) (x.pc (a.who i))
      rw [hw, h0]
      exact .inr ⟨Function.update_self .., Nat.zero_le 1⟩
    · have hv : (x.setState (a.who i) .eating).state j = x.state j := Function.update_of_ne hja ..
      rw [hv]
      exact hfit
  | @testUp a hp =>
    rw [hp] at hknow
    rw [goto_pc_of_ne hj, goto_s]
    rcases eq_or_ne j (a.who i) with rfl | hja
    · obtain ⟨hv, h0, hw⟩ := hknow
      change Fits (x.state (a.who i)) _ (x.pc (a.who i))
      rw [hw hj]
      refine .inr ⟨hv, le_of_eq ?_⟩
      exact (Function.update_self ..).trans (by rw [h0])
    · have hn : (x.setS (a.who i) (x.s (a.who i) + 1)).s j = x.s j := Function.update_of_ne hja ..
      rw [hn]
      exact hfit

theorem Step.apart (hN : 3 ≤ N) (h : Inv x) (hstep : Step x i x') : Apart x'.state := by
  have hknow := h.knows i
  cases hstep with
  | takeHungry | putThinking => exact h.apart.rest nofun
  | testEat hp =>
    rw [hp] at hknow
    exact h.apart.eat hN hknow
  | _ => exact h.apart

theorem Step.served (h : Inv x) (hstep : Step x i x') : Served Owes x'.state x'.pc := by
  have hfit := h.fits i
  cases hstep with
  | take hp | put hp | takeDown hp | putDown hp | takeUp hp | putUp hp | takeWait hp =>
    refine h.served.keep fun j hj => ?_
    rw [hp] at hj
    exact hj.elim
  | takeHungry hp =>
    rw [hp] at hfit
    refine h.served.update fun j hj => ?_
    rw [hp]
    have hi : x.state i ≠ .eating := by
      rw [hfit.1]
      exact nofun
    exact (hj.of_hungry hi).symm.imp .inl fun hold => ⟨hold, id⟩
  | putThinking hp =>
    refine h.served.update fun j hj => ?_
    rw [hp]
    exact hj.of_thinking.symm.imp id fun hold => ⟨hold, id⟩
  | @test a hp =>
    refine h.served.update fun j hj => ?_
    rw [hp]
    split
    · exact (em (Owes i (.testEat a) j)).imp id fun hno => ⟨hj, hno⟩
    · next hcan =>
      rw [owes_after]
      refine (em (a.Later i j)).imp id fun hno => ⟨hj, fun hopen => ?_⟩
      rcases hopen with rfl | hlater
      · exact hcan hj
      · exact hno hlater
  | @testEat a hp =>
    refine h.served.update fun j hj => ?_
    rw [hp]
    obtain ⟨hold, hne⟩ := hj.of_eat
    exact (em (a.Later i j)).imp id fun hno => ⟨hold, fun hopen => hopen.elim hne hno⟩
  | testUp hp =>
    refine h.served.keep fun j hj => ?_
    rw [hp] at hj
    exact owes_after.mpr hj

/-- **The philosopher who makes the step** knows what he has found or written. -/
theorem Step.knows_self (h : Inv x) (hstep : Step x i x') : Knows x' i (x'.pc i) := by
  have hknow := h.knows i
  obtain ⟨k, hk⟩ := h.owner
  cases hstep with
  | @test a hp =>
    rw [goto_pc_self]
    split
    · assumption
    · cases a <;> trivial
  | @testEat a hp =>
    rw [hp] at hknow
    rw [goto_pc_self]
    have hfit := h.fits (a.who i)
    rw [hknow.1] at hfit
    refine ⟨Function.update_self .., hfit.zero, fun hne => ?_⟩
    rw [goto_pc_of_ne hne]
    exact (hfit.sleeps fun hin => hne (hk.eq hin (by rw [hp]; trivial))).1
  | @testUp a hp =>
    rw [goto_pc_self]
    cases a <;> trivial
  | _ =>
    rw [goto_pc_self]
    trivial

/-- **Another philosopher** still knows it: while he is inside, nobody writes. -/
theorem Step.knows_other (h : Inv x) (hstep : Step x i x') (hj : j ≠ i) :
    Knows x' j (x'.pc j) := by
  obtain ⟨k, hk⟩ := h.owner
  obtain ⟨k', hk'⟩ := hstep.owner hk
  have hpc : x'.pc j = x.pc j := by cases hstep <;> exact goto_pc_of_ne hj
  by_cases hin : (x.pc j).Inside
  · -- `i` is outside before the step and after it
    have hout : ¬ (x.pc i).Inside := fun hi => hj (hk.eq hin hi)
    have hout' : ¬ (x'.pc i).Inside := fun hi => hj (hk'.eq (by rwa [hpc]) hi)
    have hknow := h.knows j
    rw [hpc]
    cases hstep with
    | take hp | put hp =>
      cases hpj : x.pc j with
      | testEat a =>
        rw [hpj] at hknow
        exact hknow
      | testUp a =>
        rw [hpj] at hknow
        refine ⟨hknow.1, hknow.2.1, fun hne => ?_⟩
        have hw := hknow.2.2 hne
        rw [goto_pc_of_ne fun heq => by rw [heq, hp] at hw; exact nomatch hw]
        exact hw
      | _ => trivial
    | takeWait hp hpos =>
      cases hpj : x.pc j with
      | testEat a =>
        rw [hpj] at hknow
        exact hknow
      | testUp a =>
        rw [hpj] at hknow
        obtain ⟨hv, h0, hw⟩ := hknow
        have hne : a.who j ≠ i := fun heq => by
          rw [heq] at h0
          omega
        refine ⟨hv, (Function.update_of_ne hne ..).trans h0, fun hself => ?_⟩
        rw [goto_pc_of_ne hne]
        exact hw hself
      | _ => trivial
    | takeDown | putDown => exact absurd (by rw [goto_pc_self]; trivial) hout'
    | takeHungry hp | test hp | testEat hp | testUp hp | takeUp hp | putThinking hp | putUp hp =>
      exact absurd (by rw [hp]; trivial) hout
  · rw [hpc]
    cases hpj : x.pc j with
    | testEat a | testUp a =>
      rw [hpj] at hin
      exact absurd trivial hin
    | _ => trivial

/-- **Grants arrive**: what is written for a sleeper is followed by a unit of his semaphore. -/
theorem Step.told (h : Inv x) (hstep : Step x i x') (hw : x'.pc t = .takeWait)
    (hv : x'.state t = .eating) :
    x'.s t = 1 ∨ ∃ u a, x'.pc u = .testUp a ∧ a.who u = t := by
  have hfit := h.fits i
  have hknow := h.knows i
  rcases eq_or_ne t i with rfl | ht
  · cases hstep with
    | takeUp hp =>
      rw [hp] at hfit
      rcases hfit with ⟨hv', -⟩ | ⟨-, h1⟩
      · exact absurd (hv'.symm.trans hv) nofun
      · exact .inl h1
    | @test a hp =>
      rw [goto_pc_self] at hw
      split at hw
      · exact nomatch hw
      · cases a <;> exact nomatch hw
    | @testUp a hp =>
      rw [goto_pc_self] at hw
      cases a <;> exact nomatch hw
    | _ =>
      rw [goto_pc_self] at hw
      exact nomatch hw
  have hpc : ∀ u, u ≠ i → x'.pc u = x.pc u := fun u hu => by
    cases hstep <;> exact goto_pc_of_ne hu
  rw [hpc t ht] at hw
  -- a statement that neither writes for `t` nor hands over
  have hkeep : x'.state t = x.state t → x'.s t = x.s t → (∀ a, x.pc i ≠ .testUp a) →
      x'.s t = 1 ∨ ∃ u a, x'.pc u = .testUp a ∧ a.who u = t := by
    intro hvt hst hno
    rw [hvt] at hv
    rw [hst]
    refine (h.told t hw hv).imp_right fun ⟨u, a, hu, ha⟩ => ⟨u, a, ?_, ha⟩
    rwa [hpc u fun heq => hno a (heq ▸ hu)]
  cases hstep with
  | takeHungry hp | putThinking hp =>
    exact hkeep (Function.update_of_ne ht ..) rfl (by simp [hp])
  | takeWait hp => exact hkeep rfl (Function.update_of_ne ht ..) (by simp [hp])
  | @testEat a hp =>
    rcases eq_or_ne t (a.who i) with rfl | hta
    · exact .inr ⟨i, a, goto_pc_self, rfl⟩
    · exact hkeep (Function.update_of_ne hta ..) rfl (by simp [hp])
  | @testUp a hp =>
    rw [hp] at hknow
    have hs : ((x.setS (a.who i) (x.s (a.who i) + 1)).goto i (.after a)).s (a.who i) = 1 := by
      rw [goto_s]
      exact (Function.update_self ..).trans (by rw [hknow.2.1])
    rcases eq_or_ne t (a.who i) with rfl | hta
    · exact .inl hs
    · refine (h.told t hw hv).imp (fun h1 => (Function.update_of_ne hta ..).trans h1)
        fun ⟨u, b, hu, hb⟩ => ⟨u, b, ?_, hb⟩
      rw [hpc u fun heq => ?_]
      · exact hu
      · rw [heq, hp] at hu
        obtain rfl := SemaPc.testUp.inj hu
        exact hta (by rw [← hb, heq])
  | take hp | put hp | takeDown hp | putDown hp | takeUp hp | putUp hp | test hp =>
    exact hkeep rfl rfl (by simp [hp])

theorem Step.inv (hN : 3 ≤ N) (h : Inv x) (hstep : Step x i x') : Inv x' where
  owner := h.owner.elim fun _ hk => hstep.owner hk
  fits j := by
    rcases eq_or_ne j i with rfl | hj
    · exact hstep.fits_self hN h
    · exact hstep.fits_other h hj
  apart := hstep.apart hN h
  served := hstep.served h
  knows j := by
    rcases eq_or_ne j i with rfl | hj
    · exact hstep.knows_self h
    · exact hstep.knows_other h hj
  told _ := hstep.told h

theorem Run.inv (hN : 3 ≤ N) (hrun : Run x) : Inv x := by
  induction hrun with
  | start => exact inv_start
  | step _ hstep ih => exact hstep.inv hN ih

/-- **What the philosophers are promised** in a state of the semaphore version. -/
structure Guarantees (x : Sema N) : Prop where
  /-- No two neighbours eat. -/
  apart : ∀ i, x.state i = .eating → x.state (left i) ≠ .eating ∧ x.state (right i) ≠ .eating
  /-- `phi_take_forks_sema` returns to one who eats. -/
  returns : ∀ i, x.pc i = .eating → x.state i = .eating
  /-- With nobody in the critical section, nobody is hungry between two who do not eat… -/
  served : (∀ i, ¬ (x.pc i).Inside) → ∀ i, ¬ (x.state i = .hungry ∧
    x.state (left i) ≠ .eating ∧ x.state (right i) ≠ .eating)
  /-- …and nobody sleeps who may eat: `s[i]` lets him through. -/
  woken : (∀ i, ¬ (x.pc i).Inside) → ∀ i, x.pc i = .takeWait → x.state i = .eating → x.s i = 1
  /-- Each `s[i]` is worth nothing or one. -/
  s_le : ∀ i, x.s i ≤ 1

theorem Inv.guarantees (h : Inv x) : Guarantees x where
  apart i hi := ⟨h.apart.left hi, h.apart i hi⟩
  returns i hi := by
    have hfit := h.fits i
    rw [hi] at hfit
    exact hfit.1
  served hout i hi := by
    obtain ⟨u, hu⟩ := h.served i hi
    exact hout u hu.inside
  woken hout i hw hv := by
    rcases h.told i hw hv with hs | ⟨u, a, hu, -⟩
    · exact hs
    · exact absurd (by rw [hu]; trivial) (hout u)
  s_le i := (h.fits i).le_one

end Sema

end CheckSync

end UCore
