import Mathlib.Tactic

/-!
# Machinery/Act — computations that change a state and may stop

    m : Act σ ε α      s ──m──▸ (a, s')   or   m stops with e : ε

`wp m Q E s` is the one judgement the development reasons with: started in `s`, `m` either returns
with `Q`, or stops with `E`.  `E := fun _ => False` is total correctness, `E := fun _ => True` is
partial correctness, and anything between says which stops are possible.  A loop spends one unit of
fuel a pass and stops with its own error when the fuel is gone, so `wp_loop` is termination and
correctness at once: the variant bounds the fuel that can run out.
-/

/-- A computation over the states `σ`: it returns a value and a new state, or stops with `ε`. -/
abbrev Act (σ ε α : Type) := StateT σ (Except ε) α

namespace Act

variable {σ ε α β : Type}

/-- **The weakest precondition**: from `s`, `m` returns with `Q` or stops with `E`. -/
def wp (m : Act σ ε α) (Q : α → σ → Prop) (E : ε → Prop) (s : σ) : Prop :=
  match m s with
  | .ok r => Q r.1 r.2
  | .error e => E e

/-- A condition the source asserts; `e` is the stop of a failed assertion. -/
def require (e : ε) (c : Prop) [Decidable c] : Act σ ε Unit :=
  if c then pure () else throw e

/-- A `while` loop: `body` says whether to go round again (`inl`) or to leave (`inr`). -/
def loop (spin : ε) (body : β → Act σ ε (β ⊕ α)) : ℕ → β → Act σ ε α
  | 0, _ => throw spin
  | fuel + 1, b => do
    match ← body b with
    | .inl b' => loop spin body fuel b'
    | .inr a => pure a

/-- Run a computation on a part of the state. -/
def zoom {τ : Type} (part : σ → τ) (put : τ → σ → σ) (m : Act τ ε α) : Act σ ε α := fun s =>
  (m (part s)).map fun r => (r.1, put r.2 s)

/-- A computation whose stops are known by other names. -/
def relay {ε' : Type} (name : ε → ε') (m : Act σ ε α) : Act σ ε' α := fun s => (m s).mapError name

/-! ## Reading a judgement off a run -/

theorem wp_of_ok {m : Act σ ε α} {Q : α → σ → Prop} {E : ε → Prop} {s s' : σ} {a : α}
    (h : wp m Q E s) (hm : m s = .ok (a, s')) : Q a s' := by
  simpa only [wp, hm] using h

theorem wp_of_error {m : Act σ ε α} {Q : α → σ → Prop} {E : ε → Prop} {s : σ} {e : ε}
    (h : wp m Q E s) (hm : m s = .error e) : E e := by
  simpa only [wp, hm] using h

/-- **Total correctness is a run**: with no stop allowed, the computation returns. -/
theorem wp_false_iff {m : Act σ ε α} {Q : α → σ → Prop} {s : σ} :
    wp m Q (fun _ => False) s ↔ ∃ a s', m s = .ok (a, s') ∧ Q a s' := by
  unfold wp
  cases hm : m s with
  | ok r => exact ⟨fun h => ⟨r.1, r.2, rfl, h⟩, by rintro ⟨a, s', h, hq⟩; cases h; exact hq⟩
  | error e => exact ⟨False.elim, by rintro ⟨a, s', h, -⟩; cases h⟩

/-- A computation that cannot return, and can stop in one way only, stops that way. -/
theorem error_of_wp {m : Act σ ε α} {s : σ} {e : ε} (h : wp m (fun _ _ => False) (fun e' => e' = e) s) :
    m s = .error e := by
  unfold wp at h
  cases hm : m s with
  | ok r =>
    rw [hm] at h
    exact h.elim
  | error e' =>
    rw [hm] at h
    exact congrArg Except.error h

/-- A run that is known is judged by its result. -/
theorem wp_eq_of_ok {m : Act σ ε α} {Q : α → σ → Prop} {E : ε → Prop} {s s' : σ} {a : α}
    (hm : m s = .ok (a, s')) : wp m Q E s = Q a s' := by
  simp only [wp, hm]

/-- Reading the state first: the run goes on with it. -/
theorem run_get (f : σ → Act σ ε α) (s : σ) : (get >>= f : Act σ ε α) s = f s s := rfl

/-- Two computations that run alike are judged alike. -/
theorem wp_congr {m m' : Act σ ε α} {Q : α → σ → Prop} {E : ε → Prop} {s : σ} (h : m s = m' s) :
    wp m Q E s ↔ wp m' Q E s := by
  unfold wp
  rw [h]

/-- **A run of two parts** that returns is a run of each. -/
theorem exists_of_bind {m : Act σ ε β} {f : β → Act σ ε α} {s u : σ} {a : α}
    (h : (m >>= f) s = .ok (a, u)) : ∃ b t, m s = .ok (b, t) ∧ f b t = .ok (a, u) := by
  cases hm : m s with
  | ok r =>
    simp only [bind, StateT.bind, Except.bind, hm] at h
    exact ⟨r.1, r.2, rfl, h⟩
  | error e =>
    simp only [bind, StateT.bind, Except.bind, hm] at h
    exact nomatch h

/-- Nothing is asked of a run. -/
theorem wp_true (m : Act σ ε α) (s : σ) : wp m (fun _ _ => True) (fun _ => True) s := by
  unfold wp
  cases m s <;> trivial

/-- **A run that is computed**: it returns, and what it returns passes the test. -/
theorem exists_of_test {m : Act σ ε α} {s : σ} (p : α → σ → Bool)
    (h : (m s).toOption.any (fun r => p r.1 r.2) = true) : ∃ a s', m s = .ok (a, s') ∧ p a s' = true := by
  cases hm : m s with
  | ok r =>
    rw [hm] at h
    exact ⟨r.1, r.2, rfl, h⟩
  | error e =>
    rw [hm] at h
    exact nomatch h

theorem wp_mono {m : Act σ ε α} {Q Q' : α → σ → Prop} {E E' : ε → Prop} {s : σ}
    (h : wp m Q E s) (hQ : ∀ a s', Q a s' → Q' a s') (hE : ∀ e, E e → E' e) :
    wp m Q' E' s := by
  unfold wp at h ⊢
  cases hm : m s with
  | ok r => exact hQ _ _ (by simpa only [hm] using h)
  | error e => exact hE _ (by simpa only [hm] using h)

/-- Two judgements of one run hold together. -/
theorem wp_and {m : Act σ ε α} {Q Q' : α → σ → Prop} {E E' : ε → Prop} {s : σ}
    (h : wp m Q E s) (h' : wp m Q' E' s) :
    wp m (fun a s' => Q a s' ∧ Q' a s') (fun e => E e ∧ E' e) s := by
  unfold wp at h h' ⊢
  cases hm : m s with
  | ok r => simp only [hm] at h h'; exact ⟨h, h'⟩
  | error e => simp only [hm] at h h'; exact ⟨h, h'⟩

/-! ## The rules, one for each way to build a computation -/

section Rules

variable {Q : α → σ → Prop} {E : ε → Prop} {s : σ}

@[simp] theorem wp_pure (a : α) : wp (pure a) Q E s ↔ Q a s := Iff.rfl

@[simp] theorem wp_throw (e : ε) : wp (throw e : Act σ ε α) Q E s ↔ E e := Iff.rfl

@[simp] theorem wp_bind (m : Act σ ε β) (f : β → Act σ ε α) :
    wp (m >>= f) Q E s ↔ wp m (fun b s' => wp (f b) Q E s') E s := by
  unfold wp
  cases hm : m s <;> simp only [bind, StateT.bind, Except.bind, hm]

@[simp] theorem wp_map (g : β → α) (m : Act σ ε β) :
    wp (g <$> m) Q E s ↔ wp m (fun b s' => Q (g b) s') E s := by
  unfold wp
  cases hm : m s <;> simp only [Functor.map, StateT.map, bind, Except.bind, pure, Except.pure, hm]

@[simp] theorem wp_get {Q : σ → σ → Prop} : wp (get : Act σ ε σ) Q E s ↔ Q s s := Iff.rfl

@[simp] theorem wp_set {Q : PUnit → σ → Prop} (t : σ) :
    wp (set t : Act σ ε PUnit) Q E s ↔ Q ⟨⟩ t := Iff.rfl

@[simp] theorem wp_modify {Q : PUnit → σ → Prop} (f : σ → σ) :
    wp (modify f : Act σ ε PUnit) Q E s ↔ Q ⟨⟩ (f s) := Iff.rfl

@[simp] theorem wp_require {Q : Unit → σ → Prop} (e : ε) (c : Prop) [Decidable c] :
    wp (require e c : Act σ ε Unit) Q E s ↔ (c → Q () s) ∧ (¬ c → E e) := by
  unfold require
  split <;> simp_all

theorem wp_ite (c : Prop) [Decidable c] (m m' : Act σ ε α) :
    wp (if c then m else m') Q E s ↔ (c → wp m Q E s) ∧ (¬ c → wp m' Q E s) := by
  split <;> simp_all

@[simp] theorem wp_zoom {τ : Type} (part : σ → τ) (put : τ → σ → σ) (m : Act τ ε α) :
    wp (zoom part put m) Q E s ↔ wp m (fun a t => Q a (put t s)) E (part s) := by
  unfold wp zoom
  cases m (part s) <;> simp only [Except.map]

@[simp] theorem wp_relay {ε' : Type} {E : ε' → Prop} (name : ε → ε') (m : Act σ ε α) :
    wp (relay name m) Q E s ↔ wp m Q (fun e => E (name e)) s := by
  unfold wp relay
  cases m s <;> rfl

end Rules

/-! ## Loops -/

/-- **The loop rule.**  `Inv n` holds at the head of a pass that at most `n` more passes follow, so
the loop runs out of fuel only where the fuel was no more than `n` to begin with. -/
theorem wp_loop {spin : ε} {body : β → Act σ ε (β ⊕ α)} {Q : α → σ → Prop} {E : ε → Prop}
    (Inv : ℕ → β → σ → Prop)
    (hbody : ∀ n b s, Inv n b s → wp (body b)
      (fun r s' => r.elim (fun b' => ∃ m < n, Inv m b' s') (fun a => Q a s')) E s)
    (fuel n : ℕ) (b : β) (s : σ) (hb : Inv n b s) (hE : fuel ≤ n → E spin) :
    wp (loop spin body fuel b) Q E s := by
  induction fuel generalizing n b s with
  | zero => exact hE (Nat.zero_le _)
  | succ fuel ih =>
    rw [loop, wp_bind]
    refine wp_mono (hbody n b s hb) (fun r s' hr => ?_) (fun _ => id)
    cases r with
    | inl b' =>
      obtain ⟨m, hm, hinv⟩ := hr
      exact ih m b' s' hinv (fun h => hE (by omega))
    | inr a => exact hr

/-- **The loop rule, for a loop that ends.**  `Inv` holds at the head of every pass; the loop stops as its
turns do, or out of fuel. -/
theorem wp_loop_of_ends {spin : ε} {body : β → Act σ ε (β ⊕ α)} {Q : α → σ → Prop} {E : ε → Prop}
    (Inv : β → σ → Prop) (hspin : E spin)
    (hbody : ∀ b s, Inv b s → wp (body b) (fun r s' => r.elim (Inv · s') (Q · s')) E s)
    (fuel : ℕ) (b : β) (s : σ) (hb : Inv b s) : wp (loop spin body fuel b) Q E s := by
  induction fuel generalizing b s with
  | zero => exact hspin
  | succ fuel ih =>
    rw [loop, wp_bind]
    refine wp_mono (hbody b s hb) (fun r s' hr => ?_) (fun _ => id)
    cases r with
    | inl b' => exact ih b' s' hr
    | inr a => exact hr

/-- What every turn of a loop keeps, the loop keeps, if it ends; it stops as its turns do, or out of
fuel. -/
theorem wp_loop_stops {spin : ε} {body : β → Act σ ε (β ⊕ α)} {I : σ → Prop} {E : ε → Prop}
    (hspin : E spin) (hbody : ∀ b s, I s → wp (body b) (fun _ => I) E s) (fuel : ℕ) (b : β) (s : σ)
    (hs : I s) : wp (loop spin body fuel b) (fun _ => I) E s := by
  refine wp_loop_of_ends (fun _ => I) hspin (fun b s hs => ?_) fuel b s hs
  refine wp_mono (hbody b s hs) (fun r s' hr => ?_) fun _ => id
  cases r <;> exact hr

/-- …however its turns stop. -/
theorem wp_loop_keep {spin : ε} {body : β → Act σ ε (β ⊕ α)} {I : σ → Prop}
    (hbody : ∀ b s, I s → wp (body b) (fun _ => I) (fun _ => True) s) (fuel : ℕ) (b : β) (s : σ)
    (hs : I s) : wp (loop spin body fuel b) (fun _ => I) (fun _ => True) s :=
  wp_loop_stops trivial hbody fuel b s hs

/-! ## Computations that also report errors

    m : Fallible σ ε ρ α      s ──m──▸ (value a, s')   or   (error r, s')   or   m stops with e : ε

An error that is reported keeps the state and can be handled; a stop ends the run. -/

/-- A computation that returns a value, reports an error `ρ`, or stops with `ε`. -/
abbrev Fallible (σ ε ρ α : Type) := ExceptT ρ (Act σ ε) α

section Fallible

variable {ρ : Type} {Q : α → σ → Prop} {R : ρ → σ → Prop} {E : ε → Prop} {s : σ}

/-- **The weakest precondition** of a fallible computation: from `s`, `m` returns with `Q`, reports
with `R`, or stops with `E`. -/
def wpe (m : Fallible σ ε ρ α) (Q : α → σ → Prop) (R : ρ → σ → Prop) (E : ε → Prop) (s : σ) : Prop :=
  wp m.run (fun r s' => match r with
    | .ok a => Q a s'
    | .error e => R e s') E s

/-- A condition the source asserts. -/
def demand (e : ε) (c : Prop) [Decidable c] : Fallible σ ε ρ Unit := ExceptT.lift (require e c)

/-- A stop, such as a panic. -/
def stop (e : ε) : Fallible σ ε ρ α := ExceptT.lift (throw e)

/-- Run a fallible computation on a part of the state. -/
def zoome {τ : Type} (part : σ → τ) (put : τ → σ → σ) (m : Fallible τ ε ρ α) : Fallible σ ε ρ α :=
  ExceptT.mk (zoom part put m.run)

/-- Undo, when `m` reports an error, and report it on. -/
def onError (m : Fallible σ ε ρ α) (undo : Fallible σ ε ρ Unit) : Fallible σ ε ρ α :=
  ExceptT.mk do
    match ← m.run with
    | .ok a => pure (.ok a)
    | .error e => (undo >>= fun _ => (throw e : Fallible σ ε ρ α)).run

/-- Run `m`, and hand its report over as a value. -/
def attempt (m : Fallible σ ε ρ α) : Fallible σ ε ρ (Except ρ α) := ExceptT.lift m.run

/-- Run `m`, and drop its report. -/
def ignore (m : Fallible σ ε ρ Unit) : Fallible σ ε ρ Unit := do
  let _ ← attempt m

/-- Run `after`, however `m` ends. -/
def andThen (m : Fallible σ ε ρ α) (after : Fallible σ ε ρ Unit) : Fallible σ ε ρ α := do
  let a ← onError m after
  after
  return a

/-- Handling the report: the run of `m` is judged by both its outcomes. -/
theorem wp_run {m : Fallible σ ε ρ α} {Q : Except ρ α → σ → Prop} :
    wp m.run Q E s ↔ wpe m (fun a => Q (.ok a)) (fun e => Q (.error e)) E s := by
  unfold wpe wp
  cases m.run s with
  | ok r => obtain ⟨r, s'⟩ := r; cases r <;> rfl
  | error e => rfl

theorem wpe_mono {m : Fallible σ ε ρ α} {Q' : α → σ → Prop} {R' : ρ → σ → Prop} {E' : ε → Prop}
    (h : wpe m Q R E s) (hQ : ∀ a s', Q a s' → Q' a s') (hR : ∀ e s', R e s' → R' e s')
    (hE : ∀ e, E e → E' e) : wpe m Q' R' E' s := by
  refine wp_mono h (fun r s' hr => ?_) hE
  cases r with
  | ok a => exact hQ a s' hr
  | error e => exact hR e s' hr

/-- Two judgements of one run hold together. -/
theorem wpe_and {m : Fallible σ ε ρ α} {Q' : α → σ → Prop} {R' : ρ → σ → Prop} {E' : ε → Prop}
    (h : wpe m Q R E s) (h' : wpe m Q' R' E' s) :
    wpe m (fun a s' => Q a s' ∧ Q' a s') (fun e s' => R e s' ∧ R' e s') (fun e => E e ∧ E' e) s := by
  refine wp_mono (wp_and h h') (fun r s' hr => ?_) (fun _ => id)
  cases r with
  | ok a => exact hr
  | error e => exact hr

@[simp] theorem wpe_pure (a : α) : wpe (pure a) Q R E s ↔ Q a s := Iff.rfl

@[simp] theorem wpe_throw (e : ρ) : wpe (throw e : Fallible σ ε ρ α) Q R E s ↔ R e s := Iff.rfl

@[simp] theorem wpe_lift (m : Act σ ε α) : wpe (ExceptT.lift m) Q R E s ↔ wp m Q E s := by
  unfold wpe
  rw [ExceptT.run_lift, wp_map]

@[simp] theorem wpe_demand {Q : Unit → σ → Prop} (e : ε) (c : Prop) [Decidable c] :
    wpe (demand e c) Q R E s ↔ (c → Q () s) ∧ (¬ c → E e) := by
  rw [demand, wpe_lift, wp_require]

@[simp] theorem wpe_get {Q : σ → σ → Prop} : wpe (get : Fallible σ ε ρ σ) Q R E s ↔ Q s s := Iff.rfl

@[simp] theorem wpe_modify {Q : PUnit → σ → Prop} (f : σ → σ) :
    wpe (modify f : Fallible σ ε ρ PUnit) Q R E s ↔ Q ⟨⟩ (f s) := Iff.rfl

@[simp] theorem wpe_bind (m : Fallible σ ε ρ β) (f : β → Fallible σ ε ρ α) :
    wpe (m >>= f) Q R E s ↔ wpe m (fun b s' => wpe (f b) Q R E s') R E s := by
  unfold wpe
  rw [ExceptT.run_bind, wp_bind]
  unfold wp
  cases m.run s with
  | ok r => obtain ⟨r, s'⟩ := r; cases r <;> rfl
  | error e => rfl

@[simp] theorem wpe_stop (e : ε) : wpe (stop e : Fallible σ ε ρ α) Q R E s ↔ E e := Iff.rfl

@[simp] theorem wpe_zoome {τ : Type} (part : σ → τ) (put : τ → σ → σ) (m : Fallible τ ε ρ α) :
    wpe (zoome part put m) Q R E s ↔
      wpe m (fun a t => Q a (put t s)) (fun e t => R e (put t s)) E (part s) := by
  unfold wpe zoome
  rw [ExceptT.run_mk, wp_zoom]

@[simp] theorem wpe_onError (m : Fallible σ ε ρ α) (undo : Fallible σ ε ρ Unit) :
    wpe (onError m undo) Q R E s ↔ wpe m Q (fun e s' => wpe undo (fun _ => R e) R E s') E s := by
  have hundo : ∀ e s', wpe undo (fun _ => R e) R E s' ↔
      wpe (undo >>= fun _ => (throw e : Fallible σ ε ρ α)) Q R E s' := fun e s' => by
    rw [wpe_bind]
    rfl
  simp only [hundo]
  unfold wpe onError
  rw [ExceptT.run_mk, wp_bind]
  unfold wp
  cases m.run s with
  | ok r => obtain ⟨r, s'⟩ := r; cases r <;> rfl
  | error e => rfl

@[simp] theorem wpe_attempt {Q : Except ρ α → σ → Prop} (m : Fallible σ ε ρ α) :
    wpe (attempt m) Q R E s ↔ wpe m (fun a => Q (.ok a)) (fun e => Q (.error e)) E s := by
  rw [attempt, wpe_lift, wp_run]

@[simp] theorem wpe_ignore {Q : Unit → σ → Prop} (m : Fallible σ ε ρ Unit) :
    wpe (ignore m) Q R E s ↔ wpe m Q (fun _ => Q ()) E s := by
  rw [ignore, wpe_bind, wpe_attempt]
  rfl

@[simp] theorem wpe_andThen (m : Fallible σ ε ρ α) (after : Fallible σ ε ρ Unit) :
    wpe (andThen m after) Q R E s ↔ wpe m (fun a s' => wpe after (fun _ => Q a) R E s')
      (fun e s' => wpe after (fun _ => R e) R E s') E s := by
  simp only [andThen, wpe_bind, wpe_onError, wpe_pure]

theorem wpe_ite (c : Prop) [Decidable c] (m m' : Fallible σ ε ρ α) :
    wpe (if c then m else m') Q R E s ↔ (c → wpe m Q R E s) ∧ (¬ c → wpe m' Q R E s) := by
  split <;> simp_all

/-! ## What every step keeps

A relation between the states before and after that holds of each step of a computation holds of the
whole, however it ends. -/

/-- `m` relates the state it starts in to every state it returns or reports in, reports `D` and stops
with `E`. -/
def Respects (P : σ → σ → Prop) (D : ρ → Prop) (E : ε → Prop) (m : Fallible σ ε ρ α) : Prop :=
  ∀ s, wpe m (fun _ => P s) (fun r s' => D r ∧ P s s') E s

instance : Std.Refl fun _ _ : σ => True := ⟨fun _ => trivial⟩

instance : IsTrans σ fun _ _ => True := ⟨fun _ _ _ _ _ => trivial⟩

/-- **An invariant that every step keeps**, whatever it returns or reports. -/
abbrev Keeps (I : σ → Prop) (m : Fallible σ ε ρ α) : Prop :=
  ∀ s, I s → wpe m (fun _ => I) (fun _ => I) (fun _ => True) s

namespace Keeps

variable {I : σ → Prop} {m : Fallible σ ε ρ β} {f : β → Fallible σ ε ρ α}

theorem pure (a : α) : Keeps I (Pure.pure a : Fallible σ ε ρ α) := fun _ h => h

theorem throw (r : ρ) : Keeps I (MonadExcept.throw r : Fallible σ ε ρ α) := fun _ h => h

theorem get : Keeps I (MonadState.get : Fallible σ ε ρ σ) := fun _ h => h

theorem modify {g : σ → σ} (h : ∀ s, I s → I (g s)) :
    Keeps I (modify g : Fallible σ ε ρ PUnit) := h

theorem demand {e : ε} {c : Prop} [Decidable c] : Keeps I (demand e c : Fallible σ ε ρ Unit) :=
  fun _ h => (wpe_demand e c).mpr ⟨fun _ => h, fun _ => trivial⟩

theorem stop (e : ε) : Keeps I (stop e : Fallible σ ε ρ α) := fun _ _ => trivial

theorem bind (hm : Keeps I m) (hf : ∀ b, Keeps I (f b)) : Keeps I (m >>= f) := fun s h => by
  rw [wpe_bind]
  exact wpe_mono (hm s h) (fun b s' => hf b s') (fun _ _ => id) fun _ => id

theorem ite {c : Prop} [Decidable c] {m m' : Fallible σ ε ρ α} (hm : c → Keeps I m)
    (hm' : ¬ c → Keeps I m') : Keeps I (if c then m else m') := fun s h =>
  (wpe_ite c m m').mpr ⟨fun hc => hm hc s h, fun hc => hm' hc s h⟩

theorem onError {m : Fallible σ ε ρ α} {undo : Fallible σ ε ρ Unit} (hm : Keeps I m)
    (hu : Keeps I undo) : Keeps I (onError m undo) := fun s h => by
  rw [wpe_onError]
  exact wpe_mono (hm s h) (fun _ _ => id) (fun _ s' => hu s') fun _ => id

theorem ignore {m : Fallible σ ε ρ Unit} (hm : Keeps I m) : Keeps I (ignore m) := fun s h => by
  rw [wpe_ignore]
  exact hm s h

theorem andThen {after : Fallible σ ε ρ Unit} (hm : Keeps I m) (ha : Keeps I after) :
    Keeps I (andThen m after) := fun s h => by
  rw [wpe_andThen]
  exact wpe_mono (hm s h) (fun _ s' => ha s') (fun _ s' => ha s') fun _ => id

end Keeps

namespace Respects

variable {P : σ → σ → Prop} {D : ρ → Prop} {m : Fallible σ ε ρ β} {f : β → Fallible σ ε ρ α}

theorem pure [Std.Refl P] (a : α) : Respects P D E (Pure.pure a : Fallible σ ε ρ α) :=
  fun s => Std.Refl.refl s

theorem throw [Std.Refl P] {r : ρ} (hr : D r) :
    Respects P D E (MonadExcept.throw r : Fallible σ ε ρ α) :=
  fun s => ⟨hr, Std.Refl.refl s⟩

theorem get [Std.Refl P] : Respects P D E (MonadState.get : Fallible σ ε ρ σ) :=
  fun s => Std.Refl.refl s

theorem modify {g : σ → σ} (h : ∀ s, P s (g s)) :
    Respects P D E (modify g : Fallible σ ε ρ PUnit) := h

theorem demand [Std.Refl P] {e : ε} {c : Prop} [Decidable c] (he : E e) :
    Respects P D E (demand e c : Fallible σ ε ρ Unit) := fun s =>
  (wpe_demand e c).mpr ⟨fun _ => Std.Refl.refl s, fun _ => he⟩

theorem stop {e : ε} (he : E e) : Respects P D E (stop e : Fallible σ ε ρ α) := fun _ => he

theorem bind [IsTrans σ P] (hm : Respects P D E m) (hf : ∀ b, Respects P D E (f b)) :
    Respects P D E (m >>= f) := fun s => by
  rw [wpe_bind]
  exact wpe_mono (hm s) (fun b s' h => wpe_mono (hf b s') (fun _ s'' => IsTrans.trans s s' s'' h)
    (fun _ s'' h' => ⟨h'.1, IsTrans.trans s s' s'' h h'.2⟩) fun _ => id) (fun _ _ => id) fun _ => id

theorem onError [IsTrans σ P] {m : Fallible σ ε ρ α} {undo : Fallible σ ε ρ Unit}
    (hm : Respects P D E m) (hu : Respects P D E undo) : Respects P D E (onError m undo) := fun s => by
  rw [wpe_onError]
  exact wpe_mono (hm s) (fun _ _ => id) (fun _ s' h => wpe_mono (hu s')
    (fun _ s'' h' => ⟨h.1, IsTrans.trans s s' s'' h.2 h'⟩)
    (fun _ s'' h' => ⟨h'.1, IsTrans.trans s s' s'' h.2 h'.2⟩) fun _ => id) fun _ => id

theorem ite {c : Prop} [Decidable c] {m m' : Fallible σ ε ρ α} (hm : c → Respects P D E m)
    (hm' : ¬ c → Respects P D E m') : Respects P D E (if c then m else m') := fun s =>
  (wpe_ite c m m').mpr ⟨fun h => hm h s, fun h => hm' h s⟩

theorem zoome {τ : Type} {part : σ → τ} {put : τ → σ → σ} {m : Fallible τ ε ρ α}
    (h : ∀ s t, P s (put t s)) (hm : Respects (fun _ _ => True) D E m) :
    Respects P D E (zoome part put m) := fun s => by
  rw [wpe_zoome]
  exact wpe_mono (hm (part s)) (fun _ t _ => h s t) (fun _ t ht => ⟨ht.1, h s t⟩) fun _ => id

end Respects

end Fallible

end Act
