import Mathlib.Tactic

/-!
# Machinery/Bytes — writing a run of cells

    m ──▸ m'      m' (place 0) = val 0,  m' (place 1) = val 1,  …      elsewhere as m

A memory is a function from places to values.  `Written` says what a copy of `n` values has made of it;
copies that write to different places follow one another.  A word of `n` bytes is kept with its lowest
byte first.
-/

namespace Bytes

variable {A V : Type*} {m m' m'' : A → V} {place : ℕ → A} {val : ℕ → V} {n k : ℕ}

/-- **`n` values were written**, the `i`th to `place i`, and nothing else. -/
structure Written (m m' : A → V) (place : ℕ → A) (val : ℕ → V) (n : ℕ) : Prop where
  value : ∀ i < n, m' (place i) = val i
  frame : ∀ a, (∀ i < n, a ≠ place i) → m' a = m a

namespace Written

theorem refl : Written m m place val 0 := ⟨fun _ h => absurd h (Nat.not_lt_zero _), fun _ _ => rfl⟩

/-- One value first, then the others. -/
theorem cons [DecidableEq A] (hne : ∀ i < n, place (i + 1) ≠ place 0)
    (h : Written (Function.update m (place 0) (val 0)) m' (fun i => place (i + 1))
      (fun i => val (i + 1)) n) : Written m m' place val (n + 1) := by
  refine ⟨fun i hi => ?_, fun a ha => ?_⟩
  · cases i with
    | zero =>
      rw [h.frame (place 0) fun i hi => (hne i hi).symm]
      exact Function.update_self ..
    | succ i => exact h.value i (Nat.lt_of_succ_lt_succ hi)
  · rw [h.frame a fun i hi => ha (i + 1) (Nat.succ_lt_succ hi)]
    exact Function.update_of_ne (ha 0 (Nat.succ_pos n)) ..

/-- **One copy after another.** -/
theorem append (h : Written m m' place val n)
    (h' : Written m' m'' (fun i => place (n + i)) (fun i => val (n + i)) k)
    (hne : ∀ i < n, ∀ j < k, place i ≠ place (n + j)) : Written m m'' place val (n + k) := by
  refine ⟨fun i hi => ?_, fun a ha => ?_⟩
  · by_cases hin : i < n
    · rw [h'.frame (place i) fun j hj => hne i hin j hj, h.value i hin]
    · have hi' : n + (i - n) = i := by omega
      have := h'.value (i - n) (by omega)
      rwa [hi'] at this
  · rw [h'.frame a fun j hj => ha (n + j) (by omega), h.frame a fun i hi => ha i (by omega)]

/-- What is written depends on the values only. -/
theorem congr {val' : ℕ → V} (h : Written m m' place val n) (hval : ∀ i < n, val i = val' i) :
    Written m m' place val' n := ⟨fun i hi => (h.value i hi).trans (hval i hi), h.frame⟩

end Written

/-! ## Words -/

/-- The word of `n` bytes at `a`. -/
def word (m : ℕ → UInt8) : ℕ → ℕ → ℕ
  | 0, _ => 0
  | n + 1, a => (m a).toNat + 256 * word m n (a + 1)

/-- The memory with the word `v` of `n` bytes at `a`. -/
def putWord (m : ℕ → UInt8) : ℕ → ℕ → ℕ → ℕ → UInt8
  | 0, _, _ => m
  | n + 1, a, v => putWord (Function.update m a (UInt8.ofNat v)) n (a + 1) (v / 256)

section Word

variable {m m' : ℕ → UInt8} {n a b v : ℕ}

theorem word_lt (m : ℕ → UInt8) (n a : ℕ) : word m n a < 256 ^ n := by
  induction n generalizing a with
  | zero => exact Nat.one_pos
  | succ n ih =>
    have hbyte : (m a).toNat < 256 := (m a).toNat_lt
    have := ih (a + 1)
    rw [word, pow_succ]
    omega

/-- A word depends on its bytes only. -/
theorem word_congr (h : ∀ i < n, m (a + i) = m' (b + i)) : word m n a = word m' n b := by
  induction n generalizing a b with
  | zero => rfl
  | succ n ih =>
    have hfirst := h 0 (Nat.succ_pos n)
    have hrest : word m n (a + 1) = word m' n (b + 1) := ih fun i hi => by
      have := h (i + 1) (Nat.succ_lt_succ hi)
      rwa [show a + (i + 1) = a + 1 + i by omega, show b + (i + 1) = b + 1 + i by omega] at this
    rw [word, word, hrest]
    exact congrArg (fun x : UInt8 => x.toNat + _) hfirst

theorem putWord_of_ne (h : b < a ∨ a + n ≤ b) : putWord m n a v b = m b := by
  induction n generalizing m a v with
  | zero => rfl
  | succ n ih =>
    rw [putWord, ih (by omega), Function.update_of_ne (by omega)]

/-- **A word is read back.** -/
theorem word_putWord : word (putWord m n a v) n a = v % 256 ^ n := by
  induction n generalizing m a v with
  | zero => rw [pow_zero, Nat.mod_one, word]
  | succ n ih =>
    have hbyte : putWord (Function.update m a (UInt8.ofNat v)) n (a + 1) (v / 256) a =
        UInt8.ofNat v := by
      rw [putWord_of_ne (by omega), Function.update_self]
    have hval : (UInt8.ofNat v).toNat = v % 256 := UInt8.toNat_ofNat'
    rw [word, putWord, ih, hbyte, hval, pow_succ', Nat.mod_mul]

/-- …and one that does not meet it is as before. -/
theorem word_putWord_of_ne {k : ℕ} (h : b + k ≤ a ∨ a + n ≤ b) :
    word (putWord m n a v) k b = word m k b :=
  word_congr fun i hi => putWord_of_ne (by omega)

end Word

end Bytes
