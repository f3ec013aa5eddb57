import Mathlib.Data.List.GetD
import UCore.Libs.PrintfText

/-!
# Libs/Snprintf — printing into a buffer

    str[0 … min count (size - 1))   the first characters        then a NUL        then what was there

`%e` negates a negative error code before it compares it with `MAXERROR`; the least `int` stays negative,
and `error_string` is read far below its start.
-/

namespace UCore.Printf

variable {mem : ℕ → UInt8} {size : ℕ} {text : List UInt8}

/-! ## Error messages -/

/-- The index into `error_string`. -/
def errIndex (err : ℤ) : ℤ := if err < 0 then toS32 (-err) else err

/-- The text of `%e`. -/
def errText (err : ℤ) : List UInt8 :=
  if errIndex err > MAXERROR then printed (fun _ => []) (intArg (errIndex err)) .text errorFmt.bytes 0
  else
    match errorString.getD (errIndex err).toNat none with
    | none => printed (fun _ => []) (intArg (errIndex err)) .text errorFmt.bytes 0
    | some p => printed (fun _ => []) (stringArg p) .text stringFmt.bytes 0

/-- Of the `int`s only the least has no place in `error_string`. -/
theorem errIndex_nonneg_iff (va : VaList) (k : ℕ) : 0 ≤ errIndex (va.int k) ↔ va.int k ≠ -2 ^ 31 := by
  have hlo : -2 ^ 31 ≤ va.int k := by
    have := Int.le_bmod (x := (va.word k : ℤ)) (show 0 < 2 ^ 32 by norm_num)
    unfold VaList.int toS32
    omega
  unfold errIndex
  split
  · by_cases hmin : va.int k = -2 ^ 31
    · rw [hmin]
      decide
    · rw [toS32_of_mem (by omega) (by omega)]
      omega
  · omega

/-- A format without a `%e` is printed by `printfmt`, and the caller's arguments stay. -/
theorem wp_printfmt {fmt : CString} (hno : errSlots false fmt.bytes 0 = []) (va : VaList) (fuel : ℕ)
    (s : Printing) :
    Act.wp (printfmt fmt va fuel)
      (fun _ t => t = { s with out := s.out ++ printed (fun _ => []) va .text fmt.bytes 0 })
      (fun f => f = .spin ∧ fuel ≤ fmt.bytes.length) s := by
  have hreports : Reports (fun _ => throw .errorString) (fun _ => []) (fun _ => False) False :=
    fun _ _ => .inl ⟨rfl, not_false⟩
  simp only [printfmt, Act.wp_bind, Act.wp_get, Act.wp_set, Act.wp_modify]
  refine Act.wp_mono (wp_vprintfmtWith hreports fmt va fuel _) ?_ ?_
  · rintro _ t ⟨-, hout⟩
    rw [hout]
  · rintro f (⟨-, hbad⟩ | ⟨rfl, hfuel⟩)
    · exact absurd (by rw [hno]; exact List.forall_mem_nil _) hbad
    · exact ⟨rfl, hfuel.resolve_left not_false⟩

/-- `%e`, by the index. -/
theorem printError_eq (fuel : ℕ) (err : ℤ) :
    printError fuel err =
      if errIndex err > MAXERROR then printfmt errorFmt (intArg (errIndex err)) fuel
      else (do
        Act.require .errorString (0 ≤ errIndex err)
        match errorString.getD (errIndex err).toNat none with
        | none => printfmt errorFmt (intArg (errIndex err)) fuel
        | some p => printfmt stringFmt (stringArg p) fuel) := rfl

/-- **`%e`** prints its message, or reads below `error_string`. -/
theorem reports_printError (fuel : ℕ) :
    Reports (printError fuel) errText (fun err => 0 ≤ errIndex err) (fuel ≤ errorFmt.bytes.length) := by
  intro err s
  have hshort : ∀ {f : Fault} {n : ℕ}, n ≤ errorFmt.bytes.length → f = .spin ∧ fuel ≤ n →
      f = .errorString ∧ ¬ 0 ≤ errIndex err ∨ f = .spin ∧ fuel ≤ errorFmt.bytes.length :=
    fun hn h => .inr ⟨h.1, h.2.trans hn⟩
  rw [printError_eq, Act.wp_ite]
  refine ⟨fun hbig => ?_, fun hsmall => ?_⟩
  · refine Act.wp_mono (wp_printfmt rfl _ _ _) (fun _ t ht => ⟨?_, ?_⟩) fun f => hshort le_rfl
    · exact (show (0 : ℤ) ≤ MAXERROR by decide).trans hbig.le
    · rw [ht, errText, if_pos hbig]
  · rw [Act.wp_bind, Act.wp_require]
    refine ⟨fun hpos => ?_, fun hneg => .inl ⟨rfl, hneg⟩⟩
    cases hp : errorString.getD (errIndex err).toNat none with
    | none =>
      refine Act.wp_mono (wp_printfmt rfl _ _ _) (fun _ t ht => ⟨hpos, ?_⟩) fun f => hshort le_rfl
      rw [ht, errText, if_neg hsmall, hp]
    | some p =>
      refine Act.wp_mono (wp_printfmt rfl _ _ _) (fun _ t ht => ⟨hpos, ?_⟩) fun f => hshort (n := 2) (by decide)
      rw [ht, errText, if_neg hsmall, hp]

/-- **`vprintfmt`** returns, with enough fuel, if no `%e` has the least `int`; else it fails. -/
theorem vprintfmt_iff (fmt : CString) (va : VaList) (fuel : ℕ) (hfuel : 8 + fmt.bytes.length < fuel) :
    if ∀ k ∈ errSlots false fmt.bytes 0, va.int k ≠ -2 ^ 31 then
      ∃ t, vprintfmt fmt va fuel ⟨0, []⟩ = .ok ((), t) ∧ t.out = printed errText va .text fmt.bytes 0
    else vprintfmt fmt va fuel ⟨0, []⟩ = .error .errorString := by
  have hwp := wp_vprintfmtWith (reports_printError fuel) fmt va fuel ⟨0, []⟩
  simp only [errIndex_nonneg_iff] at hwp
  have hlen : errorFmt.bytes.length = 8 := by decide
  cases hrun : vprintfmt fmt va fuel ⟨0, []⟩ with
  | ok r =>
    obtain ⟨hgood, hout⟩ := Act.wp_of_ok hwp hrun
    rw [if_pos hgood]
    exact ⟨r.2, rfl, hout⟩
  | error f =>
    obtain ⟨rfl, hbad⟩ | ⟨-, hshort⟩ := Act.wp_of_error hwp hrun
    · rw [if_neg hbad]
    · omega

/-! ## The buffer -/

/-- **The buffer holds** the first characters of a text, as many as fit in front of the NUL. -/
structure Holds (mem : ℕ → UInt8) (size : ℕ) (text : List UInt8) (b : SprintBuf) : Prop where
  buf : b.buf = min text.length (size - 1)
  ebuf : b.ebuf = (size : ℤ) - 1
  cnt : b.cnt = toS32 text.length
  stored : ∀ i < b.buf, b.mem i = text.getD i 0
  kept : ∀ i ≥ b.buf, b.mem i = mem i

/-- One character more. -/
theorem Holds.put (hsize : 1 ≤ size) {b : SprintBuf} (h : Holds mem size text b) (ch : UInt8) :
    ∃ b', sprintputch size b ch = .ok b' ∧ Holds mem size (text ++ [ch]) b' := by
  have hbuf := h.buf
  have hebuf := h.ebuf
  have hcnt : toS32 (b.cnt + 1) = toS32 (text ++ [ch]).length := by
    rw [h.cnt, List.length_append, List.length_singleton, toS32, toS32, toS32, Int.bmod_add_bmod]
    rfl
  by_cases hfull : (b.buf : ℤ) < b.ebuf
  · have hlt : b.buf < size := by omega
    have hall : b.buf = text.length := by omega
    refine ⟨{ b with mem := Function.update b.mem b.buf ch, buf := b.buf + 1, cnt := toS32 (b.cnt + 1) },
      by simp only [sprintputch, if_pos hfull, if_pos hlt]; rfl, ?_, hebuf, hcnt, fun i hi => ?_, fun i hi => ?_⟩
    · rw [List.length_append, List.length_singleton]
      dsimp only
      omega
    · dsimp only at hi ⊢
      rcases Nat.lt_succ_iff_lt_or_eq.mp hi with hi | rfl
      · rw [Function.update_of_ne hi.ne, h.stored i hi, List.getD_append _ _ _ _ (by omega)]
      · rw [Function.update_self, hall, List.getD_append_right _ _ _ _ le_rfl, Nat.sub_self]
        rfl
    · dsimp only at hi ⊢
      rw [Function.update_of_ne (by omega), h.kept i (by omega)]
  · refine ⟨{ b with cnt := toS32 (b.cnt + 1) }, by simp only [sprintputch, if_neg hfull]; rfl, ?_, hebuf, hcnt,
      fun i hi => ?_, h.kept⟩
    · rw [List.length_append, List.length_singleton]
      dsimp only
      omega
    · dsimp only at hi ⊢
      rw [h.stored i hi, List.getD_append _ _ _ _ (by omega)]

/-- …and so a text of any length. -/
theorem holds_of_foldlM (hsize : 1 ≤ size) (mem : ℕ → UInt8) (text : List UInt8) :
    ∃ b, text.foldlM (sprintputch size) ⟨mem, 0, (size : ℤ) - 1, 0⟩ = .ok b ∧ Holds mem size text b := by
  induction text using List.reverseRecOn with
  | nil => exact ⟨_, rfl, by simp, rfl, rfl, by simp, by simp⟩
  | append_singleton text ch ih =>
    obtain ⟨b, hrun, hb⟩ := ih
    obtain ⟨b', hput, hb'⟩ := hb.put hsize ch
    refine ⟨b', ?_, hb'⟩
    rw [List.foldlM_append, hrun]
    exact (bind_pure _).trans hput

/-! ## `vsnprintf` -/

/-- **What `vsnprintf` promises**: with enough fuel the printing ends without a fault, whatever the buffer;
and if less than `2 ^ 31` characters are printed, they are counted, and the first of them are stored, with
a NUL behind them. -/
def Snprints (fmt : CString) (va : VaList) (size : ℕ) (mem : ℕ → UInt8) : Prop :=
  ∃ (text : List UInt8) (enough : ℕ), ∀ fuel ≥ enough,
    (∃ t, vprintfmt fmt va fuel ⟨0, []⟩ = .ok ((), t) ∧ t.out = text) ∧
    (text.length < 2 ^ 31 → ∃ mem', vsnprintf (some mem) size fmt va fuel = .ok (text.length, some mem') ∧
      (∀ i < min text.length (size - 1), mem' i = text.getD i 0) ∧
      mem' (min text.length (size - 1)) = 0 ∧
      ∀ i > min text.length (size - 1), mem' i = mem i)

/-- What was printed goes to the buffer. -/
theorem vsnprintf_of_vprintfmt (hsize : 1 ≤ size) {fmt : CString} {va : VaList} {fuel : ℕ} {t : Printing}
    (hrun : vprintfmt fmt va fuel ⟨0, []⟩ = .ok ((), t)) (mem : ℕ → UInt8) :
    ∃ b, Holds mem size t.out b ∧
      vsnprintf (some mem) size fmt va fuel = .ok (b.cnt, some (Function.update b.mem b.buf 0)) := by
  obtain ⟨b, hfold, hb⟩ := holds_of_foldlM hsize mem t.out
  have hbuf := hb.buf
  refine ⟨b, hb, ?_⟩
  have hopen : ¬ (((0 : ℕ) : ℤ) > (size : ℤ) - 1) := by omega
  have hlt : b.buf < size := by omega
  have heq : vsnprintf (some mem) size fmt va fuel = (do
      let b ← t.out.foldlM (sprintputch size) ⟨mem, 0, (size : ℤ) - 1, 0⟩
      if b.buf < size then
        return (b.cnt, some (Function.update b.mem b.buf 0))
      else
        throw .buffer) := by
    simp only [vsnprintf, if_neg hopen, hrun]
    rfl
  rw [heq, hfold]
  exact if_pos hlt

/-- The least `int` breaks the promise. -/
theorem not_snprints {fmt : CString} {va : VaList}
    (hbad : ¬ ∀ k ∈ errSlots false fmt.bytes 0, va.int k ≠ -2 ^ 31) : ¬ Snprints fmt va size mem := by
  rintro ⟨text, enough, hrun⟩
  have hfails := vprintfmt_iff fmt va (max enough (9 + fmt.bytes.length)) (by omega)
  rw [if_neg hbad] at hfails
  obtain ⟨⟨t, hok, -⟩, -⟩ := hrun _ (le_max_left _ _)
  exact absurd (hfails.symm.trans hok) (by simp)

/-- **`vsnprintf` is safe** on every format, except where a `%e` has the least `int`. -/
theorem vsnprintf_safe_iff (hsize : 1 ≤ size) (fmt : CString) (va : VaList) (mem : ℕ → UInt8) :
    Snprints fmt va size mem ↔ ∀ k ∈ errSlots false fmt.bytes 0, va.int k ≠ -2 ^ 31 := by
  refine ⟨fun h => by_contra fun hbad => not_snprints hbad h, fun hgood => ?_⟩
  refine ⟨printed errText va .text fmt.bytes 0, 9 + fmt.bytes.length, fun fuel hfuel => ?_⟩
  have hok := vprintfmt_iff fmt va fuel (by omega)
  rw [if_pos hgood] at hok
  obtain ⟨t, hrun, hout⟩ := hok
  refine ⟨⟨t, hrun, hout⟩, fun hshort => ?_⟩
  obtain ⟨b, hb, hstr⟩ := vsnprintf_of_vprintfmt hsize hrun mem
  rw [hout] at hb
  have hbuf := hb.buf
  refine ⟨Function.update b.mem b.buf 0, ?_, fun i hi => ?_, ?_, fun i hi => ?_⟩
  · rw [hstr, hb.cnt, toS32_of_mem (by omega) (by exact_mod_cast hshort)]
  · rw [Function.update_of_ne (by omega), hb.stored i (by omega)]
  · rw [← hbuf, Function.update_self]
  · rw [Function.update_of_ne (by omega), hb.kept i (by omega)]

/-- A format that ends in an escape, as an example. -/
theorem vsnprintf_safe_cut : Snprints ⟨"%x %5".toList.map ascii, by decide⟩ ⟨fun _ => 255, fun _ => none⟩ 4
    fun _ => 7 :=
  (vsnprintf_safe_iff (by decide) _ _ _).mpr (by decide)

/-- **The least `int` has no message**: `vsnprintf` of `%e` reads far below `error_string`. -/
theorem not_snprints_least : ¬ Snprints ⟨"%e".toList.map ascii, by decide⟩ ⟨fun _ => 2 ^ 31, fun _ => none⟩ 80
    fun _ => 0 :=
  not_snprints (by decide)

end UCore.Printf
