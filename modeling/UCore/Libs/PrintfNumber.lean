import UCore.Libs.Snprintf

/-!
# Libs/PrintfNumber — numbers in a format

    % flag width l… conversion          sign  padding  digits

The width grows by a factor of ten with each of its digits, as the numeral does; `printnum` takes one off
it with each digit that it prints, and pads where the digits end.  So the padding stands on the left under
every flag, and its character is the flag.
-/

namespace UCore.Printf

variable {errText : ℤ → List UInt8} {va : VaList} {b n k l w : ℕ} {lits cs : List UInt8} {e : Escape}
  {c : UInt8}

/-! ## Numerals -/

/-- The canonical numeral of a number. -/
def numeral (base n : ℕ) : List UInt8 := (Nat.toDigits base n).map ascii

/-- A digit of `printnum` is one of a numeral. -/
theorem ascii_digitChar (h : n < 16) : ascii n.digitChar = digit n := by
  interval_cases n <;> rfl

theorem numeral_of_lt (hb : b ≤ 16) (h : n < b) : numeral b n = [digit n] := by
  rw [numeral, Nat.toDigits_of_lt_base h, List.map_singleton, ascii_digitChar (by omega)]

/-- The last digit comes off the end, as in `printnum`. -/
theorem numeral_of_le (hlo : 2 ≤ b) (hb : b ≤ 16) (h : b ≤ n) :
    numeral b n = numeral b (n / b) ++ [digit (n % b)] := by
  have hmod : n % b < b := Nat.mod_lt n (by omega)
  rw [numeral, numeral, Nat.toDigits_of_base_le (by omega) h, List.map_append, List.map_singleton,
    ascii_digitChar (by omega)]

/-- Every 64-bit value has at most 64 digits. -/
theorem length_numeral_le (hlo : 2 ≤ b) (h : n < 2 ^ 64) : (numeral b n).length ≤ 64 := by
  rw [numeral, List.length_map, Nat.length_toDigits_le_iff (by omega) (by omega)]
  exact h.trans_le (Nat.pow_le_pow_left hlo 64)

/-- A numeral has digits only. -/
theorem notMem_numeral (hlo : 2 ≤ b) (hb : b ≤ 16) (hc : ∀ d < 16, digit d ≠ c) : c ∉ numeral b n := by
  induction n using Nat.strong_induction_on with
  | _ n ih =>
    rcases lt_or_ge n b with hn | hn
    · rw [numeral_of_lt hb hn, List.mem_singleton]
      exact (hc n (by omega)).symm
    · have hmod : n % b < b := Nat.mod_lt n (by omega)
      rw [numeral_of_le hlo hb hn, List.mem_append, List.mem_singleton, not_or]
      exact ⟨ih _ (Nat.div_lt_self (by omega) (by omega)), (hc _ (by omega)).symm⟩

/-- **`printnum`** pads in front of the numeral. -/
theorem printnum_eq (hlo : 2 ≤ b) (hb : b ≤ 16) (n : ℕ) (width : ℤ) (padc : UInt8) :
    printnum n b width padc =
      List.replicate (toS32 (width - (numeral b n).length)).toNat padc ++ numeral b n := by
  induction n using Nat.strong_induction_on generalizing width with
  | _ n ih =>
    rw [printnum]
    rcases lt_or_ge n b with hn | hn
    · rw [dif_neg (by omega), numeral_of_lt hb hn, Nat.mod_eq_of_lt hn]
      rfl
    · have hwidth : toS32 (toS32 (width - 1) - (numeral b (n / b)).length) =
          toS32 (width - (numeral b n).length) := by
        rw [numeral_of_le hlo hb hn, List.length_append, List.length_singleton, toS32, toS32, toS32,
          Int.bmod_sub_bmod]
        congr 1
        omega
      rw [dif_pos ⟨hlo, hn⟩, ih _ (Nat.div_lt_self (by omega) (by omega)), hwidth, List.append_assoc,
        ← numeral_of_le hlo hb hn]

/-! ## The width -/

theorem isDigit_digit (h : n < 10) : IsDigit (digit n) := by
  interval_cases n <;> decide

theorem toNat_digit (h : n < 10) : (digit n).toNat = 48 + n := by
  interval_cases n <;> rfl

/-- A width without its first digit, as an `int`. -/
theorem nextDigit_digit {v : ℤ} (h : n < 10) : nextDigit (toS32 v) (digit n) = toS32 (v * 10 + n) := by
  have heq : toS32 v * 10 + ((48 + n : ℕ) : ℤ) - 48 = toS32 v * 10 + n := by omega
  rw [nextDigit, toNat_digit h, heq, toS32, toS32, toS32, ← Int.bmod_add_bmod, Int.bmod_mul_bmod,
    Int.bmod_add_bmod]

/-- **The width** is read as the number that it stands for. -/
theorem printed_numeral (hw : 0 < w) :
    printed errText va (.escape lits e none) (numeral 10 w ++ cs) k =
      printed errText va (.escape (lits ++ numeral 10 w) e (some (toS32 w))) cs k := by
  induction w using Nat.strong_induction_on generalizing cs with
  | _ w ih =>
    rcases lt_or_ge w 10 with hlt | hge
    · have hsw : switch (digit w) = .digit := by
        interval_cases w <;> rfl
      have hnext : nextDigit 0 (digit w) = toS32 w := by
        rw [show (0 : ℤ) = toS32 0 from rfl, nextDigit_digit hlt, zero_mul, zero_add]
      rw [numeral_of_lt (by omega) hlt, List.singleton_append, printed, if_neg fun h => h.1 rfl]
      simp only [hsw, hnext]
      rfl
    · have hval : ((w / 10 : ℕ) : ℤ) * 10 + ((w % 10 : ℕ) : ℤ) = w := by omega
      rw [numeral_of_le (by omega) (by omega) hge, List.append_assoc, List.singleton_append,
        ih _ (by omega) (by omega), printed_digit (isDigit_digit (Nat.mod_lt w (by omega))),
        nextDigit_digit (Nat.mod_lt w (by omega)), List.append_assoc, hval]

theorem errSlots_numeral : errSlots true (numeral 10 w ++ cs) k = errSlots true cs k := by
  induction w using Nat.strong_induction_on generalizing cs with
  | _ w ih =>
    rcases lt_or_ge w 10 with hlt | hge
    · rw [numeral_of_lt (by omega) hlt, List.singleton_append, errSlots_digit (isDigit_digit hlt)]
    · rw [numeral_of_le (by omega) (by omega) hge, List.append_assoc, List.singleton_append,
        ih _ (by omega), errSlots_digit (isDigit_digit (Nat.mod_lt w (by omega)))]

/-! ## The format of a number -/

/-- The flag of a number: pad with spaces, pad with zeros, or pad on the right. -/
inductive Flag where
  | none
  | zero
  | minus
  deriving DecidableEq, Repr

/-- The flag, as it is written. -/
def Flag.chars : Flag → List UInt8
  | none => []
  | zero => [ascii '0']
  | minus => [ascii '-']

/-- The conversions of a number. -/
inductive Conversion where
  | d
  | u
  | o
  | x
  deriving DecidableEq, Repr

namespace Conversion

/-- The conversion, as it is written. -/
def char : Conversion → UInt8
  | d => ascii 'd'
  | u => ascii 'u'
  | o => ascii 'o'
  | x => ascii 'x'

/-- The base of the numeral. -/
def base : Conversion → ℕ
  | d | u => 10
  | o => 8
  | x => 16

/-- The value, read from slot `k` with `l` long flags. -/
def value (va : VaList) (k l : ℕ) : Conversion → ℤ
  | d => getint va k l
  | _ => getuint va k l

theorem two_le_base (conv : Conversion) : 2 ≤ conv.base := by
  cases conv <;> decide

theorem base_le (conv : Conversion) : conv.base ≤ 16 := by
  cases conv <;> decide

end Conversion

/-- The width, as it is written; a width of zero is none, since a `0` is a flag. -/
def widthText (w : ℕ) : List UInt8 := if w = 0 then [] else numeral 10 w

/-- The characters of a format are none of them a NUL. -/
theorem nul_notMem_format (flag : Flag) (w l : ℕ) (conv : Conversion) :
    0 ∉ ascii '%' :: (flag.chars ++ (widthText w ++ (List.replicate l (ascii 'l') ++ [conv.char]))) := by
  have hflag : 0 ∉ flag.chars := by
    cases flag <;> decide
  have hwidth : 0 ∉ widthText w := by
    unfold widthText
    split
    · exact List.not_mem_nil
    · exact notMem_numeral (by omega) (by omega) (by decide)
  have hlong : 0 ∉ List.replicate l (ascii 'l') := fun h => absurd (List.eq_of_mem_replicate h) (by decide)
  have hconv : 0 ∉ [conv.char] := by
    cases conv <;> decide
  simp only [List.mem_cons, List.mem_append, not_or]
  exact ⟨by decide, hflag, hwidth, hlong, fun h => hconv (h ▸ List.mem_cons_self), List.not_mem_nil⟩

/-- **The format** of one number. -/
def numberFormat (flag : Flag) (w l : ℕ) (conv : Conversion) : CString :=
  ⟨_, nul_notMem_format flag w l conv⟩

/-- **The text** of a number: the sign, and the digits, padded to the width on the left with spaces or zeros,
or on the right with spaces. -/
def numberText (flag : Flag) (w base : ℕ) (v : ℤ) : List UInt8 :=
  let digits := numeral base v.natAbs
  let pad := List.replicate (w - digits.length)
  (if v < 0 then [ascii '-'] else []) ++
    match flag with
    | .none => pad (ascii ' ') ++ digits
    | .zero => pad (ascii '0') ++ digits
    | .minus => digits ++ pad (ascii ' ')

/-- **The number is printed** as its text. -/
def PrintsNumber (flag : Flag) (w l : ℕ) (conv : Conversion) (va : VaList) : Prop :=
  ∃ enough, ∀ fuel ≥ enough, ∃ t, vprintfmt (numberFormat flag w l conv) va fuel ⟨0, []⟩ = .ok ((), t) ∧
    t.out = numberText flag w conv.base (conv.value va 0 l)

/-! ## Reading the format -/

/-- The pad character that a flag leaves. -/
def Flag.padc : Flag → UInt8
  | none => ascii ' '
  | zero => ascii '0'
  | minus => ascii '-'

/-- The width, as it is read. -/
def intWidth (w : ℕ) : ℤ := if w = 0 then -1 else toS32 w

/-- The escape at the conversion. -/
def numberEscape (flag : Flag) (w l : ℕ) : Escape := ⟨flag.padc, intWidth w, -1, l, false⟩

theorem printed_flag (flag : Flag) :
    printed errText va (.escape [] .start none) (flag.chars ++ cs) k =
      printed errText va (.escape flag.chars { Escape.start with padc := flag.padc } none) cs k := by
  cases flag with
  | none => rfl
  | zero | minus =>
    rw [Flag.chars, List.singleton_append, printed, if_neg fun h => h.1 rfl]
    rfl

theorem printed_width (flag : Flag) (hcs : ∀ c ∈ cs.head?, ¬ IsDigit c) :
    printed errText va (.escape lits { Escape.start with padc := flag.padc } none) (widthText w ++ cs) k =
      printed errText va (.escape (lits ++ widthText w) (numberEscape flag w 0) none) cs k := by
  unfold widthText numberEscape intWidth
  split
  case isTrue hw =>
    rw [List.nil_append, List.append_nil]
    rfl
  case isFalse hw =>
    rw [printed_numeral (Nat.pos_of_ne_zero hw), printed_settle hcs]
    rfl

theorem printed_long (m : ℕ) :
    printed errText va (.escape lits e none) (List.replicate m (ascii 'l') ++ cs) k =
      printed errText va (.escape (lits ++ List.replicate m (ascii 'l')) { e with lflag := e.lflag + m } none)
        cs k := by
  induction m generalizing lits e with
  | zero => rw [List.replicate_zero, List.nil_append, List.append_nil, Nat.add_zero]
  | succ m ih =>
    have hsw : switch (ascii 'l') = .long := by decide
    rw [List.replicate_succ, List.cons_append, printed, if_neg fun h => h.1 rfl]
    simp only [hsw]
    rw [ih, List.append_assoc, List.singleton_append, Nat.add_right_comm, Nat.add_assoc]
    rfl

/-- What comes after the width is no digit. -/
theorem not_isDigit_tail (l : ℕ) (conv : Conversion) :
    ∀ c ∈ (List.replicate l (ascii 'l') ++ [conv.char]).head?, ¬ IsDigit c := by
  have hl : ¬ IsDigit (ascii 'l') := by decide
  have hconv : ¬ IsDigit conv.char := by cases conv <;> decide
  intro c hc
  cases l with
  | zero =>
    rw [List.replicate_zero, List.nil_append, List.head?_cons, Option.mem_some_iff] at hc
    exact hc ▸ hconv
  | succ l =>
    rw [List.replicate_succ, List.cons_append, List.head?_cons, Option.mem_some_iff] at hc
    exact hc ▸ hl

/-- A number is printed by its conversion. -/
theorem printed_number (flag : Flag) (w l : ℕ) (conv : Conversion) :
    printed errText va .text (numberFormat flag w l conv).bytes k =
      convText va (numberEscape flag w l) k (switch conv.char) := by
  have hconv : ∀ lits, printed errText va (.escape lits (numberEscape flag w l) none) [conv.char] k =
      convText va (numberEscape flag w l) k (switch conv.char) := fun lits => by
    rw [printed, if_neg fun h => h.1 rfl]
    cases conv <;> exact List.append_nil _
  change printed errText va .text (ascii '%' :: _) k = _
  rw [printed, if_neg (by decide), printed_flag, printed_width flag (not_isDigit_tail l conv), printed_long]
  exact (congrArg (fun m => printed errText va (.escape _ ⟨_, _, _, m, _⟩ none) _ _) (Nat.zero_add l)).trans
    (hconv _)

theorem errSlots_number (flag : Flag) (w l : ℕ) (conv : Conversion) :
    errSlots false (numberFormat flag w l conv).bytes k = [] := by
  have hflag : ∀ cs, errSlots true (flag.chars ++ cs) k = errSlots true cs k := fun cs => by
    cases flag <;> rfl
  have hwidth : ∀ cs, errSlots true (widthText w ++ cs) k = errSlots true cs k := fun cs => by
    unfold widthText
    split
    · rfl
    · exact errSlots_numeral
  have hlong : ∀ cs, errSlots true (List.replicate l (ascii 'l') ++ cs) k = errSlots true cs k := fun cs => by
    induction l with
    | zero => rfl
    | succ l ih => exact ih
  change errSlots false (ascii '%' :: _) k = _
  rw [errSlots, if_neg (by decide), hflag, hwidth, hlong]
  cases conv <;> rfl

/-! ## The text of a number -/

theorem toS64_mem (v : ℤ) : -2 ^ 63 ≤ toS64 v ∧ toS64 v < 2 ^ 63 := by
  have hlo := Int.le_bmod (x := v) (show 0 < 2 ^ 64 by norm_num)
  have hhi := Int.bmod_lt (x := v) (show 0 < 2 ^ 64 by norm_num)
  unfold toS64
  omega

/-- A value is an `int64_t`… -/
theorem getint_mem (va : VaList) (k l : ℕ) : -2 ^ 63 ≤ getint va k l ∧ getint va k l < 2 ^ 63 := by
  have hint : -2 ^ 31 ≤ va.int k ∧ va.int k < 2 ^ 31 := by
    have hlo := Int.le_bmod (x := (va.word k : ℤ)) (show 0 < 2 ^ 32 by norm_num)
    exact ⟨by unfold VaList.int toS32; omega, toS32_lt _⟩
  unfold getint
  split
  · exact toS64_mem _
  · split
    · exact toS64_mem _
    · omega

/-- …or a `uint64_t`. -/
theorem getuint_lt (va : VaList) (k l : ℕ) : getuint va k l < 2 ^ 64 := by
  unfold getuint
  split
  · exact u64_lt _
  · split
    · exact u64_lt _
    · exact (u32_lt _).trans (by norm_num)

/-- The digits of a value are those of a 64-bit number. -/
theorem natAbs_value_lt (conv : Conversion) (va : VaList) (k l : ℕ) : (conv.value va k l).natAbs < 2 ^ 64 := by
  have hint := getint_mem va k l
  have huint := getuint_lt va k l
  cases conv with
  | d =>
    change (getint va k l).natAbs < _
    omega
  | u | o | x => exact huint

/-- The sign and the padding that are printed. -/
theorem convText_number (va : VaList) (e : Escape) (k : ℕ) (conv : Conversion) :
    convText va e k (switch conv.char) =
      (if conv.value va k e.lflag < 0 then [ascii '-'] else []) ++
        (List.replicate (toS32 (e.width -
            (numeral conv.base (conv.value va k e.lflag).natAbs).length)).toNat e.padc ++
          numeral conv.base (conv.value va k e.lflag).natAbs) := by
  have hmem := getint_mem va k e.lflag
  cases conv with
  | d =>
    change (if getint va k e.lflag < 0 then ascii '-' :: printnum (toU64 (-getint va k e.lflag)) 10 e.width e.padc
      else printnum (toU64 (getint va k e.lflag)) 10 e.width e.padc) =
        (if getint va k e.lflag < 0 then [ascii '-'] else []) ++
          (List.replicate (toS32 (e.width - (numeral 10 (getint va k e.lflag).natAbs).length)).toNat e.padc ++
            numeral 10 (getint va k e.lflag).natAbs)
    generalize getint va k e.lflag = v at hmem ⊢
    by_cases hneg : v < 0
    · have habs : toU64 (-v) = v.natAbs := by
        unfold toU64
        omega
      rw [if_pos hneg, if_pos hneg, habs, printnum_eq (by omega) (by omega), List.singleton_append]
    · have habs : toU64 v = v.natAbs := by
        unfold toU64
        omega
      rw [if_neg hneg, if_neg hneg, habs, printnum_eq (by omega) (by omega), List.nil_append]
  | u | o | x =>
    have hpos : ∀ c, c ≠ .d → ¬ Conversion.value va k e.lflag c < 0 := fun c hc => by
      cases c with
      | d => exact absurd rfl hc
      | u | o | x => exact (Int.natCast_nonneg (getuint va k e.lflag)).not_gt
    rw [if_neg (hpos _ (by decide)), List.nil_append]
    exact printnum_eq (by decide) (by decide) _ _ _

/-- The padding, by the width and the number of the digits. -/
theorem toNat_padding (w : ℕ) {len : ℕ} (hlen : len ≤ 64) :
    (w ≤ len → (toS32 (intWidth w - len)).toNat = 0) ∧
    (len < w → w < 2 ^ 31 + len → (toS32 (intWidth w - len)).toNat = w - len) ∧
    (toS32 (intWidth w - len)).toNat < 2 ^ 31 := by
  have hlt := toS32_lt (intWidth w - len)
  have hwidth : 0 < w → toS32 (intWidth w - len) = toS32 (w - len) := fun hw => by
    rw [intWidth, if_neg hw.ne', toS32, toS32, toS32, Int.bmod_sub_bmod]
  refine ⟨fun hle => ?_, fun hgt hint => ?_, by omega⟩
  · rcases Nat.eq_zero_or_pos w with rfl | hw
    · rw [intWidth, if_pos rfl, toS32_of_mem (by omega) (by omega)]
      omega
    · rw [hwidth hw, toS32_of_mem (by omega) (by omega)]
      omega
  · rw [hwidth (by omega), toS32_of_mem (by omega) (by omega)]
    omega

/-- **What is printed** for a number. -/
theorem vprintfmt_number (flag : Flag) (w l : ℕ) (conv : Conversion) (va : VaList) (fuel : ℕ)
    (hfuel : 8 + (numberFormat flag w l conv).bytes.length < fuel) :
    ∃ t, vprintfmt (numberFormat flag w l conv) va fuel ⟨0, []⟩ = .ok ((), t) ∧
      t.out = convText va (numberEscape flag w l) 0 (switch conv.char) := by
  have hok := vprintfmt_iff (numberFormat flag w l conv) va fuel hfuel
  rw [errSlots_number, if_pos (List.forall_mem_nil _), printed_number] at hok
  exact hok

/-- **The padding is right** but under the flag `-`, and for a width that is not an `int`. -/
theorem convText_eq_iff (flag : Flag) (w l : ℕ) (conv : Conversion) (va : VaList) :
    convText va (numberEscape flag w l) 0 (switch conv.char) =
        numberText flag w conv.base (conv.value va 0 l) ↔
      w ≤ (numeral conv.base (conv.value va 0 l).natAbs).length ∨
        flag ≠ .minus ∧ w < 2 ^ 31 + (numeral conv.base (conv.value va 0 l).natAbs).length := by
  have hlen := length_numeral_le conv.two_le_base (natAbs_value_lt conv va 0 l)
  have hminus : ascii '-' ∉ numeral conv.base (conv.value va 0 l).natAbs :=
    notMem_numeral conv.two_le_base conv.base_le (by decide)
  rw [convText_number]
  unfold numberText numberEscape
  rw [List.append_cancel_left_eq]
  dsimp only
  generalize numeral conv.base (conv.value va 0 l).natAbs = digits at hlen hminus ⊢
  obtain ⟨hnone, hsome, hlt⟩ := toNat_padding w hlen
  rcases Nat.lt_or_ge digits.length w with hgt | hle
  · refine ⟨fun heq => .inr ?_, fun h => ?_⟩
    · have hlength : (toS32 (intWidth w - digits.length)).toNat + digits.length = w := by
        have hl := congrArg List.length heq
        cases flag <;> simp only [List.length_append, List.length_replicate] at hl <;> omega
      refine ⟨?_, by omega⟩
      rintro rfl
      -- under `-` the padding has the flag in it
      change _ = digits ++ List.replicate (w - digits.length) (ascii ' ') at heq
      have hmem : ascii '-' ∈ digits ++ List.replicate (w - digits.length) (ascii ' ') := by
        rw [← heq]
        exact List.mem_append_left _ (List.mem_replicate.mpr ⟨by omega, rfl⟩)
      rcases List.mem_append.mp hmem with hmem | hmem
      · exact hminus hmem
      · exact absurd (List.eq_of_mem_replicate hmem) (by decide)
    · obtain ⟨hflag, hint⟩ := h.resolve_left (by omega)
      rw [hsome hgt hint]
      cases flag with
      | none | zero => rfl
      | minus => exact absurd rfl hflag
  · refine iff_of_true ?_ (.inl hle)
    rw [hnone hle, Nat.sub_eq_zero_of_le hle]
    cases flag with
    | none | zero => rfl
    | minus => exact (List.append_nil digits).symm

/-- **Numbers are printed** as they should be if they fill the width, or are padded on the left. -/
theorem prints_number_iff (flag : Flag) (w l : ℕ) (conv : Conversion) (va : VaList) :
    PrintsNumber flag w l conv va ↔
      w ≤ (numeral conv.base (conv.value va 0 l).natAbs).length ∨
        flag ≠ .minus ∧ w < 2 ^ 31 + (numeral conv.base (conv.value va 0 l).natAbs).length := by
  rw [← convText_eq_iff]
  refine ⟨fun ⟨enough, h⟩ => ?_, fun heq => ⟨9 + (numberFormat flag w l conv).bytes.length, fun fuel hfuel => ?_⟩⟩
  · obtain ⟨t, hrun, hout⟩ := h (max enough (9 + (numberFormat flag w l conv).bytes.length)) (le_max_left _ _)
    obtain ⟨t', hrun', hout'⟩ := vprintfmt_number flag w l conv va
      (max enough (9 + (numberFormat flag w l conv).bytes.length)) (by omega)
    rw [hrun] at hrun'
    cases hrun'
    exact hout'.symm.trans hout
  · obtain ⟨t, hrun, hout⟩ := vprintfmt_number flag w l conv va fuel (by omega)
    exact ⟨t, hrun, hout.trans heq⟩

/-- **Under the flag `-`** the padding is on the left: `%-5d` prints 42 as `---42`. -/
theorem not_printsNumber_minus : ¬ PrintsNumber .minus 5 0 .d ⟨fun _ => 42, fun _ => none⟩ := by
  rintro ⟨enough, h⟩
  obtain ⟨t, hrun, hout⟩ := h (max enough 20) (le_max_left _ _)
  obtain ⟨t', hrun', hout'⟩ := vprintfmt_number .minus 5 0 .d ⟨fun _ => 42, fun _ => none⟩ (max enough 20)
    ((by decide : _ < 20).trans_le (le_max_right _ _))
  rw [hrun] at hrun'
  cases hrun'
  exact absurd (hout'.symm.trans hout) (by decide +kernel)

end UCore.Printf
