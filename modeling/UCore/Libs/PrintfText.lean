import UCore.Libs.Printf

/-!
# Libs/PrintfText — what a format prints

    text ──'%'──▸ escape ──conversion──▸ text            escape ──unknown──▸ '%', and the escape as text

`printed` reads the format as a list, one character at a time; the cursor of `vprintfmt` follows it, and
the way back over an unknown escape leads to the character after its `%`.  So every read is inside the
format, every loop ends, and what is printed is `printed`.
-/

namespace UCore.Printf

/-- A digit. -/
def IsDigit (c : UInt8) : Prop := ascii '0' ≤ c ∧ c ≤ ascii '9'

instance (c : UInt8) : Decidable (IsDigit c) := inferInstanceAs (Decidable (_ ∧ _))

/-- Where in the format we are: in its text, or in an escape, after `lits` of it, perhaps in a number. -/
inductive Place where
  | text
  | escape (lits : List UInt8) (e : Escape) (num : Option ℤ)

/-- The number that was read, taken for the width or the precision. -/
def Escape.settle (e : Escape) : Option ℤ → Escape
  | none => e
  | some n => e.processPrecision n

/-- **What is printed** from here on, with the arguments from `k` on. -/
def printed (errText : ℤ → List UInt8) (va : VaList) : Place → List UInt8 → ℕ → List UInt8
  | .text, [], _ => []
  | .text, c :: cs, k =>
    if c ≠ ascii '%' then c :: printed errText va .text cs k
    else printed errText va (.escape [] .start none) cs k
  | .escape lits _ _, [], _ => ascii '%' :: lits
  | .escape lits e num, c :: cs, k =>
    if num ≠ none ∧ IsDigit c then
      printed errText va (.escape (lits ++ [c]) e (num.map (nextDigit · c))) cs k
    else
      let e := e.settle num
      match switch c with
      | .flag => printed errText va (.escape (lits ++ [c]) { e with padc := c } none) cs k
      | .digit => printed errText va (.escape (lits ++ [c]) e (some (nextDigit 0 c))) cs k
      | .star => printed errText va (.escape (lits ++ [c]) (e.processPrecision (va.int k)) none) cs (k + 1)
      | .dot => printed errText va
          (.escape (lits ++ [c]) { e with width := if e.width < 0 then 0 else e.width } none) cs k
      | .alt => printed errText va (.escape (lits ++ [c]) { e with altflag := true } none) cs k
      | .long => printed errText va (.escape (lits ++ [c]) { e with lflag := e.lflag + 1 } none) cs k
      | .error => errText (va.int k) ++ printed errText va .text cs (k + 1)
      | .percent => c :: printed errText va .text cs k
      | .other => ascii '%' :: (lits ++ c :: printed errText va .text cs k)
      | conversion => convText va e k conversion ++ printed errText va .text cs (k + 1)

/-- **The arguments of the `%e`s**, whose slots the format alone decides. -/
def errSlots : Bool → List UInt8 → ℕ → List ℕ
  | _, [], _ => []
  | false, c :: cs, k => if c ≠ ascii '%' then errSlots false cs k else errSlots true cs k
  | true, c :: cs, k =>
    match switch c with
    | .flag | .digit | .dot | .alt | .long => errSlots true cs k
    | .star => errSlots true cs (k + 1)
    | .error => k :: errSlots false cs (k + 1)
    | .percent | .other => errSlots false cs k
    | _ => errSlots false cs (k + 1)

variable {errText : ℤ → List UInt8} {va : VaList} {fmt : CString} {c : UInt8} {cs l lits rest : List UInt8}
  {i j k fuel : ℕ} {n : ℤ} {e : Escape} {num : Option ℤ} {s : Printing}

/-! ## Characters -/

theorem switch_percent : switch (ascii '%') = .percent := by decide

theorem switch_nul : switch 0 = .other := by decide

/-- A character that does not end its escape by a `%` is none. -/
theorem ne_percent_of_switch (h : switch c ≠ .percent) : c ≠ ascii '%' := by
  rintro rfl
  exact h switch_percent

theorem IsDigit.ne_percent (h : IsDigit c) : c ≠ ascii '%' := by
  rintro rfl
  exact absurd h (by decide)

/-- What holds of every character is a matter of 256 cases. -/
theorem forall_char {P : UInt8 → Prop} (h : ∀ n < 256, P (UInt8.ofNat n)) (c : UInt8) : P c := by
  have hc := h c.toNat c.toNat_lt
  rwa [UInt8.ofNat_toNat] at hc

/-- What a number may go on with. -/
theorem IsDigit.switch (h : IsDigit c) : Printf.switch c = .flag ∨ Printf.switch c = .digit :=
  forall_char (P := fun c => IsDigit c → Printf.switch c = .flag ∨ Printf.switch c = .digit)
    (by decide +kernel) c h

/-- A digit that is not `0` starts a number. -/
theorem isDigit_of_switch (h : Printf.switch c = .digit) : IsDigit c :=
  forall_char (P := fun c => Printf.switch c = .digit → IsDigit c) (by decide +kernel) c h

/-! ## Text -/

/-- Text without a `%` is printed as it is. -/
theorem printed_append (hl : ascii '%' ∉ l) :
    printed errText va .text (l ++ cs) k = l ++ printed errText va .text cs k := by
  induction l with
  | nil => rfl
  | cons c l ih =>
    obtain ⟨hc, hl⟩ := not_or.mp (List.mem_cons.not.mp hl)
    rw [List.cons_append, printed, if_pos (Ne.symm hc), ih hl, List.cons_append]

theorem errSlots_append (hl : ascii '%' ∉ l) : errSlots false (l ++ cs) k = errSlots false cs k := by
  induction l with
  | nil => rfl
  | cons c l ih =>
    obtain ⟨hc, hl⟩ := not_or.mp (List.mem_cons.not.mp hl)
    rw [List.cons_append, errSlots, if_pos (Ne.symm hc), ih hl]

/-- In a number, a digit is one more. -/
theorem printed_digit (hc : IsDigit c) : printed errText va (.escape lits e (some n)) (c :: cs) k =
    printed errText va (.escape (lits ++ [c]) e (some (nextDigit n c))) cs k := by
  rw [printed, if_pos ⟨Option.some_ne_none n, hc⟩, Option.map_some]

/-- …and anything else ends it. -/
theorem printed_settle (hc : ∀ c ∈ cs.head?, ¬ IsDigit c) :
    printed errText va (.escape lits e (some n)) cs k =
      printed errText va (.escape lits (e.processPrecision n) none) cs k := by
  cases cs with
  | nil => rfl
  | cons c cs =>
    have hno : ¬ IsDigit c := hc c rfl
    rw [printed, printed, if_neg fun h => hno h.2, if_neg fun h => hno h.2]
    rfl

/-- In an escape a digit takes no argument. -/
theorem errSlots_digit (hc : IsDigit c) : errSlots true (c :: cs) k = errSlots true cs k := by
  rw [errSlots]
  rcases hc.switch with h | h <;> rw [h]

/-! ## The cursor -/

/-- **In an escape**: its `%` is at `j`, and the cursor is behind `lits`, with `rest` to come. -/
structure Reading (fmt : CString) (j i : ℕ) (lits rest : List UInt8) : Prop where
  split : fmt.bytes.drop j = ascii '%' :: (lits ++ rest)
  pos : i = j + 1 + lits.length
  noPercent : ascii '%' ∉ lits

namespace Reading

theorem text (h : Reading fmt j i lits rest) : fmt.bytes.drop (j + 1) = lits ++ rest := by
  rw [← List.drop_drop, h.split, List.drop_one, List.tail_cons]

theorem drop (h : Reading fmt j i lits rest) : fmt.bytes.drop i = rest := by
  rw [h.pos, ← List.drop_drop, h.text, List.drop_left]

theorem length (h : Reading fmt j i lits rest) : fmt.bytes.length = i + rest.length := by
  have hlen := congrArg List.length h.split
  rw [List.length_drop, List.length_cons, List.length_append] at hlen
  have := h.pos
  omega

/-- One character on. -/
theorem push (h : Reading fmt j i lits (c :: rest)) (hc : c ≠ ascii '%') :
    Reading fmt j (i + 1) (lits ++ [c]) rest := by
  refine ⟨?_, ?_, fun hmem => ?_⟩
  · rw [h.split, List.append_assoc, List.singleton_append]
  · rw [h.pos, List.length_append, List.length_singleton, Nat.add_assoc]
  · rcases List.mem_append.mp hmem with hmem | hmem
    · exact h.noPercent hmem
    · exact hc (List.mem_singleton.mp hmem).symm

end Reading

/-- A read inside the format, or of its NUL. -/
theorem wp_readFmt (hi : i ≤ fmt.bytes.length) (h : fmt.bytes.drop i = rest) (E : Fault → Prop) :
    Act.wp (readFmt fmt i) (fun c t => t = s ∧ c = rest.head?.getD 0) E s := by
  simp only [readFmt, Act.wp_bind, Act.wp_require, Act.wp_pure]
  refine ⟨fun _ => ⟨trivial, ?_⟩, fun hno => absurd hi hno⟩
  rw [← h, List.head?_drop, List.getD_eq_getElem?_getD]

/-- A character is no digit. -/
theorem not_isDigit_iff : (c < ascii '0' ∨ c > ascii '9') ↔ ¬ IsDigit c := by
  unfold IsDigit
  rw [not_and_or, UInt8.not_le, UInt8.not_le]

/-- **The width field** is read to its end. -/
theorem wp_scanNumber (errText : ℤ → List UInt8) (va : VaList) (e : Escape) (h : Reading fmt j i lits rest)
    (fuel : ℕ) :
    Act.wp (scanNumber fmt fuel c i) (fun r t => t = s ∧ ∃ lits' rest', Reading fmt j r.2 lits' rest' ∧
        rest'.length ≤ rest.length ∧
        (∀ k, printed errText va (.escape lits e (some (nextDigit 0 c))) rest k =
          printed errText va (.escape lits' (e.processPrecision r.1) none) rest' k) ∧
        ∀ k, errSlots true rest k = errSlots true rest' k)
      (fun f => f = .spin ∧ fuel ≤ fmt.bytes.length) s := by
  refine Act.wp_loop (fun m b t => t = s ∧ ∃ lits' rest', Reading fmt j b.2.2 lits' rest' ∧
    m = rest'.length ∧ rest'.length ≤ rest.length ∧
    (∀ k, printed errText va (.escape lits e (some (nextDigit 0 c))) rest k =
      printed errText va (.escape lits' e (some (nextDigit b.1 b.2.1))) rest' k) ∧
    ∀ k, errSlots true rest k = errSlots true rest' k) ?_ fuel rest.length (0, c, i) s ?_
    fun hfuel => ⟨rfl, by
      have := h.length
      omega⟩
  rotate_left
  · exact ⟨rfl, lits, rest, h, rfl, le_rfl, fun _ => rfl, fun _ => rfl⟩
  intro m b t hinv
  obtain ⟨n, c', i'⟩ := b
  obtain ⟨rfl, lits', rest', hr, rfl, hle, hprint, herr⟩ := hinv
  dsimp only at hr hprint ⊢
  rw [Act.wp_bind]
  refine Act.wp_mono (wp_readFmt (by have := hr.length; omega) hr.drop _) ?_ fun _ => id
  rintro d _ ⟨rfl, rfl⟩
  rw [Act.wp_ite]
  refine ⟨fun hno => ?_, fun hyes => ?_⟩
  · rw [not_isDigit_iff] at hno
    rw [Act.wp_pure]
    refine ⟨rfl, lits', rest', hr, hle, fun k => (hprint k).trans (printed_settle fun d hd => ?_), herr⟩
    rw [Option.mem_def] at hd
    rwa [hd] at hno
  · rw [not_isDigit_iff, not_not] at hyes
    cases rest' with
    | nil => exact absurd hyes (by decide)
    | cons d rest' =>
      rw [List.head?_cons, Option.getD_some] at hyes ⊢
      rw [Act.wp_pure]
      refine ⟨_, by simp, rfl, _, _, hr.push hyes.ne_percent, rfl,
        (Nat.le_succ _).trans hle, fun k => ?_, fun k => ?_⟩
      · rw [hprint, printed_digit hyes]
      · rw [herr, errSlots_digit hyes]

/-- **The way back** ends behind the `%` of the escape. -/
theorem wp_backToPercent (h : Reading fmt j i lits rest) (fuel : ℕ) :
    Act.wp (backToPercent fmt fuel (i + 1)) (fun r t => t = s ∧ r = j + 1)
      (fun f => f = .spin ∧ fuel ≤ fmt.bytes.length) s := by
  have hlen := h.length
  have hpos := h.pos
  refine Act.wp_loop (fun m r t => t = s ∧ ∃ l₁ l₂, lits = l₁ ++ l₂ ∧ r = j + 1 + l₁.length ∧ m = l₁.length)
    ?_ fuel lits.length _ _ ⟨rfl, lits, [], (List.append_nil _).symm, by rw [Nat.add_sub_cancel, hpos], rfl⟩
    fun hfuel => ⟨rfl, by omega⟩
  rintro m r t ⟨rfl, l₁, l₂, rfl, rfl, rfl⟩
  rw [List.length_append] at hpos
  rw [Act.wp_bind, Act.wp_require]
  refine ⟨fun _ => ?_, fun hno => by omega⟩
  have hdrop : fmt.bytes.drop (j + 1 + l₁.length - 1) = (ascii '%' :: (l₁ ++ (l₂ ++ rest))).drop l₁.length := by
    rw [show j + 1 + l₁.length - 1 = j + l₁.length by omega, ← List.drop_drop, h.split, List.append_assoc]
  rw [Act.wp_bind]
  refine Act.wp_mono (wp_readFmt (by omega) hdrop _) ?_ fun _ => id
  rintro d _ ⟨rfl, rfl⟩
  rcases List.eq_nil_or_concat' l₁ with rfl | ⟨u, x, rfl⟩
  · rw [Act.wp_ite]
    exact ⟨fun hno => absurd rfl hno, fun _ => ⟨rfl, rfl⟩⟩
  · have hx : x ≠ ascii '%' := fun hx => h.noPercent (by simp [hx])
    have hhead : ((ascii '%' :: (u ++ [x] ++ (l₂ ++ rest))).drop (u ++ [x]).length).head?.getD 0 = x := by
      rw [List.length_append, List.length_singleton, List.drop_succ_cons, List.append_assoc, List.drop_left]
      rfl
    rw [hhead, if_pos hx, Act.wp_pure]
    refine ⟨u.length, by simp, rfl, u, [x] ++ l₂, by simp, ?_, rfl⟩
    rw [List.length_append, List.length_singleton]
    omega

/-! ## `vprintfmt` -/

/-- **What `%e` does**: it prints the text of a number that is good, and reads outside `error_string` for any
other; `short` is when its fuel may not be enough. -/
def Reports (onError : ℤ → Call Unit) (errText : ℤ → List UInt8) (Good : ℤ → Prop) (short : Prop) : Prop :=
  ∀ err s, Act.wp (onError err) (fun _ t => Good err ∧ t = { s with out := s.out ++ errText err })
    (fun f => f = .errorString ∧ ¬ Good err ∨ f = .spin ∧ short) s

/-- What is left to do: `whole` is what is printed in all, and `ok` says that every number for a `%e` is
good. -/
structure Left (errText : ℤ → List UInt8) (va : VaList) (Good : ℤ → Prop) (whole : List UInt8) (ok : Prop)
    (place : Place) (inEscape : Bool) (rest : List UInt8) (s : Printing) : Prop where
  out : s.out ++ printed errText va place rest s.ap = whole
  good : (∀ k ∈ errSlots inEscape rest s.ap, Good (va.int k)) ↔ ok

section Run

variable {onError : ℤ → Call Unit} {Good : ℤ → Prop} {short ok : Prop} {whole : List UInt8}

/-- A step that prints nothing. -/
theorem Left.move {place place' : Place} {b b' : Bool} {rest' : List UInt8} {t : Printing}
    (h : Left errText va Good whole ok place b rest s) (hout : t.out = s.out)
    (hprint : printed errText va place rest s.ap = printed errText va place' rest' t.ap)
    (herr : errSlots b rest s.ap = errSlots b' rest' t.ap) :
    Left errText va Good whole ok place' b' rest' t := by
  refine ⟨?_, ?_⟩
  · rw [hout, ← hprint]
    exact h.out
  · rw [← herr]
    exact h.good

/-- A conversion that is not `%e`. -/
theorem Left.wp_convert {conversion : Switch} (i' : ℕ) (E : Fault → Prop)
    (hprint : printed errText va (.escape lits e none) (c :: cs) s.ap =
      convText va e s.ap conversion ++ printed errText va .text cs (s.ap + 1))
    (herr : errSlots true (c :: cs) s.ap = errSlots false cs (s.ap + 1))
    (h : Left errText va Good whole ok (.escape lits e none) true (c :: cs) s) :
    Act.wp (do
        let k ← vaArg
        putchs (convText va e k conversion)
        pure (.inr i') : Call ((Escape × ℕ) ⊕ ℕ))
      (fun r t => r = .inr i' ∧ Left errText va Good whole ok .text false cs t) E s := by
  simp only [vaArg, putchs, Act.wp_bind, Act.wp_get, Act.wp_set, Act.wp_modify, Act.wp_pure]
  refine ⟨trivial, ?_, ?_⟩
  · rw [← h.out, hprint, List.append_assoc]
  · rw [← herr]
    exact h.good

/-- An unknown escape is text, behind its `%`. -/
theorem Left.wp_unknown (hr : Reading fmt j i lits rest) (fuel : ℕ)
    (hprint : printed errText va (.escape lits e none) rest s.ap =
      ascii '%' :: (lits ++ printed errText va .text rest s.ap))
    (herr : errSlots true rest s.ap = errSlots false rest s.ap)
    (h : Left errText va Good whole ok (.escape lits e none) true rest s) :
    Act.wp (do
        putchs [ascii '%']
        let i ← backToPercent fmt fuel (i + 1)
        pure (.inr i) : Call ((Escape × ℕ) ⊕ ℕ))
      (fun r t => r = .inr (j + 1) ∧
        Left errText va Good whole ok .text false (fmt.bytes.drop (j + 1)) t)
      (fun f => f = .spin ∧ fuel ≤ fmt.bytes.length) s := by
  simp only [putchs, Act.wp_bind, Act.wp_modify]
  refine Act.wp_mono (wp_backToPercent hr fuel) ?_ fun _ => id
  rintro _ _ ⟨rfl, rfl⟩
  refine ⟨rfl, ?_, ?_⟩
  · rw [hr.text, printed_append hr.noPercent, ← h.out, hprint, List.append_assoc]
    rfl
  · rw [hr.text, errSlots_append hr.noPercent, ← herr]
    exact h.good

/-- **An escape** is printed, and leaves the cursor behind itself, or behind its `%`. -/
theorem wp_reswitch (honErr : Reports onError errText Good short) (hr : Reading fmt j i lits rest)
    (h : Left errText va Good whole ok (.escape lits .start none) true rest s) (fuel : ℕ) :
    Act.wp (reswitch onError fmt va fuel i)
      (fun r t => j < r ∧ r ≤ fmt.bytes.length ∧ Left errText va Good whole ok .text false (fmt.bytes.drop r) t)
      (fun f => f = .errorString ∧ ¬ ok ∨ f = .spin ∧ (short ∨ fuel ≤ fmt.bytes.length)) s := by
  refine Act.wp_loop (fun m b t => ∃ lits rest, Reading fmt j b.2 lits rest ∧ m = rest.length ∧
    Left errText va Good whole ok (.escape lits b.1 none) true rest t) ?_ fuel rest.length (Escape.start, i) s ?_
    fun hfuel => .inr ⟨rfl, .inr (by have := hr.length; omega)⟩
  rotate_left
  · exact ⟨lits, rest, hr, rfl, h⟩
  intro m b t hinv
  obtain ⟨e, i'⟩ := b
  obtain ⟨lits, rest, hr, rfl, h⟩ := hinv
  dsimp only at hr h ⊢
  have hlen := hr.length
  have hpos := hr.pos
  rw [Act.wp_bind]
  refine Act.wp_mono (wp_readFmt (by omega) hr.drop _) ?_ fun _ => id
  rintro d t ⟨rfl, rfl⟩
  have hunknown : ∀ f : Fault, f = .spin ∧ fuel ≤ fmt.bytes.length →
      f = .errorString ∧ ¬ ok ∨ f = .spin ∧ (short ∨ fuel ≤ fmt.bytes.length) :=
    fun f hf => .inr ⟨hf.1, .inr hf.2⟩
  obtain _ | ⟨c, rest⟩ := rest
  · -- the NUL is an unknown escape
    rw [show switch (([] : List UInt8).head?.getD 0) = .other from switch_nul]
    refine Act.wp_mono (h.wp_unknown hr fuel (by rw [printed, printed, List.append_nil]) rfl) ?_ hunknown
    rintro _ u ⟨rfl, hu⟩
    exact ⟨by omega, by omega, hu⟩
  rw [List.head?_cons, Option.getD_some]
  rw [List.length_cons] at hlen
  have hprint : ∀ k, printed errText va (.escape lits e none) (c :: rest) k = _ := fun k => by
    rw [printed, if_neg fun h => h.1 rfl]
  have herr : ∀ k, errSlots true (c :: rest) k = _ := fun k => by rw [errSlots]
  have hdrop : fmt.bytes.drop (i' + 1) = rest := by
    rw [← List.drop_drop, hr.drop]
    rfl
  have hstays : ∀ {e' : Escape} {u : Printing}, switch c ≠ .percent → u.out = t.out →
      printed errText va (.escape lits e none) (c :: rest) t.ap =
        printed errText va (.escape (lits ++ [c]) e' none) rest u.ap →
      errSlots true (c :: rest) t.ap = errSlots true rest u.ap →
      ∃ m < rest.length + 1, ∃ lits rest', Reading fmt j (i' + 1) lits rest' ∧ m = rest'.length ∧
        Left errText va Good whole ok (.escape lits e' none) true rest' u := fun hc hout hprint herr =>
    ⟨rest.length, Nat.lt_succ_self _, lits ++ [c], rest, hr.push (ne_percent_of_switch hc), rfl,
      h.move hout hprint herr⟩
  have hleaves : ∀ u, Left errText va Good whole ok .text false rest u → j < i' + 1 ∧
      i' + 1 ≤ fmt.bytes.length ∧ Left errText va Good whole ok .text false (fmt.bytes.drop (i' + 1)) u :=
    fun u hu => ⟨by omega, by omega, hdrop.symm ▸ hu⟩
  cases hsw : switch c
  all_goals simp only [hsw] at hprint herr hstays ⊢
  case flag | dot | alt | long => exact hstays Switch.noConfusion rfl (hprint _) (herr _)
  case star =>
    simp only [vaArg, Act.wp_bind, Act.wp_get, Act.wp_set, Act.wp_pure]
    exact hstays Switch.noConfusion rfl (hprint _) (herr _)
  case digit =>
    rw [Act.wp_bind]
    have hc := ne_percent_of_switch (c := c) (by simp [hsw])
    refine Act.wp_mono (wp_scanNumber errText va e (hr.push hc) fuel) ?_ hunknown
    rintro ⟨n, r⟩ u ⟨rfl, lits', rest', hr', hle, hprint', herr'⟩
    rw [Act.wp_pure]
    exact ⟨rest'.length, Nat.lt_succ_of_le hle, lits', rest', hr', rfl,
      h.move rfl ((hprint _).trans (hprint' _)) ((herr _).trans (herr' _))⟩
  case error =>
    simp only [vaArg, Act.wp_bind, Act.wp_get, Act.wp_set, Act.wp_pure]
    refine Act.wp_mono (honErr _ _) ?_ ?_
    · rintro _ _ ⟨hyes, rfl⟩
      refine hleaves _ ⟨?_, ?_⟩
      · rw [← h.out, hprint, List.append_assoc]
      · rw [← h.good, herr, List.forall_mem_cons]
        exact (and_iff_right hyes).symm
    · rintro f (⟨rfl, hno⟩ | ⟨rfl, hshort⟩)
      · exact .inl ⟨rfl, fun hok => hno (h.good.mpr hok _ (herr _ ▸ List.mem_cons_self))⟩
      · exact .inr ⟨rfl, .inl hshort⟩
  case percent =>
    simp only [putchs, Act.wp_bind, Act.wp_modify, Act.wp_pure]
    refine hleaves _ ⟨?_, ?_⟩
    · rw [← h.out, hprint, List.append_assoc]
      rfl
    · rw [← herr]
      exact h.good
  case other =>
    have hc := ne_percent_of_switch (c := c) (by simp [hsw])
    refine Act.wp_mono (h.wp_unknown hr fuel ?_ ?_) ?_ hunknown
    · rw [hprint, printed, if_pos hc]
    · rw [herr, errSlots, if_pos hc]
    · rintro _ u ⟨rfl, hu⟩
      exact ⟨by omega, by omega, hu⟩
  case char | string | decimal | unsigned | octal | pointer | hex =>
    refine Act.wp_mono (h.wp_convert (i' + 1) _ (hprint _) (herr _)) ?_ fun _ => id
    rintro _ u ⟨rfl, hu⟩
    exact hleaves u hu

/-- **The format is printed**, if every number for a `%e` is good. -/
theorem wp_vprintfmtWith (honErr : Reports onError errText Good short) (fmt : CString) (va : VaList)
    (fuel : ℕ) (s : Printing) :
    Act.wp (vprintfmtWith onError fmt va fuel)
      (fun _ t => (∀ k ∈ errSlots false fmt.bytes s.ap, Good (va.int k)) ∧
        t.out = s.out ++ printed errText va .text fmt.bytes s.ap)
      (fun f => f = .errorString ∧ ¬ (∀ k ∈ errSlots false fmt.bytes s.ap, Good (va.int k)) ∨
        f = .spin ∧ (short ∨ fuel ≤ fmt.bytes.length)) s := by
  refine Act.wp_loop (fun m i t => i ≤ fmt.bytes.length ∧ m = fmt.bytes.length - i ∧
    Left errText va Good (s.out ++ printed errText va .text fmt.bytes s.ap)
      (∀ k ∈ errSlots false fmt.bytes s.ap, Good (va.int k)) .text false (fmt.bytes.drop i) t) ?_ fuel
    fmt.bytes.length 0 s ?_ fun hfuel => .inr ⟨rfl, .inr hfuel⟩
  rotate_left
  · exact ⟨Nat.zero_le _, rfl, rfl, Iff.rfl⟩
  rintro m i t ⟨hi, rfl, h⟩
  rw [Act.wp_bind]
  refine Act.wp_mono (wp_readFmt hi rfl _) ?_ fun _ => id
  rintro c t ⟨rfl, hc⟩
  cases hd : fmt.bytes.drop i with
  | nil =>
    -- the NUL that ends the format
    rw [hd] at hc h
    rw [List.head?_nil, Option.getD_none] at hc
    subst hc
    rw [if_pos (by decide), if_pos rfl, Act.wp_pure]
    refine ⟨h.good.mp (List.forall_mem_nil _), ?_⟩
    rw [← h.out, printed, List.append_nil]
  | cons d rest =>
    rw [hd, List.head?_cons, Option.getD_some] at hc
    subst hc
    rw [hd] at h
    have hlt : i < fmt.bytes.length := by
      by_contra hge
      rw [List.drop_eq_nil_of_le (not_lt.mp hge)] at hd
      exact List.cons_ne_nil c rest hd.symm
    have hdrop : fmt.bytes.drop (i + 1) = rest := by
      rw [← List.drop_drop, hd]
      rfl
    have hmem : c ∈ fmt.bytes := List.mem_of_mem_drop (hd.symm ▸ List.mem_cons_self)
    have hnul : c ≠ 0 := fun hc => fmt.noNul (hc ▸ hmem)
    rw [Act.wp_ite]
    refine ⟨fun hc => ?_, fun hc => ?_⟩
    · rw [if_neg hnul]
      simp only [putchs, Act.wp_bind, Act.wp_modify, Act.wp_pure]
      refine ⟨fmt.bytes.length - (i + 1), by omega, hlt, rfl, ?_, ?_⟩
      · rw [hdrop, ← h.out, printed, if_pos hc, List.append_assoc]
        rfl
      · rw [hdrop, ← h.good, errSlots, if_pos hc]
    · have hstart : Reading fmt i (i + 1) [] rest := ⟨?_, rfl, List.not_mem_nil⟩
      · rw [Act.wp_bind]
        refine Act.wp_mono (wp_reswitch honErr hstart (h.move rfl ?_ ?_) fuel) ?_ fun _ => id
        · rw [printed, if_neg hc]
        · rw [errSlots, if_neg hc]
        rintro r u ⟨hr, hle, hu⟩
        rw [Act.wp_pure]
        exact ⟨fmt.bytes.length - r, by omega, hle, rfl, hu⟩
      · rw [hd, not_not.mp hc]
        rfl

end Run

end UCore.Printf
