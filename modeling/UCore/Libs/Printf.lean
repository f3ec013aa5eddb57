import UCore.Libs.Defs
import UCore.Machinery.Act

/-!
# Libs/Printf — formatted printing

`libs/printfmt.c`.  The format is read through a cursor, and every read is checked against its two ends:

    % flags width . precision l conversion        fmt[0] … fmt[len - 1] NUL

What `vprintfmt` hands to `putch` is kept in `out`, in order; `putch` never answers, and both the
functions that are passed for it keep the low byte.  An `int` that overflows wraps.
-/

namespace UCore.Printf

/-- A character, as it is in memory. -/
abbrev ascii (c : Char) : UInt8 := c.toUInt8

/-- What can go wrong: a read outside the format or `error_string`, a store outside the buffer, or a loop
that does not end. -/
inductive Fault where
  | fmt
  | errorString
  | buffer
  | spin
  deriving DecidableEq, Repr

/-- A string, without the NUL that ends it. -/
structure CString where
  bytes : List UInt8
  noNul : 0 ∉ bytes

/-- The arguments, each a slot of eight bytes; a `char *` points to a string, or is `NULL`. -/
structure VaList where
  word : ℕ → ℕ
  string : ℕ → Option (List UInt8)

/-- The slot `ap` points to, and the characters put so far. -/
structure Printing where
  ap : ℕ
  out : List UInt8

/-- A call of the printing functions. -/
abbrev Call (α : Type) := Act Printing Fault α

/-- `putch`, for several characters. -/
def putchs (cs : List UInt8) : Call Unit := modify fun s => { s with out := s.out ++ cs }

/-- `va_arg`: the number of the slot. -/
def vaArg : Call ℕ := do
  let s ← get
  set { s with ap := s.ap + 1 }
  return s.ap

/-- A slot as an `int`. -/
def VaList.int (va : VaList) (k : ℕ) : ℤ := toS32 (va.word k)

/-- `getuint`. -/
def getuint (va : VaList) (k lflag : ℕ) : ℕ :=
  if lflag ≥ 2 then u64 (va.word k) else if lflag ≠ 0 then u64 (va.word k) else u32 (va.word k)

/-- `getint`. -/
def getint (va : VaList) (k lflag : ℕ) : ℤ :=
  if lflag ≥ 2 then toS64 (va.word k) else if lflag ≠ 0 then toS64 (va.word k) else va.int k

/-! ## Numbers -/

/-- The digits of `printnum`. -/
def digit (mod : ℕ) : UInt8 := ascii ("0123456789abcdef".toList.getD mod '0')

/-- `printnum`, with the characters in order; `base` is 8, 10 or 16. -/
def printnum (num base : ℕ) (width : ℤ) (padc : UInt8) : List UInt8 :=
  if _h : 2 ≤ base ∧ num ≥ base then
    printnum (num / base) base (toS32 (width - 1)) padc ++ [digit (num % base)]
  else
    List.replicate (toS32 (width - 1)).toNat padc ++ [digit (num % base)]
termination_by num
decreasing_by exact Nat.div_lt_self (by omega) (by omega)

/-! ## Strings -/

/-- `strnlen`. -/
def strnlen (p : List UInt8) (len : ℕ) : ℕ := min (p.takeWhile (· ≠ 0)).length len

/-- The loop of `%s` over the string, and the padding after it. -/
def strLoop (altflag : Bool) : List UInt8 → ℤ → ℤ → List UInt8
  | [], _, width => List.replicate width.toNat (ascii ' ')
  | ch :: p, precision, width =>
    if ch ≠ 0 ∧ (precision < 0 ∨ precision - 1 ≥ 0) then
      (if altflag ∧ (ch < ascii ' ' ∨ ch > ascii '~') then ascii '?' else ch) ::
        strLoop altflag p (if precision < 0 then precision else precision - 1) (toS32 (width - 1))
    else
      List.replicate width.toNat (ascii ' ')

/-- The text of `%s`. -/
def strText (p : List UInt8) (padc : UInt8) (width precision : ℤ) (altflag : Bool) : List UInt8 :=
  if width > 0 ∧ padc ≠ ascii '-' then
    let width := toS32 (width - strnlen p (toU64 precision))
    List.replicate width.toNat padc ++ strLoop altflag p precision (min width 0)
  else
    strLoop altflag p precision width

/-! ## The escapes -/

/-- What an escape has set so far. -/
structure Escape where
  padc : UInt8
  width : ℤ
  precision : ℤ
  lflag : ℕ
  altflag : Bool

/-- The start of an escape. -/
def Escape.start : Escape := ⟨ascii ' ', -1, -1, 0, false⟩

/-- `process_precision`. -/
def Escape.processPrecision (e : Escape) (precision : ℤ) : Escape :=
  if e.width < 0 then { e with width := precision, precision := -1 } else { e with precision := precision }

/-- The cases of the switch. -/
inductive Switch where
  | flag
  | digit
  | star
  | dot
  | alt
  | long
  | char
  | error
  | string
  | decimal
  | unsigned
  | octal
  | pointer
  | hex
  | percent
  | other
  deriving DecidableEq, Repr

/-- The case of a character. -/
def switch (ch : UInt8) : Switch :=
  if ch = ascii '-' ∨ ch = ascii '0' then .flag
  else if ascii '1' ≤ ch ∧ ch ≤ ascii '9' then .digit
  else if ch = ascii '*' then .star
  else if ch = ascii '.' then .dot
  else if ch = ascii '#' then .alt
  else if ch = ascii 'l' then .long
  else if ch = ascii 'c' then .char
  else if ch = ascii 'e' then .error
  else if ch = ascii 's' then .string
  else if ch = ascii 'd' then .decimal
  else if ch = ascii 'u' then .unsigned
  else if ch = ascii 'o' then .octal
  else if ch = ascii 'p' then .pointer
  else if ch = ascii 'x' then .hex
  else if ch = ascii '%' then .percent
  else .other

/-- The text of a conversion but `%e`. -/
def convText (va : VaList) (e : Escape) (k : ℕ) : Switch → List UInt8
  | .char => [UInt8.ofNat (va.word k)]
  | .string => strText ((va.string k).getD ("(null)".toList.map ascii)) e.padc e.width e.precision e.altflag
  | .decimal =>
    let num := getint va k e.lflag
    if num < 0 then ascii '-' :: printnum (toU64 (-num)) 10 e.width e.padc
    else printnum (toU64 num) 10 e.width e.padc
  | .unsigned => printnum (getuint va k e.lflag) 10 e.width e.padc
  | .octal => printnum (getuint va k e.lflag) 8 e.width e.padc
  | .pointer => ascii '0' :: ascii 'x' :: printnum (u64 (va.word k)) 16 e.width e.padc
  | .hex => printnum (getuint va k e.lflag) 16 e.width e.padc
  | _ => []

/-! ## `vprintfmt` -/

/-- A read of the format. -/
def readFmt (fmt : CString) (i : ℕ) : Call UInt8 := do
  Act.require .fmt (i ≤ fmt.bytes.length)
  return fmt.bytes.getD i 0

/-- One digit more. -/
def nextDigit (precision : ℤ) (ch : UInt8) : ℤ := toS32 (precision * 10 + ch.toNat - 48)

/-- The width field, from its first digit `ch` on: the number, and where it ends. -/
def scanNumber (fmt : CString) (fuel : ℕ) (ch : UInt8) (i : ℕ) : Call (ℤ × ℕ) :=
  Act.loop .spin (fun b => do
    let (precision, ch, i) := b
    let precision := nextDigit precision ch
    let ch ← readFmt fmt i
    if ch < ascii '0' ∨ ch > ascii '9' then
      pure (.inr (precision, i))
    else
      pure (.inl (precision, ch, i + 1))) fuel ((0 : ℤ), ch, i)

/-- The way back over an unknown escape. -/
def backToPercent (fmt : CString) (fuel i : ℕ) : Call ℕ :=
  Act.loop .spin (fun i => do
    Act.require .fmt (0 < i)
    let ch ← readFmt fmt (i - 1)
    if ch ≠ ascii '%' then
      pure (.inl (i - 1))
    else
      pure (.inr i)) fuel (i - 1)

/-- An escape, from behind its `%`: the result is where the text goes on. -/
def reswitch (onError : ℤ → Call Unit) (fmt : CString) (va : VaList) (fuel i : ℕ) : Call ℕ :=
  Act.loop .spin (fun b => do
    let (e, i) := b
    let ch ← readFmt fmt i
    let i := i + 1
    match switch ch with
    | .flag => pure (.inl ({ e with padc := ch }, i))
    | .digit => do
      let (precision, i) ← scanNumber fmt fuel ch i
      pure (.inl (e.processPrecision precision, i))
    | .star => do
      let k ← vaArg
      pure (.inl (e.processPrecision (va.int k), i))
    | .dot => pure (.inl ({ e with width := if e.width < 0 then 0 else e.width }, i))
    | .alt => pure (.inl ({ e with altflag := true }, i))
    | .long => pure (.inl ({ e with lflag := e.lflag + 1 }, i))
    | .error => do
      let k ← vaArg
      onError (va.int k)
      pure (.inr i)
    | .percent => do
      putchs [ch]
      pure (.inr i)
    | .other => do
      putchs [ascii '%']
      let i ← backToPercent fmt fuel i
      pure (.inr i)
    | conversion => do
      let k ← vaArg
      putchs (convText va e k conversion)
      pure (.inr i)) fuel (Escape.start, i)

/-- `vprintfmt`, with what `%e` does as a parameter. -/
def vprintfmtWith (onError : ℤ → Call Unit) (fmt : CString) (va : VaList) (fuel : ℕ) : Call Unit :=
  Act.loop .spin (fun i => do
    let ch ← readFmt fmt i
    if ch ≠ ascii '%' then
      if ch = 0 then
        pure (.inr ())
      else
        putchs [ch]
        pure (.inl (i + 1))
    else
      let i ← reswitch onError fmt va fuel (i + 1)
      pure (.inl i)) fuel 0

/-- `printfmt`, with the arguments in a list of its own; no format of the calls in this file has a `%e`. -/
def printfmt (fmt : CString) (va : VaList) (fuel : ℕ) : Call Unit := do
  let s ← get
  set { s with ap := 0 }
  vprintfmtWith (fun _ => throw .errorString) fmt va fuel
  modify fun t => { t with ap := s.ap }

/-- `MAXERROR`. -/
abbrev MAXERROR : ℤ := 24

/-- `error_string`. -/
def errorString : List (Option String) :=
  [none, some "unspecified error", some "bad process", some "invalid parameter", some "out of memory",
    some "out of processes", some "segmentation fault", none, some "invalid elf file",
    some "process is killed", some "panic failure", none, none, some "no such device",
    some "device not available", some "device/file is busy", some "no such file or directory",
    some "is a directory", some "not a directory", some "cross device link", some "unimplemented feature",
    some "illegal seek", some "too many files are open", some "file or directory already exists",
    some "directory is not empty"]

/-- `"error %d"`. -/
def errorFmt : CString := ⟨"error %d".toList.map ascii, by decide⟩

/-- `"%s"`. -/
def stringFmt : CString := ⟨"%s".toList.map ascii, by decide⟩

/-- The arguments of `printfmt` for the number `err`. -/
def intArg (err : ℤ) : VaList := ⟨fun _ => toU64 err, fun _ => none⟩

/-- …and for the string `p`. -/
def stringArg (p : String) : VaList := ⟨fun _ => 0, fun _ => some (p.toList.map ascii)⟩

/-- `%e`, with the read of `error_string` checked. -/
def printError (fuel : ℕ) (err : ℤ) : Call Unit := do
  let err := if err < 0 then toS32 (-err) else err
  if err > MAXERROR then
    printfmt errorFmt (intArg err) fuel
  else
    Act.require .errorString (0 ≤ err)
    match errorString.getD err.toNat none with
    | none => printfmt errorFmt (intArg err) fuel
    | some p => printfmt stringFmt (stringArg p) fuel

/-- `vprintfmt`. -/
def vprintfmt (fmt : CString) (va : VaList) (fuel : ℕ) : Call Unit :=
  vprintfmtWith (printError fuel) fmt va fuel

/-! ## `vsnprintf` -/

/-- `struct sprintbuf`, with its pointers as offsets from `str`, and the memory at `str`. -/
structure SprintBuf where
  mem : ℕ → UInt8
  buf : ℕ
  ebuf : ℤ
  cnt : ℤ

/-- `sprintputch`, on a buffer of `size` bytes. -/
def sprintputch (size : ℕ) (b : SprintBuf) (ch : UInt8) : Except Fault SprintBuf := do
  let b := { b with cnt := toS32 (b.cnt + 1) }
  if (b.buf : ℤ) < b.ebuf then
    if b.buf < size then
      return { b with mem := Function.update b.mem b.buf ch, buf := b.buf + 1 }
    else
      throw .buffer
  else
    return b

/-- `E_INVAL`. -/
abbrev E_INVAL : ℤ := 3

/-- `vsnprintf`: the result, and the memory at `str`. -/
def vsnprintf (str : Option (ℕ → UInt8)) (size : ℕ) (fmt : CString) (va : VaList) (fuel : ℕ) :
    Except Fault (ℤ × Option (ℕ → UInt8)) :=
  match str with
  | none => .ok (-E_INVAL, none)
  | some mem => do
    let b : SprintBuf := ⟨mem, 0, (size : ℤ) - 1, 0⟩
    if (b.buf : ℤ) > b.ebuf then
      return (-E_INVAL, some mem)
    else
      let (_, s) ← vprintfmt fmt va fuel ⟨0, []⟩
      let b ← s.out.foldlM (sprintputch size) b
      if b.buf < size then
        return (b.cnt, some (Function.update b.mem b.buf 0))
      else
        throw .buffer

end UCore.Printf
