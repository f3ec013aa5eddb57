import UCore.Machinery.Bytes
import UCore.Mm.UserMem

/-!
# Mm/CopyString — copying a string in from the user

`copy_string` of `kern/mm/vmm.c`, with the `strnlen` and `memcpy` of `libs/string.c`.  The source is
taken a page at a time, and each piece is checked before it is read:

    src ──part──▸ page end ──PGSIZE──▸ page end ── … ──▸ the `NUL`, or `maxn` bytes
-/

namespace UCore.Vmm

/-- What a copy does: a check that passes, a byte that is read, a byte that is written. -/
inductive Access where
  | passed (addr len : ℕ)
  | load (addr : ℕ)
  | store (addr : ℕ)
  deriving DecidableEq, Repr

/-- The memory that the kernel sees, with the address space it checks against; `trace` is what was
done so far, the latest first. -/
structure Space where
  mm : Option Mm
  bytes : ℕ → UInt8
  trace : List Access

/-- A call that copies. -/
abbrev Copy (α : Type) := Act Space Stop α

/-- A byte is read… -/
def load (addr : ℕ) : Copy UInt8 := do
  modify fun s => { s with trace := .load addr :: s.trace }
  return (← get).bytes addr

/-- …and a byte is written. -/
def store (addr : ℕ) (b : UInt8) : Copy Unit :=
  modify fun s => { s with
    bytes := Function.update s.bytes addr b
    trace := .store addr :: s.trace }

/-- `strnlen`. -/
def strnlen (s : ℕ) : ℕ → Copy ℕ
  | 0 => return 0
  | len + 1 => do
    if (← load s) ≠ 0 then
      return (← strnlen (u64 (s + 1)) len) + 1
    else
      return 0

/-- `memcpy`. -/
def memcpy (dst src : ℕ) : ℕ → Copy Unit
  | 0 => return ()
  | n + 1 => do
    store dst (← load src)
    memcpy (u64 (dst + 1)) (u64 (src + 1)) n

/-- `user_mem_check`, for reading; a check that passes is put down. -/
def checkRead (fuel addr len : ℕ) : Copy Bool := do
  let passed ← Act.zoom Space.mm (fun mm s => { s with mm := mm }) (userMemCheck fuel addr len false)
  if passed = true then
    modify fun s => { s with trace := .passed addr len :: s.trace }
  return passed

/-- The variables of the loop of `copy_string`. -/
structure Cursor where
  dst : ℕ
  src : ℕ
  maxn : ℕ
  part : ℕ

/-- What is left of the page of an address. -/
def pageRest (src : ℕ) : ℕ := u64 (roundDown (u64 (src + PGSIZE)) PGSIZE + 2 ^ 64 - src)

/-- One turn of `copy_string`. -/
def copyPart (fuel : ℕ) (c : Cursor) : Copy (Cursor ⊕ Bool) := do
  let part := if c.maxn < c.part then c.maxn else c.part
  if (← checkRead fuel c.src part) = true then
    let alen ← strnlen c.src part
    if alen < part then
      memcpy c.dst c.src (alen + 1)
      return .inr true
    else if part = c.maxn then
      return .inr false
    else
      memcpy c.dst c.src part
      return .inl ⟨u64 (c.dst + part), u64 (c.src + part), c.maxn - part, PGSIZE⟩
  else
    return .inr false

/-- `copy_string`. -/
def copyString (fuel dst src maxn : ℕ) : Copy Bool :=
  Act.loop .spin (copyPart fuel) fuel ⟨dst, src, maxn, pageRest src⟩

/-! ## What is read and written -/

section Trace

variable {t t' : List Access} {a addr len dst maxn : ℕ}

/-- A check that passed was for a range with this address. -/
def Checked (t : List Access) (a : ℕ) : Prop :=
  ∃ addr len, .passed addr len ∈ t ∧ addr ≤ a ∧ a < addr + len

theorem Checked.mono (h : Checked t a) (hsub : t ⊆ t') : Checked t' a := by
  obtain ⟨addr, len, hmem, ha⟩ := h
  exact ⟨addr, len, hsub hmem, ha⟩

/-- **Every byte that is read was checked before.** -/
def Guarded : List Access → Prop
  | [] => True
  | .load a :: t => Checked t a ∧ Guarded t
  | .passed _ _ :: t => Guarded t
  | .store _ :: t => Guarded t

/-- The bytes of a buffer, which may wrap round. -/
def InBuffer (dst maxn a : ℕ) : Prop := ∃ i < maxn, a = u64 (dst + i)

/-- Only checked bytes are read, and only bytes of the buffer are written. -/
structure Careful (dst maxn : ℕ) (t : List Access) : Prop where
  guarded : Guarded t
  stores : ∀ a, .store a ∈ t → InBuffer dst maxn a

theorem Careful.nil : Careful dst maxn [] := ⟨trivial, fun _ h => (nomatch h)⟩

theorem Careful.passed (h : Careful dst maxn t) : Careful dst maxn (.passed addr len :: t) :=
  ⟨h.guarded, fun a ha => h.stores a (by simpa using ha)⟩

theorem Careful.load (h : Careful dst maxn t) (ha : Checked t a) : Careful dst maxn (.load a :: t) :=
  ⟨⟨ha, h.guarded⟩, fun b hb => h.stores b (by simpa using hb)⟩

theorem Careful.store (h : Careful dst maxn t) (ha : InBuffer dst maxn a) :
    Careful dst maxn (.store a :: t) := by
  refine ⟨h.guarded, fun b hb => ?_⟩
  rcases List.mem_cons.mp hb with heq | hb
  · obtain rfl : b = a := Access.store.inj heq
    exact ha
  · exact h.stores b hb

end Trace

section Copy

variable {s s' : Space} {fuel dst src maxn len n k a : ℕ}

/-- What a call that copies leaves as it was: the address space, and the checks that passed. -/
structure Kept (dst maxn : ℕ) (s s' : Space) : Prop where
  mm : s'.mm = s.mm
  trace : s.trace ⊆ s'.trace
  careful : Careful dst maxn s'.trace

theorem Kept.trans {s'' : Space} (h : Kept dst maxn s s') (h' : Kept dst maxn s' s'') :
    Kept dst maxn s s'' := ⟨h'.mm.trans h.mm, List.Subset.trans h.trace h'.trace, h'.careful⟩

theorem Kept.refl (h : Careful dst maxn s.trace) : Kept dst maxn s s := ⟨rfl, fun _ h => h, h⟩

/-- **`strnlen`** of bytes that were checked. -/
theorem wp_strnlen (src : ℕ) (hc : Careful dst maxn s.trace) (hsrc : src + len ≤ 2 ^ 64)
    (hchecked : ∀ i < len, Checked s.trace (src + i)) :
    Act.wp (strnlen src len) (fun alen s' => Kept dst maxn s s' ∧ s'.bytes = s.bytes ∧ alen ≤ len ∧
      (∀ i < alen, s.bytes (src + i) ≠ 0) ∧ (alen < len → s.bytes (src + alen) = 0))
      (fun _ => False) s := by
  induction len generalizing src s with
  | zero => exact ⟨.refl hc, rfl, le_rfl, fun _ h => absurd h (Nat.not_lt_zero _), fun h => by omega⟩
  | succ len ih =>
    have hc' : Careful dst maxn (.load src :: s.trace) := hc.load (hchecked 0 (Nat.succ_pos _))
    simp only [strnlen, load, Act.wp_bind, Act.wp_modify, Act.wp_get, Act.wp_pure, Act.wp_ite]
    refine ⟨fun hne => ?_, fun hzero => ⟨⟨rfl, List.subset_cons_self .., hc'⟩, trivial, Nat.zero_le _,
      fun _ h => absurd h (Nat.not_lt_zero _), fun _ => not_not.mp hzero⟩⟩
    cases len with
    | zero =>
      refine ⟨⟨rfl, List.subset_cons_self .., hc'⟩, rfl, le_rfl, fun i hi => ?_, fun h => by omega⟩
      obtain rfl : i = 0 := by omega
      exact hne
    | succ len =>
      rw [u64_of_lt (by omega : src + 1 < 2 ^ 64)]
      refine Act.wp_mono (ih (src + 1) (s := { s with trace := .load src :: s.trace }) hc'
        (by omega) fun i hi => ?_) (fun alen s' hpost => ?_) fun _ => id
      · have := hchecked (i + 1) (by omega)
        rw [show src + (i + 1) = src + 1 + i by omega] at this
        exact this.mono (List.subset_cons_self ..)
      · obtain ⟨hkept, hbytes, hle, hno, hnul⟩ := hpost
        refine ⟨⟨hkept.mm, fun x hx => hkept.trace (List.mem_cons_of_mem _ hx), hkept.careful⟩, hbytes,
          by omega, fun i hi => ?_, fun hlt => ?_⟩
        · cases i with
          | zero => exact hne
          | succ i =>
            rw [show src + (i + 1) = src + 1 + i by omega]
            exact hno i (by omega)
        · rw [show src + (alen + 1) = src + 1 + alen by omega]
          exact hnul (by omega)

theorem u64_add (a b : ℕ) : u64 (u64 a + b) = u64 (a + b) := by
  unfold u64
  omega

/-- Different places in a buffer are different addresses. -/
theorem u64_ne {i j : ℕ} (hi : i < 2 ^ 64) (hj : j < 2 ^ 64) (hij : i ≠ j) :
    u64 (dst + i) ≠ u64 (dst + j) := by
  unfold u64
  omega

/-- **`memcpy`** of bytes that were checked, to a place in the buffer; where the bytes that are read and
those that are written are apart, it is a copy. -/
theorem wp_memcpy (src : ℕ) (hc : Careful dst maxn s.trace) (hsrc : src + n < 2 ^ 64) (hn : n < 2 ^ 64)
    (hchecked : ∀ i < n, Checked s.trace (src + i)) (hbuf : k + n ≤ maxn) :
    Act.wp (memcpy (u64 (dst + k)) src n) (fun _ s' => Kept dst maxn s s' ∧
      ((∀ i < n, ∀ j < n, u64 (dst + k + i) ≠ src + j) → Bytes.Written s.bytes s'.bytes
        (fun i => u64 (dst + k + i)) (fun i => s.bytes (src + i)) n)) (fun _ => False) s := by
  induction n generalizing src s k with
  | zero => exact ⟨.refl hc, fun _ => .refl⟩
  | succ n ih =>
    have hc' : Careful dst maxn (.store (u64 (dst + k)) :: .load src :: s.trace) :=
      (hc.load (hchecked 0 (Nat.succ_pos _))).store ⟨k, by omega, rfl⟩
    have hsub : s.trace ⊆ .store (u64 (dst + k)) :: .load src :: s.trace := fun x hx =>
      List.mem_cons_of_mem _ (List.mem_cons_of_mem _ hx)
    simp only [memcpy, load, store, Act.wp_bind, Act.wp_modify, Act.wp_get, Act.wp_pure, u64_add]
    rw [u64_of_lt (by omega : src + 1 < 2 ^ 64), show dst + k + 1 = dst + (k + 1) by omega]
    refine Act.wp_mono (ih (src + 1) (k := k + 1) hc' (by omega) (by omega) (fun i hi => ?_)
      (by omega)) (fun _ s' hpost => ?_) fun _ => id
    · have := hchecked (i + 1) (by omega)
      rw [show src + (i + 1) = src + 1 + i by omega] at this
      exact this.mono hsub
    · obtain ⟨hkept, hwritten⟩ := hpost
      refine ⟨⟨hkept.mm, List.Subset.trans hsub hkept.trace, hkept.careful⟩, fun hapart => .cons (fun i hi => ?_) ?_⟩
      · exact u64_ne (i := i + 1) (j := 0) (by omega) (by omega) (by omega)
      · have hw := hwritten fun i hi j hj => by
          have := hapart (i + 1) (by omega) (j + 1) (by omega)
          rwa [show dst + k + (i + 1) = dst + (k + 1) + i by omega,
            show src + (j + 1) = src + 1 + j by omega] at this
        have hplace : (fun i => u64 (dst + k + (i + 1))) = fun i => u64 (dst + (k + 1) + i) :=
          funext fun i => by rw [show dst + k + (i + 1) = dst + (k + 1) + i by omega]
        rw [hplace]
        refine hw.congr fun i hi => ?_
        have hne := (hapart 0 (Nat.succ_pos n) (i + 1) (by omega)).symm
        rw [show src + (i + 1) = src + 1 + i by omega] at hne ⊢
        exact Function.update_of_ne hne ..

/-! ## The chunks of the source -/

/-- The check of a range, on the areas of the address space, if there is one. -/
def Passes (areas : Option (List Vma)) (addr len : ℕ) : Prop :=
  match areas with
  | some list => Accessible list addr len false
  | none => KernAccess addr (u64 (addr + len))

/-- The areas of the address space of a memory. -/
def Space.areas (s : Space) : Option (List Vma) := s.mm.map Mm.mmapList

/-- Its address space is one, if it has one. -/
def Space.Valid (s : Space) : Prop := ∀ mm, s.mm = some mm → mm.Valid

/-- The chunk of a byte of the source begins at the source, or at the page of the byte… -/
def chunkStart (src i : ℕ) : ℕ := max src (roundDown (src + i) PGSIZE)

/-- …and ends with the page, or with the buffer. -/
def chunkEnd (src maxn i : ℕ) : ℕ := min (roundDown (src + i) PGSIZE + PGSIZE) (src + maxn)

/-- The chunk of a byte of the source passes the check. -/
def ChunkPasses (s : Space) (src maxn i : ℕ) : Prop :=
  Passes s.areas (chunkStart src i) (chunkEnd src maxn i - chunkStart src i)

/-- **A string that can be copied**: its `NUL` is the `j`th byte, within the buffer, and every chunk up
to the one with the `NUL` passes. -/
structure StringAt (s : Space) (src maxn j : ℕ) : Prop where
  fits : j < maxn
  nul : s.bytes (src + j) = 0
  first : ∀ i < j, s.bytes (src + i) ≠ 0
  passes : ∀ i ≤ j, ChunkPasses s src maxn i

/-- The buffer holds no byte of the source that may be read. -/
def Apart (s : Space) (dst src maxn : ℕ) : Prop :=
  ∀ i < maxn, ∀ j < maxn, Passes s.areas (src + j) 1 → u64 (dst + i) ≠ src + j

/-- A range that passes has a byte, and does not wrap round. -/
theorem Passes.bounds {areas : Option (List Vma)} (h : Passes areas a len) (ha : a < 2 ^ 64)
    (hlen : len < 2 ^ 64) : 0 < len ∧ a + len < 2 ^ 64 := by
  cases areas with
  | some list =>
    have htop : a + len ≤ 0x80000000 := Accessible.top h
    exact ⟨Accessible.nonempty h, by omega⟩
  | none =>
    obtain ⟨hbase, hlt, htop⟩ := (show KernAccess a (u64 (a + len)) from h)
    have hbase : 0xFFFFFFFFC0200000 ≤ a := hbase
    have htop : u64 (a + len) ≤ 0xFFFFFFFFC0200000 + 0x7E00000 := htop
    unfold u64 at hlt htop
    omega

/-- Each byte of a range that passes may be read. -/
theorem Passes.byte {areas : Option (List Vma)} (h : Passes areas a len) (ha : a < 2 ^ 64)
    (hlen : len < 2 ^ 64) {i : ℕ} (hi : i < len) : Passes areas (a + i) 1 := by
  have hbounds := h.bounds ha hlen
  cases areas with
  | some list =>
    have h : Accessible list a len false := h
    have hbase := h.base
    have htop := h.top
    refine ⟨Nat.one_pos, by omega, by omega, ⟨fun b hb hb' => ?_, fun hno => (nomatch hno)⟩⟩
    exact h.covered.permits b (by omega) (by omega)
  | none =>
    obtain ⟨hbase, hlt, htop⟩ := (show KernAccess a (u64 (a + len)) from h)
    rw [u64_of_lt hbounds.2] at htop
    refine ⟨by omega, ?_, ?_⟩ <;> rw [u64_of_lt (by omega)] <;> omega

theorem pageRest_eq (hsrc : src < 2 ^ 64) : pageRest src = PGSIZE - src % PGSIZE := by
  unfold pageRest roundDown u64 PGSIZE
  omega

/-- **The chunk that the loop has come to**, for each of its bytes. -/
theorem chunk_eq {i : ℕ} (hk : k = 0 ∨ PGSIZE ∣ src + k) (hmaxn : k ≤ maxn)
    (hi : i < PGSIZE - (src + k) % PGSIZE) : chunkStart src (k + i) = src + k ∧
      chunkEnd src maxn (k + i) =
        src + k + (if maxn - k < PGSIZE - (src + k) % PGSIZE then maxn - k
          else PGSIZE - (src + k) % PGSIZE) := by
  have hround : roundDown (src + (k + i)) PGSIZE = src + k - (src + k) % PGSIZE := by
    unfold roundDown PGSIZE at *
    omega
  rw [chunkStart, chunkEnd, hround]
  unfold PGSIZE at *
  constructor
  · rcases hk with rfl | hk
    · exact max_eq_left (by omega)
    · rw [Nat.mod_eq_zero_of_dvd hk]
      exact max_eq_right (by omega)
  · have := Nat.mod_lt (src + k) (show 0 < 4096 by norm_num)
    have := Nat.mod_le (src + k) 4096
    split <;> omega

/-! ## The loop -/

/-- How far the areas make a check go. -/
def Space.size (s : Space) : ℕ := (s.areas.getD []).length

/-- **`user_mem_check` in a copy**: it decides whether the range passes, and touches nothing. -/
theorem wp_checkRead (hvalid : s.Valid) (hsrc : src < 2 ^ 64) (hlen : len < 2 ^ 64)
    (hfuel : s.size < fuel) (hc : Careful dst maxn s.trace) :
    Act.wp (checkRead fuel src len) (fun r s' => (r = true ↔ Passes s.areas src len) ∧ s'.Valid ∧
      s'.areas = s.areas ∧ s'.bytes = s.bytes ∧ Careful dst maxn s'.trace ∧
        (r = true → Access.passed src len ∈ s'.trace)) (fun _ => False) s := by
  have hcheck : Act.wp (userMemCheck fuel src len false) (fun r mm => (r = true ↔
      Passes s.areas src len) ∧ mm.map Mm.mmapList = s.areas ∧ ∀ m, mm = some m → m.Valid)
        (fun _ => False) s.mm := by
    cases hmm : s.mm with
    | none =>
      have hareas : s.areas = none := congrArg (Option.map Mm.mmapList) hmm
      rw [hareas]
      exact ⟨decide_eq_true_iff, rfl, fun _ h => (nomatch h)⟩
    | some mm =>
      have hareas : s.areas = some mm.mmapList := congrArg (Option.map Mm.mmapList) hmm
      have hsize : mm.mmapList.length < fuel := by
        rw [Space.size, hareas] at hfuel
        exact hfuel
      rw [hareas]
      refine Act.wp_mono ((hvalid mm hmm).wp_userMemCheck false hsrc hlen hsize) (fun r t ht => ?_)
        fun _ => id
      obtain ⟨mm', rfl, hvalid', hlist, hr⟩ := ht
      exact ⟨hr, congrArg some hlist, fun m hm => Option.some.inj hm ▸ hvalid'⟩
  rw [checkRead, Act.wp_bind, Act.wp_zoom]
  refine Act.wp_mono hcheck (fun r mm ⟨hr, hareas, hv⟩ => ?_) fun _ => id
  cases r with
  | true => exact ⟨hr, hv, hareas, rfl, hc.passed, fun _ => List.mem_cons_self⟩
  | false => exact ⟨hr, hv, hareas, rfl, hc, fun h => (nomatch h)⟩

/-- What a copy comes to, from `s` to `s'`. -/
structure Copied (s : Space) (dst src maxn : ℕ) (r : Bool) (s' : Space) : Prop where
  careful : Careful dst maxn s'.trace
  returns : Apart s dst src maxn → (r = true ↔ ∃ j, StringAt s src maxn j)
  copy : Apart s dst src maxn → ∀ j, StringAt s src maxn j → Bytes.Written s.bytes s'.bytes
    (fun i => u64 (dst + i)) (fun i => s.bytes (src + i)) (j + 1)

/-- **The state of the loop**, after `k` bytes of a copy from `s`: the chunks so far have passed, and
where the buffer is apart, their bytes are copied and not `NUL`. -/
structure Going (s : Space) (dst src maxn k : ℕ) (c : Cursor) (s' : Space) : Prop where
  valid : s'.Valid
  areas : s'.areas = s.areas
  cdst : c.dst = u64 (dst + k)
  csrc : c.src = src + k
  bound : src + k < 2 ^ 64
  cmaxn : c.maxn + k = maxn
  cpart : c.part = PGSIZE - (src + k) % PGSIZE
  start : k = 0 ∨ (0 < c.maxn ∧ PGSIZE ∣ src + k)
  careful : Careful dst maxn s'.trace
  passes : ∀ i < k, ChunkPasses s src maxn i
  copy : Apart s dst src maxn → Bytes.Written s.bytes s'.bytes (fun i => u64 (dst + i))
    (fun i => s.bytes (src + i)) k ∧ ∀ i < k, s.bytes (src + i) ≠ 0

namespace Going

variable {c : Cursor}

/-- The first byte is not the end of the string before the `k`th. -/
theorem le_of_stringAt (h : Going s dst src maxn k c s') (hapart : Apart s dst src maxn) {j : ℕ}
    (hj : StringAt s src maxn j) : k ≤ j := by
  by_contra hlt
  exact (h.copy hapart).2 j (not_le.mp hlt) hj.nul

/-- The chunk of each of the next bytes is what the loop checks next. -/
theorem chunkPasses_iff (h : Going s dst src maxn k c s') {i : ℕ} (hi : i < c.part) :
    ChunkPasses s src maxn (k + i) ↔
      Passes s.areas c.src (if c.maxn < c.part then c.maxn else c.part) := by
  have hmaxn := h.cmaxn
  have hdvd : k = 0 ∨ PGSIZE ∣ src + k := h.start.imp_right And.right
  have hrest : maxn - k = c.maxn := by omega
  rw [h.cpart] at hi
  obtain ⟨hlo, hhi⟩ := chunk_eq hdvd (by omega : k ≤ maxn) hi
  rw [ChunkPasses, hlo, hhi, h.csrc, Nat.add_sub_cancel_left, hrest, h.cpart]

end Going

theorem part_pos : 0 < PGSIZE - (src + k) % PGSIZE :=
  Nat.sub_pos_of_lt (Nat.mod_lt _ (by norm_num [PGSIZE]))

/-- The bytes of the next chunk may be read, so they are none of the buffer's. -/
theorem Going.ne {c : Cursor} (h : Going s dst src maxn k c s') (hmaxn : maxn < 2 ^ 64)
    (hapart : Apart s dst src maxn) {part : ℕ} (hpart : part ≤ c.maxn)
    (hpass : Passes s.areas c.src part) {i j : ℕ} (hi : i < maxn) (hj : j < part) :
    u64 (dst + i) ≠ c.src + j := by
  have hsum := h.cmaxn
  have hread := hpass.byte (h.csrc ▸ h.bound) (by omega) hj
  have hsrc : c.src + j = src + (k + j) := by rw [h.csrc, Nat.add_assoc]
  rw [hsrc] at hread ⊢
  exact hapart i hi (k + j) (by omega) hread

/-- …and they are still what they were. -/
theorem Going.bytes_eq {c : Cursor} (h : Going s dst src maxn k c s') (hmaxn : maxn < 2 ^ 64)
    (hapart : Apart s dst src maxn) {part : ℕ} (hpart : part ≤ c.maxn)
    (hpass : Passes s.areas c.src part) {i : ℕ} (hi : i < part) :
    s'.bytes (c.src + i) = s.bytes (src + (k + i)) := by
  have hsum := h.cmaxn
  rw [(h.copy hapart).1.frame _ fun i' hi' => (h.ne hmaxn hapart hpart hpass (by omega) hi).symm,
    h.csrc, Nat.add_assoc]

/-- **A further copy of bytes of the next chunk.** -/
theorem Going.written {c : Cursor} {m : ℕ → UInt8} (h : Going s dst src maxn k c s')
    (hmaxn : maxn < 2 ^ 64) (hapart : Apart s dst src maxn) {part : ℕ} (hpart : part ≤ c.maxn)
    (hpass : Passes s.areas c.src part) (hn : n ≤ part)
    (hw : (∀ i < n, ∀ j < n, u64 (dst + k + i) ≠ c.src + j) → Bytes.Written s'.bytes m
      (fun i => u64 (dst + k + i)) (fun i => s'.bytes (c.src + i)) n) :
    Bytes.Written s.bytes m (fun i => u64 (dst + i)) (fun i => s.bytes (src + i)) (k + n) := by
  have hsum := h.cmaxn
  have hw := hw fun i hi j hj => by
    rw [Nat.add_assoc]
    exact h.ne hmaxn hapart hpart hpass (by omega) (hj.trans_le hn)
  simp only [Nat.add_assoc] at hw
  refine (h.copy hapart).1.append (hw.congr fun i hi => ?_) fun i hi j hj => ?_
  · exact h.bytes_eq hmaxn hapart hpart hpass (hi.trans_le hn)
  · exact u64_ne (by omega) (by omega) (by omega)

theorem StringAt.unique {j j' : ℕ} (h : StringAt s src maxn j) (h' : StringAt s src maxn j') : j = j' := by
  rcases lt_trichotomy j j' with hlt | heq | hlt
  · exact absurd h.nul (h'.first j hlt)
  · exact heq
  · exact absurd h'.nul (h.first j' hlt)

/-- **One turn of `copy_string`.** -/
theorem Going.wp_copyPart {c : Cursor} (h : Going s dst src maxn k c s') (hmaxn : maxn < 2 ^ 64)
    (hfuel : s.size < fuel) : Act.wp (copyPart fuel c) (fun r s'' => r.elim
      (fun c' => ∃ k', c'.maxn < c.maxn ∧ Going s dst src maxn k' c' s'')
      fun r => Copied s dst src maxn r s'') (fun _ => False) s' := by
  set part := if c.maxn < c.part then c.maxn else c.part with hpart
  have hsum := h.cmaxn
  have hpage : 0 < c.part ∧ c.part ≤ PGSIZE := h.cpart ▸ ⟨part_pos, Nat.sub_le _ _⟩
  have hle : part ≤ c.maxn ∧ part ≤ c.part := by
    rw [hpart]
    split <;> omega
  have hlen : part < 2 ^ 64 := by omega
  have hsize : s'.size < fuel := by
    rw [Space.size, h.areas]
    exact hfuel
  rw [copyPart, Act.wp_bind, ← hpart]
  refine Act.wp_mono (wp_checkRead h.valid (h.csrc ▸ h.bound) hlen hsize h.careful)
    (fun r s₁ hcheck => ?_) fun _ => id
  obtain ⟨hr, hvalid, hareas, hbytes, hcareful, hmem⟩ := hcheck
  rw [h.areas] at hr hareas
  rw [Act.wp_ite]
  refine ⟨fun hyes => ?_, fun hno => ⟨hcareful, fun hapart => iff_of_false (by simp) ?_,
    fun hapart j hj => ?_⟩⟩
  · have hpass := hr.mp hyes
    obtain ⟨hpos, hwrap⟩ := hpass.bounds (h.csrc ▸ h.bound) hlen
    have hchecked : ∀ i < part, Checked s₁.trace (c.src + i) := fun i hi =>
      ⟨c.src, part, hmem hyes, by omega, by omega⟩
    have hsame : Apart s dst src maxn → ∀ i < part, s₁.bytes (c.src + i) = s.bytes (src + (k + i)) :=
      fun hapart i hi => hbytes ▸ h.bytes_eq hmaxn hapart hle.1 hpass hi
    have hchunks : ∀ i < k + part, ChunkPasses s src maxn i := fun i hi => by
      by_cases hik : i < k
      · exact h.passes i hik
      · have := (h.chunkPasses_iff (i := i - k) (by omega)).mpr hpass
        rwa [show k + (i - k) = i by omega] at this
    rw [Act.wp_bind]
    refine Act.wp_mono (wp_strnlen c.src hcareful (by omega) hchecked) (fun alen s₂ hlenpost => ?_) fun _ => id
    obtain ⟨hkept, hbytes₂, halen, hno, hnul⟩ := hlenpost
    have hbytes' : s₂.bytes = s'.bytes := hbytes₂.trans hbytes
    have hchecked₂ : ∀ i < part, Checked s₂.trace (c.src + i) := fun i hi =>
      (hchecked i hi).mono hkept.trace
    have hnone : Apart s dst src maxn → ∀ i < k + alen, s.bytes (src + i) ≠ 0 := fun hapart i hi => by
      by_cases hik : i < k
      · exact (h.copy hapart).2 i hik
      · have := hsame hapart (i - k) (by omega)
        rw [show k + (i - k) = i by omega] at this
        exact this ▸ hno (i - k) (by omega)
    rw [Act.wp_ite]
    refine ⟨fun hlt => ?_, fun hge => ?_⟩
    · -- the string ends in this chunk
      rw [Act.wp_bind, h.cdst]
      refine Act.wp_mono (wp_memcpy (n := alen + 1) c.src hkept.careful (by omega) (by omega)
        (fun i hi => hchecked₂ i (by omega)) (by omega)) (fun _ s₃ hcopy => ?_) fun _ => id
      have hstring : Apart s dst src maxn → StringAt s src maxn (k + alen) := fun hapart =>
        ⟨by omega, hsame hapart alen hlt ▸ hnul hlt, hnone hapart, fun i hi => hchunks i (by omega)⟩
      refine ⟨hcopy.1.careful, fun hapart => iff_of_true rfl ⟨_, hstring hapart⟩, fun hapart j hj => ?_⟩
      rw [hj.unique (hstring hapart), Nat.add_assoc]
      exact h.written hmaxn hapart hle.1 hpass (by omega) (hbytes' ▸ hcopy.2)
    · have hfull : alen = part := le_antisymm halen (not_lt.mp hge)
      rw [hfull] at hnone
      have hlate : Apart s dst src maxn → ∀ j, StringAt s src maxn j → k + part ≤ j :=
        fun hapart j hj => not_lt.mp fun hlt => hnone hapart j hlt hj.nul
      rw [Act.wp_ite]
      refine ⟨fun heq => ?_, fun hne => ?_⟩
      · -- the buffer ends with this chunk
        have hnostring : Apart s dst src maxn → ∀ j, ¬ StringAt s src maxn j := fun hapart j hj => by
          have := hlate hapart j hj
          have := hj.fits
          omega
        exact ⟨hkept.careful, fun hapart => iff_of_false (by simp) fun ⟨j, hj⟩ => hnostring hapart j hj,
          fun hapart j hj => absurd hj (hnostring hapart j)⟩
      · have hpart' : part = c.part := by
          rw [hpart]
          exact if_neg (by rw [hpart] at hne; split at hne <;> omega)
        rw [Act.wp_bind, h.cdst]
        refine Act.wp_mono (wp_memcpy (n := part) c.src hkept.careful (by omega) (by omega) hchecked₂
          (by omega)) (fun _ s₃ hcopy => ?_) fun _ => id
        have hareas₂ : s₂.areas = s.areas := by rw [Space.areas, hkept.mm, ← hareas, Space.areas]
        have hareas₃ : s₃.areas = s.areas := by rw [Space.areas, hcopy.1.mm, ← hareas₂, Space.areas]
        have hmm₃ : s₃.mm = s₁.mm := hcopy.1.mm.trans hkept.mm
        have hsrc' : c.src + part = src + (k + part) := by rw [h.csrc, Nat.add_assoc]
        have hdvd : PGSIZE ∣ src + (k + part) := by
          rw [hpart', h.cpart, ← Nat.add_assoc]
          unfold PGSIZE
          omega
        refine ⟨k + part, by dsimp only; omega, ?_⟩
        exact {
          valid := fun mm hmm => hvalid mm (hmm₃ ▸ hmm)
          areas := hareas₃
          cdst := by rw [u64_add, Nat.add_assoc]
          csrc := (u64_of_lt hwrap).trans hsrc'
          bound := hsrc' ▸ hwrap
          cmaxn := by dsimp only; omega
          cpart := by rw [Nat.mod_eq_zero_of_dvd hdvd, Nat.sub_zero]
          start := .inr ⟨by dsimp only; omega, hdvd⟩
          careful := hcopy.1.careful
          passes := hchunks
          copy := fun hapart => ⟨h.written hmaxn hapart hle.1 hpass le_rfl (hbytes' ▸ hcopy.2),
            hnone hapart⟩ }
  · rintro ⟨j, hj⟩
    have hkj := h.le_of_stringAt hapart hj
    exact hno (hr.mpr ((h.chunkPasses_iff hpage.1).mp (hj.passes k hkj)))
  · have hkj := h.le_of_stringAt hapart hj
    exact absurd (hr.mpr ((h.chunkPasses_iff hpage.1).mp (hj.passes k hkj))) hno

/-- **`copy_string`** ends; it returns whether there is a string that can be copied, which it copies; it
reads checked bytes only, and writes to the buffer only. -/
theorem wp_copyString (hvalid : s.Valid) (htrace : s.trace = []) (hsrc : src < 2 ^ 64)
    (hdst : dst < 2 ^ 64) (hmaxn : maxn < 2 ^ 64) (hfuel : s.size < fuel) (hturns : maxn < fuel) :
    Act.wp (copyString fuel dst src maxn) (Copied s dst src maxn) (fun _ => False) s := by
  refine Act.wp_loop (fun n c s' => n = c.maxn ∧ ∃ k, Going s dst src maxn k c s') ?_ fuel maxn _ s
    ⟨rfl, 0, ?_⟩ fun hle => absurd hturns (not_lt.mpr hle)
  · rintro n c s' ⟨rfl, k, h⟩
    refine Act.wp_mono (h.wp_copyPart hmaxn hfuel) (fun r s'' hr => ?_) fun _ => id
    cases r with
    | inl c' =>
      obtain ⟨k', hlt, h'⟩ := hr
      exact ⟨_, hlt, rfl, k', h'⟩
    | inr r => exact hr
  · exact {
      valid := hvalid
      areas := rfl
      cdst := (u64_of_lt hdst).symm
      csrc := rfl
      bound := hsrc
      cmaxn := rfl
      cpart := pageRest_eq hsrc
      start := .inl rfl
      careful := htrace ▸ .nil
      passes := fun _ h => absurd h (Nat.not_lt_zero _)
      copy := fun _ => ⟨.refl, fun _ h => absurd h (Nat.not_lt_zero _)⟩ }

/-- **`copy_string`, on any address space and any memory.** -/
theorem copyString_iff (hvalid : s.Valid) (htrace : s.trace = []) (hsrc : src < 2 ^ 64)
    (hdst : dst < 2 ^ 64) (hmaxn : maxn < 2 ^ 64) : ∃ enough, ∀ fuel ≥ enough, ∃ r s',
      copyString fuel dst src maxn s = .ok (r, s') ∧ Guarded s'.trace ∧
        (∀ a, Access.store a ∈ s'.trace → InBuffer dst maxn a) ∧
          (Apart s dst src maxn → (r = true ↔ ∃ j, StringAt s src maxn j) ∧
            ∀ j, StringAt s src maxn j → Bytes.Written s.bytes s'.bytes (fun i => u64 (dst + i))
              (fun i => s.bytes (src + i)) (j + 1)) := by
  refine ⟨max (s.size + 1) (maxn + 1), fun fuel hfuel => ?_⟩
  obtain ⟨r, s', hrun, hpost⟩ := Act.wp_false_iff.mp (wp_copyString hvalid htrace hsrc hdst hmaxn
    ((le_max_left ..).trans hfuel) ((le_max_right ..).trans hfuel))
  exact ⟨r, s', hrun, hpost.careful.guarded, hpost.careful.stores,
    fun hapart => ⟨hpost.returns hapart, hpost.copy hapart⟩⟩

/-- The string `a`, in the one page of `onePage`. -/
def oneLetter : Space := ⟨some onePage, fun a => if a = 0x500010 then 97 else 0, []⟩

theorem oneLetter_stringAt : StringAt oneLetter 0x500010 16 1 := by
  have hpass : Accessible onePage.mmapList 0x500010 16 false := by
    refine ⟨by decide, by decide, by decide, ⟨fun a hle hlt => ?_, fun hno => (nomatch hno)⟩⟩
    exact ⟨_, List.mem_singleton_self _, ⟨le_trans (by decide) hle, lt_trans hlt (by decide)⟩,
      by decide⟩
  refine ⟨by decide, by decide, fun i hi => ?_, fun i hi => ?_⟩
  · obtain rfl : i = 0 := by omega
    decide
  · rcases (by omega : i = 0 ∨ i = 1) with rfl | rfl <;> exact hpass

/-- The string is copied to the kernel. -/
theorem copyString_iff_oneLetter : ∃ enough, ∀ fuel ≥ enough, ∃ s',
    copyString fuel KERNBASE 0x500010 16 oneLetter = .ok (true, s') ∧ s'.bytes KERNBASE = 97 ∧
      s'.bytes (KERNBASE + 1) = 0 := by
  obtain ⟨enough, h⟩ := copyString_iff (s := oneLetter)
    (fun mm hmm => Option.some.inj hmm ▸ onePage_valid) rfl (show 0x500010 < 2 ^ 64 by decide)
    (show KERNBASE < 2 ^ 64 by decide) (show 16 < 2 ^ 64 by decide)
  refine ⟨enough, fun fuel hfuel => ?_⟩
  obtain ⟨r, s', hrun, -, -, hcopy⟩ := h fuel hfuel
  obtain ⟨hr, hw⟩ := hcopy fun i hi j hj _ heq => by
    unfold u64 KERNBASE at heq
    omega
  have hw := hw 1 oneLetter_stringAt
  refine ⟨s', hr.mpr ⟨1, oneLetter_stringAt⟩ ▸ hrun, hw.value 0 (by decide), hw.value 1 (by decide)⟩

end Copy

end UCore.Vmm
