import UCore.Driver.DeviceTree

/-!
# Driver/MemoryReg — which `reg` is found

The flag stands for the nodes that are open, and a node whose name begins with `memory` leaves it to its
first subnode:

    memory@0 { child@0 { reg } reg }        child@0 comes first
-/

namespace UCore.Dtb

variable {b : Blob} {o n fuel : ℕ} {c : UInt8} {cs ds text : List UInt8} {s : MemInfo} {E : Fault → Prop}

/-! ## Reading -/

/-- What comes after the first part. -/
theorem drop_of_append (cs : List UInt8) (h : cs ++ ds <+: b.bytes.drop o) : ds <+: b.bytes.drop (o + cs.length) := by
  obtain ⟨rest, hrest⟩ := h
  refine ⟨rest, ?_⟩
  rw [← List.drop_drop, ← hrest, List.append_assoc, List.drop_left]

theorem length_le_of_drop (h : cs <+: b.bytes.drop o) (hcs : cs ≠ []) : o + cs.length ≤ b.bytes.length := by
  have hlen := h.length_le
  have hpos := List.length_pos_iff.mpr hcs
  rw [List.length_drop] at hlen
  omega

theorem wp_read8 (h : c :: cs <+: b.bytes.drop o) :
    Act.wp (read8 b (b.addr + o)) (fun v t => t = s ∧ v = c) E s := by
  have hlen := length_le_of_drop h (List.cons_ne_nil c cs)
  rw [List.length_cons] at hlen
  obtain ⟨rest, hrest⟩ := h
  simp only [read8, Act.wp_bind, Act.wp_require, Act.wp_pure, Nat.add_sub_cancel_left]
  refine ⟨fun _ => ⟨trivial, ?_⟩, fun hno => absurd ⟨by omega, by omega⟩ hno⟩
  rw [List.getD_eq_getElem?_getD, ← List.head?_drop, ← hrest]
  rfl

theorem wp_readWord (h : cs <+: b.bytes.drop o) :
    Act.wp (readWord b cs.length (b.addr + o)) (fun v t => t = s ∧ v = leWord cs) E s := by
  induction cs generalizing o with
  | nil => exact ⟨rfl, rfl⟩
  | cons c cs ih =>
    simp only [List.length_cons, readWord, Act.wp_bind, Act.wp_pure]
    refine Act.wp_mono (wp_read8 h) ?_ fun _ => id
    rintro _ s ⟨rfl, rfl⟩
    rw [Nat.add_assoc]
    refine Act.wp_mono (ih (drop_of_append [_] h)) ?_ fun _ => id
    rintro _ s ⟨rfl, rfl⟩
    exact ⟨rfl, rfl⟩

/-- A number of the blob is read as it is meant. -/
theorem wp_fdt32 (h : be32 n <+: b.bytes.drop o) (hn : n < 2 ^ 32) :
    Act.wp (fdt32ToCpu <$> readWord b 4 (b.addr + o)) (fun v t => t = s ∧ v = n) E s := by
  rw [Act.wp_map]
  refine Act.wp_mono (wp_readWord h) ?_ fun _ => id
  rintro _ s ⟨rfl, rfl⟩
  exact ⟨rfl, (fdt32ToCpu_leWord rfl).trans (beWord_be32 hn)⟩

/-- A string ends at its NUL. -/
theorem wp_strlen (h : text ++ [0] <+: b.bytes.drop o) (htext : 0 ∉ text) (fuel : ℕ) :
    Act.wp (strlen b fuel (b.addr + o)) (fun v t => t = s ∧ v = text.length)
      (fun f => f = .spin ∧ fuel ≤ b.bytes.length) s := by
  have hlen := length_le_of_drop h (by simp)
  rw [List.length_append, List.length_singleton] at hlen
  refine Act.wp_loop (fun m cnt t => t = s ∧ cnt ≤ text.length ∧ m = text.length - cnt) ?_ fuel text.length 0 s
    ⟨rfl, Nat.zero_le _, rfl⟩ fun hfuel => ⟨rfl, by omega⟩
  rintro m cnt t ⟨rfl, hcnt, rfl⟩
  rw [Act.wp_bind, Nat.add_assoc]
  have hrest : text.drop cnt ++ [0] <+: b.bytes.drop (o + cnt) := by
    have hcut := drop_of_append (text.take cnt) (by rwa [← List.append_assoc, List.take_append_drop])
    rwa [List.length_take, min_eq_left hcnt] at hcut
  cases hd : text.drop cnt with
  | nil =>
    have hend : text.length ≤ cnt := List.drop_eq_nil_iff.mp hd
    rw [hd] at hrest
    refine Act.wp_mono (wp_read8 hrest) ?_ fun _ => id
    rintro _ t ⟨rfl, rfl⟩
    exact ⟨rfl, by omega⟩
  | cons d rest =>
    have hlt : cnt < text.length := by
      by_contra hge
      rw [List.drop_eq_nil_of_le (not_lt.mp hge)] at hd
      exact List.cons_ne_nil d rest hd.symm
    rw [hd] at hrest
    refine Act.wp_mono (wp_read8 hrest) ?_ fun _ => id
    rintro d t ⟨rfl, rfl⟩
    have hd0 : d ≠ 0 := fun h0 => htext (h0 ▸ List.mem_of_mem_drop (hd ▸ List.mem_cons_self))
    rw [if_pos hd0]
    exact ⟨text.length - (cnt + 1), by omega, rfl, hlt, rfl⟩

/-- A constant is compared with a string as far as they agree. -/
theorem wp_agrees (h : text ++ [0] <+: b.bytes.drop o) (hcs : 0 ∉ cs.dropLast) :
    Act.wp (agrees b (b.addr + o) cs) (fun v t => t = s ∧ v = cs.isPrefixOf (text ++ [0])) E s := by
  induction text generalizing cs o with
  | nil =>
    cases cs with
    | nil => exact ⟨rfl, rfl⟩
    | cons c cs =>
      rw [agrees, Act.wp_bind]
      refine Act.wp_mono (wp_read8 h) ?_ fun _ => id
      rintro _ s ⟨rfl, rfl⟩
      rw [Act.wp_ite]
      refine ⟨?_, fun hne => ⟨rfl, ?_⟩⟩
      · -- a NUL of the constant is its last character
        rintro rfl
        cases cs with
        | nil => exact ⟨rfl, rfl⟩
        | cons c cs => exact absurd List.mem_cons_self hcs
      · rw [List.nil_append, List.isPrefixOf, beq_false_of_ne (Ne.symm hne), Bool.false_and]
  | cons d text ih =>
    cases cs with
    | nil => exact ⟨rfl, rfl⟩
    | cons c cs =>
      rw [agrees, Act.wp_bind]
      refine Act.wp_mono (wp_read8 h) ?_ fun _ => id
      rintro _ s ⟨rfl, rfl⟩
      rw [Act.wp_ite]
      refine ⟨?_, fun hne => ⟨rfl, ?_⟩⟩
      · rintro rfl
        have hcs' : 0 ∉ cs.dropLast := fun hmem => hcs (by
          cases cs with
          | nil => exact absurd hmem List.not_mem_nil
          | cons c cs => exact List.mem_cons_of_mem _ hmem)
        rw [Nat.add_assoc]
        refine Act.wp_mono (ih (drop_of_append [_] h) hcs') ?_ fun _ => id
        rintro _ s ⟨rfl, rfl⟩
        refine ⟨rfl, ?_⟩
        rw [List.cons_append, List.isPrefixOf, beq_self_eq_true, Bool.true_and]
      · rw [List.cons_append, List.isPrefixOf, beq_false_of_ne (Ne.symm hne), Bool.false_and]

/-- `strncmp` with `"memory"`. -/
theorem isPrefixOf_nul (h : 0 ∉ cs) : cs.isPrefixOf (text ++ [0]) = cs.isPrefixOf text := by
  rw [Bool.eq_iff_iff, List.isPrefixOf_iff_prefix, List.isPrefixOf_iff_prefix, List.prefix_concat_iff]
  refine ⟨fun hor => hor.resolve_left ?_, .inr⟩
  rintro rfl
  exact h (List.mem_append_right _ List.mem_cons_self)

/-- `strcmp`. -/
theorem nul_isPrefixOf_nul (h : 0 ∉ text) : (cs ++ [0]).isPrefixOf (text ++ [0]) = decide (text = cs) := by
  rw [Bool.eq_iff_iff, List.isPrefixOf_iff_prefix, List.prefix_concat_iff, decide_eq_true_iff]
  refine ⟨fun hor => ?_, fun heq => .inl (by rw [heq])⟩
  rcases hor with heq | hpre
  · exact (List.append_cancel_right heq).symm
  · exact absurd (hpre.subset (List.mem_append_right _ List.mem_cons_self)) h

theorem length_aligned (cs : List UInt8) : (aligned cs).length = cs.length + (4 - cs.length % 4) % 4 := by
  rw [aligned, List.length_append, List.length_replicate]

theorem length_beginNode (name : List UInt8) :
    (Token.beginNode name).bytes.length = 4 + (aligned (name ++ [0])).length := by
  rw [Token.bytes, List.length_append]
  rfl

theorem length_prop (p : Property) : (Token.prop p).bytes.length = 12 + (aligned p.data).length := by
  rw [Token.bytes, List.length_append, List.length_append, List.length_append]
  change 4 + (4 + (4 + _)) = _
  omega

/-- A token is a number of whole words. -/
theorem four_dvd_length_bytes (t : Token) : 4 ∣ t.bytes.length := by
  cases t with
  | nop | endNode => exact dvd_refl 4
  | beginNode name =>
    have := length_aligned (name ++ [0])
    rw [length_beginNode]
    omega
  | prop p =>
    have := length_aligned p.data
    rw [length_prop]
    omega

/-! ## The walk -/

/-- The flag behind a token. -/
def Token.flag (flag : Bool) : Token → Bool
  | beginNode name => flag || memoryName.isPrefixOf name
  | endNode => false
  | _ => flag

/-- **The properties as the walk meets them**, from the offset `pos` on. -/
def seen : ℕ → Bool → List Token → List Seen
  | _, _, [] => []
  | pos, flag, .prop p :: ts => ⟨pos + 12, flag, p⟩ :: seen (pos + (Token.prop p).bytes.length) flag ts
  | pos, flag, t :: ts => seen (pos + t.bytes.length) (t.flag flag) ts

/-- The flag is up, and it is a `reg`. -/
def Seen.Used (e : Seen) : Prop := e.flagged = true ∧ e.IsReg

instance (e : Seen) : Decidable e.Used := inferInstanceAs (Decidable (_ ∧ _))

/-- A token that `extract_memory_info` can read. -/
def Token.Valid (b : Blob) (stringsOffset : ℕ) : Token → Prop
  | beginNode name => 0 ∉ name ∧ name.length < 2 ^ 31
  | prop p => 0 ∉ p.name ∧ p.nameoff < 2 ^ 32 ∧ p.name ++ [0] <+: b.bytes.drop (stringsOffset + p.nameoff)
  | _ => True

/-- What one token does. -/
def Token.next (b : Blob) (o : ℕ) (flag : Bool) (t : Token) : (Bool × ℕ) ⊕ Option ℕ :=
  match t with
  | prop p =>
    if Seen.Used ⟨o + 12, flag, p⟩ then .inr (some (b.addr + (o + 12)))
    else .inl (flag, b.addr + (o + t.bytes.length))
  | _ => .inl (t.flag flag, b.addr + (o + t.bytes.length))

/-- **A token is read**, and the cursor is behind it. -/
theorem wp_step {stringsOffset : ℕ} {flag : Bool} {t : Token} (hbound : b.addr + b.bytes.length ≤ 2 ^ 64)
    (hsize : b.bytes.length < 2 ^ 32) (haddr : 4 ∣ b.addr) (ho : 4 ∣ o) (hvalid : t.Valid b stringsOffset)
    (hcs : 4 ≤ cs.length) (h : t.bytes ++ cs <+: b.bytes.drop o) :
    Act.wp (step b (b.addr + stringsOffset) fuel flag (b.addr + o)) (fun r u => u = s ∧ r = t.next b o flag)
      (fun f => f = .spin ∧ fuel ≤ b.bytes.length) s := by
  have hlen := length_le_of_drop h (by
    rw [← List.length_pos_iff, List.length_append]
    omega)
  rw [List.length_append] at hlen
  rw [step, Act.wp_bind]
  cases t with
  | nop =>
    refine Act.wp_mono (wp_fdt32 (n := FDT_NOP) ((List.prefix_append _ _).trans h) (by decide)) ?_ fun _ => id
    rintro _ s ⟨rfl, rfl⟩
    rw [if_neg (by decide), if_neg (by decide), if_neg (by decide), if_pos rfl]
    rw [Nat.add_assoc]
    exact ⟨rfl, rfl⟩
  | endNode =>
    refine Act.wp_mono (wp_fdt32 (n := FDT_END_NODE) ((List.prefix_append _ _).trans h) (by decide)) ?_ fun _ => id
    rintro _ s ⟨rfl, rfl⟩
    rw [if_neg (by decide), if_pos rfl]
    rw [Nat.add_assoc]
    exact ⟨rfl, rfl⟩
  | beginNode name =>
    obtain ⟨hname, hint⟩ := hvalid
    have halign := length_aligned (name ++ [0])
    rw [length_beginNode] at hlen
    rw [List.length_append, List.length_singleton] at halign
    rw [Token.bytes, List.append_assoc] at h
    refine Act.wp_mono (wp_fdt32 (n := FDT_BEGIN_NODE) ((List.prefix_append _ _).trans h) (by decide)) ?_
      fun _ => id
    rintro _ s ⟨rfl, rfl⟩
    have hstr : name ++ [0] <+: b.bytes.drop (o + 4) :=
      ((List.prefix_append _ _).trans (List.prefix_append _ _)).trans (drop_of_append (be32 FDT_BEGIN_NODE) h)
    rw [if_pos rfl, Act.wp_bind, Nat.add_assoc]
    refine Act.wp_mono (wp_strlen hstr hname fuel) ?_ fun _ => id
    rintro _ s ⟨rfl, rfl⟩
    rw [Act.wp_bind]
    refine Act.wp_mono (wp_agrees hstr (by decide)) ?_ fun _ => id
    rintro _ s ⟨rfl, rfl⟩
    have hcur : roundDown (toU64 (((b.addr + (o + 4) : ℕ) : ℤ) + toS32 name.length + 4)) 4 =
        b.addr + (o + (Token.beginNode name).bytes.length) := by
      rw [toS32_of_mem (by omega) (by omega), length_beginNode]
      unfold roundDown toU64
      omega
    rw [isPrefixOf_nul (by decide), hcur]
    exact ⟨rfl, rfl⟩
  | prop p =>
    obtain ⟨hname, hoff, hstr⟩ := hvalid
    have halign := length_aligned p.data
    rw [length_prop] at hlen
    rw [Token.bytes, List.append_assoc, List.append_assoc, List.append_assoc] at h
    have h4 : be32 p.data.length ++ (be32 p.nameoff ++ (aligned p.data ++ cs)) <+: b.bytes.drop (o + 4) :=
      drop_of_append (be32 FDT_PROP) h
    have h8 : be32 p.nameoff ++ (aligned p.data ++ cs) <+: b.bytes.drop (o + 4 + 4) :=
      drop_of_append (be32 p.data.length) h4
    refine Act.wp_mono (wp_fdt32 (n := FDT_PROP) ((List.prefix_append _ _).trans h) (by decide)) ?_ fun _ => id
    rintro _ s ⟨rfl, rfl⟩
    rw [if_neg (by decide), if_neg (by decide), if_pos rfl, Act.wp_bind, Nat.add_assoc b.addr]
    refine Act.wp_mono (wp_fdt32 ((List.prefix_append _ _).trans h4) (by omega)) ?_ fun _ => id
    rintro _ s ⟨rfl, rfl⟩
    rw [Act.wp_bind, Nat.add_assoc b.addr]
    refine Act.wp_mono (wp_fdt32 ((List.prefix_append _ _).trans h8) hoff) ?_ fun _ => id
    rintro _ s ⟨rfl, rfl⟩
    have hcur : roundDown (u64 (b.addr + (o + 4) + 8 + p.data.length + 3)) 4 =
        b.addr + (o + (Token.prop p).bytes.length) := by
      rw [length_prop]
      unfold roundDown u64
      omega
    rw [Act.wp_bind]
    refine Act.wp_mono (Q := fun r u => u = s ∧ r = (flag && decide (p.name = regName))) ?_ ?_ fun _ => id
    · cases flag with
      | false => exact ⟨rfl, rfl⟩
      | true =>
        rw [Nat.add_assoc, Bool.true_and, ← nul_isPrefixOf_nul hname]
        exact wp_agrees hstr (by decide)
    · rintro _ s ⟨rfl, rfl⟩
      have hused : (flag && decide (p.name = regName)) = true ∧ p.data.length ≥ 16 ↔
          Seen.Used ⟨o + 12, flag, p⟩ := by
        rw [Bool.and_eq_true, decide_eq_true_iff, and_assoc]
        rfl
      rw [Act.wp_ite, hused]
      refine ⟨fun hyes => ⟨rfl, ?_⟩, fun hno => ⟨rfl, ?_⟩⟩
      · rw [Token.next, if_pos hyes, Nat.add_assoc, Nat.add_assoc]
      · rw [Token.next, if_neg hno, hcur]

/-- The end of the tree is read. -/
theorem wp_step_end {stringsBase : ℕ} {flag : Bool} (h : be32 FDT_END <+: b.bytes.drop o) :
    Act.wp (step b stringsBase fuel flag (b.addr + o)) (fun r u => u = s ∧ r = .inr none) E s := by
  rw [step, Act.wp_bind]
  refine Act.wp_mono (wp_fdt32 h (by decide)) ?_ fun _ => id
  rintro _ s ⟨rfl, rfl⟩
  exact ⟨rfl, rfl⟩

theorem length_le_tokenBytes (ts : List Token) : ts.length ≤ (tokenBytes ts).length := by
  induction ts with
  | nil => exact Nat.zero_le _
  | cons t ts ih =>
    have hpos : 1 ≤ t.bytes.length := by
      cases t with
      | nop | endNode => decide
      | beginNode name =>
        rw [length_beginNode]
        omega
      | prop p =>
        rw [length_prop]
        omega
    rw [tokenBytes, List.flatMap_cons, List.length_append, List.length_cons]
    change _ ≤ _ + (tokenBytes ts).length
    omega

/-- **The walk** finds the first `reg` under the flag. -/
theorem wp_walk {stringsOffset : ℕ} {flag : Bool} {ts : List Token}
    (hbound : b.addr + b.bytes.length ≤ 2 ^ 64) (hsize : b.bytes.length < 2 ^ 32) (haddr : 4 ∣ b.addr)
    (ho : 4 ∣ o) (hvalid : ∀ t ∈ ts, t.Valid b stringsOffset)
    (h : tokenBytes ts ++ be32 FDT_END <+: b.bytes.drop o) :
    Act.wp (Act.loop .spin (fun u : Bool × ℕ => step b (b.addr + stringsOffset) fuel u.1 u.2) fuel
        (flag, b.addr + o))
      (fun r u => u = s ∧ r = ((seen o flag ts).find? fun e => e.Used).map (b.addr + ·.data))
      (fun f => f = .spin ∧ fuel ≤ b.bytes.length) s := by
  have hlen := length_le_of_drop h (by simp [be32])
  have hts := length_le_tokenBytes ts
  rw [List.length_append] at hlen
  refine Act.wp_loop (fun m v u => u = s ∧ ∃ ts' o', v.2 = b.addr + o' ∧ 4 ∣ o' ∧ m = ts'.length ∧
    (∀ t ∈ ts', t.Valid b stringsOffset) ∧ tokenBytes ts' ++ be32 FDT_END <+: b.bytes.drop o' ∧
    (seen o' v.1 ts').find? (fun e => e.Used) = (seen o flag ts).find? fun e => e.Used) ?_ fuel ts.length
    (flag, b.addr + o) s ⟨rfl, ts, o, rfl, ho, rfl, hvalid, h, rfl⟩ fun hfuel => ⟨rfl, by omega⟩
  intro m v u hinv
  obtain ⟨flag', p⟩ := v
  obtain ⟨rfl, ts', o', rfl, ho', rfl, hvalid', h', hfind⟩ := hinv
  dsimp only at hfind ⊢
  cases ts' with
  | nil =>
    refine Act.wp_mono (wp_step_end h') ?_ fun _ => id
    rintro _ u ⟨rfl, rfl⟩
    rw [← hfind]
    exact ⟨rfl, rfl⟩
  | cons t ts' =>
    obtain ⟨hval, hvals⟩ := List.forall_mem_cons.mp hvalid'
    rw [tokenBytes, List.flatMap_cons, List.append_assoc] at h'
    change t.bytes ++ (tokenBytes ts' ++ be32 FDT_END) <+: _ at h'
    have hmore : 4 ≤ (tokenBytes ts' ++ be32 FDT_END).length := by
      rw [List.length_append]
      exact Nat.le_add_left _ _
    refine Act.wp_mono (wp_step hbound hsize haddr ho' hval hmore h') ?_ fun _ => id
    rintro _ u ⟨rfl, rfl⟩
    generalize (seen o flag ts).find? (fun e => e.Used) = whole at hfind ⊢
    have hnext : ∀ flag'', (seen (o' + t.bytes.length) flag'' ts').find? (fun e => e.Used) = whole →
        ∃ m < (t :: ts').length, u = u ∧ ∃ ts o, b.addr + (o' + t.bytes.length) = b.addr + o ∧ 4 ∣ o ∧
          m = ts.length ∧ (∀ t ∈ ts, t.Valid b stringsOffset) ∧
          tokenBytes ts ++ be32 FDT_END <+: b.bytes.drop o ∧
          (seen o flag'' ts).find? (fun e => e.Used) = whole := fun flag'' hfind =>
      ⟨ts'.length, Nat.lt_succ_self _, rfl, ts', _, rfl, (Nat.dvd_add ho' (four_dvd_length_bytes t)), rfl, hvals,
        drop_of_append _ h', hfind⟩
    cases t with
    | nop | endNode | beginNode => exact hnext _ hfind
    | prop p =>
      by_cases hused : Seen.Used ⟨o' + 12, flag', p⟩
      · rw [seen, List.find?_cons_of_pos (by exact decide_eq_true hused)] at hfind
        rw [Token.next, if_pos hused, ← hfind]
        exact ⟨rfl, rfl⟩
      · rw [seen, List.find?_cons_of_neg (by simpa using hused)] at hfind
        rw [Token.next, if_neg hused]
        exact hnext _ hfind

end UCore.Dtb
