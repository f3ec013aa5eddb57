import UCore.Driver.MemoryReg

/-!
# Driver/MemoryNode — the memory that is found

    the first `reg` under the flag   =   the first `reg` of a memory node ?

A memory node is always under the flag.  So the two differ where a node that is none of the kind is under
it too, and has a `reg` before the first memory node has.
-/

namespace UCore.Dtb

/-- **The first matches** of two predicates, one of which is the weaker, are in one place if the first match
of the weaker is one of the other. -/
theorem firstMatch_iff {α : Type*} (key : α → ℕ) {p q : α → Bool} {l : List α}
    (hkey : l.Pairwise (key · < key ·)) (hqp : ∀ a ∈ l, q a = true → p a = true) :
    (l.find? p).map key = (l.find? q).map key ↔
      ∀ a ∈ l, p a = true → q a = false → ∃ a' ∈ l, key a' < key a ∧ q a' = true := by
  induction l with
  | nil => simp
  | cons a l ih =>
    obtain ⟨hlt, hkey⟩ := List.pairwise_cons.mp hkey
    have hqp' : ∀ a ∈ l, q a = true → p a = true := fun a ha => hqp a (List.mem_cons_of_mem _ ha)
    by_cases hq : q a = true
    · rw [List.find?_cons_of_pos hq, List.find?_cons_of_pos (hqp a List.mem_cons_self hq)]
      refine iff_of_true rfl fun b hb _ hno => ?_
      rcases List.mem_cons.mp hb with rfl | hb
      · rw [hq] at hno
        exact absurd hno (by simp)
      · exact ⟨a, List.mem_cons_self, hlt b hb, hq⟩
    · by_cases hp : p a = true
      · -- the first is no match of `q`, and whatever is comes later
        refine iff_of_false (fun heq => ?_) fun h => ?_
        · rw [List.find?_cons_of_pos hp, List.find?_cons_of_neg hq] at heq
          obtain ⟨b, hb, hba⟩ := Option.map_eq_some_iff.mp heq.symm
          exact absurd (hlt b (List.mem_of_find?_eq_some hb)) (by omega)
        · obtain ⟨b, hb, hba, hqb⟩ := h a List.mem_cons_self hp (Bool.eq_false_iff.mpr hq)
          rcases List.mem_cons.mp hb with rfl | hb
          · omega
          · exact absurd (hlt b hb) (by omega)
      · rw [List.find?_cons_of_neg hp, List.find?_cons_of_neg hq, ih hkey hqp']
        refine ⟨fun h b hb hpb hqb => ?_, fun h b hb hpb hqb => ?_⟩
        · rcases List.mem_cons.mp hb with rfl | hb
          · exact absurd hpb hp
          · obtain ⟨c, hc, hcb, hqc⟩ := h b hb hpb hqb
            exact ⟨c, List.mem_cons_of_mem _ hc, hcb, hqc⟩
        · obtain ⟨c, hc, hcb, hqc⟩ := h b (List.mem_cons_of_mem _ hb) hpb hqb
          rcases List.mem_cons.mp hc with rfl | hc
          · exact absurd hqc hq
          · exact ⟨c, hc, hcb, hqc⟩

variable {b : Blob} {structOffset stringsOffset o fuel pos : ℕ} {flag : Bool} {t : Forest} {ts us : List Token}
  {cs : List UInt8}

/-! ## The properties, token by token -/

theorem seen_cons_of_notProp {u : Token} (h : ∀ p, u ≠ .prop p) :
    seen pos flag (u :: ts) = seen (pos + u.bytes.length) (u.flag flag) ts := by
  cases u with
  | nop | beginNode | endNode => rfl
  | prop p => exact absurd rfl (h p)

theorem tokenBytes_cons (u : Token) (ts : List Token) : tokenBytes (u :: ts) = u.bytes ++ tokenBytes ts :=
  List.flatMap_cons

theorem seen_append (ts us : List Token) : seen pos flag (ts ++ us) =
    seen pos flag ts ++ seen (pos + (tokenBytes ts).length) (ts.foldl Token.flag flag) us := by
  induction ts generalizing pos flag with
  | nil => rfl
  | cons u ts ih =>
    rw [tokenBytes_cons, List.length_append, ← Nat.add_assoc, List.foldl_cons]
    cases u with
    | nop | beginNode | endNode => exact ih
    | prop p => exact congrArg _ ih

theorem foldl_nops (n : ℕ) (ts : List Token) :
    (List.replicate n Token.nop ++ ts).foldl Token.flag flag = ts.foldl Token.flag flag := by
  induction n with
  | zero => rfl
  | succ n ih => exact ih

theorem seen_nops (n : ℕ) (ts : List Token) :
    seen pos flag (List.replicate n Token.nop ++ ts) = seen (pos + 4 * n) flag ts := by
  induction n generalizing pos with
  | zero => rfl
  | succ n ih =>
    rw [List.replicate_succ, List.cons_append]
    change seen (pos + 4) flag _ = _
    rw [ih]
    congr 1
    omega

theorem foldl_propTokens (props : List (ℕ × Property)) : (propTokens props).foldl Token.flag flag = flag := by
  induction props with
  | nil => rfl
  | cons q props ih =>
    rw [propTokens, List.flatMap_cons, List.foldl_append, foldl_nops]
    exact ih

/-- **The properties of a node** are met as they are. -/
theorem seen_propTokens (owner : List UInt8) (props : List (ℕ × Property)) :
    seen pos flag (propTokens props) = (propEntries owner flag pos props).map (·.toSeen) := by
  induction props generalizing pos with
  | nil => rfl
  | cons q props ih =>
    obtain ⟨nops, p⟩ := q
    rw [propTokens, List.flatMap_cons, seen_append, foldl_nops, seen_nops]
    exact congrArg _ ih

/-- …and so are those of a forest, which leaves the flag down if it has a node. -/
theorem seen_tokens (t : Forest) (pos : ℕ) (flag : Bool) :
    seen pos flag t.tokens = (t.entries pos flag).map (·.toSeen) := by
  induction t generalizing pos flag with
  | nil => rfl
  | node nops name props children nopsEnd next ihc ihn =>
    have hsplit : (Forest.node nops name props children nopsEnd next).tokens =
        (List.replicate nops .nop ++ [.beginNode name]) ++ (propTokens props ++
          ((children.tokens ++ (List.replicate nopsEnd .nop ++ [.endNode])) ++ next.tokens)) := by
      simp only [Forest.tokens, List.append_assoc, List.singleton_append]
    have hbegin : seen pos flag (List.replicate nops .nop ++ [.beginNode name]) = [] := by
      rw [seen_nops]
      rfl
    have hend : ∀ pos flag, seen pos flag (List.replicate nopsEnd .nop ++ [.endNode]) = [] := fun pos flag => by
      rw [seen_nops]
      rfl
    have hdown : ∀ flag, (children.tokens ++ (List.replicate nopsEnd Token.nop ++ [Token.endNode])).foldl Token.flag
        flag =
        false := fun flag => by
      rw [List.foldl_append, foldl_nops]
      rfl
    rw [hsplit, seen_append, hbegin, List.nil_append, foldl_nops, seen_append, foldl_propTokens, seen_append,
      hdown, seen_append, hend, List.append_nil, seen_propTokens name, ihc, ihn]
    simp only [Forest.entries, List.map_append]
    rfl

theorem seen_pairwise (ts : List Token) (pos : ℕ) (flag : Bool) :
    (∀ e ∈ seen pos flag ts, pos < e.data) ∧ (seen pos flag ts).Pairwise (·.data < ·.data) := by
  induction ts generalizing pos flag with
  | nil => exact ⟨List.forall_mem_nil _, List.Pairwise.nil⟩
  | cons u ts ih =>
    obtain ⟨hlt, hpair⟩ := ih (pos + u.bytes.length) (u.flag flag)
    cases u with
    | nop | beginNode | endNode => exact ⟨fun e he => (Nat.le_add_right _ _).trans_lt (hlt e he), hpair⟩
    | prop p =>
      have hp := length_prop p
      refine ⟨List.forall_mem_cons.mpr ⟨Nat.lt_add_of_pos_right (by decide), fun e he => ?_⟩,
        List.pairwise_cons.mpr ⟨fun e he => ?_, hpair⟩⟩
      · exact (Nat.le_add_right _ _).trans_lt (hlt e he)
      · have := hlt e he
        dsimp only
        omega

/-- The data are where they are met. -/
theorem data_of_mem_seen {e : Seen} (h : tokenBytes ts ++ cs <+: b.bytes.drop pos)
    (he : e ∈ seen pos flag ts) : e.prop.data <+: b.bytes.drop e.data := by
  induction ts generalizing pos flag with
  | nil => exact absurd he List.not_mem_nil
  | cons u ts ih =>
    rw [tokenBytes_cons, List.append_assoc] at h
    have hrest := drop_of_append _ h
    cases u with
    | nop | beginNode | endNode => exact ih hrest he
    | prop p =>
      rcases List.mem_cons.mp he with rfl | he
      · rw [Token.bytes, List.append_assoc, List.append_assoc, List.append_assoc] at h
        have hdata := drop_of_append (be32 p.nameoff) (drop_of_append (be32 p.data.length)
          (drop_of_append (be32 FDT_PROP) h))
        exact ((List.prefix_append _ _).trans (List.prefix_append _ _)).trans hdata
      · exact ih hrest he

/-! ## `extract_memory_info` -/

/-- A `reg` of a memory node. -/
def Entry.Wanted (e : Entry) : Prop := e.IsReg ∧ IsMemory e.owner

instance (e : Entry) : Decidable e.Wanted := inferInstanceAs (Decidable (_ ∧ _))

/-- A memory node is flagged. -/
theorem flagged_of_isMemory {name : List UInt8} (h : IsMemory name) : memoryName.isPrefixOf name = true := by
  rw [List.isPrefixOf_iff_prefix]
  rcases h with rfl | h
  · exact List.prefix_rfl
  · exact (List.prefix_append _ _).trans h

theorem flagged_of_mem_propEntries {owner : List UInt8} {props : List (ℕ × Property)} {e : Entry}
    (he : e ∈ propEntries owner flag pos props) : e.owner = owner ∧ e.flagged = flag := by
  induction props generalizing pos with
  | nil => exact absurd he List.not_mem_nil
  | cons q props ih =>
    obtain ⟨nops, p⟩ := q
    rcases List.mem_cons.mp he with rfl | he
    · exact ⟨rfl, rfl⟩
    · exact ih he

/-- **What is wanted is under the flag.** -/
theorem used_of_wanted {e : Entry} (he : e ∈ t.entries pos flag) (hw : e.Wanted) : e.Used := by
  refine ⟨?_, hw.1⟩
  induction t generalizing pos flag with
  | nil => exact absurd he List.not_mem_nil
  | node nops name props children nopsEnd next ihc ihn =>
    rcases List.mem_append.mp he with he | he
    · obtain ⟨howner, hflag⟩ := flagged_of_mem_propEntries he
      rw [hflag, flagged_of_isMemory (howner ▸ hw.2), Bool.or_true]
    · rcases List.mem_append.mp he with he | he
      · exact ihc he
      · exact ihn he

section Run

variable {s : MemInfo}

/-- A token of a well-formed tree can be read. -/
theorem WellFormed.valid (h : WellFormed b structOffset stringsOffset t) {nops : ℕ} :
    ∀ u ∈ t.tokens ++ List.replicate nops .nop, u.Valid b stringsOffset := by
  intro u hu
  rcases List.mem_append.mp hu with hu | hu
  · cases u with
    | nop | endNode => trivial
    | beginNode name => exact h.names name hu
    | prop p => exact ⟨(h.props p hu).1, h.nameoffs p hu, (h.props p hu).2⟩
  · rw [List.eq_of_mem_replicate hu]
    trivial

/-- **The `reg` that is used** is the first under the flag. -/
theorem memoryReg_eq (h : WellFormed b structOffset stringsOffset t) (hfuel : b.bytes.length < fuel) :
    memoryReg b fuel s =
      .ok (((t.entries structOffset false).find? fun e => e.Used).map (b.addr + ·.data), s) := by
  obtain ⟨nops, htokens⟩ := h.tokens
  have hlen := length_le_of_drop htokens (by simp [be32])
  have hsize := h.size
  have hseen : (seen structOffset false (t.tokens ++ List.replicate nops .nop)).find? (fun e => e.Used) =
      ((t.entries structOffset false).find? fun e => e.Used).map (·.toSeen) := by
    rw [seen_append, ← List.append_nil (List.replicate nops Token.nop), seen_nops, seen, List.append_nil,
      seen_tokens, List.find?_map]
    rfl
  have hwp : Act.wp (memoryReg b fuel) (fun r u => u = s ∧
      r = ((t.entries structOffset false).find? fun e => e.Used).map (b.addr + ·.data))
      (fun f => f = .spin ∧ fuel ≤ b.bytes.length) s := by
    rw [memoryReg, Act.wp_bind]
    refine Act.wp_mono (wp_fdt32 ((List.prefix_append _ _).trans h.header) (by omega)) ?_ fun _ => id
    rintro structOffset s ⟨rfl, rfl⟩
    rw [Act.wp_bind]
    refine Act.wp_mono (wp_fdt32 (drop_of_append (be32 structOffset) h.header) h.strings) ?_ fun _ => id
    rintro _ s ⟨rfl, rfl⟩
    refine Act.wp_mono (wp_walk h.bound h.size h.addr h.offset h.valid htokens) ?_ fun _ => id
    rintro r s ⟨rfl, hr⟩
    rw [hseen, Option.map_map] at hr
    exact ⟨rfl, hr⟩
  cases hrun : memoryReg b fuel s with
  | ok r =>
    have hr := Act.wp_of_ok hwp hrun
    rw [← hr.1, ← hr.2]
  | error f =>
    have hf := Act.wp_of_error hwp hrun
    omega

/-- …and its numbers are read off. -/
theorem extractMemoryInfo_some (h : WellFormed b structOffset stringsOffset t) {e : Entry}
    (he : e ∈ t.entries structOffset false) (hreg : e.IsReg)
    (hrun : memoryReg b fuel s = .ok (some (b.addr + e.data), s)) :
    extractMemoryInfo b fuel s =
      .ok (0, ⟨beWord (e.prop.data.take 8), beWord ((e.prop.data.drop 8).take 8)⟩) := by
  obtain ⟨nops, htokens⟩ := h.tokens
  have hmem : e.toSeen ∈ seen structOffset false (t.tokens ++ List.replicate nops .nop) := by
    rw [seen_append, seen_tokens]
    exact List.mem_append_left _ (List.mem_map_of_mem he)
  have hdata := data_of_mem_seen htokens hmem
  obtain ⟨base, hbase⟩ : ∃ cs, cs = e.prop.data.take 8 := ⟨_, rfl⟩
  obtain ⟨size, hsize⟩ : ∃ cs, cs = (e.prop.data.drop 8).take 8 := ⟨_, rfl⟩
  have hbaseLen : base.length = 8 := by
    rw [hbase, List.length_take, min_eq_left (by have := hreg.2; omega)]
  have hsizeLen : size.length = 8 := by
    rw [hsize, List.length_take, List.length_drop, min_eq_left (by have := hreg.2; omega)]
  have hboth : base ++ size <+: b.bytes.drop e.data := by
    refine List.IsPrefix.trans ?_ hdata
    rw [hbase, hsize, ← List.take_add]
    exact List.take_prefix _ _
  have hwp : Act.wp (extractMemoryInfo b fuel) (fun r u => r = 0 ∧ u = ⟨beWord base, beWord size⟩)
      (fun _ => False) s := by
    have hreadBase := wp_readWord (s := s) (E := fun _ => False) ((List.prefix_append base size).trans hboth)
    have hreadSize := wp_readWord (s := s) (E := fun _ => False) (drop_of_append base hboth)
    rw [hbaseLen] at hreadBase hreadSize
    rw [hsizeLen] at hreadSize
    rw [extractMemoryInfo, Act.wp_bind, Act.wp_eq_of_ok hrun]
    dsimp only
    rw [Act.wp_bind]
    refine Act.wp_mono hreadBase ?_ fun _ => id
    rintro _ s ⟨rfl, rfl⟩
    rw [Act.wp_bind, Nat.add_assoc]
    refine Act.wp_mono hreadSize ?_ fun _ => id
    rintro _ s ⟨rfl, rfl⟩
    rw [fdt64ToCpu_leWord hbaseLen, fdt64ToCpu_leWord hsizeLen]
    exact ⟨rfl, rfl⟩
  obtain ⟨r, u, hok, hr, hu⟩ := Act.wp_false_iff.mp hwp
  rw [hok, hr, hu, hbase, hsize]

theorem extractMemoryInfo_none (hrun : memoryReg b fuel s = .ok (none, s)) :
    extractMemoryInfo b fuel s = .ok (-1, s) := by
  have hwp : Act.wp (extractMemoryInfo b fuel) (fun r u => r = -1 ∧ u = s) (fun _ => False) s := by
    rw [extractMemoryInfo, Act.wp_bind, Act.wp_eq_of_ok hrun]
    exact ⟨rfl, rfl⟩
  obtain ⟨r, u, hok, hr, hu⟩ := Act.wp_false_iff.mp hwp
  rw [hok, hr, hu]

/-- **Memory is discovered** as it should be: the `reg` that is used is the first of a memory node with at
least 16 bytes, and its numbers are returned; without one, -1 is. -/
def Discovers (b : Blob) (structOffset : ℕ) (t : Forest) : Prop :=
  ∃ enough, ∀ fuel ≥ enough, ∀ s,
    match (t.entries structOffset false).find? fun e => e.Wanted with
    | some e => memoryReg b fuel s = .ok (some (b.addr + e.data), s) ∧
        extractMemoryInfo b fuel s =
          .ok (0, ⟨beWord (e.prop.data.take 8), beWord ((e.prop.data.drop 8).take 8)⟩)
    | none => extractMemoryInfo b fuel s = .ok (-1, s)

/-- …and so it is where the flag and the memory nodes give the same place. -/
theorem discovers_iff_data (h : WellFormed b structOffset stringsOffset t) :
    Discovers b structOffset t ↔
      ((t.entries structOffset false).find? fun e => e.Used).map (·.data) =
        ((t.entries structOffset false).find? fun e => e.Wanted).map (·.data) := by
  have hlift : ∀ o : Option Entry, o.map (b.addr + ·.data) = (o.map (·.data)).map (b.addr + ·) := fun o => by
    rw [Option.map_map]
    rfl
  refine ⟨fun ⟨enough, hall⟩ => ?_, fun heq => ⟨b.bytes.length + 1, fun fuel hfuel s => ?_⟩⟩
  · have hrun := hall (max enough (b.bytes.length + 1)) (le_max_left _ _) ⟨0, 0⟩
    have hreg := memoryReg_eq (s := ⟨0, 0⟩) h (show b.bytes.length < max enough (b.bytes.length + 1) by omega)
    cases hw : (t.entries structOffset false).find? fun e => e.Wanted with
    | some e =>
      rw [hw] at hrun
      have hsame := congrArg Prod.fst (Except.ok.inj (hreg.symm.trans hrun.1))
      rw [hlift] at hsame
      exact Option.map_injective (add_right_injective b.addr) hsame
    | none =>
      rw [hw] at hrun
      cases hu : (t.entries structOffset false).find? fun e => e.Used with
      | none => rfl
      | some e =>
        rw [hu] at hreg
        have hused : e.Used := by simpa using List.find?_some hu
        have hzero := extractMemoryInfo_some h (List.mem_of_find?_eq_some hu) hused.2 hreg
        exact absurd (congrArg Prod.fst (Except.ok.inj (hzero.symm.trans hrun))) (show (0 : ℤ) ≠ -1 by decide)
  · have hreg := memoryReg_eq (s := s) h (show b.bytes.length < fuel by omega)
    rw [hlift, heq] at hreg
    cases hw : (t.entries structOffset false).find? fun e => e.Wanted with
    | some e =>
      rw [hw] at hreg
      have hwanted : e.Wanted := by simpa using List.find?_some hw
      exact ⟨hreg, extractMemoryInfo_some h (List.mem_of_find?_eq_some hw) hwanted.1 hreg⟩
    | none =>
      rw [hw] at hreg
      exact extractMemoryInfo_none hreg

/-- **The memory of a device tree is found** if every `reg` that is under the flag without belonging to a
memory node comes after one that does. -/
theorem discovers_iff (h : WellFormed b structOffset stringsOffset t) :
    Discovers b structOffset t ↔
      ∀ e ∈ t.entries structOffset false, e.Used → ¬ IsMemory e.owner →
        ∃ e' ∈ t.entries structOffset false, e'.data < e.data ∧ e'.Wanted := by
  have hpair : (t.entries structOffset false).Pairwise (·.data < ·.data) := by
    have hseen := (seen_pairwise t.tokens structOffset false).2
    rw [seen_tokens] at hseen
    rwa [List.pairwise_map] at hseen
  rw [discovers_iff_data h, firstMatch_iff (fun e : Entry => e.data) hpair fun e he hw =>
    decide_eq_true (used_of_wanted he (of_decide_eq_true hw))]
  refine forall₂_congr fun e he => ?_
  simp only [decide_eq_true_iff, decide_eq_false_iff_not]
  refine forall_congr' fun hused => ?_
  have hnot : ¬ e.Wanted ↔ ¬ IsMemory e.owner := not_congr (and_iff_right hused.2)
  rw [hnot]

end Run

/-! ## A board -/

/-- The tree of a board: one node, with a `reg` of 16 bytes, under the root. -/
def boardTree (name : List UInt8) : Forest :=
  .node 0 [] [] (.node 1 name [(0, ⟨0, regName, List.replicate 7 0 ++ [128] ++ List.replicate 8 1⟩)] .nil 0 .nil)
    0 .nil

/-- …and its blob: the strings are between the header and the tree. -/
def boardBlob (name : List UInt8) : Blob :=
  ⟨4096, List.replicate 8 0 ++ be32 20 ++ be32 16 ++ regName ++ [0] ++ tokenBytes (boardTree name).tokens ++
    be32 FDT_END⟩

/-- A board is well-formed if the name is. -/
theorem wellFormed_board {name : List UInt8} (hnul : 0 ∉ name) (hlen : name.length < 2 ^ 31)
    (hsize : (boardBlob name).bytes.length < 2 ^ 32) : WellFormed (boardBlob name) 20 16 (boardTree name) := by
  have hbytes : (boardBlob name).bytes = List.replicate 8 0 ++ (be32 20 ++ (be32 16 ++ ((regName ++ [0]) ++
      (tokenBytes (boardTree name).tokens ++ be32 FDT_END)))) := by
    simp only [boardBlob, List.append_assoc]
  have htokens : (boardTree name).tokens = [.beginNode [], .nop, .beginNode name,
      .prop ⟨0, regName, List.replicate 7 0 ++ [128] ++ List.replicate 8 1⟩, .endNode, .endNode] := rfl
  refine ⟨hsize, ?_, show 4 ∣ 4096 by decide, by decide, by decide, ?_, ⟨0, ?_⟩, fun u hu => ?_, fun p hp => ?_,
    fun p hp => ?_⟩
  · change 4096 + _ ≤ _
    omega
  · rw [hbytes]
    exact ⟨_, List.append_assoc _ _ _⟩
  · rw [hbytes]
    exact ⟨[], by rw [List.replicate_zero, List.append_nil, List.append_nil]; rfl⟩
  · rw [htokens] at hu
    simp only [List.mem_cons, Token.beginNode.injEq, reduceCtorEq, List.not_mem_nil, or_false, false_or] at hu
    rcases hu with rfl | rfl
    · decide
    · exact ⟨hnul, hlen⟩
  · rw [htokens] at hp
    simp only [List.mem_cons, Token.prop.injEq, reduceCtorEq, List.not_mem_nil, or_false, false_or] at hp
    subst hp
    exact ⟨by decide, hbytes ▸ ⟨_, rfl⟩⟩
  · rw [htokens] at hp
    simp only [List.mem_cons, Token.prop.injEq, reduceCtorEq, List.not_mem_nil, or_false, false_or] at hp
    subst hp
    decide

/-- The memory of a board is found, as an example. -/
theorem discovers_board : Discovers (boardBlob (memoryName ++ [64, 48])) 20 (boardTree (memoryName ++ [64, 48])) :=
  (discovers_iff (wellFormed_board (by decide) (by decide) (by decide +kernel))).mpr (by decide +kernel)

/-- **A node whose name only begins with `memory`** is taken for one: here `memory-controller`. -/
theorem not_discovers_controller :
    WellFormed (boardBlob ("memory-controller".toList.map Char.toUInt8)) 20 16
        (boardTree ("memory-controller".toList.map Char.toUInt8)) ∧
      ¬ Discovers (boardBlob ("memory-controller".toList.map Char.toUInt8)) 20
        (boardTree ("memory-controller".toList.map Char.toUInt8)) := by
  have hwf : WellFormed (boardBlob ("memory-controller".toList.map Char.toUInt8)) 20 16
      (boardTree ("memory-controller".toList.map Char.toUInt8)) :=
    wellFormed_board (by decide) (by decide) (by decide +kernel)
  refine ⟨hwf, fun h => ?_⟩
  exact absurd ((discovers_iff_data hwf).mp h) (by decide +kernel)

end UCore.Dtb
