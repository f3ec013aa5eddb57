import Mathlib.Data.List.GetD
import UCore.Driver.Dtb

/-!
# Driver/DeviceTree — device trees as they are in memory

    NOP… BEGIN name  (NOP… PROP …)…  subnodes…  NOP… END      a node;  then its next sibling

A token is as many words long as it needs.  The cursor of `extract_memory_info` goes from token to token,
and its flag is a matter of the tokens before it.
-/

namespace UCore.Dtb

/-! ## Numbers -/

/-- The number with these digits, the lowest byte first. -/
def leWord (cs : List UInt8) : ℕ := cs.foldr (fun c v => c.toNat + 256 * v) 0

/-- …and the highest byte first. -/
def beWord (cs : List UInt8) : ℕ := cs.foldl (fun v c => 256 * v + c.toNat) 0

/-- A 32-bit number, the highest byte first. -/
def be32 (n : ℕ) : List UInt8 := [n / 2 ^ 24, n / 2 ^ 16, n / 2 ^ 8, n].map UInt8.ofNat

theorem beWord_be32 {n : ℕ} (h : n < 2 ^ 32) : beWord (be32 n) = n := by
  simp only [beWord, be32, List.map_cons, List.map_nil, List.foldl_cons, List.foldl_nil, UInt8.toNat_ofNat']
  omega

theorem leWord_lt (cs : List UInt8) : leWord cs < 256 ^ cs.length := by
  induction cs with
  | nil => exact Nat.one_pos
  | cons c cs ih =>
    have := c.toNat_lt
    rw [List.length_cons, pow_succ]
    change c.toNat + 256 * leWord cs < _
    omega

theorem beWord_concat (cs : List UInt8) (d : UInt8) : beWord (cs ++ [d]) = 256 * beWord cs + d.toNat := by
  rw [beWord, List.foldl_append]
  rfl

theorem beWord_lt (cs : List UInt8) : beWord cs < 256 ^ cs.length := by
  induction cs using List.reverseRecOn with
  | nil => exact Nat.one_pos
  | append_singleton cs c ih =>
    have := c.toNat_lt
    rw [beWord_concat, List.length_append, List.length_singleton, pow_succ]
    omega

theorem beWord_append (cs ds : List UInt8) : beWord (cs ++ ds) = 256 ^ ds.length * beWord cs + beWord ds := by
  induction ds using List.reverseRecOn with
  | nil => simp [beWord]
  | append_singleton ds d ih =>
    rw [← List.append_assoc, beWord_concat, beWord_concat, ih, List.length_append, List.length_singleton, pow_succ]
    ring

theorem leWord_append (cs ds : List UInt8) : leWord (cs ++ ds) = leWord cs + 256 ^ cs.length * leWord ds := by
  induction cs with
  | nil => simp [leWord]
  | cons c cs ih =>
    change c.toNat + 256 * leWord (cs ++ ds) = c.toNat + 256 * leWord cs + _
    rw [ih, List.length_cons, pow_succ]
    ring

/-- Four bytes, put together. -/
theorem or_bytes {x y z w : ℕ} (hy : y < 256) (hz : z < 256) (hw : w < 256) :
    (x <<< 24) ||| (y <<< 16) ||| (z <<< 8) ||| w = 256 * (256 * (256 * x + y) + z) + w := by
  have hxy : (x <<< 24) ||| (y <<< 16) = (256 * x + y) <<< 16 := by
    rw [← Nat.shiftLeft_add_eq_or_of_lt (by rw [Nat.shiftLeft_eq]; omega)]
    simp only [Nat.shiftLeft_eq]
    ring
  have hxyz : ((256 * x + y) <<< 16) ||| (z <<< 8) = (256 * (256 * x + y) + z) <<< 8 := by
    rw [← Nat.shiftLeft_add_eq_or_of_lt (by rw [Nat.shiftLeft_eq]; omega)]
    simp only [Nat.shiftLeft_eq]
    ring
  rw [hxy, hxyz, ← Nat.shiftLeft_add_eq_or_of_lt (by omega), Nat.shiftLeft_eq]
  ring

/-- **`fdt32_to_cpu`** turns the bytes around… -/
theorem fdt32ToCpu_leWord {cs : List UInt8} (h : cs.length = 4) : fdt32ToCpu (leWord cs) = beWord cs := by
  obtain ⟨x, y, z, w, rfl⟩ := List.length_eq_four.mp h
  have hx := x.toNat_lt
  have hy := y.toNat_lt
  have hz := z.toNat_lt
  have hw := w.toNat_lt
  have hmask : ∀ v, v &&& 0xff = v % 256 := fun v => Nat.and_two_pow_sub_one_eq_mod v 8
  have hle : leWord [x, y, z, w] = x.toNat + 256 * (y.toNat + 256 * (z.toNat + 256 * (w.toNat + 256 * 0))) := rfl
  have hbytes : leWord [x, y, z, w] % 256 = x.toNat ∧ leWord [x, y, z, w] / 2 ^ 8 % 256 = y.toNat ∧
      leWord [x, y, z, w] / 2 ^ 16 % 256 = z.toNat ∧ leWord [x, y, z, w] / 2 ^ 24 % 256 = w.toNat := by
    omega
  obtain ⟨hbx, hby, hbz, hbw⟩ := hbytes
  simp only [fdt32ToCpu, hmask, Nat.shiftRight_eq_div_pow, hbx, hby, hbz, hbw]
  rw [or_bytes hy hz hw]
  simp only [beWord, List.foldl_cons, List.foldl_nil, Nat.mul_zero, Nat.zero_add]

/-- …and so does `fdt64_to_cpu`. -/
theorem fdt64ToCpu_leWord {cs : List UInt8} (h : cs.length = 8) : fdt64ToCpu (leWord cs) = beWord cs := by
  have hlo : (cs.take 4).length = 4 := by
    rw [List.length_take]
    omega
  have hhi : (cs.drop 4).length = 4 := by
    rw [List.length_drop]
    omega
  have hlt := leWord_lt (cs.take 4)
  have hlt' := leWord_lt (cs.drop 4)
  have hbe := beWord_lt (cs.drop 4)
  have hmask : ∀ v, v &&& 0xffffffff = v % 2 ^ 32 := fun v => Nat.and_two_pow_sub_one_eq_mod v 32
  rw [hlo] at hlt
  rw [hhi] at hlt' hbe
  rw [← List.take_append_drop 4 cs, leWord_append, beWord_append, hlo, hhi, fdt64ToCpu, hmask,
    Nat.shiftRight_eq_div_pow]
  have hmod : (leWord (cs.take 4) + 256 ^ 4 * leWord (cs.drop 4)) % 2 ^ 32 = leWord (cs.take 4) := by omega
  have hdiv : (leWord (cs.take 4) + 256 ^ 4 * leWord (cs.drop 4)) / 2 ^ 32 = leWord (cs.drop 4) := by omega
  rw [hmod, hdiv, u32_of_lt (by omega), fdt32ToCpu_leWord hlo, fdt32ToCpu_leWord hhi,
    ← Nat.shiftLeft_add_eq_or_of_lt (by exact hbe), Nat.shiftLeft_eq]
  ring

/-! ## Trees -/

/-- A property, with the offset of its name in the strings block. -/
structure Property where
  nameoff : ℕ
  name : List UInt8
  data : List UInt8

/-- **The nodes with one parent**: the first, with what is in it, and its next siblings.  A number of `NOP`s
goes before every token. -/
inductive Forest where
  | nil
  | node (nops : ℕ) (name : List UInt8) (props : List (ℕ × Property)) (children : Forest) (nopsEnd : ℕ)
      (next : Forest)

/-- The tokens, but `FDT_END`. -/
inductive Token where
  | nop
  | beginNode (name : List UInt8)
  | prop (p : Property)
  | endNode

/-- Padded to whole words. -/
def aligned (cs : List UInt8) : List UInt8 := cs ++ List.replicate ((4 - cs.length % 4) % 4) 0

/-- A token, as it is in the structure block. -/
def Token.bytes : Token → List UInt8
  | nop => be32 FDT_NOP
  | beginNode name => be32 FDT_BEGIN_NODE ++ aligned (name ++ [0])
  | prop p => be32 FDT_PROP ++ (be32 p.data.length ++ (be32 p.nameoff ++ aligned p.data))
  | endNode => be32 FDT_END_NODE

/-- Tokens, as they are in the structure block. -/
def tokenBytes (ts : List Token) : List UInt8 := ts.flatMap Token.bytes

/-- The tokens of properties. -/
def propTokens (props : List (ℕ × Property)) : List Token :=
  props.flatMap fun q => List.replicate q.1 .nop ++ [.prop q.2]

/-- **The tokens of a forest.** -/
def Forest.tokens : Forest → List Token
  | nil => []
  | node nops name props children nopsEnd next =>
    List.replicate nops .nop ++ (.beginNode name :: (propTokens props ++ (children.tokens ++
      (List.replicate nopsEnd .nop ++ (.endNode :: next.tokens)))))

/-! ## The properties of a tree -/

/-- A node is a memory node: `memory`, or `memory@` and an address. -/
def IsMemory (name : List UInt8) : Prop := name = memoryName ∨ memoryName ++ [64] <+: name

instance (name : List UInt8) : Decidable (IsMemory name) := inferInstanceAs (Decidable (_ ∨ _))

/-- A property as the walk meets it: the offset of its data, and the flag. -/
structure Seen where
  data : ℕ
  flagged : Bool
  prop : Property

/-- A property of a tree: the node that it belongs to, by name. -/
structure Entry extends Seen where
  owner : List UInt8

/-- A `reg` of at least 16 bytes. -/
def Seen.IsReg (e : Seen) : Prop := e.prop.name = regName ∧ 16 ≤ e.prop.data.length

instance (e : Seen) : Decidable e.IsReg := inferInstanceAs (Decidable (_ ∧ _))

/-- The properties of one node, from the offset `pos` on. -/
def propEntries (owner : List UInt8) (flag : Bool) : ℕ → List (ℕ × Property) → List Entry
  | _, [] => []
  | pos, (nops, p) :: props =>
    ⟨⟨pos + 4 * nops + 12, flag, p⟩, owner⟩ ::
      propEntries owner flag (pos + (tokenBytes (List.replicate nops .nop ++ [.prop p])).length) props

/-- **The properties of a forest**, in order.  A node is flagged if its name begins with `memory`, or if it
is the first subnode of a node that is. -/
def Forest.entries : Forest → ℕ → Bool → List Entry
  | nil, _, _ => []
  | node nops name props children nopsEnd next, pos, flag =>
    let flagged := flag || memoryName.isPrefixOf name
    let posProps := pos + (tokenBytes (List.replicate nops .nop ++ [.beginNode name])).length
    let posChildren := posProps + (tokenBytes (propTokens props)).length
    let posNext := posChildren +
      (tokenBytes (children.tokens ++ (List.replicate nopsEnd .nop ++ [.endNode]))).length
    propEntries name flagged posProps props ++
      (children.entries posChildren flagged ++ next.entries posNext false)

/-- **A device tree in a blob**, as the format has it. -/
structure WellFormed (b : Blob) (structOffset stringsOffset : ℕ) (t : Forest) : Prop where
  size : b.bytes.length < 2 ^ 32
  bound : b.addr + b.bytes.length ≤ 2 ^ 64
  addr : 4 ∣ b.addr
  offset : 4 ∣ structOffset
  strings : stringsOffset < 2 ^ 32
  header : be32 structOffset ++ be32 stringsOffset <+: b.bytes.drop 8
  tokens : ∃ nops, tokenBytes (t.tokens ++ List.replicate nops .nop) ++ be32 FDT_END <+: b.bytes.drop structOffset
  names : ∀ name, .beginNode name ∈ t.tokens → 0 ∉ name ∧ name.length < 2 ^ 31
  props : ∀ p, .prop p ∈ t.tokens → 0 ∉ p.name ∧ p.name ++ [0] <+: b.bytes.drop (stringsOffset + p.nameoff)
  nameoffs : ∀ p, .prop p ∈ t.tokens → p.nameoff < 2 ^ 32

end UCore.Dtb
