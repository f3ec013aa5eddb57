import UCore.Libs.Defs
import UCore.Machinery.Act

/-!
# Driver/Dtb — the memory node of the device tree

`kern/driver/dtb.c`.  The blob lies at `addr`, and every read is checked against its two ends:

    header        structure block: tokens, at off_dt_struct        strings, at off_dt_strings

Numbers in it have their highest byte first; the machine reads the lowest byte first.
-/

namespace UCore.Dtb

/-- What can go wrong: a read outside the blob, or a loop that does not end. -/
inductive Fault where
  | outside
  | spin
  deriving DecidableEq, Repr

/-- The blob, at `dtb_vaddr`. -/
structure Blob where
  addr : ℕ
  bytes : List UInt8

/-- `*mem_base` and `*mem_size`. -/
structure MemInfo where
  memBase : ℕ
  memSize : ℕ
  deriving DecidableEq, Repr

/-- A call of the driver. -/
abbrev Call (α : Type) := Act MemInfo Fault α

/-- `FDT_BEGIN_NODE`. -/
abbrev FDT_BEGIN_NODE : ℕ := 1

/-- `FDT_END_NODE`. -/
abbrev FDT_END_NODE : ℕ := 2

/-- `FDT_PROP`. -/
abbrev FDT_PROP : ℕ := 3

/-- `FDT_NOP`. -/
abbrev FDT_NOP : ℕ := 4

/-- `FDT_END`. -/
abbrev FDT_END : ℕ := 9

/-- `"memory"`. -/
def memoryName : List UInt8 := "memory".toList.map Char.toUInt8

/-- `"reg"`. -/
def regName : List UInt8 := "reg".toList.map Char.toUInt8

/-- `fdt32_to_cpu`. -/
def fdt32ToCpu (x : ℕ) : ℕ :=
  ((x &&& 0xff) <<< 24) ||| (((x >>> 8) &&& 0xff) <<< 16) ||| (((x >>> 16) &&& 0xff) <<< 8) |||
    ((x >>> 24) &&& 0xff)

/-- `fdt64_to_cpu`. -/
def fdt64ToCpu (x : ℕ) : ℕ := (fdt32ToCpu (x &&& 0xffffffff) <<< 32) ||| fdt32ToCpu (u32 (x >>> 32))

/-! ## Reading -/

/-- A read of one byte. -/
def read8 (b : Blob) (p : ℕ) : Call UInt8 := do
  Act.require .outside (b.addr ≤ p ∧ p - b.addr < b.bytes.length)
  return b.bytes.getD (p - b.addr) 0

/-- A read of `n` bytes, the lowest first. -/
def readWord (b : Blob) : ℕ → ℕ → Call ℕ
  | 0, _ => return 0
  | n + 1, p => do
    let c ← read8 b p
    let v ← readWord b n (p + 1)
    return c.toNat + 256 * v

/-- `strlen`. -/
def strlen (b : Blob) (fuel s : ℕ) : Call ℕ :=
  Act.loop .spin (fun cnt => do
    let c ← read8 b (s + cnt)
    if c ≠ 0 then
      pure (.inl (cnt + 1))
    else
      pure (.inr cnt)) fuel 0

/-- `strncmp` or `strcmp` with a constant: are the characters at `s` those of `cs`? -/
def agrees (b : Blob) : ℕ → List UInt8 → Call Bool
  | _, [] => return true
  | s, c :: cs => do
    let d ← read8 b s
    if d = c then
      agrees b (s + 1) cs
    else
      return false

/-! ## `extract_memory_info` -/

/-- One token: the flag and the cursor behind it, or the end, with the data of the `reg` that was found. -/
def step (b : Blob) (stringsBase fuel : ℕ) (inMemoryNode : Bool) (structPtr : ℕ) :
    Call ((Bool × ℕ) ⊕ Option ℕ) := do
  let token ← fdt32ToCpu <$> readWord b 4 structPtr
  let structPtr := structPtr + 4
  if token = FDT_BEGIN_NODE then
    let nameLen ← strlen b fuel structPtr
    let isMemory ← agrees b structPtr memoryName
    return .inl (inMemoryNode || isMemory, roundDown (toU64 (structPtr + toS32 nameLen + 4)) 4)
  else if token = FDT_END_NODE then
    return .inl (false, structPtr)
  else if token = FDT_PROP then
    let propLen ← fdt32ToCpu <$> readWord b 4 structPtr
    let propNameoff ← fdt32ToCpu <$> readWord b 4 (structPtr + 4)
    let propName := stringsBase + propNameoff
    let propData := structPtr + 8
    let isReg ← (if inMemoryNode then agrees b propName (regName ++ [0]) else pure false : Call Bool)
    if isReg ∧ propLen ≥ 16 then
      return .inr (some propData)
    else
      return .inl (inMemoryNode, roundDown (u64 (propData + propLen + 3)) 4)
  else if token = FDT_NOP then
    return .inl (inMemoryNode, structPtr)
  else
    return .inr none

/-- Where the data of the `reg` is that `extract_memory_info` uses. -/
def memoryReg (b : Blob) (fuel : ℕ) : Call (Option ℕ) := do
  let structOffset ← fdt32ToCpu <$> readWord b 4 (b.addr + 8)
  let stringsOffset ← fdt32ToCpu <$> readWord b 4 (b.addr + 12)
  Act.loop .spin (fun s => step b (b.addr + stringsOffset) fuel s.1 s.2) fuel (false, b.addr + structOffset)

/-- `extract_memory_info`. -/
def extractMemoryInfo (b : Blob) (fuel : ℕ) : Call ℤ := do
  match ← memoryReg b fuel with
  | none => return -1
  | some regData =>
    let base ← readWord b 8 regData
    let size ← readWord b 8 (regData + 8)
    set ({ memBase := fdt64ToCpu base, memSize := fdt64ToCpu size } : MemInfo)
    return 0

end UCore.Dtb
