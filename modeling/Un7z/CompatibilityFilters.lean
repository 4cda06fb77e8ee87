/-
The filters of `decode/phase5_filters.rs`: byte swaps, ARM Thumb, IA-64 and RISC-V.
-/
import Un7z.Execute
import Un7z.FilterWords

namespace Un7z

namespace CompatibilityFilters

open Filters

def readU32Le (bytes : Bytes) (offset : Nat) : Work UInt32 := do
  let word ← readSlice "compatibility filter word range overflows"
    "compatibility filter word is truncated" 4 bytes offset
  pure (u32FromLe word)

def readU32Be (bytes : Bytes) (offset : Nat) : Work UInt32 := do
  let word ← readSlice "compatibility filter word range overflows"
    "compatibility filter word is truncated" 4 bytes offset
  pure (u32FromBe word)

def writeU32Le (bytes : Bytes) (offset : Nat) (value : UInt32) : Work Bytes :=
  writeSlice "compatibility filter word range overflows" "compatibility filter word is truncated"
    bytes offset (u32ToLe value)

/-- Six bytes; the shifts by `0, 8, .., 40` are all below 64. -/
def readU48Le (bytes : Bytes) (offset : Nat) : Work UInt64 := do
  let instruction ← readSlice "IA64 instruction range overflows" "IA64 instruction is truncated" 6
    bytes offset
  pure (UInt64.ofNat (leValue instruction))

def writeU48Le (bytes : Bytes) (offset : Nat) (value : UInt64) : Work Bytes :=
  writeSlice "IA64 instruction range overflows" "IA64 instruction is truncated" bytes offset
    [value.toUInt8, (value >>> 8).toUInt8, (value >>> 16).toUInt8, (value >>> 24).toUInt8,
      (value >>> 32).toUInt8, (value >>> 40).toUInt8]

/-- The offset modulo `2 ^ 32`. -/
def lowU32Offset (offset : Nat) : Work UInt32 :=
  orFormat ((tryFrom 32 (offset &&& (2 ^ 32 - 1))).map UInt32.ofNat)
    "filter offset is not representable as u32"

/-! ### Byte swaps -/

/-- `chunks_exact_mut`: the chunks of full width are reversed, the tail is left alone. -/
def swapChunks (width : Nat) : List Bytes → Work Bytes
  | [] => pure []
  | chunk :: rest => do
      if chunk.length = width then do
        checkpoint width
        let rest ← swapChunks width rest
        pure (chunk.reverse ++ rest)
      else
        pure (chunk ++ rest.flatten)

def decodeSwap (width : Nat) (properties : Bytes) : InPlace := fun bytes =>
  if properties ≠ [] then
    formatErr "Swap filter properties must be empty"
  else if width ≠ 2 ∧ width ≠ 4 then
    formatErr "Swap filter width is invalid"
  else
    swapChunks width (chunks width bytes)

/-! ### ARM Thumb -/

/-- Rewrite the pair of half words at the offset, whose second and fourth byte are known. -/
def convertArmThumb (start : UInt32) (offset : Nat) (second fourth : UInt8) : InPlace :=
  fun bytes => do
    let first ← byteAt bytes offset "ARM Thumb instruction is truncated"
    let index ← addOffset offset 2 "ARM Thumb index overflows"
    let third ← byteAt bytes index "ARM Thumb instruction is truncated"
    let source := (second &&& 7).toUInt32 <<< 19 ||| first.toUInt32 <<< 11
      ||| (fourth &&& 7).toUInt32 <<< 8 ||| third.toUInt32
    let source := source <<< 1
    let low ← lowU32Offset offset
    let destination := (source - (start + low + 4)) >>> 1
    let byte₀ ← wordToByte ((destination >>> 11) &&& 0xff) "ARM Thumb byte is not representable"
    let byte₁ ← wordToByte ((destination >>> 19) &&& 7) "ARM Thumb byte is not representable"
    let byte₂ ← wordToByte (destination &&& 0xff) "ARM Thumb byte is not representable"
    let byte₃ ← wordToByte ((destination >>> 8) &&& 7) "ARM Thumb byte is not representable"
    writeSlice "ARM Thumb range overflows" "ARM Thumb instruction is truncated" bytes offset
      [byte₀, 0xf0 ||| byte₁, byte₂, 0xf8 ||| byte₃]

/-- One round of the loop: the rewritten bytes and the next offset. -/
def armThumbRound (start : UInt32) (offset : Nat) (bytes : Bytes) : Work (Bytes × Nat) := do
  checkpoint 2
  let index ← addOffset offset 1 "ARM Thumb index overflows"
  let second ← byteAt bytes index "ARM Thumb instruction is truncated"
  let index ← addOffset offset 3 "ARM Thumb index overflows"
  let fourth ← byteAt bytes index "ARM Thumb instruction is truncated"
  if second &&& 0xf8 = 0xf0 ∧ fourth &&& 0xf8 = 0xf8 then do
    let bytes ← convertArmThumb start offset second fourth bytes
    let offset ← addOffset offset 2 "ARM Thumb position overflows"
    let offset ← addOffset offset 2 "ARM Thumb position overflows"
    pure (bytes, offset)
  else do
    let offset ← addOffset offset 2 "ARM Thumb position overflows"
    pure (bytes, offset)

/-- A loop that goes on while the offset is at most the last one; every round advances it. -/
def scanWhile (round : Nat → Bytes → Work (Bytes × Nat)) (scanEnd : Nat) :
    Nat → Nat → Bytes → Work Bytes
  | 0, _, _ => formatErr "filter scan does not advance"
  | fuel + 1, offset, bytes =>
      if offset ≤ scanEnd then do
        let (bytes, offset) ← round offset bytes
        scanWhile round scanEnd fuel offset bytes
      else
        pure bytes

def decodeArmThumb (properties : Bytes) : InPlace := fun bytes =>
  if bytes.length < 4 then
    pure bytes
  else do
    let start ← startingPosition properties
    let scanEnd ← orFormat (checkedSub bytes.length 4) "ARM Thumb scan bound underflows"
    scanWhile (armThumbRound start) scanEnd (bytes.length + 1) 0 bytes

/-! ### IA-64 -/

def ia64BranchTable : List UInt8 :=
  [0, 0, 0, 0, 0, 0, 0, 0, 0, 0, 0, 0, 0, 0, 0, 0, 4, 4, 6, 6, 0, 0, 7, 7, 4, 4, 0, 0, 4, 4, 0, 0]

/-- The instruction word with its branch target made relative; `none` where it is no branch. -/
def convertIa64 (start low : UInt32) (instruction : UInt64) (bitRemainder : Nat) :
    Option UInt64 :=
  let shift := UInt64.ofNat bitRemainder
  let normalized := instruction >>> shift
  if (normalized >>> 37) &&& 0x0f = 5 ∧ (normalized >>> 9) &&& 7 = 0 then
    let lowBits := ((normalized >>> 13) &&& 0x000fffff).toUInt32
    let high := ((normalized >>> 36) &&& 1).toUInt32
    let source := (lowBits ||| high <<< 20) <<< 4
    let destination := (source - (start + low)) >>> 4
    let normalized := normalized &&& ~~~((0x008fffff : UInt64) <<< 13)
    let normalized := normalized ||| (destination &&& 0x000fffff).toUInt64 <<< 13
    let normalized := normalized ||| (destination &&& 0x00100000).toUInt64 <<< 16
    let lowMask := (1 : UInt64) <<< shift - 1
    some ((instruction &&& lowMask) ||| normalized <<< shift)
  else
    none

/-- The three slots of a bundle, each 41 bits wide. -/
def ia64Slots (start : UInt32) (offset : Nat) (branchMask : UInt8) :
    List Nat → Nat → Bytes → Work Bytes
  | [], _, bytes => pure bytes
  | slot :: slots, bitPosition, bytes => do
      checkpoint 1
      let selected ← orFormat (checkedShl 8 1 slot) "IA64 slot mask overflows"
      if branchMask &&& UInt8.ofNat selected = 0 then do
        let bitPosition ← orFormat (checkedAdd 32 bitPosition 41) "IA64 bit position overflows"
        ia64Slots start offset branchMask slots bitPosition bytes
      else do
        let instructionOffset ← addOffset offset (bitPosition >>> 3)
          "IA64 instruction offset overflows"
        let instruction ← readU48Le bytes instructionOffset
        let low ← lowU32Offset offset
        match convertIa64 start low instruction (bitPosition &&& 7) with
        | some converted => do
            let bytes ← writeU48Le bytes instructionOffset converted
            let bitPosition ← orFormat (checkedAdd 32 bitPosition 41) "IA64 bit position overflows"
            ia64Slots start offset branchMask slots bitPosition bytes
        | none => do
            let bitPosition ← orFormat (checkedAdd 32 bitPosition 41) "IA64 bit position overflows"
            ia64Slots start offset branchMask slots bitPosition bytes

def ia64Bundles (start : UInt32) (processBytes : Nat) : Nat → Nat → Bytes → Work Bytes
  | 0, _, _ => formatErr "filter scan does not advance"
  | fuel + 1, offset, bytes =>
      if offset < processBytes then do
        checkpoint 16
        let first ← byteAt bytes offset "IA64 bundle is truncated"
        let branchMask ← orFormat ia64BranchTable[(first &&& 0x1f).toNat]?
          "IA64 bundle template is out of range"
        let bytes ← ia64Slots start offset branchMask [0, 1, 2] 5 bytes
        let offset ← addOffset offset 16 "IA64 bundle offset overflows"
        ia64Bundles start processBytes fuel offset bytes
      else
        pure bytes

def decodeIa64 (properties : Bytes) : InPlace := fun bytes => do
  let start ← startingPosition properties
  let processBytes ← orFormat (checkedMul 64 (bytes.length / 16) 16) "IA64 scan size overflows"
  ia64Bundles start processBytes (bytes.length + 1) 0 bytes

/-! ### RISC-V -/

def isNotAuipcPair (auipc second : UInt32) : Bool :=
  (auipc <<< 8 ^^^ (second - 3)) &&& 0x000f8003 ≠ 0

def isNotSpecialAuipc (auipc secondRs1 : UInt32) : Bool :=
  (auipc - 0x3117) <<< 18 ≥ secondRs1 &&& 0x1d

/-- A `JAL` at the offset, of which the first two bytes are known. -/
def convertJal (start : UInt32) (offset : Nat) (first second : UInt8) : InPlace := fun bytes => do
  let index ← addOffset offset 2 "RISC-V index overflows"
  let third ← byteAt bytes index "RISC-V JAL is truncated"
  let index ← addOffset offset 3 "RISC-V index overflows"
  let fourth ← byteAt bytes index "RISC-V JAL is truncated"
  let low ← lowU32Offset offset
  let address := (second &&& 0xf0).toUInt32 <<< 13 ||| third.toUInt32 <<< 9
    ||| fourth.toUInt32 <<< 1
  let address := address - (start + low)
  let byte₁ ← wordToByte ((address >>> 8) &&& 0xf0) "RISC-V JAL byte is not representable"
  let bits₁₁ : UInt32 := (address >>> 16) &&& 0x0f
  let bits₁₂ : UInt32 := (address >>> 7) &&& 0x10
  let bits₁₃ : UInt32 := (address <<< 4) &&& 0xe0
  let byte₂ ← wordToByte (bits₁₁ ||| bits₁₂ ||| bits₁₃) "RISC-V JAL byte is not representable"
  let bits₂₁ : UInt32 := (address >>> 4) &&& 0x7f
  let bits₂₂ : UInt32 := (address >>> 13) &&& 0x80
  let byte₃ ← wordToByte (bits₂₁ ||| bits₂₂) "RISC-V JAL byte is not representable"
  writeSlice "RISC-V JAL range overflows" "RISC-V JAL is truncated" bytes offset
    [first, (second &&& 0x0f) ||| byte₁, byte₂, byte₃]

/-- Write back both words of a pair and pass them. -/
def writePair (offset : Nat) (instruction second : UInt32) (bytes : Bytes) :
    Work (Bytes × Nat) := do
  let bytes ← writeU32Le bytes offset instruction
  let pairOffset ← addOffset offset 4 "RISC-V pair offset overflows"
  let bytes ← writeU32Le bytes pairOffset second
  let offset ← addOffset offset 8 "RISC-V position overflows"
  pure (bytes, offset)

/-- An `AUIPC` at the offset. -/
def convertAuipc (start : UInt32) (offset : Nat) (bytes : Bytes) : Work (Bytes × Nat) := do
  let instruction ← readU32Le bytes offset
  if instruction &&& 0x0e80 ≠ 0 then do
    let pairOffset ← addOffset offset 4 "RISC-V pair offset overflows"
    let second ← readU32Le bytes pairOffset
    if isNotAuipcPair instruction second then do
      let offset ← addOffset offset 6 "RISC-V position overflows"
      pure (bytes, offset)
    else
      let upper : UInt32 := instruction &&& 0xfffff000
      let address := upper + second >>> (20 : UInt32)
      writePair offset ((0x17 : UInt32) ||| (2 : UInt32) <<< (7 : UInt32) ||| second <<< (12 : UInt32))
        address bytes
  else do
    let secondRs1 := instruction >>> 27
    if isNotSpecialAuipc instruction secondRs1 then do
      let offset ← addOffset offset 4 "RISC-V position overflows"
      pure (bytes, offset)
    else do
      let addressOffset ← addOffset offset 4 "RISC-V pair offset overflows"
      let low ← lowU32Offset offset
      let word ← readU32Be bytes addressOffset
      let address := word - (start + low)
      let upper : UInt32 := (address + 0x800) &&& 0xfffff000
      writePair offset ((0x17 : UInt32) ||| secondRs1 <<< (7 : UInt32) ||| upper)
        (instruction >>> (12 : UInt32) ||| address <<< (20 : UInt32)) bytes

def riscvRound (start : UInt32) (offset : Nat) (bytes : Bytes) : Work (Bytes × Nat) := do
  checkpoint 2
  let first ← byteAt bytes offset "RISC-V instruction is truncated"
  if first = 0xef then do
    let index ← addOffset offset 1 "RISC-V index overflows"
    let second ← byteAt bytes index "RISC-V JAL is truncated"
    if second &&& 0x0d = 0 then do
      let bytes ← convertJal start offset first second bytes
      let offset ← addOffset offset 4 "RISC-V position overflows"
      pure (bytes, offset)
    else do
      let offset ← addOffset offset 2 "RISC-V position overflows"
      pure (bytes, offset)
  else if first &&& 0x7f = 0x17 then
    convertAuipc start offset bytes
  else do
    let offset ← addOffset offset 2 "RISC-V position overflows"
    pure (bytes, offset)

def decodeRiscv (properties : Bytes) : InPlace := fun bytes =>
  if bytes.length < 8 then
    pure bytes
  else do
    let start ← startingPosition properties
    let scanEnd ← orFormat (checkedSub bytes.length 8) "RISC-V scan bound underflows"
    scanWhile (riscvRound (start &&& ~~~1)) scanEnd (bytes.length + 1) 0 bytes

/-! ### Dispatch -/

def decodePhase5Filter (method properties : Bytes) : InPlace := fun bytes =>
  if method = methodIa64 then
    decodeIa64 properties bytes
  else if method = methodArmThumb then
    decodeArmThumb properties bytes
  else if method = methodRiscv then
    decodeRiscv properties bytes
  else if method = methodSwap2 then
    decodeSwap 2 properties bytes
  else if method = methodSwap4 then
    decodeSwap 4 properties bytes
  else
    Metered.fail (.unsupportedMethod method)

end CompatibilityFilters

end Un7z
