/-
The filters of `decode/filters.rs`: Delta, x86, PowerPC, ARM, ARM64, SPARC, and the
dispatch of `decode_filter` over these and the compatibility filters.
-/
import Un7z.CompatibilityFilters

namespace Un7z

namespace Filters

def readU32Le (bytes : Bytes) (offset : Nat) : Work UInt32 := do
  let word ← readSlice "filter word range overflows" "filter word is truncated" 4 bytes offset
  pure (u32FromLe word)

def readU32Be (bytes : Bytes) (offset : Nat) : Work UInt32 := do
  let word ← readSlice "filter word range overflows" "filter word is truncated" 4 bytes offset
  pure (u32FromBe word)

def writeWord (bytes : Bytes) (offset : Nat) (word : Bytes) : Work Bytes :=
  writeSlice "filter word range overflows" "filter word is truncated" bytes offset word

/-! ### Delta -/

/-- The loop of `decode_delta`; the position is a `u8` and wraps. -/
def deltaFrom (distance : Nat) : List UInt8 → UInt8 → Bytes → Work Bytes
  | _, _, [] => pure []
  | history, position, byte :: rest => do
      checkpoint 1
      let sum ← orFormat (checkedAdd 64 distance position.toNat) "Delta history index overflows"
      let previous ← byteAt history (sum &&& 255) "Delta history index is out of range"
      let byte := byte + previous
      if position.toNat &&& 255 < history.length then do
        let rest ← deltaFrom distance (history.set (position.toNat &&& 255) byte) (position - 1) rest
        pure (byte :: rest)
      else
        formatErr "Delta history destination is out of range"

def decodeDelta (properties : Bytes) : InPlace := fun bytes =>
  match properties with
  | [property] => do
      let distance ← orFormat (checkedAdd 64 property.toNat 1) "Delta distance overflows"
      deltaFrom distance (List.replicate 256 0) 0 bytes
  | _ => formatErr "Delta properties must contain exactly one byte"

/-! ### x86 -/

def testX86Msb (byte : UInt8) : Bool := (byte + 1) &&& 0xfe = 0

/-- The opcode of a call or a jump. -/
def isX86Branch (byte : UInt8) : Bool := byte &&& 0xfe = 0xe8

/-- The inner loop of `decode_x86_bcj`: the next branch opcode, or the end of the scan. -/
def scanBranch (scanEnd : Nat) (bytes : Bytes) : Nat → Nat → Work Nat
  | 0, _ => formatErr "filter scan does not advance"
  | fuel + 1, position =>
      if position < scanEnd then do
        checkpoint 1
        let byte ← byteAt bytes position "BCJ opcode index is out of range"
        if isX86Branch byte then
          pure position
        else do
          let position ← addOffset position 1 "BCJ position overflows"
          scanBranch scanEnd bytes fuel position
      else
        pure position

/-- What is left of the mask after passing `distance` bytes. -/
def shiftMask (mask : UInt32) (distance : Nat) : Work UInt32 :=
  if distance > 2 then
    pure 0
  else do
    let shift ← orFormat (tryFrom 32 distance) "BCJ mask shift is not representable"
    pure (mask >>> UInt32.ofNat shift)

/-- Does the mask rule out a conversion at this position? -/
def maskRefuses (mask : UInt32) (position : Nat) (bytes : Bytes) : Work Bool :=
  if mask ≠ 0 then do
    let look ← addOffset position (mask >>> 1).toNat "BCJ mask index overflows"
    let look ← addOffset look 1 "BCJ mask index overflows"
    let tested ← byteAt bytes look "BCJ mask index is out of range"
    pure (mask > 4 || mask = 3 || testX86Msb tested)
  else
    pure false

/-- Rewrite the operand of the branch at this position. -/
def convertX86 (instructionPointer mask : UInt32) (position : Nat) : InPlace := fun bytes => do
  let valueIndex ← addOffset position 1 "BCJ value index overflows"
  let value ← readU32Le bytes valueIndex
  let position32 ← orFormat (tryFrom 32 position)
    "BCJ position exceeds the 32-bit address domain"
  let current := instructionPointer + 5 + UInt32.ofNat position32
  let value := value - current
  let value ← (
    if mask ≠ 0 then do
      let shift := (mask &&& 6) <<< 2
      let tested ← wordToByte ((value >>> shift) &&& 0xff) "BCJ test byte is not representable"
      if testX86Msb tested then
        pure ((value ^^^ ((0x100 : UInt32) <<< shift - 1)) - current)
      else
        pure value
    else
      pure value : Work UInt32)
  let bytes ← writeWord bytes valueIndex (u32ToLe value)
  -- the high byte of the operand is the sign that is extended into it
  let highIndex ← addOffset position 4 "BCJ high-byte index overflows"
  let written ← byteAt bytes highIndex "BCJ high-byte index is out of range"
  pure (bytes.set highIndex (0 - (written &&& 1)))

/-- The outer loop of `decode_x86_bcj`. -/
def x86From (instructionPointer : UInt32) (scanEnd : Nat) :
    Nat → Nat → UInt32 → Bytes → Work Bytes
  | 0, _, _, _ => formatErr "filter scan does not advance"
  | fuel + 1, previous, mask, bytes => do
      let position ← scanBranch scanEnd bytes (bytes.length + 1) previous
      let distance ← orFormat (checkedSub position previous) "BCJ scan distance underflows"
      let mask ← shiftMask mask distance
      if position ≥ scanEnd then do
        let _ ← orFormat (tryFrom 32 position) "BCJ position exceeds the 32-bit address domain"
        pure bytes
      else if ← maskRefuses mask position bytes then do
        let position ← addOffset position 1 "BCJ position overflows"
        x86From instructionPointer scanEnd fuel position ((mask >>> 1) ||| 4) bytes
      else do
        let highIndex ← addOffset position 4 "BCJ high-byte index overflows"
        let high ← byteAt bytes highIndex "BCJ high-byte index is out of range"
        if testX86Msb high then do
          let bytes ← convertX86 instructionPointer mask position bytes
          let position ← addOffset position 5 "BCJ position overflows"
          x86From instructionPointer scanEnd fuel position 0 bytes
        else do
          let position ← addOffset position 1 "BCJ position overflows"
          x86From instructionPointer scanEnd fuel position ((mask >>> 1) ||| 4) bytes

def decodeX86Bcj (properties : Bytes) : InPlace := fun bytes => do
  let minimum ← addOffset 4 1 "BCJ minimum input size overflows"
  if bytes.length < minimum then
    pure bytes
  else do
    let scanEnd ← orFormat (checkedSub bytes.length 4) "BCJ scan bound underflows"
    let instructionPointer ← startingPosition properties
    x86From instructionPointer scanEnd (bytes.length + 1) 0 0 bytes

/-! ### Filters that go from word to word -/

/--
The loop of the PowerPC, ARM, ARM64 and SPARC filters: as long as there is a whole word at
the offset, `body` rewrites it, under an instruction pointer that goes with the offset.
-/
def wordsFrom (overflows : String) (body : UInt32 → Nat → InPlace) :
    Nat → UInt32 → Nat → Bytes → Work Bytes
  | 0, _, _, _ => formatErr "filter scan does not advance"
  | fuel + 1, instructionPointer, offset, bytes =>
      if (checkedAdd 64 offset 4).any (· ≤ bytes.length) then do
        checkpoint 4
        let bytes ← body instructionPointer offset bytes
        let offset ← addOffset offset 4 overflows
        wordsFrom overflows body fuel (instructionPointer + 4) offset bytes
      else
        pure bytes

/-- Bits 26 and up say branch, the two low bits say relative and with link. -/
def convertPpc (instructionPointer value : UInt32) : UInt32 :=
  ((value - instructionPointer) &&& 0x03ffffff) ||| 0x48000000

def ppcWord (instructionPointer : UInt32) (offset : Nat) : InPlace := fun bytes => do
  let first ← byteAt bytes offset "PPC opcode is truncated"
  let index ← addOffset offset 3 "PPC index overflows"
  let fourth ← byteAt bytes index "PPC opcode is truncated"
  let value ← readU32Be bytes offset
  if first &&& 0xfc = 0x48 ∧ fourth &&& 3 = 1 then
    writeWord bytes offset (u32ToBe (convertPpc instructionPointer value))
  else
    pure bytes

def decodePpc (properties : Bytes) : InPlace := fun bytes => do
  let instructionPointer ← startingPosition properties
  wordsFrom "PPC position overflows" ppcWord (bytes.length + 1) instructionPointer 0 bytes

/-- The source advances its pointer before it looks at a word. -/
def armWord (instructionPointer : UInt32) (offset : Nat) : InPlace := fun bytes => do
  let instructionPointer := instructionPointer + 4
  let index ← addOffset offset 3 "ARM index overflows"
  let opcode ← byteAt bytes index "ARM opcode is truncated"
  if opcode = 0xeb then do
    let value ← readU32Le bytes offset
    let value := (value - instructionPointer >>> 2) &&& 0x00ffffff
    writeWord bytes offset (u32ToLe (value ||| 0xeb000000))
  else
    pure bytes

def decodeArm (properties : Bytes) : InPlace := fun bytes => do
  let start ← startingPosition properties
  wordsFrom "ARM position overflows" armWord (bytes.length + 1) (start + 4) 0 bytes

/-- What a word becomes: a `BL`, an `ADRP` with a short distance, or nothing new. -/
def convertArm64 (instructionPointer original : UInt32) : Option UInt32 :=
  let flag : UInt32 := 0x00100000
  let mask : UInt32 := 0x01000000 - flag <<< (1 : UInt32)
  if (original - 0x94000000) &&& 0xfc000000 = 0 then
    some (((original - instructionPointer >>> 2) &&& 0x03ffffff) ||| 0x94000000)
  else
    let value := original - 0x90000000
    if value &&& 0x9f000000 = 0 then
      let value := value + flag
      if value &&& mask = 0 then
        let transformed := (value &&& 0xffffffe0) ||| value >>> (26 : UInt32)
        let ip := instructionPointer >>> (9 : UInt32) &&& ~~~7
        let transformed := transformed - ip
        let value := (value &&& 0x1f) ||| 0x90000000
        let value := value ||| transformed <<< (26 : UInt32)
        let low := transformed &&& (flag <<< (1 : UInt32) - 1)
        some (value ||| ((low - flag) &&& 0x00ffffe0))
      else
        none
    else
      none

def arm64Word (instructionPointer : UInt32) (offset : Nat) : InPlace := fun bytes => do
  let original ← readU32Le bytes offset
  match convertArm64 instructionPointer original with
  | some value => writeWord bytes offset (u32ToLe value)
  | none => pure bytes

def decodeArm64 (properties : Bytes) : InPlace := fun bytes => do
  let instructionPointer ← startingPosition properties
  wordsFrom "ARM64 position overflows" arm64Word (bytes.length + 1) instructionPointer 0 bytes

def convertSparc (instructionPointer word : UInt32) : UInt32 :=
  let value := ((word <<< 2) - instructionPointer) &&& 0x01ffffff
  let value := (value - 0x01000000) ^^^ 0xff000000
  value >>> (2 : UInt32) ||| 0x40000000

def sparcWord (instructionPointer : UInt32) (offset : Nat) : InPlace := fun bytes => do
  let first ← byteAt bytes offset "SPARC opcode is truncated"
  let index ← addOffset offset 1 "SPARC index overflows"
  let second ← byteAt bytes index "SPARC opcode is truncated"
  if (first = 0x40 ∧ second &&& 0xc0 = 0) ∨ (first = 0x7f ∧ second ≥ 0xc0) then do
    let word ← readU32Be bytes offset
    writeWord bytes offset (u32ToBe (convertSparc instructionPointer word))
  else
    pure bytes

def decodeSparc (properties : Bytes) : InPlace := fun bytes => do
  let instructionPointer ← startingPosition properties
  wordsFrom "SPARC position overflows" sparcWord (bytes.length + 1) instructionPointer 0 bytes

/-! ### Dispatch -/

def decodeFilter (method properties bytes : Bytes) : Work Bytes :=
  if method = methodDelta then
    decodeDelta properties bytes
  else if method = methodBcj then
    decodeX86Bcj properties bytes
  else if method = methodPpc then
    decodePpc properties bytes
  else if method = methodArm then
    decodeArm properties bytes
  else if method = methodArm64 then
    decodeArm64 properties bytes
  else if method = methodSparc then
    decodeSparc properties bytes
  else
    CompatibilityFilters.decodePhase5Filter method properties bytes

end Filters

end Un7z
