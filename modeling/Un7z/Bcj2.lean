/-
BCJ2, the branch filter with four inputs, `decode_bcj2` of `decode/filters.rs`.

The main stream holds the program without the operands that were converted.  Behind every
branch opcode a range coder says whether its operand was, and then it is the next word of
the call or of the jump stream, as an absolute target.
-/
import Un7z.Filters

namespace Un7z

namespace Filters

/-! ### Input cursors -/

structure Bcj2Cursor where
  bytes : Bytes
  position : Nat
  deriving DecidableEq

namespace Bcj2Cursor

def new (bytes : Bytes) : Bcj2Cursor := ⟨bytes, 0⟩

def readByte (cursor : Bcj2Cursor) : Work (UInt8 × Bcj2Cursor) := do
  checkpoint 1
  let byte ← orFormat cursor.bytes[cursor.position]? "truncated BCJ2 input stream"
  let position ← orFormat (checkedAdd 64 cursor.position 1) "BCJ2 input cursor overflows"
  pure (byte, ⟨cursor.bytes, position⟩)

/-- The loops over `read_byte`: so many bytes, in order. -/
def readBytes : Nat → Bcj2Cursor → Work (Bytes × Bcj2Cursor)
  | 0, cursor => pure ([], cursor)
  | count + 1, cursor => do
      let (byte, cursor) ← cursor.readByte
      let (bytes, cursor) ← readBytes count cursor
      pure (byte :: bytes, cursor)

def readU32Be (cursor : Bcj2Cursor) : Work (UInt32 × Bcj2Cursor) := do
  let (word, cursor) ← readBytes 4 cursor
  pure (u32FromBe word, cursor)

def isFinished (cursor : Bcj2Cursor) : Bool := cursor.position == cursor.bytes.length

end Bcj2Cursor

/-! ### The range decoder -/

structure Bcj2Range where
  input : Bcj2Cursor
  range : Nat
  code : Nat
  /-- `[u32; 258]`. -/
  probabilities : List Nat
  deriving DecidableEq

/-- `code.wrapping_shl(8) | u32::from(byte)`. -/
def shiftIn (code : Nat) (byte : UInt8) : Nat := (code <<< 8) % 2 ^ 32 ||| byte.toNat

namespace Bcj2Range

def new (bytes : Bytes) : Work Bcj2Range := do
  let (bytes, input) ← (Bcj2Cursor.new bytes).readBytes 5
  pure ⟨input, 2 ^ 32 - 1, bytes.foldl shiftIn 0, List.replicate 258 (1 <<< 10)⟩

/-- The last part of `decode`: one more byte where the range has become narrow. -/
def normalize (range : Bcj2Range) : Work Bcj2Range :=
  if range.range < 1 <<< 24 then do
    let (byte, input) ← range.input.readByte
    pure { range with input, code := shiftIn range.code byte, range := (range.range <<< 8) % 2 ^ 32 }
  else
    pure range

def decode (range : Bcj2Range) (index : Nat) : Work (Bool × Bcj2Range) := do
  let probability ← orFormat range.probabilities[index]? "BCJ2 probability index is out of range"
  let bound ← orFormat (checkedMul 32 (range.range >>> 11) probability)
    "BCJ2 probability bound overflows"
  if range.code < bound then do
    let probability ← orFormat (checkedAdd 32 probability ((2048 - probability) >>> 5))
      "BCJ2 probability overflows"
    let next ← normalize
      { range with range := bound, probabilities := range.probabilities.set index probability }
    pure (false, next)
  else do
    let width ← orFormat (checkedSub range.range bound) "BCJ2 range underflows"
    let code ← orFormat (checkedSub range.code bound) "BCJ2 range code underflows"
    let probability ← orFormat (checkedSub probability (probability >>> 5))
      "BCJ2 probability underflows"
    let next ← normalize
      ⟨range.input, width, code, range.probabilities.set index probability⟩
    pure (true, next)

end Bcj2Range

/-! ### The loop -/

def isBcj2Branch (previous current : UInt8) : Bool :=
  current &&& 0xfe = 0xe8 || (previous = 0x0f && current &&& 0xf0 = 0x80)

def bcj2ProbabilityIndex (previous current : UInt8) : Nat :=
  if current = 0xe8 then previous.toNat else if current = 0xe9 then 256 else 257

def reserveOutput (output : Bytes) (additional maximum : Nat) : Work Unit := do
  let requested ← orFormat (checkedAdd 64 output.length additional) "BCJ2 output size overflows"
  checkLimit requested maximum .totalOutputBytes

structure Bcj2State where
  main : Bcj2Cursor
  call : Bcj2Cursor
  jump : Bcj2Cursor
  range : Bcj2Range
  output : Bytes
  previous : UInt8
  written : UInt32
  deriving DecidableEq

namespace Bcj2State

/-- The operand of a branch that was converted. -/
def readOperand (state : Bcj2State) (byte : UInt8) : Work (UInt32 × Bcj2State) :=
  if byte = 0xe8 then do
    let (encoded, call) ← state.call.readU32Be
    pure (encoded, { state with call })
  else do
    let (encoded, jump) ← state.jump.readU32Be
    pure (encoded, { state with jump })

/-- What follows a branch opcode. -/
def branch (maximum : Nat) (state : Bcj2State) (byte : UInt8) : Work Bcj2State := do
  let (selected, range) ← state.range.decode (bcj2ProbabilityIndex state.previous byte)
  let state := { state with range }
  if selected then do
    let (encoded, state) ← state.readOperand byte
    let destination := encoded - (state.written + 4)
    reserveOutput state.output 4 maximum
    let previous ← wordToByte (destination >>> 24) "BCJ2 previous byte is not representable"
    pure { state with
      output := state.output ++ u32ToLe destination
      previous
      written := state.written + 4 }
  else
    pure { state with previous := byte }

/-- One round of the loop: a byte of the main stream and what follows it. -/
def step (maximum : Nat) (state : Bcj2State) : Work Bcj2State := do
  let (byte, main) ← state.main.readByte
  reserveOutput state.output 1 maximum
  let state := { state with
    main
    output := state.output ++ [byte]
    written := state.written + 1 }
  if isBcj2Branch state.previous byte then
    state.branch maximum byte
  else
    pure { state with previous := byte }

/-- `while !main.is_finished()`. -/
def run (maximum : Nat) : Nat → Bcj2State → Work Bcj2State
  | 0, _ => formatErr "filter scan does not advance"
  | fuel + 1, state =>
      if state.main.isFinished then
        pure state
      else do
        let state ← state.step maximum
        state.run maximum fuel

end Bcj2State

/-- The state in front of the loop, and the loop. -/
def runBcj2 (main call jump range : Bytes) (maximum : Nat) : Work Bcj2State := do
  let range ← Bcj2Range.new range
  Bcj2State.run maximum (main.length + 1)
    ⟨Bcj2Cursor.new main, Bcj2Cursor.new call, Bcj2Cursor.new jump, range, [], 0, 0⟩

def decodeBcj2 (inputs : List Bytes) (properties : Bytes) (expected : Option Nat)
    (maximum : Nat) : Work Bytes := do
  if !properties.isEmpty then
    formatErr "BCJ2 properties must be empty"
  else do
    let main ← orFormat inputs[0]? "BCJ2 main stream is missing"
    let call ← orFormat inputs[1]? "BCJ2 call stream is missing"
    let jump ← orFormat inputs[2]? "BCJ2 jump stream is missing"
    let range ← orFormat inputs[3]? "BCJ2 range stream is missing"
    if inputs.length ≠ 4 then
      formatErr "BCJ2 requires exactly four input streams"
    else do
      checkLimit (expected.getD 0) maximum .totalOutputBytes
      let _ ← orFormat (tryFrom 64 (expected.getD 0))
        "BCJ2 output size is not representable on this platform"
      let state ← runBcj2 main call jump range maximum
      if !state.call.isFinished || !state.jump.isFinished then
        formatErr "BCJ2 side streams were not consumed exactly"
      else if expected.any (· ≠ state.output.length) then
        formatErr "BCJ2 output size does not match its declaration"
      else
        pure state.output

end Filters

end Un7z
