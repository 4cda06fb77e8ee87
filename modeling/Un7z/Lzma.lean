/-
LZMA and LZMA2, `decode/lzma.rs`.

A stream is a sequence of bits, each coded under an adaptive probability or directly, and
what the next bit means depends on all that came before.  The part that gives the bits
their meaning is written over a `Source` of bits, which is asked for a bit by the name of
its probability (`Slot`).  The source of the decoder is `rangeSource`: it looks the
probability up in its table, decodes the bit from the range stream and writes the
probability back.
-/
import Un7z.ParseUtil
import Un7z.Bounded

namespace Un7z

namespace Lzma

open Metered (fail)

def probBits : Nat := 11
def probTotal : Nat := 1 <<< probBits
def probInitial : Nat := probTotal >>> 1
def moveBits : Nat := 5
def topValue : Nat := 1 <<< 24
def stateCount : Nat := 12
def maxPositionBits : Nat := 4
def positionStates : Nat := 1 <<< maxPositionBits
def minMatchLength : Nat := 2
def lengthStates : Nat := 4
def startPositionModel : Nat := 4
def endPositionModel : Nat := 14
def positionSlotBits : Nat := 6
def alignBits : Nat := 4
def eosDistance : Nat := 2 ^ 32 - 1

/-! ### The range decoder -/

structure RangeDecoder where
  input : Bytes
  cursor : Nat
  range : Nat
  code : Nat
  deriving DecidableEq

/-- `code.wrapping_shl(8) | u32::from(byte)`. -/
def shiftCode (code : Nat) (byte : UInt8) : Nat := (code <<< 8) % 2 ^ 32 ||| byte.toNat

namespace RangeDecoder

def readByte : StateT RangeDecoder Work UInt8 := fun decoder => do
  checkpoint 1
  let byte ← orFormat decoder.input[decoder.cursor]? "truncated LZMA range stream"
  let cursor ← orFormat (checkedAdd 64 decoder.cursor 1) "LZMA input cursor overflows"
  pure (byte, { decoder with cursor })

/-- `for _ in 0..count`: so many bytes of the initial code. -/
def readCode : Nat → StateT RangeDecoder Work Unit
  | 0 => pure ()
  | count + 1 => do
      let byte ← readByte
      modify fun decoder => { decoder with code := shiftCode decoder.code byte }
      readCode count

def new (input : Bytes) : Work RangeDecoder := do
  let (first, decoder) ← readByte ⟨input, 0, 2 ^ 32 - 1, 0⟩
  if first ≠ 0 then
    formatErr "LZMA range stream does not begin with zero"
  else do
    let (_, decoder) ← readCode 4 decoder
    if decoder.code ≥ decoder.range then
      formatErr "invalid initial LZMA range state"
    else
      pure decoder

def normalize : StateT RangeDecoder Work Unit := do
  let decoder ← get
  if decoder.range ≥ topValue then
    pure ()
  else do
    set { decoder with range := (decoder.range <<< 8) % 2 ^ 32 }
    let byte ← readByte
    modify fun decoder => { decoder with code := shiftCode decoder.code byte }

/-- `Probability::decode`: the bit, and the probability as it is then. -/
def decodeBit (probability : Nat) : StateT RangeDecoder Work (Nat × Nat) := do
  let decoder ← get
  let bound ← orFormat (checkedMul 32 (decoder.range >>> probBits) probability)
    "LZMA probability bound overflows"
  if decoder.code < bound then do
    let difference ← orFormat (checkedSub probTotal probability) "LZMA probability underflows"
    let probability ← orFormat (checkedAdd 16 probability (difference >>> moveBits))
      "LZMA probability overflows"
    set { decoder with range := bound }
    normalize
    pure (0, probability)
  else do
    let code ← orFormat (checkedSub decoder.code bound) "LZMA range code underflows"
    let range ← orFormat (checkedSub decoder.range bound) "LZMA range underflows"
    let probability ← orFormat (checkedSub probability (probability >>> moveBits))
      "LZMA probability underflows"
    set { decoder with range, code }
    normalize
    pure (1, probability)

def decodeDirectBit : StateT RangeDecoder Work Nat := do
  let decoder ← get
  let range := decoder.range >>> 1
  if decoder.code ≥ range then do
    let code ← orFormat (checkedSub decoder.code range) "LZMA direct range code underflows"
    set { decoder with range, code }
    normalize
    pure 1
  else do
    set { decoder with range }
    normalize
    pure 0

def possiblyAtEnd (decoder : RangeDecoder) : Bool := decoder.code == 0

def isFinished (decoder : RangeDecoder) : Bool := decoder.cursor == decoder.input.length

end RangeDecoder

/-! ### Probabilities -/

/-- Which of the two length decoders. -/
inductive LengthKind where
  | match
  | repetition
  deriving DecidableEq

/-- The name of a probability: the field of the source it is kept in, and its place there. -/
inductive Slot where
  | isMatch (index : Nat)
  | isRepZeroLong (index : Nat)
  | isRep (state : Nat)
  | isRepZero (state : Nat)
  | isRepOne (state : Nat)
  | isRepTwo (state : Nat)
  | literal (index : Nat)
  | choice (kind : LengthKind) (index : Nat)
  | low (kind : LengthKind) (positionState node : Nat)
  | middle (kind : LengthKind) (positionState node : Nat)
  | high (kind : LengthKind) (node : Nat)
  | positionSlot (lengthState node : Nat)
  | positionModel (model node : Nat)
  | alignment (node : Nat)
  deriving DecidableEq

/-- `LengthDecoder`. -/
structure LengthTables where
  choice : List Nat
  low : List (List Nat)
  middle : List (List Nat)
  high : List Nat
  deriving DecidableEq

/-- The probabilities of `LzmaState`, of its `LiteralDecoder` and its `DistanceDecoder`. -/
structure Tables where
  isMatch : List Nat
  isRepZeroLong : List Nat
  isRep : List Nat
  isRepZero : List Nat
  isRepOne : List Nat
  isRepTwo : List Nat
  literal : List Nat
  length : LengthTables
  repetitionLength : LengthTables
  positionSlots : List (List Nat)
  positionModels : List (List Nat)
  alignment : List Nat
  deriving DecidableEq

/-- The probabilities of `ProbabilityTree::new(bits)`. -/
def newTree (bits : Nat) : List Nat := List.replicate (1 <<< bits) probInitial

def LengthTables.new : LengthTables where
  choice := List.replicate 2 probInitial
  low := List.replicate positionStates (newTree 3)
  middle := List.replicate positionStates (newTree 3)
  high := newTree 8

/-- The width of `position_models[model]`. -/
def positionModelBits (model : Nat) : Nat := ((model + startPositionModel) >>> 1) - 1

def Tables.new (lc lp : Nat) : Tables where
  isMatch := List.replicate (stateCount * positionStates) probInitial
  isRepZeroLong := List.replicate (stateCount * positionStates) probInitial
  isRep := List.replicate stateCount probInitial
  isRepZero := List.replicate stateCount probInitial
  isRepOne := List.replicate stateCount probInitial
  isRepTwo := List.replicate stateCount probInitial
  literal := List.replicate ((1 <<< (lc + lp)) * 0x300) probInitial
  length := .new
  repetitionLength := .new
  positionSlots := List.replicate lengthStates (newTree positionSlotBits)
  positionModels := (List.range (endPositionModel - startPositionModel)).map fun model =>
    newTree (positionModelBits model)
  alignment := newTree alignBits

namespace Tables

def lengthOf (tables : Tables) : LengthKind → LengthTables
  | .match => tables.length
  | .repetition => tables.repetitionLength

def setLength (tables : Tables) : LengthKind → LengthTables → Tables
  | .match, length => { tables with length }
  | .repetition, repetitionLength => { tables with repetitionLength }

/-- The array that a probability is in, if there is one. -/
def row (tables : Tables) : Slot → Option (List Nat)
  | .isMatch _ => some tables.isMatch
  | .isRepZeroLong _ => some tables.isRepZeroLong
  | .isRep _ => some tables.isRep
  | .isRepZero _ => some tables.isRepZero
  | .isRepOne _ => some tables.isRepOne
  | .isRepTwo _ => some tables.isRepTwo
  | .literal _ => some tables.literal
  | .choice kind _ => some (tables.lengthOf kind).choice
  | .low kind positionState _ => (tables.lengthOf kind).low[positionState]?
  | .middle kind positionState _ => (tables.lengthOf kind).middle[positionState]?
  | .high kind _ => some (tables.lengthOf kind).high
  | .positionSlot lengthState _ => tables.positionSlots[lengthState]?
  | .positionModel model _ => tables.positionModels[model]?
  | .alignment _ => some tables.alignment

/-- The array that a probability is in, replaced. -/
def setRow (tables : Tables) (row : List Nat) : Slot → Tables
  | .isMatch _ => { tables with isMatch := row }
  | .isRepZeroLong _ => { tables with isRepZeroLong := row }
  | .isRep _ => { tables with isRep := row }
  | .isRepZero _ => { tables with isRepZero := row }
  | .isRepOne _ => { tables with isRepOne := row }
  | .isRepTwo _ => { tables with isRepTwo := row }
  | .literal _ => { tables with literal := row }
  | .choice kind _ => tables.setLength kind { tables.lengthOf kind with choice := row }
  | .low kind positionState _ => tables.setLength kind
      { tables.lengthOf kind with low := (tables.lengthOf kind).low.set positionState row }
  | .middle kind positionState _ => tables.setLength kind
      { tables.lengthOf kind with middle := (tables.lengthOf kind).middle.set positionState row }
  | .high kind _ => tables.setLength kind { tables.lengthOf kind with high := row }
  | .positionSlot lengthState _ =>
      { tables with positionSlots := tables.positionSlots.set lengthState row }
  | .positionModel model _ =>
      { tables with positionModels := tables.positionModels.set model row }
  | .alignment _ => { tables with alignment := row }

end Tables

/-- The place of a probability in its array. -/
def Slot.index : Slot → Nat
  | .isMatch index | .isRepZeroLong index | .literal index | .choice _ index => index
  | .isRep state | .isRepZero state | .isRepOne state | .isRepTwo state => state
  | .low _ _ node | .middle _ _ node | .high _ node | .positionSlot _ node
  | .positionModel _ node | .alignment node => node

/-! ### Sources of bits -/

/-- Where the bits come from.  `row` and `index` are the texts of the errors for a
probability whose array is not there, or is too short. -/
structure Source (σ : Type) where
  coded : (slot : Slot) → (row index : String) → StateT σ Work Nat
  direct : StateT σ Work Nat

/-- The range decoder with its tables. -/
structure Coder where
  decoder : RangeDecoder
  tables : Tables
  deriving DecidableEq

/-- `get_mut(..).ok_or_else(..)?.decode(range, control)?`. -/
def rangeSource : Source Coder where
  coded slot row index := fun coder => do
    let probabilities ← orFormat (coder.tables.row slot) row
    let probability ← orFormat probabilities[slot.index]? index
    let ((bit, probability), decoder) ← RangeDecoder.decodeBit probability coder.decoder
    pure (bit, ⟨decoder, coder.tables.setRow (probabilities.set slot.index probability) slot⟩)
  direct := fun coder => do
    let (bit, decoder) ← RangeDecoder.decodeDirectBit coder.decoder
    pure (bit, ⟨decoder, coder.tables⟩)

section decoders

variable {σ : Type} (source : Source σ)

/-! ### Trees -/

/-- `node.checked_mul(2).and_then(|value| value.checked_add(bit))`. -/
def nextNode (node bit : Nat) : Option Nat :=
  (checkedMul 64 node 2).bind fun value => checkedAdd 64 value bit

/-- The loop of `ProbabilityTree::decode`. -/
def walkTree (slot : Nat → Slot) (row : String) : Nat → Nat → StateT σ Work Nat
  | 0, node => pure node
  | bits + 1, node => do
      let bit ← source.coded (slot node) row "LZMA probability-tree index is out of range"
      let node ← orFormat (nextNode node bit) "LZMA probability-tree index overflows"
      walkTree slot row bits node

/-- `ProbabilityTree::decode`. -/
def decodeTree (slot : Nat → Slot) (bits : Nat) (row : String) : StateT σ Work Nat := do
  let node ← walkTree source slot row bits 1
  let base ← orFormat (checkedShl 64 1 bits) "LZMA probability-tree base overflows"
  let value ← orFormat (checkedSub node base) "LZMA probability-tree value underflows"
  orFormat (tryFrom 32 value) "LZMA tree value is not representable"

/-- The loop of `ProbabilityTree::decode_reverse`, from the bit of value `shift` on. -/
def walkReverse (slot : Nat → Slot) (row : String) :
    Nat → (shift node value : Nat) → StateT σ Work Nat
  | 0, _, _, value => pure value
  | bits + 1, shift, node, value => do
      let bit ← source.coded (slot node) row "LZMA reverse-tree index is out of range"
      let shifted ← orFormat (checkedShl 32 bit shift) "LZMA reverse-tree value overflows"
      let node ← orFormat (nextNode node bit) "LZMA reverse-tree index overflows"
      walkReverse slot row bits (shift + 1) node (value ||| shifted)

/-- `ProbabilityTree::decode_reverse`. -/
def decodeReverse (slot : Nat → Slot) (bits : Nat) (row : String) : StateT σ Work Nat :=
  walkReverse source slot row bits 0 1 0

/-! ### Lengths and distances -/

/-- `LengthDecoder::decode`. -/
def decodeLength (kind : LengthKind) (positionState : Nat) : StateT σ Work Nat := do
  let choice ← source.coded (.choice kind 0) "LZMA length choice is missing"
    "LZMA length choice is missing"
  if choice = 0 then
    decodeTree source (.low kind positionState) 3 "LZMA low-length state is out of range"
  else do
    let choice ← source.coded (.choice kind 1) "LZMA length choice is missing"
      "LZMA length choice is missing"
    if choice = 0 then do
      let value ← decodeTree source (.middle kind positionState) 3
        "LZMA middle-length state is out of range"
      orFormat (checkedAdd 32 value 8) "LZMA length overflows"
    else do
      let value ← decodeTree source (.high kind) 8 "LZMA high-length tree is missing"
      orFormat (checkedAdd 32 value 16) "LZMA length overflows"

/-- The loop over the direct bits of a distance. -/
def decodeDirect : Nat → Nat → StateT σ Work Nat
  | 0, direct => pure direct
  | bits + 1, direct => do
      let bit ← source.direct
      let direct ← orFormat ((checkedShl 32 direct 1).bind fun value => checkedAdd 32 value bit)
        "LZMA direct distance overflows"
      decodeDirect bits direct

/-- `DistanceDecoder::decode`. -/
def decodeDistance (length : Nat) : StateT σ Work Nat := do
  let lengthState := min length (lengthStates - 1)
  let positionSlot ← decodeTree source (.positionSlot lengthState) positionSlotBits
    "LZMA position-slot state is out of range"
  if positionSlot < startPositionModel then
    pure positionSlot
  else do
    let bits ← orFormat (checkedSub (positionSlot >>> 1) 1) "LZMA distance width underflows"
    let base ← orFormat (checkedShl 32 (2 ||| (positionSlot &&& 1)) bits)
      "LZMA distance base overflows"
    if positionSlot < endPositionModel then do
      let model ← orFormat (checkedSub positionSlot startPositionModel)
        "LZMA position-model index underflows"
      let suffix ← decodeReverse source (.positionModel model) (positionModelBits model)
        "LZMA position-model index is out of range"
      orFormat (checkedAdd 32 base suffix) "LZMA distance overflows"
    else do
      let directBits ← orFormat (checkedSub bits alignBits) "LZMA direct-distance width underflows"
      let direct ← decodeDirect source directBits 0
      let direct ← orFormat (checkedShl 32 direct alignBits) "LZMA direct distance overflows"
      let alignment ← decodeReverse source .alignment alignBits "LZMA alignment tree is missing"
      orFormat ((checkedAdd 32 base direct).bind fun value => checkedAdd 32 value alignment)
        "LZMA distance overflows"

/-! ### Literals -/

/-- `symbol.checked_shl(1).and_then(|value| value.checked_add(bit))`. -/
def nextSymbol (symbol bit : Nat) : Option Nat :=
  (checkedShl 32 symbol 1).bind fun value => checkedAdd 32 value bit

/-- The loop of a matched literal, to the first bit that differs from the match byte. -/
def decodeMatched (base : Nat) : Nat → (matched symbol : Nat) → StateT σ Work Nat
  | 0, _, _ => do formatErr "LZMA matched literal does not advance"
  | fuel + 1, matched, symbol => do
      let matchBit := (matched >>> 7) &&& 1
      let matched := (matched <<< 1) % 2 ^ 32
      let index ← orFormat (((checkedAdd 32 1 matchBit).bind fun value =>
        checkedShl 32 value 8).map fun value => value ||| symbol)
        "LZMA literal match index overflows"
      let index ← orFormat (checkedAdd 64 base index) "LZMA literal probability index overflows"
      let bit ← source.coded (.literal index) "LZMA literal probabilities are missing"
        "LZMA literal probability index is out of range"
      let symbol ← orFormat (nextSymbol symbol bit) "LZMA literal symbol overflows"
      if matchBit ≠ bit ∨ symbol ≥ 0x100 then
        pure symbol
      else
        decodeMatched base fuel matched symbol

/-- `while symbol < 0x100`. -/
def decodePlain (base : Nat) : Nat → Nat → StateT σ Work Nat
  | 0, _ => do formatErr "LZMA literal does not advance"
  | fuel + 1, symbol =>
      if symbol < 0x100 then do
        let index ← orFormat (checkedAdd 64 base symbol) "LZMA literal probability index overflows"
        let bit ← source.coded (.literal index) "LZMA literal probabilities are missing"
          "LZMA literal probability index is out of range"
        let symbol ← orFormat (nextSymbol symbol bit) "LZMA literal symbol overflows"
        decodePlain base fuel symbol
      else
        pure symbol

/-- The first probability of a literal's context. -/
def literalBase (lc lp : Nat) (previousByte : UInt8) (position : Nat) : Work Nat := do
  let positionMask ← orFormat ((checkedShl 64 1 lp).bind fun value => checkedSub value 1)
    "LZMA literal position mask overflows"
  let positionPart ← orFormat (checkedShl 64 (position &&& positionMask) lc)
    "LZMA literal position state overflows"
  let previousPart := previousByte.toNat >>> (8 - lc)
  orFormat (checkedMul 64 (positionPart ||| previousPart) 0x300)
    "LZMA literal probability base overflows"

/-- `LiteralDecoder::decode`. -/
def decodeLiteral (lc lp state : Nat) (matchByte previousByte : UInt8) (position : Nat) :
    StateT σ Work UInt8 := do
  let base ← literalBase lc lp previousByte position
  let symbol ← (if state ≥ 7 then decodeMatched source base 8 matchByte.toNat 1 else pure 1 :
    StateT σ Work Nat)
  let symbol ← decodePlain source base 9 symbol
  let value ← orFormat (checkedSub symbol 0x100) "LZMA literal symbol underflows"
  let byte ← orFormat (tryFrom 8 value) "LZMA literal is not representable"
  pure (UInt8.ofNat byte)

/-! ### The output -/

/-- `isize::MAX`: no vector holds more bytes. -/
def vectorMax : Nat := 2 ^ 63 - 1

/-- `try_reserve`, which can still fail where allocation succeeds. -/
def reserve (capacity : Nat) (detail : String) : Work Unit :=
  if capacity > vectorMax then fail (.ioError .outOfMemory detail) else pure ()

structure Output where
  bytes : Bytes
  maximum : Nat
  dictionarySize : Nat
  dictionaryStart : Nat
  deriving DecidableEq

namespace Output

def new (maximum dictionarySize : Nat) (expected : Option Nat) : Work Output := do
  checkLimit (expected.getD 0) maximum .totalOutputBytes
  reserve (expected.getD 0) "archive model allocation failed"
  pure ⟨[], maximum, dictionarySize, 0⟩

def resetDictionary (output : Output) : Output :=
  { output with dictionaryStart := output.bytes.length }

def position (output : Output) : Nat := output.bytes.length

def dictionaryLength (output : Output) : Work Nat :=
  orFormat (checkedSub output.bytes.length output.dictionaryStart)
    "LZMA dictionary position underflows"

def previousByte (output : Output) : UInt8 := output.bytes.getLast?.getD 0

def matchByte (output : Output) (distanceOffset : Nat) : UInt8 :=
  ((checkedSub output.bytes.length (distanceOffset + 1)).bind fun index =>
    output.bytes[index]?).getD 0

def ensureAdditional (output : Output) (additional : Nat) : Work Unit := do
  let requested ← orFormat (checkedAdd 64 output.position additional) "decoded LZMA size overflows"
  checkLimit requested output.maximum .totalOutputBytes
  reserve requested "LZMA output allocation failed"

def push (output : Output) (byte : UInt8) : Work Output := do
  output.ensureAdditional 1
  checkpoint 1
  pure { output with bytes := output.bytes ++ [byte] }

def extendUncompressed (output : Output) (bytes : Bytes) : Work Output := do
  output.ensureAdditional bytes.length
  forEach (chunks controlChunkSize bytes) fun chunk => checkpoint chunk.length
  pure { output with bytes := output.bytes ++ bytes }

/-- The loop of `copy_match`: each byte may be one that was copied before. -/
def copyFrom (distance : Nat) : Nat → Bytes → Work Bytes
  | 0, bytes => pure bytes
  | length + 1, bytes => do
      checkpoint 1
      let source ← orFormat (checkedSub bytes.length distance) "LZMA match source underflows"
      let byte ← orFormat bytes[source]? "LZMA match source is out of range"
      copyFrom distance length (bytes ++ [byte])

def copyMatch (output : Output) (distance length : Nat) : Work Output :=
  if distance = 0 then
    formatErr "LZMA match distance is zero"
  else if distance > output.dictionarySize then
    formatErr "LZMA match distance exceeds the declared dictionary"
  else do
    let available ← output.dictionaryLength
    if distance > available then
      formatErr s!"LZMA match distance {distance} exceeds available history {available} at output {output.position}"
    else do
      output.ensureAdditional length
      let bytes ← copyFrom distance length output.bytes
      pure { output with bytes }

end Output

/-! ### Operations -/

def propertiesFromByte (byte : UInt8) : Except Error (Nat × Nat × Nat) :=
  let parameter := byte.toNat
  if parameter > 224 then
    .error (formatError "invalid LZMA property byte")
  else
    let lc := parameter % 9
    let remainder := parameter / 9
    let lp := remainder % 5
    let pb := remainder / 5
    if pb > 4 ∨ lc + lp > 4 then
      .error (formatError "invalid LZMA lc/lp/pb properties")
    else
      .ok (lc, lp, pb)

/-- `LzmaState` without its probabilities. -/
structure LzmaState where
  /-- `[u32; 4]`. -/
  repetitions : List Nat
  state : Nat
  lc : Nat
  lp : Nat
  positionMask : Nat
  deriving DecidableEq

namespace LzmaState

def new (lc lp pb : Nat) : Except Error LzmaState :=
  if pb > 4 then
    .error (formatError "LZMA position-bit property is invalid")
  else do
    let positionMask ← okOr ((checkedShl 64 1 pb).bind fun value => checkedSub value 1)
      (formatError "LZMA position mask overflows")
    -- `LiteralDecoder::new`
    let contextBits ← okOr (checkedAdd 32 lc lp)
      (formatError "LZMA literal context width overflows")
    if contextBits > 4 then
      .error (formatError "LZMA literal context width exceeds 7z limits")
    else
      pure ⟨[0, 0, 0, 0], 0, lc, lp, positionMask⟩

def reset (state : LzmaState) : LzmaState := { state with repetitions := [0, 0, 0, 0], state := 0 }

def updateLiteral (state : LzmaState) : LzmaState :=
  { state with state := if state.state < 4 then 0 else if state.state < 10 then state.state - 3
      else state.state - 6 }

def updateMatch (state : LzmaState) : LzmaState :=
  { state with state := if state.state < 7 then 7 else 10 }

def updateRepetition (state : LzmaState) : LzmaState :=
  { state with state := if state.state < 7 then 8 else 11 }

def updateShortRepetition (state : LzmaState) : LzmaState :=
  { state with state := if state.state < 7 then 9 else 11 }

def repetition (state : LzmaState) (index : Nat) : Work Nat :=
  orFormat state.repetitions[index]? "LZMA repetition state is missing"

/-- `if let Some(item) = state.repetitions.get_mut(index)`. -/
def setRepetition (state : LzmaState) (index distance : Nat) : LzmaState :=
  { state with repetitions := state.repetitions.set index distance }

end LzmaState

inductive Operation where
  | literal (byte : UInt8)
  | match (distance length : Nat)
  | end
  deriving DecidableEq

/-- The branch of `decode_operation` for a new distance. -/
def decodeMatch (state : LzmaState) (positionState : Nat) : StateT σ Work (Operation × LzmaState) := do
  let rep0 ← state.repetition 0
  let rep1 ← state.repetition 1
  let rep2 ← state.repetition 2
  let state := ((state.setRepetition 3 rep2).setRepetition 2 rep1).setRepetition 1 rep0
  let state := state.updateMatch
  let lengthOffset ← decodeLength source .match positionState
  let distanceOffset ← decodeDistance source lengthOffset
  let state := state.setRepetition 0 distanceOffset
  if distanceOffset = eosDistance then
    pure (.end, state)
  else do
    let distance ← orFormat (checkedAdd 32 distanceOffset 1) "LZMA match distance overflows"
    let length ← orFormat (checkedAdd 32 lengthOffset minMatchLength) "LZMA match length overflows"
    pure (.match distance length, state)

/-- The distance of a repetition other than the last one, and the repetitions behind it. -/
def chooseRepetition (state : LzmaState) : StateT σ Work (Nat × LzmaState) := do
  let notOne ← source.coded (.isRepOne state.state) "LZMA repetition-one states are missing"
    "LZMA repetition-one state is out of range"
  if notOne = 0 then do
    let distance ← state.repetition 1
    pure (distance, state)
  else do
    let notTwo ← source.coded (.isRepTwo state.state) "LZMA repetition-two states are missing"
      "LZMA repetition-two state is out of range"
    let (distance, state) ← (if notTwo = 0 then do
        let distance ← state.repetition 2
        pure (distance, state)
      else do
        let distance ← state.repetition 3
        let rep2 ← state.repetition 2
        pure (distance, state.setRepetition 3 rep2) : Work (Nat × LzmaState))
    let rep1 ← state.repetition 1
    pure (distance, state.setRepetition 2 rep1)

/-- The last branch of `decode_operation`: a repetition of more than one byte. -/
def finishRepetition (state : LzmaState) (distance positionState : Nat) :
    StateT σ Work (Operation × LzmaState) := do
  let lengthOffset ← decodeLength source .repetition positionState
  let state := state.updateRepetition
  let distance ← orFormat (checkedAdd 32 distance 1) "LZMA repetition distance overflows"
  let length ← orFormat (checkedAdd 32 lengthOffset minMatchLength)
    "LZMA repetition length overflows"
  pure (.match distance length, state)

/-- The branches of `decode_operation` for a distance that was used before. -/
def decodeRepetition (state : LzmaState) (combined positionState : Nat) :
    StateT σ Work (Operation × LzmaState) := do
  let distance ← state.repetition 0
  let notZero ← source.coded (.isRepZero state.state) "LZMA repetition-zero states are missing"
    "LZMA repetition-zero state is out of range"
  if notZero = 0 then do
    let long ← source.coded (.isRepZeroLong combined) "LZMA short-repetition states are missing"
      "LZMA short-repetition state is out of range"
    if long = 0 then do
      let state := state.updateShortRepetition
      let distance ← orFormat (checkedAdd 32 distance 1) "LZMA repetition distance overflows"
      pure (.match distance 1, state)
    else
      finishRepetition source state distance positionState
  else do
    let (distance, state) ← chooseRepetition source state
    let rep0 ← state.repetition 0
    let state := (state.setRepetition 1 rep0).setRepetition 0 distance
    finishRepetition source state distance positionState

def decodeOperation (state : LzmaState) (output : Output) : StateT σ Work (Operation × LzmaState) := do
  checkpoint 1
  let position := output.position
  let positionState := position &&& state.positionMask
  let combined ← orFormat ((checkedMul 64 state.state positionStates).bind fun value =>
    checkedAdd 64 value positionState) "LZMA state index overflows"
  let isMatch ← source.coded (.isMatch combined) "LZMA match states are missing"
    "LZMA match state is out of range"
  if isMatch = 0 then do
    let rep0 ← state.repetition 0
    let literal ← decodeLiteral source state.lc state.lp state.state (output.matchByte rep0)
      output.previousByte position
    pure (.literal literal, state.updateLiteral)
  else do
    let isRep ← source.coded (.isRep state.state) "LZMA repetition states are missing"
      "LZMA repetition state is out of range"
    if isRep = 0 then
      decodeMatch source state positionState
    else
      decodeRepetition source state combined positionState

/-- One operation applied to the output, within the declared size. -/
def applyMatch (output : Output) (target : Option Nat) (distance length : Nat) : Work Output := do
  let resulting ← (match target with
    | some _ => orFormat (checkedAdd 64 output.position length) "LZMA match result size overflows"
    | none => pure 0 : Work Nat)
  if target.any (resulting > ·) then
    formatErr "LZMA output exceeds its declared size"
  else
    output.copyMatch distance length

/-- Is the stream complete?  It is with its declared size, or with an end marker. -/
def finishAtEos (output : Output) (decoder : RangeDecoder) (target : Option Nat) (requireEos : Bool) :
    Work Unit :=
  if !decoder.possiblyAtEnd then
    formatErr "LZMA range state is not final at EOS"
  else if !decoder.isFinished then
    formatErr "LZMA stream has trailing input after EOS"
  else if target.any (output.position ≠ ·) then
    formatErr "LZMA EOS precedes its declared size"
  else if requireEos || target.isSome then
    pure ()
  else
    formatErr "LZMA stream ended unexpectedly"

/-- What the loop of `decode_stream` carries. -/
structure StreamState where
  state : LzmaState
  output : Output
  deriving DecidableEq

/-- The loop of `decode_stream`; `atEos` is what is asked of the source at an end marker. -/
def decodeLoop (atEos : Output → σ → Work Unit) (target : Option Nat) :
    Nat → StreamState → StateT σ Work StreamState
  | 0, _ => do formatErr "LZMA stream does not advance"
  | fuel + 1, stream =>
      if target = some stream.output.position then
        pure stream
      else do
        let (operation, state) ← decodeOperation source stream.state stream.output
        match operation with
        | .literal byte => do
            let output ← stream.output.push byte
            decodeLoop atEos target fuel ⟨state, output⟩
        | .match distance length => do
            let output ← applyMatch stream.output target distance length
            decodeLoop atEos target fuel ⟨state, output⟩
        | .end => do
            let source ← get
            atEos stream.output source
            pure ⟨state, stream.output⟩

end decoders

/-! ### Streams -/

/-- The whole of `LzmaState`. -/
structure StoredState where
  state : LzmaState
  tables : Tables
  deriving DecidableEq

def StoredState.new (lc lp pb : Nat) : Except Error StoredState := do
  let state ← LzmaState.new lc lp pb
  pure ⟨state, Tables.new lc lp⟩

def StoredState.reset (stored : StoredState) : StoredState :=
  ⟨stored.state.reset, Tables.new stored.state.lc stored.state.lp⟩

/-- The size of the output once the stream is decoded, where it is declared. -/
def streamTarget (output : Output) : Option Nat → Work (Option Nat)
  | none => pure none
  | some size => do
      let target ← orFormat (checkedAdd 64 output.position size) "LZMA target size overflows"
      checkLimit target output.maximum .totalOutputBytes
      pure (some target)

/-- `decode_stream`.  Each operation adds to the output, so there are at most so many. -/
def decodeStream (source : Source Coder) (stored : StoredState) (input : Bytes) (output : Output)
    (expectedIncrement : Option Nat) (requireEos : Bool) : Work (StoredState × Output) := do
  let target ← streamTarget output expectedIncrement
  let range ← RangeDecoder.new input
  let (stream, coder) ← decodeLoop source
    (fun output coder => finishAtEos output coder.decoder target requireEos) target
    (output.maximum + 1 - output.position) ⟨stored.state, output⟩ ⟨range, stored.tables⟩
  pure (⟨stream.state, coder.tables⟩, stream.output)

/-- `lzma_dictionary`: the property byte and the size of the dictionary. -/
def lzmaDictionary (properties : Bytes) : Except Error (UInt8 × Nat) :=
  match properties with
  | [property, b0, b1, b2, b3] => .ok (property, max (leValue [b0, b1, b2, b3]) 1)
  | _ => .error (formatError "LZMA properties must contain exactly five bytes")

/-- `decode_lzma`, with the bits of any source. -/
def decodeLzmaFrom (source : Source Coder) (input properties : Bytes) (expected : Option Nat)
    (maximum : Nat) : Work Bytes := do
  let (property, dictionary) ← ofExcept (lzmaDictionary properties)
  let (lc, lp, pb) ← ofExcept (propertiesFromByte property)
  let stored ← ofExcept (StoredState.new lc lp pb)
  let output ← Output.new maximum dictionary expected
  let (_, output) ← decodeStream source stored input output expected expected.isNone
  pure output.bytes

def decodeLzma (input properties : Bytes) (expected : Option Nat) (maximum : Nat) : Work Bytes :=
  decodeLzmaFrom rangeSource input properties expected maximum

/-! ### LZMA2 -/

def lzma2Dictionary (properties : Bytes) : Except Error Nat :=
  match properties.head? with
  | none => .error (formatError "LZMA2 dictionary property is missing")
  | some byte =>
      let property := byte.toNat
      if properties.length ≠ 1 ∨ property > 40 then
        .error (formatError "invalid LZMA2 dictionary property")
      else do
        let shift ← okOr (checkedAdd 32 (property / 2) 11)
          (formatError "LZMA2 dictionary shift overflows")
        okOr (checkedShl 64 (2 ||| (property &&& 1)) shift)
          (formatError "LZMA2 dictionary size overflows")

structure SliceCursor where
  bytes : Bytes
  position : Nat
  deriving DecidableEq

namespace SliceCursor

def readU8 : StateT SliceCursor Work UInt8 := fun cursor => do
  checkpoint 1
  let byte ← orFormat cursor.bytes[cursor.position]? "truncated LZMA2 stream"
  let position ← orFormat (checkedAdd 64 cursor.position 1) "LZMA2 input cursor overflows"
  pure (byte, { cursor with position })

def readU16Be : StateT SliceCursor Work Nat := do
  let high ← readU8
  let low ← readU8
  pure ((high.toNat <<< 8) ||| low.toNat)

def readBytes (length : Nat) : StateT SliceCursor Work Bytes := fun cursor => do
  let bytes ← checkedRange cursor.bytes cursor.position length "LZMA2 input range overflows"
    "truncated LZMA2 chunk"
  consumeBytes bytes
  pure (bytes, { cursor with position := cursor.position + length })

def isFinished (cursor : SliceCursor) : Bool := cursor.position == cursor.bytes.length

end SliceCursor

/-- What the loop of `decode_lzma2` carries next to its input. -/
structure Chunked where
  output : Output
  stored : Option StoredState
  needsDictionaryReset : Bool
  needsProperties : Bool
  deriving DecidableEq

/-- What a control byte says of the dictionary. -/
def resetDictionary (chunked : Chunked) (control : Nat) : Work Chunked :=
  if control ≥ 0xe0 ∨ control = 1 then
    pure { chunked with
      output := chunked.output.resetDictionary
      needsDictionaryReset := false
      needsProperties := true }
  else if chunked.needsDictionaryReset then
    formatErr "LZMA2 stream omits its initial dictionary reset"
  else
    pure chunked

/-- What it says of the state of the decoder. -/
def resetState (chunked : Chunked) (control : Nat) : StateT SliceCursor Work Chunked := do
  if control ≥ 0xc0 then do
    let property ← SliceCursor.readU8
    let (lc, lp, pb) ← (ofExcept (propertiesFromByte property) : Work (Nat × Nat × Nat))
    let stored ← (ofExcept (StoredState.new lc lp pb) : Work StoredState)
    pure { chunked with stored := some stored, needsProperties := false }
  else if chunked.needsProperties then
    formatErr "LZMA2 compressed chunk omits required properties"
  else if control ≥ 0xa0 then do
    let stored ← orFormat chunked.stored "LZMA2 decoder state is missing"
    pure { chunked with stored := some stored.reset }
  else
    pure chunked

def compressedChunk (source : Source Coder) (chunked : Chunked) (control : Nat) :
    StateT SliceCursor Work Chunked := do
  let high ← orFormat (checkedShl 64 (control &&& 0x1f) 16) "LZMA2 chunk size overflows"
  let low ← SliceCursor.readU16Be
  let unpacked ← orFormat ((checkedAdd 64 high low).bind fun value => checkedAdd 64 value 1)
    "LZMA2 chunk size overflows"
  let packed ← SliceCursor.readU16Be
  let packed ← orFormat (checkedAdd 64 packed 1) "LZMA2 packed chunk size overflows"
  let chunked ← resetState chunked control
  let packed ← SliceCursor.readBytes packed
  let stored ← orFormat chunked.stored "LZMA2 decoder properties are missing"
  let (stored, output) ← decodeStream source stored packed chunked.output (some unpacked) false
  pure { chunked with output, stored := some stored }

def uncompressedChunk (chunked : Chunked) : StateT SliceCursor Work Chunked := do
  let unpacked ← SliceCursor.readU16Be
  let unpacked ← orFormat (checkedAdd 64 unpacked 1) "LZMA2 uncompressed chunk size overflows"
  let bytes ← SliceCursor.readBytes unpacked
  let output ← chunked.output.extendUncompressed bytes
  pure { chunked with output }

/-- A chunk after its control byte. -/
def decodeChunk (source : Source Coder) (chunked : Chunked) (control : Nat) :
    StateT SliceCursor Work Chunked := do
  let chunked ← resetDictionary chunked control
  if control ≥ 0x80 then
    compressedChunk source chunked control
  else if control ≤ 2 then
    uncompressedChunk chunked
  else
    formatErr "reserved LZMA2 control byte"

/-- The loop of `decode_lzma2`. -/
def decodeChunks (source : Source Coder) (expected : Option Nat) :
    Nat → Chunked → StateT SliceCursor Work Bytes
  | 0, _ => do formatErr "LZMA2 stream does not advance"
  | fuel + 1, chunked => do
      checkpoint 1
      let control ← SliceCursor.readU8
      if control = 0 then do
        let cursor ← get
        if !cursor.isFinished then
          formatErr "LZMA2 stream has trailing bytes after EOS"
        else if expected.any (chunked.output.position ≠ ·) then
          formatErr "LZMA2 output size does not match its declaration"
        else
          pure chunked.output.bytes
      else do
        let chunked ← decodeChunk source chunked control.toNat
        if expected.any (chunked.output.position > ·) then
          formatErr "LZMA2 output exceeds its declared size"
        else
          decodeChunks source expected fuel chunked

/-- `decode_lzma2`, with the bits of any source.  Each chunk takes a byte of the input. -/
def decodeLzma2From (source : Source Coder) (input properties : Bytes) (expected : Option Nat)
    (maximum : Nat) : Work Bytes := do
  let dictionary ← ofExcept (lzma2Dictionary properties)
  let output ← Output.new maximum (max dictionary 1) expected
  let (bytes, _) ← decodeChunks source expected (input.length + 1) ⟨output, none, true, true⟩
    ⟨input, 0⟩
  pure bytes

def decodeLzma2 (input properties : Bytes) (expected : Option Nat) (maximum : Nat) : Work Bytes :=
  decodeLzma2From rangeSource input properties expected maximum

end Lzma

end Un7z
