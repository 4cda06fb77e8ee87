/-
Deflate64, `decode/deflate64.rs`.

A stream is a sequence of blocks, stored or coded with two prefix codes.  The codes are
canonical, so a block carries only the lengths of its codewords, which are themselves
written in a prefix code and in runs.  The reader takes bits from the low end of a byte
on; what the source keeps in `&mut BitReader` is the state of `Bits`.

The buffer the output grows into is a list here, so that the reservations of capacity, and
the errors of an allocator that fails, are left out.
-/
import Mathlib.Algebra.Group.Int.Defs
import Un7z.ParseUtil

namespace Un7z

namespace Deflate64

def deflate64DictionaryBytes : Nat := 64 * 1024
def maxCodeBits : Nat := 15
def maxHuffmanSymbols : Nat := 320

def codeLengthOrder : List Nat :=
  [16, 17, 18, 0, 8, 7, 9, 6, 10, 5, 11, 4, 12, 3, 13, 2, 14, 1, 15]

def lengthBase : List Nat :=
  [3, 4, 5, 6, 7, 8, 9, 10, 11, 13, 15, 17, 19, 23, 27, 31, 35, 43, 51, 59, 67, 83, 99, 115, 131,
    163, 195, 227, 3]

def lengthExtra : List Nat :=
  [0, 0, 0, 0, 0, 0, 0, 0, 1, 1, 1, 1, 2, 2, 2, 2, 3, 3, 3, 3, 4, 4, 4, 4, 5, 5, 5, 5, 16]

def distanceBase : List Nat :=
  [1, 2, 3, 4, 5, 7, 9, 13, 17, 25, 33, 49, 65, 97, 129, 193, 257, 385, 513, 769, 1025, 1537,
    2049, 3073, 4097, 6145, 8193, 12289, 16385, 24577, 32769, 49153]

def distanceExtra : List Nat :=
  [0, 0, 0, 0, 1, 1, 2, 2, 3, 3, 4, 4, 5, 5, 6, 6, 7, 7, 8, 8, 9, 9, 10, 10, 11, 11, 12, 12, 13,
    13, 14, 14]

/-! ### The bit reader -/

structure BitReader where
  input : Bytes
  position : Nat
  /-- The bits that have been read and not yet used, the next one lowest. -/
  buffer : Nat
  bufferedBits : Nat
  deriving DecidableEq

/-- A function of the source that takes `&mut BitReader` and the control. -/
abbrev Bits := StateT BitReader Work

namespace BitReader

def new (input : Bytes) : BitReader := ⟨input, 0, 0, 0⟩

def readByte : Bits UInt8 := fun reader => do
  checkpoint 1
  let byte ← orFormat reader.input[reader.position]? "truncated Deflate64 bitstream"
  let position ← orFormat (checkedAdd 64 reader.position 1) "Deflate64 input position overflows"
  pure (byte, { reader with position })

/-- `while self.buffered_bits < count`: one more byte above those in the buffer. -/
def refill (count : Nat) : Nat → Bits Unit
  | 0 => do formatErr "Deflate64 refill does not advance"
  | fuel + 1 => do
      let reader ← get
      if reader.bufferedBits < count then do
        let byte ← readByte
        let shifted ← orFormat (checkedShl 64 byte.toNat reader.bufferedBits)
          "Deflate64 bit buffer shift overflows"
        let bufferedBits ← orFormat (checkedAdd 32 reader.bufferedBits 8)
          "Deflate64 buffered-bit count overflows"
        modify fun reader => { reader with buffer := reader.buffer ||| shifted, bufferedBits }
        refill count fuel
      else
        pure ()

def readBits (count : Nat) : Bits Nat := do
  if count > 24 then
    formatErr "Deflate64 bit request is too large"
  else do
    refill count (count + 1)
    let mask ← (if count = 0 then pure 0 else
      orFormat ((checkedShl 64 1 count).bind fun value => checkedSub value 1)
        "Deflate64 bit mask overflows" : Work Nat)
    let reader ← get
    let value ← orFormat (tryFrom 32 (reader.buffer &&& mask))
      "Deflate64 bit value is not representable"
    let bufferedBits ← orFormat (checkedSub reader.bufferedBits count)
      "Deflate64 buffered-bit count underflows"
    set { reader with buffer := reader.buffer >>> count, bufferedBits }
    pure value

def alignToByte (reader : BitReader) : BitReader := { reader with buffer := 0, bufferedBits := 0 }

def hasTrailingBytes (reader : BitReader) : Bool := reader.position != reader.input.length

end BitReader

open BitReader (readBits)

/-! ### Prefix codes -/

/-- How many codewords there are of each length, and the symbols in the order of their codewords. -/
structure Huffman where
  /-- `[u16; MAX_CODE_BITS + 1]`. -/
  counts : List Nat
  /-- `[u16; MAX_HUFFMAN_SYMBOLS]`. -/
  symbols : List Nat
  symbolCount : Nat
  deriving DecidableEq

/-- An `i32` that is in its range. -/
def checkedI32 (value : Int) : Option Int :=
  if -2 ^ 31 ≤ value ∧ value < 2 ^ 31 then some value else none

/-- `1..=MAX_CODE_BITS`. -/
def codeBits : List Nat := List.range' 1 maxCodeBits

namespace Huffman

/-- Count one length. -/
def countLength (counts : List Nat) (length : Nat) : Except Error (List Nat) :=
  if length > maxCodeBits then
    .error (formatError "Deflate64 Huffman code is too long")
  else if length ≠ 0 then do
    let count ← okOr counts[length]? (formatError "Deflate64 Huffman length is out of range")
    let count ← okOr (checkedAdd 16 count 1) (formatError "Deflate64 Huffman count overflows")
    pure (counts.set length count)
  else
    pure counts

/-- How many codewords are left when those of one more length are taken. -/
def takeCodes (available : Int) (count : Nat) : Except Error Int := do
  let available ← okOr ((checkedI32 (available * 2)).bind fun value => checkedI32 (value - count))
    (formatError "Deflate64 Huffman validation overflows")
  if available < 0 then
    .error (formatError "Deflate64 Huffman tree is oversubscribed")
  else
    pure available

/-- Where the symbols of one length start. -/
def placeLength (counts : List Nat) (state : List Nat × Nat) (length : Nat) :
    Except Error (List Nat × Nat) := do
  let (offsets, running) := state
  let _ ← okOr offsets[length]? (formatError "Deflate64 Huffman offset is out of range")
  let count ← okOr counts[length]? (formatError "Deflate64 Huffman count is out of range")
  let next ← okOr (checkedAdd 64 running count) (formatError "Deflate64 Huffman offset overflows")
  pure (offsets.set length running, next)

/-- Put one symbol where the next one of its length goes. -/
def placeSymbol (state : List Nat × List Nat) (entry : Nat × Nat) :
    Except Error (List Nat × List Nat) :=
  let (offsets, symbols) := state
  let (length, symbol) := entry
  if length = 0 then
    pure (offsets, symbols)
  else do
    let destination ← okOr offsets[length]?
      (formatError "Deflate64 Huffman offset is out of range")
    let _ ← okOr symbols[destination]?
      (formatError "Deflate64 Huffman symbol index is out of range")
    let symbol ← okOr (tryFrom 16 symbol)
      (formatError "Deflate64 Huffman symbol is not representable")
    let next ← okOr (checkedAdd 64 destination 1)
      (formatError "Deflate64 Huffman offset overflows")
    pure (offsets.set length next, symbols.set destination symbol)

def fromLengths (lengths : List Nat) (allowEmpty : Bool) : Except Error Huffman :=
  if lengths.length > maxHuffmanSymbols then
    .error (formatError "Deflate64 Huffman alphabet is too large")
  else do
    let counts ← lengths.foldlM countLength (List.replicate (maxCodeBits + 1) 0)
    let symbolCount ← (counts.drop 1).foldlM (fun total count =>
      okOr (checkedAdd 64 total count)
        (formatError "Deflate64 Huffman symbol count overflows")) 0
    if symbolCount = 0 ∧ !allowEmpty then
      .error (formatError "Deflate64 Huffman tree is empty")
    else do
      let _ ← (counts.drop 1).foldlM takeCodes 1
      let (offsets, _) ← codeBits.foldlM (placeLength counts)
        (List.replicate (maxCodeBits + 1) 0, 0)
      let (_, symbols) ← lengths.zipIdx.foldlM placeSymbol
        (offsets, List.replicate maxHuffmanSymbols 0)
      pure ⟨counts, symbols, symbolCount⟩

/-- The loop of `decode`, over the lengths that are left. -/
def decodeFrom (tree : Huffman) : List Nat → Nat → Nat → Nat → Bits Nat
  | [], _, _, _ => do formatErr "invalid Deflate64 Huffman code"
  | length :: lengths, code, first, index => do
      let bit ← readBits 1
      let code := code ||| bit
      let count ← orFormat tree.counts[length]? "Deflate64 Huffman count is out of range"
      let stop ← orFormat (checkedAdd 32 first count) "Deflate64 Huffman code range overflows"
      if code < stop then do
        let relative ← orFormat (checkedSub code first) "Deflate64 Huffman code underflows"
        let symbolIndex ← orFormat (checkedAdd 64 index relative)
          "Deflate64 Huffman index overflows"
        if symbolIndex ≥ tree.symbolCount then
          formatErr "Deflate64 Huffman symbol is out of range"
        else
          orFormat tree.symbols[symbolIndex]? "Deflate64 Huffman symbol is missing"
      else do
        let index ← orFormat (checkedAdd 64 index count) "Deflate64 Huffman index overflows"
        let first ← orFormat (checkedShl 32 stop 1) "Deflate64 Huffman first code overflows"
        let code ← orFormat (checkedShl 32 code 1) "Deflate64 Huffman code overflows"
        decodeFrom tree lengths code first index

def decode (tree : Huffman) : Bits Nat := decodeFrom tree codeBits 0 0 0

end Huffman

/-! ### The output -/

def reserveOutput (output : Bytes) (additional : Nat) (expected : Option Nat) (maximum : Nat) :
    Work Unit := do
  let next ← orFormat (checkedAdd 64 output.length additional) "Deflate64 output size overflows"
  if expected.any (next > ·) then
    formatErr "Deflate64 output exceeds its declared size"
  else
    checkLimit next maximum .totalOutputBytes

def appendLiteral (output : Bytes) (byte : UInt8) (expected : Option Nat) (maximum : Nat) :
    Work Bytes := do
  reserveOutput output 1 expected maximum
  checkpoint 1
  pure (output ++ [byte])

/-- The loop of `copy_match`: each byte may be one that was copied before. -/
def copyFrom (distance : Nat) : Nat → Bytes → Work Bytes
  | 0, output => pure output
  | length + 1, output => do
      checkpoint 1
      let source ← orFormat (checkedSub output.length distance) "Deflate64 history index underflows"
      let byte ← orFormat output[source]? "Deflate64 history index is out of range"
      copyFrom distance length (output ++ [byte])

def copyMatch (output : Bytes) (distance length : Nat) (expected : Option Nat) (maximum : Nat) :
    Work Bytes :=
  if distance = 0 ∨ distance > deflate64DictionaryBytes then
    formatErr "Deflate64 match distance is invalid"
  else if distance > output.length then
    formatErr "Deflate64 match precedes available history"
  else do
    reserveOutput output length expected maximum
    copyFrom distance length output

/-! ### The codes of a block -/

def fixedLiterals : List Nat :=
  List.replicate 144 8 ++ List.replicate 112 9 ++ List.replicate 24 7 ++ List.replicate 8 8

def fixedTrees : Except Error (Huffman × Huffman) := do
  let literals ← Huffman.fromLengths fixedLiterals false
  let distances ← Huffman.fromLengths (List.replicate 32 5) false
  pure (literals, distances)

/-- `u8::try_from` of three bits, for each place of `CODE_LENGTH_ORDER` that is left. -/
def readCodeLengths : List Nat → List Nat → Bits (List Nat)
  | [], codeLengths => pure codeLengths
  | destination :: order, codeLengths => do
      let length ← readBits 3
      let length ← orFormat (tryFrom 8 length) "Deflate64 code length is not representable"
      if destination < codeLengths.length then
        readCodeLengths order (codeLengths.set destination length)
      else
        formatErr "Deflate64 code-length index is out of range"

/-- `lengths[position..end]` filled with one length. -/
def fillLengths (lengths : List Nat) (position stop length : Nat) : List Nat :=
  lengths.take position ++ List.replicate (stop - position) length ++ lengths.drop stop

/-- One round of `while position < total`, for a symbol of the code-length code. -/
def expandSymbol (total : Nat) (lengths : List Nat) (position symbol : Nat) :
    Bits (List Nat × Nat) :=
  if symbol ≤ 15 then do
    if position < lengths.length then do
      let length ← orFormat (tryFrom 8 symbol) "Deflate64 code length is not representable"
      let next ← orFormat (checkedAdd 64 position 1) "Deflate64 dynamic length index overflows"
      pure (lengths.set position length, next)
    else
      formatErr "Deflate64 dynamic length is out of range"
  else if symbol = 16 then do
    let previousIndex ← orFormat (checkedSub position 1) "Deflate64 repeat has no previous length"
    let previous ← orFormat lengths[previousIndex]? "Deflate64 previous length is out of range"
    let bits ← readBits 2
    let count ← orFormat (checkedAdd 64 bits 3) "Deflate64 repeat count overflows"
    let stop ← orFormat (checkedAdd 64 position count) "Deflate64 repeat range overflows"
    if stop > total then
      formatErr "Deflate64 repeat exceeds its table"
    else if stop ≤ lengths.length then
      pure (fillLengths lengths position stop previous, stop)
    else
      formatErr "Deflate64 repeat range is out of bounds"
  else if symbol = 17 ∨ symbol = 18 then do
    let (width, base) := if symbol = 17 then (3, 3) else (7, 11)
    let bits ← readBits width
    let count ← orFormat (checkedAdd 64 bits base) "Deflate64 zero repeat overflows"
    let stop ← orFormat (checkedAdd 64 position count) "Deflate64 zero-repeat range overflows"
    if stop > total then
      formatErr "Deflate64 zero repeat exceeds its table"
    else
      pure (lengths, stop)
  else do
    formatErr "invalid Deflate64 code-length symbol"

/-- `while position < total`. -/
def readLengths (codeTree : Huffman) (total : Nat) : Nat → List Nat → Nat → Bits (List Nat)
  | 0, _, _ => do formatErr "Deflate64 length table does not advance"
  | fuel + 1, lengths, position =>
      if position < total then do
        let symbol ← codeTree.decode
        let (lengths, position) ← expandSymbol total lengths position symbol
        readLengths codeTree total fuel lengths position
      else
        pure lengths

/-- `lengths.get(start..stop)`. -/
def slice (lengths : List Nat) (start stop : Nat) : Option (List Nat) :=
  if start ≤ stop ∧ stop ≤ lengths.length then some ((lengths.take stop).drop start) else none

def dynamicTrees : Bits (Huffman × Huffman) := do
  let bits ← readBits 5
  let literalCount ← orFormat (checkedAdd 64 bits 257) "Deflate64 literal count overflows"
  let bits ← readBits 5
  let distanceCount ← orFormat (checkedAdd 64 bits 1) "Deflate64 distance count overflows"
  let bits ← readBits 4
  let codeLengthCount ← orFormat (checkedAdd 64 bits 4) "Deflate64 code-length count overflows"
  if literalCount > 286 ∨ distanceCount > 32 ∨ codeLengthCount > 19 then
    formatErr "Deflate64 dynamic table count is invalid"
  else do
    let codeLengths ← readCodeLengths (codeLengthOrder.take codeLengthCount) (List.replicate 19 0)
    let codeTree ← ofExcept (Huffman.fromLengths codeLengths false)
    let total ← orFormat (checkedAdd 64 literalCount distanceCount)
      "Deflate64 dynamic alphabet size overflows"
    let lengths ← readLengths codeTree total (total + 1) (List.replicate 318 0) 0
    if lengths[256]?.getD 0 = 0 then
      formatErr "Deflate64 literal tree has no end-of-block code"
    else do
      let literals ← orFormat (slice lengths 0 literalCount)
        "Deflate64 literal table is out of range"
      let distances ← orFormat (slice lengths literalCount total)
        "Deflate64 distance table is out of range"
      let literals ← ofExcept (Huffman.fromLengths literals false)
      -- a block of literals alone may declare an empty distance code
      let distances ← ofExcept (Huffman.fromLengths distances true)
      pure (literals, distances)

/-! ### Blocks -/

/-- The length and the distance of a match, behind its first symbol. -/
def readMatch (distanceTree : Huffman) (symbol : Nat) : Bits (Nat × Nat) := do
  let lengthIndex ← orFormat (checkedSub symbol 257) "Deflate64 length index underflows"
  let base ← orFormat lengthBase[lengthIndex]? "Deflate64 length code is out of range"
  let extra ← orFormat lengthExtra[lengthIndex]? "Deflate64 length code is out of range"
  let bits ← readBits extra
  let length ← orFormat (checkedAdd 32 base bits) "Deflate64 match length overflows"
  let distanceSymbol ← distanceTree.decode
  let base ← orFormat distanceBase[distanceSymbol]? "Deflate64 distance code is out of range"
  let extra ← orFormat distanceExtra[distanceSymbol]? "Deflate64 distance code is out of range"
  let bits ← readBits extra
  let distance ← orFormat (checkedAdd 32 base bits) "Deflate64 match distance overflows"
  pure (length, distance)

/-- The loop of `decode_compressed_block`. -/
def decodeCompressedBlock (literalTree distanceTree : Huffman) (expected : Option Nat)
    (maximum : Nat) : Nat → Bytes → Bits Bytes
  | 0, _ => do formatErr "Deflate64 block does not advance"
  | fuel + 1, output => do
      checkpoint 1
      let symbol ← literalTree.decode
      if symbol ≤ 255 then do
        let byte ← orFormat (tryFrom 8 symbol) "Deflate64 literal is not representable"
        let output ← appendLiteral output (UInt8.ofNat byte) expected maximum
        decodeCompressedBlock literalTree distanceTree expected maximum fuel output
      else if symbol = 256 then
        pure output
      else if symbol ≤ 285 then do
        let (length, distance) ← readMatch distanceTree symbol
        let output ← copyMatch output distance length expected maximum
        decodeCompressedBlock literalTree distanceTree expected maximum fuel output
      else
        formatErr "reserved Deflate64 literal/length code"

/-- The loop of `decode_stored_block`. -/
def readStored : Nat → Bytes → Bits Bytes
  | 0, output => pure output
  | length + 1, output => do
      let bits ← readBits 8
      let byte ← orFormat (tryFrom 8 bits) "Deflate64 stored byte is not representable"
      checkpoint 1
      readStored length (output ++ [UInt8.ofNat byte])

def decodeStoredBlock (output : Bytes) (expected : Option Nat) (maximum : Nat) : Bits Bytes := do
  modify BitReader.alignToByte
  let length ← readBits 16
  let complement ← readBits 16
  if length ^^^ 0xffff ≠ complement then
    formatErr "invalid Deflate64 stored-block length"
  else do
    reserveOutput output length expected maximum
    readStored length output

/-- A block, behind the bit that says whether it is the last one. -/
def decodeBlock (fuel : Nat) (output : Bytes) (expected : Option Nat) (maximum : Nat) :
    Bits Bytes := do
  let kind ← readBits 2
  if kind = 0 then
    decodeStoredBlock output expected maximum
  else if kind = 1 then do
    let (literalTree, distanceTree) ← ofExcept fixedTrees
    decodeCompressedBlock literalTree distanceTree expected maximum fuel output
  else if kind = 2 then do
    let (literalTree, distanceTree) ← dynamicTrees
    decodeCompressedBlock literalTree distanceTree expected maximum fuel output
  else
    formatErr "reserved Deflate64 block type"

/-- The loop over the blocks. -/
def decodeBlocks (symbolFuel : Nat) (expected : Option Nat) (maximum : Nat) :
    Nat → Bytes → Bits Bytes
  | 0, _ => do formatErr "Deflate64 stream does not advance"
  | fuel + 1, output => do
      checkpoint 1
      let finalBlock ← readBits 1
      let output ← decodeBlock symbolFuel output expected maximum
      if finalBlock ≠ 0 then
        pure output
      else
        decodeBlocks symbolFuel expected maximum fuel output

/-- No loop goes round more often than there are bits. -/
def roundLimit (input : Bytes) : Nat := 8 * input.length + 1

def decodeDeflate64 (input : Bytes) (expected : Option Nat) (maximum : Nat) (limits : Limits) :
    Work Bytes := do
  checkLimit deflate64DictionaryBytes limits.maxDictionaryBytes .dictionaryBytes
  checkLimit (expected.getD 0) maximum .totalOutputBytes
  let (output, reader) ← decodeBlocks (roundLimit input) expected maximum (roundLimit input) []
    (BitReader.new input)
  if reader.hasTrailingBytes then
    formatErr "Deflate64 stream has trailing input"
  else if expected.any (· ≠ output.length) then
    formatErr "decoded coder output size does not match its declaration"
  else
    pure output

end Deflate64

end Un7z
