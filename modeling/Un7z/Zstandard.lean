/-
The layout of a Zstandard file: `parse` and `parse_frame` of `stream/zstandard.rs`; and
the reader the 7z coder has for the same frame header, `zstd_window_bytes` of
`decode/codecs.rs`.
-/
import Un7z.Stream

namespace Un7z

namespace Zstandard

open StreamCursor

def maximumBlockBytes : Nat := 128 * 1024

structure ZstandardFrame where
  start : Nat
  stop : Nat
  contentSize : Option Nat
  windowBytes : Nat
  checksum : Bool
  dictionary : Bool
  deriving DecidableEq, Repr

structure ZstandardStreamInfo where
  frameCount : Nat
  skippableFrameCount : Nat
  contentChecksumFrameCount : Nat
  dictionaryFrameCount : Nat
  maximumWindowBytes : Nat
  deriving DecidableEq, Repr

structure ParsedFrame where
  contentSize : Option Nat
  windowBytes : Nat
  checksum : Bool
  dictionary : Bool
  deriving DecidableEq, Repr

/-! ### The frame header -/

/-- What the header of a frame says. -/
structure FrameHeader where
  descriptor : UInt8
  dictionaryId : Nat
  contentSize : Option Nat
  windowBytes : Nat
  deriving DecidableEq, Repr

def dictionaryLength (descriptor : UInt8) : Option Nat :=
  match (descriptor &&& 0x03).toNat with
  | 0 => some 0
  | 1 => some 1
  | 2 => some 2
  | 3 => some 4
  | _ => none

def contentLength (descriptor : UInt8) (singleSegment : Bool) : Option Nat :=
  match (descriptor >>> 6).toNat, singleSegment with
  | 0, false => some 0
  | 0, true => some 1
  | 1, _ => some 2
  | 2, _ => some 4
  | 3, _ => some 8
  | _, _ => none

/-- The window size of a window descriptor; the errors are those of the reader that asks. -/
def windowSize (window : UInt8)
    (exponentOverflows sizeOverflows mantissaOverflows : Work Nat) : Work Nat :=
  match checkedAdd 32 (window >>> 3).toNat 10 with
  | none => exponentOverflows
  | some exponent =>
      match checkedShl 64 1 exponent with
      | none => sizeOverflows
      | some base =>
          match checkedMul 64 (base / 8) (window &&& 0x07).toNat with
          | none => mantissaOverflows
          | some mantissa =>
              match checkedAdd 64 base mantissa with
              | none => sizeOverflows
              | some size => pure size

/-- The window descriptor, which a single segment does without. -/
def readWindowDescriptor (singleSegment : Bool) : StreamReads (Option UInt8) :=
  if singleSegment then
    pure none
  else do
    let window ← StreamCursor.readU8 "window descriptor is truncated"
    pure (some window)

/-- The content size, which two bytes hold less 256. -/
def readContentSize (contentLength : Nat) : StreamReads (Option Nat) :=
  if contentLength = 0 then
    pure none
  else do
    let value ← readLe contentLength "frame content size is truncated"
    if contentLength = 2 then do
      let value ← orStreamFormat (checkedAdd 64 value 256) "zstandard" "frame content size overflows"
      pure (some value)
    else
      pure (some value)

/-- The window of a single segment is its content, that of another frame is declared. -/
def frameWindow (singleSegment : Bool) (contentSize : Option Nat) (windowDescriptor : Option UInt8) :
    Work Nat :=
  match singleSegment, contentSize, windowDescriptor with
  | true, some size, none => pure size
  | false, _, some window =>
      windowSize window (streamFormatErr "zstandard" "window exponent overflows")
        (streamFormatErr "zstandard" "window size overflows")
        (streamFormatErr "zstandard" "window mantissa overflows")
  | _, _, _ => streamFormatErr "zstandard" "frame header is internally inconsistent"

/-- The part of `parse_frame` that reads the header. -/
def parseFrameHeader : StreamReads FrameHeader := do
  let descriptor ← StreamCursor.readU8 "frame descriptor is truncated"
  if descriptor &&& 0x08 ≠ 0 then
    streamFormatErr "zstandard" "reserved frame descriptor bit is set"
  else do
    let singleSegment : Bool := descriptor &&& 0x20 ≠ 0
    let windowDescriptor ← readWindowDescriptor singleSegment
    let dictionaryLength ←
      orStreamFormat (dictionaryLength descriptor) "zstandard" "invalid dictionary flag"
    let dictionaryId ← readLe dictionaryLength "dictionary ID is truncated"
    let contentLength ← orStreamFormat (contentLength descriptor singleSegment) "zstandard"
      "invalid content-size flag"
    let contentSize ← readContentSize contentLength
    let windowBytes ← frameWindow singleSegment contentSize windowDescriptor
    pure ⟨descriptor, dictionaryId, contentSize, windowBytes⟩

/-! ### The blocks -/

/-- One round of the block loop of `parse_frame`: was it the last block? -/
def parseBlock (maximumBlockBytes : Nat) : StreamReads Bool := do
  let blockHeader ← readU24Le "block header is truncated"
  let last : Bool := blockHeader &&& 1 ≠ 0
  let blockType := (blockHeader >>> 1) &&& 0x03
  let blockSize := blockHeader >>> 3
  if blockSize > maximumBlockBytes then
    streamFormatErr "zstandard" "block exceeds the frame maximum size"
  else do
    let payloadSize ← (match blockType with
      | 0 | 2 => pure blockSize
      | 1 => pure 1
      | 3 => streamFormatErr "zstandard" "reserved block type is used"
      | _ => streamFormatErr "zstandard" "invalid block type" : Work Nat)
    skipU64 payloadSize "block payload is truncated"
    pure last

def parseBlocks (maximumBlockBytes : Nat) : Nat → StreamReads Unit
  | 0 => refuse "block scan does not advance"
  | fuel + 1 => do
      if ← parseBlock maximumBlockBytes then
        pure ()
      else
        parseBlocks maximumBlockBytes fuel

def parseFrame : StreamReads ParsedFrame := do
  let header ← parseFrameHeader
  parseBlocks (min header.windowBytes maximumBlockBytes) ((← remaining).length + 1)
  let checksum : Bool := header.descriptor &&& 0x04 ≠ 0
  passU32If checksum "content checksum is truncated"
  pure ⟨header.contentSize, header.windowBytes, checksum, header.dictionaryId ≠ 0⟩

/-! ### The file -/

structure Counters where
  checksumFrames : Nat
  dictionaryFrames : Nat
  deriving DecidableEq, Repr

def readFrame (limits : Limits) (magic : Nat) (counters : Counters) :
    StreamReads (Counters × ParsedFrame) :=
  if magic ≠ zstandardMagic then
    streamFormatErr "zstandard" "unexpected frame magic"
  else do
    let parsed ← parseFrame
    checkLimit parsed.windowBytes limits.maxDictionaryBytes .dictionaryBytes
    pure (counters, parsed)

def countFrame (parsed : ParsedFrame) (counters : Counters) : Work Counters := do
  let checksumFrames ← countIf parsed.checksum "zstandard" "checksum frame count overflows"
    counters.checksumFrames
  let dictionaryFrames ← countIf parsed.dictionary "zstandard" "dictionary frame count overflows"
    counters.dictionaryFrames
  pure ⟨checksumFrames, dictionaryFrames⟩

def frameFormat (limits : Limits) : FrameFormat Counters ParsedFrame ZstandardFrame where
  name := "zstandard"
  readFrame _ _ _ magic counters := readFrame limits magic counters
  count := countFrame
  maximumBytes := ParsedFrame.windowBytes
  contentSize := ParsedFrame.contentSize
  record start stop parsed :=
    { start
      stop
      contentSize := parsed.contentSize
      windowBytes := parsed.windowBytes
      checksum := parsed.checksum
      dictionary := parsed.dictionary }

def streamInfo (totals : FrameTotals Counters ZstandardFrame) : ZstandardStreamInfo where
  frameCount := totals.dataFrames
  skippableFrameCount := totals.skippableFrames
  contentChecksumFrameCount := totals.counters.checksumFrames
  dictionaryFrameCount := totals.counters.dictionaryFrames
  maximumWindowBytes := totals.maximumBytes

/-- `zstandard::parse`: the summary, the aggregate size and the layout. -/
def parse (input : Bytes) (limits : Limits) :
    Work (ZstandardStreamInfo × Option Nat × List ZstandardFrame) := do
  let totals ← (frameFormat limits).parseTotals ⟨0, 0⟩ limits input
  pure (streamInfo totals, totals.aggregateSize, totals.frames)

/-! ### The header as the 7z coder reads it -/

/-- The `read_little_endian` of `codecs.rs`: the shift of a ninth byte would be 64. -/
def readLittleEndian (input : Bytes) (offset length : Nat) : Work Nat := do
  let stop ← orFormat (checkedAdd 64 offset length) "Zstandard header range overflows"
  if stop ≤ input.length then
    if length ≤ 8 then
      pure (leValue ((input.drop offset).take length))
    else
      formatErr "Zstandard header value overflows"
  else
    formatErr "Zstandard frame header is truncated"

/-- The window of the window descriptor, and where the header goes on. -/
def readDescriptorWindow (input : Bytes) (singleSegment : Bool) : Work (Option Nat × Nat) :=
  if singleSegment then
    pure (none, 5)
  else do
    let byte ← orFormat input[5]? "Zstandard window descriptor is truncated"
    let offset ← orFormat (checkedAdd 64 5 1) "Zstandard header offset overflows"
    let window ← windowSize byte
      (formatErr "Zstandard window exponent overflows")
      (formatErr "Zstandard window size overflows")
      (formatErr "Zstandard window mantissa overflows")
    pure (some window, offset)

/-- Two bytes hold the content size less 256. -/
def biasedContentSize (contentLength value : Nat) : Work Nat :=
  if contentLength = 2 then
    orFormat (checkedAdd 64 value 256) "Zstandard content size overflows"
  else
    pure value

def zstdWindowBytes (input : Bytes) (expected : Option Nat) : Work Nat := do
  let magic ← readLittleEndian input 0 4
  let magic ← orFormat (tryFrom 32 magic) "Zstandard magic is not representable as u32"
  if magic ≠ zstandardMagic then
    formatErr "invalid Zstandard frame magic"
  else do
    let descriptor ← orFormat input[4]? "Zstandard frame descriptor is truncated"
    if descriptor &&& 0x18 ≠ 0 then
      formatErr "invalid Zstandard frame descriptor flags"
    else do
      let singleSegment : Bool := descriptor &&& 0x20 ≠ 0
      let (descriptorWindow, offset) ← readDescriptorWindow input singleSegment
      let dictionaryLength ←
        orFormat (dictionaryLength descriptor) "invalid Zstandard dictionary flag"
      let dictionaryId ← readLittleEndian input offset dictionaryLength
      if dictionaryId ≠ 0 then
        Metered.fail (.unsupportedFeature "zstd-dictionary")
      else do
        let offset ← orFormat (checkedAdd 64 offset dictionaryLength)
          "Zstandard header offset overflows"
        let contentLength ← orFormat (contentLength descriptor singleSegment)
          "invalid Zstandard content-size flag"
        let value ← readLittleEndian input offset contentLength
        let contentSize ← biasedContentSize contentLength value
        if contentLength ≠ 0 ∧ expected.any (· ≠ contentSize) then
          formatErr "Zstandard content size does not match the coder output size"
        else
          pure (descriptorWindow.getD contentSize)

end Zstandard

end Un7z
