/-
The layout of an LZ4 file: `parse` of `stream/lz4.rs` and what it calls.

The header checksum is one byte of the XXH32 of the frame descriptor.  The hash comes
from a crate, so it is a parameter: the value `XxHash32::finish` returns for the bytes
that were written to a hasher with seed 0.
-/
import Un7z.Stream

namespace Un7z

namespace Lz4

open StreamCursor
open Metered (fail)

def legacyBlockBytes : Nat := 8 * 1024 * 1024
def lz4HistoryBytes : Nat := 64 * 1024

structure Lz4Frame where
  start : Nat
  stop : Nat
  contentSize : Option Nat
  checksum : Bool
  dictionary : Bool
  workingBytes : Nat
  deriving DecidableEq, Repr

structure Lz4StreamInfo where
  frameCount : Nat
  skippableFrameCount : Nat
  legacyFrameCount : Nat
  contentChecksumFrameCount : Nat
  blockChecksumFrameCount : Nat
  dictionaryFrameCount : Nat
  maximumBlockBytes : Nat
  deriving DecidableEq, Repr

structure ParsedFrame where
  contentSize : Option Nat
  contentChecksum : Bool
  blockChecksums : Bool
  dictionary : Bool
  maximumBlockBytes : Nat
  workingBytes : Nat
  deriving DecidableEq, Repr

/-! ### A standard frame -/

/-- What the frame descriptor says, up to its checksum. -/
structure Descriptor where
  flags : UInt8
  maximumBlockBytes : Nat
  contentSize : Option Nat
  dictionary : Bool
  deriving DecidableEq, Repr

def blockMaximum (blockDescriptor : UInt8) : Option Nat :=
  match ((blockDescriptor >>> 4) &&& 0x07).toNat with
  | 4 => some (64 * 1024)
  | 5 => some (256 * 1024)
  | 6 => some (1024 * 1024)
  | 7 => some (4 * 1024 * 1024)
  | _ => none

def readContentSize (present : Bool) : StreamReads (Option Nat) :=
  if present then do
    let size ← readLe 8 "content size is truncated"
    pure (some size)
  else
    pure none

/-- The part of `parse_standard_frame` that reads the descriptor. -/
def parseDescriptor : StreamReads Descriptor := do
  let flags ← StreamCursor.readU8 "frame flags are truncated"
  let blockDescriptor ← StreamCursor.readU8 "block descriptor is truncated"
  if flags &&& 0xc0 ≠ 0x40 then
    streamFormatErr "lz4" "unsupported frame version"
  else if flags &&& 0x02 ≠ 0 ∨ blockDescriptor &&& 0x8f ≠ 0 then
    streamFormatErr "lz4" "reserved descriptor bits are set"
  else do
    let maximumBlockBytes ←
      orStreamFormat (blockMaximum blockDescriptor) "lz4" "invalid maximum block size"
    let contentSize ← readContentSize (flags &&& 0x08 ≠ 0)
    let dictionary : Bool := flags &&& 0x01 ≠ 0
    passU32If dictionary "dictionary ID is truncated"
    pure ⟨flags, maximumBlockBytes, contentSize, dictionary⟩

/-- One round of the block loop of `parse_standard_frame`: is it over? -/
def parseBlock (maximumBlockBytes : Nat) (blockChecksums : Bool) : StreamReads Bool := do
  let header ← StreamCursor.readU32Le "block header is truncated"
  if header = 0 then
    pure true
  else do
    let blockSize := header &&& 0x7fffffff
    if blockSize = 0 then
      streamFormatErr "lz4" "non-end block has a zero payload size"
    else if blockSize > maximumBlockBytes then
      streamFormatErr "lz4" "block exceeds the declared maximum size"
    else do
      skipU64 blockSize "block payload is truncated"
      passU32If blockChecksums "block checksum is truncated"
      pure false

def parseBlocks (maximumBlockBytes : Nat) (blockChecksums : Bool) : Nat → StreamReads Unit
  | 0 => refuse "block scan does not advance"
  | fuel + 1 => do
      if ← parseBlock maximumBlockBytes blockChecksums then
        pure ()
      else
        parseBlocks maximumBlockBytes blockChecksums fuel

/-- `maximum_block_bytes * 3 + LZ4_HISTORY_BYTES`, checked. -/
def workingBytes (maximumBlockBytes : Nat) : Option Nat :=
  (checkedMul 64 maximumBlockBytes 3).bind (checkedAdd 64 · lz4HistoryBytes)

/-- The part of `parse_standard_frame` behind the header checksum. -/
def parseFrameBody (descriptor : Descriptor) : StreamReads ParsedFrame := do
  let blockChecksums : Bool := descriptor.flags &&& 0x10 ≠ 0
  parseBlocks descriptor.maximumBlockBytes blockChecksums ((← remaining).length + 1)
  let contentChecksum : Bool := descriptor.flags &&& 0x04 ≠ 0
  passU32If contentChecksum "content checksum is truncated"
  let workingBytes ←
    orStreamFormat (workingBytes descriptor.maximumBlockBytes) "lz4" "working memory size overflows"
  pure ⟨descriptor.contentSize, contentChecksum, blockChecksums, descriptor.dictionary,
    descriptor.maximumBlockBytes, workingBytes⟩

/-- `input.get(start..stop)`. -/
def sliceBetween (input : Bytes) (start stop : Nat) : Option Bytes :=
  if start ≤ stop ∧ stop ≤ input.length then some ((input.drop start).take (stop - start)) else none

/-- The byte of the hash that the frame header stores. -/
def headerChecksum (xxHash32 : Bytes → Nat) (descriptor : Bytes) : Nat :=
  (xxHash32 descriptor >>> 8) &&& 0xff

def parseStandardFrame (xxHash32 : Bytes → Nat) (input : Bytes) (start frameIndex : Nat) :
    StreamReads ParsedFrame := do
  let descriptorStart ← orStreamFormat (checkedAdd 64 start 4) "lz4" "descriptor offset overflows"
  let descriptor ← parseDescriptor
  let checksumPosition ← currentPosition
  let expectedHeaderChecksum ← StreamCursor.readU8 "header checksum is truncated"
  let descriptorBytes ←
    orStreamFormat (sliceBetween input descriptorStart checksumPosition) "lz4"
      "descriptor range is invalid"
  if headerChecksum xxHash32 descriptorBytes ≠ expectedHeaderChecksum.toNat then
    (fail (streamChecksumError "lz4" frameIndex) : Work ParsedFrame)
  else
    parseFrameBody descriptor

/-! ### A legacy frame -/

/-- A magic at which a legacy frame ends. -/
def endsLegacyFrame (magic : Nat) : Bool :=
  magic = lz4Magic || magic = lz4LegacyMagic || isSkippable magic

/-- A legacy frame ends at the end of the input, at the next magic or at an empty block. -/
def parseLegacyBlocks (start : Nat) : Nat → StreamReads Unit
  | 0 => refuse "block scan does not advance"
  | fuel + 1 => do
      let ahead ← remaining
      if ahead.isEmpty then
        pure ()
      else if ahead.length < 4 then
        streamFormatErr "lz4" "legacy block header is truncated"
      else do
        let next := leValue (ahead.take 4)
        if (← currentPosition) ≠ start ∧ endsLegacyFrame next then
          pure ()
        else do
          let blockSize ← StreamCursor.readU32Le "legacy block header is truncated"
          if blockSize = 0 then
            pure ()
          else if blockSize > legacyBlockBytes then
            streamFormatErr "lz4" "legacy block exceeds eight MiB"
          else do
            skipU64 blockSize "legacy block payload is truncated"
            parseLegacyBlocks start fuel

def parseLegacyFrame (start : Nat) : StreamReads ParsedFrame := do
  parseLegacyBlocks start ((← remaining).length + 1)
  let workingBytes ←
    orStreamFormat (workingBytes legacyBlockBytes) "lz4" "legacy working memory size overflows"
  pure
    { contentSize := none
      contentChecksum := false
      blockChecksums := false
      dictionary := false
      maximumBlockBytes := legacyBlockBytes
      workingBytes }

/-! ### The file -/

structure Counters where
  legacyFrames : Nat
  contentChecksumFrames : Nat
  blockChecksumFrames : Nat
  dictionaryFrames : Nat
  deriving DecidableEq, Repr

def readFrame (xxHash32 : Bytes → Nat) (input : Bytes) (start frameIndex magic : Nat)
    (counters : Counters) : StreamReads (Counters × ParsedFrame) :=
  if magic = lz4Magic then do
    let parsed ← parseStandardFrame xxHash32 input start frameIndex
    pure (counters, parsed)
  else if magic = lz4LegacyMagic then do
    let legacyFrames ← countOne "lz4" "legacy frame count overflows" counters.legacyFrames
    let parsed ← parseLegacyFrame start
    pure ({ counters with legacyFrames }, parsed)
  else
    streamFormatErr "lz4" "unexpected frame magic"

def countFrame (parsed : ParsedFrame) (counters : Counters) : Work Counters := do
  let contentChecksumFrames ← countIf parsed.contentChecksum "lz4"
    "content-checksum frame count overflows" counters.contentChecksumFrames
  let blockChecksumFrames ← countIf parsed.blockChecksums "lz4"
    "block-checksum frame count overflows" counters.blockChecksumFrames
  let dictionaryFrames ← countIf parsed.dictionary "lz4"
    "dictionary frame count overflows" counters.dictionaryFrames
  pure { counters with contentChecksumFrames, blockChecksumFrames, dictionaryFrames }

def frameFormat (xxHash32 : Bytes → Nat) : FrameFormat Counters ParsedFrame Lz4Frame where
  name := "lz4"
  readFrame := readFrame xxHash32
  count := countFrame
  maximumBytes := ParsedFrame.maximumBlockBytes
  contentSize := ParsedFrame.contentSize
  record start stop parsed :=
    { start
      stop
      contentSize := parsed.contentSize
      checksum := parsed.contentChecksum || parsed.blockChecksums
      dictionary := parsed.dictionary
      workingBytes := parsed.workingBytes }

def streamInfo (totals : FrameTotals Counters Lz4Frame) : Lz4StreamInfo where
  frameCount := totals.dataFrames
  skippableFrameCount := totals.skippableFrames
  legacyFrameCount := totals.counters.legacyFrames
  contentChecksumFrameCount := totals.counters.contentChecksumFrames
  blockChecksumFrameCount := totals.counters.blockChecksumFrames
  dictionaryFrameCount := totals.counters.dictionaryFrames
  maximumBlockBytes := totals.maximumBytes

/-- `lz4::parse`: the summary, the aggregate size and the layout. -/
def parse (xxHash32 : Bytes → Nat) (input : Bytes) (limits : Limits) :
    Work (Lz4StreamInfo × Option Nat × List Lz4Frame) := do
  let totals ← (frameFormat xxHash32).parseTotals ⟨0, 0, 0, 0⟩ limits input
  pure (streamInfo totals, totals.aggregateSize, totals.frames)

end Lz4

end Un7z
