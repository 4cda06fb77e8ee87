/-
Extracting a standalone compressed stream: `extract_to`, `decompress` and `verify` of
`stream/mod.rs` with the `pump_reader` they share, and the `extract` of each layout.

The frames of LZ4 and of Zstandard are decoded by crates, so their decoders are parameters:
a `FrameDecoder` is a reader over one frame, with a state of its own and the position its
source shows.  The two `extract`s are one loop, and what tells them apart is how a decoder is
opened, which errors are taken for those of a checksum, and what is checked of a frame that
has been read.  That a decoder sees a cancelled token while it reads is left out: the next
checkpoint sees it too.
-/
import Un7z.CompressedStream

namespace Un7z

open Metered (fail)
open Lz4 (Lz4Frame sliceBetween)
open Zstandard (ZstandardFrame)

/-- `unsupported_stream_feature(format, feature)`. -/
def unsupportedStreamFeature (format feature : String) : Error :=
  .unsupportedStreamFeature format feature

/-! ### The decoder of a frame -/

/-- What a call of `read` on a decoder comes to; no bytes are the end. -/
inductive Reading
  | bytes (bytes : Bytes)
  | failed (checksum : Bool)
  | panicked
  deriving DecidableEq, Repr

/-- Why a decoder is not opened. -/
inductive Unopened
  | rejected
  | panicked
  deriving DecidableEq, Repr

/-- A decoder of a crate, with its state `δ`, over the bytes of one frame. -/
structure FrameDecoder (δ : Type) where
  read : (capacity : Nat) → δ → Reading × δ
  /-- The position its `ControlledInput` has come to. -/
  consumed : δ → Nat

/-- `lz4_flex::frame::FrameDecoder`. -/
structure Lz4Decoder (δ : Type) extends FrameDecoder δ where
  new : (frame : Bytes) → δ

/-- `ruzstd::decoding::StreamingDecoder`. -/
structure ZstandardDecoder (δ : Type) extends FrameDecoder δ where
  new : (frame : Bytes) → Except Unopened δ
  checksumFromData : δ → Option Nat
  calculatedChecksum : δ → Option Nat

namespace Extraction

variable {σ δ : Type}

/-! ### The loop over a decoder -/

section Pump

variable (writer : Writer σ) (limits : Limits) (decoder : FrameDecoder δ) (expected : Option Nat)
  (format : String) (frameIndex : Nat) (checksumErrors : Bool)

/-- The bytes of a call of `read`, or the error it is turned into. -/
def readingOf : Reading → Work Bytes
  | .bytes bytes => pure bytes
  | .failed checksum => do
      checkCancelled
      if checksumErrors && checksum then
        (fail (streamChecksumError format frameIndex) : Work Bytes)
      else
        streamFormatErr format "decoder rejected or truncated frame"
  | .panicked => streamFormatErr format "decoder panicked on its frame"

/-- What the frame has come to since its start. -/
def frameOutput (startOutput : Nat) : Extracting σ Nat := do
  let extraction ← get
  orStreamFormat (checkedSub extraction.outputBytes startOutput) format
    "frame output accounting underflows"

/-- Write the bytes of a call of `read`. -/
def pumpBytes (startOutput : Nat) (bytes : Bytes) : Extracting σ Unit := do
  if bytes.length > controlChunkSize then
    (streamFormatErr format "decoder returned an invalid output length" : Work Unit)
  else do
    writeOutput writer limits bytes
    match expected with
    | some expected => do
        let output ← frameOutput format startOutput
        if output > expected then
          (streamFormatErr format "decoded frame exceeds its declared content size" : Work Unit)
        else
          pure ()
    | none => pure ()

/-- One round: the bytes that were read, with the state of the decoder and the input charged for. -/
def pumpRound (charged : Nat) (reader : δ) : Work (Bytes × δ × Nat) := do
  checkpoint 0
  let (reading, reader) := decoder.read controlChunkSize reader
  let bytes ← readingOf format frameIndex checksumErrors reading
  let position := decoder.consumed reader
  let delta ← orStreamFormat (checkedSub position charged) format "decoder input accounting underflows"
  let units ← orStreamFormat (checkedAdd 64 delta bytes.length) format
    "decoder work accounting overflows"
  let work ← orStreamFormat (checkedAdd 64 units 1) format "decoder work accounting overflows"
  checkpoint work
  pure (bytes, reader, position)

/--
The rounds, up to one that reads nothing.

Every other round adds to the output, which the limit of an entry bounds, so `fuel` does not
run out.
-/
def pumpRounds (startOutput : Nat) : Nat → (charged : Nat) → δ → Extracting σ (δ × Nat)
  | 0, charged, reader => pure (reader, charged)
  | fuel + 1, charged, reader => do
      let (bytes, reader, charged) ← pumpRound decoder format frameIndex checksumErrors charged reader
      if bytes.isEmpty then
        pure (reader, charged)
      else do
        pumpBytes writer limits expected format startOutput bytes
        pumpRounds startOutput fuel charged reader

def pumpReader (reader : δ) : Extracting σ δ := do
  let extraction ← get
  let startOutput := extraction.outputBytes
  let (reader, charged) ← pumpRounds writer limits decoder expected format frameIndex checksumErrors
    startOutput (limits.maxEntryOutputBytes + 2) 0 reader
  let actual ← frameOutput format startOutput
  if expected.any (· ≠ actual) then
    (streamFormatErr format "decoded frame size does not match its declaration" : Work δ)
  else if decoder.consumed reader ≠ charged then
    (streamFormatErr format "decoder input accounting is incomplete" : Work δ)
  else
    pure reader

end Pump

/-! ### The frames -/

/-- What the two layouts differ in: a frame is a `φ`. -/
structure FrameLayout (δ φ : Type) where
  format : String
  decoder : FrameDecoder δ
  /-- The decoder is opened over the bytes of a frame. -/
  opens : (frame : Bytes) → Work δ
  /-- Its errors include one for a checksum. -/
  checksumErrors : Bool
  start : φ → Nat
  stop : φ → Nat
  contentSize : φ → Option Nat
  checksum : φ → Bool
  dictionary : φ → Bool
  /-- The memory a frame is decoded in. -/
  memory : φ → Nat
  /-- What is checked of a frame that has been read. -/
  verifies : φ → (frameIndex : Nat) → δ → Work Unit

section Frames

variable {φ : Type} (writer : Writer σ) (limits : Limits) (input : Bytes) (layout : FrameLayout δ φ)

/-- The decoder of a frame, and the bytes it is over. -/
def openFrame (frame : φ) : Work (Bytes × δ) := do
  checkpoint 0
  checkLimit (layout.memory frame) limits.maxDictionaryBytes .dictionaryBytes
  if layout.dictionary frame then
    (fail (unsupportedStreamFeature layout.format "external-dictionary") : Work (Bytes × δ))
  else do
    let frameBytes ← orStreamFormat (sliceBetween input (layout.start frame) (layout.stop frame))
      layout.format "validated frame range is unavailable"
    let reader ← layout.opens frameBytes
    pure (frameBytes, reader)

def extractFrame (frameIndex : Nat) (frame : φ) : Extracting σ Unit := do
  let (frameBytes, reader) ← openFrame limits input layout frame
  let reader ← pumpReader writer limits layout.decoder (layout.contentSize frame) layout.format
    frameIndex layout.checksumErrors reader
  if layout.decoder.consumed reader ≠ frameBytes.length then
    (streamFormatErr layout.format "decoder did not consume exactly one frame" : Work Unit)
  else do
    layout.verifies frame frameIndex reader
    finishFrame (layout.checksum frame)

def extractFrames : (frameIndex : Nat) → List φ → Extracting σ Unit
  | _, [] => pure ()
  | frameIndex, frame :: rest => do
      extractFrame writer limits input layout frameIndex frame
      extractFrames (frameIndex + 1) rest

end Frames

end Extraction

open Extraction (FrameLayout)

variable {σ δ δ' : Type}

/-- `Lz4Layout::extract`: the crate checks the checksums. -/
def Lz4.layout (decoder : Lz4Decoder δ) : FrameLayout δ Lz4Frame where
  format := "lz4"
  decoder := decoder.toFrameDecoder
  opens frame := pure (decoder.new frame)
  checksumErrors := true
  start := Lz4Frame.start
  stop := Lz4Frame.stop
  contentSize := Lz4Frame.contentSize
  checksum := Lz4Frame.checksum
  dictionary := Lz4Frame.dictionary
  memory := Lz4Frame.workingBytes
  verifies _ _ _ := pure ()

/-- What `ZstandardLayout::extract` checks of the checksum of a frame. -/
def Zstandard.verifyChecksum (decoder : ZstandardDecoder δ) (frame : ZstandardFrame) (frameIndex : Nat)
    (reader : δ) : Work Unit :=
  if frame.checksum then do
    let stored ← orStreamFormat (decoder.checksumFromData reader) "zstandard"
      "frame checksum was not finalized"
    let calculated ← orStreamFormat (decoder.calculatedChecksum reader) "zstandard"
      "frame checksum was not calculated"
    if stored ≠ calculated then fail (streamChecksumError "zstandard" frameIndex) else pure ()
  else
    pure ()

/-- `StreamingDecoder::new`, and the errors of `ZstandardLayout::extract`. -/
def Zstandard.openDecoder (decoder : ZstandardDecoder δ) (frame : Bytes) : Work δ :=
  match decoder.new frame with
  | .ok reader => pure reader
  | .error .rejected => streamFormatErr "zstandard" "decoder rejected frame header"
  | .error .panicked => streamFormatErr "zstandard" "decoder panicked while opening frame"

/-- `ZstandardLayout::extract`: no error of the crate is taken for one of a checksum. -/
def Zstandard.layout (decoder : ZstandardDecoder δ) : FrameLayout δ ZstandardFrame where
  format := "zstandard"
  decoder := decoder.toFrameDecoder
  opens := openDecoder decoder
  checksumErrors := false
  start := ZstandardFrame.start
  stop := ZstandardFrame.stop
  contentSize := ZstandardFrame.contentSize
  checksum := ZstandardFrame.checksum
  dictionary := ZstandardFrame.dictionary
  memory := ZstandardFrame.windowBytes
  verifies := verifyChecksum decoder

/-! ### The stream -/

structure StreamExtraction where
  outputBytes : Nat
  framesDecoded : Nat
  checksumsVerified : Nat
  deriving DecidableEq, Repr

/-- `ExtractionControl::finish`. -/
def Extraction.finish (extraction : Extraction σ) : StreamExtraction :=
  ⟨extraction.outputBytes, extraction.framesDecoded, extraction.checksumsVerified⟩

def StreamFormat.asStr : StreamFormat → String
  | .lz4 => "lz4"
  | .zstandard => "zstandard"
  | .unixCompress => "unix-compress"

/-- The decoders of the two crates. -/
structure StreamDecoders (δ δ' : Type) where
  lz4 : Lz4Decoder δ
  zstandard : ZstandardDecoder δ'

namespace CompressedStream

variable (decoders : StreamDecoders δ δ')

/-- The `extract` of the layout of a stream. -/
def extractLayout (writer : Writer σ) (stream : CompressedStream) : Extracting σ Unit :=
  match stream.layout with
  | .lz4 frames =>
      Extraction.extractFrames writer stream.limits stream.bytes (Lz4.layout decoders.lz4) 0 frames
  | .zstandard frames =>
      Extraction.extractFrames writer stream.limits stream.bytes
        (Zstandard.layout decoders.zstandard) 0 frames
  | .unixCompress layout => UnixCompress.extract writer stream.limits layout stream.bytes

/-- `extract_to`, from a new `ExtractionControl` on. -/
def extractTo (writer : Writer σ) (stream : CompressedStream) : Extracting σ StreamExtraction := do
  stream.extractLayout decoders writer
  let extraction ← Extraction.get
  if stream.info.uncompressedSize.any (· ≠ extraction.outputBytes) then
    (streamFormatErr stream.info.format.asStr
      "decoded size does not match the declared aggregate size" : Work StreamExtraction)
  else
    pure extraction.finish

/-- The `Write` of `FallibleVec`. -/
def fallibleVec : Writer Bytes := ⟨fun bytes written => (.ok (), written ++ bytes)⟩

def decompress (stream : CompressedStream) : Work Bytes :=
  Session.discard (do
    let _ ← stream.extractTo decoders fallibleVec
    let extraction ← Extraction.get
    pure extraction.writer) ⟨[], 0, 0, 0⟩

/-- `std::io::Sink`. -/
def sink : Writer Unit := ⟨fun _ _ => (.ok (), ())⟩

def verify (stream : CompressedStream) : Work StreamExtraction :=
  (stream.extractTo decoders sink).discard ⟨(), 0, 0, 0⟩

end CompressedStream

end Un7z
