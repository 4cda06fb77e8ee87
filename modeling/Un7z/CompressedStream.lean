/-
Opening a standalone compressed stream: `CompressedStream` and `detect_format` of
`stream/mod.rs`.

Without a requested format, the format is that of the first data frame, behind any number
of the skippable frames that LZ4 and Zstandard have in common.
-/
import Un7z.Lz4
import Un7z.Zstandard
import Un7z.UnixCompress

namespace Un7z

open Lz4 (Lz4StreamInfo Lz4Frame sliceBetween)
open Zstandard (ZstandardStreamInfo ZstandardFrame)
open UnixCompress (UnixCompressStreamInfo UnixCompressLayout unixCompressMagic)

inductive StreamFormat
  | lz4
  | zstandard
  | unixCompress
  deriving DecidableEq, Repr

inductive StreamInfoKind
  | lz4 (info : Lz4StreamInfo)
  | zstandard (info : ZstandardStreamInfo)
  | unixCompress (info : UnixCompressStreamInfo)
  deriving DecidableEq, Repr

structure StreamInfo where
  format : StreamFormat
  compressedSize : Nat
  uncompressedSize : Option Nat
  kind : StreamInfoKind
  deriving DecidableEq, Repr

inductive StreamLayout
  | lz4 (frames : List Lz4Frame)
  | zstandard (frames : List ZstandardFrame)
  | unixCompress (layout : UnixCompressLayout)
  deriving DecidableEq, Repr

structure CompressedStream where
  bytes : Bytes
  info : StreamInfo
  layout : StreamLayout
  limits : Limits
  deriving DecidableEq, Repr

/-- Every round passes a skippable frame, so `fuel` does not run out. -/
def detectFrom (bytes : Bytes) : Nat → Nat → Work StreamFormat
  | 0, _ => streamFormatErr "compressed" "input has no supported magic"
  | fuel + 1, position => do
      let magicEnd ← orStreamFormat (checkedAdd 64 position 4) "compressed" "magic range overflows"
      let magicBytes ← orStreamFormat (sliceBetween bytes position magicEnd) "compressed"
        "input has no supported magic"
      let magic := leValue magicBytes
      if magic = lz4Magic ∨ magic = lz4LegacyMagic then
        pure .lz4
      else if magic = zstandardMagic then
        pure .zstandard
      else if isSkippable magic then do
        let sizeEnd ← orStreamFormat (checkedAdd 64 magicEnd 4) "compressed"
          "skippable frame header overflows"
        let sizeBytes ← orStreamFormat (sliceBetween bytes magicEnd sizeEnd) "compressed"
          "skippable frame header is truncated"
        let position ← orStreamFormat (checkedAdd 64 sizeEnd (leValue sizeBytes)) "compressed"
          "skippable frame range overflows"
        if position > bytes.length then
          streamFormatErr "compressed" "skippable frame payload is truncated"
        else
          detectFrom bytes fuel position
      else
        streamFormatErr "compressed" "input has no supported magic"

def detectFormat (bytes : Bytes) : Work StreamFormat :=
  if 2 ≤ bytes.length ∧ bytes.take 2 = unixCompressMagic then
    pure .unixCompress
  else
    detectFrom bytes (bytes.length + 1) 0

namespace CompressedStream

/-- The parser of a format, with its summary and its layout. -/
def parseAs (xxHash32 : Bytes → Nat) (bytes : Bytes) (limits : Limits) :
    StreamFormat → Work (StreamInfoKind × Option Nat × StreamLayout)
  | .lz4 => do
      let (info, size, frames) ← Lz4.parse xxHash32 bytes limits
      pure (.lz4 info, size, .lz4 frames)
  | .zstandard => do
      let (info, size, frames) ← Zstandard.parse bytes limits
      pure (.zstandard info, size, .zstandard frames)
  | .unixCompress => do
      let (info, layout) ← UnixCompress.parse bytes limits
      pure (.unixCompress info, none, .unixCompress layout)

/-- The declared size is within both limits. -/
def checkSize (limits : Limits) : Option Nat → Work Unit
  | some size => do
      checkLimit size limits.maxEntryOutputBytes .entryOutputBytes
      checkLimit size limits.maxTotalOutputBytes .totalOutputBytes
  | none => pure ()

/-- The part of `open_bytes_inner` once the format is known. -/
def openFormat (xxHash32 : Bytes → Nat) (bytes : Bytes) (limits : Limits) (format : StreamFormat) :
    Work CompressedStream := do
  let (kind, uncompressedSize, layout) ← parseAs xxHash32 bytes limits format
  checkSize limits uncompressedSize
  pure ⟨bytes, ⟨format, bytes.length, uncompressedSize, kind⟩, layout, limits⟩

def openBytesInner (xxHash32 : Bytes → Nat) (bytes : Bytes) (requestedFormat : Option StreamFormat)
    (limits : Limits) : Work CompressedStream := do
  checkLimit bytes.length limits.maxTotalInputBytes .totalInputBytes
  consumeBytes bytes
  let format ← match requestedFormat with
    | some format => pure format
    | none => detectFormat bytes
  openFormat xxHash32 bytes limits format

def openBytes (xxHash32 : Bytes → Nat) (bytes : Bytes) (limits : Limits) : Work CompressedStream :=
  openBytesInner xxHash32 bytes none limits

def openBytesAs (xxHash32 : Bytes → Nat) (bytes : Bytes) (format : StreamFormat)
    (limits : Limits) : Work CompressedStream :=
  openBytesInner xxHash32 bytes (some format) limits

end CompressedStream

end Un7z
