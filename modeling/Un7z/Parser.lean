/-
Signature search and the stored header envelope, `parser.rs`.

`parse_archive` and the probe `archive_declares_more_bytes` scan the same windows for
the signature.  They differ in what they do with a candidate: the parser swallows its
errors, unless `candidate_error_is_fatal`, and goes on; the probe stops at the first
error whatever it is.  The swallowing is an `attempt`, which is where the parser must
show that it never swallows an interruption.
-/
import Un7z.Validate

namespace Un7z

open Metered (fail attempt)

def signature : Bytes := [0x37, 0x7a, 0xbc, 0xaf, 0x27, 0x1c]

def startHeaderOffset : Nat := 12
def startHeaderSize : Nat := 20

structure RawSignatureHeader where
  major : UInt8
  minor : UInt8
  startCrc : UInt32
  nextOffset : Nat
  nextSize : Nat
  nextCrc : UInt32
  deriving DecidableEq, Repr

namespace Parser

/-! ### Candidates -/

def parseSignatureFields : Reads RawSignatureHeader := do
  let read ← readBytes 6
  if read ≠ signature then
    formatErr "invalid 7z signature"
  else
    let major ← readU8
    let minor ← readU8
    let startCrc ← readU32Le
    let nextOffset ← readU64Le
    let nextSize ← readU64Le
    let nextCrc ← readU32Le
    pure ⟨major, minor, startCrc, nextOffset, nextSize, nextCrc⟩

def parseRawSignatureHeader (bytes : Bytes) : Work RawSignatureHeader :=
  (parseExact fixedHeaderSize "fixed 7z header was not consumed exactly"
    parseSignatureFields).run' (BoundedReader.new bytes)

/-- The kind of a stored header, from its first byte. -/
def nextHeaderKind (nextHeader : Bytes) : Work NextHeaderKind :=
  match nextHeader with
  | [] => formatErr "next header is empty"
  | id :: _ =>
      if id = idHeader then pure .header
      else if id = idEncodedHeader then pure .encodedHeader
      else formatErr "unexpected next-header identifier"

def parseCandidate (bytes : Bytes) (signatureOffset : Nat) (limits : Limits) :
    Work HeaderEnvelope := do
  checkpoint fixedHeaderSize
  let candidateBytes ← checkedRange bytes signatureOffset fixedHeaderSize
    "fixed-header range overflows" "truncated fixed 7z header"
  let raw ← parseRawSignatureHeader candidateBytes
  let startFields ← checkedRange candidateBytes startHeaderOffset startHeaderSize
    "start-header range overflows" "truncated start-header fields"
  let startCrc ← checksum startFields
  if startCrc ≠ raw.startCrc then
    fail (.checksum .startHeader none)
  else if raw.major ≠ 0 then
    fail (.unsupportedFeature "7z-major-version")
  else if raw.nextSize > limits.maxHeaderBytes then
    fail (.limitExceeded .headerBytes raw.nextSize limits.maxHeaderBytes)
  else
    let afterFixed ← orFormat (checkedAdd 64 signatureOffset fixedHeaderSize)
      "fixed-header end overflows"
    let nextHeaderOffset ← orFormat (checkedAdd 64 afterFixed raw.nextOffset)
      "next-header offset overflows"
    let nextHeader ← checkedRange bytes nextHeaderOffset raw.nextSize
      "next-header end overflows" "truncated next-header range"
    let nextCrc ← checksum nextHeader
    if nextCrc ≠ raw.nextCrc then
      fail (.checksum .nextHeader none)
    else
      let kind ← nextHeaderKind nextHeader
      pure ⟨signatureOffset, ⟨raw.major, raw.minor⟩, nextHeaderOffset, raw.nextSize,
        raw.nextCrc, kind⟩

def candidateErrorIsFatal (error : Error) : Bool :=
  match error with
  | .cancelled => true
  | .ioError _ _ => true
  | .limitExceeded .workUnits _ _ => true
  | .limitExceeded .totalInputBytes _ _ => true
  | _ => false

/-- A control that runs out is never mistaken for a candidate that does not parse. -/
theorem interrupts_fatal (control : ParseControl) (error : Error)
    (h : Purse.interrupts Charge control error) : candidateErrorIsFatal error = true := by
  rcases h with ⟨rfl, -⟩ | ⟨_, _, rfl⟩ <;> rfl

def validatedCandidate (bytes : Bytes) (signatureOffset : Nat) (limits : Limits) :
    Work ParsedArchive := do
  let envelope ← parseCandidate bytes signatureOffset limits
  let nextHeader ← checkedRange bytes envelope.nextHeaderOffset envelope.nextHeaderSize
    "next-header end overflows during body parsing"
    "next-header range was truncated during body parsing"
  let (raw, _) ← Raw.parseNextHeader nextHeader {} limits
  let validated ← Validate.validateNextHeader raw envelope bytes limits
  pure ⟨envelope, validated⟩

/-! ### The scan -/

/-- What the scan reads: up to `sfx_scan_limit` bytes and the signature that may start there. -/
def scanBytes (bytes : Bytes) (limits : Limits) : Work (Option Bytes) :=
  match checkedSub bytes.length signature.length with
  | none => pure none
  | some lastPossibleOffset => do
      let lastScannedOffset := min lastPossibleOffset limits.sfxScanLimit
      let scanLength ← orFormat (checkedAdd 64 lastScannedOffset signature.length)
        "SFX scan range overflows"
      let scan ← checkedRange bytes 0 scanLength
        "SFX scan range overflows" "truncated SFX scan range"
      pure (some scan)

/--
The candidate loop of `parse_archive`, from window `offset` on.

`windows` yields every suffix that still holds a whole signature, so the recursion is
on the bytes that are left of the scan.
-/
def scanCandidates (bytes : Bytes) (limits : Limits) :
    Nat → Bytes → Option Error → Work ParsedArchive
  | _, [], firstError => fail (firstError.getD (formatError "7z signature was not found"))
  | offset, byte :: rest, firstError =>
      if (byte :: rest).length < signature.length then
        fail (firstError.getD (formatError "7z signature was not found"))
      else do
        checkpoint 1
        if (byte :: rest).take signature.length ≠ signature then
          scanCandidates bytes limits (offset + 1) rest firstError
        else
          match ← attempt candidateErrorIsFatal interrupts_fatal
              (validatedCandidate bytes offset limits) with
          | .ok archive => pure archive
          | .error error =>
              scanCandidates bytes limits (offset + 1) rest (firstError.or (some error))

def parseArchive (bytes : Bytes) (limits : Limits) : Work ParsedArchive := do
  checkLimit bytes.length limits.maxTotalInputBytes .totalInputBytes
  if signature.isPrefixOf bytes then
    validatedCandidate bytes 0 limits
  else
    match ← scanBytes bytes limits with
    | none => formatErr "7z signature was not found"
    | some scan => scanCandidates bytes limits 0 scan none

/-! ### The probe -/

def candidateDeclaresMoreBytes (bytes : Bytes) (signatureOffset : Nat) (limits : Limits) :
    Work (Option Bool) := do
  let fixedEnd ← orFormat (checkedAdd 64 signatureOffset fixedHeaderSize)
    "fixed-header end overflows"
  if fixedEnd > bytes.length then
    pure (some true)
  else
    let candidateBytes ← checkedRange bytes signatureOffset fixedHeaderSize
      "fixed-header range overflows" "truncated fixed 7z header"
    let raw ← parseRawSignatureHeader candidateBytes
    let startFields ← checkedRange candidateBytes startHeaderOffset startHeaderSize
      "start-header range overflows" "truncated start-header fields"
    let startCrc ← checksum startFields
    if startCrc ≠ raw.startCrc then
      pure none
    else if raw.nextSize > limits.maxHeaderBytes then
      fail (.limitExceeded .headerBytes raw.nextSize limits.maxHeaderBytes)
    else
      let required ← orFormat
        ((checkedAdd 64 fixedEnd raw.nextOffset).bind (checkedAdd 64 · raw.nextSize))
        "declared archive end overflows"
      pure (some (decide (required > bytes.length)))

/-- The window loop of `archive_declares_more_bytes`. -/
def probeCandidates (bytes : Bytes) (limits : Limits) : Nat → Bytes → Work Bool
  | _, [] => pure false
  | offset, byte :: rest =>
      if (byte :: rest).length < signature.length then
        pure false
      else do
        checkpoint 1
        if (byte :: rest).take signature.length ≠ signature then
          probeCandidates bytes limits (offset + 1) rest
        else
          match ← candidateDeclaresMoreBytes bytes offset limits with
          | some requiresMore => pure requiresMore
          | none => probeCandidates bytes limits (offset + 1) rest

def archiveDeclaresMoreBytes (bytes : Bytes) (limits : Limits) : Work Bool := do
  checkLimit bytes.length limits.maxTotalInputBytes .totalInputBytes
  if signature.isPrefixOf bytes then
    let declared ← candidateDeclaresMoreBytes bytes 0 limits
    pure (declared.getD false)
  else
    match ← scanBytes bytes limits with
    | none => pure false
    | some scan => probeCandidates bytes limits 0 scan

/-! ### Headers that come from decoded streams -/

def parseDecodedNextHeader (decoded : Bytes) (envelope : HeaderEnvelope) (archiveBytes : Bytes)
    (limits : Limits) : Work ParsedNextHeader := do
  checkLimit decoded.length limits.maxHeaderBytes .headerBytes
  let (raw, _) ← Raw.parseNextHeader decoded {} limits
  Validate.validateNextHeader raw envelope archiveBytes limits

def parseNextHeaderFromExternalFolders (headerBytes : Bytes) (dataIndex : Nat)
    (folderBytes : Bytes) (envelope : HeaderEnvelope) (archiveBytes : Bytes) (limits : Limits) :
    Work ParsedNextHeader := do
  checkLimit headerBytes.length limits.maxHeaderBytes .headerBytes
  let (raw, _) ←
    Raw.parseNextHeaderWithExternalFolders headerBytes dataIndex folderBytes {} limits
  Validate.validateNextHeader raw envelope archiveBytes limits

end Parser

end Un7z
