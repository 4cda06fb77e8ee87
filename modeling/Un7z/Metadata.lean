/-
Additional streams and the file properties stored in them, `metadata.rs`.

Every folder of the additional streams is decoded and checked against its digests and
its substream sizes.  `apply_external_properties` then reads the properties that
`FilesInfo` left in such a stream, and fills them into the entries that define them.
-/
import Un7z.Execute

namespace Un7z

open Metered (fail)
open Execute (DecodedFolder decodeFolder)

def folderIsEncrypted (folder : Folder) : Bool :=
  folder.coders.any (·.methodId == methodAes)

/-- `map_encrypted_error`: a wrong password looks like corruption. -/
def encryptedError (encrypted : Bool) (error : Error) : Error :=
  if encrypted then
    match error with
    | .format _ => .wrongPasswordOrCorrupt
    | .checksum _ _ => .wrongPasswordOrCorrupt
    | .wrongPasswordOrCorrupt => .wrongPasswordOrCorrupt
    | error => error
  else
    error

/-- An interruption is not taken for a wrong password. -/
theorem encryptedError_interrupts (encrypted : Bool) (control : ParseControl) (error : Error)
    (h : Purse.interrupts Charge control error) : encryptedError encrypted error = error := by
  rcases h with ⟨rfl, -⟩ | ⟨_, _, rfl⟩ <;> cases encrypted <;> rfl

/-- `result.map_err(|error| map_encrypted_error(error, encrypted))`. -/
def mapEncryptedError {α : Type} (encrypted : Bool) (m : Work α) : Work α :=
  Metered.mapError (encryptedError encrypted) (encryptedError_interrupts encrypted) m

@[simp] theorem mapEncryptedError_eq_ok {α : Type} {encrypted : Bool} {m : Work α} {a : α} :
    (mapEncryptedError encrypted m).result = .ok a ↔ m.result = .ok a := by
  rw [mapEncryptedError, Metered.result_mapError]
  cases m.result <;> simp [Except.mapError]

/-- The error a failed digest is reported as. -/
def digestError (encrypted : Bool) (scope : ChecksumScope) (memberIndex : Option Nat) : Error :=
  if encrypted then .wrongPasswordOrCorrupt else .checksum scope memberIndex

namespace Metadata

structure DecodedAdditionalStream where
  bytes : Bytes
  encrypted : Bool
  deriving DecidableEq, Repr

structure DecodedAdditionalStreams where
  streams : List DecodedAdditionalStream
  totalBytes : Nat
  deriving DecidableEq, Repr

def DecodedAdditionalStreams.get (decoded : DecodedAdditionalStreams) (dataIndex : Nat) :
    Work DecodedAdditionalStream :=
  orFormat decoded.streams[dataIndex]? "additional-stream index is out of range"

/-! ### Decoding -/

/-- Check bytes against the digest they should have, if there is one. -/
def checkDigest (crc : Option UInt32) (bytes : Bytes) (error : Error) : Work Unit :=
  match crc with
  | some expected => do
      let actual ← checksum bytes
      if actual ≠ expected then fail error else pure ()
  | none => pure ()

/-- Where a substream that starts at `offset` ends; only the last may have no size. -/
def substreamEnd (folder : Folder) (folderSize offset index : Nat) (size : Option Nat)
    (overflowDetail feature : String) : Work Nat :=
  match size with
  | some size => orFormat (checkedAdd 64 offset size) overflowDetail
  | none =>
      if index + 1 = folder.substreams.length then pure folderSize
      else fail (.unsupportedFeature feature)

/-- The bytes from `offset` to `stop` of a folder's output. -/
def substreamBytes (bytes : Bytes) (offset stop : Nat) (rangeDetail sliceDetail : String) :
    Work Bytes :=
  if stop > bytes.length then
    formatErr rangeDetail
  else if offset ≤ stop then
    pure ((bytes.drop offset).take (stop - offset))
  else
    formatErr sliceDetail

/-- The substream loop of `verify_decoded_additional_folder`. -/
def verifySubstreams (folder : Folder) (bytes : Bytes) (encrypted : Bool) :
    Nat → List Substream → Nat → Work Nat
  | _, [], offset => pure offset
  | index, substream :: rest, offset => do
      checkpoint 1
      let stop ← substreamEnd folder bytes.length offset index substream.size
        "additional-stream range overflows" "unknown-nonfinal-additional-stream-size"
      let slice ← substreamBytes bytes offset stop
        "additional-stream range exceeds its folder output"
        "additional-stream range is out of bounds"
      checkDigest substream.crc slice (digestError encrypted .additionalStream none)
      verifySubstreams folder bytes encrypted (index + 1) rest stop

def verifyDecodedAdditionalFolder (folder : Folder) (decoded : DecodedFolder)
    (encrypted : Bool) : Work Unit :=
  if decoded.crcMismatch then
    fail (digestError encrypted .folder none)
  else do
    let offset ← verifySubstreams folder decoded.bytes encrypted 0 folder.substreams 0
    if offset ≠ decoded.bytes.length then
      formatErr "additional streams do not consume their folder output exactly"
    else
      pure ()

/-- The folder loop of `process_additional_streams`, with the outputs it hands on. -/
def processFolders (codecs : Codecs) (archiveBytes : Bytes) (streams : StreamsInfo)
    (password : Option Password) (limits : Limits) (maximumOutput : Nat) :
    Nat → List Folder → Nat → Work (List DecodedAdditionalStream × Nat)
  | _, [], totalOutput => pure ([], totalOutput)
  | folderIndex, folder :: folders, totalOutput => do
      checkpoint 1
      let remainingHeader ← orFormat (checkedSub limits.maxHeaderBytes totalOutput)
        "external metadata output accounting underflows"
      let remainingTotal ← orFormat (checkedSub maximumOutput totalOutput)
        "external output accounting underflows"
      let encrypted := folderIsEncrypted folder
      let decoded ← mapEncryptedError encrypted (decodeFolder codecs archiveBytes streams
        folderIndex password limits (min remainingHeader remainingTotal))
      let totalOutput ← orFormat (checkedAdd 64 totalOutput decoded.bytes.length)
        "external metadata output accounting overflows"
      checkLimit totalOutput limits.maxHeaderBytes .headerBytes
      checkLimit totalOutput maximumOutput .totalOutputBytes
      verifyDecodedAdditionalFolder folder decoded encrypted
      let (outputs, totalOutput) ← processFolders codecs archiveBytes streams password limits
        maximumOutput (folderIndex + 1) folders totalOutput
      pure (⟨decoded.bytes, encrypted⟩ :: outputs, totalOutput)

def processAdditionalStreams (codecs : Codecs) (archiveBytes : Bytes) (streams : StreamsInfo)
    (password : Option Password) (limits : Limits) (maximumOutput : Nat) :
    Work (List DecodedAdditionalStream × Nat) :=
  processFolders codecs archiveBytes streams password limits maximumOutput 0 streams.folders 0

def decodeAdditionalStreams (codecs : Codecs) (archiveBytes : Bytes) (streams : StreamsInfo)
    (password : Option Password) (limits : Limits) (maximumOutput : Nat) :
    Work DecodedAdditionalStreams := do
  let (outputs, totalOutput) ←
    processAdditionalStreams codecs archiveBytes streams password limits maximumOutput
  if outputs.length ≠ streams.folders.length then
    formatErr "decoded additional-stream count does not match its declaration"
  else
    pure ⟨outputs, totalOutput⟩

def verifyAdditionalStreams (codecs : Codecs) (archiveBytes : Bytes) (streams : StreamsInfo)
    (password : Option Password) (limits : Limits) (maximumOutput : Nat) : Work Nat := do
  let (_, totalOutput) ←
    processAdditionalStreams codecs archiveBytes streams password limits maximumOutput
  pure totalOutput

/-! ### External properties -/

def readExternalBytes (count : Nat) : Reads Bytes := do
  checkpoint 0
  let bytes ← readBytes count
  checkpoint count
  pure bytes

/-- A little-endian value of `count` bytes. -/
def readExternalValue (count : Nat) (truncatedDetail : String) : Reads Nat := do
  let bytes ← readExternalBytes count
  if bytes.length = count then
    pure (leValue bytes)
  else
    formatErr truncatedDetail

def checkDefinitionCount (entries : List FileEntry) (property : ExternalProperty) : Work Unit :=
  if entries.length = property.definedEntries.length then
    pure ()
  else
    formatErr "external-property definition count does not match the file count"

/-- Read a value into an entry, if it defines the property. -/
def updateEntry {τ : Type} (update : FileEntry → τ → Reads (FileEntry × τ)) (entry : FileEntry)
    (isDefined : Bool) (total : τ) : Reads (FileEntry × τ) :=
  if isDefined then update entry total else pure (entry, total)

/-- The entry loop: `update` reads a value into each entry that defines the property. -/
def updateDefined {τ : Type} (update : FileEntry → τ → Reads (FileEntry × τ)) :
    List FileEntry → List Bool → τ → Reads (List FileEntry × τ)
  | entry :: entries, isDefined :: defined, total => do
      checkpoint 1
      let (entry, total) ← updateEntry update entry isDefined total
      let (entries, total) ← updateDefined update entries defined total
      pure (entry :: entries, total)
  | entries, _, total => pure (entries, total)

/-- The unit loop of one name; a reader with `fuel` bytes left allows no more rounds. -/
def readExternalName (limits : Limits) : Nat → Nat → Reads (List UInt16 × Nat)
  | 0, _ => do
      let _ ← readExternalValue 2 "external UTF-16 name is truncated"
      formatErr "truncated bounded byte range"
  | fuel + 1, nameBytes => do
      let codeUnit ← readExternalValue 2 "external UTF-16 name is truncated"
      if codeUnit = 0 then
        pure ([], nameBytes)
      else
        let nameBytes ← orFormat (checkedAdd 64 nameBytes 2) "external name byte count overflows"
        checkLimit nameBytes limits.maxNameBytesPerEntry .nameBytesPerEntry
        let (name, nameBytes) ← readExternalName limits fuel nameBytes
        pure (UInt16.ofNat codeUnit :: name, nameBytes)

def updateName (limits : Limits) (entry : FileEntry) (totalNameBytes : Nat) :
    Reads (FileEntry × Nat) := fun reader => do
  let ((name, nameBytes), reader) ←
    (readExternalName limits reader.remaining.length 0).run reader
  let totalNameBytes ← orFormat (checkedAdd 64 totalNameBytes nameBytes)
    "total external name bytes overflow"
  checkLimit totalNameBytes limits.maxTotalNameBytes .totalNameBytes
  pure (({ entry with rawName := some name }, totalNameBytes), reader)

/-- `match property.property_id() { … }` of `apply_external_u64`. -/
def setU64Property (propertyId : UInt8) (entry : FileEntry) (value : Nat) : Work FileEntry :=
  if propertyId = idCtime then
    pure { entry with creationTime := some value }
  else if propertyId = idAtime then
    pure { entry with accessTime := some value }
  else if propertyId = idMtime then
    pure { entry with modificationTime := some value }
  else if propertyId = idStartPos then
    pure { entry with startPosition := some value }
  else
    formatErr "external u64 property identifier is invalid"

def updateU64 (propertyId : UInt8) (entry : FileEntry) (total : Nat) :
    Reads (FileEntry × Nat) := do
  let value ← readExternalValue 8 "external u64 value is truncated"
  let entry ← setU64Property propertyId entry value
  pure (entry, total)

def updateAttributes (entry : FileEntry) (total : Nat) : Reads (FileEntry × Nat) := do
  let value ← readExternalValue 4 "external u32 value is truncated"
  pure ({ entry with windowsAttributes := some (UInt32.ofNat value) }, total)

/-- Read a property stream, from its first byte to its last, into the entries. -/
def applyExternalStream (update : FileEntry → Nat → Reads (FileEntry × Nat))
    (unconsumedDetail : String) (entries : List FileEntry) (property : ExternalProperty)
    (data : Bytes) (totalNameBytes : Nat) : Work (List FileEntry × Nat) := do
  checkDefinitionCount entries property
  let (updated, reader) ← (updateDefined update entries property.definedEntries
    totalNameBytes).run (BoundedReader.new data)
  finish reader unconsumedDetail
  pure updated

def applyExternalProperty (limits : Limits) (entries : List FileEntry)
    (property : ExternalProperty) (data : Bytes) (totalNameBytes : Nat) :
    Work (List FileEntry × Nat) :=
  let id := property.propertyId
  if id = idName then
    applyExternalStream (updateName limits) "external Name stream was not consumed exactly"
      entries property data totalNameBytes
  else if id = idCtime ∨ id = idAtime ∨ id = idMtime ∨ id = idStartPos then
    applyExternalStream (updateU64 id) "external u64 property stream was not consumed exactly"
      entries property data totalNameBytes
  else if id = idWinAttributes then
    applyExternalStream updateAttributes "external attribute stream was not consumed exactly"
      entries property data totalNameBytes
  else
    formatErr "external-property descriptor has an unknown identifier"

def initialNameBytes : List FileEntry → Nat → Work Nat
  | [], total => pure total
  | entry :: entries, total => do
      let bytes ← orFormat (checkedMul 64 ((entry.rawName.map List.length).getD 0) 2)
        "name byte count overflows"
      let total ← orFormat (checkedAdd 64 total bytes) "total name byte count overflows"
      initialNameBytes entries total

def applyProperties (decoded : DecodedAdditionalStreams) (limits : Limits) :
    List ExternalProperty → List FileEntry → Nat → Work (List FileEntry)
  | [], entries, _ => pure entries
  | property :: properties, entries, totalNameBytes => do
      checkpoint 1
      let stream ← decoded.get property.dataIndex
      let (entries, totalNameBytes) ← mapEncryptedError stream.encrypted
        (applyExternalProperty limits entries property stream.bytes totalNameBytes)
      applyProperties decoded limits properties entries totalNameBytes

def applyExternalProperties (header : ArchiveHeader) (decoded : DecodedAdditionalStreams)
    (limits : Limits) : Work ArchiveHeader :=
  match header.files with
  | none => pure header
  | some files =>
      if files.externalProperties.isEmpty then
        pure header
      else do
        let totalNameBytes ← initialNameBytes files.entries 0
        let entries ←
          applyProperties decoded limits files.externalProperties files.entries totalNameBytes
        pure { header with files := some { files with entries } }

/-- `resolve_external_properties`: the header, and how many bytes were decoded for it. -/
def resolveExternalProperties (codecs : Codecs) (header : ArchiveHeader) (archiveBytes : Bytes)
    (password : Option Password) (limits : Limits) (maximumOutput : Nat) :
    Work (ArchiveHeader × Nat) :=
  match header.files with
  | none => pure (header, 0)
  | some files =>
      if files.externalProperties.isEmpty then
        pure (header, 0)
      else do
        let streams ← orFormat header.additionalStreams
          "external file properties have no additional streams"
        let decoded ←
          decodeAdditionalStreams codecs archiveBytes streams password limits maximumOutput
        let header ← applyExternalProperties header decoded limits
        pure (header, decoded.totalBytes)

end Metadata

end Un7z
