/-
Opening an archive, the first half of `archive.rs`.

`parse_archive` finds a stored header; what it describes may still be encoded, any
number of times over, or may keep its folders or its file properties in additional
streams.  `open_bytes_inner` unwraps layer after layer, and counts the bytes it decodes
for the header against the limits.
-/
import Un7z.Metadata
import Un7z.Parser

namespace Un7z

open Metered (fail)
open Execute (DecodedFolder decodeFolder)
open Metadata (checkDigest substreamEnd substreamBytes)

structure ArchiveResources where
  inputBytes : Nat
  metadataBytes : Nat
  passwordBytes : Nat
  retainedBytes : Nat
  deriving DecidableEq, Repr

/-- An open archive. -/
structure Archive where
  bytes : Bytes
  header : ArchiveHeader
  limits : Limits
  password : Option Password
  resources : ArchiveResources
  deriving DecidableEq, Repr

/-! ### Accounting

`size_of` of the records is up to the compiler, so a `Layout` is a parameter.
-/

/-- `size_of` of the records that are accounted for. -/
structure Layout where
  archiveHeader : Nat
  storedProperty : Nat
  packStream : Nat
  folder : Nat
  coder : Nat
  bindPair : Nat
  optionalSize : Nat
  substream : Nat
  fileEntry : Nat
  externalProperty : Nat

namespace Archive

/-- `add_accounted_bytes` on a sum of sizes, one after the other. -/
def addAccounted (context : String) : List Nat → Nat → Work Nat
  | [], total => pure total
  | bytes :: rest, total => do
      let total ← orFormat (checkedAdd 64 total bytes) context
      addAccounted context rest total

/-- `accounted_slice_bytes::<T>` where a `T` takes `size` bytes. -/
def accountedSliceBytes (size length : Nat) (context : String) : Work Nat :=
  orFormat (checkedMul 64 length size) context

def accountedProperties (layout : Layout) (properties : List StoredProperty) : Work Nat := do
  let total ← accountedSliceBytes layout.storedProperty properties.length
    "stored-property accounting overflows"
  addAccounted "stored-property payload total overflows" (properties.map (·.data.length)) total

/-- One folder of `accounted_streams`. -/
def accountedFolder (layout : Layout) (folder : Folder) (total : Nat) : Work Nat := do
  let coders ← accountedSliceBytes layout.coder folder.coders.length
    "coder accounting overflows"
  let bindPairs ← accountedSliceBytes layout.bindPair folder.bindPairs.length
    "bind-pair accounting overflows"
  let packed ← accountedSliceBytes 8 folder.packedInputIndices.length
    "packed-input index accounting overflows"
  let unpackSizes ← accountedSliceBytes layout.optionalSize folder.unpackSizes.length
    "unpack-size accounting overflows"
  let order ← accountedSliceBytes 8 folder.topologicalCoderOrder.length
    "coder-order accounting overflows"
  let substreams ← accountedSliceBytes layout.substream folder.substreams.length
    "substream accounting overflows"
  let total ← addAccounted "folder metadata accounting overflows"
    [coders, bindPairs, packed, unpackSizes, order, substreams] total
  addAccounted "coder payload accounting overflows"
    (folder.coders.flatMap fun coder => [coder.methodId.length, coder.properties.length]) total

def accountedFolders (layout : Layout) : List Folder → Nat → Work Nat
  | [], total => pure total
  | folder :: folders, total => do
      let total ← accountedFolder layout folder total
      accountedFolders layout folders total

def accountedStreams (layout : Layout) (streams : StreamsInfo) : Work Nat := do
  let total ← accountedSliceBytes layout.packStream streams.packStreams.length
    "pack-stream accounting overflows"
  let folders ← accountedSliceBytes layout.folder streams.folders.length
    "folder accounting overflows"
  let total ← addAccounted "stream metadata accounting overflows" [folders] total
  accountedFolders layout streams.folders total

/-- The name loop of `accounted_files`. -/
def accountedNames : List FileEntry → Nat → Work Nat
  | [], total => pure total
  | entry :: entries, total => do
      let bytes ← accountedSliceBytes 2 ((entry.rawName.map List.length).getD 0)
        "entry-name accounting overflows"
      let total ← addAccounted "entry-name total accounting overflows" [bytes] total
      accountedNames entries total

def accountedFiles (layout : Layout) (files : FilesInfo) : Work Nat := do
  let total ← accountedSliceBytes layout.fileEntry files.entries.length
    "file-entry accounting overflows"
  let total ← accountedNames files.entries total
  let external ← accountedSliceBytes layout.externalProperty files.externalProperties.length
    "external-property accounting overflows"
  let total ← addAccounted "file metadata accounting overflows" [external] total
  let total ← addAccounted "external-property bitmap total overflows"
    (files.externalProperties.map (·.definedEntries.length)) total
  let properties ← accountedProperties layout files.unknownProperties
  addAccounted "file property accounting overflows" [properties] total

/-- Add what an optional part of the header takes. -/
def addAccountedPart {α : Type} (part : Option α) (account : α → Work Nat) (context : String)
    (total : Nat) : Work Nat :=
  match part with
  | some value => do
      let bytes ← account value
      addAccounted context [bytes] total
  | none => pure total

def accountedMetadata (layout : Layout) (header : ArchiveHeader) : Work Nat := do
  let properties ← accountedProperties layout header.archiveProperties
  let total ← addAccounted "archive-property accounting overflows" [properties]
    layout.archiveHeader
  let total ← addAccountedPart header.additionalStreams (accountedStreams layout)
    "additional-stream accounting overflows" total
  let total ← addAccountedPart header.mainStreams (accountedStreams layout)
    "main-stream accounting overflows" total
  addAccountedPart header.files (accountedFiles layout) "file metadata accounting overflows" total

def measureArchiveResources (layout : Layout) (bytes : Bytes) (header : ArchiveHeader)
    (password : Option Password) : Work ArchiveResources := do
  let metadataBytes ← accountedMetadata layout header
  let passwordBytes := (password.map List.length).getD 0
  let retainedBytes ← addAccounted "archive retained-byte accounting overflows"
    [metadataBytes, passwordBytes] bytes.length
  pure ⟨bytes.length, metadataBytes, passwordBytes, retainedBytes⟩

def fromParts (layout : Layout) (bytes : Bytes) (header : ArchiveHeader) (limits : Limits)
    (password : Option Password) : Work Archive := do
  let resources ← measureArchiveResources layout bytes header password
  pure ⟨bytes, header, limits, password, resources⟩

/-! ### Encoded headers -/

/-- The substream loop of `verify_encoded_header_folder`. -/
def verifyEncodedHeaderSubstreams (folder : Folder) (decoded : DecodedFolder) :
    Nat → List Substream → Nat → Work Nat
  | _, [], start => pure start
  | index, substream :: rest, start => do
      checkpoint 1
      let stop ← substreamEnd folder decoded.bytes.length start index substream.size
        "encoded-header substream range overflows"
        "unknown-nonfinal-encoded-header-substream-size"
      let bytes ← substreamBytes decoded.bytes start stop
        "encoded-header substream range exceeds its folder output"
        "encoded-header substream range is out of bounds"
      checkDigest substream.crc bytes (digestError decoded.encrypted .encodedHeader none)
      verifyEncodedHeaderSubstreams folder decoded (index + 1) rest stop

def verifyEncodedHeaderFolder (folder : Folder) (decoded : DecodedFolder) : Work Unit := do
  let start ← verifyEncodedHeaderSubstreams folder decoded 0 folder.substreams 0
  if start ≠ decoded.bytes.length then
    formatErr "encoded-header substreams do not consume their folder output exactly"
  else if decoded.crcMismatch then
    fail (digestError decoded.encrypted .encodedHeader none)
  else
    pure ()

/-- The sum of the sizes an encoded header declares, and what the limits say of it. -/
def checkDeclaredTotal (limits : Limits) (maximumOutput : Nat) : List Folder → Nat → Work Unit
  | [], _ => pure ()
  | folder :: folders, declaredTotal => do
      let size ← orFormat folder.unpackSizes[folder.rootOutputIndex]?
        "encoded-header root output size is missing"
      match size with
      | some size => do
          let declaredTotal ← orFormat (checkedAdd 64 declaredTotal size)
            "decoded-header declared size overflows"
          checkLimit declaredTotal limits.maxHeaderBytes .headerBytes
          checkLimit declaredTotal maximumOutput .totalOutputBytes
          checkDeclaredTotal limits maximumOutput folders declaredTotal
      | none => checkDeclaredTotal limits maximumOutput folders declaredTotal

/-- The folder loop of `decode_encoded_header`. -/
def decodeHeaderFolders (codecs : Codecs) (archiveBytes : Bytes) (streams : StreamsInfo)
    (limits : Limits) (maximumOutput : Nat) (password : Option Password) :
    Nat → List Folder → Nat → Work Bytes
  | _, [], _ => pure []
  | folderIndex, folder :: folders, decodedTotal => do
      checkpoint 1
      let remaining ← orFormat (checkedSub (min limits.maxHeaderBytes maximumOutput) decodedTotal)
        "decoded-header output accounting underflows"
      let decoded ← mapEncryptedError (folderIsEncrypted folder)
        (decodeFolder codecs archiveBytes streams folderIndex password limits remaining)
      verifyEncodedHeaderFolder folder decoded
      let decodedTotal ← orFormat (checkedAdd 64 decodedTotal decoded.bytes.length)
        "decoded-header output accounting overflows"
      checkLimit decodedTotal limits.maxHeaderBytes .headerBytes
      checkLimit decodedTotal maximumOutput .totalOutputBytes
      forEach (chunks controlChunkSize decoded.bytes) fun chunk => checkpoint chunk.length
      let rest ← decodeHeaderFolders codecs archiveBytes streams limits maximumOutput password
        (folderIndex + 1) folders decodedTotal
      pure (decoded.bytes ++ rest)

def decodeEncodedHeader (codecs : Codecs) (archiveBytes : Bytes) (streams : StreamsInfo)
    (limits : Limits) (maximumOutput : Nat) (password : Option Password) : Work Bytes :=
  if streams.folders.isEmpty then
    formatErr "encoded header has no folders"
  else do
    checkDeclaredTotal limits maximumOutput streams.folders 0
    decodeHeaderFolders codecs archiveBytes streams limits maximumOutput password 0
      streams.folders 0

/-! ### Layers -/

/-- One layer deeper. -/
def enterLayer (limits : Limits) (depth : Nat) (overflowDetail : String) : Work Nat := do
  let depth ← orFormat (checkedAdd 64 depth 1) overflowDetail
  checkLimit depth limits.maxRecursionDepth .recursionDepth
  pure depth

/-- What the output limit still leaves for decoding header bytes. -/
def remainingOutput (limits : Limits) (decodedHeaderBytes : Nat) (underflowDetail : String) :
    Work Nat :=
  orFormat (checkedSub limits.maxTotalOutputBytes decodedHeaderBytes) underflowDetail

/-- Account for bytes decoded for the header. -/
def addDecoded (limits : Limits) (decodedHeaderBytes bytes : Nat) (overflowDetail : String) :
    Work Nat := do
  let decodedHeaderBytes ← orFormat (checkedAdd 64 decodedHeaderBytes bytes) overflowDetail
  checkLimit decodedHeaderBytes limits.maxTotalOutputBytes .totalOutputBytes
  pure decodedHeaderBytes

/-- The arguments that all layers share. -/
structure Opening where
  codecs : Codecs
  layout : Layout
  bytes : Bytes
  envelope : HeaderEnvelope
  limits : Limits
  password : Option Password

/-- The arm of a plain header. -/
def resolveHeader (opening : Opening) (decodedHeaderBytes : Nat) (header : ArchiveHeader) :
    Work Archive := do
  let remaining ← remainingOutput opening.limits decodedHeaderBytes
    "external-property output accounting underflows"
  let (header, externalBytes) ← Metadata.resolveExternalProperties opening.codecs header
    opening.bytes opening.password opening.limits remaining
  let _ ← addDecoded opening.limits decodedHeaderBytes externalBytes
    "decoded metadata output accounting overflows"
  fromParts opening.layout opening.bytes header opening.limits opening.password

/-- The arm of an encoded header: the next layer, and the bytes decoded so far. -/
def unwrapEncodedHeader (opening : Opening) (decodedHeaderBytes : Nat) (streams : StreamsInfo) :
    Work (ParsedNextHeader × Nat) := do
  let encrypted := streams.folders.any folderIsEncrypted
  let remaining ← remainingOutput opening.limits decodedHeaderBytes
    "decoded-header output accounting underflows"
  let decoded ← mapEncryptedError encrypted (decodeEncodedHeader opening.codecs opening.bytes
    streams opening.limits remaining opening.password)
  let decodedHeaderBytes ← addDecoded opening.limits decodedHeaderBytes decoded.length
    "decoded-header output accounting overflows"
  let nextHeader ← mapEncryptedError encrypted (Parser.parseDecodedNextHeader decoded
    opening.envelope opening.bytes opening.limits)
  pure (nextHeader, decodedHeaderBytes)

/-- A header whose external folders are known is a plain one. -/
def expectHeader : ParsedNextHeader → Work ArchiveHeader
  | .header header => pure header
  | _ => formatErr "external folder resolution did not produce a plain header"

/-- The arm of a header whose folders are in an additional stream. -/
def resolveExternalFolders (opening : Opening) (decodedHeaderBytes : Nat)
    (pending : PendingExternalFolderHeader) : Work Archive := do
  let remaining ← remainingOutput opening.limits decodedHeaderBytes
    "external-folder output accounting underflows"
  let decoded ← Metadata.decodeAdditionalStreams opening.codecs opening.bytes
    pending.additionalStreams opening.password opening.limits remaining
  let _ ← addDecoded opening.limits decodedHeaderBytes decoded.totalBytes
    "external-folder output accounting overflows"
  let folderStream ← decoded.get pending.dataIndex
  let resolved ← mapEncryptedError folderStream.encrypted
    (Parser.parseNextHeaderFromExternalFolders pending.headerBytes pending.dataIndex
      folderStream.bytes opening.envelope opening.bytes opening.limits)
  let header ← expectHeader resolved
  let header ← Metadata.applyExternalProperties header decoded opening.limits
  fromParts opening.layout opening.bytes header opening.limits opening.password

/--
The loop of `open_bytes_inner`.

`fuel` is how many layers the limits allow below `depth`, so without any left the depth
check fails and nothing after it is reached.
-/
def openLayers (opening : Opening) : Nat → Nat → Nat → ParsedNextHeader → Work Archive
  | _, _, decodedHeaderBytes, .header header => resolveHeader opening decodedHeaderBytes header
  | _, depth, decodedHeaderBytes, .pendingExternalFolders pending => do
      let _ ← enterLayer opening.limits depth "external-folder resolution depth overflows"
      resolveExternalFolders opening decodedHeaderBytes pending
  | 0, depth, _, .encodedHeader _ => do
      let _ ← enterLayer opening.limits depth "encoded-header recursion depth overflows"
      formatErr "encoded-header recursion depth overflows"
  | fuel + 1, depth, decodedHeaderBytes, .encodedHeader streams => do
      let depth ← enterLayer opening.limits depth "encoded-header recursion depth overflows"
      let (nextHeader, decodedHeaderBytes) ←
        unwrapEncodedHeader opening decodedHeaderBytes streams
      openLayers opening fuel depth decodedHeaderBytes nextHeader

/-- `open_bytes_inner`, with the password already converted. -/
def openBytes (codecs : Codecs) (layout : Layout) (bytes : Bytes) (limits : Limits)
    (password : Option Password) : Work Archive := do
  let parsed ← Parser.parseArchive bytes limits
  openLayers ⟨codecs, layout, bytes, parsed.envelope, limits, password⟩ limits.maxRecursionDepth
    0 0 parsed.nextHeader

/-- `Archive::entries`: no directory is an empty directory. -/
def entries (archive : Archive) : List FileEntry := (archive.header.files.map (·.entries)).getD []

end Archive

end Un7z
