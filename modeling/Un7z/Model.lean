/-
The validated archive model of `model.rs`.

The records keep every field of the source.  Accessors that only read a field are the
field; the few that compute something are definitions.
-/
import Un7z.Control

namespace Un7z

structure ArchiveVersion where
  major : UInt8
  minor : UInt8
  deriving DecidableEq, Repr

inductive NextHeaderKind
  | header
  | encodedHeader
  deriving DecidableEq, Repr

structure HeaderEnvelope where
  signatureOffset : Nat
  version : ArchiveVersion
  nextHeaderOffset : Nat
  nextHeaderSize : Nat
  nextHeaderCrc : UInt32
  nextHeaderKind : NextHeaderKind
  deriving DecidableEq, Repr

/-! ### Streams and folders -/

structure BindPair where
  inputIndex : Nat
  outputIndex : Nat
  deriving DecidableEq, Repr

structure Substream where
  size : Option Nat
  crc : Option UInt32
  deriving DecidableEq, Repr

structure Coder where
  methodId : Bytes
  inputStart : Nat
  inputCount : Nat
  outputStart : Nat
  outputCount : Nat
  properties : Bytes
  dictionaryBytes : Option Nat
  deriving DecidableEq, Repr

structure Folder where
  coders : List Coder
  bindPairs : List BindPair
  packedInputIndices : List Nat
  unpackSizes : List (Option Nat)
  rootOutputIndex : Nat
  topologicalCoderOrder : List Nat
  crc : Option UInt32
  substreams : List Substream
  dictionaryBytes : Nat
  firstPackStream : Nat
  deriving DecidableEq, Repr

structure PackStream where
  offset : Nat
  size : Option Nat
  crc : Option UInt32
  deriving DecidableEq, Repr

structure StreamsInfo where
  packPosition : Nat
  packStreams : List PackStream
  folders : List Folder
  substreamCount : Nat
  deriving DecidableEq, Repr

/-! ### Files -/

structure StoredProperty where
  id : UInt8
  data : Bytes
  deriving DecidableEq, Repr

structure ExternalProperty where
  propertyId : UInt8
  dataIndex : Nat
  definedEntries : List Bool
  deriving DecidableEq, Repr

structure FileStream where
  folderIndex : Nat
  substreamIndex : Nat
  size : Option Nat
  crc : Option UInt32
  deriving DecidableEq, Repr

structure FileEntry where
  rawName : Option (List UInt16)
  hasStream : Bool
  emptyFile : Bool
  antiItem : Bool
  creationTime : Option Nat
  accessTime : Option Nat
  modificationTime : Option Nat
  windowsAttributes : Option UInt32
  startPosition : Option Nat
  stream : Option FileStream
  deriving DecidableEq, Repr

inductive EntryKind
  | file
  | directory
  | symbolicLink
  | antiItem
  deriving DecidableEq, Repr

namespace FileEntry

def unixMode (entry : FileEntry) : Option UInt32 :=
  match entry.windowsAttributes with
  | some attributes => if attributes &&& 0x8000 ≠ 0 then some (attributes >>> 16) else none
  | none => none

def isSymlink (entry : FileEntry) : Bool :=
  match entry.unixMode with
  | some mode => mode &&& 0o170000 == 0o120000
  | none => false

def kind (entry : FileEntry) : EntryKind :=
  if entry.antiItem then .antiItem
  else if entry.isSymlink then .symbolicLink
  else if entry.hasStream || entry.emptyFile then .file
  else .directory

def size (entry : FileEntry) : Option Nat :=
  match entry.stream with
  | some stream => stream.size
  | none => if entry.emptyFile && !entry.antiItem then some 0 else none

end FileEntry

structure FilesInfo where
  entries : List FileEntry
  externalProperties : List ExternalProperty
  unknownProperties : List StoredProperty
  deriving DecidableEq, Repr

/-! ### Headers -/

structure ArchiveHeader where
  archiveProperties : List StoredProperty
  additionalStreams : Option StreamsInfo
  mainStreams : Option StreamsInfo
  files : Option FilesInfo
  deriving DecidableEq, Repr

structure PendingExternalFolderHeader where
  additionalStreams : StreamsInfo
  dataIndex : Nat
  headerBytes : Bytes
  deriving DecidableEq, Repr

inductive ParsedNextHeader
  | header (header : ArchiveHeader)
  | encodedHeader (streams : StreamsInfo)
  | pendingExternalFolders (pending : PendingExternalFolderHeader)
  deriving DecidableEq, Repr

structure ParsedArchive where
  envelope : HeaderEnvelope
  nextHeader : ParsedNextHeader
  deriving DecidableEq, Repr

end Un7z
