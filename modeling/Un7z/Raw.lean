/-
The next-header grammar of `raw.rs`.

Records keep the source's fields.  A parse function takes the reader and the running
totals of `ParseState` and returns the totals it leaves behind; a Rust loop that
pushes one parsed item per round is `readMany`.  Reserving memory is not modelled,
and `count_to_usize` is the identity.
-/
import Un7z.Bounded

namespace Un7z

open Metered (fail)

/-! ### Identifiers -/

def idEnd : UInt8 := 0x00
def idHeader : UInt8 := 0x01
def idArchiveProperties : UInt8 := 0x02
def idAdditionalStreamsInfo : UInt8 := 0x03
def idMainStreamsInfo : UInt8 := 0x04
def idFilesInfo : UInt8 := 0x05
def idPackInfo : UInt8 := 0x06
def idUnpackInfo : UInt8 := 0x07
def idSubstreamsInfo : UInt8 := 0x08
def idSize : UInt8 := 0x09
def idCrc : UInt8 := 0x0a
def idFolder : UInt8 := 0x0b
def idCodersUnpackSize : UInt8 := 0x0c
def idNumUnpackStream : UInt8 := 0x0d
def idEmptyStream : UInt8 := 0x0e
def idEmptyFile : UInt8 := 0x0f
def idAnti : UInt8 := 0x10
def idName : UInt8 := 0x11
def idCtime : UInt8 := 0x12
def idAtime : UInt8 := 0x13
def idMtime : UInt8 := 0x14
def idWinAttributes : UInt8 := 0x15
def idEncodedHeader : UInt8 := 0x17
def idStartPos : UInt8 := 0x18
def idDummy : UInt8 := 0x19

/-! ### Records -/

structure RawProperty where
  id : UInt8
  data : Bytes
  deriving DecidableEq, Repr

structure RawFilesInfo where
  count : Nat
  properties : List RawProperty
  deriving DecidableEq, Repr

structure RawPackInfo where
  position : Nat
  streams : Nat
  sizes : Option (List Nat)
  crcs : Option (List (Option UInt32))
  deriving DecidableEq, Repr

structure RawCoder where
  methodId : Bytes
  inputStreams : Nat
  outputStreams : Nat
  properties : Bytes
  deriving DecidableEq, Repr

structure RawBindPair where
  input : Nat
  output : Nat
  deriving DecidableEq, Repr

structure RawFolder where
  coders : List RawCoder
  inputStreams : Nat
  outputStreams : Nat
  bindPairs : List RawBindPair
  packedStreams : Nat
  packedIndices : Option (List Nat)
  unpackSizes : List Nat
  deriving DecidableEq, Repr

structure RawUnpackInfo where
  folders : List RawFolder
  crcs : Option (List (Option UInt32))
  deriving DecidableEq, Repr

structure RawSubstreamsInfo where
  counts : List Nat
  explicitSizes : Option (List Nat)
  crcs : Option (List (Option UInt32))
  deriving DecidableEq, Repr

structure RawStreamsInfo where
  pack : Option RawPackInfo
  unpack : Option RawUnpackInfo
  substreams : Option RawSubstreamsInfo
  deriving DecidableEq, Repr

structure RawHeader where
  archiveProperties : List RawProperty
  additionalStreams : Option RawStreamsInfo
  mainStreams : Option RawStreamsInfo
  files : Option RawFilesInfo
  deriving DecidableEq, Repr

structure RawExternalFolderHeader where
  additionalStreams : RawStreamsInfo
  mainPack : Option RawPackInfo
  dataIndex : Nat
  headerBytes : Bytes
  deriving DecidableEq, Repr

inductive RawNextHeader
  | header (header : RawHeader)
  | encoded (streams : RawStreamsInfo)
  | externalFolders (pending : RawExternalFolderHeader)
  deriving DecidableEq, Repr

structure ExternalFolderData where
  dataIndex : Nat
  bytes : Bytes

inductive ParsedUnpackInfo
  | complete (info : RawUnpackInfo)
  | external (dataIndex : Nat)

inductive ParsedStreamsInfo
  | complete (info : RawStreamsInfo)
  | external (pack : Option RawPackInfo) (dataIndex : Nat)

/-! ### Running totals -/

structure ParseState where
  totalFolders : Nat := 0
  totalCoders : Nat := 0
  totalStreams : Nat := 0
  totalPackedStreams : Nat := 0
  totalSubstreams : Nat := 0
  totalProperties : Nat := 0
  deriving DecidableEq, Repr

attribute [ext] ParseState

namespace ParseState

/-- `ParseState::add_limited`: the new value of one running total. -/
def addLimited (value additional maximum : Nat) (limit : LimitKind) (overflowDetail : String) :
    Work Nat := do
  let total ← orFormat (checkedAdd 64 value additional) overflowDetail
  checkLimit total maximum limit
  pure total

def addFolders (state : ParseState) (count : Nat) (limits : Limits) : Work ParseState := do
  let total ← addLimited state.totalFolders count limits.maxFolders .folders
    "total folder count overflows"
  pure { state with totalFolders := total }

def addCoders (state : ParseState) (count : Nat) (limits : Limits) : Work ParseState := do
  let total ← addLimited state.totalCoders count limits.maxTotalCoders .totalCoders
    "total coder count overflows"
  pure { state with totalCoders := total }

def addStreams (state : ParseState) (count : Nat) (limits : Limits) : Work ParseState := do
  let total ← addLimited state.totalStreams count limits.maxTotalStreams .totalStreams
    "total stream count overflows"
  pure { state with totalStreams := total }

def addPackedStreams (state : ParseState) (count : Nat) (limits : Limits) : Work ParseState := do
  let total ← addLimited state.totalPackedStreams count limits.maxTotalStreams .totalStreams
    "total packed-stream count overflows"
  pure { state with totalPackedStreams := total }

def addSubstreams (state : ParseState) (count : Nat) (limits : Limits) : Work ParseState := do
  let total ← addLimited state.totalSubstreams count limits.maxSubstreams .substreams
    "total substream count overflows"
  pure { state with totalSubstreams := total }

def addProperty (state : ParseState) (limits : Limits) : Work ParseState := do
  let total ← addLimited state.totalProperties 1 limits.maxHeaderProperties .headerProperties
    "header property count overflows"
  pure { state with totalProperties := total }

end ParseState

/-! ### Charged reads -/

namespace Raw

def readU8 : Reads UInt8 := do
  checkpoint 1
  Un7z.readU8

def readU32Le : Reads UInt32 := do
  checkpoint 4
  Un7z.readU32Le

def readUint : Reads Nat := do
  checkpoint 9
  read7zUint

def readBytes (length : Nat) : Reads Bytes := do
  let bytes ← Un7z.readBytes length
  consumeBytes bytes
  pure bytes

/-- `for _ in 0..count { values.push(item(reader)?) }`. -/
def readMany {α : Type} (item : Reads α) : Nat → Reads (List α)
  | 0 => pure []
  | count + 1 => do
      let value ← item
      let values ← readMany item count
      pure (value :: values)

/-! ### Vectors -/

/-- The loop of `parse_bits`: `mask` is zero when the next bit starts a new byte. -/
def parseBitsFrom : Nat → UInt8 → UInt8 → Reads (List Bool)
  | 0, _, _ => pure []
  | count + 1, byte, mask =>
      if mask = 0 then do
        let byte ← readU8
        let values ← parseBitsFrom count byte 0x40
        pure (decide (byte &&& 0x80 ≠ 0) :: values)
      else do
        let values ← parseBitsFrom count byte (mask >>> 1)
        pure (decide (byte &&& mask ≠ 0) :: values)

def parseBits (count : Nat) : Reads (List Bool) := do
  checkpoint count
  parseBitsFrom count 0 0

/-- A value that is only there if its bit says so. -/
def readIfDefined {α : Type} (readValue : Reads α) (isDefined : Bool) : Reads (Option α) := do
  if isDefined then
    let value ← readValue
    pure (some value)
  else
    pure none

/-- The digest of each stream the bit vector marks as defined. -/
def parseDefinedDigests : List Bool → Reads (List (Option UInt32))
  | [] => pure []
  | isDefined :: defined => do
      let digest ← readIfDefined readU32Le isDefined
      let digests ← parseDefinedDigests defined
      pure (digest :: digests)

def parseDigests (count : Nat) : Reads (List (Option UInt32)) := do
  if count = 0 then
    pure []
  else
    checkpoint count
    let allDefined ← readU8
    let defined ← if allDefined = 0 then parseBits count else pure (List.replicate count true)
    parseDefinedDigests defined

def parseSizes (count : Nat) : Reads (List Nat) := do
  checkpoint count
  readMany readUint count

/--
A section that is there only if the identifier just read announces it: `section`, and
then the identifier of what follows.
-/
def optionalSection {α : Type} (id expected : UInt8) (body : Reads α) :
    Reads (Option α × UInt8) := do
  if id = expected then
    let value ← body
    let next ← readU8
    pure (some value, next)
  else
    pure (none, id)

/-! ### Packed streams -/

def parsePackInfo (state : ParseState) (limits : Limits) : Reads (RawPackInfo × ParseState) := do
  let position ← readUint
  let streams ← readUint
  if streams = 0 then
    formatErr "PackInfo declares zero packed streams"
  else
    let state ← state.addPackedStreams streams limits
    let id ← readU8
    let (sizes, id) ← optionalSection id idSize (parseSizes streams)
    let (crcs, id) ← optionalSection id idCrc (parseDigests streams)
    if id ≠ idEnd then
      formatErr "unexpected PackInfo identifier"
    else
      pure (⟨position, streams, sizes, crcs⟩, state)

/-! ### Coders and folders -/

/-- The stream counts of a coder, which only a complex coder states. -/
def parseCoderStreams (flags : UInt8) : Reads (Nat × Nat) := do
  if flags &&& 0x10 ≠ 0 then
    let input ← readUint
    let output ← readUint
    if input = 0 ∨ output = 0 then
      formatErr "coder stream counts must be non-zero"
    else
      pure (input, output)
  else
    pure (1, 1)

def parseCoderProperties (flags : UInt8) (limits : Limits) : Reads Bytes := do
  if flags &&& 0x20 ≠ 0 then
    let length ← readUint
    checkLimit length limits.maxCoderPropertyBytes .coderPropertyBytes
    readBytes length
  else
    pure []

def parseCoder (limits : Limits) : Reads RawCoder := do
  let flags ← readU8
  if flags &&& 0x80 ≠ 0 then
    (fail (.unsupportedFeature "alternative-coder-methods") : Work RawCoder)
  else if flags &&& 0x40 ≠ 0 then
    formatErr "coder uses a reserved flag"
  else
    let methodLength := (flags &&& 0x0f).toNat
    if methodLength = 0 then
      formatErr "coder method identifier is empty"
    else
      let methodId ← readBytes methodLength
      let (inputStreams, outputStreams) ← parseCoderStreams flags
      let properties ← parseCoderProperties flags limits
      pure ⟨methodId, inputStreams, outputStreams, properties⟩

/-- The coder loop of `parse_folder`, with its two stream counters. -/
def parseCoders (limits : Limits) : Nat → Nat → Nat → Reads (List RawCoder × Nat × Nat)
  | 0, inputStreams, outputStreams => pure ([], inputStreams, outputStreams)
  | count + 1, inputStreams, outputStreams => do
      let coder ← parseCoder limits
      let inputStreams ← orFormat (checkedAdd 64 inputStreams coder.inputStreams)
        "folder input-stream count overflows"
      let outputStreams ← orFormat (checkedAdd 64 outputStreams coder.outputStreams)
        "folder output-stream count overflows"
      let (coders, totals) ← parseCoders limits count inputStreams outputStreams
      pure (coder :: coders, totals)

def parseBindPair : Reads RawBindPair := do
  let input ← readUint
  let output ← readUint
  pure ⟨input, output⟩

def parsePackedIndices (packedStreams : Nat) : Reads (Option (List Nat)) := do
  if packedStreams = 1 then
    pure none
  else
    let values ← readMany readUint packedStreams
    pure (some values)

def parseFolder (state : ParseState) (limits : Limits) : Reads (RawFolder × ParseState) := do
  let coderCount ← readUint
  if coderCount = 0 then
    formatErr "folder declares zero coders"
  else
    checkLimit coderCount limits.maxCodersPerFolder .codersPerFolder
    let state ← state.addCoders coderCount limits
    let (coders, inputStreams, outputStreams) ← parseCoders limits coderCount 0 0
    let folderStreams ← orFormat (checkedAdd 64 inputStreams outputStreams)
      "folder stream-port count overflows"
    checkLimit folderStreams limits.maxStreamsPerFolder .streamsPerFolder
    let state ← state.addStreams folderStreams limits
    if inputStreams < outputStreams then
      formatErr "folder has fewer input streams than output streams"
    else
      let bindCount ← orFormat (checkedSub outputStreams 1) "folder bind-pair count underflows"
      let bindPairs ← readMany parseBindPair bindCount
      let packedStreams ← orFormat (checkedSub inputStreams bindCount)
        "folder packed-stream count underflows"
      if packedStreams = 0 then
        formatErr "folder has no packed input stream"
      else
        let packedIndices ← parsePackedIndices packedStreams
        pure (⟨coders, inputStreams, outputStreams, bindPairs, packedStreams, packedIndices, []⟩,
          state)

def parseFolders (limits : Limits) : Nat → ParseState → Reads (List RawFolder × ParseState)
  | 0, state => pure ([], state)
  | count + 1, state => do
      let (folder, state) ← parseFolder state limits
      let (folders, state) ← parseFolders limits count state
      pure (folder :: folders, state)

/-- The second loop of `parse_unpack_info`: one size for every output of every folder. -/
def parseUnpackSizes : List RawFolder → Reads (List RawFolder)
  | [] => pure []
  | folder :: folders => do
      let unpackSizes ← parseSizes folder.outputStreams
      let folders ← parseUnpackSizes folders
      pure ({ folder with unpackSizes } :: folders)

/-- What follows the folder definitions in `parse_unpack_info`. -/
def parseUnpackInfoTail (folderCount : Nat) (folders : List RawFolder) : Reads RawUnpackInfo := do
  let id ← readU8
  if id ≠ idCodersUnpackSize then
    formatErr "UnpackInfo is missing CodersUnpackSize"
  else
    let folders ← parseUnpackSizes folders
    let id ← readU8
    let (crcs, id) ← optionalSection id idCrc (parseDigests folderCount)
    if id ≠ idEnd then
      formatErr "unexpected UnpackInfo identifier"
    else
      pure ⟨folders, crcs⟩

/-- Folder definitions that stand in another stream, which must hold nothing else. -/
def parseExternalFolders (source : ExternalFolderData) (folderCount : Nat) (state : ParseState)
    (limits : Limits) : Work (List RawFolder × ParseState) := do
  let (value, child) ← (parseFolders limits folderCount state).run (BoundedReader.new source.bytes)
  finish child "external folder stream was not consumed exactly"
  pure value

def parseUnpackInfo (state : ParseState) (limits : Limits)
    (externalFolders : Option ExternalFolderData) : Reads (ParsedUnpackInfo × ParseState) := do
  let id ← readU8
  if id ≠ idFolder then
    formatErr "UnpackInfo is missing Folder"
  else
    let folderCount ← readUint
    if folderCount = 0 then
      formatErr "UnpackInfo declares zero folders"
    else
      let state ← state.addFolders folderCount limits
      checkpoint folderCount
      let external ← readU8
      if external = 0 then
        let (folders, state) ← parseFolders limits folderCount state
        let info ← parseUnpackInfoTail folderCount folders
        pure (.complete info, state)
      else
        let dataIndex ← readUint
        match externalFolders with
        | none => pure (.external dataIndex, state)
        | some source =>
            if source.dataIndex ≠ dataIndex then
              formatErr "external folder data index changed during header resolution"
            else
              let (folders, state) ← parseExternalFolders source folderCount state limits
              let info ← parseUnpackInfoTail folderCount folders
              pure (.complete info, state)

/-! ### Substreams -/

/-- All substreams of a folder but the last have a size. -/
def additionalSizes (count : Nat) : Work Nat :=
  if count = 0 then pure 0
  else orFormat (checkedSub count 1) "explicit substream-size count underflows"

/-- The counting loop of `parse_substreams_info`: all substreams, and those with a size. -/
def countSubstreams : List Nat → Nat → Nat → Work (Nat × Nat)
  | [], totalSubstreams, explicitSizeCount => pure (totalSubstreams, explicitSizeCount)
  | count :: counts, totalSubstreams, explicitSizeCount => do
      let totalSubstreams ← orFormat (checkedAdd 64 totalSubstreams count)
        "substream count overflows"
      let additional ← additionalSizes count
      let explicitSizeCount ← orFormat (checkedAdd 64 explicitSizeCount additional)
        "explicit substream-size count overflows"
      countSubstreams counts totalSubstreams explicitSizeCount

/-- The digest a folder passes on to its only substream. -/
def inheritedCrc (folderCrcs : Option (List (Option UInt32))) (folderIndex : Nat) :
    Option UInt32 :=
  (folderCrcs.bind (·[folderIndex]?)).join

/-- The digests of one folder: none if its only substream takes the folder's. -/
def addDigests (folderCrcs : Option (List (Option UInt32))) (folderIndex count digestCount : Nat) :
    Work Nat :=
  if count ≠ 1 ∨ (inheritedCrc folderCrcs folderIndex).isNone then
    orFormat (checkedAdd 64 digestCount count) "substream digest count overflows"
  else
    pure digestCount

/-- The digest loop of `parse_substreams_info`, from folder `folderIndex` on. -/
def countDigests (folderCrcs : Option (List (Option UInt32))) :
    Nat → List Nat → Nat → Work Nat
  | _, [], digestCount => pure digestCount
  | folderIndex, count :: counts, digestCount => do
      let digestCount ← addDigests folderCrcs folderIndex count digestCount
      countDigests folderCrcs (folderIndex + 1) counts digestCount

/-- The substream counts, one for each folder, and the identifier after them. -/
def parseSubstreamCounts (id : UInt8) (folderCount : Nat) : Reads (List Nat × UInt8) := do
  if id = idNumUnpackStream then
    let counts ← readMany readUint folderCount
    let id ← readU8
    pure (counts, id)
  else
    pure (List.replicate folderCount 1, id)

def parseSubstreamsInfo (unpack : RawUnpackInfo) (state : ParseState) (limits : Limits) :
    Reads (RawSubstreamsInfo × ParseState) := do
  let folderCount := unpack.folders.length
  let id ← readU8
  let (counts, id) ← parseSubstreamCounts id folderCount
  let (totalSubstreams, explicitSizeCount) ← countSubstreams counts 0 0
  let state ← state.addSubstreams totalSubstreams limits
  let (explicitSizes, id) ← optionalSection id idSize (parseSizes explicitSizeCount)
  let digestCount ← countDigests unpack.crcs 0 counts 0
  let (crcs, id) ← optionalSection id idCrc (parseDigests digestCount)
  if id ≠ idEnd then
    formatErr "unexpected SubStreamsInfo identifier"
  else
    pure (⟨counts, explicitSizes, crcs⟩, state)

/-! ### Streams -/

/-- The substreams of a section, counted as one a folder when it says nothing of them. -/
def parseSubstreamsSection (id : UInt8) (unpack : Option RawUnpackInfo) (state : ParseState)
    (limits : Limits) : Reads (Option RawSubstreamsInfo × UInt8 × ParseState) := do
  if id = idSubstreamsInfo then
    match unpack with
    | none => formatErr "SubStreamsInfo has no UnpackInfo"
    | some unpackInfo =>
        let (value, state) ← parseSubstreamsInfo unpackInfo state limits
        let id ← readU8
        pure (some value, id, state)
  else
    match unpack with
    | none => pure (none, id, state)
    | some unpackInfo =>
        let state ← state.addSubstreams unpackInfo.folders.length limits
        pure (none, id, state)

def parsePackSection (id : UInt8) (state : ParseState) (limits : Limits) :
    Reads (Option RawPackInfo × UInt8 × ParseState) := do
  if id = idPackInfo then
    let (value, state) ← parsePackInfo state limits
    let id ← readU8
    pure (some value, id, state)
  else
    pure (none, id, state)

/-- What follows the folders of `parse_streams_info`. -/
def parseStreamsTail (id : UInt8) (pack : Option RawPackInfo) (unpack : Option RawUnpackInfo)
    (state : ParseState) (limits : Limits) : Reads (ParsedStreamsInfo × ParseState) := do
  let (substreams, id, state) ← parseSubstreamsSection id unpack state limits
  if id ≠ idEnd then
    formatErr "unexpected StreamsInfo identifier"
  else
    pure (.complete ⟨pack, unpack, substreams⟩, state)

/-- The folders of a section, and what follows them; external ones end the parse here. -/
def parseUnpackSection (id : UInt8) (pack : Option RawPackInfo) (state : ParseState)
    (limits : Limits) (externalFolders : Option ExternalFolderData) :
    Reads (ParsedStreamsInfo × ParseState) := do
  if id = idUnpackInfo then
    match ← parseUnpackInfo state limits externalFolders with
    | (.complete value, state) => do
        let id ← readU8
        parseStreamsTail id pack (some value) state limits
    | (.external dataIndex, state) => pure (.external pack dataIndex, state)
  else
    parseStreamsTail id pack none state limits

def parseStreamsInfo (state : ParseState) (limits : Limits)
    (externalFolders : Option ExternalFolderData) : Reads (ParsedStreamsInfo × ParseState) := do
  let id ← readU8
  let (pack, id, state) ← parsePackSection id state limits
  parseUnpackSection id pack state limits externalFolders

/-! ### Properties and files -/

/--
The loop of `parse_property_list`.

Each round reads at least one byte, so a reader allows no more rounds than it has
bytes left; `fuel` is that number, and the run that exhausts it has read past the end.
-/
def parsePropertyListFrom (limits : Limits) :
    Nat → ParseState → Reads (List RawProperty × ParseState)
  | 0, _ => do
      let _ ← readU8
      formatErr "truncated bounded byte range"
  | fuel + 1, state => do
      let id ← readU8
      if id = idEnd then
        pure ([], state)
      else
        let state ← state.addProperty limits
        let length ← readUint
        checkLimit length limits.maxHeaderBytes .headerBytes
        let data ← readBytes length
        let (properties, state) ← parsePropertyListFrom limits fuel state
        pure (⟨id, data⟩ :: properties, state)

def parsePropertyList (state : ParseState) (limits : Limits) :
    Reads (List RawProperty × ParseState) := fun reader =>
  parsePropertyListFrom limits reader.remaining.length state reader

def parseFilesInfo (state : ParseState) (limits : Limits) :
    Reads (RawFilesInfo × ParseState) := do
  let count ← readUint
  checkLimit count limits.maxFiles .files
  let (properties, state) ← parsePropertyList state limits
  pure (⟨count, properties⟩, state)

/-! ### Headers -/

/-- `AdditionalStreamsInfo`, whose folders must be inline. -/
def parseAdditionalStreams (id : UInt8) (state : ParseState) (limits : Limits) :
    Reads (Option RawStreamsInfo × UInt8 × ParseState) := do
  if id = idAdditionalStreamsInfo then
    match ← parseStreamsInfo state limits none with
    | (.complete streams, state) => do
        let id ← readU8
        pure (some streams, id, state)
    | (.external _ _, _) =>
        formatErr "AdditionalStreamsInfo cannot source its own folder definitions"
  else
    pure (none, id, state)

/-- The archive properties that may open a header. -/
def parseArchiveProperties (id : UInt8) (state : ParseState) (limits : Limits) :
    Reads (List RawProperty × UInt8 × ParseState) := do
  if id = idArchiveProperties then
    let (properties, state) ← parsePropertyList state limits
    let id ← readU8
    pure (properties, id, state)
  else
    pure ([], id, state)

/-- The files of a header, if the identifier announces them. -/
def parseFilesSection (id : UInt8) (state : ParseState) (limits : Limits) :
    Reads (Option RawFilesInfo × UInt8 × ParseState) := do
  if id = idFilesInfo then
    let (files, state) ← parseFilesInfo state limits
    let id ← readU8
    pure (some files, id, state)
  else
    pure (none, id, state)

/-- What follows the streams of `parse_header_body`. -/
def parseHeaderTail (id : UInt8) (archiveProperties : List RawProperty)
    (additionalStreams mainStreams : Option RawStreamsInfo) (state : ParseState)
    (limits : Limits) : Reads (RawNextHeader × ParseState) := do
  let (files, id, state) ← parseFilesSection id state limits
  if id ≠ idEnd then
    formatErr "unexpected Header identifier"
  else
    pure (.header ⟨archiveProperties, additionalStreams, mainStreams, files⟩, state)

/-- The main streams, and what follows them; folders in another stream end the parse here. -/
def parseMainStreams (headerBytes : Bytes) (id : UInt8) (archiveProperties : List RawProperty)
    (additionalStreams : Option RawStreamsInfo) (state : ParseState) (limits : Limits)
    (externalFolders : Option ExternalFolderData) : Reads (RawNextHeader × ParseState) := do
  if id = idMainStreamsInfo then
    match ← parseStreamsInfo state limits externalFolders with
    | (.complete streams, state) => do
        let id ← readU8
        parseHeaderTail id archiveProperties additionalStreams (some streams) state limits
    | (.external pack dataIndex, state) =>
        match additionalStreams with
        | some additionalStreams =>
            pure (.externalFolders ⟨additionalStreams, pack, dataIndex, headerBytes⟩, state)
        | none => formatErr "external folder definitions require AdditionalStreamsInfo"
  else
    parseHeaderTail id archiveProperties additionalStreams none state limits

def parseHeaderBody (headerBytes : Bytes) (state : ParseState) (limits : Limits)
    (externalFolders : Option ExternalFolderData) : Reads (RawNextHeader × ParseState) := do
  let id ← readU8
  let (archiveProperties, id, state) ← parseArchiveProperties id state limits
  let (additionalStreams, id, state) ← parseAdditionalStreams id state limits
  parseMainStreams headerBytes id archiveProperties additionalStreams state limits externalFolders

/-- `parse_next_header_inner` up to its last line: what the body leaves unread. -/
def parseNextHeaderBody (bytes : Bytes) (state : ParseState) (limits : Limits)
    (externalFolders : Option ExternalFolderData) : Reads (RawNextHeader × ParseState) := do
  let kind ← readU8
  if kind = idHeader then
    parseHeaderBody bytes state limits externalFolders
  else if kind = idEncodedHeader then
    match ← parseStreamsInfo state limits none with
    | (.complete streams, state) => pure (.encoded streams, state)
    | (.external _ _, _) =>
        formatErr "encoded-header folder definitions have no additional stream source"
  else
    formatErr "unexpected next-header identifier"

def parseNextHeaderInner (bytes : Bytes) (state : ParseState) (limits : Limits)
    (externalFolders : Option ExternalFolderData) : Work (RawNextHeader × ParseState) := do
  checkLimit 1 limits.maxRecursionDepth .recursionDepth
  let ((next, state), reader) ←
    (parseNextHeaderBody bytes state limits externalFolders).run (BoundedReader.new bytes)
  match next with
  | .externalFolders pending => pure (.externalFolders pending, state)
  | complete => do
      finish reader "next-header body was not consumed exactly"
      pure (complete, state)

def parseNextHeader (bytes : Bytes) (state : ParseState) (limits : Limits) :
    Work (RawNextHeader × ParseState) :=
  parseNextHeaderInner bytes state limits none

def parseNextHeaderWithExternalFolders (bytes : Bytes) (dataIndex : Nat) (folderBytes : Bytes)
    (state : ParseState) (limits : Limits) : Work (RawNextHeader × ParseState) :=
  parseNextHeaderInner bytes state limits (some ⟨dataIndex, folderBytes⟩)

end Raw

end Un7z
