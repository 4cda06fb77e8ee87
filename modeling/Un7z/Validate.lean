/-
From syntax records to the validated archive model, `validate.rs`.

The pack ranges of both stream sections are collected in one list and checked for
overlap at the end; folders take consecutive pack streams through a running cursor, and
substreams take explicit sizes and digests through two more.  A cursor is passed
along and handed back, as the `&mut` argument it is in the source.
-/
import Un7z.CoderProperties
import Un7z.Graph
import Mathlib.Data.List.Sort

namespace Un7z

open Metered (fail)

def fixedHeaderSize : Nat := 32

def unknownSize : Nat := 2 ^ 64 - 1

namespace Validate

structure FolderDraft where
  coders : List Coder
  bindPairs : List BindPair
  packedInputIndices : List Nat
  unpackSizes : List (Option Nat)
  rootOutputIndex : Nat
  rootSize : Option Nat
  topologicalCoderOrder : List Nat
  crc : Option UInt32
  dictionaryBytes : Nat
  firstPackStream : Nat
  deriving DecidableEq, Repr

inductive PropertyValues (α : Type)
  | inline (values : List (Option α))
  | external (dataIndex : Nat) (defined : List Bool)

def valueAt {α : Type} (values : Option (List α)) (index : Nat) (detail : String) :
    Work (Option α) :=
  match values with
  | some items => some <$> orFormat items[index]? detail
  | none => pure none

def optionalSize (value : Nat) : Option Nat := if value ≠ unknownSize then some value else none

/-- Run `f` on every element, in order, and collect what it returns. -/
def mapWork {α β : Type} (f : α → Work β) : List α → Work (List β)
  | [] => pure []
  | x :: rest => do
      let y ← f x
      let ys ← mapWork f rest
      pure (y :: ys)

def copyProperties (properties : List RawProperty) : Work (List StoredProperty) := do
  checkpoint properties.length
  mapWork (fun property => (⟨property.id, ·⟩) <$> copyBytes property.data) properties

/-! ### Property vectors -/

def readU64 : Reads Nat := do
  checkpoint 8
  readU64Le

def parseOptionalBits (count : Nat) : Reads (List Bool) := do
  let allDefined ← Raw.readU8
  if allDefined = 0 then Raw.parseBits count else pure (List.replicate count true)

/-- The inline values of a property, one charge for each entry. -/
def readDefined {α : Type} (readValue : Reads α) : List Bool → Reads (List (Option α))
  | [] => pure []
  | isDefined :: defined => do
      checkpoint 1
      let value ← Raw.readIfDefined readValue isDefined
      let values ← readDefined readValue defined
      pure (value :: values)

def parseDefinedValues {α : Type} (data : Bytes) (count : Nat) (readValue : Reads α) :
    Work (PropertyValues α) := do
  let ((defined, external), reader) ← StateT.run (m := Work) (s := BoundedReader.new data) do
    let defined ← parseOptionalBits count
    let external ← Raw.readU8
    pure (defined, external)
  if external ≠ 0 then
    let (dataIndex, reader) ← Raw.readUint.run reader
    finish reader "external property was not consumed exactly"
    pure (.external dataIndex defined)
  else
    let (values, reader) ← (readDefined readValue defined).run reader
    finish reader "inline property was not consumed exactly"
    pure (.inline values)

def parsePlainBits (property : RawProperty) (count : Nat) : Work (List Bool) := do
  let (bits, reader) ← (Raw.parseBits count).run (BoundedReader.new property.data)
  finish reader "bit-vector property was not consumed exactly"
  pure bits

def validateDataIndex (dataIndex additionalCount : Nat) : Work Unit :=
  if dataIndex < additionalCount then
    pure ()
  else
    formatErr "external property data index is outside additional streams"

/-! ### Folders -/

/-- What the coder loop of `validate_folder` carries from one coder to the next. -/
structure CoderTotals where
  inputStart : Nat := 0
  outputStart : Nat := 0
  dictionaryBytes : Nat := 0
  deriving DecidableEq, Repr

def addDictionary (total : Nat) (dictionary : Option Nat) (limits : Limits) : Work Nat :=
  match dictionary with
  | some bytes => do
      let total ← orFormat (checkedAdd 64 total bytes) "folder dictionary accounting overflows"
      checkLimit total limits.maxDictionaryBytes .dictionaryBytes
      pure total
  | none => pure total

def validateCoder (raw : RawCoder) (totals : CoderTotals) (limits : Limits) :
    Work (Coder × CoderTotals) := do
  checkpoint 1
  let dictionary ← validateCoderProperties raw.methodId raw.properties limits
  let dictionaryBytes ← addDictionary totals.dictionaryBytes dictionary limits
  let methodId ← copyBytes raw.methodId
  let properties ← copyBytes raw.properties
  let inputStart ← orFormat (checkedAdd 64 totals.inputStart raw.inputStreams)
    "coder input range overflows"
  let outputStart ← orFormat (checkedAdd 64 totals.outputStart raw.outputStreams)
    "coder output range overflows"
  pure (⟨methodId, totals.inputStart, raw.inputStreams, totals.outputStart, raw.outputStreams,
    properties, dictionary⟩, ⟨inputStart, outputStart, dictionaryBytes⟩)

def validateCoders (limits : Limits) :
    List RawCoder → CoderTotals → Work (List Coder × CoderTotals)
  | [], totals => pure ([], totals)
  | raw :: rest, totals => do
      let (coder, totals) ← validateCoder raw totals limits
      let (coders, totals) ← validateCoders limits rest totals
      pure (coder :: coders, totals)

def validateFolder (raw : RawFolder) (folderCrc : Option UInt32) (firstPackStream : Nat)
    (limits : Limits) : Work FolderDraft := do
  checkpoint raw.coders.length
  let (coders, totals) ← validateCoders limits raw.coders {}
  if totals.inputStart ≠ raw.inputStreams ∨ totals.outputStart ≠ raw.outputStreams then
    formatErr "folder stream-port totals are inconsistent"
  else
    let graph ← Graph.validateFolderGraph raw
    if raw.unpackSizes.length ≠ raw.outputStreams then
      formatErr "folder unpack-size count is inconsistent"
    else
      let unpackSizes := raw.unpackSizes.map optionalSize
      let rootSize ← orFormat unpackSizes[graph.rootOutputIndex]? "root output size is missing"
      pure ⟨coders, graph.bindPairs, graph.packedInputIndices, unpackSizes,
        graph.rootOutputIndex, rootSize, graph.topologicalCoderOrder, folderCrc,
        totals.dictionaryBytes, firstPackStream⟩

/-! ### Substreams -/

/-- What the explicit-size loop of `build_substreams` carries. -/
structure SizeTotals where
  total : Nat
  allExplicitSizesKnown : Bool
  sizeCursor : Nat
  deriving DecidableEq, Repr

/-- One explicit size, and the totals with it counted in. -/
def takeSize (explicitSizes : Option (List Nat)) (totals : SizeTotals) :
    Work (Option Nat × SizeTotals) :=
  match explicitSizes with
  | none => pure (none, totals)
  | some values => do
      let value ← orFormat values[totals.sizeCursor]? "explicit substream-size vector is too short"
      let sizeCursor ← orFormat (checkedAdd 64 totals.sizeCursor 1)
        "substream-size index overflows"
      match optionalSize value with
      | some knownSize => do
          let total ← orFormat (checkedAdd 64 totals.total knownSize) "substream-size sum overflows"
          pure (some knownSize, ⟨total, totals.allExplicitSizesKnown, sizeCursor⟩)
      | none => pure (none, ⟨totals.total, false, sizeCursor⟩)

def takeSizes (explicitSizes : Option (List Nat)) :
    Nat → SizeTotals → Work (List (Option Nat) × SizeTotals)
  | 0, totals => pure ([], totals)
  | count + 1, totals => do
      checkpoint 1
      let (size, totals) ← takeSize explicitSizes totals
      let (sizes, totals) ← takeSizes explicitSizes count totals
      pure (size :: sizes, totals)

/-- The size of a folder's last substream: what the explicit ones leave of the folder. -/
def finalSize (rootSize : Option Nat) (explicitSizes : Option (List Nat)) (totals : SizeTotals) :
    Work (Option Nat) :=
  match rootSize, explicitSizes, totals.allExplicitSizesKnown with
  | some folderSize, some _, true =>
      some <$> orFormat (checkedSub folderSize totals.total) "substream sizes exceed folder size"
  | _, _, _ => pure none

def substreamSizes (rootSize : Option Nat) (count : Nat) (explicitSizes : Option (List Nat))
    (sizeCursor : Nat) : Work (List (Option Nat) × Nat) :=
  if count = 1 then
    pure ([rootSize], sizeCursor)
  else if count > 1 then do
    let (sizes, totals) ← takeSizes explicitSizes (count - 1) ⟨0, true, sizeCursor⟩
    let final ← finalSize rootSize explicitSizes totals
    pure (sizes ++ [final], totals.sizeCursor)
  else
    pure ([], sizeCursor)

/-- The digest of one substream: its folder's if it is the only one, else the next explicit. -/
def takeCrc (inherited : Option UInt32) (explicitCrcs : Option (List (Option UInt32)))
    (crcCursor : Nat) : Work (Option UInt32 × Nat) :=
  match inherited with
  | some crc => pure (some crc, crcCursor)
  | none =>
      match explicitCrcs with
      | some values => do
          let value ← orFormat values[crcCursor]? "substream CRC vector is too short"
          let crcCursor ← orFormat (checkedAdd 64 crcCursor 1) "substream CRC index overflows"
          pure (value, crcCursor)
      | none => pure (none, crcCursor)

def attachCrcs (inherited : Option UInt32) (explicitCrcs : Option (List (Option UInt32))) :
    List (Option Nat) → Nat → Work (List Substream × Nat)
  | [], crcCursor => pure ([], crcCursor)
  | size :: sizes, crcCursor => do
      checkpoint 1
      let (crc, crcCursor) ← takeCrc inherited explicitCrcs crcCursor
      let (streams, crcCursor) ← attachCrcs inherited explicitCrcs sizes crcCursor
      pure (⟨size, crc⟩ :: streams, crcCursor)

def buildSubstreams (draft : FolderDraft) (count : Nat) (explicitSizes : Option (List Nat))
    (sizeCursor : Nat) (explicitCrcs : Option (List (Option UInt32))) (crcCursor : Nat) :
    Work (List Substream × Nat × Nat) := do
  checkpoint count
  let (sizes, sizeCursor) ← substreamSizes draft.rootSize count explicitSizes sizeCursor
  let inherited := if count = 1 then draft.crc else none
  let (streams, crcCursor) ← attachCrcs inherited explicitCrcs sizes crcCursor
  pure (streams, sizeCursor, crcCursor)

/-! ### Packed streams -/

/-- The stream loop of `validate_pack_ranges`, from stream `index` at `offset` on. -/
def validatePackStreams (crcs : Option (List (Option UInt32))) (envelope : HeaderEnvelope)
    (archiveBytes : Bytes) : Nat → List Nat → Nat → Work (List PackStream × Nat)
  | _, [], offset => pure ([], offset)
  | index, rawSize :: sizes, offset => do
      checkpoint 1
      if rawSize = unknownSize then
        fail (.unsupportedFeature "unknown-packed-stream-size")
      else
        let stop ← orFormat (checkedAdd 64 offset rawSize) "packed-stream range overflows"
        if stop > envelope.nextHeaderOffset then
          formatErr "packed stream overlaps the stored next header"
        else
          let _ ← checkedRange archiveBytes offset rawSize "packed-stream range overflows"
            "packed-stream range is outside the supplied archive"
          let crc ← valueAt crcs index "packed-stream CRC count is inconsistent"
          let (streams, last) ←
            validatePackStreams crcs envelope archiveBytes (index + 1) sizes stop
          pure (⟨offset, some rawSize, crc.join⟩ :: streams, last)

def validatePackRanges (pack : Option RawPackInfo) (envelope : HeaderEnvelope)
    (archiveBytes : Bytes) (ranges : List (Nat × Nat)) :
    Work ((Nat × List PackStream) × List (Nat × Nat)) :=
  match pack with
  | none => pure ((0, []), ranges)
  | some pack => do
      let sizes ← orFormat pack.sizes "PackInfo is missing packed-stream sizes"
      checkpoint pack.streams
      if sizes.length ≠ pack.streams then
        formatErr "packed-stream size count is inconsistent"
      else if pack.crcs.any (·.length ≠ pack.streams) then
        formatErr "packed-stream CRC count is inconsistent"
      else
        let fixedEnd ← orFormat (checkedAdd 64 envelope.signatureOffset fixedHeaderSize)
          "signature-header end overflows"
        let sectionStart ← orFormat (checkedAdd 64 fixedEnd pack.position)
          "packed-data position overflows"
        let (streams, offset) ←
          validatePackStreams pack.crcs envelope archiveBytes 0 sizes sectionStart
        let ranges := if offset > sectionStart then ranges ++ [(sectionStart, offset)] else ranges
        pure ((pack.position, streams), ranges)

/-! ### Streams -/

/-- The first folder loop of `validate_streams`, with the pack-stream cursor. -/
def validateFolders (crcs : Option (List (Option UInt32))) (limits : Limits) :
    Nat → List RawFolder → Nat → Work (List FolderDraft × Nat)
  | _, [], assigned => pure ([], assigned)
  | folderIndex, folder :: folders, assigned => do
      let crc ← valueAt crcs folderIndex "folder CRC count is inconsistent"
      let draft ← validateFolder folder crc.join assigned limits
      let assigned ← orFormat (checkedAdd 64 assigned folder.packedStreams)
        "assigned packed-stream count overflows"
      let (drafts, assigned) ← validateFolders crcs limits (folderIndex + 1) folders assigned
      pure (draft :: drafts, assigned)

def substreamCount (counts : List Nat) (index : Nat) : Work Nat :=
  if counts.isEmpty then pure 1
  else orFormat counts[index]? "substream count vector is too short"

/-- What the second folder loop of `validate_streams` carries. -/
structure SubstreamCursors where
  size : Nat := 0
  crc : Nat := 0
  total : Nat := 0
  deriving DecidableEq, Repr

def finishFolder (draft : FolderDraft) (substreams : List Substream) : Folder :=
  ⟨draft.coders, draft.bindPairs, draft.packedInputIndices, draft.unpackSizes,
    draft.rootOutputIndex, draft.topologicalCoderOrder, draft.crc, substreams,
    draft.dictionaryBytes, draft.firstPackStream⟩

def assignSubstreams (counts : List Nat) (explicitSizes : Option (List Nat))
    (explicitCrcs : Option (List (Option UInt32))) (limits : Limits) :
    Nat → List FolderDraft → SubstreamCursors → Work (List Folder × SubstreamCursors)
  | _, [], cursors => pure ([], cursors)
  | index, draft :: drafts, cursors => do
      let count ← substreamCount counts index
      let total ← orFormat (checkedAdd 64 cursors.total count) "total substream count overflows"
      checkLimit total limits.maxSubstreams .substreams
      let (substreams, sizeCursor, crcCursor) ←
        buildSubstreams draft count explicitSizes cursors.size explicitCrcs cursors.crc
      let (folders, cursors) ← assignSubstreams counts explicitSizes explicitCrcs limits
        (index + 1) drafts ⟨sizeCursor, crcCursor, total⟩
      pure (finishFolder draft substreams :: folders, cursors)

def substreamCounts (substreams : Option RawSubstreamsInfo) : List Nat :=
  match substreams with
  | some info => info.counts
  | none => []

/-- `validate_streams` once both `PackInfo` and `UnpackInfo` are there. -/
def validatePackedStreams (pack : RawPackInfo) (unpack : RawUnpackInfo)
    (substreams : Option RawSubstreamsInfo) (envelope : HeaderEnvelope) (archiveBytes : Bytes)
    (limits : Limits) (ranges : List (Nat × Nat)) : Work (StreamsInfo × List (Nat × Nat)) := do
  let ((packPosition, packStreams), ranges) ←
    validatePackRanges (some pack) envelope archiveBytes ranges
  if unpack.crcs.any (·.length ≠ unpack.folders.length) then
    formatErr "folder CRC count is inconsistent"
  else
    checkpoint unpack.folders.length
    let (drafts, assigned) ← validateFolders unpack.crcs limits 0 unpack.folders 0
    if assigned ≠ packStreams.length then
      formatErr "folder packed-stream total does not match PackInfo"
    else
      let counts := substreamCounts substreams
      if !counts.isEmpty && counts.length != drafts.length then
        formatErr "substream folder-count vector is inconsistent"
      else
        let explicitSizes := substreams.bind (·.explicitSizes)
        let explicitCrcs := substreams.bind (·.crcs)
        let (folders, cursors) ←
          assignSubstreams counts explicitSizes explicitCrcs limits 0 drafts {}
        if explicitSizes.any (cursors.size ≠ ·.length) then
          formatErr "substream-size vector has unused values"
        else if explicitCrcs.any (cursors.crc ≠ ·.length) then
          formatErr "substream CRC vector has unused values"
        else
          pure (⟨packPosition, packStreams, folders, cursors.total⟩, ranges)

def validateStreams (raw : RawStreamsInfo) (envelope : HeaderEnvelope) (archiveBytes : Bytes)
    (limits : Limits) (ranges : List (Nat × Nat)) : Work (StreamsInfo × List (Nat × Nat)) :=
  match raw.pack, raw.unpack with
  | some pack, some unpack =>
      validatePackedStreams pack unpack raw.substreams envelope archiveBytes limits ranges
  | none, none =>
      if raw.substreams.isSome then
        formatErr "SubStreamsInfo has no streams"
      else
        pure (⟨0, [], [], 0⟩, ranges)
  | _, _ => formatErr "PackInfo and UnpackInfo must appear together"

/-- No range of a list sorted by its starts begins before its predecessor has ended. -/
def sortedRangesOverlap : Option Nat → List (Nat × Nat) → Bool
  | _, [] => false
  | previousEnd, (start, stop) :: rest =>
      previousEnd.any (start < ·) || sortedRangesOverlap (some stop) rest

def checkNonOverlappingRanges (ranges : List (Nat × Nat)) : Work Unit :=
  if sortedRangesOverlap none (ranges.insertionSort fun a b => a.1 ≤ b.1) then
    formatErr "packed-stream ranges overlap"
  else
    pure ()

/-! ### File mappings -/

def folderMappings (folderIndex : Nat) : Nat → List Substream → Work (List FileStream)
  | _, [] => pure []
  | substreamIndex, stream :: rest => do
      checkpoint 1
      let mappings ← folderMappings folderIndex (substreamIndex + 1) rest
      pure (⟨folderIndex, substreamIndex, stream.size, stream.crc⟩ :: mappings)

def foldersMappings : Nat → List Folder → Work (List FileStream)
  | _, [] => pure []
  | folderIndex, folder :: rest => do
      let mappings ← folderMappings folderIndex 0 folder.substreams
      let others ← foldersMappings (folderIndex + 1) rest
      pure (mappings ++ others)

def collectStreamMappings (streams : Option StreamsInfo) : Work (List FileStream) := do
  let total := (streams.map (·.substreamCount)).getD 0
  checkpoint total
  let mappings ← foldersMappings 0 ((streams.map (·.folders)).getD [])
  if mappings.length ≠ total then
    formatErr "member-stream count is inconsistent"
  else
    pure mappings

/-! ### Names -/

def readCodeUnit : Reads UInt16 := do
  let pair ← readBytes 2
  checkpoint 2
  if pair.length = 2 then
    pure (UInt16.ofNat (leValue pair))
  else
    formatErr "UTF-16 name code unit is truncated"

/-- The counters of the first pass of `parse_names`. -/
structure NameTotals where
  namesSeen : Nat := 0
  currentBytes : Nat := 0
  totalBytes : Nat := 0
  deriving DecidableEq, Repr

/-- What one code unit does to the counters. -/
def countCodeUnit (codeUnit : UInt16) (totals : NameTotals) (limits : Limits) :
    Work NameTotals :=
  if codeUnit = 0 then do
    checkLimit totals.currentBytes limits.maxNameBytesPerEntry .nameBytesPerEntry
    let totalBytes ← orFormat (checkedAdd 64 totals.totalBytes totals.currentBytes)
      "total name bytes overflow"
    checkLimit totalBytes limits.maxTotalNameBytes .totalNameBytes
    let namesSeen ← orFormat (checkedAdd 64 totals.namesSeen 1) "name count overflows"
    pure ⟨namesSeen, 0, totalBytes⟩
  else do
    let currentBytes ← orFormat (checkedAdd 64 totals.currentBytes 2) "name byte count overflows"
    checkLimit currentBytes limits.maxNameBytesPerEntry .nameBytesPerEntry
    pure { totals with currentBytes }

/-- The first pass of `parse_names`; a reader with `fuel` bytes left allows no more rounds. -/
def scanNames (count : Nat) (limits : Limits) : Nat → NameTotals → Reads Unit
  | 0, totals =>
      if totals.namesSeen < count then do
        let _ ← readCodeUnit
        formatErr "truncated bounded byte range"
      else
        pure ()
  | fuel + 1, totals =>
      if totals.namesSeen < count then do
        let codeUnit ← readCodeUnit
        let totals ← countCodeUnit codeUnit totals limits
        scanNames count limits fuel totals
      else
        pure ()

/-- One name of the second pass, up to its terminator. -/
def readName : Nat → Reads (List UInt16)
  | 0 => do
      let _ ← readCodeUnit
      formatErr "truncated bounded byte range"
  | fuel + 1 => do
      let codeUnit ← readCodeUnit
      if codeUnit = 0 then
        pure []
      else
        let rest ← readName fuel
        pure (codeUnit :: rest)

def readNames (count : Nat) : Reads (List (List UInt16)) :=
  Raw.readMany (fun reader => readName reader.remaining.length reader) count

def parseNames (data : Bytes) (count : Nat) (limits : Limits) :
    Work (PropertyValues (List UInt16)) := do
  let (external, scan) ← Raw.readU8.run (BoundedReader.new data)
  if external ≠ 0 then
    let (dataIndex, scan) ← Raw.readUint.run scan
    finish scan "external Name property was not consumed exactly"
    pure (.external dataIndex (List.replicate count true))
  else
    let (_, scan) ← (scanNames count limits scan.remaining.length {}).run scan
    finish scan "Name property was not consumed exactly"
    let (external, reader) ← Raw.readU8.run (BoundedReader.new data)
    if external ≠ 0 then
      formatErr "Name property changed during validation"
    else
      let (names, reader) ← (readNames count).run reader
      finish reader "Name property was not consumed exactly"
      pure (.inline (names.map some))

/-! ### Files -/

/-- The properties of `FilesInfo` by their meaning. -/
structure PropertySlots where
  emptyStream : Option RawProperty := none
  emptyFile : Option RawProperty := none
  anti : Option RawProperty := none
  name : Option RawProperty := none
  creation : Option RawProperty := none
  access : Option RawProperty := none
  modification : Option RawProperty := none
  attributes : Option RawProperty := none
  startPosition : Option RawProperty := none
  unknown : List StoredProperty := []
  deriving DecidableEq, Repr

def knownPropertySlot (slot : Option RawProperty) (property : RawProperty) :
    Work (Option RawProperty) :=
  if slot.isSome then formatErr "FilesInfo property is duplicated" else pure (some property)

/-- Put one property into its slot. -/
def sortProperty (slots : PropertySlots) (property : RawProperty) : Work PropertySlots :=
  if property.id = idEmptyStream then do
    let emptyStream ← knownPropertySlot slots.emptyStream property
    pure { slots with emptyStream }
  else if property.id = idEmptyFile then do
    let emptyFile ← knownPropertySlot slots.emptyFile property
    pure { slots with emptyFile }
  else if property.id = idAnti then do
    let anti ← knownPropertySlot slots.anti property
    pure { slots with anti }
  else if property.id = idName then do
    let name ← knownPropertySlot slots.name property
    pure { slots with name }
  else if property.id = idCtime then do
    let creation ← knownPropertySlot slots.creation property
    pure { slots with creation }
  else if property.id = idAtime then do
    let access ← knownPropertySlot slots.access property
    pure { slots with access }
  else if property.id = idMtime then do
    let modification ← knownPropertySlot slots.modification property
    pure { slots with modification }
  else if property.id = idWinAttributes then do
    let attributes ← knownPropertySlot slots.attributes property
    pure { slots with attributes }
  else if property.id = idStartPos then do
    let startPosition ← knownPropertySlot slots.startPosition property
    pure { slots with startPosition }
  else if property.id = idDummy then
    if property.data.any (· ≠ 0) then
      formatErr "Dummy property contains a non-zero byte"
    else
      pure slots
  else do
    let data ← copyBytes property.data
    pure { slots with unknown := slots.unknown ++ [⟨property.id, data⟩] }

def sortProperties : List RawProperty → PropertySlots → Work PropertySlots
  | [], slots => pure slots
  | property :: rest, slots => do
      let slots ← sortProperty slots property
      sortProperties rest slots

def plainBits (slot : Option RawProperty) (count : Nat) : Work (List Bool) :=
  match slot with
  | some property => parsePlainBits property count
  | none => pure (List.replicate count false)

/-- Inline values, or an external property added to the list of those to resolve. -/
def applyExternal {α : Type} (propertyId : UInt8) (values : PropertyValues α)
    (additionalCount : Nat) (external : List ExternalProperty) :
    Work (Option (List (Option α)) × List ExternalProperty) :=
  match values with
  | .inline values => pure (some values, external)
  | .external dataIndex defined => do
      validateDataIndex dataIndex additionalCount
      pure (none, external ++ [⟨propertyId, dataIndex, defined⟩])

/-- The vector of one property slot. -/
def propertyVector {α : Type} (propertyId : UInt8) (slot : Option RawProperty)
    (parse : Bytes → Work (PropertyValues α)) (additionalCount : Nat)
    (external : List ExternalProperty) :
    Work (Option (List (Option α)) × List ExternalProperty) :=
  match slot with
  | some property => do
      let values ← parse property.data
      applyExternal propertyId values additionalCount external
  | none => pure (none, external)

/-- The value vectors of `validate_files`, each there only if its property is inline. -/
structure FileVectors where
  names : Option (List (Option (List UInt16)))
  creationTimes : Option (List (Option Nat))
  accessTimes : Option (List (Option Nat))
  modificationTimes : Option (List (Option Nat))
  attributeValues : Option (List (Option UInt32))
  startPositions : Option (List (Option Nat))
  deriving DecidableEq, Repr

def parseFileVectors (slots : PropertySlots) (count additionalCount : Nat) (limits : Limits) :
    Work (FileVectors × List ExternalProperty) := do
  let times := fun data => parseDefinedValues data count readU64
  let (names, external) ← propertyVector idName slots.name
    (fun data => parseNames data count limits) additionalCount []
  let (creationTimes, external) ←
    propertyVector idCtime slots.creation times additionalCount external
  let (accessTimes, external) ←
    propertyVector idAtime slots.access times additionalCount external
  let (modificationTimes, external) ←
    propertyVector idMtime slots.modification times additionalCount external
  let (attributeValues, external) ← propertyVector idWinAttributes slots.attributes
    (fun data => parseDefinedValues data count Raw.readU32Le) additionalCount external
  let (startPositions, external) ←
    propertyVector idStartPos slots.startPosition times additionalCount external
  pure (⟨names, creationTimes, accessTimes, modificationTimes, attributeValues, startPositions⟩,
    external)

/-- The bit vectors of `validate_files`; the last two have one bit for each empty stream. -/
structure FileBits where
  emptyStreams : List Bool
  emptyFileBits : List Bool
  antiBits : List Bool
  deriving DecidableEq, Repr

def parseFileBits (slots : PropertySlots) (count : Nat) : Work FileBits := do
  let emptyStreams ← plainBits slots.emptyStream count
  let emptyCount := emptyStreams.count true
  let emptyFileBits ← plainBits slots.emptyFile emptyCount
  let antiBits ← plainBits slots.anti emptyCount
  pure ⟨emptyStreams, emptyFileBits, antiBits⟩

/-- The cursors of the file loop. -/
structure FileCursors where
  empty : Nat := 0
  stream : Nat := 0
  deriving DecidableEq, Repr

/-- The two bits of an empty stream; other files have neither. -/
def emptyBits (bits : FileBits) (isEmptyStream : Bool) (cursors : FileCursors) :
    Work ((Bool × Bool) × FileCursors) :=
  if isEmptyStream then do
    let emptyValue ← orFormat bits.emptyFileBits[cursors.empty]? "EmptyFile vector is too short"
    let antiValue ← orFormat bits.antiBits[cursors.empty]? "Anti vector is too short"
    let empty ← orFormat (checkedAdd 64 cursors.empty 1) "empty-file index overflows"
    pure ((emptyValue, antiValue), { cursors with empty })
  else
    pure ((false, false), cursors)

/-- The stream of a file that has one. -/
def fileStream (mappings : List FileStream) (isEmptyStream : Bool) (cursors : FileCursors) :
    Work (Option FileStream × FileCursors) :=
  if isEmptyStream then
    pure (none, cursors)
  else do
    let value ← orFormat mappings[cursors.stream]? "member-stream mapping is too short"
    let stream ← orFormat (checkedAdd 64 cursors.stream 1) "member-stream index overflows"
    pure (some value, { cursors with stream })

def buildFile (bits : FileBits) (vectors : FileVectors) (mappings : List FileStream)
    (fileIndex : Nat) (cursors : FileCursors) : Work (FileEntry × FileCursors) := do
  checkpoint 1
  let isEmptyStream ← orFormat bits.emptyStreams[fileIndex]? "EmptyStream vector is too short"
  let ((isEmptyFile, isAnti), cursors) ← emptyBits bits isEmptyStream cursors
  let (stream, cursors) ← fileStream mappings isEmptyStream cursors
  let rawName ← valueAt vectors.names fileIndex "Name vector is too short"
  let creation ← valueAt vectors.creationTimes fileIndex "creation-time vector is too short"
  let access ← valueAt vectors.accessTimes fileIndex "access-time vector is too short"
  let modification ←
    valueAt vectors.modificationTimes fileIndex "modification-time vector is too short"
  let attributes ← valueAt vectors.attributeValues fileIndex "attribute vector is too short"
  let startPosition ← valueAt vectors.startPositions fileIndex "StartPos vector is too short"
  pure (⟨rawName.join, !isEmptyStream, isEmptyFile, isAnti, creation.join, access.join,
    modification.join, attributes.join, startPosition.join, stream⟩, cursors)

/-- The file loop, `count` files from `fileIndex` on. -/
def buildFiles (bits : FileBits) (vectors : FileVectors) (mappings : List FileStream) :
    Nat → Nat → FileCursors → Work (List FileEntry × FileCursors)
  | 0, _, cursors => pure ([], cursors)
  | count + 1, fileIndex, cursors => do
      let (file, cursors) ← buildFile bits vectors mappings fileIndex cursors
      let (files, cursors) ← buildFiles bits vectors mappings count (fileIndex + 1) cursors
      pure (file :: files, cursors)

def validateFiles (raw : RawFilesInfo) (mainStreams additionalStreams : Option StreamsInfo)
    (limits : Limits) : Work FilesInfo := do
  checkpoint raw.count
  let slots ← sortProperties raw.properties {}
  let bits ← parseFileBits slots raw.count
  let additionalCount := (additionalStreams.map (·.folders.length)).getD 0
  let (vectors, external) ← parseFileVectors slots raw.count additionalCount limits
  let mappings ← collectStreamMappings mainStreams
  if mappings.length ≠ bits.emptyStreams.count false then
    formatErr "file stream count does not match main-stream substreams"
  else
    let (files, cursors) ← buildFiles bits vectors mappings raw.count 0 {}
    if cursors.empty ≠ bits.emptyFileBits.length ∨ cursors.empty ≠ bits.antiBits.length ∨
        cursors.stream ≠ mappings.length then
      formatErr "file property vectors have unused values"
    else
      pure ⟨files, external, slots.unknown⟩

/-! ### Headers -/

/-- One stream section of a header, if it is there. -/
def validateStreamsSection (raw : Option RawStreamsInfo) (envelope : HeaderEnvelope)
    (archiveBytes : Bytes) (limits : Limits) (ranges : List (Nat × Nat)) :
    Work (Option StreamsInfo × List (Nat × Nat)) :=
  match raw with
  | some streams => do
      let (streams, ranges) ← validateStreams streams envelope archiveBytes limits ranges
      pure (some streams, ranges)
  | none => pure (none, ranges)

def validateFilesSection (raw : Option RawFilesInfo)
    (mainStreams additionalStreams : Option StreamsInfo) (limits : Limits) :
    Work (Option FilesInfo) :=
  match raw with
  | some files => some <$> validateFiles files mainStreams additionalStreams limits
  | none => pure none

def validatePlainHeader (raw : RawHeader) (envelope : HeaderEnvelope) (archiveBytes : Bytes)
    (limits : Limits) : Work ArchiveHeader := do
  let (additionalStreams, ranges) ←
    validateStreamsSection raw.additionalStreams envelope archiveBytes limits []
  let (mainStreams, ranges) ←
    validateStreamsSection raw.mainStreams envelope archiveBytes limits ranges
  checkNonOverlappingRanges ranges
  let files ← validateFilesSection raw.files mainStreams additionalStreams limits
  let archiveProperties ← copyProperties raw.archiveProperties
  pure ⟨archiveProperties, additionalStreams, mainStreams, files⟩

def validatePendingHeader (pending : RawExternalFolderHeader) (envelope : HeaderEnvelope)
    (archiveBytes : Bytes) (limits : Limits) : Work PendingExternalFolderHeader := do
  let (additionalStreams, ranges) ←
    validateStreams pending.additionalStreams envelope archiveBytes limits []
  if pending.mainPack.isNone then
    formatErr "PackInfo and external UnpackInfo must appear together"
  else
    let (_, ranges) ← validatePackRanges pending.mainPack envelope archiveBytes ranges
    checkNonOverlappingRanges ranges
    validateDataIndex pending.dataIndex additionalStreams.folders.length
    let headerBytes ← copyBytes pending.headerBytes
    pure ⟨additionalStreams, pending.dataIndex, headerBytes⟩

def validateNextHeader (raw : RawNextHeader) (envelope : HeaderEnvelope) (archiveBytes : Bytes)
    (limits : Limits) : Work ParsedNextHeader :=
  match raw with
  | .header header =>
      .header <$> validatePlainHeader header envelope archiveBytes limits
  | .externalFolders pending =>
      .pendingExternalFolders <$> validatePendingHeader pending envelope archiveBytes limits
  | .encoded streams => do
      let (streams, ranges) ← validateStreams streams envelope archiveBytes limits []
      checkNonOverlappingRanges ranges
      pure (.encodedHeader streams)

end Validate

end Un7z
