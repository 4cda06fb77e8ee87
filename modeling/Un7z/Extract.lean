/-
Reading members out of an open archive, the second half of `archive.rs`.

There are three paths.  `extract_entry` decodes the folder of one member and reads its
slice through a `MemberReader`.  `verify` decodes every folder and checks every digest.
`extract_entries_to` goes through the members in order, decodes a folder when the first
of its members comes up, and hands each member to a sink chunk by chunk.

A sink is an object of the caller, so it is a state and three functions on it, and
extraction is a session on that state.  So is a `MemberReader`, which keeps its position
and its checksum across a call that fails.
-/
import Un7z.Archive
import Un7z.Lib.Session

namespace Un7z

open Metered (fail)
open Execute (DecodedFolder decodeFolder)
open Metadata (checkDigest substreamEnd substreamBytes)

/-- An operation on the state of an object that draws on the control. -/
abbrev Stateful (σ α : Type) := Session ParseControl Charge Error σ α

namespace Archive

/-! ### Folders and their members -/

def declaredRootSize (folder : Folder) : Work (Option Nat) :=
  orFormat folder.unpackSizes[folder.rootOutputIndex]? "folder root output size is missing"

/-- What a substream adds to the allowance, and whether a size is missing by now. -/
def substreamAllowance (folder : Folder) (limits : Limits) (index : Nat) (size : Option Nat)
    (hasUnknownFinal : Bool) : Work (Nat × Bool) :=
  match size with
  | some size => do
      checkLimit size limits.maxEntryOutputBytes .entryOutputBytes
      pure (size, hasUnknownFinal)
  | none =>
      if index + 1 = folder.substreams.length then
        pure (limits.maxEntryOutputBytes, true)
      else
        fail (.unsupportedFeature "unknown-nonfinal-substream-size")

/-- The substream loop of `folder_decode_maximum`. -/
def permittedOutput (folder : Folder) (limits : Limits) :
    Nat → List Substream → Nat → Bool → Work (Nat × Bool)
  | _, [], permitted, hasUnknownFinal => pure (permitted, hasUnknownFinal)
  | index, substream :: rest, permitted, hasUnknownFinal => do
      let (contribution, hasUnknownFinal) ←
        substreamAllowance folder limits index substream.size hasUnknownFinal
      let permitted ← orFormat (checkedAdd 64 permitted contribution)
        "folder entry output allowance overflows"
      checkpoint 1
      permittedOutput folder limits (index + 1) rest permitted hasUnknownFinal

def folderDecodeMaximum (folder : Folder) (limits : Limits) (remainingTotal : Nat) :
    Work Nat := do
  let declaredRoot ← declaredRootSize folder
  Execute.checkRootSize declaredRoot remainingTotal
  if folder.substreams.isEmpty then
    pure remainingTotal
  else do
    let (permitted, hasUnknownFinal) ← permittedOutput folder limits 0 folder.substreams 0 false
    if !hasUnknownFinal ∧ declaredRoot ≠ some permitted then
      formatErr "folder substream sizes do not equal its root output size"
    else
      pure (min permitted remainingTotal)

/-- `decode_folder` as the archive calls it. -/
def decodeArchiveFolder (codecs : Codecs) (archive : Archive) (streams : StreamsInfo)
    (folder : Folder) (folderIndex maximumOutput : Nat) : Work DecodedFolder :=
  mapEncryptedError (folderIsEncrypted folder) (decodeFolder codecs archive.bytes streams
    folderIndex archive.password archive.limits maximumOutput)

/-- The substream loop of `member_bounds`. -/
def boundsFrom (folder : Folder) (target folderSize : Nat) :
    Nat → List Substream → Nat → Work (Nat × Nat)
  | _, [], _ => formatErr "substream index is out of range"
  | index, substream :: rest, start => do
      checkpoint 1
      if index = target then do
        let stop ← substreamEnd folder folderSize start index substream.size
          "member byte range overflows" "unknown-nonfinal-substream-size"
        if stop > folderSize then
          formatErr "member byte range exceeds folder output"
        else
          pure (start, stop)
      else
        match substream.size with
        | some size => do
            let start ← orFormat (checkedAdd 64 start size) "member start offset overflows"
            boundsFrom folder target folderSize (index + 1) rest start
        | none => fail (.unsupportedFeature "unknown-preceding-substream-size")

def memberBounds (folder : Folder) (substreamIndex folderSize : Nat) : Work (Nat × Nat) :=
  if substreamIndex ≥ folder.substreams.length then
    formatErr "substream index is out of range"
  else
    boundsFrom folder substreamIndex folderSize 0 folder.substreams 0

/-! ### One member -/

structure MemberReader where
  data : Bytes
  start : Nat
  stop : Nat
  position : Nat
  expectedCrc : Option UInt32
  checksum : Crc32
  folderCrcMismatch : Bool
  encrypted : Bool
  memberIndex : Nat
  deriving DecidableEq

namespace MemberReader

def new (data : Bytes) (start stop : Nat) (expectedCrc : Option UInt32)
    (folderCrcMismatch encrypted : Bool) (memberIndex : Nat) : MemberReader :=
  ⟨data, start, stop, 0, expectedCrc, .new, folderCrcMismatch, encrypted, memberIndex⟩

def size (reader : MemberReader) : Work Nat :=
  orFormat (checkedSub reader.stop reader.start) "member length underflows"

/-- The bytes not read yet. -/
def unread (reader : MemberReader) : Nat := reader.stop - reader.start - reader.position

/-- `self.checksum.update(chunk)?`. -/
def updateChecksum (chunk : Bytes) : Stateful MemberReader Unit :=
  Session.act fun reader =>
    match reader.checksum.update chunk with
    | .ok checksum => (.ok (), { reader with checksum })
    | .error error => (.error error, reader)

/-- The chunk loop of `read_chunk`. -/
def chargeChunks : List Bytes → Stateful MemberReader Unit
  | [] => pure ()
  | chunk :: rest => do
      checkpoint chunk.length
      updateChecksum chunk
      chargeChunks rest

/-- The bytes that a read into a buffer of this length yields. -/
def sourceBytes (reader : MemberReader) (bufferLength : Nat) : Work Bytes := do
  let count := min reader.unread bufferLength
  let absolute ← orFormat (checkedAdd 64 reader.start reader.position)
    "member read position overflows"
  checkedRange reader.data absolute count "member read range overflows"
    "member read range is outside folder output"

def advance (count : Nat) : Stateful MemberReader Unit :=
  Session.act fun reader =>
    match checkedAdd 64 reader.position count with
    | some position => (.ok (), { reader with position })
    | none => (.error (formatError "member read position overflows"), reader)

def get : Stateful MemberReader MemberReader := Session.act fun reader => (.ok reader, reader)

/-- `read_chunk` into a buffer of this length, with the bytes it puts there. -/
def readChunk (bufferLength : Nat) : Stateful MemberReader Bytes := do
  let reader ← get
  let memberLength ← reader.size
  if bufferLength = 0 ∨ reader.position ≥ memberLength then do
    checkCancelled
    pure []
  else do
    let source ← reader.sourceBytes bufferLength
    chargeChunks (chunks controlChunkSize source)
    advance source.length
    pure source

/--
Read until nothing is left, with buffers of this length.

Every read but the last takes a byte, so with as much fuel as there are unread bytes the
read at the end is the one that yields none.
-/
def readAll (bufferLength : Nat) : Nat → Stateful MemberReader Bytes
  | 0 => do
      let _ ← readChunk bufferLength
      pure []
  | fuel + 1 => do
      let bytes ← readChunk bufferLength
      if bytes.isEmpty then
        pure []
      else do
        let rest ← readAll bufferLength fuel
        pure (bytes ++ rest)

/-- The digest checks of `finish`. -/
def checkDigests (reader : MemberReader) : Work Unit :=
  if reader.expectedCrc.any (reader.checksum.finalize ≠ ·) then
    fail (digestError reader.encrypted .member (some reader.memberIndex))
  else if reader.folderCrcMismatch then
    fail (digestError reader.encrypted .folder none)
  else
    pure ()

def finish : Stateful MemberReader Unit := do
  let reader ← get
  let _ ← readAll 8192 reader.unread
  let reader ← get
  reader.checkDigests

end MemberReader

def checkEntrySize (size : Option Nat) (limits : Limits) : Work Unit :=
  match size with
  | some size => checkLimit size limits.maxEntryOutputBytes .entryOutputBytes
  | none => pure ()

/-- `open_member` on an entry that has a stream. -/
def openStream (codecs : Codecs) (archive : Archive) (memberIndex : Nat) (stream : FileStream) :
    Work MemberReader := do
  checkEntrySize stream.size archive.limits
  let streams ← orFormat archive.header.mainStreams "streamed member has no MainStreamsInfo"
  let folder ← orFormat streams.folders[stream.folderIndex]? "member folder index is out of range"
  let maximumOutput ← folderDecodeMaximum folder archive.limits archive.limits.maxTotalOutputBytes
  let decoded ← archive.decodeArchiveFolder codecs streams folder stream.folderIndex maximumOutput
  let (start, stop) ← memberBounds folder stream.substreamIndex decoded.bytes.length
  let length ← orFormat (checkedSub stop start) "member byte range underflows"
  checkLimit length archive.limits.maxEntryOutputBytes .entryOutputBytes
  pure (.new decoded.bytes start stop stream.crc decoded.crcMismatch decoded.encrypted memberIndex)

def openMember (codecs : Codecs) (archive : Archive) (memberIndex : Nat) :
    Work MemberReader := do
  let member ← orFormat archive.entries[memberIndex]? "member index is out of range"
  if member.antiItem then
    fail (.unsupportedFeature "anti-item-extraction")
  else
    match member.stream with
    | some stream => archive.openStream codecs memberIndex stream
    | none =>
        if member.emptyFile then
          pure (.new [] 0 0 none false false memberIndex)
        else
          fail (.unsupportedFeature "streamless-directory-extraction")

/-- The read loop of `extract_entry`, and `finish`. -/
def readMember : Stateful MemberReader Bytes := do
  let reader ← MemberReader.get
  let output ← MemberReader.readAll 8192 reader.unread
  MemberReader.finish
  pure output

def extractEntry (codecs : Codecs) (archive : Archive) (memberIndex : Nat) : Work Bytes := do
  let reader ← archive.openMember codecs memberIndex
  let _ ← reader.size
  readMember.discard reader

/-! ### Verification -/

/-- A streamed entry that comes next, with its index. -/
abbrev StreamedEntries := List (FileEntry × Nat)

/-- `streamed_entries.next()`, which has to be the entry of this substream. -/
def nextStreamedEntry (folderIndex substreamIndex : Nat) (entries : StreamedEntries) :
    Work (Nat × StreamedEntries) :=
  match entries with
  | [] => formatErr "folder substream has no mapped member"
  | (member, memberIndex) :: rest => do
      let mapping ← orFormat member.stream "streamed member has no validated mapping"
      if mapping.folderIndex ≠ folderIndex ∨ mapping.substreamIndex ≠ substreamIndex then
        formatErr "member-to-substream mapping is out of order"
      else
        pure (memberIndex, rest)

/-- The substream loop of `verify_folder_members`. -/
def verifyMembersFrom (folder : Folder) (folderIndex : Nat) (decoded : DecodedFolder) :
    Nat → List Substream → Nat → StreamedEntries → Work StreamedEntries
  | _, [], _, entries => pure entries
  | index, substream :: rest, start, entries => do
      checkpoint 1
      let (memberIndex, entries) ← nextStreamedEntry folderIndex index entries
      let stop ← substreamEnd folder decoded.bytes.length start index substream.size
        "member byte range overflows" "unknown-nonfinal-substream-size"
      let bytes ← substreamBytes decoded.bytes start stop
        "member byte range exceeds folder output" "member byte range is outside folder output"
      checkDigest substream.crc bytes (digestError decoded.encrypted .member (some memberIndex))
      verifyMembersFrom folder folderIndex decoded (index + 1) rest stop entries

def verifyFolderMembers (folder : Folder) (folderIndex : Nat) (decoded : DecodedFolder)
    (entries : StreamedEntries) : Work StreamedEntries := do
  let entries ← verifyMembersFrom folder folderIndex decoded 0 folder.substreams 0 entries
  if decoded.crcMismatch then
    fail (digestError decoded.encrypted .folder none)
  else
    pure entries

/-- Account for the output of one more folder. -/
def addFolderOutput (limits : Limits) (totalOutput size : Nat) : Work Nat := do
  let totalOutput ← orFormat (checkedAdd 64 totalOutput size)
    "total decoded output accounting overflows"
  checkLimit totalOutput limits.maxTotalOutputBytes .totalOutputBytes
  pure totalOutput

/-- The folder loop of `verify`. -/
def verifyFolders (codecs : Codecs) (archive : Archive) (streams : StreamsInfo) :
    Nat → List Folder → Nat → StreamedEntries → Work StreamedEntries
  | _, [], _, entries => pure entries
  | folderIndex, folder :: folders, totalOutput, entries => do
      checkCancelled
      let remaining ← orFormat (checkedSub archive.limits.maxTotalOutputBytes totalOutput)
        "total decoded output accounting underflows"
      let maximumOutput ← folderDecodeMaximum folder archive.limits remaining
      let decoded ← archive.decodeArchiveFolder codecs streams folder folderIndex maximumOutput
      let totalOutput ← addFolderOutput archive.limits totalOutput decoded.bytes.length
      let entries ← verifyFolderMembers folder folderIndex decoded entries
      verifyFolders codecs archive streams (folderIndex + 1) folders totalOutput entries

/-- What `verify` decodes before it comes to the members. -/
def verifyAdditional (codecs : Codecs) (archive : Archive) : Work Nat :=
  match archive.header.additionalStreams with
  | some streams =>
      Metadata.verifyAdditionalStreams codecs archive.bytes streams archive.password
        archive.limits archive.limits.maxTotalOutputBytes
  | none => pure 0

def verify (codecs : Codecs) (archive : Archive) : Work Unit := do
  let totalOutput ← archive.verifyAdditional codecs
  match archive.header.mainStreams with
  | none => pure ()
  | some streams => do
      let streamed := archive.entries.zipIdx.filter (·.1.hasStream)
      let rest ← archive.verifyFolders codecs streams 0 streams.folders totalOutput streamed
      if rest.isEmpty then
        pure ()
      else
        formatErr "member stream mapping exceeds the folder set"

/-! ### Extraction to a sink -/

/-- `trait EntrySink`, implemented on a state `σ`. -/
structure EntrySink (σ : Type) where
  beginEntry : (memberIndex : Nat) → (entry : FileEntry) → (size : Nat) → σ → Except Error Unit × σ
  writeEntry : (memberIndex : Nat) → (bytes : Bytes) → σ → Except Error Unit × σ
  finishEntry : (memberIndex : Nat) → σ → Except Error Unit × σ

/-- The locals of `extract_entries_to`. -/
structure ExtractState where
  currentFolder : Option Nat := none
  decodedFolder : Option DecodedFolder := none
  nextSubstream : Nat := 0
  folderOffset : Nat := 0
  totalFolderOutput : Nat := 0
  delivered : Nat := 0
  deriving DecidableEq, Repr

/-- Every substream of the folder that is left behind has been mapped. -/
def checkFolderFinished (streams : StreamsInfo) (folderIndex nextSubstream : Nat)
    (rangeDetail unmappedDetail : String) : Work Unit := do
  let folder ← orFormat streams.folders[folderIndex]? rangeDetail
  if nextSubstream ≠ folder.substreams.length then
    formatErr unmappedDetail
  else
    pure ()

/-- Leave the folder of the members before. -/
def leaveFolder (streams : StreamsInfo) (state : ExtractState) : Work Unit :=
  match state.currentFolder with
  | some previous =>
      checkFolderFinished streams previous state.nextSubstream
        "previous folder index is out of range"
        "natural extraction left folder substreams unmapped"
  | none => pure ()

/-- Decode the folder of the member that comes up. -/
def enterFolder (codecs : Codecs) (archive : Archive) (streams : StreamsInfo)
    (folderIndex : Nat) (state : ExtractState) : Work ExtractState := do
  leaveFolder streams state
  let folder ← orFormat streams.folders[folderIndex]? "folder index is out of range"
  let remaining ←
    orFormat (checkedSub archive.limits.maxTotalOutputBytes state.totalFolderOutput)
      "total decoded output accounting underflows"
  let maximumOutput ← folderDecodeMaximum folder archive.limits remaining
  let decoded ← archive.decodeArchiveFolder codecs streams folder folderIndex maximumOutput
  let totalFolderOutput ←
    addFolderOutput archive.limits state.totalFolderOutput decoded.bytes.length
  if decoded.crcMismatch then
    fail (digestError decoded.encrypted .folder none)
  else
    pure { state with
      currentFolder := some folderIndex
      decodedFolder := some decoded
      nextSubstream := 0
      folderOffset := 0
      totalFolderOutput }

/-- Enter the folder of the member that comes up, unless its members are under way. -/
def reachFolder (codecs : Codecs) (archive : Archive) (streams : StreamsInfo)
    (folderIndex : Nat) (state : ExtractState) : Work ExtractState :=
  if state.currentFolder ≠ some folderIndex then
    archive.enterFolder codecs streams folderIndex state
  else
    pure state

/-- A member as it is cut out of the output of its folder. -/
structure MemberSlice where
  bytes : Bytes
  stop : Nat
  encrypted : Bool
  deriving DecidableEq, Repr

/-- The slice of the member that comes next in the current folder. -/
def nextMember (archive : Archive) (streams : StreamsInfo) (mapping : FileStream)
    (state : ExtractState) : Work MemberSlice :=
  if mapping.substreamIndex ≠ state.nextSubstream then
    formatErr "natural extraction member mapping is out of order"
  else do
    let folder ← orFormat streams.folders[mapping.folderIndex]? "folder index is out of range"
    let substream ← orFormat folder.substreams[state.nextSubstream]?
      "substream index is out of range"
    let decoded ← orFormat state.decodedFolder "decoded folder is unavailable"
    let stop ← substreamEnd folder decoded.bytes.length state.folderOffset state.nextSubstream
      substream.size "member byte range overflows" "unknown-nonfinal-substream-size"
    if stop > decoded.bytes.length then
      formatErr "member byte range exceeds folder output"
    else do
      let size ← orFormat (checkedSub stop state.folderOffset) "member byte range underflows"
      checkLimit size archive.limits.maxEntryOutputBytes .entryOutputBytes
      pure ⟨(decoded.bytes.drop state.folderOffset).take size, stop, decoded.encrypted⟩

/-- The chunk loop: charge, fold into the checksum, hand over. -/
def writeChunks {σ : Type} (sink : EntrySink σ) (memberIndex : Nat) :
    List Bytes → Crc32 → Stateful σ Crc32
  | [], crc => pure crc
  | chunk :: rest, crc => do
      checkpoint chunk.length
      let crc ← ofExcept (crc.update chunk)
      Session.act (sink.writeEntry memberIndex chunk)
      writeChunks sink memberIndex rest crc

/-- `mapping.crc().is_some_and(|expected| member_crc.finalize() != expected)`. -/
def checkMemberCrc (expected : Option UInt32) (crc : Crc32) (error : Error) : Work Unit :=
  if expected.any (crc.finalize ≠ ·) then fail error else pure ()

/-- Hand one member to the sink, from its beginning to its end. -/
def deliverMember {σ : Type} (sink : EntrySink σ) (memberIndex : Nat) (entry : FileEntry)
    (mapping : FileStream) (slice : MemberSlice) : Stateful σ Unit := do
  Session.act (sink.beginEntry memberIndex entry slice.bytes.length)
  let crc ← writeChunks sink memberIndex (chunks controlChunkSize slice.bytes) .new
  checkMemberCrc mapping.crc crc (digestError slice.encrypted .member (some memberIndex))
  Session.act (sink.finishEntry memberIndex)

/-- The counters once a member is delivered. -/
def countMember (slice : MemberSlice) (state : ExtractState) : Work ExtractState := do
  let delivered ← orFormat (checkedAdd 64 state.delivered slice.bytes.length)
    "delivered member byte count overflows"
  let nextSubstream ← orFormat (checkedAdd 64 state.nextSubstream 1) "substream index overflows"
  pure { state with delivered, nextSubstream, folderOffset := slice.stop }

/-- A member that has a stream. -/
def extractStream {σ : Type} (codecs : Codecs) (archive : Archive) (sink : EntrySink σ)
    (memberIndex : Nat) (entry : FileEntry) (mapping : FileStream) (state : ExtractState) :
    Stateful σ ExtractState := do
  let streams ← orFormat archive.header.mainStreams
    "streamed member has no MainStreamsInfo during extraction"
  let state ← archive.reachFolder codecs streams mapping.folderIndex state
  let slice ← archive.nextMember streams mapping state
  deliverMember sink memberIndex entry mapping slice
  countMember slice state

/-- A member that has none: only an empty file is something to deliver. -/
def extractEmpty {σ : Type} (sink : EntrySink σ) (memberIndex : Nat) (entry : FileEntry) :
    Stateful σ Unit :=
  if entry.emptyFile ∧ !entry.antiItem then do
    Session.act (sink.beginEntry memberIndex entry 0)
    Session.act (sink.finishEntry memberIndex)
  else
    pure ()

/-- One round of the member loop. -/
def extractMember {σ : Type} (codecs : Codecs) (archive : Archive) (sink : EntrySink σ)
    (memberIndex : Nat) (entry : FileEntry) (state : ExtractState) :
    Stateful σ ExtractState := do
  checkpoint 1
  match entry.stream with
  | some mapping => archive.extractStream codecs sink memberIndex entry mapping state
  | none => do
      extractEmpty sink memberIndex entry
      pure state

/-- The member loop of `extract_entries_to`. -/
def extractMembers {σ : Type} (codecs : Codecs) (archive : Archive) (sink : EntrySink σ) :
    Nat → List FileEntry → ExtractState → Stateful σ ExtractState
  | _, [], state => pure state
  | memberIndex, entry :: rest, state => do
      let state ← archive.extractMember codecs sink memberIndex entry state
      extractMembers codecs archive sink (memberIndex + 1) rest state

/-- The check after the last member. -/
def finishExtraction (archive : Archive) (state : ExtractState) : Work Unit :=
  match archive.header.mainStreams, state.currentFolder with
  | some streams, some folderIndex =>
      checkFolderFinished streams folderIndex state.nextSubstream
        "final folder index is out of range"
        "natural extraction left final folder substreams unmapped"
  | _, _ => pure ()

def extractEntriesTo {σ : Type} (codecs : Codecs) (archive : Archive) (sink : EntrySink σ) :
    Stateful σ Nat := do
  let state ← archive.extractMembers codecs sink 0 archive.entries {}
  archive.finishExtraction state
  pure state.delivered

end Archive

end Un7z
