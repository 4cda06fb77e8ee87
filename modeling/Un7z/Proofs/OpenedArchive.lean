/-
What opening an archive guarantees of it.

The folders of an opened archive are well formed, and its entries with a stream are, in
archive order, the substreams of its folders, folder after folder.  Validation sees to
both.  Resolving external properties fills names, times and attributes in afterwards,
and touches nothing else of an entry (`FileEntry.placement`).
-/
import Un7z.Archive
import Un7z.Proofs.FolderExecution
import Un7z.Proofs.CompletenessProbe

namespace Un7z

/-! ### Placement -/

/-- What an entry says about where its bytes are. -/
def FileEntry.placement (entry : FileEntry) : Bool × Bool × Bool × Option FileStream :=
  (entry.hasStream, entry.emptyFile, entry.antiItem, entry.stream)

/-- An entry has a stream when it says so, and is then neither an empty file nor an anti-item. -/
structure FileEntry.Placed (entry : FileEntry) : Prop where
  hasStream : entry.hasStream = entry.stream.isSome
  antiItem : entry.stream.isSome → entry.antiItem = false

/-- The streams of entries for these substreams, from substream `start` on. -/
def substreamMappings (folderIndex start : Nat) (substreams : List Substream) :
    List FileStream :=
  (substreams.zipIdx start).map fun p => ⟨folderIndex, p.2, p.1.size, p.1.crc⟩

/-- The streams of entries for these folders, from folder `start` on. -/
def folderMajor (start : Nat) (folders : List Folder) : List FileStream :=
  (folders.zipIdx start).flatMap fun p => substreamMappings p.2 0 p.1.substreams

/-- The folders of an optional stream section. -/
def sectionFolders (streams : Option StreamsInfo) : List Folder :=
  (streams.map (·.folders)).getD []

/-- Placed entries, whose streams are the substreams of these folders in order. -/
structure Mapped (entries : List FileEntry) (folders : List Folder) : Prop where
  placed : ∀ entry ∈ entries, entry.Placed
  streams : entries.filterMap (·.stream) = folderMajor 0 folders
  count : (folderMajor 0 folders).length < 2 ^ 64

/-- The folders are well formed, and each has an order of its coders that is a schedule. -/
def FoldersSound (streams : StreamsInfo) (archiveBytes : Bytes) : Prop :=
  ∀ folder ∈ streams.folders, folder.WellFormed ∧
    folder.Schedule folder.topologicalCoderOrder ∧ folder.Backed streams archiveBytes

structure ArchiveHeader.Sound (header : ArchiveHeader) (archiveBytes : Bytes) : Prop where
  folders : ∀ streams, header.mainStreams = some streams → FoldersSound streams archiveBytes
  mapped : ∀ files, header.files = some files →
    Mapped files.entries (sectionFolders header.mainStreams)

/-! ### Validation -/

namespace Validate

theorem folderMappings_result (folderIndex : Nat) (substreams : List Substream) :
    ∀ start, (folderMappings folderIndex start substreams).result
      = .ok (substreamMappings folderIndex start substreams) := by
  induction substreams with
  | nil => intro start; rfl
  | cons stream rest ih =>
      intro start
      rw [folderMappings, Metered.result_bind_ok (result_checkpoint 1),
        Metered.result_bind_ok (ih (start + 1))]
      rfl

theorem foldersMappings_result (folders : List Folder) :
    ∀ start, (foldersMappings start folders).result = .ok (folderMajor start folders) := by
  induction folders with
  | nil => intro start; rfl
  | cons folder rest ih =>
      intro start
      rw [foldersMappings, Metered.result_bind_ok (folderMappings_result _ _ _),
        Metered.result_bind_ok (ih (start + 1))]
      rfl

theorem collectStreamMappings_eq_ok {streams : Option StreamsInfo} {mappings : List FileStream}
    (h : (collectStreamMappings streams).result = .ok mappings) :
    mappings = folderMajor 0 (sectionFolders streams) := by
  simp only [collectStreamMappings, Metered.bind_eq_ok, refuseFormat_eq_ok,
    foldersMappings_result, Except.ok.injEq] at h
  obtain ⟨_, -, _, rfl, -, h⟩ := h
  exact (Except.ok.inj h).symm

/-- The files that are built take the mappings from the cursor on, one for each stream. -/
theorem buildFiles_eq_ok {bits : FileBits} {vectors : FileVectors} {mappings : List FileStream}
    (count : Nat) : ∀ {fileIndex : Nat} {cursors last : FileCursors} {files : List FileEntry},
      (buildFiles bits vectors mappings count fileIndex cursors).result = .ok (files, last) →
      (∀ entry ∈ files, entry.Placed) ∧
        files.filterMap (·.stream) ++ mappings.drop last.stream = mappings.drop cursors.stream ∧
        (cursors.stream < 2 ^ 64 → last.stream < 2 ^ 64) := by
  induction count with
  | zero =>
      intro fileIndex cursors last files h
      obtain ⟨rfl, rfl⟩ : files = [] ∧ last = cursors := by
        simpa [buildFiles, eq_comm] using h
      simp
  | succ count ih =>
      intro fileIndex cursors last files h
      simp only [buildFiles, buildFile, Metered.bind_eq_ok, orFormat_eq_ok, Prod.exists,
        Metered.result_pure, Except.ok.injEq, Prod.mk.injEq] at h
      obtain ⟨file, middle, ⟨_, -, isEmptyStream, -, isEmptyFile, isAnti, bitCursors, hbits, stream,
        streamCursors, hstream, _, -, _, -, _, -, _, -, _, -, _, -, rfl, rfl⟩, rest, _, hrest, rfl,
        rfl⟩ := h
      obtain ⟨hplaced, hstreams, hlt⟩ := ih hrest
      cases isEmptyStream with
      | true =>
          obtain ⟨rfl, rfl⟩ : stream = none ∧ streamCursors = bitCursors := by
            simpa [fileStream, eq_comm] using hstream
          simp only [emptyBits, if_true, Metered.bind_eq_ok, orFormat_eq_ok, Metered.result_pure,
            Except.ok.injEq, Prod.mk.injEq] at hbits
          obtain ⟨_, -, _, -, _, -, -, rfl⟩ := hbits
          exact ⟨List.forall_mem_cons.mpr ⟨⟨rfl, by simp⟩, hplaced⟩, hstreams, hlt⟩
      | false =>
          simp only [emptyBits, Bool.false_eq_true, if_false, Metered.result_pure,
            Except.ok.injEq, Prod.mk.injEq] at hbits
          obtain ⟨⟨rfl, rfl⟩, rfl⟩ := hbits
          simp only [fileStream, Bool.false_eq_true, if_false, Metered.bind_eq_ok,
            orFormat_eq_ok, checkedAdd_eq_some, Metered.result_pure, Except.ok.injEq,
            Prod.mk.injEq] at hstream
          obtain ⟨value, hvalue, _, ⟨hnext, rfl⟩, rfl, rfl⟩ := hstream
          have hin : cursors.stream < mappings.length :=
            (List.getElem?_eq_some_iff.mp hvalue).1
          have hdrop : mappings.drop cursors.stream = value :: mappings.drop (cursors.stream + 1) := by
            rw [List.drop_eq_getElem_cons hin]
            exact congrArg (· :: _) (List.getElem?_eq_some_iff.mp hvalue).2
          refine ⟨List.forall_mem_cons.mpr ⟨⟨rfl, fun _ => rfl⟩, hplaced⟩, ?_, fun _ => hlt hnext⟩
          rw [hdrop]
          exact congrArg (value :: ·) hstreams

/-- The entries of an accepted header are mapped. -/
theorem validateFiles_mapped {raw : RawFilesInfo} {mainStreams additionalStreams : Option StreamsInfo}
    {limits : Limits} {files : FilesInfo}
    (h : (validateFiles raw mainStreams additionalStreams limits).result = .ok files) :
    Mapped files.entries (sectionFolders mainStreams) := by
  simp only [validateFiles, Metered.bind_eq_ok, refuseFormat_eq_ok, Prod.exists,
    Metered.result_pure, Except.ok.injEq, not_or, not_not] at h
  obtain ⟨_, -, slots, -, bits, -, vectors, external, -, mappings, hmappings, -, entries, last,
    hfiles, ⟨-, -, hend⟩, rfl⟩ := h
  obtain ⟨hplaced, hstreams, hlt⟩ := buildFiles_eq_ok _ hfiles
  obtain rfl := collectStreamMappings_eq_ok hmappings
  refine ⟨hplaced, ?_, ?_⟩
  · simpa [hend] using hstreams
  · rw [← hend]
    exact hlt (by decide)

theorem validateStreams_sound {raw : RawStreamsInfo} {envelope : HeaderEnvelope}
    {archiveBytes : Bytes} {limits : Limits} {ranges ranges' : List (Nat × Nat)}
    {streams : StreamsInfo}
    (h : (validateStreams raw envelope archiveBytes limits ranges).result
      = .ok (streams, ranges')) : FoldersSound streams archiveBytes := by
  intro folder hmem
  obtain ⟨hwell, hschedule⟩ := validateStreams_wellFormed h folder hmem
  exact ⟨hwell, hschedule, validateStreams_backed h folder hmem⟩

/-- **An accepted header** is sound. -/
theorem validatePlainHeader_sound {raw : RawHeader} {envelope : HeaderEnvelope}
    {archiveBytes : Bytes} {limits : Limits} {header : ArchiveHeader}
    (h : (validatePlainHeader raw envelope archiveBytes limits).result = .ok header) :
    header.Sound archiveBytes := by
  simp only [validatePlainHeader, Metered.bind_eq_ok, Prod.exists, Metered.result_pure,
    Except.ok.injEq] at h
  obtain ⟨additional, _, -, mainStreams, _, hmain, _, -, files, hfiles, properties, -, rfl⟩ := h
  refine ⟨fun streams heq => ?_, fun files' heq => ?_⟩
  · unfold validateStreamsSection at hmain
    cases hraw : raw.mainStreams with
    | none =>
        rw [hraw] at hmain
        obtain ⟨rfl, -⟩ : mainStreams = none ∧ _ := by simpa [eq_comm] using hmain
        exact absurd heq (by simp)
    | some rawStreams =>
        rw [hraw] at hmain
        simp only [Metered.bind_eq_ok, Prod.exists, Metered.result_pure, Except.ok.injEq,
          Prod.mk.injEq] at hmain
        obtain ⟨streams', _, hstreams, rfl, -⟩ := hmain
        obtain rfl := Option.some.inj heq
        exact validateStreams_sound hstreams
  · unfold validateFilesSection at hfiles
    cases hraw : raw.files with
    | none =>
        rw [hraw] at hfiles
        obtain rfl := Except.ok.inj hfiles
        exact absurd heq (by simp)
    | some rawFiles =>
        rw [hraw] at hfiles
        obtain rfl : files = some files' := heq
        simp only [Metered.result_map] at hfiles
        cases hvalid : (validateFiles rawFiles mainStreams additional limits).result with
        | error e => simp [hvalid, Except.map] at hfiles
        | ok files'' =>
            obtain rfl : files'' = files' := by simpa [hvalid, Except.map] using hfiles
            exact validateFiles_mapped hvalid

end Validate

/-! ### External properties -/

/-- Entries with the same placement are mapped alike. -/
theorem Mapped.congr {entries entries' : List FileEntry} {folders : List Folder}
    (h : Mapped entries folders)
    (hsame : entries'.map FileEntry.placement = entries.map FileEntry.placement) :
    Mapped entries' folders := by
  refine ⟨fun entry hmem => ?_, ?_, h.count⟩
  · have hmem' := List.mem_map_of_mem (f := FileEntry.placement) hmem
    rw [hsame] at hmem'
    obtain ⟨entry', hmem', heq⟩ := List.mem_map.mp hmem'
    simp only [FileEntry.placement, Prod.mk.injEq] at heq
    obtain ⟨hhas, -, hanti, hstream⟩ := heq
    have hplaced := h.placed entry' hmem'
    exact ⟨by rw [← hhas, ← hstream, hplaced.hasStream], by rw [← hstream, ← hanti]; exact hplaced.antiItem⟩
  · have hfilter : ∀ entries : List FileEntry, entries.filterMap (·.stream)
        = (entries.map FileEntry.placement).filterMap (·.2.2.2) := fun entries => by
      rw [List.filterMap_map]
      rfl
    rw [hfilter, hsame, ← hfilter, h.streams]

namespace Metadata

/-- What reads a value into an entry, and leaves its placement alone. -/
def KeepsPlacement {τ : Type} (update : FileEntry → τ → Reads (FileEntry × τ)) : Prop :=
  ∀ {entry total reader entry' total' reader'},
    (update entry total reader).result = .ok ((entry', total'), reader') →
      entry'.placement = entry.placement

theorem updateEntry_placement {τ : Type} {update : FileEntry → τ → Reads (FileEntry × τ)}
    (hupdate : KeepsPlacement update) (isDefined : Bool) :
    KeepsPlacement fun entry => updateEntry update entry isDefined := by
  intro entry total reader entry' total' reader' h
  cases isDefined with
  | true => exact hupdate h
  | false =>
      obtain ⟨heq, -⟩ := Cursor.pure_eq_ok.mp h
      obtain ⟨rfl, -⟩ := Prod.mk.inj heq
      rfl

theorem updateDefined_placement {τ : Type} {update : FileEntry → τ → Reads (FileEntry × τ)}
    (hupdate : KeepsPlacement update) (entries : List FileEntry) :
    ∀ {defined : List Bool} {total total' : τ} {reader reader' : BoundedReader}
      {entries' : List FileEntry},
      (updateDefined update entries defined total reader).result
        = .ok ((entries', total'), reader') →
      entries'.map FileEntry.placement = entries.map FileEntry.placement := by
  induction entries with
  | nil =>
      intro defined total total' reader reader' entries' h
      obtain ⟨heq, -⟩ := Cursor.pure_eq_ok.mp h
      obtain ⟨rfl, -⟩ := Prod.mk.inj heq
      rfl
  | cons entry entries ih =>
      intro defined total total' reader reader' entries' h
      cases defined with
      | nil =>
          obtain ⟨heq, -⟩ := Cursor.pure_eq_ok.mp h
          obtain ⟨rfl, -⟩ := Prod.mk.inj heq
          rfl
      | cons isDefined defined =>
          obtain ⟨_, _, -, h⟩ := Cursor.bind_eq_ok.mp h
          obtain ⟨⟨entry', _⟩, _, hentry, h⟩ := Cursor.bind_eq_ok.mp h
          obtain ⟨⟨rest, _⟩, _, hrest, h⟩ := Cursor.bind_eq_ok.mp h
          obtain ⟨heq, -⟩ := Cursor.pure_eq_ok.mp h
          obtain ⟨rfl, -⟩ := Prod.mk.inj heq
          rw [List.map_cons, List.map_cons, updateEntry_placement hupdate isDefined hentry,
            ih hrest]

theorem updateName_placement (limits : Limits) : KeepsPlacement (updateName limits) := by
  intro entry total reader entry' total' reader' h
  simp only [updateName, Metered.bind_eq_ok, Prod.exists, Metered.result_pure, Except.ok.injEq,
    Prod.mk.injEq] at h
  obtain ⟨_, _, _, -, _, -, _, -, ⟨rfl, -⟩, -⟩ := h
  rfl

theorem setU64Property_placement {propertyId : UInt8} {entry entry' : FileEntry} {value : Nat}
    (h : (setU64Property propertyId entry value).result = .ok entry') :
    entry'.placement = entry.placement := by
  unfold setU64Property at h
  split at h
  · obtain rfl := Except.ok.inj h
    rfl
  split at h
  · obtain rfl := Except.ok.inj h
    rfl
  split at h
  · obtain rfl := Except.ok.inj h
    rfl
  split at h
  · obtain rfl := Except.ok.inj h
    rfl
  · exact absurd h (by simp)

theorem updateU64_placement (propertyId : UInt8) : KeepsPlacement (updateU64 propertyId) := by
  intro entry total reader entry' total' reader' h
  obtain ⟨_, _, -, h⟩ := Cursor.bind_eq_ok.mp h
  obtain ⟨_, _, hentry, h⟩ := Cursor.bind_eq_ok.mp h
  obtain ⟨heq, -⟩ := Cursor.pure_eq_ok.mp h
  obtain ⟨rfl, -⟩ := Prod.mk.inj heq
  obtain ⟨hentry, -⟩ := Cursor.lift_eq_ok.mp hentry
  exact setU64Property_placement hentry

theorem updateAttributes_placement : KeepsPlacement updateAttributes := by
  intro entry total reader entry' total' reader' h
  obtain ⟨_, _, -, h⟩ := Cursor.bind_eq_ok.mp h
  obtain ⟨heq, -⟩ := Cursor.pure_eq_ok.mp h
  obtain ⟨rfl, -⟩ := Prod.mk.inj heq
  rfl

theorem applyExternalStream_placement {update : FileEntry → Nat → Reads (FileEntry × Nat)}
    (hupdate : KeepsPlacement update) {unconsumedDetail : String} {entries entries' : List FileEntry}
    {property : ExternalProperty} {data : Bytes} {total total' : Nat}
    (h : (applyExternalStream update unconsumedDetail entries property data total).result
      = .ok (entries', total')) :
    entries'.map FileEntry.placement = entries.map FileEntry.placement := by
  simp only [applyExternalStream, Metered.bind_eq_ok, Prod.exists, Metered.result_pure,
    Except.ok.injEq, Prod.mk.injEq] at h
  obtain ⟨_, -, _, _, _, hupdated, _, -, rfl, -⟩ := h
  exact updateDefined_placement hupdate _ hupdated

theorem applyExternalProperty_placement {limits : Limits} {entries entries' : List FileEntry}
    {property : ExternalProperty} {data : Bytes} {total total' : Nat}
    (h : (applyExternalProperty limits entries property data total).result
      = .ok (entries', total')) :
    entries'.map FileEntry.placement = entries.map FileEntry.placement := by
  simp only [applyExternalProperty] at h
  split at h
  · exact applyExternalStream_placement (updateName_placement limits) h
  split at h
  · exact applyExternalStream_placement (updateU64_placement _) h
  split at h
  · exact applyExternalStream_placement updateAttributes_placement h
  · exact absurd h (by simp)

theorem applyProperties_placement {decoded : DecodedAdditionalStreams} {limits : Limits}
    (properties : List ExternalProperty) :
    ∀ {entries entries' : List FileEntry} {total : Nat},
      (applyProperties decoded limits properties entries total).result = .ok entries' →
      entries'.map FileEntry.placement = entries.map FileEntry.placement := by
  induction properties with
  | nil =>
      intro entries entries' total h
      obtain rfl := Except.ok.inj h
      rfl
  | cons property properties ih =>
      intro entries entries' total h
      simp only [applyProperties, Metered.bind_eq_ok, Prod.exists, mapEncryptedError_eq_ok] at h
      obtain ⟨_, -, stream, -, middle, _, happly, hrest⟩ := h
      rw [ih hrest, applyExternalProperty_placement happly]

/-- **Filling in external properties** leaves a header as sound as it was. -/
theorem applyExternalProperties_sound {header header' : ArchiveHeader}
    {decoded : DecodedAdditionalStreams} {limits : Limits} {archiveBytes : Bytes}
    (hsound : header.Sound archiveBytes)
    (h : (applyExternalProperties header decoded limits).result = .ok header') :
    header'.Sound archiveBytes := by
  unfold applyExternalProperties at h
  cases hfiles : header.files with
  | none =>
      rw [hfiles] at h
      obtain rfl := Except.ok.inj h
      exact hsound
  | some files =>
      rw [hfiles] at h
      simp only at h
      split at h
      · obtain rfl := Except.ok.inj h
        exact hsound
      · simp only [Metered.bind_eq_ok, Metered.result_pure, Except.ok.injEq] at h
        obtain ⟨_, -, entries, hentries, rfl⟩ := h
        refine ⟨hsound.folders, fun files' heq => ?_⟩
        obtain rfl := Option.some.inj heq
        exact (hsound.mapped files hfiles).congr (applyProperties_placement _ hentries)

theorem resolveExternalProperties_sound {codecs : Codecs} {header header' : ArchiveHeader}
    {archiveBytes : Bytes} {password : Option Password} {limits : Limits}
    {maximumOutput externalBytes : Nat} (hsound : header.Sound archiveBytes)
    (h : (resolveExternalProperties codecs header archiveBytes password limits
      maximumOutput).result = .ok (header', externalBytes)) :
    header'.Sound archiveBytes := by
  unfold resolveExternalProperties at h
  cases hfiles : header.files with
  | none =>
      rw [hfiles] at h
      obtain ⟨rfl, -⟩ := Prod.mk.inj (Except.ok.inj h)
      exact hsound
  | some files =>
      rw [hfiles] at h
      simp only at h
      split at h
      · obtain ⟨rfl, -⟩ := Prod.mk.inj (Except.ok.inj h)
        exact hsound
      · simp only [Metered.bind_eq_ok, Metered.result_pure, Except.ok.injEq, Prod.mk.injEq] at h
        obtain ⟨_, -, decoded, -, _, happly, rfl, -⟩ := h
        exact applyExternalProperties_sound hsound happly

end Metadata

/-! ### Opening -/

/-- A next header that is plain is sound. -/
def ParsedNextHeader.Sound (nextHeader : ParsedNextHeader) (archiveBytes : Bytes) : Prop :=
  ∀ header, nextHeader = .header header → header.Sound archiveBytes

theorem Validate.validateNextHeader_sound {raw : RawNextHeader} {envelope : HeaderEnvelope}
    {archiveBytes : Bytes} {limits : Limits} {nextHeader : ParsedNextHeader}
    (h : (validateNextHeader raw envelope archiveBytes limits).result = .ok nextHeader) :
    nextHeader.Sound archiveBytes := by
  rintro header rfl
  unfold validateNextHeader at h
  cases raw with
  | header rawHeader =>
      simp only [Metered.result_map] at h
      cases hvalid : (validatePlainHeader rawHeader envelope archiveBytes limits).result with
      | error e => simp [hvalid, Except.map] at h
      | ok header' =>
          obtain rfl : header' = header := by simpa [hvalid, Except.map] using h
          exact validatePlainHeader_sound hvalid
  | externalFolders pending =>
      simp only [Metered.result_map] at h
      cases hvalid : (validatePendingHeader pending envelope archiveBytes limits).result <;>
        simp [hvalid, Except.map] at h
  | encoded streams =>
      obtain ⟨_, -, h⟩ := Metered.bind_eq_ok.mp h
      obtain ⟨_, -, h⟩ := Metered.bind_eq_ok.mp h
      exact absurd h (by simp)

namespace Parser

theorem parseArchive_sound {bytes : Bytes} {limits : Limits} {parsed : ParsedArchive}
    (h : (parseArchive bytes limits).result = .ok parsed) : parsed.nextHeader.Sound bytes := by
  obtain ⟨offset, -, h⟩ := parseArchive_candidate h
  simp only [validatedCandidate, Metered.bind_eq_ok, Prod.exists, Metered.result_pure,
    Except.ok.injEq] at h
  obtain ⟨envelope, -, _, -, raw, _, -, nextHeader, hvalid, rfl⟩ := h
  exact Validate.validateNextHeader_sound hvalid

end Parser

namespace Archive

open Execute (DecodedFolder decodeFolder)

/-- What opening guarantees. -/
def Sound (archive : Archive) : Prop := archive.header.Sound archive.bytes

variable {codecs : Codecs} {opening : Opening} {archive : Archive}

theorem fromParts_eq_ok {layout : Layout} {bytes : Bytes} {header : ArchiveHeader}
    {limits : Limits} {password : Option Password}
    (h : (fromParts layout bytes header limits password).result = .ok archive) :
    archive.bytes = bytes ∧ archive.header = header := by
  simp only [fromParts, Metered.bind_eq_ok, Metered.result_pure, Except.ok.injEq] at h
  obtain ⟨_, -, rfl⟩ := h
  exact ⟨rfl, rfl⟩

theorem resolveHeader_sound {decodedHeaderBytes : Nat} {header : ArchiveHeader}
    (hsound : header.Sound opening.bytes)
    (h : (resolveHeader opening decodedHeaderBytes header).result = .ok archive) :
    archive.Sound := by
  simp only [resolveHeader, Metered.bind_eq_ok, Prod.exists] at h
  obtain ⟨_, -, header', _, hresolve, _, -, h⟩ := h
  obtain ⟨hbytes, hheader⟩ := fromParts_eq_ok h
  rw [Sound, hbytes, hheader]
  exact Metadata.resolveExternalProperties_sound hsound hresolve

theorem resolveExternalFolders_sound {decodedHeaderBytes : Nat}
    {pending : PendingExternalFolderHeader}
    (h : (resolveExternalFolders opening decodedHeaderBytes pending).result = .ok archive) :
    archive.Sound := by
  simp only [resolveExternalFolders, Parser.parseNextHeaderFromExternalFolders,
    Metered.bind_eq_ok, Prod.exists, mapEncryptedError_eq_ok] at h
  obtain ⟨_, -, decoded, -, _, -, _, -, resolved, ⟨_, -, raw, _, -, hvalid⟩, header, hheader, header',
    happly, h⟩ := h
  obtain ⟨hbytes, heq⟩ := fromParts_eq_ok h
  rw [Sound, hbytes, heq]
  refine Metadata.applyExternalProperties_sound ?_ happly
  refine Validate.validateNextHeader_sound hvalid header ?_
  cases resolved with
  | header header'' => exact congrArg _ (Except.ok.inj hheader)
  | encodedHeader _ => exact absurd hheader (by simp [expectHeader])
  | pendingExternalFolders _ => exact absurd hheader (by simp [expectHeader])

theorem unwrapEncodedHeader_sound {decodedHeaderBytes decodedHeaderBytes' : Nat}
    {streams : StreamsInfo} {nextHeader : ParsedNextHeader}
    (h : (unwrapEncodedHeader opening decodedHeaderBytes streams).result
      = .ok (nextHeader, decodedHeaderBytes')) : nextHeader.Sound opening.bytes := by
  simp only [unwrapEncodedHeader, Parser.parseDecodedNextHeader, Metered.bind_eq_ok, Prod.exists,
    mapEncryptedError_eq_ok, Metered.result_pure, Except.ok.injEq, Prod.mk.injEq] at h
  obtain ⟨_, -, _, -, _, -, _, ⟨_, -, raw, _, -, hvalid⟩, rfl, -⟩ := h
  exact Validate.validateNextHeader_sound hvalid

theorem openLayers_sound (fuel : Nat) :
    ∀ {depth decodedHeaderBytes : Nat} {nextHeader : ParsedNextHeader},
      nextHeader.Sound opening.bytes →
      (openLayers opening fuel depth decodedHeaderBytes nextHeader).result = .ok archive →
      archive.Sound := by
  induction fuel with
  | zero =>
      intro depth decodedHeaderBytes nextHeader hsound h
      cases nextHeader with
      | header header => exact resolveHeader_sound (hsound header rfl) h
      | encodedHeader streams =>
          obtain ⟨_, -, h⟩ := Metered.bind_eq_ok.mp h
          exact absurd h (by simp)
      | pendingExternalFolders pending =>
          obtain ⟨_, -, h⟩ := Metered.bind_eq_ok.mp h
          exact resolveExternalFolders_sound h
  | succ fuel ih =>
      intro depth decodedHeaderBytes nextHeader hsound h
      cases nextHeader with
      | header header => exact resolveHeader_sound (hsound header rfl) h
      | encodedHeader streams =>
          obtain ⟨_, -, h⟩ := Metered.bind_eq_ok.mp h
          obtain ⟨⟨nextHeader, _⟩, hunwrap, h⟩ := Metered.bind_eq_ok.mp h
          exact ih (unwrapEncodedHeader_sound hunwrap) h
      | pendingExternalFolders pending =>
          obtain ⟨_, -, h⟩ := Metered.bind_eq_ok.mp h
          exact resolveExternalFolders_sound h

/-- **An opened archive is sound.** -/
theorem openBytes_sound {codecs : Codecs} {layout : Layout} {bytes : Bytes} {limits : Limits}
    {password : Option Password}
    (h : (openBytes codecs layout bytes limits password).result = .ok archive) :
    archive.Sound := by
  obtain ⟨parsed, hparsed, h⟩ := Metered.bind_eq_ok.mp h
  exact openLayers_sound _ (Parser.parseArchive_sound hparsed) h

/-! ### Folders of a sound archive -/

/-- The entries of an opened archive are mapped onto the folders of its main streams. -/
theorem Sound.mapped (h : archive.Sound) :
    Mapped archive.entries (sectionFolders archive.header.mainStreams) ∨ archive.entries = [] := by
  cases hfiles : archive.header.files with
  | none => exact Or.inr (by simp [entries, hfiles])
  | some files =>
      refine Or.inl ?_
      have := ArchiveHeader.Sound.mapped h files hfiles
      simpa [entries, hfiles] using this

/-- What decoding a folder returns is within the maximum, and of the declared size. -/
theorem Sound.decodeFolder_size (h : archive.Sound) {streams : StreamsInfo}
    (hstreams : archive.header.mainStreams = some streams) {folderIndex maximum : Nat}
    {folder : Folder} {decoded : DecodedFolder}
    (hfolder : streams.folders[folderIndex]? = some folder)
    (hdecoded : (decodeFolder codecs archive.bytes streams folderIndex archive.password
      archive.limits maximum).result = .ok decoded) :
    decoded.bytes.length ≤ maximum ∧
      ∀ size, folder.unpackSizes[folder.rootOutputIndex]? = some (some size) →
        decoded.bytes.length = size := by
  obtain ⟨hwell, hschedule, hbacked⟩ :=
    h.folders streams hstreams folder (List.mem_of_getElem? hfolder)
  let context : Folder.Context :=
    ⟨codecs, archive.bytes, streams, archive.password, archive.limits, maximum⟩
  have hdecoded : (context.decodeFolder folderIndex).result = .ok decoded := hdecoded
  exact Execute.decodeFolder_size hfolder hwell hschedule hbacked hdecoded

theorem mem_folderMajor {start : Nat} {folders : List Folder} {mapping : FileStream} :
    mapping ∈ folderMajor start folders ↔
      ∃ f folder k substream, folders[f]? = some folder ∧ folder.substreams[k]? = some substream ∧
        mapping = ⟨start + f, k, substream.size, substream.crc⟩ := by
  simp only [folderMajor, substreamMappings, List.mem_flatMap, List.mem_map, Prod.exists,
    List.mem_zipIdx_iff_le_and_getElem?_sub]
  constructor
  · rintro ⟨folder, f, ⟨hle, hfolder⟩, substream, k, ⟨-, hsubstream⟩, rfl⟩
    exact ⟨f - start, folder, k, substream, hfolder, hsubstream, by rw [Nat.add_sub_cancel' hle]⟩
  · rintro ⟨f, folder, k, substream, hfolder, hsubstream, rfl⟩
    exact ⟨folder, start + f, ⟨Nat.le_add_right _ _, by rwa [Nat.add_sub_cancel_left]⟩, substream,
      k, ⟨Nat.zero_le _, hsubstream⟩, rfl⟩

/-- The stream of an entry is a substream of a folder. -/
theorem Sound.mapping (h : archive.Sound) {entry : FileEntry} {mapping : FileStream}
    (hmem : entry ∈ archive.entries) (hstream : entry.stream = some mapping) :
    entry.Placed ∧ ∃ streams folder substream, archive.header.mainStreams = some streams ∧
      streams.folders[mapping.folderIndex]? = some folder ∧
      folder.substreams[mapping.substreamIndex]? = some substream ∧
      mapping.size = substream.size ∧ mapping.crc = substream.crc := by
  rcases h.mapped with hmapped | hnone
  · refine ⟨hmapped.placed entry hmem, ?_⟩
    have hin : mapping ∈ folderMajor 0 (sectionFolders archive.header.mainStreams) := by
      rw [← hmapped.streams]
      exact List.mem_filterMap.mpr ⟨entry, hmem, hstream⟩
    obtain ⟨f, folder, k, substream, hfolder, hsubstream, rfl⟩ := mem_folderMajor.mp hin
    cases hstreams : archive.header.mainStreams with
    | none => simp [sectionFolders, hstreams] at hfolder
    | some streams =>
        rw [hstreams] at hfolder
        exact ⟨streams, folder, substream, rfl, by simpa [sectionFolders] using hfolder,
          hsubstream, rfl, rfl⟩
  · rw [hnone] at hmem
    exact absurd hmem List.not_mem_nil

theorem folderMajor_cons (start : Nat) (folder : Folder) (folders : List Folder) :
    folderMajor start (folder :: folders)
      = substreamMappings start 0 folder.substreams ++ folderMajor (start + 1) folders := by
  simp [folderMajor]

theorem substreamMappings_filter (folderIndex index start : Nat) (substreams : List Substream) :
    (substreamMappings index start substreams).filter (·.folderIndex = folderIndex)
      = if index = folderIndex then substreamMappings index start substreams else [] := by
  by_cases h : index = folderIndex
  · rw [if_pos h, List.filter_eq_self]
    intro mapping hmem
    obtain ⟨p, -, rfl⟩ := List.mem_map.mp hmem
    simpa using h
  · rw [if_neg h, List.filter_eq_nil_iff]
    intro mapping hmem
    obtain ⟨p, -, rfl⟩ := List.mem_map.mp hmem
    simpa using h

/-- Of all streams, those of one folder. -/
theorem folderMajor_filter (folders : List Folder) :
    ∀ {start f : Nat} {folder : Folder}, folders[f]? = some folder →
      (folderMajor start folders).filter (·.folderIndex = start + f)
        = substreamMappings (start + f) 0 folder.substreams := by
  have hlater : ∀ (folders : List Folder) (start f : Nat), f < start →
      (folderMajor start folders).filter (·.folderIndex = f) = [] := by
    intro folders start f hlt
    rw [List.filter_eq_nil_iff]
    intro mapping hmem
    obtain ⟨g, folder, k, substream, -, -, rfl⟩ := mem_folderMajor.mp hmem
    simp only [decide_eq_true_eq]
    omega
  induction folders with
  | nil => intro start f folder h; exact absurd h (by simp)
  | cons first folders ih =>
      intro start f folder h
      rw [folderMajor_cons, List.filter_append, substreamMappings_filter]
      cases f with
      | zero =>
          obtain rfl := Option.some.inj h
          rw [Nat.add_zero, if_pos rfl, hlater _ _ _ (Nat.lt_succ_self _), List.append_nil]
      | succ f =>
          have hnext : (folderMajor (start + 1) folders).filter (·.folderIndex = start + 1 + f)
              = substreamMappings (start + 1 + f) 0 folder.substreams :=
            ih (List.getElem?_cons_succ.symm.trans h)
          rw [show start + 1 + f = start + (f + 1) by omega] at hnext
          rw [if_neg (by omega), List.nil_append, hnext]

end Archive

end Un7z
