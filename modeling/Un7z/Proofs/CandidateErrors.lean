/-
Which errors a candidate can raise.

The signature scan goes on after an error unless `candidate_error_is_fatal`.  The errors
that are fatal are those of a control and those about the input as a whole, and a
candidate raises neither: every check between the start header and the validated model
ends in a malformed format, a checksum, a feature that is not supported, or a limit on
something that is parsed.  `Skips` says so of an operation.  It is closed under
sequencing, so there is one lemma for each function of the parser, and `grind` puts them
together.
-/
import Un7z.Parser
import Un7z.Lib.Cursor

namespace Un7z

open Metered (fail)

namespace Parser

/-- An error that the signature scan passes over. -/
def Skippable (error : Error) : Prop := candidateErrorIsFatal error = false

abbrev Skips {α : Type} (m : Work α) : Prop := m.FailsIn Skippable

abbrev SkipsReading {α : Type} (p : Reads α) : Prop := Cursor.FailsIn Skippable p

/-! ### Checks -/

/-- A limit that counts what is parsed, not the work spent on it or the bytes of all input. -/
theorem skippable_limit {limit : LimitKind} (hwork : limit ≠ .workUnits)
    (hinput : limit ≠ .totalInputBytes) (requested maximum : Nat) :
    Skippable (.limitExceeded limit requested maximum) := by
  cases limit <;> first | rfl | contradiction

theorem skips_limit {α : Type} {limit : LimitKind} (hwork : limit ≠ .workUnits)
    (hinput : limit ≠ .totalInputBytes) (requested maximum : Nat) :
    Skips (fail (.limitExceeded limit requested maximum) : Work α) :=
  .fail (skippable_limit hwork hinput requested maximum)

@[grind ←] theorem skips_formatErr {α : Type} (detail : String) :
    Skips (formatErr detail : Work α) :=
  .fail rfl

@[grind ←] theorem skips_feature {α : Type} (feature : String) :
    Skips (fail (.unsupportedFeature feature) : Work α) :=
  .fail rfl

@[grind ←] theorem skips_badChecksum {α : Type} (scope : ChecksumScope) (index : Option Nat) :
    Skips (fail (.checksum scope index) : Work α) :=
  .fail rfl

@[grind ←] theorem skips_orFormat {α : Type} (value : Option α) (detail : String) :
    Skips (orFormat value detail) := by
  cases value with
  | none => exact skips_formatErr detail
  | some a => exact .pure a

@[grind ←] theorem skips_checkLimit {limit : LimitKind} (hwork : limit ≠ .workUnits)
    (hinput : limit ≠ .totalInputBytes) (value maximum : Nat) :
    Skips (checkLimit value maximum limit) :=
  .ite (skips_limit hwork hinput value maximum) (.pure ())

@[grind ←] theorem skips_checkpoint (units : Nat) : Skips (checkpoint units) :=
  fun _ h => absurd h (by simp)

@[grind ←] theorem skips_copyBytes (bytes : Bytes) : Skips (copyBytes bytes) :=
  fun _ h => absurd h (by simp)

@[grind ←] theorem skips_consumeBytes (bytes : Bytes) : Skips (consumeBytes bytes) :=
  fun _ h => absurd h (by simp)

@[grind ←] theorem skips_checksum (bytes : Bytes) : Skips (checksum bytes) :=
  fun _ h => absurd h (by simp)

@[grind ←] theorem skips_checkedRange (bytes : Bytes) (start length : Nat)
    (overflowDetail truncatedDetail : String) :
    Skips (checkedRange bytes start length overflowDetail truncatedDetail) := by
  grind [checkedRange]

@[grind ←] theorem skips_finish (reader : BoundedReader) (detail : String) :
    Skips (finish reader detail) := by
  grind [finish]

/-! ### Reads -/

@[grind ←] theorem skips_readBytes (length : Nat) : SkipsReading (readBytes length) := by
  intro reader
  unfold readBytes
  grind

@[grind ←] theorem skips_readU8 : SkipsReading readU8 := by
  grind [readU8]

@[grind ←] theorem skips_readU32Le : SkipsReading readU32Le := by
  grind [readU32Le]

@[grind ←] theorem skips_readU64Le : SkipsReading readU64Le := by
  grind [readU64Le]

@[grind ←] theorem skips_read7zUintFrom (first : Nat) (shifts : List Nat) :
    ∀ mask value, SkipsReading (read7zUintFrom first shifts mask value) := by
  induction shifts with
  | nil => grind [read7zUintFrom]
  | cons shift shifts ih => grind [read7zUintFrom]

@[grind ←] theorem skips_read7zUint : SkipsReading read7zUint := by
  grind [read7zUint]

@[grind ←] theorem skips_parseExact {α : Type} {length : Nat} {detail : String} {parse : Reads α}
    (h : SkipsReading parse) : SkipsReading (parseExact length detail parse) := by
  grind [parseExact]

@[grind ←] theorem skips_chargedU8 : SkipsReading Raw.readU8 := by
  grind [Raw.readU8]

@[grind ←] theorem skips_chargedU32Le : SkipsReading Raw.readU32Le := by
  grind [Raw.readU32Le]

@[grind ←] theorem skips_readUint : SkipsReading Raw.readUint := by
  grind [Raw.readUint]

@[grind ←] theorem skips_chargedBytes (length : Nat) : SkipsReading (Raw.readBytes length) := by
  grind [Raw.readBytes]

@[grind ←] theorem skips_readMany {α : Type} {item : Reads α} (h : SkipsReading item)
    (count : Nat) : SkipsReading (Raw.readMany item count) := by
  induction count with
  | zero => grind [Raw.readMany]
  | succ count ih => grind [Raw.readMany]

@[grind ←] theorem skips_parseBitsFrom (count : Nat) :
    ∀ byte mask, SkipsReading (Raw.parseBitsFrom count byte mask) := by
  induction count with
  | zero => grind [Raw.parseBitsFrom]
  | succ count ih => grind [Raw.parseBitsFrom]

@[grind ←] theorem skips_parseBits (count : Nat) : SkipsReading (Raw.parseBits count) := by
  grind [Raw.parseBits]

@[grind ←] theorem skips_readIfDefined {α : Type} {readValue : Reads α}
    (h : SkipsReading readValue) (isDefined : Bool) :
    SkipsReading (Raw.readIfDefined readValue isDefined) := by
  grind [Raw.readIfDefined]

@[grind ←] theorem skips_parseDefinedDigests (defined : List Bool) :
    SkipsReading (Raw.parseDefinedDigests defined) := by
  induction defined with
  | nil => grind [Raw.parseDefinedDigests]
  | cons isDefined defined ih => grind [Raw.parseDefinedDigests]

@[grind ←] theorem skips_parseDigests (count : Nat) : SkipsReading (Raw.parseDigests count) := by
  grind [Raw.parseDigests]

@[grind ←] theorem skips_parseSizes (count : Nat) : SkipsReading (Raw.parseSizes count) := by
  grind [Raw.parseSizes]

@[grind ←] theorem skips_optionalSection {α : Type} {body : Reads α} (h : SkipsReading body)
    (id expected : UInt8) : SkipsReading (Raw.optionalSection id expected body) := by
  grind [Raw.optionalSection]


/-! ### The header grammar -/

@[grind ←] theorem skips_addLimited {limit : LimitKind} (hwork : limit ≠ .workUnits)
    (hinput : limit ≠ .totalInputBytes) (value additional maximum : Nat) (detail : String) :
    Skips (ParseState.addLimited value additional maximum limit detail) := by
  grind [ParseState.addLimited]

@[grind ←] theorem skips_parsePackInfo (state : ParseState) (limits : Limits) :
    SkipsReading (Raw.parsePackInfo state limits) := by
  refine skips_readUint.bind fun position => skips_readUint.bind fun streams => ?_
  have htotals : Skips (state.addPackedStreams streams limits) := by
    grind [ParseState.addPackedStreams]
  refine .ite (by grind) ((Cursor.FailsIn.lift htotals).bind fun state => ?_)
  grind

@[grind ←] theorem skips_parseCoderStreams (flags : UInt8) :
    SkipsReading (Raw.parseCoderStreams flags) := by
  grind [Raw.parseCoderStreams]

@[grind ←] theorem skips_parseCoderProperties (flags : UInt8) (limits : Limits) :
    SkipsReading (Raw.parseCoderProperties flags limits) := by
  grind [Raw.parseCoderProperties]

@[grind ←] theorem skips_parseCoder (limits : Limits) : SkipsReading (Raw.parseCoder limits) := by
  refine skips_chargedU8.bind fun flags => ?_
  grind

@[grind ←] theorem skips_parseCoders (limits : Limits) (count : Nat) :
    ∀ input output, SkipsReading (Raw.parseCoders limits count input output) := by
  induction count with
  | zero => grind [Raw.parseCoders]
  | succ count ih => grind [Raw.parseCoders]

@[grind ←] theorem skips_parseBindPair : SkipsReading Raw.parseBindPair := by
  grind [Raw.parseBindPair]

@[grind ←] theorem skips_parsePackedIndices (packedStreams : Nat) :
    SkipsReading (Raw.parsePackedIndices packedStreams) := by
  grind [Raw.parsePackedIndices]

@[grind ←] theorem skips_parseFolder (state : ParseState) (limits : Limits) :
    SkipsReading (Raw.parseFolder state limits) := by
  refine skips_readUint.bind fun coderCount => .ite (by grind) (.bind (by grind) fun _ => ?_)
  have hcoders : Skips (state.addCoders coderCount limits) := by grind [ParseState.addCoders]
  refine (Cursor.FailsIn.lift hcoders).bind fun state =>
    (skips_parseCoders limits coderCount 0 0).bind fun streams =>
      .bind (by grind) fun folderStreams => .bind (by grind) fun _ => ?_
  have hstreams : Skips (state.addStreams folderStreams limits) := by grind [ParseState.addStreams]
  refine (Cursor.FailsIn.lift hstreams).bind fun state => ?_
  grind

@[grind ←] theorem skips_parseFolders (limits : Limits) (count : Nat) :
    ∀ state, SkipsReading (Raw.parseFolders limits count state) := by
  induction count with
  | zero => grind [Raw.parseFolders]
  | succ count ih => grind [Raw.parseFolders]

@[grind ←] theorem skips_parseUnpackSizes (folders : List RawFolder) :
    SkipsReading (Raw.parseUnpackSizes folders) := by
  induction folders with
  | nil => grind [Raw.parseUnpackSizes]
  | cons folder folders ih => grind [Raw.parseUnpackSizes]

@[grind ←] theorem skips_parseUnpackInfoTail (folderCount : Nat) (folders : List RawFolder) :
    SkipsReading (Raw.parseUnpackInfoTail folderCount folders) := by
  grind [Raw.parseUnpackInfoTail]

@[grind ←] theorem skips_parseExternalFolders (source : ExternalFolderData) (folderCount : Nat)
    (state : ParseState) (limits : Limits) :
    Skips (Raw.parseExternalFolders source folderCount state limits) := by
  grind [Raw.parseExternalFolders]

@[grind ←] theorem skips_parseUnpackInfo (state : ParseState) (limits : Limits)
    (external : Option ExternalFolderData) :
    SkipsReading (Raw.parseUnpackInfo state limits external) := by
  refine skips_chargedU8.bind fun id => .ite (by grind) (skips_readUint.bind fun folderCount => ?_)
  have hfolders : Skips (state.addFolders folderCount limits) := by grind [ParseState.addFolders]
  refine .ite (by grind) ((Cursor.FailsIn.lift hfolders).bind fun state => ?_)
  grind

@[grind ←] theorem skips_countSubstreams (counts : List Nat) :
    ∀ total explicit, Skips (Raw.countSubstreams counts total explicit) := by
  induction counts with
  | nil => grind [Raw.countSubstreams]
  | cons count counts ih => grind [Raw.countSubstreams, Raw.additionalSizes]

@[grind ←] theorem skips_countDigests (crcs : Option (List (Option UInt32))) (counts : List Nat) :
    ∀ folderIndex digests, Skips (Raw.countDigests crcs folderIndex counts digests) := by
  induction counts with
  | nil => grind [Raw.countDigests]
  | cons count counts ih => grind [Raw.countDigests, Raw.addDigests]

@[grind ←] theorem skips_parseSubstreamCounts (id : UInt8) (folderCount : Nat) :
    SkipsReading (Raw.parseSubstreamCounts id folderCount) := by
  grind [Raw.parseSubstreamCounts]

@[grind ←] theorem skips_addSubstreams (state : ParseState) (count : Nat) (limits : Limits) :
    Skips (state.addSubstreams count limits) := by
  grind [ParseState.addSubstreams]

@[grind ←] theorem skips_parseSubstreamsInfo (unpack : RawUnpackInfo) (state : ParseState)
    (limits : Limits) : SkipsReading (Raw.parseSubstreamsInfo unpack state limits) := by
  refine skips_chargedU8.bind fun id => (skips_parseSubstreamCounts id _).bind fun counts =>
    (Cursor.FailsIn.lift (skips_countSubstreams _ 0 0)).bind fun totals =>
      (Cursor.FailsIn.lift (skips_addSubstreams state totals.1 limits)).bind fun state => ?_
  grind

@[grind ←] theorem skips_parsePackSection (id : UInt8) (state : ParseState) (limits : Limits) :
    SkipsReading (Raw.parsePackSection id state limits) := by
  grind [Raw.parsePackSection]

@[grind ←] theorem skips_parseSubstreamsSection (id : UInt8) (unpack : Option RawUnpackInfo)
    (state : ParseState) (limits : Limits) :
    SkipsReading (Raw.parseSubstreamsSection id unpack state limits) := by
  cases unpack with
  | none => grind [Raw.parseSubstreamsSection]
  | some info => grind [Raw.parseSubstreamsSection]

@[grind ←] theorem skips_parseStreamsTail (id : UInt8) (pack : Option RawPackInfo)
    (unpack : Option RawUnpackInfo) (state : ParseState) (limits : Limits) :
    SkipsReading (Raw.parseStreamsTail id pack unpack state limits) := by
  grind [Raw.parseStreamsTail]

@[grind ←] theorem skips_parseUnpackSection (id : UInt8) (pack : Option RawPackInfo)
    (state : ParseState) (limits : Limits) (external : Option ExternalFolderData) :
    SkipsReading (Raw.parseUnpackSection id pack state limits external) := by
  grind [Raw.parseUnpackSection]

@[grind ←] theorem skips_parseStreamsInfo (state : ParseState) (limits : Limits)
    (external : Option ExternalFolderData) :
    SkipsReading (Raw.parseStreamsInfo state limits external) := by
  grind [Raw.parseStreamsInfo]

@[grind ←] theorem skips_parsePropertyListFrom (limits : Limits) (fuel : Nat) :
    ∀ state, SkipsReading (Raw.parsePropertyListFrom limits fuel state) := by
  induction fuel with
  | zero => grind [Raw.parsePropertyListFrom]
  | succ fuel ih =>
      intro state
      have hproperty : Skips (state.addProperty limits) := by grind [ParseState.addProperty]
      refine skips_chargedU8.bind fun id => .ite (by grind) ?_
      refine (Cursor.FailsIn.lift hproperty).bind fun state => ?_
      grind

@[grind ←] theorem skips_parsePropertyList (state : ParseState) (limits : Limits) :
    SkipsReading (Raw.parsePropertyList state limits) :=
  fun reader => skips_parsePropertyListFrom limits _ state reader

@[grind ←] theorem skips_parseFilesInfo (state : ParseState) (limits : Limits) :
    SkipsReading (Raw.parseFilesInfo state limits) := by
  grind [Raw.parseFilesInfo]

@[grind ←] theorem skips_parseHeaderTail (id : UInt8) (archiveProperties : List RawProperty)
    (additionalStreams mainStreams : Option RawStreamsInfo) (state : ParseState)
    (limits : Limits) : SkipsReading
      (Raw.parseHeaderTail id archiveProperties additionalStreams mainStreams state limits) := by
  grind [Raw.parseHeaderTail, Raw.parseFilesSection]

@[grind ←] theorem skips_parseArchiveProperties (id : UInt8) (state : ParseState)
    (limits : Limits) : SkipsReading (Raw.parseArchiveProperties id state limits) := by
  grind [Raw.parseArchiveProperties]

@[grind ←] theorem skips_parseAdditionalStreams (id : UInt8) (state : ParseState)
    (limits : Limits) : SkipsReading (Raw.parseAdditionalStreams id state limits) := by
  grind [Raw.parseAdditionalStreams]

@[grind ←] theorem skips_parseMainStreams (headerBytes : Bytes) (id : UInt8)
    (archiveProperties : List RawProperty) (additionalStreams : Option RawStreamsInfo)
    (state : ParseState) (limits : Limits) (external : Option ExternalFolderData) :
    SkipsReading (Raw.parseMainStreams headerBytes id archiveProperties additionalStreams state
      limits external) := by
  grind [Raw.parseMainStreams]

@[grind ←] theorem skips_parseHeaderBody (headerBytes : Bytes) (state : ParseState)
    (limits : Limits) (external : Option ExternalFolderData) :
    SkipsReading (Raw.parseHeaderBody headerBytes state limits external) := by
  grind [Raw.parseHeaderBody]

@[grind ←] theorem skips_parseNextHeaderBody (bytes : Bytes) (state : ParseState)
    (limits : Limits) (external : Option ExternalFolderData) :
    SkipsReading (Raw.parseNextHeaderBody bytes state limits external) := by
  grind [Raw.parseNextHeaderBody]

@[grind ←] theorem skips_parseNextHeaderInner (bytes : Bytes) (state : ParseState)
    (limits : Limits) (external : Option ExternalFolderData) :
    Skips (Raw.parseNextHeaderInner bytes state limits external) := by
  grind [Raw.parseNextHeaderInner]


/-! ### Validation -/

@[grind ←] theorem skippable_formatError (detail : String) : Skippable (formatError detail) := rfl

theorem skips_ofExcept {α : Type} {value : Except Error α}
    (h : ∀ e, value = .error e → Skippable e) : Skips (ofExcept value) := by
  intro e he
  rw [result_ofExcept] at he
  exact h e he

theorem skippable_ppmdProperties {properties : Bytes} {e : Error}
    (h : parsePpmdProperties properties = .error e) : Skippable e := by
  have hcanonical : ∀ e, canonicalPpmdProperties properties = .error e → Skippable e := by
    grind [canonicalPpmdProperties]
  unfold parsePpmdProperties at h
  split at h
  · grind
  · grind
  · grind

theorem skippable_declaredDictionary {methodId properties : Bytes} {e : Error}
    (h : declaredDictionary methodId properties = .error e) : Skippable e := by
  have hlzma : ∀ e, lzmaDictionary properties = .error e → Skippable e := by
    unfold lzmaDictionary
    grind
  have hlzma2 : ∀ e, lzma2Dictionary properties = .error e → Skippable e := by
    unfold lzma2Dictionary
    grind
  have hmap : ∀ {α : Type} {x : Except Error α} {g : α → Option Nat} {e : Error},
      g <$> x = .error e → x = .error e := by
    intro α x g e h
    cases x with
    | error e' => simpa using h
    | ok a => exact absurd h (by simp)
  unfold declaredDictionary at h
  split at h
  · exact hlzma e (hmap h)
  split at h
  · exact hlzma2 e (hmap h)
  split at h
  · exact skippable_ppmdProperties (hmap h)
  · grind

@[grind ←] theorem skips_checkAesProperties (properties : Bytes) (limits : Limits) :
    Skips (checkAesProperties properties limits) := by
  grind [checkAesProperties, skips_limit]

@[grind ←] theorem skips_validateCoderProperties (methodId properties : Bytes) (limits : Limits) :
    Skips (validateCoderProperties methodId properties limits) := by
  have hdictionary : Skips (ofExcept (declaredDictionary methodId properties)) :=
    skips_ofExcept fun _ => skippable_declaredDictionary
  grind [validateCoderProperties]

@[grind ←] theorem skips_addDictionary (total : Nat) (dictionary : Option Nat) (limits : Limits) :
    Skips (Validate.addDictionary total dictionary limits) := by
  cases dictionary with
  | none => grind [Validate.addDictionary]
  | some bytes => grind [Validate.addDictionary]

@[grind ←] theorem skips_validateCoder (raw : RawCoder) (totals : Validate.CoderTotals)
    (limits : Limits) : Skips (Validate.validateCoder raw totals limits) := by
  refine (skips_checkpoint 1).bind fun _ => (skips_validateCoderProperties _ _ _).bind
    fun dictionary => (skips_addDictionary _ _ _).bind fun dictionaryBytes => ?_
  grind

@[grind ←] theorem skips_validateCoders (limits : Limits) (coders : List RawCoder) :
    ∀ totals, Skips (Validate.validateCoders limits coders totals) := by
  induction coders with
  | nil => grind [Validate.validateCoders]
  | cons coder coders ih => grind [Validate.validateCoders]

/-! ### Coder graphs -/

@[grind ←] theorem skips_ownerForPort (owners : List Nat) (index : Nat) (detail : String) :
    Skips (Graph.ownerForPort owners index detail) := by
  grind [Graph.ownerForPort]

@[grind ←] theorem skips_markPort (used : List Bool) (index : Nat) (range duplicate : String) :
    Skips (Graph.markPort used index range duplicate) := by
  grind [Graph.markPort]

@[grind ←] theorem skips_validateBindPair (raw : RawBindPair) (inputUsed outputUsed : List Bool) :
    Skips (Graph.validateBindPair raw inputUsed outputUsed) := by
  grind [Graph.validateBindPair]

@[grind ←] theorem skips_validateBindPairs (pairs : List RawBindPair) :
    ∀ inputUsed outputUsed, Skips (Graph.validateBindPairs pairs inputUsed outputUsed) := by
  induction pairs with
  | nil => grind [Graph.validateBindPairs]
  | cons pair pairs ih => grind [Graph.validateBindPairs]

@[grind ←] theorem skips_collectEdges (inputOwners outputOwners : List Nat)
    (pairs : List RawBindPair) :
    ∀ indegree, Skips (Graph.collectEdges inputOwners outputOwners pairs indegree) := by
  induction pairs with
  | nil => grind [Graph.collectEdges]
  | cons pair pairs ih => grind [Graph.collectEdges]

@[grind ←] theorem skips_relaxEdges (coder : Nat) (edges : List (Nat × Nat)) :
    ∀ indegree, Skips (Graph.relaxEdges coder edges indegree) := by
  induction edges with
  | nil => grind [Graph.relaxEdges]
  | cons edge edges ih => grind [Graph.relaxEdges]

@[grind ←] theorem skips_kahn (edges : List (Nat × Nat)) (fuel : Nat) :
    ∀ queue indegree, Skips (Graph.kahn edges fuel queue indegree) := by
  induction fuel with
  | zero =>
      intro queue indegree
      cases queue with
      | nil => grind [Graph.kahn]
      | cons coder queue => grind [Graph.kahn]
  | succ fuel ih =>
      intro queue indegree
      cases queue with
      | nil => grind [Graph.kahn]
      | cons coder queue => grind [Graph.kahn]

@[grind ←] theorem skips_topologicalOrder (coderCount : Nat) (inputOwners outputOwners : List Nat)
    (pairs : List RawBindPair) :
    Skips (Graph.topologicalOrder coderCount inputOwners outputOwners pairs) := by
  grind [Graph.topologicalOrder]

@[grind ←] theorem skips_collectOwners (coders : List RawCoder) :
    ∀ coderIndex, Skips (Graph.collectOwners coderIndex coders) := by
  induction coders with
  | nil => grind [Graph.collectOwners]
  | cons coder coders ih => grind [Graph.collectOwners]

@[grind ←] theorem skips_findRoot (bound : List Bool) :
    ∀ index rootOutput, Skips (Graph.findRoot index bound rootOutput) := by
  induction bound with
  | nil => grind [Graph.findRoot]
  | cons b bound ih => grind [Graph.findRoot]

@[grind ←] theorem skips_packedIndices (raw : RawFolder) (inputUsed : List Bool) :
    Skips (Graph.packedIndices raw inputUsed) := by
  grind [Graph.packedIndices]

@[grind ←] theorem skips_markPacked (inputUsed : List Bool) (indices : List Nat) :
    ∀ packedUsed, Skips (Graph.markPacked inputUsed indices packedUsed) := by
  induction indices with
  | nil => grind [Graph.markPacked]
  | cons index indices ih => grind [Graph.markPacked]

@[grind ←] theorem skips_checkPartition (inputUsed packedUsed : List Bool) :
    Skips (Graph.checkPartition inputUsed packedUsed) := by
  grind [Graph.checkPartition]

@[grind ←] theorem skips_validateFolderGraph (raw : RawFolder) :
    Skips (Graph.validateFolderGraph raw) := by
  refine .bind (by grind) fun portCount => (skips_checkpoint _).bind fun _ =>
    (skips_collectOwners _ 0).bind fun owners => .ite (by grind) ?_
  refine (skips_validateBindPairs _ _ _).bind fun used => .bind (by grind) fun rootOutput =>
    .bind (by grind) fun rootOutputIndex => (skips_packedIndices raw _).bind fun packed => ?_
  grind


@[grind ←] theorem skips_mapWork {α β : Type} {f : α → Work β} (h : ∀ x, Skips (f x))
    (items : List α) : Skips (Validate.mapWork f items) := by
  induction items with
  | nil => grind [Validate.mapWork]
  | cons x items ih => grind [Validate.mapWork]

@[grind ←] theorem skips_copyProperties (properties : List RawProperty) :
    Skips (Validate.copyProperties properties) := by
  refine (skips_checkpoint _).bind fun _ => skips_mapWork (fun property => ?_) properties
  exact (skips_copyBytes property.data).map

@[grind ←] theorem skips_valueAt {α : Type} (values : Option (List α)) (index : Nat)
    (detail : String) : Skips (Validate.valueAt values index detail) := by
  cases values with
  | none => exact .pure none
  | some items => exact (skips_orFormat _ _).map

@[grind ←] theorem skips_validateFolder (raw : RawFolder) (crc : Option UInt32)
    (firstPackStream : Nat) (limits : Limits) :
    Skips (Validate.validateFolder raw crc firstPackStream limits) := by
  grind [Validate.validateFolder]

@[grind ←] theorem skips_validateFolders (crcs : Option (List (Option UInt32))) (limits : Limits)
    (folders : List RawFolder) :
    ∀ index assigned, Skips (Validate.validateFolders crcs limits index folders assigned) := by
  induction folders with
  | nil => grind [Validate.validateFolders]
  | cons folder folders ih => grind [Validate.validateFolders]

@[grind ←] theorem skips_takeSize (sizes : Option (List Nat)) (totals : Validate.SizeTotals) :
    Skips (Validate.takeSize sizes totals) := by
  cases sizes with
  | none => grind [Validate.takeSize]
  | some values => grind [Validate.takeSize]

@[grind ←] theorem skips_takeSizes (sizes : Option (List Nat)) (count : Nat) :
    ∀ totals, Skips (Validate.takeSizes sizes count totals) := by
  induction count with
  | zero => grind [Validate.takeSizes]
  | succ count ih => grind [Validate.takeSizes]

@[grind ←] theorem skips_finalSize (rootSize : Option Nat) (sizes : Option (List Nat))
    (totals : Validate.SizeTotals) : Skips (Validate.finalSize rootSize sizes totals) := by
  unfold Validate.finalSize
  grind

@[grind ←] theorem skips_substreamSizes (rootSize : Option Nat) (count : Nat)
    (sizes : Option (List Nat)) (cursor : Nat) :
    Skips (Validate.substreamSizes rootSize count sizes cursor) := by
  grind [Validate.substreamSizes]

@[grind ←] theorem skips_takeCrc (inherited : Option UInt32) (crcs : Option (List (Option UInt32)))
    (cursor : Nat) : Skips (Validate.takeCrc inherited crcs cursor) := by
  unfold Validate.takeCrc
  grind

@[grind ←] theorem skips_attachCrcs (inherited : Option UInt32)
    (crcs : Option (List (Option UInt32))) (sizes : List (Option Nat)) :
    ∀ cursor, Skips (Validate.attachCrcs inherited crcs sizes cursor) := by
  induction sizes with
  | nil => grind [Validate.attachCrcs]
  | cons size sizes ih => grind [Validate.attachCrcs]

@[grind ←] theorem skips_buildSubstreams (draft : Validate.FolderDraft) (count : Nat)
    (sizes : Option (List Nat)) (sizeCursor : Nat) (crcs : Option (List (Option UInt32)))
    (crcCursor : Nat) :
    Skips (Validate.buildSubstreams draft count sizes sizeCursor crcs crcCursor) := by
  grind [Validate.buildSubstreams]

@[grind ←] theorem skips_validatePackStreams (crcs : Option (List (Option UInt32)))
    (envelope : HeaderEnvelope) (archiveBytes : Bytes) (sizes : List Nat) : ∀ index offset,
      Skips (Validate.validatePackStreams crcs envelope archiveBytes index sizes offset) := by
  induction sizes with
  | nil => grind [Validate.validatePackStreams]
  | cons size sizes ih => grind [Validate.validatePackStreams]

@[grind ←] theorem skips_validatePackRanges (pack : Option RawPackInfo) (envelope : HeaderEnvelope)
    (archiveBytes : Bytes) (ranges : List (Nat × Nat)) :
    Skips (Validate.validatePackRanges pack envelope archiveBytes ranges) := by
  cases pack with
  | none => grind [Validate.validatePackRanges]
  | some pack => grind [Validate.validatePackRanges]

@[grind ←] theorem skips_assignSubstreams (counts : List Nat) (sizes : Option (List Nat))
    (crcs : Option (List (Option UInt32))) (limits : Limits)
    (drafts : List Validate.FolderDraft) : ∀ index cursors,
      Skips (Validate.assignSubstreams counts sizes crcs limits index drafts cursors) := by
  induction drafts with
  | nil => grind [Validate.assignSubstreams]
  | cons draft drafts ih =>
      intro index cursors
      have hcount : Skips (Validate.substreamCount counts index) := by
        grind [Validate.substreamCount]
      refine hcount.bind fun count => .bind (by grind) fun total => .bind (by grind) fun _ => ?_
      grind

@[grind ←] theorem skips_validateStreams (raw : RawStreamsInfo) (envelope : HeaderEnvelope)
    (archiveBytes : Bytes) (limits : Limits) (ranges : List (Nat × Nat)) :
    Skips (Validate.validateStreams raw envelope archiveBytes limits ranges) := by
  have hpacked : ∀ pack unpack, Skips (Validate.validatePackedStreams pack unpack raw.substreams
      envelope archiveBytes limits ranges) := by
    intro pack unpack
    refine (skips_validatePackRanges _ _ _ _).bind fun packed => .ite (by grind) ?_
    refine (skips_checkpoint _).bind fun _ => (skips_validateFolders _ _ _ _ _).bind fun drafts => ?_
    grind
  unfold Validate.validateStreams
  grind


@[grind ←] theorem skips_checkNonOverlappingRanges (ranges : List (Nat × Nat)) :
    Skips (Validate.checkNonOverlappingRanges ranges) := by
  grind [Validate.checkNonOverlappingRanges]

@[grind ←] theorem skips_validateDataIndex (dataIndex additionalCount : Nat) :
    Skips (Validate.validateDataIndex dataIndex additionalCount) := by
  grind [Validate.validateDataIndex]

/-! ### Files -/

@[grind ←] theorem skips_readU64 : SkipsReading Validate.readU64 := by
  grind [Validate.readU64]

@[grind ←] theorem skips_readDefined {α : Type} {readValue : Reads α} (h : SkipsReading readValue)
    (defined : List Bool) : SkipsReading (Validate.readDefined readValue defined) := by
  induction defined with
  | nil => grind [Validate.readDefined]
  | cons isDefined defined ih => grind [Validate.readDefined]

@[grind ←] theorem skips_parseDefinedValues {α : Type} {readValue : Reads α}
    (h : SkipsReading readValue) (data : Bytes) (count : Nat) :
    Skips (Validate.parseDefinedValues data count readValue) := by
  have hbits : SkipsReading (Validate.parseOptionalBits count) := by
    grind [Validate.parseOptionalBits]
  grind [Validate.parseDefinedValues]

@[grind ←] theorem skips_folderMappings (folderIndex : Nat) (streams : List Substream) :
    ∀ index, Skips (Validate.folderMappings folderIndex index streams) := by
  induction streams with
  | nil => grind [Validate.folderMappings]
  | cons stream streams ih => grind [Validate.folderMappings]

@[grind ←] theorem skips_foldersMappings (folders : List Folder) :
    ∀ index, Skips (Validate.foldersMappings index folders) := by
  induction folders with
  | nil => grind [Validate.foldersMappings]
  | cons folder folders ih => grind [Validate.foldersMappings]

@[grind ←] theorem skips_collectStreamMappings (streams : Option StreamsInfo) :
    Skips (Validate.collectStreamMappings streams) := by
  grind [Validate.collectStreamMappings]

@[grind ←] theorem skips_readCodeUnit : SkipsReading Validate.readCodeUnit := by
  grind [Validate.readCodeUnit]

@[grind ←] theorem skips_countCodeUnit (codeUnit : UInt16) (totals : Validate.NameTotals)
    (limits : Limits) : Skips (Validate.countCodeUnit codeUnit totals limits) := by
  grind [Validate.countCodeUnit]

@[grind ←] theorem skips_scanNames (count : Nat) (limits : Limits) (fuel : Nat) :
    ∀ totals, SkipsReading (Validate.scanNames count limits fuel totals) := by
  induction fuel with
  | zero => grind [Validate.scanNames]
  | succ fuel ih => grind [Validate.scanNames]

@[grind ←] theorem skips_readName (fuel : Nat) : SkipsReading (Validate.readName fuel) := by
  induction fuel with
  | zero => grind [Validate.readName]
  | succ fuel ih => grind [Validate.readName]

@[grind ←] theorem skips_readNames (count : Nat) : SkipsReading (Validate.readNames count) :=
  skips_readMany (fun reader => skips_readName _ reader) count

@[grind ←] theorem skips_parseNames (data : Bytes) (count : Nat) (limits : Limits) :
    Skips (Validate.parseNames data count limits) := by
  grind [Validate.parseNames]

@[grind ←] theorem skips_sortProperty (slots : Validate.PropertySlots) (property : RawProperty) :
    Skips (Validate.sortProperty slots property) := by
  have hslot : ∀ slot (put : Option RawProperty → Validate.PropertySlots),
      Skips (Validate.knownPropertySlot slot property >>= fun value => pure (put value)) := by
    grind [Validate.knownPropertySlot]
  refine .ite (hslot _ _) (.ite (hslot _ _) (.ite (hslot _ _) (.ite (hslot _ _)
    (.ite (hslot _ _) (.ite (hslot _ _) (.ite (hslot _ _) (.ite (hslot _ _)
    (.ite (hslot _ _) ?_))))))))
  grind

@[grind ←] theorem skips_sortProperties (properties : List RawProperty) :
    ∀ slots, Skips (Validate.sortProperties properties slots) := by
  induction properties with
  | nil => grind [Validate.sortProperties]
  | cons property properties ih => grind [Validate.sortProperties]

@[grind ←] theorem skips_plainBits (slot : Option RawProperty) (count : Nat) :
    Skips (Validate.plainBits slot count) := by
  cases slot with
  | none => grind [Validate.plainBits]
  | some property => grind [Validate.plainBits, Validate.parsePlainBits]

@[grind ←] theorem skips_applyExternal {α : Type} (propertyId : UInt8)
    (values : Validate.PropertyValues α) (additionalCount : Nat)
    (external : List ExternalProperty) :
    Skips (Validate.applyExternal propertyId values additionalCount external) := by
  cases values with
  | inline values => grind [Validate.applyExternal]
  | external dataIndex defined => grind [Validate.applyExternal]

@[grind ←] theorem skips_propertyVector {α : Type} {parse : Bytes → Work (Validate.PropertyValues α)}
    (h : ∀ data, Skips (parse data)) (propertyId : UInt8) (slot : Option RawProperty)
    (additionalCount : Nat) (external : List ExternalProperty) :
    Skips (Validate.propertyVector propertyId slot parse additionalCount external) := by
  cases slot with
  | none => grind [Validate.propertyVector]
  | some property => grind [Validate.propertyVector]

@[grind ←] theorem skips_parseFileVectors (slots : Validate.PropertySlots)
    (count additionalCount : Nat) (limits : Limits) :
    Skips (Validate.parseFileVectors slots count additionalCount limits) := by
  have htimes : ∀ data, Skips (Validate.parseDefinedValues data count Validate.readU64) :=
    fun data => skips_parseDefinedValues skips_readU64 data count
  refine (skips_propertyVector (fun data => skips_parseNames data count limits) _ _ _ _).bind
    fun _ => (skips_propertyVector htimes _ _ _ _).bind
    fun _ => (skips_propertyVector htimes _ _ _ _).bind
    fun _ => (skips_propertyVector htimes _ _ _ _).bind fun _ => ?_
  grind

@[grind ←] theorem skips_parseFileBits (slots : Validate.PropertySlots) (count : Nat) :
    Skips (Validate.parseFileBits slots count) := by
  grind [Validate.parseFileBits]

@[grind ←] theorem skips_buildFile (bits : Validate.FileBits) (vectors : Validate.FileVectors)
    (mappings : List FileStream) (fileIndex : Nat) (cursors : Validate.FileCursors) :
    Skips (Validate.buildFile bits vectors mappings fileIndex cursors) := by
  have hempty : ∀ isEmpty cursors, Skips (Validate.emptyBits bits isEmpty cursors) := by
    grind [Validate.emptyBits]
  have hstream : ∀ isEmpty cursors, Skips (Validate.fileStream mappings isEmpty cursors) := by
    grind [Validate.fileStream]
  refine (skips_checkpoint 1).bind fun _ => (skips_orFormat _ _).bind fun isEmpty =>
    (hempty isEmpty _).bind fun empty => (hstream isEmpty _).bind fun stream =>
    (skips_valueAt _ _ _).bind fun name => (skips_valueAt _ _ _).bind fun creation => ?_
  grind

@[grind ←] theorem skips_buildFiles (bits : Validate.FileBits) (vectors : Validate.FileVectors)
    (mappings : List FileStream) (count : Nat) :
    ∀ index cursors, Skips (Validate.buildFiles bits vectors mappings count index cursors) := by
  induction count with
  | zero => grind [Validate.buildFiles]
  | succ count ih => grind [Validate.buildFiles]

@[grind ←] theorem skips_validateFiles (raw : RawFilesInfo) (main additional : Option StreamsInfo)
    (limits : Limits) : Skips (Validate.validateFiles raw main additional limits) := by
  refine (skips_checkpoint _).bind fun _ => (skips_sortProperties _ _).bind fun slots =>
    (skips_parseFileBits slots _).bind fun bits => (skips_parseFileVectors slots _ _ _).bind
    fun vectors => (skips_collectStreamMappings main).bind fun mappings => ?_
  grind

/-! ### Candidates -/

@[grind ←] theorem skips_validatePlainHeader (raw : RawHeader) (envelope : HeaderEnvelope)
    (archiveBytes : Bytes) (limits : Limits) :
    Skips (Validate.validatePlainHeader raw envelope archiveBytes limits) := by
  have hsection : ∀ raw ranges, Skips (Validate.validateStreamsSection raw envelope archiveBytes
      limits ranges) := by
    intro raw ranges
    cases raw with
    | none => grind [Validate.validateStreamsSection]
    | some streams => grind [Validate.validateStreamsSection]
  have hfiles : ∀ raw main additional, Skips (Validate.validateFilesSection raw main additional
      limits) := by
    intro raw main additional
    cases raw with
    | none => grind [Validate.validateFilesSection]
    | some files => grind [Validate.validateFilesSection]
  grind [Validate.validatePlainHeader]

@[grind ←] theorem skips_validatePendingHeader (pending : RawExternalFolderHeader)
    (envelope : HeaderEnvelope) (archiveBytes : Bytes) (limits : Limits) :
    Skips (Validate.validatePendingHeader pending envelope archiveBytes limits) := by
  grind [Validate.validatePendingHeader]

@[grind ←] theorem skips_validateNextHeader (raw : RawNextHeader) (envelope : HeaderEnvelope)
    (archiveBytes : Bytes) (limits : Limits) :
    Skips (Validate.validateNextHeader raw envelope archiveBytes limits) := by
  cases raw with
  | header header => grind [Validate.validateNextHeader]
  | encoded streams => grind [Validate.validateNextHeader]
  | externalFolders pending => grind [Validate.validateNextHeader]

@[grind ←] theorem skips_parseSignatureFields : SkipsReading parseSignatureFields := by
  refine (skips_readBytes 6).bind fun read => .ite (by grind) (skips_readU8.bind fun major => ?_)
  refine skips_readU8.bind fun minor => skips_readU32Le.bind fun startCrc => ?_
  grind

@[grind ←] theorem skips_parseRawSignatureHeader (bytes : Bytes) :
    Skips (parseRawSignatureHeader bytes) :=
  Metered.FailsIn.map (skips_parseExact skips_parseSignatureFields _)

@[grind ←] theorem skips_nextHeaderKind (nextHeader : Bytes) : Skips (nextHeaderKind nextHeader) := by
  cases nextHeader with
  | nil => grind [nextHeaderKind]
  | cons id rest => grind [nextHeaderKind]

@[grind ←] theorem skips_parseCandidate (bytes : Bytes) (offset : Nat) (limits : Limits) :
    Skips (parseCandidate bytes offset limits) := by
  refine (skips_checkpoint _).bind fun _ => (skips_checkedRange _ _ _ _ _).bind fun candidate =>
    (skips_parseRawSignatureHeader candidate).bind fun raw => (skips_checkedRange _ _ _ _ _).bind
    fun startFields => (skips_checksum _).bind fun startCrc => .ite (by grind) (.ite (by grind) ?_)
  refine .ite (skips_limit (by decide) (by decide) _ _) ?_
  refine .bind (by grind) fun afterFixed => .bind (by grind) fun nextHeaderOffset => ?_
  grind

/-- **Nothing that is wrong with a candidate** ends the scan. -/
theorem skips_validatedCandidate (bytes : Bytes) (offset : Nat) (limits : Limits) :
    Skips (validatedCandidate bytes offset limits) := by
  refine (skips_parseCandidate bytes offset limits).bind fun envelope =>
    (skips_checkedRange _ _ _ _ _).bind fun nextHeader => ?_
  grind [Raw.parseNextHeader]

end Parser

end Un7z
