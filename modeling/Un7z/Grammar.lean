/-
The next-header grammar, written as languages.

This is the format as a writer sees it, not as the parser reads it: for each record,
the set of byte words that may stand for it.  A sequence of sections is a product of
languages and a choice is a sum.  The choices are the width of each integer, the
spelled-out or all-defined form of a digest vector, the bits that pad a bit vector to
whole bytes, the flags a coder need not set, and the substream counts that go without
saying.

The counts a header repeats must agree, which is `WellCounted`, and its sizes must stay
within the limits, which is `WithinLimits`.  The running totals of the parser are
sums over the header, so what a header adds to them is its `totals`.
-/
import Mathlib.Algebra.GroupWithZero.Nat
import Mathlib.Computability.Language
import Un7z.Raw

namespace Un7z

/-! ### Words of the format -/

namespace Grammar

def byte (b : UInt8) : Language UInt8 := {[b]}

def raw (bytes : Bytes) : Language UInt8 := {bytes}

/-- The `width` low bytes of a value, least significant first. -/
def leBytes : Nat → Nat → Bytes
  | 0, _ => []
  | width + 1, value => UInt8.ofNat (value % 256) :: leBytes width (value / 256)

/-- What a word with `width` bytes after the first can hold. -/
def uintLimit (width : Nat) : Nat := if width < 8 then 2 ^ (7 * width + 7) else 2 ^ 64

/-- The word of `width + 1` bytes for a value: a first byte of leading ones and high bits. -/
def uintWord (width value : Nat) : Bytes :=
  UInt8.ofNat (256 - 2 ^ (8 - width) + value / 256 ^ width) :: leBytes width value

/-- An integer, in any width that holds it. -/
def uint (value : Nat) : Language UInt8 :=
  {word | ∃ width ≤ 8, value < uintLimit width ∧ word = uintWord width value}

def uints (values : List Nat) : Language UInt8 := (values.map uint).prod

def u32 (value : UInt32) : Language UInt8 := raw (leBytes 4 value.toNat)

/-- Bit `i` of a word, the most significant bit of a byte first. -/
def bitAt (word : Bytes) (i : Nat) : Bool := (word[i / 8]?.getD 0).toNat.testBit (7 - i % 8)

/-- As many bytes as the bits need; the bits after the last one may be anything. -/
def bits (values : List Bool) : Language UInt8 :=
  {word | word.length = (values.length + 7) / 8 ∧
    ∀ i (h : i < values.length), bitAt word i = values[i]}

def nonzeroByte : Language UInt8 := {word | ∃ flag ≠ 0, word = [flag]}

/-- Which digests are defined: a flag if all of them are, or one bit for each. -/
def definedness (defined : List Bool) : Language UInt8 :=
  (if defined.all id then nonzeroByte else 0) + byte 0 * bits defined

def digests (values : List (Option UInt32)) : Language UInt8 :=
  definedness (values.map Option.isSome) * ((values.filterMap id).map u32).prod

/-- A section that is announced by its identifier if it is there. -/
def announced {α : Type} (id : UInt8) (value : Option α) (body : α → Language UInt8) :
    Language UInt8 :=
  match value with
  | some a => byte id * body a
  | none => 1

def packInfo (info : RawPackInfo) : Language UInt8 :=
  uint info.position * uint info.streams * announced idSize info.sizes uints *
    announced idCrc info.crcs digests * byte idEnd

/-- The first byte of a coder. -/
def coderFlags (methodLength : Nat) (complex attributes : Bool) : UInt8 :=
  UInt8.ofNat (methodLength + (if complex then 0x10 else 0) + if attributes then 0x20 else 0)

/-- A coder; a simple one may leave its stream counts out, and one may leave empty properties out. -/
def coder (c : RawCoder) : Language UInt8 :=
  {word | ∃ complex attributes : Bool,
    (complex = false → c.inputStreams = 1 ∧ c.outputStreams = 1) ∧
    (attributes = false → c.properties = []) ∧
    word ∈ byte (coderFlags c.methodId.length complex attributes) * raw c.methodId *
      (if complex then uint c.inputStreams * uint c.outputStreams else 1) *
      (if attributes then uint c.properties.length * raw c.properties else 1)}

def bindPair (pair : RawBindPair) : Language UInt8 := uint pair.input * uint pair.output

/-- Packed indices are listed only if there are several. -/
def packedIndices (indices : Option (List Nat)) : Language UInt8 :=
  match indices with
  | some values => uints values
  | none => 1

def folder (f : RawFolder) : Language UInt8 :=
  uint f.coders.length * (f.coders.map coder).prod * (f.bindPairs.map bindPair).prod *
    packedIndices f.packedIndices

def unpackInfo (info : RawUnpackInfo) : Language UInt8 :=
  byte idFolder * uint info.folders.length * byte 0 * (info.folders.map folder).prod *
    byte idCodersUnpackSize * (info.folders.map fun f => uints f.unpackSizes).prod *
    announced idCrc info.crcs digests * byte idEnd

/-- Substream counts; one for every folder goes without saying. -/
def substreamCounts (counts : List Nat) : Language UInt8 :=
  byte idNumUnpackStream * uints counts + if ∀ count ∈ counts, count = 1 then 1 else 0

def substreamsInfo (info : RawSubstreamsInfo) : Language UInt8 :=
  substreamCounts info.counts * announced idSize info.explicitSizes uints *
    announced idCrc info.crcs digests * byte idEnd

def streamsInfo (info : RawStreamsInfo) : Language UInt8 :=
  announced idPackInfo info.pack packInfo * announced idUnpackInfo info.unpack unpackInfo *
    announced idSubstreamsInfo info.substreams substreamsInfo * byte idEnd

def property (p : RawProperty) : Language UInt8 :=
  byte p.id * uint p.data.length * raw p.data

def propertyList (properties : List RawProperty) : Language UInt8 :=
  (properties.map property).prod * byte idEnd

/-- Archive properties; an empty list of them may be left out. -/
def archiveProperties (properties : List RawProperty) : Language UInt8 :=
  byte idArchiveProperties * propertyList properties + if properties = [] then 1 else 0

def filesInfo (info : RawFilesInfo) : Language UInt8 :=
  uint info.count * propertyList info.properties

def headerBody (header : RawHeader) : Language UInt8 :=
  archiveProperties header.archiveProperties *
    announced idAdditionalStreamsInfo header.additionalStreams streamsInfo *
    announced idMainStreamsInfo header.mainStreams streamsInfo *
    announced idFilesInfo header.files filesInfo * byte idEnd

/-- The words of a header that is stored in one piece. -/
def nextHeader (next : RawNextHeader) : Language UInt8 :=
  match next with
  | .header header => byte idHeader * headerBody header
  | .encoded streams => byte idEncodedHeader * streamsInfo streams
  | .externalFolders _ => 0

end Grammar

/-! ### Counts that agree -/

structure RawPackInfo.WellCounted (info : RawPackInfo) : Prop where
  streams_ne : info.streams ≠ 0
  sizes : ∀ sizes ∈ info.sizes, sizes.length = info.streams
  crcs : ∀ crcs ∈ info.crcs, crcs.length = info.streams

structure RawCoder.WellCounted (c : RawCoder) : Prop where
  methodId_ne : c.methodId ≠ []
  methodId_le : c.methodId.length ≤ 15
  input_ne : c.inputStreams ≠ 0
  output_ne : c.outputStreams ≠ 0

structure RawFolder.WellCounted (f : RawFolder) : Prop where
  coders_ne : f.coders ≠ []
  coders : ∀ c ∈ f.coders, c.WellCounted
  inputStreams : f.inputStreams = (f.coders.map (·.inputStreams)).sum
  outputStreams : f.outputStreams = (f.coders.map (·.outputStreams)).sum
  output_le : f.outputStreams ≤ f.inputStreams
  bindPairs : f.bindPairs.length + 1 = f.outputStreams
  packedStreams : f.packedStreams + f.bindPairs.length = f.inputStreams
  packedIndices : f.packedIndices.isNone ↔ f.packedStreams = 1
  packedIndices_length : ∀ indices ∈ f.packedIndices, indices.length = f.packedStreams
  unpackSizes : f.unpackSizes.length = f.outputStreams

structure RawUnpackInfo.WellCounted (info : RawUnpackInfo) : Prop where
  folders_ne : info.folders ≠ []
  folders : ∀ f ∈ info.folders, f.WellCounted
  crcs : ∀ crcs ∈ info.crcs, crcs.length = info.folders.length

/-- The substreams that carry a digest of their own: not those that take their folder's. -/
def digestCount (folderCrcs : Option (List (Option UInt32))) : Nat → List Nat → Nat
  | _, [] => 0
  | folderIndex, count :: counts =>
      (if count = 1 ∧ (Raw.inheritedCrc folderCrcs folderIndex).isSome then 0 else count) +
        digestCount folderCrcs (folderIndex + 1) counts

structure RawSubstreamsInfo.WellCounted (info : RawSubstreamsInfo) (unpack : RawUnpackInfo) :
    Prop where
  counts : info.counts.length = unpack.folders.length
  explicitSizes : ∀ sizes ∈ info.explicitSizes, sizes.length = (info.counts.map (· - 1)).sum
  crcs_ne : ∀ crcs ∈ info.crcs, crcs ≠ []
  crcs : ∀ crcs ∈ info.crcs, crcs.length = digestCount unpack.crcs 0 info.counts

structure RawStreamsInfo.WellCounted (info : RawStreamsInfo) : Prop where
  pack : ∀ pack ∈ info.pack, pack.WellCounted
  unpack : ∀ unpack ∈ info.unpack, unpack.WellCounted
  substreams : ∀ substreams ∈ info.substreams,
    ∃ unpack, info.unpack = some unpack ∧ substreams.WellCounted unpack

structure RawHeader.WellCounted (header : RawHeader) : Prop where
  archiveProperties : ∀ p ∈ header.archiveProperties, p.id ≠ idEnd
  additionalStreams : ∀ streams ∈ header.additionalStreams, streams.WellCounted
  mainStreams : ∀ streams ∈ header.mainStreams, streams.WellCounted
  files : ∀ files ∈ header.files, ∀ p ∈ files.properties, p.id ≠ idEnd

def RawNextHeader.WellCounted : RawNextHeader → Prop
  | .header plain => plain.WellCounted
  | .encoded streams => streams.WellCounted
  | .externalFolders _ => False

/-! ### Totals and limits -/

namespace ParseState

instance : Zero ParseState := ⟨{}⟩

instance : Add ParseState where
  add a b := {
    totalFolders := a.totalFolders + b.totalFolders
    totalCoders := a.totalCoders + b.totalCoders
    totalStreams := a.totalStreams + b.totalStreams
    totalPackedStreams := a.totalPackedStreams + b.totalPackedStreams
    totalSubstreams := a.totalSubstreams + b.totalSubstreams
    totalProperties := a.totalProperties + b.totalProperties }

section

variable (a b : ParseState)

@[simp] theorem add_totalFolders : (a + b).totalFolders = a.totalFolders + b.totalFolders := rfl

@[simp] theorem add_totalCoders : (a + b).totalCoders = a.totalCoders + b.totalCoders := rfl

@[simp] theorem add_totalStreams : (a + b).totalStreams = a.totalStreams + b.totalStreams := rfl

@[simp] theorem add_totalPackedStreams :
    (a + b).totalPackedStreams = a.totalPackedStreams + b.totalPackedStreams := rfl

@[simp] theorem add_totalSubstreams :
    (a + b).totalSubstreams = a.totalSubstreams + b.totalSubstreams := rfl

@[simp] theorem add_totalProperties :
    (a + b).totalProperties = a.totalProperties + b.totalProperties := rfl

end

instance : AddCommMonoid ParseState where
  add_assoc _ _ _ := ParseState.ext (Nat.add_assoc ..) (Nat.add_assoc ..) (Nat.add_assoc ..)
    (Nat.add_assoc ..) (Nat.add_assoc ..) (Nat.add_assoc ..)
  zero_add _ := ParseState.ext (Nat.zero_add _) (Nat.zero_add _) (Nat.zero_add _)
    (Nat.zero_add _) (Nat.zero_add _) (Nat.zero_add _)
  add_zero _ := rfl
  add_comm _ _ := ParseState.ext (Nat.add_comm ..) (Nat.add_comm ..) (Nat.add_comm ..)
    (Nat.add_comm ..) (Nat.add_comm ..) (Nat.add_comm ..)
  nsmul := nsmulRec

/-- No running total is above its limit, or too large to be counted. -/
structure Fits (state : ParseState) (limits : Limits) : Prop where
  folders : state.totalFolders ≤ limits.maxFolders ∧ state.totalFolders < 2 ^ 64
  coders : state.totalCoders ≤ limits.maxTotalCoders ∧ state.totalCoders < 2 ^ 64
  streams : state.totalStreams ≤ limits.maxTotalStreams ∧ state.totalStreams < 2 ^ 64
  packedStreams : state.totalPackedStreams ≤ limits.maxTotalStreams ∧
    state.totalPackedStreams < 2 ^ 64
  substreams : state.totalSubstreams ≤ limits.maxSubstreams ∧ state.totalSubstreams < 2 ^ 64
  properties : state.totalProperties ≤ limits.maxHeaderProperties ∧
    state.totalProperties < 2 ^ 64

end ParseState

def RawPackInfo.totals (info : RawPackInfo) : ParseState := { totalPackedStreams := info.streams }

def RawFolder.totals (f : RawFolder) : ParseState :=
  { totalCoders := f.coders.length, totalStreams := f.inputStreams + f.outputStreams }

def RawUnpackInfo.totals (info : RawUnpackInfo) : ParseState :=
  { totalFolders := info.folders.length } + (info.folders.map (·.totals)).sum

/-- The substreams of a section: the counts, or one for every folder if there are none. -/
def RawStreamsInfo.substreamTotals (info : RawStreamsInfo) : ParseState :=
  match info.substreams, info.unpack with
  | some substreams, _ => { totalSubstreams := substreams.counts.sum }
  | none, some unpack => { totalSubstreams := unpack.folders.length }
  | none, none => 0

def RawStreamsInfo.totals (info : RawStreamsInfo) : ParseState :=
  (info.pack.map (·.totals)).getD 0 + (info.unpack.map (·.totals)).getD 0 + info.substreamTotals

def propertyTotals (properties : List RawProperty) : ParseState :=
  { totalProperties := properties.length }

def RawHeader.totals (header : RawHeader) : ParseState :=
  propertyTotals header.archiveProperties +
    (header.additionalStreams.map (·.totals)).getD 0 +
    (header.mainStreams.map (·.totals)).getD 0 +
    (header.files.map fun files => propertyTotals files.properties).getD 0

def RawNextHeader.totals : RawNextHeader → ParseState
  | .header plain => plain.totals
  | .encoded streams => streams.totals
  | .externalFolders _ => 0

/-- The limits on one folder. -/
structure RawFolder.WithinLimits (f : RawFolder) (limits : Limits) : Prop where
  coders : f.coders.length ≤ limits.maxCodersPerFolder
  properties : ∀ c ∈ f.coders, c.properties.length ≤ limits.maxCoderPropertyBytes
  streams : f.inputStreams + f.outputStreams ≤ limits.maxStreamsPerFolder

def RawStreamsInfo.WithinLimits (info : RawStreamsInfo) (limits : Limits) : Prop :=
  ∀ unpack ∈ info.unpack, ∀ f ∈ unpack.folders, f.WithinLimits limits

def propertiesWithinLimits (properties : List RawProperty) (limits : Limits) : Prop :=
  ∀ p ∈ properties, p.data.length ≤ limits.maxHeaderBytes

structure RawHeader.WithinLimits (header : RawHeader) (limits : Limits) : Prop where
  archiveProperties : propertiesWithinLimits header.archiveProperties limits
  additionalStreams : ∀ streams ∈ header.additionalStreams, streams.WithinLimits limits
  mainStreams : ∀ streams ∈ header.mainStreams, streams.WithinLimits limits
  files : ∀ files ∈ header.files,
    files.count ≤ limits.maxFiles ∧ propertiesWithinLimits files.properties limits

/-- The limits on a header parsed after what `state` has counted. -/
structure RawNextHeader.WithinLimits (next : RawNextHeader) (state : ParseState)
    (limits : Limits) : Prop where
  recursion : 1 ≤ limits.maxRecursionDepth
  plain : ∀ header, next = .header header → header.WithinLimits limits
  encoded : ∀ streams, next = .encoded streams → streams.WithinLimits limits
  totals : (state + next.totals).Fits limits

end Un7z
