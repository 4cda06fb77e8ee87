/-
What an entry sink is promised.

`EntrySink` is a protocol: an entry is begun, its chunks are handed over, and it is
finished, and finishing it says that all of it was there and matched its digests.  The
definitions here say so about the log of the calls a sink has received, and do not speak
of how extraction goes about it.

`Folder.MemberAt` is where a member lies in the output of its folder: at the sum of the
sizes before it, and the last member may be as long as what is left.
-/
import Un7z.Extract
import Un7z.Lib.Tiling

namespace Un7z

/-! ### Members -/

namespace Folder

/-- The sum of the sizes of the substreams before this one. -/
def memberStart (folder : Folder) (index : Nat) : Nat :=
  ((folder.substreams.take index).map fun substream => substream.size.getD 0).sum

/-- The substreams before this one have sizes. -/
def SizesKnown (folder : Folder) (index : Nat) : Prop :=
  ∀ substream ∈ folder.substreams.take index, substream.size.isSome

/-- The member `index` of a folder is the bytes from `start` to `stop` of its output. -/
structure MemberAt (folder : Folder) (index folderSize start stop : Nat) : Prop where
  start_eq : start = folder.memberStart index
  known : folder.SizesKnown index
  sized : ∃ substream, folder.substreams[index]? = some substream ∧
    ((∃ size, substream.size = some size ∧ stop = start + size) ∨
      substream.size = none ∧ index + 1 = folder.substreams.length ∧ stop = folderSize)
  start_le : start ≤ stop
  stop_le : stop ≤ folderSize

end Folder

namespace Archive

/-! ### Logs -/

/-- A call of a method of `EntrySink`. -/
inductive SinkCall
  | beginEntry (memberIndex : Nat) (entry : FileEntry) (size : Nat)
  | writeEntry (memberIndex : Nat) (bytes : Bytes)
  | finishEntry (memberIndex : Nat)
  deriving DecidableEq, Repr

/-- The calls a sink has received, in order, each with what it answered. -/
abbrev SinkLog := List (SinkCall × Except Error Unit)

/-- Make a call, and write it down. -/
def SinkCall.record {σ : Type} (call : SinkCall) (method : σ → Except Error Unit × σ) :
    σ × SinkLog → Except Error Unit × σ × SinkLog := fun state =>
  ((method state.1).1, (method state.1).2, state.2 ++ [(call, (method state.1).1)])

/-- The same sink, with a log of its calls. -/
def EntrySink.recorded {σ : Type} (sink : EntrySink σ) : EntrySink (σ × SinkLog) where
  beginEntry memberIndex entry size :=
    (SinkCall.beginEntry memberIndex entry size).record (sink.beginEntry memberIndex entry size)
  writeEntry memberIndex bytes :=
    (SinkCall.writeEntry memberIndex bytes).record (sink.writeEntry memberIndex bytes)
  finishEntry memberIndex :=
    (SinkCall.finishEntry memberIndex).record (sink.finishEntry memberIndex)

/-! ### Deliveries -/

/-- An entry with the size that was announced for it and the chunks handed over. -/
structure EntryDelivery where
  index : Nat
  entry : FileEntry
  size : Nat
  chunks : List Bytes
  deriving DecidableEq, Repr

namespace EntryDelivery

/-- The bytes handed over. -/
def bytes (delivery : EntryDelivery) : Bytes := delivery.chunks.flatten

/-- The calls up to the last chunk. -/
def opened (delivery : EntryDelivery) : List SinkCall :=
  .beginEntry delivery.index delivery.entry delivery.size ::
    delivery.chunks.map (.writeEntry delivery.index ·)

/-- The calls of an entry that is finished. -/
def calls (delivery : EntryDelivery) : List SinkCall :=
  delivery.opened ++ [.finishEntry delivery.index]

end EntryDelivery

/--
The folder of a member was decoded to these bytes, under a maximum that its limits allow,
and they match its CRC.
-/
def FolderDecoded (codecs : Codecs) (archive : Archive) (streams : StreamsInfo)
    (folderIndex : Nat) (folder : Folder) (output : Bytes) : Prop :=
  streams.folders[folderIndex]? = some folder ∧
    (∃ remaining maximum decoded, remaining ≤ archive.limits.maxTotalOutputBytes ∧
      (folderDecodeMaximum folder archive.limits remaining).result = .ok maximum ∧
      (Execute.decodeFolder codecs archive.bytes streams folderIndex archive.password
        archive.limits maximum).result = .ok decoded ∧ decoded.bytes = output) ∧
    ∀ crc, folder.crc = some crc → crc32 output = crc

/-- What was handed over is the whole entry, and matches every digest there is for it. -/
structure WholeEntry (codecs : Codecs) (archive : Archive) (delivery : EntryDelivery) :
    Prop where
  /-- It is as long as was announced. -/
  size : delivery.bytes.length = delivery.size
  limited : delivery.size ≤ archive.limits.maxEntryOutputBytes
  /-- An entry with no stream has no chunks. -/
  empty : delivery.entry.stream = none → delivery.chunks = []
  /-- An entry with a stream is its slice of the output of its folder. -/
  member : ∀ mapping, delivery.entry.stream = some mapping →
    (∀ crc, mapping.crc = some crc → crc32 delivery.bytes = crc) ∧
      ∃ streams folder output start stop, archive.header.mainStreams = some streams ∧
        FolderDecoded codecs archive streams mapping.folderIndex folder output ∧
        folder.MemberAt mapping.substreamIndex output.length start stop ∧
        delivery.bytes = (output.drop start).take (stop - start)

/-- How far the entry that is under way has come. -/
inductive SinkStage
  /-- None is. -/
  | between
  /-- It has been begun. -/
  | writing (delivery : EntryDelivery)
  /-- It has been finished, or was about to be when the sink failed. -/
  | finishing (delivery : EntryDelivery)
  deriving DecidableEq, Repr

namespace SinkStage

def calls : SinkStage → List SinkCall
  | between => []
  | writing delivery => delivery.opened
  | finishing delivery => delivery.calls

def deliveries : SinkStage → List EntryDelivery
  | between => []
  | writing delivery => [delivery]
  | finishing delivery => [delivery]

end SinkStage

/-- The entries that produce sink calls: directories and anti-items do not. -/
def deliverable (entry : FileEntry) : Bool :=
  entry.stream.isSome || (entry.emptyFile && !entry.antiItem)

/-- The indices of the entries that produce sink calls. -/
def deliverableIndices (entries : List FileEntry) : List Nat :=
  (entries.zipIdx.filter (deliverable ·.1)).map (·.2)

/--
The log of an extraction that ended with `outcome`: the entries in `done` were delivered,
and `stage` is the one under way at the end.
-/
structure SinkProtocol (codecs : Codecs) (archive : Archive) (log : SinkLog)
    (outcome : Except Error Nat) (done : List EntryDelivery) (stage : SinkStage) : Prop where
  /-- Begin, chunks, finish, entry after entry. -/
  calls : log.map (·.1) = done.flatMap (·.calls) ++ stage.calls
  /-- The entries come in archive order, and none that produces calls is left out. -/
  increasing : ((done ++ stage.deliveries).map (·.index)).Pairwise (· < ·)
  natural : (done ++ stage.deliveries).map (·.index) <+: deliverableIndices archive.entries
  entries : ∀ delivery ∈ done ++ stage.deliveries,
    archive.entries[delivery.index]? = some delivery.entry
  /-- No entry is finished that is not whole. -/
  whole : ∀ delivery ∈ done, WholeEntry codecs archive delivery
  finishing : ∀ delivery, stage = .finishing delivery → WholeEntry codecs archive delivery
  /-- A call that fails is the last one, and the extraction fails with its error. -/
  failed : ∀ before call error after, log = before ++ (call, .error error) :: after →
    after = [] ∧ outcome = .error error
  /-- An extraction that succeeds has left no entry open, and none out. -/
  succeeded : ∀ total, outcome = .ok total → stage = .between ∧
    done.map (·.index) = deliverableIndices archive.entries ∧ total = (done.map (·.size)).sum
  /-- An entry that was finished under way is one whose last call the sink refused. -/
  refused : ∀ delivery, stage = .finishing delivery →
    ∃ error, log.getLast? = some (.finishEntry delivery.index, .error error)

/-! ### The bytes of an entry in a log -/

/-- The bytes a call hands over for an entry. -/
def SinkCall.bytesFor (memberIndex : Nat) : SinkCall → Bytes
  | .writeEntry index bytes => if index = memberIndex then bytes else []
  | _ => []

/-- The concatenation of the chunks handed over for an entry. -/
def SinkLog.bytesOf (log : SinkLog) (memberIndex : Nat) : Bytes :=
  log.flatMap (·.1.bytesFor memberIndex)

/-- The log has a call of `begin_entry` for this entry. -/
def SinkLog.Began (log : SinkLog) (memberIndex : Nat) : Prop :=
  ∃ entry size answer, (SinkCall.beginEntry memberIndex entry size, answer) ∈ log

/-- The entries whose bytes are in a folder, in archive order, with their indices. -/
def folderMembers (entries : List FileEntry) (folderIndex : Nat) : List (FileStream × Nat) :=
  (entries.zipIdx.filterMap fun p => p.1.stream.map (·, p.2)).filter
    (·.1.folderIndex = folderIndex)

/-- The ranges of these members, in archive order, by the bytes handed over for them. -/
def deliveredRanges (log : SinkLog) (members : List (FileStream × Nat)) : List (Nat × Nat) :=
  Tiling.tile 0 (members.map fun member => (log.bytesOf member.2).length)

/--
The output of a folder was handed over as the members of the folder: one after the other,
in ranges that do not overlap, and all of it.
-/
structure FolderCovered (codecs : Codecs) (archive : Archive) (log : SinkLog)
    (folderIndex : Nat) (folder : Folder) (output : Bytes) : Prop where
  decoded : ∃ streams, archive.header.mainStreams = some streams ∧
    FolderDecoded codecs archive streams folderIndex folder output
  member : ∀ (j : Nat) (member : FileStream × Nat),
    (folderMembers archive.entries folderIndex)[j]? = some member →
    ∃ range, (deliveredRanges log (folderMembers archive.entries folderIndex))[j]? = some range ∧
      folder.MemberAt member.1.substreamIndex output.length range.1 range.2 ∧
      log.bytesOf member.2 = (output.drop range.1).take (range.2 - range.1)
  disjoint : (deliveredRanges log (folderMembers archive.entries folderIndex)).Pairwise
    fun a b => Disjoint (Tiling.points a) (Tiling.points b)
  covering : ⋃ range ∈ deliveredRanges log (folderMembers archive.entries folderIndex),
    Tiling.points range = Set.Ico 0 output.length
  whole : ((folderMembers archive.entries folderIndex).map (log.bytesOf ·.2)).flatten = output

/-- A sink that fails at no call. -/
def EntrySink.NeverFails {σ : Type} (sink : EntrySink σ) : Prop :=
  ∀ state, (∀ memberIndex entry size, (sink.beginEntry memberIndex entry size state).1 = .ok ()) ∧
    (∀ memberIndex bytes, (sink.writeEntry memberIndex bytes state).1 = .ok ()) ∧
    ∀ memberIndex, (sink.finishEntry memberIndex state).1 = .ok ()

/-- Decoding a folder of the archive gives the same output under any sufficient maximum. -/
def DecodesAlike (codecs : Codecs) (archive : Archive) : Prop :=
  ∀ streams, archive.header.mainStreams = some streams →
    ∀ folderIndex maximum maximum' decoded,
      (Execute.decodeFolder codecs archive.bytes streams folderIndex archive.password
        archive.limits maximum).result = .ok decoded →
      decoded.bytes.length ≤ maximum' →
      (Execute.decodeFolder codecs archive.bytes streams folderIndex archive.password
        archive.limits maximum').result = .ok decoded

end Archive

end Un7z
