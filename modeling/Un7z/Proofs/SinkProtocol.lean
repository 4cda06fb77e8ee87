/-
The sink protocol.

Extraction is followed call by call with the triples of `Session`, over a sink that
keeps a log.  Between two members the log holds the calls of whole entries and nothing
else, all of them answered with `Ok`; `Between` is that invariant, together with what the
locals of the loop say about the folder under way.  Within a member the log is that of
the entries before it and of the calls made so far, and every error is one of two: a
refusal by the sink, which is then the last entry of the log, or an error of the
extraction itself, which leaves the log alone.
-/
import Un7z.Delivery
import Un7z.Proofs.FolderExecution

namespace Un7z

open Execute (DecodedFolder decodeFolder)

namespace Archive

variable {σ : Type} {codecs : Codecs} {archive : Archive} {sink : EntrySink σ}

/-! ### Logs -/

/-- The sink has received exactly these calls, and refused none. -/
def Logged (calls : List SinkCall) (state : σ × SinkLog) : Prop :=
  state.2 = calls.map (·, .ok ())

/-- The sink has received exactly these calls, and refused the last one with this error. -/
def Refused (calls : List SinkCall) (error : Error) (state : σ × SinkLog) : Prop :=
  ∃ before call, calls = before ++ [call] ∧
    state.2 = before.map (·, .ok ()) ++ [(call, .error error)]

/-- The sink has received exactly these calls, and refused at most the last one. -/
def Ended (calls : List SinkCall) (error : Error) (state : σ × SinkLog) : Prop :=
  Logged calls state ∨ Refused calls error state

theorem Ended.map_fst {calls : List SinkCall} {error : Error} {state : σ × SinkLog}
    (h : Ended calls error state) : state.2.map (·.1) = calls := by
  rcases h with h | ⟨before, call, rfl, h⟩
  · rw [h]
    simp [Function.comp_def]
  · rw [h]
    simp [Function.comp_def]

/-- A refusal is the last entry of the log. -/
theorem Ended.refusal {calls : List SinkCall} {error : Error} {state : σ × SinkLog}
    (h : Ended calls error state) {before after : SinkLog} {call : SinkCall} {answer : Error}
    (hlog : state.2 = before ++ (call, .error answer) :: after) :
    after = [] ∧ answer = error := by
  have hok : ∀ (calls : List SinkCall) (a b : SinkLog),
      calls.map (·, Except.ok ()) ≠ a ++ (call, .error answer) :: b := by
    intro calls a b heq
    have hmem : (call, Except.error answer) ∈ calls.map (·, (.ok () : Except Error Unit)) := by
      rw [heq]
      simp
    simp at hmem
  rcases h with h | ⟨calls', last, -, h⟩
  · exact absurd (h.symm.trans hlog) (hok _ _ _)
  · rw [h] at hlog
    rcases List.eq_nil_or_concat after with rfl | ⟨after', x, rfl⟩
    · obtain ⟨-, hlast⟩ := List.append_inj' hlog rfl
      simp only [List.cons.injEq, Prod.mk.injEq, Except.error.injEq, and_true] at hlast
      exact ⟨rfl, hlast.2.symm⟩
    · rw [List.concat_eq_append, ← List.cons_append, ← List.append_assoc] at hlog
      exact absurd (List.append_inj' hlog rfl).1 (hok _ _ _)

/-- A call that is answered is one more call in the log. -/
theorem triple_call {calls : List SinkCall} (call : SinkCall)
    (method : σ → Except Error Unit × σ) {E : Error → σ × SinkLog → Prop}
    (hE : ∀ error state, Refused (calls ++ [call]) error state → E error state) :
    Session.Triple (Logged calls) (Session.act (call.record method) : Stateful (σ × SinkLog) Unit)
      (fun _ => Logged (calls ++ [call])) E := by
  refine Session.Triple.act (fun s a s' hs heq => ?_) (fun s e s' hs heq => hE e s' ?_)
  · obtain ⟨hanswer, rfl⟩ := Prod.mk.inj heq
    show s.2 ++ [(call, (method s.1).1)] = _
    rw [hanswer, hs, List.map_append]
    rfl
  · obtain ⟨hanswer, rfl⟩ := Prod.mk.inj heq
    refine ⟨calls, call, rfl, ?_⟩
    show s.2 ++ [(call, (method s.1).1)] = _
    rw [hanswer, hs]

/-- Where the extraction itself fails, the log stays as it is. -/
theorem triple_work {α : Type} {calls : List SinkCall} {m : Work α} {φ : α → Prop}
    {E : Error → σ × SinkLog → Prop} (hok : ∀ a, m.result = .ok a → φ a)
    (hE : ∀ error state, Logged calls state → E error state) :
    Session.Triple (Logged calls) (Session.lift m : Stateful (σ × SinkLog) α)
      (fun a state => φ a ∧ Logged calls state) E :=
  Session.Triple.lift (fun a ha _ hs => ⟨hok a ha, hs⟩) hE

/-! ### One member -/

theorem opened_append (memberIndex : Nat) (entry : FileEntry) (size : Nat) (written : List Bytes)
    (piece : Bytes) :
    (EntryDelivery.mk memberIndex entry size (written ++ [piece])).opened
      = (EntryDelivery.mk memberIndex entry size written).opened
        ++ [.writeEntry memberIndex piece] := by
  simp [EntryDelivery.opened]

/-- The entry has been begun, and chunks of it have been written. -/
def Writing (base : List SinkCall) (memberIndex : Nat) (entry : FileEntry) (size : Nat)
    (error : Error) (state : σ × SinkLog) : Prop :=
  ∃ written, Ended (base ++ (EntryDelivery.mk memberIndex entry size written).opened) error state

/-- The chunk loop hands over every piece, and folds it into the checksum. -/
theorem writeChunks_triple (sink : EntrySink σ) (base : List SinkCall) (memberIndex : Nat)
    (entry : FileEntry) (size : Nat) (pieces : List Bytes) :
    ∀ (written : List Bytes) (crc : Crc32), Crc32.new.update written.flatten = .ok crc →
      Session.Triple
        (Logged (base ++ (EntryDelivery.mk memberIndex entry size written).opened))
        (writeChunks sink.recorded memberIndex pieces crc)
        (fun crc state => Crc32.new.update (written ++ pieces).flatten = .ok crc ∧
          Logged (base ++ (EntryDelivery.mk memberIndex entry size (written ++ pieces)).opened)
            state)
        (Writing base memberIndex entry size) := by
  induction pieces with
  | nil =>
      intro written crc hcrc
      refine Session.Triple.pure fun s hs => ?_
      rw [List.append_nil]
      exact ⟨hcrc, hs⟩
  | cons piece rest ih =>
      intro written crc hcrc
      have hE : ∀ error (state : σ × SinkLog),
          Logged (base ++ (EntryDelivery.mk memberIndex entry size written).opened) state →
            Writing base memberIndex entry size error state :=
        fun _ _ h => ⟨written, Or.inl h⟩
      refine Session.Triple.bind (triple_work (φ := fun _ => True) (fun _ _ => trivial) hE)
        fun _ => Session.Triple.assume fun _ => ?_
      refine Session.Triple.bind (triple_work (φ := fun next => crc.update piece = .ok next)
        (fun next hnext => (result_ofExcept _).symm.trans hnext) hE)
        fun next => Session.Triple.assume fun hnext => ?_
      have hopened := opened_append memberIndex entry size written piece
      refine Session.Triple.bind (triple_call (.writeEntry memberIndex piece)
        (sink.writeEntry memberIndex piece) fun error state h => ?_) fun _ => ?_
      · rw [List.append_assoc, ← hopened] at h
        exact ⟨_, Or.inr h⟩
      · have hcrc' : Crc32.new.update (written ++ [piece]).flatten = .ok next := by
          rw [List.flatten_append, List.flatten_singleton, Crc32.update_append, hcrc]
          exact hnext
        have hrest := ih (written ++ [piece]) next hcrc'
        rw [hopened, ← List.append_assoc] at hrest
        simpa only [List.append_assoc, List.singleton_append] using hrest

theorem finalize_eq_crc32 {bytes : Bytes} {crc : Crc32} (h : Crc32.new.update bytes = .ok crc) :
    crc.finalize = crc32 bytes := by
  rw [crc32, Crc32.checksum, h]
  rfl

theorem checkMemberCrc_eq_ok {expected : Option UInt32} {crc : Crc32} {error : Error} {u : Unit}
    (h : (checkMemberCrc expected crc error).result = .ok u) (value : UInt32)
    (hvalue : expected = some value) : crc.finalize = value := by
  subst hvalue
  by_contra hne
  simp [checkMemberCrc, hne] at h

/-- The delivery of a member that extraction hands over. -/
def sliceDelivery (memberIndex : Nat) (entry : FileEntry) (slice : MemberSlice) : EntryDelivery :=
  ⟨memberIndex, entry, slice.bytes.length, chunks controlChunkSize slice.bytes⟩

/-- The sink has refused to finish this delivery. -/
def Finishing (base : List SinkCall) (delivery : EntryDelivery) (error : Error)
    (state : σ × SinkLog) : Prop :=
  Refused (base ++ delivery.calls) error state

/--
**One member.**  After the calls in `base` come the calls of this entry, and it is
finished only when its bytes match its CRC.
-/
theorem deliverMember_triple (base : List SinkCall) (memberIndex : Nat) (entry : FileEntry)
    (mapping : FileStream) (slice : MemberSlice) :
    Session.Triple (Logged base) (deliverMember sink.recorded memberIndex entry mapping slice)
      (fun _ state => (∀ crc, mapping.crc = some crc → crc32 slice.bytes = crc) ∧
        Logged (base ++ (sliceDelivery memberIndex entry slice).calls) state)
      (fun error state => Writing base memberIndex entry slice.bytes.length error state ∨
        (∀ crc, mapping.crc = some crc → crc32 slice.bytes = crc) ∧
          Finishing base (sliceDelivery memberIndex entry slice) error state) := by
  have hempty : (EntryDelivery.mk memberIndex entry slice.bytes.length []).opened
      = [.beginEntry memberIndex entry slice.bytes.length] := rfl
  refine Session.Triple.bind (triple_call (.beginEntry memberIndex entry slice.bytes.length)
    (sink.beginEntry memberIndex entry slice.bytes.length) fun error state h => ?_) fun _ => ?_
  · exact Or.inl ⟨[], Or.inr (by rwa [hempty])⟩
  have hchunks := writeChunks_triple sink base memberIndex entry slice.bytes.length
    (chunks controlChunkSize slice.bytes) [] .new rfl
  rw [hempty, List.nil_append] at hchunks
  refine Session.Triple.bind (hchunks.mono (fun _ h => h) (fun _ _ h => h) fun _ _ h => Or.inl h)
    fun crc => Session.Triple.assume fun hcrc => ?_
  rw [chunks_controlChunkSize] at hcrc
  refine Session.Triple.bind (triple_work
    (φ := fun _ => ∀ value, mapping.crc = some value → crc32 slice.bytes = value)
    (fun u hu value hvalue => ?_) fun error state h => Or.inl ⟨_, Or.inl h⟩)
    fun _ => Session.Triple.assume fun hmatch => ?_
  · rw [← finalize_eq_crc32 hcrc]
    exact checkMemberCrc_eq_ok hu value hvalue
  · refine (triple_call (.finishEntry memberIndex) (sink.finishEntry memberIndex)
      fun error state h => ?_).mono (fun _ h => h) (fun _ state h => ?_) fun _ _ h => h
    · rw [List.append_assoc] at h
      exact Or.inr ⟨hmatch, h⟩
    · rw [List.append_assoc] at h
      exact ⟨hmatch, h⟩

/-! ### The folder under way -/

/-- Whether a decoded folder matches its CRC. -/
theorem decodeFolder_crc {archiveBytes : Bytes} {streams : StreamsInfo} {folderIndex : Nat}
    {password : Option Password} {limits : Limits} {maximum : Nat} {decoded : DecodedFolder}
    {folder : Folder} (hfolder : streams.folders[folderIndex]? = some folder)
    (h : (decodeFolder codecs archiveBytes streams folderIndex password limits maximum).result
      = .ok decoded) :
    decoded.crcMismatch = folder.crc.any (crc32 decoded.bytes ≠ ·) := by
  have hget : (orFormat streams.folders[folderIndex]?
      "folder index is out of range during execution").result = .ok folder :=
    orFormat_eq_ok.mpr hfolder
  unfold decodeFolder at h
  rw [Metered.result_bind_ok hget] at h
  simp only [Metered.bind_eq_ok, Execute.result_crcMismatch] at h
  obtain ⟨_, _, _, _, _, _, bytes, _, mismatch, hmismatch, h⟩ := h
  obtain rfl := Except.ok.inj hmismatch
  obtain rfl := Except.ok.inj h
  rfl

/--
What the locals of the loop hold: the output of the current folder, which matches its
CRC, and where its next member starts.
-/
def Located (codecs : Codecs) (archive : Archive) (state : ExtractState) : Prop :=
  ∀ decoded, state.decodedFolder = some decoded →
    ∃ folderIndex streams folder, state.currentFolder = some folderIndex ∧
      archive.header.mainStreams = some streams ∧
      archive.FolderDecoded codecs streams folderIndex folder decoded.bytes ∧
      (state.nextSubstream < folder.substreams.length →
        state.folderOffset = folder.memberStart state.nextSubstream ∧
          folder.SizesKnown state.nextSubstream)

theorem located_start : Located codecs archive {} := fun _ h => by simp at h

theorem enterFolder_eq_ok {streams : StreamsInfo} {folderIndex : Nat} {state next : ExtractState}
    (hstreams : archive.header.mainStreams = some streams)
    (h : (archive.enterFolder codecs streams folderIndex state).result = .ok next) :
    Located codecs archive next ∧ next.currentFolder = some folderIndex ∧
      next.delivered = state.delivered := by
  simp only [enterFolder, Metered.bind_eq_ok, orFormat_eq_ok, decodeArchiveFolder,
    mapEncryptedError_eq_ok, refuse_eq_ok, checkedSub_eq_some] at h
  obtain ⟨_, -, folder, hfolder, remaining, hremaining, maximum, hmaximum, decoded, hdecoded,
    total, -, hcrc, h⟩ := h
  obtain rfl := Except.ok.inj h
  refine ⟨fun decoded' heq => ?_, rfl, rfl⟩
  obtain rfl := Option.some.inj heq
  have hmatch := decodeFolder_crc hfolder hdecoded
  refine ⟨folderIndex, streams, folder, rfl, hstreams,
    ⟨hfolder, ⟨remaining, maximum, decoded, by omega, hmaximum, hdecoded, rfl⟩, fun crc heq => ?_⟩,
    fun _ => ?_⟩
  · rw [heq] at hmatch
    by_contra hne
    exact hcrc (by simp [hmatch, hne])
  · simp [Folder.memberStart, Folder.SizesKnown]

theorem reachFolder_eq_ok {streams : StreamsInfo} {folderIndex : Nat} {state next : ExtractState}
    (hstreams : archive.header.mainStreams = some streams) (hstate : Located codecs archive state)
    (h : (archive.reachFolder codecs streams folderIndex state).result = .ok next) :
    Located codecs archive next ∧ next.currentFolder = some folderIndex ∧
      next.delivered = state.delivered := by
  unfold reachFolder at h
  by_cases hcurrent : state.currentFolder = some folderIndex
  · rw [if_neg (not_not.mpr hcurrent)] at h
    obtain rfl := Except.ok.inj h
    exact ⟨hstate, hcurrent, rfl⟩
  · rw [if_pos hcurrent] at h
    exact enterFolder_eq_ok hstreams h

theorem substreamEnd_eq_ok {folder : Folder} {folderSize offset index stop : Nat}
    {size : Option Nat} {overflowDetail feature : String} :
    (Metadata.substreamEnd folder folderSize offset index size overflowDetail feature).result
        = .ok stop ↔
      (∃ n, size = some n ∧ offset + n < 2 ^ 64 ∧ stop = offset + n) ∨
        size = none ∧ index + 1 = folder.substreams.length ∧ stop = folderSize := by
  cases size with
  | some n => simp [Metadata.substreamEnd, checkedAdd_eq_some]
  | none =>
      by_cases h : index + 1 = folder.substreams.length
      · simp [Metadata.substreamEnd, h, eq_comm]
      · simp [Metadata.substreamEnd, h]

theorem memberStart_succ {folder : Folder} {index : Nat} {substream : Substream}
    (h : folder.substreams[index]? = some substream) :
    folder.memberStart (index + 1) = folder.memberStart index + substream.size.getD 0 := by
  simp [Folder.memberStart, List.take_add_one, h]

theorem sizesKnown_succ {folder : Folder} {index : Nat} {substream : Substream}
    (h : folder.substreams[index]? = some substream) :
    folder.SizesKnown (index + 1) ↔ folder.SizesKnown index ∧ substream.size.isSome := by
  simp [Folder.SizesKnown, List.take_add_one, h, or_imp, forall_and]

/-- A slice is the member of its folder that comes next, and counting it moves on to the one after. -/
theorem nextMember_eq_ok {streams : StreamsInfo} {mapping : FileStream} {state : ExtractState}
    {slice : MemberSlice} (hstreams : archive.header.mainStreams = some streams)
    (hstate : Located codecs archive state) (hcurrent : state.currentFolder = some mapping.folderIndex)
    (h : (archive.nextMember streams mapping state).result = .ok slice) :
    (∃ folder output, archive.FolderDecoded codecs streams mapping.folderIndex folder output ∧
      folder.MemberAt mapping.substreamIndex output.length state.folderOffset slice.stop ∧
      slice.bytes = (output.drop state.folderOffset).take (slice.stop - state.folderOffset)) ∧
    slice.bytes.length ≤ archive.limits.maxEntryOutputBytes ∧
    ∀ next, (countMember slice state).result = .ok next → Located codecs archive next ∧
      next.delivered = state.delivered + slice.bytes.length := by
  simp only [nextMember, refuseFormat_eq_ok, Metered.bind_eq_ok, orFormat_eq_ok,
    substreamEnd_eq_ok, checkedSub_eq_some, checkLimit_eq_ok, not_not] at h
  obtain ⟨hindex, folder, hfolder, substream, hsubstream, decoded, hdecoded, stop, hstop, hle,
    size, ⟨hstart, rfl⟩, _, hlimit, h⟩ := h
  obtain rfl := Except.ok.inj h
  obtain ⟨folderIndex, streams', folder', hcurrent', hstreams', houtput, hoffset⟩ :=
    hstate decoded hdecoded
  obtain rfl := Option.some.inj (hcurrent'.symm.trans hcurrent)
  obtain rfl := Option.some.inj (hstreams'.symm.trans hstreams)
  obtain rfl := Option.some.inj (houtput.1.symm.trans hfolder)
  have hlt : state.nextSubstream < folder'.substreams.length :=
    (List.getElem?_eq_some_iff.mp hsubstream).1
  obtain ⟨hoffset, hknown⟩ := hoffset hlt
  refine ⟨⟨folder', decoded.bytes, houtput, ?_, rfl⟩,
    (List.length_take_le _ _).trans hlimit, fun next hnext => ?_⟩
  · rw [hindex]
    refine ⟨hoffset, hknown, ⟨substream, hsubstream, ?_⟩, hstart, Nat.not_lt.mp hle⟩
    rcases hstop with ⟨n, hn, -, heq⟩ | hlast
    · exact Or.inl ⟨n, hn, heq⟩
    · exact Or.inr hlast
  · simp only [countMember, Metered.bind_eq_ok, orFormat_eq_ok, checkedAdd_eq_some] at hnext
    obtain ⟨_, ⟨-, rfl⟩, _, ⟨-, rfl⟩, hnext⟩ := hnext
    obtain rfl := Except.ok.inj hnext
    refine ⟨fun decoded' hdecoded' => ?_, rfl⟩
    obtain rfl := Option.some.inj (hdecoded'.symm.trans hdecoded)
    refine ⟨_, _, folder', hcurrent, hstreams, houtput, fun hmore => ?_⟩
    -- a member with no size is the last one, and then there is no next
    obtain ⟨n, hn, -, rfl⟩ | ⟨-, hlast, -⟩ := hstop
    · refine ⟨?_, ?_⟩
      · show state.folderOffset + n = _
        rw [memberStart_succ hsubstream, hoffset, hn]
        rfl
      · exact (sizesKnown_succ hsubstream).mpr ⟨hknown, by rw [hn]; rfl⟩
    · exact absurd hmore (by show ¬ state.nextSubstream + 1 < _; omega)

/-! ### Which entries come -/

theorem deliverableIndices_append (a b : List FileEntry) :
    deliverableIndices (a ++ b) = deliverableIndices a
      ++ ((b.zipIdx a.length).filter (deliverable ·.1)).map (·.2) := by
  simp [deliverableIndices, List.zipIdx_append]

theorem deliverableIndices_take_succ {entries : List FileEntry} {index : Nat} {entry : FileEntry}
    (h : entries[index]? = some entry) :
    deliverableIndices (entries.take (index + 1))
      = deliverableIndices (entries.take index) ++ if deliverable entry then [index] else [] := by
  have hlength : (entries.take index).length = index :=
    List.length_take_of_le (Nat.le_of_lt (List.getElem?_eq_some_iff.mp h).1)
  rw [List.take_add_one, h, deliverableIndices_append, hlength]
  by_cases hentry : deliverable entry <;> simp [hentry]

theorem deliverableIndices_take_prefix (entries : List FileEntry) (index : Nat) :
    deliverableIndices (entries.take index) <+: deliverableIndices entries := by
  have h := deliverableIndices_append (entries.take index) (entries.drop index)
  rw [List.take_append_drop] at h
  rw [h]
  exact List.prefix_append _ _

theorem deliverableIndices_increasing (entries : List FileEntry) :
    (deliverableIndices entries).Pairwise (· < ·) := by
  have hall : (entries.zipIdx.map (·.2)).Pairwise (· < ·) := by
    rw [show (fun p : FileEntry × Nat => p.2) = Prod.snd from rfl, List.zipIdx_map_snd]
    exact List.pairwise_lt_range'
  exact hall.sublist (List.Sublist.map _ List.filter_sublist)

/-- The entries before `index` that produce calls have been delivered, each of them whole. -/
structure Delivered (codecs : Codecs) (archive : Archive) (index : Nat)
    (done : List EntryDelivery) : Prop where
  indices : done.map (·.index) = deliverableIndices (archive.entries.take index)
  entries : ∀ delivery ∈ done, archive.entries[delivery.index]? = some delivery.entry
  whole : ∀ delivery ∈ done, WholeEntry codecs archive delivery

namespace Delivered

variable {index : Nat} {done : List EntryDelivery} {entry : FileEntry}

theorem start : Delivered codecs archive 0 [] := ⟨rfl, by simp, by simp⟩

/-- An entry that produces no calls is passed over. -/
theorem skip (h : Delivered codecs archive index done)
    (hentry : archive.entries[index]? = some entry) (hskip : deliverable entry = false) :
    Delivered codecs archive (index + 1) done := by
  refine ⟨?_, h.entries, h.whole⟩
  rw [h.indices, deliverableIndices_take_succ hentry, hskip]
  simp

theorem add {delivery : EntryDelivery} (h : Delivered codecs archive index done)
    (hentry : archive.entries[index]? = some delivery.entry)
    (hdeliverable : deliverable delivery.entry) (hindex : delivery.index = index)
    (hwhole : WholeEntry codecs archive delivery) :
    Delivered codecs archive (index + 1) (done ++ [delivery]) := by
  refine ⟨?_, fun d hd => ?_, fun d hd => ?_⟩
  · rw [List.map_append, h.indices, deliverableIndices_take_succ hentry, if_pos hdeliverable]
    simp [hindex]
  · obtain hd | hd := List.mem_append.mp hd
    · exact h.entries d hd
    · rw [List.mem_singleton.mp hd, hindex]
      exact hentry
  · obtain hd | hd := List.mem_append.mp hd
    · exact h.whole d hd
    · rw [List.mem_singleton.mp hd]
      exact hwhole

/-- With the entry under way, what was delivered is what should have been so far. -/
theorem natural {stage : SinkStage} (h : Delivered codecs archive index done)
    (hstage : ∀ delivery ∈ stage.deliveries, delivery.index = index ∧
      archive.entries[index]? = some delivery.entry ∧ deliverable delivery.entry) :
    (done ++ stage.deliveries).map (·.index) <+: deliverableIndices archive.entries := by
  have hone : ∀ delivery, stage.deliveries = [delivery] →
      (done ++ stage.deliveries).map (·.index) <+: deliverableIndices archive.entries := by
    intro delivery heq
    obtain ⟨hindex, hentry, hdeliverable⟩ := hstage delivery (by simp [heq])
    have h' := deliverableIndices_take_succ hentry
    rw [if_pos hdeliverable] at h'
    rw [heq, List.map_append, h.indices, List.map_singleton, hindex, ← h']
    exact deliverableIndices_take_prefix _ _
  cases stage with
  | between =>
      simp only [SinkStage.deliveries, List.append_nil]
      rw [h.indices]
      exact deliverableIndices_take_prefix _ _
  | writing delivery => exact hone delivery rfl
  | finishing delivery => exact hone delivery rfl

end Delivered

/-! ### The loop -/

/-- Between two members: the log is that of whole entries. -/
def Between (codecs : Codecs) (archive : Archive) (index : Nat) (state : ExtractState)
    (log : σ × SinkLog) : Prop :=
  ∃ done, (Delivered codecs archive index done ∧ Located codecs archive state ∧
    state.delivered = (done.map (·.size)).sum) ∧ Logged (done.flatMap (·.calls)) log

/-- The extraction has failed with this error, between two entries or in the middle of one. -/
def Failed (codecs : Codecs) (archive : Archive) (error : Error) (log : σ × SinkLog) : Prop :=
  ∃ (index : Nat) (done : List EntryDelivery) (stage : SinkStage), Delivered codecs archive index done ∧
    (∀ delivery ∈ stage.deliveries, delivery.index = index ∧
      archive.entries[index]? = some delivery.entry ∧ deliverable delivery.entry) ∧
    (∀ delivery, stage = .finishing delivery → WholeEntry codecs archive delivery ∧
      Refused (done.flatMap (·.calls) ++ delivery.calls) error log) ∧
    Ended (done.flatMap (·.calls) ++ stage.calls) error log

variable {index : Nat} {entry : FileEntry} {done : List EntryDelivery}

theorem Failed.between (h : Delivered codecs archive index done) {error : Error}
    {log : σ × SinkLog} (hlog : Logged (done.flatMap (·.calls)) log) :
    Failed codecs archive error log :=
  ⟨index, done, .between, h, by simp [SinkStage.deliveries], by simp,
    Or.inl (by rwa [SinkStage.calls, List.append_nil])⟩

theorem Failed.writing (h : Delivered codecs archive index done)
    (hentry : archive.entries[index]? = some entry) (hdeliverable : deliverable entry)
    {size : Nat} {error : Error} {log : σ × SinkLog}
    (hlog : Writing (done.flatMap (·.calls)) index entry size error log) :
    Failed codecs archive error log := by
  obtain ⟨written, hlog⟩ := hlog
  exact ⟨index, done, .writing ⟨index, entry, size, written⟩, h,
    by simp [SinkStage.deliveries, hentry, hdeliverable], by simp, hlog⟩

theorem Failed.finishing (h : Delivered codecs archive index done) {delivery : EntryDelivery}
    (hentry : archive.entries[index]? = some delivery.entry)
    (hdeliverable : deliverable delivery.entry) (hindex : delivery.index = index)
    (hwhole : WholeEntry codecs archive delivery) {error : Error} {log : σ × SinkLog}
    (hlog : Finishing (done.flatMap (·.calls)) delivery error log) :
    Failed codecs archive error log := by
  refine ⟨index, done, .finishing delivery, h, ?_, ?_, Or.inr hlog⟩
  · simp [SinkStage.deliveries, hentry, hdeliverable, hindex]
  · intro d hd
    cases hd
    exact ⟨hwhole, hlog⟩

/-- An empty file is begun and finished, and is whole for having no bytes. -/
theorem extractEmpty_triple (h : Delivered codecs archive index done)
    (hentry : archive.entries[index]? = some entry) (hstream : entry.stream = none) :
    Session.Triple (Logged (done.flatMap (·.calls))) (extractEmpty sink.recorded index entry)
      (fun _ log => ∃ done', (Delivered codecs archive (index + 1) done' ∧
        (done'.map (·.size)).sum = (done.map (·.size)).sum) ∧
          Logged (done'.flatMap (·.calls)) log)
      (Failed codecs archive) := by
  unfold extractEmpty
  by_cases hempty : entry.emptyFile = true ∧ (!entry.antiItem) = true
  · rw [if_pos hempty]
    have hdeliverable : deliverable entry = true := by simp [deliverable, hempty.1, hempty.2]
    have hwhole : WholeEntry codecs archive ⟨index, entry, 0, []⟩ :=
      ⟨rfl, Nat.zero_le _, fun _ => rfl, fun mapping hmapping => by simp [hstream] at hmapping⟩
    refine Session.Triple.bind (triple_call (.beginEntry index entry 0)
      (sink.beginEntry index entry 0) fun error log hlog => ?_) fun _ => ?_
    · have hwriting : Writing (done.flatMap (·.calls)) index entry 0 error log := ⟨[], Or.inr hlog⟩
      exact .writing h hentry hdeliverable hwriting
    · refine (triple_call (.finishEntry index) (sink.finishEntry index)
        fun error log hlog => ?_).mono (fun _ h => h) (fun _ log hlog => ?_) fun _ _ h => h
      · rw [List.append_assoc] at hlog
        exact .finishing h hentry hdeliverable rfl hwhole hlog
      · rw [List.append_assoc] at hlog
        refine ⟨done ++ [⟨index, entry, 0, []⟩], ⟨h.add hentry hdeliverable rfl hwhole, ?_⟩, ?_⟩
        · simp
        · rwa [List.flatMap_append, List.flatMap_singleton]
  · rw [if_neg hempty]
    refine Session.Triple.pure fun log hlog => ⟨done, ⟨h.skip hentry ?_, rfl⟩, hlog⟩
    simpa [deliverable, hstream] using hempty

/-- A member with a stream is decoded, cut out of its folder, and delivered whole. -/
theorem extractStream_triple {mapping : FileStream} {state : ExtractState}
    (h : Delivered codecs archive index done) (hstate : Located codecs archive state)
    (htotal : state.delivered = (done.map (·.size)).sum)
    (hentry : archive.entries[index]? = some entry) (hstream : entry.stream = some mapping) :
    Session.Triple (Logged (done.flatMap (·.calls)))
      (archive.extractStream codecs sink.recorded index entry mapping state)
      (Between codecs archive (index + 1)) (Failed codecs archive) := by
  have hdeliverable : deliverable entry = true := by simp [deliverable, hstream]
  have hE : ∀ error (log : σ × SinkLog), Logged (done.flatMap (·.calls)) log →
      Failed codecs archive error log := fun _ _ hlog => .between h hlog
  refine Session.Triple.bind (triple_work (fun _ ha => orFormat_eq_ok.mp ha) hE)
    fun streams => Session.Triple.assume fun hstreams => ?_
  refine Session.Triple.bind (triple_work (fun _ ha => reachFolder_eq_ok hstreams hstate ha) hE)
    fun reached => Session.Triple.assume fun ⟨hreached, hcurrent, hdelivered⟩ => ?_
  refine Session.Triple.bind (triple_work
    (fun _ ha => nextMember_eq_ok hstreams hreached hcurrent ha) hE)
    fun slice => Session.Triple.assume
      fun ⟨⟨folder, output, houtput, hat, hbytes⟩, hlimit, hcount⟩ => ?_
  have hwhole : (∀ crc, mapping.crc = some crc → crc32 slice.bytes = crc) →
      WholeEntry codecs archive (sliceDelivery index entry slice) := by
    intro hcrc
    have hflat : (sliceDelivery index entry slice).bytes = slice.bytes := chunks_controlChunkSize _
    refine ⟨congrArg List.length hflat, hlimit, fun hnone => ?_, fun mapping' hmapping => ?_⟩
    · exact absurd (hnone.symm.trans hstream) (by simp)
    · obtain rfl := Option.some.inj (hmapping.symm.trans hstream)
      rw [hflat]
      exact ⟨hcrc, streams, folder, output, _, _, hstreams, houtput, hat, hbytes⟩
  refine Session.Triple.bind ((deliverMember_triple _ index entry mapping slice).mono
    (fun _ hlog => hlog) (fun _ _ hlog => hlog) fun error log hlog => ?_)
    fun _ => Session.Triple.assume fun hcrc => ?_
  · rcases hlog with hlog | ⟨hcrc, hlog⟩
    · exact .writing h hentry hdeliverable hlog
    · exact .finishing h hentry hdeliverable rfl (hwhole hcrc) hlog
  · have hdone : Delivered codecs archive (index + 1)
        (done ++ [sliceDelivery index entry slice]) := h.add hentry hdeliverable rfl
      (hwhole hcrc)
    have hcalls : done.flatMap (·.calls) ++ (sliceDelivery index entry slice).calls
        = (done ++ [sliceDelivery index entry slice]).flatMap (·.calls) := by simp
    rw [hcalls]
    refine Session.Triple.lift (fun next hnext log hlog => ?_) fun error log hlog => ?_
    · obtain ⟨hnext, htotal'⟩ := hcount next hnext
      refine ⟨_, ⟨hdone, hnext, ?_⟩, hlog⟩
      rw [htotal', hdelivered, htotal]
      simp [sliceDelivery]
    · exact .between hdone hlog

/-- **One round of the loop.** -/
theorem extractMember_triple {state : ExtractState}
    (hentry : archive.entries[index]? = some entry) :
    Session.Triple (Between codecs archive index state)
      (archive.extractMember codecs sink.recorded index entry state)
      (Between codecs archive (index + 1)) (Failed codecs archive) := by
  refine Session.Triple.choose fun done => Session.Triple.assume fun ⟨h, hstate, htotal⟩ => ?_
  refine Session.Triple.bind (triple_work (φ := fun _ => True) (fun _ _ => trivial)
    fun error log hlog => .between h hlog) fun _ => Session.Triple.assume fun _ => ?_
  cases hstream : entry.stream with
  | some mapping => exact extractStream_triple h hstate htotal hentry hstream
  | none =>
      refine Session.Triple.bind (extractEmpty_triple h hentry hstream) fun _ => ?_
      refine Session.Triple.pure fun log ⟨done', ⟨hdone, hsum⟩, hlog⟩ => ?_
      exact ⟨done', ⟨hdone, hstate, htotal.trans hsum.symm⟩, hlog⟩

/-- **The loop**, over what is left of the entries. -/
theorem extractMembers_triple (rest : List FileEntry) :
    ∀ (index : Nat) (state : ExtractState), archive.entries.drop index = rest →
      Session.Triple (Between codecs archive index state)
        (archive.extractMembers codecs sink.recorded index rest state)
        (Between codecs archive archive.entries.length) (Failed codecs archive) := by
  induction rest with
  | nil =>
      intro index state hrest
      refine Session.Triple.pure fun log ⟨done, ⟨h, hstate, htotal⟩, hlog⟩ => ?_
      have hlength : archive.entries.length ≤ index := List.drop_eq_nil_iff.mp hrest
      refine ⟨done, ⟨⟨?_, h.entries, h.whole⟩, hstate, htotal⟩, hlog⟩
      rw [h.indices, List.take_of_length_le hlength, List.take_length]
  | cons entry rest ih =>
      intro index state hrest
      have hentry : archive.entries[index]? = some entry := by
        rw [← List.head?_drop, hrest]
        rfl
      refine Session.Triple.bind (extractMember_triple hentry) fun state' => ?_
      refine ih (index + 1) state' ?_
      rw [← List.drop_drop, hrest]
      rfl

/-- **The whole extraction.** -/
theorem extractEntriesTo_triple (codecs : Codecs) (archive : Archive) (sink : EntrySink σ) :
    Session.Triple (Between codecs archive 0 {}) (archive.extractEntriesTo codecs sink.recorded)
      (fun total log => ∃ state : ExtractState, total = state.delivered ∧
        Between codecs archive archive.entries.length state log)
      (Failed codecs archive) := by
  refine Session.Triple.bind (extractMembers_triple archive.entries 0 {} rfl) fun state => ?_
  refine Session.Triple.bind (R := fun _ => Between codecs archive archive.entries.length state)
    (Session.Triple.lift (fun _ _ _ hlog => hlog) fun error log ⟨done, ⟨h, _⟩, hlog⟩ =>
      .between h hlog) fun _ => ?_
  exact Session.Triple.pure fun log hlog => ⟨state, rfl, hlog⟩

/-! ### The protocol -/

theorem Failed.protocol {error : Error} {log : σ × SinkLog}
    (h : Failed codecs archive error log) :
    ∃ done stage, SinkProtocol codecs archive log.2 (.error error) done stage := by
  obtain ⟨index, done, stage, hdone, hstage, hfinishing, hlog⟩ := h
  have hnatural := hdone.natural hstage
  refine ⟨done, stage, hlog.map_fst, ?_, hnatural, fun d hd => ?_, hdone.whole,
    fun d hd => (hfinishing d hd).1, fun before call answer after hcall => ?_, by simp,
    fun d hd => ?_⟩
  · exact (deliverableIndices_increasing _).sublist hnatural.sublist
  · obtain hd | hd := List.mem_append.mp hd
    · exact hdone.entries d hd
    · obtain ⟨rfl, hentry, -⟩ := hstage d hd
      exact hentry
  · obtain ⟨hafter, rfl⟩ := hlog.refusal hcall
    exact ⟨hafter, rfl⟩
  · obtain ⟨-, before, call, hcalls, hlast⟩ := hfinishing d hd
    refine ⟨error, ?_⟩
    rw [EntryDelivery.calls, ← List.append_assoc] at hcalls
    obtain ⟨-, hcall⟩ := List.append_inj' hcalls rfl
    obtain rfl := List.singleton_injective hcall
    rw [hlast]
    simp

theorem Between.protocol {state : ExtractState} {log : σ × SinkLog}
    (h : Between codecs archive archive.entries.length state log) :
    ∃ done stage, SinkProtocol codecs archive log.2 (.ok state.delivered) done stage := by
  obtain ⟨done, ⟨hdone, -, htotal⟩, hlog⟩ := h
  have hnatural : (done ++ SinkStage.between.deliveries).map (·.index)
      <+: deliverableIndices archive.entries := hdone.natural (by simp [SinkStage.deliveries])
  have hended : Ended (done.flatMap (·.calls)) .cancelled log := Or.inl hlog
  refine ⟨done, .between, ?_, ?_, hnatural, ?_, hdone.whole, by simp, ?_, ?_, by simp⟩
  · simpa [SinkStage.calls] using hended.map_fst
  · exact (deliverableIndices_increasing _).sublist hnatural.sublist
  · simpa [SinkStage.deliveries] using hdone.entries
  · intro before call answer after hcall
    have hmem : (call, Except.error answer) ∈
        (done.flatMap (·.calls)).map (·, (.ok () : Except Error Unit)) := by
      rw [← hlog, hcall]
      simp
    simp at hmem
  · intro total ht
    obtain rfl := Except.ok.inj ht
    refine ⟨rfl, ?_, htotal⟩
    rw [hdone.indices, List.take_length]

/--
**The sink protocol.**  For every archive, every behaviour of the coders, every sink and
every control, the calls the sink receives are those of a run of whole entries in archive
order, and then those of at most one entry more, which is not finished unless it is whole
and the sink refused the call that finished it.  A call that is refused is the last one.
-/
theorem extractEntriesTo_protocol (codecs : Codecs) (archive : Archive) (sink : EntrySink σ)
    (state : σ) (control : ParseControl) :
    ∃ done stage, SinkProtocol codecs archive
      ((archive.extractEntriesTo codecs sink.recorded).run (state, []) control).2.2
      ((archive.extractEntriesTo codecs sink.recorded).run (state, []) control).1 done stage := by
  have hstart : Between codecs archive 0 {} (state, []) :=
    ⟨[], ⟨.start, located_start, rfl⟩, rfl⟩
  have htriple := extractEntriesTo_triple codecs archive sink (state, []) control hstart
  rcases hrun : (archive.extractEntriesTo codecs sink.recorded).run (state, []) control
    with ⟨error | total, log⟩
  · exact (htriple.2 error log hrun).protocol
  · obtain ⟨state', rfl, hbetween⟩ := htriple.1 total log hrun
    exact hbetween.protocol

end Archive

end Un7z
