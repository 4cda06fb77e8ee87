/-
Extraction after a successful verification.

`verify` decodes every folder in turn, and leaves behind a list of outputs in which each
folder has its members where they should be and matches its digests (`Verified`).
Extraction comes to the same folders in the same order, with at least as much output
left, so it decodes the same outputs; and all it checks of a member is among what
`verify` has checked.  The invariant of the loop is that extraction stands at a member of
the folder under way (`AtMember`), or is about to enter a folder (`AtFolder`).
-/
import Un7z.Proofs.OpenedArchive
import Un7z.Proofs.FolderMembers

namespace Un7z

open Execute (DecodedFolder decodeFolder)

namespace Archive

variable {σ : Type} {codecs : Codecs} {archive : Archive} {sink : EntrySink σ}
  {streams : StreamsInfo} {outputs : List DecodedFolder} {base : Nat}

/-! ### What verification leaves behind -/

/-- How much the folders before this one have put out. -/
def outputBefore (outputs : List DecodedFolder) (folderIndex : Nat) : Nat :=
  ((outputs.take folderIndex).map (·.bytes.length)).sum

/-- What `verify` has found of a folder, when `before` bytes had been decoded before it. -/
structure Verified (codecs : Codecs) (archive : Archive) (streams : StreamsInfo)
    (folderIndex before : Nat) (folder : Folder) (decoded : DecodedFolder) : Prop where
  decode : ∃ maximum,
    (folderDecodeMaximum folder archive.limits
      (archive.limits.maxTotalOutputBytes - before)).result = .ok maximum ∧
    (decodeFolder codecs archive.bytes streams folderIndex archive.password archive.limits
      maximum).result = .ok decoded
  total : before + decoded.bytes.length ≤ archive.limits.maxTotalOutputBytes
  total_lt : before + decoded.bytes.length < 2 ^ 64
  crc : decoded.crcMismatch = false
  members : ∀ (k : Nat) (substream : Substream), folder.substreams[k]? = some substream →
    ∃ start stop, folder.MemberAt k decoded.bytes.length start stop ∧
      ∀ crc, substream.crc = some crc →
        crc32 ((decoded.bytes.drop start).take (stop - start)) = crc

/-- What `verify` has found of all folders, with `base` bytes decoded before the first. -/
def AllVerified (codecs : Codecs) (archive : Archive) (streams : StreamsInfo) (base : Nat)
    (outputs : List DecodedFolder) : Prop :=
  ∀ (f : Nat) (folder : Folder), streams.folders[f]? = some folder →
    ∃ decoded, outputs[f]? = some decoded ∧
      Verified codecs archive streams f (base + outputBefore outputs f) folder decoded

theorem substreamBytes_eq_ok {bytes slice : Bytes} {start stop : Nat}
    {rangeDetail sliceDetail : String} :
    (Metadata.substreamBytes bytes start stop rangeDetail sliceDetail).result = .ok slice ↔
      start ≤ stop ∧ stop ≤ bytes.length ∧ slice = (bytes.drop start).take (stop - start) := by
  rw [Metadata.substreamBytes, refuseFormat_eq_ok]
  by_cases h : start ≤ stop
  · simp [h, eq_comm]
  · simp [h]

theorem checkDigest_eq_ok {crc : Option UInt32} {bytes : Bytes} {error : Error} {u : Unit}
    (h : (Metadata.checkDigest crc bytes error).result = .ok u) (value : UInt32)
    (hvalue : crc = some value) : crc32 bytes = value := by
  subst hvalue
  simp only [Metadata.checkDigest, Metered.bind_eq_ok, result_checksum, refuse_eq_ok,
    Except.ok.injEq] at h
  obtain ⟨_, rfl, hne, -⟩ := h
  exact not_not.mp hne

/-- The members from substream `index` on are where they should be, and match their digests. -/
theorem verifyMembersFrom_eq_ok {folder : Folder} {folderIndex : Nat} {decoded : DecodedFolder}
    (rest : List Substream) : ∀ {index start : Nat} {entries entries' : StreamedEntries},
      (verifyMembersFrom folder folderIndex decoded index rest start entries).result
        = .ok entries' →
      folder.substreams.drop index = rest →
      (rest ≠ [] → start = folder.memberStart index ∧ folder.SizesKnown index) →
      ∀ (k : Nat) (substream : Substream), index ≤ k →
        folder.substreams[k]? = some substream →
        ∃ start stop, folder.MemberAt k decoded.bytes.length start stop ∧
          ∀ crc, substream.crc = some crc →
            crc32 ((decoded.bytes.drop start).take (stop - start)) = crc := by
  induction rest with
  | nil =>
      intro index start entries entries' _ hrest _ k substream hk hsubstream
      have := List.drop_eq_nil_iff.mp hrest
      have := (List.getElem?_eq_some_iff.mp hsubstream).1
      omega
  | cons first rest ih =>
      intro index start entries entries' h hrest hstart k substream hk hsubstream
      obtain ⟨hstart, hknown⟩ := hstart (List.cons_ne_nil _ _)
      have hfirst : folder.substreams[index]? = some first := by
        rw [← List.head?_drop, hrest]
        rfl
      simp only [verifyMembersFrom, Metered.bind_eq_ok, Prod.exists, substreamEnd_eq_ok,
        substreamBytes_eq_ok] at h
      obtain ⟨_, -, memberIndex, entries'', -, stop, hstop, _, ⟨hle, hin, rfl⟩, _, hdigest, h⟩ := h
      have hat : folder.MemberAt index decoded.bytes.length start stop :=
        ⟨hstart, hknown, ⟨first, hfirst, hstop.imp (fun ⟨n, hn, _, heq⟩ => ⟨n, hn, heq⟩) id⟩, hle,
          hin⟩
      rcases Nat.eq_or_lt_of_le hk with rfl | hlt
      · obtain rfl := Option.some.inj (hfirst.symm.trans hsubstream)
        exact ⟨start, stop, hat, checkDigest_eq_ok hdigest⟩
      · refine ih h ?_ (fun hmore => ?_) k substream hlt hsubstream
        · rw [← List.drop_drop, hrest]
          rfl
        · refine hat.stop_eq ?_
          have := (List.getElem?_eq_some_iff.mp hsubstream).1
          omega

theorem verifyFolders_eq_ok (rest : List Folder) :
    ∀ {folderIndex totalOutput : Nat} {entries entries' : StreamedEntries},
      (archive.verifyFolders codecs streams folderIndex rest totalOutput entries).result
        = .ok entries' →
      streams.folders.drop folderIndex = rest →
      ∃ outputs : List DecodedFolder, ∀ (j : Nat) (folder : Folder), rest[j]? = some folder →
        ∃ decoded, outputs[j]? = some decoded ∧ Verified codecs archive streams (folderIndex + j)
          (totalOutput + outputBefore outputs j) folder decoded := by
  induction rest with
  | nil =>
      intro folderIndex totalOutput entries entries' _ _
      exact ⟨[], fun j folder h => absurd h (by simp)⟩
  | cons folder rest ih =>
      intro folderIndex totalOutput entries entries' h hrest
      simp only [verifyFolders, addFolderOutput, verifyFolderMembers, decodeArchiveFolder,
        Metered.bind_eq_ok, orFormat_eq_ok, checkedSub_eq_some, checkedAdd_eq_some,
        checkLimit_eq_ok, mapEncryptedError_eq_ok, refuse_eq_ok, Metered.result_pure,
        Except.ok.injEq] at h
      obtain ⟨_, -, _, ⟨hle, rfl⟩, maximum, hmaximum, decoded, hdecoded, _, ⟨_, ⟨hlt, rfl⟩, _, htotal,
        rfl⟩, _, ⟨_, hmembers, hcrc, rfl⟩, h⟩ := h
      have hdrop : streams.folders.drop (folderIndex + 1) = rest := by
        rw [← List.drop_drop, hrest]
        rfl
      obtain ⟨outputs, houtputs⟩ := ih h hdrop
      have hverified : Verified codecs archive streams folderIndex totalOutput folder decoded :=
        ⟨⟨maximum, hmaximum, hdecoded⟩, htotal, hlt, by simpa using hcrc, fun k substream =>
          verifyMembersFrom_eq_ok _ hmembers List.drop_zero
            (fun _ => by simp [Folder.memberStart, Folder.SizesKnown]) k substream (Nat.zero_le _)⟩
      refine ⟨decoded :: outputs, fun j folder' hfolder => ?_⟩
      cases j with
      | zero =>
          obtain rfl := Option.some.inj hfolder
          exact ⟨decoded, rfl, by simpa [outputBefore] using hverified⟩
      | succ j =>
          obtain ⟨decoded', hget, hverified'⟩ := houtputs j folder' hfolder
          refine ⟨decoded', hget, ?_⟩
          rw [show folderIndex + (j + 1) = folderIndex + 1 + j by omega]
          simpa [outputBefore, Nat.add_assoc] using hverified'

/-- **What a successful verification leaves behind.** -/
theorem verify_eq_ok (h : (archive.verify codecs).result = .ok ())
    (hstreams : archive.header.mainStreams = some streams) :
    ∃ base outputs, AllVerified codecs archive streams base outputs := by
  obtain ⟨base, -, h⟩ := Metered.bind_eq_ok.mp h
  rw [hstreams] at h
  obtain ⟨entries, h, -⟩ := Metered.bind_eq_ok.mp h
  obtain ⟨outputs, houtputs⟩ := verifyFolders_eq_ok _ h List.drop_zero
  exact ⟨base, outputs, fun f folder hfolder => by simpa using houtputs f folder hfolder⟩

/-! ### A sink that never fails -/

theorem call_result (hsink : sink.NeverFails) (state : σ) :
    (∀ memberIndex entry size, ∃ state',
      (Session.act (sink.beginEntry memberIndex entry size) : Stateful σ Unit).result state
        = (.ok (), state')) ∧
    (∀ memberIndex bytes, ∃ state',
      (Session.act (sink.writeEntry memberIndex bytes) : Stateful σ Unit).result state
        = (.ok (), state')) ∧
    ∀ memberIndex, ∃ state',
      (Session.act (sink.finishEntry memberIndex) : Stateful σ Unit).result state
        = (.ok (), state') := by
  obtain ⟨hbegin, hwrite, hfinish⟩ := hsink state
  exact ⟨fun i entry size => ⟨_, (Session.result_act _ _).trans (Prod.ext (hbegin i entry size) rfl)⟩,
    fun i bytes => ⟨_, (Session.result_act _ _).trans (Prod.ext (hwrite i bytes) rfl)⟩,
    fun i => ⟨_, (Session.result_act _ _).trans (Prod.ext (hfinish i) rfl)⟩⟩

theorem writeChunks_result (hsink : sink.NeverFails) (memberIndex : Nat) (pieces : List Bytes) :
    ∀ (crc : Crc32) (state : σ), ∃ crc' state',
      (writeChunks sink memberIndex pieces crc).result state = (.ok crc', state') ∧
        crc.update pieces.flatten = .ok crc' := by
  induction pieces with
  | nil => exact fun crc state => ⟨crc, state, rfl, rfl⟩
  | cons piece rest ih =>
      intro crc state
      obtain ⟨next, hnext⟩ := Crc32.update_ok piece crc
      obtain ⟨state', hwrite⟩ := (call_result hsink state).2.1 memberIndex piece
      obtain ⟨crc', state'', hrest, hcrc⟩ := ih next state'
      refine ⟨crc', state'', ?_, ?_⟩
      · rw [writeChunks, Session.result_lift_bind (result_checkpoint piece.length),
          Session.result_lift_bind ((result_ofExcept _).trans hnext),
          Session.result_bind_ok hwrite, hrest]
      · rw [List.flatten_cons, Crc32.update_append, hnext]
        exact hcrc

/-- A member that matches its digest is delivered. -/
theorem deliverMember_result (hsink : sink.NeverFails) (memberIndex : Nat) (entry : FileEntry)
    (mapping : FileStream) {slice : MemberSlice}
    (hcrc : ∀ crc, mapping.crc = some crc → crc32 slice.bytes = crc) (state : σ) :
    ∃ state', (deliverMember sink memberIndex entry mapping slice).result state
      = (.ok (), state') := by
  obtain ⟨begun, hbegin⟩ := (call_result hsink state).1 memberIndex entry slice.bytes.length
  obtain ⟨crc, written, hwrite, hupdate⟩ := writeChunks_result hsink memberIndex
    (chunks controlChunkSize slice.bytes) .new begun
  obtain ⟨finished, hfinish⟩ := (call_result hsink written).2.2 memberIndex
  rw [chunks_controlChunkSize] at hupdate
  have hcheck : (checkMemberCrc mapping.crc crc
      (digestError slice.encrypted .member (some memberIndex))).result = .ok () := by
    rw [checkMemberCrc, refuse_eq_ok, finalize_eq_crc32 hupdate]
    cases hexpected : mapping.crc with
    | none => simp
    | some value => simp [hcrc value hexpected]
  refine ⟨finished, ?_⟩
  rw [deliverMember, Session.result_bind_ok hbegin, Session.result_bind_ok hwrite,
    Session.result_lift_bind hcheck, hfinish]

/-! ### The loop -/

/-- Extraction is about to enter this folder, or one after it. -/
structure AtFolder (streams : StreamsInfo) (outputs : List DecodedFolder) (folderIndex : Nat)
    (state : ExtractState) : Prop where
  total : state.totalFolderOutput ≤ outputBefore outputs folderIndex
  delivered : state.delivered ≤ state.totalFolderOutput
  /-- The folder before it is done with. -/
  finished : ∀ g, state.currentFolder = some g → g < folderIndex ∧
    ∃ folder, streams.folders[g]? = some folder ∧ state.nextSubstream = folder.substreams.length

/-- The member that comes next is number `k` of this folder, whose output is at hand. -/
structure AtMember (outputs : List DecodedFolder) (folderIndex k : Nat) (folder : Folder)
    (decoded : DecodedFolder) (state : ExtractState) : Prop where
  current : state.currentFolder = some folderIndex
  output : outputs[folderIndex]? = some decoded
  held : state.decodedFolder = some decoded
  next : state.nextSubstream = k
  offset : k < folder.substreams.length → state.folderOffset = folder.memberStart k
  total : state.totalFolderOutput ≤ outputBefore outputs (folderIndex + 1)
  delivered : state.delivered + decoded.bytes.length ≤ state.totalFolderOutput + state.folderOffset
  offset_le : state.folderOffset ≤ decoded.bytes.length

theorem outputBefore_succ {f : Nat} {decoded : DecodedFolder} (h : outputs[f]? = some decoded) :
    outputBefore outputs (f + 1) = outputBefore outputs f + decoded.bytes.length := by
  simp [outputBefore, List.take_add_one, h]

theorem outputBefore_mono {f g : Nat} (h : f ≤ g) :
    outputBefore outputs f ≤ outputBefore outputs g := by
  have hsub : (outputs.take f).Sublist (outputs.take g) := List.take_sublist_take_left h
  exact List.Sublist.sum_le_sum (hsub.map _) fun _ _ => Nat.zero_le _

theorem AtFolder.mono {f g : Nat} {state : ExtractState} (h : AtFolder streams outputs f state)
    (hle : f ≤ g) : AtFolder streams outputs g state :=
  ⟨h.total.trans (outputBefore_mono hle), h.delivered, fun g' hcurrent =>
    ⟨Nat.lt_of_lt_of_le (h.finished g' hcurrent).1 hle, (h.finished g' hcurrent).2⟩⟩

/-- A folder whose last member is delivered is done with. -/
theorem AtMember.leave {f : Nat} {folder : Folder} {decoded : DecodedFolder} {state : ExtractState}
    (hfolder : streams.folders[f]? = some folder)
    (h : AtMember outputs f folder.substreams.length folder decoded state) :
    AtFolder streams outputs (f + 1) state := by
  have hdelivered := h.delivered
  have hoffset := h.offset_le
  refine ⟨h.total, by omega, fun g hg => ?_⟩
  obtain rfl := Option.some.inj (hg.symm.trans h.current)
  exact ⟨Nat.lt_succ_self _, folder, hfolder, h.next⟩

/-- **Entering a verified folder** decodes what was verified. -/
theorem enterFolder_result (hsound : archive.Sound) (halike : DecodesAlike codecs archive)
    (hstreams : archive.header.mainStreams = some streams)
    (hall : AllVerified codecs archive streams base outputs) {f : Nat} {folder : Folder}
    (hfolder : streams.folders[f]? = some folder) {state : ExtractState}
    (hstate : AtFolder streams outputs f state) :
    ∃ decoded next, (archive.enterFolder codecs streams f state).result = .ok next ∧
      AtMember outputs f 0 folder decoded next := by
  obtain ⟨decoded, houtput, hverified⟩ := hall f folder hfolder
  obtain ⟨maximum, hmaximum, hdecode⟩ := hverified.decode
  have hbefore := hstate.total
  have htotal := hverified.total
  have htotalLt := hverified.total_lt
  have hleave : (leaveFolder streams state).result = .ok () := by
    unfold leaveFolder
    cases hcurrent : state.currentFolder with
    | none => rfl
    | some g =>
        obtain ⟨-, previous, hprevious, hnext⟩ := hstate.finished g hcurrent
        show (checkFolderFinished _ _ _ _ _).result = _
        rw [checkFolderFinished, Metered.result_bind_ok (orFormat_eq_ok.mpr hprevious)]
        exact refuseFormat_eq_ok.mpr ⟨not_not.mpr hnext, rfl⟩
  obtain ⟨maximum', hmaximum', hle⟩ := folderDecodeMaximum_mono hmaximum
    (show archive.limits.maxTotalOutputBytes - (base + outputBefore outputs f)
      ≤ archive.limits.maxTotalOutputBytes - state.totalFolderOutput by omega)
  have hsize := (hsound.decodeFolder_size hstreams hfolder hdecode).1
  have hdecode' : (archive.decodeArchiveFolder codecs streams folder f maximum').result
      = .ok decoded :=
    mapEncryptedError_eq_ok.mpr (halike streams hstreams _ _ _ _ hdecode (hsize.trans hle))
  have hadd : (addFolderOutput archive.limits state.totalFolderOutput decoded.bytes.length).result
      = .ok (state.totalFolderOutput + decoded.bytes.length) := by
    rw [addFolderOutput, Metered.result_bind_ok (orFormat_eq_ok.mpr (checkedAdd_of_lt (by omega))),
      Metered.result_bind_ok (checkLimit_of_le (by omega) _)]
    rfl
  refine ⟨decoded, { state with
    currentFolder := some f, decodedFolder := some decoded, nextSubstream := 0,
    folderOffset := 0, totalFolderOutput := state.totalFolderOutput + decoded.bytes.length }, ?_, ?_⟩
  · rw [enterFolder, Metered.result_bind_ok hleave,
      Metered.result_bind_ok (orFormat_eq_ok.mpr hfolder),
      Metered.result_bind_ok (orFormat_eq_ok.mpr (checkedSub_of_le (by omega))),
      Metered.result_bind_ok hmaximum', Metered.result_bind_ok hdecode',
      Metered.result_bind_ok hadd, hverified.crc]
    rfl
  · have hsucc := outputBefore_succ houtput
    refine ⟨rfl, houtput, rfl, rfl, fun _ => by simp [Folder.memberStart], ?_, ?_, Nat.zero_le _⟩
    · show state.totalFolderOutput + decoded.bytes.length ≤ _
      omega
    · show state.delivered + decoded.bytes.length ≤ state.totalFolderOutput + _ + 0
      have := hstate.delivered
      omega

/-- **The next member of a verified folder** is found, matches, and is counted. -/
theorem nextMember_result (hsound : archive.Sound)
    (hstreams : archive.header.mainStreams = some streams)
    (hall : AllVerified codecs archive streams base outputs) {f k : Nat} {folder : Folder}
    {decoded : DecodedFolder} (hfolder : streams.folders[f]? = some folder)
    (hcount : folder.substreams.length < 2 ^ 64) {substream : Substream}
    (hsubstream : folder.substreams[k]? = some substream) {state : ExtractState}
    (hstate : AtMember outputs f k folder decoded state) :
    ∃ slice next, (archive.nextMember streams ⟨f, k, substream.size, substream.crc⟩ state).result
        = .ok slice ∧
      (∀ crc, substream.crc = some crc → crc32 slice.bytes = crc) ∧
      (countMember slice state).result = .ok next ∧
      AtMember outputs f (k + 1) folder decoded next := by
  have hk : k < folder.substreams.length := (List.getElem?_eq_some_iff.mp hsubstream).1
  obtain ⟨decoded', houtput, hverified⟩ := hall f folder hfolder
  obtain rfl := Option.some.inj (hstate.output.symm.trans houtput)
  obtain ⟨start, stop, hat, hcrc⟩ := hverified.members k substream hsubstream
  obtain ⟨maximum, hmaximum, hdecode⟩ := hverified.decode
  have hsize := (hsound.decodeFolder_size hstreams hfolder hdecode).1
  have hlimit := memberSize_le hmaximum hsize hat
  have hstart : state.folderOffset = start := (hstate.offset hk).trans hat.start_eq.symm
  have hle := hat.start_le
  have hstop := hat.stop_le
  have htotalLt := hverified.total_lt
  have hlength : ((decoded.bytes.drop start).take (stop - start)).length = stop - start := by
    rw [List.length_take, List.length_drop]
    omega
  have hend : (Metadata.substreamEnd folder decoded.bytes.length start k substream.size
      "member byte range overflows" "unknown-nonfinal-substream-size").result = .ok stop := by
    obtain ⟨substream', hsubstream', hsized⟩ := hat.sized
    obtain rfl := Option.some.inj (hsubstream'.symm.trans hsubstream)
    exact substreamEnd_eq_ok.mpr (hsized.imp (fun ⟨n, hn, heq⟩ => ⟨n, hn, by omega, heq⟩) id)
  have hdelivered := hstate.delivered
  have htotal := hstate.total
  have hsucc := outputBefore_succ houtput
  refine ⟨⟨(decoded.bytes.drop start).take (stop - start), stop, decoded.encrypted⟩,
    { state with
      delivered := state.delivered + (stop - start), nextSubstream := k + 1,
      folderOffset := stop }, ?_, hcrc, ?_, ?_⟩
  · rw [nextMember, if_neg (not_not.mpr hstate.next.symm),
      Metered.result_bind_ok (orFormat_eq_ok.mpr hfolder), hstate.next,
      Metered.result_bind_ok (orFormat_eq_ok.mpr hsubstream), hstate.held,
      Metered.result_bind_ok rfl, hstart, Metered.result_bind_ok hend, if_neg (by omega),
      Metered.result_bind_ok (orFormat_eq_ok.mpr (checkedSub_of_le hle)),
      Metered.result_bind_ok (checkLimit_of_le hlimit _)]
    rfl
  · rw [countMember, hlength, hstate.next,
      Metered.result_bind_ok (orFormat_eq_ok.mpr (checkedAdd_of_lt (by omega))),
      Metered.result_bind_ok (orFormat_eq_ok.mpr (checkedAdd_of_lt (by omega)))]
    rfl
  · refine ⟨hstate.current, houtput, hstate.held, rfl, fun hmore => (hat.stop_eq hmore).1,
      htotal, ?_, hstop⟩
    show state.delivered + (stop - start) + decoded.bytes.length ≤ state.totalFolderOutput + stop
    omega

/-! ### All members -/

/-- The first of the streams that are left is in the first folder that has any. -/
theorem folderMajor_eq_cons {mapping : FileStream} {rest : List FileStream}
    (later : List Folder) : ∀ {start : Nat}, folderMajor start later = mapping :: rest →
      ∃ j folder substream, later[j]? = some folder ∧ folder.substreams[0]? = some substream ∧
        mapping = ⟨start + j, 0, substream.size, substream.crc⟩ ∧
        rest = substreamMappings (start + j) 1 (folder.substreams.drop 1)
          ++ folderMajor (start + j + 1) (later.drop (j + 1)) := by
  induction later with
  | nil => intro start h; exact absurd h (by simp [folderMajor])
  | cons folder later ih =>
      intro start h
      rw [folderMajor_cons] at h
      cases hsubstreams : folder.substreams with
      | nil =>
          rw [hsubstreams] at h
          obtain ⟨j, folder', substream, hfolder, hsubstream, hmapping, hrest⟩ := ih h
          refine ⟨j + 1, folder', substream, hfolder, hsubstream, ?_, ?_⟩
          · rw [hmapping, Nat.add_right_comm, Nat.add_assoc]
          · rw [hrest, Nat.add_right_comm, Nat.add_assoc]
            rfl
      | cons substream substreams =>
          rw [hsubstreams] at h
          obtain ⟨rfl, rfl⟩ := List.cons.inj h
          exact ⟨0, folder, substream, rfl, by rw [hsubstreams]; rfl, rfl, by rw [hsubstreams]; rfl⟩

/-- Extraction stands before a folder or in one, with these streams left. -/
inductive Along (streams : StreamsInfo) (outputs : List DecodedFolder) (state : ExtractState) :
    List FileStream → Prop
  | folder (f : Nat) : AtFolder streams outputs f state →
      Along streams outputs state (folderMajor f (streams.folders.drop f))
  | member (f k : Nat) (folder : Folder) (decoded : DecodedFolder) :
      streams.folders[f]? = some folder → k < folder.substreams.length →
      AtMember outputs f k folder decoded state →
      Along streams outputs state (substreamMappings f k (folder.substreams.drop k)
        ++ folderMajor (f + 1) (streams.folders.drop (f + 1)))

/-- After a member comes the next one of its folder, or the next folder. -/
theorem AtMember.along {f k : Nat} {folder : Folder} {decoded : DecodedFolder}
    {state : ExtractState} (hfolder : streams.folders[f]? = some folder)
    (hk : k ≤ folder.substreams.length) (h : AtMember outputs f k folder decoded state) :
    Along streams outputs state (substreamMappings f k (folder.substreams.drop k)
      ++ folderMajor (f + 1) (streams.folders.drop (f + 1))) := by
  rcases Nat.lt_or_eq_of_le hk with hlt | rfl
  · exact .member f k folder decoded hfolder hlt h
  · rw [List.drop_length]
    exact .folder (f + 1) (h.leave hfolder)

theorem substreamMappings_drop {f k : Nat} {folder : Folder} {substream : Substream}
    (h : folder.substreams[k]? = some substream) :
    substreamMappings f k (folder.substreams.drop k)
      = ⟨f, k, substream.size, substream.crc⟩
        :: substreamMappings f (k + 1) (folder.substreams.drop (k + 1)) := by
  obtain ⟨hk, rfl⟩ := List.getElem?_eq_some_iff.mp h
  rw [List.drop_eq_getElem_cons hk]
  rfl

/-- **Reaching the next member** of verified folders. -/
theorem reachFolder_result (hsound : archive.Sound) (halike : DecodesAlike codecs archive)
    (hstreams : archive.header.mainStreams = some streams)
    (hall : AllVerified codecs archive streams base outputs) {state : ExtractState}
    {mapping : FileStream} {rest left : List FileStream} (hstate : Along streams outputs state left)
    (hleft : left = mapping :: rest) :
    ∃ f k folder substream decoded next, streams.folders[f]? = some folder ∧
      folder.substreams[k]? = some substream ∧
      mapping = ⟨f, k, substream.size, substream.crc⟩ ∧
      rest = substreamMappings f (k + 1) (folder.substreams.drop (k + 1))
        ++ folderMajor (f + 1) (streams.folders.drop (f + 1)) ∧
      (archive.reachFolder codecs streams f state).result = .ok next ∧
      AtMember outputs f k folder decoded next := by
  cases hstate with
  | folder f hat =>
      obtain ⟨j, folder, substream, hfolder, hsubstream, rfl, rfl⟩ := folderMajor_eq_cons _ hleft
      rw [List.getElem?_drop] at hfolder
      obtain ⟨decoded, next, henter, hnext⟩ :=
        enterFolder_result hsound halike hstreams hall hfolder (hat.mono (Nat.le_add_right f j))
      refine ⟨f + j, 0, folder, substream, decoded, next, hfolder, hsubstream, rfl, ?_, ?_, hnext⟩
      · rw [List.drop_drop, Nat.add_assoc]
      · rw [reachFolder, if_pos]
        · exact henter
        · intro hcurrent
          have := (hat.finished _ hcurrent).1
          omega
  | member f k folder decoded hfolder hk hat =>
      have hsubstream := List.getElem?_eq_getElem hk
      rw [substreamMappings_drop hsubstream] at hleft
      obtain ⟨rfl, rfl⟩ := List.cons.inj hleft
      refine ⟨f, k, folder, _, decoded, state, hfolder, hsubstream, rfl, rfl, ?_, hat⟩
      rw [reachFolder, if_neg (not_not.mpr hat.current)]
      rfl

/-- **A member of verified folders** is delivered to a sink that does not fail. -/
theorem extractStream_result (hsound : archive.Sound) (halike : DecodesAlike codecs archive)
    (hstreams : archive.header.mainStreams = some streams)
    (hcount : (folderMajor 0 streams.folders).length < 2 ^ 64)
    (hall : AllVerified codecs archive streams base outputs) (hsink : sink.NeverFails)
    {state : ExtractState} {mapping : FileStream} {rest : List FileStream}
    (hstate : Along streams outputs state (mapping :: rest)) (memberIndex : Nat)
    (entry : FileEntry) (s : σ) :
    ∃ next s', (archive.extractStream codecs sink memberIndex entry mapping state).result s
        = (.ok next, s') ∧ Along streams outputs next rest := by
  obtain ⟨f, k, folder, substream, decoded, reached, hfolder, hsubstream, rfl, rfl, hreach, hat⟩ :=
    reachFolder_result hsound halike hstreams hall hstate rfl
  have hlength : folder.substreams.length < 2 ^ 64 := by
    have hfilter : (folderMajor 0 streams.folders).filter (·.folderIndex = 0 + f)
        = substreamMappings (0 + f) 0 folder.substreams := folderMajor_filter _ hfolder
    have hle := List.length_filter_le (fun mapping : FileStream => mapping.folderIndex = 0 + f)
      (folderMajor 0 streams.folders)
    rw [hfilter, substreamMappings, List.length_map, List.length_zipIdx] at hle
    exact Nat.lt_of_le_of_lt hle hcount
  obtain ⟨slice, next, hslice, hcrc, hnext, hat'⟩ :=
    nextMember_result hsound hstreams hall hfolder hlength hsubstream hat
  obtain ⟨s', hdeliver⟩ := deliverMember_result hsink memberIndex entry
    ⟨f, k, substream.size, substream.crc⟩ hcrc s
  refine ⟨next, s', ?_, hat'.along hfolder (List.getElem?_eq_some_iff.mp hsubstream).1⟩
  rw [extractStream, Session.result_lift_bind (orFormat_eq_ok.mpr hstreams),
    Session.result_lift_bind hreach, Session.result_lift_bind hslice,
    Session.result_bind_ok hdeliver]
  exact Session.result_lift_ok hnext

theorem extractEmpty_result (hsink : sink.NeverFails) (memberIndex : Nat) (entry : FileEntry)
    (s : σ) : ∃ s', (extractEmpty sink memberIndex entry).result s = (.ok (), s') := by
  unfold extractEmpty
  split
  · obtain ⟨begun, hbegin⟩ := (call_result hsink s).1 memberIndex entry 0
    obtain ⟨finished, hfinish⟩ := (call_result hsink begun).2.2 memberIndex
    exact ⟨finished, by rw [Session.result_bind_ok hbegin, hfinish]⟩
  · exact ⟨s, rfl⟩

/-- Extraction goes through when there is a step for every stream that is left. -/
theorem extractMembers_result (codecs : Codecs) (archive : Archive) (hsink : sink.NeverFails)
    (P : ExtractState → List FileStream → Prop)
    (hstep : ∀ {state mapping rest}, P state (mapping :: rest) → ∀ memberIndex entry s,
      ∃ next s', (archive.extractStream codecs sink memberIndex entry mapping state).result s
        = (.ok next, s') ∧ P next rest) (entries : List FileEntry) :
    ∀ (memberIndex : Nat) (state : ExtractState) (s : σ),
      P state (entries.filterMap (·.stream)) →
      ∃ last s', (archive.extractMembers codecs sink memberIndex entries state).result s
        = (.ok last, s') ∧ P last [] := by
  induction entries with
  | nil => exact fun memberIndex state s h => ⟨state, s, rfl, h⟩
  | cons entry rest ih =>
      intro memberIndex state s h
      have hone : ∃ next s', (archive.extractMember codecs sink memberIndex entry state).result s
          = (.ok next, s') ∧ P next (rest.filterMap (·.stream)) := by
        rw [extractMember, Session.result_lift_bind (result_checkpoint 1)]
        cases hstream : entry.stream with
        | some mapping =>
            rw [List.filterMap_cons_some hstream] at h
            exact hstep h memberIndex entry s
        | none =>
            rw [List.filterMap_cons_none hstream] at h
            obtain ⟨s', hempty⟩ := extractEmpty_result hsink memberIndex entry s
            exact ⟨state, s', by rw [Session.result_bind_ok hempty]; rfl, h⟩
      obtain ⟨next, s', hmember, hnext⟩ := hone
      obtain ⟨last, s'', hrest, hlast⟩ := ih (memberIndex + 1) next s' hnext
      exact ⟨last, s'', by rw [extractMembers, Session.result_bind_ok hmember, hrest], hlast⟩

theorem finishExtraction_result (hstreams : archive.header.mainStreams = some streams)
    {state : ExtractState} {left : List FileStream} (hstate : Along streams outputs state left)
    (hleft : left = []) : (archive.finishExtraction state).result = .ok () := by
  cases hstate with
  | folder f hat =>
      rw [finishExtraction, hstreams]
      cases hcurrent : state.currentFolder with
      | none => rfl
      | some g =>
          obtain ⟨-, folder, hfolder, hnext⟩ := hat.finished g hcurrent
          show (checkFolderFinished _ _ _ _ _).result = _
          rw [checkFolderFinished, Metered.result_bind_ok (orFormat_eq_ok.mpr hfolder)]
          exact refuseFormat_eq_ok.mpr ⟨not_not.mpr hnext, rfl⟩
  | member f k folder decoded hfolder hk hat =>
      rw [substreamMappings_drop (List.getElem?_eq_getElem hk)] at hleft
      exact absurd hleft (List.cons_ne_nil _ _)

/-- **What has been verified is extracted**, by any sink that does not fail. -/
theorem extractEntriesTo_of_verify (hsound : archive.Sound) (halike : DecodesAlike codecs archive)
    (hverify : (archive.verify codecs).result = .ok ()) (hsink : sink.NeverFails) (s : σ) :
    ∃ total s', (archive.extractEntriesTo codecs sink).result s = (.ok total, s') := by
  have hdone : ∀ {state : ExtractState} {s' : σ},
      (archive.extractMembers codecs sink 0 archive.entries {}).result s = (.ok state, s') →
      (archive.finishExtraction state).result = .ok () →
      ∃ total s', (archive.extractEntriesTo codecs sink).result s = (.ok total, s') :=
    fun hmembers hfinish => ⟨_, _, by
      rw [extractEntriesTo, Session.result_bind_ok hmembers, Session.result_lift_bind hfinish]
      rfl⟩
  rcases hsound.mapped with hmapped | hnone
  · cases hstreams : archive.header.mainStreams with
    | none =>
        -- no folders, so no entry has a stream
        have hleft : archive.entries.filterMap (·.stream) = [] := by
          rw [hmapped.streams, hstreams]
          rfl
        obtain ⟨last, s', hmembers, -⟩ := extractMembers_result codecs archive hsink
          (fun _ left => left = []) (fun h => absurd h (List.cons_ne_nil _ _)) archive.entries 0 {}
          s hleft
        exact hdone hmembers (by rw [finishExtraction, hstreams]; rfl)
    | some streams =>
        obtain ⟨base, outputs, hall⟩ := verify_eq_ok hverify hstreams
        have hfolders : sectionFolders archive.header.mainStreams = streams.folders := by
          rw [hstreams]
          rfl
        have hcount := hmapped.count
        rw [hfolders] at hcount
        have hstart : Along streams outputs {} (archive.entries.filterMap (·.stream)) := by
          rw [hmapped.streams, hfolders]
          exact .folder 0 ⟨Nat.zero_le _, Nat.le_refl _, fun g hg => absurd hg (by simp)⟩
        obtain ⟨last, s', hmembers, hlast⟩ := extractMembers_result codecs archive hsink
          (Along streams outputs)
          (fun h => extractStream_result hsound halike hstreams hcount hall hsink h)
          archive.entries 0 {} s hstart
        exact hdone hmembers (finishExtraction_result hstreams hlast rfl)
  · refine hdone (by rw [hnone]; rfl) ?_
    rw [finishExtraction]
    cases archive.header.mainStreams <;> rfl

end Archive

end Un7z
